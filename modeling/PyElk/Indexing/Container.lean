import PyElk.Support.Blake2b
import PyElk.Support.Ordered

open Ordered

namespace PyElk

def IR_MAGIC : List UInt8 := [0x50, 0x59, 0x45, 0x4C, 0x4B, 0x49, 0x52, 0]
def QUERY_MAGIC : List UInt8 := [0x50, 0x59, 0x45, 0x4C, 0x4B, 0x51, 0, 0]
def SCHEMA_MAJOR : Nat := 1
def SCHEMA_MINOR : Nat := 0
def OPTIONAL_TAG_START : Nat := 0x8000
def CHECKSUM_SIZE : Nat := 32
def MAX_SECTIONS : Nat := 256

/-- `_HEADER`: magic, major and minor version, number of sections. -/
def headerStruct : Struct (List UInt8 × Nat × Nat × Nat) :=
  (Struct.raw 8).pair ((Struct.uint 2).pair ((Struct.uint 2).pair (Struct.uint 4)))

/-- `_DIRECTORY_ENTRY`: tag, offset, length, count. -/
def directoryEntryStruct : Struct (Nat × Nat × Nat × Nat) :=
  (Struct.uint 2).pair ((Struct.uint 8).pair ((Struct.uint 8).pair (Struct.uint 8)))

structure EncodedSection where
  tag : Nat
  count : Nat
  payload : List UInt8
  deriving DecidableEq, Repr

structure DecodedSection where
  count : Nat
  payload : List UInt8
  deriving DecidableEq, Repr

/-- The directory of sections that follow each other from an offset on. -/
def directoryEntries : Nat → List EncodedSection → List (Nat × Nat × Nat × Nat)
  | _, [] => []
  | offset, section_ :: rest =>
    (section_.tag, offset, section_.payload.length, section_.count) ::
      directoryEntries (offset + section_.payload.length) rest

def directoryEnd (sectionCount : Nat) : Nat := headerStruct.size + sectionCount * directoryEntryStruct.size

def encodeContainer (magic : List UInt8) (sections : List EncodedSection) : Option (List UInt8) :=
  let ordered := sortedBy EncodedSection.tag sections
  if (ordered.map EncodedSection.tag).Nodup ∧ ordered.length ≤ MAX_SECTIONS then do
    let payload := ordered.flatMap EncodedSection.payload
    let header ← headerStruct.pack (magic, SCHEMA_MAJOR, SCHEMA_MINOR, ordered.length)
    let directory ← directoryEntryStruct.packAll (directoryEntries (directoryEnd ordered.length) ordered)
    pure (header ++ directory ++ payload ++ blake2b256 payload)
  else none

section

variable (recognizedTags : List Nat) (raw : List UInt8) (checksumStart : Nat)

/-- The loop over the directory: the sections with a recognized tag, and the
offset at which the next section would begin. -/
def readDirectory : List (Nat × Nat × Nat × Nat) → Option Nat → Nat → Option (List (Nat × DecodedSection) × Nat)
  | [], _, expectedOffset => some ([], expectedOffset)
  | (tag, offset, length, count) :: rest, previousTag, expectedOffset =>
    if (∀ previous ∈ previousTag, previous < tag) ∧ offset = expectedOffset ∧ length ≤ checksumStart - offset ∧
        offset + length ≤ checksumStart ∧ (tag ∈ recognizedTags ∨ OPTIONAL_TAG_START ≤ tag) then do
      let (sections, finalOffset) ← readDirectory rest (some tag) (offset + length)
      if tag ∈ recognizedTags then
        pure ((tag, ⟨count, (raw.drop offset).take length⟩) :: sections, finalOffset)
      else pure (sections, finalOffset)
    else none

end

def containerHeader (raw : List UInt8) : List UInt8 × Nat × Nat × Nat :=
  headerStruct.unpack (raw.take headerStruct.size)

def containerEntries (raw : List UInt8) : List (Nat × Nat × Nat × Nat) :=
  directoryEntryStruct.unpackAll (containerHeader raw).2.2.2 (raw.drop headerStruct.size)

/-- A dictionary of the source is the list of its items in insertion order. -/
def decodeContainer (raw magic : List UInt8) (requiredTags recognizedTags : List Nat) :
    Option (List (Nat × DecodedSection)) :=
  let (actualMagic, major, _, sectionCount) := containerHeader raw
  let checksumStart := raw.length - CHECKSUM_SIZE
  let body := (raw.drop (directoryEnd sectionCount)).take (checksumStart - directoryEnd sectionCount)
  if headerStruct.size + CHECKSUM_SIZE ≤ raw.length ∧ actualMagic = magic ∧ major = SCHEMA_MAJOR ∧
      sectionCount ≤ MAX_SECTIONS ∧ directoryEnd sectionCount ≤ checksumStart ∧
      raw.drop checksumStart = blake2b256 body then do
    let (sections, finalOffset) ←
      readDirectory recognizedTags raw checksumStart (containerEntries raw) none (directoryEnd sectionCount)
    if finalOffset = checksumStart ∧ ∀ tag ∈ requiredTags, (sections.lookup tag).isSome then pure sections else none
  else none

/-- Data of the current minor version without optional sections. -/
structure Plain (raw : List UInt8) : Prop where
  minor : (containerHeader raw).2.2.1 = SCHEMA_MINOR
  tags : ∀ entry ∈ containerEntries raw, entry.1 < OPTIONAL_TAG_START

def EncodedSection.decoded (section_ : EncodedSection) : Nat × DecodedSection :=
  (section_.tag, ⟨section_.count, section_.payload⟩)

def DecodedSection.encoded (item : Nat × DecodedSection) : EncodedSection := ⟨item.1, item.2.count, item.2.payload⟩

theorem directoryEntries_length (offset : Nat) (sections : List EncodedSection) :
    (directoryEntries offset sections).length = sections.length := by
  induction sections generalizing offset with
  | nil => rfl
  | cons first rest ih => rw [directoryEntries, List.length_cons, List.length_cons, ih]

section

variable {recognizedTags : List Nat} {raw : List UInt8} {checksumStart : Nat}

/-- The directory of sections that lie where it says is read back. -/
theorem readDirectory_entries {before after : List UInt8} {sections : List EncodedSection} {previousTag : Option Nat}
    (layout : raw = before ++ sections.flatMap EncodedSection.payload ++ after)
    (bound : checksumStart = raw.length - after.length)
    (recognized : ∀ section_ ∈ sections, section_.tag ∈ recognizedTags)
    (increasing : (sections.map EncodedSection.tag).Pairwise (· < ·))
    (above : ∀ previous ∈ previousTag, ∀ section_ ∈ sections, previous < section_.tag) :
    readDirectory recognizedTags raw checksumStart
      (directoryEntries before.length sections) previousTag before.length =
      some (sections.map EncodedSection.decoded, checksumStart) := by
  induction sections generalizing before previousTag with
  | nil =>
    have all : before.length = checksumStart := by
      rw [bound, layout]
      simp
    rw [directoryEntries, readDirectory, List.map_nil, all]
  | cons first rest ih =>
    obtain ⟨smallest, ordered⟩ := List.pairwise_cons.mp increasing
    have member := recognized first List.mem_cons_self
    have size : raw.length =
        before.length + first.payload.length + (rest.flatMap EncodedSection.payload).length + after.length := by
      rw [layout]
      simp only [List.flatMap_cons, List.length_append]
      omega
    have payload : (raw.drop before.length).take first.payload.length = first.payload := by
      rw [layout, List.append_assoc, List.drop_left, List.flatMap_cons, List.append_assoc, List.take_left]
    have tail : readDirectory recognizedTags raw checksumStart
        (directoryEntries (before.length + first.payload.length) rest) (some first.tag)
        (before.length + first.payload.length) = some (rest.map EncodedSection.decoded, checksumStart) := by
      rw [← List.length_append]
      refine ih ?_ (fun other found => recognized other (List.mem_cons_of_mem _ found)) ordered ?_
      · rw [layout, List.flatMap_cons, List.append_assoc, List.append_assoc, List.append_assoc, List.append_assoc]
      · intro previous same other found
        cases same
        exact smallest other.tag (List.mem_map_of_mem found)
    have admitted : (∀ previous ∈ previousTag, previous < first.tag) ∧ before.length = before.length ∧
        first.payload.length ≤ checksumStart - before.length ∧
        before.length + first.payload.length ≤ checksumStart ∧
        (first.tag ∈ recognizedTags ∨ OPTIONAL_TAG_START ≤ first.tag) :=
      ⟨fun previous same => above previous same first List.mem_cons_self, rfl, by omega, by omega, Or.inl member⟩
    rw [directoryEntries, readDirectory, if_pos admitted, tail]
    simp only [Option.bind_eq_bind, Option.bind_some, if_pos member, payload]
    rfl

/-- A directory that is read without optional sections describes sections that
follow each other without a gap. -/
theorem readDirectory_sound {entries : List (Nat × Nat × Nat × Nat)} {previousTag : Option Nat} {expectedOffset : Nat}
    {sections : List (Nat × DecodedSection)} {finalOffset : Nat} (inside : checksumStart ≤ raw.length)
    (required : ∀ entry ∈ entries, entry.1 < OPTIONAL_TAG_START)
    (read : readDirectory recognizedTags raw checksumStart entries previousTag expectedOffset =
      some (sections, finalOffset)) :
    entries = directoryEntries expectedOffset (sections.map DecodedSection.encoded) ∧
      expectedOffset ≤ finalOffset ∧
      (sections.map DecodedSection.encoded).flatMap EncodedSection.payload =
        (raw.drop expectedOffset).take (finalOffset - expectedOffset) ∧
      (sections.map Prod.fst).Pairwise (· < ·) ∧
      (∀ item ∈ sections, item.1 ∈ recognizedTags ∧ ∀ previous ∈ previousTag, previous < item.1) := by
  induction entries generalizing previousTag expectedOffset sections with
  | nil =>
    rw [readDirectory] at read
    cases read
    exact ⟨rfl, le_refl _, by simp, List.Pairwise.nil, fun item member => absurd member List.not_mem_nil⟩
  | cons entry rest ih =>
    obtain ⟨tag, offset, length, count⟩ := entry
    rw [readDirectory, Option.ite_none_right_eq_some] at read
    obtain ⟨⟨above, rfl, -, fits, known⟩, after⟩ := read
    obtain ⟨⟨others, last⟩, tail, kept⟩ := Option.bind_eq_some_iff.mp after
    have small := required _ List.mem_cons_self
    have member : tag ∈ recognizedTags := known.resolve_right (not_le.mpr small)
    simp only [if_pos member] at kept
    cases kept
    obtain ⟨same, later, bytes, ordered, tags⟩ :=
      ih (fun entry found => required entry (List.mem_cons_of_mem _ found)) tail
    have size : ((raw.drop offset).take length).length = length := by
      rw [List.length_take, List.length_drop]
      omega
    refine ⟨?_, by omega, ?_, ?_, ?_⟩
    · simp only [List.map_cons, DecodedSection.encoded, directoryEntries, size]
      rw [same]
    · rw [List.map_cons, List.flatMap_cons, bytes]
      have split : finalOffset - offset = length + (finalOffset - (offset + length)) := by omega
      rw [split, List.take_add, List.drop_drop]
      rfl
    · rw [List.map_cons, List.pairwise_cons]
      refine ⟨fun other found => ?_, ordered⟩
      obtain ⟨item, present, rfl⟩ := List.mem_map.mp found
      exact (tags item present).2 tag rfl
    · intro item found
      rcases List.mem_cons.mp found with rfl | present
      · exact ⟨member, above⟩
      · exact ⟨(tags item present).1,
          fun previous same => (above previous same).trans ((tags item present).2 tag rfl)⟩

end

/-- The sections that are read have recognized tags in order and lie inside the data. -/
theorem readDirectory_ordered {recognizedTags : List Nat} {raw : List UInt8} {checksumStart : Nat}
    {entries : List (Nat × Nat × Nat × Nat)} {previousTag : Option Nat} {expectedOffset : Nat}
    {sections : List (Nat × DecodedSection)} {finalOffset : Nat}
    (read : readDirectory recognizedTags raw checksumStart entries previousTag expectedOffset =
      some (sections, finalOffset)) :
    (sections.map Prod.fst).Pairwise (· < ·) ∧ ∀ item ∈ sections, item.1 ∈ recognizedTags ∧
      item.2.payload.length ≤ raw.length ∧ ∀ previous ∈ previousTag, previous < item.1 := by
  induction entries generalizing previousTag expectedOffset sections finalOffset with
  | nil =>
    rw [readDirectory] at read
    cases read
    exact ⟨List.Pairwise.nil, fun item member => absurd member List.not_mem_nil⟩
  | cons entry rest ih =>
    obtain ⟨tag, offset, length, count⟩ := entry
    rw [readDirectory, Option.ite_none_right_eq_some] at read
    obtain ⟨⟨above, -, -, -, -⟩, after⟩ := read
    obtain ⟨⟨others, last⟩, tail, kept⟩ := Option.bind_eq_some_iff.mp after
    obtain ⟨ordered, inside⟩ := ih tail
    have later : ∀ item ∈ others, item.1 ∈ recognizedTags ∧ item.2.payload.length ≤ raw.length ∧
        ∀ previous ∈ previousTag, previous < item.1 := fun item member =>
      ⟨(inside item member).1, (inside item member).2.1,
        fun previous same => (above previous same).trans ((inside item member).2.2 tag rfl)⟩
    by_cases member : tag ∈ recognizedTags
    · simp only [if_pos member] at kept
      cases kept
      refine ⟨List.pairwise_cons.mpr ⟨fun other found => ?_, ordered⟩,
        List.forall_mem_cons.mpr ⟨⟨member, ?_, above⟩, later⟩⟩
      · obtain ⟨item, present, rfl⟩ := List.mem_map.mp found
        exact (inside item present).2.2 tag rfl
      · rw [List.length_take, List.length_drop]
        omega
    · simp only [if_neg member] at kept
      cases kept
      exact ⟨ordered, later⟩

/-- The lookup of a tag among encoded sections. -/
theorem lookup_isSome_iff {sections : List (Nat × DecodedSection)} {tag : Nat} :
    (sections.lookup tag).isSome ↔ tag ∈ sections.map Prod.fst := by
  induction sections with
  | nil => simp
  | cons item rest ih =>
    obtain ⟨first, found⟩ := item
    rw [List.lookup_cons, List.map_cons, List.mem_cons]
    by_cases same : tag = first
    · simp [same]
    · have other : (tag == first) = false := beq_false_of_ne same
      rw [other]
      exact ih.trans (or_iff_right same).symm

theorem sortedBy_tag_eq {sections : List EncodedSection}
    (increasing : (sections.map EncodedSection.tag).Pairwise (· < ·)) :
    sortedBy EncodedSection.tag sections = sections :=
  List.Pairwise.insertionSort_eq ((List.pairwise_map.mp increasing).imp le_of_lt)

theorem sortedBy_tag_strict {sections : List EncodedSection}
    (distinct : ((sortedBy EncodedSection.tag sections).map EncodedSection.tag).Nodup) :
    ((sortedBy EncodedSection.tag sections).map EncodedSection.tag).Pairwise (· < ·) := by
  have order := List.pairwise_map.mpr (sortedBy_pairwise EncodedSection.tag sections)
  exact (order.and distinct).imp fun ⟨le, ne⟩ => lt_of_le_of_ne le ne

/-- The parts of an encoded container, and what reading its header and directory gives. -/
theorem encodeContainer_parts {magic : List UInt8} {sections : List EncodedSection} {raw : List UInt8}
    (encoded : encodeContainer magic sections = some raw) :
    ∃ front, raw = front ++ (sortedBy EncodedSection.tag sections).flatMap EncodedSection.payload ++
        blake2b256 ((sortedBy EncodedSection.tag sections).flatMap EncodedSection.payload) ∧
      front.length = directoryEnd sections.length ∧
      ((sortedBy EncodedSection.tag sections).map EncodedSection.tag).Nodup ∧ sections.length ≤ MAX_SECTIONS ∧
      containerHeader raw = (magic, SCHEMA_MAJOR, SCHEMA_MINOR, sections.length) ∧
      containerEntries raw =
        directoryEntries (directoryEnd sections.length) (sortedBy EncodedSection.tag sections) := by
  have length := (sortedBy_perm EncodedSection.tag sections).length_eq
  unfold encodeContainer at encoded
  set ordered := sortedBy EncodedSection.tag sections with sorted
  rw [Option.ite_none_right_eq_some] at encoded
  obtain ⟨⟨distinct, few⟩, after⟩ := encoded
  obtain ⟨header, packedHeader, after'⟩ := Option.bind_eq_some_iff.mp after
  obtain ⟨directory, packedDirectory, last⟩ := Option.bind_eq_some_iff.mp after'
  set payload := ordered.flatMap EncodedSection.payload with body
  have whole : header ++ directory ++ payload ++ blake2b256 payload = raw := Option.some.inj last
  rw [length] at packedHeader packedDirectory few
  have headerSize := headerStruct.size_of_pack packedHeader
  have directorySize := Struct.packAll_length packedDirectory
  rw [directoryEntries_length, length] at directorySize
  have readHeader : containerHeader raw = (magic, SCHEMA_MAJOR, SCHEMA_MINOR, sections.length) := by
    have start : raw.take headerStruct.size = header := by
      rw [← whole, List.append_assoc, List.append_assoc, List.take_left' headerSize]
    rw [containerHeader, start, headerStruct.unpack_pack packedHeader]
  refine ⟨header ++ directory, whole.symm, ?_, distinct, few, readHeader, ?_⟩
  · rw [List.length_append, headerSize, directorySize, directoryEnd]
  · have rest : raw.drop headerStruct.size = directory ++ (payload ++ blake2b256 payload) := by
      rw [← whole, List.append_assoc, List.append_assoc, List.drop_left' headerSize]
    have unpacked := Struct.unpackAll_packAll packedDirectory
    rw [directoryEntries_length, length] at unpacked
    rw [containerEntries, readHeader, rest, Struct.unpackAll_append directorySize, unpacked]

/-- What was encoded is decoded, whatever the order in which its sections were given. -/
theorem decodeContainer_encodeContainer {magic : List UInt8} {sections : List EncodedSection} {raw : List UInt8}
    {requiredTags recognizedTags : List Nat} (encoded : encodeContainer magic sections = some raw)
    (recognized : ∀ section_ ∈ sections, section_.tag ∈ recognizedTags)
    (complete : ∀ tag ∈ requiredTags, tag ∈ sections.map EncodedSection.tag) :
    decodeContainer raw magic requiredTags recognizedTags =
      some ((sortedBy EncodedSection.tag sections).map EncodedSection.decoded) := by
  obtain ⟨front, whole, before, distinct, few, readHeader, readEntries⟩ := encodeContainer_parts encoded
  set ordered := sortedBy EncodedSection.tag sections with sorted
  set payload := ordered.flatMap EncodedSection.payload with body
  have checksum : (blake2b256 payload).length = CHECKSUM_SIZE := blake2b256_length payload
  have size : raw.length = directoryEnd sections.length + payload.length + CHECKSUM_SIZE := by
    rw [whole, List.length_append, List.length_append, before, checksum]
  have split : raw.length - CHECKSUM_SIZE = directoryEnd sections.length + payload.length := by omega
  have bytes : (raw.drop (directoryEnd sections.length)).take
      (raw.length - CHECKSUM_SIZE - directoryEnd sections.length) = payload := by
    have extent : raw.length - CHECKSUM_SIZE - directoryEnd sections.length = payload.length := by omega
    rw [extent, whole, List.append_assoc, List.drop_left' before, List.take_left]
  have ending : raw.drop (raw.length - CHECKSUM_SIZE) = blake2b256 payload := by
    rw [split, whole]
    refine List.drop_left' ?_
    rw [List.length_append, before]
  have read : readDirectory recognizedTags raw (raw.length - CHECKSUM_SIZE)
      (directoryEntries (directoryEnd sections.length) ordered) none (directoryEnd sections.length) =
        some (ordered.map EncodedSection.decoded, raw.length - CHECKSUM_SIZE) := by
    rw [← before]
    refine readDirectory_entries whole (by rw [checksum])
      (fun section_ member => recognized section_ (mem_sortedBy.mp member)) (sortedBy_tag_strict distinct) ?_
    exact fun previous none_ => absurd none_ (by simp)
  have present : ∀ tag ∈ requiredTags, ((ordered.map EncodedSection.decoded).lookup tag).isSome := by
    intro tag required
    obtain ⟨section_, member, rfl⟩ := List.mem_map.mp (complete tag required)
    rw [lookup_isSome_iff, List.map_map]
    exact List.mem_map_of_mem (mem_sortedBy.mpr member)
  have least : headerStruct.size + CHECKSUM_SIZE ≤ raw.length := by
    rw [size, directoryEnd]
    omega
  unfold decodeContainer
  simp only [readHeader, readEntries, read, bytes, ending]
  rw [if_pos ⟨least, trivial, trivial, few, by omega, trivial⟩]
  simp only [Option.bind_eq_bind, Option.bind_some]
  exact if_pos ⟨trivial, present⟩

/-- Plain data is the encoding of what it decodes to. -/
theorem encodeContainer_decodeContainer {raw magic : List UInt8} {requiredTags recognizedTags : List Nat}
    {sections : List (Nat × DecodedSection)} (plain : Plain raw)
    (decoded : decodeContainer raw magic requiredTags recognizedTags = some sections) :
    encodeContainer magic (sections.map DecodedSection.encoded) = some raw ∧
      (sections.map Prod.fst).Pairwise (· < ·) ∧ (∀ item ∈ sections, item.1 ∈ recognizedTags) ∧
      ∀ tag ∈ requiredTags, tag ∈ sections.map Prod.fst := by
  obtain ⟨minor, tags⟩ := plain
  rcases header : containerHeader raw with ⟨actualMagic, major, actualMinor, sectionCount⟩
  unfold decodeContainer at decoded
  simp only [header] at decoded minor
  subst minor
  rw [Option.ite_none_right_eq_some] at decoded
  obtain ⟨⟨least, rfl, rfl, few, room, checksum⟩, after⟩ := decoded
  obtain ⟨⟨found, finalOffset⟩, read, kept⟩ := Option.bind_eq_some_iff.mp after
  rw [Option.ite_none_right_eq_some] at kept
  obtain ⟨⟨rfl, complete⟩, same⟩ := kept
  cases same
  have inside : raw.length - CHECKSUM_SIZE ≤ raw.length := Nat.sub_le _ _
  obtain ⟨entries, -, payload, increasing, recognized⟩ := readDirectory_sound inside tags read
  set encoded := found.map DecodedSection.encoded with sections
  have sectionTags : encoded.map EncodedSection.tag = found.map Prod.fst := by rw [sections, List.map_map]; rfl
  have count : encoded.length = sectionCount := by
    rw [← directoryEntries_length (directoryEnd sectionCount), ← entries, containerEntries, header,
      Struct.unpackAll_length]
  have packedHeader : headerStruct.pack (actualMagic, SCHEMA_MAJOR, SCHEMA_MINOR, encoded.length) =
      some (raw.take headerStruct.size) := by
    have size : (raw.take headerStruct.size).length = headerStruct.size := by rw [List.length_take]; omega
    have packed := headerStruct.pack_unpack size
    rw [← containerHeader, header] at packed
    rw [count, packed]
  have packedDirectory : directoryEntryStruct.packAll (directoryEntries (directoryEnd encoded.length) encoded) =
      some ((raw.drop headerStruct.size).take (sectionCount * directoryEntryStruct.size)) := by
    have size : ((raw.drop headerStruct.size).take (sectionCount * directoryEntryStruct.size)).length =
        sectionCount * directoryEntryStruct.size := by
      rw [List.length_take, List.length_drop]
      rw [directoryEnd] at room
      omega
    have packed := Struct.packAll_unpackAll size
    rw [← Struct.unpackAll_append size ((raw.drop headerStruct.size).drop (sectionCount * directoryEntryStruct.size)),
      List.take_append_drop] at packed
    rw [count, ← entries, containerEntries, header, packed]
  have whole : raw.take headerStruct.size ++
      (raw.drop headerStruct.size).take (sectionCount * directoryEntryStruct.size) ++
      encoded.flatMap EncodedSection.payload ++ blake2b256 (encoded.flatMap EncodedSection.payload) = raw := by
    have first : raw.take headerStruct.size ++
        (raw.drop headerStruct.size).take (sectionCount * directoryEntryStruct.size) =
          raw.take (directoryEnd sectionCount) := by rw [directoryEnd, List.take_add]
    have second : raw.take (directoryEnd sectionCount) ++ encoded.flatMap EncodedSection.payload =
        raw.take (raw.length - CHECKSUM_SIZE) := by
      rw [payload, ← List.take_add]
      congr 1
      omega
    rw [first, second, payload, ← checksum, List.take_append_drop]
  refine ⟨?_, increasing, fun item member => (recognized item member).1,
    fun tag required => lookup_isSome_iff.mp (complete tag required)⟩
  have sorted := sortedBy_tag_eq (sectionTags ▸ increasing)
  have admitted : (encoded.map EncodedSection.tag).Nodup ∧ encoded.length ≤ MAX_SECTIONS :=
    ⟨sectionTags ▸ increasing.imp ne_of_lt, count ▸ few⟩
  unfold encodeContainer
  simp only [sorted, if_pos admitted, packedHeader, packedDirectory, Option.bind_eq_bind, Option.bind_some]
  exact congrArg some whole

theorem mem_directoryEntries {offset : Nat} {sections : List EncodedSection} {entry : Nat × Nat × Nat × Nat}
    (member : entry ∈ directoryEntries offset sections) :
    ∃ section_ ∈ sections, ∃ start, entry = (section_.tag, start, section_.payload.length, section_.count) ∧
      start + section_.payload.length ≤ offset + (sections.flatMap EncodedSection.payload).length := by
  induction sections generalizing offset with
  | nil => exact absurd member List.not_mem_nil
  | cons first rest ih =>
    rw [List.flatMap_cons, List.length_append]
    rcases List.mem_cons.mp member with rfl | later
    · exact ⟨first, List.mem_cons_self, offset, rfl, by omega⟩
    · obtain ⟨section_, found, start, same, bound⟩ := ih later
      exact ⟨section_, List.mem_cons_of_mem _ found, start, same, by omega⟩

/-- Encodings without optional sections are plain. -/
theorem encodeContainer_plain {magic : List UInt8} {sections : List EncodedSection} {raw : List UInt8}
    (encoded : encodeContainer magic sections = some raw)
    (required : ∀ section_ ∈ sections, section_.tag < OPTIONAL_TAG_START) : Plain raw := by
  obtain ⟨-, -, -, -, -, readHeader, readEntries⟩ := encodeContainer_parts encoded
  refine ⟨by rw [readHeader], fun entry member => ?_⟩
  rw [readEntries] at member
  obtain ⟨section_, found, start, rfl, -⟩ := mem_directoryEntries member
  exact required section_ (mem_sortedBy.mp found)

/-- Sections whose numbers fit their fields have an encoding. -/
theorem encodeContainer_isSome {magic : List UInt8} {sections : List EncodedSection} (name : magic.length = 8)
    (distinct : (sections.map EncodedSection.tag).Nodup) (few : sections.length ≤ MAX_SECTIONS)
    (tags : ∀ section_ ∈ sections, section_.tag < 256 ^ 2) (counts : ∀ section_ ∈ sections, section_.count < 256 ^ 8)
    (size : directoryEnd sections.length + (sections.flatMap EncodedSection.payload).length < 256 ^ 8) :
    (encodeContainer magic sections).isSome := by
  have perm := sortedBy_perm EncodedSection.tag sections
  have length := perm.length_eq
  have total := (perm.flatMap_right EncodedSection.payload).length_eq
  unfold encodeContainer
  set ordered := sortedBy EncodedSection.tag sections with sorted
  have admitted : (ordered.map EncodedSection.tag).Nodup ∧ ordered.length ≤ MAX_SECTIONS :=
    ⟨(perm.map EncodedSection.tag).nodup_iff.mpr distinct, length.trans_le few⟩
  have header : (headerStruct.pack (magic, SCHEMA_MAJOR, SCHEMA_MINOR, ordered.length)).isSome := by
    have small : ordered.length < 256 ^ 4 := lt_of_le_of_lt admitted.2 (by decide)
    have named : ((Struct.raw 8).pack magic).isSome := by simp [Struct.raw, name]
    have major : SCHEMA_MAJOR < 256 ^ 2 := by decide
    have minor : SCHEMA_MINOR < 256 ^ 2 := by decide
    exact Struct.pair_isSome named (Struct.pair_isSome (Struct.uint_isSome.mpr major)
      (Struct.pair_isSome (Struct.uint_isSome.mpr minor) (Struct.uint_isSome.mpr small)))
  have directory :
    (directoryEntryStruct.packAll (directoryEntries (directoryEnd ordered.length) ordered)).isSome := by
    refine Struct.packAll_isSome fun entry member => ?_
    obtain ⟨section_, found, start, rfl, bound⟩ := mem_directoryEntries member
    have original := mem_sortedBy.mp found
    rw [length, total] at bound
    have offset : start < 256 ^ 8 := by omega
    have extent : section_.payload.length < 256 ^ 8 := by omega
    exact Struct.pair_isSome (Struct.uint_isSome.mpr (tags section_ original))
      (Struct.pair_isSome (Struct.uint_isSome.mpr offset)
        (Struct.pair_isSome (Struct.uint_isSome.mpr extent) (Struct.uint_isSome.mpr (counts section_ original))))
  obtain ⟨headerBytes, packedHeader⟩ := Option.isSome_iff_exists.mp header
  obtain ⟨directoryBytes, packedDirectory⟩ := Option.isSome_iff_exists.mp directory
  simp only [if_pos admitted, packedHeader, packedDirectory, Option.bind_eq_bind, Option.bind_some, Option.pure_def,
    Option.isSome_some]

end PyElk
