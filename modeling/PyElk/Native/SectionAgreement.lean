import PyElk.Indexing.CodecBijection
import PyElk.Native.Codec

open Bytes

namespace PyElk

theorem Struct.unpackAll_eq_map {α : Type} (item : Struct α) (count : Nat) (bytes : List UInt8) :
    item.unpackAll count bytes =
      (List.range count).map fun index => item.unpack ((bytes.drop (index * item.size)).take item.size) := by
  induction count generalizing bytes with
  | zero => rfl
  | succ count ih =>
    rw [Struct.unpackAll, ih, List.range_succ_eq_map, List.map_cons, List.map_map, Nat.zero_mul, List.drop_zero]
    congr 1
    refine List.map_congr_left fun index _ => ?_
    rw [Function.comp_apply, List.drop_drop, Nat.succ_mul, Nat.add_comm]

theorem mapM_eq_some_map {α β : Type} {step : α → Option β} {value : α → β} {items : List α}
    (each : ∀ item ∈ items, step item = some (value item)) : items.mapM step = some (items.map value) := by
  induction items with
  | nil => rfl
  | cons item rest ih =>
    rw [List.mapM_cons, each item List.mem_cons_self,
      ih fun other member => each other (List.mem_cons_of_mem _ member)]
    rfl

namespace Native

theorem guard_bind {α : Type} {p : Prop} [Decidable p] {next : Unit → Option α} :
    (guard p : Option Unit).bind next = if p then next () else none := by
  unfold guard
  split <;> rfl

theorem guard_bind_eq_some {α : Type} {p : Prop} [Decidable p] {next : Unit → Option α} {value : α} :
    (guard p : Option Unit).bind next = some value ↔ p ∧ next () = some value := by
  rw [guard_bind, Option.ite_none_right_eq_some]

/-- A count below the word size is kept. -/
theorem usizeFromU64_eq {value : Nat} (fits : value < USIZE) : usizeFromU64 value = some value := if_pos fits

theorem checkedAdd_eq {first second : Nat} (fits : first + second < USIZE) :
    checkedAdd first second = some (first + second) := if_pos fits

theorem checkedMul_eq {first second : Nat} (fits : first * second < USIZE) :
    checkedMul first second = some (first * second) := if_pos fits

theorem maxsize_lt : maxsize + 32 < USIZE := by decide

/-- A field inside the data is read. -/
theorem readUint_eq {width offset : Nat} {data : List UInt8} (inside : offset + width ≤ data.length)
    (small : data.length ≤ maxsize) :
    readUint width data offset = some (ofLittleEndian ((data.drop offset).take width)) := by
  have limit := maxsize_lt
  rw [readUint, checkedAdd_eq (by omega)]
  simp only [Option.bind_eq_bind, Option.bind_some, if_pos inside, Option.pure_def]

theorem ofLittleEndian_take_lt {width : Nat} (bytes : List UInt8) : ofLittleEndian (bytes.take width) < 256 ^ width :=
  lt_of_lt_of_le (ofLittleEndian_lt _) (Nat.pow_le_pow_right (by decide) (List.length_take_le _ _))

/-- The count of a section is accepted when its records fill the payload. -/
theorem countAsUsize_eq {count length width : Nat} (positive : 0 < width) (small : length ≤ maxsize) :
    countAsUsize count length width = if count * width = length then some count else none := by
  have limit := maxsize_lt
  unfold countAsUsize
  split
  · next same =>
    have le : count ≤ count * width := Nat.le_mul_of_pos_right _ positive
    rw [usizeFromU64_eq (by omega), Option.bind_eq_bind, Option.bind_some, checkedMul_eq (by omega)]
    simp only [Option.bind_some, if_pos same, Option.pure_def]
  · next other =>
    refine Option.eq_none_iff_forall_ne_some.mpr fun value accepted => other ?_
    obtain ⟨found, same, after⟩ := Option.bind_eq_some_iff.mp accepted
    obtain ⟨expected, product, last⟩ := Option.bind_eq_some_iff.mp after
    rw [Option.ite_none_right_eq_some] at last
    rw [usizeFromU64, Option.ite_none_right_eq_some] at same
    rw [checkedMul, Option.ite_none_right_eq_some] at product
    rw [Option.some.inj same.2, Option.some.inj product.2, last.1]

/-- Reading the records one by one at their offsets is unpacking the table. -/
theorem decodeRecords_eq {α : Type} {item : Struct α} {read : List UInt8 → Nat → Option α} (positive : 0 < item.size)
    (single : ∀ payload offset, offset + item.size ≤ payload.length → payload.length ≤ maxsize →
      read payload offset = some (item.unpack ((payload.drop offset).take item.size)))
    {section_ : DecodedSection} (small : section_.payload.length ≤ maxsize) :
    decodeRecords item.size read section_ = unpackFixed section_ item := by
  rw [decodeRecords, countAsUsize_eq positive small, unpackFixed]
  split
  · next size =>
    rw [Struct.unpackAll_eq_map, Option.bind_eq_bind, Option.bind_some]
    refine mapM_eq_some_map fun index member => single _ _ ?_ small
    rw [← size, ← Nat.succ_mul]
    exact Nat.mul_le_mul_right _ (List.mem_range.mp member)
  · rfl

section

variable {section_ : DecodedSection} (small : section_.payload.length ≤ maxsize)

include small

/-- Both decoders read a section of bytes alike. -/
theorem decodeU8_eq : decodeU8 section_ = unpackFixed section_ u8Struct := by
  rw [decodeU8, countAsUsize_eq (by decide) small, unpackFixed]
  have width : u8Struct.size = 1 := rfl
  rw [width]
  split
  · next size =>
    rw [Nat.mul_one] at size
    simp only [Option.bind_eq_bind, Option.bind_some, if_pos size.symm, Option.pure_def, Option.some.injEq]
    rw [size]
    have bytes : ∀ payload : List UInt8, payload.map UInt8.toNat = u8Struct.unpackAll payload.length payload := by
      intro payload
      induction payload with
      | nil => rfl
      | cons byte rest ih =>
        rw [List.map_cons, ih, List.length_cons, Struct.unpackAll, width]
        rfl
    exact bytes _
  · rfl

/-- Both decoders read a section of `u32` alike. -/
theorem decodeU32_eq : decodeU32 section_ = unpackFixed section_ u32Struct := by
  have single : ∀ payload offset, offset + u32Struct.size ≤ payload.length → payload.length ≤ maxsize →
      readU32 payload offset = some (u32Struct.unpack ((payload.drop offset).take u32Struct.size)) :=
    fun _ _ inside => readUint_eq inside
  exact decodeRecords_eq (by decide) single small

theorem decodeU64_eq : decodeU64 section_ = unpackFixed section_ u64Struct := by
  have single : ∀ payload offset, offset + u64Struct.size ≤ payload.length → payload.length ≤ maxsize →
      readU64 payload offset = some (u64Struct.unpack ((payload.drop offset).take u64Struct.size)) :=
    fun _ _ inside => readUint_eq inside
  exact decodeRecords_eq (by decide) single small

/-- Both decoders read a section of pairs alike. -/
theorem decodePairs_eq : decodePairs section_ = unpackFixed section_ pairStruct := by
  have single : ∀ payload offset, offset + pairStruct.size ≤ payload.length → payload.length ≤ maxsize →
      (do pure (← readU32 payload offset, ← readU32 payload (offset + 4))) =
        some (pairStruct.unpack ((payload.drop offset).take pairStruct.size)) := by
    intro payload offset inside limit
    have width : pairStruct.size = 8 := rfl
    rw [width] at inside
    have first : ((payload.drop offset).take 8).take 4 = (payload.drop offset).take 4 := by rw [List.take_take]; rfl
    have second : ((payload.drop offset).take 8).drop 4 = (payload.drop (offset + 4)).take 4 := by
      rw [List.drop_take, List.drop_drop]
    rw [readU32, readUint_eq (by omega) limit, readUint_eq (by omega) limit]
    exact congrArg some (Prod.ext (congrArg ofLittleEndian first.symm) (congrArg ofLittleEndian second.symm))
  exact decodeRecords_eq (by decide) single small

theorem decodeOccurrences_eq : decodeOccurrences section_ = unpackFixed section_ occurrenceStruct := by
  have single : ∀ payload offset, offset + occurrenceStruct.size ≤ payload.length → payload.length ≤ maxsize →
      (do pure (⟨← readU64 payload offset, ← readU64 payload (offset + 8)⟩ : Occurrence)) =
        some (occurrenceStruct.unpack ((payload.drop offset).take occurrenceStruct.size)) := by
    intro payload offset inside limit
    have width : occurrenceStruct.size = 16 := rfl
    rw [width] at inside
    have first : ((payload.drop offset).take 16).take 8 = (payload.drop offset).take 8 := by rw [List.take_take]; rfl
    have second : ((payload.drop offset).take 16).drop 8 = (payload.drop (offset + 8)).take 8 := by
      rw [List.drop_take, List.drop_drop]
    rw [readU64, readUint_eq (by omega) limit, readUint_eq (by omega) limit, ← first, ← second]
    rfl
  exact decodeRecords_eq (by decide) single small

/-- Both decoders read a section of offsets alike. -/
theorem decodeOffsets_eq : decodeOffsets section_ = unpackOffsets section_ := by
  have limit := maxsize_lt
  have width : u64Struct.size = 8 := rfl
  unfold decodeOffsets unpackOffsets
  rw [width]
  split
  · next size =>
    have reads : (List.range (section_.count + 1)).mapM
        (fun index => do usizeFromU64 (← readU64 section_.payload (index * 8))) =
          some (u64Struct.unpackAll (section_.count + 1) section_.payload) := by
      rw [Struct.unpackAll_eq_map]
      refine mapM_eq_some_map fun index member => ?_
      have bound := List.mem_range.mp member
      have inside : index * 8 + 8 ≤ section_.payload.length := by omega
      rw [readU64, readUint_eq inside small, Option.bind_eq_bind, Option.bind_some,
        usizeFromU64_eq (ofLittleEndian_take_lt _)]
      rfl
    rw [usizeFromU64_eq (by omega), Option.bind_eq_bind, Option.bind_some, checkedAdd_eq (by omega),
      Option.bind_eq_bind, Option.bind_some, checkedMul_eq (by omega)]
    simp only [Option.bind_eq_bind] at reads
    rw [Option.bind_eq_bind, Option.bind_some, if_pos size, reads]
    rfl
  · next other =>
    refine Option.eq_none_iff_forall_ne_some.mpr fun offsets accepted => other ?_
    obtain ⟨count, same, after⟩ := Option.bind_eq_some_iff.mp accepted
    obtain ⟨valueCount, sum, after'⟩ := Option.bind_eq_some_iff.mp after
    obtain ⟨expected, product, last⟩ := Option.bind_eq_some_iff.mp after'
    rw [Option.ite_none_right_eq_some] at last
    rw [usizeFromU64, Option.ite_none_right_eq_some] at same
    rw [checkedAdd, Option.ite_none_right_eq_some] at sum
    rw [checkedMul, Option.ite_none_right_eq_some] at product
    rw [Option.some.inj same.2, Option.some.inj sum.2, Option.some.inj product.2, last.1]

end

/-- Both decoders read a table of rows alike, unless its sections exceed the address space. -/
theorem decodeCsr_eq {offsets values : DecodedSection} (small : offsets.payload.length ≤ maxsize)
    (small' : values.payload.length ≤ maxsize) : decodeCsr offsets values = PyElk.decodeCsr offsets values := by
  rw [decodeCsr, PyElk.decodeCsr, decodeOffsets_eq small, decodeU32_eq small']

theorem decodeByteCsr_eq {offsets values : DecodedSection} (small : offsets.payload.length ≤ maxsize)
    (small' : values.payload.length ≤ maxsize) :
    decodeByteCsr offsets values = PyElk.decodeByteCsr offsets values := by
  have limit := maxsize_lt
  rw [decodeByteCsr, PyElk.decodeByteCsr, decodeOffsets_eq small]
  refine congrArg (Option.bind _) (funext fun rows => ?_)
  by_cases size : values.count = values.payload.length
  · rw [usizeFromU64_eq (by omega)]
    rfl
  · rw [if_neg fun both => size both.1]
    refine Option.eq_none_iff_forall_ne_some.mpr fun cut accepted => size ?_
    obtain ⟨count, same, last⟩ := Option.bind_eq_some_iff.mp accepted
    rw [Option.ite_none_right_eq_some] at last
    rw [usizeFromU64, Option.ite_none_right_eq_some] at same
    rw [Option.some.inj same.2, last.1.1]

theorem decodeEntity_eq (row : Nat × List UInt8) : decodeEntity row = decodeEntityRecord row := by
  unfold decodeEntity decodeEntityRecord
  cases EntityKind.ofCode? row.1 with
  | none => cases decodeUtf8 row.2 <;> simp
  | some kind => rfl

/-- Both decoders read the entity table alike. -/
theorem decodeEntities_eq {sections : List (Nat × DecodedSection)} {kindsTag offsetsTag bytesTag : Nat}
    {kinds offsets bytes : DecodedSection} (kindsAt : sections.lookup kindsTag = some kinds)
    (offsetsAt : sections.lookup offsetsTag = some offsets) (bytesAt : sections.lookup bytesTag = some bytes)
    (small : ∀ tag section_, sections.lookup tag = some section_ → section_.payload.length ≤ maxsize) :
    decodeEntities sections kindsTag offsetsTag bytesTag = decodeEntityRecords kinds offsets bytes := by
  simp only [decodeEntities, kindsAt, offsetsAt, bytesAt, Option.bind_eq_bind, Option.bind_some,
    decodeU8_eq (small _ _ kindsAt), decodeByteCsr_eq (small _ _ offsetsAt) (small _ _ bytesAt), decodeEntityRecords,
    funext decodeEntity_eq]

theorem directoryEntry_unpack (data : List UInt8) (entry : Nat) :
    directoryEntryStruct.unpack ((data.drop entry).take 26) =
      (ofLittleEndian ((data.drop entry).take 2), ofLittleEndian ((data.drop (entry + 2)).take 8),
        ofLittleEndian ((data.drop (entry + 10)).take 8), ofLittleEndian ((data.drop (entry + 18)).take 8)) := by
  have tag : ((data.drop entry).take 26).take 2 = (data.drop entry).take 2 := by rw [List.take_take]; rfl
  have offset : (((data.drop entry).take 26).drop 2).take 8 = (data.drop (entry + 2)).take 8 := by
    rw [List.drop_take, List.take_take, List.drop_drop]
    rfl
  have length : ((((data.drop entry).take 26).drop 2).drop 8).take 8 = (data.drop (entry + 10)).take 8 := by
    rw [List.drop_drop, List.drop_take, List.take_take, List.drop_drop]
    rfl
  have count : ((((data.drop entry).take 26).drop 2).drop 8).drop 8 = (data.drop (entry + 18)).take 8 := by
    rw [List.drop_drop, List.drop_drop, List.drop_take, List.drop_drop]
  rw [← tag, ← offset, ← length, ← count]
  rfl

/-- One turn of the directory loop, on an entry that lies inside the data. -/
theorem readSections_cons {required : List Nat} {data : List UInt8} {checksumStart index : Nat} {rest : List Nat}
    {previousTag : Option Nat} {expectedOffset tag offset length count : Nat} (small : data.length ≤ maxsize)
    (inside : checksumStart ≤ data.length)
    (room : HEADER_SIZE + index * DIRECTORY_ENTRY_SIZE + 26 ≤ data.length)
    (entry : directoryEntryStruct.unpack ((data.drop (HEADER_SIZE + index * DIRECTORY_ENTRY_SIZE)).take 26) =
      (tag, offset, length, count)) :
    readSections required data checksumStart (index :: rest) previousTag expectedOffset =
      if (∀ previous ∈ previousTag, previous < tag) ∧ offset = expectedOffset ∧ length ≤ checksumStart - offset ∧
          offset + length ≤ checksumStart ∧ (tag ∈ required ∨ OPTIONAL_TAG_START ≤ tag) then do
        let (sections, finalOffset) ← readSections required data checksumStart rest (some tag) (offset + length)
        if tag ∈ required then pure ((tag, ⟨count, (data.drop offset).take length⟩) :: sections, finalOffset)
        else pure (sections, finalOffset)
      else none := by
  have limit := maxsize_lt
  rw [directoryEntry_unpack, Prod.mk.injEq, Prod.mk.injEq, Prod.mk.injEq] at entry
  obtain ⟨tagBytes, offsetBytes, lengthBytes, countBytes⟩ := entry
  have offsetFits : offset < USIZE := offsetBytes ▸ ofLittleEndian_take_lt _
  have lengthFits : length < USIZE := lengthBytes ▸ ofLittleEndian_take_lt _
  rw [readSections]
  simp only [readU16, readU64, readUint_eq (by omega : HEADER_SIZE + index * DIRECTORY_ENTRY_SIZE + 2 ≤ _) small,
    readUint_eq (by omega : HEADER_SIZE + index * DIRECTORY_ENTRY_SIZE + 2 + 8 ≤ _) small,
    readUint_eq (by omega : HEADER_SIZE + index * DIRECTORY_ENTRY_SIZE + 10 + 8 ≤ _) small,
    readUint_eq (by omega : HEADER_SIZE + index * DIRECTORY_ENTRY_SIZE + 18 + 8 ≤ _) small, tagBytes, offsetBytes,
    lengthBytes, countBytes, Option.bind_eq_bind, Option.bind_some, usizeFromU64_eq offsetFits,
    usizeFromU64_eq lengthFits]
  by_cases admitted : (∀ previous ∈ previousTag, previous < tag) ∧ offset = expectedOffset ∧
      length ≤ checksumStart - offset ∧ offset + length ≤ checksumStart ∧ (tag ∈ required ∨ OPTIONAL_TAG_START ≤ tag)
  · rw [if_pos admitted]
    obtain ⟨above, same, -, fits, known⟩ := admitted
    rw [checkedAdd_eq (by omega)]
    simp only [guard_bind, if_pos above, if_pos same, if_pos known, Option.bind_some, if_pos fits,
      Nat.add_sub_cancel_left]
  · rw [if_neg admitted]
    refine Option.eq_none_iff_forall_ne_some.mpr fun result accepted => admitted ?_
    obtain ⟨above, accepted⟩ := guard_bind_eq_some.mp accepted
    obtain ⟨same, accepted⟩ := guard_bind_eq_some.mp accepted
    obtain ⟨end_, sum, accepted⟩ := Option.bind_eq_some_iff.mp accepted
    obtain ⟨fits, accepted⟩ := guard_bind_eq_some.mp accepted
    obtain ⟨known, -⟩ := guard_bind_eq_some.mp accepted
    rw [checkedAdd, Option.ite_none_right_eq_some] at sum
    cases sum.2
    exact ⟨above, same, by omega, fits, known⟩

/-- Both directory loops accept the same entries. -/
theorem readSections_eq {required : List Nat} {data : List UInt8} {checksumStart first count : Nat}
    {previousTag : Option Nat} {expectedOffset : Nat} (small : data.length ≤ maxsize)
    (inside : checksumStart ≤ data.length)
    (room : HEADER_SIZE + (first + count) * DIRECTORY_ENTRY_SIZE ≤ data.length) :
    readSections required data checksumStart (List.range' first count) previousTag expectedOffset =
      readDirectory required data checksumStart
        (directoryEntryStruct.unpackAll count (data.drop (HEADER_SIZE + first * DIRECTORY_ENTRY_SIZE))) previousTag
        expectedOffset := by
  have header : HEADER_SIZE = 16 := rfl
  have record : DIRECTORY_ENTRY_SIZE = 26 := rfl
  induction count generalizing first previousTag expectedOffset with
  | zero => rfl
  | succ count ih =>
    have bound : HEADER_SIZE + first * DIRECTORY_ENTRY_SIZE + 26 ≤ data.length := by
      rw [header, record] at room ⊢
      omega
    have next : HEADER_SIZE + first * DIRECTORY_ENTRY_SIZE + 26 =
      HEADER_SIZE + (first + 1) * DIRECTORY_ENTRY_SIZE := by
      rw [header, record]
      omega
    have later : HEADER_SIZE + (first + 1 + count) * DIRECTORY_ENTRY_SIZE ≤ data.length := by
      rw [Nat.add_right_comm]
      exact room
    rcases entry : directoryEntryStruct.unpack ((data.drop (HEADER_SIZE + first * DIRECTORY_ENTRY_SIZE)).take 26)
      with ⟨tag, offset, length, number⟩
    rw [List.range'_succ, readSections_cons small inside bound entry, Struct.unpackAll,
      show directoryEntryStruct.size = 26 from rfl, entry, readDirectory, ih later, List.drop_drop, next]

/-- The header of a container is its first sixteen bytes, field by field. -/
theorem containerHeader_eq (data : List UInt8) :
    containerHeader data = (data.take 8, ofLittleEndian ((data.drop 8).take 2),
      ofLittleEndian ((data.drop 10).take 2),
      ofLittleEndian ((data.drop 12).take 4)) := by
  have magic : (data.take 16).take 8 = data.take 8 := by rw [List.take_take]; rfl
  have major : ((data.take 16).drop 8).take 2 = (data.drop 8).take 2 := by rw [List.drop_take, List.take_take]; rfl
  have minor : (((data.take 16).drop 8).drop 2).take 2 = (data.drop 10).take 2 := by
    rw [List.drop_drop, List.drop_take, List.take_take]
    rfl
  have count : (((data.take 16).drop 8).drop 2).drop 2 = (data.drop 12).take 4 := by
    rw [List.drop_drop, List.drop_drop, List.drop_take]
  rw [← magic, ← major, ← minor, ← count]
  rfl

/-- Both container readers accept the same data and give the same sections. -/
theorem decodeContainer_eq {data magic : List UInt8} {required : List Nat} (small : data.length ≤ maxsize) :
    decodeContainer data magic required = PyElk.decodeContainer data magic required required := by
  have limit := maxsize_lt
  have header : headerStruct.size = HEADER_SIZE := rfl
  have record : directoryEntryStruct.size = DIRECTORY_ENTRY_SIZE := rfl
  have checksum : CHECKSUM_SIZE = 32 := rfl
  have sixteen : HEADER_SIZE = 16 := rfl
  by_cases least : HEADER_SIZE + CHECKSUM_SIZE ≤ data.length
  · have fields := containerHeader_eq data
    have countFits : ofLittleEndian ((data.drop 12).take 4) < 256 ^ 4 := ofLittleEndian_take_lt _
    rw [decodeContainer, PyElk.decodeContainer, containerEntries, fields]
    simp only [readU16, readU32, readUint_eq (by omega : 8 + 2 ≤ data.length) small,
      readUint_eq (by omega : 12 + 4 ≤ data.length) small]
    generalize ofLittleEndian ((data.drop 8).take 2) = major
    generalize ofLittleEndian ((data.drop 12).take 4) = sectionCount at *
    have directory : directoryEnd sectionCount = sectionCount * DIRECTORY_ENTRY_SIZE + HEADER_SIZE := by
      rw [directoryEnd, header, record, Nat.add_comm]
    by_cases admitted : headerStruct.size + CHECKSUM_SIZE ≤ data.length ∧ data.take 8 = magic ∧ major = SCHEMA_MAJOR ∧
        sectionCount ≤ MAX_SECTIONS ∧ directoryEnd sectionCount ≤ data.length - CHECKSUM_SIZE ∧
        data.drop (data.length - CHECKSUM_SIZE) = blake2b256 ((data.drop (directoryEnd sectionCount)).take
          (data.length - CHECKSUM_SIZE - directoryEnd sectionCount))
    · rw [if_pos admitted]
      obtain ⟨-, named, version, few, room, digest⟩ := admitted
      have most : MAX_SECTIONS = 256 := rfl
      have width : DIRECTORY_ENTRY_SIZE = 26 := rfl
      have inside : HEADER_SIZE + (0 + sectionCount) * DIRECTORY_ENTRY_SIZE ≤ data.length := by
        rw [Nat.zero_add, Nat.add_comm, ← directory]
        exact room.trans (Nat.sub_le _ _)
      have wide : 256 * 26 + 16 < USIZE := by decide
      have product := checkedMul_eq (by rw [width]; omega : sectionCount * DIRECTORY_ENTRY_SIZE < USIZE)
      have sum := checkedAdd_eq (by rw [width]; omega : sectionCount * DIRECTORY_ENTRY_SIZE + HEADER_SIZE < USIZE)
      rw [← directory] at sum
      simp only [Option.bind_eq_bind]
      rw [guard_bind, if_pos least, guard_bind, if_pos named, Option.bind_some, guard_bind, if_pos version,
        Option.bind_some, guard_bind, if_pos few, product, Option.bind_some, sum, Option.bind_some, guard_bind,
        if_pos room, guard_bind, if_pos digest.symm, List.range_eq_range',
        readSections_eq small (Nat.sub_le _ _) inside, header, Nat.zero_mul, Nat.add_zero]
      refine congrArg (Option.bind _) (funext fun result => ?_)
      rw [guard_bind, guard_bind, ite_and]
    · rw [if_neg admitted]
      refine Option.eq_none_iff_forall_ne_some.mpr fun result accepted => admitted ?_
      obtain ⟨least, accepted⟩ := guard_bind_eq_some.mp accepted
      obtain ⟨named, accepted⟩ := guard_bind_eq_some.mp accepted
      obtain ⟨_, same, accepted⟩ := Option.bind_eq_some_iff.mp accepted
      cases same
      obtain ⟨version, accepted⟩ := guard_bind_eq_some.mp accepted
      obtain ⟨_, same, accepted⟩ := Option.bind_eq_some_iff.mp accepted
      cases same
      obtain ⟨few, accepted⟩ := guard_bind_eq_some.mp accepted
      obtain ⟨_, product, accepted⟩ := Option.bind_eq_some_iff.mp accepted
      obtain ⟨_, sum, accepted⟩ := Option.bind_eq_some_iff.mp accepted
      obtain ⟨room, accepted⟩ := guard_bind_eq_some.mp accepted
      obtain ⟨digest, -⟩ := guard_bind_eq_some.mp accepted
      rw [checkedMul, Option.ite_none_right_eq_some] at product
      cases product.2
      rw [checkedAdd, Option.ite_none_right_eq_some, ← directory] at sum
      cases sum.2
      exact ⟨least, named, version, few, room, digest.symm⟩
  · have native : decodeContainer data magic required = none := by
      rw [decodeContainer, Option.bind_eq_bind, guard_bind, if_neg least]
    rw [native, PyElk.decodeContainer]
    exact (if_neg fun all => least all.1).symm

end Native

end PyElk
