import PyElk.Indexing.Codec

namespace PyElk

section

variable {α : Type} {item : Struct α}

/-- The records of a section are those whose packing is its payload. -/
theorem unpackFixed_iff {section_ : DecodedSection} {values : List α} :
    unpackFixed section_ item = some values ↔
      item.packAll values = some section_.payload ∧ section_.count = values.length := by
  rw [unpackFixed, Option.ite_none_right_eq_some]
  constructor
  · rintro ⟨size, same⟩
    rw [← Option.some.inj same, Struct.unpackAll_length]
    exact ⟨Struct.packAll_unpackAll size.symm, rfl⟩
  · rintro ⟨packed, count⟩
    rw [count]
    exact ⟨(Struct.packAll_length packed).symm, congrArg some (Struct.unpackAll_packAll packed)⟩

end

/-- Offsets are read when they begin at zero, never fall and number one more than the rows. -/
theorem unpackOffsets_iff {section_ : DecodedSection} {offsets : List Nat} :
    unpackOffsets section_ = some offsets ↔
      u64Struct.packAll offsets = some section_.payload ∧ section_.count + 1 = offsets.length ∧
        offsets.head? = some 0 ∧ offsets.IsChain (· ≤ ·) := by
  rw [unpackOffsets, Option.ite_none_right_eq_some]
  dsimp only
  rw [Option.ite_none_right_eq_some]
  constructor
  · rintro ⟨size, ordered, same⟩
    have values := Option.some.inj same
    rw [values] at ordered
    rw [← values, Struct.unpackAll_length]
    exact ⟨Struct.packAll_unpackAll size.symm, rfl, values ▸ ordered⟩
  · rintro ⟨packed, count, ordered⟩
    have read := Struct.unpackAll_packAll packed
    rw [← count] at read
    rw [read, count]
    exact ⟨(Struct.packAll_length packed).symm, ordered, rfl⟩

/-- Offsets that are accepted belong to the rows that they cut. -/
theorem unpackOffsets_slices {α : Type} {section_ : DecodedSection} {offsets : List Nat} {values : List α}
    (unpacked : unpackOffsets section_ = some offsets) (last : offsets.getLast? = some values.length) :
    Csr.offsets 0 (Csr.slices values offsets) = offsets ∧ (Csr.slices values offsets).flatten = values ∧
      section_.count = (Csr.slices values offsets).length := by
  obtain ⟨-, count, head, monotone⟩ := unpackOffsets_iff.mp unpacked
  obtain ⟨rest, rfl⟩ := List.head?_eq_some_iff.mp head
  obtain ⟨same, flat⟩ := Csr.offsets_slices monotone last
  refine ⟨same, flat, ?_⟩
  have length := Csr.offsets_length 0 (Csr.slices values (0 :: rest))
  rw [same, ← count] at length
  exact Nat.succ.inj length

theorem unpackOffsets_offsets {α : Type} {section_ : DecodedSection} {rows : List (List α)}
    (packed : u64Struct.packAll (Csr.offsets 0 rows) = some section_.payload) (count : section_.count = rows.length) :
    unpackOffsets section_ = some (Csr.offsets 0 rows) :=
  unpackOffsets_iff.mpr ⟨packed, by rw [count, Csr.offsets_length], Csr.offsets_head 0 rows,
    Csr.offsets_isChain 0 rows⟩

/-- Rows are cut back out of their concatenation by their offsets. -/
theorem slices_flatten {α : Type} (rows : List (List α)) : Csr.slices rows.flatten (Csr.offsets 0 rows) = rows :=
  Csr.slices_offsets (List.nil_append _)

/-- A table of rows is read exactly from the sections it is encoded to. -/
theorem decodeCsr_iff {offsetsSection valuesSection : DecodedSection} {rows : List (List Nat)} :
    decodeCsr offsetsSection valuesSection = some rows ↔
      encodeCsr rows = some (offsetsSection.payload, valuesSection.payload, valuesSection.count) ∧
        offsetsSection.count = rows.length := by
  constructor
  · intro decoded
    obtain ⟨offsets, unpacked, after⟩ := Option.bind_eq_some_iff.mp decoded
    obtain ⟨values, read, after'⟩ := Option.bind_eq_some_iff.mp after
    rw [Option.ite_none_right_eq_some] at after'
    obtain ⟨last, same⟩ := after'
    cases same
    obtain ⟨sameOffsets, flat, count⟩ := unpackOffsets_slices unpacked last
    obtain ⟨packed, size⟩ := unpackFixed_iff.mp read
    refine ⟨?_, count⟩
    rw [encodeCsr, sameOffsets, flat, (unpackOffsets_iff.mp unpacked).1, packed, size]
    rfl
  · rintro ⟨encoded, count⟩
    obtain ⟨offsets, packed, after⟩ := Option.bind_eq_some_iff.mp encoded
    obtain ⟨flattened, packed', last⟩ := Option.bind_eq_some_iff.mp after
    obtain ⟨rfl, rfl, size⟩ : offsets = offsetsSection.payload ∧ flattened = valuesSection.payload ∧
        rows.flatten.length = valuesSection.count := by simpa using last
    have values : unpackFixed valuesSection u32Struct = some rows.flatten := unpackFixed_iff.mpr ⟨packed', size.symm⟩
    rw [decodeCsr, unpackOffsets_offsets packed count, values]
    have final := Csr.offsets_getLast 0 rows
    rw [Nat.zero_add] at final
    simp only [Option.bind_eq_bind, Option.bind_some, if_pos final, slices_flatten, Option.pure_def]

/-- A table of byte rows is read exactly from the sections it is encoded to. -/
theorem decodeByteCsr_iff {offsetsSection payloadSection : DecodedSection} {rows : List (List UInt8)} :
    decodeByteCsr offsetsSection payloadSection = some rows ↔
      encodeByteCsr rows = some (offsetsSection.payload, payloadSection.payload) ∧
        offsetsSection.count = rows.length ∧ payloadSection.count = payloadSection.payload.length := by
  constructor
  · intro decoded
    obtain ⟨offsets, unpacked, after⟩ := Option.bind_eq_some_iff.mp decoded
    rw [Option.ite_none_right_eq_some] at after
    obtain ⟨⟨size, last⟩, same⟩ := after
    cases same
    obtain ⟨sameOffsets, flat, count⟩ := unpackOffsets_slices unpacked last
    refine ⟨?_, count, size⟩
    rw [encodeByteCsr, sameOffsets, flat, (unpackOffsets_iff.mp unpacked).1]
    rfl
  · rintro ⟨encoded, count, size⟩
    obtain ⟨offsets, packed, last⟩ := Option.bind_eq_some_iff.mp encoded
    obtain ⟨rfl, flat⟩ : offsets = offsetsSection.payload ∧ rows.flatten = payloadSection.payload := by
      simpa using last
    have final := Csr.offsets_getLast 0 rows
    rw [Nat.zero_add, flat] at final
    rw [decodeByteCsr, unpackOffsets_offsets packed count]
    have cut := slices_flatten rows
    rw [flat] at cut
    simp only [Option.bind_eq_bind, Option.bind_some, if_pos (And.intro size final), cut, Option.pure_def]

theorem decodeUtf8_iff {bytes : List UInt8} {iri : String} :
    decodeUtf8 bytes = some iri ↔ encodeUtf8 iri = bytes := by
  unfold decodeUtf8 encodeUtf8 String.fromUTF8?
  constructor
  · intro decoded
    split at decoded
    · cases decoded
      rfl
    · cases decoded
  · rintro rfl
    exact dif_pos iri.isValidUTF8

theorem decodeEntityRecord_iff {row : Nat × List UInt8} {record : EntityRecord} :
    decodeEntityRecord row = some record ↔ row = (record.kind.code, encodeUtf8 record.iri) ∧ record.iri ≠ "" := by
  obtain ⟨value, bytes⟩ := row
  constructor
  · intro decoded
    obtain ⟨kind, found, after⟩ := Option.bind_eq_some_iff.mp decoded
    obtain ⟨iri, text, after'⟩ := Option.bind_eq_some_iff.mp after
    rw [Option.ite_none_right_eq_some] at after'
    obtain ⟨named, same⟩ := after'
    cases same
    have kindCode : kind.code = value := EntityKind.ofCode?_iff.mp found
    have iriBytes : encodeUtf8 iri = bytes := decodeUtf8_iff.mp text
    rw [kindCode, iriBytes]
    exact ⟨rfl, named⟩
  · rintro ⟨same, named⟩
    cases same
    rw [decodeEntityRecord, EntityKind.ofCode?_iff.mpr rfl]
    simp only [decodeUtf8_iff.mpr rfl, Option.bind_eq_bind, Option.bind_some, if_pos named, Option.pure_def]

theorem decodeExpressionRecord_iff {row : Nat × List Nat × List UInt8} {record : ExpressionRecord} :
    decodeExpressionRecord row = some record ↔
      row = (record.tag.code, record.arguments, record.payload) ∧ record.arguments.all checkU32 := by
  obtain ⟨value, arguments, payload⟩ := row
  constructor
  · intro decoded
    obtain ⟨tag, found, after⟩ := Option.bind_eq_some_iff.mp decoded
    rw [Option.ite_none_right_eq_some] at after
    obtain ⟨small, same⟩ := after
    cases same
    have tagCode : tag.code = value := ExpressionTag.ofCode?_iff.mp found
    rw [tagCode]
    exact ⟨rfl, small⟩
  · rintro ⟨same, small⟩
    cases same
    rw [decodeExpressionRecord, ExpressionTag.ofCode?_iff.mpr rfl]
    simp only [Option.bind_eq_bind, Option.bind_some, if_pos small, Option.pure_def]

/-- Decoding each row of a table, where one row is the code of one value. -/
theorem mapM_eq_some_iff {α β : Type} {decode : α → Option β} {encode : β → α} {good : β → Prop}
    (single : ∀ row value, decode row = some value ↔ row = encode value ∧ good value) {rows : List α}
    {values : List β} : rows.mapM decode = some values ↔ rows = values.map encode ∧ ∀ value ∈ values, good value := by
  induction rows generalizing values with
  | nil =>
    rw [List.mapM_nil]
    constructor
    · intro same
      cases same
      exact ⟨rfl, fun value member => absurd member List.not_mem_nil⟩
    · rintro ⟨same, -⟩
      rw [List.map_eq_nil_iff.mp same.symm]
      rfl
  | cons row rest ih =>
    rw [List.mapM_cons]
    constructor
    · intro decoded
      obtain ⟨value, first, after⟩ := Option.bind_eq_some_iff.mp decoded
      obtain ⟨others, tail, last⟩ := Option.bind_eq_some_iff.mp after
      cases last
      obtain ⟨rfl, right⟩ := (single row value).mp first
      obtain ⟨rfl, rights⟩ := ih.mp tail
      exact ⟨rfl, List.forall_mem_cons.mpr ⟨right, rights⟩⟩
    · rintro ⟨same, rights⟩
      cases values with
      | nil => cases same
      | cons value others =>
        obtain ⟨rfl, rfl⟩ := List.cons.inj same
        rw [List.forall_mem_cons] at rights
        rw [(single _ value).mpr ⟨rfl, rights.1⟩, ih.mpr ⟨rfl, rights.2⟩]
        rfl

theorem zip_eq_map_iff {α β γ : Type} {left : List α} {right : List β} {values : List γ} {first : γ → α}
    {second : γ → β} :
    left.length = right.length ∧ left.zip right = (values.map fun value => (first value, second value)) ↔
      left = values.map first ∧ right = values.map second := by
  constructor
  · rintro ⟨size, same⟩
    have lefts := congrArg (List.map Prod.fst) same
    have rights := congrArg (List.map Prod.snd) same
    rw [List.map_fst_zip size.le, List.map_map] at lefts
    rw [List.map_snd_zip size.ge, List.map_map] at rights
    exact ⟨lefts, rights⟩
  · rintro ⟨rfl, rfl⟩
    exact ⟨by rw [List.length_map, List.length_map], by rw [List.zip_map']⟩

/-- Entities are read exactly from the sections they are encoded to. -/
theorem decodeEntityRecords_iff {kindsSection offsetsSection bytesSection : DecodedSection}
    {records : List EntityRecord} :
    decodeEntityRecords kindsSection offsetsSection bytesSection = some records ↔
      u8Struct.packAll (records.map fun record => record.kind.code) = some kindsSection.payload ∧
        encodeByteCsr (records.map fun record => encodeUtf8 record.iri) =
          some (offsetsSection.payload, bytesSection.payload) ∧
        kindsSection.count = records.length ∧ offsetsSection.count = records.length ∧
        bytesSection.count = bytesSection.payload.length ∧ ∀ record ∈ records, record.iri ≠ "" := by
  constructor
  · intro decoded
    obtain ⟨kinds, readKinds, after⟩ := Option.bind_eq_some_iff.mp decoded
    obtain ⟨iriBytes, readBytes, after'⟩ := Option.bind_eq_some_iff.mp after
    rw [Option.ite_none_right_eq_some] at after'
    obtain ⟨size, rows⟩ := after'
    obtain ⟨same, named⟩ := (mapM_eq_some_iff fun _ _ => decodeEntityRecord_iff).mp rows
    obtain ⟨rfl, rfl⟩ := zip_eq_map_iff.mp ⟨size, same⟩
    obtain ⟨packed, count⟩ := unpackFixed_iff.mp readKinds
    obtain ⟨encoded, rowCount, byteCount⟩ := decodeByteCsr_iff.mp readBytes
    rw [List.length_map] at count rowCount
    exact ⟨packed, encoded, count, rowCount, byteCount, named⟩
  · rintro ⟨packed, encoded, count, rowCount, byteCount, named⟩
    obtain ⟨size, same⟩ := zip_eq_map_iff.mpr ⟨(rfl : records.map (fun record => record.kind.code) = _),
      (rfl : records.map (fun record => encodeUtf8 record.iri) = _)⟩
    rw [decodeEntityRecords, unpackFixed_iff.mpr ⟨packed, by rw [count, List.length_map]⟩,
      decodeByteCsr_iff.mpr ⟨encoded, by rw [rowCount, List.length_map], byteCount⟩]
    simp only [Option.bind_eq_bind, Option.bind_some, if_pos size]
    exact (mapM_eq_some_iff fun _ _ => decodeEntityRecord_iff).mpr ⟨same, named⟩

/-- Expression records are what their five sections hold. -/
structure ExpressionsStored (records : List ExpressionRecord)
    (tagsSection argumentOffsets arguments payloadOffsets payloadBytes : DecodedSection) : Prop where
  tags : u8Struct.packAll (records.map fun record => record.tag.code) = some tagsSection.payload
  arguments : encodeCsr (records.map ExpressionRecord.arguments) =
    some (argumentOffsets.payload, arguments.payload, arguments.count)
  payloads : encodeByteCsr (records.map ExpressionRecord.payload) =
    some (payloadOffsets.payload, payloadBytes.payload)
  tagCount : tagsSection.count = records.length
  argumentCount : argumentOffsets.count = records.length
  payloadCount : payloadOffsets.count = records.length
  byteCount : payloadBytes.count = payloadBytes.payload.length

/-- The rows of the three expression tables, under any decoder of single rows. -/
theorem expressionRows_iff {decode : Nat × List Nat × List UInt8 → Option ExpressionRecord}
    {good : ExpressionRecord → Prop}
    (single : ∀ row record, decode row = some record ↔
      row = (record.tag.code, record.arguments, record.payload) ∧ good record)
    {tagsSection argumentOffsets arguments payloadOffsets payloadBytes : DecodedSection}
    {records : List ExpressionRecord} :
    (∃ tags argumentRows payloadRows, unpackFixed tagsSection u8Struct = some tags ∧
        decodeCsr argumentOffsets arguments = some argumentRows ∧
        decodeByteCsr payloadOffsets payloadBytes = some payloadRows ∧
        (tags.length = argumentRows.length ∧ argumentRows.length = payloadRows.length) ∧
        (tags.zip (argumentRows.zip payloadRows)).mapM decode = some records) ↔
      ExpressionsStored records tagsSection argumentOffsets arguments payloadOffsets payloadBytes ∧
        ∀ record ∈ records, good record := by
  constructor
  · rintro ⟨tags, argumentRows, payloadRows, readTags, readArguments, readPayloads, ⟨size, size'⟩, rows⟩
    obtain ⟨same, right⟩ := (mapM_eq_some_iff single).mp rows
    have whole : tags.length = (argumentRows.zip payloadRows).length := by
      rw [List.length_zip, ← size', min_self, size]
    obtain ⟨rfl, pairs⟩ := zip_eq_map_iff.mp ⟨whole, same⟩
    obtain ⟨rfl, rfl⟩ := zip_eq_map_iff.mp ⟨size', pairs⟩
    obtain ⟨packed, count⟩ := unpackFixed_iff.mp readTags
    obtain ⟨encodedArguments, argumentCount⟩ := decodeCsr_iff.mp readArguments
    obtain ⟨encodedPayloads, payloadCount, byteCount⟩ := decodeByteCsr_iff.mp readPayloads
    rw [List.length_map] at count argumentCount payloadCount
    exact ⟨⟨packed, encodedArguments, encodedPayloads, count, argumentCount, payloadCount, byteCount⟩, right⟩
  · rintro ⟨⟨packed, encodedArguments, encodedPayloads, count, argumentCount, payloadCount, byteCount⟩, right⟩
    obtain ⟨size', pairs⟩ := zip_eq_map_iff.mpr ⟨(rfl : records.map ExpressionRecord.arguments = _),
      (rfl : records.map ExpressionRecord.payload = _)⟩
    obtain ⟨size, same⟩ := zip_eq_map_iff.mpr ⟨(rfl : records.map (fun record => record.tag.code) = _), pairs⟩
    exact ⟨_, _, _, unpackFixed_iff.mpr ⟨packed, by rw [count, List.length_map]⟩,
      decodeCsr_iff.mpr ⟨encodedArguments, by rw [argumentCount, List.length_map]⟩,
      decodeByteCsr_iff.mpr ⟨encodedPayloads, by rw [payloadCount, List.length_map], byteCount⟩,
      ⟨by rw [List.length_map, List.length_map], size'⟩, (mapM_eq_some_iff single).mpr ⟨same, right⟩⟩

/-- Expressions are read exactly from the sections they are stored in. -/
theorem decodeExpressionRecords_iff
    {tagsSection argumentOffsets arguments payloadOffsets payloadBytes : DecodedSection}
    {records : List ExpressionRecord} :
    decodeExpressionRecords tagsSection argumentOffsets arguments payloadOffsets payloadBytes = some records ↔
      ExpressionsStored records tagsSection argumentOffsets arguments payloadOffsets payloadBytes ∧
        ∀ record ∈ records, record.arguments.all checkU32 := by
  rw [← expressionRows_iff fun _ _ => decodeExpressionRecord_iff]
  constructor
  · intro decoded
    obtain ⟨tags, readTags, after⟩ := Option.bind_eq_some_iff.mp decoded
    obtain ⟨argumentRows, readArguments, after'⟩ := Option.bind_eq_some_iff.mp after
    obtain ⟨payloadRows, readPayloads, rest⟩ := Option.bind_eq_some_iff.mp after'
    rw [Option.ite_none_right_eq_some] at rest
    exact ⟨tags, argumentRows, payloadRows, readTags, readArguments, readPayloads, rest⟩
  · rintro ⟨tags, argumentRows, payloadRows, readTags, readArguments, readPayloads, sizes, rows⟩
    rw [decodeExpressionRecords, readTags, readArguments, readPayloads]
    simp only [Option.bind_eq_bind, Option.bind_some, if_pos sizes]
    exact rows

/-- The checks made while the records of an ontology are built, before its tables are. -/
structure Tables.Representable (ontology : Tables) : Prop where
  named : ∀ record ∈ ontology.entities, record.iri ≠ ""
  arguments : ∀ record ∈ ontology.expressions, record.arguments.all checkU32

/-- The sections of an ontology, read back. -/
theorem readOntologySections_of_sections {ontology : Tables} {sections : List EncodedSection}
    (representable : ontology.Representable) (encoded : ontologySections ontology = some sections) :
    sections.map EncodedSection.tag = OntologySection.tags ∧
      readOntologySections (sections.map EncodedSection.decoded) = some ontology := by
  obtain ⟨⟨iriOffsets, iriBytes⟩, iris, encoded⟩ := Option.bind_eq_some_iff.mp encoded
  obtain ⟨⟨argumentOffsets, arguments, argumentCount⟩, argumentRows, encoded⟩ := Option.bind_eq_some_iff.mp encoded
  obtain ⟨⟨payloadOffsets, payloadBytes⟩, payloads, encoded⟩ := Option.bind_eq_some_iff.mp encoded
  obtain ⟨⟨chainOffsets, chainValues, chainValueCount⟩, chains, encoded⟩ := Option.bind_eq_some_iff.mp encoded
  obtain ⟨⟨disjointOffsets, disjointValues, disjointValueCount⟩, groups, encoded⟩ :=
    Option.bind_eq_some_iff.mp encoded
  obtain ⟨entityKinds, kinds, encoded⟩ := Option.bind_eq_some_iff.mp encoded
  obtain ⟨expressionTags, tags, encoded⟩ := Option.bind_eq_some_iff.mp encoded
  obtain ⟨expressionOccurrences, occurrences, encoded⟩ := Option.bind_eq_some_iff.mp encoded
  obtain ⟨propertyOccurrences, occurrences', encoded⟩ := Option.bind_eq_some_iff.mp encoded
  obtain ⟨subclassAxioms, subclass, encoded⟩ := Option.bind_eq_some_iff.mp encoded
  obtain ⟨equivalentClassAxioms, equivalent, encoded⟩ := Option.bind_eq_some_iff.mp encoded
  obtain ⟨subpropertyAxioms, subproperty, encoded⟩ := Option.bind_eq_some_iff.mp encoded
  obtain ⟨propertyRanges, ranges, encoded⟩ := Option.bind_eq_some_iff.mp encoded
  obtain ⟨featureCounts, features, last⟩ := Option.bind_eq_some_iff.mp encoded
  rw [← Option.some.inj last]
  refine ⟨rfl, ?_⟩
  have entities : decodeEntityRecords ⟨ontology.entities.length, entityKinds⟩ ⟨ontology.entities.length, iriOffsets⟩
      ⟨iriBytes.length, iriBytes⟩ = some ontology.entities :=
    decodeEntityRecords_iff.mpr ⟨kinds, iris, rfl, rfl, rfl, representable.named⟩
  have expressions : decodeExpressionRecords ⟨ontology.expressions.length, expressionTags⟩
      ⟨ontology.expressions.length, argumentOffsets⟩ ⟨argumentCount, arguments⟩
      ⟨ontology.expressions.length, payloadOffsets⟩ ⟨payloadBytes.length, payloadBytes⟩ = some ontology.expressions :=
    decodeExpressionRecords_iff.mpr ⟨⟨tags, argumentRows, payloads, rfl, rfl, rfl, rfl⟩, representable.arguments⟩
  have propertyChains : decodeCsr ⟨ontology.propertyChains.length, chainOffsets⟩ ⟨chainValueCount, chainValues⟩ =
      some ontology.propertyChains := decodeCsr_iff.mpr ⟨chains, rfl⟩
  have disjointGroups : decodeCsr ⟨ontology.disjointGroups.length, disjointOffsets⟩
      ⟨disjointValueCount, disjointValues⟩ = some ontology.disjointGroups := decodeCsr_iff.mpr ⟨groups, rfl⟩
  have fixed : ∀ {α : Type} {item : Struct α} {values : List α} {payload : List UInt8},
      item.packAll values = some payload → unpackFixed ⟨values.length, payload⟩ item = some values :=
    fun packed => unpackFixed_iff.mpr ⟨packed, rfl⟩
  simp only [readOntologySections, List.map_cons, List.map_nil, EncodedSection.decoded, OntologySection.tag,
    List.lookup_cons, Nat.reduceBEq, Option.bind_eq_bind, Option.bind_some, entities, expressions, propertyChains,
    disjointGroups, fixed occurrences, fixed occurrences', fixed subclass, fixed equivalent, fixed subproperty,
    fixed ranges, fixed features, if_true, Option.pure_def]

/-- Sections under distinct tags are what looking up the tags gives. -/
theorem encoded_eq_filterMap {sections : List (Nat × DecodedSection)} (distinct : (sections.map Prod.fst).Nodup) :
    sections.map DecodedSection.encoded = (sections.map Prod.fst).filterMap fun tag =>
      (sections.lookup tag).map fun section_ => DecodedSection.encoded (tag, section_) := by
  induction sections with
  | nil => rfl
  | cons item rest ih =>
    obtain ⟨tag, section_⟩ := item
    obtain ⟨fresh, distinct'⟩ := List.nodup_cons.mp distinct
    have others : ∀ other ∈ rest.map Prod.fst, List.lookup other ((tag, section_) :: rest) =
      List.lookup other rest := by
      intro other member
      have different : (other == tag) = false := beq_false_of_ne fun same => fresh (same ▸ member)
      rw [List.lookup_cons, different]
    have first : List.lookup tag ((tag, section_) :: rest) = some section_ := by
      rw [List.lookup_cons, beq_self_eq_true]
    rw [List.map_cons, List.map_cons, List.filterMap_cons, first, ih distinct']
    simp only [Option.map_some]
    congr 1
    exact List.filterMap_congr fun other member => by rw [others other member]

/-- The section under a tag. -/
def sectionAt (sections : List (Nat × DecodedSection)) (tag : Nat) : DecodedSection :=
  (sections.lookup tag).getD ⟨0, []⟩

/-- Every tag of a directory finds its section. -/
theorem lookup_sectionAt {sections : List (Nat × DecodedSection)} {count : Nat}
    (tags : sections.map Prod.fst = List.range' 1 count) (tag : Nat) (first : 1 ≤ tag) (last : tag ≤ count) :
    sections.lookup tag = some (sectionAt sections tag) := by
  have present : tag ∈ sections.map Prod.fst := tags ▸ List.mem_range'_1.mpr ⟨first, by omega⟩
  obtain ⟨section_, found⟩ := Option.isSome_iff_exists.mp (lookup_isSome_iff.mpr present)
  rw [sectionAt, found]
  rfl

/-- The tables of an ontology are what its sections hold. -/
structure Tables.ReadFrom (ontology : Tables) (part : Nat → DecodedSection) : Prop where
  entities : decodeEntityRecords (part 1) (part 2) (part 3) = some ontology.entities
  expressions : ExpressionsStored ontology.expressions (part 4) (part 5) (part 6) (part 7) (part 8)
  expressionOccurrences : unpackFixed (part 9) occurrenceStruct = some ontology.expressionOccurrences
  propertyOccurrences : unpackFixed (part 10) occurrenceStruct = some ontology.propertyOccurrences
  propertyChains : decodeCsr (part 11) (part 12) = some ontology.propertyChains
  subclassAxioms : unpackFixed (part 13) pairStruct = some ontology.subclassAxioms
  equivalentClassAxioms : unpackFixed (part 14) pairStruct = some ontology.equivalentClassAxioms
  disjointGroups : decodeCsr (part 15) (part 16) = some ontology.disjointGroups
  subpropertyAxioms : unpackFixed (part 17) pairStruct = some ontology.subpropertyAxioms
  propertyRanges : unpackFixed (part 18) pairStruct = some ontology.propertyRanges
  featureCounts : unpackFixed (part 19) u64Struct = some ontology.featureCounts
  sourceFingerprint : (part 20).count = 1 ∧ (part 20).payload = ontology.sourceFingerprint

theorem sectionAt_eq {sections : List (Nat × DecodedSection)} {tag : Nat} {section_ : DecodedSection}
    (found : sections.lookup tag = some section_) : sectionAt sections tag = section_ := by
  rw [sectionAt, found]
  rfl

/-- The tables are read exactly from the sections they are stored in. -/
theorem readOntologySections_iff {ontology : Tables} {sections : List (Nat × DecodedSection)}
    (tags : sections.map Prod.fst = OntologySection.tags) :
    readOntologySections sections = some ontology ↔ ontology.ReadFrom (sectionAt sections) ∧
      ∀ record ∈ ontology.expressions, record.arguments.all checkU32 := by
  constructor
  · intro read
    obtain ⟨entityKinds, at1, read⟩ := Option.bind_eq_some_iff.mp read
    obtain ⟨iriOffsets, at2, read⟩ := Option.bind_eq_some_iff.mp read
    obtain ⟨iriBytes, at3, read⟩ := Option.bind_eq_some_iff.mp read
    obtain ⟨entities, readEntities, read⟩ := Option.bind_eq_some_iff.mp read
    obtain ⟨expressionTags, at4, read⟩ := Option.bind_eq_some_iff.mp read
    obtain ⟨argumentOffsets, at5, read⟩ := Option.bind_eq_some_iff.mp read
    obtain ⟨arguments, at6, read⟩ := Option.bind_eq_some_iff.mp read
    obtain ⟨payloadOffsets, at7, read⟩ := Option.bind_eq_some_iff.mp read
    obtain ⟨payloadBytes, at8, read⟩ := Option.bind_eq_some_iff.mp read
    obtain ⟨expressions, readExpressions, read⟩ := Option.bind_eq_some_iff.mp read
    obtain ⟨fingerprint, at20, read⟩ := Option.bind_eq_some_iff.mp read
    rw [Option.ite_none_right_eq_some] at read
    obtain ⟨single, read⟩ := read
    obtain ⟨expressionOccurrences, at9, read⟩ := Option.bind_eq_some_iff.mp read
    obtain ⟨occurrences, readOccurrences, read⟩ := Option.bind_eq_some_iff.mp read
    obtain ⟨propertyOccurrences, at10, read⟩ := Option.bind_eq_some_iff.mp read
    obtain ⟨occurrences', readOccurrences', read⟩ := Option.bind_eq_some_iff.mp read
    obtain ⟨chainOffsets, at11, read⟩ := Option.bind_eq_some_iff.mp read
    obtain ⟨chainValues, at12, read⟩ := Option.bind_eq_some_iff.mp read
    obtain ⟨chains, readChains, read⟩ := Option.bind_eq_some_iff.mp read
    obtain ⟨subclassAxioms, at13, read⟩ := Option.bind_eq_some_iff.mp read
    obtain ⟨subclass, readSubclass, read⟩ := Option.bind_eq_some_iff.mp read
    obtain ⟨equivalentClassAxioms, at14, read⟩ := Option.bind_eq_some_iff.mp read
    obtain ⟨equivalent, readEquivalent, read⟩ := Option.bind_eq_some_iff.mp read
    obtain ⟨groupOffsets, at15, read⟩ := Option.bind_eq_some_iff.mp read
    obtain ⟨groupValues, at16, read⟩ := Option.bind_eq_some_iff.mp read
    obtain ⟨groups, readGroups, read⟩ := Option.bind_eq_some_iff.mp read
    obtain ⟨subpropertyAxioms, at17, read⟩ := Option.bind_eq_some_iff.mp read
    obtain ⟨subproperty, readSubproperty, read⟩ := Option.bind_eq_some_iff.mp read
    obtain ⟨propertyRanges, at18, read⟩ := Option.bind_eq_some_iff.mp read
    obtain ⟨ranges, readRanges, read⟩ := Option.bind_eq_some_iff.mp read
    obtain ⟨featureCounts, at19, read⟩ := Option.bind_eq_some_iff.mp read
    obtain ⟨features, readFeatures, last⟩ := Option.bind_eq_some_iff.mp read
    cases last
    simp only [OntologySection.tag] at at1 at2 at3 at4 at5 at6 at7 at8 at9 at10
    simp only [OntologySection.tag] at at11 at12 at13 at14 at15 at16 at17 at18 at19 at20
    obtain ⟨stored, fits⟩ := decodeExpressionRecords_iff.mp readExpressions
    refine ⟨?_, fits⟩
    exact ⟨by rw [sectionAt_eq at1, sectionAt_eq at2, sectionAt_eq at3]; exact readEntities,
      by rw [sectionAt_eq at4, sectionAt_eq at5, sectionAt_eq at6, sectionAt_eq at7, sectionAt_eq at8]; exact stored,
      by rw [sectionAt_eq at9]; exact readOccurrences, by rw [sectionAt_eq at10]; exact readOccurrences',
      by rw [sectionAt_eq at11, sectionAt_eq at12]; exact readChains, by rw [sectionAt_eq at13]; exact readSubclass,
      by rw [sectionAt_eq at14]; exact readEquivalent, by rw [sectionAt_eq at15, sectionAt_eq at16]; exact readGroups,
      by rw [sectionAt_eq at17]; exact readSubproperty, by rw [sectionAt_eq at18]; exact readRanges,
      by rw [sectionAt_eq at19]; exact readFeatures, by rw [sectionAt_eq at20]; exact ⟨single, rfl⟩⟩
  · rintro ⟨read, fits⟩
    have found := lookup_sectionAt tags
    have readExpressions := decodeExpressionRecords_iff.mpr ⟨read.expressions, fits⟩
    simp only [readOntologySections, OntologySection.tag, found, Nat.reduceLeDiff, read.entities, readExpressions,
      read.expressionOccurrences, read.propertyOccurrences, read.propertyChains, read.subclassAxioms,
      read.equivalentClassAxioms, read.disjointGroups, read.subpropertyAxioms, read.propertyRanges,
      read.featureCounts,
      read.sourceFingerprint, Option.bind_eq_bind, Option.bind_some, if_true, Option.pure_def]

/-- Whatever is read from sections under the required tags has these sections. -/
theorem ontologySections_of_read {ontology : Tables} {sections : List (Nat × DecodedSection)}
    (tags : sections.map Prod.fst = OntologySection.tags) (read : readOntologySections sections = some ontology) :
    ontologySections ontology = some (sections.map DecodedSection.encoded) ∧ ontology.Representable := by
  obtain ⟨parts, small⟩ := (readOntologySections_iff tags).mp read
  obtain ⟨kindBytes, iriRows, count1, count2, count3, named⟩ := decodeEntityRecords_iff.mp parts.entities
  obtain ⟨tagBytes, argumentRows, payloadRows, count4, count5, count7, count8⟩ := parts.expressions
  obtain ⟨counts9, count9⟩ := unpackFixed_iff.mp parts.expressionOccurrences
  obtain ⟨counts10, count10⟩ := unpackFixed_iff.mp parts.propertyOccurrences
  obtain ⟨chainRows, count11⟩ := decodeCsr_iff.mp parts.propertyChains
  obtain ⟨pairs13, count13⟩ := unpackFixed_iff.mp parts.subclassAxioms
  obtain ⟨pairs14, count14⟩ := unpackFixed_iff.mp parts.equivalentClassAxioms
  obtain ⟨groupRows, count15⟩ := decodeCsr_iff.mp parts.disjointGroups
  obtain ⟨pairs17, count17⟩ := unpackFixed_iff.mp parts.subpropertyAxioms
  obtain ⟨pairs18, count18⟩ := unpackFixed_iff.mp parts.propertyRanges
  obtain ⟨values19, count19⟩ := unpackFixed_iff.mp parts.featureCounts
  obtain ⟨count20, digest⟩ := parts.sourceFingerprint
  refine ⟨?_, ⟨named, small⟩⟩
  have distinct : (sections.map Prod.fst).Nodup := tags ▸ List.nodup_range'
  have found := lookup_sectionAt tags
  have listed : OntologySection.tags = [1, 2, 3, 4, 5, 6, 7, 8, 9, 10, 11, 12, 13, 14, 15, 16, 17, 18, 19, 20] := rfl
  rw [encoded_eq_filterMap distinct, tags]
  simp only [listed, List.filterMap_cons, List.filterMap_nil, found, Nat.reduceLeDiff, Option.map_some,
    DecodedSection.encoded]
  simp only [ontologySections, iriRows, argumentRows, payloadRows, chainRows, groupRows, kindBytes, tagBytes, counts9,
    counts10, pairs13, pairs14, pairs17, pairs18, values19, Option.bind_eq_bind, Option.bind_some, Option.pure_def,
    OntologySection.tag, count1, count2, count3, count4, count5, count7, count8, count9, count10, count11, count13,
    count14, count15, count17, count18, count19, count20, digest]

/-- The checks made while the records of a query are built, before its tables are. -/
structure QueryTables.Representable (query : QueryTables) : Prop where
  named : ∀ record ∈ query.entityRecords, record.iri ≠ ""
  arguments : ∀ record ∈ query.expressions, record.arguments.all checkU32
  ontologyIds : ∀ record ∈ query.entities, record.ontologyId ≠ some U32_RESERVED
  rootExpression : query.rootExpression ≠ some U32_RESERVED

/-- An optional ID is read back from the number that stands for it. -/
theorem decodeReserved_encodeReserved {entity : Option Nat} (plain : entity ≠ some U32_RESERVED) :
    decodeReserved (encodeReserved entity) = entity := by
  cases entity with
  | none => rfl
  | some id => exact if_neg fun same => plain (congrArg some same)

@[simp] theorem encodeReserved_decodeReserved (value : Nat) : encodeReserved (decodeReserved value) = value := by
  unfold decodeReserved encodeReserved
  split
  · next same => exact same.symm
  · rfl

theorem decodeReserved_ne (value : Nat) : decodeReserved value ≠ some U32_RESERVED := by
  unfold decodeReserved
  split
  · exact nofun
  · next other => exact fun same => other (Option.some.inj same)

theorem unpackFixed_onlyValue {item : Struct Nat} {section_ : DecodedSection} {value : Nat} :
    ((unpackFixed section_ item).bind onlyValue) = some value ↔
      item.pack value = some section_.payload ∧ section_.count = 1 := by
  have all : item.packAll [value] = some section_.payload ↔ item.pack value = some section_.payload := by
    rw [Struct.packAll_cons]
    simp [Struct.packAll_nil]
  constructor
  · intro read
    obtain ⟨values, unpacked, single⟩ := Option.bind_eq_some_iff.mp read
    obtain ⟨packed, count⟩ := unpackFixed_iff.mp unpacked
    unfold onlyValue at single
    split at single
    · cases single
      exact ⟨all.mp packed, count⟩
    · cases single
  · rintro ⟨packed, count⟩
    rw [unpackFixed_iff.mpr ⟨all.mpr packed, count⟩]
    rfl

/-- The sections of a query, read back. -/
theorem readQuerySections_of_sections {query : QueryTables} {sections : List EncodedSection}
    (representable : query.Representable) (encoded : querySections query = some sections) :
    sections.map EncodedSection.tag = QuerySection.tags ∧
      readQuerySections (sections.map EncodedSection.decoded) = some query := by
  obtain ⟨⟨iriOffsets, iriBytes⟩, iris, encoded⟩ := Option.bind_eq_some_iff.mp encoded
  obtain ⟨⟨argumentOffsets, arguments, argumentCount⟩, argumentRows, encoded⟩ := Option.bind_eq_some_iff.mp encoded
  obtain ⟨⟨payloadOffsets, payloadBytes⟩, payloads, encoded⟩ := Option.bind_eq_some_iff.mp encoded
  obtain ⟨kind, kindByte, encoded⟩ := Option.bind_eq_some_iff.mp encoded
  obtain ⟨entityKinds, kinds, encoded⟩ := Option.bind_eq_some_iff.mp encoded
  obtain ⟨entityOntologyIds, ids, encoded⟩ := Option.bind_eq_some_iff.mp encoded
  obtain ⟨expressionTags, tags, encoded⟩ := Option.bind_eq_some_iff.mp encoded
  obtain ⟨expressionOccurrences, occurrences, encoded⟩ := Option.bind_eq_some_iff.mp encoded
  obtain ⟨propertyOccurrences, occurrences', encoded⟩ := Option.bind_eq_some_iff.mp encoded
  obtain ⟨rootField, root, encoded⟩ := Option.bind_eq_some_iff.mp encoded
  obtain ⟨subsumptionObligations, obligations, last⟩ := Option.bind_eq_some_iff.mp encoded
  rw [← Option.some.inj last]
  refine ⟨rfl, ?_⟩
  have entities : decodeEntityRecords ⟨query.entityRecords.length, entityKinds⟩
    ⟨query.entityRecords.length, iriOffsets⟩
      ⟨iriBytes.length, iriBytes⟩ = some query.entityRecords :=
    decodeEntityRecords_iff.mpr ⟨kinds, iris, rfl, rfl, rfl, representable.named⟩
  have expressions : decodeExpressionRecords ⟨query.expressions.length, expressionTags⟩
      ⟨query.expressions.length, argumentOffsets⟩ ⟨argumentCount, arguments⟩
      ⟨query.expressions.length, payloadOffsets⟩ ⟨payloadBytes.length, payloadBytes⟩ = some query.expressions :=
    decodeExpressionRecords_iff.mpr ⟨⟨tags, argumentRows, payloads, rfl, rfl, rfl, rfl⟩, representable.arguments⟩
  have fixed : ∀ {α : Type} {item : Struct α} {values : List α} {payload : List UInt8},
      item.packAll values = some payload → unpackFixed ⟨values.length, payload⟩ item = some values :=
    fun packed => unpackFixed_iff.mpr ⟨packed, rfl⟩
  have ontologyIds : unpackFixed ⟨query.entities.length, entityOntologyIds⟩ u32Struct =
      some (query.entities.map fun record => encodeReserved record.ontologyId) :=
    unpackFixed_iff.mpr ⟨ids, (List.length_map _).symm⟩
  have only : ∀ {item : Struct Nat} {value : Nat} {payload : List UInt8}, item.pack value = some payload →
      ∃ values, unpackFixed ⟨1, payload⟩ item = some values ∧ onlyValue values = some value :=
    fun packed => Option.bind_eq_some_iff.mp (unpackFixed_onlyValue.mpr ⟨packed, rfl⟩)
  obtain ⟨kindValues, readKind, oneKind⟩ := only kindByte
  obtain ⟨rootValues, readRoot, oneRoot⟩ := only root
  have size : query.entityRecords.length =
    (query.entities.map fun record => encodeReserved record.ontologyId).length := by
    rw [QueryTables.entityRecords, List.length_map, List.length_map]
  have rows : (query.entityRecords.zip (query.entities.map fun record => encodeReserved record.ontologyId)).map
      (fun row => (⟨row.1, decodeReserved row.2⟩ : QueryEntityRecord)) = query.entities := by
    rw [QueryTables.entityRecords, List.zip_map', List.map_map]
    refine (List.map_congr_left fun record member => ?_).trans (List.map_id _)
    simp only [Function.comp_apply, decodeReserved_encodeReserved (representable.ontologyIds record member), id_eq]
  simp only [readQuerySections, List.map_cons, List.map_nil, EncodedSection.decoded, QuerySection.tag,
    List.lookup_cons, Nat.reduceBEq, Option.bind_eq_bind, Option.bind_some, readKind, oneKind,
    QueryIRKind.ofCode?_iff.mpr rfl,
    entities, expressions, ontologyIds, if_pos size, readRoot, oneRoot, fixed occurrences, fixed occurrences',
    fixed obligations, rows, decodeReserved_encodeReserved representable.rootExpression, Option.pure_def]

/-- The tables of a query are what its sections hold. -/
structure QueryTables.ReadFrom (query : QueryTables) (part : Nat → DecodedSection) : Prop where
  kind : u8Struct.pack query.kind.code = some (part 1).payload ∧ (part 1).count = 1
  entityRecords : decodeEntityRecords (part 2) (part 3) (part 4) = some query.entityRecords
  ontologyIds : unpackFixed (part 5) u32Struct =
    some (query.entities.map fun record => encodeReserved record.ontologyId)
  expressions : ExpressionsStored query.expressions (part 6) (part 7) (part 8) (part 9) (part 10)
  expressionOccurrences : unpackFixed (part 11) occurrenceStruct = some query.expressionOccurrences
  propertyOccurrences : unpackFixed (part 12) occurrenceStruct = some query.propertyOccurrences
  rootExpression : u32Struct.pack (encodeReserved query.rootExpression) = some (part 13).payload ∧ (part 13).count = 1
  subsumptionObligations : unpackFixed (part 14) pairStruct = some query.subsumptionObligations
  entitiesPlain : ∀ record ∈ query.entities, record.ontologyId ≠ some U32_RESERVED
  rootPlain : query.rootExpression ≠ some U32_RESERVED

/-- Query entities are their records and their encoded ontology IDs. -/
theorem queryEntities_eq_iff {entities : List QueryEntityRecord} {records : List EntityRecord} {ids : List Nat}
    (size : records.length = ids.length) :
    entities = (records.zip ids).map (fun row => ⟨row.1, decodeReserved row.2⟩) ↔
      entities.map QueryEntityRecord.entity = records ∧
        (entities.map fun record => encodeReserved record.ontologyId) = ids ∧
        ∀ record ∈ entities, record.ontologyId ≠ some U32_RESERVED := by
  constructor
  · rintro rfl
    refine ⟨?_, ?_, fun record member => ?_⟩
    · rw [List.map_map]
      exact List.map_fst_zip size.le
    · rw [List.map_map]
      have same : (fun record : QueryEntityRecord => encodeReserved record.ontologyId) ∘
          (fun row : EntityRecord × Nat => (⟨row.1, decodeReserved row.2⟩ : QueryEntityRecord)) = Prod.snd :=
        funext fun row => encodeReserved_decodeReserved row.2
      rw [same]
      exact List.map_snd_zip size.ge
    · obtain ⟨row, -, rfl⟩ := List.mem_map.mp member
      exact decodeReserved_ne _
  · rintro ⟨rfl, rfl, plain⟩
    rw [List.zip_map', List.map_map]
    refine ((List.map_congr_left fun record member => ?_).trans (List.map_id _)).symm
    simp only [Function.comp_apply, decodeReserved_encodeReserved (plain record member), id_eq]

/-- A query is read exactly from the sections it is stored in. -/
theorem readQuerySections_iff {query : QueryTables} {sections : List (Nat × DecodedSection)}
    (tags : sections.map Prod.fst = QuerySection.tags) :
    readQuerySections sections = some query ↔ query.ReadFrom (sectionAt sections) ∧
      ∀ record ∈ query.expressions, record.arguments.all checkU32 := by
  constructor
  · intro read
    obtain ⟨kindSection, at1, read⟩ := Option.bind_eq_some_iff.mp read
    obtain ⟨kindValues, readKind, read⟩ := Option.bind_eq_some_iff.mp read
    obtain ⟨kindValue, oneKind, read⟩ := Option.bind_eq_some_iff.mp read
    obtain ⟨kind, knownKind, read⟩ := Option.bind_eq_some_iff.mp read
    obtain ⟨entityKinds, at2, read⟩ := Option.bind_eq_some_iff.mp read
    obtain ⟨iriOffsets, at3, read⟩ := Option.bind_eq_some_iff.mp read
    obtain ⟨iriBytes, at4, read⟩ := Option.bind_eq_some_iff.mp read
    obtain ⟨entityRecords, readEntities, read⟩ := Option.bind_eq_some_iff.mp read
    obtain ⟨idSection, at5, read⟩ := Option.bind_eq_some_iff.mp read
    obtain ⟨ontologyIds, readIds, read⟩ := Option.bind_eq_some_iff.mp read
    rw [Option.ite_none_right_eq_some] at read
    obtain ⟨size, read⟩ := read
    obtain ⟨expressionTags, at6, read⟩ := Option.bind_eq_some_iff.mp read
    obtain ⟨argumentOffsets, at7, read⟩ := Option.bind_eq_some_iff.mp read
    obtain ⟨arguments, at8, read⟩ := Option.bind_eq_some_iff.mp read
    obtain ⟨payloadOffsets, at9, read⟩ := Option.bind_eq_some_iff.mp read
    obtain ⟨payloadBytes, at10, read⟩ := Option.bind_eq_some_iff.mp read
    obtain ⟨expressions, readExpressions, read⟩ := Option.bind_eq_some_iff.mp read
    obtain ⟨rootSection, at13, read⟩ := Option.bind_eq_some_iff.mp read
    obtain ⟨rootValues, readRoot, read⟩ := Option.bind_eq_some_iff.mp read
    obtain ⟨rootValue, oneRoot, read⟩ := Option.bind_eq_some_iff.mp read
    obtain ⟨expressionOccurrences, at11, read⟩ := Option.bind_eq_some_iff.mp read
    obtain ⟨occurrences, readOccurrences, read⟩ := Option.bind_eq_some_iff.mp read
    obtain ⟨propertyOccurrences, at12, read⟩ := Option.bind_eq_some_iff.mp read
    obtain ⟨occurrences', readOccurrences', read⟩ := Option.bind_eq_some_iff.mp read
    obtain ⟨obligationSection, at14, read⟩ := Option.bind_eq_some_iff.mp read
    obtain ⟨obligations, readObligations, last⟩ := Option.bind_eq_some_iff.mp read
    have kindByte := unpackFixed_onlyValue.mp (Option.bind_eq_some_iff.mpr ⟨_, readKind, oneKind⟩)
    have rootField := unpackFixed_onlyValue.mp (Option.bind_eq_some_iff.mpr ⟨_, readRoot, oneRoot⟩)
    rw [← QueryIRKind.ofCode?_iff.mp knownKind] at kindByte
    rw [← encodeReserved_decodeReserved rootValue] at rootField
    cases last
    obtain ⟨sameRecords, sameIds, plain⟩ := (queryEntities_eq_iff size).mp rfl
    simp only [QuerySection.tag] at at1 at2 at3 at4 at5 at6 at7 at8 at9 at10 at11 at12 at13 at14
    obtain ⟨stored, fits⟩ := decodeExpressionRecords_iff.mp readExpressions
    refine ⟨?_, fits⟩
    exact ⟨by rw [sectionAt_eq at1]; exact kindByte,
      by
        rw [sectionAt_eq at2, sectionAt_eq at3, sectionAt_eq at4, readEntities]
        exact congrArg some sameRecords.symm,
      by rw [sectionAt_eq at5, readIds]; exact congrArg some sameIds.symm,
      by rw [sectionAt_eq at6, sectionAt_eq at7, sectionAt_eq at8, sectionAt_eq at9, sectionAt_eq at10]; exact stored,
      by rw [sectionAt_eq at11]; exact readOccurrences, by rw [sectionAt_eq at12]; exact readOccurrences',
      by rw [sectionAt_eq at13]; exact rootField, by rw [sectionAt_eq at14]; exact readObligations, plain,
      decodeReserved_ne _⟩
  · rintro ⟨read, fits⟩
    have found := lookup_sectionAt tags
    have readExpressions := decodeExpressionRecords_iff.mpr ⟨read.expressions, fits⟩
    obtain ⟨kindValues, readKind, oneKind⟩ := Option.bind_eq_some_iff.mp (unpackFixed_onlyValue.mpr read.kind)
    obtain ⟨rootValues, readRoot, oneRoot⟩ :=
      Option.bind_eq_some_iff.mp (unpackFixed_onlyValue.mpr read.rootExpression)
    have size : query.entityRecords.length =
      (query.entities.map fun record => encodeReserved record.ontologyId).length := by
      rw [QueryTables.entityRecords, List.length_map, List.length_map]
    have rows := (queryEntities_eq_iff size).mpr ⟨rfl, rfl, read.entitiesPlain⟩
    simp only [readQuerySections, QuerySection.tag, found, Nat.reduceLeDiff, readKind, oneKind,
      QueryIRKind.ofCode?_iff.mpr rfl, read.entityRecords, read.ontologyIds, if_pos size, readExpressions, readRoot,
      oneRoot, read.expressionOccurrences, read.propertyOccurrences, read.subsumptionObligations, Option.bind_eq_bind,
      Option.bind_some, ← rows, decodeReserved_encodeReserved read.rootPlain, Option.pure_def]

/-- Whatever is read from sections under the required tags has these sections. -/
theorem querySections_of_read {query : QueryTables} {sections : List (Nat × DecodedSection)}
    (tags : sections.map Prod.fst = QuerySection.tags) (read : readQuerySections sections = some query) :
    querySections query = some (sections.map DecodedSection.encoded) ∧ query.Representable := by
  obtain ⟨parts, small⟩ := (readQuerySections_iff tags).mp read
  obtain ⟨kindByte, count1⟩ := parts.kind
  obtain ⟨rootField, count13⟩ := parts.rootExpression
  obtain ⟨kindBytes, iriRows, count2, count3, count4, named⟩ := decodeEntityRecords_iff.mp parts.entityRecords
  obtain ⟨tagBytes, argumentRows, payloadRows, count6, count7, count9, count10⟩ := parts.expressions
  obtain ⟨ids5, count5⟩ := unpackFixed_iff.mp parts.ontologyIds
  obtain ⟨counts11, count11⟩ := unpackFixed_iff.mp parts.expressionOccurrences
  obtain ⟨counts12, count12⟩ := unpackFixed_iff.mp parts.propertyOccurrences
  obtain ⟨pairs14, count14⟩ := unpackFixed_iff.mp parts.subsumptionObligations
  rw [List.length_map] at count5
  refine ⟨?_, ⟨named, small, parts.entitiesPlain, parts.rootPlain⟩⟩
  have distinct : (sections.map Prod.fst).Nodup := tags ▸ List.nodup_range'
  have found := lookup_sectionAt tags
  have listed : QuerySection.tags = [1, 2, 3, 4, 5, 6, 7, 8, 9, 10, 11, 12, 13, 14] := rfl
  rw [encoded_eq_filterMap distinct, tags]
  simp only [listed, List.filterMap_cons, List.filterMap_nil, found, Nat.reduceLeDiff, Option.map_some,
    DecodedSection.encoded]
  simp only [querySections, iriRows, argumentRows, payloadRows, kindBytes, kindByte, tagBytes, ids5,
    counts11, counts12,
    rootField, pairs14, Option.bind_eq_bind, Option.bind_some, Option.pure_def, QuerySection.tag, count1,
    count2, count3,
    count4, count5, count6, count7, count9, count10, count11, count12, count13, count14]

end PyElk
