import PyElk.Indexing.RoundTrip

namespace PyElk

/-- `sys.maxsize`: no byte string is longer. -/
def maxsize : Nat := 2 ^ 63 - 1

/-- The bytes of a table of rows: its offsets and its values of `width` bytes each. -/
def csrSize {α : Type} (width : Nat) (rows : List (List α)) : Nat :=
  8 * (rows.length + 1) + width * rows.flatten.length

/-- The length of an encoded ontology. -/
def Tables.encodedSize (ontology : Tables) : Nat :=
  directoryEnd 20 + ontology.entities.length + csrSize 1 (ontology.entities.map fun record => encodeUtf8 record.iri) +
    ontology.expressions.length + csrSize 4 (ontology.expressions.map ExpressionRecord.arguments) +
    csrSize 1 (ontology.expressions.map ExpressionRecord.payload) + 16 * ontology.expressionOccurrences.length +
    16 * ontology.propertyOccurrences.length + csrSize 4 ontology.propertyChains +
      8 * ontology.subclassAxioms.length +
    8 * ontology.equivalentClassAxioms.length + csrSize 4 ontology.disjointGroups +
    8 * ontology.subpropertyAxioms.length + 8 * ontology.propertyRanges.length + 8 * ontology.featureCounts.length +
    ontology.sourceFingerprint.length + CHECKSUM_SIZE

/-- The length of an encoded query. -/
def QueryTables.encodedSize (query : QueryTables) : Nat :=
  directoryEnd 14 + 1 + query.entityRecords.length +
    csrSize 1 (query.entityRecords.map fun record => encodeUtf8 record.iri) + 4 * query.entities.length +
    query.expressions.length + csrSize 4 (query.expressions.map ExpressionRecord.arguments) +
    csrSize 1 (query.expressions.map ExpressionRecord.payload) + 16 * query.expressionOccurrences.length +
    16 * query.propertyOccurrences.length + 4 + 8 * query.subsumptionObligations.length + CHECKSUM_SIZE

/-- Records that fit one by one are packed to a table of their number. -/
theorem packAll_exists {α : Type} {item : Struct α} {values : List α}
    (fits : ∀ value ∈ values, (item.pack value).isSome) :
    ∃ bytes, item.packAll values = some bytes ∧ bytes.length = values.length * item.size := by
  obtain ⟨bytes, packed⟩ := Option.isSome_iff_exists.mp (Struct.packAll_isSome fits)
  exact ⟨bytes, packed, Struct.packAll_length packed⟩

/-- The offsets of a table with variable lengths are 64-bit numbers, one more than it has rows. -/
theorem offsets_exist {α : Type} {rows : List (List α)} (size : rows.flatten.length < 256 ^ 8) :
    ∃ offsets, u64Struct.packAll (Csr.offsets 0 rows) = some offsets ∧ offsets.length = (rows.length + 1) * 8 := by
  have fits : ∀ offset ∈ Csr.offsets 0 rows, (u64Struct.pack offset).isSome := by
    intro offset member
    have bound := Csr.offsets_le member
    exact Struct.uint_isSome.mpr (by omega)
  obtain ⟨offsets, packed, length⟩ := packAll_exists fits
  rw [Csr.offsets_length] at length
  exact ⟨offsets, packed, length⟩

/-- Rows of 32-bit values are encoded, with the length that the size function predicts. -/
theorem encodeCsr_exists {rows : List (List Nat)} (fits : ∀ row ∈ rows, ∀ value ∈ row, value < 256 ^ 4)
    (size : rows.flatten.length < 256 ^ 8) :
    ∃ offsets values, encodeCsr rows = some (offsets, values, rows.flatten.length) ∧
      offsets.length = (rows.length + 1) * 8 ∧ values.length = rows.flatten.length * 4 := by
  obtain ⟨offsets, packed, length⟩ := offsets_exist size
  have small : ∀ value ∈ rows.flatten, (u32Struct.pack value).isSome := by
    intro value member
    obtain ⟨row, found, inRow⟩ := List.mem_flatten.mp member
    exact Struct.uint_isSome.mpr (fits row found value inRow)
  obtain ⟨values, packed', length'⟩ := packAll_exists small
  refine ⟨offsets, values, ?_, length, length'⟩
  rw [encodeCsr, packed, packed']
  rfl

/-- Rows of bytes are encoded, with the length that the size function predicts. -/
theorem encodeByteCsr_exists {rows : List (List UInt8)} (size : rows.flatten.length < 256 ^ 8) :
    ∃ offsets, encodeByteCsr rows = some (offsets, rows.flatten) ∧ offsets.length = (rows.length + 1) * 8 := by
  obtain ⟨offsets, packed, length⟩ := offsets_exist size
  refine ⟨offsets, ?_, length⟩
  rw [encodeByteCsr, packed]
  rfl

/-! What validation promises about the numbers of a payload. -/

theorem checkU32_iff {value : Nat} : checkU32 value ↔ value < U32_RESERVED := decide_eq_true_iff

theorem EntityKind.code_lt (kind : EntityKind) : kind.code < 256 ^ 1 := by cases kind <;> decide

theorem ExpressionTag.code_lt (tag : ExpressionTag) : tag.code < 256 ^ 1 := by cases tag <;> decide

theorem QueryIRKind.code_lt (kind : QueryIRKind) : kind.code < 256 ^ 1 := by cases kind <;> decide

theorem validateEntities_named {entities : List EntityRecord} {predefined : Bool}
    (checked : validateEntities entities predefined) : ∀ record ∈ entities, record.iri ≠ "" := by
  unfold validateEntities at checked
  simp only [Bool.and_eq_true, List.all_eq_true] at checked
  exact fun record member => bne_iff_ne.mp (checked.1.1.1 record member)

/-- The IDs of the entities are below the reserved one. -/
theorem validateEntities_few {entities : List EntityRecord} {predefined : Bool}
    (checked : validateEntities entities predefined) : entities.length ≤ U32_RESERVED := by
  unfold validateEntities at checked
  simp only [Bool.and_eq_true] at checked
  exact of_decide_eq_true checked.1.2

/-- The IDs of the expressions are below the reserved one. -/
theorem validateExpressions_few {expressions : List ExpressionRecord} {entities : List EntityRecord}
    (checked : validateExpressions expressions entities) : expressions.length ≤ U32_RESERVED := by
  unfold validateExpressions at checked
  simp only [Bool.and_eq_true] at checked
  exact of_decide_eq_true checked.1.1

theorem validateEntityIndex_lt {entities : List EntityRecord} {entity : Nat} {kind : EntityKind}
    (checked : validateEntityIndex entities entity kind) : entity < entities.length := by
  unfold validateEntityIndex at checked
  split at checked
  · next found => exact (List.getElem?_eq_some_iff.mp found).1
  · cases checked

/-- The arguments of a checked record are entities or earlier expressions. -/
theorem validateExpression_lt {entities : List EntityRecord} {expression : Nat} {record : ExpressionRecord}
    (checked : validateExpression entities expression record) :
    ∀ argument ∈ record.arguments, argument < entities.length ∨ argument < expression := by
  unfold validateExpression at checked
  split at checked <;> simp only [Bool.and_eq_true, decide_eq_true_eq, List.all_eq_true,
    Bool.false_eq_true] at checked
  case h_1 _ entity _ same =>
    rw [same]
    exact List.forall_mem_singleton.mpr (Or.inl (validateEntityIndex_lt checked.1))
  case h_2 _ entity _ same =>
    rw [same]
    exact List.forall_mem_singleton.mpr (Or.inl (validateEntityIndex_lt checked.1))
  case h_3 _ first second _ same =>
    rw [same]
    exact List.forall_mem_cons.mpr ⟨Or.inr checked.1.1, List.forall_mem_singleton.mpr (Or.inr checked.1.2)⟩
  case h_4 _ property filler _ same =>
    rw [same]
    exact List.forall_mem_cons.mpr
      ⟨Or.inl (validateEntityIndex_lt checked.1.1), List.forall_mem_singleton.mpr (Or.inr checked.1.2)⟩
  case h_5 _ property _ same =>
    rw [same]
    exact List.forall_mem_singleton.mpr (Or.inl (validateEntityIndex_lt checked.1))
  case h_6 _ property _ same =>
    rw [same]
    exact List.forall_mem_singleton.mpr (Or.inl (validateEntityIndex_lt checked.1))
  case h_7 _ negated _ same =>
    rw [same]
    exact List.forall_mem_singleton.mpr (Or.inr checked.1)
  case h_8 => exact fun argument member => Or.inr (checked.1.2 argument member)

/-- The arguments of a valid expression are IDs. -/
theorem validateExpressions_arguments {expressions : List ExpressionRecord} {entities : List EntityRecord}
    (few : entities.length ≤ U32_RESERVED) (checked : validateExpressions expressions entities) :
    ∀ record ∈ expressions, record.arguments.all checkU32 := by
  intro record member
  obtain ⟨expression, entry⟩ := List.mem_iff_getElem?.mp member
  have position := (List.getElem?_eq_some_iff.mp entry).1
  have bounds := validateExpression_lt (validateExpressions_entry checked entry)
  have few' := validateExpressions_few checked
  refine List.all_eq_true.mpr fun argument found => checkU32_iff.mpr ?_
  rcases bounds argument found with entity | earlier
  · omega
  · omega

/-- The rows of a valid table of pairs fit into their records. -/
theorem validateSortedPairs_pack {rows : List (Nat × Nat)} {firstLimit secondLimit : Nat}
    (checked : validateSortedPairs rows firstLimit secondLimit) : ∀ row ∈ rows, (pairStruct.pack row).isSome := by
  intro row member
  unfold validateSortedPairs at checked
  rw [Bool.and_eq_true, List.all_eq_true] at checked
  have bounds := checked.1 row member
  simp only [Bool.and_eq_true, checkU32_iff] at bounds
  have first : row.1 < 256 ^ 4 := lt_of_lt_of_le bounds.1.1.1 (by decide)
  have second : row.2 < 256 ^ 4 := lt_of_lt_of_le bounds.1.1.2 (by decide)
  exact Struct.pair_isSome (Struct.uint_isSome.mpr first) (Struct.uint_isSome.mpr second)

/-- The counters of valid occurrences fit into their records. -/
theorem validateOccurrences_pack {expressionOccurrences propertyOccurrences : List Occurrence}
    {expressions : List ExpressionRecord} {entities : List EntityRecord}
    (checked : validateOccurrences expressionOccurrences propertyOccurrences expressions entities) :
    ∀ counts ∈ expressionOccurrences ++ propertyOccurrences, (occurrenceStruct.pack counts).isSome := by
  intro counts member
  unfold validateOccurrences at checked
  rw [Bool.and_eq_true, List.all_eq_true] at checked
  have bounds := checked.2 counts member
  simp only [Bool.and_eq_true, decide_eq_true_eq] at bounds
  have negative : counts.negative < 256 ^ 8 := Nat.lt_of_le_of_lt bounds.1 (by decide)
  have positive : counts.positive < 256 ^ 8 := Nat.lt_of_le_of_lt bounds.2 (by decide)
  exact Struct.pair_isSome (Struct.uint_isSome.mpr negative) (Struct.uint_isSome.mpr positive)

/-- A valid ontology has no ID that the encoding keeps for itself. -/
theorem Tables.Valid.representable {ontology : Tables} (valid : ontology.Valid) : ontology.Representable :=
  ⟨validateEntities_named valid.entities,
    validateExpressions_arguments (validateEntities_few valid.entities) valid.expressions⟩

theorem QueryTables.Valid.root_lt {query : QueryTables} (valid : query.Valid) {root : ExpressionId}
    (same : query.rootExpression = some root) : root < query.expressions.length := by
  have checked := valid.kind
  unfold QueryTables.checkKind at checked
  rw [same] at checked
  cases kind : query.kind with
  | classExpression =>
    simp only [kind, Bool.and_eq_true, decide_eq_true_eq] at checked
    exact checked.1
  | entailment => simp only [kind, Bool.false_eq_true] at checked

/-- A valid query has no ID that the encoding keeps for itself. -/
theorem QueryTables.Valid.representable {query : QueryTables} (valid : query.Valid) : query.Representable := by
  refine ⟨validateEntities_named valid.entities,
    validateExpressions_arguments (validateEntities_few valid.entities) valid.expressions, ?_, ?_⟩
  · intro record member same
    have listed : U32_RESERVED ∈ query.entities.filterMap QueryEntityRecord.ontologyId :=
      List.mem_filterMap.mpr ⟨record, member, same⟩
    exact lt_irrefl _ (valid.ontologyIds.2 _ listed)
  · intro same
    exact absurd (valid.root_lt same) (not_lt.mpr (validateExpressions_few valid.expressions))

theorem encodeReserved_lt {entity : Option Nat} (bound : ∀ id, entity = some id → id < U32_RESERVED) :
    encodeReserved entity < 256 ^ 4 := by
  cases entity with
  | none => decide
  | some id => exact (bound id rfl).trans (by decide)

/-- The entity sections can be written. -/
theorem entityTable_exists {entities : List EntityRecord}
    (size : (entities.map fun record => encodeUtf8 record.iri).flatten.length < 256 ^ 8) :
    ∃ kinds offsets, u8Struct.packAll (entities.map fun record => record.kind.code) = some kinds ∧
      encodeByteCsr (entities.map fun record => encodeUtf8 record.iri) =
        some (offsets, (entities.map fun record => encodeUtf8 record.iri).flatten) ∧
      kinds.length = entities.length ∧ offsets.length = (entities.length + 1) * 8 := by
  obtain ⟨offsets, iris, iriSize⟩ := encodeByteCsr_exists size
  have fits : ∀ value ∈ entities.map (fun record => record.kind.code), (u8Struct.pack value).isSome := by
    intro value member
    obtain ⟨record, -, rfl⟩ := List.mem_map.mp member
    exact Struct.uint_isSome.mpr record.kind.code_lt
  obtain ⟨kinds, packed, kindSize⟩ := packAll_exists fits
  rw [List.length_map] at iriSize kindSize
  exact ⟨kinds, offsets, packed, iris, kindSize.trans (Nat.mul_one _), iriSize⟩

/-- The expression sections can be written. -/
theorem expressionTable_exists {expressions : List ExpressionRecord}
    (small : ∀ record ∈ expressions, record.arguments.all checkU32)
    (size : (expressions.map ExpressionRecord.arguments).flatten.length < 256 ^ 8)
    (size' : (expressions.map ExpressionRecord.payload).flatten.length < 256 ^ 8) :
    ∃ tags argumentOffsets arguments payloadOffsets,
      u8Struct.packAll (expressions.map fun record => record.tag.code) = some tags ∧
      encodeCsr (expressions.map ExpressionRecord.arguments) =
        some (argumentOffsets, arguments, (expressions.map ExpressionRecord.arguments).flatten.length) ∧
      encodeByteCsr (expressions.map ExpressionRecord.payload) =
        some (payloadOffsets, (expressions.map ExpressionRecord.payload).flatten) ∧
      tags.length = expressions.length ∧ argumentOffsets.length = (expressions.length + 1) * 8 ∧
      arguments.length = (expressions.map ExpressionRecord.arguments).flatten.length * 4 ∧
      payloadOffsets.length = (expressions.length + 1) * 8 := by
  have bounds : ∀ row ∈ expressions.map ExpressionRecord.arguments, ∀ value ∈ row, value < 256 ^ 4 := by
    intro row member value inRow
    obtain ⟨record, found, rfl⟩ := List.mem_map.mp member
    exact (checkU32_iff.mp (List.all_eq_true.mp (small record found) value inRow)).trans (by decide)
  obtain ⟨argumentOffsets, arguments, argumentRows, argumentSize, valueSize⟩ := encodeCsr_exists bounds size
  obtain ⟨payloadOffsets, payloads, payloadSize⟩ := encodeByteCsr_exists size'
  have fits : ∀ value ∈ expressions.map (fun record => record.tag.code), (u8Struct.pack value).isSome := by
    intro value member
    obtain ⟨record, -, rfl⟩ := List.mem_map.mp member
    exact Struct.uint_isSome.mpr record.tag.code_lt
  obtain ⟨tags, packed, tagSize⟩ := packAll_exists fits
  rw [List.length_map] at argumentSize payloadSize tagSize
  exact ⟨tags, argumentOffsets, arguments, payloadOffsets, packed, argumentRows, payloads,
    tagSize.trans (Nat.mul_one _), argumentSize, valueSize, payloadSize⟩

/-- The numbers of an ontology fit the fields of its sections. -/
structure Tables.Packable (ontology : Tables) : Prop where
  arguments : ∀ record ∈ ontology.expressions, record.arguments.all checkU32
  counts : ∀ counts ∈ ontology.expressionOccurrences ++ ontology.propertyOccurrences,
    (occurrenceStruct.pack counts).isSome
  chains : ∀ chain ∈ ontology.propertyChains, ∀ property ∈ chain, property < 256 ^ 4
  groups : ∀ group ∈ ontology.disjointGroups, ∀ expression ∈ group, expression < 256 ^ 4
  subclass : ∀ row ∈ ontology.subclassAxioms, (pairStruct.pack row).isSome
  equivalent : ∀ row ∈ ontology.equivalentClassAxioms, (pairStruct.pack row).isSome
  subproperty : ∀ row ∈ ontology.subpropertyAxioms, (pairStruct.pack row).isSome
  ranges : ∀ row ∈ ontology.propertyRanges, (pairStruct.pack row).isSome
  features : ∀ count ∈ ontology.featureCounts, (u64Struct.pack count).isSome

/-- The fixed-width tables of a valid ontology can be written. -/
theorem Tables.Valid.packable {ontology : Tables} (valid : ontology.Valid) : ontology.Packable :=
  have reserved : U32_RESERVED < 256 ^ 4 := by decide
  { arguments := valid.representable.arguments
    counts := validateOccurrences_pack valid.occurrences
    chains := fun _ member property inChain => ((((valid.chain_properties member).2 property inChain).lt.trans_le
      (validateEntities_few valid.entities))).trans reserved
    groups := fun _ member expression inGroup => (((valid.disjoint_lt member).2 expression inGroup).trans_le
      (validateExpressions_few valid.expressions)).trans reserved
    subclass := validateSortedPairs_pack valid.subclass
    equivalent := validateSortedPairs_pack valid.equivalent
    subproperty := validateSortedPairs_pack valid.subproperty
    ranges := validateSortedPairs_pack valid.ranges
    features := fun count member =>
      Struct.uint_isSome.mpr (Nat.lt_of_le_of_lt (valid.features.2 count member) (by decide)) }

theorem pairTable_exists {rows : List (Nat × Nat)} (fits : ∀ row ∈ rows, (pairStruct.pack row).isSome) :
    ∃ bytes, pairStruct.packAll rows = some bytes ∧ bytes.length = rows.length * 8 := packAll_exists fits

theorem occurrenceTables_exist {expressionOccurrences propertyOccurrences : List Occurrence}
    (counts : ∀ counts ∈ expressionOccurrences ++ propertyOccurrences, (occurrenceStruct.pack counts).isSome) :
    ∃ bytes bytes', occurrenceStruct.packAll expressionOccurrences = some bytes ∧
      occurrenceStruct.packAll propertyOccurrences = some bytes' ∧ bytes.length = expressionOccurrences.length * 16 ∧
      bytes'.length = propertyOccurrences.length * 16 := by
  obtain ⟨bytes, packed, size⟩ := packAll_exists fun value member => counts value (List.mem_append_left _ member)
  obtain ⟨bytes', packed', size'⟩ := packAll_exists fun value member => counts value (List.mem_append_right _ member)
  exact ⟨bytes, bytes', packed, packed', size, size'⟩

/-- A table has at most one row for each of its bytes. -/
theorem count_le_of_table {count width length : Nat} (size : length = count * (width + 1)) : count ≤ length + 1 := by
  rw [size, Nat.mul_succ]
  omega

theorem count_le_of_offsets {count length : Nat} (size : length = (count + 1) * 8) : count ≤ length + 1 := by omega

/-- No section has many more records than bytes. -/
theorem count_lt_of_total {sections : List EncodedSection} {total : Nat}
    (counts : ∀ section_ ∈ sections, section_.count ≤ section_.payload.length + 1)
    (size : directoryEnd sections.length + (sections.flatMap EncodedSection.payload).length + CHECKSUM_SIZE = total)
    (fits : total ≤ maxsize) : ∀ section_ ∈ sections, section_.count < 256 ^ 8 := by
  intro section_ member
  have count := counts section_ member
  have part : section_.payload.length ≤ (sections.flatMap EncodedSection.payload).length := by
    obtain ⟨before, after, rfl⟩ := List.append_of_mem member
    simp only [List.flatMap_append, List.flatMap_cons, List.length_append]
    omega
  have checksum : CHECKSUM_SIZE = 32 := rfl
  have limit : maxsize < 256 ^ 8 := by decide
  omega

/-- An ontology of a size that memory can hold has sections, whose bytes add up to that size. -/
theorem ontologySections_exist {ontology : Tables} (packable : ontology.Packable)
    (size : ontology.encodedSize ≤ maxsize) :
    ∃ sections, ontologySections ontology = some sections ∧
      directoryEnd sections.length + (sections.flatMap EncodedSection.payload).length + CHECKSUM_SIZE =
        ontology.encodedSize ∧
      ∀ section_ ∈ sections, section_.count ≤ section_.payload.length + 1 := by
  have limit : maxsize < 256 ^ 8 := by decide
  have total := size
  simp only [Tables.encodedSize, csrSize] at total
  obtain ⟨entityKinds, iriOffsets, kinds, iris, kindSize, iriSize⟩ :=
    entityTable_exists
      (by omega : (ontology.entities.map fun record => encodeUtf8 record.iri).flatten.length < 256 ^ 8)
  obtain ⟨expressionTags, argumentOffsets, arguments, payloadOffsets, tags, argumentRows, payloads, tagSize,
    argumentSize, valueSize, payloadSize⟩ := expressionTable_exists packable.arguments (by omega) (by omega)
  obtain ⟨chainOffsets, chainValues, chains, chainSize, chainSize'⟩ := encodeCsr_exists packable.chains (by omega)
  obtain ⟨groupOffsets, groupValues, groups, groupSize, groupSize'⟩ := encodeCsr_exists packable.groups (by omega)
  obtain ⟨expressionOccurrences, propertyOccurrences, occurrences, occurrences', occurrenceSize, occurrenceSize'⟩ :=
    occurrenceTables_exist packable.counts
  obtain ⟨subclassAxioms, subclass, subclassSize⟩ := pairTable_exists packable.subclass
  obtain ⟨equivalentAxioms, equivalent, equivalentSize⟩ := pairTable_exists packable.equivalent
  obtain ⟨subpropertyAxioms, subproperty, subpropertySize⟩ := pairTable_exists packable.subproperty
  obtain ⟨propertyRanges, ranges, rangeSize⟩ := pairTable_exists packable.ranges
  obtain ⟨featureCounts, features, featureSize⟩ := packAll_exists packable.features
  rw [show u64Struct.size = 8 from rfl] at featureSize
  simp only [ontologySections, iris, argumentRows, payloads, chains, groups, kinds, tags, occurrences, occurrences',
    subclass, equivalent, subproperty, ranges, features, Option.bind_eq_bind, Option.bind_some, Option.pure_def,
    Option.some.injEq, exists_eq_left']
  clear packable kinds iris tags argumentRows payloads chains groups occurrences occurrences'
    subclass equivalent subproperty ranges features
  constructor
  · simp only [List.flatMap_cons, List.flatMap_nil, List.append_nil, List.length_append, List.length_cons,
      List.length_nil, Tables.encodedSize, csrSize, List.length_map, Nat.reduceAdd]
    omega
  · simp only [List.forall_mem_cons]
    exact ⟨kindSize.symm.le.trans (Nat.le_succ _), count_le_of_offsets iriSize, Nat.le_succ _,
      tagSize.symm.le.trans (Nat.le_succ _), count_le_of_offsets argumentSize, count_le_of_table valueSize,
      count_le_of_offsets payloadSize, Nat.le_succ _, count_le_of_table occurrenceSize,
      count_le_of_table occurrenceSize', count_le_of_offsets chainSize, count_le_of_table chainSize',
      count_le_of_table subclassSize, count_le_of_table equivalentSize, count_le_of_offsets groupSize,
      count_le_of_table groupSize', count_le_of_table subpropertySize, count_le_of_table rangeSize,
      count_le_of_table featureSize, Nat.le_add_left _ _, fun section_ member => absurd member List.not_mem_nil⟩

/-- A valid query of a size that memory can hold has sections, whose bytes add up to that size. -/
theorem querySections_exist {query : QueryTables} (valid : query.Valid) (size : query.encodedSize ≤ maxsize) :
    ∃ sections, querySections query = some sections ∧
      directoryEnd sections.length + (sections.flatMap EncodedSection.payload).length + CHECKSUM_SIZE =
        query.encodedSize ∧
      ∀ section_ ∈ sections, section_.count ≤ section_.payload.length + 1 := by
  have limit : maxsize < 256 ^ 8 := by decide
  have total := size
  simp only [QueryTables.encodedSize, csrSize] at total
  have idBounds : ∀ id ∈ query.entities.map (fun record => encodeReserved record.ontologyId),
    (u32Struct.pack id).isSome := by
    intro id member
    obtain ⟨record, found, rfl⟩ := List.mem_map.mp member
    refine Struct.uint_isSome.mpr (encodeReserved_lt fun entity same => ?_)
    exact valid.ontologyIds.2 entity (List.mem_filterMap.mpr ⟨record, found, same⟩)
  have rootBound : (u32Struct.pack (encodeReserved query.rootExpression)).isSome :=
    Struct.uint_isSome.mpr (encodeReserved_lt fun root same =>
      (valid.root_lt same).trans_le (validateExpressions_few valid.expressions))
  obtain ⟨entityKinds, iriOffsets, kinds, iris, kindSize, iriSize⟩ :=
    entityTable_exists
      (by omega : (query.entityRecords.map fun record => encodeUtf8 record.iri).flatten.length < 256 ^ 8)
  obtain ⟨expressionTags, argumentOffsets, arguments, payloadOffsets, tags, argumentRows, payloads, tagSize,
    argumentSize, valueSize, payloadSize⟩ :=
      expressionTable_exists valid.representable.arguments (by omega) (by omega)
  obtain ⟨expressionOccurrences, propertyOccurrences, occurrences, occurrences', occurrenceSize, occurrenceSize'⟩ :=
    occurrenceTables_exist (validateOccurrences_pack valid.occurrences)
  obtain ⟨subsumptionObligations, obligations, obligationSize⟩ :=
    pairTable_exists (validateSortedPairs_pack valid.obligations)
  obtain ⟨kind, kindByte⟩ : ∃ bytes, u8Struct.pack query.kind.code = some bytes :=
    Option.isSome_iff_exists.mp (Struct.uint_isSome.mpr query.kind.code_lt)
  obtain ⟨rootField, root⟩ := Option.isSome_iff_exists.mp rootBound
  obtain ⟨ontologyIds, ids, idSize⟩ := packAll_exists idBounds
  have kindLength : kind.length = 1 := u8Struct.size_of_pack kindByte
  have rootLength : rootField.length = 4 := u32Struct.size_of_pack root
  rw [show u32Struct.size = 4 from rfl, List.length_map] at idSize
  simp only [querySections, iris, argumentRows, payloads, kinds, tags, ids, occurrences, occurrences', kindByte, root,
    obligations, Option.bind_eq_bind, Option.bind_some, Option.pure_def, Option.some.injEq, exists_eq_left']
  clear idBounds rootBound kinds iris tags argumentRows payloads ids occurrences occurrences' kindByte
    root obligations
  constructor
  · simp only [List.flatMap_cons, List.flatMap_nil, List.append_nil, List.length_append, List.length_cons,
      List.length_nil, QueryTables.encodedSize, csrSize, List.length_map, Nat.reduceAdd]
    omega
  · simp only [List.forall_mem_cons]
    exact ⟨Nat.le_add_left _ _, kindSize.symm.le.trans (Nat.le_succ _), count_le_of_offsets iriSize, Nat.le_succ _,
      count_le_of_table idSize, tagSize.symm.le.trans (Nat.le_succ _), count_le_of_offsets argumentSize,
      count_le_of_table valueSize, count_le_of_offsets payloadSize, Nat.le_succ _, count_le_of_table occurrenceSize,
      count_le_of_table occurrenceSize', Nat.le_add_left _ _, count_le_of_table obligationSize,
      fun section_ member => absurd member List.not_mem_nil⟩

end PyElk
