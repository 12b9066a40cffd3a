import PyElk.Indexing.Builder
import PyElk.Indexing.Container
import PyElk.Indexing.Query
import PyElk.Support.Csr

namespace PyElk

/-- Required v1 ontology section tags. -/
inductive OntologySection
  | entityKinds | entityIriOffsets | entityIriBytes
  | expressionTags | expressionArgumentOffsets | expressionArguments | expressionPayloadOffsets
  | expressionPayloadBytes | expressionOccurrences | propertyOccurrences
  | propertyChainOffsets | propertyChainValues | subclassAxioms | equivalentClassAxioms
  | disjointGroupOffsets | disjointGroupValues | subpropertyAxioms | propertyRanges
  | featureCounts | sourceFingerprint
  deriving DecidableEq, Repr

def OntologySection.tag : OntologySection → Nat
  | entityKinds => 1
  | entityIriOffsets => 2
  | entityIriBytes => 3
  | expressionTags => 4
  | expressionArgumentOffsets => 5
  | expressionArguments => 6
  | expressionPayloadOffsets => 7
  | expressionPayloadBytes => 8
  | expressionOccurrences => 9
  | propertyOccurrences => 10
  | propertyChainOffsets => 11
  | propertyChainValues => 12
  | subclassAxioms => 13
  | equivalentClassAxioms => 14
  | disjointGroupOffsets => 15
  | disjointGroupValues => 16
  | subpropertyAxioms => 17
  | propertyRanges => 18
  | featureCounts => 19
  | sourceFingerprint => 20

def OntologySection.tags : List Nat := List.range' 1 20

/-- Required v1 query mini-IR section tags. -/
inductive QuerySection
  | kind | entityKinds | entityIriOffsets | entityIriBytes | entityOntologyIds
  | expressionTags | expressionArgumentOffsets | expressionArguments | expressionPayloadOffsets
  | expressionPayloadBytes | expressionOccurrences | propertyOccurrences
  | rootExpression | subsumptionObligations
  deriving DecidableEq, Repr

def QuerySection.tag : QuerySection → Nat
  | kind => 1
  | entityKinds => 2
  | entityIriOffsets => 3
  | entityIriBytes => 4
  | entityOntologyIds => 5
  | expressionTags => 6
  | expressionArgumentOffsets => 7
  | expressionArguments => 8
  | expressionPayloadOffsets => 9
  | expressionPayloadBytes => 10
  | expressionOccurrences => 11
  | propertyOccurrences => 12
  | rootExpression => 13
  | subsumptionObligations => 14

def QuerySection.tags : List Nat := List.range' 1 14

/-- `EntityKind(value)`. -/
def EntityKind.ofCode? : Nat → Option EntityKind
  | 0 => some .owlClass
  | 1 => some .namedIndividual
  | 2 => some .objectProperty
  | 3 => some .dataProperty
  | 4 => some .datatype
  | 5 => some .annotationProperty
  | _ => none

/-- `ExpressionTag(value)`. -/
def ExpressionTag.ofCode? : Nat → Option ExpressionTag
  | 0 => some .owlClass
  | 1 => some .individual
  | 2 => some .objectIntersectionOf
  | 3 => some .objectSomeValuesFrom
  | 4 => some .objectHasSelf
  | 5 => some .dataHasValue
  | 6 => some .objectComplementOf
  | 7 => some .objectUnionOf
  | _ => none

def QueryIRKind.code : QueryIRKind → Nat
  | classExpression => 0
  | entailment => 1

/-- `QueryIRKind(value)`. -/
def QueryIRKind.ofCode? : Nat → Option QueryIRKind
  | 0 => some .classExpression
  | 1 => some .entailment
  | _ => none

theorem EntityKind.ofCode?_iff {value : Nat} {kind : EntityKind} : ofCode? value = some kind ↔ kind.code = value := by
  constructor
  · intro decoded
    unfold ofCode? at decoded
    split at decoded <;> cases decoded <;> rfl
  · rintro rfl
    cases kind <;> rfl

theorem ExpressionTag.ofCode?_iff {value : Nat} {tag : ExpressionTag} :
    ofCode? value = some tag ↔ tag.code = value := by
  constructor
  · intro decoded
    unfold ofCode? at decoded
    split at decoded <;> cases decoded <;> rfl
  · rintro rfl
    cases tag <;> rfl

theorem QueryIRKind.ofCode?_iff {value : Nat} {kind : QueryIRKind} :
    ofCode? value = some kind ↔ kind.code = value := by
  constructor
  · intro decoded
    unfold ofCode? at decoded
    split at decoded <;> cases decoded <;> rfl
  · rintro rfl
    cases kind <;> rfl

/-- `_U8`. -/
def u8Struct : Struct Nat := Struct.uint 1

/-- `_U32`. -/
def u32Struct : Struct Nat := Struct.uint 4

/-- `_U64`. -/
def u64Struct : Struct Nat := Struct.uint 8

/-- `_PAIR_U32`. -/
def pairStruct : Struct (Nat × Nat) := u32Struct.pair u32Struct

/-- `_OCCURRENCE`. -/
def occurrenceStruct : Struct Occurrence :=
  (u64Struct.pair u64Struct).map (fun fields => ⟨fields.1, fields.2⟩)
    (fun counts => (counts.negative, counts.positive))
    (fun _ => rfl) (fun _ => rfl)

def encodeUtf8 (iri : String) : List UInt8 := iri.toUTF8.data.toList

def decodeUtf8 (bytes : List UInt8) : Option String := String.fromUTF8? ⟨bytes.toArray⟩

/-- `_encode_csr`: the offsets, the values and their number. -/
def encodeCsr (rows : List (List Nat)) : Option (List UInt8 × List UInt8 × Nat) := do
  let offsets ← u64Struct.packAll (Csr.offsets 0 rows)
  let flattened ← u32Struct.packAll rows.flatten
  pure (offsets, flattened, rows.flatten.length)

def encodeByteCsr (rows : List (List UInt8)) : Option (List UInt8 × List UInt8) := do
  let offsets ← u64Struct.packAll (Csr.offsets 0 rows)
  pure (offsets, rows.flatten)

/-- `_unpack_fixed`, and `_unpack_pairs` and `_decode_occurrences` at their records. -/
def unpackFixed {α : Type} (section_ : DecodedSection) (item : Struct α) : Option (List α) :=
  if section_.count * item.size = section_.payload.length then some (item.unpackAll section_.count section_.payload)
  else none

def unpackOffsets (section_ : DecodedSection) : Option (List Nat) :=
  if (section_.count + 1) * u64Struct.size = section_.payload.length then
    let offsets := u64Struct.unpackAll (section_.count + 1) section_.payload
    if offsets.head? = some 0 ∧ offsets.IsChain (· ≤ ·) then some offsets else none
  else none

def decodeCsr (offsetsSection valuesSection : DecodedSection) : Option (List (List Nat)) := do
  let offsets ← unpackOffsets offsetsSection
  let values ← unpackFixed valuesSection u32Struct
  if offsets.getLast? = some values.length then pure (Csr.slices values offsets) else none

def decodeByteCsr (offsetsSection payloadSection : DecodedSection) : Option (List (List UInt8)) := do
  let offsets ← unpackOffsets offsetsSection
  if payloadSection.count = payloadSection.payload.length ∧ offsets.getLast? = some payloadSection.payload.length then
    pure (Csr.slices payloadSection.payload offsets)
  else none

/-- One entity record: its kind, its text and the checks of `EntityRecord.__post_init__`. -/
def decodeEntityRecord (row : Nat × List UInt8) : Option EntityRecord := do
  let kind ← EntityKind.ofCode? row.1
  let iri ← decodeUtf8 row.2
  if iri ≠ "" then pure ⟨kind, iri⟩ else none

def decodeEntityRecords (kindsSection offsetsSection bytesSection : DecodedSection) : Option (List EntityRecord) := do
  let kinds ← unpackFixed kindsSection u8Struct
  let iriBytes ← decodeByteCsr offsetsSection bytesSection
  if kinds.length = iriBytes.length then (kinds.zip iriBytes).mapM decodeEntityRecord else none

/-- One expression record, with the checks of `ExpressionRecord.__post_init__`. -/
def decodeExpressionRecord (row : Nat × List Nat × List UInt8) : Option ExpressionRecord := do
  let tag ← ExpressionTag.ofCode? row.1
  if row.2.1.all checkU32 then pure ⟨tag, row.2.1, row.2.2⟩ else none

def decodeExpressionRecords (tagsSection argumentOffsets arguments payloadOffsets payloadBytes : DecodedSection) :
    Option (List ExpressionRecord) := do
  let tags ← unpackFixed tagsSection u8Struct
  let argumentRows ← decodeCsr argumentOffsets arguments
  let payloadRows ← decodeByteCsr payloadOffsets payloadBytes
  if tags.length = argumentRows.length ∧ argumentRows.length = payloadRows.length then
    (tags.zip (argumentRows.zip payloadRows)).mapM decodeExpressionRecord
  else none

/-- The sections of `encode_ontology`. -/
def ontologySections (ontology : Tables) : Option (List EncodedSection) := do
  let (iriOffsets, iriBytes) ← encodeByteCsr (ontology.entities.map fun record => encodeUtf8 record.iri)
  let (argumentOffsets, arguments, argumentCount) ← encodeCsr (ontology.expressions.map ExpressionRecord.arguments)
  let (payloadOffsets, payloadBytes) ← encodeByteCsr (ontology.expressions.map ExpressionRecord.payload)
  let (chainOffsets, chainValues, chainValueCount) ← encodeCsr ontology.propertyChains
  let (disjointOffsets, disjointValues, disjointValueCount) ← encodeCsr ontology.disjointGroups
  let entityKinds ← u8Struct.packAll (ontology.entities.map fun record => record.kind.code)
  let expressionTags ← u8Struct.packAll (ontology.expressions.map fun record => record.tag.code)
  let expressionOccurrences ← occurrenceStruct.packAll ontology.expressionOccurrences
  let propertyOccurrences ← occurrenceStruct.packAll ontology.propertyOccurrences
  let subclassAxioms ← pairStruct.packAll ontology.subclassAxioms
  let equivalentClassAxioms ← pairStruct.packAll ontology.equivalentClassAxioms
  let subpropertyAxioms ← pairStruct.packAll ontology.subpropertyAxioms
  let propertyRanges ← pairStruct.packAll ontology.propertyRanges
  let featureCounts ← u64Struct.packAll ontology.featureCounts
  pure [
    ⟨OntologySection.entityKinds.tag, ontology.entities.length, entityKinds⟩,
    ⟨OntologySection.entityIriOffsets.tag, ontology.entities.length, iriOffsets⟩,
    ⟨OntologySection.entityIriBytes.tag, iriBytes.length, iriBytes⟩,
    ⟨OntologySection.expressionTags.tag, ontology.expressions.length, expressionTags⟩,
    ⟨OntologySection.expressionArgumentOffsets.tag, ontology.expressions.length, argumentOffsets⟩,
    ⟨OntologySection.expressionArguments.tag, argumentCount, arguments⟩,
    ⟨OntologySection.expressionPayloadOffsets.tag, ontology.expressions.length, payloadOffsets⟩,
    ⟨OntologySection.expressionPayloadBytes.tag, payloadBytes.length, payloadBytes⟩,
    ⟨OntologySection.expressionOccurrences.tag, ontology.expressionOccurrences.length, expressionOccurrences⟩,
    ⟨OntologySection.propertyOccurrences.tag, ontology.propertyOccurrences.length, propertyOccurrences⟩,
    ⟨OntologySection.propertyChainOffsets.tag, ontology.propertyChains.length, chainOffsets⟩,
    ⟨OntologySection.propertyChainValues.tag, chainValueCount, chainValues⟩,
    ⟨OntologySection.subclassAxioms.tag, ontology.subclassAxioms.length, subclassAxioms⟩,
    ⟨OntologySection.equivalentClassAxioms.tag, ontology.equivalentClassAxioms.length, equivalentClassAxioms⟩,
    ⟨OntologySection.disjointGroupOffsets.tag, ontology.disjointGroups.length, disjointOffsets⟩,
    ⟨OntologySection.disjointGroupValues.tag, disjointValueCount, disjointValues⟩,
    ⟨OntologySection.subpropertyAxioms.tag, ontology.subpropertyAxioms.length, subpropertyAxioms⟩,
    ⟨OntologySection.propertyRanges.tag, ontology.propertyRanges.length, propertyRanges⟩,
    ⟨OntologySection.featureCounts.tag, ontology.featureCounts.length, featureCounts⟩,
    ⟨OntologySection.sourceFingerprint.tag, 1, ontology.sourceFingerprint⟩]

def encodeTables (ontology : Tables) : Option (List UInt8) := do
  encodeContainer IR_MAGIC (← ontologySections ontology)

/-- `encode_ontology`. -/
def encodeOntology (ontology : CompiledOntology) : Option (List UInt8) := encodeTables ontology.toTables

/-- What `decode_ontology` hands to the validating constructor. -/
def readOntologySections (sections : List (Nat × DecodedSection)) : Option Tables := do
  let entities ← decodeEntityRecords (← sections.lookup OntologySection.entityKinds.tag)
    (← sections.lookup OntologySection.entityIriOffsets.tag) (← sections.lookup OntologySection.entityIriBytes.tag)
  let expressions ← decodeExpressionRecords (← sections.lookup OntologySection.expressionTags.tag)
    (← sections.lookup OntologySection.expressionArgumentOffsets.tag)
    (← sections.lookup OntologySection.expressionArguments.tag)
    (← sections.lookup OntologySection.expressionPayloadOffsets.tag)
    (← sections.lookup OntologySection.expressionPayloadBytes.tag)
  let fingerprintSection ← sections.lookup OntologySection.sourceFingerprint.tag
  if fingerprintSection.count = 1 then
    let expressionOccurrences ←
      unpackFixed (← sections.lookup OntologySection.expressionOccurrences.tag) occurrenceStruct
    let propertyOccurrences ←
      unpackFixed (← sections.lookup OntologySection.propertyOccurrences.tag) occurrenceStruct
    let propertyChains ← decodeCsr (← sections.lookup OntologySection.propertyChainOffsets.tag)
      (← sections.lookup OntologySection.propertyChainValues.tag)
    let subclassAxioms ← unpackFixed (← sections.lookup OntologySection.subclassAxioms.tag) pairStruct
    let equivalentClassAxioms ← unpackFixed (← sections.lookup OntologySection.equivalentClassAxioms.tag) pairStruct
    let disjointGroups ← decodeCsr (← sections.lookup OntologySection.disjointGroupOffsets.tag)
      (← sections.lookup OntologySection.disjointGroupValues.tag)
    let subpropertyAxioms ← unpackFixed (← sections.lookup OntologySection.subpropertyAxioms.tag) pairStruct
    let propertyRanges ← unpackFixed (← sections.lookup OntologySection.propertyRanges.tag) pairStruct
    let featureCounts ← unpackFixed (← sections.lookup OntologySection.featureCounts.tag) u64Struct
    pure { entities, expressions, expressionOccurrences, propertyOccurrences, propertyChains, subclassAxioms,
           equivalentClassAxioms, disjointGroups, subpropertyAxioms, propertyRanges, featureCounts
           sourceFingerprint := fingerprintSection.payload }
  else none

def readOntology (data : List UInt8) : Option Tables := do
  readOntologySections (← decodeContainer data IR_MAGIC OntologySection.tags OntologySection.tags)

/-- `decode_ontology`. -/
def decodeOntology (data : List UInt8) : Option CompiledOntology := (readOntology data).bind Tables.check

def encodeReserved (entity : Option Nat) : Nat := entity.getD U32_RESERVED

def decodeReserved (value : Nat) : Option Nat := if value = U32_RESERVED then none else some value

/-- The sections of `encode_query_ir`. -/
def querySections (query : QueryTables) : Option (List EncodedSection) := do
  let (iriOffsets, iriBytes) ← encodeByteCsr (query.entityRecords.map fun record => encodeUtf8 record.iri)
  let (argumentOffsets, arguments, argumentCount) ← encodeCsr (query.expressions.map ExpressionRecord.arguments)
  let (payloadOffsets, payloadBytes) ← encodeByteCsr (query.expressions.map ExpressionRecord.payload)
  let kind ← u8Struct.pack query.kind.code
  let entityKinds ← u8Struct.packAll (query.entityRecords.map fun record => record.kind.code)
  let ontologyIds ← u32Struct.packAll (query.entities.map fun record => encodeReserved record.ontologyId)
  let expressionTags ← u8Struct.packAll (query.expressions.map fun record => record.tag.code)
  let expressionOccurrences ← occurrenceStruct.packAll query.expressionOccurrences
  let propertyOccurrences ← occurrenceStruct.packAll query.propertyOccurrences
  let root ← u32Struct.pack (encodeReserved query.rootExpression)
  let subsumptionObligations ← pairStruct.packAll query.subsumptionObligations
  pure [
    ⟨QuerySection.kind.tag, 1, kind⟩,
    ⟨QuerySection.entityKinds.tag, query.entityRecords.length, entityKinds⟩,
    ⟨QuerySection.entityIriOffsets.tag, query.entityRecords.length, iriOffsets⟩,
    ⟨QuerySection.entityIriBytes.tag, iriBytes.length, iriBytes⟩,
    ⟨QuerySection.entityOntologyIds.tag, query.entities.length, ontologyIds⟩,
    ⟨QuerySection.expressionTags.tag, query.expressions.length, expressionTags⟩,
    ⟨QuerySection.expressionArgumentOffsets.tag, query.expressions.length, argumentOffsets⟩,
    ⟨QuerySection.expressionArguments.tag, argumentCount, arguments⟩,
    ⟨QuerySection.expressionPayloadOffsets.tag, query.expressions.length, payloadOffsets⟩,
    ⟨QuerySection.expressionPayloadBytes.tag, payloadBytes.length, payloadBytes⟩,
    ⟨QuerySection.expressionOccurrences.tag, query.expressionOccurrences.length, expressionOccurrences⟩,
    ⟨QuerySection.propertyOccurrences.tag, query.propertyOccurrences.length, propertyOccurrences⟩,
    ⟨QuerySection.rootExpression.tag, 1, root⟩,
    ⟨QuerySection.subsumptionObligations.tag, query.subsumptionObligations.length, subsumptionObligations⟩]

def encodeQueryTables (query : QueryTables) : Option (List UInt8) := do
  encodeContainer QUERY_MAGIC (← querySections query)

/-- `encode_query_ir`. -/
def encodeQueryIr (query : QueryIR) : Option (List UInt8) := encodeQueryTables query.toQueryTables

/-- The value of a section that must hold exactly one. -/
def onlyValue : List Nat → Option Nat
  | [value] => some value
  | _ => none

/-- What `decode_query_ir` hands to the validating constructor. -/
def readQuerySections (sections : List (Nat × DecodedSection)) : Option QueryTables := do
  let kind ← QueryIRKind.ofCode? (← onlyValue (← unpackFixed (← sections.lookup QuerySection.kind.tag) u8Struct))
  let entityRecords ← decodeEntityRecords (← sections.lookup QuerySection.entityKinds.tag)
    (← sections.lookup QuerySection.entityIriOffsets.tag) (← sections.lookup QuerySection.entityIriBytes.tag)
  let ontologyIds ← unpackFixed (← sections.lookup QuerySection.entityOntologyIds.tag) u32Struct
  if entityRecords.length = ontologyIds.length then
    let expressions ← decodeExpressionRecords (← sections.lookup QuerySection.expressionTags.tag)
      (← sections.lookup QuerySection.expressionArgumentOffsets.tag)
      (← sections.lookup QuerySection.expressionArguments.tag)
      (← sections.lookup QuerySection.expressionPayloadOffsets.tag)
      (← sections.lookup QuerySection.expressionPayloadBytes.tag)
    let rootValue ← onlyValue (← unpackFixed (← sections.lookup QuerySection.rootExpression.tag) u32Struct)
    let expressionOccurrences ← unpackFixed
      (← sections.lookup QuerySection.expressionOccurrences.tag) occurrenceStruct
    let propertyOccurrences ← unpackFixed (← sections.lookup QuerySection.propertyOccurrences.tag) occurrenceStruct
    let subsumptionObligations ← unpackFixed (← sections.lookup QuerySection.subsumptionObligations.tag) pairStruct
    pure { kind, expressions, expressionOccurrences, propertyOccurrences, subsumptionObligations
           entities := (entityRecords.zip ontologyIds).map fun row => ⟨row.1, decodeReserved row.2⟩
           rootExpression := decodeReserved rootValue }
  else none

def readQuery (data : List UInt8) : Option QueryTables := do
  readQuerySections (← decodeContainer data QUERY_MAGIC QuerySection.tags QuerySection.tags)

/-- The validating constructor. -/
def QueryTables.check (query : QueryTables) : Option QueryIR :=
  if valid : query.Valid then some ⟨query, valid⟩ else none

/-- `decode_query_ir`. -/
def decodeQueryIr (data : List UInt8) : Option QueryIR := (readQuery data).bind QueryTables.check

end PyElk
