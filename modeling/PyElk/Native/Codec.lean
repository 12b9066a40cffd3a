import PyElk.Indexing.Codec

namespace PyElk.Native

/-- The number of values of a `usize` on a 64-bit target. -/
def USIZE : Nat := 2 ^ 64

def HEADER_SIZE : Nat := 16
def DIRECTORY_ENTRY_SIZE : Nat := 26

def checkedAdd (first second : Nat) : Option Nat := if first + second < USIZE then some (first + second) else none

def checkedMul (first second : Nat) : Option Nat := if first * second < USIZE then some (first * second) else none

def usizeFromU64 (value : Nat) : Option Nat := if value < USIZE then some value else none

/-- `value as u32`. -/
def asU32 (value : Nat) : Nat := value % 2 ^ 32

/-- `read_array::<N>` and `from_le_bytes`. -/
def readUint (width : Nat) (data : List UInt8) (offset : Nat) : Option Nat := do
  let end_ ← checkedAdd offset width
  if end_ ≤ data.length then pure (Bytes.ofLittleEndian ((data.drop offset).take width)) else none

def readU16 : List UInt8 → Nat → Option Nat := readUint 2
def readU32 : List UInt8 → Nat → Option Nat := readUint 4
def readU64 : List UInt8 → Nat → Option Nat := readUint 8

/-- `count_as_usize`. -/
def countAsUsize (count payloadLen width : Nat) : Option Nat := do
  let value ← usizeFromU64 count
  let expected ← checkedMul value width
  if expected = payloadLen then pure value else none

/-- The section decoders: `width` bytes a record, each read at its offset. -/
def decodeRecords {α : Type} (width : Nat) (read : List UInt8 → Nat → Option α) (section_ : DecodedSection) :
    Option (List α) := do
  let count ← countAsUsize section_.count section_.payload.length width
  (List.range count).mapM fun index => read section_.payload (index * width)

def decodeU8 (section_ : DecodedSection) : Option (List Nat) := do
  let count ← countAsUsize section_.count section_.payload.length 1
  if section_.payload.length = count then pure (section_.payload.map UInt8.toNat) else none

def decodeU32 : DecodedSection → Option (List Nat) := decodeRecords 4 readU32

def decodeU64 : DecodedSection → Option (List Nat) := decodeRecords 8 readU64

def decodePairs : DecodedSection → Option (List (Nat × Nat)) :=
  decodeRecords 8 fun payload offset => do pure (← readU32 payload offset, ← readU32 payload (offset + 4))

def decodeOccurrences : DecodedSection → Option (List Occurrence) :=
  decodeRecords 16 fun payload offset => do pure ⟨← readU64 payload offset, ← readU64 payload (offset + 8)⟩

def decodeOffsets (section_ : DecodedSection) : Option (List Nat) := do
  let count ← usizeFromU64 section_.count
  let valueCount ← checkedAdd count 1
  let expected ← checkedMul valueCount 8
  if expected = section_.payload.length then
    let offsets ← (List.range valueCount).mapM fun index => do usizeFromU64 (← readU64 section_.payload (index * 8))
    if offsets.head? = some 0 ∧ offsets.IsChain (· ≤ ·) then pure offsets else none
  else none

def decodeCsr (offsets values : DecodedSection) : Option (List (List Nat)) := do
  let offsets ← decodeOffsets offsets
  let values ← decodeU32 values
  if offsets.getLast? = some values.length then pure (Csr.slices values offsets) else none

def decodeByteCsr (offsets values : DecodedSection) : Option (List (List UInt8)) := do
  let offsets ← decodeOffsets offsets
  let count ← usizeFromU64 values.count
  if count = values.payload.length ∧ offsets.getLast? = some values.payload.length then
    pure (Csr.slices values.payload offsets)
  else none

section

variable (required : List Nat) (data : List UInt8) (checksumStart : Nat)

/-- The loop over the directory entries of the given positions. -/
def readSections : List Nat → Option Nat → Nat → Option (List (Nat × DecodedSection) × Nat)
  | [], _, expectedOffset => some ([], expectedOffset)
  | index :: rest, previousTag, expectedOffset => do
    let entry := HEADER_SIZE + index * DIRECTORY_ENTRY_SIZE
    let tag ← readU16 data entry
    guard (∀ previous ∈ previousTag, previous < tag)
    let offset ← usizeFromU64 (← readU64 data (entry + 2))
    let length ← usizeFromU64 (← readU64 data (entry + 10))
    let count ← readU64 data (entry + 18)
    guard (offset = expectedOffset)
    let end_ ← checkedAdd offset length
    guard (end_ ≤ checksumStart)
    guard (tag ∈ required ∨ OPTIONAL_TAG_START ≤ tag)
    let (sections, finalOffset) ← readSections rest (some tag) end_
    if tag ∈ required then pure ((tag, ⟨count, (data.drop offset).take (end_ - offset)⟩) :: sections, finalOffset)
    else pure (sections, finalOffset)

end

def decodeContainer (data magic : List UInt8) (required : List Nat) : Option (List (Nat × DecodedSection)) := do
  guard (HEADER_SIZE + CHECKSUM_SIZE ≤ data.length)
  guard (data.take 8 = magic)
  let major ← readU16 data 8
  guard (major = SCHEMA_MAJOR)
  let sectionCount ← readU32 data 12
  guard (sectionCount ≤ MAX_SECTIONS)
  let directoryBytes ← checkedAdd (← checkedMul sectionCount DIRECTORY_ENTRY_SIZE) HEADER_SIZE
  let checksumStart := data.length - CHECKSUM_SIZE
  guard (directoryBytes ≤ checksumStart)
  guard (blake2b256 ((data.drop directoryBytes).take (checksumStart - directoryBytes)) = data.drop checksumStart)
  let (sections, finalOffset) ← readSections required data checksumStart (List.range sectionCount) none directoryBytes
  guard (finalOffset = checksumStart)
  guard (∀ tag ∈ required, (sections.lookup tag).isSome)
  pure sections

/-- One row of `decode_entities`. -/
def decodeEntity (row : Nat × List UInt8) : Option EntityRecord := do
  let iri ← decodeUtf8 row.2
  if iri ≠ "" then pure ⟨← EntityKind.ofCode? row.1, iri⟩ else none

def decodeEntities (sections : List (Nat × DecodedSection)) (kindsTag offsetsTag bytesTag : Nat) :
    Option (List EntityRecord) := do
  let kinds ← decodeU8 (← sections.lookup kindsTag)
  let iris ← decodeByteCsr (← sections.lookup offsetsTag) (← sections.lookup bytesTag)
  if kinds.length = iris.length then (kinds.zip iris).mapM decodeEntity else none

def validateEntities (entities : List EntityRecord) (predefined : Bool) : Bool :=
  checkSortedUnique EntityRecord.key entities &&
  (!predefined || predefinedEntities.all fun record => entities.contains record)

def validateEntityKind (value : Nat) (entities : List EntityRecord) (expected : EntityKind) : Bool :=
  match entities[value]? with
  | none => false
  | some entity => entity.kind == expected

def validateOneEntityArgument (expression : ExpressionRecord) (entities : List EntityRecord)
    (expected : EntityKind) : Bool :=
  decide (expression.arguments.length = 1) && validateEntityKind (expression.arguments.getD 0 0) entities expected

def validateDependencies (index : Nat) (dependencies : List Nat) : Bool :=
  dependencies.all fun value => decide (value < index)

def validateExpression (index : Nat) (expression : ExpressionRecord) (entities : List EntityRecord) : Bool :=
  match expression.tag with
  | .owlClass => validateOneEntityArgument expression entities .owlClass && expression.payload.isEmpty
  | .individual => validateOneEntityArgument expression entities .namedIndividual && expression.payload.isEmpty
  | .objectIntersectionOf =>
    decide (expression.arguments.length = 2) && validateDependencies index expression.arguments &&
      expression.payload.isEmpty
  | .objectSomeValuesFrom =>
    decide (expression.arguments.length = 2) &&
      validateEntityKind (expression.arguments.getD 0 0) entities .objectProperty &&
      validateDependencies index (expression.arguments.drop 1) && expression.payload.isEmpty
  | .objectHasSelf => validateOneEntityArgument expression entities .objectProperty && expression.payload.isEmpty
  | .dataHasValue => validateOneEntityArgument expression entities .dataProperty && !expression.payload.isEmpty
  | .objectComplementOf =>
    decide (expression.arguments.length = 1) && validateDependencies index expression.arguments &&
      expression.payload.isEmpty
  | .objectUnionOf =>
    decide (2 ≤ expression.arguments.length) && validateDependencies index expression.arguments &&
      expression.payload.isEmpty

/-- Each record, their uniqueness and the order of the pops. -/
def validateExpressions (expressions : List ExpressionRecord) (entities : List EntityRecord) : Bool :=
  expressions.zipIdx.all (fun row => validateExpression row.2 row.1 entities) && validateExpressionOrder expressions

/-- One row of `decode_expressions`. -/
def decodeExpression (row : Nat × List Nat × List UInt8) : Option ExpressionRecord := do
  pure ⟨← ExpressionTag.ofCode? row.1, row.2.1, row.2.2⟩

def decodeExpressions (sections : List (Nat × DecodedSection))
    (tagsTag argumentOffsetsTag argumentsTag payloadOffsetsTag payloadTag : Nat) (entities : List EntityRecord) :
    Option (List ExpressionRecord) := do
  let tags ← decodeU8 (← sections.lookup tagsTag)
  let arguments ← decodeCsr (← sections.lookup argumentOffsetsTag) (← sections.lookup argumentsTag)
  let payloads ← decodeByteCsr (← sections.lookup payloadOffsetsTag) (← sections.lookup payloadTag)
  if tags.length = arguments.length ∧ tags.length = payloads.length then
    let expressions ← (tags.zip (arguments.zip payloads)).mapM decodeExpression
    if validateExpressions expressions entities then pure expressions else none
  else none

/-- The positions of the source are cut down to `u32`. -/
def validateNamedExpressions (entities : List EntityRecord) (expressions : List ExpressionRecord) : Bool :=
  let expected := (namedEntities entities).map fun named => (named.1, asU32 named.2)
  let actual := namedExpressions expressions
  actual.all (fun named => expected.contains named) && expected.all (fun named => actual.contains named)

def validatePropertyChains (chains : List (List Nat)) (entities : List EntityRecord) : Bool :=
  chains.all (fun chain => !chain.isEmpty &&
    chain.all fun property => validateEntityKind property entities .objectProperty) &&
  checkSortedUnique id chains

def validatePairs (pairs : List (Nat × Nat)) (firstLimit secondLimit : Nat) : Bool :=
  checkSortedUnique (fun row => (toLex row : Nat ×ₗ Nat)) pairs &&
  pairs.all fun row => decide (row.1 < firstLimit) && decide (row.2 < secondLimit)

def validateDisjointGroups (groups : List (List Nat)) (expressionCount : Nat) : Bool :=
  checkSortedUnique id groups &&
  groups.all fun group => decide (2 ≤ group.length) && group.all fun expression =>
    decide (expression < expressionCount)

def objectPropertyCount (entities : List EntityRecord) : Nat :=
  entities.countP fun record => record.kind == .objectProperty

/-- `Ontology::decode`. -/
def decodeOntology (data : List UInt8) : Option Tables := do
  let sections ← decodeContainer data IR_MAGIC (List.range' 1 20)
  let entities ← decodeEntities sections 1 2 3
  guard (validateEntities entities true)
  let expressions ← decodeExpressions sections 4 5 6 7 8 entities
  guard (validateNamedExpressions entities expressions)
  let expressionOccurrences ← decodeOccurrences (← sections.lookup 9)
  let propertyOccurrences ← decodeOccurrences (← sections.lookup 10)
  guard (expressionOccurrences.length = expressions.length)
  guard (propertyOccurrences.length = objectPropertyCount entities)
  let propertyChains ← decodeCsr (← sections.lookup 11) (← sections.lookup 12)
  guard (validatePropertyChains propertyChains entities)
  let subclassAxioms ← decodePairs (← sections.lookup 13)
  guard (validatePairs subclassAxioms expressions.length expressions.length)
  let equivalentClassAxioms ← decodePairs (← sections.lookup 14)
  guard (validatePairs equivalentClassAxioms expressions.length expressions.length)
  let disjointGroups ← decodeCsr (← sections.lookup 15) (← sections.lookup 16)
  guard (validateDisjointGroups disjointGroups expressions.length)
  let subpropertyAxioms ← decodePairs (← sections.lookup 17)
  guard (validatePairs subpropertyAxioms propertyChains.length entities.length)
  guard (subpropertyAxioms.all fun row => validateEntityKind row.2 entities .objectProperty)
  let propertyRanges ← decodePairs (← sections.lookup 18)
  guard (validatePairs propertyRanges entities.length expressions.length)
  guard (propertyRanges.all fun row => validateEntityKind row.1 entities .objectProperty)
  let featureCounts ← decodeU64 (← sections.lookup 19)
  guard (featureCounts.length = FEATURE_VECTOR_LENGTH)
  let fingerprint ← sections.lookup 20
  guard (fingerprint.count = 1 ∧ fingerprint.payload.length = 32)
  pure { entities, expressions, expressionOccurrences, propertyOccurrences, propertyChains, subclassAxioms,
         equivalentClassAxioms, disjointGroups, subpropertyAxioms, propertyRanges, featureCounts
         sourceFingerprint := fingerprint.payload }

/-- `seen_ontology_ids`: an ID that was seen before is refused. -/
def collectOntologyIds : List Nat → List (EntityRecord × Nat) → Option (List QueryEntityRecord)
  | _, [] => some []
  | seen, (entity, value) :: rest => do
    let ontologyId := if value ≠ U32_RESERVED then some value else none
    guard (∀ identifier ∈ ontologyId, identifier ∉ seen)
    let others ← collectOntologyIds (ontologyId.toList ++ seen) rest
    pure (⟨entity, ontologyId⟩ :: others)

/-- `QueryIr::decode`. -/
def decodeQueryIr (data : List UInt8) : Option QueryTables := do
  let sections ← decodeContainer data QUERY_MAGIC (List.range' 1 14)
  let kind ← QueryIRKind.ofCode? (← onlyValue (← decodeU8 (← sections.lookup 1)))
  let entityValues ← decodeEntities sections 2 3 4
  guard (validateEntities entityValues false)
  let ontologyIds ← decodeU32 (← sections.lookup 5)
  guard (ontologyIds.length = entityValues.length)
  let entities ← collectOntologyIds [] (entityValues.zip ontologyIds)
  let plainEntities := entities.map QueryEntityRecord.entity
  let expressions ← decodeExpressions sections 6 7 8 9 10 plainEntities
  guard (validateNamedExpressions plainEntities expressions)
  let expressionOccurrences ← decodeOccurrences (← sections.lookup 11)
  guard (expressionOccurrences.length = expressions.length)
  let propertyOccurrences ← decodeOccurrences (← sections.lookup 12)
  guard (propertyOccurrences.length = objectPropertyCount plainEntities)
  let root ← onlyValue (← decodeU32 (← sections.lookup 13))
  let rootExpression := if root ≠ U32_RESERVED then some root else none
  guard (∀ root ∈ rootExpression, root < expressions.length)
  let subsumptionObligations ← decodePairs (← sections.lookup 14)
  guard (validatePairs subsumptionObligations expressions.length expressions.length)
  match kind with
  | .classExpression => guard (rootExpression.isSome ∧ subsumptionObligations.isEmpty)
  | .entailment => guard rootExpression.isNone
  pure { kind, entities, expressions, expressionOccurrences, propertyOccurrences, rootExpression,
         subsumptionObligations }

end PyElk.Native
