import PyElk.Native.SectionAgreement

open Ordered

namespace PyElk

structure QueryTables.IdsFit (tables : QueryTables) : Prop where
  entities : tables.entityRecords.length ≤ U32_RESERVED
  expressions : tables.expressions.length ≤ U32_RESERVED

theorem Struct.fits_of_packAll {α : Type} {item : Struct α} {values : List α} {bytes : List UInt8}
    (packed : item.packAll values = some bytes) : ∀ value ∈ values, (item.pack value).isSome := by
  induction values generalizing bytes with
  | nil => exact fun value member => absurd member List.not_mem_nil
  | cons first rest ih =>
    obtain ⟨head, tail, packedFirst, packedRest, -⟩ := Struct.packAll_cons.mp packed
    exact List.forall_mem_cons.mpr ⟨Option.isSome_iff_exists.mpr ⟨head, packedFirst⟩, ih packedRest⟩

theorem mem_of_lookup {sections : List (Nat × DecodedSection)} {tag : Nat} {section_ : DecodedSection}
    (found : sections.lookup tag = some section_) : ∃ item ∈ sections, item.2 = section_ := by
  induction sections with
  | nil => cases found
  | cons item rest ih =>
    obtain ⟨first, value⟩ := item
    rw [List.lookup_cons] at found
    split at found
    · cases found
      exact ⟨_, List.mem_cons_self, rfl⟩
    · obtain ⟨other, member, same⟩ := ih found
      exact ⟨other, List.mem_cons_of_mem _ member, same⟩

/-- What a container of exactly the required sections gives, optional ones left out. -/
theorem decodeContainer_tags {raw magic : List UInt8} {count : Nat} {sections : List (Nat × DecodedSection)}
    (decoded : decodeContainer raw magic (List.range' 1 count) (List.range' 1 count) = some sections) :
    sections.map Prod.fst = List.range' 1 count ∧
      ∀ tag section_, sections.lookup tag = some section_ → section_.payload.length ≤ raw.length := by
  unfold decodeContainer at decoded
  dsimp only at decoded
  rw [Option.ite_none_right_eq_some] at decoded
  obtain ⟨⟨read, finalOffset⟩, readAll, kept⟩ := Option.bind_eq_some_iff.mp decoded.2
  rw [Option.ite_none_right_eq_some] at kept
  obtain ⟨⟨-, complete⟩, same⟩ := kept
  cases same
  obtain ⟨ordered, inside⟩ := readDirectory_ordered readAll
  refine ⟨eq_of_strict ordered List.pairwise_lt_range' fun tag => ⟨fun member => ?_, fun listed =>
    lookup_isSome_iff.mp (complete tag listed)⟩, fun tag section_ found => ?_⟩
  · obtain ⟨item, present, rfl⟩ := List.mem_map.mp member
    exact (inside item present).1
  · obtain ⟨item, member, rfl⟩ := mem_of_lookup found
    exact (inside item member).2.1

/-- The tables that a payload holds, whether or not they pass the validation. -/
def Tables.StoredIn (tables : Tables) (data : List UInt8) : Prop :=
  ∃ sections, decodeContainer data IR_MAGIC OntologySection.tags OntologySection.tags = some sections ∧
    tables.ReadFrom (sectionAt sections)

def QueryTables.StoredIn (tables : QueryTables) (data : List UInt8) : Prop :=
  ∃ sections, decodeContainer data QUERY_MAGIC QuerySection.tags QuerySection.tags = some sections ∧
    tables.ReadFrom (sectionAt sections)

/-- The Python decoder accepts exactly the payloads of the valid ontologies. -/
theorem decodeOntology_iff {data : List UInt8} {ontology : CompiledOntology} :
    decodeOntology data = some ontology ↔ ontology.toTables.StoredIn data := by
  constructor
  · intro decoded
    obtain ⟨tables, read, checked⟩ := Option.bind_eq_some_iff.mp decoded
    cases Tables.check_eq_some_iff.mp checked
    obtain ⟨sections, container, read⟩ := Option.bind_eq_some_iff.mp read
    exact ⟨sections, container, ((readOntologySections_iff (decodeContainer_tags container).1).mp read).1⟩
  · rintro ⟨sections, container, stored⟩
    have read := (readOntologySections_iff (decodeContainer_tags container).1).mpr
      ⟨stored, ontology.valid.representable.arguments⟩
    rw [decodeOntology, readOntology, container]
    exact Option.bind_eq_some_iff.mpr ⟨_, read, Tables.check_eq_some_iff.mpr rfl⟩

/-- The Python decoder accepts exactly the payloads of the valid queries. -/
theorem decodeQueryIr_iff {data : List UInt8} {query : QueryIR} :
    decodeQueryIr data = some query ↔ query.toQueryTables.StoredIn data := by
  constructor
  · intro decoded
    obtain ⟨tables, read, checked⟩ := Option.bind_eq_some_iff.mp decoded
    cases QueryTables.check_eq_some_iff.mp checked
    obtain ⟨sections, container, read⟩ := Option.bind_eq_some_iff.mp read
    exact ⟨sections, container, ((readQuerySections_iff (decodeContainer_tags container).1).mp read).1⟩
  · rintro ⟨sections, container, stored⟩
    have read := (readQuerySections_iff (decodeContainer_tags container).1).mpr
      ⟨stored, query.valid.representable.arguments⟩
    rw [decodeQueryIr, readQuery, container]
    exact Option.bind_eq_some_iff.mpr ⟨_, read, QueryTables.check_eq_some_iff.mpr rfl⟩

namespace Native

/-! What the two validators have in common, and what only one of them checks. -/

theorem validateEntityKind_eq (value : Nat) (entities : List EntityRecord) (expected : EntityKind) :
    validateEntityKind value entities expected = validateEntityIndex entities value expected := by
  unfold validateEntityKind validateEntityIndex
  cases entities[value]? <;> rfl

/-- The Python check of the entities is the native one, with a bound on their number. -/
theorem validateEntities_iff {entities : List EntityRecord} {predefined : Bool} :
    PyElk.validateEntities entities predefined ↔
      (∀ record ∈ entities, record.iri ≠ "") ∧ entities.length ≤ U32_RESERVED ∧
        validateEntities entities predefined := by
  unfold PyElk.validateEntities validateEntities
  simp only [Bool.and_eq_true, List.all_eq_true, decide_eq_true_eq, bne_iff_ne]
  tauto

theorem validateExpression_eq (index : Nat) (expression : ExpressionRecord) (entities : List EntityRecord) :
    validateExpression index expression entities = PyElk.validateExpression entities index expression := by
  obtain ⟨tag, arguments, payload⟩ := expression
  unfold validateExpression PyElk.validateExpression validateOneEntityArgument validateDependencies
  simp only [validateEntityKind_eq]
  match arguments with
  | [] => cases tag <;> rfl
  | [first] => cases tag <;> simp
  | [first, second] => cases tag <;> simp [Bool.and_assoc]
  | first :: second :: third :: rest => cases tag <;> simp

/-- The Python check of the expressions is the native one, with a bound on their number. -/
theorem validateExpressions_iff {expressions : List ExpressionRecord} {entities : List EntityRecord} :
    PyElk.validateExpressions expressions entities ↔
      expressions.length ≤ U32_RESERVED ∧ validateExpressions expressions entities := by
  unfold PyElk.validateExpressions validateExpressions
  simp only [Bool.and_eq_true, decide_eq_true_eq, validateExpression_eq, and_assoc]

/-- Without truncation the two checks of the named expressions are one. -/
theorem validateNamedExpressions_eq {expressions : List ExpressionRecord} {entities : List EntityRecord}
    (few : entities.length ≤ U32_RESERVED) :
    validateNamedExpressions entities expressions = validateNamedEntityExpressions expressions entities := by
  have kept : (namedEntities entities).map (fun named => (named.1, asU32 named.2)) = namedEntities entities := by
    refine (List.map_congr_left fun named member => ?_).trans (List.map_id _)
    obtain ⟨⟨record, index⟩, row, found⟩ := List.mem_filterMap.mp member
    have bound := (List.getElem?_eq_some_iff.mp (List.mem_zipIdx_iff_getElem?.mp row)).1
    have small : index % 2 ^ 32 = index := Nat.mod_eq_of_lt (lt_of_lt_of_le bound (few.trans (by decide)))
    obtain ⟨kind, iri⟩ := record
    cases kind <;> cases found <;> simp only [asU32, small, id_eq]
  unfold validateNamedExpressions validateNamedEntityExpressions
  rw [kept]

/-- Both check the property chains alike. -/
theorem validatePropertyChains_eq (chains : List (List Nat)) (entities : List EntityRecord) :
    validatePropertyChains chains entities = PyElk.validatePropertyChains chains entities := by
  unfold validatePropertyChains PyElk.validatePropertyChains
  simp only [validateEntityKind_eq]

/-- The Python check of a table of pairs is the native one, with no reserved ID in it. -/
theorem validatePairs_iff {rows : List (Nat × Nat)} {firstLimit secondLimit : Nat} :
    validateSortedPairs rows firstLimit secondLimit ↔
      (∀ row ∈ rows, row.1 < U32_RESERVED ∧ row.2 < U32_RESERVED) ∧ validatePairs rows firstLimit secondLimit := by
  unfold validateSortedPairs validatePairs
  simp only [Bool.and_eq_true, List.all_eq_true, decide_eq_true_eq, checkU32_iff]
  constructor
  · rintro ⟨bounds, sorted⟩
    exact ⟨fun row member => (bounds row member).1.1, sorted, fun row member =>
      ⟨(bounds row member).1.2, (bounds row member).2⟩⟩
  · rintro ⟨small, sorted, bounds⟩
    exact ⟨fun row member => ⟨⟨small row member, (bounds row member).1⟩, (bounds row member).2⟩, sorted⟩

theorem validatePairs_lt {rows : List (Nat × Nat)} {firstLimit secondLimit : Nat}
    (checked : validatePairs rows firstLimit secondLimit) {row : Nat × Nat} (member : row ∈ rows) :
    row.1 < firstLimit ∧ row.2 < secondLimit := by
  unfold validatePairs at checked
  simp only [Bool.and_eq_true, List.all_eq_true, decide_eq_true_eq] at checked
  exact checked.2 row member

/-- Both check the disjointness groups alike. -/
theorem validateDisjointGroups_eq (groups : List (List Nat)) (expressionCount : Nat) :
    validateDisjointGroups groups expressionCount = PyElk.validateDisjointGroups groups expressionCount := by
  unfold validateDisjointGroups PyElk.validateDisjointGroups
  rw [Bool.and_comm]

theorem validateOccurrences_iff {expressionOccurrences propertyOccurrences : List Occurrence}
    {expressions : List ExpressionRecord} {entities : List EntityRecord} :
    validateOccurrences expressionOccurrences propertyOccurrences expressions entities ↔
      expressionOccurrences.length = expressions.length ∧ propertyOccurrences.length = objectPropertyCount entities ∧
        ∀ counts ∈ expressionOccurrences ++ propertyOccurrences, counts.negative ≤ U64_MAX ∧
          counts.positive ≤ U64_MAX := by
  unfold validateOccurrences objectPropertyCount
  simp only [Bool.and_eq_true, List.all_eq_true, decide_eq_true_eq, and_assoc]

/-- Counters that were read from 64-bit fields. -/
theorem occurrences_le {section_ : DecodedSection} {values : List Occurrence}
    (read : unpackFixed section_ occurrenceStruct = some values) :
    ∀ counts ∈ values, counts.negative ≤ U64_MAX ∧ counts.positive ≤ U64_MAX := by
  intro counts member
  obtain ⟨bytes, packed⟩ :=
    Option.isSome_iff_exists.mp (Struct.fits_of_packAll (unpackFixed_iff.mp read).1 counts member)
  obtain ⟨negative, packedNegative, after⟩ := Option.bind_eq_some_iff.mp packed
  obtain ⟨positive, packedPositive, -⟩ := Option.bind_eq_some_iff.mp after
  have limit : 256 ^ 8 = U64_MAX + 1 := rfl
  have left := Struct.uint_isSome.mp (Option.isSome_iff_exists.mpr ⟨_, packedNegative⟩)
  have right := Struct.uint_isSome.mp (Option.isSome_iff_exists.mpr ⟨_, packedPositive⟩)
  exact ⟨Nat.le_of_lt_succ (left.trans_eq limit), Nat.le_of_lt_succ (right.trans_eq limit)⟩

theorem features_le {section_ : DecodedSection} {values : List Nat}
    (read : unpackFixed section_ u64Struct = some values) :
    ∀ count ∈ values, count ≤ U64_MAX := by
  intro count member
  have limit : 256 ^ 8 = U64_MAX + 1 := rfl
  have fits := Struct.uint_isSome.mp (Struct.fits_of_packAll (unpackFixed_iff.mp read).1 count member)
  exact Nat.le_of_lt_succ (fits.trans_eq limit)

/-- What the decoder reads of the expression sections. -/
theorem decodeExpressions_iff {sections : List (Nat × DecodedSection)}
    {tagsTag argumentOffsetsTag argumentsTag payloadOffsetsTag payloadTag : Nat}
    {tags argumentOffsets arguments payloadOffsets payloads : DecodedSection} {entities : List EntityRecord}
    {expressions : List ExpressionRecord} (tagsAt : sections.lookup tagsTag = some tags)
    (argumentOffsetsAt : sections.lookup argumentOffsetsTag = some argumentOffsets)
    (argumentsAt : sections.lookup argumentsTag = some arguments)
    (payloadOffsetsAt : sections.lookup payloadOffsetsTag = some payloadOffsets)
    (payloadsAt : sections.lookup payloadTag = some payloads)
    (small : ∀ tag section_, sections.lookup tag = some section_ → section_.payload.length ≤ maxsize) :
    decodeExpressions sections tagsTag argumentOffsetsTag argumentsTag payloadOffsetsTag payloadTag entities =
        some expressions ↔
      ExpressionsStored expressions tags argumentOffsets arguments payloadOffsets payloads ∧
        validateExpressions expressions entities := by
  have single : ∀ (row : Nat × List Nat × List UInt8) (record : ExpressionRecord),
      decodeExpression row = some record ↔ row = (record.tag.code, record.arguments, record.payload) ∧ True := by
    rintro ⟨value, row, payload⟩ ⟨tag, arguments, bytes⟩
    unfold decodeExpression
    constructor
    · intro decoded
      obtain ⟨found, known, last⟩ := Option.bind_eq_some_iff.mp decoded
      cases last
      rw [ExpressionTag.ofCode?_iff.mp known]
      exact ⟨rfl, trivial⟩
    · rintro ⟨same, -⟩
      cases same
      rw [ExpressionTag.ofCode?_iff.mpr rfl]
      rfl
  simp only [decodeExpressions, tagsAt, argumentOffsetsAt, argumentsAt, payloadOffsetsAt, payloadsAt,
    Option.bind_eq_bind, Option.bind_some, decodeU8_eq (small _ _ tagsAt),
    decodeCsr_eq (small _ _ argumentOffsetsAt) (small _ _ argumentsAt),
    decodeByteCsr_eq (small _ _ payloadOffsetsAt) (small _ _ payloadsAt)]
  constructor
  · intro decoded
    obtain ⟨tagValues, readTags, decoded⟩ := Option.bind_eq_some_iff.mp decoded
    obtain ⟨rows, readRows, decoded⟩ := Option.bind_eq_some_iff.mp decoded
    obtain ⟨bytes, readBytes, decoded⟩ := Option.bind_eq_some_iff.mp decoded
    rw [Option.ite_none_right_eq_some] at decoded
    obtain ⟨⟨size, size'⟩, decoded⟩ := decoded
    obtain ⟨records, decodedRows, checked⟩ := Option.bind_eq_some_iff.mp decoded
    rw [Option.ite_none_right_eq_some] at checked
    obtain ⟨valid, same⟩ := checked
    cases same
    have rows' := (expressionRows_iff single).mp
      ⟨tagValues, rows, bytes, readTags, readRows, readBytes, ⟨size, size.symm.trans size'⟩, decodedRows⟩
    exact ⟨rows'.1, valid⟩
  · rintro ⟨stored, valid⟩
    obtain ⟨tagValues, rows, bytes, readTags, readRows, readBytes, ⟨size, size'⟩, decodedRows⟩ :=
      (expressionRows_iff single).mpr ⟨stored, fun _ _ => trivial⟩
    simp only [readTags, readRows, readBytes, Option.bind_some,
      if_pos (And.intro size (size.trans size')), decodedRows,
      if_pos valid, Option.pure_def]

/-- The checks that `Ontology::decode` makes on the tables. -/
structure Accepted (tables : Tables) : Prop where
  entities : validateEntities tables.entities true
  expressions : validateExpressions tables.expressions tables.entities
  named : validateNamedExpressions tables.entities tables.expressions
  expressionOccurrences : tables.expressionOccurrences.length = tables.expressions.length
  propertyOccurrences : tables.propertyOccurrences.length = objectPropertyCount tables.entities
  chains : validatePropertyChains tables.propertyChains tables.entities
  subclass : validatePairs tables.subclassAxioms tables.expressions.length tables.expressions.length
  equivalent : validatePairs tables.equivalentClassAxioms tables.expressions.length tables.expressions.length
  disjoint : validateDisjointGroups tables.disjointGroups tables.expressions.length
  subproperty : validatePairs tables.subpropertyAxioms tables.propertyChains.length tables.entities.length
  superProperty : tables.subpropertyAxioms.all fun row => validateEntityKind row.2 tables.entities .objectProperty
  ranges : validatePairs tables.propertyRanges tables.entities.length tables.expressions.length
  rangeProperty : tables.propertyRanges.all fun row => validateEntityKind row.1 tables.entities .objectProperty
  features : tables.featureCounts.length = FEATURE_VECTOR_LENGTH
  fingerprint : tables.sourceFingerprint.length = FINGERPRINT_SIZE

/-- What a container of the tags 1 to `count` opens to: every tag has its section, none longer than an address. -/
structure OpenedSections (sections : List (Nat × DecodedSection)) (count : Nat) : Prop where
  found : ∀ tag, 1 ≤ tag → tag ≤ count → sections.lookup tag = some (sectionAt sections tag)
  limit : ∀ tag section_, sections.lookup tag = some section_ → section_.payload.length ≤ maxsize

/-- A container that is opened has its sections in the order of their tags. -/
theorem OpenedSections.of_container {data magic : List UInt8} {sections : List (Nat × DecodedSection)} {count : Nat}
    (small : data.length ≤ maxsize)
    (container : PyElk.decodeContainer data magic (List.range' 1 count) (List.range' 1 count) = some sections) :
    OpenedSections sections count := by
  obtain ⟨tags, inside⟩ := decodeContainer_tags container
  exact ⟨lookup_sectionAt tags, fun tag section_ present => (inside tag section_ present).trans small⟩

/-! A decoder that reads an opened container is taken apart at its head: a section is looked up, read, or checked. -/

section

variable {α β : Type} {sections : List (Nat × DecodedSection)} {count tag : Nat} {result : β}

theorem step_iff {γ : Type} (read : γ → Option α) {input : γ} {next : α → Option β} :
    (read input >>= next) = some result ↔ ∃ value, read input = some value ∧ next value = some result :=
  Option.bind_eq_some_iff

theorem check_iff {p : Prop} [Decidable p] {next : Unit → Option β} :
    ((guard p : Option Unit) >>= next) = some result ↔ p ∧ next () = some result :=
  guard_bind_eq_some

variable (opened : OpenedSections sections count)

include opened

theorem OpenedSections.short (first : 1 ≤ tag) (last : tag ≤ count) :
    (sectionAt sections tag).payload.length ≤ maxsize :=
  opened.limit tag _ (opened.found tag first last)

theorem OpenedSections.section_iff (first : 1 ≤ tag) (last : tag ≤ count) {next : DecodedSection → Option β} :
    (sections.lookup tag >>= next) = some result ↔ next (sectionAt sections tag) = some result := by
  rw [opened.found tag first last]
  rfl

/-- One section is read as the other decoder reads it. -/
theorem OpenedSections.read_iff {read shared : DecodedSection → Option α}
    (agrees : ∀ {section_ : DecodedSection}, section_.payload.length ≤ maxsize → read section_ = shared section_)
    (first : 1 ≤ tag) (last : tag ≤ count) {next : α → Option β} :
    (read (sectionAt sections tag) >>= next) = some result ↔
      ∃ value, shared (sectionAt sections tag) = some value ∧ next value = some result := by
  rw [agrees (opened.short first last)]
  exact Option.bind_eq_some_iff

/-- The rows of a table with variable lengths lie in two sections. -/
theorem OpenedSections.csr_iff {other : Nat} (first : 1 ≤ tag) (last : tag ≤ count) (first' : 1 ≤ other)
    (last' : other ≤ count)
    {next : List (List Nat) → Option β} :
    (decodeCsr (sectionAt sections tag) (sectionAt sections other) >>= next) = some result ↔
      ∃ rows, PyElk.decodeCsr (sectionAt sections tag) (sectionAt sections other) = some rows ∧
        next rows = some result := by
  rw [decodeCsr_eq (opened.short first last) (opened.short first' last')]
  exact Option.bind_eq_some_iff

/-- The entity records lie in three sections side by side. -/
theorem OpenedSections.entities_iff (first : 1 ≤ tag) (last : tag + 2 ≤ count) {next : List EntityRecord → Option β} :
    (decodeEntities sections tag (tag + 1) (tag + 2) >>= next) = some result ↔
      ∃ entities, decodeEntityRecords (sectionAt sections tag) (sectionAt sections (tag + 1))
        (sectionAt sections (tag + 2)) = some entities ∧ next entities = some result := by
  rw [decodeEntities_eq (opened.found _ first (by omega)) (opened.found _ (by omega) (by omega))
    (opened.found _ (by omega) (by omega)) opened.limit]
  exact Option.bind_eq_some_iff

/-- The expression records lie in five sections side by side, and are checked as they are read. -/
theorem OpenedSections.expressions_iff (first : 1 ≤ tag) (last : tag + 4 ≤ count) {entities : List EntityRecord}
    {next : List ExpressionRecord → Option β} :
    (decodeExpressions sections tag (tag + 1) (tag + 2) (tag + 3) (tag + 4) entities >>= next) = some result ↔
      ∃ expressions, (ExpressionsStored expressions (sectionAt sections tag) (sectionAt sections (tag + 1))
          (sectionAt sections (tag + 2)) (sectionAt sections (tag + 3)) (sectionAt sections (tag + 4)) ∧
        validateExpressions expressions entities) ∧ next expressions = some result := by
  refine Option.bind_eq_some_iff.trans (exists_congr fun expressions => and_congr_left' ?_)
  exact decodeExpressions_iff (opened.found _ first (by omega)) (opened.found _ (by omega) (by omega))
    (opened.found _ (by omega) (by omega)) (opened.found _ (by omega) (by omega))
    (opened.found _ (by omega) (by omega)) opened.limit

end

/-- The native decoder accepts exactly the payloads of tables that pass its checks. -/
theorem decodeOntology_iff {data : List UInt8} {tables : Tables} (small : data.length ≤ maxsize) :
    decodeOntology data = some tables ↔ tables.StoredIn data ∧ Accepted tables := by
  have sameContainer : decodeContainer data IR_MAGIC (List.range' 1 20) =
      PyElk.decodeContainer data IR_MAGIC OntologySection.tags OntologySection.tags := decodeContainer_eq small
  rw [decodeOntology, sameContainer, Tables.StoredIn, ← exists_and_right]
  refine Option.bind_eq_some_iff.trans (exists_congr fun sections => ?_)
  rw [and_assoc]
  refine and_congr_right fun container => ?_
  have opened : OpenedSections sections 20 := .of_container small container
  simp (disch := decide) only [↓opened.section_iff, ↓opened.entities_iff, ↓opened.expressions_iff,
    ↓opened.read_iff decodeOccurrences_eq, ↓opened.read_iff decodePairs_eq, ↓opened.read_iff decodeU64_eq,
    ↓opened.csr_iff, ↓check_iff, Option.pure_def, Option.some.injEq]
  constructor
  · rintro ⟨entities, readEntities, validEntities, expressions, ⟨storedExpressions, validExpressions⟩, named,
      expressionOccurrences, readOccurrences, propertyOccurrences, readOccurrences', size, size', chains, readChains,
      validChains, subclass, readSubclass, validSubclass, equivalent, readEquivalent, validEquivalent, groups,
      readGroups, validGroups, subproperty, readSubproperty, validSubproperty, validSuper, ranges, readRanges,
      validRanges, validRange, features, readFeatures, featureSize, digest, rfl⟩
    exact ⟨⟨readEntities, storedExpressions, readOccurrences, readOccurrences', readChains, readSubclass,
        readEquivalent, readGroups, readSubproperty, readRanges, readFeatures, digest.1, rfl⟩,
      ⟨validEntities, validExpressions, named, size, size', validChains, validSubclass, validEquivalent, validGroups,
        validSubproperty, validSuper, validRanges, validRange, featureSize, digest.2⟩⟩
  · rintro ⟨read, checked⟩
    have digest : (sectionAt sections 20).payload.length = 32 := read.sourceFingerprint.2 ▸ checked.fingerprint
    refine ⟨_, read.entities, checked.entities, _, ⟨read.expressions, checked.expressions⟩, checked.named,
      _, read.expressionOccurrences, _, read.propertyOccurrences, checked.expressionOccurrences,
      checked.propertyOccurrences, _, read.propertyChains, checked.chains, _, read.subclassAxioms, checked.subclass,
      _, read.equivalentClassAxioms, checked.equivalent, _, read.disjointGroups, checked.disjoint,
      _, read.subpropertyAxioms, checked.subproperty, checked.superProperty, _, read.propertyRanges, checked.ranges,
      checked.rangeProperty, _, read.featureCounts, checked.features, ⟨read.sourceFingerprint.1, digest⟩, ?_⟩
    rw [read.sourceFingerprint.2]

theorem validatePairs_small {rows : List (Nat × Nat)} {firstLimit secondLimit : Nat}
    (checked : validatePairs rows firstLimit secondLimit) (first : firstLimit ≤ U32_RESERVED)
    (second : secondLimit ≤ U32_RESERVED) : validateSortedPairs rows firstLimit secondLimit :=
  validatePairs_iff.mpr ⟨fun _ member => ⟨(validatePairs_lt checked member).1.trans_le first,
    (validatePairs_lt checked member).2.trans_le second⟩, checked⟩

/-- The checks of the two decoders differ in the reserved ID alone. -/
theorem valid_iff {data : List UInt8} {tables : Tables} (stored : tables.StoredIn data) :
    tables.Valid ↔ Accepted tables ∧ tables.IdsFit := by
  obtain ⟨sections, -, read⟩ := stored
  constructor
  · intro valid
    obtain ⟨-, few, entities⟩ := validateEntities_iff.mp valid.entities
    obtain ⟨fewExpressions, expressions⟩ := validateExpressions_iff.mp valid.expressions
    obtain ⟨size, size', -⟩ := validateOccurrences_iff.mp valid.occurrences
    have superProperty := valid.superProperty
    have rangeProperty := valid.rangeProperty
    simp only [← validateEntityKind_eq] at superProperty rangeProperty
    exact ⟨⟨entities, expressions, by rw [validateNamedExpressions_eq few]; exact valid.named, size, size',
      (validatePropertyChains_eq _ _).trans valid.chains, (validatePairs_iff.mp valid.subclass).2,
      (validatePairs_iff.mp valid.equivalent).2, (validateDisjointGroups_eq _ _).trans valid.disjoint,
      (validatePairs_iff.mp valid.subproperty).2, superProperty, (validatePairs_iff.mp valid.ranges).2, rangeProperty,
      valid.features.1, valid.fingerprint⟩,
      ⟨few, fewExpressions, fun row member => ((validatePairs_iff.mp valid.subproperty).1 row member).1⟩⟩
  · rintro ⟨checked, fit⟩
    have counts : ∀ counts ∈ tables.expressionOccurrences ++ tables.propertyOccurrences,
        counts.negative ≤ U64_MAX ∧ counts.positive ≤ U64_MAX := fun counts member =>
      (List.mem_append.mp member).elim (occurrences_le read.expressionOccurrences counts)
        (occurrences_le read.propertyOccurrences counts)
    have superProperty := checked.superProperty
    have rangeProperty := checked.rangeProperty
    simp only [validateEntityKind_eq] at superProperty rangeProperty
    exact
      { entities := validateEntities_iff.mpr
          ⟨(decodeEntityRecords_iff.mp read.entities).2.2.2.2.2, fit.entities, checked.entities⟩
        expressions := validateExpressions_iff.mpr ⟨fit.expressions, checked.expressions⟩
        named := by rw [← validateNamedExpressions_eq fit.entities]; exact checked.named
        occurrences :=
          validateOccurrences_iff.mpr ⟨checked.expressionOccurrences, checked.propertyOccurrences, counts⟩
        chains := (validatePropertyChains_eq _ _).symm.trans checked.chains
        subclass := validatePairs_small checked.subclass fit.expressions fit.expressions
        equivalent := validatePairs_small checked.equivalent fit.expressions fit.expressions
        disjoint := (validateDisjointGroups_eq _ _).symm.trans checked.disjoint
        subproperty := validatePairs_iff.mpr ⟨fun row member => ⟨fit.chains row member,
          (validatePairs_lt checked.subproperty member).2.trans_le fit.entities⟩, checked.subproperty⟩
        superProperty := superProperty
        ranges := validatePairs_small checked.ranges fit.entities fit.expressions
        rangeProperty := rangeProperty
        features := ⟨checked.features, features_le read.featureCounts⟩
        fingerprint := checked.fingerprint }

/-- The two decoders agree on an ontology payload unless its tables pass the checks of
the native one and have no room for the reserved ID. -/
theorem decodeOntology_agree {data : List UInt8} (small : data.length ≤ maxsize) :
    (PyElk.decodeOntology data).map CompiledOntology.toTables = decodeOntology data ↔
      ∀ tables : Tables, tables.StoredIn data → Accepted tables → tables.IdsFit := by
  constructor
  · intro agree tables stored checked
    have accepted := (decodeOntology_iff small).mpr ⟨stored, checked⟩
    rw [← agree] at accepted
    obtain ⟨ontology, -, rfl⟩ := Option.map_eq_some_iff.mp accepted
    exact ((valid_iff stored).mp ontology.valid).2
  · intro fit
    refine Option.ext fun tables => ?_
    rw [Option.map_eq_some_iff, decodeOntology_iff small]
    constructor
    · rintro ⟨ontology, decoded, rfl⟩
      have stored := PyElk.decodeOntology_iff.mp decoded
      exact ⟨stored, ((valid_iff stored).mp ontology.valid).1⟩
    · rintro ⟨stored, checked⟩
      have valid := (valid_iff stored).mpr ⟨checked, fit tables stored checked⟩
      exact ⟨⟨tables, valid⟩, PyElk.decodeOntology_iff.mpr stored, rfl⟩

/-! The two decoders on queries. -/

theorem collectOntologyIds_iff {seen : List Nat} {rows : List (EntityRecord × Nat)}
    {entities : List QueryEntityRecord} :
    collectOntologyIds seen rows = some entities ↔
      entities = rows.map (fun row => ⟨row.1, decodeReserved row.2⟩) ∧
        (entities.filterMap QueryEntityRecord.ontologyId).Nodup ∧
        ∀ identifier ∈ entities.filterMap QueryEntityRecord.ontologyId, identifier ∉ seen := by
  induction rows generalizing seen entities with
  | nil =>
    rw [collectOntologyIds]
    constructor
    · intro same
      cases same
      exact ⟨rfl, List.nodup_nil, fun identifier member => absurd member List.not_mem_nil⟩
    · rintro ⟨rfl, -, -⟩
      rfl
  | cons row rest ih =>
    obtain ⟨entity, value⟩ := row
    have field : (if value ≠ U32_RESERVED then some value else none) = decodeReserved value := ite_not _ _ _
    rw [collectOntologyIds, field, List.map_cons]
    generalize decodeReserved value = kept
    have listed : ∀ others : List QueryEntityRecord,
        (⟨entity, kept⟩ :: others).filterMap QueryEntityRecord.ontologyId =
          kept.toList ++ others.filterMap QueryEntityRecord.ontologyId := by
      intro others
      cases kept <;> rfl
    constructor
    · intro collected
      obtain ⟨fresh, collected⟩ := guard_bind_eq_some.mp collected
      obtain ⟨others, tail, last⟩ := Option.bind_eq_some_iff.mp collected
      cases last
      obtain ⟨same, distinct, later⟩ := ih.mp tail
      rw [listed]
      refine ⟨congrArg _ same, List.nodup_append.mpr ⟨by cases kept <;> simp, distinct, ?_⟩, ?_⟩
      · rintro identifier first _ member rfl
        exact later identifier member (List.mem_append_left _ first)
      · intro identifier member
        rcases List.mem_append.mp member with first | member
        · exact fresh identifier (Option.mem_toList.mp first)
        · exact fun earlier => later identifier member (List.mem_append_right _ earlier)
    · rintro ⟨rfl, distinct, fresh⟩
      rw [listed] at distinct fresh
      obtain ⟨-, distinct', disjoint⟩ := List.nodup_append.mp distinct
      refine guard_bind_eq_some.mpr ⟨fun identifier first =>
        fresh identifier (List.mem_append_left _ (Option.mem_toList.mpr first)), ?_⟩
      refine Option.bind_eq_some_iff.mpr ⟨_, ih.mpr ⟨rfl, distinct', fun identifier member earlier => ?_⟩, rfl⟩
      rcases List.mem_append.mp earlier with first | earlier
      · exact disjoint identifier first identifier member rfl
      · exact fresh identifier (List.mem_append_right _ member) earlier

/-- The checks that `QueryIr::decode` makes on the tables. -/
structure QueryAccepted (tables : QueryTables) : Prop where
  entities : validateEntities tables.entityRecords false
  ontologyIds : (tables.entities.filterMap QueryEntityRecord.ontologyId).Nodup
  expressions : validateExpressions tables.expressions tables.entityRecords
  named : validateNamedExpressions tables.entityRecords tables.expressions
  expressionOccurrences : tables.expressionOccurrences.length = tables.expressions.length
  propertyOccurrences : tables.propertyOccurrences.length = objectPropertyCount tables.entityRecords
  root : ∀ root ∈ tables.rootExpression, root < tables.expressions.length
  obligations : validatePairs tables.subsumptionObligations tables.expressions.length tables.expressions.length
  kind : match tables.kind with
    | .classExpression => tables.rootExpression.isSome ∧ tables.subsumptionObligations.isEmpty
    | .entailment => tables.rootExpression.isNone

/-- The last check of a query payload. -/
theorem guardKind_eq_some {kind : QueryIRKind} {root : Option Nat} {obligations : List (Nat × Nat)}
    {next : Unit → Option QueryTables} {tables : QueryTables} :
    (match kind with
      | .classExpression => (guard (root.isSome ∧ obligations.isEmpty) : Option Unit) >>= next
      | .entailment => (guard root.isNone : Option Unit) >>= next) = some tables ↔
      (match kind with
        | .classExpression => root.isSome ∧ obligations.isEmpty
        | .entailment => root.isNone) ∧ next () = some tables := by
  cases kind with
  | classExpression => exact guard_bind_eq_some
  | entailment => exact guard_bind_eq_some

/-- The native decoder accepts exactly the payloads of queries that pass its checks. -/
theorem decodeQueryIr_iff {data : List UInt8} {tables : QueryTables} (small : data.length ≤ maxsize) :
    decodeQueryIr data = some tables ↔ tables.StoredIn data ∧ QueryAccepted tables := by
  have sameContainer : decodeContainer data QUERY_MAGIC (List.range' 1 14) =
      PyElk.decodeContainer data QUERY_MAGIC QuerySection.tags QuerySection.tags := decodeContainer_eq small
  rw [decodeQueryIr, sameContainer, QueryTables.StoredIn, ← exists_and_right]
  refine Option.bind_eq_some_iff.trans (exists_congr fun sections => ?_)
  rw [and_assoc]
  refine and_congr_right fun container => ?_
  have opened : OpenedSections sections 14 := .of_container small container
  have rootField : ∀ value, (if value ≠ U32_RESERVED then some value else none) = decodeReserved value :=
    fun _ => ite_not _ _ _
  simp (disch := decide) only [↓opened.section_iff, ↓opened.entities_iff, ↓opened.expressions_iff,
    ↓opened.read_iff decodeU8_eq, ↓opened.read_iff decodeU32_eq, ↓opened.read_iff decodeOccurrences_eq,
    ↓opened.read_iff decodePairs_eq, ↓step_iff onlyValue, ↓step_iff QueryIRKind.ofCode?,
    ↓step_iff (collectOntologyIds []), ↓check_iff, rootField]
  constructor
  · rintro ⟨kindValues, readKind, kindValue, oneKind, kind, knownKind, records, readEntities,
      validEntities, ontologyIds,
      readIds, size, entities, collected, expressions, ⟨storedExpressions, validExpressions⟩, named, occurrences,
      readOccurrences, size', occurrences', readOccurrences', size'', rootValues, readRoot, rootValue, oneRoot, root,
      obligations, readObligations, validObligations, decoded⟩
    obtain ⟨kindChecked, last⟩ := guardKind_eq_some.mp decoded
    cases last
    have kindByte := unpackFixed_onlyValue.mp (Option.bind_eq_some_iff.mpr ⟨_, readKind, oneKind⟩)
    have rootBytes := unpackFixed_onlyValue.mp (Option.bind_eq_some_iff.mpr ⟨_, readRoot, oneRoot⟩)
    rw [← QueryIRKind.ofCode?_iff.mp knownKind] at kindByte
    rw [← encodeReserved_decodeReserved rootValue] at rootBytes
    obtain ⟨rows, distinct, -⟩ := collectOntologyIds_iff.mp collected
    obtain ⟨rfl, rfl, plain⟩ := (queryEntities_eq_iff size.symm).mp rows
    exact ⟨⟨kindByte, readEntities, readIds, storedExpressions, readOccurrences, readOccurrences', rootBytes,
        readObligations, plain, decodeReserved_ne _⟩,
      ⟨validEntities, distinct, validExpressions, named, size', size'', root, validObligations, kindChecked⟩⟩
  · rintro ⟨read, checked⟩
    obtain ⟨kindValues, readKind, oneKind⟩ := Option.bind_eq_some_iff.mp (unpackFixed_onlyValue.mpr read.kind)
    obtain ⟨rootValues, readRoot, oneRoot⟩ :=
      Option.bind_eq_some_iff.mp (unpackFixed_onlyValue.mpr read.rootExpression)
    have size : tables.entityRecords.length =
        (tables.entities.map fun record => encodeReserved record.ontologyId).length := by
      rw [QueryTables.entityRecords, List.length_map, List.length_map]
    have collected := collectOntologyIds_iff.mpr ⟨(queryEntities_eq_iff size).mpr ⟨rfl, rfl, read.entitiesPlain⟩,
      checked.ontologyIds, fun identifier _ => List.not_mem_nil⟩
    refine ⟨_, readKind, _, oneKind, _, QueryIRKind.ofCode?_iff.mpr rfl, _, read.entityRecords, checked.entities,
      _, read.ontologyIds, size.symm, _, collected, _, ⟨read.expressions, checked.expressions⟩, checked.named,
      _, read.expressionOccurrences, checked.expressionOccurrences, _, read.propertyOccurrences,
      checked.propertyOccurrences, _, readRoot, _, oneRoot, ?_⟩
    rw [decodeReserved_encodeReserved read.rootPlain]
    exact ⟨checked.root, _, read.subsumptionObligations, checked.obligations,
      guardKind_eq_some.mpr ⟨checked.kind, rfl⟩⟩

/-- An ID that is read from a `u32` field is not reserved. -/
theorem ontologyIds_lt {section_ : DecodedSection} {entities : List QueryEntityRecord}
    (read : unpackFixed section_ u32Struct = some (entities.map fun record => encodeReserved record.ontologyId))
    (plain : ∀ record ∈ entities, record.ontologyId ≠ some U32_RESERVED) :
    ∀ entity ∈ entities.filterMap QueryEntityRecord.ontologyId, entity < U32_RESERVED := by
  intro entity member
  obtain ⟨record, listed, same⟩ := List.mem_filterMap.mp member
  have limit : 256 ^ 4 = U32_RESERVED + 1 := rfl
  have fits := Struct.uint_isSome.mp
    (Struct.fits_of_packAll (unpackFixed_iff.mp read).1 _ (List.mem_map_of_mem listed))
  have other := plain record listed
  rw [same] at fits other
  have bound : entity < U32_RESERVED + 1 := fits
  exact lt_of_le_of_ne (Nat.le_of_lt_succ bound) fun equal => other (congrArg some equal)

theorem checkKind_iff {tables : QueryTables} : tables.checkKind ↔
    (∀ root ∈ tables.rootExpression, root < tables.expressions.length) ∧
      match tables.kind with
      | .classExpression => tables.rootExpression.isSome ∧ tables.subsumptionObligations.isEmpty
      | .entailment => tables.rootExpression.isNone := by
  obtain ⟨kind, entities, expressions, occurrences, occurrences', root, obligations⟩ := tables
  cases kind <;> cases root <;> simp [QueryTables.checkKind]

/-- A stored query is valid when the native decoder accepts it and its IDs fit. -/
theorem queryValid_iff {data : List UInt8} {tables : QueryTables} (stored : tables.StoredIn data) :
    tables.Valid ↔ QueryAccepted tables ∧ tables.IdsFit := by
  obtain ⟨sections, -, read⟩ := stored
  constructor
  · intro valid
    obtain ⟨-, few, entities⟩ := validateEntities_iff.mp valid.entities
    obtain ⟨fewExpressions, expressions⟩ := validateExpressions_iff.mp valid.expressions
    obtain ⟨size, size', -⟩ := validateOccurrences_iff.mp valid.occurrences
    obtain ⟨root, kind⟩ := checkKind_iff.mp valid.kind
    exact ⟨⟨entities, valid.ontologyIds.1,
      expressions, by rw [validateNamedExpressions_eq few]; exact valid.named, size,
      size', root, (validatePairs_iff.mp valid.obligations).2, kind⟩, ⟨few, fewExpressions⟩⟩
  · rintro ⟨checked, fit⟩
    have counts : ∀ counts ∈ tables.expressionOccurrences ++ tables.propertyOccurrences,
        counts.negative ≤ U64_MAX ∧ counts.positive ≤ U64_MAX := fun counts member =>
      (List.mem_append.mp member).elim (occurrences_le read.expressionOccurrences counts)
        (occurrences_le read.propertyOccurrences counts)
    exact
      { ontologyIds := ⟨checked.ontologyIds, ontologyIds_lt read.ontologyIds read.entitiesPlain⟩
        entities := validateEntities_iff.mpr
          ⟨(decodeEntityRecords_iff.mp read.entityRecords).2.2.2.2.2, fit.entities, checked.entities⟩
        expressions := validateExpressions_iff.mpr ⟨fit.expressions, checked.expressions⟩
        named := by rw [← validateNamedExpressions_eq fit.entities]; exact checked.named
        occurrences :=
          validateOccurrences_iff.mpr ⟨checked.expressionOccurrences, checked.propertyOccurrences, counts⟩
        obligations := validatePairs_small checked.obligations fit.expressions fit.expressions
        kind := checkKind_iff.mpr ⟨checked.root, checked.kind⟩ }

/-- The decoders agree on a payload exactly when the IDs of an accepted query fit. -/
theorem decodeQueryIr_agree {data : List UInt8} (small : data.length ≤ maxsize) :
    (PyElk.decodeQueryIr data).map QueryIR.toQueryTables = decodeQueryIr data ↔
      ∀ tables : QueryTables, tables.StoredIn data → QueryAccepted tables → tables.IdsFit := by
  constructor
  · intro agree tables stored checked
    have accepted := (decodeQueryIr_iff small).mpr ⟨stored, checked⟩
    rw [← agree] at accepted
    obtain ⟨query, -, rfl⟩ := Option.map_eq_some_iff.mp accepted
    exact ((queryValid_iff stored).mp query.valid).2
  · intro fit
    refine Option.ext fun tables => ?_
    rw [Option.map_eq_some_iff, decodeQueryIr_iff small]
    constructor
    · rintro ⟨query, decoded, rfl⟩
      have stored := PyElk.decodeQueryIr_iff.mp decoded
      exact ⟨stored, ((queryValid_iff stored).mp query.valid).1⟩
    · rintro ⟨stored, checked⟩
      have valid := (queryValid_iff stored).mpr ⟨checked, fit tables stored checked⟩
      exact ⟨⟨tables, valid⟩, PyElk.decodeQueryIr_iff.mpr stored, rfl⟩

end Native

end PyElk
