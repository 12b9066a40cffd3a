import PyElk.Native.CodecAgreement

namespace PyElk.Native

/-! A payload that only the native decoder accepts, when it is wide enough. -/

section

variable (side : Nat)

def planeChar (position : Nat) : Char := Char.ofNat (0x10000 + position)

/-- The IRIs of two characters out of the first `side` ones of the second plane. -/
def crowdedIris : List String :=
  (List.range side).flatMap fun first =>
    (List.range side).map fun second => String.ofList [planeChar first, planeChar second]

def crowdedEntities : List EntityRecord :=
  predefinedEntities ++ (crowdedIris side).map fun iri => ⟨.annotationProperty, iri⟩

/-- An ontology that says nothing about `side * side` annotation properties. -/
def crowdedTables : Tables where
  entities := crowdedEntities side
  expressions := [⟨.owlClass, [0], []⟩, ⟨.owlClass, [1], []⟩]
  expressionOccurrences := [⟨0, 0⟩, ⟨0, 0⟩]
  propertyOccurrences := [⟨0, 0⟩, ⟨0, 0⟩]
  propertyChains := []
  subclassAxioms := []
  equivalentClassAxioms := []
  disjointGroups := []
  subpropertyAxioms := []
  propertyRanges := []
  featureCounts := List.replicate FEATURE_VECTOR_LENGTH 0
  sourceFingerprint := List.replicate FINGERPRINT_SIZE 0

end

theorem toNat_planeChar {position : Nat} (plane : position < 65536) :
    (planeChar position).toNat = 0x10000 + position := by
  have valid : Nat.isValidChar (0x10000 + position) := Or.inr ⟨by omega, by omega⟩
  rw [planeChar, Char.ofNat, dif_pos valid]
  rfl

theorem planeChar_lt {first second : Nat} (order : first < second) (plane : second < 65536) :
    planeChar first < planeChar second := by
  have values := toNat_planeChar (order.trans plane)
  have values' := toNat_planeChar plane
  refine UInt32.lt_iff_toNat_lt.mpr ?_
  change (planeChar first).toNat < (planeChar second).toNat
  omega

theorem length_crowdedIris (side : Nat) : (crowdedIris side).length = side * side := by
  simp only [crowdedIris, List.length_flatMap, List.length_map, List.length_range, List.map_const',
    List.sum_replicate_nat]

/-- The IRIs of one row come before those of the next. -/
theorem crowdedIris_sorted {side : Nat} (plane : side ≤ 65536) : (crowdedIris side).Pairwise (· < ·) := by
  have smaller : ∀ {first second : List Char}, first < second → String.ofList first < String.ofList second := by
    intro first second order
    rw [String.lt_iff, String.toList_ofList, String.toList_ofList]
    exact order
  have ranges : (List.range side).Pairwise fun first second => first < second ∧ second < 65536 :=
    (List.pairwise_lt_range (n := side)).imp_of_mem fun _ member order =>
      ⟨order, (List.mem_range.mp member).trans_le plane⟩
  refine List.pairwise_flatMap.mpr ⟨fun first member => List.pairwise_map.mpr (ranges.imp fun order => ?_),
    ranges.imp fun order iri row iri' row' => ?_⟩
  · exact smaller
      (List.cons_lt_cons_iff.mpr (Or.inr ⟨rfl, List.cons_lt_cons_iff.mpr (Or.inl (planeChar_lt order.1 order.2))⟩))
  · obtain ⟨second, -, rfl⟩ := List.mem_map.mp row
    obtain ⟨second', -, rfl⟩ := List.mem_map.mp row'
    exact smaller (List.cons_lt_cons_iff.mpr (Or.inl (planeChar_lt order.1 order.2)))

theorem length_encodeUtf8 {iri : String} {side : Nat} (member : iri ∈ crowdedIris side) :
    (encodeUtf8 iri).length ≤ 8 := by
  obtain ⟨first, -, row⟩ := List.mem_flatMap.mp member
  obtain ⟨second, -, rfl⟩ := List.mem_map.mp row
  have size : (encodeUtf8 (String.ofList [planeChar first, planeChar second])).length =
      (planeChar first).utf8Size + (planeChar second).utf8Size := by
    simp [encodeUtf8, List.utf8Encode]
  have bound := (planeChar first).utf8Size_le_four
  have bound' := (planeChar second).utf8Size_le_four
  omega

/-- A crowded table has the built-in entities and one annotation property for each IRI. -/
theorem mem_crowdedEntities {side : Nat} {record : EntityRecord} (member : record ∈ crowdedEntities side) :
    record ∈ predefinedEntities ∨ record.kind = .annotationProperty ∧ record.iri ∈ crowdedIris side := by
  rcases List.mem_append.mp member with first | member
  · exact Or.inl first
  · obtain ⟨iri, listed, rfl⟩ := List.mem_map.mp member
    exact Or.inr ⟨rfl, listed⟩

/-- The entities of a crowded table pass the native check. -/
theorem crowdedEntities_valid {side : Nat} (plane : side ≤ 65536) : validateEntities (crowdedEntities side) true := by
  have front : predefinedEntities.Pairwise fun a b => a.key < b.key := by decide
  have kinds : ∀ record ∈ predefinedEntities, record.kind.code < EntityKind.annotationProperty.code := by decide
  have sorted : (crowdedEntities side).Pairwise fun a b => a.key < b.key := by
    refine List.pairwise_append.mpr
      ⟨front, List.pairwise_map.mpr ((crowdedIris_sorted plane).imp fun order => ?_), ?_⟩
    · exact Prod.Lex.toLex_lt_toLex.mpr (Or.inr ⟨rfl, order⟩)
    · intro first early second late
      obtain ⟨iri, -, rfl⟩ := List.mem_map.mp late
      exact Prod.Lex.toLex_lt_toLex.mpr (Or.inl (kinds first early))
  unfold validateEntities checkSortedUnique
  rw [Bool.and_eq_true, decide_eq_true_eq]
  refine ⟨sorted.isChain, ?_⟩
  rw [Bool.not_true, Bool.false_or, List.all_eq_true]
  exact fun record member => List.contains_iff_mem.mpr (List.mem_append_left _ member)

theorem crowdedEntities_named (side : Nat) :
    namedEntities (crowdedEntities side) = [(.owlClass, 0), (.owlClass, 1)] := by
  unfold namedEntities crowdedEntities
  rw [List.zipIdx_append, List.filterMap_append]
  refine (congrArg (List.filterMap _ predefinedEntities.zipIdx ++ ·)
    (List.filterMap_eq_nil_iff.mpr fun row member => ?_)).trans rfl
  obtain ⟨iri, -, same⟩ := List.mem_map.mp (List.fst_mem_of_mem_zipIdx member)
  rw [← same]

/-- The crowded tables are accepted by the native decoder. -/
theorem crowdedTables_accepted {side : Nat} (plane : side ≤ 65536) : Accepted (crowdedTables side) where
  entities := crowdedEntities_valid plane
  expressions := by
    have order : validateExpressionOrder [⟨.owlClass, [0], []⟩, ⟨.owlClass, [1], []⟩] = true := by decide
    rw [crowdedTables, validateExpressions, order, Bool.and_true]
    rfl
  named := by
    have kept : (namedEntities (crowdedTables side).entities).map (fun named => (named.1, asU32 named.2)) =
        [(.owlClass, 0), (.owlClass, 1)] := by
      rw [crowdedTables, crowdedEntities_named]
      rfl
    unfold validateNamedExpressions
    rw [kept]
    rfl
  expressionOccurrences := rfl
  propertyOccurrences := by
    have others : ((crowdedIris side).map fun iri => (⟨.annotationProperty, iri⟩ : EntityRecord)).countP
        (fun record => record.kind == .objectProperty) = 0 := by
      refine List.countP_eq_zero.mpr fun record member => ?_
      obtain ⟨iri, -, rfl⟩ := List.mem_map.mp member
      exact Bool.false_ne_true
    rw [crowdedTables, objectPropertyCount, crowdedEntities, List.countP_append, others]
    rfl
  chains := rfl
  subclass := rfl
  equivalent := rfl
  disjoint := rfl
  subproperty := rfl
  superProperty := rfl
  ranges := rfl
  rangeProperty := rfl
  features := List.length_replicate
  fingerprint := List.length_replicate

theorem length_flatten_le {α : Type} {rows : List (List α)} {width : Nat} (bound : ∀ row ∈ rows, row.length ≤ width) :
    rows.flatten.length ≤ rows.length * width := by
  induction rows with
  | nil => exact Nat.zero_le _
  | cons row rest ih =>
    rw [List.forall_mem_cons] at bound
    rw [List.flatten_cons, List.length_append, List.length_cons, Nat.succ_mul, Nat.add_comm]
    exact Nat.add_le_add (ih bound.2) bound.1

/-- The payload of the crowded tables fits the address space. -/
theorem crowdedTables_size {side : Nat} (plane : side ≤ 65536) : (crowdedTables side).encodedSize ≤ maxsize := by
  have few : side * side ≤ 65536 * 65536 := Nat.mul_le_mul plane plane
  have entities : (crowdedEntities side).length = 4 + side * side := by
    rw [crowdedEntities, List.length_append, List.length_map, length_crowdedIris]
    rfl
  have bytes : ((crowdedEntities side).map fun record => encodeUtf8 record.iri).flatten.length ≤
    (4 + side * side) * 64 := by
    rw [← entities, ← List.length_map fun record : EntityRecord => encodeUtf8 record.iri]
    refine length_flatten_le fun row member => ?_
    obtain ⟨record, listed, rfl⟩ := List.mem_map.mp member
    rcases mem_crowdedEntities listed with predefined | ⟨-, crowded⟩
    · have short : ∀ record ∈ predefinedEntities, (encodeUtf8 record.iri).length ≤ 64 := by decide +kernel
      exact short record predefined
    · exact (length_encodeUtf8 crowded).trans (by decide)
  have limit : maxsize = 9223372036854775807 := rfl
  have start : directoryEnd 20 = 536 := rfl
  have checksum : CHECKSUM_SIZE = 32 := rfl
  have features : FEATURE_VECTOR_LENGTH = 79 := rfl
  have fingerprint : FINGERPRINT_SIZE = 32 := rfl
  simp only [Tables.encodedSize, crowdedTables, csrSize, entities, List.length_map, List.length_replicate,
    List.length_cons, List.length_nil, List.map_cons, List.map_nil, List.flatten_cons, List.flatten_nil,
    List.length_append]
  omega

theorem crowdedTables_packable (side : Nat) : (crowdedTables side).Packable :=
  have nothing : ∀ {α : Type} {p : α → Prop}, ∀ value ∈ ([] : List α), p value :=
    fun value member => absurd member List.not_mem_nil
  have small : ∀ record ∈ [(⟨.owlClass, [0], []⟩ : ExpressionRecord), ⟨.owlClass, [1], []⟩],
      record.arguments.all checkU32 := by decide
  have counts : ∀ counts ∈ List.replicate 4 (⟨0, 0⟩ : Occurrence), (occurrenceStruct.pack counts).isSome := by decide
  have features : ∀ count ∈ List.replicate FEATURE_VECTOR_LENGTH 0, (u64Struct.pack count).isSome := by decide
  { arguments := small
    counts := counts
    chains := nothing
    groups := nothing
    subclass := nothing
    equivalent := nothing
    subproperty := nothing
    ranges := nothing
    features := features }

theorem crowdedTables_representable (side : Nat) : (crowdedTables side).Representable := by
  refine ⟨fun record member => ?_, (crowdedTables_packable side).arguments⟩
  rcases mem_crowdedEntities member with predefined | ⟨-, crowded⟩
  · have named : ∀ record ∈ predefinedEntities, record.iri ≠ "" := by decide
    exact named record predefined
  · obtain ⟨first, -, row⟩ := List.mem_flatMap.mp crowded
    obtain ⟨second, -, same⟩ := List.mem_map.mp row
    rw [← same]
    intro empty
    have letters := congrArg String.toList empty
    rw [String.toList_ofList, String.toList_empty] at letters
    cases letters

/-- The crowded tables are stored in the payload they are encoded to. -/
theorem crowdedTables_stored {side : Nat} (plane : side ≤ 65536) :
    ∃ data, encodeTables (crowdedTables side) = some data ∧ data.length ≤ maxsize ∧
      (crowdedTables side).StoredIn data := by
  have size := crowdedTables_size plane
  obtain ⟨sections, found, total, counts⟩ := ontologySections_exist (crowdedTables_packable side) size
  obtain ⟨tags, -⟩ := readOntologySections_of_sections (crowdedTables_representable side) found
  have name : IR_MAGIC.length = 8 := rfl
  obtain ⟨data, written, length⟩ := encodeContainer_exists name tags (by decide) counts total size
  have encoded : encodeTables (crowdedTables side) = some data := by
    rw [encodeTables, found]
    exact written
  obtain ⟨-, read⟩ := readOntology_encodeTables (crowdedTables_representable side) encoded
  obtain ⟨decoded, container, read⟩ := Option.bind_eq_some_iff.mp read
  exact ⟨data, encoded, length.trans_le size, decoded, container,
    ((readOntologySections_iff (decodeContainer_tags container).1).mp read).1⟩

/-- Where the payload of an ontology counts its rows, it leaves the reserved ID free: the directory counts few
entities and few expressions, and no subproperty row names the chain of that ID. -/
structure OntologyRoom (data : List UInt8) : Prop where
  counts : ∀ sections, PyElk.decodeContainer data IR_MAGIC OntologySection.tags OntologySection.tags = some sections →
    (sectionAt sections OntologySection.entityKinds.tag).count ≤ U32_RESERVED ∧
      (sectionAt sections OntologySection.expressionTags.tag).count ≤ U32_RESERVED
  chains : ∀ sections, PyElk.decodeContainer data IR_MAGIC OntologySection.tags OntologySection.tags = some sections →
    ∀ rows, unpackFixed (sectionAt sections OntologySection.subpropertyAxioms.tag) pairStruct = some rows →
      ∀ row ∈ rows, row.1 < U32_RESERVED

/-- The same of the payload of a query, which has no chains. -/
def QueryRoom (data : List UInt8) : Prop :=
  ∀ sections, PyElk.decodeContainer data QUERY_MAGIC QuerySection.tags QuerySection.tags = some sections →
    (sectionAt sections QuerySection.entityKinds.tag).count ≤ U32_RESERVED ∧
      (sectionAt sections QuerySection.expressionTags.tag).count ≤ U32_RESERVED

/-- The counts of the payload are the lengths of its tables. -/
theorem ontologyRoom_iff {data : List UInt8} {tables : Tables} (stored : tables.StoredIn data) :
    OntologyRoom data ↔ tables.IdsFit := by
  obtain ⟨sections, decoded, read⟩ := stored
  have entities : (sectionAt sections 1).count = tables.entities.length :=
    (decodeEntityRecords_iff.mp read.entities).2.2.1
  have expressions : (sectionAt sections 4).count = tables.expressions.length := read.expressions.tagCount
  constructor
  · intro room
    obtain ⟨few, fewExpressions⟩ := room.counts sections decoded
    exact ⟨entities ▸ few, expressions ▸ fewExpressions, room.chains sections decoded _ read.subpropertyAxioms⟩
  · intro fit
    refine ⟨fun other decoded' => ?_, fun other decoded' rows unpacked => ?_⟩
    · obtain rfl := Option.some.inj (decoded.symm.trans decoded')
      exact ⟨entities ▸ fit.entities, expressions ▸ fit.expressions⟩
    · obtain rfl := Option.some.inj (decoded.symm.trans decoded')
      obtain rfl := Option.some.inj (read.subpropertyAxioms.symm.trans unpacked)
      exact fit.chains

theorem queryRoom_iff {data : List UInt8} {tables : QueryTables} (stored : tables.StoredIn data) :
    QueryRoom data ↔ tables.IdsFit := by
  obtain ⟨sections, decoded, read⟩ := stored
  have entities : (sectionAt sections 2).count = tables.entityRecords.length :=
    (decodeEntityRecords_iff.mp read.entityRecords).2.2.1
  have expressions : (sectionAt sections 6).count = tables.expressions.length := read.expressions.tagCount
  constructor
  · intro room
    obtain ⟨few, fewExpressions⟩ := room sections decoded
    exact ⟨entities ▸ few, expressions ▸ fewExpressions⟩
  · intro fit other decoded'
    obtain rfl := Option.some.inj (decoded.symm.trans decoded')
    exact ⟨entities ▸ fit.entities, expressions ▸ fit.expressions⟩

/-- The two decoders, on ontologies and on queries: they accept the same data and read the same tables exactly when
the data leaves the reserved ID free, or holds no tables that keep the rules both decoders check. -/
theorem decoders_agree_iff (data : List UInt8) (small : data.length ≤ maxsize) :
    ((PyElk.decodeOntology data).map CompiledOntology.toTables = decodeOntology data ↔
      OntologyRoom data ∨ ∀ tables : Tables, tables.StoredIn data → ¬Accepted tables) ∧
    ((PyElk.decodeQueryIr data).map QueryIR.toQueryTables = decodeQueryIr data ↔
      QueryRoom data ∨ ∀ tables : QueryTables, tables.StoredIn data → ¬QueryAccepted tables) := by
  rw [decodeOntology_agree small, decodeQueryIr_agree small]
  refine ⟨⟨fun fit => ?_, ?_⟩, ⟨fun fit => ?_, ?_⟩⟩
  · by_cases accepted : ∃ tables : Tables, tables.StoredIn data ∧ Accepted tables
    · obtain ⟨tables, stored, checked⟩ := accepted
      exact Or.inl ((ontologyRoom_iff stored).mpr (fit tables stored checked))
    · exact Or.inr fun tables stored checked => accepted ⟨tables, stored, checked⟩
  · rintro (room | refused) tables stored checked
    · exact (ontologyRoom_iff stored).mp room
    · exact absurd checked (refused tables stored)
  · by_cases accepted : ∃ tables : QueryTables, tables.StoredIn data ∧ QueryAccepted tables
    · obtain ⟨tables, stored, checked⟩ := accepted
      exact Or.inl ((queryRoom_iff stored).mpr (fit tables stored checked))
    · exact Or.inr fun tables stored checked => accepted ⟨tables, stored, checked⟩
  · rintro (room | refused) tables stored checked
    · exact (queryRoom_iff stored).mp room
    · exact absurd checked (refused tables stored)

/-- Eight entities in one payload and a query with two obligations in the other: both leave the reserved ID free, and
what the two decoders read is what was stored. -/
theorem decoders_agree_iff_crowded : ∃ data queryData,
    encodeTables (crowdedTables 2) = some data ∧ encodeQueryIr workersQuery = some queryData ∧
      OntologyRoom data ∧ QueryRoom queryData ∧
      (PyElk.decodeOntology data).map CompiledOntology.toTables = decodeOntology data ∧
      decodeOntology data = some (crowdedTables 2) ∧
      (PyElk.decodeQueryIr queryData).map QueryIR.toQueryTables = decodeQueryIr queryData ∧
      PyElk.decodeQueryIr queryData = some workersQuery := by
  have plane : 2 ≤ 65536 := by decide
  obtain ⟨data, encoded, small, stored⟩ := crowdedTables_stored plane
  obtain ⟨queryData, queryEncoded, size⟩ := @encodeQueryIr_exists workersQuery (by decide +kernel)
  have querySmall : queryData.length ≤ maxsize := size.trans_le (by decide +kernel)
  have decoded := (decodeQueryIr_encodeQueryIr queryEncoded).2
  have queryStored := PyElk.decodeQueryIr_iff.mp decoded
  have room : OntologyRoom data := (ontologyRoom_iff stored).mpr
    ⟨by decide +kernel, by decide, fun row member => absurd member List.not_mem_nil⟩
  have queryRoom : QueryRoom queryData := (queryRoom_iff queryStored).mpr ⟨by decide +kernel, by decide +kernel⟩
  exact ⟨data, queryData, encoded, queryEncoded, room, queryRoom,
    (decoders_agree_iff data small).1.mpr (Or.inl room),
    (decodeOntology_iff small).mpr ⟨stored, crowdedTables_accepted plane⟩,
    (decoders_agree_iff queryData querySmall).2.mpr (Or.inl queryRoom), decoded⟩

/-- The data with all pairs out of 65536 characters, 4294967300 entities in all, is
accepted by the native decoder and refused by the other one. -/
theorem crowded_accepted_once :
    ∃ data, encodeTables (crowdedTables 65536) = some data ∧ data.length ≤ maxsize ∧
      PyElk.decodeOntology data = none ∧ decodeOntology data = some (crowdedTables 65536) := by
  obtain ⟨data, encoded, small, stored⟩ := crowdedTables_stored (le_refl 65536)
  have accepted := (decodeOntology_iff small).mpr ⟨stored, crowdedTables_accepted (le_refl 65536)⟩
  refine ⟨data, encoded, small, Option.eq_none_iff_forall_not_mem.mpr fun ontology decoded => ?_, accepted⟩
  have valid := (valid_iff (PyElk.decodeOntology_iff.mp decoded)).mp ontology.valid
  have same := (decodeOntology_iff small).mpr ⟨PyElk.decodeOntology_iff.mp decoded, valid.1⟩
  have few := valid.2.entities
  rw [Option.some.inj (same.symm.trans accepted)] at few
  have count : (crowdedTables 65536).entities.length = 4 + 65536 * 65536 := by
    rw [crowdedTables, crowdedEntities, List.length_append, List.length_map, length_crowdedIris]
    rfl
  rw [count] at few
  exact absurd few (by decide)

end PyElk.Native
