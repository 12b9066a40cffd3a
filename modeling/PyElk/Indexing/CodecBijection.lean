import PyElk.Indexing.EncodedSize

open Ordered

namespace PyElk

/-- The check accepts the tables of a compiled ontology, and only these. -/
theorem Tables.check_eq_some_iff {tables : Tables} {ontology : CompiledOntology} :
    tables.check = some ontology ↔ tables = ontology.toTables := by
  unfold Tables.check
  constructor
  · intro checked
    split at checked
    · cases checked
      rfl
    · cases checked
  · rintro rfl
    exact dif_pos ontology.valid

/-- The check accepts the tables of a query, and only these. -/
theorem QueryTables.check_eq_some_iff {tables : QueryTables} {query : QueryIR} :
    tables.check = some query ↔ tables = query.toQueryTables := by
  unfold QueryTables.check
  constructor
  · intro checked
    split at checked
    · cases checked
      rfl
    · cases checked
  · rintro rfl
    exact dif_pos query.valid

/-- Sections with exactly the required tags are read and written without loss. -/
theorem decodeContainer_of_tags {magic raw : List UInt8} {sections : List EncodedSection} {count : Nat}
    (tags : sections.map EncodedSection.tag = List.range' 1 count)
    (encoded : encodeContainer magic sections = some raw) :
    decodeContainer raw magic (List.range' 1 count) (List.range' 1 count) =
      some (sections.map EncodedSection.decoded) := by
  have increasing : (sections.map EncodedSection.tag).Pairwise (· < ·) := tags ▸ List.pairwise_lt_range'
  have decoded := decodeContainer_encodeContainer encoded
    (fun section_ member => tags ▸ List.mem_map_of_mem member : ∀ section_ ∈ sections,
      section_.tag ∈ List.range' 1 count)
    (fun tag required => tags ▸ required)
  rw [decoded, sortedBy_tag_eq increasing]

/-- What the encoder writes is plain: it has the sections of its format and no other ones. -/
theorem plain_of_tags {magic raw : List UInt8} {sections : List EncodedSection} {count : Nat}
    (tags : sections.map EncodedSection.tag = List.range' 1 count) (few : count ≤ MAX_SECTIONS)
    (encoded : encodeContainer magic sections = some raw) : Plain raw := by
  refine encodeContainer_plain encoded fun section_ member => ?_
  have listed : section_.tag ∈ List.range' 1 count := tags ▸ List.mem_map_of_mem member
  have bound := (List.mem_range'_1.mp listed).2
  have limit : MAX_SECTIONS = 256 := rfl
  have start : OPTIONAL_TAG_START = 0x8000 := rfl
  omega

/-- A plain container is written back byte for byte. -/
theorem encodeContainer_of_tags {magic raw : List UInt8} {sections : List (Nat × DecodedSection)} {count : Nat}
    (plain : Plain raw)
    (decoded : decodeContainer raw magic (List.range' 1 count) (List.range' 1 count) = some sections) :
    encodeContainer magic (sections.map DecodedSection.encoded) = some raw ∧
      sections.map Prod.fst = List.range' 1 count := by
  obtain ⟨encoded, increasing, recognized, complete⟩ := encodeContainer_decodeContainer plain decoded
  refine ⟨encoded, eq_of_strict increasing List.pairwise_lt_range' fun tag => ⟨fun member => ?_, complete tag⟩⟩
  obtain ⟨item, found, rfl⟩ := List.mem_map.mp member
  exact recognized item found

/-- Tables are read back from what was written. -/
theorem readOntology_encodeTables {ontology : Tables} {data : List UInt8} (representable : ontology.Representable)
    (encoded : encodeTables ontology = some data) : Plain data ∧ readOntology data = some ontology := by
  obtain ⟨sections, found, written⟩ := Option.bind_eq_some_iff.mp encoded
  obtain ⟨tags, read⟩ := readOntologySections_of_sections representable found
  rw [readOntology, OntologySection.tags, decodeContainer_of_tags tags written]
  exact ⟨plain_of_tags tags (by decide) written, read⟩

/-- A plain payload is written back from the tables that were read. -/
theorem encodeTables_readOntology {ontology : Tables} {data : List UInt8} (plain : Plain data)
    (read : readOntology data = some ontology) : encodeTables ontology = some data := by
  obtain ⟨sections, decoded, found⟩ := Option.bind_eq_some_iff.mp read
  obtain ⟨written, tags⟩ := encodeContainer_of_tags plain decoded
  rw [encodeTables, (ontologySections_of_read tags found).1]
  exact written

/-- A query is read back from what was written. -/
theorem readQuery_encodeQueryTables {query : QueryTables} {data : List UInt8} (representable : query.Representable)
    (encoded : encodeQueryTables query = some data) : Plain data ∧ readQuery data = some query := by
  obtain ⟨sections, found, written⟩ := Option.bind_eq_some_iff.mp encoded
  obtain ⟨tags, read⟩ := readQuerySections_of_sections representable found
  rw [readQuery, QuerySection.tags, decodeContainer_of_tags tags written]
  exact ⟨plain_of_tags tags (by decide) written, read⟩

/-- A plain query payload is written back from what was read. -/
theorem encodeQueryTables_readQuery {query : QueryTables} {data : List UInt8} (plain : Plain data)
    (read : readQuery data = some query) : encodeQueryTables query = some data := by
  obtain ⟨sections, decoded, found⟩ := Option.bind_eq_some_iff.mp read
  obtain ⟨written, tags⟩ := encodeContainer_of_tags plain decoded
  rw [encodeQueryTables, (querySections_of_read tags found).1]
  exact written

/-- A container is as long as its directory, its payloads and its checksum. -/
theorem encodeContainer_length {magic raw : List UInt8} {sections : List EncodedSection}
    (encoded : encodeContainer magic sections = some raw) :
    raw.length = directoryEnd sections.length + (sections.flatMap EncodedSection.payload).length + CHECKSUM_SIZE := by
  have perm := sortedBy_perm EncodedSection.tag sections
  unfold encodeContainer at encoded
  rw [Option.ite_none_right_eq_some] at encoded
  obtain ⟨header, packedHeader, after⟩ := Option.bind_eq_some_iff.mp encoded.2
  obtain ⟨directory, packedDirectory, last⟩ := Option.bind_eq_some_iff.mp after
  have size := Struct.packAll_length packedDirectory
  rw [directoryEntries_length] at size
  have whole := Option.some.inj last
  rw [← whole, List.length_append, List.length_append, List.length_append,
    headerStruct.size_of_pack packedHeader, size,
    blake2b256_length, directoryEnd, perm.length_eq, (perm.flatMap_right EncodedSection.payload).length_eq]
  rfl

/-- A container of sections that fit in memory can be written. -/
theorem encodeContainer_exists {magic : List UInt8} {sections : List EncodedSection} {count total : Nat}
    (name : magic.length = 8) (tags : sections.map EncodedSection.tag = List.range' 1 count)
    (few : count ≤ MAX_SECTIONS)
    (counts : ∀ section_ ∈ sections, section_.count ≤ section_.payload.length + 1)
    (size : directoryEnd sections.length + (sections.flatMap EncodedSection.payload).length + CHECKSUM_SIZE = total)
    (fits : total ≤ maxsize) : ∃ data, encodeContainer magic sections = some data ∧ data.length = total := by
  have length : sections.length = count := by rw [← List.length_map EncodedSection.tag, tags, List.length_range']
  have small : ∀ section_ ∈ sections, section_.tag < 256 ^ 2 := by
    intro section_ member
    have listed : section_.tag ∈ List.range' 1 count := tags ▸ List.mem_map_of_mem member
    have bound := (List.mem_range'_1.mp listed).2
    have limit : MAX_SECTIONS = 256 := rfl
    omega
  have room : directoryEnd sections.length + (sections.flatMap EncodedSection.payload).length < 256 ^ 8 := by
    have limit : maxsize < 256 ^ 8 := by decide
    omega
  obtain ⟨data, encoded⟩ := Option.isSome_iff_exists.mp (encodeContainer_isSome name (tags ▸ List.nodup_range')
    (length ▸ few) small (count_lt_of_total counts size fits) room)
  exact ⟨data, encoded, (encodeContainer_length encoded).trans size⟩

/-- An encoded ontology decodes to itself. -/
theorem decodeOntology_encodeOntology {ontology : CompiledOntology} {data : List UInt8}
    (encoded : encodeOntology ontology = some data) : Plain data ∧ decodeOntology data = some ontology := by
  obtain ⟨plain, read⟩ := readOntology_encodeTables ontology.valid.representable encoded
  rw [decodeOntology, read]
  exact ⟨plain, Tables.check_eq_some_iff.mpr rfl⟩

/-- A plain payload that decodes is the encoding of what it decodes to. -/
theorem encodeOntology_decodeOntology {ontology : CompiledOntology} {data : List UInt8} (plain : Plain data)
    (decoded : decodeOntology data = some ontology) : encodeOntology ontology = some data := by
  obtain ⟨tables, read, checked⟩ := Option.bind_eq_some_iff.mp decoded
  cases Tables.check_eq_some_iff.mp checked
  exact encodeTables_readOntology plain read

/-- An ontology whose size can be addressed has an encoding. -/
theorem encodeOntology_exists {ontology : CompiledOntology} (fits : ontology.encodedSize ≤ maxsize) :
    ∃ data, encodeOntology ontology = some data ∧ data.length = ontology.encodedSize := by
  obtain ⟨sections, found, size, counts⟩ := ontologySections_exist ontology.valid.packable fits
  obtain ⟨tags, -⟩ := readOntologySections_of_sections ontology.valid.representable found
  rw [encodeOntology, encodeTables, found]
  exact encodeContainer_exists rfl tags (by decide) counts size fits

/-- An encoded query decodes to itself. -/
theorem decodeQueryIr_encodeQueryIr {query : QueryIR} {data : List UInt8}
    (encoded : encodeQueryIr query = some data) :
    Plain data ∧ decodeQueryIr data = some query := by
  obtain ⟨plain, read⟩ := readQuery_encodeQueryTables query.valid.representable encoded
  rw [decodeQueryIr, read]
  exact ⟨plain, QueryTables.check_eq_some_iff.mpr rfl⟩

/-- A plain payload that decodes to a query is the encoding of that query. -/
theorem encodeQueryIr_decodeQueryIr {query : QueryIR} {data : List UInt8} (plain : Plain data)
    (decoded : decodeQueryIr data = some query) : encodeQueryIr query = some data := by
  obtain ⟨tables, read, checked⟩ := Option.bind_eq_some_iff.mp decoded
  cases QueryTables.check_eq_some_iff.mp checked
  exact encodeQueryTables_readQuery plain read

/-- A query whose size can be addressed has an encoding. -/
theorem encodeQueryIr_exists {query : QueryIR} (fits : query.encodedSize ≤ maxsize) :
    ∃ data, encodeQueryIr query = some data ∧ data.length = query.encodedSize := by
  obtain ⟨sections, found, size, counts⟩ := querySections_exist query.valid fits
  obtain ⟨tags, -⟩ := readQuerySections_of_sections query.valid.representable found
  rw [encodeQueryIr, encodeQueryTables, found]
  exact encodeContainer_exists rfl tags (by decide) counts size fits

/-- The binary format is a bijection between values and plain payloads. Every value
whose encoding is a possible byte string has one, which is plain and decoded to that
value; and plain data is the encoding of whatever it is decoded to. -/
theorem codec_bijective :
    (∀ ontology : CompiledOntology,
      (∀ data, encodeOntology ontology = some data → Plain data ∧ decodeOntology data = some ontology) ∧
      (ontology.encodedSize ≤ maxsize → ∃ data, encodeOntology ontology = some data ∧
        data.length = ontology.encodedSize)) ∧
    (∀ query : QueryIR,
      (∀ data, encodeQueryIr query = some data → Plain data ∧ decodeQueryIr data = some query) ∧
      (query.encodedSize ≤ maxsize → ∃ data, encodeQueryIr query = some data ∧ data.length = query.encodedSize)) ∧
    (∀ data ontology, Plain data → decodeOntology data = some ontology → encodeOntology ontology = some data) ∧
    (∀ data query, Plain data → decodeQueryIr data = some query → encodeQueryIr query = some data) :=
  ⟨fun _ => ⟨fun _ => decodeOntology_encodeOntology, encodeOntology_exists⟩,
    fun _ => ⟨fun _ => decodeQueryIr_encodeQueryIr, encodeQueryIr_exists⟩,
    fun _ _ plain => encodeOntology_decodeOntology plain, fun _ _ plain => encodeQueryIr_decodeQueryIr plain⟩

/-- Managers are those who manage some worker: rows in every table, and counters that differ. -/
def managersOntology : CompiledOntology :=
  ⟨{ entities := [⟨.owlClass, "ex:Manager"⟩, ⟨.owlClass, "ex:Worker"⟩, ⟨.owlClass, OWL_NOTHING_IRI⟩,
       ⟨.owlClass, OWL_THING_IRI⟩, ⟨.objectProperty, "ex:manages"⟩, ⟨.objectProperty, OWL_BOTTOM_OBJECT_PROPERTY_IRI⟩,
       ⟨.objectProperty, OWL_TOP_OBJECT_PROPERTY_IRI⟩]
     expressions := [⟨.owlClass, [0], []⟩, ⟨.owlClass, [1], []⟩, ⟨.owlClass, [2], []⟩, ⟨.owlClass, [3], []⟩,
       ⟨.objectSomeValuesFrom, [4, 1], []⟩]
     expressionOccurrences := [⟨2, 1⟩, ⟨1, 3⟩, ⟨0, 0⟩, ⟨0, 0⟩, ⟨1, 1⟩]
     propertyOccurrences := [⟨3, 2⟩, ⟨0, 0⟩, ⟨0, 0⟩]
     propertyChains := [[4], [4, 4], [5], [6]]
     subclassAxioms := [(1, 3)]
     equivalentClassAxioms := [(0, 4)]
     disjointGroups := [[0, 1]]
     subpropertyAxioms := [(1, 4)]
     propertyRanges := [(4, 1)]
     featureCounts := List.range FEATURE_VECTOR_LENGTH
     sourceFingerprint := (List.range FINGERPRINT_SIZE).map UInt8.ofNat }, by decide +kernel⟩

/-- Whether the managers and the members of a new class are all workers. -/
def workersQuery : QueryIR :=
  ⟨{ kind := .entailment
     entities := [⟨⟨.owlClass, "ex:Manager"⟩, some 0⟩, ⟨⟨.owlClass, "ex:New"⟩, none⟩,
       ⟨⟨.owlClass, "ex:Worker"⟩, some 1⟩]
     expressions := [⟨.owlClass, [0], []⟩, ⟨.owlClass, [1], []⟩, ⟨.owlClass, [2], []⟩]
     expressionOccurrences := [⟨0, 1⟩, ⟨0, 1⟩, ⟨2, 0⟩]
     propertyOccurrences := []
     rootExpression := none
     subsumptionObligations := [(0, 2), (1, 2)] }, by decide +kernel⟩

theorem codec_bijective_managers :
    (∃ data, encodeOntology managersOntology = some data ∧ decodeOntology data = some managersOntology ∧
      ∀ other, Plain other → decodeOntology other = some managersOntology → other = data) ∧
    ∃ data, encodeQueryIr workersQuery = some data ∧ decodeQueryIr data = some workersQuery ∧
      ∀ other, Plain other → decodeQueryIr other = some workersQuery → other = data := by
  obtain ⟨ontologies, queries, ontologyData, queryData⟩ := codec_bijective
  constructor
  · obtain ⟨decodes, exists_⟩ := ontologies managersOntology
    obtain ⟨data, encoded, -⟩ := exists_ (by decide +kernel)
    refine ⟨data, encoded, (decodes data encoded).2, fun other plain decoded => ?_⟩
    exact Option.some.inj ((ontologyData other managersOntology plain decoded).symm.trans encoded)
  · obtain ⟨decodes, exists_⟩ := queries workersQuery
    obtain ⟨data, encoded, -⟩ := exists_ (by decide +kernel)
    refine ⟨data, encoded, (decodes data encoded).2, fun other plain decoded => ?_⟩
    exact Option.some.inj ((queryData other workersQuery plain decoded).symm.trans encoded)

end PyElk
