import PyElk.Native.Properties
import PyElk.Reasoning.Saturated

namespace PyElk

/-- A told inclusion between property sequences: a chain or a property below a property. -/
def Tables.ToldInclusion (compiled : Tables) (sub super : List EntityId) : Prop :=
  ∃ row ∈ compiled.subpropertyAxioms, compiled.propertyChains[row.1]? = some sub ∧ super = [row.2]

/-- A property saturation is the exact closure of the told inclusions over its
universe of named properties and chain suffixes. -/
structure PropertySaturation.Exact (compiled : Tables) (properties : PropertySaturation) : Prop where
  interned : ∀ {chain}, chain < properties.chains.length →
    ∃ spelled, compiled.ChainSuffix spelled ∧ Spells properties.chains chain spelled
  complete : ∀ {spelled}, compiled.ChainSuffix spelled → ∃ chain, Spells properties.chains chain spelled
  faithful : ∀ {left right first second}, Spells properties.chains left first →
    Spells properties.chains right second → (left = right ↔ first = second)
  named : ∀ {property}, compiled.EntityOf property .objectProperty →
    Spells properties.chains (properties.singletonChain property) [property]
  compiledChain : ∀ {index : Nat} {chain}, compiled.propertyChains[index]? = some chain →
    Spells properties.chains (properties.compiledChain index) chain
  bounded : ∀ {sub super}, properties.Sub sub super →
    sub < properties.chains.length ∧ super < properties.chains.length
  closure : ∀ {sub super first second}, Spells properties.chains sub first →
    Spells properties.chains super second →
    (properties.Sub sub super ↔ Relation.ReflTransGen compiled.ToldInclusion first second)
  ranges : ∀ {property range}, range ∈ properties.ranges property ↔
    compiled.EntityOf property .objectProperty ∧ ∃ super, (super, range) ∈ compiled.propertyRanges ∧
      Relation.ReflTransGen compiled.ToldInclusion [property] [super]

section

variable {compiled : Tables} {properties : PropertySaturation} (spec : properties.Spec compiled)

include spec

variable (valid : compiled.Valid)

include valid

/-- A told row between ids is a told inclusion between the sequences they spell. -/
theorem PropertySaturation.Spec.inclusion_of_told {sub super : PropertyChainId} {first : List EntityId}
    (told : PropertySaturation.Told compiled properties sub super) (spells : Spells properties.chains sub first) :
    ∃ second, compiled.ToldInclusion first second ∧ Spells properties.chains super second := by
  obtain ⟨property, row, rfl⟩ := told
  obtain ⟨⟨index, found⟩, listed, same⟩ := List.mem_map.mp row
  simp only [Prod.mk.injEq] at same
  obtain ⟨rfl, rfl⟩ := same
  obtain ⟨bound, object⟩ := valid.subproperty_lt listed
  have entry := List.getElem?_eq_getElem bound
  obtain rfl := spells.unique (spec.compiledChain entry)
  exact ⟨[found], ⟨(index, found), listed, entry, rfl⟩, spec.spells_singleton object⟩

theorem PropertySaturation.Spec.told_of_inclusion {sub : PropertyChainId} {first second : List EntityId}
    (inclusion : compiled.ToldInclusion first second) (spells : Spells properties.chains sub first) :
    ∃ super, PropertySaturation.Told compiled properties sub super ∧ Spells properties.chains super second := by
  obtain ⟨⟨index, found⟩, listed, entry, rfl⟩ := inclusion
  obtain rfl := spells.injective spec.distinct (spec.compiledChain entry)
  exact ⟨_, ⟨found, List.mem_map.mpr ⟨(index, found), listed, rfl⟩, rfl⟩,
    spec.spells_singleton (valid.subproperty_lt listed).2⟩

theorem PropertySaturation.Spec.inclusions_of_steps {sub super : PropertyChainId} {first : List EntityId}
    (steps : Relation.ReflTransGen (PropertySaturation.Told compiled properties) sub super)
    (spells : Spells properties.chains sub first) :
    ∃ second, Relation.ReflTransGen compiled.ToldInclusion first second ∧ Spells properties.chains super second := by
  induction steps with
  | refl => exact ⟨first, .refl, spells⟩
  | tail _ told ih =>
    obtain ⟨middle, path, spelled⟩ := ih
    obtain ⟨second, inclusion, last⟩ := spec.inclusion_of_told valid told spelled
    exact ⟨second, path.tail inclusion, last⟩

theorem PropertySaturation.Spec.steps_of_inclusions {sub : PropertyChainId} {first second : List EntityId}
    (path : Relation.ReflTransGen compiled.ToldInclusion first second)
    (spells : Spells properties.chains sub first) :
    ∃ super, Relation.ReflTransGen (PropertySaturation.Told compiled properties) sub super ∧
      Spells properties.chains super second := by
  induction path with
  | refl => exact ⟨sub, .refl, spells⟩
  | tail _ inclusion ih =>
    obtain ⟨middle, steps, spelled⟩ := ih
    obtain ⟨super, told, last⟩ := spec.told_of_inclusion valid inclusion spelled
    exact ⟨super, steps.tail told, last⟩

/-- The saturated relation is the closure of the told inclusions. -/
theorem PropertySaturation.Spec.sub_iff_inclusions {sub super : PropertyChainId} {first second : List EntityId}
    (left : Spells properties.chains sub first) (right : Spells properties.chains super second) :
    properties.Sub sub super ↔ Relation.ReflTransGen compiled.ToldInclusion first second := by
  rw [spec.sub_iff]
  constructor
  · rintro ⟨_, steps⟩
    obtain ⟨reached, path, spelled⟩ := spec.inclusions_of_steps valid steps left
    exact spelled.unique right ▸ path
  · intro path
    obtain ⟨reached, steps, spelled⟩ := spec.steps_of_inclusions valid path left
    exact ⟨right.lt_length, spelled.injective spec.distinct right ▸ steps⟩

/-- The ranges of a property are the told ranges of its super-properties. -/
theorem PropertySaturation.Spec.ranges_iff_inclusions {property : EntityId} {range : ExpressionId} :
    range ∈ properties.ranges property ↔
      compiled.EntityOf property .objectProperty ∧ ∃ super, (super, range) ∈ compiled.propertyRanges ∧
        Relation.ReflTransGen compiled.ToldInclusion [property] [super] := by
  rw [spec.range_iff]
  constructor
  · rintro ⟨super, row, named⟩
    obtain ⟨object, below⟩ := spec.namedSub.mp named
    have above := spec.spells_singleton (valid.range_lt row).1
    exact ⟨object, super, row, (spec.sub_iff_inclusions valid (spec.spells_singleton object) above).mp below⟩
  · rintro ⟨object, super, row, path⟩
    have above := spec.spells_singleton (valid.range_lt row).1
    exact ⟨super, row, spec.namedSub.mpr
      ⟨object, (spec.sub_iff_inclusions valid (spec.spells_singleton object) above).mpr path⟩⟩

end

theorem closeProperties_exact {compiled : Tables} (valid : compiled.Valid) :
    (closeProperties compiled).Exact compiled where
  interned := closeProperties_interned valid
  complete := (closeProperties_spec valid).spells_suffix
  faithful := fun first second => ⟨fun same => first.unique (same ▸ second),
    fun same => first.injective (closeProperties_spec valid).distinct (same ▸ second)⟩
  named := (closeProperties_spec valid).spells_singleton
  compiledChain := (closeProperties_spec valid).compiledChain
  bounded := by
    intro sub super below
    have spec := closeProperties_spec valid
    refine ⟨?_, (spec.sub_iff.mp below).1⟩
    rcases (spec.sub_iff.mp below).2.cases_head with same | ⟨_, ⟨property, row, _⟩, _⟩
    · exact same ▸ (spec.sub_iff.mp below).1
    · obtain ⟨⟨index, found⟩, listed, equal⟩ := List.mem_map.mp row
      simp only [Prod.mk.injEq] at equal
      obtain ⟨rfl, rfl⟩ := equal
      exact (spec.compiledChain (List.getElem?_eq_getElem (valid.subproperty_lt listed).1)).lt_length
  closure := (closeProperties_spec valid).sub_iff_inclusions valid
  ranges := (closeProperties_spec valid).ranges_iff_inclusions valid

/-- Both backends compute the exact property closure of every valid ontology that leaves room for the
ids, and raise for all others. -/
theorem property_saturation_exact {compiled : Tables} (valid : compiled.Valid) :
    ((∃ properties, saturateProperties compiled = .ok properties) ↔ compiled.Numbered) ∧
    (∀ properties, saturateProperties compiled = .ok properties → properties.Exact compiled) ∧
    ((∃ properties, Native.buildPropertyClosure compiled = .ok properties) ↔
      compiled.chainSuffixes.length ≤ U32_RESERVED) ∧
    ∀ properties, Native.buildPropertyClosure compiled = .ok properties → properties.Exact compiled := by
  have python : ∀ {properties}, saturateProperties compiled = .ok properties ↔
      properties = closeProperties compiled ∧ compiled.Numbered := saturateProperties_ok valid
  have native : ∀ {properties}, Native.buildPropertyClosure compiled = .ok properties ↔
      properties = closeProperties compiled ∧ compiled.chainSuffixes.length ≤ U32_RESERVED :=
    Native.buildPropertyClosure_ok valid
  refine ⟨⟨fun ⟨_, returned⟩ => (python.mp returned).2, fun numbered => ⟨_, python.mpr ⟨rfl, numbered⟩⟩⟩, ?_,
    ⟨fun ⟨_, returned⟩ => (native.mp returned).2, fun room => ⟨_, native.mpr ⟨rfl, room⟩⟩⟩, ?_⟩
  · intro properties returned
    rw [(python.mp returned).1]
    exact closeProperties_exact valid
  · intro properties returned
    rw [(native.mp returned).1]
    exact closeProperties_exact valid

theorem property_saturation_exact_kinship :
    ∃ properties, saturateProperties kinshipOntology.toTables = .ok properties ∧
    properties.Exact kinshipOntology.toTables := by
  obtain ⟨returns, exact, _⟩ := property_saturation_exact kinshipOntology.valid
  have numbered : kinshipOntology.Numbered := by constructor <;> decide +kernel
  obtain ⟨properties, returned⟩ := returns.mpr numbered
  exact ⟨properties, returned, exact properties returned⟩

def relayEntities : List EntityRecord :=
  [⟨.owlClass, OWL_NOTHING_IRI⟩, ⟨.owlClass, OWL_THING_IRI⟩, ⟨.objectProperty, "ex:relaysTo"⟩,
    ⟨.objectProperty, OWL_BOTTOM_OBJECT_PROPERTY_IRI⟩, ⟨.objectProperty, OWL_TOP_OBJECT_PROPERTY_IRI⟩]

/-- One chain of `steps` times `ex:relaysTo` below `ex:relaysTo`. -/
def relayTables (steps : Nat) : Tables where
  entities := relayEntities
  expressions := [⟨.owlClass, [0], []⟩, ⟨.owlClass, [1], []⟩]
  expressionOccurrences := [⟨0, 0⟩, ⟨0, 0⟩]
  propertyOccurrences := [⟨steps, 1⟩, ⟨0, 0⟩, ⟨0, 0⟩]
  propertyChains := [List.replicate steps 2]
  subclassAxioms := []
  equivalentClassAxioms := []
  disjointGroups := []
  subpropertyAxioms := [(0, 2)]
  propertyRanges := []
  featureCounts := List.replicate 79 0
  sourceFingerprint := List.replicate 32 0

theorem relayTables_valid {steps : Nat} (nonempty : steps ≠ 0) (few : steps ≤ U64_MAX) :
    (relayTables steps).Valid where
  entities := (by decide : validateEntities relayEntities true)
  expressions := (by decide : validateExpressions [⟨.owlClass, [0], []⟩, ⟨.owlClass, [1], []⟩] relayEntities)
  named := (by decide : validateNamedEntityExpressions [⟨.owlClass, [0], []⟩, ⟨.owlClass, [1], []⟩] relayEntities)
  occurrences := by
    have properties : 3 = relayEntities.countP fun record => record.kind == .objectProperty := by decide
    have counted : decide (steps ≤ U64_MAX) = true := decide_eq_true few
    have single : 1 ≤ U64_MAX := by decide
    simp [relayTables, validateOccurrences, ← properties, counted, single]
  chains := by
    have object : validateEntityIndex relayEntities 2 .objectProperty := by decide
    simp [relayTables, validatePropertyChains, checkSortedUnique, nonempty, object]
  subclass := (by decide : validateSortedPairs [] 2 2)
  equivalent := (by decide : validateSortedPairs [] 2 2)
  disjoint := (by decide : validateDisjointGroups [] 2)
  subproperty := (by decide : validateSortedPairs [(0, 2)] 1 5)
  superProperty := (by decide : [(0, 2)].all fun row => validateEntityIndex relayEntities row.2 .objectProperty)
  ranges := (by decide : validateSortedPairs [] 5 2)
  rangeProperty := rfl
  features := (by decide : (List.replicate 79 0).length = FEATURE_VECTOR_LENGTH ∧
    ∀ count ∈ List.replicate 79 0, count ≤ U64_MAX)
  fingerprint := (by decide : (List.replicate 32 0).length = FINGERPRINT_SIZE)

/-- Every step of the chain has a suffix of its own. -/
theorem le_length_chainSuffixes_relay (steps : Nat) : steps ≤ (relayTables steps).chainSuffixes.length := by
  have distinct : ((List.range steps).map fun step => List.replicate (step + 1) (2 : EntityId)).Nodup := by
    refine List.nodup_range.map fun left right same => ?_
    have lengths := congrArg List.length same
    simpa using lengths
  have listed : (List.range steps).map (fun step => List.replicate (step + 1) (2 : EntityId)) ⊆
      (relayTables steps).chainSuffixes := by
    intro spelled member
    obtain ⟨step, bound, rfl⟩ := List.mem_map.mp member
    refine Tables.mem_chainSuffixes.mpr (Or.inr ⟨_, List.mem_singleton.mpr rfl, by simp, ?_⟩)
    have inside : step + 1 ≤ steps := List.mem_range.mp bound
    exact ⟨List.replicate (steps - (step + 1)) 2, by rw [← List.replicate_add, Nat.sub_add_cancel inside]⟩
  have count := (distinct.subperm listed).length_le
  rwa [List.length_map, List.length_range] at count

/-- A chain with `2 ^ 32` steps: both backends raise. -/
theorem property_saturation_raises :
    ∃ ontology : CompiledOntology, (∀ properties, saturateProperties ontology.toTables ≠ .ok properties) ∧
      ∀ properties, Native.buildPropertyClosure ontology.toTables ≠ .ok properties := by
  have valid : (relayTables (2 ^ 32)).Valid := relayTables_valid (by decide) (by decide)
  have many : 2 ^ 32 ≤ (relayTables (2 ^ 32)).chainSuffixes.length := le_length_chainSuffixes_relay _
  have full : U32_RESERVED < 2 ^ 32 := by decide
  refine ⟨⟨_, valid⟩, fun properties returned => ?_, fun properties returned => ?_⟩
  · have numbered := ((saturateProperties_ok valid).mp returned).2
    exact absurd numbered.chains (by omega)
  · have room := ((Native.buildPropertyClosure_ok valid).mp returned).2
    exact absurd room (by omega)

end PyElk
