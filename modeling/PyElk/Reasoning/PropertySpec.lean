import PyElk.Reasoning.PropertyClosure
import PyElk.Reasoning.Rules

open Ordered

namespace PyElk

/-- The derived sub-chain relation. -/
def PropertySaturation.Sub (properties : PropertySaturation) (sub super : PropertyChainId) : Prop :=
  (⟨sub, super⟩ : SubPropertyChain) ∈ properties.subpropertyChains

/-- The named property `property` is a derived sub-property of `chain`. -/
def PropertySaturation.NamedSub (properties : PropertySaturation) (property : EntityId)
    (chain : PropertyChainId) : Prop :=
  property ∈ properties.subProperties chain

/-- One told inclusion between local chains. -/
def PropertySaturation.Told (compiled : Tables) (properties : PropertySaturation)
    (sub super : PropertyChainId) : Prop :=
  ∃ property, (sub, property) ∈ compiled.toldSuperProperties properties ∧ super = properties.singletonChain property

/-- The chain `result` links `first` to `suffix`. -/
def PropertySaturation.Links (properties : PropertySaturation) (result : PropertyChainId) (first : EntityId)
    (suffix : PropertyChainId) : Prop :=
  properties.chains[result]? = some ⟨first, some suffix⟩

/-- A composition that a chain row and the full sub-property closure imply. -/
def PropertySaturation.Implied (properties : PropertySaturation) (left : EntityId)
    (right result : PropertyChainId) : Prop :=
  ∃ first suffix, properties.Links result first suffix ∧ properties.Sub right suffix ∧
    properties.NamedSub left (properties.singletonChain first)

/-- The omitted self-composition of a chain whose suffix is its own first property. -/
def PropertySaturation.Omitted (properties : PropertySaturation) (right result : PropertyChainId) : Prop :=
  ∃ first suffix, properties.Links result first suffix ∧ properties.singletonChain first = suffix ∧ right = result

/-- A composition with a complex right premise that re-associates to the left:
the left property composes with the right one's first property below `first`. -/
def PropertySaturation.Reassociated (properties : PropertySaturation) (left : EntityId)
    (right result : PropertyChainId) : Prop :=
  ∃ first suffix rightFirst rightSuffix complex complexFirst complexSuffix,
    properties.Links result first suffix ∧ properties.Links right rightFirst rightSuffix ∧
    properties.Sub rightSuffix suffix ∧
    properties.Links complex complexFirst complexSuffix ∧
    properties.Sub complex (properties.singletonChain first) ∧
    properties.NamedSub left (properties.singletonChain complexFirst) ∧
    properties.NamedSub rightFirst complexSuffix

/-- The specification of the property saturation of a valid ontology. -/
structure PropertySaturation.Spec (compiled : Tables) (properties : PropertySaturation) : Prop where
  distinct : properties.chains.Nodup
  property : ∀ record ∈ properties.chains, compiled.EntityOf record.firstProperty .objectProperty
  suffix_lt : ∀ {chain first suffix}, properties.Links chain first suffix → suffix < chain
  singleton : ∀ {property}, compiled.EntityOf property .objectProperty →
    properties.chains[properties.singletonChain property]? = some ⟨property, none⟩
  compiledChain : ∀ {index : Nat} {chain}, compiled.propertyChains[index]? = some chain →
    Spells properties.chains (properties.compiledChain index) chain
  sub_iff : ∀ {sub super}, properties.Sub sub super ↔
    super < properties.chains.length ∧ Relation.ReflTransGen (PropertySaturation.Told compiled properties) sub super
  range_iff : ∀ {property range}, range ∈ properties.ranges property ↔
    ∃ super, (super, range) ∈ compiled.propertyRanges ∧ properties.NamedSub property (properties.singletonChain super)

/-- The row of a super chain lists its sub-chains. -/
theorem PropertySaturation.mem_subChains {properties : PropertySaturation} {sub super : PropertyChainId} :
    sub ∈ properties.subChains super ↔ properties.Sub sub super := by
  simp only [subChains, List.mem_map, List.mem_filter, beq_iff_eq, Sub]
  constructor
  · rintro ⟨⟨_, _⟩, ⟨member, rfl⟩, rfl⟩
    exact member
  · intro member
    exact ⟨_, ⟨member, rfl⟩, rfl⟩

/-- The row of a sub-chain lists its super chains. -/
theorem PropertySaturation.mem_superChains {properties : PropertySaturation} {sub super : PropertyChainId} :
    super ∈ properties.superChains sub ↔ properties.Sub sub super := by
  simp only [superChains, List.mem_map, List.mem_filter, beq_iff_eq, Sub]
  constructor
  · rintro ⟨⟨_, _⟩, ⟨member, rfl⟩, rfl⟩
    exact member
  · intro member
    exact ⟨_, ⟨member, rfl⟩, rfl⟩

theorem named_eq_some {record : PropertyChainRecord} {property : EntityId} :
    record.named = some property ↔ record = ⟨property, none⟩ := by
  obtain ⟨first, suffix⟩ := record
  cases suffix <;> simp [PropertyChainRecord.named]

/-- A property below a chain is a sub-chain of one link. -/
theorem PropertySaturation.namedSub_iff {properties : PropertySaturation} {property : EntityId}
    {super : PropertyChainId} :
    properties.NamedSub property super ↔
      ∃ sub, properties.Sub sub super ∧ properties.chains[sub]? = some ⟨property, none⟩ := by
  simp only [NamedSub, subProperties, List.mem_filterMap, mem_subChains, Option.bind_eq_some_iff, named_eq_some]
  constructor
  · rintro ⟨sub, below, record, entry, rfl⟩
    exact ⟨sub, below, entry⟩
  · rintro ⟨sub, below, entry⟩
    exact ⟨sub, below, _, entry, rfl⟩

section

variable {compiled : Tables} {properties : PropertySaturation}

/-- A property has one chain of one link. -/
theorem PropertySaturation.Spec.singleton_unique (spec : properties.Spec compiled) {chain : PropertyChainId}
    {property : EntityId} (entry : properties.chains[chain]? = some ⟨property, none⟩) :
    chain = properties.singletonChain property := by
  have object := spec.property _ (List.mem_of_getElem? entry)
  refine (List.getElem?_inj (List.getElem?_eq_some_iff.mp entry).1 spec.distinct).mp ?_
  rw [entry, spec.singleton object]

/-- A chain has one first property and one suffix. -/
theorem PropertySaturation.Links.unique {result first other suffix link : Nat}
    (left : properties.Links result first suffix) (right : properties.Links result other link) :
    first = other ∧ suffix = link := by
  have same := Option.some.inj (left.symm.trans right)
  simp only [PropertyChainRecord.mk.injEq, Option.some.injEq] at same
  exact same

theorem PropertySaturation.Spec.namedSub (spec : properties.Spec compiled) {property : EntityId}
    {super : PropertyChainId} : properties.NamedSub property super ↔
      compiled.EntityOf property .objectProperty ∧ properties.Sub (properties.singletonChain property) super := by
  rw [namedSub_iff]
  constructor
  · rintro ⟨sub, below, entry⟩
    rw [← spec.singleton_unique entry]
    exact ⟨spec.property _ (List.mem_of_getElem? entry), below⟩
  · rintro ⟨object, below⟩
    exact ⟨_, below, spec.singleton object⟩

theorem PropertySaturation.Spec.sub_refl (spec : properties.Spec compiled) {chain : PropertyChainId}
    (bound : chain < properties.chains.length) : properties.Sub chain chain :=
  spec.sub_iff.mpr ⟨bound, .refl⟩

theorem PropertySaturation.Spec.sub_trans (spec : properties.Spec compiled) {first second third : PropertyChainId}
    (left : properties.Sub first second) (right : properties.Sub second third) : properties.Sub first third :=
  spec.sub_iff.mpr ⟨(spec.sub_iff.mp right).1, (spec.sub_iff.mp left).2.trans (spec.sub_iff.mp right).2⟩

end

/-- The lookups of a saturation in its closed hierarchy. -/
theorem PropertyHierarchy.mem_subchains {hierarchy : PropertyHierarchy} {sub super : PropertyChainId} :
    sub ∈ hierarchy.subchains super ↔ (⟨sub, super⟩ : SubPropertyChain) ∈ hierarchy.conclusions := by
  simp only [subchains, List.mem_map, List.mem_filter, beq_iff_eq]
  constructor
  · rintro ⟨⟨_, _⟩, ⟨member, rfl⟩, rfl⟩
    exact member
  · intro member
    exact ⟨_, ⟨member, rfl⟩, rfl⟩

section

variable {hierarchy : PropertyHierarchy} {explicit : List (EntityId × ExpressionId)}

theorem PropertyHierarchy.sub_iff {sub super : PropertyChainId} :
    (hierarchy.saturation explicit).Sub sub super ↔ sub ∈ hierarchy.subchains super := by
  rw [mem_subchains]
  exact mem_sortedSet

theorem PropertyHierarchy.namedSub_iff {property : EntityId} {super : PropertyChainId} :
    (hierarchy.saturation explicit).NamedSub property super ↔ property ∈ hierarchy.namedSubproperties super := by
  simp only [PropertySaturation.namedSub_iff, namedSubproperties, List.mem_filterMap, Option.bind_eq_some_iff,
    named_eq_some, sub_iff]
  constructor
  · rintro ⟨sub, below, entry⟩
    exact ⟨sub, below, _, entry, rfl⟩
  · rintro ⟨sub, below, record, entry, rfl⟩
    exact ⟨sub, below, entry⟩

/-- A property has the ranges told above it. -/
theorem PropertyHierarchy.range_iff {property : EntityId} {range : ExpressionId} :
    range ∈ (hierarchy.saturation explicit).ranges property ↔ ∃ super, (super, range) ∈ explicit ∧
      (hierarchy.saturation explicit).NamedSub property ((hierarchy.saturation explicit).singletonChain super) := by
  simp only [PropertySaturation.ranges, List.mem_map, List.mem_filter, beq_iff_eq]
  constructor
  · rintro ⟨row, ⟨member, rfl⟩, rfl⟩
    obtain ⟨⟨super, found⟩, listed, product⟩ := List.mem_flatMap.mp (mem_sortedSet.mp member)
    obtain ⟨sub, named, rfl⟩ := List.mem_map.mp product
    exact ⟨super, listed, namedSub_iff.mpr named⟩
  · rintro ⟨super, listed, named⟩
    refine ⟨⟨property, range⟩, ⟨mem_sortedSet.mpr ?_, rfl⟩, rfl⟩
    exact List.mem_flatMap.mpr ⟨(super, range), listed, List.mem_map.mpr ⟨property, namedSub_iff.mp named, rfl⟩⟩

end

section

variable {hierarchy : PropertyHierarchy} {explicit : List (EntityId × ExpressionId)}

theorem PropertyHierarchy.mem_leftSubcomposable {property left right : EntityId} :
    left ∈ hierarchy.leftSubcomposable property right ↔
      left ∈ hierarchy.namedSubproperties (hierarchy.chains.singletonChain property) ∧
      ∃ complex first suffix, hierarchy.chains.records[complex]? = some ⟨first, some suffix⟩ ∧
        complex ∈ hierarchy.subchains (hierarchy.chains.singletonChain property) ∧
        left ∈ hierarchy.namedSubproperties (hierarchy.chains.singletonChain first) ∧
        right ∈ hierarchy.namedSubproperties suffix := by
  simp only [leftSubcomposable, List.mem_flatMap]
  constructor
  · rintro ⟨complex, below, member⟩
    split at member
    · rename_i first suffix entry
      split at member
      · rename_i named
        obtain ⟨own, shared⟩ := List.mem_filter.mp member
        exact ⟨own, complex, first, suffix, entry, below, of_decide_eq_true shared, named⟩
      · exact absurd member List.not_mem_nil
    · exact absurd member List.not_mem_nil
  · rintro ⟨own, complex, first, suffix, entry, below, shared, named⟩
    refine ⟨complex, below, ?_⟩
    rw [entry]
    simp only [if_pos named]
    exact List.mem_filter.mpr ⟨own, decide_eq_true shared⟩

theorem PropertyHierarchy.mem_redundantLeft {first left : EntityId} {suffix right : PropertyChainId} :
    left ∈ hierarchy.redundantLeft first suffix right ↔ ∃ rightFirst rightSuffix,
      hierarchy.chains.records[right]? = some ⟨rightFirst, some rightSuffix⟩ ∧
      rightSuffix ∈ hierarchy.subchains suffix ∧ left ∈ hierarchy.leftSubcomposable first rightFirst := by
  unfold redundantLeft
  split
  · rename_i rightFirst rightSuffix entry
    split
    · rename_i below
      constructor
      · intro member
        exact ⟨rightFirst, rightSuffix, entry, below, member⟩
      · rintro ⟨other, link, same, _, member⟩
        rw [entry] at same
        cases same
        exact member
    · rename_i apart
      constructor
      · intro member
        exact absurd member List.not_mem_nil
      · rintro ⟨other, link, same, below, _⟩
        rw [entry] at same
        cases same
        exact absurd below apart
  · rename_i simple
    constructor
    · intro member
      exact absurd member List.not_mem_nil
    · rintro ⟨rightFirst, rightSuffix, entry, _, _⟩
      exact absurd entry (simple rightFirst rightSuffix)

/-- A composition that re-associates, in terms of the hierarchy's tables. -/
theorem PropertyHierarchy.reassociated_iff {left first : EntityId} {right result suffix : PropertyChainId}
    (links : (hierarchy.saturation explicit).Links result first suffix)
    (named : left ∈ hierarchy.namedSubproperties (hierarchy.chains.singletonChain first)) :
    left ∈ hierarchy.redundantLeft first suffix right ↔
      (hierarchy.saturation explicit).Reassociated left right result := by
  rw [mem_redundantLeft]
  constructor
  · rintro ⟨rightFirst, rightSuffix, entry, below, member⟩
    obtain ⟨_, complex, complexFirst, complexSuffix, complexEntry, complexBelow, shared, rightNamed⟩ :=
      mem_leftSubcomposable.mp member
    exact ⟨first, suffix, rightFirst, rightSuffix, complex, complexFirst, complexSuffix, links, entry,
      sub_iff.mpr below, complexEntry, sub_iff.mpr complexBelow, namedSub_iff.mpr shared,
      namedSub_iff.mpr rightNamed⟩
  · rintro ⟨other, link, rightFirst, rightSuffix, complex, complexFirst, complexSuffix, same, entry, below,
      complexEntry, complexBelow, shared, rightNamed⟩
    obtain ⟨rfl, rfl⟩ := links.unique same
    exact ⟨rightFirst, rightSuffix, entry, sub_iff.mp below, mem_leftSubcomposable.mpr
      ⟨named, complex, complexFirst, complexSuffix, complexEntry, sub_iff.mp complexBelow,
        namedSub_iff.mp shared, namedSub_iff.mp rightNamed⟩⟩

/-- The candidate compositions with their redundancy marks. -/
theorem PropertyHierarchy.mem_computeCompositions {left : EntityId} {right result : PropertyChainId}
    {redundant : Bool} :
    (⟨left, right, result⟩, redundant) ∈ hierarchy.computeCompositions ↔
      (hierarchy.saturation explicit).Implied left right result ∧
      ¬ (hierarchy.saturation explicit).Omitted right result ∧
      (redundant = true ↔ (hierarchy.saturation explicit).Reassociated left right result) := by
  simp only [computeCompositions, List.mem_flatMap, Prod.exists]
  constructor
  · rintro ⟨⟨first, link⟩, index, entry, member⟩
    cases link with
    | none => exact absurd member List.not_mem_nil
    | some suffix =>
      obtain ⟨other, below, member⟩ := List.mem_flatMap.mp member
      split at member
      · exact absurd member List.not_mem_nil
      · rename_i kept
        obtain ⟨_, named, same⟩ := List.mem_map.mp member
        simp only [Prod.mk.injEq, PropertyComposition.mk.injEq] at same
        obtain ⟨⟨rfl, rfl, rfl⟩, rfl⟩ := same
        have links : (hierarchy.saturation explicit).Links index first suffix :=
          List.mem_zipIdx_iff_getElem?.mp entry
        refine ⟨⟨first, suffix, links, sub_iff.mpr below, namedSub_iff.mpr named⟩, ?_, ?_⟩
        · rintro ⟨_, _, again, own, equal⟩
          obtain ⟨rfl, rfl⟩ := links.unique again
          exact kept ⟨own, equal⟩
        · rw [decide_eq_true_eq]
          exact reassociated_iff links named
  · rintro ⟨⟨first, suffix, links, below, named⟩, kept, mark⟩
    refine ⟨⟨first, some suffix⟩, result, List.mem_zipIdx_iff_getElem?.mpr links, ?_⟩
    refine List.mem_flatMap.mpr ⟨right, sub_iff.mp below, ?_⟩
    have own : ¬ (hierarchy.chains.singletonChain first = suffix ∧ right = result) :=
      fun ⟨own, equal⟩ => kept ⟨first, suffix, links, own, equal⟩
    rw [if_neg own]
    refine List.mem_map.mpr ⟨left, namedSub_iff.mp named, ?_⟩
    rw [Prod.mk.injEq]
    refine ⟨rfl, Bool.eq_iff_iff.mpr ?_⟩
    rw [mark, decide_eq_true_eq]
    exact reassociated_iff links (namedSub_iff.mp named)

/-- An implied composition that is not omitted is marked once, as redundant when it is reassociated. -/
theorem PropertyHierarchy.mem_marked (explicit : List (EntityId × ExpressionId)) {left : EntityId}
    {right result : PropertyChainId} {redundant : Bool} :
    (⟨left, right, result⟩ : PropertyComposition) ∈ hierarchy.marked redundant ↔
      (hierarchy.saturation explicit).Implied left right result ∧
      ¬ (hierarchy.saturation explicit).Omitted right result ∧
      (redundant = true ↔ (hierarchy.saturation explicit).Reassociated left right result) := by
  rw [← mem_computeCompositions]
  simp only [marked, List.mem_map, List.mem_filter, beq_iff_eq, Prod.exists]
  constructor
  · rintro ⟨_, _, ⟨member, rfl⟩, rfl⟩
    exact member
  · intro member
    exact ⟨_, _, ⟨member, rfl⟩, rfl⟩

/-- The table of kept compositions. -/
theorem PropertyHierarchy.compositions_iff {redundant : Bool} {left : EntityId} {right result : PropertyChainId} :
    result ∈ (hierarchy.saturation explicit).compositions redundant left right ↔
      (hierarchy.saturation explicit).Implied left right result ∧
      ¬ (hierarchy.saturation explicit).Omitted right result ∧
      (redundant = true ↔ (hierarchy.saturation explicit).Reassociated left right result) := by
  rw [← mem_marked explicit]
  have lookup : result ∈ (hierarchy.saturation explicit).compositions redundant left right ↔
      (⟨left, right, result⟩ : PropertyComposition) ∈ (hierarchy.saturation explicit).table redundant := by
    simp only [PropertySaturation.compositions, List.mem_map, List.mem_filter, Bool.and_eq_true, beq_iff_eq]
    constructor
    · rintro ⟨⟨_, _, _⟩, ⟨member, rfl, rfl⟩, rfl⟩
      exact member
    · intro member
      exact ⟨_, ⟨member, rfl, rfl⟩, rfl⟩
  rw [lookup]
  cases redundant with
  | true => exact mem_sortedSet
  | false =>
    refine mem_sortedSet.trans (List.mem_filter.trans ⟨fun both => both.1, fun member => ⟨member, ?_⟩⟩)
    refine decide_eq_true fun marked => ?_
    -- the mark of a composition is a function of the composition
    have unmarked := (mem_marked explicit).mp member
    have reassociated := (mem_marked explicit).mp marked
    exact absurd (unmarked.2.2.mpr (reassociated.2.2.mp rfl)) Bool.false_ne_true

end

/-- The closure composes what is implied and not omitted, as redundant what is reassociated. -/
theorem closeProperties_compositions {compiled : Tables} {redundant : Bool} {left : EntityId}
    {right result : PropertyChainId} :
    result ∈ (closeProperties compiled).compositions redundant left right ↔
      (closeProperties compiled).Implied left right result ∧
      ¬ (closeProperties compiled).Omitted right result ∧
      (redundant = true ↔ (closeProperties compiled).Reassociated left right result) :=
  PropertyHierarchy.compositions_iff

/-- The told rows are rows over the chain table. -/
theorem ChainUniverse.Sound.told_lt {compiled : Tables} {chains : ChainUniverse} (valid : compiled.Valid)
    (sound : chains.Sound compiled) :
    ∀ row ∈ chains.toldSubchains compiled, row.1 < chains.records.length ∧ row.2 < chains.records.length := by
  have length_of_spells : ∀ {chain : Nat} {properties}, Spells chains.records chain properties →
      chain < chains.records.length := by
    intro chain properties spells
    cases spells with
    | singleton entry => exact (List.getElem?_eq_some_iff.mp entry).1
    | link entry _ => exact (List.getElem?_eq_some_iff.mp entry).1
  intro row member
  obtain ⟨⟨chain, super⟩, listed, rfl⟩ := List.mem_map.mp member
  obtain ⟨bound, object⟩ := valid.subproperty_lt listed
  exact ⟨(List.getElem?_eq_some_iff.mp (sound.singleton object)).1,
    length_of_spells (sound.compiled (List.getElem?_eq_getElem bound))⟩

/-- `saturate_properties` meets its specification on every valid ontology. -/
theorem closeProperties_spec {compiled : Tables} (valid : compiled.Valid) :
    (closeProperties compiled).Spec compiled := by
  have sound := chainUniverse_sound valid (-1)
  have toldBound := sound.told_lt valid
  refine ⟨sound.distinct, sound.property, sound.suffix_lt, sound.singleton, sound.compiled, ?_,
    PropertyHierarchy.range_iff⟩
  intro sub super
  rw [closeProperties, PropertyHierarchy.sub_iff, PropertyHierarchy.mem_subchains,
    closeSubPropertyChains_iff toldBound]
  refine and_congr Iff.rfl ?_
  have same : (fun sub super => (super, sub) ∈ (chainUniverse (-1) compiled).toldSubchains compiled) =
      PropertySaturation.Told compiled (closeProperties compiled) := by
    funext sub super
    refine propext ⟨fun member => ?_, ?_⟩
    · obtain ⟨⟨chain, property⟩, listed, equal⟩ := List.mem_map.mp member
      cases equal
      exact ⟨property, List.mem_map.mpr ⟨(chain, property), listed, rfl⟩, rfl⟩
    · rintro ⟨property, told, rfl⟩
      obtain ⟨⟨chain, other⟩, listed, equal⟩ := List.mem_map.mp told
      cases equal
      exact List.mem_map.mpr ⟨(chain, other), listed, rfl⟩
  rw [same]
  rfl

end PyElk
