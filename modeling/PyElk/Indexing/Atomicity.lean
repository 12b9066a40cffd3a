import PyElk.Indexing.Assembly
import PyElk.Indexing.Mutation

open Raising

namespace PyElk

/-- Occurrences are compared counter by counter. -/
instance : PartialOrder Occurrence :=
  PartialOrder.lift (fun counts => (counts.negative, counts.positive)) fun left right same => by
    cases left
    cases right
    cases same
    rfl

/-- What was found before is found after, and has not become smaller. -/
def Raised {α : Type} [LE α] (before after : Option α) : Prop :=
  ∀ value, before = some value → ∃ more, after = some more ∧ value ≤ more

section

variable {α : Type} [PartialOrder α] {first second third : Option α}

theorem Raised.refl (found : Option α) : Raised found found := fun value same => ⟨value, same, le_rfl⟩

/-- Counters that are raised twice are raised. -/
theorem Raised.trans (left : Raised first second) (right : Raised second third) : Raised first third := by
  intro value found
  obtain ⟨more, found', le⟩ := left value found
  obtain ⟨most, found'', le'⟩ := right more found'
  exact ⟨most, found'', le.trans le'⟩

/-- Counters that are raised both ways are equal. -/
theorem Raised.antisymm (left : Raised first second) (right : Raised second first) : first = second := by
  cases first with
  | none =>
    cases second with
    | none => rfl
    | some value =>
      obtain ⟨_, missing, -⟩ := right value rfl
      cases missing
  | some value =>
    obtain ⟨more, rfl, le⟩ := left value rfl
    obtain ⟨_, same, le'⟩ := right more rfl
    cases same
    rw [le_antisymm le le']

end

namespace MutableIndex

/-- Every table of the first index is part of the same table of the second. -/
structure Within (index later : MutableIndex) : Prop where
  entities : index.entities ⊆ later.entities
  expressions : index.expressions <+: later.expressions
  counts : ∀ handle : Nat, Raised index.expressionOccurrences[handle]? later.expressionOccurrences[handle]?
  properties : ∀ property, Raised (index.propertyOccurrences.lookup property)
    (later.propertyOccurrences.lookup property)
  chains : index.propertyChains ⊆ later.propertyChains
  subclass : index.subclassAxioms ⊆ later.subclassAxioms
  equivalent : index.equivalentClassAxioms ⊆ later.equivalentClassAxioms
  disjoint : index.disjointGroups ⊆ later.disjointGroups
  subproperty : index.subpropertyAxioms ⊆ later.subpropertyAxioms
  ranges : index.propertyRanges ⊆ later.propertyRanges
  features : ∀ position : Nat, Raised index.featureCounts[position]? later.featureCounts[position]?

theorem Within.refl (index : MutableIndex) : index.Within index where
  entities := List.Subset.refl _
  expressions := List.prefix_rfl
  counts _ := .refl _
  properties _ := .refl _
  chains := List.Subset.refl _
  subclass := List.Subset.refl _
  equivalent := List.Subset.refl _
  disjoint := List.Subset.refl _
  subproperty := List.Subset.refl _
  ranges := List.Subset.refl _
  features _ := .refl _

/-- Growth in two steps is growth. -/
theorem Within.trans {index later last : MutableIndex} (first : index.Within later) (second : later.Within last) :
    index.Within last where
  entities := List.Subset.trans first.entities second.entities
  expressions := first.expressions.trans second.expressions
  counts handle := (first.counts handle).trans (second.counts handle)
  properties property := (first.properties property).trans (second.properties property)
  chains := List.Subset.trans first.chains second.chains
  subclass := List.Subset.trans first.subclass second.subclass
  equivalent := List.Subset.trans first.equivalent second.equivalent
  disjoint := List.Subset.trans first.disjoint second.disjoint
  subproperty := List.Subset.trans first.subproperty second.subproperty
  ranges := List.Subset.trans first.ranges second.ranges
  features position := (first.features position).trans (second.features position)

instance : Preorder MutableIndex where
  le := Within
  le_refl := Within.refl
  le_trans _ _ _ := Within.trans

/-- The same builder: the lists of the source agree, and its sets and dictionaries have the same entries. -/
structure Same (index other : MutableIndex) : Prop where
  entities : ∀ entity, entity ∈ index.entities ↔ entity ∈ other.entities
  expressions : index.expressions = other.expressions
  expressionOccurrences : index.expressionOccurrences = other.expressionOccurrences
  propertyOccurrences : ∀ property, index.propertyOccurrences.lookup property =
    other.propertyOccurrences.lookup property
  propertyChains : ∀ chain, chain ∈ index.propertyChains ↔ chain ∈ other.propertyChains
  subclassAxioms : ∀ row, row ∈ index.subclassAxioms ↔ row ∈ other.subclassAxioms
  equivalentClassAxioms : ∀ row, row ∈ index.equivalentClassAxioms ↔ row ∈ other.equivalentClassAxioms
  disjointGroups : ∀ group, group ∈ index.disjointGroups ↔ group ∈ other.disjointGroups
  subpropertyAxioms : ∀ row, row ∈ index.subpropertyAxioms ↔ row ∈ other.subpropertyAxioms
  propertyRanges : ∀ row, row ∈ index.propertyRanges ↔ row ∈ other.propertyRanges
  featureCounts : index.featureCounts = other.featureCounts

/-- Two builders have the same content when each of them is within the other. -/
theorem same_iff {index other : MutableIndex} : index.Same other ↔ AntisymmRel (· ≤ ·) index other := by
  constructor
  · intro same
    have forth : index.Within other :=
      ⟨fun _ => (same.entities _).mp, same.expressions ▸ List.prefix_rfl,
        fun _ => same.expressionOccurrences ▸ .refl _,
        fun property => same.propertyOccurrences property ▸ .refl _, fun _ => (same.propertyChains _).mp,
        fun _ => (same.subclassAxioms _).mp, fun _ => (same.equivalentClassAxioms _).mp,
        fun _ => (same.disjointGroups _).mp, fun _ => (same.subpropertyAxioms _).mp,
        fun _ => (same.propertyRanges _).mp,
        fun _ => same.featureCounts ▸ .refl _⟩
    have back : other.Within index :=
      ⟨fun _ => (same.entities _).mpr, same.expressions ▸ List.prefix_rfl,
        fun _ => same.expressionOccurrences ▸ .refl _,
        fun property => same.propertyOccurrences property ▸ .refl _, fun _ => (same.propertyChains _).mpr,
        fun _ => (same.subclassAxioms _).mpr, fun _ => (same.equivalentClassAxioms _).mpr,
        fun _ => (same.disjointGroups _).mpr, fun _ => (same.subpropertyAxioms _).mpr,
        fun _ => (same.propertyRanges _).mpr, fun _ => same.featureCounts ▸ .refl _⟩
    exact ⟨forth, back⟩
  · rintro ⟨forth, back⟩
    exact ⟨fun _ => ⟨@forth.entities _, @back.entities _⟩,
      forth.expressions.eq_of_length_le back.expressions.length_le,
      List.ext_getElem? fun handle => (forth.counts handle).antisymm (back.counts handle),
      fun property => (forth.properties property).antisymm (back.properties property),
      fun _ => ⟨@forth.chains _, @back.chains _⟩, fun _ => ⟨@forth.subclass _, @back.subclass _⟩,
      fun _ => ⟨@forth.equivalent _, @back.equivalent _⟩, fun _ => ⟨@forth.disjoint _, @back.disjoint _⟩,
      fun _ => ⟨@forth.subproperty _, @back.subproperty _⟩, fun _ => ⟨@forth.ranges _, @back.ranges _⟩,
      List.ext_getElem? fun position => (forth.features position).antisymm (back.features position)⟩

section

variable {index target : MutableIndex}

theorem Same.refl (index : MutableIndex) : index.Same index := same_iff.mpr ⟨le_rfl, le_rfl⟩

/-- A builder grows when the counters of an expression are raised. -/
theorem le_setCounts {handle : Nat} {counts : Occurrence}
    (more : index.expressionOccurrences.getD handle ⟨0, 0⟩ ≤ counts) :
    index ≤ index.setCounts handle counts := by
  refine { Within.refl index with counts := fun other current found => ?_ }
  by_cases here : handle = other
  · subst here
    have inside := (List.getElem?_eq_some_iff.mp found).1
    rw [List.getD_eq_getElem?_getD, found, Option.getD_some] at more
    exact ⟨counts, List.getElem?_set_self inside, more⟩
  · exact ⟨current, (List.getElem?_set_ne here).trans found, le_rfl⟩

/-- Writing the counters of a handle leaves a builder as it was when they were there before. -/
theorem setCounts_same {handle : Nat} {counts : Occurrence} (bound : handle < target.expressionOccurrences.length)
    (same : AntisymmRel (· ≤ ·) index target) : AntisymmRel (· ≤ ·) (index.setCounts handle counts) target ↔
      target.expressionOccurrences.getD handle ⟨0, 0⟩ = counts := by
  have equal := same_iff.mpr same
  rw [← same_iff]
  constructor
  · intro kept
    have row : index.expressionOccurrences.set handle counts = target.expressionOccurrences :=
      kept.expressionOccurrences
    rw [← row, List.getD_eq_getElem?_getD, List.getElem?_set_self (equal.expressionOccurrences ▸ bound),
      Option.getD_some]
  · rintro rfl
    refine { equal with expressionOccurrences := ?_ }
    change index.expressionOccurrences.set handle _ = _
    rw [equal.expressionOccurrences, List.getD_eq_getElem?_getD, List.getElem?_eq_getElem bound, Option.getD_some,
      List.set_getElem_self]

/-- The counters of one property are set, those of the others stay. -/
theorem lookup_setProperty (property other : EntityRecord) (counts : Occurrence) :
    (index.setProperty property counts).propertyOccurrences.lookup other =
      if other = property then some counts else index.propertyOccurrences.lookup other :=
  Ordered.lookup_setItem

/-- A builder grows when the counters of a property are raised. -/
theorem le_setProperty {property : EntityRecord} {counts : Occurrence}
    (more : (index.propertyOccurrences.lookup property).getD ⟨0, 0⟩ ≤ counts) :
    index ≤ index.setProperty property counts := by
  refine { Within.refl index with properties := fun other current found => ?_ }
  rw [lookup_setProperty]
  by_cases here : other = property
  · subst here
    rw [found, Option.getD_some] at more
    exact ⟨counts, if_pos rfl, more⟩
  · exact ⟨current, (if_neg here).trans found, le_rfl⟩

/-- Setting the counters of a property changes nothing exactly when it had these counters. -/
theorem setProperty_same {property : EntityRecord} {counts : Occurrence} (same : AntisymmRel (· ≤ ·) index target) :
    AntisymmRel (· ≤ ·) (index.setProperty property counts) target ↔
      target.propertyOccurrences.lookup property = some counts := by
  have equal := same_iff.mpr same
  rw [← same_iff]
  constructor
  · intro kept
    rw [← kept.propertyOccurrences, lookup_setProperty, if_pos rfl]
  · intro found
    refine { equal with propertyOccurrences := fun other => ?_ }
    rw [lookup_setProperty]
    by_cases here : other = property
    · rw [if_pos here, here, found]
    · rw [if_neg here, equal.propertyOccurrences]

/-- A builder grows by interning. -/
theorem le_intern (key : ExpressionKey) : index ≤ index.intern key := by
  unfold intern
  dsimp only
  split
  · exact { Within.refl index with entities := List.subset_append_left _ _ }
  · refine { Within.refl index with
      entities := List.subset_append_left _ _
      expressions := List.prefix_append _ _
      counts := fun handle counts found => ⟨counts, ?_, le_rfl⟩ }
    exact (List.getElem?_append_left (List.getElem?_eq_some_iff.mp found).1).trans found

/-- Interning a key leaves a builder as it was when the key and its entities are there. -/
theorem intern_same {key : ExpressionKey} (same : AntisymmRel (· ≤ ·) index target) :
    AntisymmRel (· ≤ ·) (index.intern key) target ↔ key ∈ target.expressions ∧ key.entities ⊆ target.entities := by
  have equal := same_iff.mpr same
  rw [← same_iff]
  constructor
  · intro kept
    have joined : (index.intern key).entities = index.entities ++ key.entities := by
      unfold intern
      dsimp only
      split <;> rfl
    refine ⟨?_, fun entity member => (kept.entities entity).mp (joined ▸ List.mem_append_right _ member)⟩
    rw [← kept.expressions]
    exact List.mem_of_getElem? (index.intern_key key)
  · rintro ⟨present, known⟩
    have stays : index.intern key = { index with entities := index.entities ++ key.entities } :=
      if_pos (equal.expressions ▸ present)
    rw [stays]
    refine { equal with entities := fun entity => ?_ }
    change entity ∈ index.entities ++ key.entities ↔ entity ∈ target.entities
    rw [List.mem_append, equal.entities]
    exact or_iff_left_of_imp (@known entity)

/-- Rows appended to a set leave it as it was when they were there before. -/
theorem append_same {α : Type} {rows others more : List α} (same : ∀ row, row ∈ rows ↔ row ∈ others) :
    (∀ row, row ∈ rows ++ more ↔ row ∈ others) ↔ more ⊆ others := by
  constructor
  · intro kept row member
    exact (kept row).mp (List.mem_append_right _ member)
  · intro known row
    rw [List.mem_append, same]
    exact or_iff_left_of_imp (@known row)

section

variable (same : AntisymmRel (· ≤ ·) index target)

include same

/-- Adding entities changes nothing exactly when they are all there. -/
theorem appendEntities_same (rows : List EntityRecord) :
    AntisymmRel (· ≤ ·) (appendEntities rows index) target ↔ rows ⊆ target.entities := by
  have equal := same_iff.mpr same
  rw [← same_iff, ← append_same equal.entities]
  exact ⟨Same.entities, fun kept => { equal with entities := kept }⟩

/-- Adding chains changes nothing exactly when they are all there. -/
theorem appendChains_same (rows : List (List EntityRecord)) :
    AntisymmRel (· ≤ ·) (appendChains rows index) target ↔ rows ⊆ target.propertyChains := by
  have equal := same_iff.mpr same
  rw [← same_iff, ← append_same equal.propertyChains]
  exact ⟨Same.propertyChains, fun kept => { equal with propertyChains := kept }⟩

/-- Adding subclass rows changes nothing exactly when they are all there. -/
theorem appendSubclass_same (rows : List (Nat × Nat)) :
    AntisymmRel (· ≤ ·) (appendSubclass rows index) target ↔ rows ⊆ target.subclassAxioms := by
  have equal := same_iff.mpr same
  rw [← same_iff, ← append_same equal.subclassAxioms]
  exact ⟨Same.subclassAxioms, fun kept => { equal with subclassAxioms := kept }⟩

theorem appendEquivalent_same (rows : List (Nat × Nat)) :
    AntisymmRel (· ≤ ·) (appendEquivalent rows index) target ↔ rows ⊆ target.equivalentClassAxioms := by
  have equal := same_iff.mpr same
  rw [← same_iff, ← append_same equal.equivalentClassAxioms]
  exact ⟨Same.equivalentClassAxioms, fun kept => { equal with equivalentClassAxioms := kept }⟩

theorem appendDisjoint_same (rows : List (List Nat)) :
    AntisymmRel (· ≤ ·) (appendDisjoint rows index) target ↔ rows ⊆ target.disjointGroups := by
  have equal := same_iff.mpr same
  rw [← same_iff, ← append_same equal.disjointGroups]
  exact ⟨Same.disjointGroups, fun kept => { equal with disjointGroups := kept }⟩

theorem appendSubproperty_same (rows : List (List EntityRecord × EntityRecord)) :
    AntisymmRel (· ≤ ·) (appendSubproperty rows index) target ↔ rows ⊆ target.subpropertyAxioms := by
  have equal := same_iff.mpr same
  rw [← same_iff, ← append_same equal.subpropertyAxioms]
  exact ⟨Same.subpropertyAxioms, fun kept => { equal with subpropertyAxioms := kept }⟩

theorem appendRanges_same (rows : List (EntityRecord × Nat)) :
    AntisymmRel (· ≤ ·) (appendRanges rows index) target ↔ rows ⊆ target.propertyRanges := by
  have equal := same_iff.mpr same
  rw [← same_iff, ← append_same equal.propertyRanges]
  exact ⟨Same.propertyRanges, fun kept => { equal with propertyRanges := kept }⟩

end

/-- A builder grows when rows are added to one of its tables. -/
theorem le_appendEntities (rows : List EntityRecord) : index ≤ appendEntities rows index :=
  { Within.refl index with entities := List.subset_append_left _ _ }

theorem le_appendChains (rows : List (List EntityRecord)) : index ≤ appendChains rows index :=
  { Within.refl index with chains := List.subset_append_left _ _ }

theorem le_appendSubclass (rows : List (Nat × Nat)) : index ≤ appendSubclass rows index :=
  { Within.refl index with subclass := List.subset_append_left _ _ }

theorem le_appendEquivalent (rows : List (Nat × Nat)) : index ≤ appendEquivalent rows index :=
  { Within.refl index with equivalent := List.subset_append_left _ _ }

theorem le_appendDisjoint (rows : List (List Nat)) : index ≤ appendDisjoint rows index :=
  { Within.refl index with disjoint := List.subset_append_left _ _ }

theorem le_appendSubproperty (rows : List (List EntityRecord × EntityRecord)) :
    index ≤ appendSubproperty rows index :=
  { Within.refl index with subproperty := List.subset_append_left _ _ }

theorem le_appendRanges (rows : List (EntityRecord × Nat)) : index ≤ appendRanges rows index :=
  { Within.refl index with ranges := List.subset_append_left _ _ }

/-- A builder grows when the counter of a feature is raised. -/
theorem le_setFeature {position current count : Nat} (found : index.featureCounts[position]? = some current)
    (more : current ≤ count) : index ≤ { index with featureCounts := index.featureCounts.set position count } := by
  refine { Within.refl index with features := fun other value entry => ?_ }
  by_cases here : position = other
  · subst here
    cases found.symm.trans entry
    exact ⟨count, List.getElem?_set_self (List.getElem?_eq_some_iff.mp found).1, more⟩
  · exact ⟨value, (List.getElem?_set_ne here).trans entry, le_rfl⟩

/-- Setting the counter of a feature changes nothing exactly when it had that count. -/
theorem setFeature_same {position current count : Nat} (same : AntisymmRel (· ≤ ·) index target)
    (found : target.featureCounts[position]? = some current) :
    AntisymmRel (· ≤ ·) { index with featureCounts := index.featureCounts.set position count } target ↔
      current = count := by
  have equal := same_iff.mpr same
  rw [← same_iff]
  constructor
  · intro kept
    have row : index.featureCounts.set position count = target.featureCounts := kept.featureCounts
    have here := (List.getElem?_eq_some_iff.mp found).1
    rw [← row, List.getElem?_set_self (equal.featureCounts ▸ here)] at found
    exact (Option.some.inj found).symm
  · rintro rfl
    refine { equal with featureCounts := ?_ }
    change index.featureCounts.set position current = _
    obtain ⟨here, rfl⟩ := List.getElem?_eq_some_iff.mp found
    rw [equal.featureCounts, List.set_getElem_self]

end

end MutableIndex

/-- An addition that raises before it has changed a counter. -/
def Occurrence.Exceeds (current increment : Occurrence) : Prop :=
  U64_MAX < current.negative + increment.negative ∨
    increment.negative = 0 ∧ U64_MAX < current.positive + increment.positive

theorem Occurrence.eq_zero_of_add {current counts : Occurrence} (same : current + counts = current) : counts = 0 :=
  Occurrence.ext (Nat.add_eq_left.mp (congrArg Occurrence.negative same))
    (Nat.add_eq_left.mp (congrArg Occurrence.positive same))

theorem Occurrence.Fits.not_exceeds {counts : Occurrence} (fits : counts.Fits) : ¬counts.Exceeds 0 := by
  rintro (more | ⟨-, more⟩)
  · exact absurd fits.1 (Nat.not_le.mpr more)
  · exact absurd fits.2 (Nat.not_le.mpr more)

namespace Mutation

section

variable {index target : MutableIndex}

/-- The negative counter is written before the positive one can raise. -/
theorem countExpression_apply (handle : Nat) (counts : Occurrence) (index : MutableIndex) :
    countExpression handle counts index =
      let current := index.expressionOccurrences.getD handle ⟨0, 0⟩
      if current.negative + counts.negative ≤ U64_MAX then
        if current.positive + counts.positive ≤ U64_MAX then (.ok (), index.setCounts handle (current + counts))
        else (.error (.overflowError "positive expression occurrence"),
          index.setCounts handle ⟨current.negative + counts.negative, current.positive⟩)
      else (.error (.overflowError "negative expression occurrence"), index) := by
  change (checkedAdd (index.expressionOccurrences.getD handle ⟨0, 0⟩).negative counts.negative _ >>=
    fun _ => _) index = _
  dsimp only
  by_cases first : (index.expressionOccurrences.getD handle ⟨0, 0⟩).negative + counts.negative ≤ U64_MAX
  · rw [if_pos first, bind_ok ((checkedAdd_apply _ _ _ _).trans (if_pos first))]
    change (checkedAdd (index.expressionOccurrences.getD handle ⟨0, 0⟩).positive counts.positive _ >>= fun _ => _)
      (index.setCounts handle _) = _
    by_cases second : (index.expressionOccurrences.getD handle ⟨0, 0⟩).positive + counts.positive ≤ U64_MAX
    · rw [if_pos second, bind_ok ((checkedAdd_apply _ _ _ _).trans (if_pos second))]
      change (Except.ok (), (index.setCounts handle _).setCounts handle _) = _
      rw [MutableIndex.setCounts, MutableIndex.setCounts, MutableIndex.setCounts, List.set_set]
      rfl
    · rw [if_neg second, bind_error ((checkedAdd_apply _ _ _ _).trans (if_neg second))]
  · rw [if_neg first, bind_error ((checkedAdd_apply _ _ _ _).trans (if_neg first))]

theorem countProperty_apply (property : EntityRecord) (counts : Occurrence) (index : MutableIndex) :
    countProperty property counts index =
      let current := (index.propertyOccurrences.lookup property).getD ⟨0, 0⟩
      if current.negative + counts.negative ≤ U64_MAX then
        if current.positive + counts.positive ≤ U64_MAX then (.ok (), index.setProperty property (current + counts))
        else (.error (.overflowError "positive property occurrence"),
          index.setProperty property ⟨current.negative + counts.negative, current.positive⟩)
      else (.error (.overflowError "negative property occurrence"), index.setProperty property current) := by
  change (checkedAdd ((index.propertyOccurrences.lookup property).getD ⟨0, 0⟩).negative counts.negative
    _ >>= fun _ => _)
    (index.setProperty property _) = _
  dsimp only
  by_cases first : ((index.propertyOccurrences.lookup property).getD ⟨0, 0⟩).negative + counts.negative ≤ U64_MAX
  · rw [if_pos first, bind_ok ((checkedAdd_apply _ _ _ _).trans (if_pos first))]
    change (checkedAdd ((index.propertyOccurrences.lookup property).getD ⟨0, 0⟩).positive counts.positive
      _ >>= fun _ => _)
      ((index.setProperty property _).setProperty property _) = _
    rw [setProperty_twice]
    by_cases second : ((index.propertyOccurrences.lookup property).getD ⟨0, 0⟩).positive + counts.positive ≤ U64_MAX
    · rw [if_pos second, bind_ok ((checkedAdd_apply _ _ _ _).trans (if_pos second))]
      change (Except.ok (), (index.setProperty property _).setProperty property _) = _
      rw [setProperty_twice]
      rfl
    · rw [if_neg second, bind_error ((checkedAdd_apply _ _ _ _).trans (if_neg second))]
  · rw [if_neg first, bind_error ((checkedAdd_apply _ _ _ _).trans (if_neg first))]

/-- Counting an occurrence only raises counters, also when the second addition raises. -/
theorem countExpression_grows (handle : Nat) (counts : Occurrence) : Grows (countExpression handle counts) := by
  intro index
  have negative := Nat.le_add_right (index.expressionOccurrences.getD handle ⟨0, 0⟩).negative counts.negative
  have positive := Nat.le_add_right (index.expressionOccurrences.getD handle ⟨0, 0⟩).positive counts.positive
  rw [countExpression_apply]
  dsimp only
  split
  · split
    · exact MutableIndex.le_setCounts ⟨negative, positive⟩
    · exact MutableIndex.le_setCounts ⟨negative, le_rfl⟩
  · exact le_rfl

/-- So does counting a property. -/
theorem countProperty_grows (property : EntityRecord) (counts : Occurrence) :
    Grows (countProperty property counts) := by
  intro index
  have negative := Nat.le_add_right ((index.propertyOccurrences.lookup property).getD ⟨0, 0⟩).negative counts.negative
  have positive := Nat.le_add_right ((index.propertyOccurrences.lookup property).getD ⟨0, 0⟩).positive counts.positive
  rw [countProperty_apply]
  dsimp only
  split
  · split
    · exact MutableIndex.le_setProperty ⟨negative, positive⟩
    · exact MutableIndex.le_setProperty ⟨negative, le_rfl⟩
  · exact MutableIndex.le_setProperty le_rfl

/-- Adding to the counters of a handle is quiet for zeros, and stops where the first addition that could change one
overflows. -/
theorem countExpression_decides {handle : Nat} {counts : Occurrence}
    (bound : handle < target.expressionOccurrences.length)
    (fits : (target.expressionOccurrences.getD handle ⟨0, 0⟩).Fits) :
    Decides target (countExpression handle counts) (fun _ => True) (counts = 0)
      ((target.expressionOccurrences.getD handle ⟨0, 0⟩).Exceeds counts) := by
  have same : ∀ index, AntisymmRel (· ≤ ·) index target → index.expressionOccurrences.getD handle ⟨0, 0⟩ =
      target.expressionOccurrences.getD handle ⟨0, 0⟩ := fun index start => by
    rw [(MutableIndex.same_iff.mpr start).expressionOccurrences]
  refine ⟨countExpression_grows handle counts, ?_, ?_, ?_⟩
  · rintro rfl index start
    have unchanged := (MutableIndex.setCounts_same bound start).mpr rfl
    rw [countExpression_apply]
    dsimp only
    rw [same index start, if_pos (show _ + Occurrence.negative 0 ≤ _ from fits.1),
      if_pos (show _ + Occurrence.positive 0 ≤ _ from fits.2)]
    exact ⟨(), rfl, trivial, unchanged⟩
  · intro exceeds index start
    rw [countExpression_apply]
    dsimp only
    rw [same index start]
    rcases exceeds with more | ⟨nothing, more⟩
    · rw [if_neg (Nat.not_le.mpr more)]
      exact ⟨_, rfl, start⟩
    · rw [nothing, Nat.add_zero, if_pos fits.1, if_neg (Nat.not_le.mpr more)]
      exact ⟨_, rfl, (MutableIndex.setCounts_same bound start).mpr rfl⟩
  · intro index start kept
    rw [countExpression_apply] at kept
    dsimp only at kept
    rw [same index start] at kept
    by_cases first : (target.expressionOccurrences.getD handle ⟨0, 0⟩).negative + counts.negative ≤ U64_MAX
    · rw [if_pos first] at kept
      by_cases second : (target.expressionOccurrences.getD handle ⟨0, 0⟩).positive + counts.positive ≤ U64_MAX
      · rw [if_pos second] at kept
        exact Or.inl (Occurrence.eq_zero_of_add ((MutableIndex.setCounts_same bound start).mp kept).symm)
      · rw [if_neg second] at kept
        have unchanged := congrArg Occurrence.negative ((MutableIndex.setCounts_same bound start).mp kept)
        exact Or.inr (Or.inr ⟨Nat.add_eq_left.mp unchanged.symm, Nat.not_le.mp second⟩)
    · exact Or.inr (Or.inl (Nat.not_le.mp first))

/-- Counting a property changes nothing when it adds zero, and raises when the sum overflows. -/
theorem countProperty_decides {property : EntityRecord} {counts : Occurrence}
    (fits : ∀ current, target.propertyOccurrences.lookup property = some current → current.Fits) :
    Decides target (countProperty property counts) (fun _ => True)
      (∃ current, target.propertyOccurrences.lookup property = some current ∧ counts = 0)
      (∃ current, target.propertyOccurrences.lookup property = some current ∧ current.Exceeds counts) := by
  have same : ∀ index, AntisymmRel (· ≤ ·) index target → index.propertyOccurrences.lookup property =
      target.propertyOccurrences.lookup property := fun index start =>
    (MutableIndex.same_iff.mpr start).propertyOccurrences property
  refine ⟨countProperty_grows property counts, ?_, ?_, ?_⟩
  · rintro ⟨current, found, rfl⟩ index start
    have small := fits current found
    rw [countProperty_apply]
    dsimp only
    rw [same index start, found, Option.getD_some, if_pos (show _ + Occurrence.negative 0 ≤ _ from small.1),
      if_pos (show _ + Occurrence.positive 0 ≤ _ from small.2)]
    exact ⟨(), rfl, trivial, (MutableIndex.setProperty_same start).mpr found⟩
  · rintro ⟨current, found, exceeds⟩ index start
    have small := fits current found
    rw [countProperty_apply]
    dsimp only
    rw [same index start, found, Option.getD_some]
    rcases exceeds with more | ⟨nothing, more⟩
    · rw [if_neg (Nat.not_le.mpr more)]
      exact ⟨_, rfl, (MutableIndex.setProperty_same start).mpr found⟩
    · rw [nothing, Nat.add_zero, if_pos small.1, if_neg (Nat.not_le.mpr more)]
      exact ⟨_, rfl, (MutableIndex.setProperty_same start).mpr found⟩
  · intro index start kept
    rw [countProperty_apply] at kept
    dsimp only at kept
    rw [same index start] at kept
    -- whatever the additions do, a new property is entered
    have entered : ∃ current, target.propertyOccurrences.lookup property = some current := by
      split at kept
      · split at kept
        · exact ⟨_, (MutableIndex.setProperty_same start).mp kept⟩
        · exact ⟨_, (MutableIndex.setProperty_same start).mp kept⟩
      · exact ⟨_, (MutableIndex.setProperty_same start).mp kept⟩
    obtain ⟨current, found⟩ := entered
    rw [found, Option.getD_some] at kept
    by_cases first : current.negative + counts.negative ≤ U64_MAX
    · rw [if_pos first] at kept
      by_cases second : current.positive + counts.positive ≤ U64_MAX
      · rw [if_pos second] at kept
        have unchanged := Option.some.inj (found.symm.trans ((MutableIndex.setProperty_same start).mp kept))
        exact Or.inl ⟨current, found, Occurrence.eq_zero_of_add unchanged.symm⟩
      · rw [if_neg second] at kept
        have unchanged := Option.some.inj (found.symm.trans ((MutableIndex.setProperty_same start).mp kept))
        exact Or.inr ⟨current, found, Or.inr ⟨Nat.add_eq_left.mp (congrArg Occurrence.negative unchanged).symm,
          Nat.not_le.mp second⟩⟩
    · exact Or.inr ⟨current, found, Or.inl (Nat.not_le.mp first)⟩

theorem addFeature_grows (position count : Nat) : Grows (addFeature position count) := by
  intro index
  cases found : index.featureCounts[position]? with
  | none =>
    rw [addFeature_none found]
  | some current =>
    rw [addFeature_some found]
    split
    · exact MutableIndex.le_setFeature found (Nat.le_add_right current count)
    · exact le_rfl

/-- Counting a feature changes nothing when it adds zero, and raises when the sum overflows. -/
theorem addFeature_decides {position count current : Nat} (found : target.featureCounts[position]? = some current)
    (small : current ≤ U64_MAX) :
    Decides target (addFeature position count) (fun _ => True) (count = 0) (U64_MAX < current + count) := by
  have entry : ∀ index, AntisymmRel (· ≤ ·) index target → index.featureCounts[position]? = some current :=
    fun index start => (MutableIndex.same_iff.mpr start).featureCounts ▸ found
  refine ⟨addFeature_grows position count, ?_, ?_, ?_⟩
  · rintro rfl index start
    rw [addFeature_some (entry index start), if_pos (show current + 0 ≤ U64_MAX from small)]
    exact ⟨(), rfl, trivial, (MutableIndex.setFeature_same start found).mpr rfl⟩
  · intro more index start
    rw [addFeature_some (entry index start), if_neg (Nat.not_le.mpr more)]
    exact ⟨_, rfl, start⟩
  · intro index start kept
    rw [addFeature_some (entry index start)] at kept
    split at kept
    · exact Or.inl (Nat.add_eq_left.mp ((MutableIndex.setFeature_same start found).mp kept).symm)
    · rename_i full
      exact Or.inr (Nat.not_le.mp full)

end

end Mutation

end PyElk
