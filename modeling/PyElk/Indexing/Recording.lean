import PyElk.Indexing.Conversion
import PyElk.Indexing.Rows

namespace PyElk

section

variable {index later : MutableIndex}

/-- Two states of a transaction with the same row tables. -/
structure MutableIndex.SameRows (index later : MutableIndex) : Prop where
  chains : later.propertyChains = index.propertyChains
  subclass : later.subclassAxioms = index.subclassAxioms
  equivalent : later.equivalentClassAxioms = index.equivalentClassAxioms
  disjoint : later.disjointGroups = index.disjointGroups
  subproperty : later.subpropertyAxioms = index.subpropertyAxioms
  ranges : later.propertyRanges = index.propertyRanges

/-- Rows stay in range while a transaction grows. -/
theorem MutableIndex.WellFormed.grown (wellFormed : index.WellFormed) (extension : index.Extends later)
    (coherent : later.Coherent) (same : index.SameRows later) : later.WellFormed where
  toCoherent := coherent
  chains chain member := by
    obtain ⟨nonempty, properties⟩ := wellFormed.chains chain (same.chains ▸ member)
    exact ⟨nonempty, fun property found =>
      ⟨(properties property found).1, extension.entities (properties property found).2⟩⟩
  subclass row member := by
    obtain ⟨first, second⟩ := wellFormed.subclass row (same.subclass ▸ member)
    exact ⟨extension.lt first, extension.lt second⟩
  equivalent row member := by
    obtain ⟨first, second⟩ := wellFormed.equivalent row (same.equivalent ▸ member)
    exact ⟨extension.lt first, extension.lt second⟩
  disjoint group member := by
    obtain ⟨pair, bounds⟩ := wellFormed.disjoint group (same.disjoint ▸ member)
    exact ⟨pair, fun expression found => extension.lt (bounds expression found)⟩
  subproperty row member := by
    obtain ⟨chain, kind, known⟩ := wellFormed.subproperty row (same.subproperty ▸ member)
    exact ⟨same.chains ▸ chain, kind, extension.entities known⟩
  ranges row member := by
    obtain ⟨kind, known, bound⟩ := wellFormed.ranges row (same.ranges ▸ member)
    exact ⟨kind, extension.entities known, extension.lt bound⟩

theorem MutableIndex.WellFormed.silent (wellFormed : index.WellFormed) (extension : index.Extends later)
    (coherent : later.Coherent) (same : index.SameRows later) : index.Emits later [] := by
  refine ⟨wellFormed.grown extension coherent same, extension, fun row => ?_⟩
  rw [extension.rows_eq wellFormed same.subclass same.equivalent same.disjoint same.subproperty same.ranges]
  simp only [List.not_mem_nil, or_false]

/-- A new transaction. -/
theorem MutableIndex.wellFormed_empty (entities : List EntityRecord) (named : ∀ entity ∈ entities, entity.iri ≠ "") :
    ({ entities := entities } : MutableIndex).WellFormed where
  distinct := List.nodup_nil
  operands _ _ entry := absurd entry (by simp)
  shaped _ member := absurd member List.not_mem_nil
  known _ member := absurd member List.not_mem_nil
  named := named
  counted := rfl
  counts _ member := absurd member List.not_mem_nil
  propertyKeys := List.nodup_nil
  properties _ member := absurd member List.not_mem_nil
  chains _ member := absurd member List.not_mem_nil
  subclass _ member := absurd member List.not_mem_nil
  equivalent _ member := absurd member List.not_mem_nil
  disjoint _ member := absurd member List.not_mem_nil
  subproperty _ member := absurd member List.not_mem_nil
  ranges _ member := absurd member List.not_mem_nil
  features := by
    refine ⟨List.length_replicate, fun count member => ?_⟩
    rw [(List.mem_replicate.mp member).2]
    exact Nat.zero_le _

/-- Interning a key whose operands are known keeps a transaction well formed. -/
theorem MutableIndex.WellFormed.intern (wellFormed : index.WellFormed) {key : ExpressionKey} (shaped : key.Shaped)
    (bound : ∀ operand ∈ key.expressions, operand < index.expressions.length)
    (named : ∀ entity ∈ key.entities, entity.iri ≠ "") : index.Emits (index.intern key) [] := by
  have extension : index.Extends (index.intern key) := by
    obtain ⟨expressions, entities, _, same⟩ := index.intern_grows key
    refine ⟨expressions, entities, fun feature => ?_⟩
    rw [same]
  have entityNames : ∀ entity ∈ index.entities ++ key.entities, entity.iri ≠ "" := by
    intro entity member
    rcases List.mem_append.mp member with old | new
    · exact wellFormed.named entity old
    · exact named entity new
  have properties : ∀ row ∈ index.propertyOccurrences,
      row.1.kind = .objectProperty ∧ row.1 ∈ index.entities ++ key.entities ∧ row.2.Fits := by
    intro row member
    obtain ⟨kind, known, fits⟩ := wellFormed.properties row member
    exact ⟨kind, List.mem_append_left _ known, fits⟩
  have known : ∀ other ∈ index.expressions, other.entities ⊆ index.entities ++ key.entities :=
    fun other member => List.Subset.trans (wellFormed.known other member) (List.subset_append_left _ _)
  refine wellFormed.silent extension ?_ ?_
  · unfold MutableIndex.intern
    dsimp only
    by_cases present : key ∈ index.expressions
    · rw [if_pos present]
      exact ⟨wellFormed.distinct, wellFormed.operands, wellFormed.shaped, known, entityNames, wellFormed.counted,
        wellFormed.counts, wellFormed.propertyKeys, properties, wellFormed.features⟩
    · rw [if_neg present]
      have cases : ∀ {other : ExpressionKey}, other ∈ index.expressions ++ [key] →
          other ∈ index.expressions ∨ other = key := fun member =>
        (List.mem_append.mp member).imp_right List.mem_singleton.mp
      refine ⟨?_, ?_, ?_, ?_, entityNames, ?_, ?_, wellFormed.propertyKeys, properties, wellFormed.features⟩
      · refine List.nodup_append.mpr ⟨wellFormed.distinct, List.nodup_singleton _, ?_⟩
        rintro old member new novel rfl
        exact present (List.mem_singleton.mp novel ▸ member)
      · intro handle other entry operand member
        by_cases old : handle < index.expressions.length
        · rw [List.getElem?_append_left old] at entry
          exact wellFormed.operands handle other entry operand member
        · have last : handle = index.expressions.length := by
            have small := (List.getElem?_eq_some_iff.mp entry).1
            rw [List.length_append, List.length_singleton] at small
            omega
          subst last
          rw [List.getElem?_concat_length] at entry
          cases entry
          exact bound operand member
      · intro other member
        rcases cases member with old | rfl
        · exact wellFormed.shaped other old
        · exact shaped
      · intro other member
        rcases cases member with old | rfl
        · exact known other old
        · exact List.subset_append_right _ _
      · simp only [List.length_append, List.length_singleton, wellFormed.counted]
      · intro counts member
        rcases List.mem_append.mp member with old | new
        · exact wellFormed.counts counts old
        · rw [List.mem_singleton.mp new]
          exact ⟨Nat.zero_le _, Nat.zero_le _⟩
  · obtain ⟨_, _, _, same⟩ := index.intern_grows key
    constructor <;> rw [same]

/-- The sum of two counters is exact and fits. -/
theorem Occurrence.checkedAdd_fits {counts increment total : Occurrence}
    (added : counts.checkedAdd increment = some total) :
    total = ⟨counts.negative + increment.negative, counts.positive + increment.positive⟩ ∧ total.Fits := by
  unfold checkedAdd at added
  split at added
  · obtain rfl := Option.some.inj added
    exact ⟨rfl, ‹_›⟩
  · cases added

/-- The counters of one handle are replaced. -/
def MutableIndex.setCounts (index : MutableIndex) (handle : Nat) (counts : Occurrence) : MutableIndex :=
  { index with expressionOccurrences := index.expressionOccurrences.set handle counts }

/-- The counters of one property are replaced where they stand, or come last. -/
def MutableIndex.setProperty (index : MutableIndex) (property : EntityRecord) (counts : Occurrence) : MutableIndex :=
  { index with propertyOccurrences := Ordered.setItem property counts index.propertyOccurrences }

theorem MutableIndex.WellFormed.setCounts (wellFormed : index.WellFormed) (handle : Nat) {counts : Occurrence}
    (fits : counts.Fits) : index.Emits (index.setCounts handle counts) [] := by
  refine wellFormed.silent ⟨List.prefix_rfl, List.Subset.refl _, fun _ => le_rfl⟩ ?_ ⟨rfl, rfl, rfl, rfl, rfl, rfl⟩
  refine ⟨wellFormed.distinct, wellFormed.operands, wellFormed.shaped, wellFormed.known, wellFormed.named, ?_, ?_,
    wellFormed.propertyKeys, wellFormed.properties, wellFormed.features⟩
  · simp only [MutableIndex.setCounts, List.length_set, wellFormed.counted]
  · intro occurrence member
    rcases List.mem_or_eq_of_mem_set member with old | rfl
    · exact wellFormed.counts occurrence old
    · exact fits

theorem MutableIndex.WellFormed.setProperty (wellFormed : index.WellFormed) {property : EntityRecord}
    (kind : property.kind = .objectProperty) (known : property ∈ index.entities) {counts : Occurrence}
    (fits : counts.Fits) : index.Emits (index.setProperty property counts) [] := by
  refine wellFormed.silent ⟨List.prefix_rfl, List.Subset.refl _, fun _ => le_rfl⟩ ?_ ⟨rfl, rfl, rfl, rfl, rfl, rfl⟩
  refine ⟨wellFormed.distinct, wellFormed.operands, wellFormed.shaped, wellFormed.known, wellFormed.named,
    wellFormed.counted, wellFormed.counts, Ordered.nodup_setItem wellFormed.propertyKeys, ?_, wellFormed.features⟩
  intro row member
  rcases Ordered.mem_setItem member with rfl | old
  · exact ⟨kind, known, fits⟩
  · exact wellFormed.properties row old

/-- Counting an occurrence emits nothing. -/
theorem MutableIndex.WellFormed.addOccurrence (wellFormed : index.WellFormed) {handle : Nat} {counts : Occurrence}
    (added : index.addOccurrence handle counts = some later) : index.Emits later [] := by
  obtain ⟨total, sum, rfl⟩ := Option.map_eq_some_iff.mp added
  exact wellFormed.setCounts handle (Occurrence.checkedAdd_fits sum).2

/-- Counting an occurrence of a known property emits nothing. -/
theorem MutableIndex.WellFormed.addPropertyOccurrence (wellFormed : index.WellFormed) {property : EntityRecord}
    {counts : Occurrence} (kind : property.kind = .objectProperty) (known : property ∈ index.entities)
    (added : index.addPropertyOccurrence property counts = some later) : index.Emits later [] := by
  obtain ⟨total, sum, rfl⟩ := Option.map_eq_some_iff.mp added
  exact wellFormed.setProperty kind known (Occurrence.checkedAdd_fits sum).2

/-- Interning under a polarity: the handle stands for the key over the expressions
of its operands. -/
theorem MutableIndex.WellFormed.internExpression (wellFormed : index.WellFormed) {key : ExpressionKey}
    (shaped : key.Shaped) (bound : ∀ operand ∈ key.expressions, operand < index.expressions.length)
    (named : ∀ entity ∈ key.entities, entity.iri ≠ "") {polarity : Occurrence} {handle : Nat}
    (interned : index.internExpression key polarity = some (later, handle)) :
    index.Emits later [] ∧ handle < later.expressions.length ∧
      later.tree handle = .node key.tag key.entities (key.expressions.map index.tree) key.payload := by
  obtain ⟨counted, added, same⟩ := Option.map_eq_some_iff.mp interned
  cases same
  have first := wellFormed.intern shaped bound named
  have second := first.wellFormed.addOccurrence added
  have both := first.silent second
  obtain ⟨_, expressions, _⟩ := addOccurrence_spec added
  have entry : later.expressions[index.expressions.idxOf key]? = some key := by
    rw [expressions]
    exact index.intern_key key
  refine ⟨both, (List.getElem?_eq_some_iff.mp entry).1, ?_⟩
  unfold MutableIndex.tree
  rw [treeOf_entry both.wellFormed.operands entry]
  exact congrArg (fun operands => ExpressionTree.node key.tag key.entities operands key.payload)
    (both.extension.map_tree bound)

section

variable {α β : Type}

/-- A sequence that succeeds has succeeded twice. -/
theorem Conversion.bind_ok {step : Conversion α} {next : α → Conversion β} {result : β}
    (done : (step >>= next) index = .ok (result, later)) :
    ∃ value middle, step index = .ok (value, middle) ∧ next value middle = .ok (result, later) := by
  change (step index >>= fun pair => next pair.1 pair.2) = .ok (result, later) at done
  cases first : step index with
  | error raised =>
    rw [first] at done
    cases done
  | ok pair =>
    rw [first] at done
    exact ⟨pair.1, pair.2, rfl, done⟩

theorem Conversion.pure_ok {value result : α} (done : (pure value : Conversion α) index = .ok (result, later)) :
    value = result ∧ index = later := by
  cases done
  exact ⟨rfl, rfl⟩

theorem Conversion.map_ok {step : Conversion α} {image : α → β} {result : β}
    (done : (image <$> step) index = .ok (result, later)) :
    ∃ value, step index = .ok (value, later) ∧ image value = result := by
  rw [map_eq_pure_bind] at done
  obtain ⟨value, middle, first, second⟩ := bind_ok done
  obtain ⟨rfl, rfl⟩ := pure_ok second
  exact ⟨value, first, rfl⟩

theorem Conversion.checked_ok {step : MutableIndex → Option (α × MutableIndex)} {result : α}
    (done : Conversion.checked step index = .ok (result, later)) : step index = some (result, later) := by
  unfold checked at done
  split at done
  · rename_i pair found
    rw [found]
    exact congrArg some (Except.ok.inj done)
  · cases done

theorem Conversion.require_ok {condition : Prop} [Decidable condition] {raised : ConversionError} {result : Unit}
    (done : Conversion.require condition raised index = .ok (result, later)) : condition ∧ index = later := by
  unfold require at done
  split at done
  · exact ⟨‹_›, (pure_ok done).2⟩
  · cases done

end

section

variable (wellFormed : index.WellFormed)

include wellFormed

/-- Adding entities with proper IRIs. -/
theorem MutableIndex.WellFormed.entities {added : List EntityRecord} (named : ∀ entity ∈ added, entity.iri ≠ "") :
    index.Emits { index with entities := index.entities ++ added } [] := by
  refine wellFormed.silent ⟨List.prefix_rfl, List.subset_append_left _ _, fun _ => le_rfl⟩ ?_
    ⟨rfl, rfl, rfl, rfl, rfl, rfl⟩
  refine ⟨wellFormed.distinct, wellFormed.operands, wellFormed.shaped, ?_, ?_, wellFormed.counted,
    wellFormed.counts, wellFormed.propertyKeys, ?_, wellFormed.features⟩
  · exact fun key member => List.Subset.trans (wellFormed.known key member) (List.subset_append_left _ _)
  · intro entity member
    rcases List.mem_append.mp member with old | new
    · exact wellFormed.named entity old
    · exact named entity new
  · intro row member
    obtain ⟨kind, known, fits⟩ := wellFormed.properties row member
    exact ⟨kind, List.mem_append_left _ known, fits⟩

/-- A named entity is added and emits nothing. -/
theorem MutableIndex.addEntity_emits {entity : EntityRecord} {result : Unit} (named : entity.iri ≠ "")
    (done : addEntity entity index = .ok (result, later)) : index.Emits later [] ∧ entity ∈ later.entities := by
  cases done
  refine ⟨wellFormed.entities fun other member => ?_, List.mem_append_right _ (List.mem_singleton_self _)⟩
  rw [List.mem_singleton.mp member]
  exact named

/-- Interning an expression emits nothing and gives the handle of its tree. -/
theorem MutableIndex.internKey_emits {key : ExpressionKey} (shaped : key.Shaped)
    (bound : ∀ operand ∈ key.expressions, operand < index.expressions.length)
    (named : ∀ entity ∈ key.entities, entity.iri ≠ "") {polarity : IndexPolarity} {handle : Nat}
    (done : internKey key polarity index = .ok (handle, later)) :
    index.Emits later [] ∧ handle < later.expressions.length ∧
      later.tree handle = .node key.tag key.entities (key.expressions.map index.tree) key.payload := by
  obtain ⟨⟨grown, found⟩, interned, same⟩ := Option.map_eq_some_iff.mp (Conversion.checked_ok done)
  cases same
  exact wellFormed.internExpression shaped bound named interned

omit wellFormed in
theorem MutableIndex.expressionTag_ok {handle : Nat} {tag : ExpressionTag}
    (done : expressionTag handle index = .ok (tag, later)) :
    index = later ∧ ∃ key, index.expressions[handle]? = some key ∧ key.tag = tag := by
  obtain ⟨state, middle, first, second⟩ := Conversion.bind_ok done
  cases first
  cases entry : index.expressions[handle]? with
  | none =>
    rw [entry] at second
    cases second
  | some key =>
    rw [entry] at second
    obtain ⟨same, rfl⟩ := Conversion.pure_ok second
    exact ⟨rfl, key, rfl, same⟩

theorem MutableIndex.addFeature_emits {feature : String} {count : Nat} {result : Unit}
    (done : addFeature feature count index = .ok (result, later)) :
    index.Emits later [] ∧ (featureIndex feature < FEATURE_VECTOR_LENGTH →
      later.featureCounts.getD (featureIndex feature) 0 = index.featureCounts.getD
        (featureIndex feature) 0 + count) := by
  have step := Conversion.checked_ok done
  dsimp only at step
  split at step
  · rename_i small
    cases step
    have present : ∀ other, index.featureCounts.getD other 0 ≤ (index.featureCounts.set (featureIndex feature)
        (index.featureCounts.getD (featureIndex feature) 0 + count)).getD other 0 := by
      intro other
      rw [List.getD_eq_getElem?_getD, List.getD_eq_getElem?_getD, List.getElem?_set]
      split
      · rename_i same
        subst same
        split
        · simp only [Option.getD_some, List.getD_eq_getElem?_getD]
          exact Nat.le_add_right _ _
        · rename_i beyond
          rw [List.getElem?_eq_none (Nat.le_of_not_lt beyond)]
      · exact le_rfl
    refine ⟨wellFormed.silent ⟨List.prefix_rfl, List.Subset.refl _, present⟩ ?_ ⟨rfl, rfl, rfl, rfl, rfl, rfl⟩, ?_⟩
    · refine ⟨wellFormed.distinct, wellFormed.operands, wellFormed.shaped, wellFormed.known, wellFormed.named,
        wellFormed.counted, wellFormed.counts, wellFormed.propertyKeys, wellFormed.properties, ?_, ?_⟩
      · rw [List.length_set]
        exact wellFormed.features.1
      · intro total member
        rcases List.mem_or_eq_of_mem_set member with old | rfl
        · exact wellFormed.features.2 total old
        · exact small
    · intro inside
      have bound : featureIndex feature < index.featureCounts.length := by
        rw [wellFormed.features.1]
        exact inside
      rw [List.getD_eq_getElem?_getD, List.getElem?_set_self bound, Option.getD_some]
  · cases step

theorem MutableIndex.addFeatureIf_emits {condition : Prop} [Decidable condition] {feature : String} {result : Unit}
    (done : addFeatureIf condition feature index = .ok (result, later)) : index.Emits later [] := by
  unfold addFeatureIf at done
  split at done
  · exact (addFeature_emits wellFormed done).1
  · obtain ⟨_, rfl⟩ := Conversion.pure_ok done
    exact .refl wellFormed

/-- Recording a property emits nothing. -/
theorem MutableIndex.recordObjectProperty_emits {property : EntityRecord} {polarity : IndexPolarity} {result : Unit}
    (named : property.iri ≠ "") (done : recordObjectProperty property polarity index = .ok (result, later)) :
    index.Emits later [] ∧ property ∈ later.entities := by
  obtain ⟨_, first, guard, afterGuard⟩ := Conversion.bind_ok done
  obtain ⟨kind, rfl⟩ := Conversion.require_ok guard
  obtain ⟨_, second, added, afterAdd⟩ := Conversion.bind_ok afterGuard
  obtain ⟨emits, known⟩ := addEntity_emits wellFormed named added
  obtain ⟨grown, counted, same⟩ := Option.map_eq_some_iff.mp (Conversion.checked_ok afterAdd)
  cases same
  have counts := emits.wellFormed.addPropertyOccurrence kind known counted
  exact ⟨emits.silent counts, counts.extension.entities known⟩

omit wellFormed in
/-- Expressions and counters do not look at the row tables. -/
theorem MutableIndex.Coherent.withRows (coherent : index.Coherent) (chains : List (List EntityRecord))
    (subclass equivalent : List (Nat × Nat)) (disjoint : List (List Nat))
    (subproperty : List (List EntityRecord × EntityRecord)) (ranges : List (EntityRecord × Nat)) :
    { index with propertyChains := chains, subclassAxioms := subclass, equivalentClassAxioms := equivalent
                 disjointGroups := disjoint, subpropertyAxioms := subproperty
                 propertyRanges := ranges : MutableIndex }.Coherent :=
  ⟨coherent.distinct, coherent.operands, coherent.shaped, coherent.known, coherent.named, coherent.counted,
    coherent.counts, coherent.propertyKeys, coherent.properties, coherent.features⟩

/-- A subclass axiom emits its row. -/
theorem MutableIndex.addSubclass_emits {sub super : Nat} {result : Unit} (subBound : sub < index.expressions.length)
    (superBound : super < index.expressions.length) (done : addSubclass sub super index = .ok (result, later)) :
    index.Emits later [.subclass (index.tree sub) (index.tree super)] := by
  cases done
  refine ⟨⟨wellFormed.withRows _ _ _ _ _ _, wellFormed.chains, ?_, wellFormed.equivalent, wellFormed.disjoint,
    wellFormed.subproperty, wellFormed.ranges⟩, ⟨List.prefix_rfl, List.Subset.refl _, fun _ => le_rfl⟩, fun row => ?_⟩
  · intro row member
    rcases List.mem_append.mp member with old | new
    · exact wellFormed.subclass row old
    · rw [List.mem_singleton.mp new]
      exact ⟨subBound, superBound⟩
  · simp only [MutableIndex.rows, MutableIndex.tree, List.map_append, List.map_cons, List.map_nil, List.mem_append,
      List.mem_singleton]
    tauto

theorem MutableIndex.addEquivalentClass_emits {defined other : Nat} {result : Unit}
    (definedBound : defined < index.expressions.length) (otherBound : other < index.expressions.length)
    (done : addEquivalentClass defined other index = .ok (result, later)) :
    index.Emits later [.equivalent (index.tree defined) (index.tree other)] := by
  cases done
  refine ⟨⟨wellFormed.withRows _ _ _ _ _ _, wellFormed.chains, wellFormed.subclass, ?_, wellFormed.disjoint,
    wellFormed.subproperty, wellFormed.ranges⟩, ⟨List.prefix_rfl, List.Subset.refl _, fun _ => le_rfl⟩, fun row => ?_⟩
  · intro row member
    rcases List.mem_append.mp member with old | new
    · exact wellFormed.equivalent row old
    · rw [List.mem_singleton.mp new]
      exact ⟨definedBound, otherBound⟩
  · simp only [MutableIndex.rows, MutableIndex.tree, List.map_append, List.map_cons, List.map_nil, List.mem_append,
      List.mem_singleton]
    tauto

/-- A disjointness group emits its row. -/
theorem MutableIndex.addDisjointGroup_emits {members : List Nat} {result : Unit}
    (bound : ∀ member ∈ members, member < index.expressions.length)
    (done : addDisjointGroup members index = .ok (result, later)) :
    index.Emits later [.disjoint (members.map index.tree)] := by
  obtain ⟨_, first, guard, after⟩ := Conversion.bind_ok done
  obtain ⟨pair, rfl⟩ := Conversion.require_ok guard
  cases after
  refine ⟨⟨wellFormed.withRows _ _ _ _ _ _, wellFormed.chains, wellFormed.subclass, wellFormed.equivalent, ?_,
    wellFormed.subproperty, wellFormed.ranges⟩, ⟨List.prefix_rfl, List.Subset.refl _, fun _ => le_rfl⟩, fun row => ?_⟩
  · intro group member
    rcases List.mem_append.mp member with old | new
    · exact wellFormed.disjoint group old
    · rw [List.mem_singleton.mp new]
      exact ⟨pair, bound⟩
  · have same : (MutableIndex.tree { index with disjointGroups := index.disjointGroups ++ [members] }) =
      index.tree := rfl
    simp only [MutableIndex.rows, same, List.map_append, List.map_cons, List.map_nil, List.mem_append,
      List.mem_singleton]
    tauto

theorem MutableIndex.addPropertyChain_emits {properties : List EntityRecord} {result : Unit}
    (named : ∀ property ∈ properties, property.iri ≠ "")
    (done : addPropertyChain properties index = .ok (result, later)) :
    index.Emits later [] ∧ properties ∈ later.propertyChains := by
  obtain ⟨_, first, guard, after⟩ := Conversion.bind_ok done
  obtain ⟨nonempty, rfl⟩ := Conversion.require_ok guard
  obtain ⟨_, second, guard', after'⟩ := Conversion.bind_ok after
  obtain ⟨kinds, rfl⟩ := Conversion.require_ok guard'
  cases after'
  have entities := wellFormed.entities named
  have known := entities.wellFormed
  refine ⟨⟨⟨known.withRows _ _ _ _ _ _, ?_, known.subclass, known.equivalent, known.disjoint, ?_, known.ranges⟩,
    ⟨List.prefix_rfl, List.subset_append_left _ _, fun _ => le_rfl⟩, entities.rows_iff⟩,
    List.mem_append_right _ (List.mem_singleton_self _)⟩
  · intro chain member
    rcases List.mem_append.mp member with old | new
    · exact known.chains chain old
    · rw [List.mem_singleton.mp new]
      exact ⟨nonempty, fun property found => ⟨kinds property found, List.mem_append_right _ found⟩⟩
  · intro row member
    obtain ⟨chain, kind, old⟩ := known.subproperty row member
    exact ⟨List.mem_append_left _ chain, kind, old⟩

/-- A subproperty axiom emits its row. -/
theorem MutableIndex.addSubproperty_emits {subChain : List EntityRecord} {superProperty : EntityRecord}
    {result : Unit}
    (chainNamed : ∀ property ∈ subChain, property.iri ≠ "") (superNamed : superProperty.iri ≠ "")
    (done : addSubproperty subChain superProperty index = .ok (result, later)) :
    index.Emits later [.subproperty subChain superProperty] := by
  obtain ⟨_, first, chained, after⟩ := Conversion.bind_ok done
  obtain ⟨_, second, guard, after'⟩ := Conversion.bind_ok after
  obtain ⟨_, third, added, after''⟩ := Conversion.bind_ok after'
  obtain ⟨emits, chain⟩ := addPropertyChain_emits wellFormed chainNamed chained
  obtain ⟨kind, rfl⟩ := Conversion.require_ok guard
  obtain ⟨emits', known⟩ := addEntity_emits emits.wellFormed superNamed added
  have chain' : subChain ∈ third.propertyChains := by
    cases added
    exact chain
  have ready := emits.silent emits'
  cases after''
  have valid := ready.wellFormed
  refine ready.silent
    ⟨⟨valid.withRows _ _ _ _ _ _, valid.chains, valid.subclass, valid.equivalent, valid.disjoint, ?_,
    valid.ranges⟩, ⟨List.prefix_rfl, List.Subset.refl _, fun _ => le_rfl⟩, fun row => ?_⟩
  · intro row member
    rcases List.mem_append.mp member with old | new
    · exact valid.subproperty row old
    · rw [List.mem_singleton.mp new]
      exact ⟨chain', kind, known⟩
  · simp only [MutableIndex.rows, MutableIndex.tree, List.map_append, List.map_cons, List.map_nil, List.mem_append,
      List.mem_singleton]
    tauto

/-- A range axiom emits its row. -/
theorem MutableIndex.addPropertyRange_emits {property : EntityRecord} {range : Nat} {result : Unit}
    (named : property.iri ≠ "") (bound : range < index.expressions.length)
    (done : addPropertyRange property range index = .ok (result, later)) :
    index.Emits later [.range property (index.tree range)] := by
  obtain ⟨_, first, guard, after⟩ := Conversion.bind_ok done
  obtain ⟨kind, rfl⟩ := Conversion.require_ok guard
  obtain ⟨_, second, added, after'⟩ := Conversion.bind_ok after
  obtain ⟨ready, known⟩ := addEntity_emits wellFormed named added
  have valid := ready.wellFormed
  rw [← ready.extension.tree bound]
  have bound' := ready.extension.lt bound
  cases after'
  refine ready.silent ⟨⟨valid.withRows _ _ _ _ _ _, valid.chains, valid.subclass, valid.equivalent, valid.disjoint,
    valid.subproperty, ?_⟩, ⟨List.prefix_rfl, List.Subset.refl _, fun _ => le_rfl⟩, fun row => ?_⟩
  · intro row member
    rcases List.mem_append.mp member with old | new
    · exact valid.ranges row old
    · rw [List.mem_singleton.mp new]
      exact ⟨kind, known, bound'⟩
  · simp only [MutableIndex.rows, MutableIndex.tree, List.map_append, List.map_cons, List.map_nil, List.mem_append,
      List.mem_singleton]
    tauto

end

end

end PyElk
