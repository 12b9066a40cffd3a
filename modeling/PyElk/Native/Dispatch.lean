import PyElk.Native.Saturation
import PyElk.Reasoning.Refusal

open Ordered

namespace PyElk.Native

section

variable {β : Type} {count : Nat} {pushes : List (Nat × β)}

/-- What the pushes leave in one row. -/
theorem getElem?_pushes (table : List (List β)) (index : Nat) :
    (pushes.foldl (fun table row => table.modify row.1 (· ++ [row.2])) table)[index]? =
      (table[index]?).map (· ++ (pushes.filter fun row => row.1 == index).map Prod.snd) := by
  induction pushes generalizing table with
  | nil => simp
  | cons row rest ih =>
    rw [List.foldl_cons, ih, List.getElem?_modify, List.filter_cons]
    by_cases same : row.1 = index
    · simp [same, Function.comp_def]
    · simp [same, beq_false_of_ne same]

/-- A dense row holds the frozen values of its index. -/
theorem denseRow_eq {κ : Type} [DecidableEq β] [LinearOrder κ] {sortKey : β → κ}
    (bound : ∀ row ∈ pushes, row.1 < count) (index : Nat) :
    denseRow (denseTable sortKey count pushes) index = frozenIndex sortKey pushes index := by
  rw [denseRow, denseTable, List.getD_eq_getElem?_getD, List.getElem?_map, getElem?_pushes, List.getElem?_replicate,
    frozenIndex]
  split
  · simp
  · rename_i outside
    have unpushed : pushes.filter (fun row => row.1 == index) = [] := by
      refine List.filter_eq_nil_iff.mpr fun row member found => outside ?_
      rw [← beq_iff_eq.mp found]
      exact bound row member
    rw [unpushed]
    rfl

/-- Pushes that do not change the rows of a key. -/
theorem frozenIndex_map {κ : Type} [DecidableEq β] [LinearOrder κ] {sortKey : β → κ} {push : Nat × β → Nat × β}
    {key : Nat} (keeps : ∀ row ∈ pushes, (push row).1 = row.1)
    (same : ∀ row ∈ pushes, row.1 = key → push row = row) :
    frozenIndex sortKey (pushes.map push) key = frozenIndex sortKey pushes key := by
  have rows : (pushes.map push).filter (fun row => row.1 == key) = pushes.filter fun row => row.1 == key := by
    rw [List.filter_map]
    have kept : pushes.filter ((fun row => row.1 == key) ∘ push) = pushes.filter fun row => row.1 == key :=
      List.filter_congr fun row member => by rw [Function.comp_apply, keeps row member]
    rw [kept]
    refine (List.map_congr_left fun row member => ?_).trans (List.map_id _)
    obtain ⟨listed, found⟩ := List.mem_filter.mp member
    exact same row listed (beq_iff_eq.mp found)
  rw [frozenIndex, frozenIndex, rows]

end

/-- A position or group with a u32 ID survives the cast. -/
theorem asU32_eq {value : Nat} (small : value < U32_RESERVED) : asU32 value = value := by
  unfold U32_RESERVED at small
  unfold asU32
  omega

section

variable {ontology : Tables} {properties : PropertySaturation}

/-- Every dense index of the native dispatcher reads like the Python one, except where the cast of a
position or group loses it. -/
structure RuleDispatcher.Agrees (ontology : Tables) (native : RuleDispatcher) (python : PyElk.RuleDispatcher) :
    Prop where
  subclasses : ∀ key, denseRow native.subclasses key = frozenValues python.subclasses key
  definitionsByClass : ∀ key, denseRow native.definitionsByClass key = frozenValues python.definitionsByClass key
  classesByDefinition : ∀ key, denseRow native.classesByDefinition key = frozenValues python.classesByDefinition key
  equivalentFirst : ∀ key, denseRow native.equivalentFirst key = frozenValues python.equivalentFirst key
  equivalentSecond : ∀ key, denseRow native.equivalentSecond key = frozenValues python.equivalentSecond key
  intersectionsByFirst : ∀ key,
    denseRow native.intersectionsByFirst key = frozenPairs python.intersectionsByFirst key
  intersectionsBySecond : ∀ key,
    denseRow native.intersectionsBySecond key = frozenPairs python.intersectionsBySecond key
  unionsByDisjunct : ∀ key, ¬ ontology.Crowded key →
    denseRow native.unionsByDisjunct key = frozenPairs python.unionsByDisjunct key
  existentialsByFiller : ∀ key,
    denseRow native.existentialsByFiller key = frozenPairs python.existentialsByFiller key
  complementsByNegated : ∀ key,
    denseRow native.complementsByNegated key = frozenValues python.complementsByNegated key
  positiveComplements : ∀ key, denseRow native.positiveComplements key = frozenValues python.positiveComplements key
  disjointByMember : ∀ key, ¬ ontology.Crowded key →
    denseRow native.disjointByMember key = frozenPairs python.disjointByMember key

theorem RuleDispatcher.agrees (valid : ontology.Valid) :
    RuleDispatcher.Agrees ontology (RuleDispatcher.new ontology properties)
      (PyElk.RuleDispatcher.new ontology properties) := by
  have equivalent : ∀ {named : Bool}, ∀ row ∈ ontology.equivalenceRows named,
      row.1 < ontology.expressions.length ∧ row.2 < ontology.expressions.length :=
    fun row member => valid.equivalent_lt (List.mem_filter.mp member).1
  have swapped : ∀ {named : Bool}, ∀ row ∈ (ontology.equivalenceRows named).map Prod.swap,
      row.1 < ontology.expressions.length := by
    rintro named ⟨second, first⟩ member
    exact (equivalent _ (mem_swapped.mp member)).2
  have intersection : ∀ {conjunction first second}, ontology.Built conjunction .objectIntersectionOf [first, second] →
      first < ontology.expressions.length ∧ second < ontology.expressions.length := by
    intro conjunction first second built
    obtain ⟨_, _, same, below, below'⟩ := valid.shape built
    cases same
    exact ⟨Nat.lt_trans below built.lt, Nat.lt_trans below' built.lt⟩
  refine ⟨denseRow_eq ?_, denseRow_eq ?_, denseRow_eq swapped, denseRow_eq swapped, denseRow_eq ?_,
    denseRow_eq ?_, denseRow_eq ?_, fun key clear => ?_, denseRow_eq ?_, denseRow_eq ?_, denseRow_eq ?_,
    fun key clear => ?_⟩
  · exact fun row member => (valid.subclass_lt member).1
  · exact fun row member => (equivalent row member).1
  · exact fun row member => (equivalent row member).1
  · rintro ⟨first, second, conjunction⟩ member
    exact (intersection (Tables.mem_intersectionsByFirst.mp member).1).1
  · rintro ⟨second, first, conjunction⟩ member
    exact (intersection (Tables.mem_intersectionsBySecond.mp member).1).2
  · refine (denseRow_eq ?_ key).trans (frozenIndex_map (fun _ _ => rfl) ?_)
    · intro row member
      obtain ⟨⟨disjunct, union, position⟩, listed, rfl⟩ := List.mem_map.mp member
      obtain ⟨disjuncts, built, _, entry⟩ := Tables.mem_unionsByDisjunct.mp listed
      obtain ⟨_, below⟩ := valid.shape built
      exact Nat.lt_trans (below disjunct (List.mem_of_getElem? entry)) built.lt
    · rintro ⟨disjunct, union, position⟩ listed rfl
      obtain ⟨disjuncts, built, occurs, entry⟩ := Tables.mem_unionsByDisjunct.mp listed
      have small : position < U32_RESERVED := Nat.not_le.mp fun large =>
        clear (Or.inl ⟨union, disjuncts, position, built, occurs, entry, large⟩)
      rw [unionPush, asU32_eq small]
  · rintro ⟨filler, existential, relation⟩ member
    obtain ⟨built, _⟩ := Tables.mem_existentialsByFiller.mp member
    obtain ⟨_, _, same, _, below⟩ := valid.shape built
    cases same
    exact Nat.lt_trans below built.lt
  · rintro ⟨negated, complement⟩ member
    obtain ⟨built, _⟩ := Tables.mem_complementsByNegated.mp member
    obtain ⟨_, same, below⟩ := valid.shape built
    cases same
    exact Nat.lt_trans below built.lt
  · rintro ⟨complement, negated⟩ member
    exact (Tables.mem_positiveComplements.mp member).1.lt
  · refine (denseRow_eq ?_ key).trans (frozenIndex_map (fun _ _ => rfl) ?_)
    · intro row member
      obtain ⟨⟨expression, group, position⟩, listed, rfl⟩ := List.mem_map.mp member
      obtain ⟨members, entry, place⟩ := Tables.mem_disjointByMember.mp listed
      exact (valid.disjoint_lt (List.mem_of_getElem? entry)).2 expression (List.mem_of_getElem? place)
    · rintro ⟨expression, group, position⟩ listed rfl
      obtain ⟨members, entry, place⟩ := Tables.mem_disjointByMember.mp listed
      have small : group < U32_RESERVED ∧ position < U32_RESERVED := not_or.mp (fun large =>
        clear (Or.inr ⟨group, members, position, entry, place, large⟩)) |>.imp Nat.not_le.mp Nat.not_le.mp
      rw [disjointPush, asU32_eq small.1, asU32_eq small.2]

/-- A rule that pushes one conclusion if some value qualifies. -/
theorem mem_any {values : List Nat} {holds : Nat → Prop} [DecidablePred holds] {found c : Conclusion} :
    c ∈ (if values.any (fun value => decide (holds value)) then [found] else []) ↔
      c ∈ (values.filter fun value => holds value).map fun _ => found := by
  split
  · rename_i some
    obtain ⟨value, member, qualifies⟩ := List.any_eq_true.mp some
    simp only [List.mem_singleton, List.mem_map, List.mem_filter]
    constructor
    · rintro rfl
      exact ⟨value, ⟨member, qualifies⟩, rfl⟩
    · rintro ⟨_, _, rfl⟩
      rfl
  · rename_i none
    simp only [List.not_mem_nil, List.mem_map, List.mem_filter, false_iff]
    rintro ⟨value, ⟨member, qualifies⟩, _⟩
    exact none (List.any_eq_true.mpr ⟨value, member, qualifies⟩)

variable {state : Context} {premise c : Conclusion}

theorem RuleDispatcher.mem_onDecomposed (valid : ontology.Valid) {subsumer : ExpressionId} :
    c ∈ (RuleDispatcher.new ontology properties).onDecomposed state state.root subsumer ↔
      c ∈ (PyElk.RuleDispatcher.new ontology properties).onDecomposedSubsumer state subsumer := by
  have agrees : RuleDispatcher.Agrees ontology (RuleDispatcher.new ontology properties)
    (PyElk.RuleDispatcher.new ontology properties) := RuleDispatcher.agrees valid
  rw [RuleDispatcher.onDecomposed, PyElk.RuleDispatcher.onDecomposedSubsumer, agrees.definitionsByClass]
  refine List.mem_cons.trans (Iff.trans (or_congr Iff.rfl ?_) List.mem_cons.symm)
  refine List.mem_append.trans (Iff.trans (or_congr ?_ Iff.rfl) List.mem_append.symm)
  refine List.mem_append.trans (Iff.trans (or_congr Iff.rfl ?_) List.mem_append.symm)
  have native : (RuleDispatcher.new ontology properties).ontology = ontology := rfl
  have python : (PyElk.RuleDispatcher.new ontology properties).compiled = ontology := rfl
  unfold PyElk.RuleDispatcher.decompose
  rw [native, python]
  cases entry : ontology.expressions[subsumer]? with
  | none => exact Iff.rfl
  | some record =>
    obtain ⟨tag, arguments, payload⟩ := record
    have shape := valid.shape ⟨payload, entry⟩
    show (c ∈ if ontology.positive subsumer then _ else []) ↔ (c ∈ if ontology.positive subsumer then _ else [])
    by_cases occurs : ontology.positive subsumer
    · rw [if_pos occurs, if_pos occurs]
      cases tag with
      | owlClass =>
        obtain ⟨entity, rfl, _⟩ := shape
        exact Iff.rfl
      | individual =>
        obtain ⟨entity, rfl, _⟩ := shape
        exact Iff.rfl
      | objectIntersectionOf =>
        obtain ⟨first, second, rfl, _⟩ := shape
        exact Iff.rfl
      | objectSomeValuesFrom =>
        obtain ⟨relation, filler, rfl, _⟩ := shape
        exact Iff.rfl
      | objectHasSelf =>
        obtain ⟨relation, rfl, _⟩ := shape
        exact Iff.rfl
      | dataHasValue => exact Iff.rfl
      | objectComplementOf =>
        simp only [RuleDispatcher.decompose, PyElk.RuleDispatcher.decomposeRecord, agrees.positiveComplements]
        exact mem_any
      | objectUnionOf => exact Iff.rfl
    · rw [if_neg occurs, if_neg occurs]

theorem RuleDispatcher.mem_onComposed (valid : ontology.Valid) {subsumer : ExpressionId}
    (clear : ¬ ontology.Crowded subsumer) :
    c ∈ (RuleDispatcher.new ontology properties).onComposed state state.root subsumer ↔
      c ∈ (PyElk.RuleDispatcher.new ontology properties).onComposedSubsumer state subsumer := by
  have agrees : RuleDispatcher.Agrees ontology (RuleDispatcher.new ontology properties)
    (PyElk.RuleDispatcher.new ontology properties) := RuleDispatcher.agrees valid
  simp only [RuleDispatcher.onComposed, PyElk.RuleDispatcher.onComposedSubsumer, agrees.subclasses,
    agrees.classesByDefinition, agrees.equivalentFirst, agrees.equivalentSecond, agrees.intersectionsByFirst,
    agrees.intersectionsBySecond, agrees.unionsByDisjunct _ clear, agrees.existentialsByFiller,
    agrees.complementsByNegated,
    agrees.disjointByMember _ clear, List.flatten_cons, List.flatten_nil, List.mem_append, mem_any, List.mem_flatMap,
    List.mem_map, List.mem_filter, mem_sortedBy, mem_sortedSet]
  rfl

/-- The native dispatch makes the products of the Python one, if the premise is no crowded subsumer. -/
theorem RuleDispatcher.mem_dispatch (valid : ontology.Valid) (owner : premise.destination = state.root)
    (clear : ∀ d x, premise = .subClassInclusionComposed d x → ¬ ontology.Crowded x) :
    c ∈ (RuleDispatcher.new ontology properties).dispatch state premise ↔
      c ∈ (PyElk.RuleDispatcher.new ontology properties).products state premise := by
  cases premise <;> simp only [Conclusion.destination] at owner <;> subst owner
  case contextInitialization => exact Iff.rfl
  case subContextInitialization relation =>
    simp only [RuleDispatcher.dispatch, PyElk.RuleDispatcher.products, RuleDispatcher.onSubcontext,
      PyElk.RuleDispatcher.onSubContextInitialization, List.mem_flatMap, mem_sortedSet, mem_sortedBy,
      (RuleDispatcher.agrees valid).existentialsByFiller]
    rfl
  case subClassInclusionDecomposed subsumer => exact mem_onDecomposed valid
  case subClassInclusionComposed subsumer => exact mem_onComposed valid (clear _ _ rfl)
  case forwardLink chain target =>
    refine List.mem_append.trans (Iff.trans (or_congr ?_ Iff.rfl) List.mem_append.symm)
    show c ∈ ite (((properties.chains[chain]?).bind PropertyChainRecord.suffixChain).isSome = true) _ _ ↔
      c ∈ ite ((properties.chains[chain]?).bind PropertyChainRecord.suffixChain = none) _ _
    cases (properties.chains[chain]?).bind PropertyChainRecord.suffixChain <;> rfl
  case backwardLink relation source => exact Iff.rfl
  case propagation relation carry => exact Iff.rfl
  case disjointSubsumer group position => exact mem_any
  case classInconsistency =>
    simp only [RuleDispatcher.dispatch, PyElk.RuleDispatcher.products, onClassInconsistency, List.mem_map,
      mem_sortedSet, mem_sortedBy]

end

end PyElk.Native
