import PyElk.Indexing.CanonicalOrder

namespace PyElk

namespace MutableIndex

section

variable {index : MutableIndex} {entities : List EntityRecord}

theorem mem_available {order : List Nat} {handle : Nat} :
    handle ∈ index.available order ↔
      handle < index.expressions.length ∧ handle ∉ order ∧ index.dependencies handle ⊆ order := by
  simp only [available, List.mem_filter, List.mem_range, Bool.and_eq_true, decide_eq_true_eq]

theorem freezePop_mem {order : List Nat} {handle : Nat}
    (pop : index.freezePop entities order = some handle) : handle ∈ index.available order := by
  obtain ⟨least, found, rfl⟩ := Option.map_eq_some_iff.mp pop
  obtain ⟨other, member, rfl⟩ := List.mem_map.mp (List.argmin_mem found)
  exact member

/-- Final ids go to distinct handles. -/
theorem freezeExpressions_spec {fuel : Nat} {order : List Nat} (distinct : order.Nodup)
    (bound : ∀ handle ∈ order, handle < index.expressions.length) :
    (index.freezeExpressions entities fuel order).Nodup ∧
      ∀ handle ∈ index.freezeExpressions entities fuel order, handle < index.expressions.length := by
  induction fuel generalizing order with
  | zero => exact ⟨distinct, bound⟩
  | succ fuel ih =>
    unfold freezeExpressions
    split
    · exact ⟨distinct, bound⟩
    · rename_i handle pop
      obtain ⟨inside, novel, _⟩ := mem_available.mp (freezePop_mem pop)
      refine ih ?_ ?_
      · rw [List.nodup_append]
        refine ⟨distinct, List.nodup_singleton _, ?_⟩
        rintro left member right single rfl
        exact novel (List.mem_singleton.mp single ▸ member)
      · intro other member
        rcases List.mem_append.mp member with old | new
        · exact bound other old
        · rw [List.mem_singleton.mp new]
          exact inside

/-- A complete order gives every handle its final id. -/
theorem mem_finalOrder (complete : (index.finalOrder entities).length = index.expressions.length)
    {handle : Nat} (bound : handle < index.expressions.length) : handle ∈ index.finalOrder entities := by
  obtain ⟨distinct, inside⟩ :=
    @freezeExpressions_spec index entities index.expressions.length [] .nil
      (fun _ member => absurd member List.not_mem_nil)
  have within : index.finalOrder entities ⊆ List.range index.expressions.length :=
    fun other member => List.mem_range.mpr (inside other member)
  have perm := (List.subperm_of_subset distinct within).perm_of_length_le
    (by rw [List.length_range]; exact complete.ge)
  exact perm.mem_iff.mpr (List.mem_range.mpr bound)

theorem freezePop_le {order : List Nat} {handle other : Nat} (pop : index.freezePop entities order = some handle)
    (available : other ∈ index.available order) :
    (index.finalRecord entities order handle).key ≤ (index.finalRecord entities order other).key := by
  obtain ⟨least, found, rfl⟩ := Option.map_eq_some_iff.mp pop
  have le := List.le_of_mem_argmin (List.mem_map_of_mem available) found
  obtain ⟨chosen, -, same⟩ := List.mem_map.mp (List.argmin_mem found)
  subst same
  rcases Prod.Lex.toLex_le_toLex.mp le with less | ⟨equal, -⟩
  · exact less.le
  · exact equal.le

theorem freezePop_eq_none {order : List Nat} (pop : index.freezePop entities order = none) :
    index.available order = [] := by
  rw [freezePop, Option.map_eq_none_iff, List.argmin_eq_none] at pop
  exact List.map_eq_nil_iff.mp pop

theorem idxOf_map_of_injective {α β : Type} [DecidableEq α] [DecidableEq β] {f : α → β} {values : List α} {x : α}
    (injective : ∀ y ∈ values, f y = f x → y = x) : (values.map f).idxOf (f x) = values.idxOf x := by
  induction values with
  | nil => rfl
  | cons y rest ih =>
    rw [List.forall_mem_cons] at injective
    rw [List.map_cons, List.idxOf_cons, List.idxOf_cons, ih injective.2]
    by_cases same : y = x
    · rw [same, beq_self_eq_true, beq_self_eq_true]
    · rw [beq_false_of_ne same, beq_false_of_ne fun equal => same (injective.1 equal)]

section

variable (coherent : index.Coherent)

include coherent

/-- Final ids of handles are final ids of their expressions. -/
theorem Coherent.idxOf_tree {order : List Nat} (bound : ∀ handle ∈ order, handle < index.expressions.length)
    {handle : Nat} (inside : handle < index.expressions.length) :
    (order.map index.tree).idxOf (index.tree handle) = order.idxOf handle :=
  idxOf_map_of_injective fun other member same => coherent.tree_injective (bound other member) inside same

theorem Coherent.operands_tree {handle : Nat} {key : ExpressionKey} (entry : index.expressions[handle]? = some key) :
    index.tree handle = .node key.tag key.entities (key.expressions.map index.tree) key.payload :=
  treeOf_entry coherent.operands entry

theorem Coherent.finalRecord_eq {order : List Nat} (bound : ∀ handle ∈ order, handle < index.expressions.length)
    {handle : Nat} (inside : handle < index.expressions.length) :
    index.finalRecord entities order handle = (index.tree handle).record entities (order.map index.tree) := by
  have entry := List.getElem?_eq_getElem inside
  have ids : (index.expressions[handle].expressions.map index.tree).map (order.map index.tree).idxOf =
      index.expressions[handle].expressions.map order.idxOf := by
    rw [List.map_map]
    refine List.map_congr_left fun operand member => coherent.idxOf_tree bound ?_
    exact (coherent.operands handle _ entry operand member).trans inside
  rw [coherent.operands_tree entry, finalRecord, entry]
  generalize index.expressions[handle] = key at ids
  obtain ⟨tag, records, operands, payload⟩ := key
  dsimp only at ids ⊢
  rw [ExpressionTree.record]
  congr 1
  rcases records with _ | ⟨property, records⟩
  · cases tag <;> exact ids.symm
  · rcases operands with _ | ⟨filler, operands⟩
    · cases tag <;> rfl
    · cases tag
      case objectSomeValuesFrom =>
        exact congrArg (fun operand => [entities.idxOf property, operand]) (List.cons.inj ids).1.symm
      all_goals rfl

/-- The operands of an available handle have final ids. -/
theorem Coherent.mem_available_tree {order : List Nat} (bound : ∀ handle ∈ order, handle < index.expressions.length)
    {handle : Nat} : handle ∈ index.available order ↔ handle < index.expressions.length ∧
      index.tree handle ∉ order.map index.tree ∧ (index.tree handle).operands ⊆ order.map index.tree := by
  rw [mem_available]
  refine and_congr_right fun inside => and_congr (not_congr ⟨List.mem_map_of_mem, fun member => ?_⟩) ?_
  · obtain ⟨other, listed, same⟩ := List.mem_map.mp member
    rwa [← coherent.tree_injective (bound other listed) inside same]
  · have entry := List.getElem?_eq_getElem inside
    rw [coherent.operands_tree entry, ExpressionTree.operands, dependencies, entry, Option.elim_some]
    constructor
    · exact fun within => List.map_subset _ within
    · intro within operand member
      obtain ⟨other, listed, same⟩ := List.mem_map.mp (within (List.mem_map_of_mem member))
      rwa [← coherent.tree_injective (bound other listed)
        ((coherent.operands handle _ entry operand member).trans inside) same]

/-- A pop gives the next expression of the canonical order. -/
theorem Coherent.freezePop_follows {order : List Nat} (bound : ∀ handle ∈ order, handle < index.expressions.length)
    {handle : Nat} (pop : index.freezePop entities order = some handle) :
    Follows index.content.trees entities (order.map index.tree) (index.tree handle) := by
  obtain ⟨inside, fresh, ready⟩ := (coherent.mem_available_tree bound).mp (freezePop_mem pop)
  refine ⟨mem_trees inside, fresh, ready, ?_⟩
  rintro _ ⟨other, small, rfl⟩ fresh' ready'
  have le := freezePop_le pop ((coherent.mem_available_tree bound).mpr ⟨small, fresh', ready'⟩)
  rwa [coherent.finalRecord_eq bound inside, coherent.finalRecord_eq bound small] at le

/-- While a handle has no final id some handle is available. -/
theorem Coherent.freezePop_eq_none {order : List Nat} (pop : index.freezePop entities order = none) {handle : Nat}
    (inside : handle < index.expressions.length) : handle ∈ order := by
  have empty := MutableIndex.freezePop_eq_none pop
  induction handle using Nat.strong_induction_on with
  | _ handle ih =>
    by_contra fresh
    have available : handle ∈ index.available order := by
      refine mem_available.mpr ⟨inside, fresh, fun operand member => ?_⟩
      rw [dependencies, List.getElem?_eq_getElem inside, Option.elim_some] at member
      have below := coherent.operands handle _ (List.getElem?_eq_getElem inside) operand member
      exact ih operand below (below.trans inside)
    rw [empty] at available
    exact List.not_mem_nil available

/-- The order of final ids is the canonical order of the expressions. -/
theorem Coherent.freezeExpressions_canonical {fuel : Nat} {order : List Nat} (distinct : order.Nodup)
    (bound : ∀ handle ∈ order, handle < index.expressions.length)
    (enough : index.expressions.length ≤ order.length + fuel)
    (before : ∀ (position : Nat) (next : ExpressionTree), (order.map index.tree)[position]? = some next →
      Follows index.content.trees entities ((order.map index.tree).take position) next) :
    CanonicalOrder index.content.trees entities ((index.freezeExpressions entities fuel order).map index.tree) := by
  induction fuel generalizing order with
  | zero =>
    refine ⟨before, ?_⟩
    rintro _ ⟨handle, inside, rfl⟩
    have within : order ⊆ List.range index.expressions.length :=
      fun other member => List.mem_range.mpr (bound other member)
    have perm := (List.subperm_of_subset distinct within).perm_of_length_le (by rw [List.length_range]; exact enough)
    exact List.mem_map_of_mem (perm.mem_iff.mpr (List.mem_range.mpr inside))
  | succ fuel ih =>
    unfold freezeExpressions
    split
    · rename_i pop
      refine ⟨before, ?_⟩
      rintro _ ⟨handle, inside, rfl⟩
      exact List.mem_map_of_mem (coherent.freezePop_eq_none pop inside)
    · rename_i handle pop
      obtain ⟨inside, novel, -⟩ := mem_available.mp (freezePop_mem pop)
      refine ih ?_ ?_ ?_ ?_
      · refine List.nodup_append.mpr ⟨distinct, List.nodup_singleton _, ?_⟩
        rintro left member right single rfl
        exact novel (List.mem_singleton.mp single ▸ member)
      · intro other member
        rcases List.mem_append.mp member with old | new
        · exact bound other old
        · rw [List.mem_singleton.mp new]
          exact inside
      · rw [List.length_append, List.length_singleton]
        omega
      · intro position next entry
        rw [List.map_append, List.map_singleton] at entry ⊢
        by_cases old : position < (order.map index.tree).length
        · rw [List.getElem?_append_left old] at entry
          rw [List.take_append_of_le_length old.le]
          exact before position next entry
        · have last : position = (order.map index.tree).length := by
            have small := (List.getElem?_eq_some_iff.mp entry).1
            rw [List.length_append, List.length_singleton] at small
            omega
          rw [last, List.getElem?_concat_length] at entry
          cases entry
          rw [last, List.take_left]
          exact coherent.freezePop_follows bound pop

theorem Coherent.finalOrder_spec (entities : List EntityRecord) : (index.finalOrder entities).Nodup ∧
    (∀ handle ∈ index.finalOrder entities, handle < index.expressions.length) ∧
    CanonicalOrder index.content.trees entities ((index.finalOrder entities).map index.tree) ∧
    (index.finalOrder entities).length = index.expressions.length := by
  have start : ∀ handle ∈ ([] : List Nat), handle < index.expressions.length :=
    fun handle member => absurd member List.not_mem_nil
  obtain ⟨distinct, bound⟩ := @freezeExpressions_spec index entities index.expressions.length [] .nil start
  have canonical : CanonicalOrder index.content.trees entities ((index.finalOrder entities).map index.tree) :=
    coherent.freezeExpressions_canonical .nil start (Nat.le_add_left _ _) fun position next entry => by cases entry
  have all : ∀ handle, handle ∈ index.finalOrder entities ↔ handle ∈ List.range index.expressions.length := by
    intro handle
    rw [List.mem_range]
    refine ⟨bound handle, fun inside => ?_⟩
    obtain ⟨other, listed, same⟩ := List.mem_map.mp (canonical.complete _ (mem_trees inside))
    rwa [← coherent.tree_injective (bound other listed) inside same]
  have perm := (List.perm_ext_iff_of_nodup distinct List.nodup_range).mpr all
  exact ⟨distinct, bound, canonical, perm.length_eq.trans List.length_range⟩

end

end

end MutableIndex

end PyElk
