import PyElk.Indexing.Interning

namespace PyElk

/-- The structural identity of an expression, without any handles. -/
inductive ExpressionTree
  | node (tag : ExpressionTag) (entities : List EntityRecord) (operands : List ExpressionTree) (payload : List UInt8)

instance : Inhabited ExpressionTree := ⟨.node .owlClass [] [] []⟩

/-- The expression behind a handle, read back through the handles of its operands. -/
def treeOf (keys : List ExpressionKey) (handle : Nat) : ExpressionTree :=
  match keys[handle]? with
  | none => default
  | some key =>
    .node key.tag key.entities
      (key.expressions.map fun operand => if operand < handle then treeOf keys operand else default) key.payload
termination_by handle

/-- Operands come before the keys that use them. -/
def OperandsPrecede (keys : List ExpressionKey) : Prop :=
  ∀ (handle : Nat) (key : ExpressionKey), keys[handle]? = some key → ∀ operand ∈ key.expressions, operand < handle

section

variable {keys more : List ExpressionKey}

theorem treeOf_entry (precede : OperandsPrecede keys) {handle : Nat} {key : ExpressionKey}
    (entry : keys[handle]? = some key) :
    treeOf keys handle = .node key.tag key.entities (key.expressions.map (treeOf keys)) key.payload := by
  rw [treeOf, entry]
  simp only [ExpressionTree.node.injEq, true_and, and_true]
  exact List.map_congr_left fun operand member => if_pos (precede handle key entry operand member)

/-- Later keys do not change the expressions of the earlier ones. -/
theorem treeOf_prefix (initial : keys <+: more) {handle : Nat} (bound : handle < keys.length) :
    treeOf more handle = treeOf keys handle := by
  induction handle using Nat.strong_induction_on with
  | _ handle ih =>
    obtain ⟨rest, same⟩ := initial
    have entry : more[handle]? = keys[handle]? := by rw [← same, List.getElem?_append_left bound]
    rw [treeOf, treeOf, entry]
    cases keys[handle]? with
    | none => rfl
    | some key =>
      simp only [ExpressionTree.node.injEq, true_and, and_true]
      refine List.map_congr_left fun operand _ => ?_
      by_cases below : operand < handle
      · rw [if_pos below, if_pos below, ih operand below (below.trans bound)]
      · rw [if_neg below, if_neg below]

/-- Interned keys are told apart by their expressions. -/
theorem treeOf_injective (distinct : keys.Nodup) (precede : OperandsPrecede keys) {left right : Nat}
    (leftBound : left < keys.length) (rightBound : right < keys.length)
    (same : treeOf keys left = treeOf keys right) : left = right := by
  induction left using Nat.strong_induction_on generalizing right with
  | _ left ih =>
    have leftEntry := List.getElem?_eq_getElem leftBound
    have rightEntry := List.getElem?_eq_getElem rightBound
    rw [treeOf_entry precede leftEntry, treeOf_entry precede rightEntry] at same
    obtain ⟨tag, entities, operands, payload⟩ := ExpressionTree.node.inj same
    have equal : keys[left].expressions = keys[right].expressions := by
      have injective : ∀ (first second : List Nat), (∀ x ∈ first, x < left) → (∀ y ∈ second, y < right) →
          first.map (treeOf keys) = second.map (treeOf keys) → first = second := by
        intro first
        induction first with
        | nil =>
          intro second _ _ mapped
          exact (List.map_eq_nil_iff.mp mapped.symm).symm
        | cons x rest tail =>
          intro second below below' mapped
          cases second with
          | nil => cases mapped
          | cons y others =>
            obtain ⟨head, later⟩ := List.cons.inj mapped
            have small := below x List.mem_cons_self
            rw [ih x small (small.trans leftBound) ((below' y List.mem_cons_self).trans rightBound) head,
              tail others (fun z member => below z (List.mem_cons_of_mem _ member))
                (fun z member => below' z (List.mem_cons_of_mem _ member)) later]
      exact injective _ _ (precede left _ leftEntry) (precede right _ rightEntry) operands
    have key : keys[left] = keys[right] := ExpressionKey.ext tag entities equal payload
    exact (List.Nodup.getElem_inj_iff distinct).mp key

end

end PyElk
