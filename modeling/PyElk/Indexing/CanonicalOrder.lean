import PyElk.Indexing.Content

namespace PyElk

namespace ExpressionTree

def operands : ExpressionTree → List ExpressionTree
  | .node _ _ operands _ => operands

/-- The shape of an expression is that of a key with as many operands. -/
def Shaped : ExpressionTree → Prop
  | .node tag entities operands payload => ExpressionKey.Shaped ⟨tag, entities, operands.map fun _ => 0, payload⟩

def entities : ExpressionTree → List EntityRecord
  | .node _ entities _ _ => entities

/-- The arguments of an expression over a table of entities, once its operands have ids. -/
noncomputable def arguments (table : List EntityRecord) (done : List ExpressionTree) : ExpressionTree → List Nat
  | .node tag entities operands _ =>
    match tag, entities, operands with
    | .objectSomeValuesFrom, property :: _, filler :: _ => [table.idxOf property, done.idxOf filler]
    | _, [], operands => operands.map done.idxOf
    | _, entities, _ => entities.map table.idxOf

noncomputable def record (table : List EntityRecord) (done : List ExpressionTree) : ExpressionTree → ExpressionRecord
  | .node tag entities operands payload =>
    ⟨tag, (ExpressionTree.node tag entities operands payload).arguments table done, payload⟩

end ExpressionTree

theorem map_idxOf_inj {α : Type} [DecidableEq α] {values left right : List α} (first : ∀ x ∈ left, x ∈ values)
    (same : left.map values.idxOf = right.map values.idxOf) : left = right := by
  induction left generalizing right with
  | nil => exact (List.map_eq_nil_iff.mp same.symm).symm
  | cons x rest ih =>
    cases right with
    | nil => cases same
    | cons y others =>
      obtain ⟨head, tail⟩ := List.cons.inj same
      rw [List.forall_mem_cons] at first
      rw [(List.idxOf_inj first.1).mp head, ih first.2 tail]

def ExpressionTag.namesEntity : ExpressionTag → Bool
  | .owlClass | .individual | .objectHasSelf | .dataHasValue => true
  | _ => false

/-- An expression has one entity, or operands, or a property with a filler. -/
theorem ExpressionTree.Shaped.form {tag : ExpressionTag} {entities : List EntityRecord}
    {operands : List ExpressionTree}
    {payload : List UInt8} (shaped : (ExpressionTree.node tag entities operands payload).Shaped) :
    (tag.namesEntity = true ∧ ∃ entity, entities = [entity] ∧ operands = []) ∨
    (tag.namesEntity = false ∧ tag ≠ .objectSomeValuesFrom ∧ entities = []) ∨
    (tag = .objectSomeValuesFrom ∧ ∃ property filler, entities = [property] ∧ operands = [filler]) := by
  unfold ExpressionTree.Shaped at shaped
  rcases entities with _ | ⟨entity, _ | _⟩ <;> rcases operands with _ | ⟨first, _ | ⟨second, _ | _⟩⟩ <;>
    cases tag <;> first
    | exact Or.inl ⟨rfl, _, rfl, rfl⟩
    | exact Or.inr (Or.inl ⟨rfl, by decide, rfl⟩)
    | exact Or.inr (Or.inr ⟨rfl, _, _, rfl, rfl⟩)
    | exact absurd shaped (by cases payload <;> exact id)

/-- The record of an expression tells which expression it is. -/
theorem ExpressionTree.record_injective {table : List EntityRecord} {done : List ExpressionTree}
    {left right : ExpressionTree} (leftShaped : left.Shaped) (rightShaped : right.Shaped)
    (leftKnown : left.entities ⊆ table) (leftReady : left.operands ⊆ done)
    (same : left.record table done = right.record table done) : left = right := by
  obtain ⟨tag, entities, operands, payload⟩ := left
  obtain ⟨tag', entities', operands', payload'⟩ := right
  obtain ⟨rfl, arguments, rfl⟩ := ExpressionRecord.mk.inj same
  rcases leftShaped.form with ⟨leaf, entity, rfl, rfl⟩ | ⟨inner, plain, rfl⟩ | ⟨rfl, property, filler, rfl, rfl⟩
  · rcases rightShaped.form with ⟨-, entity', rfl, rfl⟩ | ⟨inner', -⟩ | ⟨rfl, -⟩
    · have named : [entity].map table.idxOf = [entity'].map table.idxOf := by
        cases tag <;> exact arguments
      have equal : [entity] = [entity'] := map_idxOf_inj leftKnown named
      rw [equal]
    · rw [leaf] at inner'
      cases inner'
    · cases leaf
  · rcases rightShaped.form with ⟨leaf', -⟩ | ⟨-, -, rfl⟩ | ⟨rfl, -⟩
    · rw [inner] at leaf'
      cases leaf'
    · have ids : operands.map done.idxOf = operands'.map done.idxOf := by
        cases tag <;> exact arguments
      have equal : operands = operands' := map_idxOf_inj leftReady ids
      rw [equal]
    · exact absurd rfl plain
  · rcases rightShaped.form with ⟨leaf', -⟩ | ⟨-, plain', -⟩ | ⟨-, property', filler', rfl, rfl⟩
    · cases leaf'
    · exact absurd rfl plain'
    · obtain ⟨head, tail⟩ := List.cons.inj arguments
      rw [(List.idxOf_inj (leftKnown List.mem_cons_self)).mp head,
        (List.idxOf_inj (leftReady List.mem_cons_self)).mp (List.cons.inj tail).1]

theorem ExpressionRecord.key_injective : Function.Injective ExpressionRecord.key := by
  intro left right same
  obtain ⟨tag, arguments, payload⟩ := left
  obtain ⟨tag', arguments', payload'⟩ := right
  obtain ⟨code, rest⟩ := Prod.mk.inj (toLex.injective same)
  obtain ⟨bytes, equal⟩ := Prod.mk.inj (toLex.injective rest)
  have tags : tag = tag' := by cases tag <;> cases tag' <;> first | rfl | cases code
  have payloads : payload = payload' := List.map_injective_iff.mpr (fun _ _ => UInt8.toNat_inj.mp) bytes
  rw [tags, payloads, show arguments = arguments' from equal]

/-- The next expression of the canonical order: of those whose operands have ids it is
the one with the least record. -/
structure Follows (trees : Set ExpressionTree) (table : List EntityRecord) (done : List ExpressionTree)
    (next : ExpressionTree) : Prop where
  member : next ∈ trees
  fresh : next ∉ done
  ready : next.operands ⊆ done
  least : ∀ other ∈ trees, other ∉ done → other.operands ⊆ done →
    (next.record table done).key ≤ (other.record table done).key

/-- The order of a set of expressions in which ids are given. -/
structure CanonicalOrder (trees : Set ExpressionTree) (table : List EntityRecord) (order : List ExpressionTree) :
    Prop where
  follows : ∀ (position : Nat) (next : ExpressionTree), order[position]? = some next →
    Follows trees table (order.take position) next
  complete : ∀ expression ∈ trees, expression ∈ order

section

variable {trees : Set ExpressionTree} {table : List EntityRecord} {order other done : List ExpressionTree}

theorem Follows.unique (shaped : ∀ expression ∈ trees, expression.Shaped ∧ expression.entities ⊆ table)
    {left right : ExpressionTree} (first : Follows trees table done left) (second : Follows trees table done right) :
    left = right :=
  ExpressionTree.record_injective (shaped left first.member).1 (shaped right second.member).1
    (shaped left first.member).2 first.ready (ExpressionRecord.key_injective
      (le_antisymm (first.least right second.member second.fresh second.ready)
        (second.least left first.member first.fresh first.ready)))

/-- A set of expressions has one canonical order. -/
theorem CanonicalOrder.unique (shaped : ∀ expression ∈ trees, expression.Shaped ∧ expression.entities ⊆ table)
    (first : CanonicalOrder trees table order) (second : CanonicalOrder trees table other) : order = other := by
  -- the two orders agree on each prefix that both have
  have prefixes : ∀ position, position ≤ order.length → order.take position = other.take position ∧
      position ≤ other.length := by
    intro position
    induction position with
    | zero => exact fun _ => ⟨rfl, Nat.zero_le _⟩
    | succ position ih =>
      intro bound
      obtain ⟨same, reached⟩ := ih (Nat.le_of_succ_le bound)
      have entry := List.getElem?_eq_getElem (Nat.lt_of_succ_le bound)
      have follows := first.follows position _ entry
      have further : position < other.length := by
        refine lt_of_le_of_ne reached fun last => ?_
        have listed := second.complete _ follows.member
        rw [← List.take_length (l := other), ← last, ← same] at listed
        exact follows.fresh listed
      have entry' := List.getElem?_eq_getElem further
      have follows' := second.follows position _ entry'
      rw [← same] at follows'
      refine ⟨?_, further⟩
      rw [List.take_add_one, List.take_add_one, same, entry, entry', Follows.unique shaped follows follows']
  obtain ⟨same, short⟩ := prefixes order.length le_rfl
  rw [List.take_length] at same
  rcases short.eq_or_lt with equal | longer
  · rw [same, equal, List.take_length]
  · have entry := List.getElem?_eq_getElem longer
    have follows := second.follows order.length _ entry
    rw [← same] at follows
    exact absurd (first.complete _ follows.member) follows.fresh

end

end PyElk
