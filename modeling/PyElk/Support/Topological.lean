import Mathlib.Data.Fintype.Card
import Mathlib.Data.Set.Finite.List
import Mathlib.Order.WellFounded
import PyElk.Support.Components

open Relation Components

namespace Topological

variable (succ : Nat → List Nat)

/-- Kahn's algorithm. A node is ready when nothing before it is open. -/
structure Ordering where
  indegrees : Nat → Nat
  ready : List Nat
  ordered : List Nat

def Ordering.release (state : Ordering) (node : Nat) : Ordering where
  indegrees := Function.update state.indegrees node (state.indegrees node - 1)
  ready := if state.indegrees node - 1 = 0 then state.ready ++ [node] else state.ready
  ordered := state.ordered

/-- One step, where `pick` says which of the ready nodes comes next. -/
def Ordering.step (pick : List Nat → Option Nat) (state : Ordering) : Ordering :=
  match pick state.ready with
  | none => state
  | some node =>
    (succ node).foldl Ordering.release
      { state with ready := state.ready.erase node, ordered := state.ordered ++ [node] }

def Ordering.run (pick : List Nat → Option Nat) : Nat → Ordering → Ordering
  | 0, state => state
  | fuel + 1, state => Ordering.run pick fuel (state.step succ pick)

/-- The number of edges into `node`. -/
def indegree (nodes : List Nat) (node : Nat) : Nat :=
  (nodes.map fun other => (succ other).count node).sum

/-- The nodes in the order in which they get ready, if all of them do. -/
def topologicalOrder (pick : List Nat → Option Nat) (nodes : List Nat) : Option (List Nat) :=
  let final := Ordering.run succ pick nodes.length
    ⟨indegree succ nodes, nodes.filter fun node => indegree succ nodes node == 0, []⟩
  if final.ordered.length = nodes.length then some final.ordered else none

variable {succ : Nat → List Nat}

/-- A list of the nodes where every node follows its predecessors. -/
structure Sorted (succ : Nat → List Nat) (nodes order : List Nat) : Prop where
  distinct : order.Nodup
  members : ∀ x, x ∈ order ↔ x ∈ nodes
  follows : ∀ before node after, order = before ++ node :: after → ∀ x ∈ nodes, node ∈ succ x → x ∈ before

/-- Along an edge the position grows. -/
theorem Sorted.lt {nodes order : List Nat} (sorted : Sorted succ nodes order) {x y : Nat} (member : x ∈ nodes)
    (target : y ∈ nodes) (edge : y ∈ succ x) : order.idxOf x < order.idxOf y := by
  obtain ⟨before, after, split⟩ := List.append_of_mem ((sorted.members y).mpr target)
  have early : x ∈ before := sorted.follows before y after split x member edge
  have apart : y ∉ before := by
    have distinct := sorted.distinct
    rw [split] at distinct
    exact fun found => (List.nodup_append.mp distinct).2.2 y found y (.head _) rfl
  rw [split, List.idxOf_append_of_mem early, List.idxOf_append_of_notMem apart, List.idxOf_cons_self, Nat.add_zero]
  exact List.idxOf_lt_length_of_mem early

/-- What Kahn's algorithm knows while the edges to the nodes in `todo` are released. -/
structure Ordering.Sound (succ : Nat → List Nat) (nodes todo : List Nat) (state : Ordering) : Prop where
  counts : ∀ x, state.indegrees x =
    todo.count x + indegree succ (nodes.filter fun node => decide (node ∉ state.ordered)) x
  ready : ∀ x, x ∈ state.ready ↔ x ∈ nodes ∧ x ∉ state.ordered ∧ state.indegrees x = 0
  pending : state.ready.Nodup
  distinct : state.ordered.Nodup
  within : ∀ x ∈ state.ordered, x ∈ nodes ∧ state.indegrees x = 0
  follows : ∀ before node after, state.ordered = before ++ node :: after →
    ∀ x ∈ nodes, node ∈ succ x → x ∈ before

section

variable {nodes : List Nat} (closed : ∀ x ∈ nodes, ∀ y ∈ succ x, y ∈ nodes) {state : Ordering}

theorem Ordering.Sound.release {node : Nat} {todo : List Nat} (sound : state.Sound succ nodes (node :: todo))
    (member : node ∈ nodes) : (state.release node).Sound succ nodes todo := by
  have count := sound.counts node
  rw [List.count_cons_self] at count
  have fresh : node ∉ state.ordered := by
    intro done
    have zero := (sound.within node done).2
    omega
  have idle : node ∉ state.ready := by
    intro listed
    have zero := ((sound.ready node).mp listed).2.2
    omega
  have other : ∀ x, x ≠ node → (state.release node).indegrees x = state.indegrees x :=
    fun x apart => Function.update_of_ne apart _ _
  have own : (state.release node).indegrees node = state.indegrees node - 1 := Function.update_self _ _ _
  have listed : ∀ x, x ∈ (state.release node).ready ↔
      x ∈ state.ready ∨ x = node ∧ state.indegrees node - 1 = 0 := by
    intro x
    simp only [Ordering.release]
    split
    · rename_i last
      rw [List.mem_append, List.mem_singleton, and_iff_left last]
    · rename_i more
      exact ⟨Or.inl, fun found => found.resolve_right fun both => more both.2⟩
  refine ⟨?_, ?_, ?_, sound.distinct, ?_, sound.follows⟩
  · intro x
    by_cases same : x = node
    · rw [same, own, count, Nat.add_right_comm, Nat.add_sub_cancel]
      rfl
    · rw [other x same, sound.counts x, List.count_cons_of_ne (Ne.symm same)]
      rfl
  · intro x
    rw [listed, sound.ready x]
    by_cases same : x = node
    · rw [same, own]
      constructor
      · rintro (⟨_, _, zero⟩ | ⟨_, zero⟩)
        · omega
        · exact ⟨member, fresh, zero⟩
      · exact fun ⟨_, _, zero⟩ => Or.inr ⟨rfl, zero⟩
    · rw [other x same]
      exact ⟨fun found => found.resolve_right fun equal => same equal.1, Or.inl⟩
  · simp only [Ordering.release]
    split
    · exact List.nodup_append.mpr ⟨sound.pending, List.nodup_singleton _, fun x found y single equal =>
        idle (List.mem_singleton.mp single ▸ equal ▸ found)⟩
    · exact sound.pending
  · intro x done
    have apart : x ≠ node := fun same => fresh (same ▸ done)
    rw [other x apart]
    exact sound.within x done

theorem Ordering.Sound.release_all {todo : List Nat} (sound : state.Sound succ nodes todo)
    (members : ∀ x ∈ todo, x ∈ nodes) :
    (todo.foldl Ordering.release state).Sound succ nodes [] ∧
      (todo.foldl Ordering.release state).ordered = state.ordered := by
  induction todo generalizing state with
  | nil => exact ⟨sound, rfl⟩
  | cons node todo ih =>
    exact ih (sound.release (members node (.head _))) fun x found => members x (.tail _ found)

/-- A ready node is ordered. -/
theorem Ordering.Sound.take (distinct : nodes.Nodup) (sound : state.Sound succ nodes []) {node : Nat}
    (ready : node ∈ state.ready) :
    Ordering.Sound succ nodes (succ node)
      { state with ready := state.ready.erase node, ordered := state.ordered ++ [node] } := by
  obtain ⟨member, fresh, zero⟩ := (sound.ready node).mp ready
  have unseen : ∀ x, indegree succ (nodes.filter fun other => decide (other ∉ state.ordered)) x =
    (succ node).count x +
      indegree succ (nodes.filter fun other => decide (other ∉ state.ordered ++ [node])) x := by
    intro x
    unfold indegree
    rw [← sum_unseen distinct member fresh fun other => (succ other).count x]
    have same : ∀ x, x ∈ node :: state.ordered ↔ x ∈ state.ordered ++ [node] := fun x =>
      List.perm_append_singleton node state.ordered |>.mem_iff.symm
    simp only [same]
  refine ⟨?_, ?_, sound.pending.erase node, ?_, ?_, ?_⟩
  · intro x
    rw [← unseen x, sound.counts x, List.count_nil, Nat.zero_add]
  · intro x
    rw [sound.pending.mem_erase_iff, sound.ready x]
    simp only [List.mem_append, List.mem_singleton]
    tauto
  · exact List.nodup_append.mpr ⟨sound.distinct, List.nodup_singleton _, fun x done y single equal =>
      fresh (List.mem_singleton.mp single ▸ equal ▸ done)⟩
  · intro x done
    rcases List.mem_append.mp done with old | single
    · exact sound.within x old
    · rw [List.mem_singleton.mp single]
      exact ⟨member, zero⟩
  · intro before other after split x known edge
    rcases List.eq_nil_or_concat after with rfl | ⟨rest, final, rfl⟩
    · obtain ⟨rfl, equal⟩ := List.append_inj' split rfl
      cases equal
      by_contra open_
      have total := sound.counts node
      rw [zero, List.count_nil, Nat.zero_add] at total
      have listed : (succ x).count node ∈
          (nodes.filter fun other => decide (other ∉ state.ordered)).map fun other => (succ other).count node :=
        List.mem_map_of_mem (List.mem_filter.mpr ⟨known, decide_eq_true open_⟩)
      have none_ : (succ x).count node = 0 := List.sum_eq_zero_iff.mp total.symm _ listed
      exact List.count_eq_zero.mp none_ edge
    · rw [List.concat_eq_append, ← List.cons_append, ← List.append_assoc] at split
      exact sound.follows before other rest (List.append_inj' split rfl).1 x known edge

omit closed in
theorem Ordering.Sound.start (distinct : nodes.Nodup) : Ordering.Sound succ nodes []
    ⟨indegree succ nodes, nodes.filter fun node => indegree succ nodes node == 0, []⟩ := by
  refine ⟨?_, ?_, distinct.filter _, .nil, by simp, fun before node after split => by simp at split⟩
  · intro x
    simp
  · intro x
    simp

variable {pick : List Nat → Option Nat} (picks : ∀ ready, (∀ node, pick ready = some node → node ∈ ready) ∧
  (pick ready = none → ready = []))

include closed picks

theorem Ordering.Sound.step (distinct : nodes.Nodup) (sound : state.Sound succ nodes []) :
    (state.step succ pick).Sound succ nodes [] ∧
      (state.ready ≠ [] → (state.step succ pick).ordered.length = state.ordered.length + 1) := by
  unfold Ordering.step
  split
  · rename_i idle
    exact ⟨sound, fun busy => absurd ((picks _).2 idle) busy⟩
  · rename_i node chosen
    have ready := (picks _).1 node chosen
    have member := ((sound.ready node).mp ready).1
    obtain ⟨released, same⟩ := (sound.take distinct ready).release_all fun x edge => closed node member x edge
    refine ⟨released, fun _ => ?_⟩
    rw [same, List.length_append, List.length_singleton]

theorem Ordering.Sound.run (distinct : nodes.Nodup) {fuel : Nat} (sound : state.Sound succ nodes [])
    (enough : nodes.length ≤ state.ordered.length + fuel) :
    (Ordering.run succ pick fuel state).Sound succ nodes [] ∧ (Ordering.run succ pick fuel state).ready = [] := by
  induction fuel generalizing state with
  | zero =>
    refine ⟨sound, ?_⟩
    have all : ∀ x ∈ nodes, x ∈ state.ordered := by
      have sub : state.ordered.Subperm nodes :=
        List.subperm_of_subset sound.distinct fun x done => (sound.within x done).1
      exact fun x member => (sub.perm_of_length_le enough).mem_iff.mpr member
    refine List.eq_nil_iff_forall_not_mem.mpr fun x ready => ?_
    obtain ⟨member, fresh, _⟩ := (sound.ready x).mp ready
    exact fresh (all x member)
  | succ fuel ih =>
    obtain ⟨next, grows⟩ := sound.step closed picks distinct
    by_cases idle : state.ready = []
    · have still : state.step succ pick = state := by
        unfold Ordering.step
        split
        · rfl
        · rename_i node chosen
          exact absurd ((picks _).1 node chosen) (idle ▸ List.not_mem_nil)
      have stays : ∀ fuel, Ordering.run succ pick fuel state = state := by
        intro fuel
        induction fuel with
        | zero => rfl
        | succ fuel ih => rw [Ordering.run, still, ih]
      rw [stays]
      exact ⟨sound, idle⟩
    · exact ih next (by rw [grows idle]; omega)

/-- What Kahn's algorithm returns is in topological order. -/
theorem topologicalOrder_sorted (distinct : nodes.Nodup) {order : List Nat}
    (found : topologicalOrder succ pick nodes = some order) : Sorted succ nodes order := by
  obtain ⟨sound, -⟩ := (Ordering.Sound.start distinct).run closed picks distinct (Nat.le_add_left _ _)
  unfold topologicalOrder at found
  obtain ⟨all, same⟩ := Option.ite_none_right_eq_some.mp found
  obtain rfl := Option.some.inj same
  have sub : List.Subperm _ nodes := List.subperm_of_subset sound.distinct fun x done => (sound.within x done).1
  exact ⟨sound.distinct, fun x => (sub.perm_of_length_le all.ge).mem_iff, sound.follows⟩

/-- Kahn's algorithm orders every acyclic graph. -/
theorem topologicalOrder_spec (distinct : nodes.Nodup) (acyclic : ∀ x, ¬ TransGen (Edge succ) x x) :
    ∃ order, topologicalOrder succ pick nodes = some order ∧ Sorted succ nodes order := by
  obtain ⟨sound, idle⟩ := (Ordering.Sound.start distinct).run closed picks distinct (Nat.le_add_left _ _)
  have members : ∀ x, x ∈ (Ordering.run succ pick nodes.length
      ⟨indegree succ nodes, nodes.filter fun node => indegree succ nodes node == 0, []⟩).ordered ↔ x ∈ nodes := by
    revert sound idle
    generalize Ordering.run succ pick nodes.length _ = final
    intro sound idle x
    refine ⟨fun done => (sound.within x done).1, fun member => ?_⟩
    by_contra open_
    -- among the nodes that stay open, one comes first
    have finite : Finite {node // node ∈ nodes} := (List.finite_toSet nodes).to_subtype
    have irreflexive : Std.Irrefl fun x y : {node // node ∈ nodes} => TransGen (Edge succ) x.1 y.1 :=
      ⟨fun x => acyclic x.1⟩
    have transitive : IsTrans _ fun x y : {node // node ∈ nodes} => TransGen (Edge succ) x.1 y.1 :=
      ⟨fun _ _ _ => TransGen.trans⟩
    have wellFounded := Finite.wellFounded_of_trans_of_irrefl
      fun x y : {node // node ∈ nodes} => TransGen (Edge succ) x.1 y.1
    obtain ⟨first, unordered, least⟩ := wellFounded.has_min {node | node.1 ∉ final.ordered} ⟨⟨x, member⟩, open_⟩
    have zero : final.indegrees first.1 = 0 := by
      rw [sound.counts, List.count_nil, Nat.zero_add]
      refine List.sum_eq_zero_iff.mpr fun count listed => ?_
      obtain ⟨other, kept, rfl⟩ := List.mem_map.mp listed
      obtain ⟨known, fresh⟩ := List.mem_filter.mp kept
      rw [List.count_eq_zero]
      exact fun edge => least ⟨other, known⟩ (of_decide_eq_true fresh) (.single edge)
    have ready := (sound.ready first.1).mpr ⟨first.2, unordered, zero⟩
    rw [idle] at ready
    exact List.not_mem_nil ready
  refine ⟨_, if_pos ?_, ⟨sound.distinct, members, sound.follows⟩⟩
  exact ((List.perm_ext_iff_of_nodup sound.distinct distinct).mpr members).length_eq

end

end Topological
