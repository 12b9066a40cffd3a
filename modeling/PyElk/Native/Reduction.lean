import PyElk.Native.Codec
import PyElk.Reasoning.Quotient
import PyElk.Support.BitRow

open Relation Components Topological Reduction Ordered

namespace PyElk.Native

def BITSET_REDUCTION_MAX_BYTES : Nat := 256 * 1024 * 1024

/-- The reachability rows of `bitset_transitive_reduction`. A successor that the row
already holds is passed over. -/
def reachableRows (words : Nat) (successors : Nat → List Nat) (topological : List Nat) : Nat → BitRow words :=
  topological.foldr (fun node rows => Function.update rows node
    ((rankedSuccessors successors topological node).foldl (fun row successor =>
      if row.test successor then row else (row.set successor).union (rows successor)) (rows node)))
    fun _ => BitRow.zero words

/-- `bitset_transitive_reduction`, once its rows are allocated. -/
def bitsetTransitiveReduction (words nodeCount : Nat) (successors : Nat → List Nat) (topological : List Nat) :
    List (Nat × Nat) :=
  let reachable := reachableRows words successors topological
  directEdges nodeCount fun sub =>
    keep BitRow.test (fun covered target => (covered.set target).union (reachable target)) (BitRow.zero words)
      (rankedSuccessors successors topological sub)

/-- `transitive_reduction`. The rows of the bit sets may fail to be allocated. -/
def transitiveReduction (allocates : Bool) (nodeCount : Nat) (edges : List (Nat × Nat)) : Option (List (Nat × Nat)) :=
  let values := sortedSet pairKey edges
  let successors := adjacency values
  if values.all fun edge => decide (edge.1 < nodeCount) && decide (edge.2 < nodeCount) && edge.1 != edge.2 then
    (topologicalOrder successors List.min? (List.range nodeCount)).map fun topological =>
      let words := (nodeCount + 63) / 64
      let bitsetBytes := (checkedMul nodeCount words).bind fun cells => checkedMul cells 8
      if min (nodeCount * 2) (USIZE - 1) < values.length ∧
          (bitsetBytes.any fun bytes => decide (bytes ≤ BITSET_REDUCTION_MAX_BYTES)) ∧ allocates then
        bitsetTransitiveReduction words nodeCount successors topological
      else sparseReduction nodeCount successors topological
  else none

section

variable {words nodeCount : Nat} {edges : List (Nat × Nat)}
  (bounds : ∀ edge ∈ edges, edge.1 < nodeCount ∧ edge.2 < nodeCount) (fits : nodeCount ≤ words * 64)
  {order : List Nat} (sorted : Sorted (adjacency (sortedSet pairKey edges)) (List.range nodeCount) order)

include bounds fits sorted

omit bounds sorted in
theorem word_lt {node : Nat} (member : node ∈ List.range nodeCount) : node / 64 < words := by
  have small := List.mem_range.mp member
  omega

theorem test_reachableRows {x : Nat} (member : x ∈ List.range nodeCount) (y : Nat) :
    (reachableRows words (adjacency (sortedSet pairKey edges)) order x).test y ↔
      TransGen (Edge (adjacency (sortedSet pairKey edges))) x y := by
  have closed := values_closed bounds
  refine covers_rows sorted closed (fun rows node known empty below y => ?_) member y
  -- the row holds what the successors before lead to, so a successor it holds adds nothing
  have fold : ∀ (targets : List Nat) (row : BitRow words) (held : Nat → Prop),
      (∀ target ∈ targets, target ∈ adjacency (sortedSet pairKey edges) node) → (∀ y, row.test y ↔ held y) →
      (∀ y z, held y → Reach (adjacency (sortedSet pairKey edges)) y z → held z) →
      ((targets.foldl (fun row successor =>
        if row.test successor then row else (row.set successor).union (rows successor)) row).test y ↔
        held y ∨ ∃ target ∈ targets, Reach (adjacency (sortedSet pairKey edges)) target y) := by
    intro targets
    induction targets with
    | nil =>
      intro row held _ holds _
      rw [List.foldl_nil, holds]
      simp
    | cons target targets ih =>
      intro row held listed holds upward
      rw [List.forall_mem_cons] at listed
      rw [List.foldl_cons]
      by_cases already : row.test target
      · rw [if_pos already, ih row held listed.2 holds upward]
        simp only [List.mem_cons, exists_eq_or_imp]
        refine or_congr_right' fun fresh => ?_
        refine (or_iff_right fun path => fresh ?_).symm
        exact upward target y ((holds target).mp already) path
      · rw [if_neg already]
        have inside := word_lt fits (closed node known target listed.1)
        have path : ∀ y, Reach (adjacency (sortedSet pairKey edges)) target y ↔
            target = y ∨ TransGen (Edge (adjacency (sortedSet pairKey edges))) target y :=
          fun y => reflTransGen_iff_eq_or_transGen.trans (or_congr_left eq_comm)
        have next : ∀ y, ((row.set target).union (rows target)).test y ↔
            held y ∨ Reach (adjacency (sortedSet pairKey edges)) target y := by
          intro y
          rw [BitRow.test_union, Bool.or_eq_true, BitRow.test_set inside, holds, below target listed.1 y, path]
          tauto
        rw [ih _ _ listed.2 next fun y z held' path =>
          held'.imp (fun old => upward y z old path) fun reached => reached.trans path]
        simp only [List.mem_cons, exists_eq_or_imp, or_assoc]
  have targets : ∀ target, target ∈ rankedSuccessors (adjacency (sortedSet pairKey edges)) order node ↔
      target ∈ adjacency (sortedSet pairKey edges) node := fun _ => mem_sortedBy
  rw [empty, fold _ (BitRow.zero words) (fun _ => False) (fun target => (targets target).mp) (by simp)
    (by simp), false_or]
  exact exists_congr fun target => and_congr_left fun _ => targets target

theorem bitsetTransitiveReduction_reduces :
    Reduces edges (bitsetTransitiveReduction words nodeCount (adjacency (sortedSet pairKey edges)) order) := by
  have closed := values_closed bounds
  refine reduces_rows bounds sorted (fun x => (ranked_nodup x).sublist (keep_sublist _ _ _ _)) fun x y => ?_
  refine mem_keep BitRow.test_zero ?_ (ranked_nodup x) (ranked_ascending bounds sorted x) y
  intro covered target listed z _
  have member := ranked_within bounds x target listed
  rw [BitRow.test_union, Bool.or_eq_true, BitRow.test_set (word_lt fits member),
    test_reachableRows bounds fits sorted member, or_assoc]
  exact or_congr_right (reflTransGen_iff_eq_or_transGen.trans (or_congr_left eq_comm)).symm

end

theorem transitiveReduction_spec {nodeCount : Nat} {edges : List (Nat × Nat)}
    (bounds : ∀ edge ∈ edges, edge.1 < nodeCount ∧ edge.2 < nodeCount)
    (acyclic : ∀ x, ¬ TransGen (Linked edges) x x) (allocates : Bool) :
    ∃ direct, transitiveReduction allocates nodeCount edges = some direct ∧ Reduces edges direct := by
  obtain ⟨order, found, sorted⟩ := topologicalOrder_spec (values_closed bounds) min_picks List.nodup_range
    (by rwa [edge_values])
  have checked := validatedEdges_values bounds acyclic
  rw [validatedEdges, Bool.and_eq_true] at checked
  unfold transitiveReduction
  simp only [if_pos checked.1, found, Option.map_some, Option.some.injEq, exists_eq_left']
  split
  · exact bitsetTransitiveReduction_reduces bounds (by omega) sorted
  · exact sparseReduction_reduces bounds sorted

/-- A cycle stops both implementations. -/
theorem transitiveReduction_cyclic {nodeCount : Nat} {edges : List (Nat × Nat)}
    (bounds : ∀ edge ∈ edges, edge.1 < nodeCount ∧ edge.2 < nodeCount) {x : Nat} (cycle : TransGen (Linked edges) x x)
    (allocates : Bool) :
    PyElk.transitiveReduction nodeCount edges = none ∧ transitiveReduction allocates nodeCount edges = none := by
  have unordered : topologicalOrder (adjacency (sortedSet pairKey edges)) List.min?
    (List.range nodeCount) = none := by
    cases found : topologicalOrder (adjacency (sortedSet pairKey edges)) List.min? (List.range nodeCount) with
    | none => rfl
    | some order =>
      have sorted := topologicalOrder_sorted (values_closed bounds) min_picks List.nodup_range found
      exact absurd cycle (order_acyclic bounds sorted x)
  unfold PyElk.transitiveReduction transitiveReduction
  simp only [unordered, Option.map_none, ite_self, and_self]

/-- All paths of both implementations agree. They raise exactly on a cycle, a self edge
included; otherwise each returns the one least set of edges with the same reachability. -/
theorem transitiveReduction_paths {nodeCount : Nat} {edges : List (Nat × Nat)}
    (bounds : ∀ edge ∈ edges, edge.1 < nodeCount ∧ edge.2 < nodeCount) :
    (PyElk.transitiveReduction nodeCount edges = none ↔ ∃ x, TransGen (Linked edges) x x) ∧
    (∀ allocates, transitiveReduction allocates nodeCount edges = none ↔ ∃ x, TransGen (Linked edges) x x) ∧
    ((∀ x, ¬ TransGen (Linked edges) x x) → ∃ order direct,
      topologicalOrder (adjacency (sortedSet pairKey edges)) List.min? (List.range nodeCount) = some order ∧
      PyElk.transitiveReduction nodeCount edges = some direct ∧
      (∀ allocates, transitiveReduction allocates nodeCount edges = some direct) ∧
      sparseReduction nodeCount (adjacency (sortedSet pairKey edges)) order = direct ∧
      bitsetReduction nodeCount (adjacency (sortedSet pairKey edges)) order = direct ∧
      (∀ words, nodeCount ≤ words * 64 →
        bitsetTransitiveReduction words nodeCount (adjacency (sortedSet pairKey edges)) order = direct) ∧
      (∀ x y, ReflTransGen (Linked direct) x y ↔ ReflTransGen (Linked edges) x y) ∧
      ∀ other : List (Nat × Nat), (∀ x y, ReflTransGen (Linked other) x y ↔ ReflTransGen (Linked edges) x y) →
        direct ⊆ other) := by
  have whole : (∃ x, TransGen (Linked edges) x x) ∨ ∀ x, ¬ TransGen (Linked edges) x x := by
    rw [← not_exists]
    exact em _
  refine ⟨?_, fun allocates => ?_, fun acyclic => ?_⟩
  · rcases whole with ⟨x, cycle⟩ | acyclic
    · exact iff_of_true (transitiveReduction_cyclic bounds cycle true).1 ⟨x, cycle⟩
    · obtain ⟨direct, found, -⟩ := PyElk.transitiveReduction_spec bounds acyclic
      exact iff_of_false (by rw [found]; simp) (not_exists.mpr acyclic)
  · rcases whole with ⟨x, cycle⟩ | acyclic
    · exact iff_of_true (transitiveReduction_cyclic bounds cycle allocates).2 ⟨x, cycle⟩
    · obtain ⟨direct, found, -⟩ := transitiveReduction_spec bounds acyclic allocates
      exact iff_of_false (by rw [found]; simp) (not_exists.mpr acyclic)
  · obtain ⟨order, ordered, sorted⟩ := topologicalOrder_spec (values_closed bounds) min_picks List.nodup_range
      (by rwa [edge_values])
    obtain ⟨direct, found, reduces⟩ := PyElk.transitiveReduction_spec bounds acyclic
    refine ⟨order, direct, ordered, found, fun allocates => ?_,
      (sparseReduction_reduces bounds sorted).unique reduces,
      (bitsetReduction_reduces bounds sorted).unique reduces,
      fun words fits => (bitsetTransitiveReduction_reduces bounds fits sorted).unique reduces,
      fun x y => reduces.reach, fun other same => ?_⟩
    · obtain ⟨native, computed, reduces'⟩ := transitiveReduction_spec bounds acyclic allocates
      rw [computed, reduces'.unique reduces]
    · rintro ⟨x, y⟩ member
      exact reduces.least same member

/-- A square with a diagonal that two paths lead around. -/
theorem transitiveReduction_paths_square :
    PyElk.transitiveReduction 4 [(0, 3), (0, 1), (0, 2), (1, 3), (2, 3)] = none ↔
      ∃ x, TransGen (Linked [(0, 3), (0, 1), (0, 2), (1, 3), (2, 3)]) x x :=
  (transitiveReduction_paths (by decide)).1

end PyElk.Native
