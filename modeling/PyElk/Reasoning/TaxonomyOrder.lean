import PyElk.Reasoning.ClassQuery
import PyElk.Reasoning.RealizationExact

open Relation Ordered Components Topological

namespace PyElk

/-- An order of the reversed graph is, read backwards, an order of the graph. -/
theorem sorted_reverse {succ pred : Nat → List Nat} {nodes order : List Nat}
    (backward : ∀ x ∈ nodes, ∀ y, y ∈ succ x → y ∈ nodes ∧ x ∈ pred y) (sorted : Sorted pred nodes order) :
    Sorted succ nodes order.reverse := by
  refine ⟨List.nodup_reverse.mpr sorted.distinct, fun x => by rw [List.mem_reverse, sorted.members], ?_⟩
  intro before node after split x known edge
  have forward : order = after.reverse ++ node :: before.reverse := by
    rw [← order.reverse_reverse, split, List.reverse_append, List.reverse_cons, List.append_assoc,
      List.singleton_append]
  have distinct := sorted.distinct
  rw [forward] at distinct
  obtain ⟨-, tail, apart⟩ := List.nodup_append.mp distinct
  obtain ⟨target, back⟩ := backward x known node edge
  have place := (sorted.members x).mpr known
  rw [forward] at place
  rcases List.mem_append.mp place with early | late
  · -- a source of the reversed edge comes first, so it would stand in front of itself
    obtain ⟨front, rest, cut⟩ := List.append_of_mem early
    have first := sorted.follows front x (rest ++ node :: before.reverse)
      (by rw [forward, cut, List.append_assoc, List.cons_append]) node target back
    exact absurd rfl (apart node (cut ▸ List.mem_append_left _ first) node (.head _))
  · rcases List.mem_cons.mp late with rfl | behind
    · have first := sorted.follows after.reverse x before.reverse forward x target back
      exact absurd rfl (apart x first x (.head _))
    · exact List.mem_reverse.mp behind

section

variable (taxonomy : RawTaxonomy)

/-- The rows of the strict super-nodes exist, and a row holds what lies strictly above its node. -/
theorem RawTaxonomy.strictSuperClosure_spec : ∃ strictSupers, taxonomy.strictSuperClosure = some strictSupers ∧
    ∀ x < taxonomy.nodes.length, ∀ y, y ∈ strictSupers x ↔ TransGen (Linked taxonomy.directEdges) x y := by
  have bounds := taxonomy.edge_bounds
  have swapped : Edge (adjacency (taxonomy.directEdges.map Prod.swap)) =
    Function.swap (Linked taxonomy.directEdges) := by
    funext x y
    exact propext (mem_adjacency.trans linked_swap)
  have acyclic : ∀ x, ¬ TransGen (Edge (adjacency (taxonomy.directEdges.map Prod.swap))) x x := by
    intro x cycle
    rw [swapped, transGen_swap] at cycle
    exact taxonomy.acyclic x cycle
  obtain ⟨order, found, sorted⟩ := @topologicalOrder_spec (adjacency (taxonomy.directEdges.map Prod.swap))
    (List.range taxonomy.nodes.length)
    (fun x _ y edge => List.mem_range.mpr (bounds _ (linked_swap.mp (mem_adjacency.mp edge))).1) List.min?
    (fun ready => ⟨fun node found => List.min?_mem found, List.min?_eq_none_iff.mp⟩) List.nodup_range acyclic
  have backward : ∀ x ∈ List.range taxonomy.nodes.length, ∀ y, y ∈ taxonomy.outgoing x →
      y ∈ List.range taxonomy.nodes.length ∧ x ∈ adjacency (taxonomy.directEdges.map Prod.swap) y := by
    intro x _ y edge
    have linked : Linked taxonomy.directEdges x y := taxonomy.edge_outgoing ▸ edge
    exact ⟨List.mem_range.mpr (bounds _ linked).2, mem_adjacency.mpr (linked_swap.mpr linked)⟩
  refine ⟨_, by rw [strictSuperClosure, found]; rfl, fun x inside y => ?_⟩
  have rows := @Reduction.covers_rows taxonomy.outgoing (List.range taxonomy.nodes.length) (List Nat)
    (fun row y => decide (y ∈ row)) []
    (fun closures node => (taxonomy.outgoing node).flatMap fun super => super :: closures super) order.reverse
    (sorted_reverse backward sorted) (fun x known y edge => (backward x known y edge).1) ?_ x
      (List.mem_range.mpr inside) y
  · rw [decide_eq_true_eq, taxonomy.edge_outgoing] at rows
    dsimp only
    rw [List.foldl_eq_foldr_reverse]
    exact rows
  · intro closures node _ _ below y
    simp only [decide_eq_true_eq, List.mem_flatMap, List.mem_cons] at below ⊢
    refine exists_congr fun target => and_congr_right fun edge => ?_
    rw [below target edge, Reach, reflTransGen_iff_eq_or_transGen, eq_comm]

/-- The strict relatives of a node are what lies strictly above or strictly below it. -/
theorem RawTaxonomy.mem_relativeIndices {start : Nat} {supers : Bool} {y : Nat} :
    y ∈ taxonomy.relativeIndices start supers false ↔
      if supers then TransGen (Linked taxonomy.directEdges) start y
      else TransGen (Linked taxonomy.directEdges) y start := by
  have searched : ∀ edges : List (Nat × Nat),
      (∀ edge ∈ edges, edge.1 < taxonomy.nodes.length ∧ edge.2 < taxonomy.nodes.length) →
      (y ∈ (Collection.run (fun node => ((edges.filter fun edge => edge.1 == node).map Prod.snd).reverse)
          taxonomy.nodes.length ⟨sortedSet id ((edges.filter fun edge => edge.1 == start).map Prod.snd),
            (sortedSet id ((edges.filter fun edge => edge.1 == start).map Prod.snd)).reverse, []⟩).assigned ↔
        TransGen (Linked edges) start y) := by
    intro edges bounds
    have row : ∀ {x z}, z ∈ (edges.filter fun edge => edge.1 == x).map Prod.snd ↔ Linked edges x z := by
      intro x z
      simp only [Linked, List.mem_map, List.mem_filter, beq_iff_eq, Prod.exists]
      constructor
      · rintro ⟨a, b, ⟨edge, rfl⟩, rfl⟩
        exact edge
      · exact fun edge => ⟨x, z, ⟨edge, rfl⟩, rfl⟩
    have relation : (fun a b => b ∈ ((edges.filter fun edge => edge.1 == a).map Prod.snd).reverse) =
      Linked edges := by
      funext a b
      exact propext (List.mem_reverse.trans row)
    have inside : ∀ x ∈ List.range taxonomy.nodes.length,
        ∀ z ∈ ((edges.filter fun edge => edge.1 == x).map Prod.snd).reverse, z ∈ List.range taxonomy.nodes.length :=
      fun x _ z edge => List.mem_range.mpr (bounds _ (row.mp (List.mem_reverse.mp edge))).2
    have searching :
      Collection.Searching (fun node => ((edges.filter fun edge => edge.1 == node).map Prod.snd).reverse)
        (List.range taxonomy.nodes.length) ⟨sortedSet id ((edges.filter fun edge => edge.1 == start).map Prod.snd),
          (sortedSet id ((edges.filter fun edge => edge.1 == start).map Prod.snd)).reverse, []⟩ := by
      refine ⟨fun x => by rw [List.append_nil, List.mem_reverse], ?_, fun x member => ?_, by simp⟩
      · rw [List.append_nil]
        exact List.nodup_reverse.mpr (sortedSet_nodup id _)
      · rw [List.append_nil, List.mem_reverse, mem_sortedSet] at member
        exact List.mem_range.mpr (bounds _ (row.mp member)).2
    rw [searching.run inside (by rw [List.length_range]; exact Nat.le_add_left _ _), relation, TransGen.head'_iff]
    refine exists_congr fun z => and_congr_left fun _ => ?_
    rw [mem_sortedSet, row]
  unfold relativeIndices
  simp only [Bool.false_eq_true, if_false, mem_sortedSet]
  cases supers with
  | true => exact searched taxonomy.directEdges taxonomy.edge_bounds
  | false =>
    have bounds : ∀ edge ∈ taxonomy.directEdges.map Prod.swap,
        edge.1 < taxonomy.nodes.length ∧ edge.2 < taxonomy.nodes.length := by
      intro edge listed
      obtain ⟨other, member, rfl⟩ := List.mem_map.mp listed
      exact (taxonomy.edge_bounds other member).symm
    have relation : Linked (taxonomy.directEdges.map Prod.swap) = Function.swap (Linked taxonomy.directEdges) := by
      funext a b
      exact propext linked_swap
    rw [if_neg Bool.false_ne_true] at *
    refine (searched _ bounds).trans ?_
    rw [relation, transGen_swap]
    rfl

end

end PyElk
