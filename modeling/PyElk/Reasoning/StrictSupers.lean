import PyElk.Reasoning.TaxonomyOrder

open Relation Ordered Components Topological

namespace PyElk

/-- One row of the targets of a list of edges, in the order of the edges. -/
def outgoing (edges : List (Nat × Nat)) (node : Nat) : List Nat :=
  (edges.filter fun edge => edge.1 == node).map Prod.snd

/-- One row of the sources of a list of edges, in the order of the edges. -/
def incoming (edges : List (Nat × Nat)) (node : Nat) : List Nat :=
  (edges.filter fun edge => edge.2 == node).map Prod.fst

namespace Queries

/-- The loop of `_strict_super_closure` in the query module. A node is ready when the
rows of all its super-nodes are filled. -/
structure SuperClosure where
  remaining : Nat → Nat
  ready : List Nat
  closures : Nat → List Nat
  visited : Nat

/-- One super-node of a sub-node is done. -/
def SuperClosure.release (state : SuperClosure) (subNode : Nat) : SuperClosure where
  remaining := Function.update state.remaining subNode (state.remaining subNode - 1)
  ready := if state.remaining subNode - 1 = 0 then state.ready ++ [subNode] else state.ready
  closures := state.closures
  visited := state.visited

/-- One pass of the loop: the least ready node leaves the heap. -/
def SuperClosure.step (edges : List (Nat × Nat)) (state : SuperClosure) : SuperClosure :=
  match state.ready.min? with
  | none => state
  | some node =>
    (incoming edges node).foldl SuperClosure.release
      { remaining := state.remaining
        ready := state.ready.erase node
        closures := Function.update state.closures node
          ((outgoing edges node).flatMap fun superNode => superNode :: state.closures superNode)
        visited := state.visited + 1 }

def SuperClosure.run (edges : List (Nat × Nat)) : Nat → SuperClosure → SuperClosure
  | 0, state => state
  | fuel + 1, state => SuperClosure.run edges fuel (state.step edges)

def SuperClosure.start (nodeCount : Nat) (edges : List (Nat × Nat)) : SuperClosure where
  remaining node := (outgoing edges node).length
  ready := (List.range nodeCount).filter fun node => (outgoing edges node).length == 0
  closures _ := []
  visited := 0

/-- `_strict_super_closure` of the query module: it raises on a cycle. -/
def strictSuperClosure (nodeCount : Nat) (edges : List (Nat × Nat)) : Option (List (List Nat)) :=
  let final := (SuperClosure.start nodeCount edges).run edges nodeCount
  if final.visited = nodeCount then some ((List.range nodeCount).map final.closures) else none

end Queries

/-- `_strict_super_closure` of the realization module. -/
def Realization.strictSuperClosure (nodeCount : Nat) (edges : List (Nat × Nat)) : List (List Nat) :=
  (List.range nodeCount).map fun start => Reduction.mark (outgoing edges)
    ((outgoing edges start).length + ((List.range nodeCount).map (weight (outgoing edges))).sum)
    (outgoing edges start).reverse []

/-- `strict_super_closure` of the native core. -/
def Native.strictSuperClosure (nodeCount : Nat) (edges : List (Nat × Nat)) : Option (List (List Nat)) :=
  if edges.all fun edge => decide (edge.1 < nodeCount) && decide (edge.2 < nodeCount) then
    some ((List.range nodeCount).map fun start => sortedSet id (Reduction.mark (outgoing edges)
      ((outgoing edges start).length + ((List.range nodeCount).map (weight (outgoing edges))).sum)
      (outgoing edges start).reverse []))
  else none

/-- Direct edges between taxonomy nodes, without a cycle. -/
structure NodeGraph where
  nodeCount : Nat
  directEdges : List (Nat × Nat)
  bounds : ∀ edge ∈ directEdges, edge.1 < nodeCount ∧ edge.2 < nodeCount
  acyclic : ∀ node, ¬ TransGen (Linked directEdges) node node

/-- A validated taxonomy is such a graph. -/
def RawTaxonomy.graph (taxonomy : RawTaxonomy) : NodeGraph where
  nodeCount := taxonomy.nodes.length
  directEdges := taxonomy.directEdges
  bounds := taxonomy.edge_bounds
  acyclic := taxonomy.acyclic

/-- The rows of a graph, one for each node, that hold what lies strictly above it. -/
def NodeGraph.StrictRows (graph : NodeGraph) (rows : List (List Nat)) : Prop :=
  rows.length = graph.nodeCount ∧
    ∀ x < graph.nodeCount, ∀ y, y ∈ rows.getD x [] ↔ TransGen (Linked graph.directEdges) x y

section

variable {edges : List (Nat × Nat)} {x y : Nat}

@[simp] theorem mem_outgoing : y ∈ outgoing edges x ↔ Linked edges x y := by
  simp only [outgoing, Linked, List.mem_map, List.mem_filter, beq_iff_eq, Prod.exists]
  constructor
  · rintro ⟨a, b, ⟨edge, rfl⟩, rfl⟩
    exact edge
  · intro edge
    exact ⟨x, y, ⟨edge, rfl⟩, rfl⟩

@[simp] theorem mem_incoming : y ∈ incoming edges x ↔ Linked edges y x := by
  simp only [incoming, Linked, List.mem_map, List.mem_filter, beq_iff_eq, Prod.exists]
  constructor
  · rintro ⟨a, b, ⟨edge, rfl⟩, rfl⟩
    exact edge
  · intro edge
    exact ⟨y, x, ⟨edge, rfl⟩, rfl⟩

/-- The outgoing rows have the edges of the graph. -/
theorem edge_outgoing : Edge (outgoing edges) = Linked edges := by
  funext x y
  exact propext mem_outgoing

/-- The incoming rows have the edges of the graph the other way around. -/
theorem edge_incoming : Edge (incoming edges) = Function.swap (Linked edges) := by
  funext x y
  exact propext mem_incoming

theorem outgoing_cons (edge : Nat × Nat) (rest : List (Nat × Nat)) (node : Nat) :
    outgoing (edge :: rest) node = if edge.1 = node then edge.2 :: outgoing rest node else outgoing rest node := by
  simp only [outgoing, List.filter_cons, beq_iff_eq]
  split
  · rfl
  · rfl

theorem incoming_cons (edge : Nat × Nat) (rest : List (Nat × Nat)) (node : Nat) :
    incoming (edge :: rest) node = if edge.2 = node then edge.1 :: incoming rest node else incoming rest node := by
  simp only [incoming, List.filter_cons, beq_iff_eq]
  split
  · rfl
  · rfl

theorem sum_indicator (nodes : List Nat) (target : Nat) :
    (nodes.map fun node => if node = target then 1 else 0).sum = nodes.count target := by
  induction nodes with
  | nil => rfl
  | cons node rest ih =>
    rw [List.map_cons, List.sum_cons, ih, List.count_cons, Nat.add_comm]
    simp only [beq_iff_eq]

/-- A source occurs in the rows of incoming edges as often as it has edges. -/
theorem indegree_incoming {nodeCount : Nat} (bounds : ∀ edge ∈ edges, edge.1 < nodeCount ∧ edge.2 < nodeCount) :
    indegree (incoming edges) (List.range nodeCount) x = (outgoing edges x).length := by
  unfold indegree
  induction edges with
  | nil => simp [incoming, outgoing]
  | cons edge rest ih =>
    have below : edge.2 < nodeCount := (bounds edge (.head _)).2
    have others := ih fun other member => bounds other (.tail _ member)
    have once : (List.range nodeCount).count edge.2 = 1 :=
      List.count_eq_one_of_mem List.nodup_range (List.mem_range.mpr below)
    by_cases source : edge.1 = x
    · have rows : ∀ node, (incoming (edge :: rest) node).count x =
          (incoming rest node).count x + if node = edge.2 then 1 else 0 := by
        intro node
        rw [incoming_cons, source]
        by_cases target : edge.2 = node
        · rw [if_pos target, List.count_cons_self, if_pos target.symm]
        · rw [if_neg target, if_neg (Ne.symm target), Nat.add_zero]
      simp only [rows]
      rw [List.sum_map_add, others, sum_indicator, once, outgoing_cons, if_pos source, List.length_cons]
    · have rows : ∀ node, (incoming (edge :: rest) node).count x = (incoming rest node).count x := by
        intro node
        rw [incoming_cons]
        by_cases target : edge.2 = node
        · rw [if_pos target, List.count_cons_of_ne source]
        · rw [if_neg target]
      simp only [rows]
      rw [outgoing_cons, if_neg source]
      exact others

end

namespace Queries

variable {edges : List (Nat × Nat)} {nodeCount : Nat}

/-- The row of a node once the rows of its super-nodes are filled. -/
def fill (edges : List (Nat × Nat)) (closures : Nat → List Nat) (node : Nat) : Nat → List Nat :=
  Function.update closures node ((outgoing edges node).flatMap fun superNode => superNode :: closures superNode)

/-- The loop keeps step with the topological order of the reversed edges. -/
structure SuperClosure.Follows (edges : List (Nat × Nat)) (state : SuperClosure)
    (order : Topological.Ordering) : Prop where
  remaining : state.remaining = order.indegrees
  ready : state.ready = order.ready
  visited : state.visited = order.ordered.length
  closures : state.closures = order.ordered.foldl (fill edges) fun _ => []

theorem SuperClosure.Follows.release_all {state : SuperClosure} {order : Topological.Ordering}
    (follows : state.Follows edges order)
    (subNodes : List Nat) :
    (subNodes.foldl SuperClosure.release state).Follows edges (subNodes.foldl Ordering.release order) := by
  induction subNodes generalizing state order with
  | nil => exact follows
  | cons subNode rest ih =>
    refine ih ⟨?_, ?_, follows.visited, follows.closures⟩
    · simp only [SuperClosure.release, Ordering.release, follows.remaining]
    · simp only [SuperClosure.release, Ordering.release, follows.remaining, follows.ready]

/-- One turn of the closure is a turn of the topological order. -/
theorem SuperClosure.Follows.step {state : SuperClosure} {order : Topological.Ordering}
    (follows : state.Follows edges order) :
    (state.step edges).Follows edges (order.step (incoming edges) List.min?) := by
  unfold SuperClosure.step Ordering.step
  rw [follows.ready]
  cases order.ready.min? with
  | none => exact follows
  | some node =>
    apply SuperClosure.Follows.release_all
    refine ⟨follows.remaining, rfl, ?_, ?_⟩
    · rw [follows.visited, List.length_append, List.length_singleton]
    · rw [List.foldl_append, List.foldl_cons, List.foldl_nil, ← follows.closures]
      rfl

/-- The closure goes through the nodes as the topological order does. -/
theorem SuperClosure.Follows.run {state : SuperClosure} {order : Topological.Ordering}
    (follows : state.Follows edges order)
    (fuel : Nat) : (state.run edges fuel).Follows edges (Ordering.run (incoming edges) List.min? fuel order) := by
  induction fuel generalizing state order with
  | zero => exact follows
  | succ fuel ih => exact ih follows.step

variable (bounds : ∀ edge ∈ edges, edge.1 < nodeCount ∧ edge.2 < nodeCount)

include bounds

/-- The single loop orders the nodes and fills their rows in that order. -/
theorem strictSuperClosure_eq : strictSuperClosure nodeCount edges =
    (topologicalOrder (incoming edges) List.min? (List.range nodeCount)).map fun order =>
      (List.range nodeCount).map (order.foldl (fill edges) fun _ => []) := by
  have started : (SuperClosure.start nodeCount edges).Follows edges
      ⟨indegree (incoming edges) (List.range nodeCount), (List.range nodeCount).filter fun node =>
        indegree (incoming edges) (List.range nodeCount) node == 0, []⟩ := by
    have counts : indegree (incoming edges) (List.range nodeCount) = fun node => (outgoing edges node).length := by
      funext node
      exact indegree_incoming bounds
    rw [counts]
    exact ⟨rfl, rfl, rfl, rfl⟩
  have final := started.run nodeCount
  simp only [strictSuperClosure, topologicalOrder, final.visited, final.closures, List.length_range]
  split
  · rfl
  · rfl

end Queries

section

variable (graph : NodeGraph)

theorem NodeGraph.target {x y : Nat} (edge : y ∈ outgoing graph.directEdges x) : y ∈ List.range graph.nodeCount :=
  List.mem_range.mpr (graph.bounds _ (mem_outgoing.mp edge)).2

/-- The dynamic programme of the query module ends with every row. -/
theorem NodeGraph.queries_strictRows : ∃ rows,
    Queries.strictSuperClosure graph.nodeCount graph.directEdges = some rows ∧ graph.StrictRows rows := by
  have acyclic : ∀ x, ¬ TransGen (Edge (incoming graph.directEdges)) x x := by
    intro x cycle
    rw [edge_incoming, transGen_swap] at cycle
    exact graph.acyclic x cycle
  obtain ⟨order, found, sorted⟩ := @topologicalOrder_spec (incoming graph.directEdges) (List.range graph.nodeCount)
    (fun x _ y edge => List.mem_range.mpr (graph.bounds _ (mem_incoming.mp edge)).1) List.min?
    (fun ready => ⟨fun node found => List.min?_mem found, List.min?_eq_none_iff.mp⟩) List.nodup_range acyclic
  have backward : ∀ x ∈ List.range graph.nodeCount, ∀ y, y ∈ outgoing graph.directEdges x →
      y ∈ List.range graph.nodeCount ∧ x ∈ incoming graph.directEdges y := by
    intro x _ y edge
    exact ⟨graph.target edge, mem_incoming.mpr (mem_outgoing.mp edge)⟩
  refine ⟨_, by rw [Queries.strictSuperClosure_eq graph.bounds, found]; rfl,
    by rw [List.length_map, List.length_range], fun x inside y => ?_⟩
  rw [List.getD_eq_getElem?_getD, List.getElem?_map, List.getElem?_range inside, Option.map_some, Option.getD_some]
  have rows := @Reduction.covers_rows (outgoing graph.directEdges) (List.range graph.nodeCount) (List Nat)
    (fun row y => decide (y ∈ row)) []
    (fun closures node => (outgoing graph.directEdges node).flatMap fun superNode => superNode :: closures superNode)
    order.reverse (sorted_reverse backward sorted) (fun x known y edge => (backward x known y edge).1) ?_ x
    (List.mem_range.mpr inside) y
  · rw [decide_eq_true_eq, edge_outgoing] at rows
    rw [List.foldl_eq_foldr_reverse]
    exact rows
  · intro closures node _ _ below y
    simp only [decide_eq_true_eq, List.mem_flatMap, List.mem_cons] at below ⊢
    refine exists_congr fun target => and_congr_right fun edge => ?_
    rw [below target edge, Reach, reflTransGen_iff_eq_or_transGen, eq_comm]

/-- The search from a node finds what a path of edges leads to. -/
theorem NodeGraph.mem_search {start y : Nat} :
    y ∈ Reduction.mark (outgoing graph.directEdges) ((outgoing graph.directEdges start).length +
        ((List.range graph.nodeCount).map (weight (outgoing graph.directEdges))).sum)
      (outgoing graph.directEdges start).reverse [] ↔ TransGen (Linked graph.directEdges) start y := by
  have searched := @Reduction.mem_mark (outgoing graph.directEdges) (List.range graph.nodeCount)
    (fun x _ y edge => graph.target edge) List.nodup_range ((outgoing graph.directEdges start).length +
      ((List.range graph.nodeCount).map (weight (outgoing graph.directEdges))).sum)
    (outgoing graph.directEdges start).reverse [] (fun z edge => graph.target (List.mem_reverse.mp edge))
    (fun z known => absurd known List.not_mem_nil) (by simp) y
  rw [searched, or_iff_right List.not_mem_nil, ← edge_outgoing, TransGen.head'_iff]
  exact exists_congr fun z => and_congr_left fun _ => List.mem_reverse

/-- The closure of `realization.py` has the strict super nodes of every node. -/
theorem NodeGraph.realization_strictRows :
    graph.StrictRows (Realization.strictSuperClosure graph.nodeCount graph.directEdges) := by
  refine ⟨by rw [Realization.strictSuperClosure, List.length_map, List.length_range], fun x inside y => ?_⟩
  rw [Realization.strictSuperClosure, List.getD_eq_getElem?_getD, List.getElem?_map, List.getElem?_range inside,
    Option.map_some, Option.getD_some]
  exact graph.mem_search

/-- The native closure has the strict super nodes of every node, and finds no cycle. -/
theorem NodeGraph.native_strictRows : ∃ rows,
    Native.strictSuperClosure graph.nodeCount graph.directEdges = some rows ∧ graph.StrictRows rows := by
  have within : graph.directEdges.all fun edge => decide (edge.1 < graph.nodeCount) && decide
    (edge.2 < graph.nodeCount) := by
    rw [List.all_eq_true]
    intro edge listed
    rw [Bool.and_eq_true, decide_eq_true_eq, decide_eq_true_eq]
    exact graph.bounds edge listed
  refine ⟨_, if_pos within, by rw [List.length_map, List.length_range], fun x inside y => ?_⟩
  rw [List.getD_eq_getElem?_getD, List.getElem?_map, List.getElem?_range inside, Option.map_some, Option.getD_some,
    mem_sortedSet]
  exact graph.mem_search

end

section

variable (taxonomy : RawTaxonomy)

/-- On the sorted edges of a taxonomy the loop is the order and the rows read off it. -/
theorem RawTaxonomy.strictSuperClosure_eq : Queries.strictSuperClosure taxonomy.nodes.length taxonomy.directEdges =
    taxonomy.strictSuperClosure.map fun rows => (List.range taxonomy.nodes.length).map rows := by
  have sources : incoming taxonomy.directEdges = adjacency (taxonomy.directEdges.map Prod.swap) := by
    funext node
    refine @eq_of_strict _ _ _ id _ _ ?_ (sortedSet_strict Function.injective_id _) fun x => ?_
    · -- edges to one node are in the order of their sources
      refine List.pairwise_map.mpr ((taxonomy.edges_strict.filter _).imp_of_mem fun {a b} left right below => ?_)
      have same : a.2 = b.2 := by
        rw [beq_iff_eq.mp (List.mem_filter.mp left).2, beq_iff_eq.mp (List.mem_filter.mp right).2]
      rcases Prod.Lex.toLex_lt_toLex.mp below with first | second
      · exact first
      · exact absurd same (Nat.ne_of_lt second.2)
    · rw [mem_incoming]
      exact (mem_adjacency.trans linked_swap).symm
  rw [Queries.strictSuperClosure_eq taxonomy.edge_bounds, sources]
  unfold strictSuperClosure
  rw [Option.map_map]
  rfl

theorem RawTaxonomy.strictSupers_eq : Realization.strictSuperClosure taxonomy.nodes.length taxonomy.directEdges =
    (List.range taxonomy.nodes.length).map taxonomy.strictSupers := rfl

end

/-- The three strict-ancestor closures agree on every acyclic graph: each row is what a path of
edges leads to. The cycle error of the query module is out of reach of a validated taxonomy. -/
theorem strictSuperClosures_agree :
    (∀ graph : NodeGraph, ∃ queries native,
      Queries.strictSuperClosure graph.nodeCount graph.directEdges = some queries ∧
      Native.strictSuperClosure graph.nodeCount graph.directEdges = some native ∧
      graph.StrictRows queries ∧
      graph.StrictRows (Realization.strictSuperClosure graph.nodeCount graph.directEdges) ∧
      graph.StrictRows native) ∧
    ∀ taxonomy : RawTaxonomy, (Queries.strictSuperClosure taxonomy.nodes.length taxonomy.directEdges).isSome := by
  constructor
  · intro graph
    obtain ⟨queries, computed, rows⟩ := graph.queries_strictRows
    obtain ⟨native, found, rows'⟩ := graph.native_strictRows
    exact ⟨queries, native, computed, found, rows, graph.realization_strictRows, rows'⟩
  · intro taxonomy
    obtain ⟨rows, computed, -⟩ := taxonomy.graph.queries_strictRows
    exact Option.isSome_of_eq_some computed

end PyElk
