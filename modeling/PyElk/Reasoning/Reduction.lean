import Mathlib.Data.List.Lex
import PyElk.Reasoning.Snapshot
import PyElk.Support.Reduction

open Relation Components Topological Reduction Ordered

namespace PyElk

def BITSET_NODE_LIMIT : Nat := 8192

/-- `_validated_edges`. -/
def validatedEdges (nodeCount : Nat) (edges : List (Nat × Nat)) : Bool :=
  (edges.all fun edge => decide (edge.1 < nodeCount) && decide (edge.2 < nodeCount) && edge.1 != edge.2) &&
    checkSortedUnique pairKey edges

/-- One row of the adjacency table, ascending. -/
def adjacency (edges : List (Nat × Nat)) (node : Nat) : List Nat :=
  sortedSet id ((edges.filter fun edge => edge.1 == node).map Prod.snd)

/-- The direct edges that `directSuccessors` leaves of every row. -/
def directEdges (nodeCount : Nat) (directSuccessors : Nat → List Nat) : List (Nat × Nat) :=
  sortedBy pairKey ((List.range nodeCount).flatMap fun sub => (directSuccessors sub).map fun super => (sub, super))

/-- The unique transitive reduction of a finite DAG. -/
def transitiveReduction (nodeCount : Nat) (edges : List (Nat × Nat)) : Option (List (Nat × Nat)) :=
  let values := sortedSet pairKey edges
  let successors := adjacency values
  if validatedEdges nodeCount values then
    (topologicalOrder successors List.min? (List.range nodeCount)).map fun topological =>
      let ranked := fun sub => sortedBy topological.idxOf (successors sub)
      if nodeCount ≤ BITSET_NODE_LIMIT ∧ nodeCount * 2 < values.length then
        directEdges nodeCount fun sub => bitsetSuccessors (reachableRows successors topological) (ranked sub)
      else
        directEdges nodeCount fun sub => markedSuccessors successors (List.range nodeCount) (ranked sub)
  else none

/-- The checks of `ReducedGraph.__post_init__`. -/
structure ReducedGraph.Valid (nodes : List (List Nat)) (directEdges : List (Nat × Nat)) : Prop where
  nonempty : ∀ node ∈ nodes, node ≠ []
  sorted : ∀ node ∈ nodes, node.Pairwise (· < ·)
  canonical : nodes.Pairwise (· < ·)
  unique : nodes.flatten.Nodup
  edges : validatedEdges nodes.length directEdges

instance ReducedGraph.decidableValid (nodes : List (List Nat)) (directEdges : List (Nat × Nat)) :
    Decidable (ReducedGraph.Valid nodes directEdges) :=
  decidable_of_iff
    ((∀ node ∈ nodes, node ≠ []) ∧ (∀ node ∈ nodes, node.Pairwise (· < ·)) ∧ nodes.Pairwise (· < ·) ∧
      nodes.flatten.Nodup ∧ validatedEdges nodes.length directEdges)
    ⟨fun ⟨a, b, c, d, e⟩ => ⟨a, b, c, d, e⟩, fun ⟨a, b, c, d, e⟩ => ⟨a, b, c, d, e⟩⟩

/-- Canonical quotient nodes and direct `sub -> super` component edges. -/
structure ReducedGraph where
  nodes : List (List Nat)
  directEdges : List (Nat × Nat)
  valid : ReducedGraph.Valid nodes directEdges

/-- `node_for`: the canonical component that contains `member`. -/
def nodeFor (nodes : List (List Nat)) (member : Nat) : Nat :=
  nodes.findIdx fun node => decide (member ∈ node)

/-- The edges between different components. -/
def componentEdges (nodes : List (List Nat)) (edges : List (Nat × Nat)) : List (Nat × Nat) :=
  (edges.map fun edge => (nodeFor nodes edge.1, nodeFor nodes edge.2)).filter fun edge => edge.1 != edge.2

/-- Collapse mutual reachability and reduce the resulting DAG. -/
def quotientAndReduce (members : List Nat) (edges : List (Nat × Nat)) : Option ReducedGraph :=
  if members.Nodup ∧ ∀ edge ∈ edges, edge.1 ∈ members ∧ edge.2 ∈ members then
    let proper := edges.filter fun edge => edge.1 != edge.2
    let successors := adjacency proper
    let predecessors := adjacency (proper.map Prod.swap)
    let nodes := sortedBy id (strongComponents successors predecessors (sortedBy id members))
    (transitiveReduction nodes.length (componentEdges nodes proper)).bind fun direct =>
      if valid : ReducedGraph.Valid nodes direct then some ⟨nodes, direct, valid⟩ else none
  else none

/-- The edge relation of a list of edges. -/
def Linked (edges : List (Nat × Nat)) (x y : Nat) : Prop := (x, y) ∈ edges

instance (edges : List (Nat × Nat)) (x y : Nat) : Decidable (Linked edges x y) :=
  inferInstanceAs (Decidable ((x, y) ∈ edges))

@[simp] theorem mem_adjacency {edges : List (Nat × Nat)} {x y : Nat} : y ∈ adjacency edges x ↔ (x, y) ∈ edges := by
  simp only [adjacency, mem_sortedSet, List.mem_map, List.mem_filter, beq_iff_eq, Prod.exists]
  constructor
  · rintro ⟨a, b, ⟨edge, rfl⟩, rfl⟩
    exact edge
  · exact fun edge => ⟨x, y, ⟨edge, rfl⟩, rfl⟩

/-- The adjacency of a list of edges has the edges of the list. -/
theorem edge_adjacency {edges values : List (Nat × Nat)} (same : ∀ edge, edge ∈ values ↔ edge ∈ edges) :
    Edge (adjacency values) = Linked edges := by
  funext x y
  exact propext (mem_adjacency.trans (same (x, y)))

/-- An edge that other edges lead around. -/
def Indirect (edges : List (Nat × Nat)) (x y : Nat) : Prop :=
  ∃ z, Linked edges x z ∧ z ≠ y ∧ ReflTransGen (Linked edges) z y

/-- An edge is redundant among the successors exactly when it is implied by others. -/
theorem indirect_iff {edges values : List (Nat × Nat)} (same : ∀ edge, edge ∈ values ↔ edge ∈ edges)
    {targets : List Nat}
    {x y : Nat} (targets_eq : ∀ z, z ∈ targets ↔ Linked edges x z) :
    Redundant (adjacency values) targets y ↔ Indirect edges x y := by
  unfold Redundant Indirect Reach
  rw [edge_adjacency same]
  exact exists_congr fun z => and_congr_left fun _ => targets_eq z

/-- The direct edges are those of the direct successors, row by row. -/
theorem linked_directEdges {nodeCount : Nat} {directSuccessors : Nat → List Nat} {x y : Nat} :
    Linked (directEdges nodeCount directSuccessors) x y ↔ x < nodeCount ∧ y ∈ directSuccessors x := by
  simp only [Linked, directEdges, mem_sortedBy, List.mem_flatMap, List.mem_range, List.mem_map, Prod.mk.injEq]
  constructor
  · rintro ⟨_, bound, _, member, rfl, rfl⟩
    exact ⟨bound, member⟩
  · rintro ⟨bound, member⟩
    exact ⟨x, bound, y, member, rfl, rfl⟩

theorem directEdges_strict {nodeCount : Nat} {directSuccessors : Nat → List Nat}
    (distinct : ∀ x, (directSuccessors x).Nodup) :
    (directEdges nodeCount directSuccessors).Pairwise fun a b => pairKey a < pairKey b := by
  have nodup : ((List.range nodeCount).flatMap fun sub =>
      (directSuccessors sub).map fun super => (sub, super)).Nodup := by
    refine List.nodup_flatMap.mpr ⟨fun sub _ => (distinct sub).map fun _ _ same => (Prod.mk.inj same).2, ?_⟩
    refine List.nodup_range.imp fun {a b} apart => ?_
    intro edge left right
    obtain ⟨_, _, rfl⟩ := List.mem_map.mp left
    obtain ⟨_, _, same⟩ := List.mem_map.mp right
    exact apart (Prod.mk.inj same).1.symm
  refine ((sortedBy_pairwise pairKey _).and (sortedBy_nodup nodup)).imp ?_
  exact fun ⟨le, ne⟩ => lt_of_le_of_ne le fun same => ne (pairKey_injective same)

/-- `direct` is the ascending list of the irredundant edges of a graph that a rank shows
to be acyclic. -/
structure Reduces (edges direct : List (Nat × Nat)) : Prop where
  strict : direct.Pairwise fun a b => pairKey a < pairKey b
  linked : ∀ x y, Linked direct x y ↔ Linked edges x y ∧ ¬ Indirect edges x y
  ranked : ∃ rank : Nat → Nat, ∀ x y, Linked edges x y → rank x < rank y

/-- The targets of a node in topological order. -/
def rankedSuccessors (successors : Nat → List Nat) (topological : List Nat) (sub : Nat) : List Nat :=
  sortedBy topological.idxOf (successors sub)

/-- The sparse path: one marking pass for each kept successor. -/
def sparseReduction (nodeCount : Nat) (successors : Nat → List Nat) (topological : List Nat) : List (Nat × Nat) :=
  directEdges nodeCount fun sub =>
    markedSuccessors successors (List.range nodeCount) (rankedSuccessors successors topological sub)

/-- `_bitset_reduction`. -/
def bitsetReduction (nodeCount : Nat) (successors : Nat → List Nat) (topological : List Nat) : List (Nat × Nat) :=
  directEdges nodeCount fun sub =>
    bitsetSuccessors (reachableRows successors topological) (rankedSuccessors successors topological sub)

section

variable {nodeCount : Nat} {edges : List (Nat × Nat)}
  (bounds : ∀ edge ∈ edges, edge.1 < nodeCount ∧ edge.2 < nodeCount)

theorem edge_values : Edge (adjacency (sortedSet pairKey edges)) = Linked edges :=
  edge_adjacency fun _ => mem_sortedSet

theorem mem_values {x y : Nat} : y ∈ adjacency (sortedSet pairKey edges) x ↔ Linked edges x y :=
  mem_adjacency.trans mem_sortedSet

include bounds

/-- The successors of a node of the graph are nodes of the graph. -/
theorem values_closed : ∀ x ∈ List.range nodeCount, ∀ y ∈ adjacency (sortedSet pairKey edges) x,
    y ∈ List.range nodeCount := by
  intro x _ y edge
  exact List.mem_range.mpr (bounds _ (mem_values.mp edge)).2

omit bounds in
theorem min_picks (ready : List Nat) : (∀ node, ready.min? = some node → node ∈ ready) ∧
    (ready.min? = none → ready = []) :=
  ⟨fun _ found => List.min?_mem found, List.min?_eq_none_iff.mp⟩

theorem validatedEdges_values (acyclic : ∀ x, ¬ TransGen (Linked edges) x x) :
    validatedEdges nodeCount (sortedSet pairKey edges) := by
  unfold validatedEdges
  rw [checkSortedUnique_sortedSet pairKey_injective, Bool.and_true, List.all_eq_true]
  intro edge listed
  have member : edge ∈ edges := mem_sortedSet.mp listed
  have apart : edge.1 ≠ edge.2 := by
    intro loop
    refine acyclic edge.1 (.single ?_)
    show (edge.1, edge.1) ∈ edges
    nth_rewrite 2 [loop]
    exact member
  simp [bounds edge member, apart]

variable {order : List Nat} (sorted : Sorted (adjacency (sortedSet pairKey edges)) (List.range nodeCount) order)

include sorted

/-- Along an edge the place in a topological order grows. -/
theorem order_raises : ∀ x y, Linked edges x y → order.idxOf x < order.idxOf y := fun _ _ edge =>
  sorted.lt (List.mem_range.mpr (bounds _ edge).1) (List.mem_range.mpr (bounds _ edge).2) (mem_values.mpr edge)

/-- A topological order leaves no cycle. -/
theorem order_acyclic (x : Nat) : ¬ TransGen (Linked edges) x x := by
  have raises := order_raises bounds sorted
  intro cycle
  obtain ⟨y, edge, back⟩ := TransGen.head'_iff.mp cycle
  have up := raises x y edge
  rcases rank_le raises back with rfl | down <;> omega

omit bounds sorted in
theorem mem_ranked {x y : Nat} :
    y ∈ rankedSuccessors (adjacency (sortedSet pairKey edges)) order x ↔ Linked edges x y :=
  mem_sortedBy.trans mem_values

omit bounds sorted in
theorem ranked_nodup (x : Nat) : (rankedSuccessors (adjacency (sortedSet pairKey edges)) order x).Nodup :=
  sortedBy_nodup (sortedSet_nodup _ _)

/-- Successors are visited in topological order. -/
theorem ranked_ascending (x : Nat) : (rankedSuccessors (adjacency (sortedSet pairKey edges)) order x).Pairwise
    fun a b => ¬ Reach (adjacency (sortedSet pairKey edges)) b a := by
  refine ((sortedBy_pairwise order.idxOf _).and (ranked_nodup x)).imp ?_
  rintro a b ⟨le, ne⟩ path
  unfold Reach at path
  rw [edge_values] at path
  rcases rank_le (order_raises bounds sorted) path with equal | below
  · exact ne equal.symm
  · omega

omit sorted in
theorem ranked_within (x : Nat) : ∀ y ∈ rankedSuccessors (adjacency (sortedSet pairKey edges)) order x,
    y ∈ List.range nodeCount :=
  fun _ member => List.mem_range.mpr (bounds _ (mem_ranked.mp member)).2

/-- Rows that keep the irredundant targets give a reduction. -/
theorem reduces_rows {directSuccessors : Nat → List Nat} (distinct : ∀ x, (directSuccessors x).Nodup)
    (spec : ∀ x y, y ∈ directSuccessors x ↔ y ∈ rankedSuccessors (adjacency (sortedSet pairKey edges)) order x ∧
      ¬ Redundant (adjacency (sortedSet pairKey edges))
        (rankedSuccessors (adjacency (sortedSet pairKey edges)) order x) y) :
    Reduces edges (directEdges nodeCount directSuccessors) := by
  refine ⟨directEdges_strict distinct, fun x y => ?_, order.idxOf, order_raises bounds sorted⟩
  rw [linked_directEdges, spec, mem_ranked, indirect_iff (fun _ => mem_sortedSet) fun _ => mem_ranked]
  exact ⟨fun ⟨_, kept⟩ => kept, fun kept => ⟨(bounds _ kept.1).1, kept⟩⟩

/-- The reduction by marks is the transitive reduction. -/
theorem sparseReduction_reduces :
    Reduces edges (sparseReduction nodeCount (adjacency (sortedSet pairKey edges)) order) :=
  reduces_rows bounds sorted (fun x => (ranked_nodup x).sublist (markedSuccessors_sublist _ _)) fun x y =>
    mem_markedSuccessors (values_closed bounds) List.nodup_range (ranked_within bounds x) (ranked_nodup x)
      (ranked_ascending bounds sorted x) y

/-- The reduction by bit rows is the transitive reduction. -/
theorem bitsetReduction_reduces :
    Reduces edges (bitsetReduction nodeCount (adjacency (sortedSet pairKey edges)) order) :=
  reduces_rows bounds sorted (fun x => (ranked_nodup x).sublist (keep_sublist _ _ _ _)) fun x y =>
    mem_bitsetSuccessors (values_closed bounds) (ranked_within bounds x) (ranked_nodup x)
      (ranked_ascending bounds sorted x) sorted y

end

/-- An acyclic relation on the nodes has its reduction computed, without an error. -/
theorem transitiveReduction_spec {nodeCount : Nat} {edges : List (Nat × Nat)}
    (bounds : ∀ edge ∈ edges, edge.1 < nodeCount ∧ edge.2 < nodeCount)
    (acyclic : ∀ x, ¬ TransGen (Linked edges) x x) :
    ∃ direct, transitiveReduction nodeCount edges = some direct ∧ Reduces edges direct := by
  obtain ⟨order, found, sorted⟩ := topologicalOrder_spec (values_closed bounds) min_picks List.nodup_range
    (by rwa [edge_values])
  unfold transitiveReduction
  simp only [if_pos (validatedEdges_values bounds acyclic), found, Option.map_some, Option.some.injEq,
    exists_eq_left']
  split
  · exact bitsetReduction_reduces bounds sorted
  · exact sparseReduction_reduces bounds sorted

/-- There is one transitive reduction in canonical order. -/
theorem Reduces.unique {edges direct other : List (Nat × Nat)} (left : Reduces edges direct)
    (right : Reduces edges other) : direct = other :=
  eq_of_strict left.strict right.strict fun (x, y) => (left.linked x y).trans (right.linked x y).symm

/-- A transitive reduction keeps what can be reached. -/
theorem Reduces.reach {edges direct : List (Nat × Nat)} (reduces : Reduces edges direct) {x y : Nat} :
    ReflTransGen (Linked direct) x y ↔ ReflTransGen (Linked edges) x y := by
  obtain ⟨rank, raises⟩ := reduces.ranked
  exact reach_irredundant raises reduces.linked

theorem Reduces.acyclic {edges direct : List (Nat × Nat)} (reduces : Reduces edges direct) (x : Nat) :
    ¬ TransGen (Linked direct) x x := by
  obtain ⟨rank, raises⟩ := reduces.ranked
  intro cycle
  obtain ⟨y, edge, back⟩ := TransGen.head'_iff.mp cycle
  have up := raises x y ((reduces.linked x y).mp edge).1
  rcases rank_le raises (reduces.reach.mp back) with rfl | down <;> omega

/-- A reduction is its own reduction. -/
theorem Reduces.again {edges direct : List (Nat × Nat)} (reduces : Reduces edges direct) : Reduces direct direct where
  strict := reduces.strict
  linked := by
    intro x y
    refine (and_iff_left_of_imp fun edge => ?_).symm
    rintro ⟨z, link, apart, path⟩
    refine ((reduces.linked x y).mp edge).2 ⟨z, ((reduces.linked x z).mp link).1, apart, ?_⟩
    exact reduces.reach.mp path
  ranked := by
    obtain ⟨rank, raises⟩ := reduces.ranked
    exact ⟨rank, fun x y edge => raises x y ((reduces.linked x y).mp edge).1⟩

section

variable {nodes : List (List Nat)}

/-- A covered member is found in the node that is looked up for it. -/
theorem nodeFor_spec {x : Nat} (covered : x ∈ nodes.flatten) :
    ∃ node, nodes[nodeFor nodes x]? = some node ∧ x ∈ node := by
  obtain ⟨node, listed, member⟩ := List.mem_flatten.mp covered
  have bound : nodeFor nodes x < nodes.length :=
    List.findIdx_lt_length_of_exists ⟨node, listed, decide_eq_true member⟩
  exact ⟨nodes[nodeFor nodes x], List.getElem?_eq_getElem bound,
    of_decide_eq_true (List.findIdx_getElem (w := bound))⟩

theorem nodeFor_eq (unique : nodes.flatten.Nodup) {x index : Nat} {node : List Nat}
    (entry : nodes[index]? = some node)
    (member : x ∈ node) : nodeFor nodes x = index := by
  obtain ⟨other, found, inside⟩ := nodeFor_spec (List.mem_flatten.mpr ⟨node, List.mem_of_getElem? entry, member⟩)
  obtain ⟨bound, rfl⟩ := List.getElem?_eq_some_iff.mp entry
  obtain ⟨bound', rfl⟩ := List.getElem?_eq_some_iff.mp found
  have apart := List.pairwise_iff_getElem.mp (List.nodup_flatten.mp unique).2
  rcases Nat.lt_trichotomy (nodeFor nodes x) index with below | same | above
  · exact absurd member (apart _ _ bound' bound below inside)
  · exact same
  · exact absurd inside (apart _ _ bound bound' above member)

end

/-- What a quotient graph says about the graph it came from. -/
structure ReducedGraph.Quotient (members : List Nat) (edges : List (Nat × Nat)) (graph : ReducedGraph) : Prop where
  covers : ∀ x, x ∈ graph.nodes.flatten ↔ x ∈ members
  reach : ∀ x ∈ members, ∀ y ∈ members, ReflTransGen (Linked graph.directEdges) (nodeFor graph.nodes x)
    (nodeFor graph.nodes y) ↔ ReflTransGen (Linked edges) x y
  reduced : Reduces graph.directEdges graph.directEdges

/-- Self edges add nothing to reachability. -/
theorem reach_proper {edges : List (Nat × Nat)} {x y : Nat} :
    ReflTransGen (Linked (edges.filter fun edge => edge.1 != edge.2)) x y ↔ ReflTransGen (Linked edges) x y := by
  refine ⟨fun path => path.lift id fun _ _ edge => (List.mem_filter.mp edge).1, fun path => ?_⟩
  induction path with
  | refl => exact .refl
  | @tail b c _ edge ih =>
    by_cases loop : b = c
    · exact loop ▸ ih
    · exact ih.tail (List.mem_filter.mpr ⟨edge, bne_iff_ne.mpr loop⟩)

theorem linked_swap {edges : List (Nat × Nat)} {x y : Nat} : Linked (edges.map Prod.swap) x y ↔ Linked edges y x := by
  simp [Linked]

section

variable {nodes : List (List Nat)} {members : List Nat} {edges : List (Nat × Nat)}
  (covers : ∀ x, x ∈ nodes.flatten ↔ x ∈ members) (unique : nodes.flatten.Nodup)
  (classes : ∀ node ∈ nodes, ∀ x ∈ node, ∀ y,
    y ∈ node ↔ ReflTransGen (Linked edges) x y ∧ ReflTransGen (Linked edges) y x)
  (within : ∀ edge ∈ edges, edge.1 ∈ members ∧ edge.2 ∈ members)

include covers unique classes

/-- Two members share a node exactly when they reach each other. -/
theorem nodeFor_eq_iff {x y : Nat} (left : x ∈ members) (right : y ∈ members) : nodeFor nodes x = nodeFor nodes y ↔
    ReflTransGen (Linked edges) x y ∧ ReflTransGen (Linked edges) y x := by
  obtain ⟨node, entry, inside⟩ := nodeFor_spec ((covers x).mpr left)
  rw [← classes node (List.mem_of_getElem? entry) x inside y]
  constructor
  · intro same
    obtain ⟨other, found, member⟩ := nodeFor_spec ((covers y).mpr right)
    rw [← same, entry] at found
    exact Option.some.inj found ▸ member
  · exact fun member => (nodeFor_eq unique entry member).symm

include within

/-- A path between nodes is a path between their members. -/
theorem reach_componentEdges {x y : Nat} (left : x ∈ members) (right : y ∈ members) :
    ReflTransGen (Linked (componentEdges nodes edges)) (nodeFor nodes x) (nodeFor nodes y) ↔
      ReflTransGen (Linked edges) x y := by
  constructor
  · intro path
    have walk : ∀ i, ReflTransGen (Linked (componentEdges nodes edges)) (nodeFor nodes x) i →
        ∀ y ∈ members, nodeFor nodes y = i → ReflTransGen (Linked edges) x y := by
      intro i path
      induction path with
      | refl => exact fun y member same => ((nodeFor_eq_iff covers unique classes left member).mp same.symm).1
      | tail _ edge ih =>
        intro y member same
        obtain ⟨⟨a, b⟩, link, equal⟩ := List.mem_map.mp (List.mem_filter.mp edge).1
        obtain ⟨rfl, rfl⟩ := Prod.mk.inj equal
        obtain ⟨source, target⟩ := within _ link
        refine (ih a source rfl).trans (.head link ?_)
        exact ((nodeFor_eq_iff covers unique classes target member).mp same.symm).1
    exact walk _ path y right rfl
  · intro path
    induction path with
    | refl => exact .refl
    | @tail a b _ link ih =>
      obtain ⟨source, target⟩ := within _ link
      by_cases same : nodeFor nodes a = nodeFor nodes b
      · exact same ▸ ih source
      · exact (ih source).tail (List.mem_filter.mpr ⟨List.mem_map_of_mem link, bne_iff_ne.mpr same⟩)

/-- The edges between strong components have no cycle. -/
theorem componentEdges_acyclic (i : Nat) : ¬ TransGen (Linked (componentEdges nodes edges)) i i := by
  intro cycle
  obtain ⟨j, edge, back⟩ := TransGen.head'_iff.mp cycle
  obtain ⟨listed, apart⟩ := List.mem_filter.mp edge
  obtain ⟨⟨a, b⟩, link, equal⟩ := List.mem_map.mp listed
  obtain ⟨rfl, rfl⟩ := Prod.mk.inj equal
  obtain ⟨source, target⟩ := within _ link
  refine bne_iff_ne.mp apart ((nodeFor_eq_iff covers unique classes source target).mpr ⟨.single link, ?_⟩)
  exact (reach_componentEdges covers unique classes within target source).mp back

omit classes unique in
theorem componentEdges_lt : ∀ edge ∈ componentEdges nodes edges, edge.1 < nodes.length ∧ edge.2 < nodes.length := by
  intro edge listed
  obtain ⟨⟨a, b⟩, link, rfl⟩ := List.mem_map.mp (List.mem_filter.mp listed).1
  have bound : ∀ x ∈ members, nodeFor nodes x < nodes.length := by
    intro x member
    obtain ⟨node, entry, _⟩ := nodeFor_spec ((covers x).mpr member)
    exact (List.getElem?_eq_some_iff.mp entry).1
  exact ⟨bound a (within _ link).1, bound b (within _ link).2⟩

end

/-- The quotient of a graph over its members always exists. -/
theorem quotientAndReduce_spec {members : List Nat} {edges : List (Nat × Nat)} (distinct : members.Nodup)
    (within : ∀ edge ∈ edges, edge.1 ∈ members ∧ edge.2 ∈ members) :
    ∃ graph, quotientAndReduce members edges = some graph ∧ graph.Quotient members edges := by
  let proper := edges.filter fun edge => edge.1 != edge.2
  have within' : ∀ edge ∈ proper, edge.1 ∈ members ∧ edge.2 ∈ members :=
    fun edge listed => within edge (List.mem_filter.mp listed).1
  have forward : Edge (adjacency proper) = Linked proper := edge_adjacency fun _ => Iff.rfl
  have closed : ∀ x ∈ sortedBy id members, ∀ y ∈ adjacency proper x, y ∈ sortedBy id members :=
    fun x _ y edge => mem_sortedBy.mpr (within' _ (mem_adjacency.mp edge)).2
  have backward : ∀ x ∈ sortedBy id members, ∀ y, y ∈ adjacency (proper.map Prod.swap) x ↔
      y ∈ sortedBy id members ∧ x ∈ adjacency proper y := by
    intro x _ y
    rw [mem_adjacency, mem_adjacency, mem_sortedBy]
    exact linked_swap.trans (and_iff_right_of_imp fun edge => (within' _ edge).1).symm
  obtain ⟨assigned, found, all⟩ := strongComponents_spec closed backward (sortedBy_nodup distinct)
  generalize componentsEq : strongComponents (adjacency proper) (adjacency (proper.map Prod.swap))
    (sortedBy id members) = components at found
  obtain ⟨listed, nodup, _, nonempty, sorted, classes⟩ := found
  have perm := sortedBy_perm id components
  have unique : (sortedBy id components).flatten.Nodup := (perm.flatten.nodup_iff).mpr nodup
  have covers : ∀ x, x ∈ (sortedBy id components).flatten ↔ x ∈ members := by
    intro x
    rw [perm.flatten.mem_iff, ← listed, all, mem_sortedBy]
  have classes' : ∀ node ∈ sortedBy id components, ∀ x ∈ node, ∀ y,
      y ∈ node ↔ ReflTransGen (Linked proper) x y ∧ ReflTransGen (Linked proper) y x := by
    intro node known x member y
    rw [← forward]
    exact classes node (mem_sortedBy.mp known) x member y
  obtain ⟨direct, computed, reduces⟩ := transitiveReduction_spec (componentEdges_lt covers within')
    (componentEdges_acyclic covers unique classes' within')
  have checked : ReducedGraph.Valid (sortedBy id components) direct := by
    refine ⟨fun node known => nonempty node (mem_sortedBy.mp known),
      fun node known => sorted node (mem_sortedBy.mp known), ?_, unique, ?_⟩
    · have apart : (sortedBy id components).Nodup := by
        refine (List.nodup_flatten.mp unique).2.imp_of_mem fun {a b} known _ disjoint => ?_
        rintro rfl
        obtain ⟨x, member⟩ := List.exists_mem_of_ne_nil a (nonempty a (mem_sortedBy.mp known))
        exact disjoint member member
      exact ((sortedBy_pairwise id components).and apart).imp fun ⟨le, ne⟩ => lt_of_le_of_ne le ne
    · unfold validatedEdges checkSortedUnique
      rw [decide_eq_true reduces.strict.isChain, Bool.and_true, List.all_eq_true]
      rintro ⟨a, b⟩ edge
      have link := ((reduces.linked a b).mp edge).1
      have bounds := componentEdges_lt covers within' _ link
      have proper := (List.mem_filter.mp link).2
      simp only [bounds, decide_true, Bool.true_and, proper]
  refine ⟨⟨_, direct, checked⟩, ?_, covers, fun x left y right => ?_, reduces.again⟩
  · unfold quotientAndReduce
    rw [if_pos ⟨distinct, within⟩]
    simp only [componentsEq, computed, Option.bind_some, dif_pos checked, proper]
  · rw [reduces.reach, reach_componentEdges covers unique classes' within' left right, reach_proper]

end PyElk
