import PyElk.Reasoning.Reduction

open Relation Reduction

namespace PyElk

/-- Two entities that lead to each other. -/
def Mutual (edges : List (Nat × Nat)) (x y : Nat) : Prop :=
  ReflTransGen (Linked edges) x y ∧ ReflTransGen (Linked edges) y x

/-- The order that a relation induces on the nodes of its quotient. -/
def NodeBelow (nodes : List (List Nat)) (edges : List (Nat × Nat)) (i j : Nat) : Prop :=
  ∃ x ∈ nodes.getD i [], ∃ y ∈ nodes.getD j [], ReflTransGen (Linked edges) x y

/-- One node lies directly below another. -/
def Covers (nodes : List (List Nat)) (edges : List (Nat × Nat)) (i j : Nat) : Prop :=
  i ≠ j ∧ NodeBelow nodes edges i j ∧
    ∀ k, NodeBelow nodes edges i k → NodeBelow nodes edges k j → k = i ∨ k = j

theorem mem_getD {nodes : List (List Nat)} {i x : Nat} :
    x ∈ nodes.getD i [] ↔ ∃ node, nodes[i]? = some node ∧ x ∈ node := by
  rw [List.getD_eq_getElem?_getD]
  cases nodes[i]? with
  | none => simp
  | some node => simp

theorem Reduces.edge_ne {edges direct : List (Nat × Nat)} (reduces : Reduces edges direct) {x y : Nat}
    (edge : Linked direct x y) : x ≠ y := by
  obtain ⟨rank, raises⟩ := reduces.ranked
  have up := raises x y ((reduces.linked x y).mp edge).1
  rintro rfl
  omega

/-- An edge of a reduction cannot be left out. -/
theorem Reduces.needed {edges direct : List (Nat × Nat)} (reduces : Reduces edges direct) {edge : Nat × Nat}
    (member : edge ∈ direct) : ¬ ReflTransGen (Linked (direct.erase edge)) edge.1 edge.2 := by
  have distinct : direct.Nodup := reduces.strict.imp fun below same => absurd (same ▸ below) (lt_irrefl _)
  refine irredundant_needed (fun a b link => List.mem_of_mem_erase link) (reduces.edge_ne member)
    ((reduces.again.linked edge.1 edge.2).mp member).2 ?_
  exact fun kept => (List.Nodup.mem_erase_iff distinct).mp kept |>.1 rfl

/-- Every set of edges with the same reachability holds the edges of a reduction. -/
theorem Reduces.least {edges direct other : List (Nat × Nat)} (reduces : Reduces edges direct)
    (same : ∀ x y, ReflTransGen (Linked other) x y ↔ ReflTransGen (Linked edges) x y) {x y : Nat}
    (edge : Linked direct x y) : Linked other x y := by
  obtain ⟨rank, raises⟩ := reduces.ranked
  obtain ⟨apart, path, between⟩ := (irredundant_iff raises).mp ((reduces.linked x y).mp edge)
  have walk : ∀ z, ReflTransGen (Linked other) z y → z = x → Linked other x y := by
    intro z path
    induction path using ReflTransGen.head_induction_on with
    | refl => exact fun same => absurd same.symm apart
    | @head start next link rest ih =>
      rintro rfl
      rcases between next ((same start next).mp (.single link)) ((same next y).mp rest) with back | last
      · exact ih back
      · exact last ▸ link
  exact walk x ((same x y).mpr path) rfl

namespace ReducedGraph

variable {members : List Nat} {edges : List (Nat × Nat)} {graph : ReducedGraph}

section

variable (quotient : graph.Quotient members edges)

include quotient

theorem Quotient.antisymm {i j : Nat} (forth : ReflTransGen (Linked graph.directEdges) i j)
    (back : ReflTransGen (Linked graph.directEdges) j i) : i = j := by
  obtain ⟨rank, raises⟩ := quotient.reduced.ranked
  exact rank_antisymm raises forth back

theorem Quotient.mem_members {node : List Nat} (listed : node ∈ graph.nodes) {x : Nat} (inside : x ∈ node) :
    x ∈ members := (quotient.covers x).mp (List.mem_flatten.mpr ⟨node, listed, inside⟩)

/-- The members of one node are those that lead to each other. -/
theorem Quotient.mem_node_iff (within : ∀ edge ∈ edges, edge.1 ∈ members ∧ edge.2 ∈ members) {node : List Nat}
    (listed : node ∈ graph.nodes) {x : Nat} (inside : x ∈ node) (y : Nat) : y ∈ node ↔ Mutual edges x y := by
  have left := quotient.mem_members listed inside
  obtain ⟨index, bound, entry⟩ := List.getElem_of_mem listed
  have here : graph.nodes[index]? = some node := entry ▸ List.getElem?_eq_getElem bound
  have place := nodeFor_eq graph.valid.unique here inside
  constructor
  · intro member
    have right := quotient.mem_members listed member
    have same := place.trans (nodeFor_eq graph.valid.unique here member).symm
    refine ⟨(quotient.reach x left y right).mp ?_, (quotient.reach y right x left).mp ?_⟩
    · rw [same]
    · rw [same]
  · rintro ⟨forth, back⟩
    have right : y ∈ members := by
      rcases back.cases_head with rfl | ⟨first, link, -⟩
      · exact left
      · exact (within _ link).1
    have same := quotient.antisymm ((quotient.reach x left y right).mpr forth)
      ((quotient.reach y right x left).mpr back)
    obtain ⟨other, found, member⟩ := nodeFor_spec ((quotient.covers y).mpr right)
    rw [← same, place, here] at found
    exact Option.some.inj found ▸ member

/-- The nodes are the classes of mutual reachability, each ascending. -/
theorem Quotient.mem_nodes_iff (within : ∀ edge ∈ edges, edge.1 ∈ members ∧ edge.2 ∈ members) (node : List Nat) :
    node ∈ graph.nodes ↔ node.Pairwise (· < ·) ∧ ∃ x ∈ members, ∀ y, y ∈ node ↔ Mutual edges x y := by
  constructor
  · intro listed
    obtain ⟨x, inside⟩ := List.exists_mem_of_ne_nil node (graph.valid.nonempty node listed)
    exact ⟨graph.valid.sorted node listed, x, quotient.mem_members listed inside,
      quotient.mem_node_iff within listed inside⟩
  · rintro ⟨ascending, x, member, classes⟩
    obtain ⟨other, listed, inside⟩ := List.mem_flatten.mp ((quotient.covers x).mpr member)
    have same : node = other := by
      have ascending' : node.Pairwise fun a b => id a < id b := ascending
      refine Ordered.eq_of_strict ascending' (graph.valid.sorted other listed) fun y => ?_
      rw [classes y, quotient.mem_node_iff within listed inside y]
    exact same ▸ listed

/-- The order of the nodes is reachability along the direct edges. -/
theorem Quotient.nodeBelow_iff {i j : Nat} (left : i < graph.nodes.length) (right : j < graph.nodes.length) :
    NodeBelow graph.nodes edges i j ↔ ReflTransGen (Linked graph.directEdges) i j := by
  have place : ∀ {k x : Nat}, x ∈ graph.nodes.getD k [] → x ∈ members ∧ nodeFor graph.nodes x = k := by
    intro k x inside
    obtain ⟨node, entry, member⟩ := mem_getD.mp inside
    exact ⟨quotient.mem_members (List.mem_of_getElem? entry) member, nodeFor_eq graph.valid.unique entry member⟩
  constructor
  · rintro ⟨x, inside, y, inside', path⟩
    obtain ⟨known, rfl⟩ := place inside
    obtain ⟨known', rfl⟩ := place inside'
    exact (quotient.reach x known y known').mpr path
  · intro path
    have some_member : ∀ {k : Nat}, k < graph.nodes.length → ∃ x, x ∈ graph.nodes.getD k [] := by
      intro k bound
      obtain ⟨x, inside⟩ := List.exists_mem_of_ne_nil _ (graph.valid.nonempty _ (List.getElem_mem bound))
      exact ⟨x, mem_getD.mpr ⟨_, List.getElem?_eq_getElem bound, inside⟩⟩
    obtain ⟨x, inside⟩ := some_member left
    obtain ⟨y, inside'⟩ := some_member right
    obtain ⟨known, rfl⟩ := place inside
    obtain ⟨known', rfl⟩ := place inside'
    exact ⟨x, inside, y, inside', (quotient.reach x known y known').mp path⟩

omit quotient in
theorem edge_bounds {i j : Nat} (edge : Linked graph.directEdges i j) :
    i < graph.nodes.length ∧ j < graph.nodes.length := by
  have checked := graph.valid.edges
  simp only [validatedEdges, Bool.and_eq_true, List.all_eq_true, decide_eq_true_eq] at checked
  exact (checked.1 _ edge).1

/-- The direct edges are the covering pairs of the order of the nodes. -/
theorem Quotient.edge_iff (i j : Nat) : Linked graph.directEdges i j ↔
    i < graph.nodes.length ∧ j < graph.nodes.length ∧ Covers graph.nodes edges i j := by
  obtain ⟨rank, raises⟩ := quotient.reduced.ranked
  have bounded : ∀ {k l : Nat}, NodeBelow graph.nodes edges k l → k < graph.nodes.length ∧
    l < graph.nodes.length := by
    rintro k l ⟨x, inside, y, inside', -⟩
    obtain ⟨_, entry, -⟩ := mem_getD.mp inside
    obtain ⟨_, entry', -⟩ := mem_getD.mp inside'
    exact ⟨(List.getElem?_eq_some_iff.mp entry).1, (List.getElem?_eq_some_iff.mp entry').1⟩
  rw [quotient.reduced.linked i j]
  refine (irredundant_iff raises).trans ?_
  constructor
  · rintro ⟨apart, path, between⟩
    rcases path.cases_head with same | ⟨first, link, -⟩
    · exact absurd same apart
    obtain ⟨last, edge⟩ : ∃ last, Linked graph.directEdges last j := by
      rcases path.cases_tail with same | ⟨last, -, edge⟩
      · exact absurd same.symm apart
      · exact ⟨last, edge⟩
    have left := (graph.edge_bounds link).1
    have right := (graph.edge_bounds edge).2
    refine ⟨left, right, apart, (quotient.nodeBelow_iff left right).mpr path, fun k lower upper => ?_⟩
    have middle := (bounded lower).2
    exact between k ((quotient.nodeBelow_iff left middle).mp lower) ((quotient.nodeBelow_iff middle right).mp upper)
  · rintro ⟨left, right, apart, below, between⟩
    refine ⟨apart, (quotient.nodeBelow_iff left right).mp below, fun k lower upper => ?_⟩
    have middle : k < graph.nodes.length := by
      rcases lower.cases_tail with same | ⟨last, -, edge⟩
      · exact same ▸ left
      · exact (graph.edge_bounds edge).2
    exact between k ((quotient.nodeBelow_iff left middle).mpr lower) ((quotient.nodeBelow_iff middle right).mpr upper)

end

end ReducedGraph

/-- Quotient and reduction of any finite relation: the nodes are the classes of mutual
reachability in canonical order, the edges are exactly the covering pairs of the induced
order, and none of them can be left out. -/
theorem quotientAndReduce_exact {members : List Nat} {edges : List (Nat × Nat)} (distinct : members.Nodup)
    (within : ∀ edge ∈ edges, edge.1 ∈ members ∧ edge.2 ∈ members) :
    ∃ graph, quotientAndReduce members edges = some graph ∧
      (∀ node, node ∈ graph.nodes ↔ node.Pairwise (· < ·) ∧ ∃ x ∈ members, ∀ y, y ∈ node ↔ Mutual edges x y) ∧
      graph.nodes.Pairwise (· < ·) ∧
      graph.directEdges.Pairwise (fun a b => pairKey a < pairKey b) ∧
      (∀ i j, (i, j) ∈ graph.directEdges ↔
        i < graph.nodes.length ∧ j < graph.nodes.length ∧ Covers graph.nodes edges i j) ∧
      (∀ x ∈ members, ∀ y ∈ members, ReflTransGen (Linked graph.directEdges) (nodeFor graph.nodes x)
        (nodeFor graph.nodes y) ↔ ReflTransGen (Linked edges) x y) ∧
      ∀ edge ∈ graph.directEdges, ¬ ReflTransGen (Linked (graph.directEdges.erase edge)) edge.1 edge.2 := by
  obtain ⟨graph, found, quotient⟩ := quotientAndReduce_spec distinct within
  exact ⟨graph, found, quotient.mem_nodes_iff within, graph.valid.canonical, quotient.reduced.strict,
    quotient.edge_iff, quotient.reach, fun edge member => quotient.reduced.needed member⟩

/-- A cycle through 1 and 2 above 3, with a self edge and a repeated edge. -/
theorem quotientAndReduce_exact_cycle :
    ∃ graph, quotientAndReduce [3, 1, 2] [(1, 2), (2, 1), (3, 1), (3, 3), (3, 1)] = some graph ∧
      ∀ node, node ∈ graph.nodes ↔ node.Pairwise (· < ·) ∧
        ∃ x ∈ [3, 1, 2], ∀ y, y ∈ node ↔ Mutual [(1, 2), (2, 1), (3, 1), (3, 3), (3, 1)] x y := by
  have distinct : [3, 1, 2].Nodup := by decide
  have within : ∀ edge ∈ [(1, 2), (2, 1), (3, 1), (3, 3), (3, 1)], edge.1 ∈ [3, 1, 2] ∧ edge.2 ∈ [3, 1, 2] := by
    decide
  obtain ⟨graph, found, nodes, -⟩ := quotientAndReduce_exact distinct within
  exact ⟨graph, found, nodes⟩

end PyElk
