import PyElk.Reasoning.Realization
import PyElk.Reasoning.TaxonomyTotal

open Relation Ordered UnionFind Components Topological

namespace PyElk

section

variable (taxonomy : RawTaxonomy)

/-- The checked graph of a taxonomy has a rank. -/
theorem RawTaxonomy.ranked : ∃ rank : Nat → Nat, ∀ x y, Linked taxonomy.directEdges x y → rank x < rank y := by
  have checked := taxonomy.valid.graph
  unfold validateTaxonomyGraph at checked
  simp only [Bool.and_eq_true] at checked
  obtain ⟨order, found⟩ := Option.isSome_iff_exists.mp checked.1.1.2
  have bounds := taxonomy.edge_bounds
  have sorted := @topologicalOrder_sorted (adjacency taxonomy.directEdges) (List.range taxonomy.nodes.length)
    (fun x _ y edge => List.mem_range.mpr (bounds _ (mem_adjacency.mp edge)).2) List.head?
    (fun ready => ⟨fun node found => List.mem_of_mem_head? found, List.head?_eq_none_iff.mp⟩)
    List.nodup_range order found
  refine ⟨order.idxOf, fun x y edge => sorted.lt ?_ ?_ (mem_adjacency.mpr edge)⟩
  · exact List.mem_range.mpr (bounds _ edge).1
  · exact List.mem_range.mpr (bounds _ edge).2

theorem RawTaxonomy.rank_lt {rank : Nat → Nat} (raises : ∀ x y, Linked taxonomy.directEdges x y → rank x < rank y)
    {x y : Nat} (path : TransGen (Linked taxonomy.directEdges) x y) : rank x < rank y := by
  induction path with
  | single edge => exact raises _ _ edge
  | tail _ edge ih => exact ih.trans (raises _ _ edge)

theorem RawTaxonomy.acyclic (x : Nat) : ¬ TransGen (Linked taxonomy.directEdges) x x := by
  obtain ⟨rank, raises⟩ := taxonomy.ranked
  exact fun cycle => lt_irrefl _ (taxonomy.rank_lt raises cycle)

theorem RawTaxonomy.path_lt {x y : Nat} (path : TransGen (Linked taxonomy.directEdges) x y) :
    x < taxonomy.nodes.length ∧ y < taxonomy.nodes.length := by
  induction path with
  | single edge => exact taxonomy.edge_bounds _ edge
  | tail _ edge ih => exact ⟨ih.1, (taxonomy.edge_bounds _ edge).2⟩

/-- A taxonomy whose bounds coincide has no other node. -/
theorem RawTaxonomy.collapsed (same : taxonomy.top = taxonomy.bottom) {index : Nat}
    (inside : index < taxonomy.nodes.length) : index = taxonomy.top := by
  have checked := taxonomy.valid.graph
  unfold validateTaxonomyGraph at checked
  simp only [Bool.and_eq_true, List.isEmpty_iff, List.all_eq_true, decide_eq_true_eq, List.mem_range] at checked
  obtain ⟨⟨⟨⟨final, -⟩, -⟩, reached⟩, -⟩ := checked
  have alone : ∀ fuel, (Collection.run (fun node => (adjacency taxonomy.directEdges node).reverse) fuel
      ⟨[taxonomy.bottom], [taxonomy.bottom], []⟩).assigned = [taxonomy.bottom] := by
    intro fuel
    cases fuel with
    | zero => rfl
    | succ fuel =>
      have step : Collection.step (fun node => (adjacency taxonomy.directEdges node).reverse)
          ⟨[taxonomy.bottom], [taxonomy.bottom], []⟩ = ⟨[taxonomy.bottom], [], [taxonomy.bottom]⟩ := by
        simp only [Collection.step, ← same, final, List.reverse_nil, List.foldl_nil, List.nil_append]
      simp only [Collection.run, List.isEmpty_cons, Bool.false_eq_true, if_false, step]
      cases fuel <;> rfl
  have member := reached index inside
  unfold reachableNodes at member
  rw [alone, List.mem_singleton] at member
  rw [member, same]

/-- Below every node with some property lies a minimal one. -/
theorem RawTaxonomy.exists_minimal {holds : Nat → Prop} {x : Nat} (start : holds x) :
    ∃ least, holds least ∧ ReflTransGen (Linked taxonomy.directEdges) least x ∧
      ∀ other, holds other → ¬ TransGen (Linked taxonomy.directEdges) other least := by
  obtain ⟨rank, raises⟩ := taxonomy.ranked
  induction within : rank x using Nat.strong_induction_on generalizing x with
  | h bound ih =>
    by_cases lower : ∃ other, holds other ∧ TransGen (Linked taxonomy.directEdges) other x
    · obtain ⟨other, found, path⟩ := lower
      obtain ⟨least, held, below, minimal⟩ := ih (rank other) (within ▸ taxonomy.rank_lt raises path) found rfl
      exact ⟨least, held, below.trans path.to_reflTransGen, minimal⟩
    · exact ⟨x, start, .refl, fun other found path => lower ⟨other, found, path⟩⟩

/-- Above every node with some property lies a maximal one. -/
theorem RawTaxonomy.exists_maximal {holds : Nat → Prop} {x : Nat} (start : holds x) :
    ∃ greatest, holds greatest ∧ ReflTransGen (Linked taxonomy.directEdges) x greatest ∧
      ∀ other, holds other → ¬ TransGen (Linked taxonomy.directEdges) greatest other := by
  obtain ⟨rank, raises⟩ := taxonomy.ranked
  have bounded : ∀ y < taxonomy.nodes.length, rank y ≤ (Finset.range taxonomy.nodes.length).sup rank :=
    fun y inside => Finset.le_sup (Finset.mem_range.mpr inside)
  induction within : (Finset.range taxonomy.nodes.length).sup rank - rank x
    using Nat.strong_induction_on generalizing x with
  | h bound ih =>
    by_cases upper : ∃ other, holds other ∧ TransGen (Linked taxonomy.directEdges) x other
    · obtain ⟨other, found, path⟩ := upper
      have higher := taxonomy.rank_lt raises path
      have limit := bounded other (taxonomy.path_lt path).2
      obtain ⟨greatest, held, above, maximal⟩ := ih _ (by omega) found rfl
      exact ⟨greatest, held, path.to_reflTransGen.trans above, maximal⟩
    · exact ⟨x, start, .refl, fun other found path => upper ⟨other, found, path⟩⟩

/-- One row of the successors in a list of edges. -/
def RawTaxonomy.outgoing (node : Nat) : List Nat :=
  (taxonomy.directEdges.filter fun edge => edge.1 == node).map Prod.snd

theorem RawTaxonomy.edge_outgoing : Edge taxonomy.outgoing = Linked taxonomy.directEdges := by
  funext x y
  simp only [Edge, outgoing, Linked, List.mem_map, List.mem_filter, beq_iff_eq, Prod.exists, eq_iff_iff]
  constructor
  · rintro ⟨a, b, ⟨edge, rfl⟩, rfl⟩
    exact edge
  · exact fun edge => ⟨x, y, ⟨edge, rfl⟩, rfl⟩

/-- The search for strict super-nodes finds what a path of edges leads to. -/
theorem RawTaxonomy.mem_strictSupers {x y : Nat} :
    y ∈ taxonomy.strictSupers x ↔ TransGen (Linked taxonomy.directEdges) x y := by
  have target : ∀ x y, y ∈ taxonomy.outgoing x → y ∈ List.range taxonomy.nodes.length := by
    intro x y edge
    have linked : Linked taxonomy.directEdges x y := taxonomy.edge_outgoing ▸ edge
    exact List.mem_range.mpr (taxonomy.edge_bounds _ linked).2
  have searched : y ∈ taxonomy.strictSupers x ↔
      y ∈ ([] : List Nat) ∨ ∃ z ∈ (taxonomy.outgoing x).reverse, Reach taxonomy.outgoing z y := by
    refine Reduction.mem_mark (fun x _ y edge => target x y edge) List.nodup_range
      (fun z edge => target x z (List.mem_reverse.mp edge)) (fun z known => absurd known List.not_mem_nil) ?_ y
    rw [List.length_reverse]
    exact Nat.add_le_add_left ((List.filter_sublist.map _).sum_le_sum fun _ _ => Nat.zero_le _) _
  rw [searched, or_iff_right List.not_mem_nil, ← taxonomy.edge_outgoing, TransGen.head'_iff]
  exact exists_congr fun z => and_congr_left fun _ => List.mem_reverse

end

theorem mem_minimalNodes {candidates : List Nat} {strictSupers : Nat → List Nat} {x : Nat} :
    x ∈ minimalNodes candidates strictSupers ↔
      x ∈ candidates ∧ ∀ other ∈ candidates, other ≠ x → x ∉ strictSupers other := by
  simp only [minimalNodes, mem_sortedSet, List.mem_filter, Bool.not_eq_true', List.any_eq_false, Bool.and_eq_true,
    bne_iff_ne, decide_eq_true_eq, not_and]

theorem mem_laterPairs {individuals : List EntityId} {first second : EntityId}
    (listed : (first, second) ∈ laterPairs individuals) : first ∈ individuals ∧ second ∈ individuals := by
  induction individuals with
  | nil => exact absurd listed List.not_mem_nil
  | cons head rest ih =>
    rcases List.mem_append.mp listed with now | later
    · obtain ⟨other, found, same⟩ := List.mem_map.mp now
      cases same
      exact ⟨List.mem_cons_self, List.mem_cons_of_mem _ found⟩
    · exact ⟨List.mem_cons_of_mem _ (ih later).1, List.mem_cons_of_mem _ (ih later).2⟩

/-- Two different entries are a later pair in one order or the other. -/
theorem laterPairs_total {individuals : List EntityId} {first second : EntityId} (left : first ∈ individuals)
    (right : second ∈ individuals) (apart : first ≠ second) :
    (first, second) ∈ laterPairs individuals ∨ (second, first) ∈ laterPairs individuals := by
  induction individuals with
  | nil => exact absurd left List.not_mem_nil
  | cons head rest ih =>
    unfold laterPairs
    rcases List.mem_cons.mp left with rfl | left
    · exact Or.inl (List.mem_append_left _
        (List.mem_map.mpr ⟨second, (List.mem_cons.mp right).resolve_left (Ne.symm apart), rfl⟩))
    · rcases List.mem_cons.mp right with same | right
      · exact Or.inr (List.mem_append_left _ (List.mem_map.mpr ⟨first, left, by rw [same]⟩))
      · exact (ih left right).imp (List.mem_append_right _) (List.mem_append_right _)

section

variable (compiled : Tables)

/-- The roots of the saturation in which realization places an individual. -/
def Tables.individualRoots (root : ExpressionId) : Set ExpressionId :=
  if compiled.propertyRanges = [] then demandedRoots (compiled.stageBatches .realized) else {root}

/-- The derived subsumers of an individual. -/
def Tables.Subsumes (individual : EntityId) (expression : ExpressionId) : Prop :=
  Derivable compiled (closeProperties compiled)
    (compiled.individualRoots (compiled.namedExpression .individual individual))
    (.subClassInclusionComposed (compiled.namedExpression .individual individual) expression)

/-- The subsumers that realization reads for an individual. -/
def Tables.realizedSubsumers (individual : EntityId) : List ExpressionId :=
  subsumersOf (compiled.namedExpression .individual individual)
    (compiled.classContext (compiled.snapshotAt .realized) (compiled.namedExpression .individual individual))

/-- Two individuals that are subsumers of each other. -/
def Tables.MutualIndividuals (first second : EntityId) : Prop :=
  compiled.EntityOf first .namedIndividual ∧ compiled.EntityOf second .namedIndividual ∧
    compiled.Subsumes first (compiled.namedExpression .individual second) ∧
    compiled.Subsumes second (compiled.namedExpression .individual first)

/-- The candidate types of an instance node: the top node, and every class node other than
the bottom with a member among the subsumers of a member of the instance node. -/
def Tables.CandidateType (taxonomy : RawTaxonomy) (node : List EntityId) (index : Nat) : Prop :=
  index = taxonomy.top ∨ index ≠ taxonomy.bottom ∧ ∃ individual ∈ node, ∃ entity ∈ taxonomy.nodes.getD index [],
    compiled.EntityOf entity .owlClass ∧ compiled.Subsumes individual (compiled.namedExpression .owlClass entity)

/-- What realization over a class taxonomy has to be. -/
structure RawRealization.Exact (taxonomy : RawTaxonomy) (value : RawRealization) : Prop where
  based : value.classTaxonomy = taxonomy
  nodes : ∀ node, node ∈ value.instanceNodes ↔ node.Pairwise (· < ·) ∧
    ∃ x, compiled.EntityOf x .namedIndividual ∧
      ∀ y, y ∈ node ↔ compiled.EntityOf y .namedIndividual ∧ EqvGen compiled.MutualIndividuals x y
  direct : ∀ {index node}, value.instanceNodes[index]? = some node → ∀ type, (index, type) ∈ value.directTypes ↔
    compiled.CandidateType taxonomy node type ∧
      ∀ other, compiled.CandidateType taxonomy node other → ¬ TransGen (Linked taxonomy.directEdges) other type
  nonempty : ∀ index < value.instanceNodes.length, ∃ type, (index, type) ∈ value.directTypes
  antichain : ∀ {index type other}, (index, type) ∈ value.directTypes → (index, other) ∈ value.directTypes →
    ¬ TransGen (Linked taxonomy.directEdges) other type
  closure : ∀ {index node}, value.instanceNodes[index]? = some node → ∀ type,
    (∃ direct, (index, direct) ∈ value.directTypes ∧ ReflTransGen (Linked taxonomy.directEdges) direct type) ↔
      ∃ candidate, compiled.CandidateType taxonomy node candidate ∧
        ReflTransGen (Linked taxonomy.directEdges) candidate type

end

section

variable {compiled : Tables} (valid : compiled.Valid) (returned : compiled.Returned .realized)

include valid returned

/-- The context that realization reads for an individual. -/
theorem Tables.Valid.individualContext_spec {individual : EntityId}
    (object : compiled.EntityOf individual .namedIndividual) :
    ∃ context, compiled.classContext (compiled.snapshotAt .realized)
        (compiled.namedExpression .individual individual) = some context ∧
      context.root = compiled.namedExpression .individual individual ∧ context.Mirrors
        {c | Derivable compiled (closeProperties compiled)
          (compiled.individualRoots (compiled.namedExpression .individual individual)) c} := by
  have built := valid.namedIndividual_built object
  have demanded : compiled.namedExpression .individual individual ∈ demandedRoots (compiled.stageBatches .realized) :=
    ⟨_, .tail _ (.tail _ (.head _)), mem_rootsOf.mpr ⟨_, built⟩⟩
  unfold classContext individualRoots
  split
  · exact compiled.snapshot_context valid (stageBatches_lt valid) (.start ⟨_, demanded, rfl⟩)
  · rw [returned.alone valid demanded]
    have single : demandedRoots [[compiled.namedExpression .individual individual]] =
        {compiled.namedExpression .individual individual} := by
      ext root
      simp [demandedRoots]
    rw [← single]
    refine compiled.snapshot_context valid ?_ (.start ⟨_, ⟨_, .head _, .head _⟩, rfl⟩)
    rintro root ⟨batch, listed, inside⟩
    rw [List.mem_singleton.mp listed] at inside
    rw [List.mem_singleton.mp inside]
    exact built.lt

/-- The subsumers that realization reads are the derived ones. -/
theorem Tables.Valid.mem_realizedSubsumers {individual : EntityId}
    (object : compiled.EntityOf individual .namedIndividual) {expression : ExpressionId} :
    expression ∈ compiled.realizedSubsumers individual ↔ compiled.Subsumes individual expression := by
  obtain ⟨context, found, root, mirrors⟩ := valid.individualContext_spec returned object
  have composed :=
    mirrors (.subClassInclusionComposed (compiled.namedExpression .individual individual) expression) root.symm
  have decomposed :=
    mirrors (.subClassInclusionDecomposed (compiled.namedExpression .individual individual) expression) root.symm
  rw [realizedSubsumers, found, subsumersOf, Option.elim_some, List.mem_cons, List.mem_append]
  constructor
  · rintro (rfl | listed | listed)
    · have active : Derivable compiled (closeProperties compiled)
          (compiled.individualRoots (compiled.namedExpression .individual individual))
          (.contextInitialization (compiled.namedExpression .individual individual)) := by
        refine .start ⟨_, ?_, rfl⟩
        unfold individualRoots
        split
        · exact ⟨_, .tail _ (.tail _ (.head _)), mem_rootsOf.mpr ⟨_, valid.namedIndividual_built object⟩⟩
        · rfl
      exact .unary (.unary active .tautology) .composedOfDecomposed
    · exact composed.mp listed
    · exact .unary (decomposed.mp listed) .composedOfDecomposed
  · exact fun derivable => Or.inr (Or.inl (composed.mpr derivable))

end

section

variable {compiled : Tables} {subsumers : EntityId → List ExpressionId} {individuals : List EntityId}

/-- Joining the mutual later pairs generates the same-individual equivalence. -/
theorem Tables.mutual_eqvGen {related : EntityId → EntityId → Prop}
    (related_iff : ∀ x y, related x y ↔ x ∈ individuals ∧ y ∈ individuals ∧ compiled.sameIndividual subsumers (x, y))
    {x y : EntityId} :
    EqvGen (fun first second => (first, second) ∈ (laterPairs individuals).filter
      (compiled.sameIndividual subsumers)) x y ↔
      EqvGen related x y := by
  have swapped : ∀ {a b}, compiled.sameIndividual subsumers (a, b) → compiled.sameIndividual subsumers (b, a) := by
    intro a b same
    unfold sameIndividual at same ⊢
    rw [Bool.and_eq_true] at same ⊢
    exact same.symm
  constructor
  · refine EqvGen.mono (fun a b listed => ?_) x y
    obtain ⟨later, same⟩ := List.mem_filter.mp listed
    exact (related_iff a b).mpr ⟨(mem_laterPairs later).1, (mem_laterPairs later).2, same⟩
  · intro connected
    induction connected with
    | rel a b same =>
      obtain ⟨left, right, mutual_⟩ := (related_iff a b).mp same
      by_cases equal : a = b
      · exact equal ▸ .refl a
      · rcases laterPairs_total left right equal with later | later
        · exact .rel _ _ (List.mem_filter.mpr ⟨later, mutual_⟩)
        · exact .symm _ _ (.rel _ _ (List.mem_filter.mpr ⟨later, swapped mutual_⟩))
    | refl a => exact .refl a
    | symm a b _ ih => exact .symm _ _ ih
    | trans a b c _ _ left right => exact .trans _ _ _ left right

/-- The instance nodes are the sorted classes of the same-individual equivalence. -/
theorem Tables.mem_instanceNodes (strict : individuals.Pairwise (· < ·)) {related : EntityId → EntityId → Prop}
    (related_iff : ∀ x y, related x y ↔ x ∈ individuals ∧ y ∈ individuals ∧ compiled.sameIndividual subsumers (x, y))
    {node : List EntityId} : node ∈ compiled.instanceNodes subsumers individuals ↔
      node.Pairwise (· < ·) ∧ ∃ x ∈ individuals, ∀ y, y ∈ node ↔ y ∈ individuals ∧ EqvGen related x y := by
  have distinct : individuals.Nodup := strict.imp fun below => Nat.ne_of_lt below
  have sorted : ∀ group : List EntityId, group.Nodup → (sortedBy id group).Pairwise (· < ·) := fun group nodup =>
    ((sortedBy_pairwise id group).and (sortedBy_nodup nodup)).imp fun ⟨le, ne⟩ => lt_of_le_of_ne le ne
  unfold instanceNodes
  simp only [mem_sortedBy, List.mem_map, Forest.mem_classes]
  constructor
  · rintro ⟨group, ⟨x, listed, rfl⟩, rfl⟩
    refine ⟨sorted _ (distinct.filter _), x, listed, fun y => ?_⟩
    rw [mem_sortedBy, List.mem_filter, decide_eq_true_eq, eq_comm, Forest.unionAll_root_eq, mutual_eqvGen related_iff]
  · rintro ⟨ascending, x, listed, members⟩
    refine ⟨_, ⟨x, listed, rfl⟩, @eq_of_strict _ _ _ id _ _ (sorted _ (distinct.filter _)) ascending fun y => ?_⟩
    rw [mem_sortedBy, List.mem_filter, decide_eq_true_eq, eq_comm, Forest.unionAll_root_eq, mutual_eqvGen related_iff,
      members]

/-- Disjoint ascending nodes pass the checks of a result once they are sorted. -/
theorem validateNodes_sortedBy {nodes : List (List EntityId)}
    (each : ∀ node ∈ nodes, node ≠ [] ∧ (∀ x ∈ node, x ≤ U32_MAX) ∧ node.Pairwise (· < ·))
    (disjoint : nodes.Pairwise List.Disjoint) : validateNodes (sortedBy id nodes) := by
  have flat : (sortedBy id nodes).flatten.Nodup := by
    refine ((sortedBy_perm id nodes).flatten.nodup_iff).mpr (List.nodup_flatten.mpr ⟨fun node listed => ?_, disjoint⟩)
    exact (each node listed).2.2.imp fun below => Nat.ne_of_lt below
  have distinct : (sortedBy id nodes).Nodup := by
    refine sortedBy_nodup (disjoint.imp_of_mem fun {a b} left _ apart same => ?_)
    obtain ⟨x, member⟩ := List.exists_mem_of_ne_nil _ (each a left).1
    exact apart member (same ▸ member)
  have ordered : (sortedBy id nodes).Pairwise (· < ·) :=
    ((sortedBy_pairwise id _).and distinct).imp fun ⟨le, ne⟩ => lt_of_le_of_ne le ne
  unfold validateNodes
  simp only [Bool.and_eq_true, List.all_eq_true, decide_eq_true_eq, Bool.not_eq_true', List.isEmpty_eq_false_iff,
    mem_sortedBy]
  exact ⟨⟨fun node listed => ⟨⟨(each node listed).1, (each node listed).2.1⟩, (each node listed).2.2.isChain⟩,
    ordered.isChain⟩, flat⟩

/-- The instance nodes pass the checks of a realization. -/
theorem Tables.validate_instanceNodes (strict : individuals.Pairwise (· < ·))
    (small : ∀ individual ∈ individuals, individual ≤ U32_MAX) :
    validateNodes (compiled.instanceNodes subsumers individuals) := by
  have nodes := fun node => @mem_instanceNodes compiled subsumers individuals strict _ (fun _ _ => Iff.rfl) node
  refine validateNodes_sortedBy (fun node listed => ?_) ?_
  · obtain ⟨ascending, x, member, spec⟩ := (nodes node).mp (mem_sortedBy.mpr listed)
    exact ⟨List.ne_nil_of_mem ((spec x).mpr ⟨member, .refl x⟩),
      fun y inside => small y ((spec y).mp inside).1, ascending⟩
  · refine List.pairwise_map.mpr (Forest.classes_disjoint.imp fun {a b} disjoint x left right => ?_)
    exact disjoint (mem_sortedBy.mp left) (mem_sortedBy.mp right)

end

section

variable {compiled : Tables} {taxonomy : RawTaxonomy} {subsumers : EntityId → List ExpressionId}
    {node : List EntityId}

theorem RawTaxonomy.nodeFor_iff {entity : EntityId} {index : Nat} :
    (entity ∈ taxonomy.nodes.flatten ∧ nodeFor taxonomy.nodes entity = index) ↔
    entity ∈ taxonomy.nodes.getD index [] := by
  constructor
  · rintro ⟨covered, rfl⟩
    exact taxonomy.mem_nodeFor covered
  · intro inside
    obtain ⟨found, entry, member⟩ := mem_getD.mp inside
    exact ⟨List.mem_flatten.mpr ⟨found, List.mem_of_getElem? entry, member⟩, taxonomy.place inside⟩

theorem Tables.expressionToClassNode_iff {expression : ExpressionId} {index : Nat} :
    compiled.expressionToClassNode taxonomy expression = some index ↔
      ∃ entity, compiled.classEntity expression = some entity ∧ entity ∈ taxonomy.nodes.getD index [] := by
  unfold expressionToClassNode
  rw [Option.bind_eq_some_iff]
  refine exists_congr fun entity => and_congr_right fun _ => ?_
  rw [← RawTaxonomy.nodeFor_iff, Option.ite_none_right_eq_some, Option.some.injEq]

theorem Tables.directTypesOf_nodup (node : List EntityId) :
    (compiled.directTypesOf taxonomy subsumers node).Nodup := by
  unfold directTypesOf
  dsimp only
  split
  · exact List.nodup_singleton _
  · exact sortedSet_nodup _ _

/-- The direct types of a node are the minimal ones of its candidates. -/
theorem Tables.mem_directTypesOf {candidate : Nat → Prop}
    (candidates : ∀ index, candidate index ↔ index = taxonomy.top ∨ index ≠ taxonomy.bottom ∧
      ∃ individual ∈ node, ∃ expression ∈ subsumers individual,
        compiled.expressionToClassNode taxonomy expression = some index) {type : Nat} :
    type ∈ compiled.directTypesOf taxonomy subsumers node ↔ candidate type ∧
      ∀ other, candidate other → ¬ TransGen (Linked taxonomy.directEdges) other type := by
  have listed : ∀ index, index ∈ compiled.candidateTypes taxonomy subsumers node ↔
      (index = taxonomy.top ∨ ∃ individual ∈ node, ∃ expression ∈ subsumers individual,
        compiled.expressionToClassNode taxonomy expression = some index) ∧ index ≠ taxonomy.bottom := by
    intro index
    simp only [candidateTypes, List.mem_filter, List.mem_cons, List.mem_flatMap, List.mem_filterMap, bne_iff_ne]
  have minimal : ∀ index,
    index ∈ minimalNodes (compiled.candidateTypes taxonomy subsumers node) taxonomy.strictSupers ↔
      index ∈ compiled.candidateTypes taxonomy subsumers node ∧
        ∀ other ∈ compiled.candidateTypes taxonomy subsumers node,
          ¬ TransGen (Linked taxonomy.directEdges) other index := by
    intro index
    rw [mem_minimalNodes]
    refine and_congr_right fun _ => forall_congr' fun other => forall_congr' fun _ => ?_
    rw [taxonomy.mem_strictSupers]
    exact ⟨fun free path => free (fun same => taxonomy.acyclic _ (same ▸ path)) path, fun free _ => free⟩
  unfold directTypesOf
  by_cases single : taxonomy.top = taxonomy.bottom
  · have only : ∀ index, candidate index ↔ index = taxonomy.top := by
      intro index
      rw [candidates]
      refine ⟨fun found => found.elim id fun ⟨_, _, _, _, _, found⟩ => ?_, Or.inl⟩
      obtain ⟨entity, -, member⟩ := expressionToClassNode_iff.mp found
      obtain ⟨_, entry, -⟩ := mem_getD.mp member
      exact taxonomy.collapsed single (List.getElem?_eq_some_iff.mp entry).1
    have none_ : compiled.candidateTypes taxonomy subsumers node = [] := by
      refine List.eq_nil_iff_forall_not_mem.mpr fun index found => ?_
      obtain ⟨kind, apart⟩ := (listed index).mp found
      exact apart (((only index).mp ((candidates index).mpr (kind.imp_right fun row => ⟨apart, row⟩))).trans single)
    rw [none_, only]
    simp only [minimalNodes, List.filter_nil, sortedSet, List.dedup_nil, sortedBy, List.insertionSort_nil,
      List.isEmpty_nil, if_true, List.mem_singleton]
    refine (and_iff_left_of_imp fun same other found path => ?_).symm
    rw [(only other).mp found, same] at path
    exact taxonomy.acyclic _ path
  · have same : ∀ index, index ∈ compiled.candidateTypes taxonomy subsumers node ↔ candidate index := by
      intro index
      rw [listed, candidates]
      constructor
      · rintro ⟨rfl | row, apart⟩
        · exact Or.inl rfl
        · exact Or.inr ⟨apart, row⟩
      · rintro (rfl | ⟨apart, row⟩)
        · exact ⟨Or.inl rfl, single⟩
        · exact ⟨Or.inr row, apart⟩
    obtain ⟨least, held, -, lowest⟩ := taxonomy.exists_minimal ((candidates _).mpr (Or.inl rfl))
    have some_ : minimalNodes (compiled.candidateTypes taxonomy subsumers node) taxonomy.strictSupers ≠ [] :=
      List.ne_nil_of_mem
        ((minimal least).mpr ⟨(same least).mpr held, fun other found => lowest other ((same other).mp found)⟩)
    rw [if_neg (by simpa using some_), minimal, same]
    exact and_congr_right fun _ => forall_congr' fun other => imp_congr_left (same other)

end

section

variable {taxonomy : RawTaxonomy} {nodes : List (List EntityId)} {directOf : List EntityId → List Nat}

/-- The rows of direct types, node after node. -/
def typeRows (nodes : List (List EntityId)) (directOf : List EntityId → List Nat) : List (Nat × Nat) :=
  sortedBy pairKey (nodes.zipIdx.flatMap fun row => (directOf row.1).map (row.2, ·))

theorem mem_typeRows {index type : Nat} : (index, type) ∈ typeRows nodes directOf ↔
    ∃ node, nodes[index]? = some node ∧ type ∈ directOf node := by
  simp only [typeRows, mem_sortedBy, List.mem_flatMap, List.mem_map, Prod.mk.injEq, Prod.exists,
    List.mem_zipIdx_iff_getElem?]
  constructor
  · rintro ⟨node, _, entry, _, member, rfl, rfl⟩
    exact ⟨node, entry, member⟩
  · rintro ⟨node, entry, member⟩
    exact ⟨node, index, entry, type, member, rfl, rfl⟩

theorem typeRows_strict (distinct : ∀ node, (directOf node).Nodup) :
    (typeRows nodes directOf).Pairwise fun a b => pairKey a < pairKey b := by
  have positions : (nodes.zipIdx.map Prod.snd).Nodup := by
    rw [List.zipIdx_map_snd]
    exact List.nodup_range'
  have nodup : (nodes.zipIdx.flatMap fun row => (directOf row.1).map (row.2, ·)).Nodup := by
    refine List.nodup_flatMap.mpr ⟨fun row _ => (distinct row.1).map fun _ _ same => (Prod.mk.inj same).2, ?_⟩
    refine (List.pairwise_map.mp positions).imp fun {a b} apart => ?_
    intro edge left right
    obtain ⟨_, _, rfl⟩ := List.mem_map.mp left
    obtain ⟨_, _, same⟩ := List.mem_map.mp right
    exact apart (Prod.mk.inj same).1.symm
  refine ((sortedBy_pairwise pairKey _).and (sortedBy_nodup nodup)).imp ?_
  exact fun ⟨le, ne⟩ => lt_of_le_of_ne le fun same => ne (pairKey_injective same)

/-- Canonical nodes with some direct types each are a realization. -/
theorem RawRealization.check_typeRows (canonical : validateNodes nodes) (distinct : ∀ node, (directOf node).Nodup)
    (some_ : ∀ node ∈ nodes, ∃ type, type ∈ directOf node)
    (bound : ∀ node ∈ nodes, ∀ type ∈ directOf node, type < taxonomy.nodes.length) :
    ∃ value, RawRealization.check taxonomy nodes (typeRows nodes directOf) = some value ∧
      value.classTaxonomy = taxonomy ∧ value.instanceNodes = nodes ∧ value.directTypes = typeRows nodes directOf := by
  have valid : RawRealization.Valid taxonomy nodes (typeRows nodes directOf) := by
    refine ⟨canonical, ?_, fun index => ?_⟩
    · unfold validateIndexPairs checkSortedUnique
      simp only [Bool.and_eq_true, List.all_eq_true, decide_eq_true_eq, Bool.false_and, Bool.not_false, and_true]
      refine ⟨fun row listed => ?_, (typeRows_strict distinct).isChain⟩
      obtain ⟨node, entry, member⟩ := mem_typeRows.mp listed
      exact ⟨(List.getElem?_eq_some_iff.mp entry).1, bound node (List.mem_of_getElem? entry) _ member⟩
    · rw [List.mem_map]
      constructor
      · rintro ⟨row, listed, rfl⟩
        obtain ⟨node, entry, -⟩ := mem_typeRows.mp listed
        exact (List.getElem?_eq_some_iff.mp entry).1
      · intro inside
        obtain ⟨type, member⟩ := some_ _ (List.getElem_mem inside)
        exact ⟨(index, type), mem_typeRows.mpr ⟨_, List.getElem?_eq_getElem inside, member⟩, rfl⟩
  exact ⟨⟨taxonomy, nodes, _, valid⟩, dif_pos valid, rfl, rfl, rfl⟩

end

section

variable {compiled : Tables} (valid : compiled.Valid) (returned : compiled.Returned .realized)
    (taxonomy : RawTaxonomy)

include valid returned

theorem Tables.Valid.mutualIndividuals_iff (x y : EntityId) : compiled.MutualIndividuals x y ↔
    x ∈ entityIds compiled.entities .namedIndividual ∧ y ∈ entityIds compiled.entities .namedIndividual ∧
      compiled.sameIndividual compiled.realizedSubsumers (x, y) := by
  unfold MutualIndividuals sameIndividual
  rw [mem_entityIds, mem_entityIds, Bool.and_eq_true, decide_eq_true_eq, decide_eq_true_eq]
  refine and_congr_right fun left => and_congr_right fun right => ?_
  rw [valid.mem_realizedSubsumers returned left, valid.mem_realizedSubsumers returned right]

/-- The instance nodes are the classes of the same-individual equivalence. -/
theorem Tables.Valid.mem_realizedNodes {node : List EntityId} :
    node ∈ compiled.instanceNodes compiled.realizedSubsumers (entityIds compiled.entities .namedIndividual) ↔
      node.Pairwise (· < ·) ∧ ∃ x, compiled.EntityOf x .namedIndividual ∧
        ∀ y, y ∈ node ↔ compiled.EntityOf y .namedIndividual ∧ EqvGen compiled.MutualIndividuals x y := by
  rw [mem_instanceNodes entityIds_strict (valid.mutualIndividuals_iff returned)]
  simp only [mem_entityIds]

variable {node : List EntityId} (individuals : ∀ individual ∈ node, compiled.EntityOf individual .namedIndividual)

include individuals

theorem Tables.Valid.candidateType_iff (index : Nat) : compiled.CandidateType taxonomy node index ↔
    index = taxonomy.top ∨ index ≠ taxonomy.bottom ∧
      ∃ individual ∈ node, ∃ expression ∈ compiled.realizedSubsumers individual,
        compiled.expressionToClassNode taxonomy expression = some index := by
  refine or_congr_right (and_congr_right fun _ => exists_congr fun individual => and_congr_right fun inside => ?_)
  have known :=
    fun expression => @mem_realizedSubsumers compiled valid returned _ (individuals individual inside) expression
  constructor
  · rintro ⟨entity, member, object, subsumed⟩
    exact ⟨_, (known _).mpr subsumed, expressionToClassNode_iff.mpr
      ⟨entity, valid.classEntity_iff.mpr ⟨object, rfl⟩, member⟩⟩
  · rintro ⟨expression, subsumed, found⟩
    obtain ⟨entity, named, member⟩ := expressionToClassNode_iff.mp found
    obtain ⟨object, rfl⟩ := valid.classEntity_iff.mp named
    exact ⟨entity, member, object, (known _).mp subsumed⟩

theorem Tables.Valid.mem_realizedTypes {type : Nat} :
    type ∈ compiled.directTypesOf taxonomy compiled.realizedSubsumers node ↔
      compiled.CandidateType taxonomy node type ∧
      ∀ other, compiled.CandidateType taxonomy node other → ¬ TransGen (Linked taxonomy.directEdges) other type :=
  mem_directTypesOf (valid.candidateType_iff returned taxonomy individuals)

/-- Every candidate type is above a direct one. -/
theorem Tables.Valid.exists_realizedType {candidate : Nat} (held : compiled.CandidateType taxonomy node candidate) :
    ∃ type ∈ compiled.directTypesOf taxonomy compiled.realizedSubsumers node,
      ReflTransGen (Linked taxonomy.directEdges) type candidate := by
  obtain ⟨least, found, path, lowest⟩ := taxonomy.exists_minimal held
  exact ⟨least, (valid.mem_realizedTypes returned taxonomy individuals).mpr ⟨found, lowest⟩, path⟩

omit valid returned individuals in
theorem Tables.CandidateType.lt_length {index : Nat} (held : compiled.CandidateType taxonomy node index) :
    index < taxonomy.nodes.length := by
  rcases held with rfl | ⟨-, _, -, entity, inside, -⟩
  · exact taxonomy.valid.topBound
  · obtain ⟨_, entry, -⟩ := mem_getD.mp inside
    exact (List.getElem?_eq_some_iff.mp entry).1

end

section

variable {compiled : Tables} (valid : compiled.Valid) (returned : compiled.Returned .realized)
    (taxonomy : RawTaxonomy)

include valid returned

/-- Realization of a consistent snapshot returns the instance nodes with their direct types. -/
theorem buildRealization_spec (consistent : (compiled.snapshotAt .realized).inconsistentOntology = false) :
    ∃ value, buildRealization compiled (compiled.snapshotAt .realized) taxonomy = some value ∧
      value.classTaxonomy = taxonomy ∧
      value.instanceNodes =
        compiled.instanceNodes compiled.realizedSubsumers (entityIds compiled.entities .namedIndividual) ∧
      value.directTypes = typeRows value.instanceNodes
        (compiled.directTypesOf taxonomy compiled.realizedSubsumers) := by
  have members : ∀ node ∈ compiled.instanceNodes compiled.realizedSubsumers
    (entityIds compiled.entities .namedIndividual),
      ∀ individual ∈ node, compiled.EntityOf individual .namedIndividual := by
    intro node listed individual inside
    obtain ⟨-, x, -, spec⟩ := (valid.mem_realizedNodes returned).mp listed
    exact ((spec individual).mp inside).1
  have small : ∀ individual ∈ entityIds compiled.entities .namedIndividual, individual ≤ U32_MAX :=
    fun individual listed => Nat.le_sub_one_of_lt ((entityIds_lt listed).trans_le valid.few_entities)
  have all : (entityIds compiled.entities .namedIndividual).all fun individual =>
      (compiled.classContext (compiled.snapshotAt .realized)
        (compiled.namedExpression .individual individual)).isSome := by
    rw [List.all_eq_true]
    intro individual listed
    obtain ⟨context, found, -⟩ := valid.individualContext_spec returned (mem_entityIds.mp listed)
    rw [found]
    rfl
  obtain ⟨value, checked, based, same, rows⟩ := @RawRealization.check_typeRows taxonomy _ _
    (Tables.validate_instanceNodes entityIds_strict small) Tables.directTypesOf_nodup
    (fun node listed => (valid.exists_realizedType returned taxonomy (members node listed) (Or.inl rfl)).imp
      fun _ => And.left)
    fun node listed type member =>
      ((valid.mem_realizedTypes returned taxonomy (members node listed)).mp member).1.lt_length
  refine ⟨value, ?_, based, same, same ▸ rows⟩
  unfold buildRealization
  rw [consistent, if_neg Bool.false_ne_true, if_pos all]
  exact checked

/-- Realization of a consistent snapshot succeeds and is exact. -/
theorem buildRealization_exact (consistent : (compiled.snapshotAt .realized).inconsistentOntology = false) :
    ∃ value, buildRealization compiled (compiled.snapshotAt .realized) taxonomy = some value ∧
      value.Exact compiled taxonomy := by
  obtain ⟨value, built, based, same, rows⟩ := buildRealization_spec valid returned taxonomy consistent
  have members : ∀ {index : Nat} {node}, value.instanceNodes[index]? = some node →
      ∀ individual ∈ node, compiled.EntityOf individual .namedIndividual := by
    intro index node entry individual inside
    obtain ⟨-, x, -, spec⟩ := (valid.mem_realizedNodes returned).mp (same ▸ List.mem_of_getElem? entry)
    exact ((spec individual).mp inside).1
  have own : ∀ {index : Nat} {node}, value.instanceNodes[index]? = some node → ∀ type,
    (index, type) ∈ value.directTypes ↔
      type ∈ compiled.directTypesOf taxonomy compiled.realizedSubsumers node := by
    intro index node entry type
    rw [rows, mem_typeRows]
    constructor
    · rintro ⟨other, found, member⟩
      rw [entry] at found
      exact Option.some.inj found ▸ member
    · exact fun member => ⟨node, entry, member⟩
  have direct : ∀ {index : Nat} {node}, value.instanceNodes[index]? = some node → ∀ type,
    (index, type) ∈ value.directTypes ↔
      compiled.CandidateType taxonomy node type ∧
        ∀ other, compiled.CandidateType taxonomy node other → ¬ TransGen (Linked taxonomy.directEdges) other type :=
    fun entry type => (own entry type).trans (valid.mem_realizedTypes returned taxonomy (members entry))
  refine ⟨value, built, based, fun node => ?_, direct, fun index inside => ?_,
    fun {index type other} left right => ?_,
    fun {index node} entry type => ?_⟩
  · rw [same, valid.mem_realizedNodes returned]
  · have entry := List.getElem?_eq_getElem inside
    obtain ⟨type, member, -⟩ := valid.exists_realizedType returned taxonomy (members entry) (Or.inl rfl)
    exact ⟨type, (own entry type).mpr member⟩
  · rw [rows, mem_typeRows] at left
    obtain ⟨node, entry, member⟩ := left
    exact ((valid.mem_realizedTypes returned taxonomy (members entry)).mp member).2 _ ((direct entry _).mp right).1
  · constructor
    · rintro ⟨found, member, path⟩
      exact ⟨found, ((direct entry _).mp member).1, path⟩
    · rintro ⟨candidate, held, path⟩
      obtain ⟨found, member, lower⟩ := valid.exists_realizedType returned taxonomy (members entry) held
      exact ⟨found, (own entry _).mpr member, lower.trans path⟩

end

section

variable {value : RawRealization}

theorem validateNodes_flatten {nodes : List (List EntityId)} (canonical : validateNodes nodes) :
    nodes.flatten.Nodup := by
  unfold validateNodes at canonical
  rw [Bool.and_eq_true, decide_eq_true_eq] at canonical
  exact canonical.2

/-- Nodes with a common member are the same node. -/
theorem getD_inj {nodes : List (List EntityId)} (distinct : nodes.flatten.Nodup) {i j : Nat} {entity : EntityId}
    (left : entity ∈ nodes.getD i []) (right : entity ∈ nodes.getD j []) : i = j := by
  obtain ⟨_, entry, member⟩ := mem_getD.mp left
  obtain ⟨_, entry', member'⟩ := mem_getD.mp right
  rw [← nodeFor_eq distinct entry member, ← nodeFor_eq distinct entry' member']

theorem nodeIndex_eq {nodes : List (List EntityId)} (distinct : nodes.flatten.Nodup) {index : Nat} {entity : EntityId}
    (inside : entity ∈ nodes.getD index []) : nodeIndex nodes entity = some index := by
  obtain ⟨node, entry, member⟩ := mem_getD.mp inside
  rw [nodeIndex, if_pos (List.mem_flatten.mpr ⟨node, List.mem_of_getElem? entry, member⟩),
    nodeFor_eq distinct entry member]

/-- The typing relation between instance nodes and class nodes that a realization stands for. -/
def RawRealization.Typed (value : RawRealization) (direct : Bool) (instanceIndex classIndex : Nat) : Prop :=
  ∃ type, (instanceIndex, type) ∈ value.directTypes ∧
    if direct then type = classIndex else ReflTransGen (Linked value.classTaxonomy.directEdges) type classIndex

theorem RawRealization.mem_directTypeIndices {index type : Nat} :
    type ∈ value.directTypeIndices index ↔ (index, type) ∈ value.directTypes := by
  simp only [directTypeIndices, List.mem_map, List.mem_filter, beq_iff_eq, Prod.exists]
  constructor
  · rintro ⟨a, b, ⟨row, rfl⟩, rfl⟩
    exact row
  · exact fun row => ⟨index, type, ⟨row, rfl⟩, rfl⟩

theorem RawTaxonomy.mem_select {taxonomy : RawTaxonomy} {indices : List Nat} {index : Nat} {entity : EntityId}
    (inside : entity ∈ taxonomy.nodes.getD index []) :
    taxonomy.nodes.getD index [] ∈ taxonomy.select indices ↔ index ∈ indices := by
  simp only [select, mem_sortedBy, List.mem_map, List.mem_dedup]
  constructor
  · rintro ⟨other, listed, same⟩
    rw [← getD_inj taxonomy.distinct (same ▸ inside) inside]
    exact listed
  · exact fun listed => ⟨index, listed, rfl⟩

variable {instanceIndex classIndex : Nat} {individual entity : EntityId}
  (instance_ : individual ∈ value.instanceNodes.getD instanceIndex [])
  (class_ : entity ∈ value.classTaxonomy.nodes.getD classIndex []) (direct : Bool)

include instance_ class_

/-- The types of an individual, as nodes. -/
theorem RawRealization.types_spec (freshId : Option EntityId) : ∃ nodes,
    value.types individual direct freshId = some nodes ∧
      (value.classTaxonomy.nodes.getD classIndex [] ∈ nodes ↔ value.Typed direct instanceIndex classIndex) := by
  refine ⟨_, by rw [types, nodeIndex_eq (validateNodes_flatten value.valid.canonical) instance_], ?_⟩
  rw [RawTaxonomy.mem_select class_]
  unfold Typed
  cases direct with
  | true =>
    simp only [if_true, mem_directTypeIndices, exists_eq_right]
  | false =>
    simp only [Bool.false_eq_true, if_false, List.mem_append, List.mem_flatMap, mem_directTypeIndices,
      RawTaxonomy.mem_strictSupers]
    constructor
    · rintro (row | ⟨type, row, path⟩)
      · exact ⟨classIndex, row, .refl⟩
      · exact ⟨type, row, path.to_reflTransGen⟩
    · rintro ⟨type, row, path⟩
      rcases reflTransGen_iff_eq_or_transGen.mp path with same | strict
      · exact Or.inl (same ▸ row)
      · exact Or.inr ⟨type, row, strict⟩

/-- The instances of a class, as nodes. -/
theorem RawRealization.instances_spec : ∃ nodes, value.instances entity direct = some nodes ∧
    (value.instanceNodes.getD instanceIndex [] ∈ nodes ↔ value.Typed direct instanceIndex classIndex) := by
  have distinct := validateNodes_flatten value.valid.canonical
  refine ⟨_, by rw [instances, nodeIndex_eq value.classTaxonomy.distinct class_, Option.map_some], ?_⟩
  have selected : ∀ {indices : List Nat}, value.instanceNodes.getD instanceIndex [] ∈
      indices.map (fun index => value.instanceNodes.getD index []) ↔ instanceIndex ∈ indices := by
    intro indices
    rw [List.mem_map]
    constructor
    · rintro ⟨other, listed, same⟩
      rw [← getD_inj distinct (same ▸ instance_) instance_]
      exact listed
    · exact fun listed => ⟨instanceIndex, listed, rfl⟩
  rw [selected, mem_sortedSet]
  unfold Typed
  simp only [List.mem_map, List.mem_filter, Bool.or_eq_true, beq_iff_eq, Bool.and_eq_true, Bool.not_eq_true',
    decide_eq_true_eq, RawTaxonomy.mem_strictSupers, Prod.exists]
  cases direct with
  | true =>
    simp only [Bool.true_eq_false, false_and, or_false, if_true]
    constructor
    · rintro ⟨_, type, ⟨row, same⟩, rfl⟩
      exact ⟨type, row, same⟩
    · rintro ⟨type, row, same⟩
      exact ⟨_, type, ⟨row, same⟩, rfl⟩
  | false =>
    simp only [true_and, Bool.false_eq_true, if_false, reflTransGen_iff_eq_or_transGen]
    constructor
    · rintro ⟨_, type, ⟨row, reached⟩, rfl⟩
      exact ⟨type, row, reached.imp_left Eq.symm⟩
    · rintro ⟨type, row, reached⟩
      exact ⟨_, type, ⟨row, reached.imp_left Eq.symm⟩, rfl⟩

/-- Types and instances are inverse to each other. -/
theorem RawRealization.types_instances (freshId : Option EntityId) : ∃ types instances,
    value.types individual direct freshId = some types ∧ value.instances entity direct = some instances ∧
      (value.classTaxonomy.nodes.getD classIndex [] ∈ types ↔ value.Typed direct instanceIndex classIndex) ∧
      (value.instanceNodes.getD instanceIndex [] ∈ instances ↔ value.Typed direct instanceIndex classIndex) := by
  obtain ⟨types, found, typed⟩ := types_spec instance_ class_ direct freshId
  obtain ⟨instances, found', typed'⟩ := instances_spec instance_ class_ direct
  exact ⟨types, instances, found, found', typed, typed'⟩

end

section

variable {compiled : CompiledOntology}

/-- The realization that a session builds. -/
theorem SaturationSession.Reachable.realization {session next : SaturationSession} {taxonomy : RawTaxonomy}
    {realized : Option RawRealization} (reachable : session.Reachable compiled)
    (found : session.realization taxonomy = .ok (next, realized)) :
    compiled.Returned .realized ∧ next = .reached compiled .realized ∧
      realized = buildRealization compiled.toTables (compiled.snapshotAt .realized) taxonomy := by
  unfold SaturationSession.realization at found
  obtain ⟨⟨reached, snapshot⟩, realized, same⟩ := bind_eq_ok.mp found
  obtain ⟨returned, rfl, rfl⟩ := reachable.ensureRealized realized
  cases same
  exact ⟨returned, rfl, rfl⟩

end

end PyElk
