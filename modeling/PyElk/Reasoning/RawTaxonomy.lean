import PyElk.Indexing.Validity
import PyElk.Reasoning.Reduction

open Relation Components Topological Reduction Ordered

namespace PyElk

def U32_MAX : Nat := U32_RESERVED - 1

/-- `_validate_nodes`. -/
def validateNodes (nodes : List (List EntityId)) : Bool :=
  (nodes.all fun node => !node.isEmpty && (node.all fun member => decide (member ≤ U32_MAX)) &&
    decide (node.IsChain (· < ·))) && decide (nodes.IsChain (· < ·)) && decide (nodes.flatten.Nodup)

/-- `_validate_index_pairs`. -/
def validateIndexPairs (values : List (Nat × Nat)) (firstLimit secondLimit : Nat) (distinct : Bool) : Bool :=
  (values.all fun value => decide (value.1 < firstLimit) && decide (value.2 < secondLimit) &&
    !(distinct && value.1 == value.2)) && checkSortedUnique pairKey values

/-- `_reachable_nodes`. -/
def reachableNodes (nodeCount start : Nat) (edges : Nat → List Nat) : List Nat :=
  (Collection.run (fun node => (edges node).reverse) nodeCount ⟨[start], [start], []⟩).assigned

/-- `_validate_taxonomy_graph`. -/
def validateTaxonomyGraph (nodeCount : Nat) (directEdges : List (Nat × Nat)) (top bottom : Nat) : Bool :=
  let outgoing := adjacency directEdges
  let incoming := adjacency (directEdges.map Prod.swap)
  (outgoing top).isEmpty && (incoming bottom).isEmpty &&
    (topologicalOrder outgoing List.head? (List.range nodeCount)).isSome &&
    ((List.range nodeCount).all fun node => decide (node ∈ reachableNodes nodeCount bottom outgoing)) &&
    (List.range nodeCount).all fun node => decide (node ∈ reachableNodes nodeCount top incoming)

/-- The checks of `RawTaxonomy.__post_init__`. -/
structure RawTaxonomy.Valid (nodes : List (List EntityId)) (directEdges : List (Nat × Nat))
    (top bottom : Nat) : Prop where
  canonical : validateNodes nodes
  topBound : top < nodes.length
  bottomBound : bottom < nodes.length
  edges : validateIndexPairs directEdges nodes.length nodes.length true
  graph : validateTaxonomyGraph nodes.length directEdges top bottom

instance RawTaxonomy.decidableValid (nodes : List (List EntityId)) (directEdges : List (Nat × Nat))
    (top bottom : Nat) :
    Decidable (RawTaxonomy.Valid nodes directEdges top bottom) :=
  decidable_of_iff (validateNodes nodes ∧ top < nodes.length ∧ bottom < nodes.length ∧
      validateIndexPairs directEdges nodes.length nodes.length true ∧
      validateTaxonomyGraph nodes.length directEdges top bottom)
    ⟨fun ⟨a, b, c, d, e⟩ => ⟨a, b, c, d, e⟩, fun ⟨a, b, c, d, e⟩ => ⟨a, b, c, d, e⟩⟩

/-- Backend-neutral taxonomy over entity ids and canonical node indices. -/
structure RawTaxonomy where
  nodes : List (List EntityId)
  directEdges : List (Nat × Nat)
  top : Nat
  bottom : Nat
  valid : RawTaxonomy.Valid nodes directEdges top bottom
  deriving DecidableEq

def RawTaxonomy.check (nodes : List (List EntityId)) (directEdges : List (Nat × Nat)) (top bottom : Nat) :
    Option RawTaxonomy :=
  if valid : RawTaxonomy.Valid nodes directEdges top bottom then some ⟨nodes, directEdges, top, bottom, valid⟩
  else none

/-- Two entities share a node, or the node of the second is above that of the first. -/
def RawTaxonomy.Below (taxonomy : RawTaxonomy) (sub super : EntityId) : Prop :=
  ReflTransGen (Linked taxonomy.directEdges) (nodeFor taxonomy.nodes sub) (nodeFor taxonomy.nodes super)

/-- The entities of one kind, in ascending order. -/
def entityIds (entities : List EntityRecord) (kind : EntityKind) : List EntityId :=
  (entities.zipIdx.filter fun row => row.1.kind == kind).map Prod.snd

/-- `_metadata_entity`. -/
def metadataEntity (entities : List EntityRecord) (kind : EntityKind) (iri : String) : EntityId :=
  entities.findIdx fun record => record.kind == kind && record.iri == iri

/-- The predefined bounds of the taxonomy of a kind. -/
def boundIris : EntityKind → String × String
  | .owlClass => (OWL_THING_IRI, OWL_NOTHING_IRI)
  | _ => (OWL_TOP_OBJECT_PROPERTY_IRI, OWL_BOTTOM_OBJECT_PROPERTY_IRI)

def topEntity (entities : List EntityRecord) (kind : EntityKind) : EntityId :=
  metadataEntity entities kind (boundIris kind).1

def bottomEntity (entities : List EntityRecord) (kind : EntityKind) : EntityId :=
  metadataEntity entities kind (boundIris kind).2

/-- `validate_taxonomy_entities`: kind, coverage, special nodes and minimal edges. -/
def validateTaxonomyEntities (entities : List EntityRecord) (taxonomy : RawTaxonomy) (kind : EntityKind) :
    Option RawTaxonomy :=
  if sortedBy id taxonomy.nodes.flatten = entityIds entities kind ∧
      topEntity entities kind ∈ taxonomy.nodes.getD taxonomy.top [] ∧
      bottomEntity entities kind ∈ taxonomy.nodes.getD taxonomy.bottom [] ∧
      transitiveReduction taxonomy.nodes.length taxonomy.directEdges = some taxonomy.directEdges then some taxonomy
  else none

/-- `_from_relation`. -/
def fromRelation (entities : List EntityRecord) (kind : EntityKind) (edges : List (Nat × Nat)) : Option RawTaxonomy :=
  (quotientAndReduce (entityIds entities kind) edges).bind fun reduced =>
    (RawTaxonomy.check reduced.nodes reduced.directEdges (nodeFor reduced.nodes (topEntity entities kind))
      (nodeFor reduced.nodes (bottomEntity entities kind))).bind
        fun taxonomy => validateTaxonomyEntities entities taxonomy kind

/-- `_collapsed_taxonomy`. -/
def collapsedTaxonomy (entities : List EntityRecord) (kind : EntityKind) : Option RawTaxonomy :=
  (RawTaxonomy.check [entityIds entities kind] [] 0 0).bind fun taxonomy =>
    validateTaxonomyEntities entities taxonomy kind

theorem mem_entityIds {compiled : Tables} {kind : EntityKind} {entity : EntityId} :
    entity ∈ entityIds compiled.entities kind ↔ compiled.EntityOf entity kind := by
  simp only [entityIds, List.mem_map, List.mem_filter, beq_iff_eq, Prod.exists, List.mem_zipIdx_iff_getElem?]
  constructor
  · rintro ⟨⟨found, iri⟩, position, ⟨entry, rfl⟩, rfl⟩
    exact ⟨iri, entry⟩
  · rintro ⟨iri, entry⟩
    exact ⟨⟨kind, iri⟩, entity, ⟨entry, rfl⟩, rfl⟩

theorem entityIds_strict {entities : List EntityRecord} {kind : EntityKind} :
    (entityIds entities kind).Pairwise (· < ·) := by
  have positions : (entities.zipIdx.map Prod.snd).Pairwise (· < ·) := by
    rw [List.zipIdx_map_snd]
    exact List.pairwise_lt_range'
  exact List.pairwise_map.mpr ((List.pairwise_map.mp positions).filter _)

section

variable {nodeCount : Nat} {edges : List (Nat × Nat)}
  (bounds : ∀ edge ∈ edges, edge.1 < nodeCount ∧ edge.2 < nodeCount)

include bounds

/-- The search from a node finds what the node reaches. -/
theorem mem_reachableNodes {start x : Nat} (inside : start < nodeCount)
    (path : ReflTransGen (Linked edges) start x) : x ∈ reachableNodes nodeCount start (adjacency edges) := by
  have backward : ∀ x ∈ List.range nodeCount, ∀ y, y ∈ (adjacency edges x).reverse ↔
      y ∈ List.range nodeCount ∧ x ∈ adjacency (edges.map Prod.swap) y := by
    intro x _ y
    rw [List.mem_reverse, mem_adjacency, mem_adjacency, List.mem_range]
    exact (and_iff_right_of_imp fun edge => (bounds _ (linked_swap.mp edge)).2).trans linked_swap |>.symm
  have begun : Collection.Sound (adjacency (edges.map Prod.swap)) (fun node => (adjacency edges node).reverse)
      (List.range nodeCount) [] start ⟨[start], [start], []⟩ := by
    refine ⟨by simp, List.nodup_singleton _, ?_, ?_, by simp, .head _⟩
    · intro x single
      rw [List.append_nil, List.mem_singleton] at single
      exact ⟨List.mem_range.mpr (single ▸ inside), List.not_mem_nil⟩
    · intro x single
      rw [List.append_nil, List.mem_singleton] at single
      rw [single]
  have enough :
    (List.range nodeCount).length ≤ (⟨[start], [start], []⟩ : Collection).component.length + nodeCount := by
    simp
  obtain ⟨sound, idle⟩ := begun.run backward enough
  have gathered : ∀ y, y ∈ reachableNodes nodeCount start (adjacency edges) ↔
      y ∈ (Collection.run (fun node => (adjacency edges node).reverse) nodeCount
        ⟨[start], [start], []⟩).component := by
    intro y
    rw [reachableNodes, sound.assigned y, idle, List.nil_append]
    simp
  induction path with
  | refl =>
    have started := sound.started
    rw [idle, List.nil_append] at started
    exact (gathered start).mpr started
  | tail _ edge ih =>
    exact sound.closed _ ((gathered _).mp ih) _ (List.mem_reverse.mpr (mem_adjacency.mpr edge))

/-- An acyclic graph between two bounds passes the checks. -/
theorem validateTaxonomyGraph_of {top bottom : Nat} (acyclic : ∀ x, ¬ TransGen (Linked edges) x x)
    (below : ∀ x < nodeCount, ReflTransGen (Linked edges) x top)
    (above : ∀ x < nodeCount, ReflTransGen (Linked edges) bottom x)
    (topBound : top < nodeCount) (bottomBound : bottom < nodeCount) :
    validateTaxonomyGraph nodeCount edges top bottom := by
  have relation : Edge (adjacency edges) = Linked edges := edge_adjacency fun _ => Iff.rfl
  have swapped : ∀ x y, ReflTransGen (Linked (edges.map Prod.swap)) x y ↔ ReflTransGen (Linked edges) y x := by
    intro x y
    have same : Linked (edges.map Prod.swap) = Function.swap (Linked edges) := by
      funext a b
      exact propext linked_swap
    rw [same, reflTransGen_swap]
  have bounds' : ∀ edge ∈ edges.map Prod.swap, edge.1 < nodeCount ∧ edge.2 < nodeCount := by
    intro edge listed
    obtain ⟨other, member, rfl⟩ := List.mem_map.mp listed
    exact (bounds other member).symm
  have order : (topologicalOrder (adjacency edges) List.head? (List.range nodeCount)).isSome := by
    obtain ⟨order, found, _⟩ := @topologicalOrder_spec (adjacency edges) (List.range nodeCount)
      (fun x _ y edge => List.mem_range.mpr (bounds _ (mem_adjacency.mp edge)).2) List.head?
      (fun ready => ⟨fun node found => List.mem_of_mem_head? found, List.head?_eq_none_iff.mp⟩)
      List.nodup_range (by rwa [relation])
    rw [found]
    rfl
  have final : adjacency edges top = [] := by
    refine List.eq_nil_iff_forall_not_mem.mpr fun x edge => ?_
    have link := mem_adjacency.mp edge
    exact acyclic top (.head' link (below x (bounds _ link).2))
  have first : adjacency (edges.map Prod.swap) bottom = [] := by
    refine List.eq_nil_iff_forall_not_mem.mpr fun x edge => ?_
    have link := linked_swap.mp (mem_adjacency.mp edge)
    exact acyclic bottom (.tail' (above x (bounds _ link).1) link)
  simp only [validateTaxonomyGraph, final, first, order, List.isEmpty_nil, Bool.and_self, Bool.true_and,
    Bool.and_eq_true, List.all_eq_true, List.mem_range, decide_eq_true_eq]
  exact ⟨fun x inside => mem_reachableNodes bounds bottomBound (above x inside),
    fun x inside => mem_reachableNodes bounds' topBound ((swapped _ _).mpr (below x inside))⟩

end

/-- A taxonomy of the entities of a kind represents a relation over them. -/
structure RawTaxonomy.Represents (entities : List EntityRecord) (kind : EntityKind) (edges : List (Nat × Nat))
    (taxonomy : RawTaxonomy) : Prop where
  covers : ∀ x, x ∈ taxonomy.nodes.flatten ↔ x ∈ entityIds entities kind
  below : ∀ x ∈ entityIds entities kind, ∀ y ∈ entityIds entities kind,
    taxonomy.Below x y ↔ ReflTransGen (Linked edges) x y
  acyclic : ∀ node, ¬ TransGen (Linked taxonomy.directEdges) node node
  top : taxonomy.top = nodeFor taxonomy.nodes (topEntity entities kind)
  bottom : taxonomy.bottom = nodeFor taxonomy.nodes (bottomEntity entities kind)

section

variable {entities : List EntityRecord} {kind : EntityKind} {edges : List (Nat × Nat)}
  (few : entities.length ≤ U32_RESERVED) (topMember : topEntity entities kind ∈ entityIds entities kind)
  (bottomMember : bottomEntity entities kind ∈ entityIds entities kind)

theorem entityIds_lt {entity : EntityId} (member : entity ∈ entityIds entities kind) : entity < entities.length := by
  obtain ⟨⟨record, position⟩, listed, rfl⟩ := List.mem_map.mp member
  exact (List.getElem?_eq_some_iff.mp (List.mem_zipIdx_iff_getElem?.mp (List.mem_filter.mp listed).1)).1

include few topMember bottomMember

/-- A relation between its bounds always gives a taxonomy. -/
theorem fromRelation_spec
    (within : ∀ edge ∈ edges, edge.1 ∈ entityIds entities kind ∧ edge.2 ∈ entityIds entities kind)
    (below : ∀ x ∈ entityIds entities kind, (x, topEntity entities kind) ∈ edges)
    (above : ∀ x ∈ entityIds entities kind, (bottomEntity entities kind, x) ∈ edges) :
    ∃ taxonomy, fromRelation entities kind edges = some taxonomy ∧ taxonomy.Represents entities kind edges := by
  have strict : (entityIds entities kind).Pairwise (· < ·) := entityIds_strict
  have distinct : (entityIds entities kind).Nodup := strict.imp fun lt => Nat.ne_of_lt lt
  obtain ⟨reduced, computed, covers, reach, reduces⟩ := quotientAndReduce_spec distinct within
  have valid := reduced.valid
  have entry : ∀ {x}, x ∈ entityIds entities kind → ∃ node,
    reduced.nodes[nodeFor reduced.nodes x]? = some node ∧ x ∈ node :=
    fun {x} member => nodeFor_spec ((covers x).mpr member)
  have bound : ∀ {x}, x ∈ entityIds entities kind → nodeFor reduced.nodes x < reduced.nodes.length := by
    intro x member
    obtain ⟨node, found, _⟩ := entry member
    exact (List.getElem?_eq_some_iff.mp found).1
  have named : ∀ index < reduced.nodes.length, ∃ x ∈ entityIds entities kind, nodeFor reduced.nodes x = index := by
    intro index inside
    obtain ⟨x, member⟩ := List.exists_mem_of_ne_nil _ (valid.nonempty _ (List.getElem_mem inside))
    refine ⟨x, (covers x).mp (List.mem_flatten.mpr ⟨_, List.getElem_mem inside, member⟩), ?_⟩
    exact nodeFor_eq valid.unique (List.getElem?_eq_getElem inside) member
  have edges' := valid.edges
  unfold validatedEdges at edges'
  rw [Bool.and_eq_true, List.all_eq_true] at edges'
  have bounds : ∀ edge ∈ reduced.directEdges, edge.1 < reduced.nodes.length ∧ edge.2 < reduced.nodes.length := by
    intro edge listed
    have checked := edges'.1 edge listed
    simp only [Bool.and_eq_true, decide_eq_true_eq] at checked
    exact checked.1
  have toTop : ∀ index < reduced.nodes.length,
      ReflTransGen (Linked reduced.directEdges) index (nodeFor reduced.nodes (topEntity entities kind)) := by
    intro index inside
    obtain ⟨x, member, rfl⟩ := named index inside
    exact (reach x member _ topMember).mpr (.single (below x member))
  have fromBottom : ∀ index < reduced.nodes.length,
      ReflTransGen (Linked reduced.directEdges) (nodeFor reduced.nodes (bottomEntity entities kind)) index := by
    intro index inside
    obtain ⟨x, member, rfl⟩ := named index inside
    exact (reach _ bottomMember x member).mpr (.single (above x member))
  have checked : RawTaxonomy.Valid reduced.nodes reduced.directEdges
      (nodeFor reduced.nodes (topEntity entities kind)) (nodeFor reduced.nodes (bottomEntity entities kind)) := by
    refine ⟨?_, bound topMember, bound bottomMember, ?_,
      validateTaxonomyGraph_of bounds reduces.acyclic toTop fromBottom (bound topMember) (bound bottomMember)⟩
    · unfold validateNodes
      simp only [Bool.and_eq_true, List.all_eq_true, decide_eq_true_eq, Bool.not_eq_true',
        List.isEmpty_eq_false_iff]
      refine ⟨⟨fun node listed => ⟨⟨valid.nonempty node listed, fun x member => ?_⟩,
        (valid.sorted node listed).isChain⟩,
        valid.canonical.isChain⟩, valid.unique⟩
      have := entityIds_lt ((covers x).mp (List.mem_flatten.mpr ⟨node, listed, member⟩))
      exact Nat.le_sub_one_of_lt (this.trans_le few)
    · unfold validateIndexPairs
      rw [edges'.2, Bool.and_true, List.all_eq_true]
      intro edge listed
      have apart := edges'.1 edge listed
      rw [Bool.and_eq_true] at apart ⊢
      exact ⟨apart.1, apart.2⟩
  have place : ∀ {x}, x ∈ entityIds entities kind → x ∈ reduced.nodes.getD (nodeFor reduced.nodes x) [] := by
    intro x member
    obtain ⟨node, found, inside⟩ := entry member
    rw [List.getD_eq_getElem?_getD, found, Option.getD_some]
    exact inside
  have coverage : sortedBy id reduced.nodes.flatten = entityIds entities kind := by
    refine @eq_of_strict _ _ _ id _ _ ?_ strict fun x => mem_sortedBy.trans (covers x)
    refine ((sortedBy_pairwise id _).and (sortedBy_nodup valid.unique)).imp ?_
    exact fun ⟨le, ne⟩ => lt_of_le_of_ne le ne
  have minimal : transitiveReduction reduced.nodes.length reduced.directEdges = some reduced.directEdges := by
    obtain ⟨direct, again, reduces'⟩ := transitiveReduction_spec bounds reduces.acyclic
    rw [again, reduces.unique reduces']
  refine ⟨⟨_, _, _, _, checked⟩, ?_, covers, reach, reduces.acyclic, rfl, rfl⟩
  unfold fromRelation validateTaxonomyEntities RawTaxonomy.check
  simp only [computed, Option.bind_some, dif_pos checked]
  exact if_pos ⟨coverage, place topMember, place bottomMember, minimal⟩

/-- The collapsed taxonomy exists, and puts every entity below every other. -/
theorem collapsedTaxonomy_spec : ∃ taxonomy, collapsedTaxonomy entities kind = some taxonomy ∧
    taxonomy.nodes = [entityIds entities kind] ∧ taxonomy.directEdges = [] := by
  have strict : (entityIds entities kind).Pairwise (· < ·) := entityIds_strict
  have nonempty : entityIds entities kind ≠ [] := List.ne_nil_of_mem topMember
  have checked : RawTaxonomy.Valid [entityIds entities kind] [] 0 0 := by
    have small : ∀ x ∈ entityIds entities kind, x ≤ U32_MAX := fun x member =>
      Nat.le_sub_one_of_lt ((entityIds_lt member).trans_le few)
    have distinct : (entityIds entities kind).Nodup := strict.imp fun lt => Nat.ne_of_lt lt
    refine ⟨?_, Nat.one_pos, Nat.one_pos, rfl, ?single⟩
    case single => exact (by decide : validateTaxonomyGraph 1 [] 0 0)
    unfold validateNodes
    simp only [List.all_cons, List.all_nil, Bool.and_true, Bool.and_eq_true, List.all_eq_true, decide_eq_true_eq,
      Bool.not_eq_true', List.isEmpty_eq_false_iff, List.flatten_singleton]
    exact ⟨⟨⟨⟨nonempty, small⟩, strict.isChain⟩, .singleton _⟩, distinct⟩
  have coverage : sortedBy id [entityIds entities kind].flatten = entityIds entities kind := by
    rw [List.flatten_singleton]
    refine @eq_of_strict _ _ _ id _ _ ?_ strict fun x => mem_sortedBy
    refine ((sortedBy_pairwise id _).and (sortedBy_nodup (strict.imp fun lt => Nat.ne_of_lt lt))).imp ?_
    exact fun ⟨le, ne⟩ => lt_of_le_of_ne le ne
  refine ⟨⟨_, _, _, _, checked⟩, ?_, rfl, rfl⟩
  unfold collapsedTaxonomy validateTaxonomyEntities RawTaxonomy.check
  simp only [dif_pos checked, Option.bind_some]
  exact if_pos ⟨coverage, topMember, bottomMember,
    (by decide : transitiveReduction 1 [] = some [])⟩

end

end PyElk
