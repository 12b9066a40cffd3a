import PyElk.Reasoning.QueryEngine

open Relation Ordered

namespace PyElk

/-- The lists of disjoint ascending node members, which is what a result accepts. -/
structure NodeLists (nodes : List (List EntityId)) : Prop where
  each : ∀ node ∈ nodes, node ≠ [] ∧ (∀ x ∈ node, x ≤ U32_MAX) ∧ node.Pairwise (· < ·)
  disjoint : nodes.Pairwise List.Disjoint

theorem NodeLists.sublist {nodes kept : List (List EntityId)} (lists : NodeLists nodes)
    (sublist : kept.Sublist nodes) :
    NodeLists kept :=
  ⟨fun node listed => lists.each node (sublist.subset listed), lists.disjoint.sublist sublist⟩

theorem NodeLists.append {left right : List (List EntityId)} (first : NodeLists left) (second : NodeLists right)
    (apart : ∀ a ∈ left, ∀ b ∈ right, a.Disjoint b) : NodeLists (left ++ right) :=
  ⟨fun node listed => (List.mem_append.mp listed).elim (first.each node) (second.each node),
    List.pairwise_append.mpr ⟨first.disjoint, second.disjoint, apart⟩⟩

/-- Node lists taken from checked nodes at different places. -/
theorem NodeLists.of_canonical {nodes : List (List EntityId)} (canonical : validateNodes nodes) {indices : List Nat}
    (distinct : indices.Nodup) (bounds : ∀ index ∈ indices, index < nodes.length) :
    NodeLists (indices.map fun index => nodes.getD index []) := by
  have flat := validateNodes_flatten canonical
  unfold validateNodes at canonical
  simp only [Bool.and_eq_true, List.all_eq_true, decide_eq_true_eq, Bool.not_eq_true',
    List.isEmpty_eq_false_iff] at canonical
  refine ⟨fun node listed => ?_, List.pairwise_map.mpr (distinct.imp fun {i j} apart x left right => ?_)⟩
  · obtain ⟨index, member, rfl⟩ := List.mem_map.mp listed
    have entry := List.getElem?_eq_getElem (bounds index member)
    rw [List.getD_eq_getElem?_getD, entry, Option.getD_some]
    obtain ⟨⟨nonempty, small⟩, ascending⟩ := canonical.1.1 _ (List.mem_of_getElem? entry)
    exact ⟨nonempty, small, List.isChain_iff_pairwise.mp ascending⟩
  · exact apart (getD_inj flat left right)

/-- A result of disjoint ascending nodes is accepted. -/
theorem NodeLists.accepted {nodes : List (List EntityId)} (lists : NodeLists nodes) {kind : QueryKind}
    (valued : kind ≠ .satisfiable) : ∃ result, queryNodes kind nodes = some result := by
  have valid : RawQueryResult.Valid kind none (sortedBy id nodes) := by
    refine ⟨validateNodes_sortedBy lists.each lists.disjoint, ?_⟩
    rw [if_neg valued]
  exact ⟨_, dif_pos valid⟩

theorem queryNodes_nodes {kind : QueryKind} {nodes : List (List EntityId)} {result : RawQueryResult}
    (found : queryNodes kind nodes = some result) {node : List EntityId} : node ∈ result.nodes ↔ node ∈ nodes := by
  unfold queryNodes RawQueryResult.check at found
  split at found
  · obtain rfl := Option.some.inj found
    exact mem_sortedBy
  · cases found

/-- The operations whose results are compared. -/
def comparedKinds : List QueryKind := [.equivalentClasses, .subclasses, .superclasses]

/-- No class is in two of the equivalence, subclass and superclass results. -/
structure StrictAnswers (answer : QueryKind → Bool → RawQueryResult) : Prop where
  subclasses : ∀ first second,
    (answer .equivalentClasses first).nodes.flatten.Disjoint (answer .subclasses second).nodes.flatten
  superclasses : ∀ first second,
    (answer .equivalentClasses first).nodes.flatten.Disjoint (answer .superclasses second).nodes.flatten
  sides : ∀ first second, (answer .subclasses first).nodes.flatten.Disjoint
    (answer .superclasses second).nodes.flatten

/-- A node lies strictly below another one. -/
def RawTaxonomy.StrictlyBelow (taxonomy : RawTaxonomy) (lower upper : List EntityId) : Prop :=
  ∃ i j, taxonomy.nodes[i]? = some lower ∧ taxonomy.nodes[j]? = some upper ∧
    TransGen (Linked taxonomy.directEdges) i j

/-- The order of two nodes is that of their places. -/
theorem RawTaxonomy.strictlyBelow_iff (taxonomy : RawTaxonomy) {i j : Nat} (inside : i < taxonomy.nodes.length)
    (also : j < taxonomy.nodes.length) :
    taxonomy.StrictlyBelow (taxonomy.nodes.getD i []) (taxonomy.nodes.getD j []) ↔
      TransGen (Linked taxonomy.directEdges) i j := by
  have place : ∀ {i k : Nat}, i < taxonomy.nodes.length →
    taxonomy.nodes[k]? = some (taxonomy.nodes.getD i []) → k = i := by
    intro i k bound entry
    have member := taxonomy.head_mem bound
    exact (taxonomy.place (mem_getD.mpr ⟨_, entry, member⟩)).symm.trans (taxonomy.place member)
  have entry : ∀ {i : Nat}, i < taxonomy.nodes.length → taxonomy.nodes[i]? = some (taxonomy.nodes.getD i []) := by
    intro i bound
    rw [List.getD_eq_getElem?_getD, List.getElem?_eq_getElem bound, Option.getD_some]
  constructor
  · rintro ⟨k, l, lower, upper, path⟩
    rwa [place inside lower, place also upper] at path
  · exact fun path => ⟨i, j, entry inside, entry also, path⟩

/-- The direct results are the extremal nodes of the others, and every other node has one beside it. -/
structure DirectAnswers (taxonomy : RawTaxonomy) (answer : QueryKind → Bool → RawQueryResult) : Prop where
  minimal : ∀ node, node ∈ (answer .superclasses true).nodes ↔ node ∈ (answer .superclasses false).nodes ∧
    ∀ other ∈ (answer .superclasses false).nodes, ¬ taxonomy.StrictlyBelow other node
  maximal : ∀ node, node ∈ (answer .subclasses true).nodes ↔ node ∈ (answer .subclasses false).nodes ∧
    ∀ other ∈ (answer .subclasses false).nodes, ¬ taxonomy.StrictlyBelow node other
  above : ∀ node ∈ (answer .superclasses false).nodes, ∃ direct ∈ (answer .superclasses true).nodes,
    direct = node ∨ taxonomy.StrictlyBelow direct node
  below : ∀ node ∈ (answer .subclasses false).nodes, ∃ direct ∈ (answer .subclasses true).nodes,
    direct = node ∨ taxonomy.StrictlyBelow node direct

/-- All classes of a query are classes of the ontology. -/
def QueryTables.WithoutFreshClasses (query : QueryTables) : Prop :=
  ∀ row ∈ query.entities, row.entity.kind = .owlClass → row.ontologyId.isSome

/-- Strict answers, with the extremal nodes as direct ones for a query without classes of its own. -/
structure LawfulAnswers (taxonomy : RawTaxonomy) (query : QueryTables) (answer : QueryKind → Bool → RawQueryResult) :
    Prop where
  strict : StrictAnswers answer
  direct : query.WithoutFreshClasses → DirectAnswers taxonomy answer

/-- Two classes in one node. -/
def RawTaxonomy.Alike (taxonomy : RawTaxonomy) (left right : EntityId) : Prop :=
  ∃ node ∈ taxonomy.nodes, left ∈ node ∧ right ∈ node

/-- The least class of its node. -/
def RawTaxonomy.Stands (taxonomy : RawTaxonomy) (entity : EntityId) : Prop :=
  ∃ node ∈ taxonomy.nodes, entity ∈ node ∧ ∀ other ∈ node, entity ≤ other

/-- The rules derive each of two expressions from the other. -/
def Tables.Equates (compiled : Tables) (left right : ExpressionId) : Prop :=
  compiled.Subsumed left right ∧ compiled.Subsumed right left

/-- The expression at a position is a class that the ontology does not know. -/
def QueryTables.FreshClass (query : QueryTables) (position : Nat) : Prop :=
  ∃ entity row, query.expressions[position]? = some ⟨.owlClass, [entity], []⟩ ∧
    query.entities[entity]? = some row ∧ row.ontologyId = none

section

variable (compiled : Tables) (taxonomy : RawTaxonomy) (evaluation : QueryEvaluation)

/-- A class is above the query: `owl:Thing`, or a class that the rules derive from the query. -/
def QueryEvaluation.Over (entity : EntityId) : Prop :=
  entity = topEntity compiled.entities .owlClass ∨
    evaluation.overlay.ontology.Subsumed evaluation.root (evaluation.namedExpression compiled .owlClass entity)

/-- A class is below the query: `owl:Nothing`, or the least class of a node that derives the query. -/
def QueryEvaluation.Under (entity : EntityId) : Prop :=
  entity = bottomEntity compiled.entities .owlClass ∨ taxonomy.Stands entity ∧
    evaluation.overlay.ontology.Subsumed (evaluation.namedExpression compiled .owlClass entity) evaluation.root

/-- The rules recognize the query: they equate it with no class of its own but itself, and where it lies
between two classes of one node they refute it or equate it with the least class of a node. -/
structure QueryEvaluation.Recognized : Prop where
  fresh : ∀ position, evaluation.query.FreshClass position →
    evaluation.overlay.queryIds.getD position 0 ≠ evaluation.root →
    ¬ evaluation.overlay.ontology.Equates evaluation.root (evaluation.overlay.queryIds.getD position 0)
  known : ∀ low high, taxonomy.Alike low high → evaluation.Under compiled taxonomy low →
    evaluation.Over compiled high →
    evaluation.overlay.ontology.Contradictory evaluation.root ∨ ∃ entity, taxonomy.Stands entity ∧
      evaluation.overlay.ontology.Equates evaluation.root (evaluation.namedExpression compiled .owlClass entity)

/-- What a selection makes of a recognized query: no candidate of its own is on both sides, and a node is
only for a query that is contradictory or equivalent to the first member of a node. -/
structure QueryEvaluation.Separated : Prop where
  fresh : ∀ candidate ∈ evaluation.freshClasses, candidate.expression ≠ evaluation.root →
    ¬ (evaluation.Above candidate.expression ∧ evaluation.Below candidate.expression)
  nodes : ∀ index < taxonomy.nodes.length,
    (index = taxonomy.top ∨ ∃ entity ∈ taxonomy.nodes.getD index [],
      evaluation.Above (evaluation.namedExpression compiled .owlClass entity)) →
    (index = taxonomy.bottom ∨ evaluation.Below (evaluation.representative compiled taxonomy index)) →
    evaluation.overlay.ontology.Contradictory evaluation.root ∨ ∃ other < taxonomy.nodes.length,
      evaluation.Above (evaluation.representative compiled taxonomy other) ∧
        evaluation.Below (evaluation.representative compiled taxonomy other)

end

section

variable {compiled : CompiledOntology} {query : QueryIR} {evaluation : QueryEvaluation} {taxonomy : RawTaxonomy}
  {realized : RawRealization} {strictSupers : Nat → List Nat}

theorem RawTaxonomy.nodeLists (taxonomy : RawTaxonomy) {indices : List Nat} (distinct : indices.Nodup)
    (bounds : ∀ index ∈ indices, index < taxonomy.nodes.length) :
    NodeLists (indices.map fun index => taxonomy.nodes.getD index []) :=
  .of_canonical taxonomy.valid.canonical distinct bounds

theorem directCandidates_sublist {reader : ContextReader} {supers : Bool} {candidates : List NodeCandidate} :
    (directCandidates taxonomy reader strictSupers supers candidates).Sublist candidates :=
  List.filter_sublist

section

variable (installed : evaluation.Installed compiled query)
    (wellBuilt : taxonomy.WellBuilt compiled.entities .owlClass)

include installed

theorem QueryEvaluation.Installed.fresh_nodeLists :
    NodeLists (evaluation.freshClasses.map NodeCandidate.members) := by
  refine ⟨fun node listed => ?_, List.pairwise_map.mpr installed.fresh_distinct⟩
  obtain ⟨candidate, member, rfl⟩ := List.mem_map.mp listed
  obtain ⟨-, -, result, same, -, bound⟩ := installed.fresh_spec member
  rw [same]
  refine ⟨List.cons_ne_nil _ _, fun x inside => ?_, List.pairwise_singleton _ _⟩
  obtain rfl := List.mem_singleton.mp inside
  exact Nat.le_sub_one_of_lt bound

/-- A class that only the query knows is in no node of the taxonomy. -/
theorem QueryEvaluation.Installed.fresh_apart
    (wellBuilt : taxonomy.WellBuilt compiled.entities .owlClass) {index : Nat}
    {candidate : NodeCandidate} (listed : candidate ∈ evaluation.freshClasses) :
    (taxonomy.nodes.getD index []).Disjoint candidate.members := by
  intro x inside member
  obtain ⟨-, -, result, same, bound, -⟩ := installed.fresh_spec listed
  rw [same, List.mem_singleton] at member
  subst member
  have known := entityIds_lt (wellBuilt.onlyMembers index x inside)
  exact absurd (lt_of_le_of_lt bound known) (lt_irrefl _)

include wellBuilt

/-- The candidates of a sub- or superclass result have disjoint members. -/
theorem QueryEvaluation.Installed.candidate_nodeLists (supers : Bool) :
    NodeLists ((evaluation.nodeCandidates compiled.toTables taxonomy evaluation.overlay.reader
      (evaluation.equivalentIndex compiled.toTables taxonomy evaluation.overlay.reader) supers).map
        NodeCandidate.members) := by
  unfold nodeCandidates
  rw [List.map_append, List.map_map]
  refine NodeLists.append ?_ (installed.fresh_nodeLists.sublist (List.filter_sublist.map _)) ?_
  · exact taxonomy.nodeLists (sortedSet_nodup id _) fun index listed =>
      installed.candidates_lt wellBuilt index (mem_sortedSet.mp listed)
  · intro a left b right
    obtain ⟨index, -, rfl⟩ := List.mem_map.mp left
    obtain ⟨candidate, listed, rfl⟩ := List.mem_map.mp right
    exact installed.fresh_apart wellBuilt (List.mem_filter.mp listed).1

/-- The nodes of an equivalence result. -/
theorem QueryEvaluation.Installed.equivalent_nodeLists :
    NodeLists (evaluation.equivalentNodes taxonomy evaluation.overlay.reader
      (evaluation.equivalentIndex compiled.toTables taxonomy evaluation.overlay.reader)) := by
  unfold equivalentNodes
  split
  · rename_i index found
    refine taxonomy.nodeLists (List.nodup_singleton index) fun other listed => ?_
    obtain rfl := List.mem_singleton.mp listed
    exact (installed.equivalentIndex_some wellBuilt found).1
  · rename_i candidate _ found
    refine installed.fresh_nodeLists.sublist (List.singleton_sublist.mpr ?_)
    exact List.mem_map_of_mem (List.mem_of_find?_eq_some found)
  · exact ⟨fun node absent => absurd absent List.not_mem_nil, .nil⟩

omit installed wellBuilt in
theorem QueryEvaluation.instances_nodup {direct : Bool} :
    (evaluation.instances compiled.toTables taxonomy realized evaluation.overlay.reader strictSupers direct).Nodup ∧
      ∀ index ∈ evaluation.instances compiled.toTables taxonomy realized evaluation.overlay.reader
        strictSupers direct,
        index < realized.instanceNodes.length := by
  have kept : ∀ {indices : List Nat}, indices.Sublist (List.range realized.instanceNodes.length) →
      indices.Nodup ∧ ∀ index ∈ indices, index < realized.instanceNodes.length := fun sublist =>
    ⟨List.nodup_range.sublist sublist, fun index listed => List.mem_range.mp (sublist.subset listed)⟩
  unfold QueryEvaluation.instances
  split
  · exact kept List.filter_sublist
  · dsimp only
    split
    · exact kept (List.filter_sublist.trans List.filter_sublist)
    · exact kept List.filter_sublist

/-- Every operation of an accepted query has an answer. -/
theorem QueryEvaluation.Installed.answer_isSome (kind : QueryKind) (direct : Bool) : ∃ result,
    evaluation.answer compiled.toTables taxonomy realized evaluation.overlay.reader strictSupers kind direct =
      some result := by
  have relatives : ∀ supers, NodeLists ((evaluation.relatives compiled.toTables taxonomy evaluation.overlay.reader
      strictSupers supers direct).map NodeCandidate.members) := by
    intro supers
    unfold QueryEvaluation.relatives
    dsimp only
    split
    · exact (installed.candidate_nodeLists wellBuilt supers).sublist (directCandidates_sublist.map _)
    · exact installed.candidate_nodeLists wellBuilt supers
  unfold QueryEvaluation.answer
  cases kind with
  | satisfiable =>
    have valid : RawQueryResult.Valid .satisfiable
      (some !evaluation.overlay.reader.inconsistent evaluation.root) [] :=
      ⟨by decide, rfl, rfl⟩
    exact ⟨_, dif_pos valid⟩
  | equivalentClasses => exact (installed.equivalent_nodeLists wellBuilt).accepted (by decide)
  | subclasses => exact (relatives false).accepted (by decide)
  | superclasses => exact (relatives true).accepted (by decide)
  | instances =>
    obtain ⟨distinct, bounds⟩ :=
      @QueryEvaluation.instances_nodup compiled evaluation taxonomy realized strictSupers direct
    exact (NodeLists.of_canonical realized.valid.canonical distinct bounds).accepted (by decide)

omit wellBuilt in
/-- The candidates of a sub- or superclass result. -/
theorem QueryEvaluation.Installed.mem_nodeCandidates {supers : Bool} {candidate : NodeCandidate} :
    candidate ∈ evaluation.nodeCandidates compiled.toTables taxonomy evaluation.overlay.reader
        (evaluation.equivalentIndex compiled.toTables taxonomy evaluation.overlay.reader) supers ↔
      (∃ index ∈ evaluation.ontologyCandidates compiled.toTables taxonomy evaluation.overlay.reader
          (evaluation.equivalentIndex compiled.toTables taxonomy evaluation.overlay.reader) supers, candidate =
        ⟨taxonomy.nodes.getD index [], evaluation.representative compiled.toTables taxonomy index, some index⟩) ∨
      candidate ∈ evaluation.freshClasses ∧ candidate.expression ≠ evaluation.root ∧
        if supers then evaluation.Above candidate.expression else evaluation.Below candidate.expression := by
  unfold nodeCandidates
  rw [List.mem_append, List.mem_map, List.mem_filter, Bool.and_eq_true, bne_iff_ne]
  refine or_congr ?_ (and_congr_right fun listed => and_congr_right fun _ => ?_)
  · simp only [mem_sortedSet, eq_comm]
  · cases supers with
    | true => rw [if_pos rfl, if_pos rfl, decide_eq_true_eq, installed.mem_root_subsumers]
    | false =>
      rw [if_neg Bool.false_ne_true, if_neg Bool.false_ne_true, decide_eq_true_eq,
        root_mem_subsumers (installed.fresh_spec listed).2.1]

omit wellBuilt in
/-- Two fresh candidates with a common member are the same. -/
theorem QueryEvaluation.Installed.fresh_inj {left right : NodeCandidate} (first : left ∈ evaluation.freshClasses)
    (second : right ∈ evaluation.freshClasses) {x : EntityId} (inside : x ∈ left.members) (also : x ∈ right.members) :
    left = right := by
  have : Std.Symm fun a b : NodeCandidate => a.members.Disjoint b.members := ⟨fun _ _ apart => apart.symm⟩
  by_contra different
  exact installed.fresh_distinct.forall first second different inside also

omit installed wellBuilt in
/-- The least class of a node is its first member. -/
theorem RawTaxonomy.stands_iff {entity : EntityId} : taxonomy.Stands entity ↔
    ∃ index < taxonomy.nodes.length, entity = (taxonomy.nodes.getD index []).headD 0 := by
  have ascending : ∀ node ∈ taxonomy.nodes, node ≠ [] ∧ node.Pairwise (· < ·) := by
    have canonical := taxonomy.valid.canonical
    unfold validateNodes at canonical
    simp only [Bool.and_eq_true, List.all_eq_true, decide_eq_true_eq, Bool.not_eq_true', List.isEmpty_eq_false_iff]
      at canonical
    exact fun node listed => ⟨(canonical.1.1 node listed).1.1,
      List.isChain_iff_pairwise.mp (canonical.1.1 node listed).2⟩
  have least : ∀ node ∈ taxonomy.nodes, node.headD 0 ∈ node ∧ ∀ other ∈ node, node.headD 0 ≤ other := by
    intro node listed
    obtain ⟨nonempty, sorted⟩ := ascending node listed
    obtain ⟨first, rest, rfl⟩ := List.exists_cons_of_ne_nil nonempty
    refine ⟨.head _, fun other member => ?_⟩
    rcases List.mem_cons.mp member with rfl | later
    · exact le_rfl
    · exact (List.rel_of_pairwise_cons sorted later).le
  constructor
  · rintro ⟨node, listed, member, smallest⟩
    obtain ⟨index, inside, rfl⟩ := List.getElem_of_mem listed
    refine ⟨index, inside, ?_⟩
    rw [List.getD_eq_getElem?_getD, List.getElem?_eq_getElem inside, Option.getD_some]
    exact Nat.le_antisymm (smallest _ (least _ listed).1) ((least _ listed).2 entity member)
  · rintro ⟨index, inside, rfl⟩
    rw [List.getD_eq_getElem?_getD, List.getElem?_eq_getElem inside, Option.getD_some]
    exact ⟨_, List.getElem_mem inside, least _ (List.getElem_mem inside)⟩

omit installed wellBuilt in
theorem QueryTables.mem_freshPositions {query : QueryTables} {entity : Nat} :
    entity ∈ query.freshPositions ↔ ∃ row, query.entities[entity]? = some row ∧ row.ontologyId = none := by
  unfold freshPositions
  rw [List.mem_map]
  constructor
  · rintro ⟨⟨row, position⟩, member, rfl⟩
    obtain ⟨entry, fresh⟩ := List.mem_filter.mp member
    exact ⟨row, List.mem_zipIdx_iff_getElem?.mp entry, Option.isNone_iff_eq_none.mp fresh⟩
  · rintro ⟨row, entry, fresh⟩
    exact ⟨(row, entity), List.mem_filter.mpr ⟨List.mem_zipIdx_iff_getElem?.mpr entry,
      Option.isNone_iff_eq_none.mpr fresh⟩, rfl⟩

omit installed wellBuilt in
/-- A fresh entity has a result id. -/
theorem QueryTables.freshResultIds_lookup {query : QueryTables} {first : Nat} {rows : List (Nat × EntityId)}
    (found : query.freshResultIds first = some rows) {entity : Nat} (fresh : entity ∈ query.freshPositions) :
    ∃ result, rows.lookup entity = some result := by
  unfold freshResultIds at found
  obtain ⟨-, same⟩ := Option.ite_none_right_eq_some.mp found
  obtain rfl := Option.some.inj same
  rw [← Option.ne_none_iff_exists']
  intro absent
  rw [List.lookup_eq_none_iff] at absent
  obtain ⟨index, entry⟩ := List.mem_iff_getElem?.mp fresh
  have listed : (entity, first + index) ∈ query.freshPositions.zipIdx first :=
    List.mk_mem_zipIdx_iff_le_and_getElem?_sub.mpr ⟨Nat.le_add_right _ _, by rwa [Nat.add_sub_cancel_left]⟩
  exact absurd (beq_self_eq_true entity) (Bool.eq_false_iff.mp ((Bool.not_eq_true' _).mp (absent _ listed)))

omit wellBuilt in
/-- A fresh class of a query is among the candidates of its own. -/
theorem QueryEvaluation.Installed.fresh_of_position {position : Nat} (fresh : evaluation.query.FreshClass position) :
    ∃ result, ⟨[result], evaluation.overlay.queryIds.getD position 0, none⟩ ∈ evaluation.freshClasses := by
  obtain ⟨entity, row, entry, known, absent⟩ := fresh
  rw [installed.query_eq] at known
  obtain ⟨result, listed⟩ := QueryTables.freshResultIds_lookup installed.fresh
    (QueryTables.mem_freshPositions.mpr ⟨row, known, absent⟩)
  exact ⟨result, mem_freshClasses.mpr ⟨position, _, result, entry, rfl, listed, rfl⟩⟩

omit wellBuilt in
theorem QueryEvaluation.Installed.position_of_fresh {candidate : NodeCandidate}
    (listed : candidate ∈ evaluation.freshClasses) : ∃ position, evaluation.query.FreshClass position ∧
      candidate.expression = evaluation.overlay.queryIds.getD position 0 := by
  obtain ⟨position, record, result, entry, tag, found, rfl⟩ := mem_freshClasses.mp listed
  have place := List.mem_of_getElem? (QueryTables.freshResultIds_spec installed.fresh found).2.2
  obtain ⟨row, known, absent⟩ := QueryTables.mem_freshPositions.mp place
  have entry' := entry
  rw [installed.query_eq] at entry'
  rw [validateExpression_class (validateExpressions_entry query.valid.expressions entry') tag] at entry
  refine ⟨position, ⟨record.arguments.headD 0, row, entry, ?_, absent⟩, rfl⟩
  rw [installed.query_eq]
  exact known

/-- The least member of a node is the representative that a selection reads. -/
theorem QueryEvaluation.Installed.recognized_iff :
    evaluation.Recognized compiled.toTables taxonomy ↔ evaluation.Separated compiled.toTables taxonomy := by
  have member : ∀ {index entity : Nat}, entity ∈ taxonomy.nodes.getD index [] →
      index < taxonomy.nodes.length ∧ taxonomy.nodes.getD index [] ∈ taxonomy.nodes := by
    intro index entity inside
    obtain ⟨node, entry, -⟩ := mem_getD.mp inside
    obtain ⟨bound, same⟩ := List.getElem?_eq_some_iff.mp entry
    refine ⟨bound, ?_⟩
    rw [List.getD_eq_getElem?_getD, entry, Option.getD_some]
    exact List.mem_of_getElem? entry
  have equated : (∃ entity, taxonomy.Stands entity ∧ evaluation.overlay.ontology.Equates evaluation.root
        (evaluation.namedExpression compiled.toTables .owlClass entity)) ↔ ∃ other < taxonomy.nodes.length,
      evaluation.Above (evaluation.representative compiled.toTables taxonomy other) ∧
        evaluation.Below (evaluation.representative compiled.toTables taxonomy other) := by
    constructor
    · rintro ⟨entity, stands, above, below⟩
      obtain ⟨other, inside, rfl⟩ := RawTaxonomy.stands_iff.mp stands
      exact ⟨other, inside, above, below⟩
    · rintro ⟨other, inside, above, below⟩
      exact ⟨_, RawTaxonomy.stands_iff.mpr ⟨other, inside, rfl⟩, above, below⟩
  constructor
  · rintro ⟨fresh, known⟩
    refine ⟨fun candidate listed different both => ?_, fun index inside upper lower => ?_⟩
    · obtain ⟨position, unknown, same⟩ := installed.position_of_fresh listed
      rw [same] at different both
      exact fresh position unknown different both
    · rw [← equated]
      have head := taxonomy.head_mem inside
      have node := (member head).2
      have high : ∃ entity ∈ taxonomy.nodes.getD index [], evaluation.Over compiled.toTables entity := by
        rcases upper with rfl | ⟨entity, listed, above⟩
        · exact ⟨_, wellBuilt.top, Or.inl rfl⟩
        · exact ⟨entity, listed, Or.inr above⟩
      have low : ∃ entity ∈ taxonomy.nodes.getD index [], evaluation.Under compiled.toTables taxonomy entity := by
        rcases lower with rfl | below
        · exact ⟨_, wellBuilt.bottom, Or.inl rfl⟩
        · exact ⟨_, head, Or.inr ⟨RawTaxonomy.stands_iff.mpr ⟨index, inside, rfl⟩, below⟩⟩
      obtain ⟨above, listed, atOver⟩ := high
      obtain ⟨below, listed', atUnder⟩ := low
      exact known below above ⟨_, node, listed', listed⟩ atUnder atOver
  · rintro ⟨fresh, nodes⟩
    refine ⟨fun position unknown different both => ?_, ?_⟩
    · obtain ⟨result, listed⟩ := installed.fresh_of_position unknown
      exact fresh _ listed different both
    · rintro low high ⟨node, listed, lowest, highest⟩ atUnder atOver
      obtain ⟨index, inside, rfl⟩ := List.getElem_of_mem listed
      have entry : taxonomy.nodes.getD index [] = taxonomy.nodes[index] := by
        rw [List.getD_eq_getElem?_getD, List.getElem?_eq_getElem inside, Option.getD_some]
      rw [← entry] at lowest highest
      rw [equated]
      refine nodes index inside ?_ ?_
      · rcases atOver with rfl | above
        · exact Or.inl ((taxonomy.place highest).symm.trans (taxonomy.place wellBuilt.top))
        · exact Or.inr ⟨high, highest, above⟩
      · rcases atUnder with rfl | ⟨stands, below⟩
        · exact Or.inl ((taxonomy.place lowest).symm.trans (taxonomy.place wellBuilt.bottom))
        · obtain ⟨other, bound, same⟩ := RawTaxonomy.stands_iff.mp stands
          have place := taxonomy.place (taxonomy.head_mem bound)
          rw [← same, taxonomy.place lowest] at place
          subst place
          rw [same] at below
          exact Or.inr below

section

variable (separated : evaluation.Separated compiled.toTables taxonomy)

include separated

/-- A separated query has no class on both sides. -/
theorem QueryEvaluation.Installed.sides_disjoint {low high : NodeCandidate}
    (below : low ∈ evaluation.nodeCandidates compiled.toTables taxonomy evaluation.overlay.reader
      (evaluation.equivalentIndex compiled.toTables taxonomy evaluation.overlay.reader) false)
    (above : high ∈ evaluation.nodeCandidates compiled.toTables taxonomy evaluation.overlay.reader
      (evaluation.equivalentIndex compiled.toTables taxonomy evaluation.overlay.reader) true) :
    low.members.Disjoint high.members := by
  intro x inside also
  rcases installed.mem_nodeCandidates.mp below with ⟨i, lower, rfl⟩ | ⟨fresh, apart, lower⟩
  · rcases installed.mem_nodeCandidates.mp above with ⟨j, upper, rfl⟩ | ⟨fresh, -, -⟩
    · obtain rfl := (taxonomy.place inside).symm.trans (taxonomy.place also)
      have bound := installed.candidates_lt wellBuilt i lower
      rw [installed.mem_ontologyCandidates wellBuilt] at lower upper
      cases found : evaluation.equivalentIndex compiled.toTables taxonomy evaluation.overlay.reader with
      | some equivalent =>
        rw [found] at lower upper
        exact taxonomy.acyclic _ ((show TransGen _ i equivalent from lower).trans upper)
      | none =>
        rw [found] at lower upper
        obtain ⟨consistent, unequal⟩ := (installed.equivalentIndex_none wellBuilt).mp found
        rcases separated.nodes i bound upper (lower.imp_right And.right) with contradictory | ⟨other, inside, same⟩
        · exact consistent contradictory
        · exact unequal other inside same
    · exact installed.fresh_apart wellBuilt fresh inside also
  · rcases installed.mem_nodeCandidates.mp above with ⟨j, -, rfl⟩ | ⟨fresh', -, upper⟩
    · exact installed.fresh_apart wellBuilt fresh also inside
    · obtain rfl := installed.fresh_inj fresh fresh' inside also
      exact separated.fresh low fresh apart ⟨upper, lower⟩

/-- A class of the equivalence result of a separated query is on neither side. -/
theorem QueryEvaluation.Installed.equivalent_disjoint {node : List EntityId} {supers : Bool}
    {candidate : NodeCandidate}
    (equivalent : node ∈ evaluation.equivalentNodes taxonomy evaluation.overlay.reader
      (evaluation.equivalentIndex compiled.toTables taxonomy evaluation.overlay.reader))
    (listed : candidate ∈ evaluation.nodeCandidates compiled.toTables taxonomy evaluation.overlay.reader
      (evaluation.equivalentIndex compiled.toTables taxonomy evaluation.overlay.reader) supers) :
    node.Disjoint candidate.members := by
  intro x inside also
  unfold equivalentNodes at equivalent
  have candidates := installed.mem_nodeCandidates.mp listed
  split at equivalent
  · rename_i index found
    obtain rfl := List.mem_singleton.mp equivalent
    rcases candidates with ⟨i, relative, rfl⟩ | ⟨fresh, -, -⟩
    · obtain rfl := (taxonomy.place inside).symm.trans (taxonomy.place also)
      rw [installed.mem_ontologyCandidates wellBuilt, found] at relative
      cases supers with
      | true => exact taxonomy.acyclic _ relative
      | false => exact taxonomy.acyclic _ relative
    · exact installed.fresh_apart wellBuilt fresh inside also
  · rename_i candidate' _ found
    obtain rfl := List.mem_singleton.mp equivalent
    have fresh := List.mem_of_find?_eq_some found
    have same := List.find?_some found
    rcases candidates with ⟨i, -, rfl⟩ | ⟨fresh', apart, -⟩
    · exact installed.fresh_apart wellBuilt fresh also inside
    · obtain rfl := installed.fresh_inj fresh fresh' inside also
      exact separated.fresh _ fresh apart ((installed.mutual_iff (installed.fresh_spec fresh).2.1).mp same)
  · exact absurd equivalent List.not_mem_nil

end

/-- The test of `_candidate_subsumes` on two nodes is the order of the taxonomy. -/
theorem QueryEvaluation.Installed.candidateSubsumes_iff
    (closure : ∀ x < taxonomy.nodes.length, ∀ y, y ∈ strictSupers x ↔ TransGen (Linked taxonomy.directEdges) x y)
    {i j : Nat} (inside : i < taxonomy.nodes.length) (also : j < taxonomy.nodes.length) :
    candidateSubsumes taxonomy evaluation.overlay.reader strictSupers
        ⟨taxonomy.nodes.getD i [], evaluation.representative compiled.toTables taxonomy i, some i⟩
        ⟨taxonomy.nodes.getD j [], evaluation.representative compiled.toTables taxonomy j, some j⟩ ↔
      TransGen (Linked taxonomy.directEdges) i j := by
  unfold candidateSubsumes
  by_cases same : evaluation.representative compiled.toTables taxonomy i =
    evaluation.representative compiled.toTables taxonomy j
  · have heads := installed.class_injective (wellBuilt.head inside) (wellBuilt.head also) same
    have place := taxonomy.place (taxonomy.head_mem inside)
    rw [heads, taxonomy.place (taxonomy.head_mem also)] at place
    subst place
    rw [if_pos rfl]
    exact ⟨fun absurdity => absurd absurdity Bool.false_ne_true, fun cycle => absurd cycle (taxonomy.acyclic _)⟩
  · rw [if_neg same]
    dsimp only
    rw [decide_eq_true_eq, closure i inside]

omit installed wellBuilt in
theorem mem_directCandidates {reader : ContextReader} {supers : Bool} {candidates : List NodeCandidate}
    {candidate : NodeCandidate} : candidate ∈ directCandidates taxonomy reader strictSupers supers candidates ↔
      candidate ∈ candidates ∧ ∀ other ∈ candidates, other ≠ candidate →
        ¬ if supers then candidateSubsumes taxonomy reader strictSupers other candidate
          else candidateSubsumes taxonomy reader strictSupers candidate other := by
  unfold directCandidates
  rw [List.mem_filter, Bool.not_eq_true', List.any_eq_false]
  refine and_congr_right fun _ => forall_congr' fun other => forall_congr' fun _ => ?_
  rw [Bool.and_eq_true, bne_iff_ne, not_and]

/-- Without classes of its own a query has nodes of the taxonomy on its sides, and the extremal ones are direct. -/
theorem QueryEvaluation.Installed.mem_relatives (none_ : evaluation.freshClasses = [])
    (closure : ∀ x < taxonomy.nodes.length, ∀ y, y ∈ strictSupers x ↔ TransGen (Linked taxonomy.directEdges) x y)
    {supers direct : Bool} {node : List EntityId} :
    (∃ candidate ∈ evaluation.relatives compiled.toTables taxonomy evaluation.overlay.reader strictSupers
      supers direct,
        candidate.members = node) ↔
      ∃ index ∈ evaluation.ontologyCandidates compiled.toTables taxonomy evaluation.overlay.reader
          (evaluation.equivalentIndex compiled.toTables taxonomy evaluation.overlay.reader) supers,
        taxonomy.nodes.getD index [] = node ∧ (direct → ∀ other ∈ evaluation.ontologyCandidates compiled.toTables
            taxonomy evaluation.overlay.reader
            (evaluation.equivalentIndex compiled.toTables taxonomy evaluation.overlay.reader) supers,
          ¬ if supers then TransGen (Linked taxonomy.directEdges) other index
            else TransGen (Linked taxonomy.directEdges) index other) := by
  have candidates : ∀ {candidate}, candidate ∈ evaluation.nodeCandidates compiled.toTables taxonomy
      evaluation.overlay.reader
        (evaluation.equivalentIndex compiled.toTables taxonomy evaluation.overlay.reader) supers ↔
      ∃ index ∈ evaluation.ontologyCandidates compiled.toTables taxonomy evaluation.overlay.reader
          (evaluation.equivalentIndex compiled.toTables taxonomy evaluation.overlay.reader) supers, candidate =
        ⟨taxonomy.nodes.getD index [], evaluation.representative compiled.toTables taxonomy index, some index⟩ := by
    intro candidate
    rw [installed.mem_nodeCandidates, none_, or_iff_left fun fresh => List.not_mem_nil fresh.1]
  unfold QueryEvaluation.relatives
  dsimp only
  cases direct with
  | false =>
    rw [if_neg Bool.false_ne_true]
    constructor
    · rintro ⟨candidate, listed, rfl⟩
      obtain ⟨index, relative, rfl⟩ := candidates.mp listed
      exact ⟨index, relative, rfl, fun absurdity => absurd absurdity Bool.false_ne_true⟩
    · rintro ⟨index, relative, rfl, -⟩
      exact ⟨_, candidates.mpr ⟨index, relative, rfl⟩, rfl⟩
  | true =>
    rw [if_pos rfl]
    simp only [mem_directCandidates, forall_const]
    constructor
    · rintro ⟨candidate, ⟨listed, extremal⟩, rfl⟩
      obtain ⟨index, relative, rfl⟩ := candidates.mp listed
      refine ⟨index, relative, rfl, fun other relative' path => ?_⟩
      have inside := installed.candidates_lt wellBuilt index relative
      have inside' := installed.candidates_lt wellBuilt other relative'
      refine extremal _ (candidates.mpr ⟨other, relative', rfl⟩) (fun same => ?_) ?_
      · obtain rfl := Option.some.inj (NodeCandidate.mk.inj same).2.2
        cases supers <;> exact taxonomy.acyclic _ path
      · cases supers with
        | true => exact (installed.candidateSubsumes_iff wellBuilt closure inside' inside).mpr path
        | false => exact (installed.candidateSubsumes_iff wellBuilt closure inside inside').mpr path
    · rintro ⟨index, relative, rfl, extremal⟩
      refine ⟨_, ⟨candidates.mpr ⟨index, relative, rfl⟩, fun candidate listed _ subsumes => ?_⟩, rfl⟩
      obtain ⟨other, relative', rfl⟩ := candidates.mp listed
      have inside := installed.candidates_lt wellBuilt index relative
      have inside' := installed.candidates_lt wellBuilt other relative'
      refine extremal other relative' ?_
      cases supers with
      | true => exact (installed.candidateSubsumes_iff wellBuilt closure inside' inside).mp subsumes
      | false => exact (installed.candidateSubsumes_iff wellBuilt closure inside inside').mp subsumes

omit installed wellBuilt in
theorem QueryEvaluation.relatives_subset {reader : ContextReader} {supers direct : Bool} {candidate : NodeCandidate}
    (listed : candidate ∈ evaluation.relatives compiled.toTables taxonomy reader strictSupers supers direct) :
    candidate ∈ evaluation.nodeCandidates compiled.toTables taxonomy reader
      (evaluation.equivalentIndex compiled.toTables taxonomy reader) supers := by
  unfold QueryEvaluation.relatives at listed
  dsimp only at listed
  split at listed
  · exact directCandidates_sublist.subset listed
  · exact listed

variable {answer : QueryKind → Bool → RawQueryResult}
  (answered : ∀ kind ∈ comparedKinds, ∀ direct, evaluation.answer compiled.toTables taxonomy realized
    evaluation.overlay.reader strictSupers kind direct = some (answer kind direct))

include answered

omit installed wellBuilt in
theorem QueryEvaluation.mem_superclasses {direct : Bool} {node : List EntityId} :
    node ∈ (answer .superclasses direct).nodes ↔ ∃ candidate ∈ evaluation.relatives compiled.toTables taxonomy
      evaluation.overlay.reader strictSupers true direct, candidate.members = node :=
  (queryNodes_nodes (answered .superclasses (by decide) direct)).trans List.mem_map

omit installed wellBuilt in
theorem QueryEvaluation.mem_subclasses {direct : Bool} {node : List EntityId} :
    node ∈ (answer .subclasses direct).nodes ↔ ∃ candidate ∈ evaluation.relatives compiled.toTables taxonomy
      evaluation.overlay.reader strictSupers false direct, candidate.members = node :=
  (queryNodes_nodes (answered .subclasses (by decide) direct)).trans List.mem_map

/-- The results of a query are strict exactly when it is separated. -/
theorem QueryEvaluation.Installed.strict_iff :
    StrictAnswers answer ↔ evaluation.Separated compiled.toTables taxonomy := by
  have low := fun direct node => @QueryEvaluation.mem_subclasses _ _ _ _ _ _ answered direct node
  have high := fun direct node => @QueryEvaluation.mem_superclasses _ _ _ _ _ _ answered direct node
  constructor
  · intro strict
    -- a candidate of both sides has a member that both results return
    have apart : ∀ {below above : NodeCandidate} {x : EntityId}, x ∈ below.members → x ∈ above.members →
        below ∈ evaluation.relatives compiled.toTables taxonomy evaluation.overlay.reader strictSupers false false →
        above ∉ evaluation.relatives compiled.toTables taxonomy evaluation.overlay.reader strictSupers
          true false := by
      intro below above x inside also lower upper
      exact strict.sides false false (List.mem_flatten.mpr ⟨_, (low false _).mpr ⟨below, lower, rfl⟩, inside⟩)
        (List.mem_flatten.mpr ⟨_, (high false _).mpr ⟨above, upper, rfl⟩, also⟩)
    refine ⟨fun candidate fresh different both => ?_, fun index inside upper lower => ?_⟩
    · obtain ⟨-, -, result, same, -⟩ := installed.fresh_spec fresh
      have member : result ∈ candidate.members := same ▸ List.mem_singleton.mpr rfl
      exact apart member member (installed.mem_nodeCandidates.mpr (Or.inr ⟨fresh, different, both.2⟩))
        (installed.mem_nodeCandidates.mpr (Or.inr ⟨fresh, different, both.1⟩))
    · by_contra unequal
      rw [not_or] at unequal
      have none_ : evaluation.equivalentIndex compiled.toTables taxonomy evaluation.overlay.reader = none :=
        (installed.equivalentIndex_none wellBuilt).mpr
          ⟨unequal.1, fun other bound same => unequal.2 ⟨other, bound, same⟩⟩
      have listed : ∀ supers,
        index ∈ evaluation.ontologyCandidates compiled.toTables taxonomy evaluation.overlay.reader
          (evaluation.equivalentIndex compiled.toTables taxonomy evaluation.overlay.reader) supers := by
        intro supers
        rw [installed.mem_ontologyCandidates wellBuilt, none_]
        cases supers with
        | true => exact upper
        | false => exact lower.imp_right fun below => ⟨inside, below⟩
      have member := taxonomy.head_mem inside
      have candidate := fun supers => installed.mem_nodeCandidates.mpr (Or.inl ⟨index, listed supers, rfl⟩)
      exact @apart ⟨_, _, _⟩ ⟨_, _, _⟩ _ member member (candidate false) (candidate true)
  · intro separated
    refine ⟨fun first second x inside also => ?_, fun first second x inside also => ?_,
      fun first second x inside also => ?_⟩
    · obtain ⟨node, listed, inside⟩ := List.mem_flatten.mp inside
      obtain ⟨other, listed', also⟩ := List.mem_flatten.mp also
      obtain ⟨candidate, relative, rfl⟩ := (low second _).mp listed'
      exact installed.equivalent_disjoint wellBuilt separated
        ((queryNodes_nodes (answered .equivalentClasses (by decide) first)).mp listed)
          (relatives_subset relative) inside also
    · obtain ⟨node, listed, inside⟩ := List.mem_flatten.mp inside
      obtain ⟨other, listed', also⟩ := List.mem_flatten.mp also
      obtain ⟨candidate, relative, rfl⟩ := (high second _).mp listed'
      exact installed.equivalent_disjoint wellBuilt separated
        ((queryNodes_nodes (answered .equivalentClasses (by decide) first)).mp listed)
          (relatives_subset relative) inside also
    · obtain ⟨node, listed, inside⟩ := List.mem_flatten.mp inside
      obtain ⟨other, listed', also⟩ := List.mem_flatten.mp also
      obtain ⟨below, relative, rfl⟩ := (low first _).mp listed
      obtain ⟨above, relative', rfl⟩ := (high second _).mp listed'
      exact installed.sides_disjoint wellBuilt separated (relatives_subset relative)
        (relatives_subset relative') inside also

/-- Without classes of its own a query has the extremal nodes of its results as direct ones. -/
theorem QueryEvaluation.Installed.direct (none_ : evaluation.freshClasses = [])
    (closure : ∀ x < taxonomy.nodes.length, ∀ y, y ∈ strictSupers x ↔ TransGen (Linked taxonomy.directEdges) x y) :
    DirectAnswers taxonomy answer := by
  have high := fun direct node => (@QueryEvaluation.mem_superclasses _ _ _ _ _ _ answered direct node).trans
    (@QueryEvaluation.Installed.mem_relatives _ _ _ _ _ installed wellBuilt none_ closure true direct node)
  have low := fun direct node => (@QueryEvaluation.mem_subclasses _ _ _ _ _ _ answered direct node).trans
    (@QueryEvaluation.Installed.mem_relatives _ _ _ _ _ installed wellBuilt none_ closure false direct node)
  simp only [if_true, Bool.false_eq_true, if_false] at high low
  have inside := fun supers => @QueryEvaluation.Installed.candidates_lt _ _ _ _ installed wellBuilt supers
  refine ⟨fun node => ?_, fun node => ?_, fun node listed => ?_, fun node listed => ?_⟩
  · rw [high, high]
    constructor
    · rintro ⟨index, relative, rfl, minimal⟩
      refine ⟨⟨index, relative, rfl, fun absurdity => absurd absurdity Bool.false_ne_true⟩,
        fun other listed below => ?_⟩
      obtain ⟨lower, relative', rfl, -⟩ := (high false other).mp listed
      exact minimal rfl lower relative'
        ((taxonomy.strictlyBelow_iff (inside true lower relative') (inside true index relative)).mp below)
    · rintro ⟨⟨index, relative, rfl, -⟩, minimal⟩
      refine ⟨index, relative, rfl, fun _ lower relative' path => ?_⟩
      exact minimal _
        ((high false _).mpr ⟨lower, relative', rfl, fun absurdity => absurd absurdity Bool.false_ne_true⟩)
        ((taxonomy.strictlyBelow_iff (inside true lower relative') (inside true index relative)).mpr path)
  · rw [low, low]
    constructor
    · rintro ⟨index, relative, rfl, maximal⟩
      refine ⟨⟨index, relative, rfl, fun absurdity => absurd absurdity Bool.false_ne_true⟩,
        fun other listed above => ?_⟩
      obtain ⟨upper, relative', rfl, -⟩ := (low false other).mp listed
      exact maximal rfl upper relative'
        ((taxonomy.strictlyBelow_iff (inside false index relative) (inside false upper relative')).mp above)
    · rintro ⟨⟨index, relative, rfl, -⟩, maximal⟩
      refine ⟨index, relative, rfl, fun _ upper relative' path => ?_⟩
      exact maximal _
        ((low false _).mpr ⟨upper, relative', rfl, fun absurdity => absurd absurdity Bool.false_ne_true⟩)
        ((taxonomy.strictlyBelow_iff (inside false index relative) (inside false upper relative')).mpr path)
  · obtain ⟨index, relative, rfl, -⟩ := (high false node).mp listed
    obtain ⟨least, held, below, minimal⟩ := taxonomy.exists_minimal relative
    refine ⟨_, (high true _).mpr ⟨least, held, rfl, fun _ => minimal⟩, ?_⟩
    rcases reflTransGen_iff_eq_or_transGen.mp below with rfl | path
    · exact Or.inl rfl
    · exact Or.inr ((taxonomy.strictlyBelow_iff (inside true least held) (inside true index relative)).mpr path)
  · obtain ⟨index, relative, rfl, -⟩ := (low false node).mp listed
    obtain ⟨greatest, held, above, maximal⟩ := taxonomy.exists_maximal relative
    refine ⟨_, (low true _).mpr ⟨greatest, held, rfl, fun _ => maximal⟩, ?_⟩
    rcases reflTransGen_iff_eq_or_transGen.mp above with rfl | path
    · exact Or.inl rfl
    · exact Or.inr ((taxonomy.strictlyBelow_iff (inside false index relative) (inside false greatest held)).mpr path)

end

/-- A query whose classes are classes of the ontology has no candidate of its own. -/
theorem QueryEvaluation.Installed.freshClasses_nil (installed : evaluation.Installed compiled query)
    (without : query.toQueryTables.WithoutFreshClasses) : evaluation.freshClasses = [] := by
  rw [List.eq_nil_iff_forall_not_mem]
  intro candidate listed
  obtain ⟨position, ⟨entity, row, entry, known, absent⟩, -⟩ := installed.position_of_fresh listed
  rw [installed.query_eq] at entry known
  have checked := validateExpressions_entry query.valid.expressions entry
  simp only [validateExpression, validateEntityIndex, QueryTables.entityRecords, List.getElem?_map, known,
    Option.map_some, Bool.and_eq_true] at checked
  have present := without row (List.mem_of_getElem? known) (by simpa using checked.1)
  rw [absent] at present
  exact Bool.false_ne_true present

end

/-- An engine after a list of requests. -/
def ClassQueryEngine.run (engine : ClassQueryEngine) (requests : List (Option QueryIR × QueryKind × Bool)) :
    ClassQueryEngine :=
  requests.foldl (fun engine request => (engine.query request.1 request.2.1 request.2.2).1) engine

section

variable {compiled : CompiledOntology} {engine : ClassQueryEngine} {strictSupers : Nat → List Nat}

theorem ClassQueryEngine.retain_fixed (engine : ClassQueryEngine) (key : Option QueryTables × QueryKind × Bool)
    (result : Option RawQueryResult) : (engine.retain key result).1.classTaxonomy = engine.classTaxonomy ∧
      (engine.retain key result).1.realized = engine.realized := by
  cases result <;> exact ⟨rfl, rfl⟩

/-- A query keeps the taxonomy and the realization of its engine. -/
theorem ClassQueryEngine.query_fixed (engine : ClassQueryEngine) (payload : Option QueryIR) (kind : QueryKind)
    (direct : Bool) : (engine.query payload kind direct).1.classTaxonomy = engine.classTaxonomy ∧
      (engine.query payload kind direct).1.realized = engine.realized := by
  unfold ClassQueryEngine.query
  dsimp only
  split
  · exact ⟨rfl, rfl⟩
  · split
    · exact ⟨rfl, rfl⟩
    · split
      · exact ⟨rfl, rfl⟩
      · split
        · exact retain_fixed _ _ _
        · split
          · exact retain_fixed _ _ _
          · split
            · exact ⟨rfl, rfl⟩
            · split
              · exact ⟨rfl, rfl⟩
              · exact retain_fixed _ _ _

theorem ClassQueryEngine.Live.run (live : engine.Live compiled strictSupers)
    (requests : List (Option QueryIR × QueryKind × Bool)) : (engine.run requests).Live compiled strictSupers ∧
      (engine.run requests).classTaxonomy = engine.classTaxonomy ∧
      (engine.run requests).realized = engine.realized := by
  induction requests generalizing engine with
  | nil => exact ⟨live, rfl, rfl⟩
  | cons request rest ih =>
    obtain ⟨later, taxonomy, realized⟩ := ih (live.query request.1 request.2.1 request.2.2).1
    obtain ⟨kept, kept'⟩ := engine.query_fixed request.1 request.2.1 request.2.2
    exact ⟨later, taxonomy.trans kept, realized.trans kept'⟩

/-- What an engine answers to a payload, each operation at a time of its own. -/
def ClassQueryEngine.Answers (engine : ClassQueryEngine) (payload : Option QueryIR)
    (answer : QueryKind → Bool → RawQueryResult) : Prop :=
  ∀ kind ∈ comparedKinds, ∀ direct, ∃ requests,
    ((engine.run requests).query payload kind direct).2 = some (answer kind direct)

/-- A consistent engine answers an accepted query as its isolated contexts do, at any time, unless a run
over the overlay raises. -/
theorem ClassQueryEngine.Live.answers (live : engine.Live compiled strictSupers)
    (consistent : ¬ engine.session.JudgedInconsistent) {query : QueryIR}
    (expression : query.kind = .classExpression) {evaluation : QueryEvaluation}
    (evaluated : evaluateQuery compiled.toTables query.toQueryTables = some evaluation)
    (requests : List (Option QueryIR × QueryKind × Bool)) (kind : QueryKind) (direct : Bool) :
    ((engine.run requests).query (some query) kind direct).2 = none ∧ evaluation.overlay.Raises ∨
      ((engine.run requests).query (some query) kind direct).2 = evaluation.answer compiled.toTables
        engine.classTaxonomy engine.realized evaluation.overlay.reader strictSupers kind direct := by
  have asked : (compiled.consistencyAt .realized).inconsistent = false := by
    rw [live.session, SaturationSession.reached_judged (by decide)] at consistent
    exact Bool.eq_false_iff.mpr consistent
  obtain ⟨later, taxonomy, realized⟩ := live.run requests
  have answered := (later.query (some query) kind direct).2.1 asked rfl expression evaluated
  rwa [taxonomy, realized] at answered

/-- The answers to an expression that the converter could not index. -/
theorem ClassQueryEngine.Live.unindexed_answers (live : engine.Live compiled strictSupers)
    (consistent : ¬ engine.session.JudgedInconsistent) (requests : List (Option QueryIR × QueryKind × Bool))
    (kind : QueryKind) (direct : Bool) : ((engine.run requests).query none kind direct).2 =
      unindexedResult kind direct engine.classTaxonomy := by
  have asked : (compiled.consistencyAt .realized).inconsistent = false := by
    rw [live.session, SaturationSession.reached_judged (by decide)] at consistent
    exact Bool.eq_false_iff.mpr consistent
  obtain ⟨later, taxonomy, -⟩ := live.run requests
  rw [(later.query none kind direct).2.2 asked rfl, taxonomy]

/-- An expression that is not indexed is between the bounds of the taxonomy: its results are strict if
these are two nodes, and its direct ones are not among the others. -/
theorem RawTaxonomy.unindexed_strict (taxonomy : RawTaxonomy) {answer : QueryKind → Bool → RawQueryResult}
    (answered : ∀ kind ∈ comparedKinds, ∀ direct,
      unindexedResult kind direct taxonomy = some (answer kind direct)) :
    (StrictAnswers answer ↔ taxonomy.bottom ≠ taxonomy.top) ∧ ¬ DirectAnswers taxonomy answer := by
  have blank : ∀ {kind result}, RawQueryResult.check kind none [] = some result → result.nodes.flatten = [] := by
    intro kind result found
    unfold RawQueryResult.check at found
    split at found
    · obtain rfl := Option.some.inj found
      rfl
    · cases found
  have equivalents : ∀ direct, (answer .equivalentClasses direct).nodes.flatten = [] := fun direct =>
    blank ((by cases direct <;> rfl : unindexedResult .equivalentClasses direct taxonomy = _).symm.trans
      (answered .equivalentClasses (by decide) direct))
  have noSubs : (answer .subclasses false).nodes.flatten = [] := blank (answered .subclasses (by decide) false)
  have noSupers : (answer .superclasses false).nodes.flatten = [] := blank (answered .superclasses (by decide) false)
  have subs : ∀ {node}, node ∈ (answer .subclasses true).nodes ↔ node = taxonomy.nodes.getD taxonomy.bottom [] :=
    fun {node} => (queryNodes_nodes (answered .subclasses (by decide) true)).trans List.mem_singleton
  have supers : ∀ {node}, node ∈ (answer .superclasses true).nodes ↔ node = taxonomy.nodes.getD taxonomy.top [] :=
    fun {node} => (queryNodes_nodes (answered .superclasses (by decide) true)).trans List.mem_singleton
  have bottom := taxonomy.head_mem taxonomy.valid.bottomBound
  refine ⟨⟨fun strict same => ?_, fun apart => ⟨fun first second => ?_, fun first second => ?_, ?_⟩⟩,
    fun lawful => ?_⟩
  · refine strict.sides true true (List.mem_flatten.mpr ⟨_, subs.mpr rfl, bottom⟩)
      (List.mem_flatten.mpr ⟨_, supers.mpr rfl, ?_⟩)
    rwa [← same]
  · rw [equivalents]
    exact List.disjoint_nil_left _
  · rw [equivalents]
    exact List.disjoint_nil_left _
  · intro first second x low high
    cases first with
    | false =>
      rw [noSubs] at low
      exact List.not_mem_nil low
    | true =>
      cases second with
      | false =>
        rw [noSupers] at high
        exact List.not_mem_nil high
      | true =>
        obtain ⟨_, lower, inside⟩ := List.mem_flatten.mp low
        obtain ⟨_, upper, also⟩ := List.mem_flatten.mp high
        rw [subs.mp lower] at inside
        rw [supers.mp upper] at also
        exact apart ((taxonomy.place inside).symm.trans (taxonomy.place also))
  · obtain ⟨listed, -⟩ := (lawful.maximal _).mp (subs.mpr rfl)
    have member := List.mem_flatten.mpr ⟨_, listed, bottom⟩
    rw [noSubs] at member
    exact List.not_mem_nil member

end

def blankTables : Tables where
  entities := [⟨.owlClass, OWL_NOTHING_IRI⟩, ⟨.owlClass, OWL_THING_IRI⟩,
    ⟨.objectProperty, OWL_BOTTOM_OBJECT_PROPERTY_IRI⟩, ⟨.objectProperty, OWL_TOP_OBJECT_PROPERTY_IRI⟩]
  expressions := [⟨.owlClass, [0], []⟩, ⟨.owlClass, [1], []⟩]
  expressionOccurrences := [⟨0, 0⟩, ⟨0, 0⟩]
  propertyOccurrences := [⟨0, 0⟩, ⟨0, 0⟩]
  propertyChains := []
  subclassAxioms := []
  equivalentClassAxioms := []
  disjointGroups := []
  subpropertyAxioms := []
  propertyRanges := []
  featureCounts := List.replicate 79 0
  sourceFingerprint := List.replicate 32 0

/-- The ontology without axioms. -/
def blankOntology : CompiledOntology := ⟨blankTables, by decide +kernel⟩

/-- A fresh class, met with `owl:Thing`. -/
def meetQuery : QueryIR where
  kind := .classExpression
  entities := [⟨⟨.owlClass, "ex:Fresh"⟩, none⟩, ⟨⟨.owlClass, OWL_THING_IRI⟩, some 1⟩]
  expressions := [⟨.owlClass, [0], []⟩, ⟨.owlClass, [1], []⟩, ⟨.objectIntersectionOf, [0, 1], []⟩]
  expressionOccurrences := [⟨1, 1⟩, ⟨1, 1⟩, ⟨1, 1⟩]
  propertyOccurrences := []
  rootExpression := some 2
  subsumptionObligations := []
  valid := by decide +kernel

/-- Those that have a relative who is a person. -/
def kinQuery : QueryIR where
  kind := .classExpression
  entities := [⟨⟨.owlClass, "ex:Person"⟩, some 1⟩, ⟨⟨.objectProperty, "ex:hasKin"⟩, some 4⟩]
  expressions := [⟨.owlClass, [0], []⟩, ⟨.objectSomeValuesFrom, [1, 0], []⟩]
  expressionOccurrences := [⟨1, 1⟩, ⟨1, 1⟩]
  propertyOccurrences := [⟨1, 1⟩]
  rootExpression := some 1
  subsumptionObligations := []
  valid := by decide +kernel

/-- The answers of an engine that gives all. -/
theorem ClassQueryEngine.exists_answers {engine : ClassQueryEngine} {payload : Option QueryIR}
    (given : ∀ kind direct, ((engine.query payload kind direct).2).isSome) :
    ∃ answer : QueryKind → Bool → RawQueryResult,
      (∀ kind direct, (engine.query payload kind direct).2 = some (answer kind direct)) ∧
        engine.Answers payload answer := by
  choose answer answered using fun kind direct => Option.isSome_iff_exists.mp (given kind direct)
  exact ⟨answer, answered, fun kind _ direct => ⟨[], answered kind direct⟩⟩

/-- What an engine has judged of the ontology it was opened on. -/
theorem ClassQueryEngine.Reached.judged_iff {compiled : CompiledOntology} {engine : ClassQueryEngine}
    (reached : engine.Reached compiled) :
    engine.session.JudgedInconsistent ↔ (compiled.consistencyAt .realized).inconsistent := by
  obtain ⟨_, live⟩ := reached.live
  rw [live.session]
  exact SaturationSession.reached_judged (by decide)

end PyElk
