import Mathlib.Data.List.Find
import PyElk.Indexing.EncodedSize
import PyElk.Reasoning.QueryContexts
import PyElk.Reasoning.RealizationExact
import PyElk.Reasoning.Remapping

open Relation Ordered Components Topological

namespace PyElk

/-- What stays the same of an evaluation while contexts are read. -/
structure QueryEvaluation.Installed (compiled : CompiledOntology) (query : QueryIR) (evaluation : QueryEvaluation) :
    Prop where
  query_eq : evaluation.query = query.toQueryTables
  root : ∃ position, query.rootExpression = some position ∧
    evaluation.root = evaluation.overlay.queryIds.getD position 0
  fresh : query.toQueryTables.freshResultIds compiled.entities.length = some evaluation.freshResultIds
  matching : query.toQueryTables.matchesOntology compiled.toTables
  ontology : Remapped compiled.entities compiled.expressions evaluation.overlay.ontology.toTables
    evaluation.overlay.ontologyIds
  queried : Remapped query.entityRecords query.expressions evaluation.overlay.ontology.toTables
    evaluation.overlay.queryIds

/-- A query that is evaluated is installed over its ontology, with an engine that is alive. -/
theorem evaluateQuery_installed {compiled : CompiledOntology} {query : QueryIR} {evaluation : QueryEvaluation}
    (evaluated : evaluateQuery compiled.toTables query.toQueryTables = some evaluation) :
    evaluation.Installed compiled query ∧ evaluation.Live := by
  obtain ⟨overlay, installed, rest⟩ := Option.bind_eq_some_iff.mp evaluated
  obtain ⟨root, rooted, rest⟩ := Option.bind_eq_some_iff.mp rest
  obtain ⟨properties, closed, rest⟩ := Option.bind_eq_some_iff.mp rest
  obtain ⟨freshResultIds, fresh, rfl⟩ := Option.map_eq_some_iff.mp rest
  have closed := toOption_eq_some.mp closed
  obtain ⟨matching, ontology, queried⟩ := installQuery_remapped compiled.valid query.valid installed
  have none_ : ∀ root ∈ demandedRoots [], root < overlay.ontology.expressions.length := by
    rintro root ⟨batch, absent, -⟩
    exact absurd absent List.not_mem_nil
  exact ⟨⟨rfl, ⟨root, rooted, rfl⟩, fresh, matching, ontology, queried⟩,
    ⟨closed, ⟨[], none_, (Tables.saturate_eq closed []).trans rfl⟩,
      fun found => absurd found (by simp [QueryEvaluation.context])⟩⟩

section

variable {compiled : CompiledOntology} {query : QueryIR} {evaluation : QueryEvaluation}

theorem Remapped.lt {entities : List EntityRecord} {expressions : List ExpressionRecord} {overlay : Tables}
    {ids : List ExpressionId} (remapped : Remapped entities expressions overlay ids) {position : ExpressionId}
    (bound : position < expressions.length) : ids.getD position 0 < overlay.expressions.length :=
  (List.getElem?_eq_some_iff.mp (remapped.entry (List.getElem?_eq_getElem bound))).1

theorem QueryEvaluation.Installed.root_lt (installed : evaluation.Installed compiled query) :
    evaluation.root < evaluation.overlay.ontology.expressions.length := by
  obtain ⟨position, rooted, same⟩ := installed.root
  rw [same]
  exact installed.queried.lt (query.valid.root_lt rooted)

theorem QueryEvaluation.Installed.class_lt (installed : evaluation.Installed compiled query) {entity : EntityId}
    (object : compiled.EntityOf entity .owlClass) :
    evaluation.namedExpression compiled.toTables .owlClass entity < evaluation.overlay.ontology.expressions.length :=
  installed.ontology.lt (compiled.valid.namedExpression_built object).lt

/-- Two classes of the ontology have two expressions in the overlay. -/
theorem QueryEvaluation.Installed.class_injective (installed : evaluation.Installed compiled query)
    {left right : EntityId}
    (leftObject : compiled.EntityOf left .owlClass) (rightObject : compiled.EntityOf right .owlClass)
    (same : evaluation.namedExpression compiled.toTables .owlClass left =
      evaluation.namedExpression compiled.toTables .owlClass right) : left = right := by
  have built := compiled.valid.namedExpression_built leftObject
  have built' := compiled.valid.namedExpression_built rightObject
  have equal := installed.ontology.injective compiled.valid.expressions compiled.valid.entities_nodup
    compiled.valid.expressions_nodup built.lt built'.lt same
  exact (List.cons.inj (built.eq (equal ▸ built')).2).1

/-- The positions of the fresh entities of a query. -/
def QueryTables.freshPositions (query : QueryTables) : List Nat :=
  (query.entities.zipIdx.filter fun row => row.1.ontologyId.isNone).map Prod.snd

/-- The result ids of the fresh entities count on from the entities of the ontology. -/
theorem QueryTables.freshResultIds_spec {query : QueryTables} {first : Nat} {rows : List (Nat × EntityId)}
    (found : query.freshResultIds first = some rows) {entity result : Nat}
    (listed : rows.lookup entity = some result) :
    first ≤ result ∧ result < U32_RESERVED ∧ query.freshPositions[result - first]? = some entity := by
  unfold freshResultIds at found
  obtain ⟨fits, same⟩ := Option.ite_none_right_eq_some.mp found
  obtain rfl := Option.some.inj same
  obtain ⟨before, after, split, -⟩ := List.lookup_eq_some_iff.mp listed
  have member : (entity, result) ∈ query.freshPositions.zipIdx first := by
    unfold freshPositions
    rw [split]
    exact List.mem_append_right _ (.head _)
  obtain ⟨low, entry⟩ := List.mk_mem_zipIdx_iff_le_and_getElem?_sub.mp member
  have bound := (List.getElem?_eq_some_iff.mp entry).1
  unfold freshPositions at bound
  exact ⟨low, by omega, entry⟩

/-- The fresh classes are those expressions of the query that have a fresh result ID. -/
theorem QueryEvaluation.mem_freshClasses {candidate : NodeCandidate} : candidate ∈ evaluation.freshClasses ↔
    ∃ position record result, evaluation.query.expressions[position]? = some record ∧ record.tag = .owlClass ∧
      evaluation.freshResultIds.lookup (record.arguments.headD 0) = some result ∧
      candidate = ⟨[result], evaluation.overlay.queryIds.getD position 0, none⟩ := by
  simp only [freshClasses, List.mem_filterMap, Prod.exists, List.mem_zipIdx_iff_getElem?,
    Option.ite_none_right_eq_some,
    Option.map_eq_some_iff]
  constructor
  · rintro ⟨record, position, entry, tag, result, listed, rfl⟩
    exact ⟨position, record, result, entry, tag, listed, rfl⟩
  · rintro ⟨position, record, result, entry, tag, listed, rfl⟩
    exact ⟨record, position, entry, tag, result, listed, rfl⟩

/-- A class that only the query knows is returned under an id of its own. -/
theorem QueryEvaluation.Installed.fresh_spec (installed : evaluation.Installed compiled query)
    {candidate : NodeCandidate}
    (listed : candidate ∈ evaluation.freshClasses) : candidate.taxonomyIndex = none ∧
      candidate.expression < evaluation.overlay.ontology.expressions.length ∧
      ∃ result, candidate.members = [result] ∧ compiled.entities.length ≤ result ∧ result < U32_RESERVED := by
  obtain ⟨position, record, result, entry, -, found, rfl⟩ := mem_freshClasses.mp listed
  obtain ⟨low, high, -⟩ := QueryTables.freshResultIds_spec installed.fresh found
  rw [installed.query_eq] at entry
  exact ⟨rfl, installed.queried.lt (List.getElem?_eq_some_iff.mp entry).1, result, rfl, low, high⟩

theorem validateExpression_class {entities : List EntityRecord} {position : Nat} {record : ExpressionRecord}
    (checked : validateExpression entities position record) (tag : record.tag = .owlClass) :
    record = ⟨.owlClass, [record.arguments.headD 0], []⟩ := by
  obtain ⟨other, arguments, payload⟩ := record
  obtain rfl : other = .owlClass := tag
  match arguments with
  | [] => cases checked
  | [entity] =>
    simp only [validateExpression, Bool.and_eq_true, List.isEmpty_iff] at checked
    rw [checked.2]
    rfl
  | _ :: _ :: _ => cases checked

/-- Two different fresh classes are returned under different ids. -/
theorem QueryEvaluation.Installed.fresh_distinct (installed : evaluation.Installed compiled query) :
    evaluation.freshClasses.Pairwise fun a b => a.members.Disjoint b.members := by
  have positions : (query.expressions.zipIdx).Pairwise fun a b => a.2 ≠ b.2 := by
    have ascending : (query.expressions.zipIdx.map Prod.snd).Nodup := by
      rw [List.zipIdx_map_snd]
      exact List.nodup_range'
    exact List.pairwise_map.mp ascending
  have unique := validateExpressions_nodup query.valid.expressions
  unfold freshClasses
  rw [installed.query_eq, List.pairwise_filterMap]
  refine positions.imp_of_mem fun {a b} left right apart => ?_
  intro candidate found candidate' found'
  obtain ⟨tag, found⟩ := Option.ite_none_right_eq_some.mp found
  obtain ⟨tag', found'⟩ := Option.ite_none_right_eq_some.mp found'
  obtain ⟨result, listed, rfl⟩ := Option.map_eq_some_iff.mp found
  obtain ⟨result', listed', rfl⟩ := Option.map_eq_some_iff.mp found'
  intro x member member'
  obtain rfl := List.mem_singleton.mp member
  obtain rfl := List.mem_singleton.mp member'
  have entity := (QueryTables.freshResultIds_spec installed.fresh listed).2.2
  rw [(QueryTables.freshResultIds_spec installed.fresh listed').2.2, Option.some.injEq] at entity
  have entry := List.mem_zipIdx_iff_getElem?.mp left
  have entry' := List.mem_zipIdx_iff_getElem?.mp right
  have record := validateExpression_class (validateExpressions_entry query.valid.expressions entry) tag
  rw [← entity, ← validateExpression_class (validateExpressions_entry query.valid.expressions entry') tag'] at record
  refine apart ((List.getElem?_inj (List.getElem?_eq_some_iff.mp entry).1 unique).mp ?_)
  rw [entry, entry', record]

end

section

variable (compiled : Tables) (taxonomy : RawTaxonomy) (realized : RawRealization) (evaluation : QueryEvaluation)
  (reader : ContextReader) (strictSupers : Nat → List Nat)

/-- The candidates of a sub- or superclass result, as one reader sees them. -/
def QueryEvaluation.relatives (supers direct : Bool) : List NodeCandidate :=
  let candidates := evaluation.nodeCandidates compiled taxonomy reader
    (evaluation.equivalentIndex compiled taxonomy reader) supers
  if direct then directCandidates taxonomy reader strictSupers supers candidates else candidates

/-- The instance nodes of an instance result, as one reader sees them. -/
def QueryEvaluation.instances (direct : Bool) : List Nat :=
  match evaluation.equivalentIndex compiled taxonomy reader with
  | some index => matchingInstances realized strictSupers index direct
  | none =>
    let selected := evaluation.selectedInstances compiled reader realized
    if direct then evaluation.directInstances compiled taxonomy reader realized selected else selected

/-- A selection over one reader, without the caches. -/
def QueryEvaluation.answer (kind : QueryKind) (direct : Bool) : Option RawQueryResult :=
  match kind with
  | .satisfiable => RawQueryResult.check kind (some !reader.inconsistent evaluation.root) []
  | .equivalentClasses => queryNodes kind
      (evaluation.equivalentNodes taxonomy reader (evaluation.equivalentIndex compiled taxonomy reader))
  | .subclasses => queryNodes kind
      ((evaluation.relatives compiled taxonomy reader strictSupers false direct).map NodeCandidate.members)
  | .superclasses => queryNodes kind
      ((evaluation.relatives compiled taxonomy reader strictSupers true direct).map NodeCandidate.members)
  | .instances => queryNodes kind ((evaluation.instances compiled taxonomy realized reader strictSupers direct).map
      fun index => realized.instanceNodes.getD index [])

end

section

variable {compiled : Tables} {taxonomy : RawTaxonomy} {realized : RawRealization} {evaluation : QueryEvaluation}
  {left right : ContextReader} {strictSupers : Nat → List Nat}

section

variable (root : left.AgreesAt right evaluation.root)

include root

theorem QueryEvaluation.possibleEquivalents_congr :
    evaluation.possibleEquivalents compiled taxonomy left =
      evaluation.possibleEquivalents compiled taxonomy right := by
  unfold possibleEquivalents
  rw [root.1]

theorem QueryEvaluation.mutual_congr {expression : ExpressionId}
    (agrees : expression ∈ left.subsumers evaluation.root → left.AgreesAt right expression) :
    evaluation.mutual left expression = evaluation.mutual right expression := by
  unfold QueryEvaluation.mutual
  by_cases above : expression ∈ left.subsumers evaluation.root
  · rw [root.1, (agrees above).1]
  · rw [← root.1, decide_eq_false above, Bool.false_and, Bool.false_and]

variable (agrees : ∀ expression ∈ evaluation.possibleEquivalents compiled taxonomy left,
    left.AgreesAt right expression)

include agrees

/-- The equivalent node depends on the contexts that are read for it alone. -/
theorem QueryEvaluation.equivalentIndex_congr :
    evaluation.equivalentIndex compiled taxonomy left = evaluation.equivalentIndex compiled taxonomy right := by
  unfold equivalentIndex
  rw [root.2, List.find?_congr fun index listed => mutual_congr root fun above => agrees _ ?_]
  refine List.mem_filter.mpr ⟨List.mem_append_left _ (List.mem_map_of_mem listed), decide_eq_true above⟩

theorem QueryEvaluation.freshEquivalent_congr :
    evaluation.freshEquivalent left = evaluation.freshEquivalent right := by
  unfold freshEquivalent
  refine List.find?_congr fun candidate listed => mutual_congr root fun above => agrees _ ?_
  exact List.mem_filter.mpr ⟨List.mem_append_right _ (List.mem_map_of_mem listed), decide_eq_true above⟩

omit agrees in
/-- The candidates depend on the contexts that are read for them alone. -/
theorem QueryEvaluation.nodeCandidates_congr {equivalent : Option Nat} {supers : Bool}
    (classes : supers = false → (∀ index < taxonomy.nodes.length,
        left.AgreesAt right (evaluation.representative compiled taxonomy index)) ∧
      ∀ candidate ∈ evaluation.freshClasses, left.AgreesAt right candidate.expression) :
    evaluation.nodeCandidates compiled taxonomy left equivalent supers =
      evaluation.nodeCandidates compiled taxonomy right equivalent supers := by
  have ontology : evaluation.ontologyCandidates compiled taxonomy left equivalent supers =
      evaluation.ontologyCandidates compiled taxonomy right equivalent supers := by
    unfold ontologyCandidates
    cases equivalent with
    | some index => rfl
    | none =>
      cases supers with
      | true => simp only [if_true, root.1]
      | false =>
        have filtered := List.filter_congr fun index (listed : index ∈ List.range taxonomy.nodes.length) =>
          congrArg (fun subsumers => decide (evaluation.root ∈ subsumers))
            ((classes rfl).1 index (List.mem_range.mp listed)).1
        simp only [Bool.false_eq_true, if_false, filtered]
  unfold nodeCandidates
  rw [ontology]
  refine congrArg _ (List.filter_congr fun candidate listed => ?_)
  cases supers with
  | true => simp only [if_true, root.1]
  | false => simp only [Bool.false_eq_true, if_false, ((classes rfl).2 candidate listed).1]

end

theorem candidateSubsumes_congr {sub super : NodeCandidate}
    (agrees : left.AgreesAt right sub.expression ∨ sub.taxonomyIndex.isSome ∧ super.taxonomyIndex.isSome) :
    candidateSubsumes taxonomy left strictSupers sub super =
      candidateSubsumes taxonomy right strictSupers sub super := by
  unfold candidateSubsumes
  rcases agrees with ⟨subsumers, inconsistent⟩ | ⟨placed, placed'⟩
  · rw [subsumers, inconsistent]
  · obtain ⟨lower, found⟩ := Option.isSome_iff_exists.mp placed
    obtain ⟨upper, found'⟩ := Option.isSome_iff_exists.mp placed'
    rw [found, found']

/-- The direct candidates depend on the contexts of the candidates alone. -/
theorem directCandidates_congr {supers : Bool} {candidates : List NodeCandidate}
    (agrees : (∀ candidate ∈ candidates, left.AgreesAt right candidate.expression) ∨
      ∀ candidate ∈ candidates, candidate.taxonomyIndex.isSome) :
    directCandidates taxonomy left strictSupers supers candidates =
      directCandidates taxonomy right strictSupers supers candidates := by
  have pairs : ∀ sub ∈ candidates, ∀ super ∈ candidates, candidateSubsumes taxonomy left strictSupers sub super =
      candidateSubsumes taxonomy right strictSupers sub super := by
    intro sub listed super listed'
    refine candidateSubsumes_congr ?_
    rcases agrees with agrees | placed
    · exact Or.inl (agrees sub listed)
    · exact Or.inr ⟨placed sub listed, placed super listed'⟩
  unfold directCandidates
  refine List.filter_congr fun candidate listed => congrArg not ?_
  rw [Bool.eq_iff_iff, List.any_eq_true, List.any_eq_true]
  refine exists_congr fun other => and_congr_right fun listed' => ?_
  cases supers with
  | true => rw [if_pos rfl, if_pos rfl, pairs other listed' candidate listed]
  | false => rw [if_neg Bool.false_ne_true, if_neg Bool.false_ne_true, pairs candidate listed other listed']

/-- The instances depend on the contexts of the individuals alone. -/
theorem QueryEvaluation.selectedInstances_congr
    (agrees : ∀ index < realized.instanceNodes.length, left.AgreesAt right
      (evaluation.namedExpression compiled .individual ((realized.instanceNodes.getD index []).headD 0))) :
    evaluation.selectedInstances compiled left realized = evaluation.selectedInstances compiled right realized := by
  unfold selectedInstances
  refine List.filter_congr fun index listed => ?_
  rw [(agrees index (List.mem_range.mp listed)).1]

/-- The direct instances depend on the contexts of the direct types alone. -/
theorem QueryEvaluation.directInstances_congr {selected : List Nat}
    (agrees : ∀ index ∈ selectedDirectTypes realized selected,
      left.AgreesAt right (evaluation.representative compiled taxonomy index)) :
    evaluation.directInstances compiled taxonomy left realized selected =
      evaluation.directInstances compiled taxonomy right realized selected := by
  have types := List.filter_congr fun index (listed : index ∈ selectedDirectTypes realized selected) =>
    congrArg (fun subsumers => decide (evaluation.root ∈ subsumers)) (agrees index listed).1
  unfold directInstances
  simp only [types]

end

section

variable {compiled : CompiledOntology} {query : QueryIR} {evaluation : QueryEvaluation} {taxonomy : RawTaxonomy}
  {realized : RawRealization} {strictSupers : Nat → List Nat}

theorem QueryEvaluation.Installed.withContexts (installed : evaluation.Installed compiled query)
    (engine : SaturationEngine)
    (contexts : List Context) : (evaluation.withContexts engine contexts).Installed compiled query :=
  ⟨installed.query_eq, installed.root, installed.fresh, installed.matching, installed.ontology, installed.queried⟩

theorem RawTaxonomy.head_mem (taxonomy : RawTaxonomy) {index : Nat} (inside : index < taxonomy.nodes.length) :
    (taxonomy.nodes.getD index []).headD 0 ∈ taxonomy.nodes.getD index [] := by
  obtain ⟨entity, covered, rfl⟩ := taxonomy.exists_member inside
  obtain ⟨first, rest, same⟩ := List.exists_cons_of_ne_nil (List.ne_nil_of_mem (RawTaxonomy.mem_nodeFor covered))
  rw [same]
  exact .head _

theorem RawTaxonomy.WellBuilt.head (wellBuilt : taxonomy.WellBuilt compiled.entities .owlClass) {index : Nat}
    (inside : index < taxonomy.nodes.length) :
    compiled.EntityOf ((taxonomy.nodes.getD index []).headD 0) .owlClass :=
  mem_entityIds.mp (wellBuilt.onlyMembers index _ (taxonomy.head_mem inside))

section

variable (installed : evaluation.Installed compiled query)

include installed

/-- The expressions of all entities of a tag. -/
theorem QueryEvaluation.Installed.roots_lt {tag : ExpressionTag} :
    ∀ root ∈ (compiled.rootsOf tag).map (evaluation.overlay.ontologyIds.getD · 0),
      root < evaluation.overlay.ontology.expressions.length := by
  intro root listed
  obtain ⟨expression, member, rfl⟩ := List.mem_map.mp listed
  exact installed.ontology.lt (Tables.rootsOf_lt expression member)

/-- The fresh classes are expressions of the overlay. -/
theorem QueryEvaluation.Installed.fresh_lt : ∀ root ∈ evaluation.freshClasses.map NodeCandidate.expression,
    root < evaluation.overlay.ontology.expressions.length := by
  intro root listed
  obtain ⟨candidate, member, rfl⟩ := List.mem_map.mp listed
  exact (installed.fresh_spec member).2.1

omit installed in
theorem QueryEvaluation.class_mem {entity : EntityId} (object : compiled.EntityOf entity .owlClass) :
    evaluation.namedExpression compiled.toTables .owlClass entity ∈
      (compiled.rootsOf .owlClass).map (evaluation.overlay.ontologyIds.getD · 0) :=
  List.mem_map.mpr ⟨_, Tables.mem_rootsOf.mpr ⟨_, compiled.valid.namedExpression_built object⟩, rfl⟩

omit installed in
theorem QueryEvaluation.individual_mem {entity : EntityId} (object : compiled.EntityOf entity .namedIndividual) :
    evaluation.namedExpression compiled.toTables .individual entity ∈
      (compiled.rootsOf .individual).map (evaluation.overlay.ontologyIds.getD · 0) :=
  List.mem_map.mpr ⟨_, Tables.mem_rootsOf.mpr ⟨_, compiled.valid.namedIndividual_built object⟩, rfl⟩

variable (wellBuilt : taxonomy.WellBuilt compiled.entities .owlClass)

include wellBuilt

/-- The representative of a node is an expression of the overlay. -/
theorem QueryEvaluation.Installed.representative_lt {index : Nat} (inside : index < taxonomy.nodes.length) :
    evaluation.representative compiled.toTables taxonomy index < evaluation.overlay.ontology.expressions.length :=
  installed.class_lt (wellBuilt.head inside)

theorem QueryEvaluation.Installed.possibleEquivalents_lt {reader : ContextReader} :
    ∀ root ∈ evaluation.possibleEquivalents compiled.toTables taxonomy reader,
      root < evaluation.overlay.ontology.expressions.length := by
  intro root listed
  rcases List.mem_append.mp (List.mem_filter.mp listed).1 with node | fresh
  · obtain ⟨index, inside, rfl⟩ := List.mem_map.mp node
    exact installed.representative_lt wellBuilt (List.mem_range.mp inside)
  · exact installed.fresh_lt root fresh

/-- The sub- and superclasses that a selection returns are those of the isolated contexts. -/
theorem QueryEvaluation.Installed.selectRelatives (strictSupers : Nat → List Nat) (live : evaluation.Live)
    (supers direct : Bool)
    (present : (evaluation.context evaluation.root).isSome) {equivalent : Option Nat}
    (same : equivalent = evaluation.equivalentIndex compiled.toTables taxonomy evaluation.overlay.reader)
    (bounded : ∀ index ∈ evaluation.ontologyCandidates compiled.toTables taxonomy evaluation.overlay.reader equivalent
      supers, index < taxonomy.nodes.length) :
    evaluation.selectRelatives compiled.toTables taxonomy strictSupers equivalent supers direct = none ∧
      evaluation.overlay.Raises ∨
    ∃ engine contexts, (evaluation.withContexts engine contexts).Live ∧
      evaluation.selectRelatives compiled.toTables taxonomy strictSupers equivalent supers direct =
        (queryNodes (if supers then .superclasses else .subclasses)
          ((evaluation.relatives compiled.toTables taxonomy evaluation.overlay.reader strictSupers supers direct).map
            NodeCandidate.members)).map (Prod.mk (evaluation.withContexts engine contexts)) := by
  let classes := (compiled.rootsOf .owlClass).map (evaluation.overlay.ontologyIds.getD · 0) ++
    evaluation.freshClasses.map NodeCandidate.expression
  -- the contexts that the candidates are read from
  have first : (if supers then some evaluation else evaluation.ensureContexts classes) = none ∧
        evaluation.overlay.Raises ∨
      ∃ engine contexts, (if supers then some evaluation else evaluation.ensureContexts classes) =
          some (evaluation.withContexts engine contexts) ∧ (evaluation.withContexts engine contexts).Live ∧
        (evaluation.withContexts engine contexts).nodeCandidates compiled.toTables taxonomy
            (evaluation.withContexts engine contexts).reader equivalent supers =
          evaluation.nodeCandidates compiled.toTables taxonomy evaluation.overlay.reader equivalent supers := by
    cases supers with
    | true =>
      exact Or.inr ⟨evaluation.engine, evaluation.contexts, rfl, live,
        nodeCandidates_congr (live.agrees present) fun absurdity => absurd absurdity (by decide)⟩
    | false =>
      have listed : ∀ root ∈ classes, root < evaluation.overlay.ontology.expressions.length := fun root listed =>
        (List.mem_append.mp listed).elim (installed.roots_lt root) (installed.fresh_lt root)
      refine (live.read listed).imp_right ?_
      rintro ⟨engine, contexts, read, live', present'⟩
      refine ⟨engine, contexts, read, live', ?_⟩
      refine nodeCandidates_congr (live'.agrees (present' _ (Or.inr present))) fun _ => ⟨?_, ?_⟩
      · intro index inside
        exact live'.agrees (present' _ (Or.inl (List.mem_append_left _ (class_mem (wellBuilt.head inside)))))
      · intro candidate listed
        exact live'.agrees (present' _ (Or.inl (List.mem_append_right _ (List.mem_map_of_mem listed))))
  unfold QueryEvaluation.selectRelatives QueryEvaluation.relatives
  dsimp only
  rcases first with ⟨raised, raises⟩ | ⟨engine, contexts, read, live', candidates⟩
  · exact Or.inl ⟨by rw [raised]; rfl, raises⟩
  rw [read, Option.bind_some, candidates, ← same]
  cases direct with
  | false => exact Or.inr ⟨engine, contexts, live', rfl⟩
  | true =>
    rw [if_pos rfl, if_pos rfl]
    by_cases fresh : evaluation.freshClasses.isEmpty
    · rw [if_pos (show ((evaluation.withContexts engine contexts).freshClasses.isEmpty = true) from fresh)]
      refine Or.inr ⟨engine, contexts, live', ?_⟩
      rw [Option.bind_some, directCandidates_congr (Or.inr fun candidate listed => ?_)]
      rcases List.mem_append.mp listed with node | fresh'
      · obtain ⟨index, -, rfl⟩ := List.mem_map.mp node
        rfl
      · rw [List.isEmpty_iff.mp fresh] at fresh'
        exact absurd fresh' List.not_mem_nil
    · rw [if_neg (show ¬((evaluation.withContexts engine contexts).freshClasses.isEmpty = true) from fresh)]
      have ranged :
        ∀ root ∈ (evaluation.nodeCandidates compiled.toTables taxonomy evaluation.overlay.reader equivalent
          supers).map NodeCandidate.expression, root < evaluation.overlay.ontology.expressions.length := by
        intro root listed
        obtain ⟨candidate, member, rfl⟩ := List.mem_map.mp listed
        rcases List.mem_append.mp member with node | fresh'
        · obtain ⟨index, inside, rfl⟩ := List.mem_map.mp node
          exact installed.representative_lt wellBuilt (bounded index (mem_sortedSet.mp inside))
        · exact (installed.fresh_spec (List.mem_filter.mp fresh').1).2.1
      rcases live'.read ranged with ⟨raised, raises⟩ | ⟨engine', contexts', read', live'', present''⟩
      · exact Or.inl ⟨by rw [raised]; rfl, raises⟩
      refine Or.inr ⟨engine', contexts', live'', ?_⟩
      rw [read', Option.bind_some, directCandidates_congr (Or.inl fun candidate listed => live''.agrees
        (present'' _ (Or.inl (List.mem_map_of_mem listed))))]
      rfl

/-- The instances that a selection returns are those of the isolated contexts. -/
theorem QueryEvaluation.Installed.selectInstances (strictSupers : Nat → List Nat) (live : evaluation.Live)
    (direct : Bool)
    (individuals : ∀ index < realized.instanceNodes.length,
      compiled.EntityOf ((realized.instanceNodes.getD index []).headD 0) .namedIndividual)
    (typed : ∀ instanceIndex, ∀ type ∈ realized.directTypeIndices instanceIndex, type < taxonomy.nodes.length) :
    evaluation.selectInstances compiled.toTables taxonomy realized strictSupers
        (evaluation.equivalentIndex compiled.toTables taxonomy evaluation.overlay.reader) direct = none ∧
      evaluation.overlay.Raises ∨
    ∃ engine contexts, (evaluation.withContexts engine contexts).Live ∧
      evaluation.selectInstances compiled.toTables taxonomy realized strictSupers
          (evaluation.equivalentIndex compiled.toTables taxonomy evaluation.overlay.reader) direct =
        (queryNodes .instances
          ((evaluation.instances compiled.toTables taxonomy realized evaluation.overlay.reader
            strictSupers direct).map
            fun index => realized.instanceNodes.getD index [])).map
              (Prod.mk (evaluation.withContexts engine contexts)) := by
  unfold QueryEvaluation.selectInstances QueryEvaluation.instances
  dsimp only
  cases evaluation.equivalentIndex compiled.toTables taxonomy evaluation.overlay.reader with
  | some index => exact Or.inr ⟨evaluation.engine, evaluation.contexts, live, rfl⟩
  | none =>
    dsimp only
    rcases live.read (installed.roots_lt : ∀ root ∈
      (compiled.rootsOf .individual).map (evaluation.overlay.ontologyIds.getD · 0), _) with
      ⟨raised, raises⟩ | ⟨engine, contexts, read, live', present'⟩
    · exact Or.inl ⟨by rw [raised]; rfl, raises⟩
    have selected : (evaluation.withContexts engine contexts).selectedInstances compiled.toTables
          (evaluation.withContexts engine contexts).reader realized =
        evaluation.selectedInstances compiled.toTables evaluation.overlay.reader realized :=
      selectedInstances_congr fun index inside =>
        live'.agrees (present' _ (Or.inl (individual_mem (individuals index inside))))
    rw [read, Option.bind_some, selected]
    generalize evaluation.selectedInstances compiled.toTables evaluation.overlay.reader realized = indices
    cases direct with
    | false => exact Or.inr ⟨engine, contexts, live', rfl⟩
    | true =>
      by_cases none_ : indices.isEmpty
      · rw [List.isEmpty_iff.mp none_]
        exact Or.inr ⟨engine, contexts, live', rfl⟩
      · rw [if_pos (by rw [Bool.true_and, Bool.not_eq_true'] ; exact Bool.eq_false_iff.mpr none_), if_pos rfl]
        have ranged : ∀ root ∈ (selectedDirectTypes realized indices).map
            ((evaluation.withContexts engine contexts).representative compiled.toTables taxonomy),
            root < evaluation.overlay.ontology.expressions.length := by
          intro root listed
          obtain ⟨type, member, rfl⟩ := List.mem_map.mp listed
          obtain ⟨instanceIndex, -, found⟩ := List.mem_flatMap.mp member
          exact installed.representative_lt wellBuilt (typed instanceIndex type found)
        rcases live'.read ranged with ⟨raised, raises⟩ | ⟨engine', contexts', read', live'', present''⟩
        · exact Or.inl ⟨by rw [raised]; rfl, raises⟩
        refine Or.inr ⟨engine', contexts', live'', ?_⟩
        have kept : (evaluation.withContexts engine' contexts').directInstances compiled.toTables taxonomy
              (evaluation.withContexts engine' contexts').reader realized indices =
            evaluation.directInstances compiled.toTables taxonomy evaluation.overlay.reader realized indices :=
          directInstances_congr fun type member => live''.agrees (present'' _ (Or.inl (List.mem_map_of_mem member)))
        rw [← kept, read', Option.bind_some]
        rfl

/-- `_select_query` answers as the isolated contexts do, whatever was read before, unless a run raises. -/
theorem QueryEvaluation.Installed.select (live : evaluation.Live)
    (individuals : ∀ index < realized.instanceNodes.length,
      compiled.EntityOf ((realized.instanceNodes.getD index []).headD 0) .namedIndividual)
    (typed : ∀ instanceIndex, ∀ type ∈ realized.directTypeIndices instanceIndex, type < taxonomy.nodes.length)
    (bounded : ∀ supers, ∀ index ∈ evaluation.ontologyCandidates compiled.toTables taxonomy evaluation.overlay.reader
      (evaluation.equivalentIndex compiled.toTables taxonomy evaluation.overlay.reader) supers,
      index < taxonomy.nodes.length)
    (closure : taxonomy.strictSuperClosure = some strictSupers) (kind : QueryKind) (direct : Bool) :
    evaluation.select compiled.toTables taxonomy realized kind direct = none ∧ evaluation.overlay.Raises ∨
    ∃ engine contexts, (evaluation.withContexts engine contexts).Live ∧
      evaluation.select compiled.toTables taxonomy realized kind direct =
        (evaluation.answer compiled.toTables taxonomy realized evaluation.overlay.reader strictSupers kind direct).map
          (Prod.mk (evaluation.withContexts engine contexts)) := by
  unfold QueryEvaluation.select
  rcases live.read fun root (listed : root ∈ [evaluation.root]) =>
    List.mem_singleton.mp listed ▸ installed.root_lt with
    ⟨raised, raises⟩ | ⟨engine, contexts, read, live', present⟩
  · exact Or.inl ⟨by rw [raised]; rfl, raises⟩
  have agrees := live'.agrees (present evaluation.root (Or.inl (.head _)))
  rw [read, Option.bind_some]
  by_cases satisfiable : kind = .satisfiable
  · subst satisfiable
    rw [if_pos rfl]
    refine Or.inr ⟨engine, contexts, live', congrArg (fun checked : Option RawQueryResult => checked.map _) ?_⟩
    exact congrArg (fun inconsistent => RawQueryResult.check .satisfiable (some !inconsistent) []) agrees.2
  · rw [if_neg satisfiable, closure, Option.bind_some]
    have possible := @QueryEvaluation.possibleEquivalents_congr compiled.toTables taxonomy evaluation _ _ agrees
    rcases @QueryEvaluation.Live.read _ ((evaluation.withContexts engine contexts).possibleEquivalents
      compiled.toTables taxonomy (evaluation.withContexts engine contexts).reader) live'
      (installed.possibleEquivalents_lt wellBuilt) with
      ⟨raised, raises⟩ | ⟨engine', contexts', read', live'', present'⟩
    · exact Or.inl ⟨by rw [raised]; rfl, raises⟩
    have flat : (evaluation.withContexts engine contexts).withContexts engine' contexts' =
      evaluation.withContexts engine' contexts' := rfl
    rw [flat] at read' live'' present'
    have here := present' _ (Or.inr (present evaluation.root (Or.inl (.head _))))
    have agrees' := live''.agrees here
    have possible' := @QueryEvaluation.possibleEquivalents_congr compiled.toTables taxonomy evaluation _ _ agrees'
    have all : ∀ expression ∈ evaluation.possibleEquivalents compiled.toTables taxonomy
        (evaluation.withContexts engine' contexts').reader,
        (evaluation.withContexts engine' contexts').reader.AgreesAt evaluation.overlay.reader expression := by
      intro expression listed
      refine live''.agrees (present' _ (Or.inl ?_))
      exact (possible'.trans possible.symm) ▸ listed
    have index : (evaluation.withContexts engine' contexts').equivalentIndex compiled.toTables taxonomy
          (evaluation.withContexts engine' contexts').reader =
        evaluation.equivalentIndex compiled.toTables taxonomy evaluation.overlay.reader :=
      QueryEvaluation.equivalentIndex_congr agrees' all
    have fresh : (evaluation.withContexts engine' contexts').freshEquivalent
          (evaluation.withContexts engine' contexts').reader = evaluation.freshEquivalent evaluation.overlay.reader :=
      QueryEvaluation.freshEquivalent_congr agrees' all
    rw [read', Option.bind_some]
    cases kind with
    | satisfiable => exact absurd rfl satisfiable
    | equivalentClasses =>
      refine Or.inr ⟨engine', contexts', live'', ?_⟩
      dsimp only
      have nodes : (evaluation.withContexts engine' contexts').equivalentNodes taxonomy
          (evaluation.withContexts engine' contexts').reader
          ((evaluation.withContexts engine' contexts').equivalentIndex compiled.toTables taxonomy
            (evaluation.withContexts engine' contexts').reader) = evaluation.equivalentNodes taxonomy
          evaluation.overlay.reader
            (evaluation.equivalentIndex compiled.toTables taxonomy evaluation.overlay.reader) := by
        unfold QueryEvaluation.equivalentNodes
        rw [index, fresh]
      rw [nodes]
      rfl
    | subclasses =>
      rcases (installed.withContexts engine' contexts').selectRelatives wellBuilt strictSupers live''
        false direct here
        index (index ▸ bounded false) with raised | ⟨last, reads, kept, answered⟩
      · exact Or.inl raised
      · exact Or.inr ⟨last, reads, kept, answered⟩
    | superclasses =>
      rcases (installed.withContexts engine' contexts').selectRelatives wellBuilt strictSupers live'' true direct here
        index (index ▸ bounded true) with raised | ⟨last, reads, kept, answered⟩
      · exact Or.inl raised
      · exact Or.inr ⟨last, reads, kept, answered⟩
    | instances =>
      dsimp only
      rw [index]
      rcases (installed.withContexts engine' contexts').selectInstances wellBuilt strictSupers live''
        direct individuals
        typed with raised | ⟨last, reads, kept, answered⟩
      · exact Or.inl raised
      · exact Or.inr ⟨last, reads, kept, answered⟩

end

end

end PyElk
