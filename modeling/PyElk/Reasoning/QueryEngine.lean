import PyElk.Reasoning.QueryAnswers
import PyElk.Reasoning.TaxonomyOrder

open Relation Ordered

namespace PyElk

section

variable {compiled : CompiledOntology} {query : QueryIR} {evaluation : QueryEvaluation} {taxonomy : RawTaxonomy}
  (installed : evaluation.Installed compiled query) (wellBuilt : taxonomy.WellBuilt compiled.entities .owlClass)

/-- The query is below an expression. -/
def QueryEvaluation.Above (evaluation : QueryEvaluation) (expression : ExpressionId) : Prop :=
  evaluation.overlay.ontology.Subsumed evaluation.root expression

/-- An expression is below the query. -/
def QueryEvaluation.Below (evaluation : QueryEvaluation) (expression : ExpressionId) : Prop :=
  evaluation.overlay.ontology.Subsumed expression evaluation.root

include installed

theorem QueryEvaluation.Installed.mem_root_subsumers {expression : ExpressionId} :
    expression ∈ evaluation.overlay.reader.subsumers evaluation.root ↔ evaluation.Above expression :=
  Overlay.mem_subsumers installed.root_lt

omit installed in
theorem QueryEvaluation.root_mem_subsumers {expression : ExpressionId}
    (inside : expression < evaluation.overlay.ontology.expressions.length) :
    evaluation.root ∈ evaluation.overlay.reader.subsumers expression ↔ evaluation.Below expression :=
  Overlay.mem_subsumers inside

theorem QueryEvaluation.Installed.mutual_iff {expression : ExpressionId}
    (inside : expression < evaluation.overlay.ontology.expressions.length) :
    evaluation.mutual evaluation.overlay.reader expression ↔ evaluation.Above expression ∧
      evaluation.Below expression := by
  rw [QueryEvaluation.mutual, Bool.and_eq_true, decide_eq_true_eq, decide_eq_true_eq, installed.mem_root_subsumers,
    root_mem_subsumers inside]

include wellBuilt

/-- A node that the query is equivalent to: the bottom node for a contradictory query, else one whose
first member is above and below the query. -/
theorem QueryEvaluation.Installed.equivalentIndex_some {index : Nat}
    (found : evaluation.equivalentIndex compiled.toTables taxonomy evaluation.overlay.reader = some index) :
    index < taxonomy.nodes.length ∧
      (evaluation.overlay.ontology.Contradictory evaluation.root ∧ index = taxonomy.bottom ∨
        evaluation.Above (evaluation.representative compiled.toTables taxonomy index) ∧
          evaluation.Below (evaluation.representative compiled.toTables taxonomy index)) := by
  unfold equivalentIndex at found
  split at found
  · rename_i contradictory
    obtain rfl := Option.some.inj found
    exact ⟨taxonomy.valid.bottomBound, Or.inl ⟨(Overlay.inconsistent_iff installed.root_lt).mp contradictory, rfl⟩⟩
  · have inside := List.mem_range.mp (List.mem_of_find?_eq_some found)
    have same := List.find?_some found
    exact ⟨inside, Or.inr ((installed.mutual_iff (installed.representative_lt wellBuilt inside)).mp same)⟩

theorem QueryEvaluation.Installed.equivalentIndex_none :
    evaluation.equivalentIndex compiled.toTables taxonomy evaluation.overlay.reader = none ↔
      ¬ evaluation.overlay.ontology.Contradictory evaluation.root ∧ ∀ index < taxonomy.nodes.length,
        ¬ (evaluation.Above (evaluation.representative compiled.toTables taxonomy index) ∧
          evaluation.Below (evaluation.representative compiled.toTables taxonomy index)) := by
  unfold equivalentIndex
  rw [← Overlay.inconsistent_iff installed.root_lt]
  split
  · rename_i contradictory
    exact ⟨fun absurdity => absurd absurdity (by simp), fun consistent => absurd contradictory consistent.1⟩
  · rename_i consistent
    rw [List.find?_eq_none, and_iff_right consistent]
    refine forall_congr' fun index => ⟨fun unequal inside => ?_, fun unequal listed => ?_⟩
    · rw [← installed.mutual_iff (installed.representative_lt wellBuilt inside)]
      exact unequal (List.mem_range.mpr inside)
    · have inside := List.mem_range.mp listed
      rw [installed.mutual_iff (installed.representative_lt wellBuilt inside)]
      exact unequal inside

/-- The node of a class expression. -/
theorem QueryEvaluation.Installed.expressionToNode_iff {expression : ExpressionId} {index : Nat} :
    evaluation.expressionToNode compiled.toTables taxonomy expression = some index ↔
      ∃ entity ∈ taxonomy.nodes.getD index [],
        evaluation.namedExpression compiled.toTables .owlClass entity = expression := by
  have member : ∀ {index : Nat} (inside : index < taxonomy.nodes.length),
      (taxonomy.nodes[index].any fun entity =>
        evaluation.namedExpression compiled.toTables .owlClass entity == expression) ↔
        ∃ entity ∈ taxonomy.nodes.getD index [],
          evaluation.namedExpression compiled.toTables .owlClass entity = expression := by
    intro index inside
    rw [List.any_eq_true, List.getD_eq_getElem?_getD, List.getElem?_eq_getElem inside, Option.getD_some]
    simp only [beq_iff_eq]
  unfold expressionToNode
  rw [List.findIdx?_eq_some_iff_getElem]
  constructor
  · rintro ⟨inside, found, -⟩
    exact (member inside).mp found
  · rintro ⟨entity, listed, same⟩
    have inside : index < taxonomy.nodes.length := by
      obtain ⟨node, entry, -⟩ := mem_getD.mp listed
      exact (List.getElem?_eq_some_iff.mp entry).1
    refine ⟨inside, (member inside).mpr ⟨entity, listed, same⟩, fun earlier before => ?_⟩
    rw [Bool.not_eq_true, Bool.eq_false_iff]
    intro found
    obtain ⟨other, listed', same'⟩ := (member (before.trans inside)).mp found
    have equal := installed.class_injective (mem_entityIds.mp (wellBuilt.onlyMembers index entity listed))
      (mem_entityIds.mp (wellBuilt.onlyMembers earlier other listed')) (same.trans same'.symm)
    have place := taxonomy.place listed
    rw [equal, taxonomy.place listed'] at place
    exact absurd place (Nat.ne_of_lt before)

/-- The nodes that a sub- or superclass result is drawn from. -/
theorem QueryEvaluation.Installed.mem_ontologyCandidates {supers : Bool} {index : Nat} :
    index ∈ evaluation.ontologyCandidates compiled.toTables taxonomy evaluation.overlay.reader
        (evaluation.equivalentIndex compiled.toTables taxonomy evaluation.overlay.reader) supers ↔
      match evaluation.equivalentIndex compiled.toTables taxonomy evaluation.overlay.reader with
      | some equivalent => if supers then TransGen (Linked taxonomy.directEdges) equivalent index
          else TransGen (Linked taxonomy.directEdges) index equivalent
      | none => if supers then index = taxonomy.top ∨ ∃ entity ∈ taxonomy.nodes.getD index [],
            evaluation.Above (evaluation.namedExpression compiled.toTables .owlClass entity)
          else index = taxonomy.bottom ∨ index < taxonomy.nodes.length ∧
            evaluation.Below (evaluation.representative compiled.toTables taxonomy index) := by
  unfold ontologyCandidates
  cases evaluation.equivalentIndex compiled.toTables taxonomy evaluation.overlay.reader with
  | some equivalent => exact taxonomy.mem_relativeIndices
  | none =>
    cases supers with
    | true =>
      dsimp only
      rw [if_pos rfl, if_pos rfl, List.mem_cons, List.mem_filterMap]
      refine or_congr_right ⟨?_, ?_⟩
      · rintro ⟨expression, listed, found⟩
        obtain ⟨entity, inside, rfl⟩ := (installed.expressionToNode_iff wellBuilt).mp found
        exact ⟨entity, inside, installed.mem_root_subsumers.mp listed⟩
      · rintro ⟨entity, inside, above⟩
        exact ⟨_, installed.mem_root_subsumers.mpr above,
          (installed.expressionToNode_iff wellBuilt).mpr ⟨entity, inside, rfl⟩⟩
    | false =>
      dsimp only
      rw [if_neg Bool.false_ne_true, if_neg Bool.false_ne_true, List.mem_cons, List.mem_filter, List.mem_range,
        decide_eq_true_eq]
      refine or_congr_right (and_congr_right fun inside => ?_)
      exact root_mem_subsumers (installed.representative_lt wellBuilt inside)

theorem QueryEvaluation.Installed.candidates_lt {supers : Bool} : ∀ index ∈ evaluation.ontologyCandidates
    compiled.toTables taxonomy evaluation.overlay.reader
    (evaluation.equivalentIndex compiled.toTables taxonomy evaluation.overlay.reader) supers,
    index < taxonomy.nodes.length := by
  intro index listed
  have spec := (installed.mem_ontologyCandidates wellBuilt).mp listed
  cases found : evaluation.equivalentIndex compiled.toTables taxonomy evaluation.overlay.reader with
  | some equivalent =>
    rw [found] at spec
    cases supers with
    | true => exact (taxonomy.path_lt spec).2
    | false => exact (taxonomy.path_lt spec).1
  | none =>
    rw [found] at spec
    cases supers with
    | true =>
      rcases (show index = taxonomy.top ∨ _ from spec) with rfl | ⟨entity, inside, -⟩
      · exact taxonomy.valid.topBound
      · obtain ⟨node, entry, -⟩ := mem_getD.mp inside
        exact (List.getElem?_eq_some_iff.mp entry).1
    | false =>
      rcases (show index = taxonomy.bottom ∨ _ from spec) with rfl | ⟨inside, -⟩
      · exact taxonomy.valid.bottomBound
      · exact inside

end

/-- What an engine keeps over any queries: it answers as the isolated contexts do. -/
structure ClassQueryEngine.Live (compiled : CompiledOntology) (strictSupers : Nat → List Nat)
    (engine : ClassQueryEngine) : Prop where
  session : engine.session = .reached compiled .realized
  returned : compiled.Returned .realized
  taxonomy : engine.classTaxonomy.WellBuilt compiled.entities .owlClass
  built : ∃ stage : Stage, Stage.classified.code ≤ stage.code ∧
    buildClassTaxonomy compiled.toTables (compiled.snapshotAt stage) = some engine.classTaxonomy
  realized : buildRealization compiled.toTables (compiled.snapshotAt .realized) engine.classTaxonomy =
    some engine.realized
  closure : engine.classTaxonomy.strictSuperClosure = some strictSupers
  evaluations : ∀ {query : QueryIR} {evaluation}, engine.evaluations.lookup query.toQueryTables = some evaluation →
    ∃ initial saturation contexts, evaluateQuery compiled.toTables query.toQueryTables = some initial ∧
      evaluation = initial.withContexts saturation contexts ∧ (initial.withContexts saturation contexts).Live
  results : (compiled.consistencyAt .realized).inconsistent = false → ∀ {query : QueryIR} {kind direct result},
    engine.results.lookup (some query.toQueryTables, kind, direct) = some result →
    ∃ initial, evaluateQuery compiled.toTables query.toQueryTables = some initial ∧
      initial.answer compiled.toTables engine.classTaxonomy engine.realized initial.overlay.reader
        strictSupers kind direct =
        some result
  unindexed : (compiled.consistencyAt .realized).inconsistent = false → ∀ {kind direct result},
    engine.results.lookup (none, kind, direct) = some result →
    unindexedResult kind direct engine.classTaxonomy = some result

section

variable {compiled : CompiledOntology} {engine : ClassQueryEngine} {strictSupers : Nat → List Nat}

/-- A snapshot of a later stage holds the contexts of the classes. -/
theorem CompiledOntology.snapshotAt_context {stage : Stage} (late : Stage.classified.code ≤ stage.code) :
    ∀ root ∈ compiled.rootsOf .owlClass, ∃ context, (compiled.snapshotAt stage).context root = some context := by
  intro root listed
  have demanded : root ∈ demandedRoots (compiled.stageBatches stage) :=
    Tables.stageBatches_mono late ⟨_, .tail _ (.head _), listed⟩
  obtain ⟨context, found, -⟩ := Tables.snapshot_context compiled.valid (Tables.stageBatches_lt compiled.valid)
    (.start ⟨root, demanded, rfl⟩)
  exact ⟨context, found⟩

/-- A freshly opened engine is live. -/
theorem ClassQueryEngine.Live.opened {session : SaturationSession} (reachable : session.Reachable compiled)
    (opened : ClassQueryEngine.open session = some engine) : ∃ strictSupers, engine.Live compiled strictSupers := by
  unfold ClassQueryEngine.open at opened
  obtain ⟨⟨next, built⟩, classified, realizing⟩ := Option.bind_eq_some_iff.mp opened
  obtain ⟨stage, late, returned, rfl, same⟩ := reachable.classTaxonomy (toOption_eq_some.mp classified)
  obtain ⟨taxonomy, rfl, opening⟩ := Option.bind_eq_some_iff.mp realizing
  have reached : SaturationSession.Reachable compiled (.reached compiled stage) :=
    .reached (le_trans (by decide : Stage.consistency.code ≤ Stage.classified.code) late) returned
  obtain ⟨⟨last, value⟩, realization, checking⟩ := Option.bind_eq_some_iff.mp opening
  obtain ⟨returned', rfl, found⟩ := reached.realization (toOption_eq_some.mp realization)
  obtain ⟨realized, rfl, keeping⟩ := Option.bind_eq_some_iff.mp checking
  obtain ⟨-, done⟩ := Option.ite_none_right_eq_some.mp keeping
  obtain rfl := Option.some.inj done
  have saturated := compiled.snapshotAt_context late
  obtain ⟨other, total, wellBuilt⟩ := buildClassTaxonomy_total compiled.valid saturated
    (classRunsReturn_of_taxonomy compiled.valid saturated same.symm)
  obtain rfl := Option.some.inj (same.trans total)
  obtain ⟨strictSupers, closure, -⟩ := taxonomy.strictSuperClosure_spec
  exact ⟨strictSupers, rfl, returned', wellBuilt, ⟨stage, late, total⟩, found.symm, closure,
    fun absent => absurd absent (by simp), fun _ {_ _ _ _} absent => absurd absent (by simp),
    fun _ {_ _ _} absent => absurd absent (by simp)⟩

/-- The nodes of a consistent realization hold individuals, and their types are nodes of the taxonomy. -/
theorem ClassQueryEngine.Live.realized_spec (live : engine.Live compiled strictSupers)
    (consistent : (compiled.consistencyAt .realized).inconsistent = false) :
    (∀ index < engine.realized.instanceNodes.length,
      compiled.EntityOf ((engine.realized.instanceNodes.getD index []).headD 0) .namedIndividual) ∧
    ∀ instanceIndex, ∀ type ∈ engine.realized.directTypeIndices instanceIndex,
      type < engine.classTaxonomy.nodes.length := by
  obtain ⟨value, found, exact_⟩ := buildRealization_exact compiled.valid live.returned engine.classTaxonomy consistent
  obtain rfl := Option.some.inj (live.realized.symm.trans found)
  refine ⟨fun index inside => ?_, fun instanceIndex type listed => ?_⟩
  · obtain ⟨-, x, object, spec⟩ := (exact_.nodes _).mp (List.getElem_mem inside)
    obtain ⟨first, rest, same⟩ := List.exists_cons_of_ne_nil (List.ne_nil_of_mem ((spec x).mpr ⟨object, .refl x⟩))
    rw [List.getD_eq_getElem?_getD, List.getElem?_eq_getElem inside, Option.getD_some, same]
    exact ((spec first).mp (same ▸ List.mem_cons_self)).1
  · have pairs := engine.realized.valid.pairs
    unfold validateIndexPairs at pairs
    simp only [Bool.and_eq_true, List.all_eq_true, decide_eq_true_eq] at pairs
    rw [← exact_.based]
    exact (pairs.1 _ (RawRealization.mem_directTypeIndices.mp listed)).1.2

/-- An evaluation of the cache, or a fresh one, is live over its query. -/
theorem ClassQueryEngine.Live.evaluation (live : engine.Live compiled strictSupers) {query : QueryIR}
    {evaluation : QueryEvaluation} (found : engine.evaluation query.toQueryTables = some evaluation) :
    ∃ initial saturation contexts, evaluateQuery compiled.toTables query.toQueryTables = some initial ∧
      evaluation = initial.withContexts saturation contexts ∧ (initial.withContexts saturation contexts).Live := by
  unfold ClassQueryEngine.evaluation at found
  rw [Option.or_eq_some_iff] at found
  rcases found with cached | ⟨-, evaluated⟩
  · exact live.evaluations cached
  · rw [live.session] at evaluated
    exact ⟨evaluation, evaluation.engine, evaluation.contexts, evaluated, rfl, (evaluateQuery_installed evaluated).2⟩

/-- Keeping an evaluation of a query. -/
theorem ClassQueryEngine.Live.keep (live : engine.Live compiled strictSupers) {query : QueryIR}
    {initial : QueryEvaluation} {saturation : SaturationEngine} {contexts : List Context}
    (evaluated : evaluateQuery compiled.toTables query.toQueryTables = some initial)
    (ready : (initial.withContexts saturation contexts).Live) :
    ClassQueryEngine.Live compiled strictSupers { engine with
      evaluations := (query.toQueryTables, initial.withContexts saturation contexts) :: engine.evaluations } := by
  refine ⟨live.session, live.returned, live.taxonomy, live.built, live.realized, live.closure, ?_, live.results,
    live.unindexed⟩
  intro other evaluation found
  dsimp only at found
  rw [List.lookup_cons] at found
  split at found
  · rename_i equal
    rw [beq_iff_eq.mp equal]
    exact ⟨initial, saturation, contexts, evaluated, (Option.some.inj found).symm, ready⟩
  · exact live.evaluations found

theorem ClassQueryEngine.Live.evaluation_isSome (live : engine.Live compiled strictSupers) {query : QueryTables}
    {initial : QueryEvaluation} (evaluated : evaluateQuery compiled.toTables query = some initial) :
    ∃ evaluation, engine.evaluation query = some evaluation := by
  unfold ClassQueryEngine.evaluation
  cases engine.evaluations.lookup query with
  | some cached => exact ⟨cached, rfl⟩
  | none =>
    rw [live.session]
    exact ⟨initial, evaluated⟩

/-- Keeping an answer keeps an engine live. -/
theorem ClassQueryEngine.Live.retain (live : engine.Live compiled strictSupers)
    {key : Option QueryTables × QueryKind × Bool} {result : Option RawQueryResult}
    (justified : (compiled.consistencyAt .realized).inconsistent = false → ∀ {query : QueryIR} {kind direct value},
      key = (some query.toQueryTables, kind, direct) → result = some value →
      ∃ initial, evaluateQuery compiled.toTables query.toQueryTables = some initial ∧
        initial.answer compiled.toTables engine.classTaxonomy engine.realized initial.overlay.reader strictSupers kind
          direct = some value)
    (unindexed : (compiled.consistencyAt .realized).inconsistent = false → ∀ {kind direct value},
      key = (none, kind, direct) → result = some value →
      unindexedResult kind direct engine.classTaxonomy = some value) :
    (engine.retain key result).1.Live compiled strictSupers ∧ (engine.retain key result).2 = result := by
  unfold ClassQueryEngine.retain
  cases result with
  | none => exact ⟨live, rfl⟩
  | some value =>
    refine ⟨⟨live.session, live.returned, live.taxonomy, live.built, live.realized, live.closure, live.evaluations,
      fun consistent {query kind direct result} found => ?_, fun consistent {kind direct result} found => ?_⟩, rfl⟩
    · dsimp only at found
      rw [List.lookup_cons] at found
      split at found
      · rename_i same
        exact justified consistent (beq_iff_eq.mp same).symm found
      · exact live.results consistent found
    · dsimp only at found
      rw [List.lookup_cons] at found
      split at found
      · rename_i same
        exact unindexed consistent (beq_iff_eq.mp same).symm found
      · exact live.unindexed consistent found

/-- One query: the engine stays live, and an accepted query on a consistent ontology is answered as the
isolated contexts answer it, unless a run over its overlay raises. -/
theorem ClassQueryEngine.Live.query (live : engine.Live compiled strictSupers) (payload : Option QueryIR)
    (kind : QueryKind) (direct : Bool) : (engine.query payload kind direct).1.Live compiled strictSupers ∧
    ((compiled.consistencyAt .realized).inconsistent = false → ∀ {query : QueryIR} {initial},
      payload = some query → query.kind = .classExpression →
      evaluateQuery compiled.toTables query.toQueryTables = some initial →
      (engine.query payload kind direct).2 = none ∧ initial.overlay.Raises ∨
      (engine.query payload kind direct).2 = initial.answer compiled.toTables engine.classTaxonomy engine.realized
        initial.overlay.reader strictSupers kind direct) ∧
    ((compiled.consistencyAt .realized).inconsistent = false → payload = none →
      (engine.query payload kind direct).2 = unindexedResult kind direct engine.classTaxonomy) := by
  have asked : engine.session.ensureConsistency = .ok (engine.session, compiled.consistencyAt .realized) := by
    rw [live.session]
    exact SaturationSession.reached_ensureConsistency (by decide)
  unfold ClassQueryEngine.query
  dsimp only
  split
  · rename_i cached found
    refine ⟨live, fun consistent {query initial} same _ evaluated => Or.inr ?_, fun consistent same => ?_⟩
    · subst same
      obtain ⟨other, evaluated', answered⟩ := live.results consistent found
      obtain rfl := Option.some.inj (evaluated.symm.trans evaluated')
      exact answered.symm
    · subst same
      exact (live.unindexed consistent found).symm
  · split
    · rename_i refused
      refine ⟨live, fun _ {query initial} same accepted _ => ?_, fun _ same => ?_⟩
      · subst same
        rw [Option.any_some, bne_iff_ne] at refused
        exact absurd accepted refused
      · subst same
        exact absurd refused Bool.false_ne_true
    · rw [asked]
      dsimp only
      split
      · rename_i inconsistent
        have never : ¬ (compiled.consistencyAt .realized).inconsistent = false := fun consistent =>
          Bool.false_ne_true (consistent.symm.trans inconsistent)
        exact ⟨(live.retain (fun consistent => absurd consistent never) fun consistent => absurd consistent never).1,
          fun consistent => absurd consistent never, fun consistent => absurd consistent never⟩
      · rename_i verdict
        have consistent := Bool.eq_false_iff.mpr verdict
        cases payload with
        | none =>
          obtain ⟨kept, retained⟩ := @ClassQueryEngine.Live.retain compiled _ strictSupers live
            (none, kind, direct) (unindexedResult kind direct engine.classTaxonomy)
            (fun _ {_ _ _ _} same => absurd (Prod.mk.inj same).1 (by simp)) fun _ {_ _ _} same found => by
              obtain ⟨rfl, rfl⟩ := Prod.mk.inj (Prod.mk.inj same).2
              exact found
          exact ⟨kept, fun _ {_ _} absent => absurd absent (by simp), fun _ _ => retained⟩
        | some query =>
          obtain ⟨individuals, typed⟩ := live.realized_spec consistent
          dsimp only
          split
          · rename_i absent
            refine ⟨live, fun _ {other initial} same _ evaluated => ?_, fun _ absurdity => absurd absurdity (by simp)⟩
            obtain rfl := Option.some.inj same
            obtain ⟨evaluation, found⟩ := live.evaluation_isSome evaluated
            exact absurd (absent.symm.trans found) (by simp)
          · rename_i evaluation found
            obtain ⟨initial, saturation, contexts, evaluated, rfl, ready⟩ := live.evaluation found
            have installed := (evaluateQuery_installed evaluated).1
            have session : engine.session.compiled = compiled := by rw [live.session]; rfl
            rw [session]
            rcases (installed.withContexts saturation contexts).select live.taxonomy ready individuals typed
              (fun supers => (installed.withContexts saturation contexts).candidates_lt live.taxonomy) live.closure
              kind direct with ⟨raised, raises⟩ | ⟨last, read, kept, answered⟩
            · rw [raised]
              refine ⟨live.keep evaluated ready, fun _ {other initial'} same _ evaluated' => Or.inl ⟨rfl, ?_⟩,
                fun _ absurdity => absurd absurdity (by simp)⟩
              obtain rfl := Option.some.inj same
              obtain rfl := Option.some.inj (evaluated.symm.trans evaluated')
              exact raises
            · rw [answered]
              have own : ∀ {other : QueryIR} {initial' : QueryEvaluation}, some query = some other →
                  evaluateQuery compiled.toTables other.toQueryTables = some initial' → initial = initial' := by
                intro other initial' same evaluated'
                obtain rfl := Option.some.inj same
                exact Option.some.inj (evaluated.symm.trans evaluated')
              cases found :
                initial.answer compiled.toTables engine.classTaxonomy engine.realized initial.overlay.reader
                strictSupers kind direct with
              | none =>
                have refused :
                  (initial.withContexts saturation contexts).answer compiled.toTables engine.classTaxonomy
                  engine.realized initial.overlay.reader strictSupers kind direct = none := found
                rw [show (initial.withContexts saturation contexts).overlay = initial.overlay from rfl, refused,
                  Option.map_none]
                refine ⟨live.keep evaluated ready, fun _ {_ _} same _ evaluated' => Or.inr ?_,
                  fun _ absurdity => absurd absurdity (by simp)⟩
                rw [← own same evaluated', found]
              | some result =>
                have accepted :
                  (initial.withContexts saturation contexts).answer compiled.toTables engine.classTaxonomy
                  engine.realized initial.overlay.reader strictSupers kind direct = some result := found
                rw [show (initial.withContexts saturation contexts).overlay = initial.overlay from rfl, accepted,
                  Option.map_some]
                obtain ⟨next, retained⟩ := @ClassQueryEngine.Live.retain compiled _ strictSupers
                  (live.keep evaluated kept) (some query.toQueryTables, kind, direct) (some result) (by
                intro _ other kind' direct' value equal answered
                obtain ⟨first, rest⟩ := Prod.mk.inj equal
                obtain ⟨rfl, rfl⟩ := Prod.mk.inj rest
                exact ⟨initial, Option.some.inj first ▸ evaluated, found.trans answered⟩)
                  fun _ {_ _ _} same => absurd (Prod.mk.inj same).1 (by simp)
                refine ⟨next, fun _ {_ _} same _ evaluated' => Or.inr ?_,
                  fun _ absurdity => absurd absurdity (by simp)⟩
                rw [← own same evaluated', found]
                exact retained

/-- Every reached engine is live. -/
theorem ClassQueryEngine.Reached.live (reached : engine.Reached compiled) :
    ∃ strictSupers, engine.Live compiled strictSupers := by
  induction reached with
  | opened reachable opened => exact ClassQueryEngine.Live.opened reachable opened
  | queried _ payload kind direct ih =>
    obtain ⟨strictSupers, live⟩ := ih
    exact ⟨strictSupers, (live.query payload kind direct).1⟩

end

end PyElk
