import PyElk.Reasoning.Entailment
import PyElk.Semantics.Overlay
import PyElk.Semantics.Soundness

open Ordered

namespace PyElk

/-- Every value passes a check that a run over all of them has passed. -/
theorem mapM_all {α : Type} {f : α → Option Bool} {values : List α} {results : List Bool}
    (mapped : values.mapM f = some results) (passed : results.all id) : ∀ x ∈ values, f x = some true := by
  induction values generalizing results with
  | nil => exact fun x member => absurd member List.not_mem_nil
  | cons first rest ih =>
    rw [List.mapM_cons] at mapped
    obtain ⟨y, found, after⟩ := Option.bind_eq_some_iff.mp mapped
    obtain ⟨others, tail, last⟩ := Option.bind_eq_some_iff.mp after
    cases last
    rw [List.all_cons, Bool.and_eq_true] at passed
    intro x member
    rcases List.mem_cons.mp member with rfl | later
    · rw [found, show y = true from passed.1]
    · exact ih tail passed.2 x later

theorem demandedRoots_singleton {roots : List ExpressionId} : demandedRoots [roots] = {root | root ∈ roots} := by
  ext root
  simp [demandedRoots]

section

variable {Δ : Type u} {I : Interpretation Δ}

/-- A table without ranges asks less of an interpretation. -/
theorem Interpretation.Satisfies.withoutRanges {ontology : CompiledOntology}
    (satisfies : I.Satisfies ontology.toTables) :
    I.Satisfies ontology.withoutRanges.toTables where
  subclass := satisfies.subclass
  equivalent := satisfies.equivalent
  disjoint := satisfies.disjoint
  subproperty := satisfies.subproperty
  range := fun row => absurd row List.not_mem_nil

/-- The subsumers of a context of a saturation without ranges. -/
theorem Interpretation.Satisfies.subsumers {compiled : Tables} (valid : compiled.Valid)
    (satisfies : I.Satisfies compiled) (unranged : compiled.propertyRanges = []) {batches : List (List ExpressionId)}
    {context : Context} (mirrors : context.Mirrors
      {c | Derivable compiled (closeProperties compiled) (demandedRoots batches) c}) :
    (context.inconsistent → I.ext compiled context.root = ∅) ∧
      ∀ super ∈ contextSubsumers context, I.ext compiled context.root ⊆ I.ext compiled super := by
  have ranges : ∀ property, (closeProperties compiled).ranges property = [] := by
    intro property
    refine List.eq_nil_iff_forall_not_mem.mpr fun range inherited => ?_
    obtain ⟨super, listed, _⟩ := (closeProperties_spec valid).range_iff.mp inherited
    rw [unranged] at listed
    exact absurd listed List.not_mem_nil
  have meaning : ∀ c : Conclusion, c.destination = context.root → context.Holds c →
      I.Meaning compiled (closeProperties compiled) (I.ext compiled) c := by
    intro c owned holds
    have justified : Justified compiled (closeProperties compiled) (demandedRoots batches) Set.univ c :=
      Derivable.justified ranges ((mirrors c owned).mp holds)
    have sound := satisfies.sound valid justified
    rwa [show I.members compiled (closeProperties compiled) (demandedRoots batches) Set.univ = I.ext compiled from
      funext fun d => I.members_kept (Set.mem_univ d)] at sound
  refine ⟨meaning (.classInconsistency context.root) rfl, ?_⟩
  intro super member
  rcases List.mem_cons.mp member with rfl | member
  · exact subset_rfl
  · rcases List.mem_append.mp member with composed | decomposed
    · exact meaning (.subClassInclusionComposed context.root super) rfl composed
    · exact meaning (.subClassInclusionDecomposed context.root super) rfl decomposed

/-- A positive decision is an inclusion in every model of the ontology. -/
theorem decideObligations_sound {compiled : CompiledOntology} {query : QueryIR}
    (decided : decideObligations compiled query.toQueryTables = some true)
    (satisfies : I.Satisfies compiled.toTables) {sub super : ExpressionId}
    (obligation : (sub, super) ∈ query.subsumptionObligations) :
    I.extension query.entityRecords query.expressions sub ⊆
      I.extension query.entityRecords query.expressions super := by
  obtain ⟨overlay, installed, after⟩ := Option.bind_eq_some_iff.mp decided
  obtain ⟨engine, returned, decisions⟩ := Option.bind_eq_some_iff.mp after
  obtain ⟨results, mapped, passed⟩ := Option.map_eq_some_iff.mp decisions
  obtain ⟨rfl, -⟩ := Tables.saturate_ok overlay.ontology.withoutRanges.valid (toOption_eq_some.mp returned)
  obtain ⟨index, handles, holds, complete, frozen, remapped⟩ := installQuery_spec compiled.valid installed
  have overlaid : I.Satisfies overlay.ontology.withoutRanges.toTables :=
    (holds.satisfies compiled.valid overlay.ontology.valid complete frozen satisfies).withoutRanges
  obtain ⟨left, right⟩ := validateSortedPairs_lt query.valid.obligations obligation
  have same : ∀ {expression}, expression < query.expressions.length →
      I.ext overlay.ontology.withoutRanges.toTables (overlay.queryIds.getD expression 0) =
        I.extension query.entityRecords query.expressions expression :=
    fun bound => I.ext_remapped overlay.ontology.valid query.valid.expressions remapped bound
  have ranged : ∀ root ∈ demandedRoots [sortedSet id ((overlay.obligations query.toQueryTables).map Prod.fst)],
      root < overlay.ontology.withoutRanges.expressions.length := by
    rw [demandedRoots_singleton]
    intro root member
    obtain ⟨mapped', listed, rfl⟩ := List.mem_map.mp (mem_sortedSet.mp member)
    obtain ⟨row, recorded, rfl⟩ := List.mem_map.mp listed
    have bound := (validateSortedPairs_lt query.valid.obligations recorded).1
    obtain ⟨expression, found, entry, _⟩ :=
      (remapExpressions_spec remapped).2 (List.getElem?_eq_getElem bound)
    rw [List.length_nil, Nat.zero_add] at found
    dsimp only
    rw [List.getD_eq_getElem?_getD, found, Option.getD_some]
    exact (List.getElem?_eq_some_iff.mp entry).1
  have listed :
    (overlay.queryIds.getD sub 0, overlay.queryIds.getD super 0) ∈ overlay.obligations query.toQueryTables :=
    List.mem_map.mpr ⟨(sub, super), obligation, rfl⟩
  have demanded : overlay.queryIds.getD sub 0 ∈
      demandedRoots [sortedSet id ((overlay.obligations query.toQueryTables).map Prod.fst)] := by
    rw [demandedRoots_singleton]
    exact mem_sortedSet.mpr (List.mem_map.mpr ⟨_, listed, rfl⟩)
  obtain ⟨context, found, root, mirrors⟩ := overlay.ontology.withoutRanges.toTables.snapshot_context
    overlay.ontology.withoutRanges.valid ranged (.start ⟨_, demanded, rfl⟩)
  have verdict := mapM_all mapped passed _ listed
  rw [decideObligation, found, Option.map_some, Option.some.injEq, Bool.or_eq_true, decide_eq_true_eq] at verdict
  obtain ⟨empty, below⟩ := overlaid.subsumers overlay.ontology.withoutRanges.valid rfl mirrors
  rw [root, same left] at empty below
  rcases verdict with inconsistent | member
  · rw [empty inconsistent]
    exact Set.empty_subset _
  · exact (below _ member).trans (same right).subset

end

/-- A session and the decisions it has retained: a positive one was decided over
the overlay, or the ontology is inconsistent. -/
structure EntailmentEngine.Sound (compiled : CompiledOntology) (engine : EntailmentEngine) : Prop where
  session : engine.session.Reachable compiled
  cached : ∀ query : QueryTables, engine.cache.lookup (some query) = some true →
    decideObligations compiled query = some true ∨ engine.session.JudgedInconsistent

section

variable {compiled : CompiledOntology} {engine : EntailmentEngine}

theorem EntailmentEngine.Sound.new : EntailmentEngine.Sound compiled { session := { compiled := compiled } } where
  session := .fresh
  cached := fun _ found => absurd found (by simp)

theorem EntailmentEngine.Sound.retain (sound : engine.Sound compiled) {payload : Option QueryTables} {result : Bool}
    (justified : ∀ query, payload = some query → result = true →
      decideObligations compiled query = some true ∨ engine.session.JudgedInconsistent) :
    (engine.retain payload result).Sound compiled := by
  refine ⟨sound.session, fun query found => ?_⟩
  rw [EntailmentEngine.retain, List.lookup_cons] at found
  split at found
  · rename_i same
    exact justified query (beq_iff_eq.mp same).symm (Option.some.inj found)
  · exact sound.cached query found

/-- A request keeps every retained decision sound. -/
theorem EntailmentEngine.Sound.advance (sound : engine.Sound compiled) {stage : Stage}
    (known : Stage.consistency.code ≤ stage.code) (order : engine.session.stage.code ≤ stage.code)
    (returned : compiled.Returned stage) :
    EntailmentEngine.Sound compiled { engine with session := .reached compiled stage } :=
  ⟨.reached known returned, fun query found =>
    (sound.cached query found).imp_right fun judged => sound.session.judged judged known order⟩

/-- One call of `entails`. -/
theorem EntailmentEngine.Sound.entails (sound : engine.Sound compiled) (payload : Option QueryIR) :
    (engine.entails payload).1.Sound compiled ∧ ∀ query : QueryIR, payload = some query →
      (engine.entails payload).2 = some true → decideObligations compiled query.toQueryTables = some true ∨
        engine.session.JudgedInconsistent := by
  unfold EntailmentEngine.entails
  split
  · rename_i cached found
    refine ⟨sound, ?_⟩
    rintro query rfl answer
    rw [Option.some.inj answer] at found
    exact sound.cached query.toQueryTables found
  · exact ⟨sound.retain fun _ named _ => absurd named (by simp), fun _ named => absurd named (by simp)⟩
  · rename_i query _
    split
    · split
      · exact ⟨sound, fun _ _ answer => absurd answer (by simp)⟩
      · rename_i session consistency answered
        obtain ⟨stage, known, order, returned, rfl, rfl⟩ := sound.session.ensureConsistency answered
        have asked := sound.advance known order returned
        dsimp only
        split
        · rename_i inconsistent
          refine ⟨asked.retain fun _ _ _ => Or.inr ?_, fun _ _ _ => Or.inr ⟨_, _, answered, inconsistent⟩⟩
          exact (SaturationSession.reached_judged known).mpr inconsistent
        · split
          · exact ⟨asked, fun _ _ answer => absurd answer (by simp)⟩
          · rename_i result decided
            refine ⟨asked.retain ?_, ?_⟩
            · rintro other named rfl
              obtain rfl := Option.some.inj named
              exact Or.inl decided
            · rintro other named answer
              obtain rfl := Option.some.inj named
              rw [Option.some.inj answer] at decided
              exact Or.inl decided
    · exact ⟨sound, fun _ _ answer => absurd answer (by simp)⟩

theorem EntailmentEngine.Sound.serve (sound : engine.Sound compiled) (request : EngineRequest) :
    (engine.serve request).Sound compiled := by
  cases request with
  | entails payload => exact (sound.entails payload).1
  | classify =>
    show (engine.proceed _).Sound compiled
    cases found : engine.session.ensureClassified with
    | error raised => exact sound
    | ok answer =>
      obtain ⟨stage, late, order, returned, same, _⟩ := sound.session.ensureClassified found
      have known : Stage.consistency.code ≤ stage.code := late.trans' (by decide)
      rw [EntailmentEngine.proceed, same]
      exact sound.advance known order returned
  | realize =>
    show (engine.proceed _).Sound compiled
    cases found : engine.session.ensureRealized with
    | error raised => exact sound
    | ok answer =>
      obtain ⟨returned, same, _⟩ := sound.session.ensureRealized found
      have order : engine.session.stage.code ≤ Stage.realized.code := by cases engine.session.stage <;> decide
      rw [EntailmentEngine.proceed, same]
      exact sound.advance (by decide) order returned

theorem EntailmentEngine.after_sound (requests : List EngineRequest) :
    (EntailmentEngine.after compiled requests).Sound compiled := by
  unfold after
  generalize start : ({ session := { compiled := compiled } } : EntailmentEngine) = engine
  have sound : engine.Sound compiled := start ▸ .new
  clear start
  induction requests generalizing engine with
  | nil => exact sound
  | cons request rest ih => exact ih _ (sound.serve request)

end

/-- Entailment checking is sound: at whatever point of a session a question is
answered with yes, unless the session judges the ontology inconsistent, every
obligation of the question holds in every interpretation of the axiom rows. -/
theorem entails_sound (compiled : CompiledOntology) (requests : List EngineRequest) (query : QueryIR)
    (answer : ((EntailmentEngine.after compiled requests).entails (some query)).2 = some true)
    (consistent : ∀ next state,
      (EntailmentEngine.after compiled requests).session.ensureConsistency = .ok (next, state) →
      state.inconsistent = false)
    {Δ : Type u} (I : Interpretation Δ) (satisfies : I.Satisfies compiled.toTables) :
    ∀ obligation ∈ query.subsumptionObligations,
      I.extension query.entityRecords query.expressions obligation.1 ⊆
        I.extension query.entityRecords query.expressions obligation.2 := by
  rintro ⟨sub, super⟩ obligation
  rcases ((EntailmentEngine.after_sound requests).entails (some query)).2 query rfl answer with decided | judged
  · exact decideObligations_sound decided satisfies obligation
  · obtain ⟨next, state, found, inconsistent⟩ := judged
    exact absurd ((consistent next state found).symm.trans inconsistent) Bool.false_ne_true

/-- The question whether `Parent ⊑ ∃hasKin.Parent`. -/
def kinshipQuestion : QueryIR where
  kind := .entailment
  entities := [⟨⟨.owlClass, "ex:Parent"⟩, some 0⟩, ⟨⟨.objectProperty, "ex:hasKin"⟩, some 4⟩]
  expressions := [⟨.owlClass, [0], []⟩, ⟨.objectSomeValuesFrom, [1, 0], []⟩]
  expressionOccurrences := [⟨1, 1⟩, ⟨1, 0⟩]
  propertyOccurrences := [⟨1, 0⟩]
  rootExpression := none
  subsumptionObligations := [(0, 1)]
  valid := by decide +kernel

/-- One element that belongs to every class but `owl:Nothing`. -/
def fullInterpretation : Interpretation Unit where
  classes iri := {_x | iri ≠ OWL_NOTHING_IRI}
  individuals _ := ()
  objectProperties iri _ _ := iri ≠ OWL_BOTTOM_OBJECT_PROPERTY_IRI
  dataValues _ _ := Set.univ
  thing := Set.eq_univ_of_forall fun _ => (by decide : OWL_THING_IRI ≠ OWL_NOTHING_IRI)
  nothing := Set.eq_empty_iff_forall_notMem.mpr fun _ member => member rfl
  topProperty _ _ := by decide
  bottomProperty _ _ holds := holds rfl

theorem fullInterpretation_kinship : fullInterpretation.Satisfies kinshipTables := by
  have valid : kinshipTables.Valid := kinshipOntology.valid
  have parent : ∀ x, x ∈ fullInterpretation.ext kinshipTables 0 := by
    intro x
    rw [Interpretation.ext_class valid (⟨[], rfl⟩ : kinshipTables.Built 0 .owlClass [0])]
    exact (by decide : "ex:Parent" ≠ OWL_NOTHING_IRI)
  have person : ∀ x, x ∈ fullInterpretation.ext kinshipTables 1 := by
    intro x
    rw [Interpretation.ext_class valid (⟨[], rfl⟩ : kinshipTables.Built 1 .owlClass [1])]
    exact (by decide : "ex:Person" ≠ OWL_NOTHING_IRI)
  have kin : ∀ x y, fullInterpretation.rel kinshipTables 4 x y :=
    fun _ _ => (by decide : "ex:hasKin" ≠ OWL_BOTTOM_OBJECT_PROPERTY_IRI)
  refine ⟨?_, fun row => absurd row List.not_mem_nil, fun row => absurd row List.not_mem_nil, ?_,
    fun row => absurd row List.not_mem_nil⟩
  · intro sub super row
    rcases List.mem_pair.mp row with same | same <;> cases same <;> intro x _
    · rw [Interpretation.ext_some valid (⟨[], rfl⟩ : kinshipTables.Built 5 .objectSomeValuesFrom [4, 1])]
      exact ⟨x, person x, kin x x⟩
    · rw [Interpretation.ext_some valid (⟨[], rfl⟩ : kinshipTables.Built 4 .objectSomeValuesFrom [4, 0])]
      exact ⟨x, parent x, kin x x⟩
  · intro index super chain row _ x y _
    cases List.mem_singleton.mp row
    exact kin x y

theorem kinshipSession_consistent : ∀ next state,
    (EntailmentEngine.after kinshipOntology []).session.ensureConsistency = .ok (next, state) →
    state.inconsistent = false := by
  intro next state found
  have judged : (EntailmentEngine.after kinshipOntology []).session.ensureConsistency.toOption.map
      (fun row => row.2.inconsistent) = some false := by decide +kernel
  rw [found] at judged
  exact Option.some.inj judged

theorem entails_sound_kinship :
    fullInterpretation.extension kinshipQuestion.entityRecords kinshipQuestion.expressions 0 ⊆
      fullInterpretation.extension kinshipQuestion.entityRecords kinshipQuestion.expressions 1 :=
  entails_sound kinshipOntology [] kinshipQuestion (by decide +kernel) kinshipSession_consistent fullInterpretation
    fullInterpretation_kinship (0, 1) (List.mem_singleton_self _)

end PyElk
