import PyElk.Reasoning.ClassQuery
import PyElk.Reasoning.NonInterference
import PyElk.Semantics.Overlay

open Ordered

namespace PyElk

/-- The frozen context of a root that an engine of its own has saturated. -/
def Tables.isolatedContext (compiled : Tables) (root : ExpressionId) : Option Context :=
  (compiled.fixpoint [[root]]).snapshot.find? fun context => context.root == root

/-- The isolated saturation derives `super` among the subsumers of `sub`. -/
def Tables.Subsumed (compiled : Tables) (sub super : ExpressionId) : Prop :=
  Derivable compiled (closeProperties compiled) {sub} (.subClassInclusionComposed sub super)

/-- The isolated saturation of a root derives a contradiction. -/
def Tables.Contradictory (compiled : Tables) (root : ExpressionId) : Prop :=
  Derivable compiled (closeProperties compiled) {root} (.classInconsistency root)

/-- Two contexts that a selection cannot tell apart. -/
def Context.Agrees (left right : Context) : Prop :=
  contextSubsumers left = contextSubsumers right ∧ left.inconsistent = right.inconsistent

theorem demandedRoots_single {root : ExpressionId} : demandedRoots [[root]] = {root} := by
  ext other
  simp [demandedRoots]

/-- A frozen context shows its verdict. -/
theorem Context.agrees_freeze {left right : Context} (root : left.root = right.root)
    (same : left.verdict = right.verdict) : left.freeze.Agrees right.freeze := by
  obtain ⟨composed, rest⟩ := Prod.mk.inj same
  obtain ⟨decomposed, inconsistent⟩ := Prod.mk.inj rest
  refine ⟨?_, inconsistent⟩
  unfold contextSubsumers
  rw [composed, decomposed, freeze_root, freeze_root, root]

section

variable {compiled : Tables} (valid : compiled.Valid) {batches : List (List ExpressionId)}
  (ranged : ∀ root ∈ demandedRoots batches, root < compiled.expressions.length)

include valid ranged

/-- The snapshot holds the frozen contexts of the engine. -/
theorem Tables.snapshot_find {root : ExpressionId} :
    (compiled.fixpoint batches).snapshot.find? (fun context => context.root == root) =
      ((compiled.fixpoint batches).contextState root).map fun state => state.toContext.freeze := by
  cases found : (compiled.fixpoint batches).contextState root with
  | some state =>
    obtain ⟨member, rfl⟩ := SaturationEngine.mem_of_contextState found
    have stores := (compiled.fixpoint_spec valid ranged).1.saturating.distinct
    rw [SaturationEngine.stores, List.map_map] at stores
    refine snapshotContexts_find ?_ (List.mem_map_of_mem member)
    rw [List.map_map]
    exact stores
  | none =>
    rw [Option.map_none, List.find?_eq_none]
    intro context listed same
    obtain ⟨other, frozen, rfl⟩ := List.mem_map.mp listed
    obtain ⟨state, member, rfl⟩ := List.mem_map.mp (mem_sortedBy.mp frozen)
    have present := SaturationEngine.contextState_isSome.mpr ⟨state, member, beq_iff_eq.mp same⟩
    rw [found] at present
    exact Bool.false_ne_true present

/-- Only activated roots have a context, and these are expressions of the table. -/
theorem Tables.contextState_activated {root : ExpressionId} {state : ContextState}
    (found : (compiled.fixpoint batches).contextState root = some state) :
    Derivable compiled (closeProperties compiled) (demandedRoots batches) (.contextInitialization root) ∧
      root < compiled.expressions.length := by
  have activated : Derivable compiled (closeProperties compiled) (demandedRoots batches)
      (.contextInitialization root) := by
    by_contra idle
    rw [fixpoint, compiled.contextState_fixpointWith_eq_none valid
      (closeProperties_scoped valid) ranged idle] at found
    cases found
  exact ⟨activated, (activated.inRange valid (closeProperties_scoped valid) ranged).destination⟩

end

section

variable {ontology : CompiledOntology}

/-- Without ranges the snapshot of any engine agrees with the isolated contexts. -/
theorem CompiledOntology.snapshot_agrees (noRanges : ontology.propertyRanges = [])
    {batches : List (List ExpressionId)}
    (ranged : ∀ root ∈ demandedRoots batches, root < ontology.expressions.length) {root : ExpressionId}
    {context : Context}
    (found : (ontology.fixpoint batches).snapshot.find? (fun context => context.root == root) = some context) :
    root < ontology.expressions.length ∧ ∃ isolated, ontology.isolatedContext root = some isolated ∧
      context.Agrees isolated := by
  rw [Tables.snapshot_find ontology.valid ranged] at found
  obtain ⟨state, present, rfl⟩ := Option.map_eq_some_iff.mp found
  obtain ⟨activated, inside⟩ := Tables.contextState_activated ontology.valid ranged present
  have single : ∀ other ∈ demandedRoots [[root]], other < ontology.expressions.length := by
    rw [demandedRoots_single]
    rintro other rfl
    exact inside
  have started : Derivable ontology.toTables (closeProperties ontology.toTables) (demandedRoots [[root]])
      (.contextInitialization root) := by
    rw [demandedRoots_single]
    exact .start ⟨root, rfl, rfl⟩
  obtain ⟨state', present', same, holds⟩ := Tables.contextState_fixpoint ontology.valid ranged activated
  obtain ⟨alone, isolated, root', holds'⟩ := Tables.contextState_fixpoint ontology.valid single started
  obtain rfl := Option.some.inj (present.symm.trans present')
  have local_ : ∀ {roots}, RangesLocal ontology.toTables (closeProperties ontology.toTables) roots :=
    rangesLocal_of_none ontology.valid noRanges
  refine ⟨inside, alone.toContext.freeze, ?_, Context.agrees_freeze (same.trans root'.symm) ?_⟩
  · rw [Tables.isolatedContext, Tables.snapshot_find ontology.valid single, isolated]
    rfl
  · refine Context.verdict_congr fun c owned judges => ?_
    rw [same] at owned
    rw [holds c owned, holds' c owned]
    refine Derivable.transfer_iff local_ local_ ?_ ?_
    · rw [judges.supported, owned]
      exact activated
    · rw [judges.supported, owned]
      exact started

/-- What the isolated context of an expression says. -/
theorem CompiledOntology.isolatedContext_spec {root : ExpressionId} (inside : root < ontology.expressions.length) :
    ∃ context, ontology.isolatedContext root = some context ∧
      (∀ super, super ∈ contextSubsumers context ↔ ontology.Subsumed root super) ∧
      (context.inconsistent ↔ ontology.Contradictory root) := by
  have single : ∀ other ∈ demandedRoots [[root]], other < ontology.expressions.length := by
    rw [demandedRoots_single]
    rintro other rfl
    exact inside
  have started : Derivable ontology.toTables (closeProperties ontology.toTables) (demandedRoots [[root]])
      (.contextInitialization root) := by
    rw [demandedRoots_single]
    exact .start ⟨root, rfl, rfl⟩
  obtain ⟨context, found, same, mirrors⟩ := Tables.snapshot_context ontology.valid single started
  rw [demandedRoots_single] at mirrors started
  refine ⟨context, found, fun super => ?_, mirrors (.classInconsistency root) same.symm⟩
  have composed := mirrors (.subClassInclusionComposed root super) same.symm
  have decomposed := mirrors (.subClassInclusionDecomposed root super) same.symm
  unfold contextSubsumers Tables.Subsumed
  rw [List.mem_cons, List.mem_append]
  constructor
  · rintro (rfl | found | found)
    · rw [same]
      exact .unary (.unary started .tautology) .composedOfDecomposed
    · exact composed.mp found
    · exact .unary (decomposed.mp found) .composedOfDecomposed
  · exact fun derivable => Or.inr (Or.inl (composed.mpr derivable))

end

/-- The reader of the isolated contexts. -/
def Overlay.reader (overlay : Overlay) : ContextReader := .of overlay.ontology.isolatedContext

/-- Two readers agree on an expression. -/
def ContextReader.AgreesAt (left right : ContextReader) (expression : ExpressionId) : Prop :=
  left.subsumers expression = right.subsumers expression ∧
    left.inconsistent expression = right.inconsistent expression

section

variable {overlay : Overlay} {x y : ExpressionId} (inside : x < overlay.ontology.expressions.length)

include inside

theorem Overlay.mem_subsumers : y ∈ overlay.reader.subsumers x ↔ overlay.ontology.Subsumed x y := by
  obtain ⟨context, found, spec, -⟩ := overlay.ontology.isolatedContext_spec inside
  simp only [← spec y, reader, ContextReader.of, found, Option.elim_some]

theorem Overlay.inconsistent_iff : overlay.reader.inconsistent x ↔ overlay.ontology.Contradictory x := by
  obtain ⟨context, found, -, spec⟩ := overlay.ontology.isolatedContext_spec inside
  simp only [← spec, reader, ContextReader.of, found, Option.elim_some]

end

/-- The contexts of an evaluation are those of the isolated roots, whatever was read before. -/
structure QueryEvaluation.Live (evaluation : QueryEvaluation) : Prop where
  properties : saturateProperties evaluation.overlay.ontology.toTables = .ok evaluation.properties
  engine : ∃ batches, (∀ root ∈ demandedRoots batches, root < evaluation.overlay.ontology.expressions.length) ∧
    evaluation.overlay.ontology.saturate batches = .ok evaluation.engine
  contexts : ∀ {root context}, evaluation.context root = some context →
    root < evaluation.overlay.ontology.expressions.length ∧
      ∃ isolated, evaluation.overlay.ontology.isolatedContext root = some isolated ∧ context.Agrees isolated

/-- The same overlay with other contexts read. -/
def QueryEvaluation.withContexts (evaluation : QueryEvaluation) (engine : SaturationEngine)
    (contexts : List Context) :
    QueryEvaluation :=
  { evaluation with engine := engine, contexts := contexts }

/-- Some run over the overlay of a query raises. -/
def Overlay.Raises (overlay : Overlay) : Prop :=
  ∃ batches, (∀ root ∈ demandedRoots batches, root < overlay.ontology.expressions.length) ∧
    ∀ engine, overlay.ontology.saturate batches ≠ .ok engine

section

variable {evaluation : QueryEvaluation} {roots requested : List ExpressionId} {root : ExpressionId}

theorem Tables.isolatedContext_root {compiled : Tables} {root : ExpressionId} {context : Context}
    (found : compiled.isolatedContext root = some context) : context.root = root := by
  have same := List.find?_some found
  exact beq_iff_eq.mp same

theorem demandedRoots_single_lt {compiled : Tables} (inside : root < compiled.expressions.length) :
    ∀ other ∈ demandedRoots [[root]], other < compiled.expressions.length := by
  rw [demandedRoots_single]
  rintro other rfl
  exact inside

/-- The shared engine on more roots. -/
theorem QueryEvaluation.Live.run (live : evaluation.Live)
    (noRanges : evaluation.overlay.ontology.propertyRanges = [])
    (ranged : ∀ root ∈ requested, root < evaluation.overlay.ontology.expressions.length) :
    (∃ raised, evaluation.engine.run requested = .error raised) ∧ evaluation.overlay.Raises ∨
    ∃ engine, evaluation.engine.run requested = .ok engine ∧
      (∃ batches, (∀ root ∈ demandedRoots batches, root < evaluation.overlay.ontology.expressions.length) ∧
        evaluation.overlay.ontology.saturate batches = .ok engine) ∧
      (∀ {root context}, engine.snapshot.find? (fun context => context.root == root) = some context →
        root < evaluation.overlay.ontology.expressions.length ∧
          ∃ isolated, evaluation.overlay.ontology.isolatedContext root = some isolated ∧ context.Agrees isolated) ∧
      ∀ root ∈ requested, (engine.snapshot.find? fun context => context.root == root).isSome := by
  obtain ⟨batches, inside, returned⟩ := live.engine
  have all : ∀ root ∈ demandedRoots (batches ++ [requested]),
      root < evaluation.overlay.ontology.expressions.length := by
    rintro root ⟨batch, listed, member⟩
    rcases List.mem_append.mp listed with early | late
    · exact inside root ⟨batch, early, member⟩
    · rw [List.mem_singleton.mp late] at member
      exact ranged root member
  have again : evaluation.overlay.ontology.saturate (batches ++ [requested]) = evaluation.engine.run requested := by
    rw [Tables.saturate_snoc, returned]
    rfl
  cases run : evaluation.engine.run requested with
  | error raised =>
    refine Or.inl ⟨⟨raised, rfl⟩, batches ++ [requested], all, fun engine returned => ?_⟩
    rw [again, run] at returned
    cases returned
  | ok engine =>
    rw [run] at again
    obtain ⟨rfl, -⟩ := Tables.saturate_ok evaluation.overlay.ontology.valid again
    refine Or.inr ⟨_, rfl, ⟨_, all, again⟩, fun found => ?_, fun root listed => ?_⟩
    · exact evaluation.overlay.ontology.snapshot_agrees noRanges all found
    · have demanded : root ∈ demandedRoots (batches ++ [requested]) :=
        ⟨_, List.mem_append_right _ (.head _), listed⟩
      obtain ⟨context, found, -⟩ := Tables.snapshot_context evaluation.overlay.ontology.valid all
        (.start ⟨root, demanded, rfl⟩)
      rw [found]
      rfl

/-- An engine for one root. -/
theorem QueryEvaluation.Live.runAlone (live : evaluation.Live) (root : ExpressionId) :
    (SaturationEngine.new evaluation.overlay.ontology.toTables evaluation.properties).run [root] =
      evaluation.overlay.ontology.saturate [[root]] := by
  rw [Tables.saturate_eq live.properties]
  exact (bind_pure _).symm

/-- The engines for one root each. -/
theorem QueryEvaluation.Live.runEach (live : evaluation.Live)
    (ranged : ∀ root ∈ requested, root < evaluation.overlay.ontology.expressions.length) :
    let read := requested.mapM fun root =>
      ((SaturationEngine.new evaluation.overlay.ontology.toTables evaluation.properties).run [root]).toOption.bind
        fun engine => engine.snapshot.find? fun context => context.root == root
    read = none ∧ evaluation.overlay.Raises ∨ ∃ contexts, read = some contexts ∧
      ∀ context, context ∈ contexts ↔
        ∃ root ∈ requested, evaluation.overlay.ontology.isolatedContext root = some context := by
  intro read
  have each : ∀ root ∈ requested, ∀ engine, evaluation.overlay.ontology.saturate [[root]] = .ok engine →
      (((SaturationEngine.new evaluation.overlay.ontology.toTables evaluation.properties).run [root]).toOption.bind
        fun engine => engine.snapshot.find? fun context => context.root == root) =
        evaluation.overlay.ontology.isolatedContext root := by
    intro root listed engine returned
    rw [live.runAlone, returned, (Tables.saturate_ok evaluation.overlay.ontology.valid returned).1]
    rfl
  by_cases returns : ∀ root ∈ requested, ∃ engine, evaluation.overlay.ontology.saturate [[root]] = .ok engine
  · have found : ∀ root ∈ requested, ∃ context,
        (((SaturationEngine.new evaluation.overlay.ontology.toTables evaluation.properties).run [root]).toOption.bind
          fun engine => engine.snapshot.find? fun context => context.root == root) = some context := by
      intro root listed
      obtain ⟨engine, returned⟩ := returns root listed
      obtain ⟨context, isolated, -⟩ := evaluation.overlay.ontology.isolatedContext_spec (ranged root listed)
      exact ⟨context, (each root listed engine returned).trans isolated⟩
    obtain ⟨contexts, mapped, spec⟩ := exists_mapM found
    refine Or.inr ⟨contexts, mapped, fun context => (spec context).trans (exists_congr fun root => ?_)⟩
    refine and_congr_right fun listed => ?_
    obtain ⟨engine, returned⟩ := returns root listed
    rw [each root listed engine returned]
  · push Not at returns
    obtain ⟨root, listed, raises⟩ := returns
    refine Or.inl ⟨Option.eq_none_iff_forall_ne_some.mpr fun contexts mapped => ?_, [[root]],
      demandedRoots_single_lt (ranged root listed), raises⟩
    obtain ⟨context, found⟩ := mapM_defined mapped root listed
    obtain ⟨engine, returned, -⟩ := Option.bind_eq_some_iff.mp found
    rw [live.runAlone] at returned
    exact raises engine (toOption_eq_some.mp returned)

/-- Reading more contexts keeps an evaluation live and the contexts that were there, unless a run raises. -/
theorem QueryEvaluation.Live.read (live : evaluation.Live)
    (ranged : ∀ root ∈ roots, root < evaluation.overlay.ontology.expressions.length) :
    evaluation.ensureContexts roots = none ∧ evaluation.overlay.Raises ∨
    ∃ engine contexts, evaluation.ensureContexts roots = some (evaluation.withContexts engine contexts) ∧
      (evaluation.withContexts engine contexts).Live ∧
      ∀ root, root ∈ roots ∨ (evaluation.context root).isSome →
        ((evaluation.withContexts engine contexts).context root).isSome := by
  have requested : ∀ {root}, root ∈ sortedSet id (roots.filter fun root => (evaluation.context root).isNone) ↔
      root ∈ roots ∧ (evaluation.context root).isNone := by
    intro root
    rw [mem_sortedSet, List.mem_filter]
  have inside : ∀ root ∈ sortedSet id (roots.filter fun root => (evaluation.context root).isNone),
      root < evaluation.overlay.ontology.expressions.length := fun root listed => ranged root (requested.mp listed).1
  -- the new contexts are looked up before those that were there
  have later : ∀ {engine : SaturationEngine} {contexts : List Context} {root : ExpressionId},
      (evaluation.withContexts engine (contexts ++ evaluation.contexts)).context root =
        (contexts.find? fun context => context.root == root).or (evaluation.context root) :=
    List.find?_append
  have present : ∀ {engine : SaturationEngine} {contexts : List Context},
      (∀ root ∈ sortedSet id (roots.filter fun root => (evaluation.context root).isNone),
        (contexts.find? fun context => context.root == root).isSome) →
      ∀ root, root ∈ roots ∨ (evaluation.context root).isSome →
        ((evaluation.withContexts engine (contexts ++ evaluation.contexts)).context root).isSome := by
    intro engine contexts read root known
    rw [later, Option.isSome_or, Bool.or_eq_true]
    by_cases missing : (evaluation.context root).isSome
    · exact Or.inr missing
    · exact Or.inl (read root (requested.mpr ⟨known.resolve_right missing, by
        rwa [Option.isNone_iff_eq_none, ← Option.not_isSome_iff_eq_none]⟩))
  unfold QueryEvaluation.ensureContexts
  dsimp only
  split
  · rename_i idle
    refine Or.inr ⟨evaluation.engine, evaluation.contexts, rfl, live, fun root known => ?_⟩
    by_contra missing
    have listed := known.resolve_right missing
    have member := requested.mpr ⟨listed, Option.isNone_iff_eq_none.mpr (Option.not_isSome_iff_eq_none.mp missing)⟩
    rw [List.isEmpty_iff.mp idle] at member
    exact List.not_mem_nil member
  · split
    · rename_i noRanges
      rcases live.run noRanges inside with ⟨⟨raised, run⟩, raises⟩ | ⟨engine, run, reached, read, found⟩
      · exact Or.inl ⟨by rw [run]; rfl, raises⟩
      · refine Or.inr ⟨engine, engine.snapshot ++ evaluation.contexts, by rw [run]; rfl,
          ⟨live.properties, reached, fun {root context} kept => ?_⟩, present found⟩
        rw [later, Option.or_eq_some_iff] at kept
        rcases kept with now | ⟨-, early⟩
        · exact read now
        · exact live.contexts early
    · rcases live.runEach inside with ⟨run, raises⟩ | ⟨contexts, run, spec⟩
      · exact Or.inl ⟨by rw [run]; rfl, raises⟩
      · refine Or.inr ⟨evaluation.engine, contexts ++ evaluation.contexts, by rw [run]; rfl,
          ⟨live.properties, live.engine, fun {root context} kept => ?_⟩, present fun root listed => ?_⟩
        · rw [later, Option.or_eq_some_iff] at kept
          rcases kept with now | ⟨-, early⟩
          · obtain ⟨other, listed, isolated⟩ := (spec context).mp (List.mem_of_find?_eq_some now)
            have same := List.find?_some now
            rw [Tables.isolatedContext_root isolated, beq_iff_eq] at same
            subst same
            exact ⟨inside other listed, context, isolated, rfl, rfl⟩
          · exact live.contexts early
        · obtain ⟨context, isolated, -⟩ := evaluation.overlay.ontology.isolatedContext_spec (inside root listed)
          exact List.find?_isSome.mpr ⟨context, (spec context).mpr ⟨root, listed, isolated⟩,
            beq_iff_eq.mpr (Tables.isolatedContext_root isolated)⟩

/-- What is read of a present context is what the isolated one says. -/
theorem QueryEvaluation.Live.agrees (live : evaluation.Live) (present : (evaluation.context root).isSome) :
    evaluation.reader.AgreesAt evaluation.overlay.reader root := by
  obtain ⟨context, found⟩ := Option.isSome_iff_exists.mp present
  obtain ⟨-, isolated, alone, subsumers, inconsistent⟩ := live.contexts found
  unfold QueryEvaluation.reader Overlay.reader ContextReader.AgreesAt ContextReader.of
  dsimp only
  rw [found, alone]
  exact ⟨subsumers, inconsistent⟩

end

end PyElk
