import PyElk.Reasoning.Consistency
import PyElk.Reasoning.Refusal

namespace PyElk

/-- Internal monotone reasoner stage. -/
inductive Stage
  | compiled | properties | consistency | classified | realized
  deriving DecidableEq, Repr

def Stage.code : Stage → Nat
  | compiled => 0
  | properties => 1
  | consistency => 2
  | classified => 3
  | realized => 4

/-- A saturation snapshot with the verdict that was current when it was taken. -/
structure SaturationSnapshot where
  contexts : List Context
  inconsistentOntology : Bool
  deriving DecidableEq, Repr

/-- `snapshot.contexts.get(root)`. -/
def SaturationSnapshot.context (snapshot : SaturationSnapshot) (root : ExpressionId) : Option Context :=
  snapshot.contexts.find? fun context => context.root == root

/-- Lazy monotone stages over one saturation engine. A request that raises is taken to leave the session
as it was: the stage is only advanced after the run, and a later run meets the refused premise again. -/
structure SaturationSession where
  compiled : CompiledOntology
  stage : Stage := .compiled
  properties : Option PropertySaturation := none
  engine : Option SaturationEngine := none
  consistency : Option ConsistencyState := none

section

variable (session : SaturationSession)

/-- `ensure_properties`. -/
def SaturationSession.ensureProperties : Except ReasoningError (SaturationSession × PropertySaturation) := do
  let properties ← match session.properties with
    | some properties => pure properties
    | none => saturateProperties session.compiled.toTables
  pure ({ session with
    properties := some properties
    stage := if session.stage.code < Stage.properties.code then .properties else session.stage }, properties)

/-- The `engine` property of the session. -/
def SaturationSession.ensureEngine : Except ReasoningError (SaturationSession × SaturationEngine) := do
  let (session, properties) ← session.ensureProperties
  let engine := session.engine.getD (SaturationEngine.new session.compiled.toTables properties)
  pure ({ session with engine := some engine }, engine)

/-- Running the engine on more roots and evaluating consistency over it. -/
def SaturationSession.runStage (stage : Stage) (roots : List ExpressionId) :
    Except ReasoningError (SaturationSession × ConsistencyState) := do
  let (session, engine) ← session.ensureEngine
  let engine ← engine.run roots
  let (session, properties) ← session.ensureProperties
  let consistency := evaluateConsistency session.compiled.toTables properties fun root =>
    (engine.contextState root).map (·.toContext)
  pure ({ session with stage := stage, engine := some engine, consistency := some consistency }, consistency)

def SaturationSession.ensureConsistency : Except ReasoningError (SaturationSession × ConsistencyState) :=
  match session.consistency with
  | some consistency =>
    if Stage.consistency.code ≤ session.stage.code then pure (session, consistency)
    else session.runStage .consistency session.compiled.consistencyRoots
  | none => session.runStage .consistency session.compiled.consistencyRoots

/-- `snapshot`. -/
def SaturationSession.snapshot : Except ReasoningError (SaturationSession × SaturationSnapshot) := do
  let inconsistent := (session.consistency.map ConsistencyState.inconsistent).getD false
  let (session, engine) ← session.ensureEngine
  pure (session, ⟨engine.snapshot, inconsistent⟩)

/-- The session after a stage that enumerates the expressions of one tag. -/
def SaturationSession.advance (stage : Stage) (tag : ExpressionTag) : Except ReasoningError SaturationSession :=
  if session.stage.code < stage.code then (session.runStage stage (session.compiled.rootsOf tag)).map Prod.fst
  else pure session

def SaturationSession.ensureClassified : Except ReasoningError (SaturationSession × SaturationSnapshot) := do
  let (session, _) ← session.ensureConsistency
  let session ← session.advance .classified .owlClass
  session.snapshot

def SaturationSession.ensureRealized : Except ReasoningError (SaturationSession × SaturationSnapshot) := do
  let (session, _) ← session.ensureClassified
  let session ← session.advance .realized .individual
  session.snapshot

end

/-- The batches of roots that a session has run when it reaches a stage. -/
def Tables.stageBatches (compiled : Tables) : Stage → List (List ExpressionId)
  | .compiled | .properties => []
  | .consistency => [compiled.consistencyRoots]
  | .classified => [compiled.consistencyRoots, compiled.rootsOf .owlClass]
  | .realized => [compiled.consistencyRoots, compiled.rootsOf .owlClass, compiled.rootsOf .individual]

/-- The consistency state of a session that has reached a stage. -/
def Tables.consistencyAt (compiled : Tables) (stage : Stage) : ConsistencyState :=
  compiled.consistencyOver (compiled.stageBatches stage)

def Tables.snapshotAt (compiled : Tables) (stage : Stage) : SaturationSnapshot :=
  ⟨(compiled.fixpoint (compiled.stageBatches stage)).snapshot, (compiled.consistencyAt stage).inconsistent⟩

/-- The only session that reaches a stage at which consistency is known. -/
def SaturationSession.reached (compiled : CompiledOntology) (stage : Stage) : SaturationSession where
  compiled := compiled
  stage := stage
  properties := some (closeProperties compiled.toTables)
  engine := some (compiled.fixpoint (compiled.stageBatches stage))
  consistency := some (compiled.consistencyAt stage)

/-- The runs of a session that has reached a stage have returned. -/
def Tables.Returned (compiled : Tables) (stage : Stage) : Prop :=
  compiled.saturate (compiled.stageBatches stage) = .ok (compiled.fixpoint (compiled.stageBatches stage))

/-- A session of an ontology: before consistency, or at a later stage. -/
inductive SaturationSession.Reachable (compiled : CompiledOntology) : SaturationSession → Prop
  | fresh : Reachable compiled { compiled := compiled }
  | reached {stage : Stage} (known : Stage.consistency.code ≤ stage.code) (returned : compiled.Returned stage) :
      Reachable compiled (.reached compiled stage)

/-- The later of two stages. -/
def Stage.max (stage other : Stage) : Stage := if stage.code < other.code then other else stage

section

variable {compiled : Tables} {batches more : List (List ExpressionId)}

theorem Tables.fixpoint_snoc {roots : List ExpressionId} :
    compiled.fixpoint (batches ++ [roots]) = (compiled.fixpoint batches).complete roots := List.foldl_append

/-- Further runs continue on the engine of the earlier ones. -/
theorem Tables.saturate_append : compiled.saturate (batches ++ more) =
    compiled.saturate batches >>= fun engine => more.foldlM SaturationEngine.run engine := by
  unfold saturate saturateWith
  cases saturateProperties compiled with
  | error raised => rfl
  | ok properties => exact List.foldlM_append

theorem Tables.saturate_snoc {roots : List ExpressionId} :
    compiled.saturate (batches ++ [roots]) = compiled.saturate batches >>= fun engine => engine.run roots := by
  rw [saturate_append]
  cases compiled.saturate batches with
  | error raised => rfl
  | ok engine => exact bind_pure (engine.run roots)

/-- Earlier runs need not be made twice. -/
theorem Tables.saturate_again : (compiled.saturate batches >>= fun _ => compiled.saturate (batches ++ more)) =
    compiled.saturate (batches ++ more) := by
  rw [saturate_append]
  cases compiled.saturate batches <;> rfl

end

section

variable {compiled : CompiledOntology} {stage : Stage}

/-- What a request returns that first has to reach a stage. -/
def CompiledOntology.reaching {α : Type} (compiled : CompiledOntology) (stage : Stage) (value : α) :
    Except ReasoningError (SaturationSession × α) :=
  (compiled.saturate (compiled.stageBatches stage)).map fun _ => (.reached compiled stage, value)

theorem Tables.Returned.reaching {α : Type} {value : α} (returned : compiled.Returned stage) :
    compiled.reaching stage value = .ok (.reached compiled stage, value) := by
  rw [CompiledOntology.reaching, returned]
  rfl

/-- A request that returned has reached its stage. -/
theorem CompiledOntology.reaching_ok {α : Type} {value result : α} {next : SaturationSession} :
    compiled.reaching stage value = .ok (next, result) ↔
      compiled.Returned stage ∧ next = .reached compiled stage ∧ result = value := by
  constructor
  · intro found
    unfold reaching at found
    cases run : compiled.saturate (compiled.stageBatches stage) with
    | error raised =>
      rw [run] at found
      cases found
    | ok engine =>
      rw [run] at found
      cases found
      exact ⟨by rw [Tables.Returned, run, (Tables.saturate_ok compiled.valid run).1], rfl, rfl⟩
  · rintro ⟨returned, rfl, rfl⟩
    exact returned.reaching

/-- A stage that continues an earlier one. -/
theorem CompiledOntology.reaching_bind {α β : Type} {value : α} {result : β} {next : Stage}
    (extends_ : compiled.stageBatches stage <+: compiled.stageBatches next)
    {continue_ : SaturationSession × α → Except ReasoningError (SaturationSession × β)}
    (continues : compiled.Returned stage → continue_ (.reached compiled stage, value) =
      compiled.reaching next result) :
    (compiled.reaching stage value >>= continue_) = compiled.reaching next result := by
  obtain ⟨more, batches⟩ := extends_
  have again : (compiled.saturate (compiled.stageBatches stage) >>= fun _ =>
      compiled.saturate (compiled.stageBatches next)) = compiled.saturate (compiled.stageBatches next) := by
    rw [← batches]
    exact Tables.saturate_again
  cases run : compiled.saturate (compiled.stageBatches stage) with
  | error raised =>
    rw [run] at again
    rw [reaching, run, reaching, ← again]
    rfl
  | ok engine =>
    have returned : compiled.Returned stage := by
      rw [Tables.Returned, run, (Tables.saturate_ok compiled.valid run).1]
    rw [returned.reaching]
    exact continues returned

theorem SaturationSession.reached_ensureProperties (known : Stage.consistency.code ≤ stage.code) :
    (SaturationSession.reached compiled stage).ensureProperties =
      .ok (.reached compiled stage, closeProperties compiled.toTables) := by
  have later : ¬ stage.code < Stage.properties.code := fun early => absurd (known.trans early.le) (by decide)
  have kept : (if (reached compiled stage).stage.code < Stage.properties.code then Stage.properties
      else (reached compiled stage).stage) = stage := if_neg later
  unfold ensureProperties
  rw [kept]
  rfl

theorem SaturationSession.reached_ensureEngine (known : Stage.consistency.code ≤ stage.code) :
    (SaturationSession.reached compiled stage).ensureEngine =
      .ok (.reached compiled stage, compiled.fixpoint (compiled.stageBatches stage)) := by
  unfold ensureEngine
  rw [reached_ensureProperties known]
  rfl

theorem SaturationSession.reached_snapshot (known : Stage.consistency.code ≤ stage.code) :
    (SaturationSession.reached compiled stage).snapshot = .ok
    (.reached compiled stage, compiled.snapshotAt stage) := by
  unfold snapshot
  rw [reached_ensureEngine known]
  rfl

theorem SaturationSession.reached_ensureConsistency (known : Stage.consistency.code ≤ stage.code) :
    (SaturationSession.reached compiled stage).ensureConsistency =
      .ok (.reached compiled stage, compiled.consistencyAt stage) := if_pos known

/-- A stage runs one more batch on the engine. -/
theorem SaturationSession.reached_runStage (known : Stage.consistency.code ≤ stage.code)
    (returned : compiled.Returned stage) {next : Stage} {roots : List ExpressionId}
    (batch : compiled.stageBatches next = compiled.stageBatches stage ++ [roots]) :
    (SaturationSession.reached compiled stage).runStage next roots =
      compiled.reaching next (compiled.consistencyAt next) := by
  have runs : compiled.saturate (compiled.stageBatches next) =
      (compiled.fixpoint (compiled.stageBatches stage)).run roots := by
    rw [batch, Tables.saturate_snoc, returned]
    rfl
  unfold runStage CompiledOntology.reaching
  rw [reached_ensureEngine known, runs]
  dsimp only [bind, Except.bind]
  cases run : (compiled.fixpoint (compiled.stageBatches stage)).run roots with
  | error raised => rfl
  | ok engine =>
    dsimp only
    rw [reached_ensureProperties known, SaturationEngine.run_ok run]
    unfold reached Tables.consistencyAt Tables.consistencyOver
    rw [batch, Tables.fixpoint_snoc]
    rfl

/-- A stage that is still ahead. -/
theorem SaturationSession.reached_advance (known : Stage.consistency.code ≤ stage.code)
    (returned : compiled.Returned stage) {next : Stage} {tag : ExpressionTag} (ahead : stage.code < next.code)
    (batch : compiled.stageBatches next = compiled.stageBatches stage ++ [compiled.rootsOf tag]) :
    ((SaturationSession.reached compiled stage).advance next tag >>= fun session => session.snapshot) =
      compiled.reaching next (compiled.snapshotAt next) := by
  have later : Stage.consistency.code ≤ next.code := known.trans ahead.le
  have step : (SaturationSession.reached compiled stage).advance next tag =
      (compiled.reaching next (compiled.consistencyAt next)).map Prod.fst :=
    (if_pos ahead).trans (congrArg _ (reached_runStage known returned batch))
  rw [step]
  unfold CompiledOntology.reaching
  cases compiled.saturate (compiled.stageBatches next) with
  | error raised => rfl
  | ok engine => exact reached_snapshot later

/-- A stage that the session has already reached. -/
theorem SaturationSession.reached_advance_past (known : Stage.consistency.code ≤ stage.code)
    (returned : compiled.Returned stage) (next : Stage) (tag : ExpressionTag) (past : next.code ≤ stage.code) :
    ((SaturationSession.reached compiled stage).advance next tag >>= fun session => session.snapshot) =
      compiled.reaching stage (compiled.snapshotAt stage) := by
  have step : (SaturationSession.reached compiled stage).advance next tag = .ok (.reached compiled stage) :=
    if_neg (Nat.not_lt.mpr past)
  rw [step, returned.reaching]
  exact reached_snapshot known

theorem SaturationSession.reached_ensureClassified (known : Stage.consistency.code ≤ stage.code)
    (returned : compiled.Returned stage) : (SaturationSession.reached compiled stage).ensureClassified =
      compiled.reaching (stage.max .classified) (compiled.snapshotAt (stage.max .classified)) := by
  unfold ensureClassified
  rw [reached_ensureConsistency known]
  cases stage with
  | compiled => exact absurd known (by decide)
  | properties => exact absurd known (by decide)
  | consistency => exact reached_advance known returned (by decide) rfl
  | classified => exact reached_advance_past known returned .classified .owlClass le_rfl
  | realized => exact reached_advance_past known returned .classified .owlClass (by decide)

theorem SaturationSession.reached_ensureRealized (known : Stage.consistency.code ≤ stage.code)
    (returned : compiled.Returned stage) : (SaturationSession.reached compiled stage).ensureRealized =
      compiled.reaching .realized (compiled.snapshotAt .realized) := by
  unfold ensureRealized
  rw [reached_ensureClassified known returned]
  cases stage with
  | compiled => exact absurd known (by decide)
  | properties => exact absurd known (by decide)
  | consistency =>
    exact CompiledOntology.reaching_bind ⟨[_], rfl⟩ fun classified =>
      reached_advance (by decide) classified (by decide) rfl
  | classified =>
    exact CompiledOntology.reaching_bind ⟨[_], rfl⟩ fun classified =>
      reached_advance (by decide) classified (by decide) rfl
  | realized =>
    exact CompiledOntology.reaching_bind ⟨[], rfl⟩ fun realized =>
      reached_advance_past (by decide) realized .realized .individual le_rfl

/-- The first stage of a new session. -/
theorem SaturationSession.fresh_ensureConsistency : SaturationSession.ensureConsistency { compiled := compiled } =
    compiled.reaching .consistency (compiled.consistencyAt .consistency) := by
  have runs : compiled.saturate (compiled.stageBatches .consistency) = saturateProperties compiled.toTables >>=
      fun properties => (SaturationEngine.new compiled.toTables properties).run compiled.consistencyRoots := by
    unfold Tables.saturate Tables.saturateWith
    cases saturateProperties compiled.toTables with
    | error raised => rfl
    | ok properties =>
      exact bind_pure ((SaturationEngine.new compiled.toTables properties).run compiled.consistencyRoots)
  have engine : SaturationSession.ensureEngine { compiled := compiled } = (saturateProperties compiled.toTables).map
      fun properties => ({
        compiled := compiled
        stage := .properties
        properties := some properties
        engine := some (SaturationEngine.new compiled.toTables properties) },
        SaturationEngine.new compiled.toTables properties) := by
    unfold ensureEngine ensureProperties
    cases saturateProperties compiled.toTables <;> rfl
  show runStage _ _ _ = _
  unfold runStage CompiledOntology.reaching
  rw [engine, runs]
  cases closed : saturateProperties compiled.toTables with
  | error raised => rfl
  | ok properties =>
    obtain ⟨rfl, _⟩ := (saturateProperties_ok compiled.valid).mp closed
    dsimp only [bind, Except.bind, Except.map]
    cases run : (SaturationEngine.new compiled.toTables (closeProperties compiled.toTables)).run
        compiled.consistencyRoots with
    | error raised => rfl
    | ok after =>
      obtain rfl := SaturationEngine.run_ok run
      rfl

theorem SaturationSession.fresh_ensureClassified : SaturationSession.ensureClassified { compiled := compiled } =
    compiled.reaching .classified (compiled.snapshotAt .classified) := by
  unfold ensureClassified
  rw [fresh_ensureConsistency]
  exact CompiledOntology.reaching_bind ⟨[_], rfl⟩ fun known => reached_advance le_rfl known (by decide) rfl

theorem SaturationSession.fresh_ensureRealized : SaturationSession.ensureRealized { compiled := compiled } =
    compiled.reaching .realized (compiled.snapshotAt .realized) := by
  unfold ensureRealized
  rw [fresh_ensureClassified]
  exact CompiledOntology.reaching_bind ⟨[_], rfl⟩ fun known => reached_advance (by decide) known (by decide) rfl

theorem Tables.stageBatches_lt {compiled : Tables} (valid : compiled.Valid) {stage : Stage} :
    ∀ root ∈ demandedRoots (compiled.stageBatches stage), root < compiled.expressions.length := by
  have early : ∀ root ∈ compiled.consistencyRoots, root < compiled.expressions.length :=
    Tables.consistencyRoots_lt valid
  have named : ∀ {tag}, ∀ root ∈ compiled.rootsOf tag, root < compiled.expressions.length := Tables.rootsOf_lt
  rintro root ⟨batch, listed, member⟩
  cases stage with
  | compiled => exact absurd listed List.not_mem_nil
  | properties => exact absurd listed List.not_mem_nil
  | consistency =>
    rw [List.mem_singleton.mp listed] at member
    exact early root member
  | classified =>
    rcases List.mem_pair.mp listed with rfl | rfl
    · exact early root member
    · exact named root member
  | realized =>
    rcases List.mem_cons.mp listed with rfl | listed
    · exact early root member
    · rcases List.mem_pair.mp listed with rfl | rfl <;> exact named root member

/-- A root of a stage can be saturated on its own, once the stage is reached. -/
theorem Tables.Returned.alone {compiled : Tables} (valid : compiled.Valid) {stage : Stage}
    (returned : compiled.Returned stage) {root : ExpressionId}
    (demanded : root ∈ demandedRoots (compiled.stageBatches stage)) :
    compiled.saturate [[root]] = .ok (compiled.fixpoint [[root]]) := by
  refine saturate_fewer valid (stageBatches_lt valid) returned ?_
  rintro other ⟨batch, listed, member⟩
  rw [List.mem_singleton.mp listed] at member
  rw [List.mem_singleton.mp member]
  exact demanded

theorem Tables.stageBatches_mono {compiled : Tables} {stage later : Stage} (order : stage.code ≤ later.code) :
    demandedRoots (compiled.stageBatches stage) ⊆ demandedRoots (compiled.stageBatches later) := by
  rintro root ⟨batch, listed, member⟩
  refine ⟨batch, ?_, member⟩
  have batches : compiled.stageBatches stage <+: compiled.stageBatches later := by
    cases stage <;> cases later <;> first
      | exact absurd order (by decide)
      | exact List.prefix_rfl
      | exact List.prefix_append _ _
  exact batches.subset listed

/-- The runs up to a stage derive a contradiction at `owl:Thing` or an individual, or the top property is
below the bottom one. -/
def Tables.Contradicted (compiled : Tables) (stage : Stage) : Prop :=
  (∃ root ∈ compiled.consistencyRoots, Derivable compiled (closeProperties compiled)
    (demandedRoots (compiled.stageBatches stage)) (.classInconsistency root)) ∨
  (closeProperties compiled).TopInBottom compiled

theorem Tables.contradicted_iff {compiled : Tables} (valid : compiled.Valid) {stage : Stage} :
    compiled.Contradicted stage ↔ (compiled.consistencyAt stage).inconsistent :=
  (compiled.inconsistent_iff valid (stageBatches_lt valid)).symm

/-- A contradiction found at one stage is there at every later one. -/
theorem Tables.consistencyAt_mono {compiled : Tables} (valid : compiled.Valid) {stage later : Stage}
    (order : stage.code ≤ later.code) (inconsistent : (compiled.consistencyAt stage).inconsistent) :
    (compiled.consistencyAt later).inconsistent := by
  rw [← contradicted_iff valid] at inconsistent ⊢
  refine inconsistent.imp_left fun ⟨root, listed, derivable⟩ => ⟨root, listed, ?_⟩
  exact derivable.mono (Set.image_mono (stageBatches_mono order))

/-- The verdict of a session that it is about an inconsistent ontology. -/
def SaturationSession.JudgedInconsistent (session : SaturationSession) : Prop :=
  ∃ next state, session.ensureConsistency = .ok (next, state) ∧ state.inconsistent

theorem SaturationSession.reached_judged (known : Stage.consistency.code ≤ stage.code) :
    (SaturationSession.reached compiled stage).JudgedInconsistent ↔ (compiled.consistencyAt stage).inconsistent := by
  unfold JudgedInconsistent
  rw [reached_ensureConsistency known]
  constructor
  · rintro ⟨_, _, same, inconsistent⟩
    cases same
    exact inconsistent
  · exact fun inconsistent => ⟨_, _, rfl, inconsistent⟩

/-- A session that reached a stage later keeps a contradiction that an earlier one knew. -/
theorem SaturationSession.Reachable.judged {session : SaturationSession} (reachable : session.Reachable compiled)
    (judged : session.JudgedInconsistent) {later : Stage} (known : Stage.consistency.code ≤ later.code)
    (order : session.stage.code ≤ later.code) : (SaturationSession.reached compiled later).JudgedInconsistent := by
  rw [reached_judged known]
  cases reachable with
  | fresh =>
    obtain ⟨_, state, found, inconsistent⟩ := judged
    rw [fresh_ensureConsistency] at found
    obtain ⟨_, rfl, rfl⟩ := CompiledOntology.reaching_ok.mp found
    exact Tables.consistencyAt_mono compiled.valid known inconsistent
  | reached early _ => exact Tables.consistencyAt_mono compiled.valid order ((reached_judged early).mp judged)

/-- Classifying a session keeps it reachable and keeps a contradiction. -/
theorem SaturationSession.Reachable.ensureClassified {session next : SaturationSession}
    {snapshot : SaturationSnapshot}
    (reachable : session.Reachable compiled) (found : session.ensureClassified = .ok (next, snapshot)) :
    ∃ stage : Stage, Stage.classified.code ≤ stage.code ∧ session.stage.code ≤ stage.code ∧
      compiled.Returned stage ∧ next = .reached compiled stage ∧ snapshot = compiled.snapshotAt stage := by
  cases reachable with
  | fresh =>
    rw [fresh_ensureClassified] at found
    exact ⟨.classified, le_rfl, (by decide : Stage.compiled.code ≤ _), CompiledOntology.reaching_ok.mp found⟩
  | @reached stage known returned =>
    rw [reached_ensureClassified known returned] at found
    have order : stage.code ≤ (stage.max .classified).code := by
      unfold Stage.max
      split
      · exact Nat.le_of_lt ‹_›
      · exact le_rfl
    have late : Stage.classified.code ≤ (stage.max .classified).code := by
      unfold Stage.max
      split
      · exact le_rfl
      · exact Nat.not_lt.mp ‹_›
    exact ⟨_, late, order, CompiledOntology.reaching_ok.mp found⟩

/-- Realizing a session keeps it reachable and keeps a contradiction. -/
theorem SaturationSession.Reachable.ensureRealized {session next : SaturationSession} {snapshot : SaturationSnapshot}
    (reachable : session.Reachable compiled) (found : session.ensureRealized = .ok (next, snapshot)) :
    compiled.Returned .realized ∧ next = .reached compiled .realized ∧ snapshot = compiled.snapshotAt .realized := by
  cases reachable with
  | fresh =>
    rw [fresh_ensureRealized] at found
    exact CompiledOntology.reaching_ok.mp found
  | reached known returned =>
    rw [reached_ensureRealized known returned] at found
    exact CompiledOntology.reaching_ok.mp found

/-- The session that has answered whether the ontology is consistent. -/
theorem SaturationSession.Reachable.ensureConsistency {session next : SaturationSession} {state : ConsistencyState}
    (reachable : session.Reachable compiled) (found : session.ensureConsistency = .ok (next, state)) :
    ∃ stage : Stage, Stage.consistency.code ≤ stage.code ∧ session.stage.code ≤ stage.code ∧
      compiled.Returned stage ∧ next = .reached compiled stage ∧ state = compiled.consistencyAt stage := by
  cases reachable with
  | fresh =>
    rw [fresh_ensureConsistency] at found
    exact ⟨.consistency, le_rfl, (by decide : Stage.compiled.code ≤ _), CompiledOntology.reaching_ok.mp found⟩
  | reached known returned =>
    rw [reached_ensureConsistency known] at found
    cases found
    exact ⟨_, known, le_rfl, returned, rfl, rfl⟩

end

end PyElk
