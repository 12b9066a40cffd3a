import PyElk.Reasoning.Rules

open Ordered

namespace PyElk

/-- Storing the first candidate of an agenda: `pop_todo` followed by `insert`. -/
def ContextState.accept (state : ContextState) (conclusion : Conclusion) : ContextState :=
  { state with toContextStore := state.toContextStore.accept conclusion }

/-- `enqueue` and, for an unclaimed context, `mark_queued`. -/
def ContextState.offer (claimed : Bool) (conclusion : Conclusion) (state : ContextState) : ContextState :=
  if conclusion ∈ state.conclusions ∨ conclusion ∈ state.pending then state
  else
    { state with
      toContextStore := state.toContextStore.enqueue conclusion
      saturated := false
      queued := state.queued || !claimed }

/-- The duplicate-suppressing fixed-point scheduler. -/
structure SaturationEngine where
  dispatcher : RuleDispatcher
  contexts : List ContextState := []
  active : List ExpressionId := []
  claimedRoot : Option ExpressionId := none

def SaturationEngine.new (compiled : Tables) (properties : PropertySaturation) : SaturationEngine :=
  { dispatcher := RuleDispatcher.new compiled properties }

def SaturationEngine.contextState (engine : SaturationEngine) (root : ExpressionId) : Option ContextState :=
  engine.contexts.find? fun state => state.root == root

def SaturationEngine.modify (engine : SaturationEngine) (root : ExpressionId)
    (update : ContextState → ContextState) : SaturationEngine :=
  { engine with contexts := engine.contexts.map fun state => if state.root == root then update state else state }

/-- Whether `_enqueue_existing` puts the context on the active queue. -/
def SaturationEngine.activates (engine : SaturationEngine) (root : ExpressionId) (conclusion : Conclusion) : Bool :=
  match engine.contextState root with
  | none => false
  | some state =>
    !(engine.claimedRoot == some root) && !state.queued &&
      decide (conclusion ∉ state.conclusions ∧ conclusion ∉ state.pending)

/-- `_enqueue_existing`. -/
def SaturationEngine.enqueueExisting (engine : SaturationEngine) (root : ExpressionId)
    (conclusion : Conclusion) : SaturationEngine :=
  { engine.modify root (ContextState.offer (engine.claimedRoot == some root) conclusion) with
    active := if engine.activates root conclusion then engine.active ++ [root] else engine.active }

/-- `_ensure_context`: a context is allocated and seeded exactly once. -/
def SaturationEngine.ensureContext (engine : SaturationEngine) (root : ExpressionId) : SaturationEngine :=
  if (engine.contextState root).isSome then engine
  else
    SaturationEngine.enqueueExisting { engine with contexts := engine.contexts ++ [{ root := root }] } root
      (.contextInitialization root)

def SaturationEngine.enqueue (engine : SaturationEngine) (conclusion : Conclusion) : SaturationEngine :=
  (engine.ensureContext conclusion.destination).enqueueExisting conclusion.destination conclusion

/-- One agenda item of the claimed context whose dispatch refuses nothing. -/
def SaturationEngine.step (engine : SaturationEngine) (root : ExpressionId) : SaturationEngine :=
  match engine.contextState root with
  | none => engine
  | some state =>
    match state.todo with
    | [] => engine
    | premise :: _ =>
      (engine.dispatcher.products (state.toContextStore.accept premise).toContext premise).foldl
        SaturationEngine.enqueue
        (engine.modify root fun state => state.accept premise)

def SaturationEngine.hasLocalWork (engine : SaturationEngine) (root : ExpressionId) : Bool :=
  match engine.contextState root with
  | none => false
  | some state => !state.todo.isEmpty

/-- The inner loop of a run that refuses nothing. -/
def SaturationEngine.drain : Nat → ExpressionId → SaturationEngine → SaturationEngine
  | 0, _, engine => engine
  | fuel + 1, root, engine =>
    if engine.hasLocalWork root then SaturationEngine.drain fuel root (engine.step root) else engine

/-- The number of distinct conclusions over the ids of an ontology. -/
def RuleDispatcher.conclusionLimit (dispatcher : RuleDispatcher) : Nat :=
  let expressions := dispatcher.compiled.expressions.length
  let entities := dispatcher.compiled.entities.length
  let chains := dispatcher.properties.chains.length
  2 * expressions + expressions * entities + 2 * (expressions * expressions) +
    expressions * (chains * expressions) + 2 * (expressions * (entities * expressions)) +
    expressions * dispatcher.disjointByMember.length

def SaturationEngine.claim (engine : SaturationEngine) (root : ExpressionId) (rest : List ExpressionId) :
    SaturationEngine :=
  { engine.modify root (fun state => { state with queued := false, saturated := false }) with
    active := rest
    claimedRoot := some root }

def SaturationEngine.release (engine : SaturationEngine) (root : ExpressionId) : SaturationEngine :=
  { engine.modify root (fun state => { state with saturated := true }) with claimedRoot := none }

/-- The outer loop of a run that refuses nothing. -/
def SaturationEngine.runActive : Nat → SaturationEngine → SaturationEngine
  | 0, engine => engine
  | fuel + 1, engine =>
    match engine.active with
    | [] => engine
    | root :: rest =>
      SaturationEngine.runActive fuel
        (((engine.claim root rest).drain (engine.dispatcher.conclusionLimit + 1) root).release root)

/-- The engine after a run that refuses nothing. -/
def SaturationEngine.complete (engine : SaturationEngine) (roots : List ExpressionId) : SaturationEngine :=
  ((sortedSet id roots).foldl SaturationEngine.ensureContext engine).runActive
    (engine.dispatcher.conclusionLimit + 1)

/-- One agenda item of the claimed context: `_next_premise` and `_dispatch`. -/
def SaturationEngine.tryStep (engine : SaturationEngine) (root : ExpressionId) :
    Except ReasoningError SaturationEngine :=
  match engine.contextState root with
  | none => pure engine
  | some state =>
    match state.todo with
    | [] => pure engine
    | premise :: _ => do
      let products ← engine.dispatcher.dispatch (state.toContextStore.accept premise).toContext premise
      pure (products.foldl SaturationEngine.enqueue (engine.modify root fun state => state.accept premise))

/-- The inner loop of `run`. -/
def SaturationEngine.tryDrain : Nat → ExpressionId → SaturationEngine → Except ReasoningError SaturationEngine
  | 0, _, engine => pure engine
  | fuel + 1, root, engine =>
    if engine.hasLocalWork root then do
      let next ← engine.tryStep root
      SaturationEngine.tryDrain fuel root next
    else pure engine

/-- The outer loop of `run`. -/
def SaturationEngine.tryRunActive : Nat → SaturationEngine → Except ReasoningError SaturationEngine
  | 0, engine => pure engine
  | fuel + 1, engine =>
    match engine.active with
    | [] => pure engine
    | root :: rest => do
      let drained ← (engine.claim root rest).tryDrain (engine.dispatcher.conclusionLimit + 1) root
      SaturationEngine.tryRunActive fuel (drained.release root)

/-- `run`: the demanded roots and every transitively activated context are
saturated. A dispatch that raises ends the run. -/
def SaturationEngine.run (engine : SaturationEngine) (roots : List ExpressionId) :
    Except ReasoningError SaturationEngine :=
  ((sortedSet id roots).foldl SaturationEngine.ensureContext engine).tryRunActive
    (engine.dispatcher.conclusionLimit + 1)

end PyElk
