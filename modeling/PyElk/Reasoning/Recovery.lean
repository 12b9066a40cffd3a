import Mathlib.Data.List.Lex
import PyElk.Reasoning.EngineSchedule
import PyElk.Reasoning.Snapshot

open Ordered

namespace PyElk

/-- `conclusion_key`: one structural identity as an integer tuple. -/
def Conclusion.key : Conclusion → List Nat
  | contextInitialization root => [0, root]
  | subContextInitialization destination subDestinationProperty => [1, destination, subDestinationProperty]
  | subClassInclusionDecomposed destination subsumer => [2, destination, subsumer]
  | subClassInclusionComposed destination subsumer => [3, destination, subsumer]
  | forwardLink destination chain target => [4, destination, chain, target]
  | backwardLink destination relation source => [5, destination, relation, source]
  | propagation destination relation carryExistential => [6, destination, relation, carryExistential]
  | disjointSubsumer destination disjointGroup position => [7, destination, disjointGroup, position]
  | classInconsistency destination => [8, destination]

theorem Conclusion.key_injective : Function.Injective Conclusion.key := by
  intro left right same
  cases left <;> cases right <;> simp_all [key]

/-- Deterministic immutable view of one context. -/
structure FrozenContext extends Context where
  saturated : Bool
  conclusions : List Conclusion
  todo : List Conclusion
  queued : Bool
  deriving DecidableEq, Repr

def ContextState.freeze (state : ContextState) : FrozenContext :=
  { toContext := state.toContext.freeze
    saturated := state.saturated
    conclusions := sortedBy Conclusion.key state.conclusions
    todo := sortedBy Conclusion.key state.todo
    queued := state.queued }

/-- The engine with `_retry`: stored premises whose dispatch failed. A root without
a deque has the empty one. -/
structure RecoveringEngine extends SaturationEngine where
  retry : ExpressionId → List Conclusion := fun _ => []

def RecoveringEngine.new (compiled : Tables) (properties : PropertySaturation) : RecoveringEngine :=
  { toSaturationEngine := SaturationEngine.new compiled properties }

/-- `snapshot`: all allocated contexts in the order of their roots. -/
def RecoveringEngine.snapshot (engine : RecoveringEngine) : List FrozenContext :=
  (sortedBy (fun state : ContextState => state.root) engine.contexts).map ContextState.freeze

/-- `_has_local_work`. -/
def RecoveringEngine.hasLocalWork (engine : RecoveringEngine) (root : ExpressionId) : Bool :=
  !(engine.retry root).isEmpty || engine.toSaturationEngine.hasLocalWork root

/-- `_next_premise`: retries come first, and only a premise from the agenda can be
inserted. -/
def RecoveringEngine.nextPremise (engine : RecoveringEngine) (root : ExpressionId) :
    Option (Conclusion × Bool × RecoveringEngine) :=
  match engine.retry root with
  | premise :: rest => some (premise, false, { engine with retry := Function.update engine.retry root rest })
  | [] =>
    match engine.contextState root with
    | none => none
    | some state =>
      match state.todo with
      | [] => none
      | premise :: _ =>
        some (premise, decide (premise ∉ state.conclusions),
          { engine with toSaturationEngine := engine.modify root fun state => state.accept premise })

def RecoveringEngine.ensureAll (engine : RecoveringEngine) (roots : List ExpressionId) : RecoveringEngine :=
  { engine with toSaturationEngine := roots.foldl SaturationEngine.ensureContext engine.toSaturationEngine }

def RecoveringEngine.enqueueAll (engine : RecoveringEngine) (products : List Conclusion) : RecoveringEngine :=
  { engine with toSaturationEngine := products.foldl SaturationEngine.enqueue engine.toSaturationEngine }

/-- The premise of a failed dispatch goes to the front of the retries. -/
def RecoveringEngine.defer (engine : RecoveringEngine) (root : ExpressionId) (premise : Conclusion) :
    RecoveringEngine :=
  { engine with retry := Function.update engine.retry root (premise :: engine.retry root) }

def RecoveringEngine.claim (engine : RecoveringEngine) (root : ExpressionId) (rest : List ExpressionId) :
    RecoveringEngine :=
  { engine with toSaturationEngine := engine.toSaturationEngine.claim root rest }

/-- `mark_saturated` and the end of the claim. -/
def RecoveringEngine.release (engine : RecoveringEngine) (root : ExpressionId) : RecoveringEngine :=
  { engine with toSaturationEngine := engine.toSaturationEngine.release root }

/-- The `finally` of a claim: a context with work goes back to the front of the queue. -/
def RecoveringEngine.requeue (engine : RecoveringEngine) (root : ExpressionId) : RecoveringEngine :=
  let released := { engine with claimedRoot := none }
  if released.hasLocalWork root && (released.contextState root).any fun state => !state.queued then
    { released with
      toSaturationEngine :=
        { released.modify root (fun state => { state with queued := true, saturated := false }) with
          active := root :: released.active } }
  else released

/-- Where a run stands: outside of `run`, between two claims, before an agenda item
of the claimed context, or in the dispatch of a premise that was taken. -/
inductive Control
  | idle
  | loop
  | working (root : ExpressionId)
  | dispatching (root : ExpressionId) (premise : Conclusion)
  deriving DecidableEq, Repr

/-- The context being processed. -/
def Control.root : Control → Option ExpressionId
  | idle | loop => none
  | working root | dispatching root _ => some root

/-- The premise that was taken and whose products are not published. -/
def Control.flight : Control → Set Conclusion
  | idle | loop | working _ => ∅
  | dispatching _ premise => {premise}

/-- How a run ends: with a snapshot, or with an exception. -/
inductive RunOutcome
  | completed
  | budgetExceeded
  | interrupted
  | failed
  deriving DecidableEq, Repr

/-- What the surroundings of a run do at one point: nothing, an interrupt at a
checkpoint, or an exception of the dispatch that leaves so many of its products
published. The dispatcher itself buffers its products, so that it leaves none. -/
inductive Signal
  | proceed
  | interrupt
  | fail (published : Nat)
  deriving DecidableEq, Repr

structure RunState where
  engine : RecoveringEngine
  control : Control := .idle
  maxConclusions : Option Nat := none
  completed : Nat := 0
  outcome : Option RunOutcome := none

def RunState.new (compiled : Tables) (properties : PropertySaturation) : RunState :=
  { engine := .new compiled properties }

/-- The condition of the inner loop: the claimed context is worked on or saturated. -/
def RunState.settle (state : RunState) (root : ExpressionId) : RunState :=
  if state.engine.hasLocalWork root then { state with control := .working root }
  else { state with engine := state.engine.release root, control := .loop }

def RunState.stop (state : RunState) (root : ExpressionId) (outcome : RunOutcome) : RunState :=
  { state with engine := state.engine.requeue root, control := .idle, outcome := some outcome }

/-- One move of `run`. -/
def RunState.tick (signal : Signal) (state : RunState) : RunState :=
  match state.control with
  | .idle => state
  | .loop =>
    match state.engine.active with
    | [] => { state with control := .idle, outcome := some .completed }
    | root :: rest => RunState.settle { state with engine := state.engine.claim root rest } root
  | .working root =>
    if state.maxConclusions.any fun limit => decide (limit ≤ state.completed) then state.stop root .budgetExceeded
    else if signal = .interrupt then state.stop root .interrupted
    else
      match state.engine.nextPremise root with
      | none => state
      | some (premise, inserted, engine) =>
        { state with
          engine
          completed := if inserted then state.completed + 1 else state.completed
          control := .dispatching root premise }
  | .dispatching root premise =>
    match state.engine.contextState root with
    | none => state
    | some context =>
      let products := state.engine.dispatcher.products context.toContext premise
      match signal with
      | .fail published =>
        RunState.stop { state with engine := (state.engine.enqueueAll (products.take published)).defer root premise }
          root .failed
      | _ => RunState.settle { state with engine := state.engine.enqueueAll products } root

/-- What a caller asks for between two runs. -/
inductive Request
  | demand (root : ExpressionId)
  | enqueue (conclusion : Conclusion)
  deriving DecidableEq, Repr

/-- The conclusion a request makes known. -/
def Request.fact : Request → Conclusion
  | demand root => .contextInitialization root
  | enqueue conclusion => conclusion

def RecoveringEngine.handle (engine : RecoveringEngine) : Request → RecoveringEngine
  | .demand root => engine.ensureAll [root]
  | .enqueue conclusion => engine.enqueueAll [conclusion]

def RunState.handle (state : RunState) (request : Request) : RunState :=
  { state with engine := state.engine.handle request, outcome := none }

/-- The start of `run`. -/
def RunState.begin (state : RunState) (roots : List ExpressionId) (maxConclusions : Option Nat) : RunState :=
  { engine := state.engine.ensureAll (sortedSet id roots), control := .loop, maxConclusions }

/-- The moves of a caller and of its runs, with the requests they make. Roots and
destinations are checked before anything happens. -/
inductive Transition (compiled : Tables) : RunState → List Request → RunState → Prop
  | request {state : RunState} (request : Request) (idle : state.control = .idle)
      (inRange : request.fact.destination < compiled.expressions.length) :
      Transition compiled state [request] (state.handle request)
  | run {state : RunState} (roots : List ExpressionId) (maxConclusions : Option Nat) (idle : state.control = .idle)
      (inRange : ∀ root ∈ roots, root < compiled.expressions.length) :
      Transition compiled state (roots.map .demand) (state.begin roots maxConclusions)
  | tick {state : RunState} (signal : Signal) : Transition compiled state [] (state.tick signal)

/-- The states of an engine after any sequence of requests and runs, with the
requests made so far. -/
inductive Reached (compiled : Tables) (properties : PropertySaturation) : List Request → RunState → Prop
  | new : Reached compiled properties [] (.new compiled properties)
  | move {log more : List Request} {state next : RunState} (reached : Reached compiled properties log state)
      (moved : Transition compiled state more next) : Reached compiled properties (log ++ more) next

/-- One run without limits from a new engine, after the given requests. -/
def uninterrupted (compiled : Tables) (properties : PropertySaturation) (log : List Request)
    (moves : Nat) : RunState :=
  (RunState.tick .proceed)^[moves] ((log.foldl RunState.handle (.new compiled properties)).begin [] none)

end PyElk
