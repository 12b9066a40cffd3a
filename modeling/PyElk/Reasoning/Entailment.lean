import PyElk.Reasoning.Overlay
import PyElk.Reasoning.Session

open Ordered

namespace PyElk

/-- `_context_subsumers`. -/
def contextSubsumers (context : Context) : List ExpressionId :=
  context.root :: (context.composedSubsumers ++ context.decomposedSubsumers)

/-- An ontology without its property ranges. -/
def CompiledOntology.withoutRanges (ontology : CompiledOntology) : CompiledOntology where
  toTables := { ontology.toTables with propertyRanges := [] }
  valid := { ontology.valid with ranges := rfl, rangeProperty := rfl }

/-- The obligations of a query over the ids of its overlay. -/
def Overlay.obligations (overlay : Overlay) (query : QueryTables) : List (ExpressionId × ExpressionId) :=
  query.subsumptionObligations.map fun row => (overlay.queryIds.getD row.1 0, overlay.queryIds.getD row.2 0)

/-- One obligation is decided in the context of its sub-expression. -/
def decideObligation (snapshot : List Context) (obligation : ExpressionId × ExpressionId) : Option Bool :=
  (snapshot.find? fun context => context.root == obligation.1).map fun context =>
    context.inconsistent || decide (obligation.2 ∈ contextSubsumers context)

/-- The decision of `entails` for a consistent ontology: the obligations are read
off a saturation of the overlay without its ranges. -/
def decideObligations (compiled : CompiledOntology) (query : QueryTables) : Option Bool :=
  (installQuery compiled.toTables query).bind fun overlay =>
    let obligations := overlay.obligations query
    (overlay.ontology.withoutRanges.saturate [sortedSet id (obligations.map Prod.fst)]).toOption.bind fun engine =>
      (obligations.mapM (decideObligation engine.snapshot)).map fun results => results.all id

/-- The decisions retained for one session, by payload. -/
abbrev EntailmentCache := List (Option QueryTables × Bool)

structure EntailmentEngine where
  session : SaturationSession
  cache : EntailmentCache := []

def EntailmentEngine.retain (engine : EntailmentEngine) (payload : Option QueryTables) (result : Bool) :
    EntailmentEngine :=
  { engine with cache := (payload, result) :: engine.cache }

/-- `entails`, with `none` for a refused payload or a run that raises. -/
def EntailmentEngine.entails (engine : EntailmentEngine) (payload : Option QueryIR) :
    EntailmentEngine × Option Bool :=
  match engine.cache.lookup (payload.map QueryIR.toQueryTables), payload with
  | some cached, _ => (engine, some cached)
  | none, none => (engine.retain none false, some false)
  | none, some query =>
    if query.kind = .entailment then
      match engine.session.ensureConsistency with
      | .error _ => (engine, none)
      | .ok (session, consistency) =>
        let engine := { engine with session := session }
        if consistency.inconsistent then (engine.retain (some query.toQueryTables) true, some true)
        else
          match decideObligations session.compiled query.toQueryTables with
          | none => (engine, none)
          | some result => (engine.retain (some query.toQueryTables) result, some result)
    else (engine, none)

/-- What may happen to a session between two entailment questions. -/
inductive EngineRequest
  | entails (payload : Option QueryIR)
  | classify
  | realize

/-- The engine after a request on its session. -/
def EntailmentEngine.proceed {α : Type} (engine : EntailmentEngine) :
    Except ReasoningError (SaturationSession × α) → EntailmentEngine
  | .error _ => engine
  | .ok (session, _) => { engine with session := session }

def EntailmentEngine.serve (engine : EntailmentEngine) : EngineRequest → EntailmentEngine
  | .entails payload => (engine.entails payload).1
  | .classify => engine.proceed engine.session.ensureClassified
  | .realize => engine.proceed engine.session.ensureRealized

/-- The engine of a session after a sequence of requests. -/
def EntailmentEngine.after (compiled : CompiledOntology) (requests : List EngineRequest) : EntailmentEngine :=
  requests.foldl EntailmentEngine.serve { session := { compiled := compiled } }

end PyElk
