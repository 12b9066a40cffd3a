import PyElk.Native.Properties
import PyElk.Reasoning.Snapshot

open Ordered

namespace PyElk.Native

/-- A dense index: `count` empty rows filled by pushes, each row then sorted and
deduplicated. -/
def denseTable {β κ : Type} [DecidableEq β] [LinearOrder κ] (sortKey : β → κ) (count : Nat)
    (pushes : List (Nat × β)) : List (List β) :=
  (pushes.foldl (fun table row => table.modify row.1 (· ++ [row.2])) (List.replicate count [])).map
    (sortedSet sortKey)

def denseRow {β : Type} (table : List (List β)) (index : Nat) : List β := table.getD index []

/-- The expression-sized rule indexes of the native core. -/
structure RuleDispatcher where
  ontology : Tables
  properties : PropertySaturation
  owlThing : ExpressionId
  owlNothing : ExpressionId
  introduceThing : Bool
  decomposeNothing : Bool
  subclasses : List (List ExpressionId)
  definitionsByClass : List (List ExpressionId)
  classesByDefinition : List (List ExpressionId)
  equivalentFirst : List (List ExpressionId)
  equivalentSecond : List (List ExpressionId)
  intersectionsByFirst : List (List (ExpressionId × ExpressionId))
  intersectionsBySecond : List (List (ExpressionId × ExpressionId))
  unionsByDisjunct : List (List (ExpressionId × Nat))
  existentialsByFiller : List (List (ExpressionId × EntityId))
  complementsByNegated : List (List ExpressionId)
  positiveComplements : List (List ExpressionId)
  disjointByMember : List (List (DisjointGroupId × Nat))
  toldSuperProperties : List (PropertyChainId × EntityId)

/-- `(expression_id, position as u32)`. -/
def unionPush (row : ExpressionId × ExpressionId × Nat) : ExpressionId × ExpressionId × Nat :=
  (row.1, row.2.1, asU32 row.2.2)

/-- `(group as u32, position as u32)`. -/
def disjointPush (row : ExpressionId × DisjointGroupId × Nat) : ExpressionId × DisjointGroupId × Nat :=
  (row.1, asU32 row.2.1, asU32 row.2.2)

/-- The pushes of `RuleDispatcher::new` are the rows of the Python indexes, with positions and groups
cast to `u32`. -/
def RuleDispatcher.new (ontology : Tables) (properties : PropertySaturation) : RuleDispatcher :=
  let count := ontology.expressions.length
  { ontology := ontology
    properties := properties
    owlThing := ontology.owlThing
    owlNothing := ontology.owlNothing
    introduceThing := ontology.negative ontology.owlThing
    decomposeNothing := ontology.positive ontology.owlNothing
    subclasses := denseTable id count ontology.subclassAxioms
    definitionsByClass := denseTable id count (ontology.equivalenceRows true)
    classesByDefinition := denseTable id count ((ontology.equivalenceRows true).map Prod.swap)
    equivalentFirst := denseTable id count ((ontology.equivalenceRows false).map Prod.swap)
    equivalentSecond := denseTable id count (ontology.equivalenceRows false)
    intersectionsByFirst := denseTable pairKey count ontology.intersectionsByFirst
    intersectionsBySecond := denseTable pairKey count ontology.intersectionsBySecond
    unionsByDisjunct := denseTable pairKey count (ontology.unionsByDisjunct.map unionPush)
    existentialsByFiller := denseTable pairKey count ontology.existentialsByFiller
    complementsByNegated := denseTable id count ontology.complementsByNegated
    positiveComplements := denseTable id count ontology.positiveComplements
    disjointByMember := denseTable pairKey count (ontology.disjointByMember.map disjointPush)
    toldSuperProperties := ontology.toldSuperProperties properties }

variable (dispatcher : RuleDispatcher) (state : Context)

def RuleDispatcher.onContextInitialization (root : ExpressionId) : List Conclusion :=
  .subClassInclusionDecomposed root root ::
    if dispatcher.introduceThing then [.subClassInclusionComposed root dispatcher.owlThing] else []

def RuleDispatcher.onSubcontext (destination : ExpressionId) (relation : EntityId) : List Conclusion :=
  (sortedSet id state.composedSubsumers).flatMap fun filler =>
    ((denseRow dispatcher.existentialsByFiller filler).filter fun existential =>
      relation ∈ dispatcher.properties.subProperties (dispatcher.properties.singletonChain existential.2)).map
        fun existential => .propagation destination relation existential.1

/-- Whether `compositions_for_right_chain` has an entry. -/
def RuleDispatcher.composable (chain : PropertyChainId) : Bool :=
  !(dispatcher.properties.compositionsByLeft false chain).isEmpty

/-- The `match` on the tag in `on_decomposed`, for an expression that occurs positively. -/
def RuleDispatcher.decompose (destination subsumer : ExpressionId) (expression : ExpressionRecord) :
    List Conclusion :=
  match expression.tag, expression.arguments with
  | .objectIntersectionOf, arguments => arguments.map (.subClassInclusionDecomposed destination)
  | .objectSomeValuesFrom, [relation, target] =>
    let relationChain := dispatcher.properties.singletonChain relation
    .backwardLink target relation destination ::
      if dispatcher.composable relationChain then [.forwardLink destination relationChain target] else []
  | .objectHasSelf, [relation] =>
    let relationChain := dispatcher.properties.singletonChain relation
    .backwardLink destination relation destination ::
      ((if dispatcher.composable relationChain then [.forwardLink destination relationChain destination] else []) ++
        (dispatcher.properties.ranges relation).map (.subClassInclusionDecomposed destination))
  | .objectComplementOf, _ =>
    if (denseRow dispatcher.positiveComplements subsumer).any (· ∈ state.composedSubsumers) then
      [.classInconsistency destination]
    else []
  | _, _ => []

def RuleDispatcher.onDecomposed (destination subsumer : ExpressionId) : List Conclusion :=
  .subClassInclusionComposed destination subsumer ::
    ((denseRow dispatcher.definitionsByClass subsumer).map (.subClassInclusionDecomposed destination) ++
      (match dispatcher.ontology.expressions[subsumer]? with
        | none => []
        | some expression =>
          if dispatcher.ontology.positive subsumer then dispatcher.decompose state destination subsumer expression
          else []) ++
      if dispatcher.decomposeNothing ∧ subsumer = dispatcher.owlNothing then [.classInconsistency destination]
      else [])

def RuleDispatcher.onComposed (destination subsumer : ExpressionId) : List Conclusion :=
  [(denseRow dispatcher.subclasses subsumer).map (.subClassInclusionDecomposed destination),
   (denseRow dispatcher.classesByDefinition subsumer).map (.subClassInclusionComposed destination),
   (denseRow dispatcher.equivalentFirst subsumer).map (.subClassInclusionDecomposed destination),
   (denseRow dispatcher.equivalentSecond subsumer).map (.subClassInclusionDecomposed destination),
   ((denseRow dispatcher.intersectionsByFirst subsumer).filter (·.1 ∈ state.composedSubsumers)).map
     fun row => .subClassInclusionComposed destination row.2,
   ((denseRow dispatcher.intersectionsBySecond subsumer).filter (·.1 ∈ state.composedSubsumers)).map
     fun row => .subClassInclusionComposed destination row.2,
   (denseRow dispatcher.unionsByDisjunct subsumer).map fun row => .subClassInclusionComposed destination row.1,
   (denseRow dispatcher.existentialsByFiller subsumer).flatMap fun existential =>
     ((sortedSet id state.initializedSubcontexts).filter fun relation =>
       relation ∈ dispatcher.properties.subProperties (dispatcher.properties.singletonChain existential.2)).map
         fun relation => .propagation destination relation existential.1,
   if (denseRow dispatcher.complementsByNegated subsumer).any (· ∈ state.decomposedSubsumers) then
     [.classInconsistency destination]
   else [],
   (denseRow dispatcher.disjointByMember subsumer).map
     fun row => .disjointSubsumer destination row.1 row.2].flatten

def RuleDispatcher.chainIsExtendable (chain : PropertyChainId) : Bool :=
  !(dispatcher.properties.compositionsByLeft false chain).isEmpty ||
    !(dispatcher.properties.compositionsByLeft true chain).isEmpty

def RuleDispatcher.produceComposition (source target : ExpressionId) (resultChain : PropertyChainId) :
    List Conclusion :=
  if dispatcher.chainIsExtendable resultChain then [.forwardLink source resultChain target]
  else (frozenValues dispatcher.toldSuperProperties resultChain).map fun super => .backwardLink target super source

def RuleDispatcher.onForward (destination : ExpressionId) (chain : PropertyChainId) (target : ExpressionId) :
    List Conclusion :=
  (if ((dispatcher.properties.chains[chain]?).bind PropertyChainRecord.suffixChain).isSome then
      (frozenValues dispatcher.toldSuperProperties chain).map fun super => .backwardLink target super destination
    else []) ++
  (dispatcher.properties.compositionsByLeft false chain).flatMap fun row =>
    (multimapGet state.backwardLinks row.1).flatMap fun source =>
      row.2.flatMap (dispatcher.produceComposition source target)

def RuleDispatcher.onBackward (destination : ExpressionId) (relation : EntityId) (source : ExpressionId) :
    List Conclusion :=
  .subContextInitialization destination relation ::
    ((multimapGet state.propagations relation).map (.subClassInclusionComposed source) ++
    (if state.inconsistent then [.classInconsistency source] else []) ++
    (dispatcher.properties.ranges relation).map (.subClassInclusionDecomposed destination) ++
    (dispatcher.properties.compositionsByRight false relation).flatMap fun row =>
      (multimapGet state.forwardLinks row.1).flatMap fun target =>
        row.2.flatMap (dispatcher.produceComposition source target))

/-- `dispatch`: the products pushed for a premise already stored in `state`. -/
def RuleDispatcher.dispatch : Conclusion → List Conclusion
  | .contextInitialization root => dispatcher.onContextInitialization root
  | .subContextInitialization destination relation => dispatcher.onSubcontext state destination relation
  | .subClassInclusionDecomposed destination subsumer => dispatcher.onDecomposed state destination subsumer
  | .subClassInclusionComposed destination subsumer => dispatcher.onComposed state destination subsumer
  | .forwardLink destination chain target => dispatcher.onForward state destination chain target
  | .backwardLink destination relation source => dispatcher.onBackward state destination relation source
  | .propagation _ relation carry =>
    (multimapGet state.backwardLinks relation).map fun source => .subClassInclusionComposed source carry
  | .disjointSubsumer destination group position =>
    if (multimapGet state.disjointPositions group).any (· ≠ position) then [.classInconsistency destination] else []
  | .classInconsistency _ =>
    (sortedSet pairKey state.backwardLinks).map fun row => .classInconsistency row.2

/-- Worker-local storage that is cleared before each run. `accepted` holds every
conclusion enqueued since. -/
structure SaturationWorkspace where
  dispatcher : RuleDispatcher
  contexts : List Context := []
  accepted : List Conclusion := []
  agenda : List Conclusion := []

def SaturationWorkspace.enqueueRaw (workspace : SaturationWorkspace) (conclusion : Conclusion) :
    SaturationWorkspace :=
  if conclusion ∈ workspace.accepted then workspace
  else
    { workspace with
      accepted := conclusion :: workspace.accepted
      agenda := workspace.agenda ++ [conclusion] }

/-- `ensure_context`, which refuses a root outside the ontology. -/
def SaturationWorkspace.ensureContext (workspace : SaturationWorkspace) (root : ExpressionId) :
    Option SaturationWorkspace :=
  if root < workspace.dispatcher.ontology.expressions.length then
    if workspace.contexts.any (·.root == root) then some workspace
    else
      some (SaturationWorkspace.enqueueRaw
        { workspace with contexts := workspace.contexts ++ [{ root := root }] } (.contextInitialization root))
  else none

def SaturationWorkspace.enqueue (workspace : SaturationWorkspace) (conclusion : Conclusion) :
    Option SaturationWorkspace :=
  (workspace.ensureContext conclusion.destination).map (·.enqueueRaw conclusion)

/-- The body of the `saturate` loop for the premise popped from the agenda. -/
def SaturationWorkspace.step (workspace : SaturationWorkspace) (premise : Conclusion) (rest : List Conclusion) :
    Option SaturationWorkspace :=
  match workspace.contexts.find? (·.root == premise.destination) with
  | none => none
  | some state =>
    (workspace.dispatcher.dispatch (state.index premise) premise).foldlM SaturationWorkspace.enqueue
      { workspace with
        contexts := workspace.contexts.map fun other =>
          if other.root == premise.destination then other.index premise else other
        agenda := rest }

def SaturationWorkspace.loop : Nat → SaturationWorkspace → Option SaturationWorkspace
  | 0, _ => none
  | fuel + 1, workspace =>
    match workspace.agenda with
    | [] => some workspace
    | premise :: rest => (workspace.step premise rest).bind (SaturationWorkspace.loop fuel)

def SaturationWorkspace.reset (workspace : SaturationWorkspace) : SaturationWorkspace :=
  { workspace with contexts := [], accepted := [], agenda := [] }

def SaturationWorkspace.saturate (workspace : SaturationWorkspace) (roots : List ExpressionId) :
    Option SaturationWorkspace :=
  ((sortedSet id roots).foldlM SaturationWorkspace.ensureContext workspace.reset).bind
    (SaturationWorkspace.loop
      ((PyElk.RuleDispatcher.new workspace.dispatcher.ontology workspace.dispatcher.properties).conclusionLimit + 1))

/-- `run`: all contexts are drained into snapshots. -/
def SaturationWorkspace.run (workspace : SaturationWorkspace) (roots : List ExpressionId) :
    Option (List Context × SaturationWorkspace) :=
  (workspace.saturate roots).map fun workspace => (snapshotContexts workspace.contexts,
    { workspace with contexts := [] })

/-- `run_root`: only the context of the root is taken out. -/
def SaturationWorkspace.runRoot (workspace : SaturationWorkspace) (root : ExpressionId) :
    Option (Context × SaturationWorkspace) :=
  (workspace.saturate [root]).bind fun workspace =>
    (workspace.contexts.find? (·.root == root)).map fun context =>
      (context.freeze, { workspace with contexts := workspace.contexts.filter (·.root != root) })

/-- One workspace used for a sequence of roots. -/
def SaturationWorkspace.runEach (workspace : SaturationWorkspace) :
    List ExpressionId → Option (List Context × SaturationWorkspace)
  | [] => some ([], workspace)
  | root :: rest =>
    (workspace.runRoot root).bind fun (context, workspace) =>
      (workspace.runEach rest).map fun (contexts, workspace) => (context :: contexts, workspace)

/-- `PreparedSaturation::new` and `workspace`. -/
def SaturationWorkspace.new (ontology : Tables) (properties : PropertySaturation) : SaturationWorkspace :=
  { dispatcher := RuleDispatcher.new ontology properties }

/-- `saturate_roots`. -/
def saturateRoots (ontology : Tables) (properties : PropertySaturation) (roots : List ExpressionId) :
    Option (List Context) :=
  ((SaturationWorkspace.new ontology properties).run roots).map Prod.fst

end PyElk.Native
