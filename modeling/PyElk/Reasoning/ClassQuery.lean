import PyElk.Reasoning.Entailment
import PyElk.Reasoning.Realization

open Ordered Components Topological

namespace PyElk

/-- Class-expression operation encoded by a raw query result. -/
inductive QueryKind
  | satisfiable | equivalentClasses | subclasses | superclasses | instances
  deriving DecidableEq, Repr

/-- The checks of `RawQueryResult.__post_init__`. -/
def RawQueryResult.Valid (kind : QueryKind) (boolean : Option Bool) (nodes : List (List EntityId)) : Prop :=
  validateNodes nodes ∧ if kind = .satisfiable then boolean.isSome ∧ nodes = [] else boolean = none

instance (kind : QueryKind) (boolean : Option Bool) (nodes : List (List EntityId)) :
    Decidable (RawQueryResult.Valid kind boolean nodes) :=
  inferInstanceAs (Decidable (_ ∧ _))

/-- Backend-neutral scalar or canonical node collection for one query kind. -/
structure RawQueryResult where
  kind : QueryKind
  boolean : Option Bool
  nodes : List (List EntityId)
  valid : RawQueryResult.Valid kind boolean nodes
  deriving DecidableEq

def RawQueryResult.check (kind : QueryKind) (boolean : Option Bool) (nodes : List (List EntityId)) :
    Option RawQueryResult :=
  if valid : RawQueryResult.Valid kind boolean nodes then some ⟨kind, boolean, nodes, valid⟩ else none

/-- A node that a query may return: one of the taxonomy, or a class that only the query knows. -/
structure NodeCandidate where
  members : List EntityId
  expression : ExpressionId
  taxonomyIndex : Option Nat
  deriving DecidableEq, Repr

/-- The overlay of one query with the contexts read from it so far. -/
structure QueryEvaluation where
  query : QueryTables
  overlay : Overlay
  root : ExpressionId
  contexts : List Context
  freshResultIds : List (Nat × EntityId)
  properties : PropertySaturation
  engine : SaturationEngine

/-- The result ids of the fresh entities of a query, in the order of its entity table. -/
def QueryTables.freshResultIds (query : QueryTables) (first : Nat) : Option (List (Nat × EntityId)) :=
  let fresh := (query.entities.zipIdx.filter fun row => row.1.ontologyId.isNone).map Prod.snd
  if first + fresh.length ≤ U32_RESERVED then some (fresh.zipIdx first) else none

/-- `_evaluate_query`. -/
def evaluateQuery (compiled : Tables) (query : QueryTables) : Option QueryEvaluation :=
  (installQuery compiled query).bind fun overlay =>
    query.rootExpression.bind fun root =>
      (saturateProperties overlay.ontology.toTables).toOption.bind fun properties =>
        (query.freshResultIds compiled.entities.length).map fun freshResultIds =>
          { query := query
            overlay := overlay
            root := overlay.queryIds.getD root 0
            contexts := []
            freshResultIds := freshResultIds
            properties := properties
            engine := SaturationEngine.new overlay.ontology.toTables properties }

/-- `evaluation.contexts.get(root)`. -/
def QueryEvaluation.context (evaluation : QueryEvaluation) (root : ExpressionId) : Option Context :=
  evaluation.contexts.find? fun context => context.root == root

/-- `_ensure_contexts`, with `none` for a run that raises. With ranges every root has an engine of its own. -/
def QueryEvaluation.ensureContexts (evaluation : QueryEvaluation) (roots : List ExpressionId) :
    Option QueryEvaluation :=
  let requested := sortedSet id (roots.filter fun root => (evaluation.context root).isNone)
  if requested.isEmpty then some evaluation
  else if evaluation.overlay.ontology.propertyRanges = [] then
    (evaluation.engine.run requested).toOption.map fun engine =>
      { evaluation with engine := engine, contexts := engine.snapshot ++ evaluation.contexts }
  else
    (requested.mapM fun root =>
      ((SaturationEngine.new evaluation.overlay.ontology.toTables evaluation.properties).run [root]).toOption.bind
        fun engine => engine.snapshot.find? fun context => context.root == root).map fun contexts =>
          { evaluation with contexts := contexts ++ evaluation.contexts }

/-- What a selection reads of the contexts. -/
structure ContextReader where
  subsumers : ExpressionId → List ExpressionId
  inconsistent : ExpressionId → Bool

def ContextReader.of (context : ExpressionId → Option Context) : ContextReader where
  subsumers root := (context root).elim [] contextSubsumers
  inconsistent root := (context root).elim false Context.inconsistent

def QueryEvaluation.reader (evaluation : QueryEvaluation) : ContextReader := .of evaluation.context

/-- `_strict_super_closure`: the rows of a taxonomy from its maximal nodes down. -/
def RawTaxonomy.strictSuperClosure (taxonomy : RawTaxonomy) : Option (Nat → List Nat) :=
  let outgoing := fun node => (taxonomy.directEdges.filter fun edge => edge.1 == node).map Prod.snd
  (topologicalOrder (adjacency (taxonomy.directEdges.map Prod.swap)) List.min? (List.range taxonomy.nodes.length)).map
    fun order => order.foldl (fun closures node =>
      Function.update closures node ((outgoing node).flatMap fun super => super :: closures super)) fun _ => []

/-- `_relative_indices`. -/
def RawTaxonomy.relativeIndices (taxonomy : RawTaxonomy) (start : Nat) (supers direct : Bool) : List Nat :=
  let edges := if supers then taxonomy.directEdges else taxonomy.directEdges.map Prod.swap
  let adjacent := fun node => (edges.filter fun edge => edge.1 == node).map Prod.snd
  let reached := sortedSet id (adjacent start)
  if direct then reached
  else sortedSet id
    (Collection.run (fun node => (adjacent node).reverse) taxonomy.nodes.length
      ⟨reached, reached.reverse, []⟩).assigned

section

variable (compiled : Tables) (taxonomy : RawTaxonomy) (evaluation : QueryEvaluation)

/-- `class_expressions` and `individual_expressions`. -/
def QueryEvaluation.namedExpression (tag : ExpressionTag) (entity : EntityId) : ExpressionId :=
  evaluation.overlay.ontologyIds.getD (compiled.namedExpression tag entity) 0

/-- The expression of the first member of a node. -/
def QueryEvaluation.representative (index : Nat) : ExpressionId :=
  evaluation.namedExpression compiled .owlClass ((taxonomy.nodes.getD index []).headD 0)

/-- `expression_to_node`. -/
def QueryEvaluation.expressionToNode (expression : ExpressionId) : Option Nat :=
  taxonomy.nodes.findIdx? fun node => node.any fun entity =>
    evaluation.namedExpression compiled .owlClass entity == expression

/-- `_fresh_class_candidates`. -/
def QueryEvaluation.freshClasses : List NodeCandidate :=
  evaluation.query.expressions.zipIdx.filterMap fun row =>
    if row.1.tag = .owlClass then
      (evaluation.freshResultIds.lookup (row.1.arguments.headD 0)).map fun result =>
        ⟨[result], evaluation.overlay.queryIds.getD row.2 0, none⟩
    else none

variable (reader : ContextReader)

/-- The expression and the query are among each other's subsumers. -/
def QueryEvaluation.mutual (expression : ExpressionId) : Bool :=
  decide (expression ∈ reader.subsumers evaluation.root) && decide (evaluation.root ∈ reader.subsumers expression)

/-- `possible_equivalents`. -/
def QueryEvaluation.possibleEquivalents : List ExpressionId :=
  ((List.range taxonomy.nodes.length).map (evaluation.representative compiled taxonomy) ++
      evaluation.freshClasses.map NodeCandidate.expression).filter
    fun expression => decide (expression ∈ reader.subsumers evaluation.root)

/-- `equivalent_index`. -/
def QueryEvaluation.equivalentIndex : Option Nat :=
  if reader.inconsistent evaluation.root then some taxonomy.bottom
  else (List.range taxonomy.nodes.length).find? fun index =>
    evaluation.mutual reader (evaluation.representative compiled taxonomy index)

/-- `fresh_equivalent`. -/
def QueryEvaluation.freshEquivalent : Option NodeCandidate :=
  evaluation.freshClasses.find? fun candidate => evaluation.mutual reader candidate.expression

/-- The nodes of an equivalence result. -/
def QueryEvaluation.equivalentNodes (equivalent : Option Nat) : List (List EntityId) :=
  match equivalent, evaluation.freshEquivalent reader with
  | some index, _ => [taxonomy.nodes.getD index []]
  | none, some candidate => [candidate.members]
  | none, none => []

/-- `ontology_candidates`. -/
def QueryEvaluation.ontologyCandidates (equivalent : Option Nat) (supers : Bool) : List Nat :=
  match equivalent with
  | some index => taxonomy.relativeIndices index supers false
  | none =>
    if supers then taxonomy.top ::
      (reader.subsumers evaluation.root).filterMap (evaluation.expressionToNode compiled taxonomy)
    else taxonomy.bottom :: (List.range taxonomy.nodes.length).filter fun index =>
      decide (evaluation.root ∈ reader.subsumers (evaluation.representative compiled taxonomy index))

/-- `node_candidates`. -/
def QueryEvaluation.nodeCandidates (equivalent : Option Nat) (supers : Bool) : List NodeCandidate :=
  (sortedSet id (evaluation.ontologyCandidates compiled taxonomy reader equivalent supers)).map (fun index =>
      ⟨taxonomy.nodes.getD index [], evaluation.representative compiled taxonomy index, some index⟩) ++
    evaluation.freshClasses.filter fun candidate => candidate.expression != evaluation.root &&
      if supers then decide (candidate.expression ∈ reader.subsumers evaluation.root)
      else decide (evaluation.root ∈ reader.subsumers candidate.expression)

/-- `_candidate_subsumes`. -/
def candidateSubsumes (strictSupers : Nat → List Nat) (sub super : NodeCandidate) : Bool :=
  if sub.expression = super.expression then false
  else
    match sub.taxonomyIndex, super.taxonomyIndex with
    | some lower, some upper => decide (upper ∈ strictSupers lower)
    | _, _ =>
      sub.taxonomyIndex == some taxonomy.bottom || super.taxonomyIndex == some taxonomy.top ||
        (reader.inconsistent sub.expression || decide (super.expression ∈ reader.subsumers sub.expression))

/-- `_direct_candidates`. -/
def directCandidates (strictSupers : Nat → List Nat) (supers : Bool) (candidates : List NodeCandidate) :
    List NodeCandidate :=
  candidates.filter fun candidate => !candidates.any fun other => other != candidate &&
    if supers then candidateSubsumes taxonomy reader strictSupers other candidate
    else candidateSubsumes taxonomy reader strictSupers candidate other

variable (realized : RawRealization)

/-- The instances of a class that the taxonomy has a node for. -/
def matchingInstances (strictSupers : Nat → List Nat) (index : Nat) (direct : Bool) : List Nat :=
  (List.range realized.instanceNodes.length).filter fun instanceIndex =>
    (realized.directTypeIndices instanceIndex).any fun type =>
      if direct then type == index else type == index || decide (index ∈ strictSupers type)

/-- The instance nodes whose first member has the query among its subsumers. -/
def QueryEvaluation.selectedInstances : List Nat :=
  (List.range realized.instanceNodes.length).filter fun index => decide (evaluation.root ∈ reader.subsumers
    (evaluation.namedExpression compiled .individual ((realized.instanceNodes.getD index []).headD 0)))

/-- `selected_direct_types`. -/
def selectedDirectTypes (selected : List Nat) : List Nat := selected.flatMap realized.directTypeIndices

/-- The selected instances without those that have a type below the query. -/
def QueryEvaluation.directInstances (selected : List Nat) : List Nat :=
  let strictSubclasses := taxonomy.bottom :: (selectedDirectTypes realized selected).filter fun index =>
    decide (evaluation.root ∈ reader.subsumers (evaluation.representative compiled taxonomy index))
  selected.filter fun instanceIndex =>
    !(realized.directTypeIndices instanceIndex).any fun type => decide (type ∈ strictSubclasses)

/-- A node-valued result. -/
def queryNodes (kind : QueryKind) (nodes : List (List EntityId)) : Option RawQueryResult :=
  RawQueryResult.check kind none (sortedBy id nodes)

end

section

variable (compiled : Tables) (taxonomy : RawTaxonomy) (realized : RawRealization) (evaluation : QueryEvaluation)

/-- The sub- or superclasses that `_select_query` returns. -/
def QueryEvaluation.selectRelatives (strictSupers : Nat → List Nat) (equivalent : Option Nat) (supers direct : Bool) :
    Option (QueryEvaluation × RawQueryResult) :=
  let classes := (compiled.rootsOf .owlClass).map (evaluation.overlay.ontologyIds.getD · 0) ++
    evaluation.freshClasses.map NodeCandidate.expression
  (if supers then some evaluation else evaluation.ensureContexts classes).bind fun evaluation =>
    let kind := if supers then QueryKind.superclasses else .subclasses
    let candidates := evaluation.nodeCandidates compiled taxonomy evaluation.reader equivalent supers
    if direct then
      (if evaluation.freshClasses.isEmpty then some evaluation
        else evaluation.ensureContexts (candidates.map NodeCandidate.expression)).bind fun evaluation =>
          (queryNodes kind ((directCandidates taxonomy evaluation.reader strictSupers supers candidates).map
            NodeCandidate.members)).map (Prod.mk evaluation)
    else (queryNodes kind (candidates.map NodeCandidate.members)).map (Prod.mk evaluation)

/-- The instances that `_select_query` returns. -/
def QueryEvaluation.selectInstances (strictSupers : Nat → List Nat) (equivalent : Option Nat) (direct : Bool) :
    Option (QueryEvaluation × RawQueryResult) :=
  let nodes := fun indices : List Nat => indices.map fun index => realized.instanceNodes.getD index []
  match equivalent with
  | some index =>
    (queryNodes .instances (nodes (matchingInstances realized strictSupers index direct))).map (Prod.mk evaluation)
  | none =>
    (evaluation.ensureContexts
        ((compiled.rootsOf .individual).map (evaluation.overlay.ontologyIds.getD · 0))).bind fun evaluation =>
      let selected := evaluation.selectedInstances compiled evaluation.reader realized
      if direct && !selected.isEmpty then
        (evaluation.ensureContexts
            ((selectedDirectTypes realized selected).map (evaluation.representative compiled taxonomy))).bind
          fun evaluation => (queryNodes .instances
            (nodes (evaluation.directInstances compiled taxonomy evaluation.reader realized selected))).map
              (Prod.mk evaluation)
      else (queryNodes .instances (nodes selected)).map (Prod.mk evaluation)

/-- `_select_query`, with `none` for a run that raises. -/
def QueryEvaluation.select (kind : QueryKind) (direct : Bool) : Option (QueryEvaluation × RawQueryResult) :=
  (evaluation.ensureContexts [evaluation.root]).bind fun evaluation =>
    if kind = .satisfiable then
      (RawQueryResult.check kind (some !evaluation.reader.inconsistent evaluation.root) []).map (Prod.mk evaluation)
    else
      taxonomy.strictSuperClosure.bind fun strictSupers =>
        (evaluation.ensureContexts (evaluation.possibleEquivalents compiled taxonomy evaluation.reader)).bind
          fun evaluation =>
            let equivalent := evaluation.equivalentIndex compiled taxonomy evaluation.reader
            match kind with
            | .equivalentClasses => (queryNodes kind
                (evaluation.equivalentNodes taxonomy evaluation.reader equivalent)).map (Prod.mk evaluation)
            | .subclasses => evaluation.selectRelatives compiled taxonomy strictSupers equivalent false direct
            | .superclasses => evaluation.selectRelatives compiled taxonomy strictSupers equivalent true direct
            | _ => evaluation.selectInstances compiled taxonomy realized strictSupers equivalent direct

end

/-- `_unindexed_result`. -/
def unindexedResult (kind : QueryKind) (direct : Bool) (taxonomy : RawTaxonomy) : Option RawQueryResult :=
  match kind, direct with
  | .satisfiable, _ => RawQueryResult.check kind (some true) []
  | .subclasses, true => queryNodes kind [taxonomy.nodes.getD taxonomy.bottom []]
  | .superclasses, true => queryNodes kind [taxonomy.nodes.getD taxonomy.top []]
  | _, _ => RawQueryResult.check kind none []

/-- `_inconsistent_result`. -/
def inconsistentResult (kind : QueryKind) (taxonomy : RawTaxonomy) (realized : RawRealization) :
    Option RawQueryResult :=
  match kind with
  | .satisfiable => RawQueryResult.check kind (some false) []
  | .equivalentClasses => queryNodes kind [taxonomy.nodes.getD taxonomy.top []]
  | .instances => queryNodes kind realized.instanceNodes
  | _ => RawQueryResult.check kind none []

/-- The class-query engine of one session: the overlays and the answers it has retained. -/
structure ClassQueryEngine where
  session : SaturationSession
  classTaxonomy : RawTaxonomy
  realized : RawRealization
  evaluations : List (QueryTables × QueryEvaluation) := []
  results : List ((Option QueryTables × QueryKind × Bool) × RawQueryResult) := []

/-- The engine that a backend session builds over its class taxonomy and its realization. -/
def ClassQueryEngine.open (session : SaturationSession) : Option ClassQueryEngine :=
  session.classTaxonomy.toOption.bind fun (session, taxonomy) =>
    taxonomy.bind fun taxonomy =>
      (session.realization taxonomy).toOption.bind fun (session, realized) =>
        realized.bind fun realized =>
          if realized.classTaxonomy = taxonomy then
            some { session := session, classTaxonomy := taxonomy, realized := realized }
          else none

def ClassQueryEngine.retain (engine : ClassQueryEngine) (key : Option QueryTables × QueryKind × Bool)
    (result : Option RawQueryResult) : ClassQueryEngine × Option RawQueryResult :=
  match result with
  | some value => ({ engine with results := (key, value) :: engine.results }, some value)
  | none => (engine, none)

/-- The evaluation of a payload, from the cache where it is there. -/
def ClassQueryEngine.evaluation (engine : ClassQueryEngine) (query : QueryTables) : Option QueryEvaluation :=
  (engine.evaluations.lookup query).or (evaluateQuery engine.session.compiled.toTables query)

/-- `ClassQueryEngine.query`, with `none` for a refused payload or a run that raises. An evaluation whose
run raised is kept without the contexts it was asked for: a later request meets the refused premise again. -/
def ClassQueryEngine.query (engine : ClassQueryEngine) (payload : Option QueryIR) (kind : QueryKind) (direct : Bool) :
    ClassQueryEngine × Option RawQueryResult :=
  let key := (payload.map QueryIR.toQueryTables, kind, direct)
  match engine.results.lookup key with
  | some cached => (engine, some cached)
  | none =>
    if payload.any fun query => query.kind != .classExpression then (engine, none)
    else
      match engine.session.ensureConsistency with
      | .error _ => (engine, none)
      | .ok (session, consistency) =>
        let engine := { engine with session := session }
        if consistency.inconsistent then
          engine.retain key (inconsistentResult kind engine.classTaxonomy engine.realized)
        else
          match payload with
          | none => engine.retain key (unindexedResult kind direct engine.classTaxonomy)
          | some query =>
            match engine.evaluation query.toQueryTables with
            | none => (engine, none)
            | some evaluation =>
              match evaluation.select session.compiled.toTables engine.classTaxonomy engine.realized kind direct with
              | none => ({ engine with evaluations := (query.toQueryTables, evaluation) :: engine.evaluations }, none)
              | some (evaluation, result) =>
                { engine with evaluations := (query.toQueryTables, evaluation) :: engine.evaluations }.retain key
                  (some result)

/-- An engine of an ontology, after any queries. -/
inductive ClassQueryEngine.Reached (compiled : CompiledOntology) : ClassQueryEngine → Prop
  | opened {session engine} (reachable : session.Reachable compiled)
      (opened : ClassQueryEngine.open session = some engine) : Reached compiled engine
  | queried {engine} (reached : Reached compiled engine) (payload : Option QueryIR) (kind : QueryKind)
    (direct : Bool) :
      Reached compiled (engine.query payload kind direct).1

end PyElk
