import PyElk.Reasoning.Taxonomy
import PyElk.Support.UnionFind

open Relation Ordered UnionFind

namespace PyElk

/-- The checks of `RawRealization.__post_init__`. -/
structure RawRealization.Valid (classTaxonomy : RawTaxonomy) (instanceNodes : List (List EntityId))
    (directTypes : List (Nat × Nat)) : Prop where
  canonical : validateNodes instanceNodes
  pairs : validateIndexPairs directTypes instanceNodes.length classTaxonomy.nodes.length false
  typed : ∀ index, index ∈ directTypes.map Prod.fst ↔ index < instanceNodes.length

instance RawRealization.decidableValid (classTaxonomy : RawTaxonomy) (instanceNodes : List (List EntityId))
    (directTypes : List (Nat × Nat)) : Decidable (RawRealization.Valid classTaxonomy instanceNodes directTypes) :=
  decidable_of_iff (validateNodes instanceNodes ∧
      validateIndexPairs directTypes instanceNodes.length classTaxonomy.nodes.length false ∧
      (∀ index ∈ directTypes.map Prod.fst, index < instanceNodes.length) ∧
      ∀ index ∈ List.range instanceNodes.length, index ∈ directTypes.map Prod.fst)
    ⟨fun ⟨a, b, c, d⟩ => ⟨a, b, fun index => ⟨c index, fun inside => d index (List.mem_range.mpr inside)⟩⟩,
      fun ⟨a, b, c⟩ => ⟨a, b, fun index => (c index).mp,
        fun index inside => (c index).mpr (List.mem_range.mp inside)⟩⟩

/-- Backend-neutral class taxonomy plus individual nodes and direct types. -/
structure RawRealization where
  classTaxonomy : RawTaxonomy
  instanceNodes : List (List EntityId)
  directTypes : List (Nat × Nat)
  valid : RawRealization.Valid classTaxonomy instanceNodes directTypes
  deriving DecidableEq

def RawRealization.check (classTaxonomy : RawTaxonomy) (instanceNodes : List (List EntityId))
    (directTypes : List (Nat × Nat)) : Option RawRealization :=
  if valid : RawRealization.Valid classTaxonomy instanceNodes directTypes then
    some ⟨classTaxonomy, instanceNodes, directTypes, valid⟩
  else none

/-- `_subsumers`. -/
def subsumersOf (root : ExpressionId) (context : Option Context) : List ExpressionId :=
  root :: context.elim [] fun context => context.composedSubsumers ++ context.decomposedSubsumers

/-- `_strict_super_closure`, one row of it. -/
def RawTaxonomy.strictSupers (taxonomy : RawTaxonomy) (start : Nat) : List Nat :=
  let outgoing := fun node => (taxonomy.directEdges.filter fun edge => edge.1 == node).map Prod.snd
  Reduction.mark outgoing
    ((outgoing start).length + ((List.range taxonomy.nodes.length).map (Components.weight outgoing)).sum)
    (outgoing start).reverse []

/-- `_minimal_nodes`. -/
def minimalNodes (candidates : List Nat) (strictSupers : Nat → List Nat) : List Nat :=
  sortedSet id (candidates.filter fun node =>
    !candidates.any fun other => other != node && decide (node ∈ strictSupers other))

/-- `expression_to_class_node`. -/
def Tables.expressionToClassNode (compiled : Tables) (taxonomy : RawTaxonomy)
    (expression : ExpressionId) : Option Nat :=
  (compiled.classEntity expression).bind fun entity =>
    if entity ∈ taxonomy.nodes.flatten then some (nodeFor taxonomy.nodes entity) else none

/-- Each entry with every later one. -/
def laterPairs : List EntityId → List (EntityId × EntityId)
  | [] => []
  | first :: rest => rest.map (first, ·) ++ laterPairs rest

section

variable (compiled : Tables) (taxonomy : RawTaxonomy) (subsumers : EntityId → List ExpressionId)

/-- Two individuals that are among each other's subsumers. -/
def Tables.sameIndividual (pair : EntityId × EntityId) : Bool :=
  decide (compiled.namedExpression .individual pair.2 ∈ subsumers pair.1) &&
    decide (compiled.namedExpression .individual pair.1 ∈ subsumers pair.2)

/-- The same-individual nodes. -/
def Tables.instanceNodes (individuals : List EntityId) : List (List EntityId) :=
  sortedBy id (((Forest.discrete.unionAll
    ((laterPairs individuals).filter (compiled.sameIndividual subsumers))).classes
    individuals).map (sortedBy id))

/-- `candidate_types` of one instance node. -/
def Tables.candidateTypes (node : List EntityId) : List Nat :=
  (taxonomy.top :: node.flatMap fun individual =>
    (subsumers individual).filterMap (compiled.expressionToClassNode taxonomy)).filter (· != taxonomy.bottom)

/-- The direct types of one instance node. -/
def Tables.directTypesOf (node : List EntityId) : List Nat :=
  let direct := minimalNodes (compiled.candidateTypes taxonomy subsumers node) taxonomy.strictSupers
  if direct.isEmpty then [taxonomy.top] else direct

end

/-- Build same-individual nodes and their minimal named class types. -/
def buildRealization (compiled : Tables) (saturation : SaturationSnapshot) (taxonomy : RawTaxonomy) :
    Option RawRealization :=
  let individuals := entityIds compiled.entities .namedIndividual
  if saturation.inconsistentOntology then
    if individuals.isEmpty then RawRealization.check taxonomy [] []
    else RawRealization.check taxonomy [individuals] [(0, taxonomy.top)]
  else if individuals.all fun individual =>
      (compiled.classContext saturation (compiled.namedExpression .individual individual)).isSome then
    let subsumers := fun individual => subsumersOf (compiled.namedExpression .individual individual)
      (compiled.classContext saturation (compiled.namedExpression .individual individual))
    let nodes := compiled.instanceNodes subsumers individuals
    RawRealization.check taxonomy nodes (sortedBy pairKey (nodes.zipIdx.flatMap fun row =>
      (compiled.directTypesOf taxonomy subsumers row.1).map (row.2, ·)))
  else none

/-- `realization`. -/
def SaturationSession.realization (session : SaturationSession) (taxonomy : RawTaxonomy) :
    Except ReasoningError (SaturationSession × Option RawRealization) := do
  let (session, saturation) ← session.ensureRealized
  pure (session, buildRealization session.compiled.toTables saturation taxonomy)

/-- The index of the node that contains a member. -/
def nodeIndex (nodes : List (List EntityId)) (member : EntityId) : Option Nat :=
  if member ∈ nodes.flatten then some (nodeFor nodes member) else none

/-- `_taxonomy_nodes`. -/
def RawTaxonomy.select (taxonomy : RawTaxonomy) (indices : List Nat) : List (List EntityId) :=
  sortedBy id (indices.dedup.map fun index => taxonomy.nodes.getD index [])

section

variable (value : RawRealization)

/-- `equivalent_individuals`. -/
def RawRealization.equivalentIndividuals (individual : EntityId) (freshId : Option EntityId) :
    Option (List EntityId) :=
  match nodeIndex value.instanceNodes individual with
  | some index => some (value.instanceNodes.getD index [])
  | none => if freshId = some individual then some [individual] else none

/-- `direct_type_indices`. -/
def RawRealization.directTypeIndices (index : Nat) : List Nat :=
  (value.directTypes.filter fun row => row.1 == index).map Prod.snd

/-- `types`: direct or transitive named types for one individual. -/
def RawRealization.types (individual : EntityId) (direct : Bool) (freshId : Option EntityId) :
    Option (List (List EntityId)) :=
  match nodeIndex value.instanceNodes individual with
  | some index =>
    let indices := value.directTypeIndices index
    some (value.classTaxonomy.select
      (if direct then indices else indices ++ indices.flatMap value.classTaxonomy.strictSupers))
  | none =>
    if freshId = some individual then some [value.classTaxonomy.nodes.getD value.classTaxonomy.top []] else none

/-- `instances`: direct instances, or instances inherited from strict subclasses. -/
def RawRealization.instances (classEntity : EntityId) (direct : Bool) : Option (List (List EntityId)) :=
  (nodeIndex value.classTaxonomy.nodes classEntity).map fun index =>
    (sortedSet id ((value.directTypes.filter fun row =>
      row.2 == index || (!direct && decide (index ∈ value.classTaxonomy.strictSupers row.2))).map Prod.fst)).map
        fun instanceIndex => value.instanceNodes.getD instanceIndex []

end

end PyElk
