import PyElk.Indexing.Validity
import PyElk.Support.Ordered

open Ordered

namespace PyElk

/-- The structural identity of an expression over temporary handles. -/
@[ext]
structure ExpressionKey where
  tag : ExpressionTag
  entities : List EntityRecord
  expressions : List Nat
  payload : List UInt8
  deriving DecidableEq, Repr

def ExpressionKey.rewrittenArguments (key : ExpressionKey) (entityIds : EntityRecord → Nat)
    (expressionIds : Nat → Nat) : List Nat :=
  match key.tag, key.entities, key.expressions with
  | .objectSomeValuesFrom, property :: _, filler :: _ => [entityIds property, expressionIds filler]
  | _, [], expressions => expressions.map expressionIds
  | _, entities, _ => entities.map entityIds

/-- `_checked_add` on both counters of a row: a sum past the unsigned 64-bit range fails. -/
def Occurrence.checkedAdd (counts increment : Occurrence) : Option Occurrence :=
  if counts.negative + increment.negative ≤ U64_MAX ∧ counts.positive + increment.positive ≤ U64_MAX then
    some ⟨counts.negative + increment.negative, counts.positive + increment.positive⟩
  else none

/-- Compact normalized state of one transaction. A set of the source is a list
here, whose duplicates disappear when it is frozen; the dict of the property
occurrences is the list of its items in insertion order. -/
structure MutableIndex where
  entities : List EntityRecord := []
  expressions : List ExpressionKey := []
  expressionOccurrences : List Occurrence := []
  propertyOccurrences : List (EntityRecord × Occurrence) := []
  propertyChains : List (List EntityRecord) := []
  subclassAxioms : List (Nat × Nat) := []
  equivalentClassAxioms : List (Nat × Nat) := []
  disjointGroups : List (List Nat) := []
  subpropertyAxioms : List (List EntityRecord × EntityRecord) := []
  propertyRanges : List (EntityRecord × Nat) := []
  featureCounts : List Nat := List.replicate FEATURE_VECTOR_LENGTH 0
  deriving DecidableEq, Repr

/-- `OntologyBuilder.__init__`. -/
def MutableIndex.new : MutableIndex := { entities := predefinedEntities }

/-- The handle of a key: a new key is appended with zero counters. -/
def MutableIndex.intern (index : MutableIndex) (key : ExpressionKey) : MutableIndex :=
  let index := { index with entities := index.entities ++ key.entities }
  if key ∈ index.expressions then index
  else { index with
    expressions := index.expressions ++ [key]
    expressionOccurrences := index.expressionOccurrences ++ [⟨0, 0⟩] }

/-- Adding to the counters of one handle. -/
def MutableIndex.addOccurrence (index : MutableIndex) (handle : Nat) (counts : Occurrence) : Option MutableIndex :=
  ((index.expressionOccurrences.getD handle ⟨0, 0⟩).checkedAdd counts).map fun total =>
    { index with expressionOccurrences := index.expressionOccurrences.set handle total }

/-- `intern_expression`. -/
def MutableIndex.internExpression (index : MutableIndex) (key : ExpressionKey) (polarity : Occurrence) :
    Option (MutableIndex × Nat) :=
  let handle := index.expressions.idxOf key
  ((index.intern key).addOccurrence handle polarity).map fun index => (index, handle)

def MutableIndex.addPropertyOccurrence (index : MutableIndex) (property : EntityRecord) (counts : Occurrence) :
    Option MutableIndex :=
  (((index.propertyOccurrences.lookup property).getD ⟨0, 0⟩).checkedAdd counts).map fun total =>
    { index with propertyOccurrences := setItem property total index.propertyOccurrences }

/-- `_ensure_named_expressions`. -/
def MutableIndex.ensureNamedExpressions (index : MutableIndex) : MutableIndex :=
  index.entities.foldl (fun index entity =>
    match entity.kind with
    | .owlClass => index.intern ⟨.owlClass, [entity], [], []⟩
    | .namedIndividual => index.intern ⟨.individual, [entity], [], []⟩
    | _ => index) index

/-- `_sorted_entities`. -/
def sortedEntities (entities : List EntityRecord) : List EntityRecord := sortedSet EntityRecord.key entities

section

variable (index : MutableIndex) (entities : List EntityRecord)

/-- The record of a handle once the handles of `order` have their final ids. -/
def MutableIndex.finalRecord (order : List Nat) (handle : Nat) : ExpressionRecord :=
  match index.expressions[handle]? with
  | none => ⟨.owlClass, [], []⟩
  | some key => ⟨key.tag, key.rewrittenArguments entities.idxOf order.idxOf, key.payload⟩

def MutableIndex.dependencies (handle : Nat) : List Nat :=
  (index.expressions[handle]?).elim [] ExpressionKey.expressions

/-- The handles on the heap: all their dependencies have final ids. -/
def MutableIndex.available (order : List Nat) : List Nat :=
  (List.range index.expressions.length).filter fun handle =>
    decide (handle ∉ order) && decide (index.dependencies handle ⊆ order)

/-- One pop of the heap of `_freeze_expressions`. -/
def MutableIndex.freezePop (order : List Nat) : Option Nat :=
  let keyed := (index.available order).map fun handle =>
    (toLex ((index.finalRecord entities order handle).key, handle) : (Nat ×ₗ List Nat ×ₗ List Nat) ×ₗ Nat)
  (keyed.argmin id).map fun least => (ofLex least).2

/-- The handles in the order of their final ids. -/
def MutableIndex.freezeExpressions : Nat → List Nat → List Nat
  | 0, order => order
  | fuel + 1, order =>
    match index.freezePop entities order with
    | none => order
    | some handle => MutableIndex.freezeExpressions fuel (order ++ [handle])

def MutableIndex.finalOrder : List Nat := index.freezeExpressions entities index.expressions.length []

/-- The tables that `freeze` builds from an index with all named expressions. -/
def MutableIndex.tables (sourceFingerprint : List UInt8) : Tables :=
  let order := index.finalOrder entities
  let expressionIds := order.idxOf
  let objectProperties := entities.filter fun record => record.kind == .objectProperty
  let chains := index.propertyChains ++ objectProperties.map fun property => [property]
  let propertyChains := sortedSet id (chains.map fun chain => chain.map entities.idxOf)
  { entities := entities
    expressions := order.map (index.finalRecord entities order)
    expressionOccurrences := order.map fun handle => index.expressionOccurrences.getD handle ⟨0, 0⟩
    propertyOccurrences := objectProperties.map fun property =>
      (index.propertyOccurrences.lookup property).getD ⟨0, 0⟩
    propertyChains := propertyChains
    subclassAxioms := sortedSet (fun row => (toLex row : Nat ×ₗ Nat))
      (index.subclassAxioms.map fun row => (expressionIds row.1, expressionIds row.2))
    equivalentClassAxioms := sortedSet (fun row => (toLex row : Nat ×ₗ Nat))
      (index.equivalentClassAxioms.map fun row => (expressionIds row.1, expressionIds row.2))
    disjointGroups := sortedSet id (index.disjointGroups.map fun group => group.map expressionIds)
    subpropertyAxioms := sortedSet (fun row => (toLex row : Nat ×ₗ Nat))
      (index.subpropertyAxioms.map fun row =>
        (propertyChains.idxOf (row.1.map entities.idxOf), entities.idxOf row.2))
    propertyRanges := sortedSet (fun row => (toLex row : Nat ×ₗ Nat))
      (index.propertyRanges.map fun row => (entities.idxOf row.1, expressionIds row.2))
    featureCounts := index.featureCounts
    sourceFingerprint := sourceFingerprint }

end

/-- The validating constructor. -/
def Tables.check (tables : Tables) : Option CompiledOntology :=
  if valid : tables.Valid then some ⟨tables, valid⟩ else none

/-- `OntologyBuilder.freeze`: a cyclic expression graph is refused. -/
def MutableIndex.freeze (index : MutableIndex) (sourceFingerprint : List UInt8) : Option CompiledOntology :=
  let index := index.ensureNamedExpressions
  let entities := sortedEntities index.entities
  if (index.finalOrder entities).length = index.expressions.length then
    (index.tables entities sourceFingerprint).check
  else none

end PyElk
