import PyElk.Indexing.Builder
import PyElk.Indexing.Query

namespace PyElk

/-- A dictionary from the values of a table to their positions. -/
def positionOf {α : Type} [DecidableEq α] (values : List α) (value : α) : Option Nat :=
  if value ∈ values then some (values.idxOf value) else none

def recordAt (entities : List EntityRecord) (entity : EntityId) : EntityRecord :=
  entities.getD entity ⟨.owlClass, ""⟩

/-- The key under which `_load_expressions` interns a record whose operands have
the given handles. -/
def ExpressionRecord.loadKey (entities : List EntityRecord) (handles : List Nat) (record : ExpressionRecord) :
    ExpressionKey :=
  match record.tag, record.arguments with
  | .objectSomeValuesFrom, [relation, filler] =>
    ⟨record.tag, [recordAt entities relation], [handles.getD filler 0], record.payload⟩
  | .objectIntersectionOf, arguments | .objectComplementOf, arguments | .objectUnionOf, arguments =>
    ⟨record.tag, [], arguments.map fun argument => handles.getD argument 0, record.payload⟩
  | _, arguments => ⟨record.tag, arguments.map (recordAt entities), [], record.payload⟩

/-- `_load_expressions`, with the handles of the records loaded so far. -/
def MutableIndex.loadExpressions (entities : List EntityRecord) :
    List (ExpressionRecord × Occurrence) → MutableIndex → List Nat → Option (MutableIndex × List Nat)
  | [], index, handles => some (index, handles)
  | (record, counts) :: rest, index, handles =>
    (index.internExpression (record.loadKey entities handles) ⟨0, 0⟩).bind fun interned =>
      (interned.1.addOccurrence interned.2 counts).bind fun index =>
        MutableIndex.loadExpressions entities rest index (handles ++ [interned.2])

/-- `_add_property_occurrences`. -/
def MutableIndex.addPropertyOccurrences : List (EntityRecord × Occurrence) → MutableIndex → Option MutableIndex
  | [], index => some index
  | (property, counts) :: rest, index =>
    (index.addPropertyOccurrence property counts).bind (MutableIndex.addPropertyOccurrences rest)

def objectPropertyRecords (entities : List EntityRecord) : List EntityRecord :=
  entities.filter fun record => record.kind == .objectProperty

/-- The axiom rows that `_load_ontology` adds once every expression has its handle. -/
def MutableIndex.addRows (index : MutableIndex) (compiled : Tables) (handles : List Nat) : MutableIndex :=
  let handle := fun expression => handles.getD expression 0
  let chain := fun properties => properties.map (recordAt compiled.entities)
  { index with
    propertyChains := index.propertyChains ++ compiled.propertyChains.map chain ++
      compiled.subpropertyAxioms.map fun row => chain (compiled.propertyChains.getD row.1 [])
    subclassAxioms := index.subclassAxioms ++ compiled.subclassAxioms.map fun row => (handle row.1, handle row.2)
    equivalentClassAxioms := index.equivalentClassAxioms ++
      compiled.equivalentClassAxioms.map fun row => (handle row.1, handle row.2)
    disjointGroups := index.disjointGroups ++ compiled.disjointGroups.map fun group => group.map handle
    subpropertyAxioms := index.subpropertyAxioms ++ compiled.subpropertyAxioms.map fun row =>
      (chain (compiled.propertyChains.getD row.1 []), recordAt compiled.entities row.2)
    propertyRanges := index.propertyRanges ++
      compiled.propertyRanges.map fun row => (recordAt compiled.entities row.1, handle row.2)
    featureCounts := compiled.featureCounts }

/-- `_load_ontology`. -/
def MutableIndex.loadOntology (index : MutableIndex) (compiled : Tables) : Option (MutableIndex × List Nat) :=
  (MutableIndex.loadExpressions compiled.entities (compiled.expressions.zip compiled.expressionOccurrences)
      { index with entities := index.entities ++ compiled.entities } []).bind fun loaded =>
    (loaded.1.addPropertyOccurrences
      ((objectPropertyRecords compiled.entities).zip compiled.propertyOccurrences)).map fun index =>
        (index.addRows compiled loaded.2, loaded.2)

/-- `_load_query`. -/
def MutableIndex.loadQuery (index : MutableIndex) (query : QueryTables) : Option (MutableIndex × List Nat) :=
  (MutableIndex.loadExpressions query.entityRecords (query.expressions.zip query.expressionOccurrences)
      { index with entities := index.entities ++ query.entityRecords } []).bind fun loaded =>
    (loaded.1.addPropertyOccurrences
      ((objectPropertyRecords query.entityRecords).zip query.propertyOccurrences)).map fun index =>
        (index, loaded.2)

/-- The arguments of a source record over the ids of an overlay. -/
def ExpressionRecord.remapArguments (entities : List EntityRecord) (overlay : Tables) (mapped : List ExpressionId)
    (record : ExpressionRecord) : Option (List Nat) :=
  match record.tag, record.arguments with
  | .objectSomeValuesFrom, [relation, filler] =>
    (positionOf overlay.entities (recordAt entities relation)).bind fun relation =>
      mapped[filler]?.map fun filler => [relation, filler]
  | .objectIntersectionOf, arguments | .objectComplementOf, arguments | .objectUnionOf, arguments =>
    arguments.mapM fun argument => mapped[argument]?
  | _, arguments => arguments.mapM fun entity => positionOf overlay.entities (recordAt entities entity)

/-- `_remap_expressions`, with the ids of the records mapped so far. -/
def remapExpressions (entities : List EntityRecord) (overlay : Tables) :
    List ExpressionRecord → List ExpressionId → Option (List ExpressionId)
  | [], mapped => some mapped
  | record :: rest, mapped =>
    (record.remapArguments entities overlay mapped).bind fun arguments =>
      (positionOf overlay.expressions ⟨record.tag, arguments, record.payload⟩).bind fun expression =>
        remapExpressions entities overlay rest (mapped ++ [expression])

/-- The entity references of a query must match the session table. -/
def QueryTables.matchesOntology (query : QueryTables) (compiled : Tables) : Bool :=
  query.entities.all fun record => record.ontologyId == positionOf compiled.entities record.entity

/-- An ontology with a query spliced into it, and the ids of both in it. -/
structure Overlay where
  ontology : CompiledOntology
  ontologyIds : List ExpressionId
  queryIds : List ExpressionId

/-- `_install_query`. -/
def installQuery (compiled : Tables) (query : QueryTables) : Option Overlay :=
  if query.matchesOntology compiled then
    (MutableIndex.new.loadOntology compiled).bind fun loaded =>
      (loaded.1.loadQuery query).bind fun extended =>
        (extended.1.freeze compiled.sourceFingerprint).bind fun overlay =>
          (remapExpressions compiled.entities overlay.toTables compiled.expressions []).bind fun ontologyIds =>
            (remapExpressions query.entityRecords overlay.toTables query.expressions []).bind fun queryIds =>
              if loaded.2.length = compiled.expressions.length then some ⟨overlay, ontologyIds, queryIds⟩ else none
  else none

end PyElk
