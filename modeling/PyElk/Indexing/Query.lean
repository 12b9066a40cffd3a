import PyElk.Indexing.Validity

namespace PyElk

/-- What a query payload asks for. -/
inductive QueryIRKind
  | classExpression | entailment
  deriving DecidableEq, Repr

/-- A query entity and its optional corresponding ontology entity ID. -/
structure QueryEntityRecord where
  entity : EntityRecord
  ontologyId : Option EntityId
  deriving DecidableEq, Repr

/-- The tables of a query payload, before `__post_init__` has looked at them. -/
structure QueryTables where
  kind : QueryIRKind
  entities : List QueryEntityRecord
  expressions : List ExpressionRecord
  expressionOccurrences : List Occurrence
  propertyOccurrences : List Occurrence
  rootExpression : Option ExpressionId
  subsumptionObligations : List (ExpressionId × ExpressionId)
  deriving DecidableEq, Repr

def QueryTables.entityRecords (query : QueryTables) : List EntityRecord :=
  query.entities.map QueryEntityRecord.entity

/-- The kind of a payload decides which of its last two fields may be filled. -/
def QueryTables.checkKind (query : QueryTables) : Bool :=
  match query.kind, query.rootExpression with
  | .classExpression, some root =>
    decide (root < query.expressions.length) && query.subsumptionObligations.isEmpty
  | .entailment, none => true
  | _, _ => false

/-- The checks of `QueryIR.__post_init__`. -/
structure QueryTables.Valid (query : QueryTables) : Prop where
  ontologyIds : (query.entities.filterMap QueryEntityRecord.ontologyId).Nodup ∧
    ∀ entity ∈ query.entities.filterMap QueryEntityRecord.ontologyId, entity < U32_RESERVED
  entities : validateEntities query.entityRecords false
  expressions : validateExpressions query.expressions query.entityRecords
  named : validateNamedEntityExpressions query.expressions query.entityRecords
  occurrences : validateOccurrences query.expressionOccurrences query.propertyOccurrences
    query.expressions query.entityRecords
  obligations : validateSortedPairs query.subsumptionObligations query.expressions.length query.expressions.length
  kind : query.checkKind

instance (query : QueryTables) : Decidable query.Valid :=
  decidable_of_iff
    (((query.entities.filterMap QueryEntityRecord.ontologyId).Nodup ∧
        ∀ entity ∈ query.entities.filterMap QueryEntityRecord.ontologyId, entity < U32_RESERVED) ∧
      validateEntities query.entityRecords false ∧ validateExpressions query.expressions query.entityRecords ∧
      validateNamedEntityExpressions query.expressions query.entityRecords ∧
      validateOccurrences query.expressionOccurrences query.propertyOccurrences query.expressions
        query.entityRecords ∧
      validateSortedPairs query.subsumptionObligations query.expressions.length query.expressions.length ∧
      query.checkKind)
    ⟨fun ⟨a, b, c, d, e, f, g⟩ => ⟨a, b, c, d, e, f, g⟩, fun ⟨a, b, c, d, e, f, g⟩ => ⟨a, b, c, d, e, f, g⟩⟩

/-- Self-contained query-local expression graph and normalized obligations. -/
structure QueryIR extends QueryTables where
  valid : toQueryTables.Valid

end PyElk
