import PyElk.Indexing.Ir

namespace PyElk.Owl

/-- A literal as pyowl-core keeps it. -/
structure Literal where
  lexicalForm : String
  datatype : String
  language : Option String
  deriving DecidableEq, Repr

inductive Individual
  | namedIndividual (iri : String)
  | anonymousIndividual (label : String)
  deriving DecidableEq, Repr

inductive ObjectPropertyExpression
  | objectProperty (iri : String)
  | objectInverseOf (iri : String)
  deriving DecidableEq, Repr

/-- The class expressions that have no indexed form, whatever their operands. -/
inductive UnsupportedExpression
  | objectAllValuesFrom | objectExactCardinality | objectMaxCardinality | objectMinCardinality
  | dataAllValuesFrom | dataExactCardinality | dataMaxCardinality | dataMinCardinality | dataSomeValuesFrom
  deriving DecidableEq, Repr

/-- The class expressions of pyowl-core. A canonical set of operands is the list
of its members in iteration order. -/
inductive ClassExpression
  | owlClass (iri : String)
  | objectIntersectionOf (operands : List ClassExpression)
  | objectUnionOf (operands : List ClassExpression)
  | objectComplementOf (operand : ClassExpression)
  | objectOneOf (individuals : List Individual)
  | objectSomeValuesFrom (property : ObjectPropertyExpression) (filler : ClassExpression)
  | objectHasValue (property : ObjectPropertyExpression) (value : Individual)
  | objectHasSelf (property : ObjectPropertyExpression)
  | dataHasValue (property : String) (value : Literal)
  | unsupported (expression : UnsupportedExpression)
  deriving Repr

inductive SubObjectPropertyExpression
  | property (expression : ObjectPropertyExpression)
  | objectPropertyChain (properties : List ObjectPropertyExpression)
  deriving DecidableEq, Repr

/-- `ANNOTATION_AXIOM_TYPES`. -/
inductive AnnotationNode
  | annotationAssertion | annotationPropertyDomain | annotationPropertyRange | subAnnotationPropertyOf
  deriving DecidableEq, Repr

/-- The statements that have no indexed form, whatever their operands. -/
inductive UnsupportedNode
  | asymmetricObjectProperty | dataPropertyAssertion | dataPropertyDomain | dataPropertyRange
  | datatypeDefinition | disjointDataProperties | disjointObjectProperties | equivalentDataProperties
  | functionalDataProperty | functionalObjectProperty | hasKey | inverseFunctionalObjectProperty
  | inverseObjectProperties | irreflexiveObjectProperty | negativeDataPropertyAssertion
  | negativeObjectPropertyAssertion | subDataPropertyOf | symmetricObjectProperty
  deriving DecidableEq, Repr

/-- The statements of an ontology, their annotations left out. -/
inductive AxiomNode
  | declaration (entity : EntityRecord)
  | subClassOf (subClass superClass : ClassExpression)
  | equivalentClasses (expressions : List ClassExpression)
  | disjointClasses (expressions : List ClassExpression)
  | disjointUnion (definedClass : String) (expressions : List ClassExpression)
  | classAssertion (classExpression : ClassExpression) (individual : Individual)
  | sameIndividual (individuals : List Individual)
  | differentIndividuals (individuals : List Individual)
  | objectPropertyAssertion (property : ObjectPropertyExpression) (source target : Individual)
  | equivalentObjectProperties (properties : List ObjectPropertyExpression)
  | subObjectPropertyOf (subProperty : SubObjectPropertyExpression) (superProperty : ObjectPropertyExpression)
  | objectPropertyDomain (property : ObjectPropertyExpression) (domain : ClassExpression)
  | objectPropertyRange (property : ObjectPropertyExpression) (range : ClassExpression)
  | reflexiveObjectProperty (property : ObjectPropertyExpression)
  | transitiveObjectProperty (property : ObjectPropertyExpression)
  | annotated (node : AnnotationNode)
  | unsupported (node : UnsupportedNode)
  deriving Repr

/-- What the expression converter visits: a class expression or an individual. -/
inductive Value
  | expression (value : ClassExpression)
  | individual (value : Individual)
  deriving Repr

end PyElk.Owl
