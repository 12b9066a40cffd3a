import PyElk.Indexing.Builder
import PyElk.Indexing.Owl

namespace PyElk

def ONTOLOGY_FEATURE_NAMES : List String :=
  ["ANONYMOUS_INDIVIDUAL", "ASYMMETRIC_OBJECT_PROPERTY", "BOTTOM_OBJECT_PROPERTY_POSITIVE",
   "DATA_ALL_VALUES_FROM", "DATA_EXACT_CARDINALITY", "DATA_HAS_VALUE", "DATA_MAX_CARDINALITY",
   "DATA_MIN_CARDINALITY", "DATA_PROPERTY", "DATA_PROPERTY_ASSERTION", "DATA_PROPERTY_DOMAIN",
   "DATA_PROPERTY_RANGE", "DATA_SOME_VALUES_FROM", "DATATYPE", "DATATYPE_DEFINITION",
   "DIFFERENT_INDIVIDUALS", "DISJOINT_CLASSES", "DISJOINT_DATA_PROPERTIES", "DISJOINT_OBJECT_PROPERTIES",
   "DISJOINT_UNION", "EQUIVALENT_DATA_PROPERTIES", "FUNCTIONAL_DATA_PROPERTY", "FUNCTIONAL_OBJECT_PROPERTY",
   "HAS_KEY", "INVERSE_FUNCTIONAL_OBJECT_PROPERTY", "INVERSE_OBJECT_PROPERTIES",
   "IRREFLEXIVE_OBJECT_PROPERTY", "NEGATIVE_DATA_PROPERTY_ASSERTION", "NEGATIVE_OBJECT_PROPERTY_ASSERTION",
   "OBJECT_ALL_VALUES_FROM", "OBJECT_COMPLEMENT_OF_NEGATIVE", "OBJECT_COMPLEMENT_OF_POSITIVE",
   "OBJECT_EXACT_CARDINALITY", "OBJECT_HAS_SELF_NEGATIVE", "OBJECT_HAS_VALUE_POSITIVE",
   "OBJECT_INVERSE_OF", "OBJECT_MAX_CARDINALITY", "OBJECT_MIN_CARDINALITY", "OBJECT_ONE_OF",
   "OBJECT_PROPERTY_ASSERTION", "OBJECT_PROPERTY_CHAIN", "OBJECT_PROPERTY_RANGE",
   "OBJECT_UNION_OF_POSITIVE", "OWL_NOTHING_POSITIVE", "REFLEXIVE_OBJECT_PROPERTY", "SUB_DATA_PROPERTY_OF",
   "SWRL_RULE", "SYMMETRIC_OBJECT_PROPERTY", "TOP_OBJECT_PROPERTY_NEGATIVE"]

def QUERY_FEATURE_NAMES : List String :=
  ["QUERY_ANNOTATION_ASSERTION_AXIOM", "QUERY_ANNOTATION_PROPERTY_DOMAIN_AXIOM",
   "QUERY_ANNOTATION_PROPERTY_RANGE_AXIOM", "QUERY_SUB_ANNOTATION_PROPERTY_OF_AXIOM",
   "QUERY_DATA_PROPERTY_ASSERTION_AXIOM", "QUERY_NEGATIVE_DATA_PROPERTY_ASSERTION_AXIOM",
   "QUERY_NEGATIVE_OBJECT_PROPERTY_ASSERTION_AXIOM", "QUERY_DISJOINT_UNION_AXIOM",
   "QUERY_DATA_PROPERTY_DOMAIN_AXIOM", "QUERY_DATA_PROPERTY_RANGE_AXIOM",
   "QUERY_DISJOINT_DATA_PROPERTIES_AXIOM", "QUERY_EQUIVALENT_DATA_PROPERTIES_AXIOM",
   "QUERY_FUNCTIONAL_DATA_PROPERTY_AXIOM", "QUERY_SUB_DATA_PROPERTY_OF_AXIOM",
   "QUERY_DATATYPE_DEFINITION_AXIOM", "QUERY_DECLARATION_AXIOM", "QUERY_HAS_KEY_AXIOM",
   "QUERY_ASYMMETRIC_OBJECT_PROPERTY_AXIOM", "QUERY_DISJOINT_OBJECT_PROPERTIES_AXIOM",
   "QUERY_EQUIVALENT_OBJECT_PROPERTIES_AXIOM", "QUERY_FUNCTIONAL_OBJECT_PROPERTY_AXIOM",
   "QUERY_INVERSE_FUNCTIONAL_OBJECT_PROPERTY_AXIOM", "QUERY_INVERSE_OBJECT_PROPERTIES_AXIOM",
   "QUERY_IRREFLEXIVE_OBJECT_PROPERTY_AXIOM", "QUERY_OBJECT_PROPERTY_RANGE_AXIOM",
   "QUERY_REFLEXIVE_OBJECT_PROPERTY_AXIOM", "QUERY_SUB_OBJECT_PROPERTY_OF_AXIOM",
   "QUERY_SYMMETRIC_OBJECT_PROPERTY_AXIOM", "QUERY_TRANSITIVE_OBJECT_PROPERTY_AXIOM", "QUERY_SWRL_RULE"]

/-- `FEATURE_INDEX`. -/
def featureIndex (feature : String) : Nat := (ONTOLOGY_FEATURE_NAMES ++ QUERY_FEATURE_NAMES).idxOf feature

/-- Occurrence directions carried by one compiler conversion. -/
inductive IndexPolarity
  | neutral | negative | positive | dual
  deriving DecidableEq, Repr

/-- The `negative` and `positive` properties of a mask. -/
def IndexPolarity.occurrence : IndexPolarity → Occurrence
  | neutral => ⟨0, 0⟩
  | negative => ⟨1, 0⟩
  | positive => ⟨0, 1⟩
  | dual => ⟨1, 1⟩

/-- The polarity used below an object complement. -/
def IndexPolarity.complementary : IndexPolarity → IndexPolarity
  | negative => positive
  | positive => negative
  | same => same

/-- What a conversion raises; `UnsupportedConstruct` carries its pinned feature. -/
inductive ConversionError
  | unsupportedConstruct (feature : String)
  | overflowError | valueError | typeError | assertionError
  deriving DecidableEq, Repr

/-- A step of a conversion into one transaction, which a raised error leaves to
be rolled back. -/
abbrev Conversion := StateT MutableIndex (Except ConversionError)

/-- A step of the transaction that fails only when a counter overflows. -/
def Conversion.checked {α : Type} (step : MutableIndex → Option (α × MutableIndex)) : Conversion α := fun index =>
  match step index with
  | some result => .ok result
  | none => .error .overflowError

/-- A guard that raises. -/
def Conversion.require (condition : Prop) [Decidable condition] (error : ConversionError) : Conversion Unit :=
  if condition then pure () else throw error

/-- The private literal key of a `LiteralKeyProvider`; an empty key is refused. -/
structure ElkCompatibilityKey where
  payload : List UInt8
  nonempty : payload ≠ []

namespace MutableIndex

def addEntity (entity : EntityRecord) : Conversion Unit :=
  modify fun index => { index with entities := index.entities ++ [entity] }

/-- `intern_expression`. -/
def internKey (key : ExpressionKey) (polarity : IndexPolarity) : Conversion Nat :=
  Conversion.checked fun index => (index.internExpression key polarity.occurrence).map Prod.swap

def expressionTag (handle : Nat) : Conversion ExpressionTag := do
  match (← get).expressions[handle]? with
  | some key => pure key.tag
  | none => throw .assertionError

def recordObjectProperty (entity : EntityRecord) (polarity : IndexPolarity) : Conversion Unit := do
  Conversion.require (entity.kind = .objectProperty) .typeError
  addEntity entity
  Conversion.checked fun index => (index.addPropertyOccurrence entity polarity.occurrence).map
    fun index => ((), index)

/-- `add_feature`. -/
def addFeature (feature : String) (count : Nat) : Conversion Unit :=
  Conversion.checked fun index =>
    let position := featureIndex feature
    let total := index.featureCounts.getD position 0 + count
    if total ≤ U64_MAX then some ((), { index with featureCounts := index.featureCounts.set position total })
    else none

/-- An `add_feature` under a condition. -/
def addFeatureIf (condition : Prop) [Decidable condition] (feature : String) : Conversion Unit :=
  if condition then addFeature feature 1 else pure ()

def addPropertyChain (properties : List EntityRecord) : Conversion Unit := do
  Conversion.require (properties ≠ []) .valueError
  Conversion.require (∀ entity ∈ properties, entity.kind = .objectProperty) .typeError
  modify fun index => { index with entities := index.entities ++ properties
                                   propertyChains := index.propertyChains ++ [properties] }

def addSubclass (sub super : Nat) : Conversion Unit :=
  modify fun index => { index with subclassAxioms := index.subclassAxioms ++ [(sub, super)] }

def addEquivalentClass (defined other : Nat) : Conversion Unit :=
  modify fun index => { index with equivalentClassAxioms := index.equivalentClassAxioms ++ [(defined, other)] }

def addDisjointGroup (members : List Nat) : Conversion Unit := do
  Conversion.require (2 ≤ members.length) .valueError
  modify fun index => { index with disjointGroups := index.disjointGroups ++ [members] }

def addSubproperty (subChain : List EntityRecord) (superProperty : EntityRecord) : Conversion Unit := do
  addPropertyChain subChain
  Conversion.require (superProperty.kind = .objectProperty) .typeError
  addEntity superProperty
  modify fun index => { index with subpropertyAxioms := index.subpropertyAxioms ++ [(subChain, superProperty)] }

def addPropertyRange (property : EntityRecord) (range : Nat) : Conversion Unit := do
  Conversion.require (property.kind = .objectProperty) .typeError
  addEntity property
  modify fun index => { index with propertyRanges := index.propertyRanges ++ [(property, range)] }

end MutableIndex

open MutableIndex

/-- `entity_record`: a record refuses an empty IRI. -/
def entityRecord (kind : EntityKind) (iri : String) : Conversion EntityRecord :=
  if iri = "" then throw .valueError else pure ⟨kind, iri⟩

/-- `_UNSUPPORTED_EXPRESSION_FEATURE`. -/
def Owl.UnsupportedExpression.feature : Owl.UnsupportedExpression → String
  | objectAllValuesFrom => "OBJECT_ALL_VALUES_FROM"
  | objectExactCardinality => "OBJECT_EXACT_CARDINALITY"
  | objectMaxCardinality => "OBJECT_MAX_CARDINALITY"
  | objectMinCardinality => "OBJECT_MIN_CARDINALITY"
  | dataAllValuesFrom => "DATA_ALL_VALUES_FROM"
  | dataExactCardinality => "DATA_EXACT_CARDINALITY"
  | dataMaxCardinality => "DATA_MAX_CARDINALITY"
  | dataMinCardinality => "DATA_MIN_CARDINALITY"
  | dataSomeValuesFrom => "DATA_SOME_VALUES_FROM"

/-- `_UNSUPPORTED_AXIOM_FEATURE`. -/
def Owl.UnsupportedNode.feature : Owl.UnsupportedNode → String
  | asymmetricObjectProperty => "ASYMMETRIC_OBJECT_PROPERTY"
  | dataPropertyAssertion => "DATA_PROPERTY_ASSERTION"
  | dataPropertyDomain => "DATA_PROPERTY_DOMAIN"
  | dataPropertyRange => "DATA_PROPERTY_RANGE"
  | datatypeDefinition => "DATATYPE_DEFINITION"
  | disjointDataProperties => "DISJOINT_DATA_PROPERTIES"
  | disjointObjectProperties => "DISJOINT_OBJECT_PROPERTIES"
  | equivalentDataProperties => "EQUIVALENT_DATA_PROPERTIES"
  | functionalDataProperty => "FUNCTIONAL_DATA_PROPERTY"
  | functionalObjectProperty => "FUNCTIONAL_OBJECT_PROPERTY"
  | hasKey => "HAS_KEY"
  | inverseFunctionalObjectProperty => "INVERSE_FUNCTIONAL_OBJECT_PROPERTY"
  | inverseObjectProperties => "INVERSE_OBJECT_PROPERTIES"
  | irreflexiveObjectProperty => "IRREFLEXIVE_OBJECT_PROPERTY"
  | negativeDataPropertyAssertion => "NEGATIVE_DATA_PROPERTY_ASSERTION"
  | negativeObjectPropertyAssertion => "NEGATIVE_OBJECT_PROPERTY_ASSERTION"
  | subDataPropertyOf => "SUB_DATA_PROPERTY_OF"
  | symmetricObjectProperty => "SYMMETRIC_OBJECT_PROPERTY"

/-- `_UNSUPPORTED_QUERY_FEATURE`. -/
def Owl.AxiomNode.queryFeature : Owl.AxiomNode → Option String
  | annotated .annotationAssertion => some "QUERY_ANNOTATION_ASSERTION_AXIOM"
  | annotated .annotationPropertyDomain => some "QUERY_ANNOTATION_PROPERTY_DOMAIN_AXIOM"
  | annotated .annotationPropertyRange => some "QUERY_ANNOTATION_PROPERTY_RANGE_AXIOM"
  | annotated .subAnnotationPropertyOf => some "QUERY_SUB_ANNOTATION_PROPERTY_OF_AXIOM"
  | unsupported node => some ("QUERY_" ++ node.feature ++ "_AXIOM")
  | disjointUnion _ _ => some "QUERY_DISJOINT_UNION_AXIOM"
  | declaration _ => some "QUERY_DECLARATION_AXIOM"
  | equivalentObjectProperties _ => some "QUERY_EQUIVALENT_OBJECT_PROPERTIES_AXIOM"
  | objectPropertyRange _ _ => some "QUERY_OBJECT_PROPERTY_RANGE_AXIOM"
  | reflexiveObjectProperty _ => some "QUERY_REFLEXIVE_OBJECT_PROPERTY_AXIOM"
  | subObjectPropertyOf _ _ => some "QUERY_SUB_OBJECT_PROPERTY_OF_AXIOM"
  | transitiveObjectProperty _ => some "QUERY_TRANSITIVE_OBJECT_PROPERTY_AXIOM"
  | _ => none

/-- What a `_Finish` task does with the results of its children. -/
inductive FinishOperation
  | intersection | union | oneOf | complement | some
  deriving DecidableEq, Repr

/-- The entries of the task stack. -/
inductive ConversionTask
  | visit (value : Owl.Value) (polarity : IndexPolarity)
  | finish (operation : FinishOperation) (polarity : IndexPolarity) (childCount : Nat) (prop : Option EntityRecord)

namespace ExpressionConverter

section

variable (literalKey : Owl.Literal → ElkCompatibilityKey) (nodeLimit : Nat)

/-- `_class`. -/
def convertClass (iri : String) (polarity : IndexPolarity) : Conversion Nat := do
  let record ← entityRecord .owlClass iri
  let handle ← internKey ⟨.owlClass, [record], [], []⟩ polarity
  addFeatureIf (iri = OWL_NOTHING_IRI ∧ polarity.occurrence.positive = 1) "OWL_NOTHING_POSITIVE"
  pure handle

/-- `_individual`. -/
def convertIndividual (iri : String) (polarity : IndexPolarity) : Conversion Nat := do
  internKey ⟨.individual, [← entityRecord .namedIndividual iri], [], []⟩ polarity

def objectProperty (value : Owl.ObjectPropertyExpression) (polarity : IndexPolarity) : Conversion EntityRecord :=
  match value with
  | .objectInverseOf _ => throw (.unsupportedConstruct "OBJECT_INVERSE_OF")
  | .objectProperty iri => do
    let record ← entityRecord .objectProperty iri
    recordObjectProperty record polarity
    addFeatureIf (iri = OWL_BOTTOM_OBJECT_PROPERTY_IRI ∧ polarity.occurrence.positive = 1)
      "BOTTOM_OBJECT_PROPERTY_POSITIVE"
    addFeatureIf (iri = OWL_TOP_OBJECT_PROPERTY_IRI ∧ polarity.occurrence.negative = 1)
      "TOP_OBJECT_PROPERTY_NEGATIVE"
    pure record

/-- The left fold of an intersection over the handles of its members. -/
def foldIntersection (polarity : IndexPolarity) (result : Nat) : List Nat → Conversion Nat
  | [] => pure result
  | child :: rest => do
    foldIntersection polarity (← internKey ⟨.objectIntersectionOf, [], [result, child], []⟩ polarity) rest

/-- The union case of `_finish`. -/
def finishUnion (polarity : IndexPolarity) : List Nat → Conversion Nat
  | [] => convertClass OWL_NOTHING_IRI polarity
  | [child] => pure child
  | children => do
    let result ← internKey ⟨.objectUnionOf, [], children, []⟩ polarity
    addFeatureIf (polarity.occurrence.positive = 1) "OBJECT_UNION_OF_POSITIVE"
    pure result

/-- `_finish`. -/
def finish (operation : FinishOperation) (polarity : IndexPolarity) (prop : Option EntityRecord)
    (children : List Nat) : Conversion Nat :=
  match operation, children with
  | .intersection, [] => convertClass OWL_THING_IRI polarity
  | .intersection, first :: rest => foldIntersection polarity first rest
  | .union, children | .oneOf, children => finishUnion polarity children
  | .complement, child :: _ => do
    let result ← internKey ⟨.objectComplementOf, [], [child], []⟩ polarity
    addFeatureIf (polarity.occurrence.negative = 1) "OBJECT_COMPLEMENT_OF_NEGATIVE"
    addFeatureIf (polarity.occurrence.positive = 1) "OBJECT_COMPLEMENT_OF_POSITIVE"
    pure result
  | .some, child :: _ =>
    match prop with
    | none => throw .assertionError
    | some prop => do
      let result ← internKey ⟨.objectSomeValuesFrom, [prop], [child], []⟩ polarity
      let tag ← expressionTag child
      addFeatureIf (polarity.occurrence.positive = 1 ∧ tag = .individual) "OBJECT_HAS_VALUE_POSITIVE"
      pure result
  | .complement, [] | .some, [] => throw .assertionError

/-- The tasks that replace a visited n-ary operator, its first child on top. -/
def childTasks (operation : FinishOperation) (children : List Owl.Value) (polarity childPolarity : IndexPolarity)
    (prop : Option EntityRecord) : List ConversionTask :=
  children.map (fun child => .visit child childPolarity) ++ [.finish operation polarity children.length prop]

/-- One visit: a leaf yields its handle, an operator the tasks that replace it. -/
def visit (value : Owl.Value) (polarity : IndexPolarity) : Conversion (Nat ⊕ List ConversionTask) :=
  match value with
  | .expression (.owlClass iri) => .inl <$> convertClass iri polarity
  | .individual (.namedIndividual iri) => .inl <$> convertIndividual iri polarity
  | .individual (.anonymousIndividual _) => throw (.unsupportedConstruct "ANONYMOUS_INDIVIDUAL")
  | .expression (.objectIntersectionOf operands) =>
    pure (.inr (childTasks .intersection (operands.map .expression) polarity polarity none))
  | .expression (.objectUnionOf operands) =>
    pure (.inr (childTasks .union (operands.map .expression) polarity polarity none))
  | .expression (.objectComplementOf operand) =>
    pure (.inr (childTasks .complement [.expression operand] polarity polarity.complementary none))
  | .expression (.objectOneOf individuals) => do
    addFeatureIf (individuals ≠ []) "OBJECT_ONE_OF"
    pure (.inr (childTasks .oneOf (individuals.map .individual) polarity polarity none))
  | .expression (.objectSomeValuesFrom property filler) => do
    let prop ← objectProperty property polarity
    pure (.inr (childTasks .some [.expression filler] polarity polarity (some prop)))
  | .expression (.objectHasValue property value) => do
    let prop ← objectProperty property polarity
    pure (.inr (childTasks .some [.individual value] polarity polarity (some prop)))
  | .expression (.objectHasSelf property) => do
    let prop ← objectProperty property polarity
    let handle ← internKey ⟨.objectHasSelf, [prop], [], []⟩ polarity
    addFeatureIf (polarity.occurrence.negative = 1) "OBJECT_HAS_SELF_NEGATIVE"
    pure (.inl handle)
  | .expression (.dataHasValue property value) => do
    let prop ← entityRecord .dataProperty property
    addEntity prop
    addFeature "DATA_HAS_VALUE" 1
    .inl <$> internKey ⟨.dataHasValue, [prop], [], (literalKey value).payload⟩ polarity
  | .expression (.unsupported expression) => throw (.unsupportedConstruct expression.feature)

/-- The loop of `convert` over its task and result stacks. -/
def run : Nat → List ConversionTask → List Nat → Nat → Conversion (List Nat)
  | _, [], results, _ => pure results
  | 0, _ :: _, _, _ => throw .assertionError
  | fuel + 1, .finish operation polarity childCount prop :: tasks, results, observed => do
    let kept := results.length - childCount
    let result ← finish operation polarity prop (results.drop kept)
    run fuel tasks (results.take kept ++ [result]) observed
  | fuel + 1, .visit value polarity :: tasks, results, observed => do
    Conversion.require (observed + 1 ≤ nodeLimit) .valueError
    match ← visit literalKey value polarity with
    | .inl handle => run fuel tasks (results ++ [handle]) (observed + 1)
    | .inr pushed => run fuel (pushed ++ tasks) results (observed + 1)

end

mutual

/-- The passes through the loop that one expression takes. -/
def expressionSteps : Owl.ClassExpression → Nat
  | .owlClass _ | .objectHasSelf _ | .dataHasValue _ _ | .unsupported _ => 1
  | .objectIntersectionOf operands | .objectUnionOf operands => expressionsSteps operands + 2
  | .objectComplementOf operand => expressionSteps operand + 2
  | .objectOneOf individuals => individuals.length + 2
  | .objectSomeValuesFrom _ filler => expressionSteps filler + 2
  | .objectHasValue _ _ => 3

def expressionsSteps : List Owl.ClassExpression → Nat
  | [] => 0
  | first :: rest => expressionSteps first + expressionsSteps rest

end

/-- The passes through the loop that one visited value takes. -/
def steps : Owl.Value → Nat
  | .expression value => expressionSteps value
  | .individual _ => 1

/-- `convert`. -/
def convert (literalKey : Owl.Literal → ElkCompatibilityKey) (nodeLimit : Nat) (value : Owl.Value)
    (polarity : IndexPolarity) : Conversion Nat := do
  match ← run literalKey nodeLimit (steps value) [.visit value polarity] [] 0 with
  | [result] => pure result
  | _ => throw .assertionError

end ExpressionConverter

section

variable (literalKey : Owl.Literal → ElkCompatibilityKey) (nodeLimit : Nat)

open ExpressionConverter

namespace AxiomConverter

/-- `self.expressions.convert`. -/
def convertValue (value : Owl.Value) (polarity : IndexPolarity) : Conversion Nat :=
  ExpressionConverter.convert literalKey nodeLimit value polarity

def convertExpression (value : Owl.ClassExpression) (polarity : IndexPolarity) : Conversion Nat :=
  convertValue literalKey nodeLimit (.expression value) polarity

def convertThing (polarity : IndexPolarity) : Conversion Nat :=
  convertExpression literalKey nodeLimit (.owlClass OWL_THING_IRI) polarity

def convertNothing (polarity : IndexPolarity) : Conversion Nat :=
  convertExpression literalKey nodeLimit (.owlClass OWL_NOTHING_IRI) polarity

/-- `_declaration`. -/
def declaration (entity : EntityRecord) : Conversion Unit :=
  match entity.kind with
  | .owlClass | .namedIndividual => do addEntity (← entityRecord entity.kind entity.iri)
  | .objectProperty => do
    let record ← entityRecord .objectProperty entity.iri
    addEntity record
    addPropertyChain [record]
  | .annotationProperty => pure ()
  | .dataProperty => throw (.unsupportedConstruct "DATA_PROPERTY")
  | .datatype => throw (.unsupportedConstruct "DATATYPE")

/-- `_equivalent_classes`, with the first converted member and whether it is a class. -/
def equivalentClasses : List Owl.ClassExpression → Option (Nat × Bool) → Conversion Unit
  | [], _ => pure ()
  | member :: rest, none => do
    let converted ← convertExpression literalKey nodeLimit member .dual
    let tag ← expressionTag converted
    equivalentClasses rest (some (converted, tag == .owlClass))
  | member :: rest, some (first, firstIsClass) => do
    let converted ← convertExpression literalKey nodeLimit member .dual
    let tag ← expressionTag converted
    if !firstIsClass ∧ tag = .owlClass then addEquivalentClass converted first
    else addEquivalentClass first converted
    equivalentClasses rest (some (first, firstIsClass))

/-- The rows of one member of a disjointness against the later ones. -/
def disjointFrom (bottom firstExpression : Nat) : List Owl.Value → Conversion Unit
  | [] => pure ()
  | second :: rest => do
    let secondExpression ← convertValue literalKey nodeLimit second .negative
    let conjunction ← internKey ⟨.objectIntersectionOf, [], [firstExpression, secondExpression], []⟩ .negative
    addSubclass conjunction bottom
    disjointFrom bottom firstExpression rest

def disjointPairs (bottom : Nat) : List Owl.Value → Conversion Unit
  | [] => pure ()
  | first :: rest => do
    let firstExpression ← convertValue literalKey nodeLimit first .negative
    disjointFrom literalKey nodeLimit bottom firstExpression rest
    disjointPairs bottom rest

/-- `_disjoint`. -/
def disjoint (members : List Owl.Value) : Conversion Unit := do
  if 2 < members.length then
    addDisjointGroup (← members.mapM fun member => convertValue literalKey nodeLimit member .negative)
  else
    disjointPairs literalKey nodeLimit (← convertNothing literalKey nodeLimit .positive) members

/-- The subclass rows of the members of a disjoint union. -/
def unionMembers (defined : Nat) : List Owl.ClassExpression → Conversion Unit
  | [] => pure ()
  | member :: rest => do
    addSubclass (← convertExpression literalKey nodeLimit member .negative) defined
    unionMembers defined rest

/-- `_disjoint_union`. -/
def disjointUnion (definedClass : String) (members : List Owl.ClassExpression) : Conversion Unit := do
  disjoint literalKey nodeLimit (members.map .expression)
  match members with
  | [] =>
    let defined ← convertExpression literalKey nodeLimit (.owlClass definedClass) .positive
    addEquivalentClass defined (← convertNothing literalKey nodeLimit .positive)
  | [member] =>
    let defined ← convertExpression literalKey nodeLimit (.owlClass definedClass) .dual
    addEquivalentClass defined (← convertExpression literalKey nodeLimit member .dual)
  | members =>
    addFeature "DISJOINT_UNION" 1
    let defined ← convertExpression literalKey nodeLimit (.owlClass definedClass) .positive
    unionMembers literalKey nodeLimit defined members

/-- `_same_individual`, with the first converted member. -/
def sameIndividual : List Owl.Individual → Option Nat → Conversion Unit
  | [], _ => pure ()
  | member :: rest, none => do
    sameIndividual rest (some (← convertValue literalKey nodeLimit (.individual member) .dual))
  | member :: rest, some first => do
    let converted ← convertValue literalKey nodeLimit (.individual member) .dual
    addSubclass first converted
    addSubclass converted first
    sameIndividual rest (some first)

/-- `_object_property_assertion`. -/
def objectPropertyAssertion (property : Owl.ObjectPropertyExpression) (source target : Owl.Individual) :
    Conversion Unit := do
  addFeature "OBJECT_PROPERTY_ASSERTION" 1
  let source ← convertValue literalKey nodeLimit (.individual source) .negative
  let prop ← objectProperty property .positive
  let target ← convertValue literalKey nodeLimit (.individual target) .positive
  let existential ← internKey ⟨.objectSomeValuesFrom, [prop], [target], []⟩ .positive
  addFeature "OBJECT_HAS_VALUE_POSITIVE" 1
  addSubclass source existential

/-- `_equivalent_object_properties`, with the first converted member. -/
def equivalentObjectProperties : List Owl.ObjectPropertyExpression → Option EntityRecord → Conversion Unit
  | [], _ => pure ()
  | member :: rest, none => do equivalentObjectProperties rest (some (← objectProperty member .dual))
  | member :: rest, some first => do
    let converted ← objectProperty member .dual
    addSubproperty [first] converted
    addSubproperty [converted] first
    equivalentObjectProperties rest (some first)

/-- `_property_chain`: the members are recorded from the last to the first. -/
def propertyChain (value : Owl.SubObjectPropertyExpression) : Conversion (List EntityRecord) :=
  match value with
  | .property expression => do pure [← objectProperty expression .negative]
  | .objectPropertyChain properties => do
    let reversedProperties ← properties.reverse.mapM fun prop => objectProperty prop .negative
    Conversion.require (2 ≤ reversedProperties.length) .valueError
    addFeature "OBJECT_PROPERTY_CHAIN" (reversedProperties.length - 1)
    pure reversedProperties.reverse

def subObjectPropertyOf (sub : Owl.SubObjectPropertyExpression) (super : Owl.ObjectPropertyExpression) :
    Conversion Unit := do
  let subChain ← propertyChain sub
  let superProperty ← objectProperty super .positive
  addSubproperty subChain superProperty

def objectPropertyDomain (property : Owl.ObjectPropertyExpression) (domain : Owl.ClassExpression) :
    Conversion Unit := do
  let prop ← objectProperty property .negative
  let thing ← convertThing literalKey nodeLimit .negative
  let existential ← internKey ⟨.objectSomeValuesFrom, [prop], [thing], []⟩ .negative
  addSubclass existential (← convertExpression literalKey nodeLimit domain .positive)

def objectPropertyRange (property : Owl.ObjectPropertyExpression) (range : Owl.ClassExpression) :
    Conversion Unit := do
  let prop ← objectProperty property .negative
  addPropertyRange prop (← convertExpression literalKey nodeLimit range .positive)
  addFeature "OBJECT_PROPERTY_RANGE" 1

/-- `_reflexive`. -/
def reflexive (property : Owl.ObjectPropertyExpression) : Conversion Unit := do
  addFeature "REFLEXIVE_OBJECT_PROPERTY" 1
  let thing ← convertThing literalKey nodeLimit .negative
  let prop ← objectProperty property .positive
  addSubclass thing (← internKey ⟨.objectHasSelf, [prop], [], []⟩ .positive)

/-- `_transitive`. -/
def transitive (property : Owl.ObjectPropertyExpression) : Conversion Unit := do
  let prop ← objectProperty property .dual
  addFeature "OBJECT_PROPERTY_CHAIN" 1
  addSubproperty [prop, prop] prop

/-- `AxiomConverter.convert`. -/
def convert (node : Owl.AxiomNode) : Conversion Unit :=
  match node with
  | .unsupported node => throw (.unsupportedConstruct node.feature)
  | .declaration entity => declaration entity
  | .subClassOf subClass superClass => do
    let sub ← convertExpression literalKey nodeLimit subClass .negative
    addSubclass sub (← convertExpression literalKey nodeLimit superClass .positive)
  | .equivalentClasses expressions => equivalentClasses literalKey nodeLimit expressions none
  | .disjointClasses expressions => do
    disjoint literalKey nodeLimit (expressions.map .expression)
    addFeature "DISJOINT_CLASSES" 1
  | .disjointUnion definedClass expressions => disjointUnion literalKey nodeLimit definedClass expressions
  | .classAssertion classExpression individual => do
    let sub ← convertValue literalKey nodeLimit (.individual individual) .negative
    addSubclass sub (← convertExpression literalKey nodeLimit classExpression .positive)
  | .sameIndividual individuals => sameIndividual literalKey nodeLimit individuals none
  | .differentIndividuals individuals => do
    disjoint literalKey nodeLimit (individuals.map .individual)
    addFeature "DIFFERENT_INDIVIDUALS" 1
  | .objectPropertyAssertion property source target =>
    objectPropertyAssertion literalKey nodeLimit property source target
  | .equivalentObjectProperties properties => equivalentObjectProperties properties none
  | .subObjectPropertyOf sub super => subObjectPropertyOf sub super
  | .objectPropertyDomain property domain => objectPropertyDomain literalKey nodeLimit property domain
  | .objectPropertyRange property range => objectPropertyRange literalKey nodeLimit property range
  | .reflexiveObjectProperty property => reflexive literalKey nodeLimit property
  | .transitiveObjectProperty property => transitive property
  | .annotated _ => pure ()

end AxiomConverter

open AxiomConverter

/-- The `nominal` helper of the entailment obligations. -/
def nominal (individual : Owl.Individual) (polarity : IndexPolarity) : Conversion Nat := do
  addFeature "OBJECT_ONE_OF" 1
  convertValue literalKey nodeLimit (.individual individual) polarity

/-- The obligation that two converted members are disjoint. -/
def disjointObligation (convertMember : Conversion Nat) (convertOther : Conversion Nat) : Conversion (Nat × Nat) := do
  let first ← convertMember
  let second ← convertOther
  let conjunction ← internKey ⟨.objectIntersectionOf, [], [first, second], []⟩ .positive
  pure (conjunction, ← convertNothing literalKey nodeLimit .negative)

/-- The obligations of a pairwise disjointness, each pair converted anew. -/
def disjointObligations {α : Type} (convertMember : α → Conversion Nat) : List α → Conversion (List (Nat × Nat))
  | [] => pure []
  | first :: rest => do
    let here ← rest.mapM fun second =>
      disjointObligation literalKey nodeLimit (convertMember first) (convertMember second)
    pure (here ++ (← disjointObligations convertMember rest))

/-- The obligations of a cycle of subsumptions, entered after `previous`. -/
def cycleObligations {α : Type} (convertMember : α → IndexPolarity → Conversion Nat) (previous : α) :
    List α → Conversion (List (Nat × Nat))
  | [] => pure []
  | current :: rest => do
    let sub ← convertMember previous .positive
    let super ← convertMember current .negative
    pure ((sub, super) :: (← cycleObligations convertMember current rest))

/-- `convert_entailment_obligations`. -/
def convertEntailmentObligations (node : Owl.AxiomNode) : Conversion (List (Nat × Nat)) :=
  match node.queryFeature with
  | some feature => throw (.unsupportedConstruct feature)
  | none =>
    match node with
    | .subClassOf subClass superClass => do
      let sub ← convertExpression literalKey nodeLimit subClass .positive
      pure [(sub, ← convertExpression literalKey nodeLimit superClass .negative)]
    | .classAssertion classExpression individual => do
      let sub ← convertValue literalKey nodeLimit (.individual individual) .positive
      pure [(sub, ← convertExpression literalKey nodeLimit classExpression .negative)]
    | .objectPropertyAssertion property source target => do
      let source ← convertValue literalKey nodeLimit (.individual source) .positive
      let prop ← objectProperty property .negative
      let target ← nominal literalKey nodeLimit target .negative
      pure [(source, ← internKey ⟨.objectSomeValuesFrom, [prop], [target], []⟩ .negative)]
    | .objectPropertyDomain property domain => do
      let prop ← objectProperty property .positive
      let thing ← convertThing literalKey nodeLimit .positive
      let existential ← internKey ⟨.objectSomeValuesFrom, [prop], [thing], []⟩ .positive
      pure [(existential, ← convertExpression literalKey nodeLimit domain .negative)]
    | .disjointClasses expressions =>
      disjointObligations literalKey nodeLimit
        (fun member => convertExpression literalKey nodeLimit member .positive) expressions
    | .differentIndividuals individuals =>
      disjointObligations literalKey nodeLimit
        (fun member => nominal literalKey nodeLimit member .positive) individuals
    | .equivalentClasses expressions =>
      match expressions.getLast? with
      | none => throw .valueError
      | some previous => cycleObligations (convertExpression literalKey nodeLimit) previous expressions
    | .sameIndividual individuals =>
      match individuals.getLast? with
      | none => throw .valueError
      | some previous => cycleObligations (nominal literalKey nodeLimit) previous individuals
    | _ => throw .typeError

end

end PyElk
