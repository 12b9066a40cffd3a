import PyElk.Indexing.Conversion

namespace PyElk

/-- Every error of a step is an allowed one. -/
def Conversion.Raises {α : Type} (allowed : ConversionError → Prop) (step : Conversion α) : Prop :=
  ∀ index raised, step index = .error raised → allowed raised

namespace Conversion

section

variable {α β : Type} {allowed : ConversionError → Prop}

theorem Raises.pure (value : α) : (Pure.pure value : Conversion α).Raises allowed := by
  intro index raised failed
  cases failed

/-- A sequence raises what its two halves raise. -/
theorem Raises.bind {step : Conversion α} {next : α → Conversion β} (first : step.Raises allowed)
    (second : ∀ value, (next value).Raises allowed) : (step >>= next).Raises allowed := by
  intro index raised failed
  change (step index >>= fun pair => next pair.1 pair.2) = .error raised at failed
  cases outcome : step index with
  | error other =>
    rw [outcome] at failed
    cases failed
    exact first index raised outcome
  | ok pair =>
    rw [outcome] at failed
    exact second pair.1 pair.2 raised failed

theorem Raises.map {step : Conversion α} {image : α → β} (raises : step.Raises allowed) :
    (image <$> step).Raises allowed := by
  rw [map_eq_pure_bind]
  exact raises.bind fun _ => .pure _

theorem Raises.throw {raised : ConversionError} (holds : allowed raised) :
    (MonadExcept.throw raised : Conversion α).Raises allowed := by
  intro index other failed
  cases failed
  exact holds

theorem Raises.modify (change : MutableIndex → MutableIndex) : (modify change : Conversion Unit).Raises allowed := by
  intro index raised failed
  cases failed

theorem Raises.get : (get : Conversion MutableIndex).Raises allowed := by
  intro index raised failed
  cases failed

/-- A checked step raises the overflow and nothing else. -/
theorem Raises.checked (overflow : allowed .overflowError) (step : MutableIndex → Option (α × MutableIndex)) :
    (checked step).Raises allowed := by
  intro index raised failed
  unfold Conversion.checked at failed
  split at failed
  · cases failed
  · cases failed
    exact overflow

/-- A requirement raises its own error. -/
theorem Raises.require {condition : Prop} [Decidable condition] {raised : ConversionError} (holds : allowed raised) :
    (require condition raised).Raises allowed := by
  unfold Conversion.require
  split
  · exact .pure ()
  · exact .throw holds

/-- A loop raises what its body raises. -/
theorem Raises.mapM {body : β → Conversion α} (raises : ∀ item, (body item).Raises allowed) (items : List β) :
    (items.mapM body).Raises allowed := by
  induction items with
  | nil =>
    rw [List.mapM_nil]
    exact .pure []
  | cons item rest ih =>
    rw [List.mapM_cons]
    exact (raises item).bind fun _ => ih.bind fun _ => .pure _

end

end Conversion

open Conversion MutableIndex

/-- An unsupported construct names a feature of the ontology list. -/
def ConversionError.Pinned : ConversionError → Prop
  | .unsupportedConstruct feature => feature ∈ ONTOLOGY_FEATURE_NAMES
  | _ => True

namespace MutableIndex

theorem addEntity_pinned (entity : EntityRecord) : (addEntity entity).Raises ConversionError.Pinned := .modify _

/-- Interning only raises the overflow of a counter. -/
theorem internKey_pinned (key : ExpressionKey) (polarity : IndexPolarity) :
    (internKey key polarity).Raises ConversionError.Pinned := .checked trivial _

theorem expressionTag_pinned (handle : Nat) : (expressionTag handle).Raises ConversionError.Pinned := by
  refine Raises.get.bind fun index => ?_
  cases index.expressions[handle]? with
  | none => exact .throw trivial
  | some key => exact .pure key.tag

theorem recordObjectProperty_pinned (entity : EntityRecord) (polarity : IndexPolarity) :
    (recordObjectProperty entity polarity).Raises ConversionError.Pinned :=
  (Raises.require trivial).bind fun _ => (addEntity_pinned entity).bind fun _ => .checked trivial _

/-- Counting a feature only raises the overflow of its counter. -/
theorem addFeature_pinned (feature : String) (count : Nat) :
    (addFeature feature count).Raises ConversionError.Pinned :=
  .checked trivial _

theorem addFeatureIf_pinned (condition : Prop) [Decidable condition] (feature : String) :
    (addFeatureIf condition feature).Raises ConversionError.Pinned := by
  unfold addFeatureIf
  split
  · exact addFeature_pinned feature 1
  · exact .pure ()

theorem addPropertyChain_pinned (properties : List EntityRecord) :
    (addPropertyChain properties).Raises ConversionError.Pinned :=
  (Raises.require trivial).bind fun _ => (Raises.require trivial).bind fun _ => .modify _

theorem addDisjointGroup_pinned (members : List Nat) : (addDisjointGroup members).Raises ConversionError.Pinned :=
  (Raises.require trivial).bind fun _ => .modify _

theorem addSubproperty_pinned (subChain : List EntityRecord) (superProperty : EntityRecord) :
    (addSubproperty subChain superProperty).Raises ConversionError.Pinned :=
  (addPropertyChain_pinned subChain).bind fun _ => (Raises.require trivial).bind fun _ =>
    (addEntity_pinned superProperty).bind fun _ => .modify _

theorem addPropertyRange_pinned (property : EntityRecord) (range : Nat) :
    (addPropertyRange property range).Raises ConversionError.Pinned :=
  (Raises.require trivial).bind fun _ => (addEntity_pinned property).bind fun _ => .modify _

end MutableIndex

/-- An entity without an IRI is refused as such. -/
theorem entityRecord_pinned (kind : EntityKind) (iri : String) :
    (entityRecord kind iri).Raises ConversionError.Pinned := by
  unfold entityRecord
  split
  · exact .throw trivial
  · exact .pure _

/-- An expression that is not supported is reported under a name of the feature vector. -/
theorem Owl.UnsupportedExpression.feature_pinned (expression : Owl.UnsupportedExpression) :
    expression.feature ∈ ONTOLOGY_FEATURE_NAMES := by
  cases expression <;> decide

/-- So is an axiom that is not supported. -/
theorem Owl.UnsupportedNode.feature_pinned (node : Owl.UnsupportedNode) : node.feature ∈ ONTOLOGY_FEATURE_NAMES := by
  cases node <;> decide

namespace ExpressionConverter

/-- A class is interned and counted, which raises the overflow of a counter at most. -/
theorem convertClass_pinned (iri : String) (polarity : IndexPolarity) :
    (convertClass iri polarity).Raises ConversionError.Pinned :=
  (entityRecord_pinned _ _).bind fun _ => (internKey_pinned _ _).bind fun _ =>
    (addFeatureIf_pinned _ _).bind fun _ => .pure _

theorem convertIndividual_pinned (iri : String) (polarity : IndexPolarity) :
    (convertIndividual iri polarity).Raises ConversionError.Pinned :=
  (entityRecord_pinned _ _).bind fun _ => internKey_pinned _ _

/-- A property expression that is not a named property is reported under a feature name. -/
theorem objectProperty_pinned (value : Owl.ObjectPropertyExpression) (polarity : IndexPolarity) :
    (objectProperty value polarity).Raises ConversionError.Pinned := by
  cases value with
  | objectInverseOf property =>
    have listed : "OBJECT_INVERSE_OF" ∈ ONTOLOGY_FEATURE_NAMES := by decide
    exact .throw listed
  | objectProperty iri =>
    exact (entityRecord_pinned _ _).bind fun record => (recordObjectProperty_pinned record polarity).bind fun _ =>
      (addFeatureIf_pinned _ _).bind fun _ => (addFeatureIf_pinned _ _).bind fun _ => .pure record

theorem foldIntersection_pinned (polarity : IndexPolarity) (result : Nat) (children : List Nat) :
    (foldIntersection polarity result children).Raises ConversionError.Pinned := by
  induction children generalizing result with
  | nil => exact .pure result
  | cons child rest ih => exact (internKey_pinned _ _).bind fun _ => ih _

theorem finishUnion_pinned (polarity : IndexPolarity) (children : List Nat) :
    (finishUnion polarity children).Raises ConversionError.Pinned := by
  match children with
  | [] => exact convertClass_pinned _ _
  | [child] => exact .pure child
  | _ :: _ :: _ => exact (internKey_pinned _ _).bind fun _ => (addFeatureIf_pinned _ _).bind fun _ => .pure _

/-- An operator is finished with the checks of the operations it is made of. -/
theorem finish_pinned (operation : FinishOperation) (polarity : IndexPolarity) (prop : Option EntityRecord)
    (children : List Nat) : (finish operation polarity prop children).Raises ConversionError.Pinned := by
  cases operation with
  | intersection =>
    cases children with
    | nil => exact convertClass_pinned _ _
    | cons first rest => exact foldIntersection_pinned polarity first rest
  | union => exact finishUnion_pinned polarity children
  | oneOf => exact finishUnion_pinned polarity children
  | complement =>
    cases children with
    | nil => exact .throw trivial
    | cons child rest =>
      exact (internKey_pinned _ _).bind fun _ => (addFeatureIf_pinned _ _).bind fun _ =>
        (addFeatureIf_pinned _ _).bind
        fun _ => .pure _
  | some =>
    cases children with
    | nil => exact .throw trivial
    | cons child rest =>
      cases prop with
      | none => exact .throw trivial
      | some prop =>
        exact (internKey_pinned _ _).bind fun _ => (expressionTag_pinned child).bind fun _ =>
          (addFeatureIf_pinned _ _).bind fun _ => .pure _

section

variable (literalKey : Owl.Literal → ElkCompatibilityKey) (nodeLimit : Nat)

/-- A visited value is refused under a feature name, if it is refused. -/
theorem visit_pinned (value : Owl.Value) (polarity : IndexPolarity) :
    (visit literalKey value polarity).Raises ConversionError.Pinned := by
  cases value with
  | individual individual =>
    cases individual with
    | namedIndividual iri => exact (convertIndividual_pinned iri polarity).map
    | anonymousIndividual name =>
      have listed : "ANONYMOUS_INDIVIDUAL" ∈ ONTOLOGY_FEATURE_NAMES := by decide
      exact .throw listed
  | expression expression =>
    cases expression with
    | owlClass iri => exact (convertClass_pinned iri polarity).map
    | objectIntersectionOf operands => exact .pure _
    | objectUnionOf operands => exact .pure _
    | objectComplementOf operand => exact .pure _
    | objectOneOf individuals => exact (addFeatureIf_pinned _ _).bind fun _ => .pure _
    | objectSomeValuesFrom property filler => exact (objectProperty_pinned property polarity).bind fun _ => .pure _
    | objectHasValue property value => exact (objectProperty_pinned property polarity).bind fun _ => .pure _
    | objectHasSelf property =>
      exact (objectProperty_pinned property polarity).bind fun _ => (internKey_pinned _ _).bind fun _ =>
        (addFeatureIf_pinned _ _).bind fun _ => .pure _
    | dataHasValue property value =>
      exact (entityRecord_pinned _ _).bind fun record => (addEntity_pinned record).bind fun _ =>
        (addFeature_pinned _ _).bind fun _ => (internKey_pinned _ _).map
    | unsupported expression => exact .throw expression.feature_pinned

/-- Whatever the walk still has to do, it raises no other errors; by induction on its fuel. -/
theorem run_pinned (fuel : Nat) (tasks : List ConversionTask) (results : List Nat) (observed : Nat) :
    (run literalKey nodeLimit fuel tasks results observed).Raises ConversionError.Pinned := by
  induction fuel generalizing tasks results observed with
  | zero =>
    cases tasks with
    | nil => exact .pure results
    | cons task rest => exact .throw trivial
  | succ fuel ih =>
    cases tasks with
    | nil => exact .pure results
    | cons task rest =>
      cases task with
      | finish operation polarity childCount prop => exact (finish_pinned _ _ _ _).bind fun _ => ih _ _ _
      | visit value polarity =>
        refine (Raises.require trivial).bind fun _ => (visit_pinned literalKey value polarity).bind fun outcome => ?_
        cases outcome with
        | inl handle => exact ih _ _ _
        | inr pushed => exact ih _ _ _

end

end ExpressionConverter

namespace AxiomConverter

open ExpressionConverter

section

variable (literalKey : Owl.Literal → ElkCompatibilityKey) (nodeLimit : Nat)

/-- So a conversion of any value raises no other errors. -/
theorem convertValue_pinned (value : Owl.Value) (polarity : IndexPolarity) :
    (convertValue literalKey nodeLimit value polarity).Raises ConversionError.Pinned := by
  refine (run_pinned literalKey nodeLimit _ _ _ _).bind fun results => ?_
  match results with
  | [] => exact .throw trivial
  | [result] => exact .pure result
  | _ :: _ :: _ => exact .throw trivial

theorem declaration_pinned (entity : EntityRecord) : (declaration entity).Raises ConversionError.Pinned := by
  unfold declaration
  cases entity.kind with
  | owlClass => exact (entityRecord_pinned _ _).bind fun _ => addEntity_pinned _
  | namedIndividual => exact (entityRecord_pinned _ _).bind fun _ => addEntity_pinned _
  | objectProperty =>
    exact (entityRecord_pinned _ _).bind fun _ => (addEntity_pinned _).bind fun _ => addPropertyChain_pinned _
  | annotationProperty => exact .pure ()
  | dataProperty =>
    have listed : "DATA_PROPERTY" ∈ ONTOLOGY_FEATURE_NAMES := by decide
    exact .throw listed
  | datatype =>
    have listed : "DATATYPE" ∈ ONTOLOGY_FEATURE_NAMES := by decide
    exact .throw listed

theorem equivalentClasses_pinned (members : List Owl.ClassExpression) (first : Option (Nat × Bool)) :
    (equivalentClasses literalKey nodeLimit members first).Raises ConversionError.Pinned := by
  induction members generalizing first with
  | nil => exact .pure ()
  | cons member rest ih =>
    cases first with
    | none =>
      exact (convertValue_pinned _ _ _ _).bind fun _ => (expressionTag_pinned _).bind fun _ => ih _
    | some pair =>
      refine (convertValue_pinned _ _ _ _).bind fun _ => (expressionTag_pinned _).bind fun _ => ?_
      split
      · exact (Raises.modify _).bind fun _ => ih _
      · exact (Raises.modify _).bind fun _ => ih _

theorem disjointFrom_pinned (bottom firstExpression : Nat) (members : List Owl.Value) :
    (disjointFrom literalKey nodeLimit bottom firstExpression members).Raises ConversionError.Pinned := by
  induction members with
  | nil => exact .pure ()
  | cons second rest ih =>
    exact (convertValue_pinned _ _ _ _).bind fun _ => (internKey_pinned _ _).bind fun _ => (Raises.modify _).bind
      fun _ => ih

theorem disjointPairs_pinned (bottom : Nat) (members : List Owl.Value) :
    (disjointPairs literalKey nodeLimit bottom members).Raises ConversionError.Pinned := by
  induction members with
  | nil => exact .pure ()
  | cons first rest ih =>
    exact (convertValue_pinned _ _ _ _).bind fun _ => (disjointFrom_pinned _ _ _ _ _).bind fun _ => ih

/-- A disjointness axiom raises what the conversions of its members raise. -/
theorem disjoint_pinned (members : List Owl.Value) :
    (disjoint literalKey nodeLimit members).Raises ConversionError.Pinned := by
  unfold disjoint
  split
  · exact (Raises.mapM (fun member => convertValue_pinned _ _ member _) members).bind fun _ =>
      addDisjointGroup_pinned _
  · exact (convertValue_pinned _ _ _ _).bind fun _ => disjointPairs_pinned _ _ _ _

theorem unionMembers_pinned (defined : Nat) (members : List Owl.ClassExpression) :
    (unionMembers literalKey nodeLimit defined members).Raises ConversionError.Pinned := by
  induction members with
  | nil => exact .pure ()
  | cons member rest ih => exact (convertValue_pinned _ _ _ _).bind fun _ => (Raises.modify _).bind fun _ => ih

/-- A disjoint union is an equivalence and a disjointness. -/
theorem disjointUnion_pinned (definedClass : String) (members : List Owl.ClassExpression) :
    (disjointUnion literalKey nodeLimit definedClass members).Raises ConversionError.Pinned := by
  refine (disjoint_pinned _ _ _).bind fun _ => ?_
  match members with
  | [] => exact (convertValue_pinned _ _ _ _).bind fun _ => (convertValue_pinned _ _ _ _).bind fun _ => .modify _
  | [member] =>
    exact (convertValue_pinned _ _ _ _).bind fun _ => (convertValue_pinned _ _ _ _).bind fun _ => .modify _
  | _ :: _ :: _ =>
    exact (addFeature_pinned _ _).bind fun _ => (convertValue_pinned _ _ _ _).bind fun _ =>
      unionMembers_pinned _ _ _ _

theorem sameIndividual_pinned (members : List Owl.Individual) (first : Option Nat) :
    (sameIndividual literalKey nodeLimit members first).Raises ConversionError.Pinned := by
  induction members generalizing first with
  | nil => exact .pure ()
  | cons member rest ih =>
    cases first with
    | none => exact (convertValue_pinned _ _ _ _).bind fun _ => ih _
    | some first =>
      exact (convertValue_pinned _ _ _ _).bind fun _ => (Raises.modify _).bind fun _ =>
        (Raises.modify _).bind fun _ => ih _

theorem equivalentObjectProperties_pinned (members : List Owl.ObjectPropertyExpression)
    (first : Option EntityRecord) :
    (equivalentObjectProperties members first).Raises ConversionError.Pinned := by
  induction members generalizing first with
  | nil => exact .pure ()
  | cons member rest ih =>
    cases first with
    | none => exact (objectProperty_pinned _ _).bind fun _ => ih _
    | some first =>
      exact (objectProperty_pinned _ _).bind fun _ => (addSubproperty_pinned _ _).bind fun _ =>
        (addSubproperty_pinned _ _).bind fun _ => ih _

/-- A chain is refused for one of its properties. -/
theorem propertyChain_pinned (value : Owl.SubObjectPropertyExpression) :
    (propertyChain value).Raises ConversionError.Pinned := by
  cases value with
  | property expression => exact (objectProperty_pinned _ _).bind fun _ => .pure _
  | objectPropertyChain properties =>
    exact (Raises.mapM (fun prop => objectProperty_pinned prop _) properties.reverse).bind fun _ =>
      (Raises.require trivial).bind fun _ => (addFeature_pinned _ _).bind fun _ => .pure _

/-- Whatever the converter refuses has its counter in the feature vector. -/
theorem convert_pinned (node : Owl.AxiomNode) :
    (convert literalKey nodeLimit node).Raises ConversionError.Pinned := by
  cases node with
  | unsupported node => exact .throw node.feature_pinned
  | declaration entity => exact declaration_pinned entity
  | subClassOf subClass superClass =>
    exact (convertValue_pinned _ _ _ _).bind fun _ => (convertValue_pinned _ _ _ _).bind fun _ => .modify _
  | equivalentClasses expressions => exact equivalentClasses_pinned _ _ _ _
  | disjointClasses expressions => exact (disjoint_pinned _ _ _).bind fun _ => addFeature_pinned _ _
  | disjointUnion definedClass expressions => exact disjointUnion_pinned _ _ _ _
  | classAssertion classExpression individual =>
    exact (convertValue_pinned _ _ _ _).bind fun _ => (convertValue_pinned _ _ _ _).bind fun _ => .modify _
  | sameIndividual individuals => exact sameIndividual_pinned _ _ _ _
  | differentIndividuals individuals => exact (disjoint_pinned _ _ _).bind fun _ => addFeature_pinned _ _
  | objectPropertyAssertion property source target =>
    exact (addFeature_pinned _ _).bind fun _ => (convertValue_pinned _ _ _ _).bind fun _ =>
      (objectProperty_pinned _ _).bind fun _ => (convertValue_pinned _ _ _ _).bind fun _ =>
        (internKey_pinned _ _).bind
        fun _ => (addFeature_pinned _ _).bind fun _ => .modify _
  | equivalentObjectProperties properties => exact equivalentObjectProperties_pinned _ _
  | subObjectPropertyOf sub super =>
    exact (propertyChain_pinned sub).bind fun _ => (objectProperty_pinned _ _).bind fun _ => addSubproperty_pinned _ _
  | objectPropertyDomain property domain =>
    exact (objectProperty_pinned _ _).bind fun _ => (convertValue_pinned _ _ _ _).bind fun _ =>
      (internKey_pinned _ _).bind
      fun _ => (convertValue_pinned _ _ _ _).bind fun _ => .modify _
  | objectPropertyRange property range =>
    exact (objectProperty_pinned _ _).bind fun _ => (convertValue_pinned _ _ _ _).bind fun _ =>
      (addPropertyRange_pinned _ _).bind fun _ => addFeature_pinned _ _
  | reflexiveObjectProperty property =>
    exact (addFeature_pinned _ _).bind fun _ => (convertValue_pinned _ _ _ _).bind fun _ =>
      (objectProperty_pinned _ _).bind
      fun _ => (internKey_pinned _ _).bind fun _ => .modify _
  | transitiveObjectProperty property =>
    exact (objectProperty_pinned _ _).bind fun _ => (addFeature_pinned _ _).bind fun _ => addSubproperty_pinned _ _
  | annotated node => exact .pure ()

end

end AxiomConverter

end PyElk
