import Mathlib.Tactic.Abel
import PyElk.Indexing.NormalRows
import PyElk.Indexing.Spending

namespace PyElk

mutual

/-- The positions of an expression, each with its polarity, which flips below a complement. -/
def ExpressionTree.positions : ExpressionTree → IndexPolarity → List (ExpressionTree × IndexPolarity)
  | .node tag entities operands payload, polarity =>
    (.node tag entities operands payload, polarity) ::
      ExpressionTree.allPositions operands
        (if tag = .objectComplementOf then polarity.complementary else polarity)

def ExpressionTree.allPositions : List ExpressionTree → IndexPolarity → List (ExpressionTree × IndexPolarity)
  | [], _ => []
  | first :: rest, polarity => first.positions polarity ++ ExpressionTree.allPositions rest polarity

end

/-- How many of some positions hold an expression, by polarity: a dual position counts for both. -/
noncomputable def countPositions (positions : List (ExpressionTree × IndexPolarity)) (expression : ExpressionTree) :
    Occurrence :=
  ⟨positions.countP fun position => position.1 = expression ∧ (position.2 = .negative ∨ position.2 = .dual),
    positions.countP fun position => position.1 = expression ∧ (position.2 = .positive ∨ position.2 = .dual)⟩

theorem countPositions_nil : countPositions [] = 0 := rfl

theorem countPositions_cons (position : ExpressionTree × IndexPolarity)
    (positions : List (ExpressionTree × IndexPolarity)) :
    countPositions (position :: positions) =
      Function.update (0 : ExpressionTree → Occurrence) position.1 position.2.occurrence + countPositions
        positions := by
  obtain ⟨first, polarity⟩ := position
  funext expression
  by_cases same : expression = first
  · subst same
    cases polarity <;>
      simp [countPositions, IndexPolarity.occurrence, Occurrence.ext_iff, Pi.add_apply, Nat.add_comm]
  · have apart : first ≠ expression := Ne.symm same
    simp [countPositions, Pi.add_apply, Function.update_of_ne same, apart]

/-- The counts of two lists of positions add up. -/
theorem countPositions_append (first second : List (ExpressionTree × IndexPolarity)) :
    countPositions (first ++ second) = countPositions first + countPositions second := by
  funext expression
  exact Occurrence.ext List.countP_append List.countP_append

/-- What an expression adds to the counters of its subexpressions. -/
theorem countPositions_node (tag : ExpressionTag) (entities : List EntityRecord) (operands : List ExpressionTree)
    (payload : List UInt8) (polarity : IndexPolarity) :
    countPositions (ExpressionTree.positions (.node tag entities operands payload) polarity) =
      (Content.interned (.node tag entities operands payload) polarity).counts +
        countPositions (ExpressionTree.allPositions operands
          (if tag = .objectComplementOf then polarity.complementary else polarity)) := by
  rw [ExpressionTree.positions, countPositions_cons]
  simp [Content.interned, Content.known, Content.single, Content.counter]

theorem allPositions_singleton (expression : ExpressionTree) (polarity : IndexPolarity) :
    ExpressionTree.allPositions [expression] polarity = expression.positions polarity := by
  rw [ExpressionTree.allPositions, ExpressionTree.allPositions, List.append_nil]

@[simp] theorem Content.featureIf_counts (condition : Prop) [Decidable condition] (name : String) :
    (Content.featureIf condition name).counts = 0 := by
  unfold Content.featureIf
  split <;> rfl

namespace ExpressionConverter

noncomputable section

/-- What a class costs. -/
def classCost (iri : String) (polarity : IndexPolarity) : Content :=
  Content.interned (classTree iri) polarity +
    Content.featureIf (iri = OWL_NOTHING_IRI ∧ polarity.occurrence.positive = 1) "OWL_NOTHING_POSITIVE"

def individualCost (value : Owl.Individual) (polarity : IndexPolarity) : Content :=
  match value with
  | .namedIndividual iri => Content.interned (individualTree iri) polarity
  | .anonymousIndividual _ => 0

def individualsCost (values : List Owl.Individual) (polarity : IndexPolarity) : Content :=
  (values.map fun value => individualCost value polarity).sum

def propertyCost (value : Owl.ObjectPropertyExpression) (polarity : IndexPolarity) : Content :=
  match value with
  | .objectProperty iri =>
    Content.known [⟨.objectProperty, iri⟩] + Content.property ⟨.objectProperty, iri⟩ polarity.occurrence +
      Content.featureIf (iri = OWL_BOTTOM_OBJECT_PROPERTY_IRI ∧ polarity.occurrence.positive = 1)
        "BOTTOM_OBJECT_PROPERTY_POSITIVE" +
      Content.featureIf (iri = OWL_TOP_OBJECT_PROPERTY_IRI ∧ polarity.occurrence.negative = 1)
        "TOP_OBJECT_PROPERTY_NEGATIVE"
  | .objectInverseOf _ => 0

/-- What the conjunctions of a fold cost. -/
def foldCost (polarity : IndexPolarity) (result : ExpressionTree) : List ExpressionTree → Content
  | [] => 0
  | child :: rest =>
    Content.interned (intersectionTree result child) polarity + foldCost polarity (intersectionTree result child) rest

def unionCost (polarity : IndexPolarity) : List ExpressionTree → Content
  | [] => classCost OWL_NOTHING_IRI polarity
  | [_] => 0
  | children =>
    Content.interned (.node .objectUnionOf [] children []) polarity +
      Content.featureIf (polarity.occurrence.positive = 1) "OBJECT_UNION_OF_POSITIVE"

/-- What finishing an operator costs over the normal forms of its children. -/
def finishCost (operation : FinishOperation) (polarity : IndexPolarity) (prop : Option EntityRecord)
    (children : List ExpressionTree) : Content :=
  match operation, prop, children with
  | .intersection, _, [] => classCost OWL_THING_IRI polarity
  | .intersection, _, first :: rest => foldCost polarity first rest
  | .union, _, children | .oneOf, _, children => unionCost polarity children
  | .complement, _, child :: _ =>
    Content.interned (.node .objectComplementOf [] [child] []) polarity +
      (Content.featureIf (polarity.occurrence.negative = 1) "OBJECT_COMPLEMENT_OF_NEGATIVE" +
        Content.featureIf (polarity.occurrence.positive = 1) "OBJECT_COMPLEMENT_OF_POSITIVE")
  | .some, some prop, child :: _ =>
    Content.interned (someTree prop child) polarity +
      Content.featureIf (polarity.occurrence.positive = 1 ∧ child.tag = .individual) "OBJECT_HAS_VALUE_POSITIVE"
  | _, _, _ => 0

variable (literalKey : Owl.Literal → ElkCompatibilityKey)

mutual

/-- What converting a class expression adds to an index. -/
def expressionCost : Owl.ClassExpression → IndexPolarity → Content
  | .owlClass iri, polarity => classCost iri polarity
  | .objectIntersectionOf operands, polarity =>
    expressionsCost operands polarity +
      finishCost .intersection polarity none ((Owl.ClassExpression.forms literalKey operands).getD [])
  | .objectUnionOf operands, polarity =>
    expressionsCost operands polarity +
      finishCost .union polarity none ((Owl.ClassExpression.forms literalKey operands).getD [])
  | .objectComplementOf operand, polarity =>
    expressionCost operand polarity.complementary +
      finishCost .complement polarity none [(operand.form literalKey).getD default]
  | .objectOneOf individuals, polarity =>
    Content.featureIf (individuals ≠ []) "OBJECT_ONE_OF" + (individualsCost individuals polarity +
      finishCost .oneOf polarity none ((individuals.mapM Owl.Individual.form).getD []))
  | .objectSomeValuesFrom property filler, polarity =>
    propertyCost property polarity + (expressionCost filler polarity +
      finishCost .some polarity property.record [(filler.form literalKey).getD default])
  | .objectHasValue property value, polarity =>
    propertyCost property polarity + (individualCost value polarity +
      finishCost .some polarity property.record [value.form.getD default])
  | .objectHasSelf property, polarity =>
    propertyCost property polarity + (Content.interned ((hasSelfTree <$> property.record).getD default) polarity +
      Content.featureIf (polarity.occurrence.negative = 1) "OBJECT_HAS_SELF_NEGATIVE")
  | .dataHasValue property value, polarity =>
    Content.known [⟨.dataProperty, property⟩] + (Content.feature "DATA_HAS_VALUE" 1 +
      Content.interned (.node .dataHasValue [⟨.dataProperty, property⟩] [] (literalKey value).payload) polarity)
  | .unsupported _, _ => 0

def expressionsCost : List Owl.ClassExpression → IndexPolarity → Content
  | [], _ => 0
  | first :: rest, polarity => expressionCost first polarity + expressionsCost rest polarity

end

/-- What converting a value adds to an index. -/
def conversionCost : Owl.Value → IndexPolarity → Content
  | .expression value, polarity => expressionCost literalKey value polarity
  | .individual value, polarity => individualCost value polarity

end

section

/-- A named class is counted at its one position. -/
theorem classCost_counts (iri : String) (polarity : IndexPolarity) :
    (classCost iri polarity).counts = countPositions ((classTree iri).positions polarity) := by
  rw [classTree, countPositions_node, ExpressionTree.allPositions, countPositions_nil, add_zero, classCost, classTree,
    Content.add_counts, Content.featureIf_counts, add_zero]

/-- An individual is counted at the position of its nominal. -/
theorem individualCost_counts {value : Owl.Individual} {expression : ExpressionTree}
    (form : value.form = some expression)
    (polarity : IndexPolarity) :
    (individualCost value polarity).counts = countPositions (expression.positions polarity) := by
  cases value with
  | anonymousIndividual label => cases form
  | namedIndividual iri =>
    cases form
    rw [individualTree, countPositions_node, ExpressionTree.allPositions, countPositions_nil, add_zero]
    rfl

theorem individualsCost_counts {values : List Owl.Individual} {expressions : List ExpressionTree}
    (forms : values.mapM Owl.Individual.form = some expressions) (polarity : IndexPolarity) :
    (individualsCost values polarity).counts = countPositions (ExpressionTree.allPositions expressions polarity) := by
  induction values generalizing expressions with
  | nil =>
    cases forms
    rfl
  | cons value rest ih =>
    rw [List.mapM_cons] at forms
    obtain ⟨first, form, forms⟩ := Option.bind_eq_some_iff.mp forms
    obtain ⟨others, found, last⟩ := Option.bind_eq_some_iff.mp forms
    cases last
    rw [ExpressionTree.allPositions, countPositions_append, ← ih found, ← individualCost_counts form]
    rfl

@[simp] theorem propertyCost_counts (value : Owl.ObjectPropertyExpression) (polarity : IndexPolarity) :
    (propertyCost value polarity).counts = 0 := by
  cases value with
  | objectProperty iri => simp [propertyCost, Content.known, Content.property]
  | objectInverseOf iri => rfl

/-- The intersections folded over a list are counted at their positions, apart from those of the operands. -/
theorem foldCost_counts (polarity : IndexPolarity) (result : ExpressionTree) (children : List ExpressionTree) :
    countPositions ((children.foldl intersectionTree result).positions polarity) =
      (foldCost polarity result children).counts + (countPositions (result.positions polarity) +
        countPositions (ExpressionTree.allPositions children polarity)) := by
  induction children generalizing result with
  | nil =>
    rw [List.foldl_nil, foldCost, ExpressionTree.allPositions, countPositions_nil, Content.zero_counts, zero_add,
      add_zero]
  | cons child rest ih =>
    have here : countPositions ((intersectionTree result child).positions polarity) =
        (Content.interned (intersectionTree result child) polarity).counts +
          (countPositions (result.positions polarity) +
          countPositions (child.positions polarity)) := by
      rw [intersectionTree, countPositions_node, if_neg (by decide), ExpressionTree.allPositions,
        countPositions_append,
        allPositions_singleton]
    rw [List.foldl_cons, ih, here, foldCost, Content.add_counts, ExpressionTree.allPositions, countPositions_append]
    abel

/-- The union over a list is counted at its position, apart from those of the operands. -/
theorem unionCost_counts (polarity : IndexPolarity) (children : List ExpressionTree) :
    countPositions ((unionForm children).positions polarity) =
      (unionCost polarity children).counts + countPositions (ExpressionTree.allPositions children polarity) := by
  match children with
  | [] => rw [unionForm, unionCost, classCost_counts, ExpressionTree.allPositions, countPositions_nil, add_zero]
  | [child] => rw [unionForm, unionCost, allPositions_singleton, Content.zero_counts, zero_add]
  | first :: second :: rest =>
    rw [unionForm, countPositions_node, if_neg (by decide), unionCost, Content.add_counts, Content.featureIf_counts,
      add_zero]
    all_goals simp

/-- Finishing an operator counts what its normal form has over its children. -/
theorem finishCost_counts {operation : FinishOperation} {prop : Option EntityRecord} {children : List ExpressionTree}
    {expression : ExpressionTree} (form : finishForm operation prop children = some expression)
    (polarity : IndexPolarity)
    (single : operation = .complement ∨ operation = .some → children.length = 1) :
    countPositions (expression.positions polarity) = (finishCost operation polarity prop children).counts +
      countPositions (ExpressionTree.allPositions children
        (if operation = .complement then polarity.complementary else polarity)) := by
  cases operation with
  | intersection =>
    cases children with
    | nil =>
      cases form
      rw [if_neg (by decide), finishCost, classCost_counts, ExpressionTree.allPositions, countPositions_nil, add_zero]
    | cons first rest =>
      cases form
      rw [if_neg (by decide), foldCost_counts, finishCost, ExpressionTree.allPositions, countPositions_append]
  | union =>
    cases form
    rw [if_neg (by decide), unionCost_counts, finishCost]
  | oneOf =>
    cases form
    rw [if_neg (by decide), unionCost_counts, finishCost]
  | complement =>
    obtain ⟨child, rfl⟩ := List.length_eq_one_iff.mp (single (Or.inl rfl))
    cases form
    rw [countPositions_node, if_pos rfl, if_pos rfl, finishCost, Content.add_counts, Content.add_counts,
      Content.featureIf_counts, Content.featureIf_counts, add_zero, add_zero]
  | some =>
    obtain ⟨child, rfl⟩ := List.length_eq_one_iff.mp (single (Or.inr rfl))
    cases prop with
    | none => cases form
    | some prop =>
      cases form
      rw [someTree, countPositions_node, if_neg (by decide), if_neg (by decide), finishCost, someTree,
        Content.add_counts,
        Content.featureIf_counts, add_zero]

end

section

variable (literalKey : Owl.Literal → ElkCompatibilityKey)

mutual

/-- The counters of a cost are the positions of the normal form. -/
theorem expressionCost_counts (value : Owl.ClassExpression) {expression : ExpressionTree} (polarity : IndexPolarity)
    (form : value.form literalKey = some expression) :
    (expressionCost literalKey value polarity).counts = countPositions (expression.positions polarity) := by
  match value with
  | .owlClass iri =>
    cases form
    exact classCost_counts iri polarity
  | .objectIntersectionOf operands =>
    rw [Owl.ClassExpression.form] at form
    obtain ⟨expressions, forms, finishing⟩ := Option.bind_eq_some_iff.mp form
    rw [finishCost_counts finishing polarity (by simp), if_neg (by decide),
      ← expressionsCost_counts operands polarity forms, expressionCost, forms, Content.add_counts, add_comm]
    rfl
  | .objectUnionOf operands =>
    rw [Owl.ClassExpression.form] at form
    obtain ⟨expressions, forms, finishing⟩ := Option.bind_eq_some_iff.mp form
    rw [finishCost_counts finishing polarity (by simp), if_neg (by decide),
      ← expressionsCost_counts operands polarity forms, expressionCost, forms, Content.add_counts, add_comm]
    rfl
  | .objectComplementOf operand =>
    rw [Owl.ClassExpression.form] at form
    obtain ⟨child, found, finishing⟩ := Option.bind_eq_some_iff.mp form
    rw [finishCost_counts finishing polarity (fun _ => rfl), if_pos rfl, allPositions_singleton,
      ← expressionCost_counts operand polarity.complementary found, expressionCost, found,
      Content.add_counts, add_comm]
    rfl
  | .objectOneOf individuals =>
    rw [Owl.ClassExpression.form] at form
    obtain ⟨expressions, forms, finishing⟩ := Option.bind_eq_some_iff.mp form
    rw [finishCost_counts finishing polarity (by simp), if_neg (by decide),
      ← individualsCost_counts forms, expressionCost, forms, Content.add_counts, Content.add_counts,
      Content.featureIf_counts, zero_add, add_comm]
    rfl
  | .objectSomeValuesFrom property filler =>
    rw [Owl.ClassExpression.form] at form
    obtain ⟨prop, record, form⟩ := Option.bind_eq_some_iff.mp form
    obtain ⟨child, found, finishing⟩ := Option.bind_eq_some_iff.mp form
    rw [finishCost_counts finishing polarity (fun _ => rfl), if_neg (by decide), allPositions_singleton,
      ← expressionCost_counts filler polarity found, expressionCost, found, record, Content.add_counts,
      Content.add_counts, propertyCost_counts, zero_add, add_comm]
    rfl
  | .objectHasValue property member =>
    rw [Owl.ClassExpression.form] at form
    obtain ⟨prop, record, form⟩ := Option.bind_eq_some_iff.mp form
    obtain ⟨child, found, finishing⟩ := Option.bind_eq_some_iff.mp form
    rw [finishCost_counts finishing polarity (fun _ => rfl), if_neg (by decide), allPositions_singleton,
      ← individualCost_counts found polarity, expressionCost, found, record, Content.add_counts, Content.add_counts,
      propertyCost_counts, zero_add, add_comm]
    rfl
  | .objectHasSelf property =>
    rw [Owl.ClassExpression.form] at form
    obtain ⟨prop, record, rfl⟩ := Option.map_eq_some_iff.mp form
    rw [expressionCost, record, Content.add_counts, Content.add_counts, propertyCost_counts, Content.featureIf_counts,
      zero_add, add_zero, hasSelfTree, countPositions_node, ExpressionTree.allPositions, countPositions_nil, add_zero]
    rfl
  | .dataHasValue property literal =>
    cases form
    rw [expressionCost, countPositions_node, ExpressionTree.allPositions, countPositions_nil, add_zero]
    simp [Content.known, Content.feature]
  | .unsupported expression => cases form

/-- The cost of a list of class expressions counts the positions of their trees. -/
theorem expressionsCost_counts (values : List Owl.ClassExpression) {expressions : List ExpressionTree}
    (polarity : IndexPolarity) (forms : Owl.ClassExpression.forms literalKey values = some expressions) :
    (expressionsCost literalKey values polarity).counts =
      countPositions (ExpressionTree.allPositions expressions polarity) := by
  match values with
  | [] =>
    cases forms
    rfl
  | first :: rest =>
    rw [Owl.ClassExpression.forms] at forms
    obtain ⟨head, form, forms⟩ := Option.bind_eq_some_iff.mp forms
    obtain ⟨others, found, last⟩ := Option.bind_eq_some_iff.mp forms
    cases last
    rw [ExpressionTree.allPositions, countPositions_append, ← expressionCost_counts first polarity form,
      ← expressionsCost_counts rest polarity found]
    rfl

end

/-- The cost of a value counts the positions of its tree, each with the polarity it has there. -/
theorem conversionCost_counts {value : Owl.Value} {expression : ExpressionTree}
    (form : value.form literalKey = some expression) (polarity : IndexPolarity) :
    (conversionCost literalKey value polarity).counts = countPositions (expression.positions polarity) := by
  cases value with
  | expression value => exact expressionCost_counts literalKey value polarity form
  | individual value => exact individualCost_counts form polarity

end

end ExpressionConverter

end PyElk
