import PyElk.Indexing.Positions

namespace PyElk

namespace Owl

mutual

/-- The nodes of a class expression. -/
def ClassExpression.nodes : ClassExpression → Nat
  | .owlClass _ | .objectHasSelf _ | .dataHasValue _ _ | .unsupported _ => 1
  | .objectIntersectionOf operands | .objectUnionOf operands => ClassExpression.allNodes operands + 1
  | .objectComplementOf operand => operand.nodes + 1
  | .objectOneOf individuals => individuals.length + 1
  | .objectSomeValuesFrom _ filler => filler.nodes + 1
  | .objectHasValue _ _ => 2

def ClassExpression.allNodes : List ClassExpression → Nat
  | [] => 0
  | first :: rest => first.nodes + ClassExpression.allNodes rest

end

def Value.nodes : Value → Nat
  | expression value => value.nodes
  | individual _ => 1

def Individual.iris : Individual → List String
  | namedIndividual iri => [iri]
  | anonymousIndividual _ => []

def ObjectPropertyExpression.iris : ObjectPropertyExpression → List String
  | objectProperty iri | objectInverseOf iri => [iri]

mutual

/-- The IRIs of the entities in a class expression. -/
def ClassExpression.iris : ClassExpression → List String
  | .owlClass iri => [iri]
  | .objectIntersectionOf operands | .objectUnionOf operands => ClassExpression.allIris operands
  | .objectComplementOf operand => operand.iris
  | .objectOneOf individuals => individuals.flatMap Individual.iris
  | .objectSomeValuesFrom property filler => property.iris ++ filler.iris
  | .objectHasValue property value => property.iris ++ value.iris
  | .objectHasSelf property => property.iris
  | .dataHasValue property _ => [property]
  | .unsupported _ => []

def ClassExpression.allIris : List ClassExpression → List String
  | [] => []
  | first :: rest => first.iris ++ ClassExpression.allIris rest

end

def Value.iris : Value → List String
  | expression value => value.iris
  | individual value => value.iris

end Owl

namespace ExpressionConverter

open MutableIndex Conversion

/-- The feature counters that the expression converter touches are in the vector. -/
theorem converterFeatures_inside : ∀ name ∈ ["OWL_NOTHING_POSITIVE", "BOTTOM_OBJECT_PROPERTY_POSITIVE",
    "TOP_OBJECT_PROPERTY_NEGATIVE", "OBJECT_UNION_OF_POSITIVE", "OBJECT_COMPLEMENT_OF_NEGATIVE",
    "OBJECT_COMPLEMENT_OF_POSITIVE", "OBJECT_HAS_VALUE_POSITIVE", "OBJECT_ONE_OF", "OBJECT_HAS_SELF_NEGATIVE",
    "DATA_HAS_VALUE"], featureIndex name < FEATURE_VECTOR_LENGTH := by
  decide +kernel

section

variable {index : MutableIndex}

theorem entityRecord_spends (kind : EntityKind) (iri : String) :
    (entityRecord kind iri).Spends index 0 (iri = "") := by
  unfold entityRecord
  split
  · rename_i empty
    refine ⟨fun value later done => (by cases done), fun raised failed => ?_⟩
    cases failed
    exact Or.inr ⟨rfl, empty⟩
  · rename_i proper
    exact (Spends.pure _).congr rfl ⟨False.elim, proper⟩

theorem observe_spends (nodeLimit observed : Nat) :
    (observe nodeLimit observed).Spends index 0 (nodeLimit < observed + 1) :=
  (require_spends _).congr rfl not_le

variable (wellFormed : index.WellFormed)

include wellFormed

/-- A named class costs its named expression, and only an empty IRI is refused. -/
theorem convertClass_spends (iri : String) (polarity : IndexPolarity) :
    (convertClass iri polarity).Spends index (classCost iri polarity) (iri = "") := by
  have inside := converterFeatures_inside "OWL_NOTHING_POSITIVE" (by simp)
  refine (entityRecord_spends .owlClass iri).guard fun record middle found => ?_
  obtain ⟨rfl, rfl, proper⟩ := entityRecord_ok found
  have named : ∀ entity ∈ [(⟨.owlClass, iri⟩ : EntityRecord)], entity.iri ≠ "" := by simpa using proper
  have shaped : ExpressionKey.Shaped ⟨.owlClass, [⟨.owlClass, iri⟩], [], []⟩ := rfl
  have bound : ∀ operand ∈ ([] : List Nat), operand < index.expressions.length := by simp
  refine (internKey_spends wellFormed shaped bound named polarity).then fun handle middle done => ?_
  have emits := (internKey_emits wellFormed shaped bound named done).1
  exact (addFeatureIf_spends inside emits.wellFormed _).last fun _ => handle

/-- A named individual costs its nominal, and only an empty IRI is refused. -/
theorem convertIndividual_spends (iri : String) (polarity : IndexPolarity) :
    (convertIndividual iri polarity).Spends index (Content.interned (individualTree iri) polarity) (iri = "") := by
  refine (entityRecord_spends .namedIndividual iri).guard fun record middle found => ?_
  obtain ⟨rfl, rfl, proper⟩ := entityRecord_ok found
  have named : ∀ entity ∈ [(⟨.namedIndividual, iri⟩ : EntityRecord)], entity.iri ≠ "" := by simpa using proper
  have shaped : ExpressionKey.Shaped ⟨.individual, [⟨.namedIndividual, iri⟩], [], []⟩ := rfl
  have bound : ∀ operand ∈ ([] : List Nat), operand < index.expressions.length := by simp
  exact internKey_spends wellFormed shaped bound named polarity

/-- A property costs its entity and one occurrence, unless its IRI is empty. -/
theorem objectProperty_spends {value : Owl.ObjectPropertyExpression} {record : EntityRecord}
    (supported : value.record = some record) (polarity : IndexPolarity) :
    (objectProperty value polarity).Spends index (propertyCost value polarity) ("" ∈ value.iris) := by
  have bottomInside := converterFeatures_inside "BOTTOM_OBJECT_PROPERTY_POSITIVE" (by simp)
  have topInside := converterFeatures_inside "TOP_OBJECT_PROPERTY_NEGATIVE" (by simp)
  cases value with
  | objectInverseOf iri => cases supported
  | objectProperty iri =>
    have refusal : "" ∈ (Owl.ObjectPropertyExpression.objectProperty iri).iris ↔ iri = "" :=
      List.mem_singleton.trans eq_comm
    refine ((entityRecord_spends .objectProperty iri).guard fun record middle found => ?_).congr rfl refusal.symm
    obtain ⟨rfl, rfl, proper⟩ := entityRecord_ok found
    have kind : (⟨.objectProperty, iri⟩ : EntityRecord).kind = .objectProperty := rfl
    rw [propertyCost, add_assoc]
    refine (recordObjectProperty_spends kind polarity).then fun _ middle done => ?_
    have first := (recordObjectProperty_emits wellFormed proper done).1
    refine (addFeatureIf_spends bottomInside first.wellFormed _).then fun _ last done => ?_
    have second := addFeatureIf_emits first.wellFormed done
    exact (addFeatureIf_spends topInside second.wellFormed _).last _

/-- The fold of an intersection costs the conjunctions it interns. -/
theorem foldIntersection_spends (polarity : IndexPolarity) {result : Nat} {children : List Nat}
    (resultBound : result < index.expressions.length) (bound : ∀ child ∈ children, child < index.expressions.length) :
    (foldIntersection polarity result children).Spends index
      (foldCost polarity (index.tree result) (children.map index.tree)) False := by
  induction children generalizing result index with
  | nil => exact .pure result
  | cons child rest ih =>
    have operands : ∀ operand ∈ [result, child], operand < index.expressions.length := by
      simpa using ⟨resultBound, bound child List.mem_cons_self⟩
    have shaped : ExpressionKey.Shaped ⟨.objectIntersectionOf, [], [result, child], []⟩ := trivial
    have named : ∀ entity ∈ ([] : List EntityRecord), entity.iri ≠ "" := by simp
    refine (internKey_spends wellFormed shaped operands named polarity).then fun conjunction middle done => ?_
    have converted := internKey_converted wellFormed shaped operands named done
    have extension := converted.emits.extension
    have remaining : ∀ other ∈ rest, other < index.expressions.length :=
      fun other member => bound other (List.mem_cons_of_mem _ member)
    have folded := ih converted.emits.wellFormed converted.bound
      (fun other member => extension.lt (remaining other member))
    rw [extension.map_tree remaining, converted.tree_eq] at folded
    exact folded

/-- A union costs the one expression it interns, none for a single operand. -/
theorem finishUnion_spends (polarity : IndexPolarity) {children : List Nat}
    (bound : ∀ child ∈ children, child < index.expressions.length) :
    (finishUnion polarity children).Spends index (unionCost polarity (children.map index.tree)) False := by
  match children with
  | [] => exact (convertClass_spends wellFormed OWL_NOTHING_IRI polarity).congr rfl ⟨by decide, False.elim⟩
  | [child] => exact .pure child
  | first :: second :: rest =>
    have inside := converterFeatures_inside "OBJECT_UNION_OF_POSITIVE" (by simp)
    have shaped : ExpressionKey.Shaped ⟨.objectUnionOf, [], first :: second :: rest, []⟩ :=
      Nat.le_add_left 2 rest.length
    have named : ∀ entity ∈ ([] : List EntityRecord), entity.iri ≠ "" := by simp
    refine (internKey_spends wellFormed shaped bound named polarity).then fun handle middle done => ?_
    have emits := (internKey_emits wellFormed shaped bound named done).1
    exact (addFeatureIf_spends inside emits.wellFormed _).last fun _ => handle

/-- Finishing an operator that has a normal form adds its cost. -/
theorem finish_spends {operation : FinishOperation} {prop : Option EntityRecord} {children : List Nat}
    {expression : ExpressionTree} (form : finishForm operation prop (children.map index.tree) = some expression)
    (bound : ∀ child ∈ children, child < index.expressions.length)
    (property : ∀ record, prop = some record → record.kind = .objectProperty ∧ record.iri ≠ "")
    (polarity : IndexPolarity) : (finish operation polarity prop children).Spends index
      (finishCost operation polarity prop (children.map index.tree)) False := by
  cases operation with
  | intersection =>
    cases children with
    | nil => exact (convertClass_spends wellFormed OWL_THING_IRI polarity).congr rfl ⟨by decide, False.elim⟩
    | cons first rest =>
      exact foldIntersection_spends wellFormed polarity (bound first List.mem_cons_self)
        (fun child member => bound child (List.mem_cons_of_mem _ member))
  | union => exact finishUnion_spends wellFormed polarity bound
  | oneOf => exact finishUnion_spends wellFormed polarity bound
  | complement =>
    cases children with
    | nil => cases form
    | cons child rest =>
      have negativeInside := converterFeatures_inside "OBJECT_COMPLEMENT_OF_NEGATIVE" (by simp)
      have positiveInside := converterFeatures_inside "OBJECT_COMPLEMENT_OF_POSITIVE" (by simp)
      have shaped : ExpressionKey.Shaped ⟨.objectComplementOf, [], [child], []⟩ := trivial
      have operands : ∀ operand ∈ [child], operand < index.expressions.length := by
        simpa using bound child List.mem_cons_self
      have named : ∀ entity ∈ ([] : List EntityRecord), entity.iri ≠ "" := by simp
      refine (internKey_spends wellFormed shaped operands named polarity).then fun handle middle done => ?_
      have first := (internKey_emits wellFormed shaped operands named done).1
      refine (addFeatureIf_spends negativeInside first.wellFormed _).then fun _ last done => ?_
      have second := addFeatureIf_emits first.wellFormed done
      exact (addFeatureIf_spends positiveInside second.wellFormed _).last fun _ => handle
  | some =>
    cases children with
    | nil => cases prop <;> cases form
    | cons child rest =>
      cases prop with
      | none => cases form
      | some prop =>
        have inside := converterFeatures_inside "OBJECT_HAS_VALUE_POSITIVE" (by simp)
        obtain ⟨kind, named⟩ := property prop rfl
        have childBound := bound child List.mem_cons_self
        have shaped : ExpressionKey.Shaped ⟨.objectSomeValuesFrom, [prop], [child], []⟩ := kind
        have operands : ∀ operand ∈ [child], operand < index.expressions.length := by simpa using childBound
        have names : ∀ entity ∈ [prop], entity.iri ≠ "" := by simpa using named
        refine (internKey_spends wellFormed shaped operands names polarity).then fun handle middle done => ?_
        have emits := (internKey_emits wellFormed shaped operands names done).1
        refine (expressionTag_spends (emits.extension.lt childBound)).guard fun tag last found => ?_
        obtain ⟨rfl, key, entry, rfl⟩ := expressionTag_ok found
        have tree : (index.tree child).tag = key.tag := by
          rw [← emits.extension.tree childBound, MutableIndex.tree, treeOf_entry emits.wellFormed.operands entry]
          rfl
        simp only [tree]
        exact (addFeatureIf_spends inside emits.wellFormed _).last fun _ => handle

end

section

variable (literalKey : Owl.Literal → ElkCompatibilityKey) (nodeLimit : Nat)

/-- An individual is one observed node. -/
theorem convertMember_observed {index later : MutableIndex} {value : Owl.Individual} {polarity : IndexPolarity}
    {observed : Nat} {result : Nat × Nat}
    (done : convertMember nodeLimit value polarity observed index = .ok (result, later)) :
    result.2 = observed + 1 := by
  obtain ⟨_, _, guard, after⟩ := bind_ok done
  cases value with
  | anonymousIndividual label => cases after
  | namedIndividual iri =>
    obtain ⟨handle, middle, step, final⟩ := bind_ok after
    obtain ⟨rfl, -⟩ := pure_ok final
    rfl

theorem convertMembers_observed {index later : MutableIndex} {values : List Owl.Individual} {polarity : IndexPolarity}
    {observed : Nat} {result : List Nat × Nat}
    (done : convertMembers nodeLimit values polarity observed index = .ok (result, later)) :
    result.2 = observed + values.length := by
  induction values generalizing index later observed result with
  | nil =>
    obtain ⟨rfl, -⟩ := pure_ok done
    rfl
  | cons first rest ih =>
    obtain ⟨head, middle, step, after⟩ := bind_ok done
    obtain ⟨tail, last, steps, final⟩ := bind_ok after
    obtain ⟨rfl, rfl⟩ := pure_ok final
    have one := convertMember_observed nodeLimit step
    have others := ih steps
    rw [List.length_cons]
    omega

theorem finishTree_observed {index later : MutableIndex} {operation : FinishOperation} {polarity : IndexPolarity}
    {prop : Option EntityRecord} {children : List Nat × Nat} {result : Nat × Nat}
    (done : finishTree operation polarity prop children index = .ok (result, later)) : result.2 = children.2 := by
  obtain ⟨handle, middle, step, final⟩ := bind_ok done
  obtain ⟨rfl, -⟩ := pure_ok final
  rfl

mutual

/-- A conversion visits each node of the expression once. -/
theorem convertTree_observed (value : Owl.ClassExpression) {index later : MutableIndex} {polarity : IndexPolarity}
    {observed : Nat} {result : Nat × Nat}
    (done : convertTree literalKey nodeLimit value polarity observed index = .ok (result, later)) :
    result.2 = observed + value.nodes := by
  match value with
  | .owlClass iri =>
    rw [convertTree] at done
    obtain ⟨_, _, guard, after⟩ := bind_ok done
    obtain ⟨handle, middle, step, final⟩ := bind_ok after
    obtain ⟨rfl, -⟩ := pure_ok final
    rfl
  | .objectIntersectionOf operands | .objectUnionOf operands =>
    rw [convertTree] at done
    obtain ⟨_, _, guard, after⟩ := bind_ok done
    obtain ⟨children, middle, steps, final⟩ := bind_ok after
    have below := convertTrees_observed operands steps
    rw [finishTree_observed final, below, Owl.ClassExpression.nodes]
    omega
  | .objectComplementOf operand =>
    rw [convertTree] at done
    obtain ⟨_, _, guard, after⟩ := bind_ok done
    obtain ⟨child, middle, step, final⟩ := bind_ok after
    have below := convertTree_observed operand step
    rw [finishTree_observed final, below, Owl.ClassExpression.nodes]
    omega
  | .objectOneOf individuals =>
    rw [convertTree] at done
    obtain ⟨_, _, guard, after⟩ := bind_ok done
    obtain ⟨_, _, feature, after'⟩ := bind_ok after
    obtain ⟨children, middle, steps, final⟩ := bind_ok after'
    have below := convertMembers_observed nodeLimit steps
    rw [finishTree_observed final, below, Owl.ClassExpression.nodes]
    omega
  | .objectSomeValuesFrom property filler =>
    rw [convertTree] at done
    obtain ⟨_, _, guard, after⟩ := bind_ok done
    obtain ⟨prop, _, recorded, after'⟩ := bind_ok after
    obtain ⟨child, middle, step, final⟩ := bind_ok after'
    have below := convertTree_observed filler step
    rw [finishTree_observed final, below, Owl.ClassExpression.nodes]
    omega
  | .objectHasValue property member =>
    rw [convertTree] at done
    obtain ⟨_, _, guard, after⟩ := bind_ok done
    obtain ⟨prop, _, recorded, after'⟩ := bind_ok after
    obtain ⟨child, middle, step, final⟩ := bind_ok after'
    have below := convertMember_observed nodeLimit step
    rw [finishTree_observed final, below, Owl.ClassExpression.nodes]
  | .objectHasSelf property =>
    rw [convertTree] at done
    obtain ⟨_, _, guard, after⟩ := bind_ok done
    obtain ⟨prop, _, recorded, after'⟩ := bind_ok after
    obtain ⟨handle, middle, step, after''⟩ := bind_ok after'
    obtain ⟨_, _, feature, final⟩ := bind_ok after''
    obtain ⟨rfl, -⟩ := pure_ok final
    rfl
  | .dataHasValue property literal =>
    rw [convertTree] at done
    obtain ⟨_, _, guard, after⟩ := bind_ok done
    obtain ⟨prop, _, found, after'⟩ := bind_ok after
    obtain ⟨_, _, entity, after''⟩ := bind_ok after'
    obtain ⟨_, _, feature, after'''⟩ := bind_ok after''
    obtain ⟨handle, middle, step, final⟩ := bind_ok after'''
    obtain ⟨rfl, -⟩ := pure_ok final
    rfl
  | .unsupported expression =>
    rw [convertTree] at done
    obtain ⟨_, _, guard, after⟩ := bind_ok done
    cases after

/-- A list of expressions observes the nodes of each. -/
theorem convertTrees_observed (values : List Owl.ClassExpression) {index later : MutableIndex}
    {polarity : IndexPolarity} {observed : Nat} {result : List Nat × Nat}
    (done : convertTrees literalKey nodeLimit values polarity observed index = .ok (result, later)) :
    result.2 = observed + Owl.ClassExpression.allNodes values := by
  match values with
  | [] =>
    rw [convertTrees] at done
    obtain ⟨rfl, -⟩ := pure_ok done
    rfl
  | first :: rest =>
    rw [convertTrees] at done
    obtain ⟨head, middle, step, after⟩ := bind_ok done
    obtain ⟨tail, last, steps, final⟩ := bind_ok after
    obtain ⟨rfl, -⟩ := pure_ok final
    have one := convertTree_observed first step
    have others := convertTrees_observed rest steps
    rw [Owl.ClassExpression.allNodes]
    omega

end

section

variable {index : MutableIndex}

/-- The refusals of two steps in a row: the ceiling and the empty IRIs. -/
theorem refusal_iff {limit first second : Nat} {empty empty' : Prop} (ordered : first ≤ second) :
    ((limit < first ∨ empty) ∨ (limit < second ∨ empty')) ↔ (limit < second ∨ (empty ∨ empty')) := by
  have later : limit < first → limit < second := fun below => below.trans_le ordered
  tauto

theorem convertMember_spends (wellFormed : index.WellFormed) {value : Owl.Individual} {expression : ExpressionTree}
    (form : value.form = some expression) (polarity : IndexPolarity) (observed : Nat) :
    (convertMember nodeLimit value polarity observed).Spends index (individualCost value polarity)
      (nodeLimit < observed + 1 ∨ "" ∈ value.iris) := by
  cases value with
  | anonymousIndividual label => cases form
  | namedIndividual iri =>
    have refusal : "" ∈ (Owl.Individual.namedIndividual iri).iris ↔ iri = "" := List.mem_singleton.trans eq_comm
    refine ((observe_spends nodeLimit observed).bind fun _ middle guard => ?_).congr (zero_add _)
      (or_congr_right refusal.symm)
    obtain ⟨-, rfl⟩ := require_ok guard
    exact (convertIndividual_spends wellFormed iri polarity).last fun handle => (handle, observed + 1)

theorem convertMembers_spends (wellFormed : index.WellFormed) {values : List Owl.Individual}
    {expressions : List ExpressionTree} (forms : values.mapM Owl.Individual.form = some expressions)
    (polarity : IndexPolarity) {observed : Nat} (small : observed ≤ nodeLimit) :
    (convertMembers nodeLimit values polarity observed).Spends index (individualsCost values polarity)
      (nodeLimit < observed + values.length ∨ "" ∈ values.flatMap Owl.Individual.iris) := by
  induction values generalizing index observed expressions with
  | nil =>
    refine (Spends.pure _).congr rfl ?_
    simp only [List.length_nil, Nat.add_zero, List.flatMap_nil, List.not_mem_nil, or_false, false_iff]
    omega
  | cons value rest ih =>
    rw [List.mapM_cons] at forms
    obtain ⟨first, form, forms⟩ := Option.bind_eq_some_iff.mp forms
    obtain ⟨others, found, -⟩ := Option.bind_eq_some_iff.mp forms
    have head := convertMember_spends nodeLimit wellFormed form polarity observed
    have refusal : ((nodeLimit < observed + 1 ∨ "" ∈ value.iris) ∨ (nodeLimit < observed + 1 + rest.length ∨
        "" ∈ rest.flatMap Owl.Individual.iris)) ↔ (nodeLimit < observed + (value :: rest).length ∨
          "" ∈ (value :: rest).flatMap Owl.Individual.iris) := by
      rw [refusal_iff (Nat.le_add_right _ _), List.length_cons, List.flatMap_cons, List.mem_append,
        Nat.add_comm rest.length, Nat.add_assoc]
    refine Spends.congr (head.bind fun result middle done => ?_) rfl refusal
    obtain ⟨expression, -, converted⟩ := convertMember_converted wellFormed nodeLimit done
    have seen := convertMember_observed nodeLimit done
    have below : observed + 1 ≤ nodeLimit := not_lt.mp fun above => (head.ok result middle done).2 (Or.inl above)
    have tail := ih converted.emits.wellFormed found below
    rw [← seen] at tail ⊢
    exact tail.last fun others => (result.1 :: others.1, others.2)

theorem finishTree_spends (wellFormed : index.WellFormed) {operation : FinishOperation} {prop : Option EntityRecord}
    {children : List Nat × Nat} {expressions : List ExpressionTree} {expression : ExpressionTree}
    {start : MutableIndex}
    (form : finishForm operation prop expressions = some expression)
    (converted : start.ConvertedAll index children.1 expressions)
    (property : ∀ record, prop = some record → record.kind = .objectProperty ∧ record.iri ≠ "")
    (polarity : IndexPolarity) : (finishTree operation polarity prop children).Spends index
      (finishCost operation polarity prop expressions) False := by
  rw [← converted.trees_eq] at form ⊢
  exact (finish_spends wellFormed form converted.bound property polarity).last fun handle => (handle, children.2)

/-- A node is observed before it is converted. -/
theorem observe_then {observed more : Nat} {empty : Prop} {cost : Content} {rest : Conversion (Nat × Nat)}
    (spends : observed + 1 ≤ nodeLimit → rest.Spends index cost (nodeLimit < observed + 1 + more ∨ empty)) :
    (observe nodeLimit observed >>= fun _ => rest).Spends index cost (nodeLimit < observed + (more + 1) ∨ empty) := by
  have refusal : (nodeLimit < observed + 1 ∨ (nodeLimit < observed + 1 + more ∨ empty)) ↔
      (nodeLimit < observed + (more + 1) ∨ empty) := by
    have later : nodeLimit < observed + 1 → nodeLimit < observed + (more + 1) := by omega
    rw [Nat.add_comm more, ← Nat.add_assoc] at later ⊢
    tauto
  refine ((observe_spends nodeLimit observed).bind fun _ middle guard => ?_).congr (zero_add _) refusal
  obtain ⟨small, rfl⟩ := require_ok guard
  exact spends small

theorem observe_leaf {observed : Nat} {empty : Prop} {cost : Content} {rest : Conversion (Nat × Nat)}
    (spends : rest.Spends index cost empty) :
    (observe nodeLimit observed >>= fun _ => rest).Spends index cost (nodeLimit < observed + 1 ∨ empty) := by
  refine ((observe_spends nodeLimit observed).bind fun _ middle guard => ?_).congr (zero_add _) Iff.rfl
  obtain ⟨-, rfl⟩ := require_ok guard
  exact spends

/-- The last step of an operator over expressions. -/
theorem operator_spends {operation : FinishOperation} {prop : Option EntityRecord}
    {conversion : Conversion (List Nat × Nat)} {expressions : List ExpressionTree} {expression : ExpressionTree}
    {cost : Content} {refused : Prop} (form : finishForm operation prop expressions = some expression)
    (property : ∀ record, prop = some record → record.kind = .objectProperty ∧ record.iri ≠ "")
    (spends : conversion.Spends index cost refused)
    (converts : ∀ children middle, conversion index = .ok (children, middle) →
      index.ConvertedAll middle children.1 expressions) (polarity : IndexPolarity) :
    (conversion >>= finishTree operation polarity prop).Spends index
      (cost + finishCost operation polarity prop expressions) refused := by
  refine spends.then fun children middle done => ?_
  have converted := converts children middle done
  exact finishTree_spends converted.emits.wellFormed form converted property polarity

mutual

/-- The conversion of a supported expression adds exactly its cost: it is refused only
for the node ceiling or an empty IRI, and fails only when a counter overflows. -/
theorem convertTree_spends (value : Owl.ClassExpression) {index : MutableIndex} (wellFormed : index.WellFormed)
    {expression : ExpressionTree} (form : value.form literalKey = some expression) (polarity : IndexPolarity)
    (observed : Nat) : (convertTree literalKey nodeLimit value polarity observed).Spends index
      (expressionCost literalKey value polarity) (nodeLimit < observed + value.nodes ∨ "" ∈ value.iris) := by
  have noProperty : ∀ record : EntityRecord, none = some record → record.kind = .objectProperty ∧ record.iri ≠ "" :=
    fun record impossible => by cases impossible
  match value with
  | .owlClass iri =>
    have refusal : iri = "" ↔ "" ∈ [iri] := eq_comm.trans List.mem_singleton.symm
    rw [convertTree, expressionCost]
    exact observe_leaf nodeLimit (((convertClass_spends wellFormed iri polarity).congr rfl refusal).last _)
  | .objectIntersectionOf operands =>
    rw [Owl.ClassExpression.form] at form
    obtain ⟨expressions, forms, finishing⟩ := Option.bind_eq_some_iff.mp form
    rw [convertTree, expressionCost, forms]
    refine observe_then nodeLimit fun small => ?_
    refine operator_spends finishing noProperty (convertTrees_spends operands wellFormed forms polarity small)
      (fun children middle done => ?_) polarity
    obtain ⟨others, found, converted⟩ := convertTrees_converted literalKey nodeLimit operands wellFormed done
    cases forms.symm.trans found
    exact converted
  | .objectUnionOf operands =>
    rw [Owl.ClassExpression.form] at form
    obtain ⟨expressions, forms, finishing⟩ := Option.bind_eq_some_iff.mp form
    rw [convertTree, expressionCost, forms]
    refine observe_then nodeLimit fun small => ?_
    refine operator_spends finishing noProperty (convertTrees_spends operands wellFormed forms polarity small)
      (fun children middle done => ?_) polarity
    obtain ⟨others, found, converted⟩ := convertTrees_converted literalKey nodeLimit operands wellFormed done
    cases forms.symm.trans found
    exact converted
  | .objectComplementOf operand =>
    rw [Owl.ClassExpression.form] at form
    obtain ⟨child, found, finishing⟩ := Option.bind_eq_some_iff.mp form
    rw [convertTree, expressionCost, found]
    refine observe_then nodeLimit fun small => ?_
    refine (convertTree_spends operand wellFormed found polarity.complementary (observed + 1)).then
      fun result middle done => ?_
    obtain ⟨other, same, converted⟩ := convertTree_converted literalKey nodeLimit operand wellFormed done
    cases found.symm.trans same
    exact finishTree_spends converted.emits.wellFormed finishing converted.singleton noProperty polarity
  | .objectOneOf individuals =>
    rw [Owl.ClassExpression.form] at form
    obtain ⟨expressions, forms, finishing⟩ := Option.bind_eq_some_iff.mp form
    have inside := converterFeatures_inside "OBJECT_ONE_OF" (by simp)
    rw [convertTree, expressionCost, forms]
    refine observe_then nodeLimit fun small => ?_
    refine ((addFeatureIf_spends inside wellFormed _).bind fun _ featured done => ?_).congr rfl
      (iff_of_eq (false_or _))
    have silent := addFeatureIf_emits wellFormed done
    refine operator_spends finishing noProperty
      (convertMembers_spends nodeLimit silent.wellFormed forms polarity small)
      (fun children middle done => ?_) polarity
    obtain ⟨others, found, converted⟩ := convertMembers_converted silent.wellFormed nodeLimit done
    cases forms.symm.trans found
    exact converted
  | .objectSomeValuesFrom property filler =>
    rw [Owl.ClassExpression.form] at form
    obtain ⟨prop, record, form⟩ := Option.bind_eq_some_iff.mp form
    obtain ⟨child, found, finishing⟩ := Option.bind_eq_some_iff.mp form
    rw [convertTree, expressionCost, found, record]
    refine observe_then nodeLimit fun small => ?_
    refine ((objectProperty_spends wellFormed record polarity).bind fun recorded first done => ?_).congr rfl
      (or_left_comm.trans (or_congr_right List.mem_append.symm))
    obtain ⟨silent, same, proper⟩ := objectProperty_recorded wellFormed done
    cases record.symm.trans same
    refine (convertTree_spends filler silent.wellFormed found polarity (observed + 1)).then
      fun result middle done => ?_
    obtain ⟨other, same', converted⟩ := convertTree_converted literalKey nodeLimit filler silent.wellFormed done
    cases found.symm.trans same'
    exact finishTree_spends converted.emits.wellFormed finishing converted.singleton
      (fun _ same => Option.some.inj same ▸ proper) polarity
  | .objectHasValue property member =>
    rw [Owl.ClassExpression.form] at form
    obtain ⟨prop, record, form⟩ := Option.bind_eq_some_iff.mp form
    obtain ⟨child, found, finishing⟩ := Option.bind_eq_some_iff.mp form
    rw [convertTree, expressionCost, found, record]
    refine observe_then nodeLimit fun small => ?_
    refine ((objectProperty_spends wellFormed record polarity).bind fun recorded first done => ?_).congr rfl
      (or_left_comm.trans (or_congr_right List.mem_append.symm))
    obtain ⟨silent, same, proper⟩ := objectProperty_recorded wellFormed done
    cases record.symm.trans same
    refine (convertMember_spends nodeLimit silent.wellFormed found polarity (observed + 1)).then
      fun result middle done => ?_
    obtain ⟨other, same', converted⟩ := convertMember_converted silent.wellFormed nodeLimit done
    cases found.symm.trans same'
    exact finishTree_spends converted.emits.wellFormed finishing converted.singleton
      (fun _ same => Option.some.inj same ▸ proper) polarity
  | .objectHasSelf property =>
    rw [Owl.ClassExpression.form] at form
    obtain ⟨prop, record, -⟩ := Option.map_eq_some_iff.mp form
    have inside := converterFeatures_inside "OBJECT_HAS_SELF_NEGATIVE" (by simp)
    rw [convertTree, expressionCost, record]
    refine observe_leaf nodeLimit ?_
    refine (objectProperty_spends wellFormed record polarity).then fun recorded first done => ?_
    obtain ⟨silent, same, kind, named⟩ := objectProperty_recorded wellFormed done
    cases record.symm.trans same
    have shaped : ExpressionKey.Shaped ⟨.objectHasSelf, [prop], [], []⟩ := kind
    have bound : ∀ operand ∈ ([] : List Nat), operand < first.expressions.length := by simp
    have names : ∀ entity ∈ [prop], entity.iri ≠ "" := by simpa using named
    refine (internKey_spends silent.wellFormed shaped bound names polarity).then fun handle middle done => ?_
    have emits := (internKey_emits silent.wellFormed shaped bound names done).1
    exact (addFeatureIf_spends inside emits.wellFormed _).last fun _ => (handle, observed + 1)
  | .dataHasValue property literal =>
    have refusal : property = "" ↔ "" ∈ [property] := eq_comm.trans List.mem_singleton.symm
    have inside := converterFeatures_inside "DATA_HAS_VALUE" (by simp)
    rw [convertTree, expressionCost]
    refine observe_leaf nodeLimit (Spends.congr ?_ rfl refusal)
    refine (entityRecord_spends .dataProperty property).guard fun record first found => ?_
    obtain ⟨rfl, rfl, proper⟩ := entityRecord_ok found
    refine (addEntity_spends _).then fun _ second added => ?_
    have named : (⟨.dataProperty, property⟩ : EntityRecord).iri ≠ "" := proper
    have known := (addEntity_emits wellFormed named added).1
    refine (addFeature_spends inside known.wellFormed 1).then fun _ third done => ?_
    have silent := (addFeature_emits known.wellFormed done).1
    have shaped :
      ExpressionKey.Shaped ⟨.dataHasValue, [⟨.dataProperty, property⟩], [], (literalKey literal).payload⟩ :=
      ⟨rfl, (literalKey literal).nonempty⟩
    have bound : ∀ operand ∈ ([] : List Nat), operand < third.expressions.length := by simp
    have names : ∀ entity ∈ [(⟨.dataProperty, property⟩ : EntityRecord)], entity.iri ≠ "" := by simpa using proper
    exact (internKey_spends silent.wellFormed shaped bound names polarity).last fun handle => (handle, observed + 1)
  | .unsupported expression =>
    cases form

/-- A list of expressions costs what each of them costs, within the node limit. -/
theorem convertTrees_spends (values : List Owl.ClassExpression) {index : MutableIndex} (wellFormed : index.WellFormed)
    {expressions : List ExpressionTree} (forms : Owl.ClassExpression.forms literalKey values = some expressions)
    (polarity : IndexPolarity) {observed : Nat} (small : observed ≤ nodeLimit) :
    (convertTrees literalKey nodeLimit values polarity observed).Spends index
      (expressionsCost literalKey values polarity)
      (nodeLimit < observed + Owl.ClassExpression.allNodes values ∨ "" ∈ Owl.ClassExpression.allIris values) := by
  match values with
  | [] =>
    rw [convertTrees, expressionsCost, Owl.ClassExpression.allNodes, Owl.ClassExpression.allIris]
    refine (Spends.pure _).congr rfl ?_
    simp only [Nat.add_zero, List.not_mem_nil, or_false, false_iff]
    omega
  | first :: rest =>
    rw [Owl.ClassExpression.forms] at forms
    obtain ⟨expression, form, forms⟩ := Option.bind_eq_some_iff.mp forms
    obtain ⟨others, found, -⟩ := Option.bind_eq_some_iff.mp forms
    have head := convertTree_spends first wellFormed form polarity observed
    have refusal : ((nodeLimit < observed + first.nodes ∨ "" ∈ first.iris) ∨
        (nodeLimit < observed + first.nodes + Owl.ClassExpression.allNodes rest ∨
          "" ∈ Owl.ClassExpression.allIris rest)) ↔
        (nodeLimit < observed + Owl.ClassExpression.allNodes (first :: rest) ∨
          "" ∈ Owl.ClassExpression.allIris (first :: rest)) := by
      rw [refusal_iff (Nat.le_add_right _ _), Owl.ClassExpression.allNodes, Owl.ClassExpression.allIris,
        List.mem_append,
        Nat.add_assoc]
    rw [convertTrees, expressionsCost]
    refine Spends.congr (head.bind fun result middle done => ?_) rfl refusal
    obtain ⟨other, -, converted⟩ := convertTree_converted literalKey nodeLimit first wellFormed done
    have seen := convertTree_observed literalKey nodeLimit first done
    have below : observed + first.nodes ≤ nodeLimit :=
      not_lt.mp fun above => (head.ok result middle done).2 (Or.inl above)
    have tail := convertTrees_spends rest converted.emits.wellFormed found polarity below
    rw [← seen] at tail ⊢
    exact tail.last fun others => (result.1 :: others.1, others.2)

end

/-- A value costs what its normal form is made of, within the node limit. -/
theorem convertByStructure_spends (wellFormed : index.WellFormed) {value : Owl.Value} {expression : ExpressionTree}
    (form : value.form literalKey = some expression) (polarity : IndexPolarity) :
    (convertByStructure literalKey nodeLimit value polarity 0).Spends index (conversionCost literalKey value polarity)
      (nodeLimit < value.nodes ∨ "" ∈ value.iris) := by
  cases value with
  | expression value =>
    rw [Owl.Value.nodes, ← Nat.zero_add value.nodes]
    exact convertTree_spends literalKey nodeLimit value wellFormed form polarity 0
  | individual value => exact convertMember_spends nodeLimit wellFormed form polarity 0

/-- The stack machine on a supported value. It ends with exactly one handle, which
stands for the normal form, and each subexpression is counted once for every position
it has there. It raises only at the node ceiling, at an empty IRI, or where a counter
would leave its unsigned 64-bit range. -/
theorem convert_exact {index : MutableIndex} (wellFormed : index.WellFormed) {value : Owl.Value}
    {expression : ExpressionTree} (supported : value.form literalKey = some expression) (polarity : IndexPolarity) :
    convert literalKey nodeLimit value polarity =
      Prod.fst <$> convertByStructure literalKey nodeLimit value polarity 0 ∧
    ((∃ handle later, (∀ fuel, run literalKey nodeLimit (steps value + fuel) [.visit value polarity] [] 0 index =
          .ok ([handle], later)) ∧
        convert literalKey nodeLimit value polarity index = .ok (handle, later) ∧
        later.WellFormed ∧ handle < later.expressions.length ∧ later.tree handle = expression ∧
        (∀ other, later.occurrence other =
          index.occurrence other + countPositions (expression.positions polarity) other) ∧
        value.nodes ≤ nodeLimit ∧ "" ∉ value.iris) ∨
      (convert literalKey nodeLimit value polarity index = .error .valueError ∧
        (nodeLimit < value.nodes ∨ "" ∈ value.iris)) ∨
      (convert literalKey nodeLimit value polarity index = .error .overflowError ∧
        ¬(index.content + conversionCost literalKey value polarity).Fits)) := by
  have spends := convertByStructure_spends literalKey nodeLimit wellFormed supported polarity
  have equal := convert_eq literalKey nodeLimit value polarity
  refine ⟨equal, ?_⟩
  have image : convert literalKey nodeLimit value polarity index =
      (convertByStructure literalKey nodeLimit value polarity 0 index).map (fun pair => (pair.1.1, pair.2)) := by
    rw [equal]
    rfl
  cases step : convertByStructure literalKey nodeLimit value polarity 0 index with
  | ok pair =>
    obtain ⟨result, later⟩ := pair
    rw [step] at image
    obtain ⟨content, accepted⟩ := spends.ok result later step
    obtain ⟨small, named⟩ := not_or.mp accepted
    obtain ⟨other, form, converted⟩ := convert_converted wellFormed literalKey nodeLimit image
    cases supported.symm.trans form
    have counts : later.occurrence = index.occurrence + countPositions (expression.positions polarity) := by
      rw [← conversionCost_counts literalKey form polarity]
      exact congrArg Content.counts content
    refine Or.inl ⟨result.1, later, fun fuel => ?_, image, converted.emits.wellFormed, converted.bound,
      converted.tree_eq, congrFun counts, not_lt.mp small, named⟩
    have resumed : resume literalKey nodeLimit [] [] fuel result later = .ok ([result.1], later) := by
      rw [resume, run, List.nil_append]
      rfl
    rw [run_value]
    change (convertByStructure literalKey nodeLimit value polarity 0 index >>= fun pair =>
      resume literalKey nodeLimit [] [] fuel pair.1 pair.2) = _
    rw [step]
    exact resumed
  | error raised =>
    rw [step] at image
    rcases spends.error raised step with ⟨rfl, large⟩ | ⟨rfl, refused⟩
    · exact Or.inr (Or.inr ⟨image, large⟩)
    · exact Or.inr (Or.inl ⟨image, refused⟩)

/-- `¬(A ⊓ ∃r.B)` under a positive polarity in a new transaction: `A` occurs once, negatively. -/
theorem convert_exact_complement :
    ∃ handle later, convert (fun _ => ⟨[0], List.cons_ne_nil _ _⟩) 10 (.expression (.objectComplementOf
        (.objectIntersectionOf [.owlClass "A", .objectSomeValuesFrom (.objectProperty "r") (.owlClass "B")])))
        .positive {} = .ok (handle, later) ∧ later.occurrence (classTree "A") = ⟨1, 0⟩ := by
  rcases (convert_exact (fun _ => ⟨[0], List.cons_ne_nil _ _⟩) 10 (MutableIndex.wellFormed_empty [] (by simp))
    (show (Owl.Value.expression (.objectComplementOf (.objectIntersectionOf
      [.owlClass "A", .objectSomeValuesFrom (.objectProperty "r") (.owlClass "B")]))).form _ =
        some _ from rfl) .positive).2
    with ⟨handle, later, -, done, -, -, -, counts, -⟩ | ⟨-, refused⟩ | ⟨failed, -⟩
  · refine ⟨handle, later, done, (counts (classTree "A")).trans ?_⟩
    have absent : MutableIndex.occurrence {} (classTree "A") = 0 :=
      MutableIndex.occurrence_absent (by rintro ⟨_, bound, -⟩; cases bound)
    rw [absent]
    simp [countPositions, ExpressionTree.positions, ExpressionTree.allPositions, classTree,
      intersectionTree, someTree,
      IndexPolarity.complementary]
  · exact absurd refused (by decide)
  · have converts : (convert (fun _ => ⟨[0], List.cons_ne_nil _ _⟩) 10 (.expression (.objectComplementOf
        (.objectIntersectionOf [.owlClass "A", .objectSomeValuesFrom (.objectProperty "r") (.owlClass "B")])))
        .positive {}).isOk = true := by decide +kernel
    rw [failed] at converts
    cases converts

end

end

end ExpressionConverter

end PyElk
