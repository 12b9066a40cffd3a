import PyElk.Indexing.StackMachine

namespace PyElk

def classTree (iri : String) : ExpressionTree := .node .owlClass [⟨.owlClass, iri⟩] [] []

def individualTree (iri : String) : ExpressionTree := .node .individual [⟨.namedIndividual, iri⟩] [] []

def intersectionTree (first second : ExpressionTree) : ExpressionTree :=
  .node .objectIntersectionOf [] [first, second] []

def someTree (property : EntityRecord) (filler : ExpressionTree) : ExpressionTree :=
  .node .objectSomeValuesFrom [property] [filler] []

def hasSelfTree (property : EntityRecord) : ExpressionTree := .node .objectHasSelf [property] [] []

namespace Owl

/-- The normal form of an individual; anonymous ones have none. -/
def Individual.form : Individual → Option ExpressionTree
  | namedIndividual iri => some (individualTree iri)
  | anonymousIndividual _ => none

def ObjectPropertyExpression.record : ObjectPropertyExpression → Option EntityRecord
  | objectProperty iri => some ⟨.objectProperty, iri⟩
  | objectInverseOf _ => none

end Owl

def unionForm : List ExpressionTree → ExpressionTree
  | [] => classTree OWL_NOTHING_IRI
  | [child] => child
  | children => .node .objectUnionOf [] children []

/-- The normal form of an operator over the normal forms of its children. -/
def finishForm : FinishOperation → Option EntityRecord → List ExpressionTree → Option ExpressionTree
  | .intersection, _, [] => some (classTree OWL_THING_IRI)
  | .intersection, _, first :: rest => some (rest.foldl intersectionTree first)
  | .union, _, children | .oneOf, _, children => some (unionForm children)
  | .complement, _, child :: _ => some (.node .objectComplementOf [] [child] [])
  | .some, some prop, child :: _ => some (someTree prop child)
  | _, _, _ => none

section

variable (literalKey : Owl.Literal → ElkCompatibilityKey)

mutual

/-- The normal form of a class expression: n-ary operators folded in operand order. -/
def Owl.ClassExpression.form : Owl.ClassExpression → Option ExpressionTree
  | .owlClass iri => some (classTree iri)
  | .objectIntersectionOf operands => do finishForm .intersection none (← Owl.ClassExpression.forms operands)
  | .objectUnionOf operands => do finishForm .union none (← Owl.ClassExpression.forms operands)
  | .objectComplementOf operand => do finishForm .complement none [← Owl.ClassExpression.form operand]
  | .objectOneOf individuals => do finishForm .oneOf none (← individuals.mapM Owl.Individual.form)
  | .objectSomeValuesFrom property filler => do
    finishForm .some (← property.record) [← Owl.ClassExpression.form filler]
  | .objectHasValue property value => do finishForm .some (← property.record) [← value.form]
  | .objectHasSelf property => hasSelfTree <$> property.record
  | .dataHasValue property value =>
    some (.node .dataHasValue [⟨.dataProperty, property⟩] [] (literalKey value).payload)
  | .unsupported _ => none

def Owl.ClassExpression.forms : List Owl.ClassExpression → Option (List ExpressionTree)
  | [] => some []
  | first :: rest => do pure ((← Owl.ClassExpression.form first) :: (← Owl.ClassExpression.forms rest))

end

/-- The normal form of what the converter visits. -/
def Owl.Value.form : Owl.Value → Option ExpressionTree
  | expression value => value.form literalKey
  | individual value => value.form

end

/-- A conversion has put an expression under a handle and added no row. -/
structure MutableIndex.Converted (index later : MutableIndex) (handle : Nat)
    (expression : ExpressionTree) : Prop where
  emits : index.Emits later []
  bound : handle < later.expressions.length
  tree_eq : later.tree handle = expression

/-- A conversion has put a list of expressions under handles and added no row. -/
structure MutableIndex.ConvertedAll (index later : MutableIndex) (handles : List Nat)
    (expressions : List ExpressionTree) : Prop where
  emits : index.Emits later []
  bound : ∀ handle ∈ handles, handle < later.expressions.length
  trees_eq : handles.map later.tree = expressions

section

variable {index later last : MutableIndex} {handle : Nat} {handles : List Nat} {expression : ExpressionTree}

/-- A conversion after a run that emits nothing is a conversion of the whole. -/
theorem MutableIndex.Converted.after (before : index.Emits later [])
    (converted : later.Converted last handle expression) :
    index.Converted last handle expression :=
  ⟨before.silent converted.emits, converted.bound, converted.tree_eq⟩

/-- A run that emits nothing after a conversion leaves it one. -/
theorem MutableIndex.Converted.then (converted : index.Converted later handle expression)
    (after : later.Emits last []) : index.Converted last handle expression := by
  refine ⟨converted.emits.silent after, after.extension.lt converted.bound, ?_⟩
  rw [after.extension.tree converted.bound]
  exact converted.tree_eq

theorem MutableIndex.ConvertedAll.nil (wellFormed : index.WellFormed) : index.ConvertedAll index [] [] :=
  ⟨.refl wellFormed, fun _ member => absurd member List.not_mem_nil, rfl⟩

/-- The conversion of one value, then of the others, converts the list. -/
theorem MutableIndex.Converted.cons (head : index.Converted later handle expression)
    {expressions : List ExpressionTree}
    (tail : later.ConvertedAll last handles expressions) :
    index.ConvertedAll last (handle :: handles) (expression :: expressions) := by
  have here := head.then tail.emits
  refine ⟨here.emits, fun other member => ?_, ?_⟩
  · rcases List.mem_cons.mp member with rfl | found
    · exact here.bound
    · exact tail.bound other found
  · rw [List.map_cons, here.tree_eq, tail.trees_eq]

theorem MutableIndex.Converted.singleton (converted : index.Converted later handle expression) :
    index.ConvertedAll later [handle] [expression] :=
  converted.cons (.nil converted.emits.wellFormed)

end

namespace ExpressionConverter

open MutableIndex

variable {index later : MutableIndex} (wellFormed : index.WellFormed)

include wellFormed

omit wellFormed in
theorem entityRecord_ok {kind : EntityKind} {iri : String} {record : EntityRecord}
    (done : entityRecord kind iri index = .ok (record, later)) :
    index = later ∧ record = ⟨kind, iri⟩ ∧ iri ≠ "" := by
  unfold entityRecord at done
  split at done
  · cases done
  · obtain ⟨rfl, rfl⟩ := Conversion.pure_ok done
    exact ⟨rfl, rfl, ‹_›⟩

/-- Interning a key whose operands are in the index converts the tree of the key. -/
theorem internKey_converted {key : ExpressionKey} (shaped : key.Shaped)
    (bound : ∀ operand ∈ key.expressions, operand < index.expressions.length)
    (named : ∀ entity ∈ key.entities, entity.iri ≠ "") {polarity : IndexPolarity} {handle : Nat}
    (done : internKey key polarity index = .ok (handle, later)) :
    index.Converted later handle (.node key.tag key.entities (key.expressions.map index.tree) key.payload) := by
  obtain ⟨emits, small, same⟩ := internKey_emits wellFormed shaped bound named done
  exact ⟨emits, small, same⟩

/-- A named class is converted to its tree. -/
theorem convertClass_converted {iri : String} {polarity : IndexPolarity} {handle : Nat}
    (done : convertClass iri polarity index = .ok (handle, later)) :
    index.Converted later handle (classTree iri) := by
  obtain ⟨record, _, found, after⟩ := Conversion.bind_ok done
  obtain ⟨rfl, rfl, named⟩ := entityRecord_ok found
  obtain ⟨interned, middle, step, after'⟩ := Conversion.bind_ok after
  obtain ⟨_, last, feature, final⟩ := Conversion.bind_ok after'
  obtain ⟨rfl, rfl⟩ := Conversion.pure_ok final
  have shaped : ExpressionKey.Shaped ⟨.owlClass, [⟨.owlClass, iri⟩], [], []⟩ := rfl
  have converted := internKey_converted wellFormed shaped (fun _ member => absurd member List.not_mem_nil)
    (fun entity member => by rw [List.mem_singleton.mp member]; exact named) step
  exact converted.then (addFeatureIf_emits converted.emits.wellFormed feature)

/-- A named individual is converted to its nominal. -/
theorem convertIndividual_converted {iri : String} {polarity : IndexPolarity} {handle : Nat}
    (done : convertIndividual iri polarity index = .ok (handle, later)) :
    index.Converted later handle (individualTree iri) := by
  obtain ⟨record, _, found, after⟩ := Conversion.bind_ok done
  obtain ⟨rfl, rfl, named⟩ := entityRecord_ok found
  have shaped : ExpressionKey.Shaped ⟨.individual, [⟨.namedIndividual, iri⟩], [], []⟩ := rfl
  exact internKey_converted wellFormed shaped (fun _ member => absurd member List.not_mem_nil)
    (fun entity member => by rw [List.mem_singleton.mp member]; exact named) after

/-- A recorded property is a named object property, and nothing is emitted. -/
theorem objectProperty_recorded {value : Owl.ObjectPropertyExpression} {polarity : IndexPolarity}
    {record : EntityRecord} (done : objectProperty value polarity index = .ok (record, later)) :
    index.Emits later [] ∧ value.record = some record ∧ record.kind = .objectProperty ∧ record.iri ≠ "" := by
  cases value with
  | objectInverseOf iri => cases done
  | objectProperty iri =>
    obtain ⟨found, _, entity, after⟩ := Conversion.bind_ok done
    obtain ⟨rfl, rfl, named⟩ := entityRecord_ok entity
    obtain ⟨_, recorded, step, after'⟩ := Conversion.bind_ok after
    obtain ⟨_, bottomed, bottom, after''⟩ := Conversion.bind_ok after'
    obtain ⟨_, topped, top, final⟩ := Conversion.bind_ok after''
    obtain ⟨rfl, rfl⟩ := Conversion.pure_ok final
    have proper : (⟨.objectProperty, iri⟩ : EntityRecord).iri ≠ "" := named
    have first := (recordObjectProperty_emits wellFormed proper step).1
    have second := first.silent (addFeatureIf_emits first.wellFormed bottom)
    exact ⟨second.silent (addFeatureIf_emits second.wellFormed top), rfl, rfl, named⟩

/-- The fold over the handles of a list converts the intersection of its trees. -/
theorem foldIntersection_converted {polarity : IndexPolarity} {result : Nat} {children : List Nat} {handle : Nat}
    (resultBound : result < index.expressions.length) (bound : ∀ child ∈ children, child < index.expressions.length)
    (done : foldIntersection polarity result children index = .ok (handle, later)) :
    index.Converted later handle ((children.map index.tree).foldl intersectionTree (index.tree result)) := by
  induction children generalizing result index with
  | nil =>
    obtain ⟨rfl, rfl⟩ := Conversion.pure_ok done
    exact ⟨.refl wellFormed, resultBound, rfl⟩
  | cons child rest ih =>
    obtain ⟨conjunction, middle, step, after⟩ := Conversion.bind_ok done
    have operands : ∀ operand ∈ [result, child], operand < index.expressions.length := by
      intro operand member
      rcases List.mem_pair.mp member with rfl | rfl
      · exact resultBound
      · exact bound operand List.mem_cons_self
    have shaped : ExpressionKey.Shaped ⟨.objectIntersectionOf, [], [result, child], []⟩ := trivial
    have converted :=
      internKey_converted wellFormed shaped operands (fun entity member => absurd member List.not_mem_nil) step
    have extension := converted.emits.extension
    have remaining : ∀ other ∈ rest, other < index.expressions.length :=
      fun other member => bound other (List.mem_cons_of_mem _ member)
    have folded := ih converted.emits.wellFormed converted.bound
      (fun other member => extension.lt (remaining other member)) after
    rw [extension.map_tree remaining, converted.tree_eq] at folded
    exact folded.after converted.emits

/-- The union over the handles of a list converts the union of its trees. -/
theorem finishUnion_converted {polarity : IndexPolarity} {children : List Nat} {handle : Nat}
    (bound : ∀ child ∈ children, child < index.expressions.length)
    (done : finishUnion polarity children index = .ok (handle, later)) :
    index.Converted later handle (unionForm (children.map index.tree)) := by
  match children with
  | [] => exact convertClass_converted wellFormed done
  | [child] =>
    obtain ⟨rfl, rfl⟩ := Conversion.pure_ok done
    exact ⟨.refl wellFormed, bound child List.mem_cons_self, rfl⟩
  | first :: second :: rest =>
    obtain ⟨result, middle, step, after⟩ := Conversion.bind_ok done
    obtain ⟨_, last, feature, final⟩ := Conversion.bind_ok after
    obtain ⟨rfl, rfl⟩ := Conversion.pure_ok final
    have shaped : ExpressionKey.Shaped ⟨.objectUnionOf, [], first :: second :: rest, []⟩ :=
      Nat.le_add_left 2 rest.length
    have converted :=
      internKey_converted wellFormed shaped bound (fun entity member => absurd member List.not_mem_nil) step
    exact converted.then (addFeatureIf_emits converted.emits.wellFormed feature)

/-- Finishing an operator puts its normal form under a handle. -/
theorem finish_converted {operation : FinishOperation} {polarity : IndexPolarity} {prop : Option EntityRecord}
    {children : List Nat} {handle : Nat} (bound : ∀ child ∈ children, child < index.expressions.length)
    (property : ∀ record, prop = some record → record.kind = .objectProperty ∧ record.iri ≠ "")
    (done : finish operation polarity prop children index = .ok (handle, later)) :
    ∃ expression, finishForm operation prop (children.map index.tree) = some expression ∧
      index.Converted later handle expression := by
  cases operation with
  | intersection =>
    cases children with
    | nil => exact ⟨_, rfl, convertClass_converted wellFormed done⟩
    | cons first rest =>
      exact ⟨_, rfl, foldIntersection_converted wellFormed (bound first List.mem_cons_self)
        (fun child member => bound child (List.mem_cons_of_mem _ member)) done⟩
  | union => exact ⟨_, rfl, finishUnion_converted wellFormed bound done⟩
  | oneOf => exact ⟨_, rfl, finishUnion_converted wellFormed bound done⟩
  | complement =>
    cases children with
    | nil => cases done
    | cons child rest =>
      obtain ⟨result, middle, step, after⟩ := Conversion.bind_ok done
      obtain ⟨_, negative, featureNegative, after'⟩ := Conversion.bind_ok after
      obtain ⟨_, positive, featurePositive, final⟩ := Conversion.bind_ok after'
      obtain ⟨rfl, rfl⟩ := Conversion.pure_ok final
      have shaped : ExpressionKey.Shaped ⟨.objectComplementOf, [], [child], []⟩ := trivial
      have converted := internKey_converted wellFormed shaped
        (fun operand member => bound operand (List.mem_singleton.mp member ▸ List.mem_cons_self))
        (fun entity member => absurd member List.not_mem_nil) step
      have first := converted.then (addFeatureIf_emits converted.emits.wellFormed featureNegative)
      exact ⟨_, rfl, first.then (addFeatureIf_emits first.emits.wellFormed featurePositive)⟩
  | some =>
    cases children with
    | nil => cases done
    | cons child rest =>
      cases prop with
      | none => cases done
      | some prop =>
        obtain ⟨kind, named⟩ := property prop rfl
        obtain ⟨result, middle, step, after⟩ := Conversion.bind_ok done
        obtain ⟨tag, tagged, found, after'⟩ := Conversion.bind_ok after
        obtain ⟨rfl, _⟩ := expressionTag_ok found
        obtain ⟨_, last, feature, final⟩ := Conversion.bind_ok after'
        obtain ⟨rfl, rfl⟩ := Conversion.pure_ok final
        have shaped : ExpressionKey.Shaped ⟨.objectSomeValuesFrom, [prop], [child], []⟩ := kind
        have converted := internKey_converted wellFormed shaped
          (fun operand member => bound operand (List.mem_singleton.mp member ▸ List.mem_cons_self))
          (fun entity member => by rw [List.mem_singleton.mp member]; exact named) step
        exact ⟨_, rfl, converted.then (addFeatureIf_emits converted.emits.wellFormed feature)⟩

/-- The last step of an operator over converted children. -/
theorem finishTree_converted {start : MutableIndex} {operation : FinishOperation} {polarity : IndexPolarity}
    {prop : Option EntityRecord} {children : List Nat × Nat} {expressions : List ExpressionTree} {result : Nat × Nat}
    (converted : start.ConvertedAll index children.1 expressions)
    (property : ∀ record, prop = some record → record.kind = .objectProperty ∧ record.iri ≠ "")
    (done : finishTree operation polarity prop children index = .ok (result, later)) :
    ∃ expression, finishForm operation prop expressions = some expression ∧
      start.Converted later result.1 expression := by
  obtain ⟨handle, middle, step, final⟩ := Conversion.bind_ok done
  obtain ⟨rfl, rfl⟩ := Conversion.pure_ok final
  obtain ⟨expression, form, finished⟩ := finish_converted wellFormed converted.bound property step
  rw [converted.trees_eq] at form
  exact ⟨expression, form, finished.after converted.emits⟩

section

variable (literalKey : Owl.Literal → ElkCompatibilityKey) (nodeLimit : Nat)

theorem convertMember_converted {value : Owl.Individual} {polarity : IndexPolarity} {observed : Nat}
    {result : Nat × Nat} (done : convertMember nodeLimit value polarity observed index = .ok (result, later)) :
    ∃ expression, value.form = some expression ∧ index.Converted later result.1 expression := by
  obtain ⟨_, _, guard, after⟩ := Conversion.bind_ok done
  obtain ⟨_, rfl⟩ := Conversion.require_ok guard
  cases value with
  | anonymousIndividual label => cases after
  | namedIndividual iri =>
    obtain ⟨handle, middle, step, final⟩ := Conversion.bind_ok after
    obtain ⟨rfl, rfl⟩ := Conversion.pure_ok final
    exact ⟨_, rfl, convertIndividual_converted wellFormed step⟩

theorem convertMembers_converted {values : List Owl.Individual} {polarity : IndexPolarity} {observed : Nat}
    {result : List Nat × Nat} (done : convertMembers nodeLimit values polarity observed index = .ok (result, later)) :
    ∃ expressions, values.mapM Owl.Individual.form = some expressions ∧
      index.ConvertedAll later result.1 expressions := by
  induction values generalizing observed result index with
  | nil =>
    obtain ⟨rfl, rfl⟩ := Conversion.pure_ok done
    exact ⟨[], rfl, .nil wellFormed⟩
  | cons first rest ih =>
    obtain ⟨head, middle, step, after⟩ := Conversion.bind_ok done
    obtain ⟨tail, last, steps, final⟩ := Conversion.bind_ok after
    obtain ⟨rfl, rfl⟩ := Conversion.pure_ok final
    obtain ⟨expression, form, converted⟩ := convertMember_converted wellFormed nodeLimit step
    obtain ⟨expressions, forms, convertedAll⟩ := ih converted.emits.wellFormed steps
    refine ⟨expression :: expressions, ?_, converted.cons convertedAll⟩
    rw [List.mapM_cons, form, forms]
    rfl

omit wellFormed in
mutual

/-- A converted expression sits under its handle in normal form. -/
theorem convertTree_converted (value : Owl.ClassExpression) {index later : MutableIndex}
    (wellFormed : index.WellFormed) {polarity : IndexPolarity} {observed : Nat} {result : Nat × Nat}
    (done : convertTree literalKey nodeLimit value polarity observed index = .ok (result, later)) :
    ∃ expression, value.form literalKey = some expression ∧ index.Converted later result.1 expression := by
  have noProperty : ∀ record : EntityRecord, none = some record → record.kind = .objectProperty ∧ record.iri ≠ "" :=
    fun record impossible => by cases impossible
  match value with
  | .owlClass iri =>
    rw [convertTree] at done
    obtain ⟨_, _, guard, after⟩ := Conversion.bind_ok done
    obtain ⟨_, rfl⟩ := Conversion.require_ok guard
    obtain ⟨handle, middle, step, final⟩ := Conversion.bind_ok after
    obtain ⟨rfl, rfl⟩ := Conversion.pure_ok final
    exact ⟨_, rfl, convertClass_converted wellFormed step⟩
  | .objectIntersectionOf operands =>
    rw [convertTree] at done
    obtain ⟨_, _, guard, after⟩ := Conversion.bind_ok done
    obtain ⟨_, rfl⟩ := Conversion.require_ok guard
    obtain ⟨children, middle, step, final⟩ := Conversion.bind_ok after
    obtain ⟨expressions, forms, converted⟩ := convertTrees_converted operands wellFormed step
    obtain ⟨expression, form, finished⟩ := finishTree_converted converted.emits.wellFormed converted noProperty final
    refine ⟨expression, ?_, finished⟩
    rw [Owl.ClassExpression.form, forms]
    exact form
  | .objectUnionOf operands =>
    rw [convertTree] at done
    obtain ⟨_, _, guard, after⟩ := Conversion.bind_ok done
    obtain ⟨_, rfl⟩ := Conversion.require_ok guard
    obtain ⟨children, middle, step, final⟩ := Conversion.bind_ok after
    obtain ⟨expressions, forms, converted⟩ := convertTrees_converted operands wellFormed step
    obtain ⟨expression, form, finished⟩ := finishTree_converted converted.emits.wellFormed converted noProperty final
    refine ⟨expression, ?_, finished⟩
    rw [Owl.ClassExpression.form, forms]
    exact form
  | .objectComplementOf operand =>
    rw [convertTree] at done
    obtain ⟨_, _, guard, after⟩ := Conversion.bind_ok done
    obtain ⟨_, rfl⟩ := Conversion.require_ok guard
    obtain ⟨child, middle, step, final⟩ := Conversion.bind_ok after
    obtain ⟨operand', form, converted⟩ := convertTree_converted operand wellFormed step
    obtain ⟨expression, finishing, finished⟩ :=
      finishTree_converted converted.emits.wellFormed converted.singleton noProperty final
    refine ⟨expression, ?_, finished⟩
    rw [Owl.ClassExpression.form, form]
    exact finishing
  | .objectOneOf individuals =>
    rw [convertTree] at done
    obtain ⟨_, _, guard, after⟩ := Conversion.bind_ok done
    obtain ⟨_, rfl⟩ := Conversion.require_ok guard
    obtain ⟨_, featured, feature, after'⟩ := Conversion.bind_ok after
    have silent := addFeatureIf_emits wellFormed feature
    obtain ⟨children, middle, step, final⟩ := Conversion.bind_ok after'
    obtain ⟨expressions, forms, converted⟩ := convertMembers_converted silent.wellFormed nodeLimit step
    obtain ⟨expression, form, finished⟩ := finishTree_converted converted.emits.wellFormed converted noProperty final
    refine ⟨expression, ?_, finished.after silent⟩
    rw [Owl.ClassExpression.form, forms]
    exact form
  | .objectSomeValuesFrom property filler =>
    rw [convertTree] at done
    obtain ⟨_, _, guard, after⟩ := Conversion.bind_ok done
    obtain ⟨_, rfl⟩ := Conversion.require_ok guard
    obtain ⟨prop, recorded, found, after'⟩ := Conversion.bind_ok after
    obtain ⟨silent, record, proper⟩ := objectProperty_recorded wellFormed found
    obtain ⟨child, middle, step, final⟩ := Conversion.bind_ok after'
    obtain ⟨filler', form, converted⟩ := convertTree_converted filler silent.wellFormed step
    obtain ⟨expression, finishing, finished⟩ := finishTree_converted converted.emits.wellFormed converted.singleton
      (fun other same => Option.some.inj same ▸ proper) final
    refine ⟨expression, ?_, finished.after silent⟩
    rw [Owl.ClassExpression.form, record, form]
    exact finishing
  | .objectHasValue property member =>
    rw [convertTree] at done
    obtain ⟨_, _, guard, after⟩ := Conversion.bind_ok done
    obtain ⟨_, rfl⟩ := Conversion.require_ok guard
    obtain ⟨prop, recorded, found, after'⟩ := Conversion.bind_ok after
    obtain ⟨silent, record, proper⟩ := objectProperty_recorded wellFormed found
    obtain ⟨child, middle, step, final⟩ := Conversion.bind_ok after'
    obtain ⟨filler', form, converted⟩ := convertMember_converted silent.wellFormed nodeLimit step
    obtain ⟨expression, finishing, finished⟩ := finishTree_converted converted.emits.wellFormed converted.singleton
      (fun other same => Option.some.inj same ▸ proper) final
    refine ⟨expression, ?_, finished.after silent⟩
    rw [Owl.ClassExpression.form, record, form]
    exact finishing
  | .objectHasSelf property =>
    rw [convertTree] at done
    obtain ⟨_, _, guard, after⟩ := Conversion.bind_ok done
    obtain ⟨_, rfl⟩ := Conversion.require_ok guard
    obtain ⟨prop, recorded, found, after'⟩ := Conversion.bind_ok after
    obtain ⟨silent, record, kind, named⟩ := objectProperty_recorded wellFormed found
    obtain ⟨handle, middle, step, after''⟩ := Conversion.bind_ok after'
    obtain ⟨_, last, feature, final⟩ := Conversion.bind_ok after''
    obtain ⟨rfl, rfl⟩ := Conversion.pure_ok final
    have shaped : ExpressionKey.Shaped ⟨.objectHasSelf, [prop], [], []⟩ := kind
    have converted := internKey_converted silent.wellFormed shaped (fun _ member => absurd member List.not_mem_nil)
      (fun entity member => by rw [List.mem_singleton.mp member]; exact named) step
    refine ⟨_, ?_, (converted.then (addFeatureIf_emits converted.emits.wellFormed feature)).after silent⟩
    rw [Owl.ClassExpression.form, record]
    rfl
  | .dataHasValue property literal =>
    rw [convertTree] at done
    obtain ⟨_, _, guard, after⟩ := Conversion.bind_ok done
    obtain ⟨_, rfl⟩ := Conversion.require_ok guard
    obtain ⟨prop, _, found, afterRecord⟩ := Conversion.bind_ok after
    obtain ⟨rfl, rfl, named⟩ := entityRecord_ok found
    obtain ⟨_, known, added, afterEntity⟩ := Conversion.bind_ok afterRecord
    obtain ⟨_, featured, feature, afterFeature⟩ := Conversion.bind_ok afterEntity
    obtain ⟨handle, middle, step, final⟩ := Conversion.bind_ok afterFeature
    obtain ⟨rfl, rfl⟩ := Conversion.pure_ok final
    have proper : (⟨.dataProperty, property⟩ : EntityRecord).iri ≠ "" := named
    have first := (addEntity_emits wellFormed proper added).1
    have silent := first.silent (addFeature_emits first.wellFormed feature).1
    have shaped :
      ExpressionKey.Shaped ⟨.dataHasValue, [⟨.dataProperty, property⟩], [], (literalKey literal).payload⟩ :=
      ⟨rfl, (literalKey literal).nonempty⟩
    have converted := internKey_converted silent.wellFormed shaped (fun _ member => absurd member List.not_mem_nil)
      (fun entity member => by rw [List.mem_singleton.mp member]; exact named) step
    exact ⟨_, rfl, converted.after silent⟩
  | .unsupported expression =>
    rw [convertTree] at done
    obtain ⟨_, _, guard, after⟩ := Conversion.bind_ok done
    cases after

/-- A list of class expressions is converted one by one. -/
theorem convertTrees_converted (values : List Owl.ClassExpression) {index later : MutableIndex}
    (wellFormed : index.WellFormed) {polarity : IndexPolarity} {observed : Nat} {result : List Nat × Nat}
    (done : convertTrees literalKey nodeLimit values polarity observed index = .ok (result, later)) :
    ∃ expressions, Owl.ClassExpression.forms literalKey values = some expressions ∧
      index.ConvertedAll later result.1 expressions := by
  match values with
  | [] =>
    rw [convertTrees] at done
    obtain ⟨rfl, rfl⟩ := Conversion.pure_ok done
    exact ⟨[], rfl, .nil wellFormed⟩
  | first :: rest =>
    rw [convertTrees] at done
    obtain ⟨head, middle, step, after⟩ := Conversion.bind_ok done
    obtain ⟨tail, last, steps, final⟩ := Conversion.bind_ok after
    obtain ⟨rfl, rfl⟩ := Conversion.pure_ok final
    obtain ⟨expression, form, converted⟩ := convertTree_converted first wellFormed step
    obtain ⟨expressions, forms, convertedAll⟩ := convertTrees_converted rest converted.emits.wellFormed steps
    refine ⟨expression :: expressions, ?_, converted.cons convertedAll⟩
    rw [Owl.ClassExpression.forms, form, forms]
    rfl

end

/-- The converter puts the normal form of a value under its handle and adds no row. -/
theorem convert_converted {value : Owl.Value} {polarity : IndexPolarity} {handle : Nat}
    (done : convert literalKey nodeLimit value polarity index = .ok (handle, later)) :
    ∃ expression, value.form literalKey = some expression ∧ index.Converted later handle expression := by
  rw [convert_eq] at done
  obtain ⟨result, step, rfl⟩ := Conversion.map_ok done
  cases value with
  | expression value => exact convertTree_converted literalKey nodeLimit value wellFormed step
  | individual value => exact convertMember_converted wellFormed nodeLimit step

end

end ExpressionConverter

end PyElk
