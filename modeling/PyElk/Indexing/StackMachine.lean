import PyElk.Indexing.Recording

namespace PyElk

section

variable {α β γ : Type} {index : MutableIndex}

theorem Conversion.bind_congr {step : Conversion α} {next other : α → Conversion β}
    (same : ∀ value middle, step index = .ok (value, middle) → next value middle = other value middle) :
    (step >>= next) index = (step >>= other) index := by
  change (step index >>= fun pair => next pair.1 pair.2) = (step index >>= fun pair => other pair.1 pair.2)
  cases first : step index with
  | error raised => rfl
  | ok pair => exact same pair.1 pair.2 first

end

namespace ExpressionConverter

variable (literalKey : Owl.Literal → ElkCompatibilityKey) (nodeLimit : Nat)

/-- One visited node counts against the ceiling. -/
def observe (observed : Nat) : Conversion Unit := Conversion.require (observed + 1 ≤ nodeLimit) .valueError

/-- The conversion of one individual, after `observed` visits. -/
def convertMember (value : Owl.Individual) (polarity : IndexPolarity) (observed : Nat) :
    Conversion (Nat × Nat) := do
  observe nodeLimit observed
  match value with
  | .namedIndividual iri => do pure (← convertIndividual iri polarity, observed + 1)
  | .anonymousIndividual _ => throw (.unsupportedConstruct "ANONYMOUS_INDIVIDUAL")

def convertMembers : List Owl.Individual → IndexPolarity → Nat → Conversion (List Nat × Nat)
  | [], _, observed => pure ([], observed)
  | first :: rest, polarity, observed => do
    let head ← convertMember nodeLimit first polarity observed
    let tail ← convertMembers rest polarity head.2
    pure (head.1 :: tail.1, tail.2)

/-- The last step of an operator, once its children have their handles. -/
def finishTree (operation : FinishOperation) (polarity : IndexPolarity) (prop : Option EntityRecord)
    (children : List Nat × Nat) : Conversion (Nat × Nat) := do
  pure (← finish operation polarity prop children.1, children.2)

mutual

/-- The conversion of one expression by recursion on its structure, after
`observed` visits. -/
def convertTree : Owl.ClassExpression → IndexPolarity → Nat → Conversion (Nat × Nat)
  | .owlClass iri, polarity, observed => do
    observe nodeLimit observed
    pure (← convertClass iri polarity, observed + 1)
  | .objectIntersectionOf operands, polarity, observed => do
    observe nodeLimit observed
    finishTree .intersection polarity none (← convertTrees operands polarity (observed + 1))
  | .objectUnionOf operands, polarity, observed => do
    observe nodeLimit observed
    finishTree .union polarity none (← convertTrees operands polarity (observed + 1))
  | .objectComplementOf operand, polarity, observed => do
    observe nodeLimit observed
    let child ← convertTree operand polarity.complementary (observed + 1)
    finishTree .complement polarity none ([child.1], child.2)
  | .objectOneOf individuals, polarity, observed => do
    observe nodeLimit observed
    MutableIndex.addFeatureIf (individuals ≠ []) "OBJECT_ONE_OF"
    finishTree .oneOf polarity none (← convertMembers nodeLimit individuals polarity (observed + 1))
  | .objectSomeValuesFrom property filler, polarity, observed => do
    observe nodeLimit observed
    let prop ← objectProperty property polarity
    let child ← convertTree filler polarity (observed + 1)
    finishTree .some polarity (some prop) ([child.1], child.2)
  | .objectHasValue property value, polarity, observed => do
    observe nodeLimit observed
    let prop ← objectProperty property polarity
    let child ← convertMember nodeLimit value polarity (observed + 1)
    finishTree .some polarity (some prop) ([child.1], child.2)
  | .objectHasSelf property, polarity, observed => do
    observe nodeLimit observed
    let prop ← objectProperty property polarity
    let handle ← MutableIndex.internKey ⟨.objectHasSelf, [prop], [], []⟩ polarity
    MutableIndex.addFeatureIf (polarity.occurrence.negative = 1) "OBJECT_HAS_SELF_NEGATIVE"
    pure (handle, observed + 1)
  | .dataHasValue property value, polarity, observed => do
    observe nodeLimit observed
    let prop ← entityRecord .dataProperty property
    MutableIndex.addEntity prop
    MutableIndex.addFeature "DATA_HAS_VALUE" 1
    pure (← MutableIndex.internKey ⟨.dataHasValue, [prop], [], (literalKey value).payload⟩ polarity, observed + 1)
  | .unsupported expression, _, observed => do
    observe nodeLimit observed
    throw (.unsupportedConstruct expression.feature)

def convertTrees : List Owl.ClassExpression → IndexPolarity → Nat → Conversion (List Nat × Nat)
  | [], _, observed => pure ([], observed)
  | first :: rest, polarity, observed => do
    let head ← convertTree first polarity observed
    let tail ← convertTrees rest polarity head.2
    pure (head.1 :: tail.1, tail.2)

end

variable {index later : MutableIndex}

theorem convertMembers_length {values : List Owl.Individual} {polarity : IndexPolarity} {observed : Nat}
    {result : List Nat × Nat} (done : convertMembers nodeLimit values polarity observed index = .ok (result, later)) :
    result.1.length = values.length := by
  induction values generalizing observed result index with
  | nil =>
    obtain ⟨rfl, _⟩ := Conversion.pure_ok done
    rfl
  | cons first rest ih =>
    obtain ⟨head, middle, _, after⟩ := Conversion.bind_ok done
    obtain ⟨tail, last, converted, final⟩ := Conversion.bind_ok after
    obtain ⟨rfl, rfl⟩ := Conversion.pure_ok final
    exact congrArg Nat.succ (ih converted)

theorem convertTrees_length {values : List Owl.ClassExpression} {polarity : IndexPolarity} {observed : Nat}
    {result : List Nat × Nat}
    (done : convertTrees literalKey nodeLimit values polarity observed index = .ok (result, later)) :
    result.1.length = values.length := by
  induction values generalizing observed result index with
  | nil =>
    obtain ⟨rfl, _⟩ := Conversion.pure_ok done
    rfl
  | cons first rest ih =>
    obtain ⟨head, middle, _, after⟩ := Conversion.bind_ok done
    obtain ⟨tail, last, converted, final⟩ := Conversion.bind_ok after
    obtain ⟨rfl, rfl⟩ := Conversion.pure_ok final
    exact congrArg Nat.succ (ih converted)

section

variable (tasks : List ConversionTask) (results : List Nat) (fuel : Nat)

/-- What the loop does after one value has been converted. -/
def resume (result : Nat × Nat) : Conversion (List Nat) :=
  run literalKey nodeLimit fuel tasks (results ++ [result.1]) result.2

/-- What the loop does after a list of values has been converted. -/
def resumeAll (result : List Nat × Nat) : Conversion (List Nat) :=
  run literalKey nodeLimit fuel tasks (results ++ result.1) result.2

/-- A finishing task takes exactly the results of its children off the stack. -/
theorem run_finish {operation : FinishOperation} {polarity : IndexPolarity} {prop : Option EntityRecord}
    {children : List Nat × Nat} {childCount : Nat} (length : children.1.length = childCount) :
    resumeAll literalKey nodeLimit (.finish operation polarity childCount prop :: tasks) results (fuel + 1) children =
      (finishTree operation polarity prop children >>= resume literalKey nodeLimit tasks results fuel) := by
  have kept : (results ++ children.1).length - childCount = results.length := by
    rw [List.length_append, length, Nat.add_sub_cancel]
  unfold resumeAll finishTree resume
  rw [run]
  simp only [kept, List.drop_left, List.take_left, bind_assoc, pure_bind]

theorem run_member (value : Owl.Individual) (polarity : IndexPolarity) (observed : Nat) :
    run literalKey nodeLimit (fuel + 1) (.visit (.individual value) polarity :: tasks) results observed =
      (convertMember nodeLimit value polarity observed >>= resume literalKey nodeLimit tasks results fuel) := by
  unfold convertMember resume
  rw [run]
  cases value with
  | namedIndividual iri => simp only [visit, observe, bind_assoc, pure_bind, bind_map_left]
  | anonymousIndividual label => simp only [visit, observe, bind_assoc]; rfl

/-- Visiting a list of individuals, the first on top. -/
theorem run_members (values : List Owl.Individual) (polarity : IndexPolarity) (observed : Nat) :
    run literalKey nodeLimit (values.length + fuel)
        (values.map (fun value => .visit (.individual value) polarity) ++ tasks) results observed =
      (convertMembers nodeLimit values polarity observed >>= resumeAll literalKey nodeLimit tasks results fuel) := by
  induction values generalizing results observed with
  | nil => simp only [List.length_nil, Nat.zero_add, List.map_nil, List.nil_append, convertMembers, pure_bind,
      resumeAll, List.append_nil]
  | cons first rest ih =>
    have steps : (first :: rest).length + fuel = rest.length + fuel + 1 := by
      rw [List.length_cons]
      omega
    rw [steps, List.map_cons, List.cons_append, run_member]
    simp only [convertMembers, bind_assoc, pure_bind]
    refine bind_congr fun head => ?_
    rw [resume, ih]
    refine bind_congr fun tail => ?_
    simp only [resumeAll, List.append_assoc, List.singleton_append]

/-- An operator over individuals. -/
theorem run_memberOperator (operation : FinishOperation) (values : List Owl.Individual) (polarity : IndexPolarity)
    (prop : Option EntityRecord) (observed : Nat) :
    run literalKey nodeLimit (values.length + 1 + fuel)
        (childTasks operation (values.map .individual) polarity polarity prop ++ tasks) results observed =
      (convertMembers nodeLimit values polarity observed >>= fun children =>
        finishTree operation polarity prop children >>= resume literalKey nodeLimit tasks results fuel) := by
  have pushed : childTasks operation (values.map .individual) polarity polarity prop ++ tasks =
      values.map (fun value => .visit (.individual value) polarity) ++
        (.finish operation polarity values.length prop :: tasks) := by
    simp only [childTasks, List.map_map, List.length_map, List.append_assoc, List.singleton_append,
      Function.comp_def]
  rw [pushed, show values.length + 1 + fuel = values.length + (fuel + 1) by omega, run_members]
  funext index
  refine Conversion.bind_congr fun children middle converted => ?_
  rw [run_finish _ _ _ _ _ (convertMembers_length _ converted)]

end

mutual

/-- The passes through the loop that a visited expression takes do what the
recursion on its structure does. -/
theorem run_tree (value : Owl.ClassExpression) (polarity : IndexPolarity) (observed : Nat)
    (tasks : List ConversionTask) (results : List Nat) (fuel : Nat) :
    run literalKey nodeLimit (expressionSteps value + fuel) (.visit (.expression value) polarity :: tasks) results
        observed =
      (convertTree literalKey nodeLimit value polarity observed >>=
        resume literalKey nodeLimit tasks results fuel) := by
  match value with
  | .owlClass iri =>
    rw [expressionSteps, Nat.add_comm, run, convertTree]
    simp only [visit, observe, bind_assoc, pure_bind, bind_map_left]
    rfl
  | .objectIntersectionOf operands =>
    rw [expressionSteps, show expressionsSteps operands + 2 + fuel =
      expressionsSteps operands + 1 + fuel + 1 by omega,
      run, convertTree]
    simp only [visit, observe, bind_assoc, pure_bind]
    refine bind_congr fun _ => ?_
    exact run_operator .intersection operands polarity none (observed + 1) tasks results fuel
  | .objectUnionOf operands =>
    rw [expressionSteps, show expressionsSteps operands + 2 + fuel =
      expressionsSteps operands + 1 + fuel + 1 by omega,
      run, convertTree]
    simp only [visit, observe, bind_assoc, pure_bind]
    refine bind_congr fun _ => ?_
    exact run_operator .union operands polarity none (observed + 1) tasks results fuel
  | .objectComplementOf operand =>
    rw [expressionSteps, show expressionSteps operand + 2 + fuel = expressionSteps operand + (fuel + 1) + 1 by omega,
      run, convertTree]
    simp only [visit, observe, bind_assoc, pure_bind]
    refine bind_congr fun _ => ?_
    simp only [childTasks, List.map_cons, List.map_nil, List.cons_append, List.nil_append, run_tree operand]
    refine bind_congr fun child => ?_
    have children : ([child.1], child.2).1.length = 1 := rfl
    exact run_finish literalKey nodeLimit tasks results fuel children
  | .objectOneOf individuals =>
    rw [expressionSteps, show individuals.length + 2 + fuel = individuals.length + 1 + fuel + 1 by omega, run,
      convertTree]
    simp only [visit, observe, bind_assoc, pure_bind]
    refine bind_congr fun _ => bind_congr fun _ => ?_
    exact run_memberOperator literalKey nodeLimit tasks results fuel .oneOf individuals polarity none (observed + 1)
  | .objectSomeValuesFrom property filler =>
    rw [expressionSteps, show expressionSteps filler + 2 + fuel = expressionSteps filler + (fuel + 1) + 1 by omega,
      run, convertTree]
    simp only [visit, observe, bind_assoc, pure_bind]
    refine bind_congr fun _ => bind_congr fun prop => ?_
    simp only [childTasks, List.map_cons, List.map_nil, List.cons_append, List.nil_append, run_tree filler]
    refine bind_congr fun child => ?_
    have children : ([child.1], child.2).1.length = 1 := rfl
    exact run_finish literalKey nodeLimit tasks results fuel children
  | .objectHasValue property member =>
    rw [expressionSteps, show 3 + fuel = fuel + 1 + 1 + 1 by omega, run, convertTree]
    simp only [visit, observe, bind_assoc, pure_bind]
    refine bind_congr fun _ => bind_congr fun prop => ?_
    simp only [childTasks, List.map_cons, List.map_nil, List.cons_append, List.nil_append, run_member]
    refine bind_congr fun child => ?_
    have children : ([child.1], child.2).1.length = 1 := rfl
    exact run_finish literalKey nodeLimit tasks results fuel children
  | .objectHasSelf property =>
    rw [expressionSteps, Nat.add_comm, run, convertTree]
    simp only [visit, observe, bind_assoc, pure_bind]
    rfl
  | .dataHasValue property literal =>
    rw [expressionSteps, Nat.add_comm, run, convertTree]
    simp only [visit, observe, bind_assoc, pure_bind, bind_map_left]
    rfl
  | .unsupported expression =>
    rw [expressionSteps, Nat.add_comm, run, convertTree]
    simp only [visit, observe, bind_assoc]
    rfl
termination_by (sizeOf value, 0)

theorem run_trees (values : List Owl.ClassExpression) (polarity : IndexPolarity) (observed : Nat)
    (tasks : List ConversionTask) (results : List Nat) (fuel : Nat) :
    run literalKey nodeLimit (expressionsSteps values + fuel)
        (values.map (fun value => .visit (.expression value) polarity) ++ tasks) results observed =
      (convertTrees literalKey nodeLimit values polarity observed >>=
        resumeAll literalKey nodeLimit tasks results fuel) := by
  match values with
  | [] =>
    simp only [expressionsSteps, Nat.zero_add, List.map_nil, List.nil_append, convertTrees, pure_bind, resumeAll,
      List.append_nil]
  | first :: rest =>
    rw [expressionsSteps, Nat.add_assoc, List.map_cons, List.cons_append, run_tree first]
    simp only [convertTrees, bind_assoc, pure_bind]
    refine bind_congr fun head => ?_
    rw [resume, run_trees rest]
    refine bind_congr fun tail => ?_
    simp only [resumeAll, List.append_assoc, List.singleton_append]
termination_by (sizeOf values, 0)

/-- An operator over expressions that keeps the polarity. -/
theorem run_operator (operation : FinishOperation) (operands : List Owl.ClassExpression) (polarity : IndexPolarity)
    (prop : Option EntityRecord) (observed : Nat) (tasks : List ConversionTask) (results : List Nat) (fuel : Nat) :
    run literalKey nodeLimit (expressionsSteps operands + 1 + fuel)
        (childTasks operation (operands.map .expression) polarity polarity prop ++ tasks) results observed =
      (convertTrees literalKey nodeLimit operands polarity observed >>= fun children =>
        finishTree operation polarity prop children >>= resume literalKey nodeLimit tasks results fuel) := by
  have pushed : childTasks operation (operands.map .expression) polarity polarity prop ++ tasks =
      operands.map (fun value => .visit (.expression value) polarity) ++
        (.finish operation polarity operands.length prop :: tasks) := by
    simp only [childTasks, List.map_map, List.length_map, List.append_assoc, List.singleton_append,
      Function.comp_def]
  rw [pushed, show expressionsSteps operands + 1 + fuel = expressionsSteps operands + (fuel + 1) by omega,
    run_trees operands]
  funext index
  refine Conversion.bind_congr fun children middle converted => ?_
  rw [run_finish _ _ _ _ _ (convertTrees_length _ _ converted)]
termination_by (sizeOf operands, 1)

end

/-- The conversion of a value by recursion on its structure. -/
def convertByStructure : Owl.Value → IndexPolarity → Nat → Conversion (Nat × Nat)
  | .expression value, polarity, observed => convertTree literalKey nodeLimit value polarity observed
  | .individual value, polarity, observed => convertMember nodeLimit value polarity observed

/-- The loop over a single value. -/
theorem run_value (value : Owl.Value) (polarity : IndexPolarity) (fuel : Nat) :
    run literalKey nodeLimit (steps value + fuel) [.visit value polarity] [] 0 =
      (convertByStructure literalKey nodeLimit value polarity 0 >>= resume literalKey nodeLimit [] [] fuel) := by
  cases value with
  | expression value => exact run_tree literalKey nodeLimit value polarity 0 [] [] fuel
  | individual value =>
    rw [steps, Nat.add_comm]
    exact run_member literalKey nodeLimit [] [] fuel value polarity 0

/-- The stack machine is the recursion on the structure of the value: it ends
with one result whenever no step raises. -/
theorem convert_eq (value : Owl.Value) (polarity : IndexPolarity) :
    convert literalKey nodeLimit value polarity =
      Prod.fst <$> convertByStructure literalKey nodeLimit value polarity 0 := by
  unfold convert
  have machine := run_value literalKey nodeLimit value polarity 0
  rw [Nat.add_zero] at machine
  rw [machine, map_eq_pure_bind, bind_assoc]
  refine bind_congr fun result => ?_
  simp only [resume, run, List.nil_append, pure_bind]

end ExpressionConverter

end PyElk
