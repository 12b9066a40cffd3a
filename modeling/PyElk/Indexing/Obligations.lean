import PyElk.Indexing.NormalRows

namespace PyElk

section

variable {α : Type} (form : α → Option ExpressionTree)

/-- The obligations of a pairwise disjointness. -/
def disjointGoals : List α → Option (List (ExpressionTree × ExpressionTree))
  | [] => some []
  | first :: rest => do
    let here ← rest.mapM fun second => do pure (intersectionTree (← form first) (← form second), nothingTree)
    pure (here ++ (← disjointGoals rest))

/-- The obligations of a cycle of subsumptions, entered after `previous`. -/
def cycleGoals (previous : α) : List α → Option (List (ExpressionTree × ExpressionTree))
  | [] => some []
  | current :: rest => do pure ((← form previous, ← form current) :: (← cycleGoals current rest))

end

/-- The obligations of an entailment query, where the operands they use have a normal form. -/
def Owl.AxiomNode.goals (literalKey : Owl.Literal → ElkCompatibilityKey) :
    Owl.AxiomNode → Option (List (ExpressionTree × ExpressionTree))
  | subClassOf subClass superClass => do pure [(← subClass.form literalKey, ← superClass.form literalKey)]
  | classAssertion classExpression individual => do
    pure [(← individual.form, ← classExpression.form literalKey)]
  | objectPropertyAssertion property source target => do
    pure [(← source.form, someTree (← property.record) (← target.form))]
  | objectPropertyDomain property domain => do
    pure [(someTree (← property.record) thingTree, ← domain.form literalKey)]
  | disjointClasses expressions => disjointGoals (Owl.ClassExpression.form literalKey) expressions
  | differentIndividuals individuals => disjointGoals Owl.Individual.form individuals
  | equivalentClasses expressions => do
    cycleGoals (Owl.ClassExpression.form literalKey) (← expressions.getLast?) expressions
  | sameIndividual individuals => do cycleGoals Owl.Individual.form (← individuals.getLast?) individuals
  | _ => none

/-- A conversion has put pairs of expressions under pairs of handles and added no row. -/
structure MutableIndex.ConvertedPairs (index later : MutableIndex) (pairs : List (Nat × Nat))
    (expressions : List (ExpressionTree × ExpressionTree)) : Prop where
  emits : index.Emits later []
  bound : ∀ pair ∈ pairs, pair.1 < later.expressions.length ∧ pair.2 < later.expressions.length
  trees_eq : pairs.map (fun pair => (later.tree pair.1, later.tree pair.2)) = expressions

section

variable {index later last : MutableIndex} {pairs others : List (Nat × Nat)}
  {goals goals' : List (ExpressionTree × ExpressionTree)}

theorem MutableIndex.ConvertedPairs.nil (wellFormed : index.WellFormed) : index.ConvertedPairs index [] [] :=
  ⟨.refl wellFormed, fun _ member => absurd member List.not_mem_nil, rfl⟩

/-- Two converted expressions are one obligation. -/
theorem MutableIndex.ConvertedPairs.single {sub super : Nat} {subTree superTree : ExpressionTree}
    (convertedSub : index.Converted later sub subTree) (convertedSuper : index.Converted later super superTree) :
    index.ConvertedPairs later [(sub, super)] [(subTree, superTree)] := by
  refine ⟨convertedSub.emits, fun pair member => ?_, ?_⟩
  · rw [List.mem_singleton.mp member]
    exact ⟨convertedSub.bound, convertedSuper.bound⟩
  · rw [List.map_singleton, convertedSub.tree_eq, convertedSuper.tree_eq]

/-- The obligations of two conversions in a row. -/
theorem MutableIndex.ConvertedPairs.append (first : index.ConvertedPairs later pairs goals)
    (second : later.ConvertedPairs last others goals') :
    index.ConvertedPairs last (pairs ++ others) (goals ++ goals') := by
  have extension := second.emits.extension
  refine ⟨first.emits.silent second.emits, fun pair member => ?_, ?_⟩
  · rcases List.mem_append.mp member with old | new
    · exact ⟨extension.lt (first.bound pair old).1, extension.lt (first.bound pair old).2⟩
    · exact second.bound pair new
  · rw [List.map_append, second.trees_eq, ← first.trees_eq]
    refine congrArg (· ++ goals') (List.map_congr_left fun pair member => ?_)
    rw [extension.tree (first.bound pair member).1, extension.tree (first.bound pair member).2]

end

open MutableIndex ExpressionConverter AxiomConverter

variable {literalKey : Owl.Literal → ElkCompatibilityKey} {nodeLimit : Nat}

/-- A nominal is the expression of its individual. -/
theorem nominal_converted {index later : MutableIndex} (wellFormed : index.WellFormed) {value : Owl.Individual}
    {polarity : IndexPolarity} {handle : Nat}
    (done : nominal literalKey nodeLimit value polarity index = .ok (handle, later)) :
    ∃ expression, value.form = some expression ∧ index.Converted later handle expression := by
  obtain ⟨_, middle, feature, step⟩ := Conversion.bind_ok done
  have silent := (addFeature_emits wellFormed feature).1
  obtain ⟨expression, form, converted⟩ := convert_converted silent.wellFormed literalKey nodeLimit step
  exact ⟨expression, form, converted.after silent⟩

/-- A conversion of members puts the form of each under its handle. -/
def Converts {α : Type} (convertMember : α → IndexPolarity → Conversion Nat)
    (form : α → Option ExpressionTree) : Prop :=
  ∀ (index later : MutableIndex) (value : α) (polarity : IndexPolarity) (handle : Nat), index.WellFormed →
    convertMember value polarity index = .ok (handle, later) →
      ∃ expression, form value = some expression ∧ index.Converted later handle expression

section

variable {α : Type} {form : α → Option ExpressionTree} {convertMember : α → IndexPolarity → Conversion Nat}
  (sound : Converts convertMember form)

include sound

/-- Two disjoint expressions have their intersection below `owl:Nothing`. -/
theorem disjointObligation_converted {index later : MutableIndex} (wellFormed : index.WellFormed) {first second : α}
    {pair : Nat × Nat}
    (done : disjointObligation literalKey nodeLimit (convertMember first .positive) (convertMember second .positive)
      index = .ok (pair, later)) :
    ∃ goal, (do pure (intersectionTree (← form first) (← form second), nothingTree) : Option _) = some goal ∧
      index.ConvertedPairs later [pair] [goal] := by
  obtain ⟨left, converted, step, after⟩ := Conversion.bind_ok done
  obtain ⟨right, both, step', after'⟩ := Conversion.bind_ok after
  obtain ⟨conjunction, joined, step'', after''⟩ := Conversion.bind_ok after'
  obtain ⟨bottom, last, nothing, final⟩ := Conversion.bind_ok after''
  obtain ⟨rfl, rfl⟩ := Conversion.pure_ok final
  obtain ⟨leftTree, leftForm, convertedLeft⟩ := sound _ _ _ _ _ wellFormed step
  obtain ⟨rightTree, rightForm, convertedRight⟩ := sound _ _ _ _ _ convertedLeft.emits.wellFormed step'
  have left' := convertedLeft.then convertedRight.emits
  have meet := conjunction_converted convertedRight.emits.wellFormed left'.bound convertedRight.bound step''
  rw [left'.tree_eq, convertedRight.tree_eq] at meet
  have convertedBottom := convertNothing_converted meet.emits.wellFormed nothing
  have before := left'.emits
  refine ⟨_, ?_, .single ((meet.then convertedBottom.emits).after before)
    (convertedBottom.after (before.silent meet.emits))⟩
  rw [leftForm, rightForm]
  rfl

/-- Every two members of a disjointness have their intersection below `owl:Nothing`. -/
theorem disjointObligations_converted {index later : MutableIndex} (wellFormed : index.WellFormed) {values : List α}
    {pairs : List (Nat × Nat)}
    (done : disjointObligations literalKey nodeLimit (fun value => convertMember value .positive) values index =
      .ok (pairs, later)) :
    ∃ goals, disjointGoals form values = some goals ∧ index.ConvertedPairs later pairs goals := by
  have row : ∀ {index later : MutableIndex} {first : α} {seconds : List α} {pairs : List (Nat × Nat)},
      index.WellFormed →
      (seconds.mapM fun second => disjointObligation literalKey nodeLimit (convertMember first .positive)
        (convertMember second .positive)) index = .ok (pairs, later) →
      ∃ goals, (seconds.mapM fun second => do
          pure (intersectionTree (← form first) (← form second), nothingTree)) = some goals ∧
        index.ConvertedPairs later pairs goals := by
    intro index later first seconds pairs wellFormed done
    induction seconds generalizing index pairs with
    | nil =>
      rw [List.mapM_nil] at done
      obtain ⟨rfl, rfl⟩ := Conversion.pure_ok done
      exact ⟨[], rfl, .nil wellFormed⟩
    | cons second rest ih =>
      rw [List.mapM_cons] at done
      obtain ⟨head, middle, step, after⟩ := Conversion.bind_ok done
      obtain ⟨tail, last, steps, final⟩ := Conversion.bind_ok after
      obtain ⟨rfl, rfl⟩ := Conversion.pure_ok final
      obtain ⟨goal, found, converted⟩ := disjointObligation_converted sound wellFormed step
      obtain ⟨goals, others, convertedAll⟩ := ih converted.emits.wellFormed steps
      refine ⟨goal :: goals, ?_, converted.append convertedAll⟩
      rw [List.mapM_cons, found, others]
      rfl
  induction values generalizing index pairs with
  | nil =>
    obtain ⟨rfl, rfl⟩ := Conversion.pure_ok done
    exact ⟨[], rfl, .nil wellFormed⟩
  | cons first rest ih =>
    obtain ⟨here, middle, step, after⟩ := Conversion.bind_ok done
    obtain ⟨more, last, steps, final⟩ := Conversion.bind_ok after
    obtain ⟨rfl, rfl⟩ := Conversion.pure_ok final
    obtain ⟨goals, found, converted⟩ := row wellFormed step
    obtain ⟨goals', others, converted'⟩ := ih converted.emits.wellFormed steps
    refine ⟨goals ++ goals', ?_, converted.append converted'⟩
    rw [disjointGoals, found, others]
    rfl

/-- The members of an equivalence are each below the next, around a cycle. -/
theorem cycleObligations_converted {index later : MutableIndex} (wellFormed : index.WellFormed) {previous : α}
    {values : List α} {pairs : List (Nat × Nat)}
    (done : cycleObligations convertMember previous values index = .ok (pairs, later)) :
    ∃ goals, cycleGoals form previous values = some goals ∧ index.ConvertedPairs later pairs goals := by
  induction values generalizing index previous pairs with
  | nil =>
    obtain ⟨rfl, rfl⟩ := Conversion.pure_ok done
    exact ⟨[], rfl, .nil wellFormed⟩
  | cons current rest ih =>
    obtain ⟨sub, converted, step, after⟩ := Conversion.bind_ok done
    obtain ⟨super, both, step', after'⟩ := Conversion.bind_ok after
    obtain ⟨more, last, steps, final⟩ := Conversion.bind_ok after'
    obtain ⟨rfl, rfl⟩ := Conversion.pure_ok final
    obtain ⟨subTree, subForm, convertedSub⟩ := sound _ _ _ _ _ wellFormed step
    obtain ⟨superTree, superForm, convertedSuper⟩ := sound _ _ _ _ _ convertedSub.emits.wellFormed step'
    have here := ConvertedPairs.single (convertedSub.then convertedSuper.emits)
      (convertedSuper.after convertedSub.emits)
    obtain ⟨goals, others, converted'⟩ := ih here.emits.wellFormed steps
    refine ⟨(subTree, superTree) :: goals, ?_, here.append converted'⟩
    rw [cycleGoals, subForm, superForm, others]
    rfl

end

/-- The obligations of a converted query are those of its statement. -/
theorem convertEntailmentObligations_converted {index later : MutableIndex} (wellFormed : index.WellFormed)
    {node : Owl.AxiomNode} {pairs : List (Nat × Nat)}
    (done : convertEntailmentObligations literalKey nodeLimit node index = .ok (pairs, later)) :
    ∃ goals, node.goals literalKey = some goals ∧ index.ConvertedPairs later pairs goals := by
  have expression : Converts (convertExpression literalKey nodeLimit) (Owl.ClassExpression.form literalKey) :=
    fun _ _ _ _ _ wellFormed done => convertExpression_converted wellFormed done
  have member : Converts (nominal literalKey nodeLimit) Owl.Individual.form :=
    fun _ _ _ _ _ wellFormed done => nominal_converted wellFormed done
  cases node with
  | subClassOf subClass superClass =>
    obtain ⟨sub, middle, step, after⟩ := Conversion.bind_ok done
    obtain ⟨super, last, step', final⟩ := Conversion.bind_ok after
    obtain ⟨rfl, rfl⟩ := Conversion.pure_ok final
    obtain ⟨subTree, form, converted⟩ := convertExpression_converted wellFormed step
    obtain ⟨superTree, form', converted'⟩ := convertExpression_converted converted.emits.wellFormed step'
    refine ⟨_, ?_, .single (converted.then converted'.emits) (converted'.after converted.emits)⟩
    rw [Owl.AxiomNode.goals, form, form']
    rfl
  | classAssertion classExpression individual =>
    obtain ⟨sub, middle, step, after⟩ := Conversion.bind_ok done
    obtain ⟨super, last, step', final⟩ := Conversion.bind_ok after
    obtain ⟨rfl, rfl⟩ := Conversion.pure_ok final
    obtain ⟨subTree, form, converted⟩ := convert_converted wellFormed literalKey nodeLimit step
    obtain ⟨superTree, form', converted'⟩ := convertExpression_converted converted.emits.wellFormed step'
    refine ⟨_, ?_, .single (converted.then converted'.emits) (converted'.after converted.emits)⟩
    rw [Owl.AxiomNode.goals, show individual.form = some subTree from form, form']
    rfl
  | objectPropertyAssertion property source target =>
    obtain ⟨sub, middle, step, after⟩ := Conversion.bind_ok done
    obtain ⟨prop, recorded, found, after'⟩ := Conversion.bind_ok after
    obtain ⟨filler, targeted, step', after''⟩ := Conversion.bind_ok after'
    obtain ⟨existential, last, step'', final⟩ := Conversion.bind_ok after''
    obtain ⟨rfl, rfl⟩ := Conversion.pure_ok final
    obtain ⟨sourceTree, sourceForm, convertedSource⟩ := convert_converted wellFormed literalKey nodeLimit step
    obtain ⟨silent, record, kind, named⟩ := objectProperty_recorded convertedSource.emits.wellFormed found
    obtain ⟨targetTree, targetForm, convertedTarget⟩ := nominal_converted silent.wellFormed step'
    have linked := existential_converted convertedTarget.emits.wellFormed kind named convertedTarget.bound step''
    rw [convertedTarget.tree_eq] at linked
    have later := (silent.silent convertedTarget.emits).silent linked.emits
    refine ⟨_, ?_, .single (convertedSource.then later)
      (linked.after (convertedSource.emits.silent (silent.silent convertedTarget.emits)))⟩
    rw [Owl.AxiomNode.goals, show source.form = _ from sourceForm, record, targetForm]
    rfl
  | objectPropertyDomain property domain =>
    obtain ⟨prop, recorded, found, after⟩ := Conversion.bind_ok done
    obtain ⟨thing, middle, step, after'⟩ := Conversion.bind_ok after
    obtain ⟨existential, joined, step', after''⟩ := Conversion.bind_ok after'
    obtain ⟨super, last, step'', final⟩ := Conversion.bind_ok after''
    obtain ⟨rfl, rfl⟩ := Conversion.pure_ok final
    obtain ⟨silent, record, kind, named⟩ := objectProperty_recorded wellFormed found
    have convertedThing := convertThing_converted silent.wellFormed step
    have linked := existential_converted convertedThing.emits.wellFormed kind named convertedThing.bound step'
    rw [convertedThing.tree_eq] at linked
    obtain ⟨domainTree, form, converted⟩ := convertExpression_converted linked.emits.wellFormed step''
    have before := silent.silent convertedThing.emits
    refine ⟨_, ?_, .single ((linked.then converted.emits).after before)
      (converted.after (before.silent linked.emits))⟩
    rw [Owl.AxiomNode.goals, record, form]
    rfl
  | disjointClasses expressions => exact disjointObligations_converted expression wellFormed done
  | differentIndividuals individuals => exact disjointObligations_converted member wellFormed done
  | equivalentClasses expressions =>
    unfold convertEntailmentObligations at done
    simp only [Owl.AxiomNode.queryFeature] at done
    rw [Owl.AxiomNode.goals]
    cases previous : expressions.getLast? with
    | none =>
      rw [previous] at done
      cases done
    | some previous =>
      simp only [previous] at done
      exact cycleObligations_converted expression wellFormed done
  | sameIndividual individuals =>
    unfold convertEntailmentObligations at done
    simp only [Owl.AxiomNode.queryFeature] at done
    rw [Owl.AxiomNode.goals]
    cases previous : individuals.getLast? with
    | none =>
      rw [previous] at done
      cases done
    | some previous =>
      simp only [previous] at done
      exact cycleObligations_converted member wellFormed done
  | declaration entity => cases done
  | disjointUnion definedClass expressions => cases done
  | equivalentObjectProperties properties => cases done
  | subObjectPropertyOf subProperty superProperty => cases done
  | objectPropertyRange property range => cases done
  | reflexiveObjectProperty property => cases done
  | transitiveObjectProperty property => cases done
  | annotated node => cases node <;> cases done
  | unsupported node => cases done

end PyElk
