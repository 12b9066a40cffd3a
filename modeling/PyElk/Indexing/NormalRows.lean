import PyElk.Indexing.NormalForm

namespace PyElk

def thingTree : ExpressionTree := classTree OWL_THING_IRI

def nothingTree : ExpressionTree := classTree OWL_NOTHING_IRI

def ExpressionTree.tag : ExpressionTree → ExpressionTag
  | node tag _ _ _ => tag

/-- The rows of an equivalence, given its first member: a class stands first
where there is a choice. -/
def equivalentRows (first : ExpressionTree) (others : List ExpressionTree) : List NormalRow :=
  others.map fun other =>
    if (first.tag == .owlClass) = false ∧ other.tag = .owlClass then .equivalent other first
    else .equivalent first other

def disjointPairRows : List ExpressionTree → List NormalRow
  | [] => []
  | first :: rest =>
    rest.map (fun second => .subclass (intersectionTree first second) nothingTree) ++ disjointPairRows rest

/-- A group for more than two members, a conjunction for two. -/
def disjointRows (members : List ExpressionTree) : List NormalRow :=
  if 2 < members.length then [.disjoint members] else disjointPairRows members

def disjointUnionRows (defined : ExpressionTree) : List ExpressionTree → List NormalRow
  | [] => [.equivalent defined nothingTree]
  | [member] => [.equivalent defined member]
  | members => members.map fun member => .subclass member defined

def sameIndividualRows (first : ExpressionTree) (others : List ExpressionTree) : List NormalRow :=
  others.flatMap fun other => [.subclass first other, .subclass other first]

def equivalentPropertyRows (first : EntityRecord) (others : List EntityRecord) : List NormalRow :=
  others.flatMap fun other => [.subproperty [first] other, .subproperty [other] first]

/-- The rows of a list whose first member is the hub of the others. -/
def hubRows {α : Type} (rows : α → List α → List NormalRow) : List α → List NormalRow
  | [] => []
  | first :: rest => rows first rest

/-- The property sequence of a sub-property expression. -/
def Owl.SubObjectPropertyExpression.chain : Owl.SubObjectPropertyExpression → Option (List EntityRecord)
  | property expression => do pure [← expression.record]
  | objectPropertyChain properties => properties.mapM Owl.ObjectPropertyExpression.record

/-- The normalized rows of a statement, where every operand has a normal form. -/
def Owl.AxiomNode.rows (literalKey : Owl.Literal → ElkCompatibilityKey) : Owl.AxiomNode → Option (List NormalRow)
  | declaration _ | annotated _ => some []
  | subClassOf subClass superClass => do
    pure [.subclass (← subClass.form literalKey) (← superClass.form literalKey)]
  | equivalentClasses expressions => hubRows equivalentRows <$> Owl.ClassExpression.forms literalKey expressions
  | disjointClasses expressions => disjointRows <$> Owl.ClassExpression.forms literalKey expressions
  | disjointUnion definedClass expressions => do
    let members ← Owl.ClassExpression.forms literalKey expressions
    pure (disjointRows members ++ disjointUnionRows (classTree definedClass) members)
  | classAssertion classExpression individual => do
    pure [.subclass (← individual.form) (← classExpression.form literalKey)]
  | sameIndividual individuals => hubRows sameIndividualRows <$> individuals.mapM Owl.Individual.form
  | differentIndividuals individuals => disjointRows <$> individuals.mapM Owl.Individual.form
  | objectPropertyAssertion property source target => do
    pure [.subclass (← source.form) (someTree (← property.record) (← target.form))]
  | equivalentObjectProperties properties =>
    hubRows equivalentPropertyRows <$> properties.mapM Owl.ObjectPropertyExpression.record
  | subObjectPropertyOf subProperty superProperty => do
    pure [.subproperty (← subProperty.chain) (← superProperty.record)]
  | objectPropertyDomain property domain => do
    pure [.subclass (someTree (← property.record) thingTree) (← domain.form literalKey)]
  | objectPropertyRange property range => do pure [.range (← property.record) (← range.form literalKey)]
  | reflexiveObjectProperty property => do pure [.subclass thingTree (hasSelfTree (← property.record))]
  | transitiveObjectProperty property => do
    let record ← property.record
    pure [.subproperty [record, record] record]
  | unsupported _ => none

namespace AxiomConverter

open MutableIndex ExpressionConverter

section

variable {literalKey : Owl.Literal → ElkCompatibilityKey} {nodeLimit : Nat} {index later : MutableIndex}
  (wellFormed : index.WellFormed)

include wellFormed

/-- A class expression is converted to its normal form. -/
theorem convertExpression_converted {value : Owl.ClassExpression} {polarity : IndexPolarity} {handle : Nat}
    (done : convertExpression literalKey nodeLimit value polarity index = .ok (handle, later)) :
    ∃ expression, value.form literalKey = some expression ∧ index.Converted later handle expression :=
  convert_converted wellFormed literalKey nodeLimit done

theorem convertThing_converted {polarity : IndexPolarity} {handle : Nat}
    (done : convertThing literalKey nodeLimit polarity index = .ok (handle, later)) :
    index.Converted later handle thingTree := by
  obtain ⟨expression, form, converted⟩ := convertExpression_converted wellFormed done
  cases form
  exact converted

theorem convertNothing_converted {polarity : IndexPolarity} {handle : Nat}
    (done : convertNothing literalKey nodeLimit polarity index = .ok (handle, later)) :
    index.Converted later handle nothingTree := by
  obtain ⟨expression, form, converted⟩ := convertExpression_converted wellFormed done
  cases form
  exact converted

omit wellFormed in
theorem forms_eq_mapM (values : List Owl.ClassExpression) :
    Owl.ClassExpression.forms literalKey values =
      (values.map Owl.Value.expression).mapM (Owl.Value.form literalKey) := by
  induction values with
  | nil => rfl
  | cons first rest ih =>
    rw [Owl.ClassExpression.forms, ih, List.map_cons, List.mapM_cons]
    rfl

omit wellFormed in
theorem memberForms_eq_mapM (values : List Owl.Individual) :
    values.mapM Owl.Individual.form = (values.map Owl.Value.individual).mapM (Owl.Value.form literalKey) := by
  induction values with
  | nil => rfl
  | cons first rest ih =>
    rw [List.mapM_cons, ih, List.map_cons, List.mapM_cons]
    rfl

/-- A list of values is converted one by one. -/
theorem convertValues_converted {values : List Owl.Value} {polarity : IndexPolarity} {handles : List Nat}
    (done : (values.mapM fun value => convertValue literalKey nodeLimit value polarity) index =
      .ok (handles, later)) :
    ∃ expressions, values.mapM (Owl.Value.form literalKey) = some expressions ∧
      index.ConvertedAll later handles expressions := by
  induction values generalizing index handles with
  | nil =>
    rw [List.mapM_nil] at done
    obtain ⟨rfl, rfl⟩ := Conversion.pure_ok done
    exact ⟨[], rfl, .nil wellFormed⟩
  | cons first rest ih =>
    rw [List.mapM_cons] at done
    obtain ⟨head, middle, step, after⟩ := Conversion.bind_ok done
    obtain ⟨tail, last, steps, final⟩ := Conversion.bind_ok after
    obtain ⟨rfl, rfl⟩ := Conversion.pure_ok final
    obtain ⟨expression, form, converted⟩ := convert_converted wellFormed literalKey nodeLimit step
    obtain ⟨expressions, forms, convertedAll⟩ := ih converted.emits.wellFormed steps
    refine ⟨expression :: expressions, ?_, converted.cons convertedAll⟩
    rw [List.mapM_cons, form, forms]
    rfl

/-- The tag of a handle is the tag of its expression. -/
theorem expressionTag_tree {handle : Nat} {tag : ExpressionTag}
    (done : expressionTag handle index = .ok (tag, later)) : index = later ∧ (index.tree handle).tag = tag := by
  obtain ⟨same, key, entry, tagged⟩ := expressionTag_ok done
  refine ⟨same, ?_⟩
  unfold MutableIndex.tree
  rw [treeOf_entry wellFormed.operands entry]
  exact tagged

/-- A conjunction of two known expressions. -/
theorem conjunction_converted {first second : Nat} {polarity : IndexPolarity} {handle : Nat}
    (firstBound : first < index.expressions.length) (secondBound : second < index.expressions.length)
    (done : internKey ⟨.objectIntersectionOf, [], [first, second], []⟩ polarity index = .ok (handle, later)) :
    index.Converted later handle (intersectionTree (index.tree first) (index.tree second)) := by
  have shaped : ExpressionKey.Shaped ⟨.objectIntersectionOf, [], [first, second], []⟩ := trivial
  refine internKey_converted wellFormed shaped (fun operand member => ?_)
    (fun entity member => absurd member List.not_mem_nil) done
  rcases List.mem_pair.mp member with rfl | rfl
  · exact firstBound
  · exact secondBound

/-- An existential over a known filler. -/
theorem existential_converted {property : EntityRecord} (kind : property.kind = .objectProperty)
    (named : property.iri ≠ "") {filler : Nat} {polarity : IndexPolarity} {handle : Nat}
    (bound : filler < index.expressions.length)
    (done : internKey ⟨.objectSomeValuesFrom, [property], [filler], []⟩ polarity index = .ok (handle, later)) :
    index.Converted later handle (someTree property (index.tree filler)) := by
  have shaped : ExpressionKey.Shaped ⟨.objectSomeValuesFrom, [property], [filler], []⟩ := kind
  refine internKey_converted wellFormed shaped (fun operand member => ?_) (fun entity member => ?_) done
  · rw [List.mem_singleton.mp member]
    exact bound
  · rw [List.mem_singleton.mp member]
    exact named

theorem hasSelf_converted {property : EntityRecord} (kind : property.kind = .objectProperty)
    (named : property.iri ≠ "") {polarity : IndexPolarity} {handle : Nat}
    (done : internKey ⟨.objectHasSelf, [property], [], []⟩ polarity index = .ok (handle, later)) :
    index.Converted later handle (hasSelfTree property) := by
  have shaped : ExpressionKey.Shaped ⟨.objectHasSelf, [property], [], []⟩ := kind
  refine internKey_converted wellFormed shaped (fun _ member => absurd member List.not_mem_nil)
    (fun entity member => ?_) done
  rw [List.mem_singleton.mp member]
  exact named

/-- A subclass row between two converted expressions. -/
theorem subclass_emits {start : MutableIndex} {sub super : Nat} {subTree superTree : ExpressionTree} {result : Unit}
    (convertedSub : start.Converted index sub subTree) (convertedSuper : start.Converted index super superTree)
    (done : addSubclass sub super index = .ok (result, later)) : start.Emits later [.subclass subTree superTree] := by
  have row := addSubclass_emits wellFormed convertedSub.bound convertedSuper.bound done
  rw [convertedSub.tree_eq, convertedSuper.tree_eq] at row
  exact convertedSub.emits.silent row

/-- An equivalence of two converted operands emits its row. -/
theorem equivalent_emits {start : MutableIndex} {defined other : Nat} {definedTree otherTree : ExpressionTree}
    {result : Unit} (convertedDefined : start.Converted index defined definedTree)
    (convertedOther : start.Converted index other otherTree)
    (done : addEquivalentClass defined other index = .ok (result, later)) :
    start.Emits later [.equivalent definedTree otherTree] := by
  have row := addEquivalentClass_emits wellFormed convertedDefined.bound convertedOther.bound done
  rw [convertedDefined.tree_eq, convertedOther.tree_eq] at row
  exact convertedDefined.emits.silent row

omit wellFormed in
/-- A known handle read as a conversion that did nothing. -/
theorem known_converted {start : MutableIndex} (extension : start.Emits index []) {handle : Nat}
    (bound : handle < start.expressions.length) : start.Converted index handle (start.tree handle) :=
  ⟨extension, extension.extension.lt bound, extension.extension.tree bound⟩

theorem equivalentOthers_emits {values : List Owl.ClassExpression} {first : Nat} {firstIsClass : Bool} {result : Unit}
    (bound : first < index.expressions.length) (isClass : firstIsClass = ((index.tree first).tag == .owlClass))
    (done : equivalentClasses literalKey nodeLimit values (some (first, firstIsClass)) index = .ok (result, later)) :
    ∃ expressions, Owl.ClassExpression.forms literalKey values = some expressions ∧
      index.Emits later (equivalentRows (index.tree first) expressions) := by
  induction values generalizing index with
  | nil =>
    obtain ⟨_, rfl⟩ := Conversion.pure_ok done
    exact ⟨[], rfl, .refl wellFormed⟩
  | cons member rest ih =>
    obtain ⟨handle, middle, step, after⟩ := Conversion.bind_ok done
    obtain ⟨tag, tagged, found, after'⟩ := Conversion.bind_ok after
    obtain ⟨expression, form, converted⟩ := convertExpression_converted wellFormed step
    obtain ⟨rfl, tag_eq⟩ := expressionTag_tree converted.emits.wellFormed found
    rw [converted.tree_eq] at tag_eq
    have hub := known_converted converted.emits bound
    obtain ⟨added, here, remaining⟩ : ∃ added,
        index.Emits added [if (((index.tree first).tag == .owlClass) = false ∧ expression.tag = .owlClass) then
          .equivalent expression (index.tree first) else .equivalent (index.tree first) expression] ∧
        equivalentClasses literalKey nodeLimit rest (some (first, firstIsClass)) added = .ok (result, later) := by
      subst isClass tag_eq
      split at after'
      · rename_i swapped
        obtain ⟨_, added, row, remaining⟩ := Conversion.bind_ok after'
        refine ⟨added, ?_, remaining⟩
        rw [if_pos (by simpa using swapped)]
        exact equivalent_emits converted.emits.wellFormed converted hub row
      · rename_i straight
        obtain ⟨_, added, row, remaining⟩ := Conversion.bind_ok after'
        refine ⟨added, ?_, remaining⟩
        rw [if_neg (by simpa using straight)]
        exact equivalent_emits converted.emits.wellFormed hub converted row
    have same := here.extension.tree bound
    obtain ⟨expressions, forms, others⟩ := ih here.wellFormed (here.extension.lt bound) (same ▸ isClass) remaining
    rw [same] at others
    refine ⟨expression :: expressions, ?_, here.trans others⟩
    rw [Owl.ClassExpression.forms, form, forms]
    rfl

/-- Equivalent classes emit their rows around the first operand. -/
theorem equivalentClasses_emits {values : List Owl.ClassExpression} {result : Unit}
    (done : equivalentClasses literalKey nodeLimit values none index = .ok (result, later)) :
    ∃ expressions, Owl.ClassExpression.forms literalKey values = some expressions ∧
      index.Emits later (hubRows equivalentRows expressions) := by
  cases values with
  | nil =>
    obtain ⟨_, rfl⟩ := Conversion.pure_ok done
    exact ⟨[], rfl, .refl wellFormed⟩
  | cons member rest =>
    obtain ⟨handle, middle, step, after⟩ := Conversion.bind_ok done
    obtain ⟨tag, tagged, found, remaining⟩ := Conversion.bind_ok after
    obtain ⟨expression, form, converted⟩ := convertExpression_converted wellFormed step
    obtain ⟨rfl, tag_eq⟩ := expressionTag_tree converted.emits.wellFormed found
    obtain ⟨expressions, forms, others⟩ := equivalentOthers_emits converted.emits.wellFormed converted.bound
      (tag_eq ▸ rfl) remaining
    rw [converted.tree_eq] at others
    refine ⟨expression :: expressions, ?_, converted.emits.silent others⟩
    rw [Owl.ClassExpression.forms, form, forms]
    rfl

theorem disjointFrom_emits {values : List Owl.Value} {bottom first : Nat} {result : Unit}
    (bottomBound : bottom < index.expressions.length) (firstBound : first < index.expressions.length)
    (done : disjointFrom literalKey nodeLimit bottom first values index = .ok (result, later)) :
    ∃ expressions, values.mapM (Owl.Value.form literalKey) = some expressions ∧
      index.Emits later (expressions.map fun second =>
        .subclass (intersectionTree (index.tree first) second) (index.tree bottom)) := by
  induction values generalizing index with
  | nil =>
    obtain ⟨_, rfl⟩ := Conversion.pure_ok done
    exact ⟨[], rfl, .refl wellFormed⟩
  | cons member rest ih =>
    obtain ⟨second, middle, step, after⟩ := Conversion.bind_ok done
    obtain ⟨conjunction, joined, step', after'⟩ := Conversion.bind_ok after
    obtain ⟨_, added, row, remaining⟩ := Conversion.bind_ok after'
    obtain ⟨expression, form, converted⟩ := convert_converted wellFormed literalKey nodeLimit step
    have hub := known_converted converted.emits firstBound
    have both := conjunction_converted converted.emits.wellFormed hub.bound converted.bound step'
    rw [hub.tree_eq, converted.tree_eq] at both
    have joint := both.after converted.emits
    have here := subclass_emits joint.emits.wellFormed joint (known_converted joint.emits bottomBound) row
    obtain ⟨expressions, forms, others⟩ :=
      ih here.wellFormed (here.extension.lt bottomBound) (here.extension.lt firstBound) remaining
    rw [here.extension.tree bottomBound, here.extension.tree firstBound] at others
    refine ⟨expression :: expressions, ?_, here.trans others⟩
    rw [List.mapM_cons, form, forms]
    rfl

/-- Disjoint classes, taken in pairs, emit the row of each pair. -/
theorem disjointPairs_emits {values : List Owl.Value} {bottom : Nat} {result : Unit}
    (bottomBound : bottom < index.expressions.length) (isNothing : index.tree bottom = nothingTree)
    (done : disjointPairs literalKey nodeLimit bottom values index = .ok (result, later)) :
    ∃ expressions, values.mapM (Owl.Value.form literalKey) = some expressions ∧
      index.Emits later (disjointPairRows expressions) := by
  induction values generalizing index with
  | nil =>
    obtain ⟨_, rfl⟩ := Conversion.pure_ok done
    exact ⟨[], rfl, .refl wellFormed⟩
  | cons member rest ih =>
    obtain ⟨first, middle, step, after⟩ := Conversion.bind_ok done
    obtain ⟨_, paired, pairs, remaining⟩ := Conversion.bind_ok after
    obtain ⟨expression, form, converted⟩ := convert_converted wellFormed literalKey nodeLimit step
    have nothing := known_converted converted.emits bottomBound
    obtain ⟨seconds, forms, rows⟩ :=
      disjointFrom_emits converted.emits.wellFormed nothing.bound converted.bound pairs
    rw [converted.tree_eq, nothing.tree_eq, isNothing] at rows
    have here := converted.emits.silent rows
    have kept : paired.tree bottom = nothingTree := (here.extension.tree bottomBound).trans isNothing
    obtain ⟨expressions, forms', others⟩ := ih here.wellFormed (here.extension.lt bottomBound) kept remaining
    cases forms.symm.trans forms'
    refine ⟨expression :: seconds, ?_, here.trans others⟩
    rw [List.mapM_cons, form, forms]
    rfl

omit wellFormed in
theorem mapM_length {α β : Type} {f : α → Option β} {values : List α} {images : List β}
    (mapped : values.mapM f = some images) : images.length = values.length := by
  induction values generalizing images with
  | nil =>
    cases mapped
    rfl
  | cons first rest ih =>
    rw [List.mapM_cons] at mapped
    obtain ⟨y, _, after⟩ := Option.bind_eq_some_iff.mp mapped
    obtain ⟨others, tail, last⟩ := Option.bind_eq_some_iff.mp after
    cases last
    exact congrArg Nat.succ (ih tail)

/-- Disjoint classes emit a group, or the row of their one pair. -/
theorem disjoint_emits {values : List Owl.Value} {result : Unit}
    (done : disjoint literalKey nodeLimit values index = .ok (result, later)) :
    ∃ expressions, values.mapM (Owl.Value.form literalKey) = some expressions ∧
      index.Emits later (disjointRows expressions) := by
  unfold disjoint at done
  unfold disjointRows
  split at done
  · rename_i many
    obtain ⟨handles, middle, steps, row⟩ := Conversion.bind_ok done
    obtain ⟨expressions, forms, converted⟩ := convertValues_converted wellFormed steps
    refine ⟨expressions, forms, ?_⟩
    rw [if_pos (mapM_length forms ▸ many)]
    have group := addDisjointGroup_emits converted.emits.wellFormed converted.bound row
    rw [converted.trees_eq] at group
    exact converted.emits.silent group
  · rename_i few
    obtain ⟨bottom, middle, step, pairs⟩ := Conversion.bind_ok done
    have converted := convertNothing_converted wellFormed step
    obtain ⟨expressions, forms, rows⟩ :=
      disjointPairs_emits converted.emits.wellFormed converted.bound converted.tree_eq pairs
    refine ⟨expressions, forms, ?_⟩
    rw [if_neg (mapM_length forms ▸ few)]
    exact converted.emits.silent rows

/-- The recorded properties of a list, in order. -/
theorem objectProperties_recorded {values : List Owl.ObjectPropertyExpression} {polarity : IndexPolarity}
    {records : List EntityRecord}
    (done : (values.mapM fun value => objectProperty value polarity) index = .ok (records, later)) :
    index.Emits later [] ∧ values.mapM Owl.ObjectPropertyExpression.record = some records ∧
      ∀ record ∈ records, record.iri ≠ "" := by
  induction values generalizing index records with
  | nil =>
    rw [List.mapM_nil] at done
    obtain ⟨rfl, rfl⟩ := Conversion.pure_ok done
    exact ⟨.refl wellFormed, rfl, fun record member => absurd member List.not_mem_nil⟩
  | cons first rest ih =>
    rw [List.mapM_cons] at done
    obtain ⟨head, middle, step, after⟩ := Conversion.bind_ok done
    obtain ⟨tail, last, steps, final⟩ := Conversion.bind_ok after
    obtain ⟨rfl, rfl⟩ := Conversion.pure_ok final
    obtain ⟨silent, record, _, named⟩ := objectProperty_recorded wellFormed step
    obtain ⟨silent', records, others⟩ := ih silent.wellFormed steps
    refine ⟨silent.silent silent', ?_, fun other member => ?_⟩
    · rw [List.mapM_cons, record, records]
      rfl
    · rcases List.mem_cons.mp member with rfl | found
      · exact named
      · exact others other found

/-- The members of a disjoint union emit their inclusions. -/
theorem unionMembers_emits {values : List Owl.ClassExpression} {defined : Nat} {result : Unit}
    (bound : defined < index.expressions.length)
    (done : unionMembers literalKey nodeLimit defined values index = .ok (result, later)) :
    ∃ expressions, Owl.ClassExpression.forms literalKey values = some expressions ∧
      index.Emits later (expressions.map fun member => .subclass member (index.tree defined)) := by
  induction values generalizing index with
  | nil =>
    obtain ⟨_, rfl⟩ := Conversion.pure_ok done
    exact ⟨[], rfl, .refl wellFormed⟩
  | cons member rest ih =>
    obtain ⟨handle, middle, step, after⟩ := Conversion.bind_ok done
    obtain ⟨_, added, row, remaining⟩ := Conversion.bind_ok after
    obtain ⟨expression, form, converted⟩ := convertExpression_converted wellFormed step
    have here := subclass_emits converted.emits.wellFormed converted (known_converted converted.emits bound) row
    obtain ⟨expressions, forms, others⟩ := ih here.wellFormed (here.extension.lt bound) remaining
    rw [here.extension.tree bound] at others
    refine ⟨expression :: expressions, ?_, here.trans others⟩
    rw [Owl.ClassExpression.forms, form, forms]
    rfl

/-- A disjoint union of two or more members only gives one half of its equivalence,
and records that it does. -/
theorem disjointUnion_emits {definedClass : String} {values : List Owl.ClassExpression} {result : Unit}
    (done : disjointUnion literalKey nodeLimit definedClass values index = .ok (result, later)) :
    ∃ expressions, Owl.ClassExpression.forms literalKey values = some expressions ∧
      index.Emits later (disjointRows expressions ++ disjointUnionRows (classTree definedClass) expressions) ∧
      (2 ≤ values.length → 0 < later.featureCounts.getD (featureIndex "DISJOINT_UNION") 0) := by
  obtain ⟨_, middle, first, after⟩ := Conversion.bind_ok done
  obtain ⟨expressions, forms, rows⟩ := disjoint_emits wellFormed first
  rw [← forms_eq_mapM] at forms
  refine ⟨expressions, forms, ?_⟩
  have ready := rows.wellFormed
  match values with
  | [] =>
    cases forms
    obtain ⟨defined, second, step, after'⟩ := Conversion.bind_ok after
    obtain ⟨bottom, third, step', row⟩ := Conversion.bind_ok after'
    obtain ⟨_, form, convertedDefined⟩ := convertExpression_converted ready step
    cases form
    have convertedBottom := convertNothing_converted convertedDefined.emits.wellFormed step'
    have last := equivalent_emits convertedBottom.emits.wellFormed (convertedDefined.then convertedBottom.emits)
      (convertedBottom.after convertedDefined.emits) row
    exact ⟨rows.trans last, fun impossible => absurd impossible (by decide)⟩
  | [member] =>
    obtain ⟨defined, second, step, after'⟩ := Conversion.bind_ok after
    obtain ⟨singleton, third, step', row⟩ := Conversion.bind_ok after'
    obtain ⟨_, form, convertedDefined⟩ := convertExpression_converted ready step
    cases form
    obtain ⟨expression, form, convertedMember⟩ := convertExpression_converted convertedDefined.emits.wellFormed step'
    have last := equivalent_emits convertedMember.emits.wellFormed (convertedDefined.then convertedMember.emits)
      (convertedMember.after convertedDefined.emits) row
    rw [Owl.ClassExpression.forms, form] at forms
    cases forms
    exact ⟨rows.trans last, fun impossible => absurd impossible (by simp)⟩
  | one :: two :: more =>
    obtain ⟨_, featured, feature, after'⟩ := Conversion.bind_ok after
    obtain ⟨defined, second, step, members⟩ := Conversion.bind_ok after'
    obtain ⟨silent, counted⟩ := addFeature_emits ready feature
    obtain ⟨_, form, convertedDefined⟩ := convertExpression_converted silent.wellFormed step
    cases form
    obtain ⟨expressions', forms', last⟩ :=
      unionMembers_emits convertedDefined.emits.wellFormed convertedDefined.bound members
    cases forms.symm.trans forms'
    rw [convertedDefined.tree_eq] at last
    have tail := convertedDefined.emits.silent last
    have length : expressions.length = (one :: two :: more).length := by
      rw [forms_eq_mapM] at forms
      rw [mapM_length forms, List.length_map]
    have unionRows : disjointUnionRows (classTree definedClass) expressions =
        expressions.map fun member => .subclass member (classTree definedClass) := by
      match expressions, length with
      | _ :: _ :: _, _ => rfl
    rw [unionRows]
    refine ⟨rows.trans (silent.silent tail), fun _ => ?_⟩
    refine lt_of_lt_of_le ?_ (tail.extension.features _)
    rw [counted (by decide)]
    exact Nat.succ_pos _

theorem sameOthers_emits {values : List Owl.Individual} {first : Nat} {result : Unit}
    (bound : first < index.expressions.length)
    (done : sameIndividual literalKey nodeLimit values (some first) index = .ok (result, later)) :
    ∃ expressions, values.mapM Owl.Individual.form = some expressions ∧
      index.Emits later (sameIndividualRows (index.tree first) expressions) := by
  induction values generalizing index with
  | nil =>
    obtain ⟨_, rfl⟩ := Conversion.pure_ok done
    exact ⟨[], rfl, .refl wellFormed⟩
  | cons member rest ih =>
    obtain ⟨handle, middle, step, after⟩ := Conversion.bind_ok done
    obtain ⟨_, forth, row, after'⟩ := Conversion.bind_ok after
    obtain ⟨_, back, row', remaining⟩ := Conversion.bind_ok after'
    obtain ⟨expression, form, converted⟩ := convert_converted wellFormed literalKey nodeLimit step
    have hub := known_converted converted.emits bound
    have there := addSubclass_emits converted.emits.wellFormed hub.bound converted.bound row
    have back := addSubclass_emits there.wellFormed (there.extension.lt converted.bound)
      (there.extension.lt hub.bound) row'
    rw [there.extension.tree hub.bound, there.extension.tree converted.bound] at back
    rw [hub.tree_eq, converted.tree_eq] at there back
    have here := converted.emits.silent (there.trans back)
    obtain ⟨expressions, forms, others⟩ := ih here.wellFormed (here.extension.lt bound) remaining
    rw [here.extension.tree bound] at others
    refine ⟨expression :: expressions, ?_, here.trans others⟩
    rw [List.mapM_cons, show member.form = some expression from form, forms]
    rfl

/-- Same individuals emit their rows around the first operand. -/
theorem sameIndividual_emits {values : List Owl.Individual} {result : Unit}
    (done : sameIndividual literalKey nodeLimit values none index = .ok (result, later)) :
    ∃ expressions, values.mapM Owl.Individual.form = some expressions ∧
      index.Emits later (hubRows sameIndividualRows expressions) := by
  cases values with
  | nil =>
    obtain ⟨_, rfl⟩ := Conversion.pure_ok done
    exact ⟨[], rfl, .refl wellFormed⟩
  | cons member rest =>
    obtain ⟨handle, middle, step, remaining⟩ := Conversion.bind_ok done
    obtain ⟨expression, form, converted⟩ := convert_converted wellFormed literalKey nodeLimit step
    obtain ⟨expressions, forms, others⟩ := sameOthers_emits converted.emits.wellFormed converted.bound remaining
    rw [converted.tree_eq] at others
    refine ⟨expression :: expressions, ?_, converted.emits.silent others⟩
    rw [List.mapM_cons, show member.form = some expression from form, forms]
    rfl

theorem equivalentPropertyOthers_emits {values : List Owl.ObjectPropertyExpression} {first : EntityRecord}
    {result : Unit} (named : first.iri ≠ "")
    (done : equivalentObjectProperties values (some first) index = .ok (result, later)) :
    ∃ records, values.mapM Owl.ObjectPropertyExpression.record = some records ∧
      index.Emits later (equivalentPropertyRows first records) := by
  induction values generalizing index with
  | nil =>
    obtain ⟨_, rfl⟩ := Conversion.pure_ok done
    exact ⟨[], rfl, .refl wellFormed⟩
  | cons member rest ih =>
    obtain ⟨converted, middle, step, after⟩ := Conversion.bind_ok done
    obtain ⟨_, forth, row, after'⟩ := Conversion.bind_ok after
    obtain ⟨_, back, row', remaining⟩ := Conversion.bind_ok after'
    obtain ⟨silent, record, _, proper⟩ := objectProperty_recorded wellFormed step
    have singleton : ∀ {other : EntityRecord}, other.iri ≠ "" → ∀ property ∈ [other], property.iri ≠ "" := by
      intro other good property found
      rw [List.mem_singleton.mp found]
      exact good
    have there := addSubproperty_emits silent.wellFormed (singleton named) proper row
    have again := addSubproperty_emits there.wellFormed (singleton proper) named row'
    have here := silent.silent (there.trans again)
    obtain ⟨records, found, others⟩ := ih here.wellFormed remaining
    refine ⟨converted :: records, ?_, here.trans others⟩
    rw [List.mapM_cons, record, found]
    rfl

/-- Equivalent properties emit their rows around the first operand. -/
theorem equivalentObjectProperties_emits {values : List Owl.ObjectPropertyExpression} {result : Unit}
    (done : equivalentObjectProperties values none index = .ok (result, later)) :
    ∃ records, values.mapM Owl.ObjectPropertyExpression.record = some records ∧
      index.Emits later (hubRows equivalentPropertyRows records) := by
  cases values with
  | nil =>
    obtain ⟨_, rfl⟩ := Conversion.pure_ok done
    exact ⟨[], rfl, .refl wellFormed⟩
  | cons member rest =>
    obtain ⟨converted, middle, step, remaining⟩ := Conversion.bind_ok done
    obtain ⟨silent, record, _, proper⟩ := objectProperty_recorded wellFormed step
    obtain ⟨records, found, others⟩ := equivalentPropertyOthers_emits silent.wellFormed proper remaining
    refine ⟨converted :: records, ?_, silent.silent others⟩
    rw [List.mapM_cons, record, found]
    rfl

omit wellFormed in
theorem mapM_reverse {α β : Type} {f : α → Option β} {values : List α} {images : List β}
    (mapped : values.reverse.mapM f = some images) : values.mapM f = some images.reverse := by
  induction values generalizing images with
  | nil =>
    cases mapped
    rfl
  | cons first rest ih =>
    rw [List.reverse_cons, List.mapM_append] at mapped
    obtain ⟨others, tail, after⟩ := Option.bind_eq_some_iff.mp mapped
    obtain ⟨last, head, final⟩ := Option.bind_eq_some_iff.mp after
    rw [List.mapM_cons] at head
    obtain ⟨image, found, single⟩ := Option.bind_eq_some_iff.mp head
    cases single
    cases final
    rw [List.mapM_cons, found, ih tail, List.reverse_append]
    rfl

/-- A recorded chain is the chain of the axiom, its properties named, and nothing is emitted. -/
theorem propertyChain_recorded {value : Owl.SubObjectPropertyExpression} {chain : List EntityRecord}
    (done : propertyChain value index = .ok (chain, later)) :
    index.Emits later [] ∧ value.chain = some chain ∧ ∀ property ∈ chain, property.iri ≠ "" := by
  cases value with
  | property expression =>
    obtain ⟨record, middle, step, final⟩ := Conversion.bind_ok done
    obtain ⟨rfl, rfl⟩ := Conversion.pure_ok final
    obtain ⟨silent, found, _, named⟩ := objectProperty_recorded wellFormed step
    refine ⟨silent, ?_, fun property member => ?_⟩
    · change (do pure [← expression.record]) = some [record]
      rw [found]
      rfl
    · rw [List.mem_singleton.mp member]
      exact named
  | objectPropertyChain properties =>
    obtain ⟨records, middle, steps, after⟩ := Conversion.bind_ok done
    obtain ⟨_, _, guard, after'⟩ := Conversion.bind_ok after
    obtain ⟨_, rfl⟩ := Conversion.require_ok guard
    obtain ⟨_, counted, feature, final⟩ := Conversion.bind_ok after'
    obtain ⟨rfl, rfl⟩ := Conversion.pure_ok final
    obtain ⟨silent, found, named⟩ := objectProperties_recorded wellFormed steps
    refine ⟨silent.silent (addFeature_emits silent.wellFormed feature).1, mapM_reverse found, ?_⟩
    exact fun property member => named property (List.mem_reverse.mp member)

/-- A declaration records its entity and no row. -/
theorem declaration_emits {entity : EntityRecord} {result : Unit}
    (done : declaration entity index = .ok (result, later)) : index.Emits later [] := by
  obtain ⟨kind, iri⟩ := entity
  cases kind with
  | owlClass =>
    obtain ⟨record, _, found, added⟩ := Conversion.bind_ok done
    obtain ⟨rfl, rfl, named⟩ := entityRecord_ok found
    exact (addEntity_emits wellFormed named added).1
  | namedIndividual =>
    obtain ⟨record, _, found, added⟩ := Conversion.bind_ok done
    obtain ⟨rfl, rfl, named⟩ := entityRecord_ok found
    exact (addEntity_emits wellFormed named added).1
  | objectProperty =>
    obtain ⟨record, _, found, after⟩ := Conversion.bind_ok done
    obtain ⟨rfl, rfl, named⟩ := entityRecord_ok found
    obtain ⟨_, middle, added, chain⟩ := Conversion.bind_ok after
    have proper : (⟨.objectProperty, iri⟩ : EntityRecord).iri ≠ "" := named
    have first := (addEntity_emits wellFormed proper added).1
    refine first.silent (addPropertyChain_emits first.wellFormed (fun property member => ?_) chain).1
    rw [List.mem_singleton.mp member]
    exact proper
  | annotationProperty =>
    obtain ⟨_, rfl⟩ := Conversion.pure_ok done
    exact .refl wellFormed
  | dataProperty => cases done
  | datatype => cases done

/-- A property assertion emits its rows. -/
theorem objectPropertyAssertion_emits {property : Owl.ObjectPropertyExpression} {source target : Owl.Individual}
    {result : Unit}
    (done : objectPropertyAssertion literalKey nodeLimit property source target index = .ok (result, later)) :
    ∃ rows, (Owl.AxiomNode.objectPropertyAssertion property source target).rows literalKey = some rows ∧
      index.Emits later rows := by
  obtain ⟨_, asserted, feature, after⟩ := Conversion.bind_ok done
  obtain ⟨sub, middle, step, after'⟩ := Conversion.bind_ok after
  obtain ⟨prop, recorded, found, after''⟩ := Conversion.bind_ok after'
  obtain ⟨filler, targeted, step', afterTarget⟩ := Conversion.bind_ok after''
  obtain ⟨existential, joined, step'', afterExistential⟩ := Conversion.bind_ok afterTarget
  obtain ⟨_, valued, feature', row⟩ := Conversion.bind_ok afterExistential
  have first := (addFeature_emits wellFormed feature).1
  obtain ⟨sourceTree, sourceForm, convertedSource⟩ := convert_converted first.wellFormed literalKey nodeLimit step
  obtain ⟨silent, record, kind, named⟩ := objectProperty_recorded convertedSource.emits.wellFormed found
  obtain ⟨targetTree, targetForm, convertedTarget⟩ := convert_converted silent.wellFormed literalKey nodeLimit step'
  have linked := existential_converted convertedTarget.emits.wellFormed kind named convertedTarget.bound step''
  rw [convertedTarget.tree_eq] at linked
  have last := (addFeature_emits linked.emits.wellFormed feature').1
  have later := ((silent.silent convertedTarget.emits).silent linked.emits).silent last
  have sub' := (convertedSource.then later).after first
  have super' := (((linked.then last).after convertedTarget.emits).after silent).after
    (first.silent convertedSource.emits)
  refine ⟨_, ?_, subclass_emits last.wellFormed sub' super' row⟩
  rw [Owl.AxiomNode.rows, show source.form = _ from sourceForm, record, show target.form = _ from targetForm]
  rfl

/-- A domain emits its rows. -/
theorem objectPropertyDomain_emits {property : Owl.ObjectPropertyExpression} {domain : Owl.ClassExpression}
    {result : Unit}
    (done : objectPropertyDomain literalKey nodeLimit property domain index = .ok (result, later)) :
    ∃ rows, (Owl.AxiomNode.objectPropertyDomain property domain).rows literalKey = some rows ∧
      index.Emits later rows := by
  obtain ⟨prop, recorded, found, after⟩ := Conversion.bind_ok done
  obtain ⟨thing, middle, step, after'⟩ := Conversion.bind_ok after
  obtain ⟨existential, joined, step', after''⟩ := Conversion.bind_ok after'
  obtain ⟨super, last, step'', row⟩ := Conversion.bind_ok after''
  obtain ⟨silent, record, kind, named⟩ := objectProperty_recorded wellFormed found
  have convertedThing := convertThing_converted silent.wellFormed step
  have linked := existential_converted convertedThing.emits.wellFormed kind named convertedThing.bound step'
  rw [convertedThing.tree_eq] at linked
  obtain ⟨domainTree, form, converted⟩ := convertExpression_converted linked.emits.wellFormed step''
  have before := silent.silent convertedThing.emits
  refine ⟨_, ?_, subclass_emits converted.emits.wellFormed ((linked.then converted.emits).after before)
    (converted.after (before.silent linked.emits)) row⟩
  rw [Owl.AxiomNode.rows, record, form]
  rfl

/-- A converted statement has added exactly its normalized rows. -/
theorem convert_emits {node : Owl.AxiomNode} {result : Unit}
    (done : convert literalKey nodeLimit node index = .ok (result, later)) :
    ∃ rows, node.rows literalKey = some rows ∧ index.Emits later rows := by
  cases node with
  | unsupported node => cases done
  | annotated node =>
    obtain ⟨_, rfl⟩ := Conversion.pure_ok done
    exact ⟨[], rfl, .refl wellFormed⟩
  | declaration entity => exact ⟨[], rfl, declaration_emits wellFormed done⟩
  | subClassOf subClass superClass =>
    obtain ⟨sub, middle, step, after⟩ := Conversion.bind_ok done
    obtain ⟨super, last, step', row⟩ := Conversion.bind_ok after
    obtain ⟨subTree, form, converted⟩ := convertExpression_converted wellFormed step
    obtain ⟨superTree, form', converted'⟩ := convertExpression_converted converted.emits.wellFormed step'
    refine ⟨_, ?_, subclass_emits converted'.emits.wellFormed (converted.then converted'.emits)
      (converted'.after converted.emits) row⟩
    rw [Owl.AxiomNode.rows, form, form']
    rfl
  | equivalentClasses expressions =>
    obtain ⟨members, forms, rows⟩ := equivalentClasses_emits wellFormed done
    refine ⟨_, ?_, rows⟩
    rw [Owl.AxiomNode.rows, forms]
    rfl
  | disjointClasses expressions =>
    obtain ⟨_, middle, first, feature⟩ := Conversion.bind_ok done
    obtain ⟨members, forms, rows⟩ := disjoint_emits wellFormed first
    rw [← forms_eq_mapM] at forms
    have both := rows.trans (addFeature_emits rows.wellFormed feature).1
    rw [List.append_nil] at both
    refine ⟨_, ?_, both⟩
    rw [Owl.AxiomNode.rows, forms]
    rfl
  | disjointUnion definedClass expressions =>
    obtain ⟨members, forms, rows, _⟩ := disjointUnion_emits wellFormed done
    refine ⟨_, ?_, rows⟩
    rw [Owl.AxiomNode.rows, forms]
    rfl
  | classAssertion classExpression individual =>
    obtain ⟨sub, middle, step, after⟩ := Conversion.bind_ok done
    obtain ⟨super, last, step', row⟩ := Conversion.bind_ok after
    obtain ⟨subTree, form, converted⟩ := convert_converted wellFormed literalKey nodeLimit step
    obtain ⟨superTree, form', converted'⟩ := convertExpression_converted converted.emits.wellFormed step'
    refine ⟨_, ?_, subclass_emits converted'.emits.wellFormed (converted.then converted'.emits)
      (converted'.after converted.emits) row⟩
    rw [Owl.AxiomNode.rows, show individual.form = some subTree from form, form']
    rfl
  | sameIndividual individuals =>
    obtain ⟨members, forms, rows⟩ := sameIndividual_emits wellFormed done
    refine ⟨_, ?_, rows⟩
    rw [Owl.AxiomNode.rows, forms]
    rfl
  | differentIndividuals individuals =>
    obtain ⟨_, middle, first, feature⟩ := Conversion.bind_ok done
    obtain ⟨members, forms, rows⟩ := disjoint_emits wellFormed first
    rw [← memberForms_eq_mapM] at forms
    have both := rows.trans (addFeature_emits rows.wellFormed feature).1
    rw [List.append_nil] at both
    refine ⟨_, ?_, both⟩
    rw [Owl.AxiomNode.rows, forms]
    rfl
  | objectPropertyAssertion property source target => exact objectPropertyAssertion_emits wellFormed done
  | equivalentObjectProperties properties =>
    obtain ⟨records, found, rows⟩ := equivalentObjectProperties_emits wellFormed done
    refine ⟨_, ?_, rows⟩
    rw [Owl.AxiomNode.rows, found]
    rfl
  | subObjectPropertyOf subProperty superProperty =>
    obtain ⟨chain, middle, step, after⟩ := Conversion.bind_ok done
    obtain ⟨record, recorded, found, row⟩ := Conversion.bind_ok after
    obtain ⟨silent, chained, named⟩ := propertyChain_recorded wellFormed step
    obtain ⟨silent', super, _, proper⟩ := objectProperty_recorded silent.wellFormed found
    have rows := addSubproperty_emits silent'.wellFormed named proper row
    refine ⟨_, ?_, (silent.silent silent').silent rows⟩
    rw [Owl.AxiomNode.rows, chained, super]
    rfl
  | objectPropertyDomain property domain => exact objectPropertyDomain_emits wellFormed done
  | objectPropertyRange property range =>
    obtain ⟨prop, recorded, found, after⟩ := Conversion.bind_ok done
    obtain ⟨handle, middle, step, after'⟩ := Conversion.bind_ok after
    obtain ⟨_, ranged, row, feature⟩ := Conversion.bind_ok after'
    obtain ⟨silent, record, _, named⟩ := objectProperty_recorded wellFormed found
    obtain ⟨expression, form, converted⟩ := convertExpression_converted silent.wellFormed step
    have rows := addPropertyRange_emits converted.emits.wellFormed named converted.bound row
    rw [converted.tree_eq] at rows
    have both := rows.trans (addFeature_emits rows.wellFormed feature).1
    rw [List.append_nil] at both
    refine ⟨_, ?_, (silent.silent converted.emits).silent both⟩
    rw [Owl.AxiomNode.rows, record, form]
    rfl
  | reflexiveObjectProperty property =>
    obtain ⟨_, featured, feature, after⟩ := Conversion.bind_ok done
    obtain ⟨thing, middle, step, after'⟩ := Conversion.bind_ok after
    obtain ⟨prop, recorded, found, after''⟩ := Conversion.bind_ok after'
    obtain ⟨handle, last, step', row⟩ := Conversion.bind_ok after''
    have first := (addFeature_emits wellFormed feature).1
    have convertedThing := convertThing_converted first.wellFormed step
    obtain ⟨silent, record, kind, named⟩ := objectProperty_recorded convertedThing.emits.wellFormed found
    have self := hasSelf_converted silent.wellFormed kind named step'
    refine ⟨_, ?_, subclass_emits self.emits.wellFormed
      ((convertedThing.then (silent.silent self.emits)).after first)
      (self.after ((first.silent convertedThing.emits).silent silent)) row⟩
    rw [Owl.AxiomNode.rows, record]
    rfl
  | transitiveObjectProperty property =>
    obtain ⟨prop, recorded, found, after⟩ := Conversion.bind_ok done
    obtain ⟨_, featured, feature, row⟩ := Conversion.bind_ok after
    obtain ⟨silent, record, _, named⟩ := objectProperty_recorded wellFormed found
    have before := silent.silent (addFeature_emits silent.wellFormed feature).1
    have both : ∀ other ∈ [prop, prop], other.iri ≠ "" := by
      intro other member
      rcases List.mem_pair.mp member with rfl | rfl <;> exact named
    refine ⟨_, ?_, before.silent (addSubproperty_emits before.wellFormed both named row)⟩
    rw [Owl.AxiomNode.rows, record]
    rfl

end

end AxiomConverter

end PyElk
