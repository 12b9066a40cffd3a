import PyElk.Indexing.Obligations
import PyElk.Semantics.Interpretation

namespace PyElk

/-- An interpretation that also reads what has no indexed form. -/
structure OwlInterpretation (Δ : Type u) extends Interpretation Δ where
  anonymousIndividuals : String → Δ
  unsupportedExpressions : Owl.UnsupportedExpression → Set Δ
  unsupportedNodes : Owl.UnsupportedNode → Prop

section

variable {Δ : Type u} (I : Interpretation Δ)

/-- The extension of a node over the extensions of its operands. -/
def Interpretation.denoteNode (tag : ExpressionTag) (entities : List EntityRecord) (operands : List (Set Δ))
    (payload : List UInt8) : Set Δ :=
  match tag, entities, operands with
  | .owlClass, [entity], [] => I.classes entity.iri
  | .individual, [entity], [] => {I.individuals entity.iri}
  | .objectIntersectionOf, [], [first, second] => first ∩ second
  | .objectSomeValuesFrom, [relation], [filler] => {x | ∃ y ∈ filler, I.objectProperties relation.iri x y}
  | .objectHasSelf, [relation], [] => {x | I.objectProperties relation.iri x x}
  | .dataHasValue, [property], [] => I.dataValues property.iri payload
  | .objectComplementOf, [], [negated] => negatedᶜ
  | .objectUnionOf, [], members => {x | ∃ member ∈ members, x ∈ member}
  | _, _, _ => ∅

mutual

def Interpretation.treeExtension : ExpressionTree → Set Δ
  | .node tag entities operands payload => I.denoteNode tag entities (treeExtensions operands) payload

def Interpretation.treeExtensions : List ExpressionTree → List (Set Δ)
  | [] => []
  | first :: rest => treeExtension first :: treeExtensions rest

end

/-- The pairs that a sequence of object properties relates. -/
def Interpretation.chainRelation : List EntityRecord → Δ → Δ → Prop
  | [], x, y => x = y
  | property :: rest, x, y => ∃ z, I.objectProperties property.iri x z ∧ chainRelation rest z y

/-- What a normalized row says. -/
def Interpretation.RowHolds : NormalRow → Prop
  | .subclass sub super => I.treeExtension sub ⊆ I.treeExtension super
  | .equivalent first second => I.treeExtension first = I.treeExtension second
  | .disjoint group => group.Pairwise fun first second => Disjoint (I.treeExtension first) (I.treeExtension second)
  | .subproperty chain super => ∀ x y, I.chainRelation chain x y → I.objectProperties super.iri x y
  | .range property range => ∀ x y, I.objectProperties property.iri x y → y ∈ I.treeExtension range

/-- Every row of a transaction holds. -/
def Interpretation.SatisfiesRows (index : MutableIndex) : Prop := ∀ row ∈ index.rows, I.RowHolds row

end

section

variable {Δ : Type u} (literalKey : Owl.Literal → ElkCompatibilityKey) (I : OwlInterpretation Δ)

def OwlInterpretation.individual : Owl.Individual → Δ
  | .namedIndividual iri => I.individuals iri
  | .anonymousIndividual label => I.anonymousIndividuals label

def OwlInterpretation.relation : Owl.ObjectPropertyExpression → Δ → Δ → Prop
  | .objectProperty iri, x, y => I.objectProperties iri x y
  | .objectInverseOf iri, x, y => I.objectProperties iri y x

def OwlInterpretation.composition : List Owl.ObjectPropertyExpression → Δ → Δ → Prop
  | [], x, y => x = y
  | property :: rest, x, y => ∃ z, I.relation property x z ∧ composition rest z y

def OwlInterpretation.subRelation : Owl.SubObjectPropertyExpression → Δ → Δ → Prop
  | .property expression => I.relation expression
  | .objectPropertyChain properties => I.composition properties

mutual

/-- The extension of a class expression. A literal counts through its private key. -/
def OwlInterpretation.extension : Owl.ClassExpression → Set Δ
  | .owlClass iri => I.classes iri
  | .objectIntersectionOf operands => {x | ∀ operand ∈ extensions operands, x ∈ operand}
  | .objectUnionOf operands => {x | ∃ operand ∈ extensions operands, x ∈ operand}
  | .objectComplementOf operand => (extension operand)ᶜ
  | .objectOneOf individuals => {x | ∃ individual ∈ individuals, x = I.individual individual}
  | .objectSomeValuesFrom property filler => {x | ∃ y ∈ extension filler, I.relation property x y}
  | .objectHasValue property value => {x | I.relation property x (I.individual value)}
  | .objectHasSelf property => {x | I.relation property x x}
  | .dataHasValue property value => I.dataValues property (literalKey value).payload
  | .unsupported expression => I.unsupportedExpressions expression

def OwlInterpretation.extensions : List Owl.ClassExpression → List (Set Δ)
  | [] => []
  | first :: rest => extension first :: extensions rest

end

/-- What a statement says. -/
def OwlInterpretation.Satisfies : Owl.AxiomNode → Prop
  | .declaration _ | .annotated _ => True
  | .subClassOf subClass superClass => I.extension literalKey subClass ⊆ I.extension literalKey superClass
  | .equivalentClasses expressions =>
    ∀ first ∈ expressions, ∀ second ∈ expressions, I.extension literalKey first = I.extension literalKey second
  | .disjointClasses expressions =>
    expressions.Pairwise fun first second => Disjoint (I.extension literalKey first) (I.extension literalKey second)
  | .disjointUnion definedClass expressions =>
    (I.classes definedClass = {x | ∃ expression ∈ expressions, x ∈ I.extension literalKey expression}) ∧
      expressions.Pairwise fun first second => Disjoint (I.extension literalKey first) (I.extension literalKey second)
  | .classAssertion classExpression individual => I.individual individual ∈ I.extension literalKey classExpression
  | .sameIndividual individuals =>
    ∀ first ∈ individuals, ∀ second ∈ individuals, I.individual first = I.individual second
  | .differentIndividuals individuals =>
    individuals.Pairwise fun first second => I.individual first ≠ I.individual second
  | .objectPropertyAssertion property source target => I.relation property (I.individual source) (I.individual target)
  | .equivalentObjectProperties properties =>
    ∀ first ∈ properties, ∀ second ∈ properties, I.relation first = I.relation second
  | .subObjectPropertyOf subProperty superProperty =>
    ∀ x y, I.subRelation subProperty x y → I.relation superProperty x y
  | .objectPropertyDomain property domain => ∀ x y, I.relation property x y → x ∈ I.extension literalKey domain
  | .objectPropertyRange property range => ∀ x y, I.relation property x y → y ∈ I.extension literalKey range
  | .reflexiveObjectProperty property => ∀ x, I.relation property x x
  | .transitiveObjectProperty property => ∀ x y z, I.relation property x y → I.relation property y z →
    I.relation property x z
  | .unsupported node => I.unsupportedNodes node

end

section

variable {Δ : Type u} {literalKey : Owl.Literal → ElkCompatibilityKey} {I : OwlInterpretation Δ}

theorem Interpretation.treeExtensions_eq (I : Interpretation Δ) (trees : List ExpressionTree) :
    I.treeExtensions trees = trees.map I.treeExtension := by
  induction trees with
  | nil => rfl
  | cons first rest ih => rw [treeExtensions, ih, List.map_cons]

@[simp] theorem Interpretation.extension_classTree (I : Interpretation Δ) (iri : String) :
    I.treeExtension (classTree iri) = I.classes iri := rfl

@[simp] theorem Interpretation.extension_thing (I : Interpretation Δ) :
    I.treeExtension thingTree = Set.univ := I.thing

@[simp] theorem Interpretation.extension_nothing (I : Interpretation Δ) : I.treeExtension nothingTree = ∅ := I.nothing

@[simp] theorem Interpretation.extension_individualTree (I : Interpretation Δ) (iri : String) :
    I.treeExtension (individualTree iri) = {I.individuals iri} := rfl

@[simp] theorem Interpretation.extension_intersectionTree (I : Interpretation Δ) (first second : ExpressionTree) :
    I.treeExtension (intersectionTree first second) = I.treeExtension first ∩ I.treeExtension second := rfl

@[simp] theorem Interpretation.extension_someTree (I : Interpretation Δ) (property : EntityRecord)
    (filler : ExpressionTree) : I.treeExtension (someTree property filler) =
      {x | ∃ y ∈ I.treeExtension filler, I.objectProperties property.iri x y} := rfl

@[simp] theorem Interpretation.extension_hasSelfTree (I : Interpretation Δ) (property : EntityRecord) :
    I.treeExtension (hasSelfTree property) = {x | I.objectProperties property.iri x x} := rfl

/-- The fold of an intersection keeps what all of its members keep. -/
theorem Interpretation.extension_fold (I : Interpretation Δ) (first : ExpressionTree) (rest : List ExpressionTree) :
    I.treeExtension (rest.foldl intersectionTree first) =
      {x | ∀ member ∈ first :: rest, x ∈ I.treeExtension member} := by
  induction rest generalizing first with
  | nil =>
    ext x
    simp
  | cons second others ih =>
    rw [List.foldl_cons, ih]
    ext x
    simp [and_assoc]

/-- The tree of a union keeps what one of its members keeps, also for none and for one. -/
theorem Interpretation.extension_union (I : Interpretation Δ) (members : List ExpressionTree) :
    I.treeExtension (unionForm members) = {x | ∃ member ∈ members, x ∈ I.treeExtension member} := by
  match members with
  | [] =>
    ext x
    simp [unionForm, I.nothing]
  | [member] =>
    ext x
    simp [unionForm]
  | first :: second :: rest =>
    ext x
    simp [unionForm, treeExtension, denoteNode, I.treeExtensions_eq]

theorem OwlInterpretation.extensions_eq (expressions : List Owl.ClassExpression) :
    I.extensions literalKey expressions = expressions.map (I.extension literalKey) := by
  induction expressions with
  | nil => rfl
  | cons first rest ih => rw [extensions, ih, List.map_cons]

/-- The nominal of an individual keeps the individual alone. -/
theorem OwlInterpretation.individual_form {value : Owl.Individual} {tree : ExpressionTree}
    (form : value.form = some tree) : I.treeExtension tree = {I.individual value} := by
  cases value with
  | namedIndividual iri =>
    cases form
    exact I.extension_individualTree iri
  | anonymousIndividual label => cases form

/-- The record of a property is read as the property itself. -/
theorem OwlInterpretation.relation_record {property : Owl.ObjectPropertyExpression} {record : EntityRecord}
    (found : property.record = some record) (x y : Δ) :
    I.objectProperties record.iri x y ↔ I.relation property x y := by
  cases property with
  | objectProperty iri =>
    cases found
    rfl
  | objectInverseOf iri => cases found

theorem OwlInterpretation.individual_forms {values : List Owl.Individual} {trees : List ExpressionTree}
    (forms : values.mapM Owl.Individual.form = some trees) :
    trees.map I.treeExtension = values.map fun value => {I.individual value} := by
  induction values generalizing trees with
  | nil =>
    cases forms
    rfl
  | cons first rest ih =>
    rw [List.mapM_cons] at forms
    obtain ⟨tree, form, after⟩ := Option.bind_eq_some_iff.mp forms
    obtain ⟨others, tail, last⟩ := Option.bind_eq_some_iff.mp after
    cases last
    rw [List.map_cons, List.map_cons, individual_form form, ih tail]

mutual

/-- Normalisation keeps the extension of an expression. -/
theorem OwlInterpretation.extension_form (value : Owl.ClassExpression) {tree : ExpressionTree}
    (form : value.form literalKey = some tree) : I.treeExtension tree = I.extension literalKey value := by
  match value with
  | .owlClass iri =>
    cases form
    exact I.extension_classTree iri
  | .objectIntersectionOf operands =>
    rw [Owl.ClassExpression.form] at form
    obtain ⟨trees, forms, folded⟩ := Option.bind_eq_some_iff.mp form
    have same := extension_forms operands forms
    rw [extension, ← same]
    cases trees with
    | nil =>
      cases folded
      ext x
      simp [I.thing]
    | cons first rest =>
      cases folded
      rw [I.extension_fold]
      ext x
      simp
  | .objectUnionOf operands =>
    rw [Owl.ClassExpression.form] at form
    obtain ⟨trees, forms, folded⟩ := Option.bind_eq_some_iff.mp form
    cases folded
    rw [extension, ← extension_forms operands forms, I.extension_union]
    ext x
    simp
  | .objectComplementOf operand =>
    rw [Owl.ClassExpression.form] at form
    obtain ⟨negated, found, folded⟩ := Option.bind_eq_some_iff.mp form
    cases folded
    rw [extension, ← extension_form operand found]
    rfl
  | .objectOneOf individuals =>
    rw [Owl.ClassExpression.form] at form
    obtain ⟨trees, forms, folded⟩ := Option.bind_eq_some_iff.mp form
    cases folded
    have members : ∀ x, (∃ member ∈ trees, x ∈ I.treeExtension member) ↔
        ∃ member ∈ trees.map I.treeExtension, x ∈ member := fun x => by simp
    rw [extension, I.extension_union]
    ext x
    rw [Set.mem_ofPred_eq, members, individual_forms forms]
    simp
  | .objectSomeValuesFrom property filler =>
    rw [Owl.ClassExpression.form] at form
    obtain ⟨record, found, after⟩ := Option.bind_eq_some_iff.mp form
    obtain ⟨tree', filled, folded⟩ := Option.bind_eq_some_iff.mp after
    cases folded
    rw [extension, ← extension_form filler filled]
    ext x
    simp [relation_record found]
  | .objectHasValue property member =>
    rw [Owl.ClassExpression.form] at form
    obtain ⟨record, found, after⟩ := Option.bind_eq_some_iff.mp form
    obtain ⟨tree', filled, folded⟩ := Option.bind_eq_some_iff.mp after
    cases folded
    rw [extension]
    ext x
    simp [relation_record found, individual_form filled]
  | .objectHasSelf property =>
    rw [Owl.ClassExpression.form] at form
    obtain ⟨record, found, folded⟩ := Option.map_eq_some_iff.mp form
    cases folded
    rw [extension]
    ext x
    simp [relation_record found]
  | .dataHasValue property literal =>
    cases form
    rfl
  | .unsupported expression => cases form

/-- The trees of a list of class expressions keep what the expressions keep, one by one. -/
theorem OwlInterpretation.extension_forms (values : List Owl.ClassExpression) {trees : List ExpressionTree}
    (forms : Owl.ClassExpression.forms literalKey values = some trees) :
    trees.map I.treeExtension = I.extensions literalKey values := by
  match values with
  | [] =>
    cases forms
    rfl
  | first :: rest =>
    rw [Owl.ClassExpression.forms] at forms
    obtain ⟨tree, form, after⟩ := Option.bind_eq_some_iff.mp forms
    obtain ⟨others, tail, last⟩ := Option.bind_eq_some_iff.mp after
    cases last
    rw [List.map_cons, extensions, extension_form first form, extension_forms rest tail]

end

/-- A relation between the images of a list depends on the images alone. -/
theorem pairwise_images {α β γ : Type*} {left : List α} {right : List β} {f : α → γ} {g : β → γ}
    (same : left.map f = right.map g) (related : γ → γ → Prop) :
    (left.Pairwise fun a b => related (f a) (f b)) ↔ right.Pairwise fun a b => related (g a) (g b) := by
  rw [← List.pairwise_map, same, List.pairwise_map]

/-- All values agree as soon as all agree with the hub. -/
theorem hub_iff {α : Type*} (first : α) (rest : List α) :
    (∀ other ∈ rest, first = other) ↔ ∀ a ∈ first :: rest, ∀ b ∈ first :: rest, a = b := by
  constructor
  · intro hub
    have all : ∀ a ∈ first :: rest, first = a := by
      intro a member
      rcases List.mem_cons.mp member with rfl | later
      · rfl
      · exact hub a later
    exact fun a left b right => (all a left).symm.trans (all b right)
  · exact fun all other member => all first List.mem_cons_self other (List.mem_cons_of_mem _ member)

/-- All images are equal when they equal the first one. -/
theorem hub_images {α β γ : Type*} {first : α} {rest : List α} {right : List β} {f : α → γ} {g : β → γ}
    (same : (first :: rest).map f = right.map g) :
    (∀ other ∈ rest, f first = f other) ↔ ∀ a ∈ right, ∀ b ∈ right, g a = g b := by
  have images := hub_iff (f first) (rest.map f)
  rw [← List.map_cons, same] at images
  rw [← List.forall_mem_map, images]
  simp only [List.forall_mem_map]

section

variable (I : Interpretation Δ)

/-- The rows of an equivalence hold when the first expression keeps what each of the others keeps. -/
theorem Interpretation.equivalentRows_hold (first : ExpressionTree) (others : List ExpressionTree) :
    (∀ row ∈ equivalentRows first others, I.RowHolds row) ↔
      ∀ other ∈ others, I.treeExtension first = I.treeExtension other := by
  unfold equivalentRows
  rw [List.forall_mem_map]
  refine forall₂_congr fun other _ => ?_
  split
  · exact eq_comm
  · exact Iff.rfl

theorem Interpretation.disjointPairRows_hold (members : List ExpressionTree) :
    (∀ row ∈ disjointPairRows members, I.RowHolds row) ↔
      members.Pairwise fun first second => Disjoint (I.treeExtension first) (I.treeExtension second) := by
  induction members with
  | nil => exact ⟨fun _ => List.Pairwise.nil, fun _ row member => absurd member List.not_mem_nil⟩
  | cons first rest ih =>
    rw [disjointPairRows, List.forall_mem_append, ih, List.forall_mem_map, List.pairwise_cons]
    refine and_congr_left fun _ => forall₂_congr fun second _ => ?_
    simp only [RowHolds, extension_intersectionTree, extension_nothing, Set.subset_empty_iff,
      Set.disjoint_iff_inter_eq_empty]

/-- Pairwise or as one group, the rows of a disjointness hold when its members are disjoint in pairs. -/
theorem Interpretation.disjointRows_hold (members : List ExpressionTree) :
    (∀ row ∈ disjointRows members, I.RowHolds row) ↔
      members.Pairwise fun first second => Disjoint (I.treeExtension first) (I.treeExtension second) := by
  unfold disjointRows
  split
  · exact List.forall_mem_singleton
  · exact I.disjointPairRows_hold members

theorem Interpretation.sameIndividualRows_hold (first : ExpressionTree) (others : List ExpressionTree) :
    (∀ row ∈ sameIndividualRows first others, I.RowHolds row) ↔
      ∀ other ∈ others, I.treeExtension first = I.treeExtension other := by
  unfold sameIndividualRows
  rw [List.forall_mem_flatMap]
  refine forall₂_congr fun other _ => ?_
  simp only [List.mem_cons, List.not_mem_nil, or_false, forall_eq_or_imp, forall_eq, RowHolds]
  exact Set.Subset.antisymm_iff.symm

/-- The rows of an equivalence of properties hold when the properties are read alike. -/
theorem Interpretation.equivalentPropertyRows_hold (first : EntityRecord) (others : List EntityRecord) :
    (∀ row ∈ equivalentPropertyRows first others, I.RowHolds row) ↔
      ∀ other ∈ others, I.objectProperties first.iri = I.objectProperties other.iri := by
  unfold equivalentPropertyRows
  rw [List.forall_mem_flatMap]
  refine forall₂_congr fun other _ => ?_
  simp only [List.mem_cons, List.not_mem_nil, or_false, forall_eq_or_imp, forall_eq, RowHolds, chainRelation,
    exists_eq_right]
  constructor
  · rintro ⟨forth, back⟩
    funext x y
    exact propext ⟨forth x y, back x y⟩
  · intro same
    rw [same]
    exact ⟨fun _ _ related => related, fun _ _ related => related⟩

end

theorem OwlInterpretation.relations_records {values : List Owl.ObjectPropertyExpression} {records : List EntityRecord}
    (found : values.mapM Owl.ObjectPropertyExpression.record = some records) :
    records.map (fun record => I.objectProperties record.iri) = values.map I.relation := by
  induction values generalizing records with
  | nil =>
    cases found
    rfl
  | cons first rest ih =>
    rw [List.mapM_cons] at found
    obtain ⟨record, head, after⟩ := Option.bind_eq_some_iff.mp found
    obtain ⟨others, tail, last⟩ := Option.bind_eq_some_iff.mp after
    cases last
    rw [List.map_cons, List.map_cons, ih tail, show I.objectProperties record.iri = I.relation first from
      funext₂ fun x y => propext (relation_record head x y)]

theorem OwlInterpretation.composition_records {values : List Owl.ObjectPropertyExpression}
    {records : List EntityRecord}
    (found : values.mapM Owl.ObjectPropertyExpression.record = some records) (x y : Δ) :
    I.chainRelation records x y ↔ I.composition values x y := by
  induction values generalizing records x with
  | nil =>
    cases found
    exact Iff.rfl
  | cons first rest ih =>
    rw [List.mapM_cons] at found
    obtain ⟨record, head, after⟩ := Option.bind_eq_some_iff.mp found
    obtain ⟨others, tail, last⟩ := Option.bind_eq_some_iff.mp after
    cases last
    exact exists_congr fun z => and_congr (relation_record head x z) (ih tail z)

/-- The chain of a sub-property expression is read as the composition it names. -/
theorem OwlInterpretation.subRelation_chain {value : Owl.SubObjectPropertyExpression} {chain : List EntityRecord}
    (found : value.chain = some chain) (x y : Δ) : I.chainRelation chain x y ↔ I.subRelation value x y := by
  cases value with
  | property expression =>
    obtain ⟨record, head, last⟩ := Option.bind_eq_some_iff.mp found
    cases last
    simp only [Interpretation.chainRelation, exists_eq_right, subRelation, relation_record head]
  | objectPropertyChain properties => exact composition_records found x y

/-- The rows of a statement say what it says, a disjoint union of two or more
members apart. -/
theorem OwlInterpretation.rows_hold {node : Owl.AxiomNode} {rows : List NormalRow}
    (normal : node.rows literalKey = some rows)
    (complete : ∀ definedClass expressions, node = .disjointUnion definedClass expressions → expressions.length < 2) :
    (∀ row ∈ rows, I.RowHolds row) ↔ I.Satisfies literalKey node := by
  cases node with
  | unsupported node => cases normal
  | declaration entity =>
    cases normal
    exact ⟨fun _ => trivial, fun _ row member => absurd member List.not_mem_nil⟩
  | annotated node =>
    cases normal
    exact ⟨fun _ => trivial, fun _ row member => absurd member List.not_mem_nil⟩
  | subClassOf subClass superClass =>
    obtain ⟨sub, form, after⟩ := Option.bind_eq_some_iff.mp normal
    obtain ⟨super, form', last⟩ := Option.bind_eq_some_iff.mp after
    cases last
    rw [List.forall_mem_singleton, Interpretation.RowHolds, extension_form subClass form,
      extension_form superClass form']
    exact Iff.rfl
  | equivalentClasses expressions =>
    obtain ⟨trees, forms, last⟩ := Option.map_eq_some_iff.mp normal
    cases last
    have same := extension_forms (I := I) expressions forms
    rw [extensions_eq] at same
    cases trees with
    | nil =>
      rw [List.map_nil, eq_comm, List.map_eq_nil_iff] at same
      subst same
      exact ⟨fun _ first member => absurd member List.not_mem_nil, fun _ row member => absurd member List.not_mem_nil⟩
    | cons first rest => exact (I.equivalentRows_hold first rest).trans (hub_images same)
  | disjointClasses expressions =>
    obtain ⟨trees, forms, last⟩ := Option.map_eq_some_iff.mp normal
    cases last
    have same := extension_forms (I := I) expressions forms
    rw [extensions_eq] at same
    exact (I.disjointRows_hold trees).trans (pairwise_images same Disjoint)
  | disjointUnion definedClass expressions =>
    obtain ⟨trees, forms, last⟩ := Option.bind_eq_some_iff.mp normal
    cases last
    have same := extension_forms (I := I) expressions forms
    rw [extensions_eq] at same
    rw [List.forall_mem_append, I.disjointRows_hold, pairwise_images same Disjoint, and_comm]
    refine and_congr_left fun _ => ?_
    match expressions, complete definedClass expressions rfl with
    | [], _ =>
      cases forms
      simp [disjointUnionRows, Interpretation.RowHolds]
    | [member], _ =>
      obtain ⟨tree, form, after⟩ := Option.bind_eq_some_iff.mp forms
      cases after
      simp [disjointUnionRows, Interpretation.RowHolds, extension_form member form]
  | classAssertion classExpression individual =>
    obtain ⟨sub, form, after⟩ := Option.bind_eq_some_iff.mp normal
    obtain ⟨super, form', last⟩ := Option.bind_eq_some_iff.mp after
    cases last
    rw [List.forall_mem_singleton, Interpretation.RowHolds, individual_form form,
      extension_form classExpression form']
    exact Set.singleton_subset_iff
  | sameIndividual individuals =>
    obtain ⟨trees, forms, last⟩ := Option.map_eq_some_iff.mp normal
    cases last
    have same := individual_forms (I := I) forms
    have reading : I.Satisfies literalKey (.sameIndividual individuals) ↔
        ∀ first ∈ individuals, ∀ second ∈ individuals,
          ({I.individual first} : Set Δ) = {I.individual second} := by
      simp only [Set.singleton_eq_singleton_iff]
      exact Iff.rfl
    rw [reading]
    cases trees with
    | nil =>
      rw [List.map_nil, eq_comm, List.map_eq_nil_iff] at same
      subst same
      exact ⟨fun _ first member => absurd member List.not_mem_nil, fun _ row member => absurd member List.not_mem_nil⟩
    | cons first rest => exact (I.sameIndividualRows_hold first rest).trans (hub_images same)
  | differentIndividuals individuals =>
    obtain ⟨trees, forms, last⟩ := Option.map_eq_some_iff.mp normal
    cases last
    have same := individual_forms (I := I) forms
    rw [I.disjointRows_hold, pairwise_images same Disjoint]
    simp only [Set.disjoint_singleton]
    exact Iff.rfl
  | objectPropertyAssertion property source target =>
    obtain ⟨sub, form, after⟩ := Option.bind_eq_some_iff.mp normal
    obtain ⟨record, found, after'⟩ := Option.bind_eq_some_iff.mp after
    obtain ⟨filler, form', last⟩ := Option.bind_eq_some_iff.mp after'
    cases last
    rw [List.forall_mem_singleton, Interpretation.RowHolds, individual_form form, Interpretation.extension_someTree,
      individual_form form', Set.singleton_subset_iff]
    simp [Satisfies, relation_record found]
  | equivalentObjectProperties properties =>
    obtain ⟨records, found, last⟩ := Option.map_eq_some_iff.mp normal
    cases last
    have same := relations_records (I := I) found
    cases records with
    | nil =>
      rw [List.map_nil, eq_comm, List.map_eq_nil_iff] at same
      subst same
      exact ⟨fun _ first member => absurd member List.not_mem_nil, fun _ row member => absurd member List.not_mem_nil⟩
    | cons first rest => exact (I.equivalentPropertyRows_hold first rest).trans (hub_images same)
  | subObjectPropertyOf subProperty superProperty =>
    obtain ⟨chain, found, after⟩ := Option.bind_eq_some_iff.mp normal
    obtain ⟨record, super, last⟩ := Option.bind_eq_some_iff.mp after
    cases last
    rw [List.forall_mem_singleton, Interpretation.RowHolds]
    simp only [subRelation_chain found, relation_record super]
    exact Iff.rfl
  | objectPropertyDomain property domain =>
    obtain ⟨record, found, after⟩ := Option.bind_eq_some_iff.mp normal
    obtain ⟨tree, form, last⟩ := Option.bind_eq_some_iff.mp after
    cases last
    rw [List.forall_mem_singleton, Interpretation.RowHolds, extension_form domain form,
      Interpretation.extension_someTree, Interpretation.extension_thing]
    simp only [relation_record found, Set.mem_univ, true_and]
    exact ⟨fun included x y related => included ⟨y, related⟩, fun holds x ⟨y, related⟩ => holds x y related⟩
  | objectPropertyRange property range =>
    obtain ⟨record, found, after⟩ := Option.bind_eq_some_iff.mp normal
    obtain ⟨tree, form, last⟩ := Option.bind_eq_some_iff.mp after
    cases last
    rw [List.forall_mem_singleton, Interpretation.RowHolds, extension_form range form]
    simp only [relation_record found]
    exact Iff.rfl
  | reflexiveObjectProperty property =>
    obtain ⟨record, found, last⟩ := Option.bind_eq_some_iff.mp normal
    cases last
    rw [List.forall_mem_singleton, Interpretation.RowHolds, Interpretation.extension_thing,
      Interpretation.extension_hasSelfTree, Set.univ_subset_iff, Set.eq_univ_iff_forall]
    simp only [relation_record found, Set.mem_ofPred_eq]
    exact Iff.rfl
  | transitiveObjectProperty property =>
    obtain ⟨record, found, last⟩ := Option.bind_eq_some_iff.mp normal
    cases last
    rw [List.forall_mem_singleton, Interpretation.RowHolds]
    simp only [Interpretation.chainRelation, exists_eq_right, relation_record found]
    exact ⟨fun closed x y z first second => closed x z ⟨y, first, second⟩,
      fun transitive x z ⟨y, first, second⟩ => transitive x y z first second⟩

section

variable {α : Type} {form : α → Option ExpressionTree} {meaning : α → Set Δ}

/-- The obligations of a disjointness hold when the meanings are disjoint in pairs. -/
theorem Interpretation.disjointGoals_hold (I : Interpretation Δ)
    (sound : ∀ value tree, form value = some tree → I.treeExtension tree = meaning value) {values : List α}
    {goals : List (ExpressionTree × ExpressionTree)} (found : disjointGoals form values = some goals) :
    (∀ goal ∈ goals, I.treeExtension goal.1 ⊆ I.treeExtension goal.2) ↔
      values.Pairwise fun first second => Disjoint (meaning first) (meaning second) := by
  have row : ∀ {first : α} {seconds : List α} {goals : List (ExpressionTree × ExpressionTree)},
      (seconds.mapM fun second => do
        pure (intersectionTree (← form first) (← form second), nothingTree)) = some goals →
      ((∀ goal ∈ goals, I.treeExtension goal.1 ⊆ I.treeExtension goal.2) ↔
        ∀ second ∈ seconds, Disjoint (meaning first) (meaning second)) := by
    intro first seconds goals found
    induction seconds generalizing goals with
    | nil =>
      cases found
      exact ⟨fun _ second member => absurd member List.not_mem_nil,
        fun _ goal member => absurd member List.not_mem_nil⟩
    | cons second rest ih =>
      rw [List.mapM_cons] at found
      obtain ⟨goal, head, after⟩ := Option.bind_eq_some_iff.mp found
      obtain ⟨others, tail, last⟩ := Option.bind_eq_some_iff.mp after
      obtain ⟨left, leftForm, after'⟩ := Option.bind_eq_some_iff.mp head
      obtain ⟨right, rightForm, last'⟩ := Option.bind_eq_some_iff.mp after'
      cases last
      cases last'
      rw [List.forall_mem_cons, List.forall_mem_cons, ih tail]
      refine and_congr_left fun _ => ?_
      rw [extension_intersectionTree, extension_nothing, sound first left leftForm, sound second right rightForm,
        Set.subset_empty_iff, Set.disjoint_iff_inter_eq_empty]
  induction values generalizing goals with
  | nil =>
    cases found
    exact ⟨fun _ => List.Pairwise.nil, fun _ goal member => absurd member List.not_mem_nil⟩
  | cons first rest ih =>
    rw [disjointGoals] at found
    obtain ⟨here, head, after⟩ := Option.bind_eq_some_iff.mp found
    obtain ⟨others, tail, last⟩ := Option.bind_eq_some_iff.mp after
    cases last
    rw [List.forall_mem_append, List.pairwise_cons]
    exact and_congr (row head) (ih tail)

/-- The obligations of an equivalence, a cycle of inclusions, hold when all the meanings are equal. -/
theorem Interpretation.cycleGoals_hold (I : Interpretation Δ)
    (sound : ∀ value tree, form value = some tree → I.treeExtension tree = meaning value) {previous : α}
    {values : List α} {goals : List (ExpressionTree × ExpressionTree)}
    (found : cycleGoals form previous values = some goals) :
    (∀ goal ∈ goals, I.treeExtension goal.1 ⊆ I.treeExtension goal.2) ↔
      (previous :: values).IsChain fun first second => meaning first ⊆ meaning second := by
  induction values generalizing previous goals with
  | nil =>
    cases found
    exact ⟨fun _ => .singleton _, fun _ goal member => absurd member List.not_mem_nil⟩
  | cons current rest ih =>
    rw [cycleGoals] at found
    obtain ⟨sub, subForm, after⟩ := Option.bind_eq_some_iff.mp found
    obtain ⟨super, superForm, after'⟩ := Option.bind_eq_some_iff.mp after
    obtain ⟨others, tail, last⟩ := Option.bind_eq_some_iff.mp after'
    cases last
    rw [List.forall_mem_cons, ih tail, List.isChain_cons_cons, sound previous sub subForm,
      sound current super superForm]

/-- A chain of inclusions that starts at the last of its values makes them all equal. -/
theorem cycle_iff {previous : α} {values : List α} (last : values.getLast? = some previous) :
    ((previous :: values).IsChain fun first second => meaning first ⊆ meaning second) ↔
      ∀ first ∈ values, ∀ second ∈ values, meaning first = meaning second := by
  obtain ⟨initial, rfl⟩ := List.getLast?_eq_some_iff.mp last
  have trans : IsTrans α fun first second => meaning first ⊆ meaning second := ⟨fun _ _ _ => Set.Subset.trans⟩
  constructor
  · intro chain
    obtain ⟨above, ordered⟩ := List.pairwise_cons.mp (List.isChain_iff_pairwise.mp chain)
    have below := (List.pairwise_append.mp ordered).2.2
    have all : ∀ value ∈ initial ++ [previous], meaning value = meaning previous := by
      intro value member
      rcases List.mem_append.mp member with early | final
      · exact Set.Subset.antisymm (below value early previous (List.mem_singleton_self _)) (above value member)
      · rw [List.mem_singleton.mp final]
    exact fun first left second right => (all first left).trans (all second right).symm
  · intro same
    have all : ∀ value ∈ previous :: (initial ++ [previous]), value ∈ initial ++ [previous] := by
      intro value member
      rcases List.mem_cons.mp member with rfl | found
      · exact List.mem_append_right _ (List.mem_singleton_self _)
      · exact found
    refine List.isChain_iff_pairwise.mpr (List.pairwise_of_forall_mem_list fun first left second right => ?_)
    exact (same first (all first left) second (all second right)).subset

end

/-- The obligations of an entailment query say what its statement says. -/
theorem OwlInterpretation.goals_hold {node : Owl.AxiomNode} {goals : List (ExpressionTree × ExpressionTree)}
    (normal : node.goals literalKey = some goals) :
    (∀ goal ∈ goals, I.treeExtension goal.1 ⊆ I.treeExtension goal.2) ↔ I.Satisfies literalKey node := by
  cases node with
  | subClassOf subClass superClass =>
    obtain ⟨sub, form, after⟩ := Option.bind_eq_some_iff.mp normal
    obtain ⟨super, form', last⟩ := Option.bind_eq_some_iff.mp after
    cases last
    rw [List.forall_mem_singleton, extension_form subClass form, extension_form superClass form']
    exact Iff.rfl
  | classAssertion classExpression individual =>
    obtain ⟨sub, form, after⟩ := Option.bind_eq_some_iff.mp normal
    obtain ⟨super, form', last⟩ := Option.bind_eq_some_iff.mp after
    cases last
    rw [List.forall_mem_singleton, individual_form form, extension_form classExpression form']
    exact Set.singleton_subset_iff
  | objectPropertyAssertion property source target =>
    obtain ⟨sub, form, after⟩ := Option.bind_eq_some_iff.mp normal
    obtain ⟨record, found, after'⟩ := Option.bind_eq_some_iff.mp after
    obtain ⟨filler, form', last⟩ := Option.bind_eq_some_iff.mp after'
    cases last
    rw [List.forall_mem_singleton, individual_form form, Interpretation.extension_someTree, individual_form form',
      Set.singleton_subset_iff]
    simp [Satisfies, relation_record found]
  | objectPropertyDomain property domain =>
    obtain ⟨record, found, after⟩ := Option.bind_eq_some_iff.mp normal
    obtain ⟨tree, form, last⟩ := Option.bind_eq_some_iff.mp after
    cases last
    rw [List.forall_mem_singleton, extension_form domain form, Interpretation.extension_someTree,
      Interpretation.extension_thing]
    simp only [relation_record found, Set.mem_univ, true_and]
    exact ⟨fun included x y related => included ⟨y, related⟩, fun holds x ⟨y, related⟩ => holds x y related⟩
  | disjointClasses expressions =>
    exact I.disjointGoals_hold (fun value tree form => extension_form value form) normal
  | differentIndividuals individuals =>
    have meaning : ∀ (value : Owl.Individual) (tree : ExpressionTree), value.form = some tree →
        I.treeExtension tree = {I.individual value} := fun value tree form => individual_form form
    rw [I.disjointGoals_hold meaning normal]
    simp only [Set.disjoint_singleton]
    exact Iff.rfl
  | equivalentClasses expressions =>
    obtain ⟨previous, last, found⟩ := Option.bind_eq_some_iff.mp normal
    exact (I.cycleGoals_hold (fun value tree form => extension_form value form) found).trans (cycle_iff last)
  | sameIndividual individuals =>
    obtain ⟨previous, last, found⟩ := Option.bind_eq_some_iff.mp normal
    have meaning : ∀ (value : Owl.Individual) (tree : ExpressionTree), value.form = some tree →
        I.treeExtension tree = {I.individual value} := fun value tree form => individual_form form
    rw [I.cycleGoals_hold meaning found, cycle_iff last]
    simp only [Set.singleton_eq_singleton_iff]
    exact Iff.rfl
  | declaration entity => cases normal
  | disjointUnion definedClass expressions => cases normal
  | equivalentObjectProperties properties => cases normal
  | subObjectPropertyOf subProperty superProperty => cases normal
  | objectPropertyRange property range => cases normal
  | reflexiveObjectProperty property => cases normal
  | transitiveObjectProperty property => cases normal
  | annotated node => cases normal
  | unsupported node => cases normal

end

/-- Normalisation preserves meaning. A converted statement holds in an interpretation
exactly when the rows it has added do: the recorded feature of a disjoint union of two
or more members is the only one whose rows say less. The obligations of a converted
entailment query hold exactly when its statement does. -/
theorem conversion_preserves_meaning {Δ : Type u} (literalKey : Owl.Literal → ElkCompatibilityKey) (nodeLimit : Nat)
    (I : OwlInterpretation Δ) :
    (∀ (node : Owl.AxiomNode) (transaction : MutableIndex),
      AxiomConverter.convert literalKey nodeLimit node {} = .ok ((), transaction) →
      transaction.featureCounts.getD (featureIndex "DISJOINT_UNION") 0 = 0 →
        (I.SatisfiesRows transaction ↔ I.Satisfies literalKey node)) ∧
    ∀ (signature : List EntityRecord) (node : Owl.AxiomNode) (obligations : List (Nat × Nat))
      (transaction : MutableIndex), (∀ entity ∈ signature, entity.iri ≠ "") →
      convertEntailmentObligations literalKey nodeLimit node { entities := signature } =
        .ok (obligations, transaction) →
        ((∀ obligation ∈ obligations,
          I.treeExtension (transaction.tree obligation.1) ⊆ I.treeExtension (transaction.tree obligation.2)) ↔
            I.Satisfies literalKey node) := by
  constructor
  · intro node transaction done complete
    have wellFormed := MutableIndex.wellFormed_empty [] (fun _ member => absurd member List.not_mem_nil)
    obtain ⟨rows, normal, emits⟩ := AxiomConverter.convert_emits wellFormed done
    have few : ∀ definedClass expressions, node = .disjointUnion definedClass expressions →
      expressions.length < 2 := by
      rintro definedClass expressions rfl
      obtain ⟨_, _, _, recorded⟩ := AxiomConverter.disjointUnion_emits wellFormed done
      by_contra many
      exact absurd (recorded (not_lt.mp many)) (by rw [complete]; exact lt_irrefl 0)
    rw [← I.rows_hold normal few]
    refine forall_congr' fun row => ?_
    rw [emits.rows_iff row]
    have fresh : row ∉ (MutableIndex.rows { entities := [] }) := List.not_mem_nil
    simp only [fresh, false_or]
  · intro signature node obligations transaction named done
    obtain ⟨goals, normal, converted⟩ :=
      convertEntailmentObligations_converted (MutableIndex.wellFormed_empty signature named) done
    rw [← I.goals_hold normal, ← converted.trees_eq, List.forall_mem_map]

/-- Everyone is a worker, and only the manager `true` is reported to. -/
def reportingWorkers : OwlInterpretation Bool where
  classes iri := {x | iri ≠ OWL_NOTHING_IRI ∧ (iri = "ex:Manager" → x = true)}
  individuals _ := true
  objectProperties iri _ y := iri ≠ OWL_BOTTOM_OBJECT_PROPERTY_IRI ∧ (iri = "ex:reportsTo" → y = true)
  dataValues _ _ := ∅
  thing := Set.eq_univ_of_forall fun _ => ⟨by decide, fun manager => absurd manager (by decide)⟩
  nothing := Set.eq_empty_iff_forall_notMem.mpr fun _ member => member.1 rfl
  topProperty _ _ := ⟨by decide, fun reports => absurd reports (by decide)⟩
  bottomProperty _ _ holds := holds.1 rfl
  anonymousIndividuals _ := false
  unsupportedExpressions _ := ∅
  unsupportedNodes _ := True

/-- `Employee` is `Worker` and `reportsTo some Manager`. -/
def employeeDefinition : Owl.AxiomNode :=
  .equivalentClasses [.owlClass "ex:Employee",
    .objectIntersectionOf [.owlClass "ex:Worker",
      .objectSomeValuesFrom (.objectProperty "ex:reportsTo") (.owlClass "ex:Manager")]]

/-- `Employee` is below `Worker`. -/
def employeeQuestion : Owl.AxiomNode := .subClassOf (.owlClass "ex:Employee") (.owlClass "ex:Worker")

def lexicalKey (literal : Owl.Literal) : ElkCompatibilityKey :=
  ⟨0 :: literal.lexicalForm.toUTF8.toList, List.cons_ne_nil _ _⟩

theorem conversion_preserves_meaning_reports :
    (∃ transaction, AxiomConverter.convert lexicalKey 100 employeeDefinition {} = .ok ((), transaction) ∧
      (reportingWorkers.SatisfiesRows transaction ↔ reportingWorkers.Satisfies lexicalKey employeeDefinition)) ∧
    ∃ obligations transaction,
      convertEntailmentObligations lexicalKey 100 employeeQuestion { entities := predefinedEntities } =
        .ok (obligations, transaction) ∧
      ((∀ obligation ∈ obligations, reportingWorkers.treeExtension (transaction.tree obligation.1) ⊆
          reportingWorkers.treeExtension (transaction.tree obligation.2)) ↔
        reportingWorkers.Satisfies lexicalKey employeeQuestion) := by
  obtain ⟨rows, obligations⟩ := conversion_preserves_meaning lexicalKey 100 reportingWorkers
  constructor
  · have recorded : (AxiomConverter.convert lexicalKey 100 employeeDefinition {}).toOption.any (fun converted =>
        converted.2.featureCounts.getD (featureIndex "DISJOINT_UNION") 0 == 0) = true := by decide +kernel
    match done : AxiomConverter.convert lexicalKey 100 employeeDefinition {} with
    | .error _ => rw [done] at recorded; cases recorded
    | .ok ((), transaction) =>
      rw [done] at recorded
      exact ⟨transaction, rfl, rows _ _ done (beq_iff_eq.mp recorded)⟩
  · have answered : (convertEntailmentObligations lexicalKey 100 employeeQuestion
        { entities := predefinedEntities }).toOption.isSome = true := by decide +kernel
    match done : convertEntailmentObligations lexicalKey 100 employeeQuestion { entities := predefinedEntities } with
    | .error _ => rw [done] at answered; cases answered
    | .ok (pairs, transaction) =>
      exact ⟨pairs, transaction, rfl, obligations _ _ pairs transaction (by decide +kernel) done⟩

end PyElk
