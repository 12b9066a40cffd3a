import Mathlib.Data.List.Dedup
import Mathlib.Data.Set.Lattice
import Mathlib.Order.CompletePartialOrder
import PyElk.Indexing.Validity

namespace PyElk

/-- An interpretation of the entities, which are known by their IRIs. -/
structure Interpretation (Δ : Type u) where
  classes : String → Set Δ
  individuals : String → Δ
  objectProperties : String → Δ → Δ → Prop
  dataValues : String → List UInt8 → Set Δ
  thing : classes OWL_THING_IRI = Set.univ
  nothing : classes OWL_NOTHING_IRI = ∅
  topProperty : ∀ x y, objectProperties OWL_TOP_OBJECT_PROPERTY_IRI x y
  bottomProperty : ∀ x y, ¬ objectProperties OWL_BOTTOM_OBJECT_PROPERTY_IRI x y

/-- The IRI behind an entity id. -/
def entityIri (entities : List EntityRecord) (entity : EntityId) : String :=
  (entities[entity]?).elim "" EntityRecord.iri

section

variable {Δ : Type u} (I : Interpretation Δ)

/-- The extension of one record, given the extensions of its operands. -/
def Interpretation.denote (entities : List EntityRecord) (operands : Nat → Set Δ) (record : ExpressionRecord) :
    Set Δ :=
  match record.tag, record.arguments with
  | .owlClass, [entity] => I.classes (entityIri entities entity)
  | .individual, [entity] => {I.individuals (entityIri entities entity)}
  | .objectIntersectionOf, [first, second] => operands first ∩ operands second
  | .objectSomeValuesFrom, [relation, filler] =>
    {x | ∃ y ∈ operands filler, I.objectProperties (entityIri entities relation) x y}
  | .objectHasSelf, [relation] => {x | I.objectProperties (entityIri entities relation) x x}
  | .dataHasValue, [property] => I.dataValues (entityIri entities property) record.payload
  | .objectComplementOf, [negated] => (operands negated)ᶜ
  | .objectUnionOf, arguments => {x | ∃ argument ∈ arguments, x ∈ operands argument}
  | _, _ => ∅

/-- The extension of an expression of a table, whose operands come before it. -/
def Interpretation.extension (entities : List EntityRecord) (expressions : List ExpressionRecord)
    (expression : Nat) : Set Δ :=
  match expressions[expression]? with
  | none => ∅
  | some record =>
    I.denote entities
      (fun operand => if operand < expression then extension entities expressions operand else ∅) record
termination_by expression

/-- The pairs that a sequence of object properties relates. -/
def Interpretation.path (entities : List EntityRecord) : List EntityId → Δ → Δ → Prop
  | [], x, y => x = y
  | property :: rest, x, y =>
    ∃ z, I.objectProperties (entityIri entities property) x z ∧ path entities rest z y

/-- The extension of an expression of a compiled ontology. -/
def Interpretation.ext (compiled : Tables) (expression : ExpressionId) : Set Δ :=
  I.extension compiled.entities compiled.expressions expression

/-- The relation of an object property of a compiled ontology. -/
def Interpretation.rel (compiled : Tables) (property : EntityId) (x y : Δ) : Prop :=
  I.objectProperties (entityIri compiled.entities property) x y

/-- Every axiom row of a compiled ontology holds. -/
structure Interpretation.Satisfies (compiled : Tables) : Prop where
  subclass : ∀ {sub super}, (sub, super) ∈ compiled.subclassAxioms → I.ext compiled sub ⊆ I.ext compiled super
  equivalent : ∀ {first second}, (first, second) ∈ compiled.equivalentClassAxioms →
    I.ext compiled first = I.ext compiled second
  disjoint : ∀ {group}, group ∈ compiled.disjointGroups →
    group.Pairwise fun first second => Disjoint (I.ext compiled first) (I.ext compiled second)
  subproperty : ∀ {index super chain}, (index, super) ∈ compiled.subpropertyAxioms →
    compiled.propertyChains[index]? = some chain →
      ∀ x y, I.path compiled.entities chain x y → I.rel compiled super x y
  range : ∀ {property range}, (property, range) ∈ compiled.propertyRanges →
    ∀ x y, I.rel compiled property x y → y ∈ I.ext compiled range

end

/-- The operands that the extension of a record depends on. -/
theorem Interpretation.denote_congr {Δ : Type u} {I : Interpretation Δ} {entities : List EntityRecord}
    {operands others : Nat → Set Δ} {record : ExpressionRecord}
    (same : ∀ operand ∈ expressionDependencies record, operands operand = others operand) :
    I.denote entities operands record = I.denote entities others record := by
  obtain ⟨tag, arguments, payload⟩ := record
  unfold denote
  split <;> try rfl
  all_goals simp only at *
  all_goals subst_vars
  all_goals simp only [expressionDependencies, List.mem_dedup] at same
  · rw [same _ (.head _), same _ (.tail _ (.head _))]
  · rw [same _ (.head _)]
  · rw [same _ (.head _)]
  · ext x
    refine exists_congr fun argument => and_congr_right fun member => ?_
    rw [same argument member]

/-- The operands of a checked record come before it. -/
theorem validateExpression_operands {entities : List EntityRecord} {expression : Nat} {record : ExpressionRecord}
    (checked : validateExpression entities expression record) :
    ∀ operand ∈ expressionDependencies record, operand < expression := by
  obtain ⟨tag, arguments, payload⟩ := record
  unfold validateExpression at checked
  intro operand member
  split at checked <;> simp only at * <;> subst_vars <;>
    simp only [expressionDependencies, List.not_mem_nil, List.mem_dedup, List.drop_succ_cons, List.drop_zero,
      List.mem_cons, List.not_mem_nil, or_false, Bool.and_eq_true, decide_eq_true_eq, List.all_eq_true] at *
  · rcases member with rfl | rfl
    · exact checked.1.1
    · exact checked.1.2
  · rw [member]
    exact checked.1.2
  · rw [member]
    exact checked.1
  · exact checked.1.2 operand member
  · cases checked

/-- The extension of a record of a checked table. -/
theorem Interpretation.extension_entry {Δ : Type u} {I : Interpretation Δ} {entities : List EntityRecord}
    {expressions : List ExpressionRecord} (checked : validateExpressions expressions entities) {expression : Nat}
    {record : ExpressionRecord} (entry : expressions[expression]? = some record) :
    I.extension entities expressions expression =
      I.denote entities (I.extension entities expressions) record := by
  rw [extension, entry]
  refine denote_congr fun operand member => ?_
  rw [if_pos (validateExpression_operands (validateExpressions_entry checked entry) operand member)]

section

variable {Δ : Type u} {I : Interpretation Δ} {compiled : Tables} (valid : compiled.Valid)

include valid

/-- An expression is read by its record. -/
theorem Interpretation.ext_entry {expression : ExpressionId} {record : ExpressionRecord}
    (entry : compiled.expressions[expression]? = some record) :
    I.ext compiled expression = I.denote compiled.entities (I.ext compiled) record :=
  extension_entry valid.expressions entry

section

variable {expression first second relation filler entity negated : Nat} {arguments : List Nat}

/-- A named class is read as the class. -/
theorem Interpretation.ext_class (built : compiled.Built expression .owlClass [entity]) :
    I.ext compiled expression = I.classes (entityIri compiled.entities entity) := by
  obtain ⟨payload, entry⟩ := built
  exact ext_entry valid entry

theorem Interpretation.ext_individual (built : compiled.Built expression .individual [entity]) :
    I.ext compiled expression = {I.individuals (entityIri compiled.entities entity)} := by
  obtain ⟨payload, entry⟩ := built
  exact ext_entry valid entry

/-- An intersection is read as the intersection of its operands. -/
theorem Interpretation.ext_intersection (built : compiled.Built expression .objectIntersectionOf [first, second]) :
    I.ext compiled expression = I.ext compiled first ∩ I.ext compiled second := by
  obtain ⟨payload, entry⟩ := built
  exact ext_entry valid entry

/-- An existential is read as the elements with a filler along the property. -/
theorem Interpretation.ext_some (built : compiled.Built expression .objectSomeValuesFrom [relation, filler]) :
    I.ext compiled expression = {x | ∃ y ∈ I.ext compiled filler, I.rel compiled relation x y} := by
  obtain ⟨payload, entry⟩ := built
  exact ext_entry valid entry

theorem Interpretation.ext_self (built : compiled.Built expression .objectHasSelf [relation]) :
    I.ext compiled expression = {x | I.rel compiled relation x x} := by
  obtain ⟨payload, entry⟩ := built
  exact ext_entry valid entry

theorem Interpretation.ext_complement (built : compiled.Built expression .objectComplementOf [negated]) :
    I.ext compiled expression = (I.ext compiled negated)ᶜ := by
  obtain ⟨payload, entry⟩ := built
  exact ext_entry valid entry

/-- A union is read as the union of its operands. -/
theorem Interpretation.ext_union (built : compiled.Built expression .objectUnionOf arguments) :
    I.ext compiled expression = {x | ∃ argument ∈ arguments, x ∈ I.ext compiled argument} := by
  obtain ⟨payload, entry⟩ := built
  exact ext_entry valid entry

end

end

end PyElk
