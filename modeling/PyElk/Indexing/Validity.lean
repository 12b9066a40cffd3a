import PyElk.Indexing.Ir
import PyElk.Support.Ordered

open Ordered

namespace PyElk

theorem checkSortedUnique_sortedSet {α κ : Type} [DecidableEq α] [LinearOrder κ] {key : α → κ}
    (injective : Function.Injective key) (values : List α) : checkSortedUnique key (sortedSet key values) :=
  decide_eq_true (sortedSet_strict injective values).isChain

/-- The expression `expression` is built by `tag` from `arguments`. -/
def Tables.Built (compiled : Tables) (expression : ExpressionId) (tag : ExpressionTag)
    (arguments : List Nat) : Prop :=
  ∃ payload, compiled.expressions[expression]? = some ⟨tag, arguments, payload⟩

/-- The entity `entity` has kind `kind`. -/
def Tables.EntityOf (compiled : Tables) (entity : EntityId) (kind : EntityKind) : Prop :=
  ∃ iri, compiled.entities[entity]? = some ⟨kind, iri⟩

/-- The numbers of entities, expressions and chains that 32-bit IDs can tell apart. -/
structure Tables.IdsFit (tables : Tables) : Prop where
  entities : tables.entities.length ≤ U32_RESERVED
  expressions : tables.expressions.length ≤ U32_RESERVED
  chains : ∀ row ∈ tables.subpropertyAxioms, row.1 < U32_RESERVED

theorem validateExpressions_nodup {expressions : List ExpressionRecord} {entities : List EntityRecord}
    (checked : validateExpressions expressions entities) : expressions.Nodup := by
  unfold validateExpressions validateExpressionOrder at checked
  rw [Bool.and_eq_true, Bool.and_eq_true] at checked
  exact of_decide_eq_true (Bool.and_eq_true _ _ ▸ checked.2).1

/-- The check of an entity ID decides whether the table has an entity of that kind there. -/
theorem validateEntityIndex_iff {compiled : Tables} {entity : EntityId} {kind : EntityKind} :
    validateEntityIndex compiled.entities entity kind ↔ compiled.EntityOf entity kind := by
  unfold validateEntityIndex Tables.EntityOf
  cases compiled.entities[entity]? with
  | none => simp
  | some record =>
    obtain ⟨found, iri⟩ := record
    simp

theorem Tables.EntityOf.lt {compiled : Tables} {entity : EntityId} {kind : EntityKind}
    (found : compiled.EntityOf entity kind) : entity < compiled.entities.length := by
  obtain ⟨iri, entry⟩ := found
  exact (List.getElem?_eq_some_iff.mp entry).1

theorem Tables.Built.lt {compiled : Tables} {expression : ExpressionId} {tag : ExpressionTag}
    {arguments : List Nat} (built : compiled.Built expression tag arguments) :
    expression < compiled.expressions.length := by
  obtain ⟨payload, entry⟩ := built
  exact (List.getElem?_eq_some_iff.mp entry).1

/-- An expression is built in one way. -/
theorem Tables.Built.eq {compiled : Tables} {expression : ExpressionId} {tag other : ExpressionTag}
    {arguments others : List Nat} (left : compiled.Built expression tag arguments)
    (right : compiled.Built expression other others) : tag = other ∧ arguments = others := by
  obtain ⟨payload, entry⟩ := left
  obtain ⟨_, same⟩ := right
  rw [entry] at same
  have equal := Option.some.inj same
  exact ⟨congrArg ExpressionRecord.tag equal, congrArg ExpressionRecord.arguments equal⟩

/-- The argument shape that each tag demands of a checked record. -/
def Tables.Shape (compiled : Tables) (expression : ExpressionId) (arguments : List Nat) : ExpressionTag → Prop
  | .owlClass => ∃ entity, arguments = [entity] ∧ compiled.EntityOf entity .owlClass
  | .individual => ∃ entity, arguments = [entity] ∧ compiled.EntityOf entity .namedIndividual
  | .objectIntersectionOf =>
    ∃ first second, arguments = [first, second] ∧ first < expression ∧ second < expression
  | .objectSomeValuesFrom =>
    ∃ relation filler, arguments = [relation, filler] ∧ compiled.EntityOf relation .objectProperty ∧
      filler < expression
  | .objectHasSelf => ∃ relation, arguments = [relation] ∧ compiled.EntityOf relation .objectProperty
  | .dataHasValue => ∃ property, arguments = [property] ∧ compiled.EntityOf property .dataProperty
  | .objectComplementOf => ∃ negated, arguments = [negated] ∧ negated < expression
  | .objectUnionOf => 2 ≤ arguments.length ∧ ∀ argument ∈ arguments, argument < expression

theorem validateSortedPairs_lt {rows : List (Nat × Nat)} {firstLimit secondLimit : Nat}
    (valid : validateSortedPairs rows firstLimit secondLimit) {first second : Nat}
    (row : (first, second) ∈ rows) : first < firstLimit ∧ second < secondLimit := by
  unfold validateSortedPairs at valid
  rw [Bool.and_eq_true, List.all_eq_true] at valid
  have bounds := valid.1 _ row
  rw [Bool.and_eq_true, Bool.and_eq_true] at bounds
  exact ⟨of_decide_eq_true bounds.1.2, of_decide_eq_true bounds.2⟩

/-- Every record of a checked expression table passes its own check. -/
theorem validateExpressions_entry {entities : List EntityRecord} {expressions : List ExpressionRecord}
    (checked : validateExpressions expressions entities) {expression : Nat} {record : ExpressionRecord}
    (entry : expressions[expression]? = some record) : validateExpression entities expression record := by
  unfold validateExpressions at checked
  rw [Bool.and_eq_true, Bool.and_eq_true, List.all_eq_true] at checked
  exact checked.1.2 (record, expression) (List.mem_zipIdx_iff_getElem?.mpr entry)

section

variable {compiled : Tables} (valid : compiled.Valid)

include valid

/-- A valid table has an ID for each entity. -/
theorem Tables.Valid.few_entities : compiled.entities.length ≤ U32_RESERVED := by
  have checked := valid.entities
  unfold validateEntities at checked
  simp only [Bool.and_eq_true, decide_eq_true_eq] at checked
  exact checked.1.2

/-- A valid table has an ID for each expression. -/
theorem Tables.Valid.few_expressions : compiled.expressions.length ≤ U32_RESERVED := by
  have checked := valid.expressions
  unfold validateExpressions at checked
  simp only [Bool.and_eq_true, decide_eq_true_eq] at checked
  exact checked.1.1

/-- The rows of a valid table refer to its own expressions. -/
theorem Tables.Valid.subclass_lt {sub super : ExpressionId} (row : (sub, super) ∈ compiled.subclassAxioms) :
    sub < compiled.expressions.length ∧ super < compiled.expressions.length :=
  validateSortedPairs_lt valid.subclass row

theorem Tables.Valid.equivalent_lt {first second : ExpressionId}
    (row : (first, second) ∈ compiled.equivalentClassAxioms) :
    first < compiled.expressions.length ∧ second < compiled.expressions.length :=
  validateSortedPairs_lt valid.equivalent row

theorem Tables.Valid.subproperty_lt {chain : PropertyChainId} {super : EntityId}
    (row : (chain, super) ∈ compiled.subpropertyAxioms) :
    chain < compiled.propertyChains.length ∧ compiled.EntityOf super .objectProperty :=
  ⟨(validateSortedPairs_lt valid.subproperty row).1,
    validateEntityIndex_iff.mp (List.all_eq_true.mp valid.superProperty _ row)⟩

theorem Tables.Valid.range_lt {property : EntityId} {range : ExpressionId}
    (row : (property, range) ∈ compiled.propertyRanges) :
    compiled.EntityOf property .objectProperty ∧ range < compiled.expressions.length :=
  ⟨validateEntityIndex_iff.mp (List.all_eq_true.mp valid.rangeProperty _ row),
    (validateSortedPairs_lt valid.ranges row).2⟩

/-- A property chain of a valid table is a nonempty list of object properties. -/
theorem Tables.Valid.chain_properties {chain : List EntityId} (member : chain ∈ compiled.propertyChains) :
    chain ≠ [] ∧ ∀ property ∈ chain, compiled.EntityOf property .objectProperty := by
  have chains := valid.chains
  unfold validatePropertyChains at chains
  rw [Bool.and_eq_true, List.all_eq_true] at chains
  have checked := chains.1 chain member
  rw [Bool.and_eq_true, List.all_eq_true] at checked
  refine ⟨?_, fun property found => validateEntityIndex_iff.mp (checked.2 property found)⟩
  rintro rfl
  exact absurd checked.1 (by simp)

/-- A disjointness group of a valid table has two members or more, all of them expressions of the table. -/
theorem Tables.Valid.disjoint_lt {group : List ExpressionId} (member : group ∈ compiled.disjointGroups) :
    2 ≤ group.length ∧ ∀ expression ∈ group, expression < compiled.expressions.length := by
  have groups := valid.disjoint
  unfold validateDisjointGroups at groups
  rw [Bool.and_eq_true, List.all_eq_true] at groups
  have checked := groups.1 group member
  rw [Bool.and_eq_true, List.all_eq_true] at checked
  exact ⟨of_decide_eq_true checked.1, fun expression found => of_decide_eq_true (checked.2 expression found)⟩

theorem Tables.Valid.expression_checked {expression : ExpressionId} {record : ExpressionRecord}
    (entry : compiled.expressions[expression]? = some record) :
    validateExpression compiled.entities expression record :=
  validateExpressions_entry valid.expressions entry

/-- Checked records have the argument shape of their tag. -/
theorem Tables.Valid.shape {expression : ExpressionId} {tag : ExpressionTag} {arguments : List Nat}
    (built : compiled.Built expression tag arguments) : compiled.Shape expression arguments tag := by
  obtain ⟨payload, entry⟩ := built
  have checked := valid.expression_checked entry
  unfold validateExpression at checked
  cases tag <;> split at checked <;> simp_all [validateEntityIndex_iff, Tables.Shape]

/-- Only a `DataHasValue` restriction has a payload. -/
theorem Tables.Valid.payload_empty {expression : ExpressionId} {tag : ExpressionTag} {arguments : List Nat}
    {payload : List UInt8} (entry : compiled.expressions[expression]? = some ⟨tag, arguments, payload⟩)
    (plain : tag ≠ .dataHasValue) : payload = [] := by
  have checked := valid.expression_checked entry
  unfold validateExpression at checked
  split at checked <;> simp_all

theorem Tables.Valid.expressions_nodup : compiled.expressions.Nodup := by
  have checked := valid.expressions
  unfold validateExpressions validateExpressionOrder at checked
  rw [Bool.and_eq_true, Bool.and_eq_true] at checked
  exact of_decide_eq_true (Bool.and_eq_true _ _ ▸ checked.2).1

/-- Structural uniqueness: an expression is determined by its tag and arguments. -/
theorem Tables.Valid.built_unique {left right : ExpressionId} {tag : ExpressionTag} {arguments : List Nat}
    (builtLeft : compiled.Built left tag arguments) (builtRight : compiled.Built right tag arguments)
    (plain : tag ≠ .dataHasValue) : left = right := by
  obtain ⟨payload, entry⟩ := builtLeft
  obtain ⟨other, same⟩ := builtRight
  have empty := valid.payload_empty entry plain
  have empty' := valid.payload_empty same plain
  subst empty empty'
  refine (List.getElem?_inj (List.getElem?_eq_some_iff.mp entry).1 valid.expressions_nodup).mp ?_
  rw [entry, same]

theorem Tables.Valid.entities_nodup : compiled.entities.Nodup := by
  have checked := valid.entities
  unfold validateEntities checkSortedUnique at checked
  simp only [Bool.and_eq_true] at checked
  have chain : compiled.entities.IsChain fun a b => a.key < b.key := of_decide_eq_true checked.1.1.2
  have trans : IsTrans EntityRecord fun a b => a.key < b.key := ⟨fun _ _ _ => lt_trans⟩
  refine (List.isChain_iff_pairwise.mp chain).imp ?_
  rintro a b below rfl
  exact absurd below (lt_irrefl _)

/-- The four built-in entities are in every valid table. -/
theorem Tables.Valid.predefined {record : EntityRecord} (member : record ∈ predefinedEntities) :
    record ∈ compiled.entities := by
  have checked := valid.entities
  unfold validateEntities at checked
  simp only [Bool.and_eq_true, Bool.not_true, Bool.false_or, List.all_eq_true] at checked
  exact List.contains_iff_mem.mp (checked.2 record member)

/-- Every named class and individual has an expression record. -/
theorem Tables.Valid.named_built {entity : EntityId} {kind : EntityKind} {tag : ExpressionTag}
    (found : compiled.EntityOf entity kind)
    (named : (kind = .owlClass ∧ tag = .owlClass) ∨ (kind = .namedIndividual ∧ tag = .individual)) :
    ∃ expression, compiled.Built expression tag [entity] := by
  obtain ⟨iri, entry⟩ := found
  have checked := valid.named
  unfold validateNamedEntityExpressions at checked
  rw [Bool.and_eq_true, List.all_eq_true, List.all_eq_true] at checked
  have expected : (tag, entity) ∈ namedEntities compiled.entities := by
    refine List.mem_filterMap.mpr ⟨(⟨kind, iri⟩, entity), List.mem_zipIdx_iff_getElem?.mpr entry, ?_⟩
    rcases named with ⟨rfl, rfl⟩ | ⟨rfl, rfl⟩ <;> rfl
  have present := List.contains_iff_mem.mp (checked.2 _ expected)
  obtain ⟨⟨found, arguments, payload⟩, member, same⟩ := List.mem_map.mp present
  obtain ⟨position, at_position⟩ := List.mem_iff_getElem?.mp (List.mem_filter.mp member).1
  cases same
  have built : compiled.Built position found arguments := ⟨payload, at_position⟩
  have shape := valid.shape built
  refine ⟨position, ?_⟩
  rcases named with ⟨_, rfl⟩ | ⟨_, rfl⟩
  · obtain ⟨x, rfl, _⟩ := shape
    exact built
  · obtain ⟨x, rfl, _⟩ := shape
    exact built

end

end PyElk
