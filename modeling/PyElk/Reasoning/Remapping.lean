import PyElk.Semantics.Overlay

open Ordered

namespace PyElk

section

variable {entities : List EntityRecord} {position other : Nat} {record left right : ExpressionRecord}

/-- A checked record has the arguments of its tag. -/
inductive ExpressionRecord.Shaped (entities : List EntityRecord) (position : Nat) : ExpressionRecord → Prop
  | named {tag entity payload} (atomic : tag ≠ .objectSomeValuesFrom ∧ tag ≠ .objectIntersectionOf ∧
      tag ≠ .objectComplementOf ∧ tag ≠ .objectUnionOf) (bound : entity < entities.length) :
      Shaped entities position ⟨tag, [entity], payload⟩
  | existential {relation filler payload} (bound : relation < entities.length) (before : filler < position) :
      Shaped entities position ⟨.objectSomeValuesFrom, [relation, filler], payload⟩
  | operands {tag arguments payload} (compound : tag = .objectIntersectionOf ∨ tag = .objectComplementOf ∨
      tag = .objectUnionOf) (before : ∀ operand ∈ arguments, operand < position) :
      Shaped entities position ⟨tag, arguments, payload⟩

theorem validateExpression_shaped (checked : validateExpression entities position record) :
    record.Shaped entities position := by
  have before := validateExpression_operands checked
  have index : ∀ {entity kind}, validateEntityIndex entities entity kind → entity < entities.length := by
    intro entity kind valid
    by_contra outside
    rw [validateEntityIndex, List.getElem?_eq_none (Nat.le_of_not_lt outside)] at valid
    exact Bool.false_ne_true valid
  obtain ⟨tag, arguments, payload⟩ := record
  unfold validateExpression at checked
  split at checked <;> simp only at * <;> subst_vars <;>
    simp only [Bool.and_eq_true, expressionDependencies, List.mem_dedup] at checked before
  · exact .named (by decide) (index checked.1)
  · exact .named (by decide) (index checked.1)
  · exact .operands (by decide) before
  · exact .existential (index checked.1.1) (before _ (by simp))
  · exact .named (by decide) (index checked.1)
  · exact .named (by decide) (index checked.1)
  · exact .operands (by decide) before
  · exact .operands (by decide) before
  · cases checked

/-- Renaming looks at the entities and at the earlier operands of a record. -/
theorem ExpressionRecord.Shaped.rename_congr (shaped : record.Shaped entities position)
    {entity operand operand' : Nat → Nat}
    (same : ∀ x < position, operand x = operand' x) :
    record.rename entity operand = record.rename entity operand' := by
  cases shaped with
  | named atomic bound =>
    rename_i tag x payload
    cases tag <;> simp_all [rename]
  | existential bound before => simp only [rename, same _ before]
  | operands compound before =>
    rename_i tag arguments payload
    have images : arguments.map operand = arguments.map operand' :=
      List.map_congr_left fun x member => same x (before x member)
    rcases compound with rfl | rfl | rfl <;> simp only [rename, images]

theorem ExpressionRecord.Shaped.entityArguments_lt (shaped : record.Shaped entities position) :
    ∀ x ∈ record.entityArguments, x < entities.length := by
  cases shaped with
  | named atomic bound =>
    rename_i tag x payload
    cases tag <;> simp_all [entityArguments]
  | existential bound before => simpa [entityArguments] using bound
  | operands compound before => rcases compound with rfl | rfl | rfl <;> simp [entityArguments]

theorem map_injective_on {f : Nat → Nat} {left right : List Nat}
    (injective : ∀ x ∈ left, ∀ y ∈ right, f x = f y → x = y)
    (same : left.map f = right.map f) : left = right := by
  induction left generalizing right with
  | nil => exact (List.map_eq_nil_iff.mp same.symm).symm
  | cons x rest ih =>
    cases right with
    | nil => cases same
    | cons y others =>
      obtain ⟨head, tail⟩ := List.cons.inj same
      rw [injective x (.head _) y (.head _) head,
        ih (fun a listed b listed' => injective a (.tail _ listed) b (.tail _ listed')) tail]

/-- Renaming loses nothing of two records where it loses nothing of their arguments. -/
theorem ExpressionRecord.Shaped.rename_injective (shaped : left.Shaped entities position)
    (shaped' : right.Shaped entities other) {entity operand : Nat → Nat}
    (entityInjective : ∀ x ∈ left.entityArguments, ∀ y ∈ right.entityArguments, entity x = entity y → x = y)
    (operandInjective : ∀ x < position, ∀ y < other, operand x = operand y → x = y)
    (same : left.rename entity operand = right.rename entity operand) : left = right := by
  have tags : left.tag = right.tag := by
    have kept : ∀ record : ExpressionRecord, (record.rename entity operand).tag = record.tag := by
      intro record
      unfold rename
      split <;> simp_all
    rw [← kept left, ← kept right, same]
  cases shaped with
  | named atomic bound =>
    rename_i tag x payload
    cases shaped' with
    | named atomic' bound' =>
      rename_i tag' y payload'
      obtain rfl : tag = tag' := tags
      have equal : ∀ z p, rename entity operand ⟨tag, [z], p⟩ = ⟨tag, [entity z], p⟩ := by
        intro z p
        cases tag <;> simp_all [rename]
      rw [equal, equal] at same
      injection same with _ arguments payloads
      have listed : ∀ z p, z ∈ entityArguments ⟨tag, [z], p⟩ := by
        intro z p
        cases tag <;> simp_all [entityArguments]
      rw [entityInjective x (listed x payload) y (listed y payload') (List.cons.inj arguments).1, payloads]
    | existential => exact absurd tags atomic.1
    | operands compound =>
      rcases compound with rfl | rfl | rfl
      · exact absurd tags atomic.2.1
      · exact absurd tags atomic.2.2.1
      · exact absurd tags atomic.2.2.2
  | existential bound before =>
    cases shaped' with
    | named atomic => exact absurd tags.symm atomic.1
    | existential bound' before' =>
      simp only [rename] at same
      injection same with _ arguments payloads
      obtain ⟨first, rest⟩ := List.cons.inj arguments
      rw [entityInjective _ (.head _) _ (.head _) first,
        operandInjective _ before _ before' (List.cons.inj rest).1, payloads]
    | operands compound => rcases compound with rfl | rfl | rfl <;> cases tags
  | operands compound before =>
    rename_i tag arguments payload
    cases shaped' with
    | named atomic =>
      rcases compound with rfl | rfl | rfl
      · exact absurd tags.symm atomic.2.1
      · exact absurd tags.symm atomic.2.2.1
      · exact absurd tags.symm atomic.2.2.2
    | existential => rcases compound with rfl | rfl | rfl <;> cases tags
    | operands compound' before' =>
      rename_i tag' arguments' payload'
      obtain rfl : tag = tag' := tags
      have equal : ∀ xs p, rename entity operand ⟨tag, xs, p⟩ = ⟨tag, xs.map operand, p⟩ := by
        intro xs p
        rcases compound with rfl | rfl | rfl <;> rfl
      rw [equal, equal] at same
      injection same with _ images payloads
      rw [map_injective_on
        (fun x member y member' => operandInjective x (before x member) y (before' y member')) images,
        payloads]

end

/-- What `_remap_expressions` returns: the table renamed, record by record. -/
structure Remapped (entities : List EntityRecord) (expressions : List ExpressionRecord) (overlay : Tables)
    (ids : List ExpressionId) : Prop where
  entry : ∀ {position : Nat} {record : ExpressionRecord}, expressions[position]? = some record →
    overlay.expressions[ids.getD position 0]? = some (record.rename
      (fun entity => overlay.entities.idxOf (recordAt entities entity)) (ids.getD · 0))
  entities : ∀ {position : Nat} {record : ExpressionRecord}, expressions[position]? = some record →
    ∀ x ∈ record.entityArguments, recordAt entities x ∈ overlay.entities

section

variable {entities : List EntityRecord} {expressions : List ExpressionRecord} {overlay : Tables}
  {ids : List ExpressionId} (checked : validateExpressions expressions entities)

include checked

theorem remapExpressions_remapped (remapped : remapExpressions entities overlay expressions [] = some ids) :
    Remapped entities expressions overlay ids := by
  refine ⟨fun {position record} entry => ?_, fun {position record} entry => ?_⟩
  · obtain ⟨expression, found, renamed, -⟩ := (remapExpressions_spec remapped).2 entry
    rw [List.length_nil, Nat.zero_add] at found renamed
    rw [List.getD_eq_getElem?_getD, found, Option.getD_some, renamed,
      (validateExpression_shaped (validateExpressions_entry checked entry)).rename_congr fun x below =>
      getD_take below]
  · obtain ⟨expression, -, -, within⟩ := (remapExpressions_spec remapped).2 entry
    exact within

/-- Two expressions of the table keep apart: by their tags and arguments, from the leaves up. -/
theorem Remapped.injective (remapped : Remapped entities expressions overlay ids) (distinct : entities.Nodup)
    (unique : expressions.Nodup) {left right : ExpressionId} (leftBound : left < expressions.length)
    (rightBound : right < expressions.length) (same : ids.getD left 0 = ids.getD right 0) : left = right := by
  induction left using Nat.strong_induction_on generalizing right with
  | _ left ih =>
    have entry := List.getElem?_eq_getElem leftBound
    have entry' := List.getElem?_eq_getElem rightBound
    have shaped := validateExpression_shaped (validateExpressions_entry checked entry)
    have shaped' := validateExpression_shaped (validateExpressions_entry checked entry')
    have renamed := remapped.entry entry
    rw [same, remapped.entry entry', Option.some.injEq] at renamed
    have position : expressions[left] = expressions[right] → left = right := (List.Nodup.getElem_inj_iff unique).mp
    refine position (shaped.rename_injective shaped' (fun x listed y listed' equal => ?_)
      (fun x below y below' equal => ?_) renamed.symm)
    · have records : recordAt entities x = recordAt entities y :=
        (List.idxOf_inj (remapped.entities entry x listed)).mp equal
      have bounded := shaped.entityArguments_lt x listed
      have bounded' := shaped'.entityArguments_lt y listed'
      rw [recordAt, recordAt, List.getD_eq_getElem?_getD, List.getD_eq_getElem?_getD,
        List.getElem?_eq_getElem bounded,
        List.getElem?_eq_getElem bounded', Option.getD_some, Option.getD_some] at records
      exact (List.Nodup.getElem_inj_iff distinct).mp records
    · exact ih x below (below.trans leftBound) (below'.trans rightBound) equal

end

/-- Both tables of an overlay are renamed into it, and the query refers to the entities of the ontology. -/
theorem installQuery_remapped {compiled : Tables} (valid : compiled.Valid) {query : QueryTables}
    (queried : query.Valid)
    {overlay : Overlay} (installed : installQuery compiled query = some overlay) :
    query.matchesOntology compiled ∧
      Remapped compiled.entities compiled.expressions overlay.ontology.toTables overlay.ontologyIds ∧
      Remapped query.entityRecords query.expressions overlay.ontology.toTables overlay.queryIds := by
  obtain ⟨matching, installed⟩ := Option.ite_none_right_eq_some.mp installed
  obtain ⟨loaded, -, installed⟩ := Option.bind_eq_some_iff.mp installed
  obtain ⟨extended, -, installed⟩ := Option.bind_eq_some_iff.mp installed
  obtain ⟨ontology, -, installed⟩ := Option.bind_eq_some_iff.mp installed
  obtain ⟨ontologyIds, remapped, installed⟩ := Option.bind_eq_some_iff.mp installed
  obtain ⟨queryIds, remapped', installed⟩ := Option.bind_eq_some_iff.mp installed
  obtain ⟨-, same⟩ := Option.ite_none_right_eq_some.mp installed
  obtain rfl := Option.some.inj same
  exact ⟨matching, remapExpressions_remapped valid.expressions remapped,
    remapExpressions_remapped queried.expressions remapped'⟩

end PyElk
