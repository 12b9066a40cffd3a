import PyElk.Indexing.Validity

namespace PyElk

/-- The operands of each record come before it. -/
def OperandsFirst (expressions : List ExpressionRecord) : Prop :=
  ∀ (position : Nat) (record : ExpressionRecord), expressions[position]? = some record →
    ∀ operand ∈ expressionDependencies record, operand < position

/-- Each record has the least key of those whose operands come before it. -/
def LeastFirst (expressions : List ExpressionRecord) : Prop :=
  ∀ (position : Nat) (record : ExpressionRecord), expressions[position]? = some record →
    ∀ (later : Nat) (other : ExpressionRecord), expressions[later]? = some other → position ≤ later →
      (∀ operand ∈ expressionDependencies other, operand < position) → record.key ≤ other.key

/-- The heap of the validator after the first pops came out in order. -/
structure Popped (expressions : List ExpressionRecord) (position : Nat) (available : List Nat)
    (remaining : Nat → Nat) : Prop where
  mem_available : ∀ expression, expression ∈ available ↔ position ≤ expression ∧
    ∃ record, expressions[expression]? = some record ∧ ∀ operand ∈ expressionDependencies record, operand < position
  distinct : available.Nodup
  remaining : ∀ (expression : Nat) (record : ExpressionRecord), expressions[expression]? = some record →
    remaining expression = (expressionDependencies record).countP fun operand => position ≤ operand

section

variable {expressions : List ExpressionRecord} {position : Nat} {available : List Nat} {remaining : Nat → Nat}

theorem mem_dependents {actual expression : Nat} :
    expression ∈ ((List.range expressions.length).filter fun expression =>
      decide (actual ∈ expressionDependencies (expressions.getD expression ⟨.owlClass, [], []⟩))) ↔
    ∃ record, expressions[expression]? = some record ∧ actual ∈ expressionDependencies record := by
  rw [List.mem_filter, List.mem_range, decide_eq_true_eq, List.getD_eq_getElem?_getD]
  constructor
  · rintro ⟨bound, member⟩
    rw [List.getElem?_eq_getElem bound, Option.getD_some] at member
    exact ⟨_, List.getElem?_eq_getElem bound, member⟩
  · rintro ⟨record, entry, member⟩
    rw [entry, Option.getD_some]
    exact ⟨(List.getElem?_eq_some_iff.mp entry).1, member⟩

/-- Counting the operands from a position on, one position later. -/
theorem countP_succ {operands : List Nat} (distinct : operands.Nodup) (position : Nat) :
    (operands.countP fun operand => position ≤ operand) =
      (operands.countP fun operand => position + 1 ≤ operand) + if position ∈ operands then 1 else 0 := by
  induction operands with
  | nil => rfl
  | cons operand rest ih =>
    obtain ⟨fresh, distinct⟩ := List.nodup_cons.mp distinct
    rw [List.countP_cons, List.countP_cons, ih distinct]
    simp only [decide_eq_true_eq, List.mem_cons]
    by_cases same : position = operand
    · subst same
      rw [if_neg fresh, if_pos (Or.inl rfl), if_pos le_rfl, if_neg (Nat.not_succ_le_self _)]
    · simp only [same, false_or]
      have shift : position ≤ operand ↔ position + 1 ≤ operand := by omega
      simp only [shift]
      omega

theorem popExpression_spec {actual : Nat} {available' : List Nat} {remaining' : Nat → Nat}
    (pop : popExpression expressions available remaining = some (actual, available', remaining')) :
    actual ∈ available ∧
    (∀ expression ∈ available, (expressions.getD actual ⟨.owlClass, [], []⟩).key ≤
      (expressions.getD expression ⟨.owlClass, [], []⟩).key) ∧
    let dependents := (List.range expressions.length).filter fun expression =>
      decide (actual ∈ expressionDependencies (expressions.getD expression ⟨.owlClass, [], []⟩))
    (∀ expression,
      remaining' expression = if expression ∈ dependents then remaining expression - 1 else remaining expression) ∧
    available' = available.erase actual ++ dependents.filter (fun expression => remaining' expression == 0) := by
  unfold popExpression at pop
  dsimp only at pop
  split at pop
  · cases pop
  · rename_i least found
    obtain ⟨other, member, rfl⟩ := List.mem_map.mp (List.argmin_mem found)
    cases pop
    refine ⟨member, fun expression listed => ?_, fun _ => rfl, rfl⟩
    have le := List.le_of_mem_argmin (List.mem_map_of_mem listed) found
    rcases Prod.Lex.toLex_le_toLex.mp le with less | ⟨equal, -⟩
    · exact less.le
    · exact equal.le

/-- The first of the available records comes out when its key is least. -/
theorem popExpression_first (first : position ∈ available) (lowest : ∀ expression ∈ available, position ≤ expression)
    (least : ∀ expression ∈ available, (expressions.getD position ⟨.owlClass, [], []⟩).key ≤
      (expressions.getD expression ⟨.owlClass, [], []⟩).key) :
    ∃ available' remaining', popExpression expressions available remaining =
      some (position, available', remaining') := by
  unfold popExpression
  dsimp only
  split
  · rename_i empty
    rw [List.argmin_eq_none, List.map_eq_nil_iff] at empty
    rw [empty] at first
    cases first
  · rename_i chosen found
    obtain ⟨other, member, rfl⟩ := List.mem_map.mp (List.argmin_mem found)
    have le := List.le_of_mem_argmin (List.mem_map_of_mem first) found
    have same : other = position := by
      rcases Prod.Lex.toLex_le_toLex.mp le with less | ⟨-, smaller⟩
      · exact absurd (least other member) (not_le_of_gt less)
      · exact le_antisymm smaller (lowest other member)
    subst same
    exact ⟨_, _, rfl⟩

section

variable (distinct : ∀ record ∈ expressions, (expressionDependencies record).Nodup)
  (first : OperandsFirst expressions)

include distinct first

/-- A pop of the next record keeps the heap in step. -/
theorem Popped.next (popped : Popped expressions position available remaining) {available' : List Nat}
    {remaining' : Nat → Nat}
    (pop : popExpression expressions available remaining = some (position, available', remaining')) :
    Popped expressions (position + 1) available' remaining' := by
  obtain ⟨-, -, counts, rfl⟩ := popExpression_spec pop
  have open_ : ∀ (expression : Nat) (record : ExpressionRecord), expressions[expression]? = some record →
      remaining' expression = (expressionDependencies record).countP fun operand => position + 1 ≤ operand := by
    intro expression record entry
    have before := popped.remaining expression record entry
    rw [countP_succ (distinct record (List.mem_of_getElem? entry)) position] at before
    rw [counts]
    by_cases depends : position ∈ expressionDependencies record
    · rw [if_pos depends] at before
      rw [if_pos (mem_dependents.mpr ⟨record, entry, depends⟩), before, Nat.add_sub_cancel]
    · rw [if_neg depends] at before
      rw [if_neg, before, Nat.add_zero]
      intro member
      obtain ⟨_, same, found⟩ := mem_dependents.mp member
      rw [entry] at same
      cases same
      exact depends found
  have closed : ∀ (expression : Nat) (record : ExpressionRecord), expressions[expression]? = some record →
      ((remaining' expression == 0) = true ↔ ∀ operand ∈ expressionDependencies record, operand < position + 1) := by
    intro expression record entry
    rw [beq_iff_eq, open_ expression record entry, List.countP_eq_zero]
    exact forall₂_congr fun operand _ => by rw [decide_eq_true_eq, Nat.not_le]
  refine ⟨fun expression => ?_, ?_, open_⟩
  · rw [List.mem_append, popped.distinct.mem_erase_iff, List.mem_filter, popped.mem_available, mem_dependents]
    constructor
    · rintro (⟨other, lowest, record, entry, ready⟩ | ⟨⟨record, entry, depends⟩, done⟩)
      · exact ⟨lt_of_le_of_ne lowest (Ne.symm other), record, entry, fun operand member =>
          Nat.lt_succ_of_lt (ready operand member)⟩
      · exact ⟨first expression record entry position depends, record, entry,
          (closed expression record entry).mp done⟩
    · rintro ⟨later, record, entry, ready⟩
      by_cases depends : position ∈ expressionDependencies record
      · exact Or.inr ⟨⟨record, entry, depends⟩, (closed expression record entry).mpr ready⟩
      · refine Or.inl ⟨(Nat.lt_of_succ_le later).ne', Nat.le_of_succ_le later, record, entry,
          fun operand member => ?_⟩
        exact lt_of_le_of_ne (Nat.le_of_lt_succ (ready operand member)) fun same => depends (same ▸ member)
  · refine List.nodup_append.mpr ⟨popped.distinct.erase _, (List.nodup_range.filter _).filter _, ?_⟩
    rintro expression old _ new rfl
    obtain ⟨-, record, entry, ready⟩ := (popped.mem_available expression).mp (List.mem_of_mem_erase old)
    obtain ⟨_, same, depends⟩ := mem_dependents.mp (List.mem_filter.mp new).1
    rw [entry] at same
    cases same
    exact absurd (ready position depends) (lt_irrefl _)

/-- The pops of the validator come out in order when each is the least of the heap. -/
theorem validatePops_iff {count : Nat} (popped : Popped expressions position available remaining)
    (rest : position + count = expressions.length) :
    validatePops expressions (List.range' position count) available remaining ↔
      ∀ (place : Nat) (record : ExpressionRecord), position ≤ place → expressions[place]? = some record →
        ∀ (later : Nat) (other : ExpressionRecord), expressions[later]? = some other → place ≤ later →
          (∀ operand ∈ expressionDependencies other, operand < place) → record.key ≤ other.key := by
  induction count generalizing position available remaining with
  | zero =>
    refine iff_of_true rfl fun place record high entry => ?_
    have small := (List.getElem?_eq_some_iff.mp entry).1
    omega
  | succ count ih =>
    have bound : position < expressions.length := by omega
    have entry := List.getElem?_eq_getElem bound
    have ready : position ∈ available :=
      (popped.mem_available position).mpr ⟨le_rfl, _, entry, first position _ entry⟩
    have default_key : ∀ {expression : Nat} {record : ExpressionRecord}, expressions[expression]? = some record →
        expressions.getD expression ⟨.owlClass, [], []⟩ = record := by
      intro expression record found
      rw [List.getD_eq_getElem?_getD, found, Option.getD_some]
    have least : (∀ expression ∈ available, (expressions.getD position ⟨.owlClass, [], []⟩).key ≤
        (expressions.getD expression ⟨.owlClass, [], []⟩).key) ↔
        ∀ (later : Nat) (other : ExpressionRecord), expressions[later]? = some other → position ≤ later →
          (∀ operand ∈ expressionDependencies other, operand < position) → expressions[position].key ≤ other.key := by
      constructor
      · intro least later other found high free
        have le := least later ((popped.mem_available later).mpr ⟨high, other, found, free⟩)
        rwa [default_key entry, default_key found] at le
      · intro least expression member
        obtain ⟨high, other, found, free⟩ := (popped.mem_available expression).mp member
        rw [default_key entry, default_key found]
        exact least expression other found high free
    rw [List.range'_succ, validatePops]
    constructor
    · intro valid place record high found
      split at valid
      · cases valid
      · rename_i actual available' remaining' pop
        obtain ⟨equal, valid⟩ := (Bool.and_eq_true _ _).mp valid
        obtain rfl := beq_iff_eq.mp equal
        rcases Nat.eq_or_lt_of_le high with rfl | further
        · rw [entry] at found
          cases found
          exact least.mp (popExpression_spec pop).2.1
        · exact (ih (popped.next distinct first pop) (by omega)).mp valid place record further found
    · intro all
      obtain ⟨available', remaining', pop⟩ := popExpression_first ready
        (fun expression member => ((popped.mem_available expression).mp member).1)
        (least.mpr (all position _ le_rfl entry))
      rw [pop]
      refine (Bool.and_eq_true _ _).mpr ⟨beq_self_eq_true _, ?_⟩
      exact (ih (popped.next distinct first pop) (by omega)).mpr fun place record high found =>
        all place record (Nat.le_of_succ_le high) found

theorem validateExpressionOrder_iff :
    validateExpressionOrder expressions ↔ expressions.Nodup ∧ LeastFirst expressions := by
  have start : Popped expressions 0 ((List.range expressions.length).filter fun expression =>
      (expressionDependencies (expressions.getD expression ⟨.owlClass, [], []⟩)).length == 0)
      (fun expression => (expressionDependencies (expressions.getD expression ⟨.owlClass, [], []⟩)).length) := by
    refine ⟨fun expression => ?_, List.nodup_range.filter _, fun expression record entry => ?_⟩
    · rw [List.mem_filter, List.mem_range, beq_iff_eq, List.length_eq_zero_iff, List.getD_eq_getElem?_getD]
      constructor
      · rintro ⟨bound, free⟩
        rw [List.getElem?_eq_getElem bound, Option.getD_some] at free
        refine ⟨Nat.zero_le _, _, List.getElem?_eq_getElem bound, ?_⟩
        rw [free]
        exact fun operand member => absurd member List.not_mem_nil
      · rintro ⟨-, record, entry, free⟩
        rw [entry, Option.getD_some]
        exact ⟨(List.getElem?_eq_some_iff.mp entry).1,
          List.eq_nil_iff_forall_not_mem.mpr fun operand member => absurd (free operand member) (Nat.not_lt_zero _)⟩
    · rw [List.getD_eq_getElem?_getD, entry, Option.getD_some]
      exact (List.countP_eq_length.mpr fun operand _ => decide_eq_true (Nat.zero_le operand)).symm
  unfold validateExpressionOrder
  dsimp only
  rw [Bool.and_eq_true, decide_eq_true_eq, List.range_eq_range']
  have pops := validatePops_iff distinct first start (Nat.zero_add _)
  rw [List.range_eq_range'] at pops
  rw [pops]
  exact and_congr_right fun _ => ⟨fun least place record => least place record (Nat.zero_le _),
    fun least place record _ => least place record⟩

end

end

end PyElk
