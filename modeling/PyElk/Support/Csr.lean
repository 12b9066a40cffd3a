import Mathlib.Data.List.Basic
import Mathlib.Data.List.Chain
import Mathlib.Order.Lattice

/-- Rows of varying length as one list of values and the offsets at which they begin and end. -/
def Csr.offsets {α : Type} : Nat → List (List α) → List Nat
  | start, [] => [start]
  | start, row :: rest => start :: offsets (start + row.length) rest

/-- The values between consecutive offsets. -/
def Csr.slices {α : Type} (values : List α) : List Nat → List (List α)
  | first :: second :: rest => (values.take second).drop first :: slices values (second :: rest)
  | _ => []

namespace Csr

variable {α : Type}

@[simp] theorem offsets_length (start : Nat) (rows : List (List α)) :
    (offsets start rows).length = rows.length + 1 := by
  induction rows generalizing start with
  | nil => rfl
  | cons row rest ih => rw [offsets, List.length_cons, List.length_cons, ih]

/-- The offsets begin where the first row does. -/
theorem offsets_head (start : Nat) (rows : List (List α)) : (offsets start rows).head? = some start := by
  cases rows <;> rfl

theorem offsets_cons (start : Nat) (rows : List (List α)) : ∃ rest, offsets start rows = start :: rest := by
  cases rows with
  | nil => exact ⟨_, rfl⟩
  | cons row rest => exact ⟨_, rfl⟩

/-- The offsets never fall. -/
theorem offsets_isChain (start : Nat) (rows : List (List α)) : (offsets start rows).IsChain (· ≤ ·) := by
  induction rows generalizing start with
  | nil => exact .singleton _
  | cons row rest ih =>
    have tail := ih (start + row.length)
    obtain ⟨more, next⟩ := offsets_cons (start + row.length) rest
    rw [offsets]
    rw [next] at tail ⊢
    exact List.isChain_cons_cons.mpr ⟨Nat.le_add_right _ _, tail⟩

/-- The offsets end behind the last row. -/
theorem offsets_getLast (start : Nat) (rows : List (List α)) :
    (offsets start rows).getLast? = some (start + rows.flatten.length) := by
  induction rows generalizing start with
  | nil => simp [offsets]
  | cons row rest ih =>
    have tail := ih (start + row.length)
    obtain ⟨more, next⟩ := offsets_cons (start + row.length) rest
    rw [offsets]
    rw [next] at tail ⊢
    rw [List.getLast?_cons_cons, tail, List.flatten_cons, List.length_append, Nat.add_assoc]

theorem offsets_le {start : Nat} {rows : List (List α)} {offset : Nat} (member : offset ∈ offsets start rows) :
    offset ≤ start + rows.flatten.length := by
  induction rows generalizing start with
  | nil =>
    rw [offsets, List.mem_singleton] at member
    simp [member]
  | cons row rest ih =>
    rw [List.flatten_cons, List.length_append]
    rcases List.mem_cons.mp member with rfl | later
    · exact Nat.le_add_right _ _
    · have bound := ih later
      omega

/-- Cutting the values of rows at their offsets gives the rows back. -/
theorem slices_offsets {rows : List (List α)} {before : List α} {values : List α}
    (layout : before ++ rows.flatten = values) : slices values (offsets before.length rows) = rows := by
  induction rows generalizing before with
  | nil => rfl
  | cons row rest ih =>
    have tail : slices values (offsets (before.length + row.length) rest) = rest := by
      rw [← List.length_append]
      exact ih (by rw [← layout, List.flatten_cons, List.append_assoc])
    obtain ⟨more, next⟩ := offsets_cons (before.length + row.length) rest
    rw [offsets]
    rw [next] at tail ⊢
    rw [slices, tail, ← layout, List.flatten_cons, List.take_length_add_append, List.drop_left, List.take_left]

/-- Monotone offsets that end at the last value are those of the rows they cut. -/
theorem offsets_slices {values : List α} {start : Nat} {rest : List Nat} (monotone : (start :: rest).IsChain (· ≤ ·))
    (last : (start :: rest).getLast? = some values.length) :
    offsets start (slices values (start :: rest)) = start :: rest ∧
      (slices values (start :: rest)).flatten = values.drop start := by
  induction rest generalizing start with
  | nil =>
    rw [List.getLast?_singleton, Option.some.injEq] at last
    rw [last]
    exact ⟨rfl, by simp [slices]⟩
  | cons next more ih =>
    obtain ⟨le, chain⟩ := List.isChain_cons_cons.mp monotone
    rw [List.getLast?_cons_cons] at last
    obtain ⟨tail, rows⟩ := ih chain last
    have pairwise := List.pairwise_cons.mp (List.isChain_iff_pairwise.mp chain)
    have bound : next ≤ values.length := by
      rcases List.mem_cons.mp (List.mem_of_getLast? last) with same | later
      · exact same.ge
      · exact pairwise.1 _ later
    have size : ((values.take next).drop start).length = next - start := by
      rw [List.length_drop, List.length_take, min_eq_left bound]
    rw [slices, offsets, size, Nat.add_sub_cancel' le, tail]
    refine ⟨rfl, ?_⟩
    rw [List.flatten_cons, rows,
      ← List.drop_append_of_le_length (by rw [List.length_take, min_eq_left bound]; exact le),
      List.take_append_drop]

end Csr
