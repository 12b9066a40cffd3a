import Mathlib.Data.List.Basic

/-- A set of small numbers in machine words, bit `i % 64` of word `i / 64` for `i`. -/
structure BitRow (words : Nat) where
  cells : List (BitVec 64)
  size : cells.length = words

namespace BitRow

variable {words : Nat}

def zero (words : Nat) : BitRow words := ⟨List.replicate words 0#64, List.length_replicate⟩

def test (row : BitRow words) (i : Nat) : Bool := (row.cells.getD (i / 64) 0#64 &&& 1#64 <<< (i % 64)) != 0#64

def set (row : BitRow words) (i : Nat) : BitRow words :=
  ⟨row.cells.modify (i / 64) fun word => word ||| 1#64 <<< (i % 64), by rw [List.length_modify, row.size]⟩

def union (row other : BitRow words) : BitRow words :=
  ⟨List.zipWith (fun word inherited => word ||| inherited) row.cells other.cells, by
    rw [List.length_zipWith, row.size, other.size, Nat.min_self]⟩

/-- The word that holds the bit of a number. -/
def word (row : BitRow words) (i : Nat) : BitVec 64 := row.cells.getD (i / 64) 0#64

theorem test_eq (row : BitRow words) (i : Nat) : row.test i = (row.word i).getLsbD (i % 64) := by
  have single : 1#64 <<< (i % 64) = BitVec.twoPow 64 (i % 64) := (BitVec.twoPow_eq 64 (i % 64)).symm
  have inside : i % 64 < 64 := Nat.mod_lt i (by decide)
  have nonzero : BitVec.twoPow 64 (i % 64) ≠ 0#64 := by
    intro zero
    have bit := congrArg (fun value => value.getLsbD (i % 64)) zero
    simp [inside] at bit
  rw [test, single, BitVec.and_twoPow, word]
  split
  · rename_i bit
    rw [bit]
    exact bne_iff_ne.mpr nonzero
  · rename_i clear
    rw [Bool.not_eq_true] at clear
    rw [clear]
    exact bne_self_eq_false _

@[simp] theorem test_zero (i : Nat) : (zero words).test i = false := by
  have empty : (zero words).word i = 0#64 := by
    rw [word, zero, List.getD_eq_getElem?_getD, List.getElem?_replicate]
    split <;> rfl
  rw [test_eq, empty, BitVec.getLsbD_zero]

/-- Setting a bit changes that bit alone. -/
theorem test_set {row : BitRow words} {i : Nat} (inside : i / 64 < words) (j : Nat) :
    (row.set i).test j ↔ row.test j ∨ i = j := by
  have bound : i / 64 < row.cells.length := row.size.symm ▸ inside
  have small : j % 64 < 64 := Nat.mod_lt j (by decide)
  rw [test_eq, test_eq, word, word, set, List.getD_eq_getElem?_getD, List.getD_eq_getElem?_getD, List.getElem?_modify]
  by_cases same : i / 64 = j / 64
  · have here : j / 64 < row.cells.length := same ▸ bound
    have rest : i % 64 = j % 64 ↔ i = j := by omega
    simp only [if_pos same, List.getElem?_eq_getElem here, Option.map_eq_map, Option.map_some, Option.getD_some]
    rw [BitVec.getLsbD_or, ← BitVec.twoPow_eq, BitVec.getLsbD_twoPow, Bool.or_eq_true, Bool.and_eq_true,
      decide_eq_true_eq, decide_eq_true_eq, rest, and_iff_right (Nat.mod_lt i (by decide))]
  · have apart : i ≠ j := fun equal => same (equal ▸ rfl)
    simp only [if_neg same, Option.map_eq_map, Option.map_id_fun', id, or_iff_left apart]

/-- The union of two rows has the bits of either. -/
theorem test_union (row other : BitRow words) (i : Nat) :
    (row.union other).test i = (row.test i || other.test i) := by
  rw [test_eq, test_eq, test_eq, word, word, word, union, List.getD_eq_getElem?_getD, List.getD_eq_getElem?_getD,
    List.getD_eq_getElem?_getD, List.getElem?_zipWith]
  by_cases inside : i / 64 < words
  · have first : i / 64 < row.cells.length := row.size.symm ▸ inside
    have second : i / 64 < other.cells.length := other.size.symm ▸ inside
    rw [List.getElem?_eq_getElem first, List.getElem?_eq_getElem second]
    exact BitVec.getLsbD_or
  · have first : row.cells[i / 64]? = none := List.getElem?_eq_none (row.size.symm ▸ Nat.le_of_not_lt inside)
    have second : other.cells[i / 64]? = none := List.getElem?_eq_none (other.size.symm ▸ Nat.le_of_not_lt inside)
    rw [first, second]
    simp

end BitRow
