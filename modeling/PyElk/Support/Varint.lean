import Mathlib.Data.List.Basic
import Mathlib.Data.Nat.Log
import Mathlib.Tactic.Ring

namespace Lexicographic

section

variable {α : Type*}

/-- Whatever follows them, two strings are told apart within both of them unless they are the same. -/
def Parses (first second : List α) : Prop := ∀ rest other, first ++ rest = second ++ other → first = second

theorem Parses.refl (string : List α) : Parses string string := fun _ _ _ => rfl

theorem Parses.of_length {first second : List α} (same : first.length = second.length) : Parses first second :=
  fun _ _ equal => List.append_inj_left equal same

/-- Strings that parse are continued by strings that parse. -/
theorem Parses.append {first second next other : List α} (parses : Parses first second)
    (later : first = second → Parses next other) : Parses (first ++ next) (second ++ other) := by
  intro rest last equal
  rw [List.append_assoc, List.append_assoc] at equal
  have same := parses _ _ equal
  subst same
  rw [later rfl _ _ (List.append_cancel_left equal)]

theorem Parses.cons {a b : α} {first second : List α} (later : a = b → Parses first second) :
    Parses (a :: first) (b :: second) := by
  intro rest last equal
  obtain ⟨same, equal⟩ := List.cons.inj equal
  rw [same, later same _ _ equal]

/-- A list of codewords parses when each codeword does and the lists are of one length. -/
theorem Parses.flatMap {β : Type*} {left right : List β} {encode other : β → List α}
    (each : ∀ pair ∈ left.zip right, Parses (encode pair.1) (other pair.2)) (same : left.length = right.length) :
    Parses (left.flatMap encode) (right.flatMap other) := by
  induction left generalizing right with
  | nil =>
    have ended := List.eq_nil_of_length_eq_zero same.symm
    subst ended
    exact .refl _
  | cons item rest ih =>
    cases right with
    | nil => cases same
    | cons item' rest' =>
      rw [List.zip_cons_cons, List.forall_mem_cons] at each
      rw [List.flatMap_cons, List.flatMap_cons]
      exact each.1.append fun _ => ih each.2 (Nat.succ.inj same)

end

section

variable {α : Type*} [Ord α] [Std.LawfulEqOrd α]

theorem compare_self (string : List α) : compare string string = .eq := Std.ReflOrd.compare_self

theorem compare_eq_iff {first second : List α} : compare first second = .eq ↔ first = second :=
  Std.LawfulEqOrd.compare_eq_iff_eq

/-- The order of two strings is that of their first parts, unless these are the same. -/
theorem compare_append {first second : List α} (parses : Parses first second) (rest other : List α) :
    compare (first ++ rest) (second ++ other) = (compare first second).then (compare rest other) := by
  induction first generalizing second with
  | nil =>
    have ended : second = [] := (parses (second ++ other) other rfl).symm
    subst ended
    rfl
  | cons a first ih =>
    cases second with
    | nil => exact absurd (parses rest (a :: first ++ rest) rfl) (List.cons_ne_nil _ _)
    | cons b second =>
      rw [List.cons_append, List.cons_append, List.compare_cons_cons, List.compare_cons_cons, Ordering.then_assoc]
      by_cases same : a = b
      · subst same
        have inner : Parses first second := by
          intro rest other equal
          exact (List.cons.inj (parses rest other (congrArg (a :: ·) equal))).2
        rw [ih inner]
      · have differ : compare a b ≠ .eq := fun equal => same (Std.LawfulEqOrd.compare_eq_iff_eq.mp equal)
        cases order : compare a b with
        | eq => exact absurd order differ
        | lt => rfl
        | gt => rfl

/-- A string between two that start the same starts so too. -/
theorem prefix_of_between [Std.OrientedOrd α] {start first second middle : List α}
    (above : (compare (start ++ first) middle).isLE) (below : (compare middle (start ++ second)).isLE) :
    start <+: middle := by
  induction start generalizing middle with
  | nil => exact List.nil_prefix
  | cons a start ih =>
    cases middle with
    | nil => cases above
    | cons b middle =>
      rw [List.cons_append, List.compare_cons_cons] at above below
      rw [Std.OrientedOrd.eq_swap] at below
      cases order : compare a b with
      | lt =>
        rw [order] at below
        cases below
      | gt =>
        rw [order] at above
        cases above
      | eq =>
        rw [order] at above below
        rw [Std.LawfulEqOrd.compare_eq_iff_eq.mp order]
        exact (List.prefix_cons_inj b).mpr (ih above below)

omit [Std.LawfulEqOrd α] in
/-- Strings compare place by place, a missing place below every other. -/
theorem compare_eq_foldr (first second : List α) :
    compare first second = (List.range (max first.length second.length)).foldr
      (fun index later => (compare first[index]? second[index]?).then later) .eq := by
  induction first generalizing second with
  | nil =>
    cases second with
    | nil => rfl
    | cons b second =>
      rw [List.length_nil, List.length_cons, Nat.zero_max, List.range_succ_eq_map, List.foldr_cons]
      rfl
  | cons a first ih =>
    cases second with
    | nil =>
      rw [List.length_nil, List.length_cons, Nat.max_zero, List.range_succ_eq_map, List.foldr_cons]
      rfl
    | cons b second =>
      rw [List.compare_cons_cons, ih, List.length_cons, List.length_cons, Nat.succ_max_succ, List.range_succ_eq_map,
        List.foldr_cons, List.foldr_map]
      rfl

end

/-- The number of binary digits. -/
def bitLength (value : Nat) : Nat := if value = 0 then 0 else value.log2 + 1

/-- Groups of seven bits, the least significant first, each but the last one marked. -/
def varint (value : Nat) : List UInt8 :=
  if value < 128 then [UInt8.ofNat value] else UInt8.ofNat (value % 128 + 128) :: varint (value / 128)

/-- The number of groups. -/
def varintWidth (value : Nat) : Nat := max ((bitLength value + 6) / 7) 1

/-- One group. -/
def varintByte (value index width : Nat) : UInt8 :=
  UInt8.ofNat (value / 2 ^ (7 * index) % 128 + if index + 1 < width then 128 else 0)

section

variable {value : Nat}

theorem varint_of_lt (small : value < 128) : varint value = [UInt8.ofNat value] := by
  rw [varint, if_pos small]

theorem varint_of_le (large : 128 ≤ value) :
    varint value = UInt8.ofNat (value % 128 + 128) :: varint (value / 128) := by
  rw [varint, if_neg (by omega)]

theorem varint_ne_nil (value : Nat) : varint value ≠ [] := by
  rw [varint]
  split
  · exact List.cons_ne_nil _ _
  · exact List.cons_ne_nil _ _

theorem varint_length_pos (value : Nat) : 0 < (varint value).length := List.length_pos_iff.mpr (varint_ne_nil value)

/-- Dropping low bits shortens a number by as many. -/
theorem bitLength_div (count : Nat) (large : 2 ^ count ≤ value) :
    bitLength value = bitLength (value / 2 ^ count) + count := by
  have positive : value / 2 ^ count ≠ 0 := (Nat.div_pos large (Nat.two_pow_pos _)).ne'
  have nonzero : value ≠ 0 := (lt_of_lt_of_le (Nat.two_pow_pos _) large).ne'
  have shifted : (value / 2 ^ count).log2 = value.log2 - count := by
    rw [Nat.log2_eq_log_two, Nat.log2_eq_log_two, Nat.log_div_base_pow]
  have high : count ≤ value.log2 := (Nat.le_log2 nonzero).mpr large
  rw [bitLength, if_neg nonzero, bitLength, if_neg positive]
  omega

theorem varintWidth_of_lt (small : value < 128) : varintWidth value = 1 := by
  have few : bitLength value ≤ 7 := by
    rw [bitLength]
    split
    · omega
    · next positive =>
      have := (Nat.log2_lt positive).mpr (show value < 2 ^ 7 from small)
      omega
  rw [varintWidth]
  omega

theorem varintWidth_of_le (large : 128 ≤ value) : varintWidth value = varintWidth (value / 128) + 1 := by
  have positive : 1 ≤ bitLength (value / 128) := by
    rw [bitLength, if_neg (by omega)]
    omega
  have shifted : bitLength value = bitLength (value / 128) + 7 := bitLength_div 7 large
  rw [varintWidth, varintWidth, shifted]
  omega

/-- The length of a varint is the width of its number. -/
theorem varint_length (value : Nat) : (varint value).length = varintWidth value := by
  induction value using Nat.strongRecOn with
  | ind value ih =>
    by_cases small : value < 128
    · rw [varint_of_lt small, varintWidth_of_lt small, List.length_singleton]
    · rw [varint_of_le (by omega), varintWidth_of_le (by omega), List.length_cons, ih _ (by omega)]

/-- The byte at a place of a varint. -/
theorem varint_getElem? (value index : Nat) :
    (varint value)[index]? =
      if index < varintWidth value then some (varintByte value index (varintWidth value)) else none := by
  induction value using Nat.strongRecOn generalizing index with
  | ind value ih =>
    by_cases small : value < 128
    · rw [varint_of_lt small, varintWidth_of_lt small]
      cases index with
      | zero =>
        rw [if_pos (by omega), varintByte]
        simp [Nat.mod_eq_of_lt small]
      | succ index => rw [if_neg (by omega)]; rfl
    · rw [varint_of_le (by omega), varintWidth_of_le (by omega)]
      cases index with
      | zero =>
        have more : 0 + 1 < varintWidth (value / 128) + 1 := by rw [varintWidth]; omega
        rw [if_pos (by omega), varintByte, if_pos more]
        simp
      | succ index =>
        have shifted : value / 2 ^ (7 * (index + 1)) = value / 128 / 2 ^ (7 * index) := by
          rw [Nat.mul_succ, Nat.pow_add, Nat.mul_comm, ← Nat.div_div_eq_div_mul]
        rw [List.getElem?_cons_succ, ih _ (by omega), varintByte, varintByte, shifted]
        simp only [Nat.add_lt_add_iff_right]

theorem varint_eq_map (value : Nat) :
    varint value = (List.range (varintWidth value)).map fun index => varintByte value index (varintWidth value) := by
  refine List.ext_getElem? fun index => ?_
  rw [varint_getElem?, List.getElem?_map]
  by_cases within : index < varintWidth value
  · rw [if_pos within, List.getElem?_range within]
    rfl
  · rw [if_neg within, List.getElem?_eq_none (by rw [List.length_range]; omega)]
    rfl

/-- A number is told apart from every other within its groups. -/
theorem varint_parses (first second : Nat) : Lexicographic.Parses (varint first) (varint second) := by
  induction first using Nat.strongRecOn generalizing second with
  | ind first ih =>
    intro rest other equal
    have head := congrArg List.head? equal
    by_cases small : first < 128
    · rw [varint_of_lt small] at equal head
      by_cases small' : second < 128
      · rw [varint_of_lt small'] at equal head
        simp only [List.cons_append, List.head?_cons, Option.some.injEq] at head
        rw [varint_of_lt small, varint_of_lt small', head]
      · rw [varint_of_le (by omega)] at head
        simp only [List.cons_append, List.head?_cons, Option.some.injEq] at head
        have bytes := congrArg UInt8.toNat head
        rw [UInt8.toNat_ofNat', UInt8.toNat_ofNat'] at bytes
        omega
    · rw [varint_of_le (by omega)] at equal head
      by_cases small' : second < 128
      · rw [varint_of_lt small'] at head
        simp only [List.cons_append, List.head?_cons, Option.some.injEq] at head
        have bytes := congrArg UInt8.toNat head
        rw [UInt8.toNat_ofNat', UInt8.toNat_ofNat'] at bytes
        omega
      · have large : 128 ≤ second := by omega
        rw [varint_of_le large] at equal
        obtain ⟨same, tail⟩ := List.cons.inj equal
        rw [varint_of_le (by omega : 128 ≤ first), varint_of_le large, same,
          ih (first / 128) (by omega) (second / 128) rest other tail]

/-- A varint determines its number. -/
theorem varint_injective {first second : Nat} (same : varint first = varint second) : first = second := by
  induction first using Nat.strongRecOn generalizing second with
  | ind first ih =>
    by_cases small : first < 128
    · by_cases small' : second < 128
      · rw [varint_of_lt small, varint_of_lt small'] at same
        have bytes := congrArg UInt8.toNat (List.cons.inj same).1
        rw [UInt8.toNat_ofNat', UInt8.toNat_ofNat'] at bytes
        omega
      · rw [varint_of_lt small, varint_of_le (by omega)] at same
        exact absurd (List.cons.inj same).2.symm (varint_ne_nil _)
    · by_cases small' : second < 128
      · rw [varint_of_le (by omega), varint_of_lt small'] at same
        exact absurd (List.cons.inj same).2 (varint_ne_nil _)
      · have large : 128 ≤ second := by omega
        rw [varint_of_le (by omega), varint_of_le large] at same
        have bytes := congrArg UInt8.toNat (List.cons.inj same).1
        rw [UInt8.toNat_ofNat', UInt8.toNat_ofNat'] at bytes
        have tail := ih (first / 128) (by omega) (List.cons.inj same).2
        omega

variable {β : Type*} {encode : β → List UInt8}

/-- The codes of a list, with their number in front. -/
def counted (encode : β → List UInt8) (items : List β) : List UInt8 := varint items.length ++ items.flatMap encode

/-- A list preceded by its length parses when its members do. -/
theorem counted_parses (parses : ∀ first second, Parses (encode first) (encode second)) (left right : List β) :
    Parses (counted encode left) (counted encode right) :=
  (varint_parses _ _).append fun same => .flatMap (fun _ _ => parses _ _) (varint_injective same)

/-- Where no code starts another one, the codes of a list tell it. -/
theorem counted_injective (parses : ∀ first second, Parses (encode first) (encode second))
    (injective : Function.Injective encode) :
    Function.Injective (counted encode) := by
  intro left right same
  have lengths := varint_parses left.length right.length _ _ same
  rw [counted, counted, lengths] at same
  have codes := List.append_cancel_left same
  have count := varint_injective lengths
  clear lengths same
  induction left generalizing right with
  | nil => exact (List.eq_nil_of_length_eq_zero count.symm).symm
  | cons item rest ih =>
    cases right with
    | nil => cases count
    | cons other others =>
      rw [List.flatMap_cons, List.flatMap_cons] at codes
      have first := parses item other _ _ codes
      rw [first] at codes
      rw [injective first, ih (List.append_cancel_left codes) (Nat.succ.inj count)]

end

end Lexicographic
