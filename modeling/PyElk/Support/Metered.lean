import Mathlib.Algebra.Order.Ring.Nat
import PyElk.Support.Raising

namespace Raising

variable {ε α β : Type}

/-- A program that spends: started with no less than `low` spent, it gives the value at the cost if that stays
within the maximum, and stops for want of it otherwise. -/
def Meters (stops : ε → Prop) (maximum low : Nat) (step : Raising ε Nat α) (value : α) (cost : Nat) : Prop :=
  ∀ spent, low ≤ spent → spent ≤ maximum →
    (spent + cost ≤ maximum → step spent = (.ok value, spent + cost)) ∧
      (maximum < spent + cost → ∃ raised later, step spent = (.error raised, later) ∧ stops raised)

section

variable {stops : ε → Prop} {maximum low : Nat} {step : Raising ε Nat α} {value : α} {cost : Nat}

theorem Meters.pure (value : α) : Meters stops maximum low (Pure.pure value : Raising ε Nat α) value 0 :=
  fun _ _ within => ⟨fun _ => rfl, fun beyond => absurd within (by omega)⟩

theorem Meters.check {outcome : Except ε α} (found : outcome = .ok value) :
    Meters stops maximum low (check outcome : Raising ε Nat α) value 0 := by
  subst found
  exact .pure value

theorem Meters.bind {next : α → Raising ε Nat β} {last : β} {more : Nat}
    (first : Meters stops maximum low step value cost)
    (second : Meters stops maximum (low + cost) (next value) last more) :
    Meters stops maximum low (step >>= next) last (cost + more) := by
  intro spent above within
  obtain ⟨succeeds, fails⟩ := first spent above within
  by_cases enough : spent + cost ≤ maximum
  · obtain ⟨succeeds', fails'⟩ := second (spent + cost) (by omega) enough
    rw [bind_ok (succeeds enough), ← Nat.add_assoc]
    exact ⟨succeeds', fails'⟩
  · obtain ⟨raised, later, failed, stopped⟩ := fails (by omega)
    refine ⟨fun all => absurd all (by omega), fun _ => ⟨raised, later, ?_, stopped⟩⟩
    exact bind_error failed

/-- A step that costs nothing. -/
theorem Meters.free {next : α → Raising ε Nat β} {last : β} {more : Nat}
    (first : Meters stops maximum low step value 0)
    (second : Meters stops maximum low (next value) last more) :
    Meters stops maximum low (step >>= next) last more := by
  have both : Meters stops maximum low (step >>= next) last (0 + more) := first.bind second
  rwa [Nat.zero_add] at both

/-- Nothing is spent behind it. -/
theorem Meters.bind_free {next : α → Raising ε Nat β} {last : β} (first : Meters stops maximum low step value cost)
    (second : Meters stops maximum (low + cost) (next value) last 0) :
    Meters stops maximum low (step >>= next) last cost :=
  first.bind second

theorem Meters.check_bind {outcome : Except ε α} {next : α → Raising ε Nat β} {last : β} {more : Nat}
    (found : outcome = .ok value)
    (second : Meters stops maximum low (next value) last more) :
    Meters stops maximum low (Raising.check outcome >>= next) last more := .free (.check found) second

theorem Meters.if_pos {condition : Prop} [Decidable condition] {other : Raising ε Nat α} (holds : condition)
    (meters : Meters stops maximum low step value cost) :
    Meters stops maximum low (if condition then step else other) value cost := by
  rw [ite_cond_eq_true _ _ (eq_true holds)]
  exact meters

theorem Meters.if_neg {condition : Prop} [Decidable condition] {other : Raising ε Nat α} (fails : ¬ condition)
    (meters : Meters stops maximum low step value cost) :
    Meters stops maximum low (if condition then other else step) value cost := by
  rw [ite_cond_eq_false _ _ (eq_false fails)]
  exact meters

/-- Nothing starts above the maximum. -/
theorem Meters.of_lt (beyond : maximum < low) : Meters stops maximum low step value cost :=
  fun _ above within => absurd within (by omega)

/-- A loop that adds up the sizes of its items, each at no more than its price. -/
theorem Meters.foldlM_add {body : Nat → β → Raising ε Nat Nat} {size price : β → Nat} {bound : Nat}
    {items : List β} {start : Nat}
    (fits : start + (items.map size).sum < bound)
    (each : ∀ item ∈ items, ∀ total low, total + size item < bound →
      ∃ cost ≤ price item, Meters stops maximum low (body total item) (total + size item) cost) :
    ∃ cost ≤ (items.map price).sum,
      Meters stops maximum low (items.foldlM body start) (start + (items.map size).sum) cost := by
  induction items generalizing start low with
  | nil => exact ⟨0, Nat.le_refl _, .pure _⟩
  | cons item rest ih =>
    rw [List.map_cons, List.sum_cons] at fits ⊢
    obtain ⟨cost, few, first⟩ := each item (.head _) start low (by omega)
    have fits' : start + size item + (rest.map size).sum < bound := by omega
    obtain ⟨more, few', others⟩ := ih fits' fun other member => each other (.tail _ member)
    have both : Meters stops maximum low ((item :: rest).foldlM body start) (start + size item + (rest.map size).sum)
      (cost + more) :=
      first.bind others
    rw [Nat.add_assoc] at both
    exact ⟨cost + more, Nat.add_le_add few few', both⟩

end

end Raising
