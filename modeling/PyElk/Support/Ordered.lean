import Mathlib.Data.List.Dedup
import Mathlib.Data.List.Sort
import Mathlib.Data.Prod.Lex
import Mathlib.Order.Lattice

namespace Ordered

variable {α κ : Type*} [LinearOrder κ] {key : α → κ}

/-- Sorting a list of distinct values by a key. -/
def sortedBy (key : α → κ) (values : List α) : List α :=
  values.insertionSort fun a b => key a ≤ key b

/-- The ascending list of the distinct values of `values`. -/
def sortedSet [DecidableEq α] (key : α → κ) (values : List α) : List α :=
  sortedBy key values.dedup

@[simp] theorem mem_sortedBy {values : List α} {x : α} : x ∈ sortedBy key values ↔ x ∈ values :=
  List.mem_insertionSort _

@[simp] theorem mem_sortedSet [DecidableEq α] {values : List α} {x : α} :
    x ∈ sortedSet key values ↔ x ∈ values := by
  simp only [sortedSet, mem_sortedBy, List.mem_dedup]

theorem sortedBy_perm (key : α → κ) (values : List α) : (sortedBy key values).Perm values :=
  List.perm_insertionSort _ _

theorem sortedBy_nodup {values : List α} (distinct : values.Nodup) : (sortedBy key values).Nodup :=
  (sortedBy_perm key values).nodup_iff.mpr distinct

theorem sortedSet_nodup [DecidableEq α] (key : α → κ) (values : List α) : (sortedSet key values).Nodup :=
  sortedBy_nodup (List.nodup_dedup values)

theorem sortedBy_pairwise (key : α → κ) (values : List α) :
    (sortedBy key values).Pairwise fun a b => key a ≤ key b := by
  have : Std.Total fun a b : α => key a ≤ key b := ⟨fun a b => le_total (key a) (key b)⟩
  have : IsTrans α fun a b : α => key a ≤ key b := ⟨fun _ _ _ => le_trans⟩
  exact List.pairwise_insertionSort _ values

theorem sortedSet_strict [DecidableEq α] (injective : Function.Injective key) (values : List α) :
    (sortedSet key values).Pairwise fun a b => key a < key b := by
  have order := sortedBy_pairwise key values.dedup
  have distinct := sortedSet_nodup key values
  exact (order.and distinct).imp fun ⟨le, ne⟩ => lt_of_le_of_ne le fun same => ne (injective same)

/-- Two strictly ascending lists with the same members are equal. -/
theorem eq_of_strict {left right : List α} (leftSorted : left.Pairwise fun a b => key a < key b)
    (rightSorted : right.Pairwise fun a b => key a < key b) (same : ∀ x, x ∈ left ↔ x ∈ right) :
    left = right := by
  have irreflexive : ∀ a : α, ¬ key a < key a := fun a => lt_irrefl _
  have distinct : ∀ {values : List α}, values.Pairwise (fun a b => key a < key b) → values.Nodup := by
    intro values sorted
    refine sorted.imp ?_
    rintro a b below rfl
    exact irreflexive a below
  have perm : left.Perm right :=
    (List.perm_ext_iff_of_nodup (distinct leftSorted) (distinct rightSorted)).mpr same
  exact perm.eq_of_pairwise (fun a b _ _ ab ba => absurd ab (lt_asymm ba)) leftSorted rightSorted

/-- The ascending list of a set of values only depends on the set. -/
theorem sortedSet_congr [DecidableEq α] (injective : Function.Injective key) {left right : List α}
    (same : ∀ x, x ∈ left ↔ x ∈ right) : sortedSet key left = sortedSet key right := by
  refine eq_of_strict (sortedSet_strict injective left) (sortedSet_strict injective right) fun x => ?_
  rw [mem_sortedSet, mem_sortedSet, same x]

/-- Sorting only depends on how the keys compare. -/
theorem sortedBy_congr {κ' : Type*} [LinearOrder κ'] {other : α → κ'} {values : List α}
    (same : ∀ a ∈ values, ∀ b ∈ values, key a ≤ key b ↔ other a ≤ other b) :
    sortedBy key values = sortedBy other values := by
  have insertion : ∀ (a : α) (sorted : List α), (∀ b ∈ sorted, key a ≤ key b ↔ other a ≤ other b) →
      sorted.orderedInsert (fun a b => key a ≤ key b) a = sorted.orderedInsert (fun a b => other a ≤ other b) a := by
    intro a sorted agree
    induction sorted with
    | nil => rfl
    | cons b rest ih =>
      rw [List.orderedInsert_cons, List.orderedInsert_cons,
        ih fun c member => agree c (List.mem_cons_of_mem _ member)]
      simp only [agree b List.mem_cons_self]
  induction values with
  | nil => rfl
  | cons a rest ih =>
    have tail := ih fun b memberB c memberC => same b (List.mem_cons_of_mem _ memberB) c
      (List.mem_cons_of_mem _ memberC)
    show (sortedBy key rest).orderedInsert _ a = (sortedBy other rest).orderedInsert _ a
    rw [← tail]
    exact insertion a _ fun b member =>
      same a List.mem_cons_self b (List.mem_cons_of_mem _ (mem_sortedBy.mp member))

/-- What is read off a list sorted by distinct keys only depends on the keys and on
what is read at each of them. -/
theorem map_sortedBy_congr {β : Type*} {read : α → β} {left right : List α} (distinctLeft : (left.map key).Nodup)
    (distinctRight : (right.map key).Nodup) (keys : ∀ k, k ∈ left.map key ↔ k ∈ right.map key)
    (agree : ∀ a ∈ left, ∀ b ∈ right, key a = key b → read a = read b) :
    (sortedBy key left).map read = (sortedBy key right).map read := by
  have sorted : ∀ {values : List α}, (values.map key).Nodup →
      ((sortedBy key values).map key).Pairwise fun a b => a < b := by
    intro values distinct
    have nodup : ((sortedBy key values).map key).Nodup := ((sortedBy_perm _ _).map _).nodup_iff.mpr distinct
    have order : ((sortedBy key values).map key).Pairwise fun a b => a ≤ b :=
      List.pairwise_map.mpr (sortedBy_pairwise key values)
    exact (order.and nodup).imp fun ⟨le, ne⟩ => lt_of_le_of_ne le ne
  have same : (sortedBy key left).map key = (sortedBy key right).map key := by
    refine @eq_of_strict _ _ _ id _ _ (sorted distinctLeft) (sorted distinctRight) fun k => ?_
    simp only [List.mem_map, mem_sortedBy] at keys ⊢
    exact keys k
  have length : (sortedBy key left).length = (sortedBy key right).length := by
    simpa only [List.length_map] using congrArg List.length same
  refine List.ext_getElem (by simpa only [List.length_map] using length) ?_
  intro index boundLeft boundRight
  rw [List.length_map] at boundLeft boundRight
  have entry : ((sortedBy key left).map key)[index]? = ((sortedBy key right).map key)[index]? := by rw [same]
  have there : key (sortedBy key left)[index] = key (sortedBy key right)[index] := by
    simpa only [List.getElem?_map, List.getElem?_eq_getElem boundLeft, List.getElem?_eq_getElem boundRight,
      Option.map_some, Option.some.injEq] using entry
  rw [List.getElem_map, List.getElem_map]
  exact agree _ (mem_sortedBy.mp (List.getElem_mem boundLeft)) _ (mem_sortedBy.mp (List.getElem_mem boundRight)) there

/-- The rows of the other keys stay. -/
theorem lookup_filter_ne {ι β : Type*} [DecidableEq ι] {dropped other : ι} (apart : other ≠ dropped)
    (rows : List (ι × β)) :
    (rows.filter fun row => row.1 ≠ dropped).lookup other = rows.lookup other := by
  induction rows with
  | nil => rfl
  | cons row rest ih =>
    obtain ⟨first, value⟩ := row
    by_cases here : first = dropped
    · subst here
      rw [List.filter_cons_of_neg (by simp), List.lookup_cons, beq_false_of_ne apart]
      exact ih
    · rw [List.filter_cons_of_pos (by simpa using here), List.lookup_cons, List.lookup_cons, ih]

section

variable {ι β : Type*} [DecidableEq ι]

/-- Storing under a key of a table in insertion order: a key that is there keeps its
place, a new one comes last. -/
def setItem (key : ι) (value : β) : List (ι × β) → List (ι × β)
  | [] => [(key, value)]
  | row :: rows => if row.1 = key then (key, value) :: rows else row :: setItem key value rows

variable {key : ι} {value : β} {rows : List (ι × β)}

theorem lookup_setItem {other : ι} :
    (setItem key value rows).lookup other = if other = key then some value else rows.lookup other := by
  induction rows with
  | nil =>
    by_cases same : other = key
    · rw [if_pos same, same]
      exact List.lookup_cons_self
    · rw [if_neg same, setItem, List.lookup_cons, beq_false_of_ne same]
  | cons row rest ih =>
    unfold setItem
    by_cases here : row.1 = key
    · subst here
      rw [if_pos rfl, List.lookup_cons, List.lookup_cons]
      by_cases same : other = row.1
      · rw [if_pos same, beq_iff_eq.mpr same]
      · rw [if_neg same, beq_false_of_ne same]
    · rw [if_neg here, List.lookup_cons, List.lookup_cons, ih]
      by_cases first : other = row.1
      · have apart : other ≠ key := fun same => here (first.symm.trans same)
        rw [beq_iff_eq.mpr first, if_neg apart, if_neg apart]
      · rw [beq_false_of_ne first]

/-- A row of the later table was stored now or stood there before. -/
theorem mem_setItem {row : ι × β} (member : row ∈ setItem key value rows) : row = (key, value) ∨ row ∈ rows := by
  induction rows with
  | nil => exact .inl (List.mem_singleton.mp member)
  | cons first rest ih =>
    unfold setItem at member
    split at member
    · exact (List.mem_cons.mp member).imp_right (List.mem_cons_of_mem _)
    · rcases List.mem_cons.mp member with rfl | later
      · exact .inr List.mem_cons_self
      · exact (ih later).imp_right (List.mem_cons_of_mem _)

theorem nodup_setItem (distinct : (rows.map Prod.fst).Nodup) : ((setItem key value rows).map Prod.fst).Nodup := by
  induction rows with
  | nil => exact List.nodup_singleton _
  | cons first rest ih =>
    obtain ⟨fresh, distinct⟩ := List.nodup_cons.mp distinct
    unfold setItem
    by_cases here : first.1 = key
    · rw [if_pos here]
      exact List.nodup_cons.mpr ⟨here ▸ fresh, distinct⟩
    · rw [if_neg here]
      refine List.nodup_cons.mpr ⟨fun member => ?_, ih distinct⟩
      obtain ⟨row, there, same⟩ := List.mem_map.mp member
      rcases mem_setItem there with rfl | old
      · exact here same.symm
      · exact fresh (same ▸ List.mem_map_of_mem old)

/-- Storing twice under one key keeps the second value, in the place of the first. -/
theorem setItem_twice (first second : β) : setItem key second (setItem key first rows) = setItem key second rows := by
  induction rows with
  | nil => exact if_pos rfl
  | cons row rest ih =>
    by_cases here : row.1 = key
    · simp only [setItem, if_pos here, if_true]
    · simp only [setItem, if_neg here, ih]

end

/-- The last of the items of an ascending list that are not above a bound is the largest one that is not. -/
theorem getLast?_takeWhile_le {values : List α} (sorted : values.Pairwise fun a b => key a ≤ key b) (bound : κ) :
    match (values.takeWhile fun a => key a ≤ bound).getLast? with
    | none => ∀ a ∈ values, bound < key a
    | some last => last ∈ values ∧ key last ≤ bound ∧ ∀ a ∈ values, key a ≤ bound → key a ≤ key last := by
  induction values with
  | nil => exact fun a member => absurd member List.not_mem_nil
  | cons first rest ih =>
    obtain ⟨above, sorted⟩ := List.pairwise_cons.mp sorted
    by_cases below : key first ≤ bound
    · rw [List.takeWhile_cons, if_pos (decide_eq_true below), List.getLast?_cons]
      have later := ih sorted
      cases found : (rest.takeWhile fun a => key a ≤ bound).getLast? with
      | none =>
        rw [found] at later
        refine ⟨.head _, below, fun a member under => ?_⟩
        obtain here | inside := List.mem_cons.mp member
        · exact here ▸ le_rfl
        · exact absurd under (later a inside).not_ge
      | some last =>
        rw [found] at later
        refine ⟨.tail _ later.1, later.2.1, fun a member under => ?_⟩
        obtain here | inside := List.mem_cons.mp member
        · exact here ▸ above last later.1
        · exact later.2.2 a inside under
    · rw [List.takeWhile_cons, if_neg (by rw [decide_eq_true_eq]; exact below)]
      exact List.forall_mem_cons.mpr ⟨not_le.mp below, fun a member => (not_le.mp below).trans_le (above a member)⟩

end Ordered
