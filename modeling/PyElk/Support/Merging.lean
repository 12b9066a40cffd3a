import Mathlib.Algebra.Order.BigOperators.Group.List
import Mathlib.Algebra.Order.Ring.Nat
import Mathlib.Data.List.Sublists
import Mathlib.Order.Basic

namespace Merging

variable {α : Type*} (order : α → α → Ordering)

/-- A list without its head, if that is equal to an item. -/
def dropHead (item : α) : List α → List α
  | [] => []
  | first :: rest => if order first item = .eq then rest else first :: rest

/-- Lists merged into one: each time the least head is next, and every list that starts with its equal moves on. -/
inductive Merges : List (List α) → List α → Prop
  | done {lists : List (List α)} (empty : ∀ list ∈ lists, list = []) : Merges lists []
  | turn {lists : List (List α)} {item : α} {merged : List α} (head : ∃ list ∈ lists, list.head? = some item)
      (least : ∀ list ∈ lists, ∀ other ∈ list.head?, (order item other).isLE)
      (rest : Merges (lists.map (dropHead order item)) merged) : Merges lists (item :: merged)

variable {order}

theorem dropHead_sublist (item : α) (list : List α) : (dropHead order item list).Sublist list := by
  cases list with
  | nil => exact .refl _
  | cons first rest =>
    rw [dropHead]
    split
    · exact List.sublist_cons_self first rest
    · exact .refl _

/-- Nothing is merged that is in none of the lists. -/
theorem Merges.mem {lists : List (List α)} {merged : List α} (merges : Merges order lists merged) {item : α}
    (member : item ∈ merged) :
    ∃ list ∈ lists, item ∈ list := by
  induction merges with
  | done => cases member
  | turn head _ _ ih =>
    obtain here | later := List.mem_cons.mp member
    · obtain ⟨list, inside, first⟩ := head
      exact ⟨list, inside, here ▸ List.mem_of_mem_head? first⟩
    · obtain ⟨dropped, inside, found⟩ := ih later
      obtain ⟨list, inLists, rfl⟩ := List.mem_map.mp inside
      exact ⟨list, inLists, (dropHead_sublist _ list).subset found⟩

/-- Nothing is lost. -/
theorem Merges.exists_eq {lists : List (List α)} {merged : List α} (merges : Merges order lists merged)
    {list : List α} {item : α}
    (inside : list ∈ lists) (member : item ∈ list) : ∃ other ∈ merged, order item other = .eq := by
  induction merges generalizing list with
  | done empty =>
    rw [empty list inside] at member
    cases member
  | @turn lists least merged head below _ ih =>
    by_cases gone : item ∈ dropHead order least list
    · obtain ⟨other, found, same⟩ := ih (List.mem_map.mpr ⟨list, inside, rfl⟩) gone
      exact ⟨other, .tail _ found, same⟩
    · cases list with
      | nil => cases member
      | cons first rest =>
        rw [dropHead] at gone
        split at gone
        · next same =>
          obtain here | later := List.mem_cons.mp member
          · exact ⟨least, .head _, here ▸ same⟩
          · exact absurd later gone
        · exact absurd member gone

variable [Std.TransCmp order]

/-- Ascending lists are merged into an ascending one, so nothing is there twice. -/
theorem Merges.ascending {lists : List (List α)} {merged : List α} (merges : Merges order lists merged)
    (ascend : ∀ list ∈ lists, list.Pairwise fun first second => order first second = .lt) :
    merged.Pairwise fun first second => order first second = .lt := by
  induction merges with
  | done => exact .nil
  | @turn lists least merged head below rest ih =>
    have later : ∀ list ∈ lists.map (dropHead order least),
      list.Pairwise fun first second => order first second = .lt := by
      intro dropped inside
      obtain ⟨list, inLists, rfl⟩ := List.mem_map.mp inside
      exact (ascend list inLists).sublist (dropHead_sublist _ list)
    refine .cons (fun other member => ?_) (ih later)
    obtain ⟨dropped, inside, found⟩ := rest.mem member
    obtain ⟨list, inLists, rfl⟩ := List.mem_map.mp inside
    cases list with
    | nil => cases found
    | cons first tail =>
      have bound := below _ inLists first rfl
      have above := (List.pairwise_cons.mp (ascend _ inLists)).1
      rw [dropHead] at found
      split at found
      · exact Std.TransCmp.lt_of_isLE_of_lt bound (above other found)
      · next differs =>
        obtain here | behind := List.mem_cons.mp found
        · rw [here]
          cases position : order least first with
          | lt => rfl
          | eq => exact absurd (Std.OrientedCmp.eq_symm position) differs
          | gt =>
            rw [position] at bound
            cases bound
        · exact Std.TransCmp.lt_of_isLE_of_lt bound (above other behind)

/-- Of some items one is least. -/
theorem exists_least {items : List α} (nonempty : items ≠ []) :
    ∃ item ∈ items, ∀ other ∈ items, (order item other).isLE := by
  induction items with
  | nil => exact absurd rfl nonempty
  | cons first rest ih =>
    have itself : (order first first).isLE := by
      rw [show order first first = .eq from Std.ReflCmp.compare_self]
      rfl
    by_cases alone : rest = []
    · subst alone
      exact ⟨first, .head _, fun other member => List.mem_singleton.mp member ▸ itself⟩
    · obtain ⟨least, inside, below⟩ := ih alone
      by_cases before : (order first least).isLE
      · refine ⟨first, .head _, fun other member => ?_⟩
        obtain here | later := List.mem_cons.mp member
        · exact here ▸ itself
        · exact Std.TransCmp.isLE_trans before (below other later)
      · refine ⟨least, .tail _ inside, fun other member => ?_⟩
        obtain here | later := List.mem_cons.mp member
        · rw [here]
          cases position : order first least with
          | gt =>
            rw [Std.OrientedCmp.lt_of_gt position]
            rfl
          | lt =>
            rw [position] at before
            exact absurd rfl before
          | eq =>
            rw [position] at before
            exact absurd rfl before
        · exact below other later

/-- Any lists can be merged. -/
theorem exists_merges (lists : List (List α)) : ∃ merged, Merges order lists merged := by
  induction size : (lists.map List.length).sum using Nat.strong_induction_on generalizing lists with
  | _ total ih =>
    by_cases empty : ∀ list ∈ lists, list = []
    · exact ⟨[], .done empty⟩
    · push Not at empty
      obtain ⟨list, inside, nonempty⟩ := empty
      have heads : lists.filterMap List.head? ≠ [] :=
        List.ne_nil_of_mem (List.mem_filterMap.mpr ⟨list, inside, List.head?_eq_some_head nonempty⟩)
      obtain ⟨least, found, below⟩ := @exists_least _ order _ _ heads
      obtain ⟨front, frontIn, head⟩ := List.mem_filterMap.mp found
      -- the list that starts with the least head moves on, and none grows
      have smaller : ((lists.map (dropHead order least)).map List.length).sum < total := by
        rw [← size, List.map_map]
        refine List.sum_lt_sum _ _ (fun other _ => (dropHead_sublist least other).length_le) ⟨front, frontIn, ?_⟩
        cases front with
        | nil => cases head
        | cons first rest =>
          obtain rfl := Option.some.inj head
          rw [Function.comp_apply, dropHead, if_pos Std.ReflCmp.compare_self]
          exact Nat.lt_succ_self _
      obtain ⟨merged, rest⟩ := ih _ smaller _ rfl
      exact ⟨least :: merged, .turn ⟨front, frontIn, head⟩
        (fun other otherIn first start => below first (List.mem_filterMap.mpr ⟨other, otherIn, start⟩)) rest⟩

section

variable {μ : Type*} [DecidableEq μ] (mark : α → μ)

/-- An item is kept unless the last one that was kept has its mark. -/
def keepFirst (kept : List α) (item : α) : List α :=
  if kept.getLast?.map mark = some (mark item) then kept else kept ++ [item]

variable {mark}

theorem keepFirst_mark (kept : List α) (item : α) : ∃ other ∈ keepFirst mark kept item, mark other = mark item := by
  rw [keepFirst]
  split
  · next same =>
    obtain ⟨last, found, equal⟩ := Option.map_eq_some_iff.mp same
    exact ⟨last, List.mem_of_getLast? found, equal⟩
  · exact ⟨item, List.mem_append_right _ (.head _), rfl⟩

theorem keepFirst_subset {items : List α} :
    items.foldl (keepFirst mark) [] ⊆ items := by
  induction items using List.reverseRecOn with
  | nil => exact List.Subset.refl _
  | append_singleton done item ih =>
    rw [List.foldl_append, List.foldl_cons, List.foldl_nil, keepFirst]
    split
    · exact List.Subset.trans ih (List.subset_append_left _ _)
    · exact List.append_subset.mpr ⟨List.Subset.trans ih (List.subset_append_left _ _), List.subset_append_right _ _⟩

/-- Where the items of one mark lie side by side, one of each mark is kept. -/
theorem keepFirst_once {before : α → α → Prop} {items : List α} (ascend : items.Pairwise before)
    (adjacent : ∀ first ∈ items, ∀ middle ∈ items, ∀ last ∈ items, before first middle → before middle last →
      mark first = mark last → mark middle = mark last) :
    (items.foldl (keepFirst mark) []).Sublist items ∧ ((items.foldl (keepFirst mark) []).map mark).Nodup ∧
      ∀ item ∈ items, ∃ other ∈ items.foldl (keepFirst mark) [], mark other = mark item := by
  induction items using List.reverseRecOn with
  | nil => exact ⟨.refl _, .nil, fun item member => absurd member List.not_mem_nil⟩
  | append_singleton done item ih =>
    obtain ⟨ascending, _, above⟩ := List.pairwise_append.mp ascend
    have inside : ∀ other ∈ done, other ∈ done ++ [item] := fun other member => List.mem_append_left _ member
    obtain ⟨sublist, distinct, every⟩ := ih ascending fun first firstIn middle middleIn last lastIn =>
      adjacent first (inside first firstIn) middle (inside middle middleIn) last (inside last lastIn)
    rw [List.foldl_append, List.foldl_cons, List.foldl_nil]
    have covered : ∃ other ∈ keepFirst mark (done.foldl (keepFirst mark) []) item, mark other = mark item :=
      keepFirst_mark _ item
    have subset : ∀ other ∈ done.foldl (keepFirst mark) [],
      other ∈ keepFirst mark (done.foldl (keepFirst mark) []) item := by
      intro other member
      rw [keepFirst]
      split
      · exact member
      · exact List.mem_append_left _ member
    refine ⟨?_, ?_, fun other member => ?_⟩
    · rw [keepFirst]
      split
      · exact sublist.trans (List.sublist_append_left done [item])
      · exact sublist.append (.refl [item])
    · rw [keepFirst]
      split
      · exact distinct
      · next differs =>
        rw [List.map_append, List.nodup_append]
        refine ⟨distinct, List.nodup_singleton _, fun _ earlier _ here same => differs ?_⟩
        obtain ⟨first, kept, rfl⟩ := List.mem_map.mp earlier
        rw [List.map_singleton, List.mem_singleton] at here
        subst here
        -- the last one kept lies between the one of this mark and the item
        obtain nothing | ⟨rest, last, whole⟩ := List.eq_nil_or_concat (done.foldl (keepFirst mark) [])
        · rw [nothing] at kept
          cases kept
        · rw [List.concat_eq_append] at whole
          rw [whole, List.getLast?_concat, Option.map_some, Option.some.injEq]
          have lastKept : last ∈ done.foldl (keepFirst mark) [] := whole ▸ List.mem_append_right rest (.head _)
          have lastIn := sublist.subset lastKept
          have firstIn := sublist.subset kept
          obtain earlier | here := List.mem_append.mp (whole ▸ kept)
          · have order := ascending.sublist sublist
            rw [whole] at order
            have below := (List.pairwise_append.mp order).2.2 first earlier last (.head _)
            exact adjacent first (inside first firstIn) last (inside last lastIn) item
              (List.mem_append_right done (.head _)) below
              (above last lastIn item (.head _)) same
          · rw [← List.mem_singleton.mp here]
            exact same
    · obtain earlier | here := List.mem_append.mp member
      · obtain ⟨found, kept, same⟩ := every other earlier
        exact ⟨found, subset found kept, same⟩
      · rw [List.mem_singleton.mp here]
        exact covered

end

/-- The items of a set, in their order. -/
structure Listing {α : Type*} (order : α → α → Ordering) (set : Set α) (items : List α) : Prop where
  ascend : items.Pairwise fun first second => order first second = .lt
  mem : ∀ item, item ∈ items ↔ item ∈ set

/-- A listing tells its set. -/
theorem Listing.set_eq {α : Type*} {order : α → α → Ordering} {set other : Set α} {items : List α}
    (listing : Listing order set items)
    (again : Listing order other items) : set = other :=
  Set.ext fun item => (listing.mem item).symm.trans (again.mem item)

/-- A set has one listing. -/
theorem Listing.unique {α : Type*} {order : α → α → Ordering} [Std.TransCmp order] {set : Set α}
    {first second : List α}
    (listing : Listing order set first) (other : Listing order set second) : first = second := by
  have distinct : ∀ {items : List α}, Listing order set items → items.Nodup := by
    intro items listing
    refine listing.ascend.imp fun {a b} below same => ?_
    have equal : order b b = .eq := Std.ReflCmp.compare_self
    rw [same, equal] at below
    cases below
  have perm : first.Perm second :=
    (List.perm_ext_iff_of_nodup (distinct listing) (distinct other)).mpr fun item =>
      (listing.mem item).trans (other.mem item).symm
  refine perm.eq_of_pairwise (fun a b _ _ below above => ?_) listing.ascend other.ascend
  rw [Std.OrientedCmp.gt_of_lt below] at above
  cases above

end Merging
