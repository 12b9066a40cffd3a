import Mathlib.Data.Nat.Bitwise
import PyElk.Support.Topological

open Relation Components Topological

namespace Reduction

variable (succ : Nat → List Nat)

/-- The targets that no target kept before covers. -/
def keep {σ : Type} (covers : σ → Nat → Bool) (cover : σ → Nat → σ) (none_ : σ) (targets : List Nat) : List Nat :=
  (targets.foldl (fun state target => if covers state.2 target then state
    else (state.1 ++ [target], cover state.2 target)) (([], none_) : List Nat × σ)).1

/-- Everything that the pending nodes lead to joins the covered nodes. -/
def mark : Nat → List Nat → List Nat → List Nat
  | 0, _, covered => covered
  | _ + 1, [], covered => covered
  | fuel + 1, reached :: pending, covered =>
    if reached ∈ covered then mark fuel pending covered
    else mark fuel ((succ reached).reverse ++ pending) (reached :: covered)

/-- The kept successors, with a pass of markings for each kept one. -/
def markedSuccessors (nodes targets : List Nat) : List Nat :=
  if targets.length ≤ 1 then targets
  else keep (fun covered target => decide (target ∈ covered))
    (fun covered target => mark succ ((nodes.map (weight succ)).sum + 1) [target] covered) [] targets

/-- Reachability rows as bit sets, from the last node of a topological order to the first. -/
def reachableRows (order : List Nat) : Nat → Nat :=
  order.foldr (fun node rows => Function.update rows node
    ((succ node).foldl (fun row target => row ||| (2 ^ target ||| rows target)) 0)) fun _ => 0

/-- The kept successors, read off the rows. -/
def bitsetSuccessors (rows : Nat → Nat) (targets : List Nat) : List Nat :=
  keep Nat.testBit (fun covered target => covered ||| (2 ^ target ||| rows target)) 0 targets

variable {succ : Nat → List Nat}

/-- A target that another target leads to. -/
def Redundant (succ : Nat → List Nat) (targets : List Nat) (target : Nat) : Prop :=
  ∃ other ∈ targets, other ≠ target ∧ Reach succ other target

/-- When what leads to a target comes before it, what is kept is what is not redundant. -/
theorem mem_keep {σ : Type} {covers : σ → Nat → Bool} {cover : σ → Nat → σ} {none_ : σ} {targets : List Nat}
    (empty : ∀ x, covers none_ x = false)
    (covered : ∀ state, ∀ target ∈ targets, ∀ x, (∀ y, covers state y → ∀ z, Reach succ y z → covers state z) →
      (covers (cover state target) x ↔ covers state x ∨ Reach succ target x))
    (distinct : targets.Nodup) (order : targets.Pairwise fun a b => ¬ Reach succ b a) (x : Nat) :
    x ∈ keep covers cover none_ targets ↔ x ∈ targets ∧ ¬ Redundant succ targets x := by
  have fold : ∀ rest before (state : List Nat × σ), targets = before ++ rest →
      (∀ x, covers state.2 x ↔ ∃ other ∈ before, Reach succ other x) →
      (∀ x, x ∈ state.1 ↔ x ∈ before ∧ ¬ Redundant succ targets x) →
      (x ∈ (rest.foldl (fun state target => if covers state.2 target then state
        else (state.1 ++ [target], cover state.2 target)) state).1 ↔ x ∈ targets ∧ ¬ Redundant succ targets x) := by
    intro rest
    induction rest with
    | nil =>
      intro before state split _ direct
      rw [split, List.append_nil] at *
      exact direct x
    | cons target rest ih =>
      intro before state split known direct
      have member : target ∈ targets := split ▸ List.mem_append_right _ (.head _)
      have fresh : target ∉ before := by
        rw [split] at distinct
        exact fun found => (List.nodup_append.mp distinct).2.2 target found target (.head _) rfl
      have redundant : covers state.2 target ↔ Redundant succ targets target := by
        rw [known]
        constructor
        · rintro ⟨other, found, path⟩
          exact ⟨other, split ▸ List.mem_append_left _ found, fun same => fresh (same ▸ found), path⟩
        · rintro ⟨other, found, apart, path⟩
          rw [split] at found order
          rcases List.mem_append.mp found with early | late
          · exact ⟨other, early, path⟩
          · have later := (List.mem_cons.mp late).resolve_left apart
            exact absurd path ((List.pairwise_cons.mp (List.pairwise_append.mp order).2.1).1 other later)
      have whole : targets = (before ++ [target]) ++ rest := by
        rw [split, List.append_assoc, List.singleton_append]
      rw [List.foldl_cons]
      by_cases already : covers state.2 target
      · rw [if_pos already]
        refine ih (before ++ [target]) state whole ?_ ?_
        · intro y
          rw [known y]
          constructor
          · rintro ⟨other, found, path⟩
            exact ⟨other, List.mem_append_left _ found, path⟩
          · rintro ⟨other, found, path⟩
            rcases List.mem_append.mp found with old | single
            · exact ⟨other, old, path⟩
            · obtain ⟨earlier, found, onward⟩ := (known target).mp already
              rw [List.mem_singleton.mp single] at path
              exact ⟨earlier, found, onward.trans path⟩
        · intro y
          rw [direct y, List.mem_append, List.mem_singleton]
          constructor
          · exact fun ⟨found, kept⟩ => ⟨Or.inl found, kept⟩
          · rintro ⟨old | rfl, kept⟩
            · exact ⟨old, kept⟩
            · exact absurd (redundant.mp already) kept
      · rw [if_neg already]
        refine ih (before ++ [target]) _ whole ?_ ?_
        · intro y
          have closed : ∀ y, covers state.2 y → ∀ z, Reach succ y z → covers state.2 z := by
            intro y seen z path
            obtain ⟨other, found, onward⟩ := (known y).mp seen
            exact (known z).mpr ⟨other, found, onward.trans path⟩
          rw [covered state.2 target member y closed, known y]
          constructor
          · rintro (⟨other, found, path⟩ | path)
            · exact ⟨other, List.mem_append_left _ found, path⟩
            · exact ⟨target, List.mem_append_right _ (.head _), path⟩
          · rintro ⟨other, found, path⟩
            rcases List.mem_append.mp found with old | single
            · exact Or.inl ⟨other, old, path⟩
            · rw [List.mem_singleton.mp single] at path
              exact Or.inr path
        · intro y
          rw [List.mem_append, List.mem_singleton, direct y, List.mem_append, List.mem_singleton]
          constructor
          · rintro (⟨found, kept⟩ | rfl)
            · exact ⟨Or.inl found, kept⟩
            · exact ⟨Or.inr rfl, fun again => already (redundant.mpr again)⟩
          · rintro ⟨old | rfl, kept⟩
            · exact Or.inl ⟨old, kept⟩
            · exact Or.inr rfl
  refine fold targets [] ([], none_) rfl ?_ ?_
  · intro y
    rw [empty y]
    simp
  · intro y
    simp

theorem keep_sublist {σ : Type} (covers : σ → Nat → Bool) (cover : σ → Nat → σ) (none_ : σ) (targets : List Nat) :
    (keep covers cover none_ targets).Sublist targets := by
  have fold : ∀ rest (state : List Nat × σ), ∃ added, added.Sublist rest ∧
      (rest.foldl (fun state target => if covers state.2 target then state
        else (state.1 ++ [target], cover state.2 target)) state).1 = state.1 ++ added := by
    intro rest
    induction rest with
    | nil => exact fun state => ⟨[], .slnil, (List.append_nil _).symm⟩
    | cons target rest ih =>
      intro state
      rw [List.foldl_cons]
      split
      · obtain ⟨added, sub, same⟩ := ih state
        exact ⟨added, sub.cons _, same⟩
      · obtain ⟨added, sub, same⟩ := ih (state.1 ++ [target], cover state.2 target)
        exact ⟨target :: added, sub.cons_cons _, same.trans (List.append_assoc _ _ _)⟩
  obtain ⟨added, sub, same⟩ := fold targets ([], none_)
  rw [keep, same, List.nil_append]
  exact sub

theorem markedSuccessors_sublist (nodes targets : List Nat) :
    (markedSuccessors succ nodes targets).Sublist targets := by
  unfold markedSuccessors
  split
  · exact .refl _
  · exact keep_sublist _ _ _ _

section

variable {nodes : List Nat} (closed : ∀ x ∈ nodes, ∀ y ∈ succ x, y ∈ nodes) (distinct : nodes.Nodup)

include closed distinct

/-- Marking adds what the pending nodes lead to. The fuel pays for each pending node
and for the successors of each node that is not covered yet. -/
theorem mem_mark {fuel : Nat} {pending covered : List Nat} (within : ∀ x ∈ pending, x ∈ nodes)
    (open_ : ∀ x ∈ covered, ∀ y ∈ succ x, y ∈ covered ∨ y ∈ pending)
    (enough : pending.length + ((nodes.filter fun x => decide (x ∉ covered)).map (weight succ)).sum ≤ fuel)
    (y : Nat) :
    y ∈ mark succ fuel pending covered ↔ y ∈ covered ∨ ∃ x ∈ pending, Reach succ x y := by
  induction fuel generalizing pending covered with
  | zero =>
    have idle : pending = [] := List.eq_nil_of_length_eq_zero (by omega)
    simp [mark, idle]
  | succ fuel ih =>
    match pending with
    | [] => simp [mark]
    | reached :: pending =>
      have member := within reached (.head _)
      rw [List.length_cons] at enough
      unfold mark
      split
      · rename_i known
        have tail : ∀ x ∈ covered, ∀ y ∈ succ x, y ∈ covered ∨ y ∈ pending := by
          intro x found y edge
          rcases open_ x found y edge with old | listed
          · exact Or.inl old
          · rcases List.mem_cons.mp listed with rfl | listed
            · exact Or.inl known
            · exact Or.inr listed
        rw [ih (fun x found => within x (.tail _ found)) tail (by omega)]
        have leaves : ∀ y, Reach succ reached y → y ∈ covered ∨ ∃ x ∈ pending, Reach succ x y := by
          intro y path
          induction path with
          | refl => exact Or.inl known
          | tail _ edge ih =>
            rcases ih with old | ⟨x, listed, path⟩
            · exact (tail _ old _ edge).imp_right fun listed => ⟨_, listed, .refl⟩
            · exact Or.inr ⟨x, listed, path.tail edge⟩
        constructor
        · rintro (old | ⟨x, listed, path⟩)
          · exact Or.inl old
          · exact Or.inr ⟨x, .tail _ listed, path⟩
        · rintro (old | ⟨x, listed, path⟩)
          · exact Or.inl old
          · rcases List.mem_cons.mp listed with rfl | listed
            · exact leaves y path
            · exact Or.inr ⟨x, listed, path⟩
      · rename_i unknown
        have paid := sum_unseen distinct member unknown (weight succ)
        have tail : ∀ x ∈ reached :: covered, ∀ y ∈ succ x,
            y ∈ reached :: covered ∨ y ∈ (succ reached).reverse ++ pending := by
          intro x found y edge
          rcases List.mem_cons.mp found with rfl | found
          · exact Or.inr (List.mem_append_left _ (List.mem_reverse.mpr edge))
          · rcases open_ x found y edge with old | listed
            · exact Or.inl (.tail _ old)
            · rcases List.mem_cons.mp listed with rfl | listed
              · exact Or.inl (.head _)
              · exact Or.inr (List.mem_append_right _ listed)
        have inside : ∀ x ∈ (succ reached).reverse ++ pending, x ∈ nodes := by
          intro x found
          rcases List.mem_append.mp found with edge | listed
          · exact closed reached member x (List.mem_reverse.mp edge)
          · exact within x (.tail _ listed)
        rw [ih inside tail (by simp only [List.length_append, List.length_reverse, weight] at paid ⊢; omega)]
        have head : Reach succ reached y ↔ y = reached ∨ ∃ x ∈ succ reached, Reach succ x y :=
          ReflTransGen.cases_head_iff.trans (or_congr eq_comm Iff.rfl)
        simp only [List.mem_cons, List.mem_append, List.mem_reverse, or_and_right, exists_or, exists_eq_left, head]
        constructor
        · rintro ((same | old) | below | listed)
          · exact Or.inr (Or.inl (Or.inl same))
          · exact Or.inl old
          · exact Or.inr (Or.inl (Or.inr below))
          · exact Or.inr (Or.inr listed)
        · rintro (old | (same | below) | listed)
          · exact Or.inl (Or.inr old)
          · exact Or.inl (Or.inl same)
          · exact Or.inr (Or.inl below)
          · exact Or.inr (Or.inr listed)

variable {targets : List Nat} (within : ∀ x ∈ targets, x ∈ nodes) (apart : targets.Nodup)
  (order : targets.Pairwise fun a b => ¬ Reach succ b a)

include within apart order

theorem mem_markedSuccessors (x : Nat) :
    x ∈ markedSuccessors succ nodes targets ↔ x ∈ targets ∧ ¬ Redundant succ targets x := by
  unfold markedSuccessors
  split
  · rename_i short
    refine (and_iff_left_of_imp fun member => ?_).symm
    rintro ⟨other, found, different, _⟩
    match targets, short with
    | [], _ => exact List.not_mem_nil member
    | [single], _ => exact different ((List.mem_singleton.mp found).trans (List.mem_singleton.mp member).symm)
  · refine mem_keep (by simp) ?_ apart order x
    intro covered target member y shut
    simp only [decide_eq_true_eq] at shut ⊢
    have below : ((nodes.filter fun x => decide (x ∉ covered)).map (weight succ)).sum ≤
      (nodes.map (weight succ)).sum :=
      (List.filter_sublist.map _).sum_le_sum fun _ _ => Nat.zero_le _
    rw [mem_mark closed distinct (by simpa using within target member)
      (fun a found b edge => Or.inl (shut a found b (.single edge)))
      (by rw [List.length_singleton]; omega)]
    simp only [List.mem_singleton, exists_eq_left]

omit within apart order distinct closed in
/-- Rows that are filled from the last node of a topological order to the first hold
what is strictly below their nodes. -/
theorem covers_rows {σ : Type} {covers : σ → Nat → Bool} {none_ : σ} {fill : (Nat → σ) → Nat → σ} {order : List Nat}
    (sorted : Sorted succ nodes order) (closed : ∀ x ∈ nodes, ∀ y ∈ succ x, y ∈ nodes)
    (spec : ∀ rows, ∀ node ∈ nodes, rows node = none_ →
      (∀ target ∈ succ node, ∀ y, covers (rows target) y ↔ TransGen (Edge succ) target y) →
      ∀ y, covers (fill rows node) y ↔ ∃ target ∈ succ node, Reach succ target y) {x : Nat} (member : x ∈ nodes)
    (y : Nat) : covers
    (order.foldr (fun node rows => Function.update rows node (fill rows node)) (fun _ => none_) x) y ↔
      TransGen (Edge succ) x y := by
  have untouched : ∀ after : List Nat, ∀ x ∉ after,
      after.foldr (fun node rows => Function.update rows node (fill rows node)) (fun _ => none_) x = none_ := by
    intro after
    induction after with
    | nil => exact fun _ _ => rfl
    | cons node after ih =>
      intro x absent
      rw [List.mem_cons, not_or] at absent
      rw [List.foldr_cons, Function.update_of_ne absent.1]
      exact ih x absent.2
  have rows : ∀ after before : List Nat, order = before ++ after → ∀ x ∈ after, ∀ y,
      covers (after.foldr (fun node rows => Function.update rows node (fill rows node)) (fun _ => none_) x) y ↔
        TransGen (Edge succ) x y := by
    intro after
    induction after with
    | nil => exact fun _ _ _ member => absurd member List.not_mem_nil
    | cons node after ih =>
      intro before split x member y
      have tail := ih (before ++ [node]) (by rw [split, List.append_assoc, List.singleton_append])
      have known : node ∈ nodes := (sorted.members node).mp (split ▸ List.mem_append_right _ (.head _))
      have apart := sorted.distinct
      rw [split] at apart
      have fresh : node ∉ after := (List.nodup_cons.mp (List.nodup_append.mp apart).2.1).1
      have later : ∀ target ∈ succ node, target ∈ after := by
        intro target edge
        have placed := (sorted.members target).mpr (closed node known target edge)
        rw [split] at placed
        have split' := split
        rcases List.mem_append.mp placed with early | late
        · obtain ⟨front, rest, cut⟩ := List.append_of_mem early
          rw [cut, List.append_assoc] at split'
          have back := sorted.follows front target _ split' node known edge
          rw [cut] at apart
          exact absurd rfl ((List.nodup_append.mp apart).2.2 node (List.mem_append_left _ back) node (.head _))
        · rcases List.mem_cons.mp late with rfl | late
          · have back := sorted.follows before target after split target known edge
            exact absurd rfl ((List.nodup_append.mp apart).2.2 target back target (.head _))
          · exact late
      rw [List.foldr_cons]
      by_cases same : x = node
      · rw [same, Function.update_self,
          spec _ node known (untouched after node fresh) fun target edge => tail target (later target edge),
          TransGen.head'_iff]
        rfl
      · rw [Function.update_of_ne same]
        exact tail x ((List.mem_cons.mp member).resolve_left same) y
  exact rows order [] rfl x ((sorted.members x).mpr member) y

omit within apart order distinct closed in
/-- A row holds what is strictly below its node. -/
theorem testBit_reachableRows {order : List Nat} (sorted : Sorted succ nodes order)
    (closed : ∀ x ∈ nodes, ∀ y ∈ succ x, y ∈ nodes) {x : Nat} (member : x ∈ nodes) (y : Nat) :
    (reachableRows succ order x).testBit y ↔ TransGen (Edge succ) x y := by
  refine covers_rows sorted closed (fun rows node _ _ below y => ?_) member y
  have fold : ∀ (targets : List Nat) (row : Nat),
      (∀ target ∈ targets, ∀ y, (rows target).testBit y ↔ TransGen (Edge succ) target y) →
      ((targets.foldl (fun row target => row ||| (2 ^ target ||| rows target)) row).testBit y ↔
        row.testBit y ∨ ∃ target ∈ targets, Reach succ target y) := by
    intro targets
    induction targets with
    | nil => simp
    | cons target targets ih =>
      intro row listed
      rw [List.foldl_cons, ih _ fun other found => listed other (.tail _ found)]
      have path : Reach succ target y ↔ target = y ∨ TransGen (Edge succ) target y :=
        reflTransGen_iff_eq_or_transGen.trans (or_congr_left eq_comm)
      simp only [Nat.testBit_or, Bool.or_eq_true, Nat.testBit_two_pow, decide_eq_true_eq,
        listed target (.head _) y, List.mem_cons, exists_eq_or_imp, path]
      tauto
  rw [fold (succ node) 0 below, Nat.zero_testBit]
  simp

omit distinct in
theorem mem_bitsetSuccessors {order : List Nat} (sorted : Sorted succ nodes order) (x : Nat) :
    x ∈ bitsetSuccessors (reachableRows succ order) targets ↔ x ∈ targets ∧ ¬ Redundant succ targets x := by
  refine mem_keep Nat.zero_testBit ?_ apart ‹_› x
  intro covered target member y _
  simp only [Nat.testBit_or, Bool.or_eq_true, Nat.testBit_two_pow, decide_eq_true_eq,
    testBit_reachableRows sorted closed (within target member) y]
  exact or_congr_right (reflTransGen_iff_eq_or_transGen.trans (or_congr_left eq_comm)).symm

end

/-- Along a path the rank grows. -/
theorem rank_le {r : Nat → Nat → Prop} {rank : Nat → Nat} (raises : ∀ x y, r x y → rank x < rank y) {x y : Nat}
    (path : ReflTransGen r x y) : x = y ∨ rank x < rank y := by
  induction path with
  | refl => exact Or.inl rfl
  | tail _ edge ih =>
    rcases ih with rfl | below
    · exact Or.inr (raises _ _ edge)
    · exact Or.inr (below.trans (raises _ _ edge))

/-- Where edges raise a rank, the irredundant edges reach what all edges reach. The first
step of a path goes to the lowest successor that still leads to its end. -/
theorem reach_irredundant {r kept : Nat → Nat → Prop} {rank : Nat → Nat} (raises : ∀ x y, r x y → rank x < rank y)
    (spec : ∀ x y, kept x y ↔ r x y ∧ ¬ ∃ z, r x z ∧ z ≠ y ∧ ReflTransGen r z y) {x y : Nat} :
    ReflTransGen kept x y ↔ ReflTransGen r x y := by
  refine ⟨fun path => path.lift id fun _ _ edge => ((spec _ _).mp edge).1, fun path => ?_⟩
  induction distance : rank y - rank x using Nat.strong_induction_on generalizing x with
  | _ n ih =>
    rcases path.cases_head with rfl | ⟨first, edge, rest⟩
    · exact .refl
    · obtain ⟨lowest, ⟨direct, onward⟩, least⟩ :=
        (measure rank).wf.has_min {z | r x z ∧ ReflTransGen r z y} ⟨first, edge, rest⟩
      have irredundant : kept x lowest := by
        refine (spec x lowest).mpr ⟨direct, ?_⟩
        rintro ⟨other, link, apart, path⟩
        exact least other ⟨link, path.trans onward⟩ ((rank_le raises path).resolve_left apart)
      have above := raises x lowest direct
      have below : lowest = y ∨ rank lowest < rank y := rank_le raises onward
      refine .head irredundant ?_
      rcases below with rfl | below
      · exact .refl
      · exact ih (rank y - rank lowest) (by omega) onward rfl

section

variable {r : Nat → Nat → Prop} {rank : Nat → Nat} (raises : ∀ x y, r x y → rank x < rank y)

include raises

theorem rank_antisymm {x y : Nat} (forth : ReflTransGen r x y) (back : ReflTransGen r y x) : x = y := by
  rcases rank_le raises forth with same | up
  · exact same
  · rcases rank_le raises back with same | down
    · exact same.symm
    · omega

/-- The irredundant edges are the covering pairs of the order that the edges generate. -/
theorem irredundant_iff {x y : Nat} : (r x y ∧ ¬ ∃ z, r x z ∧ z ≠ y ∧ ReflTransGen r z y) ↔
    x ≠ y ∧ ReflTransGen r x y ∧ ∀ z, ReflTransGen r x z → ReflTransGen r z y → z = x ∨ z = y := by
  constructor
  · rintro ⟨edge, direct⟩
    have up := raises x y edge
    refine ⟨fun same => by rw [same] at up; omega, .single edge, fun z lower upper => ?_⟩
    rcases lower.cases_head with same | ⟨first, link, rest⟩
    · exact Or.inl same.symm
    · right
      by_cases last : first = y
      · rw [last] at rest
        exact rank_antisymm raises upper rest
      · exact absurd ⟨first, link, last, rest.trans upper⟩ direct
  · rintro ⟨apart, path, between⟩
    rcases path.cases_head with same | ⟨first, link, rest⟩
    · exact absurd same apart
    have ahead : ∀ z, r x z → z ≠ x := by
      rintro z step rfl
      have up := raises z z step
      omega
    have last : first = y := (between first (.single link) rest).resolve_left (ahead first link)
    refine ⟨last ▸ link, ?_⟩
    rintro ⟨z, step, other, onward⟩
    rcases between z (.single step) onward with back | same
    · exact ahead z step back
    · exact other same

omit raises in
/-- Without an irredundant edge there is no way from its source to its target. -/
theorem irredundant_needed {fewer : Nat → Nat → Prop} (sub : ∀ a b, fewer a b → r a b) {x y : Nat} (apart : x ≠ y)
    (direct : ¬ ∃ z, r x z ∧ z ≠ y ∧ ReflTransGen r z y) (removed : ¬ fewer x y) : ¬ ReflTransGen fewer x y := by
  intro path
  rcases path.cases_head with same | ⟨first, link, rest⟩
  · exact apart same
  · refine direct ⟨first, sub x first link, ?_, rest.lift id sub⟩
    rintro rfl
    exact removed link

end

end Reduction
