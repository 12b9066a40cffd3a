import Mathlib.Algebra.BigOperators.Group.List.Basic
import Mathlib.Algebra.GroupWithZero.Nat
import Mathlib.Algebra.Order.BigOperators.Group.List
import Mathlib.Algebra.Order.Group.Nat
import Mathlib.Data.List.Chain
import Mathlib.Data.List.Nodup
import Mathlib.Logic.Relation
import PyElk.Support.Ordered

open Relation

namespace Components

variable (succ pred : Nat → List Nat)

/-- The edge relation of a graph given by successor lists. -/
def Edge (a b : Nat) : Prop := b ∈ succ a

/-- There is a path from the first node to the second. -/
abbrev Reach : Nat → Nat → Prop := ReflTransGen (Edge succ)

/-- A depth-first search. A frame is a node with the successors still to look at,
the innermost frame first. -/
structure Search where
  visited : List Nat
  finished : List Nat
  stack : List (Nat × List Nat)

def Search.step (state : Search) : Search :=
  match state.stack with
  | [] => state
  | (node, []) :: rest => { state with finished := state.finished ++ [node], stack := rest }
  | (node, next :: more) :: rest =>
    if next ∈ state.visited then { state with stack := (node, more) :: rest }
    else { state with visited := next :: state.visited, stack := (next, succ next) :: (node, more) :: rest }

def Search.run : Nat → Search → Search
  | 0, state => state
  | fuel + 1, state =>
    if state.stack.isEmpty then state else Search.run fuel (state.step succ)

/-- The number of steps that the search takes over a node. -/
def weight (node : Nat) : Nat := (succ node).length + 1

/-- The search from one start, unless the start has been seen. -/
def Search.visit (fuel : Nat) (state : Search) (start : Nat) : Search :=
  if start ∈ state.visited then state
  else Search.run succ fuel
    { state with visited := start :: state.visited, stack := [(start, succ start)] }

/-- The nodes in the order in which the search leaves them. -/
def finishingOrder (nodes : List Nat) : List Nat :=
  (nodes.foldl (Search.visit succ (nodes.map (weight succ)).sum) ⟨[], [], []⟩).finished

/-- A collection of nodes that lead to a start, as far as they are not assigned yet. -/
structure Collection where
  assigned : List Nat
  pending : List Nat
  component : List Nat

def Collection.push (state : Collection) (node : Nat) : Collection :=
  if node ∈ state.assigned then state
  else { state with assigned := node :: state.assigned, pending := node :: state.pending }

def Collection.step (state : Collection) : Collection :=
  match state.pending with
  | [] => state
  | node :: rest =>
    (pred node).reverse.foldl Collection.push
      { state with pending := rest, component := state.component ++ [node] }

def Collection.run : Nat → Collection → Collection
  | 0, state => state
  | fuel + 1, state => if state.pending.isEmpty then state else Collection.run fuel (state.step pred)

/-- The component of one start, unless the start has been assigned. -/
def assign (fuel : Nat) (state : List Nat × List (List Nat)) (start : Nat) : List Nat × List (List Nat) :=
  if start ∈ state.1 then state
  else
    let collection := Collection.run pred fuel ⟨start :: state.1, [start], []⟩
    (collection.assigned, state.2 ++ [Ordered.sortedBy id collection.component])

/-- The strongly connected components: every start, latest finished first, collects
what leads to it. -/
def strongComponents (nodes : List Nat) : List (List Nat) :=
  ((finishingOrder succ nodes).reverse.foldl (assign pred nodes.length) ([], [])).2

variable {succ pred : Nat → List Nat}

/-- A finishing order: what leads out of the nodes finished up to some node leads
back to this node. -/
def Ordered (succ : Nat → List Nat) (finished : List Nat) : Prop :=
  ∀ before node after, finished = before ++ node :: after →
    ∀ x ∈ before ++ [node], ∀ y ∈ succ x, y ∈ before ++ [node] ∨ Reach succ y node

theorem Ordered.snoc {finished : List Nat} {node : Nat} (ordered : Ordered succ finished)
    (last : ∀ x ∈ finished ++ [node], ∀ y ∈ succ x, y ∈ finished ++ [node] ∨ Reach succ y node) :
    Ordered succ (finished ++ [node]) := by
  intro before other after same
  rcases List.eq_nil_or_concat after with rfl | ⟨rest, final, rfl⟩
  · obtain ⟨rfl, equal⟩ := List.append_inj' same rfl
    cases equal
    exact last
  · rw [List.concat_eq_append, ← List.cons_append, ← List.append_assoc] at same
    exact ordered before other rest (List.append_inj' same rfl).1

/-- What a depth-first search knows at every step. -/
structure Search.Sound (succ : Nat → List Nat) (nodes : List Nat) (state : Search) : Prop where
  visited : ∀ x, x ∈ state.visited ↔ x ∈ state.finished ∨ x ∈ state.stack.map Prod.fst
  distinct : (state.finished ++ state.stack.map Prod.fst).Nodup
  chain : (state.stack.map Prod.fst).IsChain fun upper lower => upper ∈ succ lower
  within : ∀ x ∈ state.visited, x ∈ nodes
  frames : ∀ frame ∈ state.stack, ∀ x ∈ succ frame.1, x ∈ frame.2 ∨ x ∈ state.visited
  remaining : ∀ frame ∈ state.stack, frame.2 ⊆ succ frame.1
  closed : ∀ x ∈ state.finished, ∀ y ∈ succ x, y ∈ state.visited
  ordered : Ordered succ state.finished

/-- The innermost frame can be reached from every frame. -/
theorem Search.Sound.reach {nodes : List Nat} {state : Search} (sound : state.Sound succ nodes) {node : Nat}
    {more : List Nat} {rest : List (Nat × List Nat)} (top : state.stack = (node, more) :: rest) :
    ∀ x ∈ state.stack.map Prod.fst, Reach succ x node := by
  have chain := sound.chain
  rw [top] at chain ⊢
  clear top
  rw [List.map_cons] at chain ⊢
  generalize rest.map Prod.fst = names at chain
  induction names generalizing node with
  | nil =>
    intro x member
    rw [List.mem_singleton.mp member]
  | cons lower names ih =>
    intro x member
    obtain ⟨edge, below⟩ := List.isChain_cons_cons.mp chain
    rcases List.mem_cons.mp member with rfl | member
    · exact .refl
    · exact (ih below x member).tail edge

section

variable {nodes : List Nat} (closed : ∀ x ∈ nodes, ∀ y ∈ succ x, y ∈ nodes) {state : Search}

include closed

theorem Search.Sound.step (sound : state.Sound succ nodes) : (state.step succ).Sound succ nodes := by
  unfold Search.step
  split
  · exact sound
  · rename_i node rest top
    have visited := sound.visited
    have distinct := sound.distinct
    have chain := sound.chain
    rw [top] at visited distinct chain
    have back := sound.reach top
    refine ⟨?_, ?_, ?_, sound.within, ?_, ?_, ?_, ?_⟩
    · intro x
      rw [visited]
      simp only [List.map_cons, List.mem_cons, List.mem_append, List.not_mem_nil, or_false]
      tauto
    · rw [List.append_assoc]
      exact distinct
    · exact chain.tail
    · exact fun frame member => sound.frames frame (top ▸ .tail _ member)
    · exact fun frame member => sound.remaining frame (top ▸ .tail _ member)
    · intro x member y edge
      rcases List.mem_append.mp member with old | new
      · exact sound.closed x old y edge
      · rw [List.mem_singleton.mp new] at edge
        exact (sound.frames (node, []) (top ▸ .head _) y edge).resolve_left List.not_mem_nil
    · refine sound.ordered.snoc ?_
      intro x member y edge
      have seen : y ∈ state.visited := by
        rcases List.mem_append.mp member with old | new
        · exact sound.closed x old y edge
        · rw [List.mem_singleton.mp new] at edge
          exact (sound.frames (node, []) (top ▸ .head _) y edge).resolve_left List.not_mem_nil
      rcases (sound.visited y).mp seen with done | open_
      · exact Or.inl (List.mem_append_left _ done)
      · exact Or.inr (back y open_)
  · rename_i node next more rest top
    have parent := sound.remaining (node, next :: more) (top ▸ .head _)
    have edge : next ∈ succ node := parent (.head _)
    have distinct := sound.distinct
    have chain := sound.chain
    have visited := sound.visited
    rw [top] at distinct chain visited
    split
    · rename_i seen
      refine ⟨visited, distinct, chain, sound.within, ?_, ?_, sound.closed, sound.ordered⟩
      · intro frame member x found
        rcases List.mem_cons.mp member with rfl | member
        · rcases sound.frames (node, next :: more) (top ▸ .head _) x found with later | known
          · rcases List.mem_cons.mp later with rfl | later
            · exact Or.inr seen
            · exact Or.inl later
          · exact Or.inr known
        · exact sound.frames frame (top ▸ .tail _ member) x found
      · intro frame member
        rcases List.mem_cons.mp member with rfl | member
        · exact fun x found => parent (.tail _ found)
        · exact sound.remaining frame (top ▸ .tail _ member)
    · rename_i unseen
      have known : node ∈ nodes := sound.within node ((visited node).mpr (Or.inr (.head _)))
      refine ⟨?_, ?_, ?_, ?_, ?_, ?_, ?_, sound.ordered⟩
      · intro x
        simp only [List.mem_cons, List.map_cons, visited x]
        tauto
      · have fresh : next ∉ state.finished ++ (node :: rest.map Prod.fst) := by
          intro member
          exact unseen ((visited next).mpr (List.mem_append.mp member))
        have swapped := List.nodup_cons.mpr ⟨fresh, distinct⟩
        exact (List.perm_middle.nodup_iff).mpr swapped
      · exact List.isChain_cons_cons.mpr ⟨edge, chain⟩
      · intro x member
        rcases List.mem_cons.mp member with rfl | old
        · exact closed node known x edge
        · exact sound.within x old
      · intro frame member x found
        rcases List.mem_cons.mp member with rfl | member
        · exact Or.inl found
        · rcases List.mem_cons.mp member with rfl | member
          · rcases sound.frames (node, next :: more) (top ▸ .head _) x found with later | old
            · rcases List.mem_cons.mp later with rfl | later
              · exact Or.inr (.head _)
              · exact Or.inl later
            · exact Or.inr (.tail _ old)
          · exact (sound.frames frame (top ▸ .tail _ member) x found).imp_right (.tail _)
      · intro frame member
        rcases List.mem_cons.mp member with rfl | member
        · exact List.Subset.refl _
        · rcases List.mem_cons.mp member with rfl | member
          · exact fun x found => parent (.tail _ found)
          · exact sound.remaining frame (top ▸ .tail _ member)
      · exact fun x member y found => .tail _ (sound.closed x member y found)

omit closed in
/-- The steps that a search has left. -/
def Search.measure (succ : Nat → List Nat) (nodes : List Nat) (state : Search) : Nat :=
  (state.stack.map fun frame => frame.2.length + 1).sum +
    ((nodes.filter fun x => decide (x ∉ state.visited)).map (weight succ)).sum

omit closed in
/-- Seeing a node takes its weight off the unseen ones. -/
theorem sum_unseen (distinct : nodes.Nodup) {visited : List Nat} {node : Nat} (member : node ∈ nodes)
    (unseen : node ∉ visited) (f : Nat → Nat) :
    f node + ((nodes.filter fun x => decide (x ∉ node :: visited)).map f).sum =
      ((nodes.filter fun x => decide (x ∉ visited)).map f).sum := by
  have present : node ∈ nodes.filter fun x => decide (x ∉ visited) :=
    List.mem_filter.mpr ⟨member, decide_eq_true unseen⟩
  rw [← List.sum_map_erase f present, (distinct.filter _).erase_eq_filter, List.filter_filter]
  congr 3
  refine List.filter_congr fun x _ => ?_
  by_cases same : x = node <;> simp [same]

theorem Search.Sound.measure_step (distinct : nodes.Nodup) (sound : state.Sound succ nodes)
    (busy : state.stack ≠ []) : (state.step succ).measure succ nodes < state.measure succ nodes := by
  unfold Search.step
  split
  · exact absurd ‹_› busy
  · rename_i node rest top
    simp only [Search.measure, top, List.map_cons, List.sum_cons, List.length_nil]
    omega
  · rename_i node next more rest top
    split
    · simp only [Search.measure, top, List.map_cons, List.sum_cons, List.length_cons]
      omega
    · rename_i unseen
      have edge : next ∈ succ node := sound.remaining (node, next :: more) (top ▸ .head _) (.head _)
      have known : node ∈ nodes := sound.within node ((sound.visited node).mpr (Or.inr (top ▸ .head _)))
      have total := sum_unseen distinct (closed node known next edge) unseen (weight succ)
      simp only [Search.measure, top, List.map_cons, List.sum_cons, List.length_cons]
      simp only [weight] at total ⊢
      omega

/-- Enough fuel lets a search run to its end. -/
theorem Search.Sound.run (distinct : nodes.Nodup) {fuel : Nat} (sound : state.Sound succ nodes)
    (enough : state.measure succ nodes ≤ fuel) :
    (Search.run succ fuel state).Sound succ nodes ∧ (Search.run succ fuel state).stack = [] ∧
      state.visited ⊆ (Search.run succ fuel state).visited := by
  induction fuel generalizing state with
  | zero =>
    refine ⟨sound, ?_, List.Subset.refl _⟩
    by_contra busy
    exact absurd (sound.measure_step closed distinct busy) (by rw [Nat.le_zero.mp enough]; exact Nat.not_lt_zero _)
  | succ fuel ih =>
    unfold Search.run
    split
    · rename_i idle
      exact ⟨sound, List.isEmpty_iff.mp idle, List.Subset.refl _⟩
    · rename_i busy
      have smaller := sound.measure_step closed distinct (fun idle => busy (List.isEmpty_iff.mpr idle))
      obtain ⟨done, idle, kept⟩ := ih (sound.step closed) (by omega)
      refine ⟨done, idle, List.Subset.trans ?_ kept⟩
      unfold Search.step
      split
      · exact List.Subset.refl _
      · exact List.Subset.refl _
      · split
        · exact List.Subset.refl _
        · exact List.subset_cons_self _ _

/-- A search that is between two starts. -/
theorem Search.Sound.visit (distinct : nodes.Nodup) (sound : state.Sound succ nodes) (idle : state.stack = [])
    {start : Nat} (member : start ∈ nodes) :
    (Search.visit succ (nodes.map (weight succ)).sum state start).Sound succ nodes ∧
      (Search.visit succ (nodes.map (weight succ)).sum state start).stack = [] ∧
      state.visited ⊆ (Search.visit succ (nodes.map (weight succ)).sum state start).visited ∧
      start ∈ (Search.visit succ (nodes.map (weight succ)).sum state start).visited := by
  unfold Search.visit
  split
  · rename_i seen
    exact ⟨sound, idle, List.Subset.refl _, seen⟩
  · rename_i unseen
    have visited := sound.visited
    have finished := sound.distinct
    rw [idle] at visited finished
    have begun : Search.Sound succ nodes
        { state with visited := start :: state.visited, stack := [(start, succ start)] } := by
      refine ⟨?_, ?_, .singleton _, ?_, ?_, ?_, ?_, sound.ordered⟩
      · intro x
        simp only [List.mem_cons, List.map_cons, List.map_nil, visited x, List.not_mem_nil, or_false]
        tauto
      · have fresh : start ∉ state.finished := fun done => unseen ((visited start).mpr (Or.inl done))
        rw [List.map_nil, List.append_nil] at finished
        refine List.nodup_append.mpr ⟨finished, List.nodup_singleton _, ?_⟩
        rintro x done y single rfl
        rw [List.map_cons, List.map_nil, List.mem_singleton] at single
        subst single
        exact fresh done
      · intro x seen
        rcases List.mem_cons.mp seen with rfl | old
        · exact member
        · exact sound.within x old
      · intro frame single x edge
        rw [List.mem_singleton.mp single] at edge ⊢
        exact Or.inl edge
      · intro frame single
        rw [List.mem_singleton.mp single]
        exact List.Subset.refl _
      · exact fun x done y edge => .tail _ (sound.closed x done y edge)
    have enough : Search.measure succ nodes
        { state with visited := start :: state.visited, stack := [(start, succ start)] } ≤
          (nodes.map (weight succ)).sum := by
      have total := sum_unseen distinct member unseen (weight succ)
      have below : ((nodes.filter fun x => decide (x ∉ state.visited)).map (weight succ)).sum ≤
          (nodes.map (weight succ)).sum := (List.filter_sublist.map _).sum_le_sum fun _ _ => Nat.zero_le _
      simp only [Search.measure, List.map_cons, List.map_nil, List.sum_cons, List.sum_nil]
      simp only [weight] at total below ⊢
      omega
    obtain ⟨done, finished, kept⟩ := begun.run closed distinct enough
    exact ⟨done, finished, fun x seen => kept (.tail _ seen), kept (.head _)⟩

/-- The finishing order lists every node once and is a finishing order. -/
theorem finishingOrder_spec (distinct : nodes.Nodup) :
    (finishingOrder succ nodes).Nodup ∧ Ordered succ (finishingOrder succ nodes) ∧
      ∀ x, x ∈ finishingOrder succ nodes ↔ x ∈ nodes := by
  have run : ∀ (starts : List Nat) {state : Search}, starts ⊆ nodes → state.Sound succ nodes → state.stack = [] →
      (starts.foldl (Search.visit succ (nodes.map (weight succ)).sum) state).Sound succ nodes ∧
      (starts.foldl (Search.visit succ (nodes.map (weight succ)).sum) state).stack = [] ∧
      state.visited ⊆ (starts.foldl (Search.visit succ (nodes.map (weight succ)).sum) state).visited ∧
      starts ⊆ (starts.foldl (Search.visit succ (nodes.map (weight succ)).sum) state).visited := by
    intro starts
    induction starts with
    | nil => exact fun _ sound idle => ⟨sound, idle, List.Subset.refl _, List.nil_subset _⟩
    | cons start starts ih =>
      intro state within sound idle
      obtain ⟨next, rest, kept, seen⟩ := sound.visit closed distinct idle (within (.head _))
      obtain ⟨last, empty, kept', seen'⟩ := ih (fun x member => within (.tail _ member)) next rest
      refine ⟨last, empty, List.Subset.trans kept kept', ?_⟩
      intro x member
      rcases List.mem_cons.mp member with rfl | member
      · exact kept' seen
      · exact seen' member
  obtain ⟨sound, idle, _, seen⟩ := run nodes (List.Subset.refl _)
    (⟨by simp, .nil, .nil, by simp, by simp, by simp, by simp, fun before node after same => by simp at same⟩ :
      Search.Sound succ nodes ⟨[], [], []⟩) rfl
  have finished := sound.distinct
  have visited := sound.visited
  rw [idle] at finished visited
  rw [List.map_nil, List.append_nil] at finished
  refine ⟨finished, sound.ordered, fun x => ⟨fun done => ?_, fun member => ?_⟩⟩
  · exact sound.within x ((visited x).mpr (Or.inl done))
  · exact ((visited x).mp (seen member)).resolve_right List.not_mem_nil

end

/-- A path out of a set leaves it by some edge. -/
theorem exit {r : Nat → Nat → Prop} {inside : List Nat} {x y : Nat} (path : ReflTransGen r x y)
    (enters : x ∈ inside) (leaves : y ∉ inside) :
    ∃ a b, a ∈ inside ∧ r a b ∧ b ∉ inside ∧ ReflTransGen r b y := by
  induction path using ReflTransGen.head_induction_on with
  | refl => exact absurd enters leaves
  | @head a b edge rest ih =>
    by_cases still : b ∈ inside
    · exact ih still
    · exact ⟨a, b, enters, edge, still, rest⟩

/-- In a finishing order, what leads to a node through earlier nodes is led back to.
The path leaves the nodes up to `x` for a later node, and from there it leads back to `x`. -/
theorem Ordered.back {before after : List Nat} {start : Nat} (ordered : Ordered succ (before ++ start :: after))
    (distinct : (before ++ [start]).Nodup) {x : Nat} (member : x ∈ before ++ [start])
    (path : ReflTransGen (fun a b => b ∈ succ a ∧ b ∈ before ++ [start]) x start) : Reach succ start x := by
  obtain ⟨earlier, later, split⟩ := List.append_of_mem member
  induction size : later.length using Nat.strong_induction_on generalizing x earlier later with
  | _ n ih =>
    rcases List.eq_nil_or_concat later with rfl | ⟨rest, final, rfl⟩
    · obtain ⟨_, equal⟩ := List.append_inj' split rfl
      cases equal
      exact .refl
    · have last : final = start := by
        rw [List.concat_eq_append, ← List.cons_append, ← List.append_assoc] at split
        exact (List.cons.inj (List.append_inj' split rfl).2).1.symm
      subst last
      rw [List.concat_eq_append] at split size
      have apart : final ∉ earlier ++ [x] := by
        rw [split, ← List.singleton_append, ← List.append_assoc, ← List.append_assoc] at distinct
        intro found
        exact (List.nodup_append.mp distinct).2.2 final (List.mem_append_left _ found) final (.head _) rfl
      obtain ⟨a, b, inside, ⟨edge, reached⟩, outside, onward⟩ :=
        exit path (List.mem_append_right earlier (.head _)) apart
      have whole : before ++ final :: after = earlier ++ x :: (rest ++ final :: after) := by
        have := congrArg (· ++ after) split
        simpa only [List.append_assoc, List.singleton_append, List.cons_append, List.nil_append] using this
      have back : Reach succ b x := (ordered earlier x _ whole a inside b edge).resolve_left outside
      have behind : b ∈ rest ++ [final] := by
        rw [split, ← List.singleton_append, ← List.append_assoc] at reached
        exact (List.mem_append.mp reached).resolve_left outside
      obtain ⟨front, tail, cut⟩ := List.append_of_mem behind
      have shorter : tail.length < n := by
        rw [← size, cut, List.length_append, List.length_cons]
        omega
      have again : before ++ [final] = (earlier ++ x :: front) ++ b :: tail := by
        rw [split, cut, List.append_assoc, List.cons_append]
      exact (ih tail.length shorter reached onward _ _ again rfl).trans back

theorem Collection.push_all (values : List Nat) (state : Collection) :
    ∃ added, values.foldl Collection.push state =
        ⟨added ++ state.assigned, added ++ state.pending, state.component⟩ ∧
      added.Nodup ∧ (∀ x ∈ added, x ∈ values ∧ x ∉ state.assigned) ∧ values ⊆ added ++ state.assigned := by
  induction values generalizing state with
  | nil => exact ⟨[], rfl, .nil, by simp, List.nil_subset _⟩
  | cons value values ih =>
    obtain ⟨added, same, distinct, origin, covers⟩ := ih (state.push value)
    rw [List.foldl_cons, same]
    unfold Collection.push at origin covers ⊢
    split at origin
    · rename_i known
      rw [if_pos known] at covers ⊢
      refine ⟨added, rfl, distinct, fun x member => ⟨.tail _ (origin x member).1, (origin x member).2⟩, ?_⟩
      intro x member
      rcases List.mem_cons.mp member with rfl | member
      · exact List.mem_append_right _ known
      · exact covers member
    · rename_i unknown
      rw [if_neg unknown] at covers ⊢
      refine ⟨added ++ [value], by simp, ?_, ?_, ?_⟩
      · refine List.nodup_append.mpr ⟨distinct, List.nodup_singleton _, ?_⟩
        rintro x member y single rfl
        rw [List.mem_singleton.mp single] at member
        exact (origin value member).2 (.head _)
      · intro x member
        rcases List.mem_append.mp member with old | single
        · exact ⟨.tail _ (origin x old).1, fun known => (origin x old).2 (.tail _ known)⟩
        · rw [List.mem_singleton.mp single]
          exact ⟨.head _, unknown⟩
      · rw [List.append_assoc, List.singleton_append]
        intro x member
        rcases List.mem_cons.mp member with rfl | member
        · exact List.mem_append_right _ (.head _)
        · exact covers member

/-- What the collection of one component knows at every step. -/
structure Collection.Sound (succ pred : Nat → List Nat) (nodes earlier : List Nat) (start : Nat)
    (state : Collection) : Prop where
  assigned : ∀ x, x ∈ state.assigned ↔ x ∈ earlier ∨ x ∈ state.pending ++ state.component
  distinct : (state.pending ++ state.component).Nodup
  fresh : ∀ x ∈ state.pending ++ state.component, x ∈ nodes ∧ x ∉ earlier
  leads : ∀ x ∈ state.pending ++ state.component, ReflTransGen (fun a b => b ∈ succ a ∧ b ∉ earlier) x start
  closed : ∀ x ∈ state.component, ∀ y ∈ pred x, y ∈ state.assigned
  started : start ∈ state.pending ++ state.component

section

variable {nodes earlier : List Nat} {start : Nat}
  (backward : ∀ x ∈ nodes, ∀ y, y ∈ pred x ↔ y ∈ nodes ∧ x ∈ succ y)

include backward

theorem Collection.Sound.step {state : Collection} (sound : state.Sound succ pred nodes earlier start) :
    (state.step pred).Sound succ pred nodes earlier start := by
  unfold Collection.step
  split
  · exact sound
  · rename_i node rest top
    obtain ⟨added, same, distinct, origin, covers⟩ := Collection.push_all (pred node).reverse
      { state with pending := rest, component := state.component ++ [node] }
    rw [same]
    obtain ⟨assigned, nodup, fresh, leads, closed, started⟩ := sound
    simp only [top, List.mem_append, List.mem_cons] at assigned nodup fresh leads started origin
    have from_node : ∀ x ∈ added, x ∈ nodes ∧ node ∈ succ x := fun x member =>
      (backward node (fresh node (by simp)).1 x).mp (List.mem_reverse.mp (origin x member).1)
    refine ⟨?_, ?_, ?_, ?_, ?_, ?_⟩
    · intro x
      simp only [List.mem_append, List.mem_singleton, assigned x]
      tauto
    · have moved : (rest ++ (state.component ++ [node])).Nodup := by
        refine (List.Perm.nodup_iff ?_).mp nodup
        rw [← List.append_assoc]
        exact (List.perm_append_singleton node _).symm
      show (added ++ rest ++ (state.component ++ [node])).Nodup
      rw [List.append_assoc]
      refine List.nodup_append.mpr ⟨distinct, moved, ?_⟩
      rintro x member y old rfl
      refine (origin x member).2 ((assigned x).mpr (Or.inr ?_))
      simp only [List.mem_append, List.mem_singleton] at old
      tauto
    · intro x member
      simp only [List.mem_append, List.mem_singleton] at member
      rcases member with (new | old) | old
      · exact ⟨(from_node x new).1, fun known => (origin x new).2 ((assigned x).mpr (Or.inl known))⟩
      · exact fresh x (by tauto)
      · exact fresh x (by tauto)
    · intro x member
      simp only [List.mem_append, List.mem_singleton] at member
      rcases member with (new | old) | old
      · exact (leads node (by simp)).head ⟨(from_node x new).2, (fresh node (by simp)).2⟩
      · exact leads x (by tauto)
      · exact leads x (by tauto)
    · intro x member y edge
      rcases List.mem_append.mp member with old | single
      · exact List.mem_append_right _ (closed x old y edge)
      · rw [List.mem_singleton.mp single] at edge
        exact covers (List.mem_reverse.mpr edge)
    · simp only [List.mem_append, List.mem_singleton]
      tauto

theorem Collection.Sound.run {state : Collection} (sound : state.Sound succ pred nodes earlier start)
    {fuel : Nat} (enough : nodes.length ≤ state.component.length + fuel) :
    (Collection.run pred fuel state).Sound succ pred nodes earlier start ∧
      (Collection.run pred fuel state).pending = [] := by
  have bound : state.pending.length + state.component.length ≤ nodes.length := by
    rw [← List.length_append]
    exact (List.subperm_of_subset sound.distinct fun x member => (sound.fresh x member).1).length_le
  induction fuel generalizing state with
  | zero =>
    refine ⟨sound, List.eq_nil_of_length_eq_zero ?_⟩
    show state.pending.length = 0
    omega
  | succ fuel ih =>
    unfold Collection.run
    split
    · rename_i idle
      exact ⟨sound, List.isEmpty_iff.mp idle⟩
    · rename_i busy
      have next := sound.step backward
      refine ih next ?_ ?_
      · unfold Collection.step
        split
        · rename_i idle
          exact absurd (List.isEmpty_iff.mpr idle) busy
        · rename_i node rest top
          obtain ⟨added, same, _⟩ := Collection.push_all (pred node).reverse
            { state with pending := rest, component := state.component ++ [node] }
          rw [same, List.length_append, List.length_singleton]
          omega
      · rw [← List.length_append]
        exact (List.subperm_of_subset next.distinct fun x member => (next.fresh x member).1).length_le

end

/-- The components found so far. -/
structure Assigned (succ : Nat → List Nat) (nodes : List Nat) (result : List Nat × List (List Nat)) : Prop where
  members : ∀ x, x ∈ result.1 ↔ x ∈ result.2.flatten
  distinct : result.2.flatten.Nodup
  within : ∀ x ∈ result.1, x ∈ nodes
  nonempty : ∀ component ∈ result.2, component ≠ []
  sorted : ∀ component ∈ result.2, component.Pairwise (· < ·)
  components : ∀ component ∈ result.2, ∀ x ∈ component, ∀ y,
    y ∈ component ↔ Reach succ x y ∧ Reach succ y x

/-- With a node, its whole component is assigned. -/
theorem Assigned.mutual {nodes : List Nat} {result : List Nat × List (List Nat)} (found : Assigned succ nodes result)
    {x y : Nat} (member : x ∈ result.1) (forth : Reach succ x y) (back : Reach succ y x) : y ∈ result.1 := by
  obtain ⟨component, known, inside⟩ := List.mem_flatten.mp ((found.members x).mp member)
  exact (found.members y).mpr
    (List.mem_flatten.mpr ⟨component, known, (found.components component known x inside y).mpr ⟨forth, back⟩⟩)

section

variable {nodes : List Nat} (closed : ∀ x ∈ nodes, ∀ y ∈ succ x, y ∈ nodes)
  (backward : ∀ x ∈ nodes, ∀ y, y ∈ pred x ↔ y ∈ nodes ∧ x ∈ succ y) (distinct : nodes.Nodup)

include closed

theorem reach_within {x y : Nat} (path : Reach succ x y) (member : x ∈ nodes) : y ∈ nodes := by
  induction path with
  | refl => exact member
  | tail _ edge ih => exact closed _ ih _ edge

theorem path_within {inside earlier : List Nat} {x y : Nat}
    (remains : ∀ x ∈ nodes, x ∉ earlier → x ∈ inside)
    (path : ReflTransGen (fun a b => b ∈ succ a ∧ b ∉ earlier) x y) (member : x ∈ nodes) :
    ReflTransGen (fun a b => b ∈ succ a ∧ b ∈ inside) x y := by
  induction path with
  | refl => exact .refl
  | @tail b c path edge ih =>
    have between := reach_within closed (path.lift id fun _ _ edge => edge.1) member
    exact ih.tail ⟨edge.1, remains c (closed b between c edge.1) edge.2⟩

include backward distinct

theorem Assigned.assign {before after : List Nat} {start : Nat} {result : List Nat × List (List Nat)}
    (order : finishingOrder succ nodes = before ++ start :: after) (found : Assigned succ nodes result)
    (covered : after ⊆ result.1) :
    Assigned succ nodes (assign pred nodes.length result start) ∧
      start :: after ⊆ (assign pred nodes.length result start).1 := by
  obtain ⟨nodup, ordered, all⟩ := finishingOrder_spec closed distinct
  rw [order] at nodup ordered all
  unfold Components.assign
  split
  · rename_i known
    exact ⟨found, List.cons_subset.mpr ⟨known, covered⟩⟩
  · rename_i unknown
    have member : start ∈ nodes := (all start).mp (List.mem_append_right _ (.head _))
    have begun : Collection.Sound succ pred nodes result.1 start ⟨start :: result.1, [start], []⟩ := by
      refine ⟨?_, List.nodup_singleton _, ?_, ?_, by simp, .head _⟩
      · intro x
        simp only [List.mem_cons, List.append_nil, List.not_mem_nil, or_false]
        tauto
      · intro x single
        rw [List.append_nil, List.mem_singleton] at single
        exact single ▸ ⟨member, unknown⟩
      · intro x single
        rw [List.append_nil, List.mem_singleton] at single
        rw [single]
    obtain ⟨sound, idle⟩ := begun.run backward (Nat.le_add_left _ _)
    revert sound idle
    generalize Collection.run pred nodes.length ⟨start :: result.1, [start], []⟩ = collection
    rintro ⟨assigned, apart, fresh, leads, preds, started⟩ idle
    rw [idle] at assigned apart fresh leads started
    simp only [List.nil_append] at assigned apart fresh leads started
    have early : ∀ x ∈ nodes, x ∉ result.1 → x ∈ before ++ [start] := by
      intro x known missing
      have placed := (all x).mpr known
      simp only [List.mem_append, List.mem_cons, List.not_mem_nil, or_false] at placed ⊢
      rcases placed with old | same | later
      · exact Or.inl old
      · exact Or.inr same
      · exact absurd (covered later) missing
    have prefixNodup : (before ++ [start]).Nodup := by
      refine nodup.sublist ?_
      exact List.Sublist.append_left (by simp) before
    have inside : ∀ x, x ∈ collection.component ↔ Reach succ start x ∧ Reach succ x start := by
      intro x
      constructor
      · intro gathered
        have path := leads x gathered
        have known := fresh x gathered
        refine ⟨?_, path.lift id fun _ _ edge => edge.1⟩
        exact Ordered.back ordered prefixNodup (early x known.1 known.2) (path_within closed early path known.1)
      · rintro ⟨forth, back⟩
        have outside : ∀ y, Reach succ start y → Reach succ y start → y ∉ result.1 :=
          fun y away back assignedY => unknown (found.mutual assignedY back away)
        induction back using ReflTransGen.head_induction_on with
        | refl => exact started
        | @head a b edge rest ih =>
          have between := ih (forth.tail edge)
          have predecessor : a ∈ pred b :=
            (backward b (fresh b between).1 a).mpr ⟨reach_within closed forth member, edge⟩
          exact ((assigned a).mp (preds b between a predecessor)).resolve_left
            (outside a forth (rest.head edge))
    have flat : ∀ x, x ∈ (result.2 ++ [Ordered.sortedBy id collection.component]).flatten ↔
        x ∈ result.2.flatten ∨ x ∈ collection.component := by
      intro x
      simp only [List.flatten_append, List.flatten_singleton, List.mem_append, Ordered.mem_sortedBy]
    refine ⟨⟨?_, ?_, ?_, ?_, ?_, ?_⟩, ?_⟩
    · intro x
      rw [assigned, flat, found.members]
    · simp only [List.flatten_append, List.flatten_singleton]
      refine List.nodup_append.mpr ⟨found.distinct, Ordered.sortedBy_nodup apart, ?_⟩
      rintro x old y new rfl
      exact (fresh x (Ordered.mem_sortedBy.mp new)).2 ((found.members x).mpr old)
    · intro x known
      rcases (assigned x).mp known with old | new
      · exact found.within x old
      · exact (fresh x new).1
    · intro component known
      rcases List.mem_append.mp known with old | new
      · exact found.nonempty component old
      · rw [List.mem_singleton.mp new]
        exact List.ne_nil_of_mem (Ordered.mem_sortedBy.mpr started)
    · intro component known
      rcases List.mem_append.mp known with old | new
      · exact found.sorted component old
      · rw [List.mem_singleton.mp new]
        refine ((Ordered.sortedBy_pairwise id _).and (Ordered.sortedBy_nodup apart)).imp ?_
        rintro _ _ ⟨le, ne⟩
        exact lt_of_le_of_ne le ne
    · intro component known x placed y
      rcases List.mem_append.mp known with old | new
      · exact found.components component old x placed y
      · rw [List.mem_singleton.mp new] at placed ⊢
        obtain ⟨forth, back⟩ := (inside x).mp (Ordered.mem_sortedBy.mp placed)
        rw [Ordered.mem_sortedBy, inside]
        constructor
        · rintro ⟨away, home⟩
          exact ⟨back.trans away, home.trans forth⟩
        · rintro ⟨away, home⟩
          exact ⟨forth.trans away, home.trans back⟩
    · intro x listed
      refine (assigned x).mpr ?_
      rcases List.mem_cons.mp listed with rfl | later
      · exact Or.inr started
      · exact Or.inl (covered later)

/-- The components are the classes of mutual reachability, every node is in exactly one. -/
theorem strongComponents_spec : ∃ assigned, Assigned succ nodes (assigned, strongComponents succ pred nodes) ∧
    ∀ x, x ∈ assigned ↔ x ∈ nodes := by
  have run : ∀ after before, finishingOrder succ nodes = before ++ after →
      Assigned succ nodes (after.reverse.foldl (assign pred nodes.length) ([], [])) ∧
        after ⊆ (after.reverse.foldl (assign pred nodes.length) ([], [])).1 := by
    intro after
    induction after with
    | nil => exact fun _ _ => ⟨⟨by simp, by simp, by simp, by simp, by simp, by simp⟩, List.nil_subset _⟩
    | cons start after ih =>
      intro before order
      obtain ⟨found, covered⟩ := ih (before ++ [start]) (by rw [order, List.append_assoc, List.singleton_append])
      rw [List.reverse_cons, List.foldl_append]
      exact found.assign closed backward distinct order covered
  obtain ⟨found, covered⟩ := run (finishingOrder succ nodes) [] rfl
  refine ⟨_, found, fun x => ⟨found.within x, fun member => covered ?_⟩⟩
  exact ((finishingOrder_spec closed distinct).2.2 x).mpr member

end

/-- What a search knows at every step: it has assigned what it has met, and nothing else
leads out of what it has left behind. -/
structure Collection.Searching (succ : Nat → List Nat) (nodes : List Nat) (state : Collection) : Prop where
  assigned : ∀ x, x ∈ state.assigned ↔ x ∈ state.pending ++ state.component
  distinct : (state.pending ++ state.component).Nodup
  within : ∀ x ∈ state.pending ++ state.component, x ∈ nodes
  closed : ∀ x ∈ state.component, ∀ y ∈ succ x, y ∈ state.assigned

section

variable {nodes : List Nat} (inside : ∀ x ∈ nodes, ∀ y ∈ succ x, y ∈ nodes)

include inside

/-- One step keeps the search going and reaches nothing new. -/
theorem Collection.Searching.step {state : Collection} (searching : state.Searching succ nodes) :
    (state.step succ).Searching succ nodes ∧ (∀ x ∈ state.assigned, x ∈ (state.step succ).assigned) ∧
      ∀ x ∈ (state.step succ).assigned, ∃ y ∈ state.assigned, ReflTransGen (fun a b => b ∈ succ a) y x := by
  unfold Collection.step
  split
  · exact ⟨searching, fun x member => member, fun x member => ⟨x, member, .refl⟩⟩
  · rename_i node rest top
    obtain ⟨added, same, distinct, origin, covers⟩ := Collection.push_all (succ node).reverse
      { state with pending := rest, component := state.component ++ [node] }
    rw [same]
    obtain ⟨assigned, nodup, within, closed⟩ := searching
    simp only [top, List.mem_append, List.mem_cons] at assigned nodup within origin
    have edge : ∀ x ∈ added, x ∈ succ node := fun x member => List.mem_reverse.mp (origin x member).1
    refine ⟨⟨?_, ?_, ?_, ?_⟩, fun x member => List.mem_append_right _ member, ?_⟩
    · intro x
      simp only [List.mem_append, List.mem_singleton, assigned x]
      tauto
    · have moved : (rest ++ (state.component ++ [node])).Nodup := by
        refine (List.Perm.nodup_iff ?_).mp nodup
        rw [← List.append_assoc]
        exact (List.perm_append_singleton node _).symm
      show (added ++ rest ++ (state.component ++ [node])).Nodup
      rw [List.append_assoc]
      refine List.nodup_append.mpr ⟨distinct, moved, ?_⟩
      rintro x member y old rfl
      refine (origin x member).2 ((assigned x).mpr ?_)
      simp only [List.mem_append, List.mem_singleton] at old
      tauto
    · intro x member
      simp only [List.mem_append, List.mem_singleton] at member
      rcases member with (new | old) | old
      · exact inside node (within node (by simp)) x (edge x new)
      · exact within x (by tauto)
      · exact within x (by tauto)
    · intro x member y target
      rcases List.mem_append.mp member with old | single
      · exact List.mem_append_right _ (closed x old y target)
      · rw [List.mem_singleton.mp single] at target
        exact covers (List.mem_reverse.mpr target)
    · intro x member
      rcases List.mem_append.mp member with new | old
      · exact ⟨node, (assigned node).mpr (by simp), .single (edge x new)⟩
      · exact ⟨x, old, .refl⟩

/-- A search with enough fuel assigns exactly what its first nodes lead to. -/
theorem Collection.Searching.run {state : Collection} (searching : state.Searching succ nodes) {fuel : Nat}
    (enough : nodes.length ≤ state.component.length + fuel) (y : Nat) :
    y ∈ (Collection.run succ fuel state).assigned ↔
      ∃ x ∈ state.assigned, ReflTransGen (fun a b => b ∈ succ a) x y := by
  have bound : state.pending.length + state.component.length ≤ nodes.length := by
    rw [← List.length_append]
    exact (List.subperm_of_subset searching.distinct searching.within).length_le
  have finished : ∀ {state : Collection}, state.Searching succ nodes → state.pending = [] →
      (y ∈ state.assigned ↔ ∃ x ∈ state.assigned, ReflTransGen (fun a b => b ∈ succ a) x y) := by
    intro state searching idle
    refine ⟨fun member => ⟨y, member, .refl⟩, ?_⟩
    rintro ⟨x, member, path⟩
    induction path with
    | refl => exact member
    | tail _ edge ih =>
      have left := (searching.assigned _).mp ih
      rw [idle, List.nil_append] at left
      exact searching.closed _ left _ edge
  induction fuel generalizing state with
  | zero =>
    refine finished searching (List.eq_nil_of_length_eq_zero ?_)
    show state.pending.length = 0
    omega
  | succ fuel ih =>
    unfold Collection.run
    split
    · rename_i idle
      exact finished searching (List.isEmpty_iff.mp idle)
    · rename_i busy
      obtain ⟨next, grows, reached⟩ := searching.step inside
      refine (ih next ?_ ?_).trans ⟨?_, ?_⟩
      · unfold Collection.step
        split
        · rename_i idle
          exact absurd (List.isEmpty_iff.mpr idle) busy
        · rename_i node rest top
          obtain ⟨added, same, _⟩ := Collection.push_all (succ node).reverse
            { state with pending := rest, component := state.component ++ [node] }
          rw [same, List.length_append, List.length_singleton]
          omega
      · rw [← List.length_append]
        exact (List.subperm_of_subset next.distinct next.within).length_le
      · rintro ⟨x, member, path⟩
        obtain ⟨z, known, before⟩ := reached x member
        exact ⟨z, known, before.trans path⟩
      · rintro ⟨x, member, path⟩
        exact ⟨x, grows x member, path⟩

end

end Components
