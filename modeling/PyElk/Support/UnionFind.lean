import Mathlib.Data.List.Nodup
import Mathlib.Data.Nat.Basic
import Mathlib.Logic.Function.Basic
import Mathlib.Logic.Relation
import Mathlib.Order.MinMax

namespace UnionFind

/-- A forest over the numbers in which no parent is above its child. -/
structure Forest where
  parent : Nat → Nat
  descends : ∀ node, parent node ≤ node

/-- Every number is the root of a tree of its own. -/
def Forest.discrete : Forest := ⟨id, fun _ => le_rfl⟩

/-- One step of path halving. -/
def Forest.halve (forest : Forest) (node : Nat) : Forest where
  parent := Function.update forest.parent node (forest.parent (forest.parent node))
  descends := fun other => by
    rcases eq_or_ne other node with rfl | apart
    · rw [Function.update_self]
      exact (forest.descends _).trans (forest.descends _)
    · rw [Function.update_of_ne apart]
      exact forest.descends other

/-- `find`, which halves the path that it follows. -/
def Forest.find : Nat → Forest → Nat → Forest × Nat
  | 0, forest, node => (forest, node)
  | fuel + 1, forest, node =>
    if forest.parent node = node then (forest, node)
    else Forest.find fuel (forest.halve node) ((forest.halve node).parent node)

def Forest.link (forest : Forest) (child root : Nat) (below : root ≤ child) : Forest where
  parent := Function.update forest.parent child root
  descends := fun other => by
    rcases eq_or_ne other child with rfl | apart
    · rwa [Function.update_self]
    · rw [Function.update_of_ne apart]
      exact forest.descends other

/-- `union`: the smaller of the two roots becomes the parent of the other. -/
def Forest.union (forest : Forest) (first second : Nat) : Forest :=
  let (forest, firstRoot) := forest.find first first
  let (forest, secondRoot) := forest.find second second
  if firstRoot = secondRoot then forest
  else forest.link (max firstRoot secondRoot) (min firstRoot secondRoot) (min_le_left _ _ |>.trans (le_max_left _ _))

def Forest.unionAll (forest : Forest) (pairs : List (Nat × Nat)) : Forest :=
  pairs.foldl (fun forest pair => forest.union pair.1 pair.2) forest

/-- Adding a member to the class of its root, in the order in which roots are met. -/
def insertMember (root member : Nat) : List (Nat × List Nat) → List (Nat × List Nat)
  | [] => [(root, [member])]
  | (other, members) :: rest =>
    if other = root then (other, members ++ [member]) :: rest else (other, members) :: insertMember root member rest

/-- The numbers grouped by their roots. -/
def Forest.group : Forest → List Nat → List (Nat × List Nat) → List (Nat × List Nat)
  | _, [], classes => classes
  | forest, member :: rest, classes =>
    let (forest, root) := forest.find member member
    Forest.group forest rest (insertMember root member classes)

def Forest.classes (forest : Forest) (members : List Nat) : List (List Nat) :=
  (forest.group members []).map Prod.snd

/-- The end of the path of parents. -/
def Forest.root (forest : Forest) (node : Nat) : Nat :=
  if _ : forest.parent node = node then node else forest.root (forest.parent node)
termination_by node
decreasing_by exact lt_of_le_of_ne (forest.descends node) ‹_›

theorem Forest.halve_parent (forest : Forest) (node other : Nat) : (forest.halve node).parent other =
    if other = node then forest.parent (forest.parent node) else forest.parent other :=
  Function.update_apply ..

theorem Forest.link_parent {forest : Forest} {child root : Nat} {below : root ≤ child} (other : Nat) :
    (forest.link child root below).parent other = if other = child then root else forest.parent other :=
  Function.update_apply ..

section

variable {forest : Forest} {node : Nat}

theorem Forest.root_of_fixed (fixed : forest.parent node = node) : forest.root node = node := by
  rw [root, dif_pos fixed]

theorem Forest.root_parent (forest : Forest) (node : Nat) : forest.root (forest.parent node) = forest.root node := by
  by_cases fixed : forest.parent node = node
  · rw [fixed]
  · have unfolded : forest.root node = forest.root (forest.parent node) := by rw [root, dif_neg fixed]
    exact unfolded.symm

/-- The root is the only labelling that parents keep and that fixed points bear themselves. -/
theorem Forest.eq_root {label : Nat → Nat} (kept : ∀ node, label (forest.parent node) = label node)
    (fixed : ∀ node, forest.parent node = node → label node = node) : forest.root = label := by
  funext node
  induction node using Nat.strong_induction_on with
  | h node ih =>
    by_cases stays : forest.parent node = node
    · rw [root_of_fixed stays, fixed node stays]
    · rw [← root_parent, ih _ (lt_of_le_of_ne (forest.descends node) stays), kept]

theorem Forest.parent_root (forest : Forest) (node : Nat) : forest.parent (forest.root node) = forest.root node := by
  induction node using Nat.strong_induction_on with
  | h node ih =>
    by_cases stays : forest.parent node = node
    · rw [root_of_fixed stays, stays]
    · rw [← root_parent]
      exact ih _ (lt_of_le_of_ne (forest.descends node) stays)

theorem Forest.root_discrete : Forest.discrete.root = id :=
  eq_root (fun _ => rfl) fun _ _ => rfl

/-- Halving a path moves no root. -/
theorem Forest.root_halve (forest : Forest) (node : Nat) : (forest.halve node).root = forest.root := by
  refine eq_root (fun other => ?_) fun other stays => ?_
  · rw [halve_parent]
    split
    · rename_i same
      rw [root_parent, root_parent, same]
    · exact root_parent forest other
  · rw [halve_parent] at stays
    split at stays
    · rename_i same
      subst same
      have up := forest.descends (forest.parent other)
      rw [stays] at up
      exact root_of_fixed (le_antisymm (forest.descends other) up)
    · exact root_of_fixed stays

/-- `find` returns the root and keeps all roots. A number pays for its path of parents. -/
theorem Forest.find_spec {fuel : Nat} (enough : node ≤ fuel) :
    (forest.find fuel node).2 = forest.root node ∧ (forest.find fuel node).1.root = forest.root := by
  induction fuel generalizing forest node with
  | zero =>
    have lowest : forest.parent node = node := by
      have := forest.descends node
      omega
    exact ⟨(root_of_fixed lowest).symm, rfl⟩
  | succ fuel ih =>
    unfold find
    split
    · rename_i stays
      exact ⟨(root_of_fixed stays).symm, rfl⟩
    · rename_i moves
      have step : (forest.halve node).parent node = forest.parent (forest.parent node) := by
        rw [halve_parent, if_pos rfl]
      have lower := lt_of_le_of_ne (forest.descends node) moves
      have lowest := forest.descends (forest.parent node)
      obtain ⟨found, kept⟩ := @ih (forest.halve node) ((forest.halve node).parent node) (by omega)
      refine ⟨?_, kept.trans (forest.root_halve node)⟩
      rw [found, root_halve, step, root_parent, root_parent]

/-- Linking two roots redirects exactly one tree. -/
theorem Forest.root_link {child root : Nat} {below : root ≤ child} (childRoot : forest.parent child = child)
    (rootRoot : forest.parent root = root) (node : Nat) :
    (forest.link child root below).root node = if forest.root node = child then root else forest.root node := by
  have label : (forest.link child root below).root =
      fun node => if forest.root node = child then root else forest.root node := by
    refine eq_root (fun other => ?_) fun other stays => ?_
    · rw [link_parent]
      split
      · rename_i same
        rw [same, root_of_fixed rootRoot, root_of_fixed childRoot, if_pos rfl, ite_self]
      · rw [root_parent]
    · rw [link_parent] at stays
      split at stays
      · rename_i same
        rw [same, root_of_fixed childRoot, if_pos rfl, stays, same]
      · rename_i apart
        rw [root_of_fixed stays, if_neg apart]
  exact congrFun label node

/-- A union joins the trees of its arguments and no others. -/
theorem Forest.root_union (forest : Forest) (first second node : Nat) :
    (forest.union first second).root node =
      if forest.root node = max (forest.root first) (forest.root second) then
        min (forest.root first) (forest.root second) else forest.root node := by
  obtain ⟨firstRoot, firstKept⟩ := @find_spec forest first first le_rfl
  obtain ⟨secondRoot, secondKept⟩ := @find_spec (forest.find first first).1 second second le_rfl
  have kept : ((forest.find first first).1.find second second).1.root = forest.root := secondKept.trans firstKept
  have fixed : ∀ node, ((forest.find first first).1.find second second).1.parent (forest.root node) =
    forest.root node := by
    intro node
    have := ((forest.find first first).1.find second second).1.parent_root node
    rwa [kept] at this
  rw [firstKept] at secondRoot
  unfold union
  simp only [firstRoot, secondRoot]
  split
  · rename_i same
    rw [kept, same, max_self, min_self]
    split
    · assumption
    · rfl
  · have larger : ∀ a b : Nat, ((forest.find first first).1.find second second).1.parent a = a →
        ((forest.find first first).1.find second second).1.parent b = b →
        ((forest.find first first).1.find second second).1.parent (max a b) = max a b := by
      intro a b left right
      rcases max_choice a b with same | same <;> rw [same] <;> assumption
    have smaller : ∀ a b : Nat, ((forest.find first first).1.find second second).1.parent a = a →
        ((forest.find first first).1.find second second).1.parent b = b →
        ((forest.find first first).1.find second second).1.parent (min a b) = min a b := by
      intro a b left right
      rcases min_choice a b with same | same <;> rw [same] <;> assumption
    rw [root_link (larger _ _ (fixed first) (fixed second)) (smaller _ _ (fixed first) (fixed second)), kept]

end

section

variable {forest : Forest} {first second : Nat}

theorem Forest.union_joins (forest : Forest) (first second : Nat) :
    (forest.union first second).root first = (forest.union first second).root second := by
  rw [root_union, root_union]
  rcases le_total (forest.root first) (forest.root second) with le | le
  · rw [max_eq_right le, min_eq_left le, if_pos rfl, ite_self]
  · rw [max_eq_left le, min_eq_right le, if_pos rfl, ite_self]

theorem Forest.union_keeps {x y : Nat} (same : forest.root x = forest.root y) :
    (forest.union first second).root x = (forest.union first second).root y := by
  rw [root_union, root_union, same]

variable {r : Nat → Nat → Prop}

/-- The roots of a union of related numbers are related to their trees. -/
theorem Forest.union_related (sound : ∀ x, Relation.EqvGen r x (forest.root x)) (related : r first second) (x : Nat) :
    Relation.EqvGen r x ((forest.union first second).root x) := by
  have joined : Relation.EqvGen r (forest.root first) (forest.root second) :=
    ((sound first).symm.trans _ _ _ (.rel _ _ related)).trans _ _ _ (sound second)
  rw [root_union]
  split
  · rename_i largest
    refine (sound x).trans _ _ _ ?_
    rw [largest]
    rcases le_total (forest.root first) (forest.root second) with le | le
    · rw [max_eq_right le, min_eq_left le]
      exact joined.symm
    · rw [max_eq_left le, min_eq_right le]
      exact joined
  · exact sound x

end

/-- What all unions so far have joined stays joined. -/
theorem Forest.unionAll_keeps {forest : Forest} {pairs : List (Nat × Nat)} {x y : Nat}
    (same : forest.root x = forest.root y) : (forest.unionAll pairs).root x = (forest.unionAll pairs).root y := by
  induction pairs generalizing forest with
  | nil => exact same
  | cons pair rest ih => exact ih (union_keeps same)

theorem Forest.unionAll_joins {forest : Forest} {pairs : List (Nat × Nat)} {pair : Nat × Nat}
    (listed : pair ∈ pairs) :
    (forest.unionAll pairs).root pair.1 = (forest.unionAll pairs).root pair.2 := by
  induction pairs generalizing forest with
  | nil => exact absurd listed List.not_mem_nil
  | cons head rest ih =>
    rcases List.mem_cons.mp listed with rfl | later
    · exact @unionAll_keeps (forest.union pair.1 pair.2) rest _ _ (forest.union_joins pair.1 pair.2)
    · exact ih later

theorem Forest.unionAll_related {forest : Forest} {pairs : List (Nat × Nat)} {r : Nat → Nat → Prop}
    (sound : ∀ x, Relation.EqvGen r x (forest.root x)) (related : ∀ pair ∈ pairs, r pair.1 pair.2) (x : Nat) :
    Relation.EqvGen r x ((forest.unionAll pairs).root x) := by
  induction pairs generalizing forest with
  | nil => exact sound x
  | cons pair rest ih =>
    exact ih (union_related sound (related pair List.mem_cons_self))
      fun other listed => related other (List.mem_cons_of_mem _ listed)

/-- The trees of a forest of unions are the classes of the generated equivalence. -/
theorem Forest.unionAll_root_eq {pairs : List (Nat × Nat)} {x y : Nat} :
    (Forest.discrete.unionAll pairs).root x = (Forest.discrete.unionAll pairs).root y ↔
      Relation.EqvGen (fun first second => (first, second) ∈ pairs) x y := by
  constructor
  · intro same
    have start : ∀ x, Relation.EqvGen (fun first second => (first, second) ∈ pairs) x (Forest.discrete.root x) := by
      intro x
      rw [Forest.root_discrete]
      exact .refl x
    have sound : ∀ x, Relation.EqvGen (fun first second => (first, second) ∈ pairs) x
        ((Forest.discrete.unionAll pairs).root x) := Forest.unionAll_related start fun _ listed => listed
    exact (same ▸ sound x).trans _ _ _ (sound y).symm
  · intro connected
    induction connected with
    | rel _ _ listed => exact Forest.unionAll_joins listed
    | refl => rfl
    | symm _ _ _ ih => exact ih.symm
    | trans _ _ _ _ _ left right => exact left.trans right

/-- The classes collected from the members `done` so far. -/
structure Grouped (root : Nat → Nat) (done : List Nat) (classes : List (Nat × List Nat)) : Prop where
  keys : (classes.map Prod.fst).Nodup
  met : ∀ x ∈ done, root x ∈ classes.map Prod.fst
  members : ∀ row ∈ classes, row.2 = done.filter fun x => root x = row.1
  nonempty : ∀ row ∈ classes, row.2 ≠ []

theorem insertMember_keys {root member : Nat} {classes : List (Nat × List Nat)} :
    (insertMember root member classes).map Prod.fst =
      if root ∈ classes.map Prod.fst then classes.map Prod.fst else classes.map Prod.fst ++ [root] := by
  induction classes with
  | nil => rfl
  | cons row rest ih =>
    unfold insertMember
    split
    · rename_i same
      simp [same]
    · rename_i apart
      simp only [List.map_cons, ih, List.mem_cons, Ne.symm apart, false_or]
      split <;> rfl

theorem mem_insertMember {root member : Nat} {classes : List (Nat × List Nat)} {row : Nat × List Nat}
    (keys : (classes.map Prod.fst).Nodup) (found : row ∈ insertMember root member classes) :
    (row ∈ classes ∧ row.1 ≠ root) ∨ (∃ members, (root, members) ∈ classes ∧ row = (root, members ++ [member])) ∨
      (root ∉ classes.map Prod.fst ∧ row = (root, [member])) := by
  induction classes with
  | nil => exact Or.inr (Or.inr ⟨List.not_mem_nil, List.mem_singleton.mp found⟩)
  | cons head rest ih =>
    obtain ⟨other, members⟩ := head
    obtain ⟨fresh, distinct⟩ := List.nodup_cons.mp keys
    unfold insertMember at found
    split at found
    · rename_i same
      subst same
      rcases List.mem_cons.mp found with rfl | later
      · exact Or.inr (Or.inl ⟨members, List.mem_cons_self, rfl⟩)
      · refine Or.inl ⟨List.mem_cons_of_mem _ later, fun same => fresh ?_⟩
        exact List.mem_map.mpr ⟨row, later, same⟩
    · rename_i apart
      rcases List.mem_cons.mp found with rfl | later
      · exact Or.inl ⟨List.mem_cons_self, apart⟩
      · rcases ih distinct later with ⟨kept, ne⟩ | ⟨old, listed, same⟩ | ⟨absent, same⟩
        · exact Or.inl ⟨List.mem_cons_of_mem _ kept, ne⟩
        · exact Or.inr (Or.inl ⟨old, List.mem_cons_of_mem _ listed, same⟩)
        · refine Or.inr (Or.inr ⟨fun known => ?_, same⟩)
          rcases List.mem_cons.mp known with same | known
          · exact apart same.symm
          · exact absent known

theorem Grouped.insert {root : Nat → Nat} {done : List Nat} {classes : List (Nat × List Nat)}
    (grouped : Grouped root done classes) (member : Nat) :
    Grouped root (done ++ [member]) (insertMember (root member) member classes) := by
  refine ⟨?_, ?_, ?_, ?_⟩
  · rw [insertMember_keys]
    split
    · exact grouped.keys
    · rename_i novel
      refine List.nodup_append.mpr ⟨grouped.keys, List.nodup_singleton _, ?_⟩
      rintro key known _ single rfl
      exact novel (List.mem_singleton.mp single ▸ known)
  · intro x listed
    rw [insertMember_keys]
    rcases List.mem_append.mp listed with old | new
    · split
      · exact grouped.met x old
      · exact List.mem_append_left _ (grouped.met x old)
    · rw [List.mem_singleton.mp new]
      split
      · assumption
      · exact List.mem_append_right _ (List.mem_singleton_self _)
  · intro row found
    rw [List.filter_append]
    rcases mem_insertMember grouped.keys found with ⟨kept, apart⟩ | ⟨members, listed, rfl⟩ | ⟨absent, rfl⟩
    · rw [List.filter_cons_of_neg (by simpa using Ne.symm apart), List.filter_nil, List.append_nil]
      exact grouped.members row kept
    · rw [List.filter_cons_of_pos (by simp), List.filter_nil, ← grouped.members _ listed]
    · have none_ : (done.filter fun x => root x = root member) = [] :=
        List.filter_eq_nil_iff.mpr fun x listed same => absent (of_decide_eq_true same ▸ grouped.met x listed)
      rw [none_, List.filter_cons_of_pos (by simp), List.filter_nil, List.nil_append]
  · intro row found
    rcases mem_insertMember grouped.keys found with ⟨kept, -⟩ | ⟨members, -, rfl⟩ | ⟨-, rfl⟩
    · exact grouped.nonempty row kept
    · exact List.append_ne_nil_of_right_ne_nil _ (List.cons_ne_nil _ _)
    · exact List.cons_ne_nil _ _

theorem Forest.group_spec {forest : Forest} {done members : List Nat} {classes : List (Nat × List Nat)}
    (grouped : Grouped forest.root done classes) :
    Grouped forest.root (done ++ members) (forest.group members classes) := by
  induction members generalizing forest done classes with
  | nil => rwa [List.append_nil]
  | cons member rest ih =>
    obtain ⟨found, kept⟩ := @find_spec forest member member le_rfl
    have next : Grouped (forest.find member member).1.root (done ++ [member])
        (insertMember (forest.find member member).2 member classes) := by
      rw [kept, found]
      exact grouped.insert member
    have last := ih next
    rw [kept, List.append_assoc] at last
    exact last

/-- The classes of some members are the nonempty sets of members with one root. -/
theorem Forest.mem_classes {forest : Forest} {members : List Nat} {group : List Nat} :
    group ∈ forest.classes members ↔
      ∃ x ∈ members, group = members.filter fun y => forest.root y = forest.root x := by
  have start : Grouped forest.root [] [] := ⟨.nil, by simp, by simp, by simp⟩
  have grouped : Grouped forest.root members (forest.group members []) := forest.group_spec start
  unfold classes
  constructor
  · intro listed
    obtain ⟨row, found, rfl⟩ := List.mem_map.mp listed
    obtain ⟨x, inside⟩ := List.exists_mem_of_ne_nil _ (grouped.nonempty row found)
    have same := grouped.members row found
    rw [same] at inside ⊢
    obtain ⟨member, root⟩ := List.mem_filter.mp inside
    exact ⟨x, member, by rw [of_decide_eq_true root]⟩
  · rintro ⟨x, member, rfl⟩
    obtain ⟨row, found, same⟩ := List.mem_map.mp (grouped.met x member)
    refine List.mem_map.mpr ⟨row, found, ?_⟩
    rw [grouped.members row found, same]

/-- No member is in two classes. -/
theorem Forest.classes_disjoint {forest : Forest} {members : List Nat} :
    (forest.classes members).Pairwise List.Disjoint := by
  have start : Grouped forest.root [] [] := ⟨.nil, by simp, by simp, by simp⟩
  have grouped : Grouped forest.root members (forest.group members []) := forest.group_spec start
  refine List.pairwise_map.mpr ((List.pairwise_map.mp grouped.keys).imp_of_mem fun {a b} left right apart => ?_)
  intro x inA inB
  rw [grouped.members a left] at inA
  rw [grouped.members b right] at inB
  exact apart ((of_decide_eq_true (List.mem_filter.mp inA).2).symm.trans
    (of_decide_eq_true (List.mem_filter.mp inB).2))

end UnionFind
