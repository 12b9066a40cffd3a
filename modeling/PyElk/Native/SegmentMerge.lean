import PyElk.Native.ConsumedRoots

open Raising Lexicographic Merging

namespace PyElk.Native

theorem compareKeys_self (key : Nat × List UInt8) : compareKeys key key = .eq := compareKeys_eq.mpr rfl

/-- The order of the merge. -/
noncomputable def segmentOrder (tables : List CompilableSegment) (left right : SegmentRootRef) : Ordering :=
  compareKeys (segmentKey tables left) (segmentKey tables right)

instance (tables : List CompilableSegment) : Std.TransCmp (segmentOrder tables) := transCmp_on (segmentKey tables)

theorem segmentOrder_eq {tables : List CompilableSegment} {left right : SegmentRootRef} :
    segmentOrder tables left right = .eq ↔ segmentKey tables left = segmentKey tables right := compareKeys_eq

/-- The roots that are left in the tables. -/
def segmentRoots (remaining : List (List Nat)) : List (List SegmentRootRef) :=
  remaining.mapIdx fun table roots => roots.map (SegmentRootRef.mk table)

/-- What the root at the head of a table stands for. -/
noncomputable def headKey (tables : List CompilableSegment) (remaining : List (List Nat)) (table : Nat) :
    Option (Nat × List UInt8) :=
  ((remaining.getD table []).head?).map fun root => segmentKey tables ⟨table, root⟩

/-- The heads of the tables, and behind each one an iterator over the rest. -/
structure RootHeads.Left (heads : RootHeads) (remaining : List (List Nat)) : Prop where
  current : heads.currentRoots = remaining.map List.head?
  count : heads.rootIters.length = remaining.length
  yields : ∀ (table root : Nat) (later : List Nat) (roots : CompilationRootIter),
    remaining[table]? = some (root :: later) →
    heads.rootIters[table]? = some roots → roots.Yields later

/-- All the roots that are left are roots of the tables. -/
def Known (tables : List CompilableSegment) (remaining : List (List Nat)) : Prop :=
  ∀ (index root : Nat) (roots : List Nat), remaining[index]? = some roots → root ∈ roots → ∃ table,
    KnownRoot tables ⟨index, root⟩ table

section

variable {tables : List CompilableSegment} {remaining : List (List Nat)} {heads : RootHeads} {maxWork : Nat}

theorem mem_segmentRoots {list : List SegmentRootRef} :
    list ∈ segmentRoots remaining ↔ ∃ (table : Nat) (roots : List Nat), remaining[table]? = some roots ∧
      list = roots.map (SegmentRootRef.mk table) := by
  rw [List.mem_iff_getElem?]
  simp only [segmentRoots, List.getElem?_mapIdx, Option.map_eq_some_iff]
  constructor
  · intro found
    obtain ⟨table, roots, here, same⟩ := found
    exact ⟨table, roots, here, same.symm⟩
  · intro found
    obtain ⟨table, roots, here, same⟩ := found
    exact ⟨table, roots, here, same.symm⟩

theorem headKey_eq_some {table : Nat} {key : Nat × List UInt8} :
    headKey tables remaining table = some key ↔
      ∃ root later, remaining[table]? = some (root :: later) ∧ segmentKey tables ⟨table, root⟩ = key := by
  rw [headKey, Option.map_eq_some_iff, List.getD_eq_getElem?_getD]
  constructor
  · intro found
    obtain ⟨root, head, same⟩ := found
    cases here : remaining[table]? with
    | none =>
      rw [here] at head
      cases head
    | some roots =>
      rw [here, Option.getD_some] at head
      obtain ⟨later, rfl⟩ := List.head?_eq_some_iff.mp head
      exact ⟨root, later, rfl, same⟩
  · intro found
    obtain ⟨root, later, here, same⟩ := found
    exact ⟨root, by rw [here]; rfl, same⟩

theorem RootHeads.Left.head (left : heads.Left remaining) (table : Nat) :
    heads.currentRoots.getD table none = (remaining.getD table []).head? := by
  rw [left.current, List.getD_eq_getElem?_getD, List.getD_eq_getElem?_getD, List.getElem?_map]
  cases remaining[table]? with
  | none => rfl
  | some roots => rfl

/-- The tables that the loop over the heads has seen: the selected one has the least head, and the others with its
equal are kept. -/
structure Selected (tables : List CompilableSegment) (remaining : List (List Nat)) (seen : List Nat)
    (state : Nat × List Nat)
    (key : Nat × List UInt8) : Prop where
  selected : headKey tables remaining state.1 = some key
  least : ∀ table ∈ seen, ∀ other ∈ headKey tables remaining table, (compareKeys key other).isLE
  equals : state.2 = seen.filter fun table => headKey tables remaining table = some key

theorem selectTable_settles (known : Known tables remaining) (left : heads.Left remaining) {seen : List Nat}
    {state : Nat × List Nat}
    {key : Nat × List UInt8} (selected : Selected tables remaining seen state key) (candidate : Nat) :
    Settles (selectTable heads.currentRoots tables maxWork state candidate)
      (fun later => ∃ key, Selected tables remaining (seen ++ [candidate]) later key) OutOfWork := by
  rw [selectTable, left.head]
  split
  · next exhausted =>
    have headless : headKey tables remaining candidate = none := by rw [headKey, exhausted]; rfl
    refine .pure ⟨key, selected.selected, fun table member other found => ?_, ?_⟩
    · obtain earlier | here := List.mem_append.mp member
      · exact selected.least table earlier other found
      · rw [List.mem_singleton.mp here, headless] at found
        cases found
    · rw [List.filter_append, List.filter_singleton, headless, decide_eq_false (by simp), cond_false, List.append_nil]
      exact selected.equals
  · next root head =>
    obtain ⟨first, behind, front, rfl⟩ := headKey_eq_some.mp selected.selected
    have candidateKey : headKey tables remaining candidate = some (segmentKey tables ⟨candidate, root⟩) := by
      rw [headKey, head]
      rfl
    obtain ⟨root', later, here, same⟩ := headKey_eq_some.mp candidateKey
    have rootSame : root' = root := by
      rw [List.getD_eq_getElem?_getD, here, Option.getD_some] at head
      exact Option.some.inj head
    subst rootSame
    obtain ⟨table, knownCandidate⟩ := known candidate root' _ here (.head _)
    obtain ⟨selectedTable, knownSelected⟩ := known state.1 first _ front (.head _)
    have current : heads.currentRoots.getD state.1 none = some first := by
      rw [left.head, List.getD_eq_getElem?_getD, front]
      rfl
    refine .check_ok (okOr_ok.mpr current)
      (.bind (compareSegmentRoots_settles knownCandidate knownSelected) fun ordering order => ?_)
    have below : ∀ table ∈ seen ++ [candidate], ∀ other ∈ headKey tables remaining table,
        (table ∈ seen ∧ (compareKeys (segmentKey tables ⟨state.1, first⟩) other).isLE) ∨
        other = segmentKey tables ⟨candidate, root'⟩ := by
      intro table member other found
      obtain earlier | here := List.mem_append.mp member
      · exact .inl ⟨earlier, selected.least table earlier other found⟩
      · rw [List.mem_singleton.mp here, candidateKey] at found
        exact .inr (Option.some.inj found).symm
    cases ordering with
    | lt =>
      refine .pure ⟨_, candidateKey, fun table member other found => ?_, ?_⟩
      · obtain above | same := below table member other found
        · rw [Std.TransCmp.lt_of_lt_of_isLE order.symm above.2]
          rfl
        · rw [same, compareKeys_self]
          rfl
      · rw [List.filter_append, List.filter_singleton, decide_eq_true candidateKey, cond_true,
          List.filter_eq_nil_iff.mpr, List.nil_append]
        intro table member
        rw [decide_eq_true_eq]
        intro found
        have above := Std.TransCmp.lt_of_lt_of_isLE order.symm (selected.least table member _ found)
        rw [compareKeys_self] at above
        cases above
    | eq =>
      have equal := compareKeys_eq.mp order.symm
      refine .pure ⟨_, selected.selected, fun table member other found => ?_, ?_⟩
      · obtain above | same := below table member other found
        · exact above.2
        · rw [same, ← equal, compareKeys_self]
          rfl
      · rw [List.filter_append, List.filter_singleton,
          decide_eq_true (candidateKey.trans (congrArg some equal)), cond_true]
        exact congrArg (· ++ [candidate]) selected.equals
    | gt =>
      refine .pure ⟨_, selected.selected, fun table member other found => ?_, ?_⟩
      · obtain above | same := below table member other found
        · exact above.2
        · rw [same, Std.OrientedCmp.lt_of_gt order.symm]
          rfl
      · have differs : ¬ headKey tables remaining candidate = some (segmentKey tables ⟨state.1, first⟩) := by
          rw [candidateKey]
          intro same
          rw [Option.some.inj same, compareKeys_self] at order
          cases order
        rw [List.filter_append, List.filter_singleton, decide_eq_false differs, cond_false, List.append_nil]
        exact selected.equals

/-- The least head is selected, with the tables of its equals. -/
theorem selectTables_settles (known : Known tables remaining) (left : heads.Left remaining) {first : Nat}
    {key : Nat × List UInt8}
    (front : headKey tables remaining first = some key)
    (headless : ∀ table < first, headKey tables remaining table = none) :
    Settles ((List.range' (first + 1) (heads.currentRoots.length - (first + 1))).foldlM
      (selectTable heads.currentRoots tables maxWork) (first, [first])) (fun state => ∃ key,
        headKey tables remaining state.1 = some key ∧
          (∀ table, ∀ other ∈ headKey tables remaining table, (compareKeys key other).isLE) ∧
          state.2.Nodup ∧ ∀ table, table ∈ state.2 ↔ headKey tables remaining table = some key) OutOfWork := by
  have start : Selected tables remaining [first] (first, [first]) key := {
    selected := front
    least := fun table member other found => by
      rw [List.mem_singleton.mp member, front] at found
      rw [Option.some.inj found, compareKeys_self]
      rfl
    equals := by rw [List.filter_singleton, decide_eq_true front, cond_true] }
  have turns := @Settles.foldlM _ _ _ _ OutOfWork (selectTable heads.currentRoots tables maxWork)
    (List.range' (first + 1) (heads.currentRoots.length - (first + 1))) (first, [first])
    (fun state done => ∃ key, Selected tables remaining (first :: done) state key) ⟨key, start⟩
    (fun done candidate _ state _ holds => by
      obtain ⟨key, selected⟩ := holds
      exact selectTable_settles known left selected candidate)
  refine turns.weaken (fun state holds => ?_) fun _ => id
  obtain ⟨key, selected⟩ := holds
  have seen : ∀ table, (headKey tables remaining table).isSome →
    table ∈ first :: List.range' (first + 1) (heads.currentRoots.length - (first + 1)) := by
    intro table here
    obtain ⟨key, found⟩ := Option.isSome_iff_exists.mp here
    have behind : first ≤ table := by
      by_contra before
      rw [headless table (not_le.mp before)] at found
      cases found
    obtain ⟨root, later, inside, _⟩ := headKey_eq_some.mp found
    have bound := (List.getElem?_eq_some_iff.mp inside).1
    rw [List.mem_cons, List.mem_range'_1, left.current, List.length_map]
    omega
  refine ⟨key, selected.selected, fun table other found => ?_, ?_, fun table => ?_⟩
  · exact selected.least table (seen table (Option.isSome_iff_exists.mpr ⟨other, found⟩)) other found
  · rw [selected.equals]
    refine List.Nodup.filter _ (List.nodup_cons.mpr ⟨fun member => ?_, List.nodup_range'⟩)
    have bounds := List.mem_range'_1.mp member
    omega
  · rw [selected.equals, List.mem_filter, decide_eq_true_eq]
    exact ⟨fun found => found.2, fun found => ⟨seen table (Option.isSome_iff_exists.mpr ⟨key, found⟩), found⟩⟩

/-- A table that has a head moves on. -/
theorem RootHeads.advance_ok (left : heads.Left remaining) {table root : Nat} {later : List Nat}
    (head : remaining[table]? = some (root :: later)) :
    ∃ behind, heads.advance table = .ok behind ∧ behind.Left (remaining.set table later) := by
  have inside := (List.getElem?_eq_some_iff.mp head).1
  have insideIters : table < heads.rootIters.length := left.count ▸ inside
  have yields := left.yields table root later _ head (List.getElem?_eq_getElem insideIters)
  obtain ⟨roots, next, behind⟩ := yields.next_ok
  refine ⟨⟨heads.currentRoots.set table later.head?, heads.rootIters.set table roots⟩, ?_, ?_, ?_, ?_⟩
  · rw [advance, List.getElem?_eq_getElem insideIters]
    exact CoreResult.bind_ok.mpr ⟨_, next, rfl⟩
  · rw [List.map_set, left.current]
  · rw [List.length_set, List.length_set]
    exact left.count
  · intro other first rest iterator found here
    by_cases same : table = other
    · subst same
      rw [List.getElem?_set_self inside] at found
      rw [List.getElem?_set_self insideIters] at here
      rw [← Option.some.inj here]
      exact behind first rest (Option.some.inj found)
    · rw [List.getElem?_set_ne same] at found here
      exact left.yields other first rest iterator found here

theorem total_set {table root : Nat} {later : List Nat} (head : remaining[table]? = some (root :: later)) :
    ((remaining.set table later).map List.length).sum + 1 = (remaining.map List.length).sum := by
  induction remaining generalizing table with
  | nil => cases head
  | cons roots remaining ih =>
    cases table with
    | zero =>
      rw [Option.some.inj head, List.set_cons_zero, List.map_cons, List.map_cons, List.sum_cons, List.sum_cons,
        List.length_cons]
      omega
    | succ table =>
      have rest := ih head
      rw [List.set_cons_succ, List.map_cons, List.map_cons, List.sum_cons, List.sum_cons]
      omega

/-- The tables of a list move on, each once. -/
theorem advance_all {equals : List Nat} (left : heads.Left remaining) (distinct : equals.Nodup)
    (nonempty : ∀ table ∈ equals, ∃ root later, remaining[table]? = some (root :: later)) :
    ∃ behind rest, equals.foldlM RootHeads.advance heads = .ok behind ∧ behind.Left rest ∧
      (rest.map List.length).sum + equals.length = (remaining.map List.length).sum ∧
      ∀ table, rest[table]? = remaining[table]?.map fun roots => if table ∈ equals then roots.tail else roots := by
  induction equals generalizing heads remaining with
  | nil =>
    refine ⟨heads, remaining, rfl, left, rfl, fun table => ?_⟩
    simp only [List.not_mem_nil, if_false, Option.map_id_fun', id]
  | cons table equals ih =>
    obtain ⟨fresh, distinct⟩ := List.nodup_cons.mp distinct
    obtain ⟨root, later, head⟩ := nonempty table (.head _)
    obtain ⟨behind, advanced, left⟩ := RootHeads.advance_ok left head
    have inside := (List.getElem?_eq_some_iff.mp head).1
    obtain ⟨last, rest, folded, left, total, each⟩ := ih left distinct fun other member => by
      rw [List.getElem?_set_ne fun same => fresh (by rw [same]; exact member)]
      exact nonempty other (.tail _ member)
    refine ⟨last, rest, ?_, left, ?_, fun other => ?_⟩
    · rw [List.foldlM_cons, CoreResult.bind_ok]
      exact ⟨behind, advanced, folded⟩
    · have before := total_set head
      rw [List.length_cons]
      omega
    · rw [each other]
      by_cases same : table = other
      · subst same
        rw [List.getElem?_set_self inside, head, Option.map_some, Option.map_some, if_neg fresh, if_pos (.head _),
          List.tail_cons]
      · have differs : ¬ other = table := fun here => same here.symm
        rw [List.getElem?_set_ne same]
        simp only [List.mem_cons, differs, false_or]

/-- Behind the tables that move on are the lists without their heads. -/
theorem segmentRoots_advance {rest : List (List Nat)} {equals : List Nat} {least : SegmentRootRef}
    (equal : ∀ table, table ∈ equals ↔ headKey tables remaining table = some (segmentKey tables least))
    (each : ∀ table, rest[table]? = remaining[table]?.map fun roots => if table ∈ equals then roots.tail else roots) :
    segmentRoots rest = (segmentRoots remaining).map (dropHead (segmentOrder tables) least) := by
  refine List.ext_getElem? fun table => ?_
  rw [segmentRoots, segmentRoots, List.getElem?_map, List.getElem?_mapIdx, List.getElem?_mapIdx, each, Option.map_map,
    Option.map_map]
  cases here : remaining[table]? with
  | none => rfl
  | some roots =>
    refine congrArg some ?_
    change (if table ∈ equals then roots.tail else roots).map _ = dropHead _ least (roots.map _)
    cases roots with
    | nil => rw [List.tail_nil, ite_self]; rfl
    | cons root later =>
      have key : headKey tables remaining table = some (segmentKey tables ⟨table, root⟩) :=
        headKey_eq_some.mpr ⟨root, later, here, rfl⟩
      rw [List.map_cons, dropHead]
      by_cases same : segmentKey tables ⟨table, root⟩ = segmentKey tables least
      · rw [if_pos ((equal table).mpr (key.trans (congrArg some same))), if_pos (segmentOrder_eq.mpr same)]
        rfl
      · rw [if_neg fun member => same (Option.some.inj (key.symm.trans ((equal table).mp member))),
          if_neg fun order => same (segmentOrder_eq.mp order)]
        rfl

/-- The first table that has a root, and those in front of it, which have none. -/
theorem RootHeads.Left.first_head (tables : List CompilableSegment) (left : heads.Left remaining) {first : Nat}
    (found : heads.currentRoots.findIdx? Option.isSome = some first) :
    (∃ key, headKey tables remaining first = some key) ∧ ∀ table < first, headKey tables remaining table = none := by
  obtain ⟨inside, head, before⟩ := List.findIdx?_eq_some_iff_getElem.mp found
  constructor
  · rw [List.getElem_eq_getD none, left.head] at head
    obtain ⟨root, same⟩ := Option.isSome_iff_exists.mp head
    exact ⟨_, by rw [headKey, same]; rfl⟩
  · intro table front
    have nothing := before table front
    rw [List.getElem_eq_getD none, left.head, Bool.not_eq_true, Option.isSome_eq_false_iff,
      Option.isNone_iff_eq_none] at nothing
    rw [headKey, nothing]
    rfl

/-- Behind the heads of some tables all roots are still roots of the tables. -/
theorem Known.behind (known : Known tables remaining) {rest : List (List Nat)} {moved : List Nat}
    (each : ∀ table, rest[table]? = remaining[table]?.map fun roots => if table ∈ moved then roots.tail else roots) :
    Known tables rest := by
  intro index root roots found member
  rw [each, Option.map_eq_some_iff] at found
  obtain ⟨before, inside, same⟩ := found
  refine known index root before inside ?_
  rw [← same] at member
  split at member
  · exact List.mem_of_mem_tail member
  · exact member

/-- What the builder raises on one of the roots that are left, once it has taken in those that were taken and those
in front. -/
def RootCompiler.FailsIn {β : Type} (compiler : RootCompiler β) (tables : List CompilableSegment)
    (remaining : List (List Nat))
    (taken : List SegmentRootRef) (error : CoreError) : Prop :=
  ∃ front reference behind, Merges (segmentOrder tables) (segmentRoots remaining) (front ++ reference :: behind) ∧
    compiler.FailsOn tables ((taken ++ front).foldl (keepRoot tables) []) reference error

/-- The merge takes the roots that are left, each once, in their order. -/
theorem mergeLoop_settles {β : Type} {compiler : RootCompiler β} {fingerprinted : Bool} {turns : Nat}
    {taken : List SegmentRootRef}
    {merged : Merged β} (known : Known tables remaining) (left : heads.Left remaining)
    (enough : (remaining.map List.length).sum < turns)
    (earlier : ∀ previous ∈ taken, ∃ table, KnownRoot tables previous table)
    (consumed : Consumed compiler tables fingerprinted taken merged) :
    Settles (mergeLoop compiler tables maxWork turns heads merged) (fun last => ∃ later,
      Merges (segmentOrder tables) (segmentRoots remaining) later ∧
        Consumed compiler tables fingerprinted (taken ++ later) last)
      fun error => OutOfWork error ∨ compiler.FailsIn tables remaining taken error := by
  induction turns generalizing heads remaining taken merged with
  | zero => exact absurd enough (Nat.not_lt_zero _)
  | succ turns ih =>
    rw [mergeLoop]
    split
    · next exhausted =>
      refine .pure ⟨[], .done fun list member => ?_, (List.append_nil taken).symm ▸ consumed⟩
      obtain ⟨table, roots, here, rfl⟩ := mem_segmentRoots.mp member
      rw [List.findIdx?_eq_none_iff, left.current] at exhausted
      have headless := exhausted _ (List.mem_map.mpr ⟨roots, List.mem_of_getElem? here, rfl⟩)
      cases roots with
      | nil => rfl
      | cons root later => cases headless
    · next first found =>
      obtain ⟨⟨key, front⟩, headless⟩ := left.first_head tables found
      refine .bind ((selectTables_settles known left front headless).weaken (fun _ => id) fun _ => .inl)
        fun state chosen => ?_
      obtain ⟨least, selected, below, distinct, equal⟩ := chosen
      obtain ⟨root, later, here, rfl⟩ := headKey_eq_some.mp selected
      obtain ⟨table, knownRoot⟩ := known state.1 root _ here (.head _)
      have current : heads.currentRoots.getD state.1 none = some root := by
        rw [left.head, List.getD_eq_getElem?_getD, here]
        rfl
      obtain ⟨behind, rest, advanced, left, total, each⟩ := advance_all left distinct fun table member => by
        obtain ⟨root, later, inside, _⟩ := headKey_eq_some.mp ((equal table).mp member)
        exact ⟨root, later, inside⟩
      -- what is merged of the rest comes behind the selected root
      have turn : ∀ {others : List SegmentRootRef}, Merges (segmentOrder tables) (segmentRoots rest) others →
          Merges (segmentOrder tables) (segmentRoots remaining) (⟨state.1, root⟩ :: others) := by
        intro others merges
        rw [segmentRoots_advance equal each] at merges
        refine .turn ⟨_, mem_segmentRoots.mpr ⟨_, _, here, rfl⟩, rfl⟩ (fun list member other found => ?_) merges
        obtain ⟨index, roots, inside, rfl⟩ := mem_segmentRoots.mp member
        cases roots with
        | nil => cases found
        | cons first rest =>
          rw [← Option.some.inj found]
          exact below index _ (headKey_eq_some.mpr ⟨first, rest, inside, rfl⟩)
      have takes : Settles (merged.take compiler tables maxWork ⟨state.1, root⟩)
          (Consumed compiler tables fingerprinted (taken ++ [⟨state.1, root⟩]))
          fun error => OutOfWork error ∨ compiler.FailsIn tables remaining taken error := by
        refine (consumed.take_settles knownRoot earlier).weaken (fun _ => id) fun error failed =>
          failed.imp_right fun fails => ?_
        obtain ⟨others, merges⟩ := @exists_merges _ (segmentOrder tables) _ (segmentRoots rest)
        exact ⟨[], ⟨state.1, root⟩, others, turn merges, (List.append_nil taken).symm ▸ fails⟩
      refine .check_ok (okOr_ok.mpr current) (.bind takes fun merged consumed => ?_)
      have moved : 0 < state.2.length := List.length_pos_of_mem ((equal state.1).mpr selected)
      have earlier' : ∀ previous ∈ taken ++ [⟨state.1, root⟩], ∃ table, KnownRoot tables previous table := by
        intro previous member
        obtain before | now := List.mem_append.mp member
        · exact earlier previous before
        · rw [List.mem_singleton.mp now]
          exact ⟨table, knownRoot⟩
      refine .check_ok advanced
        ((ih (known.behind each) left (by omega) earlier' consumed).weaken (fun last done => ?_)
        fun error failed => failed.imp_right fun fails => ?_)
      · obtain ⟨others, merges, consumed⟩ := done
        rw [List.append_assoc] at consumed
        exact ⟨⟨state.1, root⟩ :: others, turn merges, consumed⟩
      · obtain ⟨front, reference, others, merges, fails⟩ := fails
        rw [List.append_assoc] at fails
        exact ⟨⟨state.1, root⟩ :: front, reference, others, turn merges, fails⟩

end

end PyElk.Native
