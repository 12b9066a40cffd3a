import PyElk.Native.Segments

open Raising

namespace PyElk.Native

namespace EncodedRootSelection

variable {selection : EncodedRootSelection} {rootCount : Nat}

/-- The posting at an index. -/
def posting (selection : EncodedRootSelection) (index : Nat) : Nat := uintOf 4 selection.postings index

/-- Whether a root is let through: the postings list those that are, or those that are not. -/
def selects (selection : EncodedRootSelection) (root : Nat) : Bool :=
  let listed := (List.range selection.count).any fun index => selection.posting index = root + 1
  match selection.mode with
  | .including => listed
  | .excluding => !listed

/-- Postings that can be read, and ascend. -/
structure Valid (selection : EncodedRootSelection) (rootCount : Nat) : Prop where
  read : ∀ index < selection.count, encodedPostingAt selection.postings index = .ok (selection.posting index)
  ascend : ∀ first second, first < second → second < selection.count →
    selection.posting first < selection.posting second
  bounds : ∀ index < selection.count, 0 < selection.posting index ∧ selection.posting index ≤ rootCount

/-- An accepted selection is valid. -/
theorem validate_valid {mode : EncodedPostingMode} {postings : List UInt8}
    (accepted : validate mode postings rootCount = .ok selection) :
    selection.mode = mode ∧ selection.postings = postings ∧ postings.length = selection.count * 4 ∧
      selection.Valid rootCount := by
  simp only [validate, CoreResult.bind_ok] at accepted
  obtain ⟨count, aligned, _, _, last, folded, same⟩ := accepted
  obtain rfl := Except.ok.inj same
  obtain ⟨whole, rows⟩ := alignedCount_ok aligned
  refine ⟨rfl, rfl, ?_, ?_⟩
  · rw [rows, Nat.div_mul_cancel (Nat.dvd_of_mod_eq_zero whole)]
  have turns := CoreResult.foldlM_ok (fun previous (done : List Nat) =>
      (∀ index < done.length, encodedPostingAt postings index = .ok (uintOf 4 postings index) ∧
        0 < uintOf 4 postings index ∧
        uintOf 4 postings index ≤ rootCount ∧ uintOf 4 postings index ≤ previous) ∧
      ∀ first second, first < second → second < done.length → uintOf 4 postings first < uintOf 4 postings second)
    ⟨fun index below => absurd below (Nat.not_lt_zero _), fun _ second _ below => absurd below (Nat.not_lt_zero _)⟩
    (fun done index rest previous posting parts holds turned => by
      have position : index = done.length := by
        have inside : done.length < (List.range count).length := by
          rw [parts, List.length_append, List.length_cons]
          omega
        have at_ : (List.range count)[done.length] = index := by
          simp only [parts, List.getElem_append_right (Nat.le_refl _), Nat.sub_self, List.getElem_cons_zero]
        rw [← at_, List.getElem_range]
      subst position
      simp only [validatePosting, CoreResult.bind_ok, refuse_ok, Bool.or_eq_false_iff,
        decide_eq_false_iff_not] at turned
      obtain ⟨value, read, _, ⟨above, within⟩, same⟩ := turned
      obtain rfl := Except.ok.inj same
      have value' := (uintAt_ok.mp read).2
      obtain ⟨readable, ascend⟩ := holds
      rw [List.length_append, List.length_singleton]
      refine ⟨fun other below => ?_, fun first second before below => ?_⟩
      · obtain earlier | here := Nat.lt_or_eq_of_le (Nat.lt_succ_iff.mp below)
        · obtain ⟨read', positive, bounded, under⟩ := readable other earlier
          exact ⟨read', positive, bounded, by omega⟩
        · rw [here, ← value']
          exact ⟨read, by omega, by omega, Nat.le_refl _⟩
      · obtain earlier | here := Nat.lt_or_eq_of_le (Nat.lt_succ_iff.mp below)
        · exact ascend first second before earlier
        · have under := (readable first (by omega)).2.2.2
          rw [here, ← value']
          omega) folded
  rw [List.length_range] at turns
  exact ⟨fun index below => (turns.1 index below).1, turns.2,
    fun index below => ⟨(turns.1 index below).2.1, (turns.1 index below).2.2.1⟩⟩

/-- The cursor moves behind the postings in front of a root. -/
theorem skip_ok (valid : selection.Valid rootCount) {ordinal turns cursor : Nat}
    (enough : selection.count ≤ cursor + turns)
    (before : ∀ index < cursor, selection.posting index < ordinal) :
    ∃ later, selection.skip ordinal turns cursor = .ok later ∧ (∀ index < later, selection.posting index < ordinal) ∧
      (later < selection.count → ordinal ≤ selection.posting later) := by
  induction turns generalizing cursor with
  | zero => exact ⟨cursor, rfl, before, fun below => absurd below (by omega)⟩
  | succ turns ih =>
    rw [skip]
    split
    · next within =>
      rw [valid.read cursor within]
      change ∃ later,
        (if selection.posting cursor ≥ ordinal then pure cursor else selection.skip ordinal turns (cursor + 1)) =
        Except.ok later ∧ _
      split
      · next reached => exact ⟨cursor, rfl, before, fun _ => reached⟩
      · next front =>
        refine ih (by omega) fun index below => ?_
        obtain earlier | here := Nat.lt_or_eq_of_le (Nat.lt_succ_iff.mp below)
        · exact before index earlier
        · rw [here]
          exact not_le.mp front
    · next past => exact ⟨cursor, rfl, before, fun below => absurd below past⟩

/-- Behind the postings in front of a root, the next one tells whether the root is listed. -/
theorem listed_iff (valid : selection.Valid rootCount) {ordinal cursor : Nat}
    (before : ∀ index < cursor, selection.posting index < ordinal)
    (reached : cursor < selection.count → ordinal ≤ selection.posting cursor) :
    ((List.range selection.count).any fun index => selection.posting index = ordinal) =
      (decide (cursor < selection.count) && decide (selection.posting cursor = ordinal)) := by
  rw [Bool.eq_iff_iff, List.any_eq_true, Bool.and_eq_true, decide_eq_true_eq, decide_eq_true_eq]
  constructor
  · intro found
    obtain ⟨index, member, same⟩ := found
    have within := List.mem_range.mp member
    have same := of_decide_eq_true same
    obtain front | here | behind := Nat.lt_trichotomy index cursor
    · exact absurd same (Nat.ne_of_lt (before index front))
    · subst here
      exact ⟨within, same⟩
    · have between := valid.ascend cursor index behind within
      have above := reached (behind.trans within)
      exact absurd same (by omega)
  · intro found
    exact ⟨cursor, List.mem_range.mpr found.1, decide_eq_true found.2⟩

end EncodedRootSelection

/-- Whether a root is compiled: all are, where nothing is selected. -/
def selects (selection : Option EncodedRootSelection) (root : Nat) : Bool :=
  selection.all fun chosen => chosen.selects root

/-- The roots that are compiled. -/
def selectedRoots (selection : Option EncodedRootSelection) (rootCount : Nat) : List Nat :=
  (List.range rootCount).filter (selects selection)

/-- A cursor in front of a root: all postings it has passed are in front of it. -/
def EncodedRootCursor.At (selector : EncodedRootCursor) (rootCount root : Nat) : Prop :=
  ∀ selection ∈ selector.selection, selection.Valid rootCount ∧ ∀ index < selector.cursor,
    selection.posting index < root + 1

theorem EncodedRootCursor.includes_ok {selector : EncodedRootCursor} {rootCount root : Nat}
    (placed : selector.At rootCount root)
    (small : root + 1 < USIZE) : ∃ later, selector.includes root = .ok (selects selector.selection root, later) ∧
      later.selection = selector.selection ∧ later.At rootCount (root + 1) := by
  rw [EncodedRootCursor.includes]
  split
  · next unselected =>
    refine ⟨selector, ?_, rfl, fun selection member => ?_⟩
    · rw [unselected]
      rfl
    · rw [unselected] at member
      cases member
  · next selection chosen =>
    obtain ⟨valid, before⟩ := placed selection chosen
    obtain ⟨later, skipped, passed, reached⟩ :=
      @EncodedRootSelection.skip_ok selection rootCount valid (root + 1)
        (selection.count - selector.cursor) selector.cursor (by omega) before
    have added : checkedAdd root 1 = some (root + 1) := if_pos small
    have listed := EncodedRootSelection.listed_iff valid passed reached
    refine ⟨{ selector with cursor := later }, ?_, rfl, fun other member => ?_⟩
    · rw [chosen, selects, Option.all_some, EncodedRootSelection.selects, listed, CoreResult.bind_ok]
      refine ⟨root + 1, okOr_ok.mpr added, CoreResult.bind_ok.mpr ⟨later, skipped, ?_⟩⟩
      by_cases within : later < selection.count
      · rw [if_pos within, valid.read later within, decide_eq_true within, Bool.true_and]
        rfl
      · rw [if_neg within, decide_eq_false within, Bool.false_and]
        rfl
    · rw [show selector.selection = some selection from chosen] at member
      obtain rfl := Option.some.inj member
      exact ⟨valid, fun index below => (passed index below).trans (Nat.lt_succ_self _)⟩

/-- An iterator that gives a list of roots, and then nothing. -/
inductive CompilationRootIter.Yields : CompilationRootIter → List Nat → Prop
  | nil {roots later : CompilationRootIter} (next : roots.next = .ok (none, later)) : Yields roots []
  | cons {roots later : CompilationRootIter} {root : Nat} {rest : List Nat}
    (next : roots.next = .ok (some root, later))
      (yields : Yields later rest) : Yields roots (root :: rest)

/-- An iterator gives its first root, and then the others. -/
theorem CompilationRootIter.Yields.next_ok {roots : CompilationRootIter} {rest : List Nat}
    (yields : roots.Yields rest) :
    ∃ later, roots.next = .ok (rest.head?, later) ∧ ∀ (root : Nat) (behind : List Nat), rest = root :: behind →
      later.Yields behind := by
  cases yields with
  | nil next => exact ⟨_, next, fun root behind same => nomatch same⟩
  | cons next yields =>
    refine ⟨_, next, fun root behind same => ?_⟩
    rw [← (List.cons.inj same).2]
    exact yields

/-- What is left of the selected roots. -/
structure SelectedRootIter.Left (roots : SelectedRootIter) (rest : List Nat) : Prop where
  small : roots.rootCount < USIZE
  placed : roots.selector.At roots.rootCount roots.nextRoot
  rest : rest = (List.range' roots.nextRoot (roots.rootCount - roots.nextRoot)).filter
    (selects roots.selector.selection)

namespace SelectedRootIter

theorem nextLoop_ok {rootCount left nextRoot : Nat} {selector : EncodedRootCursor} (small : rootCount < USIZE)
    (count : left = rootCount - nextRoot) (placed : selector.At rootCount nextRoot) :
    ∃ later, nextLoop rootCount left selector nextRoot =
        .ok (((List.range' nextRoot left).filter (selects selector.selection)).head?, later) ∧
      later.Left ((List.range' nextRoot left).filter (selects selector.selection)).tail := by
  induction left generalizing selector nextRoot with
  | zero => exact ⟨_, rfl, small, placed, by rw [← count]; rfl⟩
  | succ left ih =>
    obtain ⟨later, includes, selection, placed'⟩ :=
      @EncodedRootCursor.includes_ok selector rootCount nextRoot placed (by omega)
    rw [nextLoop, includes, List.range'_succ, List.filter_cons]
    change ∃ last, (if selects selector.selection nextRoot then _ else _) = _ ∧ _
    cases chosen : selects selector.selection nextRoot with
    | true =>
      refine ⟨_, rfl, small, placed', ?_⟩
      rw [if_pos rfl, List.tail_cons, selection, show left = rootCount - (nextRoot + 1) by omega]
    | false =>
      obtain ⟨last, done, behind⟩ := ih (by omega) placed'
      rw [selection] at done behind
      exact ⟨last, done, behind⟩

/-- The next root is the first one that is left. -/
theorem next_ok {roots : SelectedRootIter} {rest : List Nat} (left : roots.Left rest) :
    ∃ later, roots.next = .ok (rest.head?, later) ∧ later.Left rest.tail := by
  obtain ⟨small, placed, rfl⟩ := left
  exact nextLoop_ok small rfl placed

theorem new_left {selection : Option EncodedRootSelection} {rootCount : Nat} (small : rootCount < USIZE)
    (valid : ∀ chosen ∈ selection, chosen.Valid rootCount) :
    (new selection rootCount).Left (selectedRoots selection rootCount) where
  small := small
  placed chosen member := ⟨valid chosen member, fun index below => absurd below (Nat.not_lt_zero _)⟩
  rest := by
    rw [selectedRoots, List.range_eq_range']
    rfl

theorem drain_ok {turns : Nat} {roots : SelectedRootIter} {rest : List Nat} (left : roots.Left rest)
    (enough : rest.length < turns) :
    drain turns roots = .ok rest := by
  induction turns generalizing roots rest with
  | zero => exact absurd enough (Nat.not_lt_zero _)
  | succ turns ih =>
    obtain ⟨later, next, behind⟩ := next_ok left
    rw [drain, next]
    cases rest with
    | nil => rfl
    | cons root rest =>
      change (do pure (root :: (← drain turns later)) : CoreResult (List Nat)) = _
      rw [ih behind (Nat.lt_of_succ_lt_succ enough)]
      rfl

/-- The iterator over a selection that has been accepted gives the roots it selects, in order. -/
theorem drain_exact {mode : EncodedPostingMode} {postings : List UInt8} {rootCount : Nat}
    {selection : EncodedRootSelection}
    (accepted : EncodedRootSelection.validate mode postings rootCount = .ok selection) (small : rootCount < USIZE) :
    ∃ roots, drain (rootCount + 1) (new (some selection) rootCount) = .ok roots ∧ roots.Pairwise (· < ·) ∧
      ∀ root, root ∈ roots ↔ root < rootCount ∧
        ((∃ index < postings.length / 4, uintOf 4 postings index = root + 1) ↔ mode = .including) := by
  obtain ⟨rfl, rfl, rows, valid⟩ := EncodedRootSelection.validate_valid accepted
  have left := new_left small fun chosen member => by
    rw [← Option.some.inj member]
    exact valid
  have few : (selectedRoots (some selection) rootCount).length ≤ rootCount := by
    have bound := List.length_filter_le (selects (some selection)) (List.range rootCount)
    rw [List.length_range] at bound
    exact bound
  refine ⟨_, drain_ok left (Nat.lt_succ_of_le few), List.pairwise_lt_range.filter _, fun root => ?_⟩
  rw [selectedRoots, List.mem_filter, List.mem_range]
  refine and_congr_right fun _ => ?_
  have listed : ((List.range selection.count).any fun index => selection.posting index = root + 1) = true ↔
      ∃ index < selection.postings.length / 4, uintOf 4 selection.postings index = root + 1 := by
    rw [rows, Nat.mul_div_cancel _ (by decide), List.any_eq_true]
    exact exists_congr fun index => and_congr List.mem_range decide_eq_true_iff
  change selection.selects root = true ↔ _
  rw [EncodedRootSelection.selects, ← listed]
  cases mode : selection.mode with
  | including => simp only [iff_true]
  | excluding => simp only [Bool.not_eq_true', reduceCtorEq, iff_false, Bool.not_eq_true]

/-- The second and the third of four roots are listed. -/
theorem drain_exact_four :
    ∃ roots, drain 5 (new (some ⟨.excluding, [2, 3].flatMap (Bytes.littleEndian 4), 2⟩) 4) = .ok roots ∧
      roots.Pairwise (· < ·) ∧
      ∀ root, root ∈ roots ↔ root < 4 ∧
        ((∃ index < 2, uintOf 4 ([2, 3].flatMap (Bytes.littleEndian 4)) index = root + 1) ↔
          EncodedPostingMode.excluding = .including) :=
  have accepted : EncodedRootSelection.validate .excluding ([2, 3].flatMap (Bytes.littleEndian 4)) 4 =
    .ok ⟨.excluding, [2, 3].flatMap (Bytes.littleEndian 4), 2⟩ := rfl
  drain_exact accepted (by decide)

/-- Roots in order are given as they are selected. -/
theorem yields {roots : SelectedRootIter} {rest : List Nat} (left : roots.Left rest) :
    (CompilationRootIter.ordered roots).Yields rest := by
  induction rest generalizing roots with
  | nil =>
    obtain ⟨later, next, _⟩ := next_ok left
    refine @CompilationRootIter.Yields.nil _ (.ordered later) ?_
    rw [CompilationRootIter.next, next]
    rfl
  | cons root rest ih =>
    obtain ⟨later, next, behind⟩ := next_ok left
    refine @CompilationRootIter.Yields.cons _ (.ordered later) _ _ ?_ (ih behind)
    rw [CompilationRootIter.next, next]
    rfl

end SelectedRootIter

/-- Roots that have been put in order are given as they are. -/
theorem CompilationRootIter.remapped_yields {roots : List Nat} (small : roots.length < USIZE) {cursor : Nat}
    (inside : cursor ≤ roots.length) : (CompilationRootIter.remapped roots cursor).Yields (roots.drop cursor) := by
  generalize rest : roots.drop cursor = left
  induction left generalizing cursor with
  | nil =>
    have past : roots.length ≤ cursor := List.drop_eq_nil_iff.mp rest
    refine @CompilationRootIter.Yields.nil _ (.remapped roots cursor) ?_
    rw [CompilationRootIter.next, CoreResult.bind_ok, if_neg (Nat.not_lt.mpr past), List.getElem?_eq_none past]
    exact ⟨cursor, okOr_ok.mpr (if_pos (inside.trans_lt small)), rfl⟩
  | cons root left ih =>
    have within : cursor < roots.length := by
      by_contra past
      rw [List.drop_eq_nil_of_le (not_lt.mp past)] at rest
      cases rest
    rw [List.drop_eq_getElem_cons within, List.cons.injEq] at rest
    refine @CompilationRootIter.Yields.cons _ (.remapped roots (cursor + 1)) _ _ ?_ (ih within rest.2)
    rw [CompilationRootIter.next, CoreResult.bind_ok, if_pos within, List.getElem?_eq_getElem within, rest.1]
    exact ⟨cursor + 1, okOr_ok.mpr (if_pos (by omega)), rfl⟩

end PyElk.Native
