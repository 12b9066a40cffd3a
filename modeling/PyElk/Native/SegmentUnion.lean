import PyElk.Native.SegmentOpening

open Raising Lexicographic Merging

namespace PyElk.Native

/-- Segments that have been opened, with the roots that each one lists. -/
structure Opened (segments : List EncodedCompilationSegment) (tables : List CompilableSegment)
    (roots : List CompilationRootIter)
    (remaining : List (List Nat)) : Prop where
  tableCount : tables.length = segments.length
  iteratorCount : roots.length = segments.length
  listCount : remaining.length = segments.length
  each : ∀ (index : Nat) (segment : EncodedCompilationSegment), segments[index]? = some segment →
    ∃ table iterator rest, tables[index]? = some table ∧ roots[index]? = some iterator ∧
      remaining[index]? = some rest ∧
      Opens segment table ∧ iterator.Yields rest ∧ Lists segment rest

section

variable {segments : List EncodedCompilationSegment} {tables : List CompilableSegment}
    {roots : List CompilationRootIter}
  {remaining : List (List Nat)}

theorem Opened.concat (opened : Opened segments tables roots remaining) {segment : EncodedCompilationSegment}
    {table : CompilableSegment}
    {iterator : CompilationRootIter} {rest : List Nat} (opens : Opens segment table) (yields : iterator.Yields rest)
    (lists : Lists segment rest) :
    Opened (segments ++ [segment]) (tables ++ [table]) (roots ++ [iterator]) (remaining ++ [rest]) where
  tableCount := by rw [List.length_append, List.length_append, opened.tableCount]; rfl
  iteratorCount := by rw [List.length_append, List.length_append, opened.iteratorCount]; rfl
  listCount := by rw [List.length_append, List.length_append, opened.listCount]; rfl
  each index other found := by
    obtain before | here := Nat.lt_or_ge index segments.length
    · rw [List.getElem?_append_left before] at found
      rw [List.getElem?_append_left (by rw [opened.tableCount]; exact before),
        List.getElem?_append_left (by rw [opened.iteratorCount]; exact before),
        List.getElem?_append_left (by rw [opened.listCount]; exact before)]
      exact opened.each index other found
    · have bound := (List.getElem?_eq_some_iff.mp found).1
      rw [List.length_append, List.length_singleton] at bound
      obtain rfl : index = segments.length := by omega
      rw [List.getElem?_concat_length] at found
      obtain rfl := Option.some.inj found
      refine ⟨table, iterator, rest, ?_, ?_, ?_, opens, yields, lists⟩
      · rw [← opened.tableCount, List.getElem?_concat_length]
      · rw [← opened.iteratorCount, List.getElem?_concat_length]
      · rw [← opened.listCount, List.getElem?_concat_length]

/-- The segments are opened, one after another. -/
theorem openSegments_returns (sort : UnstableSort) (limits : EncodedLimits)
    (segments : List EncodedCompilationSegment) :
    Returns (segments.foldlM (openSegment sort limits) ([], [])) fun later =>
      ∃ remaining, Opened segments later.1 later.2 remaining := by
  refine Returns.foldlM (fun (later : List CompilableSegment × List CompilationRootIter) done => ∃ remaining,
    Opened done later.1 later.2 remaining)
    ⟨[], rfl, rfl, rfl, fun _ _ found => nomatch found⟩ fun done segment rest opened _ before => ?_
  obtain ⟨remaining, before⟩ := before
  refine (openSegment_returns sort limits opened segment).weaken fun later opens => ?_
  obtain ⟨table, roots, rest, rfl, opens, yields, lists⟩ := opens
  exact ⟨remaining ++ [rest], before.concat opens yields lists⟩

namespace Opened

variable (opened : Opened segments tables roots remaining)

include opened

theorem segment {index : Nat} {rest : List Nat} (found : remaining[index]? = some rest) :
    ∃ segment table iterator, segments[index]? = some segment ∧ tables[index]? = some table ∧
      roots[index]? = some iterator ∧
      Opens segment table ∧ iterator.Yields rest ∧ Lists segment rest := by
  have within : index < segments.length := opened.listCount ▸ (List.getElem?_eq_some_iff.mp found).1
  obtain ⟨table, iterator, same, tableFound, rootsFound, restFound, facts⟩ :=
    opened.each index _ (List.getElem?_eq_getElem within)
  obtain rfl := Option.some.inj (restFound.symm.trans found)
  exact ⟨_, table, iterator, List.getElem?_eq_getElem within, tableFound, rootsFound, facts⟩

theorem known : Known tables remaining := by
  intro index root rest found member
  obtain ⟨segment, table, _, _, tableFound, _, opens, _, lists⟩ := opened.segment found
  exact ⟨table, opens.known tableFound (lists.selected root member).1⟩

/-- The roots of every segment ascend. -/
theorem ascend :
    ∀ list ∈ segmentRoots remaining, list.Pairwise fun first second => segmentOrder tables first second = .lt := by
  intro list member
  obtain ⟨index, rest, found, rfl⟩ := mem_segmentRoots.mp member
  obtain ⟨segment, table, _, _, tableFound, _, opens, _, lists⟩ := opened.segment found
  refine List.pairwise_map.mpr (lists.ascend.imp fun {first second} below => ?_)
  rw [segmentOrder, opens.segmentKey tableFound, opens.segmentKey tableFound]
  exact below

/-- A key is that of a root that is listed when it is one of a segment. -/
theorem exists_root {key : Nat × List UInt8} :
    (∃ list ∈ segmentRoots remaining, ∃ reference ∈ list, segmentKey tables reference = key) ↔
    ∃ segment ∈ segments, key ∈ segment.rootKeys := by
  constructor
  · rintro ⟨list, member, reference, inside, rfl⟩
    obtain ⟨index, rest, found, rfl⟩ := mem_segmentRoots.mp member
    obtain ⟨root, rootIn, rfl⟩ := List.mem_map.mp inside
    obtain ⟨segment, table, _, segmentFound, tableFound, _, opens, _, lists⟩ := opened.segment found
    refine ⟨segment, List.mem_of_getElem? segmentFound, root, (lists.selected root rootIn).1,
      (lists.selected root rootIn).2, ?_⟩
    exact (opens.segmentKey tableFound).symm
  · rintro ⟨segment, member, root, within, chosen, rfl⟩
    obtain ⟨index, found⟩ := List.mem_iff_getElem?.mp member
    obtain ⟨table, _, rest, tableFound, _, restFound, opens, _, lists⟩ := opened.each index segment found
    obtain ⟨other, otherIn, same⟩ := lists.complete root within chosen
    refine ⟨_, mem_segmentRoots.mpr ⟨index, rest, restFound, rfl⟩, ⟨index, other⟩,
      List.mem_map.mpr ⟨other, otherIn, rfl⟩, ?_⟩
    rw [opens.segmentKey tableFound, same]

/-- There are no more roots than there are bytes of their identifiers. -/
theorem total :
    (remaining.map List.length).sum ≤ (segments.map fun segment => segment.columns.rootIds.length).sum := by
  refine List.Forall₂.sum_le_sum (List.forall₂_iff_get.mpr ⟨?_, fun index within inside => ?_⟩)
  · rw [List.length_map, List.length_map, opened.listCount]
  · rw [List.length_map] at within inside
    rw [List.get_eq_getElem, List.get_eq_getElem, List.getElem_map, List.getElem_map]
    obtain ⟨segment, _, _, segmentFound, _, _, opens, _, lists⟩ := opened.segment (List.getElem?_eq_getElem within)
    obtain rfl : segments[index] = segment :=
      Option.some.inj ((List.getElem?_eq_getElem inside).symm.trans segmentFound)
    have distinct : remaining[index].Nodup := by
      refine lists.ascend.imp fun {first second} below same => ?_
      rw [same, compareKeys_self] at below
      cases below
    have few := (distinct.subperm fun root member => List.mem_range.mpr (lists.selected root member).1).length_le
    rw [List.length_range] at few
    exact few.trans (opens.aligned ▸ Nat.le_mul_of_pos_right _ (by decide))

end Opened

/-- The tables start with the first roots they list. -/
theorem startHeads {heads : RootHeads} {done : List (List Nat)} (left : heads.Left done)
    (yields : List.Forall₂ CompilationRootIter.Yields roots remaining) :
    ∃ later, roots.foldlM RootHeads.start heads = .ok later ∧ later.Left (done ++ remaining) := by
  induction yields generalizing heads done with
  | nil => exact ⟨heads, rfl, (List.append_nil done).symm ▸ left⟩
  | @cons iterator rest roots remaining yields others ih =>
    obtain ⟨behind, next, follows⟩ := yields.next_ok
    have started : (⟨heads.currentRoots ++ [rest.head?], heads.rootIters ++ [behind]⟩ : RootHeads).Left
      (done ++ [rest]) := {
      current := by rw [left.current, List.map_append]; rfl
      count := by rw [List.length_append, List.length_append, left.count]; rfl
      yields := by
        intro table root later roots found here
        obtain before | last := Nat.lt_or_ge table done.length
        · rw [List.getElem?_append_left before] at found
          rw [List.getElem?_append_left (by rw [left.count]; exact before)] at here
          exact left.yields table root later roots found here
        · have bound := (List.getElem?_eq_some_iff.mp found).1
          rw [List.length_append, List.length_singleton] at bound
          obtain rfl : table = done.length := by omega
          rw [List.getElem?_concat_length] at found
          rw [← left.count, List.getElem?_concat_length] at here
          rw [← Option.some.inj here]
          exact follows root later (Option.some.inj found) }
    obtain ⟨later, folded, all⟩ := ih started
    refine ⟨later, ?_, by rw [← List.append_cons] at all; exact all⟩
    rw [List.foldlM_cons, CoreResult.bind_ok]
    exact ⟨_, CoreResult.bind_ok.mpr ⟨_, next, rfl⟩, folded⟩

end

/-- The roots that a run has taken in, and what it has made of them. -/
structure Compiled {β : Type} (compiler : RootCompiler β) (segments : List EncodedCompilationSegment)
    (fingerprinted : Bool)
    (tables : List CompilableSegment) (taken : List SegmentRootRef) (merged : Merged β) : Prop where
  ready : ∀ segment ∈ segments, ∃ table, Opens segment table
  known : ∀ reference ∈ taken, ∃ table, KnownRoot tables reference table
  opens : ∀ reference ∈ taken, ∃ segment table, segments[reference.table]? = some segment ∧
    tables[reference.table]? = some table ∧
    Opens segment table ∧ reference.root < segment.rootCount ∧ selects segment.chosen reference.root
  ascend : taken.Pairwise fun first second => compareKeys (segmentKey tables first) (segmentKey tables second) = .lt
  keys : ∀ key, (∃ reference ∈ taken, segmentKey tables reference = key) ↔
    ∃ segment ∈ segments, key ∈ segment.rootKeys
  consumed : Consumed compiler tables fingerprinted taken merged

/-- Before the first root nothing has been seen. -/
theorem Observed.start {tables : List CompilableSegment} (ready : ∀ table ∈ tables, table.Ready) :
    Observed tables [] (SegmentedSemanticFingerprints.new tables) where
  logical := rfl
  extension := rfl
  visited := List.length_map _
  gathered index table found := by
    have visited : (SegmentedSemanticFingerprints.new tables).visitedNodes.getD index [] =
      List.replicate table.nodeCount 0 := by
      rw [SegmentedSemanticFingerprints.new, List.getD_eq_getElem?_getD, List.getElem?_map, found]
      rfl
    rw [visited]
    rw [← (ready table (List.mem_of_getElem? found)).count]
    exact .start _ _ _
  entities entity member := absurd member List.not_mem_nil

section

variable {segments : List EncodedCompilationSegment} {tables : List CompilableSegment}
    {roots : List CompilationRootIter}
  {remaining : List (List Nat)}

theorem Opened.ready (opened : Opened segments tables roots remaining) {table : CompilableSegment}
    (member : table ∈ tables) : table.Ready := by
  obtain ⟨index, found⟩ := List.mem_iff_getElem?.mp member
  have within : index < segments.length := opened.tableCount ▸ (List.getElem?_eq_some_iff.mp found).1
  obtain ⟨other, _, _, same, _, _, opens, _⟩ := opened.each index _ (List.getElem?_eq_getElem within)
  rw [← Option.some.inj (same.symm.trans found)]
  exact opens.ready

/-- Every root that is merged is one that its segment adds. -/
theorem Opened.selected (opened : Opened segments tables roots remaining) {taken : List SegmentRootRef}
    (merges : Merges (segmentOrder tables) (segmentRoots remaining) taken) : ∀ reference ∈ taken, ∃ segment table,
      segments[reference.table]? = some segment ∧ tables[reference.table]? = some table ∧ Opens segment table ∧
        reference.root < segment.rootCount ∧ selects segment.chosen reference.root := by
  intro reference member
  obtain ⟨list, listIn, here⟩ := merges.mem member
  obtain ⟨index, rest, found, rfl⟩ := mem_segmentRoots.mp listIn
  obtain ⟨root, rootIn, rfl⟩ := List.mem_map.mp here
  obtain ⟨segment, table, _, segmentFound, tableFound, _, opens, _, lists⟩ := opened.segment found
  exact ⟨segment, table, segmentFound, tableFound, opens, lists.selected root rootIn⟩

/-- The keys that are merged are those of the segments. -/
theorem Opened.keys (opened : Opened segments tables roots remaining) {taken : List SegmentRootRef}
    (merges : Merges (segmentOrder tables) (segmentRoots remaining) taken) (key : Nat × List UInt8) :
    (∃ reference ∈ taken, segmentKey tables reference = key) ↔ ∃ segment ∈ segments, key ∈ segment.rootKeys := by
  rw [← opened.exists_root]
  constructor
  · rintro ⟨reference, member, rfl⟩
    obtain ⟨list, listIn, here⟩ := merges.mem member
    exact ⟨list, listIn, reference, here, rfl⟩
  · rintro ⟨list, listIn, reference, here, rfl⟩
    obtain ⟨other, taken, same⟩ := merges.exists_eq listIn here
    exact ⟨other, taken, (segmentOrder_eq.mp same).symm⟩

end

/-- The builder raises on a root of the segments: of the keys in front of its own it has been handed a root each, in
their order, and has taken in those that are kept. -/
structure RootCompiler.RaisesOn {β : Type} (compiler : RootCompiler β) (segments : List EncodedCompilationSegment)
    (tables : List CompilableSegment) (taken : List SegmentRootRef) (reference : SegmentRootRef)
    (error : CoreError) : Prop where
  opens : ∀ other ∈ taken ++ [reference], ∃ segment table, segments[other.table]? = some segment ∧
    tables[other.table]? = some table ∧ Opens segment table ∧ other.root < segment.rootCount ∧
      selects segment.chosen other.root
  ascend : (taken ++ [reference]).Pairwise fun first second =>
    compareKeys (segmentKey tables first) (segmentKey tables second) = .lt
  keys : ∀ key, (∃ other ∈ taken, segmentKey tables other = key) ↔
    (∃ segment ∈ segments, key ∈ segment.rootKeys) ∧ compareKeys key (segmentKey tables reference) = .lt
  fails : compiler.FailsOn tables (taken.foldl (keepRoot tables) []) reference error

section

variable {segments : List EncodedCompilationSegment} {tables : List CompilableSegment}
    {roots : List CompilationRootIter}
  {remaining : List (List Nat)}

/-- Where a builder raises in the merge of opened segments, it does so on the root that is next in their order. -/
theorem Opened.raisesOn {β : Type} {compiler : RootCompiler β} (opened : Opened segments tables roots remaining)
    {error : CoreError} (fails : compiler.FailsIn tables remaining [] error) :
    ∃ taken reference, compiler.RaisesOn segments tables taken reference error := by
  obtain ⟨taken, reference, behind, merges, raises⟩ := fails
  rw [List.nil_append] at raises
  have whole := merges.ascending opened.ascend
  obtain ⟨_, _, apart⟩ := List.pairwise_append.mp whole
  obtain ⟨above, _⟩ := List.pairwise_cons.mp (List.pairwise_append.mp whole).2.1
  have front : taken ++ [reference] <+: taken ++ reference :: behind := ⟨behind, by rw [List.append_assoc]; rfl⟩
  refine ⟨taken, reference, fun other member => opened.selected merges other (front.subset member),
    whole.sublist front.sublist, fun key => ⟨?_, ?_⟩, raises⟩
  · rintro ⟨other, member, rfl⟩
    exact ⟨(opened.keys merges _).mp ⟨other, front.subset (List.mem_append_left _ member), rfl⟩,
      apart other member reference (.head _)⟩
  · rintro ⟨found, below⟩
    obtain ⟨other, member, rfl⟩ := (opened.keys merges key).mpr found
    obtain before | here := List.mem_append.mp member
    · exact ⟨other, before, rfl⟩
    · obtain rfl | later := List.mem_cons.mp here
      · rw [compareKeys_self] at below
        cases below
      · have beyond : compareKeys (segmentKey tables reference) (segmentKey tables other) = .lt := above other later
        rw [Std.OrientedCmp.gt_of_lt beyond] at below
        cases below

/-- Opened segments are merged: each key of one of them is taken once. -/
theorem merge_settles {β : Type} (compiler : RootCompiler β) (fingerprinted : Bool)
    (opened : Opened segments tables roots remaining)
    {heads : RootHeads} (left : heads.Left remaining) (maxWork : Nat) :
    Settles (mergeLoop compiler tables maxWork
      ((segments.map fun segment => segment.columns.rootIds.length).sum + 1) heads
      ⟨if fingerprinted then some (SegmentedSemanticFingerprints.new tables) else none, none, compiler.start⟩)
      (fun merged => ∃ taken, Compiled compiler segments fingerprinted tables taken merged)
      fun error => OutOfWork error ∨ ∃ taken reference, compiler.RaisesOn segments tables taken reference error := by
  have begins : Consumed compiler tables fingerprinted []
      ⟨if fingerprinted then some (SegmentedSemanticFingerprints.new tables) else none, none, compiler.start⟩ := {
    previous := rfl
    compiled := rfl
    observed := fun seen member => by
      cases fingerprinted with
      | false => cases member
      | true =>
        rw [← Option.some.inj member]
        exact .start fun table => opened.ready
    fingerprinted := by cases fingerprinted <;> rfl }
  refine (mergeLoop_settles opened.known left (Nat.lt_succ_of_le opened.total)
    (fun _ member => absurd member List.not_mem_nil)
    begins).weaken (fun merged done => ?_) fun error failed => failed.imp_right opened.raisesOn
  obtain ⟨taken, merges, consumed⟩ := done
  rw [List.nil_append] at consumed
  refine ⟨taken, {
    ready := fun segment member => ?_
    known := fun reference member => ?_
    opens := opened.selected merges
    ascend := merges.ascending opened.ascend
    keys := opened.keys merges
    consumed := consumed }⟩
  · obtain ⟨index, found⟩ := List.mem_iff_getElem?.mp member
    obtain ⟨table, _, _, _, _, _, opens, _⟩ := opened.each index segment found
    exact ⟨table, opens⟩
  · obtain ⟨segment, table, _, tableFound, opens, within, _⟩ := opened.selected merges reference member
    exact ⟨table, opens.known tableFound within⟩

end

end PyElk.Native
