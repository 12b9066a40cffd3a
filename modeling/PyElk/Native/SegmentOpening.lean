import PyElk.Native.SegmentMerge

open Raising Lexicographic Merging

namespace PyElk.Native

namespace EncodedCompilationSegment

variable (segment : EncodedCompilationSegment)

def rootCount : Nat := segment.columns.rootKinds.length

def nodeCount : Nat := segment.columns.nodeTags.length / 2

/-- The postings of the segment, if it has any. -/
def chosen : Option EncodedRootSelection :=
  segment.postingMode.map fun mode => ⟨mode, segment.postings, segment.postings.length / 4⟩

/-- The columns of the segment with its scopes renamed. -/
def rescoped : EncodedColumns := segment.columns.rescoped segment.nodeCount segment.anonymousScopeMap

/-- What a root of the segment stands for: its kind, and the bytes of its node. -/
noncomputable def rootKey (root : Nat) : Nat × List UInt8 :=
  (segment.columns.rootKind root, segment.rescoped.canonicalBytes (segment.columns.rootNode root))

/-- What the segment adds to a compilation. -/
def rootKeys : Set (Nat × List UInt8) :=
  {key | ∃ root < segment.rootCount, selects segment.chosen root ∧ segment.rootKey root = key}

end EncodedCompilationSegment

/-- What a segment becomes when it is opened. -/
structure Opens (segment : EncodedCompilationSegment) (table : CompilableSegment) : Prop where
  columns : table.columns = segment.columns
  nodeCount : table.nodeCount = segment.nodeCount
  mapped : table.mappedColumns = segment.rescoped
  ready : table.Ready
  row : ∀ root < segment.rootCount, table.columns.RootRow table.nodeCount root
  aligned : segment.columns.rootIds.length = segment.rootCount * 4

/-- The roots of an opened segment, one for each key, in the order of the merge. -/
structure Lists (segment : EncodedCompilationSegment) (roots : List Nat) : Prop where
  selected : ∀ root ∈ roots, root < segment.rootCount ∧ selects segment.chosen root
  ascend : roots.Pairwise fun first second => compareKeys (segment.rootKey first) (segment.rootKey second) = .lt
  complete : ∀ root < segment.rootCount, selects segment.chosen root → ∃ other ∈ roots,
    segment.rootKey other = segment.rootKey root

theorem EncodedColumns.rootIdentifier_lt (columns : EncodedColumns) (root : Nat) :
    columns.rootIdentifier root < 2 ^ 32 := by
  have bound := Bytes.ofLittleEndian_lt ((columns.rootIds.drop (root * 4)).take 4)
  exact bound.trans_le (Nat.pow_le_pow_right (by decide) (List.length_take_le _ _))

namespace AcceptedTable

variable (table : AcceptedTable)

/-- There are fewer roots than there are pairs of a kind and a node. -/
theorem rootCount_small : table.rootCount < USIZE := by
  have rank : ∀ root < table.rootCount,
    root ≤ table.columns.rootKind root * 2 ^ 32 + table.columns.rootIdentifier root := by
    intro root
    induction root with
    | zero => exact fun _ => Nat.zero_le _
    | succ root ih =>
      intro within
      have before : table.columns.RootBefore root (root + 1) := table.rootBefore (Nat.lt_succ_self root) within
      have limit := table.columns.rootIdentifier_lt root
      have earlier := ih (Nat.lt_of_succ_lt within)
      rw [EncodedColumns.RootBefore] at before
      omega
  by_contra large
  have below : 2 ^ 40 + 1 < table.rootCount := lt_of_lt_of_le (by decide) (not_lt.mp large)
  have last := rank (2 ^ 40 + 1) below
  have kind : table.columns.rootKind (2 ^ 40 + 1) < 256 := UInt8.toNat_lt _
  have limit := table.columns.rootIdentifier_lt (2 ^ 40 + 1)
  omega

end AcceptedTable

section

variable {segment : EncodedCompilationSegment} {table : CompilableSegment} {limits : EncodedLimits}
    {rootCount maxWork : Nat}

/-- The selection of a segment is that of its postings, which ascend. -/
theorem selection_valid {selection : Option EncodedRootSelection}
    (accepted : segment.selection rootCount = .ok selection) :
    selection = segment.chosen ∧ ∀ chosen ∈ selection, chosen.Valid rootCount := by
  rw [EncodedCompilationSegment.selection] at accepted
  split at accepted
  · next mode posted =>
    cases validated : EncodedRootSelection.validate mode segment.postings rootCount with
    | error raised =>
      rw [validated] at accepted
      cases accepted
    | ok chosen =>
      rw [validated] at accepted
      obtain rfl := Except.ok.inj accepted
      obtain ⟨modes, postings, count, valid⟩ := EncodedRootSelection.validate_valid validated
      refine ⟨?_, fun other same => Option.some.inj same ▸ valid⟩
      rw [EncodedCompilationSegment.chosen, posted, Option.map_some]
      refine congrArg some ?_
      obtain ⟨_, _, rows⟩ := chosen
      rw [count, Nat.mul_div_cancel rows (by decide)]
      exact congrArg₂ (EncodedRootSelection.mk · · rows) modes postings
  · next unposted =>
    rw [CoreResult.bind_ok] at accepted
    obtain ⟨_, _, same⟩ := accepted
    obtain rfl := Except.ok.inj same
    refine ⟨?_, fun other member => absurd member (Option.not_mem_none other)⟩
    rw [EncodedCompilationSegment.chosen, unposted]
    rfl

namespace Opens

variable (opens : Opens segment table)

include opens

theorem rootKey (root : Nat) : table.rootKey root = segment.rootKey root := by
  rw [CompilableSegment.rootKey, EncodedCompilationSegment.rootKey, CompilableSegment.rootNode,
    opens.columns, opens.mapped]

theorem known {tables : List CompilableSegment} {index root : Nat} (found : tables[index]? = some table)
    (within : root < segment.rootCount) :
    KnownRoot tables ⟨index, root⟩ table := ⟨found, opens.ready, opens.row root within⟩

theorem segmentKey {tables : List CompilableSegment} {index root : Nat} (found : tables[index]? = some table) :
    segmentKey tables ⟨index, root⟩ = segment.rootKey root := by
  rw [PyElk.Native.segmentKey]
  change (tables[index]?).elim _ _ = _
  rw [found]
  exact opens.rootKey root

end Opens

namespace AcceptedTable

/-- An accepted table is opened with its scopes renamed. -/
theorem opens {accepted : AcceptedTable} (columns : accepted.columns = segment.columns)
    {replacements : List ScalarScopeReplacement}
    (replaces : accepted.columns.Replaces segment.anonymousScopeMap (List.range accepted.nodeCount) replacements)
    (sorted : replacements.Pairwise fun first second => first.start ≤ second.start) :
    Opens segment ⟨segment.columns, accepted.canonicalLengths, accepted.nodeCount, replacements⟩ := by
  have shaped := accepted.covered.2.2.2
  have nodes : accepted.nodeCount = segment.nodeCount := by
    rw [EncodedCompilationSegment.nodeCount, ← columns, shaped.nodeTags, Nat.mul_div_cancel _ (by decide)]
  have roots : accepted.rootCount = segment.rootCount := by
    rw [EncodedCompilationSegment.rootCount, ← columns, shaped.rootKinds]
  have count := accepted.canonical.1
  rw [← columns]
  refine ⟨columns, nodes, ?_, ⟨?_, count, fun node within => (accepted.conforms within).1⟩, fun root within => ?_, ?_⟩
  · rw [EncodedCompilationSegment.rescoped, ← nodes, ← columns]
    exact accepted.mapped_rescoped replaces sorted
  · refine accepted.sound.withScalars ⟨by rw [List.length_map, List.length_range],
      fun node within index above below integer => ?_⟩
    have inside : node < accepted.nodeCount := count ▸ within
    have below : index < accepted.columns.offsetOf (node + 1) := by
      rw [EncodedColumns.arity] at below
      have ordered : accepted.columns.offsetOf node ≤ accepted.columns.offsetOf (node + 1) :=
        accepted.sound.ordered node within
      omega
    rw [accepted.mapped_payload replaces sorted rfl inside above below (.inr integer), if_neg]
    rintro ⟨anonymous, first⟩
    have scope := (accepted.scopeOf_shape inside anonymous).2.1
    rw [EncodedColumns.scopeOf, ← first, integer] at scope
    cases scope
  · have row := accepted.canonical.2.root root (roots ▸ within)
    rw [count] at row
    exact row
  · rw [← columns, shaped.rootIds, roots]

/-- Through the replacements a table is read with the scopes of its anonymous individuals renamed as the map says,
and nothing else changed: the lengths that were found for it still hold. -/
theorem buildScopeReplacements_exact (accepted : AcceptedTable) (scopeMap : List UInt8) (maxWork : Nat) :
    Returns (buildScopeReplacements scopeMap accepted.columns accepted.nodeCount maxWork) fun replacements =>
      let mapped :=
        (CompilableSegment.mk accepted.columns accepted.canonicalLengths accepted.nodeCount
          replacements).mappedColumns
      mapped.Sound accepted.canonicalLengths ∧ ∀ node < accepted.nodeCount, ∀ index,
        accepted.columns.offsetOf node ≤ index →
        index < accepted.columns.offsetOf (node + 1) →
        isScalar (accepted.columns.field index).kind ∨ (accepted.columns.field index).kind = COMPONENT_INTEGER →
        mapped.payload (accepted.columns.field index) =
          if accepted.columns.tagOf node = 3 ∧ index = accepted.columns.offsetOf node then
            renameScope scopeMap (accepted.columns.payload (accepted.columns.field index))
          else accepted.columns.payload (accepted.columns.field index) := by
  intro spent replacements later run
  obtain ⟨replaces, sorted⟩ := EncodedColumns.buildScopeReplacements_returns spent replacements later run
  have opens := @opens ⟨accepted.columns, none, [], scopeMap⟩ accepted rfl replacements replaces sorted
  exact ⟨opens.ready.sound, fun node within index above below kind =>
    accepted.mapped_payload replaces sorted rfl within above below kind⟩

/-- A class of two anonymous individuals, each of a scope of its own. -/
def anonymousAssertions : AcceptedTable where
  columns :=
    { rootKinds := [2, 2]
      rootIds := [5, 6].flatMap (Bytes.littleEndian 4)
      nodeTags := [1, 2, 3, 3, 112, 112].flatMap (Bytes.littleEndian 2)
      nodeFieldOffsets := [0, 1, 3, 5, 7, 10, 13].flatMap (Bytes.littleEndian 8)
      fieldKinds := [2, 5, 1, 3, 3, 3, 3, 1, 1, 6, 1, 1, 6]
      fieldValues := [0, 3, 1, 8, 40, 41, 73, 2, 3, 0, 2, 4, 0].flatMap (Bytes.littleEndian 8)
      fieldLengths := [3, 5, 0, 32, 1, 32, 1, 0, 0, 0, 0, 0, 0].flatMap (Bytes.littleEndian 8)
      itemKinds := []
      itemValues := []
      itemLengths := []
      scalarBytes := encodeUtf8 "a:bclass" ++ List.replicate 32 1 ++ [1] ++ List.replicate 32 2 ++ [1] }
  limits := ⟨10, 10, 100, 10, 100, 1000⟩
  validated := ⟨2, 6, 13, 0, 74, 143⟩
  canonicalLengths := [6, 16, 38, 38, 61, 61]
  accepted := by decide +kernel

/-- The map that moves the first of the scopes behind the second. -/
def laterScope : List UInt8 := List.replicate 32 1 ++ List.replicate 32 9

/-- Of the two scopes the one in the map is renamed, and the keys stay. -/
theorem buildScopeReplacements_exact_anonymous : ∃ replacements later,
    buildScopeReplacements laterScope anonymousAssertions.columns anonymousAssertions.nodeCount 1000 0 =
      (.ok replacements, later) ∧
      replacements.length = 1 ∧
      let mapped := (CompilableSegment.mk anonymousAssertions.columns anonymousAssertions.canonicalLengths
        anonymousAssertions.nodeCount replacements).mappedColumns
      mapped.payload (anonymousAssertions.columns.field 3) = List.replicate 32 9 ∧
        mapped.payload (anonymousAssertions.columns.field 4) = [1] ∧
        mapped.payload (anonymousAssertions.columns.field 5) = List.replicate 32 2 := by
  have taken : ((buildScopeReplacements laterScope anonymousAssertions.columns anonymousAssertions.nodeCount 1000
    0).1.toOption.any
    fun replacements => replacements.length = 1) := by decide +kernel
  cases outcome :
    buildScopeReplacements laterScope anonymousAssertions.columns anonymousAssertions.nodeCount 1000 0 with
  | mk result later =>
    rw [outcome] at taken
    cases result with
    | error raised => cases taken
    | ok replacements =>
      obtain ⟨-, reads⟩ :=
        buildScopeReplacements_exact anonymousAssertions laterScope 1000 0 replacements later outcome
      refine ⟨replacements, later, rfl, of_decide_eq_true taken, ?_, ?_, ?_⟩
      · exact (reads 2 (by decide) 3 (by decide) (by decide) (by decide)).trans (by decide)
      · exact (reads 2 (by decide) 4 (by decide) (by decide) (by decide)).trans (by decide)
      · exact (reads 3 (by decide) 5 (by decide) (by decide) (by decide)).trans (by decide)

end AcceptedTable

/-- Where no scope is renamed, the roots are in order as they are. -/
theorem lists_ordered {accepted : AcceptedTable} (columns : accepted.columns = segment.columns)
    {replacements : List ScalarScopeReplacement}
    (opens : Opens segment ⟨segment.columns, accepted.canonicalLengths, accepted.nodeCount, replacements⟩)
    (unscoped : replacements = []) :
    Lists segment (selectedRoots segment.chosen segment.rootCount) where
  selected root member := by
    obtain ⟨within, chosen⟩ := List.mem_filter.mp member
    exact ⟨List.mem_range.mp within, chosen⟩
  ascend := by
    have unmapped : segment.rescoped = segment.columns := by
      rw [← opens.mapped, unscoped]
      have scalars : ((List.range segment.columns.scalarBytes.length).map fun index =>
          (scopeMappedByte segment.columns.scalarBytes [] index).getD 0) = segment.columns.scalarBytes := by
        refine List.ext_getElem (by rw [List.length_map, List.length_range]) fun index _ within => ?_
        rw [List.getElem_map, List.getElem_range, scopeMappedByte]
        change (segment.columns.scalarBytes[index]?).getD 0 = _
        rw [List.getElem?_eq_getElem within, Option.getD_some]
      exact congrArg segment.columns.withScalars scalars
    have roots : accepted.rootCount = segment.rootCount := by
      rw [EncodedCompilationSegment.rootCount, ← columns, accepted.covered.2.2.2.rootKinds]
    refine List.Pairwise.filter _ (List.pairwise_iff_getElem.mpr fun first second _ within before => ?_)
    rw [List.length_range, ← roots] at within
    rw [List.getElem_range, List.getElem_range, EncodedCompilationSegment.rootKey, EncodedCompilationSegment.rootKey,
      unmapped, ← columns,
      compareKeys, compareLex, compareOn, compareOn]
    dsimp only
    obtain lower | ⟨same, _⟩ := accepted.rootBefore before within
    · rw [Nat.compare_eq_lt.mpr lower]
      rfl
    · rw [same, Nat.compare_eq_eq.mpr rfl]
      exact accepted.roots_compare before within same
  complete root within chosen := ⟨root, List.mem_filter.mpr ⟨List.mem_range.mpr within, chosen⟩, rfl⟩

/-- Where scopes are renamed, the roots are put in order again. -/
theorem buildRemappedRootIter_settles (sort : UnstableSort) {tables : List CompilableSegment} {index : Nat}
    {accepted : AcceptedTable}
    (roots : accepted.rootCount = segment.rootCount)
    (valid : ∀ chosen ∈ segment.chosen, chosen.Valid segment.rootCount)
    (opens : Opens segment table) (found : tables[index]? = some table) :
    Settles (buildRemappedRootIter sort index segment.chosen segment.rootCount tables maxWork)
      (fun later => ∃ rest, later.Yields rest ∧ Lists segment rest) OutOfWork := by
  have small : segment.rootCount < USIZE := roots ▸ accepted.rootCount_small
  have few : (selectedRoots segment.chosen segment.rootCount).length ≤ segment.rootCount :=
    (List.length_filter_le _ _).trans_eq (List.length_range)
  have within : ∀ root ∈ selectedRoots segment.chosen segment.rootCount, root < segment.rootCount ∧
    selects segment.chosen root := by
    intro root member
    obtain ⟨within, chosen⟩ := List.mem_filter.mp member
    exact ⟨List.mem_range.mp within, chosen⟩
  have compares : ∀ first ∈ selectedRoots segment.chosen segment.rootCount,
    ∀ second ∈ selectedRoots segment.chosen segment.rootCount,
      Settles (compareSegmentRoots ⟨index, first⟩ ⟨index, second⟩ tables maxWork)
        (· = compareKeys (segment.rootKey first) (segment.rootKey second)) OutOfWork := by
    intro first firstIn second secondIn
    rw [← opens.segmentKey found, ← opens.segmentKey found]
    exact compareSegmentRoots_settles (opens.known found (within first firstIn).1)
      (opens.known found (within second secondIn).1)
  refine .check_ok (SelectedRootIter.drain_ok (SelectedRootIter.new_left small valid) (Nat.lt_succ_of_le few)) ?_
  refine .bind (sort.sorts (transCmp_on segment.rootKey) compares) fun sorted order => ?_
  obtain ⟨perm, sorted⟩ := order
  refine .bind (deduplicate_settles (fun _ _ => compareKeys_eq) (fun first firstIn second secondIn =>
    compares first (perm.subset firstIn) second (perm.subset secondIn)) sorted) fun kept done => .pure ⟨kept, ?_, ?_⟩
  · have fewer := done.1.length_le.trans_eq perm.length_eq
    exact CompilationRootIter.remapped_yields ((fewer.trans few).trans_lt small) (Nat.zero_le _)
  · exact {
      selected := fun root member => within root (perm.subset (done.1.subset member))
      ascend := done.2.1
      complete := fun root inside chosen =>
        done.2.2 root (perm.symm.subset (List.mem_filter.mpr ⟨List.mem_range.mpr inside, chosen⟩)) }

/-- A segment is opened. -/
theorem openSegment_returns (sort : UnstableSort) (limits : EncodedLimits)
    (opened : List CompilableSegment × List CompilationRootIter)
    (segment : EncodedCompilationSegment) :
    Returns (openSegment sort limits opened segment) fun later => ∃ table roots rest,
      later = (opened.1 ++ [table], opened.2 ++ [roots]) ∧ Opens segment table ∧ roots.Yields rest ∧
        Lists segment rest := by
  refine .check_bind fun rootCount aligned => .check_bind fun selection chosen => .check_bind fun both accepts => ?_
  obtain ⟨validated, canonicalLengths⟩ := both
  let accepted : AcceptedTable := ⟨segment.columns, limits, validated, canonicalLengths, accepts⟩
  have shaped := accepted.covered.2.2.2
  have roots : accepted.rootCount = segment.rootCount := shaped.rootKinds.symm
  have rows : rootCount = segment.rootCount := by
    have length := EncodedColumns.alignedCount_length aligned
    have same : segment.columns.rootIds.length = accepted.rootCount * 4 := shaped.rootIds
    rw [← roots]
    omega
  obtain ⟨rfl, valid⟩ := selection_valid chosen
  rw [rows] at valid
  refine .bind_any fun _ => .bind accepted.columns.buildScopeReplacements_returns fun replacements replaced => ?_
  have opens : Opens segment ⟨segment.columns, canonicalLengths, validated.nodeCount, replacements⟩ :=
    @AcceptedTable.opens segment accepted rfl replacements replaced.1 replaced.2
  have counted : validated.rootCount = segment.rootCount := roots
  rw [counted]
  dsimp only
  split
  · next unscoped =>
    have lists := @lists_ordered segment accepted rfl replacements opens (List.isEmpty_iff.mp unscoped)
    have small : segment.rootCount < USIZE := roots ▸ accepted.rootCount_small
    exact .pure ⟨_, _, _, rfl, opens, SelectedRootIter.yields (SelectedRootIter.new_left small valid), lists⟩
  · have found : (opened.1 ++
      [(⟨segment.columns, canonicalLengths, validated.nodeCount,
        replacements⟩ : CompilableSegment)])[opened.1.length]? =
        some ⟨segment.columns, canonicalLengths, validated.nodeCount, replacements⟩ := List.getElem?_concat_length
    refine .bind (buildRemappedRootIter_settles sort roots valid opens found).returns fun later ready => .pure ?_
    obtain ⟨rest, yields, lists⟩ := ready
    exact ⟨_, _, rest, rfl, opens, yields, lists⟩

end

end PyElk.Native
