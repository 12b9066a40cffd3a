import PyElk.Native.Validation
import PyElk.Native.Views

open Raising

namespace PyElk.Native

/-- One table and its selection of roots. -/
structure EncodedCompilationSegment where
  columns : EncodedColumns
  postingMode : Option EncodedPostingMode
  postings : List UInt8
  anonymousScopeMap : List UInt8

structure EncodedRootSelection where
  mode : EncodedPostingMode
  postings : List UInt8
  count : Nat

/-- `encoded_posting_at`. -/
def encodedPostingAt (postings : List UInt8) (index : Nat) : CoreResult Nat :=
  u32At postings index "encoded segment root posting"

/-- A turn of the loop of `EncodedRootSelection::validate`: the posting, to be below the next one. -/
def validatePosting (postings : List UInt8) (rootCount previous index : Nat) : CoreResult Nat := do
  let posting ← encodedPostingAt postings index
  refuse (posting ≤ previous || posting > rootCount)
    (.protocol "encoded root postings must be sorted, unique, and in range")
  pure posting

/-- `EncodedRootSelection::validate`. -/
def EncodedRootSelection.validate (mode : EncodedPostingMode) (postings : List UInt8) (rootCount : Nat) :
    CoreResult EncodedRootSelection := do
  let count ← alignedCount postings 4 "encoded segment root postings"
  refuse (count = 0) (.protocol "encoded include/exclude root postings must not be empty")
  let _ ← (List.range count).foldlM (validatePosting postings rootCount) 0
  pure ⟨mode, postings, count⟩

/-- The loop of `EncodedRootCursor::includes` over the postings in front of a root: the cursor behind them. -/
def EncodedRootSelection.skip (selection : EncodedRootSelection) (ordinal : Nat) : Nat → Nat → CoreResult Nat
  | 0, cursor => pure cursor
  | turns + 1, cursor => do
    if cursor < selection.count then
      if (← encodedPostingAt selection.postings cursor) ≥ ordinal then pure cursor
      else selection.skip ordinal turns (cursor + 1)
    else pure cursor

structure EncodedRootCursor where
  selection : Option EncodedRootSelection
  cursor : Nat

/-- `EncodedRootCursor::includes`. -/
def EncodedRootCursor.includes (selector : EncodedRootCursor) (root : Nat) : CoreResult (Bool × EncodedRootCursor) :=
  match selector.selection with
  | none => pure (true, selector)
  | some selection => do
    let ordinal ← okOr (.capacity "encoded root ordinal overflow") (checkedAdd root 1)
    let cursor ← selection.skip ordinal (selection.count - selector.cursor) selector.cursor
    let listed ←
      if cursor < selection.count then
        (fun posting => decide (posting = ordinal)) <$> encodedPostingAt selection.postings cursor
      else pure false
    let included := match selection.mode with
      | .including => listed
      | .excluding => !listed
    pure (included, { selector with cursor := cursor })

structure SelectedRootIter where
  selector : EncodedRootCursor
  nextRoot : Nat
  rootCount : Nat

/-- `SelectedRootIter::new`. -/
def SelectedRootIter.new (selection : Option EncodedRootSelection) (rootCount : Nat) : SelectedRootIter :=
  ⟨⟨selection, 0⟩, 0, rootCount⟩

/-- The loop of `SelectedRootIter::next`, over the roots that are left. -/
def SelectedRootIter.nextLoop (rootCount : Nat) :
    Nat → EncodedRootCursor → Nat → CoreResult (Option Nat × SelectedRootIter)
  | 0, selector, nextRoot => pure (none, ⟨selector, nextRoot, rootCount⟩)
  | left + 1, selector, nextRoot => do
    let (included, selector) ← selector.includes nextRoot
    if included then pure (some nextRoot, ⟨selector, nextRoot + 1, rootCount⟩)
    else nextLoop rootCount left selector (nextRoot + 1)

/-- `SelectedRootIter::next`. -/
def SelectedRootIter.next (roots : SelectedRootIter) : CoreResult (Option Nat × SelectedRootIter) :=
  nextLoop roots.rootCount (roots.rootCount - roots.nextRoot) roots.selector roots.nextRoot

inductive CompilationRootIter
  | ordered (roots : SelectedRootIter)
  | remapped (roots : List Nat) (cursor : Nat)

/-- `CompilationRootIter::next`. -/
def CompilationRootIter.next : CompilationRootIter → CoreResult (Option Nat × CompilationRootIter)
  | .ordered roots => do
    let (root, later) ← roots.next
    pure (root, .ordered later)
  | .remapped roots cursor => do
    let following ← okOr (.capacity "remapped root cursor overflow")
      (checkedAdd cursor (if cursor < roots.length then 1 else 0))
    pure (roots[cursor]?, .remapped roots following)

structure ScalarScopeReplacement where
  start : Nat
  target : List UInt8

/-- `ScopeMappedByteSource::byte`. -/
def scopeMappedByte (source : List UInt8) (replacements : List ScalarScopeReplacement) (index : Nat) : Option UInt8 :=
  match (replacements.takeWhile fun replacement => replacement.start ≤ index).getLast? with
  | some replacement => replacement.target[index - replacement.start]?.or source[index]?
  | none => source[index]?

structure CompilableSegment where
  columns : EncodedColumns
  canonicalLengths : List Nat
  nodeCount : Nat
  scopeReplacements : List ScalarScopeReplacement

/-- `CompilableSegment::mapped_columns`. -/
def CompilableSegment.mappedColumns (segment : CompilableSegment) : EncodedColumns :=
  { segment.columns with
    scalarBytes := (List.range segment.columns.scalarBytes.length).map fun index =>
      (scopeMappedByte segment.columns.scalarBytes segment.scopeReplacements index).getD 0 }

/-- `fixed_bytes_32`. -/
def fixedBytes32 (source : List UInt8) (start : Nat) (name : String) : CoreResult (List UInt8) :=
  (List.range 32).mapM fun offset => do
    let position ← okOr (.capacity s!"{name} offset overflow") (checkedAdd start offset)
    okOr (.protocol s!"{name} is truncated") source[position]?

/-- A turn of the first loop of `build_scope_replacements`: the mappings, the last one in front. -/
def scopeMapping (scopeMap : List UInt8) (mappings : List (List UInt8 × List UInt8)) (row : Nat) :
    CoreResult (List (List UInt8 × List UInt8)) := do
  let start ← okOr (.capacity "anonymous scope-map offset overflow") (checkedMul row 64)
  let source ← fixedBytes32 scopeMap start "anonymous scope-map source"
  let middle ← okOr (.capacity "anonymous scope-map target overflow") (checkedAdd start 32)
  let target ← fixedBytes32 scopeMap middle "anonymous scope-map target"
  refuse ((mappings.head?.any fun previous => (compare previous.1 source).isGE) || source = target)
    (.protocol "anonymous scope-map sources must be sorted, unique, and nonidentity")
  pure ((source, target) :: mappings)

/-- A turn of the second loop of `build_scope_replacements`. -/
def scopeReplacement (mappings : List (List UInt8 × List UInt8)) (columns : EncodedColumns) (maxWork : Nat)
    (replacements : List ScalarScopeReplacement) (node : Nat) : Metering (List ScalarScopeReplacement) := do
  claimWork 1 maxWork
  let tag ← check (u16At columns.nodeTags node "scope-mapped node tag")
  if tag ≠ 3 then pure replacements
  else do
    let field ← check (usizeAt columns.nodeFieldOffsets node "anonymous scope field offset")
    let (kind, start, length) ← check (componentParts (.field field) columns)
    check (refuse (kind ≠ COMPONENT_BYTES || length ≠ 32) (.internal "validated anonymous scope field changed shape"))
    let source ← check (fixedBytes32 columns.scalarBytes start "anonymous scope")
    match mappings.find? fun mapping => mapping.1 = source with
    | some mapping => pure (replacements ++ [⟨start, mapping.2⟩])
    | none => pure replacements

/-- `build_scope_replacements`. -/
def buildScopeReplacements (scopeMap : List UInt8) (columns : EncodedColumns) (nodeCount maxWork : Nat) :
    Metering (List ScalarScopeReplacement) := do
  if scopeMap = [] then pure []
  else do
    let rowCount ← check (alignedCount scopeMap 64 "anonymous scope map")
    claimWork scopeMap.length maxWork
    let mappings ← check ((List.range rowCount).foldlM (scopeMapping scopeMap) [])
    let replacements ← (List.range nodeCount).foldlM (scopeReplacement mappings columns maxWork) []
    pure (replacements.mergeSort fun first second => first.start ≤ second.start)

structure SegmentRootRef where
  table : Nat
  root : Nat
  deriving DecidableEq, Repr

structure SegmentNodeRef where
  table : Nat
  node : Nat
  deriving DecidableEq, Repr

/-- The node of a root. -/
def segmentNode (columns : EncodedColumns) (root nodeCount : Nat) (name : String) : CoreResult Nat := do
  nodeIndex (← u32At columns.rootIds root name) nodeCount

/-- `compare_segment_nodes`. -/
def compareSegmentNodes (left right : SegmentNodeRef) (tables : List CompilableSegment) (maxWork : Nat) :
    Metering Ordering := do
  let leftTable ← check (okOr (.internal "left encoded fingerprint table is out of bounds") tables[left.table]?)
  let rightTable ← check (okOr (.internal "right encoded fingerprint table is out of bounds") tables[right.table]?)
  compareCanonicalNodesBetween left.node right.node leftTable.mappedColumns rightTable.mappedColumns
    leftTable.canonicalLengths
    rightTable.canonicalLengths maxWork

/-- `compare_segment_roots`. -/
def compareSegmentRoots (left right : SegmentRootRef) (tables : List CompilableSegment) (maxWork : Nat) :
    Metering Ordering := do
  let leftTable ← check (okOr (.internal "left encoded segment table is out of bounds") tables[left.table]?)
  let rightTable ← check (okOr (.internal "right encoded segment table is out of bounds") tables[right.table]?)
  let leftKind ← check (byteAt leftTable.mappedColumns.rootKinds left.root "left segment root kind")
  let rightKind ← check (byteAt rightTable.mappedColumns.rootKinds right.root "right segment root kind")
  let ordering := compare leftKind.toNat rightKind.toNat
  if ordering ≠ .eq then pure ordering
  else do
    let leftNode ← check
      (segmentNode leftTable.mappedColumns left.root leftTable.nodeCount "left segment root node ID")
    let rightNode ← check
      (segmentNode rightTable.mappedColumns right.root rightTable.nodeCount "right segment root node ID")
    compareCanonicalNodesBetween leftNode rightNode leftTable.mappedColumns rightTable.mappedColumns
      leftTable.canonicalLengths
      rightTable.canonicalLengths maxWork

/-- `slice::sort_unstable_by` for a comparison that works and may fail: how often it compares, and how it orders
equals, is left to the library. -/
structure UnstableSort where
  sortBy : {α : Type} → (α → α → Metering Ordering) → List α → Metering (List α)
  sorts : ∀ {α : Type} {compareItems : α → α → Metering Ordering} {order : α → α → Ordering} {items : List α}
    {stops : CoreError → Prop}, Std.TransCmp order →
    (∀ first ∈ items, ∀ second ∈ items, Settles (compareItems first second) (· = order first second) stops) →
      Settles (sortBy compareItems items)
        (fun sorted => sorted.Perm items ∧ sorted.Pairwise fun first second => (order first second).isLE) stops

/-- The loop of `build_remapped_root_iter` over the roots that are left, and of
`SegmentedSemanticFingerprints::finish` over the entities: one of each run of equals. -/
def deduplicate {α : Type} (compareItems : α → α → Metering Ordering) (kept : List α) (item : α) :
    Metering (List α) :=
  match kept.getLast? with
  | none => pure (kept ++ [item])
  | some previous => do
    let ordering ← compareItems previous item
    pure (if ordering = .eq then kept else kept ++ [item])

/-- The loop of `build_remapped_root_iter` over the selection, over the roots that may be left. -/
def SelectedRootIter.drain : Nat → SelectedRootIter → CoreResult (List Nat)
  | 0, _ => pure []
  | left + 1, roots => do
    let (root, later) ← roots.next
    match root with
    | none => pure []
    | some root => do pure (root :: (← drain left later))

/-- `build_remapped_root_iter`. -/
def buildRemappedRootIter (sort : UnstableSort) (table : Nat) (selection : Option EncodedRootSelection)
    (rootCount : Nat)
    (tables : List CompilableSegment) (maxWork : Nat) : Metering CompilationRootIter := do
  let roots ← check ((SelectedRootIter.new selection rootCount).drain (rootCount + 1))
  let compareRoots := fun left right => compareSegmentRoots ⟨table, left⟩ ⟨table, right⟩ tables maxWork
  let sorted ← sort.sortBy compareRoots roots
  let deduplicated ← sorted.foldlM (deduplicate compareRoots) []
  pure (.remapped deduplicated 0)

/-- `annotation_field`. -/
def annotationField (node : Nat) (columns : EncodedColumns) : CoreResult Nat := do
  let start ← usizeAt columns.nodeFieldOffsets node "node field offset"
  let following ← okOr (.capacity "encoded compiler node index overflow") (checkedAdd node 1)
  let end_ ← usizeAt columns.nodeFieldOffsets following "node field end"
  refuse (end_ = 0) (.internal "encoded axiom constructor has no annotation field")
  let field := end_ - 1
  let notSet := CoreError.internal "encoded axiom annotation field is not a canonical set"
  refuse (field < start) notSet
  refuse ((← byteAt columns.fieldKinds field "annotation field kind").toNat ≠ COMPONENT_SET) notSet
  pure field

end PyElk.Native
