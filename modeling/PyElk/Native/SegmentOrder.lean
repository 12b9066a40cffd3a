import PyElk.Native.ScopeMapping
import PyElk.Native.SelectedRoots
import PyElk.Support.Merging

open Raising Lexicographic

namespace PyElk.Native

/-- Roots are in the order of their kinds, and then of the bytes of their nodes. -/
def compareKeys : Nat × List UInt8 → Nat × List UInt8 → Ordering :=
  compareLex (compareOn Prod.fst) (compareOn Prod.snd)

instance : Std.TransCmp compareKeys :=
  inferInstanceAs (Std.TransCmp (compareLex (compareOn Prod.fst) (compareOn Prod.snd)))

theorem compareKeys_eq {left right : Nat × List UInt8} : compareKeys left right = .eq ↔ left = right := by
  rw [compareKeys, compareLex_eq_eq, compareOn, compareOn, compare_eq_iff, Nat.compare_eq_eq, Prod.ext_iff]

/-- Items are compared as their keys are. -/
theorem transCmp_on {α β : Type} {order : β → β → Ordering} [Std.TransCmp order] (key : α → β) :
    Std.TransCmp fun left right => order (key left) (key right) where
  eq_swap := Std.OrientedCmp.eq_swap
  isLE_trans := Std.TransCmp.isLE_trans

namespace EncodedColumns.Sound

variable {left right : EncodedColumns} {leftLengths rightLengths : List Nat} {node other : Nat}

/-- Cut as one of them, nodes are the same when they are the same but for their annotations. -/
theorem logicalPrefix_eq_iff (leftSound : left.Sound leftLengths) (rightSound : right.Sound rightLengths)
    (leftWithin : node < leftLengths.length)
    (rightWithin : other < rightLengths.length) :
    compare (left.canonicalPrefix node (some (right.arity other - 1))) (right.logicalPrefix other) = .eq ↔
      left.logicalPrefix node = right.logicalPrefix other := by
  have start : ∀ limit, left.canonicalPrefix node (some limit) = right.logicalPrefix other →
    left.arity node = right.arity other := by
    intro limit same
    obtain ⟨rest, whole⟩ := rightSound.prefix_append rightWithin (right.arity other - 1)
    have starts : left.canonicalPrefix node (some limit) <+: right.canonicalBytes other :=
      ⟨rest, by rw [whole, same]; rfl⟩
    exact leftSound.arity_eq rightSound leftWithin rightWithin
      (leftSound.prefix_eq rightSound leftWithin rightWithin starts).1
  rw [compare_eq_iff]
  constructor
  · intro same
    rw [EncodedColumns.logicalPrefix, start _ same]
    exact same
  · intro same
    rw [← start _ same]
    exact same

end EncodedColumns.Sound

/-- A table that has been opened for the merge. -/
structure CompilableSegment.Ready (table : CompilableSegment) : Prop where
  sound : table.mappedColumns.Sound table.canonicalLengths
  count : table.canonicalLengths.length = table.nodeCount
  conforms : ∀ node < table.nodeCount, table.columns.Conforms table.nodeCount node

/-- The node of a root. -/
def CompilableSegment.rootNode (table : CompilableSegment) (root : Nat) : Nat := table.columns.rootNode root

/-- What a root stands for: its kind, and the bytes of its node. -/
noncomputable def CompilableSegment.rootKey (table : CompilableSegment) (root : Nat) : Nat × List UInt8 :=
  (table.columns.rootKind root, table.mappedColumns.canonicalBytes (table.rootNode root))

/-- A root of an opened table. -/
structure KnownRoot (tables : List CompilableSegment) (reference : SegmentRootRef)
    (table : CompilableSegment) : Prop where
  found : tables[reference.table]? = some table
  ready : table.Ready
  row : table.columns.RootRow table.nodeCount reference.root

/-- What a root of one of the tables stands for. -/
noncomputable def segmentKey (tables : List CompilableSegment) (reference : SegmentRootRef) : Nat × List UInt8 :=
  (tables[reference.table]?).elim (0, []) fun table => table.rootKey reference.root

section

variable {tables : List CompilableSegment} {reference other : SegmentRootRef} {table otherTable : CompilableSegment}
    {maxWork : Nat}

theorem KnownRoot.segmentKey (known : KnownRoot tables reference table) :
    segmentKey tables reference = table.rootKey reference.root := by
  rw [PyElk.Native.segmentKey, known.found]
  rfl

theorem KnownRoot.rootNode_lt (known : KnownRoot tables reference table) :
    table.rootNode reference.root < table.canonicalLengths.length := by
  rw [known.ready.count]
  exact (nodeIndex_ok.mp known.row.node).2.1

theorem KnownRoot.kind (known : KnownRoot tables reference table) (name : String) :
    byteAt table.mappedColumns.rootKinds reference.root name = .ok (table.columns.rootKinds.getD reference.root 0) :=
  EncodedColumns.byteAt_named known.row.kind

theorem KnownRoot.node (known : KnownRoot tables reference table) (name : String) :
    segmentNode table.mappedColumns reference.root table.nodeCount name = .ok (table.rootNode reference.root) := by
  rw [segmentNode, CoreResult.bind_ok]
  exact ⟨_, uintAt_named known.row.identifier name, known.row.node⟩

theorem KnownRoot.tag (known : KnownRoot tables reference table) (name : String) :
    u16At table.mappedColumns.nodeTags (table.rootNode reference.root) name =
      .ok (table.columns.tagOf (table.rootNode reference.root)) :=
  uintAt_named (known.ready.sound.tag _ known.rootNode_lt) name

theorem KnownRoot.start (known : KnownRoot tables reference table) (name : String) :
    usizeAt table.mappedColumns.nodeFieldOffsets (table.rootNode reference.root) name =
      .ok (table.columns.offsetOf (table.rootNode reference.root)) :=
  uintAt_named (known.ready.sound.start _ known.rootNode_lt) name

/-- Roots of opened tables compare as what they stand for does. -/
theorem compareSegmentRoots_settles (known : KnownRoot tables reference table)
    (otherKnown : KnownRoot tables other otherTable) :
    Settles (compareSegmentRoots reference other tables maxWork)
      (· = compareKeys (segmentKey tables reference) (segmentKey tables other)) OutOfWork := by
  refine .check_ok (okOr_ok.mpr known.found) (.check_ok (okOr_ok.mpr otherKnown.found) ?_)
  refine .check_ok (known.kind _) (.check_ok (otherKnown.kind _) ?_)
  rw [known.segmentKey, otherKnown.segmentKey, compareKeys, compareLex, compareOn, compareOn]
  dsimp only [CompilableSegment.rootKey]
  by_cases kinds : compare (table.columns.rootKind reference.root) (otherTable.columns.rootKind other.root) = .eq
  · refine .if_neg (not_not.mpr kinds) (.check_ok (known.node _) (.check_ok (otherKnown.node _) ?_))
    obtain ⟨cost, _, gives⟩ := @EncodedColumns.Sound.compareBetween_gives table.mappedColumns otherTable.mappedColumns
      table.canonicalLengths otherTable.canonicalLengths (table.rootNode reference.root)
        (otherTable.rootNode other.root)
      known.ready.sound otherKnown.ready.sound known.rootNode_lt otherKnown.rootNode_lt none
        (fun _ none => nomatch none) maxWork
    rw [known.ready.sound.canonicalPrefix_none known.rootNode_lt,
      otherKnown.ready.sound.canonicalPrefix_none otherKnown.rootNode_lt] at gives
    rw [kinds]
    exact gives.settles
  · refine .if_pos kinds (.pure ?_)
    change compare (table.columns.rootKind reference.root) (otherTable.columns.rootKind other.root) = _
    cases order : compare (table.columns.rootKind reference.root) (otherTable.columns.rootKind other.root) with
    | lt => rfl
    | gt => rfl
    | eq => exact absurd order kinds

end

section

open Merging

variable {α μ : Type} [DecidableEq μ] {mark : α → μ} {order : μ → μ → Ordering}
  {compareItems : α → α → Metering Ordering} {items : List α} {stops : CoreError → Prop}

/-- One of each run of equals is kept. -/
theorem deduplicate_keeps (equal : ∀ first second, order first second = .eq ↔ first = second)
    (compares : ∀ first ∈ items, ∀ second ∈ items,
      Settles (compareItems first second) (· = order (mark first) (mark second)) stops) :
    Settles (items.foldlM (deduplicate compareItems) []) (· = items.foldl (keepFirst mark) []) stops := by
  refine Settles.foldlM (fun kept done => kept = done.foldl (keepFirst mark) []) rfl
    fun done item rest kept whole same => ?_
  rw [List.foldl_append, List.foldl_cons, List.foldl_nil, ← same, deduplicate, keepFirst]
  split
  · next unkept =>
    rw [unkept]
    exact .pure rfl
  · next previous last =>
    have here : item ∈ items := whole ▸ List.mem_append_right done (.head rest)
    have before : previous ∈ items := by
      have kept' := List.mem_of_getLast? last
      rw [same] at kept'
      exact whole ▸ List.mem_append_left _ (keepFirst_subset kept')
    refine .bind (compares previous before item here) fun ordering found => .pure ?_
    rw [last, found, Option.map_some]
    by_cases repeated : mark previous = mark item
    · rw [if_pos ((equal _ _).mpr repeated), if_pos (congrArg some repeated)]
    · rw [if_neg fun same => repeated ((equal _ _).mp same), if_neg fun same => repeated (Option.some.inj same)]

/-- Of sorted items, one of each mark is kept, and these ascend. -/
theorem deduplicate_settles [Std.TransCmp order] (equal : ∀ first second, order first second = .eq ↔ first = second)
    (compares : ∀ first ∈ items, ∀ second ∈ items,
      Settles (compareItems first second) (· = order (mark first) (mark second)) stops)
    (sorted : items.Pairwise fun first second => (order (mark first) (mark second)).isLE) :
    Settles (items.foldlM (deduplicate compareItems) []) (fun kept => kept.Sublist items ∧
      (kept.Pairwise fun first second => order (mark first) (mark second) = .lt) ∧
        ∀ item ∈ items, ∃ other ∈ kept, mark other = mark item) stops := by
  refine (deduplicate_keeps equal compares).weaken (fun kept same => ?_) fun _ => id
  have adjacent : ∀ first ∈ items, ∀ middle ∈ items, ∀ last ∈ items, (order (mark first) (mark middle)).isLE →
      (order (mark middle) (mark last)).isLE → mark first = mark last → mark middle = mark last := by
    intro first _ middle _ last _ below above same
    rw [same] at below
    exact (equal _ _).mp (Std.OrientedCmp.isLE_antisymm above below)
  obtain ⟨sublist, distinct, every⟩ := keepFirst_once sorted adjacent
  rw [← same] at sublist distinct every
  refine ⟨sublist, ?_, every⟩
  refine ((sorted.sublist sublist).and (List.pairwise_map.mp distinct)).imp fun {first second} both => ?_
  cases position : order (mark first) (mark second) with
  | lt => rfl
  | eq => exact absurd ((equal _ _).mp position) both.2
  | gt =>
    rw [position] at both
    cases both.1

end

end PyElk.Native
