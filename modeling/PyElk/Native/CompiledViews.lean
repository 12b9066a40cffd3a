import Mathlib.Data.Finset.Sort
import PyElk.Native.CompiledSegments
import PyElk.Native.Resolver

open Raising Lexicographic Merging Overlays

namespace PyElk.Native

/-- The rows of a buffer of rows of one width. -/
theorem take_drop_flatMap {α : Type} {width : Nat} {row : α → List UInt8} {items : List α}
    (sizes : ∀ item ∈ items, (row item).length = width) {index : Nat} (within : index < items.length) :
    ((items.flatMap row).drop (index * width)).take width = row items[index] := by
  induction items generalizing index with
  | nil => cases within
  | cons first rest ih =>
    obtain ⟨here, later⟩ := List.forall_mem_cons.mp sizes
    cases index with
    | zero =>
      rw [Nat.zero_mul, List.drop_zero, List.flatMap_cons]
      exact List.take_left' here
    | succ index =>
      rw [List.flatMap_cons, Nat.succ_mul, Nat.add_comm, ← List.drop_drop, List.drop_left' here]
      exact ih later (Nat.lt_of_succ_lt_succ within)

theorem length_flatMap_row {α : Type} {width : Nat} {row : α → List UInt8} {items : List α}
    (sizes : ∀ item ∈ items, (row item).length = width) : (items.flatMap row).length = items.length * width := by
  induction items with
  | nil => rw [List.flatMap_nil, List.length_nil, List.length_nil, Nat.zero_mul]
  | cons first rest ih =>
    obtain ⟨here, later⟩ := List.forall_mem_cons.mp sizes
    rw [List.flatMap_cons, List.length_append, List.length_cons, here, ih later, Nat.succ_mul, Nat.add_comm]

namespace EncodedRootPlan

/-- `EncodedRootPlan::mode`. -/
def mode : EncodedRootPlan → Option EncodedPostingMode
  | .all | .dropped => none
  | .including _ => some .including
  | .excluding _ => some .excluding

/-- The postings of a plan. -/
def postings : EncodedRootPlan → Finset Nat
  | .including postings | .excluding postings => postings
  | .all | .dropped => ∅

/-- `EncodedRootPlan::posting_bytes`: the postings, in order. -/
def postingBytes (plan : EncodedRootPlan) : List UInt8 := (plan.postings.sort (· ≤ ·)).flatMap (Bytes.littleEndian 4)

end EncodedRootPlan

/-- `encoded_scope_map`. -/
def encodedScopeMap (scopeMap : ScopeMap) : List UInt8 := scopeMap.entries.flatMap fun entry => entry.1.1 ++ entry.2.1

/-- The segments `create_session_from_encoded` makes of the tables of a resolved view. -/
def compilationSegments : List EncodedCompilationTableBinding → CoreResult (List EncodedCompilationSegment)
  | [] => pure []
  | table :: rest => do
    let columns ← table.bindings.columns
    let segments ← compilationSegments rest
    pure (if table.selection = .dropped then segments
      else ⟨columns, table.selection.mode, table.selection.postingBytes, encodedScopeMap table.scopeMap⟩ :: segments)

/-- The part of `create_session_from_encoded` that compiles a resolved view. -/
def compileResolvedTables {β : Type} (sort : UnstableSort) (compiler : RootCompiler β)
    (tables : List EncodedCompilationTableBinding) :
    Metering (β × Option EncodedSemanticFingerprints) := do
  let segments ← check (compilationSegments tables)
  compileEncodedSegments sort compiler segments .default true

section

variable {plan : EncodedRootPlan}

theorem EncodedRootPlan.posting_eq (small : ∀ posting ∈ plan.postings, posting < 2 ^ 32) {index : Nat}
    (within : index < (plan.postings.sort (· ≤ ·)).length) :
    uintOf 4 plan.postingBytes index = (plan.postings.sort (· ≤ ·))[index] := by
  rw [uintOf, EncodedRootPlan.postingBytes, take_drop_flatMap (fun _ _ => Bytes.littleEndian_length _ _) within]
  exact Bytes.ofLittleEndian_littleEndian (small _ ((Finset.mem_sort _).mp (List.getElem_mem within)))

/-- The postings of a plan say what it selects. -/
theorem EncodedRootPlan.listed_iff (small : ∀ posting ∈ plan.postings, posting < 2 ^ 32) (root : Nat) :
    ((List.range (plan.postingBytes.length / 4)).any fun index => uintOf 4 plan.postingBytes index = root + 1) =
      decide (root + 1 ∈ plan.postings) := by
  have count : plan.postingBytes.length / 4 = (plan.postings.sort (· ≤ ·)).length := by
    rw [EncodedRootPlan.postingBytes, length_flatMap_row fun _ _ => Bytes.littleEndian_length _ _,
      Nat.mul_div_cancel _ (by decide)]
  rw [count, Bool.eq_iff_iff, List.any_eq_true, decide_eq_true_iff, ← Finset.mem_sort (· ≤ ·), List.mem_iff_getElem]
  constructor
  · rintro ⟨index, member, same⟩
    have within := List.mem_range.mp member
    exact ⟨index, within, (posting_eq small within).symm.trans (of_decide_eq_true same)⟩
  · rintro ⟨index, within, same⟩
    exact ⟨index, List.mem_range.mpr within, decide_eq_true ((posting_eq small within).trans same)⟩

theorem EncodedRootPlan.selects_chosen (kept : plan ≠ .dropped) (small : ∀ posting ∈ plan.postings, posting < 2 ^ 32)
    (columns : EncodedColumns) (scopeMap : List UInt8) (root : Nat) :
    PyElk.Native.selects (EncodedCompilationSegment.mk columns plan.mode plan.postingBytes scopeMap).chosen root =
      plan.selects (root + 1) := by
  cases plan with
  | all => rfl
  | dropped => exact absurd rfl kept
  | including postings => exact listed_iff small root
  | excluding postings =>
    refine (congrArg (! ·) (listed_iff small root)).trans ?_
    exact (decide_not).symm

end

/-- What a renaming of scopes does to the bytes of one. -/
def renameBytes (rename : Bytes32 → Bytes32) (scope : List UInt8) : List UInt8 :=
  if size : scope.length = 32 then (rename ⟨scope, size⟩).1 else scope

theorem scopeMappings_encoded (scopeMap : ScopeMap) :
    scopeMappings (encodedScopeMap scopeMap) = scopeMap.entries.map fun entry => (entry.1.1, entry.2.1) := by
  have sizes : ∀ entry ∈ scopeMap.entries, (entry.1.1 ++ entry.2.1).length = 64 := fun entry _ => by
    rw [List.length_append, entry.1.2, entry.2.2]
  have count : (encodedScopeMap scopeMap).length / 64 = scopeMap.entries.length := by
    rw [encodedScopeMap, length_flatMap_row sizes, Nat.mul_div_cancel _ (by decide)]
  refine List.ext_getElem (by rw [scopeMappings, List.length_map, List.length_range, count, List.length_map])
    fun index inside within => ?_
  rw [List.length_map] at within
  have row := take_drop_flatMap sizes within
  simp only [scopeMappings, List.getElem_map, List.getElem_range]
  have source : ((encodedScopeMap scopeMap).drop (index * 64)).take 32 = scopeMap.entries[index].1.1 := by
    have front := congrArg (List.take 32) row
    rw [List.take_take, List.take_left' scopeMap.entries[index].1.2] at front
    exact front
  have target : ((encodedScopeMap scopeMap).drop (index * 64 + 32)).take 32 = scopeMap.entries[index].2.1 := by
    have back := congrArg (List.drop 32) row
    rw [List.drop_take, List.drop_left' scopeMap.entries[index].1.2, List.drop_drop] at back
    exact back
  rw [source, target]

/-- The bytes of a scope map rename the bytes of a scope as the map renames the scope. -/
theorem renameScope_encoded (scopeMap : ScopeMap) (scope : List UInt8) :
    renameScope (encodedScopeMap scopeMap) scope = renameBytes scopeMap.rename scope := by
  rw [renameScope, scopeMappings_encoded, renameBytes]
  obtain ⟨entries, ascending⟩ := scopeMap
  change (((entries.map _).find? _).map Prod.snd).getD scope =
    if size : scope.length = 32 then ((entries.lookup _).getD _).1 else scope
  clear ascending
  split
  · next size =>
    induction entries with
    | nil => rfl
    | cons entry rest ih =>
      rw [List.map_cons, List.find?_cons, List.lookup_cons]
      by_cases same : entry.1.1 = scope
      · have key : (⟨scope, size⟩ : Bytes32) = entry.1 := Subtype.ext same.symm
        rw [decide_eq_true same, key, beq_self_eq_true]
        rfl
      · have key : (⟨scope, size⟩ : Bytes32) ≠ entry.1 := fun equal => same (congrArg Subtype.val equal).symm
        rw [decide_eq_false same, beq_false_of_ne key]
        exact ih
  · next size =>
    have absent :
      ((entries.map fun entry => (entry.1.1, entry.2.1)).find? fun mapping => mapping.1 = scope) = none := by
      refine List.find?_eq_none.mpr fun mapping member same => ?_
      obtain ⟨entry, _, rfl⟩ := List.mem_map.mp member
      exact size (of_decide_eq_true same ▸ entry.1.2)
    rw [absent]
    rfl

namespace EncodedColumns

/-- A byte of the scalars once the scopes are renamed. -/
def renamedByte (columns : EncodedColumns) (rename : Bytes32 → Bytes32) (row : Nat) : UInt8 :=
  match columns.scopeHolding (columns.nodeTags.length / 2) row with
  | some node =>
    (renameBytes rename (columns.payload (columns.scopeOf node))).getD (row - (columns.scopeOf node).value) 0
  | none => columns.scalarBytes.getD row 0

/-- The columns with the scopes of their anonymous individuals renamed. -/
def renamed (columns : EncodedColumns) (rename : Bytes32 → Bytes32) : EncodedColumns :=
  columns.withScalars ((List.range columns.scalarBytes.length).map (columns.renamedByte rename))

theorem rescoped_encoded (columns : EncodedColumns) (scopeMap : ScopeMap) :
    columns.rescoped (columns.nodeTags.length / 2) (encodedScopeMap scopeMap) = columns.renamed scopeMap.rename := by
  refine congrArg columns.withScalars (List.map_congr_left fun row _ => ?_)
  rw [rescopedByte, renamedByte]
  cases columns.scopeHolding (columns.nodeTags.length / 2) row with
  | none => rfl
  | some node => simp only [renameScope_encoded]

end EncodedColumns

/-- What a root of a view stands for: its kind, and the bytes of its node with the scopes renamed as they are on the
way to it. -/
noncomputable def rootKeyOf (heap : Address → EncodedView) (root : Root Address Bytes32) : Nat × List UInt8 :=
  (EncodedBufferBindings.fromView (heap root.view) >>= EncodedBufferBindings.columns).toOption.elim (0, [])
    fun columns =>
    (columns.rootKind (root.row - 1), (columns.renamed root.rename).canonicalBytes (columns.rootNode (root.row - 1)))

section

variable {heap : Address → EncodedView} {tables : List EncodedCompilationTableBinding}
    {table : EncodedCompilationTableBinding}
  {route : Route Address Bytes32} {columns : EncodedColumns}

/-- Every table is read, and those that are not dropped become segments. -/
theorem mem_compilationSegments {segments : List EncodedCompilationSegment}
    (built : compilationSegments tables = .ok segments) :
    (∀ table ∈ tables, ∃ columns, table.bindings.columns = .ok columns) ∧
      ∀ segment, segment ∈ segments ↔ ∃ table ∈ tables, table.selection ≠ .dropped ∧ ∃ columns,
        table.bindings.columns = .ok columns ∧
        segment = ⟨columns, table.selection.mode, table.selection.postingBytes, encodedScopeMap table.scopeMap⟩ := by
  induction tables generalizing segments with
  | nil =>
    obtain rfl := Except.ok.inj built
    exact ⟨fun _ member => absurd member List.not_mem_nil, fun segment =>
      ⟨fun member => absurd member List.not_mem_nil, fun found => absurd found.choose_spec.1 List.not_mem_nil⟩⟩
  | cons table rest ih =>
    simp only [compilationSegments, CoreResult.bind_ok] at built
    obtain ⟨columns, read, later, laterBuilt, same⟩ := built
    obtain rfl := Except.ok.inj same
    obtain ⟨reads, members⟩ := ih laterBuilt
    refine ⟨List.forall_mem_cons.mpr ⟨⟨columns, read⟩, reads⟩, fun segment => ?_⟩
    rw [List.exists_mem_cons_iff, ← members segment]
    split
    · next dropped => exact ⟨.inr, fun found => found.resolve_left fun here => here.1 dropped⟩
    · next kept =>
      rw [List.mem_cons]
      refine or_congr ⟨fun same => ⟨kept, columns, read, same⟩, fun found => ?_⟩ Iff.rfl
      obtain ⟨_, other, otherRead, same⟩ := found
      obtain rfl := Except.ok.inj (read.symm.trans otherRead)
      exact same

theorem EncodedSegment.selection_below (segment : EncodedSegment) : segment.selection.Below (2 ^ 32) := by
  have rows : ∀ data, ∀ row ∈ (rootPostings data).toFinset, row < 2 ^ 32 := by
    intro data row member
    obtain ⟨index, _, rfl⟩ := List.mem_map.mp (List.mem_toFinset.mp member)
    have short : ((data.drop (index * 4)).take 4).length ≤ 4 := List.length_take_le _ _
    exact (Bytes.ofLittleEndian_lt _).trans_le (Nat.pow_le_pow_right (by decide) short)
  rw [EncodedSegment.selection]
  split
  · exact rows _
  · exact rows _
  · trivial

/-- The references between views select by 32-bit rows. -/
theorem layers_below {above : Address} {step : Step Address Bytes32} (member : step ∈ (layers heap above).steps) :
    step.selection.Below (2 ^ 32) := by
  obtain ⟨segment, _, found⟩ := List.mem_filterMap.mp member
  rw [EncodedSegment.step] at found
  split at found
  · obtain ⟨source, _, rfl⟩ := Option.map_eq_some_iff.mp found
    exact segment.selection_below
  · cases found

/-- A plan that selects all the rows above a bound, or none, has its postings below. -/
theorem EncodedRootPlan.postings_small {plan : EncodedRootPlan} {kept : Bool}
    (above : ∀ row, 2 ^ 32 ≤ row → plan.selects row = kept) : ∀ posting ∈ plan.postings, posting < 2 ^ 32 := by
  intro posting member
  by_contra high
  obtain ⟨bound, inside⟩ := Finset.exists_nat_subset_range plan.postings
  have far : max bound (2 ^ 32) ∉ plan.postings := fun found =>
    absurd (Finset.mem_range.mp (inside found)) (Nat.not_lt.mpr (le_max_left _ _))
  have same := (above posting (Nat.not_lt.mp high)).trans (above _ (le_max_right bound (2 ^ 32))).symm
  cases plan with
  | all => exact absurd member (Finset.notMem_empty _)
  | dropped => exact absurd member (Finset.notMem_empty _)
  | including postings => exact far (of_decide_eq_true (same.symm.trans (decide_eq_true member)))
  | excluding postings => exact of_decide_eq_true (same.trans (decide_eq_true far)) member

theorem rootKeyOf_eq {view : Address}
    (found : (EncodedBufferBindings.fromView (heap view) >>= EncodedBufferBindings.columns) = .ok columns)
    (mode : Option EncodedPostingMode) (postings : List UInt8) (scopeMap : ScopeMap) (root : Nat) :
    rootKeyOf heap ⟨view, root + 1, scopeMap.rename⟩ =
      (EncodedCompilationSegment.mk columns mode postings (encodedScopeMap scopeMap)).rootKey root := by
  rw [EncodedCompilationSegment.rootKey, EncodedCompilationSegment.rescoped, EncodedCompilationSegment.nodeCount,
    EncodedColumns.rescoped_encoded, rootKeyOf]
  dsimp only
  rw [found]
  rfl

/-- The segment of a table adds what the roots of its route stand for. -/
theorem BindsRoute.rootKeys_iff (binds : BindsRoute heap table route) (ends : (layers heap route.view).own.isSome)
    (steps : ∀ step ∈ route.steps, ∃ above, step ∈ (layers heap above).steps)
    (read : table.bindings.columns = .ok columns)
    (kept : table.selection ≠ .dropped) (aligned : columns.rootIds.length = columns.rootKinds.length * 4)
    (key : Nat × List UInt8) :
    key ∈ (EncodedCompilationSegment.mk columns table.selection.mode table.selection.postingBytes
      (encodedScopeMap table.scopeMap)).rootKeys ↔ ∃ root ∈ tableRoots heap table, rootKeyOf heap root = key := by
  have small : ∀ posting ∈ table.selection.postings, posting < 2 ^ 32 := by
    obtain ⟨all, above⟩ := keeps_above fun step member => (steps step member).elim fun _ inside => layers_below inside
    exact EncodedRootPlan.postings_small fun row high => (binds.selects row).trans (above row high)
  have found : (EncodedBufferBindings.fromView (heap table.viewId) >>= EncodedBufferBindings.columns) =
    .ok columns := by
    rw [binds.viewId]
    exact CoreResult.bind_ok.mpr ⟨_, binds.bindings, read⟩
  have count : ((layers heap table.viewId).own).getD 0 = columns.rootKinds.length := by
    rw [← binds.viewId, layers, EncodedView.layer] at ends
    rw [layers, EncodedView.layer]
    dsimp only at ends ⊢
    split at ends
    · next own =>
      rw [if_pos own, Option.getD_some, EncodedView.rootCount, found]
      dsimp only
      rw [aligned, Nat.mul_div_cancel _ (by decide)]
    · cases ends
  have chooses := EncodedRootPlan.selects_chosen kept small columns (encodedScopeMap table.scopeMap)
  constructor
  · rintro ⟨root, within, chosen, rfl⟩
    rw [chooses] at chosen
    have inside : root + 1 ∈ List.range' 1 (((layers heap table.viewId).own).getD 0) := by
      rw [count, List.mem_range'_1]
      change root < columns.rootKinds.length at within
      omega
    refine ⟨⟨table.viewId, root + 1, table.scopeMap.rename⟩, List.mem_map.mpr ⟨⟨table.viewId, root + 1, id⟩,
      List.mem_filter.mpr ⟨List.mem_map.mpr ⟨root + 1, inside, rfl⟩, chosen⟩, rfl⟩, rootKeyOf_eq found _ _ _ root⟩
  · rintro ⟨_, member, rfl⟩
    obtain ⟨own, inside, rfl⟩ := List.mem_map.mp member
    obtain ⟨inside, chosen⟩ := List.mem_filter.mp inside
    obtain ⟨row, bounds, rfl⟩ := List.mem_map.mp inside
    rw [count, List.mem_range'_1] at bounds
    obtain ⟨root, rfl⟩ := Nat.exists_eq_add_of_le' bounds.1
    have within : root < columns.rootKinds.length := by omega
    exact ⟨root, within, (chooses root).trans chosen, (rootKeyOf_eq found _ _ _ root).symm⟩

theorem exists_of_mem_left {α β : Type} {R : α → β → Prop} {left : List α} {right : List β}
    (related : List.Forall₂ R left right)
    {first : α} (member : first ∈ left) : ∃ second ∈ right, R first second := by
  induction related with
  | nil => cases member
  | cons here _ ih =>
    obtain rfl | later := List.mem_cons.mp member
    · exact ⟨_, .head _, here⟩
    · obtain ⟨second, inside, holds⟩ := ih later
      exact ⟨second, .tail _ inside, holds⟩

variable {β : Type} {sort : UnstableSort} {compiler : RootCompiler β} {resolver after : CompositeResolver}
    {view : Address}
  {resolved : ResolvedEncodedView} {spent later : Nat} {result : β × Option EncodedSemanticFingerprints}

/-- What the segments of a resolved view add is what the roots of the view stand for. -/
theorem compileResolvedTables_takes (reached : Reached heap resolver)
    (accepts : resolve heap view resolver = (.ok resolved, after) ∨
      resolveTop heap view resolver = (.ok resolved, after))
    (run : compileResolvedTables sort compiler resolved.tables spent = (.ok result, later)) :
    ∃ grounded : Acc (Source (layers heap)) view, ∃ segments tables taken merged,
      Compiled compiler segments true tables taken merged ∧
      result.1 = merged.builder ∧ result.2.isSome ∧ (∀ fingerprints ∈ result.2, Digests segments fingerprints) ∧
      unionOf EncodedCompilationSegment.rootKeys segments =
        {key | ∃ root ∈ roots (layers heap) view grounded, rootKeyOf heap root = key} := by
  obtain ⟨-, grounded, bound⟩ := evaluates_of_accepts reached accepts
  have returns : Returns (compileResolvedTables sort compiler resolved.tables) fun result =>
    ∃ segments tables taken merged,
      compilationSegments resolved.tables = .ok segments ∧ Compiled compiler segments true tables taken merged ∧
      result.1 = merged.builder ∧
        result.2.isSome ∧ ∀ fingerprints ∈ result.2, Digests segments fingerprints :=
    .check_bind fun segments built spent result later run => by
      obtain ⟨tables, taken, merged, compiled, same, wanted, digests⟩ :=
        (compileEncodedSegments_settles sort compiler segments .default true spent).1 result later run
      exact ⟨segments, tables, taken, merged, built, compiled, same, wanted, digests⟩
  obtain ⟨segments, tables, taken, merged, built, compiled, same, wanted, digests⟩ := returns spent result later run
  obtain ⟨reads, members⟩ := mem_compilationSegments built
  have rows : resolved.tables.flatMap (tableRoots heap) = roots (layers heap) view grounded := by
    rw [flatMap_tableRoots bound, roots_eq_flatMap]
  refine ⟨grounded, segments, tables, taken, merged, compiled, same, wanted, digests, ?_⟩
  ext key
  constructor
  · rintro ⟨segment, member, inside⟩
    obtain ⟨table, tableIn, kept, columns, read, rfl⟩ := (members segment).mp member
    obtain ⟨route, routeIn, binds⟩ := exists_of_mem_left bound tableIn
    obtain ⟨ends, steps⟩ := of_mem_routes routeIn
    obtain ⟨opened, opens⟩ := compiled.ready _ member
    obtain ⟨root, rootIn, same⟩ := (binds.rootKeys_iff ends steps read kept opens.aligned key).mp inside
    exact ⟨root, rows ▸ List.mem_flatMap.mpr ⟨table, tableIn, rootIn⟩, same⟩
  · rintro ⟨root, member, same⟩
    rw [← rows] at member
    obtain ⟨table, tableIn, rootIn⟩ := List.mem_flatMap.mp member
    by_cases dropped : table.selection = .dropped
    · obtain ⟨own, inside, _⟩ := List.mem_map.mp rootIn
      have chosen := (List.mem_filter.mp inside).2
      rw [dropped] at chosen
      cases chosen
    · obtain ⟨columns, read⟩ := reads table tableIn
      have segmentIn := (members _).mpr ⟨table, tableIn, dropped, columns, read, rfl⟩
      obtain ⟨route, routeIn, binds⟩ := exists_of_mem_left bound tableIn
      obtain ⟨ends, steps⟩ := of_mem_routes routeIn
      obtain ⟨opened, opens⟩ := compiled.ready _ segmentIn
      exact ⟨_, segmentIn, (binds.rootKeys_iff ends steps read dropped opens.aligned key).mpr ⟨root, rootIn, same⟩⟩

/-- A view is resolved and compiled as what it stands for: the roots that are taken in are, each once and in order,
those of the view as its layers are evaluated one on another, with their scopes renamed on the way. -/
theorem compileResolvedTables_exact (reached : Reached heap resolver)
    (accepts : resolve heap view resolver = (.ok resolved, after) ∨
      resolveTop heap view resolver = (.ok resolved, after))
    (run : compileResolvedTables sort compiler resolved.tables spent = (.ok result, later)) :
    ∃ grounded : Acc (Source (layers heap)) view, ∃ segments tables taken kept,
      Compilation compiler segments tables taken kept result.1 ∧
      Listing compareKeys {key | ∃ root ∈ roots (layers heap) view grounded, rootKeyOf heap root = key}
        (taken.map (segmentKey tables)) := by
  obtain ⟨grounded, segments, tables, taken, merged, compiled, same, _, _, keys⟩ :=
    compileResolvedTables_takes reached accepts run
  have takes := compiled.compilation.takes
  rw [keys] at takes
  rw [same]
  exact ⟨grounded, segments, tables, taken, _, compiled.compilation, takes⟩

variable {γ : Type} {otherHeap : Address → EncodedView} {otherSort : UnstableSort} {otherCompiler : RootCompiler γ}
  {otherResolver otherAfter : CompositeResolver} {otherView : Address} {otherResolved : ResolvedEncodedView}
  {otherSpent otherLater : Nat}
  {otherResult : γ × Option EncodedSemanticFingerprints}

/-- Views that stand for the same roots are compiled alike and have the same fingerprints, however they are layered,
and whatever has been resolved before. -/
theorem compileResolvedTables_extensional (reached : Reached heap resolver)
    (otherReached : Reached otherHeap otherResolver)
    (accepts : resolve heap view resolver = (.ok resolved, after) ∨
      resolveTop heap view resolver = (.ok resolved, after))
    (otherAccepts : resolve otherHeap otherView otherResolver = (.ok otherResolved, otherAfter) ∨
      resolveTop otherHeap otherView otherResolver = (.ok otherResolved, otherAfter))
    (run : compileResolvedTables sort compiler resolved.tables spent = (.ok result, later))
    (otherRun : compileResolvedTables otherSort otherCompiler otherResolved.tables otherSpent =
      (.ok otherResult, otherLater))
    (standsForSame : ∀ grounded otherGrounded,
      {key | ∃ root ∈ roots (layers heap) view grounded, rootKeyOf heap root = key} =
      {key | ∃ root ∈ roots (layers otherHeap) otherView otherGrounded, rootKeyOf otherHeap root = key}) :
    (∃ tables kept otherTables otherKept, compiler.compileRoots tables kept = .ok result.1 ∧
      otherCompiler.compileRoots otherTables otherKept = .ok otherResult.1 ∧
      kept.map (segmentKey tables) = otherKept.map (segmentKey otherTables)) ∧ result.2 = otherResult.2 := by
  obtain ⟨grounded, segments, tables, taken, merged, compiled, same, wanted, digests, keys⟩ :=
    compileResolvedTables_takes reached accepts run
  obtain ⟨otherGrounded, others, otherTables, otherTaken, otherMerged, otherCompiled, otherSame, otherWanted,
    otherDigests, otherKeys⟩ :=
    compileResolvedTables_takes otherReached otherAccepts otherRun
  have equal : unionOf EncodedCompilationSegment.rootKeys segments =
    unionOf EncodedCompilationSegment.rootKeys others := by
    rw [keys, otherKeys, standsForSame grounded otherGrounded]
  constructor
  · rw [same, otherSame]
    exact ⟨tables, _, otherTables, _, compiled.compilation.compiles, otherCompiled.compilation.compiles,
      compiled.resegmented otherCompiled equal⟩
  · obtain ⟨fingerprints, found⟩ := Option.isSome_iff_exists.mp wanted
    obtain ⟨otherFingerprints, otherFound⟩ := Option.isSome_iff_exists.mp otherWanted
    rw [found, otherFound]
    exact congrArg some ((digests fingerprints found).of_keys compiled.ready otherCompiled.ready equal
      (otherDigests otherFingerprints otherFound))

end

/-- A view of a table. -/
def tableView (address : Address) (columns : EncodedColumns) (segments : List EncodedSegment) : EncodedView where
  envelope := .ok 2
  owner := some address
  ownerModelSchema := .ok 2
  buffers := some
    (some ([("root_kinds", columns.rootKinds), ("root_ids", columns.rootIds), ("node_tags", columns.nodeTags),
    ("node_field_offsets", columns.nodeFieldOffsets), ("field_kinds", columns.fieldKinds),
    ("field_values", columns.fieldValues),
    ("field_lengths", columns.fieldLengths), ("item_kinds", columns.itemKinds), ("item_values", columns.itemValues),
    ("item_lengths", columns.itemLengths), ("scalar_bytes", columns.scalarBytes)].map fun column =>
      (column.1, .memoryview ⟨true, 1, 1, true, "B", column.2⟩)))
  segments := some (some segments)
  fingerprint := .ok ()

/-- An overlay that takes the first root out of a view of declarations. -/
def declarationHeap : Address → EncodedView
  | 1 => tableView 1 AcceptedTable.annotatedDeclarations.columns
      [⟨some (.int 1), some (.int 0), some 1, some none, some .none, plainBuffer [], plainBuffer []⟩]
  | address => plainView address []
      [⟨some (.int 2), some (.int 2), some 1, some (some 1), some .none, plainBuffer [1, 0, 0, 0],
        plainBuffer (List.replicate 32 1 ++ List.replicate 32 2)⟩]

theorem exists_compiled {β : Type} {compiler : RootCompiler β} {heap : Address → EncodedView} {view : Address}
    {resolver : CompositeResolver}
    (ran : (resolveTop heap view resolver).1.toOption.any fun resolved =>
      (compileResolvedTables insertionSort compiler resolved.tables 0).1.toOption.isSome) :
    ∃ resolved after result later, resolveTop heap view resolver = (.ok resolved, after) ∧
      compileResolvedTables insertionSort compiler resolved.tables 0 = (.ok result, later) := by
  cases accepts : resolveTop heap view resolver with
  | mk outcome after =>
    rw [accepts] at ran
    cases outcome with
    | error raised => cases ran
    | ok resolved =>
      obtain ⟨result, later, run⟩ := exists_result ran
      exact ⟨resolved, after, result, later, rfl, run⟩

theorem compileResolvedTables_exact_declarations : ∃ resolved after result later,
    resolveTop declarationHeap 2 (.new 2 2) = (.ok resolved, after) ∧
    compileResolvedTables insertionSort listingCompiler resolved.tables 0 = (.ok result, later) ∧
    ∃ grounded : Acc (Source (layers declarationHeap)) 2, ∃ segments tables taken kept,
      Compilation listingCompiler segments tables taken kept result.1 ∧
      Listing compareKeys {key | ∃ root ∈ roots (layers declarationHeap) 2 grounded,
        rootKeyOf declarationHeap root = key}
        (taken.map (segmentKey tables)) := by
  have ran : (resolveTop declarationHeap 2 (.new 2 2)).1.toOption.any fun resolved =>
      (compileResolvedTables insertionSort listingCompiler resolved.tables 0).1.toOption.isSome := by decide +kernel
  obtain ⟨resolved, after, result, later, accepts, run⟩ := exists_compiled ran
  exact ⟨resolved, after, result, later, accepts, run, compileResolvedTables_exact (.new 2 2) (.inr accepts) run⟩

/-- The builder that counts what it takes in. -/
def countingCompiler : RootCompiler Nat where
  start := 0
  compileRoot _ _ count := .ok (count + 1)

/-- A scope of one byte, and what it is renamed to. -/
def scopeRow (source target : UInt8) : List UInt8 := List.replicate 32 source ++ List.replicate 32 target

/-- Of a view of two assertions the first is taken out, and the scope of the second renamed: in one layer, or in two
that hand the scope on to each other. -/
def assertionHeap : Address → EncodedView
  | 1 => tableView 1 AcceptedTable.anonymousAssertions.columns
      [⟨some (.int 1), some (.int 0), some 1, some none, some .none, plainBuffer [], plainBuffer []⟩]
  | 3 => plainView 3 []
      [⟨some (.int 2), some (.int 2), some 1, some (some 1), some .none, plainBuffer [1, 0, 0, 0],
        plainBuffer (scopeRow 2 5)⟩]
  | 4 => plainView 4 []
      [⟨some (.int 2), some (.int 0), some 3, some (some 3), some .none, plainBuffer [], plainBuffer (scopeRow 5 9)⟩]
  | address => plainView address []
      [⟨some (.int 2), some (.int 2), some 1, some (some 1), some .none, plainBuffer [1, 0, 0, 0],
        plainBuffer (scopeRow 2 9)⟩]

/-- What a root of the assertions stands for is told by its row, and by what its renaming makes of them. -/
def renamedAssertion (root : Root Address Bytes32) : Address × Nat × EncodedColumns :=
  (root.view, root.row, AcceptedTable.anonymousAssertions.columns.renamed root.rename)

theorem rootKeyOf_assertion {root other : Root Address Bytes32} (inside : root.view = 1)
    (same : renamedAssertion root = renamedAssertion other) :
    rootKeyOf assertionHeap root = rootKeyOf assertionHeap other := by
  have read : (EncodedBufferBindings.fromView (assertionHeap 1) >>= EncodedBufferBindings.columns) =
      .ok AcceptedTable.anonymousAssertions.columns := by rfl
  obtain ⟨views, rows, renamed⟩ : root.view = other.view ∧ root.row = other.row ∧
      AcceptedTable.anonymousAssertions.columns.renamed root.rename =
        AcceptedTable.anonymousAssertions.columns.renamed other.rename := by
    simpa only [renamedAssertion, Prod.mk.injEq] using same
  rw [rootKeyOf, rootKeyOf, ← views, inside, read]
  change (_, _) = (_, _)
  rw [rows, renamed]

/-- Views of the assertions whose roots are the same rows, renamed alike, stand for the same. -/
theorem assertions_standForSame {taken others : List (Root Address Bytes32)} (inside : ∀ root ∈ taken, root.view = 1)
    (same : taken.map renamedAssertion = others.map renamedAssertion) :
    {key | ∃ root ∈ taken, rootKeyOf assertionHeap root = key} =
    {key | ∃ root ∈ others, rootKeyOf assertionHeap root = key} := by
  ext key
  constructor
  · rintro ⟨root, member, rfl⟩
    obtain ⟨other, found, equal⟩ := List.mem_map.mp (same ▸ List.mem_map_of_mem member)
    exact ⟨other, found, (rootKeyOf_assertion (inside root member) equal.symm).symm⟩
  · rintro ⟨other, member, rfl⟩
    obtain ⟨root, found, equal⟩ := List.mem_map.mp (same.symm ▸ List.mem_map_of_mem member)
    exact ⟨root, found, rootKeyOf_assertion (inside root found) equal⟩

/-- One layer for one builder, and two layers for another, with a resolver that has resolved the first view before. -/
theorem compileResolvedTables_extensional_assertions :
    ∃ resolved after result later otherResolved otherAfter otherResult otherLater,
    resolveTop assertionHeap 2 (.new 2 2) = (.ok resolved, after) ∧
    compileResolvedTables insertionSort listingCompiler resolved.tables 0 = (.ok result, later) ∧
    resolveTop assertionHeap 4 after = (.ok otherResolved, otherAfter) ∧
    compileResolvedTables insertionSort countingCompiler otherResolved.tables 0 = (.ok otherResult, otherLater) ∧
    result.2 = otherResult.2 := by
  have ran : (resolveTop assertionHeap 2 (.new 2 2)).1.toOption.any fun resolved =>
      (compileResolvedTables insertionSort listingCompiler resolved.tables 0).1.toOption.isSome := by decide +kernel
  have again : (resolveTop assertionHeap 4 (resolveTop assertionHeap 2 (.new 2 2)).2).1.toOption.any fun resolved =>
      (compileResolvedTables insertionSort countingCompiler resolved.tables 0).1.toOption.isSome := by decide +kernel
  have layered : (resolveTop assertionHeap 2 (.new 2 2)).1.toOption.all fun resolved =>
      (resolveTop assertionHeap 4 (resolveTop assertionHeap 2 (.new 2 2)).2).1.toOption.all fun other =>
        decide ((resolved.tables.flatMap (tableRoots assertionHeap)).map renamedAssertion =
          (other.tables.flatMap (tableRoots assertionHeap)).map renamedAssertion) &&
        (resolved.tables.flatMap (tableRoots assertionHeap)).all fun root => root.view = 1 := by decide +kernel
  obtain ⟨resolved, after, result, later, accepts, run⟩ := exists_compiled ran
  rw [accepts] at again layered
  obtain ⟨otherResolved, otherAfter, otherResult, otherLater, otherAccepts, otherRun⟩ := exists_compiled again
  rw [otherAccepts] at layered
  have reached : Reached assertionHeap after := .resolveTop (.new 2 2) accepts
  obtain ⟨_, _, rows⟩ := resolver_evaluates (.new 2 2) (.inr accepts)
  obtain ⟨_, _, otherRows⟩ := resolver_evaluates reached (.inr otherAccepts)
  have facts : _ ∧ _ := (Bool.and_eq_true _ _).mp layered
  refine ⟨resolved, after, result, later, otherResolved, otherAfter, otherResult, otherLater, accepts, run,
    otherAccepts, otherRun,
    (compileResolvedTables_extensional (.new 2 2) reached (.inr accepts) (.inr otherAccepts) run otherRun
      fun _ _ => ?_).2⟩
  rw [← rows, ← otherRows]
  exact assertions_standForSame (fun root member => of_decide_eq_true (List.all_eq_true.mp facts.2 root member))
    (of_decide_eq_true facts.1)

end PyElk.Native
