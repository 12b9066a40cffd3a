import PyElk.Native.SegmentCompilation
import PyElk.Native.SegmentOrder

open Raising Lexicographic Merging

namespace PyElk.Native

/-- The constructors of axioms and extensions end in their annotations. -/
theorem annotations_last {kind tag : Nat} {roles : List FieldRole} (accepts : rootAccepts kind tag)
    (kinds : kind = ROOT_AXIOM ∨ kind = ROOT_EXTENSION) (known : constructorRoles tag = some roles) :
    roles.getLast? = some (.set .annotation_) := by
  have ledger : ∀ tag < 149, rootAccepts ROOT_AXIOM tag ∨ rootAccepts ROOT_EXTENSION tag →
      (constructorRoles tag).bind List.getLast? = some (.set .annotation_) := by decide
  have accepted : rootAccepts ROOT_AXIOM tag ∨ rootAccepts ROOT_EXTENSION tag := by
    obtain rfl | rfl := kinds
    · exact .inl accepts
    · exact .inr accepts
  have small : tag < 149 := by
    obtain axiom_ | extension := accepted
    · obtain ⟨range, member, between⟩ := List.any_eq_true.mp axiom_
      have bounded : ∀ range ∈ [(60, 64), (70, 82), (90, 95), (100, 101), (110, 116), (120, 123)], range.2 < 149 := by
        decide
      rw [Bool.and_eq_true, decide_eq_true_eq, decide_eq_true_eq] at between
      exact between.2.trans_lt (bounded range member)
    · rw [of_decide_eq_true extension]
      decide
  have found := ledger tag small accepted
  rw [known] at found
  exact found

section

variable {tables : List CompilableSegment} {reference other : SegmentRootRef} {table otherTable : CompilableSegment}
    {maxWork : Nat}

/-- What a root stands for but for its annotations. -/
noncomputable def segmentPrefix (tables : List CompilableSegment) (reference : SegmentRootRef) : List UInt8 :=
  (tables[reference.table]?).elim [] fun table => table.mappedColumns.logicalPrefix (table.rootNode reference.root)

/-- A root that ends in annotations. -/
structure AnnotatedRoot (tables : List CompilableSegment) (reference : SegmentRootRef)
    (table : CompilableSegment) : Prop
    extends KnownRoot tables reference table where
  annotated : table.columns.rootKind reference.root = ROOT_AXIOM ∨
    table.columns.rootKind reference.root = ROOT_EXTENSION

theorem KnownRoot.segmentPrefix (known : KnownRoot tables reference table) :
    segmentPrefix tables reference = table.mappedColumns.logicalPrefix (table.rootNode reference.root) := by
  rw [PyElk.Native.segmentPrefix, known.found]
  rfl

/-- The annotations are the last field, a set. -/
theorem AnnotatedRoot.annotations (root : AnnotatedRoot tables reference table) :
    0 < table.columns.arity (table.rootNode reference.root) ∧
      (table.columns.field (table.columns.offsetOf (table.rootNode reference.root) +
        (table.columns.arity (table.rootNode reference.root) - 1))).kind = COMPONENT_SET := by
  have within : table.rootNode reference.root < table.nodeCount := root.ready.count ▸ root.rootNode_lt
  obtain ⟨roles, known, arity, plays⟩ := root.ready.conforms _ within
  have last := annotations_last root.row.accepts root.annotated known
  have nonempty : roles ≠ [] := by
    intro empty
    rw [empty] at last
    cases last
  have positive := List.length_pos_iff.mpr nonempty
  rw [List.getLast?_eq_getElem?] at last
  rw [arity]
  exact ⟨positive, (plays _ _ last).1⟩

theorem componentParts_kind {columns : EncodedColumns} {index : Nat} {parts : Nat × Nat × Nat}
    (read : componentParts (.field index) columns = .ok parts) (name : String) :
    byteAt columns.fieldKinds index name = .ok (columns.fieldKinds.getD index 0) := by
  simp only [componentParts, CoreResult.bind_ok] at read
  obtain ⟨kind, found, _⟩ := read
  rw [EncodedColumns.getD_of_byteAt found]
  exact EncodedColumns.byteAt_named found

/-- The fields in front of the annotations are all but the last one. -/
theorem AnnotatedRoot.annotationLimit (root : AnnotatedRoot tables reference table) (reversed : String) :
    annotationLimit (table.rootNode reference.root)
      (table.columns.offsetOf (table.rootNode reference.root)) table.mappedColumns reversed =
      .ok (table.columns.arity (table.rootNode reference.root) - 1) := by
  obtain ⟨positive, set⟩ := root.annotations
  have within := root.rootNode_lt
  have ordered : table.columns.offsetOf (table.rootNode reference.root) ≤ table.columns.offsetOf
    (table.rootNode reference.root + 1) :=
    root.ready.sound.ordered _ within
  have width : table.columns.arity (table.rootNode reference.root) =
      table.columns.offsetOf (table.rootNode reference.root + 1) - table.columns.offsetOf
        (table.rootNode reference.root) := rfl
  have last : table.columns.offsetOf
    (table.rootNode reference.root) + (table.columns.arity (table.rootNode reference.root) - 1) =
      table.columns.offsetOf (table.rootNode reference.root + 1) - 1 := by omega
  have ended := root.ready.sound.end_ _ within
  have small := (uintAt_ok.mp ended).1.1
  have field :=
    root.ready.sound.field _ within _ (Nat.le_add_right _ (table.columns.arity (table.rootNode reference.root) - 1))
    (Nat.add_lt_add_left (Nat.sub_lt positive Nat.one_pos) _)
  change table.mappedColumns.LegalField _ (table.columns.offsetOf (table.rootNode reference.root) +
    (table.columns.arity (table.rootNode reference.root) - 1)) at field
  rw [last] at set field
  have kind := componentParts_kind field.read "annotation field kind"
  rw [PyElk.Native.annotationLimit, CoreResult.bind_ok]
  refine ⟨table.columns.offsetOf (table.rootNode reference.root + 1) - 1, ?_, ?_⟩
  · rw [annotationField, CoreResult.bind_ok]
    refine ⟨_, root.start _,
      CoreResult.bind_ok.mpr ⟨_, okOr_ok.mpr (if_pos (by omega)),
        CoreResult.bind_ok.mpr ⟨_, uintAt_named ended _, ?_⟩⟩⟩
    refine CoreResult.bind_ok.mpr ⟨(), refuse_of_not ?_ _, CoreResult.bind_ok.mpr ⟨(), refuse_of_not ?_ _, ?_⟩⟩
    · change ¬ table.columns.offsetOf (table.rootNode reference.root + 1) = 0
      omega
    · change ¬ table.columns.offsetOf (table.rootNode reference.root + 1) - 1 < _
      omega
    · refine CoreResult.bind_ok.mpr ⟨_, kind, CoreResult.bind_ok.mpr ⟨(), refuse_of_not (not_not.mpr set) _, rfl⟩⟩
  · rw [CoreResult.bind_ok]
    refine ⟨(), refuse_of_not (by omega) _, ?_⟩
    rw [width]
    exact congrArg Except.ok (by omega)

/-- A root repeats another one when they are the same but for their annotations. -/
theorem repeatsRoot_settles (known : KnownRoot tables reference table) (root : AnnotatedRoot tables other otherTable)
    (missing name : String) :
    Settles (repeatsRoot reference (otherTable.rootNode other.root) otherTable
      (otherTable.columns.arity (otherTable.rootNode other.root) - 1) tables missing name maxWork)
      (· = decide (segmentPrefix tables reference = segmentPrefix tables other)) OutOfWork := by
  refine .check_ok (okOr_ok.mpr known.found) (.check_ok (known.node _) ?_)
  obtain ⟨cost, _, gives⟩ := @EncodedColumns.Sound.compareBetween_gives table.mappedColumns otherTable.mappedColumns
    table.canonicalLengths otherTable.canonicalLengths (table.rootNode reference.root)
      (otherTable.rootNode other.root)
    known.ready.sound root.ready.sound known.rootNode_lt root.rootNode_lt
    (some (otherTable.columns.arity (otherTable.rootNode other.root) - 1)) (fun limit same tags => by
      rw [known.ready.sound.arity_eq root.ready.sound known.rootNode_lt root.rootNode_lt tags, ← Option.some.inj same]
      exact Nat.sub_le _ _) maxWork
  refine .bind gives.settles fun ordering same => .pure ?_
  rw [same, known.segmentPrefix, root.segmentPrefix, decide_eq_decide]
  exact known.ready.sound.logicalPrefix_eq_iff root.ready.sound known.rootNode_lt root.rootNode_lt

/-- A root is added to those that have been observed, unless it repeats the last one. -/
theorem observeStrippedRoot_settles {roots : List SegmentRootRef}
    (known : ∀ previous ∈ roots, ∃ table, KnownRoot tables previous table)
    (root : AnnotatedRoot tables reference table) :
    Settles (observeStrippedRoot roots reference tables maxWork)
      (· = keepFirst (segmentPrefix tables) roots reference) OutOfWork := by
  refine .check_ok (okOr_ok.mpr root.found)
    (.check_ok (root.node _) (.check_ok (root.start _) (.check_ok (root.annotationLimit _) ?_)))
  rw [keepFirst]
  split
  · next unobserved =>
    rw [unobserved]
    exact .pure rfl
  · next previous last =>
    obtain ⟨previousTable, before⟩ := known previous (List.mem_of_getLast? last)
    refine .bind (repeatsRoot_settles before root _ _) fun repeated same => .pure ?_
    rw [last, same, Option.map_some]
    by_cases equal : segmentPrefix tables previous = segmentPrefix tables reference
    · rw [decide_eq_true equal, if_pos rfl, if_pos (congrArg some equal)]
    · rw [decide_eq_false equal, if_neg Bool.false_ne_true, if_neg fun same => equal (Option.some.inj same)]

/-- Whether a root is an axiom that is compiled once for all its annotations; those about annotations are not. -/
def compiledOnce (tables : List CompilableSegment) (reference : SegmentRootRef) : Bool :=
  (tables[reference.table]?).any fun table =>
    table.columns.rootKind reference.root = ROOT_AXIOM &&
      !(120 ≤ table.columns.tagOf (table.rootNode reference.root) && table.columns.tagOf
        (table.rootNode reference.root) ≤ 123)

open Classical in
/-- A root is compiled, unless it is an axiom that repeats the last one. -/
noncomputable def keepRoot (tables : List CompilableSegment) (kept : List SegmentRootRef)
    (reference : SegmentRootRef) : List SegmentRootRef :=
  if compiledOnce tables reference ∧ (kept.filter (compiledOnce tables)).getLast?.map (segmentPrefix tables) =
      some (segmentPrefix tables reference) then kept
  else kept ++ [reference]

/-- The builder that takes roots in, one after another. -/
def RootCompiler.compileRoots {β : Type} (compiler : RootCompiler β) (tables : List CompilableSegment)
    (roots : List SegmentRootRef) :
    CoreResult β :=
  roots.foldlM (fun builder root => do
    let table ← okOr (.internal "encoded segment root table is out of bounds") tables[root.table]?
    compiler.compileRoot root table builder) compiler.start

/-- What the builder raises on a root, once it has taken in those in front of it. -/
def RootCompiler.FailsOn {β : Type} (compiler : RootCompiler β) (tables : List CompilableSegment)
    (kept : List SegmentRootRef)
    (reference : SegmentRootRef) (error : CoreError) : Prop :=
  ∃ table builder, tables[reference.table]? = some table ∧ compiler.compileRoots tables kept = .ok builder ∧
    compiler.compileRoot reference table builder = .error error

theorem RootCompiler.compileRoots_concat {β : Type} {compiler : RootCompiler β} {roots : List SegmentRootRef}
    {builder later : β}
    (found : tables[reference.table]? = some table) (before : compiler.compileRoots tables roots = .ok builder)
    (compiled : compiler.compileRoot reference table builder = .ok later) :
    compiler.compileRoots tables (roots ++ [reference]) = .ok later := by
  rw [compileRoots, List.foldlM_append, CoreResult.bind_ok]
  refine ⟨builder, before, ?_⟩
  rw [List.foldlM_cons, CoreResult.bind_ok]
  exact ⟨later, CoreResult.bind_ok.mpr ⟨table, okOr_ok.mpr found, compiled⟩, rfl⟩

/-- The builder takes a root in where it is kept, and the last axiom is that of the roots that are. -/
theorem compileSegmentRoot_settles {β : Type} {compiler : RootCompiler β} {kept : List SegmentRootRef} {builder : β}
    (known : KnownRoot tables reference table) (earlier : ∀ previous ∈ kept, ∃ table, KnownRoot tables previous table)
    (before : compiler.compileRoots tables kept = .ok builder) :
    Settles (compileSegmentRoot compiler reference tables ((kept.filter (compiledOnce tables)).getLast?,
      builder) maxWork)
      (fun later => later.1 = ((keepRoot tables kept reference).filter (compiledOnce tables)).getLast? ∧
        compiler.compileRoots tables (keepRoot tables kept reference) = .ok later.2)
      fun error => OutOfWork error ∨ compiler.FailsOn tables kept reference error := by
  have decided : compiledOnce tables reference = (table.columns.rootKind reference.root = ROOT_AXIOM &&
      !(120 ≤ table.columns.tagOf (table.rootNode reference.root) && table.columns.tagOf
        (table.rootNode reference.root) ≤ 123)) := by
    rw [compiledOnce, known.found]
    rfl
  have taken : Settles (check (compiler.compileRoot reference table builder) : Metering β)
      (fun later => compiler.compileRoots tables (kept ++ [reference]) = .ok later) fun error => OutOfWork error ∨
        compiler.FailsOn tables kept reference error :=
    .check (fun later => RootCompiler.compileRoots_concat known.found before) fun error failed =>
      .inr ⟨_, _, known.found, before, failed⟩
  refine .check_ok (okOr_ok.mpr known.found)
    (.check_ok (known.kind _) (.check_ok (known.node _) (.check_ok (known.tag _) ?_)))
  cases once : compiledOnce tables reference with
  | true =>
    have conditions := decided.symm.trans once
    rw [Bool.and_eq_true, decide_eq_true_eq, Bool.not_eq_true', ← Bool.not_eq_true, Bool.and_eq_true,
      decide_eq_true_eq,
      decide_eq_true_eq] at conditions
    have root : AnnotatedRoot tables reference table := { known with annotated := .inl conditions.1 }
    refine .if_pos conditions (.check_ok (root.start _) (.check_ok (root.annotationLimit _) ?_))
    have listed : ((kept ++ [reference]).filter (compiledOnce tables)).getLast? = some reference := by
      rw [List.filter_append, List.filter_cons_of_pos once, List.filter_nil, List.getLast?_concat]
    cases last : (kept.filter (compiledOnce tables)).getLast? with
    | none =>
      have keeps : keepRoot tables kept reference = kept ++ [reference] := by
        rw [keepRoot, last]
        exact if_neg fun both => nomatch both.2
      have first : Settles (pure false : Metering Bool) (· = false) fun error => OutOfWork error ∨
        compiler.FailsOn tables kept reference error := .pure rfl
      refine .bind first fun repeated same => ?_
      subst same
      refine .bind taken fun later compiled => .pure ?_
      rw [keeps, listed]
      exact ⟨rfl, compiled⟩
    | some previous =>
      obtain ⟨previousTable, front⟩ := earlier previous (List.mem_of_mem_filter (List.mem_of_getLast? last))
      refine .bind ((repeatsRoot_settles front root _ _).weaken (fun _ => id) fun _ => .inl) fun repeated same => ?_
      by_cases equal : segmentPrefix tables previous = segmentPrefix tables reference
      · rw [decide_eq_true equal] at same
        subst same
        have keeps : keepRoot tables kept reference = kept := by
          rw [keepRoot, last]
          exact if_pos ⟨once, congrArg some equal⟩
        refine .pure ?_
        rw [keeps]
        exact ⟨last.symm, before⟩
      · rw [decide_eq_false equal] at same
        subst same
        have keeps : keepRoot tables kept reference = kept ++ [reference] := by
          rw [keepRoot, last]
          exact if_neg fun both => equal (Option.some.inj both.2)
        refine .bind taken fun later compiled => .pure ?_
        rw [keeps, listed]
        exact ⟨rfl, compiled⟩
  | false =>
    have conditions := decided.symm.trans once
    have keeps : keepRoot tables kept reference = kept ++ [reference] := by
      rw [keepRoot]
      exact if_neg fun both => by rw [once] at both; cases both.1
    have unlisted : (kept ++ [reference]).filter (compiledOnce tables) = kept.filter (compiledOnce tables) := by
      rw [List.filter_append, List.filter_cons_of_neg (by rw [once]; decide), List.filter_nil, List.append_nil]
    refine .if_neg (fun both => ?_) (.bind taken fun later compiled => .pure ?_)
    · rw [Bool.and_eq_false_iff, decide_eq_false_iff_not, Bool.not_eq_false', Bool.and_eq_true, decide_eq_true_eq,
        decide_eq_true_eq] at conditions
      exact conditions.elim (fun other => other both.1) both.2
    · rw [keeps, unlisted]
      exact ⟨rfl, compiled⟩

end

end PyElk.Native
