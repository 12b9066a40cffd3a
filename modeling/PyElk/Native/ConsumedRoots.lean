import PyElk.Native.EntityCollection

open Raising Lexicographic Merging

namespace PyElk.Native

/-- Whether a root is an axiom that the logical fingerprint is about. -/
def isLogicalRoot (tables : List CompilableSegment) (reference : SegmentRootRef) : Bool :=
  (tables[reference.table]?).any fun table =>
    table.columns.rootKind reference.root = ROOT_AXIOM && isLogicalAxiomTag
      (table.columns.tagOf (table.rootNode reference.root))

/-- Whether a root is an extension. -/
def isExtensionRoot (tables : List CompilableSegment) (reference : SegmentRootRef) : Bool :=
  (tables[reference.table]?).any fun table => table.columns.rootKind reference.root = ROOT_EXTENSION

open Classical in
/-- One of each run of roots that are the same but for their annotations. -/
noncomputable def strippedRoots (tables : List CompilableSegment) (roots : List SegmentRootRef) :
    List SegmentRootRef :=
  roots.foldl (keepFirst (segmentPrefix tables)) []

/-- The nodes of the roots of a table. -/
def takenNodes (table : CompilableSegment) (index : Nat) (taken : List SegmentRootRef) : List Nat :=
  (taken.filter fun reference => reference.table = index).map fun reference => table.rootNode reference.root

/-- What the fingerprints have seen of the roots that have been taken. -/
structure Observed (tables : List CompilableSegment) (taken : List SegmentRootRef)
    (seen : SegmentedSemanticFingerprints) : Prop where
  logical : seen.logicalRoots = strippedRoots tables (taken.filter (isLogicalRoot tables))
  extension : seen.extensionRoots = strippedRoots tables (taken.filter (isExtensionRoot tables))
  visited : seen.visitedNodes.length = tables.length
  gathered : ∀ (index : Nat) (table : CompilableSegment), tables[index]? = some table →
    table.mappedColumns.Gathered index table.canonicalLengths.length
    (takenNodes table index taken) (seen.visitedNodes.getD index []) seen.entityNodes
  entities : ∀ entity ∈ seen.entityNodes, entity.table < tables.length

/-- The builder has taken in the roots that are kept, and the fingerprints have seen all of them. -/
structure Consumed {β : Type} (compiler : RootCompiler β) (tables : List CompilableSegment) (fingerprinted : Bool)
    (taken : List SegmentRootRef) (merged : Merged β) : Prop where
  previous : merged.previous = ((taken.foldl (keepRoot tables) []).filter (compiledOnce tables)).getLast?
  compiled : compiler.compileRoots tables (taken.foldl (keepRoot tables) []) = .ok merged.builder
  observed : ∀ seen ∈ merged.fingerprints, Observed tables taken seen
  fingerprinted : merged.fingerprints.isSome = fingerprinted

section

variable {tables : List CompilableSegment} {reference : SegmentRootRef} {table : CompilableSegment}
    {taken : List SegmentRootRef} {maxWork : Nat}

open Classical in
theorem strippedRoots_concat (roots : List SegmentRootRef) (reference : SegmentRootRef) :
    strippedRoots tables (roots ++ [reference]) = keepFirst (segmentPrefix tables)
      (strippedRoots tables roots) reference := by
  rw [strippedRoots, List.foldl_append]
  rfl

theorem strippedRoots_subset {roots : List SegmentRootRef} : strippedRoots tables roots ⊆ roots := keepFirst_subset

theorem keepRoot_sublist (taken : List SegmentRootRef) : (taken.foldl (keepRoot tables) []).Sublist taken := by
  induction taken using List.reverseRecOn with
  | nil => exact .refl _
  | append_singleton done reference ih =>
    rw [List.foldl_append, List.foldl_cons, List.foldl_nil, keepRoot]
    split
    · exact ih.trans (List.sublist_append_left done [reference])
    · exact ih.append (.refl [reference])

/-- What is not compiled once for all its annotations is kept. -/
theorem mem_keepRoot {reference : SegmentRootRef} (member : reference ∈ taken)
    (always : compiledOnce tables reference = false) :
    reference ∈ taken.foldl (keepRoot tables) [] := by
  induction taken using List.reverseRecOn with
  | nil => cases member
  | append_singleton done last ih =>
    rw [List.foldl_append, List.foldl_cons, List.foldl_nil, keepRoot]
    obtain before | here := List.mem_append.mp member
    · split
      · exact ih before
      · exact List.mem_append_left _ (ih before)
    · rw [List.mem_singleton.mp here] at always ⊢
      rw [if_neg fun both => by rw [always] at both; cases both.1]
      exact List.mem_append_right _ (.head _)

/-- Of the others one is kept for all that are the same but for their annotations. -/
theorem filter_keepRoot (taken : List SegmentRootRef) :
    (taken.foldl (keepRoot tables) []).filter (compiledOnce tables) = strippedRoots tables
    (taken.filter (compiledOnce tables)) := by
  induction taken using List.reverseRecOn with
  | nil => rfl
  | append_singleton done reference ih =>
    rw [List.foldl_append, List.foldl_cons, List.foldl_nil, keepRoot, List.filter_append, List.filter_singleton]
    cases once : compiledOnce tables reference with
    | true =>
      rw [cond_true, strippedRoots_concat, keepFirst, ← ih]
      split
      · next same => rw [if_pos same.2]
      · next differs =>
          rw [if_neg fun same => differs ⟨rfl, same⟩, List.filter_append, List.filter_singleton, once, cond_true]
    | false =>
      rw [cond_false, List.append_nil, ← ih, if_neg fun both => Bool.false_ne_true both.1, List.filter_append,
        List.filter_singleton, once,
        cond_false, List.append_nil]

theorem takenNodes_here : takenNodes table reference.table (taken ++ [reference]) =
    takenNodes table reference.table taken ++ [table.rootNode reference.root] := by
  rw [takenNodes, List.filter_append, List.map_append, List.filter_singleton, decide_eq_true rfl]
  rfl

theorem takenNodes_elsewhere {index : Nat} (elsewhere : reference.table ≠ index) :
    takenNodes table index (taken ++ [reference]) = takenNodes table index taken := by
  rw [takenNodes, List.filter_append, List.filter_singleton, decide_eq_false elsewhere, cond_false, List.append_nil]
  rfl

theorem strippedRoots_filter_neg {wanted : SegmentRootRef → Bool} (unwanted : wanted reference = false) :
    strippedRoots tables ((taken ++ [reference]).filter wanted) = strippedRoots tables (taken.filter wanted) := by
  rw [List.filter_append, List.filter_cons_of_neg (by rw [unwanted]; decide), List.filter_nil, List.append_nil]

theorem strippedRoots_filter_pos {wanted : SegmentRootRef → Bool} (chosen : wanted reference) :
    strippedRoots tables ((taken ++ [reference]).filter wanted) =
      strippedRoots tables (taken.filter wanted ++ [reference]) := by
  rw [List.filter_append, List.filter_cons_of_pos chosen, List.filter_nil]

theorem KnownRoot.isLogicalRoot (known : KnownRoot tables reference table) :
    isLogicalRoot tables reference = (decide (table.columns.rootKind reference.root = ROOT_AXIOM) &&
      isLogicalAxiomTag (table.columns.tagOf (table.rootNode reference.root))) := by
  rw [PyElk.Native.isLogicalRoot, known.found]
  rfl

theorem KnownRoot.isExtensionRoot (known : KnownRoot tables reference table) :
    isExtensionRoot tables reference = decide (table.columns.rootKind reference.root = ROOT_EXTENSION) := by
  rw [PyElk.Native.isExtensionRoot, known.found]
  rfl

/-- What has been found of every table, once the nodes below another root of one of them have been collected. -/
theorem Observed.gathered_concat {seen : SegmentedSemanticFingerprints} {visited : List Nat}
    {entities : List SegmentNodeRef}
    (observed : Observed tables taken seen) (found : tables[reference.table]? = some table)
    (here : table.mappedColumns.Gathered reference.table table.canonicalLengths.length
      (takenNodes table reference.table taken ++ [table.rootNode reference.root]) visited entities)
    (elsewhere : ∀ entity : SegmentNodeRef, entity.table ≠ reference.table →
      (entity ∈ entities ↔ entity ∈ seen.entityNodes)) :
    ∀ (index : Nat) (table : CompilableSegment), tables[index]? = some table →
      table.mappedColumns.Gathered index table.canonicalLengths.length (takenNodes table index (taken ++ [reference]))
        ((seen.visitedNodes.set reference.table visited).getD index []) entities := by
  intro index other otherFound
  have inside : reference.table < seen.visitedNodes.length :=
    observed.visited.symm ▸ (List.getElem?_eq_some_iff.mp found).1
  by_cases same : reference.table = index
  · subst same
    obtain rfl := Option.some.inj (found.symm.trans otherFound)
    rw [takenNodes_here, List.getD_eq_getElem?_getD, List.getElem?_set_self inside]
    exact here
  · rw [takenNodes_elsewhere same, List.getD_eq_getElem?_getD, List.getElem?_set_ne same,
      ← List.getD_eq_getElem?_getD]
    have before := observed.gathered index other otherFound
    refine ⟨before.length, before.seen, fun node => ?_⟩
    rw [elsewhere ⟨index, node⟩ fun equal => same equal.symm]
    exact before.entity node

/-- A root is observed as one of its kind, with what is below it. -/
theorem observeRoot_settles {seen : SegmentedSemanticFingerprints} (known : KnownRoot tables reference table)
    (earlier : ∀ previous ∈ taken, ∃ table, KnownRoot tables previous table) (observed : Observed tables taken seen) :
    Settles (seen.observeRoot reference tables maxWork) (Observed tables (taken ++ [reference])) OutOfWork := by
  have inside : reference.table < tables.length := (List.getElem?_eq_some_iff.mp known.found).1
  have visitedInside : reference.table < seen.visitedNodes.length := observed.visited.symm ▸ inside
  refine .check_ok (okOr_ok.mpr known.found) (.check_ok (known.kind _) (.check_ok (known.node _) ?_))
  refine .check_ok (okOr_ok.mpr (List.getElem?_eq_getElem visitedInside)) ?_
  have gathered := observed.gathered _ _ known.found
  rw [List.getD_eq_getElem _ _ visitedInside] at gathered
  refine .bind (EncodedColumns.collectReachableEntities_settles known.ready.sound known.rootNode_lt gathered)
    fun later found => ?_
  refine .check_ok (known.tag _) ?_
  obtain ⟨here, elsewhere⟩ := found
  -- what all three branches keep
  have visited : (seen.visitedNodes.set reference.table later.1).length = tables.length :=
    List.length_set.trans observed.visited
  have tablesGathered := observed.gathered_concat known.found here elsewhere
  have entities : ∀ entity ∈ later.2, entity.table < tables.length := by
    intro entity member
    by_cases same : entity.table = reference.table
    · rw [same]
      exact inside
    · exact observed.entities entity ((elsewhere entity same).mp member)
  have stripped : ∀ wanted : SegmentRootRef → Bool, ∀ previous ∈ strippedRoots tables (taken.filter wanted),
      ∃ table, KnownRoot tables previous table :=
    fun wanted previous member => earlier previous (List.mem_of_mem_filter (strippedRoots_subset member))
  by_cases logical : table.columns.rootKind reference.root = ROOT_AXIOM ∧
    isLogicalAxiomTag (table.columns.tagOf (table.rootNode reference.root))
  · have root : AnnotatedRoot tables reference table := { known with annotated := .inl logical.1 }
    refine .if_pos logical ?_
    rw [observed.logical]
    refine .bind (observeStrippedRoot_settles (stripped _) root) fun roots same =>
      .pure ⟨?_, ?_, visited, tablesGathered, entities⟩
    · rw [strippedRoots_filter_pos (by rw [known.isLogicalRoot, logical.2, logical.1]; rfl), strippedRoots_concat]
      exact same
    · rw [strippedRoots_filter_neg (by rw [known.isExtensionRoot, logical.1]; rfl)]
      exact observed.extension
  · have notLogical : isLogicalRoot tables reference = false := by
      rw [known.isLogicalRoot, ← Bool.not_eq_true, Bool.and_eq_true, decide_eq_true_eq]
      exact logical
    refine .if_neg logical ?_
    by_cases extension : table.columns.rootKind reference.root = ROOT_EXTENSION
    · have root : AnnotatedRoot tables reference table := { known with annotated := .inr extension }
      refine .if_pos extension ?_
      rw [observed.extension]
      refine .bind (observeStrippedRoot_settles (stripped _) root) fun roots same =>
        .pure ⟨?_, ?_, visited, tablesGathered, entities⟩
      · rw [strippedRoots_filter_neg notLogical]
        exact observed.logical
      · rw [strippedRoots_filter_pos (by rw [known.isExtensionRoot, extension]; rfl), strippedRoots_concat]
        exact same
    · refine .if_neg extension (.pure ⟨?_, ?_, visited, tablesGathered, entities⟩)
      · rw [strippedRoots_filter_neg notLogical]
        exact observed.logical
      · rw [strippedRoots_filter_neg (by rw [known.isExtensionRoot, decide_eq_false extension])]
        exact observed.extension

/-- A root is taken. -/
theorem Consumed.take_settles {β : Type} {compiler : RootCompiler β} {fingerprinted : Bool} {merged : Merged β}
    (known : KnownRoot tables reference table)
    (earlier : ∀ previous ∈ taken, ∃ table, KnownRoot tables previous table)
    (consumed : Consumed compiler tables fingerprinted taken merged) :
    Settles (merged.take compiler tables maxWork reference)
      (Consumed compiler tables fingerprinted (taken ++ [reference]))
      fun error => OutOfWork error ∨ compiler.FailsOn tables (taken.foldl (keepRoot tables) []) reference error := by
  have kept : (taken ++ [reference]).foldl (keepRoot tables) [] =
    keepRoot tables (taken.foldl (keepRoot tables) []) reference := by
    rw [List.foldl_append]
    rfl
  have compiles := @compileSegmentRoot_settles tables reference table maxWork β compiler _ _ known
    (fun previous member => earlier previous ((keepRoot_sublist taken).subset member)) consumed.compiled
  rw [← consumed.previous, ← kept] at compiles
  obtain ⟨fingerprints, previous, builder⟩ := merged
  have finishes : ∀ later : Option SegmentedSemanticFingerprints, later.isSome = fingerprinted →
      (∀ seen ∈ later, Observed tables (taken ++ [reference]) seen) →
      Settles (compileSegmentRoot compiler reference tables (previous, builder) maxWork >>= fun next =>
        (pure ⟨later, next.1, next.2⟩ : Metering (Merged β)))
          (Consumed compiler tables fingerprinted (taken ++ [reference]))
        fun error => OutOfWork error ∨ compiler.FailsOn tables (taken.foldl (keepRoot tables) []) reference error :=
    fun later wanted seen => .bind compiles fun next compiled => .pure ⟨compiled.1, compiled.2, seen, wanted⟩
  cases fingerprints with
  | none => exact finishes none consumed.fingerprinted fun _ member => absurd member (Option.not_mem_none _)
  | some seen =>
    refine .bind ((observeRoot_settles known earlier (consumed.observed seen rfl)).weaken (fun _ => id) fun _ => .inl)
      fun later observed => ?_
    refine finishes (some later) consumed.fingerprinted fun found same => ?_
    rw [← Option.some.inj same]
    exact observed

end

end PyElk.Native
