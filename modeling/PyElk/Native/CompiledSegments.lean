import PyElk.Native.SemanticFingerprints

open Raising Lexicographic Merging

namespace PyElk.Native

theorem refuse_raises {refused : Prop} [Decidable refused] {error raised : CoreError}
    (failed : refuse (decide refused) error = .error raised) :
    refused ∧ raised = error := by
  rw [refuse] at failed
  split at failed
  · next holds => exact ⟨of_decide_eq_true holds, (Except.error.inj failed).symm⟩
  · cases failed

/-- What the checks in front of a compilation raise, and what the segments raise as they are opened with some work
spent already. -/
def OpeningRaises (sort : UnstableSort) (segments : List EncodedCompilationSegment)
    (limits : EncodedLimits) (spent : Nat)
    (error : CoreError) : Prop :=
  (segments = [] ∧ error = .protocol "encoded segment compiler requires at least one structural table") ∨
  (segments.length > 256 ∧ error = .capacity "encoded segment compiler exceeds the table-count limit") ∨
  validateCompilationSegmentLimits segments limits = .error error ∨
  ∃ later, segments.foldlM (openSegment sort limits) ([], []) spent = (.error error, later)

/-- What the builder raises on the next root, in the tables that the segments are opened as. -/
def BuilderRaises {β : Type} (sort : UnstableSort) (compiler : RootCompiler β)
    (segments : List EncodedCompilationSegment)
    (limits : EncodedLimits) (spent : Nat) (error : CoreError) : Prop :=
  ∃ tables roots later taken reference,
    segments.foldlM (openSegment sort limits) ([], []) spent = (.ok (tables, roots), later) ∧
      compiler.RaisesOn segments tables taken reference error

/-- The fingerprints of segments: digests of what they add, in order. -/
def Digests (segments : List EncodedCompilationSegment) (fingerprints : EncodedSemanticFingerprints) : Prop :=
  ∃ logical extensions entities,
    Listing compare (unionOf EncodedCompilationSegment.logicalPrefixes segments) logical ∧
    Listing compare (unionOf EncodedCompilationSegment.extensionPrefixes segments) extensions ∧
    Listing compare (unionOf EncodedCompilationSegment.entities segments) entities ∧
    fingerprints = ⟨logicalInput logical extensions, signatureInput entities⟩

section

variable {β : Type} (sort : UnstableSort) (compiler : RootCompiler β) (segments : List EncodedCompilationSegment)
    (limits : EncodedLimits)
  (fingerprinted : Bool)

/-- A compilation takes in what the segments add, and makes fingerprints of it where they are wanted. -/
theorem compileEncodedSegments_settles (spent : Nat) :
    SettlesFrom spent (compileEncodedSegments sort compiler segments limits fingerprinted) (fun result =>
      ∃ tables taken merged, Compiled compiler segments fingerprinted tables taken merged ∧
        result.1 = merged.builder ∧
        result.2.isSome = fingerprinted ∧ ∀ fingerprints ∈ result.2, Digests segments fingerprints)
      fun error => OpeningRaises sort segments limits spent error ∨ OutOfWork error ∨
        BuilderRaises sort compiler segments limits spent error := by
  refine .check_bind (fun _ _ => .check_bind (fun _ _ => .check_bind (fun _ _ => .bind (fun both opening ran => ?_)
    fun error later failed => ?_) fun error failed => ?_) fun error failed => ?_) fun error failed => ?_
  · obtain ⟨tables, roots⟩ := both
    obtain ⟨remaining, opened⟩ := openSegments_returns sort limits segments spent _ _ ran
    have nothing : (⟨[], []⟩ : RootHeads).Left [] := ⟨rfl, rfl, fun _ _ _ _ found => nomatch found⟩
    have yields : List.Forall₂ CompilationRootIter.Yields roots remaining := by
      refine List.forall₂_iff_get.mpr ⟨opened.iteratorCount.trans opened.listCount.symm,
        fun index within inside => ?_⟩
      obtain ⟨_, _, iterator, _, _, found, _, yields, _⟩ := opened.segment (List.getElem?_eq_getElem inside)
      obtain rfl := Option.some.inj ((List.getElem?_eq_getElem within).symm.trans found)
      exact yields
    obtain ⟨heads, started, left⟩ := startHeads nothing yields
    refine .check_bind (fun found start => ?_) fun raised start => nomatch started.symm.trans start
    obtain rfl := Except.ok.inj (started.symm.trans start)
    have merges :=
      (merge_settles compiler fingerprinted opened left limits.maxWork).weaken (fun _ => id) fun error failed =>
      failed.imp_right fun ⟨taken, reference, raises⟩ =>
        (⟨tables, roots, opening, taken, reference, ran, raises⟩ : BuilderRaises sort compiler segments
          limits spent error)
    refine Settles.bind (merges.weaken (fun _ => id) fun _ => .inr) (fun merged done => ?_) opening
    obtain ⟨taken, compiled⟩ := done
    have wanted := compiled.consumed.fingerprinted
    split
    · next unwanted =>
      rw [unwanted] at wanted
      exact .pure ⟨tables, taken, merged, compiled, rfl, wanted,
        fun _ member => absurd member (Option.not_mem_none _)⟩
    · next seen found =>
      rw [found] at wanted
      have finishes := compiled.finish_settles sort (compiled.consumed.observed seen found) limits.maxWork
      refine .bind (finishes.weaken (fun _ => id) fun _ failed => .inr (.inl failed))
        fun fingerprints digests => .pure ?_
      refine ⟨tables, taken, merged, compiled, rfl, wanted, fun other same => ?_⟩
      rw [← Option.some.inj same]
      exact digests
  · exact .inl (.inr (.inr (.inr ⟨later, failed⟩)))
  · exact .inl (.inr (.inr (.inl failed)))
  · exact .inl (.inr (.inl (refuse_raises failed)))
  · exact .inl (.inl (refuse_raises failed))

end

section

variable {segments others : List EncodedCompilationSegment}

/-- Roots of two segments that stand for the same are of one kind and of one constructor, the same but for their
annotations, and above the same entities. -/
theorem unionOf_subset (ready : ∀ segment ∈ segments, ∃ table, Opens segment table)
    (otherReady : ∀ segment ∈ others, ∃ table, Opens segment table)
    (keys : unionOf EncodedCompilationSegment.rootKeys segments ⊆ unionOf EncodedCompilationSegment.rootKeys others) :
    unionOf EncodedCompilationSegment.logicalPrefixes segments ⊆ unionOf
      EncodedCompilationSegment.logicalPrefixes others ∧
      unionOf EncodedCompilationSegment.extensionPrefixes segments ⊆ unionOf
        EncodedCompilationSegment.extensionPrefixes others ∧
      unionOf EncodedCompilationSegment.entities segments ⊆ unionOf EncodedCompilationSegment.entities others := by
  have twin : ∀ segment ∈ segments, ∀ root < segment.rootCount, selects segment.chosen root → ∃ other ∈ others,
    ∃ table otherTable,
      ∃ top < other.rootCount, selects other.chosen top ∧ Opens segment table ∧ Opens other otherTable ∧
        segment.columns.rootKind root = other.columns.rootKind top ∧
        segment.rescoped.canonicalBytes (segment.columns.rootNode root) =
          other.rescoped.canonicalBytes (other.columns.rootNode top) := by
    intro segment member root within chosen
    obtain ⟨other, otherIn, top, topWithin, topChosen, same⟩ := keys ⟨segment, member, root, within, chosen, rfl⟩
    obtain ⟨table, opens⟩ := ready segment member
    obtain ⟨otherTable, otherOpens⟩ := otherReady other otherIn
    obtain ⟨kinds, bytes⟩ := Prod.mk.inj same
    exact ⟨other, otherIn, table, otherTable, top, topWithin, topChosen, opens, otherOpens, kinds.symm, bytes.symm⟩
  refine ⟨?_, ?_, ?_⟩
  · rintro _ ⟨segment, member, root, within, chosen, logical, rfl⟩
    obtain ⟨other, otherIn, table, otherTable, top, topWithin, topChosen, opens, otherOpens, kinds, same⟩ :=
      twin segment member root within chosen
    obtain ⟨tags, prefixes⟩ :=
      opens.sound.same_prefix otherOpens.sound (opens.rootNode_lt within) (otherOpens.rootNode_lt topWithin) same
    refine ⟨other, otherIn, top, topWithin, topChosen, ⟨kinds.symm.trans logical.1, ?_⟩, prefixes.symm⟩
    change isLogicalAxiomTag (other.rescoped.tagOf _)
    rw [← tags]
    exact logical.2
  · rintro _ ⟨segment, member, root, within, chosen, extension, rfl⟩
    obtain ⟨other, otherIn, table, otherTable, top, topWithin, topChosen, opens, otherOpens, kinds, same⟩ :=
      twin segment member root within chosen
    have prefixes :=
      (opens.sound.same_prefix otherOpens.sound (opens.rootNode_lt within) (otherOpens.rootNode_lt topWithin) same).2
    exact ⟨other, otherIn, top, topWithin, topChosen, kinds.symm.trans extension, prefixes.symm⟩
  · rintro _ ⟨segment, member, root, within, chosen, node, path, tag, rfl⟩
    obtain ⟨other, otherIn, table, otherTable, top, topWithin, topChosen, opens, otherOpens, kinds, same⟩ :=
      twin segment member root within chosen
    obtain ⟨nodeWithin, below, belowWithin, belowPath, equal⟩ :=
      opens.sound.same_below otherOpens.sound (opens.rootNode_lt within) (otherOpens.rootNode_lt topWithin) same path
    refine ⟨other, otherIn, top, topWithin, topChosen, below, belowPath, ?_, equal.symm⟩
    change other.rescoped.tagOf below = 2
    rw [← (opens.sound.same_prefix otherOpens.sound nodeWithin belowWithin equal).1]
    exact tag

/-- Segments that add the same roots have the same fingerprints. -/
theorem Digests.of_keys {fingerprints otherFingerprints : EncodedSemanticFingerprints}
    (ready : ∀ segment ∈ segments, ∃ table, Opens segment table)
    (otherReady : ∀ segment ∈ others, ∃ table, Opens segment table)
    (keys : unionOf EncodedCompilationSegment.rootKeys segments = unionOf EncodedCompilationSegment.rootKeys others)
    (digests : Digests segments fingerprints) (otherDigests : Digests others otherFingerprints) :
    fingerprints = otherFingerprints := by
  obtain ⟨logical, extension, entities⟩ := unionOf_subset ready otherReady keys.subset
  obtain ⟨logical', extension', entities'⟩ := unionOf_subset otherReady ready keys.symm.subset
  obtain ⟨_, _, _, logicalList, extensionList, entityList, rfl⟩ := digests
  obtain ⟨_, _, _, logicalList', extensionList', entityList', rfl⟩ := otherDigests
  rw [logical.antisymm logical'] at logicalList
  rw [extension.antisymm extension'] at extensionList
  rw [entities.antisymm entities'] at entityList
  rw [logicalList.unique logicalList', extensionList.unique extensionList', entityList.unique entityList']

/-- The fingerprints tell what the segments add. -/
theorem Digests.eq_iff {fingerprints otherFingerprints : EncodedSemanticFingerprints}
    (digests : Digests segments fingerprints) (otherDigests : Digests others otherFingerprints) :
    (fingerprints.logical = otherFingerprints.logical ↔
      unionOf EncodedCompilationSegment.logicalPrefixes segments =
        unionOf EncodedCompilationSegment.logicalPrefixes others ∧
        unionOf EncodedCompilationSegment.extensionPrefixes segments =
          unionOf EncodedCompilationSegment.extensionPrefixes others) ∧
    (fingerprints.signature = otherFingerprints.signature ↔
      unionOf EncodedCompilationSegment.entities segments = unionOf EncodedCompilationSegment.entities others) := by
  obtain ⟨_, _, _, logical, extension, entities, rfl⟩ := digests
  obtain ⟨_, _, _, logical', extension', entities', rfl⟩ := otherDigests
  refine ⟨⟨fun same => ?_, fun same => ?_⟩, fun same => ?_, fun same => ?_⟩
  · obtain ⟨rfl, rfl⟩ := logicalInput_injective same
    exact ⟨logical.set_eq logical', extension.set_eq extension'⟩
  · rw [same.1] at logical
    rw [same.2] at extension
    exact congrArg₂ logicalInput (logical.unique logical') (extension.unique extension')
  · obtain rfl := signatureInput_injective same
    exact entities.set_eq entities'
  · rw [same] at entities
    exact congrArg signatureInput (entities.unique entities')

end

/-- Roots of two runs that stand for the same. -/
structure Twin (tables others : List CompilableSegment) (reference other : SegmentRootRef) : Prop where
  known : ∃ table, KnownRoot tables reference table
  otherKnown : ∃ table, KnownRoot others other table
  key : segmentKey tables reference = segmentKey others other

section

variable {tables others : List CompilableSegment} {reference other : SegmentRootRef}

/-- They are compiled alike, and the same but for their annotations. -/
theorem Twin.alike (twin : Twin tables others reference other) :
    compiledOnce tables reference = compiledOnce others other ∧
      segmentPrefix tables reference = segmentPrefix others other := by
  obtain ⟨table, known⟩ := twin.known
  obtain ⟨otherTable, otherKnown⟩ := twin.otherKnown
  have key := twin.key
  rw [known.segmentKey, otherKnown.segmentKey] at key
  obtain ⟨kinds, bytes⟩ := Prod.mk.inj key
  obtain ⟨tags, prefixes⟩ :=
    known.ready.sound.same_prefix otherKnown.ready.sound known.rootNode_lt otherKnown.rootNode_lt bytes
  change table.columns.tagOf _ = otherTable.columns.tagOf _ at tags
  rw [known.segmentPrefix, otherKnown.segmentPrefix, compiledOnce, compiledOnce, known.found, otherKnown.found,
    Option.any_some,
    Option.any_some, kinds, tags]
  exact ⟨rfl, prefixes⟩

theorem Twin.prefixes {kept otherKept : List SegmentRootRef}
    (twins : List.Forall₂ (Twin tables others) kept otherKept) :
    (kept.filter (compiledOnce tables)).map (segmentPrefix tables) = (otherKept.filter (compiledOnce others)).map
    (segmentPrefix others) := by
  induction twins with
  | nil => rfl
  | cons twin _ ih =>
    obtain ⟨once, prefixes⟩ := twin.alike
    rw [List.filter_cons, List.filter_cons, once]
    split
    · rw [List.map_cons, List.map_cons, prefixes, ih]
    · exact ih

/-- Runs over roots that stand for the same keep roots that do. -/
theorem Twin.keepRoots {taken otherTaken : List SegmentRootRef}
    (twins : List.Forall₂ (Twin tables others) taken otherTaken)
    {kept otherKept : List SegmentRootRef} (keeps : List.Forall₂ (Twin tables others) kept otherKept) :
    List.Forall₂ (Twin tables others) (taken.foldl (keepRoot tables) kept)
      (otherTaken.foldl (keepRoot others) otherKept) := by
  induction twins generalizing kept otherKept with
  | nil => exact keeps
  | cons twin _ ih =>
    refine ih ?_
    obtain ⟨once, prefixes⟩ := twin.alike
    rw [keepRoot, keepRoot, once, prefixes, ← List.getLast?_map, ← List.getLast?_map, Twin.prefixes keeps]
    split
    · exact keeps
    · exact List.rel_append keeps (.cons twin .nil)

end

/-- Runs whose roots stand for the same, one by one. -/
theorem Twin.of_keys {tables others : List CompilableSegment} {taken otherTaken : List SegmentRootRef}
    (known : ∀ reference ∈ taken, ∃ table, KnownRoot tables reference table)
    (otherKnown : ∀ reference ∈ otherTaken, ∃ table, KnownRoot others reference table)
    (same : taken.map (segmentKey tables) = otherTaken.map (segmentKey others)) :
    List.Forall₂ (Twin tables others) taken otherTaken := by
  have keys : List.Forall₂ (fun reference other => segmentKey tables reference = segmentKey others other) taken
    otherTaken := by
    rw [← List.forall₂_map_left_iff (R := fun key other => key = segmentKey others other),
      ← List.forall₂_map_right_iff (R := (· = ·)), same]
    exact List.forall₂_refl _
  refine List.forall₂_iff_zip.mpr ⟨keys.length_eq, fun {reference other} member => ?_⟩
  exact
    { known := known reference (List.of_mem_zip member).1
      otherKnown := otherKnown other (List.of_mem_zip member).2
      key := (List.forall₂_iff_zip.mp keys).2 member }

theorem Twin.keys {tables others : List CompilableSegment} {kept otherKept : List SegmentRootRef}
    (twins : List.Forall₂ (Twin tables others) kept otherKept) :
    kept.map (segmentKey tables) = otherKept.map (segmentKey others) := by
  induction twins with
  | nil => rfl
  | cons twin _ ih => rw [List.map_cons, List.map_cons, twin.key, ih]

/-- What a segment adds to the axioms that are compiled once for all their annotations. -/
def EncodedCompilationSegment.axiomPrefixes (segment : EncodedCompilationSegment) : Set (List UInt8) :=
  {bytes | ∃ root < segment.rootCount, selects segment.chosen root ∧
    (segment.columns.rootKind root = ROOT_AXIOM ∧ ¬ (120 ≤ segment.columns.tagOf (segment.columns.rootNode root) ∧
      segment.columns.tagOf (segment.columns.rootNode root) ≤ 123)) ∧
    segment.rescoped.logicalPrefix (segment.columns.rootNode root) = bytes}

/-- The roots a compilation takes in are those that one of the segments selects, each once and in order. It compiles
them all, but axioms that are the same without their annotations only once. -/
structure Compilation {β : Type} (compiler : RootCompiler β) (segments : List EncodedCompilationSegment)
    (tables : List CompilableSegment)
    (taken kept : List SegmentRootRef) (builder : β) : Prop where
  opens : ∀ reference ∈ taken, ∃ segment table, segments[reference.table]? = some segment ∧
    tables[reference.table]? = some table ∧
    Opens segment table ∧ reference.root < segment.rootCount ∧ selects segment.chosen reference.root
  takes : Listing compareKeys (unionOf EncodedCompilationSegment.rootKeys segments) (taken.map (segmentKey tables))
  keeps : kept.Sublist taken
  others : ∀ reference ∈ taken, compiledOnce tables reference = false → reference ∈ kept
  once : Listing compare (unionOf EncodedCompilationSegment.axiomPrefixes segments)
    ((kept.filter (compiledOnce tables)).map (segmentPrefix tables))
  compiles : compiler.compileRoots tables kept = .ok builder

theorem Compiled.compilation {β : Type} {compiler : RootCompiler β} {segments : List EncodedCompilationSegment}
    {fingerprinted : Bool}
    {tables : List CompilableSegment} {taken : List SegmentRootRef} {merged : Merged β}
    (compiled : Compiled compiler segments fingerprinted tables taken merged) :
    Compilation compiler segments tables taken (taken.foldl (keepRoot tables) []) merged.builder where
  opens := compiled.opens
  takes := ⟨List.pairwise_map.mpr compiled.ascend, fun key => List.mem_map.trans (compiled.keys key)⟩
  keeps := keepRoot_sublist taken
  others _ := mem_keepRoot
  once := by
    rw [filter_keepRoot]
    refine compiled.listing ROOT_AXIOM (fun tag => ¬ (120 ≤ tag ∧ tag ≤ 123)) (fun reference table known => ?_)
      fun _ _ => Iff.rfl
    rw [compiledOnce, known.found, Option.any_some, Bool.and_eq_true, decide_eq_true_eq, Bool.not_eq_true',
      ← Bool.not_eq_true,
      Bool.and_eq_true, decide_eq_true_eq, decide_eq_true_eq]
  compiles := compiled.consumed.compiled

theorem unionOf_singleton {α : Type} (part : EncodedCompilationSegment → Set α)
    (segment : EncodedCompilationSegment) :
    unionOf part [segment] = part segment := by
  ext item
  change (∃ other ∈ [segment], item ∈ part other) ↔ _
  rw [List.exists_mem_cons_iff]
  exact or_iff_left fun found => List.not_mem_nil found.choose_spec.1

theorem unionOf_pair {α : Type} (part : EncodedCompilationSegment → Set α)
    (first second : EncodedCompilationSegment) :
    unionOf part [first, second] = part first ∪ part second := by
  ext item
  change (∃ other ∈ [first, second], item ∈ part other) ↔ _
  rw [List.exists_mem_cons_iff, ← unionOf_singleton part second]
  rfl

/-- Compilations of segments that add the same roots hand on roots that stand for the same, in the same order. -/
theorem Compiled.resegmented {β γ : Type} {compiler : RootCompiler β} {otherCompiler : RootCompiler γ}
    {segments others : List EncodedCompilationSegment} {fingerprinted otherFingerprinted : Bool}
    {tables otherTables : List CompilableSegment}
    {taken otherTaken : List SegmentRootRef} {merged : Merged β} {otherMerged : Merged γ}
    (compiled : Compiled compiler segments fingerprinted tables taken merged)
    (otherCompiled : Compiled otherCompiler others otherFingerprinted otherTables otherTaken otherMerged)
    (keys : unionOf EncodedCompilationSegment.rootKeys segments = unionOf EncodedCompilationSegment.rootKeys others) :
    (taken.foldl (keepRoot tables) []).map (segmentKey tables) = (otherTaken.foldl (keepRoot otherTables) []).map
    (segmentKey otherTables) := by
  have takes := compiled.compilation.takes
  rw [keys] at takes
  have twins := Twin.of_keys compiled.known otherCompiled.known (takes.unique otherCompiled.compilation.takes)
  exact Twin.keys (Twin.keepRoots twins .nil)

/-- Insertion, as it goes from the front. -/
def insertSorted {α : Type} (compareItems : α → α → Metering Ordering) (item : α) : List α → Metering (List α)
  | [] => pure [item]
  | first :: rest => do
    let ordering ← compareItems item first
    if ordering = .gt then do pure (first :: (← insertSorted compareItems item rest))
    else pure (item :: first :: rest)

/-- Sorting by insertion. -/
def insertAll {α : Type} (compareItems : α → α → Metering Ordering) : List α → Metering (List α)
  | [] => pure []
  | item :: rest => do insertSorted compareItems item (← insertAll compareItems rest)

section

variable {α : Type} {compareItems : α → α → Metering Ordering} {order : α → α → Ordering} [Std.TransCmp order]
  {stops : CoreError → Prop}

theorem insertSorted_settles {item : α} {items : List α}
    (compares : ∀ other ∈ items, Settles (compareItems item other) (· = order item other) stops)
    (sorted : items.Pairwise fun first second => (order first second).isLE) :
    Settles (insertSorted compareItems item items)
      (fun later => later.Perm (item :: items) ∧
        later.Pairwise fun first second => (order first second).isLE) stops := by
  induction items with
  | nil => exact .pure ⟨.refl _, List.pairwise_singleton _ _⟩
  | cons first rest ih =>
    obtain ⟨front, behind⟩ := List.pairwise_cons.mp sorted
    refine .bind (compares first (.head _)) fun ordering same => ?_
    by_cases above : ordering = .gt
    · refine .if_pos above
        (.bind (ih (fun other member => compares other (.tail _ member)) behind) fun later inserted => .pure ?_)
      obtain ⟨perm, ascend⟩ := inserted
      refine ⟨(perm.cons first).trans (.swap item first rest),
        List.pairwise_cons.mpr ⟨fun other member => ?_, ascend⟩⟩
      obtain here | inside := List.mem_cons.mp (perm.subset member)
      · rw [here, Std.OrientedCmp.lt_of_gt (same.symm.trans above)]
        rfl
      · exact front other inside
    · have below : (order item first).isLE := by
        rw [← same]
        cases ordering with
        | lt => rfl
        | eq => rfl
        | gt => exact absurd rfl above
      refine .if_neg above (.pure ⟨.refl _, List.pairwise_cons.mpr ⟨fun other member => ?_, sorted⟩⟩)
      obtain here | inside := List.mem_cons.mp member
      · exact here ▸ below
      · exact Std.TransCmp.isLE_trans below (front other inside)

theorem insertAll_settles {items : List α}
    (compares : ∀ first ∈ items, ∀ second ∈ items,
      Settles (compareItems first second) (· = order first second) stops) :
    Settles (insertAll compareItems items)
      (fun sorted => sorted.Perm items ∧ sorted.Pairwise fun first second => (order first second).isLE) stops := by
  induction items with
  | nil => exact .pure ⟨.refl _, .nil⟩
  | cons item rest ih =>
    refine .bind (ih fun first firstIn second secondIn => compares first (.tail _ firstIn) second (.tail _ secondIn))
      fun sorted done => ?_
    refine (insertSorted_settles (fun other member => compares item (.head _) other (.tail _ (done.1.subset member)))
      done.2).weaken
      (fun later inserted => ⟨inserted.1.trans (done.1.cons item), inserted.2⟩) fun _ => id

end

/-- A sort that does what is asked of one. -/
def insertionSort : UnstableSort where
  sortBy := insertAll
  sorts _ compares := insertAll_settles compares

/-- The builder that lists what it takes in. -/
def listingCompiler : RootCompiler (List SegmentRootRef) where
  start := []
  compileRoot reference _ taken := .ok (taken ++ [reference])

/-- Declarations, and the second of them once more. -/
def repeatedDeclarations : List EncodedCompilationSegment :=
  [⟨AcceptedTable.annotatedDeclarations.columns, none, [], []⟩,
    ⟨AcceptedTable.annotatedDeclarations.columns, some .including, Bytes.littleEndian 4 2, []⟩]

/-- The declarations in one segment. -/
def wholeDeclarations : List EncodedCompilationSegment :=
  [⟨AcceptedTable.annotatedDeclarations.columns, none, [], []⟩]

theorem exists_result {β : Type} {outcome : CoreResult β × Nat} (returns : outcome.1.toOption.isSome) :
    ∃ result later, outcome = (.ok result, later) := by
  obtain ⟨outcome, later⟩ := outcome
  cases outcome with
  | error raised => cases returns
  | ok result => exact ⟨result, later, rfl⟩

theorem exists_fingerprints {β : Type} {outcome : CoreResult (β × Option EncodedSemanticFingerprints) × Nat}
    (returns : outcome.1.toOption.any fun result => result.2.isSome) :
    ∃ builder fingerprints later, outcome = (.ok (builder, some fingerprints), later) := by
  obtain ⟨outcome, later⟩ := outcome
  cases outcome with
  | error raised => cases returns
  | ok result =>
    obtain ⟨builder, fingerprints⟩ := result
    obtain ⟨fingerprints, rfl⟩ := Option.isSome_iff_exists.mp returns
    exact ⟨builder, fingerprints, later, rfl⟩

theorem repeatedDeclarations_compile : ∃ builder fingerprints later,
    compileEncodedSegments insertionSort listingCompiler repeatedDeclarations .default true 0 =
      (.ok (builder, some fingerprints), later) :=
  exists_fingerprints (by decide +kernel)

theorem wholeDeclarations_compile : ∃ builder fingerprints later,
    compileEncodedSegments insertionSort listingCompiler wholeDeclarations .default true 0 =
      (.ok (builder, some fingerprints), later) :=
  exists_fingerprints (by decide +kernel)

/-- What is selected again adds nothing. -/
theorem repeatedDeclarations_keys : unionOf EncodedCompilationSegment.rootKeys repeatedDeclarations =
    unionOf EncodedCompilationSegment.rootKeys wholeDeclarations := by
  ext key
  constructor
  · rintro ⟨segment, member, root, within, _, same⟩
    refine ⟨_, .head [], root, ?_, rfl, ?_⟩
    · obtain rfl | rfl := List.mem_pair.mp member
      · exact within
      · exact within
    · obtain rfl | rfl := List.mem_pair.mp member
      · exact same
      · exact same
  · rintro ⟨segment, member, holds⟩
    exact ⟨segment, List.mem_singleton.mp member ▸ .head _, holds⟩

section

variable {β γ : Type} {sort otherSort : UnstableSort} {compiler : RootCompiler β} {otherCompiler : RootCompiler γ}
  {segments others : List EncodedCompilationSegment} {limits otherLimits : EncodedLimits}
  {fingerprinted otherFingerprinted : Bool}
  {spent later otherSpent otherLater : Nat}

theorem compileEncodedSegments_exact {result : β × Option EncodedSemanticFingerprints}
    (run : compileEncodedSegments sort compiler segments limits fingerprinted spent = (.ok result, later)) :
    ∃ tables taken kept, Compilation compiler segments tables taken kept result.1 := by
  obtain ⟨tables, taken, merged, compiled, built, _, _⟩ :=
    (compileEncodedSegments_settles sort compiler segments limits fingerprinted spent).1 result later run
  rw [built]
  exact ⟨tables, taken, _, compiled.compilation⟩

theorem compileEncodedSegments_exact_repeated : ∃ builder fingerprints later,
    compileEncodedSegments insertionSort listingCompiler repeatedDeclarations .default true 0 =
      (.ok (builder, some fingerprints), later) ∧
      ∃ tables taken kept, Compilation listingCompiler repeatedDeclarations tables taken kept builder := by
  obtain ⟨builder, fingerprints, later, run⟩ := repeatedDeclarations_compile
  exact ⟨builder, fingerprints, later, run, compileEncodedSegments_exact run⟩

theorem compileEncodedSegments_fingerprints {result : β × Option EncodedSemanticFingerprints}
    (run : compileEncodedSegments sort compiler segments limits fingerprinted spent = (.ok result, later)) :
    result.2.isSome = fingerprinted ∧ ∀ fingerprints ∈ result.2, Digests segments fingerprints := by
  obtain ⟨_, _, _, _, _, wanted, digests⟩ :=
    (compileEncodedSegments_settles sort compiler segments limits fingerprinted spent).1 result later run
  exact ⟨wanted, digests⟩

theorem compileEncodedSegments_fingerprints_repeated : ∃ builder fingerprints later,
    compileEncodedSegments insertionSort listingCompiler repeatedDeclarations .default true 0 =
      (.ok (builder, some fingerprints), later) ∧
      Digests repeatedDeclarations fingerprints := by
  obtain ⟨builder, fingerprints, later, run⟩ := repeatedDeclarations_compile
  exact ⟨builder, fingerprints, later, run, (compileEncodedSegments_fingerprints run).2 fingerprints rfl⟩

/-- How the roots are dealt out to segments, and in which of the segments' tables they lie, makes no difference to
what is compiled, nor to the fingerprints. -/
theorem compileEncodedSegments_resegmented {result : β × Option EncodedSemanticFingerprints}
    {otherResult : γ × Option EncodedSemanticFingerprints}
    (run : compileEncodedSegments sort compiler segments limits fingerprinted spent = (.ok result, later))
    (otherRun : compileEncodedSegments otherSort otherCompiler others otherLimits otherFingerprinted otherSpent =
      (.ok otherResult, otherLater))
    (keys : unionOf EncodedCompilationSegment.rootKeys segments = unionOf EncodedCompilationSegment.rootKeys others) :
    (∃ tables taken kept otherTables otherTaken otherKept, Compilation compiler segments tables taken kept result.1 ∧
      Compilation otherCompiler others otherTables otherTaken otherKept otherResult.1 ∧
      kept.map (segmentKey tables) = otherKept.map (segmentKey otherTables)) ∧
    ∀ fingerprints ∈ result.2, ∀ otherFingerprints ∈ otherResult.2, fingerprints = otherFingerprints := by
  obtain ⟨tables, taken, merged, compiled, built, _, digests⟩ :=
    (compileEncodedSegments_settles sort compiler segments limits fingerprinted spent).1 result later run
  obtain ⟨otherTables, otherTaken, otherMerged, otherCompiled, otherBuilt, _, otherDigests⟩ :=
    (compileEncodedSegments_settles otherSort otherCompiler others otherLimits otherFingerprinted otherSpent).1
      otherResult otherLater otherRun
  rw [built, otherBuilt]
  refine ⟨⟨tables, taken, _, otherTables, otherTaken, _, compiled.compilation, otherCompiled.compilation,
    compiled.resegmented otherCompiled keys⟩, fun fingerprints found otherFingerprints otherFound => ?_⟩
  exact (digests fingerprints found).of_keys compiled.ready otherCompiled.ready keys
    (otherDigests otherFingerprints otherFound)

theorem compileEncodedSegments_resegmented_declarations :
    ∃ builder fingerprints later otherBuilder otherFingerprints otherLater,
    compileEncodedSegments insertionSort listingCompiler repeatedDeclarations .default true 0 =
      (.ok (builder, some fingerprints), later) ∧
    compileEncodedSegments insertionSort listingCompiler wholeDeclarations .default true 0 =
      (.ok (otherBuilder, some otherFingerprints), otherLater) ∧ fingerprints = otherFingerprints := by
  obtain ⟨builder, fingerprints, later, run⟩ := repeatedDeclarations_compile
  obtain ⟨otherBuilder, otherFingerprints, otherLater, otherRun⟩ := wholeDeclarations_compile
  exact ⟨builder, fingerprints, later, otherBuilder, otherFingerprints, otherLater, run, otherRun,
    (compileEncodedSegments_resegmented run otherRun repeatedDeclarations_keys).2 fingerprints rfl
    otherFingerprints rfl⟩

/-- An overlay is compiled as one table with its roots is: the selected roots of the source, and the roots of the
delta. -/
theorem compileEncodedOverlayDelta_flattens {source delta flat : EncodedColumns}
    {selection : Option (EncodedPostingMode × List UInt8)}
    {result : β × Option EncodedSemanticFingerprints} {flatResult : γ × Option EncodedSemanticFingerprints}
    (run : compileEncodedOverlayDeltaWithSelection sort compiler source delta limits selection spent =
      (.ok result, later))
    (flatRun : compileEncodedHierarchyWithSelection otherSort otherCompiler flat otherLimits none otherSpent =
      (.ok flatResult, otherLater))
    (roots : (EncodedCompilationSegment.ofSelection flat none).rootKeys =
      (EncodedCompilationSegment.ofSelection source selection).rootKeys ∪ (EncodedCompilationSegment.ofSelection delta
        none).rootKeys) :
    ∃ tables taken kept flatTables flatTaken flatKept,
      Compilation compiler [.ofSelection source selection, .ofSelection delta none] tables taken kept result.1 ∧
      Compilation otherCompiler [.ofSelection flat none] flatTables flatTaken flatKept flatResult.1 ∧
      kept.map (segmentKey tables) = flatKept.map (segmentKey flatTables) := by
  obtain ⟨tables, taken, merged, compiled, built, _, _⟩ :=
    (compileEncodedSegments_settles sort compiler _ limits true spent).1 result later run
  obtain ⟨flatTables, flatTaken, flatMerged, flatCompiled, flatBuilt, _, _⟩ :=
    (compileEncodedSegments_settles otherSort otherCompiler _ otherLimits _ otherSpent).1 flatResult
      otherLater flatRun
  have keys : unionOf EncodedCompilationSegment.rootKeys [.ofSelection source selection, .ofSelection delta none] =
      unionOf EncodedCompilationSegment.rootKeys [.ofSelection flat none] := by
    rw [unionOf_pair, unionOf_singleton, roots]
  rw [built, flatBuilt]
  exact ⟨tables, taken, _, flatTables, flatTaken, _, compiled.compilation, flatCompiled.compilation,
    compiled.resegmented flatCompiled keys⟩

/-- A delta that repeats the second declaration of its source. -/
theorem compileEncodedOverlayDelta_flattens_declarations : ∃ result later flatResult flatLater,
    compileEncodedOverlayDeltaWithSelection insertionSort listingCompiler AcceptedTable.annotatedDeclarations.columns
      AcceptedTable.annotatedDeclarations.columns .default (some (.including, Bytes.littleEndian 4 2)) 0 =
        (.ok result, later) ∧
    compileEncodedHierarchyWithSelection insertionSort listingCompiler AcceptedTable.annotatedDeclarations.columns
      .default none 0 =
      (.ok flatResult, flatLater) ∧
    ∃ tables kept flatTables flatKept, listingCompiler.compileRoots tables kept = .ok result.1 ∧
      listingCompiler.compileRoots flatTables flatKept = .ok flatResult.1 ∧
      kept.map (segmentKey tables) = flatKept.map (segmentKey flatTables) := by
  have ran : ((compileEncodedOverlayDeltaWithSelection insertionSort listingCompiler
    AcceptedTable.annotatedDeclarations.columns
    AcceptedTable.annotatedDeclarations.columns .default
      (some (.including, Bytes.littleEndian 4 2)) 0).1.toOption.isSome) := by decide +kernel
  have flatRan :
    ((compileEncodedHierarchyWithSelection insertionSort listingCompiler
      AcceptedTable.annotatedDeclarations.columns .default
    none 0).1.toOption.isSome) := by decide +kernel
  obtain ⟨result, later, run⟩ := exists_result ran
  obtain ⟨flatResult, flatLater, flatRun⟩ := exists_result flatRan
  have roots : (EncodedCompilationSegment.ofSelection AcceptedTable.annotatedDeclarations.columns none).rootKeys =
      (EncodedCompilationSegment.ofSelection AcceptedTable.annotatedDeclarations.columns
        (some (.including, Bytes.littleEndian 4 2))).rootKeys ∪
        (EncodedCompilationSegment.ofSelection AcceptedTable.annotatedDeclarations.columns none).rootKeys := by
    refine (Set.union_eq_self_of_subset_left ?_).symm
    rintro key ⟨root, within, _, same⟩
    exact ⟨root, within, rfl, same⟩
  obtain ⟨tables, _, kept, flatTables, _, flatKept, compilation, flatCompilation, same⟩ :=
    compileEncodedOverlayDelta_flattens run flatRun roots
  exact ⟨result, later, flatResult, flatLater, run, flatRun, tables, kept, flatTables, flatKept, compilation.compiles,
    flatCompilation.compiles, same⟩

/-- The fingerprints tell what segments add: the axioms and the extensions without their annotations, and the
entities. -/
theorem compileEncodedSegments_fingerprints_iff {builder : β} {otherBuilder : γ}
    {fingerprints otherFingerprints : EncodedSemanticFingerprints}
    (run : compileEncodedSegments sort compiler segments limits fingerprinted spent =
      (.ok (builder, some fingerprints), later))
    (otherRun : compileEncodedSegments otherSort otherCompiler others otherLimits otherFingerprinted otherSpent =
      (.ok (otherBuilder, some otherFingerprints), otherLater)) :
    (fingerprints.logical = otherFingerprints.logical ↔
      unionOf EncodedCompilationSegment.logicalPrefixes segments =
        unionOf EncodedCompilationSegment.logicalPrefixes others ∧
        unionOf EncodedCompilationSegment.extensionPrefixes segments =
          unionOf EncodedCompilationSegment.extensionPrefixes others) ∧
    (fingerprints.signature = otherFingerprints.signature ↔
      unionOf EncodedCompilationSegment.entities segments = unionOf EncodedCompilationSegment.entities others) := by
  obtain ⟨_, _, _, _, _, _, digests⟩ :=
    (compileEncodedSegments_settles sort compiler segments limits fingerprinted spent).1 _ later run
  obtain ⟨_, _, _, _, _, _, otherDigests⟩ :=
    (compileEncodedSegments_settles otherSort otherCompiler others otherLimits otherFingerprinted otherSpent).1 _
      otherLater otherRun
  exact (digests fingerprints rfl).eq_iff (otherDigests otherFingerprints rfl)

theorem compileEncodedSegments_fingerprints_iff_declarations :
    ∃ builder fingerprints later otherBuilder otherFingerprints otherLater,
    compileEncodedSegments insertionSort listingCompiler repeatedDeclarations .default true 0 =
      (.ok (builder, some fingerprints), later) ∧
    compileEncodedSegments insertionSort listingCompiler wholeDeclarations .default true 0 =
      (.ok (otherBuilder, some otherFingerprints), otherLater) ∧
    (fingerprints.signature = otherFingerprints.signature ↔
      unionOf EncodedCompilationSegment.entities repeatedDeclarations =
      unionOf EncodedCompilationSegment.entities wholeDeclarations) := by
  obtain ⟨builder, fingerprints, later, run⟩ := repeatedDeclarations_compile
  obtain ⟨otherBuilder, otherFingerprints, otherLater, otherRun⟩ := wholeDeclarations_compile
  exact ⟨builder, fingerprints, later, otherBuilder, otherFingerprints, otherLater, run, otherRun,
    (compileEncodedSegments_fingerprints_iff run otherRun).2⟩

/-- A compilation stops for what is wrong with a segment, for the limits, or for what the builder raises on the next
root: once the segments are open the merge, the digests and the lookups between them never fail of themselves. -/
theorem compileEncodedSegments_raises {error : CoreError}
    (run : compileEncodedSegments sort compiler segments limits fingerprinted spent = (.error error, later)) :
    OpeningRaises sort segments limits spent error ∨ OutOfWork error ∨
      BuilderRaises sort compiler segments limits spent error :=
  (compileEncodedSegments_settles sort compiler segments limits fingerprinted spent).2 error later run

/-- The builder that has room for one root. -/
def narrowCompiler : RootCompiler (List SegmentRootRef) where
  start := []
  compileRoot reference _ taken := if taken = [] then .ok [reference] else .error (.unsupported "second root")

/-- Two assertions, and both once more with one scope renamed. -/
def rescopedAssertions : List EncodedCompilationSegment :=
  [⟨AcceptedTable.anonymousAssertions.columns, none, [], []⟩,
    ⟨AcceptedTable.anonymousAssertions.columns, none, [], AcceptedTable.laterScope⟩]

theorem rescopedAssertions_open (limits : EncodedLimits)
    (checked : (validateCompilationSegmentLimits rescopedAssertions limits).toOption.isSome)
    (opened : (rescopedAssertions.foldlM (openSegment insertionSort limits) ([], []) 0).1.toOption.isSome)
    (error : CoreError) :
    ¬OpeningRaises insertionSort rescopedAssertions limits 0 error := by
  rintro (⟨empty, -⟩ | ⟨many, -⟩ | failed | ⟨later, failed⟩)
  · cases empty
  · exact absurd many (by decide)
  · rw [failed] at checked
    cases checked
  · rw [failed] at opened
    cases opened

theorem exists_error {β : Type} (outcome : CoreResult β × Nat) (fails : ¬outcome.1.toOption.isSome) :
    ∃ error later, outcome = (.error error, later) := by
  obtain ⟨outcome, later⟩ := outcome
  cases outcome with
  | ok result => exact absurd rfl fails
  | error raised => exact ⟨raised, later, rfl⟩

/-- A builder that has no room left raises on the second root that it is handed; and with less work allowed than the
merge takes, the run stops in it for want of work. -/
theorem compileEncodedSegments_raises_rescoped :
    (∃ later, compileEncodedSegments insertionSort narrowCompiler rescopedAssertions .default true 0 =
        (.error (.unsupported "second root"), later) ∧
      BuilderRaises insertionSort narrowCompiler rescopedAssertions .default 0 (.unsupported "second root")) ∧
    ∃ error later, compileEncodedSegments insertionSort listingCompiler rescopedAssertions
        { EncodedLimits.default with maxWork := 600 } true 0 = (.error error, later) ∧ OutOfWork error := by
  constructor
  · have raised :
      (match (compileEncodedSegments insertionSort narrowCompiler rescopedAssertions .default true 0).1 with
        | .error raised => some raised
        | .ok _ => none) = some (.unsupported "second root") := by decide +kernel
    have opens := rescopedAssertions_open .default (by decide +kernel) (by decide +kernel)
    cases outcome : compileEncodedSegments insertionSort narrowCompiler rescopedAssertions .default true 0 with
    | mk result later =>
      rw [outcome] at raised
      cases result with
      | ok result => cases raised
      | error error =>
        obtain rfl := Option.some.inj raised
        refine ⟨later, rfl, ?_⟩
        obtain opening | ⟨message, capacity⟩ | refused := compileEncodedSegments_raises outcome
        · exact absurd opening (opens _)
        · cases capacity
        · exact refused
  · have opens := rescopedAssertions_open { EncodedLimits.default with maxWork := 600 } (by decide +kernel)
      (by decide +kernel)
    obtain ⟨error, later, run⟩ :=
      exists_error (compileEncodedSegments insertionSort listingCompiler rescopedAssertions
      { EncodedLimits.default with maxWork := 600 } true 0) (by decide +kernel)
    refine ⟨error, later, run, ?_⟩
    obtain opening | capacity | ⟨_, _, _, _, _, _, raises⟩ := compileEncodedSegments_raises run
    · exact absurd opening (opens _)
    · exact capacity
    · obtain ⟨_, _, _, _, refused⟩ := raises.fails
      cases refused

end

end PyElk.Native
