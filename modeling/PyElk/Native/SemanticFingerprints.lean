import PyElk.Native.PrefixLengths
import PyElk.Native.SegmentUnion

open Raising Lexicographic Merging

namespace PyElk.Native

namespace EncodedColumns.Sound

variable {left right : EncodedColumns} {leftLengths rightLengths : List Nat} {node other : Nat}

/-- A node without its annotations is told by what it starts. -/
theorem logicalPrefix_parses (leftSound : left.Sound leftLengths) (rightSound : right.Sound rightLengths)
    (leftWithin : node < leftLengths.length) (rightWithin : other < rightLengths.length) :
    Parses (left.logicalPrefix node) (right.logicalPrefix other) := by
  intro rest last same
  have tags : left.tagOf node = right.tagOf other := by
    rw [EncodedColumns.logicalPrefix, EncodedColumns.logicalPrefix, EncodedColumns.canonicalPrefix,
      EncodedColumns.canonicalPrefix,
      EncodedColumns.prefixBytes, EncodedColumns.prefixBytes, List.append_assoc, List.append_assoc] at same
    exact varint_injective (varint_parses _ _ _ _ same)
  have arities := leftSound.arity_eq rightSound leftWithin rightWithin tags
  rw [EncodedColumns.logicalPrefix, EncodedColumns.logicalPrefix, arities] at same ⊢
  exact (prefixBytes_parse leftSound rightSound leftWithin rightWithin).1 rest last same

/-- Nodes of the same bytes are of one constructor, and the same without their annotations. -/
theorem same_prefix (leftSound : left.Sound leftLengths) (rightSound : right.Sound rightLengths)
    (leftWithin : node < leftLengths.length)
    (rightWithin : other < rightLengths.length) (same : left.canonicalBytes node = right.canonicalBytes other) :
    left.tagOf node = right.tagOf other ∧ left.logicalPrefix node = right.logicalPrefix other := by
  obtain ⟨rest, whole⟩ := leftSound.prefix_append leftWithin (left.arity node - 1)
  have starts : left.logicalPrefix node <+: right.canonicalBytes other := ⟨rest, by rw [← same, whole]; rfl⟩
  exact ⟨(leftSound.same_fields rightSound leftWithin rightWithin same).1,
    leftSound.logicalPrefix_eq rightSound leftWithin rightWithin starts⟩

/-- Below nodes of the same bytes are nodes of the same bytes. -/
theorem same_below (leftSound : left.Sound leftLengths) (rightSound : right.Sound rightLengths)
    (leftWithin : node < leftLengths.length)
    (rightWithin : other < rightLengths.length)
    (same : left.canonicalBytes node = right.canonicalBytes other) {child : Nat}
    (path : Relation.ReflTransGen left.Refers child node) : child < leftLengths.length ∧ ∃ twin < rightLengths.length,
      Relation.ReflTransGen right.Refers twin other ∧ left.canonicalBytes child = right.canonicalBytes twin := by
  induction path using Relation.ReflTransGen.head_induction_on with
  | refl => exact ⟨leftWithin, other, rightWithin, .refl, same⟩
  | @head child parent refers _ ih =>
    obtain ⟨parentWithin, twin, twinWithin, path, equal⟩ := ih
    obtain ⟨_, arities, fields⟩ := leftSound.same_fields rightSound parentWithin twinWithin equal
    obtain ⟨component, member, referred⟩ := List.mem_flatMap.mp refers
    obtain ⟨index, bounds, rfl⟩ := List.mem_map.mp member
    have bounds := List.mem_range'_1.mp bounds
    obtain ⟨offset, rfl⟩ := Nat.exists_eq_add_of_le bounds.1
    have below : offset < left.arity parent := by omega
    obtain ⟨childTwin, refersTwin, bytes⟩ := (fields offset below).reference referred
    have reference : right.Refers childTwin twin :=
      EncodedColumns.refers_of_reference (Nat.le_add_right _ _) (by omega) refersTwin
    exact ⟨leftSound.child_lt parentWithin refers, childTwin, rightSound.child_lt twinWithin reference,
      .head reference path, bytes⟩

end EncodedColumns.Sound

/-- The frame of a root in the logical fingerprint: an empty set stands for its annotations. -/
def strippedFrame (bytes : List UInt8) : List UInt8 := EncodedColumns.frame (bytes ++ [UInt8.ofNat COMPONENT_SET, 0])

theorem strippedFrame_parses (first second : List UInt8) : Parses (strippedFrame first) (strippedFrame second) :=
  EncodedColumns.frame_parses _ _

theorem strippedFrame_injective : Function.Injective strippedFrame :=
  fun _ _ same => List.append_cancel_right (EncodedColumns.frame_injective same)

/-- What the logical fingerprint is a digest of. -/
def logicalInput (logical extensions : List (List UInt8)) : List UInt8 :=
  logicalHeader ++
    (counted strippedFrame logical ++ counted (fun bytes => encodeUtf8 "E" ++ strippedFrame bytes) extensions)

/-- What the signature fingerprint is a digest of. -/
def signatureInput (entities : List (List UInt8)) : List UInt8 :=
  signatureHeader ++ counted EncodedColumns.frame entities

theorem logicalInput_injective {logical extensions otherLogical otherExtensions : List (List UInt8)}
    (same : logicalInput logical extensions = logicalInput otherLogical otherExtensions) :
    logical = otherLogical ∧ extensions = otherExtensions := by
  have both := List.append_cancel_left same
  have first := counted_parses strippedFrame_parses logical otherLogical _ _ both
  rw [first] at both
  refine ⟨counted_injective strippedFrame_parses strippedFrame_injective first, ?_⟩
  refine counted_injective (fun _ _ => (Parses.refl _).append fun _ => strippedFrame_parses _ _) (fun _ _ equal => ?_)
    (List.append_cancel_left both)
  exact strippedFrame_injective (List.append_cancel_left equal)

theorem signatureInput_injective {entities others : List (List UInt8)}
    (same : signatureInput entities = signatureInput others) :
    entities = others :=
  counted_injective EncodedColumns.frame_parses (fun _ _ => EncodedColumns.frame_injective)
    (List.append_cancel_left same)

section

variable {tables : List CompilableSegment} {reference : SegmentRootRef} {table : CompilableSegment} {maxWork : Nat}

/-- `hash_stripped_root_frame` feeds the frame of a root. -/
theorem hashStrippedRootFrame_settles (root : AnnotatedRoot tables reference table) (digest : List UInt8) :
    Settles (hashStrippedRootFrame tables maxWork digest reference)
      (· = digest ++ strippedFrame (segmentPrefix tables reference)) OutOfWork := by
  have within := root.rootNode_lt
  have limited : table.columns.arity (table.rootNode reference.root) - 1 ≤ table.mappedColumns.arity
    (table.rootNode reference.root) :=
    Nat.sub_le _ _
  have pre : segmentPrefix tables reference = table.mappedColumns.canonicalPrefix (table.rootNode reference.root)
      (some (table.columns.arity (table.rootNode reference.root) - 1)) := root.toKnownRoot.segmentPrefix
  refine .check_ok (okOr_ok.mpr root.found)
    (.check_ok (root.node _) (.check_ok (root.start _) (.check_ok (root.annotationLimit _) ?_)))
  refine .bind (root.ready.sound.canonicalNodePrefixLength_settles within limited) fun length same => ?_
  refine .check_bind (fun framed added => ?_) fun error failed => ?_
  · rw [okOr_ok, checkedAdd, Option.ite_none_right_eq_some, Option.some.injEq] at added
    obtain ⟨cost, _, gives⟩ :=
      @EncodedColumns.Sound.hashCanonicalNode_gives table.mappedColumns table.canonicalLengths
      (table.rootNode reference.root) root.ready.sound within
        (some (table.columns.arity (table.rootNode reference.root) - 1))
      (fun limit same => Option.some.inj same ▸ limited) (digest ++ hashVarint framed) maxWork
    refine .bind gives.settles fun fed same' => .pure ?_
    rw [same', strippedFrame, EncodedColumns.frame, pre, List.length_append, ← same, hashVarint_eq, ← added.2]
    simp only [List.append_assoc]
    rfl
  · rw [checkedAdd] at failed
    split at failed
    · cases failed
    · exact ⟨_, (Except.error.inj failed).symm⟩

/-- The frames of a list of roots. -/
theorem hashFrames_settles {roots : List SegmentRootRef}
    (known : ∀ reference ∈ roots, ∃ table, AnnotatedRoot tables reference table)
    (mark digest : List UInt8) :
    Settles (roots.foldlM (fun digest root => hashStrippedRootFrame tables maxWork (digest ++ mark) root) digest)
      (· = digest ++ (roots.map (segmentPrefix tables)).flatMap fun bytes => mark ++ strippedFrame bytes)
      OutOfWork := by
  refine (Settles.foldlM (fun fed done => fed = digest ++ (done.map (segmentPrefix tables)).flatMap fun bytes =>
    mark ++ strippedFrame bytes)
    (by rw [List.map_nil, List.flatMap_nil, List.append_nil]) fun done reference rest fed whole same => ?_)
  obtain ⟨table, root⟩ := known reference (whole ▸ List.mem_append_right done (.head rest))
  refine (hashStrippedRootFrame_settles root _).weaken (fun later added => ?_) fun _ => id
  rw [added, same, List.map_append, List.flatMap_append, List.map_singleton, List.flatMap_singleton]
  simp only [List.append_assoc]

/-- `hash_segmented_logical` feeds the frames of the logical roots, and then those of the extensions. -/
theorem hashSegmentedLogical_settles {logical extensions : List SegmentRootRef}
    (logicalKnown : ∀ reference ∈ logical, ∃ table, AnnotatedRoot tables reference table)
    (extensionsKnown : ∀ reference ∈ extensions, ∃ table, AnnotatedRoot tables reference table) :
    Settles (hashSegmentedLogical logical extensions tables maxWork)
      (· = logicalInput (logical.map (segmentPrefix tables)) (extensions.map (segmentPrefix tables))) OutOfWork := by
  have plain :=
    @hashFrames_settles tables maxWork logical logicalKnown [] (logicalHeader ++ hashVarint logical.length)
  simp only [List.append_nil, List.nil_append] at plain
  refine .bind plain fun digest same => (hashFrames_settles extensionsKnown (encodeUtf8 "E") _).weaken
    (fun fed added => ?_) fun _ => id
  rw [added, same, logicalInput, counted, counted, List.length_map, List.length_map, hashVarint_eq, hashVarint_eq]
  simp only [List.append_assoc]

end

/-- The bytes of a node of one of the tables. -/
noncomputable def segmentBytes (tables : List CompilableSegment) (entity : SegmentNodeRef) : List UInt8 :=
  (tables[entity.table]?).elim [] fun table => table.mappedColumns.canonicalBytes entity.node

/-- A node of an opened table. -/
structure KnownNode (tables : List CompilableSegment) (entity : SegmentNodeRef)
    (table : CompilableSegment) : Prop where
  found : tables[entity.table]? = some table
  ready : table.Ready
  within : entity.node < table.canonicalLengths.length

section

variable {tables : List CompilableSegment} {entity other : SegmentNodeRef} {table otherTable : CompilableSegment}
    {maxWork : Nat}

theorem KnownNode.segmentBytes (known : KnownNode tables entity table) :
    segmentBytes tables entity = table.mappedColumns.canonicalBytes entity.node := by
  rw [PyElk.Native.segmentBytes, known.found]
  rfl

/-- Nodes of opened tables compare as their bytes do. -/
theorem compareSegmentNodes_settles (known : KnownNode tables entity table)
    (otherKnown : KnownNode tables other otherTable) :
    Settles (compareSegmentNodes entity other tables maxWork)
      (· = compare (segmentBytes tables entity) (segmentBytes tables other)) OutOfWork := by
  refine .check_ok (okOr_ok.mpr known.found) (.check_ok (okOr_ok.mpr otherKnown.found) ?_)
  obtain ⟨cost, _, gives⟩ := @EncodedColumns.Sound.compareBetween_gives table.mappedColumns otherTable.mappedColumns
    table.canonicalLengths otherTable.canonicalLengths entity.node other.node
    known.ready.sound otherKnown.ready.sound known.within otherKnown.within none (fun _ none => nomatch none) maxWork
  rw [known.ready.sound.canonicalPrefix_none known.within,
    otherKnown.ready.sound.canonicalPrefix_none otherKnown.within] at gives
  rw [known.segmentBytes, otherKnown.segmentBytes]
  exact gives.settles

/-- The frame of an entity. -/
theorem hashEntity_settles (known : KnownNode tables entity table) (digest : List UInt8) :
    Settles (hashEntity tables maxWork digest entity)
      (· = digest ++ EncodedColumns.frame (segmentBytes tables entity)) OutOfWork := by
  have within := known.within
  have measured := known.ready.sound.measured _ within
  rw [List.getD_eq_getElem _ _ within] at measured
  obtain ⟨cost, _, gives⟩ :=
    @EncodedColumns.Sound.hashCanonicalNode_gives table.mappedColumns table.canonicalLengths entity.node
    known.ready.sound known.within none (fun _ none => nomatch none)
      (digest ++ hashVarint table.canonicalLengths[entity.node]) maxWork
  rw [known.ready.sound.canonicalPrefix_none known.within] at gives
  refine .check_ok (okOr_ok.mpr known.found) (.check_ok (okOr_ok.mpr (List.getElem?_eq_getElem known.within)) ?_)
  refine gives.settles.weaken (fun fed same => ?_) fun _ => id
  rw [same, known.segmentBytes, EncodedColumns.frame, ← measured, hashVarint_eq, List.append_assoc]

/-- `hash_segmented_signature` feeds the frames of the entities. -/
theorem hashSegmentedSignature_settles {entities : List SegmentNodeRef}
    (known : ∀ entity ∈ entities, ∃ table, KnownNode tables entity table) :
    Settles (hashSegmentedSignature entities tables maxWork)
      (· = signatureInput (entities.map (segmentBytes tables))) OutOfWork := by
  have turns :=
    @Settles.foldlM _ _ _ _ OutOfWork (hashEntity tables maxWork) entities
    (signatureHeader ++ hashVarint entities.length)
    (fun fed done => fed = signatureHeader ++ hashVarint entities.length ++
      (done.map (segmentBytes tables)).flatMap EncodedColumns.frame)
    (by rw [List.map_nil, List.flatMap_nil, List.append_nil]) (fun done entity rest fed whole same => by
      obtain ⟨table, found⟩ := known entity (whole ▸ List.mem_append_right done (.head rest))
      refine (hashEntity_settles found _).weaken (fun later added => ?_) fun _ => id
      rw [added, same, List.map_append, List.flatMap_append, List.map_singleton, List.flatMap_singleton,
        List.append_assoc])
  refine turns.weaken (fun fed same => ?_) fun _ => id
  rw [same, signatureInput, counted, List.length_map, hashVarint_eq, List.append_assoc]

end

/-- Whether a root is an axiom that the logical fingerprint is about, in its segment. -/
def EncodedColumns.isLogical (columns : EncodedColumns) (root : Nat) : Prop :=
  columns.rootKind root = ROOT_AXIOM ∧ isLogicalAxiomTag (columns.tagOf (columns.rootNode root))

namespace EncodedCompilationSegment

variable (segment : EncodedCompilationSegment)

/-- What the segment adds to the roots of the logical fingerprint. -/
def logicalPrefixes : Set (List UInt8) :=
  {bytes | ∃ root < segment.rootCount, selects segment.chosen root ∧ segment.columns.isLogical root ∧
    segment.rescoped.logicalPrefix (segment.columns.rootNode root) = bytes}

/-- What it adds to the extensions. -/
def extensionPrefixes : Set (List UInt8) :=
  {bytes | ∃ root < segment.rootCount, selects segment.chosen root ∧ segment.columns.rootKind root = ROOT_EXTENSION ∧
    segment.rescoped.logicalPrefix (segment.columns.rootNode root) = bytes}

/-- What it adds to the signature: the entities below its roots. -/
def entities : Set (List UInt8) :=
  {bytes | ∃ root < segment.rootCount, selects segment.chosen root ∧ ∃ node,
    Relation.ReflTransGen segment.rescoped.Refers node (segment.columns.rootNode root) ∧
    segment.columns.tagOf node = 2 ∧
      segment.rescoped.canonicalBytes node = bytes}

end EncodedCompilationSegment

/-- What the segments add, one with another. -/
def unionOf {α : Type} (part : EncodedCompilationSegment → Set α)
    (segments : List EncodedCompilationSegment) : Set α :=
  {item | ∃ segment ∈ segments, item ∈ part segment}

section

variable {tables : List CompilableSegment} {reference : SegmentRootRef} {table other : CompilableSegment}
  {segment : EncodedCompilationSegment} {root : Nat}

theorem Opens.rootNode_lt (opens : Opens segment table) (within : root < segment.rootCount) :
    segment.columns.rootNode root < table.canonicalLengths.length := by
  rw [opens.ready.count, ← opens.columns]
  exact (nodeIndex_ok.mp (opens.row root within).node).2.1

theorem Opens.sound (opens : Opens segment table) : segment.rescoped.Sound table.canonicalLengths :=
  opens.mapped ▸ opens.ready.sound

/-- A root that is taken and one of a segment that stand for the same are of one kind, and their nodes have the same
bytes. -/
theorem KnownRoot.same_key (known : KnownRoot tables reference table)
    (same : PyElk.Native.segmentKey tables reference = segment.rootKey root) :
    table.columns.rootKind reference.root = segment.columns.rootKind root ∧
      segment.rescoped.canonicalBytes (segment.columns.rootNode root) =
        table.mappedColumns.canonicalBytes (table.rootNode reference.root) := by
  rw [known.segmentKey, CompilableSegment.rootKey, EncodedCompilationSegment.rootKey, Prod.mk.injEq] at same
  exact ⟨same.1, same.2.symm⟩

/-- A root between two that are the same without their annotations is the same without its own. -/
theorem segmentPrefix_between {first middle last : SegmentRootRef}
    {firstTable middleTable lastTable : CompilableSegment}
    (firstKnown : KnownRoot tables first firstTable) (middleKnown : KnownRoot tables middle middleTable)
    (lastKnown : KnownRoot tables last lastTable)
    (above : compare (segmentKey tables first).2 (segmentKey tables middle).2 = .lt)
    (under : compare (segmentKey tables middle).2 (segmentKey tables last).2 = .lt)
    (same : segmentPrefix tables first = segmentPrefix tables last) :
    segmentPrefix tables middle = segmentPrefix tables last := by
  rw [firstKnown.segmentKey, middleKnown.segmentKey] at above
  rw [middleKnown.segmentKey, lastKnown.segmentKey] at under
  rw [firstKnown.segmentPrefix, lastKnown.segmentPrefix] at same
  rw [middleKnown.segmentPrefix, lastKnown.segmentPrefix, ← same]
  exact (firstKnown.ready.sound.logicalPrefix_between middleKnown.ready.sound lastKnown.ready.sound
    firstKnown.rootNode_lt
    middleKnown.rootNode_lt lastKnown.rootNode_lt (congrArg Ordering.isLE above)
      (congrArg Ordering.isLE under) same).symm

/-- Roots that differ without their annotations are in the same order without them. -/
theorem segmentPrefix_lt {first second : SegmentRootRef} {firstTable secondTable : CompilableSegment}
    (firstKnown : KnownRoot tables first firstTable) (secondKnown : KnownRoot tables second secondTable)
    (order : compare (segmentKey tables first).2 (segmentKey tables second).2 = .lt)
    (differs : segmentPrefix tables first ≠ segmentPrefix tables second) :
    compare (segmentPrefix tables first) (segmentPrefix tables second) = .lt := by
  obtain ⟨rest, whole⟩ :=
    firstKnown.ready.sound.prefix_append firstKnown.rootNode_lt
    (firstTable.columns.arity (firstTable.rootNode first.root) - 1)
  obtain ⟨rest', whole'⟩ := secondKnown.ready.sound.prefix_append secondKnown.rootNode_lt
    (secondTable.columns.arity (secondTable.rootNode second.root) - 1)
  have parses :=
    firstKnown.ready.sound.logicalPrefix_parses secondKnown.ready.sound firstKnown.rootNode_lt secondKnown.rootNode_lt
  rw [firstKnown.segmentKey, secondKnown.segmentKey, CompilableSegment.rootKey, CompilableSegment.rootKey, whole,
    whole'] at order
  change compare (firstTable.mappedColumns.logicalPrefix (firstTable.rootNode first.root) ++ rest)
    (secondTable.mappedColumns.logicalPrefix (secondTable.rootNode second.root) ++ rest') = .lt at order
  rw [compare_append parses, ← firstKnown.segmentPrefix, ← secondKnown.segmentPrefix] at order
  cases position : compare (segmentPrefix tables first) (segmentPrefix tables second) with
  | lt => rfl
  | eq => exact absurd (compare_eq_iff.mp position) differs
  | gt =>
    rw [position] at order
    cases order

/-- Roots of one kind that ascend ascend without their annotations, and those that are the same without them lie
side by side. -/
theorem strippedRoots_ascend {kind : Nat} {roots : List SegmentRootRef}
    (known : ∀ reference ∈ roots, ∃ table, KnownRoot tables reference table ∧
      table.columns.rootKind reference.root = kind)
    (ascend : roots.Pairwise fun first second => compareKeys (segmentKey tables first)
      (segmentKey tables second) = .lt) :
    (strippedRoots tables roots).Sublist roots ∧
      (((strippedRoots tables roots).map (segmentPrefix tables)).Pairwise fun first second =>
        compare first second = .lt) ∧
        ∀ reference ∈ roots, segmentPrefix tables reference ∈ (strippedRoots tables roots).map
          (segmentPrefix tables) := by
  classical
  -- roots of one kind ascend as their nodes do
  have below : ∀ first ∈ roots, ∀ second ∈ roots,
    compareKeys (segmentKey tables first) (segmentKey tables second) = .lt →
      compare (segmentKey tables first).2 (segmentKey tables second).2 = .lt := by
    intro first firstIn second secondIn order
    obtain ⟨firstTable, firstKnown, firstKind⟩ := known first firstIn
    obtain ⟨secondTable, secondKnown, secondKind⟩ := known second secondIn
    rw [compareKeys, compareLex, compareOn, compareOn] at order
    have kinds : compare (segmentKey tables first).1 (segmentKey tables second).1 = .eq := by
      rw [firstKnown.segmentKey, secondKnown.segmentKey]
      exact Nat.compare_eq_eq.mpr (firstKind.trans secondKind.symm)
    rw [kinds] at order
    exact order
  have adjacent : ∀ first ∈ roots, ∀ middle ∈ roots, ∀ last ∈ roots,
      compareKeys (segmentKey tables first) (segmentKey tables middle) = .lt →
      compareKeys (segmentKey tables middle) (segmentKey tables last) = .lt →
        segmentPrefix tables first = segmentPrefix tables last →
          segmentPrefix tables middle = segmentPrefix tables last := by
    intro first firstIn middle middleIn last lastIn front back same
    obtain ⟨firstTable, firstKnown, _⟩ := known first firstIn
    obtain ⟨middleTable, middleKnown, _⟩ := known middle middleIn
    obtain ⟨lastTable, lastKnown, _⟩ := known last lastIn
    exact segmentPrefix_between firstKnown middleKnown lastKnown (below first firstIn middle middleIn front)
      (below middle middleIn last lastIn back) same
  obtain ⟨sublist, distinct, every⟩ := keepFirst_once ascend adjacent
  refine ⟨sublist, ?_, fun reference member => ?_⟩
  · refine List.pairwise_map.mpr
      (List.Pairwise.imp_of_mem ?_ ((ascend.sublist sublist).and (List.pairwise_map.mp distinct)))
    intro first second firstKept secondKept both
    have firstIn := sublist.subset firstKept
    have secondIn := sublist.subset secondKept
    obtain ⟨firstTable, firstKnown, _⟩ := known first firstIn
    obtain ⟨secondTable, secondKnown, _⟩ := known second secondIn
    exact segmentPrefix_lt firstKnown secondKnown (below first firstIn second secondIn both.1) both.2
  · obtain ⟨other, kept, same⟩ := every reference member
    exact List.mem_map.mpr ⟨other, kept, same⟩

end

namespace Compiled

section

variable {β : Type} {compiler : RootCompiler β} {segments : List EncodedCompilationSegment} {fingerprinted : Bool}
  {tables : List CompilableSegment} {taken : List SegmentRootRef} {merged : Merged β}
  (compiled : Compiled compiler segments fingerprinted tables taken merged)

include compiled

/-- A root of a segment is taken, or one that stands for the same. -/
theorem exists_twin {segment : EncodedCompilationSegment} (member : segment ∈ segments) {root : Nat}
    (within : root < segment.rootCount)
    (chosen : selects segment.chosen root) : ∃ reference ∈ taken, ∃ table opened, KnownRoot tables reference table ∧
      Opens segment opened ∧ table.columns.rootKind reference.root = segment.columns.rootKind root ∧
        segment.rescoped.canonicalBytes (segment.columns.rootNode root) =
          table.mappedColumns.canonicalBytes (table.rootNode reference.root) := by
  obtain ⟨reference, taken, same⟩ :=
    (compiled.keys (segment.rootKey root)).mpr ⟨segment, member, root, within, chosen, rfl⟩
  obtain ⟨table, known⟩ := compiled.known reference taken
  obtain ⟨opened, opens⟩ := compiled.ready segment member
  exact ⟨reference, taken, table, opened, known, opens, known.same_key same⟩

/-- A root that is taken is one of a segment. -/
theorem exists_segment {reference : SegmentRootRef} (member : reference ∈ taken) : ∃ segment ∈ segments, ∃ table,
    KnownRoot tables reference table ∧ Opens segment table ∧ reference.root < segment.rootCount ∧
      selects segment.chosen reference.root := by
  obtain ⟨segment, table, segmentFound, tableFound, opens, within, chosen⟩ := compiled.opens reference member
  exact ⟨segment, List.mem_of_getElem? segmentFound, table, opens.known tableFound within, opens, within, chosen⟩

/-- The roots of one kind and of some constructors, without their annotations: those of the segments, in order. -/
theorem listing (kind : Nat) (among : Nat → Prop) {wanted : SegmentRootRef → Bool}
    {part : EncodedCompilationSegment → Set (List UInt8)}
    (decides : ∀ reference table, KnownRoot tables reference table →
      (wanted reference ↔ table.columns.rootKind reference.root = kind ∧
        among (table.columns.tagOf (table.rootNode reference.root))))
    (parts : ∀ segment bytes, bytes ∈ part segment ↔ ∃ root < segment.rootCount, selects segment.chosen root ∧
      (segment.columns.rootKind root = kind ∧ among (segment.columns.tagOf (segment.columns.rootNode root))) ∧
        segment.rescoped.logicalPrefix (segment.columns.rootNode root) = bytes) :
    Listing compare (unionOf part segments)
      ((strippedRoots tables (taken.filter wanted)).map (segmentPrefix tables)) := by
  have known : ∀ reference ∈ taken.filter wanted, ∃ table, KnownRoot tables reference table ∧
    table.columns.rootKind reference.root = kind := by
    intro reference member
    obtain ⟨inside, chosen⟩ := List.mem_filter.mp member
    obtain ⟨table, known⟩ := compiled.known reference inside
    exact ⟨table, known, ((decides reference table known).mp chosen).1⟩
  obtain ⟨sublist, ascend, every⟩ := strippedRoots_ascend known (compiled.ascend.filter _)
  refine ⟨ascend, fun bytes => ⟨fun member => ?_, fun member => ?_⟩⟩
  · obtain ⟨reference, kept, rfl⟩ := List.mem_map.mp member
    obtain ⟨inside, chosen⟩ := List.mem_filter.mp (sublist.subset kept)
    obtain ⟨segment, segmentIn, table, known, opens, within, selected⟩ := compiled.exists_segment inside
    have constructor_ := (decides reference table known).mp chosen
    rw [CompilableSegment.rootNode, opens.columns] at constructor_
    refine ⟨segment, segmentIn, (parts segment _).mpr ⟨reference.root, within, selected, constructor_, ?_⟩⟩
    rw [known.segmentPrefix, opens.mapped, CompilableSegment.rootNode, opens.columns]
  · obtain ⟨segment, segmentIn, member⟩ := member
    obtain ⟨root, within, selected, constructor_, rfl⟩ := (parts segment bytes).mp member
    obtain ⟨reference, inside, table, opened, known, opens, kinds, same⟩ :=
      compiled.exists_twin segmentIn within selected
    obtain ⟨tags, prefixes⟩ :=
      opens.sound.same_prefix known.ready.sound (opens.rootNode_lt within) known.rootNode_lt same
    have chosen : wanted reference := (decides reference table known).mpr ⟨kinds.trans constructor_.1, by
      change among (table.mappedColumns.tagOf _)
      rw [← tags]
      exact constructor_.2⟩
    rw [prefixes, ← known.segmentPrefix]
    exact every reference (List.mem_filter.mpr ⟨inside, chosen⟩)

theorem logical_listing : Listing compare (unionOf EncodedCompilationSegment.logicalPrefixes segments)
    ((strippedRoots tables (taken.filter (isLogicalRoot tables))).map (segmentPrefix tables)) := by
  refine compiled.listing ROOT_AXIOM (fun tag => isLogicalAxiomTag tag) (fun reference table known => ?_)
    fun segment bytes => Iff.rfl
  rw [isLogicalRoot, known.found, Option.any_some, Bool.and_eq_true, decide_eq_true_eq]

theorem extension_listing : Listing compare (unionOf EncodedCompilationSegment.extensionPrefixes segments)
    ((strippedRoots tables (taken.filter (isExtensionRoot tables))).map (segmentPrefix tables)) := by
  refine compiled.listing ROOT_EXTENSION (fun _ => True) (fun reference table known => ?_) fun segment bytes => ?_
  · rw [isExtensionRoot, known.found, Option.any_some, decide_eq_true_eq, and_true]
  · simp only [and_true]
    exact Iff.rfl

/-- What has been found is a known entity, below a root that is taken. -/
theorem known_entity {seen : SegmentedSemanticFingerprints} (observed : Observed tables taken seen)
    {entity : SegmentNodeRef}
    (member : entity ∈ seen.entityNodes) :
    ∃ table, KnownNode tables entity table ∧ table.mappedColumns.tagOf entity.node = 2 ∧
      ∃ reference ∈ taken, KnownRoot tables reference table ∧
        Relation.ReflTransGen table.mappedColumns.Refers entity.node (table.rootNode reference.root) := by
  obtain ⟨index, node⟩ := entity
  have inside : index < tables.length := observed.entities _ member
  obtain ⟨table, found⟩ : ∃ table, tables[index]? = some table := ⟨_, List.getElem?_eq_getElem inside⟩
  have gathered := observed.gathered index table found
  obtain ⟨seenNode, tag⟩ := (gathered.entity node).mp member
  obtain ⟨top, topIn, path⟩ := (gathered.seen node).mp seenNode
  obtain ⟨reference, referenceIn, rfl⟩ := List.mem_map.mp topIn
  obtain ⟨inside, here⟩ := List.mem_filter.mp referenceIn
  rw [decide_eq_true_eq] at here
  obtain ⟨other, known⟩ := compiled.known reference inside
  obtain rfl : other = table := Option.some.inj (known.found.symm.trans (here ▸ found))
  exact ⟨other, ⟨found, known.ready, gathered.length ▸ seenNode.lt⟩, tag, reference, inside, known, path⟩

/-- The entities below the roots that are taken are those of the segments. -/
theorem mem_entities {seen : SegmentedSemanticFingerprints} (observed : Observed tables taken seen)
    (bytes : List UInt8) :
    (∃ entity ∈ seen.entityNodes, segmentBytes tables entity = bytes) ↔
      bytes ∈ unionOf EncodedCompilationSegment.entities segments := by
  constructor
  · rintro ⟨entity, member, rfl⟩
    obtain ⟨table, known, tag, reference, inside, rootKnown, path⟩ := compiled.known_entity observed member
    obtain ⟨segment, segmentIn, other, otherKnown, opens, within, selected⟩ := compiled.exists_segment inside
    obtain rfl : other = table := Option.some.inj (otherKnown.found.symm.trans rootKnown.found)
    refine ⟨segment, segmentIn, reference.root, within, selected, entity.node, ?_, ?_, ?_⟩
    · rw [← opens.mapped, ← opens.columns]
      exact path
    · rw [← opens.columns]
      exact tag
    · rw [known.segmentBytes, opens.mapped]
  · rintro ⟨segment, segmentIn, root, within, selected, node, path, tag, rfl⟩
    obtain ⟨reference, inside, table, opened, known, opens, _, same⟩ := compiled.exists_twin segmentIn within selected
    obtain ⟨nodeWithin, twin, twinWithin, below, equal⟩ :=
      opens.sound.same_below known.ready.sound (opens.rootNode_lt within) known.rootNode_lt same path
    have gathered := observed.gathered _ _ known.found
    have twinKnown : KnownNode tables ⟨reference.table, twin⟩ table := ⟨known.found, known.ready, twinWithin⟩
    refine ⟨⟨reference.table, twin⟩, (gathered.entity twin).mpr ⟨(gathered.seen twin).mpr ⟨_, ?_, below⟩, ?_⟩, ?_⟩
    · exact List.mem_map.mpr ⟨reference, List.mem_filter.mpr ⟨inside, decide_eq_true rfl⟩, rfl⟩
    · rw [← (opens.sound.same_prefix known.ready.sound nodeWithin twinWithin equal).1]
      exact tag
    · rw [twinKnown.segmentBytes, equal]

/-- The fingerprints of a run are digests of what its segments add, in order. -/
theorem finish_settles (sort : UnstableSort) {seen : SegmentedSemanticFingerprints}
    (observed : Observed tables taken seen) (maxWork : Nat) :
    Settles (seen.finish sort tables maxWork) (fun fingerprints => ∃ logical extensions entities,
      Listing compare (unionOf EncodedCompilationSegment.logicalPrefixes segments) logical ∧
      Listing compare (unionOf EncodedCompilationSegment.extensionPrefixes segments) extensions ∧
      Listing compare (unionOf EncodedCompilationSegment.entities segments) entities ∧
      fingerprints = ⟨logicalInput logical extensions, signatureInput entities⟩) OutOfWork := by
  have known : ∀ entity ∈ seen.entityNodes, ∃ table, KnownNode tables entity table := fun entity member =>
    (compiled.known_entity observed member).imp fun _ found => found.1
  have compares : ∀ first ∈ seen.entityNodes, ∀ second ∈ seen.entityNodes,
    Settles (compareSegmentNodes first second tables maxWork)
      (· = compare (segmentBytes tables first) (segmentBytes tables second)) OutOfWork := by
    intro first firstIn second secondIn
    obtain ⟨_, firstKnown⟩ := known first firstIn
    obtain ⟨_, secondKnown⟩ := known second secondIn
    exact compareSegmentNodes_settles firstKnown secondKnown
  have annotated : ∀ {wanted : SegmentRootRef → Bool},
    (∀ reference table, KnownRoot tables reference table → wanted reference →
      table.columns.rootKind reference.root = ROOT_AXIOM ∨ table.columns.rootKind reference.root = ROOT_EXTENSION) →
      ∀ reference ∈ strippedRoots tables (taken.filter wanted), ∃ table, AnnotatedRoot tables reference table := by
    intro wanted kinds reference member
    obtain ⟨inside, chosen⟩ := List.mem_filter.mp (strippedRoots_subset member)
    obtain ⟨table, known⟩ := compiled.known reference inside
    exact ⟨table, { known with annotated := kinds reference table known chosen }⟩
  have logicalKnown := @annotated (isLogicalRoot tables) fun reference table known chosen => by
    rw [isLogicalRoot, known.found, Option.any_some, Bool.and_eq_true, decide_eq_true_eq] at chosen
    exact .inl chosen.1
  have extensionKnown := @annotated (isExtensionRoot tables) fun reference table known chosen => by
    rw [isExtensionRoot, known.found, Option.any_some, decide_eq_true_eq] at chosen
    exact .inr chosen
  refine .bind (sort.sorts (transCmp_on (segmentBytes tables)) compares) fun sorted order => ?_
  obtain ⟨perm, ordered⟩ := order
  refine .bind (deduplicate_settles (fun _ _ => compare_eq_iff) (fun first firstIn second secondIn =>
    compares first (perm.subset firstIn) second (perm.subset secondIn)) ordered) fun entities kept => ?_
  obtain ⟨sublist, ascend, every⟩ := kept
  have entityKnown : ∀ entity ∈ entities, ∃ table, KnownNode tables entity table := fun entity member =>
    known entity (perm.subset (sublist.subset member))
  rw [observed.logical, observed.extension]
  refine .bind (hashSegmentedLogical_settles logicalKnown extensionKnown) fun logical fed => ?_
  refine .bind (hashSegmentedSignature_settles entityKnown) fun signature fed' => .pure ?_
  refine ⟨_, _, entities.map (segmentBytes tables), compiled.logical_listing, compiled.extension_listing,
    ?_, by rw [fed, fed']⟩
  refine ⟨List.pairwise_map.mpr ascend, fun bytes => ?_⟩
  rw [← compiled.mem_entities observed, List.mem_map]
  constructor
  · rintro ⟨entity, member, same⟩
    exact ⟨entity, perm.subset (sublist.subset member), same⟩
  · rintro ⟨entity, member, same⟩
    obtain ⟨other, inside, equal⟩ := every entity (perm.symm.subset member)
    exact ⟨other, inside, equal.trans same⟩

end

end Compiled

end PyElk.Native
