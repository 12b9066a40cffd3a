import PyElk.Native.CanonicalRows

open Raising Lexicographic

namespace PyElk.Native

def CanonicalCompareTask.left : CanonicalCompareTask → Stretch
  | .node left _ fieldLimit => .node left fieldLimit
  | .fields left _ remaining => .fields left remaining
  | .collection kind left _ remaining => .items kind left remaining

def CanonicalCompareTask.right : CanonicalCompareTask → Stretch
  | .node _ right fieldLimit => .node right fieldLimit
  | .fields _ right remaining => .fields right remaining
  | .collection kind _ right remaining => .items kind right remaining

namespace Comparison

variable (comparison : Comparison)

structure Sound : Prop where
  left : comparison.left.columns.Sound comparison.left.canonicalLengths
  right : comparison.right.columns.Sound comparison.right.canonicalLengths
  shared : comparison.shared → comparison.left.columns = comparison.right.columns

noncomputable def leftBytes (tasks : List CanonicalCompareTask) : List UInt8 :=
  tasks.flatMap fun task => comparison.left.columns.bytesOf task.left

noncomputable def rightBytes (tasks : List CanonicalCompareTask) : List UInt8 :=
  tasks.flatMap fun task => comparison.right.columns.bytesOf task.right

/-- Nodes of one constructor are cut within its fields. -/
def Limited : CanonicalCompareTask → Prop
  | .node left right (some limit) => comparison.left.columns.tagOf left = comparison.right.columns.tagOf right →
      limit ≤ comparison.left.columns.arity left
  | _ => True

structure Legal (task : CanonicalCompareTask) : Prop where
  left : comparison.left.columns.Covers comparison.left.canonicalLengths.length task.left
  right : comparison.right.columns.Covers comparison.right.canonicalLengths.length task.right
  limited : comparison.Limited task

/-- What is enough to walk through the tasks. -/
noncomputable def weight (tasks : List CanonicalCompareTask) : Nat :=
  3 * ((comparison.leftBytes tasks).length + (comparison.rightBytes tasks).length) + tasks.length

/-- A step over two strings: they compare as the order says, and where that is even, as the tasks do. -/
structure Follows (left right : List UInt8) (ordering : Ordering) (pushed : List CanonicalCompareTask) : Prop where
  order : ∀ rest other, compare (left ++ rest) (right ++ other) =
    ordering.then (compare (comparison.leftBytes pushed ++ rest) (comparison.rightBytes pushed ++ other))
  legal : ∀ task ∈ pushed, comparison.Legal task

variable {comparison} {left right : List UInt8} {ordering : Ordering} {pushed : List CanonicalCompareTask}

theorem leftBytes_append (first second : List CanonicalCompareTask) :
    comparison.leftBytes (first ++ second) = comparison.leftBytes first ++ comparison.leftBytes second :=
      List.flatMap_append

theorem rightBytes_append (first second : List CanonicalCompareTask) :
    comparison.rightBytes (first ++ second) = comparison.rightBytes first ++ comparison.rightBytes second :=
      List.flatMap_append

theorem weight_append (first second : List CanonicalCompareTask) :
    comparison.weight (first ++ second) = comparison.weight first + comparison.weight second := by
  rw [weight, weight, weight, leftBytes_append, rightBytes_append, List.length_append, List.length_append,
    List.length_append]
  omega

theorem weight_nil : comparison.weight [] = 0 := rfl

/-- Strings that are told apart within themselves need no task. -/
theorem Follows.of_parses (parses : Parses left right) (same : ordering = compare left right) :
    comparison.Follows left right ordering [] where
  order rest other := by rw [same, compare_append parses]; rfl
  legal task member := by cases member

/-- A part told apart by itself, and what follows it. -/
theorem Follows.prepend {first second : List UInt8} (parses : Parses first second) (same : compare first second = .eq)
    (follows : comparison.Follows left right ordering pushed) :
    comparison.Follows (first ++ left) (second ++ right) ordering pushed where
  order rest other := by
    rw [List.append_assoc, List.append_assoc, compare_append parses, same]
    exact follows.order rest other
  legal := follows.legal

/-- A part that differs decides. -/
theorem Follows.decided {first second : List UInt8} (parses : Parses first second)
    (differ : compare first second ≠ .eq) :
    comparison.Follows (first ++ left) (second ++ right) (compare first second) [] where
  order rest other := by
    rw [List.append_assoc, List.append_assoc, compare_append parses]
    cases order : compare first second with
    | lt => rfl
    | gt => rfl
    | eq => exact absurd order differ
  legal task member := by cases member

/-- The tasks of what follows later. -/
theorem Follows.append {later : List CanonicalCompareTask} (follows : comparison.Follows left right ordering pushed)
    (legal : ∀ task ∈ later, comparison.Legal task) :
    comparison.Follows (left ++ comparison.leftBytes later) (right ++ comparison.rightBytes later) ordering
      (pushed ++ later) where
  order rest other := by
    rw [List.append_assoc, List.append_assoc, follows.order, leftBytes_append, rightBytes_append, List.append_assoc,
      List.append_assoc]
  legal task member := (List.mem_append.mp member).elim (follows.legal task) (legal task)

/-- A program that finds what follows, at a cost that the strings pay for. -/
structure Compares (comparison : Comparison) (maxWork low : Nat)
    (step : Metering (Ordering × List CanonicalCompareTask))
    (left right : List UInt8) (ordering : Ordering) (pushed : List CanonicalCompareTask) (cost : Nat) : Prop where
  meters : Meters OutOfWork (workBound maxWork) low step (ordering, pushed) cost
  follows : comparison.Follows left right ordering pushed
  paid : cost + comparison.weight pushed + 1 ≤ 3 * (left.length + right.length)

section

variable {maxWork low : Nat}

/-- Framed strings are told apart by their lengths, or by themselves. -/
theorem compareFramed_follows (sound : comparison.Sound) {leftNode rightNode : Nat}
    (leftWithin : leftNode < comparison.left.canonicalLengths.length)
    (rightWithin : rightNode < comparison.right.canonicalLengths.length) :
    comparison.Follows (EncodedColumns.frame (comparison.left.columns.canonicalBytes leftNode))
      (EncodedColumns.frame (comparison.right.columns.canonicalBytes rightNode))
      (compareFramed comparison leftNode rightNode).1 (compareFramed comparison leftNode rightNode).2 := by
  rw [compareFramed, compareU64Varints_eq, sound.left.measured _ leftWithin, sound.right.measured _ rightWithin,
    EncodedColumns.frame, EncodedColumns.frame]
  split
  · next differ => exact .decided (varint_parses _ _) differ
  · next same =>
    refine .prepend (varint_parses _ _) (not_not.mp same) ⟨fun rest other => ?_, fun task member => ?_⟩
    · rw [leftBytes, rightBytes, List.flatMap_singleton, List.flatMap_singleton]
      change _ = compare (comparison.left.columns.canonicalPrefix leftNode none ++ rest)
        (comparison.right.columns.canonicalPrefix rightNode none ++ other)
      rw [sound.left.canonicalPrefix_none leftWithin, sound.right.canonicalPrefix_none rightWithin]
    · rw [List.mem_singleton.mp member]
      exact ⟨leftWithin, rightWithin, trivial⟩

theorem compareFramed_paid (sound : comparison.Sound) {leftNode rightNode : Nat}
    (leftWithin : leftNode < comparison.left.canonicalLengths.length)
    (rightWithin : rightNode < comparison.right.canonicalLengths.length) :
    comparison.weight (compareFramed comparison leftNode rightNode).2 + 1 ≤
      3 * ((EncodedColumns.frame (comparison.left.columns.canonicalBytes leftNode)).length +
        (EncodedColumns.frame (comparison.right.columns.canonicalBytes rightNode)).length) := by
  have leftPositive := varint_length_pos (comparison.left.columns.canonicalBytes leftNode).length
  have rightPositive := varint_length_pos (comparison.right.columns.canonicalBytes rightNode).length
  rw [compareFramed, EncodedColumns.frame, EncodedColumns.frame, List.length_append, List.length_append]
  split
  · rw [weight_nil]
    omega
  · rw [weight, leftBytes, rightBytes, List.flatMap_singleton, List.flatMap_singleton]
    change 3 * ((comparison.left.columns.canonicalPrefix leftNode none).length +
      (comparison.right.columns.canonicalPrefix rightNode none).length) + 1 + 1 ≤ _
    rw [sound.left.canonicalPrefix_none leftWithin, sound.right.canonicalPrefix_none rightWithin]
    omega

/-- The node that a component refers to is found. -/
theorem comparedNode_ok {table : ComparedTable} {component : Component}
    (leaf : component.LegalLeaf table.columns table.canonicalLengths.length)
    (node : component.kind = COMPONENT_NODE) :
    comparedNode table component.value = .ok (component.value - 1) := by
  obtain ⟨positive, within, small⟩ := leaf.node node
  rw [comparedNode, CoreResult.bind_ok]
  exact ⟨component.value, nodeIdentifier_ok.mpr ⟨small, rfl⟩, nodeIndex_ok.mpr ⟨positive, by omega, rfl⟩⟩

variable (maxWork low) in
/-- Two payloads of one length are compared as strings. -/
theorem compareScalarRanges_meters (sound : comparison.Sound) {leftStart rightStart length : Nat}
    (leftSmall : leftStart + length < USIZE)
    (leftWithin : leftStart + length ≤ comparison.left.columns.scalarBytes.length)
    (rightSmall : rightStart + length < USIZE)
    (rightWithin : rightStart + length ≤ comparison.right.columns.scalarBytes.length) :
    ∃ cost ≤ length, Meters OutOfWork (workBound maxWork) low
      (compareScalarRanges comparison leftStart rightStart length maxWork)
      (compare ((comparison.left.columns.scalarBytes.drop leftStart).take length)
        ((comparison.right.columns.scalarBytes.drop rightStart).take length)) cost := by
  rw [compareScalarRanges]
  split
  · next same =>
    refine ⟨0, Nat.zero_le _, ?_⟩
    rw [same.2, sound.shared same.1, compare_self]
    exact .pure _
  · refine ⟨length, Nat.le_refl _, .bind_free (claimWork_meters length maxWork low) (.check ?_)⟩
    rw [compareScalarLoop_ok leftSmall leftWithin rightSmall rightWithin fun offset member =>
      List.mem_range.mp member,
      compare_eq_foldr]
    congr 3
    rw [List.length_take, List.length_take, List.length_drop, List.length_drop]
    omega

variable (maxWork low) in
/-- Two integers are compared as varints. -/
theorem compareIntegerComponents_meters {leftStart leftLength rightStart rightLength : Nat}
    (leftRange : IntegerRange comparison.left.columns.scalarBytes leftStart leftLength)
    (rightRange : IntegerRange comparison.right.columns.scalarBytes rightStart rightLength) :
    ∃ cost ≤ (varint (IntegerRange.value comparison.left.columns.scalarBytes leftStart leftLength)).length +
        (varint (IntegerRange.value comparison.right.columns.scalarBytes rightStart rightLength)).length,
      Meters OutOfWork (workBound maxWork) low
        (compareIntegerComponents comparison leftStart leftLength rightStart rightLength maxWork)
        (compare (varint (IntegerRange.value comparison.left.columns.scalarBytes leftStart leftLength))
          (varint (IntegerRange.value comparison.right.columns.scalarBytes rightStart rightLength))) cost := by
  refine ⟨_, ?_,
    .check_bind leftRange.width
    (.check_bind rightRange.width (.bind_free (claimWork_meters _ maxWork low) (.check ?_)))⟩
  · rw [varint_length, varint_length]
    omega
  · rw [compareIntegerLoop_ok leftRange.byteAt rightRange.byteAt, compare_eq_foldr, varint_length, varint_length]

variable {leftRow rightRow : ComponentRow} {leftPart rightPart : Component}

/-- The order of two kinds is that of their bytes. -/
theorem compare_marks {first second : Nat} (small : first ≤ COMPONENT_SEQUENCE)
    (small' : second ≤ COMPONENT_SEQUENCE) :
    compare [UInt8.ofNat first] [UInt8.ofNat second] = compare first second := by
  have bytes : compare (UInt8.ofNat first) (UInt8.ofNat second) = compare first second := by
    have low : (UInt8.ofNat first).toNat = first := by
      rw [UInt8.toNat_ofNat']
      exact Nat.mod_eq_of_lt (small.trans_lt (by decide))
    have low' : (UInt8.ofNat second).toNat = second := by
      rw [UInt8.toNat_ofNat']
      exact Nat.mod_eq_of_lt (small'.trans_lt (by decide))
    change compareOfLessAndEq _ _ = compareOfLessAndEq _ _
    rw [compareOfLessAndEq, compareOfLessAndEq]
    simp only [UInt8.lt_iff_toNat_lt, ← UInt8.toNat_inj, low, low']
  rw [List.compare_cons_cons, bytes]
  cases compare first second with
  | lt => rfl
  | eq => rfl
  | gt => rfl

/-- Components of one kind are compared by what follows it. -/
theorem Compares.marked {kind cost : Nat} {step : Metering (Ordering × List CanonicalCompareTask)}
    (meters : Meters OutOfWork (workBound maxWork) low step (ordering, pushed) cost)
    (follows : comparison.Follows left right ordering pushed)
    (paid : cost + comparison.weight pushed ≤ 3 * (left.length + right.length)) :
    Compares comparison maxWork low step (UInt8.ofNat kind :: left)
      (UInt8.ofNat kind :: right) ordering pushed cost where
  meters := meters
  follows := by
    change comparison.Follows ([UInt8.ofNat kind] ++ left) ([UInt8.ofNat kind] ++ right) ordering pushed
    exact follows.prepend (.refl _) (compare_self _)
  paid := by
    rw [List.length_cons, List.length_cons]
    omega

/-- Lengths that differ decide. -/
theorem Follows.of_lengths {first second : Nat} (differ : compareU64Varints first second ≠ .eq) :
    comparison.Follows (varint first ++ left) (varint second ++ right) (compareU64Varints first second) [] := by
  rw [compareU64Varints_eq] at differ ⊢
  exact .decided (varint_parses _ _) differ

theorem eq_of_compareU64Varints {first second : Nat} (even : compareU64Varints first second = .eq) :
    first = second := by
  rw [compareU64Varints_eq] at even
  exact varint_injective (compare_eq_iff.mp even)

section

variable (leftRead : componentParts leftRow comparison.left.columns = .ok leftPart.parts)
  (rightRead : componentParts rightRow comparison.right.columns = .ok rightPart.parts)
  (same : leftPart.kind = rightPart.kind)

include leftRead rightRead same

theorem scalar_compares (sound : comparison.Sound)
    (leftLeaf : leftPart.LegalLeaf comparison.left.columns comparison.left.canonicalLengths.length)
    (rightLeaf : rightPart.LegalLeaf comparison.right.columns comparison.right.canonicalLengths.length)
    (scalar : isScalar leftPart.kind) :
    ∃ ordering pushed cost,
      Compares comparison maxWork low (scheduleComponentComparison comparison leftRow rightRow maxWork)
      (UInt8.ofNat leftPart.kind :: comparison.left.columns.content comparison.left.columns.canonicalBytes leftPart)
      (UInt8.ofNat leftPart.kind :: comparison.right.columns.content
        comparison.right.columns.canonicalBytes rightPart)
      ordering pushed cost := by
  have kinds : ¬ compare leftPart.kind rightPart.kind ≠ .eq := not_not.mpr (Nat.compare_eq_eq.mpr same)
  have notNone : leftPart.kind ≠ COMPONENT_NONE := fun absent => by
    rw [absent] at scalar
    exact absurd scalar (by decide)
  have notNode : leftPart.kind ≠ COMPONENT_NODE := fun node => by rw [node] at scalar; exact absurd scalar (by decide)
  have scalar' : isScalar rightPart.kind := same ▸ scalar
  rw [EncodedColumns.content_scalar scalar, EncodedColumns.content_scalar scalar']
  by_cases even : compareU64Varints leftPart.length rightPart.length = .eq
  · have lengths := eq_of_compareU64Varints even
    have leftRange := leftLeaf.scalar scalar
    have rightRange := rightLeaf.scalar scalar'
    have leftSize : (comparison.left.columns.payload leftPart).length = leftPart.length := by
      rw [EncodedColumns.payload, List.length_take, List.length_drop]
      omega
    have rightSize : (comparison.right.columns.payload rightPart).length = leftPart.length := by
      rw [EncodedColumns.payload, List.length_take, List.length_drop]
      omega
    rw [← lengths] at rightRange ⊢
    obtain ⟨cost, few, meters⟩ := compareScalarRanges_meters maxWork low sound leftRange.1 leftRange.2
      rightRange.1 rightRange.2
    refine ⟨_, [], cost, .marked ?_ (.prepend (.refl _) (compare_self _) (.of_parses (.of_length ?_) rfl)) ?_⟩
    · refine .check_bind leftRead
        (.check_bind rightRead (.if_neg kinds (.if_neg notNone (.if_neg notNode (.if_pos scalar ?_)))))
      refine .if_neg (not_not.mpr even) (.bind_free meters ?_)
      rw [EncodedColumns.payload, EncodedColumns.payload, ← lengths]
      exact .pure _
    · rw [leftSize, rightSize]
    · rw [weight_nil, List.length_append, List.length_append, leftSize, rightSize]
      omega
  · refine ⟨_, [], 0, .marked ?_ (.of_lengths even) (Nat.zero_le _)⟩
    refine .check_bind leftRead
      (.check_bind rightRead (.if_neg kinds (.if_neg notNone (.if_neg notNode (.if_pos scalar ?_)))))
    exact .if_pos even (.pure _)

theorem integer_compares
    (leftLeaf : leftPart.LegalLeaf comparison.left.columns comparison.left.canonicalLengths.length)
    (rightLeaf : rightPart.LegalLeaf comparison.right.columns comparison.right.canonicalLengths.length)
    (integer : leftPart.kind = COMPONENT_INTEGER) :
    ∃ ordering pushed cost,
      Compares comparison maxWork low (scheduleComponentComparison comparison leftRow rightRow maxWork)
      (UInt8.ofNat leftPart.kind :: comparison.left.columns.content comparison.left.columns.canonicalBytes leftPart)
      (UInt8.ofNat leftPart.kind :: comparison.right.columns.content
        comparison.right.columns.canonicalBytes rightPart)
      ordering pushed cost := by
  have kinds : ¬ compare leftPart.kind rightPart.kind ≠ .eq := not_not.mpr (Nat.compare_eq_eq.mpr same)
  have notNone : leftPart.kind ≠ COMPONENT_NONE := by rw [integer]; decide
  have notNode : leftPart.kind ≠ COMPONENT_NODE := by rw [integer]; decide
  have notScalar : ¬ isScalar leftPart.kind := by rw [integer]; decide
  have integer' : rightPart.kind = COMPONENT_INTEGER := same.symm.trans integer
  rw [EncodedColumns.content_integer integer, EncodedColumns.content_integer integer']
  obtain ⟨cost, few, meters⟩ := compareIntegerComponents_meters maxWork low (leftLeaf.range integer)
    (rightLeaf.range integer')
  refine ⟨_, [], cost, .marked ?_ (.of_parses (varint_parses _ _) rfl) ?_⟩
  · refine .check_bind leftRead
      (.check_bind rightRead (.if_neg kinds (.if_neg notNone (.if_neg notNode (.if_neg notScalar ?_)))))
    exact .if_pos integer (.bind_free meters (.pure _))
  · change cost ≤ (varint (Bytes.ofLittleEndian (comparison.left.columns.payload leftPart))).length +
      (varint (Bytes.ofLittleEndian (comparison.right.columns.payload rightPart))).length at few
    rw [weight_nil]
    omega

theorem collection_compares
    (leftLegal : leftPart.Legal comparison.left.columns comparison.left.canonicalLengths.length)
    (rightLegal : rightPart.Legal comparison.right.columns comparison.right.canonicalLengths.length)
    (collection : isCollection leftPart.kind) :
    ∃ ordering pushed cost,
      Compares comparison maxWork low (scheduleComponentComparison comparison leftRow rightRow maxWork)
      (UInt8.ofNat leftPart.kind :: comparison.left.columns.content comparison.left.columns.canonicalBytes leftPart)
      (UInt8.ofNat leftPart.kind :: comparison.right.columns.content
        comparison.right.columns.canonicalBytes rightPart)
      ordering pushed cost := by
  have kinds : ¬ compare leftPart.kind rightPart.kind ≠ .eq := not_not.mpr (Nat.compare_eq_eq.mpr same)
  have collection' : isCollection rightPart.kind := same ▸ collection
  have notNone : leftPart.kind ≠ COMPONENT_NONE := fun absent => by
    rw [absent] at collection
    exact absurd collection (by decide)
  have notNode : leftPart.kind ≠ COMPONENT_NODE := fun node => by
    rw [node] at collection
    exact absurd collection (by decide)
  have notInteger : leftPart.kind ≠ COMPONENT_INTEGER := fun integer => by
    rw [integer] at collection; exact absurd collection (by decide)
  have notScalar : ¬ isScalar leftPart.kind := by
    rw [isCollection, Bool.or_eq_true, decide_eq_true_eq, decide_eq_true_eq] at collection
    obtain set | sequence := collection
    · rw [set]; decide
    · rw [sequence]; decide
  rw [EncodedColumns.content_collection collection, EncodedColumns.content_collection collection', ← same]
  by_cases even : compareU64Varints leftPart.length rightPart.length = .eq
  · have lengths := eq_of_compareU64Varints even
    have positive := varint_length_pos leftPart.length
    have task : comparison.Follows
        (comparison.leftBytes [.collection leftPart.kind leftPart.value rightPart.value leftPart.length])
        (comparison.rightBytes [.collection leftPart.kind leftPart.value rightPart.value leftPart.length]) .eq
        [.collection leftPart.kind leftPart.value rightPart.value leftPart.length] := by
      refine ⟨fun rest other => rfl, fun other member => ?_⟩
      rw [List.mem_singleton.mp member]
      refine ⟨fun item above below => leftLegal.item collection item above below, fun item above below => ?_, trivial⟩
      exact rightLegal.item collection' item above (lengths ▸ below)
    have both := task.prepend (.refl (varint leftPart.length)) (compare_self _)
    rw [leftBytes, rightBytes, List.flatMap_singleton, List.flatMap_singleton] at both
    rw [← lengths]
    refine ⟨.eq, _, 0, .marked ?_ both ?_⟩
    · refine .check_bind leftRead
        (.check_bind rightRead (.if_neg kinds (.if_neg notNone (.if_neg notNode (.if_neg notScalar ?_)))))
      exact .if_neg notInteger (.if_pos collection (.if_neg (not_not.mpr even) (.pure _)))
    · rw [weight, leftBytes, rightBytes, List.flatMap_singleton, List.flatMap_singleton, List.length_append,
        List.length_append]
      change 0 + (3 * (((comparison.left.columns.items leftPart.value leftPart.length).flatMap _).length +
        ((comparison.right.columns.items rightPart.value leftPart.length).flatMap _).length) + 1) ≤ _
      omega
  · refine ⟨_, [], 0, .marked ?_ (.of_lengths even) (Nat.zero_le _)⟩
    refine .check_bind leftRead
      (.check_bind rightRead (.if_neg kinds (.if_neg notNone (.if_neg notNode (.if_neg notScalar ?_)))))
    exact .if_neg notInteger (.if_pos collection (.if_pos even (.pure _)))

end

variable (maxWork low) in
/-- The order of two components, or the tasks that it is left to. -/
theorem schedule_compares (sound : comparison.Sound)
    (leftRead : componentParts leftRow comparison.left.columns = .ok leftPart.parts)
    (rightRead : componentParts rightRow comparison.right.columns = .ok rightPart.parts)
    (leftLegal : leftPart.Legal comparison.left.columns comparison.left.canonicalLengths.length)
    (rightLegal : rightPart.Legal comparison.right.columns comparison.right.canonicalLengths.length) :
    ∃ ordering pushed cost,
      Compares comparison maxWork low (scheduleComponentComparison comparison leftRow rightRow maxWork)
      (comparison.left.columns.componentBytes comparison.left.columns.canonicalBytes leftPart)
      (comparison.right.columns.componentBytes comparison.right.columns.canonicalBytes rightPart) ordering
      pushed cost := by
  by_cases kinds : compare leftPart.kind rightPart.kind = .eq
  · have same : leftPart.kind = rightPart.kind := Nat.compare_eq_eq.mp kinds
    -- once the kinds are read and found the same, what follows decides
    suffices later : ∃ ordering pushed cost, Compares comparison maxWork low
        (scheduleComponentComparison comparison leftRow rightRow maxWork)
        (UInt8.ofNat leftPart.kind :: comparison.left.columns.content comparison.left.columns.canonicalBytes leftPart)
        (UInt8.ofNat leftPart.kind :: comparison.right.columns.content
          comparison.right.columns.canonicalBytes rightPart)
        ordering pushed cost by
      rw [EncodedColumns.componentBytes, EncodedColumns.componentBytes, ← same]
      exact later
    obtain collection | leaf := (isCollection leftPart.kind).eq_false_or_eq_true
    · exact collection_compares leftRead rightRead same leftLegal rightLegal collection
    · have leftLeaf := leftLegal.legalLeaf leaf
      have rightLeaf := rightLegal.legalLeaf (same ▸ leaf)
      obtain absent | node | scalar | integer := leftLeaf.cases
      · rw [EncodedColumns.content_none absent, EncodedColumns.content_none (same.symm.trans absent)]
        refine ⟨.eq, [], 0, .marked ?_ (.of_parses (.refl _) (compare_self _).symm) ?_⟩
        · exact .check_bind leftRead (.check_bind rightRead (.if_neg (not_not.mpr kinds) (.if_pos absent (.pure _))))
        · exact Nat.le_refl _
      · have other : leftPart.kind ≠ COMPONENT_NONE := by rw [node]; decide
        rw [EncodedColumns.content_node node, EncodedColumns.content_node (same.symm.trans node)]
        have leftWithin := leftLeaf.child node
        have rightWithin := rightLeaf.child (same.symm.trans node)
        have paid := compareFramed_paid sound leftWithin rightWithin
        refine ⟨_, _, 0, .marked ?_ (compareFramed_follows sound leftWithin rightWithin) (by omega)⟩
        refine .check_bind leftRead
          (.check_bind rightRead (.if_neg (not_not.mpr kinds) (.if_neg other (.if_pos node ?_))))
        refine .check_bind (comparedNode_ok leftLeaf node) ?_
        exact .check_bind (comparedNode_ok rightLeaf (same.symm.trans node)) (.pure _)
      · exact scalar_compares leftRead rightRead same sound leftLeaf rightLeaf scalar
      · exact integer_compares leftRead rightRead same leftLeaf rightLeaf integer
  · have decides := compare_marks leftLegal.kind_le rightLegal.kind_le
    refine ⟨compare leftPart.kind rightPart.kind, [], 0, ?_, ?_, ?_⟩
    · exact .check_bind leftRead (.check_bind rightRead (.if_pos kinds (.pure _)))
    · change comparison.Follows ([UInt8.ofNat leftPart.kind] ++ _) ([UInt8.ofNat rightPart.kind] ++ _) _ _
      rw [← decides]
      exact .decided (.of_length rfl) (by rw [decides]; exact kinds)
    · rw [weight_nil, EncodedColumns.componentBytes, EncodedColumns.componentBytes, List.length_cons,
        List.length_cons]
      omega

end

/-- A task is done: an order that decides, or the tasks it is left to, at less than its weight. -/
structure Steps (comparison : Comparison) (maxWork low : Nat) (task : CanonicalCompareTask) (ordering : Ordering)
    (pushed : List CanonicalCompareTask) (cost : Nat) : Prop where
  meters : Meters OutOfWork (workBound maxWork) low (compareTask comparison maxWork task) (ordering, pushed) cost
  follows : comparison.Follows (comparison.left.columns.bytesOf task.left)
    (comparison.right.columns.bytesOf task.right) ordering pushed
  paid : 1 + cost + comparison.weight pushed ≤ comparison.weight [task]

section

variable {maxWork low : Nat}

theorem weight_singleton (task : CanonicalCompareTask) : comparison.weight [task] =
    3 * ((comparison.left.columns.bytesOf task.left).length +
      (comparison.right.columns.bytesOf task.right).length) + 1 := by
  rw [weight, leftBytes, rightBytes, List.flatMap_singleton, List.flatMap_singleton, List.length_singleton]

theorem comparedFields_ok {table : ComparedTable} (sound : table.columns.Sound table.canonicalLengths) {node : Nat}
    (within : node < table.canonicalLengths.length) :
    comparedFields table node = .ok (table.columns.offsetOf node, table.columns.arity node) := by
  have start := uintAt_named (sound.start node within) (table.side ++ "node field offset")
  have end_ := uintAt_named (sound.end_ node within) (table.side ++ "node field offset")
  rw [comparedFields, usizeAt, start, end_]
  rfl

/-- Nodes of one constructor have as many fields. -/
theorem arity_eq (sound : comparison.Sound) {left right : Nat}
    (leftWithin : left < comparison.left.canonicalLengths.length)
    (rightWithin : right < comparison.right.canonicalLengths.length)
    (tags : comparison.left.columns.tagOf left = comparison.right.columns.tagOf right) :
    comparison.right.columns.arity right = comparison.left.columns.arity left := by
  obtain ⟨roles, found, same⟩ := sound.left.roles left leftWithin
  obtain ⟨roles', found', same'⟩ := sound.right.roles right rightWithin
  rw [tags, found', Option.some.injEq] at found
  rw [same, same', found]

theorem node_steps (sound : comparison.Sound) {left right : Nat} {fieldLimit : Option Nat}
    (legal : comparison.Legal (.node left right fieldLimit)) :
    ∃ ordering pushed cost, Steps comparison maxWork low (.node left right fieldLimit) ordering pushed cost := by
  have leftWithin : left < comparison.left.canonicalLengths.length := legal.left
  have rightWithin : right < comparison.right.canonicalLengths.length := legal.right
  by_cases skipped : comparison.shared ∧ left = right
  · refine ⟨.eq, [], 0, .if_pos skipped (.pure _), ?_, ?_⟩
    · change comparison.Follows (comparison.left.columns.canonicalPrefix left fieldLimit)
        (comparison.right.columns.canonicalPrefix right fieldLimit) .eq []
      rw [sound.shared skipped.1, skipped.2]
      exact .of_parses (.refl _) (compare_self _).symm
    · rw [weight_nil, weight_singleton]
      omega
  · have leftTag := uintAt_named (sound.left.tag left leftWithin) (comparison.left.side ++ "node tag")
    have rightTag := uintAt_named (sound.right.tag right rightWithin) (comparison.right.side ++ "node tag")
    have leftPositive := varint_length_pos (comparison.left.columns.tagOf left)
    by_cases even : compareU64Varints (comparison.left.columns.tagOf left)
      (comparison.right.columns.tagOf right) = .eq
    · have tags := eq_of_compareU64Varints even
      have arities := arity_eq sound leftWithin rightWithin tags
      have limited : fieldLimit.getD (comparison.left.columns.arity left) ≤ comparison.left.columns.arity left := by
        cases fieldLimit with
        | none => exact Nat.le_refl _
        | some limit => exact legal.limited tags
      have leftCut : comparison.left.columns.bytesOf (.node left fieldLimit) =
        varint (comparison.left.columns.tagOf left) ++
          comparison.left.columns.bytesOf (.fields (comparison.left.columns.offsetOf left)
            (fieldLimit.getD (comparison.left.columns.arity left))) := by
        rw [EncodedColumns.bytesOf, EncodedColumns.canonicalPrefix, EncodedColumns.prefixBytes,
          EncodedColumns.fields_take limited]
        rfl
      have rightCut : comparison.right.columns.bytesOf (.node right fieldLimit) =
        varint (comparison.left.columns.tagOf left) ++
          comparison.right.columns.bytesOf (.fields (comparison.right.columns.offsetOf right)
            (fieldLimit.getD (comparison.left.columns.arity left))) := by
        rw [EncodedColumns.bytesOf, EncodedColumns.canonicalPrefix, EncodedColumns.prefixBytes, arities,
          EncodedColumns.fields_take limited, tags]
        rfl
      have follows : comparison.Follows
          (comparison.left.columns.bytesOf (.fields (comparison.left.columns.offsetOf left)
            (fieldLimit.getD (comparison.left.columns.arity left))))
          (comparison.right.columns.bytesOf (.fields (comparison.right.columns.offsetOf right)
            (fieldLimit.getD (comparison.left.columns.arity left)))) .eq
          [.fields (comparison.left.columns.offsetOf left) (comparison.right.columns.offsetOf right)
            (fieldLimit.getD (comparison.left.columns.arity left))] := by
        refine ⟨fun rest other => ?_, fun task member => ?_⟩
        · rw [leftBytes, rightBytes, List.flatMap_singleton, List.flatMap_singleton]
          rfl
        · rw [List.mem_singleton.mp member]
          refine ⟨fun index above below => ?_, fun index above below => ?_, trivial⟩
          · exact sound.left.field left leftWithin index above (by omega)
          · exact sound.right.field right rightWithin index above (by omega)
      refine ⟨.eq, [.fields (comparison.left.columns.offsetOf left) (comparison.right.columns.offsetOf right)
        (fieldLimit.getD (comparison.left.columns.arity left))], 0,
          .if_neg skipped (.check_bind leftTag (.check_bind rightTag (.if_neg (not_not.mpr even) ?_))), ?_, ?_⟩
      · refine .check_bind (comparedFields_ok sound.left leftWithin)
          (.check_bind (comparedFields_ok sound.right rightWithin) ?_)
        refine .check_bind (refuse_of_not (not_not.mpr arities) _) ?_
        exact .check_bind (refuse_of_not (not_lt.mpr limited) _) (.pure _)
      · rw [CanonicalCompareTask.left, CanonicalCompareTask.right, leftCut, rightCut]
        exact follows.prepend (.refl _) (compare_self _)
      · rw [weight_singleton, weight_singleton, CanonicalCompareTask.left, CanonicalCompareTask.right,
          leftCut, rightCut,
          List.length_append, List.length_append]
        simp only [CanonicalCompareTask.left, CanonicalCompareTask.right]
        omega
    · refine ⟨_, [], 0, .if_neg skipped (.check_bind leftTag (.check_bind rightTag (.if_pos even (.pure _)))), ?_, ?_⟩
      · exact .of_lengths even
      · rw [weight_nil, weight_singleton]
        omega

theorem advance_ok {left right : Nat} (leftSmall : left + 1 < USIZE) (rightSmall : right + 1 < USIZE)
    (overflow : String) :
    advance left right overflow = .ok (left + 1, right + 1) := by
  have leftAdded : checkedAdd left 1 = some (left + 1) := if_pos leftSmall
  have rightAdded : checkedAdd right 1 = some (right + 1) := if_pos rightSmall
  rw [advance, leftAdded, rightAdded]
  rfl

/-- A component, and the task that is left behind it. -/
theorem Compares.behind {step : Metering (Ordering × List CanonicalCompareTask)}
    {later : CanonicalCompareTask} {cost : Nat}
    (compares : Compares comparison maxWork low step left right ordering pushed cost)
    (legal : comparison.Legal later) :
    comparison.Follows (left ++ comparison.left.columns.bytesOf later.left)
      (right ++ comparison.right.columns.bytesOf later.right)
        ordering (pushed ++ [later]) ∧
      1 + cost + comparison.weight (pushed ++ [later]) ≤
        3 * ((left ++ comparison.left.columns.bytesOf later.left).length +
          (right ++ comparison.right.columns.bytesOf later.right).length) + 1 := by
  have paid := compares.paid
  have single : ∀ task ∈ [later], comparison.Legal task := fun task member => List.mem_singleton.mp member ▸ legal
  have behind := compares.follows.append single
  rw [leftBytes, rightBytes, List.flatMap_singleton, List.flatMap_singleton] at behind
  refine ⟨behind, ?_⟩
  rw [weight_append, weight_singleton, List.length_append, List.length_append]
  omega

section

variable {first second remaining : Nat}

theorem fields_steps (sound : comparison.Sound) (legal : comparison.Legal (.fields first second (remaining + 1))) :
    ∃ ordering pushed cost,
      Steps comparison maxWork low (.fields first second (remaining + 1)) ordering pushed cost := by
  have firstField := legal.left first (Nat.le_refl _) (by omega)
  have secondField := legal.right second (Nat.le_refl _) (by omega)
  have later : comparison.Legal (.fields (first + 1) (second + 1) remaining) := by
    refine ⟨fun index above below => ?_, fun index above below => ?_, trivial⟩
    · exact legal.left index (by omega) (by omega)
    · exact legal.right index (by omega) (by omega)
  obtain ⟨ordering, pushed, cost, compares⟩ := schedule_compares maxWork low sound firstField.read secondField.read
    firstField.legal secondField.legal
  have covered : comparison.left.columns.bytesOf (.fields first (remaining + 1)) =
      comparison.left.columns.componentBytes comparison.left.columns.canonicalBytes
        (comparison.left.columns.field first) ++
        comparison.left.columns.bytesOf (.fields (first + 1) remaining) := by
    rw [EncodedColumns.bytesOf, EncodedColumns.fields_succ, List.flatMap_cons]
    rfl
  have covered' : comparison.right.columns.bytesOf (.fields second (remaining + 1)) =
      comparison.right.columns.componentBytes comparison.right.columns.canonicalBytes
        (comparison.right.columns.field second) ++
        comparison.right.columns.bytesOf (.fields (second + 1) remaining) := by
    rw [EncodedColumns.bytesOf, EncodedColumns.fields_succ, List.flatMap_cons]
    rfl
  obtain ⟨follows, paid⟩ := compares.behind later
  refine ⟨ordering, pushed ++ [.fields (first + 1) (second + 1) remaining], cost, ?_, ?_, ?_⟩
  · refine .check_bind (advance_ok (EncodedColumns.componentParts_small firstField.read)
      (EncodedColumns.componentParts_small secondField.read) _) ?_
    exact .bind_free compares.meters (.pure _)
  · rw [CanonicalCompareTask.left, CanonicalCompareTask.right, covered, covered']
    exact follows
  · rw [weight_singleton, CanonicalCompareTask.left, CanonicalCompareTask.right, covered, covered']
    exact paid

theorem comparedItem_ok {table : ComparedTable} {item : Nat}
    (legal : table.columns.LegalItem table.canonicalLengths.length item) :
    comparedItem table item = .ok ((table.columns.item item).value - 1) := by
  obtain ⟨positive, within, small⟩ := legal.legal.node legal.node
  have read := legal.read
  simp only [componentParts, CoreResult.bind_ok] at read
  obtain ⟨kind, _, value, found, _⟩ := read
  rw [comparedItem, CoreResult.bind_ok]
  refine ⟨(table.columns.item item).value, ?_, nodeIndex_ok.mpr ⟨positive, by omega, rfl⟩⟩
  rw [nodeIdAt, CoreResult.bind_ok]
  refine ⟨(table.columns.item item).value, uintAt_named found _, ?_⟩
  rw [refuse_of_not (not_le.mpr small)]
  rfl

variable (maxWork low) in
/-- A node of an item of a set, and the task that is left behind it. -/
theorem compareFramed_compares (sound : comparison.Sound)
    (firstItem : comparison.left.columns.LegalItem comparison.left.canonicalLengths.length first)
    (secondItem : comparison.right.columns.LegalItem comparison.right.canonicalLengths.length second) :
    ∃ ordering pushed, compareFramed comparison ((comparison.left.columns.item first).value - 1)
        ((comparison.right.columns.item second).value - 1) = (ordering, pushed) ∧
      Compares comparison maxWork low (pure (ordering, pushed))
        (comparison.left.columns.itemBytes comparison.left.columns.canonicalBytes COMPONENT_SET
          (comparison.left.columns.item first))
        (comparison.right.columns.itemBytes comparison.right.columns.canonicalBytes COMPONENT_SET
          (comparison.right.columns.item second)) ordering pushed 0 := by
  have firstWithin := firstItem.legal.child firstItem.node
  have secondWithin := secondItem.legal.child secondItem.node
  have paid := compareFramed_paid sound firstWithin secondWithin
  rw [EncodedColumns.itemBytes, EncodedColumns.itemBytes, if_pos rfl, if_pos rfl, if_pos firstItem.node,
    if_pos secondItem.node]
  refine ⟨_, _, rfl, .pure _, compareFramed_follows sound firstWithin secondWithin, ?_⟩
  rw [Nat.zero_add]
  exact paid

theorem collection_steps (sound : comparison.Sound) {kind : Nat}
    (legal : comparison.Legal (.collection kind first second (remaining + 1))) :
    ∃ ordering pushed cost,
      Steps comparison maxWork low (.collection kind first second (remaining + 1)) ordering pushed cost := by
  have firstItem := legal.left first (Nat.le_refl _) (by omega)
  have secondItem := legal.right second (Nat.le_refl _) (by omega)
  have later : comparison.Legal (.collection kind (first + 1) (second + 1) remaining) := by
    refine ⟨fun index above below => ?_, fun index above below => ?_, trivial⟩
    · exact legal.left index (by omega) (by omega)
    · exact legal.right index (by omega) (by omega)
  have advanced :=
    advance_ok (EncodedColumns.componentParts_small firstItem.read)
    (EncodedColumns.componentParts_small secondItem.read)
    "encoded item index overflow"
  have covered : comparison.left.columns.bytesOf (.items kind first (remaining + 1)) =
      comparison.left.columns.itemBytes comparison.left.columns.canonicalBytes kind
        (comparison.left.columns.item first) ++
        comparison.left.columns.bytesOf (.items kind (first + 1) remaining) := by
    rw [EncodedColumns.bytesOf, EncodedColumns.items_succ, List.flatMap_cons]
    rfl
  have covered' : comparison.right.columns.bytesOf (.items kind second (remaining + 1)) =
      comparison.right.columns.itemBytes comparison.right.columns.canonicalBytes kind
        (comparison.right.columns.item second) ++
        comparison.right.columns.bytesOf (.items kind (second + 1) remaining) := by
    rw [EncodedColumns.bytesOf, EncodedColumns.items_succ, List.flatMap_cons]
    rfl
  by_cases set : kind = COMPONENT_SET
  · subst set
    obtain ⟨ordering, pushed, framed, compares⟩ := compareFramed_compares maxWork low sound firstItem secondItem
    obtain ⟨follows, paid⟩ := compares.behind later
    refine ⟨ordering, pushed ++ [.collection COMPONENT_SET (first + 1) (second + 1) remaining], 0,
      .check_bind advanced (.if_pos rfl ?_), ?_, ?_⟩
    · refine .check_bind (comparedItem_ok firstItem) (.check_bind (comparedItem_ok secondItem) ?_)
      rw [framed]
      exact .pure _
    · rw [CanonicalCompareTask.left, CanonicalCompareTask.right, covered, covered']
      exact follows
    · rw [weight_singleton, CanonicalCompareTask.left, CanonicalCompareTask.right, covered, covered']
      exact paid
  · obtain ⟨ordering, pushed, cost, compares⟩ := schedule_compares maxWork low sound firstItem.read secondItem.read
      firstItem.component secondItem.component
    rw [← firstItem.itemBytes_of_ne set, ← secondItem.itemBytes_of_ne set] at compares
    obtain ⟨follows, paid⟩ := compares.behind later
    refine ⟨ordering, pushed ++ [.collection kind (first + 1) (second + 1) remaining], cost, ?_, ?_, ?_⟩
    · exact .check_bind advanced (.if_neg set (.bind_free compares.meters (.pure _)))
    · rw [CanonicalCompareTask.left, CanonicalCompareTask.right, covered, covered']
      exact follows
    · rw [weight_singleton, CanonicalCompareTask.left, CanonicalCompareTask.right, covered, covered']
      exact paid

end

variable (maxWork low) in
/-- What one turn does. -/
theorem task_steps (sound : comparison.Sound) (task : CanonicalCompareTask) (legal : comparison.Legal task) :
    ∃ ordering pushed cost, Steps comparison maxWork low task ordering pushed cost := by
  cases task with
  | node left right fieldLimit => exact node_steps sound legal
  | fields left right remaining =>
    cases remaining with
    | zero =>
      exact ⟨.eq, [], 0, .pure _,
        .of_parses (.refl _) (compare_self _).symm, by rw [weight_nil, weight_singleton]; omega⟩
    | succ remaining => exact fields_steps sound legal
  | collection kind left right remaining =>
    cases remaining with
    | zero =>
      exact ⟨.eq, [], 0, .pure _,
        .of_parses (.refl _) (compare_self _).symm, by rw [weight_nil, weight_singleton]; omega⟩
    | succ remaining => exact collection_steps sound legal

theorem weight_cons (task : CanonicalCompareTask) (tasks : List CanonicalCompareTask) :
    comparison.weight (task :: tasks) = comparison.weight [task] + comparison.weight tasks :=
      weight_append [task] tasks

/-- The tasks are walked through in order; their weight is enough. -/
theorem loop_meters (sound : comparison.Sound) {turns : Nat} {tasks : List CanonicalCompareTask}
    (legal : ∀ task ∈ tasks, comparison.Legal task) (enough : workBound maxWork < low + turns) :
    ∃ cost ≤ comparison.weight tasks,
      Meters OutOfWork (workBound maxWork) low (compareLoop comparison maxWork turns tasks)
      (compare (comparison.leftBytes tasks) (comparison.rightBytes tasks)) cost := by
  induction turns generalizing low tasks with
  | zero => exact ⟨0, Nat.zero_le _, .of_lt enough⟩
  | succ turns ih =>
    cases tasks with
    | nil => exact ⟨0, Nat.zero_le _, .pure _⟩
    | cons task tasks =>
      obtain ⟨ordering, pushed, cost, meters, follows, paid⟩ :=
        task_steps maxWork (low + 1) sound task (legal task (.head _))
      have order := follows.order (comparison.leftBytes tasks) (comparison.rightBytes tasks)
      rw [weight_cons]
      by_cases decided : ordering = .eq
      · have later : ∀ other ∈ pushed ++ tasks, comparison.Legal other := fun other member =>
          (List.mem_append.mp member).elim (follows.legal other) fun behind => legal other (.tail _ behind)
        have enough' : workBound maxWork < low + 1 + cost + turns := by omega
        obtain ⟨rest, few, walks⟩ := ih later enough'
        rw [weight_append] at few
        refine ⟨1 + (cost + rest), by omega,
          .bind (claimWork_meters 1 maxWork low) (.bind meters (.if_neg (not_not.mpr decided) ?_))⟩
        rw [leftBytes_append, rightBytes_append] at walks
        rw [decided] at order
        change Meters _ _ _ _ (compare (comparison.left.columns.bytesOf task.left ++ comparison.leftBytes tasks)
          (comparison.right.columns.bytesOf task.right ++ comparison.rightBytes tasks)) rest
        rw [order]
        exact walks
      · refine ⟨1 + cost, by omega, .bind (claimWork_meters 1 maxWork low) (.bind_free meters (.if_pos decided ?_))⟩
        have same : compare (comparison.leftBytes (task :: tasks)) (comparison.rightBytes (task :: tasks)) =
          ordering := by
          refine order.trans ?_
          cases ordering with
          | lt => rfl
          | gt => rfl
          | eq => exact absurd rfl decided
        rw [same]
        exact .pure _

/-- A comparison of two nodes returns the order of their canonical bytes. -/
theorem nodes_meters (sound : comparison.Sound) {left right : Nat} {fieldLimit : Option Nat}
    (legal : comparison.Legal (.node left right fieldLimit)) :
    ∃ cost ≤ comparison.weight [.node left right fieldLimit],
      Meters OutOfWork (workBound maxWork) 0
        (compareLoop comparison maxWork (maxWork + 1) [.node left right fieldLimit])
        (compare (comparison.left.columns.canonicalPrefix left fieldLimit)
          (comparison.right.columns.canonicalPrefix right fieldLimit)) cost := by
  have single : ∀ task ∈ [CanonicalCompareTask.node left right fieldLimit], comparison.Legal task :=
    fun task member =>
    List.mem_singleton.mp member ▸ legal
  have enough : workBound maxWork < 0 + (maxWork + 1) := by
    rw [workBound]
    omega
  obtain ⟨cost, few, meters⟩ := loop_meters sound single enough
  rw [leftBytes, rightBytes, List.flatMap_singleton, List.flatMap_singleton] at meters
  exact ⟨cost, few, meters⟩

end

end Comparison

end PyElk.Native
