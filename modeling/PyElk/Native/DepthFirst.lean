import Mathlib.Data.List.GetD
import PyElk.Native.CanonicalLengths
import PyElk.Native.ValidRows

open Raising Lexicographic

namespace PyElk.Native

/-- Columns whose rows have been validated, but not yet the graph of their nodes. -/
structure EncodedColumns.ValidRows (columns : EncodedColumns) (nodeCount : Nat) : Prop where
  row : ∀ node < nodeCount, columns.NodeRow node
  field : ∀ node < nodeCount, ∀ index, columns.offsetOf node ≤ index →
    index < columns.offsetOf node + columns.arity node →
    columns.ValidField nodeCount index

namespace EncodedColumns

variable {columns : EncodedColumns} {nodeCount : Nat}

/-- A node that a root reaches. -/
def Reached (columns : EncodedColumns) (rootCount nodeCount node : Nat) : Prop :=
  ∃ root < rootCount, ∃ top, nodeIndex (uintOf 4 columns.rootIds root) nodeCount = .ok top ∧
    Relation.ReflTransGen columns.Refers node top

/-- A node that has been left: nothing below it is open, and it is measured. -/
structure Left (columns : EncodedColumns) (canonicalLengths : List Nat) (node : Nat) : Prop where
  grounded : Acc columns.Refers node
  length : canonicalLengths.getD node 0 = (columns.canonicalBytes node).length
  small : (columns.canonicalBytes node).length < USIZE
  measured : ∀ index, columns.offsetOf node ≤ index → index < columns.offsetOf node + columns.arity node →
    (columns.field index).Measured columns

/-- Where a child of a frame can be: in the rows that are not read, left, or in the frame above. -/
def Handled (columns : EncodedColumns) (states : List Nat) (above : Option Nat) (frame : DfsFrame)
    (child : Nat) : Prop :=
  (∃ index, frame.fieldCursor ≤ index ∧ index < frame.fieldEnd ∧ child ∈ columns.references (columns.field index)) ∨
    (∃ item, frame.itemCursor ≤ item ∧ item < frame.itemEnd ∧ child = (columns.item item).value - 1) ∨
    states.getD child 0 = 2 ∨ above = some child

structure FrameOpen (columns : EncodedColumns) (rootCount nodeCount : Nat) (states : List Nat) (above : Option Nat)
    (frame : DfsFrame) :
    Prop where
  within : frame.node < nodeCount
  reached : columns.Reached rootCount nodeCount frame.node
  start : columns.offsetOf frame.node ≤ frame.fieldCursor
  end_ : frame.fieldEnd = columns.offsetOf (frame.node + 1)
  item : ∀ item, frame.itemCursor ≤ item → item < frame.itemEnd → columns.LegalItem nodeCount item ∧
    columns.Refers ((columns.item item).value - 1) frame.node
  handled : ∀ child, columns.Refers child frame.node → columns.Handled states above frame child

/-- The frames of a stack, each with the node above it. -/
def StackOpen (columns : EncodedColumns) (rootCount nodeCount : Nat) (states : List Nat) :
    Option Nat → List DfsFrame → Prop
  | _, [] => True
  | above, frame :: rest => columns.FrameOpen rootCount nodeCount states above frame ∧
      columns.StackOpen rootCount nodeCount states (some frame.node) rest

/-- What is known of the nodes at every turn of the traversal. -/
structure Explored (columns : EncodedColumns) (rootCount nodeCount : Nat) (traversal : Traversal) : Prop where
  states : traversal.states.length = nodeCount
  lengths : traversal.canonicalLengths.length = nodeCount
  left : ∀ node < nodeCount, traversal.states.getD node 0 = 2 → columns.Left traversal.canonicalLengths node
  reached : ∀ node < nodeCount, traversal.states.getD node 0 ≠ 0 → columns.Reached rootCount nodeCount node

structure Traversed (columns : EncodedColumns) (rootCount nodeCount : Nat) (traversal : Traversal) : Prop
    extends columns.Explored rootCount nodeCount traversal where
  stack : columns.StackOpen rootCount nodeCount traversal.states none traversal.stack

section

variable {rootCount maxWork : Nat} {states later : List Nat} {above : Option Nat}

theorem Handled.mono {frame : DfsFrame} {child : Nat} (handled : columns.Handled states above frame child)
    (keeps : ∀ node, states.getD node 0 = 2 → later.getD node 0 = 2) : columns.Handled later above frame child := by
  obtain field | item | done | up := handled
  · exact .inl field
  · exact .inr (.inl item)
  · exact .inr (.inr (.inl (keeps child done)))
  · exact .inr (.inr (.inr up))

theorem FrameOpen.mono {frame : DfsFrame} (opened : columns.FrameOpen rootCount nodeCount states above frame)
    (keeps : ∀ node, states.getD node 0 = 2 → later.getD node 0 = 2) :
    columns.FrameOpen rootCount nodeCount later above frame :=
  { opened with handled := fun child refers => (opened.handled child refers).mono keeps }

theorem StackOpen.mono {stack : List DfsFrame} (opened : columns.StackOpen rootCount nodeCount states above stack)
    (keeps : ∀ node, states.getD node 0 = 2 → later.getD node 0 = 2) :
    columns.StackOpen rootCount nodeCount later above stack := by
  induction stack generalizing above with
  | nil => trivial
  | cons frame rest ih => exact ⟨opened.1.mono keeps, ih opened.2⟩

/-- What is known to be done needs no frame above. -/
theorem FrameOpen.drop {frame : DfsFrame} {child : Nat}
    (opened : columns.FrameOpen rootCount nodeCount states (some child) frame)
    (done : states.getD child 0 = 2) : columns.FrameOpen rootCount nodeCount states none frame := by
  refine { opened with handled := fun other refers => ?_ }
  obtain field | item | left | up := opened.handled other refers
  · exact .inl field
  · exact .inr (.inl item)
  · exact .inr (.inr (.inl left))
  · rw [Option.some.inj up] at done
    exact .inr (.inr (.inl done))

/-- A frame above that is left leaves nothing open below. -/
theorem StackOpen.pop {stack : List DfsFrame} {node : Nat}
    (opened : columns.StackOpen rootCount nodeCount states (some node) stack)
    (done : states.getD node 0 = 2) : columns.StackOpen rootCount nodeCount states none stack := by
  cases stack with
  | nil => trivial
  | cons frame rest => exact ⟨opened.1.drop done, opened.2⟩

theorem getD_set {states : List Nat} {node : Nat} (within : node < states.length) (state other : Nat) :
    (states.set node state).getD other 0 = if node = other then state else states.getD other 0 := by
  rw [List.getD_eq_getElem?_getD, List.getElem?_set]
  split
  · next same =>
    subst same
    rfl
  · rw [List.getD_eq_getElem?_getD]

theorem getD_of_byteAt {bytes : List UInt8} {index : Nat} {name : String} {byte : UInt8}
    (read : byteAt bytes index name = .ok byte) :
    bytes.getD index 0 = byte := by
  rw [List.getD_eq_getElem?_getD, byteAt_ok.mp read]
  rfl

/-- A frame that reads an item goes up to its node, and what is left of it stays open. -/
theorem FrameOpen.readItem {frame : DfsFrame} (opened : columns.FrameOpen rootCount nodeCount states none frame) :
    columns.FrameOpen rootCount nodeCount states (some ((columns.item frame.itemCursor).value - 1))
      { frame with itemCursor := frame.itemCursor + 1 } := by
  refine { opened with item := fun item above below => ?_, handled := fun child refers => ?_ }
  · exact opened.item item (Nat.le_of_succ_le above) below
  · obtain field | ⟨item, above, below, value⟩ | left | up := opened.handled child refers
    · exact .inl field
    · by_cases here : item = frame.itemCursor
      · exact .inr (.inr (.inr (by rw [value, here])))
      · exact .inr (.inl ⟨item, Nat.lt_of_le_of_ne above (Ne.symm here), below, value⟩)
    · exact .inr (.inr (.inl left))
    · cases up

/-- A frame that has read its items goes on to a field. It stays open when the children of the field are in the
items it is to read next, or above it. -/
theorem FrameOpen.readField {frame : DfsFrame} {itemCursor itemEnd : Nat}
    (opened : columns.FrameOpen rootCount nodeCount states none frame) (outside : frame.itemEnd ≤ frame.itemCursor)
    (items : ∀ item, itemCursor ≤ item → item < itemEnd → columns.LegalItem nodeCount item ∧
      columns.Refers ((columns.item item).value - 1) frame.node)
    (children : ∀ child ∈ columns.references (columns.field frame.fieldCursor),
      (∃ item, itemCursor ≤ item ∧ item < itemEnd ∧ child = (columns.item item).value - 1) ∨ above = some child) :
    columns.FrameOpen rootCount nodeCount states above
      { frame with fieldCursor := frame.fieldCursor + 1, itemCursor := itemCursor, itemEnd := itemEnd } := by
  refine { opened with start := Nat.le_succ_of_le opened.start, item := items, handled := fun child refers => ?_ }
  obtain ⟨index, first, last, referred⟩ | ⟨item, first, last, _⟩ | left | up := opened.handled child refers
  · by_cases here : index = frame.fieldCursor
    · obtain item | up := children child (here ▸ referred)
      · exact .inr (.inl item)
      · exact .inr (.inr (.inr up))
    · exact .inl ⟨index, Nat.lt_of_le_of_ne first (Ne.symm here), last, referred⟩
  · exact absurd (Nat.lt_of_le_of_lt first last) (Nat.not_lt.mpr outside)
  · exact .inr (.inr (.inl left))
  · cases up

/-- A frame that has read everything leaves no child open. -/
theorem FrameOpen.finished {frame : DfsFrame} (opened : columns.FrameOpen rootCount nodeCount states none frame)
    (items : frame.itemEnd ≤ frame.itemCursor) (fields : frame.fieldEnd ≤ frame.fieldCursor) {child : Nat}
    (refers : columns.Refers child frame.node) : states.getD child 0 = 2 := by
  obtain ⟨index, first, last, _⟩ | ⟨item, first, last, _⟩ | left | up := opened.handled child refers
  · exact absurd (Nat.lt_of_le_of_lt first last) (Nat.not_lt.mpr fields)
  · exact absurd (Nat.lt_of_le_of_lt first last) (Nat.not_lt.mpr items)
  · exact left
  · cases up

/-- A frame goes on to its next row, or nothing below it is open. -/
theorem FrameOpen.next {frame : DfsFrame} {result : Option (DfsFrame × Option Nat)}
    (valid : columns.ValidRows nodeCount)
    (opened : columns.FrameOpen rootCount nodeCount states none frame) (read : frame.next columns = .ok result) :
    match result with
    | none => ∀ child, columns.Refers child frame.node → states.getD child 0 = 2
    | some (later, referred) => later.node = frame.node ∧
        (∀ identifier ∈ referred, columns.Refers (identifier - 1) frame.node) ∧
        columns.FrameOpen rootCount nodeCount states (referred.map (· - 1)) later := by
  rw [DfsFrame.next] at read
  split at read
  · next inside =>
    obtain ⟨legal, refers⟩ := opened.item frame.itemCursor (Nat.le_refl _) inside
    simp only [CoreResult.bind_ok] at read
    obtain ⟨kind, found, read⟩ := read
    have same : kind.toNat = (columns.item frame.itemCursor).kind := by
      rw [EncodedColumns.item, getD_of_byteAt found]
    rw [if_pos (same.trans legal.node)] at read
    simp only [CoreResult.bind_ok] at read
    obtain ⟨identifier, value, done⟩ := read
    have value := nodeIdAt_ok value
    subst value
    cases done
    refine ⟨rfl, fun other member => ?_, opened.readItem⟩
    rw [← Option.mem_some.mp member]
    exact refers
  · next outside =>
    have outside := Nat.not_lt.mp outside
    split at read
    · next inside =>
      have start := opened.start
      have bound := opened.end_
      have within : frame.fieldCursor < columns.offsetOf frame.node + columns.arity frame.node := by
        rw [arity]
        omega
      have field := valid.field frame.node opened.within frame.fieldCursor start within
      have refers : ∀ child ∈ columns.references (columns.field frame.fieldCursor), columns.Refers child frame.node :=
        fun child => refers_of_reference start within
      simp only [CoreResult.bind_ok] at read
      obtain ⟨kind, found, read⟩ := read
      have same : kind.toNat = (columns.field frame.fieldCursor).kind := by
        rw [EncodedColumns.field, getD_of_byteAt found]
      rw [same] at read
      split at read
      · next node =>
        have children : columns.references (columns.field frame.fieldCursor) =
            [(columns.field frame.fieldCursor).value - 1] := by
          rw [references, not_collection node, if_neg Bool.false_ne_true, Component.leafReferences, if_pos node]
        simp only [CoreResult.bind_ok] at read
        obtain ⟨identifier, value, done⟩ := read
        have value := nodeIdAt_ok value
        subst value
        cases done
        refine ⟨rfl, fun other member => ?_, opened.readField outside opened.item fun child referred => ?_⟩
        · rw [← Option.mem_some.mp member]
          exact refers _ (children ▸ .head _)
        · rw [children] at referred
          exact .inr (congrArg some (List.mem_singleton.mp referred).symm)
      · next other =>
        split at read
        · next collection =>
          simp only [CoreResult.bind_ok, usizeAt, uintAt_ok] at read
          obtain ⟨first, ⟨_, rfl⟩, count, ⟨_, rfl⟩, last, added, done⟩ := read
          rw [okOr_ok, checkedAdd, Option.ite_none_right_eq_some, Option.some.injEq] at added
          obtain ⟨_, rfl⟩ := added
          cases done
          rw [references, if_pos collection] at refers
          refine ⟨rfl, fun identifier member => absurd member (Option.not_mem_none _),
            opened.readField outside (fun item above below => ?_) fun child referred => ?_⟩
          · have legal := field.valid.item collection item above below
            refine ⟨legal,
              refers _ (List.mem_flatMap.mpr ⟨columns.item item, ?_,
                Component.mem_leafReferences.mpr ⟨legal.node, rfl⟩⟩)⟩
            exact List.mem_map.mpr ⟨item, List.mem_range'_1.mpr ⟨above, below⟩, rfl⟩
          · rw [references, if_pos collection] at referred
            obtain ⟨component, member, below⟩ := List.mem_flatMap.mp referred
            obtain ⟨item, bounds, rfl⟩ := List.mem_map.mp member
            have bounds := List.mem_range'_1.mp bounds
            exact .inl ⟨item, bounds.1, bounds.2, (Component.mem_leafReferences.mp below).2⟩
        · next leaf =>
          cases read
          refine ⟨rfl, fun identifier member => absurd member (Option.not_mem_none _),
            opened.readField outside opened.item fun child referred => ?_⟩
          rw [references, if_neg leaf] at referred
          exact absurd (Component.mem_leafReferences.mp referred).1 other
    · next outside' =>
      cases read
      exact fun child => opened.finished outside (Nat.not_lt.mp outside')

theorem ValidRows.child_lt {node child : Nat} (valid : columns.ValidRows nodeCount) (within : node < nodeCount)
    (refers : columns.Refers child node) : child < nodeCount := by
  obtain ⟨component, member, referred⟩ := List.mem_flatMap.mp refers
  obtain ⟨index, bounds, rfl⟩ := List.mem_map.mp member
  have bounds := List.mem_range'_1.mp bounds
  exact reference_lt (valid.field node within index bounds.1 bounds.2).valid referred

theorem Left.set {canonicalLengths : List Nat} {node other : Nat} (left : columns.Left canonicalLengths node)
    (differs : other ≠ node)
    (within : other < canonicalLengths.length) (length : Nat) :
    columns.Left (canonicalLengths.set other length) node :=
  { left with length := by rw [getD_set within, if_neg differs]; exact left.length }

/-- A frame of a node with all its fields before it. -/
theorem FrameOpen.new {node : Nat} {frame : DfsFrame} (within : node < nodeCount)
    (reached : columns.Reached rootCount nodeCount node)
    (opened : DfsFrame.new node columns = .ok frame) :
    frame.node = node ∧ columns.FrameOpen rootCount nodeCount states none frame := by
  simp only [DfsFrame.new, CoreResult.bind_ok, usizeAt, uintAt_ok, okOr_ok, checkedAdd, Option.ite_none_right_eq_some,
    Option.some.injEq] at opened
  obtain ⟨start, ⟨_, rfl⟩, following, ⟨_, rfl⟩, end_, ⟨_, rfl⟩, same⟩ := opened
  cases same
  refine ⟨rfl, within, reached, Nat.le_refl _, rfl, fun item above below => absurd below (Nat.not_lt_zero _),
    fun child refers => ?_⟩
  obtain ⟨component, member, referred⟩ := List.mem_flatMap.mp refers
  obtain ⟨index, bounds, rfl⟩ := List.mem_map.mp member
  have bounds := List.mem_range'_1.mp bounds
  refine .inl ⟨index, bounds.1, ?_, referred⟩
  obtain ⟨above, below⟩ := bounds
  rw [arity] at below
  change columns.offsetOf node ≤ index at above
  change index < columns.offsetOf node + (columns.offsetOf (node + 1) - columns.offsetOf node) at below
  change index < columns.offsetOf (node + 1)
  omega

/-- A node that is opened on a stack that waits for it. -/
theorem Explored.open_ {traversal later : Traversal} {node : Nat}
    (explored : columns.Explored rootCount nodeCount traversal)
    (within : node < nodeCount) (reached : columns.Reached rootCount nodeCount node)
    (fresh : traversal.states.getD node 0 ≠ 2)
    (stack : columns.StackOpen rootCount nodeCount traversal.states (some node) traversal.stack)
    (opened : traversal.open_ node columns = .ok later) : columns.Traversed rootCount nodeCount later := by
  rw [Traversal.open_, CoreResult.bind_ok] at opened
  obtain ⟨frame, started, same⟩ := opened
  cases same
  have inside : node < traversal.states.length := explored.states ▸ within
  have keeps : ∀ other, traversal.states.getD other 0 = 2 → (traversal.states.set node 1).getD other 0 = 2 := by
    intro other done
    rw [getD_set inside, if_neg]
    · exact done
    · rintro rfl
      exact fresh done
  have new : frame.node = node ∧ columns.FrameOpen rootCount nodeCount (traversal.states.set node 1) none frame :=
    FrameOpen.new within reached started
  refine ⟨⟨?_, explored.lengths, fun other withinOther done => ?_, fun other withinOther seen => ?_⟩, new.2, ?_⟩
  · rw [List.length_set]
    exact explored.states
  · rw [getD_set inside] at done
    split at done
    · cases done
    · exact explored.left other withinOther done
  · rw [getD_set inside] at seen
    split at seen
    · next same => exact same ▸ reached
    · exact explored.reached other withinOther seen
  · rw [new.1]
    exact stack.mono keeps

/-- A node that is left, with its length. -/
theorem Explored.leave {traversal : Traversal} {node length : Nat}
    (explored : columns.Explored rootCount nodeCount traversal)
    (within : node < nodeCount) (reached : columns.Reached rootCount nodeCount node)
    (left : columns.Left (traversal.canonicalLengths.set node length) node) (rest : List DfsFrame) :
    columns.Explored rootCount nodeCount ⟨traversal.states.set node 2,
      traversal.canonicalLengths.set node length, rest⟩ := by
  have inside : node < traversal.states.length := explored.states ▸ within
  refine ⟨?_, ?_, fun other withinOther done => ?_, fun other withinOther seen => ?_⟩
  · rw [List.length_set]
    exact explored.states
  · rw [List.length_set]
    exact explored.lengths
  · by_cases same : node = other
    · exact same ▸ left
    · rw [getD_set inside, if_neg same] at done
      exact (explored.left other withinOther done).set same (explored.lengths ▸ within) length
  · by_cases same : node = other
    · exact same ▸ reached
    · rw [getD_set inside, if_neg same] at seen
      exact explored.reached other withinOther seen

/-- A node whose children are left is measured. -/
theorem canonicalNodeLength_left {traversal : Traversal} {node : Nat} (valid : columns.ValidRows nodeCount)
    (explored : columns.Explored rootCount nodeCount traversal) (within : node < nodeCount)
    (left : ∀ child, columns.Refers child node → traversal.states.getD child 0 = 2) :
    Returns (canonicalNodeLength node columns traversal.canonicalLengths maxWork) fun length =>
      columns.Left (traversal.canonicalLengths.set node length) node := by
  have row := valid.row node within
  have below : ∀ child, columns.Refers child node → columns.Left traversal.canonicalLengths child :=
    fun child refers =>
    explored.left child (valid.child_lt within refers) (left child refers)
  have grounded : Acc columns.Refers node := ⟨node, fun child refers => (below child refers).grounded⟩
  have known : ∀ child, columns.Refers child node →
      traversal.canonicalLengths.getD child 0 = (columns.canonicalBytes child).length ∧
        columns.canonicalBytes child ≠ [] := by
    intro child refers
    refine ⟨(below child refers).length, ?_⟩
    rw [canonicalBytes_eq (below child refers).grounded, nodeBytes, prefixBytes]
    exact List.append_ne_nil_of_left_ne_nil (varint_ne_nil _) _
  refine .weaken (canonicalNodeLength_returns row.tag row.start row.end_ (fun index above below => ?_) known)
    fun length found => ?_
  · rw [explored.lengths]
    exact valid.field node within index above below
  · refine ⟨grounded, ?_, ?_, found.2⟩
    · rw [getD_set (explored.lengths ▸ within), if_pos rfl, canonicalBytes_eq grounded]
      exact found.1.1
    · rw [canonicalBytes_eq grounded, ← found.1.1]
      exact found.1.2

/-- A turn of the traversal. -/
theorem dfsTurn_returns {traversal : Traversal} {frame : DfsFrame} {rest : List DfsFrame}
    (valid : columns.ValidRows nodeCount)
    (traversed : columns.Traversed rootCount nodeCount traversal) (stack : traversal.stack = frame :: rest) :
    Returns (dfsTurn columns nodeCount maxWork traversal frame rest) (columns.Traversed rootCount nodeCount) := by
  have opened := traversed.stack
  rw [stack] at opened
  refine .bind_any fun _ => .check_bind fun result read => ?_
  have next := opened.1.next valid read
  match result with
  | none =>
    refine .bind (canonicalNodeLength_left valid traversed.toExplored opened.1.within next)
      fun length left => .pure ?_
    refine ⟨traversed.toExplored.leave opened.1.within opened.1.reached left rest, ?_⟩
    have inside : frame.node < traversal.states.length := traversed.states ▸ opened.1.within
    have below : columns.StackOpen rootCount nodeCount (traversal.states.set frame.node 2)
      (some frame.node) rest := by
      refine opened.2.mono fun other done => ?_
      rw [getD_set inside]
      split
      · rfl
      · exact done
    exact below.pop (by rw [getD_set inside, if_pos rfl])
  | some (later, none) =>
    obtain ⟨same, _, open_⟩ := next
    exact .pure ⟨{ traversed.toExplored with }, open_, same ▸ opened.2⟩
  | some (later, some identifier) =>
    obtain ⟨same, refers, open_⟩ := next
    refine .check_bind fun child indexed => ?_
    obtain ⟨_, within, rfl⟩ := nodeIndex_ok.mp indexed
    have refers := refers identifier rfl
    have explored : columns.Explored rootCount nodeCount { traversal with stack := later :: rest } :=
      { traversed.toExplored with }
    have stacked : columns.StackOpen rootCount nodeCount traversal.states (some (identifier - 1)) (later :: rest) :=
      ⟨open_, same ▸ opened.2⟩
    have reached : columns.Reached rootCount nodeCount (identifier - 1) := by
      obtain ⟨root, known, top, found, path⟩ := opened.1.reached
      exact ⟨root, known, top, found, path.head refers⟩
    dsimp only
    split
    · next fresh =>
      refine .check fun opened done => explored.open_ within reached ?_ stacked done
      rw [fresh]
      decide
    · exact .raise _
    · next done => exact .pure ⟨explored, stacked.pop done⟩
    · exact .raise _

/-- The traversal from a node leaves everything below it. -/
theorem dfsLoop_returns (valid : columns.ValidRows nodeCount) (turns : Nat) {traversal : Traversal}
    (traversed : columns.Traversed rootCount nodeCount traversal) :
    Returns (dfsLoop columns nodeCount maxWork turns traversal) fun last =>
      columns.Explored rootCount nodeCount last ∧ last.stack = [] := by
  induction turns generalizing traversal with
  | zero => exact .raise _
  | succ turns ih =>
    rw [dfsLoop]
    split
    · next empty => exact .pure ⟨traversed.toExplored, empty⟩
    · next frame rest stack => exact .bind (dfsTurn_returns valid traversed stack) fun later kept => ih kept

theorem dfsRoot_returns {traversal : Traversal} {root : Nat} (valid : columns.ValidRows nodeCount)
    (known : root < rootCount)
    (explored : columns.Explored rootCount nodeCount traversal) (empty : traversal.stack = []) :
    Returns (dfsRoot columns nodeCount maxWork traversal root) fun last =>
      columns.Explored rootCount nodeCount last ∧ last.stack = [] := by
  refine .check_bind fun identifier read => .check_bind fun node indexed => ?_
  have value := (uintAt_ok.mp read).2
  subst value
  have within := (nodeIndex_ok.mp indexed)
  split
  · exact .pure ⟨explored, empty⟩
  · exact .raise _
  · next fresh _ =>
    refine .check_bind fun opened done => ?_
    refine dfsLoop_returns valid _
      (explored.open_ (within.2.2 ▸ within.2.1) ⟨root, known, node, indexed, .refl⟩ fresh ?_ done)
    rw [empty]
    trivial

/-- An accepted graph: every node is reached from a root, and left with its length. -/
theorem validateGraphAndLengths_returns (valid : columns.ValidRows nodeCount) :
    Returns (validateGraphAndLengths columns rootCount nodeCount maxWork) fun canonicalLengths =>
      canonicalLengths.length = nodeCount ∧
        ∀ node < nodeCount, columns.Left canonicalLengths node ∧ columns.Reached rootCount nodeCount node := by
  have start : columns.Explored rootCount nodeCount ⟨List.replicate nodeCount 0, List.replicate nodeCount 0, []⟩ := by
    refine ⟨List.length_replicate, List.length_replicate, fun node within done => ?_, fun node within seen => ?_⟩
    · rw [List.getD_replicate _ within] at done
      cases done
    · exact absurd (List.getD_replicate _ within) seen
  refine .bind (Returns.foldlM (fun traversal _ => columns.Explored rootCount nodeCount traversal ∧
    traversal.stack = [])
    ⟨start, rfl⟩ fun done root rest traversal whole holds => ?_) fun last explored => ?_
  · have member : root ∈ List.range rootCount := whole ▸ List.mem_append_right done (.head rest)
    exact dfsRoot_returns valid (List.mem_range.mp member) holds.1 holds.2
  · refine .bind_any fun _ => .check_bind fun _ complete => .pure ⟨explored.1.lengths, fun node within => ?_⟩
    rw [refuse_ok, List.any_eq_false] at complete
    have inside : node < last.states.length := explored.1.states ▸ within
    have done : last.states.getD node 0 = 2 := by
      have found := complete _ (List.getElem_mem inside)
      rw [List.getD_eq_getElem _ _ inside]
      simpa using found
    exact ⟨explored.1.left node within done, explored.1.reached node within (by rw [done]; decide)⟩

end

end EncodedColumns

end PyElk.Native
