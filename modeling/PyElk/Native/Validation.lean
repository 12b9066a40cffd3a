import PyElk.Native.ModelScalars

open Raising

namespace PyElk.Native

structure ValidatedEncodedColumns where
  rootCount : Nat
  nodeCount : Nat
  fieldCount : Nat
  itemCount : Nat
  scalarBytes : Nat
  work : Nat
  deriving DecidableEq, Repr

def unsupportedTag (tag : Nat) : CoreError := .protocol s!"unsupported encoded node tag {tag}"

/-- A turn of the loop over the field offsets: the offset behind the fields of the node. -/
def validateOffset (columns : EncodedColumns) (fieldCount maxWork priorOffset node : Nat) : Metering Nat := do
  claimWork 1 maxWork
  let start ← check (usizeAt columns.nodeFieldOffsets node "node field offset")
  let end_ ← check (usizeAt columns.nodeFieldOffsets (node + 1) "node field offset")
  check (refuse (start ≠ priorOffset || end_ < start || end_ > fieldCount)
    (.protocol "encoded node field offsets are not contiguous and bounded"))
  let tag ← check (u16At columns.nodeTags node "node tag")
  let roles ← check (okOr (unsupportedTag tag) (constructorRoles tag))
  check (refuse (end_ - start ≠ roles.length) (.protocol s!"encoded node tag {tag} has the wrong field arity"))
  pure end_

/-- The first loop of `validate_columns_with_lengths`. -/
def validateOffsets (columns : EncodedColumns) (nodeCount fieldCount maxWork : Nat) : Metering Unit := do
  claimWork 1 maxWork
  let first ← check (usizeAt columns.nodeFieldOffsets 0 "node field offset")
  check (refuse (first ≠ 0) (.protocol "encoded node field offsets must start at zero"))
  let last ← (List.range nodeCount).foldlM (validateOffset columns fieldCount maxWork) 0
  check (refuse (last ≠ fieldCount) (.protocol "encoded node field offsets do not cover every field"))

/-- How far the items and the scalars are covered. -/
structure Cursors where
  item : Nat
  scalar : Nat
  deriving DecidableEq

/-- The kind of a collection field, and the role of its items. -/
def FieldRole.collection : FieldRole → Option (Nat × NodeRole)
  | .set role => some (COMPONENT_SET, role)
  | .sequence role => some (COMPONENT_SEQUENCE, role)
  | _ => none

/-- A turn of the loop over the items of a collection: the last item of a set, and the scalar cursor. -/
def validateItem (columns : EncodedColumns) (nodeCount maxWork : Nat) (location : FieldLocation) (expectedKind : Nat)
    (itemRole : NodeRole) (state : Option Nat × Nat) (item : Nat) : Metering (Option Nat × Nat) := do
  claimWork 1 maxWork
  let (itemKind, itemValue, itemLength) ← check (componentParts (.item item) columns)
  check (validateCollectionItemRole location itemRole itemKind itemValue columns nodeCount)
  let previous ← if expectedKind = COMPONENT_SET then do
      let identifier ← check (nodeIdAt columns.itemValues item "canonical-set item node ID")
      check (refuse (state.1.any fun prior => prior ≥ identifier)
        (.protocol "encoded canonical-set node IDs are not strictly ascending and unique"))
      pure (some identifier)
    else pure state.1
  claimLeafScanWork itemKind itemLength maxWork
  let scalarCursor ← check (validateLeafComponent itemKind itemValue itemLength nodeCount columns.scalarBytes state.2)
  pure (previous, scalarCursor)

/-- A turn of the loop over the fields of a node. -/
def validateField (columns : EncodedColumns) (nodeCount itemCount maxWork tag start : Nat) (cursors : Cursors)
    (entry : FieldRole × Nat) : Metering Cursors := do
  claimWork 1 maxWork
  let (role, position) := entry
  let location : FieldLocation := ⟨tag, position⟩
  let field ← check (okOr (.capacity "encoded field index overflow") (checkedAdd start position))
  let (kind, value, length) ← check (componentParts (.field field) columns)
  match role.collection with
  | some (expectedKind, itemRole) => do
    check (refuse (kind ≠ expectedKind) (fieldRoleError location))
    check (refuse (value ≠ cursors.item) (.protocol "encoded collection fields do not exactly cover item rows"))
    let end_ ← check (okOr (.capacity "encoded item range overflow") (checkedAdd value length))
    check (refuse (end_ > itemCount) (.protocol "encoded collection field exceeds item rows"))
    let (_, scalarCursor) ← (List.range' value length).foldlM
      (validateItem columns nodeCount maxWork location expectedKind itemRole) (none, cursors.scalar)
    pure ⟨end_, scalarCursor⟩
  | none => do
    check (validateFieldRole location role kind value length columns nodeCount)
    claimLeafScanWork kind length maxWork
    let scalarCursor ← check (validateLeafComponent kind value length nodeCount columns.scalarBytes cursors.scalar)
    pure ⟨cursors.item, scalarCursor⟩

/-- A turn of the loop over the nodes. -/
def validateNode (columns : EncodedColumns) (nodeCount itemCount maxWork : Nat) (cursors : Cursors) (node : Nat) :
    Metering Cursors := do
  let tag ← check (u16At columns.nodeTags node "node tag")
  let roles ← check (okOr (unsupportedTag tag) (constructorRoles tag))
  let start ← check (usizeAt columns.nodeFieldOffsets node "node field offset")
  roles.zipIdx.foldlM (validateField columns nodeCount itemCount maxWork tag start) cursors

/-- The second loop of `validate_columns_with_lengths`. -/
def validateComponents (columns : EncodedColumns) (nodeCount itemCount maxWork : Nat) : Metering Unit := do
  let last ← (List.range nodeCount).foldlM (validateNode columns nodeCount itemCount maxWork) ⟨0, 0⟩
  check (refuse (last.item ≠ itemCount) (.protocol "encoded item rows are not exactly covered by collection fields"))
  check (refuse (last.scalar ≠ columns.scalarBytes.length)
    (.protocol "encoded scalar arena is not exactly covered by components"))

/-- A turn of the loop over the roots: the root, to be below the next one. -/
def validateRoot (columns : EncodedColumns) (nodeCount maxWork : Nat) (previous : Option (Nat × Nat)) (root : Nat) :
    Metering (Option (Nat × Nat)) := do
  claimWork 1 maxWork
  let kind ← check (byteAt columns.rootKinds root "root kind")
  let identifier ← check (u32At columns.rootIds root "root ID")
  let node ← check (nodeIndex identifier nodeCount)
  let tag ← check (u16At columns.nodeTags node "root node tag")
  check (refuse (!rootAccepts kind.toNat tag)
    (.protocol "encoded root kind is inconsistent with its constructor tag"))
  check (refuse (previous.any fun prior => prior.1 > kind.toNat || (prior.1 = kind.toNat && prior.2 ≥ identifier))
    (.protocol "encoded roots are not strictly ordered and unique"))
  pure (some (kind.toNat, identifier))

structure DfsFrame where
  node : Nat
  fieldCursor : Nat
  fieldEnd : Nat
  itemCursor : Nat
  itemEnd : Nat

/-- `DfsFrame::new`. -/
def DfsFrame.new (node : Nat) (columns : EncodedColumns) : CoreResult DfsFrame := do
  let fieldCursor ← usizeAt columns.nodeFieldOffsets node "node field offset"
  let following ← okOr (.capacity "node field offset index overflow") (checkedAdd node 1)
  pure ⟨node, fieldCursor, ← usizeAt columns.nodeFieldOffsets following "node field offset", 0, 0⟩

/-- The frame behind its next row and the node identifier in the row; nothing at its end. -/
def DfsFrame.next (frame : DfsFrame) (columns : EncodedColumns) : CoreResult (Option (DfsFrame × Option Nat)) :=
  if frame.itemCursor < frame.itemEnd then do
    let later := { frame with itemCursor := frame.itemCursor + 1 }
    let kind ← byteAt columns.itemKinds frame.itemCursor "item kind"
    if kind.toNat = COMPONENT_NODE then do
      pure (some (later, some (← nodeIdAt columns.itemValues frame.itemCursor "item node ID")))
    else pure (some (later, none))
  else if frame.fieldCursor < frame.fieldEnd then do
    let later := { frame with fieldCursor := frame.fieldCursor + 1 }
    let kind ← byteAt columns.fieldKinds frame.fieldCursor "field kind"
    if kind.toNat = COMPONENT_NODE then do
      pure (some (later, some (← nodeIdAt columns.fieldValues frame.fieldCursor "field node ID")))
    else if isCollection kind.toNat then do
      let itemCursor ← usizeAt columns.fieldValues frame.fieldCursor "field item offset"
      let length ← usizeAt columns.fieldLengths frame.fieldCursor "field item length"
      let itemEnd ← okOr (.capacity "encoded item range overflow") (checkedAdd itemCursor length)
      pure (some ({ later with itemCursor := itemCursor, itemEnd := itemEnd }, none))
    else pure (some (later, none))
  else pure none

/-- The states of the nodes (0 new, 1 open, 2 done), the lengths of those that are done, and the stack. -/
structure Traversal where
  states : List Nat
  canonicalLengths : List Nat
  stack : List DfsFrame

def cyclic : CoreError := .protocol "encoded structural graph is cyclic"

/-- A node is opened. -/
def Traversal.open_ (traversal : Traversal) (node : Nat) (columns : EncodedColumns) : CoreResult Traversal := do
  let frame ← DfsFrame.new node columns
  pure { traversal with states := traversal.states.set node 1, stack := frame :: traversal.stack }

/-- The body of the inner loop of `validate_graph_and_lengths`, for the frame on top of the stack. -/
def dfsTurn (columns : EncodedColumns) (nodeCount maxWork : Nat) (traversal : Traversal) (frame : DfsFrame)
    (rest : List DfsFrame) : Metering Traversal := do
  claimWork 1 maxWork
  match ← check (frame.next columns) with
  | none => do
    let length ← canonicalNodeLength frame.node columns traversal.canonicalLengths maxWork
    pure ⟨traversal.states.set frame.node 2, traversal.canonicalLengths.set frame.node length, rest⟩
  | some (later, none) => pure { traversal with stack := later :: rest }
  | some (later, some identifier) => do
    let child ← check (nodeIndex identifier nodeCount)
    let traversal := { traversal with stack := later :: rest }
    match traversal.states.getD child 0 with
    | 0 => check (traversal.open_ child columns)
    | 1 => raise cyclic
    | 2 => pure traversal
    | _ => raise (.internal "invalid encoded DFS state")

/-- The inner loop of `validate_graph_and_lengths`. Every turn claims work, so it is over before the turns are. -/
def dfsLoop (columns : EncodedColumns) (nodeCount maxWork : Nat) : Nat → Traversal → Metering Traversal
  | 0, _ => raise workLimit
  | turns + 1, traversal =>
    match traversal.stack with
    | [] => pure traversal
    | frame :: rest => do
      let later ← dfsTurn columns nodeCount maxWork traversal frame rest
      dfsLoop columns nodeCount maxWork turns later

/-- A turn of the outer loop of `validate_graph_and_lengths`. -/
def dfsRoot (columns : EncodedColumns) (nodeCount maxWork : Nat) (traversal : Traversal) (root : Nat) :
    Metering Traversal := do
  let identifier ← check (u32At columns.rootIds root "root ID")
  let node ← check (nodeIndex identifier nodeCount)
  match traversal.states.getD node 0 with
  | 2 => pure traversal
  | 1 => raise cyclic
  | _ => do
    let opened ← check (traversal.open_ node columns)
    dfsLoop columns nodeCount maxWork (maxWork + 1) opened

/-- `validate_graph_and_lengths`. -/
def validateGraphAndLengths (columns : EncodedColumns) (rootCount nodeCount maxWork : Nat) : Metering (List Nat) := do
  let nothing : Traversal := ⟨List.replicate nodeCount 0, List.replicate nodeCount 0, []⟩
  let last ← (List.range rootCount).foldlM (dfsRoot columns nodeCount maxWork) nothing
  claimWork nodeCount maxWork
  check (refuse (last.states.any fun state => state ≠ 2)
    (.protocol "encoded structural graph contains unreachable nodes"))
  pure last.canonicalLengths

/-- `validate_dense_node_order`. -/
def validateDenseNodeOrder (columns : EncodedColumns) (canonicalLengths : List Nat) (maxWork : Nat) : Metering Unit :=
  each (fun left => do
    let ordering ← compareCanonicalNodes left (left + 1) columns canonicalLengths maxWork
    check (refuse (ordering ≠ .lt) (.protocol "encoded structural node IDs are not canonical and unique")))
    (List.range (canonicalLengths.length - 1))

/-- The rows of the columns, once their shape is right. -/
def validateRows (columns : EncodedColumns) (shape : EncodedColumnShape) (maxWork : Nat) : Metering (List Nat) := do
  validateOffsets columns shape.nodeCount shape.fieldCount maxWork
  validateComponents columns shape.nodeCount shape.itemCount maxWork
  let _ ← (List.range shape.rootCount).foldlM (validateRoot columns shape.nodeCount maxWork) none
  let canonicalLengths ← validateGraphAndLengths columns shape.rootCount shape.nodeCount maxWork
  validateDenseNodeOrder columns canonicalLengths maxWork
  check (validateModelScalarConstraints columns shape.nodeCount)
  pure canonicalLengths

/-- `validate_columns_with_lengths`. -/
def validateColumnsWithLengths (columns : EncodedColumns) (limits : EncodedLimits) :
    CoreResult (ValidatedEncodedColumns × List Nat) := do
  let shape ← validateColumnShape columns limits
  match validateRows columns shape limits.maxWork 0 with
  | (.ok canonicalLengths, work) =>
    pure (⟨shape.rootCount, shape.nodeCount, shape.fieldCount, shape.itemCount, shape.scalarBytes, work⟩,
      canonicalLengths)
  | (.error error, _) => throw error

/-- `validate_columns`. -/
def validateColumns (columns : EncodedColumns) (limits : EncodedLimits) : CoreResult ValidatedEncodedColumns :=
  Prod.fst <$> validateColumnsWithLengths columns limits

end PyElk.Native
