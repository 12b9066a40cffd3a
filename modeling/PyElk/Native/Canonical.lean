import PyElk.Native.Columns
import PyElk.Support.Metered
import PyElk.Support.Varint

open Raising Lexicographic

namespace PyElk.Native

def COMPONENT_NONE : Nat := 0
def COMPONENT_NODE : Nat := 1
def COMPONENT_TEXT : Nat := 2
def COMPONENT_BYTES : Nat := 3
def COMPONENT_INTEGER : Nat := 4
def COMPONENT_ENUM : Nat := 5
def COMPONENT_SET : Nat := 6
def COMPONENT_SEQUENCE : Nat := 7

def isCollection (kind : Nat) : Bool := kind = COMPONENT_SET || kind = COMPONENT_SEQUENCE

def isScalar (kind : Nat) : Bool := kind = COMPONENT_TEXT || kind = COMPONENT_BYTES || kind = COMPONENT_ENUM

/-- A function that counts its work; what it has claimed when it fails stays claimed. -/
abbrev Metering := Raising CoreError Nat

def workLimit : CoreError := .capacity "encoded validation exceeds its work limit"

/-- `claim_work`. -/
def claimWork (amount maximum : Nat) : Metering Unit := do
  let work ← read id
  let following ← check (okOr (.capacity "encoded validation work overflow") (checkedAdd work amount))
  check (refuse (following > maximum) workLimit)
  write fun _ => following

inductive ComponentRow
  | field (index : Nat)
  | item (index : Nat)

/-- `component_parts`: the kind, the value and the length of a row. -/
def componentParts (row : ComponentRow) (columns : EncodedColumns) : CoreResult (Nat × Nat × Nat) :=
  match row with
  | .field index => do
    let kind ← byteAt columns.fieldKinds index "field kind"
    pure (kind.toNat, ← usizeAt columns.fieldValues index "field value",
      ← usizeAt columns.fieldLengths index "field length")
  | .item index => do
    let kind ← byteAt columns.itemKinds index "item kind"
    pure (kind.toNat, ← usizeAt columns.itemValues index "item value",
      ← usizeAt columns.itemLengths index "item length")

/-- `canonical_varint_width`. -/
def canonicalVarintWidth (value : Nat) : Nat := max ((bitLength value + 6) / 7) 1

/-- The mark of a group that another one follows. -/
def continuation (index width : Nat) : Nat := if index + 1 < width then 0x80 else 0

/-- `u64_varint_byte`. -/
def u64VarintByte (value index width : Nat) : UInt8 :=
  UInt8.ofNat (((value >>> (index * 7)) &&& 0x7f) ||| continuation index width)

/-- `compare_u64_varints`. -/
def compareU64Varints (left right : Nat) : Ordering :=
  let leftWidth := canonicalVarintWidth left
  let rightWidth := canonicalVarintWidth right
  (List.range (max leftWidth rightWidth)).foldr (fun index later =>
    let leftByte := if index < leftWidth then some (u64VarintByte left index leftWidth) else none
    let rightByte := if index < rightWidth then some (u64VarintByte right index rightWidth) else none
    (compare leftByte rightByte).then later) .eq

/-- `canonical_integer_varint_width`. -/
def canonicalIntegerVarintWidth (scalars : List UInt8) (start length : Nat) : CoreResult Nat := do
  refuse (length = 0) (.internal "validated integer has an empty payload")
  let last := length - 1
  let position ← okOr (.capacity "encoded integer offset overflow") (checkedAdd start last)
  let high ← byteAt scalars position "integer scalar"
  let lowerBits ← okOr (.capacity "encoded integer bit length overflow") (checkedMul last 8)
  let bits ← okOr (.capacity "encoded integer bit length overflow") (checkedAdd lowerBits (bitLength high.toNat))
  pure (max ((bits + 6) / 7) 1)

/-- `integer_varint_byte`. -/
def integerVarintByte (scalars : List UInt8) (start payloadLength index encodedWidth : Nat) : CoreResult UInt8 := do
  let bitOffset ← okOr (.capacity "encoded integer bit offset overflow") (checkedMul index 7)
  let sourceIndex := bitOffset / 8
  let shift := bitOffset % 8
  let absolute ← okOr (.capacity "encoded integer offset overflow") (checkedAdd start sourceIndex)
  let low ← byteAt scalars absolute "integer scalar"
  let high ← if shift ≠ 0 ∧ sourceIndex + 1 < payloadLength then
      (fun byte : UInt8 => byte.toNat <<< (8 - shift)) <$> byteAt scalars (absolute + 1) "integer scalar"
    else pure 0
  let window := (low.toNat >>> shift) ||| high
  pure (UInt8.ofNat ((window &&& 0x7f) ||| continuation index encodedWidth))

/-- `add_canonical_length`. -/
def addCanonicalLength (total amount : Nat) : CoreResult Nat :=
  okOr (.capacity "encoded canonical model length exceeds u64") (checkedAdd total amount)

/-- A kind byte, the width of a length and what it measures. -/
def framedLength (length : Nat) : CoreResult Nat := do
  addCanonicalLength (← addCanonicalLength 1 (canonicalVarintWidth length)) length

/-- `canonical_leaf_length`. -/
def canonicalLeafLength (kind value length : Nat) (columns : EncodedColumns) (canonicalLengths : List Nat) :
    CoreResult Nat :=
  if kind = COMPONENT_NONE then pure 1
  else if kind = COMPONENT_NODE then do
    let identifier ← nodeIdentifier value "encoded node ID exceeds u32"
    let node ← nodeIndex identifier canonicalLengths.length
    let nested := canonicalLengths.getD node 0
    refuse (nested = 0) (.internal "canonical child length was not computed before its parent")
    framedLength nested
  else if isScalar kind then framedLength length
  else if kind = COMPONENT_INTEGER then do
    let width ← canonicalIntegerVarintWidth columns.scalarBytes value length
    okOr (.capacity "encoded canonical length exceeds u64") (checkedAdd 1 width)
  else if isCollection kind then throw (.internal "nested collection reached canonical leaf sizing")
  else throw (.internal "invalid component reached canonical leaf sizing")

/-- A turn of the loop of `canonical_node_length` over the items of a collection. -/
def addItemLength (columns : EncodedColumns) (canonicalLengths : List Nat) (maxWork kind total item : Nat) :
    Metering Nat := do
  claimWork 1 maxWork
  let (itemKind, itemValue, itemLength) ← check (componentParts (.item item) columns)
  let itemSize ← check (canonicalLeafLength itemKind itemValue itemLength columns canonicalLengths)
  -- sets frame node bytes directly, sequence items keep their marker
  if kind = COMPONENT_SET then do
    check (refuse (itemSize = 0) (.internal "canonical set item has no node marker"))
    check (addCanonicalLength total (itemSize - 1))
  else check (addCanonicalLength total itemSize)

/-- A turn of the loop of `canonical_node_length` over the fields. -/
def addFieldLength (columns : EncodedColumns) (canonicalLengths : List Nat) (maxWork total field : Nat) :
    Metering Nat := do
  claimWork 1 maxWork
  let (kind, value, length) ← check (componentParts (.field field) columns)
  if isCollection kind then do
    let total ← check (addCanonicalLength total 1)
    let total ← check (addCanonicalLength total (canonicalVarintWidth length))
    let _ ← check (okOr (.capacity "encoded item range overflow") (checkedAdd value length))
    (List.range' value length).foldlM (addItemLength columns canonicalLengths maxWork kind) total
  else do
    let size ← check (canonicalLeafLength kind value length columns canonicalLengths)
    check (addCanonicalLength total size)

/-- `canonical_node_length`. -/
def canonicalNodeLength (node : Nat) (columns : EncodedColumns) (canonicalLengths : List Nat) (maxWork : Nat) :
    Metering Nat := do
  let tag ← check (u16At columns.nodeTags node "node tag")
  let start ← check (usizeAt columns.nodeFieldOffsets node "node field offset")
  let end_ ← check (usizeAt columns.nodeFieldOffsets (node + 1) "node field offset")
  (List.range' start (end_ - start)).foldlM (addFieldLength columns canonicalLengths maxWork)
    (canonicalVarintWidth tag)

/-- One side of a comparison; its errors bear the name of the side. -/
structure ComparedTable where
  columns : EncodedColumns
  canonicalLengths : List Nat
  side : String

/-- `compare_canonical_nodes` compares within one table, `compare_canonical_nodes_between` across two. -/
structure Comparison where
  left : ComparedTable
  right : ComparedTable
  shared : Bool

inductive CanonicalCompareTask
  | node (left right : Nat) (fieldLimit : Option Nat)
  | fields (left right remaining : Nat)
  | collection (kind left right remaining : Nat)

/-- The loop of `compare_scalar_ranges` over the offsets. -/
def compareScalarLoop (left right : ComparedTable) (leftStart rightStart : Nat) : List Nat → CoreResult Ordering
  | [] => pure .eq
  | offset :: rest => do
    let leftPosition ← okOr (.capacity (left.side ++ "encoded scalar offset overflow")) (checkedAdd leftStart offset)
    let leftByte ← byteAt left.columns.scalarBytes leftPosition (left.side ++ "canonical scalar")
    let rightPosition ← okOr (.capacity (right.side ++ "encoded scalar offset overflow"))
      (checkedAdd rightStart offset)
    let rightByte ← byteAt right.columns.scalarBytes rightPosition (right.side ++ "canonical scalar")
    let ordering := compare leftByte rightByte
    if ordering ≠ .eq then pure ordering else compareScalarLoop left right leftStart rightStart rest

/-- `compare_scalar_ranges` and `compare_scalar_ranges_between`. -/
def compareScalarRanges (comparison : Comparison) (left right length maxWork : Nat) : Metering Ordering :=
  if comparison.shared ∧ left = right then pure .eq
  else do
    claimWork length maxWork
    check (compareScalarLoop comparison.left comparison.right left right (List.range length))

/-- The byte of an integer at an index, if it has one there. -/
def integerByteAt (scalars : List UInt8) (start length width index : Nat) : CoreResult (Option UInt8) :=
  if index < width then some <$> integerVarintByte scalars start length index width else pure none

/-- The loop of `compare_integer_components` over the indices. -/
def compareIntegerLoop (leftByte rightByte : Nat → CoreResult (Option UInt8)) : List Nat → CoreResult Ordering
  | [] => pure .eq
  | index :: rest => do
    let ordering := compare (← leftByte index) (← rightByte index)
    if ordering ≠ .eq then pure ordering else compareIntegerLoop leftByte rightByte rest

/-- `compare_integer_components` and `compare_integer_components_between`. -/
def compareIntegerComponents (comparison : Comparison) (leftStart leftLength rightStart rightLength maxWork : Nat) :
    Metering Ordering := do
  let leftScalars := comparison.left.columns.scalarBytes
  let rightScalars := comparison.right.columns.scalarBytes
  let leftWidth ← check (canonicalIntegerVarintWidth leftScalars leftStart leftLength)
  let rightWidth ← check (canonicalIntegerVarintWidth rightScalars rightStart rightLength)
  let compared := max leftWidth rightWidth
  claimWork compared maxWork
  check (compareIntegerLoop (integerByteAt leftScalars leftStart leftLength leftWidth)
    (integerByteAt rightScalars rightStart rightLength rightWidth) (List.range compared))

/-- The node a component refers to. -/
def comparedNode (table : ComparedTable) (value : Nat) : CoreResult Nat := do
  nodeIndex (← nodeIdentifier value (table.side ++ "encoded node ID exceeds u32")) table.canonicalLengths.length

/-- Nodes are framed by their lengths, so they are compared only where these are the same. -/
def compareFramed (comparison : Comparison) (left right : Nat) : Ordering × List CanonicalCompareTask :=
  let ordering :=
    compareU64Varints (comparison.left.canonicalLengths.getD left 0) (comparison.right.canonicalLengths.getD right 0)
  if ordering ≠ .eq then (ordering, []) else (.eq, [.node left right none])

/-- `schedule_component_comparison` and `schedule_component_comparison_between`: an order that decides, or the tasks
that follow. -/
def scheduleComponentComparison (comparison : Comparison) (leftRow rightRow : ComponentRow) (maxWork : Nat) :
    Metering (Ordering × List CanonicalCompareTask) := do
  let (leftKind, leftValue, leftLength) ← check (componentParts leftRow comparison.left.columns)
  let (rightKind, rightValue, rightLength) ← check (componentParts rightRow comparison.right.columns)
  if compare leftKind rightKind ≠ .eq then pure (compare leftKind rightKind, [])
  else if leftKind = COMPONENT_NONE then pure (.eq, [])
  else if leftKind = COMPONENT_NODE then do
    let leftNode ← check (comparedNode comparison.left leftValue)
    let rightNode ← check (comparedNode comparison.right rightValue)
    pure (compareFramed comparison leftNode rightNode)
  else if isScalar leftKind then do
    let ordering := compareU64Varints leftLength rightLength
    if ordering ≠ .eq then pure (ordering, [])
    else do pure (← compareScalarRanges comparison leftValue rightValue leftLength maxWork, [])
  else if leftKind = COMPONENT_INTEGER then do
    pure (← compareIntegerComponents comparison leftValue leftLength rightValue rightLength maxWork, [])
  else if isCollection leftKind then do
    let ordering := compareU64Varints leftLength rightLength
    if ordering ≠ .eq then pure (ordering, []) else pure (.eq, [.collection leftKind leftValue rightValue leftLength])
  else raise (.internal (if comparison.shared then "invalid component reached canonical comparison"
    else "invalid component reached cross-segment canonical comparison"))

/-- The fields of a node: where they start, and their number. -/
def comparedFields (table : ComparedTable) (node : Nat) : CoreResult (Nat × Nat) := do
  let start ← usizeAt table.columns.nodeFieldOffsets node (table.side ++ "node field offset")
  let end_ ← usizeAt table.columns.nodeFieldOffsets (node + 1) (table.side ++ "node field offset")
  pure (start, end_ - start)

/-- The set item at a row. -/
def comparedItem (table : ComparedTable) (item : Nat) : CoreResult Nat := do
  nodeIndex (← nodeIdAt table.columns.itemValues item (table.side ++ "set item node ID"))
    table.canonicalLengths.length

/-- The next rows of both sides. -/
def advance (left right : Nat) (overflow : String) : CoreResult (Nat × Nat) := do
  pure (← okOr (.capacity overflow) (checkedAdd left 1), ← okOr (.capacity overflow) (checkedAdd right 1))

/-- The body of the loop of `compare_canonical_nodes`: an order that decides, or the tasks put on top of the others.
-/
def compareTask (comparison : Comparison) (maxWork : Nat) :
    CanonicalCompareTask → Metering (Ordering × List CanonicalCompareTask)
  | .node left right fieldLimit =>
    if comparison.shared ∧ left = right then pure (.eq, [])
    else do
      let leftTag ← check (u16At comparison.left.columns.nodeTags left (comparison.left.side ++ "node tag"))
      let rightTag ← check (u16At comparison.right.columns.nodeTags right (comparison.right.side ++ "node tag"))
      let ordering := compareU64Varints leftTag rightTag
      if ordering ≠ .eq then pure (ordering, [])
      else do
        let (leftStart, arity) ← check (comparedFields comparison.left left)
        let (rightStart, rightArity) ← check (comparedFields comparison.right right)
        check (refuse (rightArity ≠ arity) (.internal (if comparison.shared then
          "equal constructor tags have different validated arities"
          else "equal cross-segment constructor tags have different validated arities")))
        let remaining := fieldLimit.getD arity
        check (refuse (remaining > arity) (.internal (if comparison.shared then
          "canonical comparison field limit exceeds constructor arity"
          else "cross-segment comparison field limit exceeds constructor arity")))
        pure (.eq, [.fields leftStart rightStart remaining])
  | .fields _ _ 0 => pure (.eq, [])
  | .fields left right (remaining + 1) => do
    let (leftNext, rightNext) ← check (advance left right "encoded field index overflow")
    let (ordering, pushed) ← scheduleComponentComparison comparison (.field left) (.field right) maxWork
    pure (ordering, pushed ++ [.fields leftNext rightNext remaining])
  | .collection _ _ _ 0 => pure (.eq, [])
  | .collection kind left right (remaining + 1) => do
    let (leftNext, rightNext) ← check (advance left right "encoded item index overflow")
    let later := [CanonicalCompareTask.collection kind leftNext rightNext remaining]
    if kind = COMPONENT_SET then do
      let leftNode ← check (comparedItem comparison.left left)
      let rightNode ← check (comparedItem comparison.right right)
      let (ordering, pushed) := compareFramed comparison leftNode rightNode
      pure (ordering, pushed ++ later)
    else do
      let (ordering, pushed) ← scheduleComponentComparison comparison (.item left) (.item right) maxWork
      pure (ordering, pushed ++ later)

/-- The loop of `compare_canonical_nodes`. Every turn claims work, so it is over before the turns are. -/
def compareLoop (comparison : Comparison) (maxWork : Nat) : Nat → List CanonicalCompareTask → Metering Ordering
  | 0, _ => raise workLimit
  | _ + 1, [] => pure .eq
  | turns + 1, task :: tasks => do
    claimWork 1 maxWork
    let (ordering, pushed) ← compareTask comparison maxWork task
    if ordering ≠ .eq then pure ordering else compareLoop comparison maxWork turns (pushed ++ tasks)

/-- `compare_canonical_nodes`. -/
def compareCanonicalNodes (left right : Nat) (columns : EncodedColumns) (canonicalLengths : List Nat)
    (maxWork : Nat) :
    Metering Ordering :=
  compareLoop ⟨⟨columns, canonicalLengths, ""⟩, ⟨columns, canonicalLengths, ""⟩, true⟩ maxWork (maxWork + 1)
    [.node left right none]

/-- `compare_canonical_nodes_between_with_field_limit`. -/
def compareCanonicalNodesBetweenWithFieldLimit (left right : Nat) (leftColumns rightColumns : EncodedColumns)
    (leftLengths rightLengths : List Nat) (fieldLimit : Option Nat) (maxWork : Nat) : Metering Ordering :=
  compareLoop ⟨⟨leftColumns, leftLengths, "left "⟩, ⟨rightColumns, rightLengths, "right "⟩,
    false⟩ maxWork (maxWork + 1)
    [.node left right fieldLimit]

/-- `compare_canonical_nodes_between`. -/
def compareCanonicalNodesBetween (left right : Nat) (leftColumns rightColumns : EncodedColumns)
    (leftLengths rightLengths : List Nat) (maxWork : Nat) : Metering Ordering :=
  compareCanonicalNodesBetweenWithFieldLimit left right leftColumns rightColumns leftLengths rightLengths none maxWork

inductive CanonicalHashTask
  | node (node : Nat) (fieldLimit : Option Nat)
  | fields (next end_ : Nat)
  | component (row : ComponentRow)
  | collection (kind next end_ : Nat)

/-- `hash_varint`: what it feeds to the digest. -/
def hashVarint (value : Nat) : List UInt8 :=
  let width := canonicalVarintWidth value
  (List.range width).map fun index => u64VarintByte value index width

/-- `hash_scalar_range`: what it feeds to the digest, buffer by buffer. -/
def hashScalarRange (source : List UInt8) (start length maxWork : Nat) : Metering (List UInt8) := do
  claimWork length maxWork
  check ((List.range length).mapM fun offset => do
    let position ← okOr (.capacity "encoded fingerprint scalar offset overflow") (checkedAdd start offset)
    byteAt source position "encoded fingerprint scalar")

/-- The node a fingerprinted component refers to. -/
def hashedNode (canonicalLengths : List Nat) (value : Nat) (message : String) : CoreResult Nat := do
  nodeIndex (← nodeIdentifier value message) canonicalLengths.length

/-- What the body of the loop of `hash_canonical_node` feeds to the digest for a component, and the tasks it pushes.
-/
def hashComponent (columns : EncodedColumns) (canonicalLengths : List Nat) (maxWork : Nat) (row : ComponentRow) :
    Metering (List UInt8 × List CanonicalHashTask) := do
  let (kind, value, length) ← check (componentParts row columns)
  let mark := UInt8.ofNat kind
  if kind = COMPONENT_NONE then pure ([mark], [])
  else if kind = COMPONENT_NODE then do
    let child ← check (hashedNode canonicalLengths value "encoded fingerprint node ID exceeds u32")
    pure (mark :: hashVarint (canonicalLengths.getD child 0), [.node child none])
  else if isScalar kind then do
    let payload ← hashScalarRange columns.scalarBytes value length maxWork
    pure (mark :: (hashVarint length ++ payload), [])
  else if kind = COMPONENT_INTEGER then do
    let width ← check (canonicalIntegerVarintWidth columns.scalarBytes value length)
    let bytes ← check
      ((List.range width).mapM fun index => integerVarintByte columns.scalarBytes value length index width)
    pure (mark :: bytes, [])
  else if isCollection kind then do
    let end_ ← check (okOr (.capacity "encoded fingerprint item range overflow") (checkedAdd value length))
    pure (mark :: hashVarint length, [.collection kind value end_])
  else raise (.internal "invalid component reached canonical fingerprinting")

/-- The body of the loop of `hash_canonical_node`: what it feeds to the digest, and the tasks it pushes. -/
def hashTask (columns : EncodedColumns) (canonicalLengths : List Nat) (maxWork : Nat) :
    CanonicalHashTask → Metering (List UInt8 × List CanonicalHashTask)
  | .node node fieldLimit => do
    let tag ← check (u16At columns.nodeTags node "encoded fingerprint node tag")
    let start ← check (usizeAt columns.nodeFieldOffsets node "encoded fingerprint field offset")
    let fullEnd ← check (usizeAt columns.nodeFieldOffsets (node + 1) "encoded fingerprint field end")
    match fieldLimit with
    | none => pure (hashVarint tag, [.fields start fullEnd])
    | some limit => do
      check (refuse (limit > fullEnd - start) (.internal "encoded fingerprint field limit exceeds constructor arity"))
      let end_ ← check (okOr (.capacity "encoded fingerprint field limit overflow") (checkedAdd start limit))
      pure (hashVarint tag, [.fields start end_])
  | .fields next end_ =>
    if next = end_ then pure ([], [])
    else do
      let following ← check (okOr (.capacity "encoded fingerprint field index overflow") (checkedAdd next 1))
      pure ([], [.component (.field next), .fields following end_])
  | .collection kind next end_ =>
    if next = end_ then pure ([], [])
    else do
      let following ← check (okOr (.capacity "encoded fingerprint item index overflow") (checkedAdd next 1))
      let later := CanonicalHashTask.collection kind following end_
      if kind = COMPONENT_SET then do
        let (itemKind, value, _) ← check (componentParts (.item next) columns)
        check (refuse (itemKind ≠ COMPONENT_NODE) (.internal "encoded canonical set fingerprint item is not a node"))
        let child ← check (hashedNode canonicalLengths value "encoded set node ID exceeds u32")
        pure (hashVarint (canonicalLengths.getD child 0), [.node child none, later])
      else pure ([], [.component (.item next), later])
  | .component row => hashComponent columns canonicalLengths maxWork row

/-- The loop of `hash_canonical_node`. -/
def hashLoop (columns : EncodedColumns) (canonicalLengths : List Nat) (maxWork : Nat) :
    Nat → List UInt8 → List CanonicalHashTask → Metering (List UInt8)
  | 0, _, _ => raise workLimit
  | _ + 1, digest, [] => pure digest
  | turns + 1, digest, task :: tasks => do
    claimWork 1 maxWork
    let (fed, pushed) ← hashTask columns canonicalLengths maxWork task
    hashLoop columns canonicalLengths maxWork turns (digest ++ fed) (pushed ++ tasks)

/-- `hash_canonical_node`, on what the digest has been fed so far. -/
def hashCanonicalNode (digest : List UInt8) (node : Nat) (fieldLimit : Option Nat) (columns : EncodedColumns)
    (canonicalLengths : List Nat) (maxWork : Nat) : Metering (List UInt8) :=
  hashLoop columns canonicalLengths maxWork (maxWork + 1) digest [.node node fieldLimit]

end PyElk.Native
