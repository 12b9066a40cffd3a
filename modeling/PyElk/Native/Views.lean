import Mathlib.Data.Finset.Card
import PyElk.Native.Columns
import PyElk.Support.Ordered
import PyElk.Support.Raising

open Raising

namespace PyElk.Native

/-- Where a Python object lies: its identity. -/
abbrev Address := Nat

/-- `[u8; 32]`. -/
abbrev Bytes32 := { bytes : List UInt8 // bytes.length = 32 }

/-- Arrays compare byte by byte. -/
def Bytes32.key (array : Bytes32) : List Nat := array.1.map UInt8.toNat

structure MemoryView where
  readonly : Bool
  dimensions : Nat
  itemSize : Nat
  contiguous : Bool
  format : String
  data : List UInt8
  deriving DecidableEq, Repr

/-- A Python value, as far as the resolver tells values apart. -/
inductive PyValue
  | none
  | int (value : Int)
  | bytes (data : List UInt8)
  | memoryview (buffer : MemoryView)
  | object
  deriving DecidableEq, Repr

def PyValue.isNone : PyValue → Bool
  | .none => true
  | _ => false

/-- A segment row; an attribute may be missing. -/
structure EncodedSegment where
  role : Option PyValue
  postingMode : Option PyValue
  owner : Option Address
  source : Option (Option Address)
  memberToken : Option PyValue
  rootIds : Option PyValue
  anonymousScopeMap : Option PyValue

/-- An encoded view. The answers of the three checks whose data nothing else here reads stand for the checks: of the
envelope up to its model schema, of the capabilities of the owner, and of the structural fingerprint. -/
structure EncodedView where
  envelope : CoreResult Nat
  owner : Option Address
  ownerModelSchema : CoreResult Nat
  buffers : Option (Option (List (String × PyValue)))
  segments : Option (Option (List EncodedSegment))
  fingerprint : CoreResult Unit

def SEGMENT_DIRECT : Nat := 1
def SEGMENT_OVERLAY_BASE : Nat := 2
def SEGMENT_OVERLAY_DELTA : Nat := 3
def SEGMENT_COMPOSITE_MEMBER : Nat := 4
def SEGMENT_COMPOSITE_BRIDGE : Nat := 5

def POSTINGS_ALL : Nat := 0
def POSTINGS_INCLUDE : Nat := 1
def POSTINGS_EXCLUDE : Nat := 2

/-- `required_attribute`. -/
def requiredAttribute {α : Type} (name : String) : Option α → CoreResult α :=
  okOr (.protocol s!"encoded input is missing attribute {name}")

/-- `exact_nonnegative_integer`. -/
def exactNonnegativeInteger (value : PyValue) (name : String) : CoreResult Nat :=
  match value with
  | .int value => if 0 ≤ value ∧ value < 2 ^ 64 then pure value.toNat else throw (.protocol s!"{name} must fit u64")
  | _ => throw (.protocol s!"{name} must be an exact nonnegative integer")

/-- `borrowed_py_bytes`: wherever the bytes are read from, they are those of the memoryview. -/
def borrowedPyBytes (buffer : PyValue) (name : String) : CoreResult (List UInt8) :=
  match buffer with
  | .memoryview buffer => do
    refuse (!buffer.readonly) (.protocol s!"encoded buffer {name} is writable")
    refuse (buffer.dimensions ≠ 1 || buffer.itemSize ≠ 1 || !buffer.contiguous || buffer.format ≠ "B")
      (.protocol s!"encoded buffer {name} is not a contiguous one-dimensional unsigned-byte memoryview")
    pure buffer.data
  | _ => throw (.protocol s!"encoded buffer {name} is not an exact memoryview")

/-- An integer attribute of a segment. -/
def integerAttribute (value : Option PyValue) (name described : String) : CoreResult Nat := do
  exactNonnegativeInteger (← requiredAttribute name value) described

/-- A buffer attribute of a segment. -/
def bufferAttribute (value : Option PyValue) (name described : String) : CoreResult (List UInt8) := do
  borrowedPyBytes (← requiredAttribute name value) described

structure EncodedBufferBindings where
  rootKinds : PyValue
  rootIds : PyValue
  nodeTags : PyValue
  nodeFieldOffsets : PyValue
  fieldKinds : PyValue
  fieldValues : PyValue
  fieldLengths : PyValue
  itemKinds : PyValue
  itemValues : PyValue
  itemLengths : PyValue
  scalarBytes : PyValue
  deriving DecidableEq, Repr

namespace EncodedBufferBindings

/-- `EncodedBufferBindings::from_view`. -/
def fromView (view : EncodedView) : CoreResult EncodedBufferBindings := do
  let raw ← requiredAttribute "buffers" view.buffers
  let buffers ← okOr (.protocol "encoded view buffers must implement collections.abc.Mapping") raw
  refuse (buffers.length ≠ 11) (.protocol "encoded view buffer set must contain exactly eleven schema columns")
  let get (name : String) : CoreResult PyValue :=
    okOr (.protocol s!"encoded view is missing buffer {name}") (buffers.lookup name)
  pure {
    rootKinds := ← get "root_kinds"
    rootIds := ← get "root_ids"
    nodeTags := ← get "node_tags"
    nodeFieldOffsets := ← get "node_field_offsets"
    fieldKinds := ← get "field_kinds"
    fieldValues := ← get "field_values"
    fieldLengths := ← get "field_lengths"
    itemKinds := ← get "item_kinds"
    itemValues := ← get "item_values"
    itemLengths := ← get "item_lengths"
    scalarBytes := ← get "scalar_bytes" }

/-- `EncodedBufferBindings::columns`. -/
def columns (bindings : EncodedBufferBindings) : CoreResult EncodedColumns := do
  pure {
    rootKinds := ← borrowedPyBytes bindings.rootKinds "root_kinds"
    rootIds := ← borrowedPyBytes bindings.rootIds "root_ids"
    nodeTags := ← borrowedPyBytes bindings.nodeTags "node_tags"
    nodeFieldOffsets := ← borrowedPyBytes bindings.nodeFieldOffsets "node_field_offsets"
    fieldKinds := ← borrowedPyBytes bindings.fieldKinds "field_kinds"
    fieldValues := ← borrowedPyBytes bindings.fieldValues "field_values"
    fieldLengths := ← borrowedPyBytes bindings.fieldLengths "field_lengths"
    itemKinds := ← borrowedPyBytes bindings.itemKinds "item_kinds"
    itemValues := ← borrowedPyBytes bindings.itemValues "item_values"
    itemLengths := ← borrowedPyBytes bindings.itemLengths "item_lengths"
    scalarBytes := ← borrowedPyBytes bindings.scalarBytes "scalar_bytes" }

end EncodedBufferBindings

/-- A `BTreeMap` between anonymous scopes. -/
structure ScopeMap where
  entries : List (Bytes32 × Bytes32)
  ascending : entries.Pairwise fun first second => first.1.key < second.1.key

namespace ScopeMap

def empty : ScopeMap := ⟨[], .nil⟩

def get (map : ScopeMap) (scope : Bytes32) : Option Bytes32 := map.entries.lookup scope

def keys (map : ScopeMap) : List Bytes32 := map.entries.map Prod.fst

/-- `get(..).copied().unwrap_or(..)`. -/
def rename (map : ScopeMap) (scope : Bytes32) : Bytes32 := (map.get scope).getD scope

theorem key_injective : Function.Injective Bytes32.key := by
  intro first second same
  have bytes : first.1 = second.1 := List.map_injective_iff.mpr (fun _ _ => UInt8.toNat_inj.mp) same
  exact Subtype.ext bytes

/-- The body of the loop of `apply_scope_map`. -/
def compose (map incoming : ScopeMap) : ScopeMap where
  entries := (Ordered.sortedSet Bytes32.key (map.keys ++ incoming.keys)).filterMap fun source =>
    let intermediate := map.rename source
    let target := incoming.rename intermediate
    if source ≠ target then some (source, target) else none
  ascending := by
    refine (Ordered.sortedSet_strict key_injective _).filterMap _ fun first second below entry found other same => ?_
    simp only [Option.ite_none_right_eq_some, Option.some.injEq] at found same
    rw [← found.2, ← same.2]
    exact below

end ScopeMap

/-- `borrowed_fixed_bytes_32`. -/
def borrowedFixedBytes32 (source : List UInt8) (start : Nat) (name : String) : CoreResult Bytes32 :=
  if full : ((source.drop start).take 32).length = 32 then pure ⟨(source.drop start).take 32, full⟩
  else throw (.protocol s!"encoded {name} is truncated")

/-- `read_scope_map`. -/
def readScopeMap (scopeMap : List UInt8) : CoreResult ScopeMap := do
  refuse (scopeMap.length % 64 ≠ 0) (.protocol "encoded anonymous scope map must contain exact 64-byte rows")
  let rows ← (List.range (scopeMap.length / 64)).mapM fun row => do
    let source ← borrowedFixedBytes32 scopeMap (row * 64) "scope-map source"
    let target ← borrowedFixedBytes32 scopeMap (row * 64 + 32) "scope-map target"
    pure (source, target)
  if canonical : rows.Pairwise (fun first second => first.1.key < second.1.key) ∧ ∀ row ∈ rows, row.1 ≠ row.2 then
    pure ⟨rows, canonical.1⟩
  else throw (.protocol "encoded scope-map sources must be sorted, unique, and nonidentity")

/-- The rows of a posting buffer. -/
def rootPostings (postings : List UInt8) : List Nat :=
  (List.range (postings.length / 4)).map fun row => Bytes.ofLittleEndian ((postings.drop (row * 4)).take 4)

/-- `read_root_postings`: each row is above the one before it, the first above zero. -/
def readRootPostings (postings : List UInt8) (rootCount : Nat) : CoreResult (Finset Nat) := do
  refuse (postings.isEmpty || postings.length % 4 ≠ 0)
    (.protocol "encoded composite root postings must be nonempty u32 rows")
  let rows := rootPostings postings
  if (0 :: rows).IsChain (· < ·) ∧ ∀ row ∈ rows, row ≤ rootCount then pure rows.toFinset
  else throw (.protocol "encoded composite root postings must be sorted, unique, and in range")

inductive EncodedPostingMode
  | including
  | excluding
  deriving DecidableEq, Repr

inductive EncodedRootPlan
  | all
  | including (postings : Finset Nat)
  | excluding (postings : Finset Nat)
  | dropped
  deriving DecidableEq

namespace EncodedRootPlan

/-- `EncodedRootPlan::included`. -/
def included (postings : Finset Nat) : EncodedRootPlan := if postings = ∅ then .dropped else .including postings

/-- `EncodedRootPlan::excluded`. -/
def excluded (postings : Finset Nat) : EncodedRootPlan := if postings = ∅ then .all else .excluding postings

/-- `EncodedRootPlan::apply`. -/
def apply : EncodedRootPlan → EncodedPostingMode → Finset Nat → EncodedRootPlan
  | .dropped, _, _ => .dropped
  | .all, .including, postings => included postings
  | .all, .excluding, postings => excluded postings
  | .including current, .including, postings => included (current ∩ postings)
  | .including current, .excluding, postings => included (current \ postings)
  | .excluding current, .including, postings => included (postings \ current)
  | .excluding current, .excluding, postings => excluded (current ∪ postings)

/-- The roots of a table that are compiled under the plan: a dropped table is skipped. -/
def selects : EncodedRootPlan → Nat → Bool
  | .all, _ => true
  | .including postings, root => root ∈ postings
  | .excluding postings, root => root ∉ postings
  | .dropped, _ => false

end EncodedRootPlan

structure EncodedCompilationTableBinding where
  bindings : EncodedBufferBindings
  viewId : Address
  selection : EncodedRootPlan
  scopeMap : ScopeMap

structure ResolvedEncodedView where
  tables : List EncodedCompilationTableBinding
  localRootCount : Nat

/-- `apply_scope_map`. -/
def applyScopeMap (tables : List EncodedCompilationTableBinding) (incoming : ScopeMap) :
    List EncodedCompilationTableBinding :=
  if incoming.entries.isEmpty then tables
  else tables.map fun table => { table with scopeMap := table.scopeMap.compose incoming }

/-- `apply_source_selection`. -/
def applySourceSelection (tables : List EncodedCompilationTableBinding) (sourceViewId : Address)
    (mode : EncodedPostingMode)
    (postings : Finset Nat) : List EncodedCompilationTableBinding :=
  tables.map fun table =>
    if table.viewId = sourceViewId then { table with selection := table.selection.apply mode postings }
    else if mode = .including then { table with selection := .dropped }
    else table

/-- `enforce_resolved_table_limit`. -/
def enforceResolvedTableLimit (tables : List EncodedCompilationTableBinding) : CoreResult Unit :=
  refuse (tables.length > 256) (.capacity "encoded resolved segment table count exceeds the consumer limit")

/-- `validate_encoded_envelope` and `validate_owner_capabilities`. -/
def validateEncodedEnvelope (view : EncodedView) : CoreResult (Address × Nat) := do
  let modelSchema ← view.envelope
  let owner ← requiredAttribute "owner" view.owner
  refuse ((← view.ownerModelSchema) ≠ modelSchema) (.protocol "encoded view model schema differs from its owner")
  pure (owner, modelSchema)

/-- A buffer of a segment that must carry nothing. -/
def emptyBuffer (value : Option PyValue) (segment name : String) : CoreResult Unit := do
  refuse (!(← bufferAttribute value name name).isEmpty) (.protocol s!"encoded {segment} {name} must be empty")

/-- `validate_direct_segment`. -/
def validateDirectSegment (segments : List EncodedSegment) (owner : Address) : CoreResult Unit :=
  match segments with
  | [segment] => do
    let role ← integerAttribute segment.role "role" "encoded segment role"
    let postingMode ← integerAttribute segment.postingMode "posting_mode" "encoded segment posting_mode"
    refuse (role ≠ SEGMENT_DIRECT || postingMode ≠ POSTINGS_ALL)
      (.invalidInput "encoded compiler slice currently accepts only direct all-postings segments")
    refuse ((← requiredAttribute "owner" segment.owner) ≠ owner)
      (.protocol "encoded direct segment owner differs from view owner")
    refuse (← requiredAttribute "source" segment.source).isSome
      (.protocol "encoded direct segment must not reference a source view")
    refuse (!(← requiredAttribute "member_token" segment.memberToken).isNone)
      (.protocol "encoded direct segment must not carry a member token")
    emptyBuffer segment.rootIds "direct segment" "root_ids"
    emptyBuffer segment.anonymousScopeMap "direct segment" "anonymous_scope_map"
  | _ => throw (.invalidInput "encoded compiler slice currently accepts exactly one direct segment")

/-- `validate_overlay_delta_segment`. -/
def validateOverlayDeltaSegment (segment : EncodedSegment) (topOwner : Address) (localRootCount : Nat) :
    CoreResult Unit := do
  let role ← integerAttribute segment.role "role" "encoded delta segment role"
  let postingMode ← integerAttribute segment.postingMode "posting_mode" "encoded delta segment posting_mode"
  refuse (role ≠ SEGMENT_OVERLAY_DELTA || postingMode ≠ POSTINGS_ALL)
    (.protocol "encoded overlay delta role or posting mode is invalid")
  refuse ((← requiredAttribute "owner" segment.owner) ≠ topOwner)
    (.protocol "encoded overlay delta does not retain the top owner")
  refuse (← requiredAttribute "source" segment.source).isSome
    (.protocol "encoded overlay delta must not reference a source view")
  refuse (!(← requiredAttribute "member_token" segment.memberToken).isNone)
    (.protocol "encoded overlay delta must not carry a member token")
  emptyBuffer segment.rootIds "segment" "root_ids"
  emptyBuffer segment.anonymousScopeMap "segment" "anonymous_scope_map"
  refuse (localRootCount = 0) (.protocol "encoded overlay delta must carry local structural roots")

/-- `validate_composite_bridge_segment`. -/
def validateCompositeBridgeSegment (segment : EncodedSegment) (topOwner : Address) (localRootCount : Nat) :
    CoreResult Unit := do
  let role ← integerAttribute segment.role "role" "encoded composite bridge role"
  let postingMode ← integerAttribute segment.postingMode "posting_mode" "encoded composite bridge posting_mode"
  refuse (role ≠ SEGMENT_COMPOSITE_BRIDGE || postingMode ≠ POSTINGS_ALL)
    (.protocol "encoded composite bridge role or posting mode is invalid")
  let invalid := CoreError.protocol "encoded composite bridge ownership metadata is invalid"
  refuse ((← requiredAttribute "owner" segment.owner) ≠ topOwner) invalid
  refuse (← requiredAttribute "source" segment.source).isSome invalid
  refuse (!(← requiredAttribute "member_token" segment.memberToken).isNone) invalid
  emptyBuffer segment.rootIds "segment" "root_ids"
  emptyBuffer segment.anonymousScopeMap "segment" "anonymous_scope_map"
  refuse (localRootCount = 0) (.protocol "encoded composite bridge must carry local structural roots")

/-- `exact_member_token`. -/
def exactMemberToken (segment : EncodedSegment) : CoreResult Bytes32 := do
  match ← requiredAttribute "member_token" segment.memberToken with
  | .bytes data =>
    if full : data.length = 32 then pure ⟨data, full⟩
    else throw (.protocol "encoded composite member token must contain 32 bytes")
  | _ => throw (.protocol "encoded composite member token must be exact immutable bytes")

/-- The selection of an overlay base among the tables of its source. -/
def selectOverlayBase (base : EncodedSegment) (source : Address) (tables : List EncodedCompilationTableBinding)
    (localRootCount : Nat) : CoreResult (List EncodedCompilationTableBinding) := do
  let rawMode ← integerAttribute base.postingMode "posting_mode" "encoded overlay posting_mode"
  let postings ← bufferAttribute base.rootIds "root_ids" "overlay base root_ids"
  if rawMode = POSTINGS_ALL then
    refuse (!postings.isEmpty) (.protocol "ALL overlay base segment must not carry root postings")
    pure tables
  else if rawMode = POSTINGS_EXCLUDE then
    pure (applySourceSelection tables source .excluding (← readRootPostings postings localRootCount))
  else throw (.protocol "overlay base segment posting mode is invalid")

/-- The selection of a composite member among the tables of its source. -/
def selectCompositeMember (segment : EncodedSegment) (source : Address) (tables : List EncodedCompilationTableBinding)
    (localRootCount : Nat) : CoreResult (List EncodedCompilationTableBinding) := do
  let rawMode ← integerAttribute segment.postingMode "posting_mode" "encoded composite member posting_mode"
  let postings ← bufferAttribute segment.rootIds "root_ids" "composite member root_ids"
  if rawMode = POSTINGS_ALL then
    refuse (!postings.isEmpty) (.protocol "encoded composite ALL member must not carry root postings")
    pure tables
  else if rawMode = POSTINGS_INCLUDE ∨ rawMode = POSTINGS_EXCLUDE then
    let selected ← readRootPostings postings localRootCount
    let mode := if rawMode = POSTINGS_INCLUDE then EncodedPostingMode.including else .excluding
    pure (applySourceSelection tables source mode selected)
  else throw (.protocol "encoded composite member posting mode is invalid")

structure CompositeResolver where
  modelSchema : Nat
  active : Finset Address
  cache : List (Address × ResolvedEncodedView)
  referenced : Finset Address
  segmentCount : Nat
  postingBytes : Nat

/-- `CompositeResolver::new`. -/
def CompositeResolver.new (modelSchema : Nat) (topViewId : Address) : CompositeResolver :=
  ⟨modelSchema, {topViewId}, [], ∅, 0, 0⟩

/-- `cache.insert`. -/
def CompositeResolver.remember (view : Address) (resolved : ResolvedEncodedView) (resolver : CompositeResolver) :
    CompositeResolver :=
  { resolver with cache := (view, resolved) :: resolver.cache.filter (·.1 ≠ view) }

/-- A method of a resolver. -/
abbrev Resolving := Raising CoreError CompositeResolver

section

variable (heap : Address → EncodedView)

/-- The source of a segment, which must have the segment's owner. -/
def sourceView (segment : EncodedSegment) (missing differs : String) : CoreResult Address := do
  let source ← requiredAttribute "source" segment.source
  let source ← okOr (.protocol missing) source
  let sourceOwner ← requiredAttribute "owner" (heap source).owner
  refuse ((← requiredAttribute "owner" segment.owner) ≠ sourceOwner) (.protocol differs)
  pure source

/-- A view's own table. -/
def ownTable (bindings : EncodedBufferBindings) (viewId : Address) : EncodedCompilationTableBinding :=
  ⟨bindings, viewId, .all, .empty⟩

variable (recurse : Address → Resolving ResolvedEncodedView)

/-- The own tables of an overlay: those of its delta. -/
def overlayDelta (owner : Address) (bindings : EncodedBufferBindings) (localRootCount : Nat)
    (rest : List EncodedSegment)
    (viewId : Address) : CoreResult (List EncodedCompilationTableBinding) :=
  match rest with
  | [] => do
    refuse (localRootCount ≠ 0) (.protocol "single-segment overlay base must not carry local roots")
    pure []
  | delta :: _ => do
    validateOverlayDeltaSegment delta owner localRootCount
    pure [ownTable bindings viewId]

/-- `resolve_overlay`. -/
def resolveOverlay (owner : Address) (bindings : EncodedBufferBindings) (localRootCount : Nat) (base : EncodedSegment)
    (rest : List EncodedSegment) (viewId : Address) : Resolving ResolvedEncodedView := do
  check (refuse (rest.length > 1) (.protocol "encoded overlay segment family must contain a base and optional delta"))
  let token ← check (requiredAttribute "member_token" base.memberToken)
  check (refuse (!token.isNone) (.protocol "overlay base segment must not carry a member token"))
  let source ← check (sourceView heap base "overlay base segment must reference a source view"
    "overlay base segment owner differs from its source owner")
  let resolved ← recurse source
  let scopeMap ← check (do
    readScopeMap (← bufferAttribute base.anonymousScopeMap "anonymous_scope_map" "overlay anonymous_scope_map"))
  let tables ← check (selectOverlayBase base source (applyScopeMap resolved.tables scopeMap) resolved.localRootCount)
  let own ← check (overlayDelta owner bindings localRootCount rest viewId)
  check (enforceResolvedTableLimit (tables ++ own))
  pure ⟨tables ++ own, localRootCount⟩

/-- A turn of the loop of `resolve_composite`: the tables of a member, and its token. -/
def resolveMember (previousToken : Option Bytes32) (segment : EncodedSegment) :
    Resolving (Bytes32 × List EncodedCompilationTableBinding) := do
  let role ← check (integerAttribute segment.role "role" "encoded composite member role")
  check (refuse (role ≠ SEGMENT_COMPOSITE_MEMBER)
    (.protocol "encoded composite member roles are not contiguous and canonical"))
  let token ← check (exactMemberToken segment)
  check (refuse (previousToken.any fun previous => token.key ≤ previous.key)
    (.protocol "encoded composite member tokens must be sorted and unique"))
  let source ← check (sourceView heap segment "encoded composite member must reference a source view"
    "encoded composite member owner differs from its source owner")
  let resolved ← recurse source
  let scopeMap ← check (do
    readScopeMap (← bufferAttribute segment.anonymousScopeMap "anonymous_scope_map" "composite anonymous_scope_map"))
  let tables ← check
    (selectCompositeMember segment source (applyScopeMap resolved.tables scopeMap) resolved.localRootCount)
  pure (token, tables)

/-- The loop of `resolve_composite`. -/
def resolveMembers (previousToken : Option Bytes32) (tables : List EncodedCompilationTableBinding) :
    List EncodedSegment → Resolving (List EncodedCompilationTableBinding)
  | [] => pure tables
  | segment :: rest => do
    let (token, resolved) ← resolveMember heap recurse previousToken segment
    check (enforceResolvedTableLimit (tables ++ resolved))
    resolveMembers (some token) (tables ++ resolved) rest

/-- The own tables of a composite: those of its bridge. -/
def compositeBridge (owner : Address) (bindings : EncodedBufferBindings) (localRootCount : Nat) (hasBridge : Bool)
    (last : EncodedSegment) (viewId : Address) : CoreResult (List EncodedCompilationTableBinding) :=
  if hasBridge then do
    validateCompositeBridgeSegment last owner localRootCount
    pure [ownTable bindings viewId]
  else do
    refuse (localRootCount ≠ 0) (.protocol "encoded composite without a bridge must not carry local roots")
    pure []

/-- `resolve_composite`. -/
def resolveComposite (owner : Address) (bindings : EncodedBufferBindings) (localRootCount : Nat)
    (first : EncodedSegment)
    (rest : List EncodedSegment) (viewId : Address) : Resolving ResolvedEncodedView := do
  let segments := first :: rest
  let last := rest.getLastD first
  let lastRole ← check (integerAttribute last.role "role" "encoded composite segment role")
  let hasBridge : Bool := lastRole = SEGMENT_COMPOSITE_BRIDGE
  let memberCount := if hasBridge then segments.length - 1 else segments.length
  check (refuse (memberCount < 2 || memberCount > 255)
    (.capacity "encoded composite member count is outside the consumer limit"))
  let tables ← resolveMembers heap recurse none [] (segments.take memberCount)
  let own ← check (compositeBridge owner bindings localRootCount hasBridge last viewId)
  check (enforceResolvedTableLimit (tables ++ own))
  pure ⟨tables ++ own, localRootCount⟩

/-- `checked_add` of a counter of the resolver. -/
def countUp (field : CompositeResolver → Nat) (store : Nat → CompositeResolver → CompositeResolver)
    (amount bound : Nat)
    (overflow : String) : Resolving Unit := do
  let current ← read field
  check (refuse (current + amount ≥ bound) (.capacity overflow))
  write (store (current + amount))

/-- The bytes of the postings of a segment are counted. -/
def countPostingBytes (segment : EncodedSegment) : Resolving Unit := do
  let rootIds ← check (bufferAttribute segment.rootIds "root_ids" "segment root_ids")
  countUp (·.postingBytes) (fun total resolver => { resolver with postingBytes := total }) rootIds.length USIZE
    "encoded posting byte count overflow"

/-- `resolve_uncached`. -/
def resolveUncached (viewId : Address) : Resolving ResolvedEncodedView := do
  let view := heap viewId
  let (owner, modelSchema) ← check (validateEncodedEnvelope view)
  let expected ← read (·.modelSchema)
  check (refuse (modelSchema ≠ expected)
    (.protocol "referenced encoded view model schema differs from the top view"))
  let bindings ← check (EncodedBufferBindings.fromView view)
  let validated ← check (do validateColumnShape (← bindings.columns) .default)
  let raw ← check (requiredAttribute "segments" view.segments)
  let segments ← check (okOr (.protocol "encoded structural view segments must be an exact tuple") raw)
  match segments with
  | [] => raise (.protocol "encoded structural segment table must not be empty")
  | first :: rest => do
    check view.fingerprint
    countUp (·.segmentCount) (fun total resolver => { resolver with segmentCount := total })
      (first :: rest).length (2 ^ 64)
      "encoded structural segment count overflow"
    each countPostingBytes (first :: rest)
    let firstRole ← check (integerAttribute first.role "role" "encoded segment role")
    if firstRole = SEGMENT_DIRECT then do
      check (validateDirectSegment (first :: rest) owner)
      pure ⟨[ownTable bindings viewId], validated.rootCount⟩
    else if firstRole = SEGMENT_OVERLAY_BASE then
      resolveOverlay heap recurse owner bindings validated.rootCount first rest viewId
    else if firstRole = SEGMENT_COMPOSITE_MEMBER then
      resolveComposite heap recurse owner bindings validated.rootCount first rest viewId
    else raise (.invalidInput "encoded composite source has an unsupported segment family")

end

def viewLimit : CoreError := .capacity "encoded structural view graph exceeds the consumer limit"

/-- The part of `resolve` before a view is resolved. -/
def resolveGuarded (viewId : Address) (fresh : Resolving ResolvedEncodedView) : Resolving ResolvedEncodedView := do
  write fun resolver => { resolver with referenced := insert viewId resolver.referenced }
  let active ← read (·.active)
  if viewId ∈ active then raise (.protocol "encoded structural segment graph is cyclic")
  else do
    let found ← read fun resolver => resolver.cache.lookup viewId
    match found with
    | some cached => pure cached
    | none => do
      let size ← read fun resolver => resolver.cache.length + resolver.active.card
      if size ≥ 256 then raise viewLimit else fresh

/-- A view is active while it is resolved, whether that succeeds or not. -/
def whileActive {α : Type} (viewId : Address) (body : Resolving α) : Resolving α := do
  write fun resolver => { resolver with active := insert viewId resolver.active }
  body.closing fun resolver => { resolver with active := resolver.active.erase viewId }

/-- The part of `resolve` that resolves a view. -/
def resolveFresh (heap : Address → EncodedView) (recurse : Address → Resolving ResolvedEncodedView)
    (viewId : Address) :
    Resolving ResolvedEncodedView := do
  let resolved ← whileActive viewId (resolveUncached heap recurse viewId)
  write (CompositeResolver.remember viewId resolved)
  pure resolved

/-- `resolve`, with a bound on the depth of the recursion; the limit on the active views is met before it. -/
def resolveWithin (heap : Address → EncodedView) : Nat → Address → Resolving ResolvedEncodedView
  | 0, viewId => resolveGuarded viewId (raise viewLimit)
  | depth + 1, viewId => resolveGuarded viewId (resolveFresh heap (resolveWithin heap depth) viewId)

/-- `resolve`. -/
def resolve (heap : Address → EncodedView) : Address → Resolving ResolvedEncodedView := resolveWithin heap 256

/-- `resolve_top`. -/
def resolveTop (heap : Address → EncodedView) (viewId : Address) : Resolving ResolvedEncodedView := do
  write fun resolver => { resolver with active := resolver.active.erase viewId }
  let resolved ← resolve heap viewId
  write fun resolver => { resolver with referenced := resolver.referenced.erase viewId }
  pure resolved

end PyElk.Native
