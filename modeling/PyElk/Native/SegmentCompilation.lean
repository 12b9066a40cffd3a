import PyElk.Native.Segments

open Raising

namespace PyElk.Native

/-- What the fingerprints have seen: the logical and the extension roots up to annotations, and the entities. -/
structure SegmentedSemanticFingerprints where
  logicalRoots : List SegmentRootRef
  extensionRoots : List SegmentRootRef
  entityNodes : List SegmentNodeRef
  visitedNodes : List (List Nat)

/-- `SegmentedSemanticFingerprints::new`. -/
def SegmentedSemanticFingerprints.new (tables : List CompilableSegment) : SegmentedSemanticFingerprints :=
  ⟨[], [], [], tables.map fun table => List.replicate table.nodeCount 0⟩

/-- The node a fingerprinted row refers to is put on the stack, unless it has been seen. -/
def pushFingerprintChild (identifier : Nat) (name : String) (state : List Nat × List Nat) :
    CoreResult (List Nat × List Nat) := do
  let identifier ← nodeIdentifier identifier s!"{name} exceeds u32"
  let child ← nodeIndex identifier state.1.length
  pure (if state.1.getD child 0 = 0 then (state.1.set child 1, child :: state.2) else state)

/-- A turn of the innermost loop of `collect_reachable_entities`, over the items of a collection. -/
def collectItem (columns : EncodedColumns) (maxWork : Nat) (state : List Nat × List Nat) (item : Nat) :
    Metering (List Nat × List Nat) := do
  claimWork 1 maxWork
  let (kind, value, _) ← check (componentParts (.item item) columns)
  if kind = COMPONENT_NODE then check (pushFingerprintChild value "encoded fingerprint item node ID" state)
  else pure state

/-- A turn of the loop of `collect_reachable_entities` over the fields of a node. -/
def collectField (columns : EncodedColumns) (maxWork : Nat) (state : List Nat × List Nat) (field : Nat) :
    Metering (List Nat × List Nat) := do
  claimWork 1 maxWork
  let (kind, value, length) ← check (componentParts (.field field) columns)
  if kind = COMPONENT_NODE then check (pushFingerprintChild value "encoded fingerprint field node ID" state)
  else if isCollection kind then do
    let _ ← check (okOr (.capacity "encoded fingerprint item range overflow") (checkedAdd value length))
    (List.range' value length).foldlM (collectItem columns maxWork) state
  else pure state

/-- What `collect_reachable_entities` carries: the nodes seen, the stack, and the entities. -/
structure Collection where
  visited : List Nat
  stack : List Nat
  entities : List SegmentNodeRef

/-- The body of the outer loop of `collect_reachable_entities`, for the node on top of the stack. -/
def collectNode (table : Nat) (columns : EncodedColumns) (maxWork : Nat) (state : Collection) (node : Nat)
    (rest : List Nat) :
    Metering Collection := do
  claimWork 1 maxWork
  let tag ← check (u16At columns.nodeTags node "encoded fingerprint node tag")
  let entities := if tag = 2 then state.entities ++ [⟨table, node⟩] else state.entities
  let start ← check (usizeAt columns.nodeFieldOffsets node "encoded fingerprint node field offset")
  let following ← check (okOr (.capacity "encoded fingerprint node field offset overflow") (checkedAdd node 1))
  let end_ ← check (usizeAt columns.nodeFieldOffsets following "encoded fingerprint node field end")
  let (visited, stack) ← (List.range' start (end_ - start)).foldlM (collectField columns maxWork)
    (state.visited, rest)
  pure ⟨visited, stack, entities⟩

/-- The outer loop of `collect_reachable_entities`. Every turn claims work, so it is over before the turns are. -/
def collectLoop (table : Nat) (columns : EncodedColumns) (maxWork : Nat) : Nat → Collection → Metering Collection
  | 0, _ => raise workLimit
  | turns + 1, state =>
    match state.stack with
    | [] => pure state
    | node :: rest => do collectLoop table columns maxWork turns (← collectNode table columns maxWork state node rest)

/-- `collect_reachable_entities`. -/
def collectReachableEntities (table root : Nat) (columns : EncodedColumns) (visited : List Nat)
    (entities : List SegmentNodeRef)
    (maxWork : Nat) : Metering (List Nat × List SegmentNodeRef) := do
  let state ← check (okOr (.internal "encoded fingerprint root is out of bounds") visited[root]?)
  if state ≠ 0 then pure (visited, entities)
  else do
    let last ← collectLoop table columns maxWork (maxWork + 1) ⟨visited.set root 1, [root], entities⟩
    pure (last.visited, last.entities)

/-- `is_logical_axiom_tag`. -/
def isLogicalAxiomTag (tag : Nat) : Bool :=
  [(61, 64), (70, 82), (90, 95), (100, 101), (110, 116)].any fun range => range.1 ≤ tag && tag ≤ range.2

/-- The number of fields in front of the annotations of a node. -/
def annotationLimit (node start : Nat) (columns : EncodedColumns) (reversed : String) : CoreResult Nat := do
  let field ← annotationField node columns
  refuse (field < start) (.internal reversed)
  pure (field - start)

/-- Whether a root is the previous one but for its annotations. -/
def repeatsRoot (previous : SegmentRootRef) (node : Nat) (table : CompilableSegment) (fieldLimit : Nat)
    (tables : List CompilableSegment)
    (missing name : String) (maxWork : Nat) : Metering Bool := do
  let previousTable ← check (okOr (.internal missing) tables[previous.table]?)
  let previousNode ← check (segmentNode previousTable.mappedColumns previous.root previousTable.nodeCount name)
  let ordering ← compareCanonicalNodesBetweenWithFieldLimit previousNode node previousTable.mappedColumns
    table.mappedColumns
    previousTable.canonicalLengths table.canonicalLengths (some fieldLimit) maxWork
  pure (decide (ordering = .eq))

/-- `observe_stripped_root`. -/
def observeStrippedRoot (roots : List SegmentRootRef) (current : SegmentRootRef) (tables : List CompilableSegment)
    (maxWork : Nat) :
    Metering (List SegmentRootRef) := do
  let table ← check (okOr (.internal "encoded fingerprint table is out of bounds") tables[current.table]?)
  let node ← check (segmentNode table.mappedColumns current.root table.nodeCount "encoded fingerprint root ID")
  let start ← check (usizeAt table.mappedColumns.nodeFieldOffsets node "encoded fingerprint field offset")
  let fieldLimit ← check
    (annotationLimit node start table.mappedColumns "encoded fingerprint annotation field is reversed")
  match roots.getLast? with
  | none => pure (roots ++ [current])
  | some previous => do
    let repeated ← repeatsRoot previous node table fieldLimit
      tables "previous encoded fingerprint table is out of bounds"
      "previous encoded fingerprint root ID" maxWork
    pure (if repeated then roots else roots ++ [current])

/-- `SegmentedSemanticFingerprints::observe_root`. -/
def SegmentedSemanticFingerprints.observeRoot (seen : SegmentedSemanticFingerprints) (current : SegmentRootRef)
    (tables : List CompilableSegment) (maxWork : Nat) : Metering SegmentedSemanticFingerprints := do
  let table ← check (okOr (.internal "encoded fingerprint table is out of bounds") tables[current.table]?)
  let kind ← check (byteAt table.mappedColumns.rootKinds current.root "encoded fingerprint root kind")
  let node ← check (segmentNode table.mappedColumns current.root table.nodeCount "encoded fingerprint root ID")
  let visited ← check
    (okOr (.internal "encoded fingerprint visited table is out of bounds") seen.visitedNodes[current.table]?)
  let (visited, entities) ← collectReachableEntities current.table node table.mappedColumns visited
    seen.entityNodes maxWork
  let seen := { seen with visitedNodes := seen.visitedNodes.set current.table visited, entityNodes := entities }
  let tag ← check (u16At table.mappedColumns.nodeTags node "encoded fingerprint root tag")
  if kind.toNat = ROOT_AXIOM ∧ isLogicalAxiomTag tag then do
    pure { seen with logicalRoots := ← observeStrippedRoot seen.logicalRoots current tables maxWork }
  else if kind.toNat = ROOT_EXTENSION then do
    pure { seen with extensionRoots := ← observeStrippedRoot seen.extensionRoots current tables maxWork }
  else pure seen

/-- What takes the roots in: the builder, and `compile_root_from_columns` on it. -/
structure RootCompiler (β : Type) where
  start : β
  compileRoot : SegmentRootRef → CompilableSegment → β → CoreResult β

/-- `compile_segment_root`: the builder, and the last root that is not one of an annotation axiom. -/
def compileSegmentRoot {β : Type} (compiler : RootCompiler β) (current : SegmentRootRef)
    (tables : List CompilableSegment)
    (state : Option SegmentRootRef × β) (maxWork : Nat) : Metering (Option SegmentRootRef × β) := do
  let table ← check (okOr (.internal "encoded segment root table is out of bounds") tables[current.table]?)
  let kind ← check (byteAt table.mappedColumns.rootKinds current.root "segment root kind")
  let node ← check (segmentNode table.mappedColumns current.root table.nodeCount "segment root node ID")
  let tag ← check (u16At table.mappedColumns.nodeTags node "segment root node tag")
  if kind.toNat = ROOT_AXIOM ∧ ¬ (120 ≤ tag ∧ tag ≤ 123) then do
    let start ← check (usizeAt table.mappedColumns.nodeFieldOffsets node "axiom field offset")
    let fieldLimit ← check
      (annotationLimit node start table.mappedColumns "axiom annotation field precedes its start")
    let repeated ← match state.1 with
      | none => pure false
      | some previous =>
        (repeatsRoot previous node table fieldLimit tables "previous encoded segment root table is out of bounds"
          "previous segment root node ID" maxWork)
    if repeated then pure state else do pure (some current, ← check (compiler.compileRoot current table state.2))
  else do pure (state.1, ← check (compiler.compileRoot current table state.2))

/-- A turn of the loop over the tables behind the selected one: the table of the least root, and those whose root is
equal. -/
def selectTable (currentRoots : List (Option Nat)) (tables : List CompilableSegment) (maxWork : Nat)
    (state : Nat × List Nat)
    (candidate : Nat) : Metering (Nat × List Nat) :=
  match currentRoots.getD candidate none with
  | none => pure state
  | some root => do
    let selected ← check
      (okOr (.internal "selected segment cursor unexpectedly ended") (currentRoots.getD state.1 none))
    let ordering ← compareSegmentRoots ⟨candidate, root⟩ ⟨state.1, selected⟩ tables maxWork
    match ordering with
    | .lt => pure (candidate, [candidate])
    | .eq => pure (state.1, state.2 ++ [candidate])
    | .gt => pure state

/-- The roots at the heads of the tables, and what follows them. -/
structure RootHeads where
  currentRoots : List (Option Nat)
  rootIters : List CompilationRootIter

/-- A table moves on to its next root. -/
def RootHeads.advance (heads : RootHeads) (table : Nat) : CoreResult RootHeads := do
  match heads.rootIters[table]? with
  | none => throw (.internal "segment cursor is out of bounds")
  | some roots => do
    let (root, later) ← roots.next
    pure ⟨heads.currentRoots.set table root, heads.rootIters.set table later⟩

/-- What the merge carries: the fingerprints, if they are wanted, the last root, and the builder. -/
structure Merged (β : Type) where
  fingerprints : Option SegmentedSemanticFingerprints
  previous : Option SegmentRootRef
  builder : β

/-- A root goes into the fingerprints and the builder. -/
def Merged.take {β : Type} (compiler : RootCompiler β) (tables : List CompilableSegment) (maxWork : Nat)
    (merged : Merged β)
    (current : SegmentRootRef) : Metering (Merged β) := do
  let fingerprints ← match merged.fingerprints with
    | none => pure none
    | some seen => do pure (some (← seen.observeRoot current tables maxWork))
  let (previous, builder) ← compileSegmentRoot compiler current tables (merged.previous, merged.builder) maxWork
  pure ⟨fingerprints, previous, builder⟩

/-- The merge of `compile_encoded_segments`. Every turn takes a root from a table, so it is over before the turns
are. -/
def mergeLoop {β : Type} (compiler : RootCompiler β) (tables : List CompilableSegment) (maxWork : Nat) :
    Nat → RootHeads → Merged β → Metering (Merged β)
  | 0, _, _ => raise (.internal "segment cursors do not end")
  | turns + 1, heads, merged =>
    match heads.currentRoots.findIdx? Option.isSome with
    | none => pure merged
    | some first => do
      let (selected, equals) ← (List.range' (first + 1) (heads.currentRoots.length - (first + 1))).foldlM
        (selectTable heads.currentRoots tables maxWork) (first, [first])
      let root ← check (okOr (.internal "selected segment root disappeared") (heads.currentRoots.getD selected none))
      let merged ← merged.take compiler tables maxWork ⟨selected, root⟩
      let heads ← check (equals.foldlM RootHeads.advance heads)
      mergeLoop compiler tables maxWork turns heads merged

/-- A turn of the loop of `canonical_component_length` over the items of a collection. -/
def addComponentItem (columns : EncodedColumns) (canonicalLengths : List Nat) (maxWork kind total item : Nat) :
    Metering Nat := do
  claimWork 1 maxWork
  let (itemKind, itemValue, itemLength) ← check (componentParts (.item item) columns)
  if kind = COMPONENT_SET then do
    check (refuse (itemKind ≠ COMPONENT_NODE) (.internal "encoded canonical set fingerprint item is not a node"))
    let identifier ← check (nodeIdentifier itemValue "encoded set node ID exceeds u32")
    let node ← check (nodeIndex identifier canonicalLengths.length)
    let nested := canonicalLengths.getD node 0
    let total ← check (addCanonicalLength total (canonicalVarintWidth nested))
    check (addCanonicalLength total nested)
  else do
    let size ← check (canonicalLeafLength itemKind itemValue itemLength columns canonicalLengths)
    check (addCanonicalLength total size)

/-- `canonical_component_length`. -/
def canonicalComponentLength (row : ComponentRow) (columns : EncodedColumns) (canonicalLengths : List Nat)
    (maxWork : Nat) :
    Metering Nat := do
  let (kind, value, length) ← check (componentParts row columns)
  if ¬ isCollection kind then check (canonicalLeafLength kind value length columns canonicalLengths)
  else do
    let total ← check (addCanonicalLength 1 (canonicalVarintWidth length))
    let _ ← check (okOr (.capacity "encoded fingerprint item range overflow") (checkedAdd value length))
    (List.range' value length).foldlM (addComponentItem columns canonicalLengths maxWork kind) total

/-- A turn of the loop of `canonical_node_prefix_length`. -/
def addPrefixField (columns : EncodedColumns) (canonicalLengths : List Nat) (maxWork total field : Nat) :
    Metering Nat := do
  claimWork 1 maxWork
  let size ← canonicalComponentLength (.field field) columns canonicalLengths maxWork
  check (addCanonicalLength total size)

/-- `canonical_node_prefix_length`. -/
def canonicalNodePrefixLength (node fieldLimit : Nat) (columns : EncodedColumns) (canonicalLengths : List Nat)
    (maxWork : Nat) :
    Metering Nat := do
  let tag ← check (u16At columns.nodeTags node "encoded fingerprint node tag")
  let start ← check (usizeAt columns.nodeFieldOffsets node "encoded fingerprint field offset")
  let following ← check (okOr (.capacity "encoded fingerprint field offset overflow") (checkedAdd node 1))
  let end_ ← check (usizeAt columns.nodeFieldOffsets following "encoded fingerprint field end")
  check (refuse (fieldLimit > end_ - start) (.internal "encoded fingerprint field limit exceeds constructor arity"))
  (List.range' start fieldLimit).foldlM (addPrefixField columns canonicalLengths maxWork) (canonicalVarintWidth tag)

/-- `hash_stripped_root_frame`, on what the digest has been fed so far: an empty set stands for the annotations. -/
def hashStrippedRootFrame (tables : List CompilableSegment) (maxWork : Nat) (digest : List UInt8)
    (root : SegmentRootRef) :
    Metering (List UInt8) := do
  let table ← check (okOr (.internal "encoded fingerprint root table is out of bounds") tables[root.table]?)
  let node ← check (segmentNode table.mappedColumns root.root table.nodeCount "encoded fingerprint root node ID")
  let start ← check (usizeAt table.mappedColumns.nodeFieldOffsets node "encoded fingerprint root field offset")
  let fieldLimit ← check
    (annotationLimit node start table.mappedColumns "encoded fingerprint annotation field is reversed")
  let prefixLength ← canonicalNodePrefixLength node fieldLimit table.mappedColumns table.canonicalLengths maxWork
  let length ← check (okOr (.capacity "encoded fingerprint root length overflow") (checkedAdd prefixLength 2))
  let digest ← hashCanonicalNode (digest ++ hashVarint length) node
    (some fieldLimit) table.mappedColumns table.canonicalLengths maxWork
  pure (digest ++ [UInt8.ofNat COMPONENT_SET, 0])

/-- The byte strings `hash_segmented_logical` starts from. -/
def logicalHeader : List UInt8 :=
  encodeUtf8 "pyowl-core:snapshot-logical:v2" ++ [0] ++ (encodeUtf8 "datatype-policy:owl2-v1" ++ [0])

/-- `hash_segmented_logical`: what it feeds to the digest. -/
def hashSegmentedLogical (logicalRoots extensionRoots : List SegmentRootRef) (tables : List CompilableSegment)
    (maxWork : Nat) :
    Metering (List UInt8) := do
  let digest ← logicalRoots.foldlM (hashStrippedRootFrame tables maxWork)
    (logicalHeader ++ hashVarint logicalRoots.length)
  extensionRoots.foldlM (fun digest root => hashStrippedRootFrame tables maxWork (digest ++ encodeUtf8 "E") root)
    (digest ++ hashVarint extensionRoots.length)

/-- The byte string `hash_segmented_signature` starts from. -/
def signatureHeader : List UInt8 := encodeUtf8 "pyowl-core:snapshot-signature:v2" ++ [0] ++ [1]

/-- The frame of an entity in `hash_segmented_signature`. -/
def hashEntity (tables : List CompilableSegment) (maxWork : Nat) (digest : List UInt8) (entity : SegmentNodeRef) :
    Metering (List UInt8) := do
  let table ← check (okOr (.internal "encoded signature entity table is out of bounds") tables[entity.table]?)
  let length ← check
    (okOr (.internal "encoded signature entity length is out of bounds") table.canonicalLengths[entity.node]?)
  hashCanonicalNode (digest ++ hashVarint length) entity.node none table.mappedColumns table.canonicalLengths maxWork

/-- `hash_segmented_signature`: what it feeds to the digest. -/
def hashSegmentedSignature (entities : List SegmentNodeRef) (tables : List CompilableSegment) (maxWork : Nat) :
    Metering (List UInt8) :=
  entities.foldlM (hashEntity tables maxWork) (signatureHeader ++ hashVarint entities.length)

/-- What the two fingerprints are digests of. -/
structure EncodedSemanticFingerprints where
  logical : List UInt8
  signature : List UInt8

/-- `SegmentedSemanticFingerprints::finish`. -/
def SegmentedSemanticFingerprints.finish (sort : UnstableSort) (seen : SegmentedSemanticFingerprints)
    (tables : List CompilableSegment)
    (maxWork : Nat) : Metering EncodedSemanticFingerprints := do
  let compareEntities := fun left right => compareSegmentNodes left right tables maxWork
  let sorted ← sort.sortBy compareEntities seen.entityNodes
  let entities ← sorted.foldlM (deduplicate compareEntities) []
  let logical ← hashSegmentedLogical seen.logicalRoots seen.extensionRoots tables maxWork
  let signature ← hashSegmentedSignature entities tables maxWork
  pure ⟨logical, signature⟩

/-- One of the running totals of `validate_compilation_segment_limits`. -/
def addTotal (name : String) (total amount : Nat) : CoreResult Nat :=
  okOr (.capacity s!"encoded segment {name} overflow") (checkedAdd total amount)

structure SegmentTotals where
  roots : Nat
  nodes : Nat
  fields : Nat
  items : Nat
  scalars : Nat
  metadata : Nat

/-- A turn of the loop of `validate_compilation_segment_limits`. -/
def SegmentTotals.add (totals : SegmentTotals) (segment : EncodedCompilationSegment) : CoreResult SegmentTotals := do
  let roots ← addTotal "root count" totals.roots (← alignedCount segment.columns.rootIds 4 "segment root_ids")
  let nodes ← addTotal "node count" totals.nodes (← alignedCount segment.columns.nodeTags 2 "segment node_tags")
  let fields ← addTotal "field count" totals.fields segment.columns.fieldKinds.length
  let items ← addTotal "item count" totals.items segment.columns.itemKinds.length
  let scalars ← addTotal "scalar byte count" totals.scalars segment.columns.scalarBytes.length
  let metadata ← addTotal "posting byte count" totals.metadata segment.postings.length
  let metadata ← addTotal "scope-map byte count" metadata segment.anonymousScopeMap.length
  pure ⟨roots, nodes, fields, items, scalars, metadata⟩

/-- `validate_compilation_segment_limits`. -/
def validateCompilationSegmentLimits (segments : List EncodedCompilationSegment) (limits : EncodedLimits) :
    CoreResult Unit := do
  let totals ← segments.foldlM SegmentTotals.add ⟨0, 0, 0, 0, 0, 0⟩
  enforceCount totals.roots limits.maxRoots "encoded segment root count"
  enforceCount totals.nodes limits.maxNodes "encoded segment node count"
  enforceCount totals.fields limits.maxFields "encoded segment field count"
  enforceCount totals.items limits.maxItems "encoded segment item count"
  enforceCount totals.scalars limits.maxScalarBytes "encoded segment scalar byte count"
  enforceCount totals.metadata limits.maxScalarBytes "encoded segment metadata byte count"

/-- The selection of a segment. -/
def EncodedCompilationSegment.selection (segment : EncodedCompilationSegment) (rootCount : Nat) :
    CoreResult (Option EncodedRootSelection) :=
  match segment.postingMode with
  | some mode => some <$> EncodedRootSelection.validate mode segment.postings rootCount
  | none => do
    refuse (segment.postings ≠ []) (.protocol "encoded ALL segment must not carry root postings")
    pure none

/-- The work of a validation is added to that of the compilation. -/
def addValidationWork (amount maxWork : Nat) : Metering Unit := do
  let work ← read id
  let total ← check (okOr (.capacity "encoded segment validation work overflow") (checkedAdd work amount))
  write fun _ => total
  check (refuse (total > maxWork) (.capacity "encoded segments exceed the combined validation work limit"))

/-- A turn of the first loop of `compile_encoded_segments`: the table, and its roots. -/
def openSegment (sort : UnstableSort) (limits : EncodedLimits)
    (opened : List CompilableSegment × List CompilationRootIter)
    (segment : EncodedCompilationSegment) : Metering (List CompilableSegment × List CompilationRootIter) := do
  let rootCount ← check (alignedCount segment.columns.rootIds 4 "segment root_ids")
  let selection ← check (segment.selection rootCount)
  let (validated, canonicalLengths) ← check (validateColumnsWithLengths segment.columns limits)
  addValidationWork validated.work limits.maxWork
  let replacements ← buildScopeReplacements segment.anonymousScopeMap segment.columns validated.nodeCount
    limits.maxWork
  let tables := opened.1 ++ [⟨segment.columns, canonicalLengths, validated.nodeCount, replacements⟩]
  let roots ← if replacements.isEmpty then pure (.ordered (SelectedRootIter.new selection validated.rootCount))
    else buildRemappedRootIter sort opened.1.length selection validated.rootCount tables limits.maxWork
  pure (tables, opened.2 ++ [roots])

/-- The first root of a table. -/
def RootHeads.start (heads : RootHeads) (roots : CompilationRootIter) : CoreResult RootHeads := do
  let (root, later) ← roots.next
  pure ⟨heads.currentRoots ++ [root], heads.rootIters ++ [later]⟩

/-- `compile_encoded_segments`, up to the end of the builder: what the builder has taken in, and the fingerprints. -/
def compileEncodedSegments {β : Type} (sort : UnstableSort) (compiler : RootCompiler β)
    (segments : List EncodedCompilationSegment)
    (limits : EncodedLimits) (fingerprintSemantics : Bool) : Metering (β × Option EncodedSemanticFingerprints) := do
  check (refuse (segments = []) (.protocol "encoded segment compiler requires at least one structural table"))
  check (refuse (segments.length > 256) (.capacity "encoded segment compiler exceeds the table-count limit"))
  check (validateCompilationSegmentLimits segments limits)
  let (tables, roots) ← segments.foldlM (openSegment sort limits) ([], [])
  let heads ← check (roots.foldlM RootHeads.start ⟨[], []⟩)
  let fingerprints := if fingerprintSemantics then some (SegmentedSemanticFingerprints.new tables) else none
  let turns := (segments.map fun segment => segment.columns.rootIds.length).sum + 1
  let merged ← mergeLoop compiler tables limits.maxWork turns heads ⟨fingerprints, none, compiler.start⟩
  match merged.fingerprints with
  | none => pure (merged.builder, none)
  | some seen => do pure (merged.builder, some (← seen.finish sort tables limits.maxWork))

/-- A table without a scope map, and a selection of its roots. -/
def EncodedCompilationSegment.ofSelection (columns : EncodedColumns)
    (selection : Option (EncodedPostingMode × List UInt8)) :
    EncodedCompilationSegment :=
  ⟨columns, selection.map Prod.fst, (selection.map Prod.snd).getD [], []⟩

/-- `compile_encoded_hierarchy_with_selection`. -/
def compileEncodedHierarchyWithSelection {β : Type} (sort : UnstableSort) (compiler : RootCompiler β)
    (columns : EncodedColumns)
    (limits : EncodedLimits) (selection : Option (EncodedPostingMode × List UInt8)) :
    Metering (β × Option EncodedSemanticFingerprints) :=
  compileEncodedSegments sort compiler [.ofSelection columns selection] limits selection.isSome

/-- `compile_encoded_overlay_delta_with_selection`. -/
def compileEncodedOverlayDeltaWithSelection {β : Type} (sort : UnstableSort) (compiler : RootCompiler β)
    (sourceColumns deltaColumns : EncodedColumns) (limits : EncodedLimits)
    (sourceSelection : Option (EncodedPostingMode × List UInt8)) :
    Metering (β × Option EncodedSemanticFingerprints) :=
  compileEncodedSegments sort compiler [.ofSelection sourceColumns sourceSelection,
    .ofSelection deltaColumns none] limits true

end PyElk.Native
