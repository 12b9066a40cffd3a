import PyElk.Native.CanonicalComparison
import PyElk.Native.CanonicalDigest
import PyElk.Native.Conformance
import PyElk.Native.DepthFirst

open Raising Lexicographic

namespace PyElk.Native

namespace EncodedColumns

variable (columns : EncodedColumns)

def rootKind (root : Nat) : Nat := (columns.rootKinds.getD root 0).toNat

def rootIdentifier (root : Nat) : Nat := uintOf 4 columns.rootIds root

/-- The node of a root. -/
def rootNode (root : Nat) : Nat := columns.rootIdentifier root - 1

/-- The row of a root. -/
structure RootRow (nodeCount root : Nat) : Prop where
  kind : byteAt columns.rootKinds root "" = .ok (columns.rootKinds.getD root 0)
  identifier : u32At columns.rootIds root "" = .ok (columns.rootIdentifier root)
  node : nodeIndex (columns.rootIdentifier root) nodeCount = .ok (columns.rootNode root)
  accepts : rootAccepts (columns.rootKind root) (columns.tagOf (columns.rootNode root))

/-- One root is in front of another. -/
def RootBefore (root other : Nat) : Prop :=
  columns.rootKind root < columns.rootKind other ∨
    columns.rootKind root = columns.rootKind other ∧ columns.rootIdentifier root < columns.rootIdentifier other

/-- Columns whose roots and nodes are in the one order there is for them. -/
structure Canonical (rootCount : Nat) (canonicalLengths : List Nat) :
    Prop extends columns.Sound canonicalLengths where
  reached : ∀ node < canonicalLengths.length, columns.Reached rootCount canonicalLengths.length node
  root : ∀ root < rootCount, columns.RootRow canonicalLengths.length root
  roots : (List.range rootCount).Pairwise columns.RootBefore
  ascending : ∀ node, node + 1 < canonicalLengths.length →
    compare (columns.canonicalBytes node) (columns.canonicalBytes (node + 1)) = .lt

variable {columns} {nodeCount maxWork : Nat} {canonicalLengths : List Nat}

theorem byteAt_named {bytes : List UInt8} {index : Nat} {name other : String} {byte : UInt8}
    (read : byteAt bytes index name = .ok byte) :
    byteAt bytes index other = .ok byte := byteAt_ok.mpr (byteAt_ok.mp read)

/-- What the loop over the roots carries. -/
def RootsBefore (columns : EncodedColumns) (nodeCount : Nat) (previous : Option (Nat × Nat))
    (done : List Nat) : Prop :=
  (∀ root ∈ done, columns.RootRow nodeCount root ∧ ∃ prior, previous = some prior ∧
    (columns.rootKind root < prior.1 ∨ columns.rootKind root = prior.1 ∧ columns.rootIdentifier root ≤ prior.2)) ∧
    done.Pairwise columns.RootBefore

theorem validateRoot_returns {previous : Option (Nat × Nat)} {done : List Nat} {root : Nat}
    (before : columns.RootsBefore nodeCount previous done) :
    Returns (validateRoot columns nodeCount maxWork previous root) fun later =>
      columns.RootsBefore nodeCount later (done ++ [root]) := by
  refine .bind_any fun _ => .check_bind fun kind kindRead => .check_bind fun identifier identified =>
    .check_bind fun node indexed => ?_
  refine .check_bind fun tag tagged => .check_bind fun _ accepts => .check_bind fun _ ordered => .pure ?_
  have kinds : columns.rootKinds.getD root 0 = kind := getD_of_byteAt kindRead
  have identifiers : columns.rootIdentifier root = identifier := (uintAt_ok.mp identified).2.symm
  have nodes : columns.rootNode root = node := by
    rw [rootNode, identifiers]
    exact (nodeIndex_ok.mp indexed).2.2.symm
  have tags : columns.tagOf node = tag := (uintAt_ok.mp tagged).2.symm
  rw [refuse_ok, Bool.not_eq_false'] at accepts
  have row : columns.RootRow nodeCount root := by
    refine ⟨?_, ?_, ?_, ?_⟩
    · rw [kinds]
      exact byteAt_named kindRead
    · rw [identifiers]
      have read := uintAt_named identified ""
      rwa [← (uintAt_ok.mp identified).2] at read
    · rw [identifiers, nodes]
      exact indexed
    · rw [rootKind, kinds, nodes, tags]
      exact accepts
  have key : columns.rootKind root = kind.toNat := by rw [rootKind, kinds]
  rw [refuse_ok] at ordered
  have above : ∀ prior, previous = some prior → prior.1 < kind.toNat ∨ prior.1 = kind.toNat ∧
    prior.2 < identifier := by
    intro prior same
    rw [same, Option.any_some, Bool.or_eq_false_iff, decide_eq_false_iff_not, Bool.and_eq_false_imp,
      decide_eq_true_eq] at ordered
    obtain ⟨notAbove, notBehind⟩ := ordered
    by_cases equal : prior.1 = kind.toNat
    · have behind := notBehind equal
      rw [decide_eq_false_iff_not] at behind
      exact .inr ⟨equal, by omega⟩
    · exact .inl (by omega)
  refine ⟨fun other member => ?_,
    List.pairwise_append.mpr ⟨before.2, List.pairwise_singleton _ _, fun other member last here => ?_⟩⟩
  · obtain earlier | here := List.mem_append.mp member
    · obtain ⟨row, prior, same, below⟩ := before.1 other earlier
      refine ⟨row, _, rfl, ?_⟩
      have above := above prior same
      change columns.rootKind other < kind.toNat ∨ columns.rootKind other = kind.toNat ∧
        columns.rootIdentifier other ≤ identifier
      omega
    · rw [List.mem_singleton.mp here]
      exact ⟨row, _, rfl, .inr ⟨key, identifiers.le⟩⟩
  · obtain ⟨_, prior, same, below⟩ := before.1 other member
    have above := above prior same
    rw [List.mem_singleton.mp here, RootBefore, key, identifiers]
    omega

/-- Rows and measured nodes are what the walks over a table read. -/
theorem ValidRows.sound (valid : columns.ValidRows canonicalLengths.length)
    (left : ∀ node < canonicalLengths.length, columns.Left canonicalLengths node) :
    columns.Sound canonicalLengths where
  tag node within := (valid.row node within).tag
  start node within := (valid.row node within).start
  end_ node within := (valid.row node within).end_
  ordered node within := (valid.row node within).ordered
  roles node within := (valid.row node within).roles
  field node within index above below :=
    have field := valid.field node within index above below
    ⟨field.read, { field.valid with measured := (left node within).measured index above below }⟩
  grounded node within := (left node within).grounded
  measured node within := (left node within).length
  small node within := (left node within).small

/-- Columns with as many rows as their table counts. -/
structure Shaped (columns : EncodedColumns) (rootCount nodeCount fieldCount itemCount : Nat) : Prop where
  rootKinds : columns.rootKinds.length = rootCount
  rootIds : columns.rootIds.length = rootCount * 4
  nodeTags : columns.nodeTags.length = nodeCount * 2
  nodeFieldOffsets : columns.nodeFieldOffsets.length = (nodeCount + 1) * 8
  fieldKinds : columns.fieldKinds.length = fieldCount
  fieldValues : columns.fieldValues.length = fieldCount * 8
  fieldLengths : columns.fieldLengths.length = fieldCount * 8
  itemKinds : columns.itemKinds.length = itemCount
  itemValues : columns.itemValues.length = itemCount * 8
  itemLengths : columns.itemLengths.length = itemCount * 8

theorem alignedCount_length {bytes : List UInt8} {width count : Nat} {name : String}
    (aligned : alignedCount bytes width name = .ok count) :
    bytes.length = count * width := by
  obtain ⟨whole, rows⟩ := alignedCount_ok aligned
  rw [rows, Nat.div_mul_cancel (Nat.dvd_of_mod_eq_zero whole)]

theorem pairedCounts_length {values lengths : List UInt8} {count : Nat} {table : String} {value : Unit}
    (paired : pairedCounts values lengths count table = .ok value) :
    values.length = count * 8 ∧ lengths.length = count * 8 := by
  simp only [pairedCounts, CoreResult.bind_ok, refuse_ok, decide_eq_false_iff_not, ne_eq, not_not] at paired
  obtain ⟨rows, aligned, _, rfl, rows', aligned', same⟩ := paired
  rw [alignedCount_length aligned, alignedCount_length aligned', same]
  exact ⟨rfl, rfl⟩

theorem validateColumnShape_shaped {limits : EncodedLimits} {shape : EncodedColumnShape}
    (valid : validateColumnShape columns limits = .ok shape) :
    columns.Shaped shape.rootCount shape.nodeCount shape.fieldCount shape.itemCount := by
  simp only [validateColumnShape, CoreResult.bind_ok, refuse_ok, decide_eq_false_iff_not, ne_eq, not_not,
    okOr_ok] at valid
  obtain ⟨rootCount, roots, _, kinds, nodeCount, nodes, offsetCount, offsets, rows, added, _, sameRows, _,
    fields, _, items,
    _, _, _, _, _, _, _, _, _, _, done⟩ := valid
  obtain ⟨fieldValues, fieldLengths⟩ := pairedCounts_length fields
  obtain ⟨itemValues, itemLengths⟩ := pairedCounts_length items
  rw [checkedAdd, Option.ite_none_right_eq_some, Option.some.injEq] at added
  rw [← Except.ok.inj done]
  exact {
    rootKinds := kinds
    rootIds := alignedCount_length roots
    nodeTags := alignedCount_length nodes
    nodeFieldOffsets := by rw [alignedCount_length offsets, sameRows, added.2]
    fieldKinds := rfl
    fieldValues := fieldValues
    fieldLengths := fieldLengths
    itemKinds := rfl
    itemValues := itemValues
    itemLengths := itemLengths }

/-- Nodes within one table. -/
def within (columns : EncodedColumns) (canonicalLengths : List Nat) : Comparison :=
  ⟨⟨columns, canonicalLengths, ""⟩, ⟨columns, canonicalLengths, ""⟩, true⟩

theorem compareCanonicalNodes_gives (sound : columns.Sound canonicalLengths) {left right : Nat}
    (leftWithin : left < canonicalLengths.length)
    (rightWithin : right < canonicalLengths.length) (maxWork : Nat) :
    ∃ cost ≤ 3 * ((columns.canonicalBytes left).length + (columns.canonicalBytes right).length) + 1,
      Gives maxWork (compareCanonicalNodes left right columns canonicalLengths maxWork)
        (compare (columns.canonicalBytes left) (columns.canonicalBytes right)) cost := by
  have soundBoth : (columns.within canonicalLengths).Sound := ⟨sound, sound, fun _ => rfl⟩
  have legal : (columns.within canonicalLengths).Legal (.node left right none) := ⟨leftWithin, rightWithin, trivial⟩
  obtain ⟨cost, few, meters⟩ := Comparison.nodes_meters soundBoth legal
  change Meters _ _ _ _ (compare (columns.canonicalPrefix left none) (columns.canonicalPrefix right none)) _ at meters
  rw [Comparison.weight_singleton] at few
  change cost ≤
    3 * ((columns.canonicalPrefix left none).length + (columns.canonicalPrefix right none).length) + 1 at few
  rw [sound.canonicalPrefix_none leftWithin, sound.canonicalPrefix_none rightWithin] at few meters
  exact ⟨cost, few, .of_claim meters⟩

theorem validateDenseNodeOrder_returns (sound : columns.Sound canonicalLengths) :
    Returns (validateDenseNodeOrder columns canonicalLengths maxWork) fun _ => ∀ node,
      node + 1 < canonicalLengths.length →
      compare (columns.canonicalBytes node) (columns.canonicalBytes (node + 1)) = .lt := by
  have turns : Returns (validateDenseNodeOrder columns canonicalLengths maxWork) fun _ =>
      ∀ node ∈ List.range (canonicalLengths.length - 1),
        compare (columns.canonicalBytes node) (columns.canonicalBytes (node + 1)) = .lt := by
    refine .each fun node member => ?_
    have inside := List.mem_range.mp member
    have within : node < canonicalLengths.length := by omega
    have above : node + 1 < canonicalLengths.length := by omega
    obtain ⟨cost, _, gives⟩ := compareCanonicalNodes_gives sound within above maxWork
    refine .bind gives.returns fun ordering same => .check fun _ passed => ?_
    rw [refuse_ok, decide_eq_false_iff_not, not_not] at passed
    rw [← same, passed]
  exact .weaken turns fun _ found node within => found node (List.mem_range.mpr (by omega))

/-- Accepted rows are covered from the first to the last. -/
theorem validateRows_covered (shape : EncodedColumnShape) :
    Returns (validateRows columns shape maxWork) fun _ => columns.offsetOf 0 = 0 ∧
      columns.offsetOf shape.nodeCount = shape.fieldCount ∧ columns.Covered shape.fieldCount shape.itemCount := by
  have offsets : Returns (validateOffsets columns shape.nodeCount shape.fieldCount maxWork) fun _ =>
      (∀ node < shape.nodeCount, columns.NodeRow node) ∧ columns.offsetOf 0 = 0 ∧
        columns.offsetOf shape.nodeCount = shape.fieldCount :=
    fun state value later same => ⟨validateOffsets_returns state value later same,
      validateOffsets_bounds state value later same⟩
  refine .bind offsets fun _ found => .bind (validateComponents_covered found.1 found.2.1) fun _ covered => ?_
  rw [found.2.2] at covered
  refine .bind_any fun _ => .bind_any fun _ => .bind_any fun _ => .bind_any fun _ =>
    .pure ⟨found.2.1, found.2.2, covered⟩

/-- Accepted rows are those of terms of the schema. -/
theorem validateRows_conforms (shape : EncodedColumnShape) :
    Returns (validateRows columns shape maxWork) fun _ => ∀ node < shape.nodeCount,
      columns.Conforms shape.nodeCount node ∧
      (columns.tagOf node = 3 →
        (columns.field (columns.offsetOf node)).length = 32 ∧
        (columns.field (columns.offsetOf node + 1)).length ≠ 0) := by
  refine .bind validateOffsets_returns fun _ rows => .bind (validateComponents_conforms rows) fun _ conforms => ?_
  refine .bind_any fun _ => .bind_any fun _ => .bind_any fun _ => .check_bind fun _ scalars =>
    .pure fun node within => ?_
  exact ⟨conforms node within, validateModelScalarConstraints_anonymous scalars node within⟩

/-- What accepted rows are. -/
theorem validateRows_returns (shape : EncodedColumnShape) :
    Returns (validateRows columns shape maxWork) fun canonicalLengths =>
      canonicalLengths.length = shape.nodeCount ∧ columns.Canonical shape.rootCount canonicalLengths := by
  refine .bind validateOffsets_returns fun _ rows => .bind (validateComponents_returns rows) fun _ fields => ?_
  have valid : columns.ValidRows shape.nodeCount := ⟨rows, fields⟩
  have rootsRead :
    Returns ((List.range shape.rootCount).foldlM (validateRoot columns shape.nodeCount maxWork) none) fun last =>
      columns.RootsBefore shape.nodeCount last (List.range shape.rootCount) := by
    refine Returns.foldlM (columns.RootsBefore shape.nodeCount) ⟨fun root member => ?_, List.Pairwise.nil⟩
      fun done root rest previous _ before => validateRoot_returns before
    cases member
  refine .bind rootsRead fun last roots => ?_
  refine .bind (validateGraphAndLengths_returns valid) fun canonicalLengths graph => ?_
  obtain ⟨count, nodes⟩ := graph
  rw [← count] at valid nodes roots
  have sound := valid.sound fun node within => (nodes node within).1
  refine .bind (validateDenseNodeOrder_returns sound) fun _ ascending => .check_bind fun _ _ => .pure ⟨count, ?_⟩
  exact { sound with
    reached := fun node within => (nodes node within).2
    root := fun root within => (roots.1 root (List.mem_range.mpr within)).1
    roots := roots.2
    ascending := ascending }

end EncodedColumns

/-- A table that has been accepted, with the lengths that the validation gives. -/
structure AcceptedTable where
  columns : EncodedColumns
  limits : EncodedLimits
  validated : ValidatedEncodedColumns
  canonicalLengths : List Nat
  accepted : validateColumnsWithLengths columns limits = .ok (validated, canonicalLengths)

namespace AcceptedTable

variable (table : AcceptedTable)

def nodeCount : Nat := table.validated.nodeCount

def rootCount : Nat := table.validated.rootCount

noncomputable def canonicalBytes (node : Nat) : List UInt8 := table.columns.canonicalBytes node

theorem canonical :
    table.canonicalLengths.length = table.nodeCount ∧
      table.columns.Canonical table.rootCount table.canonicalLengths := by
  have accepted := table.accepted
  rw [validateColumnsWithLengths, CoreResult.bind_ok] at accepted
  obtain ⟨shape, shaped, accepted⟩ := accepted
  split at accepted
  · next lengths work found =>
    obtain ⟨same, sameLengths⟩ := Prod.mk.inj (Except.ok.inj accepted)
    have rows : lengths.length = shape.nodeCount ∧ table.columns.Canonical shape.rootCount lengths :=
      EncodedColumns.validateRows_returns shape 0 lengths work found
    rw [nodeCount, rootCount, ← same, ← sameLengths]
    exact rows
  · cases accepted

/-- The rows of an accepted table are covered, and there are as many as its counts say. -/
theorem covered : table.columns.offsetOf 0 = 0 ∧ table.columns.offsetOf table.nodeCount = table.validated.fieldCount ∧
    table.columns.Covered table.validated.fieldCount table.validated.itemCount ∧
    table.columns.Shaped table.rootCount table.nodeCount table.validated.fieldCount table.validated.itemCount := by
  have accepted := table.accepted
  rw [validateColumnsWithLengths, CoreResult.bind_ok] at accepted
  obtain ⟨shape, shaped, accepted⟩ := accepted
  split at accepted
  · next lengths work found =>
    have same := (Prod.mk.inj (Except.ok.inj accepted)).1
    have rows : table.columns.offsetOf 0 = 0 ∧ table.columns.offsetOf shape.nodeCount = shape.fieldCount ∧
        table.columns.Covered shape.fieldCount shape.itemCount :=
          EncodedColumns.validateRows_covered shape 0 lengths work found
    rw [nodeCount, rootCount, ← same]
    exact ⟨rows.1, rows.2.1, rows.2.2, EncodedColumns.validateColumnShape_shaped shaped⟩
  · cases accepted

theorem conforms {node : Nat} (within : node < table.nodeCount) : table.columns.Conforms table.nodeCount node ∧
    (table.columns.tagOf node = 3 →
      (table.columns.field (table.columns.offsetOf node)).length = 32 ∧
        (table.columns.field (table.columns.offsetOf node + 1)).length ≠ 0) := by
  have accepted := table.accepted
  rw [validateColumnsWithLengths, CoreResult.bind_ok] at accepted
  obtain ⟨shape, _, accepted⟩ := accepted
  split at accepted
  · next lengths work found =>
    have same := (Prod.mk.inj (Except.ok.inj accepted)).1
    rw [nodeCount, ← same] at within ⊢
    exact EncodedColumns.validateRows_conforms shape 0 lengths work found node within
  · cases accepted

/-- An accepted table keeps to the schema: each node to what its constructor asks of its fields, an anonymous
individual also to what is asked of its scope and its key, and each root to the constructors of its kind. -/
theorem keeps_schema (table : AcceptedTable) :
    (∀ node < table.nodeCount, table.columns.Conforms table.nodeCount node ∧ (table.columns.tagOf node = 3 →
      (table.columns.field (table.columns.offsetOf node)).length = 32 ∧
        (table.columns.field (table.columns.offsetOf node + 1)).length ≠ 0)) ∧
    ∀ root < table.rootCount, table.columns.rootNode root < table.nodeCount ∧
      table.columns.tagOf (table.columns.rootNode root) ∈ rootConstructors (table.columns.rootKind root) := by
  refine ⟨fun node within => table.conforms within, fun root within => ?_⟩
  obtain ⟨count, canonical⟩ := table.canonical
  have row := canonical.root root within
  rw [count] at row
  exact ⟨(nodeIndex_ok.mp row.node).2.1, rootAccepts_iff.mp row.accepts⟩

end AcceptedTable

end PyElk.Native
