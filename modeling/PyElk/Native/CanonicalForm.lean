import Mathlib.Data.List.Sort
import Mathlib.Data.Prod.Lex
import PyElk.Native.CanonicalTables

open Raising Lexicographic Bytes

namespace PyElk.Native

section

/-- The row of a root, as the roots are ordered by it. -/
def EncodedColumns.rootRow (columns : EncodedColumns) (root : Nat) : ℕ ×ₗ ℕ :=
  toLex (columns.rootKind root, columns.rootIdentifier root)

/-- A column is known by its rows. -/
theorem eq_of_rows {width count : Nat} {first second : List UInt8} (firstSize : first.length = count * width)
    (secondSize : second.length = count * width)
    (same : ∀ row < count, uintOf width first row = uintOf width second row) :
    first = second := by
  induction count generalizing first second with
  | zero =>
    rw [Nat.zero_mul] at firstSize secondSize
    rw [List.eq_nil_of_length_eq_zero firstSize, List.eq_nil_of_length_eq_zero secondSize]
  | succ count ih =>
    rw [Nat.succ_mul] at firstSize secondSize
    have heads : first.take width = second.take width := by
      have value := same 0 (Nat.zero_lt_succ count)
      rw [uintOf, uintOf, Nat.zero_mul, List.drop_zero, List.drop_zero] at value
      rw [← littleEndian_ofLittleEndian (first.take width), ← littleEndian_ofLittleEndian (second.take width), value,
        List.length_take, List.length_take, firstSize, secondSize]
    have tails : first.drop width = second.drop width := by
      refine ih (by rw [List.length_drop]; omega) (by rw [List.length_drop]; omega) fun row below => ?_
      have value := same (row + 1) (Nat.succ_lt_succ below)
      rw [uintOf, uintOf, Nat.succ_mul, Nat.add_comm _ width, ← List.drop_drop, ← List.drop_drop] at value
      exact value
    rw [← List.take_append_drop width first, heads, tails, List.take_append_drop]

/-- A minimal number is no longer than another one of its value. -/
theorem minimal_length_le {first second : List UInt8} (nonempty : first ≠ [])
    (minimal : 1 < second.length → second.getLast? ≠ some 0)
    (same : ofLittleEndian first = ofLittleEndian second) : second.length ≤ first.length := by
  by_contra longer
  have positive := List.length_pos_iff.mpr nonempty
  obtain rfl | ⟨bytes, high, rfl⟩ := second.eq_nil_or_concat
  · exact absurd (Nat.zero_le _) longer
  · rw [List.concat_eq_append] at longer minimal same
    rw [List.length_append, List.length_singleton] at longer minimal
    have nonzero : high ≠ 0 := by
      have last := minimal (by omega)
      rw [List.getLast?_concat] at last
      exact fun zero => last (congrArg some zero)
    have large : 0 < ofLittleEndian ((bytes ++ [high]).drop bytes.length) := by
      rw [List.drop_left]
      exact ofLittleEndian_pos [] nonzero
    rw [ofLittleEndian_drop, ← same] at large
    have reached : 256 ^ bytes.length ≤ ofLittleEndian first := by
      by_contra small
      rw [Nat.div_eq_of_lt (not_le.mp small)] at large
      exact absurd large (Nat.lt_irrefl 0)
    have value := ofLittleEndian_lt first
    have powers : 256 ^ first.length ≤ 256 ^ bytes.length := Nat.pow_le_pow_right (by decide) (by omega)
    omega

/-- Minimal numbers are told apart by their values. -/
theorem minimal_eq {first second : List UInt8} (firstNonempty : first ≠ []) (secondNonempty : second ≠ [])
    (firstMinimal : 1 < first.length → first.getLast? ≠ some 0)
    (secondMinimal : 1 < second.length → second.getLast? ≠ some 0)
    (same : ofLittleEndian first = ofLittleEndian second) : first = second := by
  have lengths : first.length = second.length :=
    Nat.le_antisymm (minimal_length_le secondNonempty firstMinimal same.symm)
    (minimal_length_le firstNonempty secondMinimal same)
  rw [← littleEndian_ofLittleEndian first, ← littleEndian_ofLittleEndian second, same, lengths]

theorem Component.eq_of_parts {first second : Component} (kinds : first.kind = second.kind)
    (values : first.value = second.value)
    (lengths : first.length = second.length) : first = second := by
  cases first
  cases second
  cases kinds
  cases values
  cases lengths
  rfl

theorem EncodedColumns.eq_of_columns {first second : EncodedColumns} (rootKinds : first.rootKinds = second.rootKinds)
    (rootIds : first.rootIds = second.rootIds) (nodeTags : first.nodeTags = second.nodeTags)
    (nodeFieldOffsets : first.nodeFieldOffsets = second.nodeFieldOffsets)
    (fieldKinds : first.fieldKinds = second.fieldKinds)
    (fieldValues : first.fieldValues = second.fieldValues) (fieldLengths : first.fieldLengths = second.fieldLengths)
    (itemKinds : first.itemKinds = second.itemKinds) (itemValues : first.itemValues = second.itemValues)
    (itemLengths : first.itemLengths = second.itemLengths) (scalarBytes : first.scalarBytes = second.scalarBytes) :
    first = second := by
  cases first
  cases second
  rw [EncodedColumns.mk.injEq]
  exact ⟨rootKinds, rootIds, nodeTags, nodeFieldOffsets, fieldKinds, fieldValues, fieldLengths, itemKinds,
    itemValues, itemLengths,
    scalarBytes⟩

/-- A row lies between two of the steps that lead past it. -/
theorem exists_step {steps : Nat → Nat} {count row : Nat} (start : steps 0 ≤ row) (below : row < steps count) :
    ∃ index < count, steps index ≤ row ∧ row < steps (index + 1) := by
  induction count with
  | zero => exact absurd below (by omega)
  | succ count ih =>
    by_cases earlier : row < steps count
    · obtain ⟨index, within, found⟩ := ih earlier
      exact ⟨index, by omega, found⟩
    · exact ⟨count, Nat.lt_succ_self count, by omega, below⟩

theorem steps_le {steps : Nat → Nat} {count first second : Nat}
    (ascends : ∀ index < count, steps index ≤ steps (index + 1))
    (le : first ≤ second) (within : second ≤ count) : steps first ≤ steps second := by
  induction second, le using Nat.le_induction with
  | base => exact Nat.le_refl _
  | succ second _ ih => exact (ih (by omega)).trans (ascends second within)

theorem existsUnique_step {steps : Nat → Nat} {count row : Nat}
    (ascends : ∀ index < count, steps index ≤ steps (index + 1))
    (start : steps 0 ≤ row) (below : row < steps count) :
    ∃! index, index < count ∧ steps index ≤ row ∧ row < steps (index + 1) := by
  obtain ⟨index, within, above, below⟩ := exists_step start below
  refine ⟨index, ⟨within, above, below⟩, fun other found => ?_⟩
  obtain ⟨otherWithin, otherAbove, otherBelow⟩ := found
  obtain before | same | behind := Nat.lt_trichotomy other index
  · have reached : steps (other + 1) ≤ steps index := steps_le ascends before within.le
    exact absurd otherBelow (by omega)
  · exact same
  · have reached : steps (index + 1) ≤ steps other := steps_le ascends behind otherWithin.le
    exact absurd below (by omega)

variable {left right : EncodedColumns} {leftCount rightCount : Nat} {first second : Component}

/-- Components that stand for the same refer to nodes that do. -/
theorem SameComponent.reference {node : Nat} (same : SameComponent left right first second)
    (refers : node ∈ left.references first) :
    ∃ child ∈ right.references second, left.canonicalBytes node = right.canonicalBytes child := by
  rw [EncodedColumns.references] at refers ⊢
  cases collection : isCollection first.kind with
  | true =>
    rw [if_pos collection] at refers
    rw [if_pos (same.kind ▸ collection)]
    obtain ⟨component, member, referred⟩ := List.mem_flatMap.mp refers
    obtain ⟨index, bounds, rfl⟩ := List.mem_map.mp member
    have bounds := List.mem_range'_1.mp bounds
    obtain ⟨offset, rfl⟩ := Nat.exists_eq_add_of_le bounds.1
    obtain ⟨lengths, items⟩ := same.items collection
    have item := items offset (by omega)
    obtain ⟨kind, rfl⟩ := Component.mem_leafReferences.mp referred
    refine ⟨_, List.mem_flatMap.mpr ⟨right.item (second.value + offset), ?_, ?_⟩, item.child kind⟩
    · exact List.mem_map.mpr ⟨_, List.mem_range'_1.mpr ⟨by omega, by omega⟩, rfl⟩
    · exact Component.mem_leafReferences.mpr ⟨item.kind ▸ kind, rfl⟩
  | false =>
    rw [collection, if_neg Bool.false_ne_true] at refers
    rw [if_neg (by rw [← same.kind, collection]; decide)]
    obtain ⟨kind, rfl⟩ := Component.mem_leafReferences.mp refers
    exact ⟨_, Component.mem_leafReferences.mpr ⟨same.kind ▸ kind, rfl⟩, (same.leaf collection).child kind⟩

theorem IntegerPayload.payload {columns : EncodedColumns} {component : Component}
    (integer : IntegerPayload columns.scalarBytes component.value component.length) :
    (columns.payload component).length = component.length ∧ columns.payload component ≠ [] ∧
      (1 < (columns.payload component).length → (columns.payload component).getLast? ≠ some 0) := by
  have within := integer.within
  have nonempty := integer.nonempty
  have size : (columns.payload component).length = component.length := by
    rw [EncodedColumns.payload, List.length_take, List.length_drop]
    omega
  refine ⟨size, fun empty => nonempty (by rw [← size, empty]; rfl), fun more => ?_⟩
  have minimal := integer.minimal (size ▸ more)
  rw [List.getLast?_eq_getElem?, size, EncodedColumns.payload, List.getElem?_take_of_lt (by omega),
    List.getElem?_drop,
    ← Nat.add_sub_assoc (by omega)]
  exact minimal

/-- Leaves that stand for the same string or number hold the same bytes. -/
theorem SameLeaf.payload (same : SameLeaf left right first second) (leftLeaf : first.ValidLeaf left leftCount)
    (rightLeaf : second.ValidLeaf right rightCount) (payload : isScalar first.kind ∨ first.kind = COMPONENT_INTEGER) :
    first.length = second.length ∧ left.payload first = right.payload second := by
  obtain scalar | integer := payload
  · exact same.scalar scalar
  · obtain ⟨size, nonempty, minimal⟩ := (leftLeaf.integer integer).payload
    obtain ⟨size', nonempty', minimal'⟩ := (rightLeaf.integer (same.kind ▸ integer)).payload
    have equal := minimal_eq nonempty nonempty' minimal minimal' (same.integer integer)
    exact ⟨by rw [← size, ← size', equal], equal⟩

/-- Components that stand for the same and that are placed cover as much. -/
theorem SameComponent.length_eq {cursors others : Cursors} (same : SameComponent left right first second)
    (leftValid : first.Valid left leftCount) (rightValid : second.Valid right rightCount)
    (leftPlaced : first.Placed left cursors)
    (rightPlaced : second.Placed right others) : first.length = second.length := by
  cases collection : isCollection first.kind with
  | true => exact (same.items collection).1
  | false =>
    have leftLeaf := leftValid.leaf collection
    have rightLeaf := rightValid.leaf (same.kind ▸ collection)
    obtain absent | node | scalar | integer := leftLeaf.cases
    · rw [(leftPlaced.none absent).2, (rightPlaced.none (same.kind ▸ absent)).2]
    · rw [leftPlaced.node node, rightPlaced.node (same.kind ▸ node)]
    · exact ((same.leaf collection).payload leftLeaf rightLeaf (.inl scalar)).1
    · exact ((same.leaf collection).payload leftLeaf rightLeaf (.inr integer)).1

variable {leftLengths rightLengths : List Nat} {node other : Nat}

/-- Nodes of the same bytes are of one constructor, and their fields stand for the same. -/
theorem EncodedColumns.Sound.same_fields (leftSound : left.Sound leftLengths) (rightSound : right.Sound rightLengths)
    (leftWithin : node < leftLengths.length) (rightWithin : other < rightLengths.length)
    (same : left.canonicalBytes node = right.canonicalBytes other) :
    left.tagOf node = right.tagOf other ∧ left.arity node = right.arity other ∧
      ∀ offset < left.arity node,
        SameComponent left right (left.field (left.offsetOf node + offset))
          (right.field (right.offsetOf other + offset)) := by
  obtain ⟨rest, whole⟩ := rightSound.prefix_append rightWithin (left.arity node)
  have cut := leftSound.canonicalBytes_eq leftWithin
  rw [EncodedColumns.nodeBytes] at cut
  obtain ⟨parses, apart⟩ :=
    @prefixBytes_parse left right leftLengths rightLengths node other (left.arity node) leftSound rightSound
    leftWithin rightWithin
  have equal := parses [] rest (by rw [List.append_nil, ← cut, ← whole, same])
  obtain ⟨tags, fields⟩ := apart equal
  refine ⟨tags, leftSound.arity_eq rightSound leftWithin rightWithin tags, fun offset below => fields offset ?_⟩
  rw [Nat.min_self]
  exact below

end

namespace AcceptedTable

variable {left right : AcceptedTable}

/-- What the roots of a table stand for: their kinds and the bytes of their nodes. -/
def rootKeys (table : AcceptedTable) : Set (Nat × List UInt8) :=
  { key | ∃ root < table.rootCount,
    key = (table.columns.rootKind root, table.columns.canonicalBytes (table.columns.rootNode root)) }

/-- Every node of a table is a node of any other one with these roots. -/
theorem exists_node (roots : left.rootKeys ⊆ right.rootKeys) {node : Nat} (within : node < left.nodeCount) :
    ∃ other < right.nodeCount, left.columns.canonicalBytes node = right.columns.canonicalBytes other := by
  obtain ⟨root, known, path⟩ := left.exists_root within
  have leftCount := left.length_canonicalLengths
  have rightCount := right.length_canonicalLengths
  have found : ∀ {child : Nat}, Relation.ReflTransGen left.columns.Refers child (left.columns.rootNode root) →
      child < left.nodeCount ∧ ∃ other < right.nodeCount,
        left.columns.canonicalBytes child = right.columns.canonicalBytes other := by
    intro child path
    induction path using Relation.ReflTransGen.head_induction_on with
    | refl =>
      refine ⟨leftCount ▸ left.rootNode_lt known, ?_⟩
      obtain ⟨root', known', same⟩ := roots ⟨root, known, rfl⟩
      exact ⟨_, rightCount ▸ right.rootNode_lt known', (Prod.mk.inj same).2⟩
    | head refers _ ih =>
      obtain ⟨parentWithin, other, otherWithin, same⟩ := ih
      refine ⟨left.refers_lt parentWithin refers, ?_⟩
      obtain ⟨component, member, referred⟩ := List.mem_flatMap.mp refers
      obtain ⟨index, bounds, rfl⟩ := List.mem_map.mp member
      have bounds := List.mem_range'_1.mp bounds
      obtain ⟨offset, rfl⟩ := Nat.exists_eq_add_of_le bounds.1
      obtain ⟨tags, arities, fields⟩ :=
        left.sound.same_fields right.sound (leftCount.symm ▸ parentWithin) (rightCount.symm ▸ otherWithin) same
      obtain ⟨child, referred', same'⟩ := (fields offset (by omega)).reference referred
      have refers' : right.columns.Refers child other :=
        EncodedColumns.refers_of_reference (Nat.le_add_right _ _) (by rw [← arities]; omega) referred'
      exact ⟨child, right.refers_lt otherWithin refers', same'⟩
  exact (found path).2

/-- Two tables of the same roots have the same nodes, in the same order. -/
theorem nodes_same (roots : left.rootKeys = right.rootKeys) : left.nodeCount = right.nodeCount ∧
    ∀ node < left.nodeCount, left.columns.canonicalBytes node = right.columns.canonicalBytes node := by
  have ascending : ∀ table : AcceptedTable, ((List.range table.nodeCount).map table.columns.canonicalBytes).Pairwise
      fun first second => compare first second = .lt := by
    intro table
    refine List.pairwise_map.mpr
      (List.pairwise_iff_getElem.mpr fun first second firstWithin secondWithin before => ?_)
    rw [List.length_range] at firstWithin secondWithin
    rw [List.getElem_range, List.getElem_range, table.ranks firstWithin secondWithin]
    exact Nat.compare_eq_lt.mpr before
  have irreflexive : Std.Irrefl fun first second : List UInt8 => compare first second = .lt :=
    ⟨fun string below => by rw [compare_self] at below; cases below⟩
  have antisymmetric : Std.Antisymm fun first second : List UInt8 => compare first second = .lt :=
    ⟨fun first second below above => by rw [Std.OrientedOrd.eq_swap, above] at below; cases below⟩
  have members : ∀ {table other : AcceptedTable}, table.rootKeys ⊆ other.rootKeys → ∀ bytes,
      bytes ∈ (List.range table.nodeCount).map table.columns.canonicalBytes →
        bytes ∈ (List.range other.nodeCount).map other.columns.canonicalBytes := by
    intro table other roots bytes member
    obtain ⟨node, within, rfl⟩ := List.mem_map.mp member
    obtain ⟨found, inside, same⟩ := exists_node roots (List.mem_range.mp within)
    rw [same]
    exact List.mem_map.mpr ⟨found, List.mem_range.mpr inside, rfl⟩
  have same := List.Pairwise.eq_of_mem_iff (ascending left) (ascending right) fun bytes =>
    ⟨members roots.le bytes, members roots.ge bytes⟩
  have counts : left.nodeCount = right.nodeCount := by
    have lengths := congrArg List.length same
    rwa [List.length_map, List.length_map, List.length_range, List.length_range] at lengths
  refine ⟨counts, fun node within => ?_⟩
  have rows : ((List.range left.nodeCount).map left.columns.canonicalBytes)[node]? =
      ((List.range right.nodeCount).map right.columns.canonicalBytes)[node]? := by rw [same]
  rw [List.getElem?_map, List.getElem?_map, List.getElem?_range within, List.getElem?_range (counts ▸ within)] at rows
  exact Option.some.inj rows

/-- Tables of the same roots have the same constructors, and their nodes the same fields. -/
theorem offsets_same (roots : left.rootKeys = right.rootKeys) :
    (∀ node < left.nodeCount, left.columns.tagOf node = right.columns.tagOf node) ∧
      ∀ node ≤ left.nodeCount, left.columns.offsetOf node = right.columns.offsetOf node := by
  obtain ⟨counts, nodes⟩ := nodes_same roots
  have leftCount := left.length_canonicalLengths
  have rightCount := right.length_canonicalLengths
  have fields : ∀ node < left.nodeCount, left.columns.tagOf node = right.columns.tagOf node ∧
      left.columns.arity node = right.columns.arity node := by
    intro node within
    obtain ⟨tags, arities, _⟩ :=
      left.sound.same_fields right.sound (leftCount.symm ▸ within) (rightCount.symm ▸ counts ▸ within)
        (nodes node within)
    exact ⟨tags, arities⟩
  refine ⟨fun node within => (fields node within).1, fun node within => ?_⟩
  induction node with
  | zero => rw [left.covered.1, right.covered.1]
  | succ node ih =>
    have before := ih (Nat.le_of_succ_le within)
    have arities := (fields node within).2
    have leftOrdered := left.sound.ordered node (leftCount.symm ▸ within)
    have rightOrdered := right.sound.ordered node (rightCount.symm ▸ counts ▸ within)
    rw [EncodedColumns.arity, EncodedColumns.arity] at arities
    omega

/-- The field of a table at a row, as the validation leaves it. -/
theorem valid_field (table : AcceptedTable) {index : Nat} (within : index < table.validated.fieldCount) :
    (table.columns.field index).Legal table.columns table.nodeCount := by
  obtain ⟨start, last, _⟩ := table.covered
  obtain ⟨node, inside, above, below⟩ :=
    @exists_step table.columns.offsetOf _ _ (start ▸ Nat.zero_le index) (last ▸ within)
  have count := table.length_canonicalLengths
  rw [← count] at inside ⊢
  have ordered := table.sound.ordered node inside
  exact (table.sound.field node inside index above (by rw [EncodedColumns.arity]; omega)).legal

/-- Fields at the same row stand for the same. -/
theorem components_same (roots : left.rootKeys = right.rootKeys) {index : Nat}
    (within : index < left.validated.fieldCount) :
    SameComponent left.columns right.columns (left.columns.field index) (right.columns.field index) := by
  obtain ⟨counts, nodes⟩ := nodes_same roots
  obtain ⟨start, last, _⟩ := left.covered
  obtain ⟨node, inside, above, below⟩ :=
    @exists_step left.columns.offsetOf _ _ (start ▸ Nat.zero_le index) (last ▸ within)
  obtain ⟨_, _, fields⟩ := left.sound.same_fields right.sound (left.length_canonicalLengths.symm ▸ inside)
    (right.length_canonicalLengths.symm ▸ counts ▸ inside) (nodes node inside)
  obtain ⟨offset, rfl⟩ := Nat.exists_eq_add_of_le above
  have found := fields offset (by rw [EncodedColumns.arity]; omega)
  rwa [← (offsets_same roots).2 node inside.le] at found

theorem fieldCount_same (roots : left.rootKeys = right.rootKeys) :
    left.validated.fieldCount = right.validated.fieldCount := by
  rw [← left.covered.2.1, ← right.covered.2.1, (offsets_same roots).2 _ (Nat.le_refl _), (nodes_same roots).1]

/-- Tables of the same roots cover their items and scalars in the same steps. -/
theorem cursors_same (roots : left.rootKeys = right.rootKeys) {index : Nat}
    (within : index ≤ left.validated.fieldCount) :
    left.columns.cursorsAt index = right.columns.cursorsAt index := by
  induction index with
  | zero => rfl
  | succ index ih =>
    have same := components_same roots within
    have count := fieldCount_same roots
    have lengths := same.length_eq (left.valid_field within).toValid (right.valid_field (count ▸ within)).toValid
      (left.covered.2.2.1.placed index within) (right.covered.2.2.1.placed index (count ▸ within))
    rw [EncodedColumns.cursorsAt_succ, EncodedColumns.cursorsAt_succ, ih (Nat.le_of_succ_le within), Component.after,
      Component.after,
      same.kind, lengths]

/-- Nodes of the same bytes have the same number. -/
theorem node_eq (roots : left.rootKeys = right.rootKeys) {node other : Nat} (within : node < left.nodeCount)
    (otherWithin : other < left.nodeCount)
    (same : left.columns.canonicalBytes node = right.columns.canonicalBytes other) :
    node = other := by
  rw [← (nodes_same roots).2 other otherWithin] at same
  have ranks := left.ranks within otherWithin
  rw [same, compare_self] at ranks
  exact Nat.compare_eq_eq.mp ranks.symm

theorem leaf_value_eq (roots : left.rootKeys = right.rootKeys) {first second : Component}
    (same : SameLeaf left.columns right.columns first second) (leftLeaf : first.ValidLeaf left.columns left.nodeCount)
    (rightLeaf : second.ValidLeaf right.columns right.nodeCount) (node : first.kind = COMPONENT_NODE) :
    first.value = second.value := by
  have leftBounds := leftLeaf.node node
  have rightBounds := rightLeaf.node (same.kind ▸ node)
  have counts := (nodes_same roots).1
  have children := node_eq roots (leftLeaf.child node) (counts ▸ rightLeaf.child (same.kind ▸ node)) (same.child node)
  omega

theorem fields_same (roots : left.rootKeys = right.rootKeys) {index : Nat}
    (within : index < left.validated.fieldCount) :
    left.columns.field index = right.columns.field index := by
  have count := fieldCount_same roots
  have same := components_same roots within
  have leftValid := (left.valid_field within).toValid
  have rightValid := (right.valid_field (count ▸ within)).toValid
  have leftPlaced := left.covered.2.2.1.placed index within
  have rightPlaced := right.covered.2.2.1.placed index (count ▸ within)
  rw [← cursors_same roots within.le] at rightPlaced
  have values : (left.columns.field index).value = (right.columns.field index).value := by
    cases collection : isCollection (left.columns.field index).kind with
    | true => rw [leftPlaced.collection collection, rightPlaced.collection (same.kind ▸ collection)]
    | false =>
      have leftLeaf := leftValid.leaf collection
      have rightLeaf := rightValid.leaf (same.kind ▸ collection)
      obtain absent | node | scalar | integer := leftLeaf.cases
      · rw [(leftPlaced.none absent).1, (rightPlaced.none (same.kind ▸ absent)).1]
      · exact leaf_value_eq roots (same.leaf collection) leftLeaf rightLeaf node
      · rw [leftPlaced.payload (.inl scalar), rightPlaced.payload (.inl (same.kind ▸ scalar))]
      · rw [leftPlaced.payload (.inr integer), rightPlaced.payload (.inr (same.kind ▸ integer))]
  exact Component.eq_of_parts same.kind values (same.length_eq leftValid rightValid leftPlaced rightPlaced)

/-- A collection covers the items between the cursors around it. -/
theorem collection_covers (table : AcceptedTable) {index : Nat} (within : index < table.validated.fieldCount)
    (item : Nat) :
    isCollection (table.columns.field index).kind ∧ (table.columns.field index).value ≤ item ∧
        item < (table.columns.field index).value + (table.columns.field index).length ↔
      (table.columns.cursorsAt index).item ≤ item ∧ item < (table.columns.cursorsAt (index + 1)).item := by
  have placed := table.covered.2.2.1.placed index within
  rw [EncodedColumns.cursorsAt_succ, Component.after]
  split
  · next collection =>
    rw [placed.collection collection]
    exact and_iff_right collection
  · next leaf =>
    refine ⟨fun found => absurd found.1 leaf, fun found => ?_⟩
    split at found
    · exact absurd found.2 (Nat.not_lt.mpr found.1)
    · exact absurd found.2 (Nat.not_lt.mpr found.1)

/-- A payload covers the scalars between the cursors around it. -/
theorem payload_covers (table : AcceptedTable) {index : Nat}
    (within : index < table.validated.fieldCount) (row : Nat) :
    (isScalar (table.columns.field index).kind ∨ (table.columns.field index).kind = COMPONENT_INTEGER) ∧
        (table.columns.field index).value ≤ row ∧
        row < (table.columns.field index).value + (table.columns.field index).length ↔
      (table.columns.cursorsAt index).scalar ≤ row ∧ row < (table.columns.cursorsAt (index + 1)).scalar := by
  have placed := table.covered.2.2.1.placed index within
  rw [EncodedColumns.cursorsAt_succ, Component.after]
  split
  · next collection =>
    refine ⟨fun found => absurd collection ?_, fun found => absurd found.2 (Nat.not_lt.mpr found.1)⟩
    rw [EncodedColumns.not_collection_of_payload found.1]
    decide
  · split
    · next payload =>
      rw [placed.payload payload]
      exact and_iff_right payload
    · next other => exact ⟨fun found => absurd found.1 other, fun found => absurd found.2 (Nat.not_lt.mpr found.1)⟩

theorem cursorsAt_mono (columns : EncodedColumns) :
    Monotone (fun index => (columns.cursorsAt index).item) ∧
      Monotone fun index => (columns.cursorsAt index).scalar := by
  have turn : ∀ index, (columns.cursorsAt index).item ≤ (columns.cursorsAt (index + 1)).item ∧
      (columns.cursorsAt index).scalar ≤ (columns.cursorsAt (index + 1)).scalar := by
    intro index
    rw [EncodedColumns.cursorsAt_succ, Component.after]
    split
    · exact ⟨Nat.le_add_right _ _, Nat.le_refl _⟩
    · split
      · exact ⟨Nat.le_refl _, Nat.le_add_right _ _⟩
      · exact ⟨Nat.le_refl _, Nat.le_refl _⟩
  exact ⟨monotone_nat_of_le_succ fun index => (turn index).1, monotone_nat_of_le_succ fun index => (turn index).2⟩

/-- The field rows of a node are rows of the table. -/
theorem field_within (table : AcceptedTable) {node index : Nat} (within : node < table.nodeCount)
    (below : index < table.columns.offsetOf (node + 1)) : index < table.validated.fieldCount := by
  rw [← table.covered.2.1]
  refine below.trans_le (steps_le (fun other inside => ?_) within (Nat.le_refl _))
  exact table.sound.ordered other (table.length_canonicalLengths ▸ inside)

theorem field_covered_once (table : AcceptedTable) {index : Nat} (within : index < table.validated.fieldCount) :
    ∃! node, node < table.nodeCount ∧ table.columns.offsetOf node ≤ index ∧
      index < table.columns.offsetOf (node + 1) := by
  obtain ⟨start, last, _⟩ := table.covered
  refine existsUnique_step (fun node inside => ?_) (start.le.trans (Nat.zero_le index)) (within.trans_eq last.symm)
  exact table.sound.ordered node (table.length_canonicalLengths ▸ inside)

theorem item_covered_once (table : AcceptedTable) {item : Nat} (within : item < table.validated.itemCount) :
    ∃! index, index < table.validated.fieldCount ∧ isCollection (table.columns.field index).kind ∧
      (table.columns.field index).value ≤ item ∧
      item < (table.columns.field index).value + (table.columns.field index).length := by
  have last : (table.columns.cursorsAt table.validated.fieldCount).item = table.validated.itemCount := by
    rw [table.covered.2.2.1.last]
  refine (existsUnique_congr fun index => and_congr_right fun inside => table.collection_covers inside item).mpr ?_
  exact existsUnique_step (fun index _ => (cursorsAt_mono table.columns).1 (Nat.le_succ index)) (Nat.zero_le item)
    (last.symm ▸ within)

theorem scalar_covered_once (table : AcceptedTable) {row : Nat} (within : row < table.columns.scalarBytes.length) :
    ∃! index, index < table.validated.fieldCount ∧
      (isScalar (table.columns.field index).kind ∨ (table.columns.field index).kind = COMPONENT_INTEGER) ∧
        (table.columns.field index).value ≤ row ∧
        row < (table.columns.field index).value + (table.columns.field index).length := by
  have last : (table.columns.cursorsAt table.validated.fieldCount).scalar = table.columns.scalarBytes.length := by
    rw [table.covered.2.2.1.last]
  refine (existsUnique_congr fun index => and_congr_right fun inside => table.payload_covers inside row).mpr ?_
  exact existsUnique_step (fun index _ => (cursorsAt_mono table.columns).2 (Nat.le_succ index)) (Nat.zero_le row)
    (last.symm ▸ within)

/-- Every field row, item row and scalar byte belongs to one node or component, and to no other. -/
theorem rows_covered_once (table : AcceptedTable) :
    (∀ index < table.validated.fieldCount, ∃! node, node < table.nodeCount ∧
      table.columns.offsetOf node ≤ index ∧ index < table.columns.offsetOf (node + 1)) ∧
    (∀ item < table.validated.itemCount, ∃! index, index < table.validated.fieldCount ∧
      isCollection (table.columns.field index).kind ∧ (table.columns.field index).value ≤ item ∧
        item < (table.columns.field index).value + (table.columns.field index).length) ∧
    ∀ row < table.columns.scalarBytes.length, ∃! index, index < table.validated.fieldCount ∧
      (isScalar (table.columns.field index).kind ∨ (table.columns.field index).kind = COMPONENT_INTEGER) ∧
        (table.columns.field index).value ≤ row ∧
        row < (table.columns.field index).value + (table.columns.field index).length :=
  ⟨fun _ => table.field_covered_once, fun _ => table.item_covered_once, fun _ => table.scalar_covered_once⟩

theorem items_same (roots : left.rootKeys = right.rootKeys) {item : Nat} (within : item < left.validated.itemCount) :
    left.columns.item item = right.columns.item item := by
  obtain ⟨index, ⟨inside, collection, above, below⟩, _⟩ := left.item_covered_once within
  have count := fieldCount_same roots
  have fields := fields_same roots inside
  have leftValid := (left.valid_field inside).toValid
  have rightValid := (right.valid_field (count ▸ inside)).toValid
  have leftPlaced := left.covered.2.2.1.placed index inside
  have rightPlaced := right.covered.2.2.1.placed index (count ▸ inside)
  rw [← fields] at rightValid rightPlaced
  obtain ⟨offset, rfl⟩ := Nat.exists_eq_add_of_le above
  have same := ((components_same roots inside).items collection).2 offset (by omega)
  rw [← fields] at same
  have leftItem := leftValid.item collection _ above below
  have rightItem := rightValid.item collection _ above below
  refine Component.eq_of_parts same.kind (leaf_value_eq roots same leftItem.legal rightItem.legal leftItem.node) ?_
  rw [leftPlaced.item collection _ above below, rightPlaced.item collection _ above below]

theorem itemCount_same (roots : left.rootKeys = right.rootKeys) :
    left.validated.itemCount = right.validated.itemCount ∧
    left.columns.scalarBytes.length = right.columns.scalarBytes.length := by
  have last := cursors_same roots (Nat.le_refl _)
  rw [left.covered.2.2.1.last, fieldCount_same roots, right.covered.2.2.1.last, Cursors.mk.injEq] at last
  exact last

theorem scalars_same (roots : left.rootKeys = right.rootKeys) :
    left.columns.scalarBytes = right.columns.scalarBytes := by
  refine List.ext_getElem (itemCount_same roots).2 fun row within rightWithin => ?_
  obtain ⟨index, ⟨inside, payload, above, below⟩, _⟩ := left.scalar_covered_once within
  have count := fieldCount_same roots
  have leaf : isCollection (left.columns.field index).kind = false := EncodedColumns.not_collection_of_payload payload
  have fields := fields_same roots inside
  have leftLeaf := (left.valid_field inside).toValid.leaf leaf
  have rightLeaf := (right.valid_field (count ▸ inside)).toValid.leaf (fields ▸ leaf)
  have same := (((components_same roots inside).leaf leaf).payload leftLeaf rightLeaf payload).2
  rw [← fields, EncodedColumns.payload, EncodedColumns.payload] at same
  obtain ⟨offset, rfl⟩ := Nat.exists_eq_add_of_le above
  have bytes : ((left.columns.scalarBytes.drop (left.columns.field index).value).take
    (left.columns.field index).length)[offset]? =
      ((right.columns.scalarBytes.drop (left.columns.field index).value).take
        (left.columns.field index).length)[offset]? := by
        rw [same]
  rw [List.getElem?_take_of_lt (by omega), List.getElem?_take_of_lt (by omega), List.getElem?_drop,
    List.getElem?_drop,
    List.getElem?_eq_getElem within, List.getElem?_eq_getElem rightWithin] at bytes
  exact Option.some.inj bytes

/-- The rows of the roots are in lexicographic order. -/
theorem rootRows_ascending (table : AcceptedTable) :
    ((List.range table.rootCount).map table.columns.rootRow).Pairwise (· < ·) :=
  List.pairwise_map.mpr (table.canonical.2.roots.imp fun before => Prod.Lex.toLex_lt_toLex.mpr before)

theorem mem_rootRows (roots : left.rootKeys = right.rootKeys) {row : ℕ ×ₗ ℕ}
    (member : row ∈ (List.range left.rootCount).map left.columns.rootRow) :
    row ∈ (List.range right.rootCount).map right.columns.rootRow := by
  obtain ⟨root, within, rfl⟩ := List.mem_map.mp member
  have within := List.mem_range.mp within
  obtain ⟨found, inside, same⟩ := roots.le ⟨root, within, rfl⟩
  obtain ⟨kinds, bytes⟩ := Prod.mk.inj same
  have counts := (nodes_same roots).1
  have leftNode := nodeIndex_ok.mp (left.canonical.2.root root within).node
  have rightNode := nodeIndex_ok.mp (right.canonical.2.root found inside).node
  have leftWithin := left.length_canonicalLengths ▸ left.rootNode_lt within
  have rightWithin := right.length_canonicalLengths ▸ right.rootNode_lt inside
  have nodes := node_eq roots leftWithin (counts ▸ rightWithin) bytes
  have identifiers : right.columns.rootIdentifier found = left.columns.rootIdentifier root := by omega
  refine List.mem_map.mpr ⟨found, List.mem_range.mpr inside, ?_⟩
  rw [EncodedColumns.rootRow, EncodedColumns.rootRow, kinds, identifiers]

/-- The roots of two tables are in the same rows. -/
theorem roots_same (roots : left.rootKeys = right.rootKeys) :
    left.rootCount = right.rootCount ∧ ∀ root < left.rootCount,
    left.columns.rootKind root = right.columns.rootKind root ∧
      left.columns.rootIdentifier root = right.columns.rootIdentifier root := by
  have same := List.Pairwise.eq_of_mem_iff left.rootRows_ascending right.rootRows_ascending fun row =>
    ⟨mem_rootRows roots, mem_rootRows roots.symm⟩
  have rootCounts : left.rootCount = right.rootCount := by
    have lengths := congrArg List.length same
    rwa [List.length_map, List.length_map, List.length_range, List.length_range] at lengths
  refine ⟨rootCounts, fun root within => ?_⟩
  have rows : ((List.range left.rootCount).map left.columns.rootRow)[root]? =
      ((List.range right.rootCount).map right.columns.rootRow)[root]? := by rw [same]
  rw [List.getElem?_map, List.getElem?_map, List.getElem?_range within,
    List.getElem?_range (rootCounts ▸ within)] at rows
  exact Prod.mk.inj (toLex.injective (Option.some.inj rows))

/-- A column of bytes is known by its rows. -/
theorem eq_of_bytes {first second : List UInt8} {count : Nat} (firstSize : first.length = count)
    (secondSize : second.length = count)
    (same : ∀ row < count, (first.getD row 0).toNat = (second.getD row 0).toNat) : first = second := by
  refine List.ext_getElem (firstSize.trans secondSize.symm) fun row within rightWithin => ?_
  have bytes := UInt8.toNat_inj.mp (same row (firstSize ▸ within))
  rwa [List.getD_eq_getElem _ _ within, List.getD_eq_getElem _ _ rightWithin] at bytes

/-- Accepted columns are a canonical form: they are the same when their roots stand for the same, and only then. -/
theorem columns_eq_iff : left.columns = right.columns ↔ left.rootKeys = right.rootKeys := by
  obtain ⟨_, _, _, leftShape⟩ := left.covered
  obtain ⟨_, _, _, rightShape⟩ := right.covered
  constructor
  · intro same
    have counts : left.rootCount = right.rootCount := by
      rw [← leftShape.rootKinds, ← rightShape.rootKinds, same]
    rw [rootKeys, rootKeys, same, counts]
  · intro roots
    obtain ⟨rootCounts, rootRows⟩ := roots_same roots
    obtain ⟨nodeCounts, _⟩ := nodes_same roots
    obtain ⟨tags, offsets⟩ := offsets_same roots
    have fieldCounts := fieldCount_same roots
    obtain ⟨itemCounts, _⟩ := itemCount_same roots
    rw [← rootCounts, ← nodeCounts, ← fieldCounts, ← itemCounts] at rightShape
    have fields : ∀ index < left.validated.fieldCount, left.columns.field index = right.columns.field index :=
      fun index => fields_same roots
    have items : ∀ item < left.validated.itemCount, left.columns.item item = right.columns.item item :=
      fun item => items_same roots
    have rootKinds := eq_of_bytes leftShape.rootKinds rightShape.rootKinds fun root within => (rootRows root within).1
    have rootIds := eq_of_rows leftShape.rootIds rightShape.rootIds fun root within => (rootRows root within).2
    have nodeTags := eq_of_rows leftShape.nodeTags rightShape.nodeTags tags
    have nodeFieldOffsets := eq_of_rows leftShape.nodeFieldOffsets rightShape.nodeFieldOffsets fun node within =>
      offsets node (Nat.lt_succ_iff.mp within)
    have fieldKinds := eq_of_bytes leftShape.fieldKinds rightShape.fieldKinds fun index within =>
      congrArg Component.kind (fields index within)
    have fieldValues := eq_of_rows leftShape.fieldValues rightShape.fieldValues fun index within =>
      congrArg Component.value (fields index within)
    have fieldLengths := eq_of_rows leftShape.fieldLengths rightShape.fieldLengths fun index within =>
      congrArg Component.length (fields index within)
    have itemKinds :=
      eq_of_bytes leftShape.itemKinds rightShape.itemKinds fun item within =>
      congrArg Component.kind (items item within)
    have itemValues :=
      eq_of_rows leftShape.itemValues rightShape.itemValues fun item within =>
      congrArg Component.value (items item within)
    have itemLengths := eq_of_rows leftShape.itemLengths rightShape.itemLengths fun item within =>
      congrArg Component.length (items item within)
    exact EncodedColumns.eq_of_columns rootKinds rootIds nodeTags nodeFieldOffsets fieldKinds fieldValues
      fieldLengths itemKinds
      itemValues itemLengths (scalars_same roots)

end AcceptedTable

end PyElk.Native
