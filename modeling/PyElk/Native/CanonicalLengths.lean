import Mathlib.Algebra.Order.BigOperators.Group.List
import PyElk.Native.CanonicalRows

open Raising Lexicographic

namespace PyElk.Native

theorem addCanonicalLength_ok {total amount sum : Nat} :
    addCanonicalLength total amount = .ok sum ↔ total + amount < USIZE ∧ sum = total + amount := by
  rw [addCanonicalLength, okOr_ok, checkedAdd, Option.ite_none_right_eq_some, Option.some.injEq,
    eq_comm (a := total + amount)]

theorem framedLength_ok {length size : Nat} :
    framedLength length = .ok size ↔ 1 + ((varint length).length + length) < USIZE ∧
      size = 1 + ((varint length).length + length) := by
  simp only [framedLength, CoreResult.bind_ok, addCanonicalLength_ok, canonicalVarintWidth_eq]
  constructor
  · intro found
    obtain ⟨_, ⟨_, rfl⟩, fits, same⟩ := found
    exact ⟨by omega, by omega⟩
  · intro found
    obtain ⟨fits, same⟩ := found
    exact ⟨_, ⟨by omega, rfl⟩, by omega, by omega⟩

namespace EncodedColumns

variable {columns : EncodedColumns} {canonicalLengths : List Nat} {bytes : Nat → List UInt8} {component : Component}

/-- A leaf is measured where its children have been: by the bytes it stands for. -/
theorem canonicalLeafLength_ok {size : Nat} (valid : component.ValidLeaf columns canonicalLengths.length)
    (known : component.kind = COMPONENT_NODE → canonicalLengths.getD (component.value - 1) 0 =
      (bytes (component.value - 1)).length)
    (positive : component.kind = COMPONENT_NODE → bytes (component.value - 1) ≠ []) :
    canonicalLeafLength component.kind component.value component.length columns canonicalLengths = .ok size ↔
      component.Measured columns ∧ 1 + (columns.leafContent bytes component).length < USIZE ∧
        size = 1 + (columns.leafContent bytes component).length := by
  rw [← valid.content bytes, canonicalLeafLength]
  have large : 1 < USIZE := by decide
  obtain absent | node | scalar | integer := valid.cases
  · have measured : component.Measured columns := fun integer => by
      rw [absent] at integer
      exact absurd integer (by decide)
    rw [if_pos absent, content_none absent]
    constructor
    · intro found
      exact ⟨measured, large, (Except.ok.inj found).symm⟩
    · intro found
      exact congrArg Except.ok found.2.2.symm
  · have measured : component.Measured columns := fun integer => by
      rw [node] at integer
      exact absurd integer (by decide)
    have other : component.kind ≠ COMPONENT_NONE := by rw [node]; decide
    obtain ⟨nonzero, within, small⟩ := valid.node node
    have found : nodeIndex component.value canonicalLengths.length = .ok (component.value - 1) :=
      nodeIndex_ok.mpr ⟨nonzero, by omega, rfl⟩
    have some_ := List.length_pos_iff.mpr (positive node)
    have program : (do
        let identifier ← nodeIdentifier component.value "encoded node ID exceeds u32"
        let node ← nodeIndex identifier canonicalLengths.length
        let nested := canonicalLengths.getD node 0
        refuse (nested = 0) (.internal "canonical child length was not computed before its parent")
        framedLength nested) = framedLength (bytes (component.value - 1)).length := by
      rw [nodeIdentifier_ok.mpr ⟨small, rfl⟩]
      change (nodeIndex component.value canonicalLengths.length >>= _) = _
      rw [found]
      change (refuse (canonicalLengths.getD (component.value - 1) 0 = 0) _ >>= fun _ =>
        framedLength (canonicalLengths.getD (component.value - 1) 0)) = _
      rw [known node, refuse_of_not (by omega)]
      rfl
    rw [if_neg other, if_pos node, program, framedLength_ok, content_node node, frame, List.length_append]
    exact ⟨fun found => ⟨measured, found⟩, fun found => found.2⟩
  · have measured : component.Measured columns := fun integer => by
      rw [integer] at scalar
      exact absurd scalar (by decide)
    have notNone : component.kind ≠ COMPONENT_NONE := fun absent => by
      rw [absent] at scalar
      exact absurd scalar (by decide)
    have notNode : component.kind ≠ COMPONENT_NODE := fun node => by
      rw [node] at scalar
      exact absurd scalar (by decide)
    have range := valid.scalar scalar
    have size_ : (columns.payload component).length = component.length := by
      rw [payload, List.length_take, List.length_drop]
      omega
    rw [if_neg notNone, if_neg notNode, if_pos scalar, framedLength_ok, content_scalar scalar,
      List.length_append, size_]
    exact ⟨fun found => ⟨measured, found⟩, fun found => found.2⟩
  · have notNone : component.kind ≠ COMPONENT_NONE := by rw [integer]; decide
    have notNode : component.kind ≠ COMPONENT_NODE := by rw [integer]; decide
    have notScalar : ¬ isScalar component.kind := by rw [integer]; decide
    rw [if_neg notNone, if_neg notNode, if_neg notScalar, if_pos integer, content_integer integer]
    simp only [CoreResult.bind_ok, okOr_ok, checkedAdd, Option.ite_none_right_eq_some, Option.some.injEq]
    have width : ∀ {found},
      canonicalIntegerVarintWidth columns.scalarBytes component.value component.length = .ok found →
        found = (varint (Bytes.ofLittleEndian (columns.payload component))).length := by
      intro found measured
      have range : IntegerRange columns.scalarBytes component.value component.length :=
        ⟨valid.integer integer, found, measured⟩
      rw [range.width] at measured
      rw [varint_length]
      exact (Except.ok.inj measured).symm
    constructor
    · intro found
      obtain ⟨width_, measured, fits, same⟩ := found
      have equal := width measured
      exact ⟨fun _ => ⟨width_, measured⟩, by omega, by omega⟩
    · intro found
      obtain ⟨measured, fits, same⟩ := found
      obtain ⟨width_, measured⟩ := measured integer
      have equal := width measured
      exact ⟨width_, measured, by omega, by omega⟩

/-- The lengths of the nodes that a component refers to are known. -/
def Known (columns : EncodedColumns) (canonicalLengths : List Nat) (bytes : Nat → List UInt8)
    (component : Component) : Prop :=
  ∀ child ∈ columns.references component, canonicalLengths.getD child 0 = (bytes child).length ∧ bytes child ≠ []

section

variable {maxWork low total index kind : Nat}

theorem item_child {start count : Nat}
    (covers : ∀ item, start ≤ item → item < start + count → columns.LegalItem canonicalLengths.length item)
    (within : start ≤ index ∧ index < start + count) :
    (columns.item index).value - 1 ∈ (columns.items start count).flatMap Component.leafReferences := by
  refine List.mem_flatMap.mpr ⟨columns.item index, ?_,
    Component.mem_leafReferences.mpr ⟨(covers index within.1 within.2).node, rfl⟩⟩
  exact List.mem_map.mpr ⟨index, List.mem_range'_1.mpr within, rfl⟩

/-- What an item adds. -/
theorem itemBytes_length (bytes : Nat → List UInt8) (kind : Nat)
    (item : columns.LegalItem canonicalLengths.length index) :
    (columns.itemBytes bytes kind (columns.item index)).length =
      if kind = COMPONENT_SET then (columns.leafContent bytes (columns.item index)).length
      else 1 + (columns.leafContent bytes (columns.item index)).length := by
  rw [itemBytes]
  split
  · rw [if_pos item.node, leafContent, if_pos item.node]
  · rw [List.length_cons, Nat.add_comm]

theorem addItemLength_meters (item : columns.LegalItem canonicalLengths.length index)
    (known : canonicalLengths.getD ((columns.item index).value - 1) 0 =
      (bytes ((columns.item index).value - 1)).length)
    (positive : bytes ((columns.item index).value - 1) ≠ [])
    (small : 1 + (columns.leafContent bytes (columns.item index)).length < USIZE)
    (fits : total + (columns.itemBytes bytes kind (columns.item index)).length < USIZE) :
    Meters OutOfWork (workBound maxWork) low (addItemLength columns canonicalLengths maxWork kind total index)
      (total + (columns.itemBytes bytes kind (columns.item index)).length) 1 := by
  have measured := (canonicalLeafLength_ok item.legal (fun _ => known) fun _ => positive).mpr
    ⟨item.legalLeaf.measured, small, rfl⟩
  have size := itemBytes_length bytes kind item
  refine .bind_free (claimWork_meters 1 maxWork low) (.check_bind item.read (.check_bind measured ?_))
  by_cases set : kind = COMPONENT_SET
  · rw [if_pos set] at size
    refine .if_pos set
      (.check_bind (refuse_of_not (by omega) _) (.check (addCanonicalLength_ok.mpr ⟨by omega, by omega⟩)))
  · rw [if_neg set] at size
    exact .if_neg set (.check (addCanonicalLength_ok.mpr ⟨by omega, by omega⟩))

theorem addItemLength_returns (item : columns.LegalItem canonicalLengths.length index)
    (known : canonicalLengths.getD ((columns.item index).value - 1) 0 =
      (bytes ((columns.item index).value - 1)).length)
    (positive : bytes ((columns.item index).value - 1) ≠ []) :
    Returns (addItemLength columns canonicalLengths maxWork kind total index) fun sum =>
      sum = total + (columns.itemBytes bytes kind (columns.item index)).length ∧ sum < USIZE := by
  have size := itemBytes_length bytes kind item
  refine .bind_any fun _ => .check_bind fun parts read => ?_
  rw [item.read] at read
  rw [← Except.ok.inj read]
  refine .check_bind fun leaf measured => ?_
  obtain ⟨_, small, same⟩ := (canonicalLeafLength_ok item.legal (fun _ => known) fun _ => positive).mp measured
  by_cases set : kind = COMPONENT_SET
  · rw [if_pos set] at size
    rw [if_pos set]
    refine .bind_any fun _ => .check fun sum added => ?_
    obtain ⟨fits, sums⟩ := addCanonicalLength_ok.mp added
    exact ⟨by omega, by omega⟩
  · rw [if_neg set] at size
    rw [if_neg set]
    refine .check fun sum added => ?_
    obtain ⟨fits, sums⟩ := addCanonicalLength_ok.mp added
    exact ⟨by omega, by omega⟩

theorem items_length (encode : Component → List UInt8) (start count : Nat) :
    ((columns.items start count).flatMap encode).length =
      ((List.range' start count).map fun index => (encode (columns.item index)).length).sum := by
  rw [items, List.length_flatMap, List.map_map]
  rfl

theorem fields_length (encode : Component → List UInt8) (start count : Nat) :
    ((columns.fields start count).flatMap encode).length =
      ((List.range' start count).map fun index => (encode (columns.field index)).length).sum := by
  rw [fields, List.length_flatMap, List.map_map]
  rfl

/-- What is known of the items of a collection. -/
theorem Known.item {start count : Nat}
    (covers : ∀ item, start ≤ item → item < start + count → columns.LegalItem canonicalLengths.length item)
    (known : ∀ child ∈ (columns.items start count).flatMap Component.leafReferences,
      canonicalLengths.getD child 0 = (bytes child).length ∧ bytes child ≠ [])
    (within : index ∈ List.range' start count) :
    columns.LegalItem canonicalLengths.length index ∧
      canonicalLengths.getD ((columns.item index).value - 1) 0 = (bytes ((columns.item index).value - 1)).length ∧
      bytes ((columns.item index).value - 1) ≠ [] := by
  have bounds := List.mem_range'_1.mp within
  exact ⟨covers index bounds.1 bounds.2, known _ (item_child covers bounds)⟩

variable (maxWork low kind) in
/-- The items of a collection add up to their bytes. -/
theorem addItems_meters {start count : Nat}
    (covers : ∀ item, start ≤ item → item < start + count → columns.LegalItem canonicalLengths.length item)
    (known : ∀ child ∈ (columns.items start count).flatMap Component.leafReferences,
      canonicalLengths.getD child 0 = (bytes child).length ∧ bytes child ≠ [])
    (small : 1 + ((columns.items start count).flatMap (columns.itemBytes bytes kind)).length < USIZE)
    (fits : total + ((columns.items start count).flatMap (columns.itemBytes bytes kind)).length < USIZE) :
    ∃ cost ≤ ((columns.items start count).flatMap (columns.itemBytes bytes kind)).length,
      Meters OutOfWork (workBound maxWork) low
        ((List.range' start count).foldlM (addItemLength columns canonicalLengths maxWork kind) total)
        (total + ((columns.items start count).flatMap (columns.itemBytes bytes kind)).length) cost := by
  rw [items_length] at small fits ⊢
  refine Meters.foldlM_add fits fun item member sum started below => ?_
  obtain ⟨legal, measured, positive⟩ := Known.item covers known member
  have part : (columns.itemBytes bytes kind (columns.item item)).length ≤
      ((List.range' start count).map fun item => (columns.itemBytes bytes kind (columns.item item)).length).sum :=
    List.le_sum_of_mem (List.mem_map.mpr ⟨item, member, rfl⟩)
  have size := itemBytes_length bytes kind legal
  have framed : 0 < (columns.leafContent bytes (columns.item item)).length := by
    rw [leafContent, if_pos legal.node, frame, List.length_append]
    exact Nat.add_pos_left (varint_length_pos _) _
  refine ⟨1, ?_, addItemLength_meters legal measured positive ?_ below⟩
  · split at size
    · omega
    · omega
  · split at size
    · omega
    · omega

theorem addItems_returns {start count : Nat}
    (covers : ∀ item, start ≤ item → item < start + count → columns.LegalItem canonicalLengths.length item)
    (known : ∀ child ∈ (columns.items start count).flatMap Component.leafReferences,
      canonicalLengths.getD child 0 = (bytes child).length ∧ bytes child ≠ []) (small : total < USIZE) :
    Returns ((List.range' start count).foldlM (addItemLength columns canonicalLengths maxWork kind) total) fun sum =>
      sum = total + ((columns.items start count).flatMap (columns.itemBytes bytes kind)).length ∧ sum < USIZE := by
  rw [items_length]
  refine Returns.foldlM (fun sum done =>
    sum = total + (done.map fun item => (columns.itemBytes bytes kind (columns.item item)).length).sum ∧ sum < USIZE)
    ⟨rfl, small⟩ fun done item rest sum whole holds => ?_
  obtain ⟨legal, measured, positive⟩ :=
    Known.item covers known (by rw [whole]; exact List.mem_append_right _ (.head _))
  refine .weaken (addItemLength_returns legal measured positive) fun later found => ?_
  rw [List.map_append, List.sum_append, List.map_singleton, List.sum_singleton]
  omega

theorem addFieldLength_meters (field : columns.LegalField canonicalLengths.length index)
    (known : columns.Known canonicalLengths bytes (columns.field index))
    (fits : total + (columns.componentBytes bytes (columns.field index)).length < USIZE) :
    ∃ cost ≤ (columns.componentBytes bytes (columns.field index)).length,
      Meters OutOfWork (workBound maxWork) low (addFieldLength columns canonicalLengths maxWork total index)
        (total + (columns.componentBytes bytes (columns.field index)).length) cost := by
  rw [Known, references] at known
  rw [componentBytes, List.length_cons] at fits ⊢
  cases collection : isCollection (columns.field index).kind with
  | true =>
    rw [if_pos collection] at known
    have covers := field.legal.item collection
    rw [content_collection collection, List.length_append] at fits ⊢
    have added : checkedAdd (columns.field index).value (columns.field index).length =
        some ((columns.field index).value + (columns.field index).length) := if_pos (field.legal.small collection)
    have fits' : total + 1 + (varint (columns.field index).length).length +
        ((columns.items (columns.field index).value (columns.field index).length).flatMap
          (columns.itemBytes bytes (columns.field index).kind)).length < USIZE := by omega
    obtain ⟨cost, few, items⟩ :=
      addItems_meters maxWork (low + 1) (columns.field index).kind covers known (by omega) fits'
    have sums : total + 1 + (varint (columns.field index).length).length +
        ((columns.items (columns.field index).value (columns.field index).length).flatMap
          (columns.itemBytes bytes (columns.field index).kind)).length =
        total + ((varint (columns.field index).length).length +
          ((columns.items (columns.field index).value (columns.field index).length).flatMap
            (columns.itemBytes bytes (columns.field index).kind)).length + 1) := by omega
    rw [sums] at items
    refine ⟨1 + cost, by omega,
      .bind (claimWork_meters 1 maxWork low) (.check_bind field.read (.if_pos collection ?_))⟩
    refine .check_bind (addCanonicalLength_ok.mpr ⟨by omega, rfl⟩)
      (.check_bind (addCanonicalLength_ok.mpr ⟨?_, rfl⟩) ?_)
    · rw [canonicalVarintWidth_eq]
      omega
    · rw [canonicalVarintWidth_eq]
      exact .check_bind (okOr_ok.mpr added) items
  | false =>
    rw [collection, if_neg (by decide)] at known
    have leaf := field.legal.leaf collection
    rw [leaf.content bytes] at fits ⊢
    have child : (columns.field index).kind = COMPONENT_NODE →
        canonicalLengths.getD ((columns.field index).value - 1) 0 = (bytes ((columns.field index).value - 1)).length ∧
          bytes ((columns.field index).value - 1) ≠ [] :=
            fun node => known _ (Component.mem_leafReferences.mpr ⟨node, rfl⟩)
    have measured := (canonicalLeafLength_ok leaf (fun node => (child node).1) fun node => (child node).2).mpr
      ⟨field.legal.measured, by omega, rfl⟩
    refine ⟨1, by omega, .bind_free (claimWork_meters 1 maxWork low) (.check_bind field.read ?_)⟩
    refine .if_neg (by rw [collection]; decide)
      (.check_bind measured (.check (addCanonicalLength_ok.mpr ⟨by omega, by omega⟩)))

theorem addFieldLength_returns (field : columns.ValidField canonicalLengths.length index)
    (known : columns.Known canonicalLengths bytes (columns.field index)) :
    Returns (addFieldLength columns canonicalLengths maxWork total index) fun sum =>
      (sum = total + (columns.componentBytes bytes (columns.field index)).length ∧ sum < USIZE) ∧
        (columns.field index).Measured columns := by
  rw [Known, references] at known
  rw [componentBytes, List.length_cons]
  refine .bind_any fun _ => .check_bind fun parts read => ?_
  rw [field.read] at read
  rw [← Except.ok.inj read]
  cases collection : isCollection (columns.field index).kind with
  | true =>
    rw [if_pos collection] at known
    have measured : (columns.field index).Measured columns := fun integer => by
      rw [integer] at collection
      exact absurd collection (by decide)
    rw [content_collection collection, List.length_append]
    refine .if_pos collection ?_
    refine .check_bind fun first added => .check_bind fun second added' => .check_bind fun _ _ => ?_
    obtain ⟨_, same⟩ := addCanonicalLength_ok.mp added
    obtain ⟨small, same'⟩ := addCanonicalLength_ok.mp added'
    rw [canonicalVarintWidth_eq] at same' small
    refine .weaken (addItems_returns (field.valid.item collection) known (by omega)) fun sum found => ?_
    exact ⟨⟨by omega, found.2⟩, measured⟩
  | false =>
    rw [collection, if_neg (by decide)] at known
    have leaf := field.valid.leaf collection
    rw [leaf.content bytes]
    have child : (columns.field index).kind = COMPONENT_NODE →
        canonicalLengths.getD ((columns.field index).value - 1) 0 = (bytes ((columns.field index).value - 1)).length ∧
          bytes ((columns.field index).value - 1) ≠ [] :=
            fun node => known _ (Component.mem_leafReferences.mpr ⟨node, rfl⟩)
    refine .if_neg (by rw [collection]; decide) ?_
    refine .check_bind fun size measured => .check fun sum added => ?_
    obtain ⟨isMeasured, _, same⟩ :=
      (canonicalLeafLength_ok leaf (fun node => (child node).1) fun node => (child node).2).mp measured
    obtain ⟨small, same'⟩ := addCanonicalLength_ok.mp added
    exact ⟨⟨by omega, by omega⟩, isMeasured⟩

theorem nodeBytes_eq (bytes : Nat → List UInt8) (node : Nat) : columns.nodeBytes bytes node =
    varint (columns.tagOf node) ++
      (columns.fields (columns.offsetOf node) (columns.arity node)).flatMap (columns.componentBytes bytes) := by
  rw [nodeBytes, prefixBytes, fields_take (Nat.le_refl _)]

/-- A component refers to nodes of the table. -/
theorem reference_lt {nodeCount child : Nat} (valid : component.Valid columns nodeCount)
    (refers : child ∈ columns.references component) :
    child < nodeCount := by
  rw [references] at refers
  cases collection : isCollection component.kind with
  | true =>
    rw [if_pos collection] at refers
    obtain ⟨item, member, referred⟩ := List.mem_flatMap.mp refers
    obtain ⟨index, within, rfl⟩ := List.mem_map.mp member
    have bounds := List.mem_range'_1.mp within
    obtain ⟨node, rfl⟩ := Component.mem_leafReferences.mp referred
    exact (valid.item collection index bounds.1 bounds.2).legal.child node
  | false =>
    rw [if_neg (by rw [collection]; decide)] at refers
    obtain ⟨node, rfl⟩ := Component.mem_leafReferences.mp refers
    exact (valid.leaf collection).child node

/-- A component of a node refers to its children. -/
theorem refers_of_reference {node child : Nat} (above : columns.offsetOf node ≤ index)
    (below : index < columns.offsetOf node + columns.arity node)
    (refers : child ∈ columns.references (columns.field index)) :
    columns.Refers child node :=
  List.mem_flatMap.mpr ⟨columns.field index,
    List.mem_map.mpr ⟨index, List.mem_range'_1.mpr ⟨above, below⟩, rfl⟩, refers⟩

theorem varint_tag_small (node : Nat) : (varint (columns.tagOf node)).length < USIZE := by
  have small : columns.tagOf node < 65536 := by
    have bound : ((columns.nodeTags.drop (node * 2)).take 2).length ≤ 2 := List.length_take_le _ _
    have value := Bytes.ofLittleEndian_lt ((columns.nodeTags.drop (node * 2)).take 2)
    exact value.trans_le (Nat.pow_le_pow_right (by decide) bound)
  have few : (varint (columns.tagOf node)).length ≤ columns.tagOf node + 1 := by
    rw [varint_length, varintWidth, bitLength]
    split
    · omega
    · next nonzero =>
      have digits := Nat.log2_le_self (columns.tagOf node)
      omega
  have large : 65537 < USIZE := by decide
  omega

/-- What a measured node says of its rows: the length is that of its bytes, and its integers have been measured. -/
theorem canonicalNodeLength_returns {node : Nat} (tag : u16At columns.nodeTags node "" = .ok (columns.tagOf node))
    (start : usizeAt columns.nodeFieldOffsets node "" = .ok (columns.offsetOf node))
    (end_ : usizeAt columns.nodeFieldOffsets (node + 1) "" = .ok (columns.offsetOf (node + 1)))
    (fields : ∀ index, columns.offsetOf node ≤ index → index < columns.offsetOf node + columns.arity node →
      columns.ValidField canonicalLengths.length index)
    (known : ∀ child, columns.Refers child node → canonicalLengths.getD child 0 = (bytes child).length ∧
      bytes child ≠ []) :
    Returns (canonicalNodeLength node columns canonicalLengths maxWork) fun length =>
      (length = (columns.nodeBytes bytes node).length ∧ length < USIZE) ∧
        ∀ index, columns.offsetOf node ≤ index → index < columns.offsetOf node + columns.arity node →
          (columns.field index).Measured columns := by
  refine .check_bind fun found read => ?_
  rw [u16At, uintAt_named tag, Except.ok.injEq] at read
  subst read
  refine .check_bind fun found read => ?_
  rw [usizeAt, uintAt_named start, Except.ok.injEq] at read
  subst read
  refine .check_bind fun found read => ?_
  rw [usizeAt, uintAt_named end_, Except.ok.injEq] at read
  subst read
  refine .weaken (Returns.foldlM (fun sum done =>
    (sum = (varint (columns.tagOf node)).length +
      (done.map fun index => (columns.componentBytes bytes (columns.field index)).length).sum ∧ sum < USIZE) ∧
      ∀ index ∈ done, (columns.field index).Measured columns) ?_ fun done index rest sum whole holds => ?_)
        fun length found => ?_
  · refine ⟨⟨?_, ?_⟩, fun index member => absurd member List.not_mem_nil⟩
    · exact canonicalVarintWidth_eq _
    · have small : (varint (columns.tagOf node)).length < USIZE := varint_tag_small node
      rwa [← canonicalVarintWidth_eq] at small
  · have bounds : columns.offsetOf node ≤ index ∧ index < columns.offsetOf node + columns.arity node := by
      have member : index ∈ done ++ index :: rest := List.mem_append_right _ (.head _)
      rw [← whole] at member
      exact List.mem_range'_1.mp member
    refine .weaken (addFieldLength_returns (fields index bounds.1 bounds.2) fun child refers =>
      known child (refers_of_reference bounds.1 bounds.2 refers)) fun later found => ?_
    refine ⟨⟨?_, found.1.2⟩, fun other member => ?_⟩
    · rw [List.map_append, List.sum_append, List.map_singleton, List.sum_singleton]
      omega
    · obtain before | here := List.mem_append.mp member
      · exact holds.2 other before
      · rw [List.mem_singleton.mp here]
        exact found.2
  · refine ⟨⟨?_, found.1.2⟩, fun index above below => found.2 index (List.mem_range'_1.mpr ⟨above, below⟩)⟩
    rw [nodeBytes_eq, List.length_append, fields_length]
    exact found.1.1

end

namespace Sound

variable {node child : Nat}

theorem child_lt (sound : columns.Sound canonicalLengths) (within : node < canonicalLengths.length)
    (refers : columns.Refers child node) :
    child < canonicalLengths.length := by
  obtain ⟨component, member, referred⟩ := List.mem_flatMap.mp refers
  obtain ⟨index, bounds, rfl⟩ := List.mem_map.mp member
  have bounds := List.mem_range'_1.mp bounds
  exact reference_lt (sound.field node within index bounds.1 bounds.2).legal.toValid referred

theorem canonicalBytes_ne_nil (sound : columns.Sound canonicalLengths) (within : node < canonicalLengths.length) :
    columns.canonicalBytes node ≠ [] := by
  rw [sound.canonicalBytes_eq within, nodeBytes, prefixBytes]
  exact List.append_ne_nil_of_left_ne_nil (varint_ne_nil _) _

/-- `canonical_node_length` returns the length of the canonical bytes. -/
theorem nodeLength_meters (sound : columns.Sound canonicalLengths) (within : node < canonicalLengths.length)
    (maxWork : Nat) :
    ∃ cost ≤ (columns.canonicalBytes node).length,
      Meters OutOfWork (workBound maxWork) 0 (canonicalNodeLength node columns canonicalLengths maxWork)
        (columns.canonicalBytes node).length cost := by
  have whole := sound.canonicalBytes_eq within
  rw [nodeBytes_eq] at whole
  have small := sound.small node within
  rw [whole, List.length_append, fields_length] at small ⊢
  have walks : ∃ cost ≤ ((List.range' (columns.offsetOf node) (columns.arity node)).map fun index =>
      (columns.componentBytes columns.canonicalBytes (columns.field index)).length).sum,
      Meters OutOfWork (workBound maxWork) 0 ((List.range' (columns.offsetOf node) (columns.arity node)).foldlM
        (addFieldLength columns canonicalLengths maxWork) (varint (columns.tagOf node)).length)
        ((varint (columns.tagOf node)).length +
          ((List.range' (columns.offsetOf node) (columns.arity node)).map fun index =>
          (columns.componentBytes columns.canonicalBytes (columns.field index)).length).sum) cost := by
    refine Meters.foldlM_add small fun index member total low fits => ?_
    have bounds := List.mem_range'_1.mp member
    have field := sound.field node within index bounds.1 bounds.2
    refine addFieldLength_meters field (fun child refers => ?_) fits
    have inside := reference_lt field.legal.toValid refers
    exact ⟨sound.measured child inside, sound.canonicalBytes_ne_nil inside⟩
  obtain ⟨cost, few, meters⟩ := walks
  refine ⟨cost, by omega, .check_bind (uintAt_named (sound.tag node within) _)
    (.check_bind (uintAt_named (sound.start node within) _)
    (.check_bind (uintAt_named (sound.end_ node within) _) ?_))⟩
  rw [← canonicalVarintWidth_eq] at meters ⊢
  exact meters

end Sound

end EncodedColumns

end PyElk.Native
