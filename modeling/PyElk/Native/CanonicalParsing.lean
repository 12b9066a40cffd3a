import PyElk.Native.CanonicalRows

open Raising Lexicographic

namespace PyElk.Native

namespace EncodedColumns

theorem frame_parses (first second : List UInt8) : Parses (frame first) (frame second) :=
  (varint_parses _ _).append fun same => .of_length (varint_injective same)

/-- A framed string determines its content. -/
theorem frame_injective {first second : List UInt8} (same : frame first = frame second) : first = second := by
  have lengths := varint_parses first.length second.length first second same
  rw [frame, frame, lengths] at same
  exact List.append_cancel_left same

end EncodedColumns

/-- Two leaves that stand for the same: a child, a string, a number or nothing. -/
structure SameLeaf (left right : EncodedColumns) (first second : Component) : Prop where
  kind : first.kind = second.kind
  child : first.kind = COMPONENT_NODE → left.canonicalBytes (first.value - 1) =
    right.canonicalBytes (second.value - 1)
  scalar : isScalar first.kind → first.length = second.length ∧ left.payload first = right.payload second
  integer : first.kind = COMPONENT_INTEGER → Bytes.ofLittleEndian (left.payload first) =
    Bytes.ofLittleEndian (right.payload second)

/-- Two components that stand for the same. -/
structure SameComponent (left right : EncodedColumns) (first second : Component) : Prop where
  kind : first.kind = second.kind
  leaf : isCollection first.kind = false → SameLeaf left right first second
  items : isCollection first.kind → first.length = second.length ∧
    ∀ offset < first.length, SameLeaf left right (left.item (first.value + offset))
      (right.item (second.value + offset))

section

variable {left right : EncodedColumns} {leftCount rightCount : Nat} {first second : Component}

theorem Component.ValidLeaf.payload_length {columns : EncodedColumns} {nodeCount : Nat} {component : Component}
    (leaf : component.ValidLeaf columns nodeCount) (scalar : isScalar component.kind) :
    (columns.payload component).length = component.length := by
  have bounds := leaf.scalar scalar
  rw [EncodedColumns.payload, List.length_take, List.length_drop]
  omega

/-- The contents of two leaves of one kind are told apart without looking behind them. -/
theorem leafContent_parses (leftLeaf : first.ValidLeaf left leftCount) (rightLeaf : second.ValidLeaf right rightCount)
    (kind : first.kind = second.kind) :
    Parses (left.leafContent left.canonicalBytes first) (right.leafContent right.canonicalBytes second) := by
  rw [EncodedColumns.leafContent, EncodedColumns.leafContent, ← kind]
  split
  · exact EncodedColumns.frame_parses _ _
  · split
    · next scalar =>
      refine (varint_parses _ _).append fun same => .of_length ?_
      rw [leftLeaf.payload_length scalar, rightLeaf.payload_length (kind ▸ scalar)]
      exact varint_injective same
    · split
      · exact varint_parses _ _
      · exact .refl []

/-- Leaves of one kind with the same content are the same leaf. -/
theorem leafContent_same (kind : first.kind = second.kind)
    (same : left.leafContent left.canonicalBytes first = right.leafContent right.canonicalBytes second) :
    SameLeaf left right first second := by
  rw [EncodedColumns.leafContent, EncodedColumns.leafContent, ← kind] at same
  refine ⟨kind, fun node => ?_, fun scalar => ?_, fun integer => ?_⟩
  · rw [if_pos node, if_pos node] at same
    exact EncodedColumns.frame_injective same
  · have notNode : first.kind ≠ COMPONENT_NODE := fun node => by rw [node] at scalar; exact absurd scalar (by decide)
    rw [if_neg notNode, if_neg notNode, if_pos scalar, if_pos scalar] at same
    have lengths := varint_parses _ _ _ _ same
    refine ⟨varint_injective lengths, ?_⟩
    rw [lengths] at same
    exact List.append_cancel_left same
  · have notNode : first.kind ≠ COMPONENT_NODE := by rw [integer]; decide
    have notScalar : ¬ isScalar first.kind := by rw [integer]; decide
    rw [if_neg notNode, if_neg notNode, if_neg notScalar, if_neg notScalar, if_pos integer, if_pos integer] at same
    exact varint_injective same

theorem mark_injective (small : first.kind ≤ COMPONENT_SEQUENCE) (small' : second.kind ≤ COMPONENT_SEQUENCE)
    (same : UInt8.ofNat first.kind = UInt8.ofNat second.kind) : first.kind = second.kind := by
  have values := congrArg UInt8.toNat same
  rw [UInt8.toNat_ofNat', UInt8.toNat_ofNat', Nat.mod_eq_of_lt (small.trans_lt (by decide)),
    Nat.mod_eq_of_lt (small'.trans_lt (by decide))] at values
  exact values

theorem itemBytes_node {columns : EncodedColumns} {nodeCount index : Nat}
    (item : columns.LegalItem nodeCount index) (kind : Nat)
    (bytes : Nat → List UInt8) : columns.itemBytes bytes kind (columns.item index) =
      (if kind = COMPONENT_SET then [] else [UInt8.ofNat COMPONENT_NODE]) ++
        EncodedColumns.frame (bytes ((columns.item index).value - 1)) := by
  rw [EncodedColumns.itemBytes, if_pos item.node, EncodedColumns.leafContent, if_pos item.node]
  split
  · rfl
  · rw [item.node]
    rfl

/-- Items are told apart, and the same where they are not. -/
theorem items_parse {leftStart rightStart count : Nat} (kind : Nat)
    (leftItems : ∀ index, leftStart ≤ index → index < leftStart + count → left.LegalItem leftCount index)
    (rightItems : ∀ index, rightStart ≤ index → index < rightStart + count → right.LegalItem rightCount index) :
    Parses ((left.items leftStart count).flatMap (left.itemBytes left.canonicalBytes kind))
        ((right.items rightStart count).flatMap (right.itemBytes right.canonicalBytes kind)) ∧
      ((left.items leftStart count).flatMap (left.itemBytes left.canonicalBytes kind) =
          (right.items rightStart count).flatMap (right.itemBytes right.canonicalBytes kind) →
        ∀ offset < count, SameLeaf left right (left.item (leftStart + offset))
          (right.item (rightStart + offset))) := by
  induction count generalizing leftStart rightStart with
  | zero => exact ⟨.refl [], fun _ offset below => absurd below (Nat.not_lt_zero offset)⟩
  | succ count ih =>
    have leftItem := leftItems leftStart (Nat.le_refl _) (by omega)
    have rightItem := rightItems rightStart (Nat.le_refl _) (by omega)
    obtain ⟨parses, apart⟩ :=
      @ih (leftStart + 1) (rightStart + 1) (fun index above below => leftItems index (by omega) (by omega))
      fun index above below => rightItems index (by omega) (by omega)
    have here : Parses (left.itemBytes left.canonicalBytes kind (left.item leftStart))
        (right.itemBytes right.canonicalBytes kind (right.item rightStart)) := by
      rw [itemBytes_node leftItem, itemBytes_node rightItem]
      exact (Parses.refl _).append fun _ => EncodedColumns.frame_parses _ _
    rw [EncodedColumns.items_succ, EncodedColumns.items_succ, List.flatMap_cons, List.flatMap_cons]
    refine ⟨here.append fun _ => parses, fun same offset below => ?_⟩
    have first := here _ _ same
    cases offset with
    | zero =>
      rw [itemBytes_node leftItem, itemBytes_node rightItem] at first
      have children := EncodedColumns.frame_injective (List.append_cancel_left first)
      refine ⟨leftItem.node.trans rightItem.node.symm, fun _ => children, fun scalar => ?_, fun integer => ?_⟩
      · change isScalar (left.item leftStart).kind at scalar
        rw [leftItem.node] at scalar
        exact absurd scalar (by decide)
      · change (left.item leftStart).kind = COMPONENT_INTEGER at integer
        rw [leftItem.node] at integer
        exact absurd integer (by decide)
    | succ offset =>
      rw [first] at same
      have found := apart (List.append_cancel_left same) offset (by omega)
      rwa [Nat.add_assoc, Nat.add_assoc, Nat.add_comm 1 offset] at found

/-- Components are told apart, and the same where they are not. -/
theorem componentBytes_parse (leftValid : first.Valid left leftCount) (rightValid : second.Valid right rightCount) :
    Parses (left.componentBytes left.canonicalBytes first) (right.componentBytes right.canonicalBytes second) ∧
      (left.componentBytes left.canonicalBytes first = right.componentBytes right.canonicalBytes second →
        SameComponent left right first second) := by
  rw [EncodedColumns.componentBytes, EncodedColumns.componentBytes]
  by_cases kind : first.kind = second.kind
  · cases collection : isCollection first.kind with
    | true =>
      have collection' : isCollection second.kind := kind ▸ collection
      have parse : ∀ same : first.length = second.length, _ := fun same =>
        items_parse first.kind (leftValid.item collection) (same.symm ▸ rightValid.item collection')
      rw [EncodedColumns.content_collection collection, EncodedColumns.content_collection collection', ← kind]
      refine ⟨.cons fun _ => (varint_parses _ _).append fun same => ?_,
        fun same => ⟨kind, fun leaf => ?_, fun _ => ?_⟩⟩
      · have lengths := varint_injective same
        rw [← lengths]
        exact (parse lengths).1
      · rw [collection] at leaf
        cases leaf
      · have same := (List.cons.inj same).2
        have lengths := varint_injective (varint_parses _ _ _ _ same)
        rw [← lengths] at same
        exact ⟨lengths, (parse lengths).2 (List.append_cancel_left same)⟩
    | false =>
      have leftLeaf := leftValid.leaf collection
      have rightLeaf := rightValid.leaf (kind ▸ collection)
      rw [leftLeaf.content, rightLeaf.content]
      refine ⟨.cons fun _ => leafContent_parses leftLeaf rightLeaf kind,
        fun same => ⟨kind, fun _ => ?_, fun items => ?_⟩⟩
      · exact leafContent_same kind (List.cons.inj same).2
      · rw [collection] at items
        cases items
  · have differ : ∀ same, False := fun same => kind (mark_injective leftValid.kind_le rightValid.kind_le same)
    exact ⟨.cons fun same => (differ same).elim, fun same => (differ (List.cons.inj same).1).elim⟩

/-- Fields are told apart, and the same where they are not. -/
theorem fields_parse {leftStart rightStart count : Nat}
    (leftFields : ∀ index, leftStart ≤ index → index < leftStart + count → left.LegalField leftCount index)
    (rightFields : ∀ index, rightStart ≤ index → index < rightStart + count → right.LegalField rightCount index) :
    Parses ((left.fields leftStart count).flatMap (left.componentBytes left.canonicalBytes))
        ((right.fields rightStart count).flatMap (right.componentBytes right.canonicalBytes)) ∧
      ((left.fields leftStart count).flatMap (left.componentBytes left.canonicalBytes) =
          (right.fields rightStart count).flatMap (right.componentBytes right.canonicalBytes) →
        ∀ offset < count, SameComponent left right (left.field (leftStart + offset))
          (right.field (rightStart + offset))) := by
  induction count generalizing leftStart rightStart with
  | zero => exact ⟨.refl [], fun _ offset below => absurd below (Nat.not_lt_zero offset)⟩
  | succ count ih =>
    have leftField := leftFields leftStart (Nat.le_refl _) (by omega)
    have rightField := rightFields rightStart (Nat.le_refl _) (by omega)
    obtain ⟨parses, apart⟩ :=
      @ih (leftStart + 1) (rightStart + 1) (fun index above below => leftFields index (by omega) (by omega))
      fun index above below => rightFields index (by omega) (by omega)
    obtain ⟨here, same⟩ := componentBytes_parse leftField.legal.toValid rightField.legal.toValid
    rw [EncodedColumns.fields_succ, EncodedColumns.fields_succ, List.flatMap_cons, List.flatMap_cons]
    refine ⟨here.append fun _ => parses, fun equal offset below => ?_⟩
    have first := here _ _ equal
    cases offset with
    | zero => exact same first
    | succ offset =>
      rw [first] at equal
      have found := apart (List.append_cancel_left equal) offset (by omega)
      rwa [Nat.add_assoc, Nat.add_assoc, Nat.add_comm 1 offset] at found

theorem fields_take_min (columns : EncodedColumns) (start count limit : Nat) :
    (columns.fields start count).take limit = columns.fields start (min limit count) := by
  rw [EncodedColumns.fields, EncodedColumns.fields, ← List.map_take]
  obtain within | beyond := Nat.le_total limit count
  · rw [List.take_range'_of_length_ge within, Nat.min_eq_left within]
  · rw [List.take_range'_of_length_le beyond, Nat.min_eq_right beyond]

variable {leftLengths rightLengths : List Nat} {node other limit : Nat}

/-- Nodes that are cut after as many fields are told apart, and the same where they are not. -/
theorem prefixBytes_parse (leftSound : left.Sound leftLengths) (rightSound : right.Sound rightLengths)
    (leftWithin : node < leftLengths.length) (rightWithin : other < rightLengths.length) :
    Parses (left.prefixBytes left.canonicalBytes node limit) (right.prefixBytes right.canonicalBytes other limit) ∧
      (left.prefixBytes left.canonicalBytes node limit = right.prefixBytes right.canonicalBytes other limit →
        left.tagOf node = right.tagOf other ∧ ∀ offset < min limit (left.arity node),
          SameComponent left right (left.field (left.offsetOf node + offset))
            (right.field (right.offsetOf other + offset))) := by
  have arities : left.tagOf node = right.tagOf other → left.arity node = right.arity other := by
    intro same
    obtain ⟨roles, found, count⟩ := leftSound.roles node leftWithin
    obtain ⟨roles', found', count'⟩ := rightSound.roles other rightWithin
    rw [same, found'] at found
    rw [count, count', Option.some.inj found]
  have fields : ∀ same : left.tagOf node = right.tagOf other, _ := fun same =>
    @fields_parse left right leftLengths.length rightLengths.length (left.offsetOf node) (right.offsetOf other)
      (min limit (left.arity node)) (fun index above below => leftSound.field node leftWithin index above (by omega))
      fun index above below => rightSound.field other rightWithin index above (by rw [← arities same]; omega)
  rw [EncodedColumns.prefixBytes, EncodedColumns.prefixBytes, fields_take_min, fields_take_min]
  refine ⟨(varint_parses _ _).append fun same => ?_, fun same => ?_⟩
  · have tags := varint_injective same
    rw [← arities tags]
    exact (fields tags).1
  · have equal := varint_parses _ _ _ _ same
    have tags := varint_injective equal
    rw [equal, ← arities tags] at same
    exact ⟨tags, (fields tags).2 (List.append_cancel_left same)⟩

end

end PyElk.Native
