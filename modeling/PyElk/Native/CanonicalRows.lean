import PyElk.Native.CanonicalScalars
import PyElk.Native.Schema

open Raising Lexicographic

namespace PyElk.Native

/-- The one error of a validated walk: no work, or no number, is left. -/
def OutOfWork (error : CoreError) : Prop := ∃ message, error = .capacity message

/-- What a 64-bit counter of work can reach. -/
def workBound (maxWork : Nat) : Nat := min maxWork (USIZE - 1)

/-- A program gives its value at a cost wherever the work allows it, and else stops for want of work. -/
def Gives {α : Type} (maxWork : Nat) (step : Metering α) (value : α) (cost : Nat) : Prop :=
  ∀ spent, (spent + cost ≤ workBound maxWork → step spent = (.ok value, spent + cost)) ∧
    (workBound maxWork < spent + cost → ∃ error later, step spent = (.error error, later) ∧ OutOfWork error)

theorem claimWork_gives (amount maxWork : Nat) : Gives maxWork (claimWork amount maxWork) () amount := by
  intro spent
  rw [workBound]
  have whole : 0 < USIZE := by decide
  by_cases enough : spent + amount < USIZE
  · have added : checkedAdd spent amount = some (spent + amount) := if_pos enough
    have program : claimWork amount maxWork spent =
        (check (refuse (spent + amount > maxWork) workLimit) >>= fun _ => write fun _ => spent + amount) spent := by
      change (check (okOr (.capacity "encoded validation work overflow") (checkedAdd spent amount)) >>= _) spent = _
      rw [added]
      rfl
    rw [program]
    by_cases beyond : spent + amount > maxWork
    · refine ⟨fun fits => absurd fits (by omega),
        fun _ => ⟨workLimit, spent, ?_, "encoded validation exceeds its work limit", rfl⟩⟩
      rw [decide_eq_true beyond]
      rfl
    · refine ⟨fun _ => ?_, fun excess => absurd excess (by omega)⟩
      rw [decide_eq_false beyond]
      rfl
  · refine ⟨fun fits => absurd fits (by omega), fun _ => ⟨_, spent, ?_, "encoded validation work overflow", rfl⟩⟩
    have overflows : checkedAdd spent amount = none := if_neg enough
    change (check (okOr (.capacity "encoded validation work overflow") (checkedAdd spent amount)) >>= _) spent = _
    rw [overflows]
    rfl

theorem Gives.meters {α : Type} {maxWork cost : Nat} {step : Metering α} {value : α}
    (gives : Gives maxWork step value cost)
    (low : Nat) : Meters OutOfWork (workBound maxWork) low step value cost := fun spent _ _ => gives spent

theorem claimWork_meters (amount maxWork low : Nat) :
    Meters OutOfWork (workBound maxWork) low (claimWork amount maxWork) () amount :=
  (claimWork_gives amount maxWork).meters low

/-- A program that claims work first stops there when there is none. -/
theorem Gives.of_claim {α : Type} {maxWork amount cost : Nat} {next : Unit → Metering α} {value : α}
    (meters : Meters OutOfWork (workBound maxWork) 0 (claimWork amount maxWork >>= next) value cost) :
    Gives maxWork (claimWork amount maxWork >>= next) value cost := by
  intro spent
  by_cases within : spent ≤ workBound maxWork
  · exact meters spent (Nat.zero_le _) within
  · refine ⟨fun fits => absurd fits (by omega), fun _ => ?_⟩
    obtain ⟨error, later, failed, stopped⟩ := (claimWork_gives amount maxWork spent).2 (by omega)
    exact ⟨error, later, bind_error failed, stopped⟩

/-- The value is the only one. -/
theorem Gives.returns {α : Type} {maxWork cost : Nat} {step : Metering α} {value : α}
    (gives : Gives maxWork step value cost) :
    Returns step (· = value) := by
  intro spent found later same
  obtain ⟨succeeds, fails⟩ := gives spent
  by_cases enough : spent + cost ≤ workBound maxWork
  · rw [succeeds enough] at same
    exact (Except.ok.inj (Prod.mk.inj same).1).symm
  · obtain ⟨error, last, failed, _⟩ := fails (by omega)
    rw [failed] at same
    cases (Prod.mk.inj same).1

theorem Gives.settles {α : Type} {maxWork cost : Nat} {step : Metering α} {value : α}
    (gives : Gives maxWork step value cost) :
    Settles step (· = value) OutOfWork := by
  intro spent
  refine ⟨gives.returns spent, fun error later same => ?_⟩
  obtain ⟨succeeds, fails⟩ := gives spent
  by_cases enough : spent + cost ≤ workBound maxWork
  · rw [succeeds enough] at same
    cases (Prod.mk.inj same).1
  · obtain ⟨raised, last, failed, stopped⟩ := fails (by omega)
    rw [failed] at same
    exact (Except.error.inj (Prod.mk.inj same).1) ▸ stopped

theorem claimWork_settles (amount maxWork : Nat) : Settles (claimWork amount maxWork) (fun _ => True) OutOfWork :=
  (claimWork_gives amount maxWork).settles.weaken (fun _ _ => trivial) fun _ => id

/-- What `component_parts` gives of a component. -/
def Component.parts (component : Component) : Nat × Nat × Nat := (component.kind, component.value, component.length)

def ComponentRow.index : ComponentRow → Nat
  | .field index => index
  | .item index => index

/-- A component that is no collection, as `validate_leaf_component` leaves it. -/
structure Component.ValidLeaf (columns : EncodedColumns) (nodeCount : Nat) (component : Component) : Prop where
  known : component.kind ≤ COMPONENT_ENUM
  node : component.kind = COMPONENT_NODE → component.value ≠ 0 ∧ component.value ≤ nodeCount ∧
    component.value < 2 ^ 32
  scalar : isScalar component.kind →
    component.value + component.length < USIZE ∧ component.value + component.length ≤ columns.scalarBytes.length
  integer : component.kind = COMPONENT_INTEGER → IntegerPayload columns.scalarBytes component.value component.length

/-- An integer has been measured. -/
def Component.Measured (columns : EncodedColumns) (component : Component) : Prop :=
  component.kind = COMPONENT_INTEGER → ∃ width,
    canonicalIntegerVarintWidth columns.scalarBytes component.value component.length = .ok width

structure Component.LegalLeaf (columns : EncodedColumns) (nodeCount : Nat) (component : Component) : Prop
    extends component.ValidLeaf columns nodeCount where
  measured : component.Measured columns

/-- The row of an item: a node. -/
structure EncodedColumns.LegalItem (columns : EncodedColumns) (nodeCount index : Nat) : Prop where
  read : componentParts (.item index) columns = .ok (columns.item index).parts
  node : (columns.item index).kind = COMPONENT_NODE
  legal : (columns.item index).ValidLeaf columns nodeCount

/-- A component: a leaf, or a collection of items. -/
structure Component.Valid (columns : EncodedColumns) (nodeCount : Nat) (component : Component) : Prop where
  leaf : isCollection component.kind = false → component.ValidLeaf columns nodeCount
  small : isCollection component.kind → component.value + component.length < USIZE
  item : isCollection component.kind → ∀ item, component.value ≤ item → item < component.value + component.length →
    columns.LegalItem nodeCount item

structure Component.Legal (columns : EncodedColumns) (nodeCount : Nat) (component : Component) : Prop
    extends component.Valid columns nodeCount where
  measured : component.Measured columns

/-- The row of a field. -/
structure EncodedColumns.ValidField (columns : EncodedColumns) (nodeCount index : Nat) : Prop where
  read : componentParts (.field index) columns = .ok (columns.field index).parts
  valid : (columns.field index).Valid columns nodeCount

structure EncodedColumns.LegalField (columns : EncodedColumns) (nodeCount index : Nat) : Prop where
  read : componentParts (.field index) columns = .ok (columns.field index).parts
  legal : (columns.field index).Legal columns nodeCount

/-- A part of a table: a node, cut or not, or the fields or items of a range. -/
inductive Stretch
  | node (node : Nat) (fieldLimit : Option Nat)
  | fields (start count : Nat)
  | items (kind start count : Nat)

namespace EncodedColumns

variable (columns : EncodedColumns)

noncomputable def bytesOf : Stretch → List UInt8
  | .node node fieldLimit => columns.canonicalPrefix node fieldLimit
  | .fields start count => (columns.fields start count).flatMap (columns.componentBytes columns.canonicalBytes)
  | .items kind start count => (columns.items start count).flatMap (columns.itemBytes columns.canonicalBytes kind)

def Covers (nodeCount : Nat) : Stretch → Prop
  | .node node _ => node < nodeCount
  | .fields start count => ∀ index, start ≤ index → index < start + count → columns.LegalField nodeCount index
  | .items _ start count => ∀ index, start ≤ index → index < start + count → columns.LegalItem nodeCount index

end EncodedColumns

/-- Columns whose rows are legal and whose nodes have the lengths of their canonical bytes. -/
structure EncodedColumns.Sound (columns : EncodedColumns) (canonicalLengths : List Nat) : Prop where
  tag : ∀ node < canonicalLengths.length, u16At columns.nodeTags node "" = .ok (columns.tagOf node)
  start : ∀ node < canonicalLengths.length, usizeAt columns.nodeFieldOffsets node "" = .ok (columns.offsetOf node)
  end_ : ∀ node < canonicalLengths.length, usizeAt columns.nodeFieldOffsets (node + 1) "" =
    .ok (columns.offsetOf (node + 1))
  ordered : ∀ node < canonicalLengths.length, columns.offsetOf node ≤ columns.offsetOf (node + 1)
  roles : ∀ node < canonicalLengths.length, ∃ roles, constructorRoles (columns.tagOf node) = some roles ∧
    columns.arity node = roles.length
  field : ∀ node < canonicalLengths.length, ∀ index, columns.offsetOf node ≤ index →
    index < columns.offsetOf node + columns.arity node →
    columns.LegalField canonicalLengths.length index
  grounded : ∀ node < canonicalLengths.length, Acc columns.Refers node
  measured : ∀ node < canonicalLengths.length, canonicalLengths.getD node 0 = (columns.canonicalBytes node).length
  small : ∀ node < canonicalLengths.length, (columns.canonicalBytes node).length < USIZE

theorem Component.LegalLeaf.range {columns : EncodedColumns} {nodeCount : Nat} {component : Component}
    (leaf : component.LegalLeaf columns nodeCount) (integer : component.kind = COMPONENT_INTEGER) :
    IntegerRange columns.scalarBytes component.value component.length :=
  ⟨leaf.integer integer, leaf.measured integer⟩

theorem Component.Legal.legalLeaf {columns : EncodedColumns} {nodeCount : Nat} {component : Component}
    (legal : component.Legal columns nodeCount) (leaf : isCollection component.kind = false) :
    component.LegalLeaf columns nodeCount := ⟨legal.leaf leaf, legal.measured⟩

/-- The child is a node of the table. -/
theorem Component.ValidLeaf.child {columns : EncodedColumns} {nodeCount : Nat} {component : Component}
    (leaf : component.ValidLeaf columns nodeCount) (node : component.kind = COMPONENT_NODE) :
    component.value - 1 < nodeCount := by
  have bounds := leaf.node node
  omega

/-- The payload of a leaf is within the arena. -/
theorem Component.ValidLeaf.payload_within {columns : EncodedColumns} {nodeCount : Nat} {component : Component}
    (leaf : component.ValidLeaf columns nodeCount)
    (payload : isScalar component.kind ∨ component.kind = COMPONENT_INTEGER) :
    component.value + component.length ≤ columns.scalarBytes.length := by
  obtain scalar | integer := payload
  · exact (leaf.scalar scalar).2
  · exact (leaf.integer integer).within

/-- Every kind is one of the eight. -/
theorem Component.Valid.kind_le {columns : EncodedColumns} {nodeCount : Nat} {component : Component}
    (legal : component.Valid columns nodeCount) : component.kind ≤ COMPONENT_SEQUENCE := by
  cases collection : isCollection component.kind with
  | false => exact (legal.leaf collection).known.trans (by decide)
  | true =>
    rw [isCollection, Bool.or_eq_true, decide_eq_true_eq, decide_eq_true_eq] at collection
    obtain same | same := collection
    · rw [same]; decide
    · rw [same]

theorem Component.ValidLeaf.not_collection {columns : EncodedColumns} {nodeCount : Nat} {component : Component}
    (leaf : component.ValidLeaf columns nodeCount) : isCollection component.kind = false := by
  have known : component.kind ≤ 5 := leaf.known
  simp only [isCollection, COMPONENT_SET, COMPONENT_SEQUENCE, Bool.or_eq_false_iff]
  exact ⟨decide_eq_false (by omega), decide_eq_false (by omega)⟩

theorem Component.ValidLeaf.content {columns : EncodedColumns} {nodeCount : Nat} {component : Component}
    (leaf : component.ValidLeaf columns nodeCount) (bytes : Nat → List UInt8) :
    columns.content bytes component = columns.leafContent bytes component := by
  rw [EncodedColumns.content, leaf.not_collection]
  rfl

/-- A leaf is of one of the kinds that have a branch of their own. -/
theorem Component.ValidLeaf.cases {columns : EncodedColumns} {nodeCount : Nat} {component : Component}
    (leaf : component.ValidLeaf columns nodeCount) :
    component.kind = COMPONENT_NONE ∨ component.kind = COMPONENT_NODE ∨
      isScalar component.kind ∨ component.kind = COMPONENT_INTEGER := by
  have known : component.kind ≤ 5 := leaf.known
  rw [EncodedColumns.isScalar_iff]
  simp only [COMPONENT_NONE, COMPONENT_NODE, COMPONENT_TEXT, COMPONENT_BYTES, COMPONENT_ENUM, COMPONENT_INTEGER]
  omega

namespace EncodedColumns

variable {columns : EncodedColumns} {canonicalLengths : List Nat} {nodeCount index node : Nat}

theorem fields_succ (start count : Nat) :
    columns.fields start (count + 1) = columns.field start :: columns.fields (start + 1) count := by
  rw [fields, List.range'_succ, List.map_cons]
  rfl

theorem items_succ (start count : Nat) :
    columns.items start (count + 1) = columns.item start :: columns.items (start + 1) count := by
  rw [items, List.range'_succ, List.map_cons]
  rfl

theorem fields_take {start count limit : Nat} (within : limit ≤ count) :
    (columns.fields start count).take limit = columns.fields start limit := by
  rw [fields, fields, ← List.map_take, List.take_range'_of_length_ge within]

/-- A row that is read has a row number behind it. -/
theorem componentParts_small {row : ComponentRow} {parts : Nat × Nat × Nat}
    (read : componentParts row columns = .ok parts) :
    row.index + 1 < USIZE := by
  cases row with
  | field index =>
    simp only [componentParts, CoreResult.bind_ok, usizeAt, uintAt_ok] at read
    obtain ⟨_, _, _, ⟨⟨small, _⟩, _⟩, _⟩ := read
    rw [ComponentRow.index]
    omega
  | item index =>
    simp only [componentParts, CoreResult.bind_ok, usizeAt, uintAt_ok] at read
    obtain ⟨_, _, _, ⟨⟨small, _⟩, _⟩, _⟩ := read
    rw [ComponentRow.index]
    omega

theorem not_collection {component : Component} (node : component.kind = COMPONENT_NODE) :
    isCollection component.kind = false := by
  rw [node]
  decide

/-- What has a payload is no collection. -/
theorem not_collection_of_payload {kind : Nat} (payload : isScalar kind ∨ kind = COMPONENT_INTEGER) :
    isCollection kind = false := by
  obtain scalar | integer := payload
  · obtain text | bytes | enum := isScalar_iff.mp scalar
    · rw [text]; decide
    · rw [bytes]; decide
    · rw [enum]; decide
  · rw [integer]; decide

theorem LegalItem.legalLeaf (item : columns.LegalItem nodeCount index) :
    (columns.item index).LegalLeaf columns nodeCount :=
  ⟨item.legal, fun integer => by rw [item.node] at integer; exact absurd integer (by decide)⟩

theorem LegalItem.component (item : columns.LegalItem nodeCount index) :
    (columns.item index).Legal columns nodeCount where
  leaf _ := item.legal
  small collection := by simp [not_collection item.node] at collection
  item collection := by simp [not_collection item.node] at collection
  measured := item.legalLeaf.measured

/-- The items of a sequence keep their kinds. -/
theorem LegalItem.itemBytes_of_ne (item : columns.LegalItem nodeCount index) {kind : Nat}
    (sequence : kind ≠ COMPONENT_SET)
    (bytes : Nat → List UInt8) :
    columns.itemBytes bytes kind (columns.item index) = columns.componentBytes bytes (columns.item index) := by
  rw [itemBytes, if_neg sequence, componentBytes, content, not_collection item.node]
  rfl

namespace Sound

theorem canonicalBytes_eq (sound : columns.Sound canonicalLengths) (within : node < canonicalLengths.length) :
    columns.canonicalBytes node = columns.nodeBytes columns.canonicalBytes node :=
  EncodedColumns.canonicalBytes_eq (sound.grounded node within)

/-- The whole node is what is not cut. -/
theorem canonicalPrefix_none (sound : columns.Sound canonicalLengths) (within : node < canonicalLengths.length) :
    columns.canonicalPrefix node none = columns.canonicalBytes node := (sound.canonicalBytes_eq within).symm

end Sound

end EncodedColumns

end PyElk.Native
