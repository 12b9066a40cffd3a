import PyElk.Native.Codec

namespace PyElk.Native

/-- `error.rs`. -/
inductive CoreError
  | protocol (message : String)
  | invalidInput (message : String)
  | unsupported (feature : String)
  | capacity (message : String)
  | closed (message : String)
  | internal (message : String)
  deriving DecidableEq, Repr

abbrev CoreResult := Except CoreError

/-- `if refused { return Err(..) }`. -/
def refuse (refused : Bool) (error : CoreError) : CoreResult Unit := if refused then throw error else pure ()

/-- `ok_or_else`. -/
def okOr {α : Type} (error : CoreError) : Option α → CoreResult α
  | some value => pure value
  | none => throw error

@[simp] theorem refuse_ok {refused : Bool} {error : CoreError} {value : Unit} :
    refuse refused error = .ok value ↔ refused = false := by
  cases refused with
  | false => exact ⟨fun _ => rfl, fun _ => rfl⟩
  | true => exact ⟨fun same => (nomatch same), fun same => (nomatch same)⟩

/-- What is not refused passes. -/
theorem refuse_of_not {refused : Prop} [Decidable refused] (passes : ¬ refused) (error : CoreError) :
    refuse (decide refused) error = .ok () := refuse_ok.mpr (decide_eq_false passes)

@[simp] theorem okOr_ok {α : Type} {error : CoreError} {found : Option α} {value : α} :
    okOr error found = .ok value ↔ found = some value := by
  cases found with
  | none => exact ⟨fun same => (nomatch same), fun same => (nomatch same)⟩
  | some other =>
    exact ⟨fun same => congrArg some (Except.ok.inj same), fun same => congrArg Except.ok (Option.some.inj same)⟩

@[simp] theorem CoreResult.bind_ok {α β : Type} {step : CoreResult α} {next : α → CoreResult β} {value : β} :
    (step >>= next) = .ok value ↔ ∃ middle, step = .ok middle ∧ next middle = .ok value := by
  cases step with
  | error raised => exact ⟨fun same => (nomatch same), fun ⟨_, same, _⟩ => (nomatch same)⟩
  | ok middle => exact ⟨fun same => ⟨middle, rfl, same⟩, fun ⟨_, same, later⟩ => Except.ok.inj same ▸ later⟩

/-- A loop: the invariant is about the value and the items that are done. -/
theorem CoreResult.foldlM_ok {α β : Type} {body : α → β → CoreResult α} {items : List β} {start last : α}
    (inv : α → List β → Prop)
    (begins : inv start []) (each : ∀ done item rest value later, items = done ++ item :: rest → inv value done →
      body value item = .ok later → inv later (done ++ [item])) (folded : items.foldlM body start = .ok last) :
        inv last items := by
  suffices from_ : ∀ rest done value, items = done ++ rest → inv value done → rest.foldlM body value = .ok last →
    inv last items from
    from_ items [] start rfl begins folded
  intro rest
  induction rest with
  | nil =>
    intro done value whole holds folded
    rw [List.append_nil] at whole
    rw [← Except.ok.inj folded, whole]
    exact holds
  | cons item rest ih =>
    intro done value whole holds folded
    rw [List.foldlM_cons, CoreResult.bind_ok] at folded
    obtain ⟨later, turned, folded⟩ := folded
    exact ih (done ++ [item]) later (by rw [whole, List.append_assoc]; rfl)
      (each done item rest value later whole holds turned) folded

/-- The eleven columns of a structural table. -/
structure EncodedColumns where
  rootKinds : List UInt8
  rootIds : List UInt8
  nodeTags : List UInt8
  nodeFieldOffsets : List UInt8
  fieldKinds : List UInt8
  fieldValues : List UInt8
  fieldLengths : List UInt8
  itemKinds : List UInt8
  itemValues : List UInt8
  itemLengths : List UInt8
  scalarBytes : List UInt8
  deriving DecidableEq, Repr

structure EncodedLimits where
  maxRoots : Nat
  maxNodes : Nat
  maxFields : Nat
  maxItems : Nat
  maxScalarBytes : Nat
  maxWork : Nat

/-- `EncodedLimits::default`. -/
def EncodedLimits.default : EncodedLimits where
  maxRoots := 100000000
  maxNodes := 100000000
  maxFields := 400000000
  maxItems := 400000000
  maxScalarBytes := 8589934592
  maxWork := 2000000000

structure EncodedColumnShape where
  rootCount : Nat
  nodeCount : Nat
  fieldCount : Nat
  itemCount : Nat
  scalarBytes : Nat
  deriving DecidableEq, Repr

/-- `aligned_count`. -/
def alignedCount (bytes : List UInt8) (width : Nat) (name : String) : CoreResult Nat :=
  if bytes.length % width ≠ 0 then
    throw (.protocol s!"encoded {name} is not aligned to {width} bytes")
  else pure (bytes.length / width)

/-- `byte_at`. -/
def byteAt (bytes : List UInt8) (index : Nat) (name : String) : CoreResult UInt8 :=
  okOr (.protocol s!"encoded {name} is truncated") bytes[index]?

/-- An unsigned integer of a column of rows of `width` bytes. -/
def uintAt (width : Nat) (bytes : List UInt8) (index : Nat) (name : String) : CoreResult Nat := do
  let start ← okOr (.capacity s!"encoded {name} offset overflow") (checkedMul index width)
  okOr (.protocol s!"encoded {name} is truncated") (readUint width bytes start)

/-- `u16_at`. -/
def u16At : List UInt8 → Nat → String → CoreResult Nat := uintAt 2

/-- `u32_at`. -/
def u32At : List UInt8 → Nat → String → CoreResult Nat := uintAt 4

/-- `u64_at`, and `usize_at`: a `usize` holds every `u64`. -/
def usizeAt : List UInt8 → Nat → String → CoreResult Nat := uintAt 8

/-- `node_id_at`. -/
def nodeIdAt (bytes : List UInt8) (index : Nat) (name : String) : CoreResult Nat := do
  let value ← usizeAt bytes index name
  refuse (value ≥ 2 ^ 32) (.protocol s!"encoded {name} exceeds u32")
  pure value

/-- `u32::try_from` of a component value. -/
def nodeIdentifier (value : Nat) (message : String) : CoreResult Nat := do
  refuse (value ≥ 2 ^ 32) (.protocol message)
  pure value

/-- `node_index`. -/
def nodeIndex (identifier nodeCount : Nat) : CoreResult Nat := do
  refuse (identifier = 0) (.protocol "encoded node IDs are one-based and nonzero")
  refuse (identifier - 1 ≥ nodeCount) (.protocol "encoded node ID is out of range")
  pure (identifier - 1)

/-- `enforce_count`. -/
def enforceCount (value maximum : Nat) (name : String) : CoreResult Unit :=
  refuse (value > maximum) (.capacity s!"{name} exceeds its limit")

/-- The two columns beside the kinds of a component table; the second is only measured where the first fits. -/
def pairedCounts (values lengths : List UInt8) (count : Nat) (table : String) : CoreResult Unit := do
  let differ := CoreError.protocol s!"encoded {table} component columns differ in length"
  refuse ((← alignedCount values 8 s!"{table}_values") ≠ count) differ
  refuse ((← alignedCount lengths 8 s!"{table}_lengths") ≠ count) differ

/-- `validate_column_shape`. -/
def validateColumnShape (columns : EncodedColumns) (limits : EncodedLimits) : CoreResult EncodedColumnShape := do
  let rootCount ← alignedCount columns.rootIds 4 "root_ids"
  refuse (columns.rootKinds.length ≠ rootCount) (.protocol "encoded root kind and root ID counts differ")
  let nodeCount ← alignedCount columns.nodeTags 2 "node_tags"
  let offsetCount ← alignedCount columns.nodeFieldOffsets 8 "node_field_offsets"
  let rows ← okOr (.capacity "encoded node offset count overflow") (checkedAdd nodeCount 1)
  refuse (offsetCount ≠ rows) (.protocol "encoded node field offsets must contain node_count + 1 rows")
  let fieldCount := columns.fieldKinds.length
  pairedCounts columns.fieldValues columns.fieldLengths fieldCount "field"
  let itemCount := columns.itemKinds.length
  pairedCounts columns.itemValues columns.itemLengths itemCount "item"
  enforceCount rootCount limits.maxRoots "encoded root count"
  enforceCount nodeCount limits.maxNodes "encoded node count"
  enforceCount fieldCount limits.maxFields "encoded field count"
  enforceCount itemCount limits.maxItems "encoded item count"
  enforceCount columns.scalarBytes.length limits.maxScalarBytes "encoded scalar byte count"
  pure ⟨rootCount, nodeCount, fieldCount, itemCount, columns.scalarBytes.length⟩

theorem alignedCount_ok {bytes : List UInt8} {width count : Nat} {name : String}
    (aligned : alignedCount bytes width name = .ok count) :
    bytes.length % width = 0 ∧ count = bytes.length / width := by
  rw [alignedCount] at aligned
  split at aligned
  · cases aligned
  · next whole => exact ⟨not_not.mp whole, (Except.ok.inj aligned).symm⟩

/-- What a column holds at a row. -/
def uintOf (width : Nat) (bytes : List UInt8) (index : Nat) : Nat :=
  Bytes.ofLittleEndian ((bytes.drop (index * width)).take width)

theorem uintAt_ok {width index value : Nat} {bytes : List UInt8} {name : String} :
    uintAt width bytes index name = .ok value ↔
      (index * width + width < USIZE ∧ index * width + width ≤ bytes.length) ∧ value = uintOf width bytes index := by
  rw [uintAt, CoreResult.bind_ok]
  simp only [okOr_ok, checkedMul, readUint, checkedAdd, Option.ite_none_right_eq_some, Option.bind_eq_bind,
    Option.bind_eq_some_iff, Option.some.injEq, uintOf]
  constructor
  · intro read
    obtain ⟨start, ⟨-, rfl⟩, last, ⟨small, rfl⟩, within, same⟩ := read
    exact ⟨⟨small, within⟩, (Option.some.inj same).symm⟩
  · intro read
    obtain ⟨⟨small, within⟩, rfl⟩ := read
    exact ⟨_, ⟨by omega, rfl⟩, _, ⟨small, rfl⟩, within, rfl⟩

/-- A row is read under any name. -/
theorem uintAt_named {width index value : Nat} {bytes : List UInt8} {name : String}
    (read : uintAt width bytes index name = .ok value) (other : String) :
    uintAt width bytes index other = .ok (uintOf width bytes index) :=
  uintAt_ok.mpr ⟨(uintAt_ok.mp read).1, rfl⟩

theorem nodeIndex_ok {identifier nodeCount node : Nat} :
    nodeIndex identifier nodeCount = .ok node ↔ identifier ≠ 0 ∧ identifier - 1 < nodeCount ∧
      node = identifier - 1 := by
  simp only [nodeIndex, CoreResult.bind_ok, refuse_ok, decide_eq_false_iff_not]
  constructor
  · intro found
    obtain ⟨_, positive, _, within, same⟩ := found
    exact ⟨positive, by omega, (Except.ok.inj same).symm⟩
  · intro found
    obtain ⟨positive, within, rfl⟩ := found
    exact ⟨(), positive, (), by omega, rfl⟩

theorem nodeIdentifier_ok {value identifier : Nat} {message : String} :
    nodeIdentifier value message = .ok identifier ↔ value < 2 ^ 32 ∧ identifier = value := by
  simp only [nodeIdentifier, CoreResult.bind_ok, refuse_ok, decide_eq_false_iff_not]
  constructor
  · intro found
    obtain ⟨_, small, same⟩ := found
    exact ⟨by omega, (Except.ok.inj same).symm⟩
  · intro found
    obtain ⟨small, rfl⟩ := found
    exact ⟨(), by omega, rfl⟩

/-- A row of the root columns for each root. -/
theorem validateColumnShape_rootCount {columns : EncodedColumns} {limits : EncodedLimits} {shape : EncodedColumnShape}
    (valid : validateColumnShape columns limits = .ok shape) : shape.rootCount = columns.rootIds.length / 4 := by
  simp only [validateColumnShape, CoreResult.bind_ok] at valid
  obtain ⟨rootCount, aligned, _, -, nodeCount, -, offsetCount, -, rows, -, _, -, _, -, _, -, _, -, _, -, _, -, _, -,
    _, -, done⟩ := valid
  rw [← (alignedCount_ok aligned).2, ← Except.ok.inj done]

end PyElk.Native
