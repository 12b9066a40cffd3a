import Mathlib.Algebra.Order.Ring.Nat
import Mathlib.Data.List.Basic
import Mathlib.Data.Nat.Basic
import Mathlib.Tactic.Ring

namespace Bytes

/-- The low `width` bytes of a number, the least significant first. -/
def littleEndian : Nat → Nat → List UInt8
  | 0, _ => []
  | width + 1, value => UInt8.ofNat (value % 256) :: littleEndian width (value / 256)

def ofLittleEndian : List UInt8 → Nat
  | [] => 0
  | byte :: rest => byte.toNat + 256 * ofLittleEndian rest

@[simp] theorem littleEndian_length (width value : Nat) : (littleEndian width value).length = width := by
  induction width generalizing value with
  | zero => rfl
  | succ width ih => rw [littleEndian, List.length_cons, ih]

/-- What `n` bytes hold is below `256 ^ n`. -/
theorem ofLittleEndian_lt (bytes : List UInt8) : ofLittleEndian bytes < 256 ^ bytes.length := by
  induction bytes with
  | nil => exact Nat.one_pos
  | cons byte rest ih =>
    have small := byte.toNat_lt
    rw [ofLittleEndian, List.length_cons, pow_succ]
    omega

/-- A number that fits is read back from its bytes. -/
theorem ofLittleEndian_littleEndian {width value : Nat} (fits : value < 256 ^ width) :
    ofLittleEndian (littleEndian width value) = value := by
  induction width generalizing value with
  | zero =>
    rw [pow_zero, Nat.lt_one_iff] at fits
    rw [fits]
    rfl
  | succ width ih =>
    have smaller : value / 256 < 256 ^ width := by
      rw [pow_succ] at fits
      omega
    rw [littleEndian, ofLittleEndian, ih smaller, UInt8.toNat_ofNat']
    omega

/-- Bytes are written back from the number they hold. -/
theorem littleEndian_ofLittleEndian (bytes : List UInt8) :
    littleEndian bytes.length (ofLittleEndian bytes) = bytes := by
  induction bytes with
  | nil => rfl
  | cons byte rest ih =>
    have small := byte.toNat_lt
    have low : (byte.toNat + 256 * ofLittleEndian rest) % 256 = byte.toNat := by omega
    have high : (byte.toNat + 256 * ofLittleEndian rest) / 256 = ofLittleEndian rest := by omega
    rw [List.length_cons, ofLittleEndian, littleEndian, low, high, ih, UInt8.ofNat_toNat]

/-- The bytes behind the first ones. -/
theorem ofLittleEndian_drop (bytes : List UInt8) (count : Nat) :
    ofLittleEndian (bytes.drop count) = ofLittleEndian bytes / 256 ^ count := by
  induction count generalizing bytes with
  | zero => rw [List.drop_zero, pow_zero, Nat.div_one]
  | succ count ih =>
    cases bytes with
    | nil => rw [List.drop_nil, ofLittleEndian, Nat.zero_div]
    | cons byte rest =>
      have small := byte.toNat_lt
      have high : (byte.toNat + 256 * ofLittleEndian rest) / 256 = ofLittleEndian rest := by omega
      rw [List.drop_succ_cons, ih, ofLittleEndian, pow_succ', ← Nat.div_div_eq_div_mul, high]

end Bytes

open Bytes

/-- A record of a fixed number of bytes. Packing fails where a value does not fit
its field, and the two directions are inverse to each other. -/
structure Struct (α : Type) where
  size : Nat
  pack : α → Option (List UInt8)
  unpack : List UInt8 → α
  size_of_pack : ∀ {value : α} {bytes : List UInt8}, pack value = some bytes → bytes.length = size
  unpack_pack : ∀ {value : α} {bytes : List UInt8}, pack value = some bytes → unpack bytes = value
  pack_unpack : ∀ {bytes : List UInt8}, bytes.length = size → pack (unpack bytes) = some bytes

namespace Struct

section

variable {α β : Type}

/-- An unsigned integer of `width` bytes. -/
def uint (width : Nat) : Struct Nat where
  size := width
  pack value := if value < 256 ^ width then some (littleEndian width value) else none
  unpack := ofLittleEndian
  size_of_pack {value bytes} packed := by
    split at packed
    · rw [← Option.some.inj packed, littleEndian_length]
    · cases packed
  unpack_pack {value bytes} packed := by
    split at packed
    · next fits => rw [← Option.some.inj packed, ofLittleEndian_littleEndian fits]
    · cases packed
  pack_unpack {bytes} size := by
    rw [← size, if_pos (ofLittleEndian_lt bytes), littleEndian_ofLittleEndian]

/-- `width` bytes as they are. -/
def raw (width : Nat) : Struct (List UInt8) where
  size := width
  pack value := if value.length = width then some value else none
  unpack bytes := bytes
  size_of_pack {value bytes} packed := by
    split at packed
    · next fits => rw [← Option.some.inj packed, fits]
    · cases packed
  unpack_pack {value bytes} packed := by
    split at packed
    · exact (Option.some.inj packed).symm
    · cases packed
  pack_unpack {bytes} size := if_pos size

theorem uint_isSome {width value : Nat} : ((uint width).pack value).isSome ↔ value < 256 ^ width := by
  unfold uint
  simp only [Option.isSome_ite]

/-- Two records, one after the other. -/
def pair (first : Struct α) (second : Struct β) : Struct (α × β) where
  size := first.size + second.size
  pack value := do pure ((← first.pack value.1) ++ (← second.pack value.2))
  unpack bytes := (first.unpack (bytes.take first.size), second.unpack (bytes.drop first.size))
  size_of_pack {value bytes} packed := by
    obtain ⟨left, packedLeft, after⟩ := Option.bind_eq_some_iff.mp packed
    obtain ⟨right, packedRight, last⟩ := Option.bind_eq_some_iff.mp after
    cases last
    rw [List.length_append, first.size_of_pack packedLeft, second.size_of_pack packedRight]
  unpack_pack {value bytes} packed := by
    obtain ⟨left, packedLeft, after⟩ := Option.bind_eq_some_iff.mp packed
    obtain ⟨right, packedRight, last⟩ := Option.bind_eq_some_iff.mp after
    cases last
    rw [List.take_left' (first.size_of_pack packedLeft), List.drop_left' (first.size_of_pack packedLeft),
      first.unpack_pack packedLeft, second.unpack_pack packedRight]
  pack_unpack {bytes} size := by
    have left : (bytes.take first.size).length = first.size := by rw [List.length_take]; omega
    have right : (bytes.drop first.size).length = second.size := by rw [List.length_drop]; omega
    simp only [first.pack_unpack left, second.pack_unpack right, Option.bind_eq_bind, Option.bind_some,
      Option.pure_def, List.take_append_drop]

theorem pair_isSome {first : Struct α} {second : Struct β} {value : α × β} (left : (first.pack value.1).isSome)
    (right : (second.pack value.2).isSome) : ((first.pair second).pack value).isSome := by
  obtain ⟨bytes, packed⟩ := Option.isSome_iff_exists.mp left
  obtain ⟨more, packed'⟩ := Option.isSome_iff_exists.mp right
  simp only [pair, packed, packed', Option.bind_eq_bind, Option.bind_some, Option.pure_def, Option.isSome_some]

/-- A record of fields, as the value that they make up. -/
def map (item : Struct α) (wrap : α → β) (unwrap : β → α) (wrap_unwrap : ∀ value, wrap (unwrap value) = value)
    (unwrap_wrap : ∀ value, unwrap (wrap value) = value) : Struct β where
  size := item.size
  pack value := item.pack (unwrap value)
  unpack bytes := wrap (item.unpack bytes)
  size_of_pack packed := item.size_of_pack packed
  unpack_pack packed := by rw [item.unpack_pack packed, wrap_unwrap]
  pack_unpack size := by rw [unwrap_wrap, item.pack_unpack size]

variable (item : Struct α)

/-- The records of a table, one after the other. -/
def packAll (values : List α) : Option (List UInt8) := (values.mapM item.pack).map List.flatten

/-- The first `count` records of a table. -/
def unpackAll : Nat → List UInt8 → List α
  | 0, _ => []
  | count + 1, bytes => item.unpack (bytes.take item.size) :: unpackAll count (bytes.drop item.size)

variable {item}

theorem packAll_nil : item.packAll [] = some [] := rfl

theorem packAll_cons {value : α} {values : List α} {bytes : List UInt8} :
    item.packAll (value :: values) = some bytes ↔
      ∃ first rest, item.pack value = some first ∧ item.packAll values = some rest ∧ first ++ rest = bytes := by
  unfold packAll
  rw [List.mapM_cons]
  cases item.pack value with
  | none => simp
  | some first =>
    cases values.mapM item.pack with
    | none => simp
    | some rest => simp

@[simp] theorem unpackAll_length (count : Nat) (bytes : List UInt8) :
    (item.unpackAll count bytes).length = count := by
  induction count generalizing bytes with
  | zero => rfl
  | succ count ih => rw [unpackAll, List.length_cons, ih]

/-- A packed table has the size of a row for each of its rows. -/
theorem packAll_length {values : List α} {bytes : List UInt8} (packed : item.packAll values = some bytes) :
    bytes.length = values.length * item.size := by
  induction values generalizing bytes with
  | nil =>
    rw [packAll_nil] at packed
    cases packed
    rw [List.length_nil, List.length_nil, Nat.zero_mul]
  | cons value rest ih =>
    obtain ⟨first, after, packedFirst, packedRest, rfl⟩ := packAll_cons.mp packed
    rw [List.length_append, item.size_of_pack packedFirst, ih packedRest, List.length_cons,
      Nat.succ_mul, Nat.add_comm]

/-- A packed table is read back row by row. -/
theorem unpackAll_packAll {values : List α} {bytes : List UInt8} (packed : item.packAll values = some bytes) :
    item.unpackAll values.length bytes = values := by
  induction values generalizing bytes with
  | nil => rfl
  | cons value rest ih =>
    obtain ⟨first, after, packedFirst, packedRest, rfl⟩ := packAll_cons.mp packed
    have size := item.size_of_pack packedFirst
    rw [List.length_cons, unpackAll, List.take_left' size, List.drop_left' size, item.unpack_pack packedFirst,
      ih packedRest]

/-- A payload of the right size is the packing of the rows read from it. -/
theorem packAll_unpackAll {count : Nat} {bytes : List UInt8} (size : bytes.length = count * item.size) :
    item.packAll (item.unpackAll count bytes) = some bytes := by
  induction count generalizing bytes with
  | zero =>
    rw [Nat.zero_mul, List.length_eq_zero_iff] at size
    rw [size]
    rfl
  | succ count ih =>
    rw [Nat.succ_mul] at size
    have head : (bytes.take item.size).length = item.size := by rw [List.length_take]; omega
    have tail : (bytes.drop item.size).length = count * item.size := by rw [List.length_drop]; omega
    exact packAll_cons.mpr ⟨_, _, item.pack_unpack head, ih tail, List.take_append_drop _ _⟩

/-- Only the bytes of the records are read. -/
theorem unpackAll_append {count : Nat} {bytes : List UInt8} (size : bytes.length = count * item.size)
    (more : List UInt8) : item.unpackAll count (bytes ++ more) = item.unpackAll count bytes := by
  induction count generalizing bytes with
  | zero => rfl
  | succ count ih =>
    rw [Nat.succ_mul] at size
    have tail : (bytes.drop item.size).length = count * item.size := by rw [List.length_drop]; omega
    rw [unpackAll, unpackAll, List.take_append_of_le_length (by omega), List.drop_append_of_le_length (by omega),
      ih tail]

/-- A table packs as soon as each of its records does. -/
theorem packAll_isSome {values : List α} (fits : ∀ value ∈ values, (item.pack value).isSome) :
    (item.packAll values).isSome := by
  induction values with
  | nil => rfl
  | cons value rest ih =>
    obtain ⟨first, packedFirst⟩ := Option.isSome_iff_exists.mp (fits value List.mem_cons_self)
    obtain ⟨others, packedRest⟩ :=
      Option.isSome_iff_exists.mp (ih fun other member => fits other (List.mem_cons_of_mem _ member))
    exact Option.isSome_iff_exists.mpr ⟨_, packAll_cons.mpr ⟨first, others, packedFirst, packedRest, rfl⟩⟩

end

end Struct
