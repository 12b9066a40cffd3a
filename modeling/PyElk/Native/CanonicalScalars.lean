import PyElk.Native.CanonicalBytes

open Lexicographic Bytes

namespace PyElk.Native

theorem or_continuation {group : Nat} (small : group < 128) (index width : Nat) :
    group ||| continuation index width = group + if index + 1 < width then 128 else 0 := by
  rw [continuation]
  split
  · rw [Nat.or_comm, ← Nat.two_pow_add_eq_or_of_lt (i := 7) small 1, Nat.add_comm]
  · rw [Nat.or_zero, Nat.add_zero]

theorem and_mask (value : Nat) : value &&& 0x7f = value % 128 := Nat.and_two_pow_sub_one_eq_mod value 7

theorem u64VarintByte_eq (value index width : Nat) :
    u64VarintByte value index width = varintByte value index width := by
  rw [u64VarintByte, varintByte, and_mask, or_continuation (Nat.mod_lt _ (by omega)),
    Nat.shiftRight_eq_div_pow, Nat.mul_comm]

theorem canonicalVarintWidth_eq (value : Nat) : canonicalVarintWidth value = (varint value).length :=
  (varint_length value).symm

theorem hashVarint_eq (value : Nat) : hashVarint value = varint value := by
  rw [varint_eq_map, hashVarint]
  exact List.map_congr_left fun index _ => u64VarintByte_eq _ _ _

/-- Numbers are compared as their varints. -/
theorem compareU64Varints_eq (left right : Nat) :
    compareU64Varints left right = compare (varint left) (varint right) := by
  rw [compare_eq_foldr, varint_length, varint_length, compareU64Varints]
  simp only [varint_getElem?, u64VarintByte_eq]
  rfl

/-- The bits of a number of two bytes and more, seen through a window of seven. -/
theorem window_eq {low shift rest : Nat} (small : low < 256) (within : shift < 8) :
    ((low >>> shift) ||| (if shift ≠ 0 then (rest % 256) <<< (8 - shift) else 0)) % 128 =
    (low + 256 * rest) / 2 ^ shift % 128 := by
  have joined : (low >>> shift) ||| (if shift ≠ 0 then (rest % 256) <<< (8 - shift) else 0) =
      low / 2 ^ shift + if shift ≠ 0 then (rest % 256) * 2 ^ (8 - shift) else 0 := by
    rw [Nat.shiftRight_eq_div_pow]
    split
    · have below : low / 2 ^ shift < 2 ^ (8 - shift) := by
        rw [Nat.div_lt_iff_lt_mul (Nat.two_pow_pos _), ← Nat.pow_add, Nat.sub_add_cancel within.le]
        exact small
      rw [Nat.or_comm, ← Nat.shiftLeft_add_eq_or_of_lt below, Nat.shiftLeft_eq, Nat.add_comm]
    · rw [Nat.or_zero, Nat.add_zero]
  have whole : 256 = 2 ^ shift * 2 ^ (8 - shift) := by
    rw [← Nat.pow_add, Nat.add_sub_cancel' within.le]
  rw [joined, show 256 * rest = 2 ^ shift * (2 ^ (8 - shift) * rest) by rw [whole, Nat.mul_assoc],
    Nat.add_mul_div_left _ _ (Nat.two_pow_pos _), Nat.mul_comm _ rest]
  split
  · rw [Nat.add_mod, Nat.mul_mod, Nat.mod_mod_of_dvd rest (by decide : 128 ∣ 256), ← Nat.mul_mod, ← Nat.add_mod]
  · next zero =>
    rw [not_not.mp zero]
    omega

theorem ofLittleEndian_pos (bytes : List UInt8) {high : UInt8} (nonzero : high ≠ 0) :
    0 < ofLittleEndian (bytes ++ [high]) := by
  induction bytes with
  | nil =>
    have positive : high.toNat ≠ 0 := fun zero => nonzero (UInt8.toNat_inj.mp zero)
    rw [List.nil_append, ofLittleEndian, ofLittleEndian]
    omega
  | cons byte bytes ih =>
    rw [List.cons_append, ofLittleEndian]
    omega

/-- The digits of a number whose last byte is not zero. -/
theorem bitLength_ofLittleEndian (bytes : List UInt8) {high : UInt8} (nonzero : high ≠ 0) :
    bitLength (ofLittleEndian (bytes ++ [high])) = bytes.length * 8 + bitLength high.toNat := by
  induction bytes with
  | nil =>
    rw [List.nil_append, ofLittleEndian, ofLittleEndian, List.length_nil, Nat.zero_mul, Nat.zero_add]
    rfl
  | cons byte bytes ih =>
    have positive := ofLittleEndian_pos bytes nonzero
    have small := byte.toNat_lt
    rw [List.cons_append, ofLittleEndian, bitLength_div 8 (by omega), List.length_cons]
    have rest : (byte.toNat + 256 * ofLittleEndian (bytes ++ [high])) / 2 ^ 8 = ofLittleEndian (bytes ++ [high]) := by
      omega
    rw [rest, ih]
    omega

/-- A byte of a range of scalars. -/
theorem byteAt_payload {scalars : List UInt8} {start length offset : Nat} (bounded : start + length ≤ scalars.length)
    (within : offset < length) (name : String) :
    ∃ byte, byteAt scalars (start + offset) name = .ok byte ∧
      ((scalars.drop start).take length)[offset]? = some byte := by
  have inside : start + offset < scalars.length := by omega
  refine ⟨scalars[start + offset], ?_, ?_⟩
  · rw [byteAt, List.getElem?_eq_getElem inside]
    rfl
  · rw [List.getElem?_take_of_lt within, List.getElem?_drop, List.getElem?_eq_getElem inside]

/-- An integer as the columns hold it: within the scalars, and without a zero byte at its end. -/
structure IntegerPayload (scalars : List UInt8) (start length : Nat) : Prop where
  within : start + length ≤ scalars.length
  small : start + length < USIZE
  nonempty : length ≠ 0
  minimal : 1 < length → scalars[start + length - 1]? ≠ some 0

/-- One whose groups can be counted. -/
structure IntegerRange (scalars : List UInt8) (start length : Nat) :
    Prop extends IntegerPayload scalars start length where
  measured : ∃ width, canonicalIntegerVarintWidth scalars start length = .ok width

namespace IntegerRange

variable {scalars : List UInt8} {start length : Nat}

/-- The number. -/
def value (scalars : List UInt8) (start length : Nat) : Nat := ofLittleEndian ((scalars.drop start).take length)

theorem digits (range : IntegerRange scalars start length) :
    canonicalIntegerVarintWidth scalars start length = .ok (varintWidth (value scalars start length)) ∧
      bitLength (value scalars start length) < USIZE := by
  obtain ⟨width, measured⟩ := range.measured
  rw [measured]
  simp only [canonicalIntegerVarintWidth, CoreResult.bind_ok, refuse_ok, okOr_ok, checkedAdd, checkedMul, byteAt,
    Option.ite_none_right_eq_some, Option.some.injEq] at measured
  obtain ⟨_, _, position, ⟨_, rfl⟩, high, found, lower, ⟨_, rfl⟩, bits, ⟨few, rfl⟩, same⟩ := measured
  obtain ⟨last, rfl⟩ := Nat.exists_eq_succ_of_ne_zero range.nonempty
  rw [Nat.succ_eq_add_one, Nat.add_sub_cancel] at found few same
  have payload : (scalars.drop start).take (last + 1) = (scalars.drop start).take last ++ [high] := by
    rw [List.take_add_one, List.getElem?_drop, found]
    rfl
  have size : ((scalars.drop start).take last).length = last := by
    have within := range.within
    rw [List.length_take, List.length_drop]
    omega
  have digits : last * 8 + bitLength high.toNat = bitLength (value scalars start (last + 1)) := by
    rw [value, payload]
    by_cases nonzero : high = 0
    · have single : last = 0 := by
        by_contra more
        exact range.minimal (by omega)
          (by rw [Nat.succ_eq_add_one, ← Nat.add_assoc, Nat.add_sub_cancel, found, nonzero])
      subst nonzero single
      rfl
    · rw [bitLength_ofLittleEndian _ nonzero, size]
  rw [varintWidth, ← digits]
  exact ⟨congrArg Except.ok (Except.ok.inj same).symm, few⟩

theorem width (range : IntegerRange scalars start length) :
    canonicalIntegerVarintWidth scalars start length = .ok (varintWidth (value scalars start length)) :=
      range.digits.1

/-- A group starts within the payload. -/
theorem group_within (range : IntegerRange scalars start length) {index : Nat}
    (within : index < varintWidth (value scalars start length)) : 7 * index < 8 * length ∧ 7 * index < USIZE := by
  have few := range.digits.2
  have nonempty := range.nonempty
  have bits : bitLength (value scalars start length) ≤ 8 * length := by
    rw [bitLength]
    split
    · omega
    · next nonzero =>
      have size : ((scalars.drop start).take length).length ≤ length := List.length_take_le _ _
      have below : value scalars start length < 2 ^ (8 * length) := by
        rw [Nat.pow_mul]
        exact (ofLittleEndian_lt _).trans_le (Nat.pow_le_pow_right (by omega) size)
      exact (Nat.log2_lt nonzero).mpr below
  rw [varintWidth] at within
  have large : 0 < USIZE := by decide
  omega

/-- A group of the number, cut out of one byte or two. -/
theorem byte (range : IntegerRange scalars start length) {index : Nat} (encodedWidth : Nat)
    (within : index < varintWidth (value scalars start length)) :
    integerVarintByte scalars start length index encodedWidth =
      .ok (varintByte (value scalars start length) index encodedWidth) := by
  obtain ⟨inside, fits⟩ := range.group_within within
  have small := range.small
  have source : index * 7 / 8 < length := by omega
  obtain ⟨low, read, found⟩ := byteAt_payload range.within source "integer scalar"
  -- what lies behind the first byte of the window
  have behind : (((scalars.drop start).take length).drop (index * 7 / 8)) =
      low :: ((scalars.drop start).take length).drop (index * 7 / 8 + 1) := by
    obtain ⟨bounded, same⟩ := List.getElem?_eq_some_iff.mp found
    rw [← same]
    exact List.drop_eq_getElem_cons bounded
  have shifted : value scalars start length / 2 ^ (7 * index) =
      (low.toNat + 256 * ofLittleEndian
        (((scalars.drop start).take length).drop (index * 7 / 8 + 1))) / 2 ^ (index * 7 % 8) := by
    rw [← ofLittleEndian, ← behind, ofLittleEndian_drop, ← value, show 256 = 2 ^ 8 from rfl, ← Nat.pow_mul,
      Nat.div_div_eq_div_mul,
      ← Nat.pow_add]
    congr 2
    omega
  have multiplied : checkedMul index 7 = some (index * 7) := if_pos (by omega)
  have added : checkedAdd start (index * 7 / 8) = some (start + index * 7 / 8) := if_pos (by omega)
  rw [varintByte, shifted, ← window_eq low.toNat_lt (Nat.mod_lt _ (by omega)),
    ← or_continuation (Nat.mod_lt _ (by omega)), ← and_mask]
  by_cases second : index * 7 % 8 ≠ 0 ∧ index * 7 / 8 + 1 < length
  · obtain ⟨high, read', found'⟩ := byteAt_payload range.within second.2 "integer scalar"
    have following : (((scalars.drop start).take length).drop (index * 7 / 8 + 1)).head? = some high := by
      rw [List.head?_drop, found']
    obtain ⟨rest, same⟩ := List.head?_eq_some_iff.mp following
    have small := high.toNat_lt
    have lowest : (high.toNat + 256 * ofLittleEndian rest) % 256 = high.toNat := by omega
    rw [same, ofLittleEndian, lowest, if_pos second.1]
    simp only [integerVarintByte, multiplied, added, okOr, pure_bind, if_pos second, Nat.add_assoc]
    rw [read, read']
    rfl
  · have nothing : (if index * 7 % 8 ≠ 0 then
        (ofLittleEndian (((scalars.drop start).take length).drop (index * 7 / 8 + 1)) % 256) <<<
          (8 - index * 7 % 8) else 0) = 0 := by
      split
      · next shift =>
        have last : ((scalars.drop start).take length).length ≤ index * 7 / 8 + 1 :=
          (List.length_take_le _ _).trans (not_lt.mp fun more => second ⟨shift, more⟩)
        rw [List.drop_eq_nil_of_le last, ofLittleEndian, Nat.zero_mod, Nat.zero_shiftLeft]
      · rfl
    rw [nothing]
    simp only [integerVarintByte, multiplied, added, okOr, pure_bind, if_neg second]
    rw [read]
    rfl

end IntegerRange

/-- A turn of a loop that compares place by place. -/
theorem compared_turn {ordering last : Ordering} {later : CoreResult Ordering} (found : later = .ok last) :
    (if ordering ≠ .eq then pure ordering else later) = .ok (ordering.then last) := by
  cases ordering with
  | lt => rfl
  | gt => rfl
  | eq => exact found

/-- Two payloads of one length are compared byte by byte. -/
theorem compareScalarLoop_ok {left right : ComparedTable} {leftStart rightStart length : Nat}
    (leftSmall : leftStart + length < USIZE) (leftWithin : leftStart + length ≤ left.columns.scalarBytes.length)
    (rightSmall : rightStart + length < USIZE) (rightWithin : rightStart + length ≤ right.columns.scalarBytes.length)
    {offsets : List Nat} (bounded : ∀ offset ∈ offsets, offset < length) :
    compareScalarLoop left right leftStart rightStart offsets =
      .ok (offsets.foldr (fun offset later =>
        (compare ((left.columns.scalarBytes.drop leftStart).take length)[offset]?
          ((right.columns.scalarBytes.drop rightStart).take length)[offset]?).then later) .eq) := by
  induction offsets with
  | nil => rfl
  | cons offset rest ih =>
    have inside := bounded offset (.head _)
    obtain ⟨leftByte, leftRead, leftFound⟩ := byteAt_payload leftWithin inside (left.side ++ "canonical scalar")
    obtain ⟨rightByte, rightRead, rightFound⟩ := byteAt_payload rightWithin inside (right.side ++ "canonical scalar")
    have leftAdded : checkedAdd leftStart offset = some (leftStart + offset) := if_pos (by omega)
    have rightAdded : checkedAdd rightStart offset = some (rightStart + offset) := if_pos (by omega)
    simp only [compareScalarLoop, leftAdded, rightAdded, okOr, pure_bind, leftRead, rightRead]
    rw [List.foldr_cons, leftFound, rightFound]
    exact compared_turn (ih fun other member => bounded other (.tail _ member))

/-- So are two integers, group by group. -/
theorem compareIntegerLoop_ok {leftByte rightByte : Nat → CoreResult (Option UInt8)} {left right : List UInt8}
    (leftRead : ∀ index, leftByte index = .ok left[index]?) (rightRead : ∀ index, rightByte index = .ok right[index]?)
    (indices : List Nat) : compareIntegerLoop leftByte rightByte indices =
      .ok (indices.foldr (fun index later => (compare left[index]? right[index]?).then later) .eq) := by
  induction indices with
  | nil => rfl
  | cons index rest ih =>
    rw [compareIntegerLoop, leftRead, rightRead, List.foldr_cons]
    exact compared_turn ih

/-- The groups of an integer are its varint. -/
theorem IntegerRange.byteAt {scalars : List UInt8} {start length : Nat} (range : IntegerRange scalars start length)
    (index : Nat) :
    integerByteAt scalars start length (varintWidth (value scalars start length)) index =
      .ok (varint (value scalars start length))[index]? := by
  rw [integerByteAt, varint_getElem?]
  by_cases within : index < varintWidth (value scalars start length)
  · rw [if_pos within, if_pos within, range.byte _ within]
    rfl
  · rw [if_neg within, if_neg within]
    rfl

end PyElk.Native
