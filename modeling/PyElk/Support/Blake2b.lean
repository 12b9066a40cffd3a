import PyElk.Support.Bytes

open Bytes

def Blake2b.IV : List UInt64 :=
  [0x6a09e667f3bcc908, 0xbb67ae8584caa73b, 0x3c6ef372fe94f82b, 0xa54ff53a5f1d36f1,
   0x510e527fade682d1, 0x9b05688c2b3e6c1f, 0x1f83d9abfb41bd6b, 0x5be0cd19137e2179]

def Blake2b.SIGMA : List (List Nat) :=
  [[0, 1, 2, 3, 4, 5, 6, 7, 8, 9, 10, 11, 12, 13, 14, 15],
   [14, 10, 4, 8, 9, 15, 13, 6, 1, 12, 0, 2, 11, 7, 5, 3],
   [11, 8, 12, 0, 5, 2, 15, 13, 10, 14, 3, 6, 7, 1, 9, 4],
   [7, 9, 3, 1, 13, 12, 11, 14, 2, 6, 5, 10, 4, 0, 15, 8],
   [9, 0, 5, 7, 2, 4, 10, 15, 14, 1, 11, 12, 6, 8, 3, 13],
   [2, 12, 6, 10, 0, 11, 8, 3, 4, 13, 7, 5, 15, 14, 1, 9],
   [12, 5, 1, 15, 14, 13, 4, 10, 0, 7, 6, 3, 9, 2, 8, 11],
   [13, 11, 7, 14, 12, 1, 3, 9, 5, 0, 15, 4, 8, 6, 2, 10],
   [6, 15, 14, 9, 11, 3, 0, 8, 12, 2, 13, 7, 1, 4, 10, 5],
   [10, 2, 8, 4, 7, 6, 1, 5, 15, 11, 9, 14, 3, 12, 13, 0]]

namespace Blake2b

def rotateRight (word : UInt64) (distance : UInt64) : UInt64 :=
  (word >>> distance) ||| (word <<< (64 - distance))

/-- One mixing of two message words into four words of the working vector. -/
def mix (vector : List UInt64) (a b c d : Nat) (x y : UInt64) : List UInt64 :=
  let word (position : Nat) := vector.getD position 0
  let a₁ := word a + word b + x
  let d₁ := rotateRight (word d ^^^ a₁) 32
  let c₁ := word c + d₁
  let b₁ := rotateRight (word b ^^^ c₁) 24
  let a₂ := a₁ + b₁ + y
  let d₂ := rotateRight (d₁ ^^^ a₂) 16
  let c₂ := c₁ + d₂
  let b₂ := rotateRight (b₁ ^^^ c₂) 63
  (((vector.set a a₂).set b b₂).set c c₂).set d d₂

/-- The columns of a round and then its diagonals. -/
def lanes : List (Nat × Nat × Nat × Nat) :=
  [(0, 4, 8, 12), (1, 5, 9, 13), (2, 6, 10, 14), (3, 7, 11, 15),
   (0, 5, 10, 15), (1, 6, 11, 12), (2, 7, 8, 13), (3, 4, 9, 14)]

def round (message vector : List UInt64) (number : Nat) : List UInt64 :=
  let schedule := SIGMA.getD (number % 10) []
  lanes.zipIdx.foldl (fun vector (lane, step) =>
    let word (position : Nat) := message.getD (schedule.getD position 0) 0
    mix vector lane.1 lane.2.1 lane.2.2.1 lane.2.2.2 (word (2 * step)) (word (2 * step + 1))) vector

/-- The sixteen words of a block, padded with zeros. -/
def messageWords (block : List UInt8) : List UInt64 :=
  (List.range 16).map fun word => UInt64.ofNat (ofLittleEndian ((block.drop (8 * word)).take 8))

def compress (state : List UInt64) (block : List UInt8) (counter : Nat) (final : Bool) : List UInt64 :=
  let vector := state ++ IV
  let vector := vector.set 12 (vector.getD 12 0 ^^^ UInt64.ofNat counter)
  let vector := vector.set 13 (vector.getD 13 0 ^^^ UInt64.ofNat (counter / 2 ^ 64))
  let vector := if final then vector.set 14 (vector.getD 14 0 ^^^ 0xffffffffffffffff) else vector
  let vector := (List.range 12).foldl (round (messageWords block)) vector
  (List.range 8).map fun word => state.getD word 0 ^^^ vector.getD word 0 ^^^ vector.getD (word + 8) 0

/-- All blocks but the last, and then the last one with the final flag. -/
def absorb : Nat → List UInt64 → Nat → List UInt8 → List UInt64
  | 0, state, counter, bytes => compress state bytes (counter + bytes.length) true
  | blocks + 1, state, counter, bytes =>
    absorb blocks (compress state (bytes.take 128) (counter + 128) false) (counter + 128) (bytes.drop 128)

end Blake2b

open Blake2b

/-- `blake2b(data, digest_size=32).digest()`, without a key. -/
def blake2b256 (bytes : List UInt8) : List UInt8 :=
  let start := IV.set 0 (IV.getD 0 0 ^^^ 0x01010020)
  let state := absorb ((bytes.length - 1) / 128) start 0 bytes
  (state.take 4).flatMap fun word => littleEndian 8 word.toNat

theorem Blake2b.absorb_length (blocks : Nat) (state : List UInt64) (counter : Nat) (bytes : List UInt8) :
    (absorb blocks state counter bytes).length = 8 := by
  induction blocks generalizing state counter bytes with
  | zero =>
    unfold absorb compress
    rw [List.length_map, List.length_range]
  | succ blocks ih => exact ih _ _ _

theorem blake2b256_length (bytes : List UInt8) : (blake2b256 bytes).length = 32 := by
  have words : ∀ state : List UInt64, (state.flatMap fun word => littleEndian 8 word.toNat).length =
    state.length * 8 := by
    intro state
    induction state with
    | nil => rfl
    | cons word rest ih =>
      rw [List.flatMap_cons, List.length_append, littleEndian_length, ih, List.length_cons]
      omega
  unfold blake2b256
  rw [words, List.length_take, absorb_length]
  rfl

example : blake2b256 [0x61, 0x62, 0x63] =
    [0xbd, 0xdd, 0x81, 0x3c, 0x63, 0x42, 0x39, 0x72, 0x31, 0x71, 0xef, 0x3f, 0xee, 0x98, 0x57, 0x9b,
     0x94, 0x96, 0x4e, 0x3b, 0xb1, 0xcb, 0x3e, 0x42, 0x72, 0x62, 0xc8, 0xc0, 0x68, 0xd5, 0x23, 0x19] := by
  decide +kernel
