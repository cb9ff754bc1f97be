import MeteredEvm.Bytes

/-!
# `MeteredEvm.Keccak` — the Keccak-256 hash

The sponge over the 1600-bit permutation with a rate of 136 bytes and the padding that starts with
the byte `0x01`. Contract addresses, code hashes and the `KECCAK256` instruction use it.

## Contents
* `Keccak.State`, `Keccak.round`, `Keccak.permute` — the permutation on 25 lanes of 64 bits.
* `Keccak.pad`, `Keccak.absorb`, `Keccak.digest` — the sponge.
-/

namespace MeteredEvm.Keccak

/-- Lane `(x, y)` of the state stands at index `x + 5 * y`. -/
abbrev State := Vector UInt64 25

/-- Rotation of a lane to the left, by less than 64. -/
def rotateLeft (lane : UInt64) (n : UInt64) : UInt64 := (lane <<< n) ||| (lane >>> (64 - n))

/-- How far each lane is rotated, by index. -/
def rotations : Vector UInt64 25 :=
  #v[0, 1, 62, 28, 27, 36, 44, 6, 55, 20, 3, 10, 43, 25, 39, 41, 45, 15, 21, 8, 18, 2, 61, 56, 14]

/-- The constants that make the rounds differ. -/
def roundConstants : List UInt64 :=
  [0x0000000000000001, 0x0000000000008082, 0x800000000000808a, 0x8000000080008000,
   0x000000000000808b, 0x0000000080000001, 0x8000000080008081, 0x8000000000008009,
   0x000000000000008a, 0x0000000000000088, 0x0000000080008009, 0x000000008000000a,
   0x000000008000808b, 0x800000000000008b, 0x8000000000008089, 0x8000000000008003,
   0x8000000000008002, 0x8000000000000080, 0x000000000000800a, 0x800000008000000a,
   0x8000000080008081, 0x8000000000008080, 0x0000000080000001, 0x8000000080008008]

/-- The lane in column `x` and row `y`, both taken modulo five. -/
def lane (s : State) (x y : Nat) : UInt64 :=
  s[x % 5 + 5 * (y % 5)]

/-- Mix every column into its two neighbours. -/
def mixColumns (s : State) : State :=
  let parity : Vector UInt64 5 := Vector.ofFn fun x =>
    lane s x.val 0 ^^^ lane s x.val 1 ^^^ lane s x.val 2 ^^^ lane s x.val 3 ^^^ lane s x.val 4
  let spread : Vector UInt64 5 := Vector.ofFn fun x =>
    parity[(x.val + 4) % 5] ^^^ rotateLeft parity[(x.val + 1) % 5] 1
  Vector.ofFn fun i => s[i.val] ^^^ spread[i.val % 5]

/-- Rotate the lanes and move each to its new place. -/
def permuteLanes (s : State) : State :=
  Vector.ofFn fun i =>
    let x := i.val % 5
    let y := i.val / 5
    let source := (x + 3 * y) % 5 + 5 * x
    rotateLeft s[source] rotations[source]

/-- The only step that is not linear: combine each lane with the next two of its row. -/
def combineRows (s : State) : State :=
  Vector.ofFn fun i =>
    let x := i.val % 5
    let y := i.val / 5
    s[i.val] ^^^ ((lane s (x + 1) y ^^^ 0xffffffffffffffff) &&& lane s (x + 2) y)

/-- One round. -/
def round (s : State) (constant : UInt64) : State :=
  let mixed := combineRows (permuteLanes (mixColumns s))
  mixed.set 0 (mixed[0] ^^^ constant)

/-- The permutation: 24 rounds. -/
def permute (s : State) : State := roundConstants.foldl round s

/-! ## The sponge -/

/-- Bytes absorbed by one permutation. -/
def rate : Nat := 136

/-- The message with its padding: a first byte `0x01`, zeros, and the top bit of the last byte of
    the block. -/
def pad (message : ByteArray) : ByteArray :=
  let fill := rate - message.size % rate
  if fill = 1 then message.push 0x81
  else (message.push 0x01 ++ Bytes.zeros (fill - 2)).push 0x80

/-- The little-endian lane at byte `start`. -/
def laneAt (message : ByteArray) (start : Nat) : UInt64 :=
  (List.range 8).foldr (fun i acc => (acc <<< 8) ||| ((message[start + i]?).getD 0).toUInt64) 0

/-- Absorb the block that starts at byte `start`. -/
def absorb (message : ByteArray) (s : State) (start : Nat) : State :=
  permute (Vector.ofFn fun i =>
    if i.val < 17 then s[i.val] ^^^ laneAt message (start + 8 * i.val) else s[i.val])

/-- The 32-byte digest of a message. -/
def digestBytes (message : ByteArray) : ByteArray :=
  let padded := pad message
  let blocks := (List.range (padded.size / rate)).map (· * rate)
  let final := blocks.foldl (absorb padded) (Vector.replicate 25 0)
  ⟨Array.ofFn fun i : Fin 32 =>
    UInt8.ofNat ((lane final (i.val / 8) 0).toNat >>> (8 * (i.val % 8)))⟩

/-- The digest as a hash value. -/
def digest (message : ByteArray) : Hash := Bytes.toWord (digestBytes message)

end MeteredEvm.Keccak
