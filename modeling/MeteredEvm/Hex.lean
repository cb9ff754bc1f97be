import MeteredEvm.Bytes

/-!
# `MeteredEvm.Hex` — hexadecimal text

Words, addresses, hashes and byte strings are written in hexadecimal. Writing is canonical: lower
case, and a word has no leading zero. Reading takes digits of either case and an optional `0x`.

## Contents
* `Hex.digits`, `Hex.padded`, `Hex.encode` — writing numbers and byte strings.
* `Hex.ofWord`, `Hex.ofAddress`, `Hex.ofHash` — the canonical texts.
* `Hex.toWord?`, `Hex.toAddress?`, `Hex.toHash?`, `Hex.decode?` — reading.
-/

namespace MeteredEvm.Hex

/-! ## Writing -/

/-- The digits of a number without leading zeros; zero is `0`. -/
def digits (n : Nat) : List Char := Nat.toDigits 16 n

/-- The digits of a number, filled up with zeros to at least `width`. -/
def padded (width n : Nat) : List Char :=
  List.replicate (width - (digits n).length) '0' ++ digits n

/-- Two digits for every byte. -/
def encode (b : ByteArray) : String :=
  b.data.foldl (fun acc x => (acc.push (Nat.digitChar (x.toNat / 16))).push
    (Nat.digitChar (x.toNat % 16))) ""

/-- The shortest text of a word. -/
def ofWord (w : Word) : String := String.ofList ('0' :: 'x' :: digits w.toNat)

/-- The 40 digits of an address. -/
def ofAddress (a : Address) : String := String.ofList ('0' :: 'x' :: padded 40 a.toNat)

/-- The 64 digits of a hash. -/
def ofHash (h : Hash) : String := String.ofList ('0' :: 'x' :: padded 64 h.toNat)

/-- A byte string after `0x`. -/
def ofBytes (b : ByteArray) : String := "0x" ++ encode b

/-! ## Reading -/

/-- The value of a digit. -/
def digit? (c : Char) : Option Nat :=
  if '0' ≤ c ∧ c ≤ '9' then some (c.toNat - '0'.toNat)
  else if 'a' ≤ c ∧ c ≤ 'f' then some (c.toNat - 'a'.toNat + 10)
  else if 'A' ≤ c ∧ c ≤ 'F' then some (c.toNat - 'A'.toNat + 10)
  else none

/-- A character that may stand between digits or tokens and has no value. -/
def isBlank (c : Char) : Bool := c = ' ' || c = '\r' || c = '\n' || c = '\t'

/-- The values of the digits of a text; blanks are passed over. -/
def nibbles? : List Char → Option (List Nat)
  | [] => some []
  | c :: rest =>
    if isBlank c then nibbles? rest
    else do
      let d ← digit? c
      let ds ← nibbles? rest
      return d :: ds

/-- Two values make a byte; one that is left over is dropped. -/
def pairs : List Nat → List UInt8
  | high :: low :: rest => UInt8.ofNat (16 * high + low) :: pairs rest
  | _ => []

/-- The text after an optional `0x`. -/
def unprefixed : List Char → List Char
  | '0' :: 'x' :: rest => rest
  | text => text

/-- The bytes of a text of digits. A text of odd length starts with half a byte. -/
def bytes? (text : List Char) : Option (List UInt8) := do
  let ds ← nibbles? text
  return pairs (if text.length % 2 = 1 then 0 :: ds else ds)

/-- The word written with 1 to 64 digits. -/
def toWord? (text : List Char) : Option Word := do
  let body := unprefixed text
  guard (0 < body.length ∧ body.length ≤ 64)
  let bytes ← bytes? body
  return Bytes.toWord (Bytes.ofList bytes)

/-- The number written with exactly two digits for each of `width` bytes. Bytes that the digits
    leave open are zero. -/
def fixed? (width : Nat) (text : List Char) : Option Nat := do
  let body := unprefixed text
  guard (body.length = 2 * width)
  let bytes ← bytes? body
  return Bytes.toNat (Bytes.paddedSlice (Bytes.ofList bytes) 0 width)

/-- The address written with 40 digits. -/
def toAddress? (text : List Char) : Option Address := (fixed? 20 text).map (BitVec.ofNat 160)

/-- The hash written with 64 digits. -/
def toHash? (text : List Char) : Option Hash := (fixed? 32 text).map (BitVec.ofNat 256)

/-- Bytes of consecutive pairs of digits, in order, after `acc`. -/
def decodeOnto (acc : ByteArray) : List Char → Option ByteArray
  | [] => some acc
  | high :: low :: rest => do
    let h ← digit? high
    let l ← digit? low
    decodeOnto (acc.push (UInt8.ofNat (16 * h + l))) rest
  | _ => none

/-- The byte string written with two digits for every byte. -/
def decode? (text : List Char) : Option ByteArray := decodeOnto .empty (unprefixed text)

end MeteredEvm.Hex
