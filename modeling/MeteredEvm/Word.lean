/-!
# `MeteredEvm.Word` — machine words, addresses and hashes

The machine computes on 256-bit words. This module fixes the word type, its 160-bit and 64-bit
readings, and the arithmetic that is not already a `BitVec` operation.

## Contents
* `Word`, `Address`, `Hash`, `Word.toAddress`, `Word.ofAddress`.
* `u64Size`, `add64?`, `Word.toU64?`, `Word.below?`, `Word.clampU64`, `Word.lowU64` — words and sums
  as 64-bit sizes or amounts.
* `Word.add?` — sums that have to be words.
* `wordsFor` — how many 32-byte words hold a number of bytes.
* `Word.negate`, `Word.magnitude`, `Word.sdiv`, `Word.srem`, `Word.slt`, `Word.sar`,
  `Word.signExtendFrom` — two's complement, on unsigned words.
* `Word.widen`, `Word.lowHalf`, `Word.addMod`, `Word.mulMod`, `Word.power`, `Word.byteAt`,
  `Word.shl`, `Word.shr` — the other word operations.
-/

namespace MeteredEvm

/-- A 256-bit machine word. -/
abbrev Word := BitVec 256

/-- A 20-byte account address. -/
abbrev Address := BitVec 160

/-- A 32-byte hash, read as a big-endian number. -/
abbrev Hash := BitVec 256

/-- Number of values of a 64-bit quantity. Gas amounts, sizes and offsets stay below it. -/
abbrev u64Size : Nat := 0x10000000000000000

/-- The sum of two 64-bit quantities, if it is one again. -/
def add64? (a b : Nat) : Option Nat := if a + b < u64Size then some (a + b) else none

/-- Number of 32-byte words needed to hold `len` bytes. -/
def wordsFor (len : Nat) : Nat := (len + 31) / 32

namespace Word

/-- The value as a 64-bit quantity, if it fits. -/
def toU64? (w : Word) : Option Nat := if w.toNat < u64Size then some w.toNat else none

/-- The value as a 64-bit quantity below a bound, if it is one. -/
def below? (w : Word) (bound : Nat) : Option Nat := w.toU64?.filter (· < bound)

/-- The value as a 64-bit quantity; a larger word gives the largest one. -/
def clampU64 (w : Word) : Nat := w.toU64?.getD (u64Size - 1)

/-- The low 64 bits of a word. -/
def lowU64 (w : Word) : Nat := w.toNat % u64Size

/-- The sum of two words, if it is one again. -/
def add? (a b : Word) : Option Word := if a.uaddOverflow b then none else some (a + b)

theorem toNat_ne_zero {w : Word} (h : w ≠ 0#256) : w.toNat ≠ 0 :=
  fun hzero => h (BitVec.eq_of_toNat_eq hzero)

theorem below?_of_lt {w : Word} {bound : Nat} (hbound : bound ≤ u64Size) (h : w.toNat < bound) :
    w.below? bound = some w.toNat := by
  have hfits : w.toU64? = some w.toNat := if_pos (Nat.lt_of_lt_of_le h hbound)
  unfold below?
  rw [hfits, Option.filter_some, if_pos (decide_eq_true h)]

theorem below?_of_le {w : Word} {bound : Nat} (h : bound ≤ w.toNat) : w.below? bound = none := by
  unfold below? toU64?
  split
  · rw [Option.filter_some, decide_eq_false (Nat.not_lt.2 h), if_neg Bool.false_ne_true]
  · rfl

theorem clampU64_eq_min (w : Word) : w.clampU64 = min w.toNat (u64Size - 1) := by
  unfold clampU64 toU64?
  split
  · rename_i hfits
    rw [Option.getD_some, Nat.min_eq_left (by omega)]
  · rename_i hlarge
    rw [Option.getD_none, Nat.min_eq_right (by omega)]

/-- A sum is one of words exactly if it is one of numbers. -/
theorem add?_eq_some {a b c : Word} : a.add? b = some c ↔ c.toNat = a.toNat + b.toNat := by
  unfold add? BitVec.uaddOverflow
  split
  · rename_i hover
    have := c.isLt
    have := decide_eq_true_iff.1 hover
    constructor
    · intro h
      cases h
    · omega
  · rename_i hfits
    have hlt := Nat.lt_of_not_le fun h => hfits (decide_eq_true h)
    have hsum : (a + b).toNat = a.toNat + b.toNat := by
      rw [BitVec.toNat_add, Nat.mod_eq_of_lt hlt]
    constructor
    · rintro ⟨⟩
      exact hsum
    · intro h
      rw [BitVec.eq_of_toNat_eq (h.trans hsum.symm)]

/-- The machine's truth values are the words one and zero. -/
def ofBool (b : Bool) : Word := if b then 1#256 else 0#256

/-- The address in the low 20 bytes of a word. -/
def toAddress (w : Word) : Address := w.setWidth 160

/-- The word with the value of an address. -/
def ofAddress (a : Address) : Word := a.setWidth 256

/-! ## Two's complement -/

/-- The sign bit, reading the word in two's complement. -/
def isNegative (w : Word) : Bool := w.msb

/-- The word that adds up to zero with this one. -/
def negate (w : Word) : Word := ~~~w + 1#256

/-- The absolute value, as an unsigned word. That of the least number is half the range of words. -/
def magnitude (w : Word) : Word := if w.isNegative then negate w else w

/-- Signed division truncating toward zero; division by zero gives zero. -/
def sdiv (a b : Word) : Word :=
  if b = 0#256 then 0#256
  else
    let quotient := magnitude a / magnitude b
    if a.isNegative != b.isNegative then negate quotient else quotient

/-- Signed remainder with the sign of the dividend; a zero divisor gives zero. -/
def srem (a b : Word) : Word :=
  if b = 0#256 then 0#256
  else
    let remainder := magnitude a % magnitude b
    if a.isNegative then negate remainder else remainder

/-- Signed comparison. Words of the same sign are in the same order as unsigned ones. -/
def slt (a b : Word) : Bool :=
  match a.isNegative, b.isNegative with
  | true, false => true
  | false, true => false
  | _, _ => a.ult b

/-- Shift to the left; a shift of 256 or more gives zero. -/
def shl (shift value : Word) : Word :=
  match shift.below? 256 with
  | some n => value <<< n
  | none => 0#256

/-- Logical shift to the right; a shift of 256 or more gives zero. -/
def shr (shift value : Word) : Word :=
  match shift.below? 256 with
  | some n => value >>> n
  | none => 0#256

/-- Arithmetic shift to the right; a shift of 256 or more leaves only copies of the sign. -/
def sar (shift value : Word) : Word :=
  match shift.below? 256 with
  | some n => if value.isNegative then ~~~(~~~value >>> n) else value >>> n
  | none => if value.isNegative then BitVec.allOnes 256 else 0#256

/-- Extend the sign of the number held in the low `index + 1` bytes. From byte 31 on the number
    already fills the word. -/
def signExtendFrom (index value : Word) : Word :=
  match index.below? 31 with
  | some n =>
    let bit := 8 * n + 7
    let mask := (1#256 <<< bit) - 1#256
    if value.getLsbD bit then value ||| ~~~mask else value &&& mask
  | none => value

/-! ## Modular arithmetic, powers and bytes -/

/-- The word as a number of twice the width. -/
def widen (w : Word) : BitVec 512 := w.setWidth 512

/-- The low half of a number of twice the width. -/
def lowHalf (x : BitVec 512) : Word := x.setWidth 256

/-- Sum modulo `n` without intermediate overflow; modulus zero gives zero. -/
def addMod (a b n : Word) : Word :=
  if n = 0#256 then 0#256 else lowHalf ((widen a + widen b) % widen n)

/-- Product modulo `n` without intermediate overflow; modulus zero gives zero. -/
def mulMod (a b n : Word) : Word :=
  if n = 0#256 then 0#256 else lowHalf (widen a * widen b % widen n)

/-- Quotient; division by zero gives zero. -/
def udiv (a b : Word) : Word := BitVec.udiv a b

/-- Remainder; a zero divisor gives zero. -/
def umod (a b : Word) : Word := if b = 0#256 then 0#256 else BitVec.umod a b

/-- Powers modulo `2 ^ 256`, by repeated squaring. -/
def power (base : Word) (exponent : Nat) : Word :=
  if exponent = 0 then 1#256
  else
    let half := power (base * base) (exponent / 2)
    if exponent % 2 = 1 then base * half else half
termination_by exponent
decreasing_by omega

/-- The byte at `index`, counted from the most significant; past the last byte it is zero. -/
def byteAt (index value : Word) : Word :=
  match index.below? 32 with
  | some n => (value >>> (8 * (31 - n))) &&& 0xff#256
  | none => 0#256

/-- Number of bytes from the lowest to the highest non-zero one. -/
def byteLength (w : Word) : Nat := if w = 0#256 then 0 else w.toNat.log2 / 8 + 1

end Word

end MeteredEvm
