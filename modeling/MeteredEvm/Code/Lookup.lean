import MeteredEvm.InstructionSet

/-!
# `MeteredEvm.Code.Lookup` — where jumps may go, and how their places are found

The jump destinations of a code are kept in a bitmap, sixty-four bytes of code to a word. What belongs
to a place of the code stands in a sorted array, where it is found by halving.

## Contents
* `jumpDestByte`, `JumpMap`, `JumpMap.scan`, `JumpMap.isSet`, `JumpMap.count` — the bitmap.
* `partitionPoint`, `findPlace` — sorted arrays.
-/

namespace MeteredEvm

/-! ## Jump destinations -/

/-- The byte of a jump destination. -/
def jumpDestByte : UInt8 := 0x5b

/-- Which bytes of a code of `size` bytes are jump destinations: a bit for every byte, packed into
    words of sixty-four. -/
structure JumpMap (size : Nat) where
  /-- The bits. -/
  words : Vector UInt64 ((size + 63) / 64)

namespace JumpMap

variable {size : Nat}

/-- The word that holds the bit of a byte, and the mask of the bit in that word. -/
def split (pc : Nat) : Nat × UInt64 := (pc >>> 6, 1 <<< UInt64.ofNat (pc &&& 63))

/-- The word that holds the bit of a byte is the quotient by the width of a word. -/
theorem fst_split (pc : Nat) : (split pc).1 = pc / 64 := Nat.shiftRight_eq_div_pow pc 6

theorem fst_split_lt {pc : Nat} (h : pc < size) : (split pc).1 < (size + 63) / 64 := by
  rw [fst_split]
  omega

/-- No byte. -/
def empty (size : Nat) : JumpMap size := ⟨.replicate _ 0⟩

/-- One byte more. -/
def set (m : JumpMap size) (pc : Nat) (h : pc < size) : JumpMap size :=
  have hword := fst_split_lt h
  ⟨m.words.set (split pc).1 (m.words[(split pc).1] ||| (split pc).2)⟩

/-- Whether a jump may go to `pc`. -/
def isSet (m : JumpMap size) (pc : Nat) : Bool :=
  if h : pc < size then
    have hword := fst_split_lt h
    m.words[(split pc).1] &&& (split pc).2 != 0
  else false

/-- The jump destinations in order. -/
def toList (m : JumpMap size) : List Nat := (List.range size).filter m.isSet

/-- Number of bits of a word that are set. -/
def countOnes (w : UInt64) : Nat := w.toBitVec.cpop.toNat

/-- Number of jump destinations. -/
def count (m : JumpMap size) : Nat := m.words.toList.foldr (fun w n => countOnes w + n) 0

/-- The map after the bits of the instructions from `pc` on are set. -/
def scanFrom (code : ByteArray) (pc : Nat) (m : JumpMap code.size) : JumpMap code.size :=
  if h : pc < code.size then
    let opcode := code[pc]
    let m := if opcode == jumpDestByte then m.set pc h else m
    scanFrom code (pc + 1 + immediateSize opcode) m
  else m
termination_by code.size - pc
decreasing_by omega

/-- The jump destinations of a code. They are the same under every fork. -/
def scan (code : ByteArray) : JumpMap code.size := scanFrom code 0 (.empty code.size)

end JumpMap

/-! ## Sorted arrays -/

/-- Number of elements up to the last one before `hi` that satisfies `p`, if all before `lo` do. -/
def partitionWithin {α : Type} (p : α → Bool) (xs : Array α) (lo hi : Nat) (h : hi ≤ xs.size) : Nat :=
  if hlt : lo < hi then
    let mid := lo + (hi - lo) / 2
    if p xs[mid] then partitionWithin p xs (mid + 1) hi h
    else partitionWithin p xs lo mid (by omega)
  else lo
termination_by hi - lo

/-- Number of elements of an array that satisfy `p`, if all that do come first. -/
def partitionPoint {α : Type} (p : α → Bool) (xs : Array α) : Nat :=
  partitionWithin p xs 0 xs.size (Nat.le_refl _)

/-- What an array that is sorted by places has for a place. -/
def findPlace (index : Array (Nat × Nat)) (pc : Nat) : Option Nat :=
  match index[partitionPoint (·.1 < pc) index]? with
  | some (place, found) => if place = pc then some found else none
  | none => none

end MeteredEvm
