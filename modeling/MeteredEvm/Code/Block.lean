import MeteredEvm.Code.Decode
import MeteredEvm.Code.Instruction

/-!
# `MeteredEvm.Code.Block` — blocks of instructions

A block is a run of instructions that is entered only at its start: a jump destination starts one,
and a jump or an instruction that ends the frame is the last of its own. So the static gas of a
block can be paid, and the stack checked, once on entry.

## Contents
* `sameBlock`, `segments` — cutting decoded code into blocks.
* `Tally`, `Tally.ofSegment` — the static gas and the stack profile of a block, in 32-bit numbers.
* `Tally.fits` — whether a count stays within them.
* `Block`, `Block.cost`.
-/

namespace MeteredEvm

/-- Whether of two instructions in a row the second belongs to the block of the first. -/
def sameBlock (a b : Decoded) : Bool := !a.entry.endsBlock && !b.isJumpDest

/-- The instructions of each block. -/
def segments (code : List Decoded) : List (List Decoded) := code.splitBy sameBlock

/-! ## Static gas and stack profile -/

/-- What the instructions of a block come to, counted from its start. The stack is counted in signed
    32-bit numbers, which wrap around. -/
structure Tally where
  /-- Static gas. -/
  gas : Nat := 0
  /-- Change of the height of the stack. -/
  net : Int32 := 0
  /-- Least height on entry that no instruction finds too low. -/
  required : Int32 := 0
  /-- Largest rise above the height on entry. -/
  growth : Int32 := 0
  deriving DecidableEq, Repr, Inhabited

namespace Tally

/-- The larger of two counts. -/
def larger (a b : Int32) : Int32 := if a ≤ b then b else a

/-- The change of the height by an instruction, as a count. -/
@[inline]
def change (e : Entry) : Int32 := Int32.ofNat e.outputs - Int32.ofNat e.inputs

/-- Count one more instruction. -/
def add (t : Tally) (e : Entry) : Tally where
  gas := t.gas + e.baseGas
  net := t.net + change e
  required := larger t.required (Int32.ofNat e.inputs - t.net)
  growth := larger t.growth (t.net + change e)

/-- The tally of a block. -/
def ofSegment (segment : List Decoded) : Tally := segment.foldl (fun t d => t.add d.entry) {}

/-- A count as a size. A negative one, of which there is none, would be taken modulo `2 ^ 64`. -/
def toSize (n : Int32) : Nat := n.toInt64.toUInt64.toNat

/-- What is checked and charged on entry. -/
def cost (t : Tally) : BlockCost where
  gas := t.gas
  required := toSize t.required
  growth := toSize t.growth

/-- Whether a 64-bit number is one of 32 bits. -/
@[inline]
def holds (n : Int64) : Bool := -0x80000000 ≤ n && n ≤ 0x7fffffff

/-- Whether one more instruction, after a change of the height by `net`, is counted without wrapping
    around. -/
@[inline]
def fits (net : Int32) (e : Entry) : Bool :=
  holds (Int64.ofNat e.inputs - net.toInt64) && holds (net.toInt64 + (change e).toInt64)

end Tally

/-! ## Blocks -/

/-- A block of analysed code. -/
structure Block where
  /-- Where its first byte stands. -/
  start : Nat
  /-- Where the first byte after it stands. -/
  stop : Nat
  /-- Its static gas and stack profile. -/
  tally : Tally
  /-- Index of its entry in the stream. -/
  entry : Nat
  /-- Where control is known to be able to go next. -/
  successors : List Nat
  deriving DecidableEq, Repr, Inhabited

/-- What is checked and charged on entry to a block. -/
def Block.cost (b : Block) : BlockCost := b.tally.cost

end MeteredEvm
