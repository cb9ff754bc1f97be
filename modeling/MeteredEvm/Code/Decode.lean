import MeteredEvm.Bytes
import MeteredEvm.Code.Lookup

/-!
# `MeteredEvm.Code.Decode` — reading code as instructions

Code is read from the first byte on: an opcode, its immediate bytes, the next opcode. An immediate
that the code cuts short is continued with zeros. Every byte string decodes; a byte that is no
instruction of the fork decodes to one that faults when it is reached.

## Contents
* `Decoded`, `Decoded.readAt`, `decode`.
-/

namespace MeteredEvm

/-- An instruction of a code. -/
structure Decoded where
  /-- Where its opcode stands. -/
  pc : Nat
  /-- What the fork makes of the opcode. -/
  entry : Entry
  /-- Its immediate, if it has one. -/
  immediate : Option Word

namespace Decoded

/-- The instruction whose opcode stands at `pc`. -/
def readAt (is : InstructionSet) (code : ByteArray) (pc : Nat) (opcode : UInt8) : Decoded :=
  let n := immediateSize opcode
  { pc
    entry := is.entry opcode
    immediate := if n = 0 then none else some (Bytes.toWord (Bytes.paddedSlice code (pc + 1) n)) }

/-- Where the next instruction starts. -/
def next (d : Decoded) : Nat := d.pc + 1 + immediateSize d.entry.opcode

/-- Whether it is a jump destination. -/
def isJumpDest (d : Decoded) : Bool := d.entry.opcode == jumpDestByte

end Decoded

/-- The instructions from `pc` on, after those of `acc`. -/
def decodeFrom (is : InstructionSet) (code : ByteArray) (pc : Nat) (acc : Array Decoded) :
    Array Decoded :=
  if h : pc < code.size then
    let opcode := code[pc]
    decodeFrom is code (pc + 1 + immediateSize opcode) (acc.push (.readAt is code pc opcode))
  else acc
termination_by code.size - pc
decreasing_by omega

/-- The instructions of a code, in order. -/
def decode (is : InstructionSet) (code : ByteArray) : Array Decoded := decodeFrom is code 0 #[]

end MeteredEvm
