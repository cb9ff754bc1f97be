/-!
# `MeteredEvm.Fault` — how a run can go wrong

A **fault** is an outcome of the machine: the frame stops, its gas is gone and the caller goes on.
A **trap** is no outcome at all. Instructions rely on facts that they do not check again — the
block entry has checked the stack, the memory has been grown — and a trap is what is left when such
a fact does not hold. Both are values here, so that "no run traps" is a statement.

## Contents
* `Fault`, `Fault.message`, `Fault.code` — faults, their text and their numeric code.
* `Trap`, `Failure` — traps, and either of the two.
-/

namespace MeteredEvm

/-- Why a frame faulted. -/
inductive Fault where
  /-- An instruction needs more words than the stack holds. -/
  | stackUnderflow
  /-- The stack would grow past its limit. -/
  | stackOverflow
  /-- The meter cannot pay. -/
  | outOfGas
  /-- The byte is no instruction of the fork. -/
  | invalidOpcode (opcode : UInt8)
  /-- The target of a jump is no jump destination. -/
  | invalidJump
  /-- A state change in a static call. -/
  | staticCallViolation
  /-- A memory range ends past the 64-bit range or the memory limit. -/
  | memorySizeOverflow
  /-- Deployed code is over the size limit. -/
  | outputTooLarge
  /-- A copy reaches past the return data. -/
  | returnDataOutOfBounds
  /-- Init code is over the size limit. -/
  | initCodeTooLarge
  deriving DecidableEq, Repr, Inhabited

namespace Fault

/-- The text of a fault. -/
def message : Fault → String
  | stackUnderflow => "stack underflow"
  | stackOverflow => "stack overflow"
  | outOfGas => "out of gas"
  | invalidOpcode b =>
    "invalid opcode 0x" ++ String.ofList [Nat.digitChar (b.toNat / 16), Nat.digitChar (b.toNat % 16)]
  | invalidJump => "invalid jump destination"
  | staticCallViolation => "state modification in static call"
  | memorySizeOverflow => "memory size overflow"
  | outputTooLarge => "output too large"
  | returnDataOutOfBounds => "return data out of bounds"
  | initCodeTooLarge => "init code too large"

/-- The numeric code of a fault. Memory and return data ranges share one, and so do the two size
    limits. -/
def code : Fault → Int
  | stackOverflow => -1
  | stackUnderflow => -2
  | outOfGas => -3
  | invalidJump => -4
  | invalidOpcode _ => -5
  | memorySizeOverflow => -6
  | returnDataOutOfBounds => -6
  | outputTooLarge => -8
  | initCodeTooLarge => -8
  | staticCallViolation => -11

end Fault

/-- Why a run ended without an outcome. -/
inductive Trap where
  /-- An instruction touched a stack position that does not exist. -/
  | stack
  /-- An access outside the active view of the memory. -/
  | memory
  /-- A range outside a byte string. -/
  | data
  /-- A 64-bit computation left its range. -/
  | arithmetic
  /-- More jumps than any gas meter pays for. -/
  | jumps
  /-- A call from a frame at the depth limit. -/
  | depth
  deriving DecidableEq, Repr, Inhabited

/-- A fault or a trap. -/
inductive Failure where
  /-- The frame faults. -/
  | fault (f : Fault)
  /-- The run traps. -/
  | trap (t : Trap)
  deriving DecidableEq, Repr, Inhabited

end MeteredEvm
