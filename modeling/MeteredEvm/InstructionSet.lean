import MeteredEvm.Opcode
import MeteredEvm.Gas.Schedule
import MeteredEvm.Stack

/-!
# `MeteredEvm.InstructionSet` — what a fork makes of every byte

For a fork, every byte has an entry: its instruction, if the fork has it, the static price, how the
stack changes, and what the block analysis and the static-call check need to know.

## Contents
* `StateEffect` — when an instruction changes state.
* `Op.availableIn`, `Op.baseGas`, `Op.inputs`, `Op.outputs`, `Op.effect`, … — facts about one
  instruction.
* `Entry`, `InstructionSet`, `InstructionSet.entry`, with their texts.
-/

namespace MeteredEvm

/-- How an instruction stands to the ban on state changes in a static call. -/
inductive StateEffect where
  /-- It changes no state. -/
  | none
  /-- It changes state. -/
  | always
  /-- It changes state if the word at this depth, zero being the top, is not zero. -/
  | whenValue (depth : Nat)
  deriving DecidableEq, Repr, Inhabited

namespace Op

/-- Whether the rules have an instruction. -/
def availableIn (r : Rules) : Op → Bool
  | binary .shl | binary .shr | binary .sar => r.bitwiseShifts
  | reading .returnDataSize | copy .returnData | call .staticCall | revert => r.byzantiumOpcodes
  | account .codeHash => r.extCodeHash
  | reading .chainId | selfBalance => r.istanbulOpcodes
  | reading .baseFee => r.baseFee
  | blobHash | reading .blobBaseFee => r.blobOpcodes
  | tload | tstore => r.transientStorage
  | mcopy => r.mcopy
  | push n => if n.val = 0 then r.push0 else true
  | call .delegateCall => r.delegateCall
  | create true => r.create2
  | _ => true

/-- The price that an instruction has whatever its operands are. -/
def baseGas (s : Schedule) : Op → Nat
  | stop | sstore | ret | revert | invalid => 0
  | jumpDest => 1
  | reading _ | pop | gas => 2
  | unary _ | callDataLoad | copy _ | blobHash | mload | mstore | mstore8 | mcopy | dup _ | swap _ => 3
  | binary .mul | binary .div | binary .sdiv | binary .mod | binary .smod | binary .signExtend => 5
  | binary _ => 3
  | selfBalance => 5
  | ternary _ | jump => 8
  | exp | jumpi => 10
  | push n => if n.val = 0 then 2 else 3
  | blockHash => 20
  | keccak256 => 30
  | tload | tstore => 100
  | log _ => 375
  | create _ => Gas.create
  | account .balance => s.balance
  | account .codeSize | extCodeCopy => s.extCode
  | account .codeHash => s.extCodeHash
  | sload => s.sload
  | call _ => s.call
  | selfDestruct => s.selfDestruct

/-- Number of words taken off the stack. -/
def inputs : Op → Nat
  | stop | reading _ | selfBalance | jumpDest | gas | push _ | invalid => 0
  | unary _ | account _ | callDataLoad | blockHash | blobHash | pop | mload | sload | tload | jump
  | selfDestruct => 1
  | binary _ | exp | keccak256 | mstore | mstore8 | sstore | tstore | jumpi | ret | revert => 2
  | ternary _ | copy _ | mcopy | create false => 3
  | extCodeCopy | create true => 4
  | call .call | call .callCode => 7
  | call _ => 6
  | dup n => n.val + 1
  | swap n => n.val + 2
  | log n => n.val + 2

/-- Number of words put on the stack. -/
def outputs : Op → Nat
  | stop | copy _ | extCodeCopy | pop | mstore | mstore8 | mcopy | sstore | tstore | jump | jumpi
  | jumpDest | log _ | ret | revert | invalid | selfDestruct => 0
  | dup n => n.val + 2
  | swap n => n.val + 2
  | _ => 1

theorem inputs_lt (op : Op) : op.inputs < 256 := by
  cases op with
  | dup n => exact Nat.lt_of_lt_of_le (Nat.succ_lt_succ n.isLt) (by decide)
  | swap n => exact Nat.lt_of_lt_of_le (Nat.add_lt_add_right n.isLt 2) (by decide)
  | log n => exact Nat.lt_of_lt_of_le (Nat.add_lt_add_right n.isLt 2) (by decide)
  | create salted => cases salted <;> decide
  | call kind => cases kind <;> decide
  | _ => exact Nat.le_of_ble_eq_true rfl

theorem outputs_lt (op : Op) : op.outputs < 256 := by
  cases op with
  | dup n => exact Nat.lt_of_lt_of_le (Nat.add_lt_add_right n.isLt 2) (by decide)
  | swap n => exact Nat.lt_of_lt_of_le (Nat.add_lt_add_right n.isLt 2) (by decide)
  | _ => exact Nat.le_of_ble_eq_true rfl

/-- Whether an instruction ends the run of its frame. -/
def terminates : Op → Bool
  | stop | ret | revert | invalid | selfDestruct => true
  | _ => false

/-- Whether no instruction of the same block can follow. -/
def endsBlock : Op → Bool
  | jump | jumpi => true
  | op => op.terminates

/-- When an instruction changes state. -/
def effect : Op → StateEffect
  | sstore | tstore | log _ | create _ | selfDestruct => .always
  | call .call => .whenValue 2
  | _ => .none

/-- Whether an instruction looks at the gas that is left, so that it has to be given back what the
    rest of its block has already paid. -/
def observesGas : Op → Bool
  | sstore | gas | create _ | call _ => true
  | _ => false

end Op

/-! ## Entries -/

/-- What a fork makes of a byte. -/
structure Entry where
  /-- The byte. -/
  opcode : UInt8
  /-- Its instruction, if the fork has one. -/
  op : Option Op
  /-- Static price. -/
  baseGas : Nat
  /-- Words taken off the stack. -/
  inputs : Nat
  /-- Words put on the stack. -/
  outputs : Nat
  /-- Bytes after the opcode that belong to it. -/
  immediate : Nat
  /-- Ends the run of the frame. -/
  terminates : Bool
  /-- Ends its block. -/
  endsBlock : Bool
  /-- When it changes state. -/
  effect : StateEffect
  /-- Looks at the gas that is left. -/
  observesGas : Bool
  inputs_lt : inputs < 256
  outputs_lt : outputs < 256

namespace Entry

/-- The entry of an instruction. -/
def ofOp (s : Schedule) (op : Op) : Entry where
  opcode := op.opcode
  op := some op
  baseGas := op.baseGas s
  inputs := op.inputs
  outputs := op.outputs
  immediate := op.immediate
  terminates := op.terminates
  endsBlock := op.endsBlock
  effect := op.effect
  observesGas := op.observesGas
  inputs_lt := op.inputs_lt
  outputs_lt := op.outputs_lt

/-- The entry of a byte that is no instruction: it costs nothing and ends the run. -/
def undefined (b : UInt8) : Entry where
  opcode := b
  op := none
  baseGas := 0
  inputs := 0
  outputs := 0
  immediate := 0
  terminates := true
  endsBlock := true
  effect := .none
  observesGas := false
  inputs_lt := by decide
  outputs_lt := by decide

/-- Whether the fork has an instruction for the byte. -/
def defined (e : Entry) : Bool := e.op.isSome

/-- The name of the byte, which it has whether or not the fork defines it. -/
def name (e : Entry) : String := opcodeName e.opcode

/-- Least height of the stack before the instruction. -/
def minStack (e : Entry) : Nat := e.inputs

/-- Largest height of the stack before the instruction. -/
def maxStack (e : Entry) : Nat := stackLimit - (e.outputs - e.inputs)

/-- Change of the height. -/
def stackChange (e : Entry) : Int := e.outputs - e.inputs

end Entry

/-- The instructions and prices of a fork. -/
structure InstructionSet where
  /-- The fork. -/
  fork : Fork
  /-- Its prices. -/
  schedule : Schedule

namespace InstructionSet

/-- The instruction set of a fork. -/
def ofFork (fork : Fork) : InstructionSet := { fork, schedule := fork.rules.schedule }

/-- The instruction of a byte. -/
def op? (is : InstructionSet) (b : UInt8) : Option Op :=
  (Op.ofByte? b).filter (·.availableIn is.schedule.rules)

/-- The entry of a byte. -/
def entry (is : InstructionSet) (b : UInt8) : Entry :=
  match is.op? b with
  | some op => Entry.ofOp is.schedule op
  | none => Entry.undefined b

/-- The entries of all bytes. -/
def entries (is : InstructionSet) : Vector Entry 256 :=
  Vector.ofFn fun b => is.entry (UInt8.ofNat b.val)

/-- Number of bytes that are instructions. -/
def defined (is : InstructionSet) : Nat :=
  (List.range 256).countP fun b => (is.op? (UInt8.ofNat b)).isSome

end InstructionSet

/-! ## Texts -/

/-- `true` and `false`. -/
def boolText (b : Bool) : String := if b then "true" else "false"

/-- The text of an effect. -/
def StateEffect.text : StateEffect → String
  | none => "None"
  | always => "Always"
  | whenValue n => "WhenValue(" ++ toString n ++ ")"

/-- The text of an entry. -/
def Entry.text (e : Entry) : String :=
  "DispatchEntry \x7b name: \"" ++ e.name
    ++ "\", base_gas: " ++ toString e.baseGas
    ++ ", stack_inputs: " ++ toString e.inputs
    ++ ", stack_outputs: " ++ toString e.outputs
    ++ ", terminates: " ++ boolText e.terminates
    ++ ", state_effect: " ++ e.effect.text
    ++ ", defined: " ++ boolText e.defined ++ " \x7d"

/-- The text of an instruction set. -/
def InstructionSet.text (is : InstructionSet) : String :=
  "DispatchTable \x7b fork: " ++ is.fork.label ++ ", defined: " ++ toString is.defined ++ " \x7d"

end MeteredEvm
