import MeteredEvm.InstructionSet
import MeteredEvm.Hex

/-!
# `MeteredEvm.Code.Instruction` — the stream that the machine runs

Analysed code is a stream of instructions. Each carries what the analysis found out about it: the
word that it pushes, the requirements of the block that starts here, the place in the stream that a
constant jump goes to, or the gas that the rest of its block has already paid.

## Contents
* `BlockCost` — what has to hold, and is paid, on entry to a block.
* `Arg`, `Instruction`, with their texts.
-/

namespace MeteredEvm

/-- What is checked and charged when a block is entered. -/
structure BlockCost where
  /-- Static price of all instructions of the block. -/
  gas : Nat
  /-- Least height of the stack. -/
  required : Nat
  /-- How far above its height on entry the stack can rise. -/
  growth : Nat
  deriving DecidableEq, Repr, Inhabited

/-- What the analysis adds to an instruction. -/
inductive Arg where
  | none
  /-- The word to push. -/
  | push (w : Word)
  /-- A block starts here. -/
  | block (cost : BlockCost)
  /-- A jump to a known place, as an index into the stream. -/
  | target (index : Nat)
  /-- Static gas of the rest of the block, paid on entry. -/
  | correction (gas : Nat)
  deriving DecidableEq, Repr, Inhabited

/-- An instruction of the stream. -/
structure Instruction where
  /-- Where it stands in the code. -/
  pc : Nat
  /-- Its byte. -/
  opcode : UInt8
  /-- What it does, if the fork defines the byte. -/
  op : Option Op
  /-- What the analysis adds. -/
  arg : Arg
  deriving DecidableEq, Inhabited

namespace Instruction

/-- The entry of a block that does not start with a jump destination. It stands for no byte of the
    code and only carries the cost of the block. -/
def blockEntry (pc : Nat) (cost : BlockCost) : Instruction :=
  { pc, opcode := Op.jumpDest.opcode, op := some .jumpDest, arg := .block cost }

/-- Gas that the instructions after this one in its block have already paid. -/
def correction (ins : Instruction) : Nat :=
  match ins.arg with
  | .correction gas => gas
  | _ => 0

/-- The word that the instruction pushes. -/
def pushed (ins : Instruction) : Word :=
  match ins.arg with
  | .push w => w
  | _ => 0#256

end Instruction

/-! ## Texts -/

/-- The text of a block cost. -/
def BlockCost.text (c : BlockCost) : String :=
  "BlockCost \x7b gas: " ++ toString c.gas ++ ", stack_required: " ++ toString c.required
    ++ ", stack_max_growth: " ++ toString c.growth ++ " \x7d"

/-- The text of an argument. -/
def Arg.text : Arg → String
  | none => "None"
  | push w => "Push(" ++ toString w.toNat ++ ")"
  | block cost => "Block(" ++ cost.text ++ ")"
  | target index => "JumpTarget(" ++ toString index ++ ")"
  | correction gas => "GasCorrection(" ++ toString gas ++ ")"

/-- The text of an instruction. -/
def Instruction.text (ins : Instruction) : String :=
  "Instruction \x7b pc: " ++ toString ins.pc ++ ", op: \"" ++ opcodeName ins.opcode
    ++ "\", arg: " ++ ins.arg.text ++ " \x7d"

end MeteredEvm
