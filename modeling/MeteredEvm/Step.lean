import MeteredEvm.Effect.Words
import MeteredEvm.Effect.Data
import MeteredEvm.Effect.State
import MeteredEvm.Effect.Call
import MeteredEvm.Effect.Control

/-!
# `MeteredEvm.Step` — one instruction

## Contents
* `Op.exec` — the effect of every instruction.
* `checkStatic` — the ban on state changes.
* `step` — one instruction of the stream.
-/

namespace MeteredEvm

variable {σ : Type}

/-- An effect after which control goes to the next instruction. -/
def andNext (effect : Exec σ Unit) : Exec σ Flow := do
  effect
  return .next

/-- The effect of an instruction. -/
def Op.exec (s : Setting σ) (ins : Instruction) : Op → Exec σ Flow
  | .stop => return .halt .stop
  | .unary f => andNext (Effect.unary f.eval)
  | .binary f => andNext (Effect.binary f.eval)
  | .ternary f => andNext (Effect.ternary f.eval)
  | .exp => andNext (Effect.exp s)
  | .keccak256 => andNext Effect.keccak256
  | .reading r => andNext (Effect.reading s ins.pc r)
  | .selfBalance => andNext (Effect.selfBalance s)
  | .account field => andNext (Effect.account s field)
  | .callDataLoad => andNext (Effect.callDataLoad s)
  | .copy source => andNext (Effect.copy s source)
  | .extCodeCopy => andNext (Effect.extCodeCopy s)
  | .blockHash => andNext (Effect.blockHash s)
  | .blobHash => andNext (Effect.blobHash s)
  | .pop => andNext (do let _ ← Exec.pop)
  | .mload => andNext Effect.mload
  | .mstore => andNext Effect.mstore
  | .mstore8 => andNext Effect.mstore8
  | .mcopy => andNext Effect.mcopy
  | .sload => andNext (Effect.sload s)
  | .sstore => andNext (Effect.observing ins.correction (Effect.sstore s))
  | .tload => andNext (Effect.tload s)
  | .tstore => andNext (Effect.tstore s)
  | .jump => Effect.jump s ins.arg
  | .jumpi => Effect.jumpi s ins.arg
  | .jumpDest => andNext (Effect.enterBlock ins.arg)
  | .gas => andNext (Effect.gas ins.correction)
  | .push _ => andNext (Exec.push ins.pushed)
  | .dup n => andNext (Exec.dup (n.val + 1))
  | .swap n => andNext (Exec.swap (n.val + 1))
  | .log n => andNext (Effect.log s n.val)
  | .create salted => andNext (Effect.observing ins.correction (Effect.create s salted))
  | .call kind => andNext (Effect.observing ins.correction (Effect.call s kind))
  | .ret => do return .halt (.ret (← Effect.ret s))
  | .revert => do return .halt (.revert (← Effect.output))
  | .invalid => Exec.fault (.invalidOpcode ins.opcode)
  | .selfDestruct => do
    Effect.selfDestruct s
    return .halt .selfDestruct

/-- Whether an instruction would change state, looking at the stack where that decides. -/
def violatesStatic (effect : StateEffect) (stack : Stack) : Bool :=
  match effect with
  | .none => false
  | .always => true
  | .whenValue depth =>
    match stack.peek? depth with
    | some w => w != 0#256
    | none => false

/-- Fault if state changes are banned and the instruction is one. -/
def checkStatic (guarded : Bool) (op : Op) : Exec σ Unit := do
  if guarded && violatesStatic op.effect (← get).stack then Exec.fault .staticCallViolation

/-- One instruction of the stream. A byte that the fork does not define faults. -/
def step (s : Setting σ) (guarded : Bool) (ins : Instruction) : Exec σ Flow := do
  match ins.op with
  | some op => do
    checkStatic guarded op
    op.exec s ins
  | none => Exec.fault (.invalidOpcode ins.opcode)

end MeteredEvm
