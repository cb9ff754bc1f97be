import MeteredEvm.Machine

/-!
# `MeteredEvm.Effect.Control` — block entries, jumps and ends

## Contents
* `Effect.enterBlock` — the checks and the charge for a whole block.
* `Effect.jump`, `Effect.jumpi`.
* `Effect.gas`, `Effect.observing` — looking at the gas that is left.
* `Effect.output`, `Effect.ret`.
-/

namespace MeteredEvm.Effect

open Exec

variable {σ : Type}

/-- Pay for a block and check the stack for all of its instructions. -/
def enterBlock (arg : Arg) : Exec σ Unit := do
  match arg with
  | .block cost => do
    charge cost.gas
    let height := (← get).stack.height
    if height < cost.required then fault .stackUnderflow
    else if stackLimit < height + cost.growth then fault .stackOverflow
  | _ => pure ()

/-- The place in the stream that a jump to `dest` goes to. A jump that the analysis has resolved
    does not look at the word. -/
def destination (s : Setting σ) (arg : Arg) (dest : Word) : Exec σ Nat :=
  match arg with
  | .target index => pure index
  | _ =>
    match s.code.jumpTarget dest with
    | some index => pure index
    | none => fault .invalidJump

/-- A jump. -/
def jump (s : Setting σ) (arg : Arg) : Exec σ Flow := do
  let dest ← pop
  return .jump (← destination s arg dest)

/-- A jump if a word is not zero. -/
def jumpi (s : Setting σ) (arg : Arg) : Exec σ Flow := do
  let dest ← pop
  let condition ← pop
  if condition = 0#256 then return .next
  else return .jump (← destination s arg dest)

/-- Push the gas that a meter without blocks would show. -/
def gas (correction : Nat) (add : Addition σ := .u64) : Exec σ Unit := do
  let left ← add.amount ((← remaining) + correction)
  push (BitVec.ofNat 256 left)

/-- An effect that looks at the gas that is left. What the rest of the block has paid is handed back
    first and paid again at the end, so that the effect sees what a meter without blocks would
    show. -/
def observing (correction : Nat) (effect : Exec σ Unit) (add : Addition σ := .u64) :
    Exec σ Unit := do
  add.giveBack correction
  effect
  charge correction

/-- The range of memory that a frame hands out. -/
def output : Exec σ ByteArray := do
  let offset ← pop
  let len ← pop
  readRange (← cover offset len)

/-- What init code returns must not be larger than code may be. -/
def checkCodeSize (s : Setting σ) : Exec σ Unit := do
  if s.context.isCreate && s.schedule.rules.codeSizeLimit then
    let len ← peek 1
    if Gas.maxCodeSize < len.clampU64 then fault .outputTooLarge

/-- Return. -/
def ret (s : Setting σ) : Exec σ ByteArray := do
  checkCodeSize s
  output

end MeteredEvm.Effect
