import MeteredEvm.Machine
import MeteredEvm.Opcode

/-!
# `MeteredEvm.Effect.Call` — calls and creations

A call or creation hands part of the gas to a child frame and takes back what the child leaves. At
the depth limit there is no child; the instruction then ends as if the child had failed at once.

## Contents
* `Effect.CallOperands`, `Effect.popCallOperands`, `Effect.callRequest`, `Effect.call`.
* `Effect.createRequest`, `Effect.create`.
-/

namespace MeteredEvm.Effect

open Exec

variable {σ : Type}

/-! ## Calls -/

/-- The kind of child that a call instruction starts. -/
def kindOf : CallOp → CallKind
  | .call => .call
  | .callCode => .callCode
  | .delegateCall => .delegateCall
  | .staticCall => .staticCall

/-- Whether a call instruction has a value among its operands. -/
def takesValue : CallOp → Bool
  | .call | .callCode => true
  | .delegateCall | .staticCall => false

/-- The operands of a call. -/
structure CallOperands where
  /-- Gas asked for. -/
  requested : Word
  /-- The account whose code runs. -/
  target : Address
  /-- The value sent; zero for calls that send none. -/
  value : Word
  inOffset : Word
  inLen : Word
  outOffset : Word
  outLen : Word

/-- Take the value of a call off the stack, if the call has one. -/
def popValue (op : CallOp) : Exec σ Word := if takesValue op then pop else pure 0#256

/-- Take the operands of a call off the stack. -/
def popCallOperands (op : CallOp) : Exec σ CallOperands := do
  let requested ← pop
  let target ← popAddress
  let value ← popValue op
  let inOffset ← pop
  let inLen ← pop
  let outOffset ← pop
  let outLen ← pop
  return { requested, target, value, inOffset, inLen, outOffset, outLen }

/-- The gas that comes for free with value. -/
def stipend (value : Word) : Nat := if value = 0#256 then 0 else Gas.callStipend

/-- The request for a child with the given input and gas. A delegated call runs on behalf of the
    frame's own caller, a borrowed code on the frame's own account. -/
def callRequest (context : CallContext) (op : CallOp) (o : CallOperands) (input : ByteArray)
    (gas : Nat) : CallRequest where
  kind := kindOf op
  caller := match op with
    | .delegateCall => context.caller
    | _ => context.address
  codeAddress := o.target
  recipient := match op with
    | .delegateCall | .callCode => context.address
    | _ => o.target
  value := match op with
    | .delegateCall => context.value
    | _ => o.value
  transfersValue := o.value != 0#256
  input
  gas
  isStatic := context.isStatic || op == .staticCall
  depth := context.depth + 1

/-- Pay for sending value. -/
def payForValue (value : Word) : Exec σ Unit := if value ≠ 0#256 then charge Gas.callValue else pure ()

/-- Pay for an account that a call brings into being. -/
def payForNewAccount (s : Setting σ) (op : CallOp) (o : CallOperands) : Exec σ Unit := do
  if op = .call ∧ (o.value ≠ 0#256 ∨ s.schedule.rules.emptyAccountRule = false) then
    if ← ask s (.isEmpty o.target) then charge Gas.newAccount

/-- Pay for reaching the account, for sending value, and for an account that comes into being. -/
def payForCall (s : Setting σ) (op : CallOp) (o : CallOperands) : Exec σ Unit := do
  touchAccount s o.target
  payForValue o.value
  payForNewAccount s op o

/-- Gas for the child. Before the rule that keeps one 64th back, too large a request faults. -/
def forwarded (s : Setting σ) (requested : Word) : Exec σ Nat := do
  match s.schedule.forwarded (← remaining) requested with
  | .ok gas => return gas
  | .error f => fault f

/-- Write what a child returned to the range that the caller has set apart for it, as far as it
    goes. -/
def storeOutput (range : Option (Nat × Nat)) (bytes : ByteArray) : Exec σ Unit :=
  match range with
  | some (offset, n) => write offset (bytes.extract 0 (min n bytes.size))
  | none => pure ()

/-- Run the child of a call and take its results. -/
def runCall (s : Setting σ) (op : CallOp) (o : CallOperands) (input output : Option (Nat × Nat))
    (childGas : Nat) (add : Addition σ := .u64) : Exec σ Unit := do
  charge childGas
  let data ← readRange input
  let gas ← add.amount (childGas + stipend o.value)
  let result ← Exec.call s (callRequest s.context op o data gas)
  add.giveBack result.gasLeft
  storeOutput output result.output
  setReturnData result.output
  push (Word.ofBool result.success)

/-- What stands for the child of a call at the depth limit. It gives back all that it was given. -/
def skipCall (value : Word) (add : Addition σ := .u64) : Exec σ Unit := do
  add.giveBack (stipend value)
  push 0#256

/-- A call. -/
def call (s : Setting σ) (op : CallOp) (add : Addition σ := .u64) : Exec σ Unit := do
  let o ← popCallOperands op
  let input ← cover o.inOffset o.inLen
  let output ← cover o.outOffset o.outLen
  payForCall s op o
  let childGas ← forwarded s o.requested
  setReturnData .empty
  if s.maxCallDepth ≤ s.context.depth then skipCall o.value add
  else runCall s op o input output childGas add

/-! ## Creations -/

/-- The request for a child that runs init code. -/
def createRequest (context : CallContext) (kind : CallKind) (value : Word) (initCode : ByteArray)
    (gas : Nat) : CallRequest where
  kind
  caller := context.address
  codeAddress := 0
  recipient := 0
  value
  transfersValue := value != 0#256
  input := initCode
  gas
  isStatic := false
  depth := context.depth + 1

/-- The word that a creation leaves: the new address, or zero. -/
def createdWord (result : CallResult) : Word :=
  match result.success, result.created with
  | true, some a => Word.ofAddress a
  | _, _ => 0#256

/-- What can be seen of what the child of a creation returned: nothing, unless it failed. -/
def keepFailure (result : CallResult) : Exec σ Unit :=
  if result.success then pure () else setReturnData result.output

/-- Gas for the child of a creation, out of `left`. -/
def createGas (rules : Rules) (left : Nat) : Nat :=
  if rules.allButOne64th then left - left / 64 else left

/-- Run the child of a creation and take its results. -/
def runCreate (s : Setting σ) (kind : CallKind) (value : Word) (range : Option (Nat × Nat))
    (add : Addition σ := .u64) : Exec σ Unit := do
  let childGas := createGas s.schedule.rules (← remaining)
  charge childGas
  let initCode ← readRange range
  let result ← Exec.call s (createRequest s.context kind value initCode childGas)
  add.giveBack result.gasLeft
  keepFailure result
  push (createdWord result)

/-- The kind of a creation; the salt comes off the stack. -/
def popCreateKind (salted : Bool) : Exec σ CallKind := do
  if salted then
    let salt ← pop
    return .create2 salt
  else return .create

/-- Init code must not be larger than the fork allows. -/
def checkInitCode (s : Setting σ) (len : Word) : Exec σ Unit :=
  if s.schedule.rules.initCodeLimit && decide (Gas.maxInitCodeSize < len.clampU64) then
    fault .initCodeTooLarge
  else pure ()

/-- Price of init code by its length: a price of its own where the fork has one, and hashing where
    the address depends on it. -/
def initCodeCost (rules : Rules) (salted : Bool) (size : Nat) : Nat × Nat :=
  (if rules.initCodeLimit then Gas.initCode size else 0, if salted then Gas.keccak size else 0)

/-- A creation. -/
def create (s : Setting σ) (salted : Bool) (add : Addition σ := .u64) : Exec σ Unit := do
  let value ← pop
  let offset ← pop
  let len ← pop
  let kind ← popCreateKind salted
  checkInitCode s len
  let range ← cover offset len
  let cost := initCodeCost s.schedule.rules salted (rangeSize range)
  charge cost.1
  charge cost.2
  setReturnData .empty
  if s.maxCallDepth ≤ s.context.depth then push 0#256
  else runCreate s kind value range add

end MeteredEvm.Effect
