import MeteredEvm.World.Call

/-!
# `MeteredEvm.World.Transaction` — calls and deployments from outside

A call or a deployment starts a frame of depth zero on a new memory. It does not end the
transaction: what the transaction has used, its transient slots and its refunds carry over to the
next call until `World.finalize`.

## Contents
* `Receipt`, `Chain.call`, `Chain.deployCode`, `Chain.finalize`.
-/

namespace MeteredEvm

/-- What a call or deployment came to. -/
structure Receipt where
  /-- The result of the outermost frame. -/
  result : Result
  /-- Refunds of the transaction so far; none if the outermost frame failed. -/
  refund : Int
  /-- The new account. -/
  created : Option Address
  deriving DecidableEq, Inhabited

namespace Chain

/-- Note the use of the accounts that a transaction names. -/
def warmNamed (c : Chain) (named : List Address) (w : World) : World :=
  if c.rules.accessLists then { w with journal := named.foldl Journal.warmAccount w.journal }
  else w

/-- Run a frame from outside. -/
def runOutermost (c : Chain) (req : CallRequest) (w : World) : Except Trap (Receipt × World) := do
  let (performed, _, w) ← c.performAll req (Memory.new c.config.memoryLimit) w
  let refund := if performed.result.isSuccess then w.journal.refund else 0
  return ({ result := performed.result, refund, created := performed.created }, w)

/-- Call an account. -/
def call (c : Chain) (caller target : Address) (value : Word) (input : ByteArray) (gas : Nat)
    (w : World) : Except Trap (Receipt × World) :=
  c.runOutermost
    { kind := .call
      caller
      codeAddress := target
      recipient := target
      value
      transfersValue := value != 0#256
      input
      gas
      isStatic := false
      depth := 0 }
    (c.warmNamed [caller, target] w)

/-- Run init code and deploy what it returns. -/
def deployCode (c : Chain) (caller : Address) (initCode : ByteArray) (value : Word) (gas : Nat)
    (w : World) : Except Trap (Receipt × World) :=
  c.runOutermost
    { kind := .create
      caller
      codeAddress := 0
      recipient := 0
      value
      transfersValue := value != 0#256
      input := initCode
      gas
      isStatic := false
      depth := 0 }
    (c.warmNamed [caller] w)

/-- End the transaction. -/
def finalize (c : Chain) (w : World) : World := w.finalize c.fork

end Chain

end MeteredEvm
