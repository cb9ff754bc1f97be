import MeteredEvm.ContractAddress
import MeteredEvm.Frame
import MeteredEvm.World.Basic

/-!
# `MeteredEvm.World.Call` — frames that call frames

The world is a host whose calls run other frames on it. A frame at the depth limit makes no calls,
so the frames inside each other number at most one more than the limit; `Chain.hostAt n` is the host
for frames with `n` levels left below them, by recursion on `n`.

## Contents
* `Chain` — the rules and the block around the transactions.
* `Chain.answer` — queries.
* `Chain.runCall`, `Chain.runCreate`, `Chain.perform` — one child frame, on a host for its children.
* `Chain.hostWith`, `Chain.hostAt`, `Chain.performAll`, `Chain.host`.
-/

namespace MeteredEvm

/-- The rules and the block around the transactions. -/
structure Chain where
  config : Config := {}
  environment : Environment := {}
  /-- Hashes of the blocks before. -/
  blockHashes : Std.ExtTreeMap Nat Hash := {}

/-! ## Results without a run -/

/-- The result of a child that did not start: it gives all gas back. -/
def Result.untouched (gas : Nat) : Result where
  outcome := .reverted .empty
  gasRemaining := gas
  gasUsed := 0
  refund := 0

/-- The result of a creation that is refused: it takes all gas. -/
def Result.consumed (gas : Nat) : Result where
  outcome := .faulted .outOfGas
  gasRemaining := 0
  gasUsed := gas
  refund := 0

/-- The result of a child frame, with the account that it created. -/
structure Performed where
  result : Result
  created : Option Address := none
  deriving DecidableEq, Inhabited

/-- What the caller gets to see. -/
def Performed.callResult (p : Performed) : CallResult where
  success := p.result.isSuccess
  gasLeft := p.result.gasRemaining
  output := p.result.output
  created := p.created

namespace Chain

/-- The fork. -/
def fork (c : Chain) : Fork := c.config.fork

/-- The rules of the fork. -/
def rules (c : Chain) : Rules := c.fork.rules

/-- The chain with the hash of a block set. -/
def setBlockHash (c : Chain) (number : Nat) (hash : Hash) : Chain :=
  { c with blockHashes := c.blockHashes.insert number hash }

/-! ## Queries -/

/-- The answer to a query. -/
def answer (c : Chain) : (q : Query) → World → q.Answer × World
  | .environment, w => (c.environment, w)
  | .storage a key, w => (w.storage a key, w)
  | .initialStorage a key, w => (w.initialStorage a key, w)
  | .setStorage a key value, w => ((), w.setStorage a key value)
  | .transient a key, w => (w.journal.transient.getD ⟨a, key⟩ 0, w)
  | .setTransient a key value, w =>
    let transient := w.journal.transient.insert ⟨a, key⟩ value
    ((), { w with journal := { w.journal with transient } })
  | .markWarm access, w =>
    let (first, warm) := w.journal.warm.mark access
    (first, { w with journal := { w.journal with warm } })
  | .balance a, w => (w.journal.balance a, w)
  | .code a, w => ((w.journal.account a).code, w)
  | .codeHash a, w => (w.codeHash c.rules.emptyAccountRule a, w)
  | .isEmpty a, w => (w.isEmpty a, w)
  | .blockHash n, w => (c.blockHashes.getD n 0, w)
  | .emitLog log, w =>
    ((), { w with journal := { w.journal with logs := w.journal.logs.push log } })
  | .markForDestruction a beneficiary, w => w.markForDestruction c.fork a beneficiary
  | .staticViolation, w => (false, w)

/-! ## Calls -/

/-- The journal on which the code of a call runs: value has moved, and the recipient exists where
    the fork wants it to. `none` if the caller cannot pay the value. -/
def enterCall? (c : Chain) (req : CallRequest) (j : Journal) : Option Journal :=
  if req.transfersValue then
    (j.transfer? req.caller req.recipient req.value).map (·.touch req.recipient)
  else if c.rules.emptyAccountRule then some j
  else some (j.touch req.recipient)

/-- The context of a call. -/
def callContext (req : CallRequest) : CallContext where
  address := req.recipient
  caller := req.caller
  value := req.value
  isStatic := req.isStatic
  depth := req.depth
  isCreate := false

/-- Run the child of a call. If it fails, the journal is what it was. -/
def runCall (c : Chain) (host : Host World) (req : CallRequest) (memory : Memory) (w : World) :
    Except Trap (Performed × Memory × World) :=
  match c.enterCall? req w.journal with
  | none => .ok ({ result := .untouched req.gas }, memory, w)
  | some j => do
    let code := (j.account req.codeAddress).code
    let (result, memory, after) ←
      execute c.config host (callContext req) req.input req.gas code memory { w with journal := j }
    let journal := if result.isSuccess then after.journal.addRefund result.refund else w.journal
    return ({ result }, memory, { after with journal })

/-! ## Creations -/

/-- The address of a new account. -/
def newAddress (req : CallRequest) (nonce : Nat) : Address :=
  match req.kind with
  | .create2 salt => ContractAddress.ofSalt req.caller salt req.input
  | _ => ContractAddress.ofNonce req.caller nonce

/-- The journal after a creation has been counted and its address used; this part stays whatever
    becomes of the creation. -/
def countCreation (c : Chain) (sender address : Address) (j : Journal) : Journal :=
  let j := j.update sender Account.countCreation
  if c.rules.accessLists then j.warmAccount address else j

/-- The journal on which init code runs: a new account with its endowment. -/
def enterCreate (c : Chain) (req : CallRequest) (address : Address) (j : Journal) : Journal :=
  let fresh := fun (a : Account) =>
    { a with storage := {}, nonce := if c.rules.emptyAccountRule then 1 else a.nonce }
  let j := (j.update address fresh).transfer req.caller address req.value
  { j with created := j.created.insert address }

/-- The context of a creation. -/
def createContext (req : CallRequest) (address : Address) : CallContext where
  address
  caller := req.caller
  value := req.value
  isStatic := false
  depth := req.depth
  isCreate := true

/-- Whether code may not be deployed: it is too long, or it starts with a byte that is kept for
    other uses. -/
def rejects (c : Chain) (code : ByteArray) : Bool :=
  (c.rules.codeSizeLimit && decide (Gas.maxCodeSize < code.size)) ||
    (c.fork.since .london && code[0]? == some 0xef)

/-- Price of deploying code. -/
def deposit (code : ByteArray) : Nat := Gas.codeByte * code.size

/-- Whether a creation that ran to its end comes to nothing. At first, code that could not be paid
    for was dropped and the account stayed. -/
def refuses (c : Chain) (code : ByteArray) (gas : Nat) : Bool :=
  c.rejects code || (decide (gas < deposit code) && c.fork.since .homestead)

/-- The result and the journal of a creation that comes to an account. -/
def deploy (address : Address) (code : ByteArray) (result : Result) (j : Journal) :
    Result × Journal :=
  let result := { result with outcome := .stopped .empty }
  if deposit code ≤ result.gasRemaining then
    ({ result with
        gasRemaining := result.gasRemaining - deposit code
        gasUsed := result.gasUsed + deposit code },
      (j.update address fun a => { a with code }).addRefund result.refund)
  else (result, j.addRefund result.refund)

/-- What becomes of a creation whose init code has run; `before` is the journal to go back to. -/
def settleCreate (c : Chain) (req : CallRequest) (address : Address) (before : Journal)
    (result : Result) (after : World) : Performed × World :=
  match result.outcome with
  | .stopped code =>
    if c.refuses code result.gasRemaining then
      ({ result := .consumed req.gas }, { after with journal := before })
    else
      let (result, journal) := deploy address code result after.journal
      ({ result, created := some address }, { after with journal })
  | _ => ({ result }, { after with journal := before })

/-- Run the child of a creation. -/
def runCreate (c : Chain) (host : Host World) (req : CallRequest) (memory : Memory) (w : World) :
    Except Trap (Performed × Memory × World) :=
  if w.journal.balance req.caller < req.value then
    .ok ({ result := .untouched req.gas }, memory, w)
  else
    let address := newAddress req (w.journal.account req.caller).nonce
    let before := c.countCreation req.caller address w.journal
    if (before.account address).isTaken then
      .ok ({ result := .consumed req.gas }, memory, { w with journal := before })
    else do
      let (result, memory, after) ←
        execute c.config host (createContext req address) .empty req.gas req.input memory
          { w with journal := c.enterCreate req address before }
      let (performed, w) := c.settleCreate req address before result after
      return (performed, memory, w)

/-! ## The host -/

/-- Run a child frame, on a host for its own children. -/
def perform (c : Chain) (host : Host World) (req : CallRequest) (memory : Memory) (w : World) :
    Except Trap (Performed × Memory × World) :=
  if req.kind.isCreate then c.runCreate host req memory w else c.runCall host req memory w

/-- A way of running child frames, as the caller sees it. -/
abbrev Performer := CallRequest → Memory → World → Except Trap (Performed × Memory × World)

/-- The world as a host, given how child frames are run. -/
def hostWith (c : Chain) (perform : Performer) : Host World where
  answer := c.answer
  call req memory w := do
    let (performed, memory, w) ← perform req memory w
    return (performed.callResult, memory, w)

/-- The world as a host for frames that have `levels` levels of frames below them. -/
def hostAt (c : Chain) : (levels : Nat) → Host World
  | 0 => c.hostWith fun _ _ _ => .error .depth
  | levels + 1 => c.hostWith fun req memory w => c.perform (c.hostAt levels) req memory w

/-- Levels of frames below a frame at a given depth. -/
def levelsBelow (c : Chain) (depth : Nat) : Nat := c.config.maxCallDepth - depth

/-- Run a frame and all frames below it. -/
def performAll (c : Chain) : Performer := fun req memory w =>
  c.perform (c.hostAt (c.levelsBelow req.depth)) req memory w

/-- The world as a host. -/
def host (c : Chain) : Host World := c.hostWith c.performAll

end Chain

end MeteredEvm
