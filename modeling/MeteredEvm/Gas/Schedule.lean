import MeteredEvm.Fork
import MeteredEvm.Word
import MeteredEvm.Fault

/-!
# `MeteredEvm.Gas.Schedule` — what things cost

Fixed prices, the prices that moved between forks, and the formulas for costs that depend on
operands.

## Contents
* `Gas.memory`, `Gas.memory?`, `Gas.copy`, `Gas.keccak`, `Gas.log` — sizes.
* `Schedule`, `Rules.schedule` — the prices of a fork.
* `Schedule.exp`, `Schedule.forwarded`, `Schedule.sstore` — exponents, calls, storage writes.
-/

namespace MeteredEvm

/-! ## Fixed prices -/

namespace Gas

/-- Reading from a slot or account that was accessed before. -/
def warmRead : Nat := 100
/-- First read of a storage slot. -/
def coldSlot : Nat := 2100
/-- First access to an account. -/
def coldAccount : Nat := 2600
/-- Writing to a slot that was zero. -/
def sstoreSet : Nat := 20000
/-- Writing to a slot that was not zero. -/
def sstoreReset : Nat := 5000
/-- A storage write needs more gas left than this. -/
def sstoreSentry : Nat := 2300
/-- Sending value with a call. -/
def callValue : Nat := 9000
/-- Gas that the receiver of value gets for free. -/
def callStipend : Nat := 2300
/-- Bringing an account into being. -/
def newAccount : Nat := 25000
/-- Starting a creation. -/
def create : Nat := 32000
/-- Keeping one byte of deployed code. -/
def codeByte : Nat := 200
/-- Largest size of deployed code. -/
def maxCodeSize : Nat := 0x6000
/-- Largest size of init code. -/
def maxInitCodeSize : Nat := 2 * maxCodeSize

/-! ## Costs by size -/

/-- Total price of a memory of `words` words: linear, plus a quadratic part. -/
def memory (words : Nat) : Nat := 3 * words + words * words / 512

/-- `Gas.memory` as 64-bit arithmetic computes it: there is no price once the square is out of
    range. -/
def memory? (words : Nat) : Option Nat :=
  if words * words < u64Size then some (memory words) else none

/-- Copying `len` bytes. -/
def copy (len : Nat) : Nat := 3 * wordsFor len

/-- Hashing `len` bytes, beside the fixed price. -/
def keccak (len : Nat) : Nat := 6 * wordsFor len

/-- Topics and data of a log, beside the fixed price. -/
def log (topics len : Nat) : Nat := 375 * topics + 8 * len

/-- Init code of `len` bytes. -/
def initCode (len : Nat) : Nat := 2 * wordsFor len

end Gas

/-! ## Prices of a fork -/

/-- The prices that depend on the fork. -/
structure Schedule where
  /-- The rules that the prices follow. -/
  rules : Rules
  /-- `SLOAD`. -/
  sload : Nat
  /-- `BALANCE`. -/
  balance : Nat
  /-- `EXTCODESIZE` and `EXTCODECOPY`. -/
  extCode : Nat
  /-- `EXTCODEHASH`. -/
  extCodeHash : Nat
  /-- The call instructions. -/
  call : Nat
  /-- `SELFDESTRUCT`. -/
  selfDestruct : Nat
  /-- One byte of an exponent. -/
  expByte : Nat
  /-- What the first read of a slot costs on top. -/
  coldSlotSurcharge : Nat
  /-- What the first access to an account costs on top. -/
  coldAccountSurcharge : Nat
  /-- Refund for clearing a slot. -/
  clearRefund : Int
  /-- Refund for the first destruction of an account. -/
  selfDestructRefund : Int
  deriving DecidableEq, Repr, Inhabited

/-- The price of a state access by the rules that repriced it, newest first. -/
def Rules.tiered (r : Rules) (accessLists netSstore allButOne64th otherwise : Nat) : Nat :=
  if r.accessLists then accessLists
  else if r.netSstore then netSstore
  else if r.allButOne64th then allButOne64th
  else otherwise

/-- The prices under given rules. -/
def Rules.schedule (r : Rules) : Schedule where
  rules := r
  sload := r.tiered Gas.warmRead 800 200 50
  balance := r.tiered Gas.warmRead 700 400 20
  extCode := r.tiered Gas.warmRead 700 700 20
  extCodeHash := r.tiered Gas.warmRead 700 400 400
  call := r.tiered Gas.warmRead 700 700 40
  selfDestruct := if r.allButOne64th then 5000 else 0
  expByte := if r.expensiveExp then 50 else 10
  coldSlotSurcharge := if r.accessLists then Gas.coldSlot - Gas.warmRead else 0
  coldAccountSurcharge := if r.accessLists then Gas.coldAccount - Gas.warmRead else 0
  clearRefund := if r.reducedRefunds then 4800 else 15000
  selfDestructRefund := if r.reducedRefunds then 0 else 24000

/-- Price and refund of a storage write. -/
structure WriteCost where
  /-- Gas to pay. -/
  gas : Nat
  /-- Refund earned, or taken back if negative. -/
  refund : Int
  deriving DecidableEq, Repr, Inhabited

namespace Schedule

/-- Price of an exponent, by its length in bytes. -/
def exp (s : Schedule) (exponent : Word) : Nat := s.expByte * exponent.byteLength

/-- Gas that goes to a child out of `remaining`, everything else being paid. Either the request is
    cut to all but one 64th, or a request that cannot be met is refused. -/
def forwarded (s : Schedule) (remaining : Nat) (requested : Word) : Except Fault Nat :=
  if s.rules.allButOne64th then
    let cap := remaining - remaining / 64
    .ok ((requested.toU64?.map (min · cap)).getD cap)
  else
    match requested.toU64? with
    | some gas => if gas ≤ remaining then .ok gas else .error .outOfGas
    | none => .error .outOfGas

/-- Looking at a slot, where writes are priced by their net effect. -/
def slotRead (s : Schedule) : Nat := if s.rules.accessLists then Gas.warmRead else 800

/-- The first change of a slot, where writes are priced by their net effect. -/
def slotReset (s : Schedule) : Nat :=
  if s.rules.accessLists then Gas.sstoreReset - Gas.coldSlot else Gas.sstoreReset

/-- The net price of a write. Only the first change of a slot is paid in full; later ones pay for a
    look, and give back or earn what the slot's fate comes to. -/
def netWrite (s : Schedule) (initial current new : Word) : WriteCost :=
  if current = new then ⟨s.slotRead, 0⟩
  else if initial = current then
    { gas := if initial = 0#256 then Gas.sstoreSet else s.slotReset
      refund := if initial ≠ 0#256 ∧ new = 0#256 then s.clearRefund else 0 }
  else
    let cleared : Int :=
      if initial = 0#256 then 0
      else if current = 0#256 then - s.clearRefund
      else if new = 0#256 then s.clearRefund
      else 0
    let restored : Int :=
      if initial ≠ new then 0
      else if initial = 0#256 then (Gas.sstoreSet - s.slotRead : Nat)
      else (s.slotReset - s.slotRead : Nat)
    ⟨s.slotRead, cleared + restored⟩

/-- Price and refund of writing `new` over a slot that held `initial` when the transaction started
    and holds `current` now. -/
def sstore (s : Schedule) (initial current new : Word) (wasCold : Bool) : WriteCost :=
  if s.rules.netSstore then
    let net := s.netWrite initial current new
    let cold := if wasCold && s.rules.accessLists then Gas.coldSlot else 0
    { net with gas := net.gas + cold }
  else
    { gas := if current = 0#256 ∧ new ≠ 0#256 then Gas.sstoreSet else Gas.sstoreReset
      refund := if current ≠ 0#256 ∧ new = 0#256 then s.clearRefund else 0 }

end Schedule

end MeteredEvm
