import MeteredEvm.Machine

/-!
# `MeteredEvm.Effect.State` — instructions that touch the state

Storage, transient storage, logs and self-destruction.

## Contents
* `Effect.sload`, `Effect.sstore`, `Effect.tload`, `Effect.tstore`.
* `Effect.log`, `Effect.selfDestruct`.
-/

namespace MeteredEvm.Effect

open Exec

variable {σ : Type}

/-- Read a storage slot. -/
def sload (s : Setting σ) : Exec σ Unit := do
  let key ← top
  touch s s.schedule.coldSlotSurcharge (.slot s.context.address key)
  setTop (← ask s (.storage s.context.address key))

/-- Where writes are priced by their net effect, one needs more gas left than comes for free with a
    call. -/
def requireSentry (s : Setting σ) : Exec σ Unit := do
  if s.schedule.rules.netSstore && decide ((← remaining) ≤ Gas.sstoreSentry) then fault .outOfGas

/-- Note the use of a slot that is written, and tell whether it is the first. -/
def slotWasCold (s : Setting σ) (key : Word) : Exec σ Bool :=
  if s.schedule.rules.accessLists then ask s (.markWarm (.slot s.context.address key))
  else pure false

/-- The value that the price of a write counts from: the one at the start of the transaction where
    writes are priced by their net effect, else the one that is there. -/
def initialValue (s : Setting σ) (key current : Word) : Exec σ Word :=
  if s.schedule.rules.netSstore then ask s (.initialStorage s.context.address key)
  else pure current

/-- Write a storage slot. -/
def sstore (s : Setting σ) : Exec σ Unit := do
  let key ← pop
  let value ← pop
  requireSentry s
  let wasCold ← slotWasCold s key
  let current ← ask s (.storage s.context.address key)
  let initial ← initialValue s key current
  let cost := s.schedule.sstore initial current value wasCold
  charge cost.gas
  refund cost.refund
  ask s (.setStorage s.context.address key value)

/-- Read a transient slot. -/
def tload (s : Setting σ) : Exec σ Unit := do
  let key ← top
  setTop (← ask s (.transient s.context.address key))

/-- Write a transient slot. -/
def tstore (s : Setting σ) : Exec σ Unit := do
  let key ← pop
  let value ← pop
  ask s (.setTransient s.context.address key value)

/-- Emit a log of a range of memory. -/
def log (s : Setting σ) (count : Nat) : Exec σ Unit := do
  let offset ← pop
  let len ← pop
  let topics ← popMany count
  let range ← cover offset len
  charge (Gas.log count (rangeSize range))
  let data ← readRange range
  ask s (.emitLog { address := s.context.address, topics, data })

/-- Whether a beneficiary that comes into being has to be paid for: always, or, where empty accounts
    count as absent, only if there is a balance to send. -/
def sendsBalance (s : Setting σ) : Exec σ Bool := do
  if s.schedule.rules.emptyAccountRule then
    let balance ← ask s (.balance s.context.address)
    return balance != 0#256
  else return true

/-- Pay for a beneficiary that comes into being. -/
def payForBeneficiary (s : Setting σ) (beneficiary : Address) : Exec σ Unit := do
  if s.schedule.rules.allButOne64th then
    if ← sendsBalance s then
      if ← ask s (.isEmpty beneficiary) then charge Gas.newAccount

/-- Schedule the frame's own account for destruction in favour of another. -/
def selfDestruct (s : Setting σ) : Exec σ Unit := do
  let beneficiary ← popAddress
  touch s (if s.schedule.rules.accessLists then Gas.coldAccount else 0) (.account beneficiary)
  payForBeneficiary s beneficiary
  let first ← ask s (.markForDestruction s.context.address beneficiary)
  if first && decide (0 < s.schedule.selfDestructRefund) then refund s.schedule.selfDestructRefund

end MeteredEvm.Effect
