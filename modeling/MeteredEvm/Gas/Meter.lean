import MeteredEvm.Word
import MeteredEvm.Fault

/-!
# `MeteredEvm.Gas.Meter` — the gas meter of a frame

A meter holds what a frame may still spend and the refunds it has earned. Amounts are 64-bit: giving
gas back stops at the largest amount. Refunds are exact integers and may go below zero, since one
frame can pay for what another was refunded.

## Contents
* `Meter`, `Meter.full`, `Meter.spent`.
* `Meter.charge?`, `Meter.charge`, `Meter.giveBack`, `Meter.refund`, `Meter.exhaust`,
  `Meter.dropRefund`.
-/

namespace MeteredEvm

/-- The gas meter of one frame. -/
structure Meter where
  /-- What the frame was given. -/
  limit : Nat
  /-- What is left. -/
  remaining : Nat
  /-- Refunds earned less refunds taken back. -/
  refunded : Int := 0
  deriving DecidableEq, Repr, Inhabited

namespace Meter

/-- A meter with all of `limit` left. -/
def full (limit : Nat) : Meter := { limit, remaining := limit }

/-- What has been spent. Gas given back beyond the limit counts as nothing spent. -/
def spent (m : Meter) : Nat := m.limit - m.remaining

/-- The meter after paying `cost`, if it can pay. -/
def charge? (m : Meter) (cost : Nat) : Option Meter :=
  if cost ≤ m.remaining then some { m with remaining := m.remaining - cost } else none

/-- Pay `cost`. A meter that cannot pay is left as it is. -/
def charge (m : Meter) (cost : Nat) : Except Fault Meter :=
  match m.charge? cost with
  | some m' => .ok m'
  | none => .error .outOfGas

/-- Hand back gas that was paid and not used. -/
def giveBack (m : Meter) (amount : Nat) : Meter :=
  { m with remaining := min (m.remaining + amount) (u64Size - 1) }

/-- Add to the refunds; a negative amount takes refunds back. -/
def refund (m : Meter) (amount : Int) : Meter := { m with refunded := m.refunded + amount }

/-- What a fault leaves: no gas and no refunds. -/
def exhaust (m : Meter) : Meter := { m with remaining := 0, refunded := 0 }

/-- What a revert leaves: the gas, but no refunds. -/
def dropRefund (m : Meter) : Meter := { m with refunded := 0 }

end Meter

end MeteredEvm
