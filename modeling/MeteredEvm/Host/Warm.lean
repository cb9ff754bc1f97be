import Std.Data.ExtTreeSet
import MeteredEvm.Host.Basic

/-!
# `MeteredEvm.Host.Warm` — slots, and what has been used before

## Contents
* `Slot`, with its order — a storage slot of an account.
* `WarmSet`, `WarmSet.contains`, `WarmSet.insert`, `WarmSet.mark` — the uses of a transaction so far.
-/

namespace MeteredEvm

/-! ## Slots -/

instance : Std.TransOrd Address := inferInstanceAs (Std.TransOrd (BitVec 160))

/-- A storage slot of an account. -/
structure Slot where
  /-- The account. -/
  address : Address
  /-- The key. -/
  key : Word
  deriving DecidableEq, Repr, Inhabited

/-- Slots are ordered by account, then by key. -/
instance : Ord Slot where
  compare := compareLex (compareOn Slot.address) (compareOn Slot.key)

instance : Std.TransOrd Slot :=
  inferInstanceAs (Std.TransCmp (compareLex (compareOn Slot.address) (compareOn Slot.key)))

instance : Std.LawfulEqOrd Slot where
  eq_of_compare {a b} h := by
    have h : compareLex (compareOn Slot.address) (compareOn Slot.key) a b = .eq := h
    rw [compareLex_eq_eq] at h
    obtain ⟨x, y⟩ := a
    obtain ⟨x', y'⟩ := b
    have hx : x = x' := Std.LawfulEqOrd.eq_of_compare h.1
    have hy : y = y' := Std.LawfulEqOrd.eq_of_compare h.2
    rw [hx, hy]

/-! ## Uses -/

/-- The accounts and slots that a transaction has used. -/
structure WarmSet where
  accounts : Std.ExtTreeSet Address := {}
  slots : Std.ExtTreeSet Slot := {}
  deriving Inhabited

namespace WarmSet

/-- Whether something has been used. -/
def contains (w : WarmSet) : Access → Bool
  | .account a => w.accounts.contains a
  | .slot a key => w.slots.contains ⟨a, key⟩

/-- Note a use. -/
def insert (w : WarmSet) : Access → WarmSet
  | .account a => { w with accounts := w.accounts.insert a }
  | .slot a key => { w with slots := w.slots.insert ⟨a, key⟩ }

/-- Note a use, and tell whether it is the first. -/
def mark (w : WarmSet) (access : Access) : Bool × WarmSet := (!w.contains access, w.insert access)

end WarmSet

end MeteredEvm
