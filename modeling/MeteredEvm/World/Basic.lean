import Std.Data.ExtTreeMap
import Std.Data.ExtTreeSet
import MeteredEvm.Host.Warm
import MeteredEvm.Keccak

/-!
# `MeteredEvm.World.Basic` — accounts and what a transaction does to them

The part of the state that a failed frame has to leave as it was is the `Journal`: it is one value,
so that going back is keeping an older value. The values that slots had when the transaction started
are outside of it: a frame that fails does not change what the past was.

## Contents
* `Account`, `Account.isEmpty`.
* `Journal`, `Journal.account`, `Journal.update`, `Journal.transfer?`.
* `World`, `World.storage`, `World.initialStorage`, `World.setStorage`, `World.codeHash`,
  `World.isEmpty`, `World.markForDestruction`, `World.finalize`.
-/

namespace MeteredEvm

/-! ## Accounts -/

/-- An account. -/
structure Account where
  balance : Word := 0
  /-- Number of creations that the account has made, and one for a contract. -/
  nonce : Nat := 0
  code : ByteArray := .empty
  /-- The slots; one that is missing holds zero. -/
  storage : Std.ExtTreeMap Word Word := {}
  deriving Inhabited

namespace Account

/-- Whether an account has no code, no nonce and no balance. -/
def isEmpty (a : Account) : Bool := a.code.size == 0 && a.nonce == 0 && a.balance == 0#256

/-- The value of a slot. -/
def slot (a : Account) (key : Word) : Word := a.storage.getD key 0

/-- Write a slot. Zeros are not kept. -/
def setSlot (a : Account) (key value : Word) : Account :=
  { a with
    storage := if value = 0#256 then a.storage.erase key else a.storage.insert key value }

/-- The account after one more creation; the largest nonce stays. -/
def countCreation (a : Account) : Account := { a with nonce := min (a.nonce + 1) (u64Size - 1) }

/-- Whether no contract can be created at an account. -/
def isTaken (a : Account) : Bool := a.code.size != 0 || a.nonce != 0

end Account

/-! ## The journal -/

/-- What a failed frame leaves as it was. -/
structure Journal where
  accounts : Std.ExtTreeMap Address Account := {}
  /-- Slots that live as long as the transaction. -/
  transient : Std.ExtTreeMap Slot Word := {}
  /-- What has been used. -/
  warm : WarmSet := {}
  /-- The logs, oldest first. -/
  logs : Array Log := #[]
  /-- Accounts scheduled for destruction. -/
  destructed : Std.ExtTreeSet Address := {}
  /-- Accounts that the transaction has created. -/
  created : Std.ExtTreeSet Address := {}
  /-- Refunds of the frames that succeeded. -/
  refund : Int := 0
  deriving Inhabited

namespace Journal

/-- An account; one that does not exist is empty. -/
def account (j : Journal) (a : Address) : Account := j.accounts.getD a {}

/-- The balance of an account. -/
def balance (j : Journal) (a : Address) : Word := (j.account a).balance

/-- Change an account, which comes into being if it does not exist. -/
def update (j : Journal) (a : Address) (f : Account → Account) : Journal :=
  { j with accounts := j.accounts.insert a (f (j.account a)) }

/-- Make sure that an account exists. -/
def touch (j : Journal) (a : Address) : Journal := j.update a id

/-- Move value from one account to another, if the balance allows. Moving nothing, or to the same
    account, changes nothing. -/
def transfer? (j : Journal) (source target : Address) (value : Word) : Option Journal :=
  if j.balance source < value then none
  else if value = 0#256 ∨ source = target then some j
  else
    some <| (j.update source fun a => { a with balance := a.balance - value }).update target
      fun a => { a with balance := a.balance + value }

/-- Move value that is known to be there. -/
def transfer (j : Journal) (source target : Address) (value : Word) : Journal :=
  (j.transfer? source target value).getD j

/-- Note the use of an account. -/
def warmAccount (j : Journal) (a : Address) : Journal :=
  { j with warm := j.warm.insert (.account a) }

/-- Add to the refunds. -/
def addRefund (j : Journal) (n : Int) : Journal := { j with refund := j.refund + n }

end Journal

/-! ## The world -/

/-- The state between and during transactions. -/
structure World where
  journal : Journal := {}
  /-- Values at the start of the transaction, of the slots written since. -/
  initial : Std.ExtTreeMap Slot Word := {}
  deriving Inhabited

namespace World

/-- An account, if it exists. -/
def account? (w : World) (a : Address) : Option Account := w.journal.accounts[a]?

/-- Replace an account. -/
def setAccount (w : World) (a : Address) (account : Account) : World :=
  { w with journal := { w.journal with accounts := w.journal.accounts.insert a account } }

/-- The value of a slot. -/
def storage (w : World) (a : Address) (key : Word) : Word := (w.journal.account a).slot key

/-- The value of a slot when the transaction started. -/
def initialStorage (w : World) (a : Address) (key : Word) : Word :=
  w.initial.getD ⟨a, key⟩ (w.storage a key)

/-- Write a slot, and keep what it held at first. -/
def setStorage (w : World) (a : Address) (key value : Word) : World where
  journal := w.journal.update a fun account => account.setSlot key value
  initial := w.initial.insertIfNew ⟨a, key⟩ (w.storage a key)

/-- The hash of the code of an account; zero for an account that does not exist, and with
    `emptyRule` for one that is empty. -/
def codeHash (w : World) (emptyRule : Bool) (a : Address) : Hash :=
  match w.account? a with
  | some account => if emptyRule && account.isEmpty then 0 else Keccak.digest account.code
  | none => 0

/-- Whether an account is empty or does not exist. -/
def isEmpty (w : World) (a : Address) : Bool := (w.journal.account a).isEmpty

/-- Whether an account is scheduled for destruction. -/
def isDestructed (w : World) (a : Address) : Bool := w.journal.destructed.contains a

/-- Whether destroying an account removes it. From Cancun on, only accounts of the same transaction
    are removed. -/
def isRemovable (w : World) (fork : Fork) (a : Address) : Bool :=
  !fork.since .cancun || w.journal.created.contains a

/-- The journal with the balance of an account handed to a beneficiary. An account that names itself
    and can be removed burns its balance. -/
def handOver (w : World) (fork : Fork) (a beneficiary : Address) : Journal :=
  if beneficiary ≠ a then w.journal.transfer a beneficiary (w.journal.balance a)
  else if w.isRemovable fork a then w.journal.update a fun account => { account with balance := 0 }
  else w.journal

/-- Schedule an account for destruction, and tell whether it was not scheduled before. -/
def markForDestruction (w : World) (fork : Fork) (a beneficiary : Address) : Bool × World :=
  let j := w.handOver fork a beneficiary
  (!w.isDestructed a, { w with journal := { j with destructed := j.destructed.insert a } })

/-- End the transaction: scheduled accounts go, the logs stay, and all else that belongs to the
    transaction is forgotten. -/
def finalize (w : World) (fork : Fork) : World where
  journal :=
    { accounts := w.journal.accounts.filter fun a _ => !(w.isDestructed a && w.isRemovable fork a)
      logs := w.journal.logs }
  initial := {}

end World

end MeteredEvm
