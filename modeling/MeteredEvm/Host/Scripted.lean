import Std.Data.ExtTreeMap
import Std.Data.ExtTreeSet
import MeteredEvm.Host.Warm

/-!
# `MeteredEvm.Host.Scripted` — a host that follows a script

For running one frame by itself. Accounts are tables of balances, codes and hashes; calls run no
child but take their results from a list, after scribbling over a view of their own.

## Contents
* `ScriptedCall`, `Script`, `Script.host`.
-/

namespace MeteredEvm

/-- The result of a call that runs no child. -/
structure ScriptedCall where
  success : Bool := true
  /-- Gas left; all of it if nothing is said. It may be more than the child was given. -/
  gasLeft : Option Nat := none
  output : ByteArray := .empty
  created : Option Address := none
  /-- What the child writes to the start of its view. -/
  scribble : ByteArray := .empty

/-- A host that is all tables. -/
structure Script where
  environment : Environment := {}
  staticViolation : Bool := false
  storage : Std.ExtTreeMap Slot Word := {}
  /-- Values at the start of the transaction, of slots where they are known to differ. -/
  initial : Std.ExtTreeMap Slot Word := {}
  transient : Std.ExtTreeMap Slot Word := {}
  warm : WarmSet := {}
  balances : Std.ExtTreeMap Address Word := {}
  codes : Std.ExtTreeMap Address ByteArray := {}
  codeHashes : Std.ExtTreeMap Address Hash := {}
  blockHashes : Std.ExtTreeMap Nat Hash := {}
  /-- Accounts scheduled for destruction. -/
  destructed : Std.ExtTreeSet Address := {}
  /-- Results of the calls to come. -/
  results : List ScriptedCall := []

namespace Script

/-- The value of a slot. -/
def storageAt (s : Script) (slot : Slot) : Word := s.storage.getD slot 0

/-- The value of a slot when the transaction started. -/
def initialAt (s : Script) (slot : Slot) : Word := s.initial.getD slot (s.storageAt slot)

/-- Write a slot, and keep what it held at first. -/
def write (s : Script) (slot : Slot) (value : Word) : Script :=
  { s with
    initial := s.initial.insertIfNew slot (s.storageAt slot)
    storage := s.storage.insert slot value }

/-- The answer to a query. -/
def answer : (q : Query) → Script → q.Answer × Script
  | .environment, s => (s.environment, s)
  | .storage a key, s => (s.storageAt ⟨a, key⟩, s)
  | .initialStorage a key, s => (s.initialAt ⟨a, key⟩, s)
  | .setStorage a key value, s => ((), s.write ⟨a, key⟩ value)
  | .transient a key, s => (s.transient.getD ⟨a, key⟩ 0, s)
  | .setTransient a key value, s => ((), { s with transient := s.transient.insert ⟨a, key⟩ value })
  | .markWarm access, s =>
    let (first, warm) := s.warm.mark access
    (first, { s with warm })
  | .balance a, s => (s.balances.getD a 0, s)
  | .code a, s => (s.codes.getD a .empty, s)
  | .codeHash a, s => (s.codeHashes.getD a 0, s)
  | .isEmpty a, s => (!s.balances.contains a && !s.codes.contains a, s)
  | .blockHash n, s => (s.blockHashes.getD n 0, s)
  | .emitLog _, s => ((), s)
  | .markForDestruction a _, s =>
    (!s.destructed.contains a, { s with destructed := s.destructed.insert a })
  | .staticViolation, s => (s.staticViolation, s)

/-- Write to the start of a new view, if the view can hold the bytes, and close the view again. -/
def scribbleOver (memory : Memory) (bytes : ByteArray) : Memory :=
  match Memory.store 0 bytes (memory.enter, .full (u64Size - 1)) with
  | .ok _ (inside, _) => inside.exit
  | .error _ (inside, _) => inside.exit

/-- Take the next result for a call; past the last one the child succeeds with all its gas. -/
def call (request : CallRequest) (memory : Memory) (s : Script) :
    CallResult × Memory × Script :=
  let result := s.results.headD {}
  ({ success := result.success
     gasLeft := result.gasLeft.getD request.gas
     output := result.output
     created := result.created },
   scribbleOver memory result.scribble,
   { s with results := s.results.tail })

/-- The host that follows a script. -/
def host : Host Script where
  answer := answer
  call request memory s := .ok (call request memory s)

end Script

end MeteredEvm
