import MeteredEvm.Environment
import MeteredEvm.Memory

/-!
# `MeteredEvm.Host.Basic` — the world as a frame sees it

A frame owns its stack, its gas and its view of the memory. Everything else — accounts, storage,
logs, other frames — is behind a host. A host has a state of some type `σ` and answers queries, each
of which has its own type of answer; calls to other frames are apart, because a call runs on the
memory of the caller.

## Contents
* `Access`, `Log`, `Query`, `Query.Answer` — what a frame can ask.
* `CallKind`, `CallRequest`, `CallResult` — calls to other frames.
* `Host`.
-/

namespace MeteredEvm

/-! ## Queries -/

/-- Something whose first use in a transaction costs more. -/
inductive Access where
  | account (a : Address)
  | slot (a : Address) (key : Word)
  deriving DecidableEq, Repr, Inhabited

/-- A log entry. -/
structure Log where
  /-- The account that emits it. -/
  address : Address
  /-- What it can be found by. -/
  topics : List Hash
  /-- Its contents. -/
  data : ByteArray
  deriving DecidableEq, Inhabited

/-- What a frame asks its host. -/
inductive Query where
  /-- The block and transaction around the run. -/
  | environment
  /-- The value of a storage slot. -/
  | storage (a : Address) (key : Word)
  /-- The value of a storage slot when the transaction started. -/
  | initialStorage (a : Address) (key : Word)
  /-- Write a storage slot. -/
  | setStorage (a : Address) (key value : Word)
  /-- The value of a slot that lives as long as the transaction. -/
  | transient (a : Address) (key : Word)
  /-- Write such a slot. -/
  | setTransient (a : Address) (key value : Word)
  /-- Note a use, and tell whether it is the first. -/
  | markWarm (access : Access)
  /-- The balance of an account. -/
  | balance (a : Address)
  /-- The code of an account. -/
  | code (a : Address)
  /-- The hash of the code of an account. -/
  | codeHash (a : Address)
  /-- Whether an account has no code, no nonce and no balance, or does not exist. -/
  | isEmpty (a : Address)
  /-- The hash of a block. -/
  | blockHash (number : Nat)
  /-- Emit a log. -/
  | emitLog (log : Log)
  /-- Schedule an account for destruction, and tell whether it was not scheduled before. -/
  | markForDestruction (a beneficiary : Address)
  /-- Whether state changes are banned whatever the frame says. -/
  | staticViolation
  deriving DecidableEq, Inhabited

/-- The type of the answer to a query. -/
@[reducible]
def Query.Answer : Query → Type
  | environment => Environment
  | storage _ _ => Word
  | initialStorage _ _ => Word
  | setStorage _ _ _ => Unit
  | transient _ _ => Word
  | setTransient _ _ _ => Unit
  | markWarm _ => Bool
  | balance _ => Word
  | code _ => ByteArray
  | codeHash _ => Hash
  | isEmpty _ => Bool
  | blockHash _ => Hash
  | emitLog _ => Unit
  | markForDestruction _ _ => Bool
  | staticViolation => Bool

/-! ## Calls -/

/-- How a child frame comes about. -/
inductive CallKind where
  | call
  | callCode
  | delegateCall
  | staticCall
  | create
  | create2 (salt : Word)
  deriving DecidableEq, Repr, Inhabited

/-- Whether a child frame runs init code. -/
def CallKind.isCreate : CallKind → Bool
  | create | create2 _ => true
  | _ => false

/-- A request to run a child frame. -/
structure CallRequest where
  kind : CallKind
  /-- The sender that the child sees. -/
  caller : Address
  /-- The account whose code runs; not used for creations. -/
  codeAddress : Address
  /-- The account on whose storage and balance the child acts. -/
  recipient : Address
  /-- The value that the child sees. -/
  value : Word
  /-- Whether the value moves from the caller to the recipient. -/
  transfersValue : Bool
  /-- Call data, or init code. -/
  input : ByteArray
  /-- Gas of the child. -/
  gas : Nat
  /-- Whether the child may not change state. -/
  isStatic : Bool
  /-- Depth of the child. -/
  depth : Nat
  deriving DecidableEq, Inhabited

/-- What comes back from a child frame. -/
structure CallResult where
  /-- Whether the child stopped by itself. -/
  success : Bool
  /-- Gas that the child did not use. -/
  gasLeft : Nat
  /-- What the child returned. -/
  output : ByteArray
  /-- The new account of a creation. -/
  created : Option Address
  deriving DecidableEq, Inhabited

/-- A child that failed and left some gas. -/
def CallResult.failure (gasLeft : Nat) : CallResult :=
  { success := false, gasLeft, output := .empty, created := none }

/-! ## Hosts -/

/-- A host with states of type `σ`. -/
structure Host (σ : Type) where
  /-- The answer to a query. -/
  answer : (q : Query) → σ → q.Answer × σ
  /-- Run a child frame on the memory of the caller. -/
  call : CallRequest → Memory → σ → Except Trap (CallResult × Memory × σ)

end MeteredEvm
