import MeteredEvm.Code.Analysis
import MeteredEvm.Config
import MeteredEvm.Host.Basic

/-!
# `MeteredEvm.Machine` — the state that instructions act on

While a frame runs, its instructions act on a `Machine`: gas, stack, return data, memory and the
state of the host. What stays fixed through the run is the `Setting`. An instruction is a
computation in `Exec`, which can fail; a failure keeps the state that was reached, since the stack
that a fault leaves can be seen.

## Contents
* `CallContext`, `Setting`, `Machine`, `Exec`.
* `Halt`, `Flow` — how an instruction hands over control.
* `Exec.pop`, `Exec.push`, `Exec.top`, `Exec.setTop`, … — the stack.
* `Exec.charge`, `Exec.giveBack`, `Exec.refund`, `Exec.amount`, `Addition` — gas.
* `Exec.onMemory`, `Exec.cover`, `Exec.growTo`, `Exec.read`, `Exec.write`, `Exec.move` — memory.
* `Exec.ask`, `Exec.call` — the host.
-/

namespace MeteredEvm

/-- Who runs a frame, for whom, and under which restrictions. -/
structure CallContext where
  /-- The account on whose storage and balance the frame acts. -/
  address : Address := 0
  /-- The sender. -/
  caller : Address := 0
  /-- The value sent. -/
  value : Word := 0
  /-- Whether state changes are banned. -/
  isStatic : Bool := false
  /-- Number of frames around this one. -/
  depth : Nat := 0
  /-- Whether the frame runs init code, so that what it returns becomes code. -/
  isCreate : Bool := false
  deriving DecidableEq, Repr, Inhabited

/-- What stays fixed while a frame runs. -/
structure Setting (σ : Type) where
  /-- The host. -/
  host : Host σ
  /-- Prices, with the rules of the fork. -/
  schedule : Schedule
  /-- Depth at which frames make no further calls. -/
  maxCallDepth : Nat
  /-- The code. -/
  code : Analysis
  /-- The context. -/
  context : CallContext
  /-- The call data. -/
  input : ByteArray

/-- What the instructions of a frame act on. -/
structure Machine (σ : Type) where
  /-- The meter. -/
  gas : Meter
  /-- The stack. -/
  stack : Stack
  /-- What the last child frame returned. -/
  returnData : ByteArray
  /-- The memory. -/
  memory : Memory
  /-- State of the host. -/
  host : σ

/-- A computation on a machine. A failure keeps the state that was reached. -/
abbrev Exec (σ : Type) := EStateM Failure (Machine σ)

/-- How a frame ends by itself. -/
inductive Halt where
  | stop
  | ret (output : ByteArray)
  | revert (output : ByteArray)
  | selfDestruct
  deriving DecidableEq, Inhabited

/-- Where control goes after an instruction. -/
inductive Flow where
  /-- To the next instruction of the stream. -/
  | next
  /-- To a place in the stream. -/
  | jump (index : Nat)
  /-- Out of the frame. -/
  | halt (h : Halt)
  deriving DecidableEq, Inhabited

namespace Exec

variable {σ α : Type}

/-- Fault. -/
def fault (f : Fault) : Exec σ α := throw (.fault f)

/-- Trap. -/
def trap (t : Trap) : Exec σ α := throw (.trap t)

/-- A value that has to be there. -/
def orTrap (t : Trap) : Option α → Exec σ α
  | some a => pure a
  | none => trap t

/-- A 64-bit amount. -/
def amount (n : Nat) : Exec σ Nat := if n < u64Size then pure n else trap .arithmetic

/-! ## The stack -/

/-- Take the top word off. -/
def pop : Exec σ Word := fun m =>
  match m.stack.pop? with
  | some (w, s) => .ok w { m with stack := s }
  | none => .error (.trap .stack) m

/-- Put a word on top. -/
def push (w : Word) : Exec σ Unit := fun m =>
  match m.stack.push? w with
  | some s => .ok () { m with stack := s }
  | none => .error (.trap .stack) m

/-- The word `n` places below the top. -/
def peek (n : Nat) : Exec σ Word := fun m =>
  match m.stack.peek? n with
  | some w => .ok w m
  | none => .error (.trap .stack) m

/-- The top word, which stays. -/
def top : Exec σ Word := peek 0

/-- Replace the top word. -/
def setTop (w : Word) : Exec σ Unit := fun m =>
  match m.stack.setTop? w with
  | some s => .ok () { m with stack := s }
  | none => .error (.trap .stack) m

/-- Repeat the `n`-th word, counted from one. -/
def dup (n : Nat) : Exec σ Unit := fun m =>
  match m.stack.dup? n with
  | some s => .ok () { m with stack := s }
  | none => .error (.trap .stack) m

/-- Exchange the top with the word `n` places below. -/
def swap (n : Nat) : Exec σ Unit := fun m =>
  match m.stack.swap? n with
  | some s => .ok () { m with stack := s }
  | none => .error (.trap .stack) m

/-- Take an address off the stack. -/
def popAddress : Exec σ Address := do return (← pop).toAddress

/-- Take `n` words off the stack, the top first. -/
def popMany : Nat → Exec σ (List Word)
  | 0 => return []
  | n + 1 => do
    let w ← pop
    let ws ← popMany n
    return w :: ws

/-! ## Gas -/

/-- Pay. -/
def charge (cost : Nat) : Exec σ Unit := fun m =>
  match m.gas.charge? cost with
  | some g => .ok () { m with gas := g }
  | none => .error (.fault .outOfGas) m

/-- Hand back gas. -/
def giveBack (n : Nat) : Exec σ Unit := modify fun m => { m with gas := m.gas.giveBack n }

/-- Add to the refunds. -/
def refund (n : Int) : Exec σ Unit := modify fun m => { m with gas := m.gas.refund n }

/-- Gas that is left. -/
def remaining : Exec σ Nat := do return (← get).gas.remaining

/-- How amounts of gas are added: what handing gas back does to the meter, and what becomes of any
    other sum. -/
structure Addition (σ : Type) where
  /-- Hand back gas. -/
  giveBack : Nat → Exec σ Unit
  /-- A sum as an amount. -/
  amount : Nat → Exec σ Nat

/-- Addition of 64-bit amounts: giving back stops at the largest amount, any other sum has to fit. -/
def Addition.u64 : Addition σ where
  giveBack := Exec.giveBack
  amount := Exec.amount

/-! ## Memory -/

/-- Work on the memory, at the expense of the meter. -/
def onMemory (x : Memory.Act α) : Exec σ α := fun m =>
  match x (m.memory, m.gas) with
  | .ok a (memory, gas) => .ok a { m with memory, gas }
  | .error e (memory, gas) => .error e { m with memory, gas }

/-- Make the view hold a range given by two words; an empty range is `none`. -/
def cover (offset len : Word) : Exec σ (Option (Nat × Nat)) := onMemory (Memory.cover offset len)

/-- Make the view hold the `len` bytes from `offset` on. -/
def growTo (offset len : Nat) : Exec σ Unit := onMemory (Memory.growTo offset len)

/-- Make the view hold `len` bytes at the offset given by a word, and return the offset. -/
def growAt (offset : Word) (len : Nat) : Exec σ Nat := do
  match offset.toU64? with
  | some start => do
    growTo start len
    return start
  | none => fault .memorySizeOverflow

/-- Bytes of the view. -/
def read (offset len : Nat) : Exec σ ByteArray := fun m =>
  match m.memory.read? offset len with
  | some bytes => .ok bytes m
  | none => .error (.trap .memory) m

/-- The bytes of a range of the view, if it is not empty. -/
def readRange : Option (Nat × Nat) → Exec σ ByteArray
  | some (offset, len) => read offset len
  | none => return .empty

/-- The length of a range. -/
def rangeSize : Option (Nat × Nat) → Nat
  | some (_, len) => len
  | none => 0

/-- Write to the view. -/
def write (offset : Nat) (bytes : ByteArray) : Exec σ Unit := fun m =>
  if offset + bytes.size ≤ m.memory.size then
    .ok () { m with memory := m.memory.write offset bytes }
  else .error (.trap .memory) m

/-- Copy inside the view. -/
def move (source target len : Nat) : Exec σ Unit := fun m =>
  match m.memory.move? source target len with
  | some memory => .ok () { m with memory }
  | none => .error (.trap .memory) m

/-- Pay for a copy and make the view hold its target; an empty copy is `none` and free. -/
def coverCopy (offset len : Word) : Exec σ (Option (Nat × Nat)) := do
  if len = 0#256 then return none
  else
    match len.toU64? with
    | some n => do
      charge (Gas.copy n)
      cover offset len
    | none => fault .outOfGas

/-! ## The host -/

/-- Ask the host. -/
def ask (s : Setting σ) (q : Query) : Exec σ q.Answer := fun m =>
  let (a, host) := s.host.answer q m.host
  .ok a { m with host }

/-- Run a child frame. -/
def call (s : Setting σ) (request : CallRequest) : Exec σ CallResult := fun m =>
  match s.host.call request m.memory m.host with
  | .ok (result, memory, host) => .ok result { m with memory, host }
  | .error t => .error (.trap t) m

/-- The block and transaction around the run. -/
def environment (s : Setting σ) : Exec σ Environment := ask s .environment

/-- Pay a surcharge on the first use of something. Where there is none to pay, uses are not
    noted. -/
def touch (s : Setting σ) (surcharge : Nat) (access : Access) : Exec σ Unit := do
  if 0 < surcharge then
    if ← ask s (.markWarm access) then charge surcharge

/-- Pay the surcharge of the first use of an account. -/
def touchAccount (s : Setting σ) (a : Address) : Exec σ Unit :=
  touch s s.schedule.coldAccountSurcharge (.account a)

/-- Replace the return data. -/
def setReturnData (data : ByteArray) : Exec σ Unit := modify fun m => { m with returnData := data }

end Exec

end MeteredEvm
