import MeteredEvm.Code.Cache
import MeteredEvm.Run

/-!
# `MeteredEvm.Frame` — frames and their results

A frame is a code with its context, call data, gas and stack. Running one opens a view of the
memory, runs the code in it and closes it again, whatever happens. A fault takes all gas; a revert
keeps the gas and drops the refunds.

## Contents
* `Status`, `Frame`, `Frame.new`, `Frame.reset`, `Frame.pc`, `Frame.currentOpcode`.
* `Outcome`, `Result`.
* `Frame.run`, `execute`, `executeCached`.
-/

namespace MeteredEvm

/-- Where a frame stands. -/
inductive Status where
  | running
  | stopped
  | reverted
  | faulted (f : Fault)
  deriving DecidableEq, Repr, Inhabited

/-- A frame. -/
structure Frame where
  /-- The code. -/
  code : Analysis
  /-- The context. -/
  context : CallContext
  /-- The call data. -/
  input : ByteArray
  /-- The meter. -/
  gas : Meter
  /-- The stack. -/
  stack : Stack
  /-- Place in the stream. -/
  cursor : Nat
  /-- What the last child frame returned. -/
  returnData : ByteArray
  /-- Where the frame stands. -/
  status : Status

namespace Frame

/-- A frame that has not run. -/
def new (context : CallContext) (input : ByteArray) (gasLimit : Nat) (code : Analysis) : Frame where
  code
  context
  input
  gas := Meter.full gasLimit
  stack := .empty
  cursor := 0
  returnData := .empty
  status := .running

/-- The frame at its start again, with new gas. The stack keeps its store. -/
def reset (f : Frame) (gasLimit : Nat) : Frame :=
  { new f.context f.input gasLimit f.code with stack := f.stack.clear }

/-- Where in the code the next instruction stands; the length of the code past the last one. -/
def pc (f : Frame) : Nat :=
  match f.code.instructions[f.cursor]? with
  | some ins => ins.pc
  | none => f.code.code.size

/-- The byte of the next instruction. A block entry that stands for no byte shows the byte after
    it. -/
def currentOpcode (f : Frame) : Option UInt8 := f.code.code[f.pc]?

end Frame

/-! ## Results -/

/-- How a run of a frame came out. -/
inductive Outcome where
  | stopped (output : ByteArray)
  | reverted (output : ByteArray)
  | faulted (f : Fault)
  deriving DecidableEq, Inhabited

/-- The result of running a frame. -/
structure Result where
  /-- How it came out. -/
  outcome : Outcome
  /-- Gas that is left. -/
  gasRemaining : Nat
  /-- Gas that was used. -/
  gasUsed : Nat
  /-- Refunds earned less refunds taken back. -/
  refund : Int
  deriving DecidableEq, Inhabited

namespace Result

/-- Whether the frame stopped by itself. -/
def isSuccess (r : Result) : Bool :=
  match r.outcome with
  | .stopped _ => true
  | _ => false

/-- What the frame handed out. -/
def output (r : Result) : ByteArray :=
  match r.outcome with
  | .stopped out => out
  | .reverted out => out
  | .faulted _ => .empty

/-- The fault, if there was one. -/
def fault? (r : Result) : Option Fault :=
  match r.outcome with
  | .faulted f => some f
  | _ => none

/-- The result that a meter and an outcome come to. -/
def ofMeter (outcome : Outcome) (gas : Meter) : Result where
  outcome
  gasRemaining := gas.remaining
  gasUsed := gas.spent
  refund := gas.refunded

end Result

/-! ## Running -/

variable {σ : Type}

/-- What stays fixed while a frame runs. -/
def Frame.setting (f : Frame) (config : Config) (host : Host σ) : Setting σ where
  host
  schedule := config.fork.rules.schedule
  maxCallDepth := config.maxCallDepth
  code := f.code
  context := f.context
  input := f.input

/-- The machine that a frame starts on. -/
def Frame.machine (f : Frame) (memory : Memory) (state : σ) : Machine σ where
  gas := f.gas
  stack := f.stack
  returnData := f.returnData
  memory
  host := state

/-- The status, the outcome and the meter that a halt or fault leaves. -/
def settle (halt : Except Fault Halt) (gas : Meter) : Status × Outcome × Meter :=
  match halt with
  | .ok .stop => (.stopped, .stopped .empty, gas)
  | .ok .selfDestruct => (.stopped, .stopped .empty, gas)
  | .ok (.ret output) => (.stopped, .stopped output, gas)
  | .ok (.revert output) => (.reverted, .reverted output, gas.dropRefund)
  | .error f => (.faulted f, .faulted f, gas.exhaust)

/-- A halt or a fault, unless the run trapped. -/
def untrapped : Except Failure Halt → Except Trap (Except Fault Halt)
  | .ok h => .ok (.ok h)
  | .error (.fault f) => .ok (.error f)
  | .error (.trap t) => .error t

/-- Run a frame from where it stands, in a view of its own. -/
def Frame.run (f : Frame) (config : Config) (host : Host σ) (memory : Memory) (state : σ) :
    Except Trap (Result × Frame × Memory × σ) :=
  let ending := MeteredEvm.run (f.setting config host) f.cursor (f.machine memory.enter state)
  match untrapped ending.halt with
  | .error t => .error t
  | .ok halt =>
    let m := ending.machine
    let (status, outcome, gas) := settle halt m.gas
    let f := { f with
      gas
      stack := m.stack
      cursor := ending.cursor
      returnData := m.returnData
      status }
    .ok (.ofMeter outcome gas, f, m.memory.exit, m.host)

/-- Run a code in a new frame. -/
def execute (config : Config) (host : Host σ) (context : CallContext) (input : ByteArray)
    (gasLimit : Nat) (code : ByteArray) (memory : Memory) (state : σ) :
    Except Trap (Result × Memory × σ) := do
  let analysis := analyze (.ofFork config.fork) code
  let (result, _, memory, state) ←
    (Frame.new context input gasLimit analysis).run config host memory state
  return (result, memory, state)

/-- Run a code in a new frame, with its analysis from a cache. -/
def executeCached (cache : Cache) (config : Config) (host : Host σ) (context : CallContext)
    (input : ByteArray) (gasLimit : Nat) (code : ByteArray) (memory : Memory) (state : σ) :
    Except Trap (Result × Memory × σ) × Cache :=
  let (kept, cache) := cache.getOrAnalyze (.ofFork config.fork) code
  let result := do
    let (result, _, memory, state) ←
      (Frame.new context input gasLimit kept.analysis).run config host memory state
    return (result, memory, state)
  (result, cache)

end MeteredEvm
