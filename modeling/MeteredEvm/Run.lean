import MeteredEvm.Step

/-!
# `MeteredEvm.Run` — running a stream to its end

A run is a sequence of stretches: from a place in the stream straight on until an instruction jumps,
halts or fails. A stretch ends with the stream at the latest. Every jump lands on a jump
destination, whose block costs at least one unit of gas, so a meter that is never filled up pays for
fewer than `2 ^ 64` jumps; `jumpBudget` is that number, and a run that uses it up traps.

## Contents
* `Ending`, `Stretch` — how runs and stretches end.
* `stretch`, `runFrom`, `jumpBudget`.
* `Host.guard`, `run`.
-/

namespace MeteredEvm

variable {σ : Type}

/-- The end of a run. -/
structure Ending (σ : Type) where
  /-- Index of the instruction that ended it, or the length of the stream. -/
  cursor : Nat
  /-- How the run ended. -/
  halt : Except Failure Halt
  /-- The machine at the end. -/
  machine : Machine σ

/-- The end of a stretch. -/
inductive Stretch (σ : Type) where
  /-- The run goes on at another place in the stream. -/
  | jumped (target : Nat) (m : Machine σ)
  /-- The run is over. -/
  | ended (e : Ending σ)

/-- The stretch from the instruction at `cursor` on, of which the stream holds `left` more. -/
def stretch (s : Setting σ) (guarded : Bool) : (left cursor : Nat) → Machine σ → Stretch σ
  | 0, cursor, m => .ended ⟨cursor, .ok .stop, m⟩
  | left + 1, cursor, m =>
    match s.code.instructions[cursor]? with
    | none => .ended ⟨cursor, .ok .stop, m⟩
    | some ins =>
      match step s guarded ins m with
      | .ok .next m => stretch s guarded left (cursor + 1) m
      | .ok (.jump target) m => .jumped target m
      | .ok (.halt h) m => .ended ⟨cursor, .ok h, m⟩
      | .error e m => .ended ⟨cursor, .error e, m⟩

/-- The run from the instruction at `cursor` on, with at most `jumps` jumps. -/
def runFrom (s : Setting σ) (guarded : Bool) : (jumps cursor : Nat) → Machine σ → Ending σ
  | 0, cursor, m =>
    match stretch s guarded (s.code.instructions.size - cursor) cursor m with
    | .ended e => e
    | .jumped target m => ⟨target, .error (.trap .jumps), m⟩
  | jumps + 1, cursor, m =>
    match stretch s guarded (s.code.instructions.size - cursor) cursor m with
    | .ended e => e
    | .jumped target m => runFrom s guarded jumps target m

/-- More jumps than a full meter pays for. -/
def jumpBudget : Nat := u64Size

/-- Whether state changes are banned, with the state of the host once that is known: they are if the
    frame is static or else the host says so. A static frame does not ask. -/
def Host.guard (host : Host σ) (context : CallContext) (state : σ) : Bool × σ :=
  if context.isStatic then (true, state) else host.answer .staticViolation state

/-- Run from the instruction at `cursor` on. Whether state changes are banned is settled at the
    start. -/
def run (s : Setting σ) (cursor : Nat) (m : Machine σ) : Ending σ :=
  let (guarded, host) := s.host.guard s.context m.host
  runFrom s guarded jumpBudget cursor { m with host }

end MeteredEvm
