import MeteredEvm.Host.Basic

/-!
# `MeteredEvm.Host.Recorded` — a host that keeps a record

Any host can be made to write down what it is asked. The record does not change the answers.

## Contents
* `HostEvent`, `Recorded`, `Host.recorded`.
-/

namespace MeteredEvm

/-- Something that a host was asked, with what can be said about the moment. -/
inductive HostEvent where
  /-- A query and its answer. -/
  | asked (q : Query) (answer : q.Answer)
  /-- A call, with the size of the caller's view and the number of open views. -/
  | called (request : CallRequest) (viewSize depth : Nat)

/-- A state with the events so far, the latest first. -/
structure Recorded (σ : Type) where
  /-- State of the host. -/
  state : σ
  /-- The events, the latest first. -/
  events : List HostEvent := []

/-- The host that answers as `host` does and records. -/
def Host.recorded {σ : Type} (host : Host σ) : Host (Recorded σ) where
  answer q r :=
    let (a, state) := host.answer q r.state
    (a, { state, events := .asked q a :: r.events })
  call request memory r := do
    let (result, after, state) ← host.call request memory r.state
    return (result, after,
      { state, events := .called request memory.size memory.depth :: r.events })

end MeteredEvm
