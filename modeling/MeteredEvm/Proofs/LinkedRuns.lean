import MeteredEvm.Frame
import MeteredEvm.Proofs.Parallel

/-!
# `MeteredEvm.Proofs.LinkedRuns` — whole runs side by side

What every instruction keeps is kept by stretches, by runs and by frames. From linked machines two
runs take the same turns: they end at the same place, in the same way, on linked machines.

The case of one host and equal states gives invariants: what the answers and the children of a host
keep is kept by every frame that runs on it (`Setting.Keeps`).

## Contents
* `step_matches`, `stretch_meets`, `runFrom_ends`, `Link.Answers.guard`, `run_ends` — runs.
* `Frame.run_linked`, `execute_linked` — frames.
* `Link.invariant`, `Setting.Keeps`, `run_keeps`, `execute_keeps` — invariants.
* `Setting.Earns` — invariants that look at refunds.
-/

namespace MeteredEvm

open Exec Link

variable {σ τ : Type} {l : Link σ τ} {s : Setting σ} {host : Host σ} {host' : Host τ}
  {guarded : Bool} {m : Machine σ} {n : Machine τ}

/-! ## Runs -/

/-- **One instruction keeps a link.** -/
theorem step_matches (h : l.Kept s host' guarded) (ins : Instruction) (hj : l.Joins m n) :
    l.Matches (step s guarded ins m) (step (s.withHost host') guarded ins n) := by
  unfold step
  cases ins.op with
  | none => exact fault_parallel _ hj
  | some op =>
      have hcheck : l.Matches (checkStatic guarded op m) (checkStatic guarded op n) := by
        rw [checkStatic_eq, checkStatic_eq, hj.stack]
        split
        · exact .error _ hj
        · exact .ok _ hj
      refine hcheck.bind fun _ m' n' hok hj' => ?_
      -- the check lets through only what is not banned, and leaves the machine as it was
      rw [checkStatic_eq] at hok
      split at hok
      · cases hok
      · rename_i hban
        cases hok
        exact Op.exec_matches h ins hj' (by simpa using hban)

namespace Link

/-- Two ends of a run that are the same up to the link. -/
structure Ends (l : Link σ τ) (e : Ending σ) (e' : Ending τ) : Prop where
  cursor : e'.cursor = e.cursor
  halt : e'.halt = e.halt
  machine : l.Joins e.machine e'.machine

/-- Two ends of a stretch that are the same up to the link. -/
inductive Meets (l : Link σ τ) : Stretch σ → Stretch τ → Prop where
  | jumped (target : Nat) {m : Machine σ} {n : Machine τ} (h : l.Joins m n) :
      Meets l (.jumped target m) (.jumped target n)
  | ended {e : Ending σ} {e' : Ending τ} (h : l.Ends e e') : Meets l (.ended e) (.ended e')

end Link

theorem stretch_meets (h : l.Kept s host' guarded) (left cursor : Nat) (hj : l.Joins m n) :
    l.Meets (stretch s guarded left cursor m) (stretch (s.withHost host') guarded left cursor n) := by
  induction left generalizing cursor m n with
  | zero => exact .ended ⟨rfl, rfl, hj⟩
  | succ left ih =>
      have hcode : (s.withHost host').code = s.code := rfl
      unfold stretch
      rw [hcode]
      cases s.code.instructions[cursor]? with
      | none => exact .ended ⟨rfl, rfl, hj⟩
      | some ins =>
          dsimp only
          have hstep := step_matches h ins hj
          generalize step s guarded ins m = r at hstep
          generalize step (s.withHost host') guarded ins n = r' at hstep
          cases hstep with
          | error e hj' => exact .ended ⟨rfl, rfl, hj'⟩
          | ok flow hj' =>
              cases flow with
              | next => exact ih (cursor + 1) hj'
              | jump target => exact .jumped target hj'
              | halt e => exact .ended ⟨rfl, rfl, hj'⟩

theorem runFrom_ends (h : l.Kept s host' guarded) (jumps cursor : Nat) (hj : l.Joins m n) :
    l.Ends (runFrom s guarded jumps cursor m)
      (runFrom (s.withHost host') guarded jumps cursor n) := by
  have hcode : (s.withHost host').code = s.code := rfl
  induction jumps generalizing cursor m n with
  | zero =>
      have hmeets := stretch_meets h (s.code.instructions.size - cursor) cursor hj
      unfold runFrom
      rw [hcode]
      generalize stretch s guarded _ cursor m = r at hmeets
      generalize stretch (s.withHost host') guarded _ cursor n = r' at hmeets
      cases hmeets with
      | jumped target hj' => exact ⟨rfl, rfl, hj'⟩
      | ended hends => exact hends
  | succ jumps ih =>
      have hmeets := stretch_meets h (s.code.instructions.size - cursor) cursor hj
      unfold runFrom
      rw [hcode]
      generalize stretch s guarded _ cursor m = r at hmeets
      generalize stretch (s.withHost host') guarded _ cursor n = r' at hmeets
      cases hmeets with
      | jumped target hj' => exact ih target hj'
      | ended hends => exact hends

/-- Linked hosts agree on whether changes are banned, and stay linked. -/
theorem Link.Answers.guard (h : l.Answers host host' .staticViolation) (context : CallContext)
    {p : σ} {p' : τ} {r : Int} (hstate : l.state p p' r) :
    (host'.guard context p').1 = (host.guard context p).1 ∧
      l.state (host.guard context p).2 (host'.guard context p').2 r := by
  unfold Host.guard
  by_cases hstatic : context.isStatic = true
  · rw [if_pos hstatic, if_pos hstatic]
    exact ⟨rfl, hstate⟩
  · rw [if_neg hstatic, if_neg hstatic]
    exact h hstate

/-- **A run keeps a link.** -/
theorem run_ends (h : l.Kept s host' (s.host.guard s.context m.host).1) (cursor : Nat)
    (hj : l.Joins m n) : l.Ends (run s cursor m) (run (s.withHost host') cursor n) := by
  obtain ⟨hguarded, hstate⟩ := (h.quiet .staticViolation rfl).guard s.context hj.state
  show l.Ends _ (runFrom (s.withHost host') (host'.guard s.context n.host).1 jumpBudget cursor
    { n with host := (host'.guard s.context n.host).2 })
  rw [hguarded]
  exact runFrom_ends h jumpBudget cursor (hj.withState hstate)

/-! ## Frames -/

namespace Link

/-- The memories that closing linked views leaves. -/
def Closes (l : Link σ τ) (after after' : Memory) : Prop :=
  ∃ memory memory', l.memory memory memory' ∧ after = memory.exit ∧ after' = memory'.exit

/-- Two results of a frame that are the same up to the link. A frame that succeeds hands out the
    refunds of its meter. -/
inductive Finishes (l : Link σ τ) : Except Trap (Result × Frame × Memory × σ) →
    Except Trap (Result × Frame × Memory × τ) → Prop where
  | ok (result : Result) (f : Frame) {memory memory' : Memory} {p : σ} {p' : τ} {r : Int}
      (hmemory : l.Closes memory memory') (hstate : l.state p p' r)
      (hrefund : result.isSuccess = true → result.refund = r) :
      Finishes l (.ok (result, f, memory, p)) (.ok (result, f, memory', p'))
  | error (t : Trap) : Finishes l (.error t) (.error t)

/-- The same, for results without the frame. -/
inductive Completes (l : Link σ τ) : Except Trap (Result × Memory × σ) →
    Except Trap (Result × Memory × τ) → Prop where
  | ok (result : Result) {memory memory' : Memory} {p : σ} {p' : τ} {r : Int}
      (hmemory : l.Closes memory memory') (hstate : l.state p p' r)
      (hrefund : result.isSuccess = true → result.refund = r) :
      Completes l (.ok (result, memory, p)) (.ok (result, memory', p'))
  | error (t : Trap) : Completes l (.error t) (.error t)

end Link

/-- A success hands out the refunds of the meter. -/
theorem settle_refunded {halt : Except Fault Halt} {gas : Meter}
    (h : (Result.ofMeter (settle halt gas).2.1 (settle halt gas).2.2).isSuccess = true) :
    (settle halt gas).2.2.refunded = gas.refunded := by
  cases halt with
  | error f => cases h
  | ok halt =>
      cases halt with
      | revert output => cases h
      | _ => rfl

/-- **A frame keeps a link**, from the machine that it starts on. -/
theorem Frame.run_linked {f : Frame} {config : Config} {memory memory' : Memory} {p : σ} {p' : τ}
    (h : l.Kept (f.setting config host) host' (host.guard f.context p).1)
    (hmemory : l.memory memory.enter memory'.enter) (hstate : l.state p p' f.gas.refunded) :
    l.Finishes (f.run config host memory p) (f.run config host' memory' p') := by
  have hends : l.Ends
      (MeteredEvm.run (f.setting config host) f.cursor (f.machine memory.enter p))
      (MeteredEvm.run (f.setting config host') f.cursor (f.machine memory'.enter p')) :=
    run_ends h f.cursor ⟨rfl, rfl, rfl, hmemory, hstate⟩
  unfold Frame.run
  generalize MeteredEvm.run (f.setting config host) f.cursor _ = e at hends
  generalize MeteredEvm.run (f.setting config host') f.cursor _ = e' at hends
  dsimp only
  rw [hends.halt, hends.cursor, hends.machine.gas, hends.machine.stack, hends.machine.returnData]
  cases untrapped e.halt with
  | error t => exact .error t
  | ok halt =>
      exact .ok _ _ ⟨_, _, hends.machine.memory, rfl, rfl⟩ hends.machine.state settle_refunded

theorem execute_linked {config : Config} {context : CallContext} {input code : ByteArray}
    {gasLimit : Nat} {memory memory' : Memory} {p : σ} {p' : τ}
    (h : ∀ f : Frame, f.context = context →
      l.Kept (f.setting config host) host' (host.guard context p).1)
    (hmemory : l.memory memory.enter memory'.enter) (hstate : l.state p p' 0) :
    l.Completes (execute config host context input gasLimit code memory p)
      (execute config host' context input gasLimit code memory' p') := by
  have hrun := Frame.run_linked
    (h (.new context input gasLimit (analyze (.ofFork config.fork) code)) rfl) hmemory hstate
  unfold execute
  dsimp only
  generalize Frame.run _ config host memory p = r at hrun
  generalize Frame.run _ config host' memory' p' = r' at hrun
  cases hrun with
  | error t => exact .error t
  | ok result f hmemory hstate hrefund => exact .ok result hmemory hstate hrefund

/-! ## Invariants -/

/-- Memories that are the same look alike. -/
theorem Link.Faithful.of_eq (h : l.memory = Eq) : l.Faithful := by
  refine ⟨?_, ?_, ?_, ?_⟩ <;> rw [h]
  · rintro memory _ rfl
    rfl
  · rintro memory _ offset len rfl
    rfl
  · rintro memory _ stop gas rfl
    cases hgrow : Memory.grow stop (memory, gas) with
    | error e t =>
        obtain rfl := Memory.grow_steady stop hgrow
        exact .inl ⟨e, rfl, rfl⟩
    | ok u t => exact .inr ⟨t.1, t.1, t.2, rfl, rfl, rfl⟩
  · rintro memory _ offset bytes - rfl
    rfl

/-- The link of a run with itself that says that a property holds. -/
def Link.invariant (P : σ → Int → Prop) : Link σ σ where
  state p p' r := p = p' ∧ P p r
  memory := Eq

/-- **A property of the host's state and of the refunds that a frame keeps**: answers to queries that
    are `isQuiet` and children keep it, and where changes are not banned so do refunds and answers to
    queries that are `IsOwn`. -/
structure Setting.Keeps (s : Setting σ) (guarded : Bool) (P : σ → Int → Prop) : Prop where
  quiet : ∀ (q : Query) ⦃p r⦄, q.isQuiet = true → P p r → P (s.host.answer q p).2 r
  loud : guarded = false → ∀ (q : Query) ⦃p r⦄, q.IsOwn s.context.address → P p r →
    P (s.host.answer q p).2 r
  refund : guarded = false → ∀ ⦃p r⦄ (k : Int), P p r → P p (r + k)
  call : ∀ ⦃req memory p r result memory' p'⦄, s.IssuesUnder guarded req → P p r →
    s.host.call req memory p = .ok (result, memory', p') → P p' r

theorem Setting.Keeps.kept {P : σ → Int → Prop} (h : s.Keeps guarded P) :
    (Link.invariant P).Kept s s.host guarded where
  faithful := .of_eq rfl
  quiet q hq := by
    rintro p _ r ⟨rfl, hP⟩
    exact ⟨rfl, rfl, h.quiet q hq hP⟩
  loud hfree := by
    refine .of_answers (.of_eq rfl) (fun q hq => ?_) fun p p' r k => ?_
    · rintro p _ r ⟨rfl, hP⟩
      exact ⟨rfl, rfl, h.loud hfree q hq hP⟩
    · rintro ⟨rfl, hP⟩
      exact ⟨rfl, h.refund hfree k hP⟩
  call := by
    rintro req memory _ p _ r hreq rfl ⟨rfl, hP⟩
    cases hcall : s.host.call req memory p with
    | error t => exact .error t
    | ok result => exact .ok result.1 rfl ⟨rfl, h.call hreq hP hcall⟩

/-- What a frame keeps holds at the end of a run, however it ends. -/
theorem run_keeps {P : σ → Int → Prop}
    (h : s.Keeps (s.host.guard s.context m.host).1 P) (cursor : Nat) (hP : P m.host m.gas.refunded) :
    P (run s cursor m).machine.host (run s cursor m).machine.gas.refunded :=
  (run_ends h.kept cursor ⟨rfl, rfl, rfl, rfl, rfl, hP⟩).machine.state.2

/-- What is kept by all effects holds when the frame is done. -/
theorem execute_invariant {config : Config} {context : CallContext} {input code : ByteArray}
    {gasLimit : Nat} {memory memory' : Memory} {p p' : σ} {result : Result} {P : σ → Int → Prop}
    (h : ∀ f : Frame, f.context = context → (Link.invariant P).Kept (f.setting config host) host
      (host.guard context p).1)
    (hP : P p 0)
    (hexecute : execute config host context input gasLimit code memory p =
      .ok (result, memory', p')) :
    ∃ r, P p' r ∧ (result.isSuccess = true → result.refund = r) := by
  have hlinked : (Link.invariant P).Completes
      (execute config host context input gasLimit code memory p)
      (execute config host context input gasLimit code memory p) :=
    execute_linked h rfl ⟨rfl, hP⟩
  rw [hexecute] at hlinked
  cases hlinked with
  | ok _ _ hstate hrefund => exact ⟨_, hstate.2, hrefund⟩

/-- What a frame keeps holds when it is done. -/
theorem execute_keeps {config : Config} {context : CallContext} {input code : ByteArray}
    {gasLimit : Nat} {memory memory' : Memory} {p p' : σ} {result : Result} {P : σ → Int → Prop}
    (h : ∀ f : Frame, f.context = context →
      (f.setting config host).Keeps (host.guard context p).1 P)
    (hP : P p 0)
    (hexecute : execute config host context input gasLimit code memory p =
      .ok (result, memory', p')) :
    ∃ r, P p' r ∧ (result.isSuccess = true → result.refund = r) :=
  execute_invariant (fun f hf => (h f hf).kept) hP hexecute

/-! ## Invariants that look at refunds -/

/-- What a frame finds out before it writes a slot of its account: the value that is there, the value
    that the price counts from, and the state of the host after that. -/
def Setting.look (s : Setting σ) (key : Word) (p : σ) : Word × Word × σ :=
  let current := s.host.answer (.storage s.context.address key) p
  if s.schedule.rules.netSstore then
    let initial := s.host.answer (.initialStorage s.context.address key) current.2
    (current.1, initial.1, initial.2)
  else (current.1, current.1, current.2)

/-- **A property of the host's state and of the refunds that a frame keeps**, where writing a slot and
    what the frame earns for it (`Schedule.sstore`) go together. Answers that write no slot keep it,
    and so do children; a write keeps it with its price, and earning more keeps it in any case. -/
structure Setting.Earns (s : Setting σ) (guarded : Bool) (P : σ → Int → Prop) : Prop where
  answer : ∀ (q : Query) ⦃p r⦄, q.writesSlot = false → P p r → P (s.host.answer q p).2 r
  write : ∀ ⦃p r⦄ (key value : Word) (wasCold : Bool), P p r →
    P (s.host.answer (.setStorage s.context.address key value) (s.look key p).2.2).2
      (r + (s.schedule.sstore (s.look key p).2.1 (s.look key p).1 value wasCold).refund)
  more : ∀ ⦃p r⦄ (k : Int), 0 ≤ k → P p r → P p (r + k)
  call : ∀ ⦃req memory p r result memory' p'⦄, s.IssuesUnder guarded req → P p r →
    s.host.call req memory p = .ok (result, memory', p') → P p' r

namespace Setting.Earns

variable {P : σ → Int → Prop}

theorem answers (h : s.Earns guarded P) (q : Query) (hq : q.writesSlot = false) :
    (Link.invariant P).Answers s.host s.host q := by
  rintro p _ r ⟨rfl, hP⟩
  exact ⟨rfl, rfl, h.answer q hq hP⟩

/-- A write keeps the property with what it earns: up to the price nothing but answers matters, and
    then the frame is paid and the slot is written, with nothing in between. -/
theorem sstore_parallel (h : s.Earns guarded P) :
    (Link.invariant P).Parallel (Effect.sstore s) (Effect.sstore (s.withHost s.host)) := by
  refine pop_parallel.bind fun key => pop_parallel.bind fun value => ?_
  have hsentry : (Link.invariant P).Parallel (Effect.requireSentry s)
      (Effect.requireSentry (s.withHost s.host)) :=
    remaining_parallel.bind fun _ => .ite (fault_parallel _) (.pure _)
  have hcold : (Link.invariant P).Parallel (Effect.slotWasCold s key)
      (Effect.slotWasCold (s.withHost s.host) key) :=
    .ite (ask_parallel (h.answers _ rfl)) (.pure _)
  have hinitial (current : Word) : (Link.invariant P).Parallel (Effect.initialValue s key current)
      (Effect.initialValue (s.withHost s.host) key current) :=
    .ite (ask_parallel (h.answers _ rfl)) (.pure _)
  refine hsentry.bind fun _ => hcold.bind fun wasCold => ?_
  intro m n hj
  refine (ask_parallel (h.answers _ rfl) hj).bind fun current m₁ n₁ hcurrent hj₁ => ?_
  refine (hinitial current hj₁).bind fun initial m₂ n₂ hlooked hj₂ => ?_
  have hlook : s.look key m.host = (current, initial, m₂.host) ∧ m₂.gas = m.gas := by
    cases hcurrent
    unfold Effect.initialValue at hlooked
    unfold Setting.look
    by_cases hnet : s.schedule.rules.netSstore = true
    · rw [if_pos hnet] at hlooked
      cases hlooked
      exact ⟨if_pos hnet, rfl⟩
    · rw [if_neg hnet] at hlooked
      cases hlooked
      exact ⟨if_neg hnet, rfl⟩
  refine (charge_parallel _ hj₂).bind fun _ m₃ n₃ hcharge hj₃ => ?_
  have hpaid : m₃.host = m₂.host ∧ m₃.gas.refunded = m₂.gas.refunded := by
    obtain ⟨gas, hgas, rfl⟩ := of_charge_ok hcharge
    obtain ⟨-, rfl⟩ := Meter.of_charge? hgas
    exact ⟨rfl, rfl⟩
  have hwritten := h.write key value wasCold hj.state.2
  rw [hlook.1] at hwritten
  obtain ⟨hhost, -⟩ := hj₃.state
  refine .ok () ⟨?_, hj₃.stack, hj₃.returnData, hj₃.memory, ?_, ?_⟩
  · show n₃.gas.refund _ = m₃.gas.refund _
    rw [hj₃.gas]
    rfl
  · show (s.host.answer _ m₃.host).2 = (s.host.answer _ n₃.host).2
    rw [hhost]
    rfl
  · show P (s.host.answer _ m₃.host).2 (m₃.gas.refunded + _)
    rw [hpaid.1, hpaid.2, hlook.2]
    exact hwritten

theorem kept (h : s.Earns guarded P) : (Link.invariant P).Kept s s.host guarded where
  faithful := .of_eq rfl
  quiet q hq := by
    refine h.answers q ?_
    cases q with
    | setStorage a key value => cases hq
    | _ => rfl
  loud _ :=
    { sstore := h.sstore_parallel
      tstore := Effect.tstore_parallel fun q _ => h.answers q
      log := Effect.log_parallel (.of_eq rfl) fun q _ => h.answers q
      selfDestruct := Effect.selfDestruct_parallel (fun q _ => h.answers q) fun _ _ _ k hk hstate =>
        ⟨hstate.1, h.more k hk hstate.2⟩ }
  call := by
    rintro req memory _ p _ r hreq rfl ⟨rfl, hP⟩
    cases hcall : s.host.call req memory p with
    | error t => exact .error t
    | ok result => exact .ok result.1 rfl ⟨rfl, h.call hreq hP hcall⟩

end Setting.Earns

end MeteredEvm
