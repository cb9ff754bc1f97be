import MeteredEvm.Host.Scripted
import MeteredEvm.World.Transaction
import MeteredEvm.Proofs.Conservation

/-!
# `MeteredEvm.Proofs.CallTree` — frames inside frames

The world runs the children of a frame on itself, one level further down. What a frame relies on
(children give back no more gas than they were given, they end, and they leave the memory alone) is
what the run of a frame provides, so it holds at every level by induction on the levels below.

## Contents
* `Host.Honest`, `Host.Fair`, `Host.KeepsMemory` — hosts whose children behave.
* `Frame.run_keepsMemory` — a frame leaves the memory as it found it.
* `Chain.perform_cases` — a child does not start, or runs in a new frame.
* `Chain.hostAt_honest`, `Chain.hostAt_keepsMemory`, `Chain.hostAt_fair` — the world at every level.
* `execute_withCall`, `Chain.performShallow_eq` — no frame is deeper than the limit.
* `gas_conserved`, `execution_terminates`, `halted_frame_and_closed_view_trap`.
-/

namespace MeteredEvm

open Exec

variable {σ : Type} {s : Setting σ} {host : Host σ} {m m' : Machine σ}

/-! ## Hosts -/

/-- **Children give back no more than they were given**: `gasLeft` is at most the `gas` of the request. -/
def Host.Honest (host : Host σ) : Prop :=
  ∀ ⦃req memory state result memory' state'⦄, req.gas < u64Size →
    host.call req memory state = .ok (result, memory', state') → result.gasLeft ≤ req.gas

/-- **Children end, give back no more than they were given, and leave their caller a memory to go on
    with**: it is `Memory.Sound`, and its `size` is no smaller than it was. -/
def Host.Fair (host : Host σ) : Prop :=
  ∀ ⦃req memory⦄ (state : σ), req.gas < u64Size → memory.Sound →
    ∃ result memory' state', host.call req memory state = .ok (result, memory', state') ∧
      result.gasLeft ≤ req.gas ∧ memory'.Sound ∧ memory.size ≤ memory'.size

/-- **Children leave the memory as they found it**, whatever `Host.call` is asked for. -/
def Host.KeepsMemory (host : Host σ) : Prop :=
  ∀ ⦃req memory state result memory' state'⦄,
    host.call req memory state = .ok (result, memory', state') → memory' = memory

theorem Host.Honest.setting (h : host.Honest) (f : Frame) (config : Config) :
    (f.setting config host).Honest := by
  intro req memory state result memory' state' _ hgas hcall
  exact h hgas hcall

theorem Host.Fair.setting (h : host.Fair) (f : Frame) (config : Config) :
    (f.setting config host).Fair := by
  intro req memory state _ hgas hmemory
  exact h state hgas hmemory

/-! ## Memory -/

/-- No single change touches what is below the view. -/
theorem Nudge.sameBelow (hkeeps : s.host.KeepsMemory) (h : Nudge s m m') :
    m.memory.SameBelow m'.memory := by
  cases h with
  | grow hgrow => exact Memory.grow_sameBelow hgrow
  | write hle => exact Memory.write_sameBelow hle
  | @call _ _ _ memory _ hcall =>
      have hsame : memory = m.memory := hkeeps hcall
      rw [hsame]
      exact .refl _
  | _ => exact .refl _

theorem Nudges.sameBelow (hkeeps : s.host.KeepsMemory) (h : Nudges s m m') :
    m.memory.SameBelow m'.memory := by
  induction h with
  | refl => exact .refl _
  | tail _ hstep ih => exact ih.trans (hstep.sameBelow hkeeps)

/-- **A frame leaves the memory as it found it**, if its children do. -/
theorem Frame.run_keepsMemory (hkeeps : host.KeepsMemory) {config : Config} {context : CallContext}
    {input code : ByteArray} {gasLimit : Nat} {memory memory' : Memory} {state state' : σ}
    {result : Result} {f' : Frame}
    (h : (fresh config context input gasLimit code).run config host memory state =
      .ok (result, f', memory', state')) : memory' = memory := by
  obtain ⟨halt, -, -, -, rfl, -⟩ := of_run_ok h
  have hnudges := run_nudges config host context input gasLimit code memory state
  exact Memory.exit_of_sameBelow (hnudges.sameBelow hkeeps)

/-- Running a code is running its new frame. -/
theorem of_execute_ok {config : Config} {context : CallContext} {input code : ByteArray}
    {gasLimit : Nat} {memory memory' : Memory} {state state' : σ} {result : Result}
    (h : execute config host context input gasLimit code memory state =
      .ok (result, memory', state')) :
    ∃ f', (Frame.fresh config context input gasLimit code).run config host memory state =
      .ok (result, f', memory', state') := by
  cases hrun : (Frame.fresh config context input gasLimit code).run config host memory state with
  | error t =>
      have herror : execute config host context input gasLimit code memory state = .error t := by
        show (Frame.run _ config host memory state >>= _) = _
        rw [show Frame.new _ _ _ _ = Frame.fresh config context input gasLimit code from rfl, hrun]
        rfl
      rw [herror] at h
      cases h
  | ok r =>
      have hok : execute config host context input gasLimit code memory state =
          .ok (r.1, r.2.2.1, r.2.2.2) := by
        show (Frame.run _ config host memory state >>= _) = _
        rw [show Frame.new _ _ _ _ = Frame.fresh config context input gasLimit code from rfl, hrun]
        rfl
      rw [hok] at h
      cases h
      exact ⟨r.2.1, rfl⟩

/-! ## One child -/

namespace Chain

variable {c : Chain} {req : CallRequest} {memory memory' : Memory} {w w' : World} {p : Performed}

/-- What a child given some gas can make of the result of its frame: leave it, lose all gas, or pay
    for the code that it deploys. -/
inductive Comes (gas : Nat) (result : Result) : Result → Prop where
  | same : Comes gas result result
  | consumed : Comes gas result (.consumed gas)
  | deployed (address : Address) (code : ByteArray) (j : Journal) :
      Comes gas result (deploy address code result j).1

/-- All of it accounts for the gas. -/
theorem Comes.sum {gas : Nat} {result r : Result} (h : Comes gas result r)
    (hsum : result.gasUsed + result.gasRemaining = gas) : r.gasUsed + r.gasRemaining = gas := by
  cases h with
  | same => exact hsum
  | consumed => exact Nat.add_zero gas
  | deployed address code j =>
      unfold deploy
      dsimp only
      by_cases hpaid : deposit code ≤ result.gasRemaining
      · rw [if_pos hpaid]
        dsimp only
        omega
      · rw [if_neg hpaid]
        exact hsum

theorem settleCreate_comes (c : Chain) (req : CallRequest) (address : Address) (before : Journal)
    (result : Result) (after : World) :
    Comes req.gas result (c.settleCreate req address before result after).1.result := by
  unfold settleCreate
  split
  · rename_i code _
    split
    · exact .consumed
    · exact .deployed address code after.journal
  · exact .same

/-- **A child does not start, or runs in a new frame at its depth**; its host matters only to that
    frame. -/
theorem perform_cases (c : Chain) (req : CallRequest) (memory : Memory) (w : World) :
    (∃ p w', (p.result = .untouched req.gas ∨ p.result = .consumed req.gas) ∧
      ∀ host, c.perform host req memory w = .ok (p, memory, w')) ∨
    ∃ context input code before, ∃ settle : Result → World → Performed × World,
      context.depth = req.depth ∧
      (∀ result after, Comes req.gas result (settle result after).1.result) ∧
      ∀ host, c.perform host req memory w = do
        let (result, memory, after) ←
          execute c.config host context input req.gas code memory before
        return ((settle result after).1, memory, (settle result after).2) := by
  unfold perform
  by_cases hcreate : req.kind.isCreate = true
  · simp only [hcreate, if_true]
    -- a creation lacks the balance, meets an account, or runs its code
    unfold runCreate
    by_cases hbalance : w.journal.balance req.caller < req.value
    · exact .inl ⟨_, w, .inl rfl, fun host => by rw [if_pos hbalance]⟩
    · simp only [hbalance, if_false]
      split
      · exact .inl ⟨_, _, .inr rfl, fun host => rfl⟩
      · exact .inr ⟨_, _, _, _, c.settleCreate req _ _, rfl, c.settleCreate_comes req _ _,
          fun host => rfl⟩
  · simp only [hcreate]
    -- a call cannot pay its value, or runs the code of its target
    unfold runCall
    cases henter : c.enterCall? req w.journal with
    | none => exact .inl ⟨_, w, .inl rfl, fun host => rfl⟩
    | some j =>
        refine .inr ⟨callContext req, req.input, _, { w with journal := j }, fun result after =>
          ({ result }, { after with
            journal := if result.isSuccess then after.journal.addRefund result.refund
              else w.journal }), rfl, fun _ _ => .same, fun host => rfl⟩

/-- The pieces of a child that came to a result. -/
theorem of_perform_ok {host : Host World} (h : c.perform host req memory w = .ok (p, memory', w')) :
    (memory' = memory ∧ (p.result = .untouched req.gas ∨ p.result = .consumed req.gas)) ∨
      ∃ context input code before result after, context.depth = req.depth ∧
        execute c.config host context input req.gas code memory before =
          .ok (result, memory', after) ∧
        Comes req.gas result p.result := by
  obtain ⟨p₀, w₀, hresult, hperform⟩ | ⟨context, input, code, before, settle, hdepth, hcomes, hperform⟩ :=
    c.perform_cases req memory w
  · rw [hperform] at h
    cases h
    exact .inl ⟨rfl, hresult⟩
  · rw [hperform] at h
    cases hexecute : execute c.config host context input req.gas code memory before with
    | error t =>
        rw [hexecute] at h
        cases h
    | ok r =>
        rw [hexecute] at h
        cases h
        exact .inr ⟨context, input, code, before, r.1, r.2.2, hdepth, hexecute, hcomes ..⟩

/-- **A child accounts for the gas that it was given.** -/
theorem perform_sum {host : Host World} (hhost : host.Honest) (hgas : req.gas < u64Size)
    (h : c.perform host req memory w = .ok (p, memory', w')) :
    p.result.gasUsed + p.result.gasRemaining = req.gas := by
  obtain ⟨-, hresult | hresult⟩ | ⟨context, input, code, before, result, after, -, hexecute, hcomes⟩ :=
    of_perform_ok h
  · rw [hresult]
    exact Nat.zero_add req.gas
  · rw [hresult]
    exact Nat.add_zero req.gas
  · obtain ⟨f', hrun⟩ := of_execute_ok hexecute
    exact hcomes.sum (Frame.run_balanced (hhost.setting _ c.config) hgas hrun).sum

theorem perform_keepsMemory {host : Host World} (hhost : host.KeepsMemory)
    (h : c.perform host req memory w = .ok (p, memory', w')) : memory' = memory := by
  obtain ⟨hmemory, -⟩ | ⟨context, input, code, before, result, after, -, hexecute, -⟩ :=
    of_perform_ok h
  · exact hmemory
  · obtain ⟨f', hrun⟩ := of_execute_ok hexecute
    exact Frame.run_keepsMemory hhost hrun

/-- **A child comes to a result**, if its own children at its depth do. -/
theorem perform_ok {host : Host World} (hhost : host.Honest)
    (hfair : ∀ s : Setting World, s.host = host → s.maxCallDepth = c.config.maxCallDepth →
      s.context.depth = req.depth → s.Fair)
    (hgas : req.gas < u64Size) (hmemory : memory.limit ≤ Memory.pricedLimit) (w : World) :
    ∃ p memory' w', c.perform host req memory w = .ok (p, memory', w') := by
  obtain ⟨p, w', -, hperform⟩ | ⟨context, input, code, before, settle, hdepth, -, hperform⟩ :=
    c.perform_cases req memory w
  · exact ⟨p, memory, w', hperform host⟩
  · obtain ⟨r, hrun⟩ := Frame.run_ok (hhost.setting (Frame.fresh c.config context input req.gas code) _)
      (hfair _ rfl rfl hdepth) hgas hmemory before
    have hexecute : execute c.config host context input req.gas code memory before =
        .ok (r.1, r.2.2.1, r.2.2.2) := by
      show (Frame.run (Frame.fresh ..) c.config host memory before >>= _) = _
      rw [hrun]
      rfl
    refine ⟨(settle r.1 r.2.2.2).1, r.2.2.1, (settle r.1 r.2.2.2).2, ?_⟩
    rw [hperform, hexecute]
    rfl

/-! ## All levels -/

/-- The pieces of a call to the world. -/
theorem of_hostWith_call {perform : Performer} {result : CallResult}
    (h : (c.hostWith perform).call req memory w = .ok (result, memory', w')) :
    ∃ p, perform req memory w = .ok (p, memory', w') ∧ result = p.callResult := by
  have h : (perform req memory w >>= fun r => pure (r.1.callResult, r.2)) = .ok (result, memory', w') := h
  cases hperform : perform req memory w with
  | error t =>
      rw [hperform] at h
      cases h
  | ok r =>
      obtain ⟨p, memory₁, w₁⟩ := r
      rw [hperform] at h
      cases h
      exact ⟨p, rfl, rfl⟩

theorem hostWith_call {perform : Performer} (h : perform req memory w = .ok (p, memory', w')) :
    (c.hostWith perform).call req memory w = .ok (p.callResult, memory', w') := by
  show (perform req memory w >>= fun r => pure (r.1.callResult, r.2)) = _
  rw [h]
  rfl

/-- **No level makes gas.** -/
theorem hostAt_honest (c : Chain) (levels : Nat) : (c.hostAt levels).Honest := by
  induction levels with
  | zero =>
      intro req memory w result memory' w' _ hcall
      obtain ⟨p, hperform, -⟩ := of_hostWith_call hcall
      cases hperform
  | succ levels ih =>
      intro req memory w result memory' w' hgas hcall
      obtain ⟨p, hperform, rfl⟩ := of_hostWith_call hcall
      have hsum := perform_sum ih hgas hperform
      show p.result.gasRemaining ≤ req.gas
      omega

/-- **No level leaves anything in the memory.** -/
theorem hostAt_keepsMemory (c : Chain) (levels : Nat) : (c.hostAt levels).KeepsMemory := by
  induction levels with
  | zero =>
      intro req memory w result memory' w' hcall
      obtain ⟨p, hperform, -⟩ := of_hostWith_call hcall
      cases hperform
  | succ levels ih =>
      intro req memory w result memory' w' hcall
      obtain ⟨p, hperform, -⟩ := of_hostWith_call hcall
      exact perform_keepsMemory ih hperform

/-- **A world with enough levels is fair to its frames.** A frame at the depth limit asks for no
    child, so the levels below it suffice. -/
theorem hostAt_fair (c : Chain) {levels : Nat} {s : Setting World} (hhost : s.host = c.hostAt levels)
    (hmax : s.maxCallDepth = c.config.maxCallDepth)
    (hlevels : s.maxCallDepth ≤ s.context.depth + levels) : s.Fair := by
  induction levels generalizing s with
  | zero =>
      intro req memory w hissues
      -- no level is left, so the frame stands at the limit and asks for no child
      obtain ⟨-, hlt⟩ := hissues.depth
      omega
  | succ levels ih =>
      intro req memory w hissues hgas hsound
      obtain ⟨hdepth, hlt⟩ := hissues.depth
      -- a child stands one level further down, where by induction the world is fair
      have hbelow (s' : Setting World) (hhost' : s'.host = c.hostAt levels)
          (hmax' : s'.maxCallDepth = c.config.maxCallDepth) (hdepth' : s'.context.depth = req.depth) :
          s'.Fair :=
        ih hhost' hmax' (by omega)
      obtain ⟨p, memory', w', hperform⟩ :=
        perform_ok (c.hostAt_honest levels) hbelow hgas hsound.limit_le w
      have hsum := perform_sum (c.hostAt_honest levels) hgas hperform
      obtain rfl := perform_keepsMemory (c.hostAt_keepsMemory levels) hperform
      refine ⟨p.callResult, memory', w', ?_, ?_, hsound, Nat.le_refl _⟩
      · rw [hhost]
        exact hostWith_call hperform
      · show p.result.gasRemaining ≤ req.gas
        omega

/-- **Every child of the world comes to a result**, whatever its depth. -/
theorem performAll_ok (c : Chain) (hgas : req.gas < u64Size)
    (hmemory : memory.limit ≤ Memory.pricedLimit) (w : World) :
    ∃ p w', c.performAll req memory w = .ok (p, memory, w') := by
  have hlevels (s : Setting World) (hhost : s.host = c.hostAt (c.levelsBelow req.depth))
      (hmax : s.maxCallDepth = c.config.maxCallDepth) (hdepth : s.context.depth = req.depth) :
      s.Fair := by
    apply c.hostAt_fair hhost hmax
    unfold levelsBelow
    omega
  obtain ⟨p, memory', w', hperform⟩ := perform_ok (c.hostAt_honest _) hlevels hgas hmemory w
  obtain rfl := perform_keepsMemory (c.hostAt_keepsMemory _) hperform
  exact ⟨p, w', hperform⟩

theorem performAll_sum (c : Chain) (hgas : req.gas < u64Size)
    (h : c.performAll req memory w = .ok (p, memory', w')) :
    p.result.gasUsed + p.result.gasRemaining = req.gas :=
  perform_sum (c.hostAt_honest _) hgas h

theorem host_honest (c : Chain) : c.host.Honest := by
  intro req memory w result memory' w' hgas hcall
  obtain ⟨p, hperform, rfl⟩ := of_hostWith_call hcall
  have hsum := c.performAll_sum hgas hperform
  show p.result.gasRemaining ≤ req.gas
  omega

theorem host_fair (c : Chain) : c.host.Fair := by
  intro req memory w hgas hsound
  obtain ⟨p, w', hperform⟩ := c.performAll_ok hgas hsound.limit_le w
  have hsum := c.performAll_sum hgas hperform
  refine ⟨p.callResult, memory, w', hostWith_call hperform, ?_, hsound, Nat.le_refl _⟩
  show p.result.gasRemaining ≤ req.gas
  omega

/-- A frame from outside comes to a receipt. -/
theorem runOutermost_ok (c : Chain) (hmemory : c.config.memoryLimit ≤ Memory.pricedLimit)
    (hgas : req.gas < u64Size) (w : World) : ∃ receipt w', c.runOutermost req w = .ok (receipt, w') := by
  have hlimit : (Memory.new c.config.memoryLimit).limit ≤ Memory.pricedLimit := hmemory
  obtain ⟨p, w', hperform⟩ := c.performAll_ok hgas hlimit w
  unfold runOutermost
  rw [hperform]
  exact ⟨_, w', rfl⟩

end Chain

/-! ## Depth -/

section Depth

variable {call : CallRequest → Memory → σ → Except Trap (CallResult × Memory × σ)}

/-- The setting with another way of running children. -/
def Setting.withCall (s : Setting σ)
    (call : CallRequest → Memory → σ → Except Trap (CallResult × Memory × σ)) : Setting σ :=
  { s with host := { s.host with call } }

/-- Two ways of running children that agree on those that a frame of the setting can ask for, `call` and
    that of the `host`. -/
def Setting.Indifferent (s : Setting σ)
    (call : CallRequest → Memory → σ → Except Trap (CallResult × Memory × σ)) : Prop :=
  ∀ ⦃req memory state⦄, s.context.depth < s.maxCallDepth → req.depth = s.context.depth + 1 →
    call req memory state = s.host.call req memory state

theorem Exec.call_withCall (hcall : s.Indifferent call) (hdepth : s.context.depth < s.maxCallDepth)
    {req : CallRequest} (hreq : req.depth = s.context.depth + 1) :
    Exec.call (s.withCall call) req = Exec.call s req := by
  funext m
  unfold Exec.call
  rw [show (s.withCall call).host.call = call from rfl, hcall hdepth hreq]

theorem Effect.call_withCall (hcall : s.Indifferent call) (op : CallOp) :
    Effect.call (s.withCall call) op = Effect.call s op := by
  by_cases hdepth : s.maxCallDepth ≤ s.context.depth
  · unfold Effect.call
    rw [show (s.withCall call).maxCallDepth = s.maxCallDepth from rfl,
      show (s.withCall call).context = s.context from rfl]
    simp only [if_pos hdepth]
    rfl
  · have hrun (o : CallOperands) (input output : Option (Nat × Nat)) (childGas : Nat) :
        runCall (s.withCall call) op o input output childGas = runCall s op o input output childGas := by
      have hchild (data : ByteArray) (gas : Nat) :
          Exec.call (s.withCall call) (callRequest s.context op o data gas) =
            Exec.call s (callRequest s.context op o data gas) :=
        Exec.call_withCall hcall (Nat.not_le.1 hdepth) rfl
      unfold runCall
      rw [show (s.withCall call).context = s.context from rfl]
      simp only [hchild]
    -- at the limit a call runs no child
    unfold Effect.call
    simp only [hrun]
    rfl

theorem Effect.create_withCall (hcall : s.Indifferent call) (salted : Bool) :
    Effect.create (s.withCall call) salted = Effect.create s salted := by
  by_cases hdepth : s.maxCallDepth ≤ s.context.depth
  · unfold Effect.create
    rw [show (s.withCall call).maxCallDepth = s.maxCallDepth from rfl,
      show (s.withCall call).context = s.context from rfl]
    simp only [if_pos hdepth]
    rfl
  · have hrun (kind : CallKind) (value : Word) (range : Option (Nat × Nat)) :
        runCreate (s.withCall call) kind value range = runCreate s kind value range := by
      have hchild (initCode : ByteArray) (gas : Nat) :
          Exec.call (s.withCall call) (createRequest s.context kind value initCode gas) =
            Exec.call s (createRequest s.context kind value initCode gas) :=
        Exec.call_withCall hcall (Nat.not_le.1 hdepth) rfl
      unfold runCreate
      rw [show (s.withCall call).context = s.context from rfl]
      simp only [hchild]
      rfl
    -- at the limit a creation runs no child
    unfold Effect.create
    simp only [hrun]
    rfl

/-- **Only calls and creations run children**, and only one level down. -/
theorem Op.exec_withCall (hcall : s.Indifferent call) (op : Op) (ins : Instruction) :
    op.exec (s.withCall call) ins = op.exec s ins := by
  cases op with
  | call kind =>
      show andNext (Effect.observing ins.correction (Effect.call (s.withCall call) kind)) = _
      rw [Effect.call_withCall hcall]
      rfl
  | create salted =>
      show andNext (Effect.observing ins.correction (Effect.create (s.withCall call) salted)) = _
      rw [Effect.create_withCall hcall]
      rfl
  | _ => rfl

theorem step_withCall (hcall : s.Indifferent call) (guarded : Bool) (ins : Instruction) :
    step (s.withCall call) guarded ins = step s guarded ins := by
  unfold step
  cases ins.op with
  | none => rfl
  | some op =>
      dsimp only
      rw [Op.exec_withCall hcall]

theorem stretch_withCall (hcall : s.Indifferent call) (guarded : Bool) (left c : Nat)
    (m : Machine σ) : stretch (s.withCall call) guarded left c m = stretch s guarded left c m := by
  induction left generalizing c m with
  | zero => rfl
  | succ left ih =>
      unfold stretch
      rw [show (s.withCall call).code = s.code from rfl]
      cases s.code.instructions[c]? with
      | none => rfl
      | some ins =>
          dsimp only
          rw [step_withCall hcall]
          cases step s guarded ins m with
          | error e m' => rfl
          | ok flow m' =>
              cases flow with
              | next => exact ih (c + 1) m'
              | jump target => rfl
              | halt e => rfl

theorem runFrom_withCall (hcall : s.Indifferent call) (guarded : Bool) (jumps c : Nat)
    (m : Machine σ) : runFrom (s.withCall call) guarded jumps c m = runFrom s guarded jumps c m := by
  induction jumps generalizing c m with
  | zero =>
      unfold runFrom
      rw [stretch_withCall hcall]
      rfl
  | succ jumps ih =>
      unfold runFrom
      rw [stretch_withCall hcall, show (s.withCall call).code = s.code from rfl]
      cases stretch s guarded (s.code.instructions.size - c) c m with
      | ended e => rfl
      | jumped c' m' => exact ih c' m'

theorem run_withCall (hcall : s.Indifferent call) (c : Nat) (m : Machine σ) :
    run (s.withCall call) c m = run s c m :=
  runFrom_withCall hcall ..

/-- **A frame needs its host for children within the depth limit only.** -/
theorem execute_withCall (config : Config) (host : Host σ)
    (hcall : ∀ {req memory state}, req.depth ≤ config.maxCallDepth →
      call req memory state = host.call req memory state)
    (context : CallContext) (input : ByteArray) (gasLimit : Nat) (code : ByteArray) (memory : Memory)
    (state : σ) :
    execute config { host with call } context input gasLimit code memory state =
      execute config host context input gasLimit code memory state := by
  have hindifferent (f : Frame) : (f.setting config host).Indifferent call := by
    intro req memory state hdepth hreq
    apply hcall
    rw [hreq]
    exact hdepth
  have hrun (f : Frame) :
      f.run config { host with call } memory state = f.run config host memory state := by
    unfold Frame.run
    rw [show f.setting config { host with call } = (f.setting config host).withCall call from rfl]
    rw [run_withCall (hindifferent f)]
  unfold execute
  dsimp only
  rw [hrun]

end Depth

namespace Chain

/-- Refuse frames deeper than the limit. -/
def refuseDeep (c : Chain) (perform : Performer) : Performer := fun req memory w =>
  if req.depth ≤ c.config.maxCallDepth then perform req memory w else .error .depth

/-- The world that refuses frames deeper than the limit, for frames with `levels` levels below. -/
def shallowHostAt (c : Chain) : (levels : Nat) → Host World
  | 0 => c.hostWith (c.refuseDeep fun _ _ _ => .error .depth)
  | levels + 1 => c.hostWith (c.refuseDeep fun req memory w =>
      c.perform (c.shallowHostAt levels) req memory w)

/-- Run a frame and all frames below it, and refuse any that is deeper than the limit. -/
def performShallow (c : Chain) : Performer :=
  c.refuseDeep fun req memory w =>
    c.perform (c.shallowHostAt (c.levelsBelow req.depth)) req memory w

/-- Children that run the same frames come to the same. -/
theorem perform_congr (c : Chain) {host host' : Host World} {req : CallRequest} {memory : Memory}
    (h : ∀ context input code before, execute c.config host context input req.gas code memory before =
      execute c.config host' context input req.gas code memory before) (w : World) :
    c.perform host req memory w = c.perform host' req memory w := by
  obtain ⟨p, w', -, hperform⟩ | ⟨context, input, code, before, settle, -, -, hperform⟩ :=
    c.perform_cases req memory w
  · rw [hperform, hperform]
  · rw [hperform, hperform, h]

/-- Within the limit nothing is refused. -/
theorem hostWith_refuseDeep (c : Chain) (perform : Performer) {req : CallRequest}
    (hdepth : req.depth ≤ c.config.maxCallDepth) (memory : Memory) (w : World) :
    (c.hostWith (c.refuseDeep perform)).call req memory w =
      (c.hostWith perform).call req memory w := by
  show (c.refuseDeep perform req memory w >>= _) = _
  unfold refuseDeep
  rw [if_pos hdepth]
  rfl

theorem perform_shallowHostAt (c : Chain) (levels : Nat) (req : CallRequest) (memory : Memory)
    (w : World) :
    c.perform (c.shallowHostAt levels) req memory w = c.perform (c.hostAt levels) req memory w := by
  induction levels generalizing req memory w with
  | zero =>
      refine c.perform_congr (fun context input code before => ?_) w
      exact execute_withCall c.config (c.hostAt 0)
        (fun hdepth => c.hostWith_refuseDeep _ hdepth ..) ..
  | succ levels ih =>
      refine c.perform_congr (fun context input code before => ?_) w
      refine execute_withCall c.config (c.hostAt (levels + 1)) (fun {req memory w} hdepth => ?_) ..
      -- the worlds differ in how they run children, and those are the same by induction
      have hbelow : (fun req memory w => c.perform (c.shallowHostAt levels) req memory w) =
          fun req memory w => c.perform (c.hostAt levels) req memory w := by
        funext req memory w
        exact ih req memory w
      show (c.hostWith (c.refuseDeep fun req memory w =>
        c.perform (c.shallowHostAt levels) req memory w)).call req memory w = _
      rw [hbelow]
      exact c.hostWith_refuseDeep _ hdepth memory w

/-- **No frame is run deeper than the limit**: refusing such frames makes no difference. -/
theorem performShallow_eq (c : Chain) {req : CallRequest} (hdepth : req.depth ≤ c.config.maxCallDepth)
    (memory : Memory) (w : World) : c.performShallow req memory w = c.performAll req memory w := by
  unfold performShallow refuseDeep
  rw [if_pos hdepth]
  exact c.perform_shallowHostAt _ req memory w

end Chain

/-! ## The whole tree -/

theorem exists_ok_of_toOption {ε α β : Type} {x : Except ε α} {f : α → β} {b : β}
    (h : x.toOption.map f = some b) : ∃ a, x = .ok a ∧ f a = b := by
  cases x with
  | error e => cases h
  | ok a => exact ⟨a, rfl, Option.some.inj h⟩

/-- **The meter of a running frame**: it is within its limit, and the next instruction does not go
    over it, not even while it holds gas that the rest of its block has paid; nor does any sum of gas
    leave the range of amounts. Checking all that, with any failure `e`, makes no difference. -/
structure Metered (s : Setting σ) (gasLimit c : Nat) (m : Machine σ) : Prop where
  limit : m.gas.limit = gasLimit
  remaining : m.gas.remaining ≤ gasLimit
  checked : ∀ {ins op} (e : Failure), s.code.instructions[c]? = some ins → ins.op = some op →
    op.execWith (.checked e) s ins m = op.exec s ins m

theorem Solvent.metered {is : InstructionSet} {code : ByteArray} {limit r c : Nat}
    (hcode : s.code = analyze is code) (hhost : s.Honest) (hlimit : limit < u64Size)
    (h : Solvent False is code limit r c m) : Metered s limit c m where
  limit := h.limit_eq
  remaining := h.remaining_le
  checked e hins hop :=
    h.execWith_eq (Addition.checked_faithful e) hcode hhost False.elim hlimit hins hop

/-- **Gas is conserved.** On an `Honest` host, the meter of a frame stays within its limit (`Metered`),
    and its result accounts for all gas (`Result.Balanced`). `Chain.host` is such a host: every child
    that `Chain.performAll` runs accounts for the gas that it was given, whatever it is and whatever
    runs below it. -/
theorem gas_conserved (config : Config) (hhost : host.Honest) (context : CallContext)
    (input : ByteArray) {gasLimit : Nat} (hgas : gasLimit < u64Size) (code : ByteArray)
    (memory : Memory) (state : σ) (chain : Chain) :
    let f := Frame.fresh config context input gasLimit code
    (∀ guarded c m, Reaches (turn (f.setting config host) guarded) f.cursor
      (f.machine memory.enter state) c m → Metered (f.setting config host) gasLimit c m) ∧
    (∀ result f' memory' state', f.run config host memory state = .ok (result, f', memory', state') →
      result.Balanced gasLimit) ∧
    (∀ req memory w p memory' w', req.gas < u64Size →
      chain.performAll req memory w = .ok (p, memory', w') →
        p.result.gasUsed + p.result.gasRemaining = req.gas) ∧
    (∀ req memory w, req.gas < u64Size → memory.limit ≤ Memory.pricedLimit →
      ∃ p w', chain.performAll req memory w = .ok (p, memory, w')) ∧
    chain.host.Honest := by
  intro f
  have hsetting := hhost.setting f config
  refine ⟨fun guarded c m hreach => ?_, fun _ _ _ _ hrun => Frame.run_balanced hsetting hgas hrun,
    fun _ _ _ _ _ _ hreq hperform => chain.performAll_sum hreq hperform,
    fun _ _ w hreq hmemory => chain.performAll_ok hreq hmemory w, chain.host_honest⟩
  have hstart : ∃ r, Solvent False (.ofFork config.fork) code gasLimit r f.cursor
      (f.machine memory.enter state) :=
    ⟨gasLimit, Solvent.start False _ code rfl (Nat.le_refl _) False.elim⟩
  obtain ⟨r, hsolvent⟩ :=
    hreach.invariant (P := fun c m => ∃ r, Solvent False (.ofFork config.fork) code gasLimit r c m)
      hstart fun ⟨r, hsolvent⟩ hturn => by
        obtain ⟨-, r', hnext, -⟩ := hsolvent.turn rfl hsetting False.elim hgas hturn
        exact ⟨r', hnext⟩
  exact hsolvent.metered rfl hsetting hgas

/-- A call that sends one unit and no gas to the account `0xbb`. -/
def sendOne : ByteArray := ⟨#[0x5f, 0x5f, 0x5f, 0x5f, 0x60, 0x01, 0x60, 0xbb, 0x5f, 0xf1]⟩

/-- A world where the account zero has something to send and the account `0xbb` has code. -/
def funded : World :=
  (World.setAccount {} 0 { balance := 1 }).setAccount 0xbb { code := pushAndDrop }

/-- The frame of `sendOne` in that world runs a child on nothing but the stipend, of which it gets back
    all but 4 units. The frame and the child account for all their gas. -/
theorem gas_conserved_sendOne :
    let child := Effect.callRequest {} .call ⟨0, 0xbb, 1, 0, 0, 0, 0⟩ .empty Gas.callStipend
    ({} : Chain).host.Honest ∧ 50000 < u64Size ∧
      (∃ result f' memory' w',
        (Frame.fresh {} {} .empty 50000 sendOne).run {} ({} : Chain).host (.new 64) funded =
          .ok (result, f', memory', w') ∧
        result.Balanced 50000 ∧ result.gasUsed = 9320 ∧ w'.journal.balance 0xbb = 1#256) ∧
      ∃ p w', ({} : Chain).performAll child (.new 64) funded = .ok (p, .new 64, w') ∧
        p.result.gasUsed + p.result.gasRemaining = Gas.callStipend := by
  intro child
  have hhost : ({} : Chain).host.Honest := Chain.host_honest {}
  have hgas : 50000 < u64Size := by decide
  have hchild : child.gas < u64Size := by decide
  have hends : ((Frame.fresh {} {} .empty 50000 sendOne).run {} ({} : Chain).host (.new 64)
      funded).toOption.map (fun r => (r.1.gasUsed, r.2.2.2.journal.balance 0xbb)) =
        some (9320, 1#256) := by
    decide +kernel
  obtain ⟨⟨result, f', memory', w'⟩, hrun, hparts⟩ := exists_ok_of_toOption hends
  obtain ⟨hused, hmoved⟩ := Prod.mk.inj hparts
  obtain ⟨-, hframes, hchildren, hresults, -⟩ :=
    gas_conserved {} hhost {} .empty hgas sendOne (.new 64) funded {}
  obtain ⟨p, v, hperform⟩ := hresults child (.new 64) funded hchild (by decide)
  exact ⟨hhost, hgas, ⟨result, f', memory', w', hrun, hframes _ _ _ _ hrun, hused, hmoved⟩,
    p, v, hperform, hchildren child (.new 64) funded p _ v hchild hperform⟩

/-- **Every execution from the start of a frame ends.** On an `Honest` host, a frame that is new or
    reset (`Frame.AtStart`) ends after no more turns than its gas and its code allow; by a halt or a
    fault, where memory is limited to `Memory.pricedLimit` and the host is `Fair`. In the world, every
    `Chain.call` and every `Chain.deployCode` comes to a receipt, and no frame runs deeper than the
    limit: `Chain.performShallow`, which would refuse one, is `Chain.performAll`. -/
theorem execution_terminates (config : Config) (hhost : host.Honest) {f : Frame} {gasLimit : Nat}
    {code : ByteArray} (hf : f.AtStart config gasLimit code) (hgas : gasLimit < u64Size)
    (memory : Memory) (state : σ) (chain : Chain) :
    let s := f.setting config host
    let size := f.code.instructions.size
    (∃ n e, n ≤ gasLimit * (size + 1) + size + 1 ∧
      iterate (turn s (host.guard f.context state).1) n f.cursor
        (f.machine memory.enter (host.guard f.context state).2) = some e ∧
      run s f.cursor (f.machine memory.enter state) = e ∧
      (host.Fair → memory.limit ≤ Memory.pricedLimit →
        (∃ halt, e.halt = .ok halt) ∨ ∃ fault, e.halt = .error (.fault fault))) ∧
    (∀ caller target value input gas w, chain.config.memoryLimit ≤ Memory.pricedLimit →
      gas < u64Size →
        (∃ receipt w', chain.call caller target value input gas w = .ok (receipt, w')) ∧
        ∃ receipt w', chain.deployCode caller input value gas w = .ok (receipt, w')) ∧
    ∀ req memory w, req.depth ≤ chain.config.maxCallDepth →
      chain.performShallow req memory w = chain.performAll req memory w := by
  intro s size
  refine ⟨?_, fun caller target value input gas w hmemory hgas =>
    ⟨chain.runOutermost_ok hmemory hgas _, chain.runOutermost_ok hmemory hgas _⟩,
    fun req memory w hdepth => chain.performShallow_eq hdepth memory w⟩
  -- the bound comes without any assumption on memory; with one, the same end is no trap
  obtain ⟨n, e, hn, hiterate, hrun, -⟩ :=
    Frame.run_ends False hf memory state (hhost.setting f config) False.elim hgas False.elim
  refine ⟨n, e, hn, hiterate, hrun, fun hfair hmemory => ?_⟩
  obtain ⟨n', e', -, -, hrun', -, hfault⟩ :=
    Frame.run_ends True hf memory state (hhost.setting f config) (fun _ => hfair.setting f config)
      hgas fun _ => hmemory
  obtain rfl : e = e' := hrun.symm.trans hrun'
  cases hhalt : e.halt with
  | ok halt => exact .inl ⟨halt, rfl⟩
  | error failure =>
      obtain ⟨fault, rfl⟩ := hfault failure hhalt trivial
      exact .inr ⟨fault, rfl⟩

/-- A jump to itself. -/
def spin : ByteArray := ⟨#[0x5b, 0x60, 0x00, 0x56]⟩

/-- An endless loop ends on an empty world, in a frame that is reset, and so does a call there. -/
theorem execution_terminates_spin :
    let f := (Frame.fresh {} {} .empty 7 spin).reset 100
    ({} : Chain).host.Honest ∧ f.AtStart {} 100 spin ∧ 100 < u64Size ∧
      (∃ n e, iterate (turn (f.setting {} ({} : Chain).host) false) n 0
          (f.machine (Memory.new 64).enter {}) = some e ∧
        ((∃ halt, e.halt = .ok halt) ∨ ∃ fault, e.halt = .error (.fault fault))) ∧
      ∃ receipt w', ({} : Chain).call 0 1 0 .empty 100 {} = .ok (receipt, w') := by
  intro f
  have hhost : ({} : Chain).host.Honest := Chain.host_honest {}
  have hf : f.AtStart {} 100 spin := Frame.reset_atStart rfl
  have hgas : 100 < u64Size := by decide
  obtain ⟨⟨n, e, -, hiterate, -, hend⟩, hcall, -⟩ :=
    execution_terminates {} hhost hf hgas (.new 64) {} {}
  exact ⟨hhost, hf, hgas, ⟨n, e, hiterate, hend ({} : Chain).host_fair (by decide)⟩,
    (hcall 0 1 0 .empty 100 {} (by decide) hgas).1⟩

/-- A host whose children close the view of their caller, and hand out one byte and all their gas. -/
def closingHost : Host Script where
  answer := Script.answer
  call req memory s :=
    .ok ({ success := true, gasLeft := req.gas, output := ⟨#[1]⟩, created := none }, memory.exit, s)

theorem closingHost_honest : closingHost.Honest := by
  intro req memory s result memory' s' _ hcall
  cases hcall
  exact Nat.le_refl _

/-- A call of the account zero that sets one byte apart for the output. -/
def callForByte : ByteArray := ⟨#[0x60, 0x01, 0x5f, 0x5f, 0x5f, 0x5f, 0x5f, 0x5f, 0xf1]⟩

/-- A return of nothing. -/
def returnNothing : ByteArray := ⟨#[0x60, 0x00, 0x60, 0x00, 0xf3]⟩

/-- How the run of a frame traps, if it does. -/
def Frame.trap? (f : Frame) (host : Host σ) (memory : Memory) (state : σ) : Option Trap :=
  match f.run {} host memory state with
  | .ok _ => none
  | .error t => some t

/-- **Not every execution ends by a halt or a fault.** A frame that has halted goes on at its last
    instruction if it is run again without `Frame.reset`, and finds no operands there. A new frame
    finds no room for the output of a child of `closingHost`, which has closed its view, although the
    host is `Honest`. -/
theorem halted_frame_and_closed_view_trap :
    (∃ result f memory w, (Frame.fresh {} {} .empty 100000 returnNothing).run {} Script.host
        (.new 64) {} = .ok (result, f, memory, w) ∧
      result.isSuccess = true ∧ f.trap? Script.host memory w = some .stack) ∧
    closingHost.Honest ∧
      (Frame.fresh {} {} .empty 100000 callForByte).trap? closingHost (.new 64) {} =
        some .memory := by
  have hagain : ((Frame.fresh {} {} .empty 100000 returnNothing).run {} Script.host (.new 64)
      {}).toOption.map (fun r => (r.1.isSuccess, r.2.1.trap? Script.host r.2.2.1 r.2.2.2)) =
        some (true, some .stack) := by
    decide +kernel
  obtain ⟨⟨result, f, memory, w⟩, hrun, hparts⟩ := exists_ok_of_toOption hagain
  obtain ⟨hsuccess, htrap⟩ := Prod.mk.inj hparts
  exact ⟨⟨result, f, memory, w, hrun, hsuccess, htrap⟩, closingHost_honest, by decide +kernel⟩

end MeteredEvm
