import MeteredEvm.Proofs.BlockMetering
import MeteredEvm.Proofs.BlockSummaries

/-!
# `MeteredEvm.Proofs.GasThreshold` — the gas that a run needs

A code without instructions that look at the gas does not know how much it was given. So its run has
a bill, like a single computation: with a limit that covers the bill it goes the same way, whatever
else is on the meter, and with any other limit it runs out of gas somewhere on that way. The bill is
the gas that the run reports as used.

The price may be asked for at the entry of a block, for memory, or for the first use of a slot or an
account; where the meter runs dry does not matter, since every one of these fails in the same way.

## Contents
* `step_billed` — one instruction; `runFrom_buys` — a run.
* `Frame.run_eq` — the result of a frame from the end of its run.
* `Frame.Threshold`, `gas_used_is_threshold`.
-/

namespace MeteredEvm

variable {σ : Type} {s : Setting σ} {guarded : Bool}

/-! ## One instruction -/

theorem Instruction.observesGas_iff {ins : Instruction} :
    ins.ObservesGas ↔ ins.op.any Op.observesGas = true := by
  unfold ObservesGas
  cases ins.op with
  | none => simp
  | some op => cases op <;> simp [Op.observesGas]

instance Instruction.decidableObservesGas (ins : Instruction) : Decidable ins.ObservesGas :=
  decidable_of_iff _ Instruction.observesGas_iff.symm

theorem Op.outputs_le_stackLimit (op : Op) : op.outputs ≤ stackLimit := by
  have hlimit : stackLimit = 1024 := rfl
  cases op with
  | dup n =>
      show n.val + 2 ≤ stackLimit
      omega
  | swap n =>
      show n.val + 2 ≤ stackLimit
      omega
  | _ => exact Nat.le_of_ble_eq_true rfl

open Exec in
theorem Effect.enterBlock_billed (arg : Arg) : (Effect.enterBlock arg : Exec σ Unit).Billed := by
  cases arg with
  | block cost =>
      refine .bind (.of_priced (priced_charge cost.gas)) fun _ => .look (fun m => ?_) fun _ _ => rfl
      dsimp only
      split
      · exact .of_gasFree (gasFree_fault _)
      · split
        · exact .of_gasFree (gasFree_fault _)
        · exact .of_gasFree (gasFree_pure _)
  | _ => exact .of_gasFree (gasFree_pure _)

/-- **An instruction that does not look at the gas does the same on every meter that can pay.** -/
theorem step_billed {ins : Instruction} (hblind : ¬ ins.ObservesGas) : (step s guarded ins).Billed := by
  cases hop : ins.op with
  | none =>
      unfold step
      rw [hop]
      exact .of_gasFree (Exec.gasFree_fault _)
  | some op =>
      by_cases hdest : op = .jumpDest
      · subst hdest
        have hban : (checkStatic guarded .jumpDest : Exec σ Unit).Billed :=
          (checkStatic_typed (s := s) (b := 0) (h := 0) guarded .jumpDest).billed
        unfold step
        rw [hop]
        exact .bind hban fun _ => .bind (Effect.enterBlock_billed ins.arg) fun _ =>
          .of_gasFree (Exec.gasFree_pure _)
      · have hsight : op.sight = .blind := by
          rw [Instruction.observesGas_iff, hop] at hblind
          exact if_neg hblind
        -- the heights of the stack do not matter here, so any that leave room will do
        have htyped : Typed s op.sight 0 (0 + op.inputs) (0 + op.outputs) (step s guarded ins) :=
          step_typed guarded hop hdest (by rw [Nat.zero_add]; exact op.outputs_le_stackLimit)
        rw [hsight] at htyped
        exact htyped.billed

/-! ## Runs -/

/-- **The run of a code that does not look at the gas has a bill.** If it ends by itself, then every
    meter that can pay ends it in the same way, and any other one runs out. -/
theorem runFrom_buys (hblind : ∀ ins ∈ s.code.instructions, ¬ ins.ObservesGas) {jumps c : Nat}
    {m : Machine σ} {e : Ending σ} {halt : Halt} (hrun : runFrom s guarded jumps c m = e)
    (hhalt : e.halt = .ok halt) :
    ∃ bill : Bill, bill.Buys m e.machine
      (fun n n' => runFrom s guarded jumps c n = { e with machine := n' })
      (fun n => (runFrom s guarded jumps c n).halt = .error (.fault .outOfGas)) := by
  -- by the jumps that are left, and among as many by the instructions ahead
  induction hk : jumps * (s.code.instructions.size + 1) + (s.code.instructions.size - c)
    using Nat.strongRecOn generalizing jumps c m with
  | ind k ih =>
      cases hins : s.code.instructions[c]? with
      | none =>
          have hend (n : Machine σ) : runFrom s guarded jumps c n = ⟨c, .ok .stop, n⟩ :=
            runFrom_ended (turn_of_none rfl hins n)
          rw [hend] at hrun
          subst hrun
          refine ⟨.none, Nat.zero_le _, m.gas.paid_none.symm, fun g _ => ?_, fun g hlt => ?_⟩
          · rw [hend, Meter.paid_none]
          · exact absurd hlt (Nat.not_lt_zero _)
      | some ins =>
          have hlt := getElem?_isSome_lt hins
          have hbilled : (step s guarded ins).Billed :=
            step_billed (hblind ins (Array.mem_of_getElem? hins))
          have hended {n : Machine σ} {halt : Except Failure Halt} {n' : Machine σ}
              (hturn : afterStep c (c + 1) (step s guarded ins n) = .ended ⟨c, halt, n'⟩) :
              runFrom s guarded jumps c n = ⟨c, halt, n'⟩ :=
            runFrom_ended ((turn_of_getElem? rfl hins n).trans hturn)
          have hout {n : Machine σ} (hn : (step s guarded ins).RunsOut n) :
              (runFrom s guarded jumps c n).halt = .error (.fault .outOfGas) := by
            obtain ⟨n', hn⟩ := hn
            rw [hended (by rw [hn]; rfl)]
          cases hstep : step s guarded ins m with
          | error f m' =>
              rw [hended (by rw [hstep]; rfl)] at hrun
              subst hrun
              cases hhalt
          | ok flow m₁ =>
              obtain ⟨bill, hbuys⟩ := hbilled hstep
              -- where the run goes on, its bill is the one for the instruction and the one for the rest
              have honward {jumps' c' : Nat} (hgo : ∀ {n n₁}, step s guarded ins n = .ok flow n₁ →
                    runFrom s guarded jumps c n = runFrom s guarded jumps' c' n₁)
                  (hless : jumps' * (s.code.instructions.size + 1) +
                    (s.code.instructions.size - c') < k) :
                  ∃ bill : Bill, bill.Buys m e.machine
                    (fun n n' => runFrom s guarded jumps c n = { e with machine := n' })
                    (fun n => (runFrom s guarded jumps c n).halt = .error (.fault .outOfGas)) := by
                rw [hgo hstep] at hrun
                obtain ⟨bill', hrest⟩ := ih _ hless hrun rfl
                refine ⟨_, hbuys.trans hrest ?_ hout ?_⟩
                · intro n n₁ n₂ hn hn₁
                  rw [hgo hn, hn₁]
                · intro n n₁ hn hn₁
                  rw [hgo hn, hn₁]
              cases flow with
              | next => exact honward (runFrom_next hins) (by omega)
              | jump target =>
                  cases jumps with
                  | zero =>
                      rw [runFrom, stretch_of_getElem? hins, hstep] at hrun
                      subst hrun
                      cases hhalt
                  | succ jumps =>
                      exact honward (runFrom_jump hins) (by rw [← hk, Nat.succ_mul]; omega)
              | halt h =>
                  rw [hended (by rw [hstep]; rfl)] at hrun
                  subst hrun
                  refine ⟨bill, hbuys.price_le, hbuys.gas_eq, fun g hle => ?_, fun g hlt => ?_⟩
                  · exact hended (by rw [hbuys.same g hle]; rfl)
                  · exact hout (hbuys.short g hlt)

/-! ## Frames -/

namespace Frame

variable {config : Config} {host : Host σ} {context : CallContext} {input : ByteArray} {gasLimit : Nat}
  {code : ByteArray} {memory : Memory} {state : σ}

/-- The frame that a run leaves. -/
def ended (f : Frame) (halt : Except Fault Halt) (e : Ending σ) : Frame :=
  { f with
    gas := (settle halt e.machine.gas).2.2
    stack := e.machine.stack
    cursor := e.cursor
    returnData := e.machine.returnData
    status := (settle halt e.machine.gas).1 }

/-- The result of a frame is what the end of its run settles to. -/
theorem run_eq {f : Frame} {e : Ending σ} {halt : Except Fault Halt}
    (hrun : MeteredEvm.run (f.setting config host) f.cursor (f.machine memory.enter state) = e)
    (hhalt : untrapped e.halt = .ok halt) :
    f.run config host memory state =
      .ok (.ofMeter (settle halt e.machine.gas).2.1 (settle halt e.machine.gas).2.2,
        f.ended halt e, e.machine.memory.exit, e.machine.host) := by
  subst hrun
  unfold run
  dsimp only
  rw [hhalt]
  rfl

/-- The other way round: what a frame comes to, from the end of its run. -/
theorem exists_ending {f f' : Frame} {result : Result} {memory' : Memory} {state' : σ}
    (h : f.run config host memory state = .ok (result, f', memory', state')) :
    ∃ e halt, MeteredEvm.run (f.setting config host) f.cursor (f.machine memory.enter state) = e ∧
      untrapped e.halt = .ok halt ∧
      result = .ofMeter (settle halt e.machine.gas).2.1 (settle halt e.machine.gas).2.2 ∧
      f' = f.ended halt e ∧ memory' = e.machine.memory.exit ∧ state' = e.machine.host := by
  obtain ⟨halt, huntrapped, -⟩ := of_run_ok h
  rw [run_eq rfl huntrapped] at h
  have hparts := Except.ok.inj h
  simp only [Prod.mk.injEq] at hparts
  obtain ⟨hresult, hframe, hmemory, hstate⟩ := hparts
  exact ⟨_, halt, rfl, huntrapped, hresult.symm, hframe.symm, hmemory.symm, hstate.symm⟩

/-- The run of a new frame on a code that does not look at the gas, with its bill. -/
theorem run_buys
    (hblind : ∀ ins ∈ (analyze (.ofFork config.fork) code).instructions, ¬ ins.ObservesGas)
    {e : Ending σ} {h : Halt} (hhalt : e.halt = .ok h)
    (hrun : let f := fresh config context input gasLimit code
      MeteredEvm.run (f.setting config host) f.cursor (f.machine memory.enter state) = e) :
    ∃ bill : Bill, bill.price ≤ gasLimit ∧ e.machine.gas = (Meter.full gasLimit).paid bill ∧
      ∀ limit,
        let f := fresh config context input limit code
        let e' := MeteredEvm.run (f.setting config host) f.cursor (f.machine memory.enter state)
        (bill.price ≤ limit →
          e' = { e with machine := { e.machine with gas := (Meter.full limit).paid bill } }) ∧
        (limit < bill.price → e'.halt = .error (.fault .outOfGas)) := by
  obtain ⟨bill, hbuys⟩ := runFrom_buys hblind hrun hhalt
  exact ⟨bill, hbuys.price_le, hbuys.gas_eq, fun limit =>
    ⟨fun hle => hbuys.same (Meter.full limit) hle, fun hlt => hbuys.short (Meter.full limit) hlt⟩⟩

/-- What is settled after a halt, on a meter that has paid a bill. -/
theorem settle_paid (h : Halt) (limit limit' : Nat) (bill : Bill) :
    settle (.ok h) ((Meter.full limit').paid bill) =
      let settled := settle (.ok h) ((Meter.full limit).paid bill)
      (settled.1, settled.2.1,
        { settled.2.2 with limit := limit', remaining := limit' - bill.price }) := by
  cases h <;> rfl

/-- What is reported as used is the price. -/
theorem spent_settle_paid (h : Halt) {limit : Nat} {bill : Bill} (hle : bill.price ≤ limit) :
    (settle (.ok h) ((Meter.full limit).paid bill)).2.2.spent = bill.price := by
  cases h <;> exact Nat.sub_sub_self hle

/-- **The gas that a run used is a threshold**: with a limit that covers `gasUsed`, the run comes to the
    same result, frame, memory and host, but for the gas that is left; with any other limit it runs
    out of gas. -/
def Threshold (config : Config) (host : Host σ) (context : CallContext) (input : ByteArray)
    (gasLimit : Nat) (code : ByteArray) (memory : Memory) (state : σ) : Prop :=
  ∀ result f' memory' state',
    (fresh config context input gasLimit code).run config host memory state =
      .ok (result, f', memory', state') →
    result.fault? = none →
    ∀ limit,
      (result.gasUsed ≤ limit →
        (fresh config context input limit code).run config host memory state =
          .ok ({ result with gasRemaining := limit - result.gasUsed },
            { f' with gas := { f'.gas with limit, remaining := limit - result.gasUsed } },
            memory', state')) ∧
      (limit < result.gasUsed →
        ∃ short f'' memory'' state'',
          (fresh config context input limit code).run config host memory state =
            .ok (short, f'', memory'', state'') ∧ short.outcome = .faulted .outOfGas)

theorem threshold
    (hblind : ∀ ins ∈ (analyze (.ofFork config.fork) code).instructions, ¬ ins.ObservesGas) :
    Threshold config host context input gasLimit code memory state := by
  intro result f' memory' state' hrun hfault limit
  obtain ⟨e, halt, hending, huntrapped, rfl, rfl, rfl, rfl⟩ := exists_ending hrun
  -- the run ended by itself, so it has a bill
  rw [fault?_ofMeter_settle] at hfault
  obtain ⟨h, rfl⟩ := hfault
  obtain ⟨bill, hprice, hgas, hlimits⟩ := run_buys hblind (ok_of_untrapped huntrapped) hending
  obtain ⟨hsame, hshort⟩ := hlimits limit
  have hused : (settle (.ok h) e.machine.gas).2.2.spent = bill.price := by
    rw [hgas, spent_settle_paid h hprice]
  refine ⟨fun hle => ?_, fun hlt => ?_⟩
  · have hle : bill.price ≤ limit := Nat.le_trans (Nat.le_of_eq hused.symm) hle
    have hused' := spent_settle_paid h hle
    rw [run_eq (hsame hle) huntrapped]
    unfold ended Result.ofMeter
    dsimp only
    rewrite [hused, hused', hgas, settle_paid h gasLimit limit]
    rfl
  · have hlt : limit < bill.price := Nat.lt_of_lt_of_le hlt (Nat.le_of_eq hused)
    have huntrapped' : untrapped _ = .ok (.error .outOfGas) := congrArg untrapped (hshort hlt)
    exact ⟨_, _, _, _, run_eq rfl huntrapped', rfl⟩

end Frame

/-- **Gas used is an exact threshold for codes that do not look at the gas** (`Frame.Threshold`). On
    every host, if the run of a new frame stops or reverts, then it does so in the same way with every
    limit that covers what it used, and runs out of gas with every other one. That holds of
    `Host.recorded`, too, so the host is asked the same things in the same order. -/
theorem gas_used_is_threshold (config : Config) (host : Host σ) (context : CallContext)
    (input : ByteArray) (gasLimit : Nat) {code : ByteArray}
    (hblind : ∀ ins ∈ (analyze (.ofFork config.fork) code).instructions, ¬ ins.ObservesGas)
    (memory : Memory) (state : σ) :
    Frame.Threshold config host context input gasLimit code memory state ∧
      Frame.Threshold config host.recorded context input gasLimit code memory { state } :=
  ⟨Frame.threshold hblind, Frame.threshold hblind⟩

/-- A slot is loaded and dropped, and a word is stored in memory. -/
def loadAndStore : ByteArray := ⟨#[0x5f, 0x54, 0x50, 0x60, 0x01, 0x5f, 0x52]⟩

/-- The frame of `loadAndStore` on an empty world: it pays for the first use of the slot and for a
    word of memory, and runs out with one unit less than all it pays. -/
theorem gas_used_is_threshold_loadAndStore :
    let run (limit : Nat) :=
      (Frame.fresh {} {} .empty limit loadAndStore).run {} ({} : Chain).host (.new 64) {}
    (∀ ins ∈ (analyze (.ofFork .cancun) loadAndStore).instructions, ¬ ins.ObservesGas) ∧
      ∃ result f' memory' state',
        run 3000 = .ok (result, f', memory', state') ∧ result.fault? = none ∧
          result.gasUsed = 2115 ∧
          (∃ f'', run 2115 =
            .ok ({ result with gasRemaining := 2115 - result.gasUsed }, f'', memory', state')) ∧
          ∃ short f'' memory'' state'', run 2114 = .ok (short, f'', memory'', state'') ∧
            short.outcome = .faulted .outOfGas := by
  intro run
  have hblind : ∀ ins ∈ (analyze (.ofFork .cancun) loadAndStore).instructions,
      ¬ ins.ObservesGas := by
    decide +kernel
  have hvalue : (run 3000).toOption.map (fun r => (r.1.fault?, r.1.gasUsed)) =
      some (none, 2115) := by
    decide +kernel
  obtain ⟨⟨result, f', memory', state'⟩, hrun, hpair⟩ := exists_ok_of_toOption hvalue
  obtain ⟨hfault, hused⟩ := Prod.mk.inj hpair
  have hthreshold := (gas_used_is_threshold {} ({} : Chain).host {} .empty 3000 hblind (.new 64) {}).1
    result f' memory' state' hrun hfault
  exact ⟨hblind, result, f', memory', state', hrun, hfault, hused,
    ⟨_, (hthreshold 2115).1 (Nat.le_of_eq hused)⟩, (hthreshold 2114).2 (Nat.le_of_eq hused.symm)⟩

end MeteredEvm
