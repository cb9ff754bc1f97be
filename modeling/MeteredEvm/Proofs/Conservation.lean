import MeteredEvm.Proofs.Observers
import MeteredEvm.Proofs.StackSafety

/-!
# `MeteredEvm.Proofs.Conservation` — gas in one frame

A block pays for all its instructions on entry, so the meter of a running frame is low by what the
rest of its block has paid. What is conserved is the sum of the two (`Solvent`): it starts at the
limit of the frame, no instruction makes it grow, and a jump makes it smaller. So giving back what
the rest of the block has paid never goes over the limit, sums of gas stay 64-bit amounts, and a run
makes no more jumps than its meter started with units of gas.

## Contents
* `Op.execWith`, `Op.exec_agrees` — instructions, with a choice of how gas is added.
* `Solvent`, `Solvent.onward` — the invariant, and one step.
* `Solvent.inner`, `Solvent.execWith_eq` — at an instruction; how gas is added makes no difference.
* `Solvent.run_ends` — runs end.
* `Walking.step_nudges`, `Frame.reaches_solvent` — what a run comes to.
* `Frame.AtStart` — frames that have yet to run.
* `Result.Balanced`, `Frame.run_balanced` — what is left at the end.
-/

namespace MeteredEvm

open Exec

variable {σ : Type} {is : InstructionSet} {code : ByteArray} {s : Setting σ} {guarded : Bool}
  {add : Addition σ} {sound : Prop} {limit g r b h c c' : Nat} {m m' : Machine σ} {ins : Instruction}
  {op : Op} {d : Decoded} {later : List Decoded} {pushed : Option Word}

/-! ## How gas is added -/

/-- The effect of an instruction, with gas added by `add`. -/
def Op.execWith (add : Addition σ) (s : Setting σ) (ins : Instruction) : Op → Exec σ Flow
  | .gas => andNext (Effect.gas ins.correction add)
  | .sstore => andNext (Effect.observing ins.correction (Effect.sstore s) add)
  | .create salted => andNext (Effect.observing ins.correction (Effect.create s salted add) add)
  | .call kind => andNext (Effect.observing ins.correction (Effect.call s kind add) add)
  | op => op.exec s ins

/-- Only instructions that look at the meter add gas. -/
theorem Op.execWith_of_blind (h : op.observesGas = false) : op.execWith add s ins = op.exec s ins := by
  cases op with
  | gas => cases h
  | sstore => cases h
  | create salted => cases h
  | call kind => cases h
  | _ => rfl

theorem andNext_agrees {x y : Exec σ Unit} {P : Machine σ → Prop} {E : Failure → Prop}
    (h : Agrees m x y (fun _ => P) E) : Agrees m (andNext x) (andNext y) (fun _ => P) E :=
  .bind h fun _ _ hP => .of_yields hP

/-- **Instructions keep the bounds, however gas is added.** An instruction is given back what its
    correction says, which has to stay under the limit. -/
theorem Op.exec_agrees (hadd : add.Faithful) (hhost : s.Honest) (hfair : sound → s.Fair)
    (hlimit : limit < u64Size) (hop : op ≠ .jumpDest) (hroom : h + op.outputs ≤ stackLimit)
    (hle : g + ins.correction ≤ limit) (hm : Holds sound limit g b (h + op.inputs) m) :
    Agrees m (op.exec s ins) (op.execWith add s ins)
      (fun _ m' => Holds sound limit g b (h + op.outputs) m') (Blameless sound) := by
  cases hsees : op.observesGas with
  | false =>
      have hsight : op.sight ≠ .gives := by
        unfold Op.sight
        rw [hsees]
        decide
      rw [execWith_of_blind hsees]
      exact .of_yields ((Op.exec_typed ins hop hroom).holds hsight hm)
  | true =>
      cases op with
      | gas => exact andNext_agrees (Effect.gas_agrees s hadd hlimit hle hroom hm)
      | sstore =>
          exact andNext_agrees (Effect.observing_agrees hadd hlimit hle Effect.sstore_agrees hm)
      | create salted =>
          exact andNext_agrees (Effect.observing_agrees hadd hlimit hle
            (Effect.create_agrees hadd hhost hfair hlimit salted hroom hle) hm)
      | call kind =>
          exact andNext_agrees (Effect.observing_agrees hadd hlimit hle
            (Effect.call_agrees hadd hhost hfair hlimit kind hroom hle) hm)
      | _ => cases hsees

/-! ## Instructions inside a block -/

/-- The correction of an instruction is what the rest of its block has paid, or nothing. -/
theorem correction_le (target : Word → Option Nat) (pushed : Option Word) (d : Decoded)
    (later : List Decoded) : (innerInstruction target pushed d later).correction ≤ gasOf later := by
  unfold Instruction.correction innerInstruction innerArg
  dsimp only
  by_cases hsees : d.entry.observesGas = true
  · rw [if_pos hsees]
  · rw [if_neg hsees]
    split
    · rename_i gas harg
      repeat' split at harg
      all_goals cases harg
    · exact Nat.zero_le _

theorem inner_agrees (hadd : add.Faithful) (hhost : s.Honest) (hfair : sound → s.Fair)
    (hlimit : limit < u64Size) (target : Word → Option Nat) (pushed : Option Word)
    (hlawful : d.Lawful is) (hdest : d.isJumpDest = false) (hop : d.entry.op = some op)
    (hfits : Fits h (d :: later)) (hle : g + gasOf later ≤ limit) (hm : Holds sound limit g b h m) :
    Agrees m (op.exec s (innerInstruction target pushed d later))
      (op.execWith add s (innerInstruction target pushed d later))
      (fun _ m' => Holds sound limit g b (d.entry.heightAfter h) m') (Blameless sound) := by
  obtain ⟨hne, h₀, rfl, hafter, hroom⟩ := inner_room hlawful hdest hop hfits
  have hcorrection := correction_le target pushed d later
  rw [hafter]
  exact Op.exec_agrees hadd hhost hfair hlimit hne hroom (by omega) hm

/-- The same with the ban on state changes before it, and for bytes that are no instruction. -/
theorem inner_holds (hhost : s.Honest) (hfair : sound → s.Fair) (hlimit : limit < u64Size)
    (guarded : Bool) (target : Word → Option Nat) (pushed : Option Word) (hlawful : d.Lawful is)
    (hdest : d.isJumpDest = false) (hfits : Fits h (d :: later)) (hle : g + gasOf later ≤ limit)
    (hm : Holds sound limit g b h m) :
    Yields (step s guarded (innerInstruction target pushed d later) m)
      (fun _ m' => Holds sound limit g b (d.entry.heightAfter h) m') (Blameless sound) := by
  unfold step
  cases hop : d.entry.op with
  | none =>
      rw [show (innerInstruction target pushed d later).op = none from hop]
      exact blameless_fault _
  | some op =>
      rw [show (innerInstruction target pushed d later).op = some op from hop]
      have hcheck : Typed s .blind b h h (checkStatic guarded op : Exec σ Unit) :=
        checkStatic_typed guarded op
      refine .bind (hcheck.holds (by decide) hm) fun _ m₁ hm₁ => ?_
      exact (inner_agrees Addition.u64_faithful hhost hfair hlimit target pushed hlawful hdest hop
        hfits hle hm₁).2

/-! ## The invariant -/

/-- **Of the limit of a frame, no more than `r` is left or paid for the rest of the block.** -/
def Solvent (sound : Prop) (is : InstructionSet) (code : ByteArray) (limit r c : Nat)
    (m : Machine σ) : Prop :=
  ∃ pc pushed rest post g, Place is code c pc pushed rest post ∧ Fits m.stack.height rest ∧
    Holds sound limit g 0 m.stack.height m ∧ g + gasOf rest ≤ r ∧ r ≤ limit

/-- What one instruction makes of it: the next one finds no more, the target of a jump finds less,
    and the frame ends within its limit. -/
def Onward (sound : Prop) (is : InstructionSet) (code : ByteArray) (limit r c : Nat) :
    Flow → Machine σ → Prop
  | .next, m => Solvent sound is code limit r (c + 1) m
  | .jump target, m => ∃ r', r' < r ∧ Solvent sound is code limit r' target m
  | .halt _, m => m.gas.remaining ≤ limit

namespace Solvent

/-- A frame that has not run has all of its limit. -/
theorem start (sound : Prop) (is : InstructionSet) (code : ByteArray) (hlimit : m.gas.limit = limit)
    (hremaining : m.gas.remaining ≤ limit) (hmemory : sound → m.memory.Sound) :
    Solvent sound is code limit limit 0 m :=
  ⟨0, none, [], _, limit, Place.start is code, trivial,
    ⟨hlimit, hremaining, rfl, fun hs => ⟨hmemory hs, Nat.zero_le _⟩⟩, Nat.le_refl _, Nat.le_refl _⟩

theorem remaining_le (h : Solvent sound is code limit r c m) : m.gas.remaining ≤ limit := by
  obtain ⟨pc, pushed, rest, post, g, -, -, hm, hr, hle⟩ := h
  have hg := hm.remaining
  omega

theorem limit_eq (h : Solvent sound is code limit r c m) : m.gas.limit = limit := by
  obtain ⟨pc, pushed, rest, post, g, -, -, hm, -⟩ := h
  exact hm.limit

/-- Past the entry of a block, the block is paid for out of what there was. -/
theorem of_enter {pc : Nat} {pushed : Option Word} {seg rest : List Decoded}
    {post : List (List Decoded)} {gas : Meter} (hplace : Place is code c pc pushed rest post)
    (hfits : Fits m.stack.height rest) (hrest : gasOf rest ≤ gasOf seg)
    (hm : Holds sound limit g 0 m.stack.height m) (hg : g ≤ r) (hr : r ≤ limit)
    (hcharge : m.gas.charge? (gasOf seg) = some gas) :
    Solvent sound is code limit r c { m with gas } := by
  obtain ⟨hle, rfl⟩ := Meter.of_charge? hcharge
  have hremaining := hm.remaining
  refine ⟨pc, pushed, rest, post, g - gasOf seg, hplace, hfits, ?_, by omega, hr⟩
  refine ⟨hm.limit, ?_, rfl, hm.memory⟩
  show m.gas.remaining - gasOf seg ≤ g - gasOf seg
  omega

/-- **One instruction.** It fails by a fault only, if memory is sound. -/
theorem onward (hcode : s.code = analyze is code) (hhost : s.Honest) (hfair : sound → s.Fair)
    (hlimit : limit < u64Size) (guarded : Bool) (h : Solvent sound is code limit r c m)
    (hins : s.code.instructions[c]? = some ins) :
    Yields (step s guarded ins m) (Onward sound is code limit r c) (Blameless sound) := by
  obtain ⟨pc, pushed, rest, post, g, hplace, hfits, hm, hr, hle⟩ := h
  rw [hcode] at hins
  cases hplace.view with
  | stop hnone _ =>
      rw [hnone] at hins
      cases hins
  | own _ hsome hnext =>
      rw [hsome] at hins
      cases hins
      -- an entry pays for its block out of what there was
      cases hstep : step s guarded _ m with
      | error e m' => exact fun _ => of_enter_error rfl rfl hstep
      | ok flow m' =>
          obtain ⟨rfl, gas, hcharge, rfl, hseg⟩ := of_enter_ok rfl rfl hstep
          exact of_enter hnext hseg (Nat.le_refl _) hm hr hle hcharge
  | dest hdest hlawful _ _ hsome hnext =>
      rw [hsome] at hins
      cases hins
      have hop := hlawful.isJumpDest_iff.1 hdest
      cases hstep : step s guarded _ m with
      | error e m' => exact fun _ => of_enter_error hop rfl hstep
      | ok flow m' =>
          obtain ⟨rfl, gas, hcharge, rfl, hseg⟩ := of_enter_ok hop rfl hstep
          have hafter := hseg.2.2
          rw [hlawful.entry_of_op _ hop] at hafter
          refine of_enter hnext hafter ?_ hm hr hle hcharge
          rw [gasOf_cons]
          exact Nat.le_add_left ..
  | @inner d later _ hdest hlawful _ hends hsome hnext =>
      rw [hsome] at hins
      cases hins
      rw [gasOf_cons] at hr
      have hyields := inner_holds hhost hfair hlimit guarded (analyze is code).jumpTarget pushed
        hlawful hdest hfits (by omega) hm
      cases hstep : step s guarded _ m with
      | error e m' => exact hyields.of_error hstep
      | ok flow m' =>
          have hm' := hyields.of_ok hstep
          rw [← hm'.height] at hm'
          cases flow with
          | next =>
              refine ⟨_, _, later, _, g, hnext, ?_, hm', by omega, hle⟩
              rw [(hyields.of_ok hstep).height]
              exact hfits.2.2
          | jump target =>
              -- a jump ends its block, so all that is left of the price is its own
              obtain ⟨hjump, w, hw⟩ := inner_jump hcode hstep
              obtain ⟨hendsBlock, hpos⟩ := baseGas_of_jump hlawful hjump
              obtain ⟨d', rest', post', -, hplace'⟩ := Place.of_jump hw
              exact ⟨g, by omega, _, _, [], _, g, hplace', trivial, hm', Nat.le_refl _, by omega⟩
          | halt e => exact Nat.le_trans hm'.remaining (by omega)

/-- Turns go on within the limit; they take from `r` or go forward. -/
theorem turn (hcode : s.code = analyze is code) (hhost : s.Honest) (hfair : sound → s.Fair)
    (hlimit : limit < u64Size) (h : Solvent sound is code limit r c m)
    (hturn : turn s guarded c m = .jumped c' m') :
    c < s.code.instructions.size ∧
      ∃ r', Solvent sound is code limit r' c' m' ∧ (r' < r ∨ r' ≤ r ∧ c < c') := by
  obtain ⟨ins, hins, hstep⟩ := of_turn_jumped hturn
  have honward := h.onward hcode hhost hfair hlimit guarded hins
  refine ⟨getElem?_isSome_lt hins, ?_⟩
  rcases hstep with ⟨hstep, rfl⟩ | hstep
  · exact ⟨r, honward.of_ok hstep, .inr ⟨Nat.le_refl r, Nat.lt_succ_self c⟩⟩
  · obtain ⟨r', hlt, hsolvent⟩ := honward.of_ok hstep
    exact ⟨r', hsolvent, .inl hlt⟩

/-- At an instruction that is no entry of a block, the stack holds its inputs and has room for its
    outputs, and handing back its correction stays within the limit. -/
theorem inner (hcode : s.code = analyze is code) (h : Solvent sound is code limit r c m)
    (hins : s.code.instructions[c]? = some ins) (hop : ins.op = some op) (hne : op ≠ .jumpDest) :
    ∃ g h₀, Holds sound limit g 0 (h₀ + op.inputs) m ∧ h₀ + op.outputs ≤ stackLimit ∧
      g + ins.correction ≤ limit := by
  obtain ⟨pc, pushed, rest, post, g, hplace, hfits, hm, hr, hle⟩ := h
  rw [hcode] at hins
  cases hplace.view with
  | stop hnone _ =>
      rw [hnone] at hins
      cases hins
  | own _ hsome _ =>
      rw [hsome] at hins
      cases hins
      cases hop
      exact absurd rfl hne
  | dest hdest hlawful _ _ hsome _ =>
      rw [hsome] at hins
      cases hins
      have hop : _ = some op := hop
      rw [show (destInstruction _ _).op = some .jumpDest from hlawful.isJumpDest_iff.1 hdest] at hop
      cases hop
      exact absurd rfl hne
  | @inner d later _ hdest hlawful _ _ hsome _ =>
      rw [hsome] at hins
      cases hins
      rw [gasOf_cons] at hr
      have hcorrection := correction_le (analyze is code).jumpTarget pushed d later
      obtain ⟨-, h₀, hheight, -, hroom⟩ := inner_room hlawful hdest hop hfits
      rw [hheight] at hm
      exact ⟨g, h₀, hm, hroom, by omega⟩

/-- **How gas is added makes no difference**, as long as the addition is exact within bounds. -/
theorem execWith_eq (hadd : add.Faithful) (hcode : s.code = analyze is code) (hhost : s.Honest)
    (hfair : sound → s.Fair) (hlimit : limit < u64Size) (h : Solvent sound is code limit r c m)
    (hins : s.code.instructions[c]? = some ins) (hop : ins.op = some op) :
    op.execWith add s ins m = op.exec s ins m := by
  by_cases hne : op = .jumpDest
  · subst hne
    rfl
  · obtain ⟨g, h₀, hm, hroom, hle⟩ := h.inner hcode hins hop hne
    exact (Op.exec_agrees hadd hhost hfair hlimit hne hroom hle hm).1

/-! ## Runs -/

/-- **A run ends**: after no more turns than its gas and its code allow, and running by stretches
    comes to the same end. -/
theorem run_ends (hcode : s.code = analyze is code) (hhost : s.Honest) (hfair : sound → s.Fair)
    (hlimit : limit < u64Size) (guarded : Bool) (h : Solvent sound is code limit r c m) :
    ∃ n e, n ≤ r * (s.code.instructions.size + 1) + s.code.instructions.size + 1 ∧
      iterate (MeteredEvm.turn s guarded) n c m = some e ∧ runFrom s guarded jumpBudget c m = e := by
  have hdescent : Descent (MeteredEvm.turn s guarded) s.code.instructions.size
      fun r c m => Solvent sound is code limit r c m := by
    intro r c c' m m' hsolvent hturn
    exact hsolvent.turn hcode hhost hfair hlimit hturn
  obtain ⟨n, e, hn, hiterate⟩ := hdescent.ends h
  refine ⟨n, e, by omega, hiterate, ?_⟩
  -- every jump is paid for, so the budget of jumps is never used up
  have hr : r ≤ jumpBudget := by
    obtain ⟨-, -, -, -, -, -, -, -, -, hr⟩ := h
    exact Nat.le_trans hr (Nat.le_of_lt hlimit)
  refine runFrom_of_iterate (P := fun r c m => Solvent sound is code limit r c m) ?_ ?_ h hr hiterate
  · intro r c ins m m' hsolvent hins hstep
    exact ⟨r, Nat.le_refl r, (hsolvent.onward hcode hhost hfair hlimit guarded hins).of_ok hstep⟩
  · intro r c ins target m m' hsolvent hins hstep
    exact (hsolvent.onward hcode hhost hfair hlimit guarded hins).of_ok hstep

/-- How a run ends: within its limit, or by a failure, which is a fault if memory is sound. -/
theorem of_ended (hcode : s.code = analyze is code) (hhost : s.Honest) (hfair : sound → s.Fair)
    (hlimit : limit < u64Size) {e : Ending σ} (h : Solvent sound is code limit r c m)
    (hturn : MeteredEvm.turn s guarded c m = .ended e) :
    (∀ halt, e.halt = .ok halt → e.machine.gas.remaining ≤ limit) ∧
      ∀ f, e.halt = .error f → Blameless sound f := by
  cases hins : s.code.instructions[c]? with
  | none =>
      rw [turn_of_none rfl hins] at hturn
      cases hturn
      exact ⟨fun _ _ => h.remaining_le, nofun⟩
  | some ins =>
      rw [turn_of_getElem? rfl hins] at hturn
      have honward := h.onward hcode hhost hfair hlimit guarded hins
      cases hstep : step s guarded ins m with
      | error f m' =>
          rw [hstep] at hturn
          cases hturn
          refine ⟨nofun, fun f' he => ?_⟩
          cases he
          exact honward.of_error hstep
      | ok flow m' =>
          rw [hstep] at hturn
          cases flow with
          | next => cases hturn
          | jump target => cases hturn
          | halt halt =>
              cases hturn
              exact ⟨fun _ _ => honward.of_ok hstep, nofun⟩

end Solvent

/-! ## Changes along a run -/

/-- The entry of a block only pays. -/
theorem enter_nudges {cost : BlockCost} (guarded : Bool) (m : Machine σ)
    (hop : ins.op = some .jumpDest) (harg : ins.arg = .block cost) :
    Nudges s m ((step s guarded ins).after m) := by
  cases hcharge : m.gas.charge? cost.gas with
  | none =>
      have hstep : step s guarded ins m = .error (.fault .outOfGas) m := by
        rw [step_enter hop harg, hcharge]
      rw [after_of_error hstep]
  | some gas =>
      have hafter : (step s guarded ins).after m = { m with gas } := by
        unfold after
        rw [step_enter hop harg, hcharge]
        dsimp only
        by_cases hlow : m.stack.height < cost.required
        · rw [if_pos hlow]
        · by_cases hhigh : stackLimit < m.stack.height + cost.growth
          · rw [if_neg hlow, if_pos hhigh]
          · rw [if_neg hlow, if_neg hhigh]
      rw [hafter]
      exact .single (.charge hcharge)

/-- **An instruction is a sequence of single changes.** -/
theorem Walking.step_nudges (hcode : s.code = analyze is code) (guarded : Bool)
    (hwalk : Walking is code c m) (hins : s.code.instructions[c]? = some ins) :
    Nudges s m ((step s guarded ins).after m) := by
  obtain ⟨pc, pushed, rest, post, hplace, hfits⟩ := hwalk
  rw [hcode] at hins
  cases hplace.view with
  | stop hnone _ =>
      rw [hnone] at hins
      cases hins
  | own _ hsome _ =>
      rw [hsome] at hins
      cases hins
      exact enter_nudges guarded m rfl rfl
  | dest hdest hlawful _ _ hsome _ =>
      rw [hsome] at hins
      cases hins
      exact enter_nudges guarded m (hlawful.isJumpDest_iff.1 hdest) rfl
  | @inner d later _ hdest hlawful _ _ hsome _ =>
      rw [hsome] at hins
      cases hins
      cases hop : d.entry.op with
      | none =>
          have hstep : step s guarded (innerInstruction (analyze is code).jumpTarget pushed d later) =
              fault (.invalidOpcode d.entry.opcode) := by
            unfold step
            rw [show (innerInstruction _ pushed d later).op = none from hop]
            rfl
          rw [hstep]
          exact .refl
      | some op =>
          have htyped : Typed s op.sight 0 m.stack.height (d.entry.heightAfter m.stack.height)
              (step s guarded (innerInstruction (analyze is code).jumpTarget pushed d later)) :=
            inner_typed hlawful hdest hop hfits
          exact htyped.nudges m

/-- So is a turn. -/
theorem Walking.turn_nudges (hcode : s.code = analyze is code) (hwalk : Walking is code c m)
    (hturn : MeteredEvm.turn s guarded c m = .jumped c' m') : Nudges s m m' := by
  obtain ⟨ins, hins, hstep⟩ := of_turn_jumped hturn
  have hnudges := hwalk.step_nudges hcode guarded hins
  rcases hstep with ⟨hstep, -⟩ | hstep
  · rwa [after_of_ok hstep] at hnudges
  · rwa [after_of_ok hstep] at hnudges

/-- So is a stretch, and where it jumps to the run walks on. -/
theorem Walking.stretch_nudges (hcode : s.code = analyze is code) (guarded : Bool) (left : Nat)
    (hwalk : Walking is code c m) :
    Nudges s m (stretch s guarded left c m).machine ∧
      ∀ c' m', stretch s guarded left c m = .jumped c' m' → Walking is code c' m' := by
  induction left generalizing c m with
  | zero =>
      refine ⟨.refl, fun c' m₁ h => ?_⟩
      cases h
  | succ left ih =>
      unfold stretch
      cases hins : s.code.instructions[c]? with
      | none =>
          refine ⟨.refl, fun c' m₁ h => ?_⟩
          cases h
      | some ins =>
          have hnudges := hwalk.step_nudges hcode guarded hins
          have hturn {c' : Nat} {m' : Machine σ}
              (h : afterStep c (c + 1) (step s guarded ins m) = .jumped c' m') :
              Walking is code c' m' := by
            exact hwalk.turn hcode ((turn_of_getElem? rfl hins m).trans h)
          dsimp only
          cases hstep : step s guarded ins m with
          | error e m' =>
              rw [after_of_error hstep] at hnudges
              refine ⟨hnudges, fun c' m₁ h => ?_⟩
              cases h
          | ok flow m' =>
              rw [after_of_ok hstep] at hnudges
              rw [hstep] at hturn
              cases flow with
              | next =>
                  obtain ⟨hrest, hjumped⟩ := ih (hturn rfl)
                  exact ⟨hnudges.trans hrest, hjumped⟩
              | jump target =>
                  refine ⟨hnudges, fun c' m₁ h => ?_⟩
                  cases h
                  exact hturn rfl
              | halt e =>
                  refine ⟨hnudges, fun c' m₁ h => ?_⟩
                  cases h

/-- So is a run. -/
theorem Walking.runFrom_nudges (hcode : s.code = analyze is code) (guarded : Bool) (jumps : Nat)
    (hwalk : Walking is code c m) : Nudges s m (runFrom s guarded jumps c m).machine := by
  induction jumps generalizing c m with
  | zero =>
      obtain ⟨hnudges, -⟩ := hwalk.stretch_nudges hcode guarded (s.code.instructions.size - c)
      unfold runFrom
      cases hstretch : stretch s guarded (s.code.instructions.size - c) c m with
      | ended e =>
          rw [hstretch] at hnudges
          exact hnudges
      | jumped c' m' =>
          rw [hstretch] at hnudges
          exact hnudges
  | succ jumps ih =>
      obtain ⟨hnudges, hjumped⟩ := hwalk.stretch_nudges hcode guarded (s.code.instructions.size - c)
      unfold runFrom
      cases hstretch : stretch s guarded (s.code.instructions.size - c) c m with
      | ended e =>
          rw [hstretch] at hnudges
          exact hnudges
      | jumped c' m' =>
          rw [hstretch] at hnudges
          exact hnudges.trans (ih (hjumped c' m' hstretch))

/-! ## Results -/

/-- **A result that accounts for all gas**: `gasUsed` and `gasRemaining` are the limit; a fault leaves
    neither gas nor refunds, and a revert no refunds. -/
structure Result.Balanced (limit : Nat) (r : Result) : Prop where
  sum : r.gasUsed + r.gasRemaining = limit
  faulted : ∀ f, r.outcome = .faulted f → r.gasRemaining = 0 ∧ r.refund = 0
  reverted : ∀ output, r.outcome = .reverted output → r.refund = 0

/-- Settling accounts for all gas, if the meter is within its limit. -/
theorem settle_balanced {halt : Except Fault Halt} {gas : Meter} (hlimit : gas.limit = limit)
    (hle : ∀ h, halt = .ok h → gas.remaining ≤ limit) :
    (Result.ofMeter (settle halt gas).2.1 (settle halt gas).2.2).Balanced limit := by
  cases halt with
  | error f =>
      refine ⟨?_, fun _ _ => ⟨rfl, rfl⟩, nofun⟩
      show gas.limit - 0 + 0 = limit
      omega
  | ok h =>
      have hle := hle h rfl
      have hsum : gas.limit - gas.remaining + gas.remaining = limit := by omega
      cases h with
      | stop => exact ⟨hsum, nofun, nofun⟩
      | ret output => exact ⟨hsum, nofun, nofun⟩
      | revert output => exact ⟨hsum, nofun, fun _ _ => rfl⟩
      | selfDestruct => exact ⟨hsum, nofun, nofun⟩

/-! ## Frames -/

/-- **A frame at the start of a code**, by `Frame.new` or `Frame.reset`: it has taken no step and has
    all its gas. -/
structure Frame.AtStart (f : Frame) (config : Config) (gasLimit : Nat) (code : ByteArray) : Prop where
  code : f.code = analyze (.ofFork config.fork) code
  cursor : f.cursor = 0
  gas : f.gas = .full gasLimit

namespace Frame

variable {config : Config} {host : Host σ} {context : CallContext} {input : ByteArray} {gasLimit : Nat}
  {memory : Memory} {state : σ}

theorem fresh_atStart : (fresh config context input gasLimit code).AtStart config gasLimit code :=
  ⟨rfl, rfl, rfl⟩

theorem reset_atStart {f : Frame} (hcode : f.code = analyze (.ofFork config.fork) code) :
    (f.reset gasLimit).AtStart config gasLimit code :=
  ⟨hcode, rfl, rfl⟩

/-- **The run of a frame from its start** ends after boundedly many turns; within its limit if it
    halts, and by a fault if it fails on sound memory. -/
theorem run_ends (sound : Prop) {f : Frame} (hf : f.AtStart config gasLimit code) (memory : Memory)
    (state : σ) (hhost : (f.setting config host).Honest)
    (hfair : sound → (f.setting config host).Fair) (hgas : gasLimit < u64Size)
    (hmemory : sound → memory.limit ≤ Memory.pricedLimit) :
    let s := f.setting config host
    let size := f.code.instructions.size
    ∃ n e, n ≤ gasLimit * (size + 1) + size + 1 ∧
      iterate (turn s (host.guard f.context state).1) n f.cursor
        (f.machine memory.enter (host.guard f.context state).2) = some e ∧
      MeteredEvm.run s f.cursor (f.machine memory.enter state) = e ∧
      (∀ halt, e.halt = .ok halt → e.machine.gas.remaining ≤ gasLimit) ∧
      ∀ failure, e.halt = .error failure → Blameless sound failure := by
  intro s size
  have hcode : s.code = analyze (.ofFork config.fork) code := hf.code
  have hstart : Solvent sound (.ofFork config.fork) code gasLimit gasLimit f.cursor
      (f.machine memory.enter (host.guard f.context state).2) := by
    have hmeter : (f.machine memory.enter (host.guard f.context state).2).gas = .full gasLimit :=
      hf.gas
    rw [hf.cursor]
    refine Solvent.start sound _ code ?_ ?_ fun hs => Memory.enter_sound (hmemory hs)
    · rw [hmeter]
      rfl
    · rw [hmeter]
      exact Nat.le_refl _
  obtain ⟨n, e, hn, hiterate, hrun⟩ := hstart.run_ends (s := s) hcode hhost hfair hgas
    (host.guard f.context state).1
  refine ⟨n, e, hn, hiterate, hrun, ?_⟩
  refine of_iterate (P := fun c m => ∃ r, Solvent sound (.ofFork config.fork) code gasLimit r c m)
    (Q := fun e => (∀ halt, e.halt = .ok halt → e.machine.gas.remaining ≤ gasLimit) ∧
      ∀ failure, e.halt = .error failure → Blameless sound failure) ⟨gasLimit, hstart⟩ ?_ ?_ hiterate
  · rintro c₁ c₂ m₁ m₂ ⟨r, hsolvent⟩ hturn
    obtain ⟨-, r', hnext, -⟩ := hsolvent.turn hcode hhost hfair hgas hturn
    exact ⟨r', hnext⟩
  · rintro c₁ m₁ e₁ ⟨r, hsolvent⟩ hturn
    exact hsolvent.of_ended hcode hhost hfair hgas hturn

/-- To settle whether changes are banned, the host answers at most one query. -/
theorem guard_nudges (s : Setting σ) (m : Machine σ) :
    Nudges s m { m with host := (s.host.guard s.context m.host).2 } :=
  s.host.guard_invariant s.context (P := fun p => Nudges s m { m with host := p }) .refl
    (.single (.answer .staticViolation))

/-- Whatever the host does, the run of a new frame is a sequence of single changes. -/
theorem run_nudges (config : Config) (host : Host σ) (context : CallContext) (input : ByteArray)
    (gasLimit : Nat) (code : ByteArray) (memory : Memory) (state : σ) :
    let f := fresh config context input gasLimit code
    Nudges (f.setting config host) (f.machine memory.enter state)
      (MeteredEvm.run (f.setting config host) f.cursor (f.machine memory.enter state)).machine :=
  (guard_nudges _ _).trans
    ((Walking.start (.ofFork config.fork) code _).runFrom_nudges rfl _ jumpBudget)

/-- Whatever the run of a new frame comes to, its gas adds up there, and it has come there by single
    changes. -/
theorem reaches_solvent {host : Host σ} {guarded : Bool}
    (hhost : ((fresh config context input gasLimit code).setting config host).Honest)
    (hgas : gasLimit < u64Size)
    (hreach : let f := fresh config context input gasLimit code
      Reaches (turn (f.setting config host) guarded) f.cursor (f.machine memory.enter state) c m) :
    let f := fresh config context input gasLimit code
    (∃ r, Solvent False (.ofFork config.fork) code gasLimit r c m) ∧
      Nudges (f.setting config host) (f.machine memory.enter state) m := by
  intro f
  refine hreach.invariant (P := fun c m =>
    (∃ r, Solvent False (.ofFork config.fork) code gasLimit r c m) ∧
      Nudges (f.setting config host) (f.machine memory.enter state) m)
    ⟨⟨gasLimit, Solvent.start False _ code rfl (Nat.le_refl _) nofun⟩, .refl⟩ ?_
  rintro c₁ c₂ m₁ m₂ ⟨⟨r, hsolvent⟩, hnudges⟩ hturn
  obtain ⟨-, r', hsolvent', -⟩ := hsolvent.turn rfl hhost nofun hgas hturn
  obtain ⟨pc, pushed, rest, post, -, hplace, hfits, -⟩ := hsolvent
  have hwalk : Walking (.ofFork config.fork) code c₁ m₁ := ⟨pc, pushed, rest, post, hplace, hfits⟩
  exact ⟨⟨r', hsolvent'⟩, hnudges.trans (hwalk.turn_nudges rfl hturn)⟩

/-- The pieces of a run of a frame that did not trap. -/
theorem of_run_ok {f f' : Frame} {result : Result} {memory' : Memory} {state' : σ}
    (h : f.run config host memory state = .ok (result, f', memory', state')) :
    let e := MeteredEvm.run (f.setting config host) f.cursor (f.machine memory.enter state)
    ∃ halt, untrapped e.halt = .ok halt ∧
      result = .ofMeter (settle halt e.machine.gas).2.1 (settle halt e.machine.gas).2.2 ∧
      f'.stack = e.machine.stack ∧ memory' = e.machine.memory.exit ∧ state' = e.machine.host := by
  intro e
  unfold run at h
  dsimp only at h
  cases huntrapped : untrapped e.halt with
  | error t =>
      rw [huntrapped] at h
      cases h
  | ok halt =>
      rw [huntrapped] at h
      cases h
      exact ⟨halt, rfl, rfl, rfl, rfl, rfl⟩

theorem ok_of_untrapped {halt : Except Failure Halt} {h : Halt} (hun : untrapped halt = .ok (.ok h)) :
    halt = .ok h := by
  cases halt with
  | ok h' =>
      cases hun
      rfl
  | error e => cases e <;> cases hun

/-- **A run of a new frame accounts for all gas.** -/
theorem run_balanced (hhost : ((fresh config context input gasLimit code).setting config host).Honest)
    (hgas : gasLimit < u64Size) {result : Result} {f' : Frame} {memory' : Memory} {state' : σ}
    (h : (fresh config context input gasLimit code).run config host memory state =
      .ok (result, f', memory', state')) : result.Balanced gasLimit := by
  obtain ⟨n, e, -, -, hrun, hle, -⟩ :=
    run_ends False fresh_atStart memory state hhost False.elim hgas False.elim
  obtain ⟨halt, hhalt, rfl, -⟩ := of_run_ok h
  have hlimit := (run_nudges config host context input gasLimit code memory state).limit_eq
  rw [hrun] at hhalt hlimit ⊢
  refine settle_balanced hlimit fun ended hended => ?_
  subst hended
  exact hle ended (ok_of_untrapped hhalt)

/-- **On a fair host a run of a new frame comes to a result.** -/
theorem run_ok (hhost : ((fresh config context input gasLimit code).setting config host).Honest)
    (hfair : ((fresh config context input gasLimit code).setting config host).Fair)
    (hgas : gasLimit < u64Size) (hmemory : memory.limit ≤ Memory.pricedLimit) (state : σ) :
    ∃ r, (fresh config context input gasLimit code).run config host memory state = .ok r := by
  obtain ⟨n, e, -, -, hrun, -, hfault⟩ :=
    run_ends True fresh_atStart memory state hhost (fun _ => hfair) hgas fun _ => hmemory
  have huntrapped : ∃ halt, untrapped e.halt = .ok halt := by
    cases hhalt : e.halt with
    | ok h => exact ⟨_, rfl⟩
    | error failure =>
        obtain ⟨f, rfl⟩ := hfault failure hhalt trivial
        exact ⟨_, rfl⟩
  obtain ⟨halt, hhalt⟩ := huntrapped
  unfold run
  dsimp only
  rw [hrun, hhalt]
  exact ⟨_, rfl⟩

end Frame

end MeteredEvm
