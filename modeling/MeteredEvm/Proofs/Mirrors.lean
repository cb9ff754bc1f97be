import MeteredEvm.Proofs.Plain

/-!
# `MeteredEvm.Proofs.Mirrors` — one instruction on both machines

Inside a block the machine that pays by blocks has already paid for the instructions to come, and the
plain machine has not. So the plain one has the price of the rest of the block more on its meter, and
an instruction must not show it: those that do not look at the meter do the same with more gas, and
those that look are corrected by just that price.

## Contents
* `SameFlow`, `Mirrors` — the same result, with more gas.
* `Machine.withLess` and what paying does to `Machine.withMore`.
* `Mirrors.of_uniform`, `Mirrors.observing`, `Mirrors.gas`, `Mirrors.jump`, `Mirrors.jumpi` — the kinds
  of instructions.
* `exec_mirrors`, `inner_mirrors` — every instruction.
* `immediate_on_top` — what a push leaves for a jump.
-/

namespace MeteredEvm

open Exec

variable {σ : Type} {is : InstructionSet} {code : ByteArray} {s : Setting σ} {guarded : Bool}
  {k : Nat} {m m' p : Machine σ} {op : Op} {d : Decoded} {later : List Decoded}
  {pushed : Option Word} {flow : Flow}

/-! ## One instruction on both machines -/

/-- Where the two machines go: the same way, or along a jump to the place of the same byte. -/
inductive SameFlow (is : InstructionSet) (code : ByteArray) : Flow → Flow → Prop where
  | next : SameFlow is code .next .next
  | halt (e : Halt) : SameFlow is code (.halt e) (.halt e)
  | jump {w : Word} {index : Nat} (h : (analyze is code).jumpTarget w = some index) :
      SameFlow is code (.jump index) (.jump w.toNat)

/-- **The second result is the first one with `k` more gas.** It may also be that only the second
    computation succeeds, but then it has used some of the `k`. -/
structure Mirrors (is : InstructionSet) (code : ByteArray) (k : Nat)
    (x y : EStateM.Result Failure (Machine σ) Flow) : Prop where
  forward : ∀ ⦃flow m'⦄, x = .ok flow m' →
    ∃ flow', y = .ok flow' (m'.withMore k) ∧ SameFlow is code flow flow'
  backward : ∀ ⦃flow' p'⦄, y = .ok flow' p' → k ≤ p'.gas.remaining →
    ∃ flow m', x = .ok flow m' ∧ p' = m'.withMore k ∧ SameFlow is code flow flow'

/-- Paying takes back what there is more. -/
theorem charge_withMore (m : Machine σ) (k : Nat) : charge k (m.withMore k) = .ok () m := by
  have hcharge : (m.withMore k).gas.charge? k = some m.gas := by
    unfold Meter.charge? Machine.withMore
    dsimp only
    rw [if_pos (Nat.le_add_left ..), Nat.add_sub_cancel]
  exact charge_ok hcharge

/-- What is left after paying, with the price added again, is what there was. -/
theorem eq_withMore_of_charge_ok {u : Unit} (h : charge k p = .ok u m) : p = m.withMore k := by
  obtain ⟨gas, hcharge, rfl⟩ := of_charge_ok h
  obtain ⟨hle, rfl⟩ := Meter.of_charge? hcharge
  unfold Machine.withMore
  dsimp only
  rw [Nat.sub_add_cancel hle]

/-- The machine with `k` less gas. -/
def Machine.withLess (m : Machine σ) (k : Nat) : Machine σ :=
  { m with gas := { m.gas with remaining := m.gas.remaining - k } }

/-- Less by two prices is less by one of them, once the other is added again. -/
theorem Machine.withMore_withLess {j : Nat} (hle : k + j ≤ m.gas.remaining) :
    (m.withLess (k + j)).withMore j = m.withLess k := by
  unfold Machine.withMore Machine.withLess
  dsimp only
  congr 2
  omega

theorem exists_withMore (hle : k ≤ p.gas.remaining) : ∃ m : Machine σ, p = m.withMore k := by
  refine ⟨p.withLess (0 + k), ?_⟩
  rw [Machine.withMore_withLess (by omega)]
  rfl

/-- A meter that can pay. -/
theorem charge?_of_le (hle : k ≤ m.gas.remaining) : m.gas.charge? k = some (m.withLess k).gas :=
  if_pos hle

/-- Computations that do the same on every meter that can pay. -/
theorem Mirrors.of_uniform {x : Exec σ Flow} (hx : x.Uniform)
    (hflow : ∀ {m flow m'}, x m = .ok flow m' → SameFlow is code flow flow) (k : Nat)
    (m : Machine σ) : Mirrors is code k (x m) (x (m.withMore k)) where
  forward flow m' h := ⟨flow, hx.more k h, hflow h⟩
  backward flow p' h hk := by
    obtain ⟨m', hm', hp'⟩ | hless := hx.less h
    · exact ⟨flow, m', hm', hp', hflow hm'⟩
    · omega

/-- **An effect that sees the whole meter** is that effect on the whole meter. -/
theorem Mirrors.observing (effect : Exec σ Unit) (hle : m.gas.remaining + k ≤ m.gas.limit)
    (hlimit : m.gas.limit < u64Size) :
    Mirrors is code k (andNext (Effect.observing k effect) m) (andNext effect (m.withMore k)) := by
  have hgive : giveBack k m = .ok () (m.withMore k) := Addition.u64_faithful.giveBack hle hlimit
  have hobserve : (Effect.observing k effect) m = (effect >>= fun _ => charge k) (m.withMore k) :=
    Act.bind_ok hgive
  constructor
  · intro flow m' h
    obtain ⟨rfl, hobserved⟩ := of_andNext_ok h
    rw [hobserve] at hobserved
    obtain ⟨⟨⟩, p', heffect, hcharge⟩ := Act.eq_of_bind_ok hobserved
    refine ⟨.next, ?_, .next⟩
    rw [← eq_withMore_of_charge_ok hcharge]
    exact Act.bind_ok heffect
  · intro flow p' h hk
    obtain ⟨rfl, heffect⟩ := of_andNext_ok h
    obtain ⟨m', rfl⟩ := exists_withMore hk
    refine ⟨.next, m', ?_, rfl, .next⟩
    have hdone : (Effect.observing k effect) m = .ok () m' := by
      rw [hobserve, Act.bind_ok heffect]
      exact charge_withMore m' k
    exact Act.bind_ok hdone

/-- The gas that is left, seen with what the rest of the block has paid. -/
theorem Mirrors.gas (hlt : m.gas.remaining + k < u64Size) :
    Mirrors is code k (andNext (Effect.gas k) m) (andNext Plain.gas (m.withMore k)) := by
  have hamount : (amount (m.gas.remaining + k) : Exec σ Nat) m = .ok (m.gas.remaining + k) m := by
    rw [show (amount (m.gas.remaining + k) : Exec σ Nat) = pure (m.gas.remaining + k) from if_pos hlt]
    rfl
  have hgas : (Effect.gas k) m = push (BitVec.ofNat 256 (m.gas.remaining + k)) m := by
    show (amount (m.gas.remaining + k) >>= fun left => push (BitVec.ofNat 256 left)) m = _
    rw [Act.bind_ok hamount]
  have hplain : Plain.gas (m.withMore k) =
      push (BitVec.ofNat 256 (m.gas.remaining + k)) (m.withMore k) := rfl
  have huniform :=
    (Billed.of_gasFree (gasFree_push (σ := σ) (BitVec.ofNat 256 (m.gas.remaining + k)))).uniform
  constructor
  · intro flow m' h
    obtain ⟨rfl, hpush⟩ := of_andNext_ok h
    rw [hgas] at hpush
    exact ⟨.next, Act.bind_ok (hplain.trans (huniform.more k hpush)), .next⟩
  · intro flow p' h hk
    obtain ⟨rfl, hpush⟩ := of_andNext_ok h
    rw [hplain] at hpush
    obtain ⟨m', hm', rfl⟩ | hless := huniform.less hpush
    · exact ⟨.next, m', Act.bind_ok (hgas.trans hm'), rfl, .next⟩
    · omega

/-! ## Jumps -/

/-- A jump that the analysis has resolved goes where the word leads that it was resolved from. -/
theorem destination_inner (hcode : s.code = analyze is code) (pushed : Option Word) (d : Decoded)
    (later : List Decoded) {dest : Word} (hpushed : ∀ w, pushed = some w → w = dest) :
    Effect.destination s (innerArg (analyze is code).jumpTarget pushed d later) dest =
      match (analyze is code).jumpTarget dest with
      | some index => pure index
      | none => fault .invalidJump := by
  unfold Effect.destination
  rw [hcode]
  split
  · rename_i index harg
    obtain ⟨-, w, hw, hindex⟩ := of_innerArg_eq_target harg
    rw [← hpushed w hw, hindex]
  · rfl

/-- **Jumps go to the place of the same byte**, or fail on both machines. -/
theorem Mirrors.destination (hcode : s.code = analyze is code) (pushed : Option Word) (d : Decoded)
    (later : List Decoded) {dest : Word} (hpushed : ∀ w, pushed = some w → w = dest) (m : Machine σ) :
    Mirrors is code 0
      ((do return .jump (← Effect.destination s
        (innerArg (analyze is code).jumpTarget pushed d later) dest) : Exec σ Flow) m)
      ((do return .jump (← Plain.destination code dest) : Exec σ Flow) m) := by
  rw [destination_inner hcode pushed d later hpushed]
  unfold Plain.destination
  cases htarget : (analyze is code).jumpTarget dest with
  | none =>
      rw [if_neg fun h => jumpTarget_ne_none_iff.2 h htarget]
      exact ⟨nofun, nofun⟩
  | some index =>
      rw [if_pos (jumpTarget_ne_none_iff.1 (by rw [htarget]; exact Option.some_ne_none _))]
      constructor
      · intro flow m' h
        cases h
        exact ⟨_, rfl, .jump htarget⟩
      · intro flow m' h _
        cases h
        exact ⟨_, _, rfl, rfl, .jump htarget⟩

/-- Computations that begin alike. -/
theorem Mirrors.bind {α : Type} {x : Exec σ α} {f f' : α → Exec σ Flow}
    (h : ∀ a m₁, x m = .ok a m₁ → Mirrors is code 0 (f a m₁) (f' a m₁)) :
    Mirrors is code 0 ((x >>= f) m) ((x >>= f') m) := by
  cases hx : x m with
  | ok a m₁ =>
      rw [Act.bind_ok hx, Act.bind_ok hx]
      exact h a m₁ hx
  | error e m₁ =>
      rw [Act.bind_error hx, Act.bind_error hx]
      exact ⟨nofun, nofun⟩

section Inner

variable (hcode : s.code = analyze is code)
  (hpushed : ∀ w, pushed = some w → m.stack.peek? 0 = some w)

include hcode hpushed

theorem Mirrors.jump (d : Decoded) (later : List Decoded) :
    Mirrors is code 0 (Effect.jump s (innerArg (analyze is code).jumpTarget pushed d later) m)
      (Plain.jump code m) := by
  refine .bind fun dest m₁ hpop => ?_
  obtain ⟨st, hst, rfl⟩ := of_pop_ok hpop
  refine .destination hcode pushed d later (fun w hw => ?_) _
  exact Option.some.inj ((hpushed w hw).symm.trans (Stack.peek?_of_pop? hst))

theorem Mirrors.jumpi (d : Decoded) (later : List Decoded) :
    Mirrors is code 0 (Effect.jumpi s (innerArg (analyze is code).jumpTarget pushed d later) m)
      (Plain.jumpi code m) := by
  refine .bind fun dest m₁ hpop => .bind fun condition m₂ _ => ?_
  obtain ⟨st, hst, rfl⟩ := of_pop_ok hpop
  by_cases hzero : condition = 0#256
  · rw [if_pos hzero, if_pos hzero]
    constructor
    · intro flow m' h
      cases h
      exact ⟨_, rfl, .next⟩
    · intro flow m' h _
      cases h
      exact ⟨_, _, rfl, rfl, .next⟩
  · rw [if_neg hzero, if_neg hzero]
    refine .destination hcode pushed d later (fun w hw => ?_) m₂
    exact Option.some.inj ((hpushed w hw).symm.trans (Stack.peek?_of_pop? hst))

end Inner

/-- Where ordinary instructions go. -/
theorem sameFlow_of_ordinary {ins : Instruction} (hop : Plain.ordinary op = true)
    (h : op.exec s ins m = .ok flow m') : SameFlow is code flow flow := by
  rcases Op.exec_flow h with ⟨-, rfl⟩ | ⟨e, rfl⟩ | rfl | rfl
  · exact .next
  · exact .halt e
  · cases hop
  · cases hop

/-- Ordinary instructions use nothing that the analysis adds. -/
theorem exec_inner_of_ordinary (target : Word → Option Nat) (pushed : Option Word)
    (later : List Decoded) (hlawful : d.Lawful is) (hop : d.entry.op = some op)
    (hord : Plain.ordinary op = true) :
    op.exec s (innerInstruction target pushed d later) = op.exec s (Plain.bare d) := by
  cases op with
  | push n =>
      have harg : innerArg target pushed d later = (Plain.bare d).arg := by
        unfold innerArg Analysis.isJump Plain.bare
        rw [hlawful.entry_of_op _ hop]
        rfl
      show andNext (push (innerInstruction target pushed d later).pushed) =
        andNext (push (Plain.bare d).pushed)
      unfold Instruction.pushed
      rw [show (innerInstruction target pushed d later).arg = (Plain.bare d).arg from harg]
  | gas => cases hord
  | sstore => cases hord
  | create salted => cases hord
  | call kind => cases hord
  | jump => cases hord
  | jumpi => cases hord
  | jumpDest => cases hord
  | _ => rfl

/-- The correction of an instruction that looks at the meter. -/
theorem correction_eq (target : Word → Option Nat) (pushed : Option Word) (later : List Decoded)
    (hlawful : d.Lawful is) (hop : d.entry.op = some op) (hsees : op.observesGas = true) :
    (innerInstruction target pushed d later).correction = gasOf later := by
  have hentry : d.entry.observesGas = true := by
    rw [hlawful.entry_of_op op hop]
    exact hsees
  unfold Instruction.correction innerInstruction innerArg
  dsimp only
  rw [if_pos hentry]

/-- **The effect of an instruction inside a block, on both machines.** -/
theorem exec_mirrors (hcode : s.code = analyze is code) (hlawful : d.Lawful is)
    (hdest : d.isJumpDest = false) (hop : d.entry.op = some op)
    (hends : d.entry.endsBlock = true → later = []) (hfits : Fits m.stack.height (d :: later))
    (hpushed : ∀ w, pushed = some w → m.stack.peek? 0 = some w)
    (hle : m.gas.remaining + gasOf later ≤ m.gas.limit) (hlimit : m.gas.limit < u64Size) :
    Mirrors is code (gasOf later)
      (op.exec s (innerInstruction (analyze is code).jumpTarget pushed d later) m)
      (Plain.exec s code d op (m.withMore (gasOf later))) := by
  obtain ⟨hne, h₀, -, -, hroom⟩ := inner_room hlawful hdest hop hfits
  have hcorrection (hsees : op.observesGas = true) :=
    correction_eq (analyze is code).jumpTarget pushed later hlawful hop hsees
  have hlast (hends' : op.endsBlock = true) : later = [] := by
    apply hends
    rw [hlawful.entry_of_op op hop]
    exact hends'
  cases hord : Plain.ordinary op with
  -- one computation on both machines
  | true =>
      have htyped : Typed s .blind 0 (h₀ + op.inputs) (h₀ + op.outputs) (op.exec s (Plain.bare d)) :=
        Plain.ordinary_typed hord (Plain.bare d) hroom
      rw [Plain.exec_of_ordinary hord, exec_inner_of_ordinary _ _ _ hlawful hop hord]
      exact .of_uniform htyped.billed.uniform (fun h => sameFlow_of_ordinary hord h) _ m
  | false =>
      cases op with
      -- those that look at the meter are corrected by what the plain machine has more
      | gas =>
          show Mirrors is code _ (andNext (Effect.gas (innerInstruction ..).correction) m) _
          rw [hcorrection rfl]
          exact .gas (by omega)
      | sstore =>
          show Mirrors is code _ (andNext (Effect.observing (innerInstruction ..).correction _) m) _
          rw [hcorrection rfl]
          exact .observing _ hle hlimit
      | create salted =>
          show Mirrors is code _ (andNext (Effect.observing (innerInstruction ..).correction _) m) _
          rw [hcorrection rfl]
          exact .observing _ hle hlimit
      | call kind =>
          show Mirrors is code _ (andNext (Effect.observing (innerInstruction ..).correction _) m) _
          rw [hcorrection rfl]
          exact .observing _ hle hlimit
      -- jumps end their block, so there is nothing that the plain machine has more
      | jump =>
          obtain rfl := hlast rfl
          exact .jump hcode hpushed d []
      | jumpi =>
          obtain rfl := hlast rfl
          exact .jumpi hcode hpushed d []
      | jumpDest => exact absurd rfl hne
      | _ => cases hord

/-- **An instruction inside a block, on both machines**: the plain one still has to pay for it. -/
theorem inner_mirrors (guarded : Bool) (hcode : s.code = analyze is code) (hlawful : d.Lawful is)
    (hdest : d.isJumpDest = false) (hends : d.entry.endsBlock = true → later = [])
    (hfits : Fits m.stack.height (d :: later))
    (hpushed : ∀ w, pushed = some w → m.stack.peek? 0 = some w)
    (hle : m.gas.remaining + gasOf later ≤ m.gas.limit) (hlimit : m.gas.limit < u64Size) :
    Mirrors is code (gasOf later)
      (step s guarded (innerInstruction (analyze is code).jumpTarget pushed d later) m)
      (Plain.step s guarded code d (m.withMore (gasOf (d :: later)))) := by
  cases hop : d.entry.op with
  | none =>
      unfold step Plain.step
      rw [show (innerInstruction _ pushed d later).op = none from hop, hop]
      exact ⟨nofun, nofun⟩
  | some op =>
      have hinner : (innerInstruction (analyze is code).jumpTarget pushed d later).op = some op := hop
      have hcharge : (m.withMore (gasOf (d :: later))).gas.charge? d.entry.baseGas =
          some (m.withMore (gasOf later)).gas := by
        unfold Meter.charge? Machine.withMore
        dsimp only
        rw [gasOf_cons, if_pos (by omega)]
        congr 2
        omega
      cases hban : guarded && violatesStatic op.effect m.stack with
      | false =>
          have hban' : (guarded && violatesStatic op.effect (m.withMore (gasOf (d :: later))).stack) =
              false := hban
          rw [step_eq hinner hban, Plain.step_eq hlawful hop hban' hcharge hfits.1 hfits.2.1]
          exact exec_mirrors hcode hlawful hdest hop hends hfits hpushed hle hlimit
      -- where state changes are banned, neither machine gets further
      | true =>
          constructor
          · intro flow m' h
            obtain ⟨op', hop', hban', -⟩ := of_step_ok h
            cases hinner.symm.trans hop'
            rw [hban] at hban'
            cases hban'
          · intro flow p' h _
            obtain ⟨op', gas, hop', hban', -⟩ := Plain.of_step_ok hlawful h
            cases hop.symm.trans hop'
            rw [show (m.withMore _).stack = m.stack from rfl, hban] at hban'
            cases hban'

/-- What an instruction carries is on top of the stack after it. -/
theorem immediate_on_top {target : Word → Option Nat} {w : Word} (hlawful : d.Lawful is)
    (himmediate : d.immediate = some w)
    (h : step s guarded (innerInstruction target pushed d later) m = .ok flow m') :
    m'.stack.peek? 0 = some w := by
  obtain ⟨n, hpush⟩ := hlawful.op_of_immediate w himmediate
  obtain ⟨op, hop, -, hexec⟩ := of_step_ok h
  cases hpush.symm.trans hop
  rw [exec_inner_of_ordinary _ _ _ hlawful hpush rfl] at hexec
  obtain ⟨-, hdone⟩ := of_andNext_ok hexec
  have hword : (Plain.bare d).pushed = w := by
    unfold Instruction.pushed Plain.bare
    rw [himmediate]
  rw [hword] at hdone
  obtain ⟨st, hst, rfl⟩ := of_push_ok hdone
  exact Stack.peek?_of_push? hst

end MeteredEvm
