import MeteredEvm.Run
import MeteredEvm.Proofs.Effects

/-!
# `MeteredEvm.Proofs.Turn` — the loop, one turn at a time

A run is one turn after another. A turn is a function from a place and a machine to where the run
goes on, or to its end, so that a property of runs is a property that a turn keeps, and a run ends
because a turn brings down a measure.

## Contents
* `turn`, `iterate`, `Reaches`, `advance` — turns, a number of turns, any number of turns.
* `Descent.ends` — a measure that every turn brings down.
* `runFrom_of_iterate` — running by stretches is running by turns.
* `Host.guard_of_isStatic`, `Host.guard_invariant` — what comes before the first turn.
* `step_enter`, `Op.exec_flow`, `Effect.of_jump_ok`, `of_step_jump`, … — where control goes.
-/

namespace MeteredEvm

variable {σ : Type}

/-! ## Turns -/

/-- Where a run goes on from a place and a machine, or its end. -/
abbrev Turn (σ : Type) := Nat → Machine σ → Stretch σ

/-- What an instruction at `c`, followed by the one at `following`, comes to. -/
def afterStep (c following : Nat) : EStateM.Result Failure (Machine σ) Flow → Stretch σ
  | .ok .next m => .jumped following m
  | .ok (.jump target) m => .jumped target m
  | .ok (.halt h) m => .ended ⟨c, .ok h, m⟩
  | .error e m => .ended ⟨c, .error e, m⟩

/-- The machine at the end of a stretch. -/
def Stretch.machine : Stretch σ → Machine σ
  | .jumped _ m => m
  | .ended e => e.machine

/-- One turn of the loop over the stream. -/
def turn (s : Setting σ) (guarded : Bool) : Turn σ := fun c m =>
  match s.code.instructions[c]? with
  | none => .ended ⟨c, .ok .stop, m⟩
  | some ins => afterStep c (c + 1) (step s guarded ins m)

/-- The turn at an instruction of the stream. -/
theorem turn_of_getElem? {s : Setting σ} {code : Analysis} {guarded : Bool} {c : Nat}
    {ins : Instruction} (hcode : s.code = code) (hins : code.instructions[c]? = some ins)
    (m : Machine σ) : turn s guarded c m = afterStep c (c + 1) (step s guarded ins m) := by
  subst hcode
  unfold turn
  rw [hins]

/-- The turn past the last one. -/
theorem turn_of_none {s : Setting σ} {code : Analysis} {guarded : Bool} {c : Nat}
    (hcode : s.code = code) (hins : code.instructions[c]? = none) (m : Machine σ) :
    turn s guarded c m = .ended ⟨c, .ok .stop, m⟩ := by
  subst hcode
  unfold turn
  rw [hins]

theorem of_afterStep_jumped {c following c' : Nat} {m' : Machine σ}
    {r : EStateM.Result Failure (Machine σ) Flow} (h : afterStep c following r = .jumped c' m') :
    (r = .ok .next m' ∧ c' = following) ∨ r = .ok (.jump c') m' := by
  cases r with
  | error e m => cases h
  | ok flow m =>
      cases flow with
      | next =>
          cases h
          exact .inl ⟨rfl, rfl⟩
      | jump target =>
          cases h
          exact .inr rfl
      | halt e => cases h

/-- A run goes on to the next instruction, or along a jump. -/
theorem of_turn_jumped {s : Setting σ} {guarded : Bool} {c c' : Nat} {m m' : Machine σ}
    (h : turn s guarded c m = .jumped c' m') :
    ∃ ins, s.code.instructions[c]? = some ins ∧
      ((step s guarded ins m = .ok .next m' ∧ c' = c + 1) ∨
        step s guarded ins m = .ok (.jump c') m') := by
  cases hins : s.code.instructions[c]? with
  | none =>
      rw [turn_of_none rfl hins] at h
      cases h
  | some ins =>
      rw [turn_of_getElem? rfl hins] at h
      exact ⟨ins, rfl, of_afterStep_jumped h⟩

/-- The end of a run of at most `turns` turns, if it ends within them. -/
def iterate (t : Turn σ) : (turns : Nat) → Nat → Machine σ → Option (Ending σ)
  | 0, _, _ => none
  | turns + 1, c, m =>
    match t c m with
    | .ended e => some e
    | .jumped c m => iterate t turns c m

/-- The places and machines that a run comes to, by any number of turns that are `Stretch.jumped`. -/
inductive Reaches (t : Turn σ) (c : Nat) (m : Machine σ) : Nat → Machine σ → Prop where
  | refl : Reaches t c m c m
  | tail {c₁ c₂ : Nat} {m₁ m₂ : Machine σ} (h : Reaches t c m c₁ m₁) (ht : t c₁ m₁ = .jumped c₂ m₂) :
      Reaches t c m c₂ m₂

/-- What holds at the start and is kept by every turn holds wherever a run comes to. -/
theorem Reaches.invariant {t : Turn σ} {c c' : Nat} {m m' : Machine σ} {P : Nat → Machine σ → Prop}
    (h : Reaches t c m c' m') (hstart : P c m)
    (hturn : ∀ {c₁ c₂ m₁ m₂}, P c₁ m₁ → t c₁ m₁ = .jumped c₂ m₂ → P c₂ m₂) : P c' m' := by
  induction h with
  | refl => exact hstart
  | tail _ ht ih => exact hturn ih ht

/-- The place and the machine after a number of turns, if the run goes on that long. -/
def advance (t : Turn σ) (c : Nat) (m : Machine σ) : (turns : Nat) → Option (Nat × Machine σ)
  | 0 => some (c, m)
  | turns + 1 =>
    match advance t c m turns with
    | none => none
    | some (c, m) =>
      match t c m with
      | .ended _ => none
      | .jumped c m => some (c, m)

theorem reaches_of_advance {t : Turn σ} {c c' n : Nat} {m m' : Machine σ}
    (h : advance t c m n = some (c', m')) : Reaches t c m c' m' := by
  induction n generalizing c' m' with
  | zero =>
      cases h
      exact .refl
  | succ n ih =>
      unfold advance at h
      split at h
      · cases h
      · rename_i hbefore
        split at h
        · cases h
        · rename_i hturn
          cases h
          exact (ih hbefore).tail hturn

/-- What every turn keeps, and every last turn turns into `Q`, holds at the end of a run. -/
theorem of_iterate {t : Turn σ} {n c : Nat} {m : Machine σ} {e : Ending σ}
    {P : Nat → Machine σ → Prop} {Q : Ending σ → Prop} (hstart : P c m)
    (hturn : ∀ {c₁ c₂ m₁ m₂}, P c₁ m₁ → t c₁ m₁ = .jumped c₂ m₂ → P c₂ m₂)
    (hend : ∀ {c₁ m₁ e}, P c₁ m₁ → t c₁ m₁ = .ended e → Q e) (h : iterate t n c m = some e) :
    Q e := by
  induction n generalizing c m with
  | zero => cases h
  | succ n ih =>
      unfold iterate at h
      cases ht : t c m with
      | ended e' =>
          rw [ht] at h
          cases h
          exact hend hstart ht
      | jumped c' m' =>
          rw [ht] at h
          exact ih (hturn hstart ht) h

/-- More turns than needed change nothing. -/
theorem iterate_mono {t : Turn σ} {n k c : Nat} {m : Machine σ} {e : Ending σ}
    (h : iterate t n c m = some e) (hle : n ≤ k) : iterate t k c m = some e := by
  induction n generalizing k c m with
  | zero => cases h
  | succ n ih =>
      obtain ⟨k, rfl⟩ : ∃ j, k = j + 1 := ⟨k - 1, by omega⟩
      unfold iterate at h ⊢
      cases hturn : t c m with
      | ended e' =>
          rw [hturn] at h
          exact h
      | jumped c' m' =>
          rw [hturn] at h
          exact ih h (by omega)

/-- The end of a run does not depend on how many turns it is given. -/
theorem iterate_unique {t : Turn σ} {n k c : Nat} {m : Machine σ} {e e' : Ending σ}
    (h : iterate t n c m = some e) (h' : iterate t k c m = some e') : e = e' := by
  have hmax := iterate_mono h (Nat.le_max_left n k)
  rw [iterate_mono h' (Nat.le_max_right n k)] at hmax
  exact (Option.some.inj hmax).symm

/-! ## Runs that halt -/

/-- A run that ends by itself, and what it leaves. -/
inductive Halts (t : Turn σ) : Nat → Machine σ → Halt → Machine σ → Prop where
  | last {c c' : Nat} {m m' : Machine σ} {halt : Halt} (ht : t c m = .ended ⟨c', .ok halt, m'⟩) :
      Halts t c m halt m'
  | next {c c₁ : Nat} {m m₁ m' : Machine σ} {halt : Halt} (ht : t c m = .jumped c₁ m₁)
      (h : Halts t c₁ m₁ halt m') : Halts t c m halt m'

theorem Halts.iterate {t : Turn σ} {c : Nat} {m m' : Machine σ} {halt : Halt}
    (h : Halts t c m halt m') : ∃ n c', MeteredEvm.iterate t n c m = some ⟨c', .ok halt, m'⟩ := by
  induction h with
  | @last c c' m m' halt ht =>
      refine ⟨1, c', ?_⟩
      unfold MeteredEvm.iterate
      rw [ht]
  | next ht _ ih =>
      obtain ⟨n, c', hiterate⟩ := ih
      refine ⟨n + 1, c', ?_⟩
      unfold MeteredEvm.iterate
      rw [ht]
      exact hiterate

theorem halts_of_iterate {t : Turn σ} {n c : Nat} {m : Machine σ} {e : Ending σ} {halt : Halt}
    (h : iterate t n c m = some e) (hhalt : e.halt = .ok halt) : Halts t c m halt e.machine := by
  induction n generalizing c m with
  | zero => cases h
  | succ n ih =>
      unfold iterate at h
      cases ht : t c m with
      | ended e' =>
          rw [ht] at h
          cases h
          obtain ⟨c', halt', m'⟩ := e
          cases hhalt
          exact .last ht
      | jumped c₁ m₁ =>
          rw [ht] at h
          exact .next ht (ih h)

/-- A run that halts has no other end. -/
theorem Halts.eq_of_iterate {t : Turn σ} {n c : Nat} {m m' : Machine σ} {halt : Halt} {e : Ending σ}
    (h : Halts t c m halt m') (he : MeteredEvm.iterate t n c m = some e) :
    e.halt = .ok halt ∧ e.machine = m' := by
  obtain ⟨n', c', hiterate⟩ := h.iterate
  rw [iterate_unique he hiterate]
  exact ⟨rfl, rfl⟩

/-- The first instruction of a run that halts goes through. -/
theorem Halts.of_afterStep {t : Turn σ} {c following : Nat} {m m' : Machine σ} {halt : Halt}
    {r : EStateM.Result Failure (Machine σ) Flow} (ht : t c m = afterStep c following r)
    (h : Halts t c m halt m') :
    ∃ flow m₁, r = .ok flow m₁ ∧ (flow = .next → Halts t following m₁ halt m') := by
  cases r with
  | error e m₁ =>
      cases h with
      | last hlast =>
          rw [ht] at hlast
          cases hlast
      | next hnext _ =>
          rw [ht] at hnext
          cases hnext
  | ok flow m₁ =>
      refine ⟨flow, m₁, rfl, ?_⟩
      rintro rfl
      cases h with
      | last hlast =>
          rw [ht] at hlast
          cases hlast
      | next hnext hrest =>
          rw [ht] at hnext
          cases hnext
          exact hrest

/-! ## Measures -/

/-- **A measure of runs.** Every turn goes forward, or brings the first number of the measure down;
    `size` bounds how far a run can go forward. -/
def Descent (t : Turn σ) (size : Nat) (P : Nat → Nat → Machine σ → Prop) : Prop :=
  ∀ ⦃r c c' m m'⦄, P r c m → t c m = .jumped c' m' →
    c < size ∧ ∃ r', P r' c' m' ∧ (r' < r ∨ r' ≤ r ∧ c < c')

/-- A run with a measure ends, after no more turns than the measure allows. -/
theorem Descent.ends {t : Turn σ} {size : Nat} {P : Nat → Nat → Machine σ → Prop}
    (h : Descent t size P) {r c : Nat} {m : Machine σ} (hP : P r c m) :
    ∃ n e, n ≤ r * (size + 1) + (size - c) + 1 ∧ iterate t n c m = some e := by
  induction hk : r * (size + 1) + (size - c) using Nat.strongRecOn generalizing r c m with
  | ind k ih =>
      cases hturn : t c m with
      | ended e =>
          refine ⟨1, e, by omega, ?_⟩
          unfold iterate
          rw [hturn]
      | jumped c' m' =>
          obtain ⟨hlt, r', hP', hdown⟩ := h hP hturn
          have hless : r' * (size + 1) + (size - c') < r * (size + 1) + (size - c) := by
            rcases hdown with hr | ⟨hr, hc⟩
            · have hmul : (r' + 1) * (size + 1) ≤ r * (size + 1) := Nat.mul_le_mul_right _ hr
              rw [Nat.succ_mul] at hmul
              omega
            · have hmul : r' * (size + 1) ≤ r * (size + 1) := Nat.mul_le_mul_right _ hr
              omega
          obtain ⟨n, e, hn, hiter⟩ := ih _ (by omega) hP' rfl
          refine ⟨n + 1, e, by omega, ?_⟩
          unfold iterate
          rw [hturn]
          exact hiter

/-! ## Stretches -/

section Stretches

variable {s : Setting σ} {guarded : Bool} {c jumps : Nat} {m m' : Machine σ} {ins : Instruction}

theorem getElem?_isSome_lt (h : s.code.instructions[c]? = some ins) :
    c < s.code.instructions.size := by
  obtain ⟨hlt, -⟩ := Array.getElem?_eq_some_iff.1 h
  exact hlt

/-- A stretch from an instruction on. -/
theorem stretch_of_getElem? (hins : s.code.instructions[c]? = some ins) :
    stretch s guarded (s.code.instructions.size - c) c m =
      match step s guarded ins m with
      | .ok .next m => stretch s guarded (s.code.instructions.size - (c + 1)) (c + 1) m
      | .ok (.jump target) m => .jumped target m
      | .ok (.halt h) m => .ended ⟨c, .ok h, m⟩
      | .error e m => .ended ⟨c, .error e, m⟩ := by
  have hlt := getElem?_isSome_lt hins
  rewrite [show s.code.instructions.size - c = s.code.instructions.size - (c + 1) + 1 by omega,
    stretch, hins]
  rfl

/-- Going on to the next instruction stays in the stretch. -/
theorem stretch_next (hins : s.code.instructions[c]? = some ins)
    (hstep : step s guarded ins m = .ok .next m') :
    stretch s guarded (s.code.instructions.size - c) c m =
      stretch s guarded (s.code.instructions.size - (c + 1)) (c + 1) m' := by
  rw [stretch_of_getElem? hins, hstep]

theorem runFrom_next (hins : s.code.instructions[c]? = some ins)
    (hstep : step s guarded ins m = .ok .next m') :
    runFrom s guarded jumps c m = runFrom s guarded jumps (c + 1) m' := by
  cases jumps with
  | zero =>
      unfold runFrom
      rw [stretch_next hins hstep]
  | succ jumps =>
      unfold runFrom
      rw [stretch_next hins hstep]

/-- A jump uses one of the jumps. -/
theorem runFrom_jump {target : Nat} (hins : s.code.instructions[c]? = some ins)
    (hstep : step s guarded ins m = .ok (.jump target) m') :
    runFrom s guarded (jumps + 1) c m = runFrom s guarded jumps target m' := by
  rw [runFrom, stretch_of_getElem? hins, hstep]

/-- The end of a turn is the end of the run. -/
theorem runFrom_ended {e : Ending σ} (hturn : turn s guarded c m = .ended e) :
    runFrom s guarded jumps c m = e := by
  have hstretch : stretch s guarded (s.code.instructions.size - c) c m = .ended e := by
    cases hins : s.code.instructions[c]? with
    | none =>
        rw [turn_of_none rfl hins] at hturn
        cases hleft : s.code.instructions.size - c with
        | zero => exact hturn
        | succ left =>
            rw [stretch, hins]
            exact hturn
    | some ins =>
        rw [turn_of_getElem? rfl hins] at hturn
        rw [stretch_of_getElem? hins]
        cases hstep : step s guarded ins m with
        | error f m' =>
            rw [hstep] at hturn
            exact hturn
        | ok flow m' =>
            rw [hstep] at hturn
            cases flow with
            | next => cases hturn
            | jump target => cases hturn
            | halt h => exact hturn
  cases jumps with
  | zero => rw [runFrom, hstretch]
  | succ jumps => rw [runFrom, hstretch]

/-- **Running by stretches is running by turns**, as long as the jumps suffice: `P r c m` says that
    no more than `r` jumps can follow. -/
theorem runFrom_of_iterate {P : Nat → Nat → Machine σ → Prop}
    (hnext : ∀ {r c ins m m'}, P r c m → s.code.instructions[c]? = some ins →
      step s guarded ins m = .ok .next m' → ∃ r', r' ≤ r ∧ P r' (c + 1) m')
    (hjump : ∀ {r c ins target m m'}, P r c m → s.code.instructions[c]? = some ins →
      step s guarded ins m = .ok (.jump target) m' → ∃ r', r' < r ∧ P r' target m')
    {n r : Nat} {e : Ending σ} (hP : P r c m) (hr : r ≤ jumps)
    (hiter : iterate (turn s guarded) n c m = some e) : runFrom s guarded jumps c m = e := by
  induction n generalizing r jumps c m with
  | zero => cases hiter
  | succ n ih =>
      unfold iterate at hiter
      cases hturn : turn s guarded c m with
      | ended e' =>
          rw [hturn] at hiter
          cases hiter
          exact runFrom_ended hturn
      | jumped c' m' =>
          rw [hturn] at hiter
          obtain ⟨ins, hins, ⟨hstep, rfl⟩ | hstep⟩ := of_turn_jumped hturn
          · obtain ⟨r', hle, hP'⟩ := hnext hP hins hstep
            rw [runFrom_next hins hstep]
            exact ih hP' (by omega) hiter
          · obtain ⟨r', hlt, hP'⟩ := hjump hP hins hstep
            obtain ⟨jumps, rfl⟩ : ∃ j, jumps = j + 1 := ⟨jumps - 1, by omega⟩
            rw [runFrom_jump hins hstep]
            exact ih hP' (by omega) hiter

end Stretches

/-! ## Before the first turn -/

/-- In a static frame changes are banned, and its host is not asked. -/
theorem Host.guard_of_isStatic (host : Host σ) {context : CallContext} (h : context.isStatic = true)
    (p : σ) : host.guard context p = (true, p) :=
  if_pos h

/-- What one answer keeps holds once it is known whether changes are banned. -/
theorem Host.guard_invariant (host : Host σ) (context : CallContext) {P : σ → Prop} {p : σ}
    (hp : P p) (hanswer : P (host.answer .staticViolation p).2) : P (host.guard context p).2 := by
  unfold Host.guard
  split
  · exact hp
  · exact hanswer

/-! ## Where control goes -/

section Flow

open Exec

variable {s : Setting σ} {guarded : Bool} {m m' : Machine σ} {ins : Instruction} {flow : Flow}

theorem of_andNext_ok {effect : Exec σ Unit} (h : andNext effect m = .ok flow m') :
    flow = .next ∧ effect m = .ok () m' := by
  obtain ⟨⟨⟩, m₁, heffect, hpure⟩ := Act.eq_of_bind_ok h
  cases hpure
  exact ⟨rfl, heffect⟩

/-- An instruction in the middle of its block hands over to the next one. -/
theorem Op.exec_next {op : Op} (hop : op.endsBlock = false) (h : op.exec s ins m = .ok flow m') :
    flow = .next := by
  cases op with
  | stop => cases hop
  | jump => cases hop
  | jumpi => cases hop
  | ret => cases hop
  | revert => cases hop
  | invalid => cases hop
  | selfDestruct => cases hop
  | _ => exact (of_andNext_ok h).1

/-- An instruction that ends the run of its frame does not go on. -/
theorem Op.exec_halt {op : Op} (hop : op.terminates = true) (h : op.exec s ins m = .ok flow m') :
    ∃ e, flow = .halt e := by
  cases op with
  | stop =>
      cases h
      exact ⟨_, rfl⟩
  | ret =>
      obtain ⟨bytes, m₁, -, hpure⟩ := Act.eq_of_bind_ok h
      cases hpure
      exact ⟨_, rfl⟩
  | revert =>
      obtain ⟨bytes, m₁, -, hpure⟩ := Act.eq_of_bind_ok h
      cases hpure
      exact ⟨_, rfl⟩
  | invalid => cases h
  | selfDestruct =>
      obtain ⟨⟨⟩, m₁, -, hpure⟩ := Act.eq_of_bind_ok h
      cases hpure
      exact ⟨_, rfl⟩
  | _ => cases hop

/-- What neither goes on to the next instruction nor ends the run is a jump. -/
theorem Op.eq_jump_of_endsBlock {op : Op} (hends : op.endsBlock = true)
    (hterm : op.terminates = false) : op = .jump ∨ op = .jumpi := by
  cases op with
  | jump => exact .inl rfl
  | jumpi => exact .inr rfl
  | _ => exact absurd (hends.symm.trans hterm) (by decide)

/-- **Where an instruction can go**: on to the next one or to the end of the frame, unless it is a
    jump. -/
theorem Op.exec_flow {op : Op} (h : op.exec s ins m = .ok flow m') :
    (op.endsBlock = false ∧ flow = .next) ∨ (∃ e, flow = .halt e) ∨ op = .jump ∨ op = .jumpi := by
  cases hends : op.endsBlock with
  | false => exact .inl ⟨rfl, Op.exec_next hends h⟩
  | true =>
      cases hterm : op.terminates with
      | true => exact .inr (.inl (Op.exec_halt hterm h))
      | false => exact .inr (.inr (Op.eq_jump_of_endsBlock hends hterm))

/-- A jump to the word `dest` with the argument `arg` continues at `target`. -/
def Leads (s : Setting σ) (arg : Arg) (dest : Word) (target : Nat) : Prop :=
  arg = .target target ∨ (∀ index, arg ≠ .target index) ∧ s.code.jumpTarget dest = some target

theorem Effect.of_destination_ok {arg : Arg} {dest : Word} {target : Nat}
    (h : destination s arg dest m = .ok target m') : m' = m ∧ Leads s arg dest target := by
  obtain ⟨index, rfl, heq⟩ | ⟨hne, heq⟩ := destination_cases s arg dest
  · cases h
    exact ⟨rfl, .inl rfl⟩
  · rw [heq] at h
    cases htarget : s.code.jumpTarget dest with
    | none =>
        rw [htarget] at h
        cases h
    | some index =>
        rw [htarget] at h
        cases h
        exact ⟨rfl, .inr ⟨hne, htarget⟩⟩

theorem Exec.of_pop_ok {w : Word} (h : pop m = .ok w m') :
    ∃ st, m.stack.pop? = some (w, st) ∧ m' = { m with stack := st } := by
  unfold pop at h
  split at h
  · rename_i hpop
    cases h
    exact ⟨_, hpop, rfl⟩
  · cases h

theorem Exec.of_push_ok {w : Word} {u : Unit} (h : push w m = .ok u m') :
    ∃ st, m.stack.push? w = some st ∧ m' = { m with stack := st } := by
  unfold push at h
  split at h
  · rename_i hpush
    cases h
    exact ⟨_, hpush, rfl⟩
  · cases h

/-- What a jump does. -/
theorem Effect.of_jump_ok {arg : Arg} (h : jump s arg m = .ok flow m') :
    ∃ dest st target, m.stack.pop? = some (dest, st) ∧ m' = { m with stack := st } ∧
      flow = .jump target ∧ Leads s arg dest target := by
  obtain ⟨dest, m₁, hpop, h⟩ := Act.eq_of_bind_ok h
  obtain ⟨target, m₂, hdest, hpure⟩ := Act.eq_of_bind_ok h
  obtain ⟨st, hst, rfl⟩ := of_pop_ok hpop
  obtain ⟨rfl, hleads⟩ := of_destination_ok hdest
  cases hpure
  exact ⟨dest, st, target, hst, rfl, rfl, hleads⟩

/-- What a conditional jump does. -/
theorem Effect.of_jumpi_ok {arg : Arg} (h : jumpi s arg m = .ok flow m') :
    ∃ dest st condition st', m.stack.pop? = some (dest, st) ∧ st.pop? = some (condition, st') ∧
      m' = { m with stack := st' } ∧
      ((condition = 0#256 ∧ flow = .next) ∨
        (condition ≠ 0#256 ∧ ∃ target, flow = .jump target ∧ Leads s arg dest target)) := by
  obtain ⟨dest, m₁, hpop, h⟩ := Act.eq_of_bind_ok h
  obtain ⟨condition, m₂, hpop', h⟩ := Act.eq_of_bind_ok h
  obtain ⟨st, hst, rfl⟩ := of_pop_ok hpop
  obtain ⟨st', hst', rfl⟩ := of_pop_ok hpop'
  refine ⟨dest, st, condition, st', hst, hst', ?_⟩
  by_cases hzero : condition = 0#256
  · rw [if_pos hzero] at h
    cases h
    exact ⟨rfl, .inl ⟨hzero, rfl⟩⟩
  · rw [if_neg hzero] at h
    obtain ⟨target, m₃, hdest, hpure⟩ := Act.eq_of_bind_ok h
    obtain ⟨rfl, hleads⟩ := of_destination_ok hdest
    cases hpure
    exact ⟨rfl, .inr ⟨hzero, target, rfl, hleads⟩⟩

/-- The ban on state changes lets through or faults; it changes nothing. -/
theorem checkStatic_eq (guarded : Bool) (op : Op) (m : Machine σ) :
    checkStatic guarded op m =
      if guarded && violatesStatic op.effect m.stack then
        .error (.fault .staticCallViolation) m
      else .ok () m := by
  show (if guarded && violatesStatic op.effect m.stack then fault .staticCallViolation
    else pure () : Exec σ Unit) m = _
  split
  · rfl
  · rfl

/-- The pieces of one instruction. -/
theorem of_step_ok (h : step s guarded ins m = .ok flow m') :
    ∃ op, ins.op = some op ∧ (guarded && violatesStatic op.effect m.stack) = false ∧
      op.exec s ins m = .ok flow m' := by
  unfold step at h
  cases hop : ins.op with
  | none =>
      rw [hop] at h
      cases h
  | some op =>
      rw [hop] at h
      obtain ⟨⟨⟩, m₁, hcheck, hexec⟩ := Act.eq_of_bind_ok h
      rw [checkStatic_eq] at hcheck
      split at hcheck
      · cases hcheck
      · rename_i hban
        cases hcheck
        exact ⟨op, rfl, by simpa using hban, hexec⟩

/-- An instruction that goes through the ban on state changes is its effect. -/
theorem step_eq {op : Op} (hop : ins.op = some op)
    (hban : (guarded && violatesStatic op.effect m.stack) = false) :
    step s guarded ins m = op.exec s ins m := by
  unfold step
  rw [hop]
  have hcheck : checkStatic guarded op m = .ok () m := by
    rw [checkStatic_eq, hban]
    rfl
  exact Act.bind_ok hcheck

/-- An instruction that goes on to the next one is a conditional jump, or does not end its block. -/
theorem Op.of_exec_next {op : Op} (h : op.exec s ins m = .ok .next m') :
    op = .jumpi ∨ op.endsBlock = false := by
  rcases Op.exec_flow h with ⟨hends, -⟩ | ⟨_, hflow⟩ | rfl | rfl
  · exact .inr hends
  · cases hflow
  · obtain ⟨-, -, _, -, -, hflow, -⟩ := Effect.of_jump_ok h
    cases hflow
  · exact .inl rfl

/-- **Only the jump instructions jump**, to where the word leads that they pop. -/
theorem of_step_jump {target : Nat} (h : step s guarded ins m = .ok (.jump target) m') :
    (ins.op = some .jump ∨ ins.op = some .jumpi) ∧
      ∃ dest st, m.stack.pop? = some (dest, st) ∧ Leads s ins.arg dest target := by
  obtain ⟨op, hop, -, hexec⟩ := of_step_ok h
  rw [hop]
  rcases Op.exec_flow hexec with ⟨-, hflow⟩ | ⟨_, hflow⟩ | rfl | rfl
  · cases hflow
  · cases hflow
  · obtain ⟨dest, st, t, hpop, -, hflow, hleads⟩ := Effect.of_jump_ok hexec
    cases hflow
    exact ⟨.inl rfl, dest, st, hpop, hleads⟩
  · obtain ⟨dest, st, -, -, hpop, -, -, ⟨-, hflow⟩ | ⟨-, t, hflow, hleads⟩⟩ :=
      Effect.of_jumpi_ok hexec
    · cases hflow
    · cases hflow
      exact ⟨.inr rfl, dest, st, hpop, hleads⟩

/-- **The entry of a block** pays for the block and checks the stack. -/
theorem step_enter {cost : BlockCost} (hop : ins.op = some .jumpDest) (harg : ins.arg = .block cost) :
    step s guarded ins m =
      match m.gas.charge? cost.gas with
      | none => .error (.fault .outOfGas) m
      | some g =>
        if m.stack.height < cost.required then .error (.fault .stackUnderflow) { m with gas := g }
        else if stackLimit < m.stack.height + cost.growth then
          .error (.fault .stackOverflow) { m with gas := g }
        else .ok .next { m with gas := g } := by
  have hban : (guarded && violatesStatic Op.jumpDest.effect m.stack) = false := by
    cases guarded <;> rfl
  rw [step_eq hop hban]
  show andNext (Effect.enterBlock ins.arg) m = _
  rw [harg]
  cases hcharge : m.gas.charge? cost.gas with
  | none =>
      have hpay : charge cost.gas m = .error (.fault .outOfGas) m := by
        unfold charge
        rw [hcharge]
      exact Act.bind_error (Act.bind_error hpay)
  | some g =>
      have hrest : Effect.enterBlock (.block cost) m =
          (if m.stack.height < cost.required then fault .stackUnderflow
            else if stackLimit < m.stack.height + cost.growth then fault .stackOverflow
            else pure () : Exec σ Unit) { m with gas := g } :=
        Act.bind_ok (charge_ok hcharge)
      show (Effect.enterBlock (.block cost) >>= fun _ => pure Flow.next) m = _
      dsimp only
      repeat' split
      · exact Act.bind_error (by rw [hrest, if_pos ‹_›]; rfl)
      · exact Act.bind_error (by rw [hrest, if_neg ‹_›, if_pos ‹_›]; rfl)
      · have henter : Effect.enterBlock (.block cost) m = .ok () { m with gas := g } := by
          rw [hrest, if_neg ‹_›, if_neg ‹_›]
          rfl
        rw [Act.bind_ok henter]
        rfl

end Flow

end MeteredEvm
