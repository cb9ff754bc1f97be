import MeteredEvm.Proofs.Effects

/-!
# `MeteredEvm.Proofs.Observers` — the instructions that look at the meter

A few instructions read the meter, hand gas back, and run child frames on part of it. This module
follows the gas through them. `Holds` bounds what a machine can have left; on a host that gives back
no more than it was given (`Setting.Honest`) no effect ever leaves more than there was, no sum is out
of range, and handing back never goes over the limit of the frame. The last part is said by an
equation: the effects do the same with an addition that checks every sum against its bound
(`Addition.checked`) as with 64-bit addition.

Where the memory is sound and children leave it so (`Setting.Fair`), the same walk shows that nothing
traps.

## Contents
* `Setting.Honest`, `Setting.Fair` — hosts.
* `Holds`, `Typed.holds` — bounds that typed computations keep.
* `Addition.Faithful`, `Addition.checked` — additions that agree within bounds.
* `Exec.Agrees` — two computations that do the same, and what they yield.
* `Effect.gas_agrees`, `Effect.sstore_agrees`, `Effect.call_agrees`, `Effect.create_agrees`.
-/

namespace MeteredEvm

variable {σ α β : Type}

/-! ## Hosts -/

/-- **A child gives back no more than it was given**, if the frame `Issues` the request for it. -/
def Setting.Honest (s : Setting σ) : Prop :=
  ∀ ⦃req memory state result memory' state'⦄, s.Issues req → req.gas < u64Size →
    s.host.call req memory state = .ok (result, memory', state') → result.gasLeft ≤ req.gas

/-- **A child ends, gives back no more than it was given, and leaves its caller a memory to go on with**:
    it is `Memory.Sound`, and its `size` is no smaller than it was. -/
def Setting.Fair (s : Setting σ) : Prop :=
  ∀ ⦃req memory⦄ (state : σ), s.Issues req → req.gas < u64Size → memory.Sound →
    ∃ result memory' state', s.host.call req memory state = .ok (result, memory', state') ∧
      result.gasLeft ≤ req.gas ∧ memory'.Sound ∧ memory.size ≤ memory'.size

/-! ## Bounds -/

/-- **What is known about a machine**: the limit of its meter, a bound on what is left, the height of
    its stack, and, if memory is known to be sound, how much of it is there. -/
structure Holds (sound : Prop) (limit g b h : Nat) (m : Machine σ) : Prop where
  limit : m.gas.limit = limit
  remaining : m.gas.remaining ≤ g
  height : m.stack.height = h
  memory : sound → m.memory.Sound ∧ b ≤ m.memory.size

/-- Failures that are faults and no traps, if memory is known to be `Memory.Sound`. -/
def Blameless (sound : Prop) (e : Failure) : Prop := sound → ∃ f, e = .fault f

section Bounds

variable {s : Setting σ} {sound : Prop} {limit g g' b b' h h' : Nat} {m m' : Machine σ}

/-- What a machine has left bounds what it has left. -/
theorem Holds.self (hlimit : m.gas.limit = limit) :
    Holds False limit m.gas.remaining 0 m.stack.height m :=
  ⟨hlimit, Nat.le_refl _, rfl, nofun⟩

theorem Holds.mono (hm : Holds sound limit g b h m) (hg : g ≤ g') (hb : b' ≤ b) :
    Holds sound limit g' b' h m where
  limit := hm.limit
  remaining := Nat.le_trans hm.remaining hg
  height := hm.height
  memory hs := ⟨(hm.memory hs).1, Nat.le_trans hb (hm.memory hs).2⟩

theorem blameless_fault (f : Fault) : Blameless sound (.fault f) := fun _ => ⟨f, rfl⟩

/-- What paying does to a meter. -/
theorem Meter.of_charge? {m m' : Meter} {cost : Nat} (h : m.charge? cost = some m') :
    cost ≤ m.remaining ∧ m' = { m with remaining := m.remaining - cost } := by
  unfold Meter.charge? at h
  split at h
  · rename_i hle
    exact ⟨hle, (Option.some.inj h).symm⟩
  · cases h

theorem Meter.limit_of_grow_ok {memory memory' : Memory} {size : Nat} {gas gas' : Meter} {u : Unit}
    (h : Memory.grow size (memory, gas) = .ok u (memory', gas')) : gas'.limit = gas.limit := by
  obtain ⟨cost, -, hcharge, -⟩ := Memory.of_grow_ok h
  obtain ⟨-, rfl⟩ := Meter.of_charge? hcharge
  rfl

/-- No single change moves the limit of the meter. -/
theorem Nudge.limit_eq (h : Nudge s m m') : m'.gas.limit = m.gas.limit := by
  cases h with
  | charge hcharge =>
      obtain ⟨-, rfl⟩ := Meter.of_charge? hcharge
      rfl
  | grow hgrow => exact Meter.limit_of_grow_ok hgrow
  | _ => rfl

theorem Nudges.limit_eq (h : Nudges s m m') : m'.gas.limit = m.gas.limit := by
  induction h with
  | refl => rfl
  | tail _ hstep ih => exact hstep.limit_eq.trans ih

/-- **Typed computations that hand nothing back keep the bounds**, and in sound memory they do not
    trap. -/
theorem Typed.holds {v : Sight} {x : Exec σ α} (ht : Typed s v b h h' x) (hv : v ≠ .gives)
    (hm : Holds sound limit g b h m) :
    Exec.Yields (x m) (fun _ m' => Holds sound limit g b h' m') (Blameless sound) := by
  have hheight := ht.height m hm.height
  cases hx : x m with
  | ok a m' =>
      have hlimit := (ht.nudges m).limit_eq
      rw [Exec.after_of_ok hx] at hlimit
      exact
        { limit := hlimit.trans hm.limit
          remaining := Nat.le_trans (ht.remaining_le hv hx) hm.remaining
          height := hheight.of_ok hx
          memory := fun hs => by
            obtain ⟨hsound, hb⟩ := hm.memory hs
            have hmem := (ht.sound hv m hsound hb).of_ok hx
            exact ⟨hmem.1, Nat.le_trans hb hmem.2⟩ }
  | error e m' =>
      intro hs
      obtain ⟨hsound, hb⟩ := hm.memory hs
      obtain hfault | rfl := (ht.sound hv m hsound hb).of_error hx
      · exact hfault
      · exact absurd ((hheight.of_error hx) rfl).1 hv

theorem Exec.charge_holds (cost : Nat) (hm : Holds sound limit g b h m) :
    Exec.Yields (charge cost m) (fun _ m' => cost ≤ g ∧ Holds sound limit (g - cost) b h m')
      (Blameless sound) := by
  unfold charge
  cases hcharge : m.gas.charge? cost with
  | none => exact blameless_fault _
  | some gas =>
      obtain ⟨hle, rfl⟩ := Meter.of_charge? hcharge
      have hrem := hm.remaining
      refine ⟨by omega, hm.limit, ?_, hm.height, hm.memory⟩
      show m.gas.remaining - cost ≤ g - cost
      omega

/-- Room for a range: afterwards the range can be used. -/
theorem Exec.cover_holds (offset len : Word) (hm : Holds sound limit g b h m) :
    Exec.Yields (cover offset len m)
      (fun range m' => ∃ b', b ≤ b' ∧ Within range b' ∧ Holds sound limit g b' h m')
      (Blameless sound) := by
  have hpriced := (Billed.of_priced (priced_cover (σ := σ) offset len)).uniform
  cases hcover : Memory.cover offset len (m.memory, m.gas) with
  | error e t =>
      rw [cover_error hcover]
      exact fun hs => (hm.memory hs).1.cover_error hcover
  | ok range t =>
      have hok := cover_ok hcover
      rw [hok]
      have hlimit : t.2.limit = limit := by
        rw [← hm.limit]
        obtain ⟨-, -, hgas⟩ | ⟨-, hgrow⟩ := Memory.of_cover_ok hcover
        · rw [hgas]
        · exact Meter.limit_of_grow_ok hgrow
      -- with sound memory the view has grown to hold the range; without, any bound will do
      by_cases hs : sound
      · have hsound := (hm.memory hs).1.cover_ok hcover
        obtain ⟨hsize, hrange⟩ := Memory.size_of_cover_ok hcover
        exact ⟨_, Nat.le_trans (hm.memory hs).2 hsize, hrange, hlimit,
          Nat.le_trans (hpriced.remaining_le hok) hm.remaining, hm.height, fun _ => ⟨hsound, Nat.le_refl _⟩⟩
      · have hrange := Memory.isRange_of_cover_ok hcover
        exact ⟨_, Nat.le_add_right b _, hrange.within b, hlimit,
          Nat.le_trans (hpriced.remaining_le hok) hm.remaining, hm.height, fun h => absurd h hs⟩

end Bounds

/-! ## Additions -/

/-- **An addition that is exact within bounds**: handing back what keeps the meter under its limit
    adds it, and a 64-bit sum is that sum. -/
structure Exec.Addition.Faithful (add : Exec.Addition σ) : Prop where
  giveBack : ∀ {n : Nat} {m : Machine σ}, m.gas.remaining + n ≤ m.gas.limit → m.gas.limit < u64Size →
    add.giveBack n m = .ok () (m.withMore n)
  amount : ∀ {n : Nat}, n < u64Size → add.amount n = pure n

/-- **Addition that checks every sum.** Handing back more than the limit of the meter allows, and a
    sum that is no 64-bit amount, fail with `e`. -/
def Exec.Addition.checked (e : Failure) : Exec.Addition σ where
  giveBack n := fun m =>
    if m.gas.remaining + n ≤ m.gas.limit then .ok () (m.withMore n) else .error e m
  amount n := if n < u64Size then pure n else throw e

theorem Exec.Addition.u64_faithful : (u64 : Exec.Addition σ).Faithful where
  giveBack {n m} hle hlimit := by
    show EStateM.Result.ok () { m with gas := m.gas.giveBack n } = _
    unfold Meter.giveBack Machine.withMore
    rw [Nat.min_eq_left (by omega)]
  amount hn := by
    show (if _ < u64Size then _ else _) = _
    rw [if_pos hn]

theorem Exec.Addition.checked_faithful (e : Failure) :
    (checked e : Exec.Addition σ).Faithful where
  giveBack hle _ := if_pos hle
  amount hn := if_pos hn

/-- Two computations do the same on a machine, and what they yield there. -/
def Exec.Agrees (m : Machine σ) (x y : Exec σ α) (P : α → Machine σ → Prop) (E : Failure → Prop) :
    Prop :=
  y m = x m ∧ Exec.Yields (x m) P E

namespace Exec.Agrees

variable {m : Machine σ} {x y : Exec σ α} {P : α → Machine σ → Prop} {E : Failure → Prop}

theorem of_yields (h : Yields (x m) P E) : Agrees m x x P E := ⟨rfl, h⟩

/-- Agreement goes along a bind: the second parts have to agree on what the first can leave. -/
theorem bind {f f' : α → Exec σ β} {Q : β → Machine σ → Prop} (hx : Agrees m x y P E)
    (hf : ∀ a m', P a m' → Agrees m' (f a) (f' a) Q E) : Agrees m (x >>= f) (y >>= f') Q E := by
  refine ⟨?_, hx.2.bind fun a m' hP => (hf a m' hP).2⟩
  cases h : x m with
  | ok a m' =>
      rw [Act.bind_ok h, Act.bind_ok (hx.1.trans h)]
      exact (hf a m' (hx.2.of_ok h)).1
  | error e m' => rw [Act.bind_error h, Act.bind_error (hx.1.trans h)]

theorem mono {Q : α → Machine σ → Prop} (h : Agrees m x y P E) (hPQ : ∀ a m, P a m → Q a m) :
    Agrees m x y Q E :=
  ⟨h.1, h.2.mono hPQ⟩

end Exec.Agrees

/-! ## The observers -/

section Walk

open Exec

variable {s : Setting σ} {sound : Prop} {limit g b h : Nat} {m : Machine σ} {add : Addition σ}

/-- Handing back what keeps the meter under its limit. -/
theorem Exec.giveBack_agrees (hadd : add.Faithful) (hlimit : limit < u64Size) {n : Nat}
    (hn : g + n ≤ limit) (hm : Holds sound limit g b h m) :
    Agrees m (giveBack n) (add.giveBack n) (fun _ m' => Holds sound limit (g + n) b h m')
      (Blameless sound) := by
  have hrem := hm.remaining
  have hlim := hm.limit
  have hle : m.gas.remaining + n ≤ m.gas.limit := by omega
  have hu64 : giveBack n m = .ok () (m.withMore n) :=
    Addition.u64_faithful.giveBack hle (by omega)
  refine ⟨by rw [hu64, hadd.giveBack hle (by omega)], ?_⟩
  rw [hu64]
  exact ⟨hm.limit, Nat.add_le_add_right hm.remaining n, hm.height, hm.memory⟩

theorem Exec.amount_agrees (hadd : add.Faithful) {n : Nat} (hn : n < u64Size)
    (hm : Holds sound limit g b h m) :
    Agrees m (amount n) (add.amount n) (fun a m' => a = n ∧ Holds sound limit g b h m')
      (Blameless sound) := by
  have hu64 : (amount n : Exec σ Nat) = pure n := Addition.u64_faithful.amount hn
  rw [hadd.amount hn, hu64]
  exact .of_yields ⟨rfl, hm⟩

/-- What does not look at the meter adds no gas either way. -/
theorem Typed.agrees {h' : Nat} {x : Exec σ α} (ht : Typed s .blind b h h' x)
    (hm : Holds sound limit g b h m) :
    Agrees m x x (fun _ m' => Holds sound limit g b h' m') (Blameless sound) :=
  .of_yields (ht.holds (by decide) hm)

namespace Effect

theorem remaining_holds (hm : Holds sound limit g b h m) :
    Yields (remaining m) (fun left m' => left ≤ g ∧ Holds sound limit g b h m') (Blameless sound) :=
  ⟨hm.remaining, hm⟩

/-- **An effect that sees the whole meter.** What the rest of the block has paid is there while the
    effect runs, and is gone afterwards. -/
theorem observing_agrees (hadd : add.Faithful) (hlimit : limit < u64Size) {correction h' : Nat}
    {effect effect' : Exec σ Unit} (hle : g + correction ≤ limit)
    (heffect : ∀ {m : Machine σ}, Holds sound limit (g + correction) b h m →
      Agrees m effect effect' (fun _ m' => Holds sound limit (g + correction) b h' m')
        (Blameless sound))
    (hm : Holds sound limit g b h m) :
    Agrees m (observing correction effect) (observing correction effect' add)
      (fun _ m' => Holds sound limit g b h' m') (Blameless sound) := by
  refine .bind (giveBack_agrees hadd hlimit hle hm) fun _ m₁ hm₁ => ?_
  refine .bind (heffect hm₁) fun _ m₂ hm₂ => ?_
  refine .of_yields ((charge_holds correction hm₂).mono fun _ m₃ hm₃ => ?_)
  exact hm₃.2.mono (by omega) (Nat.le_refl b)

theorem gas_agrees (s : Setting σ) (hadd : add.Faithful) (hlimit : limit < u64Size) {correction : Nat}
    (hle : g + correction ≤ limit) (hh : h < stackLimit) (hm : Holds sound limit g b h m) :
    Agrees m (gas correction) (gas correction add) (fun _ m' => Holds sound limit g b (h + 1) m')
      (Blameless sound) := by
  refine .bind (.of_yields (remaining_holds hm)) fun left m₁ hm₁ => ?_
  refine .bind (amount_agrees hadd (by omega) hm₁.2) fun _ m₂ hm₂ => ?_
  exact Typed.agrees (s := s) (.push _ hh) hm₂.2

theorem sstore_agrees (hm : Holds sound limit g b (h + 2) m) :
    Agrees m (sstore s) (sstore s) (fun _ m' => Holds sound limit g b h m') (Blameless sound) :=
  have htyped : Typed s .looks b (h + 2) h (sstore s) := sstore_typed (by decide)
  .of_yields (htyped.holds (by decide) hm)

/-! ## Calls -/

/-- Sending value costs more than comes for free with it. -/
theorem payForValue_holds (value : Word) (hm : Holds sound limit g b h m) :
    Yields (payForValue value m)
      (fun _ m' => ∃ g', g' + stipend value ≤ g ∧ Holds sound limit g' b h m')
      (Blameless sound) := by
  unfold payForValue stipend
  by_cases hzero : value = 0#256
  · rw [if_neg (not_not_intro hzero), if_pos hzero]
    exact ⟨g, Nat.le_refl g, hm⟩
  · rw [if_pos hzero, if_neg hzero]
    refine (charge_holds _ hm).mono fun _ m' hm' => ⟨g - Gas.callValue, ?_, hm'.2⟩
    -- more is paid for sending value than the child gets for free
    have hpaid : 9000 ≤ g := hm'.1
    show g - 9000 + 2300 ≤ g
    omega

theorem payForCall_holds (op : CallOp) (o : CallOperands) (hm : Holds sound limit g b h m) :
    Yields (payForCall s op o m)
      (fun _ m' => ∃ g', g' + stipend o.value ≤ g ∧ Holds sound limit g' b h m')
      (Blameless sound) := by
  refine .bind ((touch_typed (v := .blind) _ _).holds (by decide) hm) fun _ m₁ hm₁ => ?_
  refine .bind (payForValue_holds o.value hm₁) fun _ m₂ ⟨g', hg', hm₂⟩ => ?_
  refine ((payForNewAccount_typed (v := .blind) op o).holds (by decide) hm₂).mono fun _ m₃ hm₃ => ?_
  exact ⟨g', hg', hm₃⟩

theorem forwarded_holds (requested : Word) (hm : Holds sound limit g b h m) :
    Yields (forwarded s requested m) (fun gas m' => gas ≤ g ∧ Holds sound limit g b h m')
      (Blameless sound) := by
  refine .bind (remaining_holds hm) fun left m₁ hm₁ => ?_
  have hle := forwarded_le s.schedule left requested
  cases hf : s.schedule.forwarded left requested with
  | ok gas =>
      rw [hf] at hle
      exact ⟨Nat.le_trans hle hm₁.1, hm₁.2⟩
  | error f => exact blameless_fault f

/-- A child gives back no more than it was given, and leaves the rest of the machine alone. -/
theorem child_holds (hhost : s.Honest) (hfair : sound → s.Fair) {req : CallRequest}
    (hreq : s.Issues req) (hgas : req.gas < u64Size) (hm : Holds sound limit g b h m) :
    Yields (Exec.call s req m)
      (fun result m' => result.gasLeft ≤ req.gas ∧ Holds sound limit g b h m')
      (Blameless sound) := by
  unfold Exec.call
  cases hcall : s.host.call req m.memory m.host with
  | ok r =>
      refine ⟨hhost hreq hgas hcall, hm.limit, hm.remaining, hm.height, fun hs => ?_⟩
      obtain ⟨hsound, hb⟩ := hm.memory hs
      -- the host has answered, so this is the answer that fairness speaks of
      obtain ⟨result, memory, state, hcall', -, hafter, hsize⟩ := hfair hs m.host hreq hgas hsound
      rw [hcall] at hcall'
      cases hcall'
      exact ⟨hafter, Nat.le_trans hb hsize⟩
  | error t =>
      intro hs
      obtain ⟨result, memory, state, hcall', -⟩ :=
        hfair hs m.host hreq hgas (hm.memory hs).1
      rw [hcall] at hcall'
      cases hcall'

/-- The child of a call: what is taken out for it, with what comes for free, covers what it gives
    back. -/
theorem runCall_agrees (hadd : add.Faithful) (hhost : s.Honest) (hfair : sound → s.Fair)
    (hlimit : limit < u64Size) {g' childGas : Nat} {op : CallOp} {o : CallOperands}
    {input output : Option (Nat × Nat)} (hdepth : s.context.depth < s.maxCallDepth)
    (hi : Within input b) (ho : Within output b) (hh : h < stackLimit)
    (hpaid : g' + stipend o.value ≤ g) (hg : g ≤ limit) (hm : Holds sound limit g' b h m) :
    Agrees m (runCall s op o input output childGas) (runCall s op o input output childGas add)
      (fun _ m' => Holds sound limit g b (h + 1) m') (Blameless sound) := by
  refine .bind (.of_yields (charge_holds childGas hm)) fun _ m₁ ⟨hle, hm₁⟩ => ?_
  refine .bind (Typed.agrees (s := s) (readRange_typed hi) hm₁) fun data m₂ hm₂ => ?_
  refine .bind (amount_agrees hadd (by omega) hm₂) fun gas m₃ ⟨hgas, hm₃⟩ => ?_
  refine .bind (.of_yields (child_holds hhost hfair (.call op o data gas hdepth) ?_ hm₃))
    fun result m₄ ⟨hleft, hm₄⟩ => ?_
  · show gas < u64Size
    omega
  -- what comes back was taken out before, or paid for with the value
  have hleft : result.gasLeft ≤ gas := hleft
  refine .bind (giveBack_agrees hadd hlimit (by omega) hm₄) fun _ m₅ hm₅ => ?_
  refine .bind (Typed.agrees (s := s) (storeOutput_typed _ ho) hm₅) fun _ m₆ hm₆ => ?_
  refine .bind (Typed.agrees (s := s) (.setReturnData _) hm₆) fun _ m₇ hm₇ => ?_
  refine (Typed.agrees (s := s) (.push _ hh) hm₇).mono fun _ m₈ hm₈ => ?_
  exact hm₈.mono (by omega) (Nat.le_refl b)

theorem skipCall_agrees (s : Setting σ) (hadd : add.Faithful) (hlimit : limit < u64Size) {g' : Nat}
    {value : Word} (hh : h < stackLimit) (hpaid : g' + stipend value ≤ g) (hg : g ≤ limit)
    (hm : Holds sound limit g' b h m) :
    Agrees m (skipCall value) (skipCall value add) (fun _ m' => Holds sound limit g b (h + 1) m')
      (Blameless sound) := by
  refine .bind (giveBack_agrees hadd hlimit (by omega) hm) fun _ m₁ hm₁ => ?_
  refine (Typed.agrees (s := s) (.push _ hh) hm₁).mono fun _ m₂ hm₂ => ?_
  exact hm₂.mono hpaid (Nat.le_refl b)

/-- **A call leaves no more than there was**, whatever the child does with its share. -/
theorem call_agrees (hadd : add.Faithful) (hhost : s.Honest) (hfair : sound → s.Fair)
    (hlimit : limit < u64Size) (op : CallOp) (hh : h < stackLimit) (hg : g ≤ limit)
    (hm : Holds sound limit g b (h + (Op.call op).inputs) m) :
    Agrees m (call s op) (call s op add) (fun _ m' => Holds sound limit g b (h + 1) m')
      (Blameless sound) := by
  have hm : Holds sound limit g b (h + callInputs op) m := by cases op <;> exact hm
  refine .bind (Typed.agrees (s := s) (popCallOperands_typed op) hm) fun o m₁ hm₁ => ?_
  refine .bind (.of_yields (cover_holds _ _ hm₁)) fun input m₂ ⟨b₁, hb₁, hi, hm₂⟩ => ?_
  refine .bind (.of_yields (cover_holds _ _ hm₂)) fun output m₃ ⟨b₂, hb₂, ho, hm₃⟩ => ?_
  refine .bind (.of_yields (payForCall_holds op o hm₃)) fun _ m₄ ⟨g', hpaid, hm₄⟩ => ?_
  refine .bind (.of_yields (forwarded_holds _ hm₄)) fun childGas m₅ ⟨_, hm₅⟩ => ?_
  refine .bind (Typed.agrees (s := s) (.setReturnData _) hm₅) fun _ m₆ hm₆ => ?_
  have hb : b ≤ b₂ := Nat.le_trans hb₁ hb₂
  split
  · exact (skipCall_agrees s hadd hlimit hh hpaid hg hm₆).mono fun _ _ hm₇ =>
      hm₇.mono (Nat.le_refl g) hb
  · exact (runCall_agrees hadd hhost hfair hlimit (by omega) (hi.mono hb₂) ho hh hpaid hg hm₆).mono
      fun _ _ hm₇ => hm₇.mono (Nat.le_refl g) hb

/-! ## Creations -/

theorem createGas_le (rules : Rules) (left : Nat) : createGas rules left ≤ left := by
  unfold createGas
  split
  · exact Nat.sub_le ..
  · exact Nat.le_refl left

theorem runCreate_agrees (hadd : add.Faithful) (hhost : s.Honest) (hfair : sound → s.Fair)
    (hlimit : limit < u64Size) {kind : CallKind} {value : Word} {range : Option (Nat × Nat)}
    (hkind : kind.isCreate = true) (hdepth : s.context.depth < s.maxCallDepth) (hr : Within range b)
    (hh : h < stackLimit) (hg : g ≤ limit) (hm : Holds sound limit g b h m) :
    Agrees m (runCreate s kind value range) (runCreate s kind value range add)
      (fun _ m' => Holds sound limit g b (h + 1) m') (Blameless sound) := by
  refine .bind (.of_yields (remaining_holds hm)) fun left m₁ ⟨hleft, hm₁⟩ => ?_
  have hchild := createGas_le s.schedule.rules left
  refine .bind (.of_yields (charge_holds _ hm₁)) fun _ m₂ ⟨hle, hm₂⟩ => ?_
  refine .bind (Typed.agrees (s := s) (readRange_typed hr) hm₂) fun initCode m₃ hm₃ => ?_
  refine .bind (.of_yields (child_holds hhost hfair (.create kind value initCode _ hkind hdepth)
    (Nat.lt_of_le_of_lt hchild (by omega)) hm₃)) fun result m₄ ⟨hback, hm₄⟩ => ?_
  have hback : result.gasLeft ≤ createGas s.schedule.rules left := hback
  refine .bind (giveBack_agrees hadd hlimit (by omega) hm₄) fun _ m₅ hm₅ => ?_
  refine .bind (Typed.agrees (s := s) (keepFailure_typed result) hm₅) fun _ m₆ hm₆ => ?_
  refine (Typed.agrees (s := s) (.push _ hh) hm₆).mono fun _ m₇ hm₇ => ?_
  exact hm₇.mono (by omega) (Nat.le_refl b)

/-- The kind of a creation is one. -/
theorem popCreateKind_holds (s : Setting σ) (salted : Bool)
    (hm : Holds sound limit g b (h + if salted then 1 else 0) m) :
    Yields (popCreateKind salted m)
      (fun kind m' => kind.isCreate = true ∧ Holds sound limit g b h m') (Blameless sound) := by
  cases salted with
  | false => exact ⟨rfl, hm⟩
  | true =>
      have hpop : Typed s .blind b (h + 1) h pop := .pop
      exact .bind (hpop.holds (by decide) hm) fun salt m₁ hm₁ => ⟨rfl, hm₁⟩

/-- **A creation leaves no more than there was.** -/
theorem create_agrees (hadd : add.Faithful) (hhost : s.Honest) (hfair : sound → s.Fair)
    (hlimit : limit < u64Size) (salted : Bool) (hh : h < stackLimit) (hg : g ≤ limit)
    (hm : Holds sound limit g b (h + (Op.create salted).inputs) m) :
    Agrees m (create s salted) (create s salted add) (fun _ m' => Holds sound limit g b (h + 1) m')
      (Blameless sound) := by
  have hm : Holds sound limit g b (h + (if salted then 1 else 0) + 3) m := by
    cases salted <;> exact hm
  have pop {k : Nat} {m : Machine σ} (hm : Holds sound limit g b (k + 1) m) :
      Agrees m pop pop (fun _ m' => Holds sound limit g b k m') (Blameless sound) :=
    Typed.agrees (s := s) .pop hm
  refine .bind (pop hm) fun value m₁ hm₁ => .bind (pop hm₁) fun offset m₂ hm₂ =>
    .bind (pop hm₂) fun len m₃ hm₃ => ?_
  refine .bind (.of_yields (popCreateKind_holds s salted hm₃)) fun kind m₄ ⟨hkind, hm₄⟩ => ?_
  refine .bind (Typed.agrees (s := s) (checkInitCode_typed len) hm₄) fun _ m₅ hm₅ => ?_
  refine .bind (.of_yields (cover_holds _ _ hm₅)) fun range m₆ ⟨b', hb, hr, hm₆⟩ => ?_
  refine .bind (.of_yields (charge_holds _ hm₆)) fun _ m₇ ⟨_, hm₇⟩ => ?_
  refine .bind (.of_yields (charge_holds _ hm₇)) fun _ m₈ ⟨_, hm₈⟩ => ?_
  refine .bind (Typed.agrees (s := s) (.setReturnData _) hm₈) fun _ m₉ hm₉ => ?_
  have hm₉ : Holds sound limit g b' h m₉ := hm₉.mono (by omega) (Nat.le_refl b')
  split
  · exact (Typed.agrees (s := s) (.push _ hh) hm₉).mono fun _ _ hm' =>
      hm'.mono (Nat.le_refl g) hb
  · exact (runCreate_agrees hadd hhost hfair hlimit hkind (by omega) hr hh hg hm₉).mono fun _ _ hm' =>
      hm'.mono (Nat.le_refl g) hb

end Effect

end Walk

end MeteredEvm
