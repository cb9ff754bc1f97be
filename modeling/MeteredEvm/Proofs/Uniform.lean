import MeteredEvm.Proofs.Execution
import MeteredEvm.Proofs.Memory

/-!
# `MeteredEvm.Proofs.Uniform` — computations that do not see the meter

A computation that pays but never looks at what is left behaves the same on all meters that can pay:
there is a bill for it, and every meter either pays that bill or runs out. This is what lets a meter
that was charged for a whole block stand for one that is charged as the instructions come.

## Contents
* `Exec.GasFree`, `Exec.Priced` — the two kinds of primitives.
* `Bill`, `Bill.Buys`, `Exec.Billed` — what goes the same way on every meter that can pay, and ends
  for want of gas on any other.
* `Machine.withMore`, `Exec.Uniform` — the same with more gas, and the same with less as long as it
  is enough.
-/

namespace MeteredEvm

variable {σ α β : Type}

/-! ## Kinds of primitives -/

namespace Exec

/-- The same result on a machine with another meter. -/
def withGas (g : Meter) : EStateM.Result Failure (Machine σ) α → EStateM.Result Failure (Machine σ) α
  | .ok a m => .ok a { m with gas := g }
  | .error e m => .error e { m with gas := g }

/-- A computation to which the meter is as good as absent: it does not look at it, and leaves it as
    it is. -/
def GasFree (x : Exec σ α) : Prop :=
  ∀ (m : Machine σ) (g : Meter), x { m with gas := g } = withGas g (x m)

/-- A computation that pays a price, which depends on the memory only, to replace the memory. -/
def Priced (x : Exec σ α) : Prop :=
  ∃ price : Memory → Except Failure (Nat × α × Memory), ∀ m : Machine σ,
    x m = match price m.memory with
      | .error e => .error e m
      | .ok (cost, a, memory) =>
        match m.gas.charge? cost with
        | none => .error (.fault .outOfGas) m
        | some g => .ok a { m with memory, gas := g }

theorem GasFree.gas_eq {x : Exec σ α} (hx : GasFree x) {m m' : Machine σ} {a : α}
    (h : x m = .ok a m') : m'.gas = m.gas := by
  have hself := hx m m.gas
  rw [show ({ m with gas := m.gas } : Machine σ) = m from rfl, h] at hself
  injection hself with _ hm
  rw [hm]

theorem gasFree_pop : GasFree (pop : Exec σ Word) := by
  intro m g
  unfold pop
  dsimp only
  cases m.stack.pop? with
  | some _ => rfl
  | none => rfl

theorem gasFree_push (w : Word) : GasFree (push w : Exec σ Unit) := by
  intro m g
  unfold push
  dsimp only
  cases m.stack.push? w with
  | some _ => rfl
  | none => rfl

theorem gasFree_peek (n : Nat) : GasFree (peek n : Exec σ Word) := by
  intro m g
  unfold peek
  dsimp only
  cases m.stack.peek? n with
  | some _ => rfl
  | none => rfl

theorem gasFree_setTop (w : Word) : GasFree (setTop w : Exec σ Unit) := by
  intro m g
  unfold setTop
  dsimp only
  cases m.stack.setTop? w with
  | some _ => rfl
  | none => rfl

theorem gasFree_dup (n : Nat) : GasFree (dup n : Exec σ Unit) := by
  intro m g
  unfold dup
  dsimp only
  cases m.stack.dup? n with
  | some _ => rfl
  | none => rfl

theorem gasFree_swap (n : Nat) : GasFree (swap n : Exec σ Unit) := by
  intro m g
  unfold swap
  dsimp only
  cases m.stack.swap? n with
  | some _ => rfl
  | none => rfl

theorem gasFree_read (offset len : Nat) : GasFree (read offset len : Exec σ ByteArray) := by
  intro m g
  unfold read
  dsimp only
  cases m.memory.read? offset len with
  | some _ => rfl
  | none => rfl

theorem gasFree_move (source target len : Nat) : GasFree (move source target len : Exec σ Unit) := by
  intro m g
  unfold move
  dsimp only
  cases m.memory.move? source target len with
  | some _ => rfl
  | none => rfl

theorem gasFree_write (offset : Nat) (bytes : ByteArray) :
    GasFree (write offset bytes : Exec σ Unit) := by
  intro m g
  unfold write
  dsimp only
  by_cases hle : offset + bytes.size ≤ m.memory.size
  · rw [if_pos hle, if_pos hle]
    rfl
  · rw [if_neg hle, if_neg hle]
    rfl

theorem gasFree_ask (s : Setting σ) (q : Query) : GasFree (ask s q) := fun _ _ => rfl

theorem gasFree_setReturnData (data : ByteArray) : GasFree (setReturnData data : Exec σ Unit) :=
  fun _ _ => rfl

theorem gasFree_pure (a : α) : GasFree (pure a : Exec σ α) := fun _ _ => rfl

theorem gasFree_fault (f : Fault) : GasFree (fault f : Exec σ α) := fun _ _ => rfl

theorem priced_charge (cost : Nat) : Priced (charge cost : Exec σ Unit) :=
  ⟨fun memory => .ok (cost, (), memory), fun m => by
    unfold charge
    dsimp only
    cases m.gas.charge? cost with
    | none => rfl
    | some g => rfl⟩

/-- What it costs to grow a memory to `stop` bytes, with what is returned and the memory after. -/
def priceTo (a : α) (memory : Memory) : Option Nat → Except Failure (Nat × α × Memory)
  | none => .error Memory.rangeFault
  | some stop => (memory.expansionCost stop).map fun cost => (cost, a, memory.extend stop)

theorem priced_growTo (offset len : Nat) : Priced (growTo offset len : Exec σ Unit) := by
  refine ⟨fun memory => priceTo () memory (add64? offset len), ?_⟩
  intro m
  unfold growTo onMemory priceTo
  rw [Memory.growTo_eq]
  cases add64? offset len with
  | none => rfl
  | some stop =>
      dsimp only
      rw [Memory.grow_eq]
      cases m.memory.expansionCost stop with
      | error e => rfl
      | ok cost =>
          dsimp only [Except.map]
          cases m.gas.charge? cost with
          | none => rfl
          | some g => rfl

theorem priced_cover (offset len : Word) :
    Priced (cover offset len : Exec σ (Option (Nat × Nat))) := by
  refine ⟨fun memory =>
    if len = 0#256 then .ok (0, none, memory)
    else priceTo (some (offset.toNat, len.toNat)) memory (Memory.stopOf offset len), ?_⟩
  intro m
  unfold cover onMemory priceTo
  rw [Memory.cover_eq]
  dsimp only
  by_cases hlen : len = 0#256
  · rw [if_pos hlen, if_pos hlen]
    simp [Meter.charge?]
  · rw [if_neg hlen, if_neg hlen]
    cases Memory.stopOf offset len with
    | none => rfl
    | some stop =>
        dsimp only
        rw [Memory.grow_eq]
        cases m.memory.expansionCost stop with
        | error e => rfl
        | ok cost =>
            dsimp only [Except.map]
            cases m.gas.charge? cost with
            | none => rfl
            | some g => rfl

end Exec

/-! ## Bills -/

/-- What is paid, and what is added to the refunds. -/
structure Bill where
  /-- Gas to pay. -/
  price : Nat
  /-- Refunds earned. -/
  earned : Int
  deriving DecidableEq

/-- The bill for what costs nothing. -/
def Bill.none : Bill := ⟨0, 0⟩

/-- Two bills in one. -/
def Bill.add (b b' : Bill) : Bill := ⟨b.price + b'.price, b.earned + b'.earned⟩

/-- The meter once a bill is paid. -/
def Meter.paid (g : Meter) (bill : Bill) : Meter :=
  { g with
    remaining := g.remaining - bill.price
    refunded := g.refunded + bill.earned }

@[simp] theorem Meter.paid_none (g : Meter) : g.paid .none = g := by
  unfold paid Bill.none
  simp

theorem Meter.paid_paid (g : Meter) (b b' : Bill) : (g.paid b).paid b' = g.paid (b.add b') := by
  unfold paid Bill.add
  simp only [Nat.sub_sub, Int.add_assoc]

theorem Meter.charge?_eq_paid {g : Meter} {cost : Nat} (h : cost ≤ g.remaining) :
    g.charge? cost = some (g.paid ⟨cost, 0⟩) := by
  unfold charge? paid
  rw [if_pos h, Int.add_zero]

theorem Meter.charge?_eq_none {g : Meter} {cost : Nat} (h : g.remaining < cost) :
    g.charge? cost = none := by
  unfold charge?
  rw [if_neg (Nat.not_le_of_lt h)]

/-- **A bill buys the way from `m` to `m'`**: every meter that can pay it goes this way and pays it,
    as `Same` says; any other falls short, as `Short` says. -/
structure Bill.Buys (bill : Bill) (m m' : Machine σ) (Same : Machine σ → Machine σ → Prop)
    (Short : Machine σ → Prop) : Prop where
  price_le : bill.price ≤ m.gas.remaining
  gas_eq : m'.gas = m.gas.paid bill
  same : ∀ g : Meter, bill.price ≤ g.remaining →
    Same { m with gas := g } { m' with gas := g.paid bill }
  short : ∀ g : Meter, g.remaining < bill.price → Short { m with gas := g }

/-- One way after the other. -/
theorem Bill.Buys.trans {b₁ b₂ : Bill} {m m₁ m₂ : Machine σ}
    {Same₁ Same₂ Same : Machine σ → Machine σ → Prop} {Short₁ Short₂ Short : Machine σ → Prop}
    (h₁ : b₁.Buys m m₁ Same₁ Short₁) (h₂ : b₂.Buys m₁ m₂ Same₂ Short₂)
    (hsame : ∀ {n n₁ n₂}, Same₁ n n₁ → Same₂ n₁ n₂ → Same n n₂) (hshort₁ : ∀ {n}, Short₁ n → Short n)
    (hshort₂ : ∀ {n n₁}, Same₁ n n₁ → Short₂ n₁ → Short n) : (b₁.add b₂).Buys m m₂ Same Short where
  price_le := by
    have hfirst := h₁.price_le
    have hsecond := h₂.price_le
    rw [h₁.gas_eq] at hsecond
    exact Nat.add_le_of_le_sub' hfirst hsecond
  gas_eq := by rw [h₂.gas_eq, h₁.gas_eq, Meter.paid_paid]
  same g hle := by
    have hle : b₁.price + b₂.price ≤ g.remaining := hle
    have hsecond := h₂.same (g.paid b₁) (Nat.le_sub_of_add_le' hle)
    rw [Meter.paid_paid] at hsecond
    exact hsame (h₁.same g (Nat.le_of_add_right_le hle)) hsecond
  short g hlt := by
    by_cases hle : b₁.price ≤ g.remaining
    · refine hshort₂ (h₁.same g hle) (h₂.short (g.paid b₁) ?_)
      exact Nat.sub_lt_left_of_lt_add hle hlt
    · exact hshort₁ (h₁.short g (Nat.lt_of_not_le hle))

namespace Exec

/-- A computation that runs out of gas. -/
def RunsOut (x : Exec σ α) (m : Machine σ) : Prop := ∃ m', x m = .error (.fault .outOfGas) m'

/-- **A computation that does the same on every meter that can pay**: where it succeeds, there is a
    bill for that, and with less gas it runs out. -/
def Billed (x : Exec σ α) : Prop :=
  ∀ ⦃m m' : Machine σ⦄ ⦃a : α⦄, x m = .ok a m' →
    ∃ bill : Bill, bill.Buys m m' (fun n n' => x n = .ok a n') x.RunsOut

theorem Billed.of_gasFree {x : Exec σ α} (hx : GasFree x) : Billed x := by
  intro m m' a h
  refine ⟨.none, Nat.zero_le _, ?_, fun g _ => ?_, fun g hlt => absurd hlt (Nat.not_lt_zero _)⟩
  · rw [hx.gas_eq h, Meter.paid_none]
  · rw [hx m, h, Meter.paid_none]
    rfl

theorem Billed.of_priced {x : Exec σ α} (hx : Priced x) : Billed x := by
  obtain ⟨price, hprice⟩ := hx
  intro m m' a h
  rw [hprice m] at h
  cases hcost : price m.memory with
  | error e =>
      rw [hcost] at h
      cases h
  | ok p =>
      obtain ⟨cost, b, memory⟩ := p
      rw [hcost] at h
      have hle : cost ≤ m.gas.remaining := by
        by_cases hle : cost ≤ m.gas.remaining
        · exact hle
        · simp only [Meter.charge?_eq_none (Nat.lt_of_not_le hle)] at h
          cases h
      simp only [Meter.charge?_eq_paid hle] at h
      cases h
      refine ⟨⟨cost, 0⟩, hle, rfl, fun g hg => ?_, fun g hg => ⟨{ m with gas := g }, ?_⟩⟩
      · rewrite [hprice, hcost]
        simp only [Meter.charge?_eq_paid hg]
      · rewrite [hprice, hcost]
        simp only [Meter.charge?_eq_none hg]

theorem Billed.refund (n : Int) : Billed (Exec.refund n : Exec σ Unit) := by
  intro m m' a h
  cases h
  exact ⟨⟨0, n⟩, Nat.zero_le _, rfl, fun g _ => rfl, fun g hlt => absurd hlt (Nat.not_lt_zero _)⟩

/-- Only what the first computation can return matters to the second. -/
theorem Billed.bind {x : Exec σ α} {f : α → Exec σ β} (hx : Billed x)
    (hf : ∀ {m m' : Machine σ} {a : α}, x m = .ok a m' → Billed (f a)) : Billed (x >>= f) := by
  intro m m' b h
  obtain ⟨a, m₁, hm₁, hb⟩ := Act.eq_of_bind_ok h
  obtain ⟨b₁, hfirst⟩ := hx hm₁
  obtain ⟨b₂, hsecond⟩ := hf hm₁ hb
  refine ⟨b₁.add b₂, hfirst.trans hsecond ?_ ?_ ?_⟩
  · intro n n₁ n₂ h₁ h₂
    rw [Act.bind_ok h₁, h₂]
  · rintro n ⟨n', h₁⟩
    exact ⟨n', Act.bind_error h₁⟩
  · rintro n n₁ h₁ ⟨n', h₂⟩
    exact ⟨n', by rw [Act.bind_ok h₁, h₂]⟩

/-- Looking at the machine, but not at its meter. -/
theorem Billed.look {f : Machine σ → Exec σ α} (hf : ∀ m, Billed (f m))
    (hgas : ∀ m g, f { m with gas := g } = f m) : Billed (get >>= f) := by
  intro m m' a h
  obtain ⟨bill, hbuys⟩ := hf m h
  have hlook (g : Meter) : (get >>= f) { m with gas := g } = f m { m with gas := g } := by
    show f { m with gas := g } { m with gas := g } = _
    rw [hgas]
  refine ⟨bill, hbuys.price_le, hbuys.gas_eq, fun g hle => ?_, fun g hlt => ?_⟩
  · rw [hlook]
    exact hbuys.same g hle
  · obtain ⟨n, hn⟩ := hbuys.short g hlt
    exact ⟨n, by rw [hlook, hn]⟩

end Exec

/-! ## More gas, less gas -/

/-- The machine with `k` more gas left. -/
def Machine.withMore (m : Machine σ) (k : Nat) : Machine σ :=
  { m with gas := { m.gas with remaining := m.gas.remaining + k } }

/-- **A computation that does the same on every meter that can pay**: with more gas as with less, and
    with less as with more unless it uses some of what is missing. -/
structure Exec.Uniform (x : Exec σ α) : Prop where
  /-- Gas does not come from nowhere. -/
  remaining_le : ∀ {m m' : Machine σ} {a : α}, x m = .ok a m' → m'.gas.remaining ≤ m.gas.remaining
  /-- More gas changes nothing. -/
  more : ∀ {m m' : Machine σ} {a : α} (k : Nat), x m = .ok a m' →
    x (m.withMore k) = .ok a (m'.withMore k)
  /-- Less gas changes nothing, unless what is missing is used. -/
  less : ∀ {m n : Machine σ} {a : α} {k : Nat}, x (m.withMore k) = .ok a n →
    (∃ m', x m = .ok a m' ∧ n = m'.withMore k) ∨ n.gas.remaining < k

/-- Gas that a bill does not take stays on the meter. -/
theorem Machine.withMore_paid {m n : Machine σ} {bill : Bill} (hle : bill.price ≤ m.gas.remaining)
    (k : Nat) : ({ n with gas := m.gas.paid bill } : Machine σ).withMore k =
      { n with gas := (m.withMore k).gas.paid bill } := by
  unfold withMore Meter.paid
  simp only [Nat.sub_add_comm hle]

theorem Bill.Buys.target_eq {bill : Bill} {m m' : Machine σ}
    {Same : Machine σ → Machine σ → Prop} {Short : Machine σ → Prop}
    (h : bill.Buys m m' Same Short) : m' = { m' with gas := m.gas.paid bill } := by
  rw [← h.gas_eq]

theorem Exec.Billed.uniform {x : Exec σ α} (hx : x.Billed) : x.Uniform where
  remaining_le h := by
    obtain ⟨bill, hbuys⟩ := hx h
    rw [hbuys.gas_eq]
    exact Nat.sub_le ..
  more {m m' a} k h := by
    obtain ⟨bill, hbuys⟩ := hx h
    rw [hbuys.target_eq, Machine.withMore_paid hbuys.price_le]
    exact hbuys.same _ (Nat.le_add_right_of_le hbuys.price_le)
  less {m n a k} h := by
    obtain ⟨bill, hbuys⟩ := hx h
    by_cases hpay : bill.price ≤ m.gas.remaining
    · refine .inl ⟨_, hbuys.same m.gas hpay, ?_⟩
      rw [Machine.withMore_paid hpay]
      exact hbuys.target_eq
    · -- what is missing is part of the price
      refine .inr ?_
      have hle : bill.price ≤ m.gas.remaining + k := hbuys.price_le
      rw [hbuys.gas_eq]
      show m.gas.remaining + k - bill.price < k
      omega

end MeteredEvm
