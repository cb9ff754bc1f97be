import Mathlib.Logic.Relation
import MeteredEvm.Effect.Call
import MeteredEvm.Proofs.Memory

/-!
# `MeteredEvm.Proofs.Execution` — what a computation on a machine can do

`Exec` computations are built from a few primitives. This module says what becomes of a bind, what
the primitives do to the height of the stack, and what any single primitive can change at all
(`Nudge`), so that a property of machines has to be checked once per kind of change and not once
per instruction.

## Contents
* `Exec.Yields` — what holds of a result.
* `Stack.push?_of_lt`, `Stack.pop?_of_pos`, … — heights.
* `Exec.after`, `Setting.Issues`, `Nudge` — the state a computation leaves, and single changes.
-/

namespace MeteredEvm

variable {σ α β : Type}

/-! ## Binds -/

namespace Exec

/-- What holds of a result: `P` of a success, `E` of a failure. -/
def Yields (r : EStateM.Result Failure (Machine σ) α) (P : α → Machine σ → Prop)
    (E : Failure → Prop) : Prop :=
  match r with
  | .ok a m => P a m
  | .error e _ => E e

namespace Yields

variable {r : EStateM.Result Failure (Machine σ) α} {P Q : α → Machine σ → Prop}
  {E : Failure → Prop} {m : Machine σ}

theorem of_ok {a : α} (h : Yields r P E) (hr : r = .ok a m) : P a m := by
  rw [hr] at h
  exact h

theorem of_error {e : Failure} (h : Yields r P E) (hr : r = .error e m) : E e := by
  rw [hr] at h
  exact h

theorem mono (h : Yields r P E) (hPQ : ∀ a m, P a m → Q a m) : Yields r Q E := by
  cases r with
  | ok a m => exact hPQ a m h
  | error e m => exact h

theorem weaken {E' : Failure → Prop} (h : Yields r P E) (hE : ∀ e, E e → E' e) : Yields r P E' := by
  cases r with
  | ok a m => exact h
  | error e m => exact hE e h

theorem and {E' : Failure → Prop} (h : Yields r P E) (h' : Yields r Q E') :
    Yields r (fun a m => P a m ∧ Q a m) E := by
  cases r with
  | ok a m => exact ⟨h, h'⟩
  | error e m => exact h

/-- What holds of two computations in a row. -/
theorem bind {x : Exec σ α} {f : α → Exec σ β} {Q : β → Machine σ → Prop} (hx : Yields (x m) P E)
    (hf : ∀ a m', P a m' → Yields (f a m') Q E) : Yields ((x >>= f) m) Q E := by
  cases h : x m with
  | ok a m' =>
      rw [Act.bind_ok h]
      exact hf a m' (hx.of_ok h)
  | error e m' =>
      rw [Act.bind_error h]
      exact hx.of_error h

end Yields

/-- The state that a computation leaves, whether or not it succeeds. -/
def after (x : Exec σ α) (m : Machine σ) : Machine σ :=
  match x m with
  | .ok _ m' => m'
  | .error _ m' => m'

theorem after_of_ok {x : Exec σ α} {m m' : Machine σ} {a : α} (h : x m = .ok a m') :
    x.after m = m' := by
  unfold after
  rw [h]

theorem after_of_error {x : Exec σ α} {m m' : Machine σ} {e : Failure} (h : x m = .error e m') :
    x.after m = m' := by
  unfold after
  rw [h]

theorem after_bind_of_ok {x : Exec σ α} {f : α → Exec σ β} {m m' : Machine σ} {a : α}
    (h : x m = .ok a m') : (x >>= f).after m = (f a).after m' := by
  unfold after
  rw [Act.bind_ok h]

theorem after_bind_of_error {x : Exec σ α} {f : α → Exec σ β} {m m' : Machine σ} {e : Failure}
    (h : x m = .error e m') : (x >>= f).after m = m' :=
  after_of_error (Act.bind_error h)

theorem charge_ok {cost : Nat} {m : Machine σ} {gas : Meter} (h : m.gas.charge? cost = some gas) :
    charge cost m = .ok () { m with gas } := by
  unfold charge
  rw [h]

theorem of_charge_ok {cost : Nat} {m m' : Machine σ} {u : Unit} (h : charge cost m = .ok u m') :
    ∃ gas, m.gas.charge? cost = some gas ∧ m' = { m with gas } := by
  unfold charge at h
  split at h
  · rename_i hcharge
    cases h
    exact ⟨_, hcharge, rfl⟩
  · cases h

theorem onMemory_ok {x : Memory.Act α} {m : Machine σ} {a : α} {memory : Memory} {gas : Meter}
    (h : x (m.memory, m.gas) = .ok a (memory, gas)) : onMemory x m = .ok a { m with memory, gas } := by
  unfold onMemory
  rw [h]

/-- A computation on the memory that changes nothing if it fails changes nothing of the machine. -/
theorem onMemory_error {x : Memory.Act α} {m : Machine σ} {e : Failure} {s : Memory × Meter}
    (hx : Steady x) (h : x (m.memory, m.gas) = .error e s) : onMemory x m = .error e m := by
  obtain rfl := hx h
  unfold onMemory
  rw [h]

theorem cover_ok {offset len : Word} {m : Machine σ} {range : Option (Nat × Nat)} {memory : Memory}
    {gas : Meter} (h : Memory.cover offset len (m.memory, m.gas) = .ok range (memory, gas)) :
    cover offset len m = .ok range { m with memory, gas } :=
  onMemory_ok h

theorem of_cover_ok {offset len : Word} {m m' : Machine σ} {range : Option (Nat × Nat)}
    (h : cover offset len m = .ok range m') :
    ∃ memory gas, Memory.cover offset len (m.memory, m.gas) = .ok range (memory, gas) ∧
      m' = { m with memory, gas } := by
  unfold cover onMemory at h
  split at h
  · rename_i hcover
    cases h
    exact ⟨_, _, hcover, rfl⟩
  · cases h

theorem cover_error {offset len : Word} {m : Machine σ} {e : Failure} {s : Memory × Meter}
    (h : Memory.cover offset len (m.memory, m.gas) = .error e s) : cover offset len m = .error e m :=
  onMemory_error (Memory.cover_steady offset len) h

theorem growTo_ok {offset len : Nat} {m : Machine σ} {u : Unit} {memory : Memory} {gas : Meter}
    (h : Memory.growTo offset len (m.memory, m.gas) = .ok u (memory, gas)) :
    growTo offset len m = .ok () { m with memory, gas } :=
  onMemory_ok h

theorem growTo_error {offset len : Nat} {m : Machine σ} {e : Failure} {s : Memory × Meter}
    (h : Memory.growTo offset len (m.memory, m.gas) = .error e s) :
    growTo offset len m = .error e m :=
  onMemory_error (Memory.growTo_steady offset len) h

end Exec

/-! ## Heights -/

namespace Stack

theorem push?_of_lt {s : Stack} (w : Word) (h : s.height < stackLimit) :
    ∃ s', s.push? w = some s' ∧ s'.height = s.height + 1 := by
  unfold push?
  rw [dif_pos h]
  exact ⟨_, rfl, rfl⟩

theorem pop?_of_pos {s : Stack} (h : 0 < s.height) :
    ∃ w s', s.pop? = some (w, s') ∧ s'.height + 1 = s.height := by
  unfold pop?
  rw [dif_pos h]
  exact ⟨_, _, rfl, Nat.sub_add_cancel h⟩

theorem peek?_of_lt {s : Stack} {n : Nat} (h : n < s.height) : ∃ w, s.peek? n = some w := by
  unfold peek?
  rw [dif_pos h]
  exact ⟨_, rfl⟩

theorem peek?_of_pop? {st st' : Stack} {w : Word} (h : st.pop? = some (w, st')) :
    st.peek? 0 = some w := by
  unfold pop? at h
  unfold peek?
  split at h
  · rename_i hpos
    cases h
    rw [dif_pos hpos]
    rfl
  · cases h

theorem peek?_succ_of_pop? {st st' : Stack} {w : Word} (h : st.pop? = some (w, st'))
    (k : Nat) : st.peek? (k + 1) = st'.peek? k := by
  unfold pop? at h
  split at h
  · cases h
    unfold peek?
    by_cases hk : k + 1 < st.height
    · have hk' : k < st.height - 1 := by omega
      rw [dif_pos hk, dif_pos hk']
      simp only [Nat.sub_right_comm _ 1 k, Nat.add_comm k 1, ← Nat.sub_sub]
    · have hk' : ¬ k < st.height - 1 := by omega
      rw [dif_neg hk, dif_neg hk']
  · cases h

theorem pop?_of_peek? {st : Stack} {w : Word} (h : st.peek? 0 = some w) :
    ∃ st', st.pop? = some (w, st') := by
  have hpos : 0 < st.height := by
    unfold peek? at h
    split at h
    · assumption
    · cases h
  obtain ⟨w', st', hpop, -⟩ := pop?_of_pos hpos
  rw [peek?_of_pop? hpop] at h
  cases h
  exact ⟨st', hpop⟩

theorem peek?_of_push? {st st' : Stack} {w : Word} (h : st.push? w = some st') :
    st'.peek? 0 = some w := by
  unfold push? at h
  split at h
  · cases h
    unfold peek?
    rw [dif_pos (Nat.succ_pos _)]
    exact congrArg some (Vector.getElem_set_self ..)
  · cases h

theorem setTop?_of_pos {s : Stack} (w : Word) (h : 0 < s.height) :
    ∃ s', s.setTop? w = some s' ∧ s'.height = s.height := by
  unfold setTop?
  rw [dif_pos h]
  exact ⟨_, rfl, rfl⟩

theorem dup?_of_le {s : Stack} {n : Nat} (h : n ≤ s.height) (hroom : s.height < stackLimit) :
    ∃ s', s.dup? n = some s' ∧ s'.height = s.height + 1 := by
  unfold dup?
  rw [dif_pos ⟨h, hroom⟩]
  exact ⟨_, rfl, rfl⟩

theorem swap?_of_lt {s : Stack} {n : Nat} (h : n < s.height) :
    ∃ s', s.swap? n = some s' ∧ s'.height = s.height := by
  unfold swap?
  rw [dif_pos h]
  exact ⟨_, rfl, rfl⟩

end Stack

/-! ## Single changes -/

/-- The requests that a frame can make of its host: those of its call and creation instructions
    (`Effect.callRequest`, `Effect.createRequest`), from a depth below the limit. -/
inductive Setting.Issues (s : Setting σ) : CallRequest → Prop where
  | call (op : CallOp) (o : Effect.CallOperands) (input : ByteArray) (gas : Nat)
      (hdepth : s.context.depth < s.maxCallDepth) :
      s.Issues (Effect.callRequest s.context op o input gas)
  | create (kind : CallKind) (value : Word) (initCode : ByteArray) (gas : Nat)
      (hkind : kind.isCreate = true) (hdepth : s.context.depth < s.maxCallDepth) :
      s.Issues (Effect.createRequest s.context kind value initCode gas)

/-- A frame asks for children one level below itself, and only above the limit. -/
theorem Setting.Issues.depth {s : Setting σ} {req : CallRequest} (h : s.Issues req) :
    req.depth = s.context.depth + 1 ∧ s.context.depth < s.maxCallDepth := by
  cases h with
  | call _ _ _ _ hdepth => exact ⟨rfl, hdepth⟩
  | create _ _ _ _ _ hdepth => exact ⟨rfl, hdepth⟩

/-- **What one primitive can change.** Everything that an instruction does to a machine is a sequence of
    these (`Nudges`). -/
inductive Nudge (s : Setting σ) (m : Machine σ) : Machine σ → Prop where
  /-- The stack. -/
  | stack (st : Stack) : Nudge s m { m with stack := st }
  /-- The return data. -/
  | returnData (data : ByteArray) : Nudge s m { m with returnData := data }
  /-- Gas paid. -/
  | charge {cost : Nat} {g : Meter} (h : m.gas.charge? cost = some g) : Nudge s m { m with gas := g }
  /-- Gas handed back. -/
  | giveBack (n : Nat) : Nudge s m { m with gas := m.gas.giveBack n }
  /-- Refunds. -/
  | refund (n : Int) : Nudge s m { m with gas := m.gas.refund n }
  /-- A larger view, paid for. -/
  | grow {size : Nat} {memory : Memory} {g : Meter}
      (h : Memory.grow size (m.memory, m.gas) = .ok () (memory, g)) :
      Nudge s m { m with memory, gas := g }
  /-- Bytes inside the view. -/
  | write {offset : Nat} {bytes : ByteArray} (h : offset + bytes.size ≤ m.memory.size) :
      Nudge s m { m with memory := m.memory.write offset bytes }
  /-- What the host does to answer. -/
  | answer (q : Query) : Nudge s m { m with host := (s.host.answer q m.host).2 }
  /-- What a child frame does. -/
  | call {req : CallRequest} (hreq : s.Issues req) {result : CallResult} {memory : Memory} {host : σ}
      (h : s.host.call req m.memory m.host = .ok (result, memory, host)) :
      Nudge s m { m with memory, host }

/-- Any number of changes. -/
abbrev Nudges (s : Setting σ) : Machine σ → Machine σ → Prop := Relation.ReflTransGen (Nudge s)

end MeteredEvm
