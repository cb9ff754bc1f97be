import MeteredEvm.Proofs.Uniform

/-!
# `MeteredEvm.Proofs.Typing` — computations with a known stack effect

`Typed s v b h h' x` says that `x` is built from the primitives of the machine in such a way that it
takes a stack of height `h` to one of height `h'`, and touches no byte of memory past the first `b`
without making room for it. The derivation is a record of which primitives `x` uses; `v` bounds what
it may do with the meter beyond paying. Each instruction gets one derivation, and what holds of all
primitives then holds of all instructions by induction on it.

## Contents
* `Sight`, `Typed` — the judgement.
* `Typed.height` — the stack never traps, and ends at the height that the judgement says.
* `Typed.nudges` — a computation is a sequence of single changes.
* `Typed.billed` — a computation that does not look at the meter does the same on every meter that
  can pay.
* `Typed.remaining_le` — without handing back, gas only goes down.
* `Typed.sound` — in a sound memory nothing traps.
-/

namespace MeteredEvm

variable {σ α β : Type}

/-- What a computation does with the meter beyond paying. -/
inductive Sight where
  /-- Nothing. -/
  | blind
  /-- It looks at the gas that is left. -/
  | looks
  /-- It looks, hands gas back, and may run a child to do so. -/
  | gives
  deriving DecidableEq

open Exec in
/-- **The judgement.** Faults about the height of the stack are not among those that a typed
    computation can raise, and neither is any trap of its own making, but for the sums of those that
    hand gas back. -/
inductive Typed (s : Setting σ) (v : Sight) :
    (view before after : Nat) → {α : Type} → Exec σ α → Prop where
  | pure {b h : Nat} {α : Type} (a : α) : Typed s v b h h (pure a : Exec σ α)
  | bind {b h h₁ h₂ : Nat} {α β : Type} {x : Exec σ α} {f : α → Exec σ β}
      (hx : Typed s v b h h₁ x) (hf : ∀ a, Typed s v b h₁ h₂ (f a)) : Typed s v b h h₂ (x >>= f)
  /-- Looking at the machine; a blind computation must not depend on the meter that it sees. -/
  | look {b h h' : Nat} {α : Type} {f : Machine σ → Exec σ α} (hf : ∀ m, Typed s v b h h' (f m))
      (hv : v = .blind → ∀ m g, f { m with gas := g } = f m) : Typed s v b h h' (get >>= f)
  | pop {b h : Nat} : Typed s v b (h + 1) h pop
  | push {b h : Nat} (w : Word) (hh : h < stackLimit) : Typed s v b h (h + 1) (push w)
  | peek {b h : Nat} (n : Nat) (hh : n < h) : Typed s v b h h (peek n)
  | setTop {b h : Nat} (w : Word) (hh : 0 < h) : Typed s v b h h (setTop w)
  | dup {b h : Nat} (n : Nat) (hn : 0 < n) (hh : n ≤ h) (hroom : h < stackLimit) :
      Typed s v b h (h + 1) (dup n)
  | swap {b h : Nat} (n : Nat) (hn : 0 < n) (hh : n < h) : Typed s v b h h (swap n)
  | charge {b h : Nat} (cost : Nat) : Typed s v b h h (charge cost)
  | refund {b h : Nat} (n : Int) : Typed s v b h h (refund n)
  | giveBack {b h : Nat} (n : Nat) (hv : v = .gives) : Typed s v b h h (giveBack n)
  | amount {b h : Nat} (n : Nat) (hv : v = .gives) : Typed s v b h h (amount n)
  | call {b h : Nat} (req : CallRequest) (hreq : s.Issues req) (hv : v = .gives) :
      Typed s v b h h (Exec.call s req)
  /-- Once a range has been made part of the view, it can be used. -/
  | cover {b h h' : Nat} {α : Type} (offset len : Word) {f : Option (Nat × Nat) → Exec σ α}
      (hf : ∀ range b', IsRange offset len range → b ≤ b' → Within range b' →
        Typed s v b' h h' (f range)) :
      Typed s v b h h' (cover offset len >>= f)
  | growTo {b h h' : Nat} {α : Type} (offset len : Nat) {f : Unit → Exec σ α}
      (hf : ∀ b', b ≤ b' → offset + len ≤ b' → Typed s v b' h h' (f ())) :
      Typed s v b h h' (growTo offset len >>= f)
  | read {b h : Nat} (offset len : Nat) (hb : offset + len ≤ b) : Typed s v b h h (read offset len)
  | write {b h : Nat} (offset : Nat) (bytes : ByteArray) (hb : offset + bytes.size ≤ b) :
      Typed s v b h h (write offset bytes)
  | move {b h : Nat} (source target len : Nat) (hs : source + len ≤ b) (ht : target + len ≤ b) :
      Typed s v b h h (move source target len)
  | ask {b h : Nat} (q : Query) : Typed s v b h h (ask s q)
  | setReturnData {b h : Nat} (data : ByteArray) : Typed s v b h h (setReturnData data)
  | fault {b h h' : Nat} {α : Type} (f : Fault) (hu : f ≠ .stackUnderflow) (ho : f ≠ .stackOverflow) :
      Typed s v b h h' (fault f : Exec σ α)

/-! ## Heights -/

/-- Failures that leave the stack out of it: no fault about its height, and its trap only if the
    host itself reports that trap from inside a child. -/
def Setting.Permits (s : Setting σ) (v : Sight) : Failure → Prop
  | .fault f => f ≠ .stackUnderflow ∧ f ≠ .stackOverflow
  | .trap t =>
    t = .stack → v = .gives ∧ ∃ req memory state, s.host.call req memory state = .error .stack

theorem Setting.Permits.weaken {s : Setting σ} {v : Sight} {e : Failure} (h : s.Permits v e) :
    s.Permits .gives e := by
  cases e with
  | fault f => exact h
  | trap t => exact fun ht => ⟨rfl, (h ht).2⟩

/-- A range that cannot be paid for or held is no matter of the stack. -/
theorem Memory.permits_of_grow {s : Setting σ} {v : Sight} {m : Memory} {size : Nat} {g : Meter}
    {e : Failure} {t : Memory × Meter} (h : Memory.grow size (m, g) = .error e t) :
    s.Permits v e := by
  obtain hcost | rfl := Memory.of_grow_error h
  · obtain rfl | rfl := Memory.of_expansionCost_error hcost
    · exact ⟨by simp, by simp⟩
    · intro ht
      cases ht
  · exact ⟨by simp, by simp⟩

namespace Typed

variable {s : Setting σ} {v : Sight} {b h h' : Nat} {x : Exec σ α}

/-- **The stack is safe.** On a stack of height `h` a typed computation ends at height `h'` if it
    ends at all, and no failure of it is about the stack. -/
theorem height (ht : Typed s v b h h' x) (m : Machine σ) (hm : m.stack.height = h) :
    Exec.Yields (x m) (fun _ m' => m'.stack.height = h') (s.Permits v) := by
  induction ht generalizing m with
  | pure a => exact hm
  | bind _ _ ihx ihf => exact .bind (ihx m hm) fun a m₁ hm₁ => ihf a m₁ hm₁
  | look _ _ ih => exact ih m m hm
  -- the static height says that the operations on the stack apply
  | pop =>
      obtain ⟨w, st, hpop, hst⟩ := Stack.pop?_of_pos (s := m.stack) (by omega)
      simp only [Exec.pop, hpop, Exec.Yields]
      omega
  | push w hh =>
      obtain ⟨st, hpush, hst⟩ := Stack.push?_of_lt (s := m.stack) w (by omega)
      simp only [Exec.push, hpush, Exec.Yields]
      omega
  | peek n hh =>
      obtain ⟨w, hpeek⟩ := Stack.peek?_of_lt (s := m.stack) (n := n) (by omega)
      simp only [Exec.peek, hpeek, Exec.Yields]
      exact hm
  | setTop w hh =>
      obtain ⟨st, hset, hst⟩ := Stack.setTop?_of_pos (s := m.stack) w (by omega)
      simp only [Exec.setTop, hset, Exec.Yields]
      omega
  | dup n hn hh hroom =>
      obtain ⟨st, hdup, hst⟩ := Stack.dup?_of_le (s := m.stack) (n := n) (by omega) (by omega)
      simp only [Exec.dup, hdup, Exec.Yields]
      omega
  | swap n hn hh =>
      obtain ⟨st, hswap, hst⟩ := Stack.swap?_of_lt (s := m.stack) (n := n) (by omega)
      simp only [Exec.swap, hswap, Exec.Yields]
      omega
  -- the meter, the host and the memory leave the stack alone
  | charge cost =>
      unfold Exec.charge
      cases m.gas.charge? cost with
      | some g => exact hm
      | none => exact ⟨by simp, by simp⟩
  | refund n => exact hm
  | giveBack n _ => exact hm
  | amount n _ =>
      unfold Exec.amount
      by_cases hn : n < u64Size
      · rw [if_pos hn]
        exact hm
      · rw [if_neg hn]
        intro ht
        cases ht
  | call req _ hv =>
      unfold Exec.call
      cases hcall : s.host.call req m.memory m.host with
      | ok r => exact hm
      | error t =>
          intro ht
          subst ht
          exact ⟨hv, req, m.memory, m.host, hcall⟩
  -- memory can be refused, but not by a fault about the stack
  | @cover b _ _ _ offset len f _ ih =>
      cases hcover : Memory.cover offset len (m.memory, m.gas) with
      | ok range t =>
          rw [Act.bind_ok (Exec.cover_ok hcover)]
          have hr := Memory.isRange_of_cover_ok hcover
          exact ih range _ hr (Nat.le_add_right b _) (hr.within b) _ hm
      | error e t =>
          rw [Act.bind_error (Exec.cover_error hcover)]
          obtain rfl | ⟨stop, hgrow⟩ := Memory.of_cover_error hcover
          · exact ⟨by simp, by simp⟩
          · exact Memory.permits_of_grow hgrow
  | @growTo b _ _ _ offset len f _ ih =>
      cases hgrow : Memory.growTo offset len (m.memory, m.gas) with
      | ok u t =>
          rw [Act.bind_ok (Exec.growTo_ok hgrow)]
          exact ih (b + (offset + len)) (by omega) (by omega) _ hm
      | error e t =>
          rw [Act.bind_error (Exec.growTo_error hgrow)]
          obtain rfl | ⟨stop, hgrow⟩ := Memory.of_growTo_error hgrow
          · exact ⟨by simp, by simp⟩
          · exact Memory.permits_of_grow hgrow
  | read offset len _ =>
      unfold Exec.read
      cases m.memory.read? offset len with
      | some bytes => exact hm
      | none =>
          intro ht
          cases ht
  | write offset bytes _ =>
      unfold Exec.write
      by_cases hle : offset + bytes.size ≤ m.memory.size
      · rw [if_pos hle]
        exact hm
      · rw [if_neg hle]
        intro ht
        cases ht
  | move source target len _ _ =>
      unfold Exec.move
      cases m.memory.move? source target len with
      | some memory => exact hm
      | none =>
          intro ht
          cases ht
  | ask q => exact hm
  | setReturnData data => exact hm
  | fault f hu ho => exact ⟨hu, ho⟩

/-! ## Single changes -/

/-- **A computation is a sequence of single changes**, also if it fails half way. -/
theorem nudges (ht : Typed s v b h h' x) (m : Machine σ) : Nudges s m (x.after m) := by
  induction ht generalizing m with
  | pure a => exact .refl
  | @bind _ _ _ _ _ _ x f _ _ ihx ihf =>
      cases hx : x m with
      -- a failure in the second part keeps what the first part has done
      | ok a m₁ =>
          rw [Exec.after_bind_of_ok hx]
          refine .trans ?_ (ihf a m₁)
          rw [← Exec.after_of_ok hx]
          exact ihx m
      | error e m₁ =>
          rw [Exec.after_bind_of_error hx, ← Exec.after_of_error hx]
          exact ihx m
  | look _ _ ih => exact ih m m
  | pop =>
      unfold Exec.after Exec.pop
      cases m.stack.pop? with
      | some p => exact .single (.stack p.2)
      | none => exact .refl
  | push w _ =>
      unfold Exec.after Exec.push
      cases m.stack.push? w with
      | some st => exact .single (.stack st)
      | none => exact .refl
  | peek n _ =>
      unfold Exec.after Exec.peek
      cases m.stack.peek? n with
      | some w => exact .refl
      | none => exact .refl
  | setTop w _ =>
      unfold Exec.after Exec.setTop
      cases m.stack.setTop? w with
      | some st => exact .single (.stack st)
      | none => exact .refl
  | dup n _ _ _ =>
      unfold Exec.after Exec.dup
      cases m.stack.dup? n with
      | some st => exact .single (.stack st)
      | none => exact .refl
  | swap n _ _ =>
      unfold Exec.after Exec.swap
      cases m.stack.swap? n with
      | some st => exact .single (.stack st)
      | none => exact .refl
  | charge cost =>
      unfold Exec.after Exec.charge
      cases hg : m.gas.charge? cost with
      | some g => exact .single (.charge hg)
      | none => exact .refl
  | refund n => exact .single (.refund n)
  | giveBack n _ => exact .single (.giveBack n)
  | amount n _ =>
      unfold Exec.after Exec.amount
      by_cases hn : n < u64Size
      · rw [if_pos hn]
        exact .refl
      · rw [if_neg hn]
        exact .refl
  | call req hreq _ =>
      unfold Exec.after Exec.call
      cases hcall : s.host.call req m.memory m.host with
      | ok r => exact .single (.call hreq hcall)
      | error t => exact .refl
  | @cover b _ _ _ offset len f _ ih =>
      cases hcover : Memory.cover offset len (m.memory, m.gas) with
      | error e t =>
          rw [Exec.after_bind_of_error (Exec.cover_error hcover)]
      | ok range t =>
          rw [Exec.after_bind_of_ok (Exec.cover_ok hcover)]
          obtain ⟨memory, g⟩ := t
          have hr := Memory.isRange_of_cover_ok hcover
          refine .trans ?_ (ih range _ hr (Nat.le_add_right b _) (hr.within b) _)
          obtain ⟨-, rfl, rfl⟩ | ⟨-, hgrow⟩ := Memory.of_cover_ok hcover
          · exact .refl
          · exact .single (.grow hgrow)
  | @growTo b _ _ _ offset len f _ ih =>
      cases hgrow : Memory.growTo offset len (m.memory, m.gas) with
      | error e t =>
          rw [Exec.after_bind_of_error (Exec.growTo_error hgrow)]
      | ok u t =>
          rw [Exec.after_bind_of_ok (Exec.growTo_ok hgrow)]
          refine .trans ?_ (ih (b + (offset + len)) (by omega) (by omega) _)
          exact .single (.grow (Memory.of_growTo_ok hgrow))
  | read offset len _ =>
      unfold Exec.after Exec.read
      cases m.memory.read? offset len with
      | some bytes => exact .refl
      | none => exact .refl
  | write offset bytes _ =>
      unfold Exec.after Exec.write
      by_cases hle : offset + bytes.size ≤ m.memory.size
      · rw [if_pos hle]
        exact .single (.write hle)
      · rw [if_neg hle]
  | move source target len _ _ =>
      unfold Exec.after Exec.move
      cases hmove : m.memory.move? source target len with
      | none => exact .refl
      | some memory =>
          obtain ⟨bytes, hle, rfl⟩ := Memory.of_move?_eq_some hmove
          exact .single (.write hle)
  | ask q => exact .single (.answer q)
  | setReturnData data => exact .single (.returnData data)
  | fault f _ _ => exact .refl

/-! ## The meter -/

open Exec in
/-- A computation that hands nothing back never raises the meter, and if it does not even look at
    the meter, it does the same on every meter that can pay. -/
theorem meter (ht : Typed s v b h h' x) (hv : v ≠ .gives) :
    (∀ {m m' : Machine σ} {a : α}, x m = .ok a m' → m'.gas.remaining ≤ m.gas.remaining) ∧
      (v = .blind → Billed x) := by
  -- what does the same on every meter has both properties
  have of {β : Type} {y : Exec σ β} (hy : Billed y) :
      (∀ {m m' : Machine σ} {b : β}, y m = .ok b m' → m'.gas.remaining ≤ m.gas.remaining) ∧
        (v = .blind → Billed y) := ⟨hy.uniform.remaining_le, fun _ => hy⟩
  have bind {β γ : Type} {y : Exec σ β} {f : β → Exec σ γ}
      (hy : (∀ {m m' : Machine σ} {b : β}, y m = .ok b m' → m'.gas.remaining ≤ m.gas.remaining) ∧
        (v = .blind → Billed y))
      (hf : ∀ {m m' : Machine σ} {b : β}, y m = .ok b m' →
        (∀ {m m' : Machine σ} {c : γ}, f b m = .ok c m' → m'.gas.remaining ≤ m.gas.remaining) ∧
          (v = .blind → Billed (f b))) :
      (∀ {m m' : Machine σ} {c : γ}, (y >>= f) m = .ok c m' →
        m'.gas.remaining ≤ m.gas.remaining) ∧ (v = .blind → Billed (y >>= f)) := by
    refine ⟨fun hm => ?_, fun hb => .bind (hy.2 hb) fun hok => (hf hok).2 hb⟩
    obtain ⟨a, m₁, hm₁, ha⟩ := Act.eq_of_bind_ok hm
    exact Nat.le_trans ((hf hm₁).1 ha) (hy.1 hm₁)
  induction ht with
  | bind _ _ ihx ihf => exact bind ihx fun {_ _ a} _ => ihf a
  | look _ hgas ih =>
      exact ⟨fun {m _ _} hm => (ih m).1 hm, fun hb => .look (fun m => (ih m).2 hb) (hgas hb)⟩
  -- these three may put gas back, and are no part of what is considered here
  | giveBack n hgives => exact absurd hgives hv
  | amount n hgives => exact absurd hgives hv
  | call req _ hgives => exact absurd hgives hv
  | pure a => exact of (.of_gasFree (gasFree_pure a))
  | pop => exact of (.of_gasFree gasFree_pop)
  | push w _ => exact of (.of_gasFree (gasFree_push w))
  | peek n _ => exact of (.of_gasFree (gasFree_peek n))
  | setTop w _ => exact of (.of_gasFree (gasFree_setTop w))
  | dup n _ _ _ => exact of (.of_gasFree (gasFree_dup n))
  | swap n _ _ => exact of (.of_gasFree (gasFree_swap n))
  | charge cost => exact of (.of_priced (priced_charge cost))
  | refund n => exact of (.refund n)
  | @cover b _ _ _ offset len _ _ ih =>
      refine bind (of (.of_priced (priced_cover offset len))) fun hok => ?_
      obtain ⟨memory, gas, hcover, -⟩ := of_cover_ok hok
      have hr := Memory.isRange_of_cover_ok hcover
      exact ih _ _ hr (Nat.le_add_right b _) (hr.within b)
  | @growTo b _ _ _ offset len _ _ ih =>
      exact bind (of (.of_priced (priced_growTo offset len))) fun _ =>
        ih (b + (offset + len)) (by omega) (by omega)
  | read offset len _ => exact of (.of_gasFree (gasFree_read offset len))
  | write offset bytes _ => exact of (.of_gasFree (gasFree_write offset bytes))
  | move source target len _ _ => exact of (.of_gasFree (gasFree_move source target len))
  | ask q => exact of (.of_gasFree (gasFree_ask s q))
  | setReturnData data => exact of (.of_gasFree (gasFree_setReturnData data))
  | fault f _ _ => exact of (.of_gasFree (gasFree_fault f))

/-- Looking at the meter does not fill it. -/
theorem remaining_le (ht : Typed s v b h h' x) (hv : v ≠ .gives) {m m' : Machine σ} {a : α}
    (hm : x m = .ok a m') : m'.gas.remaining ≤ m.gas.remaining :=
  (ht.meter hv).1 hm

/-- A blind computation does the same on every meter that can pay. -/
theorem billed (ht : Typed s .blind b h h' x) : x.Billed :=
  (ht.meter (by decide)).2 rfl

/-! ## Sound memories -/

/-- **In a sound memory nothing traps** but the stack, of which `Typed.height` takes care, and the
    view keeps what it holds. -/
theorem sound (ht : Typed s v b h h' x) (hv : v ≠ .gives) (m : Machine σ) (hm : m.memory.Sound)
    (hb : b ≤ m.memory.size) :
    Exec.Yields (x m) (fun _ m' => m'.memory.Sound ∧ m.memory.size ≤ m'.memory.size)
      fun e => (∃ f, e = .fault f) ∨ e = .trap .stack := by
  induction ht generalizing m with
  | pure a => exact ⟨hm, Nat.le_refl _⟩
  | bind _ _ ihx ihf =>
      refine .bind (ihx m hm hb) fun a m₁ h₁ => ?_
      exact (ihf a m₁ h₁.1 (Nat.le_trans hb h₁.2)).mono fun _ _ h₂ => ⟨h₂.1, Nat.le_trans h₁.2 h₂.2⟩
  | look _ _ ih => exact ih m m hm hb
  -- the stack may trap as far as this proof knows; `Typed.height` says that it does not
  | pop =>
      unfold Exec.pop
      cases m.stack.pop? with
      | some p => exact ⟨hm, Nat.le_refl _⟩
      | none => exact .inr rfl
  | push w _ =>
      unfold Exec.push
      cases m.stack.push? w with
      | some st => exact ⟨hm, Nat.le_refl _⟩
      | none => exact .inr rfl
  | peek n _ =>
      unfold Exec.peek
      cases m.stack.peek? n with
      | some w => exact ⟨hm, Nat.le_refl _⟩
      | none => exact .inr rfl
  | setTop w _ =>
      unfold Exec.setTop
      cases m.stack.setTop? w with
      | some st => exact ⟨hm, Nat.le_refl _⟩
      | none => exact .inr rfl
  | dup n _ _ _ =>
      unfold Exec.dup
      cases m.stack.dup? n with
      | some st => exact ⟨hm, Nat.le_refl _⟩
      | none => exact .inr rfl
  | swap n _ _ =>
      unfold Exec.swap
      cases m.stack.swap? n with
      | some st => exact ⟨hm, Nat.le_refl _⟩
      | none => exact .inr rfl
  | charge cost =>
      unfold Exec.charge
      cases m.gas.charge? cost with
      | some g => exact ⟨hm, Nat.le_refl _⟩
      | none => exact .inl ⟨_, rfl⟩
  | refund n => exact ⟨hm, Nat.le_refl _⟩
  | giveBack n hgives => exact absurd hgives hv
  | amount n hgives => exact absurd hgives hv
  | call req _ hgives => exact absurd hgives hv
  | cover offset len _ ih =>
      cases hcover : Memory.cover offset len (m.memory, m.gas) with
      | ok range t =>
          rw [Act.bind_ok (Exec.cover_ok hcover)]
          obtain ⟨hsize, hrange⟩ := Memory.size_of_cover_ok hcover
          have hf := ih range _ (Memory.isRange_of_cover_ok hcover) (Nat.le_trans hb hsize) hrange
            { m with memory := t.1, gas := t.2 } (hm.cover_ok hcover) (Nat.le_refl _)
          exact hf.mono fun _ _ h₂ => ⟨h₂.1, Nat.le_trans hsize h₂.2⟩
      | error e t =>
          rw [Act.bind_error (Exec.cover_error hcover)]
          exact .inl (hm.cover_error hcover)
  | growTo offset len _ ih =>
      cases hgrow : Memory.growTo offset len (m.memory, m.gas) with
      | ok u t =>
          rw [Act.bind_ok (Exec.growTo_ok hgrow)]
          have hgrow := Memory.of_growTo_ok hgrow
          obtain ⟨hle, hsize⟩ := Memory.size_of_grow_ok hgrow
          have hf := ih _ (Nat.le_trans hb hsize) hle { m with memory := t.1, gas := t.2 }
            (hm.grow_ok hgrow) (Nat.le_refl _)
          exact hf.mono fun _ _ h₂ => ⟨h₂.1, Nat.le_trans hsize h₂.2⟩
      | error e t =>
          rw [Act.bind_error (Exec.growTo_error hgrow)]
          exact .inl (hm.growTo_error hgrow)
  -- reads and writes stay within what room was made for, and the view never shrinks
  | read offset len hle =>
      unfold Exec.read Memory.read?
      rw [if_pos (Nat.le_trans hle hb)]
      exact ⟨hm, Nat.le_refl _⟩
  | write offset bytes hle =>
      have hle := Nat.le_trans hle hb
      unfold Exec.write
      rw [if_pos hle]
      exact ⟨(hm.write hle).1, Nat.le_of_eq (hm.write hle).2.symm⟩
  | move source target len hs ht =>
      unfold Exec.move
      obtain ⟨memory, hmove, hsound, hsize⟩ :=
        hm.move (Nat.le_trans hs hb) (Nat.le_trans ht hb)
      rw [hmove]
      exact ⟨hsound, Nat.le_of_eq hsize.symm⟩
  | ask q => exact ⟨hm, Nat.le_refl _⟩
  | setReturnData data => exact ⟨hm, Nat.le_refl _⟩
  | fault f _ _ => exact .inl ⟨f, rfl⟩

end Typed

end MeteredEvm
