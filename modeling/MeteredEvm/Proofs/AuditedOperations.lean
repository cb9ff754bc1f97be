import MeteredEvm.Proofs.Audit
import MeteredEvm.Proofs.CallTree
import MeteredEvm.Proofs.NetPricing

/-!
# `MeteredEvm.Proofs.AuditedOperations` — operations whose conditions hold

What is known in front of an operation of the machine is that the view lies in the buffer and is small
enough for its prices, that it holds what has been made room for, and that gas is within the limit of
the frame (`Secure`). From this the conditions of the operations follow, so that an audit of them makes
no difference, and what is known afterwards follows as well.

## Contents
* `Host.KeepsBounds` — hosts whose children leave the view of their caller where it is.
* `Secure`, `Secure.same` — what is known in front of an operation, and what keeps it.
* `Gas.memoryFits`, `Schedule.sstore_lt`, … — prices are 64-bit numbers.
* `Audit.charge_agrees`, `Audit.cover_agrees`, `Audit.read_agrees`, … — operations.
-/

namespace MeteredEvm

open Exec

variable {σ α : Type} {s : Setting σ} {audit : Audit σ} {limit g b h h' : Nat} {m m' : Machine σ}

/-! ## Hosts -/

/-- **Children leave the view of their caller where it is**: `base`, the size of the `buffer` and `limit`
    stay. -/
def Host.KeepsBounds (host : Host σ) : Prop :=
  ∀ ⦃req memory state result memory' state'⦄, memory.Sound →
    host.call req memory state = .ok (result, memory', state') →
      memory'.base = memory.base ∧ memory'.buffer.size = memory.buffer.size ∧
        memory'.limit = memory.limit

theorem Host.KeepsMemory.keepsBounds {host : Host σ} (h : host.KeepsMemory) : host.KeepsBounds := by
  intro req memory state result memory' state' _ hcall
  rw [h hcall]
  exact ⟨rfl, rfl, rfl⟩

theorem Memory.Sound.of_bounds {m m' : Memory} (h : m.Sound) (hbase : m'.base = m.base)
    (hbuffer : m'.buffer.size = m.buffer.size) (hlimit : m'.limit = m.limit) :
    m'.Sound ∧ m'.size = m.size := by
  have hsize : m'.size = m.size := by
    unfold Memory.size
    rw [hbase, hbuffer]
  refine ⟨⟨?_, ?_⟩, hsize⟩
  · rw [hlimit]
    exact h.limit_le
  · rw [hsize]
    exact h.size_lt

/-- No single change moves the start of a sound view, and the view stays sound. -/
theorem Nudge.keepsBounds (hhost : s.host.KeepsBounds) (h : Nudge s m m') (hm : m.memory.Sound) :
    m'.memory.Sound ∧ m'.memory.base = m.memory.base := by
  cases h with
  | grow hgrow => exact ⟨hm.grow_ok hgrow, (Memory.grow_sameBelow hgrow).base⟩
  | write hle => exact ⟨(hm.write hle).1, rfl⟩
  | call _ hcall =>
      obtain ⟨hbase, hbuffer, hlimit⟩ := hhost hm hcall
      exact ⟨(hm.of_bounds hbase hbuffer hlimit).1, hbase⟩
  | _ => exact ⟨hm, rfl⟩

theorem Nudges.keepsBounds (hhost : s.host.KeepsBounds) (h : Nudges s m m') (hm : m.memory.Sound) :
    m'.memory.Sound ∧ m'.memory.base = m.memory.base := by
  induction h with
  | refl => exact ⟨hm, rfl⟩
  | tail _ hstep ih =>
      obtain ⟨hsound, hbase⟩ := hstep.keepsBounds hhost ih.1
      exact ⟨hsound, hbase.trans ih.2⟩

/-! ## What is known -/

/-- **What is known in front of an operation**: the bounds of the meter, the height of the stack, that
    the view is sound and holds `b` bytes, and that wherever it grows to is a 64-bit number. -/
structure Secure (limit g b h : Nat) (m : Machine σ) : Prop where
  holds : Holds True limit g b h m
  base_le : m.memory.base + 2 ^ 37 ≤ u64Size

/-- Failures for which the machine is not to blame: faults, and traps of `Host.call`. -/
def Setting.Excuses (s : Setting σ) (e : Failure) : Prop :=
  ∀ t, e = .trap t → ∃ req memory state, s.host.call req memory state = .error t

theorem Setting.excuses_fault (s : Setting σ) (f : Fault) : s.Excuses (.fault f) := nofun

theorem Blameless.excuses {e : Failure} (h : Blameless True e) : s.Excuses e := by
  obtain ⟨f, rfl⟩ := h trivial
  exact s.excuses_fault f

namespace Secure

theorem mono {g' b' : Nat} (hm : Secure limit g b h m) (hg : g ≤ g') (hb : b' ≤ b) :
    Secure limit g' b' h m :=
  ⟨hm.holds.mono hg hb, hm.base_le⟩

theorem sound (hm : Secure limit g b h m) : m.memory.Sound := (hm.holds.memory trivial).1

theorem le_size (hm : Secure limit g b h m) : b ≤ m.memory.size := (hm.holds.memory trivial).2

/-- Whatever the view holds is short. -/
theorem lt (hm : Secure limit g b h m) : b < 2 ^ 37 := Nat.lt_of_le_of_lt hm.le_size hm.sound.size_lt

/-- What the view holds can be used. -/
theorem hasRange (hm : Secure limit g b h m) {offset len : Nat} (hle : offset + len ≤ b) :
    m.memory.HasRange offset len := by
  have hroom := hm.le_size
  have hbase := m.memory.base_le
  have hsize : m.memory.size = m.memory.buffer.size - m.memory.base := rfl
  exact ⟨by omega, by omega⟩

/-- A change that nothing but an operation of the machine makes keeps the start of the view. -/
theorem of_yields {x : Exec σ α} {P : α → Machine σ → Prop} {v : Sight} {b₁ h₁ h₂ : Nat}
    (hhost : s.host.KeepsBounds) (hm : Secure limit g b h m) (ht : Typed s v b₁ h₁ h₂ x)
    (hx : Yields (x m) P (Blameless True)) :
    Yields (x m) (fun a m' => P a m' ∧ m'.memory.base + 2 ^ 37 ≤ u64Size) s.Excuses := by
  have hkeeps := (ht.nudges m).keepsBounds hhost hm.sound
  cases hxm : x m with
  | ok a m' =>
      rw [after_of_ok hxm] at hkeeps
      rw [hxm] at hx
      refine ⟨hx, ?_⟩
      rw [hkeeps.2]
      exact hm.base_le
  | error e m' =>
      rw [hxm] at hx
      exact Blameless.excuses hx

/-- **An operation without conditions** that hands nothing back. -/
theorem same_of {x : Exec σ α} {v : Sight} (hhost : s.host.KeepsBounds) (hm : Secure limit g b h m)
    (ht : Typed s v b h h' x) (hv : v ≠ .gives) :
    Agrees m x x (fun _ m' => Secure limit g b h' m') s.Excuses :=
  .of_yields ((hm.of_yields hhost ht (ht.holds hv hm.holds)).mono fun _ _ h => ⟨h.1, h.2⟩)

theorem same {x : Exec σ α} (hhost : s.host.KeepsBounds) (hm : Secure limit g b h m)
    (ht : Typed s .looks b h h' x) :
    Agrees m x x (fun _ m' => Secure limit g b h' m') s.Excuses :=
  hm.same_of hhost ht (by decide)

end Secure

/-- Room that is no longer needed can be forgotten. -/
theorem Exec.Agrees.shrink {x y : Exec σ α} {E : Failure → Prop} {b' : Nat}
    (hx : Agrees m x y (fun _ m' => Secure limit g b' h m') E) (hb : b ≤ b') :
    Agrees m x y (fun _ m' => Secure limit g b h m') E :=
  hx.mono fun _ _ hm => hm.mono (Nat.le_refl g) hb

/-! ## Prices -/

/-- So many words have a price. -/
theorem Gas.memoryFits {words : Nat} (h : words < 2 ^ 32) : Gas.MemoryFits words := by
  have hsquare : words * words ≤ (2 ^ 32 - 1) * (2 ^ 32 - 1) :=
    Nat.mul_le_mul (Nat.le_sub_one_of_lt h) (Nat.le_sub_one_of_lt h)
  unfold Gas.MemoryFits Gas.memory u64Size
  omega

/-- **A sound view can be measured** up to its limit. -/
theorem Memory.Sound.measurable {m : Memory} {stop : Nat} (h : m.Sound)
    (hbase : m.base + 2 ^ 37 ≤ u64Size) (hle : stop ≤ m.limit) : m.Measurable stop := by
  have hlimit : m.limit ≤ 2 ^ 37 - 32 := h.limit_le
  have hsize := h.size_lt
  have hwords : 32 * wordsFor stop ≤ 2 ^ 37 - 32 := by
    unfold wordsFor
    omega
  refine ⟨m.base_le, Gas.memoryFits (by omega), Gas.memoryFits (by omega), fun hgrows => ?_, by omega⟩
  -- the difference of the prices does not go below zero
  obtain hlt | heq := Nat.lt_or_eq_of_le hgrows
  · exact Nat.le_of_lt (Gas.memory_lt hlt)
  · rw [heq]

theorem Gas.copy_lt {len : Nat} (h : len < u64Size) : Gas.copy len < u64Size := by
  unfold Gas.copy wordsFor
  unfold u64Size at h ⊢
  omega

theorem Gas.keccak_lt {len : Nat} (h : len < 2 ^ 37) : Gas.keccak len < u64Size := by
  unfold Gas.keccak wordsFor u64Size
  omega

theorem Gas.initCode_lt {len : Nat} (h : len < 2 ^ 37) : Gas.initCode len < u64Size := by
  unfold Gas.initCode wordsFor u64Size
  omega

theorem Gas.log_lt {count len : Nat} (hcount : count ≤ 4) (h : len < 2 ^ 37) :
    Gas.log count len < u64Size := by
  unfold Gas.log u64Size
  omega

theorem Word.byteLength_le (w : Word) : w.byteLength ≤ 32 := by
  unfold Word.byteLength
  split
  · exact Nat.zero_le _
  · rename_i hw
    have hlog : w.toNat.log2 < 256 := (Nat.log2_lt (Word.toNat_ne_zero hw)).2 w.isLt
    omega

/-- The schedules of forks. -/
def Schedule.IsFork (schedule : Schedule) : Prop := ∃ rules : Rules, schedule = rules.schedule

namespace Schedule.IsFork

variable {schedule : Schedule}

theorem exp_lt (h : schedule.IsFork) (exponent : Word) : schedule.exp exponent < u64Size := by
  obtain ⟨rules, rfl⟩ := h
  have hbyte : rules.schedule.expByte ≤ 50 := by
    show (if rules.expensiveExp then 50 else 10) ≤ 50
    split <;> decide
  have hle := Nat.mul_le_mul hbyte exponent.byteLength_le
  exact Nat.lt_of_le_of_lt hle (by decide)

theorem coldSlotSurcharge_lt (h : schedule.IsFork) : schedule.coldSlotSurcharge < u64Size := by
  obtain ⟨rules, rfl⟩ := h
  show (if rules.accessLists then Gas.coldSlot - Gas.warmRead else 0) < u64Size
  split <;> decide

theorem coldAccountSurcharge_lt (h : schedule.IsFork) : schedule.coldAccountSurcharge < u64Size := by
  obtain ⟨rules, rfl⟩ := h
  show (if rules.accessLists then Gas.coldAccount - Gas.warmRead else 0) < u64Size
  split <;> decide

end Schedule.IsFork

/-- No write costs more than bringing a slot into being on its first use. -/
theorem Schedule.sstore_lt (schedule : Schedule) (initial current new : Word) (wasCold : Bool) :
    (schedule.sstore initial current new wasCold).gas < u64Size := by
  have hread := schedule.slotRead_le_sstoreSet
  have hreset : schedule.slotReset ≤ Gas.sstoreSet := by
    unfold Schedule.slotReset
    split <;> decide
  have hnet : (schedule.netWrite initial current new).gas ≤ Gas.sstoreSet := by
    unfold Schedule.netWrite
    split
    · exact hread
    · split
      · dsimp only
        split
        · exact Nat.le_refl _
        · exact hreset
      · exact hread
  unfold Schedule.sstore
  split
  · have hcold : (if wasCold && schedule.rules.accessLists then Gas.coldSlot else 0) ≤ Gas.coldSlot := by
      split
      · exact Nat.le_refl _
      · exact Nat.zero_le _
    exact Nat.lt_of_le_of_lt (Nat.add_le_add hnet hcold) (by decide)
  · dsimp only
    split <;> decide

/-! ## Operations -/

namespace Audit

/-- A condition that holds makes no difference. -/
theorem Passes.demand_bind (haudit : audit.Passes) {c : Prop} [Decidable c] (hc : c) (x : Exec σ α) :
    (audit.demand c >>= fun _ => x) = x := by
  rw [haudit c hc]
  rfl

section Operations

variable (haudit : audit.Passes) (hhost : s.host.KeepsBounds)
include haudit hhost

theorem charge_agrees {cost : Nat} (hcost : cost < u64Size) (hm : Secure limit g b h m) :
    Agrees m (Exec.charge cost) (audit.charge cost)
      (fun _ m' => cost ≤ g ∧ Secure limit (g - cost) b h m') s.Excuses := by
  refine ⟨congrFun (haudit.demand_bind hcost _) m, ?_⟩
  have ht : Typed s .looks b h h (Exec.charge cost) := .charge cost
  exact (hm.of_yields hhost ht (charge_holds cost hm.holds)).mono fun _ _ h => ⟨h.1.1, h.1.2, h.2⟩

/-- The same where it does not matter how much is left. -/
theorem pay_agrees {cost : Nat} (hcost : cost < u64Size) (hm : Secure limit g b h m) :
    Agrees m (Exec.charge cost) (audit.charge cost) (fun _ m' => Secure limit g b h m') s.Excuses :=
  (charge_agrees haudit hhost hcost hm).mono fun _ _ h => h.2.mono (Nat.sub_le ..) (Nat.le_refl b)

theorem giveBack_agrees (hlimit : limit < u64Size) {n : Nat} (hn : g + n ≤ limit)
    (hm : Secure limit g b h m) :
    Agrees m (Exec.giveBack n) (audit.giveBack n) (fun _ m' => Secure limit (g + n) b h m')
      s.Excuses := by
  have hsum : m.gas.remaining + n < u64Size := by
    have hremaining := hm.holds.remaining
    omega
  refine ⟨congrFun (haudit.demand_bind hsum _) m, ?_⟩
  have ht : Typed s .gives b h h (Exec.giveBack n) := .giveBack n rfl
  have hback := (Exec.giveBack_agrees Addition.u64_faithful hlimit hn hm.holds).2
  exact (hm.of_yields hhost ht hback).mono fun _ _ h => ⟨h.1, h.2⟩

theorem amount_agrees {n : Nat} (hn : n < u64Size) (hm : Secure limit g b h m) :
    Agrees m (Exec.amount n) (audit.amount n) (fun a m' => a = n ∧ Secure limit g b h m')
      s.Excuses := by
  refine ⟨congrFun (haudit.demand_bind hn _) m, ?_⟩
  have ht : Typed s .gives b h h (Exec.amount n) := .amount n rfl
  have hamount := (Exec.amount_agrees Addition.u64_faithful hn hm.holds).2
  exact (hm.of_yields hhost ht hamount).mono fun _ _ h => ⟨h.1.1, h.1.2, h.2⟩

omit hhost in
/-- A sound view can be measured wherever it may grow to. -/
theorem growth_bind (stop : Nat) (x : Exec σ α) (hm : Secure limit g b h m) :
    (audit.growth stop >>= fun _ => x) m = x m := by
  show ((if stop ≤ m.memory.limit then audit.demand (m.memory.Measurable stop) else pure ()) >>=
    fun _ => x) m = x m
  by_cases hle : stop ≤ m.memory.limit
  · rw [if_pos hle, haudit.demand_bind (hm.sound.measurable hm.base_le hle)]
  · rw [if_neg hle]
    rfl

omit haudit hhost in
/-- The range that there is room for is the one that was asked for. -/
theorem cover_isRange (offset len : Word) (m : Machine σ) :
    Yields (Exec.cover offset len m) (fun range _ => IsRange offset len range) fun _ => True := by
  cases hcover : Memory.cover offset len (m.memory, m.gas) with
  | error e t =>
      rw [cover_error hcover]
      trivial
  | ok range t =>
      rw [cover_ok hcover]
      exact Memory.isRange_of_cover_ok hcover

/-- Room for a range: afterwards the range can be used. -/
theorem cover_agrees (offset len : Word) (hm : Secure limit g b h m) :
    Agrees m (Exec.cover offset len) (audit.cover offset len)
      (fun range m' => ∃ b', b ≤ b' ∧ Within range b' ∧ IsRange offset len range ∧
        Secure limit g b' h m') s.Excuses := by
  constructor
  · unfold cover
    by_cases hlen : len = 0#256
    · rewrite [if_neg (not_not_intro hlen)]
      rfl
    · rw [if_pos hlen]
      exact growth_bind haudit _ _ hm
  · have ht : Typed s .looks b h h (Exec.cover offset len >>= pure) :=
      .cover offset len fun range _ _ _ _ => .pure range
    rw [bind_pure] at ht
    refine ((hm.of_yields hhost ht (cover_holds offset len hm.holds)).and
      (cover_isRange offset len m)).mono fun range m' h => ?_
    obtain ⟨⟨⟨b', hb, hr, hm'⟩, hbase⟩, hrange⟩ := h
    exact ⟨b', hb, hr, hrange, hm', hbase⟩

omit hhost in
/-- Room for `len` bytes at an offset: afterwards they can be used. -/
theorem growAt_agrees (offset : Word) (len : Nat) (hm : Secure limit g b h m) :
    Agrees m (Exec.growAt offset len) (audit.growAt offset len)
      (fun start m' => ∃ b', b ≤ b' ∧ start + len ≤ b' ∧ Secure limit g b' h m') s.Excuses := by
  refine ⟨growth_bind haudit _ _ hm, ?_⟩
  unfold Exec.growAt
  cases offset.toU64? with
  | none => exact s.excuses_fault _
  | some start =>
      cases hgrow : Memory.growTo start len (m.memory, m.gas) with
      | error e t =>
          dsimp only
          rw [Act.bind_error (growTo_error hgrow)]
          obtain ⟨f, rfl⟩ := hm.sound.growTo_error hgrow
          exact s.excuses_fault f
      | ok u t =>
          dsimp only
          rw [Act.bind_ok (growTo_ok hgrow)]
          have hgrown := Memory.of_growTo_ok hgrow
          obtain ⟨hend, hsize⟩ := Memory.size_of_grow_ok hgrown
          obtain ⟨cost, -, hcharge, -⟩ := Memory.of_grow_ok hgrown
          obtain ⟨-, hgas⟩ := Meter.of_charge? hcharge
          have hremaining : t.2.remaining ≤ g := by
            rw [hgas]
            exact Nat.le_trans (Nat.sub_le ..) hm.holds.remaining
          refine ⟨t.1.size, Nat.le_trans hm.le_size hsize, hend,
            ⟨?_, hremaining, hm.holds.height, ?_⟩, ?_⟩
          · exact (Meter.limit_of_grow_ok hgrown).trans hm.holds.limit
          · exact fun _ => ⟨hm.sound.grow_ok hgrown, Nat.le_refl _⟩
          · show t.1.base + 2 ^ 37 ≤ u64Size
            rw [(Memory.grow_sameBelow hgrown).base]
            exact hm.base_le

theorem read_agrees {offset len : Nat} (hle : offset + len ≤ b) (hm : Secure limit g b h m) :
    Agrees m (Exec.read offset len) (audit.read offset len) (fun _ m' => Secure limit g b h m')
      s.Excuses :=
  ⟨congrFun (haudit.demand_bind (hm.hasRange hle) _) m, (hm.same hhost (.read offset len hle)).2⟩

theorem readRange_agrees {range : Option (Nat × Nat)} (hr : Within range b)
    (hm : Secure limit g b h m) :
    Agrees m (Exec.readRange range) (audit.readRange range) (fun _ m' => Secure limit g b h m')
      s.Excuses := by
  cases range with
  | none => exact .of_yields hm
  | some r => exact read_agrees haudit hhost hr hm

theorem write_agrees {offset : Nat} {bytes : ByteArray} (hle : offset + bytes.size ≤ b)
    (hm : Secure limit g b h m) :
    Agrees m (Exec.write offset bytes) (audit.write offset bytes) (fun _ m' => Secure limit g b h m')
      s.Excuses :=
  ⟨congrFun (haudit.demand_bind (hm.hasRange hle) _) m, (hm.same hhost (.write offset bytes hle)).2⟩

theorem move_agrees {source target len : Nat} (hs : source + len ≤ b) (ht : target + len ≤ b)
    (hm : Secure limit g b h m) :
    Agrees m (Exec.move source target len) (audit.move source target len)
      (fun _ m' => Secure limit g b h m') s.Excuses :=
  ⟨congrFun (haudit.demand_bind ⟨hm.hasRange hs, hm.hasRange ht⟩ _) m,
    (hm.same hhost (.move source target len hs ht)).2⟩

omit hhost in
/-- Between clamped bounds there is a slice. -/
theorem padded_eq (data : ByteArray) (start len : Nat) :
    audit.padded data start len = pure (Bytes.paddedSlice data start len) := by
  have hslice : audit.slice data (min start data.size)
      (min start data.size + min (data.size - min start data.size) len) =
        pure (Bytes.slice data start len) :=
    haudit.demand_bind ⟨by omega, by omega⟩ _
  have hshort : (Bytes.slice data start len).size ≤ len := by
    rw [Bytes.size_slice]
    exact Nat.min_le_right ..
  unfold padded
  dsimp only
  rw [hslice, pure_bind, haudit.demand_bind hshort, Bytes.paddedSlice_eq_append]

theorem touch_agrees {surcharge : Nat} (hsurcharge : surcharge < u64Size) (access : Access)
    (hm : Secure limit g b h m) :
    Agrees m (Exec.touch s surcharge access) (audit.touch s surcharge access)
      (fun _ m' => Secure limit g b h m') s.Excuses := by
  unfold touch Exec.touch
  by_cases hpos : 0 < surcharge
  · rw [if_pos hpos, if_pos hpos]
    refine .bind (hm.same hhost (.ask _)) fun first m₁ hm₁ => ?_
    cases first with
    | true => exact pay_agrees haudit hhost hsurcharge hm₁
    | false => exact .of_yields hm₁
  · rw [if_neg hpos, if_neg hpos]
    exact .of_yields hm

/-- Room for the target of a copy. -/
theorem coverCopy_agrees (offset len : Word) (hm : Secure limit g b h m) :
    Agrees m (Exec.coverCopy offset len) (audit.coverCopy offset len)
      (fun range m' => ∃ b', b ≤ b' ∧ Within range b' ∧ IsRange offset len range ∧
        Secure limit g b' h m') s.Excuses := by
  unfold coverCopy Exec.coverCopy
  by_cases hlen : len = 0#256
  · rw [if_pos hlen, if_pos hlen]
    exact .of_yields ⟨b, Nat.le_refl b, trivial, .inl rfl, hm⟩
  · rw [if_neg hlen, if_neg hlen]
    cases hn : len.toU64? with
    | none => exact .of_yields (s.excuses_fault _)
    | some n =>
        have hlt : n < u64Size := by
          unfold Word.toU64? at hn
          split at hn
          · rw [← Option.some.inj hn]
            assumption
          · cases hn
        -- the price comes before the room, so it has to be in range for every 64-bit length
        refine .bind (pay_agrees haudit hhost (Gas.copy_lt hlt) hm) fun _ m₁ hm₁ => ?_
        exact cover_agrees haudit hhost offset len hm₁

end Operations

end Audit

end MeteredEvm
