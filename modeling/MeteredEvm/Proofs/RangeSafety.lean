import MeteredEvm.Proofs.AuditedOperations

/-!
# `MeteredEvm.Proofs.RangeSafety` — every index and every number is in range

Instructions use ranges of memory, slices of byte strings and 64-bit numbers without looking whether
they may. They may: in every state that a frame comes to, all conditions of the next instruction hold,
so that it makes no difference whether they are enforced. A range is used only after it has been made
part of the view, also where another range has been made part of it since or a child has run; a price
depends on a range only after the range has been made part of the view, or is a 64-bit number for every
64-bit length.

## Contents
* `Audit.keccak256_agrees`, … , `Audit.call_agrees`, `Audit.create_agrees` — effects.
* `Audit.exec_agrees`, `Audit.step_agrees` — instructions.
* `instructions_stay_in_range` — every state that a frame comes to.
-/

namespace MeteredEvm

open Exec

variable {σ : Type} {s : Setting σ} {audit : Audit σ} {limit g b h : Nat} {m : Machine σ}

namespace Audit

/-! ## Words, values and byte strings -/

section Effects

variable (haudit : audit.Passes) (hhost : s.host.KeepsBounds)
include haudit hhost

theorem exp_agrees (hs : s.schedule.IsFork) (hm : Secure limit g b (h + 2) m) :
    Agrees m (Effect.exp s) (audit.exp s) (fun _ m' => Secure limit g b (h + 1) m') s.Excuses := by
  refine .bind (hm.same hhost .pop) fun base m₁ hm₁ => ?_
  refine .bind (hm₁.same hhost (.peek 0 (by omega))) fun exponent m₂ hm₂ => ?_
  refine .bind (pay_agrees haudit hhost (hs.exp_lt exponent) hm₂) fun _ m₃ hm₃ => ?_
  exact hm₃.same hhost (.setTop _ (by omega))

omit haudit hhost in
/-- What lies in the view is no longer than the view. -/
theorem rangeSize_lt {range : Option (Nat × Nat)} (hr : Within range b) (hm : Secure limit g b h m) :
    rangeSize range < 2 ^ 37 := by
  have hlt := hm.lt
  cases range with
  | none =>
      show 0 < 2 ^ 37
      omega
  | some r =>
      have hr : r.1 + r.2 ≤ b := hr
      show r.2 < 2 ^ 37
      omega

theorem keccak256_agrees (hm : Secure limit g b (h + 2) m) :
    Agrees m Effect.keccak256 audit.keccak256 (fun _ m' => Secure limit g b (h + 1) m') s.Excuses := by
  refine .bind (hm.same hhost .pop) fun offset m₁ hm₁ => ?_
  refine .bind (hm₁.same hhost (.peek 0 (by omega))) fun len m₂ hm₂ => ?_
  refine .bind (cover_agrees haudit hhost offset len hm₂) fun range m₃ ⟨b', hb, hr, _, hm₃⟩ => ?_
  -- the range is part of the view by now, so it is short
  have hcost := Gas.keccak_lt (rangeSize_lt hr hm₃)
  refine .bind (pay_agrees haudit hhost hcost hm₃) fun _ m₄ hm₄ => ?_
  refine .bind (readRange_agrees haudit hhost hr hm₄) fun bytes m₅ hm₅ => ?_
  exact (hm₅.same hhost (.setTop _ (by omega))).shrink hb

theorem reading_agrees (pc : Nat) (r : Reading) (hh : h < stackLimit) (hm : Secure limit g b h m) :
    Agrees m (Effect.reading s pc r) (audit.reading s pc r) (fun _ m' => Secure limit g b (h + 1) m')
      s.Excuses := by
  refine ⟨?_, (hm.same hhost (Effect.reading_typed pc r hh)).2⟩
  show (audit.demand (r = .memorySize → m.memory.base ≤ m.memory.buffer.size) >>= fun _ =>
    Effect.reading s pc r) m = Effect.reading s pc r m
  rw [haudit.demand_bind fun _ => m.memory.base_le]

theorem account_agrees (hs : s.schedule.IsFork) (field : AccountField) (hh : h < stackLimit)
    (hm : Secure limit g b (h + 1) m) :
    Agrees m (Effect.account s field) (audit.account s field)
      (fun _ m' => Secure limit g b (h + 1) m') s.Excuses := by
  refine .bind (hm.same hhost popAddress_typed) fun a m₁ hm₁ => ?_
  refine .bind (touch_agrees haudit hhost hs.coldAccountSurcharge_lt _ hm₁) fun _ m₂ hm₂ => ?_
  refine .bind (hm₂.same hhost (Effect.accountField_typed a field)) fun w m₃ hm₃ => ?_
  exact hm₃.same hhost (.push w hh)

theorem callDataLoad_agrees (hm : Secure limit g b (h + 1) m) :
    Agrees m (Effect.callDataLoad s) (audit.callDataLoad s) (fun _ m' => Secure limit g b (h + 1) m')
      s.Excuses := by
  have heq : audit.callDataLoad s = Effect.callDataLoad s := by
    unfold callDataLoad
    simp only [padded_eq haudit]
    rfl
  rw [heq]
  exact hm.same hhost Effect.callDataLoad_typed

theorem copyPadded_agrees (data : ByteArray) (target source len : Word) (hm : Secure limit g b h m) :
    Agrees m (Effect.copyPadded data target source len) (audit.copyPadded data target source len)
      (fun _ m' => Secure limit g b h m') s.Excuses := by
  refine .bind (coverCopy_agrees haudit hhost target len hm) fun range m₁ ⟨b', hb, hr, _, hm₁⟩ => ?_
  cases range with
  | none => exact .of_yields (hm₁.mono (Nat.le_refl g) hb)
  | some r =>
      dsimp only
      rw [padded_eq haudit, pure_bind]
      have hsize := Bytes.size_paddedSlice data source.clampU64 r.2
      exact (write_agrees haudit hhost (by rw [hsize]; exact hr) hm₁).shrink hb

theorem copyWhole_agrees (data : ByteArray) (target source len : Word) (hm : Secure limit g b h m) :
    Agrees m (Effect.copyWhole data target source len) (audit.copyWhole data target source len)
      (fun _ m' => Secure limit g b h m') s.Excuses := by
  unfold Effect.copyWhole copyWhole
  cases hstop : source.add? len with
  | none => exact .of_yields (s.excuses_fault _)
  | some stop =>
      dsimp only
      split
      · exact .of_yields (s.excuses_fault _)
      · rename_i hle
        refine .bind (coverCopy_agrees haudit hhost target len hm)
          fun range m₃ ⟨b', hb, hr, hrange, hm₃⟩ => ?_
        obtain rfl | rfl := hrange
        · exact .of_yields (hm₃.mono (Nat.le_refl g) hb)
        · have hin := Effect.lowU64_add_le hstop hle
          obtain ⟨bytes, hbytes, hsize⟩ := Effect.range?_of_le hin
          dsimp only
          rw [haudit.demand_bind hin, hbytes]
          exact (write_agrees haudit hhost (by rw [hsize]; exact hr) hm₃).shrink hb

theorem copy_agrees (source : CopySource) (hm : Secure limit g b (h + 3) m) :
    Agrees m (Effect.copy s source) (audit.copy s source) (fun _ m' => Secure limit g b h m')
      s.Excuses := by
  refine .bind (hm.same hhost .pop) fun target m₁ hm₁ => .bind (hm₁.same hhost .pop)
    fun start m₂ hm₂ => .bind (hm₂.same hhost .pop) fun len m₃ hm₃ => ?_
  cases source with
  | callData => exact copyPadded_agrees haudit hhost s.input target start len hm₃
  | code => exact copyPadded_agrees haudit hhost s.code.code target start len hm₃
  | returnData =>
      refine .bind (P := fun m₄ m₅ => m₄ = m₃ ∧ m₅ = m₃) (.of_yields ⟨rfl, rfl⟩)
        fun m₄ m₅ ⟨h₄, h₅⟩ => ?_
      subst h₄ h₅
      exact copyWhole_agrees haudit hhost _ target start len hm₃

theorem extCodeCopy_agrees (hs : s.schedule.IsFork) (hm : Secure limit g b (h + 4) m) :
    Agrees m (Effect.extCodeCopy s) (audit.extCodeCopy s) (fun _ m' => Secure limit g b h m')
      s.Excuses := by
  refine .bind (hm.same hhost popAddress_typed) fun a m₁ hm₁ => .bind (hm₁.same hhost .pop)
    fun target m₂ hm₂ => .bind (hm₂.same hhost .pop) fun start m₃ hm₃ =>
    .bind (hm₃.same hhost .pop) fun len m₄ hm₄ => ?_
  refine .bind (touch_agrees haudit hhost hs.coldAccountSurcharge_lt _ hm₄) fun _ m₅ hm₅ => ?_
  refine .bind (coverCopy_agrees haudit hhost target len hm₅) fun range m₆ ⟨b', hb, hr, _, hm₆⟩ => ?_
  cases range with
  | none => exact .of_yields (hm₆.mono (Nat.le_refl g) hb)
  | some r =>
      refine .bind (hm₆.same hhost (.ask _)) fun code m₇ hm₇ => ?_
      rw [padded_eq haudit, pure_bind]
      have hsize := Bytes.size_paddedSlice code start.clampU64 r.2
      exact (write_agrees haudit hhost (by rw [hsize]; exact hr) hm₇).shrink hb

/-! ## Memory -/

theorem mload_agrees (hm : Secure limit g b (h + 1) m) :
    Agrees m Effect.mload audit.mload (fun _ m' => Secure limit g b (h + 1) m') s.Excuses := by
  refine .bind (hm.same hhost (.peek 0 (by omega))) fun offset m₁ hm₁ => ?_
  refine .bind (growAt_agrees haudit offset 32 hm₁) fun start m₂ ⟨b', hb, hle, hm₂⟩ => ?_
  refine .bind (read_agrees haudit hhost hle hm₂) fun bytes m₃ hm₃ => ?_
  exact (hm₃.same hhost (.setTop _ (by omega))).shrink hb

/-- A store of bytes, of which there are as many as room is made for. -/
theorem store_agrees {len : Nat} (bytes : Word → ByteArray) (hsize : ∀ w, (bytes w).size = len)
    (hm : Secure limit g b (h + 2) m) :
    Agrees m
      (do
        let offset ← pop
        let value ← pop
        let start ← Exec.growAt offset len
        Exec.write start (bytes value))
      (do
        let offset ← pop
        let value ← pop
        let start ← audit.growAt offset len
        audit.write start (bytes value))
      (fun _ m' => Secure limit g b h m') s.Excuses := by
  refine .bind (hm.same hhost .pop) fun offset m₁ hm₁ => .bind (hm₁.same hhost .pop)
    fun value m₂ hm₂ => ?_
  refine .bind (growAt_agrees haudit offset len hm₂) fun start m₃ ⟨b', hb, hle, hm₃⟩ => ?_
  exact (write_agrees haudit hhost (by rw [hsize]; exact hle) hm₃).shrink hb

theorem mcopy_agrees (hm : Secure limit g b (h + 3) m) :
    Agrees m Effect.mcopy audit.mcopy (fun _ m' => Secure limit g b h m') s.Excuses := by
  refine .bind (hm.same hhost .pop) fun target m₁ hm₁ => .bind (hm₁.same hhost .pop)
    fun source m₂ hm₂ => .bind (hm₂.same hhost .pop) fun len m₃ hm₃ => ?_
  refine .bind (coverCopy_agrees haudit hhost target len hm₃) fun range m₄ ⟨b', hb, hr, _, hm₄⟩ => ?_
  cases range with
  | none => exact .of_yields (hm₄.mono (Nat.le_refl g) hb)
  | some r =>
      -- making room for the source keeps the room for the target
      refine .bind (growAt_agrees haudit source r.2 hm₄) fun start m₅ ⟨b'', hb', hle, hm₅⟩ => ?_
      exact (move_agrees haudit hhost hle (Nat.le_trans hr hb') hm₅).shrink (Nat.le_trans hb hb')

/-! ## State -/

theorem sload_agrees (hs : s.schedule.IsFork) (hm : Secure limit g b (h + 1) m) :
    Agrees m (Effect.sload s) (audit.sload s) (fun _ m' => Secure limit g b (h + 1) m')
      s.Excuses := by
  refine .bind (hm.same hhost (.peek 0 (by omega))) fun key m₁ hm₁ => ?_
  refine .bind (touch_agrees haudit hhost hs.coldSlotSurcharge_lt _ hm₁) fun _ m₂ hm₂ => ?_
  refine .bind (hm₂.same hhost (.ask _)) fun w m₃ hm₃ => ?_
  exact hm₃.same hhost (.setTop w (by omega))

theorem sstore_agrees (hm : Secure limit g b (h + 2) m) :
    Agrees m (Effect.sstore s) (audit.sstore s) (fun _ m' => Secure limit g b h m') s.Excuses := by
  refine .bind (hm.same hhost .pop) fun key m₁ hm₁ => .bind (hm₁.same hhost .pop)
    fun value m₂ hm₂ => ?_
  refine .bind (hm₂.same hhost (Effect.requireSentry_typed (by decide))) fun _ m₃ hm₃ => ?_
  refine .bind (hm₃.same hhost (Effect.slotWasCold_typed key)) fun wasCold m₄ hm₄ => ?_
  refine .bind (hm₄.same hhost (.ask _)) fun current m₅ hm₅ => ?_
  refine .bind (hm₅.same hhost (Effect.initialValue_typed key current)) fun initial m₆ hm₆ => ?_
  rw [haudit.demand_bind ⟨s.schedule.slotRead_le_slotReset, s.schedule.slotRead_le_sstoreSet⟩]
  have hcost := s.schedule.sstore_lt initial current value wasCold
  refine .bind (pay_agrees haudit hhost hcost hm₆) fun _ m₇ hm₇ => ?_
  refine .bind (hm₇.same hhost (.refund _)) fun _ m₈ hm₈ => ?_
  exact hm₈.same hhost (.ask _)

theorem log_agrees {count : Nat} (hcount : count ≤ 4) (hm : Secure limit g b (h + (count + 2)) m) :
    Agrees m (Effect.log s count) (audit.log s count) (fun _ m' => Secure limit g b h m')
      s.Excuses := by
  refine .bind (hm.same hhost .pop) fun offset m₁ hm₁ => .bind (hm₁.same hhost .pop)
    fun len m₂ hm₂ => .bind (hm₂.same hhost (popMany_typed count)) fun topics m₃ hm₃ => ?_
  refine .bind (cover_agrees haudit hhost offset len hm₃) fun range m₄ ⟨b', hb, hr, _, hm₄⟩ => ?_
  have hcost := Gas.log_lt hcount (rangeSize_lt hr hm₄)
  refine .bind (pay_agrees haudit hhost hcost hm₄) fun _ m₅ hm₅ => ?_
  refine .bind (readRange_agrees haudit hhost hr hm₅) fun data m₆ hm₆ => ?_
  exact (hm₆.same hhost (.ask _)).shrink hb

theorem payForBeneficiary_agrees (a : Address) (hm : Secure limit g b h m) :
    Agrees m (Effect.payForBeneficiary s a) (audit.payForBeneficiary s a)
      (fun _ m' => Secure limit g b h m') s.Excuses := by
  unfold payForBeneficiary Effect.payForBeneficiary
  split
  · refine .bind (hm.same hhost Effect.sendsBalance_typed) fun sends m₁ hm₁ => ?_
    cases sends with
    | false => exact .of_yields hm₁
    | true =>
        refine .bind (hm₁.same hhost (.ask _)) fun empty m₂ hm₂ => ?_
        cases empty with
        | false => exact .of_yields hm₂
        | true => exact pay_agrees haudit hhost (by decide) hm₂
  · exact .of_yields hm

theorem selfDestruct_agrees (hm : Secure limit g b (h + 1) m) :
    Agrees m (Effect.selfDestruct s) (audit.selfDestruct s) (fun _ m' => Secure limit g b h m')
      s.Excuses := by
  have hsurcharge : (if s.schedule.rules.accessLists then Gas.coldAccount else 0) < u64Size := by
    split <;> decide
  refine .bind (hm.same hhost popAddress_typed) fun a m₁ hm₁ => ?_
  refine .bind (touch_agrees haudit hhost hsurcharge _ hm₁) fun _ m₂ hm₂ => ?_
  refine .bind (payForBeneficiary_agrees haudit hhost a hm₂) fun _ m₃ hm₃ => ?_
  refine .bind (hm₃.same hhost (.ask _)) fun first m₄ hm₄ => ?_
  split
  · exact hm₄.same hhost (.refund _)
  · exact .of_yields hm₄

/-! ## Gas and ends -/

theorem gas_agrees (hlimit : limit < u64Size) {correction : Nat} (hle : g + correction ≤ limit)
    (hh : h < stackLimit) (hm : Secure limit g b h m) :
    Agrees m (Effect.gas correction) (audit.gas correction) (fun _ m' => Secure limit g b (h + 1) m')
      s.Excuses := by
  refine .bind (P := fun left m' => left ≤ g ∧ m' = m) (.of_yields ⟨hm.holds.remaining, rfl⟩)
    fun left m₁ ⟨hleft, hsame⟩ => ?_
  subst hsame
  refine .bind (amount_agrees haudit hhost (by omega) hm) fun _ m₂ hm₂ => ?_
  exact hm₂.2.same hhost (.push _ hh)

/-- An effect that sees the whole meter. -/
theorem observing_agrees (hlimit : limit < u64Size) {correction h' : Nat}
    {effect effect' : Exec σ Unit} (hle : g + correction ≤ limit)
    (heffect : ∀ {m : Machine σ}, Secure limit (g + correction) b h m →
      Agrees m effect effect' (fun _ m' => Secure limit (g + correction) b h' m') s.Excuses)
    (hm : Secure limit g b h m) :
    Agrees m (Effect.observing correction effect) (audit.observing correction effect')
      (fun _ m' => Secure limit g b h' m') s.Excuses := by
  refine .bind (giveBack_agrees haudit hhost hlimit hle hm) fun _ m₁ hm₁ => ?_
  refine .bind (heffect hm₁) fun _ m₂ hm₂ => ?_
  refine (charge_agrees haudit hhost (by omega) hm₂).mono fun _ m₃ hm₃ => ?_
  exact hm₃.2.mono (by omega) (Nat.le_refl b)

theorem output_agrees (hm : Secure limit g b (h + 2) m) :
    Agrees m Effect.output audit.output (fun _ m' => Secure limit g b h m') s.Excuses := by
  refine .bind (hm.same hhost .pop) fun offset m₁ hm₁ => .bind (hm₁.same hhost .pop)
    fun len m₂ hm₂ => ?_
  refine .bind (cover_agrees haudit hhost offset len hm₂) fun range m₃ ⟨b', hb, hr, _, hm₃⟩ => ?_
  exact (readRange_agrees haudit hhost hr hm₃).shrink hb

theorem ret_agrees (hm : Secure limit g b (h + 2) m) :
    Agrees m (Effect.ret s) (audit.ret s) (fun _ m' => Secure limit g b h m') s.Excuses :=
  .bind (hm.same hhost Effect.checkCodeSize_typed) fun _ _ hm₁ => output_agrees haudit hhost hm₁

/-! ## Calls and creations -/

theorem payForValue_agrees (value : Word) (hm : Secure limit g b h m) :
    Agrees m (Effect.payForValue value) (audit.payForValue value)
      (fun _ m' => ∃ g', g' + Effect.stipend value ≤ g ∧ Secure limit g' b h m') s.Excuses := by
  constructor
  · unfold payForValue Effect.payForValue
    split
    · exact congrFun (haudit.demand_bind (by decide) _) m
    · rfl
  · have ht : Typed s .looks b h h (Effect.payForValue value) := Effect.payForValue_typed value
    refine (hm.of_yields hhost ht (Effect.payForValue_holds value hm.holds)).mono fun _ m' h => ?_
    obtain ⟨⟨g', hpaid, hm'⟩, hbase⟩ := h
    exact ⟨g', hpaid, hm', hbase⟩

theorem payForNewAccount_agrees (op : CallOp) (o : Effect.CallOperands) (hm : Secure limit g b h m) :
    Agrees m (Effect.payForNewAccount s op o) (audit.payForNewAccount s op o)
      (fun _ m' => Secure limit g b h m') s.Excuses := by
  unfold payForNewAccount Effect.payForNewAccount
  split
  · refine .bind (hm.same hhost (.ask _)) fun empty m₁ hm₁ => ?_
    cases empty with
    | false => exact .of_yields hm₁
    | true => exact pay_agrees haudit hhost (by decide) hm₁
  · exact .of_yields hm

theorem payForCall_agrees (hs : s.schedule.IsFork) (op : CallOp) (o : Effect.CallOperands)
    (hm : Secure limit g b h m) :
    Agrees m (Effect.payForCall s op o) (audit.payForCall s op o)
      (fun _ m' => ∃ g', g' + Effect.stipend o.value ≤ g ∧ Secure limit g' b h m') s.Excuses := by
  refine .bind (touch_agrees haudit hhost hs.coldAccountSurcharge_lt _ hm) fun _ m₁ hm₁ => ?_
  refine .bind (payForValue_agrees haudit hhost o.value hm₁) fun _ m₂ ⟨g', hpaid, hm₂⟩ => ?_
  exact (payForNewAccount_agrees haudit hhost op o hm₂).mono fun _ _ hm₃ => ⟨g', hpaid, hm₃⟩

theorem storeOutput_agrees {range : Option (Nat × Nat)} (bytes : ByteArray) (hr : Within range b)
    (hm : Secure limit g b h m) :
    Agrees m (Effect.storeOutput range bytes) (audit.storeOutput range bytes)
      (fun _ m' => Secure limit g b h m') s.Excuses := by
  cases range with
  | none => exact .of_yields hm
  | some r =>
      have hslice : audit.slice bytes 0 (min r.2 bytes.size) = pure _ :=
        haudit.demand_bind ⟨Nat.zero_le _, Nat.min_le_right ..⟩ _
      have hle : r.1 + (bytes.extract 0 (min r.2 bytes.size)).size ≤ b := by
        have hr : r.1 + r.2 ≤ b := hr
        rw [ByteArray.size_extract]
        omega
      unfold storeOutput
      dsimp only
      rw [hslice, pure_bind]
      exact write_agrees haudit hhost hle hm

omit haudit in
/-- A child gives back no more than it was given, and leaves the view where it is. If it traps, that is
    its own doing. -/
theorem child_secure (hhonest : s.Honest) {req : CallRequest} (hreq : s.Issues req)
    (hgas : req.gas < u64Size) (hm : Secure limit g b h m) :
    Yields (Exec.call s req m) (fun result m' => result.gasLeft ≤ req.gas ∧ Secure limit g b h m')
      s.Excuses := by
  unfold Exec.call
  cases hcall : s.host.call req m.memory m.host with
  | error t =>
      intro t' ht
      cases ht
      exact ⟨req, m.memory, m.host, hcall⟩
  | ok r =>
      obtain ⟨hbase, hbuffer, hlimit⟩ := hhost hm.sound hcall
      obtain ⟨hsound, hsize⟩ := hm.sound.of_bounds hbase hbuffer hlimit
      refine ⟨hhonest hreq hgas hcall,
        ⟨hm.holds.limit, hm.holds.remaining, hm.holds.height, fun _ => ⟨hsound, ?_⟩⟩, ?_⟩
      · show b ≤ r.2.1.size
        rw [hsize]
        exact hm.le_size
      · show r.2.1.base + 2 ^ 37 ≤ u64Size
        rw [hbase]
        exact hm.base_le

/-- The child of a call: its gas and what comes for free with value are a 64-bit amount, and its output
    goes where room was made before it ran. -/
theorem runCall_agrees (hhonest : s.Honest) (hlimit : limit < u64Size) {g' childGas : Nat} {op : CallOp}
    {o : Effect.CallOperands} {input output : Option (Nat × Nat)}
    (hdepth : s.context.depth < s.maxCallDepth) (hi : Within input b) (ho : Within output b)
    (hh : h < stackLimit) (hpaid : g' + Effect.stipend o.value ≤ g) (hg : g ≤ limit)
    (hchild : childGas ≤ g') (hm : Secure limit g' b h m) :
    Agrees m (Effect.runCall s op o input output childGas)
      (audit.runCall s op o input output childGas) (fun _ m' => Secure limit g b (h + 1) m')
      s.Excuses := by
  refine .bind (charge_agrees haudit hhost (by omega) hm) fun _ m₁ ⟨_, hm₁⟩ => ?_
  refine .bind (readRange_agrees haudit hhost hi hm₁) fun data m₂ hm₂ => ?_
  refine .bind (amount_agrees haudit hhost (by omega) hm₂) fun gas m₃ ⟨hgas, hm₃⟩ => ?_
  refine .bind (.of_yields (child_secure hhost hhonest (.call op o data gas hdepth) ?_ hm₃))
    fun result m₄ ⟨hleft, hm₄⟩ => ?_
  · show gas < u64Size
    omega
  -- what comes back was taken out before, or paid for with the value
  have hleft : result.gasLeft ≤ gas := hleft
  refine .bind (giveBack_agrees haudit hhost hlimit (by omega) hm₄) fun _ m₅ hm₅ => ?_
  refine .bind (storeOutput_agrees haudit hhost _ ho hm₅) fun _ m₆ hm₆ => ?_
  refine .bind (hm₆.same hhost (.setReturnData _)) fun _ m₇ hm₇ => ?_
  refine (hm₇.same hhost (.push _ hh)).mono fun _ m₈ hm₈ => ?_
  exact hm₈.mono (by omega) (Nat.le_refl b)

theorem skipCall_agrees (hlimit : limit < u64Size) {g' : Nat} {value : Word} (hh : h < stackLimit)
    (hpaid : g' + Effect.stipend value ≤ g) (hg : g ≤ limit) (hm : Secure limit g' b h m) :
    Agrees m (Effect.skipCall value) (audit.skipCall value) (fun _ m' => Secure limit g b (h + 1) m')
      s.Excuses := by
  refine .bind (giveBack_agrees haudit hhost hlimit (by omega) hm) fun _ m₁ hm₁ => ?_
  refine (hm₁.same hhost (.push _ hh)).mono fun _ m₂ hm₂ => ?_
  exact hm₂.mono hpaid (Nat.le_refl b)

/-- **A call.** Both ranges are made part of the view before anything else is done with either. -/
theorem call_agrees (hs : s.schedule.IsFork) (hhonest : s.Honest) (hlimit : limit < u64Size)
    (op : CallOp) (hh : h < stackLimit) (hg : g ≤ limit)
    (hm : Secure limit g b (h + (Op.call op).inputs) m) :
    Agrees m (Effect.call s op) (audit.call s op) (fun _ m' => Secure limit g b (h + 1) m')
      s.Excuses := by
  have hm : Secure limit g b (h + Effect.callInputs op) m := by cases op <;> exact hm
  refine .bind (hm.same hhost (Effect.popCallOperands_typed op)) fun o m₁ hm₁ => ?_
  refine .bind (cover_agrees haudit hhost _ _ hm₁) fun input m₂ ⟨b₁, hb₁, hi, _, hm₂⟩ => ?_
  refine .bind (cover_agrees haudit hhost _ _ hm₂) fun output m₃ ⟨b₂, hb₂, ho, _, hm₃⟩ => ?_
  refine .bind (payForCall_agrees haudit hhost hs op o hm₃) fun _ m₄ ⟨g', hpaid, hm₄⟩ => ?_
  have hforwarded := hm₄.of_yields hhost (Effect.forwarded_typed (v := .looks) (h := h) (b := b₂)
    (by decide) o.requested) (Effect.forwarded_holds o.requested hm₄.holds)
  refine .bind (.of_yields hforwarded) fun childGas m₅ ⟨⟨hchild, hm₅⟩, hbase⟩ => ?_
  have hm₅ : Secure limit g' b₂ h m₅ := ⟨hm₅, hbase⟩
  refine .bind (hm₅.same hhost (.setReturnData _)) fun _ m₆ hm₆ => ?_
  have hb : b ≤ b₂ := Nat.le_trans hb₁ hb₂
  split
  · exact (skipCall_agrees haudit hhost hlimit hh hpaid hg hm₆).shrink hb
  · exact (runCall_agrees haudit hhost hhonest hlimit (by omega) (hi.mono hb₂) ho hh hpaid hg hchild
      hm₆).shrink hb

theorem runCreate_agrees (hhonest : s.Honest) (hlimit : limit < u64Size) {kind : CallKind} {value : Word}
    {range : Option (Nat × Nat)} (hkind : kind.isCreate = true)
    (hdepth : s.context.depth < s.maxCallDepth) (hr : Within range b) (hh : h < stackLimit)
    (hg : g ≤ limit) (hm : Secure limit g b h m) :
    Agrees m (Effect.runCreate s kind value range) (audit.runCreate s kind value range)
      (fun _ m' => Secure limit g b (h + 1) m') s.Excuses := by
  refine .bind (P := fun left m' => left ≤ g ∧ m' = m) (.of_yields ⟨hm.holds.remaining, rfl⟩)
    fun left m₁ ⟨hleft, hsame⟩ => ?_
  subst hsame
  have hchild := Effect.createGas_le s.schedule.rules left
  dsimp only
  refine .bind (charge_agrees haudit hhost (by omega) hm) fun _ m₂ ⟨hle, hm₂⟩ => ?_
  refine .bind (readRange_agrees haudit hhost hr hm₂) fun initCode m₃ hm₃ => ?_
  refine .bind (.of_yields (child_secure hhost hhonest (.create kind value initCode _ hkind hdepth)
    (Nat.lt_of_le_of_lt hchild (by omega)) hm₃)) fun result m₄ ⟨hback, hm₄⟩ => ?_
  have hback : result.gasLeft ≤ Effect.createGas s.schedule.rules left := hback
  refine .bind (giveBack_agrees haudit hhost hlimit (by omega) hm₄) fun _ m₅ hm₅ => ?_
  refine .bind (hm₅.same hhost (Effect.keepFailure_typed result)) fun _ m₆ hm₆ => ?_
  refine (hm₆.same hhost (.push _ hh)).mono fun _ m₇ hm₇ => ?_
  exact hm₇.mono (by omega) (Nat.le_refl b)

omit haudit hhost in
theorem initCodeCost_lt (rules : Rules) (salted : Bool) {size : Nat} (h : size < 2 ^ 37) :
    (Effect.initCodeCost rules salted size).1 < u64Size ∧
      (Effect.initCodeCost rules salted size).2 < u64Size := by
  unfold Effect.initCodeCost
  refine ⟨?_, ?_⟩
  · dsimp only
    split
    · exact Gas.initCode_lt h
    · decide
  · dsimp only
    split
    · exact Gas.keccak_lt h
    · decide

/-- **A creation.** -/
theorem create_agrees (hhonest : s.Honest) (hlimit : limit < u64Size) (salted : Bool)
    (hh : h < stackLimit) (hg : g ≤ limit)
    (hm : Secure limit g b (h + (Op.create salted).inputs) m) :
    Agrees m (Effect.create s salted) (audit.create s salted)
      (fun _ m' => Secure limit g b (h + 1) m') s.Excuses := by
  have hm : Secure limit g b (h + (if salted then 1 else 0) + 3) m := by
    cases salted <;> exact hm
  refine .bind (hm.same hhost .pop) fun value m₁ hm₁ => .bind (hm₁.same hhost .pop)
    fun offset m₂ hm₂ => .bind (hm₂.same hhost .pop) fun len m₃ hm₃ => ?_
  have hkinds : Yields (Effect.popCreateKind salted m₃)
      (fun kind m' => kind.isCreate = true ∧ Secure limit g b h m') s.Excuses := by
    cases salted with
    | false => exact ⟨rfl, hm₃⟩
    | true => exact .bind (hm₃.same hhost .pop).2 fun salt m' hm' => ⟨rfl, hm'⟩
  refine .bind (.of_yields hkinds) fun kind m₄ ⟨hkind, hm₄⟩ => ?_
  refine .bind (hm₄.same hhost (Effect.checkInitCode_typed len)) fun _ m₅ hm₅ => ?_
  refine .bind (cover_agrees haudit hhost _ _ hm₅) fun range m₆ ⟨b', hb, hr, _, hm₆⟩ => ?_
  have hcost := initCodeCost_lt s.schedule.rules salted (rangeSize_lt hr hm₆)
  refine .bind (pay_agrees haudit hhost hcost.1 hm₆) fun _ m₇ hm₇ => ?_
  refine .bind (pay_agrees haudit hhost hcost.2 hm₇) fun _ m₈ hm₈ => ?_
  refine .bind (hm₈.same hhost (.setReturnData _)) fun _ m₉ hm₉ => ?_
  split
  · exact (hm₉.same hhost (.push _ hh)).shrink hb
  · exact (runCreate_agrees haudit hhost hhonest hlimit hkind (by omega) hr hh hg hm₉).shrink hb

end Effects

/-! ## All instructions -/

/-- **The conditions of an instruction hold**, with its inputs on the stack and room for its outputs. -/
theorem exec_agrees (haudit : audit.Passes) (hhost : s.host.KeepsBounds) (hs : s.schedule.IsFork)
    (hhonest : s.Honest) (hlimit : limit < u64Size) {ins : Instruction} {op : Op}
    (hop : op ≠ .jumpDest) (hroom : h + op.outputs ≤ stackLimit) (hle : g + ins.correction ≤ limit)
    (hm : Secure limit g b (h + op.inputs) m) :
    Agrees m (op.exec s ins) (audit.exec s ins op) (fun _ m' => Secure limit g b (h + op.outputs) m')
      s.Excuses := by
  cases op with
  | exp => exact andNext_agrees (exp_agrees haudit hhost hs hm)
  | keccak256 => exact andNext_agrees (keccak256_agrees haudit hhost hm)
  | reading r => exact andNext_agrees (reading_agrees haudit hhost ins.pc r hroom hm)
  | account field => exact andNext_agrees (account_agrees haudit hhost hs field hroom hm)
  | callDataLoad => exact andNext_agrees (callDataLoad_agrees haudit hhost hm)
  | copy source => exact andNext_agrees (copy_agrees haudit hhost source hm)
  | extCodeCopy => exact andNext_agrees (extCodeCopy_agrees haudit hhost hs hm)
  | mload => exact andNext_agrees (mload_agrees haudit hhost hm)
  | mstore => exact andNext_agrees (store_agrees haudit hhost Bytes.ofWord
      (fun w => Effect.size_ofNat 32 w.toNat) hm)
  | mstore8 => exact andNext_agrees (store_agrees haudit hhost (Bytes.ofNat 1 ·.toNat)
      (fun w => Effect.size_ofNat 1 w.toNat) hm)
  | mcopy => exact andNext_agrees (mcopy_agrees haudit hhost hm)
  | sload => exact andNext_agrees (sload_agrees haudit hhost hs hm)
  | sstore =>
      exact andNext_agrees (observing_agrees haudit hhost hlimit hle (sstore_agrees haudit hhost) hm)
  | gas => exact andNext_agrees (gas_agrees haudit hhost hlimit hle hroom hm)
  | log n => exact andNext_agrees (log_agrees haudit hhost (by omega) hm)
  | create salted =>
      exact andNext_agrees (observing_agrees haudit hhost hlimit hle
        (create_agrees haudit hhost hhonest hlimit salted hroom hle) hm)
  | call kind =>
      exact andNext_agrees (observing_agrees haudit hhost hlimit hle
        (call_agrees haudit hhost hs hhonest hlimit kind hroom hle) hm)
  | ret => exact .bind (ret_agrees haudit hhost hm) fun _ _ hm' => .of_yields hm'
  | revert => exact .bind (output_agrees haudit hhost hm) fun _ _ hm' => .of_yields hm'
  | selfDestruct => exact .bind (selfDestruct_agrees haudit hhost hm) fun _ _ hm' => .of_yields hm'
  | jumpDest => exact absurd rfl hop
  -- the rest has no conditions and hands nothing back
  | _ => exact hm.same_of hhost (Op.exec_typed ins hop hroom) (fun hv => by cases hv)

/-- The entry of a block fails by a fault only. -/
theorem enterBlock_excuses (arg : Arg) (m : Machine σ) :
    Yields ((Effect.enterBlock arg : Exec σ Unit) m) (fun _ _ => True) s.Excuses := by
  cases arg with
  | block cost =>
      refine .bind (P := fun _ _ => True) ?_ fun _ m₁ _ => ?_
      · unfold Exec.charge
        cases m.gas.charge? cost.gas with
        | none => exact s.excuses_fault _
        | some gas => trivial
      · show Yields ((if m₁.stack.height < cost.required then fault .stackUnderflow
          else if stackLimit < m₁.stack.height + cost.growth then fault .stackOverflow
          else pure () : Exec σ Unit) m₁) _ _
        split
        · exact s.excuses_fault _
        · split
          · exact s.excuses_fault _
          · trivial
  | _ => trivial

/-- **The conditions of every instruction of the stream hold.** -/
theorem step_agrees (haudit : audit.Passes) (hhost : s.host.KeepsBounds) (hs : s.schedule.IsFork)
    (hhonest : s.Honest) (hlimit : limit < u64Size) {is : InstructionSet} {code : ByteArray} {r c : Nat}
    {ins : Instruction} (guarded : Bool) (hcode : s.code = analyze is code)
    (hsolvent : Solvent False is code limit r c m) (hsound : m.memory.Sound)
    (hbase : m.memory.base + 2 ^ 37 ≤ u64Size) (hins : s.code.instructions[c]? = some ins) :
    Agrees m (MeteredEvm.step s guarded ins) (audit.step s guarded ins) (fun _ _ => True)
      s.Excuses := by
  unfold step MeteredEvm.step
  cases hop : ins.op with
  | none => exact .of_yields (s.excuses_fault _)
  | some op =>
      -- the entry of a block has no conditions, and fails by a fault if it fails
      by_cases hne : op = .jumpDest
      · subst hne
        have hcheck : Yields (checkStatic guarded .jumpDest m) (fun _ _ => True) s.Excuses := by
          rw [checkStatic_eq]
          split
          · exact s.excuses_fault _
          · trivial
        exact .bind (.of_yields hcheck) fun _ m₁ _ =>
          .of_yields (.bind (enterBlock_excuses ins.arg m₁) fun _ _ _ => trivial)
      · obtain ⟨g, h₀, hm, hroom, hle⟩ := hsolvent.inner hcode hins hop hne
        have hm : Secure limit g 0 (h₀ + op.inputs) m :=
          ⟨⟨hm.limit, hm.remaining, hm.height, fun _ => ⟨hsound, Nat.zero_le _⟩⟩, hbase⟩
        refine .bind (hm.same hhost (checkStatic_typed guarded op)) fun _ m₁ hm₁ => ?_
        exact (exec_agrees haudit hhost hs hhonest hlimit hne hroom hle hm₁).mono fun _ _ _ => trivial

end Audit

/-! ## Runs -/

/-- **Every index and every number is in range.** Take any state that the run of a new frame `Reaches`,
    on a host whose children give back no more gas than they were given (`Honest`) and leave the view
    of their caller where it is (`KeepsBounds`); the limit of the view is one that its prices allow
    for, and the buffer leaves 64-bit room for the view. There all conditions of the next instruction
    hold: if each of them is enforced (`Audit.enforced`), whatever the failure would be, the
    instruction does what it does without them (`Audit.waived`). In particular it does not trap,
    unless inside a child. -/
theorem instructions_stay_in_range {host : Host σ} (hhost : host.Honest) (hbounds : host.KeepsBounds)
    (config : Config) (context : CallContext) (input : ByteArray) {gasLimit : Nat}
    (hgas : gasLimit < u64Size) (code : ByteArray) {memory : Memory}
    (hmemory : memory.limit ≤ Memory.pricedLimit) (hbuffer : memory.buffer.size + 2 ^ 37 ≤ u64Size)
    (state : σ) (guarded : Bool) {c : Nat} {m : Machine σ} {ins : Instruction}
    (hreach : let f := Frame.fresh config context input gasLimit code
      Reaches (turn (f.setting config host) guarded) f.cursor (f.machine memory.enter state) c m)
    (hins : (analyze (.ofFork config.fork) code).instructions[c]? = some ins) :
    let s := (Frame.fresh config context input gasLimit code).setting config host
    Audit.waived.step s guarded ins = step s guarded ins ∧
      (∀ e, (Audit.enforced e).step s guarded ins m = step s guarded ins m) ∧
      ∀ t m', step s guarded ins m = .error (.trap t) m' →
        ∃ req memory state, host.call req memory state = .error t := by
  intro s
  obtain ⟨⟨r, hsolvent⟩, hnudges⟩ := Frame.reaches_solvent (hhost.setting _ config) hgas hreach
  obtain ⟨hsound, hbase⟩ := hnudges.keepsBounds hbounds (Memory.enter_sound hmemory)
  have hbase : m.memory.base + 2 ^ 37 ≤ u64Size := by
    rw [hbase]
    exact hbuffer
  have hagrees {audit : Audit σ} (haudit : audit.Passes) :
      Agrees m (step s guarded ins) (audit.step s guarded ins) (fun _ _ => True) s.Excuses :=
    Audit.step_agrees haudit hbounds ⟨_, rfl⟩ (hhost.setting _ config) hgas guarded rfl hsolvent hsound
      hbase hins
  refine ⟨Audit.waived_step s guarded ins, fun e => (hagrees (Audit.enforced_passes e)).1, ?_⟩
  intro t m' hstep
  exact (hagrees (Audit.enforced_passes (.trap t))).2.of_error hstep t rfl

/-- A copy of 32 bytes of call data to offset 3, from an offset that is no 64-bit number. -/
def copyFromAfar : ByteArray :=
  ⟨#[0x60, 0x20, 0x7f] ++ Array.replicate 32 0xff ++ #[0x60, 0x03, 0x37]⟩

/-- The frame of `copyFromAfar` has come to its copy, and the conditions of the copy hold. -/
theorem instructions_stay_in_range_copyFromAfar :
    let frame := Frame.fresh {} {} ⟨#[1, 2, 3]⟩ 100000 copyFromAfar
    let s := frame.setting {} (({} : Chain).hostAt 0)
    ∃ m ins,
      Reaches (turn s false) 0 (frame.machine (Memory.new Memory.pricedLimit).enter {}) 4 m ∧
      s.code.instructions[4]? = some ins ∧ ins.op = some (.copy .callData) ∧
      ∀ e, (Audit.enforced e).step s false ins m = step s false ins m := by
  intro frame s
  have hplace : (advance (turn s false) 0
      (frame.machine (Memory.new Memory.pricedLimit).enter {}) 4).map Prod.fst = some 4 := by
    decide +kernel
  have hop : (s.code.instructions[4]?.bind (·.op)) = some (.copy .callData) := by
    decide +kernel
  obtain ⟨⟨c, m⟩, hadvance, rfl⟩ := Option.map_eq_some_iff.1 hplace
  obtain ⟨ins, hins, hcopy⟩ := Option.bind_eq_some_iff.1 hop
  have hreach := reaches_of_advance hadvance
  have hrange := instructions_stay_in_range (Chain.hostAt_honest {} 0)
    (Chain.hostAt_keepsMemory {} 0).keepsBounds {} {} ⟨#[1, 2, 3]⟩ (by decide) copyFromAfar
    (Nat.le_refl _)
    (by decide) {} false hreach hins
  exact ⟨m, ins, hreach, hins, hcopy, hrange.2.1⟩

end MeteredEvm
