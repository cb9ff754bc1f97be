import MeteredEvm.Step
import MeteredEvm.Proofs.Typing

/-!
# `MeteredEvm.Proofs.Effects` — what the instructions do to the stack

One derivation of `Typed` for every effect, from the primitives up. The heights in a derivation are
those that the instruction set declares (`Op.exec_typed`), so that the table and the effects agree.

## Contents
* `Exec.popMany_typed`, `Exec.touch_typed`, … — the compound operations of a machine.
* `Effect.unary_typed`, … , `Effect.call_typed` — the effects.
* `Op.sight`, `Op.exec_typed`, `step_typed` — all instructions.
-/

namespace MeteredEvm

variable {σ α : Type} {s : Setting σ} {v : Sight} {b h h' : Nat}

/-! ## Compound operations -/

namespace Exec

theorem fault_bind (f : Fault) (g : α → Exec σ β) : (fault f >>= g) = fault f := rfl

theorem popAddress_typed : Typed s v b (h + 1) h (popAddress : Exec σ Address) :=
  .bind .pop fun w => .pure w.toAddress

/-- Taking `n` words takes `n` words. -/
theorem popMany_typed (n : Nat) : Typed s v b (h + n) h (popMany n : Exec σ (List Word)) := by
  induction n with
  | zero => exact .pure []
  | succ n ih => exact .bind .pop fun w => .bind ih fun ws => .pure (w :: ws)

theorem remaining_typed (hv : v ≠ .blind) : Typed s v b h h (remaining : Exec σ Nat) :=
  .look (fun m => .pure m.gas.remaining) fun hb => absurd hb hv

theorem environment_typed : Typed s v b h h (environment s) := .ask _

theorem readRange_typed {range : Option (Nat × Nat)} (hr : Within range b) :
    Typed s v b h h (readRange range : Exec σ ByteArray) := by
  cases range with
  | none => exact .pure ByteArray.empty
  | some r => exact .read r.1 r.2 hr

/-- Room for `len` bytes at an offset that is a word. -/
theorem growAt_typed (offset : Word) (len : Nat) {f : Nat → Exec σ α}
    (hf : ∀ start b', b ≤ b' → start + len ≤ b' → Typed s v b' h h' (f start)) :
    Typed s v b h h' (growAt offset len >>= f) := by
  unfold growAt
  cases offset.toU64? with
  | none =>
      dsimp only
      rw [fault_bind]
      exact .fault _ (by decide) (by decide)
  | some start =>
      dsimp only
      rw [bind_assoc]
      exact .growTo start len fun b' hb hle => hf start b' hb hle

/-- Room for the target of a copy. -/
theorem coverCopy_typed (offset len : Word) {f : Option (Nat × Nat) → Exec σ α}
    (hf : ∀ range b', IsRange offset len range → b ≤ b' → Within range b' →
      Typed s v b' h h' (f range)) :
    Typed s v b h h' (coverCopy offset len >>= f) := by
  unfold coverCopy
  by_cases hlen : len = 0#256
  · rw [if_pos hlen]
    exact hf none b (.inl rfl) (Nat.le_refl b) trivial
  · rw [if_neg hlen]
    cases len.toU64? with
    | none =>
        dsimp only
        rw [fault_bind]
        exact .fault _ (by decide) (by decide)
    | some n =>
        dsimp only
        rw [bind_assoc]
        exact .bind (.charge _) fun _ => .cover offset len hf

theorem touch_typed (surcharge : Nat) (access : Access) :
    Typed s v b h h (touch s surcharge access) := by
  unfold touch
  by_cases hpos : 0 < surcharge
  · rw [if_pos hpos]
    refine .bind (.ask _) fun first => ?_
    cases first with
    | true => exact .charge surcharge
    | false => exact .pure ()
  · rw [if_neg hpos]
    exact .pure ()

end Exec

open Exec

namespace Effect

/-! ## Words -/

theorem unary_typed (f : Word → Word) : Typed s v b (h + 1) (h + 1) (unary f : Exec σ Unit) :=
  .bind (.peek 0 (by omega)) fun _ => .setTop _ (by omega)

theorem binary_typed (f : Word → Word → Word) :
    Typed s v b (h + 2) (h + 1) (binary f : Exec σ Unit) :=
  .bind .pop fun _ => .bind (.peek 0 (by omega)) fun _ => .setTop _ (by omega)

theorem ternary_typed (f : Word → Word → Word → Word) :
    Typed s v b (h + 3) (h + 1) (ternary f : Exec σ Unit) :=
  .bind .pop fun _ => .bind .pop fun _ => .bind (.peek 0 (by omega)) fun _ => .setTop _ (by omega)

theorem exp_typed : Typed s v b (h + 2) (h + 1) (exp s) :=
  .bind .pop fun _ => .bind (.peek 0 (by omega)) fun _ => .bind (.charge _) fun _ =>
    .setTop _ (by omega)

theorem keccak256_typed : Typed s v b (h + 2) (h + 1) (keccak256 : Exec σ Unit) :=
  .bind .pop fun offset => .bind (.peek 0 (by omega)) fun len => .cover offset len fun _ _ _ _ hr =>
    .bind (.charge _) fun _ => .bind (readRange_typed hr) fun _ => .setTop _ (by omega)

/-! ## Data -/

theorem valueOf_typed (pc : Nat) (r : Reading) : Typed s v b h h (valueOf s pc r) := by
  cases r with
  | address | caller | callValue | callDataSize | codeSize | pc => exact .pure _
  | returnDataSize => exact .look (fun m => .pure (ofNat m.returnData.size)) fun _ _ _ => rfl
  | memorySize => exact .look (fun m => .pure (ofNat m.memory.size)) fun _ _ _ => rfl
  | _ => exact .bind environment_typed fun _ => .pure _

theorem reading_typed (pc : Nat) (r : Reading) (hh : h < stackLimit) :
    Typed s v b h (h + 1) (reading s pc r) :=
  .bind (valueOf_typed pc r) fun w => .push w hh

theorem selfBalance_typed (hh : h < stackLimit) : Typed s v b h (h + 1) (selfBalance s) :=
  .bind (.ask _) fun w => .push w hh

theorem accountField_typed (a : Address) (field : AccountField) :
    Typed s v b h h (accountField s a field) := by
  cases field with
  | balance => exact .ask _
  | codeSize => exact .bind (.ask _) fun _ => .pure _
  | codeHash => exact .ask _

theorem account_typed (field : AccountField) (hh : h < stackLimit) :
    Typed s v b (h + 1) (h + 1) (account s field) :=
  .bind popAddress_typed fun a => .bind (touch_typed _ _) fun _ =>
    .bind (accountField_typed a field) fun w => .push w hh

theorem blockHash_typed : Typed s v b (h + 1) (h + 1) (blockHash s) := by
  refine .bind (.peek 0 (by omega)) fun requested => .bind environment_typed fun env => ?_
  dsimp only
  cases requested.toU64? with
  | none => exact .setTop _ (by omega)
  | some n =>
      dsimp only
      split
      · exact .bind (.ask _) fun hash => .setTop hash (by omega)
      · exact .setTop _ (by omega)

theorem blobHash_typed : Typed s v b (h + 1) (h + 1) (blobHash s) := by
  refine .bind (.peek 0 (by omega)) fun index => ?_
  cases index.toU64? with
  | none => exact .setTop _ (by omega)
  | some i => exact .bind environment_typed fun _ => .setTop _ (by omega)

theorem callDataLoad_typed : Typed s v b (h + 1) (h + 1) (callDataLoad s) := by
  refine .bind (.peek 0 (by omega)) fun offset => ?_
  cases offset.toU64? with
  | none => exact .setTop _ (by omega)
  | some start => exact .setTop _ (by omega)

theorem copyPadded_typed (data : ByteArray) (target source len : Word) :
    Typed s v b h h (copyPadded data target source len) := by
  refine coverCopy_typed target len fun range b' _ _ hr => ?_
  cases range with
  | none => exact .pure ()
  | some r => exact .write _ _ (by rw [Bytes.size_paddedSlice]; exact hr)

/-- A range that is all there can be read. -/
theorem range?_of_le {data : ByteArray} {start len : Nat} (hle : start + len ≤ data.size) :
    ∃ bytes, Bytes.range? data start len = some bytes ∧ bytes.size = len := by
  unfold Bytes.range?
  rw [if_pos hle]
  refine ⟨_, rfl, ?_⟩
  rw [ByteArray.size_extract]
  omega

/-- The check is made on the whole words, so their low parts pass it too. -/
theorem lowU64_add_le {data : ByteArray} {source len stop : Word} (hstop : source.add? len = some stop)
    (hle : ¬ ofNat data.size < stop) : source.lowU64 + len.toNat ≤ data.size := by
  have hlow : source.lowU64 ≤ source.toNat := Nat.mod_le ..
  have hsum := Word.add?_eq_some.1 hstop
  have hsize : (ofNat data.size).toNat ≤ data.size := Nat.mod_le ..
  have hle := BitVec.not_lt.1 hle
  rw [BitVec.le_def] at hle
  omega

theorem copyWhole_typed (data : ByteArray) (target source len : Word) :
    Typed s v b h h (copyWhole data target source len) := by
  unfold copyWhole
  cases hstop : source.add? len with
  | none => exact .fault _ (by decide) (by decide)
  | some stop =>
      dsimp only
      split
      · exact .fault _ (by decide) (by decide)
      · rename_i hle
        refine coverCopy_typed target len fun range b' hrange _ hr => ?_
        obtain rfl | rfl := hrange
        · exact .pure ()
        · obtain ⟨bytes, hbytes, hsize⟩ := range?_of_le (lowU64_add_le hstop hle)
          dsimp only
          rw [hbytes]
          exact .write (s := s) target.toNat bytes (by rw [hsize]; exact hr)

theorem copy_typed (source : CopySource) : Typed s v b (h + 3) h (copy s source) := by
  refine .bind .pop fun target => .bind .pop fun start => .bind .pop fun len => ?_
  cases source with
  | callData => exact copyPadded_typed s.input target start len
  | code => exact copyPadded_typed s.code.code target start len
  | returnData =>
      exact .look (fun m => copyWhole_typed m.returnData target start len) fun _ _ _ => rfl

theorem extCodeCopy_typed : Typed s v b (h + 4) h (extCodeCopy s) := by
  refine .bind popAddress_typed fun a => .bind .pop fun target => .bind .pop fun start =>
    .bind .pop fun len => .bind (touch_typed _ _) fun _ =>
    coverCopy_typed target len fun range b' _ _ hr => ?_
  cases range with
  | none => exact .pure ()
  | some r => exact .bind (.ask _) fun code => .write _ _ (by rw [Bytes.size_paddedSlice]; exact hr)

theorem size_ofNat (width n : Nat) : (Bytes.ofNat width n).size = width := Array.size_ofFn

theorem mload_typed : Typed s v b (h + 1) (h + 1) (mload : Exec σ Unit) :=
  .bind (.peek 0 (by omega)) fun offset => growAt_typed offset 32 fun start _ _ hle =>
    .bind (.read start 32 hle) fun _ => .setTop _ (by omega)

theorem mstore_typed : Typed s v b (h + 2) h (mstore : Exec σ Unit) :=
  .bind .pop fun offset => .bind .pop fun _ => growAt_typed offset 32 fun _ _ _ hle =>
    .write _ _ (by rw [Bytes.ofWord, size_ofNat]; exact hle)

theorem mstore8_typed : Typed s v b (h + 2) h (mstore8 : Exec σ Unit) :=
  .bind .pop fun offset => .bind .pop fun _ => growAt_typed offset 1 fun _ _ _ hle =>
    .write _ _ (by rw [size_ofNat]; exact hle)

theorem mcopy_typed : Typed s v b (h + 3) h (mcopy : Exec σ Unit) := by
  refine .bind .pop fun target => .bind .pop fun source => .bind .pop fun len =>
    coverCopy_typed target len fun range b' _ _ hr => ?_
  cases range with
  | none => exact .pure ()
  | some r =>
      exact growAt_typed source r.2 fun start b'' hb hle =>
        .move start r.1 r.2 hle (Nat.le_trans hr hb)

/-! ## State -/

theorem sload_typed : Typed s v b (h + 1) (h + 1) (sload s) :=
  .bind (.peek 0 (by omega)) fun _ => .bind (touch_typed _ _) fun _ => .bind (.ask _) fun w =>
    .setTop w (by omega)

theorem requireSentry_typed (hv : v ≠ .blind) : Typed s v b h h (requireSentry s) := by
  refine .bind (remaining_typed hv) fun left => ?_
  split
  · exact .fault _ (by decide) (by decide)
  · exact .pure ()

theorem slotWasCold_typed (key : Word) : Typed s v b h h (slotWasCold s key) := by
  unfold slotWasCold
  split
  · exact .ask _
  · exact .pure false

theorem initialValue_typed (key current : Word) : Typed s v b h h (initialValue s key current) := by
  unfold initialValue
  split
  · exact .ask _
  · exact .pure current

theorem sstore_typed (hv : v ≠ .blind) : Typed s v b (h + 2) h (sstore s) :=
  .bind .pop fun key => .bind .pop fun _ => .bind (requireSentry_typed hv) fun _ =>
    .bind (slotWasCold_typed key) fun _ => .bind (.ask _) fun current =>
    .bind (initialValue_typed key current) fun _ => .bind (.charge _) fun _ =>
    .bind (.refund _) fun _ => .ask _

theorem tload_typed : Typed s v b (h + 1) (h + 1) (tload s) :=
  .bind (.peek 0 (by omega)) fun _ => .bind (.ask _) fun w => .setTop w (by omega)

theorem tstore_typed : Typed s v b (h + 2) h (tstore s) :=
  .bind .pop fun _ => .bind .pop fun _ => .ask _

theorem log_typed (count : Nat) : Typed s v b (h + (count + 2)) h (log s count) :=
  .bind .pop fun offset => .bind .pop fun len => .bind (popMany_typed count) fun _ =>
    .cover offset len fun _ _ _ _ hr => .bind (.charge _) fun _ =>
    .bind (readRange_typed hr) fun _ => .ask _

theorem sendsBalance_typed : Typed s v b h h (sendsBalance s) := by
  unfold sendsBalance
  split
  · exact .bind (.ask _) fun _ => .pure _
  · exact .pure true

theorem payForBeneficiary_typed (a : Address) : Typed s v b h h (payForBeneficiary s a) := by
  unfold payForBeneficiary
  split
  · refine .bind sendsBalance_typed fun sends => ?_
    cases sends with
    | false => exact .pure ()
    | true =>
        refine .bind (.ask _) fun empty => ?_
        cases empty with
        | false => exact .pure ()
        | true => exact .charge _
  · exact .pure ()

theorem selfDestruct_typed : Typed s v b (h + 1) h (selfDestruct s) := by
  refine .bind popAddress_typed fun a => .bind (touch_typed _ _) fun _ =>
    .bind (payForBeneficiary_typed a) fun _ => .bind (.ask _) fun first => ?_
  split
  · exact .refund _
  · exact .pure ()

/-! ## Control -/

/-- A jump that the analysis has resolved goes there; any other one asks where its word leads. -/
theorem destination_cases (s : Setting σ) (arg : Arg) (dest : Word) :
    (∃ index, arg = .target index ∧ destination s arg dest = pure index) ∨
      (∀ index, arg ≠ .target index) ∧ destination s arg dest =
        match s.code.jumpTarget dest with
        | some index => pure index
        | none => fault .invalidJump := by
  cases arg with
  | target index => exact .inl ⟨index, rfl, rfl⟩
  | none => exact .inr ⟨fun _ => by simp, rfl⟩
  | push w => exact .inr ⟨fun _ => by simp, rfl⟩
  | block cost => exact .inr ⟨fun _ => by simp, rfl⟩
  | correction gas => exact .inr ⟨fun _ => by simp, rfl⟩

theorem destination_typed (arg : Arg) (dest : Word) : Typed s v b h h (destination s arg dest) := by
  obtain ⟨index, -, heq⟩ | ⟨-, heq⟩ := destination_cases s arg dest
  · rw [heq]
    exact .pure index
  · rw [heq]
    cases s.code.jumpTarget dest with
    | some index => exact .pure index
    | none => exact .fault _ (by decide) (by decide)

theorem jump_typed (arg : Arg) : Typed s v b (h + 1) h (jump s arg) :=
  .bind .pop fun dest => .bind (destination_typed arg dest) fun _ => .pure _

theorem jumpi_typed (arg : Arg) : Typed s v b (h + 2) h (jumpi s arg) := by
  refine .bind .pop fun dest => .bind .pop fun condition => ?_
  split
  · exact .pure _
  · exact .bind (destination_typed arg dest) fun _ => .pure _

theorem gas_typed (correction : Nat) (hv : v = .gives) (hh : h < stackLimit) :
    Typed s v b h (h + 1) (gas correction : Exec σ Unit) :=
  .bind (remaining_typed (by rw [hv]; decide)) fun _ => .bind (.amount _ hv) fun _ => .push _ hh

theorem observing_typed {effect : Exec σ Unit} (correction : Nat) (hv : v = .gives)
    (heffect : Typed s v b h h' effect) : Typed s v b h h' (observing correction effect) :=
  .bind (.giveBack correction hv) fun _ => .bind heffect fun _ => .charge correction

theorem output_typed : Typed s v b (h + 2) h (output : Exec σ ByteArray) :=
  .bind .pop fun offset => .bind .pop fun len => .cover offset len fun _ _ _ _ hr =>
    readRange_typed hr

theorem checkCodeSize_typed : Typed s v b (h + 2) (h + 2) (checkCodeSize s) := by
  unfold checkCodeSize
  split
  · refine .bind (.peek 1 (by omega)) fun len => ?_
    split
    · exact .fault _ (by decide) (by decide)
    · exact .pure ()
  · exact .pure ()

theorem ret_typed : Typed s v b (h + 2) h (ret s) :=
  .bind checkCodeSize_typed fun _ => output_typed

/-! ## Calls and creations -/

/-- Words that a call instruction takes off the stack. -/
def callInputs (op : CallOp) : Nat := if takesValue op then 7 else 6

theorem popCallOperands_typed (op : CallOp) :
    Typed s v b (h + callInputs op) h (popCallOperands op : Exec σ CallOperands) := by
  have rest (requested : Word) (target : Address) (value : Word) : Typed s v b (h + 4) h
      (do
        let inOffset ← pop
        let inLen ← pop
        let outOffset ← pop
        let outLen ← pop
        return { requested, target, value, inOffset, inLen, outOffset, outLen } :
        Exec σ CallOperands) :=
    .bind .pop fun _ => .bind .pop fun _ => .bind .pop fun _ => .bind .pop fun _ => .pure _
  unfold callInputs popCallOperands popValue
  by_cases hv : takesValue op
  · rw [if_pos hv, if_pos hv]
    exact .bind .pop fun requested => .bind popAddress_typed fun target => .bind .pop fun value =>
      rest requested target value
  · rw [if_neg hv, if_neg hv]
    exact .bind .pop fun requested => .bind popAddress_typed fun target =>
      .bind (.pure 0#256) fun value => rest requested target value

theorem payForValue_typed (value : Word) : Typed s v b h h (payForValue value : Exec σ Unit) := by
  unfold payForValue
  split
  · exact .charge _
  · exact .pure ()

theorem payForNewAccount_typed (op : CallOp) (o : CallOperands) :
    Typed s v b h h (payForNewAccount s op o) := by
  unfold payForNewAccount
  split
  · refine .bind (.ask _) fun empty => ?_
    cases empty with
    | false => exact .pure ()
    | true => exact .charge _
  · exact .pure ()

theorem payForCall_typed (op : CallOp) (o : CallOperands) : Typed s v b h h (payForCall s op o) :=
  .bind (touch_typed _ _) fun _ => .bind (payForValue_typed _) fun _ => payForNewAccount_typed op o

/-- A child gets no more than there is, or the request is refused for lack of gas. -/
theorem forwarded_le (schedule : Schedule) (left : Nat) (requested : Word) :
    match schedule.forwarded left requested with
    | .ok gas => gas ≤ left
    | .error f => f = .outOfGas := by
  unfold Schedule.forwarded
  by_cases hall : schedule.rules.allButOne64th
  · rw [if_pos hall]
    cases requested.toU64? with
    | none => exact Nat.sub_le ..
    | some gas => exact Nat.le_trans (Nat.min_le_right ..) (Nat.sub_le ..)
  · rw [if_neg hall]
    cases requested.toU64? with
    | none => rfl
    | some gas =>
        dsimp only
        by_cases hle : gas ≤ left
        · rw [if_pos hle]
          exact hle
        · rw [if_neg hle]

theorem forwarded_typed (hv : v ≠ .blind) (requested : Word) :
    Typed s v b h h (forwarded s requested) := by
  refine .bind (remaining_typed hv) fun left => ?_
  have hle := forwarded_le s.schedule left requested
  cases hf : s.schedule.forwarded left requested with
  | ok gas => exact .pure gas
  | error f =>
      rw [hf] at hle
      subst hle
      exact .fault _ (by decide) (by decide)

theorem storeOutput_typed {range : Option (Nat × Nat)} (bytes : ByteArray) (hr : Within range b) :
    Typed s v b h h (storeOutput range bytes : Exec σ Unit) := by
  cases range with
  | none => exact .pure ()
  | some r =>
      refine .write r.1 _ (Nat.le_trans ?_ hr)
      rw [ByteArray.size_extract]
      omega

theorem runCall_typed {op : CallOp} {o : CallOperands} {input output : Option (Nat × Nat)}
    {childGas : Nat} (hv : v = .gives) (hdepth : s.context.depth < s.maxCallDepth)
    (hi : Within input b) (ho : Within output b) (hh : h < stackLimit) :
    Typed s v b h (h + 1) (runCall s op o input output childGas) :=
  .bind (.charge _) fun _ => .bind (readRange_typed hi) fun data => .bind (.amount _ hv) fun gas =>
    .bind (.call _ (.call op o data gas hdepth) hv) fun _ => .bind (.giveBack _ hv) fun _ =>
    .bind (storeOutput_typed _ ho) fun _ => .bind (.setReturnData _) fun _ => .push _ hh

theorem skipCall_typed (value : Word) (hv : v = .gives) (hh : h < stackLimit) :
    Typed s v b h (h + 1) (skipCall value : Exec σ Unit) :=
  .bind (.giveBack _ hv) fun _ => .push _ hh

theorem call_typed (op : CallOp) (hv : v = .gives) (hh : h < stackLimit) :
    Typed s v b (h + callInputs op) (h + 1) (call s op) := by
  refine .bind (popCallOperands_typed op) fun o => .cover o.inOffset o.inLen fun input b₁ _ _ hi =>
    .cover o.outOffset o.outLen fun output b₂ _ hb ho => .bind (payForCall_typed op o) fun _ =>
    .bind (forwarded_typed (by rw [hv]; decide) _) fun childGas => .bind (.setReturnData _) fun _ => ?_
  split
  · exact skipCall_typed o.value hv hh
  · exact runCall_typed hv (by omega) (hi.mono hb) ho hh

theorem keepFailure_typed (result : CallResult) :
    Typed s v b h h (keepFailure result : Exec σ Unit) := by
  unfold keepFailure
  split
  · exact .pure ()
  · exact .setReturnData _

theorem runCreate_typed {kind : CallKind} {value : Word} {range : Option (Nat × Nat)}
    (hv : v = .gives) (hkind : kind.isCreate = true) (hdepth : s.context.depth < s.maxCallDepth)
    (hr : Within range b) (hh : h < stackLimit) :
    Typed s v b h (h + 1) (runCreate s kind value range) :=
  .bind (remaining_typed (by rw [hv]; decide)) fun _ => .bind (.charge _) fun _ =>
    .bind (readRange_typed hr) fun initCode =>
    .bind (.call _ (.create kind value initCode _ hkind hdepth) hv) fun result =>
    .bind (.giveBack _ hv) fun _ => .bind (keepFailure_typed result) fun _ => .push _ hh

theorem checkInitCode_typed (len : Word) : Typed s v b h h (checkInitCode s len) := by
  unfold checkInitCode
  split
  · exact .fault _ (by decide) (by decide)
  · exact .pure ()

/-- Whatever the salt, the child of a creation runs init code. -/
theorem popCreateKind_typed (salted : Bool) {f : CallKind → Exec σ α}
    (hf : ∀ kind, kind.isCreate = true → Typed s v b h h' (f kind)) :
    Typed s v b (h + if salted then 1 else 0) h' (popCreateKind salted >>= f) := by
  cases salted with
  | false => exact hf .create rfl
  | true =>
      show Typed s v b (h + 1) h' ((pop >>= fun salt => pure (.create2 salt)) >>= f)
      rw [bind_assoc]
      exact .bind .pop fun salt => hf (.create2 salt) rfl

theorem create_typed (salted : Bool) (hv : v = .gives) (hh : h < stackLimit) :
    Typed s v b (h + (if salted then 1 else 0) + 3) (h + 1) (create s salted) := by
  refine .bind .pop fun value => .bind .pop fun offset => .bind .pop fun len =>
    popCreateKind_typed salted fun kind hkind => .bind (checkInitCode_typed len) fun _ =>
    .cover offset len fun range b' _ _ hr => .bind (.charge _) fun _ => .bind (.charge _) fun _ =>
    .bind (.setReturnData _) fun _ => ?_
  split
  · exact .push _ hh
  · exact runCreate_typed hv hkind (by omega) hr hh

end Effect

/-! ## All instructions -/

/-- What an instruction does with the meter beyond paying. -/
def Op.sight (op : Op) : Sight := if op.observesGas then .gives else .blind

theorem andNext_typed {effect : Exec σ Unit} (heffect : Typed s v b h h' effect) :
    Typed s v b h h' (andNext effect) :=
  .bind heffect fun _ => .pure _

open Effect in
/-- **The table tells the truth about the stack**: with its inputs there and room for its outputs, an
    instruction takes off and puts on as many words as it declares. -/
theorem Op.exec_typed (ins : Instruction) {op : Op} (hop : op ≠ .jumpDest)
    (hroom : h + op.outputs ≤ stackLimit) :
    Typed s op.sight b (h + op.inputs) (h + op.outputs) (op.exec s ins) := by
  cases op with
  | stop => exact .pure _
  | unary f => exact andNext_typed (unary_typed f.eval)
  | binary f => exact andNext_typed (binary_typed f.eval)
  | ternary f => exact andNext_typed (ternary_typed f.eval)
  | exp => exact andNext_typed exp_typed
  | keccak256 => exact andNext_typed keccak256_typed
  | reading r => exact andNext_typed (reading_typed ins.pc r hroom)
  | selfBalance => exact andNext_typed (selfBalance_typed hroom)
  | account field => exact andNext_typed (account_typed field hroom)
  | callDataLoad => exact andNext_typed callDataLoad_typed
  | copy source => exact andNext_typed (copy_typed source)
  | extCodeCopy => exact andNext_typed extCodeCopy_typed
  | blockHash => exact andNext_typed blockHash_typed
  | blobHash => exact andNext_typed blobHash_typed
  | pop => exact andNext_typed (.bind .pop fun _ => .pure _)
  | mload => exact andNext_typed mload_typed
  | mstore => exact andNext_typed mstore_typed
  | mstore8 => exact andNext_typed mstore8_typed
  | mcopy => exact andNext_typed mcopy_typed
  | sload => exact andNext_typed sload_typed
  | sstore => exact andNext_typed (observing_typed _ rfl (sstore_typed (by decide)))
  | tload => exact andNext_typed tload_typed
  | tstore => exact andNext_typed tstore_typed
  | jump => exact jump_typed ins.arg
  | jumpi => exact jumpi_typed ins.arg
  | jumpDest => exact absurd rfl hop
  | gas => exact andNext_typed (gas_typed _ rfl hroom)
  | push n => exact andNext_typed (.push _ hroom)
  -- how deep these two reach depends on their number
  | dup n =>
      show Typed s .blind b (h + (n.val + 1)) (h + (n.val + 1) + 1) _
      exact andNext_typed (.dup _ (by omega) (by omega) hroom)
  | swap n =>
      show Typed s .blind b (h + (n.val + 2)) (h + (n.val + 2)) _
      exact andNext_typed (.swap _ (by omega) (by omega))
  | log n => exact andNext_typed (log_typed n.val)
  -- how many words these take depends on the kind, so the kinds come one by one
  | create salted =>
      cases salted with
      | false => exact andNext_typed (observing_typed _ rfl (create_typed false rfl hroom))
      | true => exact andNext_typed (observing_typed _ rfl (create_typed true rfl hroom))
  | call kind =>
      cases kind with
      | call => exact andNext_typed (observing_typed _ rfl (call_typed .call rfl hroom))
      | callCode => exact andNext_typed (observing_typed _ rfl (call_typed .callCode rfl hroom))
      | delegateCall =>
          exact andNext_typed (observing_typed _ rfl (call_typed .delegateCall rfl hroom))
      | staticCall => exact andNext_typed (observing_typed _ rfl (call_typed .staticCall rfl hroom))
  | ret => exact .bind ret_typed fun _ => .pure _
  | revert => exact .bind output_typed fun _ => .pure _
  | invalid => exact .fault _ (by simp) (by simp)
  | selfDestruct => exact .bind selfDestruct_typed fun _ => .pure _

/-- The ban on state changes is no matter of the stack, and sees no meter. -/
theorem checkStatic_typed (guarded : Bool) (op : Op) :
    Typed s v b h h (checkStatic guarded op : Exec σ Unit) := by
  refine .look (fun m => ?_) fun _ _ _ => rfl
  split
  · exact .fault _ (by decide) (by decide)
  · exact .pure ()

/-- One instruction of the stream that is not the entry of a block. -/
theorem step_typed (guarded : Bool) {ins : Instruction} {op : Op} (hins : ins.op = some op)
    (hop : op ≠ .jumpDest) (hroom : h + op.outputs ≤ stackLimit) :
    Typed s op.sight b (h + op.inputs) (h + op.outputs) (step s guarded ins) := by
  unfold step
  rw [hins]
  exact .bind (checkStatic_typed guarded op) fun _ => Op.exec_typed ins hop hroom

end MeteredEvm
