import MeteredEvm.Proofs.CallTree
import MeteredEvm.Proofs.Launch

/-!
# `MeteredEvm.Proofs.Rollback` — a child that fails leaves no trace

Whatever a child and the frames below it have done, if the child fails then accounts, transient
slots, uses, logs, destructions, creations and refunds are what they were before. The one exception
is a creation that the sender can pay: it is counted, and its address has been used.

## Contents
* `Chain.Runs`, `Chain.Fails` — the ways in which a child can fail.
* `Chain.perform_fails_iff` — there are no others.
* `Chain.residue`, `Chain.residue_of_perform_failed` — what a child that fails leaves.
* `failed_frames_leave_no_trace`.
-/

namespace MeteredEvm

namespace Chain

variable (c : Chain) (host : Host World) (req : CallRequest) (memory : Memory) (w : World)

/-! ## Ways to fail -/

/-- The request starts a frame, and the frame comes to a result. -/
def Runs (frame : Launch) (result : Result) : Prop :=
  c.launch req w = .ok frame ∧
    ∃ memory' after, execute c.config host frame.context frame.input req.gas frame.code memory
      frame.world = .ok (result, memory', after)

/-- **The ways in which a child can fail**: before there is a frame, or after its frame `Runs`. -/
inductive Fails : Prop where
  /-- The caller does not have the value. -/
  | unpaid (hvalue : req.kind.isCreate = true ∨ req.transfersValue = true)
      (hunpaid : w.journal.balance req.caller < req.value)
  /-- A creation meets an account. -/
  | met (hcreate : req.kind.isCreate = true) (hpaid : ¬ w.journal.balance req.caller < req.value)
      (htaken : ((c.counted req w).account (siteOf req w)).isTaken = true)
  | reverted {frame : Launch} {result : Result} {output : ByteArray}
      (hruns : c.Runs host req memory w frame result) (houtcome : result.outcome = .reverted output)
  | faulted {frame : Launch} {result : Result} {fault : Fault}
      (hruns : c.Runs host req memory w frame result) (houtcome : result.outcome = .faulted fault)
  /-- A creation returns code that is too long, or that starts with the wrong byte. -/
  | rejected {frame : Launch} {result : Result} {code : ByteArray}
      (hruns : c.Runs host req memory w frame result) (hcreate : req.kind.isCreate = true)
      (houtcome : result.outcome = .stopped code) (hrejected : c.rejects code = true)
  /-- A creation returns code that it cannot pay for. -/
  | unaffordable {frame : Launch} {result : Result} {code : ByteArray}
      (hruns : c.Runs host req memory w frame result) (hcreate : req.kind.isCreate = true)
      (houtcome : result.outcome = .stopped code) (hgas : result.gasRemaining < deposit code)
      (hfork : c.fork.since .homestead = true)

variable {c host req memory w} {memory' : Memory} {w' : World} {p : Performed}

theorem Runs.unique {frame frame' : Launch} {result result' : Result}
    (h : c.Runs host req memory w frame result) (h' : c.Runs host req memory w frame' result') :
    frame = frame' ∧ result = result' := by
  obtain ⟨hlaunch, _, _, hexecute⟩ := h
  obtain ⟨hlaunch', _, _, hexecute'⟩ := h'
  cases hlaunch.symm.trans hlaunch'
  cases hexecute.symm.trans hexecute'
  exact ⟨rfl, rfl⟩

/-- A frame that comes to nothing is one of the ways to fail. -/
theorem Wasted.fails {frame : Launch} {result : Result} (h : c.Wasted req result)
    (hruns : c.Runs host req memory w frame result) : c.Fails host req memory w := by
  cases h with
  | failed hfailed =>
      cases houtcome : result.outcome with
      | stopped code => simp [Result.isSuccess, houtcome] at hfailed
      | reverted output => exact .reverted hruns houtcome
      | faulted fault => exact .faulted hruns houtcome
  | refused hcreate houtcome hrefused =>
      unfold refuses at hrefused
      rw [Bool.or_eq_true, Bool.and_eq_true, decide_eq_true_eq] at hrefused
      rcases hrefused with hrejected | ⟨hgas, hfork⟩
      · exact .rejected hruns hcreate houtcome hrejected
      · exact .unaffordable hruns hcreate houtcome hgas hfork

/-- If a frame runs and the child fails, then the frame comes to nothing. -/
theorem Fails.wasted {frame : Launch} {result : Result} (h : c.Fails host req memory w)
    (hruns : c.Runs host req memory w frame result) : c.Wasted req result := by
  have hlaunches := c.launches req w
  rw [hruns.1] at hlaunches
  cases h with
  | unpaid hvalue hunpaid =>
      cases hlaunches with
      | call hcall henter =>
          have hvalue : req.transfersValue = true := hvalue.resolve_left (by simp [hcall])
          rw [enterCall?_eq_none_iff.2 ⟨hvalue, hunpaid⟩] at henter
          cases henter
      | create hcreate hpaid hfree => exact absurd hunpaid hpaid
  | met hcreate hpaid htaken =>
      cases hlaunches with
      | call hcall henter => simp [hcreate] at hcall
      | create hcreate hpaid hfree => simp [htaken] at hfree
  | reverted hruns' houtcome =>
      obtain ⟨-, rfl⟩ := hruns.unique hruns'
      exact .failed (by simp [Result.isSuccess, houtcome])
  | faulted hruns' houtcome =>
      obtain ⟨-, rfl⟩ := hruns.unique hruns'
      exact .failed (by simp [Result.isSuccess, houtcome])
  | rejected hruns' hcreate houtcome hrejected =>
      obtain ⟨-, rfl⟩ := hruns.unique hruns'
      exact .refused hcreate houtcome (by simp [refuses, hrejected])
  | unaffordable hruns' hcreate houtcome hgas hfork =>
      obtain ⟨-, rfl⟩ := hruns.unique hruns'
      exact .refused hcreate houtcome (by simp [refuses, hgas, hfork])

/-- **A child fails in one of the ways above, and only so.** -/
theorem perform_fails_iff (h : c.perform host req memory w = .ok (p, memory', w')) :
    p.result.isSuccess = false ↔ c.Fails host req memory w := by
  obtain ⟨hlaunch, -⟩ | ⟨frame, result, after, hlaunch, hexecute, hconclude⟩ :=
    launched_of_perform_ok h
  · have hlaunches := c.launches req w
    rw [hlaunch] at hlaunches
    cases hlaunches with
    | unpaid hp hvalue hunpaid => exact iff_of_true hp (.unpaid hvalue hunpaid)
    | met hp hcreate hpaid htaken => exact iff_of_true hp (.met hcreate hpaid htaken)
  · have hruns : c.Runs host req memory w frame result := ⟨hlaunch, memory', after, hexecute⟩
    have hconcludes := c.concludes req w result after
    rw [hconclude] at hconcludes
    cases hconcludes with
    | wasted hp hwasted => exact iff_of_true hp (hwasted.fails hruns)
    | kept hp hkept | deployed hp hkept hcreate code =>
        exact iff_of_false (by simp [hp]) fun hfails => hkept (hfails.wasted hruns)

/-! ## What stays -/

variable (c req w)

/-- **What a child that fails leaves.** A creation that the sender can pay is counted in the nonce,
    which stops at the largest amount, and where uses are noted its address counts as used. -/
def residue : Journal :=
  if req.kind.isCreate = true ∧ req.value ≤ w.journal.balance req.caller then
    let sender := w.journal.account req.caller
    { w.journal with
      accounts := w.journal.accounts.insert req.caller
        { sender with nonce := min (sender.nonce + 1) (u64Size - 1) }
      warm := if c.fork.since .berlin then w.journal.warm.insert (.account (siteOf req w))
        else w.journal.warm }
  else w.journal

theorem residue_of_unpaid (h : req.kind.isCreate = true → w.journal.balance req.caller < req.value) :
    c.residue req w = w.journal := by
  refine if_neg fun ⟨hcreate, hpaid⟩ => ?_
  exact BitVec.not_lt.2 hpaid (h hcreate)

theorem residue_of_paid (hcreate : req.kind.isCreate = true)
    (hpaid : ¬ w.journal.balance req.caller < req.value) : c.residue req w = c.counted req w := by
  have hle : req.value ≤ w.journal.balance req.caller := BitVec.not_lt.1 hpaid
  have hrule : c.rules.accessLists = c.fork.since .berlin := rfl
  unfold residue counted countCreation
  rw [if_pos ⟨hcreate, hle⟩, hrule]
  cases c.fork.since .berlin <;> rfl

variable {c req w}

/-- A frame that was started goes back to what is left. -/
theorem fallback_of_launch {frame : Launch} (h : c.launch req w = .ok frame) :
    c.fallback req w = c.residue req w := by
  have hlaunches := c.launches req w
  rw [h] at hlaunches
  unfold fallback
  cases hlaunches with
  | call hcall henter =>
      rw [if_neg (by simp [hcall]), residue_of_unpaid]
      simp [hcall]
  | create hcreate hpaid hfree => rw [if_pos hcreate, residue_of_paid c req w hcreate hpaid]

/-- **A child that fails leaves what is said above, and nothing else.** -/
theorem residue_of_perform_failed (h : c.perform host req memory w = .ok (p, memory', w'))
    (hfailed : p.result.isSuccess = false) : w'.journal = c.residue req w := by
  obtain ⟨hlaunch, -⟩ | ⟨frame, result, after, hlaunch, hexecute, hconclude⟩ :=
    launched_of_perform_ok h
  · have hlaunches := c.launches req w
    rw [hlaunch] at hlaunches
    cases hlaunches with
    | unpaid hp hvalue hunpaid => exact (c.residue_of_unpaid req w fun _ => hunpaid).symm
    | met hp hcreate hpaid htaken => exact (c.residue_of_paid req w hcreate hpaid).symm
  · have hconcludes := c.concludes req w result after
    rw [hconclude] at hconcludes
    cases hconcludes with
    | wasted hp hwasted => exact fallback_of_launch hlaunch
    | kept hp hkept | deployed hp hkept hcreate code => simp [hp] at hfailed

end Chain

/-- **A child that fails leaves no trace.** On every fork, from every world and for every request, a
    child fails for want of value, because a creation meets an account, by a revert or a fault, or
    because the code of a creation is rejected or cannot be paid for (`Chain.Fails`). Whatever ran
    below it, it then leaves every part of the journal as it was, but for the sender's nonce and the
    use of the address where the child is a creation that the sender can pay (`Chain.residue`).
    Children of the world come to a result. -/
theorem failed_frames_leave_no_trace (c : Chain) (req : CallRequest) (memory : Memory) (w : World) :
    (∀ host p memory' w', c.perform host req memory w = .ok (p, memory', w') →
      (p.result.isSuccess = false ↔ c.Fails host req memory w) ∧
        (p.result.isSuccess = false → w'.journal = c.residue req w)) ∧
    (∀ result memory' w', c.host.call req memory w = .ok (result, memory', w') →
      result.success = false → w'.journal = c.residue req w) ∧
    (req.gas < u64Size → memory.limit ≤ Memory.pricedLimit →
      ∃ p w', c.performAll req memory w = .ok (p, memory, w')) := by
  refine ⟨fun host p memory' w' h => ?_, fun result memory' w' h hfailed => ?_, fun hgas hmemory =>
    c.performAll_ok hgas hmemory w⟩
  · exact ⟨Chain.perform_fails_iff h, Chain.residue_of_perform_failed h⟩
  · obtain ⟨p, hperform, rfl⟩ := Chain.of_hostWith_call h
    exact Chain.residue_of_perform_failed hperform hfailed

/-- A code that writes a slot and emits a log. -/
def writeThenLog : ByteArray := ⟨#[0x60, 1, 0x5f, 0x55, 0x5f, 0x5f, 0xa0]⟩

/-- Init code that calls account 2, writes a slot of its own and reverts. -/
def callWriteRevert : ByteArray :=
  ⟨#[0x5f, 0x5f, 0x5f, 0x5f, 0x5f, 0x60, 2, 0x5a, 0xf1, 0x60, 7, 0x60, 1, 0x55, 0x5f, 0x5f, 0xfd]⟩

/-- A world of a sender that has made four creations, and of an account that writes and logs. -/
def senderAndWriter : World :=
  let accounts : List (Address × Account) :=
    [(1, { balance := 10, nonce := 4 }), (2, { code := writeThenLog })]
  { journal := { accounts := .ofList accounts } }

/-- The sender creates an account with a value of 3. -/
def createAndRevert : CallRequest where
  kind := .create
  caller := 1
  codeAddress := 0
  recipient := 0
  value := 3
  transfersValue := true
  input := callWriteRevert
  gas := 200000
  isStatic := false
  depth := 0

/-- The init code reverts, after account 2 has written and logged. The sender has its value back, and
    what is left of it all is that the creation counts. -/
theorem failed_frames_leave_no_trace_createAndRevert :
    ∃ p w', ({} : Chain).performAll createAndRevert (.new 1024) senderAndWriter =
        .ok (p, .new 1024, w') ∧
      p.result.isSuccess = false ∧
      w'.journal = ({} : Chain).residue createAndRevert senderAndWriter ∧
      (w'.journal.account 1).nonce = 5 ∧ w'.journal.balance 1 = 10 ∧
      (w'.journal.account 2).slot 0 = 0 ∧ w'.journal.logs = #[] := by
  have houtcome : (({} : Chain).performAll createAndRevert (.new 1024) senderAndWriter).toOption.map
      (fun r => r.1.result.isSuccess) = some false := by
    decide +kernel
  obtain ⟨hfailed, -, hresult⟩ :=
    failed_frames_leave_no_trace {} createAndRevert (.new 1024) senderAndWriter
  obtain ⟨p, w', hperform⟩ := hresult (by decide) (by decide)
  have hp : p.result.isSuccess = false := by
    rw [hperform] at houtcome
    exact Option.some.inj houtcome
  have hjournal := (hfailed _ p _ w' hperform).2 hp
  refine ⟨p, w', hperform, hp, hjournal, ?_⟩
  rw [hjournal]
  decide +kernel

end MeteredEvm
