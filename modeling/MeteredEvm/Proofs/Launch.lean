import MeteredEvm.World.Call

/-!
# `MeteredEvm.Proofs.Launch` — what a request starts and what becomes of it

A request for a child frame either comes to nothing at once or starts a frame, and what the frame
leaves is settled with the world from before. Both parts are functions of the request and the world
alone: neither looks at the memory or at the host that runs the frame's own children.

## Contents
* `Launch`, `Chain.launch` — the frame that a request starts.
* `Chain.conclude` — what becomes of it.
* `Chain.perform_eq`, `Chain.launched_of_perform_ok` — running a child is launching, running and
  concluding.
* `Chain.Launches`, `Chain.Concludes` — all that launching and concluding can come to.
-/

namespace MeteredEvm

/-- **A frame that a request starts**, beside its gas. -/
structure Launch where
  context : CallContext
  input : ByteArray
  code : ByteArray
  /-- The world that the frame starts on. -/
  world : World

namespace Chain

variable (c : Chain) (req : CallRequest) (w : World)

/-- The frame of a call, or what becomes of a call that the caller cannot pay. -/
def launchCall : Except (Performed × World) Launch :=
  match c.enterCall? req w.journal with
  | none => .error ({ result := .untouched req.gas }, w)
  | some j =>
    .ok { context := callContext req
          input := req.input
          code := (j.account req.codeAddress).code
          world := { w with journal := j } }

/-- Where a creation puts its account. -/
def siteOf : Address := newAddress req (w.journal.account req.caller).nonce

/-- The journal that a creation goes back to if it fails. -/
def counted : Journal := c.countCreation req.caller (siteOf req w) w.journal

/-- The frame of a creation, or what becomes of a creation that the sender cannot pay or that meets
    an account. -/
def launchCreate : Except (Performed × World) Launch :=
  if w.journal.balance req.caller < req.value then .error ({ result := .untouched req.gas }, w)
  else if ((c.counted req w).account (siteOf req w)).isTaken then
    .error ({ result := .consumed req.gas }, { w with journal := c.counted req w })
  else
    .ok { context := createContext req (siteOf req w)
          input := .empty
          code := req.input
          world := { w with journal := c.enterCreate req (siteOf req w) (c.counted req w) } }

/-- **The frame that a request starts, or what it comes to without one.** -/
def launch : Except (Performed × World) Launch :=
  if req.kind.isCreate then c.launchCreate req w else c.launchCall req w

/-- **What becomes of a frame that has run**, given the world from before. -/
def conclude (result : Result) (after : World) : Performed × World :=
  if req.kind.isCreate then c.settleCreate req (siteOf req w) (c.counted req w) result after
  else
    ({ result }, { after with
      journal := if result.isSuccess then after.journal.addRefund result.refund else w.journal })

/-- **Running a child is launching, running and concluding.** -/
theorem perform_eq (host : Host World) (memory : Memory) :
    c.perform host req memory w =
      match c.launch req w with
      | .error (p, w') => .ok (p, memory, w')
      | .ok frame =>
        (execute c.config host frame.context frame.input req.gas frame.code memory frame.world).map
          fun (result, memory, after) =>
            ((c.conclude req w result after).1, memory, (c.conclude req w result after).2) := by
  unfold perform launch conclude
  by_cases hcreate : req.kind.isCreate = true
  · simp only [if_pos hcreate]
    unfold runCreate launchCreate
    by_cases hbalance : w.journal.balance req.caller < req.value
    · simp only [if_pos hbalance]
    · simp only [if_neg hbalance]
      by_cases htaken : ((c.counted req w).account (siteOf req w)).isTaken = true
      · rw [if_pos htaken]
        exact if_pos htaken
      · rw [if_neg htaken]
        exact (if_neg htaken).trans (bind_pure_comp _ _)
  · simp only [if_neg hcreate]
    unfold runCall launchCall
    cases c.enterCall? req w.journal with
    | none => rfl
    | some j => exact bind_pure_comp _ _

variable {c req w}

/-- The pieces of a child that came to a result: it started no frame, or its frame was run and
    concluded. -/
theorem launched_of_perform_ok {host : Host World} {memory memory' : Memory} {p : Performed}
    {w' : World} (h : c.perform host req memory w = .ok (p, memory', w')) :
    (c.launch req w = .error (p, w') ∧ memory' = memory) ∨
      ∃ frame result after, c.launch req w = .ok frame ∧
        execute c.config host frame.context frame.input req.gas frame.code memory frame.world =
          .ok (result, memory', after) ∧
        c.conclude req w result after = (p, w') := by
  rw [perform_eq] at h
  cases hlaunch : c.launch req w with
  | error r =>
      rw [hlaunch] at h
      cases h
      exact .inl ⟨rfl, rfl⟩
  | ok frame =>
      rw [hlaunch] at h
      dsimp only at h
      cases hexecute : execute c.config host frame.context frame.input req.gas frame.code memory
        frame.world with
      | error t =>
          rw [hexecute] at h
          cases h
      | ok r =>
          rw [hexecute] at h
          cases h
          exact .inr ⟨frame, r.1, r.2.2, rfl, hexecute, rfl⟩

/-! ## All that can happen -/

theorem enterCall?_eq_none_iff {j : Journal} :
    c.enterCall? req j = none ↔
      req.transfersValue = true ∧ j.balance req.caller < req.value := by
  unfold enterCall?
  by_cases hvalue : req.transfersValue = true
  · rw [if_pos hvalue, Option.map_eq_none_iff]
    unfold Journal.transfer?
    by_cases hunpaid : j.balance req.caller < req.value
    · simp [hvalue, hunpaid]
    · rw [if_neg hunpaid]
      split <;> simp [hunpaid]
  · rw [if_neg hvalue]
    split <;> simp [hvalue]

variable (c req w)

/-- **All that a request can come to before its code runs**: nothing, for want of value; a creation
    that meets an account; or the frame of a call or of a creation. -/
inductive Launches : Except (Performed × World) Launch → Prop where
  | unpaid {p : Performed} (hp : p.result.isSuccess = false)
      (hvalue : req.kind.isCreate = true ∨ req.transfersValue = true)
      (hunpaid : w.journal.balance req.caller < req.value) : Launches (.error (p, w))
  | met {p : Performed} (hp : p.result.isSuccess = false) (hcreate : req.kind.isCreate = true)
      (hpaid : ¬ w.journal.balance req.caller < req.value)
      (htaken : ((c.counted req w).account (siteOf req w)).isTaken = true) :
      Launches (.error (p, { w with journal := c.counted req w }))
  | call {j : Journal} (hcall : req.kind.isCreate = false)
      (henter : c.enterCall? req w.journal = some j) :
      Launches (.ok
        { context := callContext req
          input := req.input
          code := (j.account req.codeAddress).code
          world := { w with journal := j } })
  | create (hcreate : req.kind.isCreate = true)
      (hpaid : ¬ w.journal.balance req.caller < req.value)
      (hfree : ((c.counted req w).account (siteOf req w)).isTaken = false) :
      Launches (.ok
        { context := createContext req (siteOf req w)
          input := .empty
          code := req.input
          world := { w with journal := c.enterCreate req (siteOf req w) (c.counted req w) } })

theorem launches : c.Launches req w (c.launch req w) := by
  unfold launch
  by_cases hcreate : req.kind.isCreate = true
  · rw [if_pos hcreate]
    unfold launchCreate
    by_cases hunpaid : w.journal.balance req.caller < req.value
    · rw [if_pos hunpaid]
      exact .unpaid rfl (.inl hcreate) hunpaid
    · rw [if_neg hunpaid]
      by_cases htaken : ((c.counted req w).account (siteOf req w)).isTaken = true
      · rw [if_pos htaken]
        exact .met rfl hcreate hunpaid htaken
      · rw [if_neg htaken]
        exact .create hcreate hunpaid (Bool.eq_false_iff.2 htaken)
  · rw [if_neg hcreate]
    unfold launchCall
    cases henter : c.enterCall? req w.journal with
    | none =>
        obtain ⟨hvalue, hunpaid⟩ := enterCall?_eq_none_iff.1 henter
        exact .unpaid rfl (.inr hvalue) hunpaid
    | some j => exact .call (Bool.eq_false_iff.2 hcreate) henter

/-- The journal that a request goes back to if its frame comes to nothing. -/
def fallback : Journal := if req.kind.isCreate then c.counted req w else w.journal

/-- **A frame that comes to nothing**: it fails, or it is a creation whose code is refused. -/
inductive Wasted (result : Result) : Prop where
  | failed (hfailed : result.isSuccess = false)
  | refused {code : ByteArray} (hcreate : req.kind.isCreate = true)
      (houtcome : result.outcome = .stopped code)
      (hrefused : c.refuses code result.gasRemaining = true)

variable (result : Result) (after : World)

/-- **All that can become of a frame that has run**: it comes to nothing and the journal goes back;
    it succeeds and its refunds count; or it has created an account, which gets its code as well. -/
inductive Concludes : Performed × World → Prop where
  | wasted {p : Performed} (hp : p.result.isSuccess = false) (hwasted : c.Wasted req result) :
      Concludes (p, { after with journal := c.fallback req w })
  | kept {p : Performed} (hp : p.result.isSuccess = true) (hkept : ¬ c.Wasted req result) :
      Concludes (p, { after with journal := after.journal.addRefund result.refund })
  | deployed {p : Performed} (hp : p.result.isSuccess = true) (hkept : ¬ c.Wasted req result)
      (hcreate : req.kind.isCreate = true) (code : ByteArray) :
      Concludes (p, { after with
        journal := (after.journal.update (siteOf req w) fun a => { a with code }).addRefund
          result.refund })

variable {c req result} in
theorem isSuccess_of_not_wasted (h : ¬ c.Wasted req result) : result.isSuccess = true := by
  cases hsuccess : result.isSuccess with
  | true => rfl
  | false => exact absurd (.failed hsuccess) h

theorem concludes : c.Concludes req w result after (c.conclude req w result after) := by
  unfold conclude
  by_cases hcreate : req.kind.isCreate = true
  · rw [if_pos hcreate]
    have hback (p : Performed) (hp : p.result.isSuccess = false) (hwasted : c.Wasted req result) :
        c.Concludes req w result after (p, { after with journal := c.counted req w }) := by
      have hfallback : c.fallback req w = c.counted req w := if_pos hcreate
      rw [← hfallback]
      exact .wasted hp hwasted
    unfold settleCreate
    cases houtcome : result.outcome with
    | stopped code =>
        dsimp only
        by_cases hrefused : c.refuses code result.gasRemaining = true
        · rw [if_pos hrefused]
          exact hback _ rfl (.refused hcreate houtcome hrefused)
        · rw [if_neg hrefused]
          have hkept : ¬ c.Wasted req result := by
            rintro (hfailed | ⟨-, houtcome', hrefused'⟩)
            · simp [Result.isSuccess, houtcome] at hfailed
            · cases houtcome.symm.trans houtcome'
              exact hrefused hrefused'
          unfold deploy
          dsimp only
          split
          · exact .deployed rfl hkept hcreate code
          · exact .kept rfl hkept
    | reverted output =>
        have hfailed : result.isSuccess = false := by simp [Result.isSuccess, houtcome]
        exact hback _ hfailed (.failed hfailed)
    | faulted f =>
        have hfailed : result.isSuccess = false := by simp [Result.isSuccess, houtcome]
        exact hback _ hfailed (.failed hfailed)
  · rw [if_neg hcreate]
    cases hsuccess : result.isSuccess with
    | true =>
        refine .kept hsuccess ?_
        rintro (hfailed | ⟨hcreate', -, -⟩)
        · simp [hsuccess] at hfailed
        · exact hcreate hcreate'
    | false =>
        have hfallback : c.fallback req w = w.journal := if_neg hcreate
        rw [if_neg (by simp), ← hfallback]
        exact .wasted hsuccess (.failed hsuccess)

end Chain

end MeteredEvm
