import MeteredEvm.Proofs.Moments

/-!
# `MeteredEvm.Proofs.Sessions` — from the start of a transaction to its end

Between two ends of a transaction there can be any number of calls and deployments, and they share
what the transaction has used, its refunds and its notes on the slots. This module follows the world
through all of them.

No receipt has a negative refund, although a frame can come to one: a frame that fills a slot which
an earlier one has cleared gives back what that one has earned.

And the value of a slot at the start can be told at every moment, with one exception. A creation
clears the slots of its account without taking notes, so what such an account held before it came
into being is forgotten, even if the creation comes to nothing.

## Contents
* `Chain.Starts` — the worlds on which a transaction can start.
* `Chain.session`, `Chain.sessionMoments` — calls and deployments in a row.
* `Chain.session_advancesThrough`, `Chain.session_solvent` — the world and the refunds along the way.
* `refunds_never_negative`, `initialStorage_tells_start_iff`.
-/

namespace MeteredEvm

namespace Chain

/-! ## Transactions in a row -/

/-- **The worlds on which a transaction can start**: a new one, or one that `Chain.finalize` leaves,
    with any accounts put into it (`World.setAccount`). -/
inductive Starts (c : Chain) : World → Prop where
  | new : Starts c {}
  | finalized (w : World) : Starts c (c.finalize w)
  | inserted {w : World} (h : Starts c w) (a : Address) (account : Account) :
      Starts c (w.setAccount a account)

/-- Run calls and deployments in a row. -/
def session (c : Chain) : List Transaction → World → Except Trap (List Receipt × World)
  | [], w => .ok ([], w)
  | t :: ts, w => do
    let (receipt, w) ← c.transact t w
    let (receipts, w) ← c.session ts w
    return (receipt :: receipts, w)

/-- The worlds that a call or deployment goes through. -/
def moments (c : Chain) (t : Transaction) (w : World) : List World :=
  c.momentsAt c.config.maxCallDepth t.request (.new c.config.memoryLimit) (c.warmNamed t.named w)

/-- **The worlds that calls and deployments in a row go through**, with those between them. -/
def sessionMoments (c : Chain) : List Transaction → World → List World
  | [], w => [w]
  | t :: ts, w =>
    match c.transact t w with
    | .error _ => [w]
    | .ok (_, w') => w :: c.moments t w ++ c.sessionMoments ts w'

variable {c : Chain} {start w w' : World} {sites : Address → Prop} {t : Transaction}
  {ts : List Transaction} {receipt : Receipt} {receipts : List Receipt}

/-- At the start there are no notes, no creations and no refunds. -/
theorem Starts.fresh (h : c.Starts start) :
    start.initial = {} ∧ start.journal.created = {} ∧ start.journal.refund = 0 := by
  induction h with
  | new => exact ⟨rfl, rfl, rfl⟩
  | finalized w => exact ⟨rfl, rfl, rfl⟩
  | inserted h a account ih => exact ih

theorem Starts.since (h : c.Starts start) : start.Since sites start :=
  World.since_start h.fresh.1 h.fresh.2.1

theorem Starts.surplus (h : c.Starts start) : c.surplus start = 0 := by
  obtain ⟨hinitial, -, hrefund⟩ := h.fresh
  have hcleared : start.cleared = ∅ := by
    unfold World.cleared
    rw [hinitial]
    rfl
  unfold Chain.surplus
  rw [hrefund, hcleared]
  simp

theorem cons_of_session_ok (h : c.session (t :: ts) w = .ok (receipts, w')) :
    ∃ receipt rest v, c.transact t w = .ok (receipt, v) ∧ c.session ts v = .ok (rest, w') ∧
      receipts = receipt :: rest := by
  unfold session at h
  cases htransact : c.transact t w with
  | error e =>
      rw [htransact] at h
      cases h
  | ok first =>
      rw [htransact] at h
      have h : (c.session ts first.2 >>= fun r => pure (first.1 :: r.1, r.2)) =
        .ok (receipts, w') := h
      cases hsession : c.session ts first.2 with
      | error e =>
          rw [hsession] at h
          cases h
      | ok rest =>
          rw [hsession] at h
          cases h
          exact ⟨first.1, rest.1, first.2, rfl, hsession, rfl⟩

/-- **Calls and deployments in a row come to receipts**, one for each. -/
theorem session_ok (c : Chain) (hmemory : c.config.memoryLimit ≤ Memory.pricedLimit)
    (hgas : ∀ t ∈ ts, t.gas < u64Size) (w : World) :
    ∃ receipts w', c.session ts w = .ok (receipts, w') ∧ receipts.length = ts.length := by
  induction ts generalizing w with
  | nil => exact ⟨[], w, rfl, rfl⟩
  | cons t ts ih =>
      have hfirst : t.request.gas < u64Size := by
        have hlt := hgas t List.mem_cons_self
        cases t <;> exact hlt
      obtain ⟨receipt, v, hrun⟩ := c.runOutermost_ok hmemory hfirst (c.warmNamed t.named w)
      rw [← transact_eq] at hrun
      obtain ⟨receipts, w', hsession, hlength⟩ :=
        ih (fun t ht => hgas t (List.mem_cons_of_mem _ ht)) v
      refine ⟨receipt :: receipts, w', ?_, by simp [hlength]⟩
      unfold session
      rw [hrun]
      show (c.session ts v >>= fun r => pure (receipt :: r.1, r.2)) = _
      rw [hsession]
      rfl

/-! ## Along the way -/

theorem retains_warmNamed (c : Chain) (named : List Address) (w : World) :
    w.journal.Retains (c.warmNamed named w).journal ∧ (c.warmNamed named w).initial = w.initial := by
  have hjournal (j : Journal) : j.Retains (named.foldl Journal.warmAccount j) := by
    induction named generalizing j with
    | nil => exact .refl j
    | cons a named ih =>
        have hfirst : j.Retains (j.warmAccount a) := .of_accounts rfl rfl rfl
        exact hfirst.trans (ih _)
  unfold warmNamed
  split
  · exact ⟨hjournal w.journal, rfl⟩
  · exact ⟨.refl _, rfl⟩

theorem admits_request (t : Transaction) : Admits start sites w t.request := by
  intro hcall
  cases t with
  | call caller target value input gas => exact .inl rfl
  | deploy caller initCode value gas => cases hcall

/-- The outermost frame of a call or deployment has as many levels below it as there can be, and the
    receipt has the refunds of the journal, unless that frame has failed. -/
theorem of_transact_ok (h : c.transact t w = .ok (receipt, w')) :
    ∃ p memory', c.perform (c.hostAt c.config.maxCallDepth) t.request
        (.new c.config.memoryLimit) (c.warmNamed t.named w) = .ok (p, memory', w') ∧
      receipt.refund = if p.result.isSuccess then w'.journal.refund else 0 := by
  have hlevels : c.performAll t.request (.new c.config.memoryLimit) (c.warmNamed t.named w) =
      c.perform (c.hostAt c.config.maxCallDepth) t.request (.new c.config.memoryLimit)
        (c.warmNamed t.named w) := by
    cases t <;> rfl
  rw [transact_eq] at h
  unfold runOutermost at h
  rw [hlevels] at h
  cases hperform : c.perform (c.hostAt c.config.maxCallDepth) t.request
    (.new c.config.memoryLimit) (c.warmNamed t.named w) with
  | error e =>
      rw [hperform] at h
      cases h
  | ok r =>
      rw [hperform] at h
      cases h
      exact ⟨r.1, r.2.1, rfl, rfl⟩

/-- **What a call or deployment goes through can be followed**, and its receipt says what is in the
    journal, or nothing. -/
theorem transact_advancesThrough (hsince : start.Since sites w)
    (h : c.transact t w = .ok (receipt, w')) :
    c.AdvancesThrough start sites w (c.moments t w) w' 0 ∧
      (receipt.refund = w'.journal.refund ∨ receipt.refund = 0) := by
  obtain ⟨p, memory', hperform, hrefund⟩ := of_transact_ok h
  obtain ⟨hjournal, hinitial⟩ := c.retains_warmNamed t.named w
  have hwarmed : c.Advances start sites w (c.warmNamed t.named w) 0 :=
    .retaining c hsince hjournal hinitial
  constructor
  · intro hsites
    obtain ⟨hran, hworlds⟩ :=
      c.performAt_advancesThrough _ hwarmed.since (admits_request t) hperform hsites
    exact ⟨hwarmed.trans hran, hworlds⟩
  · rw [hrefund]
    split
    · exact .inl rfl
    · exact .inr rfl

/-- **What calls and deployments in a row go through can be followed.** -/
theorem session_advancesThrough (hsince : start.Since sites w)
    (hsites : ∀ v ∈ c.sessionMoments ts w, ∀ a ∈ v.journal.created, sites a) :
    ∀ v ∈ c.sessionMoments ts w, start.Since sites v := by
  induction ts generalizing w with
  | nil =>
      intro v hv
      rw [List.mem_singleton.1 hv]
      exact hsince
  | cons t ts ih =>
      unfold sessionMoments at hsites ⊢
      cases htransact : c.transact t w with
      | error e =>
          intro v hv
          rw [List.mem_singleton.1 hv]
          exact hsince
      | ok first =>
          rw [htransact] at hsites
          dsimp only at hsites ⊢
          obtain ⟨hfirst, hworlds⟩ := (transact_advancesThrough hsince htransact).1 fun v hv =>
            hsites v (by simp [hv])
          have hrest := ih hfirst.since fun v hv => hsites v (by simp [hv])
          intro v hv
          rw [List.cons_append, List.mem_cons, List.mem_append] at hv
          rcases hv with rfl | hv | hv
          · exact hsince
          · exact hworlds v hv
          · exact hrest v hv

/-- The last world is one of them. -/
theorem mem_sessionMoments (h : c.session ts w = .ok (receipts, w')) :
    w' ∈ c.sessionMoments ts w := by
  induction ts generalizing w receipts with
  | nil =>
      cases h
      exact List.mem_singleton_self _
  | cons t ts ih =>
      obtain ⟨receipt, rest, v, htransact, hsession, -⟩ := cons_of_session_ok h
      unfold sessionMoments
      rw [htransact]
      exact List.mem_append_right _ (ih hsession)

/-- **Refunds stay ahead of the cleared slots**, from receipt to receipt. -/
theorem session_solvent (hsince : start.Since (fun _ => True) w) (hsurplus : 0 ≤ c.surplus w)
    (h : c.session ts w = .ok (receipts, w')) :
    0 ≤ c.surplus w' ∧ ∀ receipt ∈ receipts, 0 ≤ receipt.refund := by
  induction ts generalizing w receipts with
  | nil =>
      cases h
      simp [hsurplus]
  | cons t ts ih =>
      obtain ⟨receipt, rest, v, htransact, hsession, rfl⟩ := cons_of_session_ok h
      obtain ⟨hthrough, hrefund⟩ := transact_advancesThrough hsince htransact
      obtain ⟨hadvances, -⟩ := hthrough fun _ _ _ _ => trivial
      have hahead : 0 ≤ c.surplus v := by
        have hstep := hadvances.surplus
        omega
      obtain ⟨hlast, hrest⟩ := ih hadvances.since hahead hsession
      refine ⟨hlast, fun r hr => ?_⟩
      rcases List.mem_cons.1 hr with rfl | hr
      · rcases hrefund with hrefund | hrefund
        · rw [hrefund]
          exact c.refund_nonneg_of_surplus hahead
        · rw [hrefund]
      · exact hrest r hr

end Chain

/-- **No receipt has a negative refund.** On every fork, from every world on which a transaction can
    start (`Chain.Starts`), whatever calls and deployments are made in a row (`Chain.session`) and
    whatever their frames clear, fill, restore, keep or roll back, each receipt has a refund of zero
    or more; and the refunds of the transaction are never less than those for the slots that are
    `cleared` in the end. Each call and deployment comes to a receipt. -/
theorem refunds_never_negative (c : Chain) {start : World} (hstart : c.Starts start)
    (ts : List Transaction) :
    (∀ receipts w', c.session ts start = .ok (receipts, w') →
      (∀ receipt ∈ receipts, 0 ≤ receipt.refund) ∧
        c.clearRefund * w'.cleared.card ≤ w'.journal.refund) ∧
    (c.config.memoryLimit ≤ Memory.pricedLimit → (∀ t ∈ ts, t.gas < u64Size) →
      ∃ receipts w', c.session ts start = .ok (receipts, w') ∧ receipts.length = ts.length) := by
  refine ⟨fun receipts w' hsession => ?_, fun hmemory hgas => c.session_ok hmemory hgas start⟩
  have hsurplus : 0 ≤ c.surplus start := Int.le_of_eq hstart.surplus.symm
  obtain ⟨hlast, hreceipts⟩ := Chain.session_solvent hstart.since hsurplus hsession
  refine ⟨hreceipts, ?_⟩
  unfold Chain.surplus at hlast
  omega

/-- A code that writes the first word of its input to slot 0. -/
def storeInput : ByteArray := ⟨#[0x5f, 0x35, 0x5f, 0x55]⟩

/-- A world of one account, which stores its input and has 1 in slot 0. -/
def oneSlot : World := ({} : World).setAccount 2 (Account.setSlot { code := storeInput } 0 1)

/-- Store a byte in slot 0. -/
def storeByte (n : UInt8) : Transaction :=
  .call 1 2 0 (Bytes.zeros 31 ++ ⟨#[n]⟩) 100000

/-- The refunds of the outermost frames of a session, and those of its receipts. -/
def refundsOf (c : Chain) (ts : List Transaction) (w : World) : List (Int × Int) :=
  match c.session ts w with
  | .ok (receipts, _) => receipts.map fun receipt => (receipt.result.refund, receipt.refund)
  | .error _ => []

/-- The first call clears the slot and earns 4800. The second one fills it with something else, which
    takes the same from its own frame, and leaves the transaction with nothing. -/
theorem refunds_never_negative_clearAndFill :
    ({} : Chain).Starts oneSlot ∧
    refundsOf {} [storeByte 0, storeByte 7] oneSlot = [(4800, 4800), (-4800, 0)] ∧
    ∃ receipts w', ({} : Chain).session [storeByte 0, storeByte 7] oneSlot = .ok (receipts, w') ∧
      ∀ receipt ∈ receipts, 0 ≤ receipt.refund := by
  have hstart : ({} : Chain).Starts oneSlot := .inserted .new 2 _
  have hrefunds : refundsOf {} [storeByte 0, storeByte 7] oneSlot = [(4800, 4800), (-4800, 0)] := by
    decide +kernel
  obtain ⟨hnonneg, hsession⟩ := refunds_never_negative {} hstart [storeByte 0, storeByte 7]
  obtain ⟨receipts, w', hok, -⟩ := hsession (by decide) (by decide)
  exact ⟨hstart, hrefunds, receipts, w', hok, (hnonneg receipts w' hok).1⟩

/-! ## Values at the start -/

/-- **The value of a slot at the start can be told at every moment, unless it was something and its
    account is created.** On every fork and from every world on which a transaction can start
    (`Chain.Starts`), whatever calls and deployments are made in a row, `World.initialStorage` says
    what the slot held at the start in every frame, after every answer and after every rollback
    (`Chain.sessionMoments`), if and only if the slot held nothing or no creation has been at its
    account. No account with code or a nonce is created. The world after the last call or deployment
    is one of those moments. -/
theorem initialStorage_tells_start_iff (c : Chain) {start : World} (hstart : c.Starts start)
    (ts : List Transaction) (a : Address) (key : Word) :
    ((∀ v ∈ c.sessionMoments ts start, v.initialStorage a key = start.storage a key) ↔
      start.storage a key = 0 ∨ ∀ v ∈ c.sessionMoments ts start, a ∉ v.journal.created) ∧
    ((start.journal.account a).isTaken = true →
      ∀ v ∈ c.sessionMoments ts start, a ∉ v.journal.created) ∧
    (c.config.memoryLimit ≤ Memory.pricedLimit → (∀ t ∈ ts, t.gas < u64Size) →
      ∃ receipts w', c.session ts start = .ok (receipts, w') ∧ receipts.length = ts.length ∧
        w' ∈ c.sessionMoments ts start) := by
  -- the sites of all creations that there are
  let sites : Address → Prop := fun b => ∃ v ∈ c.sessionMoments ts start, b ∈ v.journal.created
  have hsince : ∀ v ∈ c.sessionMoments ts start, start.Since sites v :=
    Chain.session_advancesThrough hstart.since fun v hv b hb => ⟨v, hv, hb⟩
  refine ⟨⟨fun htells => ?_, fun h v hv => ?_⟩, fun hold v hv ha => ?_, fun hmemory hgas => ?_⟩
  · by_cases hzero : start.storage a key = 0
    · exact .inl hzero
    · refine .inr fun v hv ha => hzero ?_
      rw [← htells v hv]
      exact (hsince v hv).initialStorage_of_created ha key
  · rcases (hsince v hv).initialStorage_cases a key with hsame | ⟨hnew, hnothing⟩
    · exact hsame
    · rcases h with hzero | hnever
      · exact hnothing.trans hzero.symm
      · obtain ⟨u, hu, ha⟩ := hnew.2
        exact absurd ha (hnever u hu)
  · exact ((hsince v hv).created a ha).1.1 hold
  · obtain ⟨receipts, w', hsession, hlength⟩ := c.session_ok hmemory hgas start
    exact ⟨receipts, w', hsession, hlength, Chain.mem_sessionMoments hsession⟩

/-- Clearing the slot and filling it with something else, the world can tell that it held 1. -/
theorem initialStorage_tells_start_iff_clearAndFill :
    ({} : Chain).Starts oneSlot ∧ (oneSlot.journal.account 2).isTaken = true ∧
    oneSlot.storage 2 0 = 1 ∧
    ∃ receipts w', ({} : Chain).session [storeByte 0, storeByte 7] oneSlot = .ok (receipts, w') ∧
      w'.initialStorage 2 0 = 1 := by
  have hstart : ({} : Chain).Starts oneSlot := .inserted .new 2 _
  have htaken : (oneSlot.journal.account 2).isTaken = true := by decide +kernel
  have hslot : oneSlot.storage 2 0 = 1 := by decide +kernel
  obtain ⟨htells, hnever, hsession⟩ :=
    initialStorage_tells_start_iff {} hstart [storeByte 0, storeByte 7] 2 0
  obtain ⟨receipts, w', hok, -, hmem⟩ := hsession (by decide) (by decide)
  refine ⟨hstart, htaken, hslot, receipts, w', hok, ?_⟩
  rw [htells.2 (.inr (hnever htaken)) w' hmem, hslot]

/-- The account that the first creation of account 1 is at. -/
def firstSite : Address := 0x522b3294e6d06aa25ad0f1b8891242e335d3b459

/-- Init code that writes 7 to slot 1 and reverts. -/
def writeThenRevert : ByteArray := ⟨#[0x60, 7, 0x60, 1, 0x55, 0x60, 0, 0x60, 0, 0xfd]⟩

/-- A world in which the site of a creation has 5 in slot 1, and neither code nor a nonce. -/
def slotAtSite : World := ({} : World).setAccount firstSite (Account.setSlot {} 1 5)

/-- A chain on which creations can revert, and writes are not yet priced by their net effect. -/
def byzantiumChain : Chain := { config := { fork := .byzantium } }

/-- What some slot holds after a session, and what the world says it held at the start. -/
def slotAfter (c : Chain) (ts : List Transaction) (w : World) (a : Address) (key : Word) :
    Option (Word × Word) :=
  (c.session ts w).toOption.map fun r => (r.2.storage a key, r.2.initialStorage a key)

/-- **A creation that comes to nothing makes the world forget.** The slot holds 5 at the start and
    again after the rollback, but the write in between has been noted on top of nothing. -/
theorem rolledBack_creation_forgets_start :
    slotAtSite.storage firstSite 1 = 5 ∧
    slotAfter byzantiumChain [.deploy 1 writeThenRevert 0 100000] slotAtSite firstSite 1 =
      some (5, 0) := by
  decide +kernel

end MeteredEvm
