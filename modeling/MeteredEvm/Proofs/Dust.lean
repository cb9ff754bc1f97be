import MeteredEvm.Proofs.Moments
import MeteredEvm.Proofs.Value

/-!
# `MeteredEvm.Proofs.Dust` — no empty accounts are left behind

Changing an account brings it into being, and an account that comes into being could stay empty.
Under the rule that empty accounts count as absent none does: an account gets value, or a nonce, or
it has had one of them or code before.

What is changed otherwise is the account of the running frame, which has code or a nonce: code runs
only where there is some, and a creation starts with a nonce. An account that was sent value cannot
lose it again, since only a frame of its own could send it on.

## Contents
* `Account.KeepsTaken`, `Journal.KeepsTaken` — code and nonces that are there stay.
* `Journal.NoNewEmpty` — no account since the start is empty.
* `Journal.Changeable` — accounts that can be changed.
* `Journal.AddsNoEmpty` — a piece of a transaction: `addsNoEmpty_update`, `addsNoEmpty_transfer`.
* `Chain.answer_addsNoEmpty` — queries.
* `Chain.launch_addsNoEmpty`, `Chain.conclude_addsNoEmpty` — starting and ending a child.
* `Chain.perform_addsNoEmpty`, `Chain.performAt_addsNoEmpty` — children, with all that runs below.
* `transactions_leave_no_dust`.
-/

namespace MeteredEvm

/-! ## What stays -/

/-- What an account has stays: a nonzero `nonce`, and that `isTaken` holds. -/
structure Account.KeepsTaken (before after : Account) : Prop where
  nonce : before.nonce ≠ 0 → after.nonce ≠ 0
  taken : before.isTaken = true → after.isTaken = true

namespace Account

variable {account : Account}

theorem KeepsTaken.of_eq {before after : Account} (hnonce : after.nonce = before.nonce)
    (hcode : after.code = before.code) : before.KeepsTaken after := by
  refine ⟨fun h => hnonce ▸ h, fun h => ?_⟩
  unfold isTaken
  rw [hnonce, hcode]
  exact h

theorem isTaken_of_nonce (h : account.nonce ≠ 0) : account.isTaken = true := by
  simp [isTaken, h]

theorem isEmpty_of_taken (h : account.isTaken = true) : account.isEmpty = false := by
  unfold isTaken at h
  unfold isEmpty
  rw [Bool.or_eq_true, bne_iff_ne, bne_iff_ne] at h
  rcases h with hcode | hnonce
  · simp [hcode]
  · simp [hnonce]

theorem isEmpty_of_balance (h : account.balance ≠ 0#256) : account.isEmpty = false := by
  simp [isEmpty, h]

end Account

namespace Journal

variable {start : World} {j j' j'' : Journal} {a : Address}

/-- `Account.KeepsTaken` holds of every account. -/
def KeepsTaken (j j' : Journal) : Prop := ∀ a, (j.account a).KeepsTaken (j'.account a)

theorem KeepsTaken.refl (j : Journal) : j.KeepsTaken j := fun _ => ⟨id, id⟩

theorem KeepsTaken.trans (h : j.KeepsTaken j') (h' : j'.KeepsTaken j'') : j.KeepsTaken j'' :=
  fun a => ⟨(h' a).nonce ∘ (h a).nonce, (h' a).taken ∘ (h a).taken⟩

theorem keepsTaken_update {f : Account → Account} (h : (j.account a).KeepsTaken (f (j.account a))) :
    j.KeepsTaken (j.update a f) := by
  intro b
  rw [account_update]
  split
  · rename_i hab
    rw [← hab]
    exact h
  · exact ⟨id, id⟩

/-! ## Empty accounts -/

/-- **No account that was not there at the start is empty** (`Account.isEmpty`), and the balances fit
    a word together. -/
structure NoNewEmpty (start : World) (j : Journal) : Prop where
  filled : ∀ a account, start.account? a = none → j.accounts[a]? = some account →
    account.isEmpty = false
  fits : j.total < 2 ^ 256

/-- **An account that can be changed**: it was there at the start, or `isTaken` holds of it. -/
def Changeable (start : World) (j : Journal) (a : Address) : Prop :=
  start.account? a ≠ none ∨ (j.account a).isTaken = true

theorem Changeable.keepsTaken (h : j.Changeable start a) (hj : j.KeepsTaken j') :
    j'.Changeable start a :=
  h.imp_right (hj a).taken

/-- **A piece of a transaction that leads from `j` to `j'`**: it leaves `NoNewEmpty` and keeps what is
    taken (`KeepsTaken`). -/
structure AddsNoEmpty (start : World) (j j' : Journal) : Prop where
  noNewEmpty : j'.NoNewEmpty start
  keepsTaken : j.KeepsTaken j'

theorem AddsNoEmpty.refl (h : j.NoNewEmpty start) : AddsNoEmpty start j j := ⟨h, .refl j⟩

theorem AddsNoEmpty.trans (h : AddsNoEmpty start j j') (h' : AddsNoEmpty start j' j'') :
    AddsNoEmpty start j j'' :=
  ⟨h'.noNewEmpty, h.keepsTaken.trans h'.keepsTaken⟩

/-- A step that leaves the accounts alone. -/
theorem AddsNoEmpty.of_accounts (h : j.NoNewEmpty start) (haccounts : j'.accounts = j.accounts) :
    AddsNoEmpty start j j' := by
  refine ⟨⟨?_, ?_⟩, fun a => ?_⟩
  · rw [haccounts]
    exact h.filled
  · unfold total
    rw [haccounts]
    exact h.fits
  · unfold account
    rw [haccounts]
    exact ⟨id, id⟩

/-- **Changing an account**, if it is not empty afterwards or was there at the start. -/
theorem addsNoEmpty_update (h : j.NoNewEmpty start) {f : Account → Account}
    (hkeeps : (j.account a).KeepsTaken (f (j.account a)))
    (hfilled : start.account? a = none → (f (j.account a)).isEmpty = false)
    (hfits : (j.update a f).total < 2 ^ 256) : AddsNoEmpty start j (j.update a f) := by
  refine ⟨⟨fun b account hb haccount => ?_, hfits⟩, keepsTaken_update hkeeps⟩
  have hentry : (j.update a f).accounts[b]? =
      if compare a b = .eq then some (f (j.account a)) else j.accounts[b]? :=
    Std.ExtTreeMap.getElem?_insert
  rw [hentry] at haccount
  split at haccount
  · rename_i hab
    cases haccount
    exact hfilled (Std.LawfulEqOrd.eq_of_compare hab ▸ hb)
  · exact h.filled b account hb haccount

/-- Changing an account that can be changed. -/
theorem addsNoEmpty_update_changeable (h : j.NoNewEmpty start) (ha : j.Changeable start a)
    {f : Account → Account} (hkeeps : (j.account a).KeepsTaken (f (j.account a)))
    (hfits : (j.update a f).total < 2 ^ 256) : AddsNoEmpty start j (j.update a f) := by
  refine addsNoEmpty_update h hkeeps (fun hnone => ?_) hfits
  exact Account.isEmpty_of_taken (hkeeps.taken (ha.resolve_left (absurd hnone)))

/-! ## Moving value -/

theorem balance_credit (h : j.total + value.toNat < 2 ^ 256) (hvalue : value ≠ 0#256) :
    (j.account a).balance + value ≠ 0#256 := by
  have hbound := j.balance_le_total a
  have hpos := Word.toNat_ne_zero hvalue
  intro hzero
  have hsum := congrArg BitVec.toNat hzero
  rw [BitVec.toNat_add] at hsum
  unfold balance at hbound
  rw [Nat.mod_eq_of_lt (by omega)] at hsum
  have hnil : (0#256).toNat = 0 := rfl
  omega

/-- **Moving value** from an account that can be changed. The target has something then. -/
theorem addsNoEmpty_transfer? (h : j.NoNewEmpty start) {source target : Address} {value : Word}
    (hsource : j.Changeable start source ∨ j.balance source = 0#256) (hvalue : value ≠ 0#256)
    (htransfer : j.transfer? source target value = some j') :
    AddsNoEmpty start j j' ∧ j'.balance target ≠ 0#256 := by
  have hguards := transfer?_guards htransfer
  unfold transfer? at htransfer
  by_cases hunpaid : j.balance source < value
  · rw [if_pos hunpaid] at htransfer
    cases htransfer
  · rw [if_neg hunpaid] at htransfer
    have hpays : value ≤ j.balance source := BitVec.not_lt.1 hunpaid
    have hfunded : j.balance source ≠ 0#256 := by
      intro hzero
      rw [hzero] at hpays
      exact hvalue (BitVec.le_zero_iff.1 hpays)
    by_cases hself : value = 0#256 ∨ source = target
    · rw [if_pos hself] at htransfer
      cases htransfer
      rw [← hself.resolve_left hvalue]
      exact ⟨.refl h, hfunded⟩
    · rw [if_neg hself] at htransfer
      cases htransfer
      have hdebited : (j.debit source value).total + value.toNat = j.total := total_debit hpays
      have hfits := h.fits
      have hsent : AddsNoEmpty start j (j.debit source value) := by
        refine addsNoEmpty_update_changeable h (hsource.resolve_right hfunded) (.of_eq rfl rfl) ?_
        show (j.debit source value).total < 2 ^ 256
        omega
      have hcredit : ((j.debit source value).account target).balance + value ≠ 0#256 :=
        balance_credit (by omega) hvalue
      have hreceived : AddsNoEmpty start (j.debit source value)
          ((j.debit source value).credit target value) := by
        refine addsNoEmpty_update hsent.noNewEmpty (.of_eq rfl rfl) (fun _ => ?_)
          (Nat.lt_of_le_of_lt hguards.1 hfits)
        exact Account.isEmpty_of_balance hcredit
      refine ⟨hsent.trans hreceived, ?_⟩
      show ((Journal.update _ _ _).account target).balance ≠ 0#256
      rw [account_update, if_pos rfl]
      exact hcredit

/-- Moving what may be nothing. -/
theorem addsNoEmpty_transfer (h : j.NoNewEmpty start) {source target : Address} {value : Word}
    (hsource : j.Changeable start source) : AddsNoEmpty start j (j.transfer source target value) := by
  unfold transfer
  cases htransfer : j.transfer? source target value with
  | none => exact .refl h
  | some j' =>
      by_cases hvalue : value = 0#256
      · have hsame : j' = j := by
          unfold transfer? at htransfer
          rw [if_neg (by simp [hvalue]), if_pos (.inl hvalue)] at htransfer
          exact (Option.some.inj htransfer).symm
        rw [hsame]
        exact .refl h
      · exact (addsNoEmpty_transfer? h (.inl hsource) hvalue htransfer).1

end Journal

/-! ## Queries -/

theorem World.handOver_addsNoEmpty {start w : World} {a : Address} (fork : Fork) (beneficiary : Address)
    (h : w.journal.NoNewEmpty start) (ha : w.journal.Changeable start a) :
    Journal.AddsNoEmpty start w.journal (w.handOver fork a beneficiary) := by
  have hfits := Nat.lt_of_le_of_lt (w.total_handOver_le fork a beneficiary) h.fits
  unfold handOver at hfits ⊢
  split
  · exact Journal.addsNoEmpty_transfer h ha
  · rename_i hself
    rw [if_neg hself] at hfits
    split
    · rename_i hremovable
      rw [if_pos hremovable] at hfits
      exact Journal.addsNoEmpty_update_changeable h ha (.of_eq rfl rfl) hfits
    · exact .refl h

theorem Query.isOwn_of_isQuiet {q : Query} (h : q.isQuiet = true) (a : Address) : q.IsOwn a := by
  cases q with
  | setStorage => cases h
  | setTransient => cases h
  | emitLog => cases h
  | markForDestruction => cases h
  | _ => trivial

namespace Chain

variable {c : Chain} {start w w' : World} {req : CallRequest}

/-- **What is changed for a frame is its own account**, if anything but the target of a transfer. -/
theorem answer_addsNoEmpty (c : Chain) {q : Query} {a : Address} (h : w.journal.NoNewEmpty start)
    (hq : q.IsOwn a) (ha : w.journal.Changeable start a) :
    Journal.AddsNoEmpty start w.journal (c.answer q w).2.journal := by
  cases q with
  | setStorage b key value =>
      cases hq
      have htotal : (w.setStorage a key value).journal.total = w.journal.total :=
        Journal.total_update_of_balance_eq rfl
      exact Journal.addsNoEmpty_update_changeable (f := fun account => account.setSlot key value) h ha
        (.of_eq rfl rfl) (htotal ▸ h.fits)
  | markForDestruction b beneficiary =>
      cases hq
      have hhanded := World.handOver_addsNoEmpty c.fork beneficiary h ha
      exact hhanded.trans (.of_accounts hhanded.noNewEmpty rfl)
  | _ => exact .of_accounts h rfl

/-! ## Starting a child -/

/-- **What a request has to satisfy.** If it moves value, it moves some, and from an account that is
    `Journal.Changeable` or has nothing; and a call runs the code of the account that it acts on, or
    acts on an account that is `Journal.Changeable`. -/
structure Sends (start : World) (j : Journal) (req : CallRequest) : Prop where
  value : req.transfersValue = true → req.value ≠ 0#256 ∧
    (j.Changeable start req.caller ∨ j.balance req.caller = 0#256)
  recipient : req.kind.isCreate = false →
    req.codeAddress = req.recipient ∨ j.Changeable start req.recipient

/-- The requests of a frame whose account can be changed. -/
theorem sends_of_issuesUnder {σ : Type} {s : Setting σ} {guarded : Bool} {j : Journal}
    (h : s.IssuesUnder guarded req) (hown : j.Changeable start s.context.address) :
    Sends start j req := by
  obtain ⟨hissues, hvalueless, -⟩ := h
  cases hissues with
  | call op o input gas hdepth =>
      constructor
      · intro hvalue
        have hsome : o.value ≠ 0#256 := bne_iff_ne.1 hvalue
        cases op with
        | call => exact ⟨hsome, .inl hown⟩
        | callCode => exact ⟨hsome, .inl hown⟩
        | staticCall => exact ⟨hsome, .inl hown⟩
        | delegateCall => exact absurd (hvalue.symm.trans (hvalueless (.inl rfl))) (by decide)
      · intro _
        cases op with
        | call => exact .inl rfl
        | staticCall => exact .inl rfl
        | callCode => exact .inr hown
        | delegateCall => exact .inr hown
  | create kind value initCode gas hkind hdepth =>
      constructor
      · intro hvalue
        exact ⟨bne_iff_ne.1 hvalue, .inl hown⟩
      · intro hcall
        have hcall : kind.isCreate = false := hcall
        rw [hkind] at hcall
        cases hcall

theorem enterCall?_addsNoEmpty {j j' : Journal} (hrule : c.rules.emptyAccountRule = true)
    (h : j.NoNewEmpty start) (hreq : Sends start j req) (henter : c.enterCall? req j = some j') :
    Journal.AddsNoEmpty start j j' := by
  unfold enterCall? at henter
  by_cases hvalue : req.transfersValue = true
  · rw [if_pos hvalue] at henter
    obtain ⟨hsome, hcaller⟩ := hreq.value hvalue
    obtain ⟨paid, htransfer, rfl⟩ := Option.map_eq_some_iff.1 henter
    obtain ⟨hpaid, hbalance⟩ := Journal.addsNoEmpty_transfer? h hcaller hsome htransfer
    refine hpaid.trans (Journal.addsNoEmpty_update hpaid.noNewEmpty ⟨id, id⟩ (fun _ => ?_) ?_)
    · exact Account.isEmpty_of_balance hbalance
    · rw [Journal.total_update_of_balance_eq rfl]
      exact hpaid.noNewEmpty.fits
  · rw [if_neg hvalue, if_pos hrule] at henter
    cases henter
    exact .refl h

/-- **A sender has a nonce once its creation is counted.** -/
theorem counted_addsNoEmpty (c : Chain) (req : CallRequest) (h : w.journal.NoNewEmpty start) :
    Journal.AddsNoEmpty start w.journal (c.counted req w) ∧
      ((c.counted req w).account req.caller).isTaken = true := by
  have hnonce (account : Account) : account.countCreation.nonce ≠ 0 := by
    show min (account.nonce + 1) (u64Size - 1) ≠ 0
    unfold u64Size
    omega
  have htaken (account : Account) : account.countCreation.isTaken = true :=
    Account.isTaken_of_nonce (hnonce account)
  have hupdate : Journal.AddsNoEmpty start w.journal
      (w.journal.update req.caller Account.countCreation) := by
    refine Journal.addsNoEmpty_update h ⟨fun _ => hnonce _, fun _ => htaken _⟩
      (fun _ => Account.isEmpty_of_taken (htaken _)) ?_
    rw [Journal.total_update_of_balance_eq rfl]
    exact h.fits
  have hcaller : ((w.journal.update req.caller Account.countCreation).account
      req.caller).isTaken = true := by
    rw [Journal.account_update, if_pos rfl]
    exact htaken _
  unfold counted countCreation
  dsimp only
  split
  · exact ⟨hupdate.trans (.of_accounts hupdate.noNewEmpty rfl), hcaller⟩
  · exact ⟨hupdate, hcaller⟩

/-- **A new account starts with a nonce**, before it gets its endowment. -/
theorem enterCreate_addsNoEmpty {j : Journal} (hrule : c.rules.emptyAccountRule = true) (site : Address)
    (h : j.NoNewEmpty start) (hcaller : (j.account req.caller).isTaken = true) :
    Journal.AddsNoEmpty start j (c.enterCreate req site j) ∧
      ((c.enterCreate req site j).account site).nonce ≠ 0 := by
  unfold enterCreate
  dsimp only
  generalize hfresh : (fun a : Account => { a with
    storage := {}, nonce := if c.rules.emptyAccountRule then 1 else a.nonce }) = fresh
  have hnonce : (fresh (j.account site)).nonce ≠ 0 := by
    rw [← hfresh]
    show (if c.rules.emptyAccountRule = true then 1 else _) ≠ 0
    rw [if_pos hrule]
    exact Nat.one_ne_zero
  have htaken := Account.isTaken_of_nonce hnonce
  have hsited : Journal.AddsNoEmpty start j (j.update site fresh) := by
    refine Journal.addsNoEmpty_update h ⟨fun _ => hnonce, fun _ => htaken⟩
      (fun _ => Account.isEmpty_of_taken htaken) ?_
    rw [Journal.total_update_of_balance_eq (by rw [← hfresh])]
    exact h.fits
  have hendowed : Journal.AddsNoEmpty start (j.update site fresh)
      ((j.update site fresh).transfer req.caller site req.value) :=
    Journal.addsNoEmpty_transfer hsited.noNewEmpty (.inr ((hsited.keepsTaken _).taken hcaller))
  have hsite : ((j.update site fresh).account site).nonce ≠ 0 := by
    rw [Journal.account_update, if_pos rfl]
    exact hnonce
  have hentered := hsited.trans hendowed
  exact ⟨hentered.trans (.of_accounts hentered.noNewEmpty rfl), (hendowed.keepsTaken site).nonce hsite⟩

/-- The journal that a request goes back to. -/
theorem fallback_addsNoEmpty (c : Chain) (req : CallRequest) (h : w.journal.NoNewEmpty start) :
    Journal.AddsNoEmpty start w.journal (c.fallback req w) := by
  unfold fallback
  split
  · exact (c.counted_addsNoEmpty req h).1
  · exact .refl h

/-- **Starting a frame.** The account of the frame can be changed, unless there is nothing to run;
    and that of a creation has a nonce. -/
theorem launch_addsNoEmpty {frame : Launch} (hrule : c.rules.emptyAccountRule = true)
    (h : w.journal.NoNewEmpty start) (hreq : Sends start w.journal req)
    (hlaunch : c.launch req w = .ok frame) :
    Journal.AddsNoEmpty start w.journal frame.world.journal ∧
      (frame.code.size = 0 ∨ frame.world.journal.Changeable start frame.context.address) ∧
      (req.kind.isCreate = true →
        (frame.world.journal.account (siteOf req w)).nonce ≠ 0) := by
  have hlaunches := c.launches req w
  rw [hlaunch] at hlaunches
  cases hlaunches with
  | @call j hcall henter =>
      have hentered := enterCall?_addsNoEmpty hrule h hreq henter
      refine ⟨hentered, ?_, fun hcreate => ?_⟩
      · by_cases hcode : (j.account req.codeAddress).code.size = 0
        · exact .inl hcode
        · refine .inr ?_
          rcases hreq.recipient hcall with hself | hchangeable
          · -- an account that has the code that runs has code
            show j.Changeable start req.recipient
            rw [← hself]
            exact .inr (by simp [Account.isTaken, hcode])
          · exact hchangeable.keepsTaken hentered.keepsTaken
      · rw [hcall] at hcreate
        cases hcreate
  | create hcreate hpaid hfree =>
      obtain ⟨hcounted, hcaller⟩ := c.counted_addsNoEmpty req h
      obtain ⟨hentered, hnonce⟩ :=
        enterCreate_addsNoEmpty hrule (siteOf req w) hcounted.noNewEmpty hcaller
      have htaken := Account.isTaken_of_nonce hnonce
      exact ⟨hcounted.trans hentered, .inr (.inr htaken), fun _ => hnonce⟩

/-! ## Ending a child -/

/-- **Ending a frame**, be it kept or rolled back. A new account may get no code, but it has a
    nonce. -/
theorem conclude_addsNoEmpty (c : Chain) (result : Result) {after : World}
    (h : w.journal.NoNewEmpty start) (hran : Journal.AddsNoEmpty start w.journal after.journal)
    (hsite : req.kind.isCreate = true → (after.journal.account (siteOf req w)).nonce ≠ 0) :
    Journal.AddsNoEmpty start w.journal (c.conclude req w result after).2.journal := by
  have hconcludes := c.concludes req w result after
  generalize c.conclude req w result after = concluded at hconcludes
  cases hconcludes with
  | wasted hp hwasted => exact c.fallback_addsNoEmpty req h
  | kept hp hkept => exact hran.trans (.of_accounts hran.noNewEmpty rfl)
  | deployed hp hkept hcreate code =>
      have hnonce := hsite hcreate
      have hdeployed : Journal.AddsNoEmpty start after.journal
          (after.journal.update (siteOf req w) fun a => { a with code }) := by
        refine Journal.addsNoEmpty_update hran.noNewEmpty ⟨id, fun _ => ?_⟩ (fun _ => ?_) ?_
        · exact Account.isTaken_of_nonce hnonce
        · exact Account.isEmpty_of_taken (Account.isTaken_of_nonce hnonce)
        · rw [Journal.total_update_of_balance_eq rfl]
          exact hran.noNewEmpty.fits
      exact (hran.trans hdeployed).trans (.of_accounts hdeployed.noNewEmpty rfl)

/-! ## Frames and children -/

/-- A host for frames of the world whose children lead from `NoNewEmpty` by `AddsNoEmpty`, for the
    requests that `Sends` describes. -/
structure NoEmptyHost (c : Chain) (start : World) (host : Host World) : Prop where
  answer : host.answer = c.answer
  call : ∀ ⦃req memory w result memory' w'⦄, w.journal.NoNewEmpty start → Sends start w.journal req →
    host.call req memory w = .ok (result, memory', w') → Journal.AddsNoEmpty start w.journal w'.journal

variable {host : Host World}

theorem frame_keeps_addsNoEmpty (h : c.NoEmptyHost start host) (f : Frame) (guarded : Bool)
    (hown : w.journal.Changeable start f.context.address) :
    (f.setting c.config host).Keeps guarded
      fun v _ => Journal.AddsNoEmpty start w.journal v.journal := by
  have hanswer {q : Query} {v : World} (hq : q.IsOwn f.context.address)
      (hv : Journal.AddsNoEmpty start w.journal v.journal) :
      Journal.AddsNoEmpty start w.journal (host.answer q v).2.journal := by
    rw [h.answer]
    exact hv.trans (c.answer_addsNoEmpty hv.noNewEmpty hq (hown.keepsTaken hv.keepsTaken))
  refine ⟨fun q v _ hq hv => hanswer (q.isOwn_of_isQuiet hq _) hv,
    fun _ q v _ hq hv => hanswer hq hv, fun _ _ _ _ hv => hv, ?_⟩
  intro req memory v _ result memory' v' hissued hv hcall
  have hsends := sends_of_issuesUnder hissued (hown.keepsTaken hv.keepsTaken)
  exact hv.trans (h.call hv.noNewEmpty hsends hcall)

/-- **A frame adds no empty account** (`Journal.AddsNoEmpty`), if its children add none: its account
    is `Changeable`, or it has no code and stops at once. -/
theorem frame_addsNoEmpty (h : c.NoEmptyHost start host) {context : CallContext}
    {input code : ByteArray} {gasLimit : Nat} {memory memory' : Memory} {after : World} {result : Result}
    (hclean : w.journal.NoNewEmpty start)
    (hown : code.size = 0 ∨ w.journal.Changeable start context.address)
    (hexecute : execute c.config host context input gasLimit code memory w =
      .ok (result, memory', after)) : Journal.AddsNoEmpty start w.journal after.journal := by
  rcases hown with hcode | hown
  · rw [(execute_of_size_eq_zero hcode hexecute).1]
    refine host.guard_invariant context
      (P := fun v : World => Journal.AddsNoEmpty start w.journal v.journal) (.refl hclean) ?_
    rw [h.answer]
    exact .refl hclean
  · obtain ⟨_, hadds, -⟩ := execute_keeps
      (P := fun v _ => Journal.AddsNoEmpty start w.journal v.journal)
      (fun f hf => frame_keeps_addsNoEmpty h f _ (hf ▸ hown)) (.refl hclean) hexecute
    exact hadds

/-- **A child adds no empty account**, if its own children add none. -/
theorem perform_addsNoEmpty (hrule : c.rules.emptyAccountRule = true) (h : c.NoEmptyHost start host)
    {memory memory' : Memory} {p : Performed} (hclean : w.journal.NoNewEmpty start)
    (hreq : Sends start w.journal req)
    (hperform : c.perform host req memory w = .ok (p, memory', w')) :
    Journal.AddsNoEmpty start w.journal w'.journal := by
  obtain ⟨hlaunch, -⟩ | ⟨frame, result, after, hlaunch, hexecute, hconclude⟩ :=
    launched_of_perform_ok hperform
  · have hlaunches := c.launches req w
    rw [hlaunch] at hlaunches
    cases hlaunches with
    | unpaid hp hvalue hunpaid => exact .refl hclean
    | met hp hcreate hpaid htaken => exact (c.counted_addsNoEmpty req hclean).1
  · obtain ⟨hentry, hown, hsite⟩ := launch_addsNoEmpty hrule hclean hreq hlaunch
    have hframe := frame_addsNoEmpty h hentry.noNewEmpty hown hexecute
    have hconcluded := c.conclude_addsNoEmpty result hclean (hentry.trans hframe)
      fun hcreate => (hframe.keepsTaken _).nonce (hsite hcreate)
    rw [hconclude] at hconcluded
    exact hconcluded

theorem hostWith_noEmptyHost {perform : Performer}
    (h : ∀ ⦃req memory w p memory' w'⦄, w.journal.NoNewEmpty start → Sends start w.journal req →
      perform req memory w = .ok (p, memory', w') → Journal.AddsNoEmpty start w.journal w'.journal) :
    c.NoEmptyHost start (c.hostWith perform) := by
  refine ⟨rfl, ?_⟩
  intro req memory w result memory' w' hclean hreq hcall
  obtain ⟨p, hperform, -⟩ := of_hostWith_call hcall
  exact h hclean hreq hperform

/-- **At every level, children add no empty account.** -/
theorem performAt_addsNoEmpty (hrule : c.rules.emptyAccountRule = true) (levels : Nat)
    {memory memory' : Memory} {p : Performed} (hclean : w.journal.NoNewEmpty start)
    (hreq : Sends start w.journal req)
    (h : c.perform (c.hostAt levels) req memory w = .ok (p, memory', w')) :
    Journal.AddsNoEmpty start w.journal w'.journal := by
  induction levels generalizing req memory memory' w w' p with
  | zero =>
      refine perform_addsNoEmpty hrule (hostWith_noEmptyHost ?_) hclean hreq h
      intro req memory w p memory' w' _ _ hperform
      cases hperform
  | succ levels ih =>
      refine perform_addsNoEmpty hrule (hostWith_noEmptyHost ?_) hclean hreq h
      intro req memory w p memory' w' hclean hreq hperform
      exact ih hclean hreq hperform

/-! ## Transactions -/

theorem accounts_warmNamed (c : Chain) (named : List Address) (w : World) :
    (c.warmNamed named w).journal.accounts = w.journal.accounts := by
  have hjournal (j : Journal) : (named.foldl Journal.warmAccount j).accounts = j.accounts := by
    induction named generalizing j with
    | nil => rfl
    | cons a named ih => exact ih (j.warmAccount a)
  unfold warmNamed
  split
  · exact hjournal w.journal
  · rfl

end Chain

/-- What comes from outside moves value from an account that was there, or there is none to move. -/
theorem Transaction.sends {w : World} {j : Journal} (haccounts : j.accounts = w.journal.accounts)
    (t : Transaction) : Chain.Sends w j t.request := by
  have hcaller (a : Address) : j.Changeable w a ∨ j.balance a = 0#256 := by
    cases haccount : w.account? a with
    | some account =>
        left
        left
        rw [haccount]
        exact Option.some_ne_none account
    | none =>
        right
        unfold Journal.balance Journal.account
        rw [haccounts, Std.ExtTreeMap.getD_eq_getD_getElem?]
        unfold World.account? at haccount
        rw [haccount]
        rfl
  cases t with
  | call caller target value input gas =>
      exact ⟨fun hvalue => ⟨bne_iff_ne.1 hvalue, hcaller caller⟩, fun _ => .inl rfl⟩
  | deploy caller initCode value gas =>
      refine ⟨fun hvalue => ⟨bne_iff_ne.1 hvalue, hcaller caller⟩, fun hcall => ?_⟩
      cases hcall

/-- **No transaction leaves dust.** From Spurious Dragon on and from every world whose balances fit
    a word together (`World.total`), an account that is there after `Chain.transact` and was not there
    before has code, a nonce or a balance. A transaction comes to a receipt. -/
theorem transactions_leave_no_dust (c : Chain) (hfork : c.fork.since .spuriousDragon = true)
    (t : Transaction) (w : World) (hfits : w.total < 2 ^ 256) :
    (∀ receipt w', c.transact t w = .ok (receipt, w') →
      ∀ a account, w.account? a = none → w'.account? a = some account →
        account.code.size ≠ 0 ∨ account.nonce ≠ 0 ∨ account.balance ≠ 0#256) ∧
    (c.config.memoryLimit ≤ Memory.pricedLimit → t.gas < u64Size →
      ∃ receipt w', c.transact t w = .ok (receipt, w')) := by
  rw [Chain.transact_eq]
  constructor
  · intro receipt w' htransact a account habsent haccount
    obtain ⟨p, memory', hperform⟩ := Chain.of_runOutermost_ok htransact
    have haccounts := c.accounts_warmNamed t.named w
    have hclean : (c.warmNamed t.named w).journal.NoNewEmpty w := by
      refine ⟨fun b account hb hentry => ?_, ?_⟩
      · rw [haccounts] at hentry
        cases hb.symm.trans hentry
      · have htotal := c.total_warmNamed t.named w
        unfold World.total at htotal hfits
        omega
    unfold Chain.performAll at hperform
    have hadds := Chain.performAt_addsNoEmpty hfork _ hclean (t.sends haccounts) hperform
    have hfilled := hadds.noNewEmpty.filled a account habsent haccount
    unfold Account.isEmpty at hfilled
    simp only [Bool.and_eq_false_iff, beq_eq_false_iff_ne] at hfilled
    exact or_assoc.1 hfilled
  · intro hmemory hgas
    have hrequest : t.request.gas < u64Size := by
      cases t <;> exact hgas
    exact c.runOutermost_ok hmemory hrequest _

/-- The fifth account comes into being when the second one is destroyed in its favour. -/
theorem transactions_leave_no_dust_fourAccounts :
    shanghaiChain.fork.since .spuriousDragon = true ∧ fourAccounts.total < 2 ^ 256 ∧
    shanghaiChain.config.memoryLimit ≤ Memory.pricedLimit ∧ (sendThree 2).gas < u64Size ∧
    fourAccounts.account? 5 = none ∧
    ∃ receipt w' account, shanghaiChain.transact (sendThree 2) fourAccounts = .ok (receipt, w') ∧
      w'.account? 5 = some account ∧
      (account.code.size ≠ 0 ∨ account.nonce ≠ 0 ∨ account.balance ≠ 0#256) := by
  have hfork : shanghaiChain.fork.since .spuriousDragon = true := by decide
  have hfits : fourAccounts.total < 2 ^ 256 := by decide +kernel
  have habsent : (fourAccounts.account? 5).isNone = true := by decide +kernel
  have hpresent : (shanghaiChain.transact (sendThree 2) fourAccounts).toOption.bind
      (fun r => (r.2.account? 5).map (·.balance)) = some 8 := by
    decide +kernel
  obtain ⟨hdust, hreceipt⟩ :=
    transactions_leave_no_dust shanghaiChain hfork (sendThree 2) fourAccounts hfits
  obtain ⟨receipt, w', htransact⟩ := hreceipt (by decide) (by decide)
  rw [Option.isNone_iff_eq_none] at habsent
  rw [htransact] at hpresent
  obtain ⟨account, haccount, -⟩ := Option.map_eq_some_iff.1 hpresent
  exact ⟨hfork, hfits, by decide, by decide, habsent, receipt, w', account, htransact, haccount,
    hdust receipt w' htransact 5 account habsent haccount⟩

end MeteredEvm
