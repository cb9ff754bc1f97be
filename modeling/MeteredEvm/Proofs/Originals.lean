import Mathlib.Data.Finset.Card
import Mathlib.Tactic.Linarith
import MeteredEvm.Proofs.Launch
import MeteredEvm.Proofs.NetPricing
import MeteredEvm.Proofs.Parallel

/-!
# `MeteredEvm.Proofs.Originals` — what the world knows of the start of the transaction

The values that slots had at the start of the transaction are written down at the first write, and
are not rolled back. Storage also changes without a write: a creation clears the slots of its
account, and a frame that fails brings old slots back. So what has been written down and what is
still there have to fit together after every step.

They do for an account that was there at the start, since nothing is created on it: its slots change
by writes only. They do not for a new account that had something in its slots before it came into
being: what was there is cleared without a note, and counts as never having been there.

Refunds go with the slots that have been cleared. What a write earns or takes back is at least what
it does to their number, so the refunds of the transaction are never less than those slots stand for.

## Contents
* `Journal.Retains` — changes that leave code, slots, creations and refunds alone.
* `World.Old`, `World.Blank`, `World.Settled`, `World.Since` — the world and the start.
* `World.cleared`, `Chain.surplus` — refunds and cleared slots.
* `Chain.Advances` — a piece of a transaction, with its refunds: `Advances.retaining`,
  `Advances.setStorage`, `Advances.enterCreate`, `Advances.deployed`, `Advances.rolledBack`.
-/

namespace MeteredEvm

/-! ## Accounts and slots -/

theorem Account.slot_setSlot (account : Account) (key value k : Word) :
    (account.setSlot key value).slot k = if key = k then value else account.slot k := by
  unfold setSlot slot
  by_cases hzero : value = 0#256
  · rw [if_pos hzero, Std.ExtTreeMap.getD_erase]
    simp only [Std.LawfulEqCmp.compare_eq_iff_eq, hzero]
    rfl
  · rw [if_neg hzero, Std.ExtTreeMap.getD_insert]
    simp only [Std.LawfulEqCmp.compare_eq_iff_eq]

theorem Journal.account_update (j : Journal) (a : Address) (f : Account → Account) (b : Address) :
    (j.update a f).account b = if a = b then f (j.account a) else j.account b := by
  unfold update account
  rw [Std.ExtTreeMap.getD_insert]
  simp only [Std.LawfulEqCmp.compare_eq_iff_eq]

namespace World

theorem storage_setStorage (w : World) (a : Address) (key value : Word) (b : Address) (k : Word) :
    (w.setStorage a key value).storage b k =
      if a = b ∧ key = k then value else w.storage b k := by
  unfold setStorage storage
  rw [Journal.account_update]
  by_cases hab : a = b
  · subst hab
    simp [Account.slot_setSlot]
  · simp [hab]

theorem initialStorage_of_some {w : World} {a : Address} {key v : Word}
    (h : w.initial[(⟨a, key⟩ : Slot)]? = some v) : w.initialStorage a key = v := by
  unfold initialStorage
  rw [Std.ExtTreeMap.getD_eq_getD_getElem?, h]
  rfl

theorem initialStorage_of_none {w : World} {a : Address} {key : Word}
    (h : w.initial[(⟨a, key⟩ : Slot)]? = none) : w.initialStorage a key = w.storage a key := by
  unfold initialStorage
  rw [Std.ExtTreeMap.getD_eq_getD_getElem?, h]
  rfl

/-- A write keeps what the slot held at the start, be it from a note or from the slot. -/
theorem getElem?_initial_setStorage (w : World) (a : Address) (key value : Word) (s : Slot) :
    (w.setStorage a key value).initial[s]? =
      if ⟨a, key⟩ = s then some (w.initialStorage a key) else w.initial[s]? := by
  unfold setStorage
  rw [Std.ExtTreeMap.getElem?_insertIfNew]
  simp only [Std.LawfulEqCmp.compare_eq_iff_eq, Std.ExtTreeMap.mem_iff_isSome_getElem?]
  by_cases hs : (⟨a, key⟩ : Slot) = s
  · subst hs
    cases hnote : w.initial[(⟨a, key⟩ : Slot)]? with
    | none => simp [initialStorage_of_none hnote]
    | some v => simp [initialStorage_of_some hnote]
  · simp [hs]

end World

/-- Changing an account without its slots. -/
theorem World.storage_update (w : World) (site : Address) {f : Account → Account}
    (hf : ∀ account, (f account).storage = account.storage) (a : Address) (key : Word) :
    World.storage { w with journal := w.journal.update site f } a key = w.storage a key := by
  unfold World.storage Account.slot
  rw [Journal.account_update]
  split
  · rename_i heq
    rw [hf, heq]
  · rfl

/-! ## Changes that leave most alone -/

/-- **The journal `j'` has the code, the slots, the creations and the refunds of `j`**, and every
    account that was taken is. -/
structure Journal.Retains (j j' : Journal) : Prop where
  code : ∀ a, (j'.account a).code = (j.account a).code
  slot : ∀ a key, (j'.account a).slot key = (j.account a).slot key
  taken : ∀ a, (j.account a).isTaken = true → (j'.account a).isTaken = true
  created : j'.created = j.created
  refund : j'.refund = j.refund

namespace Journal

variable {j j' j'' : Journal}

theorem Retains.refl (j : Journal) : j.Retains j :=
  ⟨fun _ => rfl, fun _ _ => rfl, fun _ h => h, rfl, rfl⟩

theorem Retains.trans (h : j.Retains j') (h' : j'.Retains j'') : j.Retains j'' where
  code a := (h'.code a).trans (h.code a)
  slot a key := (h'.slot a key).trans (h.slot a key)
  taken a htaken := h'.taken a (h.taken a htaken)
  created := h'.created.trans h.created
  refund := h'.refund.trans h.refund

/-- Journals with the same accounts. -/
theorem Retains.of_accounts (haccounts : j'.accounts = j.accounts)
    (hcreated : j'.created = j.created) (hrefund : j'.refund = j.refund) : j.Retains j' := by
  have haccount (a : Address) : j'.account a = j.account a := by
    unfold account
    rw [haccounts]
  refine ⟨fun a => ?_, fun a key => ?_, fun a htaken => ?_, hcreated, hrefund⟩
  · rw [haccount]
  · rw [haccount]
  · rw [haccount]
    exact htaken

/-- Changing the balance or the nonce of an account, if that does not free it. -/
theorem retains_update (j : Journal) (a : Address) {f : Account → Account}
    (hcode : ∀ account, (f account).code = account.code)
    (hstorage : ∀ account, (f account).storage = account.storage)
    (htaken : ∀ account : Account, account.isTaken = true → (f account).isTaken = true) :
    j.Retains (j.update a f) := by
  refine ⟨fun b => ?_, fun b key => ?_, fun b hb => ?_, rfl, rfl⟩ <;> rw [account_update]
  · split
    · rename_i hab
      rw [hcode, hab]
    · rfl
  · split
    · rename_i hab
      unfold Account.slot
      rw [hstorage, hab]
    · rfl
  · split
    · rename_i hab
      exact htaken _ (hab ▸ hb)
    · exact hb

theorem retains_touch (j : Journal) (a : Address) : j.Retains (j.touch a) :=
  j.retains_update a (fun _ => rfl) (fun _ => rfl) fun _ h => h

theorem retains_of_transfer? {a b : Address} {value : Word} (h : j.transfer? a b value = some j') :
    j.Retains j' := by
  unfold transfer? at h
  split at h
  · cases h
  · split at h
    · cases h
      exact .refl _
    · cases h
      refine Retains.trans (j.retains_update a ?_ ?_ ?_) (retains_update _ b ?_ ?_ ?_) <;>
        simp [Account.isTaken]

theorem retains_transfer (j : Journal) (a b : Address) (value : Word) :
    j.Retains (j.transfer a b value) := by
  unfold transfer
  cases h : j.transfer? a b value with
  | none => exact .refl _
  | some j' => exact retains_of_transfer? h

end Journal

theorem World.retains_handOver (w : World) (fork : Fork) (a b : Address) :
    w.journal.Retains (w.handOver fork a b) := by
  unfold handOver
  split
  · exact w.journal.retains_transfer _ _ _
  · split
    · exact w.journal.retains_update _ (fun _ => rfl) (fun _ => rfl) fun _ h => h
    · exact .refl _

namespace Chain

variable {c : Chain} {req : CallRequest} {w : World}

theorem retains_of_enterCall? {j j' : Journal} (h : c.enterCall? req j = some j') :
    j.Retains j' := by
  unfold enterCall? at h
  split at h
  · obtain ⟨j₁, htransfer, rfl⟩ := Option.map_eq_some_iff.1 h
    exact (Journal.retains_of_transfer? htransfer).trans (j₁.retains_touch _)
  · split at h
    · cases h
      exact .refl _
    · cases h
      exact j.retains_touch _

theorem retains_counted (c : Chain) (req : CallRequest) (w : World) :
    w.journal.Retains (c.counted req w) := by
  have hcount : w.journal.Retains (w.journal.update req.caller Account.countCreation) := by
    refine w.journal.retains_update _ (fun _ => rfl) (fun _ => rfl) fun account _ => ?_
    simp [Account.isTaken, Account.countCreation]
  unfold counted countCreation
  dsimp only
  split
  · exact hcount.trans (.of_accounts rfl rfl rfl)
  · exact hcount

/-- Only writing a slot does more to what a transaction is judged by. -/
theorem retains_answer (c : Chain) {q : Query} (hq : q.writesSlot = false) (w : World) :
    w.journal.Retains (c.answer q w).2.journal ∧ (c.answer q w).2.initial = w.initial := by
  cases q with
  | setStorage a key value => cases hq
  | markForDestruction a beneficiary =>
      exact ⟨(w.retains_handOver c.fork a beneficiary).trans (.of_accounts rfl rfl rfl), rfl⟩
  | setTransient a key value => exact ⟨.of_accounts rfl rfl rfl, rfl⟩
  | markWarm access => exact ⟨.of_accounts rfl rfl rfl, rfl⟩
  | emitLog log => exact ⟨.of_accounts rfl rfl rfl, rfl⟩
  | _ => exact ⟨.refl _, rfl⟩

end Chain

/-! ## The world and the start -/

namespace World

/-- The account was there at the start, with code or a nonce. -/
def Old (start : World) (a : Address) : Prop := (start.journal.account a).isTaken = true

/-- The account was not there at the start, and may have been created since. -/
def New (start : World) (sites : Address → Prop) (a : Address) : Prop := ¬ start.Old a ∧ sites a

/-- All slots of the account that have not been written are empty. -/
def Blank (w : World) (a : Address) : Prop :=
  ∀ key, w.initial[(⟨a, key⟩ : Slot)]? = none → w.storage a key = 0

/-- An account of which the first write to a slot notes the right value. -/
def Settled (start : World) (sites : Address → Prop) (w : World) (a : Address) : Prop :=
  start.Old a ∨ (start.New sites a ∧ w.Blank a)

/-- **How the world fits to the start of the transaction**, if creations since then were at `sites`
    only. Accounts that were there stay and are not created again, the notes about their slots are
    right, and what has not been noted has not changed. The notes about new accounts say that there
    was nothing, and that is how it looks once they are created. -/
structure Since (start : World) (sites : Address → Prop) (w : World) : Prop where
  taken : ∀ a, start.Old a → (w.journal.account a).isTaken = true
  coded : ∀ a, (w.journal.account a).code.size ≠ 0 → start.Settled sites w a
  noted : ∀ a key v, w.initial[(⟨a, key⟩ : Slot)]? = some v →
    (start.Old a ∧ v = start.storage a key) ∨ (start.New sites a ∧ v = 0)
  unnoted : ∀ a key, w.initial[(⟨a, key⟩ : Slot)]? = none →
    w.storage a key = start.storage a key ∨ (start.New sites a ∧ w.storage a key = 0)
  created : ∀ a ∈ w.journal.created, start.New sites a ∧ w.Blank a

variable {start w w' : World} {sites : Address → Prop}

/-- A step that leaves an account blank leaves it settled. -/
theorem Settled.mono {a : Address} (ha : start.Settled sites w a) (hblank : w.Blank a → w'.Blank a) :
    start.Settled sites w' a :=
  ha.imp_right fun ⟨hnew, hb⟩ => ⟨hnew, hblank hb⟩

/-- At the start nothing has been noted or created. -/
theorem since_start (hinitial : start.initial = {}) (hcreated : start.journal.created = {}) :
    start.Since sites start := by
  have hnone (s : Slot) : start.initial[s]? = none := by
    rw [hinitial]
    exact Std.ExtTreeMap.getElem?_empty
  refine ⟨fun _ h => h, fun a hcode => .inl ?_, fun a key v hnote => ?_, fun _ _ _ => .inl rfl, ?_⟩
  · simp [Old, Account.isTaken, hcode]
  · rw [hnone] at hnote
    cases hnote
  · intro a ha
    rw [hcreated] at ha
    exact absurd ha Std.ExtTreeSet.not_mem_empty

/-- A step that takes no notes. Slots change only by being cleared, on a new account. -/
theorem Since.of_same_notes (h : start.Since sites w) (hinitial : w'.initial = w.initial)
    (htaken : ∀ a, start.Old a → (w'.journal.account a).isTaken = true)
    (hcoded : ∀ a, (w'.journal.account a).code.size ≠ 0 → start.Settled sites w a)
    (hstorage : ∀ a key, w'.storage a key = w.storage a key ∨
      (start.New sites a ∧ w'.storage a key = 0))
    (hcreated : ∀ a ∈ w'.journal.created, a ∈ w.journal.created ∨ (start.New sites a ∧ w'.Blank a)) :
    start.Since sites w' ∧ ∀ a, start.Settled sites w a → start.Settled sites w' a := by
  have hblank (a : Address) (ha : w.Blank a) : w'.Blank a := by
    intro key hnone
    rw [hinitial] at hnone
    rcases hstorage a key with hsame | ⟨-, hzero⟩
    · rw [hsame]
      exact ha key hnone
    · exact hzero
  have hsettled (a : Address) (ha : start.Settled sites w a) : start.Settled sites w' a :=
    ha.mono (hblank a)
  refine ⟨⟨htaken, fun a hcode => hsettled a (hcoded a hcode), fun a key v => ?_,
    fun a key hnone => ?_, fun a ha => ?_⟩, hsettled⟩
  · rw [hinitial]
    exact h.noted a key v
  · rw [hinitial] at hnone
    rcases hstorage a key with hsame | hcleared
    · rw [hsame]
      exact h.unnoted a key hnone
    · exact .inr hcleared
  · rcases hcreated a ha with ha | hnew
    · exact (h.created a ha).imp_right (hblank a)
    · exact hnew

/-- A step that has nothing to do with the start. -/
theorem Since.retaining (h : start.Since sites w) (hjournal : w.journal.Retains w'.journal)
    (hinitial : w'.initial = w.initial) :
    start.Since sites w' ∧ ∀ a, start.Settled sites w a → start.Settled sites w' a := by
  refine h.of_same_notes hinitial (fun a hold => hjournal.taken a (h.taken a hold))
    (fun a hcode => h.coded a ?_) (fun a key => .inl (hjournal.slot a key)) fun a ha => .inl ?_
  · rw [← hjournal.code]
    exact hcode
  · rw [← hjournal.created]
    exact ha

/-- What a settled account held at the start can be told. -/
theorem Since.initialStorage_of_settled (h : start.Since sites w) {a : Address}
    (ha : start.Settled sites w a) (key : Word) :
    (start.Old a ∧ w.initialStorage a key = start.storage a key) ∨
      (start.New sites a ∧ w.initialStorage a key = 0) := by
  cases hnote : w.initial[(⟨a, key⟩ : Slot)]? with
  | some v =>
      rw [initialStorage_of_some hnote]
      exact h.noted a key v hnote
  | none =>
      rw [initialStorage_of_none hnote]
      rcases ha with hold | ⟨hnew, hblank⟩
      · have hsame := (h.unnoted a key hnote).resolve_right fun hnew => hnew.1.1 hold
        exact .inl ⟨hold, hsame⟩
      · exact .inr ⟨hnew, hblank key hnote⟩

/-- What a slot held at the start can be told, unless its account has been created since. -/
theorem Since.initialStorage_cases (h : start.Since sites w) (a : Address) (key : Word) :
    w.initialStorage a key = start.storage a key ∨
      (start.New sites a ∧ w.initialStorage a key = 0) := by
  cases hnote : w.initial[(⟨a, key⟩ : Slot)]? with
  | some v =>
      rw [initialStorage_of_some hnote]
      exact (h.noted a key v hnote).imp_left fun hold => hold.2
  | none =>
      rw [initialStorage_of_none hnote]
      exact h.unnoted a key hnote

/-- A created account is one that held nothing. -/
theorem Since.initialStorage_of_created (h : start.Since sites w) {a : Address}
    (ha : a ∈ w.journal.created) (key : Word) : w.initialStorage a key = 0 := by
  obtain ⟨hnew, hblank⟩ := h.created a ha
  have hcases := h.initialStorage_of_settled (.inr ⟨hnew, hblank⟩) key
  exact (hcases.resolve_left fun hold => hnew.1 hold.1).2

/-- Writing a slot. -/
theorem Since.setStorage (h : start.Since sites w) {a : Address} (ha : start.Settled sites w a)
    (key value : Word) :
    start.Since sites (w.setStorage a key value) ∧
      ∀ b, start.Settled sites w b → start.Settled sites (w.setStorage a key value) b := by
  -- a slot without a note is another one, and has neither got a note nor changed
  have hother {b : Address} {k : Word}
      (hnone : (w.setStorage a key value).initial[(⟨b, k⟩ : Slot)]? = none) :
      w.initial[(⟨b, k⟩ : Slot)]? = none ∧
        (w.setStorage a key value).storage b k = w.storage b k := by
    rw [getElem?_initial_setStorage] at hnone
    split at hnone
    · cases hnone
    · rename_i hne
      rw [storage_setStorage, if_neg (by simpa using hne)]
      exact ⟨hnone, rfl⟩
  have hblank (b : Address) (hb : w.Blank b) : (w.setStorage a key value).Blank b := by
    intro k hnone
    obtain ⟨hnone, hsame⟩ := hother hnone
    rw [hsame]
    exact hb k hnone
  have hsettled (b : Address) (hb : start.Settled sites w b) :
      start.Settled sites (w.setStorage a key value) b :=
    hb.mono (hblank b)
  have haccount (b : Address) :
      (((w.setStorage a key value).journal.account b).code = (w.journal.account b).code) ∧
        ((w.setStorage a key value).journal.account b).isTaken = (w.journal.account b).isTaken := by
    unfold World.setStorage
    rw [Journal.account_update]
    split
    · rename_i hab
      rw [← hab]
      exact ⟨rfl, rfl⟩
    · exact ⟨rfl, rfl⟩
  refine ⟨⟨fun b hold => ?_, fun b hcode => ?_, fun b k v hnote => ?_, fun b k hnone => ?_,
    fun b hb => (h.created b hb).imp_right (hblank b)⟩, hsettled⟩
  · rw [(haccount b).2]
    exact h.taken b hold
  · rw [(haccount b).1] at hcode
    exact hsettled b (h.coded b hcode)
  · rw [getElem?_initial_setStorage] at hnote
    split at hnote
    · rename_i heq
      cases heq
      cases hnote
      exact h.initialStorage_of_settled ha key
    · exact h.noted b k v hnote
  · obtain ⟨hnone, hsame⟩ := hother hnone
    rw [hsame]
    exact h.unnoted b k hnone

/-- Going back to an older journal, with all notes that have been taken since. -/
theorem Since.rolledBack {after : World} (h : start.Since sites w) (hafter : start.Since sites after)
    (hnotes : ∀ (s : Slot) v, w.initial[s]? = some v → after.initial[s]? = some v) :
    start.Since sites { after with journal := w.journal } ∧
      ∀ a, start.Settled sites w a → start.Settled sites { after with journal := w.journal } a := by
  have hnone {s : Slot} (hs : after.initial[s]? = none) : w.initial[s]? = none := by
    cases hnote : w.initial[s]? with
    | none => rfl
    | some v =>
        rw [hnotes s v hnote] at hs
        cases hs
  have hblank (a : Address) (ha : w.Blank a) : Blank { after with journal := w.journal } a :=
    fun key hs => ha key (hnone hs)
  have hsettled (a : Address) (ha : start.Settled sites w a) :
      start.Settled sites { after with journal := w.journal } a :=
    ha.mono (hblank a)
  refine ⟨⟨h.taken, fun a hcode => hsettled a (h.coded a hcode), hafter.noted, fun a key hs => ?_,
    fun a ha => (h.created a ha).imp_right (hblank a)⟩, hsettled⟩
  exact h.unnoted a key (hnone hs)

end World

/-! ## Creations -/

namespace Chain

variable {c : Chain} {req : CallRequest} {site : Address} {start w : World}
  {sites : Address → Prop}

/-- The journal on which init code runs has an account with empty slots at the site. -/
theorem enterCreate_spec (c : Chain) (req : CallRequest) (site : Address) (j : Journal) :
    (∀ a, ((c.enterCreate req site j).account a).code = (j.account a).code) ∧
    (∀ a key, ((c.enterCreate req site j).account a).slot key =
      if site = a then 0 else (j.account a).slot key) ∧
    (∀ a, (j.account a).isTaken = true → ((c.enterCreate req site j).account a).isTaken = true) ∧
    (c.enterCreate req site j).created = j.created.insert site ∧
    (c.enterCreate req site j).refund = j.refund := by
  unfold enterCreate
  dsimp only
  generalize hfresh : j.update site (fun a => { a with
    storage := {}, nonce := if c.rules.emptyAccountRule then 1 else a.nonce }) = fresh
  have haccount (a : Address) : fresh.account a = if site = a then
      { j.account site with
        storage := {}, nonce := if c.rules.emptyAccountRule then 1 else (j.account site).nonce }
      else j.account a := by
    rw [← hfresh, Journal.account_update]
  have hretains := fresh.retains_transfer req.caller site req.value
  refine ⟨fun a => ?_, fun a key => ?_, fun a htaken => ?_, ?_, ?_⟩
  · refine (hretains.code a).trans ?_
    rw [haccount]
    split
    · rename_i hsite
      rw [hsite]
    · rfl
  · refine (hretains.slot a key).trans ?_
    rw [haccount]
    split
    · exact Std.ExtTreeMap.getD_empty
    · rfl
  · refine hretains.taken a ?_
    rw [haccount]
    split
    · rename_i hsite
      subst hsite
      unfold Account.isTaken at htaken ⊢
      cases c.rules.emptyAccountRule <;> simp at htaken ⊢
      exact htaken
    · exact htaken
  · rw [hretains.created, ← hfresh]
    rfl
  · rw [← hfresh] at hretains ⊢
    exact hretains.refund

/-- A creation at a free account: the account is new, and blank from now on. -/
theorem since_enterCreate (h : start.Since sites w) (hsite : start.New sites site) :
    start.Since sites { w with journal := c.enterCreate req site w.journal } ∧
      ∀ a, start.Settled sites w a →
        start.Settled sites { w with journal := c.enterCreate req site w.journal } a := by
  obtain ⟨hcode, hslot, htaken, hcreated, -⟩ := c.enterCreate_spec req site w.journal
  refine h.of_same_notes rfl (fun a hold => htaken a (h.taken a hold)) (fun a ha => h.coded a ?_)
    (fun a key => ?_) fun a ha => ?_
  · rw [← hcode]
    exact ha
  · unfold World.storage
    rw [hslot]
    split
    · rename_i heq
      exact .inr ⟨heq ▸ hsite, rfl⟩
    · exact .inl rfl
  · rw [hcreated, Std.ExtTreeSet.mem_insert, Std.LawfulEqCmp.compare_eq_iff_eq] at ha
    rcases ha with rfl | ha
    · refine .inr ⟨hsite, fun key _ => ?_⟩
      unfold World.storage
      rw [hslot, if_pos rfl]
    · exact .inl ha

/-- Deploying code on a new account. -/
theorem since_deployed (h : start.Since sites w) (hsite : start.New sites site)
    (hsettled : start.Settled sites w site) (code : ByteArray) :
    start.Since sites { w with journal := w.journal.update site fun a => { a with code } } ∧
      ∀ a, start.Settled sites w a → start.Settled sites
        { w with journal := w.journal.update site fun a => { a with code } } a := by
  refine h.of_same_notes rfl (fun a hold => ?_) (fun a ha => ?_) (fun a key => .inl ?_) fun a ha =>
    .inl ha
  · rw [Journal.account_update, if_neg fun heq : site = a => hsite.1 (heq ▸ hold)]
    exact h.taken a hold
  · rw [Journal.account_update] at ha
    split at ha
    · rename_i heq
      exact heq ▸ hsettled
    · exact h.coded a ha
  · refine w.storage_update site ?_ a key
    exact fun _ => rfl

end Chain

/-! ## Refunds and cleared slots -/

/-- Two finite sets that differ in one element at most. -/
theorem card_add_ite_of_agree {α : Type} [DecidableEq α] {s t : Finset α} {x : α}
    (h : ∀ y, y ≠ x → (y ∈ s ↔ y ∈ t)) :
    s.card + (if x ∈ t then 1 else 0) = t.card + (if x ∈ s then 1 else 0) := by
  have herase : s.erase x = t.erase x := by
    ext y
    rw [Finset.mem_erase, Finset.mem_erase]
    exact and_congr_right (h y)
  have hcard (u : Finset α) : u.card = (u.erase x).card + if x ∈ u then 1 else 0 := by
    split
    · rename_i hx
      exact (Finset.card_erase_add_one hx).symm
    · rename_i hx
      rw [Finset.erase_eq_of_notMem hx]
      rfl
  rw [hcard s, hcard t, herase]
  omega

namespace World

variable {w w' : World}

/-- **The slots that hold nothing and held something at the start.** -/
def cleared (w : World) : Finset Slot :=
  w.initial.keys.toFinset.filter fun s =>
    w.initialStorage s.address s.key ≠ 0 ∧ w.storage s.address s.key = 0

theorem mem_cleared {a : Address} {key : Word} :
    ⟨a, key⟩ ∈ w.cleared ↔ w.initialStorage a key ≠ 0 ∧ w.storage a key = 0 := by
  unfold cleared
  rw [Finset.mem_filter, List.mem_toFinset, Std.ExtTreeMap.mem_keys,
    Std.ExtTreeMap.mem_iff_isSome_getElem?]
  refine ⟨fun h => h.2, fun h => ⟨?_, h⟩⟩
  -- without a note the slot holds what it held
  cases hnote : w.initial[(⟨a, key⟩ : Slot)]? with
  | some v => rfl
  | none =>
      rw [initialStorage_of_none hnote] at h
      exact absurd h.2 h.1

theorem cleared_subset (h : ∀ a key, w'.initialStorage a key ≠ 0 → w'.storage a key = 0 →
    w.initialStorage a key ≠ 0 ∧ w.storage a key = 0) : w'.cleared ⊆ w.cleared := by
  rintro ⟨a, key⟩ hs
  obtain ⟨hheld, hzero⟩ := mem_cleared.1 hs
  exact mem_cleared.2 (h a key hheld hzero)

/-- A write does not change what slots held at the start. -/
theorem initialStorage_setStorage (w : World) (a : Address) (key value : Word) (b : Address)
    (k : Word) : (w.setStorage a key value).initialStorage b k = w.initialStorage b k := by
  have hnote := w.getElem?_initial_setStorage a key value ⟨b, k⟩
  by_cases hs : (⟨a, key⟩ : Slot) = ⟨b, k⟩
  · rw [if_pos hs] at hnote
    cases hs
    exact initialStorage_of_some hnote
  · rw [if_neg hs] at hnote
    unfold initialStorage
    rw [Std.ExtTreeMap.getD_eq_getD_getElem?, Std.ExtTreeMap.getD_eq_getD_getElem?, hnote,
      storage_setStorage, if_neg (by simpa using hs)]

/-- **How a write changes the number of cleared slots.** -/
theorem card_cleared_setStorage (w : World) (a : Address) (key value : Word) :
    (w.setStorage a key value).cleared.card +
        (if w.initialStorage a key ≠ 0 ∧ w.storage a key = 0 then 1 else 0) =
      w.cleared.card + if w.initialStorage a key ≠ 0 ∧ value = 0 then 1 else 0 := by
  have hbefore : (⟨a, key⟩ : Slot) ∈ w.cleared ↔
      w.initialStorage a key ≠ 0 ∧ w.storage a key = 0 := mem_cleared
  have hafter : (⟨a, key⟩ : Slot) ∈ (w.setStorage a key value).cleared ↔
      w.initialStorage a key ≠ 0 ∧ value = 0 := by
    rw [mem_cleared, initialStorage_setStorage, storage_setStorage, if_pos ⟨rfl, rfl⟩]
  have hagree := card_add_ite_of_agree (s := (w.setStorage a key value).cleared) (t := w.cleared)
    (x := ⟨a, key⟩) ?_
  · simp only [hbefore, hafter] at hagree
    exact hagree
  · rintro ⟨b, k⟩ hne
    rw [mem_cleared, mem_cleared, initialStorage_setStorage, storage_setStorage, if_neg]
    rintro ⟨rfl, rfl⟩
    exact hne rfl

end World

/-! ## Pieces of a transaction -/

namespace Chain

/-- The refund for clearing a slot. -/
def clearRefund (c : Chain) : Int := c.rules.schedule.clearRefund

/-- **The refunds that go beyond those for the cleared slots.** -/
def surplus (c : Chain) (w : World) : Int := w.journal.refund - c.clearRefund * w.cleared.card

/-- Refunds that are ahead are not negative. -/
theorem refund_nonneg_of_surplus (c : Chain) {w : World} (h : 0 ≤ c.surplus w) :
    0 ≤ w.journal.refund := by
  have hcleared : 0 ≤ c.clearRefund * w.cleared.card :=
    Int.mul_nonneg c.rules.clearRefund_nonneg (Int.natCast_nonneg _)
  unfold surplus at h
  omega

theorem surplus_le_of_subset (c : Chain) {w w' : World} (hcleared : w'.cleared ⊆ w.cleared)
    (hrefund : w'.journal.refund = w.journal.refund) : c.surplus w ≤ c.surplus w' := by
  have hcard : (w'.cleared.card : Int) ≤ w.cleared.card := by
    exact_mod_cast Finset.card_le_card hcleared
  have hscaled := Int.mul_le_mul_of_nonneg_left hcard c.rules.clearRefund_nonneg
  unfold surplus clearRefund
  rw [hrefund]
  omega

/-- **A piece of a transaction that leads from `w` to `w'`** and has earned `r` on top of what the
    journal says: the world still fits to the start, no settled account is lost, no note is lost, and
    the surplus has not shrunk. -/
structure Advances (c : Chain) (start : World) (sites : Address → Prop) (w w' : World) (r : Int) :
    Prop where
  since : start.Since sites w'
  settled : ∀ a, start.Settled sites w a → start.Settled sites w' a
  notes : ∀ (s : Slot) v, w.initial[s]? = some v → w'.initial[s]? = some v
  surplus : c.surplus w ≤ c.surplus w' + r

variable {c : Chain} {start w w' w'' : World} {sites : Address → Prop} {r r' : Int}

theorem Advances.refl (c : Chain) (h : start.Since sites w) : c.Advances start sites w w 0 :=
  ⟨h, fun _ ha => ha, fun _ _ hs => hs, by omega⟩

theorem Advances.trans (h : c.Advances start sites w w' r) (h' : c.Advances start sites w' w'' r') :
    c.Advances start sites w w'' (r + r') where
  since := h'.since
  settled a ha := h'.settled a (h.settled a ha)
  notes s v hs := h'.notes s v (h.notes s v hs)
  surplus := by
    have hfirst := h.surplus
    have hsecond := h'.surplus
    omega

/-- A step that takes no notes, clears no slot of an account that was there, and earns nothing. -/
theorem Advances.of_same_notes (h : start.Since sites w)
    (hsince : start.Since sites w' ∧ ∀ a, start.Settled sites w a → start.Settled sites w' a)
    (hinitial : w'.initial = w.initial) (hrefund : w'.journal.refund = w.journal.refund)
    (hstorage : ∀ a key, w'.storage a key = w.storage a key ∨ start.New sites a) :
    c.Advances start sites w w' 0 := by
  refine ⟨hsince.1, hsince.2, fun s v hs => by rw [hinitial]; exact hs, ?_⟩
  have hcleared : w'.cleared ⊆ w.cleared := by
    refine World.cleared_subset fun a key hheld hzero => ?_
    cases hnote : w.initial[(⟨a, key⟩ : Slot)]? with
    | none =>
        rw [← hinitial] at hnote
        rw [World.initialStorage_of_none hnote] at hheld
        exact absurd hzero hheld
    | some v =>
        have hsame : w.initialStorage a key = w'.initialStorage a key := by
          rw [World.initialStorage_of_some hnote]
          rw [← hinitial] at hnote
          rw [World.initialStorage_of_some hnote]
        rw [hsame]
        refine ⟨hheld, ?_⟩
        -- what a note says was there, was there on an account from the start
        rw [← hsame, World.initialStorage_of_some hnote] at hheld
        have hold : start.Old a := ((h.noted a key v hnote).resolve_right fun h => hheld h.2).1
        rw [← (hstorage a key).resolve_right fun hnew => hnew.1 hold]
        exact hzero
  have hsurplus := c.surplus_le_of_subset hcleared hrefund
  omega

theorem Advances.retaining (c : Chain) (h : start.Since sites w)
    (hjournal : w.journal.Retains w'.journal) (hinitial : w'.initial = w.initial) :
    c.Advances start sites w w' 0 :=
  .of_same_notes h (h.retaining hjournal hinitial) hinitial hjournal.refund fun a key =>
    .inl (hjournal.slot a key)

theorem Advances.enterCreate (c : Chain) (req : CallRequest) {site : Address}
    (h : start.Since sites w) (hsite : start.New sites site) :
    c.Advances start sites w { w with journal := c.enterCreate req site w.journal } 0 := by
  obtain ⟨-, hslot, -, -, hrefund⟩ := c.enterCreate_spec req site w.journal
  refine .of_same_notes h (since_enterCreate h hsite) rfl hrefund fun a key => ?_
  unfold World.storage
  rw [hslot]
  split
  · rename_i heq
    exact .inr (heq ▸ hsite)
  · exact .inl rfl

/-- Writing a slot of a settled account, and earning what the write is worth. -/
theorem Advances.setStorage (c : Chain) (h : start.Since sites w) {a : Address}
    (ha : start.Settled sites w a) (key value : Word) {initial : Word}
    (hinitial : c.rules.netSstore = true → initial = w.initialStorage a key) (wasCold : Bool) :
    c.Advances start sites w (w.setStorage a key value)
      (c.rules.schedule.sstore initial (w.storage a key) value wasCold).refund := by
  obtain ⟨hsince, hsettled⟩ := h.setStorage ha key value
  refine ⟨hsince, hsettled, fun s v hs => ?_, ?_⟩
  · rw [World.getElem?_initial_setStorage]
    split
    · rename_i heq
      subst heq
      rw [World.initialStorage_of_some hs]
    · exact hs
  · have hrefund := Schedule.clearing_le_refund (s := c.rules.schedule) c.rules.clearRefund_nonneg
      hinitial (w.storage a key) value wasCold
    have hcard := congrArg (fun n : Nat => c.rules.schedule.clearRefund * n)
      (w.card_cleared_setStorage a key value)
    simp only [Nat.cast_add, Nat.cast_ite, Nat.cast_one, Nat.cast_zero, Int.mul_add] at hcard
    unfold Chain.surplus clearRefund
    show w.journal.refund - _ ≤ w.journal.refund - _ + _
    linarith

/-- Refunds that go from a frame to the journal. -/
theorem Advances.addRefund (c : Chain) (h : start.Since sites w) (n : Int) :
    c.Advances start sites w { w with journal := w.journal.addRefund n } (-n) := by
  have hstep : start.Since sites { w with journal := w.journal.addRefund n } ∧
      ∀ a, start.Settled sites w a →
        start.Settled sites { w with journal := w.journal.addRefund n } a :=
    h.of_same_notes rfl h.taken h.coded (fun _ _ => .inl rfl) fun _ ha => .inl ha
  refine ⟨hstep.1, hstep.2, fun _ _ hs => hs, ?_⟩
  show w.journal.refund - _ ≤ w.journal.refund + n - _ + -n
  have hcleared : World.cleared { w with journal := w.journal.addRefund n } = w.cleared := rfl
  rw [hcleared]
  omega

/-- Deploying code on a new account. -/
theorem Advances.deployed (c : Chain) {site : Address} (h : start.Since sites w)
    (hsite : start.New sites site) (hsettled : start.Settled sites w site) (code : ByteArray) :
    c.Advances start sites w
      { w with journal := w.journal.update site fun a => { a with code } } 0 := by
  refine .of_same_notes h (since_deployed h hsite hsettled code) rfl rfl fun a key => .inl ?_
  refine w.storage_update site ?_ a key
  exact fun _ => rfl

/-- Going back to the journal from before. -/
theorem Advances.rolledBack {after : World} (h : start.Since sites w)
    (hadvances : c.Advances start sites w after r) :
    c.Advances start sites w { after with journal := w.journal } 0 := by
  obtain ⟨hsince, hsettled⟩ := h.rolledBack hadvances.since hadvances.notes
  refine ⟨hsince, hsettled, hadvances.notes, ?_⟩
  have hcleared : World.cleared { after with journal := w.journal } ⊆ w.cleared := by
    refine World.cleared_subset fun a key hheld hzero => ⟨fun hnever => ?_, hzero⟩
    have hzero : w.storage a key = 0 := hzero
    cases hnote : after.initial[(⟨a, key⟩ : Slot)]? with
    | none =>
        have hsame : World.initialStorage { after with journal := w.journal } a key =
            w.storage a key := World.initialStorage_of_none hnote
        exact hheld (hsame.trans hzero)
    | some v =>
        have hv : World.initialStorage { after with journal := w.journal } a key = v :=
          World.initialStorage_of_some hnote
        rw [hv] at hheld
        obtain ⟨hold, hstart⟩ := (hadvances.since.noted a key v hnote).resolve_right
          fun hnew => hheld hnew.2
        -- the note is from before, or the slot held then what it held at the start
        have hbefore := (h.initialStorage_of_settled (.inl hold) key).resolve_right
          fun hnew => hnew.1.1 hold
        exact hheld (hstart.trans (hbefore.2.symm.trans hnever))
  have hsurplus := c.surplus_le_of_subset hcleared rfl
  omega

end Chain

end MeteredEvm
