import MeteredEvm.World.Transaction
import MeteredEvm.Proofs.Balances
import MeteredEvm.Proofs.CallTree
import MeteredEvm.Proofs.Watching

/-!
# `MeteredEvm.Proofs.Value` — no transaction makes value

The sum of all balances never grows, whatever a call or a deployment and the frames below it do. If
the sum fits a word, it shrinks only where an account is destroyed in favour of itself, in a frame
that is not rolled back.

Which destructions a transaction comes to is read off the run: a host that takes notes
(`Host.watching`) writes down what a frame asks for, and the notes of a frame that fails are dropped
with its changes.

## Contents
* `Chain.destructionsOn`, `Chain.destructionsAt` — the destructions that stay.
* `Conserves`, `Chain.answer_conserves`, `Chain.perform_conserves`, `Chain.performAt_conserves`.
* `Transaction`, `Chain.transact`, `transactions_make_no_value`.
-/

namespace MeteredEvm

/-! ## Destructions -/

/-- The destruction of an account in favour of a beneficiary. -/
structure Destruction where
  account : Address
  beneficiary : Address
  deriving DecidableEq

/-- The destruction that a query asks for, if it asks for one. -/
def Query.destruction : Query → List Destruction
  | .markForDestruction account beneficiary => [{ account, beneficiary }]
  | _ => []

namespace Chain

/-- The destructions that a request comes to on `host`, given those of the children of its frame.
    What a frame that fails has asked for is rolled back. -/
def destructionsOn (c : Chain) (host : Host World)
    (below : CallRequest → Memory → World → List Destruction) (req : CallRequest) (memory : Memory)
    (w : World) : List Destruction :=
  match c.launch req w with
  | .error _ => []
  | .ok frame =>
    match execute c.config (host.watching (fun q _ => q.destruction) below) frame.context
        frame.input req.gas frame.code memory (frame.world, []) with
    | .error _ => []
    | .ok (result, _, after, notes) =>
      if (c.conclude req w result after).1.result.isSuccess then notes else []

/-- The destructions that a request comes to, with a number of levels of frames below it. -/
def destructionsAt (c : Chain) : Nat → CallRequest → Memory → World → List Destruction
  | 0 => c.destructionsOn (c.hostAt 0) fun _ _ _ => []
  | levels + 1 => c.destructionsOn (c.hostAt (levels + 1)) (c.destructionsAt levels)

end Chain

/-! ## Conservation -/

/-- **A sum that does not grow**, and that stays (`Guards`) if no account is destroyed in favour of
    itself. -/
def Conserves (notes : List Destruction) (before after : Nat) : Prop :=
  after ≤ before ∧ ((∀ d ∈ notes, d.beneficiary ≠ d.account) → Guards before after)

theorem Guards.conserves {before after : Nat} (h : Guards before after) (notes : List Destruction) :
    Conserves notes before after := ⟨h.1, fun _ => h⟩

theorem Conserves.trans {notes notes' : List Destruction} {a b c : Nat} (h : Conserves notes a b)
    (h' : Conserves notes' b c) : Conserves (notes ++ notes') a c := by
  refine ⟨Nat.le_trans h'.1 h.1, fun hothers => ?_⟩
  have hleft := h.2 fun d hd => hothers d (List.mem_append_left _ hd)
  have hright := h'.2 fun d hd => hothers d (List.mem_append_right _ hd)
  exact hleft.trans hright

namespace Chain

variable {c : Chain} {host : Host World}
  {below : CallRequest → Memory → World → List Destruction}

/-- **No query makes value**, and only a destruction in favour of itself takes some. -/
theorem answer_conserves (c : Chain) (q : Query) (w : World) :
    Conserves q.destruction w.total (c.answer q w).2.total := by
  cases q with
  | markForDestruction a b =>
      refine ⟨w.total_handOver_le c.fork a b, fun hothers => ?_⟩
      exact w.handOver_guards c.fork (hothers ⟨a, b⟩ (List.mem_singleton_self _))
  | setStorage a key value =>
      have htotal : (w.setStorage a key value).total = w.total :=
        Journal.total_update_of_balance_eq rfl
      exact (Guards.of_eq htotal).conserves _
  | _ => exact (Guards.refl _).conserves _

/-- A host for frames of the world whose children conserve value (`Conserves`), up to the destructions
    given for them. -/
structure Conserving (c : Chain) (host : Host World)
    (below : CallRequest → Memory → World → List Destruction) : Prop where
  answer : host.answer = c.answer
  call : ∀ ⦃req memory w result memory' w'⦄, host.call req memory w = .ok (result, memory', w') →
    Conserves (below req memory w) w.total w'.total

/-- **A frame conserves value up to the destructions in its notes**, if its children do. -/
theorem watching_conserves (h : c.Conserving host below) (f : Frame) (guarded : Bool) (start : Nat) :
    (f.setting c.config (host.watching (fun q _ => q.destruction) below)).Keeps guarded
      fun r _ => Conserves r.2 start r.1.total := by
  have hanswer (q : Query) (r : World × List Destruction) (hr : Conserves r.2 start r.1.total) :
      Conserves (r.2 ++ q.destruction) start (host.answer q r.1).2.total := by
    rw [h.answer]
    exact hr.trans (c.answer_conserves q r.1)
  refine ⟨fun q r _ _ => hanswer q r, fun _ q r _ _ => hanswer q r, fun _ _ _ _ hr => hr, ?_⟩
  intro req memory r _ result memory' r' _ hr hcall
  obtain ⟨hinner, hnotes⟩ := watching_call_ok (fun q _ => q.destruction) hcall
  rw [hnotes]
  exact hr.trans (h.call hinner)

/-- **A child conserves value**, if its own children do: what moves on its start and in its frame
    is conserved, and a failure goes back to the start. -/
theorem perform_conserves (h : c.Conserving host below) {req : CallRequest}
    {memory memory' : Memory} {w w' : World} {p : Performed}
    (hperform : c.perform host req memory w = .ok (p, memory', w')) :
    Conserves (c.destructionsOn host below req memory w) w.total w'.total := by
  obtain ⟨hlaunch, -⟩ | ⟨frame, result, after, hlaunch, hexecute, hconclude⟩ :=
    launched_of_perform_ok hperform
  · exact (Guards.of_eq (launch_error_total hlaunch)).conserves _
  · obtain ⟨notes, hnoted⟩ := execute_watching (fun q _ => q.destruction) below hexecute
    obtain ⟨_, hframe, -⟩ :=
      execute_keeps (fun f _ => watching_conserves h f _ frame.world.total)
        ((Guards.refl _).conserves []) hnoted
    have hnotes : c.destructionsOn host below req memory w =
        if (c.conclude req w result after).1.result.isSuccess then notes else [] := by
      unfold destructionsOn
      rw [hlaunch]
      dsimp only
      rw [hnoted]
    have htotal := c.conclude_total req w result after
    rw [hnotes]
    rw [hconclude] at htotal ⊢
    dsimp only at htotal ⊢
    rw [htotal]
    split
    · exact ((launch_guards hlaunch).conserves []).trans hframe
    · exact (Guards.refl _).conserves []

theorem hostWith_conserving {perform : Performer}
    (h : ∀ ⦃req memory w p memory' w'⦄, perform req memory w = .ok (p, memory', w') →
      Conserves (below req memory w) w.total w'.total) : c.Conserving (c.hostWith perform) below := by
  refine ⟨rfl, ?_⟩
  intro req memory w result memory' w' hcall
  obtain ⟨p, hperform, -⟩ := of_hostWith_call hcall
  exact h hperform

/-- **At every level, children conserve value.** -/
theorem performAt_conserves (c : Chain) (levels : Nat) {req : CallRequest}
    {memory memory' : Memory} {w w' : World} {p : Performed}
    (h : c.perform (c.hostAt levels) req memory w = .ok (p, memory', w')) :
    Conserves (c.destructionsAt levels req memory w) w.total w'.total := by
  induction levels generalizing req memory memory' w w' p with
  | zero =>
      refine perform_conserves (hostWith_conserving ?_) h
      intro req memory w p memory' w' hperform
      cases hperform
  | succ levels ih => exact perform_conserves (hostWith_conserving fun _ _ _ _ _ _ => ih) h

end Chain

/-! ## Transactions -/

/-- What can be asked of a chain from outside. -/
inductive Transaction where
  | call (caller target : Address) (value : Word) (input : ByteArray) (gas : Nat)
  | deploy (caller : Address) (initCode : ByteArray) (value : Word) (gas : Nat)

namespace Transaction

/-- The gas of the outermost frame. -/
def gas : Transaction → Nat
  | .call _ _ _ _ gas => gas
  | .deploy _ _ _ gas => gas

/-- The accounts that a transaction names. -/
def named : Transaction → List Address
  | .call caller target _ _ _ => [caller, target]
  | .deploy caller _ _ _ => [caller]

/-- The request for the outermost frame. -/
def request : Transaction → CallRequest
  | .call caller target value input gas =>
    { kind := .call
      caller
      codeAddress := target
      recipient := target
      value
      transfersValue := value != 0#256
      input
      gas
      isStatic := false
      depth := 0 }
  | .deploy caller initCode value gas =>
    { kind := .create
      caller
      codeAddress := 0
      recipient := 0
      value
      transfersValue := value != 0#256
      input := initCode
      gas
      isStatic := false
      depth := 0 }

end Transaction

namespace Chain

/-- Run a transaction. -/
def transact (c : Chain) : Transaction → World → Except Trap (Receipt × World)
  | .call caller target value input gas => c.call caller target value input gas
  | .deploy caller initCode value gas => c.deployCode caller initCode value gas

/-- The destructions that a transaction comes to. -/
def destructions (c : Chain) (t : Transaction) (w : World) : List Destruction :=
  c.destructionsAt c.config.maxCallDepth t.request (.new c.config.memoryLimit)
    (c.warmNamed t.named w)

theorem transact_eq (c : Chain) (t : Transaction) (w : World) :
    c.transact t w = c.runOutermost t.request (c.warmNamed t.named w) := by
  cases t <;> rfl

theorem of_runOutermost_ok {c : Chain} {req : CallRequest} {w w' : World} {receipt : Receipt}
    (h : c.runOutermost req w = .ok (receipt, w')) :
    ∃ p memory', c.performAll req (.new c.config.memoryLimit) w = .ok (p, memory', w') := by
  unfold runOutermost at h
  cases hperform : c.performAll req (.new c.config.memoryLimit) w with
  | error t =>
      rw [hperform] at h
      cases h
  | ok r =>
      rw [hperform] at h
      cases h
      exact ⟨r.1, r.2.1, rfl⟩

theorem total_warmNamed (c : Chain) (named : List Address) (w : World) :
    (c.warmNamed named w).total = w.total := by
  have hjournal (j : Journal) : (named.foldl Journal.warmAccount j).total = j.total := by
    induction named generalizing j with
    | nil => rfl
    | cons a named ih => exact ih (j.warmAccount a)
  unfold warmNamed
  split
  · exact hjournal w.journal
  · rfl

end Chain

/-- **No transaction makes value.** On every fork and from every world, the sum of all balances
    (`World.total`) is not larger after `Chain.transact` than before; and if it fits a word and no
    account is destroyed in favour of itself in a frame that is not rolled back
    (`Chain.destructions`), it is the same. A transaction comes to a receipt. -/
theorem transactions_make_no_value (c : Chain) (t : Transaction) (w : World) :
    (∀ receipt w', c.transact t w = .ok (receipt, w') →
      w'.total ≤ w.total ∧
        (w.total < 2 ^ 256 → (∀ d ∈ c.destructions t w, d.beneficiary ≠ d.account) →
          w'.total = w.total)) ∧
    (c.config.memoryLimit ≤ Memory.pricedLimit → t.gas < u64Size →
      ∃ receipt w', c.transact t w = .ok (receipt, w')) := by
  rw [Chain.transact_eq]
  constructor
  · intro receipt w' htransact
    obtain ⟨p, memory', hperform⟩ := Chain.of_runOutermost_ok htransact
    have hdepth : c.levelsBelow t.request.depth = c.config.maxCallDepth := by
      cases t <;> rfl
    unfold Chain.performAll at hperform
    rw [hdepth] at hperform
    obtain ⟨hle, hguards⟩ := c.performAt_conserves _ hperform
    rw [c.total_warmNamed] at hle hguards
    exact ⟨hle, fun hfits hothers => (hguards hothers).2 hfits⟩
  · intro hmemory hgas
    have hrequest : t.request.gas < u64Size := by
      cases t <;> exact hgas
    exact c.runOutermost_ok hmemory hrequest _

/-- A code that sends 2 to account 3 and then destroys its account in favour of account 5. -/
def payThenLeave : ByteArray :=
  ⟨#[0x5f, 0x5f, 0x5f, 0x5f, 0x60, 2, 0x60, 3, 0x5a, 0xf1, 0x60, 5, 0xff]⟩

/-- A code that calls account 4 and reverts. -/
def callThenRevert : ByteArray :=
  ⟨#[0x5f, 0x5f, 0x5f, 0x5f, 0x5f, 0x60, 4, 0x5a, 0xf1, 0x5f, 0x5f, 0xfd]⟩

/-- A world of four accounts. The first has 10 and no code, the second has 5 and pays the third, the
    third calls the fourth and reverts, and the fourth has 7 and destroys itself in its own favour. -/
def fourAccounts : World :=
  let accounts : List (Address × Account) :=
    [(1, { balance := 10 }), (2, { balance := 5, code := payThenLeave }),
      (3, { code := callThenRevert }), (4, { balance := 7, code := ⟨#[0x30, 0xff]⟩ })]
  { journal := { accounts := .ofList accounts } }

/-- A chain from before accounts outlived their destruction. -/
def shanghaiChain : Chain := { config := { fork := .shanghai } }

/-- The first account calls another one with a value of 3. -/
def sendThree (target : Address) : Transaction := .call 1 target 3 .empty 500000

/-- What some account has after a transaction. -/
def balanceAfter (c : Chain) (t : Transaction) (w : World) (a : Address) : Option Word :=
  (c.transact t w).toOption.map fun r => r.2.journal.balance a

/-- The destruction of the fourth account is rolled back with the call around it, so only that of the
    second account counts, and the fifth account gets what the second one had and was sent. -/
theorem transactions_make_no_value_fourAccounts :
    fourAccounts.total < 2 ^ 256 ∧
    shanghaiChain.destructions (sendThree 2) fourAccounts = [{ account := 2, beneficiary := 5 }] ∧
    shanghaiChain.config.memoryLimit ≤ Memory.pricedLimit ∧ (sendThree 2).gas < u64Size ∧
    balanceAfter shanghaiChain (sendThree 2) fourAccounts 5 = some 8 ∧
    ∃ receipt w', shanghaiChain.transact (sendThree 2) fourAccounts = .ok (receipt, w') ∧
      w'.total = fourAccounts.total := by
  have hfits : fourAccounts.total < 2 ^ 256 := by decide +kernel
  have hdestructions : shanghaiChain.destructions (sendThree 2) fourAccounts =
      [{ account := 2, beneficiary := 5 }] := by
    decide +kernel
  have hbalance : balanceAfter shanghaiChain (sendThree 2) fourAccounts 5 = some 8 := by
    decide +kernel
  obtain ⟨hvalue, hreceipt⟩ := transactions_make_no_value shanghaiChain (sendThree 2) fourAccounts
  obtain ⟨receipt, w', htransact⟩ := hreceipt (by decide) (by decide)
  refine ⟨hfits, hdestructions, by decide, by decide, hbalance, receipt, w', htransact, ?_⟩
  apply (hvalue receipt w' htransact).2 hfits
  rw [hdestructions]
  decide

end MeteredEvm
