import Mathlib.Algebra.GroupWithZero.Nat
import MeteredEvm.World.Call
import MeteredEvm.Proofs.Launch

/-!
# `MeteredEvm.Proofs.Balances` — the sum of all balances

The sum of the balances of all accounts, as a number, changes with an account by the difference of
its balances (`Journal.total_update`). Moving value takes from one account what it adds to another.
Words wrap around: where the sum does not fit a word, value can be lost on arrival, but none is made.

## Contents
* `sumOfBalances`, `Journal.total`, `World.total`, `Journal.total_update`, `Journal.balance_le_total`.
* `Guards` — a sum that does not grow, and stays if it fits a word.
* `Journal.transfer?_guards`, `World.handOver_guards` — moving value.
* `Chain.launch_guards`, `Chain.conclude_total` — starting and ending a child frame.
-/

namespace MeteredEvm

/-! ## Sums over accounts -/

/-- The sum of the balances of some accounts. -/
def sumOfBalances (accounts : Std.ExtTreeMap Address Account) : Nat :=
  (accounts.toList.map fun entry => entry.2.balance.toNat).sum

/-- A new account adds its balance. -/
theorem sumOfBalances_insert_new {accounts : Std.ExtTreeMap Address Account} {a : Address}
    (h : accounts[a]? = none) (account : Account) :
    sumOfBalances (accounts.insert a account) = account.balance.toNat + sumOfBalances accounts := by
  have nodup (t : Std.ExtTreeMap Address Account) : t.toList.Nodup :=
    t.distinct_keys_toList.imp fun hne heq => hne (by rw [heq]; exact Std.ReflCmp.compare_self)
  have hnew : (a, account) ∉ accounts.toList := by
    rw [Std.ExtTreeMap.mem_toList_iff_getElem?_eq_some, h]
    exact nofun
  have hperm : (accounts.insert a account).toList.Perm ((a, account) :: accounts.toList) := by
    rw [List.perm_ext_iff_of_nodup (nodup _) (List.nodup_cons.mpr ⟨hnew, nodup _⟩)]
    rintro ⟨b, v⟩
    rw [List.mem_cons, Std.ExtTreeMap.mem_toList_iff_getElem?_eq_some,
      Std.ExtTreeMap.mem_toList_iff_getElem?_eq_some, Std.ExtTreeMap.getElem?_insert]
    by_cases hab : a = b
    · subst hab
      simp [h, eq_comm]
    · have hcompare : ¬ compare a b = .eq := fun heq => hab (Std.LawfulEqOrd.eq_of_compare heq)
      simp [hcompare, Ne.symm hab]
  unfold sumOfBalances
  rw [(hperm.map _).sum_nat, List.map_cons, List.sum_cons]

/-- Writing an account changes the sum by the balance written less the balance there was. -/
theorem sumOfBalances_insert (accounts : Std.ExtTreeMap Address Account) (a : Address)
    (account : Account) :
    sumOfBalances (accounts.insert a account) + (accounts.getD a {}).balance.toNat =
      sumOfBalances accounts + account.balance.toNat := by
  -- both sums are those of the other accounts, with one account more
  have hnone : (accounts.erase a)[a]? = none := by simp
  have hothers (v : Account) : accounts.insert a v = (accounts.erase a).insert a v := by
    apply Std.ExtTreeMap.ext_getElem?
    intro b
    rw [Std.ExtTreeMap.getElem?_insert, Std.ExtTreeMap.getElem?_insert,
      Std.ExtTreeMap.getElem?_erase]
    split <;> rfl
  rw [hothers, sumOfBalances_insert_new hnone, Std.ExtTreeMap.getD_eq_getD_getElem?]
  cases hget : accounts[a]? with
  | none =>
      have hsame : accounts.erase a = accounts := by
        apply Std.ExtTreeMap.ext_getElem?
        intro b
        rw [Std.ExtTreeMap.getElem?_erase]
        split
        · rename_i heq
          rw [← Std.LawfulEqOrd.eq_of_compare heq, hget]
        · rfl
      have hzero : ((none : Option Account).getD {}).balance.toNat = 0 := rfl
      rw [hsame, hzero]
      omega
  | some old =>
      have hsame : accounts = (accounts.erase a).insert a old := by
        rw [← hothers]
        apply Std.ExtTreeMap.ext_getElem?
        intro b
        rw [Std.ExtTreeMap.getElem?_insert]
        split
        · rename_i heq
          rw [← Std.LawfulEqOrd.eq_of_compare heq, hget]
        · rfl
      have hsum : sumOfBalances accounts = old.balance.toNat + sumOfBalances (accounts.erase a) := by
        rw [← sumOfBalances_insert_new hnone old, ← hsame]
      rw [hsum, Option.getD_some]
      omega

/-! ## The total of a journal -/

namespace Journal

variable {j j' : Journal} {a b : Address}

/-- The sum of all balances. -/
def total (j : Journal) : Nat := sumOfBalances j.accounts

/-- **Changing an account changes the total by the change of its balance.** -/
theorem total_update (j : Journal) (a : Address) (f : Account → Account) :
    (j.update a f).total + (j.balance a).toNat =
      j.total + (f (j.account a)).balance.toNat :=
  sumOfBalances_insert j.accounts a _

theorem total_update_of_balance_eq {f : Account → Account}
    (h : (f (j.account a)).balance = (j.account a).balance) : (j.update a f).total = j.total := by
  have htotal := j.total_update a f
  rw [h] at htotal
  exact Nat.add_right_cancel htotal

/-- No account has more than all of them. -/
theorem balance_le_total (j : Journal) (a : Address) : (j.balance a).toNat ≤ j.total := by
  have htotal : (j.update a fun account => { account with balance := 0 }).total +
      (j.balance a).toNat = j.total + 0 := j.total_update a _
  omega

end Journal

/-- The sum of all balances. -/
def World.total (w : World) : Nat := w.journal.total

/-! ## Moving value -/

/-- **A sum that does not grow**, and that stays if it is less than `2 ^ 256`. -/
def Guards (before after : Nat) : Prop := after ≤ before ∧ (before < 2 ^ 256 → after = before)

theorem Guards.refl (n : Nat) : Guards n n := ⟨Nat.le_refl n, fun _ => rfl⟩

theorem Guards.of_eq {before after : Nat} (h : after = before) : Guards before after :=
  ⟨Nat.le_of_eq h, fun _ => h⟩

theorem Guards.trans {a b c : Nat} (h : Guards a b) (h' : Guards b c) : Guards a c := by
  refine ⟨Nat.le_trans h'.1 h.1, fun hfits => ?_⟩
  rw [h'.2 (Nat.lt_of_le_of_lt h.1 hfits), h.2 hfits]

namespace Journal

variable {j j' : Journal} {a b : Address} {value : Word}

/-- The journal with a value taken from an account. -/
def debit (j : Journal) (a : Address) (value : Word) : Journal :=
  j.update a fun account => { account with balance := account.balance - value }

/-- The journal with a value added to an account. -/
def credit (j : Journal) (a : Address) (value : Word) : Journal :=
  j.update a fun account => { account with balance := account.balance + value }

theorem total_debit (h : value ≤ j.balance a) : (j.debit a value).total + value.toNat = j.total := by
  have htotal : (j.debit a value).total + (j.balance a).toNat =
      j.total + (j.balance a - value).toNat := j.total_update a _
  rw [BitVec.toNat_sub_of_le h] at htotal
  have hle := BitVec.le_def.mp h
  omega

/-- A value that is added counts in full unless the balance wraps around. It cannot where the sum
    with the value fits a word, since a balance is part of the sum. -/
theorem credit_guards (j : Journal) (a : Address) (value : Word) :
    Guards (j.total + value.toNat) (j.credit a value).total := by
  have htotal : (j.credit a value).total + (j.balance a).toNat =
      j.total + (j.balance a + value).toNat := j.total_update a _
  have hbound := j.balance_le_total a
  rw [BitVec.toNat_add] at htotal
  constructor
  · have hmod := Nat.mod_le ((j.balance a).toNat + value.toNat) (2 ^ 256)
    omega
  · intro hfits
    rw [Nat.mod_eq_of_lt (by omega)] at htotal
    omega

/-- **Moving value makes none.** What one account loses another one gets, unless its balance wraps
    around, which it can do only if all balances together do not fit a word. -/
theorem transfer?_guards (h : j.transfer? a b value = some j') : Guards j.total j'.total := by
  unfold transfer? at h
  by_cases hbalance : j.balance a < value
  · rw [if_pos hbalance] at h
    cases h
  · rw [if_neg hbalance] at h
    by_cases hnothing : value = 0#256 ∨ a = b
    · rw [if_pos hnothing] at h
      cases h
      exact .refl _
    · rw [if_neg hnothing] at h
      cases h
      have hpays : value ≤ j.balance a := by
        simpa [BitVec.lt_def, BitVec.le_def] using hbalance
      have hsent := total_debit hpays
      have hreceived := credit_guards (j.debit a value) b value
      rw [hsent] at hreceived
      exact hreceived

theorem transfer_guards (j : Journal) (a b : Address) (value : Word) :
    Guards j.total (j.transfer a b value).total := by
  unfold transfer
  cases h : j.transfer? a b value with
  | none => exact .refl _
  | some j' => exact transfer?_guards h

theorem total_touch (j : Journal) (a : Address) : (j.touch a).total = j.total :=
  total_update_of_balance_eq rfl

end Journal

namespace World

variable {w : World} {fork : Fork} {a b : Address}

/-- Handing an account over to another one makes no value and loses none. -/
theorem handOver_guards (w : World) (fork : Fork) (h : b ≠ a) :
    Guards w.total (w.handOver fork a b).total := by
  unfold handOver
  rw [if_pos h]
  exact Journal.transfer_guards ..

/-- Handing an account over to itself makes no value. -/
theorem total_handOver_le (w : World) (fork : Fork) (a b : Address) :
    (w.handOver fork a b).total ≤ w.total := by
  by_cases h : b ≠ a
  · exact (w.handOver_guards fork h).1
  · unfold handOver
    rw [if_neg h]
    split
    · have htotal := w.journal.total_update a fun account => { account with balance := 0 }
      have hzero : (0 : Word).toNat = 0 := rfl
      show Journal.total _ ≤ w.journal.total
      dsimp only at htotal
      omega
    · exact Nat.le_refl _

end World

/-! ## Child frames -/

namespace Chain

variable {c : Chain} {req : CallRequest} {w w' : World}

theorem total_counted (c : Chain) (req : CallRequest) (w : World) :
    (c.counted req w).total = w.total := by
  have hupdate : (w.journal.update req.caller Account.countCreation).total = w.journal.total :=
    Journal.total_update_of_balance_eq rfl
  unfold counted countCreation
  dsimp only
  split
  · exact hupdate
  · exact hupdate

theorem enterCall?_guards {j j' : Journal} (h : c.enterCall? req j = some j') :
    Guards j.total j'.total := by
  unfold enterCall? at h
  split at h
  · obtain ⟨j₁, htransfer, rfl⟩ := Option.map_eq_some_iff.mp h
    rw [Journal.total_touch]
    exact Journal.transfer?_guards htransfer
  · split at h
    · cases h
      exact .refl _
    · cases h
      exact .of_eq (Journal.total_touch _ _)

/-- **Starting a frame makes no value.** -/
theorem launch_guards {frame : Launch} (h : c.launch req w = .ok frame) :
    Guards w.total frame.world.total := by
  have hlaunches := c.launches req w
  rw [h] at hlaunches
  cases hlaunches with
  | call hcall henter => exact enterCall?_guards henter
  | create hcreate hpaid hfree =>
      -- the new account comes into being with nothing new, and then gets its endowment
      unfold enterCreate
      dsimp only
      refine Eq.mp (congrArg (Guards · _) ?_) (Journal.transfer_guards ..)
      exact (Journal.total_update_of_balance_eq rfl).trans (c.total_counted req w)

theorem launch_error_total {p : Performed} (h : c.launch req w = .error (p, w')) :
    w'.total = w.total := by
  have hlaunches := c.launches req w
  rw [h] at hlaunches
  cases hlaunches with
  | unpaid hp hvalue hunpaid => rfl
  | met hp hcreate hpaid htaken => exact c.total_counted req w

/-- **A frame that succeeds leaves the sum that it came to; one that fails, the sum from before.** -/
theorem conclude_total (c : Chain) (req : CallRequest) (w : World) (result : Result)
    (after : World) :
    (c.conclude req w result after).2.total =
      if (c.conclude req w result after).1.result.isSuccess then after.total else w.total := by
  have hconcludes := c.concludes req w result after
  generalize c.conclude req w result after = concluded at hconcludes
  cases hconcludes with
  | wasted hp hwasted =>
      rw [if_neg (by simp [hp])]
      show (c.fallback req w).total = w.total
      unfold fallback
      split
      · exact c.total_counted req w
      · rfl
  | kept hp hkept =>
      rw [if_pos hp]
      rfl
  | deployed hp hkept hcreate code =>
      rw [if_pos hp]
      exact Journal.total_update_of_balance_eq (f := fun a => { a with code }) rfl

end Chain

end MeteredEvm
