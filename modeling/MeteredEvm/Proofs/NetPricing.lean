import Mathlib.Tactic.Linarith
import MeteredEvm.Gas.Schedule

/-!
# `MeteredEvm.Proofs.NetPricing` — what many writes to one slot come to

Where writes are priced by their net effect, the price of a write depends on three values: what the
slot held when the transaction started, what it holds now, and what it is given. Refunds are earned
and taken back on the way. Yet what has been paid in the end, refunds taken off, depends on the two
ends of the way only: every write pays for a look, and the rest is the difference of a potential of
the slot.

The refunds alone have a bound from below of the same kind: a slot that is cleared stands for one
refund.

## Contents
* `Schedule.sstores` — price and refund of a list of writes to one slot.
* `Schedule.clearing_le_refund`, `clearing_le_refunds` — refunds against cleared slots.
* `standing` — the potential of a slot; `Schedule.sstore_net`, `sstores_net` — what it does to the
  price of one write and of a list of them.
* `net_pricing_path_independent`.
-/

namespace MeteredEvm

/-- What a list of writes to one slot comes to: each is a value, and whether the slot is cold by
    then. The slot holds `current` before the first. -/
def Schedule.sstores (s : Schedule) (initial current : Word) : List (Word × Bool) → WriteCost
  | [] => ⟨0, 0⟩
  | (new, wasCold) :: rest =>
    let first := s.sstore initial current new wasCold
    let later := s.sstores initial new rest
    ⟨first.gas + later.gas, first.refund + later.refund⟩

/-! ## Refunds and cleared slots -/

theorem Rules.clearRefund_nonneg (r : Rules) : 0 ≤ r.schedule.clearRefund := by
  unfold Rules.schedule
  dsimp only
  split <;> decide

/-- **What a write earns is at least what it does to the cleared slots.** A write that clears a slot
    earns the refund for clearing, and one that fills a cleared slot gives back no more. -/
theorem Schedule.clearing_le_refund {s : Schedule} (hs : 0 ≤ s.clearRefund)
    {held initial : Word} (hinitial : s.rules.netSstore = true → initial = held)
    (current new : Word) (wasCold : Bool) :
    (s.clearRefund * if held ≠ 0 ∧ new = 0 then 1 else 0) ≤
      (s.sstore initial current new wasCold).refund +
        s.clearRefund * if held ≠ 0 ∧ current = 0 then 1 else 0 := by
  unfold sstore
  by_cases hnet : s.rules.netSstore = true
  · rw [if_pos hnet, hinitial hnet]
    unfold netWrite
    dsimp only
    by_cases hsame : current = new
    · simp [hsame]
    · by_cases hfirst : held = current
      · simp [← hfirst, hfirst ▸ hsame]
      · rw [if_neg hsame, if_neg hfirst]
        -- a slot that changed before: what it gets for going back is extra
        dsimp only
        generalize hrestored : (if held ≠ new then (0 : Int)
          else if held = 0#256 then ((Gas.sstoreSet - s.slotRead : Nat) : Int)
          else ((s.slotReset - s.slotRead : Nat) : Int)) = restored
        have hextra : 0 ≤ restored := by
          rw [← hrestored]
          split
          · exact Int.le_refl 0
          · split <;> exact Int.natCast_nonneg _
        by_cases hheld : held = 0#256
        · simpa [hheld] using hextra
        · by_cases hcurrent : current = 0#256
          · have hnew : new ≠ 0#256 := fun h => hsame (hcurrent.trans h.symm)
            simp [hheld, hcurrent, hnew]
            omega
          · by_cases hnew : new = 0#256
            · simp [hheld, hcurrent, hnew]
              omega
            · simpa [hheld, hcurrent, hnew] using hextra
  · rw [if_neg hnet]
    dsimp only
    by_cases hcurrent : current = 0#256
    · by_cases hnew : new = 0#256
      · simp [hcurrent, hnew]
      · simp [hcurrent, hnew]
        split <;> omega
    · by_cases hnew : new = 0#256
      · simp [hcurrent, hnew]
        split <;> omega
      · simp [hcurrent, hnew]

/-- The same along a list of writes. -/
theorem Schedule.clearing_le_refunds {s : Schedule} (hs : 0 ≤ s.clearRefund) (initial : Word)
    (writes : List (Word × Bool)) (current : Word) :
    (s.clearRefund * if initial ≠ 0 ∧ (writes.map Prod.fst).getLastD current = 0 then 1 else 0) ≤
      (s.sstores initial current writes).refund +
        s.clearRefund * if initial ≠ 0 ∧ current = 0 then 1 else 0 := by
  induction writes generalizing current with
  | nil => exact Int.le_of_eq (Int.zero_add _).symm
  | cons write rest ih =>
    obtain ⟨new, wasCold⟩ := write
    have hstep := Schedule.clearing_le_refund hs (fun _ => (rfl : initial = initial)) current new
      wasCold
    have hrest := ih new
    simp only [List.map_cons, List.getLastD_cons, sstores]
    omega

/-! ## The potential of a slot -/

/-- What a slot that holds `current` stands for, against one that holds what it did at the start:
    what the first change of it costs above a look, less the refund if it is cleared. -/
def standing (read reset clears : Int) (initial current : Word) : Int :=
  if current = initial then 0
  else if initial = 0 then 20000 - read
  else (reset - read) - if current = 0 then clears else 0

namespace Schedule

/-- `standing` at the prices of a schedule. -/
def slotStanding (s : Schedule) (initial current : Word) : Int :=
  MeteredEvm.standing s.slotRead s.slotReset s.clearRefund initial current

theorem slotRead_le_slotReset (s : Schedule) : s.slotRead ≤ s.slotReset := by
  unfold slotRead slotReset
  split <;> decide

theorem slotRead_le_sstoreSet (s : Schedule) : s.slotRead ≤ Gas.sstoreSet := by
  unfold slotRead
  split <;> decide

/-- One write pays for a look, and for what it does to the potential. -/
theorem netWrite_net (s : Schedule) (initial current new : Word) :
    ((s.netWrite initial current new).gas : Int) - (s.netWrite initial current new).refund =
      s.slotRead + s.slotStanding initial new - s.slotStanding initial current := by
  have hreset := s.slotRead_le_slotReset
  have hset := s.slotRead_le_sstoreSet
  have hprice : Gas.sstoreSet = 20000 := rfl
  unfold netWrite slotStanding standing
  by_cases hsame : current = new
  · simp [hsame]
  · rw [if_neg hsame]
    by_cases hfirst : initial = current
    · -- the first change of the slot
      subst hfirst
      by_cases hzero : initial = 0#256
      · simp [hzero, Ne.symm (hzero ▸ hsame), hprice]
      · by_cases hclear : new = 0#256
        · simp [hzero, hclear, Ne.symm (hclear ▸ hsame)]
          omega
        · simp [hzero, hclear, Ne.symm hsame]
    · rw [if_neg hfirst]
      have hfirst' : ¬ current = initial := fun h => hfirst h.symm
      by_cases hzero : initial = 0#256
      · -- the slot was empty: only going back to that earns something
        by_cases hclear : new = 0#256
        · simp [hzero, hclear, hzero ▸ hfirst']
          omega
        · simp [hzero, hclear, Ne.symm hclear, hzero ▸ hfirst']
      · by_cases hcurrent : current = 0#256
        · -- the slot was cleared: the refund is taken back
          have hnew : new ≠ 0#256 := fun h => hsame (hcurrent.trans h.symm)
          by_cases hback : initial = new
          · simp [hback ▸ hzero, hcurrent, hback, Ne.symm hnew]
            omega
          · simp [hzero, hcurrent, hnew, hback, Ne.symm hback, Ne.symm hzero]
            omega
        · by_cases hnew : new = 0#256
          · simp [hzero, hcurrent, hnew, hfirst', Ne.symm hzero]
            omega
          · by_cases hback : initial = new
            · simp [hback ▸ hzero, hcurrent, hback, hsame]
              omega
            · simp [hzero, hcurrent, hnew, hback, Ne.symm hback, hfirst']

/-- What a write to a cold slot costs on top. -/
def coldWrite (s : Schedule) : Nat := if s.rules.accessLists then Gas.coldSlot else 0

/-- One write, to a slot that may be cold. -/
theorem sstore_net {s : Schedule} (hnet : s.rules.netSstore = true) (initial current new : Word)
    (wasCold : Bool) :
    ((s.sstore initial current new wasCold).gas : Int) -
        (s.sstore initial current new wasCold).refund =
      s.slotRead + (s.coldWrite * if wasCold = true then 1 else 0) +
        s.slotStanding initial new - s.slotStanding initial current := by
  have hwrite := s.netWrite_net initial current new
  have hcold : (if wasCold && s.rules.accessLists then Gas.coldSlot else 0) =
      s.coldWrite * if wasCold = true then 1 else 0 := by
    unfold coldWrite
    cases wasCold <;> simp
  unfold sstore
  rw [if_pos hnet, hcold]
  push_cast
  linarith

/-- **A list of writes pays for its looks, its cold accesses and the way from the first value to the
    last.** The potentials of the values in between cancel. -/
theorem sstores_net {s : Schedule} (hnet : s.rules.netSstore = true) (initial : Word)
    (writes : List (Word × Bool)) (current : Word) :
    ((s.sstores initial current writes).gas : Int) - (s.sstores initial current writes).refund =
      writes.length * s.slotRead + s.coldWrite * writes.countP Prod.snd +
        s.slotStanding initial ((writes.map Prod.fst).getLastD current) -
        s.slotStanding initial current := by
  induction writes generalizing current with
  | nil => simp [sstores]
  | cons write rest ih =>
    obtain ⟨new, wasCold⟩ := write
    have hstep := sstore_net hnet initial current new wasCold
    have hrest := ih new
    simp only [List.map_cons, List.getLastD_cons, List.length_cons, List.countP_cons, sstores]
    push_cast
    linarith

end Schedule

/-! ## The prices of a fork -/

/-- **Net pricing of storage does not depend on the path.** From Istanbul on, whatever a slot held at
    the start of the transaction and holds now, what a list of writes to it costs (`Schedule.sstores`),
    refunds taken off, is a look for each of them, the price of every cold access, and a difference of
    `standing`s that depends on the first and the last value only. If the slot starts out unchanged,
    then the refunds are never negative, and they hold the `clearRefund` if the slot ends up cleared. -/
theorem net_pricing_path_independent (fork : Fork) (hfork : fork.since .istanbul = true)
    (initial current : Word) (writes : List (Word × Bool)) :
    let read := if fork.since .berlin then 100 else 800
    let reset := if fork.since .berlin then 2900 else 5000
    let clears := fork.rules.schedule.clearRefund
    let last := (writes.map Prod.fst).getLastD current
    let total := fork.rules.schedule.sstores initial current writes
    (total.gas : Int) - total.refund =
        writes.length * read +
          (if fork.since .berlin then 2100 * (writes.countP Prod.snd : Int) else 0) +
          standing read reset clears initial last - standing read reset clears initial current ∧
      (current = initial →
        0 ≤ total.refund ∧ (initial ≠ 0 → last = 0 → clears ≤ total.refund)) := by
  intro read reset clears last total
  have hread : (fork.rules.schedule.slotRead : Int) = read := by
    show ((if fork.since .berlin then 100 else 800 : Nat) : Int) = _
    push_cast
    rfl
  have hreset : (fork.rules.schedule.slotReset : Int) = reset := by
    show ((if fork.since .berlin then 2900 else 5000 : Nat) : Int) = _
    push_cast
    rfl
  have hcold : (fork.rules.schedule.coldWrite * writes.countP Prod.snd : Int) =
      if fork.since .berlin then 2100 * (writes.countP Prod.snd : Int) else 0 := by
    show ((if fork.since .berlin then 2100 else 0 : Nat) : Int) * _ = _
    push_cast
    rw [ite_mul, Int.zero_mul]
  refine ⟨?_, ?_⟩
  · have hnet := Schedule.sstores_net (s := fork.rules.schedule) hfork initial writes current
    rw [hread, hcold] at hnet
    unfold Schedule.slotStanding at hnet
    rw [hread, hreset] at hnet
    exact hnet
  · rintro rfl
    have hclears : 0 ≤ clears := fork.rules.clearRefund_nonneg
    have hrefunds : _ ≤ total.refund + _ :=
      Schedule.clearing_le_refunds hclears current writes current
    have hstart : ¬ (current ≠ 0 ∧ current = 0) := fun h => h.1 h.2
    rw [if_neg hstart, Int.mul_zero, Int.add_zero] at hrefunds
    refine ⟨?_, fun hinitial hlast => ?_⟩
    · refine Int.le_trans (Int.mul_nonneg hclears ?_) hrefunds
      split <;> decide
    · rwa [if_pos ⟨hinitial, hlast⟩, Int.mul_one] at hrefunds

/-- A slot that held 1 is cleared, restored and cleared again. -/
theorem net_pricing_path_independent_clearTwice :
    let total := Fork.london.rules.schedule.sstores 1 1 [(0, true), (1, false), (0, false)]
    Fork.london.since .istanbul = true ∧ total = ⟨8000, 7600⟩ ∧
      (total.gas : Int) - total.refund = 3 * 100 + 2100 + (2900 - 100 - 4800) ∧
      4800 ≤ total.refund := by
  have hnet := net_pricing_path_independent .london (by decide) 1 1
    [(0, true), (1, false), (0, false)]
  exact ⟨by decide, by decide, hnet.1.trans (by decide), (hnet.2 rfl).2 (by decide) (by decide)⟩

end MeteredEvm
