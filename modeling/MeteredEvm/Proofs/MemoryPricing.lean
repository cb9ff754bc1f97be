import MeteredEvm.Config
import MeteredEvm.Proofs.Memory

/-!
# `MeteredEvm.Proofs.MemoryPricing` — which sizes of a view have a price

The price of a memory has a quadratic part, and the square of `2 ^ 32` words is no longer a 64-bit
number. So a view can be priced up to `Memory.pricedLimit` bytes and not further. The size check in
front of the formula goes by the configured limit, and a configuration is accepted with any limit
that is not zero. Hence prices are exact for all sizes if and only if the configured limit is at most
`Memory.pricedLimit` (`memory_pricing_exact_iff`), and a larger one that is accepted lets sizes
through for which there is no price (`accepted_limit_has_unpriced_size`).

## Contents
* `Gas.Representable`, `Gas.memory?_eq` — which word counts have a price.
* `Memory.expansionCost_cases` — the three ways in which pricing can end.
* `Memory.PricesExactly`, `memory_pricing_exact_iff`.
-/

namespace MeteredEvm

/-! ## Word counts -/

namespace Gas

/-- Every value that pricing `words` words goes through is a 64-bit number. -/
structure Representable (words : Nat) : Prop where
  linear : 3 * words < u64Size
  square : words * words < u64Size
  quadratic : words * words / 512 < u64Size
  total : 3 * words + words * words / 512 < u64Size

theorem square_lt_iff {words : Nat} : words * words < u64Size ↔ words < 2 ^ 32 :=
  Nat.mul_self_lt_mul_self_iff (n := 2 ^ 32)

/-- The square is the first value to leave the range. -/
theorem representable_iff {words : Nat} : Representable words ↔ words < 2 ^ 32 := by
  constructor
  · intro h
    exact square_lt_iff.1 h.square
  · intro h
    have hsquare := square_lt_iff.2 h
    have hquadratic : words * words / 512 < 2 ^ 55 := Nat.div_lt_of_lt_mul hsquare
    have hsize : u64Size = 2 ^ 64 := rfl
    exact ⟨by omega, hsquare, by omega, by omega⟩

theorem memory?_eq (words : Nat) :
    memory? words = if words < 2 ^ 32 then some (memory words) else none := by
  unfold memory?
  simp only [square_lt_iff]

end Gas

theorem wordsFor_lt_iff {len : Nat} : wordsFor len < 2 ^ 32 ↔ len ≤ Memory.pricedLimit := by
  unfold wordsFor Memory.pricedLimit
  omega

/-! ## Prices -/

namespace Memory

/-- **The three ways in which pricing ends.** A size past the limit is refused. A size that needs no
    more words, or few enough to have a price, costs what the larger memory costs more. Any other
    size has no price. -/
theorem expansionCost_cases (m : Memory) (newSize : Nat) :
    m.expansionCost newSize =
      if m.limit < newSize then .error rangeFault
      else if wordsFor newSize ≤ m.size / 32 ∨ newSize ≤ pricedLimit then
        .ok (Gas.memory (wordsFor newSize) - Gas.memory (m.size / 32))
      else .error (.trap .arithmetic) := by
  unfold expansionCost
  by_cases hlimit : m.limit < newSize
  · rw [if_pos hlimit, if_pos hlimit]
  · rw [if_neg hlimit, if_neg hlimit]
    by_cases hwords : wordsFor newSize ≤ m.size / 32
    · rw [if_pos hwords, if_pos (.inl hwords), Nat.sub_eq_zero_of_le (Gas.memory_mono hwords)]
    · rw [if_neg hwords]
      by_cases hpriced : newSize ≤ pricedLimit
      · -- the view has fewer words than the new size, so it has a price too
        have hnew := wordsFor_lt_iff.2 hpriced
        rw [if_pos (.inr hpriced), Gas.memory?_of_lt hnew, Gas.memory?_of_lt (by omega)]
      · have hnew : ¬ wordsFor newSize < 2 ^ 32 := fun h => hpriced (wordsFor_lt_iff.1 h)
        rw [if_neg (not_or.2 ⟨hwords, hpriced⟩), Gas.memory?_eq, if_neg hnew]

/-- **What pricing is meant to do** for a view that is to hold `newSize` bytes. Exactly the sizes past
    the limit are refused. Any other one costs the difference of the prices of the two word counts,
    as integers, or nothing where the view has the words already; and all that is computed on the
    way is 64-bit. -/
structure PricesExactly (m : Memory) (newSize : Nat) : Prop where
  refused : m.expansionCost newSize = .error rangeFault ↔ m.limit < newSize
  priced : newSize ≤ m.limit → ∃ cost : Nat, m.expansionCost newSize = .ok cost ∧
    (cost : Int) = max 0 ((Gas.memory (wordsFor newSize) : Int) - Gas.memory (m.size / 32))
  representable : newSize ≤ m.limit → m.size / 32 < wordsFor newSize →
    Gas.Representable (wordsFor newSize) ∧ Gas.Representable (m.size / 32)

/-- The sizes for which pricing does what it is meant to. -/
theorem pricesExactly_iff (m : Memory) (newSize : Nat) :
    m.PricesExactly newSize ↔
      m.limit < newSize ∨ wordsFor newSize ≤ m.size / 32 ∨ newSize ≤ pricedLimit := by
  have hcases := m.expansionCost_cases newSize
  constructor
  · intro h
    by_cases hlimit : m.limit < newSize
    · exact .inl hlimit
    · obtain ⟨cost, hcost, -⟩ := h.priced (Nat.le_of_not_lt hlimit)
      rw [if_neg hlimit] at hcases
      by_cases hfits : wordsFor newSize ≤ m.size / 32 ∨ newSize ≤ pricedLimit
      · exact .inr hfits
      · rw [if_neg hfits, hcost] at hcases
        cases hcases
  · intro h
    by_cases hlimit : m.limit < newSize
    · rw [if_pos hlimit] at hcases
      exact ⟨iff_of_true hcases hlimit, fun hle => absurd hlimit (Nat.not_lt_of_le hle),
        fun hle => absurd hlimit (Nat.not_lt_of_le hle)⟩
    · have hfits := h.resolve_left hlimit
      rw [if_neg hlimit, if_pos hfits] at hcases
      refine ⟨iff_of_false ?_ hlimit, fun _ => ⟨_, hcases, by omega⟩, fun _ hmore => ?_⟩
      · rw [hcases]
        intro h
        cases h
      · have hnew := wordsFor_lt_iff.2 (hfits.resolve_left (Nat.not_le_of_lt hmore))
        exact ⟨Gas.representable_iff.2 hnew, Gas.representable_iff.2 (Nat.lt_trans hmore hnew)⟩

end Memory

/-- An accepted configuration has some memory; its limit is not bounded otherwise. -/
theorem Config.memoryLimit_pos {c : Config} (h : c.validate = .ok c) : 0 < c.memoryLimit := by
  apply Nat.pos_of_ne_zero
  intro hzero
  unfold validate at h
  rw [if_pos hzero] at h
  split at h
  · cases h
  · split at h <;> cases h

/-- **Which configurations have exact prices.** Take any configuration that `Config.validate` accepts,
    and any memory with its limit. Pricing a size does what it is meant to (`Memory.PricesExactly`) if
    and only if the size is past the limit, or within the words that the view has, or at most
    `Memory.pricedLimit`; everywhere else `Memory.expansionCost` leaves the 64-bit range. So it does
    what it is meant to for all views that the limit allows, and all sizes, if and only if the limit
    is at most `Memory.pricedLimit`. -/
theorem memory_pricing_exact_iff {c : Config} (hc : c.validate = .ok c) :
    0 < c.memoryLimit ∧
      (∀ m : Memory, m.limit = c.memoryLimit → ∀ newSize,
        (m.PricesExactly newSize ↔
          c.memoryLimit < newSize ∨ wordsFor newSize ≤ m.size / 32 ∨
            newSize ≤ Memory.pricedLimit) ∧
        (¬ m.PricesExactly newSize → m.expansionCost newSize = .error (.trap .arithmetic))) ∧
      ((∀ m : Memory, m.limit = c.memoryLimit → m.size ≤ 32 * wordsFor c.memoryLimit →
          ∀ newSize < u64Size, m.PricesExactly newSize) ↔
        c.memoryLimit ≤ Memory.pricedLimit) := by
  refine ⟨Config.memoryLimit_pos hc, ?_, ?_⟩
  · intro m hm newSize
    rw [← hm]
    refine ⟨m.pricesExactly_iff newSize, fun h => ?_⟩
    rw [m.pricesExactly_iff] at h
    obtain ⟨hlimit, hfits⟩ := not_or.1 h
    rw [m.expansionCost_cases, if_neg hlimit, if_neg hfits]
  · constructor
    · intro h
      -- the first size without a price, on a memory that was never used
      have hfirst := h (.new c.memoryLimit) rfl (Nat.zero_le _) (Memory.pricedLimit + 1) (by decide)
      rw [Memory.pricesExactly_iff] at hfirst
      obtain hlimit | hwords | hle := hfirst
      · exact Nat.le_of_lt_succ hlimit
      · have hempty : (Memory.new c.memoryLimit).size = 0 := rfl
        rw [hempty] at hwords
        exact absurd hwords (by decide)
      · exact absurd hle (Nat.not_succ_le_self _)
    · intro hle m hm _ newSize _
      rw [m.pricesExactly_iff, hm]
      by_cases hlimit : c.memoryLimit < newSize
      · exact .inl hlimit
      · exact .inr (.inr (Nat.le_trans (Nat.le_of_not_lt hlimit) hle))

/-- The configuration with all its defaults has exact prices. -/
theorem memory_pricing_exact_iff_defaults :
    ({} : Config).validate = .ok {} ∧
      ∀ m : Memory, m.limit = Memory.defaultLimit →
        m.size ≤ 32 * wordsFor Memory.defaultLimit →
          ∀ newSize < u64Size, m.PricesExactly newSize :=
  ⟨rfl, (memory_pricing_exact_iff (c := {}) rfl).2.2.2 (by decide)⟩

/-- The largest limit is accepted, and lets a size through that has no price. -/
theorem accepted_limit_has_unpriced_size :
    let c : Config := { memoryLimit := u64Size - 1 }
    let m := Memory.new c.memoryLimit
    c.validate = .ok c ∧ m.size ≤ 32 * wordsFor c.memoryLimit ∧ 2 ^ 37 - 31 ≤ c.memoryLimit ∧
      ¬ m.PricesExactly (2 ^ 37 - 31) ∧
      m.expansionCost (2 ^ 37 - 31) = .error (.trap .arithmetic) := by
  intro c m
  have htrap : m.expansionCost (2 ^ 37 - 31) = .error (.trap .arithmetic) := by
    rw [Memory.expansionCost_cases, if_neg (by decide), if_neg (by decide)]
  refine ⟨rfl, Nat.zero_le _, by decide, fun h => ?_, htrap⟩
  obtain ⟨cost, hcost, -⟩ := h.priced (by decide)
  rw [htrap] at hcost
  cases hcost

end MeteredEvm
