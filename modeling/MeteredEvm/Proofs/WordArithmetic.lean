import Mathlib.Algebra.GroupWithZero.Nat
import Mathlib.Data.Int.ModEq
import MeteredEvm.Word

/-!
# `MeteredEvm.Proofs.WordArithmetic` — words as integers

The signed operations are put together from unsigned ones: a sign is split off and put back, a shift
is a shift of the complement, a sign is extended by a mask. Read in two's complement
(`BitVec.toInt`), they are the operations on integers. So are sums and products to a modulus, which
need twice the width on the way.

## Contents
* `Word.isNegative_iff`, `Word.toInt_of_nonnegative`, `Word.toInt_of_negative` — the two halves of
  the range.
* `Word.signed`, `Word.toInt_eq_signed`, `Word.ite_negate_eq` — sign and magnitude.
* `Word.sdiv_eq`, `Word.toInt_srem`, `Word.slt_iff`, `Word.toInt_sar` — division, order and shifts.
* `Word.LowPart`, `Word.lowPart_signExtendFrom` — sign extension.
* `Word.toNat_addMod`, `Word.toNat_mulMod` — moduli.
* `word_operations_are_integer_operations`.
-/

namespace MeteredEvm

namespace Word

variable {w : Word}

/-! ## Sign and magnitude -/

theorem isNegative_iff : w.isNegative = true ↔ 2 ^ 255 ≤ w.toNat := by
  unfold isNegative
  rw [BitVec.msb_eq_decide, decide_eq_true_eq]

theorem toInt_of_nonnegative (h : w.isNegative = false) : w.toInt = w.toNat := by
  have hmsb : ¬ w.msb = true := by
    rw [show w.msb = false from h]
    decide
  rw [BitVec.toInt_eq_msb_cond, if_neg hmsb]

theorem toInt_of_negative (h : w.isNegative = true) : w.toInt = w.toNat - 2 ^ 256 := by
  have hmsb : w.msb = true := h
  rw [BitVec.toInt_eq_msb_cond, if_pos hmsb]
  norm_cast

theorem toNat_negate (h : w.isNegative = true) : (negate w).toNat = 2 ^ 256 - w.toNat := by
  have hlarge := isNegative_iff.1 h
  unfold negate
  rw [← BitVec.neg_eq_not_add, BitVec.toNat_neg, Nat.mod_eq_of_lt (by omega)]

theorem toNat_magnitude_le (w : Word) : (magnitude w).toNat ≤ 2 ^ 255 := by
  unfold magnitude
  cases h : w.isNegative with
  | false =>
      have hsmall : ¬ 2 ^ 255 ≤ w.toNat := by
        rw [← isNegative_iff, h]
        decide
      rw [if_neg (by decide)]
      omega
  | true =>
      have hlarge := isNegative_iff.1 h
      rw [if_pos rfl, toNat_negate h]
      omega

/-- The integer with a sign and a magnitude. -/
def signed : (negative : Bool) → Nat → Int
  | false, n => n
  | true, n => -n

/-- **A word is its magnitude, with its sign.** -/
theorem toInt_eq_signed (w : Word) : w.toInt = signed w.isNegative (magnitude w).toNat := by
  have hbound := w.isLt
  unfold magnitude
  cases h : w.isNegative with
  | false => exact toInt_of_nonnegative h
  | true =>
      show w.toInt = -((negate w).toNat : Int)
      rw [toInt_of_negative h, toNat_negate h]
      omega

theorem eq_ofInt_toNat (w : Word) : w = BitVec.ofInt 256 w.toNat := by
  rw [BitVec.ofInt_natCast, BitVec.ofNat_toNat, BitVec.setWidth_eq]

/-- Putting a sign on a word wraps around as the signed integer does. -/
theorem ite_negate_eq (negative : Bool) (w : Word) :
    (if negative then negate w else w) = BitVec.ofInt 256 (signed negative w.toNat) := by
  cases negative with
  | false => exact eq_ofInt_toNat w
  | true =>
      show ~~~w + 1#256 = BitVec.ofInt 256 (-w.toNat)
      rw [BitVec.ofInt_neg, ← eq_ofInt_toNat, BitVec.neg_eq_not_add]

/-! ## Division -/

theorem signed_tdiv (negative negative' : Bool) (m n : Nat) :
    (signed negative m).tdiv (signed negative' n) = signed (negative != negative') (m / n) := by
  cases negative <;> cases negative' <;>
    simp only [signed, Int.neg_tdiv, Int.tdiv_neg, Int.ofNat_tdiv, Int.neg_neg, bne_self_eq_false,
      Bool.false_bne, Bool.bne_false]

theorem signed_tmod (negative negative' : Bool) (m n : Nat) :
    (signed negative m).tmod (signed negative' n) = signed negative (m % n) := by
  cases negative <;> cases negative' <;>
    simp only [signed, Int.neg_tmod, Int.tmod_neg, Int.ofNat_tmod]

/-- **Signed division is division of integers toward zero**, modulo `2 ^ 256`. Only the least number
    divided by minus one wraps around. -/
theorem sdiv_eq (a b : Word) :
    sdiv a b = if b = 0#256 then 0#256 else BitVec.ofInt 256 (a.toInt.tdiv b.toInt) := by
  unfold sdiv
  split
  · rfl
  · rw [toInt_eq_signed a, toInt_eq_signed b, signed_tdiv, ← BitVec.toNat_udiv]
    exact ite_negate_eq _ _

theorem magnitude_ne_zero (h : w ≠ 0#256) : (magnitude w).toNat ≠ 0 := by
  intro hzero
  have hint := toInt_eq_signed w
  have hsigned (negative : Bool) : signed negative 0 = 0 := by cases negative <;> rfl
  rw [hzero, hsigned] at hint
  exact h (BitVec.toInt_inj.1 (hint.trans (BitVec.toInt_zero).symm))

/-- **The signed remainder is the remainder of that division**, with the sign of the dividend. -/
theorem toInt_srem (a b : Word) :
    (srem a b).toInt = if b = 0#256 then 0 else a.toInt.tmod b.toInt := by
  unfold srem
  split
  · rfl
  · rename_i hb
    -- a remainder is less than half the range, so it takes either sign
    have hsmall : (magnitude a % magnitude b).toNat < 2 ^ 255 := by
      rw [BitVec.toNat_umod]
      have hlt := Nat.mod_lt (magnitude a).toNat (Nat.pos_of_ne_zero (magnitude_ne_zero hb))
      exact Nat.lt_of_lt_of_le hlt (toNat_magnitude_le b)
    have hrange (negative : Bool) {n : Nat} (hn : n < 2 ^ 255) :
        (BitVec.ofInt 256 (signed negative n)).toInt = signed negative n := by
      apply BitVec.toInt_ofInt_eq_self (by decide) <;> cases negative <;> simp [signed] <;> omega
    rw [toInt_eq_signed a, toInt_eq_signed b, signed_tmod, ← BitVec.toNat_umod]
    rw [ite_negate_eq, hrange _ hsmall]

/-! ## Order -/

/-- **Signed comparison is the order of integers.** -/
theorem slt_iff (a b : Word) : slt a b = true ↔ a.toInt < b.toInt := by
  have ha := a.isLt
  have hb := b.isLt
  unfold slt
  cases hsa : a.isNegative with
  | false =>
      cases hsb : b.isNegative with
      | false =>
          rw [toInt_of_nonnegative hsa, toInt_of_nonnegative hsb]
          simp [BitVec.ult]
      | true =>
          rw [toInt_of_nonnegative hsa, toInt_of_negative hsb]
          simp
          omega
  | true =>
      cases hsb : b.isNegative with
      | false =>
          rw [toInt_of_negative hsa, toInt_of_nonnegative hsb]
          simp
          omega
      | true =>
          rw [toInt_of_negative hsa, toInt_of_negative hsb]
          simp [BitVec.ult]

/-! ## Arithmetic shift -/

/-- A negative word is the complement of a number in the lower half. -/
theorem toInt_eq_negSucc (h : w.isNegative = true) : w.toInt = Int.negSucc (~~~w).toNat := by
  have hbound := w.isLt
  rw [toInt_of_negative h, BitVec.toNat_not, Int.negSucc_eq]
  omega

theorem toInt_complement (h : w.toNat < 2 ^ 255) : (~~~w).toInt = Int.negSucc w.toNat := by
  have hnegative : (~~~w).isNegative = true := by
    rw [isNegative_iff, BitVec.toNat_not]
    omega
  rw [toInt_eq_negSucc hnegative, BitVec.not_not]

/-- Rounding down, below zero: the quotient of the complement is the complement of the quotient. -/
theorem negSucc_fdiv (n : Nat) {d : Nat} (h : 0 < d) :
    (Int.negSucc n).fdiv d = Int.negSucc (n / d) := by
  rw [Int.fdiv_eq_ediv_of_nonneg _ (Int.natCast_nonneg d),
    Int.negSucc_ediv n (Int.natCast_pos.2 h), Int.negSucc_eq]
  rfl

/-- **The arithmetic shift is division by a power of two, rounded down**, however far it goes. -/
theorem toInt_sar (s v : Word) : (sar s v).toInt = v.toInt.fdiv (2 ^ s.toNat) := by
  have hpow : (2 : Int) ^ s.toNat = (2 ^ s.toNat : Nat) := by norm_cast
  have hpos : 0 < 2 ^ s.toNat := Nat.two_pow_pos _
  have hfar (hs : ¬ s.toNat < 256) : 2 ^ 256 ≤ 2 ^ s.toNat :=
    Nat.pow_le_pow_right (by decide) (by omega)
  rw [hpow]
  unfold sar
  cases hv : v.isNegative with
  | false =>
      have hsmall : ¬ 2 ^ 255 ≤ v.toNat := by
        rw [← isNegative_iff, hv]
        decide
      rw [toInt_of_nonnegative hv, Int.fdiv_eq_ediv_of_nonneg _ (Int.natCast_nonneg _),
        ← Int.natCast_ediv]
      by_cases hs : s.toNat < 256
      · have hshift : (v >>> s.toNat).toNat = v.toNat / 2 ^ s.toNat := by
          rw [BitVec.toNat_ushiftRight, Nat.shiftRight_eq_div_pow]
        have hle := Nat.div_le_self v.toNat (2 ^ s.toNat)
        rw [below?_of_lt (by decide) hs]
        dsimp only
        rw [if_neg (by decide), toInt_of_nonnegative, hshift]
        rw [← Bool.not_eq_true, isNegative_iff, hshift]
        omega
      · have hle := hfar hs
        rw [below?_of_le (Nat.not_lt.1 hs), Nat.div_eq_of_lt (by omega)]
        rfl
  | true =>
      have hbound := v.isLt
      have hlarge := isNegative_iff.1 hv
      have hcomplement : (~~~v).toNat < 2 ^ 255 := by
        rw [BitVec.toNat_not]
        omega
      rw [toInt_eq_negSucc hv, negSucc_fdiv _ hpos]
      by_cases hs : s.toNat < 256
      · have hshift : (~~~v >>> s.toNat).toNat = (~~~v).toNat / 2 ^ s.toNat := by
          rw [BitVec.toNat_ushiftRight, Nat.shiftRight_eq_div_pow]
        have hle := Nat.div_le_self (~~~v).toNat (2 ^ s.toNat)
        rw [below?_of_lt (by decide) hs]
        dsimp only
        rw [if_pos rfl, toInt_complement (by omega), hshift]
      · have hle := hfar hs
        rw [below?_of_le (Nat.not_lt.1 hs), Nat.div_eq_of_lt (by omega)]
        rfl

/-! ## Sign extension -/

/-- **The integer `z` is what the low bits of a word stand for**: it has `bits` bits beside its
    sign, and differs from the word by a multiple of `2 ^ (bits + 1)`. -/
structure LowPart (v : Word) (bits : Nat) (z : Int) : Prop where
  lower : -2 ^ bits ≤ z
  upper : z < 2 ^ bits
  agrees : z ≡ v.toNat [ZMOD 2 ^ (bits + 1)]

/-- There is only one such integer. -/
theorem LowPart.unique {v : Word} {bits : Nat} {z z' : Int} (h : LowPart v bits z)
    (h' : LowPart v bits z') : z = z' := by
  have hdvd : (2 : Int) ^ (bits + 1) ∣ z - z' := (h'.agrees.trans h.agrees.symm).dvd
  have hlower := h.lower
  have hupper := h.upper
  have hlower' := h'.lower
  have hupper' := h'.upper
  have hsmall : |z - z'| < 2 ^ (bits + 1) := by
    rw [pow_succ, abs_lt]
    constructor <;> omega
  exact Int.sub_eq_zero.1 (Int.eq_zero_of_abs_lt_dvd hdvd hsmall)

/-- The mask of the bits below one. -/
theorem toNat_mask {bits : Nat} (h : bits < 256) :
    ((1#256 <<< bits) - 1#256 : Word).toNat = 2 ^ bits - 1 := by
  have hpow : 2 ^ bits < 2 ^ 256 := Nat.pow_lt_pow_right (by decide) h
  have hone : (1#256 <<< bits : Word).toNat = 2 ^ bits := by
    rw [BitVec.toNat_shiftLeft, Nat.shiftLeft_eq, BitVec.toNat_ofNat,
      Nat.one_mod_two_pow (by decide), Nat.one_mul, Nat.mod_eq_of_lt hpow]
  have hle : (1#256 : Word) ≤ 1#256 <<< bits := by
    rw [BitVec.le_def, hone]
    exact Nat.one_le_two_pow
  rw [BitVec.toNat_sub_of_le hle, hone]
  rfl

/-- Setting all bits outside of a mask adds them to those inside. -/
theorem or_complement_eq_add (v mask : Word) : v ||| ~~~mask = (v &&& mask) + ~~~mask := by
  have hdisjoint : (v &&& mask) &&& ~~~mask = 0#256 := by
    rw [BitVec.and_assoc, BitVec.and_not_self]
    exact BitVec.and_zero
  rw [BitVec.add_eq_or_of_and_eq_zero _ _ hdisjoint]
  ext i hi
  simp only [BitVec.getElem_or, BitVec.getElem_not, BitVec.getElem_and]
  cases mask[i] <;> simp

/-- **Sign extension gives the integer in the low bytes.** The bits below the sign are those of the
    word, and a sign that is set counts against them. -/
theorem lowPart_signExtendFrom {index : Word} (h : index.toNat < 31) (v : Word) :
    LowPart v (8 * index.toNat + 7) (signExtendFrom index v).toInt := by
  unfold signExtendFrom
  rw [below?_of_lt (by decide) h]
  dsimp only
  generalize hbits : 8 * index.toNat + 7 = bits
  have hpow : 2 ^ bits ≤ 2 ^ 247 := Nat.pow_le_pow_right (by decide) (by omega)
  have hlow : (v &&& ((1#256 <<< bits) - 1#256)).toNat = v.toNat % 2 ^ bits := by
    rw [BitVec.toNat_and, toNat_mask (by omega), Nat.and_two_pow_sub_one_eq_mod]
  have hlt : v.toNat % 2 ^ bits < 2 ^ bits := Nat.mod_lt _ (Nat.two_pow_pos bits)
  have hcast : (2 : Int) ^ bits = (2 ^ bits : Nat) := by norm_cast
  -- the low part with its sign bit
  have hsplit : v.toNat % 2 ^ (bits + 1) =
      v.toNat % 2 ^ bits + 2 ^ bits * (v.toNat / 2 ^ bits % 2) := Nat.mod_pow_succ
  have hmod : (v.toNat : Int) ≡ (v.toNat % 2 ^ (bits + 1) : Nat) [ZMOD 2 ^ (bits + 1)] := by
    push_cast
    exact (Int.mod_modEq _ _).symm
  have hbit : v.getLsbD bits = decide (v.toNat / 2 ^ bits % 2 = 1) := by
    rw [← BitVec.testBit_toNat, Nat.testBit_eq_decide_div_mod_eq]
  split
  · rename_i hset
    rw [hbit, decide_eq_true_eq] at hset
    rw [hset, Nat.mul_one] at hsplit
    have hword : (v ||| ~~~((1#256 <<< bits) - 1#256)).toNat =
        v.toNat % 2 ^ bits + (2 ^ 256 - 2 ^ bits) := by
      have hnot := BitVec.toNat_not (x := (1#256 <<< bits) - 1#256)
      rw [toNat_mask (by omega)] at hnot
      rw [or_complement_eq_add, BitVec.toNat_add, hlow, hnot, Nat.mod_eq_of_lt (by omega)]
      omega
    have hint : (v ||| ~~~((1#256 <<< bits) - 1#256)).toInt =
        (v.toNat % 2 ^ bits : Nat) - (2 ^ bits : Nat) := by
      rw [toInt_of_negative, hword]
      · omega
      · rw [isNegative_iff, hword]
        omega
    rw [hint]
    refine ⟨by omega, by omega, Int.ModEq.trans ?_ hmod.symm⟩
    rw [hsplit, Int.modEq_iff_dvd, pow_succ, hcast]
    exact ⟨1, by push_cast; omega⟩
  · rename_i hclear
    rw [hbit, decide_eq_true_eq] at hclear
    have hzero : v.toNat / 2 ^ bits % 2 = 0 := by omega
    have hsame : v.toNat % 2 ^ (bits + 1) = v.toNat % 2 ^ bits := by
      rw [hsplit, hzero, Nat.mul_zero, Nat.add_zero]
    have hint : (v &&& ((1#256 <<< bits) - 1#256)).toInt = (v.toNat % 2 ^ bits : Nat) := by
      rw [toInt_of_nonnegative, hlow]
      rw [← Bool.not_eq_true, isNegative_iff, hlow]
      omega
    rw [hint]
    refine ⟨by omega, by omega, ?_⟩
    rw [← hsame]
    exact hmod.symm

/-! ## Moduli -/

theorem toNat_widen (w : Word) : (widen w).toNat = w.toNat := by
  unfold widen
  rw [BitVec.toNat_setWidth_of_le (by decide)]

/-- A remainder to the modulus of a word is a word. -/
theorem toNat_lowHalf_umod {n : Word} (h : n ≠ 0#256) (x : BitVec 512) :
    (lowHalf (x % widen n)).toNat = x.toNat % n.toNat := by
  have hpos : 0 < n.toNat := Nat.pos_of_ne_zero (Word.toNat_ne_zero h)
  have hlt := Nat.mod_lt x.toNat hpos
  have hbound := n.isLt
  unfold lowHalf
  rw [BitVec.toNat_setWidth, BitVec.toNat_umod, toNat_widen, Nat.mod_eq_of_lt (by omega)]

theorem toNat_addMod (a b n : Word) :
    (addMod a b n).toNat = if n = 0#256 then 0 else (a.toNat + b.toNat) % n.toNat := by
  unfold addMod
  split
  · rfl
  · rename_i hn
    have hsum : (widen a + widen b).toNat = a.toNat + b.toNat := by
      have ha := a.isLt
      have hb := b.isLt
      rw [BitVec.toNat_add_of_lt, toNat_widen, toNat_widen]
      rw [toNat_widen, toNat_widen]
      omega
    rw [toNat_lowHalf_umod hn, hsum]

theorem toNat_mulMod (a b n : Word) :
    (mulMod a b n).toNat = if n = 0#256 then 0 else a.toNat * b.toNat % n.toNat := by
  unfold mulMod
  split
  · rfl
  · rename_i hn
    have hproduct : (widen a * widen b).toNat = a.toNat * b.toNat := by
      rw [BitVec.toNat_mul_of_lt, toNat_widen, toNat_widen]
      rw [toNat_widen, toNat_widen]
      exact lt_of_lt_of_eq (Nat.mul_lt_mul'' a.isLt b.isLt) (Nat.pow_add 2 256 256).symm
    rw [toNat_lowHalf_umod hn, hproduct]

end Word

/-- **The word operations are the operations on integers.** Division (`Word.sdiv`) goes toward zero
    modulo `2 ^ 256`, and the remainder (`Word.srem`) belongs to it; comparison (`Word.slt`) is that of
    integers; a shift to the right (`Word.sar`) rounds down, however far it goes; an extended sign
    (`Word.signExtendFrom`) gives the one integer that fits into the low bytes and agrees with them,
    and from byte 31 on the word; sums and products to a modulus (`Word.addMod`, `Word.mulMod`) are
    those of numbers without bound. Division by zero gives zero, and so does a modulus of zero. -/
theorem word_operations_are_integer_operations (a b n : Word) :
    (Word.sdiv a b = if b = 0#256 then 0#256 else BitVec.ofInt 256 (a.toInt.tdiv b.toInt)) ∧
    ((Word.srem a b).toInt = if b = 0#256 then 0 else a.toInt.tmod b.toInt) ∧
    (Word.slt a b = true ↔ a.toInt < b.toInt) ∧
    (Word.sar a b).toInt = b.toInt.fdiv (2 ^ a.toNat) ∧
    (if a.toNat < 31 then
      ∀ z : Int, z = (Word.signExtendFrom a b).toInt ↔
        -2 ^ (8 * a.toNat + 7) ≤ z ∧ z < 2 ^ (8 * a.toNat + 7) ∧
          z ≡ b.toNat [ZMOD 2 ^ (8 * (a.toNat + 1))]
    else Word.signExtendFrom a b = b) ∧
    ((Word.addMod a b n).toNat = if n = 0#256 then 0 else (a.toNat + b.toNat) % n.toNat) ∧
    ((Word.mulMod a b n).toNat = if n = 0#256 then 0 else a.toNat * b.toNat % n.toNat) := by
  refine ⟨Word.sdiv_eq a b, Word.toInt_srem a b, Word.slt_iff a b, Word.toInt_sar a b, ?_,
    Word.toNat_addMod a b n, Word.toNat_mulMod a b n⟩
  split
  · rename_i hindex
    have hpart := Word.lowPart_signExtendFrom hindex b
    intro z
    constructor
    · rintro rfl
      exact ⟨hpart.lower, hpart.upper, hpart.agrees⟩
    · rintro ⟨hlower, hupper, hagrees⟩
      exact Word.LowPart.unique ⟨hlower, hupper, hagrees⟩ hpart
  · rename_i hindex
    unfold Word.signExtendFrom
    rw [Word.below?_of_le (Nat.not_lt.1 hindex)]

end MeteredEvm
