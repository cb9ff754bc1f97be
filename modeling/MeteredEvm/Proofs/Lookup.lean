import Mathlib.Algebra.GroupWithZero.Nat
import MeteredEvm.Proofs.Decoding

/-!
# `MeteredEvm.Proofs.Lookup` — bitmaps and sorted arrays

A bitmap is read through its bits: setting one changes no other (`JumpMap.bit_set`), so a scan sets
those of the jump destinations that it passes (`JumpMap.bit_scanFrom`), and what is counted word by
word are the bits (`JumpMap.count_eq_countP`). Halving an array finds where a property ends that
holds of its first elements only (`partitionPoint_spec`), and with that what a sorted array has for
a place (`findPlace_eq_some_iff`).

## Contents
* `JumpMap.bit`, `JumpMap.isSet_eq`, `JumpMap.bit_set`, `JumpMap.bit_scanFrom`, `JumpMap.isSet_iff`.
* `JumpMap.countOnes_eq_countP`, `JumpMap.count_eq_countP`.
* `Partitioned`, `partitionPoint_spec`, `findPlace_eq_some_iff`.
-/

namespace MeteredEvm

/-! ## Bits -/

namespace JumpMap

variable {size : Nat}

/-- The bit at `i` of words that stand one after the other; past the last there is none set. -/
def bitOf (words : List UInt64) (i : Nat) : Bool :=
  match words[i / 64]? with
  | some w => w.toBitVec.getLsbD (i % 64)
  | none => false

/-- The bit of the byte at `pc`. The last word has bits that belong to no byte. -/
def bit (m : JumpMap size) (pc : Nat) : Bool := bitOf m.words.toList pc

theorem bit_of_lt (m : JumpMap size) {pc : Nat} (h : pc / 64 < (size + 63) / 64) :
    m.bit pc = m.words[pc / 64].toBitVec.getLsbD (pc % 64) := by
  have hword : m.words.toList[pc / 64]? = some m.words[pc / 64] := by
    rw [Vector.getElem?_toList, getElem?_pos]
  unfold bit bitOf
  rw [hword]

/-- A mask has one bit. -/
theorem getLsbD_mask (pc i : Nat) :
    (split pc).2.toBitVec.getLsbD i = decide (i = pc % 64) := by
  have hlow : pc &&& 63 = pc % 64 := Nat.and_two_pow_sub_one_eq_mod pc 6
  have hshift : (UInt64.ofNat (pc &&& 63)).toBitVec.toNat % 64 = pc % 64 := by
    rw [hlow]
    show pc % 64 % 2 ^ 64 % 64 = pc % 64
    omega
  have hmask : (split pc).2.toBitVec = BitVec.twoPow 64 (pc % 64) := by
    rw [← hshift]
    show (1 <<< UInt64.ofNat (pc &&& 63) : UInt64).toBitVec = _
    rw [UInt64.toBitVec_shiftLeft, BitVec.shiftLeft_eq', BitVec.toNat_umod]
    rfl
  rw [hmask, BitVec.getLsbD_twoPow, decide_eq_true (Nat.mod_lt pc (by decide)), Bool.true_and]
  exact decide_eq_decide.2 eq_comm

/-- Looking at a word through the mask of a bit is looking at the bit. -/
theorem and_mask_ne_zero (w : UInt64) (pc : Nat) :
    (w &&& (split pc).2 != 0) = w.toBitVec.getLsbD (pc % 64) := by
  have hbit (i : Nat) : (w &&& (split pc).2).toBitVec.getLsbD i =
      (w.toBitVec.getLsbD i && decide (i = pc % 64)) := by
    rw [UInt64.toBitVec_and, BitVec.getLsbD_and, getLsbD_mask]
  cases hset : w.toBitVec.getLsbD (pc % 64) with
  | true =>
      have hone := hbit (pc % 64)
      rw [hset, decide_eq_true rfl] at hone
      refine bne_iff_ne.2 fun hzero => ?_
      rw [hzero] at hone
      cases hone.symm.trans BitVec.getLsbD_zero
  | false =>
      have hzero : w &&& (split pc).2 = 0 := by
        apply UInt64.toBitVec_inj.1
        apply BitVec.eq_of_getLsbD_eq
        intro i _
        rw [hbit]
        by_cases hi : i = pc % 64
        · rw [hi, hset]
          exact BitVec.getLsbD_zero.symm
        · rw [decide_eq_false hi, Bool.and_false]
          exact BitVec.getLsbD_zero.symm
      rw [hzero]
      rfl

/-- A byte is marked if its bit is set. -/
theorem isSet_eq (m : JumpMap size) (pc : Nat) : m.isSet pc = (decide (pc < size) && m.bit pc) := by
  unfold isSet
  by_cases h : pc < size
  · have hword : pc / 64 < (size + 63) / 64 := by omega
    rw [dif_pos h, decide_eq_true h, Bool.true_and, and_mask_ne_zero, bit_of_lt m hword]
    simp only [fst_split]
  · rw [dif_neg h, decide_eq_false h, Bool.false_and]

/-- **Setting a bit changes no other**, also not of the word that it is in. -/
theorem bit_set (m : JumpMap size) {pc : Nat} (h : pc < size) (i : Nat) :
    (m.set pc h).bit i = (m.bit i || decide (i = pc)) := by
  by_cases hi : i / 64 < (size + 63) / 64
  · rw [bit_of_lt _ hi, bit_of_lt m hi]
    unfold set
    simp only [fst_split, Vector.getElem_set]
    by_cases hsame : pc / 64 = i / 64
    · rw [if_pos hsame, UInt64.toBitVec_or, BitVec.getLsbD_or, getLsbD_mask]
      simp only [hsame]
      congr 1
      exact decide_eq_decide.2 (by omega)
    · rw [if_neg hsame, decide_eq_false (by omega), Bool.or_false]
  · have hnone (m : JumpMap size) : m.bit i = false := by
      unfold bit bitOf
      rw [List.getElem?_eq_none (by simpa using hi)]
    rw [hnone, hnone, decide_eq_false (by omega)]
    rfl

theorem bit_empty (size i : Nat) : (empty size).bit i = false := by
  unfold bit bitOf empty
  rw [Vector.toList_replicate, List.getElem?_replicate]
  by_cases hi : i / 64 < (size + 63) / 64
  · rw [if_pos hi]
    exact BitVec.getLsbD_zero
  · rw [if_neg hi]

/-- **A scan sets the bits of the jump destinations that it passes**, and no others. -/
theorem bit_scanFrom (is : InstructionSet) (code : ByteArray) (pc : Nat) (m : JumpMap code.size)
    (i : Nat) :
    (scanFrom code pc m).bit i = true ↔
      m.bit i = true ∨ ∃ d ∈ decodedFrom is code pc, d.pc = i ∧ d.isJumpDest = true := by
  rw [scanFrom.eq_def]
  by_cases hlt : pc < code.size
  · have hnext : pc + 1 + immediateSize code[pc] = (Decoded.readAt is code pc code[pc]).next := by
      unfold Decoded.next Decoded.readAt
      rw [is.opcode_entry]
    have hhead : (Decoded.readAt is code pc code[pc]).isJumpDest = (code[pc] == jumpDestByte) := by
      unfold Decoded.isJumpDest Decoded.readAt
      rw [is.opcode_entry]
    have hpc := Decoded.lt_next_readAt is code pc code[pc]
    rw [dif_pos hlt]
    dsimp only
    rw [bit_scanFrom is code _ _ i, hnext, decodedFrom_of_lt hlt]
    simp only [List.mem_cons, exists_eq_or_imp, hhead]
    rw [← or_assoc]
    refine or_congr_left ?_
    show _ ↔ _ ∨ pc = i ∧ _
    -- what is left is the byte at `pc`: it sets its own bit or none
    by_cases hbyte : code[pc] == jumpDestByte
    · rw [if_pos hbyte, bit_set, Bool.or_eq_true, decide_eq_true_eq]
      simp only [hbyte, and_true]
      exact or_congr_right eq_comm
    · rw [if_neg hbyte]
      simp only [hbyte]
      simp
  · rw [dif_neg hlt, decodedFrom_of_le (Nat.not_lt.1 hlt)]
    simp
termination_by code.size - pc

/-- The bits that are set are those of the jump destinations. -/
theorem bit_scan_iff (is : InstructionSet) (code : ByteArray) (i : Nat) :
    (scan code).bit i = true ↔ ∃ d ∈ decodedFrom is code 0, d.pc = i ∧ d.isJumpDest = true := by
  unfold scan
  rw [bit_scanFrom is, bit_empty]
  simp

/-- The bits that belong to no byte are not set, so the bits are the marks. -/
theorem isSet_scan (code : ByteArray) (i : Nat) : (scan code).isSet i = (scan code).bit i := by
  rw [isSet_eq]
  cases hbit : (scan code).bit i with
  | false => rw [Bool.and_false]
  | true =>
      obtain ⟨d, hmem, rfl, -⟩ := (bit_scan_iff (.ofFork .frontier) code i).1 hbit
      rw [decide_eq_true (readAt_of_mem_decodedFrom hmem).1, Bool.true_and]

/-- **A jump may go where a jump destination starts**, and nowhere else. -/
theorem isSet_iff (is : InstructionSet) (code : ByteArray) (pc : Nat) :
    (scan code).isSet pc = true ↔ ∃ d ∈ decodedFrom is code 0, d.pc = pc ∧ d.isJumpDest = true := by
  rw [isSet_scan, bit_scan_iff is]

/-! ## Counting -/

theorem countOnes_eq_countP (w : UInt64) :
    countOnes w = (List.range 64).countP fun i => w.toBitVec.getLsbD i := by
  have hcount (n : Nat) : w.toBitVec.cpopNatRec n 0 =
      (List.range n).countP fun i => w.toBitVec.getLsbD i := by
    induction n with
    | zero => rfl
    | succ n ih =>
        rw [List.range_succ, List.countP_append, ← ih, List.countP_singleton]
        show w.toBitVec.cpopNatRec n (0 + (w.toBitVec.getLsbD n).toNat) = _
        rw [BitVec.cpopNatRec_add]
        cases w.toBitVec.getLsbD n <;> rfl
  unfold countOnes
  rw [BitVec.toNat_cpop]
  exact hcount 64

/-- **Counting word by word counts the bits.** -/
theorem foldr_countOnes (words : List UInt64) :
    words.foldr (fun w n => countOnes w + n) 0 =
      (List.range (64 * words.length)).countP (bitOf words) := by
  induction words with
  | nil => rfl
  | cons w words ih =>
      have hfirst : ∀ i ∈ List.range 64, (bitOf (w :: words) i = true ↔ w.toBitVec.getLsbD i = true) := by
        intro i hi
        have hlt := List.mem_range.1 hi
        unfold bitOf
        rw [Nat.div_eq_of_lt hlt, Nat.mod_eq_of_lt hlt]
        rfl
      have hrest (i : Nat) : bitOf (w :: words) (64 + i) = bitOf words i := by
        unfold bitOf
        rw [Nat.add_mod_left, Nat.add_div_left i (by decide)]
        rfl
      rw [List.foldr_cons, ih, List.length_cons, Nat.mul_succ, Nat.add_comm _ 64,
        List.range_add, List.countP_append, List.countP_congr hfirst, countOnes_eq_countP,
        List.countP_map]
      congr 2
      funext i
      exact (hrest i).symm

theorem count_eq_countP (m : JumpMap size) :
    m.count = (List.range (64 * ((size + 63) / 64))).countP m.bit := by
  have hcount := foldr_countOnes m.words.toList
  rw [Vector.length_toList] at hcount
  exact hcount

end JumpMap

/-! ## Sorted arrays -/

section Search

variable {α : Type} {p : α → Bool} {xs : Array α}

/-- The elements that satisfy a property come first. -/
def Partitioned (p : α → Bool) (xs : Array α) : Prop :=
  xs.toList.Pairwise fun x y => p y = true → p x = true

theorem Partitioned.of_le (h : Partitioned p xs) {i j : Nat} (hij : i ≤ j) (hj : j < xs.size)
    (hp : p xs[j] = true) : p xs[i] = true := by
  rcases Nat.eq_or_lt_of_le hij with rfl | hlt
  · exact hp
  · exact List.pairwise_iff_getElem.1 h i j (by simpa using Nat.lt_trans hlt hj) (by simpa using hj)
      hlt hp

/-- **Halving finds where a property ends**, in a window before which it holds and behind which it does
    not. -/
theorem partitionWithin_spec (hpart : Partitioned p xs) (lo hi : Nat) (h : hi ≤ xs.size)
    (hle : lo ≤ hi) (hbefore : ∀ i (hi : i < xs.size), i < lo → p xs[i] = true)
    (hbehind : ∀ i (hi' : i < xs.size), hi ≤ i → p xs[i] = false) (i : Nat) (hsize : i < xs.size) :
    p xs[i] = true ↔ i < partitionWithin p xs lo hi h := by
  fun_induction partitionWithin p xs lo hi h with
  | case1 lo hi h hlt mid hp ih =>
      refine ih (by omega) (fun j hj hlo => ?_) hbehind
      exact hpart.of_le (by omega) (by omega) hp
  | case2 lo hi h hlt mid hp ih =>
      refine ih (by omega) hbefore fun j hj hmid => ?_
      exact Bool.eq_false_iff.2 fun hpj => hp (hpart.of_le hmid hj hpj)
  | case3 lo hi h hlt =>
      refine ⟨fun hp => Nat.lt_of_not_le fun hlo => ?_, hbefore i hsize⟩
      rw [hbehind i hsize (by omega)] at hp
      cases hp

/-- **The partition point splits the array into what satisfies the property and what does not.** -/
theorem partitionPoint_spec (hpart : Partitioned p xs) {i : Nat} (hi : i < xs.size) :
    p xs[i] = true ↔ i < partitionPoint p xs :=
  partitionWithin_spec hpart 0 xs.size (Nat.le_refl _) (Nat.zero_le _) (fun _ _ h => by omega)
    (fun _ _ h => by omega) i hi

theorem partitionPoint_le (p : α → Bool) (xs : Array α) : partitionPoint p xs ≤ xs.size := by
  have hwithin (lo hi : Nat) (h : hi ≤ xs.size) (hle : lo ≤ hi) :
      partitionWithin p xs lo hi h ≤ hi := by
    fun_induction partitionWithin p xs lo hi h with
    | case1 lo hi h hlt mid hp ih => exact ih (by omega)
    | case2 lo hi h hlt mid hp ih => exact Nat.le_trans (ih (by omega)) (by omega)
    | case3 lo hi h hlt => exact hle
  exact hwithin 0 xs.size (Nat.le_refl _) (Nat.zero_le _)

/-- What comes before the partition point is what comes before the first that fails. -/
theorem take_partitionPoint (hpart : Partitioned p xs) :
    xs.toList.take (partitionPoint p xs) = xs.toList.takeWhile p := by
  have hle := partitionPoint_le p xs
  have hget {i : Nat} (hi : i < xs.toList.length) : p xs.toList[i] = true ↔ i < partitionPoint p xs := by
    rw [Array.getElem_toList]
    exact partitionPoint_spec hpart hi
  have hfront : ∀ x ∈ xs.toList.take (partitionPoint p xs), p x = true := by
    intro x hx
    obtain ⟨i, hi, rfl⟩ := List.getElem_of_mem hx
    rw [List.length_take] at hi
    rw [List.getElem_take]
    exact (hget (by omega)).2 (by omega)
  have hstop : (xs.toList.drop (partitionPoint p xs)).takeWhile p = [] := by
    by_cases hlt : partitionPoint p xs < xs.toList.length
    · rw [List.drop_eq_getElem_cons hlt, List.takeWhile_cons_of_neg]
      exact fun hp => Nat.lt_irrefl _ ((hget hlt).1 hp)
    · rw [List.drop_eq_nil_of_le (Nat.not_lt.1 hlt), List.takeWhile_nil]
  calc xs.toList.take (partitionPoint p xs)
      = xs.toList.take (partitionPoint p xs) ++
          (xs.toList.drop (partitionPoint p xs)).takeWhile p := by rw [hstop, List.append_nil]
    _ = (xs.toList.take (partitionPoint p xs) ++ xs.toList.drop (partitionPoint p xs)).takeWhile p :=
        (List.takeWhile_append_of_pos hfront).symm
    _ = xs.toList.takeWhile p := by rw [List.take_append_drop]

end Search

section Index

variable {index : Array (Nat × Nat)}

/-- In a sorted array an entry is behind those for smaller places, and no others. -/
theorem partitionPoint_getElem (hsorted : index.toList.Pairwise (·.1 < ·.1)) {i : Nat}
    (hi : i < index.size) :
    partitionPoint (fun entry => decide (entry.1 < index[i].1)) index = i := by
  have hpart : Partitioned (fun entry : Nat × Nat => decide (entry.1 < index[i].1)) index := by
    refine hsorted.imp fun {x y} hxy hy => ?_
    rw [decide_eq_true_eq] at hy ⊢
    exact Nat.lt_trans hxy hy
  have hbefore {j : Nat} (hj : j < index.size) : index[j].1 < index[i].1 ↔
      j < partitionPoint (fun entry => decide (entry.1 < index[i].1)) index := by
    rw [← partitionPoint_spec hpart hj, decide_eq_true_eq]
  apply Nat.le_antisymm
  · exact Nat.le_of_not_lt fun hlt => Nat.lt_irrefl _ ((hbefore hi).2 hlt)
  · -- an entry at the partition point would not be for a smaller place
    refine Nat.le_of_not_lt fun hlt => ?_
    have hj := Nat.lt_trans hlt hi
    have hless := List.pairwise_iff_getElem.1 hsorted _ i hj hi hlt
    exact Nat.lt_irrefl _ ((hbefore hj).1 hless)

/-- **A sorted array has for a place what stands there**, and for others nothing. -/
theorem findPlace_eq_some_iff (hsorted : index.toList.Pairwise (·.1 < ·.1)) {pc found : Nat} :
    findPlace index pc = some found ↔ (pc, found) ∈ index.toList := by
  unfold findPlace
  constructor
  · intro h
    split at h
    · rename_i place n hentry
      split at h
      · rename_i hplace
        cases h
        subst hplace
        rw [← Array.getElem?_toList] at hentry
        exact List.mem_of_getElem? hentry
      · cases h
    · cases h
  · intro hmem
    obtain ⟨i, hi, heq⟩ := List.getElem_of_mem hmem
    rw [Array.getElem_toList] at heq
    have hpoint := partitionPoint_getElem hsorted hi
    rw [heq] at hpoint
    rw [hpoint, getElem?_pos index i hi, heq]
    exact if_pos rfl

end Index

end MeteredEvm
