import Mathlib.Algebra.GroupWithZero.Nat
import Mathlib.Data.List.SplitBy
import MeteredEvm.Code.Block
import MeteredEvm.Proofs.Decoding

/-!
# `MeteredEvm.Proofs.Blocks` — the check on entry to a block

The entry of a block compares the height of the stack with two numbers and pays one amount. The two
numbers say exactly that every instruction of the block, in turn, finds its inputs and has room for
its outputs (`Tally.admits_iff`); the amount is the sum of the static prices (`Tally.gas_ofSegment`).

## Contents
* `gasOf` — static gas of a list of instructions.
* `heightAfter`, `Fits` — heights along a list of instructions.
* `Tally.gas_ofSegment`, `Tally.admits_iff`.
* `segments` — how code falls into blocks.
-/

namespace MeteredEvm

/-! ## Static gas -/

/-- Static gas of the instructions. -/
def gasOf (ds : List Decoded) : Nat := (ds.map (·.entry.baseGas)).sum

@[simp]
theorem gasOf_nil : gasOf [] = 0 := rfl

@[simp]
theorem gasOf_cons (d : Decoded) (ds : List Decoded) : gasOf (d :: ds) = d.entry.baseGas + gasOf ds :=
  List.sum_cons

/-- The tally of more instructions. -/
theorem Tally.gas_foldl (ds : List Decoded) (t : Tally) :
    (ds.foldl (fun t d => t.add d.entry) t).gas = t.gas + gasOf ds := by
  induction ds generalizing t with
  | nil => rfl
  | cons d ds ih =>
      rw [List.foldl_cons, ih, gasOf_cons]
      show t.gas + d.entry.baseGas + gasOf ds = _
      omega

/-- **The gas of a block is the static gas of its instructions.** -/
theorem Tally.gas_ofSegment (ds : List Decoded) : (Tally.ofSegment ds).gas = gasOf ds := by
  unfold Tally.ofSegment
  rw [Tally.gas_foldl]
  exact Nat.zero_add _

/-! ## Heights -/

/-- The height after an instruction that finds its inputs. -/
def Entry.heightAfter (e : Entry) (h : Nat) : Nat := h - e.inputs + e.outputs

/-- **Each instruction in turn finds its inputs and has room for its outputs**, starting from a stack
    of height `h`. -/
def Fits : (h : Nat) → List Decoded → Prop
  | _, [] => True
  | h, d :: ds =>
    d.entry.inputs ≤ h ∧ d.entry.heightAfter h ≤ stackLimit ∧ Fits (d.entry.heightAfter h) ds

theorem fits_cons {h : Nat} {d : Decoded} {ds : List Decoded} :
    Fits h (d :: ds) ↔
      d.entry.inputs ≤ h ∧ d.entry.heightAfter h ≤ stackLimit ∧ Fits (d.entry.heightAfter h) ds :=
  Iff.rfl

/-! ## Profiles -/

/-- The stack profile of instructions, counted in integers. -/
structure Profile where
  /-- Change of the height of the stack. -/
  net : Int := 0
  /-- Least height on entry that no instruction finds too low. -/
  required : Int := 0
  /-- Largest rise above the height on entry. -/
  growth : Int := 0

namespace Profile

/-- Count one more instruction. -/
def add (p : Profile) (e : Entry) : Profile where
  net := p.net + e.stackChange
  required := max p.required (e.inputs - p.net)
  growth := max p.growth (p.net + e.stackChange)

/-- The profile of a block. -/
def ofSegment (segment : List Decoded) : Profile := segment.foldl (fun p d => p.add d.entry) {}

/-- Counting more instructions never lowers the demand. -/
theorem required_le_foldl (ds : List Decoded) (p : Profile) :
    p.required ≤ (ds.foldl (fun p d => p.add d.entry) p).required := by
  induction ds generalizing p with
  | nil => exact Int.le_refl _
  | cons d ds ih => exact Int.le_trans (Int.le_max_left ..) (ih (p.add d.entry))

/-- The profile of more instructions, on a stack that was `h` high when the count began and is `k`
    high now. -/
theorem foldl_iff (ds : List Decoded) (p : Profile) {h k : Nat} (hk : (k : Int) = h + p.net) :
    ((ds.foldl (fun p d => p.add d.entry) p).required ≤ h ∧
        h + (ds.foldl (fun p d => p.add d.entry) p).growth ≤ stackLimit) ↔
      p.required ≤ h ∧ h + p.growth ≤ stackLimit ∧ Fits k ds := by
  induction ds generalizing p k with
  | nil => simp [Fits]
  | cons d ds ih =>
      have hrequired : (p.add d.entry).required = max p.required (d.entry.inputs - p.net) := rfl
      have hgrowth :
          (p.add d.entry).growth = max p.growth (p.net + (d.entry.outputs - d.entry.inputs)) := rfl
      have hnet : (p.add d.entry).net = p.net + (d.entry.outputs - d.entry.inputs) := rfl
      rw [List.foldl_cons]
      by_cases hin : d.entry.inputs ≤ k
      · have hafter : ((d.entry.heightAfter k : Nat) : Int) = h + (p.add d.entry).net := by
          unfold Entry.heightAfter
          omega
        rw [ih (p.add d.entry) hafter, hrequired, hgrowth, fits_cons]
        constructor
        · rintro ⟨h₁, h₂, h₃⟩
          refine ⟨by omega, by omega, hin, by omega, h₃⟩
        · rintro ⟨h₁, h₂, -, h₃, h₄⟩
          refine ⟨by omega, by omega, h₄⟩
      · -- too few words for `d`: the count asks for more, and nothing brings the demand down again
        constructor
        · rintro ⟨hreq, -⟩
          have hmono := required_le_foldl ds (p.add d.entry)
          omega
        · rintro ⟨-, -, hfits⟩
          exact absurd hfits.1 hin

/-- **A profile says whether every instruction in turn fits.** -/
theorem ofSegment_iff (ds : List Decoded) {h : Nat} (hh : h ≤ stackLimit) :
    (ofSegment ds).required ≤ h ∧ h + (ofSegment ds).growth ≤ stackLimit ↔ Fits h ds := by
  have hempty : (({} : Profile).required ≤ h ∧ h + ({} : Profile).growth ≤ stackLimit ∧ Fits h ds) ↔
      Fits h ds := by
    refine ⟨fun hall => hall.2.2, fun hfits => ⟨Int.natCast_nonneg h, ?_, hfits⟩⟩
    show (h : Int) + 0 ≤ stackLimit
    omega
  rw [← hempty]
  exact foldl_iff ds {} (Int.add_zero _).symm

/-- The profile asks for more words, or for more room, than any stack has. -/
def Deep (p : Profile) : Prop := stackLimit < p.required ∨ stackLimit < p.growth

theorem Deep.add {p : Profile} (h : p.Deep) (e : Entry) : (p.add e).Deep := by
  unfold Deep at h ⊢
  show _ < max p.required (e.inputs - p.net) ∨ _ < max p.growth (p.net + e.stackChange)
  omega

end Profile

/-! ## 32-bit counts -/

namespace Tally

variable {t : Tally} {p : Profile} {e : Entry}

theorem toInt_larger (a b : Int32) : (larger a b).toInt = max a.toInt b.toInt := by
  unfold larger
  split
  · rename_i hle
    rw [Int.max_eq_right (Int32.le_iff_toInt_le.1 hle)]
  · rename_i hlt
    rw [Int32.le_iff_toInt_le] at hlt
    rw [Int.max_eq_left (by omega)]

theorem toInt_ofNat {n : Nat} (h : n < 256) : (Int32.ofNat n).toInt = n :=
  Int32.toInt_ofNat_of_lt (by omega)

/-- A sum of counts that is a count. -/
theorem toInt_add_of_mem (a b : Int32) (hlow : -0x80000000 ≤ a.toInt + b.toInt)
    (hhigh : a.toInt + b.toInt ≤ 0x7fffffff) : (a + b).toInt = a.toInt + b.toInt := by
  rw [Int32.toInt_add]
  exact Int.bmod_eq_of_le (by omega) (by omega)

/-- A difference of counts that is a count. -/
theorem toInt_sub_of_mem (a b : Int32) (hlow : -0x80000000 ≤ a.toInt - b.toInt)
    (hhigh : a.toInt - b.toInt ≤ 0x7fffffff) : (a - b).toInt = a.toInt - b.toInt := by
  rw [Int32.toInt_sub]
  exact Int.bmod_eq_of_le (by omega) (by omega)

theorem toInt_change (e : Entry) : (change e).toInt = e.stackChange := by
  have hin := e.inputs_lt
  have hout := e.outputs_lt
  unfold change Entry.stackChange
  rw [toInt_sub_of_mem, toInt_ofNat hin, toInt_ofNat hout]
  · rw [toInt_ofNat hin, toInt_ofNat hout]
    omega
  · rw [toInt_ofNat hin, toInt_ofNat hout]
    omega

theorem stackChange_mem (e : Entry) : -0x100 < e.stackChange ∧ e.stackChange < 0x100 := by
  have hin := e.inputs_lt
  have hout := e.outputs_lt
  unfold Entry.stackChange
  omega

/-- **Counting does not wrap around exactly if the integers are counts.** -/
theorem fits_iff {net : Int32} : fits net e = true ↔
    (-0x80000000 ≤ e.inputs - net.toInt ∧ e.inputs - net.toInt ≤ 0x7fffffff) ∧
      -0x80000000 ≤ net.toInt + e.stackChange ∧ net.toInt + e.stackChange ≤ 0x7fffffff := by
  have hin := e.inputs_lt
  have hchange := stackChange_mem e
  have hlow := net.le_toInt
  have hhigh := net.toInt_lt
  have hinputs : (Int64.ofNat e.inputs).toInt = e.inputs := Int64.toInt_ofNat_of_lt (by omega)
  have hdifference : (Int64.ofNat e.inputs - net.toInt64).toInt = e.inputs - net.toInt := by
    rw [Int64.toInt_sub, hinputs, Int32.toInt_toInt64]
    exact Int.bmod_eq_of_le (by omega) (by omega)
  have hsum : (net.toInt64 + (change e).toInt64).toInt = net.toInt + e.stackChange := by
    rw [Int64.toInt_add, Int32.toInt_toInt64, Int32.toInt_toInt64, toInt_change]
    exact Int.bmod_eq_of_le (by omega) (by omega)
  have hholds (n : Int64) : holds n = true ↔ -0x80000000 ≤ n.toInt ∧ n.toInt ≤ 0x7fffffff := by
    unfold holds
    rw [Bool.and_eq_true, decide_eq_true_eq, decide_eq_true_eq, Int64.le_iff_toInt_le,
      Int64.le_iff_toInt_le]
    rfl
  unfold fits
  rw [Bool.and_eq_true, hholds, hholds, hdifference, hsum]

/-- **A tally that counts a profile**: its numbers are the integers. -/
structure Counts (t : Tally) (p : Profile) : Prop where
  net : t.net.toInt = p.net
  required : t.required.toInt = p.required
  growth : t.growth.toInt = p.growth

theorem Counts.empty : Counts {} {} := ⟨rfl, rfl, rfl⟩

/-- The height after an instruction that is counted without wrapping around. -/
theorem toInt_add_change {net : Int32} (hfits : fits net e = true) :
    (net + change e).toInt = net.toInt + e.stackChange := by
  obtain ⟨-, hlow, hhigh⟩ := fits_iff.1 hfits
  rw [← toInt_change] at hlow hhigh ⊢
  exact toInt_add_of_mem net (change e) hlow hhigh

/-- One more instruction is counted if that does not wrap around. -/
theorem Counts.add (h : t.Counts p) (hfits : fits t.net e = true) : (t.add e).Counts (p.add e) := by
  obtain ⟨⟨hlow, hhigh⟩, -⟩ := fits_iff.1 hfits
  have hin := toInt_ofNat e.inputs_lt
  have hsum : (t.net + change e).toInt = p.net + e.stackChange := by
    rw [toInt_add_change hfits, h.net]
  have hdifference : (Int32.ofNat e.inputs - t.net).toInt = e.inputs - p.net := by
    rw [toInt_sub_of_mem, hin, h.net]
    · rw [hin]
      exact hlow
    · rw [hin]
      exact hhigh
  refine ⟨hsum, ?_, ?_⟩
  · show (larger t.required (Int32.ofNat e.inputs - t.net)).toInt = _
    rw [toInt_larger, hdifference, h.required]
    rfl
  · show (larger t.growth (t.net + change e)).toInt = _
    rw [toInt_larger, hsum, h.growth]
    rfl

/-- No count of the instructions wraps around, after a change of the height by `net`. -/
def FitsAlong : (net : Int32) → List Decoded → Prop
  | _, [] => True
  | net, d :: ds => fits net d.entry = true ∧ FitsAlong (net + change d.entry) ds

theorem Counts.foldl {ds : List Decoded} (h : t.Counts p) (hfits : FitsAlong t.net ds) :
    (ds.foldl (fun t d => t.add d.entry) t).Counts (ds.foldl (fun p d => p.add d.entry) p) := by
  induction ds generalizing t p with
  | nil => exact h
  | cons d ds ih => exact ih (h.add hfits.1) hfits.2

/-! ## The check on entry -/

/-- The tally asks for more words, or for more room, than any stack has. -/
def Deep (t : Tally) : Prop := stackLimit < t.required.toInt ∨ stackLimit < t.growth.toInt

theorem Deep.add (h : t.Deep) (e : Entry) : (t.add e).Deep := by
  have hrequired := toInt_larger t.required (Int32.ofNat e.inputs - t.net)
  have hgrowth := toInt_larger t.growth (t.net + change e)
  unfold Deep at h ⊢
  show _ < (larger t.required (Int32.ofNat e.inputs - t.net)).toInt ∨
    _ < (larger t.growth (t.net + change e)).toInt
  omega

/-- **A tally that is as good as a profile for the check on entry**: it counts the profile and is far
    from wrapping around, or both ask for more than any stack has. -/
inductive Stands (t : Tally) (p : Profile) : Prop where
  | counts (h : t.Counts p) (hlow : -0x1000 ≤ p.net) (hhigh : p.net ≤ 0x1000)
  | deep (ht : t.Deep) (hp : p.Deep)

/-- A count that gets far from zero has asked for too much before it can wrap around: a height that
    has risen is growth, and one that has fallen was required. -/
theorem Stands.add (h : t.Stands p) (e : Entry) : (t.add e).Stands (p.add e) := by
  cases h with
  | deep ht hp => exact .deep (ht.add e) (hp.add e)
  | counts h hlow hhigh =>
      have hin := e.inputs_lt
      have hchange := stackChange_mem e
      have hfits : fits t.net e = true := by
        rw [fits_iff, h.net]
        omega
      have hadd := h.add hfits
      have hnet : (p.add e).net = p.net + e.stackChange := rfl
      have hrequired : (p.add e).required = max p.required (e.inputs - p.net) := rfl
      have hgrowth : (p.add e).growth = max p.growth (p.net + e.stackChange) := rfl
      have hlimit : stackLimit = 1024 := rfl
      by_cases hfar : -0x1000 ≤ (p.add e).net ∧ (p.add e).net ≤ 0x1000
      · exact .counts hadd hfar.1 hfar.2
      · have hdeep : (p.add e).Deep := by
          unfold Profile.Deep
          unfold Entry.stackChange at *
          omega
        refine .deep ?_ hdeep
        unfold Deep
        rw [hadd.required, hadd.growth]
        exact hdeep

theorem stands_ofSegment (ds : List Decoded) : (ofSegment ds).Stands (.ofSegment ds) := by
  have hfold (t : Tally) (p : Profile) (h : t.Stands p) :
      (ds.foldl (fun t d => t.add d.entry) t).Stands (ds.foldl (fun p d => p.add d.entry) p) := by
    induction ds generalizing t p with
    | nil => exact h
    | cons d ds ih => exact ih _ _ (h.add d.entry)
  exact hfold {} {} (.counts .empty (by decide) (by decide))

/-- The demands of a block are not negative. -/
theorem nonneg_ofSegment (ds : List Decoded) :
    0 ≤ (ofSegment ds).required.toInt ∧ 0 ≤ (ofSegment ds).growth.toInt := by
  have hfold (t : Tally) (h : 0 ≤ t.required.toInt ∧ 0 ≤ t.growth.toInt) :
      0 ≤ (ds.foldl (fun t d => t.add d.entry) t).required.toInt ∧
        0 ≤ (ds.foldl (fun t d => t.add d.entry) t).growth.toInt := by
    induction ds generalizing t with
    | nil => exact h
    | cons d ds ih =>
        refine ih _ ⟨?_, ?_⟩
        · show 0 ≤ (larger t.required _).toInt
          rw [toInt_larger]
          exact Int.le_trans h.1 (Int.le_max_left ..)
        · show 0 ≤ (larger t.growth _).toInt
          rw [toInt_larger]
          exact Int.le_trans h.2 (Int.le_max_left ..)
  exact hfold {} ⟨by decide, by decide⟩

theorem toSize_of_nonneg {n : Int32} (h : 0 ≤ n.toInt) : (toSize n : Int) = n.toInt := by
  have hbits := BitVec.toInt_eq_toNat_cond n.toInt64.toBitVec
  have hlt := n.toInt64.toBitVec.isLt
  rw [show n.toInt64.toBitVec.toInt = n.toInt64.toInt from rfl, Int32.toInt_toInt64] at hbits
  show (n.toInt64.toBitVec.toNat : Int) = n.toInt
  split at hbits
  · exact hbits.symm
  · omega

end Tally

/-- The check on entry to a block. -/
def BlockCost.Admits (c : BlockCost) (h : Nat) : Prop := c.required ≤ h ∧ h + c.growth ≤ stackLimit

/-- **The check on entry is that of the profile**, also if the tally has wrapped around. -/
theorem Tally.admits_iff_profile (ds : List Decoded) {h : Nat} (hh : h ≤ stackLimit) :
    (Tally.ofSegment ds).cost.Admits h ↔
      (Profile.ofSegment ds).required ≤ h ∧ h + (Profile.ofSegment ds).growth ≤ stackLimit := by
  have hnonneg := nonneg_ofSegment ds
  have hrequired := toSize_of_nonneg hnonneg.1
  have hgrowth := toSize_of_nonneg hnonneg.2
  unfold BlockCost.Admits cost
  dsimp only
  cases stands_ofSegment ds with
  | counts hcounts =>
      rw [hcounts.required] at hrequired
      rw [hcounts.growth] at hgrowth
      omega
  | deep ht hp =>
      unfold Deep at ht
      unfold Profile.Deep at hp
      omega

/-- **The check on entry is the check of every instruction in turn.** -/
theorem Tally.admits_iff (ds : List Decoded) {h : Nat} (hh : h ≤ stackLimit) :
    (Tally.ofSegment ds).cost.Admits h ↔ Fits h ds := by
  rw [admits_iff_profile ds hh, Profile.ofSegment_iff ds hh]

/-! ## Segments -/

theorem flatten_segments (ds : List Decoded) : (segments ds).flatten = ds :=
  List.flatten_splitBy ..

/-- No block is empty. -/
theorem ne_nil_of_mem_segments {ds seg : List Decoded} (h : seg ∈ segments ds) : seg ≠ [] :=
  List.ne_nil_of_mem_splitBy h

/-- Inside a block nothing ends it, and no jump destination follows anything. -/
theorem isChain_of_mem_segments {ds seg : List Decoded} (h : seg ∈ segments ds) :
    seg.IsChain fun a b => sameBlock a b = true :=
  List.isChain_of_mem_splitBy h

/-- Past its first instruction a block has no jump destination. -/
theorem not_isJumpDest_of_chain {d : Decoded} {ds : List Decoded}
    (h : (d :: ds).IsChain fun a b => sameBlock a b = true) : ∀ d' ∈ ds, d'.isJumpDest = false := by
  induction ds generalizing d with
  | nil =>
      intro d' hd'
      cases hd'
  | cons e ds ih =>
      obtain ⟨hsame, hchain⟩ := List.isChain_cons_cons.1 h
      intro d' hd'
      obtain rfl | hd' := List.mem_cons.1 hd'
      · unfold sameBlock at hsame
        simpa using (Bool.and_eq_true_iff.1 hsame).2
      · exact ih hchain d' hd'

/-- An instruction that ends its block is the last one. -/
theorem eq_nil_of_endsBlock {d : Decoded} {ds : List Decoded}
    (h : (d :: ds).IsChain fun a b => sameBlock a b = true) (hd : d.entry.endsBlock = true) :
    ds = [] := by
  cases ds with
  | nil => rfl
  | cons e ds =>
      obtain ⟨hsame, -⟩ := List.isChain_cons_cons.1 h
      unfold sameBlock at hsame
      rw [hd] at hsame
      cases hsame

/-- A jump destination is the first instruction of a block. -/
theorem exists_segment_of_isJumpDest {ds : List Decoded} {d : Decoded} (hd : d ∈ ds)
    (hdest : d.isJumpDest = true) : ∃ tail, (d :: tail) ∈ segments ds := by
  rw [← flatten_segments ds] at hd
  obtain ⟨seg, hseg, hmem⟩ := List.mem_flatten.1 hd
  cases seg with
  | nil => exact absurd rfl (ne_nil_of_mem_segments hseg)
  | cons e tail =>
      obtain rfl | htail := List.mem_cons.1 hmem
      · exact ⟨tail, hseg⟩
      · have hno := not_isJumpDest_of_chain (isChain_of_mem_segments hseg) d htail
        rw [hdest] at hno
        cases hno

end MeteredEvm
