import Mathlib.Algebra.BigOperators.Group.List.Basic
import MeteredEvm.Proofs.Segments
import MeteredEvm.Proofs.StackCounts

/-!
# `MeteredEvm.Proofs.BlockSummaries` — what a block says about its instructions

A block carries four numbers and hands some of its instructions a fifth. Each of them is what one
finds by walking the instructions of the block one by one: the gas and the change of the height are
sums, the two bounds on the height hold exactly if every instruction on the way finds the height that
it needs, and an instruction that looks at the gas is given the price of those that follow it.

The gas, the check on entry and the corrections are right for every code (`Analysis.Metered`). The
numbers about the stack are 32 bits wide. One by one they are right wherever `analyze?` gives an
analysis (`Analysis.Exact`), which is so for every code of less than `countableSize` bytes, and not for
every code: a few bytes more than that, all of them `LOG4`, make the change of the height wrap around.

## Contents
* `Block.body`, `staticGas`, `netChange` — the instructions of a block, and their sums.
* `Passes` — a check of the height before every instruction.
* `Profile.required_foldl`, `Profile.growth_foldl`, `Profile.net_foldl` — the running counts.
* `Block.MadeFrom.body_eq` — the body of a block is its segment.
* `Block.Metered`, `Block.Exact`, `block_summaries_exact`.
* `log4s`, `log4s_change_wraps` — a code that is too long.
-/

namespace MeteredEvm

open Analysis

variable {is : InstructionSet} {code : ByteArray} {target : Word → Option Nat} {b : Block}
  {before after : List (List Decoded)} {seg : List Decoded}

/-! ## The instructions of a block -/

/-- The instructions of a block: those of the stream that stand for one of its bytes. -/
def Block.body (a : Analysis) (b : Block) : List Instruction :=
  a.real.filter fun ins => b.start ≤ ins.pc && ins.pc < b.stop

/-- What the fork makes of instructions. -/
def entriesOf (is : InstructionSet) (list : List Instruction) : List Entry :=
  list.map fun ins => is.entry ins.opcode

/-- Sum of the static prices of instructions. -/
def staticGas (is : InstructionSet) (list : List Instruction) : Nat :=
  ((entriesOf is list).map (·.baseGas)).sum

/-- Sum of the changes that instructions make to the height of the stack. -/
def netChange (is : InstructionSet) (list : List Instruction) : Int :=
  ((entriesOf is list).map (·.stackChange)).sum

/-- Whether an instruction looks at the gas that is left (`Op.observesGas`). -/
def Instruction.ObservesGas (ins : Instruction) : Prop :=
  ins.op = some .gas ∨ ins.op = some .sstore ∨ (∃ kind, ins.op = some (.call kind)) ∨
    ∃ salted, ins.op = some (.create salted)

/-! ## Walking over heights -/

/-- **A check before every instruction**, walking from the height `h` on. Heights are integers: the
    walk goes on whether or not a check has failed. -/
def Passes (check : Entry → Int → Prop) : (h : Int) → List Entry → Prop
  | _, [] => True
  | h, e :: es => check e h ∧ Passes check (h + e.stackChange) es

namespace Profile

/-- The change of the height is the sum of the changes. -/
theorem net_foldl (ds : List Decoded) (p : Profile) :
    (ds.foldl (fun p d => p.add d.entry) p).net = p.net + (ds.map (·.entry.stackChange)).sum := by
  induction ds generalizing p with
  | nil => simp
  | cons d ds ih =>
      rw [List.foldl_cons, ih, List.map_cons, List.sum_cons, ← Int.add_assoc]
      rfl

/-- **The least height on entry.** It is enough exactly if every instruction finds its inputs. -/
theorem required_foldl (ds : List Decoded) (p : Profile) (h : Int) :
    (ds.foldl (fun p d => p.add d.entry) p).required ≤ h ↔
      p.required ≤ h ∧ Passes (fun e k => e.minStack ≤ k) (h + p.net) (ds.map (·.entry)) := by
  induction ds generalizing p with
  | nil => simp [Passes]
  | cons d ds ih =>
      have hrequired : (p.add d.entry).required = max p.required (d.entry.inputs - p.net) := rfl
      have hnet : h + (p.add d.entry).net = h + p.net + d.entry.stackChange :=
        (Int.add_assoc ..).symm
      rw [List.foldl_cons, ih, hnet, hrequired, List.map_cons, Passes, max_le_iff, and_assoc]
      refine and_congr_right fun _ => and_congr_left fun _ => ?_
      unfold Entry.minStack
      omega

/-- **The largest rise.** There is room for it exactly if no instruction finds the stack too high for
    what it adds. -/
theorem growth_foldl (ds : List Decoded) (p : Profile) (h : Int) (hnet : p.net ≤ p.growth)
    (hds : ∀ d ∈ ds, d.entry.outputs ≤ d.entry.inputs + 1) :
    h + (ds.foldl (fun p d => p.add d.entry) p).growth ≤ stackLimit ↔
      h + p.growth ≤ stackLimit ∧
        Passes (fun e k => k ≤ e.maxStack) (h + p.net) (ds.map (·.entry)) := by
  induction ds generalizing p with
  | nil => simp [Passes]
  | cons d ds ih =>
      have hgrowth :
          (p.add d.entry).growth = max p.growth (p.net + (d.entry.outputs - d.entry.inputs)) := rfl
      have hafter : (p.add d.entry).net = p.net + (d.entry.outputs - d.entry.inputs) := rfl
      have hheight : h + (p.add d.entry).net = h + p.net + d.entry.stackChange :=
        (Int.add_assoc ..).symm
      have hlimit : 0 < stackLimit := by decide
      have hd := hds d List.mem_cons_self
      have hlater : ∀ d ∈ ds, d.entry.outputs ≤ d.entry.inputs + 1 := fun d' hd' =>
        hds d' (List.mem_cons_of_mem _ hd')
      rw [List.foldl_cons, ih _ (by omega) hlater, hheight, List.map_cons, Passes, ← and_assoc]
      refine and_congr_left fun _ => ?_
      unfold Entry.maxStack
      omega

/-- The least height that a block asks for. -/
theorem required_ofSegment (ds : List Decoded) (h : Nat) :
    (ofSegment ds).required ≤ h ↔ Passes (fun e k => e.minStack ≤ k) h (ds.map (·.entry)) := by
  have hfold := required_foldl ds {} h
  have hempty : ({} : Profile).required ≤ h := Int.natCast_nonneg h
  rw [and_iff_right hempty, show (h : Int) + ({} : Profile).net = h from Int.add_zero _] at hfold
  exact hfold

/-- The room that a block asks for. -/
theorem growth_ofSegment {ds : List Decoded} {h : Nat} (hh : h ≤ stackLimit)
    (hds : ∀ d ∈ ds, d.entry.outputs ≤ d.entry.inputs + 1) :
    h + (ofSegment ds).growth ≤ stackLimit ↔
      Passes (fun e k => k ≤ e.maxStack) h (ds.map (·.entry)) := by
  have hfold := growth_foldl ds {} h (Int.le_refl 0) hds
  have hempty : (h : Int) + ({} : Profile).growth ≤ stackLimit := by
    show (h : Int) + 0 ≤ stackLimit
    omega
  rw [and_iff_right hempty, show (h : Int) + ({} : Profile).net = h from Int.add_zero _] at hfold
  exact hfold

end Profile

/-- An instruction, at a height `k` above that on entry, whose counts have 32 bits. -/
def Entry.Countable (e : Entry) (k : Int) : Prop :=
  (-0x80000000 ≤ e.inputs - k ∧ e.inputs - k ≤ 0x7fffffff) ∧
    -0x80000000 ≤ k + e.stackChange ∧ k + e.stackChange ≤ 0x7fffffff

namespace Tally

theorem fitsAlong_iff (ds : List Decoded) (net : Int32) :
    FitsAlong net ds ↔ Passes Entry.Countable net.toInt (ds.map (·.entry)) := by
  induction ds generalizing net with
  | nil => exact Iff.rfl
  | cons d ds ih =>
      rw [List.map_cons, Passes, FitsAlong, ih]
      constructor
      · rintro ⟨hfits, hlater⟩
        rw [toInt_add_change hfits] at hlater
        exact ⟨fits_iff.1 hfits, hlater⟩
      · rintro ⟨hcountable, hlater⟩
        have hfits := fits_iff.2 hcountable
        rw [toInt_add_change hfits]
        exact ⟨hfits, hlater⟩

/-- The change of the height is the sum of the changes, modulo `2 ^ 32`. -/
theorem net_foldl (ds : List Decoded) (t : Tally) :
    (ds.foldl (fun t d => t.add d.entry) t).net.toInt =
      (t.net.toInt + (ds.map (·.entry.stackChange)).sum).bmod 0x100000000 := by
  induction ds generalizing t with
  | nil =>
      have hlow := t.net.le_toInt
      have hhigh := t.net.toInt_lt
      rw [List.foldl_nil, List.map_nil, List.sum_nil, Int.add_zero]
      exact (Int.bmod_eq_of_le (by omega) (by omega)).symm
  | cons d ds ih =>
      have hadd : (t.add d.entry).net.toInt =
          (t.net.toInt + d.entry.stackChange).bmod 0x100000000 := by
        rw [← toInt_change]
        exact Int32.toInt_add ..
      rw [List.foldl_cons, ih, hadd, Int.bmod_add_bmod, List.map_cons, List.sum_cons, Int.add_assoc]

end Tally

/-! ## The body of a block -/

theorem map_opcode_written (target : Word → Option Nat) (cost : BlockCost) (through : Nat)
    (pushed : Option Word) (ds : List Decoded) :
    (written target cost through pushed ds).map (·.opcode) = ds.map (·.entry.opcode) := by
  induction ds generalizing through pushed with
  | nil => rfl
  | cons d ds ih => simp [written_cons, ih]

theorem exists_of_mem_streamOf {blocks : List (List Decoded)} {ins : Instruction}
    (hchain : ∀ seg ∈ blocks, seg.IsChain fun a b => sameBlock a b = true)
    (h : ins ∈ streamOf target blocks) : ∃ d ∈ blocks.flatten, ins.pc = d.pc := by
  obtain ⟨seg, hseg, hmem⟩ := List.mem_flatMap.1 h
  obtain ⟨k, hk⟩ := List.mem_iff_getElem?.1 hmem
  obtain ⟨d, hd, hpc⟩ := (segmentView (hchain seg hseg) hk).exists_pc
  exact ⟨d, List.mem_flatten.2 ⟨seg, hseg, hd⟩, hpc⟩

theorem standsIn_of_mem_decodedFrom {pc : Nat} {d : Decoded} (hd : d ∈ decodedFrom is code pc)
    {ins : Instruction} (hpc : ins.pc = d.pc) (hopcode : ins.opcode = d.entry.opcode) :
    ins.standsIn code = true := by
  obtain ⟨hlt, hread⟩ := readAt_of_mem_decodedFrom hd
  have hbyte : d.entry.opcode = code[d.pc] :=
    (congrArg (·.entry.opcode) hread).trans (is.opcode_entry _)
  unfold Instruction.standsIn
  rw [hpc, hopcode, hbyte, getElem?_pos code d.pc hlt, beq_self_eq_true]

namespace Block.MadeFrom

/-- The price of a whole segment is paid by its block. -/
theorem cost_gas (seg : List Decoded) : (Tally.ofSegment seg).cost.gas = gasOf [] + gasOf seg := by
  rw [gasOf_nil, Nat.zero_add]
  exact Tally.gas_ofSegment seg

/-- All that is written from a segment stands for a byte of its block. -/
theorem of_mem_written (h : b.MadeFrom is code before seg after) {ins : Instruction}
    (hins : ins ∈ written target (Tally.ofSegment seg).cost 0 none seg) :
    ins.standsIn code = true ∧ b.start ≤ ins.pc ∧ ins.pc < b.stop := by
  obtain ⟨k, hk⟩ := List.mem_iff_getElem?.1 hins
  obtain ⟨done, d, later, hseg, -, hpc, hopcode, -⟩ := getElem?_written (cost_gas seg) hk
  have hmem : d ∈ seg := by simp [hseg]
  rw [hpc]
  exact ⟨standsIn_of_mem_decodedFrom (h.mem_decodedFrom hmem) hpc hopcode, h.within hmem⟩

/-- The instructions that stand for a byte, told apart by the block. -/
theorem real_eq (h : b.MadeFrom is code before seg after) :
    (analyze is code).real =
      (streamOf (analyze is code).jumpTarget before).filter (·.standsIn code) ++
        (written (analyze is code).jumpTarget (Tally.ofSegment seg).cost 0 none seg ++
          (streamOf (analyze is code).jumpTarget after).filter (·.standsIn code)) := by
  have hown : (ownEntry seg).filter (·.standsIn code) = [] := by
    obtain ⟨first, rest, rfl, -⟩ := h.exists_cons
    exact filter_ownEntry (decodedFrom_append h.decoded)
  have hwritten : (written (analyze is code).jumpTarget (Tally.ofSegment seg).cost 0 none seg).filter
      (·.standsIn code) = written (analyze is code).jumpTarget (Tally.ofSegment seg).cost 0 none seg :=
    List.filter_eq_self.2 fun ins hins => (h.of_mem_written hins).1
  show (analyze is code).instructions.toList.filter (·.standsIn code) = _
  rw [toList_instructions, h.segments]
  unfold streamOf
  rw [List.flatMap_append, List.flatMap_cons, List.filter_append, List.filter_append]
  unfold streamOfBlock
  rw [List.filter_append, hown, hwritten, List.nil_append]

/-- **The body of a block is written from its segment.** -/
theorem body_eq (h : b.MadeFrom is code before seg after) :
    b.body (analyze is code) =
      written (analyze is code).jumpTarget (Tally.ofSegment seg).cost 0 none seg := by
  have hchain : ∀ other ∈ before ++ seg :: after, other.IsChain fun a b => sameBlock a b = true := by
    rw [← h.segments]
    exact fun _ => isChain_of_mem_segments
  unfold Block.body
  rw [h.real_eq, List.filter_append, List.filter_append]
  -- what the blocks on either side write stands outside
  rw [List.filter_eq_nil_iff.2, List.filter_eq_self.2, List.filter_eq_nil_iff.2, List.nil_append,
    List.append_nil]
  · intro ins hins
    obtain ⟨d, hd, hpc⟩ :=
      exists_of_mem_streamOf (fun seg hseg => hchain seg (by simp [hseg])) (List.mem_filter.1 hins).1
    have hle := h.le_after hd
    simp [hpc]
    omega
  · intro ins hins
    simpa using (h.of_mem_written hins).2
  · intro ins hins
    obtain ⟨d, hd, hpc⟩ :=
      exists_of_mem_streamOf (fun seg hseg => hchain seg (by simp [hseg])) (List.mem_filter.1 hins).1
    have hlt := h.before_lt hd
    simp [hpc]
    omega

/-- What the fork makes of the body of a block. -/
theorem entriesOf_body (h : b.MadeFrom is code before seg after) :
    entriesOf is (b.body (analyze is code)) = seg.map (·.entry) := by
  rw [h.body_eq]
  unfold entriesOf
  have hbytes := congrArg (List.map is.entry)
    (map_opcode_written (analyze is code).jumpTarget (Tally.ofSegment seg).cost 0 none seg)
  rw [List.map_map, List.map_map] at hbytes
  refine hbytes.trans (List.map_congr_left fun d hd => ?_)
  exact (h.lawful hd).entry.symm

/-- The static gas of a part of the body is that of the instructions it is written from. -/
theorem of_body_split (h : b.MadeFrom is code before seg after) {front back : List Instruction}
    {ins : Instruction} (hsplit : b.body (analyze is code) = front ++ ins :: back) :
    ∃ done d later, seg = done ++ d :: later ∧ ins.op = d.entry.op ∧
      ins.arg = (if d.isJumpDest then .block (Tally.ofSegment seg).cost
        else innerArg (analyze is code).jumpTarget (pushedBy done) d later) ∧
      staticGas is back = gasOf later := by
  have hget : (b.body (analyze is code))[front.length]? = some ins := by simp [hsplit]
  rw [h.body_eq] at hget
  obtain ⟨done, d, later, hseg, hlength, -, -, hop, harg⟩ := getElem?_written (cost_gas seg) hget
  have hentries := h.entriesOf_body
  rw [hsplit, hseg] at hentries
  simp only [entriesOf, List.map_append, List.map_cons] at hentries
  have hback := (List.append_inj hentries (by simpa using hlength)).2
  refine ⟨done, d, later, hseg, hop, harg, ?_⟩
  unfold staticGas entriesOf gasOf
  rw [(List.cons.inj hback).2, List.map_map]
  rfl

end Block.MadeFrom

/-! ## Corrections -/

/-- Which instructions look at the gas. -/
theorem Decoded.Lawful.observesGas_iff {d : Decoded} (h : d.Lawful is) {ins : Instruction}
    (hop : ins.op = d.entry.op) : d.entry.observesGas = true ↔ ins.ObservesGas := by
  unfold Instruction.ObservesGas
  rw [hop]
  cases hentry : d.entry.op with
  | none =>
      rw [h.entry_of_none hentry]
      simp [Entry.undefined]
  | some op =>
      rw [h.entry_of_op op hentry]
      cases op <;> simp [Entry.ofOp, Op.observesGas]

theorem innerArg_eq_correction_iff {pushed : Option Word} {d : Decoded} {later : List Decoded}
    {gas : Nat} :
    innerArg target pushed d later = .correction gas ↔
      d.entry.observesGas = true ∧ gas = gasOf later := by
  unfold innerArg
  constructor
  · intro harg
    split at harg
    · rename_i hobserves
      cases harg
      exact ⟨hobserves, rfl⟩
    · repeat' split at harg
      all_goals cases harg
  · rintro ⟨hobserves, rfl⟩
    rw [if_pos hobserves]

theorem Decoded.Lawful.isJumpDest_eq_false {d : Decoded} (h : d.Lawful is)
    (hobserves : d.entry.observesGas = true) : d.isJumpDest = false := by
  cases hdest : d.isJumpDest with
  | false => rfl
  | true =>
      rw [h.entry_of_op _ (h.isJumpDest_iff.1 hdest)] at hobserves
      cases hobserves

/-! ## Summaries -/

/-- **A block that charges, checks and corrects what a walk over its instructions finds**, which are its
    `body`. -/
structure Block.Metered (is : InstructionSet) (a : Analysis) (b : Block) : Prop where
  /-- The gas is the sum of the static prices. -/
  gas : b.cost.gas = staticGas is (b.body a)
  /-- A height is admitted on entry exactly if every instruction finds its inputs and room. -/
  admits : ∀ h ≤ stackLimit, b.cost.Admits h ↔
    Passes (fun e k => e.minStack ≤ k) h (entriesOf is (b.body a)) ∧
      Passes (fun e k => k ≤ e.maxStack) h (entriesOf is (b.body a))
  /-- An instruction that looks at the gas is given the price of those after it. -/
  correction : ∀ front ins back, b.body a = front ++ ins :: back → ins.ObservesGas →
    ins.arg = .correction (staticGas is back)

/-- **A block whose numbers are what a walk over its instructions finds**, one by one. -/
structure Block.Exact (is : InstructionSet) (a : Analysis) (b : Block) : Prop extends
    Block.Metered is a b where
  /-- The change of the height is the sum of the changes. -/
  net : b.tally.net.toInt = netChange is (b.body a)
  /-- A height on entry is large enough exactly if every instruction finds its inputs. -/
  required : ∀ h ≤ stackLimit,
    b.cost.required ≤ h ↔ Passes (fun e k => e.minStack ≤ k) h (entriesOf is (b.body a))
  /-- A height on entry leaves enough room exactly if every instruction finds room. -/
  growth : ∀ h ≤ stackLimit, h + b.cost.growth ≤ stackLimit ↔
    Passes (fun e k => k ≤ e.maxStack) h (entriesOf is (b.body a))

/-- **An analysis in which the instructions that look at the gas, and no others, are given a
    correction**, by blocks that charge and check what a walk finds. -/
structure Analysis.Metered (is : InstructionSet) (a : Analysis) : Prop where
  /-- Every block charges, checks and corrects what a walk finds. -/
  blocks : ∀ b ∈ a.blocks.toList, b.Metered is a
  /-- What looks at the gas is in a block. -/
  observers : ∀ ins ∈ a.instructions.toList, ins.ObservesGas →
    ∃ b ∈ a.blocks.toList, ins ∈ b.body a
  /-- What is given a correction looks at the gas. -/
  corrected : ∀ ins ∈ a.instructions.toList, ∀ gas, ins.arg = .correction gas → ins.ObservesGas

/-- **An analysis whose blocks are exact**, and in which the instructions that look at the gas, and no
    others, are given a correction. -/
structure Analysis.Exact (is : InstructionSet) (a : Analysis) : Prop extends
    Analysis.Metered is a where
  /-- Every block is exact. -/
  exact : ∀ b ∈ a.blocks.toList, b.Exact is a

/-- The block of a segment charges, checks and corrects what a walk finds. -/
theorem Block.MadeFrom.metered (h : b.MadeFrom is code before seg after) :
    b.Metered is (analyze is code) where
  gas := by
    unfold staticGas Block.cost
    rw [h.entriesOf_body, h.tally_eq, List.map_map]
    exact Tally.gas_ofSegment seg
  admits k hk := by
    unfold Block.cost
    rw [h.entriesOf_body, h.tally_eq, Tally.admits_iff_profile seg hk, Profile.required_ofSegment,
      Profile.growth_ofSegment hk fun d hd => (h.lawful hd).stack_le.2.2]
  correction front ins back hsplit hobserves := by
    obtain ⟨done, d, later, rfl, hop, harg, hgas⟩ := h.of_body_split hsplit
    have hlawful : d.Lawful is := h.lawful (by simp)
    have hobserves := (hlawful.observesGas_iff hop).2 hobserves
    rw [harg, hlawful.isJumpDest_eq_false hobserves, hgas]
    exact innerArg_eq_correction_iff.2 ⟨hobserves, rfl⟩

/-- The block of a segment that is counted without wrapping around is exact. -/
theorem Block.MadeFrom.exact (h : b.MadeFrom is code before seg after)
    (hfits : Tally.FitsAlong 0 seg) : b.Exact is (analyze is code) := by
  have hcounts : (Tally.ofSegment seg).Counts (.ofSegment seg) := Tally.Counts.empty.foldl hfits
  have hnonneg := Tally.nonneg_ofSegment seg
  have hrequired := Tally.toSize_of_nonneg hnonneg.1
  have hgrowth := Tally.toSize_of_nonneg hnonneg.2
  rw [hcounts.required] at hrequired
  rw [hcounts.growth] at hgrowth
  refine ⟨h.metered, ?_, fun k hk => ?_, fun k hk => ?_⟩
  · unfold netChange
    rw [h.entriesOf_body, h.tally_eq, List.map_map, hcounts.net]
    exact (Profile.net_foldl seg {}).trans (Int.zero_add _)
  · rw [h.entriesOf_body, Block.cost, h.tally_eq, ← Profile.required_ofSegment, ← hrequired]
    exact Int.ofNat_le.symm
  · rw [h.entriesOf_body, Block.cost, h.tally_eq,
      ← Profile.growth_ofSegment hk fun d hd => (h.lawful hd).stack_le.2.2, ← hgrowth]
    exact Int.ofNat_le.symm

/-- An instruction of the stream that looks at the gas is in the body of its block. -/
theorem Block.MadeFrom.mem_body (h : b.MadeFrom is code before seg after) {k : Nat}
    {ins : Instruction} (hins : ins ∈ (analyze is code).instructions.toList)
    (hview : SegmentView (analyze is code).jumpTarget seg k ins) (hobserves : ins.ObservesGas) :
    ins ∈ b.body (analyze is code) := by
  cases hview with
  | own hdest => simp [Instruction.ObservesGas, Instruction.blockEntry] at hobserves
  | @dest d later hdest =>
      have hlawful : d.Lawful is := h.lawful List.mem_cons_self
      have hobserves := (hlawful.observesGas_iff rfl).2 hobserves
      rw [hlawful.isJumpDest_eq_false hobserves] at hdest
      cases hdest
  | @inner done later d hdest =>
      have hd : d ∈ done ++ d :: later := by simp
      have hstands : (innerInstruction (analyze is code).jumpTarget (pushedBy done) d later).standsIn
          code = true := standsIn_of_mem_decodedFrom (h.mem_decodedFrom hd) rfl rfl
      unfold Block.body Analysis.real
      rw [List.mem_filter, List.mem_filter]
      have hin := h.within hd
      exact ⟨⟨hins, hstands⟩,
        Bool.and_eq_true_iff.2 ⟨decide_eq_true hin.1, decide_eq_true hin.2⟩⟩

/-- Every analysis charges, checks and corrects what a walk finds. -/
theorem metered_analyze (is : InstructionSet) (code : ByteArray) :
    (analyze is code).Metered is where
  blocks b hb := by
    obtain ⟨before, seg, after, hmade⟩ := mem_blocks_iff.1 hb
    exact hmade.metered
  observers ins hins hobserves := by
    obtain ⟨c, hc⟩ := List.mem_iff_getElem?.1 hins
    rw [Array.getElem?_toList] at hc
    obtain ⟨b, before, seg, after, k, hmade, -, hview⟩ := exists_madeFrom hc
    exact ⟨b, hmade.mem, hmade.mem_body hins hview hobserves⟩
  corrected ins hins gas harg := by
    obtain ⟨c, hc⟩ := List.mem_iff_getElem?.1 hins
    rw [Array.getElem?_toList] at hc
    obtain ⟨b, before, seg, after, k, hmade, -, hview⟩ := exists_madeFrom hc
    cases hview with
    | own hdest => cases harg
    | dest hdest => cases harg
    | @inner done later d hdest =>
        have hlawful : d.Lawful _ := hmade.lawful (by simp)
        exact (hlawful.observesGas_iff rfl).1 (innerArg_eq_correction_iff.1 harg).1

/-- Every segment makes a block. -/
theorem exists_madeFrom_of_mem_segments (h : seg ∈ segments (decodedFrom is code 0)) :
    ∃ b before after, Block.MadeFrom is code b before seg after := by
  obtain ⟨before, after, hsplit⟩ := List.append_of_mem h
  exact ⟨_, before, after, hsplit, rfl⟩

theorem analyze?_eq_some_iff {a : Analysis} :
    analyze? is code = some a ↔ countsFitFrom is.entries code 0 0 = true ∧ analyze is code = a := by
  unfold analyze?
  split <;> simp [*]

/-- **An analysis that does not fail is exact.** -/
theorem exact_of_analyze? {a : Analysis} (h : analyze? is code = some a) :
    analyze is code = a ∧ a.Exact is := by
  obtain ⟨hfit, rfl⟩ := analyze?_eq_some_iff.1 h
  rw [countsFitFrom_iff] at hfit
  refine ⟨rfl, metered_analyze is code, fun b hb => ?_⟩
  obtain ⟨before, seg, after, hmade⟩ := mem_blocks_iff.1 hb
  exact hmade.exact (hfit seg hmade.mem_segments)

/-- The analysis does not fail exactly if no count of a block leaves 32 bits. -/
theorem isSome_analyze?_iff :
    (analyze? is code).isSome = true ↔ ∀ b ∈ (analyze is code).blocks.toList,
      Passes Entry.Countable 0 (entriesOf is (b.body (analyze is code))) := by
  have hsome : (analyze? is code).isSome = true ↔ countsFitFrom is.entries code 0 0 = true := by
    unfold analyze?
    split <;> simp [*]
  rw [hsome, countsFitFrom_iff]
  constructor
  · intro hfit b hb
    obtain ⟨before, seg, after, hmade⟩ := mem_blocks_iff.1 hb
    rw [hmade.entriesOf_body]
    exact (Tally.fitsAlong_iff seg 0).1 (hfit seg hmade.mem_segments)
  · intro hpass seg hseg
    obtain ⟨b, before, after, hmade⟩ := exists_madeFrom_of_mem_segments hseg
    have hb := hpass b hmade.mem
    rw [hmade.entriesOf_body] at hb
    exact (Tally.fitsAlong_iff seg 0).2 hb

/-- **Block summaries are exact.** On every fork and for every code, `analyze` is `Analysis.Metered`: the
    gas of a block is the sum of the static prices of its instructions; a stack of any height is
    admitted on entry exactly if it passes the check of every instruction in turn, from below and from
    above; and the instructions that look at the gas, and no others, carry a correction, which is the
    price of the instructions after them in their block. `analyze?` succeeds exactly if no count of a
    block leaves 32 bits (`Entry.Countable`), and in particular for every code of less than
    `countableSize` bytes. If it succeeds, the analysis is `Analysis.Exact`: the change of the height,
    the least height and the room that a block gives are, each for itself, what a walk over its
    instructions finds. -/
theorem block_summaries_exact (fork : Fork) (code : ByteArray) :
    (analyze (.ofFork fork) code).Metered (.ofFork fork) ∧
      ((analyze? (.ofFork fork) code).isSome = true ↔
        ∀ b ∈ (analyze (.ofFork fork) code).blocks.toList, Passes Entry.Countable 0
          (entriesOf (.ofFork fork) (b.body (analyze (.ofFork fork) code)))) ∧
      (code.size < countableSize → (analyze? (.ofFork fork) code).isSome = true) ∧
      ∀ a, analyze? (.ofFork fork) code = some a →
        analyze (.ofFork fork) code = a ∧ a.Exact (.ofFork fork) := by
  refine ⟨metered_analyze _ code, isSome_analyze?_iff, fun hsize => ?_, fun a => exact_of_analyze?⟩
  unfold analyze?
  rw [if_pos (countsFitFrom_of_size_lt _ hsize)]
  rfl

/-- The gas that is left, stored at key zero: what comes first still sees the price of the push. -/
example : (analyze (.ofFork .cancun) ⟨#[0x5a, 0x60, 0x00, 0x55]⟩).instructions.map (·.arg) =
    #[.block ⟨5, 0, 2⟩, .correction 3, .push 0, .correction 0] := by decide +kernel

theorem block_summaries_exact_gasStored :
    ∃ a, analyze? (.ofFork .cancun) ⟨#[0x5a, 0x60, 0x00, 0x55]⟩ = some a ∧
      a.Exact (.ofFork .cancun) := by
  obtain ⟨-, -, hshort, hexact⟩ := block_summaries_exact .cancun ⟨#[0x5a, 0x60, 0x00, 0x55]⟩
  obtain ⟨a, ha⟩ := Option.isSome_iff_exists.1 (hshort (by decide))
  exact ⟨a, ha, (hexact a ha).2⟩

/-! ## A code that is too long -/

/-- A code of `n` bytes, each of them a `LOG4`, which takes six words and gives none. -/
def log4s (n : Nat) : ByteArray := ⟨Array.replicate n 0xa4⟩

theorem decodedFrom_log4s (is : InstructionSet) (n pc : Nat) :
    decodedFrom is (log4s n) pc =
      (List.range' pc (n - pc)).map fun i => ⟨i, Entry.ofOp is.schedule (.log 4), none⟩ := by
  have hsize : (log4s n).size = n := Array.size_replicate
  induction hleft : n - pc generalizing pc with
  | zero => exact decodedFrom_of_le (by omega)
  | succ k ih =>
      have hbyte : (log4s n)[pc]? = some 0xa4 := by
        rw [getElem?_pos (log4s n) pc (by omega)]
        exact congrArg some (Array.getElem_replicate ..)
      rw [decodedFrom_cons 0xa4 (.log 4) hbyte (by decide) rfl rfl, ih (pc + 1) (by omega)]
      rfl

/-- The code is one block. -/
theorem segments_log4s (is : InstructionSet) {n : Nat} (hn : 0 < n) :
    segments (decodedFrom is (log4s n) 0) = [decodedFrom is (log4s n) 0] := by
  rw [decodedFrom_log4s]
  refine List.splitBy_of_isChain ?_ (List.Pairwise.isChain (List.pairwise_map.2 ?_))
  · intro hnil
    have hlength := congrArg List.length hnil
    simp at hlength
    omega
  · exact List.pairwise_of_forall fun _ _ => rfl

/-- The block of the code counts the change of the height modulo `2 ^ 32`. -/
theorem exists_block_log4s (is : InstructionSet) {n : Nat} (hn : 0 < n) :
    ∃ b ∈ (analyze is (log4s n)).blocks.toList,
      netChange is (b.body (analyze is (log4s n))) = n * -6 ∧
        b.tally.net.toInt = (n * -6 : Int).bmod 0x100000000 := by
  have hmem : decodedFrom is (log4s n) 0 ∈ segments (decodedFrom is (log4s n) 0) := by
    rw [segments_log4s is hn]
    exact List.mem_singleton_self _
  obtain ⟨b, before, after, hmade⟩ := exists_madeFrom_of_mem_segments hmem
  have hsum : ((decodedFrom is (log4s n) 0).map (·.entry.stackChange)).sum = n * -6 := by
    rw [decodedFrom_log4s, List.map_map]
    show ((List.range' 0 (n - 0)).map fun _ => (-6 : Int)).sum = n * -6
    rw [List.map_const', List.length_range', List.sum_replicate]
    simp
  refine ⟨b, hmade.mem, ?_, ?_⟩
  · unfold netChange
    rw [hmade.entriesOf_body, List.map_map]
    exact hsum
  · rw [hmade.tally_eq, Tally.ofSegment, Tally.net_foldl, hsum]
    show (0 + (n * -6 : Int)).bmod 0x100000000 = _
    rw [Int.zero_add]

/-- **The change of the height can wrap around**: taking all these words off the stack is counted as
    putting two thousand million on it, and an analysis that must not wrap around fails. -/
theorem log4s_change_wraps :
    analyze? (.ofFork .cancun) (log4s 357913942) = none ∧
      ∃ b ∈ (analyze (.ofFork .cancun) (log4s 357913942)).blocks.toList,
        b.tally.net.toInt = 2147483644 ∧
          netChange (.ofFork .cancun) (b.body (analyze (.ofFork .cancun) (log4s 357913942))) =
            -2147483652 := by
  obtain ⟨b, hb, hchange, hnet⟩ :=
    exists_block_log4s (.ofFork .cancun) (show 0 < 357913942 by decide)
  rw [show ((357913942 : Nat) * -6 : Int) = -2147483652 from rfl] at hchange hnet
  rw [show (-2147483652 : Int).bmod 0x100000000 = 2147483644 from rfl] at hnet
  refine ⟨?_, b, hb, hnet, hchange⟩
  cases hanalysis : analyze? (.ofFork .cancun) (log4s 357913942) with
  | none => rfl
  | some a =>
      obtain ⟨rfl, hexact⟩ := exact_of_analyze? hanalysis
      have hwrong := (hexact.exact b hb).net
      rw [hnet, hchange] at hwrong
      cases hwrong

end MeteredEvm
