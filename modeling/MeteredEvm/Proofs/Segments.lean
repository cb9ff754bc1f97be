import MeteredEvm.Proofs.FaithfulDecoding

/-!
# `MeteredEvm.Proofs.Segments` — a block, its instructions and its part of the stream

A block of an analysis is made from a segment of the decoded code (`Block.MadeFrom`). The segment tells
everything about the block: which bytes it covers, where its part of the stream starts, what stands
there, and where control goes next. So a statement about a block is a statement about a list of
instructions between two others.

## Contents
* `Block.MadeFrom`, `mem_blocks_iff` — blocks and segments.
* `Block.MadeFrom.before_lt`, `Block.MadeFrom.within`, `Block.MadeFrom.le_after` — bytes.
* `SegmentView`, `segmentView` — what stands where in the stream of a segment.
* `exists_madeFrom`, `exists_block_of_jumpTarget`, `blockAt_eq_some_iff` — the block of a place in the
  stream, of a jump and of a byte.
-/

namespace MeteredEvm

open Analysis

variable {is : InstructionSet} {code : ByteArray} {target : Word → Option Nat} {b : Block}
  {before after : List (List Decoded)} {seg : List Decoded}

/-! ## Blocks and segments -/

/-- The block of a segment between others, in a code of `size` bytes. -/
def blockBetween (target : Word → Option Nat) (size : Nat) (before : List (List Decoded))
    (seg : List Decoded) (after : List (List Decoded)) : Block where
  start := (startOf seg).getD 0
  stop := stopOf size seg
  tally := Tally.ofSegment seg
  entry := (streamOf target before).length
  successors := successorsOf target (after.head?.bind startOf) seg

/-- **The segment of a block**, with the segments before it and after it. -/
structure Block.MadeFrom (is : InstructionSet) (code : ByteArray) (b : Block)
    (before : List (List Decoded)) (seg : List Decoded) (after : List (List Decoded)) : Prop where
  segments : segments (decodedFrom is code 0) = before ++ seg :: after
  eq : b = blockBetween (analyze is code).jumpTarget code.size before seg after

theorem head?_layoutFrom (start : Nat) (blocks : List (List Decoded)) :
    ((layoutFrom start blocks).head?.bind fun p => startOf p.2) = blocks.head?.bind startOf := by
  cases blocks <;> rfl

/-- The blocks of some segments, the first of which stands at `start` in the stream. -/
theorem mem_blocksFrom_iff (target : Word → Option Nat) (size start : Nat)
    (blocks : List (List Decoded)) (b : Block) :
    b ∈ blocksFrom target size (layoutFrom start blocks) ↔
      ∃ before seg after, blocks = before ++ seg :: after ∧
        b = { blockBetween target size before seg after with
          entry := start + (streamOf target before).length } := by
  induction blocks generalizing start with
  | nil => simp [layoutFrom, blocksFrom]
  | cons first blocks ih =>
      rw [layoutFrom, blocksFrom, List.mem_cons, ih]
      constructor
      · rintro (rfl | ⟨before, seg, after, rfl, rfl⟩)
        · refine ⟨[], first, blocks, rfl, ?_⟩
          simp only [blockOf, blockBetween, head?_layoutFrom]
          rfl
        · refine ⟨first :: before, seg, after, rfl, ?_⟩
          rw [streamOf_cons, List.length_append, length_streamOfBlock, Nat.add_assoc]
          rfl
      · rintro ⟨before, seg, after, hblocks, rfl⟩
        cases before with
        | nil =>
            cases hblocks
            refine .inl ?_
            simp only [blockOf, blockBetween, head?_layoutFrom]
            rfl
        | cons first' before =>
            cases hblocks
            refine .inr ⟨before, seg, after, rfl, ?_⟩
            rw [streamOf_cons, List.length_append, length_streamOfBlock, Nat.add_assoc]
            rfl

/-- **The blocks of an analysis are the blocks of its segments.** -/
theorem mem_blocks_iff :
    b ∈ (analyze is code).blocks.toList ↔ ∃ before seg after, b.MadeFrom is code before seg after := by
  rw [toList_blocks, mem_blocksFrom_iff]
  simp only [Nat.zero_add]
  constructor
  · rintro ⟨before, seg, after, hsegments, rfl⟩
    exact ⟨before, seg, after, hsegments, rfl⟩
  · rintro ⟨before, seg, after, hsegments, rfl⟩
    exact ⟨before, seg, after, hsegments, rfl⟩

namespace Block.MadeFrom

variable {d : Decoded}

theorem decoded (h : b.MadeFrom is code before seg after) :
    decodedFrom is code 0 = before.flatten ++ (seg ++ after.flatten) := by
  rw [← flatten_segments (decodedFrom is code 0), h.segments, List.flatten_append, List.flatten_cons]

theorem tally_eq (h : b.MadeFrom is code before seg after) : b.tally = Tally.ofSegment seg := by
  rw [h.eq]
  rfl

theorem mem (h : b.MadeFrom is code before seg after) : b ∈ (analyze is code).blocks.toList :=
  mem_blocks_iff.2 ⟨before, seg, after, h⟩

theorem mem_segments (h : b.MadeFrom is code before seg after) :
    seg ∈ MeteredEvm.segments (decodedFrom is code 0) := by
  simp [h.segments]

theorem mem_decodedFrom (h : b.MadeFrom is code before seg after) (hd : d ∈ seg) :
    d ∈ decodedFrom is code 0 := by
  simp [h.decoded, hd]

theorem chain (h : b.MadeFrom is code before seg after) :
    seg.IsChain fun a b => sameBlock a b = true :=
  isChain_of_mem_segments h.mem_segments

theorem lawful (h : b.MadeFrom is code before seg after) (hd : d ∈ seg) : d.Lawful is :=
  lawful_of_mem_decodedFrom (h.mem_decodedFrom hd)

/-- A segment starts with the first instruction of its block. -/
theorem exists_cons (h : b.MadeFrom is code before seg after) :
    ∃ first rest, seg = first :: rest ∧ first.pc = b.start := by
  cases seg with
  | nil => exact absurd rfl (ne_nil_of_mem_segments h.mem_segments)
  | cons first rest =>
      refine ⟨first, rest, rfl, ?_⟩
      rw [h.eq]
      rfl

theorem exists_concat (h : b.MadeFrom is code before seg after) : ∃ done d, seg = done ++ [d] :=
  (List.eq_nil_or_concat' seg).resolve_left (ne_nil_of_mem_segments h.mem_segments)

theorem ne_nil_of_mem_after {other : List Decoded} (h : b.MadeFrom is code before seg after)
    (hother : other ∈ after) : other ≠ [] := by
  have hmem : other ∈ MeteredEvm.segments (decodedFrom is code 0) := by simp [h.segments, hother]
  exact ne_nil_of_mem_segments hmem

/-! ## Bytes -/

/-- What is decoded before a block stands before it. -/
theorem before_lt (h : b.MadeFrom is code before seg after) (hd : d ∈ before.flatten) :
    d.pc < b.start := by
  obtain ⟨first, rest, rfl, hstart⟩ := h.exists_cons
  have hpairwise := pairwise_pc_decodedFrom is code 0
  rw [h.decoded, List.pairwise_append] at hpairwise
  rw [← hstart]
  exact hpairwise.2.2 d hd first (by simp)

/-- Behind the last instruction of a block the code goes on with what is after it. -/
theorem decodedFrom_next {done : List Decoded} (h : b.MadeFrom is code before (done ++ [d]) after) :
    decodedFrom is code d.next = after.flatten := by
  have hdecoded := h.decoded
  rw [List.append_assoc, ← List.append_assoc] at hdecoded
  exact (decodedFrom_eq_cons (decodedFrom_append hdecoded)).2.2.symm

/-- A block stops where the instruction after its last one would start, if the code reaches so far. -/
theorem stop_eq {done : List Decoded} (h : b.MadeFrom is code before (done ++ [d]) after) :
    b.stop = min d.next code.size := by
  rw [h.eq]
  exact stopOf_concat (h.mem_decodedFrom (by simp))

/-- The instructions of a block stand between its ends. -/
theorem within (h : b.MadeFrom is code before seg after) (hd : d ∈ seg) :
    b.start ≤ d.pc ∧ d.pc < b.stop := by
  have hpairwise := pairwise_pc_decodedFrom is code 0
  rw [h.decoded, List.pairwise_append, List.pairwise_append] at hpairwise
  obtain ⟨-, ⟨hseg, -, -⟩, -⟩ := hpairwise
  constructor
  · obtain ⟨first, rest, rfl, hstart⟩ := h.exists_cons
    rw [← hstart]
    obtain rfl | hd := List.mem_cons.1 hd
    · exact Nat.le_refl _
    · exact Nat.le_of_lt (List.rel_of_pairwise_cons hseg hd)
  · obtain ⟨done, last, rfl⟩ := h.exists_concat
    have hlast : d.pc ≤ last.pc := by
      rcases List.mem_append.1 hd with hdone | hlast
      · exact Nat.le_of_lt ((List.pairwise_append.1 hseg).2.2 d hdone last (by simp))
      · rw [List.mem_singleton.1 hlast]
    have hlt := (readAt_of_mem_decodedFrom (h.mem_decodedFrom hd)).1
    have hnext := last.pc_lt_next
    rw [h.stop_eq]
    omega

/-- What is decoded after a block stands after it. -/
theorem le_after (h : b.MadeFrom is code before seg after) (hd : d ∈ after.flatten) :
    b.stop ≤ d.pc := by
  obtain ⟨done, last, rfl⟩ := h.exists_concat
  rw [← h.decodedFrom_next] at hd
  rw [h.stop_eq]
  exact Nat.le_trans (Nat.min_le_left ..) (le_pc_of_mem_decodedFrom hd)

end Block.MadeFrom

/-! ## The stream of a segment -/

/-- The word that is on top of the stack after instructions, as far as that is known from the last
    one. -/
def pushedBy (done : List Decoded) : Option Word := done.getLast?.bind (·.immediate)

theorem argOf_eq {cost : BlockCost} {through : Nat} {later : List Decoded} (pushed : Option Word)
    (d : Decoded) (h : cost.gas - through = gasOf later) :
    argOf target cost through pushed d =
      if d.isJumpDest then .block cost else innerArg target pushed d later := by
  unfold argOf innerArg
  rewrite [h]
  rfl

/-- What stands where in the rest of a segment, of which `front` is written and all is paid with
    `cost`. -/
theorem getElem?_written {cost : BlockCost} {front ds : List Decoded} {k : Nat} {ins : Instruction}
    (hgas : cost.gas = gasOf front + gasOf ds)
    (h : (written target cost (gasOf front) (pushedBy front) ds)[k]? = some ins) :
    ∃ done d later, ds = done ++ d :: later ∧ k = done.length ∧
      ins.pc = d.pc ∧ ins.opcode = d.entry.opcode ∧ ins.op = d.entry.op ∧
      ins.arg = if d.isJumpDest then .block cost
        else innerArg target (pushedBy (front ++ done)) d later := by
  induction ds generalizing front k with
  | nil => cases h
  | cons d ds ih =>
      rw [written_cons] at h
      rw [gasOf_cons] at hgas
      have hfront : gasOf (front ++ [d]) = gasOf front + d.entry.baseGas := by simp [gasOf]
      cases k with
      | zero =>
          cases Option.some.inj h
          refine ⟨[], d, ds, rfl, rfl, rfl, rfl, rfl, ?_⟩
          rw [List.append_nil]
          exact argOf_eq _ d (by omega)
      | succ k =>
          have hpushed : pushedBy (front ++ [d]) = d.immediate := by simp [pushedBy]
          rw [← hfront, ← hpushed] at h
          obtain ⟨done, d', later, rfl, rfl, hins⟩ := ih (by omega) h
          refine ⟨d :: done, d', later, rfl, rfl, ?_⟩
          rwa [List.append_assoc] at hins

/-- **What stands where in the stream of a segment**: the entry of the block, one of its own or a jump
    destination, and then the other instructions in turn. -/
inductive SegmentView (target : Word → Option Nat) : List Decoded → Nat → Instruction → Prop where
  | own {d : Decoded} {later : List Decoded} (hdest : d.isJumpDest = false) :
      SegmentView target (d :: later) 0 (.blockEntry d.pc (Tally.ofSegment (d :: later)).cost)
  | dest {d : Decoded} {later : List Decoded} (hdest : d.isJumpDest = true) :
      SegmentView target (d :: later) 0 (destInstruction d later)
  | inner {done later : List Decoded} {d : Decoded} (hdest : d.isJumpDest = false) :
      SegmentView target (done ++ d :: later)
        ((ownEntry (done ++ d :: later)).length + done.length)
        (innerInstruction target (pushedBy done) d later)

theorem segmentView (hchain : seg.IsChain fun a b => sameBlock a b = true) {k : Nat}
    {ins : Instruction} (h : (streamOfBlock target seg)[k]? = some ins) :
    SegmentView target seg k ins := by
  have hgas : (Tally.ofSegment seg).cost.gas = gasOf [] + gasOf seg := by
    rw [gasOf_nil, Nat.zero_add]
    exact Tally.gas_ofSegment seg
  unfold streamOfBlock at h
  by_cases hk : k < (ownEntry seg).length
  · rw [List.getElem?_append_left hk] at h
    cases seg with
    | nil => cases h
    | cons d later =>
        cases hdest : d.isJumpDest with
        | true => simp [ownEntry, hdest] at h
        | false =>
            simp only [ownEntry, hdest, Bool.false_eq_true, if_false] at h hk
            obtain rfl : k = 0 := by simpa using hk
            cases Option.some.inj h
            exact .own hdest
  · rw [List.getElem?_append_right (Nat.not_lt.1 hk)] at h
    obtain ⟨done, d, later, rfl, hlength, hpc, hopcode, hop, harg⟩ := getElem?_written hgas h
    obtain ⟨pc, opcode, op, arg⟩ := ins
    cases hpc
    cases hopcode
    cases hop
    cases hdest : d.isJumpDest with
    | false =>
        rw [hdest] at harg
        cases harg
        obtain rfl : k = (ownEntry (done ++ d :: later)).length + done.length := by omega
        exact .inner hdest
    | true =>
        -- only the first instruction is a jump destination
        cases done with
        | cons e done =>
            have hno := not_isJumpDest_of_chain hchain d (by simp)
            rw [hdest] at hno
            cases hno
        | nil =>
            rw [hdest] at harg
            cases harg
            have hown : (ownEntry ([] ++ d :: later)).length = 0 := by simp [ownEntry, hdest]
            rw [hown] at hlength
            obtain rfl : k = 0 := hlength
            exact .dest hdest

/-- An instruction in the stream of a segment has the place of one of its instructions. -/
theorem SegmentView.exists_pc {k : Nat} {ins : Instruction} (h : SegmentView target seg k ins) :
    ∃ d ∈ seg, ins.pc = d.pc := by
  cases h with
  | @own d later _ => exact ⟨d, List.mem_cons_self, rfl⟩
  | @dest d later _ => exact ⟨d, List.mem_cons_self, rfl⟩
  | @inner done later d _ => exact ⟨d, by simp, rfl⟩

/-! ## Places in the stream -/

/-- **Every place in the stream is a place in the stream of a block.** -/
theorem exists_madeFrom {c : Nat} {ins : Instruction}
    (h : (analyze is code).instructions[c]? = some ins) :
    ∃ b before seg after k, Block.MadeFrom is code b before seg after ∧ c = b.entry + k ∧
      SegmentView (analyze is code).jumpTarget seg k ins := by
  rw [← Array.getElem?_toList, toList_instructions] at h
  obtain ⟨before, seg, after, k, hsegments, hc, hget⟩ := of_getElem?_streamOf h
  have hmem : seg ∈ segments (decodedFrom is code 0) := by simp [hsegments]
  exact ⟨_, before, seg, after, k, ⟨hsegments, rfl⟩, hc,
    segmentView (isChain_of_mem_segments hmem) hget⟩

/-- A jump goes to the entry of the block that starts where the word says. -/
theorem exists_block_of_jumpTarget {w : Word} {index : Nat}
    (h : (analyze is code).jumpTarget w = some index) :
    ∃ b ∈ (analyze is code).blocks.toList, b.start = w.toNat ∧ b.entry = index := by
  obtain ⟨d, ds, before, after, hsegments, -, hpc, rfl⟩ := of_jumpTarget h
  have hmade : (blockBetween (analyze is code).jumpTarget code.size before (d :: ds) after).MadeFrom
      is code before (d :: ds) after := ⟨hsegments, rfl⟩
  exact ⟨_, hmade.mem, hpc, rfl⟩

/-- **The block of a byte** is the one whose ends it lies between. -/
theorem blockAt_eq_some_iff {pc : Nat} :
    (analyze is code).blockAt pc = some b ↔
      b ∈ (analyze is code).blocks.toList ∧ b.start ≤ pc ∧ pc < b.stop := by
  rw [blockAt_eq_find?]
  constructor
  · intro h
    exact ⟨List.mem_of_find?_eq_some h, by simpa using List.find?_some h⟩
  · rintro ⟨hmem, hin⟩
    have htiles := tiles_blocks is code
    have hwithin := htiles.within hmem
    obtain ⟨b', hb', hunique⟩ := htiles.existsUnique (Nat.zero_le pc) (by omega)
    have hfound : ((analyze is code).blocks.toList.find?
        fun b => b.start ≤ pc && pc < b.stop).isSome = true := by
      rw [List.find?_isSome]
      exact ⟨b, hmem, by simpa using hin⟩
    obtain ⟨b'', hb''⟩ := Option.isSome_iff_exists.1 hfound
    have hin'' : b''.start ≤ pc ∧ pc < b''.stop := by simpa using List.find?_some hb''
    rw [hb'', hunique b'' ⟨List.mem_of_find?_eq_some hb'', hin''⟩, hunique b ⟨hmem, hin⟩]

end MeteredEvm
