import MeteredEvm.Code.Analysis
import MeteredEvm.Proofs.Blocks
import MeteredEvm.Proofs.Lookup

/-!
# `MeteredEvm.Proofs.Stream` — where a place in the stream is in the code

The analysis writes the stream block by block. A place in the stream is told by what is left of its
block and by the blocks after it (`Place`); the same instructions are those from some byte of the
code on. Going on to the next instruction, over an entry, or along a jump leads from a place to a
place, so everything that is proved about runs can be proved place by place.

## Contents
* `written`, `streamOf`, `toList_instructions` — the stream as a list.
* `layoutFrom`, `toList_layoutOf` — the places of the blocks.
* `toList_entries`, `sorted_entries`, `of_jumpTarget`, `jumpTarget_ne_none_iff` — where jumps go.
* `Place` and its lemmas.
-/

namespace MeteredEvm

open Analysis

variable {is : InstructionSet} {code : ByteArray} {target : Word → Option Nat}

/-! ## The stream -/

/-- The stream of the instructions of a block, from `through` units of static gas on. -/
def written (target : Word → Option Nat) (cost : BlockCost) :
    (through : Nat) → (pushed : Option Word) → List Decoded → List Instruction
  | _, _, [] => []
  | through, pushed, d :: ds =>
    { pc := d.pc
      opcode := d.entry.opcode
      op := d.entry.op
      arg := argOf target cost (through + d.entry.baseGas) pushed d } ::
      written target cost (through + d.entry.baseGas) d.immediate ds

/-- The entry of a block, if it has one of its own. -/
def ownEntry (segment : List Decoded) : List Instruction :=
  match segment with
  | d :: _ => if d.isJumpDest then [] else [.blockEntry d.pc (Tally.ofSegment segment).cost]
  | [] => []

/-- The stream of a block. -/
def streamOfBlock (target : Word → Option Nat) (segment : List Decoded) : List Instruction :=
  ownEntry segment ++ written target (Tally.ofSegment segment).cost 0 none segment

/-- The stream of some blocks. -/
def streamOf (target : Word → Option Nat) (blocks : List (List Decoded)) : List Instruction :=
  blocks.flatMap (streamOfBlock target)

theorem streamOf_cons (segment : List Decoded) (blocks : List (List Decoded)) :
    streamOf target (segment :: blocks) = streamOfBlock target segment ++ streamOf target blocks :=
  List.flatMap_cons

theorem streamOfBlock_of_not_dest {d : Decoded} (h : d.isJumpDest = false) (ds : List Decoded) :
    streamOfBlock target (d :: ds) =
      .blockEntry d.pc (Tally.ofSegment (d :: ds)).cost ::
        written target (Tally.ofSegment (d :: ds)).cost 0 none (d :: ds) := by
  simp [streamOfBlock, ownEntry, h]

theorem streamOfBlock_of_dest {d : Decoded} (h : d.isJumpDest = true) (ds : List Decoded) :
    streamOfBlock target (d :: ds) =
      written target (Tally.ofSegment (d :: ds)).cost 0 none (d :: ds) := by
  simp [streamOfBlock, ownEntry, h]

theorem written_cons (cost : BlockCost) (through : Nat) (pushed : Option Word) (d : Decoded)
    (ds : List Decoded) :
    written target cost through pushed (d :: ds) =
      { pc := d.pc
        opcode := d.entry.opcode
        op := d.entry.op
        arg := argOf target cost (through + d.entry.baseGas) pushed d } ::
        written target cost (through + d.entry.baseGas) d.immediate ds := rfl

theorem toList_foldl_writer (cost : BlockCost) (ds : List Decoded) (w : Writer) :
    (ds.foldl (Writer.add target cost) w).stream.toList =
      w.stream.toList ++ written target cost w.gas w.pushed ds := by
  induction ds generalizing w with
  | nil => simp [written]
  | cons d ds ih =>
      rw [List.foldl_cons, ih]
      simp [Writer.add, written]

theorem toList_writeBlock (stream : Array Instruction) (segment : List Decoded) :
    (writeBlock target stream segment).toList = stream.toList ++ streamOfBlock target segment := by
  unfold writeBlock streamOfBlock ownEntry
  dsimp only
  rw [toList_foldl_writer]
  cases segment with
  | nil => simp
  | cons d ds =>
      by_cases hdest : d.isJumpDest = true
      · simp [hdest]
      · simp [hdest]

theorem length_written (cost : BlockCost) (through : Nat) (pushed : Option Word)
    (ds : List Decoded) : (written target cost through pushed ds).length = ds.length := by
  induction ds generalizing through pushed with
  | nil => rfl
  | cons d ds ih =>
      unfold written
      rw [List.length_cons, List.length_cons, ih]

/-- A block takes as many places as the layout counts. -/
theorem length_streamOfBlock (segment : List Decoded) :
    (streamOfBlock target segment).length = streamSize segment := by
  unfold streamOfBlock streamSize hasOwnEntry ownEntry
  rw [List.length_append, length_written]
  cases segment with
  | nil => rfl
  | cons d ds =>
      by_cases hdest : d.isJumpDest = true
      · simp [hdest]
      · simp [hdest, Nat.add_comm]

/-! ## The layout -/

/-- Each block with its place, from the place `start` on. -/
def layoutFrom : (start : Nat) → List (List Decoded) → List (Nat × List Decoded)
  | _, [] => []
  | start, segment :: blocks => (start, segment) :: layoutFrom (start + streamSize segment) blocks

theorem toList_foldl_place (blocks : List (List Decoded)) (layout : Array (Nat × List Decoded) × Nat) :
    (blocks.foldl place layout).1.toList = layout.1.toList ++ layoutFrom layout.2 blocks := by
  induction blocks generalizing layout with
  | nil => simp [layoutFrom]
  | cons segment blocks ih =>
      rw [List.foldl_cons, ih]
      simp [place, layoutFrom]

theorem toList_layoutOf (blocks : List (List Decoded)) :
    (layoutOf blocks).toList = layoutFrom 0 blocks := by
  unfold layoutOf
  rw [toList_foldl_place]
  rfl

/-- The stream of a layout is the stream of its blocks. -/
theorem toList_foldl_writeBlock (target : Word → Option Nat) (blocks : List (List Decoded))
    (start : Nat) (stream : Array Instruction) :
    ((layoutFrom start blocks).foldl (fun stream (p : Nat × List Decoded) =>
      writeBlock target stream p.2) stream).toList = stream.toList ++ streamOf target blocks := by
  induction blocks generalizing start stream with
  | nil => simp [layoutFrom, streamOf]
  | cons segment blocks ih =>
      unfold layoutFrom
      rw [List.foldl_cons, ih, toList_writeBlock]
      simp [streamOf]

/-- **The stream of an analysis is the stream of the blocks of the code.** -/
theorem toList_instructions (is : InstructionSet) (code : ByteArray) :
    (analyze is code).instructions.toList =
      streamOf (analyze is code).jumpTarget (segments (decodedFrom is code 0)) := by
  have h := toList_foldl_writeBlock (analyze is code).jumpTarget
    (segments (decodedFrom is code 0)) 0 #[]
  rw [← toList_layoutOf, Array.foldl_toList, List.nil_append] at h
  exact h

/-- The place of a block in the layout is where its stream starts. -/
theorem of_mem_layoutFrom (target : Word → Option Nat) {start index : Nat}
    {blocks : List (List Decoded)} {segment : List Decoded} (h : (index, segment) ∈ layoutFrom start blocks) :
    ∃ before after, blocks = before ++ segment :: after ∧
      index = start + (streamOf target before).length := by
  induction blocks generalizing start with
  | nil => cases h
  | cons first blocks ih =>
      unfold layoutFrom at h
      obtain heq | h := List.mem_cons.1 h
      · cases heq
        exact ⟨[], blocks, rfl, rfl⟩
      · obtain ⟨before, after, rfl, rfl⟩ := ih h
        refine ⟨first :: before, after, rfl, ?_⟩
        simp only [streamOf, List.flatMap_cons, List.length_append, length_streamOfBlock]
        omega

theorem mem_layoutFrom_of_mem (start : Nat) {blocks : List (List Decoded)} {segment : List Decoded}
    (h : segment ∈ blocks) : ∃ index, (index, segment) ∈ layoutFrom start blocks := by
  induction blocks generalizing start with
  | nil => cases h
  | cons first blocks ih =>
      unfold layoutFrom
      obtain rfl | h := List.mem_cons.1 h
      · exact ⟨start, List.mem_cons_self⟩
      · obtain ⟨index, hmem⟩ := ih _ h
        exact ⟨index, List.mem_cons_of_mem _ hmem⟩

/-! ## Jump destinations -/

/-- The jump destination that a block starts with, and its place, if it starts with one. -/
def destOf (placed : Nat × List Decoded) : Option (Nat × Nat) :=
  match placed.2 with
  | d :: _ => if d.isJumpDest then some (d.pc, placed.1) else none
  | [] => none

theorem destOf_eq_some_iff {placed : Nat × List Decoded} {pc index : Nat} :
    destOf placed = some (pc, index) ↔
      ∃ d ds, placed = (index, d :: ds) ∧ d.isJumpDest = true ∧ d.pc = pc := by
  obtain ⟨place, segment⟩ := placed
  unfold destOf
  cases segment with
  | nil => simp
  | cons d ds =>
      by_cases hdest : d.isJumpDest = true
      · simp only [if_pos hdest]
        constructor
        · rintro ⟨⟩
          exact ⟨d, ds, rfl, hdest, rfl⟩
        · rintro ⟨_, _, ⟨⟩, -, rfl⟩
          rfl
      · simp only [if_neg hdest]
        constructor
        · rintro ⟨⟩
        · rintro ⟨_, _, ⟨⟩, h, -⟩
          exact absurd h hdest

theorem toList_noteDestination (entries : Array (Nat × Nat)) (placed : Nat × List Decoded) :
    (noteDestination entries placed).toList = entries.toList ++ (destOf placed).toList := by
  obtain ⟨index, segment⟩ := placed
  cases segment with
  | nil => exact (List.append_nil _).symm
  | cons d ds =>
      by_cases hdest : d.isJumpDest = true
      · simp [noteDestination, destOf, hdest]
      · simp [noteDestination, destOf, hdest]

theorem toList_destinations (layout : Array (Nat × List Decoded)) :
    (destinations layout).toList = layout.toList.filterMap destOf := by
  have hfold (placed : List (Nat × List Decoded)) (entries : Array (Nat × Nat)) :
      (placed.foldl noteDestination entries).toList =
        entries.toList ++ placed.filterMap destOf := by
    induction placed generalizing entries with
    | nil => rw [List.filterMap_nil, List.append_nil, List.foldl_nil]
    | cons block placed ih =>
        rw [List.foldl_cons, ih, toList_noteDestination, List.append_assoc]
        cases hdest : destOf block with
        | none => rw [List.filterMap_cons_none hdest]; rfl
        | some entry => rw [List.filterMap_cons_some hdest]; rfl
  have h := hfold layout.toList #[]
  rw [Array.foldl_toList, List.nil_append] at h
  exact h

theorem toList_entries (is : InstructionSet) (code : ByteArray) :
    (analyze is code).entries.toList =
      (layoutFrom 0 (segments (decodedFrom is code 0))).filterMap destOf := by
  rw [← toList_layoutOf, ← toList_destinations]
  rfl

theorem mem_entries_iff {pc index : Nat} :
    (pc, index) ∈ (analyze is code).entries.toList ↔
      ∃ d ds, (index, d :: ds) ∈ layoutFrom 0 (segments (decodedFrom is code 0)) ∧
        d.isJumpDest = true ∧ d.pc = pc := by
  rw [toList_entries, List.mem_filterMap]
  constructor
  · rintro ⟨placed, hmem, hdest⟩
    obtain ⟨d, ds, rfl, hdest, hpc⟩ := destOf_eq_some_iff.1 hdest
    exact ⟨d, ds, hmem, hdest, hpc⟩
  · rintro ⟨d, ds, hmem, hdest, hpc⟩
    exact ⟨_, hmem, destOf_eq_some_iff.2 ⟨d, ds, rfl, hdest, hpc⟩⟩

theorem map_snd_layoutFrom (start : Nat) (blocks : List (List Decoded)) :
    (layoutFrom start blocks).map Prod.snd = blocks := by
  induction blocks generalizing start with
  | nil => rfl
  | cons segment blocks ih => rw [layoutFrom, List.map_cons, ih]

/-- **The jump destinations are sorted**, as the bytes of the code are. -/
theorem sorted_entries (is : InstructionSet) (code : ByteArray) :
    (analyze is code).entries.toList.Pairwise (·.1 < ·.1) := by
  have hpairwise := pairwise_pc_decodedFrom is code 0
  rw [← flatten_segments (decodedFrom is code 0), List.pairwise_flatten] at hpairwise
  have hblocks := hpairwise.2
  rw [← map_snd_layoutFrom 0 (segments (decodedFrom is code 0)), List.pairwise_map] at hblocks
  rw [toList_entries]
  refine List.Pairwise.filterMap destOf ?_ hblocks
  intro placed placed' hlt entry hentry entry' hentry'
  obtain ⟨d, ds, rfl, -, hpc⟩ := destOf_eq_some_iff.1 hentry
  obtain ⟨d', ds', rfl, -, hpc'⟩ := destOf_eq_some_iff.1 hentry'
  rw [← hpc, ← hpc']
  exact hlt d List.mem_cons_self d' List.mem_cons_self

theorem jumpTarget_eq (is : InstructionSet) (code : ByteArray) (w : Word) :
    (analyze is code).jumpTarget w =
      match w.toU64? with
      | some pc =>
        if (JumpMap.scan code).isSet pc then findPlace (analyze is code).entries pc else none
      | none => none :=
  rfl

/-- **Where a jump goes**: to the place of a block that starts, at the byte that the word names, with
    a jump destination. -/
theorem of_jumpTarget {w : Word} {index : Nat} (h : (analyze is code).jumpTarget w = some index) :
    ∃ d ds before after, segments (decodedFrom is code 0) = before ++ (d :: ds) :: after ∧
      d.isJumpDest = true ∧ d.pc = w.toNat ∧
      index = (streamOf (analyze is code).jumpTarget before).length := by
  rw [jumpTarget_eq, Word.toU64?] at h
  split at h
  · rename_i pc hfits
    split at hfits
    · cases hfits
      split at h
      · obtain ⟨d, ds, hmem, hdest, hpc⟩ :=
          mem_entries_iff.1 ((findPlace_eq_some_iff (sorted_entries is code)).1 h)
        obtain ⟨before, after, hsegments, hindex⟩ :=
          of_mem_layoutFrom (analyze is code).jumpTarget hmem
        exact ⟨d, ds, before, after, hsegments, hdest, hpc, by omega⟩
      · cases h
    · cases hfits
  · cases h

/-- A jump has a place to go exactly if its word is a 64-bit quantity and it may go there. -/
theorem jumpTarget_ne_none_iff {w : Word} :
    (analyze is code).jumpTarget w ≠ none ↔
      w.toNat < u64Size ∧ (JumpMap.scan code).isSet w.toNat = true := by
  rw [jumpTarget_eq, Word.toU64?]
  by_cases hfits : w.toNat < u64Size
  · rw [if_pos hfits]
    dsimp only
    by_cases hset : (JumpMap.scan code).isSet w.toNat = true
    · rw [if_pos hset]
      refine ⟨fun _ => ⟨hfits, hset⟩, fun _ => ?_⟩
      obtain ⟨d, hmem, hpc, hdest⟩ := (JumpMap.isSet_iff is code w.toNat).1 hset
      obtain ⟨ds, hseg⟩ := exists_segment_of_isJumpDest hmem hdest
      obtain ⟨index, hlayout⟩ := mem_layoutFrom_of_mem 0 hseg
      have hentry := mem_entries_iff.2 ⟨d, ds, hlayout, hdest, hpc⟩
      rw [(findPlace_eq_some_iff (sorted_entries is code)).2 hentry]
      exact Option.some_ne_none index
    · rw [if_neg hset]
      exact ⟨fun h => absurd rfl h, fun h => absurd h.2 hset⟩
  · rw [if_neg hfits]
    exact ⟨fun h => absurd rfl h, fun h => absurd h.1 hfits⟩

/-! ## Places -/

/-- **A place in the stream.** Of the block, the instructions `rest` are still to come; after it, the
    blocks `post`. They are the instructions from the byte at `pc` on. `pushed` is the word that the
    instruction before pushes, if that is known. -/
structure Place (is : InstructionSet) (code : ByteArray) (c pc : Nat) (pushed : Option Word)
    (rest : List Decoded) (post : List (List Decoded)) : Prop where
  stream : ∃ cost through,
    (analyze is code).instructions.toList.drop c =
      written (analyze is code).jumpTarget cost through pushed rest ++
        streamOf (analyze is code).jumpTarget post ∧
    cost.gas = through + gasOf rest
  decoded : decodedFrom is code pc = rest ++ post.flatten
  inner : ∀ d ∈ rest, d.isJumpDest = false
  chain : rest.IsChain fun a b => sameBlock a b = true
  after : post <:+ segments (decodedFrom is code 0)

/-- The argument of an instruction that is not the entry of its block, given the word pushed right
    before and the instructions of the block after it. -/
def innerArg (target : Word → Option Nat) (pushed : Option Word) (d : Decoded)
    (later : List Decoded) : Arg :=
  if d.entry.observesGas then .correction (gasOf later)
  else if isJump d then
    match pushed.bind target with
    | some index => .target index
    | none => .none
  else
    match d.immediate with
    | some w => .push w
    | none => .none

/-- An instruction of the stream that is not the entry of its block. -/
def innerInstruction (target : Word → Option Nat) (pushed : Option Word) (d : Decoded)
    (later : List Decoded) : Instruction where
  pc := d.pc
  opcode := d.entry.opcode
  op := d.entry.op
  arg := innerArg target pushed d later

/-- The entry of a block that starts with a jump destination. -/
def destInstruction (d : Decoded) (later : List Decoded) : Instruction where
  pc := d.pc
  opcode := d.entry.opcode
  op := d.entry.op
  arg := .block (Tally.ofSegment (d :: later)).cost

namespace Place

variable {c pc : Nat} {pushed : Option Word} {d : Decoded} {rest : List Decoded}
  {post : List (List Decoded)}

/-- A run starts before the first block. -/
theorem start (is : InstructionSet) (code : ByteArray) :
    Place is code 0 0 none [] (segments (decodedFrom is code 0)) where
  stream := by
    refine ⟨{ gas := 0, required := 0, growth := 0 }, 0, ?_, rfl⟩
    rw [List.drop_zero, toList_instructions]
    rfl
  decoded := (flatten_segments _).symm
  inner d hd := by cases hd
  chain := .nil
  after := List.suffix_refl _

theorem lawful (h : Place is code c pc pushed (d :: rest) post) : d.Lawful is := by
  have hmem : d ∈ decodedFrom is code pc := by
    rw [h.decoded]
    exact List.mem_cons_self
  exact lawful_of_mem_decodedFrom hmem

/-- The instruction at a place whose stream is known. -/
theorem getElem?_of_drop {ins : Instruction} {tail : List Instruction}
    (h : (analyze is code).instructions.toList.drop c = ins :: tail) :
    (analyze is code).instructions[c]? = some ins ∧
      (analyze is code).instructions.toList.drop (c + 1) = tail := by
  constructor
  · rw [← Array.getElem?_toList]
    have hget := congrArg List.head? h
    rw [List.head?_drop] at hget
    exact hget
  · rw [← List.tail_drop, h]
    rfl

/-- Past the last block there is nothing, neither in the stream nor in the code. -/
theorem stop (h : Place is code c pc pushed [] []) :
    (analyze is code).instructions[c]? = none ∧ code.size ≤ pc := by
  constructor
  · obtain ⟨cost, through, hstream, -⟩ := h.stream
    have hnil : (analyze is code).instructions.toList.drop c = [] := hstream
    rw [← Array.getElem?_toList, ← List.head?_drop, hnil]
    rfl
  · by_contra hlt
    have hdecoded := h.decoded
    rw [decodedFrom_of_lt (Nat.not_le.1 hlt)] at hdecoded
    cases hdecoded

/-- **Inside a block** the next instruction of the stream is the next one of the code; the analysis
    has added what the rest of the block has paid, or the target of a jump whose destination has
    just been pushed. -/
theorem inner_step (h : Place is code c pc pushed (d :: rest) post) :
    (analyze is code).instructions[c]? =
        some (innerInstruction (analyze is code).jumpTarget pushed d rest) ∧
      Place is code (c + 1) d.next d.immediate rest post := by
  obtain ⟨cost, through, hstream, hgas⟩ := h.stream
  rw [written_cons, List.cons_append] at hstream
  obtain ⟨hget, hdrop⟩ := getElem?_of_drop hstream
  have hdest : d.isJumpDest = false := h.inner d List.mem_cons_self
  have hdecoded := h.decoded
  rw [List.cons_append] at hdecoded
  obtain ⟨-, -, htail⟩ := decodedFrom_eq_cons hdecoded
  rw [gasOf_cons] at hgas
  constructor
  · rw [hget]
    unfold argOf
    rw [hdest, show cost.gas - (through + d.entry.baseGas) = gasOf rest by omega]
    rfl
  · exact
      { stream := ⟨cost, through + d.entry.baseGas, hdrop, by omega⟩
        decoded := htail.symm
        inner := fun d' hd' => h.inner d' (List.mem_cons_of_mem _ hd')
        chain := h.chain.tail
        after := h.after }

/-- **A block that does not start with a jump destination** has an entry of its own. -/
theorem ownEntry (h : Place is code c pc pushed [] ((d :: rest) :: post))
    (hdest : d.isJumpDest = false) :
    (analyze is code).instructions[c]? =
        some (.blockEntry d.pc (Tally.ofSegment (d :: rest)).cost) ∧
      Place is code (c + 1) pc none (d :: rest) post := by
  obtain ⟨cost, through, hstream, -⟩ := h.stream
  have hmem : (d :: rest) ∈ segments (decodedFrom is code 0) := h.after.subset List.mem_cons_self
  have hchain := isChain_of_mem_segments hmem
  rw [streamOf_cons, streamOfBlock_of_not_dest hdest, List.cons_append] at hstream
  obtain ⟨hget, hdrop⟩ := getElem?_of_drop hstream
  refine ⟨hget, ?_⟩
  exact
    { stream := ⟨_, 0, hdrop, by rw [Nat.zero_add]; exact Tally.gas_ofSegment _⟩
      decoded := h.decoded
      inner := fun d' hd' => by
        obtain rfl | hd' := List.mem_cons.1 hd'
        · exact hdest
        · exact not_isJumpDest_of_chain hchain d' hd'
      chain := hchain
      after := (List.suffix_cons _ _).trans h.after }

/-- **A block that starts with a jump destination** has that for its entry. -/
theorem jumpDest (h : Place is code c pc pushed [] ((d :: rest) :: post))
    (hdest : d.isJumpDest = true) :
    (analyze is code).instructions[c]? = some (destInstruction d rest) ∧
      Place is code (c + 1) d.next d.immediate rest post := by
  obtain ⟨cost, through, hstream, -⟩ := h.stream
  have hmem : (d :: rest) ∈ segments (decodedFrom is code 0) := h.after.subset List.mem_cons_self
  have hchain := isChain_of_mem_segments hmem
  have hgas := Tally.gas_ofSegment (d :: rest)
  rw [gasOf_cons] at hgas
  have hdecoded := h.decoded
  rw [List.nil_append, List.flatten_cons, List.cons_append] at hdecoded
  obtain ⟨-, -, htail⟩ := decodedFrom_eq_cons hdecoded
  rw [streamOf_cons, streamOfBlock_of_dest hdest, written_cons, List.cons_append] at hstream
  obtain ⟨hget, hdrop⟩ := getElem?_of_drop hstream
  constructor
  · rw [hget]
    unfold argOf
    rw [if_pos hdest]
    rfl
  · exact
      { stream := ⟨_, 0 + d.entry.baseGas, hdrop, by rw [Nat.zero_add]; exact hgas⟩
        decoded := htail.symm
        inner := not_isJumpDest_of_chain hchain
        chain := hchain.tail
        after := (List.suffix_cons _ _).trans h.after }

/-- **A jump leads to the start of a block** with a jump destination, at the byte that the word
    names. -/
theorem of_jump {w : Word} {index : Nat} (h : (analyze is code).jumpTarget w = some index) :
    ∃ d rest post, d.isJumpDest = true ∧
      Place is code index w.toNat none [] ((d :: rest) :: post) := by
  obtain ⟨d, ds, before, after, hsegments, hdest, hpc, rfl⟩ := of_jumpTarget h
  refine ⟨d, ds, after, hdest, ?_⟩
  have hflat := flatten_segments (decodedFrom is code 0)
  rw [hsegments, List.flatten_append, List.flatten_cons, List.cons_append] at hflat
  exact
    { stream := by
        refine ⟨{ gas := 0, required := 0, growth := 0 }, 0, ?_, rfl⟩
        rw [toList_instructions, hsegments]
        unfold streamOf
        rw [List.flatMap_append, List.drop_left]
        rfl
      decoded := by
        rw [← hpc, decodedFrom_append hflat.symm]
        rfl
      inner := fun d' hd' => by cases hd'
      chain := .nil
      after := by
        rw [hsegments]
        exact List.suffix_append _ _ }

/-- **The kinds of places**: past the last block, before a block of either kind, inside a block. -/
inductive View (is : InstructionSet) (code : ByteArray) (c pc : Nat) (pushed : Option Word) :
    List Decoded → List (List Decoded) → Prop where
  | stop (hins : (analyze is code).instructions[c]? = none) (hpc : code.size ≤ pc) :
      View is code c pc pushed [] []
  | own {d : Decoded} {later : List Decoded} {post : List (List Decoded)}
      (hdest : d.isJumpDest = false)
      (hins : (analyze is code).instructions[c]? =
        some (.blockEntry d.pc (Tally.ofSegment (d :: later)).cost))
      (hnext : Place is code (c + 1) pc none (d :: later) post) :
      View is code c pc pushed [] ((d :: later) :: post)
  | dest {d : Decoded} {later : List Decoded} {post : List (List Decoded)}
      (hdest : d.isJumpDest = true) (hlawful : d.Lawful is)
      (hchain : (d :: later).IsChain fun a b => sameBlock a b = true)
      (hdecoded : decodedFrom is code pc = d :: (later ++ post.flatten))
      (hins : (analyze is code).instructions[c]? = some (destInstruction d later))
      (hnext : Place is code (c + 1) d.next d.immediate later post) :
      View is code c pc pushed [] ((d :: later) :: post)
  | inner {d : Decoded} {later : List Decoded} {post : List (List Decoded)}
      (hdest : d.isJumpDest = false) (hlawful : d.Lawful is)
      (hdecoded : decodedFrom is code pc = d :: (later ++ post.flatten))
      (hends : d.entry.endsBlock = true → later = [])
      (hins : (analyze is code).instructions[c]? =
        some (innerInstruction (analyze is code).jumpTarget pushed d later))
      (hnext : Place is code (c + 1) d.next d.immediate later post) :
      View is code c pc pushed (d :: later) post

theorem view (h : Place is code c pc pushed rest post) : View is code c pc pushed rest post := by
  cases rest with
  | cons d later =>
      obtain ⟨hins, hnext⟩ := h.inner_step
      exact .inner (h.inner d List.mem_cons_self) h.lawful h.decoded (eq_nil_of_endsBlock h.chain) hins
        hnext
  | nil =>
      cases post with
      | nil =>
          obtain ⟨hins, hpc⟩ := h.stop
          exact .stop hins hpc
      | cons seg post =>
          cases seg with
          | nil => exact absurd rfl (ne_nil_of_mem_segments (h.after.subset List.mem_cons_self))
          | cons d later =>
              cases hdest : d.isJumpDest with
              | false =>
                  obtain ⟨hins, hnext⟩ := h.ownEntry hdest
                  exact .own hdest hins hnext
              | true =>
                  obtain ⟨hins, hnext⟩ := h.jumpDest hdest
                  have hdecoded : decodedFrom is code pc = d :: (later ++ post.flatten) := h.decoded
                  have hmem : d ∈ decodedFrom is code pc := by
                    rw [hdecoded]
                    exact List.mem_cons_self
                  have hchain := isChain_of_mem_segments (h.after.subset List.mem_cons_self)
                  exact .dest hdest (lawful_of_mem_decodedFrom hmem) hchain hdecoded hins hnext

end Place

end MeteredEvm
