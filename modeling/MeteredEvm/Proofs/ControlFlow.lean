import MeteredEvm.Proofs.Mirrors
import MeteredEvm.Proofs.Segments

/-!
# `MeteredEvm.Proofs.ControlFlow` — the successors of a block

The analysis lists for every block the blocks that control is known to be able to reach next, and
resolves a jump whose destination is pushed right before it. Both are read off the code alone. A run
keeps to them: where a resolved jump stands, the word on top of the stack is the one that it was
resolved for (`Primed`), and control leaves a block only for a successor, or by a jump that was not
resolved (`passes_to_successor`).

## Contents
* `Block.MadeFrom.next`, `start_eq_of_entry_eq` — the block after a block, and the block of an entry.
* `exists_block_of_mem_successors` — successors are blocks.
* `LeavesUnresolved`, `passes_to_successor` — where one turn leads.
* `Primed`, `Primed.turn`, `Primed.resolved` — the word that a resolved jump finds.
* `FlowsAt`, `control_flow_sound` — every run.
-/

namespace MeteredEvm

open Analysis

variable {σ : Type} {is : InstructionSet} {code : ByteArray} {target : Word → Option Nat}
  {b b' : Block} {before after : List (List Decoded)} {seg : List Decoded} {s : Setting σ}
  {guarded : Bool} {c c' : Nat} {m m' : Machine σ} {ins : Instruction}

/-! ## Neighbours -/

/-- The block after a block starts where that one stops, in the code and in the stream. -/
theorem Block.MadeFrom.next {following : List Decoded}
    (h : b.MadeFrom is code before seg (following :: after)) :
    ∃ b' : Block, b'.MadeFrom is code (before ++ [seg]) following after ∧ b'.start = b.stop ∧
      b'.entry = b.entry + streamSize seg := by
  refine ⟨_, ⟨?_, rfl⟩, ?_, ?_⟩
  · rw [h.segments, List.append_assoc]
    rfl
  · obtain ⟨done, last, rfl⟩ := h.exists_concat
    have hdecoded := h.decodedFrom_next
    have hne := h.ne_nil_of_mem_after List.mem_cons_self
    have hlt : last.next < code.size := by
      refine Nat.lt_of_not_le fun hle => ?_
      rw [decodedFrom_of_le hle] at hdecoded
      exact hne (List.append_eq_nil_iff.1 hdecoded.symm).1
    rw [h.stop_eq, Nat.min_eq_left (Nat.le_of_lt hlt)]
    show (startOf following).getD 0 = last.next
    rw [startOf_of_decodedFrom hdecoded hne, Option.getD_some]
  · rw [h.eq]
    simp [blockBetween, streamOf, length_streamOfBlock]

/-- There is one block to an entry. -/
theorem start_eq_of_entry_eq (hb : b ∈ (analyze is code).blocks.toList)
    (hb' : b' ∈ (analyze is code).blocks.toList) (h : b.entry = b'.entry) : b.start = b'.start := by
  obtain ⟨ins, hentered⟩ := entered_of_mem_blocks hb
  obtain ⟨ins', hentered'⟩ := entered_of_mem_blocks hb'
  have hplace := hentered.place
  rw [h, hentered'.place] at hplace
  rw [← hentered.pc, ← hentered'.pc, Option.some.inj hplace]

/-! ## Successors -/

/-- What is known of a jump at the end of a block comes from the push before it. -/
theorem mem_constantTarget_iff {done : List Decoded} {d : Decoded} {p : Nat} :
    p ∈ constantTarget target (done ++ [d]) ↔
      ∃ w, pushedBy done = some w ∧ (target w).isSome = true ∧ p = w.toNat := by
  unfold constantTarget pushedBy
  rw [List.reverse_concat', ← List.head?_reverse]
  cases done.reverse with
  | nil => simp
  | cons e rest =>
      cases himmediate : e.immediate with
      | none => simp [himmediate]
      | some w =>
          by_cases htarget : (target w).isSome = true
          · simp [himmediate, htarget]
          · simp [himmediate, htarget]

theorem of_mem_successorsOf {next : Option Nat} {p : Nat} (h : p ∈ successorsOf target next seg) :
    p ∈ constantTarget target seg ∨ next = some p := by
  unfold successorsOf at h
  repeat' split at h
  · cases h
  · exact .inl h
  · rcases List.mem_append.1 h with h | h
    · exact .inl h
    · exact .inr (Option.mem_toList.1 h)
  · cases h
  · exact .inr (Option.mem_toList.1 h)

/-- Where a jump at the end of a block is known to go is a successor. -/
theorem constantTarget_subset {next : Option Nat} {done : List Decoded} {d : Decoded} {p : Nat}
    (hop : d.entry.op = some .jump ∨ d.entry.op = some .jumpi)
    (h : p ∈ constantTarget target (done ++ [d])) : p ∈ successorsOf target next (done ++ [d]) := by
  unfold successorsOf
  rw [List.getLast?_concat]
  rcases hop with hop | hop
  · simpa [hop] using h
  · simp [hop, h]

/-- The block after one that can be left at its end is a successor. -/
theorem next_mem_successorsOf {done : List Decoded} {d : Decoded} {p : Nat} (hlawful : d.Lawful is)
    (h : d.entry.op = some .jumpi ∨ d.entry.endsBlock = false) :
    p ∈ successorsOf target (some p) (done ++ [d]) := by
  unfold successorsOf
  rw [List.getLast?_concat]
  rcases h with hop | hends
  · simp [hop]
  · dsimp only
    split
    · rename_i hop
      rw [hlawful.entry_of_op _ hop] at hends
      cases hends
    · simp
    · simp [hends]

/-- **Every successor is the start of a block.** -/
theorem exists_block_of_mem_successors (hb : b ∈ (analyze is code).blocks.toList) {p : Nat}
    (hp : p ∈ b.successors) : ∃ b' ∈ (analyze is code).blocks.toList, b'.start = p := by
  obtain ⟨before, seg, after, hmade⟩ := mem_blocks_iff.1 hb
  have hsuccessors : b.successors =
      successorsOf (analyze is code).jumpTarget (after.head?.bind startOf) seg := by
    rw [hmade.eq]
    rfl
  rw [hsuccessors] at hp
  rcases of_mem_successorsOf hp with hp | hnext
  · obtain ⟨done, d, rfl⟩ := hmade.exists_concat
    obtain ⟨w, -, htarget, rfl⟩ := mem_constantTarget_iff.1 hp
    obtain ⟨index, hindex⟩ := Option.isSome_iff_exists.1 htarget
    obtain ⟨b', hb', hstart, -⟩ := exists_block_of_jumpTarget hindex
    exact ⟨b', hb', hstart⟩
  · cases after with
    | nil => cases hnext
    | cons following after =>
        obtain ⟨b', hmade', -, -⟩ := hmade.next
        obtain ⟨first, rest, rfl, hstart⟩ := hmade'.exists_cons
        cases hnext
        exact ⟨b', hmade'.mem, hstart.symm⟩

/-! ## Where one turn leads -/

theorem streamSize_eq (seg : List Decoded) :
    streamSize seg = (ownEntry seg).length + seg.length := by
  cases seg with
  | nil => rfl
  | cons d later =>
      cases hdest : d.isJumpDest with
      | true => simp [streamSize, hasOwnEntry, ownEntry, hdest]
      | false => simp [streamSize, hasOwnEntry, ownEntry, hdest, Nat.add_comm]

theorem SegmentView.lt_streamSize {k : Nat} (hview : SegmentView target seg k ins) :
    k < streamSize seg := by
  rw [streamSize_eq]
  cases hview with
  | own hdest => simp
  | dest hdest => simp
  | inner hdest => simp

/-- The last instruction in the stream of a segment is the last one of the segment. -/
theorem SegmentView.exists_concat {k : Nat} (hview : SegmentView target seg k ins)
    (hlast : k + 1 = streamSize seg) : ∃ done d, seg = done ++ [d] ∧ ins.op = d.entry.op := by
  rw [streamSize_eq] at hlast
  cases hview with
  | @own d later hdest =>
      -- the entry is followed by what it is the entry of
      simp [ownEntry, hdest] at hlast
  | @dest d later hdest =>
      obtain rfl : later = [] := by simpa [ownEntry, hdest] using hlast
      exact ⟨[], d, rfl, rfl⟩
  | @inner done later d hdest =>
      obtain rfl : later = [] := by
        rw [List.length_append, List.length_cons] at hlast
        exact List.eq_nil_of_length_eq_zero (by omega)
      exact ⟨done, d, rfl, rfl⟩

/-- **A run that enters a block from the place before it** comes from the end of the block before. -/
theorem Block.MadeFrom.of_entry_eq (h : b.MadeFrom is code before seg after) {k : Nat}
    (hk : k < streamSize seg) (hb' : b' ∈ (analyze is code).blocks.toList)
    (hentry : b'.entry = b.entry + (k + 1)) :
    k + 1 = streamSize seg ∧ after.head?.bind startOf = some b'.start := by
  obtain ⟨ins', hentered⟩ := entered_of_mem_blocks hb'
  have hplace := hentered.place
  have hsplit := getElem?_instructions h.segments (k + 1)
  have hb : b.entry = (streamOf (analyze is code).jumpTarget before).length := by
    rw [h.eq]
    rfl
  rw [← hb, ← hentry, hplace] at hsplit
  -- inside of a block there is no entry
  have hlast : k + 1 = streamSize seg := by
    by_contra hne
    have hlt : k + 1 < (streamOfBlock (analyze is code).jumpTarget seg).length := by
      rw [length_streamOfBlock]
      omega
    rw [List.getElem?_append_left hlt] at hsplit
    cases eq_zero_of_arg h.chain hsplit.symm hentered.arg
  refine ⟨hlast, ?_⟩
  cases after with
  | nil =>
      rw [hlast, List.getElem?_append_right (by rw [length_streamOfBlock])] at hsplit
      cases hsplit
  | cons following after =>
      obtain ⟨b₁, hmade, -, hentry₁⟩ := h.next
      obtain ⟨first, rest, rfl, hstart⟩ := hmade.exists_cons
      have hsame : b₁.start = b'.start :=
        start_eq_of_entry_eq hmade.mem hb' (by omega)
      rw [← hsame, ← hstart]
      rfl

/-- **A block is left by a jump whose destination was not known**: one that no target was resolved
    for ends the block, and is taken. -/
structure LeavesUnresolved (s : Setting σ) (guarded : Bool) (b b' : Block) (ins : Instruction)
    (m m' : Machine σ) : Prop where
  op : ins.op = some .jump ∨ ins.op = some .jumpi
  last : ins.pc + 1 = b.stop
  arg : ∀ t, ins.arg ≠ .target t
  taken : step s guarded ins m = .ok (.jump b'.entry) m'

/-- Going on to the next place leads to the block after, which is a successor. -/
theorem passes_next {k : Nat} (hmade : b.MadeFrom is code before seg after)
    (hview : SegmentView (analyze is code).jumpTarget seg k ins)
    (hb' : b' ∈ (analyze is code).blocks.toList) (hentry : b'.entry = b.entry + k + 1)
    (hstep : step s guarded ins m = .ok .next m') : b'.start ∈ b.successors := by
  obtain ⟨hlast, hnext⟩ := hmade.of_entry_eq hview.lt_streamSize hb' hentry
  obtain ⟨done, d, rfl, hop'⟩ := hview.exists_concat hlast
  have hlawful : d.Lawful is := hmade.lawful (by simp)
  obtain ⟨op, hop, -, hexec⟩ := of_step_ok hstep
  rw [hop] at hop'
  rw [hmade.eq]
  show b'.start ∈ successorsOf _ (after.head?.bind startOf) (done ++ [d])
  rw [hnext]
  refine next_mem_successorsOf hlawful ?_
  rw [hlawful.entry_of_op op hop'.symm]
  rcases Op.of_exec_next hexec with rfl | hends
  · exact .inl rfl
  · exact .inr hends

/-- A jump leads to a successor, if it was resolved. -/
theorem passes_jump {k : Nat} (hmade : b.MadeFrom is code before seg after)
    (hview : SegmentView (analyze is code).jumpTarget seg k ins)
    (hb' : b' ∈ (analyze is code).blocks.toList)
    (hstep : step s guarded ins m = .ok (.jump b'.entry) m') :
    LeavesUnresolved s guarded b b' ins m m' ∨ b'.start ∈ b.successors := by
  obtain ⟨hop, dest, -, -, hleads⟩ := of_step_jump hstep
  cases hview with
  | own hdest => rcases hop with hop | hop <;> cases hop
  | @dest d later hdest =>
      have hop' := (hmade.lawful List.mem_cons_self).isJumpDest_iff.1 hdest
      have hop : d.entry.op = some .jump ∨ d.entry.op = some .jumpi := hop
      rw [hop'] at hop
      rcases hop with hop | hop <;> cases hop
  | @inner done later d hdest =>
      have hlawful : d.Lawful is := hmade.lawful (by simp)
      have hop : d.entry.op = some .jump ∨ d.entry.op = some .jumpi := hop
      have hchain : (d :: later).IsChain fun a b => sameBlock a b = true :=
        (List.isChain_append.1 hmade.chain).2.1
      obtain rfl : later = [] := eq_nil_of_endsBlock hchain (baseGas_of_jump hlawful hop).1
      rcases hleads with harg | ⟨harg, -⟩
      · obtain ⟨-, w, hw, htarget⟩ := of_innerArg_eq_target harg
        obtain ⟨b₁, hb₁, hstart, hentry⟩ := exists_block_of_jumpTarget htarget
        refine .inr ?_
        rw [← start_eq_of_entry_eq hb₁ hb' hentry, hmade.eq]
        refine constantTarget_subset hop (mem_constantTarget_iff.2 ⟨w, hw, ?_, hstart⟩)
        rw [htarget]
        rfl
      · refine .inl ⟨hop, ?_, harg, hstep⟩
        obtain ⟨hlt, -⟩ := readAt_of_mem_decodedFrom (hmade.mem_decodedFrom (d := d) (by simp))
        have hnext := hlawful.next_of_endsBlock (baseGas_of_jump hlawful hop).1
        rw [hmade.stop_eq]
        show d.pc + 1 = min d.next code.size
        omega

/-- **Control leaves a block for one of its successors**, unless by a jump that was not resolved. -/
theorem passes_to_successor (hcode : s.code = analyze is code)
    (hins : (analyze is code).instructions[c]? = some ins) :
    ∃ b, (analyze is code).blockAt ins.pc = some b ∧
      ∀ b' ∈ (analyze is code).blocks.toList, ∀ m', turn s guarded c m = .jumped b'.entry m' →
        LeavesUnresolved s guarded b b' ins m m' ∨ b'.start ∈ b.successors := by
  obtain ⟨b, before, seg, after, k, hmade, hc, hview⟩ := exists_madeFrom hins
  obtain ⟨d, hd, hpc⟩ := hview.exists_pc
  have hat : (analyze is code).blockAt ins.pc = some b := by
    rw [hpc]
    exact blockAt_eq_some_iff.2 ⟨hmade.mem, hmade.within hd⟩
  refine ⟨b, hat, ?_⟩
  intro b' hb' m' hturn
  obtain ⟨ins', hins', hstep⟩ := of_turn_jumped hturn
  rw [hcode, hins] at hins'
  cases hins'
  rcases hstep with ⟨hstep, hentry⟩ | hstep
  · rw [hc] at hentry
    exact .inr (passes_next hmade hview hb' hentry hstep)
  · exact passes_jump hmade hview hb' hstep

/-! ## The word that a resolved jump finds -/

/-- **A run stands at a place where the word that was pushed right before is on top of the stack.** -/
def Primed (is : InstructionSet) (code : ByteArray) (c : Nat) (m : Machine σ) : Prop :=
  ∃ pc pushed rest post, Place is code c pc pushed rest post ∧
    ∀ w, pushed = some w → m.stack.peek? 0 = some w

/-- Runs start so. -/
theorem Primed.start (is : InstructionSet) (code : ByteArray) (m : Machine σ) :
    Primed is code 0 m := by
  refine ⟨0, none, [], _, Place.start is code, ?_⟩
  intro w hw
  cases hw

/-- Jumps lead to the entries of blocks, which nothing is pushed right before. -/
theorem Primed.of_jump {w : Word} (h : (analyze is code).jumpTarget w = some c) (m : Machine σ) :
    Primed is code c m := by
  obtain ⟨d, rest, post, -, hplace⟩ := Place.of_jump h
  refine ⟨w.toNat, none, [], _, hplace, ?_⟩
  intro w hw
  cases hw

/-- **Every turn keeps to the invariant**, whatever the host does. -/
theorem Primed.turn (hcode : s.code = analyze is code) (hprimed : Primed is code c m)
    (hturn : turn s guarded c m = .jumped c' m') : Primed is code c' m' := by
  obtain ⟨pc, pushed, rest, post, hplace, -⟩ := hprimed
  cases hplace.moves hcode hturn with
  | own _ hnext =>
      refine ⟨_, _, _, _, hnext, ?_⟩
      intro w hw
      cases hw
  | dest hop hlawful _ hnext =>
      refine ⟨_, _, _, _, hnext, ?_⟩
      -- a jump destination pushes nothing
      intro w hw
      obtain ⟨n, hpush⟩ := hlawful.op_of_immediate w hw
      rw [hop] at hpush
      cases hpush
  | inner _ hlawful hstep hnext =>
      refine ⟨_, _, _, _, hnext, ?_⟩
      intro w hw
      exact immediate_on_top hlawful hw hstep
  | jump hw => exact .of_jump hw m'

/-- **Where a resolved jump stands, the word that it pops is the one that it was resolved for.** -/
theorem Primed.resolved (hprimed : Primed is code c m)
    (hins : (analyze is code).instructions[c]? = some ins) {t : Nat} (harg : ins.arg = .target t) :
    (ins.op = some .jump ∨ ins.op = some .jumpi) ∧
      ∃ dest st, m.stack.pop? = some (dest, st) ∧ (analyze is code).jumpTarget dest = some t := by
  obtain ⟨pc, pushed, rest, post, hplace, htop⟩ := hprimed
  cases hplace.view with
  | stop hnone _ =>
      rw [hnone] at hins
      cases hins
  | own _ hsome _ =>
      rw [hsome] at hins
      cases hins
      cases harg
  | dest _ _ _ _ hsome _ =>
      rw [hsome] at hins
      cases hins
      cases harg
  | inner _ _ _ _ hsome _ =>
      rw [hsome] at hins
      cases hins
      obtain ⟨hop, w, hw, htarget⟩ := of_innerArg_eq_target harg
      obtain ⟨st, hpop⟩ := Stack.pop?_of_peek? (htop w hw)
      exact ⟨hop, w, st, hpop, htarget⟩

/-! ## Runs -/

/-- What a run does with control at one instruction: a jump that was resolved finds a word that leads
    to its target; a jump that is taken goes where the word leads that it pops; and if the run passes
    to the entry of a block, that is a successor of the block that it comes from, or the jump there
    was not resolved. -/
structure FlowsAt (s : Setting σ) (guarded : Bool) (c : Nat) (ins : Instruction) (m : Machine σ) :
    Prop where
  resolved : ∀ t, ins.arg = .target t → (ins.op = some .jump ∨ ins.op = some .jumpi) ∧
    ∃ dest st, m.stack.pop? = some (dest, st) ∧ s.code.jumpTarget dest = some t
  taken : ∀ c' m', step s guarded ins m = .ok (.jump c') m' →
    ∃ dest st, m.stack.pop? = some (dest, st) ∧ s.code.jumpTarget dest = some c'
  passes : ∃ b, s.code.blockAt ins.pc = some b ∧
    ∀ b' ∈ s.code.blocks.toList, ∀ m', turn s guarded c m = .jumped b'.entry m' →
      LeavesUnresolved s guarded b b' ins m m' ∨ b'.start ∈ b.successors

/-- Control flows so at every place that a run comes to. -/
theorem Primed.flowsAt (hcode : s.code = analyze is code) (hprimed : Primed is code c m)
    (hins : (analyze is code).instructions[c]? = some ins) : FlowsAt s guarded c ins m := by
  constructor
  · intro t harg
    rw [hcode]
    exact hprimed.resolved hins harg
  · intro c' m' hstep
    obtain ⟨-, dest, st, hpop, harg | ⟨-, htarget⟩⟩ := of_step_jump hstep
    · rw [hcode]
      exact (hprimed.resolved hins harg).2
    · exact ⟨dest, st, hpop, htarget⟩
  · rw [hcode]
    exact passes_to_successor hcode hins

/-- **The control flow that the analysis finds is the control flow of every run.** In every state that
    the run of a new frame `Reaches`, on any host, control flows along the successors and the resolved
    jumps (`FlowsAt`); and every one of the `successors` is the start of a block. -/
theorem control_flow_sound (config : Config) (host : Host σ) (context : CallContext)
    (input : ByteArray) (gasLimit : Nat) (code : ByteArray) (memory : Memory) (state : σ)
    (guarded : Bool) {c : Nat} {m : Machine σ} {ins : Instruction}
    (hreach :
      let frame := Frame.fresh config context input gasLimit code
      Reaches (turn (frame.setting config host) guarded) frame.cursor (frame.machine memory state) c m)
    (hins : (analyze (.ofFork config.fork) code).instructions[c]? = some ins) :
    FlowsAt ((Frame.fresh config context input gasLimit code).setting config host) guarded c ins m ∧
      ∀ b ∈ (analyze (.ofFork config.fork) code).blocks.toList, ∀ p ∈ b.successors,
        ∃ b' ∈ (analyze (.ofFork config.fork) code).blocks.toList, b'.start = p := by
  have hprimed : Primed (.ofFork config.fork) code c m :=
    hreach.invariant (Primed.start _ code _) fun hprimed hturn => hprimed.turn rfl hturn
  refine ⟨hprimed.flowsAt rfl hins, ?_⟩
  intro b hb p hp
  exact exists_block_of_mem_successors hb hp

/-- A jump over nothing, to the destination right after it. -/
def pushAndJump : ByteArray := ⟨#[0x60, 0x03, 0x56, 0x5b, 0x00]⟩

/-- The frame of `pushAndJump` on an empty world: the jump is resolved, and finds the word that was
    pushed for it. -/
theorem control_flow_sound_pushAndJump :
    let frame := Frame.fresh {} {} .empty 100 pushAndJump
    let s := frame.setting {} ({} : Chain).host
    ∃ m ins, Reaches (turn s false) 0 (frame.machine (.new 64) {}) 2 m ∧
      s.code.instructions[2]? = some ins ∧ ins.op = some .jump ∧ ins.arg = .target 3 ∧
      m.stack.toList = [3#256] ∧ FlowsAt s false 2 ins m := by
  intro frame s
  have hentry : s.code.instructions[0]? = some (.blockEntry 0 ⟨11, 0, 1⟩) := by decide +kernel
  have hpush : s.code.instructions[1]? = some ⟨0, 0x60, some (.push 1), .push 3⟩ := by decide +kernel
  have hjump : s.code.instructions[2]? = some ⟨2, 0x56, some .jump, .target 3⟩ := by decide +kernel
  have hfirst : turn s false 0 (frame.machine (.new 64) {}) =
      .jumped 1 { frame.machine (.new 64) {} with gas := ⟨100, 89, 0⟩ } := by
    rw [turn_of_getElem? rfl hentry]
    rfl
  have hsecond : turn s false 1 { frame.machine (.new 64) {} with gas := ⟨100, 89, 0⟩ } =
      .jumped 2 { frame.machine (.new 64) {} with
        gas := ⟨100, 89, 0⟩
        stack := ⟨Stack.empty.slots.set 0 3#256, 1, by decide⟩ } := by
    rw [turn_of_getElem? rfl hpush]
    rfl
  have hreach := (Reaches.refl.tail hfirst).tail hsecond
  exact ⟨_, _, hreach, hjump, rfl, rfl, by decide +kernel,
    (control_flow_sound {} ({} : Chain).host {} .empty 100 pushAndJump (.new 64) {} false hreach
      hjump).1⟩

end MeteredEvm
