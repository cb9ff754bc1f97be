import MeteredEvm.World.Call
import MeteredEvm.Proofs.Stream
import MeteredEvm.Proofs.Turn

/-!
# `MeteredEvm.Proofs.StackSafety` — one check a block is enough

The instructions of a block touch the stack without looking at its height. What makes this safe is an
invariant of runs: wherever a run stands in a block, the rest of the block fits the stack
(`Walking`). The entry of a block establishes it, an instruction takes it to the rest of its block,
and a jump leads to an entry, where nothing is needed.

## Contents
* `of_enter_ok`, `enter_ok` — passing the entry of a block.
* `inner_typed`, `inner_jump` — instructions that are not entries.
* `Moves`, `Place.moves` — where one turn leads.
* `Walking`, `Walking.turn` — the invariant.
* `stack_safe` — heights, and where faults about them come from.
-/

namespace MeteredEvm

variable {σ : Type} {is : InstructionSet} {code : ByteArray} {s : Setting σ} {guarded : Bool}
  {c c' pc : Nat} {m m' : Machine σ} {ins : Instruction} {flow : Flow} {d : Decoded}
  {later : List Decoded} {pushed : Option Word}

/-! ## Entries -/

/-- Past the entry of a block, the block is paid for and fits the stack. -/
theorem of_enter_ok {seg : List Decoded} (hop : ins.op = some .jumpDest)
    (harg : ins.arg = .block (Tally.ofSegment seg).cost) (h : step s guarded ins m = .ok flow m') :
    flow = .next ∧ ∃ g, m.gas.charge? (gasOf seg) = some g ∧ m' = { m with gas := g } ∧
      Fits m.stack.height seg := by
  rw [step_enter hop harg, show (Tally.ofSegment seg).cost.gas = gasOf seg from Tally.gas_ofSegment seg]
    at h
  cases hcharge : m.gas.charge? (gasOf seg) with
  | none =>
      rw [hcharge] at h
      cases h
  | some g =>
      rw [hcharge] at h
      dsimp only at h
      repeat' split at h
      · cases h
      · cases h
      · cases h
        refine ⟨rfl, g, rfl, rfl, ?_⟩
        rw [← Tally.admits_iff seg m.stack.height_le]
        exact ⟨by omega, by omega⟩

/-- A block that is paid for and fits the stack is entered. -/
theorem enter_ok {seg : List Decoded} {g : Meter} (hop : ins.op = some .jumpDest)
    (harg : ins.arg = .block (Tally.ofSegment seg).cost)
    (hcharge : m.gas.charge? (gasOf seg) = some g) (hfits : Fits m.stack.height seg) :
    step s guarded ins m = .ok .next { m with gas := g } := by
  obtain ⟨hrequired, hgrowth⟩ := (Tally.admits_iff seg m.stack.height_le).2 hfits
  rw [step_enter hop harg, show (Tally.ofSegment seg).cost.gas = gasOf seg from Tally.gas_ofSegment seg,
    hcharge]
  dsimp only
  rw [if_neg (by omega), if_neg (by omega)]

/-- The entry of a block fails by a fault only. -/
theorem of_enter_error {cost : BlockCost} {e : Failure} (hop : ins.op = some .jumpDest)
    (harg : ins.arg = .block cost) (h : step s guarded ins m = .error e m') : ∃ f, e = .fault f := by
  rw [step_enter hop harg] at h
  repeat' split at h
  all_goals cases h
  all_goals exact ⟨_, rfl⟩

/-! ## Instructions that are not entries -/

/-- What fitting says about the first instruction, in terms of what it does. -/
theorem inner_room {h : Nat} {op : Op} (hlawful : d.Lawful is) (hdest : d.isJumpDest = false)
    (hop : d.entry.op = some op) (hfits : Fits h (d :: later)) :
    op ≠ .jumpDest ∧ ∃ h₀, h = h₀ + op.inputs ∧ d.entry.heightAfter h = h₀ + op.outputs ∧
      h₀ + op.outputs ≤ stackLimit := by
  obtain ⟨hin, hroom, -⟩ := hfits
  unfold Entry.heightAfter at hroom ⊢
  rw [hlawful.entry_of_op op hop] at hin hroom ⊢
  constructor
  · rintro rfl
    rw [hlawful.isJumpDest_iff.2 hop] at hdest
    cases hdest
  · exact ⟨h - op.inputs, (Nat.sub_add_cancel hin).symm, rfl, hroom⟩

/-- An instruction with inputs and room does to the stack what its entry says. -/
theorem inner_typed {b h : Nat} {op : Op} {target : Word → Option Nat} (hlawful : d.Lawful is)
    (hdest : d.isJumpDest = false) (hop : d.entry.op = some op) (hfits : Fits h (d :: later)) :
    Typed s op.sight b h (d.entry.heightAfter h)
      (step s guarded (innerInstruction target pushed d later)) := by
  obtain ⟨hne, h₀, hheight, hafter, hroom⟩ := inner_room hlawful hdest hop hfits
  rw [hafter, hheight]
  exact step_typed guarded hop hne hroom

/-- Its height afterwards, and its failures; a byte that the fork does not define faults. -/
theorem inner_height (s : Setting σ) (guarded : Bool) (target : Word → Option Nat)
    (pushed : Option Word) (hlawful : d.Lawful is) (hdest : d.isJumpDest = false)
    (hfits : Fits m.stack.height (d :: later)) :
    Exec.Yields (step s guarded (innerInstruction target pushed d later) m)
      (fun _ m' => m'.stack.height = d.entry.heightAfter m.stack.height) (s.Permits .gives) := by
  cases hop : d.entry.op with
  | some op =>
      have htyped : Typed s op.sight 0 m.stack.height (d.entry.heightAfter m.stack.height)
          (step s guarded (innerInstruction target pushed d later)) :=
        inner_typed hlawful hdest hop hfits
      exact (htyped.height m rfl).weaken fun _ => Setting.Permits.weaken
  | none =>
      have hstep : step s guarded (innerInstruction target pushed d later) =
          Exec.fault (.invalidOpcode d.entry.opcode) := by
        unfold step
        rw [show (innerInstruction target pushed d later).op = none from hop]
        rfl
      rw [hstep]
      exact ⟨by simp, by simp⟩

/-- Only jumps are resolved, for the word that is pushed right before. -/
theorem of_innerArg_eq_target {target : Word → Option Nat} {index : Nat}
    (h : innerArg target pushed d later = .target index) :
    (d.entry.op = some .jump ∨ d.entry.op = some .jumpi) ∧
      ∃ w, pushed = some w ∧ target w = some index := by
  unfold innerArg at h
  repeat' split at h
  all_goals cases h
  rename_i hjump _ hbind
  refine ⟨?_, Option.bind_eq_some_iff.1 hbind⟩
  simpa [Analysis.isJump] using hjump

/-- Only the jump instructions jump, and only to where some word leads. -/
theorem inner_jump {target : Nat} (hcode : s.code = analyze is code)
    (h : step s guarded (innerInstruction (analyze is code).jumpTarget pushed d later) m =
      .ok (.jump target) m') :
    (d.entry.op = some .jump ∨ d.entry.op = some .jumpi) ∧
      ∃ w, (analyze is code).jumpTarget w = some target := by
  obtain ⟨hop, dest, -, -, hleads⟩ := of_step_jump h
  refine ⟨hop, ?_⟩
  rcases hleads with harg | ⟨-, htarget⟩
  · -- the target was resolved by the analysis, from the word pushed right before
    obtain ⟨-, w, -, hw⟩ := of_innerArg_eq_target harg
    exact ⟨w, hw⟩
  · rw [hcode] at htarget
    exact ⟨dest, htarget⟩

/-- The two jump instructions end their block and cost more than nothing. -/
theorem baseGas_of_jump (hlawful : d.Lawful is)
    (hop : d.entry.op = some .jump ∨ d.entry.op = some .jumpi) :
    d.entry.endsBlock = true ∧ 0 < d.entry.baseGas := by
  rcases hop with hop | hop
  · rw [hlawful.entry_of_op _ hop]
    exact ⟨rfl, Nat.zero_lt_succ 7⟩
  · rw [hlawful.entry_of_op _ hop]
    exact ⟨rfl, Nat.zero_lt_succ 9⟩

/-! ## One turn -/

/-- **Where one turn leads from a place**: past the entry of a block, which makes sure that the block
    fits; past an instruction inside of one; or along a jump. -/
inductive Moves (s : Setting σ) (guarded : Bool) (is : InstructionSet) (code : ByteArray)
    (c pc : Nat) (pushed : Option Word) (m : Machine σ) :
    List Decoded → List (List Decoded) → Nat → Machine σ → Prop where
  | own {d : Decoded} {later : List Decoded} {post : List (List Decoded)} {g : Meter}
      (hfits : Fits m.stack.height (d :: later))
      (hnext : Place is code (c + 1) pc none (d :: later) post) :
      Moves s guarded is code c pc pushed m [] ((d :: later) :: post) (c + 1) { m with gas := g }
  | dest {d : Decoded} {later : List Decoded} {post : List (List Decoded)} {g : Meter}
      (hop : d.entry.op = some .jumpDest) (hlawful : d.Lawful is)
      (hfits : Fits m.stack.height (d :: later))
      (hnext : Place is code (c + 1) d.next d.immediate later post) :
      Moves s guarded is code c pc pushed m [] ((d :: later) :: post) (c + 1) { m with gas := g }
  | inner {d : Decoded} {later : List Decoded} {post : List (List Decoded)} {m' : Machine σ}
      (hdest : d.isJumpDest = false) (hlawful : d.Lawful is)
      (hstep : step s guarded (innerInstruction (analyze is code).jumpTarget pushed d later) m =
        .ok .next m')
      (hnext : Place is code (c + 1) d.next d.immediate later post) :
      Moves s guarded is code c pc pushed m (d :: later) post (c + 1) m'
  | jump {rest : List Decoded} {post : List (List Decoded)} {w : Word} {c' : Nat} {m' : Machine σ}
      (h : (analyze is code).jumpTarget w = some c') :
      Moves s guarded is code c pc pushed m rest post c' m'

theorem Place.moves {rest : List Decoded} {post : List (List Decoded)}
    (hcode : s.code = analyze is code) (hplace : Place is code c pc pushed rest post)
    (hturn : turn s guarded c m = .jumped c' m') :
    Moves s guarded is code c pc pushed m rest post c' m' := by
  obtain ⟨ins, hins', hstep⟩ := of_turn_jumped hturn
  rw [hcode] at hins'
  cases hplace.view with
  | stop hins _ =>
      rw [hins] at hins'
      cases hins'
  | own _ hins hnext =>
      rw [hins] at hins'
      cases hins'
      rcases hstep with ⟨hstep, rfl⟩ | hstep
      · obtain ⟨-, g, -, rfl, hfits⟩ := of_enter_ok rfl rfl hstep
        exact .own hfits hnext
      · cases (of_enter_ok rfl rfl hstep).1
  | dest hdest hlawful _ _ hins hnext =>
      rw [hins] at hins'
      cases hins'
      have hop := hlawful.isJumpDest_iff.1 hdest
      rcases hstep with ⟨hstep, rfl⟩ | hstep
      · obtain ⟨-, g, -, rfl, hfits⟩ := of_enter_ok hop rfl hstep
        exact .dest hop hlawful hfits hnext
      · cases (of_enter_ok hop rfl hstep).1
  | inner hdest hlawful _ _ hins hnext =>
      rw [hins] at hins'
      cases hins'
      rcases hstep with ⟨hstep, rfl⟩ | hstep
      · exact .inner hdest hlawful hstep hnext
      · obtain ⟨-, w, hw⟩ := inner_jump hcode hstep
        exact .jump hw

/-! ## The invariant -/

/-- **A run stands at a place whose rest of the block fits the stack** (`Place`, `Fits`). -/
def Walking (is : InstructionSet) (code : ByteArray) (c : Nat) (m : Machine σ) : Prop :=
  ∃ pc pushed rest post, Place is code c pc pushed rest post ∧ Fits m.stack.height rest

/-- Runs start so. -/
theorem Walking.start (is : InstructionSet) (code : ByteArray) (m : Machine σ) :
    Walking is code 0 m :=
  ⟨0, none, [], _, Place.start is code, trivial⟩

/-- Jumps lead there. -/
theorem Walking.of_jump {w : Word} (h : (analyze is code).jumpTarget w = some c) (m : Machine σ) :
    Walking is code c m := by
  obtain ⟨d, rest, post, -, hplace⟩ := Place.of_jump h
  exact ⟨w.toNat, none, [], _, hplace, trivial⟩

/-- **Every turn keeps to the invariant**, whatever the host does. -/
theorem Walking.turn (hcode : s.code = analyze is code) (hwalk : Walking is code c m)
    (hturn : turn s guarded c m = .jumped c' m') : Walking is code c' m' := by
  obtain ⟨pc, pushed, rest, post, hplace, hfits⟩ := hwalk
  cases hplace.moves hcode hturn with
  -- entries make sure that their block fits
  | own hseg hnext => exact ⟨_, _, _, _, hnext, hseg⟩
  | dest hop hlawful hseg hnext =>
      refine ⟨_, _, _, _, hnext, ?_⟩
      have hafter := hseg.2.2
      rw [hlawful.entry_of_op _ hop] at hafter
      exact hafter
  -- any other instruction leaves the height that the rest of its block was checked with
  | inner hdest hlawful hstep hnext =>
      have hheight :=
        inner_height s guarded (analyze is code).jumpTarget pushed hlawful hdest hfits
      refine ⟨_, _, _, _, hnext, ?_⟩
      rw [hheight.of_ok hstep]
      exact hfits.2.2
  | jump hw => exact .of_jump hw m'

/-- The entry of an instruction of the stream, if it is not the entry of a block. -/
theorem entry_of_inner (hlawful : d.Lawful is) (target : Word → Option Nat) (pushed : Option Word)
    (later : List Decoded) : is.entry (innerInstruction target pushed d later).opcode = d.entry :=
  hlawful.entry.symm

/-- The entry of a block changes no height. -/
theorem stackChange_jumpDest (is : InstructionSet) : (is.entry jumpDestByte).stackChange = 0 := by
  obtain ⟨op, hbyte, -, hentry⟩ | ⟨-, hentry⟩ := is.entry_cases jumpDestByte
  · rw [Op.ofByte?_jumpDest] at hbyte
    cases hbyte
    rw [hentry]
    rfl
  · rw [hentry]
    rfl

/-- What one instruction of a run finds and does: unless it is the entry of a block, its inputs are
    there and its outputs have room; if the run goes on, the height changes as its entry says; only
    entries of blocks fault for the height, and the stack does not trap unless the host itself
    reports that. -/
structure SafeAt (s : Setting σ) (guarded : Bool) (is : InstructionSet) (ins : Instruction)
    (m : Machine σ) : Prop where
  room : ins.op ≠ some .jumpDest →
    (is.entry ins.opcode).inputs ≤ m.stack.height ∧
      m.stack.height - (is.entry ins.opcode).inputs + (is.entry ins.opcode).outputs ≤ stackLimit
  change : ∀ flow m', step s guarded ins m = .ok flow m' →
    (∃ e, flow = .halt e) ∨
      (m'.stack.height : Int) = m.stack.height + (is.entry ins.opcode).stackChange
  fault : ∀ f m', step s guarded ins m = .error (.fault f) m' →
    f = .stackUnderflow ∨ f = .stackOverflow → ins.op = some .jumpDest
  trap : ∀ m', step s guarded ins m = .error (.trap .stack) m' →
    ∃ req memory state, s.host.call req memory state = .error .stack

/-- A walking run is safe at its next instruction. -/
theorem Walking.safeAt (hcode : s.code = analyze is code) (hwalk : Walking is code c m)
    (hins : s.code.instructions[c]? = some ins) : SafeAt s guarded is ins m := by
  -- the entry of a block leaves the stack alone
  have entry {seg : List Decoded} (hop : ins.op = some .jumpDest) (hbyte : ins.opcode = jumpDestByte)
      (harg : ins.arg = .block (Tally.ofSegment seg).cost) : SafeAt s guarded is ins m :=
    { room := fun hne => absurd hop hne
      change := fun flow m' hstep => by
        obtain ⟨-, g, -, rfl, -⟩ := of_enter_ok hop harg hstep
        rw [hbyte, stackChange_jumpDest]
        exact .inr (Int.add_zero _).symm
      fault := fun _ _ _ _ => hop
      trap := fun m' hstep => by
        obtain ⟨f, hf⟩ := of_enter_error hop harg hstep
        cases hf }
  obtain ⟨pc, pushed, rest, post, hplace, hfits⟩ := hwalk
  rw [hcode] at hins
  cases hplace.view with
  | stop hnone _ =>
      rw [hnone] at hins
      cases hins
  | own _ hsome _ =>
      rw [hsome] at hins
      cases hins
      exact entry rfl rfl rfl
  | dest hdest hlawful _ _ hsome _ =>
      rw [hsome] at hins
      cases hins
      exact entry (hlawful.isJumpDest_iff.1 hdest) (beq_iff_eq.1 hdest) rfl
  | @inner d later _ hdest hlawful _ _ hsome _ =>
      rw [hsome] at hins
      cases hins
      have hheight := inner_height s guarded (analyze is code).jumpTarget pushed hlawful hdest hfits
      obtain ⟨hin, hroom, -⟩ := hfits
      refine ⟨fun _ => ?_, fun flow m' hstep => .inr ?_, fun f m' hstep hf => ?_, fun m' hstep => ?_⟩
      · rw [entry_of_inner hlawful]
        exact ⟨hin, hroom⟩
      · rw [entry_of_inner hlawful, hheight.of_ok hstep]
        unfold Entry.heightAfter Entry.stackChange
        omega
      · have hpermits := hheight.of_error hstep
        rcases hf with rfl | rfl
        · exact absurd rfl hpermits.1
        · exact absurd rfl hpermits.2
      · exact (hheight.of_error hstep rfl).2

/-- The frame of a code that has not run. -/
def Frame.fresh (config : Config) (context : CallContext) (input : ByteArray) (gasLimit : Nat)
    (code : ByteArray) : Frame :=
  .new context input gasLimit (analyze (.ofFork config.fork) code)

/-- **Stack safety.** In every state that the run of a new frame `Reaches`, on any host, the next
    instruction is safe (`SafeAt`). -/
theorem stack_safe (config : Config) (host : Host σ) (context : CallContext) (input : ByteArray)
    (gasLimit : Nat) (code : ByteArray) (memory : Memory) (state : σ) (guarded : Bool) {c : Nat}
    {m : Machine σ} {ins : Instruction}
    (hreach :
      let frame := Frame.fresh config context input gasLimit code
      Reaches (turn (frame.setting config host) guarded) frame.cursor (frame.machine memory state) c m)
    (hins : (analyze (.ofFork config.fork) code).instructions[c]? = some ins) :
    SafeAt ((Frame.fresh config context input gasLimit code).setting config host) guarded
      (.ofFork config.fork) ins m := by
  have hwalk : Walking (.ofFork config.fork) code c m :=
    hreach.invariant (Walking.start _ code _) fun hwalk hturn => hwalk.turn rfl hturn
  exact hwalk.safeAt rfl hins

/-- The program counter, pushed and dropped. -/
def pushAndDrop : ByteArray := ⟨#[0x58, 0x50]⟩

theorem decoded_pushAndDrop (is : InstructionSet) :
    decodedFrom is pushAndDrop 0 =
      [⟨0, Entry.ofOp is.schedule (.reading .pc), none⟩, ⟨1, Entry.ofOp is.schedule .pop, none⟩] := by
  rw [decodedFrom_cons 0x58 (.reading .pc) rfl (by decide) rfl rfl,
    decodedFrom_cons 0x50 .pop rfl (by decide) rfl rfl, decodedFrom_of_le (by decide)]

/-- The frame of `pushAndDrop` on an empty world: past the first instruction there is one word on the
    stack, and the second one takes it off. -/
theorem stack_safe_pushAndDrop :
    let frame := Frame.fresh {} {} .empty 100 pushAndDrop
    let s := frame.setting {} ({} : Chain).host
    ∃ m ins, Reaches (turn s false) 0 (frame.machine (.new 64) {}) 2 m ∧
      s.code.instructions[2]? = some ins ∧ ins.op = some .pop ∧ m.stack.height = 1 ∧
      SafeAt s false (.ofFork .cancun) ins m := by
  intro frame s
  have hsegments : segments (decodedFrom (.ofFork .cancun) pushAndDrop 0) =
      [decodedFrom (.ofFork .cancun) pushAndDrop 0] := by
    rw [decoded_pushAndDrop]
    rfl
  have hplace := Place.start (.ofFork .cancun) pushAndDrop
  rw [hsegments, decoded_pushAndDrop] at hplace
  obtain ⟨hentry, hplace⟩ := hplace.ownEntry rfl
  obtain ⟨hpc, hplace⟩ := hplace.inner_step
  obtain ⟨hpop, -⟩ := hplace.inner_step
  have hfirst : turn s false 0 (frame.machine (.new 64) {}) =
      .jumped 1 { frame.machine (.new 64) {} with gas := ⟨100, 96, 0⟩ } := by
    rw [turn_of_getElem? rfl hentry]
    rfl
  have hsecond : turn s false 1 { frame.machine (.new 64) {} with gas := ⟨100, 96, 0⟩ } =
      .jumped 2 { frame.machine (.new 64) {} with
        gas := ⟨100, 96, 0⟩
        stack := ⟨Stack.empty.slots.set 0 0#256, 1, by decide⟩ } := by
    rw [turn_of_getElem? rfl hpc]
    rfl
  have hreach := (Reaches.refl.tail hfirst).tail hsecond
  exact ⟨_, _, hreach, hpop, rfl, rfl,
    stack_safe {} ({} : Chain).host {} .empty 100 pushAndDrop (.new 64) {} false hreach hpop⟩

end MeteredEvm
