import MeteredEvm.Proofs.Conservation

/-!
# `MeteredEvm.Proofs.Plain` — a machine without blocks

The plain machine reads the code byte by byte. Before each instruction it checks the ban on state
changes, pays the static price of that instruction and checks the stack for it; every jump is looked
up in the code, and instructions that look at the meter see it as it is. It is what the machine that
pays by blocks is measured against.

## Contents
* `Plain.exec`, `Plain.step`, `Plain.turn`, `Plain.run` — the plain machine.
* `Plain.of_step_ok`, `Plain.step_eq` — what lets an instruction pass.
* `Plain.step_holds` — an instruction pays its static price.
* `Plain.exec_next`, `Plain.exec_halt`, `Plain.op_of_jump` — where control goes.
* `Plain.descent`, `Plain.ends`, `Plain.run_ok` — runs of the plain machine end.
-/

namespace MeteredEvm

open Exec

variable {σ : Type} {is : InstructionSet} {code : ByteArray} {s : Setting σ} {guarded : Bool}
  {sound : Prop} {limit g r b h c c' : Nat} {m m' : Machine σ} {op : Op} {d : Decoded} {flow : Flow}

namespace Plain

/-! ## The machine -/

/-- The instruction of the stream that carries nothing but the immediate of an instruction. -/
def bare (d : Decoded) : Instruction where
  pc := d.pc
  opcode := d.entry.opcode
  op := d.entry.op
  arg := match d.immediate with
    | some w => .push w
    | none => .none

/-- The byte that a jump to `dest` goes to. The places of a code are 64-bit quantities. -/
def destination (code : ByteArray) (dest : Word) : Exec σ Nat :=
  if dest.toNat < u64Size ∧ (JumpMap.scan code).isSet dest.toNat = true then pure dest.toNat
  else fault .invalidJump

/-- A jump. -/
def jump (code : ByteArray) : Exec σ Flow := do
  let dest ← pop
  return .jump (← destination code dest)

/-- A jump if a word is not zero. -/
def jumpi (code : ByteArray) : Exec σ Flow := do
  let dest ← pop
  let condition ← pop
  if condition = 0#256 then return .next
  else return .jump (← destination code dest)

/-- Push the gas that is left. -/
def gas : Exec σ Unit := do push (BitVec.ofNat 256 (← remaining))

/-- The effect of an instruction: that of the stream, but jumps go to bytes, and instructions that
    look at the meter see it as it is. -/
def exec (s : Setting σ) (code : ByteArray) (d : Decoded) : Op → Exec σ Flow
  | .gas => andNext gas
  | .sstore => andNext (Effect.sstore s)
  | .create salted => andNext (Effect.create s salted)
  | .call kind => andNext (Effect.call s kind)
  | .jump => jump code
  | .jumpi => jumpi code
  | .jumpDest => return .next
  | op => op.exec s (bare d)

/-- Instructions that go on to the next one or end the frame, and do not look at the meter: the plain
    machine runs them as the stream has them. -/
def ordinary : Op → Bool
  | .gas | .sstore | .create _ | .call _ | .jump | .jumpi | .jumpDest => false
  | _ => true

/-- Fault unless the stack is high enough for an instruction, and low enough. -/
def checkStack (e : Entry) : Exec σ Unit := do
  let height := (← get).stack.height
  if height < e.minStack then fault .stackUnderflow
  else if e.maxStack < height then fault .stackOverflow

/-- One instruction. A byte that the fork does not define costs nothing and faults. -/
def step (s : Setting σ) (guarded : Bool) (code : ByteArray) (d : Decoded) : Exec σ Flow := do
  match d.entry.op with
  | some op => do
    checkStatic guarded op
    charge d.entry.baseGas
    checkStack d.entry
    exec s code d op
  | none => fault (.invalidOpcode d.entry.opcode)

/-- One turn of the loop over the bytes of the code. -/
def turn (s : Setting σ) (is : InstructionSet) (guarded : Bool) (code : ByteArray) : Turn σ :=
  fun pc m =>
    match code[pc]? with
    | none => .ended ⟨pc, .ok .stop, m⟩
    | some opcode =>
      let d := Decoded.readAt is code pc opcode
      afterStep pc d.next (step s guarded code d m)

/-- More turns than a meter pays for: between two jumps a run goes forward. -/
def turns (gasLimit : Nat) (code : ByteArray) : Nat := gasLimit * (code.size + 1) + code.size + 1

/-- Run a code in a new frame: the result, the stack and the host that it leaves. -/
def run (config : Config) (host : Host σ) (context : CallContext) (input : ByteArray)
    (gasLimit : Nat) (code : ByteArray) (memory : Memory) (state : σ) :
    Except Trap (Result × Stack × σ) :=
  let f := Frame.fresh config context input gasLimit code
  let (guarded, state) := host.guard context state
  match iterate (turn (f.setting config host) (.ofFork config.fork) guarded code)
      (turns gasLimit code) 0 (f.machine memory.enter state) with
  | none => .error .jumps
  | some e =>
    match untrapped e.halt with
    | .error t => .error t
    | .ok halt =>
      let (_, outcome, gas) := settle halt e.machine.gas
      .ok (.ofMeter outcome gas, e.machine.stack, e.machine.host)

/-! ## What lets an instruction pass -/

/-- No instruction puts on more than one word more than it takes off. -/
theorem outputs_le (op : Op) : op.outputs ≤ op.inputs + 1 := by
  cases op with
  | dup n => exact Nat.le_refl _
  | swap n => exact Nat.le_succ _
  | create salted => exact Nat.le_add_left 1 _
  | call kind => exact Nat.le_add_left 1 _
  | _ => exact Nat.le_of_ble_eq_true rfl

/-- The check on the stack is that the inputs are there and the outputs have room. -/
theorem checkStack_eq (hlawful : d.Lawful is) (hop : d.entry.op = some op) (m : Machine σ) :
    checkStack d.entry m =
      if m.stack.height < d.entry.inputs then .error (.fault .stackUnderflow) m
      else if stackLimit < d.entry.heightAfter m.stack.height then .error (.fault .stackOverflow) m
      else .ok () m := by
  have houtputs : d.entry.outputs ≤ d.entry.inputs + 1 := by
    rw [hlawful.entry_of_op op hop]
    exact outputs_le op
  have hlimit : 0 < stackLimit := by decide
  have hheight := m.stack.height_le
  show (if m.stack.height < d.entry.minStack then fault .stackUnderflow
    else if d.entry.maxStack < m.stack.height then fault .stackOverflow else pure () : Exec σ Unit) m = _
  unfold Entry.minStack Entry.maxStack Entry.heightAfter
  by_cases hlow : m.stack.height < d.entry.inputs
  · rw [if_pos hlow, if_pos hlow]
    rfl
  · rw [if_neg hlow, if_neg hlow]
    by_cases hhigh : stackLimit < m.stack.height - d.entry.inputs + d.entry.outputs
    · have hover : stackLimit - (d.entry.outputs - d.entry.inputs) < m.stack.height := by omega
      rw [if_pos hhigh, if_pos hover]
      rfl
    · have hfits : ¬ stackLimit - (d.entry.outputs - d.entry.inputs) < m.stack.height := by omega
      rw [if_neg hhigh, if_neg hfits]
      rfl

/-- The pieces of one instruction. -/
theorem of_step_ok (hlawful : d.Lawful is) (h : step s guarded code d m = .ok flow m') :
    ∃ op gas, d.entry.op = some op ∧ (guarded && violatesStatic op.effect m.stack) = false ∧
      m.gas.charge? d.entry.baseGas = some gas ∧ d.entry.inputs ≤ m.stack.height ∧
      d.entry.heightAfter m.stack.height ≤ stackLimit ∧
      exec s code d op { m with gas } = .ok flow m' := by
  unfold step at h
  cases hop : d.entry.op with
  | none =>
      rw [hop] at h
      cases h
  | some op =>
      rw [hop] at h
      obtain ⟨⟨⟩, m₁, hcheck, h⟩ := Act.eq_of_bind_ok h
      obtain ⟨⟨⟩, m₂, hcharge, h⟩ := Act.eq_of_bind_ok h
      obtain ⟨⟨⟩, m₃, hstack, h⟩ := Act.eq_of_bind_ok h
      rw [checkStatic_eq] at hcheck
      split at hcheck
      · cases hcheck
      rename_i hban
      cases hcheck
      obtain ⟨gas, hgas, rfl⟩ := of_charge_ok hcharge
      rw [checkStack_eq hlawful hop] at hstack
      repeat' split at hstack
      · cases hstack
      · cases hstack
      rename_i hlow hhigh
      cases hstack
      exact ⟨op, gas, rfl, by simpa using hban, hgas, Nat.not_lt.1 hlow, Nat.not_lt.1 hhigh, h⟩

/-- An instruction that passes is its effect on what is left after paying. -/
theorem step_eq {gas : Meter} (hlawful : d.Lawful is) (hop : d.entry.op = some op)
    (hban : (guarded && violatesStatic op.effect m.stack) = false)
    (hcharge : m.gas.charge? d.entry.baseGas = some gas) (hin : d.entry.inputs ≤ m.stack.height)
    (hroom : d.entry.heightAfter m.stack.height ≤ stackLimit) :
    step s guarded code d m = exec s code d op { m with gas } := by
  have hcheck : checkStatic guarded op m = .ok () m := by
    rw [checkStatic_eq, hban]
    rfl
  have hstack : checkStack d.entry { m with gas } = .ok () { m with gas } := by
    rw [checkStack_eq hlawful hop, if_neg (Nat.not_lt.2 hin), if_neg (Nat.not_lt.2 hroom)]
  unfold step
  rw [hop]
  dsimp only
  rw [Act.bind_ok hcheck, Act.bind_ok (charge_ok hcharge), Act.bind_ok hstack]

/-! ## Bounds -/

theorem destination_typed {v : Sight} (code : ByteArray) (dest : Word) :
    Typed s v b h h (destination code dest) := by
  unfold destination
  split
  · exact .pure _
  · exact .fault _ (by decide) (by decide)

theorem jump_typed {v : Sight} (code : ByteArray) : Typed s v b (h + 1) h (jump code) :=
  .bind .pop fun dest => .bind (destination_typed code dest) fun _ => .pure _

theorem jumpi_typed {v : Sight} (code : ByteArray) : Typed s v b (h + 2) h (jumpi code) := by
  refine .bind .pop fun dest => .bind .pop fun condition => ?_
  split
  · exact .pure _
  · exact .bind (destination_typed code dest) fun _ => .pure _

theorem gas_typed (hh : h < stackLimit) : Typed s .looks b h (h + 1) gas :=
  .bind (remaining_typed (by decide)) fun _ => .push _ hh

theorem exec_of_ordinary (hop : ordinary op = true) : exec s code d op = op.exec s (bare d) := by
  cases op with
  | gas => cases hop
  | sstore => cases hop
  | create salted => cases hop
  | call kind => cases hop
  | jump => cases hop
  | jumpi => cases hop
  | jumpDest => cases hop
  | _ => rfl

theorem ordinary_typed (hop : ordinary op = true) (ins : Instruction)
    (hroom : h + op.outputs ≤ stackLimit) :
    Typed s .blind b (h + op.inputs) (h + op.outputs) (op.exec s ins) := by
  have hsees : op.observesGas = false := by
    cases op with
    | gas => cases hop
    | sstore => cases hop
    | create salted => cases hop
    | call kind => cases hop
    | _ => rfl
  have hne : op ≠ .jumpDest := by
    rintro rfl
    cases hop
  have hsight : op.sight = .blind := by
    unfold Op.sight
    rw [hsees]
    rfl
  rw [← hsight]
  exact Op.exec_typed ins hne hroom

/-- **Effects keep the bounds.** -/
theorem exec_holds (hhost : s.Honest) (hfair : sound → s.Fair) (hlimit : limit < u64Size)
    (hg : g ≤ limit) (hroom : h + op.outputs ≤ stackLimit)
    (hm : Holds sound limit g b (h + op.inputs) m) :
    Yields (exec s code d op m) (fun _ m' => Holds sound limit g b (h + op.outputs) m')
      (Blameless sound) := by
  cases hop : ordinary op with
  | true =>
      rw [exec_of_ordinary hop]
      exact (ordinary_typed hop (bare d) hroom).holds (by decide) hm
  | false =>
      cases op with
      | gas =>
          have htyped : Typed s .looks b h (h + 1) (andNext gas) := andNext_typed (gas_typed hroom)
          exact htyped.holds (by decide) hm
      | sstore => exact (andNext_agrees (Effect.sstore_agrees hm)).2
      | create salted =>
          exact (andNext_agrees (Effect.create_agrees Addition.u64_faithful hhost hfair hlimit salted
            hroom hg hm)).2
      | call kind =>
          exact (andNext_agrees (Effect.call_agrees Addition.u64_faithful hhost hfair hlimit kind hroom
            hg hm)).2
      | jump =>
          have htyped : Typed s .blind b (h + 1) h (jump code) := jump_typed code
          exact htyped.holds (by decide) hm
      | jumpi =>
          have htyped : Typed s .blind b (h + 2) h (jumpi code) := jumpi_typed code
          exact htyped.holds (by decide) hm
      | jumpDest => exact hm
      | _ => cases hop

/-- **An instruction pays its static price** and keeps the bounds. -/
theorem step_holds (hhost : s.Honest) (hfair : sound → s.Fair) (hlimit : limit < u64Size)
    (guarded : Bool) (code : ByteArray) (hlawful : d.Lawful is) (hg : g ≤ limit)
    (hm : Holds sound limit g b h m) :
    Yields (step s guarded code d m)
      (fun _ m' => d.entry.baseGas ≤ g ∧
        Holds sound limit (g - d.entry.baseGas) b (d.entry.heightAfter h) m')
      (Blameless sound) := by
  unfold step
  cases hop : d.entry.op with
  | none => exact blameless_fault _
  | some op =>
      -- the ban and the check on the stack change nothing; paying takes the price off the bound
      have hcheck : Typed s .blind b h h (checkStatic guarded op : Exec σ Unit) :=
        checkStatic_typed guarded op
      refine .bind (hcheck.holds (by decide) hm) fun _ m₁ hm₁ => ?_
      refine .bind (charge_holds _ hm₁) fun _ m₂ ⟨hpaid, hm₂⟩ => ?_
      have hstack : Yields (checkStack d.entry m₂)
          (fun _ m' => m' = m₂ ∧ d.entry.inputs ≤ h ∧ d.entry.heightAfter h ≤ stackLimit)
          (Blameless sound) := by
        rw [checkStack_eq hlawful hop, hm₂.height]
        by_cases hlow : h < d.entry.inputs
        · rw [if_pos hlow]
          exact blameless_fault _
        · by_cases hhigh : stackLimit < d.entry.heightAfter h
          · rw [if_neg hlow, if_pos hhigh]
            exact blameless_fault _
          · rw [if_neg hlow, if_neg hhigh]
            exact ⟨rfl, Nat.not_lt.1 hlow, Nat.not_lt.1 hhigh⟩
      refine .bind hstack fun _ m₃ ⟨hsame, hin, hroom⟩ => ?_
      subst hsame
      unfold Entry.heightAfter at hroom ⊢
      rw [hlawful.entry_of_op op hop] at hin hroom hpaid hm₂ ⊢
      have hm₃ : Holds sound limit (g - op.baseGas is.schedule) b (h - op.inputs + op.inputs) m₃ := by
        rw [show h - op.inputs + op.inputs = h from Nat.sub_add_cancel hin]
        exact hm₂
      refine (exec_holds hhost hfair hlimit (by omega) hroom hm₃).mono fun _ m₄ hm₄ => ?_
      exact ⟨hpaid, hm₄⟩

/-! ## Where control goes -/

/-- An instruction in the middle of its block hands over to the next one. -/
theorem exec_next (hop : op.endsBlock = false) (h : exec s code d op m = .ok flow m') :
    flow = .next := by
  cases hord : ordinary op with
  | true =>
      rw [exec_of_ordinary hord] at h
      exact Op.exec_next hop h
  | false =>
      cases op with
      | gas => exact (of_andNext_ok h).1
      | sstore => exact (of_andNext_ok h).1
      | create salted => exact (of_andNext_ok h).1
      | call kind => exact (of_andNext_ok h).1
      | jumpDest =>
          cases h
          rfl
      | jump => cases hop
      | jumpi => cases hop
      | _ => cases hord

/-- After an instruction comes the next one, unless nothing of its block does. -/
theorem next_or_last {later : List Decoded} (hlawful : d.Lawful is)
    (hlast : d.entry.endsBlock = true → later = []) (h : step s guarded code d m = .ok flow m') :
    flow = .next ∨ later = [] := by
  obtain ⟨op, gas, hop, -, -, -, -, hexec⟩ := of_step_ok hlawful h
  cases hends : d.entry.endsBlock with
  | true => exact .inr (hlast hends)
  | false =>
      rw [hlawful.entry_of_op op hop] at hends
      exact .inl (exec_next hends hexec)

/-- An instruction that ends the run of its frame does not go on. -/
theorem exec_halt (hop : op.terminates = true) (h : exec s code d op m = .ok flow m') :
    ∃ e, flow = .halt e := by
  have hord : ordinary op = true := by
    cases op with
    | gas => cases hop
    | sstore => cases hop
    | create salted => cases hop
    | call kind => cases hop
    | jump => cases hop
    | jumpi => cases hop
    | jumpDest => cases hop
    | _ => rfl
  rw [exec_of_ordinary hord] at h
  exact Op.exec_halt hop h

/-- Only the jump instructions jump. -/
theorem op_of_jump {target : Nat} (h : exec s code d op m = .ok (.jump target) m') :
    op = .jump ∨ op = .jumpi := by
  cases hends : op.endsBlock with
  | false => cases exec_next hends h
  | true =>
      cases hterm : op.terminates with
      | true =>
          obtain ⟨_, hflow⟩ := exec_halt hterm h
          cases hflow
      | false => exact Op.eq_jump_of_endsBlock hends hterm

/-! ## Runs -/

/-- One turn inside the code. -/
theorem turn_of_lt {pc : Nat} (hlt : pc < code.size) (m : Machine σ) :
    turn s is guarded code pc m =
      afterStep pc (Decoded.readAt is code pc code[pc]).next
        (step s guarded code (.readAt is code pc code[pc]) m) := by
  unfold turn
  rw [show code[pc]? = some code[pc] from getElem?_pos code pc hlt]

/-- The turn at an instruction of the code. -/
theorem turn_of_decoded {pc : Nat} {tail : List Decoded}
    (hdecoded : decodedFrom is code pc = d :: tail)
    (m : Machine σ) :
    turn s is guarded code pc m = afterStep pc d.next (step s guarded code d m) := by
  obtain ⟨hlt, rfl, -⟩ := decodedFrom_eq_cons hdecoded
  exact turn_of_lt hlt m

theorem turn_of_le {pc : Nat} (hle : code.size ≤ pc) (m : Machine σ) :
    turn s is guarded code pc m = .ended ⟨pc, .ok .stop, m⟩ := by
  unfold turn
  rw [show code[pc]? = none from getElem?_neg code pc (Nat.not_lt.2 hle)]

/-- The measure of plain runs: a bound on the gas that is left. -/
def Bounded (sound : Prop) (limit r : Nat) (m : Machine σ) : Prop :=
  Holds sound limit r 0 m.stack.height m ∧ r ≤ limit

/-- Every turn goes forward, or pays for a jump. -/
theorem descent (hhost : s.Honest) (hfair : sound → s.Fair) (hlimit : limit < u64Size)
    (is : InstructionSet) (guarded : Bool) (code : ByteArray) :
    Descent (turn s is guarded code) code.size fun r _ m => Bounded sound limit r m := by
  intro r pc pc' m m' hbounded hturn
  obtain ⟨hm, hr⟩ := hbounded
  by_cases hlt : pc < code.size
  · refine ⟨hlt, ?_⟩
    have hlawful : (Decoded.readAt is code pc code[pc]).Lawful is := Decoded.lawful_readAt ..
    have hstep := step_holds hhost hfair hlimit guarded code hlawful hr hm
    rw [turn_of_lt hlt] at hturn
    -- going on moves forward in the code; a jump may go anywhere, but has been paid for
    obtain ⟨hnext, rfl⟩ | hjump := of_afterStep_jumped hturn
    · obtain ⟨hpaid, hm'⟩ := hstep.of_ok hnext
      rw [← hm'.height] at hm'
      exact ⟨r, ⟨hm'.mono (Nat.sub_le ..) (Nat.le_refl 0), hr⟩,
        .inr ⟨Nat.le_refl r, Decoded.lt_next_readAt ..⟩⟩
    · obtain ⟨hpaid, hm'⟩ := hstep.of_ok hjump
      obtain ⟨op, gas, hop, -, -, -, -, hexec⟩ := of_step_ok hlawful hjump
      have hisJump : (Decoded.readAt is code pc code[pc]).entry.op = some .jump ∨
          (Decoded.readAt is code pc code[pc]).entry.op = some .jumpi := by
        rw [hop]
        exact (op_of_jump hexec).imp (congrArg some) (congrArg some)
      obtain ⟨-, hcost⟩ := baseGas_of_jump hlawful hisJump
      rw [← hm'.height] at hm'
      exact ⟨_, ⟨hm', by omega⟩, .inl (by omega)⟩
  · rw [turn_of_le (Nat.not_lt.1 hlt)] at hturn
    cases hturn

/-- **A plain run ends**, and fails by a fault only if memory is sound. -/
theorem ends (hhost : s.Honest) (hfair : sound → s.Fair) (hlimit : limit < u64Size)
    (is : InstructionSet) (guarded : Bool) (code : ByteArray) (hm : Bounded sound limit r m) (c : Nat) :
    ∃ n e, n ≤ r * (code.size + 1) + (code.size - c) + 1 ∧
      iterate (turn s is guarded code) n c m = some e ∧
      ∀ failure, e.halt = .error failure → Blameless sound failure := by
  have hdescent := descent hhost hfair hlimit is guarded code
  obtain ⟨n, e, hn, hiterate⟩ := hdescent.ends (c := c) hm
  refine ⟨n, e, hn, hiterate, ?_⟩
  -- every turn keeps some bound, and the last one fails as a bounded instruction may
  refine of_iterate (P := fun _ m => ∃ r, Bounded sound limit r m)
    (Q := fun e => ∀ failure, e.halt = .error failure → Blameless sound failure) ⟨r, hm⟩ ?_ ?_ hiterate
  · rintro c₁ c₂ m₁ m₂ ⟨r₁, hbounded⟩ hturn
    obtain ⟨-, r₂, hnext, -⟩ := hdescent hbounded hturn
    exact ⟨r₂, hnext⟩
  · rintro pc m₁ e₁ ⟨r₁, hm₁, hr₁⟩ hturn failure hfailure
    by_cases hlt : pc < code.size
    · have hstep := step_holds hhost hfair hlimit guarded code
        (Decoded.lawful_readAt is code pc code[pc]) hr₁ hm₁
      rw [turn_of_lt hlt] at hturn
      cases hresult : step s guarded code (.readAt is code pc code[pc]) m₁ with
      | error f m₂ =>
          rw [hresult] at hturn
          cases hturn
          cases hfailure
          exact hstep.of_error hresult
      | ok flow m₂ =>
          rw [hresult] at hturn
          cases flow with
          | next => cases hturn
          | jump target => cases hturn
          | halt e =>
              cases hturn
              cases hfailure
    · rw [turn_of_le (Nat.not_lt.1 hlt)] at hturn
      cases hturn
      cases hfailure

/-- **On a fair host the run of a new frame comes to a result.** -/
theorem run_ok {config : Config} {host : Host σ} {context : CallContext} {input : ByteArray}
    {gasLimit : Nat} {memory : Memory}
    (hhost : ((Frame.fresh config context input gasLimit code).setting config host).Honest)
    (hfair : ((Frame.fresh config context input gasLimit code).setting config host).Fair)
    (hgas : gasLimit < u64Size) (hmemory : memory.limit ≤ Memory.pricedLimit) (state : σ) :
    let f := Frame.fresh config context input gasLimit code
    let guarded := (host.guard context state).1
    let start := f.machine memory.enter (host.guard context state).2
    ∃ e halt, iterate (turn (f.setting config host) (.ofFork config.fork) guarded code)
        (turns gasLimit code) 0 start = some e ∧
      untrapped e.halt = .ok halt ∧
      run config host context input gasLimit code memory state =
        .ok (.ofMeter (settle halt e.machine.gas).2.1 (settle halt e.machine.gas).2.2,
          e.machine.stack, e.machine.host) := by
  intro f guarded start
  have hbounded : Bounded True gasLimit gasLimit start :=
    ⟨⟨rfl, Nat.le_refl _, rfl, fun _ => ⟨Memory.enter_sound hmemory, Nat.zero_le _⟩⟩, Nat.le_refl _⟩
  obtain ⟨n, e, hn, hiterate, hblameless⟩ :=
    ends hhost (fun _ => hfair) hgas (.ofFork config.fork) guarded code hbounded 0
  have hturns := iterate_mono hiterate (show n ≤ turns gasLimit code from hn)
  have huntrapped : ∃ halt, untrapped e.halt = .ok halt := by
    cases hhalt : e.halt with
    | ok h => exact ⟨_, rfl⟩
    | error failure =>
        obtain ⟨fault, rfl⟩ := hblameless failure hhalt trivial
        exact ⟨_, rfl⟩
  obtain ⟨halt, hhalt⟩ := huntrapped
  refine ⟨e, halt, hturns, hhalt, ?_⟩
  unfold run
  dsimp only
  rw [hturns]
  dsimp only
  rw [hhalt]

end Plain

end MeteredEvm
