import MeteredEvm.Proofs.CallTree
import MeteredEvm.Proofs.LinkedRuns
import MeteredEvm.Proofs.Mirrors

/-!
# `MeteredEvm.Proofs.DepthLimit` — no child is like a child that fails

At the depth limit a call or creation has no child, and does its own bookkeeping: it keeps the gas
that it would have given away, gets the gas that comes for free with value, clears the return data
and pushes a zero. Below the limit the same instruction pays the gas out, reads the input, runs the
child, takes back what is left, and stores what the child returned. If the child fails at once and
leaves all of its gas, both come to the same.

What makes them the same is that nothing on the longer way can fail: the gas for the child is there,
the input has been made part of the view, the gas of the child is a 64-bit amount, and handing it
back stays within the limit.

## Contents
* `Exec.LeavesMemory`, `Poised` — what is known on the way to the child.
* `Link.upToChild` — results that are the same, but that one may have asked for a child.
* `Effect.runCall_refused`, `Effect.runCreate_refused` — a child that fails at once.
* `Setting.atDepth`, `turn_at_limit`, `depth_limit_is_failing_child` — the depth limit.
-/

namespace MeteredEvm

open Exec

variable {σ α β : Type} {s : Setting σ} {limit g b h : Nat} {m m' : Machine σ}
  {call : CallRequest → Memory → σ → Except Trap (CallResult × Memory × σ)}

/-! ## Memories -/

/-- Writing nothing changes nothing. -/
theorem Memory.write_empty (m : Memory) (offset : Nat) : m.write offset .empty = m := by
  have hbuffer : Bytes.overwrite m.buffer (m.base + offset) .empty = m.buffer := by
    unfold Bytes.overwrite
    rw [ByteArray.copySlice_eq_append]
    apply ByteArray.ext
    simp
  exact Memory.ext hbuffer rfl rfl rfl

/-! ## On the way to the child -/

namespace Exec

/-- A computation that leaves the memory alone, whether or not it succeeds. -/
def LeavesMemory (x : Exec σ α) : Prop := ∀ m, (x.after m).memory = m.memory

theorem LeavesMemory.bind {x : Exec σ α} {f : α → Exec σ β} (hx : LeavesMemory x)
    (hf : ∀ a, LeavesMemory (f a)) : LeavesMemory (x >>= f) := by
  intro m
  have hfirst := hx m
  cases h : x m with
  | ok a m' =>
      rw [after_of_ok h] at hfirst
      rw [after_bind_of_ok h, hf a m', hfirst]
  | error e m' =>
      rw [after_of_error h] at hfirst
      rw [after_bind_of_error h, hfirst]

theorem LeavesMemory.pure (a : α) : LeavesMemory (pure a : Exec σ α) := fun _ => rfl

theorem LeavesMemory.pop : LeavesMemory (pop : Exec σ Word) := by
  intro m
  unfold after Exec.pop
  cases m.stack.pop? with
  | some _ => rfl
  | none => rfl

theorem LeavesMemory.charge (cost : Nat) : LeavesMemory (charge cost : Exec σ Unit) := by
  intro m
  unfold after Exec.charge
  cases m.gas.charge? cost with
  | some _ => rfl
  | none => rfl

theorem LeavesMemory.ask (s : Setting σ) (q : Query) : LeavesMemory (ask s q) := fun _ => rfl

theorem LeavesMemory.touch (s : Setting σ) (surcharge : Nat) (access : Access) :
    LeavesMemory (touch s surcharge access) := by
  unfold Exec.touch
  split
  · refine .bind (.ask s _) fun cold => ?_
    split
    · exact .charge _
    · exact .pure _
  · exact .pure _

end Exec

theorem Effect.popCallOperands_leavesMemory (op : CallOp) :
    (popCallOperands op : Exec σ CallOperands).LeavesMemory := by
  have hvalue : (popValue op : Exec σ Word).LeavesMemory := by
    unfold popValue
    split
    · exact .pop
    · exact .pure _
  exact .bind .pop fun _ => .bind (.bind .pop fun _ => .pure _) fun _ => .bind hvalue fun _ =>
    .bind .pop fun _ => .bind .pop fun _ => .bind .pop fun _ => .bind .pop fun _ => .pure _

theorem Effect.payForCall_leavesMemory (s : Setting σ) (op : CallOp) (o : CallOperands) :
    (payForCall s op o).LeavesMemory := by
  have hvalue : (payForValue o.value : Exec σ Unit).LeavesMemory := by
    unfold payForValue
    split
    · exact .charge _
    · exact .pure _
  refine .bind (.touch s _ _) fun _ => .bind hvalue fun _ => ?_
  unfold payForNewAccount
  split
  · refine .bind (.ask s _) fun empty => ?_
    split
    · exact .charge _
    · exact .pure _
  · exact .pure _

/-- **What is known on the way to a child**: the bounds of the meter and the height of the stack, and
    that the view holds `b` bytes. -/
structure Poised (limit g b h : Nat) (m : Machine σ) : Prop where
  holds : Holds False limit g 0 h m
  room : b ≤ m.memory.size

/-- What leaves the memory alone leaves the size of the view alone. -/
theorem Poised.of_yields {x : Exec σ α} {P : α → Machine σ → Prop} {E : Failure → Prop}
    (hx : x.LeavesMemory) (hm : Poised limit g b h m) (hyields : Yields (x m) P E) :
    Yields (x m) (fun a m' => P a m' ∧ b ≤ m'.memory.size) E := by
  have hmemory := hx m
  cases hxm : x m with
  | ok a m' =>
      rw [after_of_ok hxm] at hmemory
      rw [hxm] at hyields
      refine ⟨hyields, ?_⟩
      rw [hmemory]
      exact hm.room
  | error e m' =>
      rw [hxm] at hyields
      exact hyields

theorem Typed.poised {x : Exec σ α} {h' : Nat} (ht : Typed s .blind 0 h h' x) (hx : x.LeavesMemory)
    (hm : Poised limit g b h m) :
    Yields (x m) (fun _ m' => Poised limit g b h' m') (Blameless False) :=
  (hm.of_yields hx (ht.holds (by decide) hm.holds)).mono fun _ _ h => ⟨h.1, h.2⟩

theorem Poised.cover (hm : Poised limit g b h m) (offset len : Word) :
    Yields (cover offset len m)
      (fun range m' => ∃ b', b ≤ b' ∧ Within range b' ∧ Poised limit g b' h m') (Blameless False) := by
  have hholds := cover_holds offset len hm.holds
  cases hcover : Memory.cover offset len (m.memory, m.gas) with
  | error e t =>
      rw [cover_error hcover] at hholds ⊢
      exact hholds
  | ok range t =>
      rw [cover_ok hcover] at hholds ⊢
      obtain ⟨b', -, -, hm'⟩ := hholds
      obtain ⟨hsize, hrange⟩ := Memory.size_of_cover_ok hcover
      exact ⟨_, Nat.le_trans hm.room hsize, hrange, hm'.mono (Nat.le_refl g) (Nat.zero_le _),
        Nat.le_refl _⟩

/-! ## Results up to a child -/

/-- Machines that are the same, but that the second may have asked for a child: its host is in the
    same state, or in the one that `call` leaves. -/
def Link.upToChild (call : CallRequest → Memory → σ → Except Trap (CallResult × Memory × σ)) :
    Link σ σ where
  state w w' _ := w' = w ∨ ∃ req memory result memory', call req memory w = .ok (result, memory', w')
  memory := Eq

theorem Link.Joins.refl (m : Machine σ) : (Link.upToChild call).Joins m m :=
  ⟨rfl, rfl, rfl, rfl, .inl rfl⟩

/-- Two computations that begin in the same way. -/
theorem Link.Matches.bind_same {x : Exec σ α} {f f' : α → Exec σ β} {P : α → Machine σ → Prop}
    {E : Failure → Prop} (hx : Yields (x m) P E)
    (hf : ∀ a m', P a m' → (Link.upToChild call).Matches (f a m') (f' a m')) :
    (Link.upToChild call).Matches ((x >>= f) m) ((x >>= f') m) := by
  cases hxm : x m with
  | ok a m' =>
      rw [Act.bind_ok hxm, Act.bind_ok hxm]
      exact hf a m' (hx.of_ok hxm)
  | error e m' =>
      rw [Act.bind_error hxm, Act.bind_error hxm]
      exact .error e (Link.Joins.refl m')

/-! ## Children that fail at once -/

/-- A way of running children by which all of them fail at once (`CallResult.failure`): they leave their
    gas and the memory. -/
def Refuses (call : CallRequest → Memory → σ → Except Trap (CallResult × Memory × σ)) : Prop :=
  ∀ req memory state, ∃ state', call req memory state = .ok (.failure req.gas, memory, state')

namespace Effect

theorem of_forwarded_ok {requested : Word} {gas : Nat} (hok : forwarded s requested m = .ok gas m') :
    m' = m ∧ gas ≤ m.gas.remaining := by
  obtain ⟨left, m₁, hleft, hok⟩ := Act.eq_of_bind_ok hok
  cases hleft
  have hle := forwarded_le s.schedule m.gas.remaining requested
  cases hf : s.schedule.forwarded m.gas.remaining requested with
  | error f =>
      rw [hf] at hok
      cases hok
  | ok n =>
      rw [hf] at hok hle
      cases hok
      exact ⟨rfl, hle⟩

theorem readRange_ok {m : Machine σ} {range : Option (Nat × Nat)} (h : Within range m.memory.size) :
    ∃ bytes, readRange range m = .ok bytes m := by
  cases range with
  | none => exact ⟨_, rfl⟩
  | some r =>
      obtain ⟨offset, len⟩ := r
      have hread : m.memory.read? offset len =
          some (m.memory.buffer.extract (m.memory.base + offset) (m.memory.base + offset + len)) :=
        if_pos h
      refine ⟨m.memory.buffer.extract (m.memory.base + offset) (m.memory.base + offset + len), ?_⟩
      show Exec.read offset len m = _
      unfold Exec.read
      rw [hread]

theorem storeOutput_nothing {range : Option (Nat × Nat)} (h : Within range m.memory.size) :
    storeOutput range .empty m = .ok () m := by
  cases range with
  | none => rfl
  | some r =>
      obtain ⟨offset, len⟩ := r
      have hle : offset + ByteArray.empty.size ≤ m.memory.size :=
        Nat.le_trans (Nat.le_add_right offset len) h
      have hempty : ByteArray.empty.extract 0 (min len ByteArray.empty.size) = .empty := by
        rw [show min len ByteArray.empty.size = 0 from Nat.min_zero len]
        rfl
      show Exec.write offset (ByteArray.empty.extract 0 (min len ByteArray.empty.size)) m = _
      unfold Exec.write
      rw [hempty, if_pos hle, Memory.write_empty]

/-- What the child was given, and anything else that is handed back with it. -/
theorem giveBack_refused {cost : Nat} (h : cost ≤ m.gas.remaining) (extra : Nat) (host : σ) :
    giveBack (cost + extra) { m.withLess cost with host } =
      .ok () { m with gas := m.gas.giveBack extra, host } := by
  show EStateM.Result.ok () { m with gas := (m.withLess cost).gas.giveBack (cost + extra), host } = _
  unfold Meter.giveBack Machine.withLess
  dsimp only
  rw [← Nat.add_assoc, Nat.sub_add_cancel h]

/-- A child that fails at once leaves all but the state of the host. -/
theorem call_refused (hcall : Refuses call) (s : Setting σ) (req : CallRequest) (m : Machine σ) :
    ∃ host, (Link.upToChild call).Joins m { m with host } ∧
      Exec.call (s.withCall call) req m = .ok (.failure req.gas) { m with host } := by
  obtain ⟨host, heq⟩ := hcall req m.memory m.host
  refine ⟨host, ⟨rfl, rfl, rfl, rfl, .inr ⟨_, _, _, _, heq⟩⟩, ?_⟩
  unfold Exec.call
  rw [show (s.withCall call).host.call = call from rfl, heq]

/-- **A call whose child fails at once comes to a call without a child.** -/
theorem runCall_refused (hcall : Refuses call) {op : CallOp} {o : CallOperands}
    {input output : Option (Nat × Nat)} {childGas : Nat} (hi : Within input m.memory.size)
    (ho : Within output m.memory.size) (hgas : childGas ≤ m.gas.remaining)
    (hsum : m.gas.remaining + stipend o.value < u64Size) (hdata : m.returnData = .empty) :
    (Link.upToChild call).Matches ((skipCall o.value : Exec σ Unit) m)
      ((runCall (s.withCall call) op o input output childGas : Exec σ Unit) m) := by
  -- the gas of the child is there, its input is in the view, and with what comes for free it is an
  -- amount
  have hcharge : charge childGas m = .ok () (m.withLess childGas) := charge_ok (charge?_of_le hgas)
  obtain ⟨data, hread⟩ := readRange_ok (m := m.withLess childGas) hi
  have hamount : (Addition.u64 : Addition σ).amount (childGas + stipend o.value) (m.withLess childGas) =
      .ok (childGas + stipend o.value) (m.withLess childGas) := by
    show amount (childGas + stipend o.value) _ = _
    unfold amount
    rw [if_pos (by omega)]
    rfl
  obtain ⟨host, hjoins, hchild⟩ := call_refused hcall s
    (callRequest (s.withCall call).context op o data (childGas + stipend o.value))
    (m.withLess childGas)
  have hback := giveBack_refused hgas (stipend o.value) host
  have hstore : storeOutput output .empty { m with gas := m.gas.giveBack (stipend o.value), host } = _ :=
    storeOutput_nothing ho
  have hrun : (runCall (s.withCall call) op o input output childGas : Exec σ Unit) m =
      push 0#256 { m with gas := m.gas.giveBack (stipend o.value), host } := by
    unfold runCall
    rw [Act.bind_ok hcharge, Act.bind_ok hread, Act.bind_ok hamount, Act.bind_ok hchild]
    show (giveBack (childGas + stipend o.value) >>= fun _ => storeOutput output .empty >>= fun _ =>
      setReturnData .empty >>= fun _ => push 0#256) { m.withLess childGas with host } = _
    rw [Act.bind_ok hback, Act.bind_ok hstore]
    show push 0#256 { m with gas := _, returnData := .empty, host } = _
    rw [← hdata]
  rw [hrun]
  exact push_parallel _ ⟨rfl, rfl, rfl, rfl, hjoins.state⟩

/-- **A creation whose child fails at once comes to a creation without a child.** -/
theorem runCreate_refused (hcall : Refuses call) {kind : CallKind} {value : Word}
    {range : Option (Nat × Nat)} (hr : Within range m.memory.size) (hgas : m.gas.remaining < u64Size)
    (hdata : m.returnData = .empty) :
    (Link.upToChild call).Matches (push 0#256 m)
      ((runCreate (s.withCall call) kind value range : Exec σ Unit) m) := by
  have hle := createGas_le s.schedule.rules m.gas.remaining
  generalize hgiven : createGas s.schedule.rules m.gas.remaining = given at hle
  have hcharge : charge given m = .ok () (m.withLess given) := charge_ok (charge?_of_le hle)
  obtain ⟨initCode, hread⟩ := readRange_ok (m := m.withLess given) hr
  obtain ⟨host, hjoins, hchild⟩ := call_refused hcall s
    (createRequest (s.withCall call).context kind value initCode given) (m.withLess given)
  have hback : giveBack given { m.withLess given with host } = .ok () { m with host } := by
    have hback := giveBack_refused hle 0 host
    have hfull : m.gas.giveBack 0 = m.gas := by
      unfold Meter.giveBack
      rw [Nat.add_zero, Nat.min_eq_left (by omega)]
    rw [hfull] at hback
    exact hback
  have hrun : (runCreate (s.withCall call) kind value range : Exec σ Unit) m =
      push 0#256 { m with host } := by
    unfold runCreate
    show (charge (createGas (s.withCall call).schedule.rules m.gas.remaining) >>= _) m = _
    rw [show (s.withCall call).schedule = s.schedule from rfl, hgiven, Act.bind_ok hcharge, Act.bind_ok hread,
      Act.bind_ok hchild]
    show (giveBack given >>= fun _ => setReturnData .empty >>= fun _ => push 0#256)
      { m.withLess given with host } = _
    rw [Act.bind_ok hback]
    show push 0#256 { m with returnData := .empty, host } = _
    rw [← hdata]
  rw [hrun]
  exact push_parallel _ ⟨rfl, rfl, rfl, rfl, hjoins.state⟩

end Effect

/-! ## Calls and creations -/

/-- The setting at another depth. -/
def Setting.atDepth (s : Setting σ) (depth : Nat) : Setting σ :=
  { s with context := { s.context with depth } }

namespace Effect

/-- **A call at the depth limit** is like a call below it whose child fails at once. -/
theorem call_at_limit (hcall : Refuses call) {deep shallow : Nat} (hdeep : s.maxCallDepth ≤ deep)
    (hshallow : shallow < s.maxCallDepth) (hlimit : limit < u64Size) (hg : g ≤ limit) (op : CallOp)
    (hm : Poised limit g b (h + (Op.call op).inputs) m) :
    (Link.upToChild call).Matches ((Effect.call (s.atDepth deep) op : Exec σ Unit) m)
      ((Effect.call ((s.atDepth shallow).withCall call) op : Exec σ Unit) m) := by
  have hm : Poised limit g b (h + callInputs op) m := by cases op <;> exact hm
  have hpops : Typed s .blind 0 (h + callInputs op) h (popCallOperands op) :=
    popCallOperands_typed op
  unfold Effect.call
  refine .bind_same (hpops.poised (popCallOperands_leavesMemory op) hm) fun o m₁ hm₁ => ?_
  refine .bind_same (hm₁.cover o.inOffset o.inLen) fun input m₂ ⟨b₁, hb₁, hi, hm₂⟩ => ?_
  refine .bind_same (hm₂.cover o.outOffset o.outLen) fun output m₃ ⟨b₂, hb₂, ho, hm₃⟩ => ?_
  have hpay := hm₃.of_yields (payForCall_leavesMemory s op o) (payForCall_holds op o hm₃.holds)
  refine .bind_same hpay fun _ m₄ ⟨⟨g', hpaid, hm₄⟩, hroom⟩ => ?_
  have hforwarded : Yields (forwarded s o.requested m₄)
      (fun childGas m₅ => m₅ = m₄ ∧ childGas ≤ m₄.gas.remaining) fun _ => True := by
    cases hok : forwarded s o.requested m₄ with
    | ok childGas m₅ => exact of_forwarded_ok hok
    | error e m₅ => trivial
  refine .bind_same hforwarded fun childGas m₅ ⟨hsame, hchild⟩ => ?_
  subst hsame
  -- only here do the two part: one skips the child, the other runs it
  show (Link.upToChild call).Matches
    ((if s.maxCallDepth ≤ deep then skipCall o.value
      else runCall (s.atDepth deep) op o input output childGas : Exec σ Unit)
      { m₅ with returnData := .empty })
    ((if s.maxCallDepth ≤ shallow then skipCall o.value
      else runCall ((s.atDepth shallow).withCall call) op o input output childGas : Exec σ Unit)
      { m₅ with returnData := .empty })
  rw [if_pos hdeep, if_neg (Nat.not_le_of_lt hshallow)]
  have hremaining := hm₄.remaining
  exact runCall_refused hcall (hi.mono (Nat.le_trans hb₂ hroom)) (ho.mono hroom) hchild
    (by show m₅.gas.remaining + _ < _; omega) rfl

/-- **A creation at the depth limit** is like a creation below it whose child fails at once. -/
theorem create_at_limit (hcall : Refuses call) {deep shallow : Nat} (hdeep : s.maxCallDepth ≤ deep)
    (hshallow : shallow < s.maxCallDepth) (hlimit : limit < u64Size) (hg : g ≤ limit) (salted : Bool)
    (hm : Poised limit g b (h + (Op.create salted).inputs) m) :
    (Link.upToChild call).Matches ((Effect.create (s.atDepth deep) salted : Exec σ Unit) m)
      ((Effect.create ((s.atDepth shallow).withCall call) salted : Exec σ Unit) m) := by
  have hm : Poised limit g b (h + (if salted then 1 else 0) + 3) m := by
    cases salted <;> exact hm
  have pop {k : Nat} {m : Machine σ} (hm : Poised limit g b (k + 1) m) :
      Yields (pop m) (fun _ m' => Poised limit g b k m') (Blameless False) :=
    Typed.poised (s := s) .pop .pop hm
  have charge {g b h : Nat} {m : Machine σ} (cost : Nat) (hm : Poised limit g b h m) :
      Yields (charge cost m) (fun _ m' => Poised limit g b h m') (Blameless False) :=
    Typed.poised (s := s) (.charge cost) (.charge cost) hm
  unfold Effect.create
  refine .bind_same (pop hm) fun value m₁ hm₁ => .bind_same (pop hm₁) fun offset m₂ hm₂ =>
    .bind_same (pop hm₂) fun len m₃ hm₃ => ?_
  refine .bind_same (P := fun _ m' => Poised limit g b h m') (E := Blameless False) ?_
    fun kind m₄ hm₄ => ?_
  · cases salted with
    | false => exact hm₃
    | true => exact .bind (pop hm₃) fun salt m' hm' => hm'
  refine .bind_same (P := fun _ m' => Poised limit g b h m') (E := Blameless False) ?_
    fun _ m₅ hm₅ => ?_
  · show Yields (checkInitCode s len m₄) _ _
    unfold checkInitCode
    split
    · exact blameless_fault _
    · exact hm₄
  refine .bind_same (hm₅.cover offset len) fun range m₆ ⟨b', hb, hr, hm₆⟩ => ?_
  refine .bind_same (charge _ hm₆) fun _ m₇ hm₇ => .bind_same (charge _ hm₇) fun _ m₈ hm₈ => ?_
  show (Link.upToChild call).Matches
    ((if s.maxCallDepth ≤ deep then push 0#256
      else runCreate (s.atDepth deep) kind value range : Exec σ Unit)
      { m₈ with returnData := .empty })
    ((if s.maxCallDepth ≤ shallow then push 0#256
      else runCreate ((s.atDepth shallow).withCall call) kind value range : Exec σ Unit)
      { m₈ with returnData := .empty })
  rw [if_pos hdeep, if_neg (Nat.not_le_of_lt hshallow)]
  have hremaining := hm₈.holds.remaining
  exact runCreate_refused hcall (hr.mono hm₈.room) (by show m₈.gas.remaining < _; omega) rfl

end Effect

/-- An instruction that looks at the gas, with either of two effects. -/
theorem observing_matches_of {effect effect' : Exec σ Unit} {correction : Nat}
    (hlimit : limit < u64Size) (hle : g + correction ≤ limit)
    (heffect : ∀ {m : Machine σ}, Poised limit (g + correction) b h m →
      (Link.upToChild call).Matches (effect m) (effect' m))
    (hm : Poised limit g b h m) :
    (Link.upToChild call).Matches (andNext (Effect.observing correction effect) m)
      (andNext (Effect.observing correction effect') m) := by
  have hback := hm.of_yields (x := (Addition.u64 : Addition σ).giveBack correction) (fun _ => rfl)
    (giveBack_agrees Addition.u64_faithful hlimit hle hm.holds).2
  have hobserving : (Link.upToChild call).Matches ((Effect.observing correction effect : Exec σ Unit) m)
      ((Effect.observing correction effect' : Exec σ Unit) m) := by
    refine .bind_same hback fun _ m₁ hm₁ => ?_
    exact (heffect ⟨hm₁.1.mono (Nat.le_refl _) (Nat.zero_le _), hm₁.2⟩).bind
      fun _ _ _ _ hj => charge_parallel correction hj
  exact hobserving.bind fun _ _ _ _ hj => Link.Parallel.pure _ hj

/-- Whether an instruction runs a child: its operation is an `Op.call` or an `Op.create`. -/
def Instruction.RunsChild (ins : Instruction) : Prop :=
  (∃ kind, ins.op = some (.call kind)) ∨ ∃ salted, ins.op = some (.create salted)

/-- What two matching results of an instruction come to. -/
theorem Link.Matches.meets {r r' : EStateM.Result Failure (Machine σ) Flow}
    (hr : (Link.upToChild call).Matches r r') (c following : Nat) :
    (Link.upToChild call).Meets (afterStep c following r) (afterStep c following r') := by
  cases hr with
  | error e hj => exact .ended ⟨rfl, rfl, hj⟩
  | ok flow hj =>
      cases flow with
      | next => exact .jumped following hj
      | jump target => exact .jumped target hj
      | halt h => exact .ended ⟨rfl, rfl, hj⟩

/-- The ban on state changes comes before the effect, and is the same for both. -/
theorem step_matches_of {s' : Setting σ} {ins : Instruction} {op : Op} (guarded : Bool)
    (hop : ins.op = some op)
    (hexec : (Link.upToChild call).Matches (op.exec s ins m) (op.exec s' ins m)) :
    (Link.upToChild call).Matches (step s guarded ins m) (step s' guarded ins m) := by
  have hcheck : Yields (checkStatic guarded op m) (fun _ m' => m' = m) fun _ => True := by
    rw [checkStatic_eq]
    split
    · trivial
    · rfl
  unfold step
  rw [hop]
  refine .bind_same hcheck fun _ m' hsame => ?_
  rw [hsame]
  exact hexec

/-- **One turn at the depth limit.** -/
theorem turn_at_limit {is : InstructionSet} {code : ByteArray} {r c : Nat} {ins : Instruction}
    (hcall : Refuses call) {deep shallow : Nat} (hdeep : s.maxCallDepth ≤ deep)
    (hshallow : shallow < s.maxCallDepth) (hcode : s.code = analyze is code) (hlimit : limit < u64Size)
    (hsolvent : Solvent False is code limit r c m)
    (hins : s.code.instructions[c]? = some ins) (hchild : ins.RunsChild) (guarded : Bool) :
    (Link.upToChild call).Meets (turn (s.atDepth deep) guarded c m)
      (turn ((s.atDepth shallow).withCall call) guarded c m) := by
  rw [turn_of_getElem? (s := s.atDepth deep) rfl hins,
    turn_of_getElem? (s := (s.atDepth shallow).withCall call) rfl hins]
  refine Link.Matches.meets ?_ c (c + 1)
  obtain ⟨kind, hop⟩ | ⟨salted, hop⟩ := hchild
  · obtain ⟨g, h₀, hm, -, hle⟩ := hsolvent.inner hcode hins hop (by simp)
    have hm : Poised limit g 0 (h₀ + (Op.call kind).inputs) m := ⟨hm, Nat.zero_le _⟩
    exact step_matches_of guarded hop (observing_matches_of hlimit hle
      (Effect.call_at_limit hcall hdeep hshallow hlimit hle kind) hm)
  · obtain ⟨g, h₀, hm, -, hle⟩ := hsolvent.inner hcode hins hop (by simp)
    have hm : Poised limit g 0 (h₀ + (Op.create salted).inputs) m := ⟨hm, Nat.zero_le _⟩
    exact step_matches_of guarded hop (observing_matches_of hlimit hle
      (Effect.create_at_limit hcall hdeep hshallow hlimit hle salted) hm)

/-- At the depth limit no child is run, so how children are run makes no difference. -/
theorem turn_at_limit_childless {deep : Nat} (hdeep : s.maxCallDepth ≤ deep) (guarded : Bool) (c : Nat)
    (m : Machine σ) :
    turn ((s.atDepth deep).withCall call) guarded c m = turn (s.atDepth deep) guarded c m := by
  have hcall : (s.atDepth deep).Indifferent call := fun _ _ _ hlt => absurd hlt (Nat.not_lt_of_le hdeep)
  unfold turn
  rw [show ((s.atDepth deep).withCall call).code = (s.atDepth deep).code from rfl]
  cases (s.atDepth deep).code.instructions[c]? with
  | none => rfl
  | some ins =>
      dsimp only
      rw [step_withCall hcall]

/-! ## Runs -/

/-- **The depth limit is a failing child.** In every state that the run of a new frame `Reaches`, on an
    `Honest` host, take a call or a creation as the next instruction. At the depth limit its `turn`
    comes to the same as below the limit with children that fail at once and leave their gas and the
    memory (`Refuses`): the same fault, or the same gas, stack, return data, memory and place, and a
    host in the same state or in the one that the child leaves (`Link.upToChild`). At the limit no
    child is run: how children are run makes no difference. -/
theorem depth_limit_is_failing_child {host : Host σ} (hhost : host.Honest) (config : Config)
    (context : CallContext) (input : ByteArray) {gasLimit : Nat} (hgas : gasLimit < u64Size)
    (code : ByteArray) (memory : Memory) (state : σ) (guarded : Bool) {c : Nat} {m : Machine σ}
    {ins : Instruction}
    (hreach : let f := Frame.fresh config context input gasLimit code
      Reaches (turn (f.setting config host) guarded) f.cursor (f.machine memory.enter state) c m)
    (hins : (analyze (.ofFork config.fork) code).instructions[c]? = some ins)
    (hchild : ins.RunsChild) (deep shallow : Nat) (hdeep : config.maxCallDepth ≤ deep)
    (hshallow : shallow < config.maxCallDepth)
    {call : CallRequest → Memory → σ → Except Trap (CallResult × Memory × σ)} (hcall : Refuses call) :
    let s := (Frame.fresh config context input gasLimit code).setting config host
    (Link.upToChild call).Meets (turn (s.atDepth deep) guarded c m)
        (turn ((s.atDepth shallow).withCall call) guarded c m) ∧
      ∀ call', turn ((s.atDepth deep).withCall call') guarded c m =
        turn (s.atDepth deep) guarded c m := by
  intro s
  obtain ⟨⟨r, hsolvent⟩, -⟩ := Frame.reaches_solvent (hhost.setting _ config) hgas hreach
  exact ⟨turn_at_limit hcall hdeep hshallow rfl hgas hsolvent hins hchild guarded,
    fun _ => turn_at_limit_childless hdeep guarded c m⟩

/-- A call of account 0 that sends 1 and asks for no gas. -/
def callWithValue : ByteArray := ⟨#[0x5f, 0x5f, 0x5f, 0x5f, 0x60, 0x01, 0x5f, 0x5f, 0xf1]⟩

/-- The frame of `callWithValue` has come to its call; the call at depth 1024 comes to the same as one
    at depth 0 whose child fails at once. -/
theorem depth_limit_is_failing_child_callWithValue :
    let frame := Frame.fresh {} {} .empty 100000 callWithValue
    let s := frame.setting {} (({} : Chain).hostAt 0)
    let refuse (req : CallRequest) (memory : Memory) (w : World) : Except Trap _ :=
      .ok (CallResult.failure req.gas, memory, w)
    ∃ m ins,
      Reaches (turn s false) 0 (frame.machine (Memory.new 64).enter {}) 8 m ∧
      s.code.instructions[8]? = some ins ∧ ins.op = some (.call .call) ∧
      (Link.upToChild refuse).Meets (turn (s.atDepth 1024) false 8 m)
        (turn ((s.atDepth 0).withCall refuse) false 8 m) := by
  intro frame s refuse
  have hplace : (advance (turn s false) 0 (frame.machine (Memory.new 64).enter {}) 8).map Prod.fst =
      some 8 := by
    decide +kernel
  have hop : (s.code.instructions[8]?.bind (·.op)) = some (.call .call) := by
    decide +kernel
  obtain ⟨⟨c, m⟩, hadvance, rfl⟩ := Option.map_eq_some_iff.1 hplace
  obtain ⟨ins, hins, hcall⟩ := Option.bind_eq_some_iff.1 hop
  have hreach := reaches_of_advance hadvance
  have hrefuses : Refuses refuse := fun _ _ w => ⟨w, rfl⟩
  have hlimit := depth_limit_is_failing_child (Chain.hostAt_honest {} 0) {} {} .empty (by decide)
    callWithValue (.new 64) {} false hreach hins (.inl ⟨_, hcall⟩) 1024 0 (by decide) (by decide) hrefuses
  exact ⟨m, ins, hreach, hins, hcall, hlimit.1⟩

end MeteredEvm
