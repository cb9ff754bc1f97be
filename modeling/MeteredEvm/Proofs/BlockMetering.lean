import MeteredEvm.Host.Recorded
import MeteredEvm.Proofs.CallTree
import MeteredEvm.Proofs.Mirrors

/-!
# `MeteredEvm.Proofs.BlockMetering` — paying by blocks is paying by instructions

The machine that pays by blocks and the plain machine run side by side: the plain one has what the
rest of the block costs more on its meter, and all else is the same (`Synced`). If the plain machine
halts, each block that it ran through was paid for and had fitted the stack on entry
(`Plain.fits_of_halts`), so the other one halts too, in the same state; and conversely.

## Contents
* `Plain.fits_of_halts` — a block that is run through could have been entered.
* `Abreast`, `Synced`, `Matched` — the machines side by side, and one turn of both.
* `Synced.forward`, `Synced.backward` — runs side by side.
* `RunsAlike`, `runsAlike` — frames.
* `block_metering_refines`.
-/

namespace MeteredEvm

open Exec

variable {σ : Type} {is : InstructionSet} {code : ByteArray} {s : Setting σ} {guarded : Bool}
  {limit c pc : Nat} {m m' p p' : Machine σ} {d : Decoded} {later : List Decoded}
  {pushed : Option Word}

/-! ## Blocks that are run through -/

/-- **The next instruction of a plain run that halts** goes through: it finds its inputs and leaves
    room, pays its static price, and the run goes on from what it leaves, unless it ends its block. -/
theorem Plain.first_of_halts {tail : List Decoded} {halt : Halt} (hhost : s.Honest)
    (hlimit : limit < u64Size) (hlast : d.entry.endsBlock = true → later = [])
    (hdecoded : decodedFrom is code pc = d :: tail) (hp : p.gas.limit = limit)
    (hle : p.gas.remaining ≤ limit) (h : Halts (Plain.turn s is guarded code) pc p halt p') :
    ∃ flow p₁, Plain.step s guarded code d p = .ok flow p₁ ∧
      d.entry.inputs ≤ p.stack.height ∧ d.entry.heightAfter p.stack.height ≤ stackLimit ∧
      p₁.stack.height = d.entry.heightAfter p.stack.height ∧ p₁.gas.limit = limit ∧
      p₁.gas.remaining + d.entry.baseGas ≤ p.gas.remaining ∧
      (Halts (Plain.turn s is guarded code) d.next p₁ halt p' ∨ later = []) := by
  have hlawful : d.Lawful is := by
    obtain ⟨_, rfl, -⟩ := decodedFrom_eq_cons hdecoded
    exact Decoded.lawful_readAt ..
  obtain ⟨flow, p₁, hstep, hnext⟩ := h.of_afterStep (Plain.turn_of_decoded hdecoded p)
  obtain ⟨op, gas, -, -, -, hin, hroom, -⟩ := Plain.of_step_ok hlawful hstep
  have hholds := Plain.step_holds hhost nofun hlimit guarded code hlawful hle (.self hp)
  obtain ⟨hpaid, hp₁⟩ := hholds.of_ok hstep
  have hremaining := hp₁.remaining
  refine ⟨flow, p₁, hstep, hin, hroom, hp₁.height, hp₁.limit, by omega, ?_⟩
  exact (Plain.next_or_last hlawful hlast hstep).imp hnext id

/-- **A block that is run through could have been entered.** On a plain run that halts, the rest of
    the block at hand fits the stack and can be paid for: each of its instructions was checked, and
    paid for, on the way. -/
theorem Plain.fits_of_halts (hhost : s.Honest) (hlimit : limit < u64Size) {rest tail : List Decoded}
    {halt : Halt} (hchain : rest.IsChain fun a b => sameBlock a b = true)
    (hdecoded : decodedFrom is code pc = rest ++ tail) (hp : p.gas.limit = limit)
    (hle : p.gas.remaining ≤ limit) (h : Halts (Plain.turn s is guarded code) pc p halt p') :
    Fits p.stack.height rest ∧ gasOf rest ≤ p.gas.remaining := by
  -- along the block: nothing is refunded to the meter on the way, so what the later instructions
  -- could pay after this one, they could pay before it, and its own price on top
  induction rest generalizing pc p with
  | nil => exact ⟨trivial, Nat.zero_le _⟩
  | cons d later ih =>
      obtain ⟨-, -, htail⟩ := decodedFrom_eq_cons hdecoded
      obtain ⟨flow, p₁, -, hin, hroom, hheight, hp₁, hpaid, hnext⟩ :=
        Plain.first_of_halts hhost hlimit (eq_nil_of_endsBlock hchain) hdecoded hp hle h
      have hlater : Fits p₁.stack.height later ∧ gasOf later ≤ p₁.gas.remaining := by
        rcases hnext with hnext | rfl
        · exact ih hchain.tail htail.symm hp₁ (by omega) hnext
        · exact ⟨trivial, Nat.zero_le _⟩
      rw [hheight] at hlater
      refine ⟨⟨hin, hroom, hlater.1⟩, ?_⟩
      rw [gasOf_cons]
      omega

/-! ## Side by side -/

/-- **Side by side.** The instructions `rest` are still to come of the block; they fit the stack, and
    the plain machine has yet to pay for them. `pushed` is on top of the stack, and the plain machine
    has not run over its limit. -/
structure Abreast (is : InstructionSet) (code : ByteArray) (limit c : Nat) (m : Machine σ) (pc : Nat)
    (p : Machine σ) (pushed : Option Word) (rest : List Decoded) (post : List (List Decoded)) :
    Prop where
  place : Place is code c pc pushed rest post
  fits : Fits m.stack.height rest
  ahead : p = m.withMore (gasOf rest)
  top : ∀ w, pushed = some w → m.stack.peek? 0 = some w
  limit_eq : p.gas.limit = limit
  remaining_le : p.gas.remaining ≤ limit

/-- Machines that are side by side somewhere. -/
def Synced (is : InstructionSet) (code : ByteArray) (limit c : Nat) (m : Machine σ) (pc : Nat)
    (p : Machine σ) : Prop :=
  ∃ pushed rest post, Abreast is code limit c m pc p pushed rest post

/-- One turn of both machines: they stay side by side, or end alike. -/
inductive Matched (is : InstructionSet) (code : ByteArray) (limit : Nat) :
    Stretch σ → Stretch σ → Prop where
  | jumped {c pc : Nat} {m p : Machine σ} (h : Synced is code limit c m pc p) :
      Matched is code limit (.jumped c m) (.jumped pc p)
  | ended {c pc : Nat} (halt : Halt) (m : Machine σ) :
      Matched is code limit (.ended ⟨c, .ok halt, m⟩) (.ended ⟨pc, .ok halt, m⟩)

/-- Before a block nothing is needed but the place. -/
theorem Synced.of_place {post : List (List Decoded)} (hplace : Place is code c pc none [] post)
    (hlimit : m.gas.limit = limit) (hle : m.gas.remaining ≤ limit) : Synced is code limit c m pc m :=
  ⟨none, [], post, hplace, trivial, rfl, nofun, hlimit, hle⟩

namespace Abreast

variable {post : List (List Decoded)} {rest : List Decoded} {halt : Halt}

theorem bounds (h : Abreast is code limit c m pc p pushed rest post) :
    m.gas.limit = limit ∧ m.gas.remaining + gasOf rest ≤ limit := by
  have hlimit := h.limit_eq
  have hle := h.remaining_le
  rw [h.ahead] at hlimit hle
  exact ⟨hlimit, hle⟩

/-- The entry of a block that can be entered; the plain machine knows no such instruction. -/
theorem own_turn (hcode : s.code = analyze is code) (guarded : Bool)
    (h : Abreast is code limit c m pc p pushed [] ((d :: later) :: post))
    (hdest : d.isJumpDest = false) (hfits : Fits m.stack.height (d :: later))
    (hgas : gasOf (d :: later) ≤ m.gas.remaining) :
    ∃ m₁, turn s guarded c m = .jumped (c + 1) m₁ ∧
      Abreast is code limit (c + 1) m₁ pc p none (d :: later) post := by
  obtain ⟨hins, hnext⟩ := h.place.ownEntry hdest
  have hstep : step s guarded (.blockEntry d.pc (Tally.ofSegment (d :: later)).cost) m =
      .ok .next (m.withLess (gasOf (d :: later))) :=
    enter_ok rfl rfl (charge?_of_le hgas) hfits
  have hturn : turn s guarded c m = .jumped (c + 1) (m.withLess (gasOf (d :: later))) := by
    rw [turn_of_getElem? hcode hins, hstep]
    rfl
  refine ⟨_, hturn, hnext, hfits, ?_, nofun, h.limit_eq, h.remaining_le⟩
  have hpaid := Machine.withMore_withLess (k := 0) (m := m) (j := gasOf (d :: later)) (by omega)
  rw [Nat.zero_add] at hpaid
  rw [hpaid]
  exact h.ahead

/-- A jump destination whose block can be entered. -/
theorem dest_matched (hcode : s.code = analyze is code) (guarded : Bool)
    (h : Abreast is code limit c m pc p pushed [] ((d :: later) :: post)) (hlawful : d.Lawful is)
    (hdest : d.isJumpDest = true) (hfits : Fits m.stack.height (d :: later))
    (hgas : gasOf (d :: later) ≤ m.gas.remaining) :
    Matched is code limit (turn s guarded c m) (Plain.turn s is guarded code pc p) := by
  obtain ⟨hins, hnext⟩ := h.place.jumpDest hdest
  have hop := hlawful.isJumpDest_iff.1 hdest
  have hdecoded : decodedFrom is code pc = d :: (later ++ post.flatten) := h.place.decoded
  obtain rfl : p = m := h.ahead
  -- one machine pays for the whole block, the other for this instruction only
  have hstep : step s guarded (destInstruction d later) p =
      .ok .next (p.withLess (gasOf (d :: later))) :=
    enter_ok hop rfl (charge?_of_le hgas) hfits
  have hblock : turn s guarded c p = .jumped (c + 1) (p.withLess (gasOf (d :: later))) := by
    rw [turn_of_getElem? hcode hins, hstep]
    rfl
  rw [gasOf_cons] at hgas hblock
  have hplain : Plain.turn s is guarded code pc p =
      .jumped d.next (p.withLess d.entry.baseGas) := by
    have hban : (guarded && violatesStatic Op.jumpDest.effect p.stack) = false := by
      cases guarded <;> rfl
    rw [Plain.turn_of_decoded hdecoded, Plain.step_eq hlawful hop hban
      (charge?_of_le (Nat.le_trans (Nat.le_add_right ..) hgas)) hfits.1 hfits.2.1]
    rfl
  rw [hblock, hplain]
  have hrest := hfits.2.2
  have hleft := h.remaining_le
  rw [hlawful.entry_of_op _ hop] at hrest
  refine .jumped ⟨_, _, _, hnext, hrest, (Machine.withMore_withLess hgas).symm, fun w hw => ?_,
    h.limit_eq, ?_⟩
  · -- a jump destination carries no word
    obtain ⟨n, hpush⟩ := hlawful.op_of_immediate w hw
    cases hop.symm.trans hpush
  · show p.gas.remaining - d.entry.baseGas ≤ limit
    omega

theorem mirrors (hcode : s.code = analyze is code) (hlimit : limit < u64Size) (guarded : Bool)
    (h : Abreast is code limit c m pc p pushed (d :: later) post) :
    Mirrors is code (gasOf later)
      (step s guarded (innerInstruction (analyze is code).jumpTarget pushed d later) m)
      (Plain.step s guarded code d p) := by
  cases h.place.view with
  | inner hdest hlawful hdecoded hends hins hnext =>
      obtain ⟨hmlimit, hmle⟩ := h.bounds
      rw [gasOf_cons] at hmle
      rw [h.ahead]
      exact inner_mirrors guarded hcode hlawful hdest hends h.fits h.top (by omega) (by omega)

section Inner

variable (hcode : s.code = analyze is code) (hhost : s.Honest) (hlimit : limit < u64Size)
  (h : Abreast is code limit c m pc p pushed (d :: later) post)

include hcode hhost hlimit h

/-- An instruction inside a block that goes through on both machines. -/
theorem inner_matched {flow flow' : Flow}
    (hblock : step s guarded (innerInstruction (analyze is code).jumpTarget pushed d later) m =
      .ok flow m')
    (hplain : Plain.step s guarded code d p = .ok flow' (m'.withMore (gasOf later)))
    (hflow : SameFlow is code flow flow') :
    Matched is code limit (turn s guarded c m) (Plain.turn s is guarded code pc p) := by
  cases h.place.view with
  | inner hdest hlawful hdecoded hends hins hnext =>
      obtain ⟨hmlimit, hmle⟩ := h.bounds
      rw [gasOf_cons] at hmle
      have hafter := (inner_holds hhost nofun hlimit guarded (analyze is code).jumpTarget pushed
        hlawful hdest h.fits (by omega) (.self hmlimit)).of_ok hblock
      have hremaining := hafter.remaining
      -- a jump or a halt is the last instruction of its block: the meters are the same again
      have hlast (hne : flow' ≠ .next) : later = [] :=
        (Plain.next_or_last hlawful hends hplain).resolve_left hne
      rw [turn_of_getElem? hcode hins, hblock, Plain.turn_of_decoded hdecoded, hplain]
      cases hflow with
      | next =>
          refine .jumped ⟨_, later, _, hnext, ?_, rfl, fun w hw => ?_, hafter.limit, ?_⟩
          · rw [hafter.height]
            exact h.fits.2.2
          · exact immediate_on_top hlawful hw hblock
          · show m'.gas.remaining + gasOf later ≤ limit
            omega
      | halt e =>
          obtain rfl := hlast nofun
          exact .ended e m'
      | jump htarget =>
          obtain rfl := hlast nofun
          obtain ⟨d', rest', post', -, hplace⟩ := Place.of_jump htarget
          exact .jumped (.of_place hplace hafter.limit (by omega))

/-- An instruction inside a block that goes through on the machine that pays by blocks. -/
theorem inner_forward {flow : Flow}
    (hblock : step s guarded (innerInstruction (analyze is code).jumpTarget pushed d later) m =
      .ok flow m') :
    Matched is code limit (turn s guarded c m) (Plain.turn s is guarded code pc p) := by
  obtain ⟨flow', hplain, hflow⟩ := (h.mirrors hcode hlimit guarded).forward hblock
  exact h.inner_matched hcode hhost hlimit hblock hplain hflow

/-- **An instruction inside a block on a plain run that halts.** What it leaves pays for the rest of
    the block, so it has not seen that the plain machine has more. -/
theorem inner_backward (hhalts : Halts (Plain.turn s is guarded code) pc p halt p') :
    Matched is code limit (turn s guarded c m) (Plain.turn s is guarded code pc p) := by
  cases h.place.view with
  | inner hdest hlawful hdecoded hends hins hnext =>
      obtain ⟨flow', p₁, hplain, -, -, -, hp₁, hpaid, hrest⟩ :=
        Plain.first_of_halts hhost hlimit hends hdecoded h.limit_eq h.remaining_le hhalts
      have hple := h.remaining_le
      -- the rest of the block is run through as well, so its price is still there
      have hlater : gasOf later ≤ p₁.gas.remaining := by
        rcases hrest with hrest | rfl
        · exact (Plain.fits_of_halts hhost hlimit h.place.chain.tail hnext.decoded hp₁ (by omega)
            hrest).2
        · exact Nat.zero_le _
      obtain ⟨flow, m', hblock, rfl, hflow⟩ :=
        (h.mirrors hcode hlimit guarded).backward hplain hlater
      exact h.inner_matched hcode hhost hlimit hblock hplain hflow

end Inner

end Abreast

/-! ## Runs side by side -/

namespace Synced

variable {halt : Halt} (hcode : s.code = analyze is code) (hhost : s.Honest) (hlimit : limit < u64Size)
  (h : Synced is code limit c m pc p)

include hcode hhost hlimit h

/-- A turn that does not fail is matched by the plain machine, or enters a block. -/
theorem forward_turn (guarded : Bool)
    (hok : ∀ {c' e m'}, turn s guarded c m ≠ .ended ⟨c', .error e, m'⟩) :
    (∃ c' m', turn s guarded c m = .jumped c' m' ∧ Synced is code limit c' m' pc p) ∨
      Matched is code limit (turn s guarded c m) (Plain.turn s is guarded code pc p) := by
  obtain ⟨pushed, rest, post, h⟩ := h
  -- whatever instruction is at hand goes through
  have through {ins : Instruction} (hins : (analyze is code).instructions[c]? = some ins) :
      ∃ flow m', step s guarded ins m = .ok flow m' := by
    have hturn : turn s guarded c m = afterStep c (c + 1) (step s guarded ins m) :=
      turn_of_getElem? hcode hins m
    cases hstep : step s guarded ins m with
    | ok flow m' => exact ⟨flow, m', rfl⟩
    | error e m' =>
        rw [hstep] at hturn
        exact absurd hturn hok
  cases h.place.view with
  | stop hins hpc =>
      rw [turn_of_none hcode hins, Plain.turn_of_le hpc, show p = m from h.ahead]
      exact .inr (.ended .stop m)
  | own hdest hins hnext =>
      obtain ⟨flow, m', hstep⟩ := through hins
      obtain ⟨-, gas, hcharge, -, hseg⟩ := of_enter_ok rfl rfl hstep
      obtain ⟨m₁, hturn, hm₁⟩ := h.own_turn hcode guarded hdest hseg (Meter.of_charge? hcharge).1
      exact .inl ⟨_, m₁, hturn, _, _, _, hm₁⟩
  | dest hdest hlawful _ hdecoded hins hnext =>
      obtain ⟨flow, m', hstep⟩ := through hins
      obtain ⟨-, gas, hcharge, -, hseg⟩ := of_enter_ok (hlawful.isJumpDest_iff.1 hdest) rfl hstep
      exact .inr (h.dest_matched hcode guarded hlawful hdest hseg (Meter.of_charge? hcharge).1)
  | inner _ _ _ _ hins _ =>
      obtain ⟨flow, m', hstep⟩ := through hins
      exact .inr (h.inner_forward hcode hhost hlimit hstep)

/-- **Runs that pay by blocks.** If such a run halts, the plain one halts in the same state. -/
theorem forward (hhalts : Halts (turn s guarded) c m halt m') :
    Halts (Plain.turn s is guarded code) pc p halt m' := by
  induction hhalts generalizing pc p with
  | @last c _ m m' halt ht =>
      have hturn := h.forward_turn hcode hhost hlimit guarded (by rw [ht]; nofun)
      rw [ht] at hturn
      obtain ⟨_, _, hjumped, -⟩ | hmatched := hturn
      · cases hjumped
      · generalize hplain : Plain.turn s is guarded code pc p = turned at hmatched
        cases hmatched
        exact .last hplain
  | @next c c₁ m m₁ m' halt ht _ ih =>
      have hturn := h.forward_turn hcode hhost hlimit guarded (by rw [ht]; nofun)
      rw [ht] at hturn
      obtain ⟨_, _, hjumped, hsynced⟩ | hmatched := hturn
      · -- at the entry of a block the plain machine waits
        cases hjumped
        exact ih hsynced
      · generalize hplain : Plain.turn s is guarded code pc p = turned at hmatched
        cases hmatched with
        | jumped hsynced => exact .next hplain (ih hsynced)

/-- A plain turn of a run that halts is matched, perhaps after the entry of a block. -/
theorem backward_turn (hhalts : Halts (Plain.turn s is guarded code) pc p halt p') :
    Matched is code limit (turn s guarded c m) (Plain.turn s is guarded code pc p) ∨
      ∃ c₁ m₁, turn s guarded c m = .jumped c₁ m₁ ∧
        Matched is code limit (turn s guarded c₁ m₁) (Plain.turn s is guarded code pc p) := by
  obtain ⟨pushed, rest, post, h⟩ := h
  cases h.place.view with
  | stop hins hpc =>
      rw [turn_of_none hcode hins, Plain.turn_of_le hpc, show p = m from h.ahead]
      exact .inl (.ended .stop m)
  | own hdest hins hnext =>
      -- the block at hand will be run through, so it can be entered now
      obtain ⟨hfits, hgas⟩ := Plain.fits_of_halts hhost hlimit hnext.chain hnext.decoded h.limit_eq
        h.remaining_le hhalts
      rw [show p = m from h.ahead] at hfits hgas
      obtain ⟨m₁, hturn, hm₁⟩ := h.own_turn hcode guarded hdest hfits hgas
      exact .inr ⟨_, m₁, hturn, hm₁.inner_backward hcode hhost hlimit hhalts⟩
  | dest hdest hlawful hchain hdecoded hins hnext =>
      obtain ⟨hfits, hgas⟩ := Plain.fits_of_halts hhost hlimit hchain hdecoded h.limit_eq
        h.remaining_le hhalts
      rw [show p = m from h.ahead] at hfits hgas
      exact .inl (h.dest_matched hcode guarded hlawful hdest hfits hgas)
  | inner => exact .inl (h.inner_backward hcode hhost hlimit hhalts)

/-- **Plain runs.** If such a run halts, the one that pays by blocks halts in the same state. -/
theorem backward (hhalts : Halts (Plain.turn s is guarded code) pc p halt p') :
    Halts (turn s guarded) c m halt p' := by
  induction hhalts generalizing c m with
  | @last pc _ p p' halt ht =>
      have finish {c m} (hmatched : Matched is code limit (turn s guarded c m)
          (Plain.turn s is guarded code pc p)) : Halts (turn s guarded) c m halt p' := by
        generalize hblock : turn s guarded c m = turned at hmatched
        rw [ht] at hmatched
        cases hmatched
        exact .last hblock
      obtain hmatched | ⟨c₁, m₁, hturn, hmatched⟩ := h.backward_turn hcode hhost hlimit (.last ht)
      · exact finish hmatched
      · exact .next hturn (finish hmatched)
  | @next pc pc₁ p p₁ p' halt ht hrest ih =>
      have goOn {c m} (hmatched : Matched is code limit (turn s guarded c m)
          (Plain.turn s is guarded code pc p)) : Halts (turn s guarded) c m halt p' := by
        generalize hblock : turn s guarded c m = turned at hmatched
        rw [ht] at hmatched
        cases hmatched with
        | jumped hsynced => exact .next hblock (ih hsynced)
      obtain hmatched | ⟨c₁, m₁, hturn, hmatched⟩ :=
        h.backward_turn hcode hhost hlimit (.next ht hrest)
      · exact goOn hmatched
      · exact .next hturn (goOn hmatched)

end Synced

/-! ## Frames -/

/-- A result is no fault if what was settled is none. -/
theorem fault?_ofMeter_settle {halt : Except Fault Halt} {gas : Meter} :
    (Result.ofMeter (settle halt gas).2.1 (settle halt gas).2.2).fault? = none ↔
      ∃ h, halt = .ok h := by
  cases halt with
  | error f => exact ⟨nofun, nofun⟩
  | ok h => cases h <;> exact ⟨fun _ => ⟨_, rfl⟩, fun _ => rfl⟩

/-- **`Frame.run` and `Plain.run` both come to a result**, and it is a fault on both or on neither; if
    it is none, the results, the stacks and the hosts that they leave are the same. -/
def RunsAlike (config : Config) (host : Host σ) (context : CallContext) (input : ByteArray)
    (gasLimit : Nat) (code : ByteArray) (memory : Memory) (state : σ) : Prop :=
  ∃ result f' memory' after plain stack afterPlain,
    (Frame.fresh config context input gasLimit code).run config host memory state =
      .ok (result, f', memory', after) ∧
    Plain.run config host context input gasLimit code memory state =
      .ok (plain, stack, afterPlain) ∧
    (result.fault? = none ↔ plain.fault? = none) ∧
    (result.fault? = none → plain = result ∧ stack = f'.stack ∧ afterPlain = after)

/-- Where both runs end, they end alike if one of them halts. -/
theorem Synced.ends_iff {n n' : Nat} {e e' : Ending σ} (hcode : s.code = analyze is code)
    (hhost : s.Honest) (hlimit : limit < u64Size) (h : Synced is code limit c m pc p)
    (he : iterate (turn s guarded) n c m = some e)
    (he' : iterate (Plain.turn s is guarded code) n' pc p = some e') :
    (∀ halt, e.halt = .ok halt → e'.halt = .ok halt ∧ e'.machine = e.machine) ∧
      ∀ halt, e'.halt = .ok halt → e.halt = .ok halt := by
  constructor
  · intro halt hhalt
    have hhalts := h.forward hcode hhost hlimit (halts_of_iterate he hhalt)
    exact hhalts.eq_of_iterate he'
  · intro halt hhalt
    have hhalts := h.backward hcode hhost hlimit (halts_of_iterate he' hhalt)
    exact (hhalts.eq_of_iterate he).1

/-- Frames run alike on honest and fair hosts. -/
theorem runsAlike {host : Host σ} (config : Config) (hhost : host.Honest) (hfair : host.Fair)
    (context : CallContext) (input : ByteArray) {gasLimit : Nat} (hgas : gasLimit < u64Size)
    (code : ByteArray) {memory : Memory} (hmemory : memory.limit ≤ Memory.pricedLimit) (state : σ) :
    RunsAlike config host context input gasLimit code memory state := by
  let f := Frame.fresh config context input gasLimit code
  have hhonest := hhost.setting f config
  have hfair' := hfair.setting f config
  obtain ⟨⟨result, f', memory', after⟩, hblock⟩ := Frame.run_ok hhonest hfair' hgas hmemory state
  obtain ⟨n, e, -, hiterate, hrun, -⟩ :=
    Frame.run_ends False Frame.fresh_atStart memory state hhonest False.elim hgas False.elim
  obtain ⟨halt, hhalt, hresult, hstack, -, hafter⟩ := Frame.of_run_ok hblock
  rw [hrun] at hhalt hresult hstack hafter
  obtain ⟨e', halt', hiterate', hhalt', hplain⟩ := Plain.run_ok hhonest hfair' hgas hmemory state
  let start := f.machine memory.enter (host.guard context state).2
  have hsynced : Synced (.ofFork config.fork) code gasLimit 0 start 0 start :=
    .of_place (Place.start _ code) rfl (Nat.le_refl _)
  obtain ⟨hforward, hbackward⟩ := hsynced.ends_iff rfl hhonest hgas hiterate hiterate'
  -- what one machine halts with, the other one halts with
  have hsame (h : Halt) (hh : halt = .ok h) : halt' = .ok h ∧ e'.machine = e.machine := by
    subst hh
    obtain ⟨hend, hmachine⟩ := hforward h (Frame.ok_of_untrapped hhalt)
    rw [hend] at hhalt'
    cases hhalt'
    exact ⟨rfl, hmachine⟩
  have hsame' (h : Halt) (hh : halt' = .ok h) : halt = .ok h := by
    subst hh
    rw [hbackward h (Frame.ok_of_untrapped hhalt')] at hhalt
    cases hhalt
    rfl
  refine ⟨result, f', memory', after, _, _, _, hblock, hplain, ?_, ?_⟩
  · rw [hresult, fault?_ofMeter_settle, fault?_ofMeter_settle]
    exact ⟨fun ⟨h, hh⟩ => ⟨h, (hsame h hh).1⟩, fun ⟨h, hh⟩ => ⟨h, hsame' h hh⟩⟩
  · intro hnone
    rw [hresult, fault?_ofMeter_settle] at hnone
    obtain ⟨h, hh⟩ := hnone
    obtain ⟨hhalts, hmachine⟩ := hsame h hh
    rw [hresult, hstack, hafter, hhalts, hmachine, hh]
    exact ⟨rfl, rfl, rfl⟩

/-! ## The record of the host -/

section Recorded

variable {host : Host σ}

/-- A recorded call is the call. -/
theorem Host.recorded_call (host : Host σ) (req : CallRequest) (memory : Memory) (r : Recorded σ) :
    host.recorded.call req memory r =
      (host.call req memory r.state).map fun (result, after, state) =>
        (result, after, { state, events := .called req memory.size memory.depth :: r.events }) := by
  unfold Host.recorded
  dsimp only
  cases host.call req memory r.state with
  | error t => rfl
  | ok answer => rfl

theorem Host.Honest.recorded (h : host.Honest) : host.recorded.Honest := by
  intro req memory r result memory' r' hgas hcall
  rw [Host.recorded_call] at hcall
  cases hinner : host.call req memory r.state with
  | error t =>
      rw [hinner] at hcall
      cases hcall
  | ok answer =>
      rw [hinner] at hcall
      cases hcall
      exact h hgas hinner

theorem Host.Fair.recorded (h : host.Fair) : host.recorded.Fair := by
  intro req memory r hgas hmemory
  obtain ⟨result, memory', state', hcall, hleft⟩ := h r.state hgas hmemory
  have hrecorded : host.recorded.call req memory r = .ok (result, memory',
      { state := state', events := .called req memory.size memory.depth :: r.events }) := by
    rw [Host.recorded_call, hcall]
    rfl
  exact ⟨result, memory', _, hrecorded, hleft⟩

end Recorded

/-- **Block metering refines metering by instructions.** For every code, in every new frame, on every
    host that is `Honest` and `Fair`: `Frame.run`, which pays by blocks, and `Plain.run` both come to
    a result; if it is not a fault, the result, the stack and the state of the host are the same
    (`RunsAlike`). That holds of `Host.recorded`, too, so the host has been asked the same things in
    the same order. -/
theorem block_metering_refines {host : Host σ} (config : Config) (hhost : host.Honest)
    (hfair : host.Fair) (context : CallContext) (input : ByteArray) {gasLimit : Nat}
    (hgas : gasLimit < u64Size) (code : ByteArray) {memory : Memory}
    (hmemory : memory.limit ≤ Memory.pricedLimit) (state : σ) :
    RunsAlike config host context input gasLimit code memory state ∧
      RunsAlike config host.recorded context input gasLimit code memory { state } :=
  ⟨runsAlike config hhost hfair context input hgas code hmemory state,
    runsAlike config hhost.recorded hfair.recorded context input hgas code hmemory { state }⟩

/-- The gas that is left, pushed and dropped. -/
def gasAndDrop : ByteArray := ⟨#[0x5a, 0x50]⟩

theorem decoded_gasAndDrop (is : InstructionSet) :
    decodedFrom is gasAndDrop 0 =
      [⟨0, Entry.ofOp is.schedule .gas, none⟩, ⟨1, Entry.ofOp is.schedule .pop, none⟩] := by
  rw [decodedFrom_cons 0x5a .gas rfl (by decide) rfl rfl,
    decodedFrom_cons 0x50 .pop rfl (by decide) rfl rfl, decodedFrom_of_le (by decide)]

/-- It sees the gas that is left after it, and not what the rest of its block costs. The word stays
    in the store of the stack. -/
theorem halts_gasAndDrop (s : Setting σ) (is : InstructionSet) (hgas : m.gas = .full 100)
    (hstack : m.stack = .empty) :
    Halts (Plain.turn s is false gasAndDrop) 0 m .stop
      { m with
        gas := ⟨100, 96, 0⟩
        stack := ⟨Stack.empty.slots.set 0 98#256, 0, by decide⟩ } := by
  have hfirst := decoded_gasAndDrop is
  obtain ⟨-, -, hsecond⟩ := decodedFrom_eq_cons hfirst
  have hlast : gasAndDrop.size ≤ 2 := by decide
  have hone := Decoded.next_ofOp is.schedule 0 (by decide : Op.all.find? _ = some .gas) rfl
  have htwo := Decoded.next_ofOp is.schedule 1 (by decide : Op.all.find? _ = some .pop) rfl
  rw [hone] at hsecond
  obtain ⟨gas, stack, returnData, memory, host⟩ := m
  cases hgas
  cases hstack
  have hpush : Plain.turn s is false gasAndDrop 0 ⟨.full 100, .empty, returnData, memory, host⟩ =
      .jumped 1 ⟨⟨100, 98, 0⟩, ⟨Stack.empty.slots.set 0 98#256, 1, by decide⟩, returnData, memory,
        host⟩ := by
    rw [Plain.turn_of_decoded hfirst, hone]
    rfl
  have hpop : Plain.turn s is false gasAndDrop 1
      ⟨⟨100, 98, 0⟩, ⟨Stack.empty.slots.set 0 98#256, 1, by decide⟩, returnData, memory, host⟩ =
      .jumped 2 ⟨⟨100, 96, 0⟩, ⟨Stack.empty.slots.set 0 98#256, 0, by decide⟩, returnData, memory,
        host⟩ := by
    rw [Plain.turn_of_decoded hsecond.symm, htwo]
    rfl
  exact .next hpush (.next hpop (.last (Plain.turn_of_le hlast _)))

/-- `gasAndDrop` on an empty world, on both machines. -/
theorem block_metering_refines_gasAndDrop :
    ({} : Chain).host.Honest ∧ ({} : Chain).host.Fair ∧ 100 < u64Size ∧
      (Memory.new 64).limit ≤ Memory.pricedLimit ∧
      ∃ f' memory' w',
        (Frame.fresh {} {} .empty 100 gasAndDrop).run {} ({} : Chain).host (.new 64) {} =
          .ok (⟨.stopped .empty, 96, 4, 0⟩, f', memory', w') := by
  have hhost : ({} : Chain).host.Honest := Chain.host_honest {}
  have hfair : ({} : Chain).host.Fair := Chain.host_fair {}
  have hgas : 100 < u64Size := by decide
  have hmemory : (Memory.new 64).limit ≤ Memory.pricedLimit := by decide
  refine ⟨hhost, hfair, hgas, hmemory, ?_⟩
  let f := Frame.fresh {} {} .empty 100 gasAndDrop
  obtain ⟨e, halt, hiterate, hhalt, hrun⟩ :=
    Plain.run_ok (hhost.setting f {}) (hfair.setting f {}) hgas hmemory {}
  have hhalts := halts_gasAndDrop (m := f.machine (Memory.new 64).enter ({} : World))
    (f.setting {} ({} : Chain).host) (.ofFork .cancun) rfl rfl
  obtain ⟨hstop, hmachine⟩ := hhalts.eq_of_iterate hiterate
  rw [hstop] at hhalt
  cases hhalt
  rw [hmachine] at hrun
  obtain ⟨⟨result, f', memory', w', plain, stack, afterPlain, hblock, hplain, hiff, hsame⟩, -⟩ :=
    block_metering_refines {} hhost hfair {} .empty hgas gasAndDrop hmemory {}
  cases hrun.symm.trans hplain
  obtain ⟨rfl, -⟩ := hsame (hiff.2 rfl)
  exact ⟨f', memory', w', hblock⟩

end MeteredEvm
