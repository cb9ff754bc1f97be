import MeteredEvm.World.Call
import MeteredEvm.Proofs.FaithfulDecoding
import MeteredEvm.Proofs.Observers
import MeteredEvm.Proofs.Turn
import MeteredEvm.Proofs.Views

/-!
# `MeteredEvm.Proofs.Copies` — what a copy does to memory, and what it costs

A copy takes its operands, pays by the word, makes the view hold all that it touches, and writes.
The bytes are those of a byte string that goes on with zeros, or those that the view had before the
copy. What is touched is the target, and the source as well if it is in memory; room for the two is
made one after the other, and paid for as if it was made at once.

## Contents
* `View.reach_reach`, `View.due_add_due` — making room twice.
* `Machine.Reaches` — a machine that has paid and made room.
* `Copy`, `Copy.Done`, `Copy.Affordable`, `Copy.MadeBy` — what a copy is to do, and that it is done.
* `Copy.MadeBy.of_coverCopy` — copies that make room for their target and go on from there.
* `Effect.copyPadded_makes`, `Effect.copyRange_makes`, `Effect.mcopy_makes`, … — the effects.
* `copies_are_exact`.
-/

namespace MeteredEvm

open Exec

variable {σ α : Type}

/-! ## Ranges -/

theorem getElem?_paddedSlice (data : ByteArray) (start : Nat) {len i : Nat} (h : i < len) :
    (Bytes.paddedSlice data start len)[i]?.getD 0 = data[start + i]?.getD 0 := by
  rw [getElem?_byteArray, toList_paddedSlice, getElem?_bytesFrom h, Option.getD_some]

/-- **In a byte string of a size that fits into 64 bits, an offset taken for one that fits reads the
    same bytes**: both are past the end if they differ. -/
theorem getElem?_paddedSlice_clampU64 {data : ByteArray} (hdata : data.size < u64Size) (source : Word)
    {len i : Nat} (h : i < len) :
    (Bytes.paddedSlice data source.clampU64 len)[i]?.getD 0 = data[source.toNat + i]?.getD 0 := by
  rw [getElem?_paddedSlice data _ h, Word.clampU64_eq_min]
  by_cases hfits : source.toNat < u64Size
  · rw [Nat.min_eq_left (by omega)]
  · have hpast (j : Nat) (hj : data.size ≤ j) : data[j]? = none := by
      rw [getElem?_byteArray]
      exact List.getElem?_eq_none hj
    rw [Nat.min_eq_right (by omega), hpast _ (by omega), hpast _ (by omega)]

theorem getElem?_extract {data : ByteArray} {start len i : Nat} (hlen : start + len ≤ data.size)
    (h : i < len) : (data.extract start (start + len))[i]? = data[start + i]? := by
  have hsize : data.data.size = data.size := rfl
  rw [getElem?_byteArray, getElem?_byteArray, Array.getElem?_toList, Array.getElem?_toList,
    ByteArray.data_extract, Array.getElem?_extract, if_pos (by omega)]

/-! ## Making room -/

theorem wordsFor_max (a b : Nat) : wordsFor (max a b) = max (wordsFor a) (wordsFor b) := by
  unfold wordsFor
  omega

namespace View

/-- **Reaching twice is reaching the further end.** -/
theorem reach_reach (v : View) (a b : Nat) : (v.reach a).reach b = v.reach (max a b) := by
  have hsize : max (max v.size (32 * wordsFor a)) (32 * wordsFor b) =
      max v.size (32 * wordsFor (max a b)) := by
    rw [wordsFor_max]
    omega
  unfold reach
  exact congrArg (View.mk · v.byte) hsize

theorem reach_zero (v : View) : v.reach 0 = v :=
  congrArg (View.mk · v.byte) (Nat.max_zero v.size)

/-- What is due for an end is what the view costs more when it reaches it. -/
theorem due_eq (v : View) (stop : Nat) :
    v.due stop = Gas.memory ((v.reach stop).size / 32) - Gas.memory (v.size / 32) := by
  have hwords : (v.reach stop).size / 32 = max (v.size / 32) (wordsFor stop) := by
    show max v.size (32 * wordsFor stop) / 32 = _
    omega
  rw [hwords]
  rfl

/-- **Paying for two ends, one after the other, is paying for the further one.** -/
theorem due_add_due (v : View) (a b : Nat) : v.due a + (v.reach a).due b = v.due (max a b) := by
  have hfirst : Gas.memory (v.size / 32) ≤ Gas.memory ((v.reach a).size / 32) :=
    Gas.memory_mono (Nat.div_le_div_right (Nat.le_max_left ..))
  have hsecond : Gas.memory ((v.reach a).size / 32) ≤
      Gas.memory (((v.reach a).reach b).size / 32) :=
    Gas.memory_mono (Nat.div_le_div_right (Nat.le_max_left ..))
  rw [due_eq v a, due_eq (v.reach a) b, due_eq v (max a b), ← reach_reach]
  omega

theorem due_le_due (v : View) {a b : Nat} (h : a ≤ b) : v.due a ≤ v.due b := by
  rw [← Nat.max_eq_right h, ← due_add_due]
  exact Nat.le_add_right ..

end View

/-- Paying twice is paying the sum. -/
theorem Meter.charge?_add {g g' : Meter} {a : Nat} (h : g.charge? a = some g') (b : Nat) :
    g'.charge? b = g.charge? (a + b) := by
  obtain ⟨hle, rfl⟩ := Meter.of_charge? h
  unfold Meter.charge?
  dsimp only
  by_cases hb : a + b ≤ g.remaining
  · rw [if_pos hb, if_pos (by omega), Nat.sub_sub]
  · rw [if_neg hb, if_neg (by omega)]

namespace Memory

variable {m m' : Memory}

theorem of_expansionCost_ok {stop cost : Nat} (h : m.expansionCost stop = .ok cost) :
    cost = m.views.active.due stop := by
  unfold expansionCost at h
  unfold View.due
  rw [show m.views.active.size = m.size from size_view m]
  split at h
  · cases h
  · split at h
    · rename_i hwords
      cases h
      rw [Nat.max_eq_left hwords, Nat.sub_self]
    · rename_i hwords
      split at h
      · rename_i after before hafter hbefore
        cases h
        rw [Gas.memory?_eq_some hafter, Gas.memory?_eq_some hbefore, Nat.max_eq_right (by omega)]
      · cases h

end Memory

/-- **A machine that has paid a fee and made room**: its view reaches `stop`, it has paid for that
    as well, and nothing else has changed. -/
structure Machine.Reaches (m : Machine σ) (stop fee : Nat) (m' : Machine σ) : Prop where
  view : m'.memory.views.active = m.memory.views.active.reach stop
  below : m.memory.SameBelow m'.memory
  room : stop ≤ m.memory.limit
  paid : m.gas.charge? (fee + m.memory.views.active.due stop) = some m'.gas
  stack : m'.stack = m.stack
  returnData : m'.returnData = m.returnData
  host : m'.host = m.host

namespace Machine.Reaches

variable {m m' m'' : Machine σ} {stop fee : Nat}

theorem size (h : m.Reaches stop fee m') :
    m'.memory.size = max m.memory.size (32 * wordsFor stop) := by
  have hview := congrArg View.size h.view
  rw [show m'.memory.views.active.size = m'.memory.size from m'.memory.size_view] at hview
  rw [hview]
  show max m.memory.view.size _ = _
  rw [m.memory.size_view]

theorem le_size (h : m.Reaches stop fee m') : stop ≤ m'.memory.size := by
  rw [h.size]
  exact Nat.le_trans (le_wordsFor stop) (Nat.le_max_right ..)

/-- Paying alone. -/
theorem of_charge? {gas : Meter} (h : m.gas.charge? fee = some gas) :
    m.Reaches 0 fee { m with gas } := by
  refine ⟨(View.reach_zero _).symm, .refl _, Nat.zero_le _, ?_, rfl, rfl, rfl⟩
  rw [Memory.due_zero]
  exact h

/-- Making room for more. -/
theorem grow (h : m.Reaches stop fee m') {further : Nat} {memory : Memory} {gas : Meter} {u : Unit}
    (hgrow : Memory.grow further (m'.memory, m'.gas) = .ok u (memory, gas)) :
    m.Reaches (max stop further) fee { m' with memory, gas } := by
  obtain ⟨cost, hcost, hcharge, rfl⟩ := Memory.of_grow_ok hgrow
  have hlimit := Memory.le_limit_of_expansionCost_ok hcost
  rw [h.below.limit] at hlimit
  rw [Memory.of_expansionCost_ok hcost, Meter.charge?_add h.paid, h.view, Nat.add_assoc,
    View.due_add_due] at hcharge
  refine ⟨?_, h.below.trans (Memory.extend_sameBelow _ _), Nat.max_le.2 ⟨h.room, hlimit⟩, hcharge,
    h.stack, h.returnData, h.host⟩
  show (m'.memory.extend further).views.active = _
  rw [Memory.active_extend, h.view, View.reach_reach]

end Machine.Reaches

/-- A sound memory stays sound when room is made. -/
theorem Machine.Reaches.sound {m m' : Machine σ} {stop fee : Nat} (h : m.Reaches stop fee m')
    (hm : m.memory.Sound) : m'.memory.Sound := by
  have hlimit : m.memory.limit ≤ 2 ^ 37 - 32 := hm.limit_le
  have hroom := h.room
  have hsize := hm.size_lt
  refine ⟨?_, ?_⟩
  · rw [h.below.limit]
    exact hm.limit_le
  · rw [h.size]
    unfold wordsFor
    omega

namespace Exec

variable {m m' : Machine σ}

theorem of_write_ok {offset : Nat} {bytes : ByteArray} {u : Unit}
    (h : write offset bytes m = .ok u m') :
    offset + bytes.size ≤ m.memory.size ∧
      m' = { m with memory := m.memory.write offset bytes } := by
  unfold write at h
  split at h
  · rename_i hle
    cases h
    exact ⟨hle, rfl⟩
  · cases h

/-- What is moved are the bytes of the view, also where the ranges overlap. -/
theorem of_move_ok {source target len : Nat} {u : Unit}
    (h : move source target len m = .ok u m') :
    ∃ bytes : ByteArray, bytes.size = len ∧
      (∀ i < len, bytes[i]?.getD 0 = m.memory.views.active.byte (source + i)) ∧
      target + bytes.size ≤ m.memory.size ∧
      m' = { m with memory := m.memory.write target bytes } := by
  unfold move Memory.move? at h
  rw [Memory.read?_eq] at h
  by_cases hsource : source + len ≤ m.memory.view.size
  · have hsize : (m.memory.view.extract source (source + len)).size = len := by
      rw [ByteArray.size_extract]
      omega
    have hbytes (i : Nat) (hi : i < len) :
        (m.memory.view.extract source (source + len))[i]?.getD 0 =
          m.memory.views.active.byte (source + i) := by
      rw [getElem?_extract hsource hi, getElem?_byteArray, Array.getElem?_toList]
      rfl
    rw [if_pos hsource] at h
    generalize m.memory.view.extract source (source + len) = bytes at h hsize hbytes
    dsimp only [Memory.write?] at h
    by_cases hle : target + bytes.size ≤ m.memory.size
    · rw [if_pos hle] at h
      exact ⟨bytes, hsize, hbytes, hle, (EStateM.Result.ok.inj h).2.symm⟩
    · rw [if_neg hle] at h
      cases h
  · rw [if_neg hsource] at h
    cases h

theorem of_growAt_ok {offset : Word} {len start : Nat} (h : growAt offset len m = .ok start m') :
    start = offset.toNat ∧ ∃ memory gas,
      Memory.grow (offset.toNat + len) (m.memory, m.gas) = .ok () (memory, gas) ∧
        m' = { m with memory, gas } := by
  unfold growAt Word.toU64? at h
  by_cases hoffset : offset.toNat < u64Size
  · rw [if_pos hoffset] at h
    obtain ⟨_, m₁, hgrow, hpure⟩ := Act.eq_of_bind_ok h
    cases hpure
    unfold growTo onMemory at hgrow
    split at hgrow
    · rename_i memory gas hgrown
      cases hgrow
      exact ⟨rfl, memory, gas, Memory.of_growTo_ok hgrown, rfl⟩
    · cases hgrow
  · rw [if_neg hoffset] at h
    cases h

theorem coverCopy_of_zero {len : Word} (hlen : len = 0#256) (target : Word) (m : Machine σ) :
    coverCopy target len m = .ok none m := by
  unfold coverCopy
  rw [if_pos hlen]
  rfl

/-- **What making room for a copy comes to**: nothing for an empty one, and else the fee by the word
    and room for the target. -/
theorem of_coverCopy_ok {target len : Word} {range : Option (Nat × Nat)}
    (h : coverCopy target len m = .ok range m') :
    (len = 0#256 ∧ range = none ∧ m' = m) ∨
      (len ≠ 0#256 ∧ range = some (target.toNat, len.toNat) ∧
        m.Reaches (target.toNat + len.toNat) (Gas.copy len.toNat) m') := by
  by_cases hlen : len = 0#256
  · rw [coverCopy_of_zero hlen] at h
    cases h
    exact .inl ⟨hlen, rfl, rfl⟩
  · refine .inr ⟨hlen, ?_⟩
    unfold coverCopy Word.toU64? at h
    rw [if_neg hlen] at h
    by_cases hn : len.toNat < u64Size
    · rw [if_pos hn] at h
      obtain ⟨_, m₁, hcharge, hcover⟩ := Act.eq_of_bind_ok h
      obtain ⟨gas, hgas, rfl⟩ := of_charge_ok hcharge
      obtain ⟨memory, gas', hcovered, rfl⟩ := of_cover_ok hcover
      rw [Memory.cover_eq_growTo hlen, Act.map_apply] at hcovered
      split at hcovered
      · rename_i hgrow
        cases hcovered
        have hreaches := (Machine.Reaches.of_charge? hgas).grow (Memory.of_growTo_ok hgrow)
        rw [Nat.zero_max] at hreaches
        exact ⟨rfl, hreaches⟩
      · cases hcovered
    · rw [if_neg hn] at h
      cases h

/-- Go on with a range, if there is one. -/
def inRange (body : Nat → Nat → Exec σ Unit) : Option (Nat × Nat) → Exec σ Unit
  | some (offset, n) => body offset n
  | none => pure ()

/-- A sound memory holds a size that the limit and the gas allow. -/
theorem growTo_of_affordable (hm : m.memory.Sound) {offset len : Nat}
    (hroom : offset + len ≤ m.memory.limit)
    (hgas : m.memory.views.active.due (offset + len) ≤ m.gas.remaining) :
    ∃ memory gas, Memory.growTo offset len (m.memory, m.gas) = .ok () (memory, gas) := by
  have hlimit : m.memory.limit ≤ 2 ^ 37 - 32 := hm.limit_le
  have hstop : offset + len < u64Size := by
    unfold u64Size
    omega
  have hpays : ¬ m.gas.remaining < (View.ofBytes m.memory.view).due (offset + len) :=
    Nat.not_lt.2 hgas
  rw [Memory.growTo_eq, add64?, if_pos hstop]
  dsimp only
  rw [Memory.grow_eq_due hm, if_neg (by omega), if_neg hpays]
  exact ⟨_, _, rfl⟩

/-- **Room for a copy is made where it is allowed**; for an empty one there is nothing to do. -/
theorem coverCopy_runs (hm : m.memory.Sound) {target len : Word}
    (h : len.toNat ≠ 0 → target.toNat + len.toNat ≤ m.memory.limit ∧
      Gas.copy len.toNat + m.memory.views.active.due (target.toNat + len.toNat) ≤
        m.gas.remaining) :
    (len = 0#256 ∧ coverCopy target len m = .ok none m) ∨
      (len ≠ 0#256 ∧ ∃ m', coverCopy target len m = .ok (some (target.toNat, len.toNat)) m' ∧
        m.Reaches (target.toNat + len.toNat) (Gas.copy len.toNat) m') := by
  by_cases hlen : len = 0#256
  · exact .inl ⟨hlen, coverCopy_of_zero hlen target m⟩
  · obtain ⟨hroom, hgas⟩ := h (Word.toNat_ne_zero hlen)
    have hlimit : m.memory.limit ≤ 2 ^ 37 - 32 := hm.limit_le
    have hn : len.toNat < u64Size := by
      unfold u64Size
      omega
    have hcharge : charge (Gas.copy len.toNat) m = .ok () { m with
        gas := { m.gas with remaining := m.gas.remaining - Gas.copy len.toNat } } :=
      charge_ok (if_pos (by omega))
    obtain ⟨memory, gas, hgrow⟩ := growTo_of_affordable (m := { m with
      gas := { m.gas with remaining := m.gas.remaining - Gas.copy len.toNat } }) hm hroom
      (Nat.le_sub_of_add_le (by rw [Nat.add_comm]; exact hgas))
    have hcover : Memory.cover target len (m.memory,
        { m.gas with remaining := m.gas.remaining - Gas.copy len.toNat }) =
          .ok (some (target.toNat, len.toNat)) (memory, gas) := by
      rw [Memory.cover_eq_growTo hlen, Act.map_apply, hgrow]
    have hcovered : ∃ m', coverCopy target len m = .ok (some (target.toNat, len.toNat)) m' := by
      unfold coverCopy Word.toU64?
      rw [if_neg hlen, if_pos hn]
      dsimp only
      rw [Act.bind_ok hcharge]
      exact ⟨_, cover_ok hcover⟩
    obtain ⟨m', hcover⟩ := hcovered
    obtain ⟨hzero, -⟩ | ⟨-, -, hreaches⟩ := of_coverCopy_ok hcover
    · exact absurd hzero hlen
    · exact .inr ⟨hlen, m', hcover, hreaches⟩

theorem growAt_of_affordable (hm : m.memory.Sound) (offset : Word) (len : Nat)
    (hroom : offset.toNat + len ≤ m.memory.limit)
    (hgas : m.memory.views.active.due (offset.toNat + len) ≤ m.gas.remaining) :
    ∃ m', growAt offset len m = .ok offset.toNat m' := by
  have hlimit : m.memory.limit ≤ 2 ^ 37 - 32 := hm.limit_le
  have hoffset : offset.toNat < u64Size := by
    unfold u64Size
    omega
  obtain ⟨memory, gas, hgrow⟩ := growTo_of_affordable hm hroom hgas
  unfold growAt Word.toU64?
  rw [if_pos hoffset]
  dsimp only
  rw [Act.bind_ok (growTo_ok hgrow)]
  exact ⟨_, rfl⟩

end Exec

/-! ## Copies -/

/-- **What a copy is to do.** -/
structure Copy where
  /-- Where the bytes go. -/
  target : Nat
  /-- How many there are. -/
  len : Nat
  /-- The bytes, by their places in the copy. -/
  byte : Nat → UInt8
  /-- The end of all that is touched. -/
  stop : Nat

namespace Copy

/-- The copy of a range of a byte string, which goes on with zeros. -/
def ofBytes (data : ByteArray) (target source len : Word) : Copy where
  target := target.toNat
  len := len.toNat
  byte i := data[source.toNat + i]?.getD 0
  stop := target.toNat + len.toNat

/-- The copy of a range of the view, as it is before the copy. -/
def inside (memory : Memory) (target source len : Word) : Copy where
  target := target.toNat
  len := len.toNat
  byte i := memory.views.active.byte (source.toNat + i)
  stop := max (target.toNat + len.toNat) (source.toNat + len.toNat)

/-- **A copy is done.** Its bytes are at the target, and all others are as they were; the view holds
    all that was touched, in whole words; and the meter has paid by the word, and for what the view
    has grown. A copy of nothing does nothing. -/
structure Done (c : Copy) (m m' : Machine σ) : Prop where
  copied : ∀ i < c.len, m'.memory.views.active.byte (c.target + i) = c.byte i
  others : ∀ a, a < c.target ∨ c.target + c.len ≤ a →
    m'.memory.views.active.byte a = m.memory.views.active.byte a
  below : m.memory.SameBelow m'.memory
  size : c.len ≠ 0 → m'.memory.size = max m.memory.size (32 * wordsFor c.stop)
  room : c.len ≠ 0 → c.stop ≤ m.memory.limit
  paid : m.gas.charge? (3 * wordsFor c.len +
    (Gas.memory (m'.memory.size / 32) - Gas.memory (m.memory.size / 32))) = some m'.gas
  nothing : c.len = 0 → m'.memory = m.memory ∧ m'.gas = m.gas
  stack : m'.stack = m.stack
  returnData : m'.returnData = m.returnData

/-- There is room for a copy, and gas to pay for it; a copy of nothing needs neither. -/
def Affordable (c : Copy) (m : Machine σ) : Prop :=
  c.len = 0 ∨ (c.stop ≤ m.memory.limit ∧
    Gas.copy c.len + m.memory.views.active.due c.stop ≤ m.gas.remaining)

/-- **A copy is made** by a computation from the machine `m`, under a condition: if the computation
    comes to an end the copy is done; and in a sound memory it does exactly if the condition holds
    and the copy can be afforded. -/
structure MadeBy (c : Copy) (m : Machine σ) (condition : Prop) (value : α)
    (r : EStateM.Result Failure (Machine σ) α) : Prop where
  done : ∀ a m', r = .ok a m' → a = value ∧ condition ∧ c.Done m m'
  runs : m.memory.Sound → ((∃ m', r = .ok value m') ↔ condition ∧ c.Affordable m)

variable {c : Copy} {m m' : Machine σ}

theorem Done.refl (hlen : c.len = 0) (m : Machine σ) : c.Done m m where
  copied i hi := by omega
  others _ _ := rfl
  below := .refl _
  size h := absurd hlen h
  room h := absurd hlen h
  paid := by
    rw [hlen, Nat.sub_self]
    unfold Meter.charge?
    exact if_pos (Nat.zero_le _)
  nothing _ := ⟨rfl, rfl⟩
  stack := rfl
  returnData := rfl

/-- The price of a copy, by the size that the view has in the end. -/
theorem price_eq (c : Copy) {before after : Memory}
    (h : after.size = max before.size (32 * wordsFor c.stop)) :
    3 * wordsFor c.len + (Gas.memory (after.size / 32) - Gas.memory (before.size / 32)) =
      Gas.copy c.len + before.views.active.due c.stop := by
  rw [View.due_eq, h]
  show _ = 3 * wordsFor c.len + (Gas.memory (max before.view.size _ / 32) -
    Gas.memory (before.view.size / 32))
  rw [before.size_view]

theorem Done.affordable (h : c.Done m m') : c.Affordable m := by
  by_cases hlen : c.len = 0
  · exact .inl hlen
  · have hpaid := (Meter.of_charge? h.paid).1
    rw [c.price_eq (h.size hlen)] at hpaid
    exact .inr ⟨h.room hlen, hpaid⟩

/-- **Writing the bytes, once there is room for them, does the copy**, whatever the host was asked
    in between. -/
theorem Done.of_write (hlen : c.len ≠ 0)
    (h : m.Reaches c.stop (Gas.copy c.len) m') {bytes : ByteArray} (hsize : bytes.size = c.len)
    (hbytes : ∀ i < c.len, bytes[i]?.getD 0 = c.byte i)
    (hle : c.target + bytes.size ≤ m'.memory.size) (host : σ) :
    c.Done m { m' with memory := m'.memory.write c.target bytes, host } := by
  have hview : (m'.memory.write c.target bytes).views.active =
      (m.memory.views.active.reach c.stop).store c.target bytes := by
    rw [Memory.active_write hle, h.view]
  have hsized : (m'.memory.write c.target bytes).size =
      max m.memory.size (32 * wordsFor c.stop) := by
    rw [← h.size]
    show (m'.memory.write c.target bytes).buffer.size - _ = _
    rw [Memory.size_write hle]
    rfl
  refine ⟨fun i hi => ?_, fun a ha => ?_, h.below.trans (Memory.write_sameBelow hle),
    fun _ => hsized, fun _ => h.room, ?_, fun hzero => absurd hzero hlen, h.stack, h.returnData⟩
  · show (m'.memory.write c.target bytes).views.active.byte (c.target + i) = c.byte i
    rw [hview, ← hbytes i hi]
    show (if c.target ≤ c.target + i ∧ c.target + i < c.target + bytes.size then
      bytes.data[c.target + i - c.target]?.getD 0 else _) = _
    rw [if_pos (by omega), Nat.add_sub_cancel_left, getElem?_byteArray, Array.getElem?_toList]
  · show (m'.memory.write c.target bytes).views.active.byte a = _
    rw [hview]
    exact if_neg (by omega)
  · rw [c.price_eq hsized]
    exact h.paid

/-- What is left to show of a computation that makes a copy. -/
theorem MadeBy.of_runs {condition : Prop} {value : α} {r : EStateM.Result Failure (Machine σ) α}
    (hdone : ∀ a m', r = .ok a m' → a = value ∧ condition ∧ c.Done m m')
    (hruns : m.memory.Sound → condition → c.Affordable m → ∃ m', r = .ok value m') :
    c.MadeBy m condition value r := by
  refine ⟨hdone, fun hm => ⟨?_, fun h => hruns hm h.1 h.2⟩⟩
  rintro ⟨m', hr⟩
  obtain ⟨-, hcondition, hdid⟩ := hdone value m' hr
  exact ⟨hcondition, hdid.affordable⟩

/-- **A copy is made by making room for its target and going on from there**; a copy of nothing is
    made by doing nothing. -/
theorem MadeBy.of_coverCopy {target len : Word}
    (body : Nat → Nat → Exec σ Unit) (hlen : c.len = len.toNat)
    (hstop : target.toNat + len.toNat ≤ c.stop)
    (hdone : ∀ ⦃m₁ m'⦄, len ≠ 0#256 →
      m.Reaches (target.toNat + len.toNat) (Gas.copy len.toNat) m₁ →
        body target.toNat len.toNat m₁ = .ok () m' → c.Done m m')
    (hruns : ∀ ⦃m₁⦄, m.memory.Sound →
      c.stop ≤ m.memory.limit ∧
        Gas.copy c.len + m.memory.views.active.due c.stop ≤ m.gas.remaining →
      m.Reaches (target.toNat + len.toNat) (Gas.copy len.toNat) m₁ →
        ∃ m', body target.toNat len.toNat m₁ = .ok () m') :
    c.MadeBy m True () ((coverCopy target len >>= inRange body) m) := by
  refine .of_runs (fun u m' h => ⟨rfl, trivial, ?_⟩) fun hsound _ haffordable => ?_
  · obtain ⟨range, m₁, hcover, hbody⟩ := Act.eq_of_bind_ok h
    obtain ⟨hzero, rfl, rfl⟩ | ⟨hsome, rfl, hreaches⟩ := of_coverCopy_ok hcover
    · cases hbody
      exact .refl (hlen.trans (congrArg BitVec.toNat hzero)) _
    · exact hdone hsome hreaches hbody
  · have hrooms (hsome : len.toNat ≠ 0) := haffordable.resolve_left (hlen ▸ hsome)
    have hdue := m.memory.views.active.due_le_due hstop
    obtain ⟨hzero, hcover⟩ | ⟨hsome, m₁, hcover, hreaches⟩ := coverCopy_runs hsound fun hsome =>
      ⟨Nat.le_trans hstop (hrooms hsome).1,
        Nat.le_trans (Nat.add_le_add_left hdue _) (hlen ▸ (hrooms hsome).2)⟩
    · rw [Act.bind_ok hcover]
      exact ⟨m, rfl⟩
    · rw [Act.bind_ok hcover]
      exact hruns hsound (hrooms (Word.toNat_ne_zero hsome)) hreaches

theorem MadeBy.congr {p q : Prop} {value : α} {r : EStateM.Result Failure (Machine σ) α}
    (h : c.MadeBy m p value r) (hiff : p ↔ q) : c.MadeBy m q value r := by
  rw [← propext hiff]
  exact h

theorem MadeBy.andNext {condition : Prop} {x : Exec σ Unit} {m₀ : Machine σ}
    (h : c.MadeBy m condition () (x m₀)) :
    c.MadeBy m condition .next (MeteredEvm.andNext x m₀) := by
  refine .of_runs (fun flow m' hr => ?_) fun hm hcondition haffordable => ?_
  · obtain ⟨_, m₁, hx, hpure⟩ := Act.eq_of_bind_ok hr
    cases hpure
    exact ⟨rfl, (h.done _ _ hx).2⟩
  · obtain ⟨m', hx⟩ := (h.runs hm).2 ⟨hcondition, haffordable⟩
    unfold MeteredEvm.andNext
    rw [Act.bind_ok hx]
    exact ⟨m', rfl⟩

end Copy

/-! ## The effects -/

namespace Exec

variable {m m' : Machine σ}

theorem of_popMany_succ {n : Nat} {w : Word} {ws : List Word}
    (h : popMany (n + 1) m = .ok (w :: ws) m') :
    ∃ st, pop m = .ok w { m with stack := st } ∧
      popMany n { m with stack := st } = .ok ws m' := by
  unfold popMany at h
  obtain ⟨_, m₁, hpop, h⟩ := Act.eq_of_bind_ok h
  obtain ⟨_, m₂, hpops, h⟩ := Act.eq_of_bind_ok h
  cases h
  obtain ⟨st, -, rfl⟩ := of_pop_ok hpop
  exact ⟨st, hpop, hpops⟩

/-- Taking words off the stack changes nothing else. -/
theorem of_popMany_ok {n : Nat} {ws : List Word} (h : popMany n m = .ok ws m') :
    ∃ st, m' = { m with stack := st } := by
  induction n generalizing m ws with
  | zero =>
      cases h
      exact ⟨_, rfl⟩
  | succ n ih =>
      cases ws with
      | nil =>
          unfold popMany at h
          obtain ⟨_, _, -, h⟩ := Act.eq_of_bind_ok h
          obtain ⟨_, _, -, h⟩ := Act.eq_of_bind_ok h
          cases h
      | cons w ws =>
          obtain ⟨st, -, hpops⟩ := of_popMany_succ h
          obtain ⟨st', rfl⟩ := ih hpops
          exact ⟨st', rfl⟩

/-- The operands of a copy are the words on top of the stack. -/
theorem bind_popMany {a b c : Word} (h : popMany 3 m = .ok [a, b, c] m')
    {f : Word → Word → Word → Exec σ α} :
    (do
      let x ← pop
      let y ← pop
      let z ← pop
      f x y z) m = f a b c m' := by
  obtain ⟨_, hfirst, h⟩ := of_popMany_succ h
  obtain ⟨_, hsecond, h⟩ := of_popMany_succ h
  obtain ⟨_, hthird, h⟩ := of_popMany_succ h
  cases h
  rw [Act.bind_ok hfirst, Act.bind_ok hsecond, Act.bind_ok hthird]

end Exec

/-- The byte string that a copy reads from. -/
def Setting.bytesOf (s : Setting σ) (m : Machine σ) : CopySource → ByteArray
  | .callData => s.input
  | .code => s.code.code
  | .returnData => m.returnData

namespace Effect

open Copy

variable {m m' : Machine σ}

/-- Room has been made and the bytes are written. -/
theorem write_done {data bytes : ByteArray} {target source len : Word}
    (hlen : len ≠ 0#256)
    (hreaches : m.Reaches (target.toNat + len.toNat) (Gas.copy len.toNat) m')
    (hsize : bytes.size = len.toNat)
    (hbytes : ∀ i < len.toNat, bytes[i]?.getD 0 = data[source.toNat + i]?.getD 0) {host : σ}
    {u : Unit} {m'' : Machine σ} (h : write target.toNat bytes { m' with host } = .ok u m'') :
    (Copy.ofBytes data target source len).Done m m'' := by
  obtain ⟨hle, rfl⟩ := of_write_ok h
  exact Done.of_write (c := Copy.ofBytes data target source len) (Word.toNat_ne_zero hlen) hreaches
    hsize hbytes hle host

/-- Where room has been made, bytes can be written. -/
theorem write_runs {target len : Word} {fee : Nat}
    (hreaches : m.Reaches (target.toNat + len.toNat) fee m') {bytes : ByteArray}
    (hsize : bytes.size = len.toNat) (host : σ) :
    ∃ m'', write target.toNat bytes { m' with host } = .ok () m'' := by
  have hle : target.toNat + len.toNat ≤ ({ m' with host } : Machine σ).memory.size :=
    hreaches.le_size
  unfold write
  rw [hsize, if_pos hle]
  exact ⟨_, rfl⟩

theorem copyPadded_eq (data : ByteArray) (target source len : Word) :
    (copyPadded data target source len : Exec σ Unit) = coverCopy target len >>= inRange fun offset n =>
      write offset (Bytes.paddedSlice data source.clampU64 n) := by
  unfold copyPadded
  refine bind_congr fun range => ?_
  cases range with
  | none => rfl
  | some r => rfl

theorem copyPadded_makes {data : ByteArray} (hdata : data.size < u64Size)
    (target source len : Word) :
    (Copy.ofBytes data target source len).MadeBy m True ()
      (copyPadded data target source len m) := by
  rw [copyPadded_eq]
  refine .of_coverCopy _ rfl (Nat.le_refl _) ?_ ?_
  · intro m₁ m' hlen hreaches hwrite
    exact write_done hlen hreaches (Bytes.size_paddedSlice ..)
      (fun i hi => getElem?_paddedSlice_clampU64 hdata source hi) hwrite
  · intro m₁ _ _ hreaches
    exact write_runs hreaches (Bytes.size_paddedSlice ..) m₁.host

/-- A copy of a range that is all there. The low part of the offset is the offset, since it is one of
    a byte string. -/
theorem copyRange_makes {data : ByteArray}
    (hdata : data.size < u64Size) (target : Word) {source len : Word}
    (hthere : source.toNat + len.toNat ≤ data.size) :
    (Copy.ofBytes data target source len).MadeBy m True ()
      ((coverCopy target len >>= inRange fun offset n =>
        orTrap .data (Bytes.range? data source.lowU64 n) >>= write offset) m) := by
  have hlow : source.lowU64 = source.toNat := Nat.mod_eq_of_lt (by omega)
  have hrange : Bytes.range? data source.lowU64 len.toNat =
      some (data.extract source.toNat (source.toNat + len.toNat)) := by
    unfold Bytes.range?
    rw [hlow, if_pos hthere]
  have hsize : (data.extract source.toNat (source.toNat + len.toNat)).size = len.toNat := by
    rw [ByteArray.size_extract]
    omega
  have htake (m₁ : Machine σ) :
      (orTrap .data (Bytes.range? data source.lowU64 len.toNat) : Exec σ ByteArray) m₁ =
        .ok (data.extract source.toNat (source.toNat + len.toNat)) m₁ := by
    rewrite [hrange]
    rfl
  refine .of_coverCopy _ rfl (Nat.le_refl _) ?_ ?_
  · intro m₁ m' hlen hreaches hwrite
    rw [Act.bind_ok (htake m₁)] at hwrite
    refine write_done hlen hreaches hsize (fun i hi => ?_) hwrite
    rw [getElem?_extract hthere hi]
  · intro m₁ _ _ hreaches
    rw [Act.bind_ok (htake m₁)]
    exact write_runs hreaches hsize m₁.host

/-- A range is all there exactly if its end is a word that is not past that of the data. -/
theorem add?_passes {data : ByteArray} (hdata : data.size < u64Size) {source len : Word}
    (h : source.toNat + len.toNat ≤ data.size) :
    ∃ stop, source.add? len = some stop ∧ ¬ ofNat data.size < stop := by
  have hsize : (ofNat data.size).toNat = data.size :=
    Nat.mod_eq_of_lt (Nat.lt_trans hdata (by decide))
  have hstop : (ofNat (source.toNat + len.toNat)).toNat = source.toNat + len.toNat :=
    Nat.mod_eq_of_lt (Nat.lt_trans (Nat.lt_of_le_of_lt h hdata) (by decide))
  refine ⟨_, Word.add?_eq_some.2 hstop, BitVec.not_lt.2 ?_⟩
  rw [BitVec.le_def, hstop, hsize]
  exact h

theorem copyWhole_eq {data : ByteArray} (target : Word) {source len stop : Word}
    (hstop : source.add? len = some stop) (hle : ¬ ofNat data.size < stop) :
    (copyWhole data target source len : Exec σ Unit) = coverCopy target len >>= inRange fun offset n =>
      orTrap .data (Bytes.range? data source.lowU64 n) >>= write offset := by
  unfold copyWhole
  rw [hstop]
  dsimp only
  rw [if_neg hle]
  refine bind_congr fun range => ?_
  cases range with
  | none => rfl
  | some r => rfl

/-- **A copy of a range is made if it is all there**, and faults if it is not. The sum of the
    operands is a word then, and if it is none the range is not there. -/
theorem copyWhole_makes {data : ByteArray} (hdata : data.size < u64Size)
    (target source len : Word) :
    (Copy.ofBytes data target source len).MadeBy m (source.toNat + len.toNat ≤ data.size) ()
      (copyWhole data target source len m) := by
  by_cases hthere : source.toNat + len.toNat ≤ data.size
  · obtain ⟨stop, hstop, hle⟩ := add?_passes hdata hthere
    rw [copyWhole_eq target hstop hle]
    exact (copyRange_makes hdata target hthere).congr (iff_of_true trivial hthere)
  · refine .of_runs (fun u m' h => ?_) fun _ h => absurd h hthere
    unfold copyWhole at h
    cases hstop : source.add? len with
    | none =>
        rw [hstop] at h
        cases h
    | some stop =>
        have hsum := Word.add?_eq_some.1 hstop
        have hsize : (ofNat data.size).toNat ≤ data.size := Nat.mod_le ..
        have hpast : ofNat data.size < stop := by
          rw [BitVec.lt_def]
          omega
        rw [hstop] at h
        dsimp only at h
        rw [if_pos hpast] at h
        cases h

theorem copy_makes (s : Setting σ) (source : CopySource) {target start len : Word}
    (hpop : popMany 3 m = .ok [target, start, len] m')
    (hdata : (s.bytesOf m' source).size < u64Size) :
    (Copy.ofBytes (s.bytesOf m' source) target start len).MadeBy m'
      (source = .returnData → start.toNat + len.toNat ≤ m'.returnData.size) ()
      (copy s source m) := by
  unfold copy
  rw [bind_popMany hpop]
  cases source with
  | callData =>
      refine .congr (copyPadded_makes hdata target start len) ?_
      simp
  | code =>
      refine .congr (copyPadded_makes hdata target start len) ?_
      simp
  | returnData =>
      refine .congr (copyWhole_makes hdata target start len) ?_
      simp [Setting.bytesOf]

theorem extCodeCopy_eq (s : Setting σ) {account target start len : Word}
    (hpop : popMany 4 m = .ok [account, target, start, len] m') :
    extCodeCopy s m =
      (touchAccount s account.toAddress >>= fun _ =>
        coverCopy target len >>= inRange fun offset n => do
          let code ← ask s (.code account.toAddress)
          write offset (Bytes.paddedSlice code start.clampU64 n)) m' := by
  obtain ⟨st, hfirst, hpop⟩ := of_popMany_succ hpop
  have haddress : popAddress m = .ok account.toAddress { m with stack := st } := by
    unfold popAddress
    rewrite [Act.bind_ok hfirst]
    rfl
  unfold extCodeCopy
  rw [Act.bind_ok haddress, bind_popMany hpop]
  refine congrFun (bind_congr fun _ => bind_congr fun range => ?_) m'
  cases range with
  | none => rfl
  | some r => rfl

/-- **The code of an account is asked for once there is room for it.** -/
theorem extCodeCopy_makes {s : Setting σ} {account target start len : Word} {m₁ : Machine σ}
    (hpop : popMany 4 m = .ok [account, target, start, len] m₁)
    (htouch : touchAccount s account.toAddress m₁ = .ok () m')
    (hdata : (s.host.answer (.code account.toAddress) m'.host).1.size < u64Size) :
    (Copy.ofBytes (s.host.answer (.code account.toAddress) m'.host).1 target start len).MadeBy m'
      True () (extCodeCopy s m) := by
  have hask (m₂ : Machine σ) : ask s (.code account.toAddress) m₂ =
      .ok (s.host.answer (.code account.toAddress) m₂.host).1
        { m₂ with host := (s.host.answer (.code account.toAddress) m₂.host).2 } := rfl
  rw [extCodeCopy_eq s hpop, Act.bind_ok htouch]
  refine .of_coverCopy _ rfl (Nat.le_refl _) ?_ ?_
  · intro m₂ m'' hlen hreaches hwrite
    rw [Act.bind_ok (hask m₂)] at hwrite
    rw [← hreaches.host] at hdata ⊢
    exact write_done hlen hreaches (Bytes.size_paddedSlice ..)
      (fun i hi => getElem?_paddedSlice_clampU64 hdata start hi) hwrite
  · intro m₂ _ _ hreaches
    rw [Act.bind_ok (hask m₂)]
    exact write_runs hreaches (Bytes.size_paddedSlice ..) _

/-- The bytes of the source are moved once it is in the view as well; making room has not changed
    them. -/
theorem growAndMove_done {target source len : Word} (hlen : len ≠ 0#256)
    (hreaches : m.Reaches (target.toNat + len.toNat) (Gas.copy len.toNat) m') {m'' : Machine σ}
    (h : (growAt source len.toNat >>= fun start => move start target.toNat len.toNat) m' =
      .ok () m'') :
    (Copy.inside m.memory target source len).Done m m'' := by
  obtain ⟨start, m₂, hgrow, hmove⟩ := Act.eq_of_bind_ok h
  obtain ⟨rfl, memory, gas, hgrown, rfl⟩ := of_growAt_ok hgrow
  have hreached := hreaches.grow hgrown
  obtain ⟨bytes, hsize, hbytes, hle, rfl⟩ := of_move_ok hmove
  refine Done.of_write (c := Copy.inside m.memory target source len) (Word.toNat_ne_zero hlen)
    hreached hsize (fun i hi => ?_) hle m'.host
  rewrite [hbytes i hi, hreached.view]
  rfl

/-- What is left after the target is paid for pays for the source. -/
theorem growAndMove_runs (hm : m.memory.Sound) {target source len : Word} {fee : Nat}
    (hroom : source.toNat + len.toNat ≤ m.memory.limit)
    (hgas : fee + m.memory.views.active.due
      (max (target.toNat + len.toNat) (source.toNat + len.toNat)) ≤ m.gas.remaining)
    (hreaches : m.Reaches (target.toNat + len.toNat) fee m') :
    ∃ m'', (growAt source len.toNat >>= fun start => move start target.toNat len.toNat) m' =
      .ok () m'' := by
  have hlimit : source.toNat + len.toNat ≤ m'.memory.limit := by
    rw [hreaches.below.limit]
    exact hroom
  have hleft : m'.memory.views.active.due (source.toNat + len.toNat) ≤ m'.gas.remaining := by
    obtain ⟨-, hpaid⟩ := Meter.of_charge? hreaches.paid
    rw [← View.due_add_due] at hgas
    rw [hreaches.view, hpaid]
    dsimp only
    omega
  obtain ⟨m₂, hgrow⟩ := growAt_of_affordable (hreaches.sound hm) source len.toNat hlimit hleft
  obtain ⟨-, memory, gas, hgrown, rfl⟩ := of_growAt_ok hgrow
  have hreached := hreaches.grow hgrown
  have hsize := hreached.le_size
  obtain ⟨moved, hmove, -⟩ := (hreached.sound hm).move
    (Nat.le_trans (Nat.le_max_right ..) hsize) (Nat.le_trans (Nat.le_max_left ..) hsize)
  rw [Act.bind_ok hgrow]
  unfold move
  rw [hmove]
  exact ⟨_, rfl⟩

/-- **A copy inside the view takes the bytes from before it.** Room for the source is made after
    that for the target. -/
theorem mcopy_makes {target source len : Word}
    (hpop : popMany 3 m = .ok [target, source, len] m') :
    (Copy.inside m'.memory target source len).MadeBy m' True () (mcopy m) := by
  unfold mcopy
  rw [bind_popMany hpop]
  refine .of_coverCopy (fun offset n => growAt source n >>= fun start => move start offset n) rfl
    (Nat.le_max_left ..) ?_ ?_
  · intro m₁ m'' hlen hreaches hmove
    exact growAndMove_done hlen hreaches hmove
  · intro m₁ hsound haffordable hreaches
    exact growAndMove_runs hsound (Nat.le_trans (Nat.le_max_right ..) haffordable.1) haffordable.2
      hreaches

end Effect

/-! ## The instructions -/

/-- The surcharge for the first use of an account is paid or not, and that is all that is seen of it
    beside the host. -/
theorem Exec.of_touchAccount_ok {s : Setting σ} {a : Address} {m m' : Machine σ} {u : Unit}
    (h : touchAccount s a m = .ok u m') :
    m'.memory = m.memory ∧
      (m'.gas = m.gas ∨ m.gas.charge? s.schedule.coldAccountSurcharge = some m'.gas) := by
  unfold touchAccount touch at h
  by_cases hpos : 0 < s.schedule.coldAccountSurcharge
  · rw [if_pos hpos] at h
    obtain ⟨first, m₁, hask, hcharge⟩ := Act.eq_of_bind_ok h
    cases hask
    split at hcharge
    · obtain ⟨gas, hgas, rfl⟩ := of_charge_ok hcharge
      exact ⟨rfl, .inr hgas⟩
    · cases hcharge
      exact ⟨rfl, .inl rfl⟩
  · rw [if_neg hpos] at h
    cases h
    exact ⟨rfl, .inl rfl⟩

/-- An instruction that changes no state is never banned. -/
theorem step_eq_exec {ins : Instruction} {op : Op} (hop : ins.op = some op)
    (hplain : op.effect = .none) (s : Setting σ) (guarded : Bool) (m : Machine σ) :
    step s guarded ins m = op.exec s ins m := by
  have hcheck : checkStatic guarded op m = .ok () m := by
    rw [checkStatic_eq, hplain]
    exact if_neg (by simp [violatesStatic])
  unfold step
  rw [hop]
  dsimp only
  rw [Act.bind_ok hcheck]

/-- **Copies are exact.** Let a copy instruction find its operands on the stack, and let the byte
    strings it reads be of sizes that fit into 64 bits. Offsets are then those of numbers without
    bound, though they are narrowed on the way. From call data or code, `step` copies the bytes of the
    range, which go on with zeros past the end of the data (`Copy.ofBytes`); from return data it does
    so if the whole range is there, and else fails, also for an empty range; from the code of another
    account it does so once `touchAccount` is paid; and inside the memory it copies the bytes that
    were there before, however source and target overlap (`Copy.inside`). All else in memory stays;
    the view grows to what was touched, and that and the words of the copy are paid. In a `Sound`
    memory a copy of what is there fails for want of room or gas only (`Copy.MadeBy`). -/
theorem copies_are_exact (s : Setting σ) (guarded : Bool) (ins : Instruction) {m m₁ : Machine σ}
    (target start len : Word) :
    (popMany 3 m = .ok [target, start, len] m₁ →
      (∀ source, ins.op = some (.copy source) →
        (s.bytesOf m source).size < u64Size →
          (Copy.ofBytes (s.bytesOf m source) target start len).MadeBy m₁
            (source = .returnData → start.toNat + len.toNat ≤ m.returnData.size) .next
            (step s guarded ins m)) ∧
      (ins.op = some .mcopy →
        (Copy.inside m.memory target start len).MadeBy m₁ True .next (step s guarded ins m))) ∧
    (∀ account, popMany 4 m = .ok [account, target, start, len] m₁ →
      ins.op = some .extCodeCopy →
        (∀ e m₂, touchAccount s account.toAddress m₁ = .error e m₂ →
          step s guarded ins m = .error e m₂) ∧
        ∀ m₂, touchAccount s account.toAddress m₁ = .ok () m₂ →
          m₂.memory = m.memory ∧
          (m₂.gas = m.gas ∨ m.gas.charge? s.schedule.coldAccountSurcharge = some m₂.gas) ∧
          ((s.host.answer (.code account.toAddress) m₂.host).1.size < u64Size →
            (Copy.ofBytes (s.host.answer (.code account.toAddress) m₂.host).1 target start
              len).MadeBy m₂ True .next (step s guarded ins m))) := by
  refine ⟨fun hpop => ?_, fun account hpop hop => ?_⟩
  · obtain ⟨st, rfl⟩ := of_popMany_ok hpop
    refine ⟨fun source hop hdata => ?_, fun hop => ?_⟩
    · rw [step_eq_exec hop rfl]
      exact (Effect.copy_makes s source hpop hdata).andNext
    · rw [step_eq_exec hop rfl]
      exact (Effect.mcopy_makes hpop).andNext
  · obtain ⟨st, rfl⟩ := of_popMany_ok hpop
    rw [step_eq_exec hop rfl]
    refine ⟨fun e m₂ htouch => ?_, fun m₂ htouch => ?_⟩
    · have hfails : Effect.extCodeCopy s m = .error e m₂ := by
        rw [Effect.extCodeCopy_eq s hpop, Act.bind_error htouch]
      exact Act.bind_error hfails
    · obtain ⟨hsame, hpaid⟩ := of_touchAccount_ok htouch
      exact ⟨hsame, hpaid, fun hdata => (Effect.extCodeCopy_makes hpop htouch hdata).andNext⟩

/-- A memory with one view of 64 bytes, each its own address. -/
def ladder : Memory :=
  ((Memory.new 1000).extend 64).write 0 (Bytes.ofList ((List.range 64).map UInt8.ofNat))

/-- The stack with the given words, bottom first, on a store that was never used. -/
def Stack.ofWords (words : Array Word) (h : words.size ≤ stackLimit) : Stack where
  slots := ⟨⟨words.toList ++ List.replicate (stackLimit - words.size) 0#256⟩, by simp; omega⟩
  height := words.size
  height_le := h

/-- A machine on that memory, with two bytes of return data and an account with two bytes of
    code. -/
def copyMachine (words : Array Word) (h : words.size ≤ stackLimit) : Machine World :=
  let accounts : List (Address × Account) := [(7, { code := ⟨#[0xaa, 0xbb]⟩ })]
  { gas := .full 10000
    stack := .ofWords words h
    returnData := ⟨#[4, 5]⟩
    memory := ladder
    host := { journal := { accounts := .ofList accounts } } }

/-- A setting with three bytes of call data. -/
def copySetting : Setting World where
  host := ({} : Chain).host
  schedule := Fork.cancun.rules.schedule
  maxCallDepth := 1024
  code := analyze (.ofFork .cancun) .empty
  context := {}
  input := ⟨#[1, 2, 3]⟩

/-- An instruction by itself. -/
def Op.alone (op : Op) : Instruction := { (default : Instruction) with op := some op }

/-- Forty bytes are shifted by one; a range that starts at the largest word is all zeros; of return
    data one byte too many is refused; and the code of an account is continued with a zero. -/
theorem copies_are_exact_at_edges :
    (∃ m', step copySetting true Op.mcopy.alone (copyMachine #[40, 0, 1] (by decide)) =
        .ok .next m' ∧
      ∀ i < 40, m'.memory.views.active.byte (1 + i) = ladder.views.active.byte i) ∧
    (∃ m', step copySetting true (Op.copy .callData).alone
        (copyMachine #[40, BitVec.allOnes 256, 1] (by decide)) = .ok .next m' ∧
      ∀ i < 40, m'.memory.views.active.byte (1 + i) = 0) ∧
    (¬ ∃ m', step copySetting true (Op.copy .returnData).alone
        (copyMachine #[1, 2, 1] (by decide)) = .ok .next m') ∧
    (∃ m', step copySetting true Op.extCodeCopy.alone
        (copyMachine #[2, 1, 0, 7] (by decide)) = .ok .next m' ∧
      m'.memory.views.active.byte 0 = 0xbb ∧ m'.memory.views.active.byte 1 = 0) := by
  have hsound : ladder.Sound := ⟨by decide, by decide +kernel⟩
  refine ⟨?_, ?_, ?_, ?_⟩
  · have hmade := ((copies_are_exact (m := copyMachine #[40, 0, 1] (by decide)) copySetting true
      Op.mcopy.alone 1 0 40).1 rfl).2 rfl
    obtain ⟨m', hstep⟩ := (hmade.runs hsound).2 ⟨trivial, .inr ⟨by decide, by decide +kernel⟩⟩
    refine ⟨m', hstep, fun i hi => ?_⟩
    have hsource : (0 : Word).toNat + i = i := Nat.zero_add i
    exact ((hmade.done _ _ hstep).2.2.copied i hi).trans
      (congrArg ladder.views.active.byte hsource)
  · have hmade := ((copies_are_exact (m := copyMachine #[40, BitVec.allOnes 256, 1] (by decide))
      copySetting true (Op.copy .callData).alone 1 (BitVec.allOnes 256) 40).1 rfl).1
      .callData rfl (by decide)
    obtain ⟨m', hstep⟩ := (hmade.runs hsound).2
      ⟨by decide, .inr ⟨by decide, by decide +kernel⟩⟩
    refine ⟨m', hstep, fun i hi => ((hmade.done _ _ hstep).2.2.copied i hi).trans ?_⟩
    have hpast : copySetting.input.data.toList.length ≤ (BitVec.allOnes 256).toNat + i :=
      Nat.le_trans (by decide) (Nat.le_add_right _ _)
    show (copySetting.input[(BitVec.allOnes 256).toNat + i]?).getD 0 = 0
    rw [getElem?_byteArray, List.getElem?_eq_none hpast, Option.getD_none]
  · have hmade := ((copies_are_exact (m := copyMachine #[1, 2, 1] (by decide)) copySetting true
      (Op.copy .returnData).alone 1 2 1).1 rfl).1 .returnData rfl (by decide)
    rw [hmade.runs hsound]
    exact fun h => absurd (h.1 rfl) (by decide)
  · obtain ⟨-, -, hmade⟩ := ((copies_are_exact (m := copyMachine #[2, 1, 0, 7] (by decide))
      copySetting true Op.extCodeCopy.alone 0 1 2).2 7 rfl rfl).2 _ rfl
    have hmade := hmade (by decide +kernel)
    obtain ⟨m', hstep⟩ := (hmade.runs hsound).2
      ⟨trivial, .inr ⟨by decide, by decide +kernel⟩⟩
    have hcopied := (hmade.done _ _ hstep).2.2.copied
    exact ⟨m', hstep, (hcopied 0 (by decide)).trans (by decide +kernel),
      (hcopied 1 (by decide)).trans (by decide +kernel)⟩

end MeteredEvm
