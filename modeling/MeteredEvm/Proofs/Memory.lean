import Mathlib.Algebra.GroupWithZero.Nat
import MeteredEvm.Memory
import MeteredEvm.Proofs.Acts

/-!
# `MeteredEvm.Proofs.Memory` — views that grow and stay apart

Growing a view is pricing it, paying, and appending zeros (`Memory.grow_eq`). What fails to grow a view
leaves it alone, and the meter too (`Memory.grow_steady`, …, `Memory.store_steady`). Whatever is done
in a view leaves the bytes below it alone (`Memory.SameBelow`), so closing a view that was opened on
a memory gives that memory back (`Memory.exit_of_sameBelow`). In a memory whose limit keeps prices in
64 bits (`Memory.Sound`), growing fails only by a fault.

## Contents
* `Gas.memory_lt` — a larger memory costs more.
* `Memory.grow_eq`, `Memory.cover_eq`, `Memory.size_extend`.
* `Memory.load_steady`, `Memory.store_steady`, … — failures.
* `Memory.SameBelow`, `Memory.exit_of_sameBelow`.
* `Memory.Sound` and what keeps it.
-/

namespace MeteredEvm

/-! ## Prices -/

/-- **A larger memory costs strictly more**, by its linear part alone. -/
theorem Gas.memory_lt {a b : Nat} (h : a < b) : Gas.memory a < Gas.memory b := by
  have hsquare : a * a / 512 ≤ b * b / 512 :=
    Nat.div_le_div_right (Nat.mul_le_mul (Nat.le_of_lt h) (Nat.le_of_lt h))
  unfold Gas.memory
  omega

theorem Gas.memory_mono {a b : Nat} (h : a ≤ b) : Gas.memory a ≤ Gas.memory b := by
  rcases Nat.lt_or_eq_of_le h with hlt | rfl
  · exact Nat.le_of_lt (memory_lt hlt)
  · exact Nat.le_refl _

theorem Gas.memory?_eq_some {words price : Nat} (h : Gas.memory? words = some price) :
    price = Gas.memory words := by
  unfold Gas.memory? at h
  split at h
  · exact (Option.some.inj h).symm
  · cases h

/-- So many words have a price. -/
theorem Gas.memory?_of_lt {words : Nat} (h : words < 2 ^ 32) :
    Gas.memory? words = some (Gas.memory words) := by
  have hsquare : words * words < u64Size := by
    have := Nat.mul_le_mul (Nat.le_sub_one_of_lt h) (Nat.le_sub_one_of_lt h)
    unfold u64Size
    omega
  unfold Gas.memory?
  rw [if_pos hsquare]

/-- The words that hold `len` bytes hold them. -/
theorem le_wordsFor (len : Nat) : len ≤ 32 * wordsFor len := by
  unfold wordsFor
  omega

/-- The range, if there is one, lies in the first `b` bytes. -/
def Within (range : Option (Nat × Nat)) (b : Nat) : Prop :=
  match range with
  | some (offset, len) => offset + len ≤ b
  | none => True

theorem Within.mono {range : Option (Nat × Nat)} {b b' : Nat} (h : Within range b) (hb : b ≤ b') :
    Within range b' := by
  cases range with
  | none => trivial
  | some r => exact Nat.le_trans h hb

/-- The range, if there is one, is the one given by two words. -/
def IsRange (offset len : Word) (range : Option (Nat × Nat)) : Prop :=
  range = none ∨ range = some (offset.toNat, len.toNat)

theorem IsRange.within {offset len : Word} {range : Option (Nat × Nat)}
    (h : IsRange offset len range) (b : Nat) : Within range (b + (offset.toNat + len.toNat)) := by
  obtain rfl | rfl := h
  · trivial
  · exact Nat.le_add_left ..

namespace Memory

variable {m m' : Memory}

/-! ## Growing -/

/-- Growing is free only where the view is large enough. -/
theorem le_size_of_expansionCost_zero {newSize : Nat} (h : m.expansionCost newSize = .ok 0) :
    32 * wordsFor newSize ≤ m.size := by
  unfold expansionCost at h
  split at h
  · cases h
  · split at h
    · omega
    · rename_i hwords
      split at h
      · rename_i after before hafter hbefore
        have hlt : Gas.memory (m.size / 32) < Gas.memory (wordsFor newSize) :=
          Gas.memory_lt (by omega)
        rw [Gas.memory?_eq_some hafter, Gas.memory?_eq_some hbefore] at h
        injection h with h
        omega
      · cases h

/-- A view that is large enough is extended by nothing. -/
theorem extend_eq_self {newSize : Nat} (h : 32 * wordsFor newSize ≤ m.size) :
    m.extend newSize = m := by
  refine Memory.ext ?_ rfl rfl rfl
  show m.buffer ++ Bytes.zeros (32 * wordsFor newSize - m.size) = m.buffer
  rw [Nat.sub_eq_zero_of_le h, show Bytes.zeros 0 = ByteArray.empty from rfl,
    ByteArray.append_empty]

theorem size_extend (m : Memory) (newSize : Nat) :
    (m.extend newSize).size = max m.size (32 * wordsFor newSize) := by
  have hbase := m.base_le
  show (m.buffer ++ _).size - m.base = _
  rw [ByteArray.size_append, Bytes.size_zeros]
  unfold size
  omega

/-- **Growing prices the new size, pays and appends zeros.** -/
theorem grow_eq (m : Memory) (newSize : Nat) (gas : Meter) :
    grow newSize (m, gas) =
      match m.expansionCost newSize with
      | .error e => .error e (m, gas)
      | .ok cost =>
        match gas.charge? cost with
        | none => .error (.fault .outOfGas) (m, gas)
        | some gas => .ok () (m.extend newSize, gas) := by
  unfold grow
  dsimp only
  cases hcost : m.expansionCost newSize with
  | error e => rfl
  | ok cost =>
      cases cost with
      | zero =>
          rw [extend_eq_self (le_size_of_expansionCost_zero hcost)]
          simp [Meter.charge?]
      | succ cost => rfl

/-- The pieces of a successful growth. -/
theorem of_grow_ok {newSize : Nat} {gas gas' : Meter} {u : Unit}
    (h : grow newSize (m, gas) = .ok u (m', gas')) :
    ∃ cost, m.expansionCost newSize = .ok cost ∧ gas.charge? cost = some gas' ∧
      m' = m.extend newSize := by
  rw [grow_eq] at h
  split at h
  · cases h
  · rename_i cost hcost
    split at h
    · cases h
    · rename_i g hg
      cases h
      exact ⟨cost, hcost, hg, rfl⟩

/-- What growing can fail by. -/
theorem of_grow_error {newSize : Nat} {gas : Meter} {e : Failure} {s : Memory × Meter}
    (h : grow newSize (m, gas) = .error e s) :
    m.expansionCost newSize = .error e ∨ e = .fault .outOfGas := by
  rw [grow_eq] at h
  split at h
  · rename_i hcost
    cases h
    exact .inl hcost
  · split at h
    · cases h
      exact .inr rfl
    · cases h

/-- A view that has grown holds the new size and all that it held. -/
theorem size_of_grow_ok {newSize : Nat} {gas gas' : Meter} {u : Unit}
    (h : grow newSize (m, gas) = .ok u (m', gas')) : newSize ≤ m'.size ∧ m.size ≤ m'.size := by
  obtain ⟨cost, -, -, rfl⟩ := of_grow_ok h
  have hview := m.size_extend newSize
  have hwords := le_wordsFor newSize
  omega

/-- Pricing fails by a fault about the range, or because the price is out of range. -/
theorem of_expansionCost_error {newSize : Nat} {e : Failure} (h : m.expansionCost newSize = .error e) :
    e = rangeFault ∨ e = .trap .arithmetic := by
  unfold expansionCost at h
  repeat' split at h
  · cases h
    exact .inl rfl
  · cases h
  · cases h
  · cases h
    exact .inr rfl

theorem growTo_eq (offset len : Nat) (s : Memory × Meter) :
    growTo offset len s =
      match add64? offset len with
      | none => .error rangeFault s
      | some stop => grow stop s := by
  unfold growTo
  cases add64? offset len with
  | none => rfl
  | some stop => rfl

/-- What making room for a range can fail by. -/
theorem of_growTo_error {offset len : Nat} {gas : Meter} {e : Failure} {s : Memory × Meter}
    (h : growTo offset len (m, gas) = .error e s) :
    e = rangeFault ∨ ∃ stop, grow stop (m, gas) = .error e s := by
  rw [growTo_eq] at h
  split at h
  · cases h
    exact .inl rfl
  · exact .inr ⟨_, h⟩

/-- The end of a range that memory has to hold, if it is not empty. -/
def stopOf (offset len : Word) : Option Nat :=
  match offset.toU64?, len.toU64? with
  | some o, some n => add64? o n
  | _, _ => none

theorem eq_of_stopOf {offset len : Word} {stop : Nat} (h : stopOf offset len = some stop) :
    stop = offset.toNat + len.toNat := by
  unfold stopOf Word.toU64? add64? at h
  repeat' split at h
  all_goals cases h
  simp_all

/-- A range given by two words: nothing to do if it is empty, else room for it, if its end is an
    amount at all. -/
theorem cover_eq (m : Memory) (offset len : Word) (gas : Meter) :
    cover offset len (m, gas) =
      if len = 0#256 then .ok none (m, gas)
      else
        match stopOf offset len with
        | none => .error rangeFault (m, gas)
        | some stop =>
          match grow stop (m, gas) with
          | .error e s => .error e s
          | .ok _ s => .ok (some (offset.toNat, len.toNat)) s := by
  unfold cover stopOf
  by_cases hlen : len = 0#256
  · rw [if_pos hlen, if_pos hlen]
    rfl
  · rw [if_neg hlen, if_neg hlen]
    unfold Word.toU64?
    by_cases ho : offset.toNat < u64Size <;> by_cases hn : len.toNat < u64Size
    · rw [if_pos ho, if_pos hn]
      dsimp only
      cases add64? offset.toNat len.toNat with
      | none => rfl
      | some stop =>
          dsimp only
          cases hgrow : grow stop (m, gas) with
          | ok u s => exact Act.bind_ok hgrow
          | error e s => exact Act.bind_error hgrow
    · rw [if_pos ho, if_neg hn]
      rfl
    · rw [if_neg ho, if_pos hn]
      rfl
    · rw [if_neg ho, if_neg hn]
      rfl

/-- The pieces of making room for a range. -/
theorem of_growTo_ok {offset len : Nat} {gas gas' : Meter} {u : Unit}
    (h : growTo offset len (m, gas) = .ok u (m', gas')) :
    grow (offset + len) (m, gas) = .ok () (m', gas') := by
  rw [growTo_eq] at h
  unfold add64? at h
  split at h
  · cases h
  · rename_i stop hstop
    split at hstop
    · rw [← Option.some.inj hstop] at h
      exact h
    · cases hstop

/-- The pieces of making room for a range given by two words. -/
theorem of_cover_ok {offset len : Word} {gas gas' : Meter} {range : Option (Nat × Nat)}
    (h : cover offset len (m, gas) = .ok range (m', gas')) :
    (range = none ∧ m' = m ∧ gas' = gas) ∨
      (range = some (offset.toNat, len.toNat) ∧
        grow (offset.toNat + len.toNat) (m, gas) = .ok () (m', gas')) := by
  rw [cover_eq] at h
  split at h
  · cases h
    exact .inl ⟨rfl, rfl, rfl⟩
  · split at h
    · cases h
    · rename_i stop hstop
      split at h
      · cases h
      · rename_i hgrow
        cases h
        rw [eq_of_stopOf hstop] at hgrow
        exact .inr ⟨rfl, hgrow⟩

/-- The range that there is room for is the one that was asked for. -/
theorem isRange_of_cover_ok {offset len : Word} {gas gas' : Meter} {range : Option (Nat × Nat)}
    (h : cover offset len (m, gas) = .ok range (m', gas')) : IsRange offset len range := by
  obtain ⟨hr, -⟩ | ⟨hr, -⟩ := of_cover_ok h
  · exact .inl hr
  · exact .inr hr

/-- A view in which a range was made room for holds the range, if there is one, and all that it
    held. -/
theorem size_of_cover_ok {offset len : Word} {gas gas' : Meter} {range : Option (Nat × Nat)}
    (h : cover offset len (m, gas) = .ok range (m', gas')) :
    m.size ≤ m'.size ∧ Within range m'.size := by
  obtain ⟨rfl, rfl, -⟩ | ⟨rfl, hgrow⟩ := of_cover_ok h
  · exact ⟨Nat.le_refl _, trivial⟩
  · obtain ⟨hle, hsize⟩ := size_of_grow_ok hgrow
    exact ⟨hsize, hle⟩

/-- What making room for a range given by two words can fail by. -/
theorem of_cover_error {offset len : Word} {gas : Meter} {e : Failure} {s : Memory × Meter}
    (h : cover offset len (m, gas) = .error e s) :
    e = rangeFault ∨ ∃ stop, grow stop (m, gas) = .error e s := by
  rw [cover_eq] at h
  repeat' split at h
  · cases h
  · cases h
    exact .inl rfl
  · rename_i hgrow
    cases h
    exact .inr ⟨_, hgrow⟩
  · cases h

/-! ## Failures -/

theorem grow_steady (newSize : Nat) : Steady (grow newSize) := by
  rintro ⟨m, gas⟩ e s h
  rw [grow_eq] at h
  repeat' split at h
  all_goals cases h
  all_goals rfl

theorem growTo_steady (offset len : Nat) : Steady (growTo offset len) := by
  unfold growTo
  split
  · exact .throw rangeFault
  · exact grow_steady _

theorem cover_steady (offset len : Word) : Steady (cover offset len) := by
  rintro ⟨m, gas⟩ e s h
  rw [cover_eq] at h
  repeat' split at h
  all_goals cases h
  · rfl
  · rename_i hgrow
    exact grow_steady _ hgrow

/-- **A load that fails changes nothing**: once there is room for the range it does not fail. -/
theorem load_steady (offset len : Nat) : Steady (load offset len) := by
  unfold load
  split
  · intro s e s' h
    cases h
  · refine (growTo_steady offset len).bind ?_
    rintro ⟨m, gas⟩ u ⟨m', gas'⟩ h
    have hroom := (size_of_grow_ok (of_growTo_ok h)).1
    have hread : m'.read? offset len = some _ := if_pos hroom
    simp only [Act.get_bind, hread]
    exact ⟨_, _, rfl⟩

/-- **A store that fails changes nothing**, for the same reason. -/
theorem store_steady (offset : Nat) (bytes : ByteArray) : Steady (store offset bytes) := by
  unfold store
  split
  · intro s e s' h
    cases h
  · refine (growTo_steady offset bytes.size).bind ?_
    rintro ⟨m, gas⟩ u ⟨m', gas'⟩ h
    have hroom := (size_of_grow_ok (of_growTo_ok h)).1
    have hwrite : m'.write? offset bytes = some _ := if_pos hroom
    simp only [Act.get_bind, hwrite]
    exact ⟨_, _, rfl⟩

/-! ## Limits -/

/-- A size that can be priced is at most the limit. -/
theorem le_limit_of_expansionCost_ok {newSize cost : Nat}
    (hcost : m.expansionCost newSize = .ok cost) : newSize ≤ m.limit := by
  unfold expansionCost at hcost
  split at hcost
  · cases hcost
  · omega

/-! ## Below the view -/

/-- **The same memory below the active view**: the view starts at the same `base`, and all bytes of the
    `buffer` before it are the same. -/
structure SameBelow (m m' : Memory) : Prop where
  base : m'.base = m.base
  bases : m'.bases = m.bases
  limit : m'.limit = m.limit
  bytes : m'.buffer.extract 0 m.base = m.buffer.extract 0 m.base

namespace SameBelow

theorem refl (m : Memory) : SameBelow m m := ⟨rfl, rfl, rfl, rfl⟩

theorem trans {m₁ m₂ m₃ : Memory} (h : SameBelow m₁ m₂) (h' : SameBelow m₂ m₃) :
    SameBelow m₁ m₃ where
  base := h'.base.trans h.base
  bases := h'.bases.trans h.bases
  limit := h'.limit.trans h.limit
  bytes := by
    have hbytes := h'.bytes
    rw [h.base] at hbytes
    exact hbytes.trans h.bytes

end SameBelow

theorem extend_sameBelow (m : Memory) (newSize : Nat) : SameBelow m (m.extend newSize) where
  base := rfl
  bases := rfl
  limit := rfl
  bytes := by
    show (m.buffer ++ _).extract 0 m.base = _
    rw [ByteArray.extract_append, Nat.sub_eq_zero_of_le m.base_le, Nat.zero_sub,
      ByteArray.extract_same, ByteArray.append_empty]

theorem grow_sameBelow {newSize : Nat} {gas gas' : Meter} {u : Unit}
    (h : grow newSize (m, gas) = .ok u (m', gas')) : SameBelow m m' := by
  obtain ⟨cost, -, -, rfl⟩ := of_grow_ok h
  exact extend_sameBelow m newSize

/-- A patch inside a byte string keeps its length. -/
theorem size_overwrite {b patch : ByteArray} {start : Nat} (h : start + patch.size ≤ b.size) :
    (Bytes.overwrite b start patch).size = b.size := by
  unfold Bytes.overwrite
  rw [ByteArray.copySlice_eq_append]
  simp only [ByteArray.size_append, ByteArray.size_extract, ByteArray.size_data]
  omega

/-- A patch leaves what stands before it. -/
theorem extract_overwrite {b patch : ByteArray} {start stop : Nat} (h : stop ≤ start)
    (hb : start ≤ b.size) : (Bytes.overwrite b start patch).extract 0 stop = b.extract 0 stop := by
  unfold Bytes.overwrite
  rw [ByteArray.copySlice_eq_append, ByteArray.append_assoc, ByteArray.extract_append,
    ByteArray.extract_extract]
  have hsize : (b.extract 0 start).size = start := by
    rw [ByteArray.size_extract]
    omega
  rw [hsize, Nat.sub_eq_zero_of_le h, Nat.zero_sub, ByteArray.extract_same,
    ByteArray.append_empty, Nat.zero_add, Nat.zero_add, Nat.min_eq_left h]

/-- A write inside the view keeps its size. -/
theorem size_write {offset : Nat} {bytes : ByteArray} (h : offset + bytes.size ≤ m.size) :
    (m.write offset bytes).buffer.size = m.buffer.size := by
  have hbase := m.base_le
  refine size_overwrite ?_
  unfold size at h
  omega

theorem write_sameBelow {offset : Nat} {bytes : ByteArray} (h : offset + bytes.size ≤ m.size) :
    SameBelow m (m.write offset bytes) where
  base := rfl
  bases := rfl
  limit := rfl
  bytes := by
    have hbase := m.base_le
    refine extract_overwrite (Nat.le_add_right ..) ?_
    unfold size at h
    omega

/-- A copy inside the view is a write inside the view. -/
theorem of_move?_eq_some {source target len : Nat} (h : m.move? source target len = some m') :
    ∃ bytes, target + bytes.size ≤ m.size ∧ m' = m.write target bytes := by
  unfold move? at h
  split at h
  · rename_i bytes _
    unfold write? at h
    split at h
    · rename_i hle
      exact ⟨bytes, hle, (Option.some.inj h).symm⟩
    · cases h
  · cases h

/-- **Closing a view gives back the memory that it was opened on**, whatever happened in between. -/
theorem exit_of_sameBelow (h : SameBelow m.enter m') : m'.exit = m := by
  have hbuffer : m'.exit.buffer = m.buffer := by
    show m'.buffer.extract 0 m'.base = m.buffer
    rw [h.base, h.bytes]
    exact ByteArray.extract_zero_size
  have hbases : m'.exit.bases = m.bases := congrArg List.tail h.bases
  have hbase : m'.exit.base = m.base := congrArg (List.headD · 0) h.bases
  exact Memory.ext hbuffer hbases hbase h.limit

/-! ## Sound memories -/

/-- The largest limit under which every price of memory is a 64-bit amount. -/
abbrev pricedLimit : Nat := 2 ^ 37 - 32

/-- **A memory whose prices are amounts**: the `limit` is at most `Memory.pricedLimit`, and the view is
    smaller than `2 ^ 37`. -/
structure Sound (m : Memory) : Prop where
  limit_le : m.limit ≤ pricedLimit
  size_lt : m.size < 2 ^ 37

theorem enter_sound (h : m.limit ≤ pricedLimit) : m.enter.Sound where
  limit_le := h
  size_lt := by
    show m.buffer.size - m.buffer.size < 2 ^ 37
    omega

namespace Sound

/-- In a sound memory pricing fails only for the range. -/
theorem of_expansionCost_error (h : m.Sound) {newSize : Nat} {e : Failure}
    (hcost : m.expansionCost newSize = .error e) : e = rangeFault := by
  have hlimit : m.limit ≤ 2 ^ 37 - 32 := h.limit_le
  have hsize := h.size_lt
  unfold expansionCost at hcost
  split at hcost
  · cases hcost
    rfl
  · rename_i hle
    split at hcost
    · cases hcost
    · have hwords : wordsFor newSize < 2 ^ 32 := by
        unfold wordsFor
        omega
      rw [Gas.memory?_of_lt hwords, Gas.memory?_of_lt (by omega)] at hcost
      cases hcost

theorem grow_error (h : m.Sound) {newSize : Nat} {gas : Meter} {e : Failure} {s : Memory × Meter}
    (hgrow : grow newSize (m, gas) = .error e s) : ∃ f, e = .fault f := by
  obtain hcost | he := of_grow_error hgrow
  · exact ⟨_, h.of_expansionCost_error hcost⟩
  · exact ⟨_, he⟩

/-- A view that is extended within the limit can still be priced. -/
theorem size_extend (h : m.Sound) {newSize : Nat} (hle : newSize ≤ m.limit) :
    (m.extend newSize).size < 2 ^ 37 := by
  have hlimit : m.limit ≤ 2 ^ 37 - 32 := h.limit_le
  have hsize := h.size_lt
  rw [Memory.size_extend]
  unfold wordsFor
  omega

/-- Growing keeps a memory sound. -/
theorem grow_ok (h : m.Sound) {newSize : Nat} {gas gas' : Meter} {u : Unit}
    (hgrow : grow newSize (m, gas) = .ok u (m', gas')) : m'.Sound := by
  obtain ⟨cost, hcost, -, rfl⟩ := of_grow_ok hgrow
  exact ⟨h.limit_le, h.size_extend (le_limit_of_expansionCost_ok hcost)⟩

theorem growTo_error (h : m.Sound) {offset len : Nat} {gas : Meter} {e : Failure}
    {s : Memory × Meter} (hgrow : growTo offset len (m, gas) = .error e s) : ∃ f, e = .fault f := by
  obtain he | ⟨stop, hstop⟩ := of_growTo_error hgrow
  · exact ⟨_, he⟩
  · exact h.grow_error hstop

theorem cover_error (h : m.Sound) {offset len : Word} {gas : Meter} {e : Failure}
    {s : Memory × Meter} (hcover : cover offset len (m, gas) = .error e s) : ∃ f, e = .fault f := by
  obtain he | ⟨stop, hstop⟩ := of_cover_error hcover
  · exact ⟨_, he⟩
  · exact h.grow_error hstop

/-- Making room for a range keeps a memory sound. -/
theorem cover_ok (h : m.Sound) {offset len : Word} {gas gas' : Meter} {range : Option (Nat × Nat)}
    (hcover : cover offset len (m, gas) = .ok range (m', gas')) : m'.Sound := by
  obtain ⟨-, rfl, -⟩ | ⟨-, hgrow⟩ := of_cover_ok hcover
  · exact h
  · exact h.grow_ok hgrow

theorem write (h : m.Sound) {offset : Nat} {bytes : ByteArray}
    (hle : offset + bytes.size ≤ m.size) :
    (m.write offset bytes).Sound ∧ (m.write offset bytes).size = m.size := by
  have hsize : (m.write offset bytes).size = m.size := by
    show (m.write offset bytes).buffer.size - m.base = m.size
    rw [size_write hle]
    rfl
  exact ⟨⟨h.limit_le, by rw [hsize]; exact h.size_lt⟩, hsize⟩

/-- A copy inside the view goes through. -/
theorem move (h : m.Sound) {source target len : Nat} (hs : source + len ≤ m.size)
    (ht : target + len ≤ m.size) :
    ∃ m', m.move? source target len = some m' ∧ m'.Sound ∧ m'.size = m.size := by
  have hbytes : (m.buffer.extract (m.base + source) (m.base + source + len)).size = len := by
    rw [ByteArray.size_extract]
    unfold size at hs
    omega
  unfold move? read? write?
  rw [if_pos hs]
  dsimp only
  rw [hbytes, if_pos ht]
  exact ⟨_, rfl, h.write (by rw [hbytes]; exact ht)⟩

end Sound

end Memory

end MeteredEvm
