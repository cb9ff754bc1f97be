import MeteredEvm.Proofs.Memory

/-!
# `MeteredEvm.Proofs.Views` — one buffer is a stack of views

The machine keeps the views of all open frames in one buffer. Here a view is given by itself: a size,
and at each address the byte that was written there last (`View`). A stack of such views, of which
only the innermost is addressed, is all that the buffer means: every sequence of operations gives
the same answers and the same bills on both (`memory_refines_views`).

The starts of the views are in order (`Memory.ordered`), so the buffer is a concatenation of views, and
an operation inside the innermost of them leaves the others alone because it leaves everything below
alone (`Memory.SameBelow`). The invariant is that every view, also one that is not active, can be
priced (`Memory.Orderly`).

## Contents
* `Memory.read?_eq`, `Memory.view_extend`, `Memory.view_write` — access, in terms of the active view.
* `View`, `Views`, `Views.obey` — the stack of views.
* `Memory.views`, `Memory.Orderly`, `Memory.obey_alike` — one operation.
* `transcript`, `memory_refines_views` — any number of operations.
-/

namespace MeteredEvm

namespace Memory

variable {m m' : Memory}

/-! ## The active view -/

theorem size_view (m : Memory) : m.view.size = m.size := by
  unfold view size
  rw [ByteArray.size_extract, Nat.min_self]

/-- The bytes after a patch: the patch where it lies, and elsewhere what was there. -/
theorem getElem?_overwrite {b patch : ByteArray} {start : Nat} (h : start + patch.size ≤ b.size)
    (i : Nat) :
    (Bytes.overwrite b start patch).data[i]? =
      if start ≤ i ∧ i < start + patch.size then patch.data[i - start]? else b.data[i]? := by
  have hb : b.data.size = b.size := rfl
  unfold Bytes.overwrite
  rw [ByteArray.copySlice_eq_append]
  simp only [ByteArray.data_append, ByteArray.data_extract, Array.getElem?_append,
    Array.size_append, Array.size_extract, Array.getElem?_extract, ByteArray.size_data]
  grind

/-- A range that the view holds is read from the view. -/
theorem read?_eq (m : Memory) (offset len : Nat) :
    m.read? offset len =
      if offset + len ≤ m.view.size then some (m.view.extract offset (offset + len)) else none := by
  unfold read?
  rw [size_view]
  by_cases hle : offset + len ≤ m.size
  · rw [if_pos hle, if_pos hle]
    have hbase := m.base_le
    unfold view
    unfold size at hle
    rw [ByteArray.extract_extract, Nat.min_eq_left (by omega), Nat.add_assoc]
  · rw [if_neg hle, if_neg hle]

/-- Growing appends zeros to the view. -/
theorem view_extend (m : Memory) (newSize : Nat) :
    (m.extend newSize).view = m.view ++ Bytes.zeros (32 * wordsFor newSize - m.size) := by
  have hbase := m.base_le
  unfold view extend
  dsimp only
  rw [ByteArray.extract_append, ByteArray.size_append]
  congr 1
  · apply ByteArray.ext
    simp only [ByteArray.data_extract, Array.extract_eq_extract_right, ByteArray.size_data]
    omega
  · rw [Nat.sub_eq_zero_of_le hbase, Nat.add_sub_cancel_left, ByteArray.extract_zero_size]

/-- A write patches the view. -/
theorem view_write {offset : Nat} {bytes : ByteArray} (h : offset + bytes.size ≤ m.size) :
    (m.write offset bytes).view = Bytes.overwrite m.view offset bytes := by
  have hbase := m.base_le
  have hview : offset + bytes.size ≤ m.view.size := by
    rw [size_view]
    exact h
  have hfits : m.base + offset + bytes.size ≤ m.buffer.size := by
    unfold size at h
    omega
  have hsize : (Bytes.overwrite m.buffer (m.base + offset) bytes).data.size = m.buffer.size :=
    size_overwrite hfits
  have hbuffer : m.buffer.data.size = m.buffer.size := rfl
  apply ByteArray.ext
  apply Array.ext_getElem?
  intro i
  rw [getElem?_overwrite hview]
  unfold view
  rw [size_write h]
  show ((Bytes.overwrite m.buffer (m.base + offset) bytes).extract m.base m.buffer.size).data[i]? = _
  simp only [ByteArray.data_extract, Array.getElem?_extract, getElem?_overwrite hfits, hsize]
  grind

end Memory

/-! ## A view by itself -/

/-- **A view by itself**: how many bytes it has, and at each address the byte that was written there
    last. -/
structure View where
  size : Nat
  byte : Nat → UInt8

namespace View

/-- A view to which nothing was written. -/
def empty : View := { size := 0, byte := fun _ => 0 }

/-- Price of making the view hold `stop` bytes: what the larger memory costs more than this one. -/
def due (v : View) (stop : Nat) : Nat :=
  Gas.memory (max (v.size / 32) (wordsFor stop)) - Gas.memory (v.size / 32)

/-- The view, made to hold `stop` bytes in whole words. -/
def reach (v : View) (stop : Nat) : View := { v with size := max v.size (32 * wordsFor stop) }

/-- The `len` bytes from `offset` on. -/
def load (v : View) (offset len : Nat) : ByteArray :=
  Bytes.ofList ((List.range len).map fun i => v.byte (offset + i))

/-- The view with `bytes` written from `offset` on. -/
def store (v : View) (offset : Nat) (bytes : ByteArray) : View :=
  { v with
    byte := fun a =>
      if offset ≤ a ∧ a < offset + bytes.size then bytes.data[a - offset]?.getD 0 else v.byte a }

theorem store_nothing {v : View} {offset : Nat} {bytes : ByteArray} (h : bytes.size = 0) :
    v.store offset bytes = v := by
  unfold store
  congr 1
  funext a
  exact if_neg (by omega)

/-- The view with the given bytes. -/
def ofBytes (b : ByteArray) : View := { size := b.size, byte := fun a => b.data[a]?.getD 0 }

theorem ofBytes_empty : ofBytes .empty = empty := rfl

/-- Appended zeros are bytes that were never written. -/
theorem ofBytes_append_zeros (b : ByteArray) (n : Nat) :
    ofBytes (b ++ Bytes.zeros n) = { ofBytes b with size := b.size + n } := by
  unfold ofBytes
  congr 1
  · rw [ByteArray.size_append, Bytes.size_zeros]
  · funext a
    have hb : b.data.size = b.size := rfl
    rw [ByteArray.data_append, Bytes.data_zeros, Array.getElem?_append, Array.getElem?_replicate]
    grind

theorem ofBytes_overwrite {b bytes : ByteArray} {offset : Nat} (h : offset + bytes.size ≤ b.size) :
    ofBytes (Bytes.overwrite b offset bytes) = (ofBytes b).store offset bytes := by
  unfold ofBytes store
  congr 1
  · exact Memory.size_overwrite h
  · funext a
    rw [Memory.getElem?_overwrite h, apply_ite (Option.getD · 0)]

theorem load_ofBytes {b : ByteArray} {offset len : Nat} (h : offset + len ≤ b.size) :
    (ofBytes b).load offset len = b.extract offset (offset + len) := by
  have hb : b.data.size = b.size := rfl
  apply ByteArray.ext
  apply Array.ext_getElem?
  intro i
  show ((List.range len).map fun i => b.data[offset + i]?.getD 0).toArray[i]? = _
  rw [ByteArray.data_extract, Array.getElem?_extract, List.getElem?_toArray, List.getElem?_map]
  by_cases hi : i < len
  · rw [List.getElem?_range hi, if_pos (by omega), Option.map_some,
      getElem?_pos b.data (offset + i) (by omega), Option.getD_some]
  · rw [List.getElem?_eq_none (by simpa using hi), if_neg (by omega)]
    rfl

end View

/-! ## The stack of views -/

/-- **A stack of views**, of which only the innermost is addressed. -/
structure Views where
  active : View
  /-- The other views, the innermost of them first. -/
  enclosing : List View
  /-- Largest size of a view in bytes. -/
  limit : Nat

/-- What can be asked of a memory. -/
inductive Command where
  | enter
  | exit
  | ensureSize (newSize : Nat)
  | cover (offset len : Word)
  | load (offset len : Nat)
  | store (offset : Nat) (bytes : ByteArray)
  | storeWord (offset : Nat) (w : Word)
  | storeByte (offset : Nat) (byte : UInt8)

/-- What a memory answers, beside the meter. -/
inductive Reply where
  | done
  | bytes (b : ByteArray)
  | range (r : Option (Nat × Nat))
  deriving DecidableEq

namespace Views

def new (limit : Nat) : Views := { active := .empty, enclosing := [], limit }

/-- Open an empty view. -/
def enter (s : Views) : Views := { s with active := .empty, enclosing := s.active :: s.enclosing }

/-- Drop the active view, and go on with the one around it as it was left. -/
def exit (s : Views) : Views :=
  { s with active := s.enclosing.headD .empty, enclosing := s.enclosing.tail }

/-- A computation on a stack of views and a meter. -/
abbrev Act := EStateM Failure (Views × Meter)

/-- Make the active view hold a range. An empty range needs nothing. A range that ends above the
    limit or above the 64-bit sizes is refused, and so is one that the meter cannot pay for; then
    nothing is done. -/
def access (offset len : Nat) : Act Unit := fun (s, gas) =>
  let stop := offset + len
  if len = 0 then .ok () (s, gas)
  else if u64Size ≤ stop ∨ s.limit < stop then .error (.fault .memorySizeOverflow) (s, gas)
  else if gas.remaining < s.active.due stop then .error (.fault .outOfGas) (s, gas)
  else
    .ok () ({ s with active := s.active.reach stop },
      { gas with remaining := gas.remaining - s.active.due stop })

def load (offset len : Nat) : Act ByteArray := do
  access offset len
  let (s, _) ← get
  return s.active.load offset len

def store (offset : Nat) (bytes : ByteArray) : Act Unit := do
  access offset bytes.size
  modify fun (s, gas) => ({ s with active := s.active.store offset bytes }, gas)

/-- One operation on a stack of views. -/
def obey : Command → Act Reply
  | .enter => fun (s, gas) => .ok .done (s.enter, gas)
  | .exit => fun (s, gas) => .ok .done (s.exit, gas)
  | .ensureSize newSize => (fun _ => .done) <$> access 0 newSize
  | .cover offset len =>
    (fun _ => .range (if len = 0#256 then none else some (offset.toNat, len.toNat))) <$>
      access offset.toNat len.toNat
  | .load offset len => .bytes <$> load offset len
  | .store offset bytes => (fun _ => .done) <$> store offset bytes
  | .storeWord offset w => (fun _ => .done) <$> store offset (Bytes.ofWord w)
  | .storeByte offset byte => (fun _ => .done) <$> store offset (Bytes.ofList [byte])

end Views

namespace Memory

/-- One operation on a memory. -/
def obey : Command → Act Reply
  | .enter => fun (m, gas) => .ok .done (m.enter, gas)
  | .exit => fun (m, gas) => .ok .done (m.exit, gas)
  | .ensureSize newSize => (fun _ => .done) <$> grow newSize
  | .cover offset len => .range <$> cover offset len
  | .load offset len => .bytes <$> load offset len
  | .store offset bytes => (fun _ => .done) <$> store offset bytes
  | .storeWord offset w => (fun _ => .done) <$> storeWord offset w
  | .storeByte offset byte => (fun _ => .done) <$> storeByte offset byte

/-- **An operation that fails changes neither the memory nor the meter.** -/
theorem obey_steady (command : Command) : Steady (obey command) := by
  cases command with
  | enter =>
      intro s e s' h
      cases h
  | exit =>
      intro s e s' h
      cases h
  | ensureSize newSize => exact (grow_steady newSize).map _
  | cover offset len => exact (cover_steady offset len).map _
  | load offset len => exact (load_steady offset len).map _
  | store offset bytes => exact (store_steady offset bytes).map _
  | storeWord offset w => exact (store_steady offset (Bytes.ofWord w)).map _
  | storeByte offset byte => exact (store_steady offset (Bytes.ofList [byte])).map _

/-! ## The views of a buffer -/

variable {m m' : Memory}

/-- The views that start at `starts`, where the first of them ends at `stop` and each other one
    where the one inside it starts. -/
def viewsBelow (buffer : ByteArray) : Nat → List Nat → List View
  | _, [] => []
  | stop, start :: starts => .ofBytes (buffer.extract start stop) :: viewsBelow buffer start starts

/-- The stack of views that a memory stands for. -/
def views (m : Memory) : Views where
  active := .ofBytes m.view
  enclosing := viewsBelow m.buffer m.base m.bases
  limit := m.limit

/-- The views below `stop`, down to zero, are small enough to be priced. -/
def Nested : Nat → List Nat → Prop
  | stop, [] => stop = 0
  | stop, start :: starts => stop - start < 2 ^ 37 ∧ Nested start starts

/-- **A memory of which every view can be priced.** -/
structure Orderly (m : Memory) : Prop extends m.Sound where
  nested : Nested m.base m.bases

theorem new_orderly {limit : Nat} (h : limit ≤ pricedLimit) : (new limit).Orderly :=
  ⟨⟨h, Nat.two_pow_pos 37⟩, rfl⟩

theorem new_views (limit : Nat) : (new limit).views = .new limit := rfl

/-- Two buffers that are the same up to a place are the same in every range before it. -/
theorem extract_congr {b b' : ByteArray} {stop : Nat} (h : b.extract 0 stop = b'.extract 0 stop)
    {i j : Nat} (hj : j ≤ stop) : b.extract i j = b'.extract i j := by
  have hcut (c : ByteArray) : c.extract i j = (c.extract 0 stop).extract i j := by
    rw [ByteArray.extract_extract, Nat.zero_add, Nat.zero_add, Nat.min_eq_left hj]
  rw [hcut b, hcut b', h]

theorem viewsBelow_congr {b b' : ByteArray} {stop : Nat} {starts : List Nat}
    (h : b.extract 0 stop = b'.extract 0 stop) (hordered : (stop :: starts).Pairwise (· ≥ ·)) :
    viewsBelow b stop starts = viewsBelow b' stop starts := by
  induction starts generalizing stop with
  | nil => rfl
  | cons start starts ih =>
      have hle : start ≤ stop := List.rel_of_pairwise_cons hordered List.mem_cons_self
      unfold viewsBelow
      rw [extract_congr h (Nat.le_refl _), ih (extract_congr h hle) hordered.tail]

/-- What leaves everything below the active view alone leaves the other views alone. -/
theorem views_of_sameBelow (h : SameBelow m m') :
    m'.views = { m.views with active := .ofBytes m'.view } := by
  unfold views
  rw [h.base, h.bases, h.limit, viewsBelow_congr h.bytes m.ordered]

theorem nested_of_sameBelow (h : m.Orderly) (hbelow : SameBelow m m') :
    Nested m'.base m'.bases := by
  rw [hbelow.base, hbelow.bases]
  exact h.nested

/-! ## Opening and closing -/

theorem enter_views (m : Memory) : m.enter.views = m.views.enter := by
  unfold views Views.enter
  congr 1
  show View.ofBytes (m.buffer.extract m.buffer.size m.buffer.size) = .empty
  rw [ByteArray.extract_same, View.ofBytes_empty]

theorem enter_orderly (h : m.Orderly) : m.enter.Orderly :=
  ⟨enter_sound h.limit_le, h.size_lt, h.nested⟩

theorem size_exit (m : Memory) : m.exit.buffer.size = m.base := by
  show (m.buffer.extract 0 m.base).size = m.base
  have hbase := m.base_le
  rw [ByteArray.size_extract]
  omega

theorem exit_views (h : m.Orderly) : m.exit.views = m.views.exit := by
  have hbytes : (m.buffer.extract 0 m.base).extract 0 m.base = m.buffer.extract 0 m.base := by
    rw [ByteArray.extract_extract, Nat.zero_add, Nat.zero_add, Nat.min_self]
  have hnested := h.nested
  have hordered := m.ordered
  unfold views view Views.exit
  rw [size_exit]
  unfold exit
  dsimp only
  cases hbases : m.bases with
  | nil =>
      rw [hbases] at hnested
      rw [show m.base = 0 from hnested, List.headD_nil, ByteArray.extract_same,
        ByteArray.extract_same]
      rfl
  | cons start starts =>
      rw [hbases] at hordered
      have hle : start ≤ m.base := List.rel_of_pairwise_cons hordered List.mem_cons_self
      rw [List.headD_cons, List.tail_cons, extract_congr hbytes (Nat.le_refl _),
        viewsBelow_congr (extract_congr hbytes hle) hordered.tail]
      rfl

theorem exit_orderly (h : m.Orderly) : m.exit.Orderly := by
  have hnested := h.nested
  have hstart : m.base - m.exit.base < 2 ^ 37 ∧ Nested m.exit.base m.exit.bases := by
    show m.base - m.bases.headD 0 < 2 ^ 37 ∧ Nested (m.bases.headD 0) m.bases.tail
    cases hbases : m.bases with
    | nil =>
        rw [hbases] at hnested
        rw [show m.base = 0 from hnested]
        exact ⟨Nat.two_pow_pos 37, rfl⟩
    | cons start starts =>
        rw [hbases] at hnested
        exact hnested
  refine ⟨⟨h.limit_le, ?_⟩, hstart.2⟩
  unfold size
  rw [size_exit]
  exact hstart.1

/-! ## Growing -/

/-- In a sound memory the price of a size is what it costs more than the view. -/
theorem expansionCost_eq (h : m.Sound) (stop : Nat) :
    m.expansionCost stop =
      if m.limit < stop then .error rangeFault else .ok ((View.ofBytes m.view).due stop) := by
  have hlimit : m.limit ≤ 2 ^ 37 - 32 := h.limit_le
  have hsize := h.size_lt
  unfold expansionCost View.due
  rw [show (View.ofBytes m.view).size = m.size from size_view m]
  by_cases hstop : m.limit < stop
  · rw [if_pos hstop, if_pos hstop]
  · rw [if_neg hstop, if_neg hstop]
    by_cases hwords : wordsFor stop ≤ m.size / 32
    · rw [if_pos hwords, Nat.max_eq_left hwords, Nat.sub_self]
    · have hlt : wordsFor stop < 2 ^ 32 := by
        unfold wordsFor
        omega
      rw [if_neg hwords, Nat.max_eq_right (by omega), Gas.memory?_of_lt hlt,
        Gas.memory?_of_lt (by omega)]

/-- A view that has grown reaches further and has the same bytes. -/
theorem active_extend (m : Memory) (stop : Nat) :
    (m.extend stop).views.active = m.views.active.reach stop := by
  have hsize : m.view.size + (32 * wordsFor stop - m.size) =
      max m.view.size (32 * wordsFor stop) := by
    rw [size_view]
    omega
  show View.ofBytes (m.extend stop).view = _
  rewrite [view_extend, View.ofBytes_append_zeros, hsize]
  rfl

theorem extend_views (m : Memory) (stop : Nat) :
    (m.extend stop).views = { m.views with active := m.views.active.reach stop } := by
  rw [← active_extend]
  exact views_of_sameBelow (extend_sameBelow m stop)

/-- Growing a sound memory: the range decides first, then the meter. -/
theorem grow_eq_due (h : m.Sound) (stop : Nat) (gas : Meter) :
    grow stop (m, gas) =
      if m.limit < stop then .error rangeFault (m, gas)
      else if gas.remaining < (View.ofBytes m.view).due stop then
        .error (.fault .outOfGas) (m, gas)
      else
        .ok () (m.extend stop,
          { gas with remaining := gas.remaining - (View.ofBytes m.view).due stop }) := by
  rw [grow_eq, expansionCost_eq h]
  by_cases hstop : m.limit < stop
  · simp only [if_pos hstop]
  · simp only [if_neg hstop, Meter.charge?]
    by_cases hgas : gas.remaining < (View.ofBytes m.view).due stop
    · simp only [if_pos hgas, if_neg (Nat.not_le.mpr hgas)]
    · simp only [if_neg hgas, if_pos (Nat.not_lt.mp hgas)]

theorem due_zero (v : View) : v.due 0 = 0 := by
  unfold View.due
  rw [show wordsFor 0 = 0 from rfl, Nat.max_zero, Nat.sub_self]

theorem extend_orderly (h : m.Orderly) {stop : Nat} (hstop : stop ≤ m.limit) :
    (m.extend stop).Orderly :=
  ⟨⟨h.limit_le, h.toSound.size_extend hstop⟩, nested_of_sameBelow h (extend_sameBelow m stop)⟩

theorem write_orderly (h : m.Orderly) {offset : Nat} {bytes : ByteArray}
    (hle : offset + bytes.size ≤ m.size) : (m.write offset bytes).Orderly :=
  ⟨(h.toSound.write hle).1, nested_of_sameBelow h (write_sameBelow hle)⟩

/-! ## Access -/

/-- **One operation done on both**: the same failure or the same reply, the same meter, and a memory
    that stands for the stack of views. -/
inductive Alike {α : Type} :
    EStateM.Result Failure (Memory × Meter) α → EStateM.Result Failure (Views × Meter) α → Prop
  | error (e : Failure) {m : Memory} (h : m.Orderly) (gas : Meter) :
      Alike (.error e (m, gas)) (.error e (m.views, gas))
  | ok (a : α) {m : Memory} (h : m.Orderly) (gas : Meter) :
      Alike (.ok a (m, gas)) (.ok a (m.views, gas))

theorem Alike.map {α β : Type} {x : Act α} {y : Views.Act α} {s : Memory × Meter}
    {t : Views × Meter} (h : Alike (x s) (y t)) (f : α → β) : Alike ((f <$> x) s) ((f <$> y) t) := by
  rw [Act.map_apply, Act.map_apply]
  generalize x s = r at h
  generalize y t = r' at h
  cases h with
  | error e h gas => exact .error e h gas
  | ok a h gas => exact .ok (f a) h gas

/-- **Growing the buffer is making the active view hold a range**, if the end of the range is a
    size. -/
theorem grow_alike (h : m.Orderly) (offset len : Nat) (hlen : len = 0 → offset = 0) (gas : Meter)
    (hstop : offset + len < u64Size) :
    Alike (grow (offset + len) (m, gas)) (Views.access offset len (m.views, gas)) := by
  rw [grow_eq_due h.toSound]
  unfold Views.access
  by_cases hzero : len = 0
  · obtain rfl := hlen hzero
    simp only [hzero, if_true, Nat.add_zero, due_zero, Nat.not_lt_zero, if_false, Nat.sub_zero]
    rw [extend_eq_self (Nat.zero_le _)]
    exact .ok () h gas
  · have hlimit : (u64Size ≤ offset + len ∨ m.views.limit < offset + len) ↔
        m.limit < offset + len := by
      rw [or_iff_right (Nat.not_le.mpr hstop)]
      rfl
    simp only [if_neg hzero, hlimit]
    by_cases hle : m.limit < offset + len
    · rw [if_pos hle, if_pos hle]
      exact .error _ h gas
    · rw [if_neg hle, if_neg hle]
      show Alike (if gas.remaining < m.views.active.due (offset + len) then _ else _) _
      by_cases hgas : gas.remaining < m.views.active.due (offset + len)
      · rw [if_pos hgas, if_pos hgas]
        exact .error _ h gas
      · rw [if_neg hgas, if_neg hgas, ← extend_views]
        exact .ok () (extend_orderly h (Nat.not_lt.mp hle)) _

/-- A range that does not end at a size is refused. -/
theorem access_eq_error {offset len : Nat} (hlen : len ≠ 0) (hstop : u64Size ≤ offset + len)
    (s : Views) (gas : Meter) : Views.access offset len (s, gas) = .error rangeFault (s, gas) := by
  unfold Views.access
  simp only [if_neg hlen, if_pos (Or.inl hstop : _ ∨ s.limit < offset + len)]
  rfl

/-- Making room for a range. -/
theorem growTo_alike (h : m.Orderly) (offset : Nat) {len : Nat} (hlen : len ≠ 0) (gas : Meter) :
    Alike (growTo offset len (m, gas)) (Views.access offset len (m.views, gas)) := by
  rw [growTo_eq]
  unfold add64?
  by_cases hstop : offset + len < u64Size
  · rw [if_pos hstop]
    exact grow_alike h offset len (fun h => absurd h hlen) gas hstop
  · rw [if_neg hstop, access_eq_error hlen (Nat.not_lt.mp hstop)]
    exact .error _ h gas

theorem ensureSize_alike (h : m.Orderly) (newSize : Nat) (gas : Meter) :
    Alike (grow newSize (m, gas)) (Views.access 0 newSize (m.views, gas)) := by
  have hlimit : m.limit ≤ 2 ^ 37 - 32 := h.limit_le
  by_cases hsize : newSize < u64Size
  · have hgrow := grow_alike h 0 newSize (fun _ => rfl) gas (by rwa [Nat.zero_add])
    rw [Nat.zero_add] at hgrow
    exact hgrow
  · -- such a size is beyond every limit
    have hlarge : u64Size ≤ 0 + newSize := by omega
    have hbeyond : m.limit < newSize := by
      unfold u64Size at hlarge
      omega
    rw [access_eq_error (Nat.ne_zero_of_lt hbeyond) hlarge, grow_eq_due h.toSound, if_pos hbeyond]
    exact .error _ h gas

/-- What is done on both, once there is room for a range, and fails no more. -/
theorem Alike.of_growTo {α : Type} {x : Act α} {y : Views.Act α} {offset len : Nat}
    (h : m.Orderly) (hlen : len ≠ 0) (gas : Meter)
    (hroom : ∀ ⦃m' : Memory⦄, m'.Orderly → offset + len ≤ m'.size → ∀ gas',
      Alike (x (m', gas')) (y (m'.views, gas'))) :
    Alike ((growTo offset len >>= fun _ => x) (m, gas))
      ((Views.access offset len >>= fun _ => y) (m.views, gas)) := by
  have hboth := growTo_alike h offset hlen gas
  cases hgrow : growTo offset len (m, gas) with
  | error e s =>
      rw [hgrow] at hboth
      generalize haccess : Views.access offset len (m.views, gas) = r at hboth
      cases hboth with
      | error e h' gas' =>
          rw [Act.bind_error hgrow, Act.bind_error haccess]
          exact .error e h' gas'
  | ok u s =>
      rw [hgrow] at hboth
      generalize haccess : Views.access offset len (m.views, gas) = r at hboth
      cases hboth with
      | ok u h' gas' =>
          rw [Act.bind_ok hgrow, Act.bind_ok haccess]
          exact hroom h' (size_of_grow_ok (of_growTo_ok hgrow)).1 gas'

theorem load_alike (h : m.Orderly) (offset len : Nat) (gas : Meter) :
    Alike (load offset len (m, gas)) (Views.load offset len (m.views, gas)) := by
  unfold load Views.load
  by_cases hlen : len = 0
  · subst hlen
    exact .ok _ h gas
  · rw [if_neg hlen]
    refine .of_growTo h hlen gas fun m' h' hle gas' => ?_
    have hview : offset + len ≤ m'.view.size := by
      rw [size_view]
      exact hle
    have hread : m'.read? offset len = some (m'.views.active.load offset len) := by
      rw [read?_eq, if_pos hview]
      exact congrArg some (View.load_ofBytes hview).symm
    simp only [Act.get_bind, hread]
    exact .ok _ h' gas'

theorem active_write {offset : Nat} {bytes : ByteArray} (hle : offset + bytes.size ≤ m.size) :
    (m.write offset bytes).views.active = m.views.active.store offset bytes := by
  have hview : offset + bytes.size ≤ m.view.size := by
    rw [size_view]
    exact hle
  show View.ofBytes (m.write offset bytes).view = _
  rewrite [view_write hle, View.ofBytes_overwrite hview]
  rfl

theorem write_views {offset : Nat} {bytes : ByteArray} (hle : offset + bytes.size ≤ m.size) :
    (m.write offset bytes).views =
      { m.views with active := m.views.active.store offset bytes } := by
  rw [← active_write hle]
  exact views_of_sameBelow (write_sameBelow hle)

theorem store_alike (h : m.Orderly) (offset : Nat) (bytes : ByteArray) (gas : Meter) :
    Alike (store offset bytes (m, gas)) (Views.store offset bytes (m.views, gas)) := by
  unfold store Views.store
  by_cases hlen : bytes.size = 0
  · have haccess : Views.access offset bytes.size (m.views, gas) = .ok () (m.views, gas) := by
      unfold Views.access
      exact if_pos hlen
    rw [if_pos hlen, Act.bind_ok haccess]
    show Alike _ (.ok () ({ m.views with active := m.views.active.store offset bytes }, gas))
    rw [View.store_nothing hlen]
    exact .ok _ h gas
  · rw [if_neg hlen]
    refine .of_growTo h hlen gas fun m' h' hle gas' => ?_
    have hwrite : m'.write? offset bytes = some (m'.write offset bytes) := if_pos hle
    simp only [Act.get_bind, hwrite]
    show Alike _ (.ok () ({ m'.views with active := m'.views.active.store offset bytes }, gas'))
    rw [← write_views hle]
    exact .ok _ (write_orderly h' hle) gas'

/-- A range that is not empty is made room for like any other, whatever the words are. -/
theorem cover_eq_growTo {offset len : Word} (hlen : len ≠ 0#256) (s : Memory × Meter) :
    cover offset len s =
      ((fun _ => some (offset.toNat, len.toNat)) <$> growTo offset.toNat len.toNat) s := by
  have hstop : stopOf offset len = add64? offset.toNat len.toNat := by
    unfold stopOf Word.toU64? add64?
    grind
  rw [cover_eq, if_neg hlen, hstop, Act.map_apply, growTo_eq]
  cases add64? offset.toNat len.toNat with
  | none => rfl
  | some stop =>
      dsimp only
      cases grow stop s <;> rfl

theorem cover_alike (h : m.Orderly) (offset len : Word) (gas : Meter) :
    Alike (obey (.cover offset len) (m, gas)) (Views.obey (.cover offset len) (m.views, gas)) := by
  by_cases hlen : len = 0#256
  · subst hlen
    exact .ok _ h gas
  · have hnat := Word.toNat_ne_zero hlen
    have hcover : obey (.cover offset len) (m, gas) =
        ((fun _ => Reply.range (some (offset.toNat, len.toNat))) <$>
          growTo offset.toNat len.toNat) (m, gas) := by
      show (Reply.range <$> cover offset len) (m, gas) = _
      rw [Act.map_apply, cover_eq_growTo hlen, Act.map_apply, Act.map_apply]
      cases growTo offset.toNat len.toNat (m, gas) <;> rfl
    have haccess : Views.obey (.cover offset len) =
        (fun _ => Reply.range (some (offset.toNat, len.toNat))) <$>
          Views.access offset.toNat len.toNat := by
      show (fun _ => Reply.range (if len = 0#256 then _ else _)) <$> _ = _
      rw [if_neg hlen]
    rw [hcover, haccess]
    exact (growTo_alike h offset.toNat hnat gas).map _

/-- **One operation on a memory is that operation on its stack of views.** -/
theorem obey_alike (h : m.Orderly) (gas : Meter) (command : Command) :
    Alike (obey command (m, gas)) (Views.obey command (m.views, gas)) := by
  cases command with
  | enter =>
      show Alike _ (.ok Reply.done (m.views.enter, gas))
      rw [← enter_views]
      exact .ok _ (enter_orderly h) gas
  | exit =>
      show Alike _ (.ok Reply.done (m.views.exit, gas))
      rw [← exit_views h]
      exact .ok _ (exit_orderly h) gas
  | ensureSize newSize => exact (ensureSize_alike h newSize gas).map _
  | cover offset len => exact cover_alike h offset len gas
  | load offset len => exact (load_alike h offset len gas).map _
  | store offset bytes => exact (store_alike h offset bytes gas).map _
  | storeWord offset w => exact (store_alike h offset (Bytes.ofWord w) gas).map _
  | storeByte offset byte => exact (store_alike h offset (Bytes.ofList [byte]) gas).map _

end Memory

/-! ## Any number of operations -/

/-- What every operation of a list comes to, each with its own meter, and what they leave. -/
def transcript {S : Type} (obey : Command → EStateM Failure (S × Meter) Reply) :
    S → List (Command × Meter) → List (Except Failure Reply × Meter) × S
  | s, [] => ([], s)
  | s, (command, gas) :: rest =>
    match obey command (s, gas) with
    | .error e (s, gas) => ((transcript obey s rest).1.cons (.error e, gas), (transcript obey s rest).2)
    | .ok reply (s, gas) => ((transcript obey s rest).1.cons (.ok reply, gas), (transcript obey s rest).2)

theorem transcript_views {m : Memory} (h : m.Orderly) (script : List (Command × Meter)) :
    (transcript Memory.obey m script).map id Memory.views =
      transcript Views.obey m.views script := by
  induction script generalizing m with
  | nil => rfl
  | cons entry rest ih =>
      obtain ⟨command, gas⟩ := entry
      have hstep := Memory.obey_alike h gas command
      unfold transcript
      generalize Memory.obey command (m, gas) = r at hstep
      generalize Views.obey command (m.views, gas) = r' at hstep
      cases hstep with
      | error e h' gas' =>
          dsimp only
          rewrite [← ih h']
          rfl
      | ok reply h' gas' =>
          dsimp only
          rewrite [← ih h']
          rfl

/-- **One buffer is a stack of views.** For every limit under which memory has a price, any list of
    operations with any arguments and meters is answered alike by the buffer (`Memory.obey`) and by a
    stack of independent views that start empty (`Views.obey`): the same bytes and ranges, the same
    meters, the same failures. What is left in the end stands for the same views, the enclosing ones
    included (`Memory.views`). An operation that fails changes neither the buffer nor the meter
    (`Steady`). -/
theorem memory_refines_views {limit : Nat} (hlimit : limit ≤ Memory.pricedLimit)
    (script : List (Command × Meter)) :
    (transcript Memory.obey (.new limit) script).map id Memory.views =
        transcript Views.obey (.new limit) script ∧
      ∀ command, Steady (Memory.obey command) := by
  rw [← Memory.new_views]
  exact ⟨transcript_views (Memory.new_orderly hlimit) script, Memory.obey_steady⟩

/-- A view is written, an inner one is opened on it, written and closed, and a second inner one does
    not see what the first one wrote; the last read would pass the limit. -/
def siblingScript : List (Command × Meter) :=
  [(.storeByte 1 7, .full 10), (.enter, .full 0), (.storeByte 0 9, .full 3), (.exit, .full 0),
    (.enter, .full 0), (.load 0 2, .full 2), (.load 0 2, .full 3), (.exit, .full 0),
    (.load 0 3, .full 0), (.load 63 2, .full 9)]

theorem memory_refines_views_siblings :
    64 ≤ Memory.pricedLimit ∧
      (transcript Memory.obey (.new 64) siblingScript).map id Memory.views =
        transcript Views.obey (.new 64) siblingScript ∧
      (transcript Memory.obey (.new 64) siblingScript).1 =
        [(.ok .done, { limit := 10, remaining := 7 }), (.ok .done, .full 0),
          (.ok .done, { limit := 3, remaining := 0 }), (.ok .done, .full 0),
          (.ok .done, .full 0), (.error (.fault .outOfGas), .full 2),
          (.ok (.bytes (Bytes.ofList [0, 0])), { limit := 3, remaining := 0 }),
          (.ok .done, .full 0), (.ok (.bytes (Bytes.ofList [0, 7, 0])), .full 0),
          (.error (.fault .memorySizeOverflow), .full 9)] :=
  ⟨by decide, (memory_refines_views (by decide) siblingScript).1, by rfl⟩

end MeteredEvm
