import MeteredEvm.Bytes
import MeteredEvm.Gas.Meter
import MeteredEvm.Gas.Schedule

/-!
# `MeteredEvm.Memory` — one buffer for the whole call tree

Every frame works on its own view of the memory. All views stand one after another in one buffer:
a view starts where the buffer ended when it was opened, so its address zero is the end of the
enclosing view and nothing below is in its reach. Closing a view cuts the buffer back.

Growing has to be paid for, so what grows a view is a computation on a memory and a meter.

## Contents
* `Memory`, `Memory.new`, `Memory.enter`, `Memory.exit`, `Memory.size`, `Memory.depth`,
  `Memory.view`.
* `Memory.Act`, `Memory.expansionCost`, `Memory.grow`, `Memory.cover` — growing the active view, for gas.
* `Memory.load`, `Memory.store`, `Memory.storeWord`, `Memory.storeByte` — access that grows.
* `Memory.read?`, `Memory.write?`, `Memory.move?` — access to what is already there.
-/

namespace MeteredEvm

/-- The views of all open frames. -/
@[ext]
structure Memory where
  /-- All views, the outermost first. -/
  buffer : ByteArray
  /-- Where the enclosing views start, the innermost of them first. -/
  bases : List Nat
  /-- Where the active view starts. -/
  base : Nat
  /-- Largest size of a view in bytes. -/
  limit : Nat
  /-- The active view lies in the buffer. -/
  base_le : base ≤ buffer.size
  /-- No view starts before one that encloses it. -/
  ordered : (base :: bases).Pairwise (· ≥ ·)
  deriving DecidableEq

namespace Memory

/-- The limit of a view where nothing else is configured. -/
abbrev defaultLimit : Nat := 0xffffffff

/-- A memory with one empty view. -/
def new (limit : Nat) : Memory where
  buffer := .empty
  bases := []
  base := 0
  limit := limit
  base_le := Nat.le_refl 0
  ordered := List.pairwise_singleton ..

instance : Inhabited Memory := ⟨new defaultLimit⟩

/-- Open an empty view. -/
def enter (m : Memory) : Memory where
  buffer := m.buffer
  bases := m.base :: m.bases
  base := m.buffer.size
  limit := m.limit
  base_le := Nat.le_refl _
  ordered := by
    refine .cons (fun start hstart => ?_) m.ordered
    obtain rfl | hstart := List.mem_cons.1 hstart
    · exact m.base_le
    · exact Nat.le_trans (List.rel_of_pairwise_cons m.ordered hstart) m.base_le

/-- The view around the active one starts no later, and so on outwards. -/
theorem ordered_headD (m : Memory) :
    m.bases.headD 0 ≤ m.base ∧ (m.bases.headD 0 :: m.bases.tail).Pairwise (· ≥ ·) := by
  have hordered := m.ordered
  cases hbases : m.bases with
  | nil => exact ⟨Nat.zero_le _, List.pairwise_singleton ..⟩
  | cons start starts =>
      rw [hbases] at hordered
      exact ⟨List.rel_of_pairwise_cons hordered List.mem_cons_self, hordered.tail⟩

/-- Close the active view. The outermost view cannot be closed and is emptied. -/
def exit (m : Memory) : Memory where
  buffer := m.buffer.extract 0 m.base
  bases := m.bases.tail
  base := m.bases.headD 0
  limit := m.limit
  base_le := by
    have hbase := m.base_le
    have hhead := m.ordered_headD.1
    rw [ByteArray.size_extract]
    omega
  ordered := m.ordered_headD.2

/-- Size of the active view in bytes. -/
def size (m : Memory) : Nat := m.buffer.size - m.base

/-- Number of views opened and not closed. -/
def depth (m : Memory) : Nat := m.bases.length

/-- The bytes of the active view. -/
def view (m : Memory) : ByteArray := m.buffer.extract m.base m.buffer.size

/-! ## Growing -/

/-- A computation on a memory and the meter that pays for it. A failure keeps what was reached. -/
abbrev Act := EStateM Failure (Memory × Meter)

/-- The fault for a range that memory cannot hold. -/
def rangeFault : Failure := .fault .memorySizeOverflow

/-- Price of growing the active view to `newSize` bytes, rounded up to words. Nothing is due where
    the view is large enough. -/
def expansionCost (m : Memory) (newSize : Nat) : Except Failure Nat :=
  if m.limit < newSize then .error rangeFault
  else if wordsFor newSize ≤ m.size / 32 then .ok 0
  else
    match Gas.memory? (wordsFor newSize), Gas.memory? (m.size / 32) with
    | some after, some before => .ok (after - before)
    | _, _ => .error (.trap .arithmetic)

/-- The memory with the active view extended to `newSize` bytes, rounded up to words. -/
def extend (m : Memory) (newSize : Nat) : Memory :=
  { m with
    buffer := m.buffer ++ Bytes.zeros (32 * wordsFor newSize - m.size)
    base_le := by
      rw [ByteArray.size_append]
      exact Nat.le_add_right_of_le m.base_le }

/-- Make the active view hold `newSize` bytes, and pay for the words that are new. -/
def grow (newSize : Nat) : Act Unit := fun (m, gas) =>
  match m.expansionCost newSize with
  | .error e => .error e (m, gas)
  | .ok 0 => .ok () (m, gas)
  | .ok (cost + 1) =>
    match gas.charge? (cost + 1) with
    | none => .error (.fault .outOfGas) (m, gas)
    | some gas => .ok () (m.extend newSize, gas)

/-- Make the active view hold the range given by two words. An empty range needs no memory,
    wherever it starts, and is answered by `none`. -/
def cover (offset len : Word) : Act (Option (Nat × Nat)) :=
  if len = 0#256 then return none
  else
    match offset.toU64?, len.toU64? with
    | some o, some n =>
      match add64? o n with
      | none => throw rangeFault
      | some stop => do
        grow stop
        return some (o, n)
    | _, _ => throw rangeFault

/-- Make the active view hold the `len` bytes from `offset` on. -/
def growTo (offset len : Nat) : Act Unit :=
  match add64? offset len with
  | none => throw rangeFault
  | some stop => grow stop

/-! ## Access to what is there -/

/-- The `len` bytes from `offset` on, if the active view holds them. -/
def read? (m : Memory) (offset len : Nat) : Option ByteArray :=
  if offset + len ≤ m.size then
    some (m.buffer.extract (m.base + offset) (m.base + offset + len))
  else none

/-- The memory with `bytes` written from `offset` on, in a range that the active view holds. -/
def write (m : Memory) (offset : Nat) (bytes : ByteArray) : Memory :=
  { m with
    buffer := Bytes.overwrite m.buffer (m.base + offset) bytes
    base_le := Nat.le_trans m.base_le (Bytes.size_le_size_overwrite ..) }

/-- The memory with `bytes` written from `offset` on, if the active view holds that range. -/
def write? (m : Memory) (offset : Nat) (bytes : ByteArray) : Option Memory :=
  if offset + bytes.size ≤ m.size then some (m.write offset bytes) else none

/-- The memory with `len` bytes copied from `source` to `target`. The bytes are those from before
    the copy, also where the ranges overlap. -/
def move? (m : Memory) (source target len : Nat) : Option Memory :=
  match m.read? source len with
  | some bytes => m.write? target bytes
  | none => none

/-! ## Access that grows -/

/-- Read a range, which is first made part of the view. -/
def load (offset len : Nat) : Act ByteArray :=
  if len = 0 then return .empty
  else do
    growTo offset len
    let (m, _) ← get
    match m.read? offset len with
    | some bytes => return bytes
    | none => throw (.trap .memory)

/-- Write a range, which is first made part of the view. -/
def store (offset : Nat) (bytes : ByteArray) : Act Unit :=
  if bytes.size = 0 then return
  else do
    growTo offset bytes.size
    let (m, gas) ← get
    match m.write? offset bytes with
    | some m => set (m, gas)
    | none => throw (.trap .memory)

/-- Write the 32 bytes of a word. -/
def storeWord (offset : Nat) (w : Word) : Act Unit := store offset (Bytes.ofWord w)

/-- Write one byte. -/
def storeByte (offset : Nat) (byte : UInt8) : Act Unit := store offset (Bytes.ofList [byte])

end Memory

end MeteredEvm
