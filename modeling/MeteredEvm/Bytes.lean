import MeteredEvm.Word

/-!
# `MeteredEvm.Bytes` — byte strings

Code, call data, memory and hashes are packed byte strings (`ByteArray`). This module holds the
operations on them that the machine needs: big-endian numbers, reads that run past the end, and
overwriting a range.

## Contents
* `Bytes.zeros`, `Bytes.ofList`.
* `Bytes.toNat`, `Bytes.ofNat`, `Bytes.toWord`, `Bytes.ofWord`, `Bytes.ofAddress` — big-endian.
* `Bytes.slice`, `Bytes.paddedSlice`, `Bytes.range?`, `Bytes.overwrite` — ranges.
-/

namespace MeteredEvm.Bytes

/-- Byte strings are compared byte by byte, whatever other instances are in scope. -/
instance (priority := 2000) decidableEq : DecidableEq ByteArray := ByteArray.instDecidableEq

/-- `n` zero bytes. -/
def zeros (n : Nat) : ByteArray := n.repeat (fun b => b.push 0) (ByteArray.emptyWithCapacity n)

theorem data_repeat_push (b : ByteArray) (n : Nat) :
    (n.repeat (fun b => b.push 0) b).data = b.data ++ Array.replicate n 0 := by
  induction n with
  | zero => simp [Nat.repeat]
  | succ n ih =>
    have push (c : ByteArray) : (c.push 0).data = c.data.push 0 := rfl
    rw [Nat.repeat, push, ih, Array.replicate_succ, Array.append_push]

/-- Zero bytes are all zero. -/
theorem data_zeros (n : Nat) : (zeros n).data = Array.replicate n 0 := by
  rw [zeros, data_repeat_push]
  exact Array.empty_append

@[simp]
theorem size_zeros (n : Nat) : (zeros n).size = n := by
  rw [← ByteArray.size_data, data_zeros, Array.size_replicate]

/-- The byte string with the given bytes. -/
def ofList (bytes : List UInt8) : ByteArray := ⟨bytes.toArray⟩

/-! ## Big-endian numbers -/

/-- The number whose big-endian digits to base 256 are the bytes. -/
def toNat (b : ByteArray) : Nat := b.data.foldl (fun acc x => acc * 256 + x.toNat) 0

/-- The low `width` bytes of a number, most significant first. -/
def ofNat (width n : Nat) : ByteArray :=
  ⟨Array.ofFn fun i : Fin width => UInt8.ofNat (n >>> (8 * (width - 1 - i.val)))⟩

/-- The word held by at most 32 bytes. -/
def toWord (b : ByteArray) : Word := BitVec.ofNat 256 (toNat b)

/-- The 32 bytes of a word. -/
def ofWord (w : Word) : ByteArray := ofNat 32 w.toNat

/-- The 20 bytes of an address. -/
def ofAddress (a : Address) : ByteArray := ofNat 20 a.toNat

/-! ## Ranges -/

/-- The bytes from `start` up to `start + len`, as far as there are any. A start past the end is
    taken for the end. -/
def slice (b : ByteArray) (start len : Nat) : ByteArray :=
  let first := min start b.size
  let available := min (b.size - first) len
  b.extract first (first + available)

/-- The `len` bytes from `start` on, continued with zeros past the end. -/
def paddedSlice (b : ByteArray) (start len : Nat) : ByteArray :=
  let available := slice b start len
  if available.size = len then available else available ++ zeros (len - available.size)

theorem size_slice (b : ByteArray) (start len : Nat) :
    (slice b start len).size = min (b.size - start) len := by
  unfold slice
  dsimp only
  rw [ByteArray.size_extract]
  omega

/-- A padded slice is a slice and zeros, if only none. -/
theorem paddedSlice_eq_append (b : ByteArray) (start len : Nat) :
    paddedSlice b start len = slice b start len ++ zeros (len - (slice b start len).size) := by
  unfold paddedSlice
  by_cases hfull : (slice b start len).size = len
  · rw [if_pos hfull, hfull, Nat.sub_self]
    exact ByteArray.append_empty.symm
  · rw [if_neg hfull]

/-- As many bytes as asked for. -/
theorem size_paddedSlice (b : ByteArray) (start len : Nat) :
    (paddedSlice b start len).size = len := by
  rw [paddedSlice_eq_append, ByteArray.size_append, size_zeros, size_slice]
  omega

/-- The bytes from `start` up to `start + len`, if they are all there. -/
def range? (b : ByteArray) (start len : Nat) : Option ByteArray :=
  if start + len ≤ b.size then some (b.extract start (start + len)) else none

/-- `b` with the bytes from `start` on replaced by `patch`, which has to lie inside `b`. -/
def overwrite (b : ByteArray) (start : Nat) (patch : ByteArray) : ByteArray :=
  patch.copySlice 0 b start patch.size

/-- A patch takes nothing away. -/
theorem size_le_size_overwrite (b : ByteArray) (start : Nat) (patch : ByteArray) :
    b.size ≤ (overwrite b start patch).size := by
  unfold overwrite
  rw [ByteArray.copySlice_eq_append]
  simp only [ByteArray.size_append, ByteArray.size_extract, ByteArray.size_data]
  omega

end MeteredEvm.Bytes
