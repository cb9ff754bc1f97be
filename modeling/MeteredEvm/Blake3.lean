import MeteredEvm.Bytes

/-!
# `MeteredEvm.Blake3` — the BLAKE3 hash

Analysed code is identified by the 256-bit BLAKE3 digest of its bytes. The message is cut into
chunks of 1024 bytes, each chunk into blocks of 64 bytes, and the chunks are the leaves of a binary
tree whose left subtrees are full.

## Contents
* `Blake3.Node`, `Blake3.Node.compress` — a compression that is still open, so that the root can be
  marked, and the compression function.
* `Blake3.chunk`, `Blake3.subtree`, `Blake3.digest` — chunks, the tree over them, the digest.
-/

namespace MeteredEvm.Blake3

/-- Eight words that chain the compressions of a chunk. -/
abbrev Chaining := Vector UInt32 8

/-- The sixteen words of a block, or of the state of a compression. -/
abbrev Block := Vector UInt32 16

/-- The chaining value that every chunk starts with. -/
def initial : Chaining :=
  #v[0x6a09e667, 0xbb67ae85, 0x3c6ef372, 0xa54ff53a, 0x510e527f, 0x9b05688c, 0x1f83d9ab, 0x5be0cd19]

/-- The reordering of the block words between rounds. -/
def reordering : Vector (Fin 16) 16 :=
  #v[2, 6, 3, 10, 7, 0, 4, 13, 1, 11, 12, 5, 9, 14, 15, 8]

/-- Rotation to the right, by more than zero and less than 32. -/
def rotateRight (w : UInt32) (n : UInt32) : UInt32 := (w >>> n) ||| (w <<< (32 - n))

/-- Mix two block words into four words of the state. -/
def mix (s : Block) (a b c d : Fin 16) (x y : UInt32) : Block :=
  let a₁ := s[a] + s[b] + x
  let d₁ := rotateRight (s[d] ^^^ a₁) 16
  let c₁ := s[c] + d₁
  let b₁ := rotateRight (s[b] ^^^ c₁) 12
  let a₂ := a₁ + b₁ + y
  let d₂ := rotateRight (d₁ ^^^ a₂) 8
  let c₂ := c₁ + d₂
  let b₂ := rotateRight (b₁ ^^^ c₂) 7
  (((s.set a a₂).set b b₂).set c c₂).set d d₂

/-- One round: the four columns, then the four diagonals. -/
def round (s : Block) (m : Block) : Block :=
  let s := mix s 0 4 8 12 m[0] m[1]
  let s := mix s 1 5 9 13 m[2] m[3]
  let s := mix s 2 6 10 14 m[4] m[5]
  let s := mix s 3 7 11 15 m[6] m[7]
  let s := mix s 0 5 10 15 m[8] m[9]
  let s := mix s 1 6 11 12 m[10] m[11]
  let s := mix s 2 7 8 13 m[12] m[13]
  mix s 3 4 9 14 m[14] m[15]

/-- The rounds that are left, each on the reordered block. -/
def rounds : Nat → Block → Block → Block
  | 0, s, _ => s
  | n + 1, s, m => rounds n (round s m) (Vector.ofFn fun i => m[reordering[i]])

/-- A compression with all its inputs, not yet marked as the root or as an inner node. -/
structure Node where
  /-- The chaining value so far. -/
  chaining : Chaining
  /-- The block. -/
  block : Block
  /-- Index of the chunk; zero for a node of the tree. -/
  counter : Nat
  /-- Number of message bytes in the block. -/
  length : Nat
  /-- Which part of the tree the block is. -/
  flags : UInt32

/-- Flag of the first block of a chunk. -/
def chunkStart : UInt32 := 1
/-- Flag of the last block of a chunk. -/
def chunkEnd : UInt32 := 2
/-- Flag of a node with two subtrees. -/
def parent : UInt32 := 4
/-- Flag of the root. -/
def root : UInt32 := 8

/-- The chaining value that a node gives, with extra flags. -/
def Node.compress (n : Node) (extra : UInt32) : Chaining :=
  let start : Block := n.chaining ++
    (#v[0x6a09e667, 0xbb67ae85, 0x3c6ef372, 0xa54ff53a, UInt32.ofNat n.counter,
      UInt32.ofNat (n.counter >>> 32), UInt32.ofNat n.length, n.flags ||| extra] : Vector UInt32 8)
  let final := rounds 7 start n.block
  Vector.ofFn fun i => final[i.val] ^^^ final[i.val + 8]

/-! ## Chunks and the tree -/

/-- The block words of the 64 bytes from `start` on; past the message they are zero. -/
def blockAt (message : ByteArray) (start : Nat) : Block :=
  Vector.ofFn fun i => (List.range 4).foldr
    (fun j acc => (acc <<< 8) ||| ((message[start + 4 * i.val + j]?).getD 0).toUInt32) 0

/-- The last node of chunk `index`: all blocks but the last are compressed. -/
def chunk (message : ByteArray) (index : Nat) : Node :=
  let start := 1024 * index
  let size := min 1024 (message.size - start)
  let last := (size - 1) / 64
  let chaining := (List.range last).foldl (fun cv i =>
    ({ chaining := cv, block := blockAt message (start + 64 * i), counter := index, length := 64,
       flags := if i = 0 then chunkStart else 0 } : Node).compress 0) initial
  { chaining := chaining
    block := blockAt message (start + 64 * last)
    counter := index
    length := size - 64 * last
    flags := (if last = 0 then chunkStart else 0) ||| chunkEnd }

/-- The node above two subtrees. -/
def join (left right : Node) : Node :=
  { chaining := initial
    block := left.compress 0 ++ right.compress 0
    counter := 0
    length := 64
    flags := parent }

/-- The largest power of two below `n`, for `n` at least two. -/
def leftSize (n : Nat) : Nat := 1 <<< (n - 1).log2

theorem leftSize_lt {n : Nat} (h : ¬ n ≤ 1) : leftSize n < n := by
  have := Nat.log2_self_le (n := n - 1) (by omega)
  simp only [leftSize, Nat.one_shiftLeft]
  omega

theorem leftSize_pos (n : Nat) : 0 < leftSize n := by
  rw [leftSize, Nat.one_shiftLeft]
  exact Nat.two_pow_pos _

/-- The node over the `count` chunks from `first` on. -/
def subtree (message : ByteArray) (first count : Nat) : Node :=
  if h : count ≤ 1 then chunk message first
  else
    have := leftSize_lt h
    join (subtree message first (leftSize count))
      (subtree message (first + leftSize count) (count - leftSize count))
termination_by count
decreasing_by
  · exact this
  · exact Nat.sub_lt (Nat.zero_lt_of_lt this) (leftSize_pos count)

/-- The 32-byte digest of a message. -/
def digestBytes (message : ByteArray) : ByteArray :=
  let chunks := max 1 ((message.size + 1023) / 1024)
  let final := (subtree message 0 chunks).compress root
  ⟨Array.ofFn fun i : Fin 32 =>
    UInt8.ofNat ((final[(i.val / 4) % 8]).toNat >>> (8 * (i.val % 4)))⟩

/-- The digest as a hash value. -/
def digest (message : ByteArray) : Hash := Bytes.toWord (digestBytes message)

end MeteredEvm.Blake3
