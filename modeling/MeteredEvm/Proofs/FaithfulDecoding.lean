import Mathlib.Algebra.GroupWithZero.Nat
import Mathlib.Data.Nat.Digits.Defs
import MeteredEvm.Proofs.Stream

/-!
# `MeteredEvm.Proofs.FaithfulDecoding` — the analysis is the code, read once

The analysis loses nothing and adds nothing but entries. Its blocks lie side by side from the first
byte of the code to the last. Without the entries that stand for no byte its stream is the code read
from the first byte on, an opcode and its immediate at a time, so that writing the instructions out
again gives the code. And a block is entered where its cost stands, which is nowhere else.

## Contents
* `bytesFrom`, `bigEndian` — ranges of a code, and the numbers that they hold.
* `Tiles`, `Tiles.find?_eq` — blocks side by side, and the block of a byte.
* `Instruction.Reads`, `DecodesFrom`, `DecodesFrom.encoded` — reading a code, and writing it again.
* `tiles_blocks`, `decodesFrom_real`, `entered_of_mem_blocks`, `exists_block_of_arg` — the analysis.
* `analysis_decodes_faithfully`.
-/

namespace MeteredEvm

open Analysis

variable {is : InstructionSet} {code : ByteArray} {target : Word → Option Nat}

/-! ## Bytes -/

theorem getElem?_byteArray (b : ByteArray) (i : Nat) : b[i]? = b.data.toList[i]? :=
  (Array.getElem?_toList : b.data.toList[i]? = b.data[i]?).symm

/-- The `n` bytes of a code from `start` on. Past the end of the code they are zero. -/
def bytesFrom (code : ByteArray) (start n : Nat) : List UInt8 :=
  (List.range n).map fun i => code[start + i]?.getD 0

theorem length_bytesFrom (start n : Nat) : (bytesFrom code start n).length = n := by
  simp [bytesFrom]

/-- A range falls into two. -/
theorem bytesFrom_add (start m n : Nat) :
    bytesFrom code start (m + n) = bytesFrom code start m ++ bytesFrom code (start + m) n := by
  simp [bytesFrom, List.range_add, Function.comp_def, Nat.add_assoc]

theorem getElem?_bytesFrom {start n i : Nat} (h : i < n) :
    (bytesFrom code start n)[i]? = some (code[start + i]?.getD 0) := by
  simp [bytesFrom, h]

/-- A range inside the code. -/
theorem bytesFrom_of_le {start n : Nat} (h : start + n ≤ code.size) :
    bytesFrom code start n = (code.data.toList.drop start).take n := by
  have hsize : code.data.toList.length = code.size := rfl
  apply List.ext_getElem
  · rw [length_bytesFrom, List.length_take, List.length_drop]
    omega
  · intro i hi hi'
    rw [length_bytesFrom] at hi
    have hbyte : code[start + i]? = some code.data.toList[start + i] := by
      rw [getElem?_byteArray]
      exact List.getElem?_eq_getElem (by omega)
    rw [List.getElem_take, List.getElem_drop]
    simp only [bytesFrom, List.getElem_map, List.getElem_range]
    rw [hbyte]
    rfl

/-- A range behind the code. -/
theorem bytesFrom_of_size_le_start {start : Nat} (h : code.size ≤ start) (n : Nat) :
    bytesFrom code start n = List.replicate n 0 := by
  refine List.eq_replicate_iff.2 ⟨length_bytesFrom start n, fun b hb => ?_⟩
  obtain ⟨i, -, rfl⟩ := List.mem_map.1 hb
  rw [getElem?_byteArray, List.getElem?_eq_none (Nat.le_trans h (Nat.le_add_right start i))]
  rfl

/-- A range over the whole code is the code and zeros. -/
theorem bytesFrom_of_size_le {n : Nat} (h : code.size ≤ n) :
    bytesFrom code 0 n = code.data.toList ++ List.replicate (n - code.size) 0 := by
  have hsplit : bytesFrom code 0 (code.size + (n - code.size)) = _ :=
    bytesFrom_add 0 code.size (n - code.size)
  rw [Nat.add_sub_cancel' h, bytesFrom_of_le (Nat.le_of_eq (Nat.zero_add _)),
    bytesFrom_of_size_le_start (Nat.le_of_eq (Nat.zero_add _).symm)] at hsplit
  rw [hsplit, List.drop_zero]
  exact congrArg (· ++ _) (List.take_length (l := code.data.toList))

theorem toList_slice (code : ByteArray) (start n : Nat) :
    (Bytes.slice code start n).data.toList = bytesFrom code start (min (code.size - start) n) := by
  unfold Bytes.slice
  dsimp only
  rw [ByteArray.data_extract, Array.toList_extract, List.extract_eq_take_drop,
    Nat.add_sub_cancel_left]
  by_cases hstart : start ≤ code.size
  · rw [Nat.min_eq_left hstart, bytesFrom_of_le (by omega)]
  · have hend : code.size ≤ start := Nat.le_of_not_le hstart
    rw [Nat.min_eq_right hend, Nat.sub_self, Nat.sub_eq_zero_of_le hend, Nat.zero_min]
    rfl

/-- Reading past the end reads zeros. -/
theorem toList_paddedSlice (code : ByteArray) (start n : Nat) :
    (Bytes.paddedSlice code start n).data.toList = bytesFrom code start n := by
  rw [Bytes.paddedSlice_eq_append, ByteArray.data_append, Array.toList_append, toList_slice,
    Bytes.data_zeros, Array.toList_replicate, Bytes.size_slice]
  generalize hn : min (code.size - start) n = available
  have hsplit : bytesFrom code start (available + (n - available)) = _ :=
    bytesFrom_add start available (n - available)
  rw [Nat.add_sub_cancel' (by omega)] at hsplit
  rw [hsplit]
  by_cases hall : available = n
  · rw [hall, Nat.sub_self]
    rfl
  · have hend : code.size ≤ start + available := by omega
    rw [bytesFrom_of_size_le_start hend]

/-! ## Big-endian numbers -/

/-- The number with the given bytes, most significant first. -/
def bigEndian (bytes : List UInt8) : Nat := Nat.ofDigits 256 (bytes.map UInt8.toNat).reverse

theorem bigEndian_append_singleton (bytes : List UInt8) (b : UInt8) :
    bigEndian (bytes ++ [b]) = bigEndian bytes * 256 + b.toNat := by
  simp [bigEndian, Nat.ofDigits_cons]
  omega

theorem Bytes.toNat_eq_bigEndian (b : ByteArray) : Bytes.toNat b = bigEndian b.data.toList := by
  unfold Bytes.toNat
  rw [← Array.foldl_toList]
  generalize b.data.toList = bytes
  induction bytes using List.reverseRecOn with
  | nil => rfl
  | append_singleton bytes x ih =>
      rw [List.foldl_append, ih, bigEndian_append_singleton]
      rfl

theorem bigEndian_lt (bytes : List UInt8) : bigEndian bytes < 256 ^ bytes.length := by
  have hlength : bytes.length = (bytes.map UInt8.toNat).reverse.length := by simp
  rw [hlength]
  apply Nat.ofDigits_lt_base_pow_length (by decide)
  intro x hx
  simp only [List.mem_reverse, List.mem_map] at hx
  obtain ⟨b, -, rfl⟩ := hx
  exact b.toNat_lt

/-- A byte of a number, counted from the most significant. -/
theorem bigEndian_byte (bytes : List UInt8) {i : Nat} (h : i < bytes.length) :
    UInt8.ofNat (bigEndian bytes >>> (8 * (bytes.length - 1 - i))) = bytes[i] := by
  induction bytes using List.reverseRecOn with
  | nil => exact absurd h (Nat.not_lt_zero i)
  | append_singleton bytes b ih =>
      rw [bigEndian_append_singleton, List.length_append, List.length_singleton, Nat.add_sub_cancel]
      by_cases hi : i < bytes.length
      · -- the last byte is shifted out
        have hshift : 8 * (bytes.length - i) = 8 + 8 * (bytes.length - 1 - i) := by omega
        have hbyte : (bigEndian bytes * 256 + b.toNat) >>> 8 = bigEndian bytes := by
          have hb := b.toNat_lt
          rw [Nat.shiftRight_eq_div_pow]
          omega
        rw [hshift, Nat.shiftRight_add, hbyte, ih hi, List.getElem_append_left hi]
      · have hlast : i = bytes.length := by
          rw [List.length_append, List.length_singleton] at h
          omega
        subst hlast
        rw [Nat.sub_self, Nat.mul_zero, Nat.shiftRight_zero, List.getElem_concat_length rfl]
        apply UInt8.toNat_inj.1
        have hb := b.toNat_lt
        rw [UInt8.toNat_ofNat']
        omega

/-- Writing out a number gives back the bytes that it was read from. -/
theorem Bytes.toList_ofNat_bigEndian (bytes : List UInt8) :
    (Bytes.ofNat bytes.length (bigEndian bytes)).data.toList = bytes := by
  unfold Bytes.ofNat
  rw [Array.toList_ofFn]
  apply List.ext_getElem
  · simp
  · intro i hi hi'
    rw [List.getElem_ofFn]
    exact bigEndian_byte bytes hi'

/-! ## Blocks side by side -/

/-- **Blocks that lie side by side** and fill the bytes from `start` up to `stop`, none of them
    empty. -/
def Tiles : (start : Nat) → List Block → (stop : Nat) → Prop
  | start, [], stop => start = stop
  | start, b :: bs, stop => b.start = start ∧ b.start < b.stop ∧ Tiles b.stop bs stop

namespace Tiles

variable {start stop pc : Nat} {b : Block} {bs : List Block}

theorem start_le (h : Tiles start bs stop) : start ≤ stop := by
  induction bs generalizing start with
  | nil => exact Nat.le_of_eq h
  | cons b bs ih =>
      obtain ⟨rfl, hlt, htail⟩ := h
      exact Nat.le_trans (Nat.le_of_lt hlt) (ih htail)

/-- No block reaches over the ends. -/
theorem within (h : Tiles start bs stop) (hb : b ∈ bs) : start ≤ b.start ∧ b.stop ≤ stop := by
  induction bs generalizing start with
  | nil => cases hb
  | cons b' bs ih =>
      obtain ⟨rfl, hlt, htail⟩ := h
      obtain rfl | hb := List.mem_cons.1 hb
      · exact ⟨Nat.le_refl _, htail.start_le⟩
      · obtain ⟨hstart, hstop⟩ := ih htail hb
        exact ⟨by omega, hstop⟩

/-- The blocks stand in order. -/
theorem pairwise (h : Tiles start bs stop) : bs.Pairwise (·.start < ·.start) := by
  induction bs generalizing start with
  | nil => exact .nil
  | cons b bs ih =>
      obtain ⟨rfl, hlt, htail⟩ := h
      exact .cons (fun b' hb' => Nat.lt_of_lt_of_le hlt (htail.within hb').1) (ih htail)

/-- **Every byte is in exactly one block.** -/
theorem existsUnique (h : Tiles start bs stop) (hstart : start ≤ pc) (hstop : pc < stop) :
    ∃! b, b ∈ bs ∧ b.start ≤ pc ∧ pc < b.stop := by
  induction bs generalizing start with
  | nil =>
      have heq : start = stop := h
      omega
  | cons b bs ih =>
      obtain ⟨rfl, hlt, htail⟩ := h
      by_cases hpc : pc < b.stop
      · refine ⟨b, ⟨List.mem_cons_self, hstart, hpc⟩, ?_⟩
        rintro b' ⟨hmem, hle, -⟩
        obtain rfl | hmem := List.mem_cons.1 hmem
        · rfl
        · have hwithin := htail.within hmem
          omega
      · obtain ⟨b', ⟨hmem, hle, hlt'⟩, hunique⟩ := ih htail (Nat.not_lt.1 hpc)
        refine ⟨b', ⟨List.mem_cons_of_mem _ hmem, hle, hlt'⟩, ?_⟩
        rintro b'' ⟨hmem'', hle'', hlt''⟩
        obtain rfl | hmem'' := List.mem_cons.1 hmem''
        · exact absurd hlt'' hpc
        · exact hunique b'' ⟨hmem'', hle'', hlt''⟩

/-- The block of a byte is the last one that starts at or before it, if that reaches so far. -/
theorem find?_eq (h : Tiles start bs stop) (hstart : start ≤ pc) :
    bs.find? (fun b => b.start ≤ pc && pc < b.stop) =
      (bs.takeWhile (·.start ≤ pc)).getLast?.filter (pc < ·.stop) := by
  induction bs generalizing start with
  | nil => rfl
  | cons b bs ih =>
      obtain ⟨rfl, hlt, htail⟩ := h
      rw [List.takeWhile_cons_of_pos (by simpa using hstart), List.find?_cons]
      by_cases hpc : pc < b.stop
      · -- the blocks after `b` start past the byte
        have hnone : bs.takeWhile (·.start ≤ pc) = [] := by
          cases bs with
          | nil => rfl
          | cons b' bs =>
              obtain ⟨hb', -, -⟩ := htail
              exact List.takeWhile_cons_of_neg (by simp; omega)
        simp [hnone, hstart, hpc, Option.filter_some]
      · have hrest := ih htail (Nat.not_lt.1 hpc)
        simp only [hstart, hpc, decide_true, decide_false, Bool.and_false, hrest]
        cases bs with
        | nil => simp [hpc, Option.filter_some]
        | cons b' bs =>
            obtain ⟨hb', -, -⟩ := htail
            rw [List.takeWhile_cons_of_pos (by simp; omega), List.getLast?_cons_cons]

end Tiles

/-! ## Reading a code -/

/-- **What an instruction that stands for a byte is read from**: its opcode is the byte at its place,
    it does what the fork makes of that byte, and one with an immediate pushes the number in the
    bytes after it. -/
structure Instruction.Reads (is : InstructionSet) (code : ByteArray) (ins : Instruction) : Prop where
  opcode : code[ins.pc]? = some ins.opcode
  op : ins.op = is.op? ins.opcode
  push : 0 < immediateSize ins.opcode → ∃ w, ins.arg = .push w ∧
    w.toNat = bigEndian (bytesFrom code (ins.pc + 1) (immediateSize ins.opcode))

/-- **The instructions read from the byte at `pc` on**: one there, and those from the byte past its
    immediate on. -/
inductive DecodesFrom (is : InstructionSet) (code : ByteArray) : Nat → List Instruction → Prop where
  | stop {pc : Nat} (hpc : code.size ≤ pc) : DecodesFrom is code pc []
  | next {pc : Nat} {ins : Instruction} {rest : List Instruction} (hpc : ins.pc = pc)
      (hreads : ins.Reads is code)
      (hrest : DecodesFrom is code (pc + 1 + immediateSize ins.opcode) rest) :
      DecodesFrom is code pc (ins :: rest)

/-- The bytes of an instruction: its opcode and its immediate. -/
def Instruction.bytes (ins : Instruction) : List UInt8 :=
  ins.opcode :: (Bytes.ofNat (immediateSize ins.opcode) ins.pushed.toNat).data.toList

/-- Where the instructions end. -/
def endOf (list : List Instruction) : Nat :=
  (list.getLast?.map fun ins => ins.pc + 1 + immediateSize ins.opcode).getD 0

theorem bytesFrom_one {pc : Nat} {b : UInt8} (h : code[pc]? = some b) :
    bytesFrom code pc 1 = [b] := by
  simp [bytesFrom, h]

/-- **Writing an instruction gives the bytes that it was read from**, continued with zeros where the
    code cuts its immediate short. -/
theorem Instruction.Reads.bytes_eq {ins : Instruction} (h : ins.Reads is code) :
    ins.bytes = bytesFrom code ins.pc (1 + immediateSize ins.opcode) := by
  rw [bytesFrom_add, bytesFrom_one h.opcode]
  unfold Instruction.bytes
  by_cases hpos : 0 < immediateSize ins.opcode
  · obtain ⟨w, harg, hw⟩ := h.push hpos
    have hpushed : ins.pushed = w := by
      unfold Instruction.pushed
      rw [harg]
    have hbytes := Bytes.toList_ofNat_bigEndian
      (bytesFrom code (ins.pc + 1) (immediateSize ins.opcode))
    rw [length_bytesFrom] at hbytes
    rw [hpushed, hw, hbytes]
    rfl
  · have hzero : immediateSize ins.opcode = 0 := Nat.eq_zero_of_not_pos hpos
    rw [hzero]
    rfl

namespace DecodesFrom

variable {pc : Nat} {list : List Instruction}

theorem endOf_cons {ins : Instruction} {rest : List Instruction} :
    endOf (ins :: rest) =
      if rest = [] then ins.pc + 1 + immediateSize ins.opcode else endOf rest := by
  cases rest with
  | nil => rfl
  | cons ins' rest => simp [endOf, List.getLast?_cons_cons]

theorem le_endOf (h : DecodesFrom is code pc list) (hne : list ≠ []) :
    pc < endOf list ∧ code.size ≤ endOf list := by
  induction h with
  | stop hpc => exact absurd rfl hne
  | @next pc ins rest hpc hreads hrest ih =>
      subst hpc
      rw [endOf_cons]
      split
      · rename_i hnil
        subst hnil
        cases hrest with
        | stop hpc => exact ⟨by omega, hpc⟩
      · rename_i hcons
        obtain ⟨hlt, hsize⟩ := ih hcons
        exact ⟨by omega, hsize⟩

/-- Writing the instructions gives the bytes from the first to the last of them. -/
theorem flatMap_bytes (h : DecodesFrom is code pc list) (hne : list ≠ []) :
    list.flatMap Instruction.bytes = bytesFrom code pc (endOf list - pc) := by
  induction h with
  | stop hpc => exact absurd rfl hne
  | @next pc ins rest hpc hreads hrest ih =>
      subst hpc
      rw [List.flatMap_cons, hreads.bytes_eq, endOf_cons]
      split
      · rename_i hnil
        subst hnil
        rw [List.flatMap_nil, List.append_nil]
        congr 1
        omega
      · rename_i hcons
        have hlt := (hrest.le_endOf hcons).1
        rw [ih hcons, show ins.pc + 1 + immediateSize ins.opcode =
          ins.pc + (1 + immediateSize ins.opcode) by omega, ← bytesFrom_add]
        congr 1
        omega

/-- **Writing the instructions of a code gives the code**, followed by the zeros that continue the
    last immediate. -/
theorem encoded (h : DecodesFrom is code 0 list) :
    list.flatMap Instruction.bytes =
      code.data.toList ++ List.replicate (endOf list - code.size) 0 := by
  by_cases hne : list = []
  · subst hne
    cases h with
    | stop hpc =>
        have hempty : code.data.toList = [] := List.eq_nil_of_length_eq_zero (Nat.le_zero.1 hpc)
        rw [hempty]
        simp [endOf]
  · rw [h.flatMap_bytes hne, Nat.sub_zero, bytesFrom_of_size_le (h.le_endOf hne).2]

/-- The instructions of a code stand one after the other. -/
theorem le_pc (h : DecodesFrom is code pc list) : ∀ ins ∈ list, pc ≤ ins.pc := by
  induction h with
  | stop hpc => simp
  | @next pc ins rest hpc hreads hrest ih =>
      subst hpc
      intro ins' hmem
      obtain rfl | hmem := List.mem_cons.1 hmem
      · exact Nat.le_refl _
      · have hle := ih ins' hmem
        omega

theorem pairwise (h : DecodesFrom is code pc list) : list.Pairwise (·.pc < ·.pc) := by
  induction h with
  | stop hpc => exact .nil
  | @next pc ins rest hpc hreads hrest ih =>
      subst hpc
      refine .cons (fun ins' hmem => ?_) ih
      have hle := hrest.le_pc ins' hmem
      omega

end DecodesFrom

/-! ## The blocks of an analysis -/

/-- The block of a placed segment, given the one that follows. -/
def blockOf (target : Word → Option Nat) (size : Nat) (placed : Nat × List Decoded)
    (following : Option (Nat × List Decoded)) : Block where
  start := (startOf placed.2).getD 0
  stop := stopOf size placed.2
  tally := Tally.ofSegment placed.2
  entry := placed.1
  successors := successorsOf target (following.bind fun p => startOf p.2) placed.2

/-- The blocks of a layout. -/
def blocksFrom (target : Word → Option Nat) (size : Nat) : List (Nat × List Decoded) → List Block
  | [] => []
  | placed :: layout => blockOf target size placed layout.head? :: blocksFrom target size layout

theorem mapIdx_blockOf (target : Word → Option Nat) (size : Nat)
    (layout : List (Nat × List Decoded)) :
    layout.mapIdx (fun i placed => blockOf target size placed layout[i + 1]?) =
      blocksFrom target size layout := by
  induction layout with
  | nil => rfl
  | cons placed layout ih =>
      rw [List.mapIdx_cons, blocksFrom, ← ih, List.head?_eq_getElem?]
      simp only [List.getElem?_cons_succ]

theorem toList_blocks (is : InstructionSet) (code : ByteArray) :
    (analyze is code).blocks.toList =
      blocksFrom (analyze is code).jumpTarget code.size
        (layoutFrom 0 (segments (decodedFrom is code 0))) := by
  rw [← toList_layoutOf, ← mapIdx_blockOf]
  simp only [Array.getElem?_toList]
  exact Array.toList_mapIdx

theorem size_le_of_decodedFrom_eq_nil {pc : Nat} (h : decodedFrom is code pc = []) :
    code.size ≤ pc := by
  by_contra hlt
  rw [decodedFrom_of_lt (Nat.not_le.1 hlt)] at h
  cases h

/-- A block closes where the code goes on after its last instruction, or with the code. -/
theorem stopOf_concat {pc : Nat} {done : List Decoded} {d : Decoded}
    (hd : d ∈ decodedFrom is code pc) : stopOf code.size (done ++ [d]) = min d.next code.size := by
  unfold stopOf
  rw [List.getLast?_concat]
  dsimp only
  split
  · rename_i hends
    have hnext := (lawful_of_mem_decodedFrom hd).next_of_endsBlock hends
    have hlt := (readAt_of_mem_decodedFrom hd).1
    omega
  · rfl

theorem startOf_of_decodedFrom {pc : Nat} {seg rest : List Decoded}
    (h : decodedFrom is code pc = seg ++ rest) (hne : seg ≠ []) : startOf seg = some pc := by
  obtain ⟨d, ds, rfl⟩ := List.exists_cons_of_ne_nil hne
  exact congrArg some (pc_of_decodedFrom_eq_cons h)

/-- Blocks from a byte on lie side by side: each closes where the next one starts. -/
theorem tiles_blocksFrom (target : Word → Option Nat) {pc : Nat} (start : Nat)
    {blocks : List (List Decoded)} (hdecoded : decodedFrom is code pc = blocks.flatten)
    (hne : ∀ seg ∈ blocks, seg ≠ []) :
    Tiles (min pc code.size) (blocksFrom target code.size (layoutFrom start blocks)) code.size := by
  induction blocks generalizing pc start with
  | nil => exact Nat.min_eq_right (size_le_of_decodedFrom_eq_nil hdecoded)
  | cons seg blocks ih =>
      have hseg := hne seg List.mem_cons_self
      rw [List.flatten_cons] at hdecoded
      have hstart := startOf_of_decodedFrom hdecoded hseg
      obtain ⟨done, d, rfl⟩ := (List.eq_nil_or_concat' seg).resolve_left hseg
      have hd : d ∈ decodedFrom is code pc := by simp [hdecoded]
      have hle := le_pc_of_mem_decodedFrom hd
      have hlt := (readAt_of_mem_decodedFrom hd).1
      have hnext := d.pc_lt_next
      rw [List.append_assoc] at hdecoded
      obtain ⟨-, -, hafter⟩ := decodedFrom_eq_cons (decodedFrom_append hdecoded)
      rw [layoutFrom, blocksFrom]
      refine ⟨?_, ?_, ?_⟩
      · show (startOf (done ++ [d])).getD 0 = min pc code.size
        rw [hstart, Option.getD_some]
        omega
      · show (startOf (done ++ [d])).getD 0 < stopOf code.size (done ++ [d])
        rw [hstart, stopOf_concat hd, Option.getD_some]
        omega
      · show Tiles (stopOf code.size (done ++ [d])) _ _
        rw [stopOf_concat hd]
        exact ih _ hafter.symm fun seg hseg => hne seg (List.mem_cons_of_mem _ hseg)

/-- **The blocks of an analysis tile the code.** -/
theorem tiles_blocks (is : InstructionSet) (code : ByteArray) :
    Tiles 0 (analyze is code).blocks.toList code.size := by
  have htiles := tiles_blocksFrom (analyze is code).jumpTarget 0
    (flatten_segments (decodedFrom is code 0)).symm fun _ => ne_nil_of_mem_segments
  rw [toList_blocks]
  rwa [Nat.zero_min] at htiles

/-- **Halving finds the last block that starts at or before a byte.** -/
theorem blockAt_eq_getLast? (is : InstructionSet) (code : ByteArray) (pc : Nat) :
    (analyze is code).blockAt pc =
      ((analyze is code).blocks.toList.takeWhile (·.start ≤ pc)).getLast?.filter (pc < ·.stop) := by
  have hpart : Partitioned (fun b : Block => decide (b.start ≤ pc)) (analyze is code).blocks := by
    refine (tiles_blocks is code).pairwise.imp fun {b b'} hlt hle => ?_
    rw [decide_eq_true_eq] at hle ⊢
    omega
  have hle := partitionPoint_le (fun b : Block => decide (b.start ≤ pc)) (analyze is code).blocks
  unfold blockAt
  rw [← take_partitionPoint hpart]
  generalize partitionPoint _ (analyze is code).blocks = n at hle
  cases n with
  | zero => rfl
  | succ i =>
      dsimp only
      rw [List.getLast?_take, if_neg (Nat.succ_ne_zero i), Nat.add_sub_cancel,
        Array.getElem?_toList, getElem?_pos _ i hle]
      rfl

theorem blockAt_eq_find? (is : InstructionSet) (code : ByteArray) (pc : Nat) :
    (analyze is code).blockAt pc =
      (analyze is code).blocks.toList.find? fun b => b.start ≤ pc && pc < b.stop := by
  rw [blockAt_eq_getLast?, (tiles_blocks is code).find?_eq (Nat.zero_le pc)]

/-! ## The instructions of an analysis -/

/-- Whether an instruction stands for the byte at its place. The entry of a block that starts with
    another instruction does not. -/
def Instruction.standsIn (code : ByteArray) (ins : Instruction) : Bool :=
  code[ins.pc]? == some ins.opcode

theorem Instruction.Reads.standsIn {ins : Instruction} (h : ins.Reads is code) :
    ins.standsIn code = true :=
  beq_iff_eq.2 h.opcode

/-- The instructions of the stream that stand for a byte. -/
def Analysis.real (a : Analysis) : List Instruction :=
  a.instructions.toList.filter (·.standsIn a.code)

theorem InstructionSet.op_entry (is : InstructionSet) (b : UInt8) : (is.entry b).op = is.op? b := by
  unfold InstructionSet.entry
  cases is.op? b <;> rfl

theorem immediateSize_le (b : UInt8) : immediateSize b ≤ 32 := by
  unfold immediateSize
  split
  · rename_i op _
    cases op with
    | push n => exact Nat.le_of_lt_succ n.isLt
    | _ => exact Nat.zero_le 32
  · exact Nat.zero_le 32

/-- An immediate is the number in its bytes. -/
theorem toNat_toWord_paddedSlice {n : Nat} (hn : n ≤ 32) (start : Nat) :
    (Bytes.toWord (Bytes.paddedSlice code start n)).toNat = bigEndian (bytesFrom code start n) := by
  have hlt := bigEndian_lt (bytesFrom code start n)
  rw [length_bytesFrom] at hlt
  have hpow : 256 ^ n ≤ 2 ^ 256 :=
    calc 256 ^ n ≤ 256 ^ 32 := Nat.pow_le_pow_right (by decide) hn
      _ = 2 ^ 256 := by decide
  unfold Bytes.toWord
  rw [BitVec.toNat_ofNat, Bytes.toNat_eq_bigEndian, toList_paddedSlice]
  exact Nat.mod_eq_of_lt (Nat.lt_of_lt_of_le hlt hpow)

/-- The instruction that the stream has for one of the code is read from it. -/
theorem reads_written (target : Word → Option Nat) {pc : Nat} (hlt : pc < code.size)
    (cost : BlockCost) (through : Nat) (pushed : Option Word) {d : Decoded}
    (hd : d = .readAt is code pc code[pc]) :
    ({ pc := d.pc
       opcode := d.entry.opcode
       op := d.entry.op
       arg := argOf target cost through pushed d } : Instruction).Reads is code := by
  have hopcode : d.entry.opcode = code[pc] := by
    rw [hd]
    exact is.opcode_entry _
  have hpc : d.pc = pc := by rw [hd]; rfl
  refine ⟨?_, ?_, ?_⟩
  · show code[d.pc]? = some d.entry.opcode
    rw [hpc, hopcode]
    exact getElem?_pos code pc hlt
  · show d.entry.op = is.op? d.entry.opcode
    rw [hopcode, ← is.op_entry, hd]
    rfl
  · show 0 < immediateSize d.entry.opcode → ∃ w, argOf target cost through pushed d = .push w ∧
      w.toNat = bigEndian (bytesFrom code (d.pc + 1) (immediateSize d.entry.opcode))
    intro hpos
    rw [hopcode] at hpos ⊢
    rw [hpc]
    -- only a push has an immediate, and a push is neither a jump nor does it look at the gas
    obtain ⟨n, hpush⟩ : ∃ n, (is.entry code[pc]).op = some (.push n) :=
      op_of_immediateSize (Nat.pos_iff_ne_zero.1 hpos)
    have hlawful : d.Lawful is := by
      rw [hd]
      exact Decoded.lawful_readAt ..
    have hop : d.entry.op = some (.push n) := by
      rw [hd]
      exact hpush
    have hentry := hlawful.entry_of_op _ hop
    have hdest : d.isJumpDest = false := by
      cases hjump : d.isJumpDest with
      | false => rfl
      | true =>
          have hjumpDest := hlawful.isJumpDest_iff.1 hjump
          rw [hop] at hjumpDest
          cases hjumpDest
    have hobserves : d.entry.observesGas = false := by
      rw [hentry]
      rfl
    have hjump : isJump d = false := by
      unfold isJump
      rw [hop]
      rfl
    have himmediate : d.immediate =
        some (Bytes.toWord (Bytes.paddedSlice code (pc + 1) (immediateSize code[pc]))) := by
      rw [hd]
      exact if_neg (Nat.pos_iff_ne_zero.1 hpos)
    refine ⟨_, ?_, toNat_toWord_paddedSlice (immediateSize_le _) (pc + 1)⟩
    unfold argOf
    rw [hdest, hobserves, hjump, himmediate]
    rfl

/-- The stream of the rest of a block reads as the code does, if the stream after it does. -/
theorem decodesFrom_written (cost : BlockCost) (through : Nat) (pushed : Option Word) {pc : Nat}
    {ds after : List Decoded} {stream : List Instruction}
    (hdecoded : decodedFrom is code pc = ds ++ after)
    (hafter : ∀ pc', decodedFrom is code pc' = after → DecodesFrom is code pc' stream) :
    DecodesFrom is code pc
      ((written target cost through pushed ds).filter (·.standsIn code) ++ stream) := by
  induction ds generalizing pc through pushed with
  | nil => exact hafter pc hdecoded
  | cons d ds ih =>
      rw [List.cons_append] at hdecoded
      obtain ⟨hlt, hd, htail⟩ := decodedFrom_eq_cons hdecoded
      have hreads := reads_written target hlt cost (through + d.entry.baseGas) pushed hd
      rw [written_cons, List.filter_cons_of_pos hreads.standsIn, List.cons_append]
      refine .next (pc_of_decodedFrom_eq_cons hdecoded) hreads ?_
      have hnext : d.next = pc + 1 + immediateSize d.entry.opcode := by
        rw [← pc_of_decodedFrom_eq_cons hdecoded]
        rfl
      rw [← hnext]
      exact ih _ _ htail.symm

/-- An entry that a block has for itself stands for no byte. -/
theorem filter_ownEntry {pc : Nat} {d : Decoded} {ds after : List Decoded}
    (hdecoded : decodedFrom is code pc = d :: ds ++ after) :
    (ownEntry (d :: ds)).filter (·.standsIn code) = [] := by
  obtain ⟨hlt, hd, -⟩ := decodedFrom_eq_cons hdecoded
  unfold ownEntry
  dsimp only
  split
  · rfl
  · rename_i hdest
    apply List.filter_cons_of_neg
    intro hstands
    have hbyte : code[d.pc]? = some jumpDestByte := beq_iff_eq.1 hstands
    have hopcode : d.entry.opcode = code[pc] := by
      rw [hd]
      exact is.opcode_entry _
    rw [pc_of_decodedFrom_eq_cons hdecoded, getElem?_pos code pc hlt, ← hopcode] at hbyte
    exact hdest (beq_iff_eq.2 (Option.some.inj hbyte))

theorem decodesFrom_streamOf {pc : Nat} {blocks : List (List Decoded)}
    (hdecoded : decodedFrom is code pc = blocks.flatten) (hne : ∀ seg ∈ blocks, seg ≠ []) :
    DecodesFrom is code pc ((streamOf target blocks).filter (·.standsIn code)) := by
  induction blocks generalizing pc with
  | nil => exact .stop (size_le_of_decodedFrom_eq_nil hdecoded)
  | cons seg blocks ih =>
      cases seg with
      | nil => exact absurd rfl (hne [] List.mem_cons_self)
      | cons d ds =>
          rw [List.flatten_cons] at hdecoded
          rw [streamOf_cons, streamOfBlock, List.filter_append, List.filter_append,
            filter_ownEntry hdecoded, List.nil_append]
          apply decodesFrom_written _ _ _ hdecoded
          intro pc' hafter
          exact ih hafter fun seg hseg => hne seg (List.mem_cons_of_mem _ hseg)

/-- **Without the entries that stand for no byte, the stream is the code as it is read.** -/
theorem decodesFrom_real (is : InstructionSet) (code : ByteArray) :
    DecodesFrom is code 0 (analyze is code).real := by
  unfold Analysis.real
  rw [toList_instructions]
  exact decodesFrom_streamOf (flatten_segments _).symm fun _ => ne_nil_of_mem_segments

/-! ## The entries of an analysis -/

/-- What a block of a layout has from its segment. -/
theorem of_mem_blocksFrom {size : Nat} {layout : List (Nat × List Decoded)} {b : Block}
    (h : b ∈ blocksFrom target size layout) :
    ∃ seg, (b.entry, seg) ∈ layout ∧ b.start = (startOf seg).getD 0 ∧
      b.tally = Tally.ofSegment seg := by
  induction layout with
  | nil => cases h
  | cons placed layout ih =>
      obtain rfl | h := List.mem_cons.1 h
      · exact ⟨placed.2, List.mem_cons_self, rfl, rfl⟩
      · obtain ⟨seg, hmem, hstart, htally⟩ := ih h
        exact ⟨seg, List.mem_cons_of_mem _ hmem, hstart, htally⟩

theorem exists_mem_blocksFrom (target : Word → Option Nat) (size : Nat)
    {layout : List (Nat × List Decoded)} {index : Nat} {seg : List Decoded}
    (h : (index, seg) ∈ layout) : ∃ b ∈ blocksFrom target size layout, b.entry = index := by
  induction layout with
  | nil => cases h
  | cons placed layout ih =>
      obtain rfl | h := List.mem_cons.1 h
      · exact ⟨_, List.mem_cons_self, rfl⟩
      · obtain ⟨b, hmem, hentry⟩ := ih h
        exact ⟨b, List.mem_cons_of_mem _ hmem, hentry⟩

theorem mem_layoutFrom_append (target : Word → Option Nat) (start : Nat)
    (before : List (List Decoded)) (seg : List Decoded) (after : List (List Decoded)) :
    (start + (streamOf target before).length, seg) ∈ layoutFrom start (before ++ seg :: after) := by
  induction before generalizing start with
  | nil => exact List.mem_cons_self
  | cons first before ih =>
      rw [streamOf_cons, List.length_append, length_streamOfBlock, ← Nat.add_assoc]
      exact List.mem_cons_of_mem _ (ih _)

/-- The stream from the entry of a block on. -/
theorem getElem?_instructions {before after : List (List Decoded)} {seg : List Decoded}
    (h : segments (decodedFrom is code 0) = before ++ seg :: after) (k : Nat) :
    (analyze is code).instructions[(streamOf (analyze is code).jumpTarget before).length + k]? =
      (streamOfBlock (analyze is code).jumpTarget seg ++
        streamOf (analyze is code).jumpTarget after)[k]? := by
  rw [← Array.getElem?_toList, toList_instructions, h]
  unfold streamOf
  rw [List.flatMap_append, List.flatMap_cons, List.getElem?_append_right (Nat.le_add_right ..),
    Nat.add_sub_cancel_left]

/-- The first instruction of a block is read where it stands. -/
theorem readAt_of_segments {before after : List (List Decoded)} {d : Decoded} {ds : List Decoded}
    (h : segments (decodedFrom is code 0) = before ++ (d :: ds) :: after) :
    ∃ hlt : d.pc < code.size, d = .readAt is code d.pc code[d.pc] := by
  have hflat := flatten_segments (decodedFrom is code 0)
  rw [h, List.flatten_append, List.flatten_cons, List.cons_append] at hflat
  obtain ⟨hlt, hd, -⟩ := decodedFrom_eq_cons (decodedFrom_append hflat.symm)
  exact ⟨hlt, hd⟩

/-- **The entry of a block**: an instruction at its first byte that carries its cost. It stands for
    that byte if the byte is a jump destination; else the instruction after it does. -/
structure Block.Entered (a : Analysis) (b : Block) (ins : Instruction) : Prop where
  place : a.instructions[b.entry]? = some ins
  pc : ins.pc = b.start
  arg : ins.arg = .block b.cost
  standsIn_iff : ins.standsIn a.code = true ↔ a.code[b.start]? = some jumpDestByte
  after : ins.standsIn a.code = false →
    ∃ ins', a.instructions[b.entry + 1]? = some ins' ∧ ins'.pc = b.start ∧
      ins'.standsIn a.code = true

/-- **Every block is entered at its first byte.** -/
theorem entered_of_mem_blocks {b : Block} (h : b ∈ (analyze is code).blocks.toList) :
    ∃ ins, b.Entered (analyze is code) ins := by
  rw [toList_blocks] at h
  obtain ⟨seg, hmem, hstart, htally⟩ := of_mem_blocksFrom h
  obtain ⟨before, after, hsegments, hentry⟩ :=
    of_mem_layoutFrom (analyze is code).jumpTarget hmem
  rw [Nat.zero_add] at hentry
  cases seg with
  | nil =>
      have hempty : [] ∈ segments (decodedFrom is code 0) := by simp [hsegments]
      exact absurd rfl (ne_nil_of_mem_segments hempty)
  | cons d ds =>
      have hstart : b.start = d.pc := hstart
      have hcost : b.cost = (Tally.ofSegment (d :: ds)).cost := congrArg Tally.cost htally
      obtain ⟨hlt, hd⟩ := readAt_of_segments hsegments
      have hbyte : code[d.pc]? = some d.entry.opcode :=
        (reads_written (analyze is code).jumpTarget hlt b.cost 0 none hd).opcode
      have hplace := getElem?_instructions hsegments
      rw [← hentry] at hplace
      -- whether an instruction with the byte of a jump destination stands for the first byte
      have hstands (arg : Arg) (op : Option Op) :
          (⟨d.pc, jumpDestByte, op, arg⟩ : Instruction).standsIn code = true ↔
            code[b.start]? = some jumpDestByte := by
        rw [hstart]
        exact beq_iff_eq
      cases hdest : d.isJumpDest with
      | true =>
          have hopcode : d.entry.opcode = jumpDestByte := beq_iff_eq.1 hdest
          have hhead := hplace 0
          rw [streamOfBlock_of_dest hdest, written_cons] at hhead
          refine ⟨_, hhead, hstart.symm, ?_, ?_, ?_⟩
          · unfold argOf
            rw [if_pos hdest, hcost]
          · rw [hopcode]
            exact hstands _ _
          · intro hnot
            have hnot : (code[d.pc]? == some d.entry.opcode) = false := hnot
            rw [hbyte, beq_self_eq_true] at hnot
            cases hnot
      | false =>
          have hhead := hplace 0
          have hnext := hplace 1
          rw [streamOfBlock_of_not_dest hdest, List.cons_append] at hhead hnext
          refine ⟨_, hhead, hstart.symm, congrArg Arg.block hcost.symm, hstands _ _, fun _ => ?_⟩
          rw [List.getElem?_cons_succ, written_cons] at hnext
          refine ⟨_, hnext, hstart.symm, ?_⟩
          exact (reads_written (analyze is code).jumpTarget hlt _ _ none hd).standsIn

/-- Past its jump destination nothing in a block carries a cost. -/
theorem isJumpDest_of_arg {cost : BlockCost} {through : Nat} {pushed : Option Word}
    {ds : List Decoded} {k : Nat} {ins : Instruction} {cost' : BlockCost}
    (h : (written target cost through pushed ds)[k]? = some ins) (harg : ins.arg = .block cost') :
    ∃ d, ds[k]? = some d ∧ d.isJumpDest = true := by
  induction ds generalizing through pushed k with
  | nil => cases h
  | cons d ds ih =>
      rw [written_cons] at h
      cases k with
      | succ k => exact ih h
      | zero =>
          refine ⟨d, rfl, ?_⟩
          cases Option.some.inj h
          have harg : argOf target cost (through + d.entry.baseGas) pushed d = .block cost' := harg
          by_contra hdest
          unfold argOf at harg
          rw [if_neg hdest] at harg
          split at harg
          · cases harg
          · repeat' split at harg
            all_goals cases harg

/-- In the stream of a block only the first instruction carries a cost. -/
theorem eq_zero_of_arg {seg : List Decoded} (hchain : seg.IsChain fun a b => sameBlock a b = true)
    {k : Nat} {ins : Instruction} {cost : BlockCost}
    (h : (streamOfBlock target seg)[k]? = some ins) (harg : ins.arg = .block cost) : k = 0 := by
  cases seg with
  | nil => cases h
  | cons d ds =>
      have hinner := not_isJumpDest_of_chain hchain
      cases hdest : d.isJumpDest with
      | true =>
          rw [streamOfBlock_of_dest hdest] at h
          obtain ⟨d', hget, hdest'⟩ := isJumpDest_of_arg h harg
          cases k with
          | zero => rfl
          | succ k =>
              have hmem : d' ∈ ds := List.mem_of_getElem? hget
              rw [hinner d' hmem] at hdest'
              cases hdest'
      | false =>
          rw [streamOfBlock_of_not_dest hdest] at h
          cases k with
          | zero => rfl
          | succ k =>
              obtain ⟨d', hget, hdest'⟩ := isJumpDest_of_arg h harg
              have hmem : d' ∈ d :: ds := List.mem_of_getElem? hget
              obtain rfl | hmem := List.mem_cons.1 hmem
              · rw [hdest] at hdest'
                cases hdest'
              · rw [hinner d' hmem] at hdest'
                cases hdest'

/-- A place in the stream of some blocks is a place in the stream of one of them. -/
theorem of_getElem?_streamOf {blocks : List (List Decoded)} {i : Nat} {ins : Instruction}
    (h : (streamOf target blocks)[i]? = some ins) :
    ∃ before seg after k, blocks = before ++ seg :: after ∧
      i = (streamOf target before).length + k ∧ (streamOfBlock target seg)[k]? = some ins := by
  induction blocks generalizing i with
  | nil => cases h
  | cons seg blocks ih =>
      rw [streamOf_cons] at h
      by_cases hi : i < (streamOfBlock target seg).length
      · rw [List.getElem?_append_left hi] at h
        exact ⟨[], seg, blocks, i, rfl, (Nat.zero_add i).symm, h⟩
      · rw [List.getElem?_append_right (Nat.not_lt.1 hi)] at h
        obtain ⟨before, seg', after, k, rfl, hk, hget⟩ := ih h
        refine ⟨seg :: before, seg', after, k, rfl, ?_, hget⟩
        rw [streamOf_cons, List.length_append]
        omega

/-- **Only entries carry a cost.** -/
theorem exists_block_of_arg {i : Nat} {ins : Instruction} {cost : BlockCost}
    (h : (analyze is code).instructions[i]? = some ins) (harg : ins.arg = .block cost) :
    ∃ b ∈ (analyze is code).blocks.toList, b.entry = i := by
  rw [← Array.getElem?_toList, toList_instructions] at h
  obtain ⟨before, seg, after, k, hsegments, hi, hget⟩ := of_getElem?_streamOf h
  have hmem : seg ∈ segments (decodedFrom is code 0) := by simp [hsegments]
  have hk : k = 0 := eq_zero_of_arg (isChain_of_mem_segments hmem) hget harg
  subst hk
  have hplaced := mem_layoutFrom_append (analyze is code).jumpTarget 0 before seg after
  rw [← hsegments, Nat.zero_add] at hplaced
  rw [toList_blocks, hi]
  exact exists_mem_blocksFrom _ _ hplaced

/-! ## The analysis is the code -/

/-- **What makes an analysis faithful to a code.** -/
structure Analysis.Faithful (is : InstructionSet) (code : ByteArray) (a : Analysis) : Prop where
  /-- The blocks lie side by side from the first byte of the code to its end. -/
  tiles : Tiles 0 a.blocks.toList code.size
  /-- The block that is found for a byte is the only one that holds it. -/
  blockAt_of_lt : ∀ pc < code.size, ∃ b, a.blockAt pc = some b ∧
    ∀ b', b' ∈ a.blocks.toList ∧ b'.start ≤ pc ∧ pc < b'.stop ↔ b' = b
  /-- Past the code there is no block. -/
  blockAt_of_le : ∀ pc, code.size ≤ pc → a.blockAt pc = none
  /-- It is found as the last block that starts at or before the byte, if that reaches so far. -/
  blockAt_eq : ∀ pc, a.blockAt pc =
    (a.blocks.toList.takeWhile (·.start ≤ pc)).getLast?.filter (pc < ·.stop)
  /-- Without the entries that stand for no byte, the stream is the code as it is read. -/
  decodes : DecodesFrom is code 0 a.real
  /-- Instructions stand one after the other. -/
  increasing : a.real.Pairwise (·.pc < ·.pc)
  /-- Writing them out gives the code, and the zeros that continue a last immediate. -/
  encoded : a.real.flatMap Instruction.bytes =
    code.data.toList ++ List.replicate (endOf a.real - code.size) 0
  /-- Every block is entered at its first byte. -/
  entered : ∀ b ∈ a.blocks.toList, ∃ ins, b.Entered a ins
  /-- Nothing but the entry of a block carries a cost. -/
  only : ∀ i ins cost, a.instructions[i]? = some ins → ins.arg = .block cost →
    ∃ b ∈ a.blocks.toList, b.entry = i

/-- **The analysis is a faithful decoding** (`Analysis.Faithful`). On every fork and for every code, the
    blocks of `analyze` tile the code, so every byte is in one block, which is the one found for it;
    the stream without the entries that stand for no byte is the code read from its first byte on, so
    that writing it out gives the code and the zeros of a last immediate that the code cuts short; and
    every block has one entry, at its first byte and with its cost, which stands for that byte exactly
    if it is a jump destination. -/
theorem analysis_decodes_faithfully (fork : Fork) (code : ByteArray) :
    (analyze (.ofFork fork) code).Faithful (.ofFork fork) code where
  tiles := tiles_blocks _ _
  blockAt_of_lt pc hpc := by
    have htiles := tiles_blocks (.ofFork fork) code
    obtain ⟨b, hb, hunique⟩ := htiles.existsUnique (Nat.zero_le pc) hpc
    have hfound : ∃ b', (analyze (.ofFork fork) code).blockAt pc = some b' := by
      rw [blockAt_eq_find?, ← Option.isSome_iff_exists, List.find?_isSome]
      exact ⟨b, hb.1, by simpa using hb.2⟩
    obtain ⟨b', hb'⟩ := hfound
    have hheld : b' ∈ (analyze (.ofFork fork) code).blocks.toList ∧ b'.start ≤ pc ∧ pc < b'.stop := by
      rw [blockAt_eq_find?] at hb'
      refine ⟨List.mem_of_find?_eq_some hb', ?_⟩
      simpa using List.find?_some hb'
    refine ⟨b', hb', fun b'' => ⟨fun hheld'' => ?_, fun heq => heq ▸ hheld⟩⟩
    rw [hunique b'' hheld'', hunique b' hheld]
  blockAt_of_le pc hpc := by
    have htiles := tiles_blocks (.ofFork fork) code
    rw [blockAt_eq_find?, List.find?_eq_none]
    intro b hb hheld
    have hwithin := htiles.within hb
    simp only [Bool.and_eq_true, decide_eq_true_eq] at hheld
    omega
  blockAt_eq := blockAt_eq_getLast? _ _
  decodes := decodesFrom_real _ _
  increasing := (decodesFrom_real _ _).pairwise
  encoded := (decodesFrom_real _ _).encoded
  entered _ hb := entered_of_mem_blocks hb
  only _ _ _ hins harg := exists_block_of_arg hins harg

/-- A code that starts with a plain instruction, goes on with two jump destinations and is cut short
    in a push. -/
example : ((analyze (.ofFork .cancun) ⟨#[0x5f, 0x5b, 0x5b, 0x61, 0x07]⟩).blocks.toList.map
    fun b => (b.start, b.stop)) = [(0, 1), (1, 2), (2, 5)] := by decide +kernel

end MeteredEvm
