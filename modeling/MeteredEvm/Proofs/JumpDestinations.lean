import Mathlib.Data.Set.Card
import MeteredEvm.Proofs.Segments

/-!
# `MeteredEvm.Proofs.JumpDestinations` — where a jump may go

Whether a byte is a jump destination is a matter of the bytes before it: it must not be the data of a
push. Reading the code from its first byte on tells the bytes where instructions start (`Starts`), and
with that what a jump destination is (`IsJumpDest`), without any analysis. The marks of a code and the
places that its analysis has noted for jumps are these bytes, no more and no fewer.

## Contents
* `dataSize`, `Starts`, `IsJumpDest` — jump destinations, told from the bytes.
* `exists_decoded_iff`, `isSet_scan_iff` — marks.
* `JumpMap.count_scan` — their number.
* `jump_destinations_exact`.
-/

namespace MeteredEvm

open Analysis

variable {is : InstructionSet} {code : ByteArray}

/-! ## Reading bytes -/

/-- Number of bytes of data after an opcode: one to thirty-two after the pushes `0x60` to `0x7f`. -/
def dataSize (b : UInt8) : Nat := if 0x60 ≤ b ∧ b ≤ 0x7f then b.toNat - 0x5f else 0

/-- **Where instructions start** when a code is read from its first byte on: the data of an opcode is
    skipped. -/
inductive Starts (code : ByteArray) : Nat → Prop where
  | first : Starts code 0
  | next {pc : Nat} {b : UInt8} (h : Starts code pc) (hb : code[pc]? = some b) :
      Starts code (pc + 1 + dataSize b)

/-- **A jump destination**: a byte of the code that is `0x5b` and not data. -/
def IsJumpDest (code : ByteArray) (pc : Nat) : Prop :=
  pc < code.size ∧ code[pc]? = some 0x5b ∧ Starts code pc

theorem Op.immediate_eq (op : Op) : op.immediate = dataSize op.opcode := by
  cases op with
  | unary f => cases f <;> rfl
  | binary f => cases f <;> rfl
  | ternary f => cases f <;> rfl
  | reading r => cases r <;> rfl
  | account field => cases field <;> rfl
  | copy source => cases source <;> rfl
  | create salted => cases salted <;> rfl
  | call kind => cases kind <;> rfl
  | push n =>
      revert n
      decide
  | dup n =>
      revert n
      decide
  | swap n =>
      revert n
      decide
  | log n =>
      revert n
      decide
  | _ => rfl

/-- Every byte from `0x60` to `0x7f` is a push. -/
theorem Op.ofByte?_ne_none {b : UInt8} (h : 0x60 ≤ b ∧ b ≤ 0x7f) : Op.ofByte? b ≠ none := by
  have hlow : 0x60 ≤ b.toNat := UInt8.le_iff_toNat_le.1 h.1
  have hhigh : b.toNat ≤ 0x7f := UInt8.le_iff_toNat_le.1 h.2
  have hmem : Op.push ⟨b.toNat - 0x5f, by omega⟩ ∈ Op.all := by simp [Op.all]
  have hbyte : (Op.push ⟨b.toNat - 0x5f, by omega⟩).opcode.toNat = b.toNat := by
    show (0x5f + UInt8.ofNat (b.toNat - 0x5f)).toNat = b.toNat
    rw [UInt8.toNat_add, UInt8.toNat_ofNat']
    show (0x5f + (b.toNat - 0x5f) % 2 ^ 8) % 2 ^ 8 = b.toNat
    omega
  rw [Op.ofByte?_eq]
  intro hnone
  exact List.find?_eq_none.1 hnone _ hmem (beq_iff_eq.2 hbyte)

/-- The bytes that belong to an instruction are told by its opcode. -/
theorem immediateSize_eq (b : UInt8) : immediateSize b = dataSize b := by
  cases hop : Op.ofByte? b with
  | some op => rw [immediateSize_of_ofByte? hop, Op.immediate_eq, Op.opcode_of_ofByte? hop]
  | none =>
      unfold immediateSize dataSize
      rw [hop, if_neg fun h => Op.ofByte?_ne_none h hop]

/-! ## Marks -/

theorem next_readAt (is : InstructionSet) (code : ByteArray) (pc : Nat) (b : UInt8) :
    (Decoded.readAt is code pc b).next = pc + 1 + dataSize b := by
  unfold Decoded.next Decoded.readAt
  rw [is.opcode_entry, immediateSize_eq]

/-- Where an instruction starts, one is decoded from, and the list of instructions ends with those. -/
theorem Starts.suffix {pc : Nat} (h : Starts code pc) :
    decodedFrom is code pc <:+ decodedFrom is code 0 := by
  induction h with
  | first => exact List.suffix_refl _
  | @next pc b _ hb ih =>
      obtain ⟨hlt, rfl⟩ := getElem?_eq_some_iff.1 hb
      rw [decodedFrom_of_lt hlt, next_readAt] at ih
      exact (List.suffix_cons _ _).trans ih

/-- What is decoded from the start of an instruction on starts there, or later. -/
theorem starts_of_mem_decodedFrom {pc : Nat} {d : Decoded} (hpc : Starts code pc)
    (h : d ∈ decodedFrom is code pc) : Starts code d.pc := by
  induction pc using decodedFrom_induction is code with
  | stop pc hle =>
      rw [decodedFrom_of_le hle] at h
      cases h
  | next pc hlt ih =>
      rw [decodedFrom_of_lt hlt] at h
      rcases List.mem_cons.1 h with rfl | h
      · exact hpc
      · rw [next_readAt] at h ih
        exact ih (hpc.next (getElem?_pos code pc hlt)) h

/-- **Jump destinations are decoded as such.** -/
theorem exists_decoded_iff (is : InstructionSet) (code : ByteArray) (pc : Nat) :
    (∃ d ∈ decodedFrom is code 0, d.pc = pc ∧ d.isJumpDest = true) ↔ IsJumpDest code pc := by
  constructor
  · rintro ⟨d, hmem, rfl, hdest⟩
    obtain ⟨hlt, hread⟩ := readAt_of_mem_decodedFrom hmem
    have hbyte : d.entry.opcode = code[d.pc] :=
      (congrArg (·.entry.opcode) hread).trans (is.opcode_entry _)
    refine ⟨hlt, ?_, starts_of_mem_decodedFrom .first hmem⟩
    rw [getElem?_pos code d.pc hlt, ← hbyte]
    exact congrArg some (beq_iff_eq.1 hdest)
  · rintro ⟨hlt, hbyte, hstarts⟩
    have hmem : Decoded.readAt is code pc code[pc] ∈ decodedFrom is code 0 := by
      apply hstarts.suffix.subset
      rw [decodedFrom_of_lt hlt]
      exact List.mem_cons_self
    refine ⟨_, hmem, rfl, beq_iff_eq.2 ?_⟩
    rw [getElem?_pos code pc hlt] at hbyte
    exact (is.opcode_entry _).trans (Option.some.inj hbyte)

/-- **The marks of a code are its jump destinations.** -/
theorem isSet_scan_iff (code : ByteArray) (pc : Nat) :
    (JumpMap.scan code).isSet pc = true ↔ IsJumpDest code pc := by
  rw [JumpMap.isSet_iff (.ofFork .frontier), exists_decoded_iff]

/-! ## Their number -/

/-- **As many bytes are counted as are marked.** The bits of the last word that belong to no byte are
    not set. -/
theorem JumpMap.count_scan (code : ByteArray) :
    (scan code).count = {pc | (scan code).isSet pc = true}.ncard := by
  have hset : {pc | (scan code).isSet pc = true} =
      ↑{pc ∈ Finset.range (64 * ((code.size + 63) / 64)) | (scan code).bit pc = true} := by
    ext pc
    rw [Finset.coe_filter, Set.mem_ofPred_eq, Set.mem_ofPred_eq, Finset.mem_range, isSet_scan,
      iff_and_self]
    intro hbit
    rw [← isSet_scan, isSet_eq, Bool.and_eq_true, decide_eq_true_eq] at hbit
    omega
  rw [count_eq_countP, hset, Set.ncard_coe_finset, List.countP_eq_length_filter]
  exact congrArg List.length (List.filter_congr fun pc _ => Bool.decide_eq_true.symm)

/-! ## Jumps -/

/-- **The jumps of a code and its analysis.** -/
structure Analysis.JumpsExactly (code : ByteArray) (a : Analysis) : Prop where
  /-- The marks are the jump destinations. -/
  isSet_iff : ∀ pc, (JumpMap.scan code).isSet pc = true ↔ IsJumpDest code pc
  /-- They are counted. -/
  count_eq : (JumpMap.scan code).count = {pc | IsJumpDest code pc}.ncard
  /-- A jump has a place to go exactly if its word is a jump destination. A word that does not fit into
      64 bits is none, and is not cut down to one. -/
  isSome_jumpTarget_iff : ∀ w, (a.jumpTarget w).isSome = true ↔
    w.toNat < u64Size ∧ IsJumpDest code w.toNat
  /-- That place is the entry of the block that starts there. -/
  entered : ∀ w index, a.jumpTarget w = some index →
    ∃ b ∈ a.blocks.toList, b.start = w.toNat ∧ b.entry = index ∧
      ∃ ins, a.instructions[index]? = some ins ∧ ins.pc = w.toNat ∧ ins.arg = .block b.cost

theorem jumpsExactly (fork : Fork) (code : ByteArray) :
    (analyze (.ofFork fork) code).JumpsExactly code where
  isSet_iff := isSet_scan_iff code
  count_eq := by
    rw [JumpMap.count_scan]
    simp only [isSet_scan_iff]
  isSome_jumpTarget_iff w := by
    have hne : (analyze (.ofFork fork) code).jumpTarget w ≠ none ↔ _ := jumpTarget_ne_none_iff
    rw [← isSet_scan_iff, ← hne, Option.isSome_iff_ne_none]
  entered w index htarget := by
    obtain ⟨b, hb, hstart, rfl⟩ := exists_block_of_jumpTarget htarget
    obtain ⟨ins, hentered⟩ := entered_of_mem_blocks hb
    exact ⟨b, hb, hstart, rfl, ins, hentered.place, hentered.pc.trans hstart, hentered.arg⟩

/-- **Jump destinations are exactly the real ones** (`Analysis.JumpsExactly`). On every fork and for
    every code, a byte is marked exactly if it is in the code, is `0x5b`, and an instruction starts
    there when the code is read from its first byte on (`IsJumpDest`); the count is the number of
    these bytes; and `jumpTarget` has a place for a word exactly if the word is one of them, which is
    then the entry, with the cost, of the block that starts there. The places of a code that fits into
    a machine's memory are 64-bit quantities, so that for it a word of any size is looked up as it
    is. -/
theorem jump_destinations_exact (fork : Fork) (code : ByteArray) :
    (analyze (.ofFork fork) code).JumpsExactly code ∧
      (code.size ≤ u64Size → ∀ w, ((analyze (.ofFork fork) code).jumpTarget w).isSome = true ↔
        IsJumpDest code w.toNat) := by
  refine ⟨jumpsExactly fork code, fun hsize w => ?_⟩
  rw [(jumpsExactly fork code).isSome_jumpTarget_iff, and_iff_right_iff_imp]
  rintro ⟨hlt, -⟩
  omega

/-- A push whose data is a jump destination, sixty-one stops, and jump destinations in the last bit of
    one word and in the first of the next. -/
def acrossWords : ByteArray := Bytes.ofList ([0x60, 0x5b] ++ List.replicate 61 0x00 ++ [0x5b, 0x5b])

/-- A jump to the word that differs from a destination by `2 ^ 64` goes nowhere. -/
theorem jump_destinations_exact_acrossWords :
    (∃ index, (analyze (.ofFork .cancun) acrossWords).jumpTarget 64#256 = some index) ∧
      (analyze (.ofFork .cancun) acrossWords).jumpTarget (BitVec.ofNat 256 (64 + u64Size)) = none ∧
      (analyze (.ofFork .cancun) acrossWords).jumpTarget 1#256 = none := by
  have hiff := (jump_destinations_exact .cancun acrossWords).2 (by decide)
  have hset (pc : Nat) := (jump_destinations_exact .cancun acrossWords).1.isSet_iff pc
  refine ⟨Option.isSome_iff_exists.1 ((hiff _).2 ((hset _).1 ?_)), ?_, ?_⟩
  · decide +kernel
  · refine Option.not_isSome_iff_eq_none.1 fun hsome => ?_
    have hlt := ((hiff _).1 hsome).1
    revert hlt
    decide
  · refine Option.not_isSome_iff_eq_none.1 fun hsome => ?_
    have hdest := (hset _).2 ((hiff _).1 hsome)
    revert hdest
    decide +kernel

end MeteredEvm
