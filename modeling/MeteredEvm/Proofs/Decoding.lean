import MeteredEvm.Code.Decode

/-!
# `MeteredEvm.Proofs.Decoding` — decoded code

The instructions of a code are a list; walking the bytes from a place in the code on gives a suffix of
it (`decodedFrom`). What the instruction set says about the byte of a decoded instruction is
collected in `Decoded.Lawful`.

## Contents
* `Op.opcode_of_ofByte?`, `InstructionSet.opcode_entry` — bytes and entries.
* `Decoded.Lawful` — what holds of every decoded instruction.
* `decodedFrom`, `readAt_of_mem_decodedFrom` — the instructions from a place in the code on.
-/

namespace MeteredEvm

variable {is : InstructionSet} {code : ByteArray}

/-! ## Bytes and entries -/

theorem Op.ofByte?_eq (b : UInt8) :
    Op.ofByte? b = Op.all.find? fun op => op.opcode.toNat == b.toNat := by
  unfold Op.ofByte? Op.table
  rw [Vector.getElem_ofFn]

/-- The instruction of a byte has that byte. -/
theorem Op.opcode_of_ofByte? {b : UInt8} {op : Op} (h : Op.ofByte? b = some op) : op.opcode = b := by
  rw [Op.ofByte?_eq] at h
  have hbyte := List.find?_some h
  exact UInt8.toNat_inj.1 (by simpa using hbyte)

/-- Every fork has jump destinations. -/
theorem Op.ofByte?_jumpDest : Op.ofByte? jumpDestByte = some .jumpDest := by
  rw [Op.ofByte?_eq]
  decide

namespace InstructionSet

/-- The entry of a byte is the entry of an instruction with that byte, or of none. -/
theorem entry_cases (is : InstructionSet) (b : UInt8) :
    (∃ op, Op.ofByte? b = some op ∧ op.availableIn is.schedule.rules = true ∧
        is.entry b = Entry.ofOp is.schedule op) ∨
      (is.op? b = none ∧ is.entry b = Entry.undefined b) := by
  unfold entry
  cases hop : is.op? b with
  | none => exact .inr ⟨rfl, rfl⟩
  | some op =>
      obtain ⟨hbyte, havail⟩ := Option.filter_eq_some_iff.1 hop
      exact .inl ⟨op, hbyte, havail, rfl⟩

@[simp]
theorem opcode_entry (is : InstructionSet) (b : UInt8) : (is.entry b).opcode = b := by
  obtain ⟨op, hbyte, -, hentry⟩ | ⟨-, hentry⟩ := is.entry_cases b
  · rw [hentry]
    exact Op.opcode_of_ofByte? hbyte
  · rw [hentry]
    rfl

/-- The only byte of a jump destination is its own. -/
theorem op_entry_eq_jumpDest {b : UInt8} : (is.entry b).op = some .jumpDest ↔ b = jumpDestByte := by
  constructor
  · intro h
    obtain ⟨op, hbyte, -, hentry⟩ | ⟨-, hentry⟩ := is.entry_cases b
    · rw [hentry] at h
      cases h
      exact (Op.opcode_of_ofByte? hbyte).symm
    · rw [hentry] at h
      cases h
  · rintro rfl
    unfold entry op?
    rw [Op.ofByte?_jumpDest]
    rfl

end InstructionSet

/-! ## Decoded instructions -/

/-- **What holds of every decoded instruction**: its entry is that of an instruction of the set, jump
    destinations are told by their byte, and only a push has an immediate. -/
structure Decoded.Lawful (is : InstructionSet) (d : Decoded) : Prop where
  entry : d.entry = is.entry d.entry.opcode
  entry_of_op : ∀ op, d.entry.op = some op → d.entry = Entry.ofOp is.schedule op
  entry_of_none : d.entry.op = none → d.entry = Entry.undefined d.entry.opcode
  isJumpDest_iff : d.isJumpDest = true ↔ d.entry.op = some .jumpDest
  op_of_immediate : ∀ w, d.immediate = some w → ∃ n, d.entry.op = some (.push n)

theorem immediateSize_of_ofByte? {b : UInt8} {op : Op} (h : Op.ofByte? b = some op) :
    immediateSize b = op.immediate := by
  unfold immediateSize
  rw [h]

/-- Only pushes have immediates, and those that have one are in every fork. -/
theorem op_of_immediateSize {b : UInt8} (h : immediateSize b ≠ 0) :
    ∃ n, (is.entry b).op = some (.push n) := by
  unfold immediateSize at h
  split at h
  · rename_i op hop
    cases op with
    | push n =>
        have hn : n.val ≠ 0 := h
        refine ⟨n, ?_⟩
        unfold InstructionSet.entry InstructionSet.op?
        rw [hop, Option.filter_some, if_pos (by simp [Op.availableIn, hn])]
        rfl
    | _ => exact absurd rfl h
  · exact absurd rfl h

/-- What is read at a byte is lawful. -/
theorem Decoded.lawful_readAt (is : InstructionSet) (code : ByteArray) (pc : Nat) (b : UInt8) :
    (Decoded.readAt is code pc b).Lawful is where
  entry := by
    show is.entry b = is.entry (is.entry b).opcode
    rw [is.opcode_entry]
  entry_of_op op hop := by
    have hop : (is.entry b).op = some op := hop
    show is.entry b = Entry.ofOp is.schedule op
    obtain ⟨op', -, -, hentry⟩ | ⟨-, hentry⟩ := is.entry_cases b
    · rw [hentry] at hop ⊢
      cases hop
      rfl
    · rw [hentry] at hop
      cases hop
  entry_of_none hop := by
    have hop : (is.entry b).op = none := hop
    show is.entry b = Entry.undefined (is.entry b).opcode
    obtain ⟨op', -, -, hentry⟩ | ⟨-, hentry⟩ := is.entry_cases b
    · rw [hentry] at hop
      cases hop
    · rw [is.opcode_entry, hentry]
  isJumpDest_iff := by
    show ((is.entry b).opcode == jumpDestByte) = true ↔ (is.entry b).op = some .jumpDest
    rw [is.opcode_entry, InstructionSet.op_entry_eq_jumpDest, beq_iff_eq]
  op_of_immediate w hw := by
    show ∃ n, (is.entry b).op = some (.push n)
    apply op_of_immediateSize
    intro hzero
    unfold readAt at hw
    dsimp only at hw
    rw [if_pos hzero] at hw
    cases hw

/-- An instruction that ends a block has no data after it. -/
theorem Decoded.Lawful.next_of_endsBlock {d : Decoded} (h : d.Lawful is)
    (hends : d.entry.endsBlock = true) : d.next = d.pc + 1 := by
  have hdata : immediateSize d.entry.opcode = 0 := by
    refine Nat.eq_zero_of_not_pos fun hpos => ?_
    obtain ⟨n, hop⟩ : ∃ n, (is.entry d.entry.opcode).op = some (.push n) :=
      op_of_immediateSize (Nat.ne_of_gt hpos)
    rw [← h.entry] at hop
    rw [h.entry_of_op _ hop] at hends
    cases hends
  rw [next, hdata]

/-! ## Suffixes -/

/-- The instructions from the byte at `pc` on. -/
def decodedFrom (is : InstructionSet) (code : ByteArray) (pc : Nat) : List Decoded :=
  (decodeFrom is code pc #[]).toList

/-- What has been decoded stays in front. -/
theorem toList_decodeFrom (is : InstructionSet) (code : ByteArray) (pc : Nat) (acc : Array Decoded) :
    (decodeFrom is code pc acc).toList = acc.toList ++ decodedFrom is code pc := by
  unfold decodedFrom
  rw [decodeFrom.eq_def is code pc acc, decodeFrom.eq_def is code pc #[]]
  by_cases hlt : pc < code.size
  · simp only [dif_pos hlt]
    rw [toList_decodeFrom is code _ (acc.push _), toList_decodeFrom is code _ (#[].push _)]
    simp
  · simp only [dif_neg hlt]
    simp
termination_by code.size - pc

theorem decodedFrom_of_le {pc : Nat} (h : code.size ≤ pc) : decodedFrom is code pc = [] := by
  unfold decodedFrom
  rw [decodeFrom.eq_def, dif_neg (Nat.not_lt.2 h)]

/-- An instruction, and those from where the next one starts. -/
theorem decodedFrom_of_lt {pc : Nat} (h : pc < code.size) :
    decodedFrom is code pc =
      .readAt is code pc code[pc] :: decodedFrom is code (Decoded.readAt is code pc code[pc]).next := by
  have hnext : (Decoded.readAt is code pc code[pc]).next = pc + 1 + immediateSize code[pc] := by
    unfold Decoded.next Decoded.readAt
    rw [is.opcode_entry]
  rw [hnext]
  unfold decodedFrom
  rw [decodeFrom.eq_def, dif_pos h, toList_decodeFrom]
  rfl

/-- The instruction at a byte that stands for one without an immediate. -/
theorem decodedFrom_cons {pc : Nat} (b : UInt8) (op : Op) (hb : code[pc]? = some b)
    (hbyte : (Op.all.find? fun op => op.opcode.toNat == b.toNat) = some op)
    (havail : op.availableIn is.schedule.rules = true) (himm : op.immediate = 0) :
    decodedFrom is code pc =
      ⟨pc, Entry.ofOp is.schedule op, none⟩ :: decodedFrom is code (pc + 1) := by
  obtain ⟨hlt, rfl⟩ := getElem?_eq_some_iff.1 hb
  have hop : Op.ofByte? code[pc] = some op := by rw [Op.ofByte?_eq, hbyte]
  have hentry : is.entry code[pc] = Entry.ofOp is.schedule op := by
    unfold InstructionSet.entry InstructionSet.op?
    rw [hop, Option.filter_some, if_pos havail]
  have hsize : immediateSize code[pc] = 0 := by rw [immediateSize_of_ofByte? hop, himm]
  rw [decodedFrom_of_lt hlt]
  unfold Decoded.next Decoded.readAt
  rw [is.opcode_entry, hsize, hentry]
  rfl

theorem Decoded.next_ofOp (schedule : Schedule) (pc : Nat) {op : Op}
    (hbyte : (Op.all.find? fun o => o.opcode.toNat == op.opcode.toNat) = some op)
    (himm : op.immediate = 0) : (⟨pc, Entry.ofOp schedule op, none⟩ : Decoded).next = pc + 1 := by
  have hop : Op.ofByte? op.opcode = some op := by rw [Op.ofByte?_eq, hbyte]
  show pc + 1 + immediateSize op.opcode = pc + 1
  rw [immediateSize_of_ofByte? hop, himm]

/-- The head of what is decoded from `pc` on was read at `pc`. -/
theorem decodedFrom_eq_cons {pc : Nat} {d : Decoded} {ds : List Decoded}
    (h : decodedFrom is code pc = d :: ds) :
    ∃ hlt : pc < code.size, d = .readAt is code pc code[pc] ∧ ds = decodedFrom is code d.next := by
  by_cases hlt : pc < code.size
  · rw [decodedFrom_of_lt hlt] at h
    injection h with hd hds
    subst hd
    exact ⟨hlt, rfl, hds.symm⟩
  · rw [decodedFrom_of_le (Nat.not_lt.1 hlt)] at h
    cases h

theorem pc_of_decodedFrom_eq_cons {pc : Nat} {d : Decoded} {ds : List Decoded}
    (h : decodedFrom is code pc = d :: ds) : d.pc = pc := by
  obtain ⟨_, rfl, -⟩ := decodedFrom_eq_cons h
  rfl

theorem Decoded.pc_lt_next (d : Decoded) : d.pc < d.next := by
  unfold Decoded.next
  omega

theorem Decoded.lt_next_readAt (is : InstructionSet) (code : ByteArray) (pc : Nat) (b : UInt8) :
    pc < (Decoded.readAt is code pc b).next :=
  (Decoded.readAt is code pc b).pc_lt_next

/-- What holds of every instruction that is decoded, by induction on what is left of the code. -/
theorem decodedFrom_induction (is : InstructionSet) (code : ByteArray) {P : Nat → Prop}
    (stop : ∀ pc, code.size ≤ pc → P pc)
    (next : ∀ pc (h : pc < code.size), P (Decoded.readAt is code pc code[pc]).next → P pc) (pc : Nat) :
    P pc := by
  by_cases hlt : pc < code.size
  · have hpc := Decoded.lt_next_readAt is code pc code[pc]
    exact next pc hlt (decodedFrom_induction is code stop next _)
  · exact stop pc (Nat.not_lt.1 hlt)
termination_by code.size - pc

theorem lawful_of_mem_decodedFrom {pc : Nat} {d : Decoded} (h : d ∈ decodedFrom is code pc) :
    d.Lawful is := by
  induction pc using decodedFrom_induction is code with
  | stop pc hle =>
      rw [decodedFrom_of_le hle] at h
      cases h
  | next pc hlt ih =>
      rw [decodedFrom_of_lt hlt] at h
      obtain rfl | h := List.mem_cons.1 h
      · exact Decoded.lawful_readAt ..
      · exact ih h

/-- No instruction starts before the place from which on they are decoded. -/
theorem le_pc_of_mem_decodedFrom {pc : Nat} {d : Decoded} (h : d ∈ decodedFrom is code pc) :
    pc ≤ d.pc := by
  induction pc using decodedFrom_induction is code with
  | stop pc hle =>
      rw [decodedFrom_of_le hle] at h
      cases h
  | next pc hlt ih =>
      rw [decodedFrom_of_lt hlt] at h
      obtain rfl | h := List.mem_cons.1 h
      · exact Nat.le_refl pc
      · exact Nat.le_of_lt (Nat.lt_of_lt_of_le (Decoded.lt_next_readAt ..) (ih h))

/-- Instructions start one after the other. -/
theorem pairwise_pc_decodedFrom (is : InstructionSet) (code : ByteArray) (pc : Nat) :
    (decodedFrom is code pc).Pairwise fun d d' => d.pc < d'.pc := by
  induction pc using decodedFrom_induction is code with
  | stop pc hle =>
      rw [decodedFrom_of_le hle]
      exact .nil
  | next pc hlt ih =>
      rw [decodedFrom_of_lt hlt]
      refine .cons (fun d' hd' => ?_) ih
      exact Nat.lt_of_lt_of_le (Decoded.pc_lt_next _) (le_pc_of_mem_decodedFrom hd')

/-- From the place of one of its instructions on, a code decodes to the rest of the list. -/
theorem decodedFrom_append {pc : Nat} {before after : List Decoded} {d : Decoded}
    (h : decodedFrom is code pc = before ++ d :: after) : decodedFrom is code d.pc = d :: after := by
  induction before generalizing pc with
  | nil =>
      rw [List.nil_append] at h
      rw [pc_of_decodedFrom_eq_cons h]
      exact h
  | cons b before ih =>
      rw [List.cons_append] at h
      obtain ⟨_, -, htail⟩ := decodedFrom_eq_cons h
      exact ih htail.symm

/-- An instruction that is decoded is read where it stands. -/
theorem readAt_of_mem_decodedFrom {pc : Nat} {d : Decoded} (h : d ∈ decodedFrom is code pc) :
    ∃ hlt : d.pc < code.size, d = .readAt is code d.pc code[d.pc] := by
  obtain ⟨front, back, hsplit⟩ := List.append_of_mem h
  obtain ⟨hlt, hd, -⟩ := decodedFrom_eq_cons (decodedFrom_append hsplit)
  exact ⟨hlt, hd⟩

end MeteredEvm
