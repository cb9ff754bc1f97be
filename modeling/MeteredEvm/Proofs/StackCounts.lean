import Mathlib.Data.List.SplitBy
import MeteredEvm.Code.Analysis
import MeteredEvm.Proofs.Plain

/-!
# `MeteredEvm.Proofs.StackCounts` — when 32 bits are enough

A `Tally` counts the stack in signed 32-bit numbers, and `analyze?` fails if one of them would wrap
around. It finds that out in one pass over the code, `countsFitFrom`, which starts afresh wherever a
block does; so what it checks is that each block by itself is counted without wrapping around
(`countsFitFrom_iff`). An instruction takes at most six words more than it gives back, so a code of
less than `countableSize` bytes always passes (`countsFitFrom_of_size_lt`).

## Contents
* `FitsRun` — the pass over the code as a predicate on its instructions.
* `fitsRun_segment`, `fitsRun_flatten` — one block, and all of them.
* `countsFitFrom_iff`, `countsFitFrom_of_size_lt`.
-/

namespace MeteredEvm

variable {is : InstructionSet} {code : ByteArray} {d : Decoded} {ds rest : List Decoded} {net : Int32}

/-! ## The pass over the code -/

namespace InstructionSet

theorem getElem_entries (is : InstructionSet) (b : UInt8) (h : b.toNat < 256) :
    is.entries[b.toNat] = is.entry b := by
  unfold entries
  rw [Vector.getElem_ofFn]
  exact congrArg is.entry (UInt8.ofNat_toNat)

/-- What an entry says about the bytes after the opcode holds in every fork. -/
theorem immediate_entry (is : InstructionSet) (b : UInt8) :
    (is.entry b).immediate = immediateSize b := by
  obtain ⟨op, hbyte, -, hentry⟩ | ⟨hnone, hentry⟩ := is.entry_cases b
  · rw [hentry, immediateSize_of_ofByte? hbyte]
    rfl
  · rw [hentry]
    refine (Nat.eq_zero_of_not_pos fun hpos => ?_).symm
    obtain ⟨n, hop⟩ : ∃ n, (is.entry b).op = some (.push n) := op_of_immediateSize (Nat.ne_of_gt hpos)
    rw [hentry] at hop
    cases hop

end InstructionSet

/-- The change of the height before an instruction: nothing at the start of a block. -/
def netBefore (net : Int32) (d : Decoded) : Int32 := if d.isJumpDest then 0 else net

/-- The change of the height after an instruction: nothing where a block ends. -/
def netAfter (net : Int32) (d : Decoded) : Int32 :=
  if d.entry.endsBlock then 0 else net + Tally.change d.entry

/-- **No count wraps around** on the way through the instructions, with the count of the block that
    they begin in at `net`. -/
def FitsRun : (net : Int32) → List Decoded → Prop
  | _, [] => True
  | net, d :: ds =>
    Tally.fits (netBefore net d) d.entry = true ∧ FitsRun (netAfter (netBefore net d) d) ds

theorem fitsRun_cons :
    FitsRun net (d :: ds) ↔
      Tally.fits (netBefore net d) d.entry = true ∧ FitsRun (netAfter (netBefore net d) d) ds :=
  Iff.rfl

/-- The pass over the bytes is one over the instructions. -/
theorem countsFitFrom_iff_fitsRun (is : InstructionSet) (code : ByteArray) (pc : Nat) (net : Int32) :
    countsFitFrom is.entries code pc net = true ↔ FitsRun net (decodedFrom is code pc) := by
  induction pc using decodedFrom_induction is code generalizing net with
  | stop pc hle =>
      rw [countsFitFrom.eq_def, dif_neg (Nat.not_lt.2 hle), decodedFrom_of_le hle]
      exact ⟨fun _ => trivial, fun _ => rfl⟩
  | next pc hlt ih =>
      have hentry := is.getElem_entries code[pc] code[pc].toNat_lt
      have hopcode : (Decoded.readAt is code pc code[pc]).entry.opcode = code[pc] :=
        is.opcode_entry _
      have hnext : pc + 1 + (is.entry code[pc]).immediate =
          (Decoded.readAt is code pc code[pc]).next := by
        rw [is.immediate_entry, Decoded.next, hopcode]
        rfl
      have hbefore : netBefore net (.readAt is code pc code[pc]) =
          if code[pc] == jumpDestByte then 0 else net := by
        unfold netBefore Decoded.isJumpDest
        rw [hopcode]
      rw [countsFitFrom.eq_def, dif_pos hlt, decodedFrom_of_lt hlt, fitsRun_cons, hbefore, ← ih]
      dsimp only
      rw [hentry, hnext, Bool.and_eq_true]
      rfl

/-! ## One block after the other -/

/-- The count after instructions. -/
def netThrough (net : Int32) (ds : List Decoded) : Int32 := ds.foldl netAfter net

/-- Within a block nothing starts afresh. -/
theorem fitsRun_segment (hchain : (d :: ds).IsChain fun a b => sameBlock a b = true) :
    FitsRun net (d :: ds ++ rest) ↔
      Tally.FitsAlong (netBefore net d) (d :: ds) ∧
        FitsRun (netThrough (netBefore net d) (d :: ds)) rest := by
  induction ds generalizing d net with
  | nil =>
      show _ ∧ _ ↔ (_ ∧ True) ∧ _
      rw [and_true]
      rfl
  | cons e ds ih =>
      obtain ⟨hsame, hlater⟩ := List.isChain_cons_cons.1 hchain
      unfold sameBlock at hsame
      simp only [Bool.and_eq_true, Bool.not_eq_true'] at hsame
      have hafter (n : Int32) : netAfter n d = n + Tally.change d.entry := by
        rw [netAfter, hsame.1]
        rfl
      have hbefore (n : Int32) : netBefore n e = n := by
        rw [netBefore, hsame.2]
        rfl
      have hthrough (n : Int32) :
          netThrough n (d :: e :: ds) = netThrough (n + Tally.change d.entry) (e :: ds) := by
        rw [netThrough, List.foldl_cons, hafter]
        rfl
      rw [List.cons_append, fitsRun_cons, ih hlater, hafter, hbefore, hthrough, ← and_assoc]
      rfl

/-- A block that is ended by its last instruction leaves no count behind. -/
theorem netThrough_of_endsBlock (hne : ds ≠ []) (hends : (ds.getLast hne).entry.endsBlock = true) :
    netThrough net ds = 0 := by
  rw [netThrough, ← List.dropLast_concat_getLast hne, List.foldl_append]
  show netAfter _ (ds.getLast hne) = 0
  rw [netAfter, if_pos hends]

/-- **Each block is counted from zero**, whatever the blocks before it have come to: it starts at a jump
    destination, or the one before was ended by its last instruction. -/
theorem fitsRun_flatten {segs : List (List Decoded)} (hne : ∀ seg ∈ segs, seg ≠ [])
    (hchain : ∀ seg ∈ segs, seg.IsChain fun a b => sameBlock a b = true)
    (hcut : segs.IsChain fun a b => ∃ ha hb, sameBlock (a.getLast ha) (b.head hb) = false)
    (hstart : ∀ d ∈ segs.flatten.head?, d.isJumpDest = true ∨ net = 0) :
    FitsRun net segs.flatten ↔ ∀ seg ∈ segs, Tally.FitsAlong 0 seg := by
  induction segs generalizing net with
  | nil => simp [FitsRun]
  | cons seg segs ih =>
      rw [List.forall_mem_cons] at hne hchain ⊢
      obtain ⟨d, ds, rfl⟩ := List.exists_cons_of_ne_nil hne.1
      have hzero : netBefore net d = 0 := by
        unfold netBefore
        obtain hdest | rfl := hstart d (by simp)
        · rw [if_pos hdest]
        · exact ite_self 0
      have hcarried : ∀ e ∈ segs.flatten.head?,
          e.isJumpDest = true ∨ netThrough 0 (d :: ds) = 0 := by
        intro e he
        cases segs with
        | nil => cases he
        | cons next later =>
            obtain ⟨⟨hlast, hhead, hsplit⟩, -⟩ := List.isChain_cons_cons.1 hcut
            obtain ⟨e', tail, rfl⟩ := List.exists_cons_of_ne_nil hhead
            cases he
            unfold sameBlock at hsplit
            simp only [List.head_cons, Bool.and_eq_false_iff, Bool.not_eq_false'] at hsplit
            exact hsplit.symm.imp id (netThrough_of_endsBlock hlast)
      rw [List.flatten_cons, fitsRun_segment hchain.1, hzero, ih hne.2 hchain.2 hcut.tail hcarried]

/-- **Exactly the codes pass of which every block is counted without wrapping around.** -/
theorem countsFitFrom_iff (is : InstructionSet) (code : ByteArray) :
    countsFitFrom is.entries code 0 0 = true ↔
      ∀ seg ∈ segments (decodedFrom is code 0), Tally.FitsAlong 0 seg := by
  rw [countsFitFrom_iff_fitsRun]
  conv_lhs => rw [← flatten_segments (decodedFrom is code 0)]
  exact fitsRun_flatten (fun _ => ne_nil_of_mem_segments) (fun _ => isChain_of_mem_segments)
    (List.isChain_getLast_head_splitBy ..) (fun _ _ => .inr rfl)

/-! ## Short codes -/

/-- Codes of less than this many bytes are counted without wrapping around: an instruction that lies
    six words deeper than all before it still finds its seventeen inputs within reach. -/
def countableSize : Nat := 357913940

theorem Op.inputs_le (op : Op) : op.inputs ≤ 17 ∧ op.inputs ≤ op.outputs + 6 := by
  cases op with
  | dup n =>
      have hn := n.isLt
      simp only [Op.inputs, Op.outputs]
      omega
  | swap n =>
      have hn := n.isLt
      simp only [Op.inputs, Op.outputs]
      omega
  | log n =>
      have hn := n.isLt
      simp only [Op.inputs, Op.outputs]
      omega
  | create salted => cases salted <;> decide
  | call kind => cases kind <;> decide
  | _ => exact ⟨Nat.le_of_ble_eq_true rfl, Nat.le_of_ble_eq_true rfl⟩

/-- How far an instruction reaches down the stack, and how far it moves the height. -/
theorem Decoded.Lawful.stack_le (h : d.Lawful is) :
    d.entry.inputs ≤ 17 ∧ d.entry.inputs ≤ d.entry.outputs + 6 ∧
      d.entry.outputs ≤ d.entry.inputs + 1 := by
  cases hentry : d.entry.op with
  | none =>
      rw [h.entry_of_none hentry]
      exact ⟨Nat.zero_le _, Nat.zero_le _, Nat.zero_le _⟩
  | some op =>
      rw [h.entry_of_op op hentry]
      exact ⟨op.inputs_le.1, op.inputs_le.2, Plain.outputs_le op⟩

/-- Up to the byte at `pc` there are at most `pc` instructions, so the height has changed by little. -/
theorem fitsRun_of_size_lt (hsize : code.size < countableSize) (pc : Nat)
    (hlow : -6 * (pc : Int) ≤ net.toInt) (hhigh : net.toInt ≤ pc) :
    FitsRun net (decodedFrom is code pc) := by
  induction pc using decodedFrom_induction is code generalizing net with
  | stop pc hle =>
      rw [decodedFrom_of_le hle]
      trivial
  | next pc hlt ih =>
      rw [decodedFrom_of_lt hlt, fitsRun_cons]
      have hnext := Decoded.lt_next_readAt is code pc code[pc]
      obtain ⟨hin, hdown, hup⟩ := (Decoded.lawful_readAt is code pc code[pc]).stack_le
      generalize Decoded.readAt is code pc code[pc] = d at hnext hin hdown hup ih ⊢
      have hbefore : -6 * (pc : Int) ≤ (netBefore net d).toInt ∧ (netBefore net d).toInt ≤ pc := by
        unfold netBefore
        split
        · show -6 * (pc : Int) ≤ 0 ∧ (0 : Int) ≤ pc
          omega
        · exact ⟨hlow, hhigh⟩
      generalize netBefore net d = n at hbefore ⊢
      have hfits : Tally.fits n d.entry = true := by
        rw [Tally.fits_iff]
        unfold Entry.stackChange
        unfold countableSize at hsize
        omega
      have hsum : (n + Tally.change d.entry).toInt = n.toInt + d.entry.stackChange :=
        Tally.toInt_add_change hfits
      have hafter : -6 * (d.next : Int) ≤ (netAfter n d).toInt ∧ (netAfter n d).toInt ≤ d.next := by
        unfold netAfter
        split
        · show -6 * (d.next : Int) ≤ 0 ∧ (0 : Int) ≤ d.next
          omega
        · rw [hsum]
          unfold Entry.stackChange
          omega
      exact ⟨hfits, ih hafter.1 hafter.2⟩

/-- **Short codes are counted without wrapping around.** -/
theorem countsFitFrom_of_size_lt (is : InstructionSet) (hsize : code.size < countableSize) :
    countsFitFrom is.entries code 0 0 = true :=
  (countsFitFrom_iff_fitsRun ..).2 (fitsRun_of_size_lt hsize 0 (Int.le_refl 0) (Int.le_refl 0))

end MeteredEvm
