import MeteredEvm.Hex
import MeteredEvm.Proofs.FaithfulDecoding

/-!
# `MeteredEvm.Proofs.HexText` — hexadecimal text is read back

A word is written with as few digits as it needs, an address and a hash with all their digits. The
reader goes through bytes instead: it puts the digits in pairs, after half a byte if their number is
odd, and takes the bytes as a number. Both sides are tied to one thing, the list of the digits.

## Contents
* `numeral`, `Writes` — the number of some digits, and canonical texts.
* `bigEndian_pairs`, `bytes?_of_writes` — from digits to bytes.
* `toWord?_ofWord`, `toAddress?_ofAddress`, `toHash?_ofHash` — the round trips.
-/

namespace MeteredEvm

theorem bigEndian_cons (b : UInt8) (bytes : List UInt8) :
    bigEndian (b :: bytes) = b.toNat * 256 ^ bytes.length + bigEndian bytes := by
  simp [bigEndian, Nat.ofDigits_append]
  grind

namespace Hex

/-! ## Digits -/

/-- The number with the given hexadecimal digits, most significant first. -/
def numeral (ds : List Nat) : Nat := Nat.ofDigits 16 ds.reverse

theorem numeral_append_singleton (ds : List Nat) (d : Nat) :
    numeral (ds ++ [d]) = numeral ds * 16 + d := by
  simp [numeral, Nat.ofDigits_cons]
  omega

theorem numeral_cons (d : Nat) (ds : List Nat) :
    numeral (d :: ds) = d * 16 ^ ds.length + numeral ds := by
  simp [numeral, Nat.ofDigits_append]
  grind

/-- A zero in front is still a digit and does not count. -/
theorem zero_cons {ds : List Nat} (h : ∀ d ∈ ds, d < 16) :
    (∀ d ∈ 0 :: ds, d < 16) ∧ numeral (0 :: ds) = numeral ds :=
  ⟨List.forall_mem_cons.2 ⟨by decide, h⟩, by rw [numeral_cons, Nat.zero_mul, Nat.zero_add]⟩

/-- A text of lower case digits that writes `n`. -/
def Writes (text : List Char) (n : Nat) : Prop :=
  ∃ ds : List Nat, text = ds.map Nat.digitChar ∧ (∀ d ∈ ds, d < 16) ∧ numeral ds = n

theorem writes_nil : Writes [] 0 :=
  ⟨[], rfl, fun _ hd => absurd hd List.not_mem_nil, rfl⟩

theorem Writes.push {text : List Char} {n d : Nat} (h : Writes text n) (hd : d < 16) :
    Writes (text ++ [Nat.digitChar d]) (n * 16 + d) := by
  obtain ⟨ds, rfl, hds, rfl⟩ := h
  refine ⟨ds ++ [d], by rw [List.map_append, List.map_singleton], ?_, numeral_append_singleton ds d⟩
  intro e he
  obtain he | he := List.mem_append.1 he
  · exact hds e he
  · rw [List.mem_singleton.1 he]
    exact hd

theorem Writes.zero_cons {text : List Char} {n : Nat} (h : Writes text n) :
    Writes ('0' :: text) n := by
  obtain ⟨ds, rfl, hds, rfl⟩ := h
  exact ⟨0 :: ds, rfl, Hex.zero_cons hds⟩

theorem writes_digits (n : Nat) : Writes (digits n) n := by
  unfold digits
  induction n using Nat.strongRecOn with
  | ind n ih =>
      by_cases hn : n < 16
      · rw [Nat.toDigits_of_lt_base hn]
        have hsingle := writes_nil.push hn
        rwa [List.nil_append, Nat.zero_mul, Nat.zero_add] at hsingle
      · rw [Nat.toDigits_of_base_le (by decide) (by omega)]
        have hpush := (ih (n / 16) (by omega)).push (Nat.mod_lt n (by decide : 16 > 0))
        rwa [Nat.div_add_mod' n 16] at hpush

theorem writes_padded (width n : Nat) : Writes (padded width n) n := by
  unfold padded
  generalize width - (digits n).length = k
  induction k with
  | zero => exact writes_digits n
  | succ k ih => exact ih.zero_cons

theorem length_padded {width n : Nat} (hwidth : 0 < width) (h : n < 16 ^ width) :
    (padded width n).length = width := by
  have hlength : (digits n).length ≤ width := (Nat.length_toDigits_le_iff (by decide) hwidth).2 h
  rw [padded, List.length_append, List.length_replicate]
  omega

/-! ## Bytes -/

theorem digit?_digitChar {d : Nat} (h : d < 16) : digit? (Nat.digitChar d) = some d := by
  have hall : ∀ d < 16, digit? (Nat.digitChar d) = some d := by decide
  exact hall d h

theorem isBlank_digitChar {d : Nat} (h : d < 16) : isBlank (Nat.digitChar d) = false := by
  have hall : ∀ d < 16, isBlank (Nat.digitChar d) = false := by decide
  exact hall d h

theorem nibbles?_map_digitChar {ds : List Nat} (h : ∀ d ∈ ds, d < 16) :
    nibbles? (ds.map Nat.digitChar) = some ds := by
  induction ds with
  | nil => rfl
  | cons d ds ih =>
      have hd := h d List.mem_cons_self
      rw [List.map_cons, nibbles?, if_neg (by rw [isBlank_digitChar hd]; decide),
        digit?_digitChar hd, ih fun e he => h e (List.mem_cons_of_mem _ he)]
      rfl

/-- Digits in pairs are the bytes of the same number. -/
theorem bigEndian_pairs {ds : List Nat} (heven : ds.length % 2 = 0) (h : ∀ d ∈ ds, d < 16) :
    ds.length = 2 * (pairs ds).length ∧ bigEndian (pairs ds) = numeral ds := by
  fun_induction pairs ds with
  | case1 high low rest ih =>
      simp only [List.length_cons] at heven ⊢
      obtain ⟨hlength, hrest⟩ := ih (by omega) fun d hd =>
        h d (List.mem_cons_of_mem _ (List.mem_cons_of_mem _ hd))
      have hhigh := h high List.mem_cons_self
      have hlow := h low (List.mem_cons_of_mem _ List.mem_cons_self)
      have hbyte : (UInt8.ofNat (16 * high + low)).toNat = 16 * high + low := by
        rw [UInt8.toNat_ofNat', Nat.mod_eq_of_lt (by omega)]
      have hpower : 256 ^ (pairs rest).length = 16 ^ rest.length := by
        rw [hlength, Nat.pow_mul]
      refine ⟨by omega, ?_⟩
      rw [bigEndian_cons, hbyte, hrest, numeral_cons, numeral_cons, List.length_cons, Nat.pow_succ,
        hpower]
      grind
  | case2 ds hshort =>
      cases ds with
      | nil => exact ⟨rfl, rfl⟩
      | cons d ds =>
          cases ds with
          | nil => exact absurd heven Nat.one_ne_zero
          | cons e ds => exact absurd rfl (hshort d e ds)

/-- A text of digits is read as the bytes of its number. -/
theorem bytes?_of_writes {text : List Char} {n : Nat} (h : Writes text n) :
    ∃ bytes, bytes? text = some bytes ∧ bytes.length = (text.length + 1) / 2 ∧
      bigEndian bytes = n := by
  obtain ⟨ds, rfl, hds, rfl⟩ := h
  have hread : bytes? (ds.map Nat.digitChar) =
      some (pairs (if ds.length % 2 = 1 then 0 :: ds else ds)) := by
    rw [bytes?, nibbles?_map_digitChar hds, List.length_map]
    rfl
  rw [hread, List.length_map]
  by_cases hodd : ds.length % 2 = 1
  · have heven : (0 :: ds).length % 2 = 0 := by
      rw [List.length_cons]
      omega
    obtain ⟨hlength, hvalue⟩ := bigEndian_pairs heven (Hex.zero_cons hds).1
    rw [List.length_cons] at hlength
    rw [(Hex.zero_cons hds).2] at hvalue
    rw [if_pos hodd]
    exact ⟨_, rfl, by omega, hvalue⟩
  · obtain ⟨hlength, hvalue⟩ := bigEndian_pairs (by omega) hds
    rw [if_neg hodd]
    exact ⟨_, rfl, by omega, hvalue⟩

/-! ## Words, addresses and hashes -/

theorem toWord?_ofWord (w : Word) : toWord? (ofWord w).toList = some w := by
  obtain ⟨bytes, hbytes, -, hvalue⟩ := bytes?_of_writes (writes_digits w.toNat)
  have hpos : 0 < (digits w.toNat).length := Nat.length_toDigits_pos
  have hbound : w.toNat < 16 ^ 64 := w.isLt
  have hlength : (digits w.toNat).length ≤ 64 :=
    (Nat.length_toDigits_le_iff (by decide) (by decide)).2 hbound
  unfold ofWord toWord?
  rw [String.toList_ofList, unprefixed]
  dsimp only
  rw [hbytes, guard, if_pos ⟨hpos, hlength⟩]
  show some (BitVec.ofNat 256 (Bytes.toNat (Bytes.ofList bytes))) = some w
  rw [Bytes.toNat_eq_bigEndian]
  show some (BitVec.ofNat 256 (bigEndian bytes)) = some w
  rw [hvalue, BitVec.ofNat_toNat, BitVec.setWidth_eq]

theorem fixed?_padded {n : Nat} (width : Nat) (hwidth : 0 < width) (h : n < 256 ^ width) :
    fixed? width ('0' :: 'x' :: padded (2 * width) n) = some n := by
  obtain ⟨bytes, hbytes, hsize, hvalue⟩ := bytes?_of_writes (writes_padded (2 * width) n)
  have hlength : (padded (2 * width) n).length = 2 * width :=
    length_padded (by omega) (by rwa [Nat.pow_mul])
  have hfull : (Bytes.ofList bytes).size = width := by
    show bytes.length = width
    omega
  unfold fixed?
  rw [unprefixed]
  dsimp only
  rw [hbytes, guard, if_pos hlength]
  show some (Bytes.toNat (Bytes.paddedSlice (Bytes.ofList bytes) 0 width)) = some n
  rw [Bytes.toNat_eq_bigEndian, toList_paddedSlice, bytesFrom_of_size_le (Nat.le_of_eq hfull), hfull,
    Nat.sub_self, List.replicate_zero, List.append_nil]
  exact congrArg some hvalue

theorem toAddress?_ofAddress (a : Address) : toAddress? (ofAddress a).toList = some a := by
  unfold ofAddress toAddress?
  rw [String.toList_ofList, fixed?_padded 20 (by decide) a.isLt, Option.map_some,
    BitVec.ofNat_toNat, BitVec.setWidth_eq]

theorem toHash?_ofHash (x : Hash) : toHash? (ofHash x).toList = some x := by
  unfold ofHash toHash?
  rw [String.toList_ofList, fixed?_padded 32 (by decide) x.isLt, Option.map_some,
    BitVec.ofNat_toNat, BitVec.setWidth_eq]

end Hex

end MeteredEvm
