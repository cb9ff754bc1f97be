import Mathlib.Data.Nat.Digits.Lemmas
import MeteredEvm.Proofs.FaithfulDecoding

/-!
# `MeteredEvm.Proofs.Rlp` — the recursive length prefix

An item is a byte string or a list of items. A single byte below 128 stands for itself. Everything
else follows a header, which tells its kind and its length: in one byte for lengths below 56, and
otherwise in a byte that tells the number of bytes of the length, and those bytes without zeros in
front.

Each item has one encoding. The decoder accepts that one and no other: no length that could be
shorter, and no header before a byte that stands for itself.

## Contents
* `digitBytes` — a number without zeros in front, and how it is read again.
* `Rlp`, `Rlp.header`, `Rlp.encode`, `Rlp.encodeAll`.
* `Rlp.readPayload`, `Rlp.decodeFrom`, `Rlp.decodeAll`, `Rlp.decode`.
* `Rlp.decode_eq_some_iff`.
-/

namespace MeteredEvm

/-! ## Numbers without zeros in front -/

/-- **The bytes of a number, most significant first, without zeros in front.** -/
def digitBytes (n : Nat) : List UInt8 := ((Nat.digits 256 n).map UInt8.ofNat).reverse

theorem toNat_digitBytes (n : Nat) :
    ((digitBytes n).map UInt8.toNat).reverse = Nat.digits 256 n := by
  unfold digitBytes
  rw [List.map_reverse, List.reverse_reverse, List.map_map]
  refine (List.map_congr_left fun d hd => ?_).trans (List.map_id _)
  exact UInt8.toNat_ofNat_of_lt' (Nat.digits_lt_base (by decide) hd)

theorem bigEndian_digitBytes (n : Nat) : bigEndian (digitBytes n) = n := by
  unfold bigEndian
  rw [toNat_digitBytes, Nat.ofDigits_digits]

theorem length_digitBytes (n : Nat) : (digitBytes n).length = (Nat.digits 256 n).length := by
  simp [digitBytes]

theorem length_digitBytes_le_iff {n k : Nat} : (digitBytes n).length ≤ k ↔ n < 256 ^ k := by
  rw [length_digitBytes, Nat.digits_length_le_iff (by decide)]

/-- Bytes without a zero in front are those of their number. -/
theorem digitBytes_bigEndian {bytes : List UInt8} (h : bytes.head? ≠ some 0) :
    digitBytes (bigEndian bytes) = bytes := by
  have hdigits : Nat.digits 256 (bigEndian bytes) = (bytes.map UInt8.toNat).reverse := by
    apply Nat.digits_ofDigits 256 (by decide)
    · intro d hd
      simp only [List.mem_reverse, List.mem_map] at hd
      obtain ⟨b, -, rfl⟩ := hd
      exact b.toNat_lt
    · intro hne hzero
      cases bytes with
      | nil => exact hne rfl
      | cons b bytes =>
          have hb : b.toNat = 0 := by simpa using hzero
          exact h (congrArg some (UInt8.toNat_inj.1 hb))
  unfold digitBytes
  rw [hdigits, List.map_reverse, List.reverse_reverse, List.map_map]
  refine (List.map_congr_left fun b _ => ?_).trans (List.map_id _)
  exact UInt8.ofNat_toNat

theorem head?_digitBytes (n : Nat) : (digitBytes n).head? ≠ some 0 := by
  intro hzero
  cases hbytes : digitBytes n with
  | nil =>
      rw [hbytes] at hzero
      cases hzero
  | cons b bytes =>
      rw [hbytes] at hzero
      have hn : n ≠ 0 := by
        rintro rfl
        cases hbytes
      cases hzero
      have hlast := Nat.getLast_digit_ne_zero 256 hn
      simp [← toNat_digitBytes, hbytes] at hlast

/-! ## Items -/

/-- **An item**: a byte string, or a list of items. -/
inductive Rlp where
  | string (bytes : List UInt8)
  | list (items : List Rlp)

namespace Rlp

/-- What a header says about a length: the length, or the number of bytes that it takes. -/
def lengthTag (len : Nat) : Nat := if len < 56 then len else 55 + (digitBytes len).length

/-- What follows the first byte of a header. -/
def lengthBytes (len : Nat) : List UInt8 := if len < 56 then [] else digitBytes len

/-- The header of `len` bytes. Those of strings start from 0x80, those of lists from 0xc0. -/
def header (base len : Nat) : List UInt8 := UInt8.ofNat (base + lengthTag len) :: lengthBytes len

/-- Whether a byte string is a single byte that stands for itself. -/
def isSmall : List UInt8 → Bool
  | [b] => decide (b.toNat < 0x80)
  | _ => false

/-- The encoding of a byte string. -/
def encodeString (bytes : List UInt8) : List UInt8 :=
  if isSmall bytes then bytes else header 0x80 bytes.length ++ bytes

mutual

/-- **The encoding of an item.** -/
def encode : Rlp → List UInt8
  | string bytes => encodeString bytes
  | list items => header 0xc0 (encodeAll items).length ++ encodeAll items

/-- The encodings of some items, one after another. -/
def encodeAll : List Rlp → List UInt8
  | [] => []
  | item :: items => encode item ++ encodeAll items

end

/-! ## Reading -/

/-- The first `n` bytes and the others, if there are so many. -/
def cut (n : Nat) (bytes : List UInt8) : Option (List UInt8 × List UInt8) :=
  if n ≤ bytes.length then some (bytes.take n, bytes.drop n) else none

/-- The length that a header tells, and what follows the header. -/
def readLength (tag : Nat) (bytes : List UInt8) : Option (Nat × List UInt8) :=
  if tag < 56 then some (tag, bytes)
  else do
    let (digits, rest) ← cut (tag - 55) bytes
    if digits.head? = some 0 ∨ bigEndian digits < 56 then none else some (bigEndian digits, rest)

/-- What a header stands before, and the rest. -/
def readPayload (tag : Nat) (bytes : List UInt8) : Option (List UInt8 × List UInt8) := do
  let (len, rest) ← readLength tag bytes
  cut len rest

mutual

/-- Read an item from the front of some bytes. -/
def decodeFrom : (fuel : Nat) → List UInt8 → Option (Rlp × List UInt8)
  | 0, _ => none
  | _ + 1, [] => none
  | fuel + 1, b :: bytes =>
    if b.toNat < 0x80 then some (string [b], bytes)
    else if b.toNat < 0xc0 then do
      let (payload, rest) ← readPayload (b.toNat - 0x80) bytes
      if isSmall payload then none else some (string payload, rest)
    else do
      let (payload, rest) ← readPayload (b.toNat - 0xc0) bytes
      let items ← decodeAll fuel payload
      some (list items, rest)

/-- Read items up to the end. -/
def decodeAll : (fuel : Nat) → List UInt8 → Option (List Rlp)
  | _, [] => some []
  | 0, _ :: _ => none
  | fuel + 1, b :: bytes => do
    let (item, rest) ← decodeFrom fuel (b :: bytes)
    let items ← decodeAll fuel rest
    some (item :: items)

end

/-- **The item that some bytes encode.** Nothing may follow it. -/
def decode (bytes : List UInt8) : Option Rlp :=
  (decodeFrom (2 * bytes.length) bytes).bind fun (item, rest) =>
    if rest = [] then some item else none

/-! ## Headers -/

theorem cut_eq_some_iff {n : Nat} {bytes front rest : List UInt8} :
    cut n bytes = some (front, rest) ↔ front.length = n ∧ bytes = front ++ rest := by
  unfold cut
  constructor
  · intro h
    split at h
    · rename_i hn
      cases h
      exact ⟨List.length_take_of_le hn, (List.take_append_drop n bytes).symm⟩
    · cases h
  · rintro ⟨rfl, rfl⟩
    rw [if_pos (by simp), List.take_left, List.drop_left]

/-- **A length is read from its header and from nothing else.** -/
theorem readLength_eq_some_iff {tag len : Nat} {bytes rest : List UInt8} :
    readLength tag bytes = some (len, rest) ↔
      tag = lengthTag len ∧ bytes = lengthBytes len ++ rest := by
  unfold readLength lengthTag lengthBytes
  by_cases htag : tag < 56
  · rw [if_pos htag]
    constructor
    · rintro ⟨⟩
      rw [if_pos htag, if_pos htag]
      exact ⟨rfl, rfl⟩
    · rintro ⟨htag', hbytes⟩
      by_cases hlen : len < 56
      · rw [if_pos hlen] at htag' hbytes
        rw [htag', hbytes]
        rfl
      · -- a length from 56 on takes a byte at least
        have hlong : ¬ (digitBytes len).length ≤ 0 := by
          rw [length_digitBytes_le_iff]
          omega
        rw [if_neg hlen] at htag'
        omega
  · rw [if_neg htag]
    constructor
    · intro h
      obtain ⟨⟨digits, rest'⟩, hcut, hread⟩ := Option.bind_eq_some_iff.1 h
      obtain ⟨hdigits, rfl⟩ := cut_eq_some_iff.1 hcut
      dsimp only at hread
      split at hread
      · cases hread
      · rename_i hcanonical
        rw [not_or] at hcanonical
        cases hread
        rw [if_neg hcanonical.2, if_neg hcanonical.2, digitBytes_bigEndian hcanonical.1]
        exact ⟨by omega, rfl⟩
    · rintro ⟨htag', hbytes⟩
      by_cases hlen : len < 56
      · rw [if_pos hlen] at htag'
        omega
      · rw [if_neg hlen] at htag' hbytes
        have hcut : cut (tag - 55) bytes = some (digitBytes len, rest) :=
          cut_eq_some_iff.2 ⟨by omega, hbytes⟩
        refine Option.bind_eq_some_iff.2 ⟨_, hcut, ?_⟩
        dsimp only
        rw [bigEndian_digitBytes, if_neg (not_or.2 ⟨head?_digitBytes len, hlen⟩)]

/-- **What stands behind a header is read from it.** -/
theorem readPayload_eq_some_iff {tag : Nat} {bytes payload rest : List UInt8} :
    readPayload tag bytes = some (payload, rest) ↔
      tag = lengthTag payload.length ∧ bytes = lengthBytes payload.length ++ (payload ++ rest) := by
  unfold readPayload
  constructor
  · intro h
    obtain ⟨⟨len, rest'⟩, hlength, hcut⟩ := Option.bind_eq_some_iff.1 h
    obtain ⟨rfl, rfl⟩ := cut_eq_some_iff.1 hcut
    exact readLength_eq_some_iff.1 hlength
  · rintro ⟨htag, hbytes⟩
    exact Option.bind_eq_some_iff.2
      ⟨_, readLength_eq_some_iff.2 ⟨htag, hbytes⟩, cut_eq_some_iff.2 ⟨rfl, rfl⟩⟩

theorem lengthTag_lt {len : Nat} (h : len < 256 ^ 8) : lengthTag len < 64 := by
  have hdigits := length_digitBytes_le_iff.2 h
  unfold lengthTag
  split <;> omega

theorem toNat_ofNat_add_tag {len : Nat} (base : Nat) (hbase : base ≤ 0xc0) (h : len < 256 ^ 8) :
    (UInt8.ofNat (base + lengthTag len)).toNat = base + lengthTag len := by
  have htag := lengthTag_lt h
  exact UInt8.toNat_ofNat_of_lt' (show base + lengthTag len < 256 by omega)

theorem eq_ofNat_of_sub_eq {b : UInt8} {base tag : Nat} (hbase : base ≤ b.toNat)
    (h : b.toNat - base = tag) : b = UInt8.ofNat (base + tag) := by
  have hb : b.toNat = base + tag := by omega
  rw [← hb, UInt8.ofNat_toNat]

/-! ## Decoding and encoding -/

/-- An item that is read is the one that was encoded, if those inside it are. -/
theorem of_decodeFrom_succ {fuel : Nat} {bytes rest : List UInt8} {item : Rlp}
    (hinside : ∀ {payload items}, decodeAll fuel payload = some items → payload = encodeAll items)
    (h : decodeFrom (fuel + 1) bytes = some (item, rest)) : bytes = encode item ++ rest := by
  cases bytes with
  | nil =>
      rw [decodeFrom] at h
      cases h
  | cons b bytes =>
      rw [decodeFrom] at h
      by_cases hsmall : b.toNat < 0x80
      · rw [if_pos hsmall] at h
        cases h
        simp [encode, encodeString, isSmall, hsmall]
      · rw [if_neg hsmall] at h
        by_cases hstring : b.toNat < 0xc0
        · rw [if_pos hstring] at h
          obtain ⟨⟨payload, rest'⟩, hpayload, hread⟩ := Option.bind_eq_some_iff.1 h
          obtain ⟨htag, rfl⟩ := readPayload_eq_some_iff.1 hpayload
          dsimp only at hread
          split at hread
          · cases hread
          · rename_i hlarge
            cases hread
            rw [encode, encodeString, if_neg hlarge, header, ← eq_ofNat_of_sub_eq (by omega) htag]
            simp
        · rw [if_neg hstring] at h
          obtain ⟨⟨payload, rest'⟩, hpayload, hread⟩ := Option.bind_eq_some_iff.1 h
          obtain ⟨htag, rfl⟩ := readPayload_eq_some_iff.1 hpayload
          obtain ⟨items, hitems, hread⟩ := Option.bind_eq_some_iff.1 hread
          cases hread
          rw [encode, ← hinside hitems, header, ← eq_ofNat_of_sub_eq (by omega) htag]
          simp

/-- **What is decoded is what was encoded**, whatever the fuel. -/
theorem of_decodeFrom (fuel : Nat) :
    (∀ {bytes rest item}, decodeFrom fuel bytes = some (item, rest) → bytes = encode item ++ rest) ∧
      ∀ {bytes items}, decodeAll fuel bytes = some items → bytes = encodeAll items := by
  induction fuel with
  | zero =>
      refine ⟨fun h => ?_, fun {bytes items} h => ?_⟩
      · rw [decodeFrom] at h
        cases h
      · cases bytes with
        | nil =>
            rw [decodeAll] at h
            cases h
            rfl
        | cons b bytes =>
            rw [decodeAll] at h
            cases h
  | succ fuel ih =>
      refine ⟨of_decodeFrom_succ ih.2, fun {bytes items} h => ?_⟩
      cases bytes with
      | nil =>
          rw [decodeAll] at h
          cases h
          rfl
      | cons b bytes =>
          rw [decodeAll] at h
          obtain ⟨⟨item, rest⟩, hitem, hread⟩ := Option.bind_eq_some_iff.1 h
          obtain ⟨items, hitems, hread⟩ := Option.bind_eq_some_iff.1 hread
          cases hread
          rw [ih.1 hitem, ih.2 hitems, encodeAll]

theorem decodeFrom_encodeString (fuel : Nat) (bytes rest : List UInt8)
    (h : bytes.length < 256 ^ 8) :
    decodeFrom (fuel + 1) (encodeString bytes ++ rest) = some (string bytes, rest) := by
  unfold encodeString
  by_cases hsmall : isSmall bytes = true
  · rw [if_pos hsmall]
    obtain ⟨b, rfl⟩ : ∃ b, bytes = [b] := by
      cases bytes with
      | nil => cases hsmall
      | cons b bytes =>
          cases bytes with
          | nil => exact ⟨b, rfl⟩
          | cons b' bytes => cases hsmall
    rw [List.singleton_append, decodeFrom, if_pos (of_decide_eq_true hsmall)]
  · have htag := lengthTag_lt h
    have hb := toNat_ofNat_add_tag 0x80 (by decide) h
    have hpayload : readPayload (0x80 + lengthTag bytes.length - 0x80)
        (lengthBytes bytes.length ++ (bytes ++ rest)) = some (bytes, rest) :=
      readPayload_eq_some_iff.2 ⟨by omega, rfl⟩
    rw [if_neg hsmall, header, List.cons_append, List.cons_append, List.append_assoc, decodeFrom,
      hb, if_neg (by omega), if_pos (by omega), hpayload]
    exact if_neg hsmall

theorem length_le_encodeString (bytes : List UInt8) :
    bytes.length ≤ (encodeString bytes).length := by
  unfold encodeString
  split
  · exact Nat.le_refl _
  · rw [List.length_append]
    omega

theorem length_encode_pos (item : Rlp) : 0 < (encode item).length := by
  cases item with
  | string bytes =>
      rw [encode, encodeString]
      split
      · rename_i hsmall
        cases bytes with
        | nil => cases hsmall
        | cons b bytes => exact Nat.succ_pos _
      · exact Nat.succ_pos _
  | list items =>
      rw [encode]
      exact Nat.succ_pos _

mutual

/-- **What was encoded is decoded**, with fuel for every byte. -/
theorem decodeFrom_encode (item : Rlp) (fuel : Nat) (rest : List UInt8)
    (hfuel : 2 * (encode item).length ≤ fuel) (h : (encode item).length < 256 ^ 8) :
    decodeFrom fuel (encode item ++ rest) = some (item, rest) := by
  have hpos := length_encode_pos item
  obtain ⟨fuel, rfl⟩ : ∃ k, fuel = k + 1 := ⟨fuel - 1, by omega⟩
  cases item with
  | string bytes =>
      rw [encode] at h ⊢
      have hlength := Nat.lt_of_le_of_lt (length_le_encodeString bytes) h
      exact decodeFrom_encodeString fuel bytes rest hlength
  | list items =>
      rw [encode, List.length_append, header, List.length_cons] at h hfuel
      have hlength : (encodeAll items).length < 256 ^ 8 := by omega
      have htag := lengthTag_lt hlength
      have hb := toNat_ofNat_add_tag 0xc0 (by decide) hlength
      have hpayload : readPayload (0xc0 + lengthTag (encodeAll items).length - 0xc0)
          (lengthBytes (encodeAll items).length ++ (encodeAll items ++ rest)) =
            some (encodeAll items, rest) :=
        readPayload_eq_some_iff.2 ⟨by omega, rfl⟩
      rw [encode, header, List.cons_append, List.cons_append, List.append_assoc, decodeFrom, hb,
        if_neg (by omega), if_neg (by omega)]
      have hitems := decodeAll_encodeAll items fuel (by omega) hlength
      refine Option.bind_eq_some_iff.2 ⟨_, hpayload, ?_⟩
      exact Option.bind_eq_some_iff.2 ⟨items, hitems, rfl⟩

theorem decodeAll_encodeAll (items : List Rlp) (fuel : Nat)
    (hfuel : 2 * (encodeAll items).length + 1 ≤ fuel) (h : (encodeAll items).length < 256 ^ 8) :
    decodeAll fuel (encodeAll items) = some items := by
  obtain ⟨fuel, rfl⟩ : ∃ k, fuel = k + 1 := ⟨fuel - 1, by omega⟩
  cases items with
  | nil =>
      rw [encodeAll, decodeAll]
  | cons item items =>
      have hpos := length_encode_pos item
      rw [encodeAll, List.length_append] at h hfuel
      have hitem := decodeFrom_encode item fuel (encodeAll items) (by omega) (by omega)
      have hitems := decodeAll_encodeAll items fuel (by omega) (by omega)
      rw [encodeAll]
      cases hbytes : encode item ++ encodeAll items with
      | nil =>
          rw [List.append_eq_nil_iff] at hbytes
          simp [hbytes.1] at hpos
      | cons b bytes =>
          rw [decodeAll, ← hbytes]
          refine Option.bind_eq_some_iff.2 ⟨_, hitem, ?_⟩
          exact Option.bind_eq_some_iff.2 ⟨items, hitems, rfl⟩

end

theorem eq_encode_of_decode {bytes : List UInt8} {item : Rlp} (h : decode bytes = some item) :
    bytes = encode item := by
  obtain ⟨⟨item', rest⟩, hfrom, hend⟩ := Option.bind_eq_some_iff.1 h
  dsimp only at hend
  split at hend
  · rename_i hrest
    cases hend
    rw [(of_decodeFrom _).1 hfrom, hrest, List.append_nil]
  · cases hend

/-- **Bytes decode to an item if they are its encoding, and in no other case.** -/
theorem decode_eq_some_iff {bytes : List UInt8} (h : bytes.length < 256 ^ 8) {item : Rlp} :
    decode bytes = some item ↔ bytes = encode item := by
  refine ⟨eq_encode_of_decode, ?_⟩
  rintro rfl
  have hfrom := decodeFrom_encode item _ [] (Nat.le_refl _) h
  rw [List.append_nil] at hfrom
  exact Option.bind_eq_some_iff.2 ⟨_, hfrom, if_pos rfl⟩

end Rlp

end MeteredEvm
