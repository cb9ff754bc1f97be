import MeteredEvm.ContractAddress
import MeteredEvm.Proofs.Rlp

/-!
# `MeteredEvm.Proofs.AddressPreimages` — what the addresses of contracts are hashes of

The address of a new contract is a hash, so contracts meet only if the bytes that are hashed do.
Those of a plain creation are the canonical encoding of a list of the sender and its nonce, which
can be read again; those of a salted one have their parts at fixed places. The two kinds differ in
their lengths.

## Contents
* `Bytes.bigEndian_ofNat`, `Bytes.ofNat_inj`, `ContractAddress.toList_ofNat_byteLength` — numbers as
  bytes.
* `ContractAddress.creation`, `ContractAddress.creation?` — sender and nonce as an item.
* `ContractAddress.toList_preimage`, `ContractAddress.decode_creation?_iff` — plain creations.
* `ContractAddress.saltedPreimage_inj`, `ContractAddress.preimage_ne_saltedPreimage` — salted ones.
* `address_preimages_canonical`.
-/

namespace MeteredEvm

/-! ## Numbers as bytes -/

namespace Bytes

theorem toList_ofNat_succ (width n : Nat) :
    (ofNat (width + 1) n).data.toList = (ofNat width (n / 256)).data.toList ++ [UInt8.ofNat n] := by
  unfold ofNat
  rw [Array.toList_ofFn, Array.toList_ofFn, List.ofFn_succ', List.concat_eq_append]
  congr 2
  · funext i
    have hi := i.isLt
    have hshift : 8 * (width - i.val) = 8 + 8 * (width - 1 - i.val) := by omega
    show UInt8.ofNat (n >>> (8 * (width - i.val))) = _
    rw [hshift, Nat.shiftRight_add, Nat.shiftRight_eq_div_pow n 8]
  · show UInt8.ofNat (n >>> (8 * (width - width))) = _
    rw [Nat.sub_self]
    rfl

/-- Writing a number to some bytes keeps what fits. -/
theorem bigEndian_ofNat (width n : Nat) :
    bigEndian (ofNat width n).data.toList = n % 256 ^ width := by
  induction width generalizing n with
  | zero => exact (Nat.mod_one n).symm
  | succ width ih =>
      have hmod : n % 256 ^ (width + 1) = n % 256 + 256 * (n / 256 % 256 ^ width) := by
        rw [pow_succ', Nat.mod_mul]
      rw [toList_ofNat_succ, bigEndian_append_singleton, ih, UInt8.toNat_ofNat', hmod]
      omega

theorem length_toList_ofNat (width n : Nat) : (ofNat width n).data.toList.length = width := by
  simp [ofNat]

/-- Numbers that fit are told apart by their bytes. -/
theorem ofNat_inj {width m n : Nat} (hm : m < 256 ^ width) (hn : n < 256 ^ width)
    (h : (ofNat width m).data.toList = (ofNat width n).data.toList) : m = n := by
  have hnumbers := congrArg bigEndian h
  rw [bigEndian_ofNat, bigEndian_ofNat, Nat.mod_eq_of_lt hm, Nat.mod_eq_of_lt hn] at hnumbers
  exact hnumbers

end Bytes

namespace ContractAddress

/-- The bytes that hold a number are as many as it has without zeros in front. -/
theorem byteLength_eq (n : Nat) : byteLength n = (digitBytes n).length := by
  unfold byteLength
  rw [length_digitBytes]
  split
  · rename_i hn
    rw [hn]
    rfl
  · rename_i hn
    rw [Nat.length_digits 256 n (by decide) hn, Nat.log2_eq_log_two, ← Nat.log_pow_left]

theorem toList_ofNat_byteLength (n : Nat) :
    (Bytes.ofNat (byteLength n) n).data.toList = digitBytes n := by
  have hbytes := Bytes.toList_ofNat_bigEndian (digitBytes n)
  rw [bigEndian_digitBytes, ← byteLength_eq] at hbytes
  exact hbytes

/-! ## Senders -/

theorem length_ofAddress (a : Address) : (Bytes.ofAddress a).data.toList.length = 20 :=
  Bytes.length_toList_ofNat 20 _

theorem bigEndian_ofAddress (a : Address) :
    bigEndian (Bytes.ofAddress a).data.toList = a.toNat := by
  unfold Bytes.ofAddress
  rw [Bytes.bigEndian_ofNat, Nat.mod_eq_of_lt (show a.toNat < 256 ^ 20 from a.isLt)]

/-! ## Plain creations -/

/-- **The item that is hashed for a plain creation**: a list of the sender and its nonce, the nonce
    without zeros in front. -/
def creation (sender : Address) (nonce : Nat) : Rlp :=
  .list [.string (Bytes.ofAddress sender).data.toList, .string (digitBytes nonce)]

/-- The sender and the nonce of a creation, read from an item: 20 bytes, and a number of at most
    8 bytes without zeros in front. -/
def creation? : Rlp → Option (Address × Nat)
  | .list [.string sender, .string nonce] =>
    if sender.length = 20 ∧ nonce.length ≤ 8 ∧ nonce.head? ≠ some 0 then
      some (BitVec.ofNat 160 (bigEndian sender), bigEndian nonce)
    else none
  | _ => none

/-- An item is read as a sender and a nonce only if it was made from them. -/
theorem creation?_eq_some_iff {item : Rlp} {sender : Address} {nonce : Nat} :
    creation? item = some (sender, nonce) ↔ nonce < u64Size ∧ item = creation sender nonce := by
  constructor
  · intro h
    unfold creation? at h
    split at h
    · rename_i senderBytes nonceBytes
      split at h
      · rename_i hform
        obtain ⟨hsender, hlength, hhead⟩ := hform
        cases h
        have hbound : bigEndian senderBytes < 2 ^ 160 := by
          have hlt := bigEndian_lt senderBytes
          rw [hsender] at hlt
          exact hlt
        have hbytes := Bytes.toList_ofNat_bigEndian senderBytes
        refine ⟨?_, ?_⟩
        · rw [← digitBytes_bigEndian hhead, length_digitBytes_le_iff] at hlength
          exact hlength
        · unfold creation Bytes.ofAddress
          rw [BitVec.toNat_ofNat, Nat.mod_eq_of_lt hbound, ← hsender, hbytes,
            digitBytes_bigEndian hhead]
      · cases h
    · cases h
  · rintro ⟨hnonce, rfl⟩
    have hlength : (digitBytes nonce).length ≤ 8 := length_digitBytes_le_iff.2 hnonce
    unfold creation creation?
    dsimp only
    rw [if_pos ⟨length_ofAddress sender, hlength, head?_digitBytes nonce⟩, bigEndian_ofAddress,
      bigEndian_digitBytes, BitVec.ofNat_toNat, BitVec.setWidth_eq]

/-- The nonce is encoded as a byte string without zeros in front. -/
theorem toList_encodeNonce {nonce : Nat} (h : nonce < u64Size) :
    (encodeNonce nonce).data.toList = Rlp.encodeString (digitBytes nonce) := by
  have hlength : (digitBytes nonce).length ≤ 8 := length_digitBytes_le_iff.2 h
  unfold encodeNonce
  by_cases hzero : nonce = 0
  · rw [if_pos hzero, hzero]
    rfl
  · rw [if_neg hzero]
    by_cases hsmall : nonce < 0x80
    · have hbytes : digitBytes nonce = [UInt8.ofNat nonce] := by
        unfold digitBytes
        rw [Nat.digits_of_lt 256 nonce hzero (by omega)]
        rfl
      have hvalue : (UInt8.ofNat nonce).toNat = nonce :=
        UInt8.toNat_ofNat_of_lt' (show nonce < 256 by omega)
      have hself : Rlp.isSmall [UInt8.ofNat nonce] = true :=
        decide_eq_true (hvalue.symm ▸ hsmall)
      rw [if_pos hsmall, hbytes, Rlp.encodeString, if_pos hself]
      rfl
    · have hlarge : ¬ Rlp.isSmall (digitBytes nonce) = true := by
        intro hself
        have hvalue := bigEndian_digitBytes nonce
        unfold Rlp.isSmall at hself
        split at hself
        · rename_i b hb
          rw [hb] at hvalue
          have hb' : bigEndian [b] = b.toNat := by simp [bigEndian]
          rw [decide_eq_true_eq] at hself
          omega
        · cases hself
      rw [if_neg hsmall, Rlp.encodeString, if_neg hlarge, ByteArray.toList_data_append,
        toList_ofNat_byteLength, byteLength_eq, Rlp.header, Rlp.lengthTag, Rlp.lengthBytes,
        if_pos (by omega), if_pos (by omega)]
      rfl

/-- The items of the list: the sender behind a header of one byte, and the nonce. -/
theorem encodeAll_creation (sender : Address) {nonce : Nat} (h : nonce < u64Size) :
    Rlp.encodeAll [.string (Bytes.ofAddress sender).data.toList, .string (digitBytes nonce)] =
      0x94 :: (Bytes.ofAddress sender).data.toList ++ (encodeNonce nonce).data.toList := by
  have hlength := length_ofAddress sender
  have hlarge : ¬ Rlp.isSmall (Bytes.ofAddress sender).data.toList = true := by
    intro hself
    unfold Rlp.isSmall at hself
    split at hself
    · rename_i hb
      rw [hb] at hlength
      cases hlength
    · cases hself
  rw [Rlp.encodeAll, Rlp.encodeAll, Rlp.encodeAll, Rlp.encode, Rlp.encode, List.append_nil,
    ← toList_encodeNonce h, Rlp.encodeString, if_neg hlarge, hlength]
  rfl

theorem length_encodeNonce_le {nonce : Nat} (h : nonce < u64Size) :
    (encodeNonce nonce).data.toList.length ≤ 9 := by
  have hlength : (digitBytes nonce).length ≤ 8 := length_digitBytes_le_iff.2 h
  rw [toList_encodeNonce h, Rlp.encodeString]
  split
  · omega
  · rw [Rlp.header, Rlp.lengthBytes, if_pos (by omega), List.length_append, List.length_singleton]
    omega

/-- **What is hashed for a plain creation is the encoding of its item.** The header is a short one,
    since the sender and the nonce take few bytes. -/
theorem toList_preimage (sender : Address) {nonce : Nat} (h : nonce < u64Size) :
    (preimage sender nonce).data.toList = (creation sender nonce).encode ∧
      (preimage sender nonce).size ≤ 31 := by
  have hnonce := length_encodeNonce_le h
  have hsender := length_ofAddress sender
  have hpayload : (Bytes.ofList [0x94] ++ Bytes.ofAddress sender ++ encodeNonce nonce).data.toList =
      0x94 :: (Bytes.ofAddress sender).data.toList ++ (encodeNonce nonce).data.toList := by
    rw [ByteArray.toList_data_append, ByteArray.toList_data_append]
    rfl
  have hlength : (0x94 :: (Bytes.ofAddress sender).data.toList ++
      (encodeNonce nonce).data.toList).length ≤ 30 := by
    simp only [List.length_append, List.length_cons]
    omega
  have hlist : (preimage sender nonce).data.toList = (creation sender nonce).encode := by
    unfold preimage creation
    dsimp only
    rw [Rlp.encode, encodeAll_creation sender h, Rlp.header, Rlp.lengthTag, Rlp.lengthBytes,
      if_pos (by omega), if_pos (by omega), ByteArray.toList_data_append, ← hpayload]
    rfl
  refine ⟨hlist, ?_⟩
  show (preimage sender nonce).data.toList.length ≤ 31
  rw [hlist, creation, Rlp.encode, encodeAll_creation sender h, Rlp.header, Rlp.lengthBytes,
    if_pos (by omega), List.length_append, List.length_singleton]
  omega

/-- **Reading bytes as a sender and a nonce succeeds on what is hashed for them**, and on nothing
    else. -/
theorem decode_creation?_iff {bytes : List UInt8} {sender : Address} {nonce : Nat}
    (h : nonce < u64Size) :
    (Rlp.decode bytes).bind creation? = some (sender, nonce) ↔
      bytes = (preimage sender nonce).data.toList := by
  obtain ⟨hencode, hsize⟩ := toList_preimage sender h
  constructor
  · intro hread
    obtain ⟨item, hitem, hcreation⟩ := Option.bind_eq_some_iff.1 hread
    rw [hencode, ← (creation?_eq_some_iff.1 hcreation).2]
    exact Rlp.eq_encode_of_decode hitem
  · rintro rfl
    have hlength : (preimage sender nonce).data.toList.length < 256 ^ 8 :=
      Nat.lt_of_le_of_lt hsize (by decide)
    exact Option.bind_eq_some_iff.2
      ⟨_, (Rlp.decode_eq_some_iff hlength).2 hencode, creation?_eq_some_iff.2 ⟨h, rfl⟩⟩

theorem preimage_inj {sender sender' : Address} {nonce nonce' : Nat} (h : nonce < u64Size)
    (h' : nonce' < u64Size) (heq : preimage sender nonce = preimage sender' nonce') :
    sender = sender' ∧ nonce = nonce' := by
  have hread := (decode_creation?_iff h).2 (rfl : (preimage sender nonce).data.toList = _)
  have hread' := (decode_creation?_iff h').2 (rfl : (preimage sender' nonce').data.toList = _)
  rw [heq, hread'] at hread
  cases hread
  exact ⟨rfl, rfl⟩

/-! ## Salted creations -/

theorem length_ofWord (w : Word) : (Bytes.ofWord w).data.toList.length = 32 :=
  Bytes.length_toList_ofNat 32 _

/-- The parts of what is hashed for a salted creation stand at fixed places. -/
theorem saltedPreimage_inj {sender sender' : Address} {salt salt' : Word} {hash hash' : Hash}
    (h : saltedPreimage sender salt hash = saltedPreimage sender' salt' hash') :
    sender = sender' ∧ salt = salt' ∧ hash = hash' := by
  have hlist := congrArg (fun bytes : ByteArray => bytes.data.toList) h
  simp only [saltedPreimage, ByteArray.toList_data_append, List.append_assoc] at hlist
  obtain ⟨hsender, hrest⟩ := List.append_inj (List.append_cancel_left hlist)
    ((length_ofAddress sender).trans (length_ofAddress sender').symm)
  obtain ⟨hsalt, hhash⟩ := List.append_inj hrest
    ((length_ofWord salt).trans (length_ofWord salt').symm)
  have hword {v w : Word} (hvw : (Bytes.ofWord v).data.toList = (Bytes.ofWord w).data.toList) :
      v = w :=
    BitVec.eq_of_toNat_eq (Bytes.ofNat_inj v.isLt w.isLt hvw)
  exact ⟨BitVec.eq_of_toNat_eq (Bytes.ofNat_inj sender.isLt sender'.isLt hsender), hword hsalt,
    hword hhash⟩

/-- What is hashed for a salted creation is longer than any list of a sender and a nonce. -/
theorem preimage_ne_saltedPreimage {sender sender' : Address} {nonce : Nat} (h : nonce < u64Size)
    (salt : Word) (hash : Hash) : preimage sender nonce ≠ saltedPreimage sender' salt hash := by
  intro heq
  have hsize := (toList_preimage sender h).2
  have hsalted : (saltedPreimage sender' salt hash).data.toList.length = 85 := by
    simp only [saltedPreimage, ByteArray.toList_data_append, List.length_append, length_ofAddress,
      length_ofWord]
    rfl
  rw [heq] at hsize
  exact absurd (hsalted.symm.le.trans hsize) (by decide)

end ContractAddress

open ContractAddress in
/-- **What the addresses of contracts are hashes of is canonical and tells creations apart.** For
    every sender and every 64-bit nonce, `ofNonce` hashes the `preimage`, which is the canonical
    encoding of the list of the two (`creation`), with a header of the short form; `Rlp.decode` and
    `creation?` give the sender and the nonce for these bytes and for no others. `ofSalt` hashes the
    `saltedPreimage`, which tells the sender, the salt and the hash of the init code. No bytes are
    hashed for creations of both kinds. -/
theorem address_preimages_canonical (sender sender' : Address) (nonce nonce' : UInt64)
    (salt salt' : Word) (hash hash' : Hash) :
    (preimage sender nonce.toNat).data.toList = (creation sender nonce.toNat).encode ∧
    (preimage sender nonce.toNat).size ≤ 56 ∧
    (∀ bytes, (Rlp.decode bytes).bind creation? = some (sender, nonce.toNat) ↔
      bytes = (preimage sender nonce.toNat).data.toList) ∧
    (preimage sender nonce.toNat = preimage sender' nonce'.toNat ↔
      sender = sender' ∧ nonce = nonce') ∧
    (saltedPreimage sender salt hash = saltedPreimage sender' salt' hash' ↔
      sender = sender' ∧ salt = salt' ∧ hash = hash') ∧
    preimage sender nonce.toNat ≠ saltedPreimage sender' salt hash ∧
    ofNonce sender nonce.toNat = (Keccak.digest (preimage sender nonce.toNat)).setWidth 160 ∧
    ∀ initCode, ofSalt sender salt initCode =
      (Keccak.digest (saltedPreimage sender salt (Keccak.digest initCode))).setWidth 160 := by
  have hnonce : nonce.toNat < u64Size := nonce.toNat_lt
  have hnonce' : nonce'.toNat < u64Size := nonce'.toNat_lt
  obtain ⟨hencode, hsize⟩ := toList_preimage sender hnonce
  refine ⟨hencode, hsize.trans (by decide), fun _ => decode_creation?_iff hnonce, ?_, ?_,
    preimage_ne_saltedPreimage hnonce salt hash, rfl, fun _ => rfl⟩
  · constructor
    · intro heq
      obtain ⟨hsender, heq⟩ := preimage_inj hnonce hnonce' heq
      exact ⟨hsender, UInt64.toNat_inj.1 heq⟩
    · rintro ⟨rfl, rfl⟩
      rfl
  · constructor
    · exact saltedPreimage_inj
    · rintro ⟨rfl, rfl, rfl⟩
      rfl

end MeteredEvm
