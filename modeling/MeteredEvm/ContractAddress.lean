import MeteredEvm.Bytes
import MeteredEvm.Keccak

/-!
# `MeteredEvm.ContractAddress` — where new contracts live

The address of a new contract is the low 20 bytes of a hash. For a plain creation the sender and its
nonce are hashed, as a canonical RLP list; for a salted one the sender, a salt and the hash of the
init code.

## Contents
* `ContractAddress.encodeNonce`, `ContractAddress.preimage`, `ContractAddress.ofNonce`.
* `ContractAddress.saltedPreimage`, `ContractAddress.ofSalt`.
-/

namespace MeteredEvm.ContractAddress

/-- The least number of bytes that hold `n`. -/
def byteLength (n : Nat) : Nat := if n = 0 then 0 else n.log2 / 8 + 1

/-- A nonce as an RLP item: zero is the empty string, a number below 128 stands for itself, and a
    larger one follows its length. -/
def encodeNonce (nonce : Nat) : ByteArray :=
  if nonce = 0 then Bytes.ofList [0x80]
  else if nonce < 0x80 then Bytes.ofList [UInt8.ofNat nonce]
  else Bytes.ofList [UInt8.ofNat (0x80 + byteLength nonce)] ++ Bytes.ofNat (byteLength nonce) nonce

/-- The RLP list of a sender and its nonce. -/
def preimage (sender : Address) (nonce : Nat) : ByteArray :=
  let payload := Bytes.ofList [0x94] ++ Bytes.ofAddress sender ++ encodeNonce nonce
  Bytes.ofList [UInt8.ofNat (0xc0 + payload.size)] ++ payload

/-- The address of the contract that a sender with this nonce creates. -/
def ofNonce (sender : Address) (nonce : Nat) : Address :=
  (Keccak.digest (preimage sender nonce)).setWidth 160

/-- What is hashed for a creation with a salt. -/
def saltedPreimage (sender : Address) (salt : Word) (initCodeHash : Hash) : ByteArray :=
  Bytes.ofList [0xff] ++ Bytes.ofAddress sender ++ Bytes.ofWord salt ++ Bytes.ofWord initCodeHash

/-- The address of the contract that a sender creates with a salt and init code. -/
def ofSalt (sender : Address) (salt : Word) (initCode : ByteArray) : Address :=
  (Keccak.digest (saltedPreimage sender salt (Keccak.digest initCode))).setWidth 160

end MeteredEvm.ContractAddress
