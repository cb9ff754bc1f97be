import MeteredEvm.Hex
import MeteredEvm.Json

/-!
# `MeteredEvm.Environment` — the block and the transaction around a run

## Contents
* `Environment`.
* `Environment.toJson` — the compact text of an environment.
* `Environment.ofJson?` — reading one.
-/

namespace MeteredEvm

/-- What instructions can learn about the block and the transaction. -/
structure Environment where
  coinbase : Address := 0
  timestamp : UInt64 := 0
  number : UInt64 := 0
  prevRandao : Word := 0
  gasLimit : UInt64 := 0
  chainId : UInt64 := 0
  baseFee : Word := 0
  blobBaseFee : Word := 0
  origin : Address := 0
  gasPrice : Word := 0
  blobHashes : List Hash := []
  deriving DecidableEq, Repr, Inhabited

namespace Environment

/-! ## Writing -/

/-- A text in quotes. The texts written here need no escapes. -/
def quoted (s : String) : String := "\"" ++ s ++ "\""

/-- A member of an object. -/
def member (name value : String) : String := quoted name ++ ":" ++ value

/-- The hashes as an array. -/
def hashesText (hs : List Hash) : String :=
  "[" ++ ",".intercalate (hs.map fun h => quoted (Hex.ofHash h)) ++ "]"

/-- The compact text of an environment, its fields in order. -/
def toJson (e : Environment) : String :=
  "\x7b" ++ ",".intercalate
    [member "coinbase" (quoted (Hex.ofAddress e.coinbase)),
     member "timestamp" (toString e.timestamp.toNat),
     member "number" (toString e.number.toNat),
     member "prevrandao" (quoted (Hex.ofWord e.prevRandao)),
     member "gas_limit" (toString e.gasLimit.toNat),
     member "chain_id" (toString e.chainId.toNat),
     member "base_fee" (quoted (Hex.ofWord e.baseFee)),
     member "blob_base_fee" (quoted (Hex.ofWord e.blobBaseFee)),
     member "origin" (quoted (Hex.ofAddress e.origin)),
     member "gas_price" (quoted (Hex.ofWord e.gasPrice)),
     member "blob_hashes" (hashesText e.blobHashes)] ++ "\x7d"

/-! ## Reading -/

/-- The names of the fields in order. -/
def fieldNames : List String :=
  ["coinbase", "timestamp", "number", "prevrandao", "gas_limit", "chain_id", "base_fee",
   "blob_base_fee", "origin", "gas_price", "blob_hashes"]

/-- A word in hexadecimal; a field that is missing is zero. -/
def readWord? : Option Json → Option Word
  | none => some 0
  | some v => v.toText?.bind Hex.toWord?

/-- An address in hexadecimal; a field that is missing is zero. -/
def readAddress? : Option Json → Option Address
  | none => some 0
  | some v => v.toText?.bind Hex.toAddress?

/-- An amount; a field that is missing is zero. -/
def readAmount? : Option Json → Option UInt64
  | none => some 0
  | some v => v.toNat64?.map UInt64.ofNat

/-- A list of hashes; a field that is missing is empty. -/
def readHashes? : Option Json → Option (List Hash)
  | none => some []
  | some (.array items) => items.mapM fun v => v.toText?.bind Hex.toHash?
  | some _ => none

/-- The environment that a document describes. -/
def read? (doc : Json) : Option Environment := do
  let fields ← doc.fields? fieldNames
  match fields with
  | [coinbase, timestamp, number, prevRandao, gasLimit, chainId, baseFee, blobBaseFee, origin,
     gasPrice, blobHashes] => do
    let coinbase ← readAddress? coinbase
    let timestamp ← readAmount? timestamp
    let number ← readAmount? number
    let prevRandao ← readWord? prevRandao
    let gasLimit ← readAmount? gasLimit
    let chainId ← readAmount? chainId
    let baseFee ← readWord? baseFee
    let blobBaseFee ← readWord? blobBaseFee
    let origin ← readAddress? origin
    let gasPrice ← readWord? gasPrice
    let blobHashes ← readHashes? blobHashes
    return { coinbase, timestamp, number, prevRandao, gasLimit, chainId, baseFee, blobBaseFee,
             origin, gasPrice, blobHashes }
  | _ => none

/-- Read an environment. -/
def ofJson? (text : String) : Option Environment := (Json.parse? text.toList).bind read?

end Environment

end MeteredEvm
