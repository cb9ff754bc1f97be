import MeteredEvm.Machine
import MeteredEvm.Opcode

/-!
# `MeteredEvm.Effect.Data` — instructions that read and copy

Values of the frame and of the block, facts about other accounts, and the instructions that move
bytes between byte strings, memory and the stack.

## Contents
* `Effect.reading`, `Effect.selfBalance`, `Effect.account`, `Effect.blockHash`, `Effect.blobHash`.
* `Effect.callDataLoad`, `Effect.copy`, `Effect.extCodeCopy`.
* `Effect.mload`, `Effect.mstore`, `Effect.mstore8`, `Effect.mcopy`.
-/

namespace MeteredEvm.Effect

open Exec

variable {σ : Type}

/-- The word with the value of a size or an amount. -/
def ofNat (n : Nat) : Word := BitVec.ofNat 256 n

/-! ## Values to read -/

/-- The value of a reading at the instruction that stands at `pc`. -/
def valueOf (s : Setting σ) (pc : Nat) : Reading → Exec σ Word
  | .address => return Word.ofAddress s.context.address
  | .origin => return Word.ofAddress (← environment s).origin
  | .caller => return Word.ofAddress s.context.caller
  | .callValue => return s.context.value
  | .callDataSize => return ofNat s.input.size
  | .codeSize => return ofNat s.code.code.size
  | .gasPrice => return (← environment s).gasPrice
  | .returnDataSize => return ofNat (← get).returnData.size
  | .coinbase => return Word.ofAddress (← environment s).coinbase
  | .timestamp => return ofNat (← environment s).timestamp.toNat
  | .number => return ofNat (← environment s).number.toNat
  | .prevRandao => return (← environment s).prevRandao
  | .gasLimit => return ofNat (← environment s).gasLimit.toNat
  | .chainId => return ofNat (← environment s).chainId.toNat
  | .baseFee => return (← environment s).baseFee
  | .blobBaseFee => return (← environment s).blobBaseFee
  | .pc => return ofNat pc
  | .memorySize => return ofNat (← get).memory.size

/-- Push a reading. -/
def reading (s : Setting σ) (pc : Nat) (r : Reading) : Exec σ Unit := do
  push (← valueOf s pc r)

/-- Push the balance of the frame's own account. -/
def selfBalance (s : Setting σ) : Exec σ Unit := do
  push (← ask s (.balance s.context.address))

/-- What is asked about another account. -/
def accountField (s : Setting σ) (a : Address) : AccountField → Exec σ Word
  | .balance => ask s (.balance a)
  | .codeSize => do return ofNat (← ask s (.code a)).size
  | .codeHash => ask s (.codeHash a)

/-- Replace an address by something about the account. -/
def account (s : Setting σ) (field : AccountField) : Exec σ Unit := do
  let a ← popAddress
  touchAccount s a
  push (← accountField s a field)

/-- The hash of one of the 256 blocks before the current one; of any other block it is zero. -/
def blockHash (s : Setting σ) : Exec σ Unit := do
  let requested ← top
  let current := (← environment s).number.toNat
  match requested.toU64? with
  | some n =>
    if n < current ∧ current - n ≤ 256 then setTop (← ask s (.blockHash n))
    else setTop 0#256
  | none => setTop 0#256

/-- A blob hash of the transaction by its index; past the last it is zero. -/
def blobHash (s : Setting σ) : Exec σ Unit := do
  let index ← top
  match index.toU64? with
  | some i => do
    let hashes := (← environment s).blobHashes
    setTop (hashes[i]?.getD 0#256)
  | none => setTop 0#256

/-! ## Byte strings -/

/-- The 32 bytes of call data from an offset on, continued with zeros. -/
def callDataLoad (s : Setting σ) : Exec σ Unit := do
  let offset ← top
  match offset.toU64? with
  | some start => setTop (Bytes.toWord (Bytes.paddedSlice s.input start 32))
  | none => setTop (Bytes.toWord (Bytes.zeros 32))

/-- Copy from a byte string to memory, continuing it with zeros. An offset in the string that does
    not fit into 64 bits is taken for the largest that does. -/
def copyPadded (data : ByteArray) (target source len : Word) : Exec σ Unit := do
  match ← coverCopy target len with
  | some (offset, n) => write offset (Bytes.paddedSlice data source.clampU64 n)
  | none => pure ()

/-- Copy from a byte string to memory. A range that is not all there faults, also an empty one. -/
def copyWhole (data : ByteArray) (target source len : Word) : Exec σ Unit := do
  match source.add? len with
  | none => fault .returnDataOutOfBounds
  | some stop =>
    if ofNat data.size < stop then fault .returnDataOutOfBounds
    else
      match ← coverCopy target len with
      | some (offset, n) => do
        let bytes ← orTrap .data (Bytes.range? data source.lowU64 n)
        write offset bytes
      | none => pure ()

/-- Copy from a byte string of the frame to memory. -/
def copy (s : Setting σ) (source : CopySource) : Exec σ Unit := do
  let target ← pop
  let start ← pop
  let len ← pop
  match source with
  | .callData => copyPadded s.input target start len
  | .code => copyPadded s.code.code target start len
  | .returnData => copyWhole (← get).returnData target start len

/-- Copy from the code of another account to memory. The code is asked for only if there is
    something to copy. -/
def extCodeCopy (s : Setting σ) : Exec σ Unit := do
  let a ← popAddress
  let target ← pop
  let start ← pop
  let len ← pop
  touchAccount s a
  match ← coverCopy target len with
  | some (offset, n) => do
    let code ← ask s (.code a)
    write offset (Bytes.paddedSlice code start.clampU64 n)
  | none => pure ()

/-! ## Memory -/

/-- Load a word. -/
def mload : Exec σ Unit := do
  let offset ← top
  let start ← growAt offset 32
  setTop (Bytes.toWord (← read start 32))

/-- Store a word. -/
def mstore : Exec σ Unit := do
  let offset ← pop
  let value ← pop
  let start ← growAt offset 32
  write start (Bytes.ofWord value)

/-- Store the low byte of a word. -/
def mstore8 : Exec σ Unit := do
  let offset ← pop
  let value ← pop
  let start ← growAt offset 1
  write start (Bytes.ofNat 1 value.toNat)

/-- Copy inside the memory. The target is made part of the view first, then the source. -/
def mcopy : Exec σ Unit := do
  let target ← pop
  let source ← pop
  let len ← pop
  match ← coverCopy target len with
  | some (offset, n) => do
    let start ← growAt source n
    move start offset n
  | none => pure ()

end MeteredEvm.Effect
