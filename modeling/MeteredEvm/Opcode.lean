import MeteredEvm.Word

/-!
# `MeteredEvm.Opcode` — the instructions and their bytes

An instruction is a value of `Op`; instructions that differ only in the function they compute, the
value they read or the number of places they reach share a constructor. The bytes and the names are
functions of it.

## Contents
* `UnaryOp`, `BinaryOp`, `TernaryOp` with `eval` — pure operations on words.
* `Reading`, `AccountField`, `CopySource`, `CallOp` — families of instructions.
* `Op`, `Op.all`, `Op.opcode`, `Op.ofByte?`, `Op.name`, `Op.immediate`, `opcodeName`.
-/

namespace MeteredEvm

/-! ## Pure operations on words -/

/-- Operations on one word. -/
inductive UnaryOp where
  | isZero
  | not
  deriving DecidableEq, Repr

/-- The value of an operation on one word. -/
def UnaryOp.eval : UnaryOp → Word → Word
  | isZero, a => Word.ofBool (a == 0#256)
  | not, a => ~~~a

/-- Operations on two words. -/
inductive BinaryOp where
  | add
  | mul
  | sub
  | div
  | sdiv
  | mod
  | smod
  | signExtend
  | lt
  | gt
  | slt
  | sgt
  | eq
  | and
  | or
  | xor
  | byte
  | shl
  | shr
  | sar
  deriving DecidableEq, Repr

/-- The value of an operation on two words, the top of the stack being the first. -/
def BinaryOp.eval : BinaryOp → Word → Word → Word
  | add, a, b => a + b
  | mul, a, b => a * b
  | sub, a, b => a - b
  | div, a, b => Word.udiv a b
  | sdiv, a, b => Word.sdiv a b
  | mod, a, b => Word.umod a b
  | smod, a, b => Word.srem a b
  | signExtend, a, b => Word.signExtendFrom a b
  | lt, a, b => Word.ofBool (a < b)
  | gt, a, b => Word.ofBool (b < a)
  | slt, a, b => Word.ofBool (Word.slt a b)
  | sgt, a, b => Word.ofBool (Word.slt b a)
  | eq, a, b => Word.ofBool (a == b)
  | and, a, b => a &&& b
  | or, a, b => a ||| b
  | xor, a, b => a ^^^ b
  | byte, a, b => Word.byteAt a b
  | shl, a, b => Word.shl a b
  | shr, a, b => Word.shr a b
  | sar, a, b => Word.sar a b

/-- Operations on three words. -/
inductive TernaryOp where
  | addMod
  | mulMod
  deriving DecidableEq, Repr

/-- The value of an operation on three words, the top of the stack being the first. -/
def TernaryOp.eval : TernaryOp → Word → Word → Word → Word
  | addMod, a, b, n => Word.addMod a b n
  | mulMod, a, b, n => Word.mulMod a b n

/-! ## Families -/

/-- Values that an instruction reads off the frame or its surroundings. -/
inductive Reading where
  | address
  | origin
  | caller
  | callValue
  | callDataSize
  | codeSize
  | gasPrice
  | returnDataSize
  | coinbase
  | timestamp
  | number
  | prevRandao
  | gasLimit
  | chainId
  | baseFee
  | blobBaseFee
  | pc
  | memorySize
  deriving DecidableEq, Repr

/-- What can be asked about another account. -/
inductive AccountField where
  | balance
  | codeSize
  | codeHash
  deriving DecidableEq, Repr

/-- Byte strings of the frame that can be copied to memory. -/
inductive CopySource where
  | callData
  | code
  | returnData
  deriving DecidableEq, Repr

/-- The call instructions. -/
inductive CallOp where
  | call
  | callCode
  | delegateCall
  | staticCall
  deriving DecidableEq, Repr

/-! ## Instructions -/

/-- An instruction. -/
inductive Op where
  | stop
  | unary (f : UnaryOp)
  | binary (f : BinaryOp)
  | ternary (f : TernaryOp)
  | exp
  | keccak256
  | reading (r : Reading)
  | selfBalance
  | account (field : AccountField)
  | callDataLoad
  | copy (source : CopySource)
  | extCodeCopy
  | blockHash
  | blobHash
  | pop
  | mload
  | mstore
  | mstore8
  | mcopy
  | sload
  | sstore
  | tload
  | tstore
  | jump
  | jumpi
  | jumpDest
  | gas
  /-- Push an immediate of the given number of bytes. -/
  | push (bytes : Fin 33)
  /-- Repeat a word; the number counts from zero at the top. -/
  | dup (n : Fin 16)
  /-- Exchange the top; the number counts from zero below the top. -/
  | swap (n : Fin 16)
  /-- Emit a log with the given number of topics. -/
  | log (topics : Fin 5)
  /-- Create a contract, at an address that depends on a salt or on the nonce. -/
  | create (salted : Bool)
  | call (kind : CallOp)
  | ret
  | revert
  | invalid
  | selfDestruct
  deriving DecidableEq, Repr

namespace Op

/-- Every instruction. -/
def all : List Op :=
  [stop, exp, keccak256, selfBalance, callDataLoad, extCodeCopy, blockHash, blobHash, pop, mload,
   mstore, mstore8, mcopy, sload, sstore, tload, tstore, jump, jumpi, jumpDest, gas, create false,
   create true, ret, revert, invalid, selfDestruct]
  ++ [UnaryOp.isZero, .not].map unary
  ++ [BinaryOp.add, .mul, .sub, .div, .sdiv, .mod, .smod, .signExtend, .lt, .gt, .slt, .sgt, .eq,
      .and, .or, .xor, .byte, .shl, .shr, .sar].map binary
  ++ [TernaryOp.addMod, .mulMod].map ternary
  ++ [Reading.address, .origin, .caller, .callValue, .callDataSize, .codeSize, .gasPrice,
      .returnDataSize, .coinbase, .timestamp, .number, .prevRandao, .gasLimit, .chainId, .baseFee,
      .blobBaseFee, .pc, .memorySize].map reading
  ++ [AccountField.balance, .codeSize, .codeHash].map account
  ++ [CopySource.callData, .code, .returnData].map copy
  ++ (List.finRange 33).map push
  ++ (List.finRange 16).map dup
  ++ (List.finRange 16).map swap
  ++ (List.finRange 5).map log
  ++ [CallOp.call, .callCode, .delegateCall, .staticCall].map call

/-- The byte of an instruction. -/
def opcode : Op → UInt8
  | stop => 0x00
  | binary .add => 0x01
  | binary .mul => 0x02
  | binary .sub => 0x03
  | binary .div => 0x04
  | binary .sdiv => 0x05
  | binary .mod => 0x06
  | binary .smod => 0x07
  | ternary .addMod => 0x08
  | ternary .mulMod => 0x09
  | exp => 0x0a
  | binary .signExtend => 0x0b
  | binary .lt => 0x10
  | binary .gt => 0x11
  | binary .slt => 0x12
  | binary .sgt => 0x13
  | binary .eq => 0x14
  | unary .isZero => 0x15
  | binary .and => 0x16
  | binary .or => 0x17
  | binary .xor => 0x18
  | unary .not => 0x19
  | binary .byte => 0x1a
  | binary .shl => 0x1b
  | binary .shr => 0x1c
  | binary .sar => 0x1d
  | keccak256 => 0x20
  | reading .address => 0x30
  | account .balance => 0x31
  | reading .origin => 0x32
  | reading .caller => 0x33
  | reading .callValue => 0x34
  | callDataLoad => 0x35
  | reading .callDataSize => 0x36
  | copy .callData => 0x37
  | reading .codeSize => 0x38
  | copy .code => 0x39
  | reading .gasPrice => 0x3a
  | account .codeSize => 0x3b
  | extCodeCopy => 0x3c
  | reading .returnDataSize => 0x3d
  | copy .returnData => 0x3e
  | account .codeHash => 0x3f
  | blockHash => 0x40
  | reading .coinbase => 0x41
  | reading .timestamp => 0x42
  | reading .number => 0x43
  | reading .prevRandao => 0x44
  | reading .gasLimit => 0x45
  | reading .chainId => 0x46
  | selfBalance => 0x47
  | reading .baseFee => 0x48
  | blobHash => 0x49
  | reading .blobBaseFee => 0x4a
  | pop => 0x50
  | mload => 0x51
  | mstore => 0x52
  | mstore8 => 0x53
  | sload => 0x54
  | sstore => 0x55
  | jump => 0x56
  | jumpi => 0x57
  | reading .pc => 0x58
  | reading .memorySize => 0x59
  | gas => 0x5a
  | jumpDest => 0x5b
  | tload => 0x5c
  | tstore => 0x5d
  | mcopy => 0x5e
  | push n => 0x5f + UInt8.ofNat n.val
  | dup n => 0x80 + UInt8.ofNat n.val
  | swap n => 0x90 + UInt8.ofNat n.val
  | log n => 0xa0 + UInt8.ofNat n.val
  | create false => 0xf0
  | call .call => 0xf1
  | call .callCode => 0xf2
  | ret => 0xf3
  | call .delegateCall => 0xf4
  | create true => 0xf5
  | call .staticCall => 0xfa
  | revert => 0xfd
  | invalid => 0xfe
  | selfDestruct => 0xff

/-- The name of an instruction. -/
def name : Op → String
  | stop => "STOP"
  | binary .add => "ADD"
  | binary .mul => "MUL"
  | binary .sub => "SUB"
  | binary .div => "DIV"
  | binary .sdiv => "SDIV"
  | binary .mod => "MOD"
  | binary .smod => "SMOD"
  | ternary .addMod => "ADDMOD"
  | ternary .mulMod => "MULMOD"
  | exp => "EXP"
  | binary .signExtend => "SIGNEXTEND"
  | binary .lt => "LT"
  | binary .gt => "GT"
  | binary .slt => "SLT"
  | binary .sgt => "SGT"
  | binary .eq => "EQ"
  | unary .isZero => "ISZERO"
  | binary .and => "AND"
  | binary .or => "OR"
  | binary .xor => "XOR"
  | unary .not => "NOT"
  | binary .byte => "BYTE"
  | binary .shl => "SHL"
  | binary .shr => "SHR"
  | binary .sar => "SAR"
  | keccak256 => "KECCAK256"
  | reading .address => "ADDRESS"
  | account .balance => "BALANCE"
  | reading .origin => "ORIGIN"
  | reading .caller => "CALLER"
  | reading .callValue => "CALLVALUE"
  | callDataLoad => "CALLDATALOAD"
  | reading .callDataSize => "CALLDATASIZE"
  | copy .callData => "CALLDATACOPY"
  | reading .codeSize => "CODESIZE"
  | copy .code => "CODECOPY"
  | reading .gasPrice => "GASPRICE"
  | account .codeSize => "EXTCODESIZE"
  | extCodeCopy => "EXTCODECOPY"
  | reading .returnDataSize => "RETURNDATASIZE"
  | copy .returnData => "RETURNDATACOPY"
  | account .codeHash => "EXTCODEHASH"
  | blockHash => "BLOCKHASH"
  | reading .coinbase => "COINBASE"
  | reading .timestamp => "TIMESTAMP"
  | reading .number => "NUMBER"
  | reading .prevRandao => "PREVRANDAO"
  | reading .gasLimit => "GASLIMIT"
  | reading .chainId => "CHAINID"
  | selfBalance => "SELFBALANCE"
  | reading .baseFee => "BASEFEE"
  | blobHash => "BLOBHASH"
  | reading .blobBaseFee => "BLOBBASEFEE"
  | pop => "POP"
  | mload => "MLOAD"
  | mstore => "MSTORE"
  | mstore8 => "MSTORE8"
  | sload => "SLOAD"
  | sstore => "SSTORE"
  | jump => "JUMP"
  | jumpi => "JUMPI"
  | reading .pc => "PC"
  | reading .memorySize => "MSIZE"
  | gas => "GAS"
  | jumpDest => "JUMPDEST"
  | tload => "TLOAD"
  | tstore => "TSTORE"
  | mcopy => "MCOPY"
  | push n => "PUSH" ++ toString n.val
  | dup n => "DUP" ++ toString (n.val + 1)
  | swap n => "SWAP" ++ toString (n.val + 1)
  | log n => "LOG" ++ toString n.val
  | create false => "CREATE"
  | call .call => "CALL"
  | call .callCode => "CALLCODE"
  | ret => "RETURN"
  | call .delegateCall => "DELEGATECALL"
  | create true => "CREATE2"
  | call .staticCall => "STATICCALL"
  | revert => "REVERT"
  | invalid => "INVALID"
  | selfDestruct => "SELFDESTRUCT"

/-- The instruction of every byte that has one. -/
@[irreducible]
def table : Vector (Option Op) 256 :=
  Vector.ofFn fun b => all.find? fun op => op.opcode.toNat == b.val

/-- The instruction of a byte, whatever the fork. -/
def ofByte? (b : UInt8) : Option Op :=
  have := b.toNat_lt
  table[b.toNat]

/-- Number of bytes after the opcode that belong to the instruction. -/
def immediate : Op → Nat
  | push n => n.val
  | _ => 0

end Op

/-- The name of a byte, whatever the fork. -/
def opcodeName (b : UInt8) : String :=
  match Op.ofByte? b with
  | some op => op.name
  | none => "UNDEFINED"

/-- Number of immediate bytes after a byte, whatever the fork. -/
def immediateSize (b : UInt8) : Nat :=
  match Op.ofByte? b with
  | some op => op.immediate
  | none => 0

end MeteredEvm
