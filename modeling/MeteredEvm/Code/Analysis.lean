import MeteredEvm.Blake3
import MeteredEvm.Code.Block

/-!
# `MeteredEvm.Code.Analysis` — from bytes to a stream of instructions

Code is decoded, cut into blocks, and laid out as a stream. Every block of the stream begins with an
entry that carries its cost. A jump destination is its own entry; any other block gets one that
stands for no byte. A jump right after a push goes to a known place, which is looked up here.

## Contents
* `Analysis`, `analyze`, `analyze?`.
* `Analysis.jumpTarget`, `Analysis.blockAt`, `Analysis.hash`.
-/

namespace MeteredEvm

/-- What is known about a code under a fork before it runs. -/
structure Analysis where
  /-- The code. -/
  code : ByteArray
  /-- The fork. -/
  fork : Fork
  /-- The stream. -/
  instructions : Array Instruction
  /-- The blocks in order. -/
  blocks : Array Block
  /-- Where jumps may go. -/
  jumpDests : JumpMap code.size
  /-- Every jump destination with its place in the stream, in the order of the code. -/
  entries : Array (Nat × Nat)

namespace Analysis

/-- Where a jump to the word `dest` continues in the stream. -/
def targetIn {size : Nat} (jumpDests : JumpMap size) (entries : Array (Nat × Nat)) (dest : Word) :
    Option Nat :=
  match dest.toU64? with
  | some pc => if jumpDests.isSet pc then findPlace entries pc else none
  | none => none

/-- Where a jump to the word `dest` continues in the stream of the code. -/
def jumpTarget (a : Analysis) (dest : Word) : Option Nat := targetIn a.jumpDests a.entries dest

/-- The hash that identifies the code. -/
def hash (a : Analysis) : Hash := Blake3.digest a.code

/-- The block that holds the byte at `pc`: the last that starts there or before, unless it stops
    before. -/
def blockAt (a : Analysis) (pc : Nat) : Option Block :=
  match partitionPoint (·.start ≤ pc) a.blocks with
  | 0 => none
  | i + 1 => a.blocks[i]?.filter (pc < ·.stop)

/-! ## Layout -/

/-- Whether a block has an entry that stands for no byte. -/
def hasOwnEntry (segment : List Decoded) : Bool :=
  match segment with
  | d :: _ => !d.isJumpDest
  | [] => false

/-- Number of places that a block takes in the stream. -/
def streamSize (segment : List Decoded) : Nat :=
  segment.length + (if hasOwnEntry segment then 1 else 0)

/-- Put one more block at the end of a layout and count its places in the stream. -/
def place (layout : Array (Nat × List Decoded) × Nat) (segment : List Decoded) :
    Array (Nat × List Decoded) × Nat :=
  (layout.1.push (layout.2, segment), layout.2 + streamSize segment)

/-- Each block with the index of its entry in the stream. -/
def layoutOf (blocks : List (List Decoded)) : Array (Nat × List Decoded) :=
  (blocks.foldl place (#[], 0)).1

/-- The places, and with them that of a block if it starts with a jump destination. -/
def noteDestination (entries : Array (Nat × Nat)) (placed : Nat × List Decoded) :
    Array (Nat × Nat) :=
  match placed.2 with
  | d :: _ => if d.isJumpDest then entries.push (d.pc, placed.1) else entries
  | [] => entries

/-- The places of the jump destinations. -/
def destinations (layout : Array (Nat × List Decoded)) : Array (Nat × Nat) :=
  layout.foldl noteDestination #[]

/-! ## The stream -/

/-- Where the stream of one block stands while it is written. -/
structure Writer where
  /-- Static gas of the instructions so far. -/
  gas : Nat
  /-- The word that the instruction before pushes, if it pushes an immediate. -/
  pushed : Option Word
  /-- The stream so far. -/
  stream : Array Instruction

/-- Whether an instruction is a jump. -/
def isJump (d : Decoded) : Bool := d.entry.op == some .jump || d.entry.op == some .jumpi

/-- The argument of an instruction, given what the block costs, what it has cost up to and with
    this instruction, and the word pushed right before. -/
def argOf (target : Word → Option Nat) (cost : BlockCost) (through : Nat) (pushed : Option Word)
    (d : Decoded) : Arg :=
  if d.isJumpDest then .block cost
  else if d.entry.observesGas then .correction (cost.gas - through)
  else if isJump d then
    match pushed.bind target with
    | some index => .target index
    | none => .none
  else
    match d.immediate with
    | some w => .push w
    | none => .none

/-- Write one instruction. -/
def Writer.add (target : Word → Option Nat) (cost : BlockCost) (w : Writer) (d : Decoded) :
    Writer :=
  let through := w.gas + d.entry.baseGas
  { gas := through
    pushed := d.immediate
    stream := w.stream.push
      { pc := d.pc
        opcode := d.entry.opcode
        op := d.entry.op
        arg := argOf target cost through w.pushed d } }

/-- Write the entry of a block, if it has one of its own, and its instructions. -/
def writeBlock (target : Word → Option Nat) (stream : Array Instruction) (segment : List Decoded) :
    Array Instruction :=
  let cost := (Tally.ofSegment segment).cost
  let stream :=
    match segment with
    | d :: _ => if d.isJumpDest then stream else stream.push (.blockEntry d.pc cost)
    | [] => stream
  (segment.foldl (Writer.add target cost) { gas := 0, pushed := none, stream }).stream

/-! ## Blocks -/

/-- Where a jump at the end of a block is known to go. -/
def constantTarget (target : Word → Option Nat) (segment : List Decoded) : List Nat :=
  match segment.reverse with
  | _ :: before :: _ =>
    match before.immediate with
    | some w => if (target w).isSome then [w.toNat] else []
    | none => []
  | _ => []

/-- Where control can go after a block that the block at `next` follows. -/
def successorsOf (target : Word → Option Nat) (next : Option Nat) (segment : List Decoded) :
    List Nat :=
  match segment.getLast? with
  | none => []
  | some last =>
    match last.entry.op with
    | some .jump => constantTarget target segment
    | some .jumpi => constantTarget target segment ++ next.toList
    | _ => if last.entry.endsBlock then [] else next.toList

/-- Where a block starts. -/
def startOf : List Decoded → Option Nat
  | d :: _ => some d.pc
  | [] => none

/-- Where a block closes in a code of `size` bytes: behind an instruction that ends it, and else where
    its last instruction leaves off, which is at a jump destination or at the end of the code. -/
def stopOf (size : Nat) (segment : List Decoded) : Nat :=
  match segment.getLast? with
  | some last => if last.entry.endsBlock then last.pc + 1 else min last.next size
  | none => 0

/-- The blocks of a layout, of a code of `size` bytes. -/
def blocksOf (target : Word → Option Nat) (size : Nat) (layout : Array (Nat × List Decoded)) :
    Array Block :=
  layout.mapIdx fun i (index, segment) =>
    let next := layout[i + 1]?.bind fun (_, following) => startOf following
    { start := (startOf segment).getD 0
      stop := stopOf size segment
      tally := Tally.ofSegment segment
      entry := index
      successors := successorsOf target next segment }

end Analysis

/-- The analysis of a code. Counts of the stack that leave 32 bits wrap around. -/
def analyze (is : InstructionSet) (code : ByteArray) : Analysis :=
  let layout := Analysis.layoutOf (segments (decode is code).toList)
  let jumpDests := JumpMap.scan code
  let entries := Analysis.destinations layout
  let target := Analysis.targetIn jumpDests entries
  { code
    fork := is.fork
    instructions := layout.foldl (fun stream (_, segment) =>
      Analysis.writeBlock target stream segment) #[]
    blocks := Analysis.blocksOf target code.size layout
    jumpDests
    entries }

/-- Whether all counts of the stack stay within 32 bits from `pc` on, in a block that has changed the
    height by `net` so far. -/
def countsFitFrom (entries : Vector Entry 256) (code : ByteArray) (pc : Nat) (net : Int32) : Bool :=
  if h : pc < code.size then
    let opcode := code[pc]
    have hlt : opcode.toNat < 256 := opcode.toNat_lt
    let e := entries[opcode.toNat]
    let net := if opcode == jumpDestByte then 0 else net
    Tally.fits net e && countsFitFrom entries code (pc + 1 + e.immediate)
      (if e.endsBlock then 0 else net + Tally.change e)
  else true
termination_by code.size - pc
decreasing_by omega

/-- The analysis of a code where counts of the stack must not wrap around: it fails if one would. -/
def analyze? (is : InstructionSet) (code : ByteArray) : Option Analysis :=
  if countsFitFrom is.entries code 0 0 then some (analyze is code) else none

end MeteredEvm
