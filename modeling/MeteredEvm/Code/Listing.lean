import MeteredEvm.Code.Analysis

/-!
# `MeteredEvm.Code.Listing` — analysed code as text

One line for the code, one for each block and one for each instruction. Entries that stand for no
byte are left out.

## Contents
* `Listing.place`, `Listing.ofInstruction`, `Listing.ofBlock`, `Analysis.listing`.
-/

namespace MeteredEvm

namespace Listing

/-- A place in the code: at least four digits. -/
def place (pc : Nat) : String := "0x" ++ String.ofList (Hex.padded 4 pc)

/-- A number with its sign. -/
def signed (n : Int) : String := if n < 0 then toString n else "+" ++ toString n

/-- What a listing says about the argument of an instruction. -/
def ofArg (a : Analysis) : Arg → String
  | .push w => " " ++ Hex.ofWord w
  | .target index => "  ; -> " ++ place ((a.instructions[index]?).map (·.pc) |>.getD 0)
  | .correction gas => "  ; +" ++ toString gas
  | .none | .block _ => ""

/-- The line of an instruction. -/
def ofInstruction (a : Analysis) (ins : Instruction) : String :=
  "  " ++ String.ofList (Hex.padded 4 ins.pc) ++ "  " ++ opcodeName ins.opcode ++ ofArg a ins.arg
    ++ "\n"

/-- The first line of a block. -/
def header (number : Nat) (b : Block) : String :=
  let cost := b.cost
  let successors :=
    if b.successors.isEmpty then "" else " -> " ++ ", ".intercalate (b.successors.map place)
  "block " ++ toString number ++ " [" ++ place b.start ++ ".." ++ place b.stop ++ ") gas="
    ++ toString cost.gas ++ " stack>=" ++ toString cost.required ++ " growth=+"
    ++ toString cost.growth ++ " net=" ++ signed b.tally.net.toInt ++ successors ++ "\n"

/-- The instructions of the stream in a block, with its entry only where that is a byte of the code.
    The block ends where the stream has the entry of the next one. -/
def body (a : Analysis) (b : Block) (nextEntry : Nat) : Array Instruction :=
  let first := if a.code[b.start]? = some jumpDestByte then b.entry else b.entry + 1
  a.instructions.extract first nextEntry

/-- The lines of the block with a given number. -/
def ofBlock (a : Analysis) (number : Nat) (b : Block) : String :=
  let nextEntry := (a.blocks[number + 1]?.map (·.entry)).getD a.instructions.size
  (body a b nextEntry).foldl (fun acc ins => acc ++ ofInstruction a ins) (header number b)

end Listing

/-- The listing of analysed code. -/
def Analysis.listing (a : Analysis) : String :=
  let first := "; " ++ toString a.code.size ++ " bytes, " ++ a.fork.label ++ ", code "
    ++ String.ofList (Hex.padded 64 a.hash.toNat) ++ "\n"
  a.blocks.zipIdx.foldl (fun acc (b, number) => acc ++ Listing.ofBlock a number b) first

end MeteredEvm
