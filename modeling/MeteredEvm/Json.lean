import MeteredEvm.Hex

/-!
# `MeteredEvm.Json` — reading strict JSON

Configuration and block environments are given as JSON. The reader is strict: no trailing commas, no
comments, no bare control characters, no numbers with a leading zero. Numbers keep their text, so
that a reader of amounts can insist on plain integers, and objects keep all their members in order,
so that a member given twice can be refused.

## Contents
* `Json` — documents.
* `Json.parse?` — reading a document.
* `Json.toNat64?`, `Json.fields?` — reading amounts and records.
-/

namespace MeteredEvm

/-- A JSON document. -/
inductive Json where
  | null
  | bool (b : Bool)
  /-- A number, as it is written. -/
  | number (literal : List Char)
  /-- A string. There is no text if it holds half of a surrogate pair. -/
  | string (text : Option (List Char))
  | array (items : List Json)
  | object (members : List (Option (List Char) × Json))
  deriving Inhabited

namespace Json

/-! ## Blanks and words -/

/-- The text from the first character on that is no blank. -/
def skipBlanks (text : List Char) : List Char := text.dropWhile Hex.isBlank

/-- The text after a fixed word. -/
def afterWord? : List Char → List Char → Option (List Char)
  | [], text => some text
  | w :: word, c :: text => if w = c then afterWord? word text else none
  | _ :: _, [] => none

/-! ## Numbers -/

/-- The digits that a text starts with, and the rest. -/
def takeDigits (text : List Char) : List Char × List Char :=
  (text.takeWhile Char.isDigit, text.dropWhile Char.isDigit)

/-- The digits before the point: a zero stands alone. -/
def wholePart? (text : List Char) : Option (List Char × List Char) :=
  match takeDigits text with
  | (['0'], rest) => some (['0'], rest)
  | ('0' :: _, _) => none
  | ([], _) => none
  | (ds, rest) => some (ds, rest)

/-- The point and the digits after it, if there is a point. -/
def fraction? : List Char → Option (List Char × List Char)
  | '.' :: text =>
    match takeDigits text with
    | ([], _) => none
    | (ds, rest) => some ('.' :: ds, rest)
  | text => some ([], text)

/-- The sign of an exponent. -/
def takeSign : List Char → List Char × List Char
  | '+' :: text => (['+'], text)
  | '-' :: text => (['-'], text)
  | text => ([], text)

/-- The exponent, if there is one. -/
def exponent? (text : List Char) : Option (List Char × List Char) :=
  match text with
  | c :: text' =>
    if c = 'e' ∨ c = 'E' then
      let (sign, rest) := takeSign text'
      match takeDigits rest with
      | ([], _) => none
      | (ds, rest) => some (c :: sign ++ ds, rest)
    else some ([], text)
  | [] => some ([], [])

/-- A number and what follows it. -/
def number? (text : List Char) : Option (List Char × List Char) := do
  let (sign, text) := match text with
    | '-' :: rest => (['-'], rest)
    | _ => ([], text)
  let (whole, text) ← wholePart? text
  let (fraction, text) ← fraction? text
  let (exponent, text) ← exponent? text
  return (sign ++ whole ++ fraction ++ exponent, text)

/-! ## Strings -/

/-- A unit of a string: a character, or half of a surrogate pair from an escape. -/
inductive Piece where
  | char (c : Char)
  | high (unit : Nat)
  | low (unit : Nat)

/-- The unit of an escape of four digits. -/
def Piece.ofUnit (unit : Nat) : Piece :=
  if 0xd800 ≤ unit ∧ unit < 0xdc00 then .high unit
  else if 0xdc00 ≤ unit ∧ unit < 0xe000 then .low unit
  else .char (Char.ofNat unit)

/-- The character of an escape with one letter. -/
def simpleEscape? : Char → Option Char
  | '"' => some '"'
  | '\\' => some '\\'
  | '/' => some '/'
  | 'b' => some '\x08'
  | 'f' => some '\x0c'
  | 'n' => some '\n'
  | 'r' => some '\r'
  | 't' => some '\t'
  | _ => none

/-- The pieces of a string up to its closing quote, and what follows the quote. -/
def pieces? : List Char → Option (List Piece × List Char)
  | [] => none
  | '"' :: rest => some ([], rest)
  | '\\' :: 'u' :: a :: b :: c :: d :: rest => do
    let a ← Hex.digit? a
    let b ← Hex.digit? b
    let c ← Hex.digit? c
    let d ← Hex.digit? d
    let (ps, rest) ← pieces? rest
    return (Piece.ofUnit (((a * 16 + b) * 16 + c) * 16 + d) :: ps, rest)
  | '\\' :: e :: rest => do
    let c ← simpleEscape? e
    let (ps, rest) ← pieces? rest
    return (.char c :: ps, rest)
  | c :: rest =>
    if c.toNat < 0x20 ∨ c = '\\' then none
    else do
      let (ps, rest) ← pieces? rest
      return (.char c :: ps, rest)

/-- The text of a string. A pair of surrogates is one character; half of one is none. -/
def joinPieces : List Piece → Option (List Char)
  | [] => some []
  | .char c :: rest => (joinPieces rest).map (c :: ·)
  | .high h :: .low l :: rest =>
    (joinPieces rest).map (Char.ofNat (0x10000 + (h - 0xd800) * 0x400 + (l - 0xdc00)) :: ·)
  | _ => none

/-! ## Documents -/

mutual

/-- The value that a text starts with, and what follows it. Each level of nesting uses one unit of
    `fuel`, and so does each element. -/
def value? (fuel : Nat) (text : List Char) : Option (Json × List Char) :=
  match fuel with
  | 0 => none
  | fuel + 1 =>
    match skipBlanks text with
    | 'n' :: rest => (afterWord? ['u', 'l', 'l'] rest).map (null, ·)
    | 't' :: rest => (afterWord? ['r', 'u', 'e'] rest).map (bool true, ·)
    | 'f' :: rest => (afterWord? ['a', 'l', 's', 'e'] rest).map (bool false, ·)
    | '"' :: rest => (pieces? rest).map fun (ps, rest) => (string (joinPieces ps), rest)
    | '[' :: rest =>
      match skipBlanks rest with
      | ']' :: rest => some (array [], rest)
      | _ => (items? fuel rest).map fun (vs, rest) => (array vs, rest)
    | '{' :: rest =>
      match skipBlanks rest with
      | '}' :: rest => some (object [], rest)
      | _ => (members? fuel rest).map fun (ms, rest) => (object ms, rest)
    | text => (number? text).map fun (literal, rest) => (number literal, rest)

/-- The elements of an array that has some, up to its closing bracket. -/
def items? (fuel : Nat) (text : List Char) : Option (List Json × List Char) :=
  match fuel with
  | 0 => none
  | fuel + 1 => do
    let (v, rest) ← value? fuel text
    match skipBlanks rest with
    | ',' :: rest => do
      let (vs, rest) ← items? fuel rest
      return (v :: vs, rest)
    | ']' :: rest => return ([v], rest)
    | _ => none

/-- The members of an object that has some, up to its closing brace. -/
def members? (fuel : Nat) (text : List Char) :
    Option (List (Option (List Char) × Json) × List Char) :=
  match fuel with
  | 0 => none
  | fuel + 1 =>
    match skipBlanks text with
    | '"' :: rest => do
      let (ps, rest) ← pieces? rest
      match skipBlanks rest with
      | ':' :: rest => do
        let (v, rest) ← value? fuel rest
        match skipBlanks rest with
        | ',' :: rest => do
          let (ms, rest) ← members? fuel rest
          return ((joinPieces ps, v) :: ms, rest)
        | '}' :: rest => return ([(joinPieces ps, v)], rest)
        | _ => none
      | _ => none
    | _ => none

end

/-- The document that a text is, with blanks around it. Every level and every element takes at least
    one character, so the length of the text bounds the nesting. -/
def parse? (text : List Char) : Option Json :=
  match value? (2 * text.length + 2) text with
  | some (v, rest) => if (skipBlanks rest).isEmpty then some v else none
  | none => none

/-! ## Readers -/

/-- The value of a decimal digit. -/
def digitValue (c : Char) : Nat := c.toNat - '0'.toNat

/-- An amount: an integer below `2 ^ 64`, written without sign, point or exponent. -/
def toNat64? : Json → Option Nat
  | number literal =>
    let n := literal.foldl (fun acc c => acc * 10 + digitValue c) 0
    if literal.all Char.isDigit ∧ n < 0x10000000000000000 then some n else none
  | _ => none

/-- The text of a string. -/
def toText? : Json → Option (List Char)
  | string text => text
  | _ => none

/-- The values of a record with the given field names. A record is an object, in which a known field
    stands at most once and other members do not count, or an array of the first fields in order. -/
def fields? (names : List String) : Json → Option (List (Option Json))
  | array items =>
    if items.length ≤ names.length then
      some (items.map some ++ List.replicate (names.length - items.length) none)
    else none
  | object members => do
    guard (members.all (·.1.isSome))
    names.mapM fun name =>
      match members.filter (fun m => m.1 == some name.toList) with
      | [] => some none
      | [(_, v)] => some (some v)
      | _ => none
  | _ => none

end Json

end MeteredEvm
