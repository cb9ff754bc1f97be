import MeteredEvm.Word
import MeteredEvm.Fault

/-!
# `MeteredEvm.Stack` — the operand stack

A stack is a store of 1024 words and a height. The words below the height are on the stack; those
from the height on are left over from earlier, since nothing is wiped when a word is taken off.

The checked operations (`push`, `pop`, …) are computations on a stack, which fault where they do not
apply. The others (`push?`, `pop?`, …) check nothing and answer `none` where they would leave the
store. Instructions use the second kind: the block entry has already checked the height.

## Contents
* `Stack`, `Stack.empty`, `Stack.words`, `Stack.toList`, `Stack.clear`.
* `Stack.push?`, `Stack.pop?`, `Stack.peek?`, `Stack.dup?`, `Stack.swap?`, `Stack.setTop?`.
* `Stack.Act` and `Stack.push`, `Stack.pop`, `Stack.peek`, `Stack.dup`, `Stack.swap`,
  `Stack.pushU64`, `Stack.popU64` — the checked forms.
* `Stack.text` — the words in decimal, bottom first.
-/

namespace MeteredEvm

/-- The largest height of a stack. -/
abbrev stackLimit : Nat := 1024

/-- A stack of words. -/
structure Stack where
  /-- The store, bottom first. -/
  slots : Vector Word stackLimit
  /-- Number of words on the stack. -/
  height : Nat
  /-- A stack never outgrows its store. -/
  height_le : height ≤ stackLimit

namespace Stack

/-- The stack without words. -/
def empty : Stack := ⟨.replicate stackLimit 0#256, 0, Nat.zero_le _⟩

instance : Inhabited Stack := ⟨empty⟩

/-- The words on the stack, bottom first. -/
def words (s : Stack) : Array Word := s.slots.toArray.extract 0 s.height

/-- The words on the stack, top first. -/
def toList (s : Stack) : List Word := s.words.toList.reverse

/-- The stack with all words taken off. -/
def clear (s : Stack) : Stack := ⟨s.slots, 0, Nat.zero_le _⟩

theorem sub_lt_limit (s : Stack) (h : 0 < s.height) (n : Nat) : s.height - 1 - n < stackLimit :=
  Nat.lt_of_lt_of_le (by omega) s.height_le

/-! ## Operations that do not check -/

/-- The stack with `w` on top. -/
def push? (s : Stack) (w : Word) : Option Stack :=
  if h : s.height < stackLimit then some ⟨s.slots.set s.height w, s.height + 1, h⟩ else none

/-- The top and the rest. -/
def pop? (s : Stack) : Option (Word × Stack) :=
  if h : 0 < s.height then
    have hlt := s.sub_lt_limit h 0
    some (s.slots[s.height - 1], ⟨s.slots, s.height - 1, Nat.le_of_lt hlt⟩)
  else none

/-- The word `n` places below the top. -/
def peek? (s : Stack) (n : Nat) : Option Word :=
  if h : n < s.height then
    have hlt := s.sub_lt_limit (Nat.zero_lt_of_lt h) n
    some s.slots[s.height - 1 - n]
  else none

/-- The stack with its `n`-th word from the top, counted from one, on top again. For `n = 0` that is
    the leftover word above the top. -/
def dup? (s : Stack) (n : Nat) : Option Stack :=
  if h : n ≤ s.height ∧ s.height < stackLimit then
    have hlt : s.height - n < stackLimit := Nat.lt_of_le_of_lt (Nat.sub_le ..) h.2
    some ⟨s.slots.set s.height s.slots[s.height - n] h.2, s.height + 1, h.2⟩
  else none

/-- The stack with its top exchanged for the word `n` places below it. -/
def swap? (s : Stack) (n : Nat) : Option Stack :=
  if h : n < s.height then
    have hpos := Nat.zero_lt_of_lt h
    some ⟨s.slots.swap (s.height - 1) (s.height - 1 - n) (s.sub_lt_limit hpos 0)
      (s.sub_lt_limit hpos n), s.height, s.height_le⟩
  else none

/-- The stack with its top replaced. -/
def setTop? (s : Stack) (w : Word) : Option Stack :=
  if h : 0 < s.height then
    some ⟨s.slots.set (s.height - 1) w (s.sub_lt_limit h 0), s.height, s.height_le⟩
  else none

/-! ## Checked operations -/

/-- A computation on a stack. A failure keeps the stack that was reached. -/
abbrev Act := EStateM Failure Stack

/-- Put a word on top. -/
def push (w : Word) : Act Unit := fun s =>
  if h : s.height = stackLimit then .error (.fault .stackOverflow) s
  else
    have hlt := Nat.lt_of_le_of_ne s.height_le h
    .ok () ⟨s.slots.set s.height w, s.height + 1, hlt⟩

/-- Take the top word off. -/
def pop : Act Word := fun s =>
  if h : s.height = 0 then .error (.fault .stackUnderflow) s
  else
    have hlt := s.sub_lt_limit (Nat.pos_of_ne_zero h) 0
    .ok s.slots[s.height - 1] ⟨s.slots, s.height - 1, Nat.le_of_lt hlt⟩

/-- Look at the word `n` places below the top. -/
def peek (n : Nat) : Act Word := fun s =>
  if h : s.height ≤ n then .error (.fault .stackUnderflow) s
  else
    have hlt := s.sub_lt_limit (Nat.zero_lt_of_lt (Nat.lt_of_not_le h)) n
    .ok s.slots[s.height - 1 - n] s

/-- Repeat the `n`-th word from the top, counted from one. A missing word is reported before a
    full stack. -/
def dup (n : Nat) : Act Unit := fun s =>
  if n = 0 ∨ s.height < n then .error (.fault .stackUnderflow) s
  else if h : s.height = stackLimit then .error (.fault .stackOverflow) s
  else
    have hlt := Nat.lt_of_le_of_ne s.height_le h
    have hfrom : s.height - n < stackLimit := Nat.lt_of_le_of_lt (Nat.sub_le ..) hlt
    .ok () ⟨s.slots.set s.height s.slots[s.height - n], s.height + 1, hlt⟩

/-- Exchange the top with the word `n` places below it. The height that this needs is a 64-bit
    sum. -/
def swap (n : Nat) : Act Unit := fun s =>
  if n = 0 then .error (.fault .stackUnderflow) s
  else if u64Size ≤ n + 1 then .error (.trap .arithmetic) s
  else if h : s.height < n + 1 then .error (.fault .stackUnderflow) s
  else
    have hpos : 0 < s.height := Nat.zero_lt_of_lt (Nat.le_of_not_lt h)
    .ok () ⟨s.slots.swap (s.height - 1) (s.height - 1 - n) (s.sub_lt_limit hpos 0)
      (s.sub_lt_limit hpos n), s.height, s.height_le⟩

/-- Put a 64-bit number on top. -/
def pushU64 (n : UInt64) : Act Unit := push (BitVec.ofNat 256 n.toNat)

/-- Take the top word off and keep its low 64 bits. -/
def popU64 : Act UInt64 := do return .ofNat (← pop).lowU64

/-- The words in decimal, bottom first. -/
def text (s : Stack) : String :=
  "[" ++ ", ".intercalate (s.words.toList.map fun w => toString w.toNat) ++ "]"

end Stack

end MeteredEvm
