import MeteredEvm.Keccak
import MeteredEvm.Machine

/-!
# `MeteredEvm.Effect.Words` — instructions that compute words

The instructions that take words off the stack and put one back, among them the two whose price
depends on an operand: the exponent of a power and the length of a hashed range.

## Contents
* `Effect.unary`, `Effect.binary`, `Effect.ternary`, `Effect.exp`, `Effect.keccak256`.
-/

namespace MeteredEvm.Effect

open Exec

variable {σ : Type}

/-- Replace the top word by a function of it. -/
def unary (f : Word → Word) : Exec σ Unit := do
  let a ← top
  setTop (f a)

/-- Replace the two top words by a function of them. -/
def binary (f : Word → Word → Word) : Exec σ Unit := do
  let a ← pop
  let b ← top
  setTop (f a b)

/-- Replace the three top words by a function of them. -/
def ternary (f : Word → Word → Word → Word) : Exec σ Unit := do
  let a ← pop
  let b ← pop
  let c ← top
  setTop (f a b c)

/-- A power. The exponent is paid for by its length before the power is taken. -/
def exp (s : Setting σ) : Exec σ Unit := do
  let base ← pop
  let exponent ← top
  charge (s.schedule.exp exponent)
  setTop (base.power exponent.toNat)

/-- The hash of a range of memory. -/
def keccak256 : Exec σ Unit := do
  let offset ← pop
  let len ← top
  let range ← cover offset len
  charge (Gas.keccak (rangeSize range))
  let bytes ← readRange range
  setTop (Keccak.digest bytes)

end MeteredEvm.Effect
