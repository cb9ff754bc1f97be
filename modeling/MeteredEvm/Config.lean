import MeteredEvm.Fork
import MeteredEvm.Json
import MeteredEvm.Memory

/-!
# `MeteredEvm.Config` — configuration of the machine

## Contents
* `Config`, with its defaults.
* `ConfigError`, `ConfigError.message`, `Config.validate` — which configurations are accepted.
* `Config.ofJson` — reading a configuration.
-/

namespace MeteredEvm

/-- How a machine is set up. -/
structure Config where
  /-- The protocol version. -/
  fork : Fork := .cancun
  /-- Depth at which frames make no further calls. -/
  maxCallDepth : Nat := 1024
  /-- How many analyses are kept. -/
  cacheCapacity : Nat := 4096
  /-- Largest size of a memory view. -/
  memoryLimit : Nat := Memory.defaultLimit
  deriving DecidableEq, Repr, Inhabited

/-- Why a configuration is refused. -/
inductive ConfigError where
  /-- The text is no configuration. -/
  | malformed
  | zeroCallDepth
  | zeroCacheCapacity
  | zeroMemoryLimit
  deriving DecidableEq, Repr

/-- The text of a refusal. -/
def ConfigError.message : ConfigError → String
  | malformed => "malformed configuration"
  | zeroCallDepth => "invalid config: max_call_depth must be at least 1"
  | zeroCacheCapacity => "invalid config: analysis_cache_capacity must be at least 1"
  | zeroMemoryLimit => "invalid config: memory_limit must be non-zero"

namespace Config

/-- Refuse a configuration that no machine can run with. -/
def validate (c : Config) : Except ConfigError Config :=
  if c.maxCallDepth = 0 then .error .zeroCallDepth
  else if c.cacheCapacity = 0 then .error .zeroCacheCapacity
  else if c.memoryLimit = 0 then .error .zeroMemoryLimit
  else .ok c

/-- A fork: its name, or an object with the name as its only member and no value. -/
def readFork? : Json → Option Fork
  | .string (some text) => Fork.ofName? (String.ofList text)
  | .object [(some text, .null)] => Fork.ofName? (String.ofList text)
  | _ => none

/-- A field that may be missing. -/
def readOr {α : Type} (default : α) (read : Json → Option α) : Option Json → Option α
  | none => some default
  | some v => read v

/-- The configuration that a document describes; what it leaves open has the default value. -/
def read? (doc : Json) : Option Config := do
  let fields ← doc.fields? ["hardfork", "max_call_depth", "analysis_cache_capacity", "memory_limit"]
  match fields with
  | [fork, depth, capacity, limit] => do
    let fork ← readOr .cancun readFork? fork
    let depth ← readOr 1024 Json.toNat64? depth
    let capacity ← readOr 4096 Json.toNat64? capacity
    let limit ← readOr Memory.defaultLimit Json.toNat64? limit
    return { fork, maxCallDepth := depth, cacheCapacity := capacity, memoryLimit := limit }
  | _ => none

/-- Read and check a configuration. -/
def ofJson (text : String) : Except ConfigError Config :=
  match (Json.parse? text.toList).bind read? with
  | some c => c.validate
  | none => .error .malformed

end Config

end MeteredEvm
