/-!
# `MeteredEvm.Fork` — protocol versions and the rules they switch on

A fork is a version of the protocol. Which instructions exist, what they cost and how accounts
behave follows from a set of switches, each of which is off before some fork and on from it on.

## Contents
* `Fork`, `Fork.all`, `Fork.index`, `Fork.name`, `Fork.ofName?`, `Fork.label`.
* `Rules`, `Fork.rules`.
-/

namespace MeteredEvm

/-- A protocol version, oldest first. -/
inductive Fork where
  | frontier
  | homestead
  | tangerineWhistle
  | spuriousDragon
  | byzantium
  | constantinople
  | petersburg
  | istanbul
  | berlin
  | london
  | merge
  | shanghai
  | cancun
  deriving DecidableEq, Repr, Inhabited

namespace Fork

/-- Every fork, oldest first. -/
def all : List Fork :=
  [frontier, homestead, tangerineWhistle, spuriousDragon, byzantium, constantinople, petersburg,
   istanbul, berlin, london, merge, shanghai, cancun]

/-- The place of a fork in the order of versions. -/
def index : Fork → Nat
  | frontier => 0
  | homestead => 1
  | tangerineWhistle => 2
  | spuriousDragon => 3
  | byzantium => 4
  | constantinople => 5
  | petersburg => 6
  | istanbul => 7
  | berlin => 8
  | london => 9
  | merge => 10
  | shanghai => 11
  | cancun => 12

/-- Whether a fork is `first` or a later one. -/
def since (fork first : Fork) : Bool := decide (first.index ≤ fork.index)

/-- The name of a fork in configuration files. -/
def name : Fork → String
  | frontier => "frontier"
  | homestead => "homestead"
  | tangerineWhistle => "tangerine_whistle"
  | spuriousDragon => "spurious_dragon"
  | byzantium => "byzantium"
  | constantinople => "constantinople"
  | petersburg => "petersburg"
  | istanbul => "istanbul"
  | berlin => "berlin"
  | london => "london"
  | merge => "merge"
  | shanghai => "shanghai"
  | cancun => "cancun"

/-- The fork with a name. -/
def ofName? (text : String) : Option Fork := all.find? fun fork => fork.name == text

/-- The name of a fork in listings. -/
def label : Fork → String
  | frontier => "Frontier"
  | homestead => "Homestead"
  | tangerineWhistle => "TangerineWhistle"
  | spuriousDragon => "SpuriousDragon"
  | byzantium => "Byzantium"
  | constantinople => "Constantinople"
  | petersburg => "Petersburg"
  | istanbul => "Istanbul"
  | berlin => "Berlin"
  | london => "London"
  | merge => "Merge"
  | shanghai => "Shanghai"
  | cancun => "Cancun"

end Fork

/-- The switches that instructions and prices depend on. -/
structure Rules where
  /-- `DELEGATECALL` exists. -/
  delegateCall : Bool
  /-- Repriced state access, and a call keeps back one 64th of the gas. -/
  allButOne64th : Bool
  /-- An account without code, nonce and balance counts as absent. -/
  emptyAccountRule : Bool
  /-- `EXP` pays 50 for an exponent byte. -/
  expensiveExp : Bool
  /-- Deployed code has a size limit. -/
  codeSizeLimit : Bool
  /-- `REVERT`, `STATICCALL` and the return data instructions exist. -/
  byzantiumOpcodes : Bool
  /-- The shift instructions exist. -/
  bitwiseShifts : Bool
  /-- `CREATE2` exists. -/
  create2 : Bool
  /-- `EXTCODEHASH` exists. -/
  extCodeHash : Bool
  /-- `CHAINID` and `SELFBALANCE` exist. -/
  istanbulOpcodes : Bool
  /-- A storage write is priced by its net effect. -/
  netSstore : Bool
  /-- First accesses cost more than later ones. -/
  accessLists : Bool
  /-- `BASEFEE` exists. -/
  baseFee : Bool
  /-- Smaller refunds. -/
  reducedRefunds : Bool
  /-- `PUSH0` exists. -/
  push0 : Bool
  /-- Init code has a size limit and a price. -/
  initCodeLimit : Bool
  /-- `TLOAD` and `TSTORE` exist. -/
  transientStorage : Bool
  /-- `MCOPY` exists. -/
  mcopy : Bool
  /-- `BLOBHASH` and `BLOBBASEFEE` exist. -/
  blobOpcodes : Bool
  deriving DecidableEq, Repr, Inhabited

/-- The rules of a fork. -/
def Fork.rules (fork : Fork) : Rules where
  delegateCall := fork.since .homestead
  allButOne64th := fork.since .tangerineWhistle
  emptyAccountRule := fork.since .spuriousDragon
  expensiveExp := fork.since .spuriousDragon
  codeSizeLimit := fork.since .spuriousDragon
  byzantiumOpcodes := fork.since .byzantium
  bitwiseShifts := fork.since .constantinople
  create2 := fork.since .constantinople
  extCodeHash := fork.since .constantinople
  istanbulOpcodes := fork.since .istanbul
  netSstore := fork.since .istanbul
  accessLists := fork.since .berlin
  baseFee := fork.since .london
  reducedRefunds := fork.since .london
  push0 := fork.since .shanghai
  initCodeLimit := fork.since .shanghai
  transientStorage := fork.since .cancun
  mcopy := fork.since .cancun
  blobOpcodes := fork.since .cancun

end MeteredEvm
