import Std.Data.TreeMap
import MeteredEvm.Code.Analysis

/-!
# `MeteredEvm.Code.Cache` — analyses that are kept

Analysing code again gives the same answer, so answers are kept by code hash and fork. The cache has
a capacity; when it is full, the analysis that has been kept longest goes. A look-up that finds its
answer changes nothing.

## Contents
* `Cache.Key`, `Cache.Kept`, `Cache`, `Cache.new`.
* `Cache.get?`, `Cache.getOrAnalyze`, `Cache.clear`, `Cache.size`.
-/

namespace MeteredEvm

/-- What an analysis is kept under. -/
structure Cache.Key where
  /-- Hash of the code. -/
  hash : Hash
  /-- The fork it is analysed for. -/
  fork : Fork
  deriving DecidableEq, Inhabited

/-- Keys are ordered by hash, then by fork. -/
instance : Ord Cache.Key where
  compare := compareLex (compareOn (·.hash)) (compareOn (·.fork.index))

/-- An analysis with the number of analyses made before it. -/
structure Cache.Kept where
  /-- How many analyses were made before. -/
  serial : Nat
  /-- The analysis. -/
  analysis : Analysis

/-- A cache of analyses. -/
structure Cache where
  /-- How many analyses are kept at most. -/
  capacity : Nat
  /-- The analyses. -/
  kept : Std.TreeMap Cache.Key Cache.Kept
  /-- The keys of the analyses, the one kept longest first. -/
  order : List Cache.Key
  /-- Number of analyses made so far. -/
  made : Nat

namespace Cache

/-- An empty cache. It can keep at least one analysis. -/
def new (capacity : Nat) : Cache := { capacity := max capacity 1, kept := {}, order := [], made := 0 }

/-- Number of analyses kept. -/
def size (c : Cache) : Nat := c.kept.size

/-- The analysis kept for a code hash and fork. -/
def get? (c : Cache) (key : Key) : Option Kept := c.kept.get? key

/-- Drop what has been kept longest until there is room for one more. -/
def makeRoom (capacity : Nat) (kept : Std.TreeMap Key Kept) :
    List Key → Std.TreeMap Key Kept × List Key
  | [] => (kept, [])
  | oldest :: order =>
    if capacity ≤ kept.size then makeRoom capacity (kept.erase oldest) order
    else (kept, oldest :: order)

/-- Keep an analysis under a new key. -/
def insert (c : Cache) (key : Key) (analysis : Analysis) : Cache :=
  let (kept, order) := makeRoom c.capacity c.kept c.order
  { c with
    kept := kept.insert key { serial := c.made, analysis }
    order := order ++ [key]
    made := c.made + 1 }

/-- The analysis of a code: the one that is kept, or a new one that is kept from now on. -/
def getOrAnalyze (c : Cache) (is : InstructionSet) (code : ByteArray) : Kept × Cache :=
  let key : Key := { hash := Blake3.digest code, fork := is.fork }
  match c.get? key with
  | some hit => (hit, c)
  | none =>
    let fresh := analyze is code
    ({ serial := c.made, analysis := fresh }, c.insert key fresh)

/-- Drop everything. -/
def clear (c : Cache) : Cache := { c with kept := {}, order := [] }

end Cache

end MeteredEvm
