import Mathlib.Data.List.DropRight
import Mathlib.Data.List.Nodup
import Mathlib.Data.Set.Function
import MeteredEvm.Frame

/-!
# `MeteredEvm.Proofs.CachedAnalyses` — a cache that nobody notices

A cache keeps its analyses in a map and the keys of the map in a queue. The two stay in step: the queue
is a list of the keys of the map (`Cache.InStep`), and it is the end of the list of all keys that were
asked for in vain since the cache was emptied (`Cache.Tracks`). What is kept under a key was made from
a code with the hash of the key, so as long as no two codes share a hash, an answer is the analysis of
the code that was asked for, and a run does not depend on what the cache holds.

## Contents
* `Cache.InStep`, `Cache.makeRoom_spec` — map and queue, and making room in both.
* `Cache.Request`, `Cache.serve`, `Cache.serveAll`, `Cache.misses` — histories of a cache.
* `Cache.Tracks`, `Cache.Tracks.serve`, `Cache.Tracks.serveAll` — the invariant of a history.
* `cache_transparent_fifo`.
-/

namespace MeteredEvm

namespace Cache

/-! ## Keys -/

theorem fork_index_injective : Function.Injective Fork.index := by
  intro a b h
  cases a <;> cases b <;> first | rfl | cases h

instance : Std.TransOrd Key :=
  inferInstanceAs (Std.TransCmp (compareLex (compareOn Key.hash) (compareOn fun k => k.fork.index)))

instance : Std.LawfulEqOrd Key where
  eq_of_compare {a b} h := by
    have h : compareLex (compareOn Key.hash) (compareOn fun k => k.fork.index) a b = .eq := h
    rw [compareLex_eq_eq] at h
    obtain ⟨hash, fork⟩ := a
    obtain ⟨hash', fork'⟩ := b
    have hhash : hash = hash' := Std.LawfulEqOrd.eq_of_compare h.1
    have hindex : fork.index = fork'.index := Std.LawfulEqOrd.eq_of_compare h.2
    rw [hhash, fork_index_injective hindex]

/-! ## Map and queue -/

/-- **Map and queue are in step**: the queue holds every key of the map, once, and no other key. -/
structure InStep (kept : Std.TreeMap Key Kept) (order : List Key) : Prop where
  nodup : order.Nodup
  mem_iff : ∀ key, key ∈ order ↔ key ∈ kept

namespace InStep

variable {kept : Std.TreeMap Key Kept} {order : List Key} {oldest key : Key}

theorem nil : InStep {} [] where
  nodup := .nil
  mem_iff key := by simp

/-- The queue is as long as the map is large. -/
theorem length_eq (h : InStep kept order) : order.length = kept.size := by
  have hperm : order.Perm kept.keys := by
    rw [List.perm_ext_iff_of_nodup h.nodup Std.TreeMap.nodup_keys]
    intro key
    rw [h.mem_iff, Std.TreeMap.mem_keys]
  rw [hperm.length_eq, Std.TreeMap.length_keys]

/-- Dropping the head of the queue. -/
theorem erase (h : InStep kept (oldest :: order)) : InStep (kept.erase oldest) order where
  nodup := h.nodup.of_cons
  mem_iff key := by
    have hmem := h.mem_iff key
    have hhead := (List.nodup_cons.1 h.nodup).1
    rw [Std.TreeMap.mem_erase, ← hmem, List.mem_cons, ne_eq, Std.LawfulEqCmp.compare_eq_iff_eq]
    constructor
    · intro hkey
      refine ⟨?_, .inr hkey⟩
      rintro rfl
      exact hhead hkey
    · rintro ⟨hne, rfl | hkey⟩
      · exact absurd rfl hne
      · exact hkey

/-- Putting a new key at the end. -/
theorem insert (h : InStep kept order) (hkey : key ∉ order) (value : Kept) :
    InStep (kept.insert key value) (order ++ [key]) where
  nodup := by
    rw [List.nodup_append]
    refine ⟨h.nodup, List.nodup_singleton key, ?_⟩
    rintro a ha b hb rfl
    rw [List.mem_singleton] at hb
    exact hkey (hb ▸ ha)
  mem_iff other := by
    rw [List.mem_append, List.mem_singleton, Std.TreeMap.mem_insert, h.mem_iff,
      Std.LawfulEqCmp.compare_eq_iff_eq, or_comm, eq_comm]

end InStep

/-- **Making room** drops from both the keys that came first, and keeps what is left as it was. -/
theorem makeRoom_spec {n : Nat} {kept : Std.TreeMap Key Kept} {order : List Key} (hn : 0 < n)
    (h : InStep kept order) :
    (makeRoom n kept order).2 = order.rtake (n - 1) ∧
      InStep (makeRoom n kept order).1 (makeRoom n kept order).2 ∧
      ∀ key ∈ (makeRoom n kept order).2, (makeRoom n kept order).1[key]? = kept[key]? := by
  induction order generalizing kept with
  | nil => exact ⟨(List.rtake_nil _).symm, h, fun key _ => rfl⟩
  | cons oldest order ih =>
      have hlength := h.length_eq
      rw [List.length_cons] at hlength
      unfold makeRoom
      by_cases hfull : n ≤ kept.size
      · rw [if_pos hfull]
        obtain ⟨hqueue, hstep, hsame⟩ := ih h.erase
        refine ⟨?_, hstep, ?_⟩
        · rw [hqueue]
          unfold List.rtake
          rw [List.length_cons, show order.length + 1 - (n - 1) = order.length - (n - 1) + 1 by omega,
            List.drop_succ_cons]
        · intro key hkey
          rw [hsame key hkey, Std.TreeMap.getElem?_erase, if_neg]
          rw [Std.LawfulEqCmp.compare_eq_iff_eq]
          rintro rfl
          rw [hqueue] at hkey
          exact (List.nodup_cons.1 h.nodup).1 (List.mem_of_mem_drop hkey)
      · rw [if_neg hfull]
        refine ⟨?_, h, fun key _ => rfl⟩
        unfold List.rtake
        rw [List.length_cons, show order.length + 1 - (n - 1) = 0 by omega, List.drop_zero]

/-! ## Histories -/

/-- The key that the analysis of a code is kept under. -/
def keyOf (fork : Fork) (code : ByteArray) : Key := { hash := Blake3.digest code, fork }

/-- What a cache can be asked. -/
inductive Request where
  /-- For the analysis of a code, which is made if it is not kept. -/
  | analysis (fork : Fork) (code : ByteArray)
  /-- For the analysis that is kept under a key, if there is one. -/
  | lookup (key : Key)
  /-- To drop everything. -/
  | clear

/-- The answer to a request, and the cache after it. -/
def serve (c : Cache) : Request → Option Kept × Cache
  | .analysis fork code =>
    let (kept, c) := c.getOrAnalyze (.ofFork fork) code
    (some kept, c)
  | .lookup key => (c.get? key, c)
  | .clear => (none, c.clear)

/-- The answers to one request after the other, and the cache after them. -/
def serveAll (c : Cache) : List Request → List (Option Kept) × Cache
  | [] => ([], c)
  | r :: rs =>
    let (answer, c) := c.serve r
    let (answers, c) := c.serveAll rs
    (answer :: answers, c)

/-- The keys that have missed since the last clearing, in order, after one more request. -/
def missedAfter (c : Cache) (missed : List Key) : Request → List Key
  | .analysis fork code =>
    if (c.get? (keyOf fork code)).isNone then missed ++ [keyOf fork code] else missed
  | .lookup _ => missed
  | .clear => []

/-- The keys that have missed since the last clearing, in order, after requests to a cache for which
    `missed` have missed before. -/
def misses (c : Cache) (missed : List Key) : List Request → List Key
  | [] => missed
  | r :: rs => misses (c.serve r).2 (c.missedAfter missed r) rs

section Asking

variable {c : Cache} {fork : Fork} {code : ByteArray}

/-- A hit changes nothing. -/
theorem getOrAnalyze_of_some {kept : Kept} (h : c.get? (keyOf fork code) = some kept) :
    c.getOrAnalyze (.ofFork fork) code = (kept, c) := by
  have h : c.get? ⟨Blake3.digest code, (InstructionSet.ofFork fork).fork⟩ = some kept := h
  simp only [getOrAnalyze, h]

/-- A miss makes the analysis and keeps it. -/
theorem getOrAnalyze_of_none (h : c.get? (keyOf fork code) = none) :
    c.getOrAnalyze (.ofFork fork) code =
      (⟨c.made, analyze (.ofFork fork) code⟩,
        c.insert (keyOf fork code) (analyze (.ofFork fork) code)) := by
  have hnone : c.get? ⟨Blake3.digest code, (InstructionSet.ofFork fork).fork⟩ = none := h
  simp only [getOrAnalyze, hnone]
  rfl

end Asking

/-! ## The invariant -/

/-- What is kept under a key is the analysis of one of the codes with that hash. -/
def Genuine (codes : Set ByteArray) (key : Key) (kept : Kept) : Prop :=
  ∃ code ∈ codes, Blake3.digest code = key.hash ∧ kept.analysis = analyze (.ofFork key.fork) code

/-- **The cache after a history** of requests for some codes, in which the keys `missed` have missed
    since the last clearing: it has the last of them, at most `n`. -/
structure Tracks (codes : Set ByteArray) (n : Nat) (missed : List Key) (c : Cache) : Prop where
  capacity : c.capacity = n
  inStep : InStep c.kept c.order
  order : c.order = missed.rtake n
  genuine : ∀ key kept, c.get? key = some kept → Genuine codes key kept

namespace Tracks

variable {codes : Set ByteArray} {n : Nat} {missed : List Key} {c : Cache} {fork : Fork}
  {code : ByteArray}

theorem new (codes : Set ByteArray) (capacity : Nat) :
    Tracks codes (max capacity 1) [] (Cache.new capacity) where
  capacity := rfl
  inStep := .nil
  order := (List.rtake_nil _).symm
  genuine key kept h := by
    have h : (∅ : Std.TreeMap Key Kept)[key]? = some kept := h
    rw [Std.TreeMap.getElem?_emptyc] at h
    cases h

theorem clear (h : Tracks codes n missed c) : Tracks codes n [] c.clear where
  capacity := h.capacity
  inStep := .nil
  order := (List.rtake_nil _).symm
  genuine := (new codes n).genuine

/-- No more than `n` analyses are kept. -/
theorem size_le (h : Tracks codes n missed c) : c.size ≤ n := by
  have hlength := h.inStep.length_eq
  rw [h.order] at hlength
  unfold size
  rw [← hlength]
  unfold List.rtake
  rw [List.length_drop]
  omega

/-- A key is in the queue exactly if something is kept under it. -/
theorem mem_order_iff (h : Tracks codes n missed c) (key : Key) :
    key ∈ c.order ↔ (c.get? key).isSome = true := by
  rw [h.inStep.mem_iff, Std.TreeMap.mem_iff_isSome_getElem?]
  rfl

/-- **A new key** takes the last place, and where there was no room, the first one leaves. -/
theorem insert (h : Tracks codes n missed c) (hn : 0 < n)
    (hmiss : c.get? (keyOf fork code) = none) (hcode : code ∈ codes) :
    Tracks codes n (missed ++ [keyOf fork code])
      (c.insert (keyOf fork code) (analyze (.ofFork fork) code)) := by
  obtain ⟨hqueue, hstep, hsame⟩ := makeRoom_spec hn h.inStep
  have hnew : keyOf fork code ∉ (makeRoom n c.kept c.order).2 := by
    intro hmem
    rw [hqueue] at hmem
    have hkept := (h.mem_order_iff _).1 (List.mem_of_mem_drop hmem)
    rw [hmiss] at hkept
    cases hkept
  unfold Cache.insert
  rw [h.capacity]
  exact
    { capacity := rfl
      inStep := hstep.insert hnew _
      order := by
        show (makeRoom n c.kept c.order).2 ++ [keyOf fork code] = _
        obtain ⟨k, rfl⟩ : ∃ k, n = k + 1 := ⟨n - 1, by omega⟩
        rw [hqueue, List.rtake_concat_succ, h.order]
        unfold List.rtake
        rw [List.length_drop, List.drop_drop]
        congr 2
        omega
      genuine := fun key kept hkept => by
        have hkept : ((makeRoom n c.kept c.order).1.insert (keyOf fork code)
            ⟨c.made, analyze (.ofFork fork) code⟩)[key]? = some kept := hkept
        rw [Std.TreeMap.getElem?_insert] at hkept
        split at hkept
        · rename_i heq
          cases hkept
          rw [Std.LawfulEqCmp.compare_eq_iff_eq] at heq
          subst heq
          exact ⟨code, hcode, rfl, rfl⟩
        · -- what is kept besides was kept before
          have hmem : key ∈ (makeRoom n c.kept c.order).2 := by
            rw [hstep.mem_iff, Std.TreeMap.mem_iff_isSome_getElem?, hkept]
            rfl
          rw [hsame key hmem] at hkept
          exact h.genuine key kept hkept }

/-- **Every request keeps to the invariant.** -/
theorem serve (h : Tracks codes n missed c) (hn : 0 < n) {r : Request}
    (hcode : ∀ fork code, r = .analysis fork code → code ∈ codes) :
    Tracks codes n (c.missedAfter missed r) (c.serve r).2 := by
  cases r with
  | clear => exact h.clear
  | lookup key => exact h
  | analysis fork code =>
      unfold missedAfter Cache.serve
      cases hget : c.get? (keyOf fork code) with
      | some kept =>
          simp only [hget, getOrAnalyze_of_some hget]
          exact h
      | none =>
          simp only [hget, getOrAnalyze_of_none hget]
          exact h.insert hn hget (hcode fork code rfl)

/-- So does a history. -/
theorem serveAll (h : Tracks codes n missed c) (hn : 0 < n) {rs : List Request}
    (hcode : ∀ fork code, .analysis fork code ∈ rs → code ∈ codes) :
    Tracks codes n (c.misses missed rs) (c.serveAll rs).2 := by
  induction rs generalizing missed c with
  | nil => exact h
  | cons r rs ih =>
      have hhead : ∀ fork code, r = .analysis fork code → code ∈ codes := by
        rintro fork code rfl
        exact hcode fork code List.mem_cons_self
      exact ih (h.serve hn hhead) fun fork code hmem => hcode fork code (List.mem_cons_of_mem _ hmem)

/-- **What is answered is the analysis of the code**, if no two codes share a hash. -/
theorem analysis_getOrAnalyze (h : Tracks codes n missed c) (hinj : Set.InjOn Blake3.digest codes)
    (hcode : code ∈ codes) :
    (c.getOrAnalyze (.ofFork fork) code).1.analysis = analyze (.ofFork fork) code := by
  cases hget : c.get? (keyOf fork code) with
  | none => rw [getOrAnalyze_of_none hget]
  | some kept =>
      rw [getOrAnalyze_of_some hget]
      obtain ⟨code', hcode', hhash, hanalysis⟩ := h.genuine _ _ hget
      rw [hanalysis, hinj hcode' hcode hhash]
      rfl

/-- **A run with a cache is a run without one**, and asks it for the analysis of its code. -/
theorem executeCached_eq {σ : Type} (h : Tracks codes n missed c)
    (hinj : Set.InjOn Blake3.digest codes) (hcode : code ∈ codes) (config : Config) (host : Host σ)
    (context : CallContext) (input : ByteArray) (gasLimit : Nat) (memory : Memory) (state : σ) :
    executeCached c config host context input gasLimit code memory state =
      (execute config host context input gasLimit code memory state,
        (c.serve (.analysis config.fork code)).2) := by
  unfold executeCached
  dsimp only
  rw [h.analysis_getOrAnalyze hinj hcode]
  rfl

end Tracks

/-- **The right answers to a request** when `codes` are in use. -/
def Request.RightAnswer (codes : Set ByteArray) : Request → Option Kept → Prop
  | .analysis fork code, answer =>
    ∃ kept, answer = some kept ∧ kept.analysis = analyze (.ofFork fork) code
  | .lookup key, answer => ∀ kept, answer = some kept →
    (∃ code ∈ codes, Blake3.digest code = key.hash) ∧
      ∀ code ∈ codes, Blake3.digest code = key.hash →
        kept.analysis = analyze (.ofFork key.fork) code
  | .clear, answer => answer = none

section Answers

variable {codes : Set ByteArray} {n : Nat} {missed : List Key} {c : Cache}

theorem Tracks.rightAnswer (h : Tracks codes n missed c) (hinj : Set.InjOn Blake3.digest codes)
    {r : Request} (hcode : ∀ fork code, r = .analysis fork code → code ∈ codes) :
    r.RightAnswer codes (c.serve r).1 := by
  cases r with
  | clear => rfl
  | analysis fork code => exact ⟨_, rfl, h.analysis_getOrAnalyze hinj (hcode fork code rfl)⟩
  | lookup key =>
      intro kept hkept
      obtain ⟨code, hmem, hhash, hanalysis⟩ := h.genuine key kept hkept
      refine ⟨⟨code, hmem, hhash⟩, ?_⟩
      intro code' hmem' hhash'
      rw [hanalysis, hinj hmem' hmem (hhash'.trans hhash.symm)]

theorem Tracks.rightAnswers (h : Tracks codes n missed c) (hn : 0 < n)
    (hinj : Set.InjOn Blake3.digest codes) {rs : List Request}
    (hcode : ∀ fork code, .analysis fork code ∈ rs → code ∈ codes) :
    List.Forall₂ (Request.RightAnswer codes) rs (c.serveAll rs).1 := by
  induction rs generalizing missed c with
  | nil => exact .nil
  | cons r rs ih =>
      have hhead : ∀ fork code, r = .analysis fork code → code ∈ codes := by
        rintro fork code rfl
        exact hcode fork code List.mem_cons_self
      have htail : ∀ fork code, .analysis fork code ∈ rs → code ∈ codes := fun fork code hmem =>
        hcode fork code (List.mem_cons_of_mem _ hmem)
      exact .cons (h.rightAnswer hinj hhead) (ih (h.serve hn hhead) htail)

end Answers

/-- A cache of a given capacity after requests. -/
def after (capacity : Nat) (requests : List Request) : Cache :=
  ((new capacity).serveAll requests).2

/-- **A cache that nobody notices**, after requests in which only the codes `codes` are in use. -/
structure Unnoticed (codes : Set ByteArray) (capacity : Nat) (requests : List Request) : Prop where
  /-- Every answer is right. -/
  answers :
    List.Forall₂ (Request.RightAnswer codes) requests ((new capacity).serveAll requests).1
  /-- A run with the cache is a run without it. -/
  executes : ∀ {σ : Type} (config : Config) (host : Host σ) (context : CallContext)
    (input : ByteArray) (gasLimit : Nat) (memory : Memory) (state : σ), ∀ code ∈ codes,
      executeCached (after capacity requests) config host context input gasLimit code memory state =
        (execute config host context input gasLimit code memory state,
          after capacity (requests ++ [.analysis config.fork code]))
  /-- No key is in the queue twice. -/
  nodup : (after capacity requests).order.Nodup
  /-- The keys in the queue are those under which something is kept. -/
  mem_order_iff : ∀ key, key ∈ (after capacity requests).order ↔
    ((after capacity requests).get? key).isSome = true
  /-- No more is kept than the capacity allows. -/
  size_le : (after capacity requests).size ≤ max capacity 1
  /-- The queue is the end of the list of keys that missed since the last clearing. -/
  order_eq : (after capacity requests).order =
    ((new capacity).misses [] requests).rtake (max capacity 1)

theorem serveAll_append (c : Cache) (rs rs' : List Request) :
    (c.serveAll (rs ++ rs')).2 = ((c.serveAll rs).2.serveAll rs').2 := by
  induction rs generalizing c with
  | nil => rfl
  | cons r rs ih => exact ih (c.serve r).2

end Cache

open Cache

/-- **The cache is transparent, and first in is first out** (`Unnoticed`). For every capacity and every
    sequence of requests, if no two of the codes in use have the same `Blake3.digest`, then every
    answer is the analysis of the code and fork asked for, and `executeCached` is `execute`. The queue
    holds every key of the map once, the map never holds more than the capacity allows, and the keys
    kept are the last that missed since the cache was emptied, in the order in which they missed. -/
theorem cache_transparent_fifo (codes : Set ByteArray) (capacity : Nat) (requests : List Request)
    (hinj : Set.InjOn Blake3.digest codes)
    (hcode : ∀ fork code, .analysis fork code ∈ requests → code ∈ codes) :
    Unnoticed codes capacity requests := by
  have hpos : 0 < max capacity 1 := by omega
  have htracks := (Tracks.new codes capacity).serveAll hpos hcode
  exact
    { answers := (Tracks.new codes capacity).rightAnswers hpos hinj hcode
      executes := fun config host context input gasLimit memory state code hmem => by
        unfold after
        rw [htracks.executeCached_eq hinj hmem, serveAll_append]
        rfl
      nodup := htracks.inStep.nodup
      mem_order_iff := htracks.mem_order_iff
      size_le := htracks.size_le
      order_eq := htracks.order }

/-- Three codes in a cache for two: the first is asked for again while it is kept, which does not save
    it from being the first to go, and again when it is gone. -/
def threeInTwo : List Request :=
  [.analysis .cancun ⟨#[0x01]⟩, .analysis .cancun ⟨#[0x02]⟩, .analysis .cancun ⟨#[0x01]⟩,
    .analysis .cancun ⟨#[0x03]⟩, .lookup (keyOf .cancun ⟨#[0x01]⟩), .analysis .cancun ⟨#[0x01]⟩]

theorem cache_transparent_fifo_threeInTwo :
    (after 2 threeInTwo).order = [keyOf .cancun ⟨#[0x03]⟩, keyOf .cancun ⟨#[0x01]⟩] ∧
      Unnoticed {⟨#[0x01]⟩, ⟨#[0x02]⟩, ⟨#[0x03]⟩} 2 threeInTwo := by
  have hdistinct : [⟨#[0x01]⟩, ⟨#[0x02]⟩, ⟨#[0x03]⟩].Pairwise fun a b =>
      Blake3.digest a ≠ Blake3.digest b := by decide +kernel
  simp only [List.pairwise_cons, List.mem_cons, List.not_mem_nil, or_false, forall_eq_or_imp,
    forall_eq] at hdistinct
  obtain ⟨⟨h₁₂, h₁₃⟩, h₂₃, -⟩ := hdistinct
  refine ⟨by decide +kernel, cache_transparent_fifo _ 2 threeInTwo ?_ ?_⟩
  · rintro a (rfl | rfl | rfl) b (rfl | rfl | rfl) hab
    · rfl
    · exact absurd hab h₁₂
    · exact absurd hab h₁₃
    · exact absurd hab.symm h₁₂
    · rfl
    · exact absurd hab h₂₃
    · exact absurd hab.symm h₁₃
    · exact absurd hab.symm h₂₃
    · rfl
  · intro fork code hmem
    simp only [threeInTwo, List.mem_cons, Request.analysis.injEq, List.not_mem_nil, or_false] at hmem
    rcases hmem with ⟨-, rfl⟩ | ⟨-, rfl⟩ | ⟨-, rfl⟩ | ⟨-, rfl⟩ | hlookup | ⟨-, rfl⟩
    · exact .inl rfl
    · exact .inr (.inl rfl)
    · exact .inl rfl
    · exact .inr (.inr rfl)
    · cases hlookup
    · exact .inl rfl

end MeteredEvm
