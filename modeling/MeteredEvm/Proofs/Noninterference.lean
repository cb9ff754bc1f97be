import MeteredEvm.Proofs.CallTree
import MeteredEvm.Proofs.Launch
import MeteredEvm.Proofs.LinkedRuns
import MeteredEvm.Proofs.Views

/-!
# `MeteredEvm.Proofs.Noninterference` — frames do not see or touch each other's memory

A frame runs in a view of its own. What stands below that view is not changed by the frame, and it
does not change the frame: two runs on memories with one limit, whatever is in them, have the same
result, the same final frame and the same final state of the host, and each gives its memory back.

This needs the same of the children of the frame (`Host.Blind`), which in the world are frames again.

## Contents
* `Memory.SameView` — memories that look alike from inside the active view.
* `Blind`, `Host.Blind` — what neither sees nor touches a memory.
* `Frame.run_blind`, `Chain.perform_blind`, `Chain.hostAt_blind`.
* `memory_noninterference`.
-/

namespace MeteredEvm

variable {σ α β : Type}

/-! ## Memories with the same view -/

namespace Memory

/-- **Two memories with the same active view**, whatever lies below it. -/
structure SameView (m n : Memory) : Prop where
  limit : n.limit = m.limit
  view : n.view = m.view

namespace SameView

variable {m n : Memory}

/-- Two views that were just opened are both empty. -/
theorem enter (h : n.limit = m.limit) : SameView m.enter n.enter where
  limit := h
  view := by
    show n.buffer.extract n.buffer.size n.buffer.size = m.buffer.extract m.buffer.size m.buffer.size
    rw [ByteArray.extract_same, ByteArray.extract_same]

theorem size (h : SameView m n) : n.size = m.size := by
  rw [← size_view, ← size_view, h.view]

theorem expansionCost (h : SameView m n) (stop : Nat) :
    n.expansionCost stop = m.expansionCost stop := by
  unfold Memory.expansionCost
  rw [h.limit, h.size]

theorem extend (h : SameView m n) (stop : Nat) : SameView (m.extend stop) (n.extend stop) where
  limit := h.limit
  view := by
    rw [view_extend, view_extend, h.view, h.size]

theorem write (h : SameView m n) {offset : Nat} {bytes : ByteArray}
    (hle : offset + bytes.size ≤ m.size) :
    SameView (m.write offset bytes) (n.write offset bytes) where
  limit := h.limit
  view := by
    rw [view_write hle, view_write (by rwa [h.size]), h.view]

end SameView

end Memory

/-! ## Runs on two memories -/

/-- The link between two runs of one host on memories that were `below` and `below'` at first: the
    views look alike, and nothing below them has changed. -/
def Link.apart (below below' : Memory) : Link σ σ where
  state p p' _ := p = p'
  memory m n := m.SameView n ∧ below.SameBelow m ∧ below'.SameBelow n

theorem Link.apart_faithful (below below' : Memory) :
    (Link.apart below below' : Link σ σ).Faithful where
  size h := h.1.size
  read? offset len h := by
    rw [Memory.read?_eq, Memory.read?_eq, h.1.view]
  grow := by
    rintro m n stop gas ⟨hview, hbelow, hbelow'⟩
    rw [Memory.grow_eq, Memory.grow_eq, hview.expansionCost]
    cases m.expansionCost stop with
    | error e => exact .inl ⟨e, rfl, rfl⟩
    | ok cost =>
        dsimp only
        cases gas.charge? cost with
        | none => exact .inl ⟨_, rfl, rfl⟩
        | some left =>
            exact .inr ⟨_, _, left, rfl, rfl, hview.extend stop,
              hbelow.trans (Memory.extend_sameBelow m stop),
              hbelow'.trans (Memory.extend_sameBelow n stop)⟩
  write := by
    rintro m n offset bytes hle ⟨hview, hbelow, hbelow'⟩
    exact ⟨hview.write hle, hbelow.trans (Memory.write_sameBelow hle),
      hbelow'.trans (Memory.write_sameBelow (by rwa [hview.size]))⟩

/-- **A computation that neither sees nor touches the memory it is given**: on two memories with one
    limit it comes to the same, and it gives each of them back. -/
def Blind (x : Memory → Except Trap (α × Memory × σ)) : Prop :=
  ∀ ⦃m n : Memory⦄, n.limit = m.limit → ∃ r : Except Trap (α × σ),
    x m = r.map (fun a => (a.1, m, a.2)) ∧ x n = r.map (fun a => (a.1, n, a.2))

/-- A result that is there without any memory. -/
theorem Blind.const (a : α) (p : σ) : Blind fun m => .ok (a, m, p) :=
  fun _ _ _ => ⟨.ok (a, p), rfl, rfl⟩

theorem Blind.error (t : Trap) : Blind fun _ => (.error t : Except Trap (α × Memory × σ)) :=
  fun _ _ _ => ⟨.error t, rfl, rfl⟩

/-- What is made of a result without looking at the memory. -/
theorem Blind.map {x : Memory → Except Trap (α × Memory × σ)} (h : Blind x) (f : α × σ → β × σ) :
    Blind fun m => (x m).map fun a => ((f (a.1, a.2.2)).1, a.2.1, (f (a.1, a.2.2)).2) := by
  intro m n hlimit
  obtain ⟨r, hm, hn⟩ := h hlimit
  refine ⟨r.map f, ?_, ?_⟩
  · dsimp only
    rw [hm]
    cases r <;> rfl
  · dsimp only
    rw [hn]
    cases r <;> rfl

/-- **A host whose children neither see nor touch the memory of their caller**: every `Host.call` is
    `MeteredEvm.Blind`. -/
def Host.Blind (host : Host σ) : Prop :=
  ∀ (req : CallRequest) (p : σ), MeteredEvm.Blind fun memory => host.call req memory p

variable {host : Host σ}

theorem Host.Blind.kept (h : host.Blind) (s : Setting σ) (hhost : s.host = host) (guarded : Bool)
    (below below' : Memory) : (Link.apart below below').Kept s host guarded where
  faithful := Link.apart_faithful below below'
  quiet q _ := by
    rintro p _ - rfl
    rw [hhost]
    exact ⟨rfl, rfl⟩
  loud _ := by
    refine .of_answers (Link.apart_faithful below below') (fun q _ => ?_) fun _ _ _ _ hstate => hstate
    rintro p _ - rfl
    rw [hhost]
    exact ⟨rfl, rfl⟩
  call := by
    rintro req m n p _ r - hmemory rfl
    obtain ⟨outcome, hm, hn⟩ := h req p hmemory.1.limit
    rw [hhost]
    dsimp only at hm hn
    rw [hm, hn]
    cases outcome with
    | error t => exact .error t
    | ok a => exact .ok a.1 hmemory rfl

/-- **A frame neither sees nor touches the memory that it runs on**, if its children do not. -/
theorem Frame.run_blind (h : host.Blind) (config : Config) (f : Frame) (p : σ) {m n : Memory}
    (hlimit : n.limit = m.limit) :
    ∃ r : Except Trap (Result × Frame × σ),
      f.run config host m p = r.map (fun (result, f, p) => (result, f, m, p)) ∧
        f.run config host n p = r.map (fun (result, f, p) => (result, f, n, p)) := by
  have hrun : (Link.apart m.enter n.enter).Finishes (f.run config host m p) (f.run config host n p) :=
    Frame.run_linked (h.kept _ rfl _ m.enter n.enter) ⟨.enter hlimit, .refl _, .refl _⟩ rfl
  generalize f.run config host m p = r at hrun
  generalize f.run config host n p = r' at hrun
  cases hrun with
  | error t => exact ⟨.error t, rfl, rfl⟩
  | @ok result f memory memory' p p' _ hmemory hstate _ =>
      obtain ⟨_, _, ⟨-, hbelow, hbelow'⟩, rfl, rfl⟩ := hmemory
      obtain rfl : p = p' := hstate
      rw [Memory.exit_of_sameBelow hbelow, Memory.exit_of_sameBelow hbelow']
      exact ⟨.ok (result, f, p), rfl, rfl⟩

theorem execute_blind (h : host.Blind) (config : Config) (context : CallContext)
    (input : ByteArray) (gasLimit : Nat) (code : ByteArray) (p : σ) :
    Blind fun memory => execute config host context input gasLimit code memory p := by
  intro m n hlimit
  obtain ⟨r, hm, hn⟩ := Frame.run_blind h config
    (.new context input gasLimit (analyze (.ofFork config.fork) code)) p hlimit
  refine ⟨r.map fun a => (a.1, a.2.2), ?_, ?_⟩
  · unfold execute
    dsimp only
    rw [hm]
    cases r <;> rfl
  · unfold execute
    dsimp only
    rw [hn]
    cases r <;> rfl

/-! ## The world -/

namespace Chain

theorem perform_blind (c : Chain) {host : Host World} (h : host.Blind) (req : CallRequest)
    (w : World) : Blind fun memory => c.perform host req memory w := by
  simp only [perform_eq]
  cases c.launch req w with
  | error r => exact Blind.const r.1 r.2
  | ok frame =>
      exact (execute_blind h c.config frame.context frame.input req.gas frame.code frame.world).map
        fun a => c.conclude req w a.1 a.2

theorem hostWith_blind (c : Chain) {perform : Performer}
    (h : ∀ req w, Blind fun memory => perform req memory w) : (c.hostWith perform).Blind := by
  intro req w
  have hmap := (h req w).map fun a => (a.1.callResult, a.2)
  intro m n hlimit
  obtain ⟨r, hm, hn⟩ := hmap hlimit
  refine ⟨r, ?_, ?_⟩
  · exact (bind_pure_comp _ _).trans hm
  · exact (bind_pure_comp _ _).trans hn

/-- **No level of the world sees or touches the memory of its callers.** -/
theorem hostAt_blind (c : Chain) (levels : Nat) : (c.hostAt levels).Blind := by
  induction levels with
  | zero => exact c.hostWith_blind fun _ _ => .error _
  | succ levels ih => exact c.hostWith_blind fun req w => c.perform_blind ih req w

theorem host_blind (c : Chain) : c.host.Blind :=
  c.hostWith_blind fun req w => c.perform_blind (c.hostAt_blind _) req w

end Chain

/-- **Frames do not see or touch each other's memory.** On a host whose children neither see nor touch
    the memory of their caller (`Host.Blind`), as those of `Chain.host` do, `Frame.run` gives back the
    memory it was given, however it ends, and its result, the frame that it leaves and the state of
    the host are the same on every memory with that limit. In the world, a new frame comes to a
    result. -/
theorem memory_noninterference :
    (∀ chain : Chain, chain.host.Blind) ∧
    (∀ {σ : Type} {host : Host σ}, host.Blind → ∀ (config : Config) (f : Frame) (state : σ)
      (m n : Memory), n.limit = m.limit → ∃ outcome : Except Trap (Result × Frame × σ),
        f.run config host m state = outcome.map (fun (result, f, state) => (result, f, m, state)) ∧
        f.run config host n state =
          outcome.map (fun (result, f, state) => (result, f, n, state))) ∧
    ∀ (chain : Chain) (config : Config) (context : CallContext) (input code : ByteArray)
      (gasLimit : Nat) (m : Memory) (w : World), gasLimit < u64Size →
        m.limit ≤ Memory.pricedLimit →
          ∃ result f w', (Frame.new context input gasLimit
            (analyze (.ofFork config.fork) code)).run config chain.host m w =
              .ok (result, f, m, w') := by
  refine ⟨Chain.host_blind, fun h config f state m n hlimit => f.run_blind h config state hlimit, ?_⟩
  intro chain config context input code gasLimit m w hgas hmemory
  let f := Frame.fresh config context input gasLimit code
  obtain ⟨r, hrun⟩ : ∃ r, f.run config chain.host m w = .ok r :=
    Frame.run_ok (chain.host_honest.setting f config) (chain.host_fair.setting f config) hgas hmemory
      w
  obtain ⟨outcome, houtcome, -⟩ := f.run_blind chain.host_blind config w (rfl : m.limit = m.limit)
  cases outcome with
  | error t =>
      rw [houtcome] at hrun
      cases hrun
  | ok a => exact ⟨a.1, a.2.1, a.2.2, houtcome⟩

/-- A memory with a written view inside another one. -/
def writtenMemory : Memory := (((Memory.new 64).extend 32).enter.extend 64).write 3 (Bytes.ofList [7])

/-- A code that loads the first word of its view and asks for the size of the view. -/
def loadAndMeasure : ByteArray := ⟨#[0x5f, 0x51, 0x59]⟩

/-- On the empty world, the code finds the same in a written memory and in an empty one. -/
theorem memory_noninterference_written :
    let f := Frame.new {} .empty 100 (analyze (.ofFork (.cancun)) loadAndMeasure)
    ({} : Chain).host.Blind ∧ (Memory.new 64).limit = writtenMemory.limit ∧
      (∃ outcome : Except Trap (Result × Frame × World),
        f.run {} ({} : Chain).host writtenMemory {} =
          outcome.map (fun (result, f, w) => (result, f, writtenMemory, w)) ∧
        f.run {} ({} : Chain).host (Memory.new 64) {} =
          outcome.map (fun (result, f, w) => (result, f, Memory.new 64, w))) ∧
      ∃ result f' w', f.run {} ({} : Chain).host writtenMemory {} =
        .ok (result, f', writtenMemory, w') := by
  intro f
  obtain ⟨hblind, hapart, htotal⟩ := memory_noninterference
  exact ⟨hblind {}, rfl, hapart (hblind {}) {} f {} writtenMemory (.new 64) rfl,
    htotal {} {} {} .empty loadAndMeasure 100 writtenMemory {} (by decide) (by decide)⟩

end MeteredEvm
