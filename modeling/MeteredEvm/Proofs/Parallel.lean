import MeteredEvm.Proofs.Observers
import MeteredEvm.Proofs.Turn

/-!
# `MeteredEvm.Proofs.Parallel` — two runs side by side

A frame sees its host only through answers and its memory only through its own view. So two runs of
one code on two hosts, or on two memories, go the same way as long as the hosts answer alike and the
views look alike. What "alike" means is up to the property at hand and is given by a `Link`: a
relation between the states of the two hosts and one between the two memories. This module follows a
link through every effect; what a link has to satisfy for that is collected in `Link.Kept`.

A link from a host to itself that relates equal states with some property says that every
instruction keeps the property, so invariants of one run are links too.

## Contents
* `Link`, `Link.Joins`, `Link.Matches`, `Link.Parallel` — machines, results and computations.
* `Link.Faithful`, `Link.Answers`, `Setting.IssuesUnder`, `Link.Kept` — what a link has to satisfy.
* `Exec.pop_parallel`, `Exec.cover_parallel`, `Exec.ask_parallel`, … — the primitives.
* `Effect.call_matches`, `Link.Loud.of_answers`, … — the effects.
* `Op.exec_matches` — all instructions.
-/

namespace MeteredEvm

open Exec

variable {σ τ α β : Type}

/-! ## Links -/

/-- **How two runs are alike**: a relation between the states of their hosts, which may depend on the
    refunds earned so far, and one between their memories. -/
structure Link (σ τ : Type) where
  state : σ → τ → Int → Prop
  memory : Memory → Memory → Prop

namespace Link

variable {l : Link σ τ} {m m' : Machine σ} {n n' : Machine τ}

/-- **Two machines that only differ behind the link**: gas, stack and return data are the same. -/
structure Joins (l : Link σ τ) (m : Machine σ) (n : Machine τ) : Prop where
  gas : n.gas = m.gas
  stack : n.stack = m.stack
  returnData : n.returnData = m.returnData
  memory : l.memory m.memory n.memory
  state : l.state m.host n.host m.gas.refunded

namespace Joins

theorem withStack (h : l.Joins m n) (stack : Stack) :
    l.Joins { m with stack } { n with stack } :=
  { h with stack := rfl }

theorem withReturnData (h : l.Joins m n) (returnData : ByteArray) :
    l.Joins { m with returnData } { n with returnData } :=
  { h with returnData := rfl }

theorem withGas (h : l.Joins m n) {gas : Meter} (hrefunded : gas.refunded = m.gas.refunded) :
    l.Joins { m with gas } { n with gas } where
  gas := rfl
  stack := h.stack
  returnData := h.returnData
  memory := h.memory
  state := by
    rw [hrefunded]
    exact h.state

theorem withMemory (h : l.Joins m n) {memory memory' : Memory} (hmemory : l.memory memory memory') :
    l.Joins { m with memory } { n with memory := memory' } :=
  { h with memory := hmemory }

theorem withState (h : l.Joins m n) {p : σ} {p' : τ} (hstate : l.state p p' m.gas.refunded) :
    l.Joins { m with host := p } { n with host := p' } :=
  { h with state := hstate }

end Joins

/-- Two results that are the same up to the link: the same value or the same failure. -/
inductive Matches (l : Link σ τ) : EStateM.Result Failure (Machine σ) α →
    EStateM.Result Failure (Machine τ) α → Prop where
  | ok (a : α) {m : Machine σ} {n : Machine τ} (h : l.Joins m n) : Matches l (.ok a m) (.ok a n)
  | error (e : Failure) {m : Machine σ} {n : Machine τ} (h : l.Joins m n) :
      Matches l (.error e m) (.error e n)

/-- Two computations whose results are `Link.Matches` from all machines that are `Link.Joins`. -/
def Parallel (l : Link σ τ) (x : Exec σ α) (y : Exec τ α) : Prop :=
  ∀ ⦃m n⦄, l.Joins m n → l.Matches (x m) (y n)

/-- Two computations in a row. What follows may use what the first one came to. -/
theorem Matches.bind {x : Exec σ α} {y : Exec τ α} {f : α → Exec σ β} {g : α → Exec τ β}
    (h : l.Matches (x m) (y n))
    (hf : ∀ a m' n', x m = .ok a m' → l.Joins m' n' → l.Matches (f a m') (g a n')) :
    l.Matches ((x >>= f) m) ((y >>= g) n) := by
  cases hx : x m with
  | ok a m' =>
      cases hy : y n with
      | ok b n' =>
          rw [hx, hy] at h
          cases h with
          | ok _ hj =>
              rw [Act.bind_ok hx, Act.bind_ok hy]
              exact hf a m' n' hx hj
      | error e n' =>
          rw [hx, hy] at h
          cases h
  | error e m' =>
      cases hy : y n with
      | ok b n' =>
          rw [hx, hy] at h
          cases h
      | error e' n' =>
          rw [hx, hy] at h
          cases h with
          | error _ hj =>
              rw [Act.bind_error hx, Act.bind_error hy]
              exact .error _ hj

theorem Parallel.bind {x : Exec σ α} {y : Exec τ α} {f : α → Exec σ β} {g : α → Exec τ β}
    (h : l.Parallel x y) (hf : ∀ a, l.Parallel (f a) (g a)) : l.Parallel (x >>= f) (y >>= g) :=
  fun _ _ hj => (h hj).bind fun a _ _ _ hj' => hf a hj'

theorem Parallel.pure (a : α) : l.Parallel (pure a) (pure a) := fun _ _ hj => .ok a hj

/-- A branch, with what decided it. -/
theorem Parallel.branch {P : Prop} [Decidable P] {x y : Exec σ α} {x' y' : Exec τ α}
    (h : P → l.Parallel x x') (h' : ¬ P → l.Parallel y y') :
    l.Parallel (if P then x else y) (if P then x' else y') := by
  by_cases hP : P
  · rw [if_pos hP, if_pos hP]
    exact h hP
  · rw [if_neg hP, if_neg hP]
    exact h' hP

theorem Parallel.ite {P : Prop} [Decidable P] {x y : Exec σ α} {x' y' : Exec τ α}
    (h : l.Parallel x x') (h' : l.Parallel y y') :
    l.Parallel (if P then x else y) (if P then x' else y') :=
  .branch (fun _ => h) (fun _ => h')

/-! ## What a link has to satisfy -/

/-- **Linked memories look alike from inside**, and stay linked when both are grown or written. -/
structure Faithful (l : Link σ τ) : Prop where
  size : ∀ {memory memory' : Memory}, l.memory memory memory' → memory'.size = memory.size
  read? : ∀ {memory memory' : Memory} (offset len : Nat), l.memory memory memory' →
    memory'.read? offset len = memory.read? offset len
  grow : ∀ {memory memory' : Memory} (stop : Nat) (gas : Meter), l.memory memory memory' →
    (∃ e, Memory.grow stop (memory, gas) = .error e (memory, gas) ∧
        Memory.grow stop (memory', gas) = .error e (memory', gas)) ∨
      ∃ after after' left, Memory.grow stop (memory, gas) = .ok () (after, left) ∧
        Memory.grow stop (memory', gas) = .ok () (after', left) ∧ l.memory after after'
  write : ∀ {memory memory' : Memory} {offset : Nat} {bytes : ByteArray},
    offset + bytes.size ≤ memory.size → l.memory memory memory' →
      l.memory (memory.write offset bytes) (memory'.write offset bytes)

/-- The two hosts answer a query alike and stay linked by `Link.state`. -/
def Answers (l : Link σ τ) (host : Host σ) (host' : Host τ) (q : Query) : Prop :=
  ∀ ⦃p p' r⦄, l.state p p' r →
    (host'.answer q p').1 = (host.answer q p).1 ∧
      l.state (host.answer q p).2 (host'.answer q p').2 r

/-- Two results of a child frame that are the same up to the link. -/
inductive Returns (l : Link σ τ) (r : Int) : Except Trap (CallResult × Memory × σ) →
    Except Trap (CallResult × Memory × τ) → Prop where
  | ok (result : CallResult) {memory memory' : Memory} {p : σ} {p' : τ}
      (hmemory : l.memory memory memory') (hstate : l.state p p' r) :
      Returns l r (.ok (result, memory, p)) (.ok (result, memory', p'))
  | error (t : Trap) : Returns l r (.error t) (.error t)

end Link

/-- Whether a query leaves everything but the notes on what has been used as it is. -/
def Query.isQuiet : Query → Bool
  | .setStorage .. | .setTransient .. | .emitLog _ | .markForDestruction .. => false
  | _ => true

/-- Whether a query writes a storage slot. -/
def Query.writesSlot : Query → Bool
  | .setStorage .. => true
  | _ => false

/-- Whether a query changes nothing, or only what belongs to the account `a`: its slots, its logs, or
    its being there. -/
def Query.IsOwn (a : Address) : Query → Prop
  | .setStorage b _ _ | .setTransient b _ _ | .markForDestruction b _ => b = a
  | .emitLog log => log.address = a
  | _ => True

/-- The requests that a frame makes of its host, given whether changes are banned: those that it
    `Issues` from its instructions, of which no value moves where the instruction has none, and under
    a ban none creates or sends. -/
structure Setting.IssuesUnder (s : Setting σ) (guarded : Bool) (req : CallRequest) : Prop where
  issues : s.Issues req
  valueless : req.kind = .delegateCall ∨ req.kind = .staticCall → req.transfersValue = false
  banned : guarded = true → req.kind.isCreate = false ∧ (req.kind = .call → req.value = 0#256)

/-- The setting with another host. -/
def Setting.withHost (s : Setting σ) (host : Host τ) : Setting τ :=
  { s with host }

/-- The effects that change state, beside those of child frames, go the same way. -/
structure Link.Loud (l : Link σ τ) (s : Setting σ) (host' : Host τ) : Prop where
  sstore : l.Parallel (Effect.sstore s) (Effect.sstore (s.withHost host'))
  tstore : l.Parallel (Effect.tstore s) (Effect.tstore (s.withHost host'))
  log (count : Nat) : l.Parallel (Effect.log s count) (Effect.log (s.withHost host') count)
  selfDestruct : l.Parallel (Effect.selfDestruct s) (Effect.selfDestruct (s.withHost host'))

/-- **What a link has to satisfy to be kept by a frame**: memories look alike (`Link.Faithful`), hosts
    answer alike as long as nothing is changed (`Link.Answers`), effects that change state go the same
    way unless they are banned (`Link.Loud`), and so do child frames (`Link.Returns`). -/
structure Link.Kept (l : Link σ τ) (s : Setting σ) (host' : Host τ) (guarded : Bool) : Prop where
  faithful : l.Faithful
  quiet : ∀ q : Query, q.isQuiet = true → l.Answers s.host host' q
  loud : guarded = false → l.Loud s host'
  call : ∀ ⦃req memory memory' p p' r⦄, s.IssuesUnder guarded req → l.memory memory memory' →
    l.state p p' r → l.Returns r (s.host.call req memory p) (host'.call req memory' p')

/-! ## Primitives -/

/-- Growing a view refunds nothing. -/
theorem Meter.refunded_of_grow_ok {memory memory' : Memory} {size : Nat} {gas gas' : Meter} {u : Unit}
    (h : Memory.grow size (memory, gas) = .ok u (memory', gas')) : gas'.refunded = gas.refunded := by
  obtain ⟨cost, -, hcharge, -⟩ := Memory.of_grow_ok h
  obtain ⟨-, rfl⟩ := Meter.of_charge? hcharge
  rfl

namespace Exec

open Link

variable {l : Link σ τ}

theorem fault_parallel (f : Fault) : l.Parallel (fault f : Exec σ α) (fault f) :=
  fun _ _ hj => .error _ hj

theorem trap_parallel (t : Trap) : l.Parallel (trap t : Exec σ α) (trap t) :=
  fun _ _ hj => .error _ hj

theorem orTrap_parallel (t : Trap) (a : Option α) :
    l.Parallel (orTrap t a : Exec σ α) (orTrap t a) := by
  cases a with
  | none => exact trap_parallel t
  | some a => exact .pure a

theorem amount_parallel (k : Nat) : l.Parallel (amount k : Exec σ Nat) (amount k) :=
  .ite (.pure k) (trap_parallel _)

/-! ### The stack -/

theorem pop_parallel : l.Parallel (pop : Exec σ Word) pop := by
  intro m n hj
  unfold pop
  rw [hj.stack]
  cases m.stack.pop? with
  | none => exact .error _ hj
  | some r => exact .ok _ (hj.withStack _)

theorem push_parallel (w : Word) : l.Parallel (push w : Exec σ Unit) (push w) := by
  intro m n hj
  unfold push
  rw [hj.stack]
  cases m.stack.push? w with
  | none => exact .error _ hj
  | some st => exact .ok _ (hj.withStack _)

theorem peek_parallel (k : Nat) : l.Parallel (peek k : Exec σ Word) (peek k) := by
  intro m n hj
  unfold peek
  rw [hj.stack]
  cases m.stack.peek? k with
  | none => exact .error _ hj
  | some w => exact .ok _ hj

theorem top_parallel : l.Parallel (top : Exec σ Word) top := peek_parallel 0

theorem setTop_parallel (w : Word) : l.Parallel (setTop w : Exec σ Unit) (setTop w) := by
  intro m n hj
  unfold setTop
  rw [hj.stack]
  cases m.stack.setTop? w with
  | none => exact .error _ hj
  | some st => exact .ok _ (hj.withStack _)

theorem dup_parallel (k : Nat) : l.Parallel (dup k : Exec σ Unit) (dup k) := by
  intro m n hj
  unfold dup
  rw [hj.stack]
  cases m.stack.dup? k with
  | none => exact .error _ hj
  | some st => exact .ok _ (hj.withStack _)

theorem swap_parallel (k : Nat) : l.Parallel (swap k : Exec σ Unit) (swap k) := by
  intro m n hj
  unfold swap
  rw [hj.stack]
  cases m.stack.swap? k with
  | none => exact .error _ hj
  | some st => exact .ok _ (hj.withStack _)

theorem popAddress_parallel : l.Parallel (popAddress : Exec σ Address) popAddress :=
  pop_parallel.bind fun _ => .pure _

theorem popMany_parallel (k : Nat) : l.Parallel (popMany k : Exec σ (List Word)) (popMany k) := by
  induction k with
  | zero => exact .pure _
  | succ k ih => exact pop_parallel.bind fun _ => ih.bind fun _ => .pure _

theorem setReturnData_parallel (data : ByteArray) :
    l.Parallel (setReturnData data : Exec σ Unit) (setReturnData data) :=
  fun _ _ hj => .ok _ (hj.withReturnData data)

/-! ### Gas -/

theorem charge_parallel (cost : Nat) : l.Parallel (charge cost : Exec σ Unit) (charge cost) := by
  intro m n hj
  unfold charge
  rw [hj.gas]
  cases hcharge : m.gas.charge? cost with
  | none => exact .error _ hj
  | some g =>
      obtain ⟨-, rfl⟩ := Meter.of_charge? hcharge
      exact .ok _ (hj.withGas rfl)

theorem giveBack_parallel (k : Nat) : l.Parallel (giveBack k : Exec σ Unit) (giveBack k) := by
  intro m n hj
  show l.Matches (.ok () { m with gas := m.gas.giveBack k })
    (.ok () { n with gas := n.gas.giveBack k })
  rw [hj.gas]
  exact .ok _ (hj.withGas rfl)

theorem remaining_parallel : l.Parallel (remaining : Exec σ Nat) remaining := by
  intro m n hj
  show l.Matches (.ok m.gas.remaining m) (.ok n.gas.remaining n)
  rw [hj.gas]
  exact .ok _ hj

/-- Refunds that do not matter to a link. -/
theorem refund_parallel {k : Int} (hrefund : ∀ p p' r, l.state p p' r → l.state p p' (r + k)) :
    l.Parallel (refund k : Exec σ Unit) (refund k) := by
  intro m n hj
  show l.Matches (.ok () { m with gas := m.gas.refund k }) (.ok () { n with gas := n.gas.refund k })
  rw [hj.gas]
  exact .ok _ { hj with gas := rfl, state := hrefund _ _ _ hj.state }

/-! ### Memory -/

theorem growTo_parallel (hf : l.Faithful) (offset len : Nat) :
    l.Parallel (growTo offset len : Exec σ Unit) (growTo offset len) := by
  intro m n hj
  unfold growTo onMemory
  rw [Memory.growTo_eq, Memory.growTo_eq, hj.gas]
  cases add64? offset len with
  | none => exact .error _ ((hj.withMemory hj.memory).withGas rfl)
  | some stop =>
      dsimp only
      obtain ⟨e, hgrow, hgrow'⟩ | ⟨memory, memory', gas, hgrow, hgrow', hmemory⟩ :=
        hf.grow stop m.gas hj.memory
      · rw [hgrow, hgrow']
        exact .error e ((hj.withMemory hj.memory).withGas rfl)
      · rw [hgrow, hgrow']
        exact .ok _ ((hj.withMemory hmemory).withGas (Meter.refunded_of_grow_ok hgrow))

theorem cover_parallel (hf : l.Faithful) (offset len : Word) :
    l.Parallel (cover offset len : Exec σ (Option (Nat × Nat))) (cover offset len) := by
  intro m n hj
  unfold cover onMemory
  rw [Memory.cover_eq, Memory.cover_eq, hj.gas]
  by_cases hlen : len = 0#256
  · simp only [if_pos hlen]
    exact .ok _ ((hj.withMemory hj.memory).withGas rfl)
  · simp only [if_neg hlen]
    cases Memory.stopOf offset len with
    | none => exact .error _ ((hj.withMemory hj.memory).withGas rfl)
    | some stop =>
        dsimp only
        obtain ⟨e, hgrow, hgrow'⟩ | ⟨memory, memory', gas, hgrow, hgrow', hmemory⟩ :=
          hf.grow stop m.gas hj.memory
        · rw [hgrow, hgrow']
          exact .error e ((hj.withMemory hj.memory).withGas rfl)
        · rw [hgrow, hgrow']
          exact .ok _ ((hj.withMemory hmemory).withGas (Meter.refunded_of_grow_ok hgrow))

theorem growAt_parallel (hf : l.Faithful) (offset : Word) (len : Nat) :
    l.Parallel (growAt offset len : Exec σ Nat) (growAt offset len) := by
  unfold growAt
  cases offset.toU64? with
  | none => exact fault_parallel _
  | some start => exact (growTo_parallel hf start len).bind fun _ => .pure _

theorem read_parallel (hf : l.Faithful) (offset len : Nat) :
    l.Parallel (read offset len : Exec σ ByteArray) (read offset len) := by
  intro m n hj
  unfold read
  rw [hf.read? offset len hj.memory]
  cases m.memory.read? offset len with
  | none => exact .error _ hj
  | some bytes => exact .ok _ hj

theorem readRange_parallel (hf : l.Faithful) (range : Option (Nat × Nat)) :
    l.Parallel (readRange range : Exec σ ByteArray) (readRange range) := by
  cases range with
  | none => exact .pure _
  | some r => exact read_parallel hf r.1 r.2

theorem write_parallel (hf : l.Faithful) (offset : Nat) (bytes : ByteArray) :
    l.Parallel (write offset bytes : Exec σ Unit) (write offset bytes) := by
  intro m n hj
  unfold write
  rw [hf.size hj.memory]
  by_cases hle : offset + bytes.size ≤ m.memory.size
  · rw [if_pos hle, if_pos hle]
    exact .ok _ (hj.withMemory (hf.write hle hj.memory))
  · rw [if_neg hle, if_neg hle]
    exact .error _ hj

theorem move_parallel (hf : l.Faithful) (source target len : Nat) :
    l.Parallel (move source target len : Exec σ Unit) (move source target len) := by
  intro m n hj
  unfold move Memory.move? Memory.write?
  rw [hf.read? source len hj.memory, hf.size hj.memory]
  cases m.memory.read? source len with
  | none => exact .error _ hj
  | some bytes =>
      dsimp only
      by_cases hle : target + bytes.size ≤ m.memory.size
      · rw [if_pos hle, if_pos hle]
        exact .ok _ (hj.withMemory (hf.write hle hj.memory))
      · rw [if_neg hle, if_neg hle]
        exact .error _ hj

theorem coverCopy_parallel (hf : l.Faithful) (offset len : Word) :
    l.Parallel (coverCopy offset len : Exec σ (Option (Nat × Nat))) (coverCopy offset len) := by
  unfold coverCopy
  refine .ite (.pure _) ?_
  cases len.toU64? with
  | none => exact fault_parallel _
  | some k => exact (charge_parallel _).bind fun _ => cover_parallel hf offset len

/-! ### The host -/

variable {s : Setting σ} {host' : Host τ} {guarded : Bool}

theorem ask_parallel {q : Query} (h : l.Answers s.host host' q) :
    l.Parallel (ask s q) (ask (s.withHost host') q) := by
  intro m n hj
  obtain ⟨hanswer, hstate⟩ := h hj.state
  show l.Matches (.ok (s.host.answer q m.host).1 { m with host := (s.host.answer q m.host).2 })
    (.ok (host'.answer q n.host).1 { n with host := (host'.answer q n.host).2 })
  rw [hanswer]
  exact .ok _ (hj.withState hstate)

theorem call_parallel {req : CallRequest} (h : l.Kept s host' guarded)
    (hreq : s.IssuesUnder guarded req) :
    l.Parallel (Exec.call s req) (Exec.call (s.withHost host') req) := by
  intro m n hj
  have hreturns := h.call hreq hj.memory hj.state
  have hhost : (s.withHost host').host = host' := rfl
  unfold Exec.call
  rw [hhost]
  generalize s.host.call req m.memory m.host = r at hreturns
  generalize host'.call req n.memory n.host = r' at hreturns
  cases hreturns with
  | ok result hmemory hstate => exact .ok result ((hj.withMemory hmemory).withState hstate)
  | error t => exact .error _ hj

theorem environment_parallel (h : l.Kept s host' guarded) :
    l.Parallel (environment s) (environment (s.withHost host')) :=
  ask_parallel (h.quiet _ rfl)

theorem touch_parallel {access : Access} (h : l.Answers s.host host' (.markWarm access))
    (surcharge : Nat) :
    l.Parallel (touch s surcharge access) (touch (s.withHost host') surcharge access) :=
  .ite ((ask_parallel h).bind fun _ => .ite (charge_parallel _) (.pure _)) (.pure _)

theorem touchAccount_parallel (h : l.Kept s host' guarded) (a : Address) :
    l.Parallel (touchAccount s a) (touchAccount (s.withHost host') a) :=
  touch_parallel (h.quiet _ rfl) _

end Exec

/-! ## Effects -/

namespace Effect

open Link

variable {l : Link σ τ} {s : Setting σ} {host' : Host τ} {guarded : Bool}

theorem unary_parallel (f : Word → Word) : l.Parallel (unary f : Exec σ Unit) (unary f) :=
  top_parallel.bind fun _ => setTop_parallel _

theorem binary_parallel (f : Word → Word → Word) : l.Parallel (binary f : Exec σ Unit) (binary f) :=
  pop_parallel.bind fun _ => top_parallel.bind fun _ => setTop_parallel _

theorem ternary_parallel (f : Word → Word → Word → Word) :
    l.Parallel (ternary f : Exec σ Unit) (ternary f) :=
  pop_parallel.bind fun _ => pop_parallel.bind fun _ => top_parallel.bind fun _ => setTop_parallel _

theorem exp_parallel : l.Parallel (exp s) (exp (s.withHost host')) :=
  pop_parallel.bind fun _ => top_parallel.bind fun _ => (charge_parallel _).bind fun _ =>
    setTop_parallel _

theorem keccak256_parallel (hf : l.Faithful) : l.Parallel (keccak256 : Exec σ Unit) keccak256 :=
  pop_parallel.bind fun offset => top_parallel.bind fun len =>
    (cover_parallel hf offset len).bind fun range => (charge_parallel _).bind fun _ =>
      (readRange_parallel hf range).bind fun _ => setTop_parallel _

/-- Every reading has the same value on linked machines. -/
theorem valueOf_parallel (h : l.Kept s host' guarded) (pc : Nat) (r : Reading) :
    l.Parallel (valueOf s pc r) (valueOf (s.withHost host') pc r) := by
  cases r with
  | address | caller | callValue | callDataSize | codeSize | pc => exact .pure _
  | returnDataSize =>
      intro m n hj
      show l.Matches (.ok (ofNat m.returnData.size) m) (.ok (ofNat n.returnData.size) n)
      rw [hj.returnData]
      exact .ok _ hj
  | memorySize =>
      intro m n hj
      show l.Matches (.ok (ofNat m.memory.size) m) (.ok (ofNat n.memory.size) n)
      rw [h.faithful.size hj.memory]
      exact .ok _ hj
  | _ => exact (environment_parallel h).bind fun _ => .pure _

theorem reading_parallel (h : l.Kept s host' guarded) (pc : Nat) (r : Reading) :
    l.Parallel (reading s pc r) (reading (s.withHost host') pc r) :=
  (valueOf_parallel h pc r).bind fun _ => push_parallel _

theorem selfBalance_parallel (h : l.Kept s host' guarded) :
    l.Parallel (selfBalance s) (selfBalance (s.withHost host')) :=
  (ask_parallel (h.quiet _ rfl)).bind fun _ => push_parallel _

theorem accountField_parallel (h : l.Kept s host' guarded) (a : Address) (field : AccountField) :
    l.Parallel (accountField s a field) (accountField (s.withHost host') a field) := by
  cases field with
  | balance => exact ask_parallel (h.quiet _ rfl)
  | codeSize => exact (ask_parallel (h.quiet _ rfl)).bind fun _ => .pure _
  | codeHash => exact ask_parallel (h.quiet _ rfl)

theorem account_parallel (h : l.Kept s host' guarded) (field : AccountField) :
    l.Parallel (account s field) (account (s.withHost host') field) :=
  popAddress_parallel.bind fun a => (touchAccount_parallel h a).bind fun _ =>
    (accountField_parallel h a field).bind fun _ => push_parallel _

theorem blockHash_parallel (h : l.Kept s host' guarded) :
    l.Parallel (blockHash s) (blockHash (s.withHost host')) := by
  refine top_parallel.bind fun requested => (environment_parallel h).bind fun env => ?_
  dsimp only
  cases requested.toU64? with
  | none => exact setTop_parallel _
  | some n =>
      exact .ite ((ask_parallel (h.quiet _ rfl)).bind fun _ => setTop_parallel _) (setTop_parallel _)

theorem blobHash_parallel (h : l.Kept s host' guarded) :
    l.Parallel (blobHash s) (blobHash (s.withHost host')) := by
  refine top_parallel.bind fun index => ?_
  cases index.toU64? with
  | none => exact setTop_parallel _
  | some i => exact (environment_parallel h).bind fun _ => setTop_parallel _

theorem callDataLoad_parallel : l.Parallel (callDataLoad s) (callDataLoad (s.withHost host')) := by
  refine top_parallel.bind fun offset => ?_
  cases offset.toU64? with
  | none => exact setTop_parallel _
  | some start => exact setTop_parallel _

theorem copyPadded_parallel (hf : l.Faithful) (data : ByteArray) (target source len : Word) :
    l.Parallel (copyPadded data target source len : Exec σ Unit)
      (copyPadded data target source len) := by
  refine (coverCopy_parallel hf target len).bind fun range => ?_
  cases range with
  | none => exact .pure _
  | some r => exact write_parallel hf r.1 _

theorem copyWhole_parallel (hf : l.Faithful) (data : ByteArray) (target source len : Word) :
    l.Parallel (copyWhole data target source len : Exec σ Unit)
      (copyWhole data target source len) := by
  unfold copyWhole
  cases source.add? len with
  | none => exact fault_parallel _
  | some stop =>
      refine .ite (fault_parallel _) ((coverCopy_parallel hf target len).bind fun range => ?_)
      cases range with
      | none => exact .pure _
      | some r => exact (orTrap_parallel _ _).bind fun _ => write_parallel hf r.1 _

theorem copy_parallel (hf : l.Faithful) (source : CopySource) :
    l.Parallel (copy s source) (copy (s.withHost host') source) := by
  refine pop_parallel.bind fun target => pop_parallel.bind fun start => ?_
  refine pop_parallel.bind fun len => ?_
  cases source with
  | callData => exact copyPadded_parallel hf _ target start len
  | code => exact copyPadded_parallel hf _ target start len
  | returnData =>
      intro m n hj
      show l.Matches (copyWhole m.returnData target start len m)
        (copyWhole n.returnData target start len n)
      rw [hj.returnData]
      exact copyWhole_parallel hf _ target start len hj

theorem extCodeCopy_parallel (h : l.Kept s host' guarded) :
    l.Parallel (extCodeCopy s) (extCodeCopy (s.withHost host')) := by
  refine popAddress_parallel.bind fun a => pop_parallel.bind fun target =>
    pop_parallel.bind fun start => pop_parallel.bind fun len =>
      (touchAccount_parallel h a).bind fun _ =>
        (coverCopy_parallel h.faithful target len).bind fun range => ?_
  cases range with
  | none => exact .pure _
  | some r => exact (ask_parallel (h.quiet _ rfl)).bind fun _ => write_parallel h.faithful r.1 _

theorem mload_parallel (hf : l.Faithful) : l.Parallel (mload : Exec σ Unit) mload :=
  top_parallel.bind fun offset => (growAt_parallel hf offset 32).bind fun start =>
    (read_parallel hf start 32).bind fun _ => setTop_parallel _

theorem mstore_parallel (hf : l.Faithful) : l.Parallel (mstore : Exec σ Unit) mstore :=
  pop_parallel.bind fun offset => pop_parallel.bind fun _ =>
    (growAt_parallel hf offset 32).bind fun start => write_parallel hf start _

theorem mstore8_parallel (hf : l.Faithful) : l.Parallel (mstore8 : Exec σ Unit) mstore8 :=
  pop_parallel.bind fun offset => pop_parallel.bind fun _ =>
    (growAt_parallel hf offset 1).bind fun start => write_parallel hf start _

theorem mcopy_parallel (hf : l.Faithful) : l.Parallel (mcopy : Exec σ Unit) mcopy := by
  refine pop_parallel.bind fun target => pop_parallel.bind fun source =>
    pop_parallel.bind fun len => (coverCopy_parallel hf target len).bind fun range => ?_
  cases range with
  | none => exact .pure _
  | some r =>
      exact (growAt_parallel hf source r.2).bind fun start => move_parallel hf start r.1 r.2

theorem sload_parallel (h : l.Kept s host' guarded) :
    l.Parallel (sload s) (sload (s.withHost host')) :=
  top_parallel.bind fun _ => (touch_parallel (h.quiet _ rfl) _).bind fun _ =>
    (ask_parallel (h.quiet _ rfl)).bind fun _ => setTop_parallel _

theorem tload_parallel (h : l.Kept s host' guarded) :
    l.Parallel (tload s) (tload (s.withHost host')) :=
  top_parallel.bind fun _ => (ask_parallel (h.quiet _ rfl)).bind fun _ => setTop_parallel _

/-! ### Control -/

theorem enterBlock_parallel (arg : Arg) :
    l.Parallel (enterBlock arg : Exec σ Unit) (enterBlock arg) := by
  cases arg with
  | block cost =>
      refine (charge_parallel _).bind fun _ => ?_
      intro m n hj
      show l.Matches ((if m.stack.height < cost.required then fault .stackUnderflow
        else if stackLimit < m.stack.height + cost.growth then fault .stackOverflow
        else pure () : Exec σ Unit) m)
        ((if n.stack.height < cost.required then fault .stackUnderflow
        else if stackLimit < n.stack.height + cost.growth then fault .stackOverflow
        else pure () : Exec τ Unit) n)
      rw [hj.stack]
      exact Parallel.ite (fault_parallel _) (.ite (fault_parallel _) (.pure _)) hj
  | none => exact .pure _
  | target index => exact .pure _
  | push w => exact .pure _
  | correction gas => exact .pure _

theorem destination_parallel (arg : Arg) (dest : Word) :
    l.Parallel (destination s arg dest) (destination (s.withHost host') arg dest) := by
  have hcode : (s.withHost host').code = s.code := rfl
  obtain ⟨index, rfl, -⟩ | ⟨hne, heq⟩ := destination_cases s arg dest
  · exact .pure index
  · obtain ⟨index, harg, -⟩ | ⟨-, heq'⟩ := destination_cases (s.withHost host') arg dest
    · exact absurd harg (hne index)
    · rw [heq, heq', hcode]
      cases s.code.jumpTarget dest with
      | none => exact fault_parallel _
      | some index => exact .pure _

theorem jump_parallel (arg : Arg) : l.Parallel (jump s arg) (jump (s.withHost host') arg) :=
  pop_parallel.bind fun dest => (destination_parallel arg dest).bind fun _ => .pure _

theorem jumpi_parallel (arg : Arg) : l.Parallel (jumpi s arg) (jumpi (s.withHost host') arg) :=
  pop_parallel.bind fun dest => pop_parallel.bind fun _ =>
    .ite (.pure _) ((destination_parallel arg dest).bind fun _ => .pure _)

theorem gas_parallel (correction : Nat) :
    l.Parallel (gas correction : Exec σ Unit) (gas correction) :=
  remaining_parallel.bind fun _ => (amount_parallel _).bind fun _ => push_parallel _

theorem output_parallel (hf : l.Faithful) : l.Parallel (output : Exec σ ByteArray) output :=
  pop_parallel.bind fun offset => pop_parallel.bind fun len =>
    (cover_parallel hf offset len).bind fun range => readRange_parallel hf range

theorem checkCodeSize_parallel : l.Parallel (checkCodeSize s) (checkCodeSize (s.withHost host')) :=
  .ite ((peek_parallel 1).bind fun _ => .ite (fault_parallel _) (.pure _)) (.pure _)

theorem ret_parallel (hf : l.Faithful) : l.Parallel (ret s) (ret (s.withHost host')) :=
  checkCodeSize_parallel.bind fun _ => output_parallel hf

/-! ### Calls -/

theorem popValue_parallel (op : CallOp) :
    l.Parallel (popValue op : Exec σ Word) (popValue op) :=
  .ite pop_parallel (.pure _)

theorem popCallOperands_parallel (op : CallOp) :
    l.Parallel (popCallOperands op : Exec σ CallOperands) (popCallOperands op) :=
  pop_parallel.bind fun _ => popAddress_parallel.bind fun _ => (popValue_parallel op).bind fun _ =>
    pop_parallel.bind fun _ => pop_parallel.bind fun _ => pop_parallel.bind fun _ =>
      pop_parallel.bind fun _ => .pure _

theorem payForCall_parallel (h : l.Kept s host' guarded) (op : CallOp) (o : CallOperands) :
    l.Parallel (payForCall s op o) (payForCall (s.withHost host') op o) :=
  (touchAccount_parallel h _).bind fun _ =>
    (Parallel.ite (charge_parallel _) (.pure _)).bind fun _ =>
      .ite ((ask_parallel (h.quiet _ rfl)).bind fun _ => .ite (charge_parallel _) (.pure _)) (.pure _)

theorem forwarded_parallel (requested : Word) :
    l.Parallel (forwarded s requested) (forwarded (s.withHost host') requested) := by
  refine remaining_parallel.bind fun left => ?_
  have hschedule : (s.withHost host').schedule = s.schedule := rfl
  rw [hschedule]
  cases s.schedule.forwarded left requested with
  | error f => exact fault_parallel f
  | ok gas => exact .pure gas

theorem storeOutput_parallel (hf : l.Faithful) (range : Option (Nat × Nat)) (bytes : ByteArray) :
    l.Parallel (storeOutput range bytes : Exec σ Unit) (storeOutput range bytes) := by
  cases range with
  | none => exact .pure _
  | some r => exact write_parallel hf r.1 _

theorem runCall_parallel (h : l.Kept s host' guarded) {op : CallOp} {o : CallOperands}
    (hissued : ∀ input gas, s.IssuesUnder guarded (callRequest s.context op o input gas))
    (input output : Option (Nat × Nat)) (childGas : Nat) :
    l.Parallel (runCall s op o input output childGas)
      (runCall (s.withHost host') op o input output childGas) :=
  (charge_parallel _).bind fun _ => (readRange_parallel h.faithful input).bind fun data =>
    (amount_parallel _).bind fun gas => (call_parallel h (hissued data gas)).bind fun _ =>
      (giveBack_parallel _).bind fun _ => (storeOutput_parallel h.faithful output _).bind fun _ =>
        (setReturnData_parallel _).bind fun _ => push_parallel _

/-- The value among the operands of a call is the third word of the stack, if the call has one. -/
theorem of_popCallOperands_ok {op : CallOp} {o : CallOperands} {m m' : Machine σ}
    (h : popCallOperands op m = .ok o m') :
    (takesValue op = true → m.stack.peek? 2 = some o.value) ∧
      (takesValue op = false → o.value = 0#256) := by
  obtain ⟨requested, m₁, hrequested, h⟩ := Act.eq_of_bind_ok h
  obtain ⟨target, m₂, htarget, h⟩ := Act.eq_of_bind_ok h
  obtain ⟨value, m₃, hvalue, h⟩ := Act.eq_of_bind_ok h
  obtain ⟨_, _, -, h⟩ := Act.eq_of_bind_ok h
  obtain ⟨_, _, -, h⟩ := Act.eq_of_bind_ok h
  obtain ⟨_, _, -, h⟩ := Act.eq_of_bind_ok h
  obtain ⟨_, _, -, h⟩ := Act.eq_of_bind_ok h
  cases h
  obtain ⟨w, m₂', htarget, hpure⟩ := Act.eq_of_bind_ok htarget
  cases hpure
  obtain ⟨st₁, hst₁, rfl⟩ := of_pop_ok hrequested
  obtain ⟨st₂, hst₂, rfl⟩ := of_pop_ok htarget
  unfold popValue at hvalue
  constructor
  · intro htakes
    rw [if_pos htakes] at hvalue
    obtain ⟨st₃, hst₃, rfl⟩ := of_pop_ok hvalue
    rw [Stack.peek?_succ_of_pop? hst₁ 1, Stack.peek?_succ_of_pop? hst₂ 0]
    exact Stack.peek?_of_pop? hst₃
  · intro htakes
    rw [htakes] at hvalue
    cases hvalue
    rfl

theorem violatesStatic_whenValue {stack : Stack} {depth : Nat} {w : Word}
    (h : stack.peek? depth = some w) :
    violatesStatic (.whenValue depth) stack = (w != 0#256) := by
  unfold violatesStatic
  dsimp only
  rw [h]

/-- The request of a call whose operands are as the instruction and the ban leave them. -/
theorem issuesUnder_call {op : CallOp} {o : CallOperands} (input : ByteArray) (gas : Nat)
    (hdepth : s.context.depth < s.maxCallDepth) (hnone : takesValue op = false → o.value = 0#256)
    (hbanned : guarded = true → op = .call → o.value = 0#256) :
    s.IssuesUnder guarded (callRequest s.context op o input gas) := by
  refine ⟨.call op o input gas hdepth, ?_, fun hguarded => ⟨?_, ?_⟩⟩
  · intro hkind
    have htakes : takesValue op = false := by
      cases op with
      | call => rcases hkind with hkind | hkind <;> cases hkind
      | callCode => rcases hkind with hkind | hkind <;> cases hkind
      | delegateCall => rfl
      | staticCall => rfl
    show (o.value != 0#256) = false
    rw [hnone htakes]
    rfl
  · cases op <;> rfl
  · intro hkind
    cases op with
    | call => exact hbanned hguarded rfl
    | _ => cases hkind

theorem call_matches (h : l.Kept s host' guarded) {op : CallOp} {m : Machine σ} {n : Machine τ}
    (hj : l.Joins m n) (hban : (guarded && violatesStatic (Op.call op).effect m.stack) = false) :
    l.Matches (call s op .u64 m) (call (s.withHost host') op .u64 n) := by
  refine (popCallOperands_parallel op hj).bind fun o m₁ n₁ ho hj₁ => ?_
  obtain ⟨hvalue, hnone⟩ := of_popCallOperands_ok ho
  -- the ban looked at the word that is now the value
  have hbanned : guarded = true → op = .call → o.value = 0#256 := by
    rintro rfl rfl
    have hzero : violatesStatic (.whenValue 2) m.stack = false := hban
    rw [violatesStatic_whenValue (hvalue rfl)] at hzero
    simpa using hzero
  have hskip : l.Parallel (skipCall o.value : Exec σ Unit) (skipCall o.value) :=
    (giveBack_parallel _).bind fun _ => push_parallel _
  refine ((cover_parallel h.faithful _ _).bind fun input =>
    (cover_parallel h.faithful _ _).bind fun output => (payForCall_parallel h op o).bind fun _ =>
      (forwarded_parallel _).bind fun childGas => (setReturnData_parallel _).bind fun _ =>
        .branch (fun _ => hskip) fun hdepth => runCall_parallel h ?_ input output childGas) hj₁
  exact fun data gas => issuesUnder_call data gas (Nat.not_le.mp hdepth) hnone hbanned

/-! ### Creations -/

theorem popCreateKind_parallel (salted : Bool) :
    l.Parallel (popCreateKind salted : Exec σ CallKind) (popCreateKind salted) :=
  .ite (pop_parallel.bind fun _ => .pure _) (.pure _)

theorem isCreate_of_popCreateKind {salted : Bool} {kind : CallKind} {m m' : Machine σ}
    (h : popCreateKind salted m = .ok kind m') : kind.isCreate = true := by
  cases salted with
  | false =>
      cases h
      rfl
  | true =>
      obtain ⟨salt, m₁, -, hpure⟩ := Act.eq_of_bind_ok h
      cases hpure
      rfl

theorem keepFailure_parallel (result : CallResult) :
    l.Parallel (keepFailure result : Exec σ Unit) (keepFailure result) :=
  .ite (.pure _) (setReturnData_parallel _)

theorem runCreate_parallel (h : l.Kept s host' guarded) {kind : CallKind} {value : Word}
    (hissued : ∀ code gas, s.IssuesUnder guarded (createRequest s.context kind value code gas))
    (range : Option (Nat × Nat)) :
    l.Parallel (runCreate s kind value range) (runCreate (s.withHost host') kind value range) :=
  remaining_parallel.bind fun _ => (charge_parallel _).bind fun _ =>
    (readRange_parallel h.faithful range).bind fun code =>
      (call_parallel h (hissued code _)).bind fun result => (giveBack_parallel _).bind fun _ =>
        (keepFailure_parallel result).bind fun _ => push_parallel _

/-- The request of a creation that is not banned. -/
theorem issuesUnder_create {kind : CallKind} (value : Word) (initCode : ByteArray) (gas : Nat)
    (hkind : kind.isCreate = true) (hdepth : s.context.depth < s.maxCallDepth)
    (hfree : guarded = false) :
    s.IssuesUnder guarded (createRequest s.context kind value initCode gas) := by
  refine ⟨.create kind value initCode gas hkind hdepth, ?_, ?_⟩
  · rintro (rfl | rfl)
    · cases hkind
    · cases hkind
  · rw [hfree]
    exact nofun

theorem create_parallel (h : l.Kept s host' guarded) (hfree : guarded = false) (salted : Bool) :
    l.Parallel (create s salted) (create (s.withHost host') salted) := by
  refine pop_parallel.bind fun value => pop_parallel.bind fun offset => ?_
  refine pop_parallel.bind fun len => ?_
  intro m n hj
  refine (popCreateKind_parallel salted hj).bind fun kind m₁ n₁ hkind hj₁ => ?_
  refine ((Parallel.ite (fault_parallel _) (.pure _)).bind fun _ =>
    (cover_parallel h.faithful offset len).bind fun range => (charge_parallel _).bind fun _ =>
      (charge_parallel _).bind fun _ => (setReturnData_parallel _).bind fun _ =>
        .branch (fun _ => push_parallel _) fun hdepth => runCreate_parallel h ?_ range) hj₁
  exact fun code gas => issuesUnder_create value code gas (isCreate_of_popCreateKind hkind)
    (Nat.not_le.mp hdepth) hfree

/-- What an effect sees through the correction of its block is no matter to a link. -/
theorem observing_matches {x : Exec σ Unit} {y : Exec τ Unit} {m : Machine σ} {n : Machine τ}
    (correction : Nat) (hj : l.Joins m n)
    (h : ∀ m' n', m'.stack = m.stack → l.Joins m' n' → l.Matches (x m') (y n')) :
    l.Matches (observing correction x .u64 m) (observing correction y .u64 n) := by
  refine (giveBack_parallel correction hj).bind fun _ m₁ n₁ hgive hj₁ => ?_
  have hstack : m₁.stack = m.stack := by
    cases hgive
    rfl
  exact (h m₁ n₁ hstack hj₁).bind fun _ _ _ _ hj₂ => charge_parallel correction hj₂

end Effect

/-! ## Effects that change state -/

section Loud

open Link

variable {l : Link σ τ} {s : Setting σ} {host' : Host τ}

theorem Effect.sstore_parallel
    (hanswers : ∀ q : Query, q.IsOwn s.context.address → l.Answers s.host host' q)
    (hrefund : ∀ p p' r k, l.state p p' r → l.state p p' (r + k)) :
    l.Parallel (sstore s) (sstore (s.withHost host')) := by
  refine pop_parallel.bind fun key => pop_parallel.bind fun value => ?_
  have hsentry : l.Parallel (requireSentry s) (requireSentry (s.withHost host')) :=
    remaining_parallel.bind fun _ => .ite (fault_parallel _) (.pure _)
  have hcold : l.Parallel (slotWasCold s key) (slotWasCold (s.withHost host') key) :=
    .ite (ask_parallel (hanswers _ (by trivial))) (.pure _)
  have hinitial (current : Word) : l.Parallel (initialValue s key current)
      (initialValue (s.withHost host') key current) :=
    .ite (ask_parallel (hanswers _ (by trivial))) (.pure _)
  exact hsentry.bind fun _ => hcold.bind fun _ =>
    (ask_parallel (hanswers _ (by trivial))).bind fun current => (hinitial current).bind fun _ =>
      (charge_parallel _).bind fun _ => (refund_parallel fun p p' r => hrefund p p' r _).bind fun _ =>
        ask_parallel (hanswers _ (by rfl))

theorem Effect.tstore_parallel
    (hanswers : ∀ q : Query, q.IsOwn s.context.address → q.writesSlot = false →
      l.Answers s.host host' q) :
    l.Parallel (tstore s) (tstore (s.withHost host')) :=
  pop_parallel.bind fun _ => pop_parallel.bind fun _ => ask_parallel (hanswers _ (by rfl) rfl)

theorem Effect.log_parallel (hf : l.Faithful)
    (hanswers : ∀ q : Query, q.IsOwn s.context.address → q.writesSlot = false →
      l.Answers s.host host' q) (count : Nat) :
    l.Parallel (log s count) (log (s.withHost host') count) :=
  pop_parallel.bind fun offset => pop_parallel.bind fun len =>
    (popMany_parallel count).bind fun _ => (cover_parallel hf offset len).bind fun range =>
      (charge_parallel _).bind fun _ => (readRange_parallel hf range).bind fun _ =>
        ask_parallel (hanswers _ (by rfl) rfl)

/-- A destruction writes no slot, and earns something or nothing. -/
theorem Effect.selfDestruct_parallel
    (hanswers : ∀ q : Query, q.IsOwn s.context.address → q.writesSlot = false →
      l.Answers s.host host' q)
    (hrefund : ∀ p p' r k, 0 ≤ k → l.state p p' r → l.state p p' (r + k)) :
    l.Parallel (selfDestruct s) (selfDestruct (s.withHost host')) := by
  refine popAddress_parallel.bind fun beneficiary => ?_
  have hsends : l.Parallel (sendsBalance s) (sendsBalance (s.withHost host')) :=
    .ite ((ask_parallel (hanswers _ (by trivial) rfl)).bind fun _ => .pure _) (.pure _)
  have hpay : l.Parallel (payForBeneficiary s beneficiary)
      (payForBeneficiary (s.withHost host') beneficiary) :=
    .ite (hsends.bind fun _ => .ite ((ask_parallel (hanswers _ (by trivial) rfl)).bind fun _ =>
      .ite (charge_parallel _) (.pure _)) (.pure _)) (.pure _)
  refine (touch_parallel (hanswers _ (by trivial) rfl) _).bind fun _ => hpay.bind fun _ =>
    (ask_parallel (hanswers _ (by rfl) rfl)).bind fun _ =>
      .branch (fun hearns => ?_) fun _ => .pure _
  rw [Bool.and_eq_true, decide_eq_true_eq] at hearns
  exact refund_parallel fun p p' r => hrefund p p' r _ (Int.le_of_lt hearns.2)

/-- A link that is kept by all answers to queries of the frame and does not look at refunds is kept by
    the effects that change state. -/
theorem Link.Loud.of_answers (hf : l.Faithful)
    (hanswers : ∀ q : Query, q.IsOwn s.context.address → l.Answers s.host host' q)
    (hrefund : ∀ p p' r k, l.state p p' r → l.state p p' (r + k)) : l.Loud s host' where
  sstore := Effect.sstore_parallel hanswers hrefund
  tstore := Effect.tstore_parallel fun q hq _ => hanswers q hq
  log := Effect.log_parallel hf fun q hq _ => hanswers q hq
  selfDestruct := Effect.selfDestruct_parallel (fun q hq _ => hanswers q hq) fun p p' r k _ =>
    hrefund p p' r k

end Loud

/-! ## All instructions -/

section Instructions

open Link

variable {l : Link σ τ} {s : Setting σ} {host' : Host τ} {guarded : Bool}

theorem Link.Matches.andNext {x : Exec σ Unit} {y : Exec τ Unit} {m : Machine σ} {n : Machine τ}
    (h : l.Matches (x m) (y n)) : l.Matches (andNext x m) (andNext y n) :=
  h.bind fun _ _ _ _ hj => .ok _ hj

/-- A banned instruction does not get so far, so one that does is free to change state. -/
theorem guarded_eq_false {op : Op} {stack : Stack} (heffect : op.effect = .always)
    (hban : (guarded && violatesStatic op.effect stack) = false) : guarded = false := by
  rw [heffect] at hban
  cases guarded with
  | false => rfl
  | true => cases hban

/-- **Every instruction keeps a link**: from linked machines it comes to the same flow or the same
    failure, and to linked machines. -/
theorem Op.exec_matches (h : l.Kept s host' guarded) (ins : Instruction) {op : Op} {m : Machine σ}
    {n : Machine τ} (hj : l.Joins m n)
    (hban : (guarded && violatesStatic op.effect m.stack) = false) :
    l.Matches (op.exec s ins m) (op.exec (s.withHost host') ins n) := by
  have hf := h.faithful
  cases op with
  | stop => exact .ok _ hj
  | unary f => exact (Effect.unary_parallel _ hj).andNext
  | binary f => exact (Effect.binary_parallel _ hj).andNext
  | ternary f => exact (Effect.ternary_parallel _ hj).andNext
  | exp => exact (Effect.exp_parallel hj).andNext
  | keccak256 => exact (Effect.keccak256_parallel hf hj).andNext
  | reading r => exact (Effect.reading_parallel h _ r hj).andNext
  | selfBalance => exact (Effect.selfBalance_parallel h hj).andNext
  | account field => exact (Effect.account_parallel h field hj).andNext
  | callDataLoad => exact (Effect.callDataLoad_parallel hj).andNext
  | copy source => exact (Effect.copy_parallel hf source hj).andNext
  | extCodeCopy => exact (Effect.extCodeCopy_parallel h hj).andNext
  | blockHash => exact (Effect.blockHash_parallel h hj).andNext
  | blobHash => exact (Effect.blobHash_parallel h hj).andNext
  | pop => exact ((pop_parallel.bind fun _ => Parallel.pure _) hj).andNext
  | mload => exact (Effect.mload_parallel hf hj).andNext
  | mstore => exact (Effect.mstore_parallel hf hj).andNext
  | mstore8 => exact (Effect.mstore8_parallel hf hj).andNext
  | mcopy => exact (Effect.mcopy_parallel hf hj).andNext
  | sload => exact (Effect.sload_parallel h hj).andNext
  | sstore =>
      exact (Effect.observing_matches _ hj fun _ _ _ hj' =>
        (h.loud (guarded_eq_false rfl hban)).sstore hj').andNext
  | tload => exact (Effect.tload_parallel h hj).andNext
  | tstore => exact ((h.loud (guarded_eq_false rfl hban)).tstore hj).andNext
  | jump => exact Effect.jump_parallel _ hj
  | jumpi => exact Effect.jumpi_parallel _ hj
  | jumpDest => exact (Effect.enterBlock_parallel _ hj).andNext
  | gas => exact (Effect.gas_parallel _ hj).andNext
  | push _ => exact (push_parallel _ hj).andNext
  | dup k => exact (dup_parallel _ hj).andNext
  | swap k => exact (swap_parallel _ hj).andNext
  | log k => exact ((h.loud (guarded_eq_false rfl hban)).log _ hj).andNext
  | create salted =>
      exact (Effect.observing_matches _ hj fun _ _ _ hj' =>
        Effect.create_parallel h (guarded_eq_false rfl hban) salted hj').andNext
  | call kind =>
      refine (Effect.observing_matches _ hj fun m' n' hstack hj' => ?_).andNext
      exact Effect.call_matches h hj' (by rw [hstack]; exact hban)
  | ret => exact ((Effect.ret_parallel hf).bind fun _ => Parallel.pure _) hj
  | revert => exact ((Effect.output_parallel hf).bind fun _ => Parallel.pure _) hj
  | invalid => exact fault_parallel _ hj
  | selfDestruct =>
      exact ((h.loud (guarded_eq_false rfl hban)).selfDestruct.bind fun _ => Parallel.pure _) hj

end Instructions

end MeteredEvm
