import MeteredEvm.Step
import MeteredEvm.Proofs.Memory

/-!
# `MeteredEvm.Proofs.Audit` — instructions with their conditions written out

An instruction relies on conditions that it does not look at: that a range of memory it uses lies in
the view, that a slice of a byte string lies in the string, that a sum, product or difference is a
64-bit number. Here every instruction is written once more with these conditions spelled out, each at
the place where it matters. An `Audit` says what becomes of them. If they are waived, what is left are
the instructions themselves (`Audit.waived_step`); if they are enforced, an instruction that violates
one fails.

## Contents
* `Memory.HasRange`, `Memory.Measurable` — conditions on memory.
* `Audit`, `Audit.waived`, `Audit.enforced`, `Audit.Passes`.
* `Audit.charge`, `Audit.cover`, `Audit.read`, `Audit.slice`, … — audited operations of a machine.
* `Audit.exp`, … , `Audit.create`, `Audit.exec`, `Audit.step` — audited instructions.
* `Audit.waived_step` — without the conditions these are the instructions.
-/

namespace MeteredEvm

variable {σ : Type}

/-! ## Conditions -/

/-- All that is computed for the price of so many words is a 64-bit number. -/
def Gas.MemoryFits (words : Nat) : Prop :=
  3 * words < u64Size ∧ words * words < u64Size ∧ Gas.memory words < u64Size

instance Gas.decidableMemoryFits (words : Nat) : Decidable (MemoryFits words) :=
  inferInstanceAs (Decidable (_ ∧ _))

namespace Memory

/-- The range lies in the active view, and so in the buffer. -/
def HasRange (m : Memory) (offset len : Nat) : Prop :=
  offset + len ≤ m.size ∧ m.base + offset + len ≤ m.buffer.size

/-- **All that is computed for a view of `stop` bytes is a 64-bit number**: the size of the view that is
    there, both prices, their difference, and the end of the new view in the buffer. -/
def Measurable (m : Memory) (stop : Nat) : Prop :=
  m.base ≤ m.buffer.size ∧ Gas.MemoryFits (wordsFor stop) ∧ Gas.MemoryFits (m.size / 32) ∧
    (m.size / 32 ≤ wordsFor stop → Gas.memory (m.size / 32) ≤ Gas.memory (wordsFor stop)) ∧
    m.base + 32 * wordsFor stop < u64Size

instance decidableHasRange (m : Memory) (offset len : Nat) : Decidable (m.HasRange offset len) :=
  inferInstanceAs (Decidable (_ ∧ _))

instance decidableMeasurable (m : Memory) (stop : Nat) : Decidable (m.Measurable stop) :=
  inferInstanceAs (Decidable (_ ∧ _))

end Memory

/-- What becomes of a condition that an instruction relies on. -/
structure Audit (σ : Type) where
  /-- Demand a condition. -/
  demand : (c : Prop) → [Decidable c] → Exec σ Unit

namespace Audit

open Exec

/-- No condition is looked at. -/
def waived : Audit σ where
  demand _ := pure ()

/-- A condition that does not hold fails with `e`. -/
def enforced (e : Failure) : Audit σ where
  demand c := if c then pure () else throw e

/-- Conditions that hold make no difference. -/
def Passes (audit : Audit σ) : Prop := ∀ (c : Prop) [Decidable c], c → audit.demand c = pure ()

theorem enforced_passes (e : Failure) : (enforced e : Audit σ).Passes := fun _ _ hc => if_pos hc

variable (audit : Audit σ) (s : Setting σ)

/-! ## Operations -/

/-- Pay a 64-bit amount. -/
def charge (cost : Nat) : Exec σ Unit := do
  audit.demand (cost < u64Size)
  Exec.charge cost

/-- Hand back gas; what is left then is a 64-bit amount. -/
def giveBack (n : Nat) : Exec σ Unit := do
  audit.demand ((← get).gas.remaining + n < u64Size)
  Exec.giveBack n

/-- A sum that is a 64-bit amount. -/
def amount (n : Nat) : Exec σ Nat := do
  audit.demand (n < u64Size)
  Exec.amount n

/-- What is computed before a view is made to hold `stop` bytes, if it may hold them. -/
def growth (stop : Nat) : Exec σ Unit := do
  let memory := (← get).memory
  -- past the limit nothing is computed
  if stop ≤ memory.limit then audit.demand (memory.Measurable stop)

/-- Make the view hold a range given by two words. -/
def cover (offset len : Word) : Exec σ (Option (Nat × Nat)) := do
  -- an empty range is not measured, wherever it starts
  if len ≠ 0#256 then audit.growth (offset.toNat + len.toNat)
  Exec.cover offset len

/-- Make the view hold `len` bytes at the offset given by a word. -/
def growAt (offset : Word) (len : Nat) : Exec σ Nat := do
  audit.growth (offset.toNat + len)
  Exec.growAt offset len

/-- Pay for a copy and make the view hold its target. -/
def coverCopy (offset len : Word) : Exec σ (Option (Nat × Nat)) := do
  if len = 0#256 then return none
  else
    match len.toU64? with
    | some n => do
      audit.charge (Gas.copy n)
      audit.cover offset len
    | none => fault .outOfGas

/-- Bytes of the view. -/
def read (offset len : Nat) : Exec σ ByteArray := do
  audit.demand ((← get).memory.HasRange offset len)
  Exec.read offset len

/-- The bytes of a range of the view, if it is not empty. -/
def readRange : Option (Nat × Nat) → Exec σ ByteArray
  | some (offset, len) => audit.read offset len
  | none => return .empty

/-- Write to the view. -/
def write (offset : Nat) (bytes : ByteArray) : Exec σ Unit := do
  audit.demand ((← get).memory.HasRange offset bytes.size)
  Exec.write offset bytes

/-- Copy inside the view. -/
def move (source target len : Nat) : Exec σ Unit := do
  let memory := (← get).memory
  audit.demand (memory.HasRange source len ∧ memory.HasRange target len)
  Exec.move source target len

/-- The bytes of `data` from `start` up to `stop`. -/
def slice (data : ByteArray) (start stop : Nat) : Exec σ ByteArray := do
  audit.demand (start ≤ stop ∧ stop ≤ data.size)
  return data.extract start stop

/-- `len` bytes: a slice of `data` from `start` on, as far as there are any, and zeros after it. -/
def padded (data : ByteArray) (start len : Nat) : Exec σ ByteArray := do
  let first := min start data.size
  let available := min (data.size - first) len
  let bytes ← audit.slice data first (first + available)
  audit.demand (bytes.size ≤ len)
  return bytes ++ Bytes.zeros (len - bytes.size)

/-- Pay a surcharge on the first use of something. -/
def touch (surcharge : Nat) (access : Access) : Exec σ Unit := do
  if 0 < surcharge then
    if ← ask s (.markWarm access) then audit.charge surcharge

/-- Pay the surcharge of the first use of an account. -/
def touchAccount (a : Address) : Exec σ Unit :=
  audit.touch s s.schedule.coldAccountSurcharge (.account a)

/-! ## Words, values and byte strings -/

/-- A power. -/
def exp : Exec σ Unit := do
  let base ← pop
  let exponent ← top
  audit.charge (s.schedule.exp exponent)
  setTop (base.power exponent.toNat)

/-- The hash of a range of memory. -/
def keccak256 : Exec σ Unit := do
  let offset ← pop
  let len ← top
  let range ← audit.cover offset len
  audit.charge (Gas.keccak (rangeSize range))
  let bytes ← audit.readRange range
  setTop (Keccak.digest bytes)

/-- Push a reading. The size of the view is a difference. -/
def reading (pc : Nat) (r : Reading) : Exec σ Unit := do
  let m ← get
  audit.demand (r = .memorySize → m.memory.base ≤ m.memory.buffer.size)
  push (← Effect.valueOf s pc r)

/-- Replace an address by something about the account. -/
def account (field : AccountField) : Exec σ Unit := do
  let a ← popAddress
  audit.touchAccount s a
  push (← Effect.accountField s a field)

/-- The 32 bytes of call data from an offset on. -/
def callDataLoad : Exec σ Unit := do
  let offset ← top
  match offset.toU64? with
  | some start => do
    let bytes ← audit.padded s.input start 32
    setTop (Bytes.toWord bytes)
  | none => setTop (Bytes.toWord (Bytes.zeros 32))

/-- Copy from a byte string to memory. -/
def copyPadded (data : ByteArray) (target source len : Word) : Exec σ Unit := do
  match ← audit.coverCopy target len with
  | some (offset, n) => do
    let bytes ← audit.padded data source.clampU64 n
    audit.write offset bytes
  | none => pure ()

/-- Copy a range of a byte string that has to be all there. -/
def copyWhole (data : ByteArray) (target source len : Word) : Exec σ Unit := do
  match source.add? len with
  | none => fault .returnDataOutOfBounds
  | some stop =>
    if Effect.ofNat data.size < stop then fault .returnDataOutOfBounds
    else
      match ← audit.coverCopy target len with
      | some (offset, n) => do
        -- the check above is on whole words, the slice starts at the low 64 bits of one
        audit.demand (source.lowU64 + n ≤ data.size)
        let bytes ← orTrap .data (Bytes.range? data source.lowU64 n)
        audit.write offset bytes
      | none => pure ()

/-- Copy from a byte string of the frame to memory. -/
def copy (source : CopySource) : Exec σ Unit := do
  let target ← pop
  let start ← pop
  let len ← pop
  match source with
  | .callData => audit.copyPadded s.input target start len
  | .code => audit.copyPadded s.code.code target start len
  | .returnData => audit.copyWhole (← get).returnData target start len

/-- Copy from the code of another account to memory. -/
def extCodeCopy : Exec σ Unit := do
  let a ← popAddress
  let target ← pop
  let start ← pop
  let len ← pop
  audit.touchAccount s a
  match ← audit.coverCopy target len with
  | some (offset, n) => do
    let code ← ask s (.code a)
    let bytes ← audit.padded code start.clampU64 n
    audit.write offset bytes
  | none => pure ()

/-! ## Memory -/

/-- Load a word. -/
def mload : Exec σ Unit := do
  let offset ← top
  let start ← audit.growAt offset 32
  setTop (Bytes.toWord (← audit.read start 32))

/-- Store a word. -/
def mstore : Exec σ Unit := do
  let offset ← pop
  let value ← pop
  let start ← audit.growAt offset 32
  audit.write start (Bytes.ofWord value)

/-- Store the low byte of a word. -/
def mstore8 : Exec σ Unit := do
  let offset ← pop
  let value ← pop
  let start ← audit.growAt offset 1
  audit.write start (Bytes.ofNat 1 value.toNat)

/-- Copy inside the memory. -/
def mcopy : Exec σ Unit := do
  let target ← pop
  let source ← pop
  let len ← pop
  match ← audit.coverCopy target len with
  | some (offset, n) => do
    let start ← audit.growAt source n
    audit.move start offset n
  | none => pure ()

/-! ## State -/

/-- Read a storage slot. -/
def sload : Exec σ Unit := do
  let key ← top
  audit.touch s s.schedule.coldSlotSurcharge (.slot s.context.address key)
  setTop (← ask s (.storage s.context.address key))

/-- Write a storage slot. What a write can give back is a difference of prices. -/
def sstore : Exec σ Unit := do
  let key ← pop
  let value ← pop
  Effect.requireSentry s
  let wasCold ← Effect.slotWasCold s key
  let current ← ask s (.storage s.context.address key)
  let initial ← Effect.initialValue s key current
  audit.demand (s.schedule.slotRead ≤ s.schedule.slotReset ∧ s.schedule.slotRead ≤ Gas.sstoreSet)
  let cost := s.schedule.sstore initial current value wasCold
  audit.charge cost.gas
  refund cost.refund
  ask s (.setStorage s.context.address key value)

/-- Emit a log of a range of memory. -/
def log (count : Nat) : Exec σ Unit := do
  let offset ← pop
  let len ← pop
  let topics ← popMany count
  let range ← audit.cover offset len
  audit.charge (Gas.log count (rangeSize range))
  let data ← audit.readRange range
  ask s (.emitLog { address := s.context.address, topics, data })

/-- Pay for a beneficiary that comes into being. -/
def payForBeneficiary (beneficiary : Address) : Exec σ Unit := do
  if s.schedule.rules.allButOne64th then
    if ← Effect.sendsBalance s then
      if ← ask s (.isEmpty beneficiary) then audit.charge Gas.newAccount

/-- Schedule the frame's own account for destruction. -/
def selfDestruct : Exec σ Unit := do
  let beneficiary ← popAddress
  audit.touch s (if s.schedule.rules.accessLists then Gas.coldAccount else 0) (.account beneficiary)
  audit.payForBeneficiary s beneficiary
  let first ← ask s (.markForDestruction s.context.address beneficiary)
  if first && decide (0 < s.schedule.selfDestructRefund) then refund s.schedule.selfDestructRefund

/-! ## Gas and ends -/

/-- Push the gas that a meter without blocks would show. -/
def gas (correction : Nat) : Exec σ Unit := do
  let left ← audit.amount ((← remaining) + correction)
  push (BitVec.ofNat 256 left)

/-- An effect that looks at the gas that is left. -/
def observing (correction : Nat) (effect : Exec σ Unit) : Exec σ Unit := do
  audit.giveBack correction
  effect
  audit.charge correction

/-- The range of memory that a frame hands out. -/
def output : Exec σ ByteArray := do
  let offset ← pop
  let len ← pop
  audit.readRange (← audit.cover offset len)

/-- Return. -/
def ret : Exec σ ByteArray := do
  Effect.checkCodeSize s
  audit.output

/-! ## Calls and creations -/

/-- Pay for sending value. -/
def payForValue (value : Word) : Exec σ Unit :=
  if value ≠ 0#256 then audit.charge Gas.callValue else pure ()

/-- Pay for an account that a call brings into being. -/
def payForNewAccount (op : CallOp) (o : Effect.CallOperands) : Exec σ Unit := do
  if op = .call ∧ (o.value ≠ 0#256 ∨ s.schedule.rules.emptyAccountRule = false) then
    if ← ask s (.isEmpty o.target) then audit.charge Gas.newAccount

/-- Pay for reaching the account, for sending value, and for an account that comes into being. -/
def payForCall (op : CallOp) (o : Effect.CallOperands) : Exec σ Unit := do
  audit.touchAccount s o.target
  audit.payForValue o.value
  audit.payForNewAccount s op o

/-- Write what a child returned to the range set apart for it, as far as it goes. -/
def storeOutput (range : Option (Nat × Nat)) (bytes : ByteArray) : Exec σ Unit :=
  match range with
  | some (offset, n) => do
    let kept ← audit.slice bytes 0 (min n bytes.size)
    audit.write offset kept
  | none => pure ()

/-- Run the child of a call and take its results. -/
def runCall (op : CallOp) (o : Effect.CallOperands) (input output : Option (Nat × Nat))
    (childGas : Nat) : Exec σ Unit := do
  audit.charge childGas
  let data ← audit.readRange input
  let gas ← audit.amount (childGas + Effect.stipend o.value)
  let result ← Exec.call s (Effect.callRequest s.context op o data gas)
  audit.giveBack result.gasLeft
  -- the range has been made part of the view before the child ran
  audit.storeOutput output result.output
  setReturnData result.output
  push (Word.ofBool result.success)

/-- What stands for the child of a call at the depth limit. -/
def skipCall (value : Word) : Exec σ Unit := do
  audit.giveBack (Effect.stipend value)
  push 0#256

/-- A call. -/
def call (op : CallOp) : Exec σ Unit := do
  let o ← Effect.popCallOperands op
  let input ← audit.cover o.inOffset o.inLen
  let output ← audit.cover o.outOffset o.outLen
  audit.payForCall s op o
  let childGas ← Effect.forwarded s o.requested
  setReturnData .empty
  if s.maxCallDepth ≤ s.context.depth then audit.skipCall o.value
  else audit.runCall s op o input output childGas

/-- Run the child of a creation and take its results. -/
def runCreate (kind : CallKind) (value : Word) (range : Option (Nat × Nat)) : Exec σ Unit := do
  let childGas := Effect.createGas s.schedule.rules (← remaining)
  audit.charge childGas
  let initCode ← audit.readRange range
  let result ← Exec.call s (Effect.createRequest s.context kind value initCode childGas)
  audit.giveBack result.gasLeft
  Effect.keepFailure result
  push (Effect.createdWord result)

/-- A creation. -/
def create (salted : Bool) : Exec σ Unit := do
  let value ← pop
  let offset ← pop
  let len ← pop
  let kind ← Effect.popCreateKind salted
  Effect.checkInitCode s len
  let range ← audit.cover offset len
  let cost := Effect.initCodeCost s.schedule.rules salted (rangeSize range)
  audit.charge cost.1
  audit.charge cost.2
  setReturnData .empty
  if s.maxCallDepth ≤ s.context.depth then push 0#256
  else audit.runCreate s kind value range

/-! ## All instructions -/

/-- The effect of an instruction, with its conditions. The other instructions neither touch memory nor
    slice byte strings, and what they pay is no matter of computing. -/
def exec (ins : Instruction) : Op → Exec σ Flow
  | .exp => andNext (audit.exp s)
  | .keccak256 => andNext audit.keccak256
  | .reading r => andNext (audit.reading s ins.pc r)
  | .account field => andNext (audit.account s field)
  | .callDataLoad => andNext (audit.callDataLoad s)
  | .copy source => andNext (audit.copy s source)
  | .extCodeCopy => andNext (audit.extCodeCopy s)
  | .mload => andNext audit.mload
  | .mstore => andNext audit.mstore
  | .mstore8 => andNext audit.mstore8
  | .mcopy => andNext audit.mcopy
  | .sload => andNext (audit.sload s)
  | .sstore => andNext (audit.observing ins.correction (audit.sstore s))
  | .gas => andNext (audit.gas ins.correction)
  | .log n => andNext (audit.log s n.val)
  | .create salted => andNext (audit.observing ins.correction (audit.create s salted))
  | .call kind => andNext (audit.observing ins.correction (audit.call s kind))
  | .ret => do return .halt (.ret (← audit.ret s))
  | .revert => do return .halt (.revert (← audit.output))
  | .selfDestruct => do
    audit.selfDestruct s
    return .halt .selfDestruct
  | op => op.exec s ins

/-- One instruction of the stream, with its conditions. -/
def step (guarded : Bool) (ins : Instruction) : Exec σ Flow := do
  match ins.op with
  | some op => do
    checkStatic guarded op
    audit.exec s ins op
  | none => fault (.invalidOpcode ins.opcode)

end Audit

/-! ## Without the conditions -/

namespace Audit

open Exec

variable (s : Setting σ)

theorem waived_charge : (waived : Audit σ).charge = Exec.charge := rfl

theorem waived_giveBack : (waived : Audit σ).giveBack = Exec.giveBack := rfl

theorem waived_amount : (waived : Audit σ).amount = Exec.amount := rfl

theorem waived_growth_bind {α : Type} (stop : Nat) (x : Exec σ α) :
    (waived.growth stop >>= fun _ => x) = x := by
  funext m
  show ((if stop ≤ m.memory.limit then (pure () : Exec σ Unit) else pure ()) >>= fun _ => x) m = x m
  rw [ite_self]
  rfl

theorem waived_cover : (waived : Audit σ).cover = Exec.cover := by
  funext offset len
  unfold cover
  by_cases hlen : len = 0#256
  · rewrite [if_neg (not_not_intro hlen)]
    rfl
  · rw [if_pos hlen]
    exact waived_growth_bind _ _

theorem waived_growAt : (waived : Audit σ).growAt = Exec.growAt := by
  funext offset len
  exact waived_growth_bind _ _

theorem waived_coverCopy : (waived : Audit σ).coverCopy = Exec.coverCopy := by
  funext offset len
  unfold coverCopy Exec.coverCopy
  rewrite [waived_cover, waived_charge]
  rfl

theorem waived_read : (waived : Audit σ).read = Exec.read := rfl

theorem waived_readRange : (waived : Audit σ).readRange = Exec.readRange := by
  funext range
  cases range with
  | none => rfl
  | some r => rfl

theorem waived_write : (waived : Audit σ).write = Exec.write := rfl

theorem waived_move : (waived : Audit σ).move = Exec.move := rfl

theorem waived_slice : (waived : Audit σ).slice = fun data start stop => pure (data.extract start stop) :=
  rfl

theorem waived_padded :
    (waived : Audit σ).padded = fun data start len => pure (Bytes.paddedSlice data start len) := by
  funext data start len
  rewrite [Bytes.paddedSlice_eq_append]
  rfl

theorem waived_padded_write (data : ByteArray) (start len offset : Nat) :
    (waived.padded data start len >>= fun bytes => waived.write offset bytes : Exec σ Unit) =
      Exec.write offset (Bytes.paddedSlice data start len) := by
  rewrite [waived_padded, pure_bind, waived_write]
  rfl

theorem waived_touch : waived.touch s = Exec.touch s := by
  funext surcharge access
  unfold touch Exec.touch
  rewrite [waived_charge]
  rfl

theorem waived_touchAccount : waived.touchAccount s = Exec.touchAccount s := by
  funext a
  unfold touchAccount Exec.touchAccount
  rewrite [waived_touch]
  rfl

theorem waived_keccak256 : (waived : Audit σ).keccak256 = Effect.keccak256 := by
  unfold keccak256 Effect.keccak256
  rewrite [waived_cover, waived_charge, waived_readRange]
  rfl

theorem waived_callDataLoad : waived.callDataLoad s = Effect.callDataLoad s := by
  unfold callDataLoad
  rewrite [waived_padded]
  rfl

theorem waived_copyPadded : (waived : Audit σ).copyPadded = Effect.copyPadded := by
  funext data target source len
  unfold copyPadded Effect.copyPadded
  rewrite [waived_coverCopy]
  refine bind_congr fun range => ?_
  cases range with
  | none => rfl
  | some r => exact waived_padded_write data source.clampU64 r.2 r.1

theorem waived_copyWhole : (waived : Audit σ).copyWhole = Effect.copyWhole := by
  unfold copyWhole
  rewrite [waived_coverCopy, waived_write]
  rfl

theorem waived_copy (source : CopySource) : waived.copy s source = Effect.copy s source := by
  unfold copy Effect.copy
  rewrite [waived_copyPadded, waived_copyWhole]
  rfl

theorem waived_extCodeCopy : waived.extCodeCopy s = Effect.extCodeCopy s := by
  unfold extCodeCopy Effect.extCodeCopy
  rewrite [waived_touchAccount, waived_coverCopy]
  refine bind_congr fun a => bind_congr fun target => bind_congr fun start => ?_
  refine bind_congr fun len => bind_congr fun _ => bind_congr fun range => ?_
  cases range with
  | none => rfl
  | some r =>
      refine bind_congr fun code => ?_
      exact waived_padded_write code start.clampU64 r.2 r.1

theorem waived_mload : (waived : Audit σ).mload = Effect.mload := by
  unfold mload Effect.mload
  rw [waived_growAt, waived_read]

theorem waived_mstore : (waived : Audit σ).mstore = Effect.mstore := by
  unfold mstore Effect.mstore
  rw [waived_growAt, waived_write]

theorem waived_mstore8 : (waived : Audit σ).mstore8 = Effect.mstore8 := by
  unfold mstore8 Effect.mstore8
  rw [waived_growAt, waived_write]

theorem waived_mcopy : (waived : Audit σ).mcopy = Effect.mcopy := by
  unfold mcopy Effect.mcopy
  rewrite [waived_coverCopy, waived_growAt, waived_move]
  rfl

theorem waived_log (count : Nat) : waived.log s count = Effect.log s count := by
  unfold log Effect.log
  rewrite [waived_cover, waived_charge, waived_readRange]
  rfl

theorem waived_output : (waived : Audit σ).output = Effect.output := by
  unfold output Effect.output
  rewrite [waived_cover, waived_readRange]
  rfl

theorem waived_ret : waived.ret s = Effect.ret s := by
  unfold ret Effect.ret
  rw [waived_output]

theorem waived_payForCall (op : CallOp) (o : Effect.CallOperands) :
    waived.payForCall s op o = Effect.payForCall s op o := by
  unfold payForCall payForNewAccount Effect.payForCall Effect.payForNewAccount
  rewrite [waived_touchAccount, waived_charge]
  rfl

theorem waived_storeOutput : (waived : Audit σ).storeOutput = Effect.storeOutput := by
  funext range bytes
  cases range with
  | none => rfl
  | some r =>
      show (waived.slice bytes 0 (min r.2 bytes.size) >>= waived.write r.1) =
        Exec.write r.1 (bytes.extract 0 (min r.2 bytes.size))
      rewrite [waived_slice, waived_write]
      exact pure_bind _ _

theorem waived_runCall (op : CallOp) (o : Effect.CallOperands) (input output : Option (Nat × Nat))
    (childGas : Nat) :
    waived.runCall s op o input output childGas = Effect.runCall s op o input output childGas := by
  unfold runCall
  rewrite [waived_charge, waived_readRange, waived_giveBack, waived_amount, waived_storeOutput]
  rfl

theorem waived_call (op : CallOp) : waived.call s op = Effect.call s op := by
  unfold call
  simp only [waived_cover, waived_payForCall, waived_runCall]
  rfl

theorem waived_create (salted : Bool) : waived.create s salted = Effect.create s salted := by
  unfold create runCreate Effect.create Effect.runCreate
  rewrite [waived_cover, waived_readRange, waived_charge, waived_giveBack]
  rfl

/-- **Without its conditions an audited instruction is the instruction.** -/
theorem waived_exec (ins : Instruction) (op : Op) : waived.exec s ins op = op.exec s ins := by
  cases op with
  | keccak256 => exact congrArg andNext waived_keccak256
  | callDataLoad => exact congrArg andNext (waived_callDataLoad s)
  | copy source => exact congrArg andNext (waived_copy s source)
  | extCodeCopy => exact congrArg andNext (waived_extCodeCopy s)
  | mload => exact congrArg andNext waived_mload
  | mstore => exact congrArg andNext waived_mstore
  | mstore8 => exact congrArg andNext waived_mstore8
  | mcopy => exact congrArg andNext waived_mcopy
  | log n => exact congrArg andNext (waived_log s n.val)
  | create salted =>
      exact congrArg (andNext <| Effect.observing ins.correction ·) (waived_create s salted)
  | call kind => exact congrArg (andNext <| Effect.observing ins.correction ·) (waived_call s kind)
  | ret => exact congrArg (· >>= fun output => pure (Flow.halt (.ret output))) (waived_ret s)
  | revert => exact congrArg (· >>= fun output => pure (Flow.halt (.revert output))) waived_output
  | _ => rfl

theorem waived_step (guarded : Bool) (ins : Instruction) :
    waived.step s guarded ins = MeteredEvm.step s guarded ins := by
  unfold step MeteredEvm.step
  cases ins.op with
  | none => rfl
  | some op =>
      show (checkStatic guarded op >>= fun _ => waived.exec s ins op) = _
      rewrite [waived_exec]
      rfl

end Audit

end MeteredEvm
