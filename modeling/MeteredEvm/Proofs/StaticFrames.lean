import MeteredEvm.Host.Recorded
import MeteredEvm.Proofs.CallTree
import MeteredEvm.Proofs.Launch
import MeteredEvm.Proofs.LinkedRuns

/-!
# `MeteredEvm.Proofs.StaticFrames` — a static frame cannot change state

Where state changes are banned, a frame asks its host only what leaves the state as it is, and it
starts only children that send no value and create nothing; a static frame starts only static ones.
So in the world nothing is left to change but the notes on what has been used, whatever the frames
below a static call do: the accounts, the slots, the logs and the refunds stay.

Two cases need a look at the accounts. Code borrowed with a value moves the value from an account to
itself, and such an account exists, because it has the value. A call without value brings its target
into being only on forks that are older than static calls.

## Contents
* `CallRequest.Harmless`, `HostEvent.Harmless` — what a static frame may ask.
* `eventsOf_allowed`, `Frame.run_eq_of_agrees` — it asks nothing else.
* `World.SameButWarm`, `CallRequest.Still` — what a static child keeps, and the requests for one.
* `Chain.still_keeps`, `Chain.perform_still`, `Chain.hostAt_still` — frames, children, levels.
* `static_frames_change_nothing`.
-/

namespace MeteredEvm

open Exec

variable {σ : Type} {s : Setting σ} {host host' : Host σ}

/-! ## What a static frame asks -/

/-- A request that neither creates an account nor sends value to another one (`CallKind.call`); from a
    static frame it is static. -/
def CallRequest.Harmless (static : Bool) (req : CallRequest) : Prop :=
  req.kind.isCreate = false ∧ (req.kind = .call → req.value = 0#256) ∧
    (static = true → req.isStatic = true)

/-- Something asked of a host that leaves the state as it is: a query that is `isQuiet`, or a request
    that is `CallRequest.Harmless`. -/
def HostEvent.Harmless (static : Bool) : HostEvent → Prop
  | .asked q _ => q.isQuiet = true
  | .called req _ _ => req.Harmless static

/-- What a frame asks for where changes are banned. -/
theorem Setting.IssuesUnder.harmless {req : CallRequest} (h : s.IssuesUnder true req) :
    req.Harmless s.context.isStatic := by
  obtain ⟨hcreate, hvalue⟩ := h.banned rfl
  refine ⟨hcreate, hvalue, fun hstatic => ?_⟩
  cases h.issues with
  | call op o input gas hdepth =>
      show (s.context.isStatic || op == .staticCall) = true
      rw [hstatic]
      rfl
  | create kind value code gas hkind hdepth =>
      have hcreate : kind.isCreate = false := hcreate
      rw [hkind] at hcreate
      cases hcreate

/-- Something that a frame can come to ask of its host: where changes are banned no query but one that
    is `isQuiet`, and no child but those that it `IssuesUnder` the ban. -/
def HostEvent.Allowed (s : Setting σ) (guarded : Bool) : HostEvent → Prop
  | .asked q _ => guarded = true → q.isQuiet = true
  | .called req _ _ => s.IssuesUnder guarded req

theorem HostEvent.Allowed.harmless {e : HostEvent} (h : e.Allowed s true) :
    e.Harmless s.context.isStatic := by
  cases e with
  | asked q a => exact h rfl
  | called req size depth => exact Setting.IssuesUnder.harmless h

/-- The events of a recorded run: those from before, then one for every query and every child. -/
def eventsOf (s : Setting (Recorded σ)) (cursor : Nat) (m : Machine (Recorded σ)) : List HostEvent :=
  (run s cursor m).machine.host.events

/-- A record does not change whether changes are banned. -/
theorem Host.guard_recorded (host : Host σ) (context : CallContext) (r : Recorded σ) :
    (host.recorded.guard context r).1 = (host.guard context r.state).1 := by
  unfold Host.guard
  split
  · rfl
  · rfl

/-- **A run asks only what its instructions allow.** -/
theorem eventsOf_allowed {s : Setting (Recorded σ)} (hhost : s.host = host.recorded)
    {m : Machine (Recorded σ)} (cursor : Nat) {guarded : Bool}
    (hguarded : (host.guard s.context m.host.state).1 = guarded)
    (hstart : ∀ e ∈ m.host.events, e.Allowed s guarded) :
    ∀ e ∈ eventsOf s cursor m, e.Allowed s guarded := by
  have hguard : (s.host.guard s.context m.host).1 = guarded := by
    rw [hhost, host.guard_recorded]
    exact hguarded
  have hasked (q : Query) (p : Recorded σ) (hq : guarded = true → q.isQuiet = true)
      (hevents : ∀ e ∈ p.events, e.Allowed s guarded) :
      ∀ e ∈ (s.host.answer q p).2.events, e.Allowed s guarded := by
    rw [hhost]
    intro e he
    rcases List.mem_cons.mp he with rfl | he
    · exact hq
    · exact hevents e he
  have hkeeps : s.Keeps guarded fun r _ => ∀ e ∈ r.events, e.Allowed s guarded := by
    refine ⟨?_, ?_, ?_, ?_⟩
    · intro q p r hq hevents
      exact hasked q p (fun _ => hq) hevents
    · intro hfree q p r _ hevents
      refine hasked q p (fun hbanned => ?_) hevents
      rw [hfree] at hbanned
      cases hbanned
    · intro _ p r k hevents
      exact hevents
    · intro req memory p r result memory' p' hissued hevents hcall
      rw [hhost] at hcall
      have hcall : (host.call req memory p.state >>= fun a => pure (a.1, a.2.1, (⟨a.2.2,
          .called req memory.size memory.depth :: p.events⟩ : Recorded σ))) =
          .ok (result, memory', p') := hcall
      cases hinner : host.call req memory p.state with
      | error t =>
          rw [hinner] at hcall
          cases hcall
      | ok a =>
          rw [hinner] at hcall
          cases hcall
          intro e he
          rcases List.mem_cons.mp he with rfl | he
          · exact hissued
          · exact hevents e he
  rw [← hguard] at hkeeps hstart ⊢
  exact run_keeps hkeeps cursor hstart

/-- Two hosts that do the same where they are asked what is `Harmless`. -/
structure Host.Agrees (host host' : Host σ) (static : Bool) : Prop where
  answer : ∀ q : Query, q.isQuiet = true → host'.answer q = host.answer q
  call : ∀ req : CallRequest, req.Harmless static → host'.call req = host.call req

/-- Results that are linked by equality are equal. -/
theorem Link.Finishes.eq {P : σ → Int → Prop} {r r' : Except Trap (Result × Frame × Memory × σ)}
    (h : (Link.invariant P).Finishes r r') : r = r' := by
  cases h with
  | error t => rfl
  | ok result f hmemory hstate _ =>
      obtain ⟨memory, _, rfl, rfl, rfl⟩ := hmemory
      obtain ⟨rfl, -⟩ := hstate
      rfl

/-- **Where changes are banned, nothing but what is harmless matters**: a frame runs the same on every
    host that does the same there. -/
theorem Frame.run_eq_of_agrees {config : Config} {f : Frame} {memory : Memory} {state : σ}
    (hbanned : (host.guard f.context state).1 = true)
    (h : host.Agrees host' f.context.isStatic) :
    f.run config host' memory state = f.run config host memory state := by
  have hkept : (Link.invariant fun _ _ => True).Kept (f.setting config host) host' true := by
    refine ⟨.of_eq rfl, ?_, nofun, ?_⟩
    · rintro q hq p _ r ⟨rfl, -⟩
      rw [h.answer q hq]
      exact ⟨rfl, rfl, trivial⟩
    · rintro req memory _ p _ r hissued rfl ⟨rfl, -⟩
      rw [h.call req hissued.harmless]
      show Link.Returns _ r (host.call req memory p) (host.call req memory p)
      cases host.call req memory p with
      | error t => exact .error t
      | ok a => exact .ok a.1 rfl ⟨rfl, trivial⟩
  rw [← hbanned] at hkept
  exact (Frame.run_linked hkept rfl ⟨rfl, trivial⟩).eq.symm

/-! ## The world -/

/-- **The same world, up to the notes on what has been used**, which are `Journal.warm`. -/
def World.SameButWarm (w w' : World) : Prop :=
  ∃ warm, w' = { w with journal := { w.journal with warm } }

theorem World.SameButWarm.refl (w : World) : w.SameButWarm w := ⟨w.journal.warm, rfl⟩

theorem World.SameButWarm.trans {w₁ w₂ w₃ : World} (h : w₁.SameButWarm w₂)
    (h' : w₂.SameButWarm w₃) : w₁.SameButWarm w₃ := by
  obtain ⟨_, rfl⟩ := h
  obtain ⟨warm, rfl⟩ := h'
  exact ⟨warm, rfl⟩

/-- An account that has something is there, so making sure that it is changes nothing. -/
theorem Journal.touch_of_balance_ne_zero {j : Journal} {a : Address} (h : j.balance a ≠ 0#256) :
    j.touch a = j := by
  have hinsert : j.accounts.insert a (j.account a) = j.accounts := by
    apply Std.ExtTreeMap.ext_getElem?
    intro b
    rw [Std.ExtTreeMap.getElem?_insert]
    split
    · rename_i heq
      have heq : a = b := Std.LawfulEqOrd.eq_of_compare heq
      subst heq
      unfold balance account at h
      unfold account
      rw [Std.ExtTreeMap.getD_eq_getD_getElem?] at h ⊢
      cases hget : j.accounts[a]? with
      | none =>
          rw [hget] at h
          exact absurd rfl h
      | some account => rfl
    · rfl
  show { j with accounts := j.accounts.insert a (j.account a) } = j
  rw [hinsert]

/-- A request of a static frame: it is static, creates nothing, and moves value at most from an
    account to itself. -/
structure CallRequest.Still (req : CallRequest) : Prop where
  isStatic : req.isStatic = true
  notCreate : req.kind.isCreate = false
  toSelf : req.transfersValue = true → req.recipient = req.caller ∧ req.value ≠ 0#256

/-- The static requests that a frame makes. -/
theorem Setting.IssuesUnder.still {guarded : Bool} {req : CallRequest} (h : s.IssuesUnder guarded req)
    (hguarded : s.context.isStatic = true → guarded = true) (hstatic : req.isStatic = true)
    (hcreate : req.kind.isCreate = false) : req.Still := by
  refine ⟨hstatic, hcreate, fun hmoves => ?_⟩
  obtain ⟨hissues, hvalueless, hbanned⟩ := h
  cases hissues with
  | call op o input gas hdepth =>
      have hvalue : o.value ≠ 0#256 := bne_iff_ne.mp hmoves
      cases op with
      | call =>
          -- a plain call is static only because its frame is
          have hcontext : (s.context.isStatic || false) = true := hstatic
          rw [Bool.or_false] at hcontext
          exact absurd ((hbanned (hguarded hcontext)).2 rfl) hvalue
      | callCode => exact ⟨rfl, hvalue⟩
      | delegateCall => exact absurd (hmoves.symm.trans (hvalueless (.inl rfl))) (by decide)
      | staticCall => exact absurd (hmoves.symm.trans (hvalueless (.inr rfl))) (by decide)
  | create kind value code gas hkind hdepth =>
      have hkind' : kind.isCreate = false := hcreate
      rw [hkind] at hkind'
      cases hkind'

namespace Chain

variable {c : Chain} {req : CallRequest} {memory memory' : Memory} {w w' : World}

/-- From Byzantium on, which brought static calls, an empty account counts as absent. -/
theorem emptyAccountRule_of_byzantium (h : c.fork.since .byzantium = true) :
    c.rules.emptyAccountRule = true := by
  show c.fork.since .spuriousDragon = true
  revert h
  cases c.fork <;> decide

/-- Entering a static call changes nothing. -/
theorem enterCall?_still (hrule : c.rules.emptyAccountRule = true) (hreq : req.Still)
    {j j' : Journal} (h : c.enterCall? req j = some j') : j' = j := by
  unfold enterCall? at h
  by_cases hmoves : req.transfersValue = true
  · obtain ⟨hself, hvalue⟩ := hreq.toSelf hmoves
    rw [if_pos hmoves, hself] at h
    unfold Journal.transfer? at h
    by_cases hbalance : j.balance req.caller < req.value
    · rw [if_pos hbalance] at h
      cases h
    · rw [if_neg hbalance, if_pos (Or.inr rfl)] at h
      have hsome : j.balance req.caller ≠ 0#256 := by
        intro hzero
        rw [hzero] at hbalance
        apply hvalue
        apply BitVec.eq_of_toNat_eq
        have hle : req.value.toNat ≤ (0#256).toNat := by
          simpa [BitVec.lt_def] using hbalance
        exact Nat.le_zero.mp hle
      cases h
      exact Journal.touch_of_balance_ne_zero hsome
  · rw [if_neg hmoves, if_pos hrule] at h
    exact (Option.some.inj h).symm

theorem answer_sameButWarm (c : Chain) {q : Query} (hq : q.isQuiet = true) (w : World) :
    w.SameButWarm (c.answer q w).2 := by
  cases q with
  | markWarm access => exact ⟨_, rfl⟩
  | setStorage a key value => cases hq
  | setTransient a key value => cases hq
  | emitLog log => cases hq
  | markForDestruction a b => cases hq
  | _ => exact .refl w

/-- A host for frames of the world, whose children keep the state (`World.SameButWarm`) for requests
    that are `CallRequest.Still`. -/
structure StillHost (c : Chain) (host : Host World) : Prop where
  answer : host.answer = c.answer
  call : ∀ ⦃req memory w result memory' w'⦄, req.Still →
    host.call req memory w = .ok (result, memory', w') → w.SameButWarm w'

/-- A static request that starts a frame starts it on the world as it is. -/
theorem launch_still (hrule : c.rules.emptyAccountRule = true) (hreq : req.Still) {frame : Launch}
    (h : c.launch req w = .ok frame) : frame.world = w ∧ frame.context = callContext req := by
  unfold launch launchCall at h
  rw [hreq.notCreate] at h
  cases henter : c.enterCall? req w.journal with
  | none =>
      rw [henter] at h
      cases h
  | some j =>
      obtain rfl := enterCall?_still hrule hreq henter
      rw [henter] at h
      cases h
      exact ⟨rfl, rfl⟩

/-- A static request that starts no frame leaves the world as it is. -/
theorem launch_still_error (hreq : req.Still) {p : Performed}
    (h : c.launch req w = .error (p, w')) : w' = w := by
  unfold launch launchCall at h
  rw [hreq.notCreate] at h
  cases henter : c.enterCall? req w.journal with
  | none =>
      rw [henter] at h
      cases h
      rfl
  | some j =>
      rw [henter] at h
      cases h

/-- **A static frame keeps the world and earns no refunds**, if its static children do. -/
theorem still_keeps {host : Host World} (hhost : c.StillHost host) {f : Frame}
    (hstatic : f.context.isStatic = true) (w : World) :
    (f.setting c.config host).Keeps true fun w' r => w.SameButWarm w' ∧ r = 0 := by
  refine ⟨?_, nofun, nofun, ?_⟩
  · rintro q w₁ r hq ⟨hsame, hr⟩
    show w.SameButWarm (host.answer q w₁).2 ∧ r = 0
    rw [hhost.answer]
    exact ⟨hsame.trans (c.answer_sameButWarm hq w₁), hr⟩
  · rintro req memory w₁ r result memory' w₂ hissued ⟨hsame, hr⟩ hcall
    obtain ⟨hcreate, -, hinherits⟩ := hissued.harmless
    have hstill := hissued.still (fun _ => rfl) (hinherits hstatic) hcreate
    exact ⟨hsame.trans (hhost.call hstill hcall), hr⟩

/-- **A static child and all frames below it leave the world as it is**, up to the notes. -/
theorem perform_still (hrule : c.rules.emptyAccountRule = true) {host : Host World}
    (hhost : c.StillHost host) (hreq : req.Still) {p : Performed}
    (h : c.perform host req memory w = .ok (p, memory', w')) : w.SameButWarm w' := by
  obtain ⟨hlaunch, -⟩ | ⟨frame, result, after, hlaunch, hexecute, hconclude⟩ :=
    launched_of_perform_ok h
  · rw [launch_still_error hreq hlaunch]
    exact .refl w
  · obtain ⟨hworld, hcontext⟩ := launch_still hrule hreq hlaunch
    have hstatic : frame.context.isStatic = true := by
      rw [hcontext]
      exact hreq.isStatic
    rw [hworld] at hexecute
    have hkeeps (f : Frame) (hf : f.context = frame.context) :
        (f.setting c.config host).Keeps (host.guard frame.context w).1
          fun w' r => w.SameButWarm w' ∧ r = 0 := by
      rw [host.guard_of_isStatic hstatic]
      exact still_keeps hhost (by rw [hf]; exact hstatic) w
    obtain ⟨r, ⟨⟨warm, rfl⟩, rfl⟩, hrefund⟩ := execute_keeps hkeeps ⟨.refl w, rfl⟩ hexecute
    unfold conclude at hconclude
    rw [hreq.notCreate] at hconclude
    cases hconclude
    cases hsuccess : result.isSuccess with
    | true =>
        refine ⟨warm, ?_⟩
        rw [hrefund hsuccess]
        show { w with journal := { w.journal with warm, refund := w.journal.refund + 0 } } = _
        rw [Int.add_zero]
    | false => exact ⟨w.journal.warm, rfl⟩

theorem hostWith_still {perform : Performer}
    (h : ∀ ⦃req memory w p memory' w'⦄, req.Still → perform req memory w = .ok (p, memory', w') →
      w.SameButWarm w') : c.StillHost (c.hostWith perform) := by
  refine ⟨rfl, ?_⟩
  intro req memory w result memory' w' hreq hcall
  obtain ⟨p, hperform, -⟩ := of_hostWith_call hcall
  exact h hreq hperform

/-- **At every level, static children leave the world as it is.** -/
theorem hostAt_still (hrule : c.rules.emptyAccountRule = true) (levels : Nat) :
    c.StillHost (c.hostAt levels) := by
  induction levels with
  | zero =>
      apply hostWith_still
      intro req memory w p memory' w' _ hperform
      cases hperform
  | succ levels ih =>
      apply hostWith_still
      intro req memory w p memory' w' hreq hperform
      exact perform_still hrule ih hreq hperform

theorem host_still (hrule : c.rules.emptyAccountRule = true) : c.StillHost c.host := by
  apply hostWith_still
  intro req memory w p memory' w' hreq hperform
  exact perform_still hrule (hostAt_still hrule _) hreq hperform

end Chain

/-- What a frame asks of a host that keeps a record, in the order of the record. -/
def Frame.events (f : Frame) (config : Config) (host : Host σ) (memory : Memory) (state : σ) :
    List HostEvent :=
  eventsOf (f.setting config host.recorded) f.cursor (f.machine memory.enter { state })

theorem Frame.events_allowed (f : Frame) (config : Config) (host : Host σ) (memory : Memory)
    (state : σ) {guarded : Bool}
    (hguarded : (host.guard f.context state).1 = guarded) :
    ∀ e ∈ f.events config host memory state,
      e.Allowed (f.setting config host.recorded) guarded :=
  eventsOf_allowed rfl f.cursor hguarded nofun

/-- **A static frame cannot change state.** A run of a frame that is static, or whose host bans changes
    (`Host.guard`), asks its host only what is `Harmless`: no write, log or destruction, no creation,
    no call with value, and from a static frame only static children; so a host that does something
    else where it is asked for more (`Host.Agrees`) makes no difference. In the world, from Byzantium
    on, every static child that a frame anywhere asks for, with all frames below it, leaves everything
    but the notes on what has been used as it was (`World.SameButWarm`), and such a child comes to a
    result. -/
theorem static_frames_change_nothing (host : Host σ) (config : Config) (f : Frame)
    (memory : Memory) (state : σ)
    (hbanned : (host.guard f.context state).1 = true) (chain : Chain)
    (hfork : chain.fork.since .byzantium = true) :
    (∀ e ∈ f.events config host memory state, e.Harmless f.context.isStatic) ∧
    (∀ host', host.Agrees host' f.context.isStatic →
      f.run config host' memory state = f.run config host memory state) ∧
    ∀ {τ : Type} (caller : Frame) (config' : Config) (host' : Host τ) (memory' : Memory) (state' : τ)
      (req : CallRequest) (viewSize depth : Nat),
      .called req viewSize depth ∈ caller.events config' host' memory' state' →
      req.isStatic = true → req.kind.isCreate = false → ∀ (memory : Memory) (w : World),
        (∀ result after w', chain.host.call req memory w = .ok (result, after, w') →
          w.SameButWarm w') ∧
        (req.gas < u64Size → memory.Sound →
          ∃ result after w', chain.host.call req memory w = .ok (result, after, w')) := by
  refine ⟨?_, fun host' h => Frame.run_eq_of_agrees hbanned h, ?_⟩
  · intro e he
    exact (f.events_allowed config host memory state hbanned e he).harmless
  · intro τ caller config' host' memory' state' req viewSize depth hcalled hstatic hcreate memory w
    have hissued : (caller.setting config' host'.recorded).IssuesUnder _ req :=
      caller.events_allowed config' host' memory' state' rfl _ hcalled
    have hguarded : caller.context.isStatic = true →
        (host'.guard caller.context state').1 = true := by
      intro hcontext
      rw [host'.guard_of_isStatic hcontext]
    have hrule := Chain.emptyAccountRule_of_byzantium hfork
    constructor
    · intro result after w' hcall
      exact (Chain.host_still hrule).call (hissued.still hguarded hstatic hcreate) hcall
    · intro hgas hsound
      obtain ⟨result, after, w', hcall, -⟩ := chain.host_fair w hgas hsound
      exact ⟨result, after, w', hcall⟩

/-- Six zeros and a static call. -/
def callStatically : ByteArray := ⟨#[0x5f, 0x5f, 0x5f, 0x5f, 0x5f, 0x5f, 0xfa]⟩

/-- A static frame of that code. -/
def staticCaller : Frame :=
  .new { isStatic := true } .empty 10000 (analyze (.ofFork .cancun) callStatically)

/-- Whether an event is a static call with an amount of gas. -/
def HostEvent.isStaticCall : HostEvent → Bool
  | .asked _ _ => false
  | .called req _ _ => req.isStatic && !req.kind.isCreate && decide (req.gas < u64Size)

/-- The frame asks the empty world for a static child, and that child changes nothing in any world. -/
theorem static_frames_change_nothing_staticCaller :
    (({} : Chain).host.guard staticCaller.context {}).1 = true ∧
    ({} : Chain).fork.since .byzantium = true ∧ (Memory.new 64).Sound ∧
    (∀ e ∈ staticCaller.events {} ({} : Chain).host (.new 64) {}, e.Harmless true) ∧
    ∃ req viewSize depth,
      .called req viewSize depth ∈ staticCaller.events {} ({} : Chain).host (.new 64) {} ∧
      req.isStatic = true ∧ req.kind.isCreate = false ∧ req.gas < u64Size ∧
      ∀ w, ∃ result after w', ({} : Chain).host.call req (.new 64) w = .ok (result, after, w') ∧
        w.SameButWarm w' := by
  have hbanned : (({} : Chain).host.guard staticCaller.context {}).1 = true := rfl
  have hfork : ({} : Chain).fork.since .byzantium = true := by decide
  have hsound : (Memory.new 64).Sound := ⟨by decide, by decide⟩
  obtain ⟨hharmless, -, hchildren⟩ := static_frames_change_nothing ({} : Chain).host {} staticCaller
    (.new 64) {} hbanned {} hfork
  have hcalls : (staticCaller.events {} ({} : Chain).host (.new 64) {}).any (·.isStaticCall) =
      true := by
    decide +kernel
  obtain ⟨e, he, hcall⟩ := List.any_eq_true.mp hcalls
  cases e with
  | asked q a => cases hcall
  | called req viewSize depth =>
      simp only [HostEvent.isStaticCall, Bool.and_eq_true, Bool.not_eq_true', decide_eq_true_eq]
        at hcall
      obtain ⟨⟨hstatic, hcreate⟩, hgas⟩ := hcall
      refine ⟨hbanned, hfork, hsound, hharmless, req, viewSize, depth, he, hstatic, hcreate, hgas, ?_⟩
      intro w
      obtain ⟨hsame, hresult⟩ := hchildren staticCaller {} ({} : Chain).host (.new 64) {} req viewSize
        depth he hstatic hcreate (.new 64) w
      obtain ⟨result, after, w', hcall⟩ := hresult hgas hsound
      exact ⟨result, after, w', hcall, hsame result after w' hcall⟩

end MeteredEvm
