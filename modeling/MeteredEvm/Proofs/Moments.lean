import MeteredEvm.Proofs.Originals
import MeteredEvm.Proofs.Stream
import MeteredEvm.Proofs.Value

/-!
# `MeteredEvm.Proofs.Moments` — the worlds that a transaction goes through

A transaction goes through many worlds: the one that each frame starts on, the one that each answer
leaves, and the one that a frame comes to when it is concluded, be it rolled back or not. This module
lists them, and follows the world through all of them: at every one it fits to the start of the
transaction, and the refunds keep up with the slots that have been cleared.

## Contents
* `Chain.momentsOn`, `Chain.momentsAt` — the worlds that a child goes through.
* `Chain.AdvancesThrough` — a piece of a transaction with the worlds in it.
* `execute_of_size_eq_zero`, `Chain.frame_advancesThrough` — frames.
* `Chain.launch_advances`, `Chain.conclude_advances` — starting and ending a child.
* `Chain.perform_advancesThrough`, `Chain.performAt_advancesThrough` — children, with all below.
-/

namespace MeteredEvm

namespace Chain

/-- The worlds that a request goes through on `host`, given those of the children of its frame. -/
def momentsOn (c : Chain) (host : Host World) (below : CallRequest → Memory → World → List World)
    (req : CallRequest) (memory : Memory) (w : World) : List World :=
  match c.launch req w with
  | .error (_, w') => [w']
  | .ok frame =>
    match execute c.config (host.watching (fun _ v => [v]) below) frame.context frame.input req.gas
        frame.code memory (frame.world, []) with
    | .error _ => [frame.world]
    | .ok (result, _, after, notes) =>
      frame.world :: notes ++ [(c.conclude req w result after).2]

/-- The worlds that a request goes through, with a number of levels of frames below it. -/
def momentsAt (c : Chain) : Nat → CallRequest → Memory → World → List World
  | 0 => c.momentsOn (c.hostAt 0) fun _ _ _ => []
  | levels + 1 => c.momentsOn (c.hostAt (levels + 1)) (c.momentsAt levels)

/-! ## AdvancingHost the worlds -/

/-- **A piece of a transaction with the worlds in it.** If creations in it were at `sites` only, then
    it is one that fits to the start, and so does every world in it. -/
def AdvancesThrough (c : Chain) (start : World) (sites : Address → Prop) (w : World)
    (notes : List World) (w' : World) (r : Int) : Prop :=
  (∀ v ∈ notes, ∀ a ∈ v.journal.created, sites a) →
    c.Advances start sites w w' r ∧ ∀ v ∈ notes, start.Since sites v

variable {c : Chain} {start w w' w'' : World} {sites : Address → Prop} {notes notes' : List World}
  {r r' : Int}

theorem AdvancesThrough.nil (c : Chain) (h : start.Since sites w) :
    c.AdvancesThrough start sites w [] w 0 := by
  intro _
  refine ⟨.refl c h, ?_⟩
  simp

/-- Two pieces in a row; the second starts on a world that fits. -/
theorem AdvancesThrough.trans (h : c.AdvancesThrough start sites w notes w' r)
    (h' : c.Advances start sites w w' r → c.AdvancesThrough start sites w' notes' w'' r') :
    c.AdvancesThrough start sites w (notes ++ notes') w'' (r + r') := by
  intro hsites
  obtain ⟨hfirst, hworlds⟩ := h fun v hv => hsites v (List.mem_append_left _ hv)
  obtain ⟨hsecond, hworlds'⟩ := h' hfirst fun v hv => hsites v (List.mem_append_right _ hv)
  refine ⟨hfirst.trans hsecond, fun v hv => ?_⟩
  rcases List.mem_append.1 hv with hv | hv
  · exact hworlds v hv
  · exact hworlds' v hv

/-- A piece followed by one step. -/
theorem AdvancesThrough.step (h : c.AdvancesThrough start sites w notes w' r)
    (hstep : c.Advances start sites w w' r → c.Advances start sites w' w'' r') :
    c.AdvancesThrough start sites w (notes ++ [w'']) w'' (r + r') := by
  refine h.trans fun hfirst _ => ?_
  refine ⟨hstep hfirst, fun v hv => ?_⟩
  rw [List.mem_singleton.1 hv]
  exact (hstep hfirst).since

end Chain

/-! ## Frames -/

/-- **A frame without code stops at once**; its host is asked at most whether changes are banned. -/
theorem execute_of_size_eq_zero {σ : Type} {host : Host σ} {config : Config}
    {context : CallContext} {input code : ByteArray} {gasLimit : Nat} {memory memory' : Memory}
    {p p' : σ} {result : Result} (hcode : code.size = 0)
    (h : execute config host context input gasLimit code memory p = .ok (result, memory', p')) :
    p' = (host.guard context p).2 ∧ result.refund = 0 := by
  have hsize : (analyze (.ofFork config.fork) code).instructions.size = 0 := by
    rw [← Array.length_toList, toList_instructions, decodedFrom_of_le (by omega)]
    rfl
  have hrun (s : Setting σ) (hs : s.code = analyze (.ofFork config.fork) code) (m : Machine σ) :
      run s 0 m = ⟨0, .ok .stop, { m with host := (s.host.guard s.context m.host).2 }⟩ := by
    unfold run jumpBudget u64Size
    dsimp only
    unfold runFrom
    rw [hs, hsize]
    rfl
  unfold execute Frame.run at h
  dsimp only at h
  have hcursor :
      (Frame.new context input gasLimit (analyze (.ofFork config.fork) code)).cursor = 0 := rfl
  rw [hcursor, hrun _ rfl] at h
  cases h
  exact ⟨rfl, rfl⟩

namespace Chain

variable {c : Chain} {start w w' w'' : World} {sites : Address → Prop} {notes notes' : List World}
  {r r' : Int}

/-- What a request has to satisfy: a call runs the code of the account that it acts on, or acts on an
    account that is `World.Settled`. -/
def Admits (start : World) (sites : Address → Prop) (w : World) (req : CallRequest) : Prop :=
  req.kind.isCreate = false →
    req.codeAddress = req.recipient ∨ start.Settled sites w req.recipient

/-- A host for frames of the world whose children lead on by `AdvancesThrough`, with the given worlds. -/
structure AdvancingHost (c : Chain) (start : World) (sites : Address → Prop) (host : Host World)
    (below : CallRequest → Memory → World → List World) : Prop where
  answer : host.answer = c.answer
  call : ∀ ⦃req memory w result memory' w'⦄, start.Since sites w → Admits start sites w req →
    host.call req memory w = .ok (result, memory', w') →
      c.AdvancesThrough start sites w (below req memory w) w' 0

/-- The requests of a frame on a settled account. -/
theorem admits_of_issuesUnder {σ : Type} {s : Setting σ} {guarded : Bool} {req : CallRequest}
    (h : s.IssuesUnder guarded req)
    (hown : start.Settled sites w s.context.address) : Admits start sites w req := by
  intro hcall
  cases h.issues with
  | call op o input gas hdepth =>
      cases op with
      | call => exact .inl rfl
      | staticCall => exact .inl rfl
      | callCode => exact .inr hown
      | delegateCall => exact .inr hown
  | create kind value initCode gas hkind hdepth =>
      have hcall : kind.isCreate = false := hcall
      rw [hkind] at hcall
      cases hcall

variable {host : Host World} {below : CallRequest → Memory → World → List World}

/-- Looking at a slot before it is written leads nowhere, and tells what is there and what was. -/
theorem look_advancesThrough (h : c.AdvancingHost start sites host below) (f : Frame)
    {p : World × List World} (hP : c.AdvancesThrough start sites w p.2 p.1 r) (key : Word) :
    ∃ initial notes,
      (f.setting c.config (host.watching (fun _ v => [v]) below)).look key p =
        (p.1.storage f.context.address key, initial, p.1, notes) ∧
      (c.rules.netSstore = true → initial = p.1.initialStorage f.context.address key) ∧
      c.AdvancesThrough start sites w notes p.1 r := by
  have hstay {notes : List World} (hnotes : c.AdvancesThrough start sites w notes p.1 r) :
      c.AdvancesThrough start sites w (notes ++ [p.1]) p.1 r := by
    rw [← Int.add_zero r]
    exact hnotes.step fun hadvances => .refl c hadvances.since
  by_cases hnet : c.rules.netSstore = true
  · refine ⟨p.1.initialStorage f.context.address key, p.2 ++ [p.1] ++ [p.1], ?_, fun _ => rfl,
      hstay (hstay hP)⟩
    refine (if_pos hnet).trans ?_
    dsimp only [Frame.setting, Host.watching]
    rw [h.answer]
    rfl
  · refine ⟨p.1.storage f.context.address key, p.2 ++ [p.1], ?_, fun hnet' => absurd hnet' hnet,
      hstay hP⟩
    refine (if_neg hnet).trans ?_
    dsimp only [Frame.setting, Host.watching]
    rw [h.answer]
    rfl

/-- **What a frame on a settled account goes through can be followed**, if its children can. -/
theorem watching_earns (h : c.AdvancingHost start sites host below) (f : Frame) (guarded : Bool)
    (hown : start.Settled sites w f.context.address) :
    (f.setting c.config (host.watching (fun _ v => [v]) below)).Earns guarded
      fun p r => c.AdvancesThrough start sites w p.2 p.1 r where
  answer q p r hq hP := by
    show c.AdvancesThrough start sites w (p.2 ++ [(host.answer q p.1).2]) (host.answer q p.1).2 r
    rw [h.answer, ← Int.add_zero r]
    refine hP.step fun hadvances => ?_
    obtain ⟨hjournal, hinitial⟩ := c.retains_answer hq p.1
    exact .retaining c hadvances.since hjournal hinitial
  write p r key value wasCold hP := by
    obtain ⟨initial, notes, hlook, hinitial, hnotes⟩ := look_advancesThrough h f hP key
    rw [hlook]
    show c.AdvancesThrough start sites w
      (notes ++ [(host.answer (.setStorage f.context.address key value) p.1).2])
      (host.answer (.setStorage f.context.address key value) p.1).2 _
    rw [h.answer]
    refine hnotes.step fun hadvances => ?_
    exact .setStorage c hadvances.since (hadvances.settled _ hown) key value hinitial wasCold
  more p r k hk hP hsites := by
    obtain ⟨hadvances, hworlds⟩ := hP hsites
    refine ⟨{ hadvances with surplus := ?_ }, hworlds⟩
    have hsurplus := hadvances.surplus
    omega
  call req memory p r result memory' p' hreq hP hcall := by
    obtain ⟨hinner, hnotes⟩ := watching_call_ok (fun _ v => [v]) hcall
    rw [hnotes, ← Int.add_zero r]
    refine hP.trans fun hadvances => ?_
    exact h.call hadvances.since (admits_of_issuesUnder hreq (hadvances.settled _ hown)) hinner

/-- **A frame goes through worlds that can be followed**, if its children do: its account is settled,
    or it has no code and stops at once. -/
theorem frame_advancesThrough (h : c.AdvancingHost start sites host below) {context : CallContext}
    {input code : ByteArray} {gasLimit : Nat} {memory memory' : Memory} {after : World}
    {result : Result} (hsince : start.Since sites w)
    (hown : code.size = 0 ∨ start.Settled sites w context.address)
    (hexecute : execute c.config (host.watching (fun _ v => [v]) below) context input gasLimit code
      memory (w, []) = .ok (result, memory', after, notes)) :
    ∃ r, c.AdvancesThrough start sites w notes after r ∧
      (result.isSuccess = true → result.refund = r) := by
  rcases hown with hcode | hown
  · obtain ⟨hsame, hrefund⟩ := execute_of_size_eq_zero hcode hexecute
    refine ⟨0, ?_, fun _ => hrefund⟩
    have hanswered : c.AdvancesThrough start sites w ([] ++ [(host.answer .staticViolation w).2])
        (host.answer .staticViolation w).2 (0 + 0) := by
      rw [h.answer]
      exact (AdvancesThrough.nil c hsince).step fun hadvances => .refl c hadvances.since
    have hguard := (host.watching (fun _ v => [v]) below).guard_invariant context
      (P := fun p => c.AdvancesThrough start sites w p.2 p.1 0) (p := (w, [])) (.nil c hsince)
      hanswered
    rw [← hsame] at hguard
    exact hguard
  · refine execute_invariant (P := fun p r => c.AdvancesThrough start sites w p.2 p.1 r)
      (fun f hf => ?_) (AdvancesThrough.nil c hsince) hexecute
    exact (watching_earns h f _ (hf ▸ hown)).kept

/-! ## Starting and ending a child -/

variable {req : CallRequest}

/-- The world that a request goes back to if its frame comes to nothing. -/
def retreat (c : Chain) (req : CallRequest) (w : World) : World :=
  { w with journal := c.fallback req w }

theorem retreat_advances (c : Chain) (req : CallRequest) (h : start.Since sites w) :
    c.Advances start sites w (c.retreat req w) 0 := by
  refine .retaining c h ?_ rfl
  unfold retreat fallback
  dsimp only
  split
  · exact c.retains_counted req w
  · exact .refl _

/-- **Starting a frame fits to the start of the transaction**, and the account of the frame is
    settled unless there is nothing to run. -/
theorem launch_advances {frame : Launch} (hlaunch : c.launch req w = .ok frame)
    (h : start.Since sites w) (hreq : Admits start sites w req)
    (hsites : ∀ a ∈ frame.world.journal.created, sites a) :
    c.Advances start sites (c.retreat req w) frame.world 0 ∧
      (frame.code.size = 0 ∨ start.Settled sites frame.world frame.context.address) ∧
      (req.kind.isCreate = true →
        start.New sites (siteOf req w) ∧ start.Settled sites frame.world (siteOf req w)) := by
  have hretreat := c.retreat_advances req h
  have hlaunches := c.launches req w
  rw [hlaunch] at hlaunches
  cases hlaunches with
  | @call j hcall henter =>
      have hsame : c.retreat req w = w := by
        unfold retreat fallback
        rw [if_neg (by simp [hcall])]
      have hretains := retains_of_enterCall? henter
      have hentered : c.Advances start sites w { w with journal := j } 0 :=
        .retaining c h hretains rfl
      rw [hsame]
      refine ⟨hentered, ?_, fun hcreate => ?_⟩
      · by_cases hcode : (w.journal.account req.codeAddress).code.size = 0
        · left
          rw [hretains.code]
          exact hcode
        · right
          refine hentered.settled _ ?_
          rcases hreq hcall with hself | hsettled
          · have hcoded := h.coded _ hcode
            rw [hself] at hcoded
            exact hcoded
          · exact hsettled
      · rw [hcall] at hcreate
        cases hcreate
  | create hcreate hpaid hfree =>
      have hjournal : c.fallback req w = c.counted req w := if_pos hcreate
      unfold retreat at hretreat ⊢
      rw [hjournal] at hretreat ⊢
      have hcreated := (c.enterCreate_spec req (siteOf req w) (c.counted req w)).2.2.2.1
      have hmem : siteOf req w ∈
          (c.enterCreate req (siteOf req w) (c.counted req w)).created := by
        rw [hcreated]
        exact Std.ExtTreeSet.mem_insert_self
      have hnew : start.New sites (siteOf req w) := by
        refine ⟨fun hold => ?_, hsites _ hmem⟩
        have htaken := hretreat.since.taken _ hold
        dsimp only at htaken
        rw [htaken] at hfree
        cases hfree
      have hentered := Advances.enterCreate c req hretreat.since hnew
      have hblank := hentered.since.created _ hmem
      exact ⟨hentered, .inr (.inr hblank), fun _ => ⟨hnew, .inr hblank⟩⟩

/-- **Ending a frame fits to the start of the transaction**, be it kept or rolled back. What the frame
    has earned is in the journal then, or gone. -/
theorem conclude_advances {entry after : World} {result : Result} (h : start.Since sites w)
    (hentry : c.Advances start sites (c.retreat req w) entry 0)
    (hframe : c.Advances start sites entry after r)
    (hrefund : result.isSuccess = true → result.refund = r)
    (hsite : req.kind.isCreate = true →
      start.New sites (siteOf req w) ∧ start.Settled sites entry (siteOf req w)) :
    c.Advances start sites w (c.conclude req w result after).2 0 := by
  have hretreat := c.retreat_advances req h
  have hran := hentry.trans hframe
  have hconcludes := c.concludes req w result after
  generalize c.conclude req w result after = concluded at hconcludes
  cases hconcludes with
  | wasted hp hwasted => exact hretreat.trans (.rolledBack hretreat.since hran)
  | kept hp hkept =>
      have hr : result.refund = r := hrefund (isSuccess_of_not_wasted hkept)
      have hcredited := (hretreat.trans hran).trans (.addRefund c hframe.since result.refund)
      rw [hr] at hcredited ⊢
      rw [show 0 + (0 + r) + -r = 0 by omega] at hcredited
      exact hcredited
  | deployed hp hkept hcreate code =>
      have hr : result.refund = r := hrefund (isSuccess_of_not_wasted hkept)
      obtain ⟨hnew, hsettled⟩ := hsite hcreate
      have hdeployed := Advances.deployed c hframe.since hnew (hframe.settled _ hsettled) code
      have hcredited := ((hretreat.trans hran).trans hdeployed).trans
        (.addRefund c hdeployed.since result.refund)
      rw [hr] at hcredited ⊢
      rw [show 0 + (0 + r) + 0 + -r = 0 by omega] at hcredited
      exact hcredited

/-! ## Children -/

/-- **What a child goes through can be followed**, if its own children can. -/
theorem perform_advancesThrough (h : c.AdvancingHost start sites host below) {memory memory' : Memory}
    {p : Performed} (hsince : start.Since sites w) (hreq : Admits start sites w req)
    (hperform : c.perform host req memory w = .ok (p, memory', w')) :
    c.AdvancesThrough start sites w (c.momentsOn host below req memory w) w' 0 := by
  intro hsites
  obtain ⟨hlaunch, -⟩ | ⟨frame, result, after, hlaunch, hexecute, hconclude⟩ :=
    launched_of_perform_ok hperform
  · have hmoments : c.momentsOn host below req memory w = [w'] := by
      unfold momentsOn
      rw [hlaunch]
    have hadvances : c.Advances start sites w w' 0 := by
      have hlaunches := c.launches req w
      rw [hlaunch] at hlaunches
      cases hlaunches with
      | unpaid hp hvalue hunpaid => exact .refl c hsince
      | met hp hcreate hpaid htaken => exact .retaining c hsince (c.retains_counted req w) rfl
    refine ⟨hadvances, fun v hv => ?_⟩
    rw [hmoments, List.mem_singleton] at hv
    rw [hv]
    exact hadvances.since
  · obtain ⟨notes, hnoted⟩ := execute_watching (fun _ v => [v]) below hexecute
    have hmoments : c.momentsOn host below req memory w = frame.world :: notes ++ [w'] := by
      unfold momentsOn
      rw [hlaunch]
      dsimp only
      rw [hnoted]
      dsimp only
      rw [hconclude]
    rw [hmoments] at hsites ⊢
    obtain ⟨hentry, hown, hsite⟩ := launch_advances hlaunch hsince hreq (hsites _ (by simp))
    obtain ⟨r, hthrough, hrefund⟩ := frame_advancesThrough h hentry.since hown hnoted
    obtain ⟨hframe, hworlds⟩ := hthrough fun v hv => hsites v (by simp [hv])
    have hconcluded := conclude_advances hsince hentry hframe hrefund hsite
    rw [hconclude] at hconcluded
    refine ⟨hconcluded, fun v hv => ?_⟩
    simp only [List.cons_append, List.mem_cons, List.mem_append, List.not_mem_nil, or_false] at hv
    rcases hv with rfl | hv | rfl
    · exact hentry.since
    · exact hworlds v hv
    · exact hconcluded.since

theorem hostWith_advancingHost {perform : Performer}
    (h : ∀ ⦃req memory w p memory' w'⦄, start.Since sites w → Admits start sites w req →
      perform req memory w = .ok (p, memory', w') →
        c.AdvancesThrough start sites w (below req memory w) w' 0) :
    c.AdvancingHost start sites (c.hostWith perform) below := by
  refine ⟨rfl, ?_⟩
  intro req memory w result memory' w' hsince hreq hcall
  obtain ⟨p, hperform, -⟩ := of_hostWith_call hcall
  exact h hsince hreq hperform

/-- **At every level, what children go through can be followed.** -/
theorem performAt_advancesThrough (c : Chain) (levels : Nat) {memory memory' : Memory} {p : Performed}
    (hsince : start.Since sites w) (hreq : Admits start sites w req)
    (h : c.perform (c.hostAt levels) req memory w = .ok (p, memory', w')) :
    c.AdvancesThrough start sites w (c.momentsAt levels req memory w) w' 0 := by
  induction levels generalizing req memory memory' w w' p with
  | zero =>
      refine perform_advancesThrough (hostWith_advancingHost ?_) hsince hreq h
      intro req memory w p memory' w' _ _ hperform
      cases hperform
  | succ levels ih =>
      refine perform_advancesThrough (hostWith_advancingHost ?_) hsince hreq h
      intro req memory w p memory' w' hsince hreq hperform
      exact ih hsince hreq hperform

end Chain

end MeteredEvm
