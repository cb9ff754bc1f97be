import MeteredEvm.Proofs.LinkedRuns

/-!
# `MeteredEvm.Proofs.Watching` — taking notes on a run

What a frame asks for and what its host goes through can be read off its run by a host that does
what another one does and takes notes. The notes change nothing about the run.

## Contents
* `Host.watching` — a host that takes notes.
* `execute_watching` — it runs every frame as it would run anyway.
* `watching_call_ok` — a child that a watched frame has run.
-/

namespace MeteredEvm

variable {σ γ : Type}

/-- **The host that does what `host` does and takes notes**, some about each query and the state that
    it leaves, and some about each child. -/
def Host.watching (host : Host σ) (asked : Query → σ → List γ)
    (called : CallRequest → Memory → σ → List γ) : Host (σ × List γ) where
  answer q r :=
    ((host.answer q r.1).1, (host.answer q r.1).2, r.2 ++ asked q (host.answer q r.1).2)
  call req memory r :=
    (host.call req memory r.1).map fun (result, after, state) =>
      (result, after, state, r.2 ++ called req memory r.1)

/-- The link of a run with the same run and its notes. -/
def Link.watched : Link σ (σ × List γ) where
  state p r _ := r.1 = p
  memory := Eq

variable {host : Host σ} (asked : Query → σ → List γ) (called : CallRequest → Memory → σ → List γ)

theorem Link.watched_kept (s : Setting σ) (guarded : Bool) :
    Link.watched.Kept s (s.host.watching asked called) guarded := by
  have hanswers (q : Query) : Link.watched.Answers s.host (s.host.watching asked called) q := by
    rintro p r _ rfl
    exact ⟨rfl, rfl⟩
  refine ⟨.of_eq rfl, fun q _ => hanswers q,
    fun _ => .of_answers (.of_eq rfl) (fun q _ => hanswers q) ?_, ?_⟩
  · intro p r _ _ hstate
    exact hstate
  · rintro req memory _ p r _ _ rfl rfl
    show Link.watched.Returns _ (s.host.call req memory r.1) ((s.host.call req memory r.1).map _)
    cases s.host.call req memory r.1 with
    | error t => exact .error t
    | ok a => exact .ok a.1 rfl rfl

/-- **Taking notes does not change a run.** -/
theorem execute_watching {config : Config} {context : CallContext} {input code : ByteArray}
    {gasLimit : Nat} {memory memory' : Memory} {p p' : σ} {result : Result}
    (h : execute config host context input gasLimit code memory p = .ok (result, memory', p')) :
    ∃ notes, execute config (host.watching asked called) context input gasLimit code memory (p, []) =
      .ok (result, memory', p', notes) := by
  have hlinked : Link.watched.Completes (execute config host context input gasLimit code memory p)
      (execute config (host.watching asked called) context input gasLimit code memory (p, [])) :=
    execute_linked (fun f _ => Link.watched_kept asked called (f.setting config host) _) rfl rfl
  rw [h] at hlinked
  generalize execute config (host.watching asked called) context input gasLimit code memory (p, [])
    = r at hlinked ⊢
  cases hlinked with
  | ok _ hmemory hstate _ =>
      obtain ⟨_, _, rfl, rfl, rfl⟩ := hmemory
      subst hstate
      exact ⟨_, rfl⟩

variable {called}

/-- A child that a watched frame has run is a child of the host, with the notes about it. -/
theorem watching_call_ok {req : CallRequest} {memory memory' : Memory} {r r' : σ × List γ}
    {result : CallResult}
    (h : (host.watching asked called).call req memory r = .ok (result, memory', r')) :
    host.call req memory r.1 = .ok (result, memory', r'.1) ∧
      r'.2 = r.2 ++ called req memory r.1 := by
  have h : (host.call req memory r.1).map (fun (result, after, state) =>
      (result, after, state, r.2 ++ called req memory r.1)) = .ok (result, memory', r') := h
  cases hinner : host.call req memory r.1 with
  | error t =>
      rw [hinner] at h
      cases h
  | ok a =>
      rw [hinner] at h
      cases h
      exact ⟨rfl, rfl⟩

end MeteredEvm
