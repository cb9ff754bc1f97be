import MeteredEvm.Fault

/-!
# `MeteredEvm.Proofs.Acts` — computations that keep their state

`Stack.Act`, `Memory.Act` and `Exec` are one monad on different states: a computation gives a value or
a `Failure`, and in both cases the state that it has reached. This module takes such computations
apart, and names those that reach nothing if they fail (`Steady`).

## Contents
* `Act.bind_ok`, `Act.bind_error`, `Act.get_bind`, `Act.eq_of_bind_ok`, `Act.map_apply` — two
  computations in a row.
* `Steady`, `Steady.map`, `Steady.bind` — failures that change nothing.
-/

namespace MeteredEvm

variable {S α β : Type} {x : EStateM Failure S α} {f : α → EStateM Failure S β} {s s' : S}

namespace Act

/-- The second computation runs on what the first one leaves. -/
theorem bind_ok {a : α} (h : x s = .ok a s') : (x >>= f) s = f a s' := by
  show EStateM.bind x f s = f a s'
  unfold EStateM.bind
  rw [h]

/-- A failure of the first computation is the failure of both. -/
theorem bind_error {e : Failure} (h : x s = .error e s') : (x >>= f) s = .error e s' := by
  show EStateM.bind x f s = .error e s'
  unfold EStateM.bind
  rw [h]

theorem get_bind {f : S → EStateM Failure S β} : ((get : EStateM Failure S S) >>= f) s = f s s := rfl

/-- If two computations in a row succeed, so does the first, and the second on what it leaves. -/
theorem eq_of_bind_ok {b : β} (h : (x >>= f) s = .ok b s') :
    ∃ a s₁, x s = .ok a s₁ ∧ f a s₁ = .ok b s' := by
  cases hx : x s with
  | ok a s₁ =>
      rw [bind_ok hx] at h
      exact ⟨a, s₁, rfl, h⟩
  | error e s₁ =>
      rw [bind_error hx] at h
      cases h

theorem map_apply (g : α → β) (x : EStateM Failure S α) (s : S) :
    (g <$> x) s =
      match x s with
      | .ok a s' => .ok (g a) s'
      | .error e s' => .error e s' := by
  show EStateM.map g x s = _
  unfold EStateM.map
  cases x s with
  | ok a s' => rfl
  | error e s' => rfl

end Act

/-- **A computation that changes nothing if it fails**: an `.error` leaves the state it was given. -/
def Steady (x : EStateM Failure S α) : Prop := ∀ ⦃s e s'⦄, x s = .error e s' → s' = s

namespace Steady

theorem map (hx : Steady x) (g : α → β) : Steady (g <$> x) := by
  intro s e s' h
  rw [Act.map_apply] at h
  split at h
  · cases h
  · rename_i hfails
    cases h
    exact hx hfails

theorem throw (e : Failure) : Steady (throw e : EStateM Failure S α) := by
  intro s e' s' h
  cases h
  rfl

/-- What comes second may change the state as it likes if it does not fail any more. -/
theorem bind (hx : Steady x) (hf : ∀ ⦃s a s'⦄, x s = .ok a s' → ∃ b s'', f a s' = .ok b s'') :
    Steady (x >>= f) := by
  intro s e s' h
  cases hcase : x s with
  | ok a s₁ =>
      obtain ⟨b, s₂, hb⟩ := hf hcase
      rw [Act.bind_ok hcase, hb] at h
      cases h
  | error e₁ s₁ =>
      rw [Act.bind_error hcase] at h
      cases h
      exact hx hcase

end Steady

end MeteredEvm
