import Efs.Library.Exec

/-!
# Programs that leave a part of the state alone

A program keeps a function of the state when the function has the same value after
every execution that returns. The rules follow the constructs of programs.
-/

namespace Efs.Library

namespace Exec

variable {ε σ α β γ : Type}

/-- Every execution of `x` that returns keeps the value of `f`. -/
def Keeps (f : σ → γ) (x : Exec ε σ α) : Prop := ∀ s a s', x s = .ok (a, s') → f s' = f s

variable {f : σ → γ}

/-- A value changes nothing. -/
theorem Keeps.pure (a : α) : Keeps f (Pure.pure a : Exec ε σ α) := by
  intro s b s' h
  cases h
  rfl

/-- A read changes nothing. -/
theorem Keeps.read (g : σ → α) : Keeps f (Exec.read g : Exec ε σ α) := by
  intro s b s' h
  cases h
  rfl

/-- A stop changes nothing. -/
theorem Keeps.stop (e : ε) : Keeps f (Exec.stop e : Exec ε σ α) := by
  intro s b s' h
  cases h

/-- What stands after a stop does not matter. -/
theorem Keeps.stop_bind (e : ε) (g : α → Exec ε σ β) : Keeps f (Exec.stop e >>= g) := by
  intro s b s' h
  cases h

/-- A change of the state that keeps `f`. -/
theorem Keeps.update {g : σ → σ} (hg : ∀ s, f (g s) = f s) :
    Keeps f (Exec.update g : Exec ε σ Unit) := by
  intro s b s' h
  cases h
  exact hg s

/-- A sequence keeps what both its parts keep. -/
theorem Keeps.bind {x : Exec ε σ α} {g : α → Exec ε σ β} (hx : Keeps f x)
    (hg : ∀ a, Keeps f (g a)) : Keeps f (x >>= g) := by
  intro s b s' h
  obtain ⟨a, s₁, hfirst, hrest⟩ := bind_eq_ok.mp h
  exact (hg a s₁ b s' hrest).trans (hx s a s₁ hfirst)

/-- A branch keeps what both its sides keep. -/
theorem Keeps.ite {c : Prop} [Decidable c] {x y : Exec ε σ α} (hx : Keeps f x) (hy : Keeps f y) :
    Keeps f (if c then x else y) := by
  by_cases hc : c
  · rwa [if_pos hc]
  · rwa [if_neg hc]

/-- A statement under a condition keeps what it keeps. -/
theorem Keeps.when {c : Prop} [Decidable c] {x : Exec ε σ Unit} (hx : Keeps f x) :
    Keeps f (Exec.when c x) := Keeps.ite hx (Keeps.pure ())

/-- What a program keeps may be used in its postcondition. -/
theorem Wp.keeping {x : Exec ε σ α} (hx : Keeps f x) {Q : α → σ → Prop} {E : ε → Prop} {s : σ}
    (h : Wp x (fun a s' => f s' = f s → Q a s') E s) : Wp x Q E s :=
  Wp.intro (fun a s' hrun => h.of_ok hrun (hx s a s' hrun)) fun _ hrun => h.of_error hrun

/-- What a program keeps, as a postcondition. -/
theorem Keeps.wp {x : Exec ε σ α} (hx : Keeps f x) {s : σ} :
    Wp x (fun _ s' => f s' = f s) (fun _ => True) s :=
  Wp.intro (fun a s' hrun => hx s a s' hrun) fun _ _ => trivial

/-- A program on a component keeps what does not depend on the component. -/
theorem Keeps.zoom {τ : Type} {get : σ → τ} {set : τ → σ → σ} {x : Exec ε τ α}
    (hset : ∀ t s, f (set t s) = f s) : Keeps f (Exec.zoom get set x) := by
  intro s b s' h
  unfold Exec.zoom at h
  cases hx : x (get s) with
  | error e =>
    rw [hx] at h
    cases h
  | ok r =>
    rw [hx] at h
    cases h
    exact hset _ s

end Exec

end Efs.Library
