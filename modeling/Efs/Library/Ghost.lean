import Efs.Library.Exec

/-!
# Programs with a ghost component

A program may keep a record in one more component of its state, which decides nothing.
Without the component it is the program that keeps no record.
-/

namespace Efs.Library

namespace Exec

variable {ε σ γ α β : Type}

/-- A program that leaves the ghost component alone. -/
def ghost (x : Exec ε σ α) : Exec ε (σ × γ) α := zoom Prod.fst (fun s t => (s, t.2)) x

/-- A write to the ghost component. -/
def note (f : γ → γ) : Exec ε (σ × γ) Unit := update fun t => (t.1, f t.2)

/-- What an execution gives without the ghost component. -/
def forget : Except ε (α × σ × γ) → Except ε (α × σ)
  | .ok (a, t) => .ok (a, t.1)
  | .error e => .error e

/-- Without the ghost component the program `x` is `y`. -/
def Erases (x : Exec ε (σ × γ) α) (y : Exec ε σ α) : Prop := ∀ s g, forget (x (s, g)) = y s

section

variable {x : Exec ε (σ × γ) α} {y : Exec ε σ α} {f : α → Exec ε (σ × γ) β} {g : α → Exec ε σ β}

/-- A value has no ghost. -/
theorem Erases.pure (a : α) : Erases (Pure.pure a : Exec ε (σ × γ) α) (Pure.pure a) :=
  fun _ _ => rfl

/-- A call beside a ghost is the call. -/
theorem Erases.ghost (y : Exec ε σ α) : Erases (Exec.ghost y : Exec ε (σ × γ) α) y := by
  intro s t
  unfold Exec.ghost Exec.zoom
  cases y s <;> rfl

/-- The ghost of a sequence is erased in both parts. -/
theorem Erases.bind (hx : Erases x y) (hf : ∀ a, Erases (f a) (g a)) :
    Erases (x >>= f) (y >>= g) := by
  intro s t
  have hxs := hx s t
  rw [bind_apply, bind_apply, ← hxs]
  cases hrun : x (s, t) with
  | error e => rfl
  | ok r => exact hf r.1 r.2.1 r.2.2

/-- A note goes unnoticed. -/
theorem Erases.note {h : γ → γ} {z : Exec ε (σ × γ) α} (hz : Erases z y) :
    Erases (Exec.note h >>= fun _ => z) y := fun s t => hz s (h t)

/-- The ghost of a statement under a condition is erased in the statement. -/
theorem Erases.when {c : Prop} [Decidable c] {x : Exec ε (σ × γ) Unit} {y : Exec ε σ Unit}
    (hx : Erases x y) : Erases (Exec.when c x) (Exec.when c y) := by
  unfold Exec.when
  split_ifs
  · exact hx
  · exact Erases.pure ()

/-- A stop has no ghost. -/
theorem Erases.stop (e : ε) : Erases (Exec.stop e : Exec ε (σ × γ) α) (Exec.stop e) :=
  fun _ _ => rfl

/-- An execution that returned does so without the ghost component. -/
theorem Erases.of_ok (h : Erases x y) {s s' : σ} {t t' : γ} {a : α}
    (hx : x (s, t) = .ok (a, s', t')) : y s = .ok (a, s') := by
  rw [← h s t, hx]
  rfl

end

/-- The rule for a program that leaves the ghost component alone. -/
@[simp] theorem wp_ghost {x : Exec ε σ α} {Q : α → σ × γ → Prop} {E : ε → Prop} {t : σ × γ} :
    Wp (ghost x) Q E t ↔ Wp x (fun a s => Q a (s, t.2)) E t.1 := wp_zoom

/-- The rule for a write to the ghost component. -/
@[simp] theorem wp_note {f : γ → γ} {Q : Unit → σ × γ → Prop} {E : ε → Prop} {t : σ × γ} :
    Wp (note f) Q E t ↔ Q () (t.1, f t.2) := Iff.rfl

end Exec

end Efs.Library
