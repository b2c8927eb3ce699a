import Mathlib.Logic.Relation
import Mathlib.Tactic.Common

/-!
# Programs over a state that may stop

A program reads and writes a state and either returns or stops for a reason
(a blocked lock, a dereferenced null pointer). This file gives the programs,
the rules of pre- and postconditions for them, and finite runs of a labelled
step relation. Nothing here depends on a particular state or program.
-/

namespace Efs.Library

/-- A program over the state `σ` that returns an `α` or stops with an `ε`. -/
abbrev Exec (ε σ α : Type) := StateT σ (Except ε) α

namespace Exec

variable {ε σ α β : Type}

/-- Stop for the reason `e`; no statement after it is reached. -/
def stop (e : ε) : Exec ε σ α := fun _ => .error e

/-- Read a component of the state. -/
def read (f : σ → α) : Exec ε σ α := fun s => .ok (f s, s)

/-- Change the state. -/
def update (f : σ → σ) : Exec ε σ Unit := fun s => .ok ((), f s)

/-- The statement `if(c) x;`. -/
def when (c : Prop) [Decidable c] (x : Exec ε σ Unit) : Exec ε σ Unit :=
  if c then x else pure ()

/-- A program on a component of the state. -/
def zoom {τ : Type} (get : σ → τ) (set : τ → σ → σ) (x : Exec ε τ α) : Exec ε σ α := fun s =>
  match x (get s) with
  | .ok (a, t) => .ok (a, set t s)
  | .error e => .error e

/-- What a read gives. -/
@[simp] theorem read_apply (f : σ → α) (s : σ) : (read f : Exec ε σ α) s = .ok (f s, s) := rfl

/-- What an update leaves. -/
@[simp] theorem update_apply (f : σ → σ) (s : σ) :
    (update f : Exec ε σ Unit) s = .ok ((), f s) := rfl

/-- A stop ends in its error. -/
@[simp] theorem stop_apply (e : ε) (s : σ) : (stop e : Exec ε σ α) s = .error e := rfl

/-- A value leaves the state. -/
@[simp] theorem pure_apply (a : α) (s : σ) : (pure a : Exec ε σ α) s = .ok (a, s) := rfl

/-- A sequence goes on where its first part ends. -/
theorem bind_apply (x : Exec ε σ α) (f : α → Exec ε σ β) (s : σ) :
    (x >>= f) s = match x s with
      | .ok (a, s') => f a s'
      | .error e => .error e := by
  change StateT.bind x f s = _
  unfold StateT.bind
  cases x s <;> rfl

/-- A sequence that starts with a read. -/
@[simp] theorem read_bind (f : σ → α) (g : α → Exec ε σ β) (s : σ) :
    ((read f : Exec ε σ α) >>= g) s = g (f s) s := rfl

/-- A sequence that starts with an update. -/
@[simp] theorem update_bind (f : σ → σ) (g : Unit → Exec ε σ β) (s : σ) :
    ((update f : Exec ε σ Unit) >>= g) s = g () (f s) := rfl

/-- Nothing comes after a stop. -/
@[simp] theorem stop_bind (e : ε) (g : α → Exec ε σ β) (s : σ) :
    ((stop e : Exec ε σ α) >>= g) s = .error e := rfl

/-- A sequence goes on from where its first part returned. -/
theorem bind_of_ok {x : Exec ε σ α} {f : α → Exec ε σ β} {s s' : σ} {a : α}
    (h : x s = .ok (a, s')) : (x >>= f) s = f a s' := by
  rw [bind_apply, h]

/-- A sequence returns exactly when both parts return, one after the other. -/
theorem bind_eq_ok {x : Exec ε σ α} {f : α → Exec ε σ β} {s s' : σ} {b : β} :
    (x >>= f) s = .ok (b, s') ↔ ∃ a s₁, x s = .ok (a, s₁) ∧ f a s₁ = .ok (b, s') := by
  rw [bind_apply]
  cases hx : x s with
  | error e => simp
  | ok r =>
    obtain ⟨a, s₁⟩ := r
    constructor
    · intro h
      exact ⟨a, s₁, rfl, h⟩
    · rintro ⟨a', s₁', heq, h⟩
      cases heq
      exact h

/-! ## Weakest preconditions -/

/-- `Wp x Q E s`: started in the state `s`, the program `x` returns a result and
a state with `Q`, or stops for a reason that `E` allows. -/
def Wp (x : Exec ε σ α) (Q : α → σ → Prop) (E : ε → Prop) (s : σ) : Prop :=
  match x s with
  | .ok (a, s') => Q a s'
  | .error e => E e

variable {Q Q' : α → σ → Prop} {R : β → σ → Prop} {E E' : ε → Prop} {s s' : σ}

/-- What a weakest precondition says of an execution that returned. -/
theorem Wp.of_ok {x : Exec ε σ α} {a : α} (h : Wp x Q E s) (hx : x s = .ok (a, s')) :
    Q a s' := by
  unfold Wp at h
  rwa [hx] at h

/-- What a weakest precondition says of an execution that stopped. -/
theorem Wp.of_error {x : Exec ε σ α} {e : ε} (h : Wp x Q E s) (hx : x s = .error e) : E e := by
  unfold Wp at h
  rwa [hx] at h

/-- A program that never stops returns. -/
theorem Wp.returns {x : Exec ε σ α} (h : Wp x Q (fun _ => False) s) :
    ∃ a s', x s = .ok (a, s') ∧ Q a s' := by
  unfold Wp at h
  cases hx : x s with
  | ok r =>
    rw [hx] at h
    exact ⟨r.1, r.2, rfl, h⟩
  | error e =>
    rw [hx] at h
    exact h.elim

/-- A weakest precondition from separate descriptions of returns and stops. -/
theorem Wp.intro {x : Exec ε σ α} (hok : ∀ a s', x s = .ok (a, s') → Q a s')
    (herr : ∀ e, x s = .error e → E e) : Wp x Q E s := by
  unfold Wp
  cases hx : x s with
  | ok r => exact hok r.1 r.2 hx
  | error e => exact herr e hx

/-- Nothing is said of an execution. -/
theorem Wp.any (x : Exec ε σ α) : Wp x (fun _ _ => True) (fun _ => True) s :=
  Wp.intro (fun _ _ _ => True.intro) fun _ _ => True.intro

/-- The rule of consequence. -/
theorem Wp.mono {x : Exec ε σ α} (h : Wp x Q E s) (hQ : ∀ a s', Q a s' → Q' a s')
    (hE : ∀ e, E e → E' e) : Wp x Q' E' s :=
  Wp.intro (fun _ _ hx => hQ _ _ (h.of_ok hx)) (fun _ hx => hE _ (h.of_error hx))

/-- The rule of consequence for results alone. -/
theorem Wp.imp {x : Exec ε σ α} (h : Wp x Q E s) (hQ : ∀ a s', Q a s' → Q' a s') :
    Wp x Q' E s := h.mono hQ fun _ he => he

/-- Two descriptions of one execution. -/
theorem Wp.and {x : Exec ε σ α} (h : Wp x Q E s) (h' : Wp x Q' E s) :
    Wp x (fun a s' => Q a s' ∧ Q' a s') E s :=
  Wp.intro (fun _ _ hx => ⟨h.of_ok hx, h'.of_ok hx⟩) fun _ hx => h.of_error hx

/-- What is known of the executions that return may be used in a postcondition. -/
theorem Wp.also {x : Exec ε σ α} (h' : Wp x Q' (fun _ => True) s)
    (h : Wp x (fun a s' => Q' a s' → Q a s') E s) : Wp x Q E s :=
  Wp.intro (fun _ _ hx => h.of_ok hx (h'.of_ok hx)) fun _ hx => h.of_error hx

/-- A description of an execution, with the execution that it is of. -/
theorem Wp.run {x : Exec ε σ α} (h : Wp x Q E s) :
    Wp x (fun a s' => x s = .ok (a, s') ∧ Q a s') E s :=
  Wp.intro (fun _ _ hx => ⟨hx, h.of_ok hx⟩) fun _ hx => h.of_error hx

/-- The rule for a value. -/
@[simp] theorem wp_pure {a : α} : Wp (pure a : Exec ε σ α) Q E s ↔ Q a s := Iff.rfl

/-- The rule for a read. -/
@[simp] theorem wp_read {f : σ → α} : Wp (read f : Exec ε σ α) Q E s ↔ Q (f s) s := Iff.rfl

/-- The rule for an update. -/
@[simp] theorem wp_update {f : σ → σ} {Q : Unit → σ → Prop} :
    Wp (update f : Exec ε σ Unit) Q E s ↔ Q () (f s) := Iff.rfl

/-- The rule for a stop. -/
@[simp] theorem wp_stop {e : ε} : Wp (stop e : Exec ε σ α) Q E s ↔ E e := Iff.rfl

/-- The rule of sequencing, read as an equation. -/
@[simp] theorem wp_bind {x : Exec ε σ α} {f : α → Exec ε σ β} :
    Wp (x >>= f) R E s ↔ Wp x (fun a s' => Wp (f a) R E s') E s := by
  unfold Wp
  rw [bind_apply]
  cases x s <;> rfl

/-- The rule for a function of the result. -/
@[simp] theorem wp_map {x : Exec ε σ α} {f : α → β} :
    Wp (f <$> x) R E s ↔ Wp x (fun a s' => R (f a) s') E s := by
  rw [← bind_pure_comp]
  exact wp_bind

/-- The rule of sequencing. -/
theorem Wp.bind {x : Exec ε σ α} {f : α → Exec ε σ β} (hx : Wp x Q E s)
    (hf : ∀ a s', Q a s' → Wp (f a) R E s') : Wp (x >>= f) R E s :=
  wp_bind.mpr (hx.imp hf)

/-- A program of which nothing is said comes first. -/
theorem Wp.after {x : Exec ε σ α} {f : α → Exec ε σ β}
    (hf : ∀ a s', Wp (f a) R (fun _ => True) s') : Wp (x >>= f) R (fun _ => True) s :=
  (Wp.any x).bind fun a s' _ => hf a s'

/-- The rule for conditionals. -/
theorem wp_ite {c : Prop} [Decidable c] {x y : Exec ε σ α} :
    Wp (if c then x else y) Q E s ↔ (c → Wp x Q E s) ∧ (¬c → Wp y Q E s) := by
  by_cases hc : c
  · simp [hc]
  · simp [hc]

/-- The rule for a statement under a condition. -/
@[simp] theorem wp_when {c : Prop} [Decidable c] {x : Exec ε σ Unit} {Q : Unit → σ → Prop} :
    Wp (when c x) Q E s ↔ (c → Wp x Q E s) ∧ (¬c → Q () s) := by
  unfold when
  rw [wp_ite, wp_pure]

/-- The rule for a program on a component. -/
@[simp] theorem wp_zoom {τ : Type} {get : σ → τ} {set : τ → σ → σ} {x : Exec ε τ α} :
    Wp (zoom get set x) Q E s ↔ Wp x (fun a t => Q a (set t s)) E (get s) := by
  unfold Wp zoom
  cases x (get s) <;> rfl

end Exec

/-- A result that passes a check is there. -/
theorem exists_of_check {ε α : Type} {x : Except ε α} {p : α → Bool}
    (h : x.toOption.any p = true) : ∃ a, x = .ok a ∧ p a = true := by
  cases x with
  | error e => cases h
  | ok a => exact ⟨a, rfl, h⟩

/-! ## Finite runs -/

section Runs

variable {σ ι : Type} {step : σ → ι → σ → Prop}

/-- A finite run of the labelled steps `step`, with its labels in order. -/
inductive Run (step : σ → ι → σ → Prop) : σ → List ι → σ → Prop
  | nil (s : σ) : Run step s [] s
  | cons {s s₁ s' : σ} {i : ι} {is : List ι} :
      step s i s₁ → Run step s₁ is s' → Run step s (i :: is) s'

/-- A property that every step preserves holds at the end of every run. -/
theorem Run.invariant {I : σ → Prop} (hstep : ∀ s i s', I s → step s i s' → I s')
    {s s' : σ} {is : List ι} (hrun : Run step s is s') (hs : I s) : I s' := by
  induction hrun with
  | nil => exact hs
  | cons h _ ih => exact ih (hstep _ _ _ hs h)

/-- When each step is one between related states, with the same label, so is each run. -/
theorem Run.simulates {τ : Type} {step' : τ → ι → τ → Prop} {R : σ → τ → Prop}
    (hstep : ∀ s t i s', R s t → step s i s' → ∃ t', R s' t' ∧ step' t i t')
    {s s' : σ} {t : τ} {is : List ι} (hrun : Run step s is s') (hst : R s t) :
    ∃ t', R s' t' ∧ Run step' t is t' := by
  induction hrun generalizing t with
  | nil => exact ⟨t, hst, .nil t⟩
  | cons h _ ih =>
    obtain ⟨t₁, hrel, hfirst⟩ := hstep _ _ _ _ hst h
    obtain ⟨t', hrel', hrest⟩ := ih hrel
    exact ⟨t', hrel', .cons hfirst hrest⟩

/-- A run with a first label starts with a step. -/
theorem Run.uncons {s s' : σ} {i : ι} {is : List ι} (h : Run step s (i :: is) s') :
    ∃ s₁, step s i s₁ ∧ Run step s₁ is s' := by
  cases h with
  | cons hi hrest => exact ⟨_, hi, hrest⟩

/-- Runs compose. -/
theorem Run.append {s s₁ s' : σ} {is js : List ι} (h₁ : Run step s is s₁)
    (h₂ : Run step s₁ js s') : Run step s (is ++ js) s' := by
  induction h₁ with
  | nil => exact h₂
  | cons h _ ih => exact .cons h (ih h₂)

/-- A run splits at every point of its label sequence. -/
theorem Run.split {s s' : σ} {is js : List ι} (h : Run step s (is ++ js) s') :
    ∃ s₁, Run step s is s₁ ∧ Run step s₁ js s' := by
  induction is generalizing s with
  | nil => exact ⟨s, .nil s, h⟩
  | cons i is ih =>
    cases h with
    | cons hi hrest =>
      obtain ⟨s₁, h₁, h₂⟩ := ih hrest
      exact ⟨s₁, .cons hi h₁, h₂⟩

/-- The steps of a function that may fail make a run when they are folded. -/
theorem Run.of_foldlM {ε : Type} {f : σ → ι → Except ε σ} {s s' : σ} {is : List ι}
    (h : is.foldlM f s = .ok s') : Run (fun s i s' => f s i = .ok s') s is s' := by
  induction is generalizing s with
  | nil =>
    cases h
    exact .nil _
  | cons i is ih =>
    rw [List.foldlM_cons] at h
    cases hstep : f s i with
    | error e =>
      rw [hstep] at h
      cases h
    | ok s₁ =>
      rw [hstep] at h
      exact .cons hstep (ih h)

/-- A property of steps holds at every step of the run with the given labels. -/
def Always (step : σ → ι → σ → Prop) (P : σ → ι → σ → Prop) (s : σ)
    (is : List ι) : Prop :=
  ∀ before i after s₁ s₂, is = before ++ i :: after → Run step s before s₁ → step s₁ i s₂ →
    P s₁ i s₂

variable {P Q : σ → ι → σ → Prop}

/-- A run without steps. -/
theorem Always.nil (s : σ) : Always step P s [] := by
  intro before i after s₁ s₂ heq
  simp at heq

/-- The steps after the first are steps of the run from the state it leads to. -/
theorem Always.tail {s s₁ : σ} {i : ι} {is : List ι} (h : Always step P s (i :: is))
    (hstep : step s i s₁) : Always step P s₁ is := by
  intro before j after s₂ s₃ heq hrun hj
  exact h (i :: before) j after s₂ s₃ (by rw [heq, List.cons_append]) (.cons hstep hrun) hj

/-- The first step of a run has the property. -/
theorem Always.head {s s₁ : σ} {i : ι} {is : List ι} (h : Always step P s (i :: is))
    (hstep : step s i s₁) : P s i s₁ :=
  h [] i is s s₁ rfl (.nil s) hstep

/-- What holds at every step of a run holds at the first step and at every step after it. -/
theorem Always.cons_iff {s : σ} {i : ι} {is : List ι} : Always step P s (i :: is) ↔
    ∀ s₁, step s i s₁ → P s i s₁ ∧ Always step P s₁ is := by
  constructor
  · intro h s₁ hstep
    exact ⟨h.head hstep, h.tail hstep⟩
  · intro h before j after s₁ s₂ heq hrun hj
    cases hrun with
    | nil =>
      obtain ⟨rfl, rfl⟩ := List.cons.inj heq
      exact (h _ hj).1
    | cons hi hrest =>
      obtain ⟨rfl, rfl⟩ := List.cons.inj heq
      exact (h _ hi).2 _ _ _ _ _ rfl hrest hj

/-- Properties that agree while an invariant holds, and of which the first keeps
the invariant, agree on every run. -/
theorem Always.congr {I : σ → Prop}
    (hI : ∀ s i s', I s → step s i s' → P s i s' → I s')
    (h : ∀ s i s', I s → step s i s' → (P s i s' ↔ Q s i s')) {s : σ} (hs : I s)
    (is : List ι) : Always step P s is ↔ Always step Q s is := by
  induction is generalizing s with
  | nil =>
    constructor <;> intro _ before i after s₁ s₂ heq <;> simp at heq
  | cons i is ih =>
    rw [Always.cons_iff, Always.cons_iff]
    constructor
    · intro hP s₁ hstep
      obtain ⟨hhead, htail⟩ := hP s₁ hstep
      exact ⟨(h _ _ _ hs hstep).mp hhead, (ih (hI _ _ _ hs hstep hhead)).mp htail⟩
    · intro hQ s₁ hstep
      obtain ⟨hhead, htail⟩ := hQ s₁ hstep
      have hhead' := (h _ _ _ hs hstep).mpr hhead
      exact ⟨hhead', (ih (hI _ _ _ hs hstep hhead')).mpr htail⟩

/-- What holds at every step of a run holds at every step of a first part of it. -/
theorem Always.left {s : σ} {is js : List ι} (h : Always step P s (is ++ js)) :
    Always step P s is := by
  intro before i after s₁ s₂ heq hrun hstep
  exact h before i (after ++ js) s₁ s₂ (by rw [heq]; simp) hrun hstep

/-- What holds at every step of a run holds at every step of the rest of it. -/
theorem Always.right {s s₁ : σ} {is js : List ι} (h : Always step P s (is ++ js))
    (hrun : Run step s is s₁) : Always step P s₁ js := by
  intro before i after s₂ s₃ heq hrun' hstep
  exact h (is ++ before) i after s₂ s₃ (by rw [heq, List.append_assoc]) (hrun.append hrun') hstep

end Runs

end Efs.Library
