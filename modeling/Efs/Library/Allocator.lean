import Efs.Library.Exec
import Mathlib.Data.Set.Insert
import Mathlib.Order.Bounds.Basic

/-!
# Allocators of numbers

An allocator hands out numbers and takes them back. Whatever its state is, it
shows a set of used numbers; it is sound when an allocation adds a number that
was not used and a release removes exactly the number it is given. Then no
number is handed out twice without a release in between.

An allocator that searches from a hint on hands out the least free number as long as
all numbers below the hint are used.
-/

namespace Efs.Library

/-- What one call of an allocator did. -/
inductive AllocEvent
  /-- A number was handed out. -/
  | alloc (id : ℕ)
  /-- No number was handed out. -/
  | failed
  /-- A number was taken back. -/
  | free (id : ℕ)
  deriving DecidableEq

/-- The effect an event must have on the set of used numbers. -/
def AllocEvent.Sound (used used' : Set ℕ) : AllocEvent → Prop
  | .alloc id => id ∉ used ∧ used' = insert id used
  | .failed => used' = used
  | .free id => used' = used \ {id}

section

variable {σ ι : Type} {step : σ → ι → σ → Prop}
variable {used : σ → Set ℕ} {event : ι → AllocEvent}

end

/-! ## Searches from a hint on -/

section

variable {used used' : Set ℕ} {size bound start id width hint : ℕ}

/-- The numbers below `size` that are not used. -/
def freeIds (used : Set ℕ) (size : ℕ) : Set ℕ := {id | id < size ∧ id ∉ used}

/-- All numbers below the bound are used. -/
def FullBelow (used : Set ℕ) (size bound : ℕ) : Prop := ∀ id < size, id < bound → id ∈ used

/-- Nothing is below zero. -/
theorem fullBelow_zero : FullBelow used size 0 := fun _ _ hlt => absurd hlt (Nat.not_lt_zero _)

/-- Nothing is free when the numbers below a bound past the last one are used. -/
theorem FullBelow.freeIds_eq_empty (h : FullBelow used size bound) (hbound : size ≤ bound) :
    freeIds used size = ∅ := by
  ext id
  simp only [freeIds, Set.mem_ofPred_eq, Set.mem_empty_iff_false, iff_false, not_and, not_not]
  exact fun hid => h id hid (lt_of_lt_of_le hid hbound)

/-- A search that fails finds no free number below its start either. -/
theorem FullBelow.freeIds_eq_empty_of_search (h : FullBelow used size start)
    (hsearch : ∀ id, start ≤ id → id < size → id ∈ used) : freeIds used size = ∅ := by
  ext id
  simp only [freeIds, Set.mem_ofPred_eq, Set.mem_empty_iff_false, iff_false, not_and, not_not]
  intro hid
  by_cases hlt : id < start
  · exact h id hid hlt
  · exact hsearch id (Nat.not_lt.mp hlt) hid

/-- The first free number from the bound on is the least of all. -/
theorem FullBelow.isLeast (h : FullBelow used size start) (hid : id < size) (hnew : id ∉ used)
    (hsearch : ∀ j, start ≤ j → j < id → j ∈ used) : IsLeast (freeIds used size) id := by
  constructor
  · exact ⟨hid, hnew⟩
  · rintro j ⟨hj, hfree⟩
    by_contra hlt
    apply hfree
    by_cases hstart : j < start
    · exact h j hj hstart
    · exact hsearch j (Nat.not_lt.mp hstart) (Nat.not_le.mp hlt)

/-- A set that is full below a bound stays so when it grows. -/
theorem FullBelow.mono (h : FullBelow used size bound) (hused : used ⊆ used') :
    FullBelow used' size bound := fun id hid hlt => hused (h id hid hlt)

/-- The hint moves on by one word only: the words up to that of the new number were passed
by the search, and its own word is full now. -/
theorem FullBelow.advance (h : FullBelow used size (hint * width))
    (hstart : hint * width ≤ id) (hsearch : ∀ j, hint * width ≤ j → j < id → j ∈ used)
    (hused : used' = insert id used) (hword : ∀ j, j / width = id / width → j ∈ used') :
    FullBelow used' size ((hint + 1) * width) := by
  intro j hj hlt
  by_cases hbelow : j < hint * width
  · rw [hused]
    exact Or.inr (h j hj hbelow)
  · by_cases hpassed : j < id
    · rw [hused]
      exact Or.inr (hsearch j (Nat.not_lt.mp hbelow) hpassed)
    · have hle : hint ≤ id / width := (Nat.le_div_iff_mul_le (by grind)).mpr hstart
      have hdiv : id / width ≤ j / width := Nat.div_le_div_right (Nat.not_lt.mp hpassed)
      have hj : j / width < hint + 1 := Nat.div_lt_of_lt_mul (by rwa [Nat.mul_comm])
      exact hword j (by omega)

/-- A release takes the hint back to the word of the number. -/
theorem FullBelow.release (h : FullBelow used size (hint * width)) {released : ℕ}
    (hword : released / width = id / width) (hused : used' = used \ {released}) :
    FullBelow used' size (min hint (id / width) * width) := by
  intro j hj hlt
  have hle : min hint (id / width) * width ≤ hint * width :=
    Nat.mul_le_mul_right _ (Nat.min_le_left _ _)
  rw [hused]
  refine ⟨h j hj (lt_of_lt_of_le hlt hle), ?_⟩
  rintro rfl
  have hdiv : j / width < min hint (id / width) := Nat.div_lt_of_lt_mul (by rwa [Nat.mul_comm])
  rw [hword] at hdiv
  exact absurd (Nat.min_le_right hint (id / width)) (Nat.not_le.mpr hdiv)

end

end Efs.Library
