import Mathlib.Algebra.BigOperators.Intervals
import Mathlib.Algebra.BigOperators.Ring.Finset
import Mathlib.Algebra.Order.BigOperators.Group.Finset
import Mathlib.Data.Nat.Bitwise
import Mathlib.Data.Nat.ModEq
import Mathlib.Tactic.Ring

/-!
# Numbers as rows of fields

A number is a row of fields of `w` bits each. While no field overflows, sums and
differences of such numbers are those of their fields, a mask works on each field alone,
and a remainder by `2 ^ w - 1` adds the fields up.
-/

namespace Efs.Library

/-- The number with `f i` in its `i`-th field of `w` bits, for `i < k`. -/
def packed (w : ℕ) (f : ℕ → ℕ) (k : ℕ) : ℕ := ∑ i ∈ Finset.range k, f i * 2 ^ (w * i)

/-- The `i`-th field of `w` bits. -/
def fieldOf (w n i : ℕ) : ℕ := n / 2 ^ (w * i) % 2 ^ w

/-- How many of the lowest `k` bits are set. -/
def onesBelow (k n : ℕ) : ℕ := ∑ j ∈ Finset.range k, (n.testBit j).toNat

variable {w n k s : ℕ} {f g : ℕ → ℕ}

/-- A field is below its bound. -/
theorem fieldOf_lt : fieldOf w n k < 2 ^ w := Nat.mod_lt _ (Nat.two_pow_pos w)

/-- The next field is the first of the rest. -/
theorem fieldOf_succ (i : ℕ) : fieldOf w n (i + 1) = fieldOf w (n / 2 ^ w) i := by
  unfold fieldOf
  rw [Nat.div_div_eq_div_mul, ← pow_add]
  congr 3
  ring

/-- The lowest field, and the row of the others. -/
theorem packed_succ : packed w f (k + 1) = f 0 + 2 ^ w * packed w (fun i => f (i + 1)) k := by
  unfold packed
  rw [Finset.sum_range_succ', Nat.mul_zero, pow_zero, Nat.mul_one, Nat.add_comm, Finset.mul_sum]
  congr 1
  apply Finset.sum_congr rfl
  intro i _
  rw [Nat.mul_add, Nat.mul_one, pow_add]
  ring

/-- Packed numbers depend on their fields only. -/
theorem packed_congr (h : ∀ i < k, f i = g i) : packed w f k = packed w g k := by
  apply Finset.sum_congr rfl
  intro i hi
  rw [h i (Finset.mem_range.mp hi)]

/-- Packed numbers are added by field. -/
theorem packed_add : packed w f k + packed w g k = packed w (fun i => f i + g i) k := by
  unfold packed
  rw [← Finset.sum_add_distrib]
  apply Finset.sum_congr rfl
  intro i _
  rw [Nat.add_mul]

/-- A difference without borrows. -/
theorem packed_sub (h : ∀ i < k, g i ≤ f i) :
    packed w f k - packed w g k = packed w (fun i => f i - g i) k := by
  have hsum : packed w f k = packed w (fun i => f i - g i) k + packed w g k := by
    rw [packed_add]
    apply packed_congr
    intro i hi
    rw [Nat.sub_add_cancel (h i hi)]
  rw [hsum, Nat.add_sub_cancel]

/-- Packed numbers are compared by field. -/
theorem packed_le (h : ∀ i < k, g i ≤ f i) : packed w g k ≤ packed w f k := by
  apply Finset.sum_le_sum
  intro i hi
  exact Nat.mul_le_mul_right _ (h i (Finset.mem_range.mp hi))

/-- A packed number is below its bound. -/
theorem packed_lt (h : ∀ i < k, f i < 2 ^ w) : packed w f k < 2 ^ (w * k) := by
  induction k generalizing f with
  | zero => exact Nat.one_pos
  | succ k ih =>
    have hrest := ih (f := fun i => f (i + 1)) fun i hi => h (i + 1) (by omega)
    have hfirst := h 0 (by omega)
    rw [packed_succ, Nat.mul_succ, Nat.add_comm (w * k), pow_add]
    calc f 0 + 2 ^ w * packed w (fun i => f (i + 1)) k
        < 2 ^ w * (packed w (fun i => f (i + 1)) k + 1) := by rw [Nat.mul_succ]; omega
      _ ≤ 2 ^ w * 2 ^ (w * k) := Nat.mul_le_mul_left _ hrest

/-- A shift by a field drops the lowest one. -/
theorem packed_shiftRight (hfirst : f 0 < 2 ^ w) :
    packed w f (k + 1) >>> w = packed w (fun i => f (i + 1)) k := by
  rw [packed_succ, Nat.shiftRight_eq_div_pow, Nat.add_mul_div_left _ _ (Nat.two_pow_pos w),
    Nat.div_eq_of_lt hfirst, Nat.zero_add]

/-- A number is the row of its fields. -/
theorem packed_fieldOf (h : n < 2 ^ (w * k)) : packed w (fieldOf w n) k = n := by
  induction k generalizing n with
  | zero =>
    rw [Nat.mul_zero, pow_zero] at h
    rw [packed, Finset.sum_range_zero]
    omega
  | succ k ih =>
    have hrest : n / 2 ^ w < 2 ^ (w * k) := by
      rw [Nat.mul_succ, pow_add] at h
      exact Nat.div_lt_of_lt_mul (by rwa [Nat.mul_comm] at h)
    rw [packed_succ, packed_congr fun i _ => fieldOf_succ i, ih hrest, fieldOf, Nat.mul_zero,
      pow_zero, Nat.div_one]
    exact Nat.mod_add_div n (2 ^ w)

/-- The fields of a row. -/
theorem fieldOf_packed (hf : ∀ i < k, f i < 2 ^ w) {i : ℕ} (hi : i < k) :
    fieldOf w (packed w f k) i = f i := by
  induction k generalizing f i with
  | zero => omega
  | succ k ih =>
    have hfirst := hf 0 (by omega)
    rw [packed_succ]
    cases i with
    | zero =>
      rw [fieldOf, Nat.mul_zero, pow_zero, Nat.div_one, Nat.add_mul_mod_self_left,
        Nat.mod_eq_of_lt hfirst]
    | succ i =>
      rw [fieldOf_succ, Nat.add_mul_div_left _ _ (Nat.two_pow_pos w), Nat.div_eq_of_lt hfirst,
        Nat.zero_add]
      exact ih (fun i hi => hf (i + 1) (by omega)) (by omega)

/-- A mask works on each field alone. -/
theorem and_packed (hg : ∀ i < k, g i < 2 ^ w) :
    n &&& packed w g k = packed w (fun i => fieldOf w n i &&& g i) k := by
  induction k generalizing n g with
  | zero => rw [packed, packed, Finset.sum_range_zero, Finset.sum_range_zero, Nat.and_zero]
  | succ k ih =>
    have hfirst := hg 0 (by omega)
    have hrest := ih (n := n / 2 ^ w) (g := fun i => g (i + 1)) fun i hi => hg (i + 1) (by omega)
    have hfield : fieldOf w n 0 = n % 2 ^ w := by
      rw [fieldOf, Nat.mul_zero, pow_zero, Nat.div_one]
    rw [packed_succ, packed_succ, hfield]
    simp only [fieldOf_succ]
    rw [← hrest]
    rw [← Nat.mod_add_div (n &&& _) (2 ^ w), Nat.and_mod_two_pow, Nat.and_div_two_pow,
      Nat.add_mul_mod_self_left, Nat.add_mul_div_left _ _ (Nat.two_pow_pos w),
      Nat.div_eq_of_lt hfirst, Nat.zero_add, Nat.mod_eq_of_lt hfirst]

/-- A shift to the right, cut to the bits that stay in their fields. -/
theorem shiftRight_and_packed (hs : s ≤ w) :
    n >>> s &&& packed w (fun _ => 2 ^ (w - s) - 1) k =
      packed w (fun i => fieldOf w n i / 2 ^ s) k := by
  have hsplit : 2 ^ w = 2 ^ s * 2 ^ (w - s) := by rw [← pow_add, Nat.add_sub_cancel' hs]
  have hmask : ∀ i < k, 2 ^ (w - s) - 1 < 2 ^ w := by
    intro _ _
    have hle : 2 ^ (w - s) ≤ 2 ^ w := Nat.pow_le_pow_right (by omega) (by omega)
    have hpos := Nat.two_pow_pos (w - s)
    omega
  rw [and_packed hmask]
  apply packed_congr
  intro i _
  rw [Nat.and_two_pow_sub_one_eq_mod, fieldOf, fieldOf, Nat.shiftRight_eq_div_pow,
    Nat.div_div_eq_div_mul, Nat.mul_comm (2 ^ s), ← Nat.div_div_eq_div_mul, hsplit,
    Nat.mod_mul_right_div_self, Nat.mod_mod_of_dvd _ (Dvd.intro_left _ rfl)]

/-- A remainder by `2 ^ w - 1` adds the fields up. -/
theorem packed_mod : packed w f k ≡ ∑ i ∈ Finset.range k, f i [MOD 2 ^ w - 1] := by
  have hone : 2 ^ w ≡ 1 [MOD 2 ^ w - 1] := by
    have hpos := Nat.two_pow_pos w
    have hself : (1 : ℕ) + (2 ^ w - 1) ≡ 1 [MOD 2 ^ w - 1] := Nat.add_modEq_right
    rwa [show 1 + (2 ^ w - 1) = 2 ^ w by omega] at hself
  induction k with
  | zero => exact Nat.ModEq.refl _
  | succ k ih =>
    unfold packed at ih ⊢
    rw [Finset.sum_range_succ, Finset.sum_range_succ]
    apply ih.add
    have hpow := (hone.pow k).mul_left (f k)
    rwa [one_pow, Nat.mul_one, ← pow_mul] at hpow

/-- Two fields in one of twice the width. -/
theorem packed_pair : packed w f (2 * k) =
    packed (2 * w) (fun i => f (2 * i) + f (2 * i + 1) * 2 ^ w) k := by
  unfold packed
  induction k with
  | zero => rfl
  | succ k ih =>
    rw [Nat.mul_succ, Finset.sum_range_succ, Finset.sum_range_succ, ih, Finset.sum_range_succ,
      show w * (2 * k + 1) = w + 2 * w * k by ring, pow_add]
    ring

/-! ## Set bits -/

/-- The set bits of a number are those of its fields. -/
theorem onesBelow_fields : onesBelow (w * k) n =
    ∑ i ∈ Finset.range k, onesBelow w (fieldOf w n i) := by
  induction k with
  | zero => rfl
  | succ k ih =>
    rw [Finset.sum_range_succ, ← ih, onesBelow, Nat.mul_succ, Finset.sum_range_add]
    congr 1
    apply Finset.sum_congr rfl
    intro j hj
    rw [fieldOf, Nat.testBit_mod_two_pow, decide_eq_true (Finset.mem_range.mp hj), Bool.true_and,
      ← Nat.shiftRight_eq_div_pow, Nat.testBit_shiftRight]

/-- The ones are counted by their places. -/
theorem onesBelow_eq_card :
    onesBelow k n = ((Finset.range k).filter fun j => n.testBit j = true).card := by
  rw [Finset.card_filter]
  apply Finset.sum_congr rfl
  intro j _
  cases n.testBit j <;> rfl

end Efs.Library
