import Efs.Bitmap

/-!
# The bit macros and the place of a number in a block

`BITMAP_FIRST_EMPTY_64` finds the most significant clear bit of a word. Marking
a bit and clearing a byte are then described by the set of numbers they leave
used. The two disagree about the place of a number: allocation counts from the
most significant bit of a little-endian word, release counts bytes from the
front of the block, so that a release clears the bit of the mirrored number.
-/

namespace Efs

open Library

/-! ## The most significant clear bit -/

/-- Bit `j` of `x` is set exactly when one of the `s` bits of `m` from `j` on is. -/
def Smeared (s : ℕ) (m x : BitVec 64) : Prop :=
  ∀ j, x.getLsbD j = true ↔ ∃ t < s, m.getLsbD (j + t) = true

/-- A word smeared over one bit is itself. -/
theorem smeared_one (m : BitVec 64) : Smeared 1 m m := by
  intro j
  constructor
  · intro h
    exact ⟨0, by omega, h⟩
  · rintro ⟨t, ht, h⟩
    obtain rfl : t = 0 := by omega
    exact h

/-- A smear by `s` doubles the width of the window. -/
theorem Smeared.smearBy {s : ℕ} {m x : BitVec 64} (h : Smeared s m x) :
    Smeared (2 * s) m (smearBy s x) := by
  intro j
  rw [Efs.smearBy, BitVec.getLsbD_or, BitVec.getLsbD_ushiftRight, Bool.or_eq_true, h j, h (s + j)]
  constructor
  · rintro (⟨t, ht, hbit⟩ | ⟨t, ht, hbit⟩)
    · exact ⟨t, by omega, hbit⟩
    · exact ⟨s + t, by omega, by rwa [show j + (s + t) = s + j + t by omega]⟩
  · rintro ⟨t, ht, hbit⟩
    by_cases hts : t < s
    · exact Or.inl ⟨t, hts, hbit⟩
    · exact Or.inr ⟨t - s, by omega, by rwa [show s + j + (t - s) = j + t by omega]⟩

/-- The lines of `NEXT_POW2_64` smear a word over all bits. -/
theorem smeared_smear64 (m : BitVec 64) : Smeared 64 m (smear64 m) := by
  have h := smeared_one m
  exact h.smearBy.smearBy.smearBy.smearBy.smearBy.smearBy

/-- A nonzero word has a most significant set bit. -/
theorem exists_leading_bit {m : BitVec 64} (h : m ≠ 0) :
    ∃ k < 64, m.getLsbD k = true ∧ ∀ j, k < j → m.getLsbD j = false := by
  have hne : m.toNat ≠ 0 := by
    intro h0
    exact h (BitVec.eq_of_toNat_eq h0)
  have hlt := m.isLt
  refine ⟨m.toNat.log2, (Nat.log2_lt hne).mpr hlt, ?_, ?_⟩
  · rw [← BitVec.testBit_toNat]
    exact Nat.testBit_log2 hne
  · intro j hj
    rw [← BitVec.testBit_toNat]
    exact Nat.testBit_eq_false_of_lt ((Nat.log2_lt hne).mp hj)

/-- The smear of a word fills all places up to its most significant set bit. -/
theorem smear64_eq {m : BitVec 64} {k : ℕ} (hk : k < 64) (hbit : m.getLsbD k = true)
    (htop : ∀ j, k < j → m.getLsbD j = false) :
    smear64 m = BitVec.ofNat 64 (2 ^ (k + 1) - 1) := by
  apply BitVec.eq_of_getLsbD_eq
  intro j hj
  rw [BitVec.getLsbD_ofNat, Nat.testBit_two_pow_sub_one, decide_eq_true hj, Bool.true_and]
  rw [Bool.eq_iff_iff, decide_eq_true_iff, smeared_smear64 m j]
  constructor
  · rintro ⟨t, _, ht⟩
    by_contra hlt
    rw [htop (j + t) (by omega)] at ht
    cases ht
  · intro hjk
    exact ⟨k - j, by omega, by rwa [show j + (k - j) = k by omega]⟩

/-- On the words `2 ^ k - 1` the population count is `k`. -/
theorem bitcount64_two_pow_sub_one :
    ∀ k < 64, (bitcount64 (BitVec.ofNat 64 (2 ^ k) - 1)).toNat = k := by decide

/-- Away from the overflow case, `LEFTMOST_SET_BIT_64` gives the place of the
most significant set bit. -/
theorem leftmostSetBit64_eq {m : BitVec 64} {k : ℕ} (hk : k < 63) (hbit : m.getLsbD k = true)
    (htop : ∀ j, k < j → m.getLsbD j = false) : (leftmostSetBit64 m).toNat = k := by
  have hnext : nextPow2_64 m = BitVec.ofNat 64 (2 ^ (k + 1)) := by
    rw [nextPow2_64, smear64_eq (by omega) hbit htop]
    apply BitVec.eq_of_toNat_eq
    have hpos : 0 < 2 ^ (k + 1) := Nat.two_pow_pos _
    have hone : BitVec.toNat (1 : BitVec 64) = 1 := rfl
    simp only [BitVec.toNat_add, BitVec.toNat_ofNat, hone]
    omega
  have hmask : leftmostSetBitMask64 m = BitVec.ofNat 64 (2 ^ k) := by
    rw [leftmostSetBitMask64, hnext]
    apply BitVec.eq_of_toNat_eq
    have hlt : 2 ^ (k + 1) < 2 ^ 64 := Nat.pow_lt_pow_right (by omega) (by omega)
    have hlt' : 2 ^ k < 2 ^ 64 := Nat.pow_lt_pow_right (by omega) (by omega)
    rw [BitVec.toNat_ushiftRight, BitVec.toNat_ofNat, BitVec.toNat_ofNat, Nat.mod_eq_of_lt hlt,
      Nat.mod_eq_of_lt hlt', Nat.shiftRight_eq_div_pow, pow_succ]
    omega
  rw [leftmostSetBit64, hmask]
  exact bitcount64_two_pow_sub_one k (by omega)

/-- `BITMAP_FIRST_EMPTY_64` is -1 on the full word, and otherwise the place of
the most significant clear bit. -/
theorem bitmapFirstEmpty64_spec (n : BitVec 64) :
    (bitmapFirstEmpty64 n = -1 ∧ ~~~n = 0) ∨
      ∃ k : ℕ, k < 64 ∧ bitmapFirstEmpty64 n = (k : ℤ) ∧ n.getLsbD k = false ∧
        ∀ j, k < j → j < 64 → n.getLsbD j = true := by
  unfold bitmapFirstEmpty64
  by_cases hfull : ~~~n = 0
  · exact Or.inl ⟨by rw [if_pos hfull], hfull⟩
  right
  obtain ⟨k, hk, hbit, htop⟩ := exists_leading_bit hfull
  have hclear : n.getLsbD k = false := by simpa [hk] using hbit
  have habove : ∀ j, k < j → j < 64 → n.getLsbD j = true := by
    intro j hj hj64
    simpa [hj64] using htop j hj
  refine ⟨k, hk, ?_, hclear, habove⟩
  rw [if_neg hfull]
  have hmsb : (~~~n &&& (1#64 <<< 63) ≠ 0) ↔ n.getLsbD 63 = false := by
    rw [show (1#64 <<< 63) = BitVec.twoPow 64 63 from rfl]
    constructor
    · intro h
      by_contra hset
      apply h
      apply BitVec.eq_of_getLsbD_eq
      intro j _
      rw [BitVec.getLsbD_and, BitVec.getLsbD_twoPow, BitVec.getLsbD_not]
      by_cases hj63 : 63 = j
      · subst hj63
        simp only [Bool.not_eq_false] at hset
        rw [hset]
        rfl
      · simp [hj63]
    · intro h hzero
      have := congrArg (·.getLsbD 63) hzero
      simp only [BitVec.getLsbD_and, BitVec.getLsbD_twoPow, BitVec.getLsbD_not, h] at this
      cases this
  by_cases h63 : k = 63
  · subst h63
    rw [if_pos (hmsb.mpr hclear)]
    rfl
  · rw [if_neg (by rw [hmsb, habove 63 (by omega) (by omega)]; simp)]
    rw [leftmostSetBit64_eq (by omega) hbit htop]

/-! ## Numbers and their places -/

/-- The number `id` is used in the block: bit `63 - id % 64` of its word. -/
def idUsed (d : Data) (id : ℕ) : Bool := (word64 d (id / 64)).getLsbD (63 - id % 64)

/-- The number whose bit `clearByte` clears when it is given `id`: the bytes
of the word are counted from the other end. -/
def mirror (id : ℕ) : ℕ := 64 * (id / 64) + 8 * (7 - id % 64 / 8) + id % 8

/-- The mirror of a mirror is the number. -/
@[simp] theorem mirror_mirror (id : ℕ) : mirror (mirror id) = id := by
  unfold mirror
  omega

/-- The mirrored number is in the same word. -/
theorem mirror_div (id : ℕ) : mirror id / 64 = id / 64 := by
  unfold mirror
  omega

/-- The mirror of a number is in the same word. -/
theorem mirror_lt {id n : ℕ} (h : id < 64 * n) : mirror id < 64 * n := by
  unfold mirror
  omega

/-- Bit `k` of a word is bit `k % 8` of its byte `k / 8`. -/
theorem getLsbD_word64 (d : Data) (w : ℕ) {k : ℕ} (hk : k < 64) :
    (word64 d w).getLsbD k = (d.get (8 * w + k / 8)).getLsbD (k % 8) := by
  rw [word64, BitVec.getLsbD_ofNat, Bytes.testBit_getLE, decide_eq_true hk, Bool.true_and,
    Bool.true_and]

/-- The place of a number as a byte and a bit. -/
theorem idUsed_eq_byte (d : Data) (id : ℕ) :
    idUsed d id = (d.get (8 * (id / 64) + (7 - id % 64 / 8))).getLsbD (7 - id % 8) := by
  rw [idUsed, getLsbD_word64 d _ (by omega)]
  congr 2 <;> omega

/-- The word that is set is there. -/
@[simp] theorem word64_setWord64_self (d : Data) {w : ℕ} (v : BitVec 64) (hw : w < 512) :
    word64 (setWord64 d w v) w = v := by
  rw [word64, setWord64, Bytes.getLE_putLE d _ (by omega)]
  apply BitVec.eq_of_toNat_eq
  have := v.isLt
  rw [BitVec.toNat_ofNat]
  omega

/-- A word that is set leaves the other words. -/
theorem word64_setWord64_of_ne (d : Data) {w w' : ℕ} (v : BitVec 64) (h : w ≠ w') :
    word64 (setWord64 d w v) w' = word64 d w' := by
  rw [word64, setWord64, Bytes.putLE, Bytes.getLE_write_of_disjoint (by omega), ← word64]

/-- Marking a bit uses exactly one more number. -/
theorem idUsed_markWord (d : Data) {w tmp : ℕ} (hw : w < 512) (htmp : tmp < 64) (id : ℕ) :
    idUsed (markWord d w tmp) id = (idUsed d id || decide (id = w * 64 + (63 - tmp))) := by
  unfold idUsed markWord
  by_cases hword : w = id / 64
  · subst hword
    rw [word64_setWord64_self d _ hw, BitVec.getLsbD_or, BitVec.getLsbD_shiftLeft]
    congr 1
    rw [Bool.eq_iff_iff, decide_eq_true_iff]
    simp only [BitVec.getLsbD_one, Bool.and_eq_true, decide_eq_true_eq, Bool.not_eq_true',
      decide_eq_false_iff_not]
    omega
  · rw [word64_setWord64_of_ne d _ hword, decide_eq_false (by omega), Bool.or_false]

/-- Clearing a byte frees exactly the mirrored number. -/
theorem idUsed_clearByte (d : Data) {id : ℕ} (hid : id < 32768) (j : ℕ) :
    idUsed (clearByte d id) j = (idUsed d j && decide (j ≠ mirror id)) := by
  rw [idUsed_eq_byte, idUsed_eq_byte, clearByte]
  by_cases hbyte : 8 * (j / 64) + (7 - j % 64 / 8) = id / 8
  · rw [hbyte, Bytes.get_write_of_mem (le_refl _) (by omega) (by omega), BitVec.getLsbD_and,
      BitVec.getLsbD_not, BitVec.getLsbD_shiftLeft]
    congr 1
    rw [Bool.eq_iff_iff, decide_eq_true_iff]
    simp only [BitVec.getLsbD_one, Bool.and_eq_true, decide_eq_true_eq, Bool.not_eq_true',
      Bool.and_eq_false_iff, decide_eq_false_iff_not, Bool.not_eq_false', mirror]
    omega
  · rw [Bytes.get_write_of_not_mem (by omega)]
    have hne : j ≠ mirror id := by
      unfold mirror
      omega
    rw [decide_eq_true hne, Bool.and_true]

/-! ## The scan -/

/-- The scan stops at a word that is not full, and at its most significant clear bit. -/
theorem scanWords_some {d : Data} {n w w' tmp : ℕ} (h : scanWords d n w = some (w', tmp)) :
    w ≤ w' ∧ w' < w + n ∧ tmp < 64 ∧ idUsed d (w' * 64 + (63 - tmp)) = false := by
  induction n generalizing w with
  | zero => cases h
  | succ n ih =>
    rw [scanWords] at h
    rcases bitmapFirstEmpty64_spec (word64 d w) with ⟨hfull, _⟩ | ⟨k, hk, heq, hclear, _⟩
    · rw [hfull] at h
      simp only [ne_eq, not_true_eq_false, if_false] at h
      obtain ⟨hle, hlt, hk, hclear⟩ := ih h
      exact ⟨by omega, by omega, hk, hclear⟩
    · rw [heq, if_pos (by omega)] at h
      simp only [Int.toNat_natCast, Option.some.injEq, Prod.mk.injEq] at h
      obtain ⟨rfl, rfl⟩ := h
      refine ⟨le_refl _, by omega, hk, ?_⟩
      rw [idUsed, show (w * 64 + (63 - k)) / 64 = w by omega,
        show 63 - (w * 64 + (63 - k)) % 64 = k by omega]
      exact hclear

/-- The scan fails only over full words. -/
theorem scanWords_none {d : Data} {n w : ℕ} (h : scanWords d n w = none) :
    ∀ w', w ≤ w' → w' < w + n → ~~~(word64 d w') = 0 := by
  induction n generalizing w with
  | zero =>
    intro w' _ _
    omega
  | succ n ih =>
    intro w' hle hlt
    rw [scanWords] at h
    rcases bitmapFirstEmpty64_spec (word64 d w) with ⟨hfull, hzero⟩ | ⟨k, _, heq, _⟩
    · rw [hfull] at h
      simp only [ne_eq, not_true_eq_false, if_false] at h
      by_cases hw : w' = w
      · rwa [hw]
      · exact ih h w' (by omega) (by omega)
    · rw [heq, if_pos (by omega)] at h
      cases h

/-- The numbers of a full word are used. -/
theorem idUsed_of_full {d : Data} {id : ℕ} (h : ~~~(word64 d (id / 64)) = 0) :
    idUsed d id = true := by
  have hbit := congrArg (·.getLsbD (63 - id % 64)) h
  have hlt : 63 - id % 64 < 64 := by omega
  simpa [idUsed, hlt] using hbit

/-- All numbers before the one at which the scan stops are used. -/
theorem scanWords_least {d : Data} {n w w' tmp id : ℕ} (h : scanWords d n w = some (w', tmp))
    (hle : w * 64 ≤ id) (hlt : id < w' * 64 + (63 - tmp)) : idUsed d id = true := by
  induction n generalizing w with
  | zero => cases h
  | succ n ih =>
    rw [scanWords] at h
    rcases bitmapFirstEmpty64_spec (word64 d w) with ⟨hfull, hzero⟩ | ⟨k, hk, heq, _, habove⟩
    · rw [hfull] at h
      simp only [ne_eq, not_true_eq_false, if_false] at h
      by_cases hw : id / 64 = w
      · exact idUsed_of_full (by rwa [hw])
      · exact ih h (by omega)
    · rw [heq, if_pos (by omega)] at h
      simp only [Int.toNat_natCast, Option.some.injEq, Prod.mk.injEq] at h
      obtain ⟨rfl, rfl⟩ := h
      have hw : id / 64 = w := by omega
      rw [idUsed, hw]
      exact habove _ (by omega) (by omega)

/-- All numbers are used when the scan fails. -/
theorem scanWords_none_used {d : Data} {n w id : ℕ} (h : scanWords d n w = none)
    (hle : w * 64 ≤ id) (hlt : id < (w + n) * 64) : idUsed d id = true :=
  idUsed_of_full (scanWords_none h (id / 64) (by omega) (by omega))

end Efs
