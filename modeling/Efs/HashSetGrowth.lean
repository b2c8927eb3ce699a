import Efs.HashSetRemoval

/-!
# Growth of the set of paths

When the table is doubled, every key gets a new home, and `__relayout_nodes` walks
once over the whole new table. While the walk is in the old half, the keys it moves
to the new half never leave again; and since fewer keys are in the table than half
of it has slots, the keys at the end of the new half do not depend on the old half.
-/

namespace Efs

open Library Probing

namespace PathSet

/-- The walk over a table with halves of the size `half` is at the slot `i` of the old half. -/
structure InOldHalf (half : ℕ) (slots₀ : ℕ → Option SetNode) (i : ℕ)
    (slots : ℕ → Option SetNode) : Prop where
  /-- The walk is in the old half. -/
  le : i ≤ half
  /-- The keys were only moved. -/
  rearranged : Rearranged (half * 2) slots₀ slots
  /-- The slots that lead to a key behind the walk are occupied. A key that went
  round the end has its home in the new half. -/
  behind : ∀ p < i, ∀ k, slots p = some k →
    home (half * 2) k ≤ p ∧ (∀ s, home (half * 2) k ≤ s → s < p → slots s ≠ none) ∨
    half ≤ home (half * 2) k ∧
      ∀ s < half * 2, home (half * 2) k ≤ s ∨ s < p → slots s ≠ none
  /-- The slots of the new half that lead to a key of the new half are occupied. -/
  ahead : ∀ p < half * 2, half ≤ p → ∀ k, slots p = some k →
    home (half * 2) k ≤ p ∧ ∀ s, home (half * 2) k ≤ s → half ≤ s → s < p → slots s ≠ none

/-- The walk is at the slot `i` of the new half; from the slot `a` on to the end of
the table, every slot holds a key with its home there. -/
structure InNewHalf (half : ℕ) (slots₀ : ℕ → Option SetNode) (a i : ℕ)
    (slots : ℕ → Option SetNode) : Prop where
  /-- The walk is in the new half. -/
  le : i ≤ half * 2
  /-- The keys were only moved. -/
  rearranged : Rearranged (half * 2) slots₀ slots
  /-- The end of the table is full of keys with homes there. -/
  suffix : ∀ p < half * 2, a ≤ p → ∃ k, slots p = some k ∧ a ≤ home (half * 2) k ∧
    home (half * 2) k ≤ p
  /-- The slots that lead to a key behind the walk are occupied. A key that went
  round the end has its home in the full part. -/
  behind : ∀ p < i, ∀ k, slots p = some k →
    home (half * 2) k ≤ p ∧ (∀ s, home (half * 2) k ≤ s → s < p → slots s ≠ none) ∨
    a ≤ home (half * 2) k ∧ ∀ s < p, slots s ≠ none
  /-- No other key went round the end. -/
  ahead : ∀ p < a, i ≤ p → ∀ k, slots p = some k → home (half * 2) k ≤ p

section

variable {half a i n index : ℕ} {slots₀ slots : ℕ → Option SetNode} {k : SetNode}

/-- Neither half of the table is full. -/
theorem exists_free_halves (hrearranged : Rearranged (half * 2) slots₀ slots)
    (hcard : (occupied (half * 2) slots₀).card < half) :
    (∃ s < half, slots s = none) ∧ ∃ s, half ≤ s ∧ s < half * 2 ∧ slots s = none := by
  rw [← hrearranged.card] at hcard
  constructor
  · obtain ⟨s, _, hs, hnone⟩ : ∃ s, 0 ≤ s ∧ s < half ∧ slots s = none :=
      exists_free (by omega : half ≤ half * 2) (by omega)
    exact ⟨s, hs, hnone⟩
  · exact exists_free le_rfl (by omega)

/-- A key of the old half that is found where it is. -/
theorem InOldHalf.stay (h : InOldHalf half slots₀ i slots)
    (hcard : (occupied (half * 2) slots₀).card < half) (hi : i < half) (hk : slots i = some k)
    (hway : ∀ s < half * 2, Crosses (home (half * 2) k) i s → Other slots k s) :
    InOldHalf half slots₀ (i + 1) slots := by
  refine ⟨hi, h.rearranged, fun p hp k' hk' => ?_, h.ahead⟩
  by_cases hpi : p = i
  · subst hpi
    rw [hk] at hk'
    cases hk'
    obtain ⟨_, s, hs, hs', hnone⟩ := exists_free_halves h.rearranged hcard
    unfold Crosses at hway
    by_cases hle : home (half * 2) k ≤ p
    · refine Or.inl ⟨hle, fun s hs hsp => (hway s (by omega) ?_).1⟩
      rw [if_pos hle]
      exact ⟨hs, hsp⟩
    · simp only [hle, if_false] at hway
      refine Or.inr ⟨?_, fun s hs hcase => (hway s hs hcase).1⟩
      by_contra hlt
      exact (hway s hs' (Or.inl (by omega))).1 hnone
  · exact h.behind p (by omega) k' hk'

/-- A key of the old half that is moved. -/
theorem InOldHalf.shift {j : ℕ} (h : InOldHalf half slots₀ i slots)
    (hcard : (occupied (half * 2) slots₀).card < half) (hi : i < half) (hk : slots i = some k)
    (hj : j < half * 2) (hnone : slots j = none)
    (hway : ∀ s < half * 2, Crosses (home (half * 2) k) j s → Other slots k s) :
    InOldHalf half slots₀ (i + 1) (move slots k i j) := by
  have hji : j ≠ i := by
    rintro rfl
    rw [hk] at hnone
    cases hnone
  obtain ⟨⟨s₁, hs₁, hnone₁⟩, s₂, hs₂, hs₂', hnone₂⟩ := exists_free_halves h.rearranged hcard
  have hkeep : ∀ s, s ≠ i → slots s ≠ none → move slots k i j s ≠ none := by
    intro s hsi hs
    by_cases hsj : s = j
    · rw [hsj, move_target hji]
      simp
    · rwa [move_of_ne hsi hsj]
  unfold Crosses at hway
  refine ⟨hi, h.rearranged.trans (.of_move h.rearranged.unique (by omega) hj hk hnone), ?_, ?_⟩
  · intro p hp k' hk'
    have hpi : p ≠ i := by
      rintro rfl
      rw [move_self] at hk'
      cases hk'
    by_cases hpj : p = j
    · subst hpj
      rw [move_target hji] at hk'
      cases hk'
      by_cases hle : home (half * 2) k ≤ p
      · refine Or.inl ⟨hle, fun s hs hsp => hkeep s (by omega) (hway s (by omega) ?_).1⟩
        rw [if_pos hle]
        exact ⟨hs, hsp⟩
      · simp only [hle, if_false] at hway
        have hhome : half ≤ home (half * 2) k := by
          by_contra hlt
          exact (hway s₂ hs₂' (Or.inl (by omega))).1 hnone₂
        exact Or.inr ⟨hhome, fun s hs hcase => hkeep s (by omega) (hway s hs hcase).1⟩
    · rw [move_of_ne hpi hpj] at hk'
      rcases h.behind p (by omega) k' hk' with ⟨hle, hocc⟩ | ⟨hhome, hocc⟩
      · exact Or.inl ⟨hle, fun s hs hsp => hkeep s (by omega) (hocc s hs hsp)⟩
      · exact Or.inr ⟨hhome, fun s hs hcase => hkeep s (by omega) (hocc s hs hcase)⟩
  · intro p hp hhalf k' hk'
    have hpi : p ≠ i := by omega
    by_cases hpj : p = j
    · subst hpj
      rw [move_target hji] at hk'
      cases hk'
      have hle : home (half * 2) k ≤ p := by
        by_contra hlt
        simp only [hlt, if_false] at hway
        exact (hway s₁ (by omega) (Or.inr (by omega))).1 hnone₁
      refine ⟨hle, fun s hs hhs hsp => hkeep s (by omega) (hway s (by omega) ?_).1⟩
      rw [if_pos hle]
      exact ⟨hs, hsp⟩
    · rw [move_of_ne hpi hpj] at hk'
      obtain ⟨hle, hocc⟩ := h.ahead p hp hhalf k' hk'
      exact ⟨hle, fun s hs hhs hsp => hkeep s (by omega) (hocc s hs hhs hsp)⟩

/-- At the end of the old half, the full part at the end of the table is cut off
from the old half by an empty slot. -/
theorem InOldHalf.cross (h : InOldHalf half slots₀ half slots)
    (hcard : (occupied (half * 2) slots₀).card < half) :
    ∃ a, half < a ∧ InNewHalf half slots₀ a half slots := by
  obtain ⟨_, s, hs, hs', hnone⟩ := exists_free_halves h.rearranged hcard
  have hrun : ∀ m, m ≤ half → (∀ p < half * 2, half * 2 - m ≤ p → slots p ≠ none) ∨
      ∃ a, half < a ∧ a ≤ half * 2 ∧ slots (a - 1) = none ∧
        ∀ p < half * 2, a ≤ p → slots p ≠ none := by
    intro m
    induction m with
    | zero => exact fun _ => Or.inl fun p hp hle => by omega
    | succ m ih =>
      intro hm
      rcases ih (by omega) with hall | hfound
      · by_cases hempty : slots (half * 2 - (m + 1)) = none
        · refine Or.inr ⟨half * 2 - m, by omega, by omega, ?_, hall⟩
          rwa [Nat.sub_sub]
        · refine Or.inl fun p hp hle => ?_
          by_cases hpm : p = half * 2 - (m + 1)
          · rwa [hpm]
          · exact hall p hp (by omega)
      · exact Or.inr hfound
  rcases hrun half le_rfl with hall | ⟨a, ha, ha', hempty, hall⟩
  · exact absurd hnone (hall s hs' (by omega))
  · have hhome : ∀ p < half * 2, a ≤ p → ∀ k, slots p = some k → a ≤ home (half * 2) k := by
      intro p hp hle k hk
      by_contra hlt
      exact (h.ahead p hp (by omega) k hk).2 (a - 1) (by omega) (by omega) (by omega) hempty
    refine ⟨a, ha, by omega, h.rearranged, fun p hp hle => ?_, fun p hp k hk => ?_,
      fun p hp hle k hk => (h.ahead p (by omega) hle k hk).1⟩
    · obtain ⟨k, hk⟩ := Option.ne_none_iff_exists'.mp (hall p hp hle)
      exact ⟨k, hk, hhome p hp hle k hk, (h.ahead p hp (by omega) k hk).1⟩
    · rcases h.behind p hp k hk with hleft | ⟨hhalf, hocc⟩
      · exact Or.inl hleft
      · refine Or.inr ⟨?_, fun s hs => hocc s (by omega) (Or.inr hs)⟩
        by_contra hlt
        exact hocc (a - 1) (by omega) (Or.inl (by omega)) hempty

/-- A key of the new half that is found where it is. -/
theorem InNewHalf.stay (h : InNewHalf half slots₀ a i slots) (hi : i < half * 2)
    (hk : slots i = some k)
    (hway : ∀ s < half * 2, Crosses (home (half * 2) k) i s → Other slots k s) :
    InNewHalf half slots₀ a (i + 1) slots := by
  refine ⟨hi, h.rearranged, h.suffix, fun p hp k' hk' => ?_,
    fun p hp hip => h.ahead p hp (by omega)⟩
  by_cases hpi : p = i
  · subst hpi
    rw [hk] at hk'
    cases hk'
    have hle : home (half * 2) k ≤ p := by
      by_cases hpa : p < a
      · exact h.ahead p hpa le_rfl k hk
      · obtain ⟨k', hk', _, hle⟩ := h.suffix p hi (by omega)
        rw [hk] at hk'
        cases hk'
        exact hle
    refine Or.inl ⟨hle, fun s hs hsp => (hway s (by omega) ?_).1⟩
    unfold Crosses
    rw [if_pos hle]
    exact ⟨hs, hsp⟩
  · exact h.behind p (by omega) k' hk'

/-- A key of the new half that is moved. -/
theorem InNewHalf.shift {j : ℕ} (h : InNewHalf half slots₀ a i slots) (hi : i < half * 2)
    (hk : slots i = some k) (hj : j < half * 2) (hnone : slots j = none)
    (hway : ∀ s < half * 2, Crosses (home (half * 2) k) j s → Other slots k s) :
    InNewHalf half slots₀ a (i + 1) (move slots k i j) := by
  have hji : j ≠ i := by
    rintro rfl
    rw [hk] at hnone
    cases hnone
  have hnot : ¬Crosses (home (half * 2) k) j i := fun hc => (hway i hi hc).2 hk
  unfold Crosses at hway hnot
  have hia : i < a := by
    by_contra hle
    obtain ⟨k', hk', hhome, hle'⟩ := h.suffix i hi (by omega)
    rw [hk] at hk'
    cases hk'
    have hjhome : home (half * 2) k ≤ j := by
      split_ifs at hnot <;> omega
    rw [if_pos hjhome] at hnot
    obtain ⟨k'', hk'', _⟩ := h.suffix j hj (by omega)
    rw [hnone] at hk''
    cases hk''
  have hhome := h.ahead i hia le_rfl k hk
  have hle : home (half * 2) k ≤ j := by
    split_ifs at hnot <;> omega
  rw [if_pos hle] at hnot
  have hlt : j < i := by omega
  have hkeep : ∀ s, s ≠ i → slots s ≠ none → move slots k i j s ≠ none := by
    intro s hsi hs
    by_cases hsj : s = j
    · rw [hsj, move_target hji]
      simp
    · rwa [move_of_ne hsi hsj]
  refine ⟨hi, h.rearranged.trans (.of_move h.rearranged.unique hi hj hk hnone), ?_, ?_, ?_⟩
  · intro p hp hap
    obtain ⟨k', hk', hcase⟩ := h.suffix p hp hap
    exact ⟨k', by rw [move_of_ne (by omega) (by omega), hk'], hcase⟩
  · intro p hp k' hk'
    have hpi : p ≠ i := by
      rintro rfl
      rw [move_self] at hk'
      cases hk'
    by_cases hpj : p = j
    · subst hpj
      rw [move_target hji] at hk'
      cases hk'
      refine Or.inl ⟨hle, fun s hs hsp => hkeep s (by omega) (hway s (by omega) ?_).1⟩
      rw [if_pos hle]
      exact ⟨hs, hsp⟩
    · rw [move_of_ne hpi hpj] at hk'
      rcases h.behind p (by omega) k' hk' with ⟨hle, hocc⟩ | ⟨hhome, hocc⟩
      · exact Or.inl ⟨hle, fun s hs hsp => hkeep s (by omega) (hocc s hs hsp)⟩
      · exact Or.inr ⟨hhome, fun s hs => hkeep s (by omega) (hocc s hs)⟩
  · intro p hp hip k' hk'
    rw [move_of_ne (by omega) (by omega)] at hk'
    exact h.ahead p hp (by omega) k' hk'

/-- At the end of the walk the table is laid out well. -/
theorem InNewHalf.laid (h : InNewHalf half slots₀ a (half * 2) slots) :
    Laid (half * 2) (home (half * 2)) slots := by
  refine ⟨h.rearranged.unique, fun p hp k hk s hs hcross hnone => ?_⟩
  unfold Crosses at hcross
  rcases h.behind p hp k hk with ⟨hle, hocc⟩ | ⟨hhome, hocc⟩
  · rw [if_pos hle] at hcross
    exact hocc s hcross.1 hcross.2 hnone
  · by_cases hsp : s < p
    · exact hocc s hsp hnone
    · have hsa : a ≤ s := by
        split_ifs at hcross <;> omega
      obtain ⟨k', hk', _⟩ := h.suffix s hs hsa
      rw [hnone] at hk'
      cases hk'

/-- A step of the walk that keeps or moves a key, or passes an empty slot. -/
theorem relayoutFrom_step {set : PathSet} {size : ℕ} (hsize : set.numberNodes = size)
    (hi : i < size) (hunique : Unique size set.nodes) (n index : ℕ) :
    (set.nodes i = none ∧ relayoutFrom 0 true (n + 1) i index set =
        relayoutFrom 0 true n (i + 1) index set) ∨
    (∃ k, set.nodes i = some k ∧
      (∀ s < size, Crosses (home size k) i s → Other set.nodes k s) ∧
      relayoutFrom 0 true (n + 1) i index set = relayoutFrom 0 true n (i + 1) i set) ∨
    ∃ k j, set.nodes i = some k ∧ j < size ∧ set.nodes j = none ∧
      (∀ s < size, Crosses (home size k) j s → Other set.nodes k s) ∧
      relayoutFrom 0 true (n + 1) i index set =
        relayoutFrom 0 true n (i + 1) j { set with nodes := move set.nodes k i j } := by
  subst hsize
  cases hk : set.nodes i with
  | none =>
    refine Or.inl ⟨rfl, ?_⟩
    simp only [relayoutFrom, hk, Bool.true_eq_false, false_and, if_false]
  | some k =>
    right
    have hcase := searched set.nodes k (home_lt (by omega : 0 < set.numberNodes) k)
    generalize hr : probe set.nodes set.numberNodes k set.numberNodes (home set.numberNodes k) = r
      at hcase
    cases hcase with
    | found p hp hkp hway =>
      obtain rfl := hunique p hp i hi k hkp hk
      exact Or.inl ⟨k, rfl, hway, relayoutFrom_found hk hr⟩
    | free j hj hnone hway =>
      have hne : i ≠ j := by
        rintro rfl
        rw [hk] at hnone
        cases hnone
      exact Or.inr ⟨k, j, rfl, hj, hnone, hway, relayoutFrom_free hk hr hne⟩
    | full hway => exact absurd hk (hway i hi).2

/-- The walk over the new half. -/
theorem InNewHalf.run {set : PathSet} (hsize : set.numberNodes = half * 2)
    (h : InNewHalf half slots₀ a i set.nodes) (hsum : n + i = half * 2) :
    ∃ slots, relayoutFrom 0 true n i index set = { set with nodes := slots } ∧
      Rearranged (half * 2) slots₀ slots ∧ Laid (half * 2) (home (half * 2)) slots := by
  induction n generalizing i index set with
  | zero =>
    obtain rfl : i = half * 2 := by omega
    exact ⟨set.nodes, rfl, h.rearranged, h.laid⟩
  | succ n ih =>
    have hi : i < half * 2 := by omega
    rcases relayoutFrom_step hsize hi h.rearranged.unique n index with
      ⟨hk, heq⟩ | ⟨k, hk, hway, heq⟩ | ⟨k, j, hk, hj, hnone, hway, heq⟩
    · rw [heq]
      refine ih hsize ⟨hi, h.rearranged, h.suffix, fun p hp k' hk' => ?_,
        fun p hp hip => h.ahead p hp (by omega)⟩ (by omega)
      have hpi : p ≠ i := by
        rintro rfl
        rw [hk] at hk'
        cases hk'
      exact h.behind p (by omega) k' hk'
    · rw [heq]
      exact ih hsize (h.stay hi hk hway) (by omega)
    · rw [heq]
      have hmoved : ({ set with nodes := move set.nodes k i j } : PathSet).numberNodes =
        half * 2 := hsize
      exact ih hmoved (h.shift hi hk hj hnone hway) (by omega)

/-- The walk over the old half, and from there on over the new half. -/
theorem InOldHalf.run {set : PathSet} (hsize : set.numberNodes = half * 2)
    (h : InOldHalf half slots₀ i set.nodes) (hcard : (occupied (half * 2) slots₀).card < half)
    (hsum : n + i = half * 2) :
    ∃ slots, relayoutFrom 0 true n i index set = { set with nodes := slots } ∧
      Rearranged (half * 2) slots₀ slots ∧ Laid (half * 2) (home (half * 2)) slots := by
  induction n generalizing i index set with
  | zero =>
    have hle := h.le
    omega
  | succ n ih =>
    rcases h.le.lt_or_eq with hi | rfl
    · rcases relayoutFrom_step hsize (by omega : i < half * 2) h.rearranged.unique n index with
        ⟨hk, heq⟩ | ⟨k, hk, hway, heq⟩ | ⟨k, j, hk, hj, hnone, hway, heq⟩
      · rw [heq]
        refine ih hsize ⟨hi, h.rearranged, fun p hp k' hk' => ?_, h.ahead⟩ (by omega)
        have hpi : p ≠ i := by
          rintro rfl
          rw [hk] at hk'
          cases hk'
        exact h.behind p (by omega) k' hk'
      · rw [heq]
        exact ih hsize (h.stay hcard hi hk hway) (by omega)
      · rw [heq]
        have hmoved : ({ set with nodes := move set.nodes k i j } : PathSet).numberNodes =
          half * 2 := hsize
        exact ih hmoved (h.shift hcard hi hk hj hnone hway) (by omega)
    · obtain ⟨a, _, hnew⟩ := h.cross hcard
      exact hnew.run hsize hsum

end

end PathSet

end Efs
