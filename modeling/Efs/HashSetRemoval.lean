import Efs.HashSet

/-!
# Removals from the set of paths

After a key is taken out, `__relayout_nodes` moves the keys behind it to the front
one by one, up to the next empty slot or the end of the table. The key that is
removed leaves a hole, and each move carries the hole to the slot of the key that
moved. The walk does not go round the end: keys that went round it when they were
inserted stay, also when the hole ends between their home and the end of the table.
-/

namespace Efs

open Library Probing

namespace PathSet

/-- The home slot of a node in a table of the given size. -/
def home (size : ℕ) (node : SetNode) : ℕ := node.hash % size

/-- Some slot from `start` to the end of the table is passed over by no search for
a key in another slot. -/
def HasGap (size : ℕ) (slots : ℕ → Option SetNode) (start : ℕ) : Prop :=
  ∃ g, start ≤ g ∧ g < size ∧ ∀ p < size, p ≠ start → ∀ k, slots p = some k →
    ¬Crosses (home size k) p g

/-- The walk over the table `slots₀`, from which the slot `start` was emptied, is at
the slot `i` and has carried the hole to `g`; the slot `e` was empty before. -/
structure Shifting (size : ℕ) (slots₀ : ℕ → Option SetNode) (start e i g : ℕ)
    (slots : ℕ → Option SetNode) : Prop where
  /-- The hole is before the walk. -/
  start_le : start ≤ g
  /-- The hole is before the walk. -/
  lt : g < i
  /-- The walk is in the table. -/
  le : i ≤ size
  /-- The walk did not pass an empty slot. -/
  free : start < e → i ≤ e
  /-- The hole is empty. -/
  hole : slots g = none
  /-- Slots before the walk and behind the hole are as they were. -/
  same : ∀ p, p < start ∨ g < p → slots p = slots₀ p
  /-- The keys were only moved. -/
  rearranged : Rearranged size (Function.update slots₀ start none) slots
  /-- The hole is the only empty slot that a search passes over, and only for keys
  that the walk has not met. -/
  only : ∀ p < size, ∀ k, slots p = some k → ∀ s < size, Crosses (home size k) p s →
    slots s = none → s = g ∧ (p < start ∨ i ≤ p)
  /-- Keys that went round the end have their homes behind an empty slot. -/
  wrapped : ∀ p < size, start ≤ p → ∀ k, slots p = some k → p < home size k →
    start < e ∧ p < e ∧ e < home size k
  /-- The hole is not carried over a slot that no search passes over. -/
  least : ∀ g₀, start ≤ g₀ → g₀ < size → (∀ p < size, p ≠ start → ∀ k, slots₀ p = some k →
    ¬Crosses (home size k) p g₀) → g ≤ g₀

/-- The outcome of a walk. -/
structure Shifted (size : ℕ) (slots₀ : ℕ → Option SetNode) (start : ℕ)
    (slots : ℕ → Option SetNode) : Prop where
  /-- The keys were only moved. -/
  rearranged : Rearranged size (Function.update slots₀ start none) slots
  /-- The table is laid out well when the hole settles. -/
  laid : HasGap size slots₀ start → Laid size (home size) slots
  /-- Otherwise a key is not found any more. -/
  lost : ¬HasGap size slots₀ start → ∃ p < size, p ≠ start ∧ ∃ k, slots₀ p = some k ∧
    ∃ q, probe slots size k size (home size k) = .free q

section

variable {size start e i g n index : ℕ} {slots₀ : ℕ → Option SetNode} {set : PathSet}
  {k : SetNode}

/-- The home of a key is a slot. -/
theorem home_lt (hsize : 0 < size) (k : SetNode) : home size k < size := Nat.mod_lt _ hsize

/-- A key that is found where it is stays. -/
theorem relayoutFrom_found {endOnNull : Bool} (hk : set.nodes i = some k)
    (hfound : set.getIndex k = .found i) :
    relayoutFrom start endOnNull (n + 1) i index set =
      relayoutFrom start endOnNull n (i + 1) i set := by
  simp only [relayoutFrom, hk, hfound, ne_eq, not_true_eq_false, if_false]

/-- A key that is looked for in a free slot is moved to it. -/
theorem relayoutFrom_free {endOnNull : Bool} {j : ℕ} (hk : set.nodes i = some k)
    (hfree : set.getIndex k = .free j) (hne : i ≠ j) :
    relayoutFrom start endOnNull (n + 1) i index set =
      relayoutFrom start endOnNull n (i + 1) j { set with nodes := move set.nodes k i j } := by
  simp only [relayoutFrom, hk, hfree, ne_eq, hne, not_false_eq_true, if_true]
  rfl

/-- The walk stops at an empty slot, and the table is laid out well. -/
theorem Shifting.stop {slots : ℕ → Option SetNode}
    (h : Shifting size slots₀ start e i g slots) (hi : i < size) (hnone : slots i = none)
    (hlaid : Laid size (home size) slots₀) : Shifted size slots₀ start slots := by
  have hlt := h.lt
  have hstart := h.start_le
  refine ⟨h.rearranged, fun _ => ⟨h.rearranged.unique, ?_⟩, fun hnot => ?_⟩
  · intro p hp k hk s hs hcross hempty
    obtain ⟨rfl, hside⟩ := h.only p hp k hk s hs hcross hempty
    have hpi : p ≠ i := by
      rintro rfl
      rw [hnone] at hk
      cases hk
    have hcross' : Crosses (home size k) p i := by
      unfold Crosses at *
      split_ifs at * <;> omega
    have hig := (h.only p hp k hk i hi hcross' hnone).1
    omega
  · have hsame : slots₀ i = none := by rw [← h.same i (Or.inr hlt), hnone]
    refine absurd ⟨i, by omega, hi, fun p hp _ k hk hcross => ?_⟩ hnot
    exact hlaid.reached p hp k hk i hi hcross hsame

/-- The walk ends at the end of the table. -/
theorem Shifting.finish {slots : ℕ → Option SetNode}
    (h : Shifting size slots₀ start e size g slots) (hlaid : Laid size (home size) slots₀)
    (he : e < size) (hempty : slots₀ e = none) : Shifted size slots₀ start slots := by
  have hlt := h.lt
  have hstart := h.start_le
  have hfree := h.free
  refine ⟨h.rearranged, fun hgap => ⟨h.rearranged.unique, ?_⟩, fun hnot => ?_⟩
  · obtain ⟨g₀, hle, hg₀, hgap⟩ := hgap
    have hleast := h.least g₀ hle hg₀ hgap
    intro p hp k hk s hs hcross hnone
    obtain ⟨rfl, hside⟩ := h.only p hp k hk s hs hcross hnone
    have hpstart : p < start := by omega
    have hk₀ : slots₀ p = some k := by rw [← h.same p (Or.inl hpstart), hk]
    refine hgap p hp (by omega) k hk₀ ?_
    unfold Crosses at *
    split_ifs at * <;> omega
  · by_contra hfound
    refine hnot ⟨g, hstart, hlt, fun p hp hps k hk hcross => ?_⟩
    have hwrap : start < p → ¬p < home size k := by
      intro hsp hph
      have hnot' := hlaid.reached p hp k hk e he
      have hep : e ≠ p := by
        rintro rfl
        rw [hempty] at hk
        cases hk
      have hcross' : ¬Crosses (home size k) p e := fun hc => hnot' hc hempty
      unfold Crosses at hcross'
      rw [if_neg (by omega)] at hcross'
      omega
    rcases Nat.lt_trichotomy p start with hps' | hps' | hps'
    · refine hfound ⟨p, hp, hps, k, hk, ?_⟩
      have hk' : slots p = some k := by rw [h.same p (Or.inl hps'), hk]
      refine probe_of_hole (home_lt (by omega) k) hlt h.hole fun q hq hkq => ?_
      rwa [h.rearranged.unique q hq p hp k hkq hk']
    · exact hps hps'
    · have hgp : g < p := by
        have hph := hwrap hps'
        unfold Crosses at hcross
        rw [if_pos (by omega)] at hcross
        exact hcross.2
      have hk' : slots p = some k := by rw [h.same p (Or.inr hgp), hk]
      have hside := (h.only p hp k hk' g hlt hcross h.hole).2
      omega

/-- The walk goes on over a key that stays. -/
theorem Shifting.stay {slots : ℕ → Option SetNode}
    (h : Shifting size slots₀ start e i g slots) (hi : i < size) (hk : slots i = some k)
    (hempty : slots₀ e = none) (hstay : ¬Crosses (home size k) i g) :
    Shifting size slots₀ start e (i + 1) g slots := by
  have hlt := h.lt
  refine ⟨h.start_le, by omega, hi, fun hse => ?_, h.hole, h.same, h.rearranged, ?_, h.wrapped,
    h.least⟩
  · have hie := h.free hse
    have hne : i ≠ e := by
      rintro rfl
      rw [h.same i (Or.inr hlt), hempty] at hk
      cases hk
    omega
  · intro p hp k' hk' s hs hcross hnone
    obtain ⟨rfl, hside⟩ := h.only p hp k' hk' s hs hcross hnone
    refine ⟨rfl, hside.imp_right fun hip => ?_⟩
    have hne : i ≠ p := by
      rintro rfl
      rw [hk] at hk'
      cases hk'
      exact hstay hcross
    omega

/-- The walk moves a key into the hole. -/
theorem Shifting.shift {slots : ℕ → Option SetNode}
    (h : Shifting size slots₀ start e i g slots) (hi : i < size) (hk : slots i = some k)
    (hempty : slots₀ e = none) (hcross : Crosses (home size k) i g) :
    Shifting size slots₀ start e (i + 1) i (move slots k i g) := by
  have hlt := h.lt
  have hstart := h.start_le
  have hgi : g ≠ i := by omega
  have hie : start < e → i < e := by
    intro hse
    have hle := h.free hse
    have hne : i ≠ e := by
      rintro rfl
      rw [h.same i (Or.inr hlt), hempty] at hk
      cases hk
    omega
  have hwrap := h.wrapped i hi (by omega) k hk
  have hk₀ : slots₀ i = some k := by rw [← h.same i (Or.inr hlt), hk]
  refine ⟨by omega, by omega, hi, fun hse => hie hse, move_self, ?_, ?_, ?_, ?_, ?_⟩
  · intro p hp
    rw [move_of_ne (by omega) (by omega)]
    exact h.same p (by omega)
  · exact h.rearranged.trans (.of_move h.rearranged.unique hi (by omega) hk h.hole)
  · intro p hp k' hk' s hs hcross' hnone
    have hpi : p ≠ i := by
      rintro rfl
      rw [move_self] at hk'
      cases hk'
    by_cases hsi : s = i
    · subst hsi
      refine ⟨rfl, ?_⟩
      by_contra hside
      by_cases hpg : p = g
      · subst hpg
        rw [move_target hgi] at hk'
        cases hk'
        unfold Crosses at *
        split_ifs at * <;> omega
      · rw [move_of_ne hpi hpg] at hk'
        have hwrap' := h.wrapped p hp (by omega) k' hk'
        unfold Crosses at *
        split_ifs at * <;> omega
    · have hsg : s ≠ g := by
        rintro rfl
        rw [move_target hgi] at hnone
        cases hnone
      rw [move_of_ne hsi hsg] at hnone
      exfalso
      by_cases hpg : p = g
      · subst hpg
        rw [move_target hgi] at hk'
        cases hk'
        have hcross'' : Crosses (home size k) i s := by
          unfold Crosses at *
          split_ifs at * <;> omega
        exact hsg (h.only i hi k hk s hs hcross'' hnone).1
      · rw [move_of_ne hpi hpg] at hk'
        exact hsg (h.only p hp k' hk' s hs hcross' hnone).1
  · intro p hp hsp k' hk' hph
    have hpi : p ≠ i := by
      rintro rfl
      rw [move_self] at hk'
      cases hk'
    by_cases hpg : p = g
    · subst hpg
      rw [move_target hgi] at hk'
      cases hk'
      unfold Crosses at hcross
      split_ifs at hcross <;> omega
    · rw [move_of_ne hpi hpg] at hk'
      exact h.wrapped p hp hsp k' hk' hph
  · intro g₀ hle hg₀ hgap
    have hg := h.least g₀ hle hg₀ hgap
    by_contra hlt'
    refine hgap i hi (by omega) k hk₀ ?_
    unfold Crosses at *
    split_ifs at * <;> omega

/-- The walk from a slot on. -/
theorem Shifting.run (h : Shifting set.numberNodes slots₀ start e i g set.nodes)
    (hsum : n + i = set.numberNodes) (hlaid : Laid set.numberNodes (home set.numberNodes) slots₀)
    (he : e < set.numberNodes) (hempty : slots₀ e = none) :
    ∃ slots, relayoutFrom start false n i index set = { set with nodes := slots } ∧
      Shifted set.numberNodes slots₀ start slots := by
  induction n generalizing i g index set with
  | zero =>
    have hi : i = set.numberNodes := by omega
    rw [hi] at h
    exact ⟨set.nodes, rfl, h.finish hlaid he hempty⟩
  | succ n ih =>
    have hi : i < set.numberNodes := by omega
    have hlt := h.lt
    cases hk : set.nodes i with
    | none =>
      refine ⟨set.nodes, ?_, h.stop hi hk hlaid⟩
      have hne : i ≠ start := by
        have := h.start_le
        omega
      simp only [relayoutFrom, hk, ne_eq, hne, not_false_eq_true, and_self, if_true]
    | some k =>
      have hhome := home_lt (by omega : 0 < set.numberNodes) k
      by_cases hcross : Crosses (home set.numberNodes k) i g
      · have hway : ∀ s < set.numberNodes, Crosses (home set.numberNodes k) g s →
            Other set.nodes k s := by
          intro s hs hcross'
          have hsg : s ≠ g ∧ s ≠ i := by
            unfold Crosses at *
            split_ifs at * <;> omega
          have hcross'' : Crosses (home set.numberNodes k) i s := by
            unfold Crosses at *
            split_ifs at * <;> omega
          refine ⟨fun hnone => hsg.1 (h.only i hi k hk s hs hcross'' hnone).1, fun hks => ?_⟩
          exact hsg.2 (h.rearranged.unique s hs i hi k hks hk)
        have hfree : set.getIndex k = .free g := probe_of_free hhome (by omega) h.hole hway
        rw [relayoutFrom_free hk hfree (by omega)]
        have hmoved : Shifting set.numberNodes slots₀ start e (i + 1) i
            ({ set with nodes := move set.nodes k i g } : PathSet).nodes :=
          h.shift hi hk hempty hcross
        exact ih hmoved (by simp only; omega) hlaid he
      · have hfound : set.getIndex k = .found i := by
          refine probe_of_reached hhome hi hk
            (fun q hq hkq => h.rearranged.unique q hq i hi k hkq hk) fun s hs hcross' hnone => ?_
          obtain ⟨rfl, _⟩ := h.only i hi k hk s hs hcross' hnone
          exact hcross hcross'
        rw [relayoutFrom_found hk hfound]
        exact ih (h.stay hi hk hempty hcross) (by omega) hlaid he

/-- The walk after the slot `start` of a table that is laid out well was emptied. -/
theorem relayoutNodes_shifted (hlaid : Laid set.numberNodes (home set.numberNodes) set.nodes)
    (hstart : start < set.numberNodes) (he : e < set.numberNodes) (hempty : set.nodes e = none) :
    ∃ slots, (set.freeIndex start).relayoutNodes start false = { set with nodes := slots } ∧
      Shifted set.numberNodes set.nodes start slots := by
  have hwrap : ∀ p < set.numberNodes, start ≤ p → p ≠ start → ∀ k, set.nodes p = some k →
      p < home set.numberNodes k → start < e ∧ p < e ∧ e < home set.numberNodes k := by
    intro p hp hsp hps k hk hph
    have hep : e ≠ p := by
      rintro rfl
      rw [hempty] at hk
      cases hk
    have hcross : ¬Crosses (home set.numberNodes k) p e := fun hc =>
      hlaid.reached p hp k hk e he hc hempty
    unfold Crosses at hcross
    rw [if_neg (by omega)] at hcross
    omega
  have hsome : ∀ p k', Function.update set.nodes start none p = some k' →
      p ≠ start ∧ set.nodes p = some k' := by
    intro p k' hk'
    by_cases hps : p = start
    · rw [hps, Function.update_self] at hk'
      cases hk'
    · rw [Function.update_of_ne hps] at hk'
      exact ⟨hps, hk'⟩
  have hshift : Shifting set.numberNodes set.nodes start e (start + 1) start
      (Function.update set.nodes start none) := by
    refine ⟨le_rfl, Nat.lt_succ_self _, hstart, fun h => h, Function.update_self _ _ _, ?_, ?_, ?_,
      ?_, fun _ h _ _ => h⟩
    · intro p hp
      exact Function.update_of_ne (by omega) _ _
    · refine .refl fun p hp q hq k' hkp hkq => ?_
      exact hlaid.unique p hp q hq k' (hsome p k' hkp).2 (hsome q k' hkq).2
    · intro p hp k' hk' s hs hcross hnone
      obtain ⟨hps, hkp⟩ := hsome p k' hk'
      have hss : s = start := by
        by_contra hss
        rw [Function.update_of_ne hss] at hnone
        exact hlaid.reached p hp k' hkp s hs hcross hnone
      exact ⟨hss, by omega⟩
    · intro p hp hsp k' hk' hph
      obtain ⟨hps, hkp⟩ := hsome p k' hk'
      exact hwrap p hp hsp hps k' hkp hph
  obtain ⟨n, hn⟩ : ∃ n, set.numberNodes - start = n + 1 :=
    ⟨set.numberNodes - start - 1, by omega⟩
  have hfirst : (set.freeIndex start).relayoutNodes start false =
      relayoutFrom start false n (start + 1) 0 (set.freeIndex start) := by
    have hnone : (set.freeIndex start).nodes start = none := Function.update_self _ _ _
    have hsize : (set.freeIndex start).numberNodes - start = n + 1 := hn
    simp only [relayoutNodes, hsize, relayoutFrom, hnone, ne_eq, not_true_eq_false, and_false,
      if_false]
  rw [hfirst]
  have hshift' : Shifting (set.freeIndex start).numberNodes set.nodes start e (start + 1) start
    (set.freeIndex start).nodes := hshift
  exact hshift'.run (by change n + (start + 1) = set.numberNodes; omega) hlaid he hempty

end

end PathSet

end Efs
