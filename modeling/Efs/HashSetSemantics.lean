import Efs.HashSetGrowth
import Mathlib.Tactic.Ring

/-!
# The set of paths as a set

While the table is laid out well, `set_contains` tells the paths of a set, and
`set_add` adds one. `set_remove` removes one when the hole that it leaves settles,
and otherwise loses another path as well.
-/

namespace Efs

open Library Probing

/-- The conversion to `float` is off by an eighth at most. -/
theorem toFloat_bounds (n : ℕ) : 7 * n ≤ 8 * toFloat n ∧ 8 * toFloat n ≤ 9 * n := by
  have hsplit := Nat.div_add_mod n (2 ^ (n.log2 - 23))
  have hr := Nat.mod_lt n (Nat.two_pow_pos (n.log2 - 23))
  rcases Nat.eq_zero_or_pos (n.log2 - 23) with he | he
  · have hn : toFloat n = n := by simp [toFloat, he, Nat.mod_one]
    omega
  · have hn : n ≠ 0 := by
      rintro rfl
      simp at he
    have hpow : 2 ^ (n.log2 - 23) * 8 ≤ n := by
      calc 2 ^ (n.log2 - 23) * 8 = 2 ^ (n.log2 - 23 + 3) := (pow_add 2 _ 3).symm
        _ ≤ 2 ^ n.log2 := Nat.pow_le_pow_right (by decide) (by omega)
        _ ≤ n := Nat.log2_self_le hn
    have hcase : toFloat n = n / 2 ^ (n.log2 - 23) * 2 ^ (n.log2 - 23) ∨
        toFloat n = (n / 2 ^ (n.log2 - 23) + 1) * 2 ^ (n.log2 - 23) := by
      simp only [toFloat]
      split_ifs
      · exact Or.inr rfl
      · exact Or.inl rfl
    rw [add_mul, one_mul] at hcase
    rw [mul_comm] at hsplit
    omega

namespace PathSet

/-- A set as the functions on it are to find it. -/
structure Good (set : PathSet) : Prop where
  /-- The table is laid out well. -/
  laid : Laid set.numberNodes (home set.numberNodes) set.nodes
  /-- The nodes were made for their keys. -/
  hashes : ∀ p < set.numberNodes, ∀ k, set.nodes p = some k → k = setNode k.key
  /-- The nodes are counted. -/
  count : (occupied set.numberNodes set.nodes).card = set.usedNodes
  /-- The table is large. -/
  large : 1024 ≤ set.numberNodes
  /-- At most half of it is used. -/
  room : 2 * set.usedNodes < set.numberNodes

/-- The paths of a set. -/
def keys (set : PathSet) : Set CStr := {key | Holds set.numberNodes set.nodes (setNode key)}

/-- The hole that the removal of the path leaves settles. -/
def RemovesWell (set : PathSet) (key : CStr) : Prop :=
  ∀ i, set.getIndex (setNode key) = .found i → HasGap set.numberNodes set.nodes i

section

variable {set : PathSet} {key : CStr}

/-- Different keys have different nodes. -/
theorem setNode_injective {key key' : CStr} (h : setNode key = setNode key') : key = key' :=
  congrArg SetNode.key h

/-- A good set has slots. -/
theorem Good.pos (h : set.Good) : 0 < set.numberNodes := by
  have := h.large
  omega

/-- The home of a key of a good set is a slot. -/
theorem Good.home_lt (h : set.Good) (k : SetNode) : home set.numberNodes k < set.numberNodes :=
  PathSet.home_lt h.pos k

/-- A search finds a path of the set. -/
theorem Good.found (h : set.Good) (hkey : key ∈ set.keys) :
    ∃ i < set.numberNodes, set.nodes i = some (setNode key) ∧
      set.getIndex (setNode key) = .found i := by
  obtain ⟨i, hi, hk⟩ := hkey
  exact ⟨i, hi, hk, (h.laid.found_iff (h.home_lt _)).mpr ⟨hi, hk⟩⟩

/-- Some slot is empty. -/
theorem Good.exists_free (h : set.Good) : ∃ e < set.numberNodes, set.nodes e = none := by
  have hcard := h.count
  have hroom := h.room
  have hlt : (occupied set.numberNodes set.nodes).card < set.numberNodes - 0 := by
    rw [hcard]
    omega
  obtain ⟨e, _, he, hempty⟩ := Probing.exists_free le_rfl hlt
  exact ⟨e, he, hempty⟩

/-- A search for another path ends at an empty slot. -/
theorem Good.free (h : set.Good) (hkey : key ∉ set.keys) :
    ∃ i < set.numberNodes, set.getIndex (setNode key) = .free i := by
  have hcase := searched set.nodes (setNode key) (h.home_lt (setNode key))
  have hget : set.getIndex (setNode key) = probe set.nodes set.numberNodes (setNode key)
    set.numberNodes (home set.numberNodes (setNode key)) := rfl
  rw [hget]
  generalize probe set.nodes set.numberNodes (setNode key) set.numberNodes
    (home set.numberNodes (setNode key)) = r at hcase ⊢
  cases hcase with
  | found p hp hk _ => exact absurd ⟨p, hp, hk⟩ hkey
  | free p hp _ _ => exact ⟨p, hp, rfl⟩
  | full hway =>
    obtain ⟨s, hs, hnone⟩ := h.exists_free
    exact absurd hnone (hway s hs).1

/-- `set_contains` tells the paths of the set. -/
theorem Good.contains_iff (h : set.Good) : set.contains key = .isTrue ↔ key ∈ set.keys := by
  by_cases hkey : key ∈ set.keys
  · obtain ⟨i, _, _, hfound⟩ := h.found hkey
    simp [contains, hfound, hkey]
  · obtain ⟨i, _, hfree⟩ := h.free hkey
    simp [contains, hfree, hkey]

/-- A new set is good. -/
theorem init_good : init.Good := by
  refine ⟨⟨?_, ?_⟩, ?_, ?_, le_rfl, by decide⟩
  · intro p _ q _ k hk
    cases hk
  · intro p _ k hk
    cases hk
  · intro p _ k hk
    cases hk
  · simp [occupied, init]

/-- A new set has no keys. -/
theorem keys_init : init.keys = ∅ := by
  ext key
  simp [keys, Holds, init]

/-- What a rearrangement keeps of a set. -/
theorem hashes_of_rearranged {size : ℕ} {slots slots' : ℕ → Option SetNode}
    (hrearranged : Rearranged size slots slots')
    (hhashes : ∀ p < size, ∀ k, slots p = some k → k = setNode k.key) :
    ∀ p < size, ∀ k, slots' p = some k → k = setNode k.key := by
  intro p hp k hk
  obtain ⟨q, hq, hkq⟩ := (hrearranged.holds k).mp ⟨p, hp, hk⟩
  exact hhashes q hq k hkq

/-- The table is doubled with the same paths. -/
theorem Good.grow (h : set.Good) : ∃ slots,
    set.grow = ⟨slots, set.numberNodes * 2, set.usedNodes⟩ ∧
      Laid (set.numberNodes * 2) (home (set.numberNodes * 2)) slots ∧
      (∀ p < set.numberNodes * 2, ∀ k, slots p = some k → k = setNode k.key) ∧
      (occupied (set.numberNodes * 2) slots).card = set.usedNodes ∧
      ∀ k, Holds (set.numberNodes * 2) slots k ↔ Holds set.numberNodes set.nodes k := by
  let slots₀ : ℕ → Option SetNode := fun i => if i < set.numberNodes then set.nodes i else none
  have hsome : ∀ p k, slots₀ p = some k → p < set.numberNodes ∧ set.nodes p = some k := by
    intro p k hk
    by_cases hp : p < set.numberNodes
    · exact ⟨hp, by rwa [← show slots₀ p = set.nodes p from if_pos hp]⟩
    · rw [show slots₀ p = none from if_neg hp] at hk
      cases hk
  have hunique : Unique (set.numberNodes * 2) slots₀ := by
    intro p _ q _ k hkp hkq
    obtain ⟨hp, hkp⟩ := hsome p k hkp
    obtain ⟨hq, hkq⟩ := hsome q k hkq
    exact h.laid.unique p hp q hq k hkp hkq
  have hcard : occupied (set.numberNodes * 2) slots₀ = occupied set.numberNodes set.nodes := by
    ext p
    simp only [mem_occupied, slots₀]
    split_ifs with hp
    · simp only [hp, true_and, and_iff_right_iff_imp]
      omega
    · simp [hp]
  have hholds : ∀ k, Holds (set.numberNodes * 2) slots₀ k ↔ Holds set.numberNodes set.nodes k := by
    intro k
    constructor
    · rintro ⟨p, _, hk⟩
      exact ⟨p, hsome p k hk⟩
    · rintro ⟨p, hp, hk⟩
      exact ⟨p, by omega, by rw [show slots₀ p = set.nodes p from if_pos hp, hk]⟩
  have hroom := h.room
  have hcount := h.count
  have hold : InOldHalf set.numberNodes slots₀ 0 slots₀ := by
    refine ⟨Nat.zero_le _, .refl hunique, fun p hp => absurd hp (Nat.not_lt_zero _), ?_⟩
    intro p _ hle k hk
    have := (hsome p k hk).1
    omega
  have hdoubled : (⟨slots₀, set.numberNodes * 2, set.usedNodes⟩ : PathSet).numberNodes =
    set.numberNodes * 2 := rfl
  obtain ⟨slots, hrun, hrearranged, hlaid⟩ :=
    hold.run hdoubled (by rw [hcard]; omega) (Nat.add_zero _)
  refine ⟨slots, hrun, hlaid, hashes_of_rearranged hrearranged ?_, ?_, fun k => ?_⟩
  · intro p _ k hk
    obtain ⟨hp, hk⟩ := hsome p k hk
    exact h.hashes p hp k hk
  · rw [hrearranged.card, hcard, hcount]
  · rw [hrearranged.holds, hholds]

/-- A new path is put into a table that has room for it. -/
theorem Good.put (h : set.Good) (hkey : key ∉ set.keys)
    (hroom : 2 * (set.usedNodes + 1) < set.numberNodes) :
    ∃ i, set.getIndex (setNode key) = .free i ∧
      (⟨Function.update set.nodes i (some (setNode key)), set.numberNodes, set.usedNodes + 1⟩ :
        PathSet).Good ∧
      (⟨Function.update set.nodes i (some (setNode key)), set.numberNodes, set.usedNodes + 1⟩ :
        PathSet).keys = insert key set.keys := by
  obtain ⟨i, hi, hfree⟩ := h.free hkey
  obtain ⟨_, hnone, hlaid⟩ := h.laid.put (h.home_lt (setNode key)) hfree
  refine ⟨i, hfree, ⟨hlaid, ?_, ?_, h.large, hroom⟩, ?_⟩
  · intro p hp k hk
    by_cases hpi : p = i
    · simp only [hpi, Function.update_self, Option.some.injEq] at hk
      rw [← hk]
      rfl
    · simp only [Function.update_of_ne hpi] at hk
      exact h.hashes p hp k hk
  · have hset : occupied set.numberNodes (Function.update set.nodes i (some (setNode key))) =
        insert i (occupied set.numberNodes set.nodes) := by
      ext p
      by_cases hpi : p = i
      · simp [hpi, hi]
      · simp [hpi]
    have hnew : i ∉ occupied set.numberNodes set.nodes := by simp [hnone]
    rw [hset, Finset.card_insert_of_notMem hnew, h.count]
  · ext key'
    simp only [keys, Holds, Set.mem_insert_iff, Set.mem_ofPred_eq]
    constructor
    · rintro ⟨p, hp, hk⟩
      by_cases hpi : p = i
      · rw [hpi, Function.update_self] at hk
        exact Or.inl (setNode_injective (Option.some.inj hk)).symm
      · rw [Function.update_of_ne hpi] at hk
        exact Or.inr ⟨p, hp, hk⟩
    · rintro (rfl | ⟨p, hp, hk⟩)
      · exact ⟨i, hi, Function.update_self _ _ _⟩
      · have hpi : p ≠ i := by
          rintro rfl
          rw [hnone] at hk
          cases hk
        exact ⟨p, hp, by rw [Function.update_of_ne hpi, hk]⟩

/-- `set_add` of a new path. -/
theorem Good.add (h : set.Good) (hkey : key ∉ set.keys) :
    ∃ set', set.add key = (.isTrue, set') ∧ set'.Good ∧ set'.keys = insert key set.keys := by
  have hlarge := h.large
  have hroom := h.room
  have hnot : set.contains key ≠ .isTrue := fun hc => hkey (h.contains_iff.mp hc)
  have hused := toFloat_bounds set.usedNodes
  have hnumber := toFloat_bounds set.numberNodes
  by_cases hfull : toFloat set.numberNodes < 4 * toFloat set.usedNodes
  · obtain ⟨slots, hgrow, hlaid, hhashes, hcard, hholds⟩ := h.grow
    have hgood : (⟨slots, set.numberNodes * 2, set.usedNodes⟩ : PathSet).Good :=
      ⟨hlaid, hhashes, hcard, by simp only; omega, by simp only; omega⟩
    have hkeys : (⟨slots, set.numberNodes * 2, set.usedNodes⟩ : PathSet).keys = set.keys := by
      ext key'
      exact hholds (setNode key')
    obtain ⟨i, hfree, hgood', hkeys'⟩ := hgood.put (hkeys ▸ hkey) (by simp only; omega)
    refine ⟨_, ?_, hgood', hkeys' ▸ hkeys ▸ rfl⟩
    simp only [PathSet.add, hnot, if_false, hfull, if_true, hgrow, hfree]
    rfl
  · obtain ⟨i, hfree, hgood', hkeys'⟩ := h.put hkey (by omega)
    refine ⟨_, ?_, hgood', hkeys'⟩
    simp only [PathSet.add, hnot, if_false, hfull, hfree]
    rfl

/-- `set_remove` of a path of the set. -/
theorem Good.remove (h : set.Good) (hkey : key ∈ set.keys) :
    ∃ set', set.remove key = (.isTrue, set') ∧
      (set.RemovesWell key → set'.Good ∧ set'.keys = set.keys \ {key}) ∧
      (¬set.RemovesWell key →
        ∃ key' ∈ set.keys, key' ≠ key ∧ set'.contains key' ≠ .isTrue) := by
  obtain ⟨i, hi, hk, hfound⟩ := h.found hkey
  have hcard := h.count
  have hroom := h.room
  obtain ⟨e, he, hempty⟩ := h.exists_free
  obtain ⟨slots, hrelayout, hshifted⟩ := relayoutNodes_shifted h.laid hi he hempty
  have hwell : set.RemovesWell key ↔ HasGap set.numberNodes set.nodes i := by
    unfold RemovesWell
    rw [hfound]
    simp
  have hother : ∀ p, p ≠ i → Function.update set.nodes i none p = set.nodes p := fun p hp =>
    Function.update_of_ne hp _ _
  refine ⟨⟨slots, set.numberNodes, set.usedNodes - 1⟩, ?_,
    fun hgap => ⟨⟨?_, ?_, ?_, h.large, ?_⟩, ?_⟩, fun hnot => ?_⟩
  · simp only [PathSet.remove, hfound, hrelayout]
  · exact hshifted.laid (hwell.mp hgap)
  · refine hashes_of_rearranged hshifted.rearranged fun p hp k hkp => ?_
    by_cases hpi : p = i
    · rw [hpi, Function.update_self] at hkp
      cases hkp
    · exact h.hashes p hp k (by rwa [← hother p hpi])
  · have hset : occupied set.numberNodes (Function.update set.nodes i none) =
        (occupied set.numberNodes set.nodes).erase i := by
      ext p
      by_cases hpi : p = i
      · simp [hpi]
      · simp [hpi]
    have hmem : i ∈ occupied set.numberNodes set.nodes := mem_occupied.mpr ⟨hi, by simp [hk]⟩
    simp only [hshifted.rearranged.card, hset, Finset.card_erase_of_mem hmem, hcard]
  · simp only
    omega
  · ext key'
    have hiff := hshifted.rearranged.holds (setNode key')
    simp only [keys, Set.mem_sdiff, Set.mem_ofPred_eq, Set.mem_singleton_iff]
    rw [hiff]
    constructor
    · rintro ⟨p, hp, hkp⟩
      have hpi : p ≠ i := by
        rintro rfl
        rw [Function.update_self] at hkp
        cases hkp
      rw [hother p hpi] at hkp
      refine ⟨⟨p, hp, hkp⟩, ?_⟩
      rintro rfl
      exact hpi (h.laid.unique p hp i hi _ hkp hk)
    · rintro ⟨⟨p, hp, hkp⟩, hne⟩
      refine ⟨p, hp, ?_⟩
      rw [hother p, hkp]
      rintro rfl
      rw [hk] at hkp
      exact hne (setNode_injective (Option.some.inj hkp)).symm
  · obtain ⟨p, hp, hpi, k, hkp, q, hprobe⟩ := hshifted.lost fun hgap => hnot (hwell.mpr hgap)
    have hnode := h.hashes p hp k hkp
    refine ⟨k.key, ⟨p, hp, by rw [← hnode, hkp]⟩, ?_, ?_⟩
    · rintro rfl
      rw [← hnode] at hk
      exact hpi (h.laid.unique p hp i hi _ hkp hk)
    · have hget : (⟨slots, set.numberNodes, set.usedNodes - 1⟩ : PathSet).getIndex
          (setNode k.key) = .free q := by
        rw [← hnode]
        exact hprobe
      simp only [PathSet.contains, hget, ne_eq, reduceCtorEq, not_false_eq_true]

/-- The removal of the only path of a set leaves it well. -/
theorem RemovesWell.of_alone (h : ∀ i, set.getIndex (setNode key) = .found i →
    i < set.numberNodes ∧ ∀ p < set.numberNodes, p ≠ i → set.nodes p = none) :
      set.RemovesWell key := by
  intro i hfound
  obtain ⟨hlt, hnone⟩ := h i hfound
  refine ⟨i, le_rfl, hlt, fun p hp hne k hk => ?_⟩
  rw [hnone p hp hne] at hk
  cases hk

end

end PathSet

end Efs
