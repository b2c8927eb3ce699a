import Mathlib.Order.Interval.Finset.Nat
import Mathlib.Logic.Function.Basic
import Mathlib.Tactic.Common

/-!
# Open addressing with linear probing

A table keeps its keys in slots. A search for a key starts at its home slot and
goes on slot by slot, round the end of the table, to the key or to an empty slot.
It finds every key as long as no empty slot lies between a key and its home.
-/

namespace Efs.Library

/-- How a search ends: at the key, at an empty slot, or after a full turn. -/
inductive Probe
  | found (i : ℕ)
  | free (i : ℕ)
  | full
  deriving DecidableEq

namespace Probing

variable {κ : Type} [DecidableEq κ]

/-- The slot after `i`, round the end of the table. -/
def next (size i : ℕ) : ℕ := if i + 1 = size then 0 else i + 1

/-- The search for `k` over at most `n` slots from `i` on. -/
def probe (slots : ℕ → Option κ) (size : ℕ) (k : κ) : ℕ → ℕ → Probe
  | 0, _ => .full
  | n + 1, i =>
    match slots i with
    | none => .free i
    | some k' => if k' = k then .found i else probe slots size k n (next size i)

/-- A search from the slot `h` passes over the slot `g` before it is at `p`. -/
def Crosses (h p g : ℕ) : Prop := if h ≤ p then h ≤ g ∧ g < p else h ≤ g ∨ g < p

/-- The slot holds another key than `k`. -/
def Other (slots : ℕ → Option κ) (k : κ) (g : ℕ) : Prop := slots g ≠ none ∧ slots g ≠ some k

/-- The outcomes of a search for `k` from its home slot `h`. -/
inductive Searched (slots : ℕ → Option κ) (size : ℕ) (k : κ) (h : ℕ) : Probe → Prop
  /-- The key is in a slot, and other keys are in the slots on the way. -/
  | found (p : ℕ) (hp : p < size) (hk : slots p = some k)
      (hway : ∀ g < size, Crosses h p g → Other slots k g) : Searched slots size k h (.found p)
  /-- A slot is empty, and other keys are in the slots on the way. -/
  | free (p : ℕ) (hp : p < size) (hk : slots p = none)
      (hway : ∀ g < size, Crosses h p g → Other slots k g) : Searched slots size k h (.free p)
  /-- Other keys are in all slots. -/
  | full (hway : ∀ g < size, Other slots k g) : Searched slots size k h .full

/-- No key is in two slots. -/
def Unique (size : ℕ) (slots : ℕ → Option κ) : Prop :=
  ∀ p < size, ∀ q < size, ∀ k, slots p = some k → slots q = some k → p = q

/-- The key is in the table. -/
def Holds (size : ℕ) (slots : ℕ → Option κ) (k : κ) : Prop := ∃ p < size, slots p = some k

/-- The occupied slots. -/
def occupied (size : ℕ) (slots : ℕ → Option κ) : Finset ℕ :=
  (Finset.range size).filter fun p => slots p ≠ none

/-- The table `slots'` has the keys of `slots`, each in one slot. -/
structure Rearranged (size : ℕ) (slots slots' : ℕ → Option κ) : Prop where
  /-- No key is in two slots. -/
  unique : Unique size slots'
  /-- The keys are the same. -/
  holds : ∀ k, Holds size slots' k ↔ Holds size slots k
  /-- As many slots are occupied. -/
  card : (occupied size slots').card = (occupied size slots).card

/-- The table with the key in the slot `i` moved to the slot `j`. -/
def move (slots : ℕ → Option κ) (k : κ) (i j : ℕ) : ℕ → Option κ :=
  Function.update (Function.update slots j (some k)) i none

/-- Every key is in one slot, and the slots between its home and it are occupied. -/
structure Laid (size : ℕ) (home : κ → ℕ) (slots : ℕ → Option κ) : Prop where
  /-- No key is in two slots. -/
  unique : Unique size slots
  /-- A search passes over no empty slot on its way to a key. -/
  reached : ∀ p < size, ∀ k, slots p = some k → ∀ g < size, Crosses (home k) p g → slots g ≠ none

section

variable {slots : ℕ → Option κ} {size h p g i n : ℕ} {k : κ} {home : κ → ℕ}

/-- The invariant of a search: the slots passed over so far hold other keys. The
first case is before the search went round the end, the second after it. -/
theorem searched_probe (hh : h < size)
    (hphase : h ≤ i ∧ i < size ∧ n + i = size + h ∧
        (∀ g < size, h ≤ g ∧ g < i → Other slots k g) ∨
      i ≤ h ∧ n + i = h ∧ ∀ g < size, h ≤ g ∨ g < i → Other slots k g) :
    Searched slots size k h (probe slots size k n i) := by
  induction n generalizing i with
  | zero =>
    rcases hphase with ⟨_, hi, hsum, _⟩ | ⟨_, hsum, hway⟩
    · omega
    · exact .full fun g hg => hway g hg (by omega)
  | succ n ih =>
    have hi : i < size := by omega
    have hway : ∀ g < size, Crosses h i g → Other slots k g := by
      intro g hg hcross
      unfold Crosses at hcross
      rcases hphase with ⟨hle, _, _, hway⟩ | ⟨hle, hsum, hway⟩
      · rw [if_pos hle] at hcross
        exact hway g hg hcross
      · rw [if_neg (by omega)] at hcross
        exact hway g hg hcross
    rw [probe]
    cases hslot : slots i with
    | none => exact .free i hi hslot hway
    | some k' =>
      by_cases hkey : k' = k
      · subst hkey
        simpa using Searched.found i hi hslot hway
      · simp only [hkey, if_false]
        have hother : Other slots k i := by simp [Other, hslot, hkey]
        apply ih
        unfold next
        by_cases hend : i + 1 = size
        · rw [if_pos hend]
          right
          rcases hphase with ⟨hle, _, hsum, hway⟩ | ⟨hle, hsum, _⟩
          · refine ⟨by omega, by omega, fun g hg hcase => ?_⟩
            by_cases hgi : g = i
            · exact hgi ▸ hother
            · exact hway g hg (by omega)
          · omega
        · rw [if_neg hend]
          rcases hphase with ⟨hle, _, hsum, hway⟩ | ⟨hle, hsum, hway⟩
          · refine Or.inl ⟨by omega, by omega, by omega, fun g hg hcase => ?_⟩
            by_cases hgi : g = i
            · exact hgi ▸ hother
            · exact hway g hg (by omega)
          · refine Or.inr ⟨by omega, by omega, fun g hg hcase => ?_⟩
            by_cases hgi : g = i
            · exact hgi ▸ hother
            · exact hway g hg (by omega)

/-- A search ends in one of the three ways. -/
theorem searched (slots : ℕ → Option κ) (k : κ) (hh : h < size) :
    Searched slots size k h (probe slots size k size h) := by
  refine searched_probe hh (Or.inl ⟨Nat.le_refl _, hh, rfl, fun g _ hg => ?_⟩)
  omega

/-- Of two slots that differ, a search from `h` passes over one before it is at the other. -/
theorem crosses_or (hne : p ≠ g) : Crosses h p g ∨ Crosses h g p := by
  unfold Crosses
  split_ifs <;> omega

/-- A search finds a key that is in the table with no empty slot on the way. -/
theorem probe_of_reached (hh : h < size) (hp : p < size) (hk : slots p = some k)
    (hunique : ∀ q < size, slots q = some k → q = p)
    (hway : ∀ g < size, Crosses h p g → slots g ≠ none) :
    probe slots size k size h = .found p := by
  have hcase := searched slots k hh
  generalize probe slots size k size h = r at hcase
  cases hcase with
  | found q hq hkq _ => rw [hunique q hq hkq]
  | free q hq hnone hother =>
    have hne : p ≠ q := by
      rintro rfl
      rw [hk] at hnone
      cases hnone
    rcases crosses_or hne with hcross | hcross
    · exact absurd hnone (hway q hq hcross)
    · exact absurd hk (hother p hp hcross).2
  | full hother => exact absurd hk (hother p hp).2

/-- A search ends at the first empty slot when the key is not before it. -/
theorem probe_of_free (hh : h < size) (hg : g < size) (hnone : slots g = none)
    (hway : ∀ s < size, Crosses h g s → Other slots k s) :
    probe slots size k size h = .free g := by
  have hcase := searched slots k hh
  generalize probe slots size k size h = r at hcase
  cases hcase with
  | found q hq hkq hother =>
    have hne : q ≠ g := by
      rintro rfl
      rw [hnone] at hkq
      cases hkq
    rcases crosses_or hne with hcross | hcross
    · exact absurd hnone (hother g hg hcross).1
    · exact absurd hkq (hway q hq hcross).2
  | free q hq hnone' hother =>
    by_cases hne : q = g
    · rw [hne]
    · rcases crosses_or hne with hcross | hcross
      · exact absurd hnone (hother g hg hcross).1
      · exact absurd hnone' (hway q hq hcross).1
  | full hother => exact absurd hnone (hother g hg).1

/-- A key behind an empty slot is not found. -/
theorem probe_of_hole (hh : h < size) (hg : g < size) (hnone : slots g = none)
    (hbehind : ∀ q < size, slots q = some k → Crosses h q g) :
    ∃ q, probe slots size k size h = .free q := by
  have hcase := searched slots k hh
  generalize probe slots size k size h = r at hcase
  cases hcase with
  | found q hq hkq hother => exact absurd hnone (hother g hg (hbehind q hq hkq)).1
  | free q => exact ⟨q, rfl⟩
  | full hother => exact absurd hnone (hother g hg).1

/-- In a table that is laid out well, a search finds exactly the keys of the table. -/
theorem Laid.found_iff (hlaid : Laid size home slots) (hhome : home k < size) :
    probe slots size k size (home k) = .found p ↔ p < size ∧ slots p = some k := by
  constructor
  · intro hprobe
    have hcase := searched slots k hhome
    rw [hprobe] at hcase
    cases hcase with
    | found _ hp hk _ => exact ⟨hp, hk⟩
  · rintro ⟨hp, hk⟩
    exact probe_of_reached hhome hp hk (fun q hq hkq => hlaid.unique q hq p hp k hkq hk)
      (hlaid.reached p hp k hk)

/-- A key put into the empty slot at which its search ended. -/
theorem Laid.put (hlaid : Laid size home slots) (hhome : home k < size)
    (hprobe : probe slots size k size (home k) = .free p) :
    p < size ∧ slots p = none ∧ Laid size home (Function.update slots p (some k)) := by
  have hcase := searched slots k hhome
  rw [hprobe] at hcase
  cases hcase with
  | free _ hp hnone hway =>
    have habsent : ∀ q < size, slots q ≠ some k := by
      intro q hq hkq
      have hfound := (hlaid.found_iff hhome).mpr ⟨hq, hkq⟩
      rw [hprobe] at hfound
      cases hfound
    refine ⟨hp, hnone, ⟨?_, ?_⟩⟩
    · intro q hq q' hq' k' hkq hkq'
      by_cases hqp : q = p
      · subst hqp
        by_cases hqp' : q' = q
        · exact hqp'.symm
        · rw [Function.update_self] at hkq
          rw [Function.update_of_ne hqp'] at hkq'
          cases hkq
          exact absurd hkq' (habsent q' hq')
      · rw [Function.update_of_ne hqp] at hkq
        by_cases hqp' : q' = p
        · subst hqp'
          rw [Function.update_self] at hkq'
          cases hkq'
          exact absurd hkq (habsent q hq)
        · rw [Function.update_of_ne hqp'] at hkq'
          exact hlaid.unique q hq q' hq' k' hkq hkq'
    · intro q hq k' hkq g hg hcross
      by_cases hgp : g = p
      · rw [hgp, Function.update_self]
        simp
      · rw [Function.update_of_ne hgp]
        by_cases hqp : q = p
        · subst hqp
          rw [Function.update_self] at hkq
          cases hkq
          exact (hway g hg hcross).1
        · rw [Function.update_of_ne hqp] at hkq
          exact hlaid.reached q hq k' hkq g hg hcross

end

/-! ## Moves -/

section

variable {slots slots' : ℕ → Option κ} {size p i j : ℕ} {k : κ}

omit [DecidableEq κ]

/-- The occupied slots. -/
@[simp] theorem mem_occupied : p ∈ occupied size slots ↔ p < size ∧ slots p ≠ none := by
  simp [occupied]

/-- Slots that stay are rearranged. -/
theorem Rearranged.refl (hunique : Unique size slots) : Rearranged size slots slots :=
  ⟨hunique, fun _ => Iff.rfl, rfl⟩

/-- Two rearrangements are one. -/
theorem Rearranged.trans {slots'' : ℕ → Option κ} (h₁ : Rearranged size slots slots')
    (h₂ : Rearranged size slots' slots'') : Rearranged size slots slots'' :=
  ⟨h₂.unique, fun k => (h₂.holds k).trans (h₁.holds k), h₂.card.trans h₁.card⟩

/-- A key that is moved leaves its slot. -/
@[simp] theorem move_self : move slots k i j i = none := Function.update_self _ _ _

/-- A key that is moved is in its new slot. -/
theorem move_target (hne : j ≠ i) : move slots k i j j = some k := by
  rw [move, Function.update_of_ne hne, Function.update_self]

/-- The other slots stay. -/
theorem move_of_ne (hi : p ≠ i) (hj : p ≠ j) : move slots k i j p = slots p := by
  rw [move, Function.update_of_ne hi, Function.update_of_ne hj]

/-- A move of a key to an empty slot rearranges the table. -/
theorem Rearranged.of_move (hunique : Unique size slots) (hi : i < size) (hj : j < size)
    (hk : slots i = some k) (hnone : slots j = none) :
    Rearranged size slots (move slots k i j) := by
  have hne : j ≠ i := by
    rintro rfl
    rw [hk] at hnone
    cases hnone
  have hsome : ∀ p k', move slots k i j p = some k' →
      p = j ∧ k' = k ∨ p ≠ i ∧ p ≠ j ∧ slots p = some k' := by
    intro p k' hp
    by_cases hpi : p = i
    · rw [hpi, move_self] at hp
      cases hp
    · by_cases hpj : p = j
      · rw [hpj, move_target hne] at hp
        cases hp
        exact Or.inl ⟨hpj, rfl⟩
      · rw [move_of_ne hpi hpj] at hp
        exact Or.inr ⟨hpi, hpj, hp⟩
  refine ⟨?_, fun k' => ⟨?_, ?_⟩, ?_⟩
  · intro p hp q hq k' hkp hkq
    rcases hsome p k' hkp with ⟨hpj, hk'⟩ | ⟨hpi, _, hsp⟩
    · rcases hsome q k' hkq with ⟨hqj, _⟩ | ⟨hqi, _, hsq⟩
      · rw [hpj, hqj]
      · exact absurd (hunique q hq i hi k (hk' ▸ hsq) hk) hqi
    · rcases hsome q k' hkq with ⟨_, hk'⟩ | ⟨_, _, hsq⟩
      · exact absurd (hunique p hp i hi k (hk' ▸ hsp) hk) hpi
      · exact hunique p hp q hq k' hsp hsq
  · rintro ⟨p, hp, hkp⟩
    rcases hsome p k' hkp with ⟨_, rfl⟩ | ⟨_, _, hkp⟩
    · exact ⟨i, hi, hk⟩
    · exact ⟨p, hp, hkp⟩
  · rintro ⟨p, hp, hkp⟩
    by_cases hpi : p = i
    · rw [hpi, hk] at hkp
      cases hkp
      exact ⟨j, hj, move_target hne⟩
    · refine ⟨p, hp, ?_⟩
      rw [move_of_ne hpi fun hpj => ?_, hkp]
      rw [hpj, hnone] at hkp
      cases hkp
  · have hset : occupied size (move slots k i j) = insert j ((occupied size slots).erase i) := by
      ext p
      rw [mem_occupied, Finset.mem_insert, Finset.mem_erase, mem_occupied]
      by_cases hpi : p = i
      · simp [hpi, hne.symm]
      · by_cases hpj : p = j
        · simp [hpj, hj, move_target hne]
        · simp [hpi, hpj, move_of_ne hpi hpj]
    have hmem : i ∈ occupied size slots := mem_occupied.mpr ⟨hi, by simp [hk]⟩
    have hnew : j ∉ (occupied size slots).erase i := by simp [hnone]
    rw [hset, Finset.card_insert_of_notMem hnew, Finset.card_erase_of_mem hmem]
    have hpos := Finset.card_pos.mpr ⟨i, hmem⟩
    omega

/-- A table with fewer keys than a stretch of it has slots is not full there. -/
theorem exists_free {a b : ℕ} (hb : b ≤ size) (hcard : (occupied size slots).card < b - a) :
    ∃ s, a ≤ s ∧ s < b ∧ slots s = none := by
  by_contra hall
  have hsub : Finset.Ico a b ⊆ occupied size slots := by
    intro s hs
    obtain ⟨hle, hlt⟩ := Finset.mem_Ico.mp hs
    exact mem_occupied.mpr ⟨by omega, fun hnone => hall ⟨s, hle, hlt, hnone⟩⟩
  have hcount := Finset.card_le_card hsub
  rw [Nat.card_Ico] at hcount
  omega

end

end Probing

end Efs.Library
