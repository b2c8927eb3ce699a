import Mathlib.Data.List.Infix
import Mathlib.Tactic.Common

/-!
# Trees of blocks linked by slots

A forest has root slots, and each block in it has slots of its own down to a
height that the root slot fixes. A slot may point at a block. The place of a block
is its root slot and the slots taken from there. This file says what a change of
one slot does to the places of all blocks.
-/

namespace Efs.Library

/-- What is fixed about a forest: which block a slot points at, zero for none,
the levels of blocks with slots under each root slot, and their slots. -/
structure Shape (ρ α : Type) where
  /-- The block that a slot points at. -/
  target : α → ℕ
  /-- The levels of blocks with slots under a root slot. -/
  height : ρ → ℕ
  /-- The slots of a block. -/
  width : ℕ

/-- The contents of the slots of a forest. -/
structure Forest (ρ α : Type) where
  /-- The root slots there are. -/
  isRoot : ρ → Prop
  /-- The content of a root slot. -/
  root : ρ → α
  /-- The content of a slot of a block under a root slot. -/
  entry : ρ → ℕ → ℕ → α

/-- A place: a root slot and the slots taken from there, the last one first. -/
abbrev Place (ρ : Type) := ρ × List ℕ

namespace Forest

variable {ρ α : Type} (S : Shape ρ α) (F : Forest ρ α)

/-- The content of the slot at a place. -/
def slot (r : ρ) : List ℕ → α
  | [] => F.root r
  | k :: ks => F.entry r (S.target (slot r ks)) k

/-- The block at a place. -/
def block (r : ρ) (ks : List ℕ) : ℕ := S.target (F.slot S r ks)

/-- There is a block at the place. -/
def Live (r : ρ) : List ℕ → Prop
  | [] => F.isRoot r ∧ F.block S r [] ≠ 0
  | k :: ks => Live r ks ∧ ks.length < S.height r ∧ k < S.width ∧ F.block S r (k :: ks) ≠ 0

/-- No block is at two places. -/
def Disjoint : Prop :=
  ∀ r ks r' ks', F.Live S r ks → F.Live S r' ks' → F.block S r ks = F.block S r' ks' →
    (r, ks) = (r', ks')

/-- The slot at the place is there, whether or not it points at a block. -/
def HasSlot (r : ρ) : List ℕ → Prop
  | [] => F.isRoot r
  | k :: ks => F.Live S r ks ∧ ks.length < S.height r ∧ k < S.width

/-- Two forests agree on every slot but the one at the place `p`. -/
structure AgreeOff (F' : Forest ρ α) (p : Place ρ) : Prop where
  /-- They have the same root slots. -/
  isRoot : ∀ r, F'.isRoot r ↔ F.isRoot r
  /-- They agree on the other root slots. -/
  root : ∀ r, F.isRoot r → (r, []) ≠ p → F'.root r = F.root r
  /-- They agree on the other slots of the blocks that have slots. -/
  entry : ∀ r ks k, F.Live S r ks → ks.length < S.height r → (r, k :: ks) ≠ p →
    F'.entry r (F.block S r ks) k = F.entry r (F.block S r ks) k

/-- Two forests agree on a root slot and on the slots of the blocks under it. -/
structure AgreeAt (F' : Forest ρ α) (r : ρ) : Prop where
  /-- Both have the root slot, or none has. -/
  isRoot : F'.isRoot r ↔ F.isRoot r
  /-- They agree on the root slot. -/
  root : F.isRoot r → F'.root r = F.root r
  /-- They agree on the slots of the blocks that have slots. -/
  entry : ∀ ks k, F.Live S r ks → ks.length < S.height r →
    F'.entry r (F.block S r ks) k = F.entry r (F.block S r ks) k

section

variable {S F} {F' : Forest ρ α} {r : ρ} {ks ks' : List ℕ}

/-- A block in a tree is below a root. -/
theorem Live.isRoot (h : F.Live S r ks) : F.isRoot r := by
  induction ks with
  | nil => exact h.1
  | cons k ks ih => exact ih h.1

/-- There are blocks at the places above a block. -/
theorem Live.of_suffix (h : F.Live S r ks) (hks : ks' <:+ ks) : F.Live S r ks' := by
  induction ks with
  | nil => rwa [List.suffix_nil.mp hks]
  | cons k ks ih =>
    rcases List.suffix_cons_iff.mp hks with rfl | hks
    · exact h
    · exact ih h.1 hks

/-- A block in a tree is at most as deep as the tree is high. -/
theorem Live.length_le (h : F.Live S r ks) : ks.length ≤ S.height r := by
  cases ks with
  | nil => exact Nat.zero_le _
  | cons k ks => exact h.2.1

/-- The number of a block in a tree is not 0. -/
theorem Live.block_ne (h : F.Live S r ks) : F.block S r ks ≠ 0 := by
  cases ks with
  | nil => exact h.2
  | cons k ks => exact h.2.2.2

/-- Forests that agree off a slot agree on the places that do not lead through it. -/
theorem AgreeOff.slot_eq {p : Place ρ} (h : F.AgreeOff S F' p) (hlive : F.Live S r ks)
    (hoff : ∀ ks', ks' <:+ ks → (r, ks') ≠ p) :
    F'.slot S r ks = F.slot S r ks ∧ F'.Live S r ks := by
  induction ks with
  | nil =>
    have hroot : F'.root r = F.root r := h.root r hlive.1 (hoff [] (List.suffix_refl _))
    refine ⟨hroot, (h.isRoot r).mpr hlive.1, ?_⟩
    rw [block, slot, hroot]
    exact hlive.2
  | cons k ks ih =>
    obtain ⟨hslot, hlive'⟩ := ih hlive.1 fun ks' hks' => hoff ks'
      (hks'.trans (List.suffix_cons _ _))
    have hentry : F'.slot S r (k :: ks) = F.slot S r (k :: ks) := by
      rw [slot, slot, hslot]
      exact h.entry r ks k hlive.1 hlive.2.1 (hoff _ (List.suffix_refl _))
    refine ⟨hentry, hlive', hlive.2.1, hlive.2.2.1, ?_⟩
    rw [block, hentry]
    exact hlive.2.2.2

/-- When a slot keeps the block it points at, every place keeps its block, and
every other slot its content. -/
theorem AgreeOff.of_block_eq {p : Place ρ} (h : F.AgreeOff S F' p)
    (hblock : F'.block S p.1 p.2 = F.block S p.1 p.2) (hlive : F.Live S r ks) :
    F'.block S r ks = F.block S r ks ∧ F'.Live S r ks ∧
      ((r, ks) ≠ p → F'.slot S r ks = F.slot S r ks) := by
  induction ks with
  | nil =>
    have hslot : (r, []) ≠ p → F'.slot S r [] = F.slot S r [] := h.root r hlive.1
    have heq : F'.block S r [] = F.block S r [] := by
      by_cases hp : (r, []) = p
      · rw [← hp] at hblock
        exact hblock
      · rw [block, block, hslot hp]
    exact ⟨heq, ⟨(h.isRoot r).mpr hlive.1, heq ▸ hlive.2⟩, hslot⟩
  | cons k ks ih =>
    obtain ⟨hparent, hlive', _⟩ := ih hlive.1
    have hslot : (r, k :: ks) ≠ p → F'.slot S r (k :: ks) = F.slot S r (k :: ks) := by
      intro hp
      have hentry := h.entry r ks k hlive.1 hlive.2.1 hp
      rw [← hparent] at hentry
      rw [slot, slot]
      exact hentry.trans (by rw [hparent]; rfl)
    have heq : F'.block S r (k :: ks) = F.block S r (k :: ks) := by
      by_cases hp : (r, k :: ks) = p
      · rw [← hp] at hblock
        exact hblock
      · rw [block, block, hslot hp]
    exact ⟨heq, ⟨hlive', hlive.2.1, hlive.2.2.1, heq ▸ hlive.2.2.2⟩, hslot⟩

/-- When a slot that points at a block is set to point at the same block, the
forest keeps its places. -/
theorem AgreeOff.live_iff {p : Place ρ} (h : F.AgreeOff S F' p) (hp : F.Live S p.1 p.2)
    (hblock : F'.block S p.1 p.2 = F.block S p.1 p.2) : F'.Live S r ks ↔ F.Live S r ks := by
  refine ⟨?_, fun hlive => (h.of_block_eq hblock hlive).2.1⟩
  induction ks with
  | nil =>
    intro hlive
    by_cases heq : (r, []) = p
    · rw [← heq] at hp
      exact hp
    · have hisRoot := (h.isRoot r).mp hlive.1
      refine ⟨hisRoot, ?_⟩
      have hne := hlive.2
      rwa [block, slot, h.root r hisRoot heq] at hne
  | cons k ks ih =>
    intro hlive
    have hparent := ih hlive.1
    by_cases heq : (r, k :: ks) = p
    · rw [← heq] at hp
      exact hp
    · refine ⟨hparent, hlive.2.1, hlive.2.2.1, ?_⟩
      have hne := hlive.2.2.2
      have hentry := h.entry r ks k hparent hlive.2.1 heq
      have hblk := (h.of_block_eq hblock hparent).1
      rw [block, slot] at hne
      change S.target (F'.entry r (F'.block S r ks) k) ≠ 0 at hne
      rw [hblk, hentry] at hne
      exact hne

/-- Forests that agree under a root slot have the same places there. -/
theorem AgreeAt.live_iff (h : F.AgreeAt S F' r) :
    (F'.Live S r ks ↔ F.Live S r ks) ∧ (F.Live S r ks → F'.slot S r ks = F.slot S r ks) := by
  induction ks with
  | nil =>
    have hslot : F.isRoot r → F'.slot S r [] = F.slot S r [] := h.root
    refine ⟨?_, fun hlive => hslot hlive.1⟩
    simp only [Live]
    rw [h.isRoot]
    refine and_congr_right fun hroot => ?_
    rw [block, block, hslot hroot]
  | cons k ks ih =>
    have hslot : F.Live S r ks → ks.length < S.height r →
        F'.slot S r (k :: ks) = F.slot S r (k :: ks) := by
      intro hlive hlt
      rw [slot, slot, ih.2 hlive]
      exact h.entry ks k hlive hlt
    refine ⟨?_, fun hlive => hslot hlive.1 hlive.2.1⟩
    simp only [Live]
    rw [ih.1]
    refine and_congr_right fun hlive => and_congr_right fun hlt => ?_
    rw [block, block, hslot hlive hlt]

/-- Forests that agree on every slot agree under every root slot. -/
theorem AgreeAt.of_agree (h : ∀ p, F.AgreeOff S F' p) : F.AgreeAt S F' r where
  isRoot := (h (r, [0])).isRoot r
  root hroot := (h (r, [0])).root r hroot (by simp)
  entry ks k hlive hlt := (h (r, [])).entry r ks k hlive hlt (by simp)

/-- Forests that agree on every slot have the same places. -/
theorem live_iff_of_agree (h : ∀ p, F.AgreeOff S F' p) :
    (F'.Live S r ks ↔ F.Live S r ks) ∧ (F.Live S r ks → F'.slot S r ks = F.slot S r ks) :=
  (AgreeAt.of_agree h).live_iff

/-- When a slot that pointed at no block is set to point at one whose slots point
at none, the forest gets one more place. -/
theorem AgreeOff.live_iff_of_new {p : Place ρ} (h : F.AgreeOff S F' p)
    (hp : F.HasSlot S p.1 p.2) (hempty : F.block S p.1 p.2 = 0) (hnew : F'.block S p.1 p.2 ≠ 0)
    (hleaf : ∀ k, S.target (F'.entry p.1 (F'.block S p.1 p.2) k) = 0) :
    (F'.Live S r ks ↔ F.Live S r ks ∨ (r, ks) = p) ∧
      (F.Live S r ks → F'.slot S r ks = F.slot S r ks) := by
  have hdead : ∀ ks', F.Live S r ks' → (r, ks') ≠ p := by
    rintro ks' hlive rfl
    exact hlive.block_ne hempty
  have hkeep : ∀ {ks}, F.Live S r ks → F'.slot S r ks = F.slot S r ks ∧ F'.Live S r ks :=
    fun hlive => h.slot_eq hlive fun ks' hks' => hdead ks' (hlive.of_suffix hks')
  refine ⟨⟨?_, ?_⟩, fun hlive => (hkeep hlive).1⟩
  · induction ks with
    | nil =>
      intro hlive
      by_cases heq : (r, []) = p
      · exact Or.inr heq
      · have hisRoot := (h.isRoot r).mp hlive.1
        have hne := hlive.2
        rw [block, slot, h.root r hisRoot heq] at hne
        exact Or.inl ⟨hisRoot, hne⟩
    | cons k ks ih =>
      intro hlive
      rcases ih hlive.1 with hparent | heq
      · by_cases heq : (r, k :: ks) = p
        · exact Or.inr heq
        · left
          refine ⟨hparent, hlive.2.1, hlive.2.2.1, ?_⟩
          have hne := hlive.2.2.2
          have hentry := h.entry r ks k hparent hlive.2.1 heq
          rw [block, slot, (hkeep hparent).1] at hne
          change S.target (F'.entry r (F.block S r ks) k) ≠ 0 at hne
          rw [hentry] at hne
          exact hne
      · have hzero := hleaf k
        rw [← heq] at hzero
        exact absurd hzero hlive.2.2.2
  · rintro (hlive | heq)
    · exact (hkeep hlive).2
    · obtain ⟨rfl, rfl⟩ := Prod.mk.inj heq
      cases hks : p.2 with
      | nil =>
        rw [hks] at hp hnew
        exact ⟨(h.isRoot _).mpr hp, hnew⟩
      | cons k ks =>
        rw [hks] at hp hnew
        exact ⟨(hkeep hp.1).2, hp.2.1, hp.2.2, hnew⟩

end

end Forest

end Efs.Library
