import Efs.Library.SlotTree
import Mathlib.Data.List.Nodup

/-!
# Walks of a forest from below

The walk of the blocks under a place comes to a block after all blocks below it. It
comes to each block once, and to no other block.
-/

namespace Efs.Library

namespace Forest

variable {ρ α : Type} (S : Shape ρ α) (F : Forest ρ α)

/-- The places of the blocks at and under a place, down to `n` more levels: those under
its slots one after the other, and then the place itself. -/
def postorder (r : ρ) : ℕ → List ℕ → List (List ℕ)
  | 0, ks => [ks]
  | n + 1, ks =>
    (List.range S.width).flatMap (fun k =>
      if F.block S r (k :: ks) ≠ 0 then postorder r n (k :: ks) else []) ++ [ks]

section

variable {S F} {r : ρ} {ks ks' : List ℕ} {n : ℕ}

/-- What is in the walk under a slot. -/
theorem mem_postorder_slot {k : ℕ} :
    ks' ∈ (if F.block S r (k :: ks) ≠ 0 then F.postorder S r n (k :: ks) else []) ↔
      F.block S r (k :: ks) ≠ 0 ∧ ks' ∈ F.postorder S r n (k :: ks) := by
  split_ifs with h
  · exact (and_iff_right h).symm
  · simp [h]

/-- What is visited below a place is visited below a child, or is the place. -/
theorem mem_postorder_succ : ks' ∈ F.postorder S r (n + 1) ks ↔
    (∃ k < S.width, F.block S r (k :: ks) ≠ 0 ∧ ks' ∈ F.postorder S r n (k :: ks)) ∨ ks' = ks := by
  simp only [postorder, List.mem_append, List.mem_flatMap, List.mem_range, mem_postorder_slot,
    List.mem_singleton]

/-- A place in the walk is under the place where it starts. -/
theorem suffix_of_mem_postorder (h : ks' ∈ F.postorder S r n ks) : ks <:+ ks' := by
  induction n generalizing ks with
  | zero => rw [List.mem_singleton.mp h]
  | succ n ih =>
    rcases mem_postorder_succ.mp h with ⟨k, _, _, hmem⟩ | rfl
    · exact (List.suffix_cons k ks).trans (ih hmem)
    · exact List.suffix_refl _

/-- A place under another one is that one, or is under one of its slots. -/
theorem suffix_cases (h : ks <:+ ks') : ks' = ks ∨ ∃ k, k :: ks <:+ ks' := by
  obtain ⟨l, rfl⟩ := h
  rcases List.eq_nil_or_concat l with rfl | ⟨l, k, rfl⟩
  · exact Or.inl rfl
  · exact Or.inr ⟨k, l, by simp⟩

/-- The slot under a place on the way to a place below it. -/
theorem slot_unique {j k : ℕ} (hj : j :: ks <:+ ks') (hk : k :: ks <:+ ks') : j = k :=
  (List.cons.inj ((List.suffix_of_suffix_length_le hj hk (by simp)).eq_of_length (by simp))).1

/-- The walk comes to the blocks at and under the place. -/
theorem mem_postorder (hlive : F.Live S r ks) (hn : ks.length + n = S.height r) :
    ks' ∈ F.postorder S r n ks ↔ ks <:+ ks' ∧ F.Live S r ks' := by
  induction n generalizing ks with
  | zero =>
    simp only [postorder, List.mem_singleton]
    constructor
    · rintro rfl
      exact ⟨List.suffix_refl _, hlive⟩
    · rintro ⟨hsuffix, hlive'⟩
      have hle := hlive'.length_le
      exact (hsuffix.eq_of_length (le_antisymm hsuffix.length_le (by omega))).symm
  | succ n ih =>
    have hheight : ks.length < S.height r := by omega
    have hstep : ∀ k, k < S.width → F.block S r (k :: ks) ≠ 0 → F.Live S r (k :: ks) :=
      fun k hk hne => ⟨hlive, hheight, hk, hne⟩
    have hlen : ∀ k : ℕ, (k :: ks).length + n = S.height r := by
      intro k
      rw [List.length_cons]
      omega
    rw [mem_postorder_succ]
    constructor
    · rintro (⟨k, hk, hne, hmem⟩ | rfl)
      · obtain ⟨hsuffix, hlive'⟩ := (ih (hstep k hk hne) (hlen k)).mp hmem
        exact ⟨(List.suffix_cons k ks).trans hsuffix, hlive'⟩
      · exact ⟨List.suffix_refl _, hlive⟩
    · rintro ⟨hsuffix, hlive'⟩
      rcases suffix_cases hsuffix with heq | ⟨k, hk⟩
      · exact Or.inr heq
      · have hliveK := hlive'.of_suffix hk
        exact Or.inl ⟨k, hliveK.2.2.1, hliveK.2.2.2, (ih hliveK (hlen k)).mpr ⟨hk, hlive'⟩⟩

/-- The walk comes to no place twice. -/
theorem nodup_postorder : (F.postorder S r n ks).Nodup := by
  induction n generalizing ks with
  | zero => exact List.nodup_singleton _
  | succ n ih =>
    refine List.nodup_append'.mpr ⟨List.nodup_flatMap.mpr ⟨?_, ?_⟩, List.nodup_singleton _, ?_⟩
    · intro k _
      split_ifs
      · exact ih
      · exact List.nodup_nil
    · refine List.nodup_range.imp fun {j k} hne => ?_
      intro ks' hj hk
      have hj' := suffix_of_mem_postorder (mem_postorder_slot.mp hj).2
      have hk' := suffix_of_mem_postorder (mem_postorder_slot.mp hk).2
      exact hne (slot_unique hj' hk')
    · intro ks' hmem hself
      obtain ⟨k, _, hk⟩ := List.mem_flatMap.mp hmem
      have hlen := (suffix_of_mem_postorder (mem_postorder_slot.mp hk).2).length_le
      rw [List.mem_singleton.mp hself, List.length_cons] at hlen
      omega

/-- The walk comes to a block after all blocks below it. -/
theorem sublist_postorder {ks'' : List ℕ} (h' : ks' ∈ F.postorder S r n ks)
    (h'' : ks'' ∈ F.postorder S r n ks) (hsuffix : ks' <:+ ks'') (hne : ks'' ≠ ks') :
    [ks'', ks'].Sublist (F.postorder S r n ks) := by
  induction n generalizing ks with
  | zero => exact absurd ((List.mem_singleton.mp h'').trans (List.mem_singleton.mp h').symm) hne
  | succ n ih =>
    rcases mem_postorder_succ.mp h'' with ⟨k, hk, hblock, hmem⟩ | rfl
    · have hslot : ks'' ∈ (List.range S.width).flatMap (fun k =>
          if F.block S r (k :: ks) ≠ 0 then F.postorder S r n (k :: ks) else []) :=
        List.mem_flatMap.mpr ⟨k, List.mem_range.mpr hk, mem_postorder_slot.mpr ⟨hblock, hmem⟩⟩
      rcases mem_postorder_succ.mp h' with ⟨j, _, _, hmem'⟩ | rfl
      · -- Both are under the same slot.
        obtain rfl : j = k :=
          slot_unique ((suffix_of_mem_postorder hmem').trans hsuffix) (suffix_of_mem_postorder hmem)
        have hin : (F.postorder S r n (j :: ks)).Sublist ((List.range S.width).flatMap (fun k =>
            if F.block S r (k :: ks) ≠ 0 then F.postorder S r n (k :: ks) else [])) := by
          obtain ⟨l₁, l₂, hrange⟩ := List.append_of_mem (List.mem_range.mpr hk)
          rw [hrange, List.flatMap_append, List.flatMap_cons, if_pos hblock]
          exact (List.sublist_append_left _ _).trans (List.sublist_append_right _ _)
        exact ((ih hmem' hmem).trans hin).trans (List.sublist_append_left _ _)
      · exact (List.singleton_sublist.mpr hslot).append (List.Sublist.refl [ks'])
    · -- Nothing is above the place where the walk starts.
      have hup := suffix_of_mem_postorder h'
      exact absurd (hup.eq_of_length (le_antisymm hup.length_le hsuffix.length_le)) hne

end

/-! ## All roots -/

/-- The walks under the root slots in a list, one after the other. -/
def walk (roots : List ρ) : List (Place ρ) :=
  roots.flatMap fun r =>
    if F.block S r [] ≠ 0 then (F.postorder S r (S.height r) []).map fun ks => (r, ks) else []

section

variable {S F} {roots : List ρ} {r r' : ρ} {ks ks' : List ℕ}

/-- What is visited of a root is visited when the root points at a block. -/
theorem mem_walk_root : (r', ks) ∈ (if F.block S r [] ≠ 0 then
    (F.postorder S r (S.height r) []).map fun ks => (r, ks) else []) ↔
      r' = r ∧ F.block S r [] ≠ 0 ∧ ks ∈ F.postorder S r (S.height r) [] := by
  split_ifs with h
  · simp only [List.mem_map, Prod.mk.injEq]
    constructor
    · rintro ⟨ks', hmem, rfl, rfl⟩
      exact ⟨rfl, h, hmem⟩
    · rintro ⟨rfl, _, hmem⟩
      exact ⟨ks, hmem, rfl, rfl⟩
  · simp [h]

/-- The walk comes to the blocks under the roots. -/
theorem mem_walk (hroots : ∀ r ∈ roots, F.isRoot r) :
    (r, ks) ∈ F.walk S roots ↔ r ∈ roots ∧ F.Live S r ks := by
  simp only [walk, List.mem_flatMap, mem_walk_root]
  constructor
  · rintro ⟨r', hmem, rfl, hne, hks⟩
    have hroot : F.Live S r [] := ⟨hroots r hmem, hne⟩
    exact ⟨hmem, ((mem_postorder hroot (by simp)).mp hks).2⟩
  · rintro ⟨hmem, hlive⟩
    have hroot : F.Live S r [] := hlive.of_suffix List.nil_suffix
    exact ⟨r, hmem, rfl, hroot.2, (mem_postorder hroot (by simp)).mpr ⟨List.nil_suffix, hlive⟩⟩

/-- The walk comes to no place twice. -/
theorem nodup_walk (hroots : roots.Nodup) : (F.walk S roots).Nodup := by
  refine List.nodup_flatMap.mpr ⟨fun r _ => ?_, hroots.imp fun {r r'} hne => ?_⟩
  · split_ifs
    · exact nodup_postorder.map fun ks ks' heq => (Prod.mk.inj heq).2
    · exact List.nodup_nil
  · rintro ⟨r'', ks⟩ hmem hmem'
    exact hne ((mem_walk_root.mp hmem).1.symm.trans (mem_walk_root.mp hmem').1)

/-- The walk comes to a block after all blocks below it. -/
theorem sublist_walk (hroots : ∀ r ∈ roots, F.isRoot r) (hmem : r ∈ roots) (hlive : F.Live S r ks')
    (hsuffix : ks <:+ ks') (hne : ks' ≠ ks) : [(r, ks'), (r, ks)].Sublist (F.walk S roots) := by
  have hroot : F.Live S r [] := hlive.of_suffix List.nil_suffix
  have hin : ∀ {ks}, F.Live S r ks → ks ∈ F.postorder S r (S.height r) [] := fun h =>
    (mem_postorder hroot (by simp)).mpr ⟨List.nil_suffix, h⟩
  have hsub := sublist_postorder (hin (hlive.of_suffix hsuffix)) (hin hlive) hsuffix hne
  obtain ⟨l₁, l₂, rfl⟩ := List.append_of_mem hmem
  rw [walk, List.flatMap_append, List.flatMap_cons, if_pos hroot.2]
  have hmap := hsub.map fun ks => (r, ks)
  exact (hmap.trans (List.sublist_append_left _ _)).trans (List.sublist_append_right _ _)

end

end Forest

end Efs.Library
