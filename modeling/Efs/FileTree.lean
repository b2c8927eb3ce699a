import Efs.Dinode
import Efs.Library.SlotTree

/-!
# The trees of the inodes

An inode has thirteen root slots: ten point at data blocks, the others at index
blocks with one, two and three levels. The `hashidx` of a block records the slots
on the way to it.
-/

namespace Efs

open Library

/-- A root slot: an inode and a slot of its `bid` and `hash` arrays. -/
abbrev RootSlot := ℕ × Fin 13

/-- The shape of the trees. -/
def treeShape : Shape RootSlot Index where
  target := Index.bid
  height r := r.2.val - 9
  width := indexPerBlock

/-- The `hashidx` names the slots on the way to a place. -/
def Recorded (F : Forest RootSlot Index) (r : RootSlot) (h : HashIdx) : List ℕ → Prop
  | [] => h.at 0 = ⟨r.1, r.2⟩
  | k :: ks => h.at (ks.length + 1) = ⟨F.block treeShape r ks, k⟩ ∧ Recorded F r h ks

/-- The `hashidx` is the path of a place: it names the slots on the way, and its
deeper entries have block number zero. -/
def IsPath (F : Forest RootSlot Index) (r : RootSlot) (ks : List ℕ) (h : HashIdx) : Prop :=
  Recorded F r h ks ∧ ∀ i, ks.length < i → i < 4 → (h.at i).id = 0

section

variable {F F' : Forest RootSlot Index} {r : RootSlot} {ks ks' : List ℕ} {h : HashIdx}

/-- A tree has at most three index levels. -/
theorem height_le (r : RootSlot) : treeShape.height r ≤ 3 := by
  have := r.2.isLt
  simp only [treeShape]
  omega

/-- The root entry of a recorded path. -/
theorem Recorded.root (hrec : Recorded F r h ks) : h.at 0 = ⟨r.1, r.2⟩ := by
  induction ks with
  | nil => exact hrec
  | cons k ks ih => exact ih hrec.2

/-- The entry of each level names the block and the slot taken there. -/
theorem Recorded.at_eq (hrec : Recorded F r h ks) {k : ℕ} (hks : k :: ks' <:+ ks) :
    h.at (ks'.length + 1) = ⟨F.block treeShape r ks', k⟩ := by
  induction ks with
  | nil => simp at hks
  | cons j ks ih =>
    rcases List.suffix_cons_iff.mp hks with heq | hks
    · obtain ⟨rfl, rfl⟩ := List.cons.inj heq
      exact hrec.1
    · exact ih hrec.2 hks

/-- Every level of a path has a place above it. -/
theorem exists_suffix {i : ℕ} (hi : i < ks.length) :
    ∃ k ks', k :: ks' <:+ ks ∧ ks'.length = i := by
  induction ks with
  | nil => simp at hi
  | cons k ks ih =>
    rcases Nat.lt_succ_iff_lt_or_eq.mp hi with hi | rfl
    · obtain ⟨k', ks', hks', hlen⟩ := ih hi
      exact ⟨k', ks', hks'.trans (List.suffix_cons _ _), hlen⟩
    · exact ⟨k, ks, List.suffix_refl _, rfl⟩

/-- Paths depend only on the blocks above a place. -/
theorem recorded_congr (hlive : F.Live treeShape r ks)
    (hblock : ∀ ks, F.Live treeShape r ks → F'.block treeShape r ks = F.block treeShape r ks) :
    Recorded F' r h ks ↔ Recorded F r h ks := by
  induction ks with
  | nil => exact Iff.rfl
  | cons k ks ih => rw [Recorded, Recorded, hblock ks hlive.1, ih hlive.1]

/-- A record of a path depends on the blocks on it only. -/
theorem Recorded.congr (hrec : Recorded F r h ks) (hlive : F.Live treeShape r ks)
    (hblock : ∀ ks, F.Live treeShape r ks → F'.block treeShape r ks = F.block treeShape r ks) :
    Recorded F' r h ks := (recorded_congr hlive hblock).mpr hrec

end

end Efs
