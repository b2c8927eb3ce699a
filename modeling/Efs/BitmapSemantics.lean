import Efs.BitmapWords
import Efs.Library.Allocator

/-!
# The bitmaps as sets of used numbers

Every run of the two allocators is described by the set of used numbers it
shows. An allocation within the bitmap is sound. A release is not: it clears
the bit of the mirrored number, never that of the number it is given.
-/

namespace Efs

open Library

/-! ## The inode bitmap -/

/-- The inode numbers the bitmap shows as used. -/
def InodeBitmap.used (b : InodeBitmap) : Set ℕ := {id | id < 32768 ∧ idUsed b.ibm id = true}

/-- Marking a free number of the bitmap adds exactly this number. -/
theorem used_markWord {b b' : InodeBitmap} {w tmp : ℕ} (hw : w < 512) (htmp : tmp < 64)
    (hb : b'.ibm = markWord b.ibm w tmp) : b'.used = insert (w * 64 + (63 - tmp)) b.used := by
  ext id
  simp only [InodeBitmap.used, hb, idUsed_markWord _ hw htmp, Set.mem_ofPred_eq, Set.mem_insert_iff,
    Bool.or_eq_true, decide_eq_true_eq]
  constructor
  · rintro ⟨hid, hused | heq⟩
    · exact Or.inr ⟨hid, hused⟩
    · exact Or.inl heq
  · rintro (heq | ⟨hid, hused⟩)
    · exact ⟨by omega, Or.inr heq⟩
    · exact ⟨hid, Or.inl hused⟩

/-- An unchanged bitmap shows the same numbers. -/
theorem used_congr {b b' : InodeBitmap} (h : b'.ibm = b.ibm) : b'.used = b.used := by
  unfold InodeBitmap.used
  rw [h]

end Efs
