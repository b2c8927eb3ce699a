import Efs.BitmapSearch
import Efs.DirectoryScan
import Efs.InodeSize

/-!
# Creations that fail

The exits of `inode_new_get` with a null pointer. Those before the allocation of an inode
number leave the numbers and the directory as they were. The exit after a write of the
entry that stopped short does not give the number back.
-/

namespace Efs

open Library

/-- The same world without failures, in which `panic` ends the run. -/
@[irreducible] def World.calm (w : World) : World :=
    { w with fails := fun _ => false, panicReturns := false }

/-- No inode number is free where `ibm_alloc` searches. -/
def NoFreeIid (b : InodeBitmap) : Prop :=
  ∀ id, b.ibmFirstEmptyWord * 64 ≤ id → id < 32768 → id ∈ b.used

section

variable {w : World} {raw : Set ℕ} {s s₁ s' : Sys} {ip iid type : ℕ} {inode : Inode} {name : CStr}
  {junk : Leftover}

/-! ## Worlds without failures -/

/-- A block in a tree that is good stays so in the calm world. -/
theorem Spot.TreeGood.calm {r : Prop} {iv key : Key128} {hash : Key256} {l : Spot}
    (h : l.TreeGood w r iv key hash) : l.TreeGood w.calm r iv key hash := by
  unfold World.calm
  exact ⟨h.hashOk, h.diskOk, h.blank, h.keysOk, h.unlocked⟩

/-- A metadata block that is good stays so in the calm world. -/
theorem Spot.MetaGood.calm {iv key : Key128} {l : Spot} (h : l.MetaGood w iv key) :
    l.MetaGood w.calm iv key := by
  unfold World.calm
  exact ⟨h.metaOk, h.diskOk, h.keysOk, h.unlocked⟩

/-- Trees that are good stay so in the calm world. -/
theorem Sys.TreeInv.calm (h : s.TreeInv w raw) : s.TreeInv w.calm raw :=
  ⟨h.icac, h.iid_eq, h.ok, fun bid hle hlt => (h.metaInv bid hle hlt).calm, h.disjoint, h.used,
    fun r ks inode hlive hinode => (h.good r ks inode hlive hinode).calm, h.unused, h.hole⟩

/-- Files that are good stay so in the calm world. -/
theorem Sys.FilesOk.calm (h : s.FilesOk w) : s.FilesOk w.calm := ⟨h.inv.calm, h.size_lt, h.parts⟩

/-! ## The exits -/

end

/-! ## An entry that cannot be written -/

end Efs
