import Efs.Inode
import Efs.Library.Ghost

/-!
# The calls of `block_free` in a release

The release of a deleted inode with its calls of `block_free` kept in a log. The log
decides nothing: without it the programs are those of the inode cache.
-/

namespace Efs

open Library

/-- The calls of `block_free` so far: the block and `setzero`. -/
abbrev FreeLog := List (ℕ × Bool)

section

variable (w : World)

/-- `block_free`, with the call in the log. -/
def loggedFree (bid : ℕ) (setzero : Bool) : Exec Halt (Sys × FreeLog) Unit := do
  Exec.note (· ++ [(bid, setzero)])
  let _ ← Exec.ghost (blockFree w bid setzero)

/-- The loop of `index_free_recursive`, with the log. -/
def loggedFreeFrom (idxp : RawBlock) (free : ℕ → Exec Halt (Sys × FreeLog) Unit) :
    ℕ → Exec Halt (Sys × FreeLog) Unit
  | 0 => pure ()
  | n + 1 => do
    let data ← Exec.ghost (rawData idxp)
    let idx := indexAt data (indexPerBlock - (n + 1))
    Exec.when (idx.bid ≠ 0) (free idx.bid)
    loggedFreeFrom idxp free n

/-- `index_free_recursive` of one block, with the log. -/
def loggedFreeIndex (bid : ℕ) (iv key : Key128) (free : ℕ → Exec Halt (Sys × FreeLog) Unit) :
    Exec Halt (Sys × FreeLog) Unit := do
  match ← Exec.ghost (bgetRaw w bid iv key) with
  | none => Exec.stop .nullDeref
  | some idxp =>
    loggedFreeFrom idxp free indexPerBlock
    Exec.ghost (breturnRaw w bid idxp)
    loggedFree w bid true

/-- `index_free_recursive`, with the log. -/
def loggedFreeRecursive (iv key : Key128) : ℕ → ℕ → Exec Halt (Sys × FreeLog) Unit
  | 0, bid => loggedFreeIndex w bid iv key fun child => loggedFree w child false
  | level + 1, bid => loggedFreeIndex w bid iv key fun child =>
    if level + 1 ≤ 1 then loggedFree w child false else loggedFreeRecursive iv key level child

/-- The loop of `icache_cb_write` over the last `n` direct slots, with the log. -/
def loggedFreeDirect (ip : Inode) : ℕ → Exec Halt (Sys × FreeLog) Unit
  | 0 => pure ()
  | n + 1 => do
    let bid := ip.bid (rootSlot (ndirect - (n + 1)))
    Exec.when (bid ≠ 0) (loggedFree w bid false)
    loggedFreeDirect ip n

/-- The release of the blocks under an index slot, with the log. -/
def loggedFreeRoot (ip : Inode) (r level : ℕ) : Exec Halt (Sys × FreeLog) Unit :=
  Exec.when (ip.bid (rootSlot r) ≠ 0)
    (loggedFreeRecursive w ip.aesIv ip.aesKey level (ip.bid (rootSlot r)))

/-- The end of the release, after the blocks: the inode is cleared. -/
def clearInode (ip : Inode) (iid : ℕ) : Exec Halt Sys Unit := do
  let bid := inodeIid2Bid iid
  let _ ← blockLock w bid
  dipStore w ip.dip fun data => zeroDinode data ip.iid
  let _ ← blockMakeDirty w bid
  let _ ← blockUnlock w bid
  onIbm (ibmFree w (iid % 2 ^ 16))

/-- The part of `icache_cb_write` on a deleted inode, with the log. -/
def loggedFreeInode (ip : Inode) (iid : ℕ) : Exec Halt (Sys × FreeLog) Unit := do
  loggedFreeDirect w ip ndirect
  loggedFreeRoot w ip ndirect 1
  loggedFreeRoot w ip (ndirect + 1) 2
  loggedFreeRoot w ip (ndirect + 2) 3
  Exec.ghost (clearInode w ip iid)

end

section

variable {w : World}

/-- Without its log a release is `block_free`. -/
theorem erases_loggedFree (bid : ℕ) (setzero : Bool) :
    Exec.Erases (loggedFree w bid setzero) (do let _ ← blockFree w bid setzero) := by
  apply Exec.Erases.note
  exact (Exec.Erases.ghost _).bind fun _ => Exec.Erases.pure _

/-- Without their log the entries of an index block are released as by the loop. -/
theorem erases_loggedFreeFrom (idxp : RawBlock) {free : ℕ → Exec Halt (Sys × FreeLog) Unit}
    {free' : ℕ → Exec Halt Sys Unit} (hfree : ∀ bid, Exec.Erases (free bid) (free' bid)) (n : ℕ) :
    Exec.Erases (loggedFreeFrom idxp free n) (indexFreeFrom idxp free' n) := by
  induction n with
  | zero => exact Exec.Erases.pure ()
  | succ n ih => exact (Exec.Erases.ghost _).bind fun data => (hfree _).when.bind fun _ => ih

/-- Without its log an index block is released as by `index_free`. -/
theorem erases_loggedFreeIndex (bid : ℕ) (iv key : Key128)
    {free : ℕ → Exec Halt (Sys × FreeLog) Unit} {free' : ℕ → Exec Halt Sys Unit}
    (hfree : ∀ bid, Exec.Erases (free bid) (free' bid)) :
    Exec.Erases (loggedFreeIndex w bid iv key free) (indexFree w bid iv key free') := by
  refine (Exec.Erases.ghost _).bind fun raw => ?_
  cases raw with
  | none => exact Exec.Erases.stop _
  | some idxp =>
    exact (erases_loggedFreeFrom idxp hfree _).bind fun _ =>
      (Exec.Erases.ghost _).bind fun _ => erases_loggedFree bid true

/-- Without its log a level is released as by the recursion. -/
theorem erases_loggedFreeRecursive (iv key : Key128) (level bid : ℕ) :
    Exec.Erases (loggedFreeRecursive w iv key level bid)
      (indexFreeRecursive w iv key level bid) := by
  induction level generalizing bid with
  | zero => exact erases_loggedFreeIndex bid iv key fun child => erases_loggedFree child false
  | succ level ih =>
    apply erases_loggedFreeIndex
    intro child
    split_ifs
    · exact erases_loggedFree child false
    · exact ih child

/-- Without their log the direct blocks are released as by the loop. -/
theorem erases_loggedFreeDirect (ip : Inode) (n : ℕ) :
    Exec.Erases (loggedFreeDirect w ip n) (directFreeFrom w ip n) := by
  induction n with
  | zero => exact Exec.Erases.pure ()
  | succ n ih => exact (erases_loggedFree _ _).when.bind fun _ => ih

/-- Without its log a root slot is released as by the call. -/
theorem erases_loggedFreeRoot (ip : Inode) (r level : ℕ) :
    Exec.Erases (loggedFreeRoot w ip r level) (rootFree w ip r level) :=
  (erases_loggedFreeRecursive _ _ _ _).when

/-- The log decides nothing. -/
theorem erases_loggedFreeInode (ip : Inode) (iid : ℕ) :
    Exec.Erases (loggedFreeInode w ip iid) (freeInode w ip iid) :=
  (erases_loggedFreeDirect ip _).bind fun _ => (erases_loggedFreeRoot ip _ _).bind fun _ =>
    (erases_loggedFreeRoot ip _ _).bind fun _ => (erases_loggedFreeRoot ip _ _).bind fun _ =>
      Exec.Erases.ghost _

end

end Efs
