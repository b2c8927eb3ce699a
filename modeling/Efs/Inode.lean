import Efs.DataBitmap
import Efs.Dinode

/-!
# The inode cache

The part of `inode.c` that brings inodes into their cache and writes them back:
the callback of the cache, which also releases the blocks of a deleted inode, the
load from the inode's block, and the calls on an inode.

A cached inode keeps a pointer into its block, so the block is held for as long
as the inode is cached.
-/

namespace Efs

open Library

section

variable (w : World)

/-! ## Release of the blocks of a deleted inode -/

/-- What `bget_raw` gives: a pointer into a cached block, or a copy. -/
inductive RawBlock
  | cached (bp : ℕ)
  | copy (data : Data)

/-- `bget_raw`, with `none` for a null pointer. The hash of the block is not checked. -/
def bgetRaw (bid : ℕ) (iv key : Key128) : Exec Halt Sys (Option RawBlock) := do
  if bid < dataStart then return none
  match ← cacheTryGet w (bcacOf w) bid true true with
  | some bp => return some (.cached bp)
  | none =>
    match ← diskRead w bid with
    | none => return none
    | some data =>
      match ← aes128BlockDecrypt w iv key data with
      | none => return none
      | some data => return some (.copy data)

/-- `breturn_raw`. -/
def breturnRaw (bid : ℕ) : RawBlock → Exec Halt Sys Unit
  | .cached _ => do let _ ← blockUnlockReturn w bid
  | .copy _ => pure ()

/-- The data behind the result of `bget_raw`. -/
def rawData : RawBlock → Exec Halt Sys Data
  | .cached bp => do
    let block ← blockAt bp
    return block.data
  | .copy data => pure data

/-- The loop of `index_free_recursive` over the last `n` entries of an index block,
with what is done to a block that an entry points at. -/
def indexFreeFrom (idxp : RawBlock) (free : ℕ → Exec Halt Sys Unit) : ℕ → Exec Halt Sys Unit
  | 0 => pure ()
  | n + 1 => do
    let data ← rawData idxp
    let idx := indexAt data (indexPerBlock - (n + 1))
    Exec.when (idx.bid ≠ 0) (free idx.bid)
    indexFreeFrom idxp free n

/-- `index_free_recursive` of one block, with what is done to the blocks under it. -/
def indexFree (bid : ℕ) (iv key : Key128) (free : ℕ → Exec Halt Sys Unit) : Exec Halt Sys Unit := do
  match ← bgetRaw w bid iv key with
  | none => Exec.stop .nullDeref
  | some idxp =>
    indexFreeFrom idxp free indexPerBlock
    breturnRaw w bid idxp
    let _ ← blockFree w bid true

/-- `index_free_recursive`. -/
def indexFreeRecursive (iv key : Key128) : ℕ → ℕ → Exec Halt Sys Unit
  | 0, bid => indexFree w bid iv key fun child => do let _ ← blockFree w child false
  | level + 1, bid => indexFree w bid iv key fun child =>
    if level + 1 ≤ 1 then do let _ ← blockFree w child false
    else indexFreeRecursive iv key level child

/-- The loop of `icache_cb_write` over the last `n` direct slots. -/
def directFreeFrom (ip : Inode) : ℕ → Exec Halt Sys Unit
  | 0 => pure ()
  | n + 1 => do
    let bid := ip.bid (rootSlot (ndirect - (n + 1)))
    Exec.when (bid ≠ 0) do let _ ← blockFree w bid false
    directFreeFrom ip n

/-- The statement `if(ip->bid[r]) index_free_recursive(ip->bid[r], level, ..)`. -/
def rootFree (ip : Inode) (r level : ℕ) : Exec Halt Sys Unit :=
  Exec.when (ip.bid (rootSlot r) ≠ 0)
    (indexFreeRecursive w ip.aesIv ip.aesKey level (ip.bid (rootSlot r)))

/-! ## Writing back -/

/-- A call on the inode bitmap. -/
def onIbm {α : Type} (x : Exec Halt InodeBitmap α) : Exec Halt Sys α :=
  Exec.zoom (·.ibm) (fun ibm s => { s with ibm }) x

/-- A store through the pointer into the block of an inode. -/
def dipStore (dip : ℕ) (f : Data → Data) : Exec Halt Sys Unit := do
  let _ ← blockAt dip
  dataStore w dip f

/-- The part of `icache_cb_write` on a deleted inode. -/
def freeInode (ip : Inode) (iid : ℕ) : Exec Halt Sys Unit := do
  let bid := inodeIid2Bid iid
  directFreeFrom w ip ndirect
  rootFree w ip ndirect 1
  rootFree w ip (ndirect + 1) 2
  rootFree w ip (ndirect + 2) 3
  let _ ← blockLock w bid
  dipStore w ip.dip fun data => zeroDinode data ip.iid
  let _ ← blockMakeDirty w bid
  let _ ← blockUnlock w bid
  onIbm (ibmFree w (iid % 2 ^ 16))

/-- The part of `icache_cb_write` on a changed inode. -/
def writeInode (ip : Inode) (iid : ℕ) : Exec Halt Sys Unit := do
  let bid := inodeIid2Bid iid
  let _ ← blockLock w bid
  dipStore w ip.dip fun data =>
    setDinode data ip.iid ip.type ip.size ip.bid ip.aesKey ip.aesIv ip.hash
  let _ ← blockMakeDirty w bid
  let _ ← blockUnlock w bid

/-- `icache_cb_write`. It never fails. -/
def icacheCbWrite (content : Option Inode) (iid : ℕ) (dirty deleted : Bool) :
    Exec Halt Sys Bool := do
  if deleted then
    match content with
    | none => Exec.stop .nullDeref
    | some ip => freeInode w ip iid
  else if dirty then
    match content with
    | none => do
      let _ ← blockLock w (inodeIid2Bid iid)
      Exec.stop .nullDeref
    | some ip => writeInode w ip iid
  let _ ← breturnToCache w (inodeIid2Bid iid)
  return false

/-- `icac`. -/
def icacOf : CacheOf Sys Inode where
  get s := s.icac
  set c s := { s with icac := c }
  contentCbWrite := icacheCbWrite w
  followsLoss := false

/-! ## Inodes through pointers -/

/-- The inode at a pointer. -/
def inodeAt (ip : ℕ) : Exec Halt Sys Inode := do
  match ← Exec.read fun s => s.icac.contentAt ip with
  | none => Exec.stop .undefinedBehaviour
  | some inode => return inode

/-- A store into the inode at a pointer. -/
def inodeStore (ip : ℕ) (f : Inode → Inode) : Exec Halt Sys Unit :=
  nodeStore (icacOf w) ip fun n => { n with content := n.content.map f }

/-- `inode_lock`, true when it fails. -/
def inodeLock (ip : ℕ) : Exec Halt Sys Bool := do
  let inode ← inodeAt ip
  cacheNodeLock w (icacOf w) inode.iid

/-- `inode_unlock`, true when it fails. -/
def inodeUnlock (ip : ℕ) : Exec Halt Sys Bool := do
  let inode ← inodeAt ip
  cacheNodeUnlock w (icacOf w) inode.iid

/-- `inode_unlock_return`, true when it fails. -/
def inodeUnlockReturn (ip : ℕ) : Exec Halt Sys Bool := do
  let inode ← inodeAt ip
  cacheUnlockReturn w (icacOf w) inode.iid

/-- `inode_return`, true when it fails. -/
def inodeReturn (ip : ℕ) : Exec Halt Sys Bool := do
  let inode ← inodeAt ip
  cacheReturn w (icacOf w) inode.iid

/-- `inode_make_dirty`, true when it fails. -/
def inodeMakeDirty (ip : ℕ) : Exec Halt Sys Bool := do
  let inode ← inodeAt ip
  cacheMakeDirty w (icacOf w) inode.iid

/-- `inode_make_deleted`, true when it fails. -/
def inodeMakeDeleted (ip : ℕ) : Exec Halt Sys Bool := do
  let inode ← inodeAt ip
  cacheMakeDeleted w (icacOf w) inode.iid

/-- `inode_get_size`. -/
def inodeGetSize (ip : ℕ) : Exec Halt Sys ℕ := do
  let _ ← inodeLock w ip
  let inode ← inodeAt ip
  let _ ← inodeUnlock w ip
  return inode.size

/-! ## Loading -/

/-- The inode that `iget_from_cache` makes from the block at the pointer `bp`. -/
def loadInode (bp : ℕ) (data : Data) (iid : ℕ) : Inode where
  iid := iid
  type := dinodeType data iid
  size := dinodeSize data iid
  dip := bp
  bid := dinodeBid data iid
  aesKey := dinodeAesKey data iid
  aesIv := dinodeAesIv data iid
  hash := dinodeHash data iid

/-- `iget_from_cache`: the inode, referenced, or `none` for a null pointer. -/
def igetFromCache (iid : ℕ) (sureNotCached : Bool) : Exec Halt Sys (Option ℕ) := do
  let cached ← if sureNotCached then pure none else cacheTryGet w (icacOf w) iid false true
  match cached with
  | some ip => return some ip
  | none =>
    let slot ← cacheInsertGet w (icacOf w) iid false
    match ← bgetMetadata w (inodeIid2Bid iid) with
    | none => return none
    | some bp =>
      let block ← blockAt bp
      let _ ← blockUnlock w block.bid
      match slot with
      | none => Exec.stop .nullDeref
      | some ipp =>
        nodeStore (icacOf w) ipp ({ · with content := some (loadInode bp block.data iid) })
        return some ipp

/-- `inode_exit`. -/
def inodeExit : Exec Halt Sys Unit := cacheExit (icacOf w)

end

end Efs
