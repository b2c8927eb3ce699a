import Efs.Sys

/-!
# The block cache

The part of `block.c` that loads blocks into the cache and writes them back:
the callback of the cache, which leaves the hashes of data blocks in `pd_wb`,
the load from the disk with its check, and the calls by block number.

The mutexes of the superblock and of `pd_wb` are taken and given back inside of
each function and are left out.
-/

namespace Efs

open Library

section

variable (w : World)

/-! ## Writing back -/

/-- `pd_wb_find`. -/
def pdWbFind (bid : ℕ) : Exec Halt Sys (Option PdWbNode) := Exec.read fun s => s.pdWb.find bid

/-- `pd_wb_insert` and the stores into the node. -/
def pdWbInsert (bid : ℕ) (node : PdWbNode) : Exec Halt Sys Unit :=
  Exec.update fun s => { s with pdWb := s.pdWb.set bid node }

/-- `pd_wb_delete`, true when it fails. -/
def pdWbDelete (bid : ℕ) : Exec Halt Sys Bool := do
  let node ← pdWbFind bid
  Exec.update fun s => { s with pdWb := s.pdWb.erase bid }
  return node.isNone

/-- The end of `bcache_cb_write`: encrypt the block and write it. -/
def writeBack (bp : Block) (bid : ℕ) : Exec Halt Sys Bool := do
  match ← aes128BlockEncrypt w bp.aesIv bp.aesKey bp.data with
  | none => return true
  | some data =>
    if ← diskWrite w data bid then return true
    Exec.update fun s => { s with evicted := Function.update s.evicted bid bp.data }
    return false

/-- The part of `bcache_cb_write` on metadata blocks. -/
def writeBackMetadata (bp : Block) (bid : ℕ) : Exec Halt Sys Bool := do
  if bp.type ≠ .inode ∧ bp.type ≠ .bitmap then
    panic w .blockTypeMismatch
    return true
  match ← sha256Block w bp.data with
  | none => return true
  | some hash =>
    Exec.update fun s => { s with sb.hash := Function.update s.sb.hash bid hash }
    writeBack w bp bid

/-- The part of `bcache_cb_write` on data and index blocks. -/
def writeBackData (bp : Block) (bid : ℕ) : Exec Halt Sys Bool := do
  if bp.type ≠ .data then
    panic w .blockTypeMismatch
    return true
  match ← sha256Block w bp.data with
  | none =>
    panic w .blockWriteBackFailed
    return true
  | some hash =>
    match ← pdWbFind bid with
    | none => pdWbInsert bid ⟨bp.hashidx, hash⟩
    | some node => pdWbInsert bid ⟨node.hashidx, hash⟩
    writeBack w bp bid

/-- `bcache_cb_write`, true when it fails. -/
def bcacheCbWrite (content : Option Block) (bid : ℕ) (dirty deleted : Bool) :
    Exec Halt Sys Bool := do
  if deleted then
    let _ ← pdWbDelete bid
    return false
  if !dirty then return false
  if bid < inodeBitmapStart then
    panic w .superblockWrittenBack
    return true
  if bid < inodeStart then
    panic w .inodeBitmapWrittenBack
    return true
  match content with
  | none => Exec.stop .nullDeref
  | some bp => if bid < dataStart then writeBackMetadata w bp bid else writeBackData w bp bid

/-- `bcac`. -/
def bcacOf : CacheOf Sys Block where
  get s := s.bcac
  set c s := { s with bcac := c }
  contentCbWrite := bcacheCbWrite w
  followsLoss := false

/-! ## Loading -/

/-- `get_block_from_disk`; without an expected hash the block is a new one. -/
def getBlockFromDisk (bid : ℕ) (type : BlockType) (hashidx : HashIdx) (iv key : Key128)
    (expHash : Option Key256) : Exec Halt Sys (Option Block) := do
  match expHash with
  | none => return some ⟨type, bid, hashidx, iv, key, Bytes.zero⟩
  | some expHash =>
    match ← diskRead w bid with
    | none => return none
    | some data =>
      match ← aes128BlockDecrypt w iv key data with
      | none => return none
      | some data =>
        if ← sha256Validate w data expHash then
          -- the message reads `hashidx`, a null pointer when the block is one of the metadata
          Exec.when (type ≠ .data) (Exec.stop .nullDeref)
          panic w .hashValidationFailed
          return none
        return some ⟨type, bid, hashidx, iv, key, data⟩

/-- The type of a block by its number. -/
def blockType (bid : ℕ) : BlockType :=
  if bid < bitmapStart then .inode else if bid < dataStart then .bitmap else .data

/-- `bget_from_cache_lock`: the block, locked and referenced. -/
def bgetFromCacheLock (bid : ℕ) (hashidx : HashIdx) (iv key : Key128) (expHash : Option Key256) :
    Exec Halt Sys (Option ℕ) := do
  match ← cacheTryGet w (bcacOf w) bid true true with
  | some bp => return some bp
  | none =>
    let slot ← cacheInsertGet w (bcacOf w) bid true
    if bid < inodeBitmapStart then
      panic w .superblockRead
      return none
    if bid < inodeStart then
      panic w .inodeBitmapRead
      return none
    match slot with
    | none => Exec.stop .nullDeref
    | some bpp =>
      match ← getBlockFromDisk w bid (blockType bid) hashidx iv key expHash with
      | none => return none
      | some block =>
        nodeStore (bcacOf w) bpp ({ · with content := some block })
        Exec.when (dataStart ≤ bid) do
          Exec.update fun s => { s with loads := (bid, hashidx) :: s.loads }
        return some bpp

/-! ## Calls by block number -/

/-- `block_lock`, true when it fails. -/
def blockLock (bid : ℕ) : Exec Halt Sys Bool := cacheNodeLock w (bcacOf w) bid

/-- `block_unlock`, true when it fails. -/
def blockUnlock (bid : ℕ) : Exec Halt Sys Bool := cacheNodeUnlock w (bcacOf w) bid

/-- `breturn_to_cache`, true when it fails. -/
def breturnToCache (bid : ℕ) : Exec Halt Sys Bool := cacheReturn w (bcacOf w) bid

/-- `block_unlock_return` of a block by its number, true when it fails. -/
def blockUnlockReturn (bid : ℕ) : Exec Halt Sys Bool := cacheUnlockReturn w (bcacOf w) bid

/-- `block_make_dirty`, true when it fails. -/
def blockMakeDirty (bid : ℕ) : Exec Halt Sys Bool := cacheMakeDirty w (bcacOf w) bid

/-! ## Blocks through pointers -/

/-- The block at a pointer. -/
def blockAt (bp : ℕ) : Exec Halt Sys Block := do
  match ← Exec.read fun s => s.bcac.contentAt bp with
  | none => Exec.stop .undefinedBehaviour
  | some block => return block

/-- A store into the data of the block at a pointer. -/
def dataStore (bp : ℕ) (f : Data → Data) : Exec Halt Sys Unit :=
  nodeStore (bcacOf w) bp fun n =>
    { n with content := n.content.map fun block => { block with data := f block.data } }

end

end Efs
