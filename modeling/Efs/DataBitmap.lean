import Efs.Block

/-!
# The data bitmap

The part of `bitmap.c` on data block numbers, whose bitmap is in blocks that go
through the block cache, and the calls of `block.c` that allocate and free blocks.

The mutexes of the superblock and of the hint are taken and given back inside of
each function and are left out.
-/

namespace Efs

open Library

section

variable (w : World)

/-- `bget_from_cache_lock` of a metadata block, with its keys and hash in the superblock. -/
def bgetMetadata (bid : ℕ) : Exec Halt Sys (Option ℕ) := do
  let sb ← Exec.read (·.sb)
  bgetFromCacheLock w bid HashIdx.zero (sb.aesIv bid) (sb.aesKey bid) (some (sb.hash bid))

/-- The statement `if(sb.maxbid < bid) sb.maxbid = bid`. -/
def raiseMaxbid (bid : ℕ) : Exec Halt Sys Unit :=
  Exec.update fun s => { s with sb.maxbid := max s.sb.maxbid bid }

/-- The loop of `dbm_alloc` over the last `n` bitmap blocks, from the word `wid` of
the first one on, which has the number `ret`; `none` at its failure exits. -/
def dbmAllocFrom : ℕ → ℕ → ℕ → Exec Halt Sys (Option ℕ)
  | 0, _, _ => do
    panic w .dataBitmapFull
    return none
  | n + 1, ret, wid => do
    let bid := dataStart - (n + 1)
    match ← bgetMetadata w bid with
    | none =>
      panic w .cannotGetBitmapBlock
      return none
    | some bp =>
      let block ← blockAt bp
      match scanWords block.data (bitmapWordPerBlock - wid) wid with
      | some (p, tmp) =>
        dataStore w bp fun data => markWord data p tmp
        let ret := ret + (p - wid) * bitmapBitPerWord + (63 - tmp)
        let full := ~~~(word64 (markWord block.data p tmp) p) = 0
        Exec.when full do
          Exec.update fun s => { s with dbmFirstEmptyWord := s.dbmFirstEmptyWord + 1 }
        let _ ← blockMakeDirty w block.bid
        let _ ← blockUnlockReturn w block.bid
        raiseMaxbid (did2Bid ret)
        return some ret
      | none =>
        let _ ← blockUnlockReturn w block.bid
        dbmAllocFrom n (ret + (bitmapWordPerBlock - wid) * bitmapBitPerWord) 0

/-- `dbm_alloc`, with `none` at its failure exits. -/
def dbmAllocExit : Exec Halt Sys (Option ℕ) := do
  let first ← Exec.read (·.dbmFirstEmptyWord)
  dbmAllocFrom w (dataStart - bitmapWordId2Bid first) (first * bitmapBitPerWord)
    (first % bitmapWordPerBlock)

/-- `dbm_alloc`: the failure exits return 0. -/
def dbmAlloc : Exec Halt Sys ℕ := do
  let exit ← dbmAllocExit w
  return exit.getD 0

/-- `dbm_free`, true when it fails; a bitmap block that cannot be loaded counts as freed. -/
def dbmFree (did : ℕ) : Exec Halt Sys Bool := do
  if bitmapCnt ≤ did / (blkSz * 8) then return true
  match ← bgetMetadata w (bitmapDid2Bid did) with
  | none =>
    panic w .cannotGetBitmapBlock
    return false
  | some bp =>
    let block ← blockAt bp
    dataStore w bp fun data => clearByte data (did % (blkSz * 8))
    Exec.update fun s =>
      { s with dbmFirstEmptyWord := min s.dbmFirstEmptyWord (did / bitmapBitPerWord) }
    if ← blockMakeDirty w block.bid then return true
    blockUnlockReturn w block.bid

/-- `block_alloc`. A block that was allocated counts as written back with zeros. -/
def blockAlloc : Exec Halt Sys ℕ := do
  match ← dbmAllocExit w with
  | none => return did2Bid 0
  | some did =>
    Exec.update fun s =>
      { s with evicted := Function.update s.evicted (did2Bid did) Bytes.zero }
    return did2Bid did

/-- `block_free`, true when it fails. -/
def blockFree (bid : ℕ) (setzero : Bool) : Exec Halt Sys Bool := do
  Exec.when (bid < dataStart) (panic w .metadataBlockFreed)
  if ← pdWbDelete bid then return true
  let _ ← cacheMakeDeleted w (bcacOf w) bid
  Exec.when setzero do let _ ← diskSetzero w bid
  dbmFree w (bid2Did bid)

end

end Efs
