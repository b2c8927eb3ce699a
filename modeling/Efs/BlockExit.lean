import Efs.Block
import Efs.Dinode

/-!
# The exit cascade

`block_exit`: the block cache is closed, the entries of `pd_wb` that some other
entry covers are dropped, and the hash of every block that is left goes into the
slot of its parent, and so on up to the inode.

Entries are freed only after the last use of `pd_wb`, which is left out, and so
is the mutex of the superblock.
-/

namespace Efs

open Library

section

variable (w : World)

/-- `bget_simple`: the plaintext of a block on the disk. -/
def bgetSimple (bid : ℕ) (iv key : Key128) : Exec Halt Sys (Option Data) := do
  match ← diskRead w bid with
  | none => return none
  | some data => aes128BlockDecrypt w iv key data

/-- `breturn_simple`, true when it fails. -/
def breturnSimple (bid : ℕ) (data : Data) (iv key : Key128) : Exec Halt Sys Bool := do
  match ← aes128BlockEncrypt w iv key data with
  | none => return true
  | some data => diskWrite w data bid

/-- The statements `int i = 3; while(i > 0 && hashidx[i].bid == 0) i--;`. -/
def HashIdx.depth (h : HashIdx) : ℕ :=
  if (h.at 3).id ≠ 0 then 3 else if (h.at 2).id ≠ 0 then 2 else if (h.at 1).id ≠ 0 then 1 else 0

/-- The statement `for(; i > 0; i--) map_insert(&dupbids, node->hashidx[i].bid, &dummy)`. -/
def insertAncestors (h : HashIdx) : ℕ → OrdMap Unit → OrdMap Unit
  | 0, dupbids => dupbids
  | i + 1, dupbids => insertAncestors h i (dupbids.set (h.at (i + 1)).id ())

/-- The first loop over `pd_wb`, which collects the ancestors. -/
def collectAncestors : List (ℕ × PdWbNode) → OrdMap Unit → OrdMap Unit
  | [], dupbids => dupbids
  | (_, node) :: rest, dupbids =>
    collectAncestors rest (insertAncestors node.hashidx node.hashidx.depth dupbids)

/-- The loop over `dupbids`, which drops their entries. -/
def dropAncestors : List (ℕ × Unit) → Exec Halt Sys Unit
  | [] => pure ()
  | (bid, _) :: rest => do
    let _ ← pdWbDelete bid
    dropAncestors rest

/-- The loop `for(; i > 0; i--)` of the walk: the hash goes into the index block
of each level, under the keys of the inode in `idata`, and the hash of that block
further up. -/
def rehashIndexes (idata : Data) (h : HashIdx) : ℕ → Key256 → Exec Halt Sys (Option Key256)
  | 0, hash => return some hash
  | i + 1, hash => do
    let iid := (h.at 0).id
    let slot := h.at (i + 1)
    match ← bgetSimple w slot.id (dinodeAesIv idata iid) (dinodeAesKey idata iid) with
    | none => return none
    | some data =>
      let data := setIndexHash data slot.idx hash
      match ← sha256Block w data with
      | none => return none
      | some hash =>
        if ← breturnSimple w slot.id data (dinodeAesIv idata iid) (dinodeAesKey idata iid) then
          return none
        rehashIndexes idata h i hash

/-- One round of the walk over `pd_wb`, true when it fails. -/
def writeBackEntry (node : PdWbNode) : Exec Halt Sys Bool := do
  let iid := (node.hashidx.at 0).id
  let ibid := inodeIid2Bid iid
  let sb ← Exec.read (·.sb)
  match ← bgetSimple w ibid (sb.aesIv ibid) (sb.aesKey ibid) with
  | none => return true
  | some idata =>
    match ← rehashIndexes w idata node.hashidx node.hashidx.depth node.hash with
    | none => return true
    | some hash =>
      let idata := setDinodeHash idata iid (rootSlot (node.hashidx.at 0).idx) hash
      breturnSimple w ibid idata (sb.aesIv ibid) (sb.aesKey ibid)

/-- The walk over `pd_wb`, true when it fails. -/
def writeBackEntries : List (ℕ × PdWbNode) → Exec Halt Sys Bool
  | [] => return false
  | (_, node) :: rest => do
    if ← writeBackEntry w node then return true
    writeBackEntries rest

/-- `block_exit` after `cache_exit`, true when it fails. -/
def blockExitCascade : Exec Halt Sys Bool := do
  let pdWb ← Exec.read (·.pdWb)
  let dupbids := collectAncestors pdWb.entries .empty
  dropAncestors dupbids.entries
  let pdWb ← Exec.read (·.pdWb)
  writeBackEntries w pdWb.entries

/-- `block_exit`, true when it fails. -/
def blockExit : Exec Halt Sys Bool := do
  cacheExit (bcacOf w)
  blockExitCascade w

end

end Efs
