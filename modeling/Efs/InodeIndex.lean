import Efs.Inode

/-!
# The index tree of an inode

The part of `inode.c` that finds the block of a part of a file, level by level from
the inode, and that reads and writes files through it. The hash of a block on the
way is in the slot above it, unless the block was written back since the slot was:
then it is in `pd_wb`, and the lookup moves it to the slot.
-/

namespace Efs

open Library

section

variable (w : World)

/-- `*zero_block_sha256()`. -/
def zeroBlockSha256 : Key256 := w.sha256 Bytes.zero

/-! ## Hashes -/

/-- `get_real_hash_ip`. -/
def getRealHashIp (ip bidx : ℕ) : Exec Halt Sys Unit := do
  let inode ← inodeAt ip
  let bid := inode.bid (rootSlot bidx)
  match ← pdWbFind bid with
  | none => pure ()
  | some node =>
    inodeStore w ip fun inode =>
      { inode with hash := Function.update inode.hash (rootSlot bidx) node.hash }
    let _ ← pdWbDelete bid
    let _ ← inodeMakeDirty w ip

/-- `get_real_hash_index` on the `i`-th entry of the block at the pointer `bp`. -/
def getRealHashIndex (bp i bid : ℕ) : Exec Halt Sys Unit := do
  let block ← blockAt bp
  let child := (indexAt block.data i).bid
  match ← pdWbFind child with
  | none => pure ()
  | some node =>
    dataStore w bp fun data => setIndexHash data i node.hash
    let _ ← pdWbDelete child
    let _ ← blockMakeDirty w bid

/-! ## Lookups -/

/-- The part of `index_lookup_one_level` that allocates a block for the entry `bidx` of
the block at the pointer `bp`; true at its exit `return 1`. -/
def newEntry (bp bidx bid : ℕ) : Exec Halt Sys Bool := do
  let child ← blockAlloc w
  dataStore w bp fun data => setIndexBid data bidx child
  if child = 0 then return true
  dataStore w bp fun data => setIndexHash data bidx (zeroBlockSha256 w)
  let _ ← blockMakeDirty w bid
  return false

/-- `index_lookup_one_level`: the entry, and whether a block was allocated for it;
`none` when it fails. -/
def indexLookupOneLevel (ip bid bidx : ℕ) (hashidx : HashIdx) (expHash : Option Key256)
    (write : Bool) : Exec Halt Sys (Option (Index × Bool)) := do
  let inode ← inodeAt ip
  match ← bgetFromCacheLock w bid hashidx inode.aesIv inode.aesKey expHash with
  | none => return none
  | some bp =>
    let block ← blockAt bp
    if write ∧ (indexAt block.data bidx).bid = 0 then
      if ← newEntry w bp bidx block.bid then return none
      let block ← blockAt bp
      let _ ← blockUnlockReturn w block.bid
      return some (indexAt block.data bidx, true)
    else
      getRealHashIndex w bp bidx bid
      let block ← blockAt bp
      let _ ← blockUnlockReturn w block.bid
      return some (indexAt block.data bidx, false)

/-- The part of `inode_index_lookup` that allocates a block for the root slot `r`; true
at its exit `return 0`. -/
def newRoot (ip r : ℕ) : Exec Halt Sys Bool := do
  let bid ← blockAlloc w
  inodeStore w ip fun inode => { inode with bid := Function.update inode.bid (rootSlot r) bid }
  if bid = 0 then return true
  inodeStore w ip fun inode =>
    { inode with hash := Function.update inode.hash (rootSlot r) (zeroBlockSha256 w) }
  let _ ← inodeMakeDirty w ip
  return false

/-- The part of `inode_index_lookup` on the root slot `r`: the block, the hash and
whether a block was allocated for it; `none` at the exit `return 0`. -/
def rootLookup (ip r : ℕ) (write : Bool) : Exec Halt Sys (Option (Index × Bool)) := do
  let inode ← inodeAt ip
  if write ∧ inode.bid (rootSlot r) = 0 then
    if ← newRoot w ip r then return none
    let inode ← inodeAt ip
    return some (⟨inode.bid (rootSlot r), inode.hash (rootSlot r)⟩, true)
  else
    getRealHashIp w ip r
    let inode ← inodeAt ip
    return some (⟨inode.bid (rootSlot r), inode.hash (rootSlot r)⟩, false)

/-- `tmpnew ? NULL : &idx.hash`. -/
def expected (idx : Index) (new : Bool) : Option Key256 := if new then none else some idx.hash

/-- What `inode_index_lookup` returns and what it leaves behind its pointers. -/
structure Lookup where
  /-- The block. -/
  bid : ℕ
  /-- `hashidx`. -/
  hashidx : HashIdx
  /-- `*exp_hash`. -/
  expHash : Key256
  /-- `*new`. -/
  new : Bool

/-- The exit `return 0`. -/
def Lookup.failed (hashidx : HashIdx) (expHash : Key256) : Lookup := ⟨0, hashidx, expHash, false⟩

/-- `inode_index_lookup`, with what is behind `hashidx` and `exp_hash` before.
Slot numbers are cut to 8 bits. The result of the lookup under a single-level
index block is not looked at, and `idx` is then used without having been set. -/
def inodeIndexLookup (ip bidx : ℕ) (write : Bool) (hashidx : HashIdx) (expHash : Key256) :
    Exec Halt Sys Lookup := do
  let inode ← inodeAt ip
  let iid := inode.iid
  if bidx < ndirect then
    let hashidx := hashidx.set 0 ⟨iid, bidx % 2 ^ 8⟩
    match ← rootLookup w ip bidx write with
    | none => return .failed hashidx expHash
    | some (idx, new) => return ⟨idx.bid, hashidx, idx.hash, new⟩
  let bidx := bidx - ndirect
  if bidx < nindirect1 then
    let hashidx := hashidx.set 0 ⟨iid, ndirect⟩
    match ← rootLookup w ip ndirect write with
    | none => return .failed hashidx expHash
    | some (root, new) =>
      match ← indexLookupOneLevel w ip root.bid (bidx % 2 ^ 8) hashidx
        (expected root new) write with
      | none => Exec.stop .undefinedBehaviour
      | some (idx, new) =>
        let hashidx := hashidx.set 1 ⟨root.bid, bidx % 2 ^ 8⟩
        return ⟨idx.bid, hashidx, idx.hash, new⟩
  let bidx := bidx - nindirect1
  if bidx < nindirect2 then
    let hashidx := hashidx.set 0 ⟨iid, ndirect + 1⟩
    match ← rootLookup w ip (ndirect + 1) write with
    | none => return .failed hashidx expHash
    | some (root, new) =>
      match ← indexLookupOneLevel w ip root.bid (bidx / indexPerBlock % 2 ^ 8) hashidx
          (expected root new) write with
      | none => return .failed hashidx expHash
      | some (idx₁, new) =>
        let hashidx := hashidx.set 1 ⟨root.bid, bidx / indexPerBlock % 2 ^ 8⟩
        let bidx := bidx % indexPerBlock
        match ← indexLookupOneLevel w ip idx₁.bid (bidx % 2 ^ 8) hashidx (expected idx₁ new)
            write with
        | none => return .failed hashidx expHash
        | some (idx, new) =>
          let hashidx := hashidx.set 2 ⟨idx₁.bid, bidx % 2 ^ 8⟩
          return ⟨idx.bid, hashidx, idx.hash, new⟩
  let bidx := bidx - nindirect2
  let hashidx := hashidx.set 0 ⟨iid, ndirect + 2⟩
  match ← rootLookup w ip (ndirect + 2) write with
  | none => return .failed hashidx expHash
  | some (root, new) =>
    match ← indexLookupOneLevel w ip root.bid (bidx / indexPerBlock / indexPerBlock % 2 ^ 8) hashidx
        (expected root new) write with
    | none => return .failed hashidx expHash
    | some (idx₁, new) =>
      let hashidx := hashidx.set 1 ⟨root.bid, bidx / indexPerBlock / indexPerBlock % 2 ^ 8⟩
      let bidx := bidx % (indexPerBlock * indexPerBlock)
      match ← indexLookupOneLevel w ip idx₁.bid (bidx / indexPerBlock % 2 ^ 8) hashidx
          (expected idx₁ new) write with
      | none => return .failed hashidx expHash
      | some (idx₂, new) =>
        let hashidx := hashidx.set 2 ⟨idx₁.bid, bidx / indexPerBlock % 2 ^ 8⟩
        let bidx := bidx % indexPerBlock
        match ← indexLookupOneLevel w ip idx₂.bid (bidx % 2 ^ 8) hashidx (expected idx₂ new)
            write with
        | none => return .failed hashidx expHash
        | some (idx, new) =>
          let hashidx := hashidx.set 3 ⟨idx₂.bid, bidx % 2 ^ 8⟩
          return ⟨idx.bid, hashidx, idx.hash, new⟩

/-! ## Reading and writing -/

/-- What the loop of `inode_rw_data` changes. -/
structure Progress where
  /-- `done`. -/
  done : ℕ
  /-- `off`. -/
  off : ℕ
  /-- `buf`. -/
  buf : ℕ → Byte
  /-- `hashidx`. -/
  hashidx : HashIdx
  /-- `exp_hash`. -/
  expHash : Key256

/-- A round of the loop of `inode_rw_data`; true when it goes on after it. -/
def rwRound (ip size : ℕ) (write : Bool) (p : Progress) : Exec Halt Sys (Bool × Progress) := do
  let found ← inodeIndexLookup w ip (p.off / blkSz) write p.hashidx p.expHash
  let p := { p with hashidx := found.hashidx, expHash := found.expHash }
  let inode ← inodeAt ip
  match ← bgetFromCacheLock w found.bid p.hashidx inode.aesIv inode.aesKey
      (if found.new then none else some p.expHash) with
  | none => return (false, p)
  | some bp =>
    let round := min (size - p.done) (blkSz - p.off % blkSz)
    let block ← blockAt bp
    let next := { p with done := p.done + round, off := (p.off + round) % 2 ^ 32 }
    if write then
      dataStore w bp fun data => data.write (p.off % blkSz) round fun i => p.buf (p.done + i)
      let _ ← blockMakeDirty w block.bid
      let _ ← blockUnlockReturn w block.bid
      return (true, next)
    else
      let _ ← blockUnlockReturn w block.bid
      return (true, { next with
        buf := fun i =>
          if p.done ≤ i ∧ i < p.done + round then block.data.get (p.off % blkSz + (i - p.done))
          else p.buf i })

/-- The loop of `inode_rw_data`, over at most `n` rounds; false at its early exit. -/
def rwRounds (ip size : ℕ) (write : Bool) : ℕ → Progress → Exec Halt Sys (Bool × Progress)
  | 0, p => return (true, p)
  | n + 1, p => do
    if p.done < size then
      let (goesOn, p) ← rwRound w ip size write p
      if goesOn then rwRounds ip size write n p else return (false, p)
    else return (true, p)

/-- `inode_rw_data`: the bytes done, and the buffer. A round does at least one byte,
so `size` rounds are enough. -/
def inodeRwData (ip : ℕ) (buf : ℕ → Byte) (off size : ℕ) (write : Bool) :
    Exec Halt Sys (ℕ × (ℕ → Byte)) := do
  if (off + size) % 2 ^ 32 ≤ off then return (0, buf)
  let inode ← inodeAt ip
  if write ∧ 2 ^ 32 - 1 ≤ (off + size) % 2 ^ 32 then return (0, buf)
  let size := if ¬write ∧ inode.size ≤ (off + size) % 2 ^ 32 then
    (inode.size + 2 ^ 32 - off) % 2 ^ 32 else size
  let (finished, p) ← rwRounds w ip size write size ⟨0, off, buf, HashIdx.zero, Bytes.zero⟩
  if !finished then return (p.done, p.buf)
  if write then
    inodeStore w ip fun inode => if inode.size < p.off then { inode with size := p.off } else inode
    let _ ← inodeMakeDirty w ip
  return (p.done, p.buf)

end

end Efs
