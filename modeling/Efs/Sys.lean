import Efs.Bitmap
import Efs.Cache
import Efs.Library.OrdMap

/-!
# The state of the enclave

The data types of `block.h`, `inode.h`, `layout.h` and `superblock.c`, and the
globals of the file system with the disk behind them.

A pointer to a block or an inode is the address of the cache node that holds it.
-/

namespace Efs

open Library

/-! ## Records -/

/-- `index_t`, an entry of an index block. -/
structure Index where
  /-- `bid`. -/
  bid : ℕ
  /-- `hash`. -/
  hash : Key256
  deriving DecidableEq

/-- The `i`-th entry of an index block. -/
def indexAt (d : Data) (i : ℕ) : Index := ⟨d.getLE (indexSz * i) 4, d.sub (indexSz * i + 4) 32⟩

/-- A block with the `bid` of its `i`-th entry set. -/
def setIndexBid (d : Data) (i bid : ℕ) : Data := d.putLE (indexSz * i) 4 bid

/-- A block with the `hash` of its `i`-th entry set. -/
def setIndexHash (d : Data) (i : ℕ) (hash : Key256) : Data := d.put (indexSz * i + 4) hash

/-- `hashidx_t`: an inode number or a block number, and the slot taken in it. -/
structure HashSlot where
  /-- `iid` or `bid`. -/
  id : ℕ
  /-- `idx`. -/
  idx : ℕ
  deriving DecidableEq

/-- `hashidx_t hashidx[4]`. -/
abbrev HashIdx := Fin 4 → HashSlot

/-- The array after `memset(hashidx, 0, sizeof(hashidx))`. -/
def HashIdx.zero : HashIdx := fun _ => ⟨0, 0⟩

/-- The `i`-th entry of a `hashidx`. -/
def HashIdx.at (h : HashIdx) (i : ℕ) : HashSlot := h (Fin.ofNat 4 i)

/-- A `hashidx` with its `i`-th entry set. -/
def HashIdx.set (h : HashIdx) (i : ℕ) (slot : HashSlot) : HashIdx :=
  Function.update h (Fin.ofNat 4 i) slot

/-- The `i`-th of the `NDIRECT + 3` slots of an inode. -/
def rootSlot (i : ℕ) : Fin 13 := Fin.ofNat 13 i

/-- `BLK_TP_INODE`, `BLK_TP_BITMAP`, `BLK_TP_DATA`. -/
inductive BlockType
  | inode
  | bitmap
  | data
  deriving DecidableEq

/-- `block_t`. -/
structure Block where
  /-- `type`. -/
  type : BlockType
  /-- `bid`. -/
  bid : ℕ
  /-- `hashidx`, set in data blocks. -/
  hashidx : HashIdx
  /-- `aes_iv`. -/
  aesIv : Key128
  /-- `aes_key`. -/
  aesKey : Key128
  /-- `data`. -/
  data : Data

/-- `struct pd_wb_node`. -/
structure PdWbNode where
  /-- `hashidx`. -/
  hashidx : HashIdx
  /-- `hash`. -/
  hash : Key256

/-- `INODE_TP_DIR`. -/
@[simp] def inodeTpDir : ℕ := 0

/-- `INODE_TP_FILE`. -/
@[simp] def inodeTpFile : ℕ := 1

/-- `inode_t`. -/
structure Inode where
  /-- `iid`. -/
  iid : ℕ
  /-- `type`. -/
  type : ℕ
  /-- `size`. -/
  size : ℕ
  /-- `dip` points into the block at this pointer, to the place of the inode. -/
  dip : ℕ
  /-- `bid`. -/
  bid : Fin 13 → ℕ
  /-- `aes_key`. -/
  aesKey : Key128
  /-- `aes_iv`. -/
  aesIv : Key128
  /-- `hash`. -/
  hash : Fin 13 → Key256

/-- `superblock_t`, with the keys and hashes by block number. -/
structure Superblock where
  /-- `magic`. -/
  magic : ℕ
  /-- `maxbid`. -/
  maxbid : ℕ
  /-- `rootinode`. -/
  rootinode : ℕ
  /-- `aes_key[SB_KEY_IDX(bid)]`. -/
  aesKey : ℕ → Key128
  /-- `aes_iv[SB_KEY_IDX(bid)]`. -/
  aesIv : ℕ → Key128
  /-- `hash[SB_KEY_IDX(bid)]`. -/
  hash : ℕ → Key256

/-- The globals and the disk. -/
structure Sys where
  /-- The ciphertext of each block on the disk. -/
  disk : ℕ → Data
  /-- `sb`. -/
  sb : Superblock
  /-- The inode bitmap. -/
  ibm : InodeBitmap
  /-- `dbm_first_empty_word`. -/
  dbmFirstEmptyWord : ℕ
  /-- `bcac`. -/
  bcac : Cache Block
  /-- `pd_wb`. -/
  pdWb : OrdMap PdWbNode
  /-- `icac`. -/
  icac : Cache Inode
  /-- The calls of the disk and of the crypto library so far. -/
  calls : ℕ
  /-- The calls of `key128_gen` so far. -/
  keys : ℕ
  /-- Not in the program: the plaintext of each block when it was last written
  back, all zeros for a block that was just allocated. -/
  evicted : ℕ → Data
  /-- Not in the program: the index and data blocks brought into the cache, with
  the `hashidx` that they were given, the last one first. -/
  loads : List (ℕ × HashIdx)

/-- The state of an empty disk. -/
def Sys.blank : Sys where
  disk _ := Bytes.zero
  sb := ⟨efsMagic, 0, 0, fun _ => Bytes.zero, fun _ => Bytes.zero, fun _ => Bytes.zero⟩
  ibm := ⟨Bytes.zero, 0, false⟩
  dbmFirstEmptyWord := 0
  bcac := .empty
  pdWb := .empty
  icac := .empty
  calls := 0
  keys := 0
  evicted _ := Bytes.zero
  loads := []

/-! ## The world -/

section

variable (w : World)

/-- A call of the disk or of the crypto library, true when it fails. -/
def external : Exec Halt Sys Bool := do
  let failed ← Exec.read fun s => w.fails s.calls
  Exec.update fun s => { s with calls := s.calls + 1 }
  return failed

/-- `disk_read`. -/
def diskRead (bid : ℕ) : Exec Halt Sys (Option Data) := do
  let failed ← external w
  let data ← Exec.read (·.disk bid)
  return if failed then none else some data

/-- `disk_write`, true when it fails. -/
def diskWrite (data : Data) (bid : ℕ) : Exec Halt Sys Bool := do
  let failed ← external w
  Exec.when (!failed) (Exec.update fun s => { s with disk := Function.update s.disk bid data })
  return failed

/-- `disk_setzero`, true when it fails. -/
def diskSetzero (bid : ℕ) : Exec Halt Sys Bool := do
  let failed ← external w
  Exec.when (!failed) do
    Exec.update fun s => { s with disk := Function.update s.disk bid w.zeroEncrypted }
  return failed

/-- `aes128_block_encrypt`. -/
def aes128BlockEncrypt (iv key : Key128) (data : Data) : Exec Halt Sys (Option Data) := do
  let failed ← external w
  return if failed then none else some (w.encrypt iv key data)

/-- `aes128_block_decrypt`. -/
def aes128BlockDecrypt (iv key : Key128) (data : Data) : Exec Halt Sys (Option Data) := do
  let failed ← external w
  return if failed then none else some (w.decrypt iv key data)

/-- `sha256_block`. -/
def sha256Block (data : Data) : Exec Halt Sys (Option Key256) := do
  let failed ← external w
  return if failed then none else some (w.sha256 data)

/-- `sha256_validate`, true when it fails. -/
def sha256Validate (data : Data) (expHash : Key256) : Exec Halt Sys Bool := do
  match ← sha256Block w data with
  | none => return true
  | some hash => return hash ≠ expHash

end

end Efs
