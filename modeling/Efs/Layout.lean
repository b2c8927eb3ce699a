import Efs.Library.Bytes

/-!
# The disk layout

Block numbers and sizes of `layout.h` and `efs_common.h`. Blocks are numbered
from the superblock on: the superblock, the inode bitmap, the inodes, the data
bitmap, and the data blocks.
-/

namespace Efs

open Library

/-- `BLK_SZ`, the bytes of a block. -/
@[simp] def blkSz : ℕ := 4096

/-- The plaintext or ciphertext of one block. -/
abbrev Data := Bytes 4096

/-- `key128_t`. -/
abbrev Key128 := Bytes 16

/-- `key256_t`, the type of hashes. -/
abbrev Key256 := Bytes 32

/-- `sizeof(index_t)`: a block number of four bytes and a hash. -/
@[simp] def indexSz : ℕ := 36

/-- `INDEX_PER_BLOCK`. -/
@[simp] def indexPerBlock : ℕ := 113

/-- `NDIRECT`. -/
@[simp] def ndirect : ℕ := 10

/-- `NINDIRECT1`. -/
@[simp] def nindirect1 : ℕ := 113

/-- `NINDIRECT2`. -/
@[simp] def nindirect2 : ℕ := 12769

/-- `DIRNAME_MAX_LEN`. -/
@[simp] def dirnameMaxLen : ℕ := 13

/-- `sizeof(dirent_t)`: an inode number of two bytes and a name of fourteen. -/
@[simp] def direntSz : ℕ := 16

/-- `sizeof(dinode_t)`. -/
@[simp] def dinodeSz : ℕ := 508

/-- `SB_KEY_CNT`, the metadata blocks with a key, an iv and a hash. -/
@[simp] def sbKeyCnt : ℕ := 4609

/-- `EFS_MAGIC`. -/
def efsMagic : ℕ := 0x04546530

/-- `sizeof(superblock_t)`: ten bytes, two keys and a hash for each metadata
block, and the padding to a multiple of four. -/
@[simp] def superblockSz : ℕ := 294988

/-- `SUPERBLOCK_CNT`. -/
@[simp] def superblockCnt : ℕ := 73

/-- `INODE_BITMAP_START`. -/
@[simp] def inodeBitmapStart : ℕ := 73

/-- `INODE_START`. -/
@[simp] def inodeStart : ℕ := 74

/-- `INODE_SZ`, the bytes of a block that one inode takes. -/
@[simp] def inodeSz : ℕ := 512

/-- `INODE_PER_BLOCK`. -/
@[simp] def inodePerBlock : ℕ := 8

/-- `INODE_CNT`, the blocks of the inode area. -/
@[simp] def inodeCnt : ℕ := 4096

/-- `BITMAP_START`. -/
@[simp] def bitmapStart : ℕ := 4170

/-- `BITMAP_CNT`, the blocks of the data bitmap. -/
@[simp] def bitmapCnt : ℕ := 512

/-- `DATA_START`. -/
@[simp] def dataStart : ℕ := 4682

/-- `QUEUE_MAX_LEN`. -/
@[simp] def queueMaxLen : ℕ := 256

/-- `INODE_IID2BID`. -/
def inodeIid2Bid (iid : ℕ) : ℕ := inodeStart + iid / inodePerBlock

/-- `INODE_BLOCK_OFFSET`. -/
def inodeBlockOffset (iid : ℕ) : ℕ := iid % inodePerBlock * inodeSz

/-- `BID2DID`, a subtraction of 32-bit unsigned numbers. -/
def bid2Did (bid : ℕ) : ℕ := (bid + 2 ^ 32 - dataStart) % 2 ^ 32

/-- `DID2BID`. -/
def did2Bid (did : ℕ) : ℕ := did + dataStart

/-- The constants are those the macros compute from the structures. -/
example : indexPerBlock = blkSz / indexSz ∧ nindirect2 = nindirect1 * indexPerBlock ∧
    superblockSz = (10 + sbKeyCnt * (16 + 16 + 32) + 3) / 4 * 4 ∧
    superblockCnt = superblockSz / blkSz + 1 ∧ inodeStart = superblockCnt + 1 ∧
    bitmapStart = inodeStart + inodeCnt ∧ dataStart = bitmapStart + bitmapCnt ∧
    sbKeyCnt = 1 + inodeCnt + bitmapCnt := by decide

/-- A number is that of its block. -/
theorem bid2Did_did2Bid {did : ℕ} (h : did < 2 ^ 32) : bid2Did (did2Bid did) = did := by
  simp only [bid2Did, did2Bid, dataStart]
  omega

end Efs
