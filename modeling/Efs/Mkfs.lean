import Efs.Superblock

/-!
# The formatter

`main` of `mkfs.c`, which makes the image of an empty file system. It is a program of
its own, with its own copies of the calls of the crypto library, and writes the image
as a file from front to back.

An exit `return 1` is a stop. The calls of the C library that open and close the files
and write the file of the keys are one call at each place.
-/

namespace Efs

open Library

/-- The image, the place in its file, and the calls so far. -/
structure Image where
  /-- The blocks of the file. -/
  disk : ℕ → Data
  /-- The place in the file, in blocks. -/
  pos : ℕ
  /-- The calls of the crypto library and of the C library so far. -/
  calls : ℕ
  /-- The calls of `key128_gen` so far. -/
  keys : ℕ

/-- The file of an image when it was opened. -/
def Image.start (disk : ℕ → Data) : Image := ⟨disk, 0, 0, 0⟩

section

variable (w : World) (sha256Sb : SbData → Key256)

/-- The statement `if(0 != ..) return 1` for a call. -/
def mkfsCall : Exec Unit Image Unit := do
  let failed ← Exec.read fun s => w.fails s.calls
  Exec.update fun s => { s with calls := s.calls + 1 }
  Exec.when failed (Exec.stop ())

/-- `key128_gen` of `mkfs.c`. -/
def mkfsKey128Gen : Exec Unit Image Key128 := do
  let key ← Exec.read fun s => w.random s.keys
  Exec.update fun s => { s with keys := s.keys + 1 }
  return key

/-- `fseek` to a block. -/
def mkfsSeek (pos : ℕ) : Exec Unit Image Unit := do
  mkfsCall w
  Exec.update fun s => { s with pos }

/-- `fwrite` of a block. -/
def mkfsWrite (data : Data) : Exec Unit Image Unit := do
  mkfsCall w
  Exec.update fun s => { s with disk := Function.update s.disk s.pos data, pos := s.pos + 1 }

/-- `sha256_block` of `mkfs.c`. -/
def mkfsSha256 (data : Data) : Exec Unit Image Key256 := do
  mkfsCall w
  return w.sha256 data

/-- `aes128_block_encrypt` of `mkfs.c`. -/
def mkfsEncrypt (iv key : Key128) (data : Data) : Exec Unit Image Data := do
  mkfsCall w
  return w.encrypt iv key data

/-- The first loop over the metadata blocks: the last `n` of them get their keys. -/
def mkfsKeysFrom : ℕ → Superblock → Exec Unit Image Superblock
  | 0, sb => return sb
  | n + 1, sb => do
    let bid := dataStart - (n + 1)
    let iv ← mkfsKey128Gen w
    let key ← mkfsKey128Gen w
    mkfsKeysFrom n { sb with
      aesIv := Function.update sb.aesIv bid iv
      aesKey := Function.update sb.aesKey bid key }

/-- The end of a round of the loops that write metadata: the block goes to the file. -/
def mkfsBlock (bid : ℕ) (data : Data) (hash : Key256) (sb : Superblock) :
    Exec Unit Image Superblock := do
  let block ← mkfsEncrypt w (sb.aesIv bid) (sb.aesKey bid) data
  mkfsWrite w block
  return { sb with hash := Function.update sb.hash bid hash }

/-- The block of the inode bitmap with one inode. -/
def mkfsIbm : Data := setWord64 Bytes.zero 0 (1#64 <<< 63)

/-- The round of the loop over the inode bitmap, which has one block. -/
def mkfsInodeBitmap (sb : Superblock) : Exec Unit Image Superblock := do
  let hash ← mkfsSha256 w mkfsIbm
  mkfsBlock w inodeBitmapStart mkfsIbm hash sb

/-- The block with the root inode. -/
def mkfsRoot (iv key : Key128) : Data :=
  let data : Data := Bytes.zero
  let data := data.putLE (inodeBlockOffset 0) 2 inodeTpDir
  let data := data.putLE (inodeBlockOffset 0 + 4) 4 0
  let data := data.put (inodeBlockOffset 0 + 76) iv
  data.put (inodeBlockOffset 0 + 60) key

/-- The first round of the loop over the inodes. -/
def mkfsRootInode (sb : Superblock) : Exec Unit Image Superblock := do
  let iv ← mkfsKey128Gen w
  let key ← mkfsKey128Gen w
  let hash ← mkfsSha256 w (mkfsRoot iv key)
  mkfsBlock w inodeStart (mkfsRoot iv key) hash sb

/-- The further rounds of the loop over the inodes, and those of the loop over the data
bitmap, of which the last `n` are left. -/
def mkfsZeroFrom (zeroSha256 : Key256) : ℕ → Superblock → Exec Unit Image Superblock
  | 0, sb => return sb
  | n + 1, sb => do
    let sb ← mkfsBlock w (dataStart - (n + 1)) Bytes.zero zeroSha256 sb
    mkfsZeroFrom zeroSha256 n sb

/-- The loop that encrypts the last `n` blocks of the superblock in place. -/
def mkfsEncryptFrom (iv key : Key128) : ℕ → SbData → Exec Unit Image SbData
  | 0, data => return data
  | n + 1, data => do
    let i := superblockCnt - (n + 1)
    let block ← mkfsEncrypt w iv key (sbBlock data i)
    mkfsEncryptFrom iv key n (data.put (i * blkSz) block)

/-- `fwrite` of all blocks of the superblock. -/
def mkfsWriteAll (data : SbData) : Exec Unit Image Unit := do
  mkfsCall w
  Exec.update fun s => { s with
    disk := fun bid =>
      if s.pos ≤ bid ∧ bid < s.pos + superblockCnt then sbBlock data (bid - s.pos) else s.disk bid
    pos := s.pos + superblockCnt }

/-- `main`: the iv, the key and the hash of the superblock, which go to a file of their own. -/
def mkfs : Exec Unit Image (Key128 × Key128 × Key256) := do
  let iv ← mkfsKey128Gen w
  let key ← mkfsKey128Gen w
  mkfsCall w
  let zeroSha256 ← mkfsSha256 w Bytes.zero
  let sb ← mkfsKeysFrom w (dataStart - inodeBitmapStart)
    ⟨efsMagic, dataStart - 1, 0, fun _ => Bytes.zero, fun _ => Bytes.zero, fun _ => Bytes.zero⟩
  mkfsSeek w inodeBitmapStart
  let sb ← mkfsInodeBitmap w sb
  let sb ← mkfsRootInode w sb
  let sb ← mkfsZeroFrom w zeroSha256 (dataStart - (inodeStart + 1)) sb
  mkfsCall w
  let sbHash := sha256Sb (sbStore sb)
  let sbdata ← mkfsEncryptFrom w iv key superblockCnt (sbStore sb)
  mkfsSeek w 0
  mkfsWriteAll w sbdata
  mkfsCall w
  return (iv, key, sbHash)

end

end Efs
