import Efs.Directory

/-!
# The superblock

`superblock.c`, and `bitmap_init` and `bitmap_exit` of `bitmap.c`: the superblock is
in 73 blocks under the key of the volume, and it has the key, the iv and the hash of
each metadata block. Every unmount gives all metadata blocks new keys.
-/

namespace Efs

open Library

/-- `uint8_t data[BLK_SZ * SUPERBLOCK_CNT]`. -/
abbrev SbData := Bytes 299008

/-- The statement `memcpy(data, &sb, sizeof(superblock_t))` on a buffer of zeros. -/
def sbStore (sb : Superblock) : SbData :=
  let data : SbData := Bytes.zero
  let data := data.putLE 0 4 sb.magic
  let data := data.putLE 4 4 sb.maxbid
  let data := data.putLE 8 2 sb.rootinode
  let data := data.write 10 73744 (Bytes.buffers fun i => sb.aesKey (i + inodeBitmapStart))
  let data := data.write 73754 73744 (Bytes.buffers fun i => sb.aesIv (i + inodeBitmapStart))
  data.write 147498 147488 (Bytes.buffers fun i => sb.hash (i + inodeBitmapStart))

/-- The statement `memcpy(&sb, data, sizeof(sb))`. -/
def sbLoad (data : SbData) : Superblock where
  magic := data.getLE 0 4
  maxbid := data.getLE 4 4
  rootinode := data.getLE 8 2
  aesKey bid := data.sub (10 + 16 * (bid - inodeBitmapStart)) 16
  aesIv bid := data.sub (73754 + 16 * (bid - inodeBitmapStart)) 16
  hash bid := data.sub (147498 + 32 * (bid - inodeBitmapStart)) 32

/-- The `i`-th block of the superblock. -/
def sbBlock (data : SbData) (i : ℕ) : Data := data.sub (i * blkSz) 4096

section

variable (w : World) (sha256Sb : SbData → Key256)

/-! ## Mounting -/

/-- The loop of `sb_init` over the last `n` blocks of the superblock; `none` when it fails. -/
def sbReadFrom (iv key : Key128) : ℕ → SbData → Exec Halt Sys (Option SbData)
  | 0, data => return some data
  | n + 1, data => do
    let i := superblockCnt - (n + 1)
    match ← diskRead w i with
    | none => return none
    | some block =>
      match ← aes128BlockDecrypt w iv key block with
      | none => return none
      | some block => sbReadFrom iv key n (data.put (i * blkSz) block)

/-- The loop of `sb_init` over the last `n` metadata blocks, true when it fails. -/
def sbCheckFrom : ℕ → Exec Halt Sys Bool
  | 0 => return false
  | n + 1 => do
    let bid := dataStart - (n + 1)
    match ← diskRead w bid with
    | none => return true
    | some data =>
      let sb ← Exec.read (·.sb)
      match ← aes128BlockDecrypt w (sb.aesIv bid) (sb.aesKey bid) data with
      | none => return true
      | some data =>
        if ← sha256Validate w data (sb.hash bid) then
          panic w .hashValidationFailed
          return true
        sbCheckFrom n

/-- `sha256_sb_validate`, true when it fails. -/
def sha256SbValidate (data : SbData) (expHash : Key256) : Exec Halt Sys Bool := do
  let failed ← external w
  return failed || sha256Sb data ≠ expHash

/-- `sb_init`, true when it fails. -/
def sbInit (iv key : Key128) (expHash : Key256) : Exec Halt Sys Bool := do
  match ← sbReadFrom w iv key superblockCnt Bytes.zero with
  | none => return true
  | some data =>
    if ← sha256SbValidate w sha256Sb data expHash then
      panic w .superblockHashFailed
      return true
    Exec.update fun s => { s with sb := sbLoad data }
    sbCheckFrom w (dataStart - inodeBitmapStart)

/-- A store into `ibm`. -/
def ibmStore (data : Data) : Exec Halt Sys Unit := Exec.update fun s => { s with ibm.ibm := data }

/-- `bitmap_init`, true when it fails. The inode bitmap has one block. -/
def bitmapInit : Exec Halt Sys Bool := do
  match ← diskRead w inodeBitmapStart with
  | none => return true
  | some data =>
    ibmStore data
    let sb ← Exec.read (·.sb)
    match ← aes128BlockDecrypt w (sb.aesIv inodeBitmapStart) (sb.aesKey inodeBitmapStart) data with
    | none => return true
    | some data =>
      ibmStore data
      if ← sha256Validate w data (sb.hash inodeBitmapStart) then
        panic w .hashValidationFailed
        return true
      return false

/-! ## Unmounting -/

/-- `bitmap_exit`, true when it fails. The loop goes on after a write that failed. -/
def bitmapExit : Exec Halt Sys Bool := do
  let sb ← Exec.read (·.sb)
  let ibm ← Exec.read (·.ibm.ibm)
  match ← aes128BlockEncrypt w (sb.aesIv inodeBitmapStart) (sb.aesKey inodeBitmapStart) ibm with
  | none => return true
  | some data =>
    ibmStore data
    let _ ← diskWrite w data inodeBitmapStart
    return false

/-- `key128_gen` where its result is looked at; `none` when it fails. -/
def sbKey128Gen : Exec Halt Sys (Option Key128) := do
  let failed ← external w
  let key ← key128Gen w
  return if failed then none else some key

/-- A round of the loop of `sb_exit` over the metadata blocks, true when it fails. -/
def sbRekey (bid : ℕ) : Exec Halt Sys Bool := do
  match ← diskRead w bid with
  | none => return true
  | some data =>
    let sb ← Exec.read (·.sb)
    match ← aes128BlockDecrypt w (sb.aesIv bid) (sb.aesKey bid) data with
    | none => return true
    | some data =>
      match ← sbKey128Gen w with
      | none => return true
      | some iv =>
        Exec.update fun s => { s with sb.aesIv := Function.update s.sb.aesIv bid iv }
        match ← sbKey128Gen w with
        | none => return true
        | some key =>
          Exec.update fun s => { s with sb.aesKey := Function.update s.sb.aesKey bid key }
          match ← sha256Block w data with
          | none => return true
          | some hash =>
            Exec.update fun s => { s with sb.hash := Function.update s.sb.hash bid hash }
            match ← aes128BlockEncrypt w iv key data with
            | none => return true
            | some data => diskWrite w data bid

/-- The loop of `sb_exit` over the last `n` metadata blocks, true when it fails. -/
def sbRekeyFrom : ℕ → Exec Halt Sys Bool
  | 0 => return false
  | n + 1 => do
    if ← sbRekey w (dataStart - (n + 1)) then return true
    sbRekeyFrom n

/-- The loop of `sb_exit` over the last `n` blocks of the superblock, true when it fails. -/
def sbWriteFrom (iv key : Key128) (data : SbData) : ℕ → Exec Halt Sys Bool
  | 0 => return false
  | n + 1 => do
    let i := superblockCnt - (n + 1)
    match ← aes128BlockEncrypt w iv key (sbBlock data i) with
    | none => return true
    | some block =>
      if ← diskWrite w block i then return true
      sbWriteFrom iv key data n

/-- `sha256_sb`; `none` when it fails. -/
def sha256SbBlock (data : SbData) : Exec Halt Sys (Option Key256) := do
  let failed ← external w
  return if failed then none else some (sha256Sb data)

/-- `sb_exit`: the hash of the superblock, `none` when it fails. -/
def sbExit (iv key : Key128) : Exec Halt Sys (Option Key256) := do
  Exec.update fun s => { s with sb.magic := efsMagic, sb.rootinode := 0 }
  if ← sbRekeyFrom w (dataStart - inodeBitmapStart) then return none
  let sb ← Exec.read (·.sb)
  match ← sha256SbBlock w sha256Sb (sbStore sb) with
  | none => return none
  | some hash =>
    if ← sbWriteFrom w iv key (sbStore sb) superblockCnt then return none
    return some hash

end

/-! ## The codec -/

/-- The superblocks agree on what is on the disk. -/
structure Superblock.Same (sb sb' : Superblock) : Prop where
  /-- `magic`. -/
  magic : sb'.magic = sb.magic
  /-- `maxbid`. -/
  maxbid : sb'.maxbid = sb.maxbid
  /-- `rootinode`. -/
  rootinode : sb'.rootinode = sb.rootinode
  /-- The keys and hashes of the metadata blocks. -/
  block : ∀ bid, inodeBitmapStart ≤ bid → bid < dataStart →
    sb'.aesKey bid = sb.aesKey bid ∧ sb'.aesIv bid = sb.aesIv bid ∧ sb'.hash bid = sb.hash bid

/-- The numbers of a superblock fit their fields. -/
structure Superblock.Fits (sb : Superblock) : Prop where
  /-- `magic`. -/
  magic : sb.magic < 2 ^ 32
  /-- `maxbid`. -/
  maxbid : sb.maxbid < 2 ^ 32
  /-- `rootinode`. -/
  rootinode : sb.rootinode < 2 ^ 16

/-- The superblock is read back as it was written. -/
theorem sbLoad_sbStore {sb : Superblock} (h : sb.Fits) : sb.Same (sbLoad (sbStore sb)) := by
  obtain ⟨hmagic, hmaxbid, hroot⟩ := h
  constructor
  · simp only [sbLoad, sbStore]
    rw [Bytes.getLE_write_of_disjoint (by omega), Bytes.getLE_write_of_disjoint (by omega),
      Bytes.getLE_write_of_disjoint (by omega), Bytes.putLE, Bytes.getLE_write_of_disjoint
        (by omega),
      Bytes.putLE, Bytes.getLE_write_of_disjoint (by omega), Bytes.getLE_putLE _ _ (by omega)]
    exact Nat.mod_eq_of_lt (by simpa using hmagic)
  · simp only [sbLoad, sbStore]
    rw [Bytes.getLE_write_of_disjoint (by omega), Bytes.getLE_write_of_disjoint (by omega),
      Bytes.getLE_write_of_disjoint (by omega), Bytes.putLE, Bytes.getLE_write_of_disjoint
        (by omega),
      Bytes.getLE_putLE _ _ (by omega)]
    exact Nat.mod_eq_of_lt (by simpa using hmaxbid)
  · simp only [sbLoad, sbStore]
    rw [Bytes.getLE_write_of_disjoint (by omega), Bytes.getLE_write_of_disjoint (by omega),
      Bytes.getLE_write_of_disjoint (by omega), Bytes.getLE_putLE _ _ (by omega)]
    exact Nat.mod_eq_of_lt (by simpa using hroot)
  · intro bid hle hlt
    have hbid : bid - inodeBitmapStart + inodeBitmapStart = bid := Nat.sub_add_cancel hle
    simp only [inodeBitmapStart, dataStart] at hle hlt hbid
    simp only [sbLoad, sbStore, inodeBitmapStart]
    refine ⟨?_, ?_, ?_⟩
    · rw [Bytes.sub_write_of_disjoint (by omega), Bytes.sub_write_of_disjoint (by omega),
        Bytes.sub_write_buffers _ _ (by omega) (by omega), hbid]
    · rw [Bytes.sub_write_of_disjoint (by omega),
        Bytes.sub_write_buffers _ _ (by omega) (by omega), hbid]
    · rw [Bytes.sub_write_buffers _ _ (by omega) (by omega), hbid]

end Efs
