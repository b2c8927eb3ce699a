import Efs.Sys

/-!
# Fields on the disk

The fields of `index_t` and `dinode_t` in the data of a block, and what a store
into one of them does to the others.
-/

namespace Efs

open Library

/-! ## Inodes in their blocks -/

/-- `type` of the inode `iid` in the data of its block. -/
def dinodeType (d : Data) (iid : ℕ) : ℕ := d.getLE (inodeBlockOffset iid) 2

/-- `size`. -/
def dinodeSize (d : Data) (iid : ℕ) : ℕ := d.getLE (inodeBlockOffset iid + 4) 4

/-- `bid[r]`. -/
def dinodeBid (d : Data) (iid : ℕ) (r : Fin 13) : ℕ := d.getLE (inodeBlockOffset iid + 8 + 4 * r) 4

/-- `aes_key`. -/
def dinodeAesKey (d : Data) (iid : ℕ) : Key128 := d.sub (inodeBlockOffset iid + 60) 16

/-- `aes_iv`. -/
def dinodeAesIv (d : Data) (iid : ℕ) : Key128 := d.sub (inodeBlockOffset iid + 76) 16

/-- `hash[r]`. -/
def dinodeHash (d : Data) (iid : ℕ) (r : Fin 13) : Key256 :=
  d.sub (inodeBlockOffset iid + 92 + 32 * r) 32

/-- A block with `hash[r]` of the inode `iid` set. -/
def setDinodeHash (d : Data) (iid : ℕ) (r : Fin 13) (hash : Key256) : Data :=
  d.put (inodeBlockOffset iid + 92 + 32 * r) hash

/-- A block with all fields of the inode `iid` set. -/
def setDinode (d : Data) (iid type size : ℕ) (bid : Fin 13 → ℕ) (aesKey aesIv : Key128)
    (hash : Fin 13 → Key256) : Data :=
  let off := inodeBlockOffset iid
  let d := d.putLE off 2 type
  let d := d.putLE (off + 4) 4 size
  let d := d.write (off + 8) 52 (Bytes.numbers 4 fun r => bid (rootSlot r))
  let d := d.put (off + 60) aesKey
  let d := d.put (off + 76) aesIv
  d.write (off + 92) 416 (Bytes.buffers fun r => hash (rootSlot r))

/-- A block with zeros in place of the inode `iid`. -/
def zeroDinode (d : Data) (iid : ℕ) : Data := d.write (inodeBlockOffset iid) dinodeSz fun _ => 0

/-- The bytes of `hash[r]` of the inode `iid`. -/
def dinodeHashField (iid : ℕ) (r : Fin 13) : Set ℕ :=
  {i | inodeBlockOffset iid + 92 + 32 * r ≤ i ∧ i < inodeBlockOffset iid + 92 + 32 * r + 32}

/-- The bytes of the hash in the `k`-th entry of an index block. -/
def indexHashField (k : ℕ) : Set ℕ := {i | indexSz * k + 4 ≤ i ∧ i < indexSz * k + 4 + 32}

section

variable {d : Data} {iid iid' : ℕ} {r r' : Fin 13} {hash : Key256}

/-- The last inode of a block starts at 3584. -/
theorem inodeBlockOffset_le (iid : ℕ) : inodeBlockOffset iid ≤ 3584 := by
  simp only [inodeBlockOffset, inodePerBlock, inodeSz]
  omega

/-- Two inodes in one block are as far apart as an inode is long. -/
theorem inodeBlockOffset_apart (h : iid % 8 ≠ iid' % 8) :
    inodeBlockOffset iid + 512 ≤ inodeBlockOffset iid' ∨
      inodeBlockOffset iid' + 512 ≤ inodeBlockOffset iid := by
  simp only [inodeBlockOffset, inodePerBlock, inodeSz]
  omega

/-- Inodes in the same place of the same block are the same inode. -/
theorem iid_eq (h : inodeIid2Bid iid = inodeIid2Bid iid') (h' : iid % 8 = iid' % 8) :
    iid = iid' := by
  simp only [inodeIid2Bid, inodeStart, inodePerBlock] at h
  omega

/-- Outside of the field that is set every byte stays. -/
theorem get_setDinodeHash {i : ℕ} (h : i ∉ dinodeHashField iid r) :
    (setDinodeHash d iid r hash).get i = d.get i := by
  refine Bytes.get_write_of_not_mem ?_
  simp only [dinodeHashField, Set.mem_ofPred_eq] at h
  omega

/-- The hash that is set is there. -/
theorem dinodeHash_setDinodeHash :
    dinodeHash (setDinodeHash d iid r hash) iid r = hash := by
  have hoff := inodeBlockOffset_le iid
  have hr := r.isLt
  exact Bytes.sub_put d hash (by omega)

/-- A hash that is set leaves the other hashes. -/
theorem dinodeHash_setDinodeHash_of_ne (h : iid % 8 ≠ iid' % 8 ∨ r ≠ r') :
    dinodeHash (setDinodeHash d iid r hash) iid' r' = dinodeHash d iid' r' := by
  have hr := r.isLt
  have hr' := r'.isLt
  refine Bytes.sub_write_of_disjoint ?_
  by_cases hiid : iid % 8 = iid' % 8
  · have hoff : inodeBlockOffset iid = inodeBlockOffset iid' := by
      simp only [inodeBlockOffset, inodePerBlock, hiid]
    have hne : r.val ≠ r'.val := fun heq => (h.resolve_left (· hiid)) (Fin.ext heq)
    omega
  · have hoff := inodeBlockOffset_apart hiid
    omega

/-- The first 92 bytes of an inode lie apart from every hash. -/
theorem dinodeField_apart {start len : ℕ} (h : start + len ≤ 92) :
    inodeBlockOffset iid' + start + len ≤ inodeBlockOffset iid + 92 + 32 * r ∨
      inodeBlockOffset iid + 92 + 32 * r + 32 ≤ inodeBlockOffset iid' + start := by
  have hr := r.isLt
  by_cases hiid : iid % 8 = iid' % 8
  · have hoff : inodeBlockOffset iid = inodeBlockOffset iid' := by
      simp only [inodeBlockOffset, inodePerBlock, hiid]
    omega
  · have hoff := inodeBlockOffset_apart hiid
    omega

/-- A hash that is set leaves the block numbers. -/
theorem dinodeBid_setDinodeHash :
    dinodeBid (setDinodeHash d iid r hash) iid' r' = dinodeBid d iid' r' := by
  have hr' := r'.isLt
  apply Bytes.getLE_write_of_disjoint
  rw [Nat.add_assoc (inodeBlockOffset iid') 8]
  exact dinodeField_apart (by omega)

/-- A hash that is set leaves the key. -/
theorem dinodeAesKey_setDinodeHash :
    dinodeAesKey (setDinodeHash d iid r hash) iid' = dinodeAesKey d iid' :=
  Bytes.sub_write_of_disjoint (dinodeField_apart (by decide))

/-- A hash that is set leaves the iv. -/
theorem dinodeAesIv_setDinodeHash :
    dinodeAesIv (setDinodeHash d iid r hash) iid' = dinodeAesIv d iid' :=
  Bytes.sub_write_of_disjoint (dinodeField_apart (by decide))

end

/-! ## Entries of index blocks -/

section

variable {d : Data} {i j : ℕ} {hash : Key256}

/-- Outside of the field that is set every byte stays. -/
theorem get_setIndexHash {b : ℕ} (h : b ∉ indexHashField i) :
    (setIndexHash d i hash).get b = d.get b := by
  refine Bytes.get_write_of_not_mem ?_
  simp only [indexHashField, Set.mem_ofPred_eq] at h
  omega

/-- The hash that is set is in its entry. -/
theorem indexAt_setIndexHash (hi : i < indexPerBlock) :
    indexAt (setIndexHash d i hash) i = ⟨(indexAt d i).bid, hash⟩ := by
  simp only [indexPerBlock] at hi
  simp only [indexAt, setIndexHash, indexSz, Index.mk.injEq]
  exact ⟨Bytes.getLE_write_of_disjoint (by omega), Bytes.sub_put d hash (by omega)⟩

/-- A hash that is set leaves the other entries. -/
theorem indexAt_setIndexHash_of_ne (h : i ≠ j) :
    indexAt (setIndexHash d i hash) j = indexAt d j := by
  simp only [indexAt, setIndexHash, indexSz, Index.mk.injEq]
  exact ⟨Bytes.getLE_write_of_disjoint (by omega), Bytes.sub_write_of_disjoint (by omega)⟩

/-- The block number that is set is in its entry. -/
theorem indexAt_setIndexBid (hi : i < indexPerBlock) {bid : ℕ} (hbid : bid < 2 ^ 32) :
    indexAt (setIndexBid d i bid) i = ⟨bid, (indexAt d i).hash⟩ := by
  simp only [indexPerBlock] at hi
  simp only [indexAt, setIndexBid, indexSz, Index.mk.injEq]
  refine ⟨?_, Bytes.sub_write_of_disjoint (by omega)⟩
  rw [Bytes.getLE_putLE _ _ (by omega)]
  exact Nat.mod_eq_of_lt (by simpa using hbid)

/-- A block number that is set leaves the other entries. -/
theorem indexAt_setIndexBid_of_ne (h : i ≠ j) (bid : ℕ) :
    indexAt (setIndexBid d i bid) j = indexAt d j := by
  simp only [indexAt, setIndexBid, indexSz, Index.mk.injEq]
  exact ⟨Bytes.getLE_write_of_disjoint (by omega), Bytes.sub_write_of_disjoint (by omega)⟩

/-- The entries of a block of zeros point at no block. -/
theorem indexAt_zero (i : ℕ) : indexAt Bytes.zero i = ⟨0, Bytes.zero⟩ := by
  simp only [indexAt, Bytes.getLE_zero, Bytes.sub_zero]

end

end Efs
