import Efs.InodeView

/-!
# Inodes in their blocks

The record of an inode: its fields without the pointer into its block. An inode that is
written into its block and loaded again has the same record, and the other inodes of the
block keep theirs.
-/

namespace Efs

open Library

/-- An inode without its pointer into a block. -/
def Inode.record (inode : Inode) : Inode := { inode with dip := 0 }

/-- The fields of an inode fit in those of `dinode_t`. -/
structure Inode.Fits (inode : Inode) : Prop where
  /-- `type` has two bytes. -/
  type_lt : inode.type < 2 ^ 16
  /-- `size` has four bytes. -/
  size_lt : inode.size < 2 ^ 32
  /-- Each `bid` has four bytes. -/
  bid_lt : ∀ r, inode.bid r < 2 ^ 32

section

variable {d : Data} {inode : Inode} {iid iid' : ℕ}

/-- What is loaded from a block fits in one. -/
theorem fits_loadInode (bp : ℕ) (d : Data) (iid : ℕ) : (loadInode bp d iid).Fits := by
  constructor
  · exact d.getLE_lt _ 2
  · exact d.getLE_lt _ 4
  · exact fun r => d.getLE_lt _ 4

/-- The root slot of the number of a root slot. -/
theorem rootSlot_eq (r : Fin 13) : rootSlot r = r := Fin.ofNat_val_eq_self r

/-- A write of an inode into its block is read back. -/
theorem loadInode_setDinode (h : inode.Fits) :
    loadInode 0 (setDinode d inode.iid inode.type inode.size inode.bid inode.aesKey inode.aesIv
      inode.hash) inode.iid = inode.record := by
  have hoff := inodeBlockOffset_le inode.iid
  have htype : dinodeType (setDinode d inode.iid inode.type inode.size inode.bid inode.aesKey
      inode.aesIv inode.hash) inode.iid = inode.type := by
    simp only [dinodeType, setDinode, Bytes.put]
    rw [Bytes.getLE_write_of_disjoint (by omega), Bytes.getLE_write_of_disjoint (by omega),
      Bytes.getLE_write_of_disjoint (by omega), Bytes.getLE_write_of_disjoint (by omega),
      Bytes.putLE, Bytes.getLE_write_of_disjoint (by omega), Bytes.getLE_putLE _ _ (by omega)]
    exact Nat.mod_eq_of_lt h.type_lt
  have hsize : dinodeSize (setDinode d inode.iid inode.type inode.size inode.bid inode.aesKey
      inode.aesIv inode.hash) inode.iid = inode.size := by
    simp only [dinodeSize, setDinode, Bytes.put]
    rw [Bytes.getLE_write_of_disjoint (by omega), Bytes.getLE_write_of_disjoint (by omega),
      Bytes.getLE_write_of_disjoint (by omega), Bytes.getLE_write_of_disjoint (by omega),
      Bytes.getLE_putLE _ _ (by omega)]
    exact Nat.mod_eq_of_lt h.size_lt
  have hbid : dinodeBid (setDinode d inode.iid inode.type inode.size inode.bid inode.aesKey
      inode.aesIv inode.hash) inode.iid = inode.bid := by
    funext r
    have hr := r.isLt
    simp only [dinodeBid, setDinode, Bytes.put]
    rw [Bytes.getLE_write_of_disjoint (by omega), Bytes.getLE_write_of_disjoint (by omega),
      Bytes.getLE_write_of_disjoint (by omega), Bytes.getLE_write_numbers _ _ (by omega) (by omega),
      rootSlot_eq]
    exact Nat.mod_eq_of_lt (h.bid_lt r)
  have hkey : dinodeAesKey (setDinode d inode.iid inode.type inode.size inode.bid inode.aesKey
      inode.aesIv inode.hash) inode.iid = inode.aesKey := by
    simp only [dinodeAesKey, setDinode]
    rw [Bytes.sub_write_of_disjoint (by omega), Bytes.put, Bytes.sub_write_of_disjoint (by omega),
      Bytes.sub_put _ _ (by omega)]
  have hiv : dinodeAesIv (setDinode d inode.iid inode.type inode.size inode.bid inode.aesKey
      inode.aesIv inode.hash) inode.iid = inode.aesIv := by
    simp only [dinodeAesIv, setDinode]
    rw [Bytes.sub_write_of_disjoint (by omega), Bytes.sub_put _ _ (by omega)]
  have hhash : dinodeHash (setDinode d inode.iid inode.type inode.size inode.bid inode.aesKey
      inode.aesIv inode.hash) inode.iid = inode.hash := by
    funext r
    have hr := r.isLt
    simp only [dinodeHash, setDinode]
    rw [Bytes.sub_write_buffers _ _ (by omega) (by omega), rootSlot_eq]
  simp only [loadInode, htype, hsize, hbid, hkey, hiv, hhash, Inode.record]

/-- The bytes of the other inodes of a block stay. -/
theorem get_setDinode_of_not_mem {type size : ℕ} {bid : Fin 13 → ℕ} {aesKey aesIv : Key128}
    {hash : Fin 13 → Key256} {i : ℕ}
    (h : i < inodeBlockOffset iid ∨ inodeBlockOffset iid + 508 ≤ i) :
    (setDinode d iid type size bid aesKey aesIv hash).get i = d.get i := by
  simp only [setDinode, Bytes.put, Bytes.putLE]
  rw [Bytes.get_write_of_not_mem (by omega), Bytes.get_write_of_not_mem (by omega),
    Bytes.get_write_of_not_mem (by omega), Bytes.get_write_of_not_mem (by omega),
    Bytes.get_write_of_not_mem (by omega), Bytes.get_write_of_not_mem (by omega)]

/-- Blocks with the same bytes of an inode hold the same record. -/
theorem loadInode_congr {d' : Data} {bp : ℕ}
    (h : ∀ i, inodeBlockOffset iid ≤ i → i < inodeBlockOffset iid + 508 → d'.get i = d.get i) :
    loadInode bp d' iid = loadInode bp d iid := by
  have hnum : ∀ off len, off + len ≤ 508 → d'.getLE (inodeBlockOffset iid + off) len =
      d.getLE (inodeBlockOffset iid + off) len := fun off len hle =>
    Bytes.getLE_congr fun k hk => h _ (by omega) (by omega)
  have hsub : ∀ off len, off + len ≤ 508 → d'.sub (inodeBlockOffset iid + off) len =
      d.sub (inodeBlockOffset iid + off) len := fun off len hle => by
    apply Bytes.ext_get
    intro k hk
    rw [Bytes.get_sub, Bytes.get_sub, if_pos hk, if_pos hk, h _ (by omega) (by omega)]
  have htype : dinodeType d' iid = dinodeType d iid := by
    have htype := hnum 0 2 (by omega)
    rwa [Nat.add_zero] at htype
  have hsize : dinodeSize d' iid = dinodeSize d iid := hnum 4 4 (by omega)
  have hbid : dinodeBid d' iid = dinodeBid d iid := by
    funext r
    have hr := r.isLt
    have hbid := hnum (8 + 4 * r) 4 (by omega)
    rwa [← Nat.add_assoc] at hbid
  have hkey : dinodeAesKey d' iid = dinodeAesKey d iid := hsub 60 16 (by omega)
  have hiv : dinodeAesIv d' iid = dinodeAesIv d iid := hsub 76 16 (by omega)
  have hhash : dinodeHash d' iid = dinodeHash d iid := by
    funext r
    have hr := r.isLt
    have hhash := hsub (92 + 32 * r) 32 (by omega)
    rwa [← Nat.add_assoc] at hhash
  simp only [loadInode, htype, hsize, hbid, hkey, hiv, hhash]

/-- A write of an inode leaves the other inodes of its block alone. -/
theorem loadInode_setDinode_of_ne {type size bp : ℕ} {bid : Fin 13 → ℕ} {aesKey aesIv : Key128}
    {hash : Fin 13 → Key256} (h : iid % 8 ≠ iid' % 8) :
    loadInode bp (setDinode d iid type size bid aesKey aesIv hash) iid' = loadInode bp d iid' := by
  have hapart := inodeBlockOffset_apart h
  refine loadInode_congr fun i hle hlt => get_setDinode_of_not_mem ?_
  omega

end

end Efs
