import Efs.VolumeFlush

/-!
# What the disk has of a volume

After the flush of the caches the cascade of `block_exit` sets the hashes. Then the disk has the
inodes, the trees and the files as the caches showed them, and every slot has the hash of its block.
What comes after this writes only metadata blocks and keeps their plaintexts.
-/

namespace Efs

open Library

/-- The disk of `d` has the volume of `s`, and its hashes are right. -/
structure Saved (w : World) (live : Finset ℕ) (s d : Sys) : Prop where
  /-- The inodes, but for the hashes in them. -/
  record : ∀ iid ∈ live, ∃ hash, loadInode 0 (d.inodePlain w iid) iid = { s.record iid with hash }
  /-- The trees have the same places. -/
  live_iff : ∀ r ks, (d.onDisk w live).Live treeShape r ks ↔ (s.spread live).Live r ks
  /-- The same blocks are there. -/
  block : ∀ r ks, (s.spread live).Live r ks →
    (d.onDisk w live).block treeShape r ks = (s.spread live).blockAt r ks
  /-- Each slot has the hash of its block. -/
  hashed : ∀ r ks, (s.spread live).Live r ks → Hashed w live d r ks
  /-- The data of the files. -/
  leaf : ∀ r ks, (s.spread live).Live r ks → IsLeaf r ks →
    d.plain w r.1 ((s.spread live).blockAt r ks) = (s.spot ((s.spread live).blockAt r ks)).data
  /-- The data bitmap. -/
  bitmap : ∀ b ∈ bitmapBlocks, d.metaPlain w b = (s.spot b).data

section

variable {w : World} {E : Halt → Prop} {live : Finset ℕ} {s t d d' : Sys} {r : RootSlot}
  {ks : List ℕ} {iid : ℕ}
  {γ : Type} {f : Sys → γ}

/-! ## The inodes -/

/-- Blocks that differ only in hashes of their inodes hold the same records, but for the hashes. -/
theorem loadInode_of_hashes {v v' : Data}
    (h : ∀ i, (∀ iid' (slot : Fin 13), i ∉ dinodeHashField iid' slot) → v'.get i = v.get i) :
    loadInode 0 v' iid = { loadInode 0 v iid with hash := dinodeHash v' iid } := by
  -- the hashes are the last field of `dinode_t`
  have hget : ∀ k < 92, v'.get (inodeBlockOffset iid + k) = v.get (inodeBlockOffset iid + k) := by
    intro k hk
    apply h
    intro iid' slot hmem
    obtain ⟨hle, hlt⟩ := hmem
    have hslot := slot.isLt
    simp only [inodeBlockOffset, inodeSz, inodePerBlock] at hle hlt
    omega
  have hnum : ∀ off len, off + len ≤ 92 → v'.getLE (inodeBlockOffset iid + off) len =
      v.getLE (inodeBlockOffset iid + off) len := by
    intro off len hle
    apply Bytes.getLE_congr
    intro k hk
    rw [Nat.add_assoc]
    exact hget (off + k) (by omega)
  have hsub : ∀ off, off + 16 ≤ 92 → v'.sub (inodeBlockOffset iid + off) 16 =
      v.sub (inodeBlockOffset iid + off) 16 := by
    intro off hle
    apply Bytes.ext_get
    intro k hk
    rw [Bytes.get_sub, Bytes.get_sub, if_pos hk, if_pos hk, Nat.add_assoc]
    exact hget (off + k) (by omega)
  have htype : dinodeType v' iid = dinodeType v iid := by
    have hfield := hnum 0 2 (by omega)
    rwa [Nat.add_zero] at hfield
  have hsize : dinodeSize v' iid = dinodeSize v iid := hnum 4 4 (by omega)
  have hbid : dinodeBid v' iid = dinodeBid v iid := by
    funext slot
    have hslot := slot.isLt
    have hfield := hnum (8 + 4 * slot) 4 (by omega)
    rwa [← Nat.add_assoc] at hfield
  have hkey : dinodeAesKey v' iid = dinodeAesKey v iid := hsub 60 (by omega)
  have hiv : dinodeAesIv v' iid = dinodeAesIv v iid := hsub 76 (by omega)
  simp only [loadInode, htype, hsize, hbid, hkey, hiv]

/-! ## The cascade -/

/-- The cascade leaves the volume of `s` on the disk. -/
theorem Flushed.saved (hw : w.Reliable) (h : s.Sound w live) (hf : Flushed w s t)
    (honly : OnlyHashes w live t d)
    (hhashed : ∀ r ks, (d.onDisk w live).Live treeShape r ks → Hashed w live d r ks) :
      Saved w live s d := by
  have hlive : ∀ r ks, (d.onDisk w live).Live treeShape r ks ↔ (s.spread live).Live r ks := by
    intro r ks
    rw [honly.live_iff, hf.live_iff hw h]
  have hblock : ∀ r ks, (s.spread live).Live r ks →
      (d.onDisk w live).block treeShape r ks = (s.spread live).blockAt r ks := by
    intro r ks hl
    rw [honly.block r ks ((hf.live_iff hw h).mpr hl), hf.block_eq hw h hl]
  constructor
  · intro iid hiid
    refine ⟨dinodeHash (d.inodePlain w iid) iid, ?_⟩
    rw [← hf.record iid (h.lt iid hiid)]
    apply loadInode_of_hashes
    intro i hi
    apply honly.inode iid hiid
    rintro ⟨r, _, _, hmem⟩
    exact hi r.1 r.2 hmem
  · exact hlive
  · exact hblock
  · intro r ks hl
    exact hhashed r ks ((hlive r ks).mpr hl)
  · intro r ks hl hleaf
    have hl' := (hf.live_iff hw h).mpr hl
    have hplain : d.plain w r.1 ((t.onDisk w live).block treeShape r ks) =
        t.plain w r.1 ((t.onDisk w live).block treeShape r ks) := by
      apply Bytes.ext_get
      intro i _
      apply honly.tree r ks hl'
      -- a block of a file has no slots
      rintro ⟨k, hchild, _⟩
      exact absurd hleaf hchild.2.1.ne
    rw [hf.block_eq hw h hl] at hplain
    rw [hplain, (hf.tree_eq hw h hl).1]
  · intro b hb
    have hdisk : d.disk b = t.disk b := by
      apply honly.other b
      · intro iid hiid heq
        have hmem := inodeIid2Bid_mem (h.lt iid hiid)
        rw [← heq] at hmem
        exact absurd (hmem.2.trans_le hb.1) (lt_irrefl _)
      · intro r ks hl heq
        have hl' := (hf.live_iff hw h).mp hl
        rw [hf.block_eq hw h hl'] at heq
        have hle := h.dataStart_le hl'
        rw [← heq] at hle
        exact absurd (hb.2.trans_le hle) (lt_irrefl _)
    rw [Sys.metaPlain, honly.sb, hdisk]
    exact hf.bitmap b hb

/-- A block is read around the cache. -/
theorem OffDisk.bgetSimple (hf : OffDisk f) (bid : ℕ) (iv key : Key128) :
    Exec.Keeps f (bgetSimple w bid iv key) := by
  apply (hf.diskRead bid).bind
  intro data
  cases data with
  | none => exact .pure _
  | some data => exact hf.aes128BlockDecrypt iv key data

/-- A block is written around the cache. -/
theorem OffDisk.breturnSimple (hf : OffDisk f) (bid : ℕ) (data : Data) (iv key : Key128) :
    Exec.Keeps f (breturnSimple w bid data iv key) := by
  apply (hf.aes128BlockEncrypt iv key data).bind
  intro data
  cases data with
  | none => exact .pure _
  | some data => exact hf.diskWrite data bid

/-- The hashes in the index blocks above a block are set around the cache. -/
theorem OffDisk.rehashIndexes (hf : OffDisk f) (idata : Data) (h : HashIdx) (i : ℕ)
    (hash : Key256) :
    Exec.Keeps f (rehashIndexes w idata h i hash) := by
  induction i generalizing hash with
  | zero => exact .pure _
  | succ i ih =>
    apply (hf.bgetSimple _ _ _).bind
    intro data
    cases data with
    | none => exact .pure _
    | some data =>
      apply (hf.sha256Block _).bind
      intro hash
      cases hash with
      | none => exact .pure _
      | some hash =>
        apply (hf.breturnSimple _ _ _ _).bind
        intro failed
        exact .ite (.pure _) (ih hash)

/-- An entry of `pd_wb` is written back around the cache. -/
theorem OffDisk.writeBackEntry (hf : OffDisk f) (node : PdWbNode) :
    Exec.Keeps f (writeBackEntry w node) := by
  apply (Exec.Keeps.read _).bind
  intro sb
  apply (hf.bgetSimple _ _ _).bind
  intro idata
  cases idata with
  | none => exact .pure _
  | some idata =>
    apply (hf.rehashIndexes _ _ _ _).bind
    intro hash
    cases hash with
    | none => exact .pure _
    | some hash => exact hf.breturnSimple _ _ _ _

/-- All entries are written back around the cache. -/
theorem OffDisk.writeBackEntries (hf : OffDisk f) (l : List (ℕ × PdWbNode)) :
    Exec.Keeps f (writeBackEntries w l) := by
  induction l with
  | nil => exact .pure _
  | cons e rest ih =>
    apply (hf.writeBackEntry _).bind
    intro failed
    exact .ite (.pure _) ih

/-- Entries are taken out of `pd_wb`. -/
theorem OffDisk.dropAncestors (hf : OffDisk f) (l : List (ℕ × Unit)) :
    Exec.Keeps f (dropAncestors l) := by
  induction l with
  | nil => exact .pure _
  | cons e rest ih =>
    apply (hf.pdWbDelete _).bind
    intro _
    exact ih

/-- The cascade touches only the disk and `pd_wb`. -/
theorem OffDisk.blockExitCascade (hf : OffDisk f) : Exec.Keeps f (blockExitCascade w) := by
  apply (Exec.Keeps.read _).bind
  intro pdWb
  apply (hf.dropAncestors _).bind
  intro _
  apply (Exec.Keeps.read _).bind
  intro pdWb
  exact hf.writeBackEntries _

/-- The rule for `inode_exit` and `block_exit`: the disk has the volume. -/
theorem wp_saveVolume (hw : w.Reliable) (h : s.Sound w live) (hchained : s.Chained live)
    {Q : Bool → Sys → Prop} (hQ : ∀ d, Saved w live s d → d.ibm = s.ibm → Q false d) :
    Exec.Wp (inodeExit w) (fun _ s₁ => Exec.Wp (blockExit w) Q E s₁) E s := by
  have hflush : Exec.Wp (storeExit w) (fun _ t => Exec.Wp (blockExitCascade w) Q E t) E s := by
    apply wp_flush hw h.stored h.full
    intro t hf
    have hcascade := exit_cascade w hw.fails_eq hw.decrypt_encrypt live t
      (hf.pendingOk hw h hchained)
    have hrule : Exec.Wp (blockExitCascade w) _ E t :=
      hcascade.mono (fun _ _ h => h) fun _ hfalse => hfalse.elim
    apply Exec.Wp.keeping (f := Sys.ibm) offData_ibm.aside.offDisk.blockExitCascade
    apply hrule.imp
    rintro failed d ⟨rfl, honly, hhashed⟩ hibm
    exact hQ d (hf.saved hw h honly hhashed) (hibm.trans hf.sb_eq.2.2.2)
  apply (Exec.wp_bind.mp hflush).imp
  intro _ s₁ hexit
  apply Exec.wp_bind.mpr
  exact hexit

/-! ## What comes after -/

/-- The trees on two disks that have the same plaintexts. -/
theorem Saved.congr (hs : s.Sound w live) (h : Saved w live s d)
    (hmeta : ∀ b, inodeStart ≤ b → b < dataStart → d'.metaPlain w b = d.metaPlain w b)
    (hdata : ∀ b, dataStart ≤ b → d'.disk b = d.disk b) : Saved w live s d' := by
  have hinode : ∀ iid ∈ live, d'.inodePlain w iid = d.inodePlain w iid := by
    intro iid hiid
    obtain ⟨hle, hlt⟩ := inodeIid2Bid_mem (hs.lt iid hiid)
    exact hmeta _ hle (hlt.trans (by decide))
  have hplain : ∀ r ks, (s.spread live).Live r ks → d'.plain w r.1 ((s.spread live).blockAt r ks) =
      d.plain w r.1 ((s.spread live).blockAt r ks) := by
    intro r ks hl
    rw [Sys.plain, hinode r.1 hl.mem_live, hdata _ (hs.dataStart_le hl)]
    rfl
  have hagree : ∀ r, (d.onDisk w live).AgreeAt treeShape (d'.onDisk w live) r := by
    intro r
    constructor
    · exact Iff.rfl
    · intro hr
      have hiid : r.1 ∈ live := hr
      simp only [Sys.onDisk, hinode r.1 hiid]
    · intro ks k hl _
      have hl' := (h.live_iff r ks).mp hl
      rw [h.block r ks hl']
      exact congrArg (indexAt · k) (hplain r ks hl')
  have hslot : ∀ r ks, (s.spread live).Live r ks →
      (d'.onDisk w live).slot treeShape r ks = (d.onDisk w live).slot treeShape r ks := by
    intro r ks hl
    exact (hagree r).live_iff.2 ((h.live_iff r ks).mpr hl)
  have hblock : ∀ r ks, (s.spread live).Live r ks →
      (d'.onDisk w live).block treeShape r ks = (s.spread live).blockAt r ks := by
    intro r ks hl
    rw [← h.block r ks hl]
    exact congrArg treeShape.target (hslot r ks hl)
  constructor
  · intro iid hiid
    rw [hinode iid hiid]
    exact h.record iid hiid
  · intro r ks
    rw [(hagree r).live_iff.1, h.live_iff]
  · exact hblock
  · intro r ks hl
    have hhashed := h.hashed r ks hl
    rw [Hashed, h.block r ks hl] at hhashed
    rw [Hashed, hslot r ks hl, hblock r ks hl, hplain r ks hl, hhashed]
  · intro r ks hl hleaf
    rw [hplain r ks hl, h.leaf r ks hl hleaf]
  · intro b hb
    rw [hmeta b (le_trans (by decide) hb.1) hb.2, h.bitmap b hb]

end

end Efs
