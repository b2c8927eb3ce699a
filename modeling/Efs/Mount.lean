import Efs.CacheRemount
import Efs.ExitCascade
import Efs.FileRuns
import Efs.Formatting
import Efs.SuperblockExit

/-!
# Mounting

`efs_init` and `efs_exit`. A mount begins with the memory of a new process, in which everything is
zero, and a disk. On a disk that can be mounted it gives empty caches, the superblock and the inode
bitmap. On the image of `mkfs` the file system is then that of one empty directory.

The plaintexts that the disk holds are no part of the program: a mount is given those that the
ciphertexts decrypt to.
-/

namespace Efs

open Library

section

variable (w : World) (sha256Sb : SbData → Key256)

/-- `security_init`, true when it fails. What it computes is in the world. -/
def securityInit : Exec Halt Sys Bool := do
  if ← external w then return true
  external w

/-- `disk_init`, true when it fails. -/
def diskInit : Exec Halt Sys Bool := external w

/-- `disk_exit`, true when it fails. -/
def diskExit : Exec Halt Sys Bool := external w

/-- `block_init`, which does not fail. -/
def blockInit : Exec Halt Sys Unit :=
  Exec.update fun s => { s with bcac := s.bcac.init, pdWb := .empty }

/-- `inode_init`, which does not fail. -/
def inodeInit : Exec Halt Sys Unit := Exec.update fun s => { s with icac := s.icac.init }

/-- `file_init`, which does not fail. -/
def fileInit : Exec Halt Fs Unit := Exec.update fun s => { s with fset := [], pathset := .init }

/-- `efs_init`, true when it fails. -/
def efsInit (iv key : Key128) (expHash : Key256) : Exec Halt Fs Bool := do
  if ← onSys (securityInit w) then return true
  if ← onSys (diskInit w) then return true
  if ← onSys (sbInit w sha256Sb iv key expHash) then return true
  if ← onSys (bitmapInit w) then return true
  onSys blockInit
  onSys inodeInit
  fileInit
  return false

/-- `efs_exit`: the hash of the superblock, `none` when it fails. `security_exit` does nothing. -/
def efsExit (iv key : Key128) : Exec Halt Fs (Option Key256) := do
  if ← fileExit w then return none
  onSys (inodeExit w)
  if ← onSys (blockExit w) then return none
  if ← onSys (bitmapExit w) then return none
  match ← onSys (sbExit w sha256Sb iv key) with
  | none => return none
  | some hash =>
    if ← onSys (diskExit w) then return none
    return some hash

end

/-- A new process: the disk with the plaintexts `evicted` of its blocks, and zeros in the memory.
The world goes on where it was. -/
def Fs.boot (disk evicted : ℕ → Data) (calls keys : ℕ) : Fs where
  sys := { Sys.blank with
    disk
    sb := ⟨0, 0, 0, fun _ => Bytes.zero, fun _ => Bytes.zero, fun _ => Bytes.zero⟩
    calls
    keys
    evicted }
  files _ := none
  nextFp := 0
  fset := []
  pathset := ⟨fun _ => none, 0, 0⟩

/-- The state after a mount. -/
def Fs.mounted (disk evicted : ℕ → Data) (sb : Superblock) (ibm : Data) (calls keys : ℕ) : Fs where
  sys := { Sys.blank with
    disk
    sb
    ibm := ⟨ibm, 0, false⟩
    calls
    keys
    evicted }
  files _ := none
  nextFp := 0
  fset := []
  pathset := .init

section

variable {w : World} {sha256Sb : SbData → Key256} {E : Halt → Prop} {iv key : Key128}
  {hash : Key256}
  {disk evicted plain : ℕ → Data} {sb : Superblock} {calls keys : ℕ} {fs : Fs}

/-- The rule for a call of the inode layer. -/
theorem wp_onSys {α : Type} {x : Exec Halt Sys α} {Q : α → Fs → Prop}
    (h : Exec.Wp x (fun r sys => Q r { fs with sys }) E fs.sys) : Exec.Wp (onSys x) Q E fs :=
  Exec.wp_zoom.mpr h

/-- The rule for `efs_init` in a new process with a disk that can be mounted. -/
theorem wp_efsInit (hw : w.NoFailure) (hdec : ∀ iv key d, w.decrypt iv key (w.encrypt iv key d) = d)
    (h : Mountable w sha256Sb iv key hash disk sb plain) {Q : Bool → Fs → Prop}
    (hQ : ∀ calls, Q false (.mounted disk evicted (sbLoad (sbStore sb))
      (plain inodeBitmapStart) calls keys)) :
    Exec.Wp (efsInit w sha256Sb iv key hash) Q E (.boot disk evicted calls keys) := by
  have hblock := h.block inodeBitmapStart (Nat.le_refl _) (by decide)
  obtain ⟨hkey, hiv, hhash⟩ := (sbLoad_sbStore h.fits).block inodeBitmapStart (Nat.le_refl _)
    (by decide)
  have hplain : w.decrypt ((sbLoad (sbStore sb)).aesIv inodeBitmapStart)
    ((sbLoad (sbStore sb)).aesKey inodeBitmapStart)
      (disk inodeBitmapStart) = plain inodeBitmapStart := by
    rw [hkey, hiv, hblock.1, hdec]
  apply Exec.wp_bind.mpr
  apply wp_onSys
  apply Exec.wp_bind.mpr
  apply wp_external hw
  intro calls₁
  apply wp_external hw
  intro calls₂
  apply Exec.wp_bind.mpr
  apply wp_onSys
  apply wp_external hw
  intro calls₃
  apply Exec.wp_bind.mpr
  apply wp_onSys
  apply wp_sbInit hw hdec h
  intro calls₄
  apply Exec.wp_bind.mpr
  apply wp_onSys
  apply wp_bitmapInit hw
  · change w.sha256 (w.decrypt _ _ (disk inodeBitmapStart)) =
      (sbLoad (sbStore sb)).hash inodeBitmapStart
    rw [hplain, hhash, hblock.2]
  intro calls₅
  have hmeta : Sys.metaPlain w
      { Sys.blank with disk, sb := sbLoad (sbStore sb), calls := calls₄, keys, evicted }
      inodeBitmapStart = plain inodeBitmapStart := hplain
  have hfinal := hQ calls₅
  rw [← hmeta] at hfinal
  exact hfinal

/-! ## Volumes at rest -/

/-- The caches are empty, and the trees are as the disk has them. -/
structure Sys.Resting (w : World) (live : Finset ℕ) (s : Sys) : Prop where
  /-- No block is cached. -/
  bcac : s.bcac = .empty
  /-- No inode is cached. -/
  icac : s.icac = .empty
  /-- No hash is pending. -/
  pdWb : s.pdWb = .empty
  /-- The metadata blocks have their plaintexts and hashes. -/
  metadata : ∀ bid, inodeStart ≤ bid → bid < dataStart →
    s.metaPlain w bid = s.evicted bid ∧ w.sha256 (s.evicted bid) = s.sb.hash bid
  /-- The numbers are those of the layout. -/
  lt : ∀ iid ∈ live, iid < 32768
  /-- No block is in two places. -/
  disjoint : (s.spread live).forest.Disjoint treeShape
  /-- The bitmap shows the blocks of the trees as used. -/
  used : ∀ r ks, (s.spread live).Live r ks → s.UsedBlock ((s.spread live).blockAt r ks)
  /-- The blocks of the trees have their plaintexts and hashes. -/
  tree : ∀ r ks, (s.spread live).Live r ks →
    w.decrypt (s.record r.1).aesIv (s.record r.1).aesKey (s.disk ((s.spread live).blockAt r ks)) =
        s.evicted ((s.spread live).blockAt r ks) ∧
      w.sha256 (s.evicted ((s.spread live).blockAt r ks)) = ((s.spread live).slotAt r ks).hash
  /-- Every part below the size has a block. -/
  parts : ∀ iid i, i * blkSz < (s.spread live).fileSize iid → (s.spread live).HasPart iid i

/-- The spot of a block when nothing is cached. -/
theorem Sys.spot_of_empty {s : Sys} (hbcac : s.bcac = .empty) (hpdWb : s.pdWb = .empty) (bid : ℕ) :
    s.spot bid = ⟨none, s.evicted bid, none, s.disk bid, s.sb.hash bid⟩ := by
  rw [Sys.spot, hbcac, hpdWb]
  rfl

/-- A volume at rest is sound. -/
theorem Sys.Resting.sound {s : Sys} {live : Finset ℕ} (h : s.Resting w live) : s.Sound w live := by
  have hspot := spot_of_empty h.bcac h.pdWb
  have hnode : ∀ iid, s.icac.node iid = none := by
    rw [h.icac]
    exact fun _ => rfl
  have hinode : ∀ iid, s.inodeOf iid = none := fun iid => by
    rw [Sys.inodeOf, hnode]
    rfl
  refine ⟨⟨?_, ⟨?_, fun bid n hn => ?_⟩, fun bid hle hlt => ?_, fun iid n inode hn _ => ?_,
    fun bid _ _ => ?_⟩,
    fun iid n hn => ?_, h.lt, h.disjoint, h.used, fun r ks hlive => ?_, fun did _ _ => ?_, ?_,
      h.parts⟩
  · rw [h.icac]
    exact .empty
  · rw [h.bcac]
    exact .empty
  · rw [h.bcac] at hn
    cases hn
  · obtain ⟨hplain, hhash⟩ := h.metadata bid hle hlt
    rw [hspot]
    refine ⟨Or.inr ⟨rfl, hhash⟩, Or.inr hplain, fun block hblock => ?_, fun n hn => ?_⟩
    · cases hblock
    · cases hn
  · rw [hnode] at hn
    cases hn
  · have hpinned : s.pinned bid = ∅ := by
      apply Finset.filter_false_of_mem
      intro k _
      rw [hinode]
      exact Bool.false_ne_true
    rw [hspot, hpinned]
    rfl
  · rw [hnode] at hn
    cases hn
  · obtain ⟨hplain, hhash⟩ := h.tree r ks hlive
    rw [hspot]
    refine ⟨Or.inr ⟨rfl, hhash⟩, fun _ => Or.inr hplain, fun hraw => hraw.elim,
      fun block hblock => ?_, fun n hn => ?_⟩
    · cases hblock
    · cases hn
  · rw [hspot]
    exact ⟨rfl, rfl⟩
  · rw [hspot]

/-- What was mounted has nothing open. -/
theorem Fs.mounted_of_resting {ibm : Data} {live : Finset ℕ}
    (h : (Fs.mounted disk evicted sb ibm calls keys).sys.VolumeOk w live)
    (hused : (Fs.mounted disk evicted sb ibm calls keys).sys.ibm.used = live) :
    (Fs.mounted disk evicted sb ibm calls keys).Mounted w := by
  refine ⟨?_, fun i n hn => (by cases hn), rfl, rfl, rfl⟩
  rw [InodeBitmap.inUse_eq hused]
  exact h

/-! ## The formatted volume -/

/-- The record of the root inode that `mkfs` makes. -/
theorem loadInode_mkfsRoot {rootIv rootKey : Key128} :
    (loadInode 0 (mkfsRoot rootIv rootKey) 0).type = inodeTpDir ∧
      (loadInode 0 (mkfsRoot rootIv rootKey) 0).size = 0 ∧
      ∀ slot, (loadInode 0 (mkfsRoot rootIv rootKey) 0).bid slot = 0 := by
  have hoff : inodeBlockOffset 0 = 0 := rfl
  have hzero : ∀ {off n}, off + n ≤ 60 → (mkfsRoot rootIv rootKey).getLE off n = 0 := by
    intro off n hle
    have hfields : ∀ v : Data,
        ((v.put (inodeBlockOffset 0 + 76) rootIv).put (inodeBlockOffset 0 + 60) rootKey).getLE
          off n = v.getLE off n := by
      intro v
      rw [hoff, Bytes.put, Bytes.getLE_write_of_disjoint (by omega), Bytes.put,
        Bytes.getLE_write_of_disjoint (by omega)]
    have hstore : ∀ off n, (Bytes.zero : Data).putLE off n 0 = Bytes.zero := by
      intro off n
      apply Bytes.ext_get
      intro i _
      rw [Bytes.putLE, Bytes.get_write, Nat.zero_div, Bytes.get_zero]
      exact ite_self _
    rw [mkfsRoot, hfields, inodeTpDir, hstore, hstore, Bytes.getLE_zero]
  refine ⟨hzero (by omega), hzero (by omega), fun slot => hzero ?_⟩
  have hslot := slot.isLt
  omega

/-- The inode bitmap that `mkfs` makes. -/
theorem used_mkfsIbm {hint : ℕ} {lock : Bool} : (InodeBitmap.mk mkfsIbm hint lock).used = {0} := by
  have hword : word64 Bytes.zero 0 = 0#64 := by
    rw [word64, Bytes.getLE_zero]
  have hibm : freshVolume.ibm.ibm = mkfsIbm := by
    change markWord Bytes.zero 0 63 = mkfsIbm
    rw [markWord, hword, BitVec.zero_or]
    rfl
  rw [← freshVolume_used, InodeBitmap.used, InodeBitmap.used, hibm]

/-- An inode without blocks has no tree. -/
theorem not_live_of_bid {s : Sys} {r : RootSlot} {ks : List ℕ}
    (hbid : ∀ slot, (s.record 0).bid slot = 0) :
    ¬(s.spread {0}).Live r ks := by
  intro hlive
  apply (hlive.of_suffix List.nil_suffix).block_ne
  change ((s.spread {0}).forest.root r).bid = 0
  rw [root_spread hlive.mem_live, Finset.mem_singleton.mp hlive.mem_live]
  exact hbid _

/-- A file system that is an empty directory. -/
def Files.empty : Files where
  nodes := {0}
  tree := ⟨fun i => i = 0, fun _ _ => none⟩
  content _ := []
  handles _ := none

/-- A volume with an empty root and nothing else is mounted, and is seen as an empty directory. -/
theorem Fs.mounted_of_emptyRoot {ibm : Data}
    (hmeta : ∀ bid, inodeStart ≤ bid → bid < dataStart →
      w.decrypt (sb.aesIv bid) (sb.aesKey bid) (disk bid) = evicted bid ∧
        w.sha256 (evicted bid) = sb.hash bid)
    (hroot : sb.rootinode = 0) (hused : (InodeBitmap.mk ibm 0 false).used = {0})
    (hrecord : (loadInode 0 (evicted inodeStart) 0).type = inodeTpDir ∧
      (loadInode 0 (evicted inodeStart) 0).size = 0 ∧
        ∀ slot, (loadInode 0 (evicted inodeStart) 0).bid slot = 0) :
    (Fs.mounted disk evicted sb ibm calls keys).Mounted w ∧
      (Fs.mounted disk evicted sb ibm calls keys).view = .empty := by
  obtain ⟨htype, hsize, hbid⟩ := hrecord
  have hmem : 0 ∈ ({0} : Finset ℕ) := Finset.mem_singleton_self 0
  have hparts : ∀ iid i, i * blkSz < ((Fs.mounted disk evicted sb ibm calls keys).sys.spread
    {0}).fileSize iid →
      ((Fs.mounted disk evicted sb ibm calls keys).sys.spread {0}).HasPart iid i := by
    intro iid i hi
    rw [fileSize_spread] at hi
    split_ifs at hi with hiid
    · rw [Finset.mem_singleton.mp hiid] at hi
      exact absurd (hi.trans_eq hsize) (Nat.not_lt_zero _)
    · exact absurd hi (Nat.not_lt_zero _)
  have hlive : ∀ r ks, ¬((Fs.mounted disk evicted sb ibm calls keys).sys.spread {0}).Live r ks :=
    fun r ks => not_live_of_bid hbid
  have hresting : (Fs.mounted disk evicted sb ibm calls keys).sys.Resting w {0} := by
    refine ⟨rfl, rfl, rfl, hmeta, fun iid hiid => ?_, fun r ks _ _ h => absurd h (hlive r ks),
      fun r ks h => absurd h (hlive r ks), fun r ks h => absurd h (hlive r ks), hparts⟩
    rw [Finset.mem_singleton.mp hiid]
    decide
  have hfile : ((Fs.mounted disk evicted sb ibm calls keys).sys.spread {0}).file 0 = [] := by
    apply List.eq_nil_of_length_eq_zero
    rw [length_file, fileSize_spread, if_pos hmem]
    exact hsize
  have hdir : ∀ d, ((Fs.mounted disk evicted sb ibm calls keys).sys.tree {0}).isDir d ↔ d = 0 := by
    intro d
    constructor
    · intro hd
      exact Finset.mem_singleton.mp hd.1
    · rintro rfl
      exact ⟨hmem, htype⟩
  have hok : (Fs.mounted disk evicted sb ibm calls keys).sys.VolumeOk w {0} := by
    refine ⟨⟨hresting.sound, fun _ h => absurd rfl h, hroot, (hdir 0).mpr rfl, fun i hi => ?_,
      fun i hi => ?_,
      .of_hint rfl rfl, fun d hd => ?_⟩, fun _ _ hn => by cases hn⟩
    · rw [Finset.mem_singleton.mp hi]
      exact Or.inl htype
    · change i ∈ (InodeBitmap.mk ibm 0 false).used
      rw [hused]
      exact Finset.mem_singleton.mp hi
    · rw [(hdir d).mp hd]
      exact goodDir_of_file_nil hfile hmem
  refine ⟨Fs.mounted_of_resting hok (hused.trans (Finset.coe_singleton 0).symm), ?_⟩
  have hnodes : (Fs.mounted disk evicted sb ibm calls keys).sys.ibm.inUse = {0} := by
    apply InodeBitmap.inUse_eq
    rw [Finset.coe_singleton]
    exact hused
  apply FileSystem.ext
  · exact hnodes
  · change ((Fs.mounted disk evicted sb ibm calls keys).sys.tree _).trim = _
    rw [hnodes]
    refine congrArg₂ NameTree.mk (funext fun d => propext (hdir d))
      (funext fun d => funext fun name => ?_)
    split_ifs with hd
    · rw [child_tree, (hdir d).mp hd, Sys.entries, hfile]
      rfl
    · rfl
  · funext i
    change (Fs.mounted disk evicted sb ibm calls keys).sys.contentOf _ i = []
    rw [hnodes, Sys.contentOf]
    split_ifs with hi
    · rfl
    · apply file_eq_nil
      rw [Finset.mem_singleton]
      exact fun heq => hi ((hdir i).mpr heq)
  · rfl

/-- A mount of the image of an empty volume. -/
theorem wp_efsInit_blank (hw : w.Reliable) {rootIv rootKey : Key128} (hblank : sb.Blank)
    (h : Mountable w sha256Sb iv key hash disk sb (mkfsPlain rootIv rootKey)) :
    Exec.Wp (efsInit w sha256Sb iv key hash)
      (fun failed fs => failed = false ∧ fs.Mounted w ∧ fs.view = .empty) E
      (.boot disk (mkfsPlain rootIv rootKey) calls keys) := by
  apply wp_efsInit hw.fails_eq hw.decrypt_encrypt h
  intro calls
  refine ⟨rfl, Fs.mounted_of_emptyRoot (fun bid hle hlt => ?_) ?_ used_mkfsIbm loadInode_mkfsRoot⟩
  · have hmem : inodeBitmapStart ≤ bid := le_trans (by decide) hle
    obtain ⟨hkey, hiv, hhash⟩ := (sbLoad_sbStore h.fits).block bid hmem hlt
    obtain ⟨hdisk, hblock⟩ := h.block bid hmem hlt
    rw [hkey, hiv, hhash, hdisk, hblock]
    exact ⟨hw.decrypt_encrypt _ _ _, rfl⟩
  · exact (sbLoad_sbStore h.fits).rootinode.trans hblank.2.2

/-- What `mkfs` writes is mounted, with the hash that it gives, as the file system that is an empty
directory. -/
theorem mkfs_mounts (hw : w.Reliable) (sha256Sb : SbData → Key256) (disk : ℕ → Data) :
    ∃ iv key hash image, mkfs w sha256Sb (.start disk) = .ok ((iv, key, hash), image) ∧
      ∃ evicted, ∀ calls keys, ∃ fs,
        efsInit w sha256Sb iv key hash (.boot image.disk evicted calls keys) = .ok (false, fs) ∧
          fs.Mounted w ∧ fs.view = .empty := by
  have hfails : ∀ i, w.fails i = true → False := by
    intro i hi
    rw [hw.fails_eq] at hi
    cases hi
  have hmkfs : Exec.Wp (mkfs w sha256Sb) _ (fun _ => False) (.start disk) := wp_mkfs hfails
  obtain ⟨⟨iv, key, hash⟩, image, hrun, sb, rootIv, rootKey, hblank, himage⟩ := hmkfs.returns
  refine ⟨iv, key, hash, image, hrun, mkfsPlain rootIv rootKey, fun calls keys => ?_⟩
  have hmount : Exec.Wp (efsInit w sha256Sb iv key hash) _ (fun _ => False)
      (.boot image.disk (mkfsPlain rootIv rootKey) calls keys) := wp_efsInit_blank hw hblank himage
  obtain ⟨_, fs, hinit, rfl, hmounted⟩ := hmount.returns
  exact ⟨fs, hinit, hmounted⟩

end

/-- A disk of zeros is formatted and mounted. -/
theorem mkfs_mounts_plain : ∃ iv key hash image,
    mkfs World.plain (fun _ => Bytes.zero) (.start fun _ => Bytes.zero) =
      .ok ((iv, key, hash), image) ∧
      ∃ evicted, ∀ calls keys, ∃ fs,
        efsInit World.plain (fun _ => Bytes.zero) iv key hash
          (.boot image.disk evicted calls keys) = .ok (false, fs) ∧
          fs.Mounted World.plain ∧ fs.view = .empty :=
  mkfs_mounts World.plain_reliable (fun _ => Bytes.zero) fun _ => Bytes.zero

end Efs
