import Efs.Mount
import Efs.SavedVolume

/-!
# Unmounting and mounting again

`efs_exit` closes the handles, writes out the caches, carries the hashes up and writes the bitmap
and the superblock. The disk that it leaves is mounted, with the hash that it gives, as the same
file system without the handles.
-/

namespace Efs

open Library

/-- Inodes were given back. -/
structure Returned (s s' : Sys) : Prop where
  /-- Only the inode cache changed. -/
  same : s' = { s with icac := s'.icac }
  /-- The inodes are the same. -/
  record : ∀ iid, s'.record iid = s.record iid

/-- `efs_exit` left the volume of `s` on the disk of `d`, which can be mounted. -/
structure Unmounted (w : World) (sha256Sb : SbData → Key256) (iv key : Key128) (hash : Key256)
    (live : Finset ℕ)
    (s d : Sys) : Prop where
  /-- The disk has the volume. -/
  saved : Saved w live s d
  /-- The disk can be mounted with the hash. -/
  image : Mountable w sha256Sb iv key hash d.disk d.sb.wrapped (d.metaPlain w)
  /-- The inode bitmap is in its block. -/
  ibm : d.metaPlain w inodeBitmapStart = s.ibm.ibm
  /-- The number of the root. -/
  rootinode : d.sb.rootinode = 0

/-- The worlds have the same cipher and the same hash. -/
structure World.SameCrypto (w w' : World) : Prop where
  /-- `sha256_block`. -/
  sha256 : w.sha256 = w'.sha256
  /-- `aes128_block_encrypt`. -/
  encrypt : w.encrypt = w'.encrypt
  /-- `aes128_block_decrypt`. -/
  decrypt : w.decrypt = w'.decrypt

/-- What an unmount leaves depends on the cipher and the hash alone. -/
theorem Unmounted.of_sameCrypto {w w' : World} {sha256Sb : SbData → Key256} {iv key : Key128}
    {hash : Key256} {live : Finset ℕ} {s d : Sys} (h : Unmounted w sha256Sb iv key hash live s d)
    (hw : w.SameCrypto w') : Unmounted w' sha256Sb iv key hash live s d := by
  obtain ⟨sha256, encrypt, decrypt, _, _, _, _⟩ := w
  obtain ⟨sha256', encrypt', decrypt', _, _, _, _⟩ := w'
  obtain ⟨rfl, rfl, rfl⟩ := hw
  obtain ⟨hsaved, himage, hibm, hroot⟩ := h
  exact ⟨⟨hsaved.record, hsaved.live_iff, hsaved.block, hsaved.hashed, hsaved.leaf, hsaved.bitmap⟩,
    ⟨himage.fits, himage.hash, himage.superblock, himage.block⟩, hibm, hroot⟩

open Classical in
/-- The plaintexts that the disk holds of its metadata and of the trees of `live`. -/
noncomputable def Sys.plaintexts (w : World) (live : Finset ℕ) (d : Sys) (bid : ℕ) : Data :=
  if bid < dataStart then d.metaPlain w bid
  else if h : ∃ p : Place RootSlot, (d.onDisk w live).Live treeShape p.1 p.2 ∧
      (d.onDisk w live).block treeShape p.1 p.2 = bid then d.plain w h.choose.1.1 bid
  else Bytes.zero

/-- A new process on the disk that `efs_exit` left. -/
noncomputable def Fs.reboot (w : World) (fs : Fs) : Fs :=
  .boot fs.sys.disk
    (fs.sys.plaintexts w (InodeBitmap.mk (fs.sys.metaPlain w inodeBitmapStart) 0 false).inUse)
    fs.sys.calls fs.sys.keys

section

variable {w : World} {sha256Sb : SbData → Key256} {E : Halt → Prop} {iv key : Key128}
  {hash : Key256}
  {live : Finset ℕ} {s s₁ s' d : Sys} {fs fs' : Fs} {kept others : Multiset (ℕ × ℕ)} {iid : ℕ}
    {r : RootSlot}
  {ks : List ℕ}

/-! ## Closing the handles -/

/-- Nothing is given back when nothing happens. -/
theorem Returned.refl (s : Sys) : Returned s s := ⟨rfl, fun _ => rfl⟩

/-- References that are given back one after the other are given back. -/
theorem Returned.trans (h₁ : Returned s s₁) (h₂ : Returned s₁ s') : Returned s s' := by
  constructor
  · rw [h₂.same, h₁.same]
  · intro iid
    rw [h₂.record, h₁.record]

/-- A release of one inode gives back its reference. -/
theorem InodeChanges.returned (hc : InodeChanges iid Node.release s s') : Returned s s' := by
  have hinode : ∀ i, s'.inodeOf i = s.inodeOf i := by
    intro i
    rw [Sys.inodeOf, hc.node, Sys.inodeOf]
    by_cases hi : i = iid
    · subst hi
      rw [Function.update_self]
      cases s.icac.node i <;> rfl
    · rw [Function.update_of_ne hi]
  constructor
  · exact hc.same
  · intro i
    rw [Sys.record, hinode, hc.spot_eq, Sys.record]

/-- References that are given back leave the files. -/
theorem Returned.spread_eq (h : Returned s s') : s'.spread live = s.spread live := by
  have hrecords : s'.record = s.record := funext h.record
  rw [Sys.spread, hrecords, h.same]
  rfl

/-- References that are given back leave the blocks. -/
theorem Returned.spot_eq (h : Returned s s') (b : ℕ) : s'.spot b = s.spot b := by
  rw [h.same]
  rfl

/-- References that are given back leave the chain of hashes. -/
theorem Returned.chained (h : Returned s s') (hs : s.Chained live) : s'.Chained live := by
  constructor
  · intro bid block hle hblock
    rw [h.spot_eq] at hblock
    rw [h.spread_eq]
    exact hs.node bid block hle hblock
  · intro bid entry hpending
    rw [h.spot_eq] at hpending
    rw [h.spread_eq]
    exact hs.pending bid entry hpending

/-- The rule for the loop of `file_exit`, when `loan` is the inode of each handle. -/
theorem wp_closeAll (hw : w.Reliable) (loan : ℕ → ℕ × ℕ) {fps : List ℕ} (hnodup : fps.Nodup)
    (h : fs.sys.Sound w live) (hin : fs.sys.Within live) (hun : fs.sys.Unlocked)
    (hfiles : ∀ fp ∈ fps, ∃ file, fs.files fp = some file ∧ file.ip = (loan fp).2)
    (hlive : ∀ fp ∈ fps, (loan fp).1 ∈ live) (hloans :
      fs.sys.OnLoan ((fps : Multiset ℕ).map loan + others))
    {Q : Bool → Fs → Prop} (hQ : ∀ fs', fs'.sys.Sound w live → Returned fs.sys fs'.sys →
      Q false fs') :
    Exec.Wp (closeAll w fps) Q E fs := by
  induction fps generalizing fs with
  | nil => exact hQ fs h (.refl _)
  | cons fp rest ih =>
    obtain ⟨hnotMem, hnodup'⟩ := List.nodup_cons.mp hnodup
    obtain ⟨file, hfile, hip⟩ := hfiles fp List.mem_cons_self
    have hmem := hlive fp List.mem_cons_self
    rw [← Multiset.cons_coe, Multiset.map_cons, ← Multiset.singleton_add, add_assoc] at hloans
    have hb : fs.sys.Borrowed (loan fp).1 file.ip := by
      rw [hip]
      exact hloans.borrowed (Multiset.mem_add.mpr (Or.inl (Multiset.mem_singleton_self _)))
    obtain ⟨n, inode, hn, href, hcontent, hp, hiid⟩ := hb.pointsTo h.stored h.full
    apply Exec.wp_bind.mpr
    apply wp_fileAt hfile
    apply Exec.wp_bind.mpr
    apply wp_onSys
    refine wp_inodeReturn h.stored.icac hp hiid (fun m hm => ?_) (hun _) fun s' hc => ?_
    · rw [hn] at hm
      cases hm
      exact href
    obtain ⟨hv, hself⟩ := hc.released hw h hin hmem
    have hreturned := hc.returned
    have hloans' : s'.OnLoan ((rest : Multiset ℕ).map loan + others) := by
      have hlends : s'.OnLoan (0 + ((rest : Multiset ℕ).map loan + others)) :=
        hc.lends_release _ hloans
      rwa [zero_add] at hlends
    apply Exec.wp_bind.mpr
    apply Exec.wp_update.mpr
    apply ih hnodup' hv.sound hv.within (hv.unlocked hun.but hself)
    · intro fp' hfp'
      have hne : fp' ≠ fp := fun heq => hnotMem (heq ▸ hfp')
      obtain ⟨file', hfile', hip'⟩ := hfiles fp' (List.mem_cons_of_mem _ hfp')
      refine ⟨file', ?_, hip'⟩
      change Function.update fs.files fp none fp' = some file'
      rw [Function.update_of_ne hne, hfile']
    · intro fp' hfp'
      exact hlive fp' (List.mem_cons_of_mem _ hfp')
    · exact hloans'
    · intro fs' hsound hrest
      exact hQ fs' hsound (hreturned.trans hrest)

/-- The rule for `file_exit`. -/
theorem wp_fileExit (hw : w.Reliable) (h : fs.Ok w kept) {Q : Bool → Fs → Prop}
    (hQ : ∀ fs', fs'.sys.Sound w fs.sys.ibm.inUse → Returned fs.sys fs'.sys → Q false fs') :
    Exec.Wp (fileExit w) Q E fs := by
  have hnodup : fs.fset.Nodup := h.registered.nodup
  have hfile : ∀ fp ∈ fs.fset, ∃ file, fs.files fp = some file := h.registered.file
  have hloans : fs.sys.OnLoan ((fs.fset : Multiset ℕ).map fs.loan + kept) := by
    rw [add_comm]
    exact h.loans
  apply Exec.wp_bind.mpr
  apply Exec.wp_update.mpr
  apply Exec.wp_bind.mpr
  apply Exec.wp_read.mpr
  apply wp_closeAll hw fs.loan hnodup
  · exact h.volume.sound
  · exact h.volume.within
  · exact h.volume.unlocked
  · intro fp hfp
    obtain ⟨file, hfile⟩ := hfile fp hfp
    refine ⟨file, hfile, ?_⟩
    rw [Fs.loan_eq hfile]
  · intro fp hfp
    obtain ⟨file, hfile⟩ := hfile fp hfp
    rw [Fs.loan_eq hfile]
    exact (h.isFile hfile).1
  · exact hloans
  · exact hQ

/-! ## Writing the metadata -/

/-- The rule for `bitmap_exit`: the bitmap goes to the disk, and its ciphertext stays in the
memory. -/
theorem wp_bitmapExit (hw : w.Reliable) {Q : Bool → Sys → Prop}
    (hQ : ∀ s', s'.metaPlain w inodeBitmapStart = s.ibm.ibm → s'.sb = s.sb →
      (∀ b ≠ inodeBitmapStart, s'.disk b = s.disk b) → Q false s') :
        Exec.Wp (bitmapExit w) Q E s := by
  apply Exec.wp_bind.mpr
  apply Exec.wp_read.mpr
  apply Exec.wp_bind.mpr
  apply Exec.wp_read.mpr
  apply Exec.wp_bind.mpr
  apply wp_aes128BlockEncrypt hw.fails_eq
  intro calls₁
  apply Exec.wp_bind.mpr
  apply Exec.wp_update.mpr
  apply Exec.wp_bind.mpr
  apply wp_diskWrite hw.fails_eq
  intro calls₂
  apply hQ
  · change w.decrypt _ _ (Function.update s.disk inodeBitmapStart _ inodeBitmapStart) = _
    rw [Function.update_self]
    exact hw.decrypt_encrypt _ _ _
  · rfl
  · intro b hb
    exact Function.update_of_ne hb _ _

/-- What `sb_exit` writes has the plaintexts that were there. -/
theorem LeftImage.metaPlain_eq (h : LeftImage w sha256Sb iv key hash s s')
    (hdec : ∀ iv key d, w.decrypt iv key (w.encrypt iv key d) = d) {b : ℕ}
      (hle : inodeBitmapStart ≤ b)
    (hlt : b < dataStart) : s'.metaPlain w b = s.metaPlain w b := by
  have hdisk := (h.image.block b hle hlt).1
  rw [Sys.metaPlain, hdisk]
  exact hdec _ _ _

/-- The disk that was left can be mounted. -/
theorem LeftImage.mountable (h : LeftImage w sha256Sb iv key hash s s')
    (hdec : ∀ iv key d, w.decrypt iv key (w.encrypt iv key d) = d) :
    Mountable w sha256Sb iv key hash s'.disk s'.sb.wrapped (s'.metaPlain w) := by
  constructor
  · exact h.image.fits
  · exact h.image.hash
  · exact h.image.superblock
  · intro b hle hlt
    rw [h.metaPlain_eq hdec hle hlt]
    exact h.image.block b hle hlt

/-- The volume of a state whose inodes were given back. -/
theorem Saved.of_returned (h : Saved w live s₁ d) (hr : Returned s s₁) : Saved w live s d := by
  have hspread : s₁.spread live = s.spread live := hr.spread_eq
  constructor
  · intro iid hiid
    rw [← hr.record]
    exact h.record iid hiid
  · rw [← hspread]
    exact h.live_iff
  · rw [← hspread]
    exact h.block
  · rw [← hspread]
    exact h.hashed
  · rw [← hspread]
    intro r ks hl hleaf
    rw [h.leaf r ks hl hleaf, hr.spot_eq]
  · intro b hb
    rw [h.bitmap b hb, hr.spot_eq]

/-- The rule for `efs_exit` in a session whose blocks have their own paths. -/
theorem wp_efsExit (hw : w.Reliable) (h : fs.Ok w kept) (hchained : fs.sys.Chained fs.sys.ibm.inUse)
    {Q : Option Key256 → Fs → Prop} (hQ : ∀ hash fs',
      Unmounted w sha256Sb iv key hash fs.sys.ibm.inUse fs.sys fs'.sys → Q (some hash) fs') :
    Exec.Wp (efsExit w sha256Sb iv key) Q E fs := by
  apply Exec.wp_bind.mpr
  apply wp_fileExit hw h
  intro fs₁ hsound hreturned
  have hsave : Exec.Wp (inodeExit w) (fun _ s₁ => Exec.Wp (blockExit w)
    (fun failed s₂ => failed = false ∧
      Saved w fs.sys.ibm.inUse fs₁.sys s₂ ∧ s₂.ibm = fs₁.sys.ibm) E s₁) E fs₁.sys := by
    apply wp_saveVolume hw hsound (hreturned.chained hchained)
    intro s₂ hsaved hibm
    exact ⟨rfl, hsaved, hibm⟩
  apply Exec.wp_bind.mpr
  apply wp_onSys
  apply hsave.imp
  intro _ s₁ hexit
  apply Exec.wp_bind.mpr
  apply wp_onSys
  apply hexit.imp
  rintro failed s₂ ⟨rfl, hsaved, hibm⟩
  apply Exec.wp_bind.mpr
  apply wp_onSys
  apply wp_bitmapExit hw
  intro s₃ hbitmap hsb hdisk
  apply Exec.wp_bind.mpr
  apply wp_onSys
  apply wp_sbExit.imp
  rintro result s₄ ⟨hnone, hsome⟩
  cases result with
  | none => exact absurd hw.fails_eq (hnone rfl)
  | some hash =>
    have hleft := hsome hash rfl
    apply Exec.wp_bind.mpr
    apply wp_onSys
    apply wp_external hw.fails_eq
    intro calls
    apply hQ
    have hplain : ∀ b, inodeBitmapStart ≤ b → b < dataStart →
      s₄.metaPlain w b = s₃.metaPlain w b := by
      intro b hle hlt
      exact hleft.metaPlain_eq hw.decrypt_encrypt hle hlt
    have hsame : Saved w fs.sys.ibm.inUse fs₁.sys { s₄ with calls } := by
      apply hsaved.congr hsound
      · intro b hle hlt
        have hne : b ≠ inodeBitmapStart := ne_of_gt (lt_of_lt_of_le (by decide) hle)
        apply (hplain b (le_trans (by decide) hle) hlt).trans
        rw [Sys.metaPlain, hsb, hdisk b hne]
        rfl
      · intro b hle
        have hne : b ≠ inodeBitmapStart := ne_of_gt (lt_of_lt_of_le (by decide) hle)
        exact (hleft.data b hle).trans (hdisk b hne)
    have hkept : fs₁.sys.ibm = fs.sys.ibm := by rw [hreturned.same]
    constructor
    · exact hsame.of_returned hreturned
    · exact hleft.mountable hw.decrypt_encrypt
    · change s₄.metaPlain w inodeBitmapStart = fs.sys.ibm.ibm
      rw [hplain _ (Nat.le_refl _) (by decide), hbitmap, hibm, hkept]
    · exact hleft.numbers.2.2

/-! ## The trees of a mounted volume -/

/-- A metadata block is shown with the keys of the superblock. -/
theorem plaintexts_of_lt {b : ℕ} (h : b < dataStart) : d.plaintexts w live b = d.metaPlain w b := by
  rw [Sys.plaintexts, if_pos h]

/-- The plaintext of a block of a tree. -/
theorem plaintexts_block (hdisjoint : (d.onDisk w live).Disjoint treeShape)
    (hl : (d.onDisk w live).Live treeShape r ks)
      (hle : dataStart ≤ (d.onDisk w live).block treeShape r ks) :
    d.plaintexts w live ((d.onDisk w live).block treeShape r ks) =
      d.plain w r.1 ((d.onDisk w live).block treeShape r ks) := by
  have hex : ∃ p : Place RootSlot, (d.onDisk w live).Live treeShape p.1 p.2 ∧
      (d.onDisk w live).block treeShape p.1 p.2 = (d.onDisk w live).block treeShape r ks :=
        ⟨(r, ks), hl, rfl⟩
  obtain ⟨hlive, heq⟩ := hex.choose_spec
  have hplace : hex.choose = (r, ks) := hdisjoint _ _ _ _ hlive hl heq
  rw [Sys.plaintexts, if_neg (Nat.not_lt.mpr hle), dif_pos hex, hplace]

/-- No block is at two places on the disk. -/
theorem Saved.disjoint (h : Saved w live s d) (hs : s.Sound w live) :
    (d.onDisk w live).Disjoint treeShape := by
  intro r ks r' ks' hl hl' heq
  have hl₁ := (h.live_iff r ks).mp hl
  have hl₂ := (h.live_iff r' ks').mp hl'
  rw [h.block r ks hl₁, h.block r' ks' hl₂] at heq
  exact hs.disjoint r ks r' ks' hl₁ hl₂ heq

/-- The caches are empty, and the plaintexts are those of the disk. -/
structure Sys.Mirrors (w : World) (live : Finset ℕ) (t : Sys) : Prop where
  /-- No block is cached. -/
  bcac : t.bcac = .empty
  /-- No inode is cached. -/
  icac : t.icac = .empty
  /-- No hash is pending. -/
  pdWb : t.pdWb = .empty
  /-- The metadata blocks. -/
  metadata : ∀ bid, inodeStart ≤ bid → bid < dataStart →
    t.evicted bid = t.metaPlain w bid ∧ t.sb.hash bid = w.sha256 (t.metaPlain w bid)
  /-- The blocks of the trees. -/
  tree : ∀ r ks, (t.onDisk w live).Live treeShape r ks →
    t.evicted ((t.onDisk w live).block treeShape r ks) = t.plain w r.1
      ((t.onDisk w live).block treeShape r ks)

section

variable {t : Sys} (hm : t.Mirrors w live)

include hm

/-- A block of the mirrored state is not cached. -/
theorem Sys.Mirrors.spot_eq (b : ℕ) : t.spot b = ⟨none, t.evicted b, none, t.disk b, t.sb.hash b⟩ :=
  Sys.spot_of_empty hm.bcac hm.pdWb b

/-- The data of a block of the mirrored state is what the disk would give. -/
theorem Sys.Mirrors.data_eq (b : ℕ) : (t.spot b).data = t.evicted b := by
  rw [hm.spot_eq]
  rfl

/-- The inodes are those on the disk. -/
theorem Sys.Mirrors.record_eq (hlt : iid < 32768) : t.record iid = loadInode 0
    (t.inodePlain w iid) iid := by
  obtain ⟨hle, hlt'⟩ := inodeIid2Bid_mem hlt
  have hinode : t.inodeOf iid = none := by
    rw [Sys.inodeOf, hm.icac]
    rfl
  rw [Sys.record, hinode, hm.data_eq, (hm.metadata _ hle (hlt'.trans (by decide))).1]
  rfl

/-- The trees are those on the disk. -/
theorem Sys.Mirrors.agreeAt (hlt : ∀ iid ∈ live, iid < 32768) :
    (t.onDisk w live).AgreeAt treeShape (t.spread live).forest r where
  isRoot := isRoot_spread
  root hroot := by
    have hmem : r.1 ∈ live := hroot
    rw [root_spread hmem, hm.record_eq (hlt r.1 hmem)]
    rfl
  entry ks k hl _ := by
    change indexAt (t.spot _).data k = indexAt (t.plain w r.1 _) k
    rw [hm.data_eq, hm.tree r ks hl]

variable (hs : s.Sound w live) (h : Saved w live s t)

include hs h

/-- The trees have the places that they had. -/
theorem Saved.live_spread : (t.spread live).Live r ks ↔ (s.spread live).Live r ks := by
  rw [← h.live_iff]
  exact (hm.agreeAt hs.lt).live_iff.1

/-- The entries of the trees are those on the disk. -/
theorem Saved.slotAt_spread (hl : (s.spread live).Live r ks) :
    (t.spread live).slotAt r ks = (t.onDisk w live).slot treeShape r ks :=
  (hm.agreeAt hs.lt).live_iff.2 ((h.live_iff r ks).mpr hl)

/-- The blocks of the trees are those of before the unmount. -/
theorem Saved.blockAt_spread (hl : (s.spread live).Live r ks) :
    (t.spread live).blockAt r ks = (s.spread live).blockAt r ks := by
  rw [← h.block r ks hl]
  exact congrArg treeShape.target (h.slotAt_spread hm hs hl)

omit hs in
/-- The data bitmap shows the same blocks. -/
theorem Saved.usedBlock {b : ℕ} : t.UsedBlock b ↔ s.UsedBlock b := by
  have hused : t.dataUsed = s.dataUsed := by
    apply dataUsed_congr
    intro b hb
    rw [hm.data_eq, (hm.metadata b (le_trans (by decide) hb.1) hb.2).1, h.bitmap b hb]
  rw [Sys.UsedBlock, hused, Sys.UsedBlock]

/-- The sizes are those of before the unmount. -/
theorem Saved.fileSize_eq : (t.spread live).fileSize iid = (s.spread live).fileSize iid := by
  rw [fileSize_spread, fileSize_spread]
  split_ifs with hiid
  · obtain ⟨hash, hrecord⟩ := h.record iid hiid
    rw [hm.record_eq (hs.lt iid hiid), hrecord]
  · rfl

/-- The files are those that were saved. -/
theorem Saved.sameFiles : SameFiles live s t := by
  constructor
  · intro iid hiid
    obtain ⟨hash, hrecord⟩ := h.record iid hiid
    rw [hm.record_eq (hs.lt iid hiid), hrecord]
  · intro iid _
    apply file_congr
    · exact h.fileSize_eq hm hs
    · intro o
      rw [Sys.fileByte, Sys.fileByte]
      by_cases hpart : (s.spread live).HasPart iid (o / blkSz)
      · have hpart' : (t.spread live).HasPart iid (o / blkSz) := (h.live_spread hm hs).mpr hpart
        have hblock := h.blockAt_spread hm hs hpart
        have hleaf := h.leaf _ _ hpart isLeaf_indexPlace
        have hdata := hm.tree _ _ ((h.live_iff _ _).mpr hpart)
        rw [h.block _ _ hpart, hleaf] at hdata
        rw [Sys.partData_of_part hpart, Sys.partData_of_part hpart', Sys.partBlock, hblock,
          Sys.partBlock,
          spot_spread, spot_spread, hm.data_eq, hdata]
      · have hpart' : ¬(t.spread live).HasPart iid (o / blkSz) := mt (h.live_spread hm hs).mp hpart
        rw [Sys.partData, Sys.partData, if_neg hpart, if_neg hpart']

/-- Nothing is cached, and all hashes are right. -/
theorem Saved.resting : t.Resting w live := by
  constructor
  · exact hm.bcac
  · exact hm.icac
  · exact hm.pdWb
  · intro bid hle hlt
    obtain ⟨hplain, hhash⟩ := hm.metadata bid hle hlt
    rw [hplain]
    exact ⟨rfl, hhash.symm⟩
  · exact hs.lt
  · intro r ks r' ks' hl hl' heq
    have hl₁ := (h.live_spread hm hs).mp hl
    have hl₂ := (h.live_spread hm hs).mp hl'
    change (t.spread live).blockAt r ks = (t.spread live).blockAt r' ks' at heq
    rw [h.blockAt_spread hm hs hl₁, h.blockAt_spread hm hs hl₂] at heq
    exact hs.disjoint r ks r' ks' hl₁ hl₂ heq
  · intro r ks hl
    have hl' := (h.live_spread hm hs).mp hl
    rw [h.usedBlock hm, h.blockAt_spread hm hs hl']
    exact hs.used r ks hl'
  · intro r ks hl
    have hl' := (h.live_spread hm hs).mp hl
    have hdata := hm.tree r ks ((h.live_iff r ks).mpr hl')
    have hhashed := h.hashed r ks hl'
    rw [h.block r ks hl'] at hdata
    rw [Hashed, h.block r ks hl'] at hhashed
    rw [h.blockAt_spread hm hs hl', h.slotAt_spread hm hs hl', hhashed, hdata,
      hm.record_eq (hs.lt r.1 hl'.mem_live)]
    exact ⟨rfl, rfl⟩
  · intro iid i hi
    rw [h.fileSize_eq hm hs] at hi
    exact (h.live_spread hm hs).mpr (hs.parts iid i hi)

end

/-! ## The remount -/

/-- The volume that is mounted after `efs_exit`. -/
theorem Unmounted.mirrors (h : Unmounted w sha256Sb iv key hash live s d) (hs : s.Sound w live)
    (calls keys : ℕ) : (Fs.mounted d.disk (d.plaintexts w live) (sbLoad (sbStore d.sb.wrapped))
      (d.metaPlain w inodeBitmapStart) calls
      keys).sys.Mirrors w live ∧
    Saved w live s (Fs.mounted d.disk (d.plaintexts w live) (sbLoad (sbStore d.sb.wrapped))
      (d.metaPlain w inodeBitmapStart) calls keys).sys := by
  generalize ht : (Fs.mounted d.disk (d.plaintexts w live) (sbLoad (sbStore d.sb.wrapped))
    (d.metaPlain w inodeBitmapStart) calls keys).sys = t
  have hdisk : t.disk = d.disk := by rw [← ht]; rfl
  have hevicted : t.evicted = d.plaintexts w live := by rw [← ht]; rfl
  have hsb : d.sb.wrapped.Same t.sb := by
    rw [← ht]
    exact sbLoad_sbStore h.image.fits
  have hplain : ∀ bid, inodeBitmapStart ≤ bid → bid < dataStart →
    t.metaPlain w bid = d.metaPlain w bid := by
    intro bid hle hlt
    obtain ⟨hkey, hiv, _⟩ := hsb.block bid hle hlt
    rw [Sys.metaPlain, hkey, hiv, hdisk]
    rfl
  have hsaved : Saved w live s t := by
    apply h.saved.congr hs
    · intro bid hle hlt
      exact hplain bid (le_trans (by decide) hle) hlt
    · intro bid _
      rw [hdisk]
  refine ⟨⟨?_, ?_, ?_, ?_, ?_⟩, hsaved⟩
  · rw [← ht]
    rfl
  · rw [← ht]
    rfl
  · rw [← ht]
    rfl
  · intro bid hle hlt
    have hmem : inodeBitmapStart ≤ bid := le_trans (by decide) hle
    obtain ⟨_, _, hhash⟩ := hsb.block bid hmem hlt
    rw [hevicted, plaintexts_of_lt hlt, hplain bid hmem hlt, hhash]
    exact ⟨rfl, (h.image.block bid hmem hlt).2⟩
  · intro r ks hl
    have hl' := (hsaved.live_iff r ks).mp hl
    have hblock := h.saved.block r ks hl'
    have hle : dataStart ≤ (d.onDisk w live).block treeShape r ks := by
      rw [hblock]
      exact hs.dataStart_le hl'
    have hdata := plaintexts_block (h.saved.disjoint hs) ((h.saved.live_iff r ks).mpr hl') hle
    have hinode : t.inodePlain w r.1 = d.inodePlain w r.1 := by
      obtain ⟨hle', hlt'⟩ := inodeIid2Bid_mem (hs.lt r.1 hl'.mem_live)
      exact hplain _ (le_trans (by decide) hle') (hlt'.trans (by decide))
    rw [hsaved.block r ks hl', hevicted, ← hblock, hdata, Sys.plain, Sys.plain, hinode, hdisk]

/-- A volume whose files were saved and which rests is in order. -/
theorem Sys.Resting.volumeOk {t : Sys} (hs : s.VolumeOk w live) (hrest : t.Resting w live)
    (hsame : SameFiles live s t)
    (hroot : t.sb.rootinode = 0) (hused : ∀ i ∈ live, i ∈ t.ibm.used)
      (hhint : t.ibm.ibmLock = false ∧
      t.ibm.ibmFirstEmptyWord = 0) : t.VolumeOk w live := by
  have hnode : ∀ i, t.icac.node i = none := by
    rw [hrest.icac]
    exact fun _ => rfl
  refine ⟨⟨hrest.sound, ?_, hroot, ?_, ?_, hused, .of_hint hhint.1 hhint.2, ?_⟩, ?_⟩
  · intro i hi
    rw [Sys.inodeOf, hnode] at hi
    exact absurd rfl hi
  · rw [hsame.tree_eq]
    exact hs.rootDir
  · intro i hi
    rw [hsame.type i hi]
    exact hs.type i hi
  · intro d hd
    rw [hsame.tree_eq] at hd
    exact (hs.dirs d hd).of_file_eq (congrFun hsame.file_eq d) (Finset.Subset.refl live)
  · intro i n hn
    rw [hnode] at hn
    cases hn

/-- The rule for `efs_init` in a new process on the disk that `efs_exit` left. -/
theorem wp_efsInit_unmounted (hw : w.Reliable) (h : fs.Ok w kept)
    (hleft : Unmounted w sha256Sb iv key hash fs.sys.ibm.inUse fs.sys fs'.sys) :
    Exec.Wp (efsInit w sha256Sb iv key hash)
      (fun failed t => failed = false ∧ t.Mounted w ∧ t.view = fs.view.closed) E
      (fs'.reboot w) := by
  have himage : Mountable w sha256Sb iv key hash fs'.sys.disk fs'.sys.sb.wrapped
    (fs'.sys.metaPlain w) := hleft.image
  have hlive : (InodeBitmap.mk (fs'.sys.metaPlain w inodeBitmapStart) 0 false).inUse =
    fs.sys.ibm.inUse := by
    rw [hleft.ibm]
    rfl
  rw [Fs.reboot, hlive]
  apply wp_efsInit hw.fails_eq hw.decrypt_encrypt himage
  intro calls
  obtain ⟨hmirrors, hsaved⟩ := hleft.mirrors h.volume.sound calls fs'.sys.keys
  have hsame := hsaved.sameFiles hmirrors h.volume.sound
  have hused : (InodeBitmap.mk (fs'.sys.metaPlain w inodeBitmapStart) 0 false).used =
    fs.sys.ibm.inUse := by
    rw [hleft.ibm, InodeBitmap.coe_inUse]
    rfl
  have hvolume := (hsaved.resting hmirrors h.volume.sound).volumeOk h.volume hsame
    ((sbLoad_sbStore himage.fits).rootinode.trans hleft.rootinode)
    (fun i hi => by
      change i ∈ (InodeBitmap.mk (fs'.sys.metaPlain w inodeBitmapStart) 0 false).used
      rw [hused]
      exact hi) ⟨rfl, rfl⟩
  exact ⟨rfl, Fs.mounted_of_resting hvolume hused, hsame.view hlive⟩

end

end Efs
