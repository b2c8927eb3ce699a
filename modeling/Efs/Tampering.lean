import Efs.HashTree
import Efs.VolumeLife

/-!
# A disk from the host

The host keeps the disk between an unmount and the next mount, and may give back any other. All
that `efs_init` has against it is the hash that `efs_exit` returned. It accepts the disks on which
the superblock and every metadata block have the hashes that are expected of them, and such a disk
has the metadata that was left there, unless it shows two data with one hash.

The blocks of the data area are not looked at before they are loaded. Each slot has the hash of the
block under it, so what holds of the inodes goes down the trees to the data of the files.
-/

namespace Efs

open Library

/-- The superblock that a disk decrypts to. -/
def superPlain (w : World) (iv key : Key128) (disk : ℕ → Data) : SbData :=
  Bytes.zero.write 0 299008 (Bytes.buffers fun i => w.decrypt iv key (disk i))

/-- What a metadata block decrypts to under the keys of a superblock. -/
def diskPlain (w : World) (sb : Superblock) (disk : ℕ → Data) (bid : ℕ) : Data :=
  w.decrypt (sb.aesIv bid) (sb.aesKey bid) (disk bid)

/-- The superblock of a disk has the expected hash, and every metadata block the hash that the
superblock has for it. -/
structure Authentic (w : World) (sha256Sb : SbData → Key256) (iv key : Key128) (hash : Key256)
    (disk : ℕ → Data) : Prop where
  /-- The superblock. -/
  superblock : sha256Sb (superPlain w iv key disk) = hash
  /-- The metadata blocks. -/
  block : ∀ bid, inodeBitmapStart ≤ bid → bid < dataStart →
    w.sha256 (diskPlain w (sbLoad (superPlain w iv key disk)) disk bid) =
      (sbLoad (superPlain w iv key disk)).hash bid

/-- The disk shows other data than an unmount left, with the same hash: of the superblock, or of a
metadata block. -/
def Forged (w : World) (sha256Sb : SbData → Key256) (iv key : Key128) (left : Sys)
    (disk : ℕ → Data) : Prop :=
  (superPlain w iv key disk ≠ sbStore left.sb ∧
    sha256Sb (superPlain w iv key disk) = sha256Sb (sbStore left.sb)) ∨
  ∃ bid, inodeBitmapStart ≤ bid ∧ bid < dataStart ∧
    Collision w (diskPlain w left.sb disk bid) (left.metaPlain w bid)

/-- A mount has what an unmount left. -/
structure Restored (w : World) (left mounted : Sys) : Prop where
  /-- The superblock. -/
  same : left.sb.wrapped.Same mounted.sb
  /-- The metadata blocks. -/
  plain : ∀ bid, inodeBitmapStart ≤ bid → bid < dataStart →
    mounted.metaPlain w bid = left.metaPlain w bid
  /-- The inode bitmap. -/
  ibm : mounted.ibm.ibm = left.metaPlain w inodeBitmapStart

section

variable {w : World} {sha256Sb : SbData → Key256} {E : Halt → Prop} {s : Sys} {fs d : Fs}
  {iv key : Key128} {hash : Key256} {disk : ℕ → Data} {n : ℕ}

/-! ## The superblock -/

/-- The decrypted superblock consists of the decrypted blocks. -/
theorem sbBlock_superPlain {i : ℕ} (hi : i < superblockCnt) :
    sbBlock (superPlain w iv key disk) i = w.decrypt iv key (disk i) := by
  simp only [superblockCnt] at hi
  have hplace : i * blkSz = 0 + 4096 * i := by
    rw [blkSz]
    omega
  rw [sbBlock, superPlain, hplace]
  exact Bytes.sub_write_buffers _ _ (by omega) (by omega)

/-- A superblock whose blocks decrypt to some data decrypts to it. -/
theorem superPlain_eq {data : SbData}
    (hdisk : ∀ i < superblockCnt, w.decrypt iv key (disk i) = sbBlock data i) :
    superPlain w iv key disk = data := by
  apply Bytes.ext_get
  intro j hj
  have hi : j / 4096 < superblockCnt := by
    rw [superblockCnt]
    omega
  have hplace : j / 4096 * blkSz + j % 4096 = j := Nat.div_add_mod' j 4096
  have hmod : j % 4096 < 4096 := Nat.mod_lt j (by decide)
  rw [superPlain, Bytes.get_write, if_pos ⟨Nat.zero_le j, by omega, hj⟩, Nat.sub_zero,
    Bytes.buffers, hdisk _ hi, sbBlock, Bytes.get_sub, if_pos hmod, hplace]

/-- The rule for the loop that reads the superblock, whatever is on the disk. -/
theorem wp_sbReadFrom_any {data : SbData} (hn : n ≤ superblockCnt)
    (hdata : ∀ j < (superblockCnt - n) * blkSz, data.get j = (superPlain w iv key s.disk).get j)
    {Q : Option SbData → Sys → Prop} (hnone : ¬w.NoFailure → ∀ calls, Q none { s with calls })
    (hsome : ∀ calls, Q (some (superPlain w iv key s.disk)) { s with calls }) :
    Exec.Wp (sbReadFrom w iv key n data) Q E s := by
  induction n generalizing s data with
  | zero =>
    have heq : data = superPlain w iv key s.disk := Bytes.ext_get hdata
    rw [heq]
    exact hsome s.calls
  | succ n ih =>
    have hlt : superblockCnt - (n + 1) < superblockCnt := by
      simp only [superblockCnt] at hn ⊢
      omega
    have hnext : superblockCnt - n = superblockCnt - (n + 1) + 1 := by
      simp only [superblockCnt] at hn ⊢
      omega
    apply Exec.wp_bind.mpr
    apply wp_diskRead_any hnone
    intro calls
    apply Exec.wp_bind.mpr
    refine wp_external_option hnone fun calls' => ?_
    have hdata' := get_put_sbBlock hlt hdata
    rw [← hnext, sbBlock_superPlain hlt] at hdata'
    exact ih (by omega) hdata' hnone hsome

/-! ## The metadata blocks -/

/-- The rule for a check, whatever the data is. -/
theorem wp_sha256Validate_iff {data : Data} {Q : Bool → Sys → Prop}
    (hreject : ¬w.NoFailure ∨ w.sha256 data ≠ hash → ∀ calls, Q true { s with calls })
    (haccept : w.sha256 data = hash → ∀ calls, Q false { s with calls }) :
    Exec.Wp (sha256Validate w data hash) Q E s := by
  apply Exec.wp_bind.mpr
  refine wp_external_option (fun hbad calls => hreject (Or.inl hbad) calls) fun calls => ?_
  by_cases heq : w.sha256 data = hash
  · simpa [heq] using haccept heq calls
  · simpa [heq] using hreject (Or.inr heq) calls

/-- What a mount does when it panics. -/
theorem wp_panicked {p : Panic} {Q : Bool → Sys → Prop} (hQ : ∀ s', Q true s') (hE : ∀ e, E e) :
    Exec.Wp (do
      panic w p
      return true) Q E s :=
  Exec.wp_bind.mpr (wp_panic.mpr ⟨fun _ => hQ s, fun _ => hE _⟩)

/-- The rule for the loop that checks the metadata blocks, whatever is on the disk. -/
theorem wp_sbCheckFrom_any (hn : n ≤ dataStart - inodeBitmapStart)
    {A : Prop} (hblock : A ↔ ∀ bid, inodeBitmapStart ≤ bid → bid < dataStart →
      w.sha256 (s.metaPlain w bid) = s.sb.hash bid)
    (hdone : ∀ bid, inodeBitmapStart ≤ bid → bid < dataStart - n →
      w.sha256 (s.metaPlain w bid) = s.sb.hash bid)
    {Q : Bool → Sys → Prop} (hreject : ¬w.NoFailure ∨ ¬A → (∀ s', Q true s') ∧ ∀ e, E e)
    (haccept : A → ∀ calls, Q false { s with calls }) : Exec.Wp (sbCheckFrom w n) Q E s := by
  induction n generalizing s with
  | zero => exact haccept (hblock.mpr hdone) s.calls
  | succ n ih =>
    have hplace : inodeBitmapStart ≤ dataStart - (n + 1) ∧ dataStart - (n + 1) < dataStart ∧
      dataStart - n = dataStart - (n + 1) + 1 := by
      simp only [inodeBitmapStart, dataStart] at hn ⊢
      omega
    obtain ⟨hle, hlt, hnext⟩ := hplace
    apply Exec.wp_bind.mpr
    apply wp_diskRead_any fun hbad _ => (hreject (Or.inl hbad)).1 _
    intro calls
    apply Exec.wp_bind.mpr
    apply Exec.wp_read.mpr
    apply Exec.wp_bind.mpr
    refine wp_external_option (fun hbad _ => (hreject (Or.inl hbad)).1 _) fun calls' => ?_
    apply Exec.wp_bind.mpr
    apply wp_sha256Validate_iff
    · intro hbad calls''
      obtain ⟨hQ, hE⟩ := hreject (hbad.imp_right fun hne hall => hne (hblock.mp hall _ hle hlt))
      exact wp_panicked hQ hE
    · intro hhash calls''
      rw [if_neg Bool.false_ne_true]
      refine ih (by omega) hblock ?_ haccept
      intro bid hbid hbefore
      by_cases hself : bid = dataStart - (n + 1)
      · subst hself
        exact hhash
      · exact hdone bid hbid (by omega)

/-! ## Mounting -/

/-- The rule for `sb_init`, whatever is on the disk. -/
theorem wp_sbInit_any {Q : Bool → Sys → Prop}
    (hreject : ¬w.NoFailure ∨ ¬Authentic w sha256Sb iv key hash s.disk →
      (∀ s', Q true s') ∧ ∀ e, E e)
    (haccept : Authentic w sha256Sb iv key hash s.disk → ∀ calls,
      Q false { s with sb := sbLoad (superPlain w iv key s.disk), calls }) :
    Exec.Wp (sbInit w sha256Sb iv key hash) Q E s := by
  apply Exec.wp_bind.mpr
  apply wp_sbReadFrom_any (Nat.le_refl _)
  · intro j hj
    simp only [Nat.sub_self, Nat.zero_mul] at hj
    omega
  · intro hbad calls
    exact (hreject (Or.inl hbad)).1 _
  intro calls
  apply Exec.wp_bind.mpr
  apply Exec.wp_bind.mpr
  apply wp_external_any
  intro failed calls' hfailed
  apply Exec.wp_ite.mpr
  constructor
  · intro hbad
    have hwrong : ¬w.NoFailure ∨ ¬Authentic w sha256Sb iv key hash s.disk := by
      cases failed with
      | true => exact Or.inl (hfailed rfl)
      | false =>
        refine Or.inr fun hauth => ?_
        simp [hauth.superblock] at hbad
    obtain ⟨hQ, hE⟩ := hreject hwrong
    exact wp_panicked hQ hE
  intro hgood
  have hsuper : sha256Sb (superPlain w iv key s.disk) = hash := by
    simp only [Bool.or_eq_true, decide_eq_true_eq, not_or, not_not] at hgood
    exact hgood.2
  apply Exec.wp_bind.mpr
  apply Exec.wp_update.mpr
  apply wp_sbCheckFrom_any (A := Authentic w sha256Sb iv key hash s.disk) (Nat.le_refl _)
  · exact ⟨fun hauth => hauth.block, fun hblock => ⟨hsuper, hblock⟩⟩
  · intro bid hle hlt
    simp only [inodeBitmapStart, dataStart] at hle hlt
    omega
  · exact hreject
  · exact haccept

/-- The rule for `bitmap_init`, whatever is on the disk. -/
theorem wp_bitmapInit_any {Q : Bool → Sys → Prop}
    (hreject : ¬w.NoFailure ∨
      w.sha256 (s.metaPlain w inodeBitmapStart) ≠ s.sb.hash inodeBitmapStart →
        (∀ s', Q true s') ∧ ∀ e, E e)
    (haccept : ∀ calls, Q false { s with ibm.ibm := s.metaPlain w inodeBitmapStart, calls }) :
    Exec.Wp (bitmapInit w) Q E s := by
  apply Exec.wp_bind.mpr
  apply wp_diskRead_any fun hbad _ => (hreject (Or.inl hbad)).1 _
  intro calls
  apply Exec.wp_bind.mpr
  apply Exec.wp_update.mpr
  apply Exec.wp_bind.mpr
  apply Exec.wp_read.mpr
  apply Exec.wp_bind.mpr
  refine wp_external_option (fun hbad _ => (hreject (Or.inl hbad)).1 _) fun calls' => ?_
  apply Exec.wp_bind.mpr
  apply Exec.wp_update.mpr
  apply Exec.wp_bind.mpr
  apply wp_sha256Validate_iff
  · intro hbad calls''
    obtain ⟨hQ, hE⟩ := hreject hbad
    exact wp_panicked hQ hE
  · intro _ calls''
    exact haccept calls''

/-- The rule for `efs_init`, whatever is on the disk. -/
theorem wp_efsInit_any {Q : Bool → Fs → Prop}
    (hreject : ¬w.NoFailure ∨ ¬Authentic w sha256Sb iv key hash fs.sys.disk →
      (∀ t, Q true t) ∧ ∀ e, E e)
    (haccept : Authentic w sha256Sb iv key hash fs.sys.disk → ∀ t : Fs,
      t.sys.disk = fs.sys.disk → t.sys.sb = sbLoad (superPlain w iv key fs.sys.disk) →
        t.sys.ibm.ibm = t.sys.metaPlain w inodeBitmapStart → Q false t) :
    Exec.Wp (efsInit w sha256Sb iv key hash) Q E fs := by
  have hfail : ¬w.NoFailure → ∀ t, Q true t := fun hbad => (hreject (Or.inl hbad)).1
  apply Exec.wp_bind.mpr
  apply wp_onSys
  apply Exec.wp_bind.mpr
  apply wp_external_cases
  · exact fun hbad _ => hfail hbad _
  intro calls₁
  apply wp_external_cases
  · exact fun hbad _ => hfail hbad _
  intro calls₂
  apply Exec.wp_bind.mpr
  apply wp_onSys
  apply wp_external_cases
  · exact fun hbad _ => hfail hbad _
  intro calls₃
  apply Exec.wp_bind.mpr
  apply wp_onSys
  apply wp_sbInit_any
  · exact fun hbad => ⟨fun _ => (hreject hbad).1 _, (hreject hbad).2⟩
  intro hauth calls₄
  apply Exec.wp_bind.mpr
  apply wp_onSys
  apply wp_bitmapInit_any
  · -- `sb_init` has checked the block that `bitmap_init` reads.
    intro hbad
    have hfailure := hbad.resolve_right fun hne =>
      hne (hauth.block inodeBitmapStart (Nat.le_refl _) (by decide))
    exact ⟨fun _ => hfail hfailure _, (hreject (Or.inl hfailure)).2⟩
  intro calls₅
  exact haccept hauth _ rfl rfl rfl

/-- When no call fails, `efs_init` accepts the disks that are authentic, and no others. -/
theorem efsInit_accepts_iff (hw : w.NoFailure) :
    (∃ t, efsInit w sha256Sb iv key hash fs = .ok (false, t)) ↔
      Authentic w sha256Sb iv key hash fs.sys.disk := by
  constructor
  · rintro ⟨t, hinit⟩
    have hwp : Exec.Wp (efsInit w sha256Sb iv key hash)
        (fun failed _ => failed = false → Authentic w sha256Sb iv key hash fs.sys.disk)
        (fun _ => True) fs := by
      apply wp_efsInit_any
      · intro _
        exact ⟨fun _ htrue => (by cases htrue), fun _ => trivial⟩
      · intro hauth _ _ _ _ _
        exact hauth
    exact hwp.of_ok hinit rfl
  · intro hauth
    have hwp : Exec.Wp (efsInit w sha256Sb iv key hash) (fun failed _ => failed = false)
        (fun _ => False) fs := by
      apply wp_efsInit_any
      · intro hbad
        exact (hbad.elim (fun h => h hw) (fun h => h hauth)).elim
      · intro _ _ _ _ _
        rfl
    obtain ⟨failed, t, hinit, rfl⟩ := hwp.returns
    exact ⟨t, hinit⟩

/-! ## Unmounting -/

/-- When `efs_exit` returns a hash, it has left a disk that can be mounted with the hash. -/
theorem efsExit_mountable (hdec : ∀ iv key d, w.decrypt iv key (w.encrypt iv key d) = d)
    (hexit : efsExit w sha256Sb iv key fs = .ok (some hash, d)) :
    Mountable w sha256Sb iv key hash d.sys.disk d.sys.sb.wrapped (d.sys.metaPlain w) := by
  have hwp : Exec.Wp (efsExit w sha256Sb iv key) (fun r d => ∀ hash, r = some hash →
      Mountable w sha256Sb iv key hash d.sys.disk d.sys.sb.wrapped (d.sys.metaPlain w))
      (fun _ => True) fs := by
    refine (Exec.Wp.any _).bind fun failed fs₁ _ => ?_
    cases failed with
    | true => simp
    | false =>
      refine (Exec.Wp.any _).bind fun _ fs₂ _ => (Exec.Wp.any _).bind fun failed fs₃ _ => ?_
      cases failed with
      | true => simp
      | false =>
        refine (Exec.Wp.any _).bind fun failed fs₄ _ => ?_
        cases failed with
        | true => simp
        | false =>
          apply Exec.wp_bind.mpr
          apply wp_onSys
          apply wp_sbExit.imp
          rintro r s₅ ⟨_, hsome⟩
          cases r with
          | none => simp
          | some hash =>
            have himage := (hsome hash rfl).mountable hdec
            apply Exec.wp_bind.mpr
            apply wp_onSys
            apply wp_external_any
            intro failed calls _
            cases failed with
            | true => simp
            | false =>
              rintro _ ⟨rfl⟩
              exact himage
  exact hwp.of_ok hexit hash rfl

/-! ## What is detected -/

/-- The superblock of a disk that can be mounted decrypts to what was stored. -/
theorem Mountable.superPlain_eq {sb : Superblock} {plain : ℕ → Data}
    (hdec : ∀ iv key d, w.decrypt iv key (w.encrypt iv key d) = d)
    (h : Mountable w sha256Sb iv key hash disk sb plain) :
    superPlain w iv key disk = sbStore sb := by
  apply Efs.superPlain_eq
  intro i hi
  rw [h.superblock i hi, hdec]

/-- A disk that can be mounted is authentic. -/
theorem Mountable.authentic {sb : Superblock} {plain : ℕ → Data}
    (hdec : ∀ iv key d, w.decrypt iv key (w.encrypt iv key d) = d)
    (h : Mountable w sha256Sb iv key hash disk sb plain) :
    Authentic w sha256Sb iv key hash disk := by
  have hsuper := h.superPlain_eq hdec
  have hsame := sbLoad_sbStore h.fits
  constructor
  · rw [hsuper, h.hash]
  · intro bid hle hlt
    obtain ⟨hdisk, hhash⟩ := h.block bid hle hlt
    obtain ⟨hkey, hiv, hsb⟩ := hsame.block bid hle hlt
    rw [hsuper, diskPlain, hkey, hiv, hsb, hhash, hdisk, hdec]

/-- The disk that was left is not forged. -/
theorem Mountable.not_forged {left : Sys}
    (hdec : ∀ iv key d, w.decrypt iv key (w.encrypt iv key d) = d)
    (hleft : Mountable w sha256Sb iv key hash left.disk left.sb.wrapped (left.metaPlain w)) :
    ¬Forged w sha256Sb iv key left left.disk := by
  rintro (⟨hne, _⟩ | ⟨bid, _, _, hne, _⟩)
  · exact hne ((hleft.superPlain_eq hdec).trans sbStore_wrapped)
  · exact hne rfl

/-- An authentic disk has the superblock and the metadata that were left, or it is forged. -/
theorem Authentic.restored {left mounted : Sys}
    (hleft : Mountable w sha256Sb iv key hash left.disk left.sb.wrapped (left.metaPlain w))
    (h : Authentic w sha256Sb iv key hash mounted.disk)
    (hsb : mounted.sb = sbLoad (superPlain w iv key mounted.disk))
    (hibm : mounted.ibm.ibm = mounted.metaPlain w inodeBitmapStart) :
    Forged w sha256Sb iv key left mounted.disk ∨ Restored w left mounted := by
  by_cases hforged : Forged w sha256Sb iv key left mounted.disk
  · exact Or.inl hforged
  right
  have hhash : sha256Sb (superPlain w iv key mounted.disk) = sha256Sb (sbStore left.sb) := by
    rw [h.superblock, hleft.hash, sbStore_wrapped]
  have hsuper : superPlain w iv key mounted.disk = sbStore left.sb := by
    by_contra hne
    exact hforged (Or.inl ⟨hne, hhash⟩)
  have hsame := sbLoad_sbStore hleft.fits
  rw [sbStore_wrapped, ← hsuper, ← hsb] at hsame
  have hplain : ∀ bid, inodeBitmapStart ≤ bid → bid < dataStart →
      mounted.metaPlain w bid = left.metaPlain w bid := by
    intro bid hle hlt
    obtain ⟨hkey, hiv, hblock⟩ := hsame.block bid hle hlt
    have hmeta : diskPlain w left.sb mounted.disk bid = mounted.metaPlain w bid := by
      rw [diskPlain, Sys.metaPlain, hkey, hiv]
      rfl
    by_contra hne
    refine hforged (Or.inr ⟨bid, hle, hlt, ?_, ?_⟩)
    · rwa [hmeta]
    · have hvalid := h.block bid hle hlt
      rw [← hsb] at hvalid
      rw [hmeta, ← (hleft.block bid hle hlt).2, ← hblock]
      exact hvalid
  constructor
  · exact hsame
  · exact hplain
  · rw [hibm, hplain _ (Nat.le_refl _) (by decide)]

/-- The rule for `efs_init` with the hash of an unmount, whatever is on the disk. -/
theorem wp_efsInit_left
    (hleft : Mountable w sha256Sb iv key hash d.sys.disk d.sys.sb.wrapped (d.sys.metaPlain w)) :
    Exec.Wp (efsInit w sha256Sb iv key hash) (fun failed t => failed = false →
      t.sys.disk = fs.sys.disk ∧
        (Forged w sha256Sb iv key d.sys fs.sys.disk ∨ Restored w d.sys t.sys))
      (fun _ => True) fs := by
  apply wp_efsInit_any
  · intro _
    exact ⟨fun _ htrue => (by cases htrue), fun _ => trivial⟩
  · intro hauth t hdisk hsb hibm _
    rw [← hdisk] at hauth hsb ⊢
    exact ⟨rfl, hauth.restored hleft hsb hibm⟩

/-- With the hash that `efs_exit` returned, `efs_init` mounts the disk that it left, when no call
fails. Whatever disk the host gives instead, and whatever calls fail, a mount has the superblock,
the inode bitmap and the inodes that were left, or the disk shows other data with the same hash. -/
theorem mounts_what_was_left (hdec : ∀ iv key d, w.decrypt iv key (w.encrypt iv key d) = d)
    (hexit : efsExit w sha256Sb iv key fs = .ok (some hash, d)) :
    (w.NoFailure → ∀ fs₁ : Fs, fs₁.sys.disk = d.sys.disk →
      ∃ t, efsInit w sha256Sb iv key hash fs₁ = .ok (false, t) ∧ Restored w d.sys t.sys) ∧
    ∀ fs₁ t, efsInit w sha256Sb iv key hash fs₁ = .ok (false, t) →
      t.sys.disk = fs₁.sys.disk ∧
        (Forged w sha256Sb iv key d.sys fs₁.sys.disk ∨ Restored w d.sys t.sys) := by
  have hleft := efsExit_mountable hdec hexit
  constructor
  · intro hw fs₁ hdisk
    have hauth : Authentic w sha256Sb iv key hash fs₁.sys.disk := by
      rw [hdisk]
      exact hleft.authentic hdec
    obtain ⟨t, hinit⟩ := (efsInit_accepts_iff hw).mpr hauth
    obtain ⟨_, hrest⟩ := (wp_efsInit_left hleft).of_ok hinit rfl
    rw [hdisk] at hrest
    exact ⟨t, hinit, hrest.resolve_left (hleft.not_forged hdec)⟩
  · intro fs₁ t hinit
    exact (wp_efsInit_left hleft).of_ok hinit rfl

end

/-- A new volume is unmounted, and the disk that is left is mounted. -/
theorem mounts_what_was_left_fresh : ∃ hash d t,
    efsExit World.plain (fun _ => Bytes.zero) Bytes.zero Bytes.zero freshFs = .ok (some hash, d) ∧
      efsInit World.plain (fun _ => Bytes.zero) Bytes.zero Bytes.zero hash (d.reboot World.plain) =
        .ok (false, t) ∧ Restored World.plain d.sys t.sys := by
  have hok := freshFs_mounted.ok
  have hchained : freshFs.sys.Chained freshFs.sys.ibm.inUse :=
    Sys.chained_of_hangs hok.volume.sound.stored.ok.keyed rfl rfl
  obtain ⟨hash, d, _, hexit, _⟩ :=
    hok.remounts (fun _ => Bytes.zero) World.plain_reliable hchained Bytes.zero Bytes.zero
  have hmount := (mounts_what_was_left World.plain_reliable.decrypt_encrypt hexit).1
    World.plain_reliable.fails_eq
  obtain ⟨t, hinit, hrestored⟩ := hmount (d.reboot World.plain) rfl
  exact ⟨hash, d, t, hexit, hinit, hrestored⟩

/-! ## Loads from the disk of the host -/

/-- The load of the block at a place. The inode has the keys, and the slot above the block its
number and its hash. -/
def Sys.Loads (w : World) (live : Finset ℕ) (t : Sys) (r : RootSlot) (ks : List ℕ) (data : Data) :
    Prop :=
  ∃ calls type hashidx block t', block.data = data ∧
    getBlockFromDisk w ((t.onDisk w live).block treeShape r ks) type hashidx
      (dinodeAesIv (t.inodePlain w r.1) r.1) (dinodeAesKey (t.inodePlain w r.1) r.1)
      (some ((t.onDisk w live).slot treeShape r ks).hash) { t with calls } = .ok (some block, t')

/-- When all blocks on the way to a place are loaded, the last one is that of the volume `s`, with
its data if it is a block of a file; or a block on the way is another one than `left` has, with the
same hash. -/
def LoadsLeft (w : World) (live : Finset ℕ) (s left t : Sys) : Prop :=
  ∀ r ks, (s.spread live).Live r ks → ∀ load : List ℕ → Data,
    (∀ ks', ks' <:+ ks → t.Loads w live r ks' (load ks')) →
      ((t.onDisk w live).block treeShape r ks = (s.spread live).blockAt r ks ∧
        (IsLeaf r ks → load ks = (s.spot ((s.spread live).blockAt r ks)).data)) ∨
      ∃ ks', ks' <:+ ks ∧
        Collision w (load ks') (left.plain w r.1 ((s.spread live).blockAt r ks'))

section

variable {w w' : World} {sha256Sb : SbData → Key256} {live : Finset ℕ} {s left t : Sys}
  {fs fs' fs₁ d mounted : Fs} {cs : List VolumeCall}
  {iv key : Key128} {hash : Key256} {r : RootSlot} {ks : List ℕ} {data : Data} {bid : ℕ}

/-- A load gives what the disk decrypts to, and this has the expected hash. -/
theorem getBlockFromDisk_plain {type : BlockType} {hashidx : HashIdx} {block : Block} {s' : Sys}
    (hload : getBlockFromDisk w bid type hashidx iv key (some hash) s = .ok (some block, s')) :
    block.data = w.decrypt iv key (s.disk bid) ∧ w.sha256 block.data = hash := by
  have hwp : Exec.Wp (getBlockFromDisk w bid type hashidx iv key (some hash))
      (fun res _ => ∀ block ∈ res, block.data = w.decrypt iv key (s.disk bid) ∧
        w.sha256 block.data = hash) (fun _ => True) s := by
    apply Exec.wp_bind.mpr
    apply wp_diskRead_any
    · simp
    intro calls
    apply Exec.wp_bind.mpr
    refine wp_external_option (by simp) fun calls' => ?_
    apply Exec.wp_bind.mpr
    apply wp_sha256Validate_iff
    · simp
    · intro hvalid calls''
      simp [hvalid]
  exact hwp.of_ok hload block rfl

/-- A block that is loaded is the one on the disk, and its slot has its hash. -/
theorem Sys.Loads.hashed (h : t.Loads w live r ks data) :
    data = t.plain w r.1 ((t.onDisk w live).block treeShape r ks) ∧ Hashed w live t r ks := by
  obtain ⟨calls, type, hashidx, block, t', rfl, hload⟩ := h
  obtain ⟨hplain, hhash⟩ := getBlockFromDisk_plain hload
  refine ⟨hplain, ?_⟩
  rw [hplain] at hhash
  exact hhash.symm

/-- The slots and the blocks on a way are those that were saved, while no block on it is another
one with the same hash. -/
theorem Saved.loads (h : Saved w live s left)
    (hinode : ∀ iid ∈ live, t.inodePlain w iid = left.inodePlain w iid)
    (hl : (s.spread live).Live r ks) (hpath : ∀ ks', ks' <:+ ks → Hashed w live t r ks')
    (hfree : ∀ ks', ks' <:+ ks →
      ¬Collision w (t.plain w r.1 ((t.onDisk w live).block treeShape r ks'))
        (left.plain w r.1 ((s.spread live).blockAt r ks'))) :
    (t.onDisk w live).block treeShape r ks = (s.spread live).blockAt r ks ∧
      t.plain w r.1 ((s.spread live).blockAt r ks) =
        left.plain w r.1 ((s.spread live).blockAt r ks) := by
  -- A slot that is as it was points at the block that was there, and has its hash.
  have hstep : ∀ ks', (s.spread live).Live r ks' → ks' <:+ ks →
      (t.onDisk w live).slot treeShape r ks' = (left.onDisk w live).slot treeShape r ks' →
      (t.onDisk w live).block treeShape r ks' = (s.spread live).blockAt r ks' ∧
        t.plain w r.1 ((s.spread live).blockAt r ks') =
          left.plain w r.1 ((s.spread live).blockAt r ks') := by
    intro ks' hlive hsuffix hslot
    have hblock : (t.onDisk w live).block treeShape r ks' = (s.spread live).blockAt r ks' := by
      rw [← h.block r ks' hlive, Forest.block, Forest.block, hslot]
    have hhash := hpath ks' hsuffix
    have hleft := h.hashed r ks' hlive
    rw [Hashed, hblock, hslot] at hhash
    rw [Hashed, h.block r ks' hlive, hhash] at hleft
    refine ⟨hblock, ?_⟩
    by_contra hne
    have hno := hfree ks' hsuffix
    rw [hblock] at hno
    exact hno ⟨hne, hleft⟩
  have hslots : ∀ ks', (s.spread live).Live r ks' → ks' <:+ ks →
      (t.onDisk w live).slot treeShape r ks' = (left.onDisk w live).slot treeShape r ks' := by
    intro ks' hlive hsuffix
    induction ks' with
    | nil =>
      change Index.mk _ _ = Index.mk _ _
      rw [hinode r.1 hlive.mem_live]
    | cons k ks' ih =>
      have habove : ks' <:+ ks := (List.suffix_cons k ks').trans hsuffix
      obtain ⟨hblock, hplain⟩ := hstep ks' hlive.1 habove (ih hlive.1 habove)
      change indexAt (t.plain w r.1 ((t.onDisk w live).block treeShape r ks')) k =
        indexAt (left.plain w r.1 ((left.onDisk w live).block treeShape r ks')) k
      rw [hblock, hplain, h.block r ks' hlive.1]
  exact hstep ks hl (List.suffix_refl ks) (hslots ks hl (List.suffix_refl ks))

/-- The loads after a mount that has what was left. -/
theorem Saved.loadsLeft (h : Saved w live s left) (hlt : ∀ iid ∈ live, iid < 32768)
    (hrestored : Restored w left t) : LoadsLeft w live s left t := by
  intro r ks hl load hload
  by_cases hcollides : ∃ ks', ks' <:+ ks ∧
    Collision w (load ks') (left.plain w r.1 ((s.spread live).blockAt r ks'))
  · exact Or.inr hcollides
  left
  have hinode : ∀ iid ∈ live, t.inodePlain w iid = left.inodePlain w iid := by
    intro iid hiid
    obtain ⟨hle, hlt⟩ := inodeIid2Bid_mem (hlt iid hiid)
    exact hrestored.plain _ (le_trans (by decide) hle) (hlt.trans (by decide))
  have hfree : ∀ ks', ks' <:+ ks →
      ¬Collision w (t.plain w r.1 ((t.onDisk w live).block treeShape r ks'))
        (left.plain w r.1 ((s.spread live).blockAt r ks')) := by
    intro ks' hsuffix hcollision
    rw [← (hload ks' hsuffix).hashed.1] at hcollision
    exact hcollides ⟨ks', hsuffix, hcollision⟩
  obtain ⟨hblock, hplain⟩ :=
    h.loads hinode hl (fun ks' hsuffix => (hload ks' hsuffix).hashed.2) hfree
  refine ⟨hblock, fun hleaf => ?_⟩
  rw [(hload ks (List.suffix_refl ks)).hashed.1, hblock, hplain]
  exact h.leaf r ks hl hleaf

/-- After a run of calls and remounts the volume is unmounted, and the host gives any disk. A mount
with the hash has the same inode numbers in use, and what is loaded on the way from an inode to its
data is what the volume had there; or the disk shows other data with the same hash. Any calls may
fail in the mount and the loads. -/
theorem loads_what_was_left (hw : w.Reliable) (hw' : w.SameCrypto w') (h : fs.Mounted w)
    (hrun : Run (VolumeStep w sha256Sb) fs cs fs')
    (hdefined : Always (VolumeStep w sha256Sb) (fun fs c _ => c.Defined fs) fs cs)
    (hchained : fs'.sys.Chained fs'.sys.ibm.inUse)
    (hexit : efsExit w sha256Sb iv key fs' = .ok (some hash, d))
    (hinit : efsInit w' sha256Sb iv key hash fs₁ = .ok (false, mounted)) :
    Forged w' sha256Sb iv key d.sys fs₁.sys.disk ∨
      mounted.sys.disk = fs₁.sys.disk ∧ mounted.sys.ibm.inUse = fs'.sys.ibm.inUse ∧
        LoadsLeft w' fs'.sys.ibm.inUse fs'.sys d.sys mounted.sys := by
  obtain ⟨_, kept, hok⟩ := volume_steps hw h.ok hrun hdefined
  have hwp : Exec.Wp (efsExit w sha256Sb iv key) (fun r d => ∀ hash, r = some hash →
      Unmounted w sha256Sb iv key hash fs'.sys.ibm.inUse fs'.sys d.sys) (fun _ => False) fs' := by
    apply wp_efsExit hw hok hchained
    rintro hash' d' hleft _ ⟨rfl⟩
    exact hleft
  have hleft := (hwp.of_ok hexit hash rfl).of_sameCrypto hw'
  obtain ⟨hdisk, hforged | hrestored⟩ := (wp_efsInit_left hleft.image).of_ok hinit rfl
  · exact Or.inl hforged
  · right
    refine ⟨hdisk, ?_, hleft.saved.loadsLeft hok.volume.sound.lt hrestored⟩
    have hibm : mounted.sys.ibm.ibm = fs'.sys.ibm.ibm := hrestored.ibm.trans hleft.ibm
    change (InodeBitmap.mk mounted.sys.ibm.ibm 0 false).inUse = _
    rw [hibm]
    rfl

end

/-- The volume with the file `/a` is unmounted, and its disk is mounted. -/
theorem loads_what_was_left_fresh : ∃ fs' hash d mounted,
    efsExit World.plain (fun _ => Bytes.zero) Bytes.zero Bytes.zero fs' = .ok (some hash, d) ∧
      efsInit World.plain (fun _ => Bytes.zero) Bytes.zero Bytes.zero hash (d.reboot World.plain) =
        .ok (false, mounted) ∧
      LoadsLeft World.plain fs'.sys.ibm.inUse fs'.sys d.sys mounted.sys := by
  obtain ⟨cs, fs', hrun, hdefined, hchained⟩ := freshFs_run
  obtain ⟨_, kept, hok⟩ := volume_steps World.plain_reliable freshFs_mounted.ok hrun hdefined
  obtain ⟨hash, d, mounted, hexit, hinit, _⟩ :=
    hok.remounts (fun _ => Bytes.zero) World.plain_reliable hchained Bytes.zero Bytes.zero
  have hdec := World.plain_reliable.decrypt_encrypt
  have hnot := (efsExit_mountable hdec hexit).not_forged hdec
  have hleft := loads_what_was_left World.plain_reliable
    ⟨rfl, rfl, rfl⟩ freshFs_mounted hrun hdefined
    hchained hexit hinit
  exact ⟨fs', hash, d, mounted, hexit, hinit, (hleft.resolve_left hnot).2.2⟩

end Efs
