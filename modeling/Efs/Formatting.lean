import Efs.MountImage

/-!
# What the formatter writes

The loops of `mkfs` write one block after another from `INODE_BITMAP_START` on and put its hash
into the superblock, so that at each block all blocks before it are as a mount expects them. In the
end the image can be mounted: one inode is in use, and it is an empty directory.
-/

namespace Efs

open Library

/-- The plaintexts of the metadata blocks of an empty volume. -/
def mkfsPlain (rootIv rootKey : Key128) (bid : ℕ) : Data :=
  if bid = inodeBitmapStart then mkfsIbm else if bid =
    inodeStart then mkfsRoot rootIv rootKey else Bytes.zero

/-- The numbers that `main` gives the superblock. -/
def Superblock.Blank (sb : Superblock) : Prop := sb.magic = efsMagic ∧ sb.maxbid = dataStart - 1 ∧
    sb.rootinode = 0

/-- The image has the metadata blocks below `b`, and the file is at `b`. -/
structure Formatted (w : World) (plain : ℕ → Data) (b : ℕ) (img : Image) (sb : Superblock) :
    Prop where
  /-- The place in the file. -/
  pos : img.pos = b
  /-- The numbers of the superblock. -/
  blank : sb.Blank
  /-- The blocks that were written. -/
  block : ∀ bid, inodeBitmapStart ≤ bid → bid < b →
    img.disk bid = w.encrypt (sb.aesIv bid) (sb.aesKey bid) (plain bid) ∧
      sb.hash bid = w.sha256 (plain bid)

section

variable {w : World} {sha256Sb : SbData → Key256} {E : Unit → Prop} {img : Image} {sb : Superblock}
  {iv key : Key128}
  {plain : ℕ → Data} {b n : ℕ} {data full : SbData}

/-! ## Calls -/

/-- A blank superblock fits its fields. -/
theorem Superblock.Blank.fits (h : sb.Blank) : sb.Fits := by
  obtain ⟨hmagic, hmaxbid, hroot⟩ := h
  constructor
  · rw [hmagic]
    decide
  · rw [hmaxbid]
    decide
  · rw [hroot]
    decide

section

variable (hE : ∀ i, w.fails i = true → E ())
include hE

/-- The rule for a call of the tool. -/
theorem wp_mkfsCall {Q : Unit → Image → Prop} (hQ : ∀ calls, Q () { img with calls }) :
    Exec.Wp (mkfsCall w) Q E img := by
  simp only [mkfsCall, Exec.wp_bind, Exec.wp_read, Exec.wp_update, Exec.wp_when, Exec.wp_stop]
  constructor
  · intro hfails
    exact hE _ hfails
  · intro _
    exact hQ _

/-- The rule for a seek. -/
theorem wp_mkfsSeek {pos : ℕ} {Q : Unit → Image → Prop}
    (hQ : ∀ calls, Q () { img with pos, calls }) :
    Exec.Wp (mkfsSeek w pos) Q E img := by
  apply Exec.wp_bind.mpr
  apply wp_mkfsCall hE
  exact hQ

/-- The rule for a hash. -/
theorem wp_mkfsSha256 {d : Data} {Q : Key256 → Image → Prop}
    (hQ : ∀ calls, Q (w.sha256 d) { img with calls }) :
    Exec.Wp (mkfsSha256 w d) Q E img := by
  apply Exec.wp_bind.mpr
  apply wp_mkfsCall hE
  exact hQ

/-- The rule for an encryption. -/
theorem wp_mkfsEncrypt {d : Data} {Q : Data → Image → Prop}
    (hQ : ∀ calls, Q (w.encrypt iv key d) { img with calls }) :
    Exec.Wp (mkfsEncrypt w iv key d) Q E img := by
  apply Exec.wp_bind.mpr
  apply wp_mkfsCall hE
  exact hQ

omit hE in
/-- The rule for a new key. -/
theorem wp_mkfsKey128Gen {Q : Key128 → Image → Prop} (hQ : ∀ k keys, Q k { img with keys }) :
    Exec.Wp (mkfsKey128Gen w) Q E img := hQ _ _

/-! ## The metadata blocks -/

omit hE in
/-- The loop that makes the keys of the metadata blocks. -/
theorem wp_mkfsKeysFrom {Q : Superblock → Image → Prop}
    (hQ : ∀ sb' keys, (sb.Blank → sb'.Blank) → Q sb' { img with keys }) :
      Exec.Wp (mkfsKeysFrom w n sb) Q E img := by
  induction n generalizing sb img with
  | zero => exact hQ sb img.keys id
  | succ n ih =>
    apply Exec.wp_bind.mpr
    apply wp_mkfsKey128Gen
    intro iv keys
    apply Exec.wp_bind.mpr
    apply wp_mkfsKey128Gen
    intro key keys'
    apply ih
    intro sb' keys'' hblank
    exact hQ sb' keys'' fun h => hblank h

/-- The end of a round of the loops that write metadata. -/
theorem Formatted.round (h : Formatted w plain b img sb) :
    Exec.Wp (mkfsBlock w b (plain b) (w.sha256 (plain b)) sb)
      (fun sb' img' => Formatted w plain (b + 1) img' sb') E img := by
  apply Exec.wp_bind.mpr
  apply wp_mkfsEncrypt hE
  intro calls
  apply Exec.wp_bind.mpr
  apply Exec.wp_bind.mpr
  apply wp_mkfsCall hE
  intro calls'
  have hpos := h.pos
  constructor
  · exact congrArg (· + 1) hpos
  · exact h.blank
  · intro bid hle hlt
    simp only [hpos]
    by_cases hself : bid = b
    · rw [hself]
      simp only [Function.update_self, and_self]
    · simp only [Function.update_of_ne hself]
      exact h.block bid hle (by omega)

/-- The rounds of the loops that write blocks of zeros. -/
theorem wp_mkfsZeroFrom (h : Formatted w plain (dataStart - n) img sb) (hn : n ≤ dataStart)
    (hzero : ∀ bid, dataStart - n ≤ bid → plain bid = Bytes.zero) :
    Exec.Wp (mkfsZeroFrom w (w.sha256 Bytes.zero) n sb)
      (fun sb' img' => Formatted w plain dataStart img' sb') E img := by
  induction n generalizing sb img with
  | zero => exact h
  | succ n ih =>
    have hnext : dataStart - (n + 1) + 1 = dataStart - n := by omega
    have hround := h.round hE
    rw [hzero _ (Nat.le_refl _), hnext] at hround
    apply Exec.wp_bind.mpr
    apply hround.imp
    intro sb' img' h'
    apply ih h' (by omega)
    intro bid hle
    exact hzero bid (by omega)

/-- The block of the inode bitmap. -/
theorem wp_mkfsInodeBitmap (hpos : img.pos = inodeBitmapStart) (hblank : sb.Blank) :
    Exec.Wp (mkfsInodeBitmap w sb)
      (fun sb' img' => ∀ rootIv rootKey, Formatted w
        (mkfsPlain rootIv rootKey) inodeStart img' sb') E img := by
  apply Exec.wp_bind.mpr
  apply wp_mkfsSha256 hE
  intro calls
  have hstart : Formatted w (fun _ => mkfsIbm) inodeBitmapStart { img with calls } sb := by
    refine ⟨hpos, hblank, ?_⟩
    intro bid hle hlt
    omega
  apply (hstart.round hE).imp
  intro sb' img' h' rootIv rootKey
  refine ⟨h'.pos, h'.blank, ?_⟩
  intro bid hle hlt
  have hbid : bid = inodeBitmapStart := by
    simp only [inodeBitmapStart, inodeStart] at hle hlt ⊢
    omega
  rw [mkfsPlain, if_pos hbid]
  exact h'.block bid hle hlt

/-- The block with the root inode. -/
theorem wp_mkfsRootInode (h : ∀ rootIv rootKey, Formatted w
    (mkfsPlain rootIv rootKey) inodeStart img sb) :
    Exec.Wp (mkfsRootInode w sb)
      (fun sb' img' => ∃ rootIv rootKey, Formatted w (mkfsPlain rootIv rootKey)
        (inodeStart + 1) img' sb') E img := by
  apply Exec.wp_bind.mpr
  apply wp_mkfsKey128Gen
  intro rootIv keys
  apply Exec.wp_bind.mpr
  apply wp_mkfsKey128Gen
  intro rootKey keys'
  apply Exec.wp_bind.mpr
  apply wp_mkfsSha256 hE
  intro calls
  have h' := h rootIv rootKey
  have hroot : Formatted w (mkfsPlain rootIv rootKey) inodeStart
    { img with keys := keys', calls } sb :=
    ⟨h'.pos, h'.blank, h'.block⟩
  have hplain : mkfsPlain rootIv rootKey inodeStart = mkfsRoot rootIv rootKey := rfl
  have hround := hroot.round hE
  rw [hplain] at hround
  apply hround.imp
  intro sb' img' hformatted
  exact ⟨rootIv, rootKey, hformatted⟩

omit hE in
/-- Behind the root inode all blocks are zeros. -/
theorem mkfsPlain_of_lt {rootIv rootKey : Key128} {bid : ℕ} (h : inodeStart < bid) :
    mkfsPlain rootIv rootKey bid = Bytes.zero := by
  have hibm : bid ≠ inodeBitmapStart := by
    simp only [inodeStart, inodeBitmapStart] at h ⊢
    omega
  rw [mkfsPlain, if_neg hibm, if_neg (Nat.ne_of_gt h)]

/-! ## The superblock -/

omit hE in
/-- A block of the superblock after another one was put in. -/
theorem sbBlock_put_of_ne {i j : ℕ} {d : Data} (h : j ≠ i) :
    sbBlock (data.put (i * blkSz) d) j = sbBlock data j := by
  simp only [sbBlock, blkSz]
  apply Bytes.sub_write_of_disjoint
  rcases Nat.lt_or_gt_of_ne h with hlt | hgt
  · left
    omega
  · right
    omega

omit hE in
/-- A block of the superblock that was put in. -/
theorem sbBlock_put_self {i : ℕ} {d : Data} (hi : i < superblockCnt) :
    sbBlock (data.put (i * blkSz) d) i = d := by
  simp only [sbBlock, blkSz, superblockCnt] at hi ⊢
  apply Bytes.sub_put
  omega

/-- The loop that encrypts the superblock. -/
theorem wp_mkfsEncryptFrom (hn : n ≤ superblockCnt)
    (hdone : ∀ i < superblockCnt - n, sbBlock data i = w.encrypt iv key (sbBlock full i))
    (hleft : ∀ i, superblockCnt - n ≤ i → sbBlock data i = sbBlock full i)
    {Q : SbData → Image → Prop}
    (hQ : ∀ data' calls, (∀ i < superblockCnt, sbBlock data' i = w.encrypt iv key
      (sbBlock full i)) →
      Q data' { img with calls }) : Exec.Wp (mkfsEncryptFrom w iv key n data) Q E img := by
  induction n generalizing data img with
  | zero => exact hQ data img.calls hdone
  | succ n ih =>
    have hlt : superblockCnt - (n + 1) < superblockCnt := by
      simp only [superblockCnt] at hn ⊢
      omega
    apply Exec.wp_bind.mpr
    apply wp_mkfsEncrypt hE
    intro calls
    apply ih (by omega)
    · intro i hi
      by_cases hself : i = superblockCnt - (n + 1)
      · rw [hself, sbBlock_put_self hlt, hleft _ (Nat.le_refl _)]
      · rw [sbBlock_put_of_ne hself]
        exact hdone i (by omega)
    · intro i hi
      have hself : i ≠ superblockCnt - (n + 1) := by omega
      rw [sbBlock_put_of_ne hself]
      exact hleft i (by omega)
    · exact hQ

omit hE in
/-- The end of `main`: the superblock goes to the front of the file. -/
theorem Formatted.mountable (h : Formatted w plain dataStart img sb) {disk : ℕ → Data}
    (hfull : ∀ i < superblockCnt, sbBlock data i = w.encrypt iv key (sbBlock (sbStore sb) i))
    (hdisk : ∀ bid, disk bid =
      if 0 ≤ bid ∧ bid < 0 + superblockCnt then sbBlock data (bid - 0) else img.disk bid) :
    Mountable w sha256Sb iv key (sha256Sb (sbStore sb)) disk sb plain := by
  refine ⟨h.blank.fits, rfl, ?_, ?_⟩
  · intro i hi
    have hin : 0 ≤ i ∧ i < 0 + superblockCnt := by omega
    rw [hdisk, if_pos hin]
    exact hfull i hi
  · intro bid hle hlt
    have hout : ¬(0 ≤ bid ∧ bid < 0 + superblockCnt) := by
      simp only [inodeBitmapStart, superblockCnt] at hle ⊢
      omega
    rw [hdisk, if_neg hout]
    exact h.block bid hle hlt

/-- What `main` writes, and the key that it gives. -/
theorem wp_mkfs :
    Exec.Wp (mkfs w sha256Sb) (fun r img' => ∃ sb rootIv rootKey, sb.Blank ∧
      Mountable w sha256Sb r.1 r.2.1 r.2.2 img'.disk sb (mkfsPlain rootIv rootKey)) E img := by
  apply Exec.wp_bind.mpr
  apply wp_mkfsKey128Gen
  intro iv keys
  apply Exec.wp_bind.mpr
  apply wp_mkfsKey128Gen
  intro key keys
  apply Exec.wp_bind.mpr
  apply wp_mkfsCall hE
  intro calls
  apply Exec.wp_bind.mpr
  apply wp_mkfsSha256 hE
  intro calls
  -- the unifier must not run the loop
  generalize dataStart - inodeBitmapStart = n
  apply Exec.wp_bind.mpr
  apply wp_mkfsKeysFrom
  intro sb₀ keys hkeys
  have hblank : sb₀.Blank := hkeys ⟨rfl, rfl, rfl⟩
  apply Exec.wp_bind.mpr
  apply wp_mkfsSeek hE
  intro calls
  apply Exec.wp_bind.mpr
  apply (wp_mkfsInodeBitmap hE rfl hblank).imp
  intro sb₁ img₁ h₁
  apply Exec.wp_bind.mpr
  apply (wp_mkfsRootInode hE h₁).imp
  rintro sb₂ img₂ ⟨rootIv, rootKey, h₂⟩
  apply Exec.wp_bind.mpr
  apply (wp_mkfsZeroFrom hE h₂ (Nat.sub_le _ _) fun bid hle => mkfsPlain_of_lt hle).imp
  intro sb img₃ h₃
  apply Exec.wp_bind.mpr
  apply wp_mkfsCall hE
  intro calls
  apply Exec.wp_bind.mpr
  have hsame : ∀ i, superblockCnt - superblockCnt ≤ i →
    sbBlock (sbStore sb) i = sbBlock (sbStore sb) i :=
    fun _ _ => rfl
  refine wp_mkfsEncryptFrom hE (Nat.le_refl _) (fun i hi => ?_) hsame fun data calls hdata => ?_
  · simp only [Nat.sub_self] at hi
    omega
  apply Exec.wp_bind.mpr
  apply wp_mkfsSeek hE
  intro calls
  apply Exec.wp_bind.mpr
  apply Exec.wp_bind.mpr
  apply wp_mkfsCall hE
  intro calls
  apply Exec.wp_update.mpr
  apply Exec.wp_bind.mpr
  apply wp_mkfsCall hE
  intro calls
  exact ⟨sb, rootIv, rootKey, h₃.blank, h₃.mountable hdata fun bid => rfl⟩

end

end

end Efs
