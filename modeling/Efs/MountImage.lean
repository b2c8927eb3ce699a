import Efs.BitmapSemantics
import Efs.Mkfs
import Efs.SysCalls

/-!
# Images that can be mounted

An image has the superblock under the key of the volume and every metadata block
under its own key, and all hashes are right. `mkfs` and `sb_exit` write such images, and
`sb_init` accepts each of them.
-/

namespace Efs

open Library

/-- The same world without failures. -/
@[irreducible] def World.unfailing (w : World) : World := { w with fails := fun _ => false }

/-- The plaintext of a metadata block on the disk. -/
def Sys.metaPlain (w : World) (s : Sys) (bid : ℕ) : Data :=
  w.decrypt (s.sb.aesIv bid) (s.sb.aesKey bid) (s.disk bid)

/-- The disk is an image with the superblock `sb` and the plaintexts `plain` of the
metadata blocks. -/
structure Mountable (w : World) (sha256Sb : SbData → Key256) (iv key : Key128) (hash : Key256)
    (disk : ℕ → Data) (sb : Superblock) (plain : ℕ → Data) : Prop where
  /-- The numbers of the superblock fit their fields. -/
  fits : sb.Fits
  /-- The hash of the superblock. -/
  hash : hash = sha256Sb (sbStore sb)
  /-- The blocks of the superblock. -/
  superblock : ∀ i < superblockCnt, disk i = w.encrypt iv key (sbBlock (sbStore sb) i)
  /-- The metadata blocks. -/
  block : ∀ bid, inodeBitmapStart ≤ bid → bid < dataStart →
    disk bid = w.encrypt (sb.aesIv bid) (sb.aesKey bid) (plain bid) ∧
      sb.hash bid = w.sha256 (plain bid)

section

variable {w : World} {sha256Sb : SbData → Key256} {E : Halt → Prop} {s : Sys} {iv key : Key128}
  {hash : Key256} {n : ℕ}

/-- No call fails in the unfailing world. -/
theorem unfailing_noFailure : w.unfailing.NoFailure := by
  intro i
  unfold World.unfailing
  rfl

/-- The unfailing world has the same hash. -/
theorem unfailing_sha256 : w.unfailing.sha256 = w.sha256 := by unfold World.unfailing; rfl

/-- The unfailing world has the same encryption. -/
theorem unfailing_encrypt : w.unfailing.encrypt = w.encrypt := by unfold World.unfailing; rfl

/-- The unfailing world has the same decryption. -/
theorem unfailing_decrypt : w.unfailing.decrypt = w.decrypt := by unfold World.unfailing; rfl

/-- The unfailing world shows the same metadata. -/
theorem metaPlain_unfailing : s.metaPlain w.unfailing = s.metaPlain w := by
  unfold Sys.metaPlain
  rw [unfailing_decrypt]

/-! ## The reader -/

/-- The bytes of a buffer into which a block was copied. -/
theorem get_put_sbBlock {data full : SbData} {i : ℕ} (hi : i < superblockCnt)
    (hdata : ∀ j < i * blkSz, data.get j = full.get j) :
    ∀ j < (i + 1) * blkSz, (data.put (i * blkSz) (sbBlock full i)).get j = full.get j := by
  intro j hj
  simp only [superblockCnt] at hi
  simp only [blkSz] at hj hdata ⊢
  have hget := Bytes.get_write data (i * 4096) 4096 (sbBlock full i).get j
  rw [Bytes.put, hget]
  by_cases hin : i * 4096 ≤ j
  · have hlt : j - i * 4096 < 4096 := by omega
    have hplace : i * blkSz + (j - i * 4096) = j := by
      rw [blkSz]
      omega
    have hend : j < i * 4096 + 4096 := by omega
    have hsize : j < 299008 := by omega
    rw [if_pos ⟨hin, hend, hsize⟩, sbBlock, Bytes.get_sub, if_pos hlt, hplace]
  · rw [if_neg fun h => hin h.1]
    exact hdata j (Nat.not_le.mp hin)

/-- The rule for the loop that reads the superblock. -/
theorem wp_sbReadFrom (hw : w.NoFailure)
    (hdec : ∀ iv key d, w.decrypt iv key (w.encrypt iv key d) = d)
    {full data : SbData} (hdisk : ∀ i < superblockCnt, s.disk i = w.encrypt iv key (sbBlock full i))
    (hn : n ≤ superblockCnt) (hdata : ∀ j < (superblockCnt - n) * blkSz, data.get j = full.get j)
    {Q : Option SbData → Sys → Prop} (hQ : ∀ calls, Q (some full) { s with calls }) :
    Exec.Wp (sbReadFrom w iv key n data) Q E s := by
  induction n generalizing s data with
  | zero =>
    have heq : data = full := Bytes.ext_get hdata
    rw [heq]
    exact hQ s.calls
  | succ n ih =>
    have hlt : superblockCnt - (n + 1) < superblockCnt := by
      simp only [superblockCnt] at hn ⊢
      omega
    have hnext : superblockCnt - n = superblockCnt - (n + 1) + 1 := by
      simp only [superblockCnt] at hn ⊢
      omega
    apply Exec.wp_bind.mpr
    apply wp_diskRead hw
    intro calls
    apply Exec.wp_bind.mpr
    apply wp_aes128BlockDecrypt hw
    intro calls'
    have hdata' := get_put_sbBlock hlt hdata
    rw [← hnext] at hdata'
    rw [hdisk _ hlt, hdec]
    exact ih hdisk (by omega) hdata' hQ

/-- The rule for the loop that checks the metadata blocks. -/
theorem wp_sbCheckFrom (hw : w.NoFailure)
    (hdisk : ∀ bid, inodeBitmapStart ≤ bid → bid < dataStart →
      w.sha256 (s.metaPlain w bid) = s.sb.hash bid)
    (hn : n ≤ dataStart - inodeBitmapStart) {Q : Bool → Sys → Prop}
    (hQ : ∀ calls, Q false { s with calls }) : Exec.Wp (sbCheckFrom w n) Q E s := by
  induction n generalizing s with
  | zero => exact hQ s.calls
  | succ n ih =>
    have hplace : inodeBitmapStart ≤ dataStart - (n + 1) ∧ dataStart - (n + 1) < dataStart := by
      simp only [inodeBitmapStart, dataStart] at hn ⊢
      omega
    apply Exec.wp_bind.mpr
    apply wp_diskRead hw
    intro calls
    apply Exec.wp_bind.mpr
    apply Exec.wp_read.mpr
    apply Exec.wp_bind.mpr
    apply wp_aes128BlockDecrypt hw
    intro calls'
    apply Exec.wp_bind.mpr
    apply wp_sha256Validate hw
    intro calls''
    have hhash := hdisk _ hplace.1 hplace.2
    apply Exec.wp_ite.mpr
    constructor
    · intro hfailed
      exact absurd hhash (of_decide_eq_true hfailed)
    · intro _
      exact ih hdisk (by omega) hQ

/-- The rule for `sb_init` on a disk that can be mounted. -/
theorem wp_sbInit (hw : w.NoFailure) (hdec : ∀ iv key d, w.decrypt iv key (w.encrypt iv key d) = d)
    {sb : Superblock} {plain : ℕ → Data} (h : Mountable w sha256Sb iv key hash s.disk sb plain)
    {Q : Bool → Sys → Prop} (hQ : ∀ calls, Q false { s with sb := sbLoad (sbStore sb), calls }) :
    Exec.Wp (sbInit w sha256Sb iv key hash) Q E s := by
  have hsame := sbLoad_sbStore h.fits
  apply Exec.wp_bind.mpr
  apply wp_sbReadFrom hw hdec h.superblock (Nat.le_refl _)
  · intro j hj
    simp only [Nat.sub_self, Nat.zero_mul] at hj
    omega
  intro calls
  apply Exec.wp_bind.mpr
  apply Exec.wp_bind.mpr
  apply wp_external hw
  intro calls'
  apply Exec.wp_ite.mpr
  constructor
  · intro hfailed
    exact absurd h.hash.symm (of_decide_eq_true hfailed)
  intro _
  apply Exec.wp_bind.mpr
  apply Exec.wp_update.mpr
  apply wp_sbCheckFrom hw _ (Nat.le_refl _) hQ
  intro bid hle hlt
  obtain ⟨hdisk, hhash⟩ := h.block bid hle hlt
  obtain ⟨hkey, hiv, hsb⟩ := hsame.block bid hle hlt
  rw [Sys.metaPlain, hkey, hiv, hsb, hhash, hdisk, hdec]

/-- The rule for `bitmap_init` when the hash of the inode bitmap is right. -/
theorem wp_bitmapInit (hw : w.NoFailure)
    (hhash : w.sha256 (s.metaPlain w inodeBitmapStart) = s.sb.hash inodeBitmapStart)
    {Q : Bool → Sys → Prop}
    (hQ : ∀ calls, Q false { s with ibm.ibm := s.metaPlain w inodeBitmapStart, calls }) :
    Exec.Wp (bitmapInit w) Q E s := by
  apply Exec.wp_bind.mpr
  apply wp_diskRead hw
  intro calls
  apply Exec.wp_bind.mpr
  apply Exec.wp_update.mpr
  apply Exec.wp_bind.mpr
  apply Exec.wp_read.mpr
  apply Exec.wp_bind.mpr
  apply wp_aes128BlockDecrypt hw
  intro calls'
  apply Exec.wp_bind.mpr
  apply Exec.wp_update.mpr
  apply Exec.wp_bind.mpr
  apply wp_sha256Validate hw
  intro calls''
  apply Exec.wp_ite.mpr
  constructor
  · intro hfailed
    exact absurd hhash (of_decide_eq_true hfailed)
  · intro _
    exact hQ calls''

/-- What a mount of the disk gives. -/
structure Mounted (w : World) (sb : Superblock) (plain : ℕ → Data) (s s' : Sys) : Prop where
  /-- The disk stays. -/
  disk_eq : s'.disk = s.disk
  /-- The superblock is restored. -/
  same : sb.Same s'.sb
  /-- The metadata blocks decrypt to their plaintexts. -/
  plain_eq : ∀ bid, inodeBitmapStart ≤ bid → bid < dataStart → s'.metaPlain w bid = plain bid
  /-- The hash of each metadata block is right. -/
  hash_eq : ∀ bid, inodeBitmapStart ≤ bid → bid < dataStart →
    w.sha256 (plain bid) = s'.sb.hash bid

/-- `sb_init` accepts every disk that can be mounted. -/
theorem sbInit_accepts (hdec : ∀ iv key d, w.decrypt iv key (w.encrypt iv key d) = d)
    {sb : Superblock} {plain : ℕ → Data} (h : Mountable w sha256Sb iv key hash s.disk sb plain) :
    ∃ s', sbInit w.unfailing sha256Sb iv key hash s = .ok (false, s') ∧
      Mounted w sb plain s s' := by
  have hdec' : ∀ iv key d, w.unfailing.decrypt iv key (w.unfailing.encrypt iv key d) = d := by
    rwa [unfailing_decrypt, unfailing_encrypt]
  have hunfailing : Mountable w.unfailing sha256Sb iv key hash s.disk sb plain := by
    constructor
    · exact h.fits
    · exact h.hash
    · rw [unfailing_encrypt]
      exact h.superblock
    · rw [unfailing_encrypt, unfailing_sha256]
      exact h.block
  have hsame := sbLoad_sbStore h.fits
  have hmounted : ∀ calls, Mounted w sb plain s { s with sb := sbLoad (sbStore sb), calls } := by
    intro calls
    refine ⟨rfl, hsame, ?_, ?_⟩
    · intro bid hle hlt
      obtain ⟨hkey, hiv, _⟩ := hsame.block bid hle hlt
      rw [Sys.metaPlain, hkey, hiv, (h.block bid hle hlt).1, hdec]
    · intro bid hle hlt
      rw [(hsame.block bid hle hlt).2.2, (h.block bid hle hlt).2]
  have hwp : Exec.Wp (sbInit w.unfailing sha256Sb iv key hash)
      (fun failed s' => failed = false ∧ Mounted w sb plain s s') (fun _ => False) s :=
    wp_sbInit unfailing_noFailure hdec' hunfailing fun calls => ⟨rfl, hmounted calls⟩
  obtain ⟨failed, s', hrun, hfailed, hmounted⟩ := hwp.returns
  exact ⟨s', by rw [hrun, hfailed], hmounted⟩

/-- `bitmap_init` accepts what `sb_init` mounted. -/
theorem bitmapInit_accepts {sb : Superblock} {plain : ℕ → Data} {s₀ : Sys}
    (h : Mounted w sb plain s₀ s) :
    ∃ s', bitmapInit w.unfailing s = .ok (false, s') ∧ s'.ibm.ibm = plain inodeBitmapStart ∧
      Mounted w sb plain s₀ s' := by
  have hplain := h.plain_eq inodeBitmapStart (Nat.le_refl _) (by decide)
  have hhash := h.hash_eq inodeBitmapStart (Nat.le_refl _) (by decide)
  have hwp : Exec.Wp (bitmapInit w.unfailing)
      (fun failed s' => failed = false ∧ s'.ibm.ibm = plain inodeBitmapStart ∧
        Mounted w sb plain s₀ s') (fun _ => False) s := by
    apply wp_bitmapInit unfailing_noFailure
    · rw [metaPlain_unfailing, unfailing_sha256, hplain, hhash]
    intro calls
    rw [metaPlain_unfailing]
    exact ⟨rfl, hplain, h.disk_eq, h.same, h.plain_eq, h.hash_eq⟩
  obtain ⟨failed, s', hrun, hfailed, hrest⟩ := hwp.returns
  exact ⟨s', by rw [hrun, hfailed], hrest⟩

end

end Efs
