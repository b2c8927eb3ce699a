import Efs.Layout

/-!
# The disk file

The host keeps the disk in a file. `ocall.c` seeks to the place of a block and
reads or writes one block there; the place is computed in 32 bits. Calls of the
host's file system that fail are left out.
-/

namespace Efs

open Library

/-- A file of the host that is open for reading and writing. -/
structure BackendFile where
  /-- The bytes below `size`. -/
  byte : ℕ → Byte
  /-- The length of the file. -/
  size : ℕ
  /-- The position of the next access. -/
  pos : ℕ

namespace BackendFile

/-- `fseek(fp, offset, SEEK_SET)`. -/
def fseek (f : BackendFile) (offset : ℕ) : BackendFile := { f with pos := offset }

/-- `fread(buf, BLK_SZ, 1, fp)`: a block, or `none` when the file ends before it. -/
def fread (f : BackendFile) : Option Data × BackendFile :=
  if f.pos + blkSz ≤ f.size then
    (some ⟨fun i => f.byte (f.pos + i)⟩, { f with pos := f.pos + blkSz })
  else (none, { f with pos := max f.pos f.size })

/-- `fwrite(buf, BLK_SZ, 1, fp)`. A gap between the old end of the file and the
block reads as zeros. -/
def fwrite (f : BackendFile) (buf : Data) : BackendFile where
  byte i :=
    if f.pos ≤ i ∧ i < f.pos + blkSz then buf.get (i - f.pos)
    else if i < f.size then f.byte i else 0
  size := max f.size (f.pos + blkSz)
  pos := f.pos + blkSz

end BackendFile

/-- `bid * BLK_SZ`, a product of an `uint32_t` and an `int`. -/
def diskOffset (bid : ℕ) : ℕ := bid * blkSz % 2 ^ 32

section

variable (blkZeroEncrypted : Data)

/-- `ocall_disk_read`: what it leaves in the buffer, and the file. A block past the
end of the file is added. -/
def ocallDiskRead (f : BackendFile) (bid : ℕ) : Data × BackendFile :=
  match (f.fseek (diskOffset bid)).fread with
  | (some buf, f) => (buf, f)
  | (none, f) => (blkZeroEncrypted, f.fwrite blkZeroEncrypted)

/-- `ocall_disk_write`. -/
def ocallDiskWrite (f : BackendFile) (buf : Data) (bid : ℕ) : BackendFile :=
  (f.fseek (diskOffset bid)).fwrite buf

/-- `ocall_disk_setzero`. -/
def ocallDiskSetzero (f : BackendFile) (bid : ℕ) : BackendFile :=
  (f.fseek (diskOffset bid)).fwrite blkZeroEncrypted

end

/-- The block numbers of the layout: the metadata blocks and those of the data bitmap. -/
def LayoutId (bid : ℕ) : Prop := bid < dataStart ∨ ∃ did < bitmapCnt * blkSz * 8, bid = did2Bid did

/-- What the file shows at a place from its end on, once it is longer. -/
def BackendFile.hole (f : BackendFile) (offset : ℕ) : Data :=
  ⟨fun i => if offset + i < f.size then f.byte (offset + i) else 0⟩

/-- A write of the block `a`, or of zeros into it, does not change what a read of
`b` gives, and a read of `a` gives what was written. -/
structure Apart (blkZeroEncrypted : Data) (f : BackendFile) (a b : ℕ) : Prop where
  /-- A write of `a` is not seen at `b`. -/
  write : ∀ buf, (ocallDiskRead blkZeroEncrypted (ocallDiskWrite f buf a) b).1 =
    (ocallDiskRead blkZeroEncrypted f b).1
  /-- Zeros written into `a` are not seen at `b`. -/
  setzero : (ocallDiskRead blkZeroEncrypted (ocallDiskSetzero blkZeroEncrypted f a) b).1 =
    (ocallDiskRead blkZeroEncrypted f b).1
  /-- A write of `a` is seen at `a`. -/
  back : ∀ buf, (ocallDiskRead blkZeroEncrypted (ocallDiskWrite f buf a) a).1 = buf

section

variable {z buf : Data} {f : BackendFile} {a b : ℕ}

/-- The places of two blocks meet exactly when the block numbers agree in 20 bits. -/
theorem diskOffset_eq_iff : diskOffset a = diskOffset b ↔ a % 2 ^ 20 = b % 2 ^ 20 := by
  simp only [diskOffset, blkSz]
  omega

/-- Two places are equal or a block apart. -/
theorem diskOffset_apart (h : diskOffset a ≠ diskOffset b) :
    diskOffset a + 4096 ≤ diskOffset b ∨ diskOffset b + 4096 ≤ diskOffset a := by
  simp only [diskOffset, blkSz] at *
  omega

/-- A read gives the bytes of the file, or the encrypted zeros when it ends before them. -/
theorem fst_ocallDiskRead : (ocallDiskRead z f b).1 =
    if diskOffset b + 4096 ≤ f.size then ⟨fun i => f.byte (diskOffset b + i)⟩ else z := by
  unfold ocallDiskRead BackendFile.fread BackendFile.fseek
  by_cases h : diskOffset b + 4096 ≤ f.size
  · simp [h]
  · simp [h]

/-- A read of the block that was written. -/
theorem ocallDiskRead_self : (ocallDiskRead z (ocallDiskWrite f buf a) a).1 = buf := by
  have hsize : diskOffset a + 4096 ≤ (ocallDiskWrite f buf a).size := Nat.le_max_right _ _
  rw [fst_ocallDiskRead, if_pos hsize]
  apply Bytes.ext_get
  intro i hi
  have hmem : diskOffset a ≤ diskOffset a + i ∧ diskOffset a + i < diskOffset a + 4096 := by omega
  simp [Bytes.get, hi, ocallDiskWrite, BackendFile.fseek, BackendFile.fwrite]

/-- A read of a block at another place gives what it gave, unless the write makes
the file grow past it. -/
theorem ocallDiskRead_of_ne (h : diskOffset a ≠ diskOffset b) :
    (ocallDiskRead z (ocallDiskWrite f buf a) b).1 =
      if diskOffset b + 4096 ≤ f.size ∨ diskOffset a < diskOffset b then
        (ocallDiskRead z f b).1
      else f.hole (diskOffset b) := by
  have hsize : (ocallDiskWrite f buf a).size = max f.size (diskOffset a + 4096) := rfl
  have hapart := diskOffset_apart h
  have hbyte : ∀ i < 4096, (ocallDiskWrite f buf a).byte (diskOffset b + i) =
      if diskOffset b + i < f.size then f.byte (diskOffset b + i) else 0 := by
    intro i hi
    have hout : ¬(diskOffset a ≤ diskOffset b + i ∧ diskOffset b + i < diskOffset a + 4096) := by
      omega
    exact if_neg hout
  rw [fst_ocallDiskRead, fst_ocallDiskRead, hsize]
  by_cases hin : diskOffset b + 4096 ≤ f.size
  · rw [if_pos (by omega), if_pos (Or.inl hin), if_pos hin]
    ext1
    funext i
    have hlt : diskOffset b + i.val < f.size := by omega
    simp only [hbyte i i.isLt, hlt, if_true]
  · by_cases hbefore : diskOffset a < diskOffset b
    · rw [if_neg (by omega), if_pos (Or.inr hbefore), if_neg hin]
    · rw [if_pos (by omega), if_neg (by omega)]
      ext1
      funext i
      exact hbyte i i.isLt

/-- Two blocks do not disturb each other exactly when their numbers differ in the
lower 20 bits, and the block that is read was there already, lies after the one
that is written, or shows the encrypted zeros where the file had none. -/
theorem disk_places_iff (blkZeroEncrypted : Data) (f : BackendFile) (a b : ℕ) :
    Apart blkZeroEncrypted f a b ↔
      a % 2 ^ 20 ≠ b % 2 ^ 20 ∧ (diskOffset b + blkSz ≤ f.size ∨ diskOffset a < diskOffset b ∨
        f.hole (diskOffset b) = blkZeroEncrypted) := by
  rw [ne_eq, ← diskOffset_eq_iff]
  constructor
  · intro h
    have hne : diskOffset a ≠ diskOffset b := by
      intro heq
      have hall : ∀ buf, buf = (ocallDiskRead blkZeroEncrypted f b).1 := fun buf => by
        rw [← h.write buf, fst_ocallDiskRead, ← heq, ← fst_ocallDiskRead, ocallDiskRead_self]
      have hdiff : (⟨fun _ => 0⟩ : Data) = ⟨fun _ => 1⟩ := (hall _).trans (hall _).symm
      exact absurd (congrArg (Bytes.get · 0) hdiff) (by decide)
    refine ⟨hne, ?_⟩
    by_contra hnot
    simp only [not_or] at hnot
    obtain ⟨hin, hbefore, hhole⟩ := hnot
    change ¬diskOffset b + 4096 ≤ f.size at hin
    have hread := h.write blkZeroEncrypted
    rw [ocallDiskRead_of_ne hne, if_neg (by simp only [not_or]; exact ⟨hin, hbefore⟩),
      fst_ocallDiskRead, if_neg hin] at hread
    exact hhole hread
  · rintro ⟨hne, hcase⟩
    have hwrite : ∀ buf, (ocallDiskRead blkZeroEncrypted (ocallDiskWrite f buf a) b).1 =
        (ocallDiskRead blkZeroEncrypted f b).1 := by
      intro buf
      rw [ocallDiskRead_of_ne hne]
      by_cases hin : diskOffset b + 4096 ≤ f.size ∨ diskOffset a < diskOffset b
      · rw [if_pos hin]
      · simp only [not_or] at hin
        rw [if_neg (by simp only [not_or]; exact hin), fst_ocallDiskRead, if_neg hin.1]
        exact (hcase.resolve_left hin.1).resolve_left hin.2
    exact ⟨hwrite, hwrite blkZeroEncrypted, fun _ => ocallDiskRead_self⟩

/-- A write of the data block 2^20 changes the first block of the superblock. -/
theorem superblock_overwritten :
    LayoutId (2 ^ 20) ∧ ¬Apart Bytes.zero ⟨fun _ => 0, 4096, 0⟩ (2 ^ 20) 0 := by
  refine ⟨Or.inr ⟨2 ^ 20 - dataStart, by decide, by decide⟩, fun h => ?_⟩
  have hbyte := congrArg (Bytes.get · 0) (h.write ⟨fun _ => 1⟩)
  exact absurd hbyte (by decide)

end

end Efs
