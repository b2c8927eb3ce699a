import Efs.Directory
import Efs.FileContents
import Efs.Library.Table

/-!
# Entries of directories

The file of a directory is a table of entries of 16 bytes, empty ones with the inode
number zero. A name that fits an entry is read back from it, and a write of one entry
changes one slot of the table.
-/

namespace Efs

open Library

/-- The name of an entry, none when the entry is empty. -/
def direntKey (de : Bytes 16) : Option CStr :=
    if direntIid de = 0 then none else some (direntName de)

/-- The entry in the slot `i` of a directory with this content. -/
def direntAt (a : List Byte) (i : ℕ) : Bytes 16 := ⟨fun j => a.getD (direntSz * i + j) 0⟩

/-- The entries of a directory with this content. -/
def direntsOf (a : List Byte) : List (Bytes 16) :=
    (List.range (a.length / direntSz)).map (direntAt a)

/-- The content has no part of an entry at its end. -/
def WholeEntries (a : List Byte) : Prop := direntSz ∣ a.length

/-- A name that a directory can have: from 1 to `DIRNAME_MAX_LEN` bytes, none of them zero. -/
structure ValidName (name : CStr) : Prop where
  /-- The name is not empty. -/
  pos : 0 < name.length
  /-- The name fits an entry. -/
  length_le : name.length ≤ dirnameMaxLen
  /-- No byte is zero. -/
  nonzero : ∀ c ∈ name, c ≠ 0

section

variable {a : List Byte} {name : CStr} {iid i : ℕ} {de : Bytes 16}

/-- An entry of no inode has no name. -/
theorem direntKey_eq_none : direntKey de = none ↔ direntIid de = 0 := by
  simp [direntKey]

/-- An entry of an inode has its name. -/
theorem direntKey_eq_some : direntKey de = some name ↔ direntIid de ≠ 0 ∧ direntName de = name := by
  simp [direntKey]

/-! ## One entry -/

/-- The inode of an entry that was made. -/
theorem direntIid_dirent (h : iid < 2 ^ 16) : direntIid (dirent iid name) = iid := by
  rw [direntIid, dirent, Bytes.getLE_write_of_disjoint (by omega), Bytes.getLE_putLE _ _ (by omega)]
  exact Nat.mod_eq_of_lt (by simpa using h)

/-- The bytes of the name, and zeros after them. -/
theorem get_dirent (hi : i < dirnameMaxLen + 1) :
    (dirent iid name).get (2 + i) = name.getD i 0 := by
  have hplace : 2 + i - 2 = i := by omega
  simp only [dirnameMaxLen] at hi
  rw [dirent, Bytes.get_write, if_pos, hplace]
  simp only [dirnameMaxLen]
  omega

/-- The name of an entry that was made. -/
theorem direntName_dirent (hlen : name.length ≤ dirnameMaxLen) (hzero : ∀ c ∈ name, c ≠ 0) :
    direntName (dirent iid name) = name := by
  have hbytes : (List.range (dirnameMaxLen + 1)).map (fun i => (dirent iid name).get (2 + i)) =
      name ++ List.replicate (dirnameMaxLen + 1 - name.length) 0 := by
    apply List.ext_getElem
    · simp only [List.length_map, List.length_range, List.length_append, List.length_replicate]
      omega
    · intro i h₁ h₂
      rw [List.getElem_map, List.getElem_range, get_dirent (by simpa using h₁)]
      by_cases hi : i < name.length
      · rw [List.getElem_append_left hi, List.getD_eq_getElem _ _ hi]
      · rw [List.getElem_append_right (Nat.not_lt.mp hi),
          List.getD_eq_default _ _ (Nat.not_lt.mp hi), List.getElem_replicate]
  have hzeros : dirnameMaxLen + 1 - name.length = dirnameMaxLen - name.length + 1 := by omega
  rw [direntName, hbytes, List.takeWhile_append_of_pos]
  · rw [hzeros, List.replicate_succ]
    simp
  · intro c hc
    exact decide_eq_true (hzero c hc)

/-- An entry of a name is read back. -/
theorem direntKey_dirent (hpos : iid ≠ 0) (hlt : iid < 2 ^ 16) (hlen : name.length ≤ dirnameMaxLen)
    (hzero : ∀ c ∈ name, c ≠ 0) : direntKey (dirent iid name) = some name := by
  rw [direntKey_eq_some, direntIid_dirent hlt]
  exact ⟨hpos, direntName_dirent hlen hzero⟩

/-! ## All entries -/

/-- A directory has an entry for every 16 bytes. -/
theorem length_direntsOf : (direntsOf a).length = a.length / direntSz := by simp [direntsOf]

/-- Each entry is read from its bytes. -/
theorem getElem?_direntsOf :
    (direntsOf a)[i]? = if i < a.length / direntSz then some (direntAt a i) else none := by
  unfold direntsOf
  rw [List.getElem?_map]
  split_ifs with hi
  · rw [List.getElem?_range hi, Option.map_some]
  · rw [List.getElem?_eq_none (by simpa using hi), Option.map_none]

/-- The entries from a slot on. -/
theorem drop_direntsOf (hi : i < a.length / direntSz) :
    (direntsOf a).drop i = direntAt a i :: (direntsOf a).drop (i + 1) := by
  have hlen : i < (direntsOf a).length := length_direntsOf.symm ▸ hi
  rw [List.drop_eq_getElem_cons hlen]
  congr 1
  have hget := getElem?_direntsOf (a := a) (i := i)
  rw [if_pos hi, List.getElem?_eq_getElem hlen] at hget
  exact Option.some.inj hget

/-- What a read of one entry gives. -/
theorem direntAt_eq_of_firstBytes {buf : ℕ → Byte} (hi : i < a.length / direntSz)
    (hbuf : firstBytes buf direntSz = (a.drop (direntSz * i)).take direntSz) :
    (⟨fun j => buf j⟩ : Bytes 16) = direntAt a i := by
  apply Bytes.ext_get
  intro j hj
  have hin : direntSz * i + j < a.length := by
    simp only [direntSz] at hi ⊢
    omega
  have hget := congrArg (fun l => l[j]?) hbuf
  have hj' : j < (firstBytes buf direntSz).length := by
    rw [length_firstBytes]
    exact hj
  have hpart : ((a.drop (direntSz * i)).take direntSz)[j]? = a[direntSz * i + j]? := by
    rw [List.getElem?_take, if_pos (by simpa using hj), List.getElem?_drop]
  simp only [hpart, List.getElem?_eq_getElem hj', getElem_firstBytes, List.getElem?_eq_getElem hin,
    Option.some.injEq] at hget
  have hleft : (⟨fun j => buf j⟩ : Bytes 16).get j = buf j := by simp [Bytes.get, hj]
  have hright : (direntAt a i).get j = a.getD
    (direntSz * i + j) 0 := by simp [direntAt, Bytes.get, hj]
  rw [hleft, hright, List.getD_eq_getElem _ _ hin, hget]

/-! ## Writes of one entry -/

/-- What is read after a range was overwritten. -/
theorem getElem?_overwrite {bytes : List Byte} {off p : ℕ} (hoff : off ≤ a.length) :
    (overwrite a off bytes)[p]? =
      if off ≤ p ∧ p < off + bytes.length then bytes[p - off]? else a[p]? := by
  have htake : (a.take off).length = off := by rw [List.length_take, min_eq_left hoff]
  unfold overwrite
  by_cases hlow : p < off
  · rw [List.append_assoc, List.getElem?_append_left (htake.symm ▸ hlow),
      List.getElem?_take_of_lt hlow, if_neg (by omega)]
  · by_cases hin : p < off + bytes.length
    · rw [List.getElem?_append_left (by rw [List.length_append, htake]; exact hin),
        List.getElem?_append_right (by omega), htake, if_pos ⟨Nat.not_lt.mp hlow, hin⟩]
    · rw [List.getElem?_append_right (by rw [List.length_append, htake]; omega), List.length_append,
        htake, List.getElem?_drop, if_neg (by omega)]
      congr 1
      omega

/-- An array is as long as before, or as the range. -/
theorem length_overwrite {bytes : List Byte} {off : ℕ} (hoff : off ≤ a.length) :
    (overwrite a off bytes).length = max a.length (off + bytes.length) := by
  simp only [overwrite, List.length_append, List.length_take, List.length_drop]
  omega

/-- The slots of a directory after an entry was written. -/
theorem direntAt_overwrite {j : ℕ} (hi : direntSz * i ≤ a.length) :
    direntAt (overwrite a (direntSz * i) (firstBytes de.get direntSz)) j =
      if j = i then de else direntAt a j := by
  apply Bytes.ext_get
  intro b hb
  have hget : ∀ c : List Byte, (direntAt c j).get b = c.getD (direntSz * j + b) 0 := by
    intro c
    simp [direntAt, Bytes.get, hb]
  rw [hget, List.getD_eq_getElem?_getD, getElem?_overwrite hi, length_firstBytes]
  by_cases hj : j = i
  · subst hj
    have hplace : direntSz * j + b - direntSz * j = b := by omega
    have hlt : b < (firstBytes de.get direntSz).length := length_firstBytes.symm ▸ hb
    rw [if_pos rfl, if_pos ⟨by omega, by simpa using hb⟩, hplace, List.getElem?_eq_getElem hlt,
      getElem_firstBytes, Option.getD_some]
  · rw [if_neg hj, if_neg, hget, List.getD_eq_getElem?_getD]
    rintro ⟨hle, hlt⟩
    simp only [direntSz] at hle hlt
    omega

/-- An entry that is overwritten or appended leaves whole entries. -/
theorem wholeEntries_overwrite (ha : WholeEntries a) (hi : direntSz * i ≤ a.length) :
    WholeEntries (overwrite a (direntSz * i) (firstBytes de.get direntSz)) := by
  unfold WholeEntries at ha ⊢
  rw [length_overwrite hi, length_firstBytes]
  simp only [direntSz] at ha ⊢
  omega

/-- The first empty slot is in the directory or at its end. -/
theorem place_le_length (a : List Byte) : direntSz * Table.place direntKey
    (direntsOf a) ≤ a.length := by
  have hle : Table.place direntKey (direntsOf a) ≤ (direntsOf a).length := Table.place_le
  rw [length_direntsOf] at hle
  exact (Nat.mul_le_mul_left _ hle).trans (Nat.mul_div_le _ _)

/-- A write of an entry in the first empty slot, or at the end, inserts it. -/
theorem direntsOf_overwrite (ha : WholeEntries a) :
    direntsOf (overwrite a (direntSz * Table.place direntKey (direntsOf a))
      (firstBytes de.get direntSz)) = Table.insert direntKey de (direntsOf a) := by
  have hplace : Table.place direntKey (direntsOf a) ≤ a.length / direntSz :=
    length_direntsOf ▸ Table.place_le
  generalize hi : Table.place direntKey (direntsOf a) = i at hplace
  have hle : direntSz * i ≤ a.length := by
    simp only [direntSz] at hplace ⊢
    omega
  apply List.ext_getElem?
  intro j
  rw [Table.getElem?_insert, getElem?_direntsOf, getElem?_direntsOf, hi, direntAt_overwrite hle,
    length_overwrite hle, length_firstBytes]
  have hslots : j < max a.length (direntSz * i + direntSz) / direntSz ↔ j = i ∨
    j < a.length / direntSz := by
    unfold WholeEntries at ha
    simp only [direntSz] at ha hplace ⊢
    omega
  by_cases hj : j = i
  · rw [if_pos hj, if_pos hj, if_pos (hslots.mpr (Or.inl hj))]
  · rw [if_neg hj, if_neg hj]
    by_cases hlt : j < a.length / direntSz
    · rw [if_pos hlt, if_pos (hslots.mpr (Or.inr hlt))]
    · rw [if_neg hlt, if_neg fun h => (hslots.mp h).elim hj hlt]

end

end Efs
