import Efs.DirectoryEntries

/-!
# Scans of directories

The loop over the entries of a directory that lookups, creations and removals begin
with. It reads the entries in order and so finds what a scan of the table finds; the
files stay as they are.
-/

namespace Efs

open Library

/-- The entries of the directory of an inode. -/
noncomputable def Sys.entries (s : Sys) (iid : ℕ) : List (Bytes 16) := direntsOf (s.file iid)

/-- The files were read, and nothing else was done to them. -/
structure Scanned (w : World) (s s' : Sys) : Prop where
  /-- The files are good. -/
  ok : s'.FilesOk w
  /-- The files are the same. -/
  file_eq : s'.file = s.file
  /-- The trees got no blocks. -/
  widens : Widens w ∅ s s'
  /-- The inodes stay in the cache with what is not of their files. -/
  kept : ∀ iid, (s'.icac.node iid).map Node.kept = (s.icac.node iid).map Node.kept

section

variable {w : World} {E : Halt → Prop} {s s₁ s' : Sys} {ip iid i n : ℕ} {inode : Inode}
  {name : CStr} {de : Option (Bytes 16)} {empty : Option ℕ}

/-- A scan of nothing changes nothing. -/
theorem Scanned.refl (h : s.FilesOk w) : Scanned w s s := ⟨h, rfl, .refl h.inv, fun _ => rfl⟩

/-- Two scans are one. -/
theorem Scanned.trans (h₁ : Scanned w s s₁) (h₂ : Scanned w s₁ s') : Scanned w s s' :=
  ⟨h₂.ok, h₂.file_eq.trans h₁.file_eq, h₁.widens.trans h₂.widens,
    fun iid => (h₂.kept iid).trans (h₁.kept iid)⟩

/-- A scan leaves the entries. -/
theorem Scanned.entries_eq (h : Scanned w s s') (iid : ℕ) : s'.entries iid = s.entries iid := by
  rw [Sys.entries, h.file_eq, Sys.entries]

/-- A scan leaves the inode bitmap. -/
theorem Scanned.ibm_eq (h : Scanned w s s') : s'.ibm = s.ibm :=
  congrArg Prod.fst h.widens.beside.rest

/-- A directory has an entry for every 16 bytes of its size. -/
theorem length_entries : (s.entries iid).length = s.fileSize iid / direntSz := by
  rw [Sys.entries, length_direntsOf, length_file]

/-- A scan leaves the room that there is. -/
theorem Scanned.roomy (h : Scanned w s s') {n : ℕ} (hroom : s.Roomy n) : s'.Roomy n :=
  h.widens.beside.held.roomy hroom

variable (hw : w.Reliable)

include hw

/-- The rule for a read of one entry. -/
theorem wp_direntRead (hs : s.FilesOk w) (hp : s.PointsTo ip iid inode)
    (hi : i < s.fileSize iid / direntSz) {Q : Bytes 16 → Sys → Prop}
    (hQ : ∀ s', Scanned w s s' → Q (direntAt (s.file iid) i) s')
    (hE : ¬s.Roomy 1 → ∀ e : Halt, e.NoRoom → E e) :
    Exec.Wp (direntRead w ip (direntSz * i) de) Q E s := by
  have hlt := hs.size_lt iid
  have hin : direntSz * i + direntSz ≤ s.fileSize iid := by
    simp only [direntSz] at hi ⊢
    omega
  have hfits : (⟨ip, iid, (de.getD Bytes.zero).get, direntSz * i, direntSz, false, 0, fun _ => 0⟩ :
      TransferCall).Fits s := by
    constructor
    · exact ⟨inode, hp⟩
    · exact le_trans (Nat.le_add_right _ _) hin
    · exact (by decide : direntSz < 2 ^ 32)
  refine Exec.wp_bind.mpr (wp_inodeRwData_transfers hw _ hs hfits (fun done result s' h => ?_)
    fun hcrowded => hE fun hroom => hcrowded
      ⟨hroom, fun hwrite => absurd hwrite Bool.false_ne_true⟩)
  have harray := h.array
  rw [ArrayStep, if_neg (by simp only [direntSz] at hin ⊢; omega), if_neg (by simp)] at harray
  obtain ⟨hdone, hbytes, hfile⟩ := harray
  have hall : done = direntSz := by
    simp only [length_file] at hdone
    omega
  subst hall
  refine Exec.wp_bind.mpr (Exec.wp_when.mpr ⟨fun hne => absurd rfl hne, fun _ => ?_⟩)
  have hread : (⟨fun j => result j⟩ : Bytes 16) = direntAt (s.file iid) i :=
    direntAt_eq_of_firstBytes (by rw [length_file]; exact hi) hbytes
  change Q ⟨fun j => result j⟩ s'
  rw [hread]
  exact hQ s' ⟨h.ok, hfile, h.widens.mono fun q hq => absurd hq.1 Bool.false_ne_true, h.kept⟩

/-- The rule for the loop over the entries from the slot `i` on. -/
theorem wp_direntsFrom (hs : s.FilesOk w) (hp : s.PointsTo ip iid inode)
    (hn : i + n = s.fileSize iid / direntSz) {Q : Option ℕ × Option ℕ → Sys → Prop}
    (hQ : ∀ s', Scanned w s s' →
      Q (Prod.map (Option.map direntIid) id
        (Table.scan direntKey name ((s.entries iid).drop i) i empty)) s')
    (hE : ¬s.Roomy 1 → ∀ e : Halt, e.NoRoom → E e) :
    Exec.Wp (direntsFrom w ip name n (direntSz * i) de empty) Q E s := by
  induction n generalizing s i de empty inode with
  | zero =>
    have hnil : (s.entries iid).drop i = [] :=
      List.drop_eq_nil_of_le (by rw [length_entries]; omega)
    have hend := hQ s (.refl hs)
    rw [hnil] at hend
    exact hend
  | succ n ih =>
    have hi : i < s.fileSize iid / direntSz := by omega
    refine Exec.wp_bind.mpr (wp_direntRead hw hs hp hi (fun s₁ h₁ => ?_) hE)
    obtain ⟨inode₁, hp₁, _⟩ := hp.of_kept (h₁.kept iid)
    have hsize : s₁.fileSize iid = s.fileSize iid := by rw [← length_file, h₁.file_eq, length_file]
    have hdrop : (s.entries iid).drop i = direntAt (s.file iid) i :: (s.entries iid).drop (i + 1) :=
      drop_direntsOf (by rw [length_file]; exact hi)
    rw [hdrop] at hQ
    have hnext : direntSz * i + direntSz = direntSz * (i + 1) := by ring
    have hslot : direntSz * i / direntSz = i := Nat.mul_div_cancel_left i (by decide)
    -- The rest of the loop, whatever was found so far.
    have hrest : ∀ empty', (∀ s', Scanned w s s' → Q (Prod.map (Option.map direntIid) id
        (Table.scan direntKey name ((s.entries iid).drop (i + 1)) (i + 1) empty')) s') →
        Exec.Wp (direntsFrom w ip name n (direntSz * i + direntSz) (some (direntAt (s.file iid) i))
          empty') Q E s₁ := by
      intro empty' hQ'
      rw [hnext]
      refine ih h₁.ok hp₁ (by rw [hsize]; omega) (fun s' h' => ?_)
        fun hcrowded => hE fun hroom => hcrowded (h₁.roomy hroom)
      rw [h₁.entries_eq]
      exact hQ' s' (h₁.trans h')
    refine Exec.wp_ite.mpr ⟨fun hzero => ?_, fun hne => ?_⟩
    · rw [hslot]
      apply hrest
      intro s' h'
      have hscan := hQ s' h'
      rwa [Table.scan, if_pos (direntKey_eq_none.mpr hzero)] at hscan
    · have hlive : ¬direntKey (direntAt (s.file iid) i) = none := mt direntKey_eq_none.mp hne
      refine Exec.wp_ite.mpr ⟨fun hname => ?_, fun hname => ?_⟩
      · have hscan := hQ s₁ h₁
        rw [Table.scan, if_neg hlive, if_pos (direntKey_eq_some.mpr ⟨hne, hname.symm⟩)] at hscan
        exact hscan
      · apply hrest
        intro s' h'
        have hscan := hQ s' h'
        rwa [Table.scan, if_neg hlive,
          if_neg fun h => hname (direntKey_eq_some.mp h).2.symm] at hscan

/-- The rule for the loop over the entries: it finds the inode of the name, or the first
empty slot. -/
theorem wp_dirents (hs : s.FilesOk w) (hp : s.PointsTo ip iid inode)
    (hwhole : WholeEntries (s.file iid)) {Q : Option ℕ × Option ℕ → Sys → Prop}
    (hQ : ∀ empty s', Scanned w s s' →
      (Table.lookup direntKey name (s.entries iid) = none →
        empty.getD (s.fileSize iid / direntSz) = Table.place direntKey (s.entries iid)) →
      Q ((Table.lookup direntKey name (s.entries iid)).map direntIid, empty) s')
    (hE : ¬s.Roomy 1 → ∀ e : Halt, e.NoRoom → E e) :
    Exec.Wp (dirents w ip name) Q E s := by
  have hsize : inode.size = s.fileSize iid := hp.fileSize.symm
  have hcount : (inode.size + direntSz - 1) / direntSz = s.fileSize iid / direntSz := by
    unfold WholeEntries at hwhole
    rw [length_file] at hwhole
    rw [hsize]
    simp only [direntSz] at hwhole ⊢
    omega
  refine Exec.wp_bind.mpr (wp_inodeAt hs.inv.icac hp ?_)
  rw [hcount]
  refine wp_direntsFrom (i := 0) hw hs hp (Nat.zero_add _) (fun s' h' => ?_) hE
  rw [List.drop_zero]
  have hfound : (Table.scan direntKey name (s.entries iid) 0 none).1 =
      Table.lookup direntKey name (s.entries iid) := Table.fst_scan
  have hend := hQ (Table.scan direntKey name (s.entries iid) 0 none).2 s' h' fun hnone => ?_
  · rw [← hfound] at hend
    exact hend
  · have hplace : (Table.scan direntKey name (s.entries iid) 0 none).2.getD
        (0 + (s.entries iid).length) = none.getD (0 + Table.place direntKey (s.entries iid)) :=
      Table.snd_scan hnone
    rw [Nat.zero_add, length_entries, Option.getD_none, Nat.zero_add] at hplace
    exact hplace

end

end Efs
