import Efs.DirectoryScan
import Efs.InodeFetch

/-!
# The volume

All inodes in use with their files, whether they are cached or not: what the session would
show if every inode in use were in the inode cache. The trees of all inodes in use are
apart, so a call on the cached inodes leaves the other files as they are, and a fetch of
an inode leaves all files as they are.
-/

namespace Efs

open Library

/-- The state with the inodes of `live` in the inode cache. No run comes to it; it shows
the files of all these inodes. -/
noncomputable def Sys.spread (s : Sys) (live : Finset ℕ) : Sys :=
  { s with icac := { Cache.empty with
      fifo :=
        ⟨live.toList.map fun iid => ⟨0, iid, 0, false, false, some (s.record iid), false⟩, 1⟩ } }

/-- The inodes of `live` are in use: their trees are apart and can be loaded, and their
files have no holes. -/
structure Sys.Sound (w : World) (live : Finset ℕ) (s : Sys) : Prop where
  /-- The inode blocks hold what is needed. -/
  stored : s.Stored w 0
  /-- The nodes hold inodes. -/
  full : s.Full
  /-- The numbers are those of the layout. -/
  lt : ∀ iid ∈ live, iid < 32768
  /-- No block is in two places. -/
  disjoint : (s.spread live).forest.Disjoint treeShape
  /-- The bitmap shows the blocks of the trees as used. -/
  used : ∀ r ks, (s.spread live).Live r ks → s.UsedBlock ((s.spread live).blockAt r ks)
  /-- The blocks of the trees can be loaded. -/
  good : ∀ r ks, (s.spread live).Live r ks →
    (s.spot ((s.spread live).blockAt r ks)).TreeGood w False
    (s.record r.1).aesIv (s.record r.1).aesKey ((s.spread live).slotAt r ks).hash
  /-- The blocks of unused numbers are not cached and have no pending hash. -/
  unused : ∀ did < 16777216, did ∉ s.dataUsed →
    (s.spot (did2Bid did)).node = none ∧ (s.spot (did2Bid did)).pending = none
  /-- An empty slot has no pending hash. -/
  hole : (s.spot 0).pending = none
  /-- Every part below the size has a block. -/
  parts : ∀ iid i, i * blkSz < (s.spread live).fileSize iid → (s.spread live).HasPart iid i

/-- The block is as it was, or was evicted while nobody held it. -/
def SpotStays (w : World) (s s' : Sys) (b : ℕ) : Prop :=
  s'.spot b = s.spot b ∨ (s.spot b).Idle ∧ s'.spot b = (s.spot b).evict w b

/-- The inode has its record, and the blocks of its tree were not changed. -/
structure LeftAlone (w : World) (live : Finset ℕ) (s s' : Sys) (iid : ℕ) : Prop where
  /-- The record is the same. -/
  record : s'.record iid = s.record iid
  /-- The blocks are as they were, or were evicted. -/
  spot : ∀ r ks, r.1 = iid → (s.spread live).Live r ks →
    SpotStays w s s' ((s.spread live).blockAt r ks)

/-- The inodes of `live` have the same types and files. -/
structure SameFiles (live : Finset ℕ) (s s' : Sys) : Prop where
  /-- The types are the same. -/
  type : ∀ i ∈ live, (s'.record i).type = (s.record i).type
  /-- The files are the same. -/
  file : ∀ i ∈ live, (s'.spread live).file i = (s.spread live).file i

section

variable {w : World} {live live' : Finset ℕ} {s s' : Sys} {r : RootSlot} {ks : List ℕ} {iid b : ℕ}
  {inode : Inode}

/-! ## All inodes in view -/

/-- The blocks of a spread state are those of the state. -/
@[simp] theorem spot_spread (b : ℕ) : (s.spread live).spot b = s.spot b := rfl

/-- A list of nodes with their own ids has the node of each id of the list. -/
theorem find?_map_node {l : List ℕ} {f : ℕ → Node Inode} (hf : ∀ i, (f i).id = i) :
    (l.map f).find? (·.id = iid) = if iid ∈ l then some (f iid) else none := by
  induction l with
  | nil => rfl
  | cons i l ih =>
    rw [List.map_cons, List.find?_cons, hf, ih]
    by_cases hi : i = iid
    · simp [hi]
    · simp [hi, Ne.symm hi]

/-- In a spread state exactly the inodes in use are cached, with their records. -/
theorem inodeOf_spread :
    (s.spread live).inodeOf iid = if iid ∈ live then some (s.record iid) else none := by
  have hnode : (s.spread live).icac.node iid = if iid ∈ live.toList then
      some ⟨0, iid, 0, false, false, some (s.record iid), false⟩ else none :=
        find?_map_node fun _ => rfl
  rw [Sys.inodeOf, hnode]
  simp only [Finset.mem_toList]
  split_ifs <;> rfl

/-- The root slots are those of the inodes in use. -/
theorem isRoot_spread : (s.spread live).forest.isRoot r ↔ r.1 ∈ live := by
  simp [Sys.forest, inodeOf_spread]

/-- They hold what the records hold. -/
theorem root_spread (h : r.1 ∈ live) :
    (s.spread live).forest.root r = (s.record r.1).rootEntry r.2 := by
  simp [Sys.forest, inodeOf_spread, h]

/-- A block in a tree belongs to an inode in use. -/
theorem Sys.Live.mem_live (h : (s.spread live).Live r ks) : r.1 ∈ live := isRoot_spread.mp h.isRoot

/-- The files are the same as before. -/
theorem SameFiles.refl (live : Finset ℕ) (s : Sys) : SameFiles live s s :=
    ⟨fun _ _ => rfl, fun _ _ => rfl⟩

/-- Files that stay the same twice stay the same. -/
theorem SameFiles.trans {s₁ : Sys} (h₁ : SameFiles live s s₁) (h₂ : SameFiles live s₁ s') :
    SameFiles live s s' :=
  ⟨fun i hi => (h₂.type i hi).trans (h₁.type i hi), fun i hi => (h₂.file i hi).trans (h₁.file i hi)⟩

/-- The size of a file is the size in its record. -/
theorem fileSize_spread : (s.spread live).fileSize iid = if iid ∈ live then
    (s.record iid).size else 0 := by
  rw [Sys.fileSize, inodeOf_spread]
  split_ifs <;> rfl

/-- The cached inodes in use show their trees. -/
theorem agreeAt_spread (h : s.inodeOf r.1 = some inode) (hmem : r.1 ∈ live) :
    (s.spread live).forest.AgreeAt treeShape s.forest r where
  isRoot := by
    rw [isRoot_spread]
    exact iff_of_true (by simp [Sys.forest, h]) hmem
  root _ := by
    rw [root_spread hmem, record_of_inodeOf h]
    simp [Sys.forest, h, Inode.record, Inode.rootEntry]
  entry _ _ _ _ := rfl

/-- The tree of a cached inode has the same places in the spread state. -/
theorem live_spread (h : s.inodeOf r.1 = some inode) (hmem : r.1 ∈ live) :
    s.Live r ks ↔ (s.spread live).Live r ks := (agreeAt_spread h hmem).live_iff.1

/-- It has the same entries at its places. -/
theorem slotAt_spread (h : s.inodeOf r.1 = some inode) (hlive : (s.spread live).Live r ks) :
    s.slotAt r ks = (s.spread live).slotAt r ks :=
  (agreeAt_spread h hlive.mem_live).live_iff.2 hlive

/-- It has the same blocks at its places. -/
theorem blockAt_spread (h : s.inodeOf r.1 = some inode) (hlive : (s.spread live).Live r ks) :
    s.blockAt r ks = (s.spread live).blockAt r ks := by
  rw [Sys.blockAt_eq, slotAt_spread h hlive, Sys.blockAt_eq]

/-- The parts of the file of a cached inode have the same data. -/
theorem partData_spread (h : s.inodeOf iid = some inode) (hmem : iid ∈ live) (i : ℕ) :
    (s.spread live).partData iid i = s.partData iid i := by
  have hiff : s.HasPart iid i ↔ (s.spread live).HasPart iid i :=
    live_spread (r := (indexPlace iid i).1) h hmem
  by_cases hpart : (s.spread live).HasPart iid i
  · rw [Sys.partData_of_part hpart, Sys.partData_of_part (hiff.mpr hpart), Sys.partBlock,
      Sys.partBlock, blockAt_spread (r := (indexPlace iid i).1) h hpart]
    rfl
  · rw [Sys.partData, Sys.partData, if_neg hpart, if_neg (mt hiff.mp hpart)]

/-- The file of a cached inode has the same size. -/
theorem fileSize_of_inodeOf (h : s.inodeOf iid = some inode) (hmem : iid ∈ live) :
    (s.spread live).fileSize iid = s.fileSize iid := by
  rw [fileSize_spread, if_pos hmem, record_of_inodeOf h, Sys.fileSize, h]
  rfl

/-- The file of a cached inode in use. -/
theorem file_spread (h : s.inodeOf iid = some inode) (hmem : iid ∈ live) :
    (s.spread live).file iid = s.file iid := by
  refine file_congr (fileSize_of_inodeOf h hmem) fun o => ?_
  rw [Sys.fileByte, partData_spread h hmem, Sys.fileByte]

/-- A number that is not in use has an empty file. -/
theorem file_eq_nil (hmem : iid ∉ live) : (s.spread live).file iid = [] := by
  rw [Sys.file, fileSize_spread, if_neg hmem]
  rfl

/-! ## The session -/

/-- Only inodes in use are cached. -/
def Sys.Within (s : Sys) (live : Finset ℕ) : Prop := ∀ iid, s.inodeOf iid ≠ none → iid ∈ live

/-- The cached inodes have good files. -/
theorem Sys.Sound.filesOk (h : s.Sound w live) (hin : s.Within live) : s.FilesOk w := by
  have hlive : ∀ r ks, s.Live r ks → r.1 ∈ live ∧ (s.spread live).Live r ks ∧
      s.slotAt r ks = (s.spread live).slotAt r ks ∧
        s.blockAt r ks = (s.spread live).blockAt r ks := by
    intro r ks hl
    obtain ⟨inode, hinode⟩ := hl.inode
    have hmem := hin r.1 (by simp [hinode])
    have hl' := (live_spread hinode hmem).mp hl
    exact ⟨hmem, hl', slotAt_spread hinode hl', blockAt_spread hinode hl'⟩
  have hsize : ∀ iid, s.fileSize iid = 0 ∨
      s.fileSize iid = (s.spread live).fileSize iid ∧ ∃ inode, s.inodeOf iid = some inode := by
    intro iid
    cases hinode : s.inodeOf iid with
    | none => simp [Sys.fileSize, hinode]
    | some inode =>
      right
      exact ⟨(fileSize_of_inodeOf hinode (hin iid (by simp [hinode]))).symm, inode, rfl⟩
  refine ⟨⟨h.stored.icac, fun iid inode hinode => ?_, h.stored.ok, h.stored.metaInv,
    fun r ks r' ks' hl hl' heq => ?_, fun r ks hl => ?_, fun r ks inode hl hinode => ?_, h.unused,
      h.hole⟩,
    fun iid => ?_, fun iid i hi => ?_⟩
  · obtain ⟨n, hn, hcontent⟩ := exists_node_of_inodeOf hinode
    exact (h.stored.backs iid n inode hn hcontent).iid_eq
  · obtain ⟨_, hv, _, hb⟩ := hlive r ks hl
    obtain ⟨_, hv', _, hb'⟩ := hlive r' ks' hl'
    exact h.disjoint r ks r' ks' hv hv' (hb.symm.trans (Eq.trans heq hb'))
  · obtain ⟨_, hv, _, hb⟩ := hlive r ks hl
    rw [hb]
    exact h.used r ks hv
  · obtain ⟨_, hv, hslot, hb⟩ := hlive r ks hl
    have hgood := h.good r ks hv
    rw [record_of_inodeOf hinode] at hgood
    rw [hb, hslot]
    exact hgood
  · rcases hsize iid with hzero | ⟨_, inode, hinode⟩
    · rw [hzero]
      decide
    · obtain ⟨n, hn, hcontent⟩ := exists_node_of_inodeOf hinode
      rw [Sys.fileSize, hinode]
      exact (h.stored.backs iid n inode hn hcontent).fits.size_lt
  · rcases hsize iid with hzero | ⟨heq, inode, hinode⟩
    · rw [hzero] at hi
      exact absurd hi (Nat.not_lt_zero _)
    · rw [heq] at hi
      exact (live_spread (r := (indexPlace iid i).1) hinode (hin iid (by simp [hinode]))).mpr
        (h.parts iid i hi)

/-! ## Inodes that are left alone -/

/-- An eviction of a metadata block is none of `pd_wb`. -/
theorem Spot.pending_evict {l : Spot} (h : b < dataStart) : (l.evict w b).pending = l.pending := by
  unfold Spot.evict
  cases l.block with
  | none => rfl
  | some block =>
    cases l.dirty with
    | false => rfl
    | true => exact if_pos h

/-- A block that is not cached stays as it is. -/
theorem SpotStays.absent (h : SpotStays w s s' b) (hnode : (s.spot b).node = none) :
    s'.spot b = s.spot b := by
  rcases h with heq | ⟨_, heq⟩
  · exact heq
  · rw [heq, Spot.evict_of_node_eq_none hnode]

/-- Blocks that stay leave the numbers in use as they are. -/
theorem dataUsed_of_stays (h : s.Stored w 0) (hstays : ∀ b ∉ inodeBlocks, SpotStays w s s' b) :
    s'.dataUsed = s.dataUsed := by
  refine dataUsed_congr fun b hb => ?_
  have hle : inodeStart ≤ b := le_trans (by decide : inodeStart ≤ bitmapStart) hb.1
  have hb' : b ∉ inodeBlocks := fun hmem => absurd hmem.2 (Nat.not_lt.mpr hb.1)
  exact (Spot.steady (h.ok.filled b) (h.metaInv b hle hb.2).metaOk (hstays b hb')).1

variable (h : s.Sound w live)

include h

/-- The blocks of the trees are data blocks. -/
theorem Sys.Sound.dataStart_le (hl : (s.spread live).Live r ks) :
    dataStart ≤ (s.spread live).blockAt r ks :=
  (h.used r ks hl).dataStart_le

/-- They are no inode blocks. -/
theorem Sys.Sound.not_mem_inodeBlocks (hl : (s.spread live).Live r ks) :
    (s.spread live).blockAt r ks ∉ inodeBlocks := by
  intro hmem
  have hle := h.dataStart_le hl
  exact absurd (hmem.2.trans (by decide : bitmapStart < dataStart)) (Nat.not_lt.mpr hle)

/-- A file that is left alone keeps its tree. -/
theorem LeftAlone.agreeAt (hst : LeftAlone w live s s' r.1) (hmem : r.1 ∈ live)
    (hmem' : r.1 ∈ live') :
    (s.spread live).forest.AgreeAt treeShape (s'.spread live').forest r where
  isRoot := by
    rw [isRoot_spread, isRoot_spread]
    exact iff_of_true hmem' hmem
  root _ := by rw [root_spread hmem, root_spread hmem', hst.record]
  entry ks k hl _ := by
    have hdata : (s'.spot ((s.spread live).blockAt r ks)).data =
      (s.spot ((s.spread live).blockAt r ks)).data := by
      rcases hst.spot r ks rfl hl with heq | ⟨_, heq⟩
      · rw [heq]
      · rw [heq, Spot.data_evict (h.stored.ok.filled _) (h.good r ks hl).hashOk.dirty_or]
    exact congrArg (indexAt · k) hdata

/-- It keeps the places of the tree. -/
theorem LeftAlone.live_iff (hst : LeftAlone w live s s' r.1) (hmem : r.1 ∈ live)
    (hmem' : r.1 ∈ live') :
    (s'.spread live').Live r ks ↔ (s.spread live).Live r ks := (hst.agreeAt h hmem hmem').live_iff.1

/-- It keeps the entries at them. -/
theorem LeftAlone.slotAt_eq (hst : LeftAlone w live s s' r.1) (hmem' : r.1 ∈ live')
    (hl : (s.spread live).Live r ks) :
    (s'.spread live').slotAt r ks = (s.spread live).slotAt r ks :=
  (hst.agreeAt h hl.mem_live hmem').live_iff.2 hl

/-- It keeps the blocks at them. -/
theorem LeftAlone.blockAt_eq (hst : LeftAlone w live s s' r.1) (hmem' : r.1 ∈ live')
    (hl : (s.spread live).Live r ks) :
    (s'.spread live').blockAt r ks = (s.spread live).blockAt r ks := by
  rw [Sys.blockAt_eq, hst.slotAt_eq h hmem' hl, Sys.blockAt_eq]

/-- It keeps the data in these blocks. -/
theorem LeftAlone.data_eq (hst : LeftAlone w live s s' r.1) (hl : (s.spread live).Live r ks) :
    (s'.spot ((s.spread live).blockAt r ks)).data =
      (s.spot ((s.spread live).blockAt r ks)).data := by
  rcases hst.spot r ks rfl hl with heq | ⟨_, heq⟩
  · rw [heq]
  · rw [heq, Spot.data_evict (h.stored.ok.filled _) (h.good r ks hl).hashOk.dirty_or]

/-- Its blocks stay good. -/
theorem LeftAlone.treeGood (hw : w.Reliable) (hst : LeftAlone w live s s' r.1) (hmem' : r.1 ∈ live')
    (hl : (s.spread live).Live r ks) : (s'.spot ((s'.spread live').blockAt r ks)).TreeGood w False
      (s'.record r.1).aesIv (s'.record r.1).aesKey ((s'.spread live').slotAt r ks).hash := by
  have hgood := h.good r ks hl
  rw [hst.blockAt_eq h hmem' hl, hst.slotAt_eq h hmem' hl, hst.record]
  rcases hst.spot r ks rfl hl with heq | ⟨_, heq⟩
  · rw [heq]
    exact hgood
  · rw [heq]
    exact hgood.evict hw (h.dataStart_le hl) (h.stored.ok.filled _)

/-- So the parts of the file keep their data. -/
theorem LeftAlone.partData_eq (hst : LeftAlone w live s s' iid) (hmem : iid ∈ live)
    (hmem' : iid ∈ live') (i : ℕ) :
    (s'.spread live').partData iid i = (s.spread live).partData iid i := by
  have hiff : (s'.spread live').HasPart iid i ↔ (s.spread live).HasPart iid i :=
    LeftAlone.live_iff (r := (indexPlace iid i).1) h hst hmem hmem'
  by_cases hpart : (s.spread live).HasPart iid i
  · rw [Sys.partData_of_part hpart, Sys.partData_of_part (hiff.mpr hpart), Sys.partBlock,
      Sys.partBlock, LeftAlone.blockAt_eq (r := (indexPlace iid i).1) h hst hmem' hpart]
    have hdata := LeftAlone.data_eq (r := (indexPlace iid i).1) h hst hpart
    exact hdata
  · rw [Sys.partData, Sys.partData, if_neg hpart, if_neg (mt hiff.mp hpart)]

omit h in
/-- A file with the same record has the same size. -/
theorem fileSize_congr (hrecord : s'.record iid = s.record iid) (hmem : iid ∈ live)
    (hmem' : iid ∈ live') : (s'.spread live').fileSize iid = (s.spread live).fileSize iid := by
  rw [fileSize_spread, fileSize_spread, if_pos hmem, if_pos hmem', hrecord]

/-- The file of an inode that is left alone. -/
theorem LeftAlone.file_eq (hst : LeftAlone w live s s' iid) (hmem : iid ∈ live)
    (hmem' : iid ∈ live') : (s'.spread live').file iid = (s.spread live).file iid := by
  refine file_congr (fileSize_congr hst.record hmem hmem') fun o => ?_
  rw [Sys.fileByte, hst.partData_eq h hmem hmem', Sys.fileByte]

/-- The inodes in use stay sound when they are left alone and the new ones have no blocks. -/
theorem Sys.Sound.of_leftAlone (hw : w.Reliable) (hstored : s'.Stored w 0) (hfull : s'.Full)
    (hsub : live ⊆ live') (halone : ∀ i ∈ live, LeftAlone w live s s' i)
    (hnew : ∀ i ∈ live', i ∉ live → i < 32768 ∧ (s'.record i).size = 0 ∧
      ∀ r, (s'.record i).bid r = 0)
    (hstays : ∀ b ∉ inodeBlocks, SpotStays w s s' b) : s'.Sound w live' := by
  have hused := dataUsed_of_stays h.stored hstays
  have hold : ∀ r ks, (s'.spread live').Live r ks → r.1 ∈ live ∧ (s.spread live).Live r ks := by
    intro r ks hl
    have hmem : r.1 ∈ live := by
      by_contra hmem
      have hroot := Forest.Live.of_suffix hl List.nil_suffix
      refine hroot.2 ?_
      change ((s'.spread live').forest.root r).bid = 0
      rw [root_spread hl.mem_live]
      exact (hnew r.1 hl.mem_live hmem).2.2 r.2
    exact ⟨hmem, ((halone r.1 hmem).live_iff h hmem hl.mem_live).mp hl⟩
  have hblock : ∀ r ks, r.1 ∈ live → (s.spread live).Live r ks →
      (s'.spread live').blockAt r ks = (s.spread live).blockAt r ks :=
    fun r ks hmem hl => (halone r.1 hmem).blockAt_eq h (hsub hmem) hl
  have hdata : ∀ did, did2Bid did ∉ inodeBlocks := by
    intro did hmem
    have hlt := hmem.2
    simp only [did2Bid, bitmapStart, dataStart] at hlt
    omega
  refine ⟨hstored, hfull, fun i hi => ?_, fun r ks r' ks' hl hl' heq => ?_, fun r ks hl => ?_,
    fun r ks hl => ?_, fun did hlt hdid => ?_, ?_, fun i j hj => ?_⟩
  · by_cases hmem : i ∈ live
    · exact h.lt i hmem
    · exact (hnew i hi hmem).1
  · obtain ⟨hmem, hl⟩ := hold r ks hl
    obtain ⟨hmem', hl'⟩ := hold r' ks' hl'
    exact h.disjoint r ks r' ks' hl hl'
      ((hblock r ks hmem hl).symm.trans (Eq.trans heq (hblock r' ks' hmem' hl')))
  · obtain ⟨hmem, hl⟩ := hold r ks hl
    obtain ⟨did, hdid, heq⟩ := h.used r ks hl
    refine ⟨did, ?_, (hblock r ks hmem hl).trans heq⟩
    rw [hused]
    exact hdid
  · obtain ⟨hmem, hl⟩ := hold r ks hl
    exact (halone r.1 hmem).treeGood h hw (hsub hmem) hl
  · rw [hused] at hdid
    have hnone := h.unused did hlt hdid
    rw [(hstays _ (hdata did)).absent hnone.1]
    exact hnone
  · have hzero : 0 ∉ inodeBlocks := fun hmem => absurd hmem.1 (by decide)
    rcases hstays 0 hzero with heq | ⟨_, heq⟩
    · rw [heq]
      exact h.hole
    · rw [heq, Spot.pending_evict (by decide)]
      exact h.hole
  · rw [fileSize_spread] at hj
    split_ifs at hj with hi
    · by_cases hmem : i ∈ live
      · have hst := halone i hmem
        rw [hst.record] at hj
        refine (LeftAlone.live_iff (r := (indexPlace i j).1) h hst hmem hi).mpr (h.parts i j ?_)
        rw [fileSize_spread, if_pos hmem]
        exact hj
      · rw [(hnew i hi hmem).2.1] at hj
        exact absurd hj (Nat.not_lt_zero _)
    · exact absurd hj (Nat.not_lt_zero _)

/-! ## Calls on the inode cache -/

/-- A store into the record of one inode leaves every file alone. -/
theorem StoreKeeps.leftAlone (hk : StoreKeeps w iid s s') {i : ℕ} (hi : i ∈ live) :
    LeftAlone w live s s' i :=
  ⟨hk.record i (h.lt i hi), fun _ _ _ hl => hk.spot _ (h.not_mem_inodeBlocks hl)⟩

/-- A call on the inode cache leaves the files alone. -/
theorem StoreKeeps.sound (hk : StoreKeeps w iid s s') (hw : w.Reliable) :
    s'.Sound w live ∧ SameFiles live s s' := by
  constructor
  · apply h.of_leftAlone hw hk.stored hk.full (Finset.Subset.refl live)
    · exact fun i hi => hk.leftAlone h hi
    · exact fun i hi hnot => absurd hi hnot
    · exact hk.spot
  · constructor
    · intro i hi
      rw [hk.record i (h.lt i hi)]
    · exact fun i hi => (hk.leftAlone h hi).file_eq h hi hi

omit h in
/-- A call on an inode in use brings no other inode into the cache. -/
theorem StoreKeeps.within (hk : StoreKeeps w iid s s') (hin : s.Within live) (hmem : iid ∈ live) :
    s'.Within live := by
  intro i hi
  by_cases heq : i = iid
  · rw [heq]
    exact hmem
  · rcases hk.node i heq with hnode | ⟨hnone, _⟩
    · refine hin i ?_
      rwa [Sys.inodeOf, hnode] at hi
    · rw [Sys.inodeOf, hnone] at hi
      exact absurd rfl hi

/-! ## Transfers -/

variable (hin : s.Within live) {c : TransferCall} (ht : Transfers w c s s')

include hin ht

omit h hin in
/-- A transfer keeps each node of the inode cache with what is not of its file. -/
theorem Transfers.node_of_node {n' : Node Inode} {inode' : Inode} (hn' : s'.icac.node iid = some n')
    (hcontent' : n'.content = some inode') : ∃ n inode, s.icac.node iid = some n ∧
      n.content = some inode ∧
      n'.kept = n.kept ∧ inode'.iid = inode.iid ∧ inode'.type = inode.type ∧
        inode'.dip = inode.dip ∧
      inode'.aesKey = inode.aesKey ∧ inode'.aesIv = inode.aesIv := by
  have hkept := ht.kept iid
  rw [hn', Option.map_some] at hkept
  obtain ⟨n, hn, heq⟩ := Option.map_eq_some_iff.mp hkept.symm
  have hfields := congrArg (fun k => k.2.2.2.2) heq
  simp only [Node.kept, hcontent', Option.map_some] at hfields
  obtain ⟨inode, hcontent, hsame⟩ := Option.map_eq_some_iff.mp hfields
  simp only [Prod.mk.injEq] at hsame
  exact ⟨n, inode, hn, hcontent, heq.symm, hsame.1.symm, hsame.2.1.symm, hsame.2.2.1.symm,
    hsame.2.2.2.1.symm, hsame.2.2.2.2.symm⟩

omit h hin in
/-- A transfer brings no inode into the cache and evicts none. -/
theorem Transfers.inodeOf_isSome (i : ℕ) : (s'.inodeOf i).isSome = (s.inodeOf i).isSome := by
  have hkept := congrArg (fun m => (m.bind fun k => k.2.2.2.2).isSome) (ht.kept i)
  have hsome : ∀ m : Option (Node Inode), ((m.map Node.kept).bind fun k => k.2.2.2.2).isSome =
      (m.bind (·.content)).isSome := by
    intro m
    cases m with
    | none => rfl
    | some n => simp [Node.kept]
  rw [hsome, hsome] at hkept
  exact hkept

omit h hin in
/-- A transfer leaves the same inodes cached. -/
theorem Transfers.inodeOf_eq_none {i : ℕ} : s'.inodeOf i = none ↔ s.inodeOf i = none := by
  rw [← Option.isSome_eq_false_iff.trans Option.isNone_iff_eq_none,
    ← Option.isSome_eq_false_iff.trans Option.isNone_iff_eq_none, ht.inodeOf_isSome]

/-- A transfer changes no inode block. -/
theorem Transfers.stays_inodeBlock (hb : b ∈ inodeBlocks) : SpotStays w s s' b := by
  refine ht.widens.beside.spot b ?_
  have hlt : b < dataStart := hb.2.trans (by decide)
  rintro (hmem | ⟨hle, _⟩ | ⟨r, ks, hl, rfl⟩)
  · exact absurd hmem.1 (Nat.not_le.mpr hb.2)
  · exact absurd hle (Nat.not_le.mpr hlt)
  · exact absurd ((h.filesOk hin).inv.used r ks hl).dataStart_le (Nat.not_le.mpr hlt)

/-- An inode that is not cached is left alone. -/
theorem Transfers.leftAlone (hmem : iid ∈ live) (hnone : s.inodeOf iid = none) :
    LeftAlone w live s s' iid := by
  constructor
  · refine record_congr (by rw [ht.inodeOf_eq_none.mpr hnone, hnone]) fun _ => ?_
    have hblock := inodeIid2Bid_mem (h.lt iid hmem)
    have hmeta := (h.stored.metaInv _ hblock.1 (hblock.2.trans (by decide))).metaOk
    rw [(Spot.steady (h.stored.ok.filled _) hmeta (ht.stays_inodeBlock h hin hblock)).1]
  · rintro r ks rfl hl
    refine ht.widens.beside.spot _ ?_
    rintro (hb | ⟨_, hunused⟩ | ⟨r', ks', hl', heq⟩)
    · exact absurd hb.2 (Nat.not_lt.mpr (h.dataStart_le hl))
    · exact hunused (h.used r ks hl)
    · obtain ⟨inode, hinode⟩ := hl'.inode
      have hmem' := hin r'.1 (by simp [hinode])
      have hv := (live_spread hinode hmem').mp hl'
      have hplace := h.disjoint r' ks' r ks hv hl ((blockAt_spread hinode hv).symm.trans heq)
      rw [(Prod.mk.inj hplace).1, hnone] at hinode
      cases hinode

/-- The store after a transfer. -/
theorem Transfers.stored : s'.Stored w 0 := by
  have hinv := ht.ok.inv
  have halone : ∀ bid ∈ inodeBlocks, (s'.spot bid).data = (s.spot bid).data ∧
      (s'.spot bid).refs = (s.spot bid).refs ∧
        ((s.spot bid).refs ≠ 0 → s'.spot bid = s.spot bid) := fun bid hb =>
    Spot.steady (h.stored.ok.filled bid) (h.stored.metaInv bid hb.1 (hb.2.trans (by decide))).metaOk
      (ht.stays_inodeBlock h hin hb)
  refine ⟨hinv.icac, hinv.ok, hinv.metaInv, fun i n' inode' hn' hcontent' => ?_,
    fun bid hle hlt => ?_⟩
  · obtain ⟨n, inode, hn, hcontent, hkept, hiid, htype, hdip, _⟩ := ht.node_of_node hn' hcontent'
    have hb := h.stored.backs i n inode hn hcontent
    have hinode' := inodeOf_of_node hn' hcontent'
    have hblock := halone _ (inodeIid2Bid_mem hb.iid_lt)
    have hsame := hblock.2.2 (h.stored.refs_ne (inodeOf_of_node hn hcontent) hb.iid_lt)
    refine ⟨hiid.trans hb.iid_eq, hb.iid_lt, ⟨htype ▸ hb.fits.type_lt, ?_, fun r => ?_⟩,
      (congrArg (fun k => k.2.2.1) hkept).trans hb.kept, ?_, fun hclean => ?_⟩
    · have hsize := ht.ok.size_lt i
      rwa [Sys.fileSize, hinode'] at hsize
    · by_cases hzero : inode'.bid r = 0
      · rw [hzero]
        decide
      · have hblock : s'.blockAt (i, r) [] = inode'.bid r := by
          rw [Sys.blockAt_eq, Sys.slotAt_nil hinode']
          rfl
        have hl : s'.Live (i, r) [] :=
          ⟨by simp [Sys.forest, hinode'], fun heq => hzero (hblock.symm.trans heq)⟩
        obtain ⟨did, hdid, heq⟩ := hinv.used _ _ hl
        have hlt := hdid.1
        rw [← hblock, heq]
        simp only [did2Bid, dataStart]
        omega
    · rw [hsame, hdip]
      exact hb.dip
    · rw [hsame]
      rcases ht.widens.beside.node i with hnode | ⟨m, hm, hdirty⟩
      · rw [hn', hn] at hnode
        cases hnode
        rw [hcontent] at hcontent'
        cases hcontent'
        exact hb.clean hclean
      · rw [hn'] at hm
        cases hm
        rw [hclean] at hdirty
        cases hdirty
  · have hpinned : s'.pinned bid = s.pinned bid := by
      unfold Sys.pinned
      simp only [ht.inodeOf_isSome]
    rw [(halone bid ⟨hle, hlt⟩).2.1, hpinned]
    exact h.stored.refs bid hle hlt

omit hin in
/-- The nodes hold inodes after a transfer. -/
theorem Transfers.full : s'.Full := by
  intro i n' hn' hcontent'
  have hnone : s'.inodeOf i = none := by simp [Sys.inodeOf, hn', hcontent']
  have hkept := ht.kept i
  rw [hn', Option.map_some] at hkept
  obtain ⟨n, hn, _⟩ := Option.map_eq_some_iff.mp hkept.symm
  obtain ⟨inode, hcontent⟩ := Option.ne_none_iff_exists'.mp (h.full i n hn)
  rw [ht.inodeOf_eq_none, inodeOf_of_node hn hcontent] at hnone
  cases hnone

omit h in
/-- A transfer leaves the cached inodes within those in use. -/
theorem Transfers.within : s'.Within live := fun i hi => hin i (mt ht.inodeOf_eq_none.mpr hi)

/-- The blocks of all trees after a transfer. -/
theorem Transfers.live_cases {r : RootSlot} {ks : List ℕ} (hl : (s'.spread live).Live r ks) :
    (∃ inode inode', s.inodeOf r.1 = some inode ∧ s'.inodeOf r.1 = some inode' ∧ s'.Live r ks ∧
      (s'.spread live).blockAt r ks = s'.blockAt r ks) ∨
    s.inodeOf r.1 = none ∧ (s.spread live).Live r ks ∧
      (s'.spread live).blockAt r ks = (s.spread live).blockAt r ks := by
  have hmem := hl.mem_live
  cases hinode' : s'.inodeOf r.1 with
  | some inode' =>
    have hne : s.inodeOf r.1 ≠ none := fun hnone => by
      rw [ht.inodeOf_eq_none.mpr hnone] at hinode'
      cases hinode'
    obtain ⟨inode, hinode⟩ := Option.ne_none_iff_exists'.mp hne
    exact Or.inl ⟨inode, inode', hinode, rfl, (live_spread hinode' hmem).mpr hl,
      (blockAt_spread hinode' hl).symm⟩
  | none =>
    have hnone := ht.inodeOf_eq_none.mp hinode'
    have hst := ht.leftAlone h hin hmem hnone
    have hl₀ := (hst.live_iff h hmem hmem).mp hl
    exact Or.inr ⟨hnone, hl₀, hst.blockAt_eq h hmem hl₀⟩

/-- A transfer leaves the inodes in use sound. -/
theorem Transfers.sound (hw : w.Reliable) : s'.Sound w live := by
  have hinv := ht.ok.inv
  -- A block of a cached inode is none of an inode that is not cached.
  have hapart : ∀ r ks r' ks', (∃ inode, s.inodeOf r.1 = some inode) → s'.Live r ks →
    s.inodeOf r'.1 = none →
      (s.spread live).Live r' ks' → s'.blockAt r ks ≠ (s.spread live).blockAt r' ks' := by
    rintro r ks r' ks' ⟨inode, hinode⟩ hl hnone hl' heq
    by_cases hold : s.Live r ks
    · have hmem := hin r.1 (by simp [hinode])
      have hv := (live_spread hinode hmem).mp hold
      have hblock := (ht.widens.live r ks hold).2
      have hplace := h.disjoint r ks r' ks' hv hl'
        ((blockAt_spread hinode hv).symm.trans (hblock.symm.trans heq))
      rw [(Prod.mk.inj hplace).1, hnone] at hinode
      cases hinode
    · refine ht.widens.unused r ks hl hold ?_
      rw [heq]
      exact h.used r' ks' hl'
  refine ⟨ht.stored h hin, ht.full h, h.lt, fun r ks r' ks' hl hl' heq => ?_, fun r ks hl => ?_,
    fun r ks hl => ?_, hinv.unused, hinv.hole, fun i j hj => ?_⟩
  · rcases ht.live_cases h hin hl with ⟨inode, _, hinode, _, hc, hb⟩ | ⟨hnone, hv, hb⟩
    · rcases ht.live_cases h hin hl' with ⟨_, _, _, _, hc', hb'⟩ | ⟨hnone', hv', hb'⟩
      · exact hinv.disjoint r ks r' ks' hc hc' (hb.symm.trans (Eq.trans heq hb'))
      · exact absurd (hb.symm.trans (Eq.trans heq hb'))
          (hapart r ks r' ks' ⟨inode, hinode⟩ hc hnone' hv')
    · rcases ht.live_cases h hin hl' with ⟨inode', _, hinode', _, hc', hb'⟩ | ⟨_, hv', hb'⟩
      · exact absurd (hb'.symm.trans (Eq.trans heq.symm hb))
          (hapart r' ks' r ks ⟨inode', hinode'⟩ hc' hnone hv)
      · exact h.disjoint r ks r' ks' hv hv' (hb.symm.trans (Eq.trans heq hb'))
  · rcases ht.live_cases h hin hl with ⟨_, _, _, _, hc, hb⟩ | ⟨_, hv, hb⟩
    · rw [hb]
      exact hinv.used r ks hc
    · obtain ⟨did, hdid, heq⟩ := h.used r ks hv
      exact ⟨did, ht.widens.used hdid, hb.trans heq⟩
  · rcases ht.live_cases h hin hl with ⟨_, inode', _, hinode', hc, hb⟩ | ⟨hnone, hv, _⟩
    · have hgood := hinv.good r ks inode' hc hinode'
      rw [hb, ← slotAt_spread hinode' hl, record_of_inodeOf hinode']
      exact hgood
    · exact (ht.leftAlone h hin hl.mem_live hnone).treeGood h hw hl.mem_live hv
  · rw [fileSize_spread] at hj
    split_ifs at hj with hmem
    · cases hinode' : s'.inodeOf i with
      | some inode' =>
        refine (live_spread (r := (indexPlace i j).1) hinode' hmem).mp (ht.ok.parts i j ?_)
        rw [record_of_inodeOf hinode'] at hj
        rw [Sys.fileSize, hinode']
        exact hj
      | none =>
        have hst := ht.leftAlone h hin hmem (ht.inodeOf_eq_none.mp hinode')
        rw [hst.record] at hj
        refine (LeftAlone.live_iff (r := (indexPlace i j).1) h hst hmem hmem).mpr (h.parts i j ?_)
        rw [fileSize_spread, if_pos hmem]
        exact hj
    · exact absurd hj (Nat.not_lt_zero _)

/-- A transfer keeps the types. -/
theorem Transfers.type_eq (hmem : iid ∈ live) : (s'.record iid).type = (s.record iid).type := by
  cases hinode' : s'.inodeOf iid with
  | some inode' =>
    obtain ⟨n', hn', hcontent'⟩ := exists_node_of_inodeOf hinode'
    obtain ⟨n, inode, hn, hcontent, _, _, htype, _⟩ := ht.node_of_node hn' hcontent'
    rw [record_of_inodeOf hinode', record_of_inodeOf (inodeOf_of_node hn hcontent)]
    exact htype
  | none => rw [(ht.leftAlone h hin hmem (ht.inodeOf_eq_none.mp hinode')).record]

omit h in
/-- The file of a cached inode. -/
theorem Transfers.file_of_cached (hcached : s.inodeOf iid ≠ none) :
    (s.spread live).file iid = s.file iid ∧ (s'.spread live).file iid = s'.file iid := by
  obtain ⟨inode, hinode⟩ := Option.ne_none_iff_exists'.mp hcached
  obtain ⟨inode', hinode'⟩ := Option.ne_none_iff_exists'.mp (mt ht.inodeOf_eq_none.mp hcached)
  exact ⟨file_spread hinode (hin iid hcached), file_spread hinode' (hin iid hcached)⟩

/-- The file of an inode that is not cached. -/
theorem Transfers.file_of_absent (hnone : s.inodeOf iid = none) :
    (s'.spread live).file iid = (s.spread live).file iid := by
  by_cases hmem : iid ∈ live
  · exact (ht.leftAlone h hin hmem hnone).file_eq h hmem hmem
  · rw [file_eq_nil hmem, file_eq_nil hmem]

/-- When the cached files are the same, all are. -/
theorem Transfers.file_eq (hfile : s'.file = s.file) :
    (s'.spread live).file = (s.spread live).file := by
  funext i
  by_cases hi : s.inodeOf i = none
  · exact ht.file_of_absent h hin hi
  · obtain ⟨hold, hnew⟩ := ht.file_of_cached hin hi
    rw [hold, hnew, hfile]

/-- A transfer is one on the files of all inodes in use. -/
theorem Transfers.arrayStep (hcached : s.inodeOf c.iid ≠ none) :
    ArrayStep (s.spread live).file c (s'.spread live).file := by
  have harray := ht.array
  unfold ArrayStep at harray ⊢
  rw [(ht.file_of_cached hin hcached).1]
  split_ifs at harray ⊢ with hfar hwrite
  · exact ⟨harray.1, ht.file_eq h hin harray.2⟩
  · refine ⟨harray.1, funext fun i => ?_⟩
    by_cases hi : i = c.iid
    · rw [hi, Function.update_self, (ht.file_of_cached hin hcached).2, harray.2,
        Function.update_self]
    · rw [Function.update_of_ne hi]
      by_cases hnone : s.inodeOf i = none
      · exact ht.file_of_absent h hin hnone
      · obtain ⟨hold, hnew⟩ := ht.file_of_cached hin hnone
        rw [hold, hnew, harray.2, Function.update_of_ne hi]
  · exact ⟨harray.1, harray.2.1, ht.file_eq h hin harray.2.2⟩

omit h hin ht in
/-- A scan is a transfer of no bytes. -/
theorem Scanned.transfers (hsc : Scanned w s s') :
    Transfers w ⟨0, 0, fun _ => 0, 0, 0, false, 0, fun _ => 0⟩ s s' := by
  refine ⟨hsc.ok, ?_, hsc.widens.mono (Set.empty_subset _), hsc.kept⟩
  rw [hsc.file_eq]
  exact arrayStep_zero rfl rfl

end

/-! ## An empty volume -/

/-- A volume with an empty root directory, and nothing cached. -/
def freshVolume : Sys := { Sys.blank with ibm := ⟨markWord Bytes.zero 0 63, 0, false⟩ }

/-- The root of the fresh volume is an empty directory. -/
theorem freshVolume_record : (freshVolume.record 0).type = inodeTpDir ∧
    (freshVolume.record 0).size = 0 ∧ ∀ slot, (freshVolume.record 0).bid slot = 0 := by
  refine ⟨by decide +kernel, by decide +kernel, fun slot => ?_⟩
  revert slot
  decide +kernel

/-- The fresh volume has no blocks in trees. -/
theorem not_live_freshVolume {r : RootSlot} {ks : List ℕ} :
    ¬(freshVolume.spread {0}).Live r ks := by
  intro hlive
  apply (hlive.of_suffix List.nil_suffix).block_ne
  change ((freshVolume.spread {0}).forest.root r).bid = 0
  rw [root_spread hlive.mem_live, Finset.mem_singleton.mp hlive.mem_live]
  exact freshVolume_record.2.2 _

/-- The fresh volume is sound. -/
theorem freshVolume_sound : freshVolume.Sound World.plain {0} where
  stored := Sys.blank_stored _
  full _ _ hn := by cases hn
  lt iid hiid := by
    rw [Finset.mem_singleton.mp hiid]
    decide
  disjoint r ks r' ks' hlive := absurd hlive not_live_freshVolume
  used r ks hlive := absurd hlive not_live_freshVolume
  good r ks hlive := absurd hlive not_live_freshVolume
  unused _ _ _ := ⟨rfl, rfl⟩
  hole := rfl
  parts iid i hi := by
    rw [fileSize_spread] at hi
    split_ifs at hi with hmem
    · rw [Finset.mem_singleton.mp hmem, freshVolume_record.2.1] at hi
      exact absurd hi (Nat.not_lt_zero _)
    · exact absurd hi (Nat.not_lt_zero _)

end Efs
