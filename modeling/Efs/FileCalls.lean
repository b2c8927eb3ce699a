import Efs.FileView

/-!
# The calls on open files

What `inode_rw_data` and the calls of `file.c` do to the view of the enclave, and to the
references to the inodes.
-/

namespace Efs

open Library

/-- What `fopen` finds or makes for its path: `writable`, the pointer and the offset. -/
inductive Opened (live : Finset ℕ) (s : Sys) (path : CStr) (flags : ℕ) :
    Option (Bool × ℕ × ℕ) → Finset ℕ → Sys → Prop
  /-- The path leads to a file. -/
  | old {names : List CStr} {iid ip : ℕ} {s' : Sys} : PathOf path names →
    (s.tree live).Leads 0 names iid →
      s.HasType live inodeTpFile iid → Unchanged live s s' → Lends 0 {(iid, ip)} s s' →
      Opened live s path flags
        (some (forWriting flags, ip, startOffset flags ((s.spread live).file iid))) live s'
  /-- The last name was missing, and a file was made. -/
  | new {names : List CStr} {d iid ip : ℕ} {name : CStr} {s' : Sys} : PathOf path names →
      forCreating flags = true → (s.tree live).Misses 0 names d name →
        Added live d iid name inodeTpFile s s' →
      Lends 0 {(iid, ip)} s s' → Opened live s path flags (some (true, ip, 0)) (insert iid live) s'
  /-- There is no such file, and none was made. -/
  | missing {s' : Sys} : (∀ names iid, PathOf path names → (s.tree live).Leads 0 names iid →
      ¬s.HasType live inodeTpFile iid) →
      (forCreating flags = true → (∃ names d name, PathOf path names ∧
        (s.tree live).Misses 0 names d name) →
        s.ibm.freeIids = ∅) →
      Unchanged live s s' → Lends 0 0 s s' → Opened live s path flags none live s'

/-- What `mkdir` does: it makes a directory, or fails, and then keeps a pointer to the directory
above it. -/
inductive MadeDir (live : Finset ℕ) (s : Sys) (path : CStr) : Bool → Finset ℕ → Sys → Prop
  /-- The directory was made. -/
  | made {d iid : ℕ} {last : CStr} {s' : Sys} : Upper (s.tree live) path d last →
      (s.tree live).child d last = none → Added live d iid last inodeTpDir s s' → Lends 0 0 s s' →
      MadeDir live s path false (insert iid live) s'
  /-- The name is taken, or all numbers are in use. -/
  | taken {d ip : ℕ} {last : CStr} {s' : Sys} : Upper (s.tree live) path d last →
      (s.tree live).child d last ≠ none ∨ s.ibm.freeIids = ∅ → Unchanged live s s' →
        Lends 0 {(d, ip)} s s' →
      MadeDir live s path true live s'
  /-- There is no directory above it. -/
  | missing {s' : Sys} : (∀ d last, ¬Upper (s.tree live) path d last) → Unchanged live s s' →
    Lends 0 0 s s' →
      MadeDir live s path true live s'

/-- There is room for a transfer of bytes of an inode that is held: in the block cache, and for a
write in the bitmap for the blocks of the range and those on the way to them. -/
structure Sys.RoomToMove (write : Bool) (size : ℕ) (s : Sys) : Prop where
  /-- Room in the block cache. -/
  bcac : s.Roomy 1
  /-- Free blocks for the range. -/
  blocks : write = true → s.HasBlocks (4 * (size / blkSz + 2))

/-- There is room to go to the directory above a path, and on to `n` more inodes. -/
def Sys.RoomAbove (creates : Prop) (path : CStr) (n : ℕ) (s : Sys) : Prop :=
  ∀ upper last before, pathSplit path = some (upper, last) → PathOf upper before →
    s.RoomToWalk creates 0 (before.length + 1 + n)

section

variable {w : World} {E : Halt → Prop} {live : Finset ℕ} {s s' : Sys} {c : TransferCall}
  {i ip off size : ℕ}
  {buf : ℕ → Byte} {write : Bool} {path : CStr} {names : List CStr} {flags : ℕ} {junk : Leftover}
  {f f' : ℕ → List Byte} {alloc : Bool} {r : Option ℕ}

/-! ## Transfers -/

/-- The other files stay. -/
theorem ArrayStep.file_of_ne (h : ArrayStep f c f') (hne : i ≠ c.iid) : f' i = f i := by
  unfold ArrayStep at h
  split_ifs at h
  · rw [h.2]
  · rw [h.2, Function.update_of_ne hne]
  · rw [h.2.2]

/-- A read leaves the files, and gets what there is. -/
theorem ArrayStep.of_read (h : ArrayStep f c f') (hread : c.write = false)
    (hle : c.off ≤ (f c.iid).length) :
    f' = f ∧ c.off + c.done ≤ (f c.iid).length ∧
      firstBytes c.result c.done = readable (f c.iid) c.off c.size := by
  unfold ArrayStep at h
  split_ifs at h with hfar hwrite
  · have hwrap : 2 ^ 32 ≤ c.off + c.size := hfar.resolve_right (by simp [hread])
    rw [h.1, readable, if_pos hwrap]
    exact ⟨h.2, hle, rfl⟩
  · rw [hread] at hwrite
    cases hwrite
  · obtain ⟨hdone, hbytes, hsame⟩ := h
    have hnowrap : ¬2 ^ 32 ≤ c.off + c.size := fun hwrap => hfar (Or.inl hwrap)
    refine ⟨hsame, by omega, ?_⟩
    rw [hbytes, readable, if_neg hnowrap, hdone, ← List.length_drop, ← List.take_take,
      List.take_length]

/-- A write that comes to the largest offset does nothing, and any other replaces its range. -/
theorem ArrayStep.of_write (h : ArrayStep f c f') (hwrite : c.write = true) :
    (2 ^ 32 - 1 ≤ c.off + c.size ∧ c.done = 0 ∧ f' = f) ∨
      (c.off + c.size < 2 ^ 32 - 1 ∧ c.done = c.size ∧
        f' = Function.update f c.iid (overwrite (f c.iid) c.off (firstBytes c.buf c.size))) := by
  unfold ArrayStep at h
  rw [if_congr Iff.rfl rfl (if_pos hwrite)] at h
  split_ifs at h with hfar
  · left
    refine ⟨?_, h⟩
    rcases hfar with hwrap | ⟨_, hlarge⟩
    · omega
    · exact hlarge
  · right
    refine ⟨?_, h⟩
    by_contra hlarge
    exact hfar (Or.inr ⟨hwrite, Nat.not_lt.mp hlarge⟩)

/-- A transfer lends nothing. -/
theorem Transfers.lends (ht : Transfers w c s s') : Lends 0 0 s s' :=
    Lends.of_stays fun i => Or.inl (ht.kept i)

/-- A transfer leaves the inode bitmap. -/
theorem Transfers.ibm_eq (ht : Transfers w c s s') : s'.ibm = s.ibm :=
    congrArg Prod.fst ht.widens.beside.rest

/-- A transfer leaves the nodes of the inode cache. -/
theorem Transfers.node_stays (ht : Transfers w c s s') (i : ℕ) : NodeStays s s' i :=
    Or.inl (ht.kept i)

/-- What a transfer of a file leaves. -/
structure Rewritten (w : World) (live : Finset ℕ) (s s' : Sys) : Prop where
  /-- The tree of directories is in order. -/
  ok : s'.TreeOk w live
  /-- The types are the same. -/
  types : ∀ i ∈ live, (s'.record i).type = (s.record i).type
  /-- The directories are the same. -/
  dirs : ∀ d, (s.tree live).isDir d → (s'.spread live).file d = (s.spread live).file d
  /-- The bitmap is the same. -/
  ibm : s'.ibm = s.ibm
  /-- Each pointer is still on loan. -/
  lends : Lends 0 0 s s'

/-- The same records have the same types. -/
theorem hasType_congr (htypes : ∀ i ∈ live, (s'.record i).type = (s.record i).type) {t : ℕ} :
    s'.HasType live t i ↔ s.HasType live t i := and_congr_right fun hi => by rw [htypes i hi]

/-- A rewritten file leaves the directories. -/
theorem Rewritten.tree_eq (h : Rewritten w live s s') :
    (s'.tree live).trim = (s.tree live).trim := by
  apply NameTree.trim_congr
  · exact funext fun i => propext (hasType_congr h.types)
  · intro d hd
    change nameMap (direntsOf _) = nameMap (direntsOf _)
    rw [h.dirs d hd]

/-- A visit rewrites no file. -/
theorem Visited.rewritten (hv : Visited w live i s s') (h : s.TreeOk w live)
    (hlends : Lends 0 0 s s') :
    Rewritten w live s s' :=
  ⟨hv.treeOk h, hv.files.type, fun d _ => congrFun hv.files.file_eq d, hv.ibm_eq, hlends⟩

/-- A file that is rewritten twice is rewritten. -/
theorem Rewritten.trans {s₁ : Sys} (h₁ : Rewritten w live s s₁) (h₂ : Rewritten w live s₁ s') :
    Rewritten w live s s' := by
  refine ⟨h₂.ok, fun i hi => (h₂.types i hi).trans (h₁.types i hi), fun d hd => ?_,
    h₂.ibm.trans h₁.ibm,
    h₁.lends.trans h₂.lends⟩
  exact (h₂.dirs d ((hasType_congr h₁.types).mpr hd)).trans (h₁.dirs d hd)

/-- A transfer of a file. -/
theorem Transfers.rewritten (hw : w.Reliable) (ht : Transfers w c s s') (h : s.TreeOk w live)
    (hfile : s.HasType live inodeTpFile c.iid)
    (harray : ArrayStep (s.spread live).file c (s'.spread live).file) : Rewritten w live s s' := by
  have hdirs : ∀ d, (s.tree live).isDir d → (s'.spread live).file d = (s.spread live).file d := by
    intro d hd
    apply harray.file_of_ne
    rintro rfl
    have htype := hfile.2
    rw [hd.2] at htype
    cases htype
  have htypes : ∀ i ∈ live, (s'.record i).type = (s.record i).type :=
    fun i hi => ht.type_eq h.sound h.within hi
  refine ⟨⟨ht.sound h.sound h.within hw, ht.within h.within, ?_,
    (hasType_congr htypes).mpr h.rootDir, fun i hi => ?_,
    ?_, ?_, fun d hd => ?_⟩, htypes, hdirs, ht.ibm_eq, ht.lends⟩
  · exact (congrArg (fun r => r.2.2.2.2.2) ht.widens.beside.rest).trans h.root
  · rw [htypes i hi]
    exact h.type i hi
  · rw [ht.ibm_eq]
    exact h.used
  · rw [ht.ibm_eq]
    exact h.search
  · have hd' := (hasType_congr htypes).mp hd
    exact (h.dirs d hd').of_file_eq (hdirs d hd') (Finset.Subset.refl live)

/-- Room above a path is room for less. -/
theorem Sys.RoomAbove.mono {creates creates' : Prop} {m n : ℕ} (h : s.RoomAbove creates path n)
    (hmn : m ≤ n) (hcreates : creates' → creates) : s.RoomAbove creates' path m :=
  fun upper last before hsplit hupper =>
    (h upper last before hsplit hupper).mono (Nat.add_le_add_left hmn _) hcreates

/-- Room to move bytes is room for the places they go to. -/
theorem Sys.RoomToMove.roomFor (h : s.RoomToMove c.write c.size) : s.RoomFor c.write c.places :=
  ⟨h.bcac, fun hwrite => ((h.blocks hwrite).supplied_waysTo c.iid).mono fun _ hq => hq.2.2⟩

/-- A call that spends no block leaves the room to move bytes. -/
theorem Sys.RoomToMove.keep (h : s.RoomToMove write size) (hspends : Spends 0 s s') :
    s'.RoomToMove write size :=
  ⟨hspends.roomy 1 h.bcac, fun hwrite => (h.blocks hwrite).mono hspends.openDids⟩

variable (hw : w.Reliable)

include hw

/-- The rule for `inode_read_file` and `inode_write_file`. -/
theorem wp_inodeRwFile_rewritten (h : s.VolumeOk w live) (hfile : s.HasType live inodeTpFile i)
    (hb : s.Borrowed i ip) (hoff : off ≤ ((s.spread live).file i).length) (hsize : size < 2 ^ 32)
    (hE : ¬s.RoomToMove write size → ∀ e : Halt, e.NoRoom → E e)
    {Q : ℕ × (ℕ → Byte) → Sys → Prop}
    (hQ : ∀ done result s', Rewritten w live s s' → s'.Unlocked →
      ArrayStep (s.spread live).file ⟨ip, i, buf, off, size, write, done, result⟩
        (s'.spread live).file →
      Q (done, result) s') : Exec.Wp (inodeRwFile w ip buf off size write) Q E s := by
  have hmem := hfile.1
  refine Exec.wp_bind.mpr (wp_inodeLock_passed hw h.sound h.within hmem hb h.unlocked
    fun s₁ h₁ hb₁ hun₁ => ?_)
  have hok₁ := h₁.toVisited.treeOk h.toTreeOk
  have hfile₁ : s₁.HasType live inodeTpFile i := h₁.files.hasType_iff.mpr hfile
  obtain ⟨n, inode, _, _, _, hp, _⟩ := hb₁.pointsTo hok₁.sound.stored hok₁.sound.full
  refine Exec.wp_bind.mpr (wp_inodeAt hok₁.sound.stored.icac hp
    (Exec.wp_ite.mpr ⟨fun _ => ?_, fun hno => ?_⟩))
  · have hlength : ((s₁.spread live).file i).length = s₁.fileSize i := by
      rw [file_spread hp.inodeOf hmem, length_file]
    have hfits : (⟨ip, i, buf, off, size, write, 0, fun _ => 0⟩ : TransferCall).Fits s₁ := by
      refine ⟨⟨inode, hp⟩, ?_, hsize⟩
      rw [← hlength, h₁.files.file_eq]
      exact hoff
    refine Exec.wp_bind.mpr (wp_inodeRwData_transfers hw _ (hok₁.sound.filesOk hok₁.within) hfits
      (fun done result s₂ ht => ?_) fun hcrowded => hE fun hroom => hcrowded
        (hroom.keep (h₁.toVisited.spends_none h.sound hb)).roomFor)
    have harray := ht.arrayStep hok₁.sound hok₁.within (by simp [hp.inodeOf])
    have h₂ := ht.rewritten hw hok₁ hfile₁ harray
    rw [h₁.files.file_eq] at harray
    refine Exec.wp_bind.mpr (wp_inodeUnlock_passed hw h₂.ok.sound h₂.ok.within hmem
      ((ht.node_stays i).borrowed hb₁) (fun j hj n hn => (ht.node_stays j).locked_eq (hun₁ j hj) hn)
      fun s₃ h₃ _ hun₃ => ?_)
    refine hQ done result s₃ (((h₁.rewritten h.toTreeOk h₁.lends).trans h₂).trans
      (h₃.rewritten h₂.ok h₃.lends)) hun₃ ?_
    rw [h₃.files.file_eq]
    exact harray
  · rw [← type_of_pointsTo hp] at hno
    exact absurd hfile₁.2 hno

/-- The rule for `inode_get_size`. -/
theorem wp_inodeGetSize_passed (h : s.VolumeOk w live) (hmem : i ∈ live) (hb : s.Borrowed i ip)
    {Q : ℕ → Sys → Prop}
    (hQ : ∀ s', Passed w live i 0 0 s s' → s'.Unlocked → Q ((s.spread live).file i).length s') :
    Exec.Wp (inodeGetSize w ip) Q E s := by
  refine Exec.wp_bind.mpr (wp_inodeLock_passed hw h.sound h.within hmem hb h.unlocked
    fun s₁ h₁ hb₁ hun₁ => ?_)
  have hok₁ := h₁.toVisited.treeOk h.toTreeOk
  obtain ⟨n, inode, _, _, _, hp, _⟩ := hb₁.pointsTo hok₁.sound.stored hok₁.sound.full
  refine Exec.wp_bind.mpr (wp_inodeAt hok₁.sound.stored.icac hp ?_)
  have hlength : inode.size = ((s.spread live).file i).length := by
    rw [← h₁.files.file_eq, file_spread hp.inodeOf hmem, length_file, hp.fileSize]
  refine Exec.wp_bind.mpr (wp_inodeUnlock_passed hw h₁.sound h₁.within hmem hb₁ hun₁
    fun s₂ h₂ _ hun₂ => ?_)
  rw [hlength, Exec.wp_pure]
  exact hQ s₂ (h₁.trans h₂) hun₂

/-! ## Opening -/

/-- The rule for the calls of `inode_get_file` on the paths that `path_check` accepts. -/
theorem wp_inodeGetFile_got (hcheck : pathCheck path = true) (h : s.VolumeOk w live)
    (hjunk : s.ibm.ibmFirstEmptyWord < 512 ∨ junk.tmp = none)
    (hlock : s.ibm.ibmLock = true → E .deadlock)
    (hE : ¬(∀ names, PathOf path names → s.RoomToWalk (alloc = true) 0 (names.length + 1)) →
      ∀ e : Halt, e.NoRoom → E e) :
    Exec.Wp (inodeGetFile w junk path alloc) (fun r s' => ∃ live', s'.VolumeOk w live' ∧
      (path = [] ∧ r = none ∧ live' = live ∧ s' = s ∨
        ∃ names, PathOf path names ∧ Got live 0 s inodeTpFile alloc 0 names r live' s')) E s := by
  have htype : ¬(inodeTpFile = inodeTpDir ∧ alloc = true) := fun hboth => absurd hboth.1 (by decide)
  by_cases hne : path = []
  · subst hne
    rw [inodeGetFile, inodeGet, if_neg htype]
    exact ⟨live, h, Or.inl ⟨rfl, rfl, rfl, rfl⟩⟩
  · obtain ⟨names, hpath⟩ := exists_pathOf hne hcheck
    rw [inodeGetFile, hpath.inodeGet_eq htype]
    refine (wp_inodeGetPath_got hw (fun _ => rfl) (fun _ => hjunk) (fun _ => hlock) h
      hpath.component fun hcrowded => hE fun hroom => hcrowded
        ((hroom names hpath).mono le_rfl And.left)).imp fun r s' hpost => ?_
    obtain ⟨live', hok, hgot, _⟩ := hpost
    exact ⟨live', hok, Or.inr ⟨names, hpath, hgot⟩⟩

omit hw in
/-- No file was found or made. -/
theorem Got.opened_missing (hpath : PathOf path names)
    (hno : ∀ iid, (s.tree live).Leads 0 names iid → ¬s.HasType live inodeTpFile iid)
    (hfull : forCreating flags = true → (∃ d name, (s.tree live).Misses 0 names d name) →
      s.ibm.freeIids = ∅)
    (hfiles : Unchanged live s s') (hlends : Lends 0 0 s s') :
      Opened live s path flags none live s' := by
  refine .missing (fun names' iid hpath' => ?_) (fun hmake hmiss => ?_) hfiles hlends
  · rw [hpath'.unique hpath]
    exact hno iid
  · obtain ⟨names', d, name, hpath', hmiss⟩ := hmiss
    rw [hpath'.unique hpath] at hmiss
    exact hfull hmake ⟨d, name, hmiss⟩

omit hw in
/-- Nothing has an empty path. -/
theorem opened_nil (s : Sys) : Opened live s [] flags none live s :=
  .missing (fun _ _ hpath => absurd rfl hpath.ne_nil)
    (fun _ ⟨_, _, _, hpath, _⟩ => absurd rfl hpath.ne_nil)
    (.refl live s) (.refl 0 s)

/-- The rule for the part of `fopen` that gets the inode. -/
theorem wp_fopenInode_opened (hcheck : pathCheck path = true) (h : s.VolumeOk w live)
    (hjunk : s.ibm.ibmFirstEmptyWord < 512 ∨ junk.tmp = none)
    (hlock : s.ibm.ibmLock = true → E .deadlock)
    (hE : ¬(∀ names, PathOf path names →
      s.RoomToWalk (flags &&& oRdwr ≠ 0 ∧ flags &&& oCreate ≠ 0) 0
      (names.length + 1)) → ∀ e : Halt, e.NoRoom → E e) :
    Exec.Wp (fopenInode w junk path flags) (fun r s' => ∃ live', s'.VolumeOk w live' ∧
      Opened live s path flags r live' s') E s := by
  refine Exec.wp_ite.mpr ⟨fun hwrite => ?_, fun hread => ?_⟩
  · have hwriting : forWriting flags = true := by simpa [forWriting] using hwrite
    refine Exec.wp_bind.mpr ((wp_inodeGetFile_got hw hcheck h hjunk hlock fun hcrowded => hE
      fun hroom => hcrowded fun names hpath => (hroom names hpath).mono le_rfl fun hmake =>
        ⟨hwrite, by simpa using hmake⟩).imp fun r s₁ hpost => ?_)
    obtain ⟨live', hok, ⟨rfl, rfl, rfl, rfl⟩ | ⟨names, hpath, hgot⟩⟩ := hpost
    · exact ⟨_, hok, opened_nil _⟩
    cases hgot with
    | found hleads htype hb hfiles hlends =>
      rename_i iid ip
      refine Exec.wp_ite.mpr ⟨fun happend => ?_, fun hstart => ?_⟩
      · refine Exec.wp_bind.mpr (wp_inodeGetSize_passed hw hok htype.1 hb fun s₂ h₂ hun₂ => ?_)
        refine ⟨live, ⟨h₂.toVisited.treeOk hok.toTreeOk, hun₂⟩, ?_⟩
        have hopen := @Opened.old _ _ _ flags _ _ _ _ hpath hleads htype (hfiles.trans h₂.unchanged)
          (hlends.trans (h₂.lends.keep _))
        rw [startOffset, if_pos ⟨hwriting, happend⟩, hwriting, ← hfiles.file_eq] at hopen
        exact hopen
      · refine ⟨live, hok, ?_⟩
        have hopen := @Opened.old _ _ _ flags _ _ _ _ hpath hleads htype hfiles hlends
        rw [startOffset, if_neg fun happend => hstart happend.2, hwriting] at hopen
        exact hopen
    | made hmake hmiss hadded hb hlends =>
      rename_i d iid ip name
      have hcreating : forCreating flags = true := by simpa [forCreating, hwriting] using hmake
      refine Exec.wp_ite.mpr ⟨fun _ => ?_, fun _ =>
        ⟨_, hok, .new hpath hcreating hmiss hadded hlends⟩⟩
      refine Exec.wp_bind.mpr (wp_inodeGetSize_passed hw hok (Finset.mem_insert_self iid live) hb
        fun s₂ h₂ hun₂ => ?_)
      refine ⟨_, ⟨h₂.toVisited.treeOk hok.toTreeOk, hun₂⟩, ?_⟩
      have hnil : (s₁.spread (insert iid live)).file iid = [] := by
        have hne : iid ≠ d := by
          rintro rfl
          obtain ⟨_, _, _, hdir, _⟩ := hmiss
          exact hadded.new hdir.1
        rw [hadded.file, Function.update_of_ne hne, file_eq_nil hadded.new]
      rw [hnil, List.length_nil]
      exact .new hpath hcreating hmiss (hadded.trans_same h₂.unchanged)
        (hlends.trans (h₂.lends.keep _))
    | missing hno hfull hfiles hlends =>
      refine ⟨live, hok, Got.opened_missing hpath hno (fun hmake => hfull ?_) hfiles hlends⟩
      simpa [forCreating, hwriting] using hmake
  · have hreading : forWriting flags = false := by simpa [forWriting] using hread
    have hcreating : forCreating flags = false := by simp [forCreating, hreading]
    refine Exec.wp_bind.mpr ((wp_inodeGetFile_got hw hcheck h hjunk hlock fun hcrowded => hE
      fun hroom => hcrowded fun names hpath => (hroom names hpath).mono le_rfl
        fun hmake => Bool.noConfusion hmake).imp fun r s₁ hpost => ?_)
    obtain ⟨live', hok, ⟨rfl, rfl, rfl, rfl⟩ | ⟨names, hpath, hgot⟩⟩ := hpost
    · exact ⟨_, hok, opened_nil _⟩
    cases hgot with
    | found hleads htype hb hfiles hlends =>
      refine ⟨live, hok, ?_⟩
      have hopen := @Opened.old _ _ _ flags _ _ _ _ hpath hleads htype hfiles hlends
      rw [startOffset, if_neg (by simp [hreading]), hreading] at hopen
      exact hopen
    | made hmake => cases hmake
    | missing hno _ hfiles hlends =>
      refine ⟨live, hok, Got.opened_missing hpath hno (fun hmake => ?_) hfiles hlends⟩
      rw [hcreating] at hmake
      cases hmake

/-! ## New directories -/

/-- The rule for `inode_mkdir` in a directory that is held. -/
theorem wp_inodeMkdir_made {d : ℕ} {name : CStr} (hname : name = [] ∨ Component name)
    (h : s.VolumeOk w live) (hdir : (s.tree live).isDir d) (hb : s.Borrowed d ip)
    (hjunk : s.ibm.ibmFirstEmptyWord < 512 ∨ junk.tmp = none)
    (hlock : s.ibm.ibmLock = true → E .deadlock)
    (hE : ¬s.RoomToWalk True {(d, ip)} 1 → ∀ e : Halt, e.NoRoom → E e) {Q : Bool → Sys → Prop}
    (hold : ∀ s', s'.VolumeOk w live → Unchanged live s s' → Lends 0 0 s s' →
      (s.tree live).child d name ≠ none ∨ s.ibm.freeIids = ∅ → Q true s')
    (hnew : ∀ iid s', s'.VolumeOk w (insert iid live) → s'.Borrowed d ip →
      Added live d iid name inodeTpDir s s' →
      Lends 0 0 s s' → (s.tree live).child d name = none → Q false s') :
    Exec.Wp (inodeMkdir w junk ip name) Q E s := by
  have hlen : name.length ≤ dirnameMaxLen := by
    rcases hname with rfl | hname
    · exact Nat.zero_le _
    · exact hname.length_le
  have hzero : ∀ c ∈ name, c ≠ 0 := by
    rcases hname with rfl | hname
    · exact fun c hc => (List.not_mem_nil hc).elim
    · exact hname.validName.nonzero
  refine Exec.wp_bind.mpr (wp_inodeLock_passed hw h.sound h.within hdir.1 hb h.unlocked
    fun s₁ h₁ hb₁ hun₁ => ?_)
  have htree := h₁.files.tree_eq
  have hibm := h₁.toVisited.ibm_eq
  rw [← htree] at hdir
  rw [← hibm] at hjunk hlock
  refine Exec.wp_bind.mpr (wp_inodeNew_inside hw
    ⟨h₁.toVisited.treeOk h.toTreeOk, hb₁, hun₁⟩ hdir hlen hzero
    (Or.inl rfl) hjunk hlock (fun hcrowded => hE fun hroom => hcrowded ?_) ?_ ?_)
  · have hroom₁ := hroom.keep (h₁.toVisited.spends_none h.sound hb) (h₁.lends.keep _) id
    exact ⟨(hroom₁.hasRoom (by simp)).icac, hroom₁.bcac, hroom₁.blocks trivial⟩
  · intro s₂ hin₂ hsame hlends _ hwhy
    rw [htree, hibm] at hwhy
    refine Exec.wp_bind.mpr (wp_inodeUnlock_passed hw hin₂.ok.sound hin₂.ok.within hdir.1
      hin₂.borrowed
      hin₂.unlockedBut fun s₃ h₃ _ hun₃ => ?_)
    rw [decide_eq_true rfl, Exec.wp_pure]
    exact hold s₃ ⟨h₃.toVisited.treeOk hin₂.ok, hun₃⟩
      ((h₁.unchanged.trans hsame).trans h₃.unchanged)
      ((h₁.lends.trans hlends).trans h₃.lends) hwhy
  · intro iid s₂ hin₂ hadded hlends _ hnone
    rw [htree] at hnone
    have hiid : iid ≠ 0 := by
      rintro rfl
      exact hadded.new h.zero_mem
    refine Exec.wp_bind.mpr (wp_inodeUnlock_passed hw hin₂.ok.sound hin₂.ok.within
      (Finset.mem_insert_of_mem hdir.1) hin₂.borrowed hin₂.unlockedBut fun s₃ h₃ hb₃ hun₃ => ?_)
    rw [decide_eq_false hiid, Exec.wp_pure]
    exact hnew iid s₃ ⟨h₃.toVisited.treeOk hin₂.ok, hun₃⟩ hb₃
      ((hadded.of_same h₁.unchanged).trans_same h₃.unchanged)
        ((h₁.lends.trans hlends).trans h₃.lends) hnone

omit hw in
/-- A directory above a path is that of its names but the last one. -/
theorem Upper.of_split {t : NameTree ℕ CStr} {before : List CStr} {last : CStr}
    (hpath : PathOf path names)
    (hsplit : names = [] ∧ before = [] ∧ last = [] ∨ names = before ++ [last]) {d : ℕ}
      {last' : CStr}
    (h : Upper t path d last') : t.Leads 0 before d ∧ t.isDir d ∧ last' = last := by
  obtain ⟨names', before', hpath', hsplit', hleads, hdir⟩ := h
  obtain rfl := hpath'.unique hpath
  rcases hsplit with ⟨rfl, rfl, rfl⟩ | rfl
  · rcases hsplit' with ⟨_, rfl, rfl⟩ | heq
    · exact ⟨hleads, hdir, rfl⟩
    · simp at heq
  · rcases hsplit' with ⟨heq, _⟩ | heq
    · simp at heq
    · obtain ⟨rfl, hlast⟩ := List.append_inj' heq rfl
      exact ⟨hleads, hdir, (List.cons.inj hlast).1.symm⟩

/-- The rule for a call on the directory above a path. -/
theorem wp_onUpper_got (hcheck : pathCheck path = true) (hne : path ≠ []) (h : s.VolumeOk w live)
    (hE : ¬s.RoomAbove False path 0 → ∀ e : Halt, e.NoRoom → E e)
    {f : ℕ → CStr → Exec Halt Sys Bool} {Q : Bool → Sys → Prop}
    (hmissing : ∀ s', s'.VolumeOk w live → Unchanged live s s' → Lends 0 0 s s' →
      (∀ d last, ¬Upper (s.tree live) path d last) → Q true s')
    (hfound : ∀ d ip last s', Upper (s.tree live) path d last →
      (∀ d' last', Upper (s.tree live) path d' last' → d' = d ∧ last' = last) →
      (last = [] ∨ Component last) → s'.VolumeOk w live → s'.Borrowed d ip → Unchanged live s s' →
      Lends 0 {(d, ip)} s s' →
      (∀ creates n, s.RoomAbove creates path n → s'.RoomToWalk creates {(d, ip)} n) →
      Exec.Wp (f ip last) (fun failed t => (failed = true → Q true t) ∧
        (failed = false → Exec.Wp (inodeReturn w ip) (fun _ => Q false) E t)) E s') :
    Exec.Wp (onUpper w junk path f) Q E s := by
  refine Exec.wp_ite.mpr ⟨fun hbad => ?_, fun _ => ?_⟩
  · rw [hcheck] at hbad
    cases hbad
  obtain ⟨names, hpath⟩ := exists_pathOf hne hcheck
  obtain ⟨upper, last, before, hpathSplit, hupper, hlast⟩ := hpath.pathSplit
  have hsplit : names = [] ∧ before = [] ∧ last = [] ∨ names = before ++ [last] := by
    rcases hlast with ⟨hnil, hslash, hlast⟩ | hnames
    · left
      refine ⟨hnil, ?_, hlast⟩
      have hroot : PathOf [slash] before := by
        have heq : Efs.pathSplit [slash] = some ([slash], []) := by decide
        rw [hslash, heq] at hpathSplit
        cases hpathSplit
        exact hupper
      exact hroot.unique ⟨fun _ hmem => (List.not_mem_nil hmem).elim, rfl⟩
    · exact Or.inr hnames
  have hname : last = [] ∨ Component last := by
    rcases hsplit with ⟨_, _, hnil⟩ | rfl
    · exact Or.inl hnil
    · exact Or.inr (hpath.component last (by simp))
  rw [hpathSplit]
  have htype : ¬(inodeTpDir = inodeTpDir ∧ false = true) := by decide
  refine Exec.wp_bind.mpr ?_
  rw [inodeGetDir, hupper.inodeGet_eq htype]
  refine (wp_inodeGetPath_got hw (fun h => by cases h) (fun h => by cases h)
    (fun h => by cases h) h hupper.component fun hcrowded => hE fun hroom => hcrowded
      ((hroom upper last before hpathSplit hupper).mono le_rfl fun hmake =>
        Bool.noConfusion hmake.1)).imp fun r s₁ hpost => ?_
  obtain ⟨live₁, hok, hgot, hspends⟩ := hpost
  cases hgot with
  | missing hno _ hfiles hlends =>
    refine hmissing s₁ hok hfiles hlends fun d last' hup => ?_
    obtain ⟨hleads, hdir, _⟩ := hup.of_split hpath hsplit
    exact hno d hleads hdir
  | made halloc => cases halloc
  | found hleads hdir hb hfiles hlends =>
    rename_i d ip
    have honly : ∀ d' last', Upper (s.tree live) path d' last' → d' = d ∧ last' = last := by
      intro d' last' hup
      obtain ⟨hleads', _, hlast'⟩ := hup.of_split hpath hsplit
      exact ⟨hleads'.unique hleads, hlast'⟩
    refine Exec.wp_bind.mpr ((hfound d ip last s₁ ⟨names, before, hpath, hsplit, hleads, hdir⟩
      honly hname hok hb hfiles hlends fun creates n hroom =>
        (hroom upper last before hpathSplit hupper).spend (hspends rfl (by simp)) hlends id).imp
          fun failed t hpost => ?_)
    cases failed with
    | true => exact Exec.wp_ite.mpr ⟨fun _ => hpost.1 rfl, fun hfalse => absurd rfl hfalse⟩
    | false =>
      refine Exec.wp_ite.mpr ⟨fun hfalse => (by cases hfalse), fun _ => ?_⟩
      exact Exec.wp_bind.mpr (hpost.2 rfl)

/-- The rule for `mkdir`. -/
theorem wp_onUpper_madeDir (hcheck : pathCheck path = true) (hne : path ≠ [])
    (h : s.VolumeOk w live) (hjunk : s.ibm.ibmFirstEmptyWord < 512 ∨ junk.tmp = none)
    (hlock : s.ibm.freeIids = ∅ → E .deadlock)
    (hE : ¬s.RoomAbove True path 1 → ∀ e : Halt, e.NoRoom → E e) :
    Exec.Wp (onUpper w junk path (inodeMkdir w junk))
      (fun failed s' => ∃ live', s'.VolumeOk w live' ∧
      MadeDir live s path failed live' s') E s := by
  refine wp_onUpper_got hw hcheck hne h (fun hcrowded => hE fun hroom => hcrowded
    (hroom.mono (Nat.zero_le 1) fun hfalse => hfalse.elim)) ?_ ?_
  · intro s₁ hok hfiles hlends hno
    exact ⟨live, hok, .missing hno hfiles hlends⟩
  · intro d ip last s₁ hup _ hname hok hb hfiles hlends hwalk
    have htree := hfiles.tree_eq
    have hdir : (s.tree live).isDir d := by
      obtain ⟨_, _, _, _, _, hdir⟩ := hup
      exact hdir
    refine wp_inodeMkdir_made hw hname hok (hfiles.hasType_iff.mpr hdir) hb ?_ ?_
      (fun hcrowded => hE fun hroom => hcrowded (hwalk True 1 hroom)) ?_ ?_
    · rw [hfiles.hint]
      exact hjunk
    · intro hlocked
      have hempty := hok.search.locked hlocked
      rw [InodeBitmap.freeIids, hfiles.used] at hempty
      exact hlock hempty
    · intro s₂ hok₂ hsame hkeeps hwhy
      rw [htree, InodeBitmap.freeIids, hfiles.used] at hwhy
      exact ⟨fun _ => ⟨live, hok₂, .taken hup hwhy (hfiles.trans hsame)
        (hlends.trans (hkeeps.keep _))⟩, fun hfalse => (by cases hfalse)⟩
    · intro iid s₂ hok₂ hb₂ hadded hkeeps hnone
      rw [htree] at hnone
      refine ⟨fun hfalse => (by cases hfalse), fun _ => ?_⟩
      have hself : ∀ n, s₂.icac.node d = some n → n.locked = false := hok₂.unlocked d
      refine wp_inodeReturn_passed hw hok₂.sound hok₂.within (Finset.mem_insert_of_mem hdir.1)
        hb₂ hself fun s₃ h₃ hself₃ => ?_
      refine ⟨_, ⟨h₃.toVisited.treeOk hok₂.toTreeOk,
        h₃.toVisited.unlocked hok₂.unlocked.but hself₃⟩, ?_⟩
      exact .made hup hnone ((hadded.of_same hfiles).trans_same h₃.unchanged)
        ((hlends.trans (hkeeps.keep _)).trans h₃.lends)

end

end Efs
