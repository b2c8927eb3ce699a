import Efs.Remount

/-!
# The life of a volume

Sessions one after another, with an unmount and a mount between two of them. Over its whole life a
volume does what the abstract file system does, where a remount closes the handles and changes
nothing else. So what was written to a path is there until it is written again.
-/

namespace Efs

open Library

/-- A call of the application, or a remount. -/
inductive VolumeCall
  /-- A call. -/
  | call (c : ApiCall)
  /-- `efs_exit` and then `efs_init`, with the key and the hash that `efs_exit` gave. -/
  | remount (iv key : Key128) (hash : Key256)

/-- The call returns, or the volume is unmounted and mounted again. -/
def VolumeStep (w : World) (sha256Sb : SbData → Key256) (fs : Fs) (c : VolumeCall) (fs' : Fs) :
    Prop :=
  match c with
  | .call c => ApiStep w fs c fs'
  | .remount iv key hash => ∃ fs₁, efsExit w sha256Sb iv key fs = .ok (some hash, fs₁) ∧
      efsInit w sha256Sb iv key hash (fs₁.reboot w) = .ok (false, fs')

/-- What a call or a remount does to the abstract file system. -/
def VolumeDoes (a : Files) (c : VolumeCall) (a' : Files) : Prop :=
  match c with
  | .call c => c.Does a a'
  | .remount _ _ _ => a' = a.closed

/-- The call is defined. At a remount the cached blocks, and those with a pending hash, have their
own paths. -/
def VolumeCall.Defined (fs : Fs) (c : VolumeCall) : Prop :=
  match c with
  | .call c => c.Defined fs
  | .remount _ _ _ => fs.sys.Chained fs.sys.ibm.inUse

/-- The call writes to the file at the path. -/
def VolumeCall.WritesAt (c : VolumeCall) (a : Files) (path : CStr) : Prop :=
  ∃ api i, c = .call api ∧ Finds a path i ∧ api.Writes a i

/-- A cached block is a metadata block, or hangs in the root slot that its path names. -/
def Sys.hangs (s : Sys) (n : Node Block) : Bool :=
  match n.content with
  | none => true
  | some block =>
    let root := block.hashidx.at 0
    n.id < dataStart || root.id < 32768 && idUsed s.ibm.ibm root.id && root.idx < 13 &&
      (s.record root.id).bid (rootSlot root.idx) = n.id && n.id ≠ 0 &&
      (block.hashidx.at 1).id = 0 && (block.hashidx.at 2).id = 0 && (block.hashidx.at 3).id = 0

section

variable {w : World} {sha256Sb : SbData → Key256} {fs fs' : Fs} {c : VolumeCall}
  {cs : List VolumeCall}
  {kept : Multiset (ℕ × ℕ)} {a a' : Files} {path : CStr} {i : ℕ}

/-! ## Remounts -/

/-- A volume in order is unmounted, and mounted again without its handles. -/
theorem Fs.Ok.remounts (h : fs.Ok w kept) (sha256Sb : SbData → Key256) (hw : w.Reliable)
    (hchained : fs.sys.Chained fs.sys.ibm.inUse)
    (iv key : Key128) : ∃ hash fs₁ t, efsExit w sha256Sb iv key fs = .ok (some hash, fs₁) ∧
      efsInit w sha256Sb iv key hash (fs₁.reboot w) = .ok (false, t) ∧ t.Mounted w ∧
        t.view = fs.view.closed := by
  have hexit : Exec.Wp (efsExit w sha256Sb iv key) (fun r fs₁ => ∃ hash, r = some hash ∧
      Unmounted w sha256Sb iv key hash fs.sys.ibm.inUse fs.sys fs₁.sys) (fun _ => False) fs :=
    wp_efsExit hw h hchained fun hash fs₁ hleft => ⟨hash, rfl, hleft⟩
  obtain ⟨_, fs₁, hrun, hash, rfl, hleft⟩ := hexit.returns
  have hinit : Exec.Wp (efsInit w sha256Sb iv key hash) _ (fun _ => False) (fs₁.reboot w) :=
    wp_efsInit_unmounted hw h hleft
  obtain ⟨_, t, hrun', rfl, hmounted⟩ := hinit.returns
  exact ⟨hash, fs₁, t, hrun, hrun', hmounted⟩

/-- While the files have no index blocks and no hash is pending, the paths can be checked in the
cache. -/
theorem Sys.chained_of_hangs {s : Sys} (hk : s.bcac.Keyed) (hpending : s.pdWb.entries = [])
    (hhangs : s.bcac.nodes.all s.hangs = true) : s.Chained s.ibm.inUse := by
  constructor
  · intro bid block hle hblock
    obtain ⟨n, hn, hcontent⟩ := Option.bind_eq_some_iff.mp hblock
    obtain ⟨hmem, rfl⟩ := hk.node_eq_some.mp hn
    have hcheck := List.all_eq_true.mp hhangs n hmem
    simp only [Sys.hangs, hcontent, Bool.or_eq_true, Bool.and_eq_true, decide_eq_true_eq] at hcheck
    rcases hcheck with hlt | ⟨⟨⟨⟨⟨⟨⟨hlt, hused⟩, hidx⟩, hbid⟩, hne⟩, h1⟩, h2⟩, h3⟩
    · exact absurd hle (Nat.not_le.mpr hlt)
    have hlive : (block.hashidx.at 0).id ∈ s.ibm.inUse := InodeBitmap.mem_inUse.mpr ⟨hlt, hused⟩
    have hslot : (rootSlot (block.hashidx.at 0).idx).val = (block.hashidx.at 0).idx :=
      Nat.mod_eq_of_lt hidx
    have hroot : (s.spread s.ibm.inUse).blockAt
        ((block.hashidx.at 0).id, rootSlot (block.hashidx.at 0).idx) [] = n.id := by
      change ((s.spread s.ibm.inUse).forest.root _).bid = n.id
      rw [root_spread hlive]
      exact hbid
    refine ⟨((block.hashidx.at 0).id, rootSlot (block.hashidx.at 0).idx), [],
      ⟨isRoot_spread.mpr hlive, ?_⟩, hroot,
      ?_, ?_⟩
    · change (s.spread s.ibm.inUse).blockAt _ [] ≠ 0
      rw [hroot]
      exact hne
    · change block.hashidx.at 0 = ⟨_, _⟩
      rw [hslot]
    · intro i hpos hfour
      obtain rfl | rfl | rfl : i = 1 ∨ i = 2 ∨ i = 3 := by
        rw [List.length_nil] at hpos
        omega
      · exact h1
      · exact h2
      · exact h3
  · intro bid entry hentry
    have hmem := OrdMap.mem_entries.mpr hentry
    rw [hpending] at hmem
    cases hmem

/-- Each step of a life is one of the abstract file system. -/
theorem VolumeStep.stepped (hw : w.Reliable) (h : fs.Ok w kept) (hdefined : c.Defined fs)
    (hstep : VolumeStep w sha256Sb fs c fs') : VolumeDoes fs.view c fs'.view ∧
      ∃ kept', fs'.Ok w kept' := by
  cases c with
  | call c =>
    obtain ⟨kept', hstepped⟩ := ApiStep.stepped hw h hdefined hstep
    exact ⟨hstepped.does, kept', hstepped.ok⟩
  | remount iv key hash =>
    obtain ⟨fs₁, hexit, hinit⟩ := hstep
    obtain ⟨hash', fs₁', t, hexit', hinit', hmounted, hview⟩ :=
      h.remounts sha256Sb hw hdefined iv key
    rw [hexit] at hexit'
    cases hexit'
    rw [hinit] at hinit'
    cases hinit'
    exact ⟨hview, 0, hmounted.ok⟩

/-- A life is one of the abstract file system. -/
theorem volume_steps (hw : w.Reliable) (h : fs.Ok w kept)
    (hrun : Run (VolumeStep w sha256Sb) fs cs fs')
    (hdefined : Always (VolumeStep w sha256Sb) (fun fs c _ => c.Defined fs) fs cs) :
    Run VolumeDoes fs.view cs fs'.view ∧ ∃ kept', fs'.Ok w kept' := by
  induction hrun generalizing kept with
  | nil fs => exact ⟨.nil _, kept, h⟩
  | cons hstep _ ih =>
    obtain ⟨hdoes, kept₁, hok⟩ := hstep.stepped hw h (hdefined.head hstep)
    obtain ⟨hrest, hok'⟩ := ih hok (hdefined.tail hstep)
    exact ⟨.cons hdoes hrest, hok'⟩

/-- The file `/a` is made and written, and has no index block. -/
theorem freshFs_written : ∃ fs₁ fs₂,
    fopen World.plain ⟨none, 0⟩ [slash, 97#8] (oRdwr ||| oCreate) freshFs = .ok (some 0, fs₁) ∧
    fwrite World.plain 0 (fun i => BitVec.ofNat 8 i) 3 fs₁ = .ok (3, fs₂) ∧
    fs₂.sys.Chained fs₂.sys.ibm.inUse := by
  obtain ⟨⟨fp, fs₁⟩, hopen, hcheck⟩ := exists_of_check
    (x := fopen World.plain ⟨none, 0⟩ [slash, 97#8] (oRdwr ||| oCreate) freshFs)
    (p := fun r => r.1 = some 0 && (fwrite World.plain 0
      (fun i => BitVec.ofNat 8 i) 3 r.2).toOption.any fun r =>
      r.1 = 3 && r.2.sys.pdWb.entries.isEmpty && r.2.sys.bcac.nodes.all r.2.sys.hangs)
    (by decide +kernel)
  simp only [Bool.and_eq_true, decide_eq_true_eq] at hcheck
  obtain ⟨rfl, hcheck⟩ := hcheck
  obtain ⟨⟨done, fs₂⟩, hwrite, hcheck⟩ := exists_of_check hcheck
  simp only [Bool.and_eq_true, decide_eq_true_eq, List.isEmpty_iff] at hcheck
  obtain ⟨⟨rfl, hpending⟩, hhangs⟩ := hcheck
  have hrun : Run (ApiStep World.plain) freshFs
      [.fopen ⟨none, 0⟩ [slash, 97#8] (oRdwr ||| oCreate) (some 0),
        .fwrite 0 (fun i => BitVec.ofNat 8 i) 3 3] fs₂ :=
    .cons hopen (.cons ⟨by decide, hwrite⟩ (.nil fs₂))
  obtain ⟨_, kept, hok⟩ := session_steps World.plain_reliable freshFs_mounted.ok hrun
    (Always.cons_iff.mpr fun _ _ => ⟨Or.inr rfl, Always.cons_iff.mpr fun _ _ => ⟨trivial, .nil _⟩⟩)
  exact ⟨fs₁, fs₂, hopen, hwrite, Sys.chained_of_hangs hok.volume.sound.stored.ok.keyed hpending
    hhangs⟩

/-- A life of a new volume, in which the file `/a` is made and written. -/
theorem freshFs_run : ∃ cs fs₂, Run (VolumeStep World.plain fun _ => Bytes.zero) freshFs cs fs₂ ∧
    Always (VolumeStep World.plain fun _ => Bytes.zero) (fun fs c _ => c.Defined fs) freshFs cs ∧
    fs₂.sys.Chained fs₂.sys.ibm.inUse := by
  obtain ⟨fs₁, fs₂, hopen, hwrite, hchained⟩ := freshFs_written
  have hrun : Run (VolumeStep World.plain fun _ => Bytes.zero) freshFs
      [.call (.fopen ⟨none, 0⟩ [slash, 97#8] (oRdwr ||| oCreate) (some 0)),
        .call (.fwrite 0 (fun i => BitVec.ofNat 8 i) 3 3)] fs₂ :=
          .cons hopen (.cons ⟨by decide, hwrite⟩ (.nil fs₂))
  refine ⟨_, fs₂, hrun, ?_, hchained⟩
  exact Always.cons_iff.mpr fun _ _ => ⟨Or.inr rfl,
    Always.cons_iff.mpr fun _ _ => ⟨trivial, .nil _⟩⟩

/-- Over its whole life a volume does what the abstract file system does. -/
theorem volume_refines (hw : w.Reliable) (h : fs.Mounted w)
    (hrun : Run (VolumeStep w sha256Sb) fs cs fs')
    (hdefined : Always (VolumeStep w sha256Sb) (fun fs c _ => c.Defined fs) fs cs) :
    Run VolumeDoes fs.view cs fs'.view ∧ fs'.view.WellFormed := by
  obtain ⟨habstract, kept, hok⟩ := volume_steps hw h.ok hrun hdefined
  exact ⟨habstract, hok.wellFormed⟩

/-- The file `/a` is made and written, and the volume is unmounted and mounted again. -/
theorem volume_refines_fresh : ∃ hash fs', Run (VolumeStep World.plain fun _ => Bytes.zero) freshFs
      [.call (.fopen ⟨none, 0⟩ [slash, 97#8] (oRdwr ||| oCreate) (some 0)),
        .call (.fwrite 0 (fun i => BitVec.ofNat 8 i) 3 3), .remount Bytes.zero Bytes.zero hash]
          fs' ∧
    Run VolumeDoes freshFs.view
      [.call (.fopen ⟨none, 0⟩ [slash, 97#8] (oRdwr ||| oCreate) (some 0)),
        .call (.fwrite 0 (fun i => BitVec.ofNat 8 i) 3 3), .remount Bytes.zero Bytes.zero hash]
          fs'.view ∧
    fs'.view.WellFormed := by
  obtain ⟨fs₁, fs₂, hopen, hwrite, hchained⟩ := freshFs_written
  have hrun : Run (VolumeStep World.plain fun _ => Bytes.zero) freshFs
      [.call (.fopen ⟨none, 0⟩ [slash, 97#8] (oRdwr ||| oCreate) (some 0)),
        .call (.fwrite 0 (fun i => BitVec.ofNat 8 i) 3 3)] fs₂ :=
          .cons hopen (.cons ⟨by decide, hwrite⟩ (.nil fs₂))
  obtain ⟨_, kept, hok⟩ := volume_steps World.plain_reliable freshFs_mounted.ok hrun
    (Always.cons_iff.mpr fun _ _ => ⟨Or.inr rfl, Always.cons_iff.mpr fun _ _ => ⟨trivial, .nil _⟩⟩)
  obtain ⟨hash, t₁, fs', hexit, hinit, _⟩ :=
    hok.remounts (fun _ => Bytes.zero) World.plain_reliable hchained Bytes.zero Bytes.zero
  have hremount : VolumeStep World.plain (fun _ => Bytes.zero) fs₂
    (.remount Bytes.zero Bytes.zero hash) fs' :=
    ⟨t₁, hexit, hinit⟩
  have hlife := hrun.append (.cons hremount (.nil fs'))
  refine ⟨hash, fs', hlife, volume_refines World.plain_reliable freshFs_mounted hlife ?_⟩
  refine Always.cons_iff.mpr fun s₁ hs₁ => ⟨Or.inr rfl, Always.cons_iff.mpr fun s₂ hs₂ => ⟨trivial,
    Always.cons_iff.mpr fun _ _ => ⟨?_, .nil _⟩⟩⟩
  obtain rfl : s₁ = fs₁ := congrArg Prod.snd (Except.ok.inj (hs₁.symm.trans hopen))
  obtain rfl : s₂ = fs₂ := congrArg Prod.snd (Except.ok.inj (hs₂.2.symm.trans hwrite))
  exact hchained

/-- At any time in its life a volume can be unmounted, and what is mounted then is the same file
system without the handles. -/
theorem volume_remounts (hw : w.Reliable) (h : fs.Mounted w)
    (hrun : Run (VolumeStep w sha256Sb) fs cs fs')
    (hdefined : Always (VolumeStep w sha256Sb) (fun fs c _ => c.Defined fs) fs cs)
    (hchained : fs'.sys.Chained fs'.sys.ibm.inUse) (iv key : Key128) :
    ∃ hash fs₁ t, efsExit w sha256Sb iv key fs' = .ok (some hash, fs₁) ∧
      efsInit w sha256Sb iv key hash (fs₁.reboot w) = .ok (false, t) ∧ t.Mounted w ∧
        t.view = fs'.view.closed := by
  obtain ⟨_, kept, hok⟩ := volume_steps hw h.ok hrun hdefined
  exact hok.remounts sha256Sb hw hchained iv key

/-- The volume with the file `/a` is unmounted and mounted again. -/
theorem volume_remounts_fresh : ∃ fs' : Fs, fs'.sys.Chained fs'.sys.ibm.inUse ∧ ∃ hash fs₁ t,
    efsExit World.plain (fun _ => Bytes.zero) Bytes.zero Bytes.zero fs' = .ok (some hash, fs₁) ∧
      efsInit World.plain (fun _ => Bytes.zero) Bytes.zero Bytes.zero hash
        (fs₁.reboot World.plain) =
        .ok (false, t) ∧ t.Mounted World.plain ∧ t.view = fs'.view.closed := by
  obtain ⟨cs, fs', hrun, hdefined, hchained⟩ := freshFs_run
  exact ⟨fs', hchained, volume_remounts World.plain_reliable freshFs_mounted hrun hdefined hchained
    Bytes.zero Bytes.zero⟩

/-! ## What stays at a path -/

/-- A path finds at most one file. -/
theorem Finds.unique {j : ℕ} (h : Finds a path i) (h' : Finds a path j) : i = j := by
  obtain ⟨names, hpath, hleads, _⟩ := h
  obtain ⟨names', hpath', hleads', _⟩ := h'
  obtain rfl := hpath.unique hpath'
  exact hleads.unique hleads'

/-- A path still leads to its file after a new inode was made. -/
theorem Finds.create {d j : ℕ} {name : CStr} {dir : Prop} (h : Finds a path i)
    (hdirs : ∀ i, a.tree.isDir i → i ∈ a.nodes)
    (hnew : j ∉ a.nodes) (hfree : a.tree.child d name = none) :
      Finds (a.create d name j dir) path i := by
  obtain ⟨names, hpath, hleads, hfile⟩ := h
  refine ⟨names, hpath, hleads.insert (fun hdir => hnew (hdirs j hdir)) hfree, ?_⟩
  exact (FileSystem.isFile_create hnew).mpr (Or.inr hfile)

/-- What a path finds depends on the names only. -/
theorem Finds.congr (h : Finds a path i) (hnodes : a'.nodes = a.nodes) (htree : a'.tree = a.tree) :
    Finds a' path i := by
  obtain ⟨names, hpath, hleads, hmem, hfile⟩ := h
  refine ⟨names, hpath, htree ▸ hleads, hnodes ▸ hmem, ?_⟩
  rw [htree]
  exact hfile

/-- A call makes at most one new inode, under a name that meant nothing. -/
theorem FilesStep.grows {api : ApiCall} (hstep : FilesStep a api a') :
    a'.nodes = a.nodes ∧ a'.tree = a.tree ∨ ∃ d name j dir, a.tree.isDir d ∧
      a.tree.child d name = none ∧ j ∉ a.nodes ∧ a'.nodes = (a.create d name j dir).nodes ∧
        a'.tree = (a.create d name j dir).tree := by
  cases api with
  | fopen junk filename flags fp =>
    cases fp with
    | none =>
      rw [hstep.2]
      exact Or.inl ⟨rfl, rfl⟩
    | some fp =>
      rcases hstep.2.2 with ⟨_, _, rfl⟩ | ⟨_, d, name, j, ⟨_, _, _, _, _, hdir, hfree⟩, hnew, rfl⟩
      · exact Or.inl ⟨rfl, rfl⟩
      · exact Or.inr ⟨d, name, j, False, hdir, hfree, hnew.2, rfl, rfl⟩
  | fclose fp exit =>
    rw [hstep.2.2]
    exact Or.inl ⟨rfl, rfl⟩
  | fread fp data size done result =>
    obtain ⟨_, _, _, rfl⟩ := hstep
    exact Or.inl ⟨rfl, rfl⟩
  | fwrite fp data size done =>
    obtain ⟨_, _, ⟨_, _, rfl⟩ | ⟨_, _, rfl⟩⟩ := hstep
    · exact Or.inl ⟨rfl, rfl⟩
    · exact Or.inl ⟨rfl, rfl⟩
  | fseek fp off whence failed =>
    obtain ⟨_, _, ⟨_, _, rfl⟩ | ⟨_, _, rfl⟩⟩ := hstep
    · exact Or.inl ⟨rfl, rfl⟩
    · exact Or.inl ⟨rfl, rfl⟩
  | ftell fp off =>
    obtain ⟨_, _, _, rfl⟩ := hstep
    exact Or.inl ⟨rfl, rfl⟩
  | feof fp atEnd =>
    obtain ⟨_, _, _, rfl⟩ := hstep
    exact Or.inl ⟨rfl, rfl⟩
  | mkdir junk made failed =>
    cases failed with
    | true =>
      rw [hstep.2]
      exact Or.inl ⟨rfl, rfl⟩
    | false =>
      obtain ⟨d, name, j, ⟨_, _, _, _, _, hdir⟩, hfree, hnew, rfl⟩ := hstep
      exact Or.inr ⟨d, name, j, True, hdir, hfree, hnew.2, rfl, rfl⟩

/-- No call takes a file from its path. -/
theorem FilesStep.finds {api : ApiCall} (hstep : FilesStep a api a')
    (hdirs : ∀ i, a.tree.isDir i → i ∈ a.nodes) (h : Finds a path i) : Finds a' path i := by
  rcases hstep.grows with ⟨hnodes, htree⟩ | ⟨d, name, j, dir, _, hfree, hnew, hnodes, htree⟩
  · exact h.congr hnodes htree
  · exact (h.create hdirs hnew hfree).congr hnodes htree

/-- The directories of a view are among its nodes. -/
theorem Fs.mem_nodes_of_isDir {d : ℕ} (h : fs.view.tree.isDir d) : d ∈ fs.view.nodes := h.1

/-- A file that is not written to stays as it is at its path. -/
theorem volume_keeps (hw : w.Reliable) (h : fs.Ok w kept)
    (hrun : Run (VolumeStep w sha256Sb) fs cs fs')
    (hdefined : Always (VolumeStep w sha256Sb) (fun fs c _ => c.Defined fs) fs cs)
    (hquiet : Always (VolumeStep w sha256Sb) (fun fs c _ => ¬c.WritesAt fs.view path) fs cs)
    (hfind : Finds fs.view path i) :
    (∃ kept', fs'.Ok w kept') ∧ Finds fs'.view path i ∧ fs'.view.content i = fs.view.content i := by
  induction hrun generalizing kept with
  | nil fs => exact ⟨⟨kept, h⟩, hfind, rfl⟩
  | @cons fs fs₁ fs' c cs hstep _ ih =>
    obtain ⟨hdoes, kept₁, hok⟩ := hstep.stepped hw h (hdefined.head hstep)
    have hstays : Finds fs₁.view path i ∧ fs₁.view.content i = fs.view.content i := by
      cases c with
      | call api =>
        have hfiles : FilesStep fs.view api fs₁.view := hdoes
        refine ⟨hfiles.finds (fun _ => Fs.mem_nodes_of_isDir) hfind,
          hfiles.content_eq fun hwrites => ?_⟩
        exact hquiet.head hstep ⟨api, i, rfl, hfind, hwrites⟩
      | remount iv key hash =>
        have hclosed : fs₁.view = fs.view.closed := hdoes
        rw [hclosed]
        exact ⟨hfind, rfl⟩
    obtain ⟨hok', hfind', hcontent⟩ := ih hok (hdefined.tail hstep) (hquiet.tail hstep) hstays.1
    exact ⟨hok', hfind', hcontent.trans hstays.2⟩

/-- The handle that `fopen` gives is on the file at the path, and without `O_APPEND` at its
start. -/
theorem FilesStep.opened {junk : Leftover} {flags fp : ℕ}
    (hstep : FilesStep a (.fopen junk path flags (some fp)) a')
    (hdirs : ∀ i, a.tree.isDir i → i ∈ a.nodes) (hflags : flags &&& oAppend = 0) :
    ∃ h, a'.handles fp = some h ∧ Finds a' path h.node ∧ h.offset = 0 := by
  rcases hstep.2.2 with ⟨i, hfind, rfl⟩ | ⟨_, d, name, i, ⟨names, hpath, hmiss⟩, hnew, rfl⟩
  · refine ⟨_, Function.update_self .., hfind, ?_⟩
    exact if_neg fun happend => happend.2 hflags
  · refine ⟨_, Function.update_self .., ⟨names, hpath, ?_, ?_⟩, rfl⟩
    · exact hmiss.leads_insert fun hdir => hnew.2 (hdirs i hdir)
    · exact (FileSystem.isFile_create hnew.2).mpr (Or.inl ⟨rfl, id⟩)

/-- What was written to the start of a file is what a later `fopen` of its path reads, after any
calls and remounts that do not write to the file. -/
theorem written_is_kept {before between : List VolumeCall} {fs₁ fs₂ fs₃ : Fs}
    {data buf result : ℕ → Byte}
    {junk junk' : Leftover} {flags flags' fp fp' size done : ℕ} (hw : w.Reliable) (h : fs.Mounted w)
    (hflags : flags &&& oAppend = 0) (hflags' : flags' &&& oAppend = 0)
    (hbefore : Run (VolumeStep w sha256Sb) fs before fs₁)
    (hdefined : Always (VolumeStep w sha256Sb) (fun fs c _ => c.Defined fs) fs before)
    (hdefined₁ : (ApiCall.fopen junk path flags (some fp)).Defined fs₁)
    (hwrite : Run (ApiStep w) fs₁ [.fopen junk path flags (some fp), .fwrite fp data size size] fs₂)
    (hbetween : Run (VolumeStep w sha256Sb) fs₂ between fs₃)
    (hdefined₂ : Always (VolumeStep w sha256Sb) (fun fs c _ => c.Defined fs) fs₂ between)
    (hquiet : Always (VolumeStep w sha256Sb) (fun fs c _ => ¬c.WritesAt fs.view path) fs₂ between)
    (hdefined₃ : (ApiCall.fopen junk' path flags' (some fp')).Defined fs₃)
    (hread : Run (ApiStep w) fs₃ [.fopen junk' path flags' (some fp'),
      .fread fp' buf size done result] fs') :
    firstBytes result done = firstBytes data size := by
  obtain ⟨_, kept₁, hok₁⟩ := volume_steps hw h.ok hbefore hdefined
  obtain ⟨t₁, hopen, hrest⟩ := hwrite.uncons
  obtain ⟨t₂, hput, hnil⟩ := hrest.uncons
  cases hnil
  obtain ⟨kept₂, hstepped₁⟩ := hopen.stepped hw hok₁ hdefined₁
  obtain ⟨kept₃, hstepped₂⟩ := ApiStep.stepped
    (c := .fwrite fp data size size) hw hstepped₁.ok trivial hput
  have hopened : FilesStep fs₁.view _ t₁.view := hstepped₁.does
  have hwritten : FilesStep t₁.view (.fwrite fp data size size) fs₂.view := hstepped₂.does
  obtain ⟨o, ho, hfind, hoff⟩ := hopened.opened (fun _ => Fs.mem_nodes_of_isDir) hflags
  have hfind₂ := hwritten.finds (fun _ => Fs.mem_nodes_of_isDir) hfind
  -- The file begins with the bytes.
  have hbytes : readable (fs₂.view.content o.node) 0 size = firstBytes data size := by
    obtain ⟨o', ho', hcase⟩ := hwritten
    rw [ho] at ho'
    cases ho'
    rw [hoff] at hcase
    rcases hcase with ⟨_, rfl, hview⟩ | ⟨haccepted, _, hview⟩
    · rw [readable, List.take_zero, ite_self]
      rfl
    · have hsmall : ¬2 ^ 32 - 1 ≤ 0 + size := fun hlarge => haccepted (Or.inr (hoff.symm ▸ hlarge))
      have hcontent : fs₂.view.content o.node = overwrite (t₁.view.content o.node) 0
        (firstBytes data size) := by
        rw [hview]
        exact FileSystem.content_store.trans (if_pos rfl)
      have hlen : (firstBytes data size).length = size := length_firstBytes
      have hback := readable_overwrite (Nat.zero_le (t₁.view.content o.node).length)
        (by rw [hlen]; omega : 0 + (firstBytes data size).length < 2 ^ 32)
      rwa [hlen, ← hcontent] at hback
  obtain ⟨⟨kept₄, hok₃⟩, hfind₃, hsame⟩ := volume_keeps hw hstepped₂.ok hbetween hdefined₂ hquiet
    hfind₂
  obtain ⟨t₃, hopen', hrest⟩ := hread.uncons
  obtain ⟨t₄, hget, hnil⟩ := hrest.uncons
  cases hnil
  obtain ⟨kept₅, hstepped₃⟩ := hopen'.stepped hw hok₃ hdefined₃
  obtain ⟨kept₆, hstepped₄⟩ := ApiStep.stepped
    (c := .fread fp' buf size done result) hw hstepped₃.ok trivial hget
  have hopened' : FilesStep fs₃.view (.fopen junk' path flags' (some fp')) t₃.view := hstepped₃.does
  obtain ⟨o', ho', hfind', hoff'⟩ := hopened'.opened (fun _ => Fs.mem_nodes_of_isDir) hflags'
  have hnode : o.node = o'.node :=
    (hopened'.finds (fun _ => Fs.mem_nodes_of_isDir) hfind₃).unique hfind'
  have hcontent : t₃.view.content o.node = fs₃.view.content o.node := by
    apply hopened'.content_eq
    rintro ⟨_, _, _, _, _, heq, _⟩
    cases heq
  obtain ⟨o'', ho'', hresult, _⟩ := hstepped₄.does
  rw [ho'] at ho''
  cases ho''
  rw [hresult, hoff', ← hnode, hcontent, hsame]
  exact hbytes

/-- The file `/a` is written, closed, opened again and read. -/
theorem written_is_kept_fresh : ∃ fs₂ fs₃ fs' result,
    Run (ApiStep World.plain) freshFs
      [.fopen ⟨none, 0⟩ [slash, 97#8] (oRdwr ||| oCreate) (some 0),
        .fwrite 0 (fun i => BitVec.ofNat 8 i) 3 3] fs₂ ∧
    Run (VolumeStep World.plain fun _ => Bytes.zero) fs₂ [.call (.fclose 0 .closed)] fs₃ ∧
    Run (ApiStep World.plain) fs₃ [.fopen ⟨none, 0⟩ [slash, 97#8] 0 (some 1),
      .fread 1 (fun _ => 0) 3 3 result] fs' ∧
    firstBytes result 3 = firstBytes (fun i => BitVec.ofNat 8 i) 3 := by
  obtain ⟨⟨fp, fs₁⟩, hopen, hcheck⟩ := exists_of_check
    (x := fopen World.plain ⟨none, 0⟩ [slash, 97#8] (oRdwr ||| oCreate) freshFs)
    (p := fun r => r.1 = some 0 && (fwrite World.plain 0
      (fun i => BitVec.ofNat 8 i) 3 r.2).toOption.any fun r =>
      r.1 = 3 && (r.2.files 0).all (fun file => match r.2.pathset.getIndex (setNode file.path) with
          | .found i => i < r.2.pathset.numberNodes && (List.range r.2.pathset.numberNodes).all
            fun p =>
              p = i || (r.2.pathset.nodes p).isNone
          | _ => true) &&
        (fclose World.plain 0 r.2).toOption.any fun r => r.1 = .closed &&
          (fopen World.plain ⟨none, 0⟩ [slash, 97#8] 0 r.2).toOption.any fun r => r.1 = some 1 &&
            (fread World.plain 1 (fun _ => 0) 3 r.2).toOption.any fun r => r.1.1 = 3)
    (by decide +kernel)
  simp only [Bool.and_eq_true, decide_eq_true_eq] at hcheck
  obtain ⟨rfl, hcheck⟩ := hcheck
  obtain ⟨⟨done, fs₂⟩, hput, hcheck⟩ := exists_of_check hcheck
  simp only [Bool.and_eq_true, decide_eq_true_eq] at hcheck
  obtain ⟨⟨rfl, halone⟩, hcheck⟩ := hcheck
  obtain ⟨⟨exit, fs₃⟩, hclose, hcheck⟩ := exists_of_check hcheck
  simp only [Bool.and_eq_true, decide_eq_true_eq] at hcheck
  obtain ⟨rfl, hcheck⟩ := hcheck
  obtain ⟨⟨fp', fs₄⟩, hopen', hcheck⟩ := exists_of_check hcheck
  simp only [Bool.and_eq_true, decide_eq_true_eq] at hcheck
  obtain ⟨rfl, hcheck⟩ := hcheck
  obtain ⟨⟨⟨done, result⟩, fs'⟩, hget, hdone⟩ := exists_of_check hcheck
  obtain rfl : done = 3 := by simpa using hdone
  have hwell : (ApiCall.fclose 0 .closed).Defined fs₂ := by
    intro file hfile
    rw [hfile, Option.all_some] at halone
    apply PathSet.RemovesWell.of_alone
    intro i hfound
    rw [hfound] at halone
    simp only [Bool.and_eq_true, decide_eq_true_eq, List.all_eq_true, List.mem_range,
      Bool.or_eq_true,
      Option.isNone_iff_eq_none] at halone
    exact ⟨halone.1, fun p hp hne => (halone.2 p hp).resolve_left hne⟩
  have hwrite : Run (ApiStep World.plain) freshFs
      [.fopen ⟨none, 0⟩ [slash, 97#8] (oRdwr ||| oCreate) (some 0),
        .fwrite 0 (fun i => BitVec.ofNat 8 i) 3 3] fs₂ :=
    .cons hopen (.cons ⟨by decide, hput⟩ (.nil _))
  have hbetween : Run (VolumeStep World.plain fun _ => Bytes.zero) fs₂
    [.call (.fclose 0 .closed)] fs₃ :=
    .cons hclose (.nil _)
  have hread : Run (ApiStep World.plain) fs₃
      [.fopen ⟨none, 0⟩ [slash, 97#8] 0 (some 1), .fread 1 (fun _ => 0) 3 3 result] fs' :=
    .cons hopen' (.cons ⟨by decide, hget⟩ (.nil _))
  refine ⟨fs₂, fs₃, fs', result, hwrite, hbetween, hread,
    written_is_kept World.plain_reliable freshFs_mounted
    (by decide) (by decide) (.nil freshFs) (.nil _) (Or.inr rfl) hwrite hbetween ?_ ?_
      (Or.inr rfl) hread⟩
  · exact Always.cons_iff.mpr fun _ _ => ⟨hwell, .nil _⟩
  · refine Always.cons_iff.mpr fun _ _ => ⟨?_, .nil _⟩
    rintro ⟨api, i, heq, _, fp, data, size, done, h, rfl, _⟩
    cases heq

end

end Efs
