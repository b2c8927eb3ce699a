import Efs.FileCalls
import Efs.HandleOffset

/-!
# Steps of a session

Each call of the application does to the view of the enclave what the abstract call does, and
each handle stays one loan of its inode.
-/

namespace Efs

open Library

/-- The session after the call `c`, which kept a pointer or not. -/
structure Stepped (w : World) (kept : Multiset (ℕ × ℕ)) (fs : Fs) (c : ApiCall)
    (kept' : Multiset (ℕ × ℕ))
    (fs' : Fs) : Prop where
  /-- The session is in order. -/
  ok : fs'.Ok w kept'
  /-- The abstract call. -/
  does : c.Does fs.view fs'.view
  /-- The pointers that are not given back. -/
  keeps : (∃ d ip, c.Keeps fs.view d ∧ kept' = (d, ip) ::ₘ kept) ∨ (∀ d, ¬c.Keeps fs.view d) ∧
    kept' = kept

section

variable {w : World} {E : Halt → Prop} {kept loans : Multiset (ℕ × ℕ)} {fs fs' t : Fs} {s s' : Sys}
  {fp node size off : ℕ}
  {file : File} {data : ℕ → Byte} {live : Finset ℕ} {o : Option File}

/-! ## The view after a call -/

/-- A record is set while the inodes of the others stay. -/
theorem openFile_update (hfiles : t.files = Function.update fs.files fp o)
    (hiid : ∀ fp' ≠ fp, ∀ file, fs.files fp' = some file →
      t.sys.iidAt file.ip = fs.sys.iidAt file.ip) :
    t.openFile = Function.update fs.openFile fp
      (o.map fun file => ⟨t.sys.iidAt file.ip, file.path, file.writable, file.offset⟩) := by
  funext fp'
  by_cases hfp : fp' = fp
  · subst hfp
    rw [Function.update_self, Fs.openFile, hfiles, Function.update_self]
  · rw [Function.update_of_ne hfp, Fs.openFile, Fs.openFile, hfiles, Function.update_of_ne hfp]
    cases hfile : fs.files fp' with
    | none => rfl
    | some file => rw [Option.map_some, Option.map_some, hiid fp' hfp file hfile]

/-- The same handles on the same inodes are the same open files. -/
theorem openFile_same (hiid : ∀ fp file, fs.files fp = some file →
    t.sys.iidAt file.ip = fs.sys.iidAt file.ip)
    (hfiles : t.files = fs.files) : t.openFile = fs.openFile := by
  funext fp
  rw [Fs.openFile, Fs.openFile, hfiles]
  cases hfile : fs.files fp with
  | none => rfl
  | some file => rw [Option.map_some, Option.map_some, hiid fp file hfile]

/-- The numbers in use are those of the bitmap. -/
theorem inUse_of_used {b b' : InodeBitmap} (h : b'.used = b.used) : b'.inUse = b.inUse :=
  InodeBitmap.inUse_eq (h.trans InodeBitmap.coe_inUse.symm)

/-- The files are as they were. -/
theorem SameFiles.view (h : SameFiles fs.sys.ibm.inUse fs.sys t.sys)
    (hlive : t.sys.ibm.inUse = fs.sys.ibm.inUse) :
    t.view = { fs.view with handles := t.openFile } := by
  ext1
  · exact hlive
  · change (t.sys.tree t.sys.ibm.inUse).trim = (fs.sys.tree fs.sys.ibm.inUse).trim
    rw [hlive, h.tree_eq]
  · change t.sys.contentOf t.sys.ibm.inUse = fs.sys.contentOf fs.sys.ibm.inUse
    funext i
    rw [hlive, Sys.contentOf, h.tree_eq, h.file_eq, Sys.contentOf]
  · rfl

/-- Only the handles change in the view of a state that stays. -/
theorem Unchanged.view (h : Unchanged fs.sys.ibm.inUse fs.sys t.sys) :
    t.view = { fs.view with handles := t.openFile } :=
  h.toSameFiles.view (inUse_of_used h.used)

/-- A rewritten file gets its bytes in the view. -/
theorem Rewritten.view (h : Rewritten w fs.sys.ibm.inUse fs.sys t.sys) (hfile : fs.view.IsFile node)
    {bytes : List Byte} (hcontent : (t.sys.spread fs.sys.ibm.inUse).file =
      Function.update (fs.sys.spread fs.sys.ibm.inUse).file node bytes) :
    t.view = { fs.view.store node bytes with handles := t.openFile } := by
  have hlive : t.sys.ibm.inUse = fs.sys.ibm.inUse := congrArg InodeBitmap.inUse h.ibm
  ext1
  · exact hlive
  · change (t.sys.tree t.sys.ibm.inUse).trim = (fs.sys.tree fs.sys.ibm.inUse).trim
    rw [hlive, h.tree_eq]
  · change t.sys.contentOf t.sys.ibm.inUse = Function.update
      (fs.sys.contentOf fs.sys.ibm.inUse) node bytes
    funext i
    have hdir : (t.sys.tree fs.sys.ibm.inUse).isDir i ↔ (fs.sys.tree fs.sys.ibm.inUse).isDir i :=
      hasType_congr h.types
    rw [hlive, Sys.contentOf, hcontent]
    by_cases hi : i = node
    · subst hi
      rw [Function.update_self, Function.update_self, if_neg (mt hdir.mp hfile.2)]
    · rw [Function.update_of_ne hi, Function.update_of_ne hi, Sys.contentOf]
      by_cases hd : (fs.sys.tree fs.sys.ibm.inUse).isDir i
      · rw [if_pos hd, if_pos (hdir.mpr hd)]
      · rw [if_neg hd, if_neg (mt hdir.mp hd)]
  · rfl

/-- A new inode. -/
theorem Added.view {d iid type : ℕ} {name : CStr}
    (h : Added fs.sys.ibm.inUse d iid name type fs.sys t.sys)
    (hdir : (fs.sys.tree fs.sys.ibm.inUse).isDir d) :
    t.view = { fs.view.create d name iid (type = inodeTpDir) with handles := t.openFile } := by
  have hlive : t.sys.ibm.inUse = insert iid fs.sys.ibm.inUse :=
    InodeBitmap.inUse_eq (by rw [h.used, Finset.coe_insert, InodeBitmap.coe_inUse])
  have hnotDir : ¬(fs.sys.tree fs.sys.ibm.inUse).isDir iid := fun hmem => h.new hmem.1
  have htree : (t.sys.tree t.sys.ibm.inUse).trim =
      (fs.sys.tree fs.sys.ibm.inUse).trim.insert d name iid (type = inodeTpDir) := by
    rw [hlive, h.tree]
    exact NameTree.trim_insert hdir hnotDir fun k => child_eq_none_of_notMem h.new
  ext1
  · exact hlive
  · exact htree
  · change t.sys.contentOf t.sys.ibm.inUse = fs.sys.contentOf fs.sys.ibm.inUse
    funext i
    rw [hlive, Sys.contentOf, Sys.contentOf, h.tree, h.file]
    by_cases hi : i = iid
    · subst hi
      have hne : i ≠ d := by
        rintro rfl
        exact hnotDir hdir
      rw [Function.update_of_ne hne, file_eq_nil h.new, ite_self, ite_self]
    · have hiff : ((fs.sys.tree fs.sys.ibm.inUse).insert d name iid (type = inodeTpDir)).isDir i ↔
          (fs.sys.tree fs.sys.ibm.inUse).isDir i :=
        ⟨fun hor => (hor.resolve_left fun hnew => hi hnew.1).2, fun hold => Or.inr ⟨hi, hold⟩⟩
      by_cases hd : (fs.sys.tree fs.sys.ibm.inUse).isDir i
      · rw [if_pos hd, if_pos (hiff.mpr hd)]
      · have hne : i ≠ d := by
          rintro rfl
          exact hd hdir
        rw [if_neg hd, if_neg (mt hiff.mp hd), Function.update_of_ne hne]
  · rfl

/-! ## The loans after a call -/

/-- The inode blocks of a good state hold what is needed. -/
theorem Fs.Ok.stored (h : fs.Ok w kept) : fs.sys.Stored w 0 := h.volume.sound.stored

/-- The inodes of a good state are cached with their records. -/
theorem Fs.Ok.full (h : fs.Ok w kept) : fs.sys.Full := h.volume.sound.full

/-- The handles hold the same loans. -/
theorem Fs.Ok.loans_eq (h : fs.Ok w kept) {l : List ℕ} (hl : ∀ fp ∈ l, fp ∈ fs.fset)
    (hfiles : ∀ fp ∈ l, ∀ file, fs.files fp = some file → ∃ file', t.files fp = some file' ∧
      file'.ip = file.ip ∧
      t.sys.iidAt file.ip = fs.sys.iidAt file.ip) :
    (l : Multiset ℕ).map t.loan = (l : Multiset ℕ).map fs.loan := by
  refine Multiset.map_congr rfl fun fp hfp => ?_
  obtain ⟨file, hfile⟩ := h.registered.file fp (hl fp hfp)
  obtain ⟨file', hfile', hip, hiid⟩ := hfiles fp hfp file hfile
  rw [Fs.loan_eq hfile', Fs.loan_eq hfile, hip, hiid]

/-- What is on loan to the handles keeps its number. -/
theorem Fs.Ok.iidAt_kept (h : fs.Ok w kept) {live : Finset ℕ} (hok : s'.TreeOk w live)
    (hloans : s'.OnLoan (loans + fs.loans)) :
    ∀ fp file, fs.files fp = some file → s'.iidAt file.ip = fs.sys.iidAt file.ip :=
  fun _ _ hfile => h.iidAt_eq hok.sound.stored hok.sound.full hloans hfile

/-- The same paths are open. -/
theorem Session.Registered.of_paths (h : Session.Registered ⟨fs, fs.fset⟩)
    (hset : t.pathset = fs.pathset)
    (hfset : t.fset = fs.fset) (hnext : fs.nextFp ≤ t.nextFp)
    (hpath : ∀ fp, (t.files fp).map File.path = (fs.files fp).map File.path) :
    Session.Registered ⟨t, t.fset⟩ := by
  have hpaths : ∀ fp, Session.path ⟨t, fs.fset⟩ fp = Session.path ⟨fs, fs.fset⟩ fp := hpath
  refine ⟨?_, fun path => ?_, ?_, ?_, fun fp hfp => ?_, fun fp hfp => ?_⟩
  · change t.pathset.Good
    rw [hset]
    exact h.good
  · change path ∈ t.pathset.keys ↔ ∃ fp ∈ t.fset, _
    simp only [hset, hfset, hpaths]
    exact h.keys path
  · change ∀ fp ∈ t.fset, ∀ fp' ∈ t.fset, _
    simp only [hfset, hpaths]
    exact h.one
  · change t.fset.Nodup
    rw [hfset]
    exact h.nodup
  · change fp ∈ t.fset at hfp
    rw [hfset] at hfp
    exact (h.lt fp hfp).trans_le hnext
  · change fp ∈ t.fset at hfp
    rw [hfset] at hfp
    obtain ⟨file, hfile⟩ := h.file fp hfp
    have hsome := hpath fp
    rw [hfile, Option.map_some] at hsome
    obtain ⟨file', hfile', _⟩ := Option.map_eq_some_iff.mp hsome
    exact ⟨file', hfile'⟩

/-- A call that leaves the records of the handles. -/
theorem Fs.Ok.of_files (h : fs.Ok w kept) {kept' : Multiset (ℕ × ℕ)} (hfiles : t.files = fs.files)
    (hset : t.pathset = fs.pathset) (hfset : t.fset = fs.fset) (hnext : fs.nextFp ≤ t.nextFp)
    (hok : t.sys.VolumeOk w t.sys.ibm.inUse) (hloans : t.sys.OnLoan (kept' + fs.loans))
    (hwf : t.view.WellFormed) : t.Ok w kept' := by
  have hiid := h.iidAt_kept hok.toTreeOk hloans
  refine ⟨hok, h.registered.of_paths hset hfset hnext
    fun fp => by rw [hfiles], fun fp hfp => ?_, ?_, hwf⟩
  · rw [hfset]
    rw [hfiles] at hfp
    exact h.listed fp hfp
  · have heq : t.loans = fs.loans := by
      rw [Fs.loans, Fs.loans, hfset]
      refine h.loans_eq (fun _ hmem => hmem) fun fp _ file hfile => ?_
      exact ⟨file, by rw [hfiles, hfile], rfl, hiid fp file hfile⟩
    rw [heq]
    exact hloans

/-- A call that moves the offset of one handle. -/
theorem Fs.Ok.of_offset (h : fs.Ok w kept) (hfile : fs.files fp = some file) {n : ℕ}
    (hfiles : t.files = Function.update fs.files fp (some { file with offset := n }))
    (hset : t.pathset = fs.pathset) (hfset : t.fset = fs.fset) (hnext : fs.nextFp ≤ t.nextFp)
    (hok : t.sys.VolumeOk w t.sys.ibm.inUse) (hloans : t.sys.OnLoan (kept + fs.loans))
    (hwf : t.view.WellFormed) : t.Ok w kept := by
  have hiid := h.iidAt_kept hok.toTreeOk hloans
  have hrecord : ∀ fp' file', fs.files fp' = some file' →
      ∃ file'', t.files fp' = some file'' ∧ file''.ip = file'.ip ∧ file''.path = file'.path := by
    intro fp' file' hfile'
    rw [hfiles]
    by_cases heq : fp' = fp
    · subst heq
      rw [hfile] at hfile'
      cases hfile'
      rw [Function.update_self]
      exact ⟨_, rfl, rfl, rfl⟩
    · rw [Function.update_of_ne heq]
      exact ⟨file', hfile', rfl, rfl⟩
  have hnone : ∀ fp', fs.files fp' = none → t.files fp' = none := by
    intro fp' hfile'
    have hne : fp' ≠ fp := by
      rintro rfl
      rw [hfile] at hfile'
      cases hfile'
    rw [hfiles, Function.update_of_ne hne, hfile']
  refine ⟨hok, h.registered.of_paths hset hfset hnext fun fp' => ?_, fun fp' hfp => ?_, ?_, hwf⟩
  · cases hfile' : fs.files fp' with
    | none => rw [hnone fp' hfile']
    | some file' =>
      obtain ⟨file'', hfile'', _, hpath⟩ := hrecord fp' file' hfile'
      rw [hfile'', Option.map_some, Option.map_some, hpath]
  · rw [hfset]
    exact h.listed fp' fun hfile' => hfp (hnone fp' hfile')
  · have heq : t.loans = fs.loans := by
      rw [Fs.loans, Fs.loans, hfset]
      refine h.loans_eq (fun _ hmem => hmem) fun fp' _ file' hfile' => ?_
      obtain ⟨file'', hfile'', hip, _⟩ := hrecord fp' file' hfile'
      exact ⟨file'', hfile'', hip, hiid fp' file' hfile'⟩
    rw [heq]
    exact hloans

/-- A call other than a `mkdir` that keeps the handle of its directory keeps none. -/
theorem not_keeps {c : ApiCall} {a : Files} (h : ∀ junk path, c ≠ .mkdir junk path true) :
    (∃ d ip, c.Keeps a d ∧ kept = (d, ip) ::ₘ kept) ∨ (∀ d, ¬c.Keeps a d) ∧ kept = kept := by
  refine Or.inr ⟨fun d hkeeps => ?_, rfl⟩
  obtain ⟨junk, path, _, heq, _⟩ := hkeeps
  exact h junk path heq

/-! ## The file of a handle -/

/-- The content of a file in the view is that of its tree. -/
theorem content_of_isFile (h : fs.view.IsFile node) :
    fs.view.content node = (fs.sys.spread fs.sys.ibm.inUse).file node := if_neg h.2

/-- An open file is a file. -/
theorem Fs.Ok.hasType (h : fs.Ok w kept) (hfile : fs.files fp = some file) :
    fs.sys.HasType fs.sys.ibm.inUse inodeTpFile (fs.sys.iidAt file.ip) := by
  have hnode := h.isFile hfile
  exact ⟨hnode.1, (h.volume.type _ hnode.1).resolve_left fun htype => hnode.2 ⟨hnode.1, htype⟩⟩

/-- The offset of an open file is within it. -/
theorem Fs.Ok.offset_le (h : fs.Ok w kept) (hfile : fs.files fp = some file) :
    file.offset ≤ ((fs.sys.spread fs.sys.ibm.inUse).file (fs.sys.iidAt file.ip)).length := by
  rw [← content_of_isFile (h.isFile hfile)]
  exact h.wellFormed.inside fp _ (Fs.openFile_eq hfile)

/-- Sizes have 32 bits. -/
theorem Fs.Ok.length_lt (h : fs.Ok w kept) (hfile : fs.files fp = some file) :
    ((fs.sys.spread fs.sys.ibm.inUse).file (fs.sys.iidAt file.ip)).length < 2 ^ 32 := by
  obtain ⟨inode, hp, _⟩ := h.loans.pointsTo h.stored h.full (h.mem_loans hfile)
  have hmem : fs.sys.iidAt file.ip ∈ fs.sys.ibm.inUse := (h.isFile hfile).1
  rw [file_spread hp.inodeOf hmem, length_file]
  exact (h.volume.sound.filesOk h.volume.within).size_lt _

/-- A transfer that does not change the file, or changes it as a write does. -/
theorem Fs.Ok.transfer (h : fs.Ok w kept) (hfile : fs.files fp = some file)
    (hr : Rewritten w fs.sys.ibm.inUse fs.sys s')
    (hun : s'.Unlocked) {bytes : List Byte} {n : ℕ}
    (hcontent : (s'.spread fs.sys.ibm.inUse).file =
      Function.update (fs.sys.spread fs.sys.ibm.inUse).file (fs.sys.iidAt file.ip) bytes)
    (hlen : (fs.view.content (fs.sys.iidAt file.ip)).length ≤ bytes.length) (hn : n ≤ bytes.length)
    (hsys : t.sys = s') (hfiles : t.files = Function.update fs.files fp
      (some { file with offset := n }))
    (hset : t.pathset = fs.pathset) (hfset : t.fset = fs.fset) (hnext : t.nextFp = fs.nextFp) :
    t.Ok w kept ∧ t.view = (fs.view.store (fs.sys.iidAt file.ip) bytes).seek fp n := by
  subst hsys
  have hlive : t.sys.ibm.inUse = fs.sys.ibm.inUse := congrArg InodeBitmap.inUse hr.ibm
  have hloans := hr.lends.keep kept fs.loans h.loans
  have hiid := h.iidAt_kept hr.ok hloans
  have hview : t.view = (fs.view.store (fs.sys.iidAt file.ip) bytes).seek fp n := by
    rw [hr.view (h.isFile hfile) hcontent, openFile_update hfiles fun fp' _ => hiid fp',
      Option.map_some, hiid fp file hfile]
    refine FileSystem.ext rfl rfl rfl (congrArg (Function.update fs.openFile fp) ?_)
    have hhandle : fs.openFile fp = some ⟨fs.sys.iidAt file.ip, file.path, file.writable,
      file.offset⟩ :=
      Fs.openFile_eq hfile
    change _ = Option.map _ (fs.openFile fp)
    rw [hhandle, Option.map_some]
  refine ⟨h.of_offset hfile hfiles hset hfset hnext.ge ?_ hloans ?_, hview⟩
  · rw [hlive]
    exact ⟨hr.ok, hun⟩
  · rw [hview]
    refine (h.wellFormed.store hlen).seek (Fs.openFile_eq hfile) ?_
    rw [FileSystem.content_store, if_pos rfl]
    exact hn

/-- An overwritten content is not shorter, and ends behind the bytes written. -/
theorem length_overwrite_ge {a : List Byte} (bytes : List Byte) {off : ℕ} (hoff : off ≤ a.length) :
    a.length ≤ (overwrite a off bytes).length ∧
      off + bytes.length ≤ (overwrite a off bytes).length := by
  simp only [overwrite, List.length_append, List.length_take, List.length_drop]
  omega

variable (hw : w.Reliable)

include hw

/-! ## The calls -/

/-- The rule for `fread`. -/
theorem wp_fread_stepped (h : fs.Ok w kept) (hfile : fs.files fp = some file)
    (hsize : size < 2 ^ 32) (hE : ¬fs.sys.RoomToMove false size → ∀ e : Halt, e.NoRoom → E e) :
    Exec.Wp (fread w fp data size) (fun r fs' => Stepped w kept fs
      (.fread fp data size r.1 r.2) kept fs') E fs := by
  have hlt := h.length_lt hfile
  have hcontent := content_of_isFile (h.isFile hfile)
  refine Exec.wp_bind.mpr (wp_fileAt hfile (Exec.wp_bind.mpr (Exec.wp_zoom.mpr ?_)))
  refine wp_inodeRwFile_rewritten hw h.volume (h.hasType hfile) (h.borrowed hfile)
    (h.offset_le hfile) hsize hE
    fun done result s' hr hun harray => ?_
  obtain ⟨hsame, hend, hresult⟩ := harray.of_read rfl (h.offset_le hfile)
  have hmod : (file.offset + done) % 2 ^ 32 = file.offset + done :=
    Nat.mod_eq_of_lt (lt_of_le_of_lt hend hlt)
  obtain ⟨hok, hview⟩ := h.transfer (t := { fs with
      sys := s'
      files := Function.update fs.files fp (some { file with offset := file.offset + done }) })
    hfile hr hun (hsame.trans (Function.update_eq_self _ _).symm)
      (by rw [hcontent]) hend rfl rfl rfl rfl rfl
  rw [← hcontent, FileSystem.store_self] at hview
  refine Exec.wp_bind.mpr ?_
  rw [fileStore, Exec.wp_update, hmod, Exec.wp_pure]
  refine ⟨hok, ⟨_, Fs.openFile_eq hfile, ?_, hview⟩, not_keeps fun _ _ heq => by cases heq⟩
  rw [hcontent]
  exact hresult

/-- The rule for `fwrite`. -/
theorem wp_fwrite_stepped (h : fs.Ok w kept) (hfile : fs.files fp = some file)
    (hsize : size < 2 ^ 32) (hE : ¬fs.sys.RoomToMove true size → ∀ e : Halt, e.NoRoom → E e) :
    Exec.Wp (fwrite w fp data size) (fun done fs' => Stepped w kept fs
      (.fwrite fp data size done) kept fs') E fs := by
  have hcontent := content_of_isFile (h.isFile hfile)
  have hkeeps : ∀ done, (∃ d ip, (ApiCall.fwrite fp data size done).Keeps fs.view d ∧
    kept = (d, ip) ::ₘ kept) ∨
      (∀ d, ¬(ApiCall.fwrite fp data size done).Keeps fs.view d) ∧ kept = kept :=
    fun done => not_keeps fun _ _ heq => by cases heq
  refine Exec.wp_bind.mpr (wp_fileAt hfile (Exec.wp_ite.mpr
    ⟨fun hreadonly => ?_, fun hwritable => ?_⟩))
  · refine ⟨h, ⟨_, Fs.openFile_eq hfile, Or.inl ⟨Or.inl ?_, rfl, rfl⟩⟩, hkeeps 0⟩
    simpa using hreadonly
  have hwritable : file.writable = true := by simpa using hwritable
  refine Exec.wp_bind.mpr (Exec.wp_zoom.mpr ?_)
  refine wp_inodeRwFile_rewritten hw h.volume (h.hasType hfile) (h.borrowed hfile)
    (h.offset_le hfile) hsize hE
    fun done result s' hr hun harray => ?_
  refine Exec.wp_bind.mpr ?_
  rw [fileStore, Exec.wp_update, Exec.wp_pure]
  rcases harray.of_write rfl with ⟨hlarge, hdone, hsame⟩ | ⟨hsmall, hdone, hwritten⟩
  · obtain rfl : done = 0 := hdone
    have hmod : (file.offset + 0) % 2 ^ 32 = file.offset :=
      Nat.mod_eq_of_lt ((h.offset_le hfile).trans_lt (h.length_lt hfile))
    obtain ⟨hok, hview⟩ := h.transfer (t := { fs with
        sys := s'
        files := Function.update fs.files fp (some { file with offset := file.offset }) })
      hfile hr hun (hsame.trans (Function.update_eq_self _ _).symm) (by rw [hcontent])
        (h.offset_le hfile)
      rfl rfl rfl rfl rfl
    rw [← hcontent, FileSystem.store_self] at hview
    rw [hmod]
    refine ⟨hok, ⟨_, Fs.openFile_eq hfile, Or.inl ⟨Or.inr hlarge, rfl, ?_⟩⟩, hkeeps 0⟩
    rw [hview]
    exact FileSystem.seek_self (Fs.openFile_eq hfile)
  · obtain rfl : done = size := hdone
    have hsum : file.offset + done < 2 ^ 32 - 1 := hsmall
    have hmod : (file.offset + done) % 2 ^ 32 = file.offset + done := Nat.mod_eq_of_lt (by omega)
    have hlength := length_overwrite_ge (firstBytes data done) (h.offset_le hfile)
    rw [length_firstBytes] at hlength
    obtain ⟨hok, hview⟩ := h.transfer (t := { fs with
        sys := s'
        files := Function.update fs.files fp (some { file with offset := file.offset + done }) })
      hfile hr hun hwritten (by rw [hcontent]; exact hlength.1) hlength.2 rfl rfl rfl rfl rfl
    rw [hmod]
    refine ⟨hok, ⟨_, Fs.openFile_eq hfile, Or.inr ⟨?_, rfl, ?_⟩⟩, hkeeps done⟩
    · rintro (hreadonly | hlarge)
      · rw [hwritable] at hreadonly
        cases hreadonly
      · exact absurd hsum (Nat.not_lt.mpr hlarge)
    · rw [hcontent]
      exact hview

/-- The rule for the size of the file of a handle. -/
theorem wp_handleSize (h : fs.Ok w kept) (hfile : fs.files fp = some file) {Q : ℕ → Sys → Prop}
    (hQ : ∀ s', Rewritten w fs.sys.ibm.inUse fs.sys s' → s'.Unlocked →
      (s'.spread fs.sys.ibm.inUse).file = (fs.sys.spread fs.sys.ibm.inUse).file →
      Q (fs.view.content (fs.sys.iidAt file.ip)).length s') :
        Exec.Wp (inodeGetSize w file.ip) Q E fs.sys := by
  rw [content_of_isFile (h.isFile hfile)] at hQ
  exact wp_inodeGetSize_passed hw h.volume (h.isFile hfile).1 (h.borrowed hfile) fun s' hv hun =>
    hQ s' (hv.rewritten h.volume.toTreeOk hv.lends) hun hv.files.file_eq

omit hw in
/-- A call that leaves the files and the handles. -/
theorem Fs.Ok.same (h : fs.Ok w kept) (hfile : fs.files fp = some file)
    (hr : Rewritten w fs.sys.ibm.inUse fs.sys s')
    (hun : s'.Unlocked) (hsame : (s'.spread fs.sys.ibm.inUse).file =
      (fs.sys.spread fs.sys.ibm.inUse).file) :
    ({ fs with sys := s' } : Fs).Ok w kept ∧ ({ fs with sys := s' } : Fs).view = fs.view := by
  have hcontent := content_of_isFile (h.isFile hfile)
  have hfiles : fs.files = Function.update fs.files fp
    (some { file with offset := file.offset }) := by
    rw [← show fs.files fp = some { file with offset := file.offset } from hfile,
      Function.update_eq_self]
  obtain ⟨hok, hview⟩ := h.transfer (t := { fs with sys := s' }) hfile hr hun
    (hsame.trans (Function.update_eq_self _ _).symm) (by rw [hcontent])
      (h.offset_le hfile) rfl hfiles rfl rfl rfl
  rw [← hcontent, FileSystem.store_self] at hview
  exact ⟨hok, hview.trans (FileSystem.seek_self (Fs.openFile_eq hfile))⟩

/-- The rule for `fseek`. -/
theorem wp_fseek_stepped (h : fs.Ok w kept) (hfile : fs.files fp = some file) (hoff : off < 2 ^ 32)
    {whence : Whence} :
    Exec.Wp (fseek w fp off whence) (fun failed fs' => Stepped w kept fs
      (.fseek fp off whence failed) kept fs') E
      fs := by
  have hcontent := content_of_isFile (h.isFile hfile)
  have hlt := h.length_lt hfile
  have hle := h.offset_le hfile
  rw [← hcontent] at hlt hle
  have hkeeps : ∀ failed, (∃ d ip, (ApiCall.fseek fp off whence failed).Keeps fs.view d ∧
    kept = (d, ip) ::ₘ kept) ∨
      (∀ d, ¬(ApiCall.fseek fp off whence failed).Keeps fs.view d) ∧ kept = kept :=
    fun failed => not_keeps fun _ _ heq => by cases heq
  refine Exec.wp_bind.mpr (wp_fileAt hfile (Exec.wp_bind.mpr (Exec.wp_zoom.mpr ?_)))
  refine wp_handleSize hw h hfile fun s' hr hun hsame => ?_
  obtain ⟨hok, hview⟩ := h.same hfile hr hun hsame
  have hfail : BadSeek fs.view ⟨fs.sys.iidAt file.ip, file.path, file.writable,
    file.offset⟩ off whence →
      Stepped w kept fs (.fseek fp off whence true) kept { fs with sys := s' } :=
    fun hbad => ⟨hok, ⟨_, Fs.openFile_eq hfile, Or.inl ⟨hbad, rfl, hview⟩⟩, hkeeps true⟩
  refine Exec.wp_ite.mpr ⟨fun hother => hfail (Or.inl hother), fun hother => ?_⟩
  generalize hlen : (fs.view.content (fs.sys.iidAt file.ip)).length = length at hlt hle hfail ⊢
  have hbase_le : seekBase whence file.offset length ≤ length := by
    cases whence
    · exact Nat.zero_le _
    · exact hle
    · exact le_rfl
    · exact le_rfl
  change Exec.Wp (if (seekBase whence file.offset length + off) % 2 ^ 32 <
    seekBase whence file.offset length
      then pure true
      else if length < (seekBase whence file.offset length + off) % 2 ^ 32 then pure true
      else do
        fileStore fp (some { file with offset :=
          (seekBase whence file.offset length + off) % 2 ^ 32 })
        pure false) _ _ _
  generalize hb : seekBase whence file.offset length = base at hbase_le ⊢
  have hbad : length < base + off → BadSeek fs.view
      ⟨fs.sys.iidAt file.ip, file.path, file.writable, file.offset⟩ off whence := by
    intro hpast
    right
    rw [hlen, hb]
    exact hpast
  refine Exec.wp_ite.mpr ⟨fun hwrap => hfail (hbad ?_), fun hnowrap => ?_⟩
  · by_contra hin
    rw [Nat.mod_eq_of_lt (by omega)] at hwrap
    omega
  have hsum : base + off < 2 ^ 32 := by
    by_contra hwrap
    have hmod : (base + off) % 2 ^ 32 = base + off - 2 ^ 32 := by
      rw [Nat.mod_eq_sub_mod (by omega), Nat.mod_eq_of_lt (by omega)]
    omega
  rw [Nat.mod_eq_of_lt hsum]
  refine Exec.wp_ite.mpr ⟨fun hpast => hfail (hbad hpast), fun hin => ?_⟩
  have hgood : ¬BadSeek fs.view ⟨fs.sys.iidAt file.ip, file.path, file.writable,
    file.offset⟩ off whence := by
    rintro (heq | hpast)
    · exact hother heq
    · rw [hlen, hb] at hpast
      exact hin hpast
  refine Exec.wp_bind.mpr ?_
  rw [fileStore, Exec.wp_update, Exec.wp_pure]
  obtain ⟨hok', hview'⟩ := h.transfer (n := base + off) (t := { fs with
      sys := s'
      files := Function.update fs.files fp (some { file with offset := base + off }) })
    hfile hr hun (hsame.trans (Function.update_eq_self _ _).symm) (by rw [hcontent])
    (by rw [← hcontent, hlen]; exact Nat.not_lt.mp hin) rfl rfl rfl rfl rfl
  rw [← hcontent, FileSystem.store_self] at hview'
  refine ⟨hok', ⟨_, Fs.openFile_eq hfile, Or.inr ⟨hgood, rfl, ?_⟩⟩, hkeeps false⟩
  rw [hlen, hb]
  exact hview'

omit hw in
/-- The rule for `ftell`. -/
theorem wp_ftell_stepped (h : fs.Ok w kept) (hfile : fs.files fp = some file) :
    Exec.Wp (ftell fp) (fun off fs' => Stepped w kept fs (.ftell fp off) kept fs') E fs :=
  Exec.wp_bind.mpr (wp_fileAt hfile ⟨h, ⟨_, Fs.openFile_eq hfile, rfl, rfl⟩,
    not_keeps fun _ _ heq => by cases heq⟩)

/-- The rule for `feof`. -/
theorem wp_feof_stepped (h : fs.Ok w kept) (hfile : fs.files fp = some file) :
    Exec.Wp (feof w fp) (fun atEnd fs' => Stepped w kept fs (.feof fp atEnd) kept fs') E fs := by
  refine Exec.wp_bind.mpr (wp_fileAt hfile (Exec.wp_bind.mpr (Exec.wp_zoom.mpr ?_)))
  refine wp_handleSize hw h hfile fun s' hr hun hsame => ?_
  obtain ⟨hok, hview⟩ := h.same hfile hr hun hsame
  exact ⟨hok, ⟨_, Fs.openFile_eq hfile, rfl, hview⟩, not_keeps fun _ _ heq => by cases heq⟩

/-- The rule for `fclose` of a handle whose path leaves the open paths well. -/
theorem wp_fclose_stepped (h : fs.Ok w kept) (hfile : fs.files fp = some file)
    (hwell : fs.pathset.RemovesWell file.path) :
    Exec.Wp (fclose w fp) (fun exit fs' => Stepped w kept fs (.fclose fp exit) kept fs') E fs := by
  have hfp := h.listed fp (by simp [hfile])
  have hopen : fsetContains fs file.path = true := by
    refine h.isOpen_iff.mp ⟨fp, _, Fs.openFile_eq hfile, rfl⟩
  have hself : ∀ n, fs.sys.icac.node (fs.sys.iidAt file.ip) = some n → n.locked = false :=
    h.volume.unlocked _
  have hcall : Exec.Wp (fclose w fp) (fun exit fs' => exit = .closed ∧ ∃ s',
      Passed w fs.sys.ibm.inUse (fs.sys.iidAt file.ip)
        {(fs.sys.iidAt file.ip, file.ip)} 0 fs.sys s' ∧ s'.Unlocked ∧
      fs' = ⟨s', Function.update fs.files fp none, fs.nextFp, fs.fset.erase fp,
        (fs.pathset.remove file.path).2⟩) E
      fs := by
    refine Exec.wp_bind.mpr (wp_fileAt hfile (Exec.wp_bind.mpr (Exec.wp_read.mpr ?_)))
    rw [hopen]
    refine Exec.wp_bind.mpr (Exec.wp_bind.mpr (wp_fileAt hfile ?_))
    refine Exec.wp_bind.mpr (Exec.wp_read.mpr (Exec.wp_bind.mpr (Exec.wp_update.mpr ?_)))
    refine Exec.wp_bind.mpr (Exec.wp_zoom.mpr ?_)
    refine wp_inodeReturn_passed hw h.volume.sound h.volume.within (h.isFile hfile).1
      (h.borrowed hfile) hself
      fun s' hv hself' => ?_
    exact ⟨rfl, s', hv, hv.toVisited.unlocked h.volume.unlocked.but hself', rfl⟩
  refine hcall.run.imp fun exit fs' hpost => ?_
  obtain ⟨hrun, rfl, s', hv, hun, hfs'⟩ := hpost
  have hsys : fs'.sys = s' := by rw [hfs']
  have hrecords : fs'.files = Function.update fs.files fp none := by rw [hfs']
  have hfset : fs'.fset = fs.fset.erase fp := by rw [hfs']
  subst hsys
  have hstep : FileStep w ⟨fs, fs.fset⟩ (.fclose fp) ⟨fs', fs.fset.erase fp⟩ := by
    change (if fp ∈ fs.fset then _ else _) = _
    rw [if_pos hfp, hrun]
    rfl
  have hregistered := hstep.exclusive_iff h.registered
  have hcloses : ClosesWell ⟨fs, fs.fset⟩ (.fclose fp) ⟨fs', fs.fset.erase fp⟩ := by
    rintro fp' path ⟨⟩ hpath
    rw [Session.path, hfile] at hpath
    cases hpath
    exact hwell
  have hsame := hv.toVisited.unchanged
  have hlive : fs'.sys.ibm.inUse = fs.sys.ibm.inUse := inUse_of_used hsame.used
  have hok := hv.toVisited.treeOk h.volume.toTreeOk
  have hsplit : fs.loans = fs.loan fp ::ₘ (fs.fset.erase fp : Multiset ℕ).map fs.loan := by
    rw [Fs.loans, ← Multiset.map_cons, Multiset.cons_coe]
    exact congrArg (Multiset.map fs.loan) (Multiset.coe_eq_coe.mpr (List.perm_cons_erase hfp))
  have hloans : fs'.sys.OnLoan (kept + (fs.fset.erase fp : Multiset ℕ).map fs.loan) := by
    have hold := h.loans
    rw [hsplit, ← Multiset.singleton_add, ← add_assoc, add_comm kept, add_assoc,
      Fs.loan_eq hfile] at hold
    have hnew := hv.lends _ hold
    rw [zero_add] at hnew
    exact hnew
  have hne : ∀ fp' ∈ fs.fset.erase fp, fp' ≠ fp :=
    fun fp' hmem => (h.registered.nodup.mem_erase_iff.mp hmem).1
  have hiid : ∀ fp' ≠ fp, ∀ file, fs.files fp' = some file →
    fs'.sys.iidAt file.ip = fs.sys.iidAt file.ip := by
    intro fp' hfp' file' hfile'
    have hmem : fp' ∈ fs.fset.erase fp :=
      h.registered.nodup.mem_erase_iff.mpr ⟨hfp', h.listed fp' (by simp [hfile'])⟩
    exact hloans.iidAt_eq hok.sound.stored hok.sound.full (Multiset.mem_add.mpr (Or.inr
      (Multiset.mem_map.mpr ⟨fp', hmem, Fs.loan_eq hfile'⟩)))
  have hview : fs'.view = fs.view.unbind fp := by
    rw [hsame.view, openFile_update hrecords hiid]
    rfl
  refine ⟨⟨?_, ?_, fun fp' hfp' => ?_, ?_, ?_⟩, ⟨rfl, ?_, hview⟩,
    not_keeps fun _ _ heq => by cases heq⟩
  · rw [hlive]
    exact ⟨hok, hun⟩
  · rw [hfset]
    exact hregistered.1 (hregistered.2.mpr hcloses)
  · rw [hrecords] at hfp'
    have hne' : fp' ≠ fp := by
      rintro rfl
      exact hfp' (Function.update_self _ _ _)
    rw [Function.update_of_ne hne'] at hfp'
    rw [hfset]
    exact h.registered.nodup.mem_erase_iff.mpr ⟨hne', h.listed fp' hfp'⟩
  · rw [Fs.loans, hfset, h.loans_eq (t := fs') (fun fp' hmem => List.mem_of_mem_erase hmem)
      fun fp' hmem file' hfile' => ?_]
    · exact hloans
    · refine ⟨file', ?_, rfl, hiid fp' (hne fp' hmem) file' hfile'⟩
      rw [hrecords, Function.update_of_ne (hne fp' hmem), hfile']
  · rw [hview]
    exact h.wellFormed.unbind
  · rw [Fs.openFile_eq hfile]
    exact Option.some_ne_none _

omit hw in
/-- A path leads in the view to what it leads to in the directories. -/
theorem leads_view {names : List CStr} {i : ℕ} :
    fs.view.tree.Leads 0 names i ↔ (fs.sys.tree fs.sys.ibm.inUse).Leads 0 names i :=
      NameTree.leads_trim

omit hw in
/-- A path lacks in the view the name it misses in the directories. -/
theorem lacks_view {path name : CStr} {d : ℕ} : Lacks fs.view.tree path d name ↔
    ∃ names, PathOf path names ∧ (fs.sys.tree fs.sys.ibm.inUse).Misses 0 names d name :=
  exists_congr fun _ => and_congr_right fun _ => NameTree.misses_trim

omit hw in
/-- A path has in the view the same directory above it. -/
theorem upper_view {path last : CStr} {d : ℕ} :
    Upper fs.view.tree path d last ↔ Upper (fs.sys.tree fs.sys.ibm.inUse) path d last := by
  refine exists_congr fun names => exists_congr fun before => and_congr_right fun _ =>
    and_congr_right fun _ => ?_
  exact and_congr_left fun _ => NameTree.leads_trim

omit hw in
/-- No number is free in the view of a full bitmap. -/
theorem allUsed_view (h : fs.sys.ibm.freeIids = ∅) : AllUsed fs.view := by
  rintro i ⟨hlt, hnot⟩
  have hfree : i ∈ fs.sys.ibm.freeIids := ⟨hlt, fun hused => hnot (InodeBitmap.mem_inUse.mpr hused)⟩
  rw [h] at hfree
  cases hfree

omit hw in
/-- A number that was added was free in the view. -/
theorem Added.freeIid {d iid type : ℕ} {name : CStr}
    (h : Added fs.sys.ibm.inUse d iid name type fs.sys s') :
    FreeIid fs.view iid := ⟨h.free.1, h.new⟩

omit hw in
/-- A file of the view. -/
theorem Fs.Ok.isFile_iff (h : fs.Ok w kept) :
    fs.view.IsFile node ↔ fs.sys.HasType fs.sys.ibm.inUse inodeTpFile node := by
  constructor
  · intro hfile
    exact ⟨hfile.1, (h.volume.type node hfile.1).resolve_left fun htype => hfile.2 ⟨hfile.1, htype⟩⟩
  · intro hfile
    refine ⟨hfile.1, fun hdir => ?_⟩
    have htype := hfile.2
    rw [hdir.2] at htype
    cases htype

omit hw in
/-- A new handle is one more loan. -/
theorem Fs.Ok.opened (h : fs.Ok w kept) {junk : Leftover} {filename : CStr} {flags iid : ℕ}
    {a : Files}
    (hstep : FileStep w ⟨fs, fs.fset⟩ (.fopen junk filename flags) ⟨fs', fs'.fset⟩)
    (hrecords : fs'.files = Function.update fs.files fs.nextFp (some file))
      (hfset : fs'.fset = fs.nextFp :: fs.fset)
    (hok : fs'.sys.VolumeOk w fs'.sys.ibm.inUse) (hlends : Lends 0 {(iid, file.ip)} fs.sys fs'.sys)
    (hview : fs'.view = { a with handles := fs'.openFile }) (hhandles : a.handles = fs.view.handles)
    (hwf : a.WellFormed) (hfile : a.IsFile iid) (hin : file.offset ≤ (a.content iid).length)
    (hnot : ¬fs.view.IsOpen file.path) : fs'.Ok w kept ∧
      fs'.view = a.bind fs.nextFp ⟨iid, file.path, file.writable, file.offset⟩ := by
  have hloans := hlends (kept + fs.loans) (by rw [zero_add]; exact h.loans)
  have hself : fs'.sys.iidAt file.ip = iid := hloans.iidAt_eq hok.sound.stored hok.sound.full
    (Multiset.mem_add.mpr (Or.inl (Multiset.mem_singleton_self _)))
  have hiid : ∀ fp file, fs.files fp = some file →
    fs'.sys.iidAt file.ip = fs.sys.iidAt file.ip := by
    rw [← add_assoc] at hloans
    exact h.iidAt_kept hok.toTreeOk hloans
  have hfresh : ∀ fp ∈ fs.fset, fp ≠ fs.nextFp := fun fp hfp => (h.registered.lt fp hfp).ne
  have hopen : fs'.view = a.bind fs.nextFp ⟨iid, file.path, file.writable, file.offset⟩ := by
    rw [hview, openFile_update hrecords fun fp _ => hiid fp, Option.map_some, hself]
    exact FileSystem.ext rfl rfl rfl (congrArg
      (fun f => Function.update f fs.nextFp _) hhandles.symm)
  refine ⟨⟨hok, hstep.fopen_registered h.registered, fun fp hfp => ?_, ?_, ?_⟩, hopen⟩
  · rw [hfset]
    by_cases heq : fp = fs.nextFp
    · exact List.mem_cons.mpr (Or.inl heq)
    · rw [hrecords, Function.update_of_ne heq] at hfp
      exact List.mem_cons_of_mem _ (h.listed fp hfp)
  · have hnew : fs'.loan fs.nextFp = (iid, file.ip) := by
      have hrecord : fs'.files fs.nextFp = some file := by rw [hrecords, Function.update_self]
      rw [Fs.loan_eq hrecord, hself]
    rw [Fs.loans, hfset, ← Multiset.cons_coe, Multiset.map_cons, hnew,
      h.loans_eq (t := fs') (fun fp hmem => hmem) fun fp hmem file' hfile' => ?_]
    · rw [← Multiset.singleton_add, ← add_assoc, add_comm kept, add_assoc]
      exact hloans
    · refine ⟨file', ?_, rfl, hiid fp file' hfile'⟩
      rw [hrecords, Function.update_of_ne (hfresh fp hmem), hfile']
  · rw [hopen]
    refine hwf.bind hfile hin ?_
    rintro ⟨fp, o, ho, hpath⟩
    rw [hhandles] at ho
    exact hnot ⟨fp, o, ho, hpath⟩

omit hw in
/-- No call of `fopen` keeps a pointer that is not a handle's. -/
theorem fopen_keeps {junk : Leftover} {filename : CStr} {flags : ℕ} (r : Option ℕ) :
    (∃ d ip, (ApiCall.fopen junk filename flags r).Keeps fs.view d ∧ kept = (d, ip) ::ₘ kept) ∨
      (∀ d, ¬(ApiCall.fopen junk filename flags r).Keeps fs.view d) ∧ kept = kept :=
  not_keeps fun _ _ heq => by cases heq

omit hw in
/-- `fopen` found no file, and made none. -/
theorem Opened.stepped_missing (h : fs.Ok w kept) {junk : Leftover} {filename : CStr} {flags : ℕ}
    (hok : s'.VolumeOk w live)
      (hopened : Opened fs.sys.ibm.inUse fs.sys filename flags none live s') :
    Stepped w kept fs (.fopen junk filename flags none) kept
      { fs with sys := s', nextFp := fs.nextFp + 1 } := by
  generalize hfs' : ({ fs with sys := s', nextFp := fs.nextFp + 1 } : Fs) = fs'
  have hsys : fs'.sys = s' := by rw [← hfs']
  have hrecords : fs'.files = fs.files := by rw [← hfs']
  subst hsys
  cases hopened with
  | missing hno hfull hfiles hlends =>
    have hlive : fs'.sys.ibm.inUse = fs.sys.ibm.inUse := inUse_of_used hfiles.used
    have hloans := hlends.keep kept fs.loans h.loans
    have hview : fs'.view = fs.view := by
      rw [hfiles.view, openFile_same (h.iidAt_kept hok.toTreeOk hloans) hrecords]
      rfl
    refine ⟨h.of_files hrecords (by rw [← hfs']) (by rw [← hfs'])
      (by rw [← hfs']; exact Nat.le_succ _) ?_ hloans ?_,
      ⟨Or.inr (Or.inr ⟨fun i hfinds => ?_, fun hmake hlacks => ?_⟩), hview⟩, fopen_keeps none⟩
    · rw [hlive]
      exact hok
    · rw [hview]
      exact h.wellFormed
    · obtain ⟨names, hpath, hleads, hfile⟩ := hfinds
      exact hno names i hpath (leads_view.mp hleads) (h.isFile_iff.mp hfile)
    · obtain ⟨d, name, hlacks⟩ := hlacks
      obtain ⟨names, hpath, hmiss⟩ := lacks_view.mp hlacks
      exact allUsed_view (hfull hmake ⟨names, d, name, hpath, hmiss⟩)

omit hw in
/-- The next handle is not open. -/
theorem Fs.Ok.handles_nextFp (h : fs.Ok w kept) : fs.view.handles fs.nextFp = none := by
  refine Option.map_eq_none_iff.mpr ?_
  by_contra hfile
  exact absurd (h.registered.lt _ (h.listed _ hfile)) (Nat.lt_irrefl _)

omit hw in
/-- `fopen` found or made a file, and opened it. -/
theorem Opened.stepped (h : fs.Ok w kept) {junk : Leftover} {filename : CStr} {flags ip offset : ℕ}
    {writable : Bool} (hok : s'.VolumeOk w live) (hnot : ¬fs.view.IsOpen filename)
    (hopened : Opened fs.sys.ibm.inUse fs.sys filename flags (some (writable, ip, offset)) live s')
    (hfs' : fs' = ⟨s', Function.update fs.files fs.nextFp (some ⟨writable, offset, ip, filename⟩),
      fs.nextFp + 1, fs.nextFp :: fs.fset, (fs.pathset.add filename).2⟩)
    (hrun : fopen w junk filename flags fs = .ok (some fs.nextFp, fs')) :
    Stepped w kept fs (.fopen junk filename flags (some fs.nextFp)) kept fs' := by
  have hsys : fs'.sys = s' := by rw [hfs']
  have hrecords : fs'.files = Function.update fs.files fs.nextFp
    (some ⟨writable, offset, ip, filename⟩) := by
    rw [hfs']
  have hfset : fs'.fset = fs.nextFp :: fs.fset := by rw [hfs']
  have hstep : FileStep w ⟨fs, fs.fset⟩ (.fopen junk filename flags) ⟨fs', fs'.fset⟩ := by
    simp only [FileStep, Session.call, hrun, hfset]
    rfl
  have hfresh := h.handles_nextFp
  subst hsys
  cases hopened with
  | old hpath hleads htype hfiles hlends =>
    rename_i names iid
    have hlive : fs'.sys.ibm.inUse = fs.sys.ibm.inUse := inUse_of_used hfiles.used
    have hfile := h.isFile_iff.mpr htype
    have hcontent := content_of_isFile hfile
    rw [← hcontent] at hrecords
    have hstart : startOffset flags (fs.view.content iid) ≤ (fs.view.content iid).length := by
      rw [startOffset]
      split_ifs
      · exact le_rfl
      · exact Nat.zero_le _
    obtain ⟨hok', hview⟩ := h.opened hstep hrecords hfset
      (by rw [hlive]; exact hok) hlends hfiles.view rfl
      h.wellFormed hfile hstart hnot
    exact ⟨hok', ⟨hfresh, hnot, Or.inl ⟨iid, ⟨names, hpath, leads_view.mpr hleads, hfile⟩, hview⟩⟩,
      fopen_keeps _⟩
  | new hpath hmake hmiss hadded hlends =>
    rename_i names d iid name
    have hlive : fs'.sys.ibm.inUse = insert iid fs.sys.ibm.inUse :=
      InodeBitmap.inUse_eq (by rw [hadded.used, Finset.coe_insert, InodeBitmap.coe_inUse])
    have hdir : (fs.sys.tree fs.sys.ibm.inUse).isDir d := by
      obtain ⟨_, _, _, hdir, _⟩ := hmiss
      exact hdir
    have htype : (inodeTpFile = inodeTpDir) = False := eq_false (by decide)
    have hview := hadded.view hdir
    rw [htype] at hview
    have hfree := hadded.freeIid
    obtain ⟨hok', hview'⟩ := h.opened hstep hrecords hfset
      (by rw [hlive]; exact hok) hlends hview rfl
      (h.wellFormed.create hfree.2) ((FileSystem.isFile_create hfree.2).mpr
        (Or.inl ⟨rfl, not_false⟩))
      (Nat.zero_le _) hnot
    exact ⟨hok', ⟨hfresh, hnot, Or.inr ⟨hmake, d, name, iid, lacks_view.mpr ⟨names, hpath, hmiss⟩,
      hfree, hview'⟩⟩,
      fopen_keeps _⟩

/-- The rule for `fopen` by what it finds or makes for its path. -/
theorem wp_fopen_opened (h : fs.Ok w kept) {junk : Leftover} {filename : CStr} {flags : ℕ}
    (hjunk : fs.sys.ibm.ibmFirstEmptyWord < 512 ∨ junk.tmp = none)
    (hlock : fs.sys.ibm.freeIids = ∅ → E .deadlock)
    (hE : ¬(CreateCall.fopen junk filename flags none).Room fs → ∀ e : Halt, e.NoRoom → E e)
    {Q : Option ℕ → Fs → Prop}
    (hsame : pathCheck filename = false ∨ fs.view.IsOpen filename → Q none fs)
    (hmissing : ∀ live s', s'.VolumeOk w live →
      Opened fs.sys.ibm.inUse fs.sys filename flags none live s' →
      Q none { fs with sys := s', nextFp := fs.nextFp + 1 })
    (hopened : ∀ writable ip offset live s', s'.VolumeOk w live → ¬fs.view.IsOpen filename →
      Opened fs.sys.ibm.inUse fs.sys filename flags (some (writable, ip, offset)) live s' →
      Q (some fs.nextFp) ⟨s', Function.update fs.files fs.nextFp
        (some ⟨writable, offset, ip, filename⟩), fs.nextFp + 1, fs.nextFp :: fs.fset,
        (fs.pathset.add filename).2⟩) : Exec.Wp (fopen w junk filename flags) Q E fs := by
  have hkeys : filename ∈ fs.pathset.keys ↔ fs.view.IsOpen filename := by
    rw [h.isOpen_iff, ← h.registered.good.contains_iff, fsetContains, decide_eq_true_eq]
  refine wp_fopen h.registered.good (fun hcheck _ => wp_fopenInode_opened hw hcheck h.volume hjunk
    (fun hlocked => hlock (h.volume.search.locked hlocked)) hE)
    (fun hwhy => hsame (hwhy.imp_right hkeys.mp)) ?_ ?_
  · rintro s' ⟨live, hok, hfound⟩
    exact hmissing live s' hok hfound
  · rintro s' writable ip offset hkey ⟨live, hok, hfound⟩
    exact hopened writable ip offset live s' hok (mt hkeys.mpr hkey) hfound

/-- The rule for `fopen`. -/
theorem wp_fopen_stepped (h : fs.Ok w kept) {junk : Leftover} {filename : CStr} {flags : ℕ}
    (hjunk : fs.sys.ibm.ibmFirstEmptyWord < 512 ∨ junk.tmp = none)
    (hlock : fs.sys.ibm.freeIids = ∅ → E .deadlock)
    (hE : ¬(CreateCall.fopen junk filename flags none).Room fs → ∀ e : Halt, e.NoRoom → E e) :
    Exec.Wp (fopen w junk filename flags) (fun r fs' => Stepped w kept fs
      (.fopen junk filename flags r) kept fs') E fs := by
  have hcall : Exec.Wp (fopen w junk filename flags) (fun r fs' =>
      fopen w junk filename flags fs = .ok (r, fs') →
        Stepped w kept fs (.fopen junk filename flags r) kept fs') E fs := by
    refine wp_fopen_opened hw h hjunk hlock hE ?_ ?_ ?_
    · exact fun hwhy _ => ⟨h, ⟨hwhy.imp_right Or.inl, rfl⟩, fopen_keeps none⟩
    · exact fun live s' hok hopened _ => hopened.stepped_missing h hok
    · exact fun writable ip offset live s' hok hnot hopened hrun =>
        hopened.stepped h hok hnot rfl hrun
  exact hcall.run.imp fun r fs' hpost => hpost.2 hpost.1

/-- The rule for `mkdir`. -/
theorem wp_mkdir_stepped (h : fs.Ok w kept) {junk : Leftover} {path : CStr} (hne : path ≠ [])
    (hjunk : fs.sys.ibm.ibmFirstEmptyWord < 512 ∨ junk.tmp = none)
    (hlock : fs.sys.ibm.freeIids = ∅ → E .deadlock)
    (hE : ¬(CreateCall.mkdir junk path false).Room fs → ∀ e : Halt, e.NoRoom → E e) :
    Exec.Wp (mkdir w junk path) (fun failed fs' => ∃ kept', Stepped w kept fs
      (.mkdir junk path failed) kept' fs') E
      fs := by
  by_cases hcheck : pathCheck path = true
  · refine Exec.wp_zoom.mpr ((wp_onUpper_madeDir hw hcheck hne h.volume hjunk hlock hE).imp
      fun failed s' hpost => ?_)
    obtain ⟨live', hok, hmade⟩ := hpost
    have hstay : ∀ kept', Unchanged fs.sys.ibm.inUse fs.sys s' → s'.VolumeOk w fs.sys.ibm.inUse →
        s'.OnLoan (kept' + fs.loans) → ({ fs with sys := s' } : Fs).Ok w kept' ∧
          ({ fs with sys := s' } : Fs).view = fs.view := by
      intro kept' hfiles hok hloans
      have hlive : s'.ibm.inUse = fs.sys.ibm.inUse := inUse_of_used hfiles.used
      have hview : ({ fs with sys := s' } : Fs).view = fs.view := by
        rw [Unchanged.view (t := { fs with sys := s' }) hfiles,
          openFile_same (t := { fs with sys := s' }) (h.iidAt_kept hok.toTreeOk hloans) rfl]
        rfl
      refine ⟨h.of_files (t := { fs with sys := s' }) rfl rfl rfl le_rfl ?_ hloans ?_, hview⟩
      · change s'.VolumeOk w s'.ibm.inUse
        rw [hlive]
        exact hok
      · rw [hview]
        exact h.wellFormed
    cases hmade with
    | made hup hnone hadded hlends =>
      rename_i d iid last
      obtain ⟨_, _, _, _, _, hdir⟩ := hup
      have hlive : s'.ibm.inUse = insert iid fs.sys.ibm.inUse :=
        InodeBitmap.inUse_eq (by rw [hadded.used, Finset.coe_insert, InodeBitmap.coe_inUse])
      have hloans := hlends.keep kept fs.loans h.loans
      have hfree := hadded.freeIid
      have hview : ({ fs with sys := s' } : Fs).view = fs.view.create d last iid True := by
        rw [Added.view (t := { fs with sys := s' }) hadded hdir,
          openFile_same (t := { fs with sys := s' }) (h.iidAt_kept hok.toTreeOk hloans) rfl,
            eq_self]
        rfl
      refine ⟨kept, h.of_files (t := { fs with sys := s' }) rfl rfl rfl le_rfl ?_ hloans ?_, ?_,
        not_keeps fun _ _ heq => by cases heq⟩
      · change s'.VolumeOk w s'.ibm.inUse
        rw [hlive]
        exact hok
      · rw [hview]
        exact h.wellFormed.create hfree.2
      · refine ⟨d, last, iid, upper_view.mpr ⟨_, _, ‹_›, ‹_›, ‹_›, hdir⟩, ?_, hfree, hview⟩
        exact (NameTree.child_trim hdir).trans hnone
    | taken hup hwhy hfiles hlends =>
      rename_i d ip last
      have hloans : s'.OnLoan ((d, ip) ::ₘ kept + fs.loans) := by
        have hnew := hlends (kept + fs.loans) (by rw [zero_add]; exact h.loans)
        rw [← add_assoc, Multiset.singleton_add] at hnew
        exact hnew
      obtain ⟨hok', hview⟩ := hstay _ hfiles hok hloans
      refine ⟨_, hok', ⟨fun d' last' hup' => ?_, hview⟩,
        Or.inl ⟨d, ip, ⟨junk, path, last, rfl, upper_view.mpr hup⟩, rfl⟩⟩
      obtain ⟨names, before, hpath, hsplit, hleads, hdir⟩ := hup
      obtain ⟨hleads', hdir', rfl⟩ := (upper_view.mp hup').of_split hpath hsplit
      obtain rfl := hleads'.unique hleads
      refine hwhy.imp (fun hchild => ?_) allUsed_view
      exact (NameTree.child_trim hdir).trans_ne hchild
    | missing hno hfiles hlends =>
      obtain ⟨hok', hview⟩ := hstay kept hfiles hok (hlends.keep kept fs.loans h.loans)
      refine ⟨kept, hok', ⟨fun d last hup => absurd (upper_view.mp hup) (hno d last), hview⟩,
        Or.inr ⟨fun d hkeeps => ?_, rfl⟩⟩
      obtain ⟨junk', path', last, heq, hup⟩ := hkeeps
      cases heq
      exact hno d last (upper_view.mp hup)
  · refine Exec.wp_zoom.mpr (Exec.wp_ite.mpr ⟨fun _ => ?_, fun hgood => ?_⟩)
    · have hnone : ∀ d last, ¬Upper fs.view.tree path d last := by
        rintro d last ⟨names, _, hpath, _⟩
        exact hcheck hpath.pathCheck
      refine ⟨kept, h, ⟨fun d last hup => absurd hup (hnone d last), rfl⟩,
        Or.inr ⟨fun d hkeeps => ?_, rfl⟩⟩
      obtain ⟨junk', path', last, heq, hup⟩ := hkeeps
      cases heq
      exact hnone d last hup
    · exact absurd (by simpa using hgood) hcheck

end

end Efs
