import Efs.FileSteps
import Mathlib.Data.Set.Card

/-!
# Sessions

In every run of calls on a mounted volume the enclave does what the abstract file system does,
every reference to an inode is that of an open handle or of a `mkdir` that failed, and nothing
goes wrong but for want of room.
-/

namespace Efs

open Library

/-- A volume that was just mounted: no file is open and no inode is held. -/
structure Fs.Mounted (w : World) (fs : Fs) : Prop where
  /-- The tree of directories. -/
  volume : fs.sys.VolumeOk w fs.sys.ibm.inUse
  /-- No inode is held. -/
  idle : ∀ i n, fs.sys.icac.node i = some n → n.refcnt = 0
  /-- There are no records. -/
  files : fs.files = fun _ => none
  /-- No handle is open. -/
  fset : fs.fset = []
  /-- No path is open. -/
  pathset : fs.pathset = .init

/-- A call on the abstract file system. -/
def FilesStep (a : Files) (c : ApiCall) (a' : Files) : Prop := c.Does a a'

/-- `ibm_alloc` does not read memory that it never set, and a path that is closed leaves the set of
open paths well. -/
def ApiCall.Defined (fs : Fs) (c : ApiCall) : Prop :=
  match c with
  | .fopen junk _ _ _ => fs.sys.ibm.ibmFirstEmptyWord < 512 ∨ junk.tmp = none
  | .mkdir junk _ _ => fs.sys.ibm.ibmFirstEmptyWord < 512 ∨ junk.tmp = none
  | .fclose fp _ => ∀ file, fs.files fp = some file → fs.pathset.RemovesWell file.path
  | _ => True

/-- The call returns, and the directories are noted to which it keeps a reference. -/
def KeepStep (w : World) (s : Fs × Multiset ℕ) (c : ApiCall) (s' : Fs × Multiset ℕ) : Prop :=
  ApiStep w s.1 c s'.1 ∧ ((∃ d, c.Keeps s.1.view d ∧ s'.2 = d ::ₘ s.2) ∨
    (∀ d, ¬c.Keeps s.1.view d) ∧ s'.2 = s.2)

/-- The reference count of an inode, zero when it is not cached. -/
def Sys.refcnt (s : Sys) (i : ℕ) : ℕ := ((s.icac.node i).map (·.refcnt)).getD 0

/-- A call that makes inodes stops only when it finds no room, or at the lock that `ibm_alloc` left
when all numbers were used. -/
def CreateCall.Stops (fs : Fs) (c : CreateCall) (e : Halt) : Prop :=
  ¬c.Room fs ∧ e.NoRoom ∨ fs.sys.ibm.freeIids = ∅ ∧ e = .deadlock

/-- The calls that find room return, and nothing but the want of it can go wrong. -/
structure Fs.Safe (w : World) (fs : Fs) : Prop where
  /-- `fopen`. -/
  fopen : ∀ junk filename flags, (ApiCall.fopen junk filename flags none).Defined fs →
    Exec.Wp (fopen w junk filename flags) (fun _ _ => True)
      ((CreateCall.fopen junk filename flags none).Stops fs) fs
  /-- `mkdir`. -/
  mkdir : ∀ junk path, path ≠ [] → (ApiCall.mkdir junk path true).Defined fs →
    Exec.Wp (mkdir w junk path) (fun _ _ => True) ((CreateCall.mkdir junk path false).Stops fs) fs
  /-- `fread`. -/
  fread : ∀ fp data size, fs.view.handles fp ≠ none → size < 2 ^ 32 →
    Exec.Wp (fread w fp data size) (fun _ _ => True)
      (fun e => ¬fs.sys.RoomToMove false size ∧ e.NoRoom) fs
  /-- `fwrite`. -/
  fwrite : ∀ fp data size, fs.view.handles fp ≠ none → size < 2 ^ 32 →
    Exec.Wp (fwrite w fp data size) (fun _ _ => True)
      (fun e => ¬fs.sys.RoomToMove true size ∧ e.NoRoom) fs
  /-- `fclose`. -/
  fclose : ∀ fp, fs.view.handles fp ≠ none → (ApiCall.fclose fp .closed).Defined fs →
    ∃ fs', Efs.fclose w fp fs = .ok (.closed, fs')
  /-- `fseek`. -/
  fseek : ∀ fp off whence, fs.view.handles fp ≠ none → off < 2 ^ 32 →
    ∃ r, Efs.fseek w fp off whence fs = .ok r
  /-- `ftell`. -/
  ftell : ∀ fp, fs.view.handles fp ≠ none → ∃ r, Efs.ftell fp fs = .ok r
  /-- `feof`. -/
  feof : ∀ fp, fs.view.handles fp ≠ none → ∃ r, Efs.feof w fp fs = .ok r

/-- The call is a write to the file `i`. -/
def ApiCall.Writes (c : ApiCall) (a : Files) (i : ℕ) : Prop :=
  ∃ fp data size done h, c = .fwrite fp data size done ∧ a.handles fp = some h ∧ h.node = i

section

variable {w : World} {fs fs' : Fs} {c : ApiCall} {cs : List ApiCall} {kept : Multiset (ℕ × ℕ)}
  {a a' : Files} {fp i : ℕ}
  {h : OpenFile ℕ CStr}

/-! ## Steps -/

/-- A mounted state is good. -/
theorem Fs.Mounted.ok (h : fs.Mounted w) : fs.Ok w 0 := by
  have hnone : ∀ fp, fs.view.handles fp = none := fun fp => by
    change fs.openFile fp = none
    rw [Fs.openFile, h.files, Option.map_none]
  refine ⟨h.volume, ?_, fun fp hfp => absurd (congrFun h.files fp) hfp, ⟨fun i => ?_, ?_⟩,
    ⟨?_, ?_, ?_⟩⟩
  · have hstart := Session.start_registered fs.sys
    refine ⟨?_, fun path => ?_, ?_, ?_, ?_, ?_⟩
    · change fs.pathset.Good
      rw [h.pathset]
      exact hstart.good
    · change path ∈ fs.pathset.keys ↔ ∃ fp ∈ fs.fset, _
      rw [h.pathset, h.fset, PathSet.keys_init]
      simp
    all_goals simp [h.fset]
  · rw [Fs.loans, h.fset, Multiset.coe_nil, Multiset.map_zero, add_zero, Multiset.countP_zero,
      Sys.loanTable]
    cases hn : fs.sys.icac.node i with
    | none => rfl
    | some n => exact h.idle i n hn
  · rw [Fs.loans, h.fset]
    simp
  all_goals simp [hnone]

/-- The handle that a call is on is open. -/
theorem exists_file_of_ok {α : Type} {x : File → Exec Halt Fs α} {r : α}
    (hrun : (do
      let file ← fileAt fp
      x file) fs = .ok (r, fs')) : ∃ file, fs.files fp = some file := by
  cases hfile : fs.files fp with
  | some file => exact ⟨file, rfl⟩
  | none =>
    simp only [fileAt, bind_assoc, Exec.read_bind, hfile, Exec.stop_bind] at hrun
    cases hrun

/-- Each call of a session is one of the abstract file system. -/
theorem ApiStep.stepped (hw : w.Reliable) (h : fs.Ok w kept) (hdefined : c.Defined fs)
    (hstep : ApiStep w fs c fs') :
    ∃ kept', Stepped w kept fs c kept' fs' := by
  cases c with
  | fopen junk filename flags fp =>
    exact ⟨kept, (wp_fopen_stepped (E := fun _ => True) hw h hdefined
    (fun _ => trivial) fun _ _ _ => trivial).of_ok hstep⟩
  | fclose fp exit =>
    obtain ⟨file, hfile⟩ := exists_file_of_ok hstep
    exact ⟨kept, (wp_fclose_stepped (E := fun _ => True) hw h hfile (hdefined file hfile)).of_ok
      hstep⟩
  | fread fp data size done result =>
    obtain ⟨file, hfile⟩ := exists_file_of_ok hstep.2
    exact ⟨kept, (wp_fread_stepped (E := fun _ => True) hw h hfile hstep.1
      fun _ _ _ => trivial).of_ok hstep.2⟩
  | fwrite fp data size done =>
    obtain ⟨file, hfile⟩ := exists_file_of_ok hstep.2
    exact ⟨kept, (wp_fwrite_stepped (E := fun _ => True) hw h hfile hstep.1
      fun _ _ _ => trivial).of_ok hstep.2⟩
  | fseek fp off whence failed =>
    obtain ⟨file, hfile⟩ := exists_file_of_ok hstep.2
    exact ⟨kept, (wp_fseek_stepped (E := fun _ => True) hw h hfile hstep.1).of_ok hstep.2⟩
  | ftell fp off =>
    obtain ⟨file, hfile⟩ := exists_file_of_ok hstep
    exact ⟨kept, (wp_ftell_stepped (E := fun _ => True) h hfile).of_ok hstep⟩
  | feof fp atEnd =>
    obtain ⟨file, hfile⟩ := exists_file_of_ok hstep
    exact ⟨kept, (wp_feof_stepped (E := fun _ => True) hw h hfile).of_ok hstep⟩
  | mkdir junk path failed =>
    have hne : path ≠ [] := by
      rintro rfl
      cases hstep
    exact (wp_mkdir_stepped (E := fun _ => True) hw h hne hdefined (fun _ => trivial)
      fun _ _ _ => trivial).of_ok hstep

/-! ## Runs -/

/-- The calls of a run are calls of the abstract file system, and the session stays in order. -/
theorem session_steps (hw : w.Reliable) (h : fs.Ok w kept) (hrun : Run (ApiStep w) fs cs fs')
    (hdefined : Always (ApiStep w) (fun fs c _ => c.Defined fs) fs cs) :
    Run FilesStep fs.view cs fs'.view ∧ ∃ kept', fs'.Ok w kept' := by
  induction hrun generalizing kept with
  | nil fs => exact ⟨.nil _, kept, h⟩
  | cons hstep _ ih =>
    obtain ⟨kept₁, hstepped⟩ := hstep.stepped hw h (hdefined.head hstep)
    obtain ⟨hrest, hok⟩ := ih hstepped.ok (hdefined.tail hstep)
    exact ⟨.cons hstepped.does hrest, hok⟩

/-- In every run from a mount the calls do what they do to the abstract file system, and its
handles stay in order. -/
theorem session_refines (hw : w.Reliable) (h : fs.Mounted w) (hrun : Run (ApiStep w) fs cs fs')
    (hdefined : Always (ApiStep w) (fun fs c _ => c.Defined fs) fs cs) :
    Run FilesStep fs.view cs fs'.view ∧ fs'.view.WellFormed := by
  obtain ⟨habstract, kept, hok⟩ := session_steps hw h.ok hrun hdefined
  exact ⟨habstract, hok.wellFormed⟩

/-- The fresh state is mounted. -/
theorem freshFs_mounted : freshFs.Mounted World.plain := by
  have hlive : freshFs.sys.ibm.inUse = {0} := by
    apply InodeBitmap.inUse_eq
    rw [Finset.coe_singleton]
    exact freshVolume_used
  refine ⟨?_, fun i n hn => (by cases hn), rfl, rfl, rfl⟩
  rw [hlive]
  exact freshVolume_emptyVolume.ok

/-- The file `/a` is made and written. -/
theorem session_refines_fresh : ∃ fs', Run (ApiStep World.plain) freshFs
    [.fopen ⟨none, 0⟩ [slash, 97#8] (oRdwr ||| oCreate) (some 0), .fwrite 0 (fun _ => 120#8) 3 3]
      fs' ∧
    Run FilesStep freshFs.view
      [.fopen ⟨none, 0⟩ [slash, 97#8] (oRdwr ||| oCreate) (some 0), .fwrite 0 (fun _ => 120#8) 3 3]
        fs'.view ∧
    fs'.view.WellFormed := by
  obtain ⟨⟨fp, fs₁⟩, hopen, hcheck⟩ := exists_of_check
    (x := fopen World.plain ⟨none, 0⟩ [slash, 97#8] (oRdwr ||| oCreate) freshFs)
    (p := fun r => r.1 = some 0 && (fwrite World.plain 0 (fun _ => 120#8) 3 r.2).toOption.any
      fun r' => r'.1 = 3)
    (by decide +kernel)
  simp only [Bool.and_eq_true, decide_eq_true_eq] at hcheck
  obtain ⟨rfl, hcheck⟩ := hcheck
  obtain ⟨⟨done, fs'⟩, hwrite, hdone⟩ := exists_of_check hcheck
  obtain rfl : done = 3 := by simpa using hdone
  have hrun : Run (ApiStep World.plain) freshFs
      [.fopen ⟨none, 0⟩ [slash, 97#8] (oRdwr ||| oCreate) (some 0), .fwrite 0 (fun _ => 120#8) 3 3]
        fs' :=
    .cons hopen (.cons ⟨by decide, hwrite⟩ (.nil fs'))
  refine ⟨fs', hrun, session_refines World.plain_reliable freshFs_mounted hrun ?_⟩
  exact Always.cons_iff.mpr fun _ _ => ⟨Or.inr rfl,
    Always.cons_iff.mpr fun _ _ => ⟨trivial, .nil _⟩⟩

/-! ## References -/

/-- A call keeps a reference to one directory. -/
theorem ApiCall.Keeps.unique {d d' : ℕ} (h : c.Keeps a d) (h' : c.Keeps a d') : d = d' := by
  obtain ⟨junk, path, last, rfl, names, before, hpath, hsplit, hleads, _⟩ := h
  obtain ⟨junk', path', last', heq, hup⟩ := h'
  cases heq
  exact hleads.unique (hup.of_split hpath hsplit).1

/-- The directories that are noted are those of the pointers that are kept. -/
theorem KeepStep.stepped (hw : w.Reliable) (h : fs.Ok w kept) (hdefined : c.Defined fs)
    {noted : Multiset ℕ}
    (hstep : KeepStep w (fs, kept.map Prod.fst) c (fs', noted)) :
    ∃ kept', noted = kept'.map Prod.fst ∧ fs'.Ok w kept' := by
  obtain ⟨hcall, hnotes⟩ := hstep
  obtain ⟨kept', hstepped⟩ := ApiStep.stepped hw h hdefined hcall
  refine ⟨kept', ?_, hstepped.ok⟩
  rcases hstepped.keeps with ⟨d, ip, hkeeps, rfl⟩ | ⟨hno, rfl⟩
  · rcases hnotes with ⟨d', hkeeps', hnoted⟩ | ⟨hno, _⟩
    · rw [hkeeps.unique hkeeps', Multiset.map_cons]
      exact hnoted
    · exact absurd hkeeps (hno d)
  · rcases hnotes with ⟨d, hkeeps, _⟩ | ⟨_, hnoted⟩
    · exact absurd hkeeps (hno d)
    · exact hnoted

/-- The pointers that are kept at the end of a run are to the directories that are noted. -/
theorem exists_kept (hw : w.Reliable) {s s' : Fs × Multiset ℕ} (h : s.1.Ok w kept)
    (hnoted : s.2 = kept.map Prod.fst)
    (hrun : Run (KeepStep w) s cs s') (hdefined :
      Always (ApiStep w) (fun fs c _ => c.Defined fs) s.1 cs) :
    ∃ kept', s'.2 = kept'.map Prod.fst ∧ s'.1.Ok w kept' := by
  induction hrun generalizing kept with
  | nil s => exact ⟨kept, hnoted, h⟩
  | @cons s s₁ s' c cs hstep _ ih =>
    obtain ⟨fs, noted⟩ := s
    obtain rfl : noted = kept.map Prod.fst := hnoted
    obtain ⟨kept₁, hnoted₁, hok₁⟩ := hstep.stepped hw h (hdefined.head hstep.1)
    exact ih hok₁ hnoted₁ (hdefined.tail hstep.1)

/-- The handles on an inode. -/
def handlesOn (a : Files) (i : ℕ) : Set ℕ := {fp | ∃ h, a.handles fp = some h ∧ h.node = i}

/-- An inode has as many loans as open handles. -/
theorem Fs.Ok.countP_loans (h : fs.Ok w kept) :
    (fs.loans.countP fun l => l.1 = i) = (handlesOn fs.view i).ncard := by
  have hset : handlesOn fs.view i = ↑(fs.fset.filter fun fp => (fs.loan fp).1 = i).toFinset := by
    ext fp
    simp only [List.coe_toFinset, List.mem_filter, decide_eq_true_eq, Set.mem_ofPred_eq]
    constructor
    · rintro ⟨o, ho, hnode⟩
      obtain ⟨file, hfile, rfl⟩ := Option.map_eq_some_iff.mp ho
      refine ⟨h.listed fp (by simp [hfile]), ?_⟩
      rw [Fs.loan_eq hfile]
      exact hnode
    · rintro ⟨hfp, hnode⟩
      obtain ⟨file, hfile⟩ := h.registered.file fp hfp
      rw [Fs.loan_eq hfile] at hnode
      exact ⟨_, Fs.openFile_eq hfile, hnode⟩
  rw [hset, Set.ncard_coe_finset, List.toFinset_card_of_nodup (h.registered.nodup.filter _),
    Fs.loans,
    Multiset.countP_map, Multiset.filter_coe, Multiset.coe_card]

/-- The references of an inode are its open handles and what is kept of it. -/
theorem Fs.Ok.refcnt_eq (h : fs.Ok w kept) :
    fs.sys.refcnt i = (handlesOn fs.view i).ncard + (kept.map Prod.fst).count i := by
  have hcount := h.loans.count i
  rw [Multiset.countP_add, h.countP_loans, add_comm, Sys.loanTable, Option.map_map] at hcount
  rw [Multiset.count, Multiset.countP_map, ← Multiset.countP_eq_card_filter]
  simp only [eq_comm (a := i)]
  exact hcount

/-- In every run from a mount the reference count of each inode is the number of open handles on
it, and of the times that a `mkdir` failed in it. The reference count of each inode block is the
number of cached inodes in it. -/
theorem references_exact (hw : w.Reliable) (h : fs.Mounted w) {noted : Multiset ℕ}
    (hrun : Run (KeepStep w) (fs, 0) cs (fs', noted))
    (hdefined : Always (ApiStep w) (fun fs c _ => c.Defined fs) fs cs) :
    (∀ i, fs'.sys.refcnt i = (handlesOn fs'.view i).ncard + noted.count i) ∧
      ∀ bid, inodeStart ≤ bid → bid < bitmapStart →
        (fs'.sys.spot bid).refs = (fs'.sys.pinned bid).card := by
  obtain ⟨kept', hnoted, hok⟩ := exists_kept hw h.ok rfl hrun hdefined
  have hnoted : noted = kept'.map Prod.fst := hnoted
  refine ⟨fun i => ?_, fun bid hle hlt => hok.stored.refs bid hle hlt⟩
  rw [hnoted]
  exact hok.refcnt_eq

/-- The second `mkdir` of `/a` fails and keeps a reference to the root. -/
theorem references_exact_fresh : ∃ fs', Run (KeepStep World.plain) (freshFs, 0)
    [.mkdir ⟨none, 0⟩ [slash, 97#8] false, .mkdir ⟨none, 0⟩ [slash, 97#8] true] (fs', {0}) ∧
    (∀ i, fs'.sys.refcnt i = (handlesOn fs'.view i).ncard + Multiset.count i {0}) ∧
      ∀ bid, inodeStart ≤ bid → bid < bitmapStart →
        (fs'.sys.spot bid).refs = (fs'.sys.pinned bid).card := by
  obtain ⟨⟨failed, fs₁⟩, hfirst, hcheck⟩ := exists_of_check
    (x := mkdir World.plain ⟨none, 0⟩ [slash, 97#8] freshFs)
    (p := fun r => !r.1 && (mkdir World.plain ⟨none, 0⟩ [slash, 97#8] r.2).toOption.any fun r' =>
      r'.1)
    (by decide +kernel)
  simp only [Bool.and_eq_true, Bool.not_eq_true'] at hcheck
  obtain ⟨rfl, hcheck⟩ := hcheck
  obtain ⟨⟨failed, fs'⟩, hsecond, hfailed⟩ := exists_of_check hcheck
  obtain rfl : failed = true := hfailed
  have hstep : ApiStep World.plain freshFs (.mkdir ⟨none, 0⟩ [slash, 97#8] false) fs₁ := hfirst
  have hdefined : (ApiCall.mkdir ⟨none, 0⟩ [slash, 97#8] false).Defined freshFs := Or.inr rfl
  obtain ⟨kept, hstepped⟩ := hstep.stepped World.plain_reliable freshFs_mounted.ok hdefined
  have hpath : PathOf [slash, 97#8] [[97#8]] := by
    refine ⟨fun name hmem => ?_, rfl⟩
    rw [List.mem_singleton.mp hmem]
    exact ⟨by decide, by decide, by decide⟩
  have hkeeps : (ApiCall.mkdir ⟨none, 0⟩ [slash, 97#8] true).Keeps fs₁.view 0 :=
    ⟨_, _, [97#8], rfl, [[97#8]], [], hpath, Or.inr rfl, .nil 0, hstepped.ok.volume.rootDir⟩
  have hnone : ∀ d, ¬(ApiCall.mkdir ⟨none, 0⟩ [slash, 97#8] false).Keeps freshFs.view d := by
    rintro d ⟨_, _, _, heq, _⟩
    cases heq
  have hone : KeepStep World.plain (freshFs, 0) (.mkdir ⟨none, 0⟩ [slash, 97#8] false) (fs₁, 0) :=
    ⟨hfirst, Or.inr ⟨hnone, rfl⟩⟩
  have htwo : KeepStep World.plain (fs₁, 0) (.mkdir ⟨none, 0⟩ [slash, 97#8] true) (fs', {0}) :=
    ⟨hsecond, Or.inl ⟨0, hkeeps, rfl⟩⟩
  have hrun : Run (KeepStep World.plain) (freshFs, 0)
      [.mkdir ⟨none, 0⟩ [slash, 97#8] false, .mkdir ⟨none, 0⟩ [slash, 97#8] true] (fs', {0}) :=
    .cons hone (.cons htwo (.nil _))
  refine ⟨fs', hrun, references_exact World.plain_reliable freshFs_mounted hrun ?_⟩
  exact Always.cons_iff.mpr fun _ _ => ⟨Or.inr rfl,
    Always.cons_iff.mpr fun _ _ => ⟨Or.inr rfl, .nil _⟩⟩

/-! ## What can go wrong -/

/-- A good state is safe. -/
theorem Fs.Ok.safe (hw : w.Reliable) (h : fs.Ok w kept) : fs.Safe w := by
  have hopen : ∀ fp, fs.view.handles fp ≠ none → ∃ file, fs.files fp = some file := by
    intro fp hfp
    obtain ⟨o, ho⟩ := Option.ne_none_iff_exists'.mp hfp
    obtain ⟨file, hfile, _⟩ := Option.map_eq_some_iff.mp ho
    exact ⟨file, hfile⟩
  constructor
  · exact fun junk filename flags hdefined =>
      (wp_fopen_stepped hw h hdefined (fun hfull => Or.inr ⟨hfull, rfl⟩)
        fun hcrowded _ he => Or.inl ⟨hcrowded, he⟩).imp fun _ _ _ => trivial
  · exact fun junk path hne hdefined =>
      (wp_mkdir_stepped hw h hne hdefined (fun hfull => Or.inr ⟨hfull, rfl⟩)
        fun hcrowded _ he => Or.inl ⟨hcrowded, he⟩).imp fun _ _ _ => trivial
  · intro fp data size hfp hsize
    obtain ⟨file, hfile⟩ := hopen fp hfp
    exact (wp_fread_stepped hw h hfile hsize fun hcrowded _ he => ⟨hcrowded, he⟩).imp fun _ _ _ =>
      trivial
  · intro fp data size hfp hsize
    obtain ⟨file, hfile⟩ := hopen fp hfp
    exact (wp_fwrite_stepped hw h hfile hsize fun hcrowded _ he => ⟨hcrowded, he⟩).imp fun _ _ _ =>
      trivial
  · intro fp hfp hdefined
    obtain ⟨file, hfile⟩ := hopen fp hfp
    obtain ⟨exit, fs', hrun, hstepped⟩ := (wp_fclose_stepped hw h hfile
      (hdefined file hfile)).returns
    obtain ⟨rfl, _⟩ := hstepped.does
    exact ⟨fs', hrun⟩
  · intro fp off whence hfp hoff
    obtain ⟨file, hfile⟩ := hopen fp hfp
    obtain ⟨failed, fs', hrun, _⟩ := (wp_fseek_stepped hw h hfile hoff).returns
    exact ⟨_, hrun⟩
  · intro fp hfp
    obtain ⟨file, hfile⟩ := hopen fp hfp
    obtain ⟨off, fs', hrun, _⟩ := (wp_ftell_stepped h hfile).returns
    exact ⟨_, hrun⟩
  · intro fp hfp
    obtain ⟨file, hfile⟩ := hopen fp hfp
    obtain ⟨atEnd, fs', hrun, _⟩ := (wp_feof_stepped hw h hfile).returns
    exact ⟨_, hrun⟩

/-- In every state that a run from a mount reaches the calls that find room return. -/
theorem session_safe (hw : w.Reliable) (h : fs.Mounted w) (hrun : Run (ApiStep w) fs cs fs')
    (hdefined : Always (ApiStep w) (fun fs c _ => c.Defined fs) fs cs) : fs'.Safe w := by
  obtain ⟨_, kept, hok⟩ := session_steps hw h.ok hrun hdefined
  exact hok.safe hw

/-- A session after the directory `/a` was made. -/
theorem session_safe_fresh : ∃ fs', Run (ApiStep World.plain) freshFs
    [.mkdir ⟨none, 0⟩ [slash, 97#8] false] fs' ∧
    fs'.Safe World.plain := by
  obtain ⟨⟨failed, fs'⟩, hcall, hcheck⟩ := exists_of_check
    (x := mkdir World.plain ⟨none, 0⟩ [slash, 97#8] freshFs) (p := fun r => !r.1)
      (by decide +kernel)
  obtain rfl : failed = false := by simpa using hcheck
  have hrun : Run (ApiStep World.plain) freshFs [.mkdir ⟨none, 0⟩ [slash, 97#8] false] fs' :=
    .cons hcall (.nil fs')
  exact ⟨fs', hrun, session_safe World.plain_reliable freshFs_mounted hrun
    (Always.cons_iff.mpr fun _ _ => ⟨Or.inr rfl, .nil _⟩)⟩

/-! ## What was written -/

/-- A file keeps its content when the call is no write to it. -/
theorem FilesStep.content_eq (hstep : FilesStep a c a') (hwrites : ¬c.Writes a i) :
    a'.content i = a.content i := by
  cases c with
  | fopen junk filename flags fp =>
    cases fp with
    | none => rw [hstep.2]
    | some fp =>
      rcases hstep.2.2 with ⟨_, _, rfl⟩ | ⟨_, _, _, _, _, _, rfl⟩
      · rfl
      · rfl
  | fclose fp exit =>
    rw [hstep.2.2]
    rfl
  | fread fp data size done result =>
    obtain ⟨h, _, _, rfl⟩ := hstep
    rfl
  | fwrite fp data size done =>
    obtain ⟨h, hh, ⟨_, _, rfl⟩ | ⟨_, _, rfl⟩⟩ := hstep
    · rfl
    · have hne : i ≠ h.node := by
        rintro rfl
        exact hwrites ⟨fp, data, size, done, h, rfl, hh, rfl⟩
      exact FileSystem.content_store.trans (if_neg hne)
  | fseek fp off whence failed =>
    obtain ⟨h, _, ⟨_, _, rfl⟩ | ⟨_, _, rfl⟩⟩ := hstep
    · rfl
    · rfl
  | ftell fp off =>
    obtain ⟨h, _, _, rfl⟩ := hstep
    rfl
  | feof fp atEnd =>
    obtain ⟨h, _, _, rfl⟩ := hstep
    rfl
  | mkdir junk path failed =>
    cases failed with
    | true => rw [hstep.2]
    | false =>
      obtain ⟨_, _, _, _, _, _, rfl⟩ := hstep
      rfl

/-- A handle stays on its file until it is closed. -/
theorem FilesStep.node_eq (hstep : FilesStep a c a') (hopen : ∀ exit, c ≠ .fclose fp exit)
    (hh : a.handles fp = some h) : ∃ h', a'.handles fp = some h' ∧ h'.node = h.node := by
  have hseek : ∀ (b : Files) fp' n, b.handles = a.handles →
      ∃ h', (b.seek fp' n).handles fp = some h' ∧ h'.node = h.node := by
    intro b fp' n hb
    change ∃ h', Function.update b.handles fp' _ fp = some h' ∧ _
    rw [hb]
    by_cases heq : fp = fp'
    · subst heq
      rw [Function.update_self, hh, Option.map_some]
      exact ⟨_, rfl, rfl⟩
    · rw [Function.update_of_ne heq]
      exact ⟨h, hh, rfl⟩
  cases c with
  | fopen junk filename flags fp' =>
    cases fp' with
    | none =>
      rw [hstep.2]
      exact ⟨h, hh, rfl⟩
    | some fp' =>
      obtain ⟨hfresh, _, hnew⟩ := hstep
      have hne : fp ≠ fp' := by
        rintro rfl
        rw [hh] at hfresh
        cases hfresh
      rcases hnew with ⟨_, _, rfl⟩ | ⟨_, _, _, _, _, _, rfl⟩
      · exact ⟨h, (Function.update_of_ne hne _ _).trans hh, rfl⟩
      · exact ⟨h, (Function.update_of_ne hne _ _).trans hh, rfl⟩
  | fclose fp' exit =>
    have hne : fp ≠ fp' := by
      rintro rfl
      exact hopen exit rfl
    rw [hstep.2.2]
    exact ⟨h, (Function.update_of_ne hne _ _).trans hh, rfl⟩
  | fread fp' data size done result =>
    obtain ⟨_, _, _, rfl⟩ := hstep
    exact hseek a fp' _ rfl
  | fwrite fp' data size done =>
    obtain ⟨_, _, ⟨_, _, rfl⟩ | ⟨_, _, rfl⟩⟩ := hstep
    · exact ⟨h, hh, rfl⟩
    · exact hseek (a.store _ _) fp' _ rfl
  | fseek fp' off whence failed =>
    obtain ⟨_, _, ⟨_, _, rfl⟩ | ⟨_, _, rfl⟩⟩ := hstep
    · exact ⟨h, hh, rfl⟩
    · exact hseek a fp' _ rfl
  | ftell fp' off =>
    obtain ⟨_, _, _, rfl⟩ := hstep
    exact ⟨h, hh, rfl⟩
  | feof fp' atEnd =>
    obtain ⟨_, _, _, rfl⟩ := hstep
    exact ⟨h, hh, rfl⟩
  | mkdir junk path failed =>
    cases failed with
    | true =>
      rw [hstep.2]
      exact ⟨h, hh, rfl⟩
    | false =>
      obtain ⟨_, _, _, _, _, _, rfl⟩ := hstep
      exact ⟨h, hh, rfl⟩

/-- The bytes that overwrote others are read back. -/
theorem readable_overwrite {content bytes : List Byte} {off : ℕ} (hoff : off ≤ content.length)
    (hsmall : off + bytes.length < 2 ^ 32) : readable
      (overwrite content off bytes) off bytes.length = bytes := by
  have hlen : (content.take off).length = off := by rw [List.length_take, min_eq_left hoff]
  rw [readable, if_neg (Nat.not_le.mpr hsmall), overwrite, List.append_assoc, List.drop_left' hlen,
    List.take_left]

/-- Calls that do not write to the file of a handle, and do not close it, leave the file. -/
theorem content_between {fs₁ : Fs} {between : List ApiCall} (hw : w.Reliable) (hok : fs.Ok w kept)
    (hrun : Run (ApiStep w) fs between fs₁) (hdefined :
      Always (ApiStep w) (fun fs c _ => c.Defined fs) fs between)
    (hopen : ∀ exit, .fclose fp exit ∉ between)
    (hquiet : Always (ApiStep w) (fun fs c _ => ∀ h, fs.view.handles fp = some h →
      ¬c.Writes fs.view h.node) fs
      between) (hh : fs.view.handles fp = some h) :
    (∃ kept', fs₁.Ok w kept') ∧ ∃ h', fs₁.view.handles fp = some h' ∧
      fs₁.view.content h'.node = fs.view.content h.node := by
  induction hrun generalizing kept h with
  | nil fs => exact ⟨⟨kept, hok⟩, h, hh, rfl⟩
  | cons hstep _ ih =>
    obtain ⟨kept₁, hstepped⟩ := hstep.stepped hw hok (hdefined.head hstep)
    have hdoes : FilesStep _ _ _ := hstepped.does
    obtain ⟨h₁, hh₁, hnode₁⟩ := hdoes.node_eq
      (fun exit heq => hopen exit (heq ▸ List.mem_cons_self)) hh
    have hsame := hdoes.content_eq (hquiet.head hstep h hh)
    obtain ⟨hok', h', hh', hcontent⟩ := ih hstepped.ok (hdefined.tail hstep)
      (fun exit hmem => hopen exit (List.mem_cons_of_mem _ hmem)) (hquiet.tail hstep) hh₁
    refine ⟨hok', h', hh', ?_⟩
    rw [hcontent, hnode₁, hsame]

/-- What was written is read back from its place, whatever calls come between that do not write
to the file. -/
theorem written_is_read {before between : List ApiCall} {fs₁ fs₂ fs₃ : Fs}
    {data buf result : ℕ → Byte}
    {size off done : ℕ} (hw : w.Reliable) (h : fs.Mounted w)
      (hbefore : Run (ApiStep w) fs before fs₁)
    (hdefined : Always (ApiStep w) (fun fs c _ => c.Defined fs) fs before)
    (hwrite : Run (ApiStep w) fs₁ [.ftell fp off, .fwrite fp data size size] fs₂)
    (hbetween : Run (ApiStep w) fs₂ between fs₃)
    (hdefined' : Always (ApiStep w) (fun fs c _ => c.Defined fs) fs₂ between)
    (hopen : ∀ exit, .fclose fp exit ∉ between)
    (hquiet : Always (ApiStep w) (fun fs c _ => ∀ h, fs.view.handles fp = some h →
      ¬c.Writes fs.view h.node) fs₂
      between)
    (hread : Run (ApiStep w) fs₃ [.fseek fp off .set false, .fread fp buf size done result] fs') :
    firstBytes result done = firstBytes data size := by
  obtain ⟨_, kept₁, hok₁⟩ := session_steps hw h.ok hbefore hdefined
  obtain ⟨t₁, htell, hrest⟩ := hwrite.uncons
  obtain ⟨t₂, hput, hnil⟩ := hrest.uncons
  cases hnil
  obtain ⟨kept₂, hstepped₁⟩ := ApiStep.stepped (c := .ftell fp off) hw hok₁ trivial htell
  obtain ⟨kept₃, hstepped₂⟩ := ApiStep.stepped
    (c := .fwrite fp data size size) hw hstepped₁.ok trivial hput
  obtain ⟨h₁, hh₁, rfl, hview₁⟩ := hstepped₁.does
  obtain ⟨h₂, hh₂, hcase⟩ := hstepped₂.does
  rw [hview₁, hh₁] at hh₂
  cases hh₂
  rw [hview₁] at hcase
  have hin := hok₁.wellFormed.inside fp h₁ hh₁
  -- The file has the bytes at the place that `ftell` told.
  obtain ⟨h₃, hh₃, hbytes⟩ : ∃ h₃, fs₂.view.handles fp = some h₃ ∧
      readable (fs₂.view.content h₃.node) h₁.offset size = firstBytes data size := by
    rcases hcase with ⟨_, rfl, hview₂⟩ | ⟨haccepted, _, hview₂⟩
    · refine ⟨h₁, by rw [hview₂, hh₁], ?_⟩
      rw [readable, List.take_zero, ite_self]
      rfl
    · have hsmall : ¬2 ^ 32 - 1 ≤ h₁.offset + size := fun hlarge => haccepted (Or.inr hlarge)
      refine ⟨{ h₁ with offset := h₁.offset + size }, ?_, ?_⟩
      · rw [hview₂]
        change Function.update fs₁.view.handles fp ((fs₁.view.handles fp).map _) fp = _
        rw [Function.update_self, hh₁]
        rfl
      · have hcontent : fs₂.view.content h₁.node =
            overwrite (fs₁.view.content h₁.node) h₁.offset (firstBytes data size) := by
          rw [hview₂]
          exact FileSystem.content_store.trans (if_pos rfl)
        have hlen : (firstBytes data size).length = size := length_firstBytes
        have hback := readable_overwrite hin (by rw [hlen]; omega :
          h₁.offset + (firstBytes data size).length < 2 ^ 32)
        rwa [hlen, ← hcontent] at hback
  obtain ⟨⟨kept₄, hok₃⟩, h₄, hh₄, hsame⟩ :=
    content_between hw hstepped₂.ok hbetween hdefined' hopen hquiet hh₃
  obtain ⟨t₃, hseek, hrest⟩ := hread.uncons
  obtain ⟨t₄, hget, hnil⟩ := hrest.uncons
  cases hnil
  obtain ⟨kept₅, hstepped₃⟩ := ApiStep.stepped
    (c := .fseek fp h₁.offset .set false) hw hok₃ trivial hseek
  obtain ⟨kept₆, hstepped₄⟩ := ApiStep.stepped
    (c := .fread fp buf size done result) hw hstepped₃.ok trivial hget
  obtain ⟨h₅, hh₅, hmoved⟩ := hstepped₃.does
  rw [hh₄] at hh₅
  cases hh₅
  obtain ⟨_, hfalse, _⟩ | ⟨_, _, hview₃⟩ := hmoved
  · cases hfalse
  have hh₆ : t₃.view.handles fp = some { h₄ with offset := h₁.offset } := by
    rw [hview₃]
    change Function.update fs₃.view.handles fp ((fs₃.view.handles fp).map _) fp = _
    rw [Function.update_self, hh₄, Option.map_some, seekBase, Nat.zero_add]
  obtain ⟨h₇, hh₇, hresult, _⟩ := hstepped₄.does
  rw [hh₆] at hh₇
  cases hh₇
  have hcontent : t₃.view.content h₄.node = fs₃.view.content h₄.node := by
    rw [hview₃]
    rfl
  rw [hresult]
  change readable (t₃.view.content h₄.node) h₁.offset size = _
  rw [hcontent, hsame]
  exact hbytes

/-- Three bytes are written to a new file, and read back after a look at its end. -/
theorem written_is_read_fresh : ∃ fs₁ fs₂ fs₃ fs' result,
    Run (ApiStep World.plain) freshFs [.fopen ⟨none, 0⟩ [slash, 97#8] (oRdwr ||| oCreate) (some 0)]
      fs₁ ∧
    Run (ApiStep World.plain) fs₁ [.ftell 0 0, .fwrite 0 (fun i => BitVec.ofNat 8 i) 3 3] fs₂ ∧
    Run (ApiStep World.plain) fs₂ [.feof 0 true] fs₃ ∧
    Run (ApiStep World.plain) fs₃ [.fseek 0 0 .set false, .fread 0 (fun _ => 0) 3 3 result] fs' ∧
    firstBytes result 3 = firstBytes (fun i => BitVec.ofNat 8 i) 3 := by
  obtain ⟨⟨fp, fs₁⟩, hopen, hcheck⟩ := exists_of_check
    (x := fopen World.plain ⟨none, 0⟩ [slash, 97#8] (oRdwr ||| oCreate) freshFs)
    (p := fun r => r.1 = some 0 && (ftell 0 r.2).toOption.any fun r => r.1 = 0 &&
      (fwrite World.plain 0 (fun i => BitVec.ofNat 8 i) 3 r.2).toOption.any fun r => r.1 = 3 &&
        (feof World.plain 0 r.2).toOption.any fun r => r.1 &&
          (fseek World.plain 0 0 .set r.2).toOption.any fun r => !r.1 &&
            (fread World.plain 0 (fun _ => 0) 3 r.2).toOption.any fun r => r.1.1 = 3)
    (by decide +kernel)
  simp only [Bool.and_eq_true, decide_eq_true_eq] at hcheck
  obtain ⟨rfl, hcheck⟩ := hcheck
  obtain ⟨⟨off, t₁⟩, htell, hcheck⟩ := exists_of_check hcheck
  simp only [Bool.and_eq_true, decide_eq_true_eq] at hcheck
  obtain ⟨rfl, hcheck⟩ := hcheck
  obtain ⟨⟨done, fs₂⟩, hput, hcheck⟩ := exists_of_check hcheck
  simp only [Bool.and_eq_true, decide_eq_true_eq] at hcheck
  obtain ⟨rfl, hcheck⟩ := hcheck
  obtain ⟨⟨atEnd, fs₃⟩, heof, hcheck⟩ := exists_of_check hcheck
  simp only [Bool.and_eq_true] at hcheck
  obtain ⟨rfl, hcheck⟩ := hcheck
  obtain ⟨⟨failed, t₂⟩, hseek, hcheck⟩ := exists_of_check hcheck
  simp only [Bool.and_eq_true, Bool.not_eq_true'] at hcheck
  obtain ⟨rfl, hcheck⟩ := hcheck
  obtain ⟨⟨⟨done, result⟩, fs'⟩, hget, hdone⟩ := exists_of_check hcheck
  obtain rfl : done = 3 := by simpa using hdone
  have hbefore : Run (ApiStep World.plain) freshFs
      [.fopen ⟨none, 0⟩ [slash, 97#8] (oRdwr ||| oCreate) (some 0)] fs₁ := .cons hopen (.nil _)
  have hwrite : Run (ApiStep World.plain) fs₁
    [.ftell 0 0, .fwrite 0 (fun i => BitVec.ofNat 8 i) 3 3] fs₂ :=
    .cons htell (.cons ⟨by decide, hput⟩ (.nil _))
  have hbetween : Run (ApiStep World.plain) fs₂ [.feof 0 true] fs₃ := .cons heof (.nil _)
  have hread : Run (ApiStep World.plain) fs₃ [.fseek 0 0 .set false,
    .fread 0 (fun _ => 0) 3 3 result] fs' :=
    .cons ⟨by decide, hseek⟩ (.cons ⟨by decide, hget⟩ (.nil _))
  refine ⟨fs₁, fs₂, fs₃, fs', result, hbefore, hwrite, hbetween, hread,
    written_is_read World.plain_reliable
    freshFs_mounted hbefore ?_ hwrite hbetween ?_ (fun exit hmem => ?_) ?_ hread⟩
  · exact Always.cons_iff.mpr fun _ _ => ⟨Or.inr rfl, .nil _⟩
  · exact Always.cons_iff.mpr fun _ _ => ⟨trivial, .nil _⟩
  · simp at hmem
  · refine Always.cons_iff.mpr fun _ _ => ⟨fun h _ => ?_, .nil _⟩
    rintro ⟨_, _, _, _, _, heq, _⟩
    cases heq

end

end Efs
