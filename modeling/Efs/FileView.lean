import Efs.CreationRuns
import Efs.FileRegistry
import Efs.Library.FileSystem

/-!
# The file system as its callers see it

The calls of the application on an abstract file system, the view of the enclave as one, and
the invariant between two calls. An open handle is one loan of its inode.
-/

namespace Efs

open Library

/-! ## The abstract calls -/

/-- A file system with the numbers of the inodes as nodes. -/
abbrev Files := FileSystem ℕ CStr Byte CStr

/-- A call of the application, with what it returns. -/
inductive ApiCall
  /-- `fopen` with the handle, none for a null pointer. -/
  | fopen (junk : Leftover) (filename : CStr) (flags : ℕ) (fp : Option ℕ)
  /-- `fclose` with what it did. -/
  | fclose (fp : ℕ) (exit : Fclose)
  /-- `fread` with the bytes done and the buffer after it. -/
  | fread (fp : ℕ) (data : ℕ → Byte) (size done : ℕ) (result : ℕ → Byte)
  /-- `fwrite` with the bytes done. -/
  | fwrite (fp : ℕ) (data : ℕ → Byte) (size done : ℕ)
  /-- `fseek`, true when it fails. -/
  | fseek (fp off : ℕ) (whence : Whence) (failed : Bool)
  /-- `ftell` with the offset. -/
  | ftell (fp off : ℕ)
  /-- `feof`, true at the end. -/
  | feof (fp : ℕ) (atEnd : Bool)
  /-- `mkdir`, true when it fails. -/
  | mkdir (junk : Leftover) (path : CStr) (failed : Bool)

/-- The call returns. Sizes and offsets have 32 bits. -/
def ApiStep (w : World) (fs : Fs) (c : ApiCall) (fs' : Fs) : Prop :=
  match c with
  | .fopen junk filename flags fp => fopen w junk filename flags fs = .ok (fp, fs')
  | .fclose fp exit => fclose w fp fs = .ok (exit, fs')
  | .fread fp data size done result => size < 2 ^ 32 ∧
    fread w fp data size fs = .ok ((done, result), fs')
  | .fwrite fp data size done => size < 2 ^ 32 ∧ fwrite w fp data size fs = .ok (done, fs')
  | .fseek fp off whence failed => off < 2 ^ 32 ∧ fseek w fp off whence fs = .ok (failed, fs')
  | .ftell fp off => ftell fp fs = .ok (off, fs')
  | .feof fp atEnd => feof w fp fs = .ok (atEnd, fs')
  | .mkdir junk path failed => mkdir w junk path fs = .ok (failed, fs')

/-- The flags let `fopen` write. -/
def forWriting (flags : ℕ) : Bool := flags &&& oRdwr ≠ 0

/-- The flags let `fopen` make a file. -/
def forCreating (flags : ℕ) : Bool := forWriting flags ∧ flags &&& oCreate ≠ 0

/-- The path leads to the file. -/
def Finds (a : Files) (path : CStr) (i : ℕ) : Prop :=
  ∃ names, PathOf path names ∧ a.tree.Leads 0 names i ∧ a.IsFile i

/-- The path leads to the directory `d` and a last name that means nothing in it. -/
def Lacks (t : NameTree ℕ CStr) (path : CStr) (d : ℕ) (name : CStr) : Prop :=
  ∃ names, PathOf path names ∧ t.Misses 0 names d name

/-- The path leads to the directory `d`, in which the last name is to be made. The last name of
`/` is empty. -/
def Upper (t : NameTree ℕ CStr) (path : CStr) (d : ℕ) (last : CStr) : Prop :=
  ∃ names before, PathOf path names ∧ (names = [] ∧ before = [] ∧ last = [] ∨
    names = before ++ [last]) ∧
    t.Leads 0 before d ∧ t.isDir d

/-- An inode number that is not in use. -/
def FreeIid (a : Files) (i : ℕ) : Prop := i < 32768 ∧ i ∉ a.nodes

/-- There are no more inodes. -/
def AllUsed (a : Files) : Prop := ∀ i, ¬FreeIid a i

/-- The offset of a new handle. -/
def startOffset (flags : ℕ) (content : List Byte) : ℕ :=
  if forWriting flags ∧ flags &&& oAppend ≠ 0 then content.length else 0

/-- `fopen` gives a new handle on a file that is there. -/
def OpensOld (a : Files) (filename : CStr) (flags fp : ℕ) (a' : Files) : Prop :=
  ∃ i, Finds a filename i ∧
    a' = a.bind fp ⟨i, filename, forWriting flags, startOffset flags (a.content i)⟩

/-- `fopen` gives a new handle on a new file. -/
def OpensNew (a : Files) (filename : CStr) (flags fp : ℕ) (a' : Files) : Prop :=
  forCreating flags ∧ ∃ d name i, Lacks a.tree filename d name ∧ FreeIid a i ∧
    a' = (a.create d name i False).bind fp ⟨i, filename, true, 0⟩

/-- `fopen` has a reason to fail. -/
def CannotOpen (a : Files) (filename : CStr) (flags : ℕ) : Prop :=
  pathCheck filename = false ∨ a.IsOpen filename ∨
    (∀ i, ¬Finds a filename i) ∧ (forCreating flags → (∃ d name, Lacks a.tree filename d name) →
      AllUsed a)

/-- The bytes that a read of a content gets. -/
def readable (content : List Byte) (off size : ℕ) : List Byte :=
  if 2 ^ 32 ≤ off + size then [] else (content.drop off).take size

/-- Where `fseek` counts from. -/
def seekBase (whence : Whence) (offset length : ℕ) : ℕ :=
  match whence with
  | .set => 0
  | .cur => offset
  | _ => length

/-- A write with a handle is refused: it is not for writing, or comes to the largest offset. -/
def Refused (h : OpenFile ℕ CStr) (size : ℕ) : Prop := h.writable = false ∨
    2 ^ 32 - 1 ≤ h.offset + size

/-- A seek with a handle is refused. -/
def BadSeek (a : Files) (h : OpenFile ℕ CStr) (off : ℕ) (whence : Whence) : Prop :=
  whence = .other ∨ (a.content h.node).length < seekBase whence h.offset
    (a.content h.node).length + off

/-- What a call does to the abstract file system. -/
def ApiCall.Does (c : ApiCall) (a a' : Files) : Prop :=
  match c with
  | .fopen _ filename flags none => CannotOpen a filename flags ∧ a' = a
  | .fopen _ filename flags (some fp) => a.handles fp = none ∧ ¬a.IsOpen filename ∧
      (OpensOld a filename flags fp a' ∨ OpensNew a filename flags fp a')
  | .fclose fp exit => exit = .closed ∧ a.handles fp ≠ none ∧ a' = a.unbind fp
  | .fread fp _ size done result => ∃ h, a.handles fp = some h ∧
      firstBytes result done = readable (a.content h.node) h.offset size ∧
        a' = a.seek fp (h.offset + done)
  | .fwrite fp data size done => ∃ h, a.handles fp = some h ∧
      (Refused h size ∧ done = 0 ∧ a' = a ∨ ¬Refused h size ∧ done = size ∧
        a' = (a.store h.node (overwrite (a.content h.node) h.offset (firstBytes data size))).seek fp
          (h.offset + size))
  | .fseek fp off whence failed => ∃ h, a.handles fp = some h ∧
      (BadSeek a h off whence ∧ failed = true ∧ a' = a ∨ ¬BadSeek a h off whence ∧ failed = false ∧
        a' = a.seek fp (seekBase whence h.offset (a.content h.node).length + off))
  | .ftell fp off => ∃ h, a.handles fp = some h ∧ off = h.offset ∧ a' = a
  | .feof fp atEnd => ∃ h, a.handles fp = some h ∧
    atEnd = decide ((a.content h.node).length = h.offset) ∧ a' = a
  | .mkdir _ path true => (∀ d last, Upper a.tree path d last → a.tree.child d last ≠ none ∨
    AllUsed a) ∧ a' = a
  | .mkdir _ path false => ∃ d last i, Upper a.tree path d last ∧ a.tree.child d last = none ∧
    FreeIid a i ∧
      a' = a.create d last i True

/-- The call keeps a reference to the directory `d`: a `mkdir` that fails does not return it. -/
def ApiCall.Keeps (c : ApiCall) (a : Files) (d : ℕ) : Prop :=
  ∃ junk path last, c = .mkdir junk path true ∧ Upper a.tree path d last

/-! ## The view -/

/-- The inode numbers in use. -/
def InodeBitmap.inUse (b : InodeBitmap) : Finset ℕ :=
    (Finset.range 32768).filter fun i => idUsed b.ibm i = true

/-- The number of the inode that a pointer points to. -/
def Sys.iidAt (s : Sys) (ip : ℕ) : ℕ := ((s.icac.contentAt ip).map (·.iid)).getD 0

/-- The handle with the number of its inode. -/
def Fs.openFile (fs : Fs) (fp : ℕ) : Option (OpenFile ℕ CStr) :=
  (fs.files fp).map fun file => ⟨fs.sys.iidAt file.ip, file.path, file.writable, file.offset⟩

open Classical in
/-- The content of a file. -/
noncomputable def Sys.contentOf (s : Sys) (live : Finset ℕ) (i : ℕ) : List Byte :=
  if (s.tree live).isDir i then [] else (s.spread live).file i

/-- The enclave as an abstract file system. -/
noncomputable def Fs.view (fs : Fs) : Files where
  nodes := fs.sys.ibm.inUse
  tree := (fs.sys.tree fs.sys.ibm.inUse).trim
  content := fs.sys.contentOf fs.sys.ibm.inUse
  handles := fs.openFile

/-- The loan that a handle is. -/
def Fs.loan (fs : Fs) (fp : ℕ) : ℕ × ℕ :=
  match fs.files fp with
  | none => (0, 0)
  | some file => (fs.sys.iidAt file.ip, file.ip)

/-- The loans that the handles are. -/
def Fs.loans (fs : Fs) : Multiset (ℕ × ℕ) := (fs.fset : Multiset ℕ).map fs.loan

/-- The session between two calls: besides the handles the pointers `kept` are on loan. -/
structure Fs.Ok (w : World) (kept : Multiset (ℕ × ℕ)) (fs : Fs) : Prop where
  /-- The tree of directories. -/
  volume : fs.sys.VolumeOk w fs.sys.ibm.inUse
  /-- The open paths. -/
  registered : Session.Registered ⟨fs, fs.fset⟩
  /-- Every record is that of an open handle. -/
  listed : ∀ fp, fs.files fp ≠ none → fp ∈ fs.fset
  /-- The references to the inodes. -/
  loans : fs.sys.OnLoan (kept + fs.loans)
  /-- The handles are in order. -/
  wellFormed : fs.view.WellFormed

section

variable {w : World} {live : Finset ℕ} {s s' : Sys} {fs fs' : Fs} {i ip fp : ℕ} {file : File}
  {loans kept : Multiset (ℕ × ℕ)} {b : InodeBitmap}

/-- The numbers in use are those of the bitmap. -/
theorem InodeBitmap.mem_inUse : i ∈ b.inUse ↔ i ∈ b.used := by
  rw [inUse, Finset.mem_filter, Finset.mem_range]
  rfl

/-- The set of the numbers in use is determined by the bitmap. -/
theorem InodeBitmap.inUse_eq (h : b.used = live) : b.inUse = live := by
  ext i
  rw [mem_inUse, h, Finset.mem_coe]

/-- As a set the numbers in use are those of the bitmap. -/
theorem InodeBitmap.coe_inUse : (b.inUse : Set ℕ) = b.used := Set.ext fun _ => mem_inUse

/-- What is on loan is cached. -/
theorem Sys.OnLoan.pointsTo (h : s.OnLoan loans) (hs : s.Stored w 0) (hfull : s.Full)
    (hmem : (i, ip) ∈ loans) :
    ∃ inode, s.PointsTo ip i inode ∧ inode.iid = i := by
  obtain ⟨_, inode, _, _, _, hp, hiid⟩ := (h.borrowed hmem).pointsTo hs hfull
  exact ⟨inode, hp, hiid⟩

/-- The number of an inode that is on loan. -/
theorem Sys.OnLoan.iidAt_eq (h : s.OnLoan loans) (hs : s.Stored w 0) (hfull : s.Full)
    (hmem : (i, ip) ∈ loans) :
    s.iidAt ip = i := by
  obtain ⟨inode, ⟨n, hn, haddr, hcontent⟩, hiid⟩ := h.pointsTo hs hfull hmem
  rw [Sys.iidAt, ← haddr, hs.icac.contentAt hn, hcontent, Option.map_some, Option.getD_some, hiid]

/-- The loan of an open handle. -/
theorem Fs.loan_eq (h : fs.files fp = some file) :
    fs.loan fp = (fs.sys.iidAt file.ip, file.ip) := by
  rw [Fs.loan, h]

/-- The loan of an open handle is among those of the state. -/
theorem Fs.Ok.mem_loans (h : fs.Ok w kept) (hfile : fs.files fp = some file) :
    (fs.sys.iidAt file.ip, file.ip) ∈ kept + fs.loans := by
  have hfp := h.listed fp (by simp [hfile])
  exact Multiset.mem_add.mpr (Or.inr (Multiset.mem_map.mpr ⟨fp, hfp, Fs.loan_eq hfile⟩))

/-- The inode of an open handle is borrowed. -/
theorem Fs.Ok.borrowed (h : fs.Ok w kept) (hfile : fs.files fp = some file) :
    fs.sys.Borrowed (fs.sys.iidAt file.ip) file.ip := h.loans.borrowed (h.mem_loans hfile)

/-- An open handle in the view. -/
theorem Fs.openFile_eq (hfile : fs.files fp = some file) :
    fs.view.handles fp = some ⟨fs.sys.iidAt file.ip, file.path, file.writable, file.offset⟩ := by
  change fs.openFile fp = _
  rw [Fs.openFile, hfile, Option.map_some]

/-- The inode of a handle is a file. -/
theorem Fs.Ok.isFile (h : fs.Ok w kept) (hfile : fs.files fp = some file) :
    fs.view.IsFile (fs.sys.iidAt file.ip) := h.wellFormed.file fp _ (Fs.openFile_eq hfile)

/-- The handles have the same inodes in a state in which they are still on loan. -/
theorem Fs.Ok.iidAt_eq (h : fs.Ok w kept) (hs : s'.Stored w 0) (hfull : s'.Full)
    (hloans : s'.OnLoan (loans + fs.loans)) (hfile : fs.files fp = some file) :
    s'.iidAt file.ip = fs.sys.iidAt file.ip := by
  have hfp := h.listed fp (by simp [hfile])
  exact hloans.iidAt_eq hs hfull
    (Multiset.mem_add.mpr (Or.inr (Multiset.mem_map.mpr ⟨fp, hfp, Fs.loan_eq hfile⟩)))

/-- The paths that are open. -/
theorem Fs.Ok.isOpen_iff (h : fs.Ok w kept) {path : CStr} : fs.view.IsOpen path ↔
    fsetContains fs path = true := by
  rw [h.registered.exclusive.contains path]
  constructor
  · rintro ⟨fp, o, ho, rfl⟩
    obtain ⟨file, hfile, rfl⟩ := Option.map_eq_some_iff.mp ho
    refine ⟨fp, h.listed fp (by simp [hfile]), ?_⟩
    rw [Session.path, hfile]
    rfl
  · rintro ⟨fp, _, hpath⟩
    obtain ⟨file, hfile, rfl⟩ := Option.map_eq_some_iff.mp hpath
    exact ⟨fp, _, Fs.openFile_eq hfile, rfl⟩

end

end Efs
