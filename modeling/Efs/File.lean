import Efs.Directory

/-!
# Files

`file.c`: paths, handles on open files, and the calls of the application. A path
is in the set of open paths while a handle on it is open.

The mutexes of the handles and of the set of open paths are taken and given back
inside of each function and are left out. Memory never runs out.
-/

namespace Efs

open Library

/-! ## Paths -/

/-- `isalnum`. -/
def isalnum (c : Byte) : Bool :=
  48 ≤ c.toNat && c.toNat ≤ 57 || 65 ≤ c.toNat && c.toNat ≤ 90 || 97 ≤ c.toNat && c.toNat ≤ 122

/-- The loop of `path_check` in a name of which `n` characters were read; true when
the path is accepted. -/
def pathCheckFrom : ℕ → CStr → Bool
  | n, [] => n ≤ dirnameMaxLen ∧ n ≠ 0
  | n, c :: path =>
    if isalnum c then pathCheckFrom (n + 1) path
    else c = slash ∧ n ≤ dirnameMaxLen ∧ n ≠ 0 ∧ pathCheckFrom 0 path

/-- `path_check`, true when the path is accepted. The empty path is. -/
def pathCheck : CStr → Bool
  | [] => true
  | c :: path => c = slash ∧ (path = [] ∨ pathCheckFrom 0 path)

/-- `path_split`: the path of the directory and the name in it; `none` when there is
no `/` to be found. -/
def pathSplit (path : CStr) : Option (CStr × CStr) :=
  let last := (path.reverse.takeWhile fun c => c ≠ slash).reverse
  if path.length = last.length then none
  else
    let upper := path.take (path.length - last.length - 1)
    some (if upper = [] then [slash] else upper, last)

/-! ## Handles -/

/-- `file`. -/
structure File where
  /-- `writable`. -/
  writable : Bool
  /-- `offset`. -/
  offset : ℕ
  /-- `ip`. -/
  ip : ℕ
  /-- `path`. -/
  path : CStr

/-- The state with the globals of `file.c`. A handle is the address of its record. -/
structure Fs where
  /-- The rest of the enclave. -/
  sys : Sys
  /-- The records of the handles. -/
  files : ℕ → Option File
  /-- The next address that `malloc` gives for a record. -/
  nextFp : ℕ
  /-- The handles in the list behind `fset_head`. -/
  fset : List ℕ
  /-- `pathset`. -/
  pathset : PathSet

/-- A call of the inode layer. -/
def onSys {α : Type} (x : Exec Halt Sys α) : Exec Halt Fs α :=
  Exec.zoom (·.sys) (fun sys s => { s with sys }) x

/-- The record of a handle. -/
def fileAt (fp : ℕ) : Exec Halt Fs File := do
  match ← Exec.read fun s => s.files fp with
  | none => Exec.stop .undefinedBehaviour
  | some file => return file

/-- A store into the record of a handle. -/
def fileStore (fp : ℕ) (file : Option File) : Exec Halt Fs Unit :=
  Exec.update fun s => { s with files := Function.update s.files fp file }

/-- `fset_insert`, true when it fails. -/
def fsetInsert (fp : ℕ) : Exec Halt Fs Bool := do
  let file ← fileAt fp
  let (result, pathset) ← Exec.read fun s => s.pathset.add file.path
  Exec.update fun s => { s with fset := fp :: s.fset, pathset }
  return result ≠ .isTrue

/-- `fset_delete`, true when it fails. -/
def fsetDelete (fp : ℕ) : Exec Halt Fs Bool := do
  let file ← fileAt fp
  let (result, pathset) ← Exec.read fun s => s.pathset.remove file.path
  Exec.update fun s => { s with fset := s.fset.erase fp, pathset }
  return result ≠ .isTrue

/-- `fset_contains`. -/
def fsetContains (s : Fs) (path : CStr) : Bool := s.pathset.contains path = .isTrue

/-- `O_RDWR`. -/
def oRdwr : ℕ := 0x01

/-- `O_CREATE`. -/
def oCreate : ℕ := 0x02

/-- `O_APPEND`. -/
def oAppend : ℕ := 0x04

section

variable (w : World)

/-- The part of `fopen` that gets the inode: `writable`, the inode and the offset;
`none` at its exit to `error`. -/
def fopenInode (junk : Leftover) (filename : CStr) (flags : ℕ) :
    Exec Halt Sys (Option (Bool × ℕ × ℕ)) := do
  if flags &&& oRdwr ≠ 0 then
    match ← inodeGetFile w junk filename (flags &&& oCreate ≠ 0) with
    | none => return none
    | some ip =>
      if flags &&& oAppend ≠ 0 then
        let size ← inodeGetSize w ip
        return some (true, ip, size)
      else return some (true, ip, 0)
  else
    match ← inodeGetFile w junk filename false with
    | none => return none
    | some ip => return some (false, ip, 0)

/-- `fopen`: the handle, or `none` for a null pointer. -/
def fopen (junk : Leftover) (filename : CStr) (flags : ℕ) : Exec Halt Fs (Option ℕ) := do
  if !pathCheck filename then return none
  if ← Exec.read fun s => fsetContains s filename then return none
  let fp ← Exec.read (·.nextFp)
  Exec.update fun s => { s with nextFp := s.nextFp + 1 }
  match ← onSys (fopenInode w junk filename flags) with
  | none => return none
  | some (writable, ip, offset) =>
    fileStore fp (some ⟨writable, offset, ip, filename⟩)
    if ← fsetInsert fp then return none
    return some fp

/-- What `fclose` did: it failed because the path is not registered, it failed to
return the inode, or it closed the handle. -/
inductive Fclose
  | rejected
  | notReturned
  | closed
  deriving DecidableEq

/-- `fclose`. -/
def fclose (fp : ℕ) : Exec Halt Fs Fclose := do
  let file ← fileAt fp
  if !(← Exec.read fun s => fsetContains s file.path) then return .rejected
  let _ ← fsetDelete fp
  if ← onSys (inodeReturn w file.ip) then return .notReturned
  fileStore fp none
  return .closed

/-- `fread`: the bytes done, and the buffer. -/
def fread (fp : ℕ) (data : ℕ → Byte) (size : ℕ) : Exec Halt Fs (ℕ × (ℕ → Byte)) := do
  let file ← fileAt fp
  let (ret, data) ← onSys (inodeRwFile w file.ip data file.offset size false)
  fileStore fp (some { file with offset := (file.offset + ret) % 2 ^ 32 })
  return (ret, data)

/-- `fwrite`: the bytes done. -/
def fwrite (fp : ℕ) (data : ℕ → Byte) (size : ℕ) : Exec Halt Fs ℕ := do
  let file ← fileAt fp
  if !file.writable then return 0
  let (ret, _) ← onSys (inodeRwFile w file.ip data file.offset size true)
  fileStore fp (some { file with offset := (file.offset + ret) % 2 ^ 32 })
  return ret

/-- `SEEK_SET`, `SEEK_CUR`, `SEEK_END`, or another value. -/
inductive Whence
  | set
  | cur
  | «end»
  | other
  deriving DecidableEq

/-- `fseek`, true when it fails. -/
def fseek (fp off : ℕ) (whence : Whence) : Exec Halt Fs Bool := do
  let file ← fileAt fp
  let ipsize ← onSys (inodeGetSize w file.ip)
  if whence = .other then return true
  let newoff := match whence with
    | .set => 0
    | .cur => file.offset
    | _ => ipsize
  if (newoff + off) % 2 ^ 32 < newoff then return true
  let newoff := (newoff + off) % 2 ^ 32
  if ipsize < newoff then return true
  fileStore fp (some { file with offset := newoff })
  return false

/-- `ftell`. -/
def ftell (fp : ℕ) : Exec Halt Fs ℕ := do
  let file ← fileAt fp
  return file.offset

/-- `feof`. -/
def feof (fp : ℕ) : Exec Halt Fs Bool := do
  let file ← fileAt fp
  let ipsize ← onSys (inodeGetSize w file.ip)
  return ipsize = file.offset

/-- `mkdir`, `rmdir` and `rmfile` by what they do with the name in the directory;
true when they fail. The directory is returned only after a success. -/
def onUpper (junk : Leftover) (path : CStr) (f : ℕ → CStr → Exec Halt Sys Bool) :
    Exec Halt Sys Bool := do
  if !pathCheck path then return true
  match pathSplit path with
  | none => Exec.stop .undefinedBehaviour
  | some (upper, last) =>
    match ← inodeGetDir w junk upper with
    | none => return true
    | some upperip =>
      if ← f upperip last then return true
      let _ ← inodeReturn w upperip
      return false

/-- `mkdir`. -/
def mkdir (junk : Leftover) (path : CStr) : Exec Halt Fs Bool :=
  onSys (onUpper w junk path (inodeMkdir w junk))

/-- `rmdir`. -/
def rmdir (junk : Leftover) (path : CStr) : Exec Halt Fs Bool :=
  onSys (onUpper w junk path (inodeRmdir w))

/-- `rmfile`. -/
def rmfile (junk : Leftover) (path : CStr) : Exec Halt Fs Bool :=
  onSys (onUpper w junk path (inodeRmfile w))

/-- The loop of `file_exit`. -/
def closeAll : List ℕ → Exec Halt Fs Bool
  | [] => return false
  | fp :: rest => do
    let file ← fileAt fp
    if ← onSys (inodeReturn w file.ip) then return true
    fileStore fp none
    closeAll rest

/-- `file_exit`, true when it fails. The list behind `fset_head` is not emptied,
and `set_destroy` leaves a set without slots. -/
def fileExit : Exec Halt Fs Bool := do
  Exec.update fun s => { s with pathset := ⟨fun _ => none, 0, 0⟩ }
  let fset ← Exec.read (·.fset)
  closeAll w fset

end

end Efs
