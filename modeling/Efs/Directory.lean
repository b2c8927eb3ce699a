import Efs.HashSet
import Efs.InodeIndex

/-!
# Directories

The part of `inode.c` on directories, whose data is an array of entries, and on
paths: lookups of names, new inodes, removal, and the walk from the root.
-/

namespace Efs

open Library

/-! ## Entries -/

/-- `iid` of a `dirent_t`. -/
def direntIid (de : Bytes 16) : ℕ := de.getLE 0 2

/-- `name` of a `dirent_t`, up to the zero that ends it. -/
def direntName (de : Bytes 16) : CStr :=
  ((List.range (dirnameMaxLen + 1)).map fun i => de.get (2 + i)).takeWhile (· ≠ 0)

/-- The `dirent_t` of an inode under a name. -/
def dirent (iid : ℕ) (name : CStr) : Bytes 16 :=
  ((Bytes.zero.putLE 0 2 iid).write 2 (dirnameMaxLen + 1) fun i => name.getD i 0)

/-- `/`. -/
def slash : Byte := 47#8

/-- `name_of_next_level`: the name and the path after it, `none` for a null pointer. -/
def nameOfNextLevel (path : CStr) : Option (CStr × CStr) :=
  let name := path.takeWhile fun c => c ≠ slash
  if dirnameMaxLen < name.length then none else some (name, path.drop (name.length + 1))

section

variable (w : World)

/-! ## Lookups of names -/

/-- The statement `if(sizeof(de) != inode_rw_data(.., 0)) panic(..)` with the entry
that is read. After a failing read `de` holds what was there before. -/
def direntRead (ip off : ℕ) (de : Option (Bytes 16)) : Exec Halt Sys (Bytes 16) := do
  let (done, buf) ← inodeRwData w ip (de.getD Bytes.zero).get off direntSz false
  Exec.when (done ≠ direntSz) do
    panic w .dirreadFailed
    Exec.when de.isNone (Exec.stop .undefinedBehaviour)
  return ⟨fun i => buf i⟩

/-- The loop over the last `n` entries of a directory, from the one at `off` on:
the inode of the name, if it is there, and the first empty entry before it. -/
def direntsFrom (ip : ℕ) (name : CStr) :
    ℕ → ℕ → Option (Bytes 16) → Option ℕ → Exec Halt Sys (Option ℕ × Option ℕ)
  | 0, _, _, empty => return (none, empty)
  | n + 1, off, de, empty => do
    let de ← direntRead w ip off de
    if direntIid de = 0 then
      direntsFrom ip name n (off + direntSz) (some de) (empty.or (some (off / direntSz)))
    else if name = direntName de then return (some (direntIid de), empty)
    else direntsFrom ip name n (off + direntSz) (some de) empty

/-- The loop `for(off = 0; off < ip->size; off += sizeof(dirent_t))` that the calls
on names begin with. -/
def dirents (ip : ℕ) (name : CStr) : Exec Halt Sys (Option ℕ × Option ℕ) := do
  let inode ← inodeAt ip
  direntsFrom w ip name ((inode.size + direntSz - 1) / direntSz) 0 none none

/-- `inode_getsub`. -/
def inodeGetsub (ip : ℕ) (dirname : CStr) : Exec Halt Sys ℕ := do
  let (found, _) ← dirents w ip dirname
  return found.getD 0

/-! ## New inodes -/

/-- `key128_gen`. -/
def key128Gen : Exec Halt Sys Key128 := do
  let key ← Exec.read fun s => w.random s.keys
  Exec.update fun s => { s with keys := s.keys + 1 }
  return key

/-- `inode_new_get`: the new inode, referenced, or `none` for a null pointer. -/
def inodeNewGet (junk : Leftover) (ip : ℕ) (name : CStr) (type : ℕ) : Exec Halt Sys (Option ℕ) := do
  if dirnameMaxLen < name.length then return none
  let (found, empty) ← dirents w ip name
  if found.isSome then return none
  let inode ← inodeAt ip
  let empty := empty.getD (inode.size / direntSz)
  let iid ← onIbm (ibmAlloc junk)
  if iid = 0 then return none
  let (done, _) ← inodeRwData w ip (dirent iid name).get (empty * direntSz % 2 ^ 32) direntSz true
  if done ≠ direntSz then return none
  match ← igetFromCache w iid true with
  | none => Exec.stop .nullDeref
  | some newip =>
    let _ ← inodeLock w newip
    inodeStore w newip fun inode =>
      { inode with iid, type, size := 0, bid := fun _ => 0, hash := fun _ => Bytes.zero }
    let iv ← key128Gen w
    inodeStore w newip fun inode => { inode with aesIv := iv }
    let key ← key128Gen w
    inodeStore w newip fun inode => { inode with aesKey := key }
    let _ ← inodeMakeDirty w newip
    let _ ← inodeUnlock w newip
    return some newip

/-- `inode_new`: the number of the new inode, 0 when it fails. -/
def inodeNew (junk : Leftover) (ip : ℕ) (name : CStr) (type : ℕ) : Exec Halt Sys ℕ := do
  match ← inodeNewGet w junk ip name type with
  | none => return 0
  | some newip =>
    let newinode ← inodeAt newip
    let _ ← inodeReturn w newip
    return newinode.iid

/-! ## Removal -/

/-- `inode_delete`, true when it fails. The entry of the name stays, and so does
the reference to the inode. -/
def inodeDelete (ip : ℕ) (name : CStr) (type : ℕ) : Exec Halt Sys Bool := do
  if dirnameMaxLen + 1 < name.length then return true
  match ← dirents w ip name with
  | (none, _) => return true
  | (some iid, _) =>
    match ← igetFromCache w iid false with
    | none => return true
    | some delip =>
      let _ ← inodeLock w delip
      let inode ← inodeAt delip
      if inode.type ≠ type ∨ type = inodeTpDir ∧ inode.size ≠ 0 then
        let _ ← inodeUnlock w delip
        return true
      let _ ← inodeMakeDeleted w delip
      let _ ← inodeUnlock w delip
      return false

/-! ## Paths -/

/-- The exit `error` of `inode_get`. -/
def inodeGetError (ip : ℕ) : Exec Halt Sys (Option ℕ) := do
  let _ ← inodeUnlockReturn w ip
  return none

/-- The end of `inode_get` after its loop. -/
def inodeGetEnd (ip type : ℕ) : Exec Halt Sys (Option ℕ) := do
  let _ ← inodeLock w ip
  let inode ← inodeAt ip
  if inode.type ≠ type then inodeGetError w ip
  else
    let _ ← inodeUnlock w ip
    return some ip

/-- The part of the loop of `inode_get` that finds or makes the inode of the name in
`buf`, with the path `p` after it; `none` at the exit to `error`. -/
def inodeGetStep (junk : Leftover) (alloc : Bool) (ip : ℕ) (buf : CStr) (p : Option CStr) :
    Exec Halt Sys (Option ℕ) := do
  let iid ← inodeGetsub w ip buf
  if iid ≠ 0 then return some iid
  match p with
  | none => Exec.stop .nullDeref
  | some rest =>
    if rest = [] ∧ alloc then
      let iid ← inodeNew w junk ip buf inodeTpFile
      return some iid
    else return none

/-- The loop of `inode_get` over at most `n` levels of the path `p`, with the name
in `buf` from the level before. The path is a null pointer after a name that is too long. -/
def inodeGetFrom (junk : Leftover) (type : ℕ) (alloc : Bool) :
    ℕ → Option CStr → CStr → ℕ → Exec Halt Sys (Option ℕ)
  | 0, _, _, ip => inodeGetEnd w ip type
  | _ + 1, none, _, _ => Exec.stop .nullDeref
  | _ + 1, some [], _, ip => inodeGetEnd w ip type
  | n + 1, some (c :: path), buf, ip => do
    let next := nameOfNextLevel (c :: path)
    let buf := (next.map Prod.fst).getD buf
    if buf = [] then inodeGetEnd w ip type
    else
      let _ ← inodeLock w ip
      let inode ← inodeAt ip
      if inode.type ≠ inodeTpDir then inodeGetError w ip
      else
        match ← inodeGetStep w junk alloc ip buf (next.map Prod.snd) with
        | none => inodeGetError w ip
        | some iid =>
          let _ ← inodeUnlockReturn w ip
          match ← igetFromCache w iid false with
          | none => inodeGetError w ip
          | some tmp => inodeGetFrom junk type alloc n (next.map Prod.snd) buf tmp

/-- `inode_get`: the inode, referenced, or `none` for a null pointer. A level of a
path has at least one character. -/
def inodeGet (junk : Leftover) (path : CStr) (type : ℕ) (alloc : Bool) :
    Exec Halt Sys (Option ℕ) := do
  if type = inodeTpDir ∧ alloc then return none
  match path with
  | [] => return none
  | c :: p =>
    if c ≠ slash then return none
    let rootinode ← Exec.read (·.sb.rootinode)
    match ← igetFromCache w rootinode false with
    | none => Exec.stop .nullDeref
    | some ip => inodeGetFrom w junk type alloc (p.length + 1) (some p) [] ip

/-- `inode_get_file`. -/
def inodeGetFile (junk : Leftover) (path : CStr) (alloc : Bool) : Exec Halt Sys (Option ℕ) :=
  inodeGet w junk path inodeTpFile alloc

/-- `inode_get_dir`. -/
def inodeGetDir (junk : Leftover) (path : CStr) : Exec Halt Sys (Option ℕ) :=
  inodeGet w junk path inodeTpDir false

/-! ## Calls from the file layer -/

/-- `inode_read_file` and `inode_write_file`: the bytes done, and the buffer. -/
def inodeRwFile (ip : ℕ) (buf : ℕ → Byte) (offset len : ℕ) (write : Bool) :
    Exec Halt Sys (ℕ × (ℕ → Byte)) := do
  let _ ← inodeLock w ip
  let inode ← inodeAt ip
  if inode.type = inodeTpFile then
    let result ← inodeRwData w ip buf offset len write
    let _ ← inodeUnlock w ip
    return result
  else
    let _ ← inodeUnlock w ip
    return (0, buf)

/-- `inode_mkdir`, true when it fails. -/
def inodeMkdir (junk : Leftover) (ip : ℕ) (name : CStr) : Exec Halt Sys Bool := do
  let _ ← inodeLock w ip
  let iid ← inodeNew w junk ip name inodeTpDir
  let _ ← inodeUnlock w ip
  return iid = 0

/-- `inode_rmdir` and `inode_rmfile` by the type of what they remove, true when they fail. -/
def inodeRemove (type ip : ℕ) (name : CStr) : Exec Halt Sys Bool := do
  let _ ← inodeLock w ip
  let failed ← inodeDelete w ip name type
  let _ ← inodeUnlock w ip
  return failed

/-- `inode_rmdir`. -/
def inodeRmdir : ℕ → CStr → Exec Halt Sys Bool := inodeRemove w inodeTpDir

/-- `inode_rmfile`. -/
def inodeRmfile : ℕ → CStr → Exec Halt Sys Bool := inodeRemove w inodeTpFile

end

end Efs
