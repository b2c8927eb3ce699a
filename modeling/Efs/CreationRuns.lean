import Efs.FileRegistry
import Efs.PathResolution

/-!
# Runs of creations

What `fopen` and `mkdir` do to the tree of directories, in every run from an empty volume.
-/

namespace Efs

open Library

/-! ## Paths and their names -/

/-- The path is made of the names, `/` of none. -/
structure PathOf (path : CStr) (names : List CStr) : Prop where
  /-- The names. -/
  component : ∀ name ∈ names, Component name
  /-- The path. -/
  eq : path = if names = [] then [slash] else joinPath names

/-- A call of `fopen` or of `mkdir` with its result. -/
inductive CreateCall
  /-- `fopen` with the handle, none for a null pointer. -/
  | fopen (junk : Leftover) (filename : CStr) (flags : ℕ) (fp : Option ℕ)
  /-- `mkdir`, true when it fails. -/
  | mkdir (junk : Leftover) (path : CStr) (failed : Bool)

/-- The call returns. -/
def CreateStep (w : World) (fs : Fs) (c : CreateCall) (fs' : Fs) : Prop :=
  match c with
  | .fopen junk filename flags fp => fopen w junk filename flags fs = .ok (fp, fs')
  | .mkdir junk path failed => mkdir w junk path fs = .ok (failed, fs')

/-- What `ibm_alloc` would find in memory it never set. -/
def CreateCall.junk : CreateCall → Leftover
  | .fopen junk _ _ _ => junk
  | .mkdir junk _ _ => junk

/-- `mkdir` of `/` makes an entry with an empty name. -/
def mkdirName (path name : CStr) : Prop := if path = [slash] then name = [] else Component name

/-- The names under which a call can make an inode. -/
def CreateCall.Makes : CreateCall → CStr → Prop
  | .fopen _ _ _ _ => Component
  | .mkdir _ path _ => mkdirName path

/-- The search hint is no further than the last word, or the memory that `ibm_alloc` never set
holds -1. -/
def CreateCall.Defined (fs : Fs) (c : CreateCall) : Prop :=
  fs.sys.ibm.ibmFirstEmptyWord < 512 ∨ c.junk.tmp = none

/-- There is room for the call: for the names of the path, for the inodes on the way to it, and for
the blocks of an entry when `fopen` may make a file and for `mkdir`. -/
def CreateCall.Room (fs : Fs) : CreateCall → Prop
  | .fopen _ filename flags _ => ∀ names, PathOf filename names →
      fs.sys.RoomToWalk (flags &&& oRdwr ≠ 0 ∧ flags &&& oCreate ≠ 0) 0 (names.length + 1)
  | .mkdir _ path _ => ∀ upper last before, pathSplit path = some (upper, last) →
      PathOf upper before → fs.sys.RoomToWalk True 0 (before.length + 2)

/-- The call returns. -/
def CreateCall.Returns (w : World) (fs : Fs) : CreateCall → Prop
  | .fopen junk filename flags _ => ∃ fp fs', CreateStep w fs (.fopen junk filename flags fp) fs'
  | .mkdir junk path _ => ∃ failed fs', CreateStep w fs (.mkdir junk path failed) fs'

/-- A call leaves the files as they are, or makes one inode in a directory, with a name that it can
make. -/
inductive Grown (live : Finset ℕ) (s : Sys) (makes : CStr → Prop) : Finset ℕ → Sys → Prop
  /-- Nothing is made. -/
  | same {s' : Sys} : Unchanged live s s' → Grown live s makes live s'
  /-- One inode is made. -/
  | added {d iid type : ℕ} {name : CStr} {before : List CStr} {s' : Sys} :
      (∀ name ∈ before, Component name) → (s.tree live).Leads 0 before d → (s.tree live).isDir d →
      (s.tree live).child d name = none → makes name →
      Added live d iid name type s s' → Grown live s makes (insert iid live) s'

/-- What `inode_get` is to do with the names of its path: it returns the inode that they lead to, or
makes one file when only the last name is missing, and else leaves the tree as it is. -/
structure Resolves (live : Finset ℕ) (s : Sys) (names : List CStr) (type : ℕ) (alloc : Bool)
    (r : Option ℕ) (live' : Finset ℕ) (s' : Sys) : Prop where
  /-- The names lead to an inode of the type. -/
  found : ∀ iid, (s.tree live).Leads 0 names iid → s.HasType live type iid →
    (∃ ip, r = some ip ∧ s'.Borrowed iid ip) ∧ live' = live ∧ Unchanged live s s'
  /-- Only the last name is missing, and a file is to be made. -/
  made : alloc = true → ∀ d name, (s.tree live).Misses 0 names d name →
    ∃ iid ip, r = some ip ∧ s'.Borrowed iid ip ∧ live' = insert iid live ∧
      Added live d iid name type s s'
  /-- All else. -/
  missing : (∀ iid, (s.tree live).Leads 0 names iid → ¬s.HasType live type iid) →
    ¬(alloc = true ∧ ∃ d name, (s.tree live).Misses 0 names d name) → r = none ∧ live' = live ∧
      Unchanged live s s'

/-- The call does not make an entry with an empty name, `ibm_alloc` does not read memory that it
never set, and there is room. -/
structure CreateCall.Safe (fs : Fs) (c : CreateCall) : Prop where
  /-- `mkdir` of `/` finds no free number. -/
  named : ∀ junk failed, c = .mkdir junk [slash] failed → fs.sys.ibm.freeIids = ∅
  /-- The memory that `ibm_alloc` never set is not read. -/
  defined : c.Defined fs
  /-- There is room for the call. -/
  room : c.Room fs

/-- A volume with nothing but an empty root. -/
structure Sys.EmptyVolume (w : World) (s : Sys) : Prop where
  /-- The root is the only inode. -/
  ok : s.VolumeOk w {0}
  /-- It is empty. -/
  file : (s.spread {0}).file 0 = []
  /-- The other numbers are free. -/
  used : s.ibm.used = {0}

/-- The inodes in use are those that the names of letters and digits lead to. -/
structure Sys.Named (live : Finset ℕ) (s : Sys) : Prop where
  /-- The bitmap shows the inodes in use, and no others. -/
  used : s.ibm.used = live
  /-- Names lead to each of them. -/
  reach : ∀ i ∈ live, ∃ names, (∀ name ∈ names, Component name) ∧ (s.tree live).Leads 0 names i
  /-- All names are of letters and digits. -/
  component : ∀ d name i, (s.tree live).isDir d → (s.tree live).child d name = some i →
    Component name

/-- The entry `e` of the directory `d` has a name of letters and digits, and its inode is the one
that the path of the names leading to it opens. -/
structure Sys.Openable (w : World) (live : Finset ℕ) (d : ℕ) (e : Bytes 16) (s : Sys) : Prop where
  /-- The name. -/
  component : Component (direntName e)
  /-- Names lead to the directory. -/
  reach : ∃ names, (s.tree live).Leads 0 names d
  /-- `path_check` accepts the path. -/
  accepted : ∀ names, (s.tree live).Leads 0 names d →
    pathCheck (joinPath (names ++ [direntName e])) = true
  /-- The path opens the inode of the entry, when there is room for its names. -/
  opens : ∀ names, (s.tree live).Leads 0 names d → s.RoomToWalk False 0 (names.length + 2) → ∀ junk,
    Exec.Wp (if (s.record (direntIid e)).type = inodeTpDir
        then inodeGetDir w junk (joinPath (names ++ [direntName e]))
        else inodeGetFile w junk (joinPath (names ++ [direntName e])) false)
      (fun r s' => ∃ ip, r = some ip ∧ s'.Borrowed (direntIid e) ip) (fun _ => False) s

/-- The inodes that the bitmap shows are a tree of directories, in which each entry can be
opened by a path. -/
def EntriesOpen (w : World) (s : Sys) : Prop :=
  ∃ live : Finset ℕ, s.VolumeOk w live ∧ s.ibm.used = live ∧ ∀ d, (s.tree live).isDir d →
    ∀ e ∈ (s.spread live).entries d, direntIid e ≠ 0 → s.Openable w live d e

/-! ## The empty volume -/

/-- The fresh volume is empty. -/
theorem freshVolume_emptyVolume : freshVolume.EmptyVolume World.plain := by
  have hmem : 0 ∈ ({0} : Finset ℕ) := Finset.mem_singleton_self 0
  have hfile : (freshVolume.spread {0}).file 0 = [] := by
    apply List.eq_nil_of_length_eq_zero
    rw [length_file, fileSize_spread, if_pos hmem, freshVolume_record.2.1]
  have hdir : (freshVolume.tree {0}).isDir 0 := ⟨hmem, freshVolume_record.1⟩
  refine ⟨⟨⟨freshVolume_sound, fun _ h => absurd rfl h, rfl, hdir, fun i hi => ?_, fun i hi => ?_,
    .of_hint rfl rfl, fun d hd => ?_⟩, fun _ _ hn => by cases hn⟩, hfile, freshVolume_used⟩
  · rw [Finset.mem_singleton.mp hi]
    exact Or.inl freshVolume_record.1
  · rw [freshVolume_used]
    exact Finset.mem_singleton.mp hi
  · rw [Finset.mem_singleton.mp hd.1]
    exact goodDir_of_file_nil hfile hmem

/-- The globals after a mount of the empty volume. -/
def freshFs : Fs := ⟨freshVolume, fun _ => none, 0, [], .init⟩

section

variable {w : World} {live live' : Finset ℕ} {s s₁ s' : Sys} {fs fs' : Fs} {type : ℕ}
  {path name : CStr}
  {names : List CStr} {junk : Leftover} {alloc : Bool} {r : Option ℕ} {flags : ℕ} {c : CreateCall}
  {makes : CStr → Prop} {E : Halt → Prop}

/-- A path that `path_check` accepts is one of names. -/
theorem exists_pathOf (hne : path ≠ []) (hcheck : pathCheck path = true) :
    ∃ names, PathOf path names := by
  rcases ((pathCheck_iff_goodPath path).mpr hne).mp hcheck with rfl |
    ⟨names, hnames, hcomponent, rfl⟩
  · exact ⟨[], ⟨fun _ h => (List.not_mem_nil h).elim, rfl⟩⟩
  · exact ⟨names, ⟨hcomponent, (if_neg hnames).symm⟩⟩

/-- On a path of names `inode_get` goes through the names. -/
theorem PathOf.inodeGet_eq (h : PathOf path names) (htype : ¬(type = inodeTpDir ∧ alloc = true)) :
    inodeGet w junk path type alloc = inodeGetPath w junk names type alloc := by
  obtain ⟨hnames, heq⟩ := h
  split_ifs at heq with hnil
  · rw [heq, hnil]
    exact inodeGet_slash htype
  · rw [heq]
    exact inodeGet_joinPath hnil hnames htype

/-- `path_check` accepts the path of names. -/
theorem PathOf.pathCheck (h : PathOf path names) : Efs.pathCheck path = true := by
  obtain ⟨hnames, heq⟩ := h
  split_ifs at heq with hnil
  · rw [heq]
    rfl
  · rw [heq]
    exact pathCheck_joinPath hnil hnames

/-- The path of a name is not the root. -/
theorem PathOf.ne_slash (h : PathOf path names) (hne : names ≠ []) : path ≠ [slash] := by
  obtain ⟨hnames, heq⟩ := h
  rw [if_neg hne] at heq
  cases names with
  | nil => exact absurd rfl hne
  | cons name names =>
    have hname := (hnames name List.mem_cons_self).ne_nil
    rw [heq, joinPath_cons]
    simp [hname]

/-- The path of names is not empty. -/
theorem PathOf.ne_nil (h : PathOf path names) : path ≠ [] := by
  obtain ⟨_, heq⟩ := h
  split_ifs at heq with hnil
  · simp [heq]
  · exact fun hpath => hnil (joinPath_eq_nil.mp (heq.symm.trans hpath))

/-- A path is made of its names in one way. -/
theorem PathOf.unique (h : PathOf path names) {names' : List CStr} (h' : PathOf path names') :
    names = names' := by
  by_cases hnil : names = []
  · subst hnil
    by_contra hne
    exact h'.ne_slash (Ne.symm hne) h.eq
  · have hnil' : names' ≠ [] := by
      rintro rfl
      exact h.ne_slash hnil h'.eq
    have heq := h.eq.symm.trans h'.eq
    rw [if_neg hnil, if_neg hnil'] at heq
    have hlevels := levels_joinPath hnil h.component
    rw [heq, levels_joinPath hnil' h'.component] at hlevels
    exact (Option.some.inj hlevels).symm

/-- `path_split` gives the path of the names before the last one, and an empty last name
for `/`. -/
theorem PathOf.pathSplit (h : PathOf path names) : ∃ upper last before,
    pathSplit path = some (upper, last) ∧
    PathOf upper before ∧ (names = [] ∧ path = [slash] ∧ last = [] ∨ names = before ++ [last]) := by
  obtain ⟨hnames, heq⟩ := h
  split_ifs at heq with hnil
  · subst heq
    exact ⟨[slash], [], [], by decide, ⟨fun _ h => (List.not_mem_nil h).elim, rfl⟩, Or.inl ⟨hnil,
      rfl, rfl⟩⟩
  · obtain ⟨before, last, rfl⟩ : ∃ before last, names = before ++ [last] :=
      ⟨names.dropLast, names.getLast hnil, (List.dropLast_append_getLast hnil).symm⟩
    have hsplit := pathSplit_append (joinPath before) (hnames last (by simp)).slash_notMem
    rw [← joinPath_concat, ← heq] at hsplit
    refine ⟨_, last, before, hsplit, ⟨fun name hmem => hnames name (by simp [hmem]), ?_⟩,
      Or.inr rfl⟩
    simp only [joinPath_eq_nil]

/-! ## What a call makes -/

/-- `inode_get` adds at most inodes under names. -/
theorem Got.grown (hnames : ∀ name ∈ names, Component name)
    (h : Got live 0 s type alloc 0 names r live' s') :
    Grown live s Component live' s' := by
  cases h with
  | found _ _ _ hfiles => exact .same hfiles
  | made _ hmiss hadded _ =>
    obtain ⟨before, rfl, hleads, hdir, hnone⟩ := hmiss
    exact .added (fun name hmem => hnames name (by simp [hmem])) hleads hdir hnone
      (hnames _ (by simp)) hadded
  | missing _ _ hfiles => exact .same hfiles

/-- What has grown and then stays has grown. -/
theorem Grown.trans_same (h : Grown live s makes live' s₁) (hsame : Unchanged live' s₁ s') :
    Grown live s makes live' s' := by
  cases h with
  | same hfiles => exact .same (hfiles.trans hsame)
  | added hbefore hleads hdir hnone hname hadded =>
    exact .added hbefore hleads hdir hnone hname (hadded.trans_same hsame)

/-- The inode that `inode_get` returns is borrowed. -/
theorem Got.borrowed {ip : ℕ} (h : Got live 0 s type alloc 0 names (some ip) live' s') :
    ∃ iid ∈ live', s'.Borrowed iid ip := by
  cases h with
  | found _ htype hb _ => exact ⟨_, htype.1, hb⟩
  | made _ _ _ hb => exact ⟨_, Finset.mem_insert_self _ _, hb⟩

variable (hw : w.Reliable)

include hw

/-- The rule for the calls of `inode_get` on the paths that `path_check` accepts. -/
theorem wp_inodeGetFile_grown (hcheck : pathCheck path = true) (h : s.VolumeOk w live)
    (hjunk : s.ibm.ibmFirstEmptyWord < 512 ∨ junk.tmp = none)
    (hlock : s.ibm.ibmLock = true → E .deadlock)
    (hE : ¬(∀ names, PathOf path names → s.RoomToWalk (alloc = true) 0 (names.length + 1)) →
      ∀ e : Halt, e.NoRoom → E e) :
    Exec.Wp (inodeGetFile w junk path alloc) (fun r s' => ∃ live', s'.VolumeOk w live' ∧
      Grown live s Component live' s' ∧ ∀ ip, r = some ip →
        ∃ iid ∈ live', s'.Borrowed iid ip) E s := by
  have htype : ¬(inodeTpFile = inodeTpDir ∧ alloc = true) := fun hboth => absurd hboth.1 (by decide)
  by_cases hne : path = []
  · subst hne
    rw [inodeGetFile, inodeGet, if_neg htype]
    exact ⟨live, h, .same (.refl live s), by simp⟩
  · obtain ⟨names, hpath⟩ := exists_pathOf hne hcheck
    rw [inodeGetFile, hpath.inodeGet_eq htype]
    refine (wp_inodeGetPath_got hw (fun _ => rfl) (fun _ => hjunk)
      (fun _ => hlock) h hpath.component
      fun hcrowded => hE fun hroom => hcrowded ((hroom names hpath).mono le_rfl And.left)).imp
      fun r s' hpost => ?_
    obtain ⟨live', hok, hgot, _⟩ := hpost
    refine ⟨live', hok, hgot.grown hpath.component, ?_⟩
    rintro ip rfl
    exact hgot.borrowed

/-- The rule for `inode_get_size`. -/
theorem wp_inodeGetSize_visited {i ip : ℕ} (h : s.VolumeOk w live) (hmem : i ∈ live)
    (hb : s.Borrowed i ip)
    {Q : ℕ → Sys → Prop} (hQ : ∀ n s', s'.VolumeOk w live → Unchanged live s s' → Q n s') :
    Exec.Wp (inodeGetSize w ip) Q E s := by
  refine Exec.wp_bind.mpr (wp_inodeLock_visited hw h.sound h.within hmem hb h.unlocked
    fun s₁ hv hb₁ hun => ?_)
  obtain ⟨n, inode, _, _, _, hp, _⟩ := hb₁.pointsTo hv.sound.stored hv.sound.full
  refine Exec.wp_bind.mpr (wp_inodeAt hv.sound.stored.icac hp ?_)
  refine Exec.wp_bind.mpr (wp_inodeUnlock_visited hw hv.sound hv.within hmem hb₁ hun
    fun s₂ hv₂ _ hun₂ => ?_)
  exact hQ _ s₂ ⟨hv₂.treeOk (hv.treeOk h.toTreeOk), hun₂⟩ (hv.trans hv₂).unchanged

/-- The rule for the part of `fopen` that gets the inode. -/
theorem wp_fopenInode_grown (hcheck : pathCheck path = true) (h : s.VolumeOk w live)
    (hjunk : s.ibm.ibmFirstEmptyWord < 512 ∨ junk.tmp = none)
    (hlock : s.ibm.ibmLock = true → E .deadlock)
    (hE : ¬(∀ names, PathOf path names →
      s.RoomToWalk (flags &&& oRdwr ≠ 0 ∧ flags &&& oCreate ≠ 0) 0
      (names.length + 1)) → ∀ e : Halt, e.NoRoom → E e) :
    Exec.Wp (fopenInode w junk path flags) (fun _ s' => ∃ live', s'.VolumeOk w live' ∧
      Grown live s Component live' s') E s := by
  refine Exec.wp_ite.mpr ⟨fun hwrite => ?_, fun _ => ?_⟩
  · refine Exec.wp_bind.mpr ((wp_inodeGetFile_grown hw hcheck h hjunk hlock fun hcrowded => hE
      fun hroom => hcrowded fun names hpath => (hroom names hpath).mono le_rfl fun hmake =>
        ⟨hwrite, by simpa using hmake⟩).imp fun r s₁ hpost => ?_)
    obtain ⟨live', hok, hgrown, hheld⟩ := hpost
    cases r with
    | none => exact ⟨live', hok, hgrown⟩
    | some ip =>
      obtain ⟨iid, hmem, hb⟩ := hheld ip rfl
      refine Exec.wp_ite.mpr ⟨fun _ => ?_, fun _ => ⟨live', hok, hgrown⟩⟩
      exact Exec.wp_bind.mpr (wp_inodeGetSize_visited hw hok hmem hb fun _ s₂ hok₂ hsame =>
        ⟨live', hok₂, hgrown.trans_same hsame⟩)
  · refine Exec.wp_bind.mpr ((wp_inodeGetFile_grown hw hcheck h hjunk hlock fun hcrowded => hE
      fun hroom => hcrowded fun names hpath => (hroom names hpath).mono le_rfl
        fun hmake => Bool.noConfusion hmake).imp fun r s₁ hpost => ?_)
    obtain ⟨live', hok, hgrown, _⟩ := hpost
    cases r with
    | none => exact ⟨live', hok, hgrown⟩
    | some ip => exact ⟨live', hok, hgrown⟩

omit hw in
/-- `fset_insert` is nothing to the rest of the enclave. -/
theorem wp_fsetInsert_sys {fp : ℕ} (hfile : fs.files fp ≠ none) :
    Exec.Wp (fsetInsert fp) (fun _ fs' => fs'.sys = fs.sys) E fs := by
  obtain ⟨file, hfile⟩ := Option.ne_none_iff_exists'.mp hfile
  simp [fsetInsert, fileAt, hfile]

/-- The rule for `fopen`. -/
theorem wp_fopen_grown (h : fs.sys.VolumeOk w live)
    (hjunk : fs.sys.ibm.ibmFirstEmptyWord < 512 ∨ junk.tmp = none)
    (hlock : fs.sys.ibm.freeIids = ∅ → E .deadlock)
    (hE : ¬(CreateCall.fopen junk path flags none).Room fs → ∀ e : Halt, e.NoRoom → E e) :
    Exec.Wp (fopen w junk path flags) (fun _ fs' => ∃ live', fs'.sys.VolumeOk w live' ∧
      Grown live fs.sys Component live' fs'.sys) E fs := by
  have hnone : ∃ live', fs.sys.VolumeOk w live' ∧ Grown live fs.sys Component live' fs.sys :=
    ⟨live, h, .same (.refl live fs.sys)⟩
  refine Exec.wp_ite.mpr ⟨fun _ => hnone, fun hcheck => ?_⟩
  have haccepted : pathCheck path = true := by simpa using hcheck
  refine Exec.wp_bind.mpr (Exec.wp_read.mpr (Exec.wp_ite.mpr ⟨fun _ => hnone, fun _ => ?_⟩))
  refine Exec.wp_bind.mpr (Exec.wp_read.mpr (Exec.wp_bind.mpr (Exec.wp_update.mpr (Exec.wp_bind.mpr
    (Exec.wp_zoom.mpr ((wp_fopenInode_grown hw haccepted h hjunk
      (fun hlocked => hlock (h.search.locked hlocked)) hE).imp fun r s₁ hpost => ?_))))))
  cases r with
  | none => exact hpost
  | some opened =>
    refine Exec.wp_bind.mpr (Exec.wp_update.mpr (Exec.wp_bind.mpr
      ((wp_fsetInsert_sys (by simp)).imp fun failed fs₂ hsys => ?_)))
    rw [← show _ = s₁ from hsys] at hpost
    exact Exec.wp_ite.mpr ⟨fun _ => hpost, fun _ => hpost⟩

/-- The rule for `inode_mkdir` in a directory that is held. -/
theorem wp_inodeMkdir_grown {d ip : ℕ} {before : List CStr} (hmakes : makes name)
    (hname : name = [] ∨ Component name) (h : s.VolumeOk w live)
    (hbefore : ∀ name ∈ before, Component name) (hleads : (s.tree live).Leads 0 before d)
    (hdir : (s.tree live).isDir d) (hb : s.Borrowed d ip)
    (hjunk : s.ibm.ibmFirstEmptyWord < 512 ∨ junk.tmp = none)
    (hlock : s.ibm.ibmLock = true → E .deadlock)
    (hE : ¬s.RoomToWalk True {(d, ip)} 1 → ∀ e : Halt, e.NoRoom → E e) :
    Exec.Wp (inodeMkdir w junk ip name) (fun _ s' => ∃ live', s'.VolumeOk w live' ∧
      Grown live s makes live' s' ∧ d ∈ live' ∧ s'.Borrowed d ip) E s := by
  have hlen : name.length ≤ dirnameMaxLen := by
    rcases hname with rfl | hname
    · exact Nat.zero_le _
    · exact hname.length_le
  have hzero : ∀ c ∈ name, c ≠ 0 := by
    rcases hname with rfl | hname
    · exact fun c hc => (List.not_mem_nil hc).elim
    · exact hname.validName.nonzero
  have hmem : d ∈ live := hdir.1
  refine Exec.wp_bind.mpr (wp_inodeLock_passed hw h.sound h.within hmem hb h.unlocked
    fun s₁ hpassed hb₁ hun => ?_)
  have hv := hpassed.toVisited
  have hdir₁ : (s₁.tree live).isDir d := by
    rw [hv.files.tree_eq]
    exact hdir
  rw [← hv.ibm_eq] at hjunk hlock
  refine Exec.wp_bind.mpr (wp_inodeNew_inside hw ⟨hv.treeOk h.toTreeOk, hb₁, hun⟩ hdir₁ hlen hzero
    (Or.inl rfl) hjunk hlock (fun hcrowded => hE fun hroom => hcrowded ?_) ?_ ?_)
  · have hroom₁ := hroom.keep (hv.spends_none h.sound hb) (hpassed.lends.keep _) id
    exact ⟨(hroom₁.hasRoom (by simp)).icac, hroom₁.bcac, hroom₁.blocks trivial⟩
  · intro s₂ hin₂ hsame _ _ _
    refine Exec.wp_bind.mpr (wp_inodeUnlock_visited hw hin₂.ok.sound hin₂.ok.within hmem
      hin₂.borrowed
      hin₂.unlockedBut fun s₃ hv₃ hb₃ hun₃ => ⟨live, ⟨hv₃.treeOk hin₂.ok, hun₃⟩, ?_, hmem, hb₃⟩)
    exact .same ((hv.unchanged.trans hsame).trans hv₃.unchanged)
  · intro iid s₂ hin₂ hadded _ _ hnone
    have hmem' : d ∈ insert iid live := Finset.mem_insert_of_mem hmem
    rw [hv.files.tree_eq] at hnone
    refine Exec.wp_bind.mpr (wp_inodeUnlock_visited hw hin₂.ok.sound hin₂.ok.within hmem'
      hin₂.borrowed
      hin₂.unlockedBut fun s₃ hv₃ hb₃ hun₃ => ⟨_, ⟨hv₃.treeOk hin₂.ok, hun₃⟩, ?_, hmem', hb₃⟩)
    exact .added hbefore hleads hdir hnone hmakes
      ((hadded.of_same hv.unchanged).trans_same hv₃.unchanged)

omit hw in
/-- A change of the files after a state with the same files. -/
theorem Grown.of_same (hsame : Unchanged live s s₁) (h : Grown live s₁ makes live' s') :
    Grown live s makes live' s' := by
  cases h with
  | same hfiles => exact .same (hsame.trans hfiles)
  | added hbefore hleads hdir hnone hname hadded =>
    rw [hsame.tree_eq] at hleads hdir hnone
    exact .added hbefore hleads hdir hnone hname (hadded.of_same hsame)

/-- The rule for `mkdir`. -/
theorem wp_mkdir_grown (h : fs.sys.VolumeOk w live)
    (hjunk : fs.sys.ibm.ibmFirstEmptyWord < 512 ∨ junk.tmp = none)
    (hlock : fs.sys.ibm.freeIids = ∅ → E .deadlock) (hnil : path = [] → E .undefinedBehaviour)
    (hE : ¬(CreateCall.mkdir junk path false).Room fs → ∀ e : Halt, e.NoRoom → E e) :
    Exec.Wp (mkdir w junk path) (fun _ fs' => ∃ live', fs'.sys.VolumeOk w live' ∧
      Grown live fs.sys (mkdirName path) live' fs'.sys) E fs := by
  refine Exec.wp_zoom.mpr (Exec.wp_ite.mpr
    ⟨fun _ => ⟨live, h, .same (.refl live fs.sys)⟩, fun hcheck => ?_⟩)
  by_cases hne : path = []
  · subst hne
    exact hnil rfl
  obtain ⟨names, hpath⟩ := exists_pathOf hne (by simpa using hcheck)
  obtain ⟨upper, last, before, hsplit, hupper, hlast⟩ := hpath.pathSplit
  obtain ⟨hmakes, hname⟩ : mkdirName path last ∧ (last = [] ∨ Component last) := by
    unfold mkdirName
    rcases hlast with ⟨_, heq, hnil⟩ | rfl
    · rw [if_pos heq]
      exact ⟨hnil, Or.inl hnil⟩
    · have hlast := hpath.component last (by simp)
      rw [if_neg (hpath.ne_slash (by simp))]
      exact ⟨hlast, Or.inr hlast⟩
  rw [hsplit]
  have htype : ¬(inodeTpDir = inodeTpDir ∧ false = true) := by decide
  refine Exec.wp_bind.mpr ?_
  rw [inodeGetDir, hupper.inodeGet_eq htype]
  refine (wp_inodeGetPath_got hw (fun h => by cases h) (fun h => by cases h) (fun h => by cases h) h
    hupper.component fun hcrowded => hE fun hroom => hcrowded
      ((hroom upper last before hsplit hupper).mono
      (Nat.le_succ _) fun _ => trivial)).imp fun r s₁ hpost => ?_
  obtain ⟨live₁, hok, hgot, hspends⟩ := hpost
  cases hgot with
  | missing _ _ hfiles => exact ⟨live, hok, .same hfiles⟩
  | made halloc => cases halloc
  | found hleads hdir hb hfiles hlends =>
    rw [← hfiles.tree_eq] at hleads
    refine Exec.wp_bind.mpr ((wp_inodeMkdir_grown hw hmakes hname hok hupper.component hleads
      (hfiles.hasType_iff.mpr hdir) hb ?_ ?_ fun hcrowded => hE fun hroom => hcrowded
        (Sys.RoomToWalk.spend (hroom upper last before hsplit hupper) (hspends rfl (by simp)) hlends
          id)).imp
      fun failed s₂ hpost => ?_)
    · rw [hfiles.hint]
      exact hjunk
    · intro hlocked
      have hempty := hok.search.locked hlocked
      rw [InodeBitmap.freeIids, hfiles.used] at hempty
      exact hlock hempty
    obtain ⟨live', hok₂, hgrown, hmem, hb₂⟩ := hpost
    have hgrown' := hgrown.of_same hfiles
    refine Exec.wp_ite.mpr ⟨fun _ => ⟨live', hok₂, hgrown'⟩, fun _ => ?_⟩
    exact Exec.wp_bind.mpr (wp_inodeReturn_visited hw hok₂.sound hok₂.within hmem hb₂ hok₂.unlocked
      fun s₃ hv hun => ⟨live', ⟨hv.treeOk hok₂.toTreeOk, hun⟩, hgrown'.trans_same hv.unchanged⟩)

/-! ## Runs -/

omit hw in
/-- A call comes to one state. -/
theorem CreateStep.unique {fs₁ fs₂ : Fs} (h₁ : CreateStep w fs c fs₁) (h₂ : CreateStep w fs c fs₂) :
    fs₁ = fs₂ := by
  cases c with
  | fopen junk filename flags fp =>
    exact congrArg Prod.snd (Except.ok.inj (h₁.symm.trans h₂))
  | mkdir junk path failed =>
    exact congrArg Prod.snd (Except.ok.inj (h₁.symm.trans h₂))

/-- A step of a run of creations adds at most what its call makes. -/
theorem CreateStep.grown (h : fs.sys.VolumeOk w live) (hdefined : c.Defined fs)
    (hstep : CreateStep w fs c fs') :
    ∃ live', fs'.sys.VolumeOk w live' ∧ Grown live fs.sys c.Makes live' fs'.sys := by
  cases c with
  | fopen junk filename flags fp =>
    exact (wp_fopen_grown (E := fun _ => True) hw h hdefined (fun _ => trivial)
      fun _ _ _ => trivial).of_ok hstep
  | mkdir junk path failed =>
    exact (wp_mkdir_grown (E := fun _ => True) hw h hdefined (fun _ => trivial) (fun _ => trivial)
      fun _ _ _ => trivial).of_ok hstep

/-- As long as a number is free, the calls that find room return. -/
theorem CreateCall.returns (h : fs.sys.VolumeOk w live) (hdefined : c.Defined fs)
    (hroom : c.Room fs)
    (hfree : fs.sys.ibm.freeIids.Nonempty) (hne : ∀ junk failed, c ≠ .mkdir junk [] failed) :
    c.Returns w fs := by
  have hlock : fs.sys.ibm.freeIids = ∅ → False := fun hempty => hfree.ne_empty hempty
  cases c with
  | fopen junk filename flags fp =>
    obtain ⟨fp', fs', hcall, _⟩ := (wp_fopen_grown (E := fun _ => False) hw h hdefined hlock
      fun hcrowded => absurd hroom hcrowded).returns
    exact ⟨fp', fs', hcall⟩
  | mkdir junk path failed =>
    obtain ⟨failed', fs', hcall, _⟩ := (wp_mkdir_grown (E := fun _ => False) hw h hdefined hlock
      (by rintro rfl; exact hne junk failed rfl) fun hcrowded => absurd hroom hcrowded).returns
    exact ⟨failed', fs', hcall⟩

omit hw in
/-- What `inode_get` returns is what the path leads to. -/
theorem Got.resolves (hfree : alloc = true → s.ibm.freeIids.Nonempty)
    (h : Got live 0 s type alloc 0 names r live' s') :
      Resolves live s names type alloc r live' s' := by
  cases h with
  | found hleads htype hb hfiles =>
    refine ⟨fun iid hleads' _ => ?_, fun _ d name hmiss => ?_, fun hno _ => ?_⟩
    · rw [hleads'.unique hleads]
      exact ⟨⟨_, rfl, hb⟩, rfl, hfiles⟩
    · exact absurd hmiss hleads.not_misses
    · exact absurd htype (hno _ hleads)
  | made halloc hmiss hadded hb =>
    refine ⟨fun iid hleads _ => ?_, fun _ d name hmiss' => ?_, fun _ hno => ?_⟩
    · exact absurd hmiss hleads.not_misses
    · obtain ⟨rfl, rfl⟩ := hmiss.unique hmiss'
      exact ⟨_, _, rfl, hb, rfl, hadded⟩
    · exact absurd ⟨halloc, _, _, hmiss⟩ hno
  | missing hno hfull hfiles =>
    refine ⟨fun iid hleads htype => ?_, fun halloc d name hmiss => ?_,
      fun _ _ => ⟨rfl, rfl, hfiles⟩⟩
    · exact absurd htype (hno iid hleads)
    · have hempty := hfull halloc ⟨d, name, hmiss⟩
      exact absurd hempty (hfree halloc).ne_empty

omit hw in
/-- Only `/` is made of no names. -/
theorem PathOf.eq_nil_of_slash {path : CStr} (h : PathOf path names) (hslash : path = [slash]) :
    names = [] := by
  by_contra hne
  exact h.ne_slash hne hslash

omit hw in
/-- A path of two names. -/
theorem pathOf_two {a b : CStr} (ha : Component a) (hb : Component b) :
    PathOf (slash :: (a ++ slash :: b)) [a, b] := by
  refine ⟨fun name hmem => ?_, by simp [joinPath]⟩
  rcases List.mem_cons.mp hmem with rfl | hmem
  · exact ha
  · rw [List.mem_singleton.mp hmem]
    exact hb

omit hw in
/-- There is room in the fresh volume. -/
theorem freshVolume_roomToWalk {creates : Prop} {n : ℕ} (hn : n < 256) :
    freshVolume.RoomToWalk creates 0 n := by
  have hok := freshVolume_emptyVolume.ok
  exact ⟨fewOnLoan_of_length hok.sound.stored.icac (by decide),
    hok.sound.stored.ok.keyed.roomy_of_length ((Nat.zero_add n).trans_lt hn),
    fun _ => freshVolume_hasBlocks⟩

omit hw in
/-- The directory `/a` is made in the empty volume, and there is room after it. -/
theorem exists_freshDirectory : ∃ fs', CreateStep World.plain freshFs
    (.mkdir ⟨none, 0⟩ [slash, 97#8] false) fs' ∧
    (CreateCall.mkdir ⟨none, 0⟩ [slash, 97#8] false).Safe freshFs ∧
    fs'.sys.ibm.ibmFirstEmptyWord < 512 ∧ fs'.sys.ibm.freeIids.Nonempty ∧
    (∀ creates, ∀ n ≤ 8, fs'.sys.RoomToWalk creates 0 n) ∧
    (∃ r, inodeGet World.plain ⟨none, 0⟩ [slash, 97#8, slash, 98#8] inodeTpFile true fs'.sys =
      .ok r ∧ r.1.isSome = true) ∧
    ∃ r, fopen World.plain ⟨none, 0⟩ [slash, 97#8, slash, 98#8] (oRdwr ||| oCreate) fs' =
      .ok r := by
  obtain ⟨⟨failed, fs'⟩, hcall, hcheck⟩ := exists_of_check
    (x := mkdir World.plain ⟨none, 0⟩ [slash, 97#8] freshFs)
    (p := fun r : Bool × Fs => !r.1 && decide (r.2.sys.icac.nodes.length + 1 < queueMaxLen ∧
      r.2.sys.bcac.nodes.length + 8 < queueMaxLen ∧ r.2.sys.ibm.ibmFirstEmptyWord < 512 ∧
      idUsed r.2.sys.ibm.ibm 9 = false ∧ r.2.sys.dbmFirstEmptyWord = 0 ∧ ([8, 9, 10, 11].all
        fun did => !idUsed (r.2.sys.spot (bitmapDid2Bid did)).data (did % 32768)) = true) &&
      ((inodeGet World.plain ⟨none, 0⟩
        [slash, 97#8, slash, 98#8] inodeTpFile true r.2.sys).toOption.any
        fun r => r.1.isSome) &&
      ((fopen World.plain ⟨none, 0⟩ [slash, 97#8, slash, 98#8] (oRdwr ||| oCreate) r.2).toOption.any
        fun _ => true)) (by decide +kernel)
  simp only [Bool.and_eq_true, Bool.not_eq_true', decide_eq_true_eq] at hcheck
  obtain ⟨⟨⟨rfl, hicac, hbcac, hhint, hfree, hdbm, hunused⟩, hget⟩, hopen⟩ := hcheck
  have hroom : (CreateCall.mkdir ⟨none, 0⟩ [slash, 97#8] false).Room freshFs := by
    intro upper last before hsplit hupper
    have heq : Efs.pathSplit [slash, 97#8] = some ([slash], [97#8]) := by decide
    rw [heq] at hsplit
    cases hsplit
    obtain rfl := hupper.eq_nil_of_slash rfl
    exact freshVolume_roomToWalk (by decide)
  have hstep : CreateStep World.plain freshFs (.mkdir ⟨none, 0⟩ [slash, 97#8] false) fs' := hcall
  obtain ⟨live, hok, _⟩ := hstep.grown World.plain_reliable freshVolume_emptyVolume.ok
    (Or.inl (Nat.zero_lt_succ _))
  refine ⟨fs', hstep, ⟨fun junk failed heq => ?_, Or.inl (Nat.zero_lt_succ _), hroom⟩, hhint,
    ⟨9, by decide, fun hused => absurd hused.2 (by simp [hfree])⟩, fun creates n hn => ?_,
      exists_of_check hget, ?_⟩
  · have hpath : [slash, 97#8] = [slash] := by injection heq
    exact absurd hpath (by decide)
  · exact ⟨fewOnLoan_of_length hok.sound.stored.icac hicac,
      (hok.sound.stored.ok.keyed.roomy_of_length hbcac).mono hn,
      fun _ => hasBlocks_of_unused hdbm hunused⟩
  · obtain ⟨r, hcall, _⟩ := exists_of_check hopen
    exact ⟨r, hcall⟩

/-- The path of a file in the root. -/
def keptPath (k : ℕ) : CStr := slash :: keptName k

/-- Calls of `fopen` that make files under the names from `k` on, none of which is closed. -/
def keptOpens : ℕ → List ℕ → List CreateCall
  | _, [] => []
  | k, fp :: fps =>
    .fopen ⟨none, 0⟩ (keptPath k) (oRdwr ||| oCreate) (some fp) :: keptOpens (k + 1) fps

/-- A volume with `k` files in the root, which are all on loan. -/
structure Sys.Filled (k : ℕ) (ids : Finset ℕ) (s : Sys) : Prop where
  /-- The tree of directories. -/
  ok : s.VolumeOk World.plain ids
  /-- The inodes in use are those in the tree. -/
  used : s.ibm.used = ids
  /-- They are the files and the root. -/
  card : ids.card = k + 1
  /-- The files are on loan. -/
  loans : ∃ loans, s.OnLoan loans ∧ ∀ i ∈ ids, i ≠ 0 → ∃ p, (i, p) ∈ loans
  /-- The names from `k` on are not there. -/
  fresh : ∀ j, k ≤ j → j < 676 → (s.tree ids).child 0 (keptName j) = none

/-- A session with `k` open files in the root. -/
structure Fs.Crowded (k : ℕ) (fs : Fs) : Prop where
  /-- The files. -/
  filled : ∃ ids, fs.sys.Filled k ids
  /-- The set of open paths. -/
  good : fs.pathset.Good
  /-- The paths from `k` on are not open. -/
  keys : ∀ j, k ≤ j → j < 676 → keptPath j ∉ fs.pathset.keys

omit hw in
/-- The names of the kept files are names. -/
theorem component_keptName {k : ℕ} (hk : k < 676) : Component (keptName k) := by
  have hname := validName_keptName hk
  have hletter : ∀ m < 26, isalnum (BitVec.ofNat 8 (97 + m)) = true := by decide
  refine ⟨hname.pos, hname.length_le, fun c hc => ?_⟩
  rcases List.mem_cons.mp hc with rfl | hc
  · exact hletter _ (by omega)
  · rw [List.mem_singleton.mp hc]
    exact hletter _ (by omega)

omit hw in
/-- The path of a kept file has one name. -/
theorem pathOf_keptPath {k : ℕ} (hk : k < 676) : PathOf (keptPath k) [keptName k] := by
  refine ⟨fun name hmem => ?_, by simp [keptPath, joinPath]⟩
  rw [List.mem_singleton.mp hmem]
  exact component_keptName hk

omit hw in
/-- A number is free. -/
theorem Sys.Filled.free {k : ℕ} {ids : Finset ℕ} (h : s.Filled k ids) (hk : k < 600) :
    s.ibm.freeIids.Nonempty := by
  have hcard := h.card
  obtain ⟨i, hi, hnot⟩ : ∃ i ∈ Finset.range 32768, i ∉ ids :=
    Finset.exists_mem_notMem_of_card_lt_card (by rw [Finset.card_range]; omega)
  refine ⟨i, Finset.mem_range.mp hi, ?_⟩
  rw [h.used]
  exact hnot

omit hw in
/-- `inode_get` of the next path makes one more file. -/
theorem Sys.Filled.got {k : ℕ} {ids live' : Finset ℕ} (h : s.Filled k ids) (hk : k < 600)
    (hok : s'.VolumeOk World.plain live')
    (hgot : Got ids 0 s inodeTpFile true 0 [keptName k] r live' s') :
    r.isSome = true ∧ ∃ ids', s'.Filled (k + 1) ids' := by
  have hnone := h.fresh k le_rfl (by omega)
  cases hgot with
  | found hleads =>
    obtain ⟨_, i, hchild, _⟩ := NameTree.leads_cons.mp hleads
    rw [hnone] at hchild
    cases hchild
  | missing _ hfull =>
    have hmiss : (s.tree ids).Misses 0 [keptName k] 0 (keptName k) :=
      NameTree.misses_singleton.mpr ⟨rfl, rfl, h.ok.rootDir, hnone⟩
    exact absurd (hfull rfl ⟨0, keptName k, hmiss⟩) (h.free hk).ne_empty
  | made halloc hmiss hadded hb hlends =>
    rename_i d iid ip name
    obtain ⟨rfl, rfl, _⟩ := NameTree.misses_singleton.mp hmiss
    obtain ⟨loans, hloans, hall⟩ := h.loans
    refine ⟨rfl, insert iid ids, hok, ?_, ?_,
      ⟨{(iid, ip)} + loans, hlends loans (by rwa [zero_add]), fun i hi hne => ?_⟩,
        fun j hj hlt => ?_⟩
    · rw [hadded.used, h.used, Finset.coe_insert]
    · rw [Finset.card_insert_of_notMem hadded.new, h.card]
    · rcases Finset.mem_insert.mp hi with rfl | hi
      · exact ⟨ip, Multiset.mem_add.mpr (Or.inl (Multiset.mem_singleton_self _))⟩
      · obtain ⟨p, hp⟩ := hall i hi hne
        exact ⟨p, Multiset.mem_add.mpr (Or.inr hp)⟩
    · rw [hadded.tree, NameTree.child_insert, if_neg fun hsame => ?_]
      · exact h.fresh j (by omega) hlt
      · have heq := keptName_injective hlt (by omega) hsame.2
        omega

omit hw in
/-- When `inode_get` returns, `fopen` opens one more file. -/
theorem wp_keptOpen {k : ℕ} (h : fs.Crowded k) (hk : k < 600)
    (hget : Exec.Wp (inodeGet World.plain ⟨none, 0⟩ (keptPath k) inodeTpFile true)
      (fun _ _ => True) E fs.sys) :
    Exec.Wp (fopen World.plain ⟨none, 0⟩ (keptPath k) (oRdwr ||| oCreate))
      (fun r fs' => r.isSome = true ∧ fs'.Crowded (k + 1)) E fs := by
  obtain ⟨ids, hfilled⟩ := h.filled
  have hpath := pathOf_keptPath (k := k) (by omega)
  have hget' : Exec.Wp (inodeGet World.plain ⟨none, 0⟩ (keptPath k) inodeTpFile true)
      (fun r s' => r.isSome = true ∧ ∃ ids', s'.Filled (k + 1) ids') E fs.sys := by
    refine Exec.Wp.intro (fun r s' hcall => ?_) fun e hcall => hget.of_error hcall
    rw [hpath.inodeGet_eq (by decide)] at hcall
    obtain ⟨live', hok, hgot, _⟩ := (wp_inodeGetPath_got (E := fun _ => True) World.plain_reliable
      (fun _ => rfl) (fun _ => Or.inr rfl) (fun _ _ => trivial) hfilled.ok hpath.component
      fun _ _ _ => trivial).of_ok hcall
    exact hfilled.got hk hok hgot
  have hinode : Exec.Wp (fopenInode World.plain ⟨none, 0⟩ (keptPath k) (oRdwr ||| oCreate))
      (fun r s' => r.isSome = true ∧ ∃ ids', s'.Filled (k + 1) ids') E fs.sys := by
    refine Exec.wp_ite.mpr ⟨fun _ => Exec.wp_bind.mpr (hget'.imp fun r s' hpost => ?_),
      fun hread => absurd (by decide) hread⟩
    obtain ⟨ip, rfl⟩ := Option.isSome_iff_exists.mp hpost.1
    exact Exec.wp_ite.mpr ⟨fun happend => absurd happend (by decide), fun _ => ⟨rfl, hpost.2⟩⟩
  have hkey := h.keys k le_rfl (by omega)
  refine wp_fopen h.good (fun _ _ => hinode) (fun hwhy => ?_) (fun sys hpost => ?_)
    fun sys writable ip offset _ hpost => ?_
  · rcases hwhy with hbad | hopen
    · rw [hpath.pathCheck] at hbad
      cases hbad
    · exact absurd hopen hkey
  · exact absurd hpost.1 (by simp)
  · obtain ⟨pathset, hadd, hgood, hkeys⟩ := h.good.add hkey
    refine ⟨rfl, hpost.2, ?_, fun j hj hlt => ?_⟩
    · change (fs.pathset.add (keptPath k)).2.Good
      rw [hadd]
      exact hgood
    · change keptPath j ∉ (fs.pathset.add (keptPath k)).2.keys
      rw [hadd, hkeys, Set.mem_insert_iff, not_or]
      refine ⟨fun hsame => ?_, h.keys j (by omega) hlt⟩
      have heq := keptName_injective hlt (by omega) (List.cons.inj hsame).2
      omega

omit hw in
/-- While files are kept open, one of the next calls of `inode_get` does not return, at the latest
the one that would hold more inodes than the inode cache can. -/
theorem Fs.Crowded.stops {k n : ℕ} (hn : k + n = 513) (h : fs.Crowded k) :
    ∃ fps fs', fps.length < n ∧ Run (CreateStep World.plain) fs (keptOpens k fps) fs' ∧
    Always (CreateStep World.plain) (fun fs c _ => c.Defined fs) fs (keptOpens k fps) ∧
    fs'.Crowded (k + fps.length) ∧ ∀ r, inodeGet World.plain ⟨none, 0⟩ (keptPath (k + fps.length))
      inodeTpFile true fs'.sys ≠ .ok r := by
  induction n generalizing k fs with
  | zero =>
    -- More inodes would be held than the two queues can link.
    obtain ⟨ids, hfilled⟩ := h.filled
    obtain ⟨loans, hloans, hall⟩ := hfilled.loans
    have hheld : ∀ i ∈ ids.erase 0, ∃ p, fs.sys.Borrowed i p := by
      intro i hi
      obtain ⟨p, hp⟩ := hall i (Finset.mem_of_mem_erase hi) (Finset.ne_of_mem_erase hi)
      exact ⟨p, hloans.borrowed hp⟩
    have hle := card_le_of_borrowed hfilled.ok.sound.stored.icac hheld
    rw [Finset.card_erase_of_mem hfilled.ok.zero_mem, hfilled.card] at hle
    simp only [queueMaxLen] at hle
    omega
  | succ n ih =>
    by_cases hreturns : ∃ r, inodeGet World.plain ⟨none, 0⟩
      (keptPath k) inodeTpFile true fs.sys = .ok r
    · have hget : Exec.Wp (inodeGet World.plain ⟨none, 0⟩ (keptPath k) inodeTpFile true)
          (fun _ _ => True) (fun _ => False) fs.sys := by
        obtain ⟨r, hcall⟩ := hreturns
        refine Exec.Wp.intro (fun _ _ _ => trivial) fun e herror => ?_
        rw [hcall] at herror
        cases herror
      obtain ⟨r, fs₁, hstep, hsome, hcrowded⟩ := (wp_keptOpen h (by omega) hget).returns
      obtain ⟨fp, rfl⟩ := Option.isSome_iff_exists.mp hsome
      have hstep : CreateStep World.plain fs (.fopen ⟨none, 0⟩ (keptPath k) (oRdwr ||| oCreate)
        (some fp)) fs₁ := hstep
      obtain ⟨fps, fs', hlen, hrun, hdefined, hend, hstop⟩ := ih (by omega) hcrowded
      have hsum : k + (fps.length + 1) = k + 1 + fps.length := by omega
      refine ⟨fp :: fps, fs', Nat.succ_lt_succ hlen, .cons hstep hrun,
        Always.cons_iff.mpr fun fs₂ hstep₂ => ⟨Or.inr rfl, ?_⟩, ?_, ?_⟩
      · rw [← hstep.unique hstep₂]
        exact hdefined
      · rw [List.length_cons, hsum]
        exact hend
      · rw [List.length_cons, hsum]
        exact hstop
    · exact ⟨[], fs, Nat.succ_pos n, .nil fs, .nil fs, h, fun r hcall => hreturns ⟨r, hcall⟩⟩

omit hw in
/-- A number that is not in use has no children. -/
theorem child_eq_none_of_notMem {i : ℕ} (hi : i ∉ live) : (s.tree live).child i name = none := by
  rw [child_tree, Sys.entries, file_eq_nil hi]
  rfl

omit hw in
/-- The inodes of an empty volume have names. -/
theorem Sys.EmptyVolume.named (h : s.EmptyVolume w) : s.Named {0} := by
  refine ⟨by rw [h.used, Finset.coe_singleton], fun i hi => ⟨[], by simp, ?_⟩,
    fun d name i hdir hchild => ?_⟩
  · rw [Finset.mem_singleton.mp hi]
    exact .nil 0
  · rw [Finset.mem_singleton.mp hdir.1, child_tree, Sys.entries, h.file] at hchild
    cases hchild

omit hw in
/-- A creation under a name of letters and digits. -/
theorem Grown.named (hn : s.Named live) (h : Grown live s makes live' s')
    (hmakes : s.ibm.freeIids.Nonempty → ∀ name, makes name → Component name) : s'.Named live' := by
  cases h with
  | same hfiles =>
    refine ⟨hfiles.used.trans hn.used, ?_, ?_⟩
    · rw [hfiles.tree_eq]
      exact hn.reach
    · rw [hfiles.tree_eq]
      exact hn.component
  | added hbefore hleads hdir hnone hname hadded =>
    rename_i d iid type name before
    have hcomponent := hmakes ⟨iid, hadded.free⟩ name hname
    have hnotDir : ¬(s.tree live).isDir iid := fun hdir' => hadded.new hdir'.1
    refine ⟨?_, fun i hi => ?_, fun d' name' i hdir' hchild => ?_⟩
    · rw [hadded.used, hn.used, Finset.coe_insert]
    · rw [hadded.tree]
      rcases Finset.mem_insert.mp hi with rfl | hi
      · refine ⟨before ++ [name], fun name' hmem => ?_, ?_⟩
        · rcases List.mem_append.mp hmem with hmem | hmem
          · exact hbefore name' hmem
          · rw [List.mem_singleton.mp hmem]
            exact hcomponent
        · exact NameTree.Misses.leads_insert ⟨before, rfl, hleads, hdir, hnone⟩ hnotDir
      · obtain ⟨names, hnames, hleads'⟩ := hn.reach i hi
        exact ⟨names, hnames, hleads'.insert hnotDir hnone⟩
    · rw [hadded.tree] at hdir' hchild
      rw [NameTree.child_insert] at hchild
      split_ifs at hchild with hboth
      · rw [hboth.2]
        exact hcomponent
      · by_cases hnew : d' = iid
        · rw [hnew, child_eq_none_of_notMem hadded.new] at hchild
          cases hchild
        · exact hn.component d' name' i (hdir'.resolve_left fun h => hnew h.1).2 hchild

omit hw in
/-- A safe call makes names only. -/
theorem CreateCall.Safe.component (h : c.Safe fs) (hfree : fs.sys.ibm.freeIids.Nonempty)
    (hmakes : c.Makes name) : Component name := by
  cases c with
  | fopen junk filename flags fp => exact hmakes
  | mkdir junk path failed =>
    by_cases hslash : path = [slash]
    · subst hslash
      exact absurd (h.named junk failed rfl) hfree.ne_empty
    · exact (if_neg hslash).mp hmakes

/-- In every run of safe creations the names stay of letters and digits. -/
theorem creations_named {cs : List CreateCall} (h : fs.sys.VolumeOk w live) (hn : fs.sys.Named live)
    (hrun : Run (CreateStep w) fs cs fs')
      (hsafe : Always (CreateStep w) (fun fs c _ => c.Safe fs) fs cs) :
    ∃ live', fs'.sys.VolumeOk w live' ∧ fs'.sys.Named live' := by
  induction hrun generalizing live with
  | nil fs => exact ⟨live, h, hn⟩
  | cons hstep _ ih =>
    have hhead := hsafe.head hstep
    obtain ⟨live₁, h₁, hgrown⟩ := hstep.grown hw h hhead.defined
    exact ih h₁ (hgrown.named hn fun hfree name hmakes => hhead.component hfree hmakes)
      (hsafe.tail hstep)

omit hw in
/-- Names that lead to a directory are of letters and digits. -/
theorem Sys.Named.of_leads (hn : s.Named live) {i j : ℕ} (h : (s.tree live).Leads i names j) :
    ∀ name ∈ names, Component name := by
  induction h with
  | nil i => exact fun _ hmem => (List.not_mem_nil hmem).elim
  | cons hdir hchild _ ih =>
    intro name hmem
    rcases List.mem_cons.mp hmem with rfl | hmem
    · exact hn.component _ _ _ hdir hchild
    · exact ih name hmem

/-- An entry under a name of letters and digits can be opened. -/
theorem Sys.Named.openable (hn : s.Named live) (h : s.VolumeOk w live) {d : ℕ}
    (hdir : (s.tree live).isDir d)
    {e : Bytes 16} (he : e ∈ (s.spread live).entries d) (hiid : direntIid e ≠ 0) :
      s.Openable w live d e := by
  have hgood := h.dirs d hdir
  have hchild := hgood.child_of_mem he hiid
  have hmem : direntIid e ∈ live := hgood.child _ _ hchild
  have hcomponent := hn.component d _ _ hdir hchild
  obtain ⟨names, _, hleads⟩ := hn.reach d hdir.1
  have hpath : ∀ names, (s.tree live).Leads 0 names d →
    PathOf (joinPath (names ++ [direntName e])) (names ++ [direntName e]) ∧
      (s.tree live).Leads 0 (names ++ [direntName e]) (direntIid e) := by
    intro names hleads
    have hlast := hleads.concat hdir hchild
    exact ⟨⟨hn.of_leads hlast, (if_neg (by simp)).symm⟩, hlast⟩
  refine ⟨hcomponent, ⟨names, hleads⟩, fun names hleads => (hpath names hleads).1.pathCheck,
    fun names hleads hroom junk => ?_⟩
  obtain ⟨hpathOf, hlast⟩ := hpath names hleads
  have hrule : ∀ type, (s.record (direntIid e)).type = type →
      Exec.Wp (inodeGet w junk (joinPath (names ++ [direntName e])) type false)
        (fun r s' => ∃ ip, r = some ip ∧ s'.Borrowed (direntIid e) ip) (fun _ => False) s := by
    intro type htype
    rw [hpathOf.inodeGet_eq (by simp)]
    refine (wp_inodeGetPath_got hw (fun h => by cases h) (fun h => by cases h)
      (fun h => by cases h) h hpathOf.component fun hcrowded => absurd (hroom.mono (by simp)
        fun hmake => Bool.noConfusion hmake.1) hcrowded).imp fun r s' hpost => ?_
    obtain ⟨live', _, hgot, _⟩ := hpost
    exact ((hgot.resolves fun h => by cases h).found _ hlast ⟨hmem, htype⟩).1
  split_ifs with htype
  · exact hrule _ htype
  · exact hrule _ ((h.type _ hmem).resolve_left htype)

/-- In every run of safe creations from an empty volume every entry can be opened by a path. As
long as a number is free, every further safe call returns. -/
theorem entries_open {cs : List CreateCall} (h : fs.sys.EmptyVolume w)
    (hrun : Run (CreateStep w) fs cs fs')
    (hsafe : Always (CreateStep w) (fun fs c _ => c.Safe fs) fs cs) :
    EntriesOpen w fs'.sys ∧ ∀ c : CreateCall, c.Safe fs' → fs'.sys.ibm.freeIids.Nonempty →
      (∀ junk failed, c ≠ .mkdir junk [] failed) → c.Returns w fs' := by
  obtain ⟨live', hok, hnamed⟩ := creations_named hw h.ok h.named hrun hsafe
  exact ⟨⟨live', hok, hnamed.used, fun d hdir e he hiid => hnamed.openable hw hok hdir he hiid⟩,
    fun c hc hfree hne => CreateCall.returns hw hok hc.defined hc.room hfree hne⟩

omit hw in
/-- The directory `/a` and the file `/a/b` are made. -/
theorem entries_open_fresh : ∃ fp fs',
    Run (CreateStep World.plain) freshFs [.mkdir ⟨none, 0⟩ [slash, 97#8] false,
      .fopen ⟨none, 0⟩ [slash, 97#8, slash, 98#8] (oRdwr ||| oCreate) fp] fs' ∧
    EntriesOpen World.plain fs'.sys := by
  obtain ⟨fs₁, hstep₁, hsafe, hhint, _, hroom, _, ⟨fp, fs'⟩, hopen⟩ := exists_freshDirectory
  have hstep₂ : CreateStep World.plain fs₁ (.fopen ⟨none, 0⟩ [slash, 97#8, slash, 98#8]
      (oRdwr ||| oCreate) fp) fs' := hopen
  have hrun := Run.cons hstep₁ (.cons hstep₂ (.nil fs'))
  refine ⟨fp, fs', hrun, (entries_open World.plain_reliable freshVolume_emptyVolume hrun ?_).1⟩
  refine Always.cons_iff.mpr fun fs₂ hstep₁' => ⟨hsafe, ?_⟩
  obtain rfl := hstep₁.unique hstep₁'
  refine Always.cons_iff.mpr fun _ _ => ⟨⟨fun _ _ heq => (by cases heq), Or.inl hhint, ?_⟩, .nil _⟩
  intro names hpath
  have ha : Component [97#8] := ⟨by decide, by decide, by decide⟩
  have hb : Component [98#8] := ⟨by decide, by decide, by decide⟩
  have hnames : names = [[97#8], [98#8]] := hpath.unique (pathOf_two ha hb)
  rw [hnames]
  exact hroom _ _ (by decide)

omit hw in
/-- `mkdir` of `/` makes an entry with an empty name in the root. -/
theorem mkdir_root_not_open : ¬∀ fs', Run (CreateStep World.plain) freshFs
    [.mkdir ⟨none, 0⟩ [slash] false] fs' → EntriesOpen World.plain fs'.sys := by
  intro hall
  obtain ⟨⟨failed, fs'⟩, hcall, hcheck⟩ := exists_of_check
    (x := mkdir World.plain ⟨none, 0⟩ [slash] freshFs)
    (p := fun r => !r.1 && idUsed r.2.sys.ibm.ibm 1) (by decide +kernel)
  simp only [Bool.and_eq_true, Bool.not_eq_true'] at hcheck
  obtain ⟨rfl, hone⟩ := hcheck
  have hstep : CreateStep World.plain freshFs (.mkdir ⟨none, 0⟩ [slash] false) fs' := hcall
  obtain ⟨live, hok, hlive, hopen⟩ := hall fs' (.cons hstep (.nil fs'))
  obtain ⟨live', hok', hgrown⟩ :=
    hstep.grown World.plain_reliable freshVolume_emptyVolume.ok (Or.inl (Nat.zero_lt_succ _))
  cases hgrown with
  | same hfiles =>
    have hmem : 1 ∈ fs'.sys.ibm.used := ⟨by decide, hone⟩
    rw [hfiles.used, show freshFs.sys.ibm.used = {0} from freshVolume_used] at hmem
    cases hmem
  | added hbefore hleads hdir hnone hmakes hadded =>
    rename_i d iid type name before
    have hempty : mkdirName [slash] name := hmakes
    rw [mkdirName, if_pos rfl] at hempty
    subst hempty
    have hsame : live = insert iid {0} := by
      apply Finset.coe_injective
      rw [← hlive, hadded.used, show freshFs.sys.ibm.used = {0} from freshVolume_used]
      simp
    subst hsame
    have hdir' : (fs'.sys.tree (insert iid {0})).isDir d := by
      rw [hadded.tree]
      refine Or.inr ⟨?_, hdir⟩
      rintro rfl
      exact hadded.new hdir.1
    have hchild : (fs'.sys.tree (insert iid {0})).child d [] = some iid := by
      rw [hadded.tree]
      exact if_pos ⟨rfl, rfl⟩
    obtain ⟨e, he, rfl⟩ := Option.map_eq_some_iff.mp hchild
    obtain ⟨hiid, hname⟩ := direntKey_eq_some.mp (Table.key_of_lookup he)
    have hcomponent := (hopen d hdir' e (Table.mem_of_lookup he) hiid).component
    rw [hname] at hcomponent
    exact absurd hcomponent.pos (Nat.lt_irrefl 0)

end

end Efs
