import Efs.DirectoryMap
import Efs.Library.NameTree

/-!
# The tree of directories

The inodes in use with their entries are a tree of names. A call that leaves the files as
they are leaves the tree as it is, and a creation makes one new child.
-/

namespace Efs

open Library

/-- The inode is in use and has the type. -/
def Sys.HasType (s : Sys) (live : Finset ℕ) (type iid : ℕ) : Prop := iid ∈ live ∧
    (s.record iid).type = type

/-- The inodes in use with the names in the directories. -/
noncomputable def Sys.tree (s : Sys) (live : Finset ℕ) : NameTree ℕ CStr where
  isDir := s.HasType live inodeTpDir
  child i := nameMap ((s.spread live).entries i)

/-- The entries of a directory are a table, and its children are in use. -/
structure Sys.GoodDir (s : Sys) (live : Finset ℕ) (d : ℕ) : Prop where
  /-- The size is a multiple of that of an entry. -/
  whole : WholeEntries ((s.spread live).file d)
  /-- No name is there twice. -/
  distinct : Table.Distinct direntKey ((s.spread live).entries d)
  /-- The children are in use. -/
  child : ∀ name i, (s.tree live).child d name = some i → i ∈ live
  /-- There are not more entries than inodes. -/
  few : ((s.spread live).entries d).length < live.card

/-- The inodes in use are a tree of directories with the root 0. -/
structure Sys.TreeOk (w : World) (live : Finset ℕ) (s : Sys) : Prop where
  /-- The inodes in use are sound. -/
  sound : s.Sound w live
  /-- Only inodes in use are cached. -/
  within : s.Within live
  /-- The number of the root. -/
  root : s.sb.rootinode = 0
  /-- The root is a directory. -/
  rootDir : (s.tree live).isDir 0
  /-- There are directories and files. -/
  type : ∀ i ∈ live, (s.record i).type = inodeTpDir ∨ (s.record i).type = inodeTpFile
  /-- The bitmap shows the inodes in use. -/
  used : ∀ i ∈ live, i ∈ s.ibm.used
  /-- The words below the search hint are full. -/
  search : s.ibm.SearchOk
  /-- The directories are good. -/
  dirs : ∀ d, (s.tree live).isDir d → s.GoodDir live d

/-- A tree of directories between two calls. -/
structure Sys.VolumeOk (w : World) (live : Finset ℕ) (s : Sys) : Prop extends s.TreeOk w live where
  /-- No inode is locked. -/
  unlocked : s.Unlocked

/-- From `s` to `s'` the files and the inode numbers in use stayed as they are. -/
structure Unchanged (live : Finset ℕ) (s s' : Sys) : Prop extends SameFiles live s s' where
  /-- The same numbers are in use. -/
  used : s'.ibm.used = s.ibm.used
  /-- The search hint is the same. -/
  hint : s'.ibm.ibmFirstEmptyWord = s.ibm.ibmFirstEmptyWord

/-- From `s` to `s'` the inode `iid` was made with an entry in the directory `d`. -/
structure Added (live : Finset ℕ) (d iid : ℕ) (name : CStr) (type : ℕ) (s s' : Sys) : Prop where
  /-- The number is new. -/
  new : iid ∉ live
  /-- It was free. -/
  free : iid ∈ s.ibm.freeIids
  /-- It is in use now. -/
  used : s'.ibm.used = insert iid s.ibm.used
  /-- The new inode has no content, and the directory one more entry. -/
  file : (s'.spread (insert iid live)).file =
    Function.update (s.spread live).file d (withEntry ((s.spread live).file d) iid name)
  /-- The other types are the same. -/
  types : ∀ i ∈ live, (s'.record i).type = (s.record i).type
  /-- The tree has one more child. -/
  tree : s'.tree (insert iid live) = (s.tree live).insert d name iid (type = inodeTpDir)
  /-- The type of the new inode. -/
  type : (s'.record iid).type = type

section

variable {w : World} {live live' : Finset ℕ} {s s₁ s' : Sys} {d i iid ip type : ℕ} {name : CStr}

/-! ## Good directories -/

/-- The children of a directory are those of its entries. -/
theorem child_tree : (s.tree live).child i name = nameMap ((s.spread live).entries i) name := rfl

/-- A directory that is as it was. -/
theorem Sys.GoodDir.of_file_eq (hd : s.GoodDir live d)
    (hfile : (s'.spread live').file d = (s.spread live).file d) (hsub : live ⊆ live') :
      s'.GoodDir live' d := by
  have hentries : (s'.spread live').entries d = (s.spread live).entries d := by
    rw [Sys.entries, hfile, Sys.entries]
  refine ⟨?_, ?_, fun name i hi => ?_, ?_⟩
  · rw [hfile]
    exact hd.whole
  · rw [hentries]
    exact hd.distinct
  · rw [child_tree, hentries] at hi
    exact hsub (hd.child name i hi)
  · rw [hentries]
    exact hd.few.trans_le (Finset.card_le_card hsub)

/-- An inode without content is a good directory. -/
theorem goodDir_of_file_nil (hfile : (s.spread live).file d = []) (hmem : i ∈ live) :
    s.GoodDir live d := by
  have hentries : (s.spread live).entries d = [] := by
    rw [Sys.entries, hfile]
    rfl
  refine ⟨?_, ?_, fun name i hi => ?_, ?_⟩
  · rw [hfile]
    exact dvd_zero _
  · rw [hentries]
    exact List.nodup_nil
  · rw [child_tree, hentries] at hi
    cases hi
  · rw [hentries]
    exact Finset.card_pos.mpr ⟨i, hmem⟩

/-! ## Calls that leave the files as they are -/

/-- The same files have the same types. -/
theorem SameFiles.hasType_iff (h : SameFiles live s s') : s'.HasType live type i ↔
    s.HasType live type i :=
  and_congr_right fun hi => by rw [h.type i hi]

/-- The same files have the same entries. -/
theorem SameFiles.entries_eq (h : SameFiles live s s') :
    (s'.spread live).entries i = (s.spread live).entries i := by
  rw [Sys.entries, h.file_eq, Sys.entries]

/-- The same files make the same directories. -/
theorem SameFiles.tree_eq (h : SameFiles live s s') : s'.tree live = s.tree live := by
  have hdir : s'.HasType live inodeTpDir = s.HasType live inodeTpDir :=
    funext fun i => propext h.hasType_iff
  simp only [Sys.tree, hdir, h.entries_eq]

/-- What stays unchanged twice stays unchanged. -/
theorem Unchanged.trans (h₁ : Unchanged live s s₁) (h₂ : Unchanged live s₁ s') :
    Unchanged live s s' :=
  ⟨h₁.toSameFiles.trans h₂.toSameFiles, h₂.used.trans h₁.used, h₂.hint.trans h₁.hint⟩

/-- A visit changes no file. -/
theorem Visited.unchanged (hv : Visited w live iid s s') : Unchanged live s s' := by
  constructor
  · exact hv.files
  · rw [hv.ibm_eq]
  · rw [hv.ibm_eq]

/-- Nothing changes when nothing happens. -/
theorem Unchanged.refl (live : Finset ℕ) (s : Sys) : Unchanged live s s := ⟨.refl live s, rfl, rfl⟩

/-- A visit leaves the directories good. -/
theorem Visited.treeOk (hv : Visited w live iid s s') (h : s.TreeOk w live) : s'.TreeOk w live := by
  refine ⟨hv.sound, hv.within, hv.rootinode_eq.trans h.root, ?_, fun i hi => ?_, ?_, ?_,
    fun d hd => ?_⟩
  · rw [hv.files.tree_eq]
    exact h.rootDir
  · rw [hv.files.type i hi]
    exact h.type i hi
  · rw [hv.ibm_eq]
    exact h.used
  · rw [hv.ibm_eq]
    exact h.search
  · rw [hv.files.tree_eq] at hd
    exact (h.dirs d hd).of_file_eq (congrFun hv.files.file_eq d) (Finset.Subset.refl live)

/-! ## Entries -/

/-- The root is in use. -/
theorem Sys.TreeOk.zero_mem (h : s.TreeOk w live) : 0 ∈ live := h.rootDir.1

/-- A new entry is below the size limit of files. -/
theorem Sys.GoodDir.limit (hd : s.GoodDir live d) (h : s.Sound w live) :
    direntSz * (Table.place direntKey ((s.spread live).entries d) + 1) < 2 ^ 32 - 1 := by
  have hcard : live.card ≤ (Finset.range 32768).card :=
    Finset.card_le_card fun i hi => Finset.mem_range.mpr (h.lt i hi)
  have hplace : Table.place direntKey ((s.spread live).entries d) ≤
    ((s.spread live).entries d).length :=
    Table.place_le
  have hfew := hd.few
  rw [Finset.card_range] at hcard
  simp only [direntSz]
  omega

/-- A name without an inode has no entry. -/
theorem nameMap_eq_none {es : List (Bytes 16)} : nameMap es name = none ↔
    Table.lookup direntKey name es = none :=
  Option.map_eq_none_iff

/-- An inode with a name has not the number 0. -/
theorem ne_zero_of_nameMap {es : List (Bytes 16)} (h : nameMap es name = some iid) : iid ≠ 0 := by
  obtain ⟨e, he, rfl⟩ := Option.map_eq_some_iff.mp h
  exact (direntKey_eq_some.mp (Table.key_of_lookup he)).1

/-- The entries that are not empty are the children. -/
theorem Sys.GoodDir.child_of_mem (hd : s.GoodDir live d) {e : Bytes 16}
    (he : e ∈ (s.spread live).entries d)
    (hiid : direntIid e ≠ 0) : (s.tree live).child d (direntName e) = some (direntIid e) := by
  have hkey : direntKey e = some (direntName e) := direntKey_eq_some.mpr ⟨hiid, rfl⟩
  exact Option.map_eq_some_iff.mpr ⟨e, hd.distinct.lookup_eq_some_iff.mpr ⟨he, hkey⟩, rfl⟩

/-! ## Creations -/

/-- An inserted entry gives its name to its inode. -/
theorem nameMap_insert {es : List (Bytes 16)} (hpos : iid ≠ 0) (hlt : iid < 2 ^ 16)
    (hlen : name.length ≤ dirnameMaxLen) (hzero : ∀ c ∈ name, c ≠ 0)
      (hnone : nameMap es name = none)
    {name' : CStr} : nameMap (Table.insert direntKey (dirent iid name) es) name' =
      if name' = name then some iid else nameMap es name' := by
  rw [nameMap, Table.lookup_insert (direntKey_dirent hpos hlt hlen hzero)
    (nameMap_eq_none.mp hnone)]
  split_ifs
  · rw [Option.map_some, direntIid_dirent hlt]
  · rfl

variable (h : s.TreeOk w live) (hdir : (s.tree live).isDir d)
  (hc : Created w live d iid ip name type s s')

include h hdir hc

/-- The entries after a creation. -/
theorem Created.entries_eq : (s'.spread (insert iid live)).entries i =
    if i = d then Table.insert direntKey (dirent iid name) ((s.spread live).entries d)
    else (s.spread live).entries i := by
  rw [Sys.entries, hc.file]
  split_ifs with hi
  · rw [hi, Function.update_self]
    exact direntsOf_overwrite (h.dirs d hdir).whole
  · rw [Function.update_of_ne hi, Sys.entries]

omit hdir in
/-- A created inode is new. -/
theorem Created.new : iid ∉ live ∧ iid ≠ 0 := by
  have hnew : iid ∉ live := fun hi => hc.marked.unused (h.used iid hi)
  refine ⟨hnew, ?_⟩
  rintro rfl
  exact hnew h.zero_mem

variable (hlen : name.length ≤ dirnameMaxLen) (hzero : ∀ c ∈ name, c ≠ 0)
  (hnone : (s.tree live).child d name = none)

include hlen hzero hnone

/-- A created inode was added to its directory. -/
theorem Created.added : Added live d iid name type s s' := by
  obtain ⟨hnew, hpos⟩ := hc.new h
  have hisDir : s'.HasType (insert iid live) inodeTpDir =
      ((s.tree live).insert d name iid (type = inodeTpDir)).isDir := by
    funext i
    apply propext
    simp only [Sys.HasType, NameTree.insert, Finset.mem_insert]
    by_cases hi : i = iid
    · subst hi
      simp [hc.type]
    · simp only [hi, false_or, false_and, ne_eq, not_false_eq_true, true_and]
      exact and_congr_right fun hmem => by rw [hc.types i hmem]
  have hchild : (fun i => nameMap ((s'.spread (insert iid live)).entries i)) =
      ((s.tree live).insert d name iid (type = inodeTpDir)).child := by
    funext i name'
    rw [hc.entries_eq h hdir, NameTree.child_insert]
    by_cases hi : i = d
    · rw [if_pos hi, nameMap_insert hpos (hc.marked.lt.trans (by decide)) hlen hzero hnone, hi]
      by_cases hname : name' = name
      · rw [if_pos hname, if_pos ⟨rfl, hname⟩]
      · rw [if_neg hname, if_neg fun hboth => hname hboth.2]
        rfl
    · rw [if_neg hi, if_neg fun hboth => hi hboth.1]
      rfl
  refine ⟨hnew, ⟨hc.marked.lt, hc.marked.unused⟩, hc.marked.used, hc.file, hc.types, ?_, hc.type⟩
  rw [Sys.tree, hisDir, hchild]

/-- The directory with the new entry is good. -/
theorem Created.goodDir_self : s'.GoodDir (insert iid live) d := by
  obtain ⟨hnew, hpos⟩ := hc.new h
  have hgood := h.dirs d hdir
  have hkey := direntKey_dirent hpos (hc.marked.lt.trans (by decide)) hlen hzero
  have hentries := hc.entries_eq (i := d) h hdir
  have hfile := congrFun hc.file d
  rw [if_pos rfl] at hentries
  rw [Function.update_self] at hfile
  refine ⟨?_, ?_, fun name' j hj => ?_, ?_⟩
  · rw [hfile]
    exact wholeEntries_overwrite hgood.whole (place_le_length _)
  · rw [hentries]
    exact hgood.distinct.insert hkey (nameMap_eq_none.mp hnone)
  · rw [(hc.added h hdir hlen hzero hnone).tree, NameTree.child_insert] at hj
    split_ifs at hj
    · cases hj
      exact Finset.mem_insert_self _ _
    · exact Finset.mem_insert_of_mem (hgood.child name' j hj)
  · have hplace : Table.place direntKey ((s.spread live).entries d) ≤
      ((s.spread live).entries d).length :=
      Table.place_le
    have hfew := hgood.few
    rw [hentries, Table.length_insert, Finset.card_insert_of_notMem hnew]
    omega

/-- The directories after a creation are good. -/
theorem Created.goodDir (hi : (s'.tree (insert iid live)).isDir i) :
    s'.GoodDir (insert iid live) i := by
  by_cases hid : i = d
  · rw [hid]
    exact hc.goodDir_self h hdir hlen hzero hnone
  have hfile : (s'.spread (insert iid live)).file i = (s.spread live).file i := by
    rw [hc.file, Function.update_of_ne hid]
  by_cases hiid : i = iid
  · refine goodDir_of_file_nil ?_ (Finset.mem_insert_self iid live)
    rw [hfile]
    exact file_eq_nil (hiid ▸ (hc.new h).1)
  · rw [(hc.added h hdir hlen hzero hnone).tree] at hi
    have hold : (s.tree live).isDir i := (hi.resolve_left fun hboth => hiid hboth.1).2
    exact (h.dirs i hold).of_file_eq hfile (Finset.subset_insert iid live)

/-- A creation keeps the tree of directories. -/
theorem Created.treeOk (htype : type = inodeTpDir ∨ type = inodeTpFile) :
    s'.TreeOk w (insert iid live) := by
  refine ⟨hc.sound, hc.within, hc.root.trans h.root, ⟨?_, ?_⟩, fun i hi => ?_, fun i hi => ?_,
    hc.marked.searchOk h.search, fun i hi => hc.goodDir h hdir hlen hzero hnone hi⟩
  · exact Finset.mem_insert_of_mem h.zero_mem
  · rw [hc.types 0 h.zero_mem]
    exact h.rootDir.2
  · rcases Finset.mem_insert.mp hi with rfl | hi
    · rw [hc.type]
      exact htype
    · rw [hc.types i hi]
      exact h.type i hi
  · rw [hc.marked.used]
    rcases Finset.mem_insert.mp hi with rfl | hi
    · exact Set.mem_insert _ _
    · exact Set.mem_insert_of_mem iid (h.used i hi)

end

end Efs
