import Efs.VolumeCreation

/-!
# Directories as finite maps

In every run of `inode_new_get` and `inode_getsub` on a directory, its entries are a table
in which each new entry takes the first empty slot, or the end, and no name is there
twice. So the directory is a finite map from names to inode numbers.
-/

namespace Efs

open Library

/-- A call on a directory, or on an inode that was made in it. -/
inductive DirCall
  /-- `inode_new_get` with the number and the pointer of the inode it made, none for a null
  pointer. -/
  | create (name : CStr) (type : ℕ) (junk : Leftover) (made : Option (ℕ × ℕ))
  /-- `inode_getsub` with the number that it returned. -/
  | getsub (name : CStr) (iid : ℕ)
  /-- `inode_return` of an inode that was made. -/
  | giveBack (iid ip : ℕ)

/-- The call on the directory at the pointer `ip` returns. -/
def DirStep (w : World) (ip : ℕ) (s : Sys) (c : DirCall) (s' : Sys) : Prop :=
  match c with
  | .create name type junk made =>
    inodeNewGet w junk ip name type s = .ok (made.map Prod.snd, s') ∧
      ∀ m ∈ made, ∃ inode, s'.PointsTo m.2 m.1 inode
  | .getsub name iid => inodeGetsub w ip name s = .ok (iid, s')
  | .giveBack _ newip => ∃ failed, inodeReturn w newip s = .ok (failed, s')

/-- What a call is to do with the entries of the directory and the inode numbers in use. -/
def TableStep (t : List (Bytes 16) × Set ℕ) (c : DirCall) (t' : List (Bytes 16) × Set ℕ) : Prop :=
  match c with
  | .create name _ _ none => Table.lookup direntKey name t.1 ≠ none ∧ t' = t
  | .create name _ _ (some (iid, _)) =>
    Table.lookup direntKey name t.1 = none ∧ iid ∉ t.2 ∧ iid ≠ 0 ∧
      iid < 32768 ∧ t' = (Table.insert direntKey (dirent iid name) t.1, insert iid t.2)
  | .getsub name iid => iid = ((Table.lookup direntKey name t.1).map direntIid).getD 0 ∧ t' = t
  | .giveBack _ _ => t' = t

/-- What a call is to do with the finite map from names to inode numbers. -/
def MapStep (f : CStr → Option ℕ) (c : DirCall) (f' : CStr → Option ℕ) : Prop :=
  match c with
  | .create name _ _ none => f name ≠ none ∧ f' = f
  | .create name _ _ (some (iid, _)) => f name = none ∧ f' = Function.update f name (some iid)
  | .getsub name iid => iid = (f name).getD 0 ∧ f' = f
  | .giveBack _ _ => f' = f

/-- The names of a table with their inode numbers. -/
def nameMap (es : List (Bytes 16)) (name : CStr) : Option ℕ :=
    (Table.lookup direntKey name es).map direntIid

/-- The directory `dir` is held through the pointer `ip`, and its entries are a table. -/
structure Sys.DirOk (w : World) (live : Finset ℕ) (dir ip : ℕ) (s : Sys) : Prop where
  /-- The inodes in use are sound. -/
  sound : s.Sound w live
  /-- Only inodes in use are cached. -/
  within : s.Within live
  /-- The directory is in use. -/
  mem : dir ∈ live
  /-- The directory is held. -/
  borrowed : s.Borrowed dir ip
  /-- The bitmap shows the inodes in use. -/
  used : ∀ i ∈ live, i ∈ s.ibm.used
  /-- The number 0 is that of the root. -/
  zero : 0 ∈ s.ibm.used
  /-- The words below the search hint are full. -/
  search : s.ibm.SearchOk
  /-- The size is a multiple of that of an entry. -/
  whole : WholeEntries (s.file dir)
  /-- No name is there twice. -/
  distinct : Table.Distinct direntKey (s.entries dir)

/-- The call is one with a name that a directory can have, and a new inode gets a number and
an entry below the size limit of files; an inode is given back by who holds it. -/
def DirCall.Fits (dir : ℕ) (s : Sys) : DirCall → Prop
  | .create name type _ _ => ValidName name ∧ type < 2 ^ 16 ∧ s.ibm.freeIids.Nonempty ∧
      direntSz * (Table.place direntKey (s.entries dir) + 1) < 2 ^ 32 - 1
  | .getsub name _ => ValidName name
  | .giveBack iid ip =>
    iid ≠ dir ∧ s.Borrowed iid ip ∧ ∀ n, s.icac.node iid = some n → n.locked = false

/-- There is room for the call: in the block cache for the scan of the directory, and for a new
name also for its inode and its entry. -/
def DirCall.Room (dir : ℕ) (s : Sys) : DirCall → Prop
  | .create name _ _ _ => s.Roomy 1 ∧ (Table.lookup direntKey name (s.entries dir) = none →
      s.RoomToCreate dir (Table.place direntKey (s.entries dir)))
  | .getsub _ _ => s.Roomy 1
  | .giveBack _ _ => True

/-- The call returns. -/
def DirCall.Returns (w : World) (ip : ℕ) (s : Sys) : DirCall → Prop
  | .create name type junk _ => ∃ made s', DirStep w ip s (.create name type junk made) s'
  | .getsub name _ => ∃ iid s', DirStep w ip s (.getsub name iid) s'
  | .giveBack iid newip => ∃ s', DirStep w ip s (.giveBack iid newip) s'

/-- From `s` to `s'` the inodes in use stayed in use, and but for the directory `dir` they
have the same files. -/
structure OthersStay (live live' : Finset ℕ) (dir : ℕ) (s s' : Sys) : Prop where
  /-- The inodes stay in use. -/
  subset : live ⊆ live'
  /-- They have the same types. -/
  type : ∀ i ∈ live, (s'.record i).type = (s.record i).type
  /-- The others have the same files. -/
  file : ∀ i ∈ live, i ≠ dir → (s'.spread live').file i = (s.spread live).file i

/-- The entries of the directory and the inode numbers in use. -/
noncomputable def Sys.table (s : Sys) (dir : ℕ) : List (Bytes 16) × Set ℕ :=
  (s.entries dir, s.ibm.used)

section

variable {w : World} {live : Finset ℕ} {s s' : Sys} {dir ip iid newip type : ℕ} {name : CStr}
  {junk : Leftover} {c : DirCall} {cs : List DirCall} {t t' : List (Bytes 16) × Set ℕ}

/-! ## Tables -/

/-- A call on the table is one on the finite map. -/
theorem TableStep.mapStep (h : TableStep t c t') (hfits : c.Fits dir s) :
    MapStep (nameMap t.1) c (nameMap t'.1) := by
  match c with
  | .create name type junk none =>
    obtain ⟨hfound, rfl⟩ := h
    exact ⟨by simpa [nameMap] using hfound, rfl⟩
  | .create name type junk (some (iid, p)) =>
    obtain ⟨hnone, _, hpos, hlt, rfl⟩ := h
    have hiid : iid < 2 ^ 16 := hlt.trans (by decide)
    have hkey := direntKey_dirent hpos hiid hfits.1.length_le hfits.1.nonzero
    refine ⟨by simp [nameMap, hnone], funext fun name' => ?_⟩
    rw [nameMap, Table.lookup_insert hkey hnone]
    by_cases heq : name' = name
    · rw [if_pos heq, heq, Function.update_self, Option.map_some, direntIid_dirent hiid]
    · rw [if_neg heq, Function.update_of_ne heq, nameMap]
  | .getsub name iid =>
    obtain ⟨heq, rfl⟩ := h
    exact ⟨heq, rfl⟩
  | .giveBack iid ip =>
    obtain rfl := h
    rfl

/-! ## Calls -/

/-- The inode of an open directory is cached. -/
theorem Sys.DirOk.inodeOf (h : s.DirOk w live dir ip) : ∃ inode, s.inodeOf dir = some inode := by
  obtain ⟨n, inode, hn, _, hcontent, _⟩ := h.borrowed.pointsTo h.sound.stored h.sound.full
  exact ⟨inode, inodeOf_of_node hn hcontent⟩

/-- The bytes of an open directory are those of the volume. -/
theorem Sys.DirOk.file_eq (h : s.DirOk w live dir ip) : (s.spread live).file dir = s.file dir := by
  obtain ⟨inode, hinode⟩ := h.inodeOf
  exact file_spread hinode h.mem

/-- The entries of an open directory are those of the volume. -/
theorem Sys.DirOk.entries_eq (h : s.DirOk w live dir ip) :
    (s.spread live).entries dir = s.entries dir := by
  rw [Sys.entries, h.file_eq, Sys.entries]

/-- A call that leaves all files as they are leaves the directory so. -/
theorem Sys.DirOk.visited (h : s.DirOk w live dir ip) (hv : Visited w live iid s s')
    (hb : s'.Borrowed dir ip) : s'.DirOk w live dir ip ∧ s'.table dir = s.table dir := by
  have hcached : ∃ inode, s'.inodeOf dir = some inode := by
    obtain ⟨n, inode, hn, _, hcontent, _⟩ := hb.pointsTo hv.sound.stored hv.sound.full
    exact ⟨inode, inodeOf_of_node hn hcontent⟩
  obtain ⟨inode, hinode⟩ := hcached
  have hfile : s'.file dir = s.file dir := by
    rw [← file_spread hinode h.mem, hv.files.file dir h.mem, h.file_eq]
  have hentries : s'.entries dir = s.entries dir := by rw [Sys.entries, hfile, Sys.entries]
  refine ⟨⟨hv.sound, hv.within, h.mem, hb, ?_, ?_, ?_, ?_, ?_⟩, ?_⟩
  · rw [hv.ibm_eq]
    exact h.used
  · rw [hv.ibm_eq]
    exact h.zero
  · rw [hv.ibm_eq]
    exact h.search
  · rw [hfile]
    exact h.whole
  · rw [hentries]
    exact h.distinct
  · rw [Sys.table, hentries, hv.ibm_eq, Sys.table]

/-- The other files stay when nothing happens. -/
theorem OthersStay.refl (live : Finset ℕ) (dir : ℕ) (s : Sys) : OthersStay live live dir s s :=
  ⟨Finset.Subset.refl live, fun _ _ => rfl, fun _ _ _ => rfl⟩

/-- What stays twice stays. -/
theorem OthersStay.trans {live₁ live' : Finset ℕ} {s₁ : Sys} (h₁ : OthersStay live live₁ dir s s₁)
    (h₂ : OthersStay live₁ live' dir s₁ s') : OthersStay live live' dir s s' :=
  ⟨h₁.subset.trans h₂.subset, fun i hi => (h₂.type i (h₁.subset hi)).trans (h₁.type i hi),
    fun i hi hne => (h₂.file i (h₁.subset hi) hne).trans (h₁.file i hi hne)⟩

/-- A visit leaves the other files. -/
theorem Visited.othersStay (hv : Visited w live iid s s') : OthersStay live live dir s s' :=
  ⟨Finset.Subset.refl live, hv.files.type, fun i hi _ => hv.files.file i hi⟩

/-- The directory after a creation. -/
theorem Sys.DirOk.created (h : s.DirOk w live dir ip) (hname : ValidName name)
    (hnone : Table.lookup direntKey name (s.entries dir) = none)
    (hc : Created w live dir iid newip name type s s') :
    s'.DirOk w (insert iid live) dir ip ∧ OthersStay live (insert iid live) dir s s' ∧
      TableStep (s.table dir) (.create name type junk (some (iid, newip))) (s'.table dir) := by
  have hnew : iid ∉ live := fun hi => hc.marked.unused (h.used iid hi)
  have hne : dir ≠ iid := by
    rintro rfl
    exact hnew h.mem
  have hpos : iid ≠ 0 := by
    rintro rfl
    exact hc.marked.unused h.zero
  have hb := (hc.node dir hne).borrowed h.borrowed
  obtain ⟨_, inode, hn, _, hcontent, _⟩ := hb.pointsTo hc.sound.stored hc.sound.full
  have hfile : s'.file dir = withEntry (s.file dir) iid name := by
    rw [← file_spread (inodeOf_of_node hn hcontent) (Finset.mem_insert_of_mem h.mem), hc.file,
      Function.update_self, h.file_eq]
  have hentries : s'.entries dir = Table.insert direntKey (dirent iid name) (s.entries dir) := by
    rw [Sys.entries, hfile]
    exact direntsOf_overwrite h.whole
  have hkey := direntKey_dirent hpos (hc.marked.lt.trans (by decide)) hname.length_le hname.nonzero
  refine ⟨⟨hc.sound, hc.within, Finset.mem_insert_of_mem h.mem, hb, fun i hi => ?_, ?_,
    hc.marked.searchOk h.search,
    ?_, ?_⟩, ⟨Finset.subset_insert iid live, hc.types, fun i hi hidir => ?_⟩,
    hnone, hc.marked.unused, hpos, hc.marked.lt, ?_⟩
  · rw [hc.marked.used]
    rcases Finset.mem_insert.mp hi with rfl | hi
    · exact Set.mem_insert _ _
    · exact Set.mem_insert_of_mem iid (h.used i hi)
  · rw [hc.marked.used]
    exact Set.mem_insert_of_mem iid h.zero
  · rw [hfile]
    exact wholeEntries_overwrite h.whole (place_le_length _)
  · rw [hentries]
    exact h.distinct.insert hkey hnone
  · rw [hc.file, Function.update_of_ne hidir]
  · rw [Sys.table, hentries, hc.marked.used, Sys.table]

/-- A pointer is one to one inode. -/
theorem Sys.PointsTo.iid_unique (hs : s.Stored w 0) {inode inode' : Inode} {iid' : ℕ}
    (hp : s.PointsTo ip iid inode) (hp' : s.PointsTo ip iid' inode') : iid = iid' := by
  obtain ⟨n, hn, haddr, hcontent⟩ := hp
  obtain ⟨n', hn', haddr', hcontent'⟩ := hp'
  have hat := hs.icac.contentAt hn
  have hat' := hs.icac.contentAt hn'
  rw [haddr, hcontent] at hat
  rw [haddr', hcontent', hat] at hat'
  rw [← (hs.backs iid n inode hn hcontent).iid_eq, ← (hs.backs iid' n' inode' hn' hcontent').iid_eq,
    Option.some.inj hat']

variable (hw : w.Reliable)

include hw

/-- The rule for a creation. It stops only without room. -/
theorem wp_create (h : s.DirOk w live dir ip) (hname : ValidName name) (htype : type < 2 ^ 16)
    (hfree : s.ibm.freeIids.Nonempty)
    (hlimit : direntSz * (Table.place direntKey (s.entries dir) + 1) < 2 ^ 32 - 1) :
    Exec.Wp (inodeNewGet w junk ip name type) (fun r s' => ∃ live' made, r = made.map Prod.snd ∧
      (∀ m ∈ made, s'.Borrowed m.1 m.2) ∧ (∀ i p, s.Borrowed i p → s'.Borrowed i p) ∧
      s'.DirOk w live' dir ip ∧ OthersStay live live' dir s s' ∧
      TableStep (s.table dir) (.create name type junk made) (s'.table dir))
      (fun _ => ¬(DirCall.create name type junk none).Room dir s) s := by
  have hentries := h.entries_eq
  have hhint : s.ibm.ibmFirstEmptyWord < 512 := by
    by_contra hpast
    have hempty : s.ibm.freeIids = ∅ := h.search.below.freeIds_eq_empty (by omega)
    rw [hempty] at hfree
    exact Set.not_nonempty_empty hfree
  refine wp_inodeNewGet_created hw (fun hcrowded _ _ => ?_) h.sound h.within h.mem h.borrowed h.used
    h.zero hname.length_le htype ?_ ?_ (Or.inl hhint) (fun hlock => ?_) ?_ ?_ ?_
  · rwa [hentries] at hcrowded
  · rw [h.file_eq]
    exact h.whole
  · rw [hentries]
    exact hlimit
  · rw [h.search.locked hlock] at hfree
    exact absurd hfree Set.not_nonempty_empty
  · intro s' hfound hv hsc
    rw [hentries] at hfound
    obtain ⟨hok, htable⟩ := h.visited hv (NodeStays.borrowed (Or.inl (hsc.kept dir)) h.borrowed)
    exact ⟨live, none, rfl, by simp, fun i p hb => NodeStays.borrowed (Or.inl (hsc.kept i)) hb, hok,
      hv.othersStay, hfound, htable⟩
  · intro s' _ hall _ _
    have hempty : s.ibm.freeIids = ∅ := h.search.below.freeIds_eq_empty_of_search hall
    rw [hempty] at hfree
    exact absurd hfree Set.not_nonempty_empty
  · intro iid newip s' hnone hc
    rw [hentries] at hnone
    obtain ⟨hok, hothers, hstep⟩ := h.created hname hnone hc
    refine ⟨insert iid live, some (iid, newip), rfl, fun m hm => ?_, fun i p hb => ?_, hok, hothers,
      hstep⟩
    · cases hm
      exact hc.borrowed
    · refine (hc.node i ?_).borrowed hb
      rintro rfl
      obtain ⟨_, inode, hn, _, hcontent, _⟩ := hb.pointsTo h.sound.stored h.sound.full
      have hmem := h.within i (by simp [inodeOf_of_node hn hcontent])
      exact hc.marked.unused (h.used i hmem)

/-- The rule for a lookup. It stops only without room. -/
theorem wp_getsub (h : s.DirOk w live dir ip) :
    Exec.Wp (inodeGetsub w ip name) (fun iid s' => s'.DirOk w live dir ip ∧
      OthersStay live live dir s s' ∧
      TableStep (s.table dir) (.getsub name iid) (s'.table dir)) (fun _ => ¬s.Roomy 1) s := by
  have hwhole : WholeEntries ((s.spread live).file dir) := by
    rw [h.file_eq]
    exact h.whole
  refine Exec.wp_bind.mpr (wp_dirents_visited hw h.sound h.within h.mem
    (fun hcrowded _ _ => hcrowded) h.borrowed hwhole ?_)
  intro empty s' hv hsc _
  obtain ⟨hok, htable⟩ := h.visited hv (NodeStays.borrowed (Or.inl (hsc.kept dir)) h.borrowed)
  rw [h.entries_eq]
  exact ⟨hok, hv.othersStay, rfl, htable⟩

/-- The rule for the return of an inode that was made. -/
theorem wp_giveBack_dir (h : s.DirOk w live dir ip) (hne : iid ≠ dir) (hb : s.Borrowed iid newip)
    (hun : ∀ n, s.icac.node iid = some n → n.locked = false) :
    Exec.Wp (inodeReturn w newip) (fun _ s' => s'.DirOk w live dir ip ∧
      OthersStay live live dir s s' ∧ s'.table dir = s.table dir) (fun _ => False) s := by
  obtain ⟨n, inode, hn, _, hcontent, _⟩ := hb.pointsTo h.sound.stored h.sound.full
  have hmem : iid ∈ live := h.within iid (by simp [inodeOf_of_node hn hcontent])
  refine wp_inodeReturn_released hw h.sound h.within hmem hb hun fun s' hv _ => ?_
  obtain ⟨hok, htable⟩ := h.visited hv ((hv.node dir (Ne.symm hne)).borrowed h.borrowed)
  exact ⟨hok, hv.othersStay, htable⟩

/-- A creation that returned is one on the table, and all inodes that are held stay held. -/
theorem DirStep.creates {made : Option (ℕ × ℕ)} (h : s.DirOk w live dir ip)
    (hfits : (DirCall.create name type junk made).Fits dir s)
    (hstep : DirStep w ip s (.create name type junk made) s') :
    ∃ live', (∀ m ∈ made, s'.Borrowed m.1 m.2) ∧ (∀ i p, s.Borrowed i p → s'.Borrowed i p) ∧
      s'.DirOk w live' dir ip ∧ OthersStay live live' dir s s' ∧
      TableStep (s.table dir) (.create name type junk made) (s'.table dir) := by
  obtain ⟨hcall, hmade⟩ := hstep
  obtain ⟨hname, htype, hfree, hlimit⟩ := hfits
  obtain ⟨live', made', heq, hmade', hheld, hok, hothers, htable⟩ :=
    (wp_create hw h hname htype hfree hlimit).of_ok hcall
  have hsame : made = made' := by
    cases made with
    | none =>
      cases made' with
      | none => rfl
      | some m' => cases heq
    | some m =>
      cases made' with
      | none => cases heq
      | some m' =>
        have hptr : m.2 = m'.2 := Option.some.inj heq
        obtain ⟨inode, hp⟩ := hmade m rfl
        obtain ⟨_, inode', _, _, _, hp', _⟩ :=
          (hmade' m' rfl).pointsTo hok.sound.stored hok.sound.full
        rw [hptr] at hp
        rw [Prod.ext (hp.iid_unique hok.sound.stored hp') hptr]
  rw [hsame]
  exact ⟨live', hmade', hheld, hok, hothers, htable⟩

/-- A call that returned is one on the table. -/
theorem DirStep.refines (h : s.DirOk w live dir ip) (hfits : c.Fits dir s)
    (hstep : DirStep w ip s c s') :
    ∃ live', s'.DirOk w live' dir ip ∧ OthersStay live live' dir s s' ∧
      TableStep (s.table dir) c (s'.table dir) := by
  cases c with
  | create name type junk made =>
    obtain ⟨live', _, _, hok, hothers, htable⟩ := DirStep.creates hw h hfits hstep
    exact ⟨live', hok, hothers, htable⟩
  | getsub name iid => exact ⟨live, (wp_getsub hw h).of_ok hstep⟩
  | giveBack iid newip =>
    obtain ⟨failed, hcall⟩ := hstep
    exact ⟨live, (wp_giveBack_dir hw h hfits.1 hfits.2.1 hfits.2.2).of_ok hcall⟩

/-- A call that finds room returns. -/
theorem DirCall.returns (h : s.DirOk w live dir ip) (hfits : c.Fits dir s) (hroom : c.Room dir s) :
    c.Returns w ip s := by
  cases c with
  | create name type junk made =>
    obtain ⟨hname, htype, hfree, hlimit⟩ := hfits
    have hwp : Exec.Wp (inodeNewGet w junk ip name type) _ (fun _ => False) s :=
      (wp_create hw h hname htype hfree hlimit).mono (fun _ _ hpost => hpost)
        fun _ hcrowded => hcrowded hroom
    obtain ⟨result, s', hcall, _, made', rfl, hmade, _, hok, _⟩ := hwp.returns
    refine ⟨made', s', hcall, fun m hm => ?_⟩
    obtain ⟨_, inode, _, _, _, hp, _⟩ := (hmade m hm).pointsTo hok.sound.stored hok.sound.full
    exact ⟨inode, hp⟩
  | getsub name iid =>
    have hwp : Exec.Wp (inodeGetsub w ip name) _ (fun _ => False) s :=
      (wp_getsub hw h).mono (fun _ _ hpost => hpost) fun _ hcrowded => hcrowded hroom
    obtain ⟨result, s', hcall, _⟩ := hwp.returns
    exact ⟨result, s', hcall⟩
  | giveBack iid newip =>
    obtain ⟨failed, s', hcall, _⟩ := (wp_giveBack_dir hw h hfits.1 hfits.2.1 hfits.2.2).returns
    exact ⟨s', failed, hcall⟩

/-- In every run of creations and lookups that find room a directory is a table without a name that
is there twice, and a finite map from names to inode numbers; the other files stay as they are, and
every further call that finds room returns. -/
theorem directory_refines (h : s.DirOk w live dir ip) (hrun : Run (DirStep w ip) s cs s')
    (hfits : Always (DirStep w ip) (fun s c _ => c.Fits dir s ∧ c.Room dir s) s cs) :
    ∃ live', s'.DirOk w live' dir ip ∧ OthersStay live live' dir s s' ∧
      Run TableStep (s.table dir) cs (s'.table dir) ∧
      Run MapStep (nameMap (s.entries dir)) cs (nameMap (s'.entries dir)) ∧
      ∀ c : DirCall, c.Fits dir s' → c.Room dir s' → c.Returns w ip s' := by
  induction hrun generalizing live with
  | nil s =>
    exact ⟨live, h, .refl live dir s, .nil _, .nil _,
      fun c hfits hroom => DirCall.returns hw h hfits hroom⟩
  | cons hstep _ ih =>
    have hhead := (hfits.head hstep).1
    obtain ⟨live₁, h₁, hothers₁, htable₁⟩ := hstep.refines hw h hhead
    obtain ⟨live', h', hothers, htable, hmap, hreturns⟩ := ih h₁ (hfits.tail hstep)
    exact ⟨live', h', hothers₁.trans hothers, .cons htable₁ htable,
      .cons (htable₁.mapStep hhead) hmap, hreturns⟩

end

/-! ## The empty volume -/

/-- Only the root is in use. -/
theorem freshVolume_used : freshVolume.ibm.used = {0} := by
  have hmark : freshVolume.ibm.used = insert (0 * 64 + (63 - 63)) Sys.blank.ibm.used :=
    used_markWord (Nat.zero_lt_succ _) (Nat.lt_succ_self _) rfl
  have hblank : Sys.blank.ibm.used = ∅ := by
    ext id
    simp [InodeBitmap.used, idUsed, word64, Sys.blank, Bytes.getLE_zero]
  rw [hmark, hblank, insert_empty_eq]

/-- The number 1 is free in the fresh volume. -/
theorem one_mem_freeIids_freshVolume : 1 ∈ freshVolume.ibm.freeIids := by
  refine ⟨by decide, ?_⟩
  rw [freshVolume_used]
  decide

/-- A search from the first word finds the numbers 8 to 11 when they are not used. -/
theorem hasBlocks_of_unused {s : Sys} (hhint : s.dbmFirstEmptyWord = 0)
    (h : ([8, 9, 10, 11].all fun did =>
      !idUsed (s.spot (bitmapDid2Bid did)).data (did % 32768)) = true) : s.HasBlocks 4 := by
  refine ⟨{8, 9, 10, 11}, by decide, fun did hdid => ?_⟩
  have hmem : did ∈ [8, 9, 10, 11] := by simpa using hdid
  refine ⟨by simp [hhint], ?_, fun hused => ?_⟩
  · have hcases : did = 8 ∨ did = 9 ∨ did = 10 ∨ did = 11 := by simpa using hmem
    omega
  · have hfalse := List.all_eq_true.mp h did hmem
    rw [Bool.not_eq_true'] at hfalse
    exact absurd hused.2 (by simp [hfalse])

/-- All data blocks of the fresh volume are free. -/
theorem freshVolume_hasBlocks : freshVolume.HasBlocks 4 :=
  hasBlocks_of_unused rfl (by decide)

/-- The root of the fresh volume is an empty directory. -/
theorem freshVolume_dirOk {ip : ℕ} {s : Sys}
    (hcall : igetFromCache World.plain 0 false freshVolume = .ok (some ip, s)) :
    s.DirOk World.plain {0} 0 ip ∧ s.entries 0 = [] ∧ s.ibm = freshVolume.ibm ∧ s.HasBlocks 4 := by
  have hmem : 0 ∈ ({0} : Finset ℕ) := Finset.mem_singleton_self 0
  have hwp : Exec.Wp (igetFromCache World.plain 0 false) (fun r s => ∃ ip, r = some ip ∧
      Visited World.plain {0} 0 freshVolume s ∧ s.Borrowed 0 ip) (fun _ => True) freshVolume :=
    wp_igetFromCache_visited World.plain_reliable freshVolume_sound (fun _ h => absurd rfl h) hmem
      (fun _ _ _ => trivial) (fun _ _ hn => by cases hn) fun ip s hv hb _ => ⟨ip, rfl, hv, hb⟩
  obtain ⟨_, heq, hv, hb⟩ := hwp.of_ok hcall
  cases heq
  obtain ⟨n, inode, hn, _, hcontent, _⟩ := hb.pointsTo hv.sound.stored hv.sound.full
  have hfile : s.file 0 = [] := by
    rw [← file_spread (inodeOf_of_node hn hcontent) hmem, hv.files.file 0 hmem]
    apply List.eq_nil_of_length_eq_zero
    rw [length_file, fileSize_spread, if_pos hmem, freshVolume_record.2.1]
  have hentries : s.entries 0 = [] := by rw [Sys.entries, hfile]; rfl
  have hused : 0 ∈ s.ibm.used := by
    rw [hv.ibm_eq, freshVolume_used]
    exact Set.mem_singleton 0
  refine ⟨⟨hv.sound, hv.within, hmem, hb, fun i hi => ?_, hused, ?_, ?_, ?_⟩, hentries, hv.ibm_eq,
    freshVolume_hasBlocks.mono hv.openDids⟩
  · rw [Finset.mem_singleton.mp hi]
    exact hused
  · rw [hv.ibm_eq]
    exact .of_hint rfl rfl
  · rw [hfile]
    exact dvd_zero _
  · rw [hentries]
    exact List.nodup_nil

/-- A file is made in the root of the fresh volume and looked up. -/
theorem directory_refines_fresh : ∃ s ip made iid s', s.DirOk World.plain {0} 0 ip ∧
    s.entries 0 = [] ∧
    Run (DirStep World.plain ip) s
      [.create [97#8] inodeTpFile ⟨none, 0⟩ made, .getsub [97#8] iid] s' ∧
    ∃ live', s'.DirOk World.plain live' 0 ip ∧ OthersStay {0} live' 0 s s' ∧
      Run TableStep (s.table 0) [.create [97#8] inodeTpFile ⟨none, 0⟩ made, .getsub [97#8] iid]
        (s'.table 0) ∧
      Run MapStep (nameMap (s.entries 0))
        [.create [97#8] inodeTpFile ⟨none, 0⟩ made, .getsub [97#8] iid]
        (nameMap (s'.entries 0)) ∧
      ∀ c : DirCall, c.Fits 0 s' → c.Room 0 s' → c.Returns World.plain ip s' := by
  obtain ⟨⟨r, s⟩, hget, hcheck⟩ :=
    exists_of_check (x := igetFromCache World.plain 0 false freshVolume)
    (p := fun r => decide (r.2.icac.nodes.length < queueMaxLen ∧
      r.2.bcac.nodes.length + 1 < queueMaxLen) &&
      r.1.any fun ip => (inodeNewGet World.plain ⟨none, 0⟩ ip [97#8] inodeTpFile r.2).toOption.any
        fun r => decide (r.2.bcac.nodes.length + 1 < queueMaxLen) &&
          (inodeGetsub World.plain ip [97#8] r.2).toOption.any fun _ => true) (by decide +kernel)
  simp only [Bool.and_eq_true, decide_eq_true_eq] at hcheck
  obtain ⟨⟨hicac, hbcac⟩, hcheck⟩ := hcheck
  obtain ⟨ip, rfl, hcheck⟩ := (Option.any_eq_true _ _).mp hcheck
  obtain ⟨⟨result, s₁⟩, hcreate, hcheck⟩ := exists_of_check hcheck
  simp only [Bool.and_eq_true, decide_eq_true_eq] at hcheck
  obtain ⟨⟨iid, s₂⟩, hgetsub, _⟩ := exists_of_check hcheck.2
  obtain ⟨hok, hentries, hibm, hblocks⟩ := freshVolume_dirOk hget
  have hroomy := hok.sound.stored.ok.keyed.roomy_of_length hbcac
  have hname : ValidName [97#8] := ⟨by decide, by decide, by decide⟩
  have hfree : s.ibm.freeIids.Nonempty := by
    rw [hibm]
    exact ⟨1, one_mem_freeIids_freshVolume⟩
  have hlimit : direntSz * (Table.place direntKey (s.entries 0) + 1) < 2 ^ 32 - 1 := by
    rw [hentries]
    decide
  obtain ⟨_, made, heq, hmade, _, hok₁, _⟩ :=
    (wp_create World.plain_reliable hok hname (by decide) hfree hlimit).of_ok hcreate
  have hstep : DirStep World.plain ip s (.create [97#8] inodeTpFile ⟨none, 0⟩ made) s₁ := by
    refine ⟨heq ▸ hcreate, fun m hm => ?_⟩
    obtain ⟨_, inode, _, _, _, hp, _⟩ := (hmade m hm).pointsTo hok₁.sound.stored hok₁.sound.full
    exact ⟨inode, hp⟩
  have hrun : Run (DirStep World.plain ip) s
    [.create [97#8] inodeTpFile ⟨none, 0⟩ made, .getsub [97#8] iid] s₂ :=
    .cons hstep (.cons hgetsub (.nil s₂))
  refine ⟨s, ip, made, iid, s₂, hok, hentries, hrun,
    directory_refines World.plain_reliable hok hrun ?_⟩
  have hroom : s.RoomToCreate 0 (Table.place direntKey (s.entries 0)) :=
    ⟨hok.sound.stored.icac.roomy_of_length hicac, hroomy, fun _ => hblocks.supplied _ _⟩
  refine Always.cons_iff.mpr fun s₁' hs₁' =>
    ⟨⟨⟨hname, by decide, hfree, hlimit⟩, hroomy, fun _ => hroom⟩, ?_⟩
  obtain rfl : s₁ = s₁' := by
    have hsame := hstep.1.symm.trans hs₁'.1
    injection hsame with hsame
    exact congrArg Prod.snd hsame
  refine Always.cons_iff.mpr fun _ _ =>
    ⟨⟨hname, hok₁.sound.stored.ok.keyed.roomy_of_length hcheck.1⟩, .nil _⟩

/-! ## Creations that are kept -/

/-- The names `aa`, `ba`, .., `za`, `ab` and so on. -/
def keptName (k : ℕ) : CStr := [BitVec.ofNat 8 (97 + k % 26), BitVec.ofNat 8 (97 + k / 26)]

/-- Creations of files under the names from `k` on, none of which is given back. -/
def keptCreations : ℕ → List (ℕ × ℕ) → List DirCall
  | _, [] => []
  | k, m :: made =>
    .create (keptName k) inodeTpFile ⟨none, 0⟩ (some m) :: keptCreations (k + 1) made

/-- The root after `k` creations that are kept: all inodes in use are held. -/
structure Sys.Crowded (ip k : ℕ) (s : Sys) : Prop where
  /-- The root is a table. -/
  ok : ∃ live, s.DirOk World.plain live 0 ip
  /-- The inodes in use are held. -/
  held : ∃ ids : Finset ℕ, s.ibm.used = ids ∧ ids.card = k + 1 ∧ ∀ i ∈ ids, ∃ p, s.Borrowed i p
  /-- The entries. -/
  few : (s.entries 0).length ≤ k
  /-- The names from `k` on are not there. -/
  fresh : ∀ j, k ≤ j → j < 676 → Table.lookup direntKey (keptName j) (s.entries 0) = none

/-- The code of a letter. -/
theorem toNat_letter {m : ℕ} (hm : m < 26) : (BitVec.ofNat 8 (97 + m)).toNat = 97 + m := by
  rw [BitVec.toNat_ofNat]
  omega

/-- The kept names are different. -/
theorem keptName_injective {j k : ℕ} (hj : j < 676) (hk : k < 676) (h : keptName j = keptName k) :
    j = k := by
  obtain ⟨hlow, hhigh⟩ := List.cons_eq_cons.mp h
  have hlow := congrArg BitVec.toNat hlow
  have hhigh := congrArg BitVec.toNat (List.cons_eq_cons.mp hhigh).1
  rw [toNat_letter (by omega), toNat_letter (by omega)] at hlow hhigh
  omega

/-- The kept names are valid. -/
theorem validName_keptName {k : ℕ} (hk : k < 676) : ValidName (keptName k) := by
  refine ⟨by simp [keptName], by simp [keptName, dirnameMaxLen], fun c hc hzero => ?_⟩
  have hnat := congrArg BitVec.toNat hzero
  rcases List.mem_cons.mp hc with rfl | hc
  · rw [toNat_letter (by omega)] at hnat
    simp at hnat
  · rw [List.mem_singleton.mp hc, toNat_letter (by omega)] at hnat
    simp at hnat

section

variable {s s' : Sys} {ip k : ℕ} {made : Option (ℕ × ℕ)}

/-- The next creation is one with a fresh name, and a number is free. -/
theorem Sys.Crowded.fits (h : s.Crowded ip k) (hk : k < 512) :
    (DirCall.create (keptName k) inodeTpFile ⟨none, 0⟩ made).Fits 0 s := by
  obtain ⟨ids, hused, hcard, _⟩ := h.held
  have hplace : Table.place direntKey (s.entries 0) ≤ (s.entries 0).length := Table.place_le
  have hfew := h.few
  refine ⟨validName_keptName (by omega), by decide, ?_, ?_⟩
  · obtain ⟨i, hi, hnot⟩ : ∃ i ∈ Finset.range 32768, i ∉ ids :=
      Finset.exists_mem_notMem_of_card_lt_card (by rw [Finset.card_range]; omega)
    refine ⟨i, Finset.mem_range.mp hi, ?_⟩
    rw [hused]
    exact hnot
  · simp only [direntSz]
    omega

/-- One more creation. -/
theorem Sys.Crowded.step (h : s.Crowded ip k) (hk : k < 512)
    (hstep : DirStep World.plain ip s (.create (keptName k) inodeTpFile ⟨none, 0⟩ made) s') :
    s'.Crowded ip (k + 1) ∧ made.isSome = true := by
  obtain ⟨live, hok⟩ := h.ok
  obtain ⟨live', hmade, hheld, hok', _, htable⟩ :=
    DirStep.creates World.plain_reliable hok (h.fits hk) hstep
  cases made with
  | none => exact absurd (h.fresh k le_rfl (by omega)) htable.1
  | some m =>
    obtain ⟨iid, newip⟩ := m
    obtain ⟨hfree, hnew, hpos, hlt, heq⟩ := htable
    have hfree : Table.lookup direntKey (keptName k) (s.entries 0) = none := hfree
    have hentries : s'.entries 0 = Table.insert direntKey (dirent iid (keptName k)) (s.entries 0) :=
      congrArg Prod.fst heq
    have hused : s'.ibm.used = insert iid s.ibm.used := congrArg Prod.snd heq
    obtain ⟨ids, hids, hcard, hall⟩ := h.held
    have hname := validName_keptName (k := k) (by omega)
    have hkey := direntKey_dirent hpos (hlt.trans (by decide)) hname.length_le hname.nonzero
    have hnotMem : iid ∉ ids := by
      intro hmem
      refine hnew ?_
      change iid ∈ s.ibm.used
      rw [hids]
      exact hmem
    refine ⟨⟨⟨live', hok'⟩, ⟨insert iid ids, ?_, ?_, fun i hi => ?_⟩, ?_, fun j hj hlt' => ?_⟩, rfl⟩
    · rw [hused, hids, Finset.coe_insert]
    · rw [Finset.card_insert_of_notMem hnotMem, hcard]
    · rcases Finset.mem_insert.mp hi with rfl | hi
      · exact ⟨newip, hmade _ rfl⟩
      · obtain ⟨p, hp⟩ := hall i hi
        exact ⟨p, hheld i p hp⟩
    · have hplace : Table.place direntKey (s.entries 0) ≤ (s.entries 0).length := Table.place_le
      have hfew := h.few
      rw [hentries, Table.length_insert]
      omega
    · rw [hentries, Table.lookup_insert hkey hfree, if_neg fun hsame => ?_]
      · exact h.fresh j (by omega) hlt'
      · have := keptName_injective hlt' (by omega) hsame
        omega

/-- When creations are kept, one of the next does not return, at the latest the one that would hold
more inodes than the inode cache can. -/
theorem Sys.Crowded.stops {n : ℕ} (hn : k + n = 512) (h : s.Crowded ip k) :
    ∃ made s', made.length < n ∧ Run (DirStep World.plain ip) s (keptCreations k made) s' ∧
    Always (DirStep World.plain ip) (fun s c _ => c.Fits 0 s) s (keptCreations k made) ∧
    s'.Crowded ip (k + made.length) ∧
    ¬(DirCall.create (keptName (k + made.length)) inodeTpFile ⟨none, 0⟩ none).Returns World.plain ip
      s' := by
  induction n generalizing k s with
  | zero =>
    -- More inodes would be held than the two queues can link.
    obtain ⟨live, hok⟩ := h.ok
    obtain ⟨ids, _, hcard, hall⟩ := h.held
    have hle := card_le_of_borrowed hok.sound.stored.icac hall
    rw [hcard] at hle
    simp only [queueMaxLen] at hle
    omega
  | succ n ih =>
    by_cases hreturns :
        (DirCall.create (keptName k) inodeTpFile ⟨none, 0⟩ none).Returns World.plain ip s
    · obtain ⟨made, s₁, hstep⟩ := hreturns
      obtain ⟨hcrowded, hsome⟩ := h.step (by omega) hstep
      obtain ⟨m, rfl⟩ := Option.isSome_iff_exists.mp hsome
      obtain ⟨made, s', hlen, hrun, hfits, hend, hstop⟩ := ih (by omega) hcrowded
      have hsum : k + (made.length + 1) = k + 1 + made.length := by omega
      refine ⟨m :: made, s', Nat.succ_lt_succ hlen, .cons hstep hrun,
        Always.cons_iff.mpr fun s₂ hstep₂ => ⟨h.fits (by omega), ?_⟩, ?_, ?_⟩
      · have hsame : s₁ = s₂ := congrArg Prod.snd (Except.ok.inj (hstep.1.symm.trans hstep₂.1))
        rw [← hsame]
        exact hfits
      · rw [List.length_cons, hsum]
        exact hend
      · rw [List.length_cons, hsum]
        exact hstop
    · exact ⟨[], s, Nat.succ_pos n, .nil s, .nil s, h, hreturns⟩

end

/-- Files are made in the root of the fresh volume and kept, until a creation with a free number
does not return. -/
theorem kept_creation_stops : ∃ s ip made s', s.DirOk World.plain {0} 0 ip ∧ s.entries 0 = [] ∧
    made.length < 512 ∧ Run (DirStep World.plain ip) s (keptCreations 0 made) s' ∧
    Always (DirStep World.plain ip) (fun s c _ => c.Fits 0 s) s (keptCreations 0 made) ∧
    (DirCall.create (keptName made.length) inodeTpFile ⟨none, 0⟩ none).Fits 0 s' ∧
    ¬(DirCall.create (keptName made.length) inodeTpFile ⟨none, 0⟩ none).Returns World.plain ip
      s' := by
  obtain ⟨⟨r, s⟩, hget, hsome⟩ :=
    exists_of_check (x := igetFromCache World.plain 0 false freshVolume)
    (p := fun r => r.1.isSome) (by decide +kernel)
  obtain ⟨ip, rfl⟩ := Option.isSome_iff_exists.mp hsome
  obtain ⟨hok, hentries, hibm, _⟩ := freshVolume_dirOk hget
  have hcrowded : s.Crowded ip 0 := by
    refine ⟨⟨_, hok⟩, ⟨{0}, ?_, rfl,
      fun i hi => ?_⟩, by rw [hentries]; rfl, fun _ _ _ => by rw [hentries]; rfl⟩
    · rw [hibm, freshVolume_used, Finset.coe_singleton]
    · rw [Finset.mem_singleton.mp hi]
      exact ⟨ip, hok.borrowed⟩
  obtain ⟨made, s', hlen, hrun, hfits, hend, hstop⟩ := hcrowded.stops (Nat.zero_add 512)
  rw [Nat.zero_add] at hend hstop
  exact ⟨s, ip, made, s', hok, hentries, hlen, hrun, hfits, hend.fits hlen, hstop⟩

end Efs
