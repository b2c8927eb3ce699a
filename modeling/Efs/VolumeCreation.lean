import Efs.FailedCreation
import Efs.InodeLoans
import Mathlib.Algebra.Order.BigOperators.Group.Finset

/-!
# Creations on the volume

What `inode_new_get` does to the files of the inodes in use when it succeeds: a new inode
without content, and one entry for it in the directory.
-/

namespace Efs

open Library

/-- The content of a directory after an entry was made for the inode `iid`. -/
def withEntry (a : List Byte) (iid : ℕ) (name : CStr) : List Byte :=
  overwrite a (direntSz * Table.place direntKey (direntsOf a))
    (firstBytes (dirent iid name).get direntSz)

/-- `inode_new_get` made the inode `iid` with an entry in the directory `dir`, and gave the
pointer `ip` to it. -/
structure Created (w : World) (live : Finset ℕ) (dir iid ip : ℕ) (name : CStr) (type : ℕ)
    (s s' : Sys) : Prop where
  /-- The number was free. -/
  marked : IbmMarked s.ibm iid s'.ibm
  /-- The inodes in use are sound. -/
  sound : s'.Sound w (insert iid live)
  /-- Only inodes in use are cached. -/
  within : s'.Within (insert iid live)
  /-- The directory has the entry, and the new inode has no content. -/
  file : (s'.spread (insert iid live)).file =
    Function.update (s.spread live).file dir (withEntry ((s.spread live).file dir) iid name)
  /-- The other types are the same. -/
  types : ∀ i ∈ live, (s'.record i).type = (s.record i).type
  /-- The type of the new inode. -/
  type : (s'.record iid).type = type
  /-- The root stays. -/
  root : s'.sb.rootinode = s.sb.rootinode
  /-- The other nodes stay. -/
  node : ∀ i ≠ iid, NodeStays s s' i
  /-- The new inode is held by the caller, and by nobody else. -/
  loan : s'.loanTable iid = some (ip, 1)
  /-- The new inode is not locked. -/
  unlocked : ∀ n, s'.icac.node iid = some n → n.locked = false
  /-- Of the blocks only that of the new inode may be held and was not before. -/
  held : HoldsWithin {inodeIid2Bid iid} s s'

/-- There is room for the entry `n` of the directory `dir` and for a new inode: in the inode cache,
in the block cache, and in the bitmap for the blocks that the entry needs. -/
structure Sys.RoomToCreate (dir n : ℕ) (s : Sys) : Prop where
  /-- Room in the inode cache. -/
  icac : s.icac.Roomy 0
  /-- Room for the entry. -/
  entry : s.RoomFor true (wayTo (indexPlace dir (direntSz * n / blkSz)))

section

variable {w : World} {E : Halt → Prop} {live : Finset ℕ} {s s₁ s' : Sys} {i ip iid type : ℕ}
  {inode : Inode} {g : Node Inode → Node Inode} {n : Node Inode} {name : CStr} {junk : Leftover}

/-! ## Room -/

/-- At most four places are on the way to a part. -/
theorem exists_wayTo (i bidx : ℕ) : ∃ holes : Finset (Place RootSlot), holes.card ≤ 4 ∧
    ∀ q ∈ wayTo (indexPlace i bidx), q ∈ holes := by
  classical
  refine ⟨((indexPlace i bidx).2.tails.map fun ks => ((indexPlace i bidx).1, ks)).toFinset, ?_,
    fun q hq => ?_⟩
  · have hle := List.toFinset_card_le ((indexPlace i bidx).2.tails.map fun ks =>
      ((indexPlace i bidx).1, ks))
    have hdepth : (indexPlace i bidx).2.length ≤ 3 := isLeaf_indexPlace.trans_le (height_le _)
    rw [List.length_map, List.length_tails] at hle
    omega
  · refine List.mem_toFinset.mpr (List.mem_map.mpr ⟨q.2, (List.mem_tails _ _).mpr hq.2, ?_⟩)
    rw [← hq.1]

/-- Four numbers are enough for the places on the way to a part. -/
theorem Sys.HasBlocks.supplied (h : s.HasBlocks 4) (i bidx : ℕ) :
    s.Supplied (wayTo (indexPlace i bidx)) := by
  obtain ⟨dids, hcard, hopen⟩ := h
  obtain ⟨holes, hfew, hholes⟩ := exists_wayTo i bidx
  exact ⟨holes, dids, hfew.trans hcard, fun q hq _ => hholes q hq, fun did hdid => hopen hdid⟩

/-- Four numbers for each part are enough for a range of a file. -/
theorem Sys.HasBlocks.supplied_waysTo {off size : ℕ} (h : s.HasBlocks (4 * (size / blkSz + 2)))
    (i : ℕ) : s.Supplied (waysTo i off size) := by
  classical
  obtain ⟨dids, hcard, hopen⟩ := h
  choose holes hfew hholes using exists_wayTo i
  refine ⟨(Finset.Ico (off / blkSz) (off / blkSz + (size / blkSz + 2))).biUnion holes, dids, ?_,
    fun q hq _ => ?_, fun did hdid => hopen hdid⟩
  · refine (Finset.card_biUnion_le_card_mul _ holes 4 fun j _ => hfew j).trans ?_
    rw [Nat.card_Ico]
    omega
  · obtain ⟨j, hle, hlt, hway⟩ := hq
    refine Finset.mem_biUnion.mpr ⟨j, Finset.mem_Ico.mpr ⟨hle, ?_⟩, hholes j q hway⟩
    simp only [blkSz] at hle hlt ⊢
    omega

/-- The entry of a directory is in one part. -/
theorem Sys.RoomToCreate.roomFor {dir n : ℕ} (h : s.RoomToCreate dir n) {c : TransferCall}
    (hdir : c.iid = dir) (hoff : c.off = direntSz * n) (hsize : c.size = direntSz) :
    s.RoomFor c.write c.places := by
  refine ⟨h.entry.roomy, fun _ => (h.entry.supplied rfl).mono ?_⟩
  rintro q ⟨_, _, i, hle, hlt, hq⟩
  have hi : i = direntSz * n / blkSz := by
    rw [hoff] at hle hlt
    rw [hsize] at hlt
    simp only [direntSz, blkSz] at hle hlt ⊢
    omega
  rwa [hi, hdir] at hq

/-- Four free blocks are enough for any entry. -/
theorem Sys.HasBlocks.roomToCreate (h : s.HasBlocks 4) (hicac : s.icac.Roomy 0) (hbcac : s.Roomy 1)
    (dir n : ℕ) : s.RoomToCreate dir n :=
  ⟨hicac, hbcac, fun _ => h.supplied dir _⟩

/-- A scan leaves the room for a creation. -/
theorem Scanned.roomToCreate {dir n : ℕ} (hsc : Scanned w s s') (hroom : s.RoomToCreate dir n) :
    s'.RoomToCreate dir n :=
  ⟨hroom.icac.of_stays fun i => Or.inl (hsc.kept i),
    hsc.widens.roomFor (Set.empty_subset _) hroom.entry⟩

/-! ## The numbers and the keys are aside -/

/-- Another inode bitmap and other random numbers are nothing to the files. -/
theorem Sys.Sound.aside (h : s.Sound w live) (b : InodeBitmap) (k : ℕ) :
    ({ s with ibm := b, keys := k } : Sys).Sound w live :=
  ⟨⟨h.stored.icac, ⟨h.stored.ok.keyed, h.stored.ok.holds⟩, h.stored.metaInv,
    fun i n inode hn hcontent => by
      obtain ⟨hiid, hlt, hfits, hkept, hdip, hclean⟩ := h.stored.backs i n inode hn hcontent
      exact ⟨hiid, hlt, hfits, hkept, hdip, hclean⟩, h.stored.refs⟩,
    h.full, h.lt, h.disjoint, h.used, h.good, h.unused, h.hole, h.parts⟩

/-- A store into an inode. -/
theorem InodeChanges.pointsTo_mapInode {f : Inode → Inode}
    (hc : InodeChanges iid (Node.mapInode f) s s')
    (hp : s.PointsTo ip iid inode) : s'.PointsTo ip iid (f inode) := by
  refine hc.pointsTo hp (f inode) fun m hm => ⟨rfl, ?_⟩
  simp only [Node.mapInode, hm, Option.map_some]

/-- The count of keys does not matter to a change of an inode. -/
theorem InodeChanges.keys (hc : InodeChanges iid g s s') (k : ℕ) :
    InodeChanges iid g { s with keys := k } { s' with keys := k } := by
  refine ⟨hc.keyed, hc.node, ?_⟩
  rw [hc.same]

/-- The rule for `key128_gen`. -/
theorem wp_key128Gen {Q : Key128 → Sys → Prop} (hQ : ∀ key, Q key { s with keys := s.keys + 1 }) :
    Exec.Wp (key128Gen w) Q E s := by
  simp only [key128Gen, Exec.wp_bind, Exec.wp_read, Exec.wp_update, Exec.wp_pure]
  exact hQ _

/-! ## The new inode -/

/-- An inode that was just made. -/
def Inode.made (inode : Inode) (type : ℕ) (iv key : Key128) : Inode :=
  { inode with
    type, size := 0, bid := fun _ => 0, aesIv := iv, aesKey := key, hash := fun _ => Bytes.zero }

/-- A new inode was filled in and marked dirty. -/
theorem Sys.Sound.made (hw : w.Reliable) (h : s.Sound w live) (hnew : iid ∉ live)
    (hn : s.icac.node iid = some n) (hcontent : n.content = some inode) (iv key : Key128)
    (htype : type < 2 ^ 16) (hc : InodeChanges iid g s s')
    (hg : (g n).content = some (inode.made type iv key) ∧ (g n).deleted = n.deleted ∧
      (g n).dirty = true) :
    s'.Sound w (insert iid live) ∧ (∀ i ∈ live, s'.record i = s.record i) ∧
      s'.record iid = (inode.made type iv key).record ∧
      (s'.spread (insert iid live)).file = (s.spread live).file := by
  have hfits : (inode.made type iv key).Fits :=
    ⟨htype, (by decide : 0 < 2 ^ 32), fun _ => (by decide : 0 < 2 ^ 32)⟩
  obtain ⟨hstored, hfull, hrecord⟩ := h.stored.set h.full hn hcontent hfits rfl rfl hc hg
  have hlt := (h.stored.backs iid n inode hn hcontent).iid_lt
  have hstays : ∀ b, SpotStays w s s' b := fun b => Or.inl (hc.spot_eq b)
  have hold : ∀ i ∈ live, s'.record i = s.record i := by
    intro i hi
    rw [hrecord, Function.update_of_ne]
    rintro rfl
    exact hnew hi
  have hself : s'.record iid = (inode.made type iv key).record := by
    rw [hrecord, Function.update_self]
  have halone : ∀ i ∈ live, LeftAlone w live s s' i :=
    fun i hi => ⟨hold i hi, fun _ _ _ _ => hstays _⟩
  refine ⟨?_, hold, hself, funext fun i => ?_⟩
  · apply h.of_leftAlone hw hstored hfull (Finset.subset_insert iid live) halone
    · intro i hi hnot
      obtain rfl := (Finset.mem_insert.mp hi).resolve_right hnot
      rw [hself]
      exact ⟨hlt, rfl, fun _ => rfl⟩
    · exact fun b _ => hstays b
  · by_cases hi : i ∈ live
    · exact (halone i hi).file_eq h hi (Finset.mem_insert_of_mem hi)
    · rw [file_eq_nil hi, Sys.file, fileSize_spread]
      split_ifs with hmem
      · obtain rfl := (Finset.mem_insert.mp hmem).resolve_right hi
        rw [hself]
        rfl
      · rfl

/-- The rule for the part of `inode_new_get` that fills in the new inode. -/
theorem wp_made (hw : w.Reliable) (h : s.Sound w live) (hnew : iid ∉ live) (htype : type < 2 ^ 16)
    (hb : s.Borrowed iid ip) (hun : ∀ n, s.icac.node iid = some n → n.locked = false)
    {Q : Option ℕ → Sys → Prop}
    (hQ : ∀ s', s'.Sound w (insert iid live) → (∀ i ∈ live, s'.record i = s.record i) →
      (s'.record iid).type = type → (s'.spread (insert iid live)).file = (s.spread live).file →
      s'.ibm = s.ibm → s'.sb = s.sb → (∀ i ≠ iid, s'.icac.node i = s.icac.node i) →
      s'.loanTable iid = s.loanTable iid → (∀ n, s'.icac.node iid = some n → n.locked = false) →
      HoldsWithin ∅ s s' → Q (some ip) s') :
    Exec.Wp (do
      let _ ← inodeLock w ip
      inodeStore w ip fun inode =>
        { inode with iid, type, size := 0, bid := fun _ => 0, hash := fun _ => Bytes.zero }
      let iv ← key128Gen w
      inodeStore w ip fun inode => { inode with aesIv := iv }
      let key ← key128Gen w
      inodeStore w ip fun inode => { inode with aesKey := key }
      let _ ← inodeMakeDirty w ip
      let _ ← inodeUnlock w ip
      return some ip) Q E s := by
  obtain ⟨n, inode, hn, href, hcontent, hp, hiid⟩ := hb.pointsTo h.stored h.full
  refine Exec.wp_bind.mpr (wp_inodeLock h.stored.icac hp hiid hun fun s₁ h₁ => ?_)
  have hp₁ := h₁.pointsTo hp inode fun _ hm => ⟨rfl, hm⟩
  refine Exec.wp_bind.mpr (wp_inodeStore h₁.keyed hp₁ fun s₂ h₂ => ?_)
  have hp₂ := h₂.pointsTo_mapInode hp₁
  refine Exec.wp_bind.mpr (wp_key128Gen fun iv => Exec.wp_bind.mpr ?_)
  have h₂' := (h₁.trans h₂).keys (s₂.keys + 1)
  refine wp_inodeStore (s := { s₂ with keys := s₂.keys + 1 }) h₂.keyed hp₂ fun s₃ h₃ => ?_
  have hp₃ := h₃.pointsTo_mapInode hp₂
  refine Exec.wp_bind.mpr (wp_key128Gen fun key => Exec.wp_bind.mpr ?_)
  have h₃' := (h₂'.trans h₃).keys (s₃.keys + 1)
  refine wp_inodeStore (s := { s₃ with keys := s₃.keys + 1 }) h₃.keyed hp₃ fun s₄ h₄ => ?_
  have hp₄ := h₄.pointsTo_mapInode hp₃
  refine Exec.wp_bind.mpr (wp_inodeMakeDirty h₄.keyed hp₄ rfl fun s₅ h₅ => ?_)
  have hp₅ := h₅.pointsTo hp₄ _ fun _ hm => ⟨rfl, hm⟩
  refine Exec.wp_bind.mpr (wp_inodeUnlock h₅.keyed hp₅ rfl fun s₆ h₆ => ?_)
  have hc := ((h₃'.trans h₄).trans h₅).trans h₆
  have hmade := (h.aside s.ibm (s₃.keys + 1)).made hw hnew hn hcontent iv key htype hc
    ⟨?_, rfl, rfl⟩
  rotate_left
  · simp only [Function.comp_apply, Node.mapInode, hcontent, Option.map_some, Inode.made, ← hiid]
  obtain ⟨hsound, hold, hself, hfile⟩ := hmade
  have hnode := hc.node_self hn
  refine hQ s₆ hsound hold ?_ hfile ?_ ?_ (fun i hi => hc.node_of_ne hi) ?_ (fun m hm => ?_) ?_
  · rw [hself]
    rfl
  · rw [hc.same]
  · rw [hc.same]
  · rw [Sys.loanTable, Sys.loanTable, hnode, hn]
    rfl
  · rw [hnode] at hm
    cases hm
    rfl
  · exact HoldsWithin.of_refs fun b => congrArg Spot.refs (hc.spot_eq b)

/-! ## `inode_new_get` -/

/-- An inode that is not in use is not cached. -/
theorem Sys.Sound.node_eq_none (h : s.Sound w live) (hin : s.Within live) (hnot : iid ∉ live) :
    s.icac.node iid = none := by
  cases hn : s.icac.node iid with
  | none => rfl
  | some n =>
    obtain ⟨inode, hcontent⟩ := Option.ne_none_iff_exists'.mp (h.full iid n hn)
    exact absurd (hin iid (by simp [inodeOf_of_node hn hcontent])) hnot

/-- The same files have the same bytes. -/
theorem SameFiles.file_eq (h : SameFiles live s s') :
    (s'.spread live).file = (s.spread live).file := by
  funext i
  by_cases hi : i ∈ live
  · exact h.file i hi
  · rw [file_eq_nil hi, file_eq_nil hi]

/-- The rule for the part of `inode_new_get` after it has a free number. -/
theorem wp_inodeNewGet_marked (hw : w.Reliable)
    {dir : ℕ} (hE : ¬s.RoomToCreate dir (Table.place direntKey ((s.spread live).entries dir)) →
      ∀ e : Halt, e.NoRoom → E e) (h : s.Sound w live) (hin : s.Within live) (hmem : dir ∈ live)
        (hb : s.Borrowed dir ip)
    (hnew : iid ∉ live) (hlt : iid < 32768) (htype : type < 2 ^ 16)
    (hlimit : direntSz * (Table.place direntKey ((s.spread live).entries dir) + 1) < 2 ^ 32 - 1)
    {Q : Option ℕ → Sys → Prop}
    (hQ : ∀ newip s', s'.Sound w (insert iid live) → s'.Within (insert iid live) →
      (s'.spread (insert iid live)).file =
        Function.update (s.spread live).file dir (withEntry ((s.spread live).file dir) iid name) →
      (∀ i ∈ live, (s'.record i).type = (s.record i).type) → (s'.record iid).type = type →
      s'.ibm = s.ibm → s'.sb.rootinode = s.sb.rootinode → (∀ i ≠ iid, NodeStays s s' i) →
      s'.loanTable iid = some (newip, 1) → (∀ n, s'.icac.node iid = some n → n.locked = false) →
      HoldsWithin {inodeIid2Bid iid} s s' → Q (some newip) s') :
    Exec.Wp (do
      let (done, _) ← inodeRwData w ip (dirent iid name).get
        (Table.place direntKey ((s.spread live).entries dir) * direntSz % 2 ^ 32) direntSz true
      if done ≠ direntSz then return none
      match ← igetFromCache w iid true with
      | none => Exec.stop .nullDeref
      | some newip =>
        let _ ← inodeLock w newip
        inodeStore w newip fun inode =>
          { inode with iid, type, size := 0, bid := fun _ => 0, hash := fun _ => Bytes.zero }
        let iv ← key128Gen w
        inodeStore w newip fun inode => { inode with aesIv := iv }
        let key ← key128Gen w
        inodeStore w newip fun inode => { inode with aesKey := key }
        let _ ← inodeMakeDirty w newip
        let _ ← inodeUnlock w newip
        return some newip) Q E s := by
  obtain ⟨n, inode, hn, href, hcontent, hp, hiid⟩ := hb.pointsTo h.stored h.full
  have hlength : ((s.spread live).file dir).length = s.fileSize dir := by
    rw [file_spread hp.inodeOf hmem, length_file]
  have hplace : direntSz * Table.place direntKey ((s.spread live).entries dir) ≤
    s.fileSize dir := by
    rw [← hlength]
    exact place_le_length _
  have hoff : Table.place direntKey ((s.spread live).entries dir) * direntSz % 2 ^ 32 =
      direntSz * Table.place direntKey ((s.spread live).entries dir) := by
    rw [Nat.mul_comm]
    exact Nat.mod_eq_of_lt (by simp only [direntSz] at hlimit ⊢; omega)
  rw [hoff]
  have hfits : (⟨ip, dir, (dirent iid name).get, direntSz * Table.place direntKey
    ((s.spread live).entries dir),
      direntSz, true, 0, fun _ => 0⟩ : TransferCall).Fits s :=
    ⟨⟨inode, hp⟩, hplace, (by decide : direntSz < 2 ^ 32)⟩
  refine Exec.wp_bind.mpr (wp_inodeRwData_transfers hw _ (h.filesOk hin) hfits
    (fun done result s₁ ht => ?_) fun hcrowded => hE fun hroom => hcrowded
      (hroom.roomFor rfl rfl rfl))
  have harray := ht.arrayStep h hin (by simp [hp.inodeOf])
  rw [ArrayStep, if_neg (by simp only [direntSz] at hlimit ⊢; omega), if_pos rfl] at harray
  obtain ⟨hdone, hfile⟩ := harray
  refine Exec.wp_ite.mpr ⟨fun hshort => absurd hdone hshort, fun _ => ?_⟩
  have hs₁ := ht.sound h hin hw
  have hin₁ : s₁.Within live := ht.within hin
  refine Exec.wp_bind.mpr (wp_igetFromCache_new hw hs₁.stored hs₁.full hlt
    (hs₁.node_eq_none hin₁ hnew)
    (fun newip s₂ hf => ?_) fun hcrowded => hE fun hroom => hcrowded ⟨?_, ?_⟩)
  rotate_left
  · exact hroom.icac.of_stays fun i => Or.inl (ht.kept i)
  · exact ht.widens.beside.held.roomy (hroom.entry.roomy.mono (Nat.zero_le 1))
  obtain ⟨hs₂, hfiles₂⟩ := hf.toStoreKeeps.sound hs₁ hw
  obtain ⟨m, inode₂, hm, haddr, _, hlocked, hcount⟩ := hf.held
  have hheld : s₂.Borrowed iid newip := ⟨m, hm, haddr, by rw [hcount]; exact Nat.succ_ne_zero _⟩
  refine wp_made hw hs₂ hnew htype hheld (fun m' hm' => ?_) ?_
  · rw [hm] at hm'
    cases hm'
    exact hlocked
  intro s₃ hs₃ hrecord₃ htype₃ hfile₃ hibm₃ hsb₃ hnode₃ htable₃ hun₃ hheld₃
  have hrest : s₂.rest.2 = s.rest.2 := hf.rest.trans ht.widens.beside.rest
  refine hQ newip s₃ hs₃ (fun i hi => ?_) ?_ (fun i hi => ?_) htype₃
    (hibm₃.trans (congrArg Prod.fst hrest)) ?_
    (fun i hi => ?_) ?_ hun₃ (((ht.widens.beside.held.trans (hf.holdsWithin hs₁.stored)).trans
      hheld₃).mono (by simp))
  · by_cases heq : i = iid
    · exact Finset.mem_insert.mpr (Or.inl heq)
    · refine Finset.mem_insert_of_mem ?_
      rw [Sys.inodeOf, hnode₃ i heq] at hi
      rcases hf.node i heq with hsame | ⟨hnone, _⟩
      · rw [hsame] at hi
        exact hin₁ i hi
      · rw [hnone] at hi
        exact absurd rfl hi
  · rw [hfile₃, hfiles₂.file_eq, hfile]
    rfl
  · rw [hrecord₃ i hi, hf.record i (h.lt i hi)]
    exact ht.type_eq h hin hi
  · rw [hsb₃]
    exact congrArg (fun r => r.2.2.2.2.2) hrest
  · have h₁ : NodeStays s s₁ i := Or.inl (ht.kept i)
    have h₂ : NodeStays s₁ s₂ i := (hf.node i hi).imp_left fun heq => by rw [heq]
    have h₃ : NodeStays s₂ s₃ i := Or.inl (by rw [hnode₃ i hi])
    exact (h₁.trans h₂).trans h₃
  · rw [htable₃, Sys.loanTable, hm, Option.map_some, haddr, hcount, hs₁.node_eq_none hin₁ hnew]
    rfl

/-- A created inode is borrowed. -/
theorem Created.borrowed {dir : ℕ} (hc : Created w live dir iid ip name type s s') :
    s'.Borrowed iid ip := by
  obtain ⟨n, hn, heq⟩ := Option.map_eq_some_iff.mp hc.loan
  have hcount : n.refcnt = 1 := congrArg Prod.snd heq
  have haddr : n.addr = ip := congrArg Prod.fst heq
  exact ⟨n, hn, haddr, by omega⟩

/-- The pointer to the new inode is one more loan. -/
theorem Created.lends (h : s.Sound w live) (hin : s.Within live) {dir : ℕ} (hnew : iid ∉ live)
    (hc : Created w live dir iid ip name type s s') : Lends 0 {(iid, ip)} s s' := by
  have hnone : s.loanTable iid = none := by
    rw [Sys.loanTable, h.node_eq_none hin hnew]
    rfl
  intro others hs
  rw [zero_add] at hs
  refine hs.lend (fun j hj => NodeStays.loanTable (hc.node j hj)) ?_ fun q n hn => ?_
  · rw [hc.loan, hnone]
    rfl
  · rw [hnone] at hn
    cases hn

/-- The rule for `inode_new_get` with a name that fits: it finds the name, or all numbers are
in use, or it makes an inode. -/
theorem wp_inodeNewGet_created (hw : w.Reliable)
    {dir : ℕ} (hE : ¬(s.Roomy 1 ∧
      (Table.lookup direntKey name ((s.spread live).entries dir) = none →
        s.RoomToCreate dir (Table.place direntKey ((s.spread live).entries dir)))) →
      ∀ e : Halt, e.NoRoom → E e) (h : s.Sound w live) (hin : s.Within live) (hmem : dir ∈ live)
        (hb : s.Borrowed dir ip)
    (hlive : ∀ i ∈ live, i ∈ s.ibm.used) (hzero : 0 ∈ s.ibm.used)
      (hname : name.length ≤ dirnameMaxLen)
    (htype : type < 2 ^ 16) (hwhole : WholeEntries ((s.spread live).file dir))
    (hlimit : direntSz * (Table.place direntKey ((s.spread live).entries dir) + 1) < 2 ^ 32 - 1)
    (hjunk : s.ibm.ibmFirstEmptyWord < 512 ∨ junk.tmp = none) (hlock : s.ibm.ibmLock = true →
      E .deadlock)
    {Q : Option ℕ → Sys → Prop}
    (hfound : ∀ s', Table.lookup direntKey name ((s.spread live).entries dir) ≠ none →
      Visited w live dir s s' → Scanned w s s' → Q none s')
    (hfull : ∀ s', Table.lookup direntKey name ((s.spread live).entries dir) = none →
      NoFreeIid s.ibm → Visited w live dir s s' → Scanned w s s' →
      Q none { s' with ibm := { s'.ibm with ibmLock := true } })
    (hQ : ∀ iid newip s', Table.lookup direntKey name ((s.spread live).entries dir) = none →
      Created w live dir iid newip name type s s' → Q (some newip) s') :
    Exec.Wp (inodeNewGet w junk ip name type) Q E s := by
  refine Exec.wp_ite.mpr ⟨fun hlong => absurd hname (Nat.not_le.mpr hlong), fun _ => ?_⟩
  obtain ⟨n, inode, hn, href, hcontent, hp, hiid⟩ := hb.pointsTo h.stored h.full
  refine Exec.wp_bind.mpr (wp_dirents_visited hw h hin hmem (fun hcrowded => hE fun hroom =>
    hcrowded hroom.1) hb hwhole fun empty s₁ hv hsc hplace => ?_)
  refine Exec.wp_ite.mpr ⟨fun htaken => hfound s₁ ?_ hv hsc, fun hfree => ?_⟩
  · intro hnone
    rw [hnone] at htaken
    cases htaken
  have hnone : Table.lookup direntKey name ((s.spread live).entries dir) = none := by
    rw [Bool.not_eq_true, Option.isSome_eq_false_iff, Option.isNone_iff_eq_none] at hfree
    exact Option.map_eq_none_iff.mp hfree
  obtain ⟨inode₁, hp₁, _⟩ := hp.of_kept (hsc.kept dir)
  refine Exec.wp_bind.mpr (wp_inodeAt hv.sound.stored.icac hp₁ ?_)
  have hsize : inode₁.size = s.fileSize dir := by
    rw [← hp₁.fileSize, ← length_file, hsc.file_eq, length_file]
  have hslot : empty.getD (inode₁.size / direntSz) = Table.place direntKey
    ((s₁.spread live).entries dir) := by
    rw [hsize, hplace hnone, hv.entries_eq hmem]
  rw [hslot]
  have hibm := hv.ibm_eq
  refine Exec.wp_bind.mpr (Exec.wp_zoom.mpr (Exec.wp_bind.mpr (wp_ibmAllocExit ?_ ?_ ?_ ?_)))
  · intro iid b' _ hmarked
    rw [hibm] at hmarked
    refine Exec.wp_ite.mpr ⟨fun hiid0 => ?_, fun _ => ?_⟩
    · obtain rfl : iid = 0 := hiid0
      exact absurd hzero hmarked.unused
    have hs₂ : ({ s₁ with ibm := b' } : Sys).Sound w live := hv.sound.aside b' s₁.keys
    have hb₂ : ({ s₁ with ibm := b' } : Sys).Borrowed dir ip :=
      NodeStays.borrowed (Or.inl (hsc.kept dir)) hb
    have hnew : iid ∉ live := fun hi => hmarked.unused (hlive iid hi)
    refine wp_inodeNewGet_marked hw (fun hcrowded => hE fun hroom => hcrowded ?_) hs₂ hv.within hmem
      hb₂ hnew hmarked.lt htype ?_ ?_
    · change ({ s₁ with ibm := b' } : Sys).RoomToCreate dir
        (Table.place direntKey ((s₁.spread live).entries dir))
      rw [hv.entries_eq hmem]
      obtain ⟨hicac, hroomy, hsupplied⟩ := hsc.roomToCreate (hroom.2 hnone)
      exact ⟨hicac, hroomy, hsupplied⟩
    · change direntSz * (Table.place direntKey ((s₁.spread live).entries dir) + 1) < 2 ^ 32 - 1
      rw [hv.entries_eq hmem]
      exact hlimit
    · intro newip s' hs' hin' hfile htypes htype' hibm' hroot hnode hloan hun hheld
      refine hQ iid newip s' hnone ⟨?_, hs', hin', ?_, fun i hi => ?_, htype', ?_, fun i hi => ?_,
        hloan, hun, ?_⟩
      · rw [hibm']
        exact hmarked
      · rw [hfile]
        change Function.update (s₁.spread live).file dir
          (withEntry ((s₁.spread live).file dir) iid name) = _
        rw [hv.files.file_eq]
      · exact (htypes i hi).trans (hv.files.type i hi)
      · exact hroot.trans hv.rootinode_eq
      · have hstays : NodeStays s s₁ i := Or.inl (hsc.kept i)
        exact hstays.trans (hnode i hi)
      · exact (hsc.widens.beside.held.trans hheld).mono (by simp)
  · intro hall
    rw [hibm] at hall
    exact hfull s₁ hnone hall hv hsc
  · intro iid b' hpast htmp
    rw [hibm] at hpast
    exact absurd hjunk (not_or.mpr ⟨Nat.not_lt.mpr hpast, htmp⟩)
  · rw [hibm]
    exact hlock

end

end Efs
