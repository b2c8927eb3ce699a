import Efs.VolumeLife

/-!
# Removals

`rmfile` and `rmdir` mark the inode that they are to remove, and leave its entry in the
directory and its number in the bitmap. The reference by which they hold the inode is not given
back, so the mark has no effect before the caches are written out.
-/

namespace Efs

open Library

/-- The nodes of the inode cache hold the same inodes at the same addresses, only those in `marked`
may have got a mark, and nothing else is different. -/
structure Relabelled (marked : Set ℕ) (s s' : Sys) : Prop where
  /-- Every inode number has one node. -/
  keyed : s'.icac.Keyed
  /-- The inodes are the same. -/
  node : ∀ i, (s'.icac.node i).map (fun n => (n.addr, n.content)) =
    (s.icac.node i).map fun n => (n.addr, n.content)
  /-- The other marks are the same. -/
  deleted : ∀ i ∉ marked, (s'.icac.node i).map (·.deleted) = (s.icac.node i).map (·.deleted)
  /-- The rest is the same. -/
  same : s' = { s with icac := s'.icac }

/-- The node of an inode has a property. -/
def Sys.NodeHas (s : Sys) (i : ℕ) (P : Node Inode → Prop) : Prop :=
  ∃ n, s.icac.node i = some n ∧ P n

/-- An inode that `inode_delete` accepts: it has the type, and a directory has no entry. -/
def Sys.Removable (s : Sys) (live : Finset ℕ) (type i : ℕ) : Prop :=
  (s.record i).type = type ∧ (type = inodeTpDir → (s.spread live).file i = [])

/-- The call left all files as they were, and then changed nothing but the marks in `marked`, and
locks and counts of cached inodes. -/
def Marks (w : World) (live : Finset ℕ) (marked : Set ℕ) (before mid after : Multiset (ℕ × ℕ))
    (s t : Sys) : Prop :=
  ∃ s₀, s₀.TreeOk w live ∧ Unchanged live s s₀ ∧ Lends before mid s s₀ ∧ Relabelled marked s₀ t ∧
    Lends mid after s₀ t

/-- The path leads to an inode that `rmfile` or `rmdir` accepts. -/
def Fs.MayRemove (fs : Fs) (type : ℕ) (path : CStr) (i : ℕ) : Prop :=
  ∃ d name, Upper fs.view.tree path d name ∧ fs.view.tree.child d name = some i ∧
    fs.sys.Removable fs.sys.ibm.inUse type i

/-- What `rmfile` and `rmdir` do, by the type of what they are to remove. -/
structure Removes (fs : Fs) (type : ℕ) (path : CStr) (failed : Bool) (t : Fs) : Prop where
  /-- The names, the contents and the handles are as they were. -/
  view : t.view = fs.view
  /-- The call succeeds when there is something to remove. -/
  done : failed = false ↔ ∃ i, fs.MayRemove type path i
  /-- No inode was marked before. -/
  clean : ∀ j n, fs.sys.icac.node j = some n → n.deleted = false
  /-- The inode is marked and no other one is, and it has one more reference. -/
  marked : failed = false → ∃ i, fs.MayRemove type path i ∧ t.sys.NodeHas i (·.deleted = true) ∧
    (∀ j ≠ i, ∀ n, t.sys.icac.node j = some n → n.deleted = false) ∧
    ∀ j, t.sys.refcnt j = fs.sys.refcnt j + if j = i then 1 else 0
  /-- A call that fails marks nothing. -/
  unmarked : failed = true → ∀ j n, t.sys.icac.node j = some n → n.deleted = false
  /-- No reference is given back. -/
  kept : ∀ j, fs.sys.refcnt j ≤ t.sys.refcnt j

/-- No directory has an entry for itself. -/
def NoLoop (a : Files) : Prop := ∀ d name, a.tree.child d name ≠ some d

section

variable {w : World} {E : Halt → Prop} {live : Finset ℕ} {s s₀ s₁ s' t : Sys}
  {d i j ip ip' type : ℕ} {inode : Inode} {name path : CStr} {junk : Leftover}
  {g : Node Inode → Node Inode} {P P' : Node Inode → Prop} {a b c : Multiset (ℕ × ℕ)} {X Y : Set ℕ}

/-! ## Marks, locks and counts -/

/-- Nothing is relabelled when nothing happens. -/
theorem Relabelled.refl (h : s.icac.Keyed) : Relabelled X s s :=
  ⟨h, fun _ => rfl, fun _ _ => rfl, rfl⟩

/-- What is relabelled in two steps is relabelled in both together. -/
theorem Relabelled.trans (h₁ : Relabelled X s s₁) (h₂ : Relabelled X s₁ s') : Relabelled X s s' :=
  ⟨h₂.keyed, fun i => (h₂.node i).trans (h₁.node i),
    fun i hi => (h₂.deleted i hi).trans (h₁.deleted i hi), by rw [h₂.same, h₁.same]⟩

/-- More inodes may be relabelled than are. -/
theorem Relabelled.mono (h : Relabelled X s s') (hXY : X ⊆ Y) : Relabelled Y s s' :=
  ⟨h.keyed, h.node, fun i hi => h.deleted i fun hmem => hi (hXY hmem), h.same⟩

/-- A change of a node that may mark its inode. -/
theorem InodeChanges.relabelled_self (hc : InodeChanges i g s s')
    (hg : ∀ n, (g n).addr = n.addr ∧ (g n).content = n.content) : Relabelled {i} s s' := by
  refine ⟨hc.keyed, fun j => ?_, fun j hj => by rw [hc.node_of_ne hj], hc.same⟩
  by_cases hj : j = i
  · subst hj
    rw [hc.node, Function.update_self, Option.map_map]
    refine congrArg (fun f => (s.icac.node j).map f) (funext fun n => ?_)
    rw [Function.comp_apply, (hg n).1, (hg n).2]
  · rw [hc.node_of_ne hj]

/-- A change of a node that keeps the mark. -/
theorem InodeChanges.relabelled (hc : InodeChanges i g s s')
    (hg : ∀ n, (g n).addr = n.addr ∧ (g n).content = n.content ∧ (g n).deleted = n.deleted) :
    Relabelled ∅ s s' := by
  have hr := hc.relabelled_self fun n => ⟨(hg n).1, (hg n).2.1⟩
  refine ⟨hr.keyed, hr.node, fun j _ => ?_, hr.same⟩
  by_cases hj : j = i
  · subst hj
    rw [hc.node, Function.update_self, Option.map_map]
    refine congrArg (fun f => (s.icac.node j).map f) (funext fun n => ?_)
    rw [Function.comp_apply, (hg n).2.2]
  · rw [hc.node_of_ne hj]

/-- The other nodes are not marked, when none was. -/
theorem Relabelled.unmarked (h : Relabelled X s s')
    (hclean : ∀ i n, s.icac.node i = some n → n.deleted = false) (hj : j ∉ X) {n : Node Inode}
    (hn : s'.icac.node j = some n) : n.deleted = false := by
  have hdeleted := h.deleted j hj
  rw [hn, Option.map_some] at hdeleted
  obtain ⟨m, hm, heq⟩ := Option.map_eq_some_iff.mp hdeleted.symm
  exact heq.symm.trans (hclean j m hm)

/-- In a tree of directories no inode is marked. -/
theorem Sys.TreeOk.clean (h : s.TreeOk w live) {n : Node Inode} (hn : s.icac.node i = some n) :
    n.deleted = false := by
  obtain ⟨inode, hcontent⟩ := Option.ne_none_iff_exists'.mp (h.sound.full i n hn)
  exact (h.sound.stored.backs i n inode hn hcontent).kept

/-- Relabelling leaves the pointers. -/
theorem Relabelled.pointsTo (h : Relabelled X s s') (hp : s.PointsTo ip i inode) :
    s'.PointsTo ip i inode := by
  obtain ⟨n, hn, haddr, hcontent⟩ := hp
  have hnode := h.node i
  rw [hn, Option.map_some] at hnode
  obtain ⟨n', hn', heq⟩ := Option.map_eq_some_iff.mp hnode
  obtain ⟨haddr', hcontent'⟩ := Prod.mk.inj heq
  exact ⟨n', hn', haddr'.trans haddr, hcontent'.trans hcontent⟩

/-- Relabelling leaves the blocks. -/
theorem Relabelled.spot_eq (h : Relabelled X s s') (b : ℕ) : s'.spot b = s.spot b := by
  rw [h.same]
  rfl

/-- Relabelling leaves the records. -/
theorem Relabelled.record_eq (h : Relabelled X s s') : s'.record i = s.record i := by
  have hinode : ∀ s : Sys, s.inodeOf i =
      ((s.icac.node i).map fun n => (n.addr, n.content)).bind Prod.snd := by
    intro s
    rw [Sys.inodeOf]
    cases s.icac.node i with
    | none => rfl
    | some n => rfl
  apply record_congr
  · rw [hinode, h.node, ← hinode]
  · intro _
    rw [h.spot_eq]

/-- Relabelling leaves the files. -/
theorem Relabelled.spread_eq (h : Relabelled X s s') : s'.spread live = s.spread live := by
  have hrecord : s'.record = s.record := funext fun _ => h.record_eq
  rw [Sys.spread, Sys.spread, hrecord, h.same]

/-- Relabelling leaves the inode bitmap. -/
theorem Relabelled.ibm_eq (h : Relabelled X s s') : s'.ibm = s.ibm := by rw [h.same]

/-- No file is changed. -/
theorem Relabelled.unchanged (h : Relabelled X s s') : Unchanged live s s' :=
  ⟨⟨fun _ _ => congrArg Inode.type h.record_eq, fun _ _ => by rw [h.spread_eq]⟩,
    by rw [h.ibm_eq], by rw [h.ibm_eq]⟩

/-- The number at a pointer is that of its inode. -/
theorem Sys.PointsTo.iidAt_eq (hp : s.PointsTo ip i inode) (hk : s.icac.Keyed) :
    s.iidAt ip = inode.iid := by
  obtain ⟨n, hn, haddr, hcontent⟩ := hp
  rw [Sys.iidAt, ← haddr, hk.contentAt hn, hcontent, Option.map_some, Option.getD_some]

/-- A property of a node that the change keeps stays. -/
theorem InodeChanges.nodeHas (hc : InodeChanges i g s s') (h : s.NodeHas j P)
    (hg : ∀ n, P n → P (g n)) : s'.NodeHas j P := by
  obtain ⟨n, hn, hP⟩ := h
  by_cases hj : j = i
  · subst hj
    exact ⟨g n, hc.node_self hn, hg n hP⟩
  · exact ⟨n, (hc.node_of_ne hj).trans hn, hP⟩

/-- The changed node has what the change gives it. -/
theorem InodeChanges.nodeHas_self (hc : InodeChanges i g s s') (h : s.NodeHas i P)
    (hg : ∀ n, P n → P' (g n)) : s'.NodeHas i P' := by
  obtain ⟨n, hn, hP⟩ := h
  exact ⟨g n, hc.node_self hn, hg n hP⟩

/-- A change of one node that leaves its references leaves what a caller holds. -/
theorem InodeChanges.borrowed (hc : InodeChanges i g s s') (hb : s.Borrowed d ip)
    (hg : ∀ n, (g n).addr = n.addr ∧ (g n).refcnt = n.refcnt) : s'.Borrowed d ip := by
  refine hc.nodeHas hb fun n h => ?_
  rw [(hg n).1, (hg n).2]
  exact h

/-- Whether an inode can be removed depends on its file only. -/
theorem Sys.Removable.congr (h : SameFiles live s s') (hi : i ∈ live) :
    s'.Removable live type i ↔ s.Removable live type i := by
  rw [Sys.Removable, Sys.Removable, h.type i hi, h.file i hi]

/-- The rule for `inode_make_deleted`. -/
theorem wp_inodeMakeDeleted (hk : s.icac.Keyed) (hp : s.PointsTo ip i inode) (hiid : inode.iid = i)
    {Q : Bool → Sys → Prop}
    (hQ : ∀ s', InodeChanges i ({ · with deleted := true }) s s' → Q false s') :
    Exec.Wp (inodeMakeDeleted w ip) Q E s := by
  refine Exec.wp_bind.mpr (wp_inodeAt hk hp (Exec.wp_bind.mpr ?_))
  rw [hiid]
  obtain ⟨n, hn, _, _⟩ := hp
  refine wp_cacheFind_peek (k := icacOf w) icacOf_lawful hk ?_
  have hget : ((icacOf w).get s).node i = some n := hn
  rw [hget]
  refine Exec.wp_bind.mpr (wp_nodeStore_icac hk hn ?_ hQ)
  exact fun _ => ⟨rfl, rfl⟩

/-- Marks after a call that only lends are marks from before it. -/
theorem Marks.of_unchanged (hsame : Unchanged live s s₁) (hlends : Lends 0 c s s₁)
    (h : Marks w live X 0 a b s₁ t) : Marks w live X 0 (a + c) (b + c) s t := by
  obtain ⟨s₀, hok, hsame₀, hlends₀, hr, hl⟩ := h
  have hadd := hlends₀.add c
  rw [zero_add] at hadd
  exact ⟨s₀, hok, hsame.trans hsame₀, hlends.trans hadd, hr, hl.add c⟩

/-- A change of one node that marks none. -/
theorem Marks.change (h : Marks w live X 0 a b s t) (hr : Relabelled ∅ t s') (hl : Lends b c t s') :
    Marks w live X 0 a c s s' := by
  obtain ⟨s₀, hok, hsame, hlends, hr₀, hl₀⟩ := h
  exact ⟨s₀, hok, hsame, hlends, hr₀.trans (hr.mono (Set.empty_subset _)), hl₀.trans hl⟩

/-- The first marks. -/
theorem Marks.mark (h : Marks w live ∅ 0 a b s t) (hr : Relabelled X t s') (hl : Lends b c t s') :
    Marks w live X 0 a c s s' := by
  obtain ⟨s₀, hok, hsame, hlends, hr₀, hl₀⟩ := h
  exact ⟨s₀, hok, hsame, hlends, (hr₀.mono (Set.empty_subset _)).trans hr, hl₀.trans hl⟩

/-- A directory that a caller holds among the marks is cached. -/
theorem Marks.pointsTo (h : Marks w live X 0 a b s t) (hb : t.Borrowed d ip) :
    ∃ inode, t.PointsTo ip d inode ∧ inode.iid = d := by
  obtain ⟨s₀, hok, _, _, hr, _⟩ := h
  obtain ⟨n, hn, haddr, _⟩ := hb
  have hnode := hr.node d
  rw [hn, Option.map_some, eq_comm] at hnode
  obtain ⟨n₀, hn₀, heq⟩ := Option.map_eq_some_iff.mp hnode
  obtain ⟨_, hcontent⟩ := Prod.mk.inj heq
  obtain ⟨inode, hinode⟩ := Option.ne_none_iff_exists'.mp (hok.sound.full d n₀ hn₀)
  exact ⟨inode, ⟨n, hn, haddr, hcontent.symm.trans hinode⟩,
    (hok.sound.stored.backs d n₀ inode hn₀ hinode).iid_eq⟩

/-- The rule for `inode_unlock` of a directory after the marks in it. -/
theorem wp_inodeUnlock_marks (h : Marks w live X 0 a b s t) (hb : t.Borrowed d ip)
    {Q : Bool → Sys → Prop}
    (hQ : ∀ inode t', Marks w live X 0 a b s t' →
      InodeChanges d ({ · with locked := false }) t t' → t'.PointsTo ip d inode → inode.iid = d →
      t'.NodeHas d (fun n => n.refcnt ≠ 0 ∧ n.locked = false) → Q false t') :
    Exec.Wp (inodeUnlock w ip) Q E t := by
  obtain ⟨inode, hp, hiid⟩ := h.pointsTo hb
  have hkeyed : t.icac.Keyed := by
    obtain ⟨_, _, _, _, hr, _⟩ := h
    exact hr.keyed
  refine wp_inodeUnlock hkeyed hp hiid fun t' hc => ?_
  have hr := hc.relabelled fun _ => ⟨rfl, rfl, rfl⟩
  refine hQ inode t' (h.change hr (hc.lends fun _ => ⟨rfl, rfl⟩)) hc (hr.pointsTo hp) hiid ?_
  exact hc.nodeHas_self hb fun _ hheld => ⟨hheld.2, rfl⟩

/-! ## Removals in a directory -/

variable (hw : w.Reliable)

include hw

/-- The rule for `iget_from_cache` while another inode is locked. -/
theorem wp_igetFromCache_beside (h : s.TreeOk w live) (hun : s.UnlockedBut d) (hne : i ≠ d)
    (hi : i ∈ live) (hb : s.Borrowed d ip) (hE : ¬s.HasRoom → ∀ e : Halt, e.NoRoom → E e)
    {Q : Option ℕ → Sys → Prop}
    (hQ : ∀ ip' s', s'.TreeOk w live → Unchanged live s s' → Lends 0 {(i, ip')} s s' →
      s'.Borrowed d ip → s'.Borrowed i ip' → s'.NodeHas i (·.locked = false) → Q (some ip') s') :
    Exec.Wp (igetFromCache w i false) Q E s := by
  refine wp_igetFromCache hw h.sound.stored h.sound.full (h.sound.lt i hi) (hun i hne)
    (fun ip' s' hf => ?_) hE
  have hv := hf.toStoreKeeps.visited hw h.sound h.within hi
  obtain ⟨n, inode, hn, haddr, hcontent, hlocked, href⟩ := hf.held
  have hnonzero : n.refcnt ≠ 0 := by
    rw [href]
    exact Nat.succ_ne_zero _
  exact hQ ip' s' (hv.treeOk h) hv.unchanged hf.lends ((hv.node d hne.symm).borrowed hb)
    ⟨n, hn, haddr, hnonzero⟩ ⟨n, hn, hlocked⟩

/-- The rule for `inode_delete` in a directory that is locked. -/
theorem wp_inodeDelete_marks (h : s.TreeOk w live) (hun : s.UnlockedBut d)
    (hdir : (s.tree live).isDir d) (hb : s.Borrowed d ip) (hlen : name.length ≤ dirnameMaxLen)
    (hloop : (s.tree live).child d name ≠ some d)
    (hE : ¬s.RoomToWalk False {(d, ip)} 1 → ∀ e : Halt, e.NoRoom → E e) {Q : Bool → Sys → Prop}
    (hmissing : ∀ t, Marks w live ∅ 0 0 0 s t → t.Borrowed d ip →
      (s.tree live).child d name = none → Q true t)
    (hother : ∀ i ip' t, Marks w live ∅ 0 {(i, ip')} {(i, ip')} s t → t.Borrowed d ip →
      (s.tree live).child d name = some i → ¬s.Removable live type i → Q true t)
    (hmarked : ∀ i ip' t, Marks w live {i} 0 {(i, ip')} {(i, ip')} s t → t.Borrowed d ip →
      t.NodeHas i (·.deleted = true) → (s.tree live).child d name = some i →
      s.Removable live type i → Q false t) :
    Exec.Wp (inodeDelete w ip name type) Q E s := by
  have hshort : ¬dirnameMaxLen + 1 < name.length := by omega
  refine Exec.wp_ite.mpr ⟨fun hlong => absurd hlong hshort, fun _ => ?_⟩
  refine Exec.wp_bind.mpr (wp_dirents_visited hw h.sound h.within hdir.1
    (fun hcrowded => hE fun hroom => hcrowded hroom.bcac) hb
    (h.dirs d hdir).whole fun empty s₁ h₁ hsc _ => ?_)
  have hb₁ := NodeStays.borrowed (Or.inl (hsc.kept d)) hb
  have hun₁ := h₁.unlockedBut hun
  have hok₁ := h₁.treeOk h
  have hfind : (Table.lookup direntKey name ((s.spread live).entries d)).map direntIid =
      (s.tree live).child d name := rfl
  rw [hfind]
  cases hchild : (s.tree live).child d name with
  | none =>
    exact hmissing s₁ ⟨s₁, hok₁, h₁.unchanged, hsc.lends, .refl hok₁.sound.stored.icac,
      .refl 0 s₁⟩ hb₁ hchild
  | some i =>
    have hi : i ∈ live := (h.dirs d hdir).child name i hchild
    have hne : i ≠ d := by
      rintro rfl
      exact hloop hchild
    refine Exec.wp_bind.mpr (wp_igetFromCache_beside hw hok₁ hun₁ hne hi hb₁
      (fun hcrowded => hE fun hroom => hcrowded
        ((hroom.keep (h₁.spends_none h.sound hb) (hsc.lends.keep _) id).hasRoom (by simp)))
      fun ip' s₂ hok₂ hsame₂ hlends₂ hb₂ hbi hfree => ?_)
    have hstored := hok₂.sound.stored
    obtain ⟨_, inode, _, _, _, hp, hiid⟩ := hbi.pointsTo hstored hok₂.sound.full
    have hsame := h₁.unchanged.trans hsame₂
    have hmarks : Marks w live ∅ 0 {(i, ip')} {(i, ip')} s s₂ :=
      ⟨s₂, hok₂, hsame, hsc.lends.trans hlends₂, .refl hstored.icac, .refl _ s₂⟩
    have hremovable : inode.type ≠ type ∨ type = inodeTpDir ∧ inode.size ≠ 0 ↔
        ¬s.Removable live type i := by
      have hlength : ((s.spread live).file i).length = inode.size := by
        rw [← hsame.file i hi, file_spread hp.inodeOf hi, length_file, hp.fileSize]
      rw [Sys.Removable, ← hsame.type i hi, type_of_pointsTo hp, ← List.length_eq_zero_iff,
        hlength, not_and_or, Classical.not_imp]
    refine Exec.wp_bind.mpr (wp_inodeLock hstored.icac hp hiid (fun m hm => ?_) fun s₃ h₃ => ?_)
    · obtain ⟨n, hn, hlocked⟩ := hfree
      rw [hn] at hm
      cases hm
      exact hlocked
    have hr₃ := h₃.relabelled fun _ => ⟨rfl, rfl, rfl⟩
    have hp₃ := hr₃.pointsTo hp
    have hmarks₃ := hmarks.change hr₃ (h₃.lends fun _ => ⟨rfl, rfl⟩)
    have hb₃ := h₃.borrowed hb₂ fun _ => ⟨rfl, rfl⟩
    refine Exec.wp_bind.mpr (wp_inodeAt hr₃.keyed hp₃ (Exec.wp_ite.mpr
      ⟨fun hbad => ?_, fun hgood => ?_⟩))
    · refine Exec.wp_bind.mpr (wp_inodeUnlock hr₃.keyed hp₃ hiid fun s₄ h₄ => ?_)
      rw [Exec.wp_pure]
      exact hother i ip' s₄ (hmarks₃.change (h₄.relabelled fun _ => ⟨rfl, rfl, rfl⟩)
        (h₄.lends fun _ => ⟨rfl, rfl⟩)) (h₄.borrowed hb₃ fun _ => ⟨rfl, rfl⟩) hchild
        (hremovable.mp hbad)
    · refine Exec.wp_bind.mpr (wp_inodeMakeDeleted hr₃.keyed hp₃ hiid fun s₄ h₄ => ?_)
      have hr₄ := h₄.relabelled_self fun _ => ⟨rfl, rfl⟩
      have hmarks₄ := hmarks₃.mark hr₄ (h₄.lends fun _ => ⟨rfl, rfl⟩)
      have hb₄ := h₄.borrowed hb₃ fun _ => ⟨rfl, rfl⟩
      have hdeleted : s₄.NodeHas i (·.deleted = true) := by
        obtain ⟨n, hn, _⟩ := hp₃
        exact ⟨_, h₄.node_self hn, rfl⟩
      refine Exec.wp_bind.mpr (wp_inodeUnlock hr₄.keyed (hr₄.pointsTo hp₃) hiid fun s₅ h₅ => ?_)
      rw [Exec.wp_pure]
      exact hmarked i ip' s₅ (hmarks₄.change (h₅.relabelled fun _ => ⟨rfl, rfl, rfl⟩)
        (h₅.lends fun _ => ⟨rfl, rfl⟩)) (h₅.borrowed hb₄ fun _ => ⟨rfl, rfl⟩)
        (h₅.nodeHas hdeleted fun _ h => h) hchild (not_not.mp (mt hremovable.mpr hgood))

/-- The rule for `inode_rmdir` and `inode_rmfile` in a directory that is held. -/
theorem wp_inodeRemove_marks (h : s.VolumeOk w live) (hdir : (s.tree live).isDir d)
    (hb : s.Borrowed d ip) (hlen : name.length ≤ dirnameMaxLen)
    (hloop : (s.tree live).child d name ≠ some d)
    (hE : ¬s.RoomToWalk False {(d, ip)} 1 → ∀ e : Halt, e.NoRoom → E e) {Q : Bool → Sys → Prop}
    (hmissing : ∀ t, Marks w live ∅ 0 0 0 s t → (s.tree live).child d name = none → Q true t)
    (hother : ∀ i ip' t, Marks w live ∅ 0 {(i, ip')} {(i, ip')} s t →
      (s.tree live).child d name = some i → ¬s.Removable live type i → Q true t)
    (hmarked : ∀ i ip' inode t, Marks w live {i} 0 {(i, ip')} {(i, ip')} s t →
      t.PointsTo ip d inode → inode.iid = d →
      t.NodeHas d (fun n => n.refcnt ≠ 0 ∧ n.locked = false) → t.NodeHas i (·.deleted = true) →
      (s.tree live).child d name = some i → s.Removable live type i → Q false t) :
    Exec.Wp (inodeRemove w type ip name) Q E s := by
  refine Exec.wp_bind.mpr (wp_inodeLock_passed hw h.sound h.within hdir.1 hb h.unlocked
    fun s₁ h₁ hb₁ hun₁ => ?_)
  have hsame₁ := h₁.unchanged
  have htree := h₁.files.tree_eq
  have hroom₁ : s.RoomToWalk False {(d, ip)} 1 → s₁.RoomToWalk False {(d, ip)} 1 := fun hroom =>
    hroom.keep (h₁.toVisited.spends_none h.sound hb) (h₁.lends.keep _) id
  have hfrom : ∀ {X a b t}, Marks w live X 0 a b s₁ t → Marks w live X 0 a b s t := by
    intro X a b t hmarks
    have hback := hmarks.of_unchanged hsame₁ h₁.lends
    rwa [add_zero, add_zero] at hback
  refine Exec.wp_bind.mpr (wp_inodeDelete_marks hw (h₁.toVisited.treeOk h.toTreeOk) hun₁
    (htree ▸ hdir) hb₁ hlen (htree ▸ hloop)
    (fun hcrowded => hE fun hroom => hcrowded (hroom₁ hroom)) ?_ ?_ ?_)
  · intro t hmarks hbt hchild
    refine Exec.wp_bind.mpr (wp_inodeUnlock_marks hmarks hbt fun _ t' hmarks' _ _ _ _ => ?_)
    rw [Exec.wp_pure]
    exact hmissing t' (hfrom hmarks') (htree ▸ hchild)
  · intro i ip' t hmarks hbt hchild hother₁
    refine Exec.wp_bind.mpr (wp_inodeUnlock_marks hmarks hbt fun _ t' hmarks' _ _ _ _ => ?_)
    have hi : i ∈ live := (h.dirs d hdir).child name i (htree ▸ hchild)
    rw [Exec.wp_pure]
    exact hother i ip' t' (hfrom hmarks') (htree ▸ hchild)
      (mt (Sys.Removable.congr hsame₁.toSameFiles hi).mpr hother₁)
  · intro i ip' t hmarks hbt hdeleted hchild hremovable
    refine Exec.wp_bind.mpr (wp_inodeUnlock_marks hmarks hbt
      fun inode t' hmarks' hc hp hiid hready => ?_)
    have hi : i ∈ live := (h.dirs d hdir).child name i (htree ▸ hchild)
    rw [Exec.wp_pure]
    exact hmarked i ip' inode t' (hfrom hmarks') hp hiid hready (hc.nodeHas hdeleted fun _ h => h)
      (htree ▸ hchild) ((Sys.Removable.congr hsame₁.toSameFiles hi).mp hremovable)

/-- The rule for `rmfile` and `rmdir`. -/
theorem wp_onUpper_marks (hcheck : pathCheck path = true) (hne : path ≠ []) (h : s.VolumeOk w live)
    (hloop : ∀ d name, (s.tree live).isDir d → (s.tree live).child d name ≠ some d)
    (hE : ¬s.RoomAbove False path 1 → ∀ e : Halt, e.NoRoom → E e) {Q : Bool → Sys → Prop}
    (hfailed : ∀ mid after t, Marks w live ∅ 0 mid after s t →
      (∀ d name i, Upper (s.tree live) path d name → (s.tree live).child d name = some i →
        ¬s.Removable live type i) → Q true t)
    (hmarked : ∀ d name i ip mid t, Marks w live {i} 0 mid {(i, ip)} s t →
      Upper (s.tree live) path d name → (s.tree live).child d name = some i →
      s.Removable live type i → t.NodeHas i (·.deleted = true) → Q false t) :
    Exec.Wp (onUpper w junk path (inodeRemove w type)) Q E s := by
  refine wp_onUpper_got hw hcheck hne h (fun hcrowded => hE fun hroom => hcrowded
    (hroom.mono (Nat.zero_le 1) id)) ?_ ?_
  · intro s₁ hok hsame hlends hno
    refine hfailed 0 0 s₁ ⟨s₁, hok.toTreeOk, hsame, hlends, .refl hok.sound.stored.icac,
      .refl 0 s₁⟩ ?_
    exact fun d name _ hup => absurd hup (hno d name)
  · intro d ip last s₁ hup honly hname hok hb hsame hlends hwalk
    have htree := hsame.tree_eq
    have hdir : (s.tree live).isDir d := by
      obtain ⟨_, _, _, _, _, hdir⟩ := hup
      exact hdir
    have hlen : last.length ≤ dirnameMaxLen := by
      rcases hname with rfl | hname
      · exact Nat.zero_le _
      · exact hname.length_le
    have hchild : (s₁.tree live).child d last ≠ some d := by
      rw [htree]
      exact hloop d last hdir
    have hnone : ∀ i, (s₁.tree live).child d last = i →
      (∀ j, i = some j → ¬s₁.Removable live type j) →
        ∀ d' name i, Upper (s.tree live) path d' name → (s.tree live).child d' name = some i →
          ¬s.Removable live type i := by
      intro i hi hnot d' name j hup' hj
      obtain ⟨rfl, rfl⟩ := honly d' name hup'
      rw [htree, hj] at hi
      rw [← Sys.Removable.congr hsame.toSameFiles ((h.dirs _ hdir).child _ _ hj)]
      exact hnot j hi.symm
    refine wp_inodeRemove_marks hw hok (htree ▸ hdir) hb hlen hchild
      (fun hcrowded => hE fun hroom => hcrowded (hwalk False 1 hroom)) ?_ ?_ ?_
    · intro t hmarks hi
      refine ⟨fun _ => ?_, fun hfalse => (by cases hfalse)⟩
      exact hfailed _ _ t (hmarks.of_unchanged hsame hlends)
        (hnone none hi fun _ heq => by cases heq)
    · intro i ip' t hmarks hi hnot
      refine ⟨fun _ => ?_, fun hfalse => (by cases hfalse)⟩
      refine hfailed _ _ t (hmarks.of_unchanged hsame hlends) (hnone (some i) hi fun j heq => ?_)
      cases heq
      exact hnot
    · intro i ip' dir t hmarks hp hdiid hready hdeleted hi hremovable
      refine ⟨fun hfalse => (by cases hfalse), fun _ => ?_⟩
      obtain ⟨s₀, _, _, _, hr, _⟩ := id hmarks
      have hnode : ∀ m, t.icac.node d = some m → m.refcnt ≠ 0 ∧ m.locked = false := by
        obtain ⟨n, hn, hheld⟩ := hready
        intro m hm
        rw [hn] at hm
        cases hm
        exact hheld
      refine wp_inodeReturn hr.keyed hp hdiid (fun m hm => (hnode m hm).1)
        (fun m hm => (hnode m hm).2)
        fun t' hc => ?_
      have hback : Lends ({(i, ip')} + {(d, ip)}) {(i, ip')} t t' := by
        have hadd : Lends ({(d, ip)} + {(i, ip')}) (0 + {(i, ip')}) t t' :=
          hc.lends_release.add {(i, ip')}
        rw [zero_add, add_comm] at hadd
        exact hadd
      rw [htree] at hi
      refine hmarked d last i ip' _ t' ((hmarks.of_unchanged hsame hlends).change
        (hc.relabelled fun _ => ⟨rfl, rfl, rfl⟩) hback) hup hi ?_ (hc.nodeHas hdeleted fun _ h => h)
      exact (Sys.Removable.congr hsame.toSameFiles ((h.dirs _ hdir).child _ _ hi)).mp hremovable

end

/-! ## Removals in the life of a volume -/

section

variable {w : World} {E : Halt → Prop} {sha256Sb : SbData → Key256} {fs fs' t : Fs}
  {c : VolumeCall} {cs : List VolumeCall} {s : Sys} {kept mid after loans : Multiset (ℕ × ℕ)}
  {a a' : Files} {d i j type : ℕ} {path name : CStr} {junk : Leftover} {X : Set ℕ}

/-- The references of an inode are its loans. -/
theorem Sys.OnLoan.refcnt_eq (h : s.OnLoan loans) : s.refcnt j = loans.countP fun l => l.1 = j := by
  rw [← h.count j, Sys.loanTable, Option.map_map]
  rfl

/-- An entry for a new inode makes no loop. -/
theorem NoLoop.create {dir : Prop} (h : NoLoop a) (hd : d ∈ a.nodes) (hi : i ∉ a.nodes) :
    NoLoop (a.create d name i dir) := by
  intro d' name' heq
  change (a.tree.insert d name i dir).child d' name' = some d' at heq
  rw [NameTree.child_insert] at heq
  split_ifs at heq with hnew
  · obtain ⟨rfl, _⟩ := hnew
    cases heq
    exact hi hd
  · exact h d' name' heq

/-- Entries are made for new inodes only. -/
theorem FilesStep.noLoop {api : ApiCall} (hstep : FilesStep a api a')
    (hdirs : ∀ i, a.tree.isDir i → i ∈ a.nodes) (h : NoLoop a) : NoLoop a' := by
  intro d' name'
  rcases hstep.grows with ⟨_, htree⟩ | ⟨d, name, j, dir, hdir, _, hnew, _, htree⟩
  · rw [htree]
    exact h d' name'
  · rw [htree]
    exact h.create (hdirs d hdir) hnew d' name'

/-- No life of a volume makes a loop. -/
theorem volume_noLoop (hw : w.Reliable) (h : fs.Ok w kept)
    (hrun : Run (VolumeStep w sha256Sb) fs cs fs')
    (hdefined : Always (VolumeStep w sha256Sb) (fun fs c _ => c.Defined fs) fs cs)
    (hloop : NoLoop fs.view) : NoLoop fs'.view := by
  induction hrun generalizing kept with
  | nil fs => exact hloop
  | @cons fs₁ fs₂ _ c _ hstep _ ih =>
    obtain ⟨hdoes, kept₁, hok⟩ := hstep.stepped hw h (hdefined.head hstep)
    refine ih hok (hdefined.tail hstep) ?_
    cases c with
    | call api =>
      have hfiles : FilesStep fs₁.view api fs₂.view := hdoes
      exact hfiles.noLoop (fun _ => Fs.mem_nodes_of_isDir) hloop
    | remount iv key hash =>
      have hclosed : fs₂.view = fs₁.view.closed := hdoes
      rw [hclosed]
      exact hloop

/-- After marks the session shows the same, the loans are told, and no other inode is marked. -/
theorem Fs.Ok.marks (h : fs.Ok w kept) (hm : Marks w fs.sys.ibm.inUse X 0 mid after fs.sys t.sys)
    (hfiles : t.files = fs.files) :
    t.view = fs.view ∧ (∀ j, t.sys.refcnt j = fs.sys.refcnt j + after.countP fun l => l.1 = j) ∧
      ∀ j ∉ X, ∀ n, t.sys.icac.node j = some n → n.deleted = false := by
  obtain ⟨s₀, hok, hsame, hlends, hr, hl⟩ := hm
  have hloans : s₀.OnLoan (mid + (kept + fs.loans)) := hlends _ (by rw [zero_add]; exact h.loans)
  refine ⟨?_, ?_, fun j hj n hn => hr.unmarked (fun _ _ => hok.clean) hj hn⟩
  · rw [(hsame.trans hr.unchanged).view, openFile_same (fun fp file hfile => ?_) hfiles]
    · rfl
    · have hmem : (fs.sys.iidAt file.ip, file.ip) ∈ mid + (kept + fs.loans) :=
        Multiset.mem_add.mpr (Or.inr (h.mem_loans hfile))
      obtain ⟨inode, hp, hiid⟩ := hloans.pointsTo hok.sound.stored hok.sound.full hmem
      rw [(hr.pointsTo hp).iidAt_eq hr.keyed, hiid]
  · intro j
    rw [(hl _ hloans).refcnt_eq, h.loans.refcnt_eq, Multiset.countP_add, add_comm]

/-- The rule for `rmfile` and `rmdir` between two calls. -/
theorem wp_removes (hw : w.Reliable) (h : fs.Ok w kept) (hloop : NoLoop fs.view) (hne : path ≠ [])
    (hE : ¬fs.sys.RoomAbove False path 1 → ∀ e : Halt, e.NoRoom → E e) :
    Exec.Wp (onSys (onUpper w junk path (inodeRemove w type)))
      (fun failed t => Removes fs type path failed t) E fs := by
  have hchild : ∀ {d name}, Upper (fs.sys.tree fs.sys.ibm.inUse) path d name →
      fs.view.tree.child d name = (fs.sys.tree fs.sys.ibm.inUse).child d name := by
    intro d name hup
    obtain ⟨_, _, _, _, _, hdir⟩ := hup
    exact NameTree.child_trim hdir
  have hclean : ∀ j n, fs.sys.icac.node j = some n → n.deleted = false :=
    fun _ _ => h.volume.toTreeOk.clean
  by_cases hcheck : pathCheck path = true
  · refine Exec.wp_zoom.mpr (wp_onUpper_marks hw hcheck hne h.volume
      (fun d name hdir => ?_) hE ?_ ?_)
    · have hself := hloop d name
      rwa [show fs.view.tree.child d name = _ from NameTree.child_trim hdir] at hself
    · intro mid after s hmarks hno
      obtain ⟨hview, hrefcnt, hunmarked⟩ := h.marks (t := { fs with sys := s }) hmarks rfl
      refine ⟨hview, iff_of_false (fun hfalse => by cases hfalse) ?_, hclean,
        fun hfalse => (by cases hfalse), fun _ j => hunmarked j (Set.notMem_empty j),
        fun j => ?_⟩
      · rintro ⟨i, d, name, hup, hi, hremovable⟩
        have hup' := upper_view.mp hup
        rw [hchild hup'] at hi
        exact hno d name i hup' hi hremovable
      · have hcount := hrefcnt j
        change s.refcnt j = _ at hcount
        change _ ≤ s.refcnt j
        omega
    · intro d name i ip mid s hmarks hup hi hremovable hdeleted
      obtain ⟨hview, hrefcnt, hunmarked⟩ := h.marks (t := { fs with sys := s }) hmarks rfl
      have hmay : fs.MayRemove type path i :=
        ⟨d, name, upper_view.mpr hup, (hchild hup).trans hi, hremovable⟩
      refine ⟨hview, iff_of_true rfl ⟨i, hmay⟩, hclean,
        fun _ => ⟨i, hmay, hdeleted, hunmarked, fun j => ?_⟩, fun hfalse => (by cases hfalse),
        fun j => ?_⟩
      · rw [hrefcnt j, ← Multiset.cons_zero, Multiset.countP_cons, Multiset.countP_zero, zero_add]
        simp only [eq_comm]
      · have hcount := hrefcnt j
        change s.refcnt j = _ at hcount
        change _ ≤ s.refcnt j
        omega
  · have hnone : ∀ i, ¬fs.MayRemove type path i := by
      rintro i ⟨d, name, ⟨names, _, hpath, _⟩, _⟩
      exact hcheck hpath.pathCheck
    refine Exec.wp_zoom.mpr (Exec.wp_ite.mpr ⟨fun _ => ?_, fun hgood => ?_⟩)
    · exact ⟨rfl, iff_of_false (fun hfalse => by cases hfalse) fun ⟨i, hi⟩ => hnone i hi, hclean,
        fun hfalse => (by cases hfalse), fun _ => hclean, fun _ => le_rfl⟩
    · simp [hcheck] at hgood

/-- At any time in the life of a volume `rmfile` and `rmdir` return when they find room. They
succeed when the path leads to a file, or to a directory without entries, and even then no name, no
byte and no handle is gone. -/
theorem removals_only_mark (hw : w.Reliable) (h : fs.Mounted w) (hloop : NoLoop fs.view)
    (hrun : Run (VolumeStep w sha256Sb) fs cs fs')
    (hdefined : Always (VolumeStep w sha256Sb) (fun fs c _ => c.Defined fs) fs cs)
    (hne : path ≠ []) (junk : Leftover) :
    Exec.Wp (rmfile w junk path) (fun failed t => Removes fs' inodeTpFile path failed t)
        (fun e => ¬fs'.sys.RoomAbove False path 1 ∧ e.NoRoom) fs' ∧
      Exec.Wp (rmdir w junk path) (fun failed t => Removes fs' inodeTpDir path failed t)
        (fun e => ¬fs'.sys.RoomAbove False path 1 ∧ e.NoRoom) fs' := by
  obtain ⟨_, kept, hok⟩ := volume_steps hw h.ok hrun hdefined
  have hloop' := volume_noLoop hw h.ok hrun hdefined hloop
  exact ⟨wp_removes hw hok hloop' hne fun hcrowded _ he => ⟨hcrowded, he⟩,
    wp_removes hw hok hloop' hne fun hcrowded _ he => ⟨hcrowded, he⟩⟩

/-- The root of the empty volume has no entries. -/
theorem freshFs_noLoop : NoLoop freshFs.view := by
  intro d name heq
  have hlive : freshFs.sys.ibm.inUse = {0} :=
    InodeBitmap.inUse_eq (by rw [Finset.coe_singleton]; exact freshVolume_used)
  have hempty : (freshFs.sys.spread {0}).file 0 = [] := freshVolume_emptyVolume.file
  change (freshFs.sys.tree freshFs.sys.ibm.inUse).trim.child d name = some d at heq
  rw [hlive] at heq
  by_cases hdir : (freshFs.sys.tree {0}).isDir d
  · obtain rfl := Finset.mem_singleton.mp hdir.1
    rw [NameTree.child_trim hdir, child_tree, Sys.entries, hempty] at heq
    cases heq
  · rw [NameTree.child_trim_of_not hdir] at heq
    cases heq

/-- The file `/a` is made, and `rmfile` of it returns 0. -/
theorem removals_only_mark_fresh : ∃ fs' t,
    rmfile World.plain ⟨none, 0⟩ [slash, 97#8] fs' = .ok (false, t) ∧
      Removes fs' inodeTpFile [slash, 97#8] false t := by
  obtain ⟨⟨fp, fs'⟩, hopen, hcheck⟩ := exists_of_check
    (x := fopen World.plain ⟨none, 0⟩ [slash, 97#8] (oRdwr ||| oCreate) freshFs)
    (p := fun r => r.1 = some 0 &&
      (rmfile World.plain ⟨none, 0⟩ [slash, 97#8] r.2).toOption.any fun r => !r.1)
    (by decide +kernel)
  simp only [Bool.and_eq_true, decide_eq_true_eq] at hcheck
  obtain ⟨rfl, hcheck⟩ := hcheck
  obtain ⟨⟨failed, t⟩, hremove, hdone⟩ := exists_of_check hcheck
  obtain rfl : failed = false := by simpa using hdone
  have hrun : Run (VolumeStep World.plain fun _ => Bytes.zero) freshFs
      [.call (.fopen ⟨none, 0⟩ [slash, 97#8] (oRdwr ||| oCreate) (some 0))] fs' :=
    .cons hopen (.nil fs')
  have hremoval := removals_only_mark World.plain_reliable freshFs_mounted freshFs_noLoop hrun
    (Always.cons_iff.mpr fun _ _ => ⟨Or.inr rfl, .nil _⟩) (List.cons_ne_nil slash [97#8]) ⟨none, 0⟩
  exact ⟨fs', t, hremove, hremoval.1.of_ok hremove⟩

end

end Efs
