import Efs.DirectoryTree
import Efs.Paths

/-!
# Resolution of paths

`inode_get` follows the names of its path in the tree of directories, and makes a file
only when the last name is the one that is missing.
-/

namespace Efs

open Library

/-- The state while the inode `d` is locked through the pointer `ip`. -/
structure Sys.Inside (w : World) (live : Finset ℕ) (d ip : ℕ) (s : Sys) : Prop where
  /-- The tree of directories. -/
  ok : s.TreeOk w live
  /-- The inode is held. -/
  borrowed : s.Borrowed d ip
  /-- No other inode is locked. -/
  unlockedBut : s.UnlockedBut d

/-- What `inode_get` returns from the inode `i` on, and what it leaves: the inode that the names
lead to, a new file when only the last name is missing, or a null pointer. Of the loans `before`
only the pointer that it returns is left. -/
inductive Got (live : Finset ℕ) (before : Multiset (ℕ × ℕ)) (s : Sys) (type : ℕ) (alloc : Bool)
    (i : ℕ) (names : List CStr) : Option ℕ → Finset ℕ → Sys → Prop
  /-- The names lead to an inode of the type. -/
  | found {iid ip : ℕ} {s' : Sys} : (s.tree live).Leads i names iid → s.HasType live type iid →
      s'.Borrowed iid ip → Unchanged live s s' → Lends before {(iid, ip)} s s' →
      Got live before s type alloc i names (some ip) live s'
  /-- The last name was missing. -/
  | made {d iid ip : ℕ} {name : CStr} {s' : Sys} : alloc = true →
    (s.tree live).Misses i names d name →
      Added live d iid name type s s' → s'.Borrowed iid ip → Lends before {(iid, ip)} s s' →
      Got live before s type alloc i names (some ip) (insert iid live) s'
  /-- There is no such inode, and none was to be made. -/
  | missing {s' : Sys} : (∀ iid, (s.tree live).Leads i names iid → ¬s.HasType live type iid) →
      (alloc = true → (∃ d name, (s.tree live).Misses i names d name) → s.ibm.freeIids = ∅) →
      Unchanged live s s' → Lends before 0 s s' → Got live before s type alloc i names none live s'

section

variable {w : World} {E : Halt → Prop} {live live' : Finset ℕ} {s s₁ s' : Sys} {d i iid ip type : ℕ}
  {name : CStr} {names : List CStr} {junk : Leftover} {alloc : Bool} {r : Option ℕ}
    {a b : Multiset (ℕ × ℕ)}

/-! ## The lock of a directory -/

/-- A visit leaves a directory that is still borrowed. -/
theorem Visited.inside (hv : Visited w live d s s') (hb : s'.Borrowed d ip)
    (h : s.Inside w live d ip) : s'.Inside w live d ip :=
  ⟨hv.treeOk h.ok, hb, hv.unlockedBut h.unlockedBut⟩

/-- After all numbers are used the lock of the bitmap stays held. -/
theorem Sys.TreeOk.lockIbm (h : s.TreeOk w live) (hempty : s.ibm.freeIids = ∅) :
    ({ s with ibm := { s.ibm with ibmLock := true } } : Sys).TreeOk w live :=
  ⟨h.sound.aside _ s.keys, h.within, h.root, h.rootDir, h.type, h.used,
    ⟨h.search.below, fun _ => hempty⟩,
    fun d hd => ⟨(h.dirs d hd).whole, (h.dirs d hd).distinct, (h.dirs d hd).child,
      (h.dirs d hd).few⟩⟩

/-- What is added after nothing changed is added. -/
theorem Added.of_same (hsame : Unchanged live s s₁) (h : Added live d iid name type s₁ s') :
    Added live d iid name type s s' := by
  refine ⟨h.new, ?_, ?_, ?_, fun i hi => (h.types i hi).trans (hsame.type i hi), ?_, h.type⟩
  · rw [InodeBitmap.freeIids, ← hsame.used]
    exact h.free
  · rw [h.used, hsame.used]
  · rw [h.file, hsame.file_eq]
  · rw [h.tree, hsame.tree_eq]

/-- What is added before nothing changes is added. -/
theorem Added.trans_same (h : Added live d iid name type s s₁)
    (hsame : Unchanged (insert iid live) s₁ s') :
    Added live d iid name type s s' := by
  refine ⟨h.new, h.free, hsame.used.trans h.used, ?_, fun i hi => ?_, ?_, ?_⟩
  · rw [hsame.file_eq, h.file]
  · exact (hsame.type i (Finset.mem_insert_of_mem hi)).trans (h.types i hi)
  · rw [hsame.tree_eq, h.tree]
  · exact (hsame.type iid (Finset.mem_insert_self iid live)).trans h.type

/-- A result from a state with the same files. -/
theorem Got.of_same (hsame : Unchanged live s s₁) (hlends : Lends a b s s₁)
    (h : Got live b s₁ type alloc i names r live' s') :
      Got live a s type alloc i names r live' s' := by
  cases h with
  | found hleads htype hb hfiles hrest =>
    rw [hsame.tree_eq] at hleads
    exact .found hleads (hsame.hasType_iff.mp htype) hb (hsame.trans hfiles) (hlends.trans hrest)
  | made halloc hmiss hadded hb hrest =>
    rw [hsame.tree_eq] at hmiss
    exact .made halloc hmiss (hadded.of_same hsame) hb (hlends.trans hrest)
  | missing hno hfull hfiles hrest =>
    rw [hsame.tree_eq] at hno hfull
    rw [InodeBitmap.freeIids, hsame.used] at hfull
    exact .missing (fun iid hleads htype => hno iid hleads (hsame.hasType_iff.mpr htype)) hfull
      (hsame.trans hfiles) (hlends.trans hrest)

variable (hw : w.Reliable)

include hw

/-! ## Creations -/

/-- The rule for `inode_new` in a directory: the name is taken, all numbers are in use, or a new
inode was made. -/
theorem wp_inodeNew_inside (h : s.Inside w live d ip) (hdir : (s.tree live).isDir d)
    (hlen : name.length ≤ dirnameMaxLen) (hzero : ∀ c ∈ name, c ≠ 0)
    (htype : type = inodeTpDir ∨ type = inodeTpFile)
    (hjunk : s.ibm.ibmFirstEmptyWord < 512 ∨ junk.tmp = none) (hlock : s.ibm.ibmLock = true →
      E .deadlock)
    (hE : ¬(s.icac.Roomy 0 ∧ s.Roomy 1 ∧ s.HasBlocks 4) → ∀ e : Halt, e.NoRoom → E e)
    {Q : ℕ → Sys → Prop}
    (hold : ∀ s', s'.Inside w live d ip → Unchanged live s s' → Lends 0 0 s s' →
      (∀ n, s.Roomy n → s'.Roomy n) →
      (s.tree live).child d name ≠ none ∨ s.ibm.freeIids = ∅ → Q 0 s')
    (hnew : ∀ iid s', s'.Inside w (insert iid live) d ip → Added live d iid name type s s' →
      Lends 0 0 s s' →
      (∀ n, s.Roomy (n + 1) → s'.Roomy n) → (s.tree live).child d name = none → Q iid s') :
    Exec.Wp (inodeNew w junk ip name type) Q E s := by
  have hgood := h.ok.dirs d hdir
  have hlt : type < 2 ^ 16 := by
    rcases htype with rfl | rfl
    · decide
    · decide
  refine Exec.wp_bind.mpr (wp_inodeNewGet_created hw (fun hcrowded => hE fun hroom => hcrowded
    ⟨hroom.2.1, fun _ => hroom.2.2.roomToCreate hroom.1 hroom.2.1 _ _⟩) h.ok.sound
      h.ok.within hdir.1
    h.borrowed h.ok.used (h.ok.used 0 h.ok.zero_mem) hlen hlt hgood.whole (hgood.limit h.ok.sound)
    hjunk hlock ?_ ?_ ?_)
  · intro s' hfound hv hsc
    refine hold s' (hv.inside (NodeStays.borrowed (Or.inl (hsc.kept d)) h.borrowed) h) hv.unchanged
      hsc.lends (fun n hroom => hsc.widens.beside.held.roomy hroom) (Or.inl ?_)
    exact mt nameMap_eq_none.mp hfound
  · intro s' _ hall hv hsc
    have hempty : s.ibm.freeIids = ∅ := h.ok.search.below.freeIds_eq_empty_of_search hall
    have hin := hv.inside (NodeStays.borrowed (Or.inl (hsc.kept d)) h.borrowed) h
    refine hold _ ⟨hin.ok.lockIbm ?_, hin.borrowed, hin.unlockedBut⟩
      ⟨⟨hv.files.type, hv.files.file⟩, hv.unchanged.used, hv.unchanged.hint⟩ hsc.lends
      (fun n hroom => (hsc.widens.beside.held.roomy hroom : s'.Roomy n)) (Or.inr hempty)
    rw [hv.ibm_eq]
    exact hempty
  · intro iid newip s₁ hfree hc
    have hnone : (s.tree live).child d name = none := nameMap_eq_none.mpr hfree
    have hok := hc.treeOk h.ok hdir hlen hzero hnone htype
    have hne : d ≠ iid := by
      rintro rfl
      exact (hc.new h.ok).1 hdir.1
    obtain ⟨n, inode, _, _, _, hp, hiid⟩ := hc.borrowed.pointsTo hok.sound.stored hok.sound.full
    refine Exec.wp_bind.mpr (wp_inodeAt hok.sound.stored.icac hp ?_)
    refine Exec.wp_bind.mpr (wp_inodeReturn_passed hw hok.sound hok.within
      (Finset.mem_insert_self iid live) hc.borrowed hc.unlocked fun s₂ hv hself => ?_)
    rw [Exec.wp_pure, hiid]
    refine hnew iid s₂ ⟨hv.treeOk hok, ?_, fun i hi n hn => ?_⟩ ?_
      ((hc.lends h.ok.sound h.ok.within (hc.new h.ok).1).trans hv.lends) (fun n hroom => ?_) hnone
    · exact (hv.node d hne).borrowed ((hc.node d hne).borrowed h.borrowed)
    · by_cases hnewi : i = iid
      · exact hself n (hnewi ▸ hn)
      · exact ((hc.node i hnewi).trans (hv.node i hnewi)).locked_eq (h.unlockedBut i hi) hn
    · exact (hc.added h.ok hdir hlen hzero hnone).trans_same hv.unchanged
    · refine (hv.toVisited.spends_none hok.sound hc.borrowed).roomy n ?_
      rw [Nat.zero_add]
      exact hc.held.roomy_of_one hroom

/-! ## One level -/

/-- The rule for one level of `inode_get`: the child, a new file for the last name, or none. The
number 0 of a failed creation is that of the root. -/
theorem wp_inodeGetStep_inside (h : s.Inside w live d ip) (hdir : (s.tree live).isDir d)
    (hname : Component name) {rest : CStr}
    (hjunk : alloc = true → s.ibm.ibmFirstEmptyWord < 512 ∨ junk.tmp = none)
    (hlock : alloc = true → s.ibm.ibmLock = true → E .deadlock)
    (hE : ¬(s.icac.Roomy 0 ∧ s.Roomy 1 ∧
      ((s.tree live).child d name = none → rest = [] → alloc = true →
      s.HasBlocks 4)) → ∀ e : Halt, e.NoRoom → E e) {Q : Option ℕ → Sys → Prop}
    (hfound : ∀ iid s', (s.tree live).child d name = some iid → Passed w live d 0 0 s s' →
      s'.Inside w live d ip → Q (some iid) s')
    (hmade : ∀ iid s', (s.tree live).child d name = none → rest = [] → alloc = true →
      s'.Inside w (insert iid live) d ip → Added live d iid name inodeTpFile s s' → Lends 0 0 s s' →
      (∀ n, s.Roomy (n + 1) → s'.Roomy n) → Q (some iid) s')
    (hfull : ∀ s', (s.tree live).child d name = none → rest = [] → alloc = true →
      s.ibm.freeIids = ∅ → s'.Inside w live d ip → Unchanged live s s' → Lends 0 0 s s' →
      (∀ n, s.Roomy n → s'.Roomy n) → Q (some 0) s')
    (hmissing : ∀ s', (s.tree live).child d name = none → ¬(rest = [] ∧ alloc = true) →
      s'.Inside w live d ip → Unchanged live s s' → Lends 0 0 s s' → Q none s') :
    Exec.Wp (inodeGetStep w junk alloc ip name (some rest)) Q E s := by
  have hgood := h.ok.dirs d hdir
  refine Exec.wp_bind.mpr (Exec.wp_bind.mpr (wp_dirents_visited hw h.ok.sound h.ok.within hdir.1
    (fun hcrowded => hE fun hroom => hcrowded hroom.2.1) h.borrowed hgood.whole
    fun empty s₁ hv hsc _ => ?_))
  have h₁ := hv.inside (NodeStays.borrowed (Or.inl (hsc.kept d)) h.borrowed) h
  cases hchild : (s.tree live).child d name with
  | some iid =>
    have hfind : (Table.lookup direntKey name ((s.spread live).entries d)).map direntIid =
      some iid := hchild
    rw [hfind, Exec.wp_pure]
    refine Exec.wp_ite.mpr ⟨fun _ => hfound iid s₁ hchild ⟨hv, hsc.lends⟩ h₁, fun hiid => ?_⟩
    exact absurd (ne_zero_of_nameMap hfind) hiid
  | none =>
    have hfind : (Table.lookup direntKey name ((s.spread live).entries d)).map direntIid =
      none := hchild
    rw [hfind, Exec.wp_pure]
    refine Exec.wp_ite.mpr ⟨fun hzero => absurd rfl hzero, fun _ => ?_⟩
    refine Exec.wp_ite.mpr ⟨fun hlast => ?_,
      fun hlast => hmissing s₁ hchild hlast h₁ hv.unchanged hsc.lends⟩
    have hibm := hv.ibm_eq
    rw [← hibm] at hjunk hlock
    have hdir₁ : (s₁.tree live).isDir d := by
      rw [hv.files.tree_eq]
      exact hdir
    have hheld : ∀ n, s.Roomy n → s₁.Roomy n := fun n hroom => hsc.widens.beside.held.roomy hroom
    refine Exec.wp_bind.mpr (wp_inodeNew_inside hw h₁ hdir₁ hname.length_le hname.validName.nonzero
      (Or.inr rfl) (hjunk hlast.2) (hlock hlast.2) (fun hcrowded => hE fun hroom => hcrowded
        ⟨hroom.1.of_stays fun i => Or.inl (hsc.kept i), hheld 1 hroom.2.1,
          (hroom.2.2 hchild hlast.1 hlast.2).mono hv.openDids⟩) ?_ ?_)
    · intro s₂ h₂ hsame hlends hheld₂ hwhy
      rw [hv.files.tree_eq, hibm] at hwhy
      exact hfull s₂ hchild hlast.1 hlast.2 (hwhy.resolve_left fun hne => hne hchild) h₂
        (hv.unchanged.trans hsame) (hsc.lends.trans hlends) fun n hroom => hheld₂ n (hheld n hroom)
    · intro iid s₂ h₂ hadded hlends hheld₂ _
      exact hmade iid s₂ hchild hlast.1 hlast.2 h₂ (hadded.of_same hv.unchanged)
        (hsc.lends.trans hlends) fun n hroom => hheld₂ n (hheld _ hroom)

/-! ## The loop -/

/-- The rule for the exit `error` of `inode_get`. -/
theorem wp_inodeGetError_inside (h : s.Inside w live i ip) (hmem : i ∈ live)
    {Q : Option ℕ → Sys → Prop}
    (hQ : ∀ s', Passed w live i {(i, ip)} 0 s s' → s'.VolumeOk w live → Q none s') :
    Exec.Wp (inodeGetError w ip) Q E s :=
  Exec.wp_bind.mpr (wp_inodeUnlockReturn_passed hw h.ok.sound h.ok.within hmem h.borrowed
    h.unlockedBut fun s' hv hun => hQ s' hv ⟨hv.treeOk h.ok, hun⟩)

/-- The rule for the lock and the check of the type that each level begins with. -/
theorem wp_lockedType (h : s.VolumeOk w live) (hmem : i ∈ live) (hb : s.Borrowed i ip)
    {x : Inode → Exec Halt Sys (Option ℕ)} {Q : Option ℕ → Sys → Prop}
    (hQ : ∀ s' inode, Passed w live i 0 0 s s' → s'.Inside w live i ip →
      (∀ t, inode.type = t ↔ s.HasType live t i) → Exec.Wp (x inode) Q E s') :
    Exec.Wp (do
      let _ ← inodeLock w ip
      let inode ← inodeAt ip
      x inode) Q E s := by
  refine Exec.wp_bind.mpr (wp_inodeLock_passed hw h.sound h.within hmem hb h.unlocked
    fun s' hv hb' hun => ?_)
  obtain ⟨n, inode, _, _, _, hp, _⟩ := hb'.pointsTo hv.sound.stored hv.sound.full
  refine Exec.wp_bind.mpr (wp_inodeAt hv.sound.stored.icac hp
    (hQ s' inode hv ⟨hv.treeOk h.toTreeOk, hb', hun⟩ fun t => ?_))
  rw [← hv.files.hasType_iff, ← type_of_pointsTo hp]
  exact (and_iff_right hmem).symm

/-- The rule for the end of `inode_get`. -/
theorem wp_inodeGetEnd_visited (h : s.VolumeOk w live) (hmem : i ∈ live) (hb : s.Borrowed i ip)
    {Q : Option ℕ → Sys → Prop}
    (hfound : ∀ s', s.HasType live type i → s'.VolumeOk w live → s'.Borrowed i ip →
      Unchanged live s s' → Lends 0 0 s s' → Spends 0 s s' → Q (some ip) s')
    (hmissing : ∀ s', ¬s.HasType live type i → s'.VolumeOk w live → Unchanged live s s' →
      Lends {(i, ip)} 0 s s' → Q none s') :
    Exec.Wp (inodeGetEnd w ip type) Q E s := by
  refine wp_lockedType hw h hmem hb fun s₁ inode hv hin htype => ?_
  refine Exec.wp_ite.mpr ⟨fun hne => ?_, fun heq => ?_⟩
  · exact wp_inodeGetError_inside hw hin hmem fun s₂ hv₂ hok =>
      hmissing s₂ (mt (htype type).mpr hne) hok (hv.toVisited.trans hv₂.toVisited).unchanged
        ((hv.lends.keep _).trans hv₂.lends)
  · exact Exec.wp_bind.mpr (wp_inodeUnlock_passed hw hin.ok.sound hin.ok.within hmem hin.borrowed
      hin.unlockedBut fun s₂ hv₂ hb₂ hun => hfound s₂ ((htype type).mp (not_not.mp heq))
        ⟨hv₂.treeOk hin.ok, hun⟩ hb₂ (hv.trans hv₂).unchanged (hv.trans hv₂).lends
        ((hv.trans hv₂).toVisited.spends_none h.sound hb))

/-- The rule for the hand-over from a directory to a child. -/
theorem wp_handOver (h : s.Inside w live d ip) (hd : d ∈ live) (hi : i ∈ live)
    (hE : ¬(s.FewOnLoan 1 {(d, ip)} ∧ s.Roomy 0) → ∀ e : Halt, e.NoRoom → E e)
    {Q : Option ℕ → Sys → Prop} {x : ℕ → Exec Halt Sys (Option ℕ)}
    (hQ : ∀ ip' s', s'.VolumeOk w live → s'.Borrowed i ip' → Unchanged live s s' → s'.ibm = s.ibm →
      Lends {(d, ip)} {(i, ip')} s s' → Spends 1 s s' → Exec.Wp (x ip') Q E s') :
    Exec.Wp (do
      let _ ← inodeUnlockReturn w ip
      match ← igetFromCache w i false with
      | none => inodeGetError w ip
      | some tmp => x tmp) Q E s := by
  refine Exec.wp_bind.mpr (wp_inodeUnlockReturn_passed hw h.ok.sound h.ok.within hd h.borrowed
    h.unlockedBut fun s₁ hv hun => ?_)
  have hspends := hv.toVisited.spends_none h.ok.sound h.borrowed
  refine Exec.wp_bind.mpr (wp_igetFromCache_passed hw hv.sound hv.within hi (fun hcrowded => hE
    fun hroom => hcrowded ⟨?_, hspends.roomy 0 hroom.2⟩) hun fun ip' s₂ hv₂ hb hun₂ => ?_)
  · exact (hv.lends.fewOnLoan hroom.1).roomy (Nat.zero_le 1)
  refine hQ ip' s₂ ⟨hv₂.treeOk (hv.treeOk h.ok), hun₂⟩ hb (hv.unchanged.trans hv₂.unchanged) ?_
    (hv.lends.trans hv₂.lends) (hspends.trans hv₂.toVisited.spends)
  rw [hv₂.ibm_eq, hv.ibm_eq]

omit hw in
/-- A result from a child. -/
theorem Got.cons (hdir : (s.tree live).isDir i) {j : ℕ}
    (hchild : (s.tree live).child i name = some j)
    (h : Got live a s type alloc j names r live' s') : Got live a s type alloc i
      (name :: names) r live' s' := by
  cases h with
  | found hleads htype hb hfiles hlends =>
    exact .found (.cons hdir hchild hleads) htype hb hfiles hlends
  | made halloc hmiss hadded hb hlends =>
    exact .made halloc ((NameTree.misses_cons_of_child hdir hchild).mpr hmiss) hadded hb hlends
  | missing hno hfull hfiles hlends =>
    refine .missing (fun iid hleads => ?_) (fun halloc hmiss => hfull halloc ?_) hfiles hlends
    · obtain ⟨_, j', hchild', hrest⟩ := NameTree.leads_cons.mp hleads
      rw [hchild] at hchild'
      cases hchild'
      exact hno iid hrest
    · obtain ⟨d, k, hmiss⟩ := hmiss
      exact ⟨d, k, (NameTree.misses_cons_of_child hdir hchild).mp hmiss⟩

omit hw in
/-- No names lead to the inode itself. -/
theorem Got.self_missing (hno : ¬s.HasType live type i) (hfiles : Unchanged live s s')
    (hlends : Lends a 0 s s') : Got live a s type alloc i [] none live s' := by
  refine .missing (fun iid hleads => ?_) ?_ hfiles hlends
  · rw [← NameTree.leads_nil.mp hleads]
    exact hno
  · rintro _ ⟨d, name, hmiss⟩
    exact absurd hmiss NameTree.not_misses_nil

omit hw in
/-- The first name means nothing. -/
theorem Got.missing_child (hnone : (s.tree live).child i name = none)
    (hlast : alloc = true → names = [] → s.ibm.freeIids = ∅) (hfiles : Unchanged live s s')
    (hlends : Lends a 0 s s') : Got live a s type alloc i (name :: names) none live s' := by
  refine .missing (fun iid hleads => ?_) (fun halloc hmiss => ?_) hfiles hlends
  · obtain ⟨_, j, hchild, _⟩ := NameTree.leads_cons.mp hleads
    rw [hnone] at hchild
    cases hchild
  · obtain ⟨d, k, hmiss⟩ := hmiss
    by_cases hnames : names = []
    · exact hlast halloc hnames
    · obtain ⟨_, j, hchild, _⟩ := (NameTree.misses_cons hnames).mp hmiss
      rw [hnone] at hchild
      cases hchild

omit hw in
/-- Only the path of no names ends after its first slash. -/
theorem drop_joinPath_eq_nil (hnames : ∀ name ∈ names, Component name) :
    (joinPath names).drop 1 = [] ↔ names = [] := by
  cases names with
  | nil => simp
  | cons name names =>
    have hne := (hnames name List.mem_cons_self).ne_nil
    simp [hne]

/-- The rule for the rest of `inode_get` when the last name was missing and has a new file. -/
theorem wp_inodeGetNames_made {iid : ℕ} (h : s₁.Inside w (insert iid live) i ip) (hmem : i ∈ live)
    (hdir : (s.tree live).isDir i) (hnone : (s.tree live).child i name = none)
    (hadded : Added live i iid name inodeTpFile s s₁) (hlends : Lends {(i, ip)} {(i, ip)} s s₁)
    (hE : ¬(s₁.FewOnLoan 1 {(i, ip)} ∧ s₁.Roomy 0) → ∀ e : Halt, e.NoRoom → E e) :
    Exec.Wp (do
        let _ ← inodeUnlockReturn w ip
        match ← igetFromCache w iid false with
        | none => inodeGetError w ip
        | some tmp => inodeGetNames w junk inodeTpFile true [] tmp)
      (fun r s' => ∃ live', s'.VolumeOk w live' ∧
        Got live {(i, ip)} s inodeTpFile true i [name] r live' s') E s₁ := by
  refine wp_handOver hw h (Finset.mem_insert_of_mem hmem) (Finset.mem_insert_self iid live) hE
    fun ip' s₂ h₂ hb hsame _ hover _ => ?_
  have hnew := hadded.trans_same hsame
  have hlent := hlends.trans hover
  apply wp_inodeGetEnd_visited hw h₂ (Finset.mem_insert_self iid live) hb
  · intro s₃ _ hok hb₃ hfiles hkeeps _
    exact ⟨_, hok, .made rfl (NameTree.misses_singleton.mpr ⟨rfl, rfl, hdir, hnone⟩)
      (hnew.trans_same hfiles) hb₃ (hlent.trans (hkeeps.keep _))⟩
  · intro s₃ hno
    exact absurd ⟨Finset.mem_insert_self iid live, hnew.type⟩ hno

/-- The rule for the rest of `inode_get` when the last name was missing and all numbers are used:
it goes on at the root, which is no file. -/
theorem wp_inodeGetNames_full (h : s₁.Inside w live i ip) (hmem : i ∈ live)
    (hnone : (s.tree live).child i name = none) (hempty : s.ibm.freeIids = ∅)
    (hsame : Unchanged live s s₁) (hlends : Lends {(i, ip)} {(i, ip)} s s₁)
    (hE : ¬(s₁.FewOnLoan 1 {(i, ip)} ∧ s₁.Roomy 0) → ∀ e : Halt, e.NoRoom → E e) :
    Exec.Wp (do
        let _ ← inodeUnlockReturn w ip
        match ← igetFromCache w 0 false with
        | none => inodeGetError w ip
        | some tmp => inodeGetNames w junk inodeTpFile true [] tmp)
      (fun r s' => ∃ live', s'.VolumeOk w live' ∧
        Got live {(i, ip)} s inodeTpFile true i [name] r live' s') E s₁ := by
  refine wp_handOver hw h hmem h.ok.zero_mem hE fun ip' s₂ h₂ hb hsame₂ _ hover _ => ?_
  have hfiles := hsame.trans hsame₂
  have hlent := hlends.trans hover
  apply wp_inodeGetEnd_visited hw h₂ h.ok.zero_mem hb
  · intro s₃ hfile
    have hroot := h₂.rootDir.2
    rw [hfile.2] at hroot
    cases hroot
  · intro s₃ _ hok hfiles₃ hback
    exact ⟨live, hok, .missing_child hnone (fun _ _ => hempty) (hfiles.trans hfiles₃)
      (hlent.trans hback)⟩

/-- The rule for the loop of `inode_get` over a list of names. -/
theorem wp_inodeGetNames_got (halloc : alloc = true → type = inodeTpFile)
    (hjunk : alloc = true → s.ibm.ibmFirstEmptyWord < 512 ∨ junk.tmp = none)
    (hlock : alloc = true → s.ibm.ibmLock = true → E .deadlock) (h : s.VolumeOk w live)
      (hmem : i ∈ live)
    (hb : s.Borrowed i ip) (hnames : ∀ name ∈ names, Component name)
    (hE : ¬s.RoomToWalk (alloc = true ∧ ∃ d k, (s.tree live).Misses i names d k) {(i, ip)}
      names.length → ∀ e : Halt, e.NoRoom → E e) :
    Exec.Wp (inodeGetNames w junk type alloc names ip)
      (fun r s' => ∃ live', s'.VolumeOk w live' ∧
        Got live {(i, ip)} s type alloc i names r live' s' ∧
        (alloc = false → r ≠ none → Spends names.length s s')) E s := by
  induction names generalizing s i ip with
  | nil =>
    apply wp_inodeGetEnd_visited hw h hmem hb
    · intro s' htype hok hb' hfiles hlends hspends
      exact ⟨live, hok, .found (.nil i) htype hb' hfiles (hlends.keep _), fun _ _ => hspends⟩
    · exact fun s' hno hok hfiles hlends =>
        ⟨live, hok, .self_missing hno hfiles hlends, fun _ hsome => absurd rfl hsome⟩
  | cons name names ih =>
    have hname := hnames name List.mem_cons_self
    have hrest : ∀ name ∈ names, Component name := fun a ha => hnames a (List.mem_cons_of_mem _ ha)
    refine wp_lockedType hw h hmem hb fun s₁ inode hv hin htype => ?_
    refine Exec.wp_ite.mpr ⟨fun hne => ?_, fun heq => ?_⟩
    · -- The inode is no directory.
      have hno : ¬(s.tree live).isDir i := mt (htype inodeTpDir).mpr hne
      refine wp_inodeGetError_inside hw hin hmem fun s₂ hv₂ hok => ⟨live, hok, .missing ?_ ?_
        (hv.toVisited.trans hv₂.toVisited).unchanged ((hv.lends.keep _).trans hv₂.lends),
        fun _ hsome => absurd rfl hsome⟩
      · exact fun iid hleads _ => hno (NameTree.leads_cons.mp hleads).1
      · rintro _ ⟨d, k, hmiss⟩
        exact absurd hmiss.isDir hno
    have hdir : (s.tree live).isDir i := (htype inodeTpDir).mp (not_not.mp heq)
    have htree := hv.files.tree_eq
    have hibm := hv.ibm_eq
    have hdir₁ : (s₁.tree live).isDir i := by
      rw [htree]
      exact hdir
    have hspends₁ := hv.toVisited.spends_none h.sound hb
    refine Exec.wp_bind.mpr (wp_inodeGetStep_inside hw hin hdir₁ hname ?_ ?_ (fun hcrowded => hE
      fun hroom => hcrowded ?_) ?_ ?_ ?_ ?_)
    · rw [hibm]
      exact hjunk
    · rw [hibm]
      exact hlock
    · have hroom₁ := hroom.keep hspends₁ (hv.lends.keep _) id
      refine ⟨(hroom₁.hasRoom (by simp)).icac, hroom₁.bcac.mono (by simp),
        fun hnone hlast hmake => ?_⟩
      obtain rfl : names = [] := (drop_joinPath_eq_nil hrest).mp hlast
      rw [htree] at hnone
      exact hroom₁.blocks ⟨hmake, i, name, NameTree.misses_singleton.mpr ⟨rfl, rfl, hdir, hnone⟩⟩
    · intro iid s₂ hchild hv₂ hin₂
      rw [htree] at hchild
      have hmem' : iid ∈ live := (h.dirs i hdir).child name iid hchild
      have hspends₂ := (hv.trans hv₂).toVisited.spends_none h.sound hb
      have hlends₂ := (hv.trans hv₂).lends.keep {(i, ip)}
      refine wp_handOver hw hin₂ hmem hmem' (fun hcrowded => hE fun hroom => hcrowded
        ⟨hlends₂.fewOnLoan hroom.icac, hspends₂.roomy 0 (hroom.bcac.mono (by simp))⟩)
        fun ip' s₃ h₃ hb₃ hsame hibm₃ hover hspends₃ => ?_
      have hfiles := (hv.trans hv₂).unchanged.trans hsame
      have hibm' : s₃.ibm = s.ibm := hibm₃.trans (hv.trans hv₂).ibm_eq
      have hlength : 0 + 1 + names.length = (name :: names).length := by simp [Nat.add_comm]
      refine (ih (by rw [hibm']; exact hjunk) (by rw [hibm']; exact hlock) h₃ hmem' hb₃ hrest
        fun hcrowded => hE fun hroom => hcrowded ?_).imp fun r s' hpost => ?_
      · refine Sys.RoomToWalk.spend (hlength ▸ hroom) (hspends₂.trans hspends₃)
          (hlends₂.trans hover) fun hmake => ⟨hmake.1, ?_⟩
        obtain ⟨d, k, hmiss⟩ := hmake.2
        rw [hfiles.tree_eq] at hmiss
        exact ⟨d, k, (NameTree.misses_cons_of_child hdir hchild).mpr hmiss⟩
      · obtain ⟨live', hok, hgot, hspends⟩ := hpost
        refine ⟨live', hok, (hgot.of_same hfiles (hlends₂.trans hover)).cons hdir hchild,
          fun hmake hsome => ?_⟩
        rw [← hlength]
        exact (hspends₂.trans hspends₃).trans (hspends hmake hsome)
    · -- The last name was missing and has a new file.
      intro iid s₂ hnone hlast hmake hin₂ hadded hlends hheld
      obtain rfl : names = [] := (drop_joinPath_eq_nil hrest).mp hlast
      obtain rfl := halloc hmake
      subst hmake
      rw [htree] at hnone
      have hlends₂ := (hv.lends.trans hlends).keep {(i, ip)}
      refine (wp_inodeGetNames_made hw hin₂ hmem hdir hnone (hadded.of_same hv.unchanged) hlends₂
        fun hcrowded => hE fun hroom => hcrowded ⟨hlends₂.fewOnLoan hroom.icac,
          hheld 0 (hspends₁.roomy 1 hroom.bcac)⟩).imp fun r s' hgot => ?_
      obtain ⟨live', hok, hgot⟩ := hgot
      exact ⟨live', hok, hgot, fun hfalse => absurd hfalse.symm Bool.false_ne_true⟩
    · -- All numbers are used, and the root is no file.
      intro s₂ hnone hlast hmake hempty hin₂ hsame hlends hheld
      obtain rfl : names = [] := (drop_joinPath_eq_nil hrest).mp hlast
      obtain rfl := halloc hmake
      subst hmake
      rw [htree] at hnone
      rw [hibm] at hempty
      have hlends₂ := (hv.lends.trans hlends).keep {(i, ip)}
      refine (wp_inodeGetNames_full hw hin₂ hmem hnone hempty (hv.unchanged.trans hsame) hlends₂
        fun hcrowded => hE fun hroom => hcrowded ⟨hlends₂.fewOnLoan hroom.icac,
          hheld 0 (hspends₁.roomy 0 (hroom.bcac.mono (by simp)))⟩).imp fun r s' hgot => ?_
      obtain ⟨live', hok, hgot⟩ := hgot
      exact ⟨live', hok, hgot, fun hfalse => absurd hfalse.symm Bool.false_ne_true⟩
    · intro s₂ hnone hlast hin₂ hsame hlends
      rw [htree] at hnone
      refine wp_inodeGetError_inside hw hin₂ hmem fun s₃ hv₃ hok =>
        ⟨live, hok, .missing_child hnone (fun hmake hnil => ?_)
          ((hv.unchanged.trans hsame).trans hv₃.unchanged)
          (((hv.lends.trans hlends).keep _).trans hv₃.lends), fun _ hsome => absurd rfl hsome⟩
      exact absurd ⟨(drop_joinPath_eq_nil hrest).mpr hnil, hmake⟩ hlast

/-- The rule for `inode_get` over a list of names, from the root. -/
theorem wp_inodeGetPath_got (halloc : alloc = true → type = inodeTpFile)
    (hjunk : alloc = true → s.ibm.ibmFirstEmptyWord < 512 ∨ junk.tmp = none)
    (hlock : alloc = true → s.ibm.ibmLock = true → E .deadlock) (h : s.VolumeOk w live)
    (hnames : ∀ name ∈ names, Component name)
    (hE : ¬s.RoomToWalk (alloc = true ∧ ∃ d k, (s.tree live).Misses 0 names d k) 0
      (names.length + 1) → ∀ e : Halt, e.NoRoom → E e) :
    Exec.Wp (inodeGetPath w junk names type alloc)
      (fun r s' => ∃ live', s'.VolumeOk w live' ∧ Got live 0 s type alloc 0 names r live' s' ∧
        (alloc = false → r ≠ none → Spends (names.length + 1) s s')) E s := by
  refine Exec.wp_bind.mpr (Exec.wp_read.mpr ?_)
  rw [h.root]
  refine Exec.wp_bind.mpr (wp_igetFromCache_passed hw h.sound h.within h.zero_mem (fun hcrowded =>
    hE fun hroom => hcrowded (hroom.hasRoom (by simp))) h.unlocked fun ip s₁ hv hb hun => ?_)
  have hspends := hv.toVisited.spends
  refine (wp_inodeGetNames_got hw halloc (by rw [hv.ibm_eq]; exact hjunk)
    (by rw [hv.ibm_eq]; exact hlock) ⟨hv.treeOk h.toTreeOk, hun⟩ h.zero_mem hb hnames
    fun hcrowded => hE fun hroom => hcrowded ?_).imp fun r s' hpost => ?_
  · rw [Nat.add_comm] at hroom
    refine hroom.spend hspends hv.lends fun hmake => ?_
    rwa [hv.files.tree_eq] at hmake
  · obtain ⟨live', hok, hgot, hrest⟩ := hpost
    refine ⟨live', hok, hgot.of_same hv.unchanged hv.lends, fun hmake hsome => ?_⟩
    rw [Nat.add_comm]
    exact hspends.trans (hrest hmake hsome)

end

end Efs
