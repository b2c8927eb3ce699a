import Efs.Volume

/-!
# Calls on the volume

The calls that take, lock, read and give back an inode in use. They leave all files as they
are, and an inode that is held stays where it is.
-/

namespace Efs

open Library

/-- The node is kept, or left the cache while nobody held the inode. -/
def NodeStays (s s' : Sys) (i : ℕ) : Prop :=
  (s'.icac.node i).map Node.kept = (s.icac.node i).map Node.kept ∨
    s'.icac.node i = none ∧ ∃ n, s.icac.node i = some n ∧ n.refcnt = 0

/-- A call on the inode `iid` left all files as they were. -/
structure Visited (w : World) (live : Finset ℕ) (iid : ℕ) (s s' : Sys) : Prop where
  /-- The inodes in use are sound. -/
  sound : s'.Sound w live
  /-- Only inodes in use are cached. -/
  within : s'.Within live
  /-- The files are the same. -/
  files : SameFiles live s s'
  /-- What is in no block and no inode. -/
  rest : s'.rest.2 = s.rest.2
  /-- The other inodes stay. -/
  node : ∀ i ≠ iid, NodeStays s s' i
  /-- Of the blocks only that of the inode may be held and was not before. -/
  held : HoldsWithin {inodeIid2Bid iid} s s'
  /-- The numbers that `dbm_alloc` finds stay. -/
  openDids : s.openDids ⊆ s'.openDids

/-- At most `n` more blocks are held, and the numbers that `dbm_alloc` finds stay. -/
structure Spends (n : ℕ) (s s' : Sys) : Prop where
  /-- What is left of the room in the block cache. -/
  roomy : ∀ m, s.Roomy (n + m) → s'.Roomy m
  /-- The numbers. -/
  openDids : s.openDids ⊆ s'.openDids

/-- The search of `dbm_alloc` finds at least `n` numbers. -/
def Sys.HasBlocks (n : ℕ) (s : Sys) : Prop := ∃ dids : Finset ℕ, n ≤ dids.card ∧ ↑dids ⊆ s.openDids

/-- No inode is locked. -/
def Sys.Unlocked (s : Sys) : Prop := ∀ i n, s.icac.node i = some n → n.locked = false

/-- No inode but `iid` is locked. -/
def Sys.UnlockedBut (s : Sys) (iid : ℕ) : Prop := ∀ i ≠ iid, ∀ n, s.icac.node i = some n →
    n.locked = false

section

variable {w : World} {E : Halt → Prop} {live : Finset ℕ} {s s₁ s' : Sys} {i ip iid : ℕ}
  {inode : Inode} {g : Node Inode → Node Inode} {name : CStr}

/-! ## What stays -/

/-- A node that stays twice stays. -/
theorem NodeStays.trans (h₁ : NodeStays s s₁ i) (h₂ : NodeStays s₁ s' i) : NodeStays s s' i := by
  rcases h₁ with h₁ | ⟨hnone, hidle⟩
  · rcases h₂ with h₂ | ⟨hnone, n₁, hn₁, hzero⟩
    · exact Or.inl (h₂.trans h₁)
    · rw [hn₁, Option.map_some] at h₁
      obtain ⟨n, hn, hkept⟩ := Option.map_eq_some_iff.mp h₁.symm
      have hrefcnt : n.refcnt = n₁.refcnt := congrArg (fun k => k.2.1) hkept
      exact Or.inr ⟨hnone, n, hn, hrefcnt.trans hzero⟩
  · rcases h₂ with h₂ | ⟨_, n, hn, _⟩
    · rw [hnone, Option.map_none, Option.map_eq_none_iff] at h₂
      exact Or.inr ⟨h₂, hidle⟩
    · rw [hnone] at hn
      cases hn

/-- A node of the cache was there before, as it is kept. -/
theorem NodeStays.of_some (h : NodeStays s s' i) {n' : Node Inode}
    (hn' : s'.icac.node i = some n') : ∃ n, s.icac.node i = some n ∧ n'.kept = n.kept := by
  rcases h with h | ⟨hnone, _⟩
  · rw [hn', Option.map_some] at h
    obtain ⟨n, hn, hkept⟩ := Option.map_eq_some_iff.mp h.symm
    exact ⟨n, hn, hkept.symm⟩
  · rw [hnone] at hn'
    cases hn'

/-- A node that stays is still borrowed. -/
theorem NodeStays.borrowed (h : NodeStays s s' i) (hb : s.Borrowed i ip) : s'.Borrowed i ip := by
  obtain ⟨n, hn, haddr, href⟩ := hb
  rcases h with h | ⟨_, m, hm, hzero⟩
  · rw [hn, Option.map_some] at h
    obtain ⟨n', hn', hkept⟩ := Option.map_eq_some_iff.mp h
    have haddr' : n'.addr = n.addr := congrArg (fun k => k.1) hkept
    have href' : n'.refcnt = n.refcnt := congrArg (fun k => k.2.1) hkept
    exact ⟨n', hn', haddr'.trans haddr, href' ▸ href⟩
  · rw [hn] at hm
    cases hm
    exact absurd hzero href

/-- Inodes that nobody took leave the room of the inode cache. -/
theorem Cache.Roomy.of_stays (hroom : s.icac.Roomy 0) (h : ∀ i, NodeStays s s' i) :
    s'.icac.Roomy 0 := by
  refine hroom.of_refs fun i href => ?_
  obtain ⟨n', hn'⟩ := Option.ne_none_iff_exists'.mp fun hnone => href (Cache.refs_of_none hnone)
  obtain ⟨n, hn, hkept⟩ := (h i).of_some hn'
  have hcount : n'.refcnt = n.refcnt := congrArg (fun k => k.2.1) hkept
  rw [Cache.refs_of_some hn', hcount] at href
  rwa [Cache.refs_of_some hn]

/-- A node that stays is still unlocked. -/
theorem NodeStays.locked_eq (h : NodeStays s s' i) (hl : ∀ n, s.icac.node i = some n →
    n.locked = false) {n' : Node Inode} (hn' : s'.icac.node i = some n') : n'.locked = false := by
  obtain ⟨n, hn, hkept⟩ := h.of_some hn'
  have hlocked : n'.locked = n.locked := congrArg (fun k => k.2.2.2.1) hkept
  exact hlocked.trans (hl n hn)

/-- Two visits of one inode are a visit. -/
theorem Visited.trans (h₁ : Visited w live iid s s₁) (h₂ : Visited w live iid s₁ s') :
    Visited w live iid s s' :=
  ⟨h₂.sound, h₂.within, h₁.files.trans h₂.files, h₂.rest.trans h₁.rest,
    fun i hi => (h₁.node i hi).trans (h₂.node i hi), (h₁.held.trans h₂.held).mono (by simp),
    h₁.openDids.trans h₂.openDids⟩

/-- A state with more free blocks has as many. -/
theorem Sys.HasBlocks.mono {n : ℕ} (h : s.HasBlocks n) (hsub : s.openDids ⊆ s'.openDids) :
    s'.HasBlocks n := h.imp fun _ hdids => ⟨hdids.1, hdids.2.trans hsub⟩

/-- What is spent in two calls adds up. -/
theorem Spends.trans {m n : ℕ} (h₁ : Spends m s s₁) (h₂ : Spends n s₁ s') : Spends (m + n) s s' :=
  ⟨fun k hroom => h₂.roomy k (h₁.roomy (n + k) (by rwa [← Nat.add_assoc])),
    h₁.openDids.trans h₂.openDids⟩

/-- A call holds at most the block of its inode. -/
theorem Visited.spends (hv : Visited w live iid s s') : Spends 1 s s' :=
  ⟨fun m hroom => hv.held.roomy_of_one (by rwa [Nat.add_comm] at hroom), hv.openDids⟩

/-- A call on an inode that is held takes no room for a block. -/
theorem Visited.spends_none (hv : Visited w live iid s s') (h : s.Sound w live)
    (hb : s.Borrowed iid ip) : Spends 0 s s' := by
  obtain ⟨m, inode, hn, _, hcontent, _⟩ := hb.pointsTo h.stored h.full
  refine ⟨fun k hroom => ?_, hv.openDids⟩
  rw [Nat.zero_add] at hroom
  refine hroom.of_refs fun b href => (hv.held b href).elim id ?_
  rintro rfl
  exact h.stored.refs_ne (inodeOf_of_node hn hcontent)
    (h.stored.backs iid m inode hn hcontent).iid_lt

/-- A visit leaves the inode bitmap. -/
theorem Visited.ibm_eq (h : Visited w live iid s s') : s'.ibm = s.ibm := congrArg Prod.fst h.rest

/-- A visit leaves the number of the root. -/
theorem Visited.rootinode_eq (h : Visited w live iid s s') : s'.sb.rootinode = s.sb.rootinode :=
  congrArg (fun r => r.2.2.2.2.2) h.rest

/-- A visit leaves the other inodes unlocked. -/
theorem Visited.unlockedBut (h : Visited w live iid s s') (hun : s.UnlockedBut iid) :
    s'.UnlockedBut iid :=
  fun i hi _ hn => (h.node i hi).locked_eq (hun i hi) hn

/-- When its own inode is unlocked in the end, so are all. -/
theorem Visited.unlocked (h : Visited w live iid s s') (hun : s.UnlockedBut iid)
    (hself : ∀ n, s'.icac.node iid = some n → n.locked = false) : s'.Unlocked := by
  intro i n hn
  by_cases hi : i = iid
  · exact hself n (hi ▸ hn)
  · exact h.unlockedBut hun i hi n hn

/-- When all inodes are unlocked, so are those but one. -/
theorem Sys.Unlocked.but (h : s.Unlocked) : s.UnlockedBut iid := fun i _ => h i

/-- A visit leaves the entries of the directories. -/
theorem Visited.entries_eq (h : Visited w live iid s s') (hmem : i ∈ live) :
    (s'.spread live).entries i = (s.spread live).entries i := by
  rw [Sys.entries, h.files.file i hmem, Sys.entries]

/-- A store into an inode that keeps its file visits it. -/
theorem StoreKeeps.visited (hk : StoreKeeps w iid s s') (hw : w.Reliable) (h : s.Sound w live)
    (hin : s.Within live) (hmem : iid ∈ live) : Visited w live iid s s' := by
  obtain ⟨hsound, hfiles⟩ := hk.sound h hw
  have hused : s'.dataUsed = s.dataUsed := dataUsed_of_stays h.stored hk.spot
  refine ⟨hsound, hk.within hin hmem, hfiles, hk.rest, fun i hi => ?_, hk.holdsWithin h.stored, ?_⟩
  · exact (hk.node i hi).imp_left fun heq => by rw [heq]
  · rw [openDids_congr hk.hint hused]

/-- A scan visits any inode. -/
theorem Scanned.visited (hsc : Scanned w s s') (hw : w.Reliable) (h : s.Sound w live)
    (hin : s.Within live) : Visited w live iid s s' := by
  have ht := hsc.transfers
  refine ⟨ht.sound h hin hw, ht.within hin, ⟨fun i hi => ht.type_eq h hin hi, fun i _ => ?_⟩,
    hsc.widens.beside.rest, fun i _ => Or.inl (hsc.kept i),
    hsc.widens.beside.held.mono (Set.empty_subset _), hsc.widens.openDids_subset⟩
  rw [ht.file_eq h hin hsc.file_eq]

/-- The type of an inode that is held. -/
theorem type_of_pointsTo (hp : s.PointsTo ip iid inode) : (s.record iid).type = inode.type := by
  rw [record_of_inodeOf hp.inodeOf]
  rfl

/-! ## Rules -/

variable (hw : w.Reliable) (h : s.Sound w live) (hin : s.Within live) (hmem : iid ∈ live)

include hw h hin hmem

/-- A change of the flags of a held inode. -/
theorem InodeChanges.visited (hc : InodeChanges iid g s s')
    (hg : ∀ m, (g m).content = m.content ∧ (g m).deleted = m.deleted ∧
      (m.dirty = true → (g m).dirty = true)) : Visited w live iid s s' :=
  (hc.storeKeeps h.stored h.full hg).visited hw h hin hmem

/-- The rule for `inode_lock` of a held inode. -/
theorem wp_inodeLock_visited (hb : s.Borrowed iid ip) (hun : s.Unlocked) {Q : Bool → Sys → Prop}
    (hQ : ∀ s', Visited w live iid s s' → s'.Borrowed iid ip → s'.UnlockedBut iid → Q false s') :
    Exec.Wp (inodeLock w ip) Q E s := by
  obtain ⟨n, inode, hn, href, hcontent, hp, hiid⟩ := hb.pointsTo h.stored h.full
  refine wp_inodeLock h.stored.icac hp hiid (hun iid) fun s' hc => ?_
  have hv := hc.visited hw h hin hmem fun _ => ⟨rfl, rfl, id⟩
  refine hQ s' hv ⟨{ n with locked := true }, ?_, ?_, href⟩ (hv.unlockedBut hun.but)
  · exact hc.node_self hn
  · obtain ⟨m, hm, haddr, _⟩ := hb
    rw [hn] at hm
    cases hm
    exact haddr

/-- The rule for `inode_unlock` of a held inode. -/
theorem wp_inodeUnlock_visited (hb : s.Borrowed iid ip) (hun : s.UnlockedBut iid)
    {Q : Bool → Sys → Prop}
    (hQ : ∀ s', Visited w live iid s s' → s'.Borrowed iid ip → s'.Unlocked → Q false s') :
    Exec.Wp (inodeUnlock w ip) Q E s := by
  obtain ⟨n, inode, hn, href, hcontent, hp, hiid⟩ := hb.pointsTo h.stored h.full
  refine wp_inodeUnlock h.stored.icac hp hiid fun s' hc => ?_
  have hv := hc.visited hw h hin hmem fun _ => ⟨rfl, rfl, id⟩
  have hn' : s'.icac.node iid = some { n with locked := false } := by
    exact hc.node_self hn
  refine hQ s' hv ⟨_, hn', ?_, href⟩ (hv.unlocked hun fun m hm => ?_)
  · obtain ⟨m, hm, haddr, _⟩ := hb
    rw [hn] at hm
    cases hm
    exact haddr
  · rw [hn'] at hm
    cases hm
    rfl

/-- An inode that was given back is not locked. -/
theorem InodeChanges.released (hc : InodeChanges iid Node.release s s') :
    Visited w live iid s s' ∧ ∀ n, s'.icac.node iid = some n → n.locked = false := by
  refine ⟨hc.visited hw h hin hmem fun _ => ⟨rfl, rfl, id⟩, fun m hm => ?_⟩
  rw [hc.node, Function.update_self] at hm
  obtain ⟨n, _, rfl⟩ := Option.map_eq_some_iff.mp hm
  rfl

/-- The rule for `inode_return` of a held inode that is not locked. -/
theorem wp_inodeReturn_released (hb : s.Borrowed iid ip)
    (hself : ∀ n, s.icac.node iid = some n → n.locked = false) {Q : Bool → Sys → Prop}
    (hQ : ∀ s', Visited w live iid s s' → (∀ n, s'.icac.node iid = some n → n.locked = false) →
      Q false s') :
    Exec.Wp (inodeReturn w ip) Q E s := by
  obtain ⟨n, inode, hn, href, hcontent, hp, hiid⟩ := hb.pointsTo h.stored h.full
  refine wp_inodeReturn h.stored.icac hp hiid (fun m hm => ?_) hself fun s' hc => ?_
  · rw [hn] at hm
    cases hm
    exact href
  · obtain ⟨hv, hself'⟩ := hc.released hw h hin hmem
    exact hQ s' hv hself'

/-- The rule for `inode_return` of a held inode when none is locked. -/
theorem wp_inodeReturn_visited (hb : s.Borrowed iid ip) (hun : s.Unlocked) {Q : Bool → Sys → Prop}
    (hQ : ∀ s', Visited w live iid s s' → s'.Unlocked → Q false s') :
    Exec.Wp (inodeReturn w ip) Q E s :=
  wp_inodeReturn_released hw h hin hmem hb (hun iid) fun s' hv hself =>
    hQ s' hv (hv.unlocked hun.but hself)

/-- The rule for `iget_from_cache` of an inode in use. -/
theorem wp_igetFromCache_visited (hE : ¬s.HasRoom → ∀ e : Halt, e.NoRoom → E e)
    (hun : s.Unlocked) {Q : Option ℕ → Sys → Prop}
    (hQ : ∀ ip s', Visited w live iid s s' → s'.Borrowed iid ip → s'.Unlocked → Q (some ip) s') :
    Exec.Wp (igetFromCache w iid false) Q E s := by
  refine wp_igetFromCache hw h.stored h.full (h.lt iid hmem) (hun iid) (fun ip s' hf => ?_) hE
  have hv := hf.toStoreKeeps.visited hw h hin hmem
  obtain ⟨n, inode, hn, haddr, hcontent, hlocked, href⟩ := hf.held
  refine hQ ip s' hv ⟨n, hn, haddr, ?_⟩ (hv.unlocked hun.but fun m hm => ?_)
  · rw [href]
    exact Nat.succ_ne_zero _
  · rw [hn] at hm
    cases hm
    exact hlocked

/-- The rule for the scan of a directory that is held. -/
theorem wp_dirents_visited (hE : ¬s.Roomy 1 → ∀ e : Halt, e.NoRoom → E e) (hb : s.Borrowed iid ip)
    (hwhole : WholeEntries ((s.spread live).file iid)) {Q : Option ℕ × Option ℕ → Sys → Prop}
    (hQ : ∀ empty s', Visited w live iid s s' → Scanned w s s' →
      (Table.lookup direntKey name ((s.spread live).entries iid) = none →
        empty.getD (s.fileSize iid / direntSz) = Table.place direntKey
          ((s.spread live).entries iid)) →
      Q ((Table.lookup direntKey name ((s.spread live).entries iid)).map direntIid, empty) s') :
    Exec.Wp (dirents w ip name) Q E s := by
  obtain ⟨n, inode, hn, href, hcontent, hp, hiid⟩ := hb.pointsTo h.stored h.full
  have hfile : (s.spread live).file iid = s.file iid := file_spread hp.inodeOf hmem
  have hentries : (s.spread live).entries iid = s.entries iid := by
    rw [Sys.entries, hfile, Sys.entries]
  rw [hfile] at hwhole
  rw [hentries] at hQ
  exact wp_dirents hw (h.filesOk hin) hp hwhole (fun empty s' hsc hplace =>
    hQ empty s' (hsc.visited hw h hin) hsc hplace) hE

end

end Efs
