import Efs.InodeStore
import Efs.TreeLookup

/-!
# Fetching inodes

What `iget_from_cache` and the other calls on the inode cache do to the inode store. The
nodes of other inodes stay, or are evicted while nobody holds the inode; the records stay,
and so do the blocks that are not of inodes.
-/

namespace Efs

open Library

/-- The blocks of the inodes. -/
def inodeBlocks : Set ℕ := {b | inodeStart ≤ b ∧ b < bitmapStart}

/-- What the store of a loaded inode does to its node. -/
def Node.fill (inode : Inode) (n : Node Inode) : Node Inode := { n with content := some inode }

/-- What a call on the inode `iid` keeps of the inode store and of the rest. -/
structure StoreKeeps (w : World) (iid : ℕ) (s s' : Sys) : Prop where
  /-- The inode blocks hold what is needed. -/
  stored : s'.Stored w 0
  /-- The nodes hold inodes. -/
  full : s'.Full
  /-- The records are the same. -/
  record : ∀ i < 32768, s'.record i = s.record i
  /-- The other blocks are as they were, or were evicted while nobody held them. -/
  spot : ∀ b ∉ inodeBlocks, s'.spot b = s.spot b ∨
    (s.spot b).Idle ∧ s'.spot b = (s.spot b).evict w b
  /-- What is in no block and no inode. -/
  rest : s'.rest.2 = s.rest.2
  /-- The search hint of the data bitmap is the same. -/
  hint : s'.dbmFirstEmptyWord = s.dbmFirstEmptyWord
  /-- The other inodes are as they were, or left the cache while nobody held them. -/
  node : ∀ i ≠ iid, s'.icac.node i = s.icac.node i ∨
    s'.icac.node i = none ∧ ∃ n, s.icac.node i = some n ∧ n.refcnt = 0

/-- `iget_from_cache` gave the pointer `ip` to the inode `iid`. -/
structure Fetched (w : World) (iid ip : ℕ) (s s' : Sys) : Prop extends StoreKeeps w iid s s' where
  /-- The node of the inode has one more reference. -/
  held : ∃ n inode, s'.icac.node iid = some n ∧ n.addr = ip ∧ n.content = some inode ∧
    n.locked = false ∧ n.refcnt = ((s.icac.node iid).map (·.refcnt)).getD 0 + 1
  /-- A cached inode stays where it is. -/
  addr : ∀ n, s.icac.node iid = some n → n.addr = ip

/-- The pointer `ip` was given for the inode `iid`, and was not given back. -/
def Sys.Borrowed (s : Sys) (iid ip : ℕ) : Prop :=
  ∃ n, s.icac.node iid = some n ∧ n.addr = ip ∧ n.refcnt ≠ 0

section

variable {w : World} {E : Halt → Prop} {extra : ℕ → ℕ} {s s₁ s' : Sys} {bid iid ip : ℕ}
  {inode : Inode} {n : Node Inode} {g : Node Inode → Node Inode}

/-- A store of nothing keeps everything. -/
theorem StoreKeeps.refl (h : s.Stored w 0) (hfull : s.Full) : StoreKeeps w iid s s :=
  ⟨h, hfull, fun _ _ => rfl, fun _ _ => Or.inl rfl, rfl, rfl, fun _ _ => Or.inl rfl⟩

/-- Two stores keep what each of them keeps. -/
theorem StoreKeeps.trans (h₁ : StoreKeeps w iid s s₁) (h₂ : StoreKeeps w iid s₁ s') :
    StoreKeeps w iid s s' := by
  refine ⟨h₂.stored, h₂.full, fun i hi => (h₂.record i hi).trans (h₁.record i hi), fun b hb => ?_,
    h₂.rest.trans h₁.rest, h₂.hint.trans h₁.hint, fun i hi => ?_⟩
  · rcases h₁.spot b hb with h | ⟨hidle, h⟩
    · rw [← h]
      exact h₂.spot b hb
    · rcases h₂.spot b hb with h' | ⟨_, h'⟩
      · exact Or.inr ⟨hidle, h'.trans h⟩
      · rw [h, Spot.evict_evict] at h'
        exact Or.inr ⟨hidle, h'⟩
  · rcases h₁.node i hi with h | ⟨hnone, hidle⟩
    · rw [← h]
      exact h₂.node i hi
    · refine Or.inr ⟨?_, hidle⟩
      rcases h₂.node i hi with h | ⟨h, _⟩
      · exact h.trans hnone
      · exact h

/-- A node with an inode that the cache shows. -/
theorem inodeOf_of_node (hn : s.icac.node iid = some n) (hcontent : n.content = some inode) :
    s.inodeOf iid = some inode := by
  simp [Sys.inodeOf, hn, hcontent]

/-- The node of an inode that the cache shows. -/
theorem exists_node_of_inodeOf (h : s.inodeOf iid = some inode) :
    ∃ n, s.icac.node iid = some n ∧ n.content = some inode := by
  unfold Sys.inodeOf at h
  exact Option.bind_eq_some_iff.mp h

/-- What a caller holds is cached. -/
theorem Sys.Borrowed.pointsTo (h : s.Borrowed iid ip) (hs : s.Stored w extra) (hfull : s.Full) :
    ∃ n inode, s.icac.node iid = some n ∧ n.refcnt ≠ 0 ∧ n.content = some inode ∧
      s.PointsTo ip iid inode ∧ inode.iid = iid := by
  obtain ⟨n, hn, haddr, href⟩ := h
  obtain ⟨inode, hcontent⟩ := Option.ne_none_iff_exists'.mp (hfull iid n hn)
  exact ⟨n, inode, hn, href, hcontent, ⟨n, hn, haddr, hcontent⟩,
    (hs.backs iid n inode hn hcontent).iid_eq⟩

/-! ## Changes of nodes -/

/-- Changes of the inode cache keep the store when its nodes agree with the blocks. -/
theorem Sys.Stored.of_nodes (h : s.Stored w extra) (hsame : s' = { s with icac := s'.icac })
    (hkeyed : s'.icac.Keyed)
    (hbacks : ∀ i m inode, s'.icac.node i = some m → m.content = some inode → s.Backs i m inode)
    (hcached : ∀ i, (s'.inodeOf i).isSome = (s.inodeOf i).isSome) : s'.Stored w extra := by
  have hspot : ∀ b, s'.spot b = s.spot b := fun b => by
    rw [hsame]
    rfl
  have hpinned : ∀ b, s'.pinned b = s.pinned b := fun b => by
    unfold Sys.pinned
    simp only [hcached]
  refine ⟨hkeyed, ?_, fun bid hle hlt => ?_, fun i m inode hm hcontent => ?_, fun b hle hlt => ?_⟩
  · rw [hsame]
    exact h.ok.of_node h.ok.keyed fun _ _ h => h
  · rw [hspot]
    rw [hsame]
    exact h.metaInv bid hle hlt
  · obtain ⟨hiid, hlt, hfits, hkept, hdip, hclean⟩ := hbacks i m inode hm hcontent
    rw [← hspot] at hdip hclean
    exact ⟨hiid, hlt, hfits, hkept, hdip, hclean⟩
  · rw [hspot, hpinned]
    exact h.refs b hle hlt

/-- The same nodes in another cache. -/
theorem Sys.Stored.remap (h : s.Stored w extra) {c : Cache Inode} (hc : c.Keyed)
    (hnode : ∀ i, (c.node i).bind (·.content) = s.inodeOf i)
    (hsub : ∀ i m, c.node i = some m → m.content ≠ none → s.icac.node i = some m) :
    ({ s with icac := c } : Sys).Stored w extra ∧
      ({ s with icac := c } : Sys).record = s.record := by
  constructor
  · refine h.of_nodes rfl hc (fun i m inode hm hcontent => ?_) fun i => ?_
    · exact h.backs i m inode (hsub i m hm (by simp [hcontent])) hcontent
    · exact congrArg Option.isSome (hnode i)
  · funext i
    exact record_congr (hnode i) fun _ => rfl

/-- A change of the flags of a node, of which dirty stays set. -/
theorem InodeChanges.storeKeeps (hc : InodeChanges iid g s s') (h : s.Stored w 0) (hfull : s.Full)
    (hg : ∀ m, (g m).content = m.content ∧ (g m).deleted = m.deleted ∧
      (m.dirty = true → (g m).dirty = true)) : StoreKeeps w iid s s' := by
  have hinode : ∀ i, s'.inodeOf i = s.inodeOf i := by
    intro i
    by_cases hi : i = iid
    · subst hi
      rw [Sys.inodeOf, hc.node, Function.update_self, Sys.inodeOf]
      cases s.icac.node i with
      | none => rfl
      | some m => exact (hg m).1
    · exact hc.inodeOf_of_ne hi
  refine ⟨h.of_nodes hc.same hc.keyed (fun i m inode hm hcontent => ?_) fun i => by rw [hinode],
    fun i m hm => ?_, fun i _ => record_congr (hinode i) fun _ => by rw [hc.spot_eq],
    fun b _ => Or.inl (hc.spot_eq b), ?_, ?_, fun i hi => Or.inl (hc.node_of_ne hi)⟩
  · by_cases hi : i = iid
    · subst hi
      rw [hc.node, Function.update_self] at hm
      obtain ⟨m', hm', rfl⟩ := Option.map_eq_some_iff.mp hm
      rw [(hg m').1] at hcontent
      obtain ⟨hiid, hlt, hfits, hkept, hdip, hclean⟩ := h.backs i m' inode hm' hcontent
      refine ⟨hiid, hlt, hfits, (hg m').2.1.trans hkept, hdip, fun hfalse => hclean ?_⟩
      exact eq_false_of_ne_true fun htrue => by simp [(hg m').2.2 htrue] at hfalse
    · rw [hc.node_of_ne hi] at hm
      exact h.backs i m inode hm hcontent
  · by_cases hi : i = iid
    · subst hi
      rw [hc.node, Function.update_self] at hm
      obtain ⟨m', hm', rfl⟩ := Option.map_eq_some_iff.mp hm
      rw [(hg m').1]
      exact hfull i m' hm'
    · rw [hc.node_of_ne hi] at hm
      exact hfull i m hm
  · rw [hc.same]
    rfl
  · rw [hc.same]

/-! ## Lookups in the inode cache -/

/-- The rule for a lookup in the inode cache. -/
theorem wp_icacFind (hw : w.Reliable) (h : s.Stored w 0) (hfull : s.Full) {access : Bool}
    {Q : Option (Node Inode) → Sys → Prop}
    (hQ : ∀ s', StoreKeeps w iid s s' → s'.icac.node iid = s.icac.node iid →
      Q (s.icac.node iid) s') (hE : ¬s.icac.lru.HasRoom → E .nodeLost) :
    Exec.Wp (cacheFind w (icacOf w) iid access) Q E s := by
  refine wp_cacheFind_map icacOf_lawful h.icac ?_ ?_ ?_ (fun _ _ => hE) (fun _ => rfl)
  · intro hnone
    have hend := hQ s (.refl h hfull) rfl
    rwa [show s.icac.node iid = none from hnone] at hend
  · intro c n hn hc hmap _
    have hmap' : c.node = s.icac.node := hmap
    have hremap := h.remap hc (fun i => by rw [hmap']; rfl) fun i m hm _ => by rwa [← hmap']
    have hend := hQ { s with icac := c } ⟨hremap.1, fun i m hm => hfull i m (by rwa [← hmap']),
        fun i _ => congrFun hremap.2 i, fun _ _ => Or.inl rfl, rfl, rfl,
        fun i _ => Or.inl (congrFun hmap' i)⟩ (congrFun hmap' iid)
    rwa [show s.icac.node iid = some n from hn] at hend
  · intro c n d hn hne hzero hd hc hmap _
    have hd' : s.icac.node d.id = some d := hd
    have hmap' : c.node = Function.update s.icac.node d.id none := hmap
    obtain ⟨inode, hcontent⟩ := Option.ne_none_iff_exists'.mp (hfull _ d hd')
    have hsub : ∀ i m, c.node i = some m → s.icac.node i = some m := by
      intro i m hm
      by_cases hi : i = d.id
      · rw [hmap', hi, Function.update_self] at hm
        cases hm
      · rwa [hmap', Function.update_of_ne hi] at hm
    refine wp_freeEvicted_icac hw h hd' hcontent hc (fun i m hm _ => hsub i m hm) ?_ ?_
    · funext i
      by_cases hi : i = d.id
      · simp [Sys.inodeOf, hi, hmap']
      · simp [Sys.inodeOf, hmap', Function.update_of_ne hi]
    · intro s' hstored hrecord hstill
      have hicac : s'.icac = c := (hstill.settles (w := w)).icac_eq
      have hstay : s'.icac.node iid = s.icac.node iid := by
        rw [hicac, hmap', Function.update_of_ne (Ne.symm hne)]
      have hb := (h.backs _ d inode hd' hcontent).iid_lt
      have hend := hQ s' ⟨hstored, fun i m hm => hfull i m (hsub i m (hicac ▸ hm)),
        fun i _ => congrFun hrecord i,
        fun b hb' => Or.inl (hstill.other b ?_), (congrArg Prod.snd hstill.rest).trans rfl,
        hstill.hint, fun i _ => ?_⟩ hstay
      · rwa [show s.icac.node iid = some n from hn] at hend
      · rintro rfl
        exact hb' (inodeIid2Bid_mem hb)
      · by_cases hi : i = d.id
        · rw [hicac, hmap', hi, Function.update_self]
          exact Or.inr ⟨rfl, d, hd', hzero⟩
        · rw [hicac, hmap', Function.update_of_ne hi]
          exact Or.inl rfl

/-- The rule for `cache_try_get` without the lock on an inode that is not locked. -/
theorem wp_icacTryGet (hw : w.Reliable) (h : s.Stored w 0) (hfull : s.Full)
    (hunlocked : ∀ m, s.icac.node iid = some m → m.locked = false) {Q : Option ℕ → Sys → Prop}
    (hnone : ∀ s', s.icac.node iid = none → StoreKeeps w iid s s' → s'.icac.node iid = none →
      Q none s')
    (hsome : ∀ ip s', Fetched w iid ip s s' → Q (some ip) s')
    (hE : ¬s.icac.lru.HasRoom → E .nodeLost) :
    Exec.Wp (cacheTryGet w (icacOf w) iid false true) Q E s := by
  refine Exec.wp_bind.mpr (wp_icacFind hw h hfull (fun s₁ h₁ hnode₁ => ?_) hE)
  cases hn : s.icac.node iid with
  | none => exact hnone s₁ hn h₁ (hnode₁.trans hn)
  | some n =>
    obtain ⟨inode, hcontent⟩ := Option.ne_none_iff_exists'.mp (hfull iid n hn)
    have hn₁ : s₁.icac.node iid = some n := hnode₁.trans hn
    have hkept := (h.backs iid n inode hn hcontent).kept
    simp only [nodeLock, nodeUnlock, hunlocked n hn, hkept, Exec.wp_bind, Exec.wp_when,
      Bool.false_eq_true, IsEmpty.forall_iff, not_false_eq_true, forall_const, true_and, if_false,
      Bool.not_false, not_true_eq_false, and_true, Exec.wp_pure]
    refine wp_nodeStore_icac h₁.stored.icac hn₁ ?_ fun s₂ h₂ => ?_
    · exact fun _ => ⟨rfl, rfl⟩
    have hn₂ : s₂.icac.node iid = some { n with locked := true } := by
      exact h₂.node_self hn₁
    refine wp_nodeStore_icac h₂.keyed hn₂ ?_ fun s₃ h₃ => ?_
    · exact fun _ => ⟨rfl, rfl⟩
    have hn₃ : s₃.icac.node iid = some { n with locked := true, refcnt := n.refcnt + 1 } := by
      exact h₃.node_self hn₂
    refine wp_nodeStore_icac h₃.keyed hn₃ ?_ fun s₄ h₄ => ?_
    · exact fun _ => ⟨rfl, rfl⟩
    have hchanges := (h₂.trans h₃).trans h₄
    have hkeeps := h₁.trans (hchanges.storeKeeps h₁.stored h₁.full fun _ => ⟨rfl, rfl, id⟩)
    have hpointer : n.pointer = some n.addr := by simp [Node.pointer, hcontent]
    rw [hpointer]
    refine hsome n.addr s₄ ⟨hkeeps,
      ⟨{ n with refcnt := n.refcnt + 1, locked := false }, inode, ?_, rfl,
      hcontent, rfl, ?_⟩, fun m hm => ?_⟩
    · exact h₄.node_self hn₃
    · rw [hn]
      rfl
    · rw [hn] at hm
      cases hm
      rfl

/-! ## Room -/

/-- Both caches have room. -/
structure Sys.HasRoom (s : Sys) : Prop where
  /-- The inode cache has room. -/
  icac : s.icac.Roomy 0
  /-- The block cache has room. -/
  bcac : s.Roomy 0

/-- A block is held no longer when the inodes in it that are cached were cached before. -/
theorem Sys.Stored.held_before (h : s.Stored w 0) (h' : s'.Stored w 0)
    (hsub : ∀ i, inodeIid2Bid i = bid → s'.inodeOf i ≠ none → s.inodeOf i ≠ none)
    (hspot : bid ∉ inodeBlocks → s'.spot bid = s.spot bid ∨
      (s.spot bid).Idle ∧ s'.spot bid = (s.spot bid).evict w bid)
    (href : (s'.spot bid).refs ≠ 0) : (s.spot bid).refs ≠ 0 := by
  by_cases hb : bid ∈ inodeBlocks
  · have hpinned : s'.pinned bid ⊆ s.pinned bid := by
      intro k hk
      obtain ⟨hlt, inode, hinode⟩ := mem_pinned.mp hk
      obtain ⟨inode₀, hinode₀⟩ := Option.ne_none_iff_exists'.mp
        (hsub (iidAt bid k) (inodeIid2Bid_iidAt hb.1 hlt) (by simp [hinode]))
      exact mem_pinned.mpr ⟨hlt, inode₀, hinode₀⟩
    have hle := Finset.card_le_card hpinned
    have hrefs := h.refs bid hb.1 hb.2
    have hrefs' := h'.refs bid hb.1 hb.2
    rw [Pi.zero_apply] at hrefs hrefs'
    omega
  · rcases hspot hb with heq | ⟨_, heq⟩
    · rwa [heq] at href
    · rw [heq, Spot.refs_eq_zero Spot.node_evict] at href
      exact absurd rfl href

/-- With fewer cached inodes no more blocks are held. -/
theorem Sys.Stored.roomy (h : s.Stored w 0) (h' : s'.Stored w 0) (hroom : s.Roomy 0)
    (hsub : ∀ i, s'.inodeOf i ≠ none → s.inodeOf i ≠ none)
    (hspot : ∀ b ∉ inodeBlocks, s'.spot b = s.spot b ∨
      (s.spot b).Idle ∧ s'.spot b = (s.spot b).evict w b) : s'.Roomy 0 :=
  hroom.of_refs fun b href => h.held_before h' (fun i _ => hsub i) (hspot b) href

/-- A node that is cached, of another inode, was cached before. -/
theorem StoreKeeps.inodeOf_ne (hk : StoreKeeps w iid s s') {i : ℕ} (hi : i ≠ iid)
    (hcached : s'.inodeOf i ≠ none) : s.inodeOf i ≠ none := by
  rcases hk.node i hi with heq | ⟨hnone, _⟩
  · rwa [Sys.inodeOf, heq] at hcached
  · rw [Sys.inodeOf, hnone] at hcached
    exact absurd rfl hcached

/-- Of the blocks only that of the inode may be held after the call and not before. -/
theorem StoreKeeps.holdsWithin (hk : StoreKeeps w iid s s') (h : s.Stored w 0) :
    HoldsWithin {inodeIid2Bid iid} s s' := by
  intro b href
  by_cases hb : b = inodeIid2Bid iid
  · exact Or.inr hb
  · refine Or.inl (h.held_before hk.stored (fun i hi hcached => hk.inodeOf_ne ?_ hcached)
      (hk.spot b) href)
    rintro rfl
    exact hb hi.symm

/-- A lookup of an inode that is not cached takes no room. -/
theorem StoreKeeps.hasRoom (hk : StoreKeeps w iid s s') (h : s.Stored w 0) (hroom : s.HasRoom)
    (hnone : s'.icac.node iid = none) : s'.HasRoom := by
  constructor
  · refine hroom.icac.of_refs fun i href => ?_
    by_cases hi : i = iid
    · subst hi
      exact absurd (Cache.refs_of_none hnone) href
    · rcases hk.node i hi with heq | ⟨hgone, _⟩
      · rwa [Cache.refs, heq] at href
      · exact absurd (Cache.refs_of_none hgone) href
  · refine h.roomy hk.stored hroom.bcac (fun i hcached => ?_) hk.spot
    by_cases hi : i = iid
    · rw [hi, Sys.inodeOf, hnone] at hcached
      exact absurd rfl hcached
    · exact hk.inodeOf_ne hi hcached

/-! ## Loads of inodes -/

/-- The rule for an insertion of an inode that is not cached: it gets a node without
content, or no node when there is no room. -/
theorem wp_icacInsertGet (hw : w.Reliable) (h : s.Stored w 0) (hfull : s.Full)
    (hnew : s.icac.node iid = none) {Q : Option ℕ → Sys → Prop}
    (hQ : ∀ slot s', s'.Stored w 0 → s'.record = s.record →
      (∀ b ∉ inodeBlocks, s'.spot b = s.spot b) → s'.rest.2 = s.rest.2 →
      s'.dbmFirstEmptyWord = s.dbmFirstEmptyWord →
      (∀ i ≠ iid, s'.icac.node i = s.icac.node i ∨
        s'.icac.node i = none ∧ ∃ n, s.icac.node i = some n ∧ n.refcnt = 0) →
      s'.inodeOf iid = none → (slot = none → ¬s.icac.fifo.HasRoom) →
      (∀ addr, slot = some addr →
        s'.icac.node iid = some ⟨addr, iid, 1, false, false, none, false⟩) → Q slot s') :
    Exec.Wp (cacheInsertGet w (icacOf w) iid false) Q E s := by
  have hget : (icacOf w).get s = s.icac := rfl
  refine wp_cacheInsertGet_map (k := icacOf w) h.icac hnew ?_ ?_ ?_
  · intro hroom
    have hkeyed : ({ s.icac with nextAddr := s.icac.nextAddr + 1 } : Cache Inode).Keyed := by
      have hwf := h.icac.wf
      refine ⟨⟨hwf.fifo, hwf.lru, hwf.addrs_nodup, fun n hn => ?_, hwf.alive⟩, h.icac.one⟩
      exact (hwf.addr_lt n hn).trans (Nat.lt_succ_self _)
    have hremap := h.remap hkeyed (fun _ => rfl) fun _ _ hm _ => hm
    refine hQ none _ hremap.1 hremap.2 (fun _ _ => rfl) rfl rfl (fun _ _ => Or.inl rfl) ?_
      (fun _ => hroom) fun _ hsome => by cases hsome
    have hnone : s.inodeOf iid = none := by simp [Sys.inodeOf, hnew]
    exact hnone
  · intro c hc hmap
    have hmap' : c.node = Function.update s.icac.node iid (some (s.icac.newNode iid)) := hmap
    refine Exec.wp_when.mpr ⟨by simp, fun _ => ?_⟩
    have hremap := h.remap hc (fun i => ?_) fun i m hm hcontent => ?_
    · refine hQ _ _ hremap.1 hremap.2 (fun _ _ => rfl) rfl rfl (fun i hi => Or.inl ?_) ?_ (by simp)
        fun addr haddr => ?_
      · exact (congrFun hmap' i).trans (Function.update_of_ne hi _ _)
      · simp [Sys.inodeOf, icacOf, hmap', Cache.newNode]
      · cases haddr
        exact (congrFun hmap' iid).trans (Function.update_self _ _ _)
    · by_cases hi : i = iid
      · simp [hmap', hi, Sys.inodeOf, hnew, Cache.newNode]
      · rw [hmap', Function.update_of_ne hi]
        rfl
    · by_cases hi : i = iid
      · rw [hmap', hi, Function.update_self] at hm
        cases hm
        exact absurd rfl hcontent
      · rwa [hmap', Function.update_of_ne hi] at hm
  · intro c d hne hzero hd hc hmap
    have hd' : s.icac.node d.id = some d := hd
    have hmap' : c.node = Function.update (Function.update s.icac.node d.id none) iid
        (some (s.icac.newNode iid)) := hmap
    obtain ⟨inode, hcontent⟩ := Option.ne_none_iff_exists'.mp (hfull _ d hd')
    refine wp_freeEvicted_icac hw h hd' hcontent hc (fun i m hm hsome => ?_) ?_ ?_
    · by_cases hi : i = iid
      · rw [hmap', hi, Function.update_self] at hm
        cases hm
        exact absurd rfl hsome
      · rw [hmap', Function.update_of_ne hi] at hm
        by_cases hid : i = d.id
        · rw [hid, Function.update_self] at hm
          cases hm
        · rwa [Function.update_of_ne hid] at hm
    · funext i
      by_cases hi : i = iid
      · rw [hi, Function.update_of_ne (Ne.symm hne)]
        simp [Sys.inodeOf, hmap', hnew, Cache.newNode]
      · by_cases hid : i = d.id
        · rw [hid, Function.update_self, Sys.inodeOf, hmap', Function.update_of_ne hne,
            Function.update_self]
          rfl
        · rw [Function.update_of_ne hid, Sys.inodeOf, hmap', Function.update_of_ne hi,
            Function.update_of_ne hid]
          rfl
    · intro s' hstored hrecord hstill
      have hicac : s'.icac = c := (hstill.settles (w := w)).icac_eq
      have hb := (h.backs _ d inode hd' hcontent).iid_lt
      refine Exec.wp_when.mpr ⟨by simp, fun _ => ?_⟩
      refine hQ _ s' hstored hrecord (fun b hb' => hstill.other b ?_)
        ((congrArg Prod.snd hstill.rest).trans rfl) hstill.hint (fun i hi => ?_) ?_ (by simp)
        fun addr haddr => ?_
      · rintro rfl
        exact hb' (inodeIid2Bid_mem hb)
      · rw [hicac, hmap', Function.update_of_ne hi]
        by_cases hid : i = d.id
        · rw [hid, Function.update_self]
          exact Or.inr ⟨rfl, d, hd', hzero⟩
        · rw [Function.update_of_ne hid]
          exact Or.inl rfl
      · simp [Sys.inodeOf, hicac, hmap', Cache.newNode]
      · cases haddr
        rw [hicac, hmap', Function.update_self]
        rfl

/-- The store after the block of an inode was loaded, before the inode is cached. -/
theorem Sys.Stored.borrow (h : s.Stored w 0) (hw : w.Reliable) (hlt : iid < 32768) {addr : ℕ}
    (hok : s'.BcacOk) (hsettles : Settles w {inodeIid2Bid iid} [] s s')
    (haddr : ∀ b, (s.spot (inodeIid2Bid iid)).node = some b → b.addr = addr)
    (hcached : (s.spot (inodeIid2Bid iid)).Cached (s'.spot (inodeIid2Bid iid)) addr
      ((s.spot (inodeIid2Bid iid)).refs + 1) false (s.spot (inodeIid2Bid iid)).dirty
      (s.sb.aesIv (inodeIid2Bid iid)) (s.sb.aesKey (inodeIid2Bid iid))
      (s.spot (inodeIid2Bid iid)).data) :
    s'.Stored w (Pi.single (inodeIid2Bid iid) 1) ∧ ∀ i < 32768, s'.record i = s.record i := by
  obtain ⟨hle, hlt'⟩ := inodeIid2Bid_mem hlt
  have hmeta : s'.MetaInv w := by
    refine h.metaInv.settles hw h.ok hsettles ?_
    rintro b rfl _ _
    exact (h.metaInv _ hle (hlt'.trans (by decide))).cached hcached
  have hother : ∀ b, inodeStart ≤ b → b < bitmapStart → b ≠ inodeIid2Bid iid →
      BlockKeeps 0 s s' b ∧ (s'.spot b).data = (s.spot b).data :=
    fun b hb hb' hne => h.blockKeeps hb hb' (hsettles.spot b hne)
  have hinodeOf := inodeOf_of_icac_eq hsettles.icac_eq
  constructor
  · refine h.of_blocks hsettles.icac_eq hok hmeta fun b hb hb' => ?_
    by_cases heq : b = inodeIid2Bid iid
    · subst heq
      refine ⟨fun _ b hbnode => ?_, fun _ _ _ _ => by rw [hcached.data_eq], ?_⟩
      · obtain ⟨n, block, hn, hnaddr, _⟩ := hcached.node
        exact ⟨n, hn, hnaddr.trans (haddr b hbnode).symm⟩
      · rw [hcached.refs_eq, h.refs _ hle hlt', Pi.single_eq_same, Pi.zero_apply]
        rfl
    · obtain ⟨hkeeps, _⟩ := hother b hb hb' heq
      refine ⟨hkeeps.addr, hkeeps.record, ?_⟩
      rw [hkeeps.refs, Pi.single_eq_of_ne heq]
      rfl
  · intro i hi
    refine record_congr (by rw [hinodeOf]) fun _ => ?_
    by_cases heq : inodeIid2Bid i = inodeIid2Bid iid
    · rw [heq, hcached.data_eq]
    · obtain ⟨hb, hb'⟩ := inodeIid2Bid_mem hi
      rw [(hother _ hb hb' heq).2]

/-- The store after an inode was loaded from its block. -/
theorem Sys.Stored.load (h : s.Stored w (Pi.single (inodeIid2Bid iid) 1)) (hlt : iid < 32768)
    (hn : s.icac.node iid = some n) (hnone : n.content = none) (hkept : n.deleted = false)
    {b : Node Block} (hb : (s.spot (inodeIid2Bid iid)).node = some b)
    (hc : InodeChanges iid (Node.fill (loadInode b.addr (s.spot (inodeIid2Bid iid)).data iid))
      s s') :
    s'.Stored w 0 ∧ s'.record = s.record := by
  have hold : s.inodeOf iid = none := by simp [Sys.inodeOf, hn, hnone]
  have hnode : s'.icac.node iid =
      some (n.fill (loadInode b.addr (s.spot (inodeIid2Bid iid)).data iid)) := by
    exact hc.node_self hn
  have hnew : s'.inodeOf iid = some (loadInode b.addr (s.spot (inodeIid2Bid iid)).data iid) :=
    inodeOf_of_node hnode rfl
  have hupdate : s'.inodeOf = Function.update s.inodeOf iid
      (some (loadInode b.addr (s.spot (inodeIid2Bid iid)).data iid)) := by
    funext i
    by_cases hi : i = iid
    · rw [hi, Function.update_self, hnew]
    · rw [Function.update_of_ne hi, hc.inodeOf_of_ne hi]
  constructor
  · refine ⟨hc.keyed, hc.bcacOk h.ok, hc.metaInv h.metaInv, fun i m inode hm hcontent => ?_,
      fun bid hle hlt' => ?_⟩
    · have hbacks : s.Backs i m inode := by
        by_cases hi : i = iid
        · subst hi
          rw [hnode] at hm
          cases hm
          cases hcontent
          exact ⟨rfl, hlt, fits_loadInode _ _ _, hkept, ⟨b, hb, rfl⟩, fun _ => rfl⟩
        · rw [hc.node_of_ne hi] at hm
          exact h.backs i m inode hm hcontent
      obtain ⟨hiid, hlt, hfits, hkept, hdip, hclean⟩ := hbacks
      rw [← hc.spot_eq] at hdip hclean
      exact ⟨hiid, hlt, hfits, hkept, hdip, hclean⟩
    · rw [hc.spot_eq, h.refs bid hle hlt', pinned_of_add hold hupdate hle, Pi.single_apply,
        Pi.zero_apply, Nat.add_zero]
  · funext i
    by_cases hi : i = iid
    · subst hi
      rw [record_of_inodeOf hnew, record_of_none hold]
      rfl
    · exact record_congr (hc.inodeOf_of_ne hi) fun _ => by rw [hc.spot_eq]

/-- The rule for `iget_from_cache` of an inode that is not cached, which is not looked up. -/
theorem wp_igetFromCache_new (hw : w.Reliable) (h : s.Stored w 0) (hfull : s.Full)
    (hlt : iid < 32768) (hnew : s.icac.node iid = none) {Q : Option ℕ → Sys → Prop}
    (hQ : ∀ ip s', Fetched w iid ip s s' → Q (some ip) s')
    (hE : ¬s.HasRoom → ∀ e : Halt, e.NoRoom → E e) : Exec.Wp (igetFromCache w iid true) Q E s := by
  obtain ⟨hle, hlt'⟩ := inodeIid2Bid_mem hlt
  have hmeta : inodeIid2Bid iid < dataStart := hlt'.trans (by decide)
  simp only [igetFromCache, if_true, Exec.wp_bind, Exec.wp_pure]
  refine wp_icacInsertGet hw h hfull hnew ?_
  intro slot s₁ hs₁ hrecord₁ hspot₁ hrest₁ hhint₁ hnode₁ hnone₁ hroom₁ hslot
  apply Exec.Wp.keeping (aside_dbmFirstEmptyWord.bgetMetadata _)
  refine wp_bgetMetadata_quiet hw hs₁.ok.safe hs₁.metaInv hle hmeta ?_ fun hcrowded => ?_
  rotate_left
  · have hfew : ¬s.HasRoom := by
      intro hroom
      have hroomy : s₁.Roomy 0 := by
        refine h.roomy hs₁ hroom.bcac (fun i hcached => ?_) fun b hb => Or.inl (hspot₁ b hb)
        have hi : i ≠ iid := by
          rintro rfl
          exact hcached hnone₁
        rcases hnode₁ i hi with heq | ⟨hgone, _⟩
        · rwa [Sys.inodeOf, heq] at hcached
        · rw [Sys.inodeOf, hgone] at hcached
          exact absurd rfl hcached
      exact hcrowded (hroomy.admits hs₁.ok.keyed)
    exact ⟨hE hfew _ (by simp [Halt.NoRoom]), hE hfew _ (by simp [Halt.NoRoom])⟩
  intro addr s₂ hsafe₂ hfades₂ haddr hcached₂ hhint₂
  have hsettles₂ := hfades₂.settles hs₁.ok
  have hok₂ : s₂.BcacOk := by
    refine hfades₂.bcacOk hs₁.ok hsafe₂.keyed ?_
    rintro b rfl m hm
    exact hsafe₂.holds hmeta hm
  simp only [Exec.wp_bind]
  refine wp_blockAt_held hok₂ hcached₂ fun block hdata hbid => ?_
  rw [hbid, hdata]
  refine wp_blockUnlock_quiet hok₂.safe (hok₂.holds _) hcached₂ fun s₃ h₃ hcached₃ => ?_
  have hstill₃ := h₃.still hok₂
  have hsettles₃ : Settles w {inodeIid2Bid iid} [] s₁ s₃ :=
    (hsettles₂.trans (hstill₃.settles (w := w))).mono (by simp)
  obtain ⟨hs₃, hrecord₃⟩ := hs₁.borrow hw hlt hstill₃.ok hsettles₃ haddr hcached₃
  have hicac₃ := hsettles₃.icac_eq
  cases slot with
  | none =>
    refine hE (fun hroom => ?_) _ (by simp [Halt.NoRoom])
    exact hroom.icac.not_crowded h.icac (Or.inr (hroom₁ rfl))
  | some ipp =>
    have hn₃ : s₃.icac.node iid = some ⟨ipp, iid, 1, false, false, none, false⟩ := by
      rw [hicac₃]
      exact hslot ipp rfl
    obtain ⟨b, _, hb, rfl, _⟩ := hcached₃.node
    simp only [Exec.wp_bind]
    refine wp_nodeStore_icac hs₃.icac hn₃ ?_ fun s₄ h₄ => ?_
    · exact fun _ => ⟨rfl, rfl⟩
    have hload : loadInode b.addr (s₁.spot (inodeIid2Bid iid)).data iid =
        loadInode b.addr (s₃.spot (inodeIid2Bid iid)).data iid := by rw [hcached₃.data_eq]
    rw [hload] at h₄
    obtain ⟨hs₄, hrecord₄⟩ := hs₃.load hlt hn₃ rfl rfl hb h₄
    have hn₄ : s₄.icac.node iid = some
        (Node.fill (loadInode b.addr (s₃.spot (inodeIid2Bid iid)).data iid)
          ⟨ipp, iid, 1, false, false, none, false⟩) := by
      rw [h₄.node, Function.update_self, hn₃]
      rfl
    have hother : ∀ i ≠ iid, s₄.icac.node i = s.icac.node i ∨
        s₄.icac.node i = none ∧ ∃ n, s.icac.node i = some n ∧ n.refcnt = 0 := fun i hi => by
      rw [h₄.node_of_ne hi, hicac₃]
      exact hnode₁ i hi
    have hhint₄ : s₄.dbmFirstEmptyWord = s₃.dbmFirstEmptyWord := by rw [h₄.same]
    refine hQ ipp s₄ ⟨⟨hs₄, fun i m hm => ?_, fun i hi => ?_, fun b' hb' => ?_, ?_,
      hhint₄.trans (h₃.hint.trans (hhint₂.trans hhint₁)), hother⟩,
      ⟨_, _, hn₄, rfl, rfl, rfl, ?_⟩, fun m hm => ?_⟩
    · by_cases hi : i = iid
      · rw [hi, hn₄] at hm
        cases hm
        simp [Node.fill]
      · rcases hother i hi with heq | ⟨hnone, _⟩
        · exact hfull i m (heq ▸ hm)
        · rw [hnone] at hm
          cases hm
    · rw [hrecord₄, hrecord₃ i hi, hrecord₁]
    · have hne : b' ∉ ({inodeIid2Bid iid} : Set ℕ) := by
        rintro rfl
        exact hb' ⟨hle, hlt'⟩
      rw [h₄.spot_eq, ← hspot₁ b' hb']
      exact hsettles₃.spot b' hne
    · rw [← hrest₁, ← congrArg Prod.snd hsettles₃.rest, h₄.same]
      rfl
    · rw [hnew]
      rfl
    · rw [hnew] at hm
      cases hm

/-- The rule for `iget_from_cache` of an inode that nobody has locked. -/
theorem wp_igetFromCache (hw : w.Reliable) (h : s.Stored w 0) (hfull : s.Full)
    (hlt : iid < 32768) (hunlocked : ∀ m, s.icac.node iid = some m → m.locked = false)
    {Q : Option ℕ → Sys → Prop} (hQ : ∀ ip s', Fetched w iid ip s s' → Q (some ip) s')
    (hE : ¬s.HasRoom → ∀ e : Halt, e.NoRoom → E e) : Exec.Wp (igetFromCache w iid false) Q E s := by
  refine Exec.wp_bind.mpr (wp_icacTryGet hw h hfull hunlocked ?_ ?_ fun hroom => ?_)
  rotate_left 2
  · refine hE (fun hroom' => ?_) _ (by simp [Halt.NoRoom])
    exact hroom'.icac.not_crowded h.icac (Or.inl hroom)
  · intro s₁ hnone h₁ hnone₁
    refine wp_igetFromCache_new hw h₁.stored h₁.full hlt hnone₁ (fun ip s' h' => ?_)
      fun hfew => hE fun hroom => hfew (h₁.hasRoom h hroom hnone₁)
    refine hQ ip s' ⟨h₁.trans h'.toStoreKeeps, ?_, fun m hm => ?_⟩
    · rw [hnone]
      have hheld := h'.held
      rwa [hnone₁] at hheld
    · rw [hnone] at hm
      cases hm
  · exact fun ip s' h' => hQ ip s' h'

/-! ## Calls on fetched inodes -/

/-- What the calls that give an inode back do to its node. -/
def Node.release (n : Node Inode) : Node Inode := { n with refcnt := n.refcnt - 1, locked := false }

/-- The rule for `inode_lock` of an inode that is not locked. -/
theorem wp_inodeLock (hk : s.icac.Keyed) (hp : s.PointsTo ip iid inode) (hiid : inode.iid = iid)
    (hunlocked : ∀ m, s.icac.node iid = some m → m.locked = false) {Q : Bool → Sys → Prop}
    (hQ : ∀ s', InodeChanges iid ({ · with locked := true }) s s' → Q false s') :
    Exec.Wp (inodeLock w ip) Q E s := by
  refine Exec.wp_bind.mpr (wp_inodeAt hk hp (Exec.wp_bind.mpr ?_))
  rw [hiid]
  obtain ⟨n, hn, _, _⟩ := hp
  refine wp_cacheFind_peek (k := icacOf w) icacOf_lawful hk ?_
  have hget : ((icacOf w).get s).node iid = some n := hn
  rw [hget]
  simp only [nodeLock, hunlocked n hn, Exec.wp_bind, Exec.wp_when, Bool.false_eq_true,
    IsEmpty.forall_iff, not_false_eq_true, forall_const, true_and, Exec.wp_pure]
  refine wp_nodeStore_icac hk hn ?_ hQ
  exact fun _ => ⟨rfl, rfl⟩

/-- The rule for `inode_unlock`. -/
theorem wp_inodeUnlock (hk : s.icac.Keyed) (hp : s.PointsTo ip iid inode) (hiid : inode.iid = iid)
    {Q : Bool → Sys → Prop}
    (hQ : ∀ s', InodeChanges iid ({ · with locked := false }) s s' → Q false s') :
    Exec.Wp (inodeUnlock w ip) Q E s := by
  refine Exec.wp_bind.mpr (wp_inodeAt hk hp (Exec.wp_bind.mpr ?_))
  rw [hiid]
  obtain ⟨n, hn, _, _⟩ := hp
  refine wp_cacheFind_peek (k := icacOf w) icacOf_lawful hk ?_
  have hget : ((icacOf w).get s).node iid = some n := hn
  rw [hget]
  simp only [nodeUnlock, Exec.wp_bind, Exec.wp_pure]
  refine wp_nodeStore_icac hk hn ?_ hQ
  exact fun _ => ⟨rfl, rfl⟩

/-- The rule for `cache_unlock_return` of an inode that is held. -/
theorem wp_icacUnlockReturn (hk : s.icac.Keyed) (hn : s.icac.node iid = some n)
    (href : n.refcnt ≠ 0)
    {Q : Bool → Sys → Prop} (hQ : ∀ s', InodeChanges iid Node.release s s' → Q false s') :
    Exec.Wp (cacheUnlockReturn w (icacOf w) iid) Q E s := by
  refine Exec.wp_bind.mpr (wp_cacheFind_peek (k := icacOf w) icacOf_lawful hk ?_)
  have hget : ((icacOf w).get s).node iid = some n := hn
  rw [hget]
  simp only [dropReference, nodeUnlock, Exec.wp_bind, Exec.wp_when, href, IsEmpty.forall_iff,
    not_false_eq_true, forall_const, true_and, Exec.wp_pure]
  refine wp_nodeStore_icac hk hn ?_ fun s₁ h₁ => ?_
  · exact fun _ => ⟨rfl, rfl⟩
  have hn₁ : s₁.icac.node iid = some { n with refcnt := n.refcnt - 1 } := by
    rw [h₁.node, Function.update_self, hn, Option.map_some, if_neg href]
  refine wp_nodeStore_icac h₁.keyed hn₁ ?_ fun s₂ h₂ => ?_
  · exact fun _ => ⟨rfl, rfl⟩
  have h := h₁.trans h₂
  refine hQ s₂ ⟨h.keyed, ?_, h.same⟩
  rw [h.node, hn, Option.map_some, Option.map_some]
  simp only [Function.comp_apply, if_neg href, Node.release]

/-- The rule for `inode_unlock_return` of an inode that is held. -/
theorem wp_inodeUnlockReturn (hk : s.icac.Keyed) (hp : s.PointsTo ip iid inode)
    (hiid : inode.iid = iid) (href : ∀ m, s.icac.node iid = some m → m.refcnt ≠ 0)
    {Q : Bool → Sys → Prop} (hQ : ∀ s', InodeChanges iid Node.release s s' → Q false s') :
    Exec.Wp (inodeUnlockReturn w ip) Q E s := by
  refine Exec.wp_bind.mpr (wp_inodeAt hk hp ?_)
  rw [hiid]
  obtain ⟨n, hn, _, _⟩ := hp
  exact wp_icacUnlockReturn hk hn (href n hn) hQ

/-- The rule for `inode_return` of an inode that is held and not locked. -/
theorem wp_inodeReturn (hk : s.icac.Keyed) (hp : s.PointsTo ip iid inode) (hiid : inode.iid = iid)
    (href : ∀ m, s.icac.node iid = some m → m.refcnt ≠ 0)
    (hunlocked : ∀ m, s.icac.node iid = some m → m.locked = false) {Q : Bool → Sys → Prop}
    (hQ : ∀ s', InodeChanges iid Node.release s s' → Q false s') :
    Exec.Wp (inodeReturn w ip) Q E s := by
  refine Exec.wp_bind.mpr (wp_inodeAt hk hp ?_)
  rw [hiid]
  obtain ⟨n, hn, _, _⟩ := hp
  have href' := href n hn
  refine Exec.wp_bind.mpr (wp_cacheFind_peek (k := icacOf w) icacOf_lawful hk ?_)
  have hget : ((icacOf w).get s).node iid = some n := hn
  rw [hget]
  simp only [nodeLock, dropReference, nodeUnlock, hunlocked n hn, Exec.wp_bind, Exec.wp_when, href',
    Bool.false_eq_true, IsEmpty.forall_iff, not_false_eq_true, forall_const, true_and, Exec.wp_pure]
  refine wp_nodeStore_icac hk hn ?_ fun s₁ h₁ => ?_
  · exact fun _ => ⟨rfl, rfl⟩
  have hn₁ : s₁.icac.node iid = some { n with locked := true } := by
    exact h₁.node_self hn
  refine wp_nodeStore_icac h₁.keyed hn₁ ?_ fun s₂ h₂ => ?_
  · exact fun _ => ⟨rfl, rfl⟩
  have hn₂ : s₂.icac.node iid = some { n with locked := true, refcnt := n.refcnt - 1 } := by
    rw [h₂.node, Function.update_self, hn₁, Option.map_some, if_neg href']
  refine wp_nodeStore_icac h₂.keyed hn₂ ?_ fun s₃ h₃ => ?_
  · exact fun _ => ⟨rfl, rfl⟩
  have h := (h₁.trans h₂).trans h₃
  refine hQ s₃ ⟨h.keyed, ?_, h.same⟩
  rw [h.node, hn, Option.map_some, Option.map_some]
  simp only [Function.comp_apply, if_neg href', Node.release]

/-- An inode was changed and marked dirty. -/
theorem Sys.Stored.set (h : s.Stored w 0) (hfull : s.Full) (hn : s.icac.node iid = some n)
    (hcontent : n.content = some inode) {inode' : Inode} (hfits : inode'.Fits)
    (hiid : inode'.iid = inode.iid) (hdip : inode'.dip = inode.dip) (hc : InodeChanges iid g s s')
    (hg : (g n).content = some inode' ∧ (g n).deleted = n.deleted ∧ (g n).dirty = true) :
    s'.Stored w 0 ∧ s'.Full ∧ s'.record = Function.update s.record iid inode'.record := by
  have hnode : s'.icac.node iid = some (g n) := by
    exact hc.node_self hn
  have hinode : s.inodeOf iid = some inode := inodeOf_of_node hn hcontent
  have hinode' : s'.inodeOf iid = some inode' := inodeOf_of_node hnode hg.1
  have hb := h.backs iid n inode hn hcontent
  refine ⟨h.of_nodes hc.same hc.keyed (fun i m inode'' hm hcontent' => ?_) fun i => ?_,
    fun i m hm => ?_, funext fun i => ?_⟩
  · by_cases hi : i = iid
    · subst hi
      rw [hnode] at hm
      cases hm
      rw [hg.1] at hcontent'
      cases hcontent'
      refine ⟨hiid.trans hb.iid_eq, hb.iid_lt, hfits, hg.2.1.trans hb.kept, ?_, fun hclean => ?_⟩
      · rw [hdip]
        exact hb.dip
      · rw [hg.2.2] at hclean
        cases hclean
    · rw [hc.node_of_ne hi] at hm
      exact h.backs i m inode'' hm hcontent'
  · by_cases hi : i = iid
    · rw [hi, hinode, hinode']
      rfl
    · rw [hc.inodeOf_of_ne hi]
  · by_cases hi : i = iid
    · rw [hi, hnode] at hm
      cases hm
      simp [hg.1]
    · rw [hc.node_of_ne hi] at hm
      exact hfull i m hm
  · by_cases hi : i = iid
    · rw [hi, Function.update_self, record_of_inodeOf hinode']
    · rw [Function.update_of_ne hi]
      exact record_congr (hc.inodeOf_of_ne hi) fun _ => by rw [hc.spot_eq]

/-- Empty caches over a disk of zeros hold what is needed. -/
theorem Sys.blank_stored (b : InodeBitmap) :
    ({ blank with ibm := b } : Sys).Stored World.plain 0 := by
  refine ⟨.empty, ⟨blank_bcacOk.keyed, blank_bcacOk.holds⟩, blank_metaInv, fun _ _ _ hn => ?_,
    fun bid _ _ => ?_⟩
  · cases hn
  · have hpinned : ({ blank with ibm := b } : Sys).pinned bid = ∅ :=
      Finset.filter_false_of_mem fun _ _ => Bool.false_ne_true
    rw [hpinned]
    rfl

end

end Efs
