import Efs.DataBitmapSemantics
import Efs.InodeRecord

/-!
# The inode store

The inode cache on top of the block cache. A cached inode holds a reference to its
block, so the block stays where the inode points into it, and an inode that is not dirty
agrees with its block. What the two caches and the disk hold together is one record for
each inode number, and no load, eviction or write back changes it.
-/

namespace Efs

open Library

/-! ## The invariant -/

/-- The record of an inode number: that of the cached inode, or else the one in its block. -/
def Sys.record (s : Sys) (iid : ℕ) : Inode :=
  ((s.inodeOf iid).map Inode.record).getD (loadInode 0 (s.spot (inodeIid2Bid iid)).data iid)

/-- The `k`-th inode number of an inode block. -/
def iidAt (bid k : ℕ) : ℕ := inodePerBlock * (bid - inodeStart) + k

/-- The places in an inode block of inodes that are cached. -/
def Sys.pinned (s : Sys) (bid : ℕ) : Finset ℕ :=
  (Finset.range inodePerBlock).filter fun k => (s.inodeOf (iidAt bid k)).isSome

/-- A node of the inode cache agrees with the block of its inode. -/
structure Sys.Backs (s : Sys) (iid : ℕ) (n : Node Inode) (inode : Inode) : Prop where
  /-- The inode has its number. -/
  iid_eq : inode.iid = iid
  /-- The number is one of the layout. -/
  iid_lt : iid < 32768
  /-- The fields fit in the block. -/
  fits : inode.Fits
  /-- The node is not deleted. -/
  kept : n.deleted = false
  /-- The inode points into its block. -/
  dip : ∃ b, (s.spot (inodeIid2Bid iid)).node = some b ∧ b.addr = inode.dip
  /-- Without changes the record is the one in the block. -/
  clean : n.dirty = false → loadInode 0 (s.spot (inodeIid2Bid iid)).data iid = inode.record

/-- The inode blocks hold what the cached inodes need; each is referenced by its cached
inodes and `extra` times besides. -/
structure Sys.Stored (w : World) (extra : ℕ → ℕ) (s : Sys) : Prop where
  /-- Every inode number has one node. -/
  icac : s.icac.Keyed
  /-- The block cache is good. -/
  ok : s.BcacOk
  /-- The metadata blocks are good. -/
  metaInv : s.MetaInv w
  /-- The nodes agree with their blocks. -/
  backs : ∀ iid n inode, s.icac.node iid = some n → n.content = some inode → s.Backs iid n inode
  /-- The references to the inode blocks. -/
  refs : ∀ bid, inodeStart ≤ bid → bid < bitmapStart →
    (s.spot bid).refs = (s.pinned bid).card + extra bid

/-- Every node of the inode cache holds an inode. -/
def Sys.Full (s : Sys) : Prop := ∀ iid n, s.icac.node iid = some n → n.content ≠ none

section

variable {w : World} {E : Halt → Prop} {extra : ℕ → ℕ} {s s₁ s' : Sys} {bid iid ip : ℕ}
  {inode : Inode} {n : Node Inode}

/-! ## Inode numbers and inode blocks -/

/-- The block of an inode lies in the inode area. -/
theorem inodeIid2Bid_mem (h : iid < 32768) :
    inodeStart ≤ inodeIid2Bid iid ∧ inodeIid2Bid iid < bitmapStart := by
  simp only [inodeIid2Bid, inodeStart, inodePerBlock, bitmapStart]
  omega

/-- An inode is at its place in its block. -/
theorem iidAt_inodeIid2Bid (iid : ℕ) : iidAt (inodeIid2Bid iid) (iid % inodePerBlock) = iid := by
  simp only [iidAt, inodeIid2Bid, inodeStart, inodePerBlock]
  omega

/-- The inodes of a block have this block. -/
theorem inodeIid2Bid_iidAt {k : ℕ} (hle : inodeStart ≤ bid) (hk : k < inodePerBlock) :
    inodeIid2Bid (iidAt bid k) = bid := by
  simp only [iidAt, inodeIid2Bid, inodeStart, inodePerBlock] at hle hk ⊢
  omega

/-- The cached inodes of a block. -/
theorem mem_pinned {k : ℕ} :
    k ∈ s.pinned bid ↔ k < inodePerBlock ∧ ∃ inode, s.inodeOf (iidAt bid k) = some inode := by
  rw [Sys.pinned, Finset.mem_filter, Finset.mem_range, Option.isSome_iff_exists]

/-- A cached inode pins its block. -/
theorem mem_pinned_of_inodeOf (h : s.inodeOf iid = some inode) :
    iid % inodePerBlock ∈ s.pinned (inodeIid2Bid iid) := by
  refine mem_pinned.mpr ⟨Nat.mod_lt _ (by decide), inode, ?_⟩
  rw [iidAt_inodeIid2Bid]
  exact h

/-- The same inodes pin the same blocks. -/
theorem pinned_congr (h : s'.inodeOf = s.inodeOf) : s'.pinned bid = s.pinned bid := by
  unfold Sys.pinned
  rw [h]

/-- An inode left the cache. -/
theorem pinned_of_remove (hinode : s.inodeOf iid = some inode)
    (h : s'.inodeOf = Function.update s.inodeOf iid none) (hle : inodeStart ≤ bid) :
    (s.pinned bid).card = (s'.pinned bid).card + if bid = inodeIid2Bid iid then 1 else 0 := by
  by_cases hbid : bid = inodeIid2Bid iid
  · subst hbid
    have hset : s'.pinned (inodeIid2Bid iid) =
        (s.pinned (inodeIid2Bid iid)).erase (iid % inodePerBlock) := by
      ext k
      rw [Finset.mem_erase, mem_pinned, mem_pinned, h]
      by_cases hk : iidAt (inodeIid2Bid iid) k = iid
      · have hplace : k < inodePerBlock → k = iid % inodePerBlock := by
          simp only [iidAt, inodeIid2Bid, inodeStart, inodePerBlock] at hk ⊢
          omega
        rw [hk, Function.update_self]
        constructor
        · rintro ⟨_, _, hnone⟩
          cases hnone
        · rintro ⟨hne, hlt, _⟩
          exact absurd (hplace hlt) hne
      · rw [Function.update_of_ne hk]
        constructor
        · rintro ⟨hlt, hsome⟩
          refine ⟨?_, hlt, hsome⟩
          rintro rfl
          exact hk (iidAt_inodeIid2Bid iid)
        · rintro ⟨_, hlt, hsome⟩
          exact ⟨hlt, hsome⟩
    rw [if_pos rfl, hset, Finset.card_erase_add_one (mem_pinned_of_inodeOf hinode)]
  · have hset : s'.pinned bid = s.pinned bid := by
      ext k
      rw [mem_pinned, mem_pinned, h]
      refine and_congr_right fun hk => ?_
      have hne : iidAt bid k ≠ iid := by
        rintro rfl
        exact hbid (inodeIid2Bid_iidAt hle hk).symm
      rw [Function.update_of_ne hne]
    rw [if_neg hbid, hset, Nat.add_zero]

/-- An inode came into the cache. -/
theorem pinned_of_add (hnone : s.inodeOf iid = none)
    (h : s'.inodeOf = Function.update s.inodeOf iid (some inode)) (hle : inodeStart ≤ bid) :
    (s'.pinned bid).card = (s.pinned bid).card + if bid = inodeIid2Bid iid then 1 else 0 := by
  have hinode : s'.inodeOf iid = some inode := by rw [h, Function.update_self]
  refine pinned_of_remove hinode ?_ hle
  rw [h, Function.update_idem, ← hnone, Function.update_eq_self]

/-- The record of a cached inode is that of its node. -/
theorem record_of_inodeOf (h : s.inodeOf iid = some inode) : s.record iid = inode.record := by
  simp [Sys.record, h]

/-- The record of another inode is that in its block. -/
theorem record_of_none (h : s.inodeOf iid = none) :
    s.record iid = loadInode 0 (s.spot (inodeIid2Bid iid)).data iid := by
  simp [Sys.record, h]

/-! ## Changes of blocks -/

/-- The cached inodes depend on the inode cache only. -/
theorem inodeOf_of_icac_eq (h : s'.icac = s.icac) : s'.inodeOf = s.inodeOf := by
  funext iid
  rw [Sys.inodeOf, Sys.inodeOf, h]

/-- An inode block still is what its cached inodes need. -/
structure BlockKeeps (extra : ℕ → ℕ) (s s' : Sys) (bid : ℕ) : Prop where
  /-- A pinned block stays where it is. -/
  addr : (s.spot bid).refs ≠ 0 → ∀ b, (s.spot bid).node = some b →
    ∃ b', (s'.spot bid).node = some b' ∧ b'.addr = b.addr
  /-- The block keeps the cached inodes. -/
  record : ∀ iid inode, inodeIid2Bid iid = bid → s.inodeOf iid = some inode →
    loadInode 0 (s'.spot bid).data iid = loadInode 0 (s.spot bid).data iid
  /-- The references. -/
  refs : (s'.spot bid).refs = (s.pinned bid).card + extra bid

/-- A cached inode keeps its block referenced. -/
theorem Sys.Stored.refs_ne (h : s.Stored w extra) (hinode : s.inodeOf iid = some inode)
    (hlt : iid < 32768) : (s.spot (inodeIid2Bid iid)).refs ≠ 0 := by
  have hmem := inodeIid2Bid_mem hlt
  have hpos := Finset.card_pos.mpr ⟨_, mem_pinned_of_inodeOf hinode⟩
  have hrefs := h.refs _ hmem.1 hmem.2
  omega

/-- Changes of blocks keep the store when the inode blocks keep what is needed. -/
theorem Sys.Stored.of_blocks {extra' : ℕ → ℕ} (h : s.Stored w extra) (hicac : s'.icac = s.icac)
    (hok : s'.BcacOk) (hmeta : s'.MetaInv w)
    (hblock : ∀ bid, inodeStart ≤ bid → bid < bitmapStart → BlockKeeps extra' s s' bid) :
    s'.Stored w extra' := by
  have hinodeOf := inodeOf_of_icac_eq hicac
  refine ⟨hicac ▸ h.icac, hok, hmeta, fun iid n inode hn hcontent => ?_, fun bid hle hlt => ?_⟩
  · rw [hicac] at hn
    have hinode : s.inodeOf iid = some inode := by simp [Sys.inodeOf, hn, hcontent]
    have hb := h.backs iid n inode hn hcontent
    have hmem := inodeIid2Bid_mem hb.iid_lt
    have hk := hblock _ hmem.1 hmem.2
    obtain ⟨b, hbnode, hbaddr⟩ := hb.dip
    obtain ⟨b', hb', haddr⟩ := hk.addr (h.refs_ne hinode hb.iid_lt) b hbnode
    refine ⟨hb.iid_eq, hb.iid_lt, hb.fits, hb.kept, ⟨b', hb', haddr.trans hbaddr⟩, fun hclean => ?_⟩
    rw [hk.record iid inode rfl hinode]
    exact hb.clean hclean
  · rw [(hblock bid hle hlt).refs, pinned_congr hinodeOf]

/-- A block that is as it was, or was evicted while nobody held it. -/
theorem Spot.steady {l l' : Spot} (hfilled : l.Filled) (hok : l.MetaOk w)
    (h : l' = l ∨ l.Idle ∧ l' = l.evict w bid) :
    l'.data = l.data ∧ l'.refs = l.refs ∧ (l.refs ≠ 0 → l' = l) := by
  rcases h with rfl | ⟨hidle, rfl⟩
  · exact ⟨rfl, rfl, fun _ => rfl⟩
  · refine ⟨data_evict hfilled hok.dirty_or, ?_, fun href => absurd hidle.refs_eq href⟩
    rw [refs_eq_zero node_evict, hidle.refs_eq]

/-- An inode block that nobody changed. -/
theorem Sys.Stored.blockKeeps (h : s.Stored w extra) (hle : inodeStart ≤ bid)
    (hlt : bid < bitmapStart)
    (hspot : s'.spot bid = s.spot bid ∨ (s.spot bid).Idle ∧
      s'.spot bid = (s.spot bid).evict w bid) :
    BlockKeeps extra s s' bid ∧ (s'.spot bid).data = (s.spot bid).data := by
  have hmeta : (s.spot bid).MetaOk w := (h.metaInv bid hle (hlt.trans (by decide))).metaOk
  obtain ⟨hdata, hrefs, hsame⟩ := Spot.steady (h.ok.filled bid) hmeta hspot
  refine ⟨⟨fun href b hb => ⟨b, ?_, rfl⟩, fun iid inode _ _ => by rw [hdata], ?_⟩, hdata⟩
  · rw [hsame href]
    exact hb
  · rw [hrefs]
    exact h.refs bid hle hlt

/-- Records of which no inode block changed. -/
theorem record_congr (hinode : s'.inodeOf iid = s.inodeOf iid)
    (hload : s.inodeOf iid = none → loadInode 0 (s'.spot (inodeIid2Bid iid)).data iid =
      loadInode 0 (s.spot (inodeIid2Bid iid)).data iid) : s'.record iid = s.record iid := by
  cases h : s.inodeOf iid with
  | some inode => rw [record_of_inodeOf h, record_of_inodeOf (hinode.trans h)]
  | none => rw [record_of_none h, record_of_none (hinode.trans h), hload h]

/-- The cached copy of a block that nobody has locked. -/
theorem Spot.cached_self {l : Spot} {n : Node Block} {block : Block} {iv key : Key128}
    (hn : l.node = some n) (hcontent : n.content = some block) (hunlocked : l.Unlocked)
    (hkeys : l.KeysOk iv key) : l.Cached l n.addr l.refs false l.dirty iv key l.data := by
  have hblock : l.block = some block := by simp [Spot.block, hn, hcontent]
  obtain ⟨hiv, hkey⟩ := hkeys block hblock
  refine ⟨⟨n, block, hn, rfl, ?_, hunlocked n hn, ?_, hcontent, ?_, hiv, hkey⟩, rfl⟩
  · simp [Spot.refs, hn]
  · simp [Spot.dirty, hn]
  · simp [Spot.data, hblock]

/-! ## Write back of an inode -/

/-- The store after an evicted inode gave its block back, in which it was left. -/
theorem Sys.Stored.written (hw : w.Honest) (h : s.Stored w (Pi.single (inodeIid2Bid iid) 1))
    (hnone : s.inodeOf iid = none) (hlt : iid < 32768) {addr refcnt : ℕ} {dirty : Bool} {d : Data}
    (hstill : Still (inodeIid2Bid iid) s s')
    (hcached : (s.spot (inodeIid2Bid iid)).Cached
      (s'.spot (inodeIid2Bid iid)) addr refcnt false dirty
      (s.sb.aesIv (inodeIid2Bid iid)) (s.sb.aesKey (inodeIid2Bid iid)) d)
    (haddr : ∀ b, (s.spot (inodeIid2Bid iid)).node = some b → b.addr = addr)
    (hrefs : refcnt + 1 = (s.spot (inodeIid2Bid iid)).refs)
    (hdirty : dirty = true ∨
      dirty = (s.spot (inodeIid2Bid iid)).dirty ∧ d = (s.spot (inodeIid2Bid iid)).data)
    (hself : loadInode 0 d iid = inode.record)
    (hother : ∀ iid', iid % 8 ≠ iid' % 8 →
      loadInode 0 d iid' = loadInode 0 (s.spot (inodeIid2Bid iid)).data iid') :
    s'.Stored w 0 ∧ s'.record = Function.update s.record iid inode.record := by
  obtain ⟨hle, hlt'⟩ := inodeIid2Bid_mem hlt
  have hicac : s'.icac = s.icac := (hstill.settles (w := w)).icac_eq
  have hinodeOf := inodeOf_of_icac_eq hicac
  have hdata : (s'.spot (inodeIid2Bid iid)).data = d := hcached.data_eq
  have hgood : (s'.spot (inodeIid2Bid iid)).MetaGood w (s.sb.aesIv (inodeIid2Bid iid))
      (s.sb.aesKey (inodeIid2Bid iid)) := by
    rcases hdirty with rfl | ⟨rfl, rfl⟩
    · exact hcached.metaGood
    · exact (h.metaInv _ hle (hlt'.trans (by decide))).cached hcached
  have hmeta : s'.MetaInv w := by
    refine h.metaInv.settles hw h.ok hstill.settles ?_
    rintro b rfl _ _
    exact hgood
  constructor
  · refine h.of_blocks hicac hstill.ok hmeta fun b hb hb' => ?_
    by_cases heq : b = inodeIid2Bid iid
    · subst heq
      refine ⟨fun _ b hbnode => ?_, fun iid' inode' hiid' hinode' => ?_, ?_⟩
      · obtain ⟨n, block, hn, hnaddr, _⟩ := hcached.node
        exact ⟨n, hn, hnaddr.trans (haddr b hbnode).symm⟩
      · rw [hdata]
        refine hother iid' fun hmod => ?_
        rw [iid_eq hiid' hmod.symm, hnone] at hinode'
        cases hinode'
      · have hold := h.refs _ hle hlt'
        rw [Pi.single_eq_same] at hold
        rw [hcached.refs_eq]
        simp only [Pi.zero_apply]
        omega
    · have hkeeps := (h.blockKeeps hb hb' (Or.inl (hstill.other b heq))).1
      refine ⟨hkeeps.addr, hkeeps.record, ?_⟩
      rw [hkeeps.refs, Pi.single_eq_of_ne heq]
      rfl
  · funext iid'
    by_cases hiid : iid' = iid
    · subst hiid
      rw [Function.update_self, record_of_none (by rw [hinodeOf, hnone]), hdata, hself]
    · rw [Function.update_of_ne hiid]
      refine record_congr (by rw [hinodeOf]) fun _ => ?_
      by_cases hb : inodeIid2Bid iid' = inodeIid2Bid iid
      · rw [hb, hdata]
        exact hother iid' fun hmod => hiid (iid_eq hb hmod.symm)
      · rw [hstill.other _ hb]

/-- Another inode cache is none of the blocks. -/
theorem Still.icac {c : Cache Inode} (h : Still bid s s') :
    Still bid ({ s with icac := c } : Sys) { s' with icac := c } := by
  refine ⟨⟨h.ok.keyed, h.ok.holds⟩, h.other, h.loads, ?_, h.hint⟩
  exact congrArg (fun r => (c, r.2)) h.rest

/-- The rule for `icache_cb_write` on an inode that is not deleted and not in the cache `c`. -/
theorem wp_icacheCbWrite_of (c : Cache Inode) (hw : w.Reliable)
    (h : ({ s with icac := c } : Sys).Stored w (Pi.single (inodeIid2Bid iid) 1))
    (hnone : ({ s with icac := c } : Sys).inodeOf iid = none) (hcontent : n.content = some inode)
    (hb : s.Backs iid n inode) {Q : Bool → Sys → Prop}
    (hQ : ∀ s', ({ s' with icac := c } : Sys).Stored w 0 →
      ({ s' with icac := c } : Sys).record =
        Function.update ({ s with icac := c } : Sys).record iid inode.record →
      Still (inodeIid2Bid iid) s s' → (∀ b, (s'.spot b).pending = (s.spot b).pending) →
        Q false s') :
    Exec.Wp (icacheCbWrite w n.content iid n.dirty n.deleted) Q E s := by
  have hpending : ∀ {s' : Sys}, Still (inodeIid2Bid iid) s s' →
      (s'.spot (inodeIid2Bid iid)).pending = (s.spot (inodeIid2Bid iid)).pending →
      ∀ b, (s'.spot b).pending = (s.spot b).pending := by
    intro s' hstill hself b
    by_cases heq : b = inodeIid2Bid iid
    · rw [heq, hself]
    · rw [hstill.other b heq]
  obtain ⟨hle, hlt⟩ := inodeIid2Bid_mem hb.iid_lt
  have hok : s.BcacOk := ⟨h.ok.keyed, h.ok.holds⟩
  have hgood : (s.spot (inodeIid2Bid iid)).MetaGood w (s.sb.aesIv (inodeIid2Bid iid))
      (s.sb.aesKey (inodeIid2Bid iid)) := h.metaInv _ hle (hlt.trans (by decide))
  obtain ⟨b, hbnode, hbaddr⟩ := hb.dip
  obtain ⟨block, hblock, _⟩ := (hok.holds _ b hbnode).content
  have hself := Spot.cached_self hbnode hblock hgood.unlocked hgood.keysOk
  have hrefs : (s.spot (inodeIid2Bid iid)).refs =
      (({ s with icac := c } : Sys).pinned (inodeIid2Bid iid)).card + 1 := by
    have hrefs := h.refs _ hle hlt
    rwa [Pi.single_eq_same] at hrefs
  have haddr : ∀ b', (s.spot (inodeIid2Bid iid)).node = some b' → b'.addr = b.addr := by
    intro b' hb'
    rw [hbnode] at hb'
    cases hb'
    rfl
  simp only [icacheCbWrite, hb.kept, Bool.false_eq_true, if_false]
  cases hdirty : n.dirty with
  | true =>
    simp only [if_true, hcontent, writeInode, dipStore]
    refine Exec.wp_bind.mpr (Exec.wp_bind.mpr
      (wp_blockLock_quiet hok.safe (hok.holds _) hself fun s₁ h₁ hc₁ => ?_))
    have hs₁ := h₁.still hok
    refine Exec.wp_bind.mpr (Exec.wp_bind.mpr ?_)
    rw [← hbaddr, hb.iid_eq]
    refine wp_blockAt_held hs₁.ok hc₁ fun _ _ _ => ?_
    refine wp_dataStore_held hs₁.ok hc₁ fun s₂ h₂ hc₂ => ?_
    refine Exec.wp_bind.mpr (wp_blockMakeDirty_held h₂.ok hc₂ fun s₃ h₃ hc₃ => ?_)
    refine Exec.wp_bind.mpr (wp_blockUnlock_quiet h₃.ok.safe
      (h₃.ok.holds _) hc₃ fun s₄ h₄ hc₄ => ?_)
    have hs₄ := h₄.still h₃.ok
    rw [hrefs] at hc₄
    refine Exec.wp_bind.mpr (wp_breturnToCache_quiet h₄.safe
      (hs₄.ok.holds _) hc₄ fun s₅ h₅ hc₅ => ?_)
    have hstill := (((hs₁.trans h₂).trans h₃).trans hs₄).trans (h₅.still hs₄.ok)
    have hround := loadInode_setDinode (d := (s.spot (inodeIid2Bid iid)).data) hb.fits
    rw [hb.iid_eq] at hround
    obtain ⟨hstored, hrecord⟩ := h.written hw hnone hb.iid_lt hstill.icac hc₅ haddr hrefs.symm
      (Or.inl rfl) hround fun iid' hne => loadInode_setDinode_of_ne hne
    exact hQ s₅ hstored hrecord hstill (hpending hstill hc₅.pending_eq)
  | false =>
    simp only [Bool.false_eq_true, if_false]
    rw [hrefs] at hself
    refine Exec.wp_bind.mpr (wp_breturnToCache_quiet hok.safe
      (hok.holds _) hself fun s₁ h₁ hc₁ => ?_)
    have hstill := h₁.still hok
    obtain ⟨hstored, hrecord⟩ := h.written hw hnone hb.iid_lt hstill.icac hc₁ haddr hrefs.symm
      (Or.inr ⟨rfl, rfl⟩) (hb.clean hdirty) fun _ _ => rfl
    exact hQ s₁ hstored hrecord hstill (hpending hstill hc₁.pending_eq)

/-- The rule for `icache_cb_write` on an inode that is not deleted and left the cache. -/
theorem wp_icacheCbWrite (hw : w.Reliable) (h : s.Stored w (Pi.single (inodeIid2Bid iid) 1))
    (hnone : s.inodeOf iid = none) (hcontent : n.content = some inode) (hb : s.Backs iid n inode)
    {Q : Bool → Sys → Prop}
    (hQ : ∀ s', s'.Stored w 0 → s'.record = Function.update s.record iid inode.record →
      Still (inodeIid2Bid iid) s s' → Q false s') :
    Exec.Wp (icacheCbWrite w n.content iid n.dirty n.deleted) Q E s := by
  refine wp_icacheCbWrite_of s.icac hw h hnone hcontent hb fun s' hstored hrecord hstill _ => ?_
  have hicac : s'.icac = s.icac := (hstill.settles (w := w)).icac_eq
  have hsame : ({ s' with icac := s.icac } : Sys) = s' := by rw [← hicac]
  rw [hsame] at hstored hrecord
  exact hQ s' hstored hrecord hstill

/-! ## Evictions -/

/-- The store after a node left the inode cache, before the callback gets it. -/
theorem Sys.Stored.drop (h : s.Stored w 0) {d : Node Inode} (hd : s.icac.node d.id = some d)
    (hcontent : d.content = some inode) {c : Cache Inode} (hc : c.Keyed)
    (hnode : ∀ i m, c.node i = some m → m.content ≠ none → s.icac.node i = some m)
    (hinode : ({ s with icac := c } : Sys).inodeOf = Function.update s.inodeOf d.id none) :
    ({ s with icac := c } : Sys).Stored w (Pi.single (inodeIid2Bid d.id) 1) ∧
      ({ s with icac := c } : Sys).Backs d.id d inode := by
  have hbacks : ∀ iid n inode, s.Backs iid n inode →
    ({ s with icac := c } : Sys).Backs iid n inode :=
    fun _ _ _ hb => ⟨hb.iid_eq, hb.iid_lt, hb.fits, hb.kept, hb.dip, hb.clean⟩
  have hold : s.inodeOf d.id = some inode := by simp [Sys.inodeOf, hd, hcontent]
  refine ⟨⟨hc, h.ok.of_node h.ok.keyed fun _ _ hn => hn, h.metaInv,
    fun iid n inode' hn hcontent' => ?_,
    fun bid hle hlt => ?_⟩, hbacks _ _ _ (h.backs _ d inode hd hcontent)⟩
  · have hn' := hnode iid n hn (by simp [hcontent'])
    exact hbacks _ _ _ (h.backs iid n inode' hn' hcontent')
  · have hrefs := h.refs bid hle hlt
    have hcard := pinned_of_remove hold hinode hle
    change (s.spot bid).refs = _
    rw [hrefs, hcard, Pi.zero_apply, Nat.add_zero, Pi.single_apply]

/-- The rule for `node_free` of a node that left the inode cache. -/
theorem wp_freeEvicted_icac (hw : w.Reliable) (h : s.Stored w 0) {d : Node Inode}
    (hd : s.icac.node d.id = some d) (hcontent : d.content = some inode) {c : Cache Inode}
    (hc : c.Keyed) (hnode : ∀ i m, c.node i = some m → m.content ≠ none → s.icac.node i = some m)
    (hinode : ({ s with icac := c } : Sys).inodeOf = Function.update s.inodeOf d.id none)
    {Q : Unit → Sys → Prop}
    (hQ : ∀ s', s'.Stored w 0 → s'.record = s.record →
      Still (inodeIid2Bid d.id) { s with icac := c } s' → Q () s') :
    Exec.Wp (freeEvicted w (icacOf w) (some d)) Q E { s with icac := c } := by
  obtain ⟨hstored, hbacks⟩ := h.drop hd hcontent hc hnode hinode
  have hnone : ({ s with icac := c } : Sys).inodeOf d.id =
    none := by rw [hinode, Function.update_self]
  simp only [freeEvicted, nodeFree, Exec.wp_bind]
  refine wp_icacheCbWrite hw hstored hnone hcontent hbacks fun s' hstored' hrecord hstill => ?_
  simp only [Exec.wp_when, Exec.wp_pure, Bool.false_eq_true, not_false_eq_true, forall_const,
    IsEmpty.forall_iff, true_and]
  refine hQ s' hstored' ?_ hstill
  have hold : s.inodeOf d.id = some inode := by simp [Sys.inodeOf, hd, hcontent]
  rw [hrecord]
  funext iid
  by_cases hiid : iid = d.id
  · subst hiid
    rw [Function.update_self, record_of_inodeOf hold]
  · rw [Function.update_of_ne hiid]
    refine record_congr ?_ fun _ => rfl
    rw [hinode, Function.update_of_ne hiid]

end

end Efs
