import Efs.BlockCalls

/-!
# Blocks that a caller holds

Between `bget_from_cache_lock` and `block_unlock_return` a caller holds a block:
its node is referenced and locked, so nothing evicts it. What the caller does in
between is described by the data and the dirty flag that the node ends with.
-/

namespace Efs

open Library

namespace Spot

/-- The cached copy is not locked. -/
def Unlocked (l : Spot) : Prop := ∀ n ∈ l.node, n.locked = false

/-- A load of the block with these keys and this expected hash gives its data. -/
structure Ready (w : World) (iv key : Key128) (expHash : Option Key256) (l : Spot) : Prop where
  /-- Nobody has locked the block. -/
  unlocked : l.Unlocked
  /-- The cached copy has the keys. -/
  keys : l.KeysOk iv key
  /-- A load gives what was last written back. -/
  fetched : l.node = none → l.fetched w iv key expHash = l.evicted
  /-- The hash is the expected one. -/
  valid : l.node = none → ∀ hash ∈ expHash, w.sha256 (w.decrypt iv key l.disk) = hash

/-- The spot `l'` is `l` with this node. -/
structure Cached (l l' : Spot) (addr refcnt : ℕ) (locked dirty : Bool) (iv key : Key128)
    (d : Data) : Prop where
  /-- The node. -/
  node : ∃ n block, l'.node = some n ∧ n.addr = addr ∧ n.refcnt = refcnt ∧ n.locked = locked ∧
    n.dirty = dirty ∧ n.content = some block ∧ block.data = d ∧ block.aesIv = iv ∧
    block.aesKey = key
  /-- The rest is that of `l`. -/
  same : l' = { l with node := l'.node }

section

variable {w : World} {l l' : Spot} {addr refcnt : ℕ} {locked dirty : Bool} {iv key : Key128}
  {d : Data} {hash : Key256}

/-- A block that gets cached keeps what the callback would get. -/
theorem Cached.evicted_eq (h : l.Cached l' addr refcnt locked dirty iv key d) :
    l'.evicted = l.evicted := by rw [h.same]

/-- A block that gets cached keeps its entry in `pd_wb`. -/
theorem Cached.pending_eq (h : l.Cached l' addr refcnt locked dirty iv key d) :
    l'.pending = l.pending := by rw [h.same]

/-- A block that gets cached keeps its data on the disk. -/
theorem Cached.disk_eq (h : l.Cached l' addr refcnt locked dirty iv key d) :
    l'.disk = l.disk := by rw [h.same]

/-- A block that gets cached keeps its hash in the superblock. -/
theorem Cached.sbHash_eq (h : l.Cached l' addr refcnt locked dirty iv key d) :
    l'.sbHash = l.sbHash := by rw [h.same]

/-- The data of a cached block is that of its node. -/
theorem Cached.data_eq (h : l.Cached l' addr refcnt locked dirty iv key d) : l'.data = d := by
  obtain ⟨n, block, hn, _, _, _, _, hcontent, hdata, _⟩ := h.node
  simp [data, Spot.block, hn, hcontent, hdata]

/-- The mark of a cached block is that of its node. -/
theorem Cached.dirty_eq (h : l.Cached l' addr refcnt locked dirty iv key d) : l'.dirty = dirty := by
  obtain ⟨n, block, hn, _, _, _, hdirty, _⟩ := h.node
  simp [Spot.dirty, hn, hdirty]

/-- The references of a cached block are those of its node. -/
theorem Cached.refs_eq (h : l.Cached l' addr refcnt locked dirty iv key d) : l'.refs = refcnt := by
  obtain ⟨n, block, hn, _, href, _⟩ := h.node
  simp [refs, hn, href]

/-- The keys of a cached block are those of its node. -/
theorem Cached.keysOk (h : l.Cached l' addr refcnt locked dirty iv key d) : l'.KeysOk iv key := by
  obtain ⟨n, block, hn, _, _, _, _, hcontent, _, hiv, hkey⟩ := h.node
  intro b hb
  simp only [Spot.block, hn, Option.bind_some, hcontent, Option.mem_def, Option.some.injEq] at hb
  subst hb
  exact ⟨hiv, hkey⟩

/-- A cached block is unlocked when its node is. -/
theorem Cached.unlocked (h : l.Cached l' addr refcnt false dirty iv key d) : l'.Unlocked := by
  obtain ⟨n, block, hn, _, _, hlocked, _⟩ := h.node
  intro m hm
  rw [hn] at hm
  cases hm
  exact hlocked

/-- What was last written back is still right after the block was only read. -/
theorem Cached.metaOk (h : l.Cached l' addr refcnt locked l.dirty iv key l.data)
    (hok : l.MetaOk w) : l'.MetaOk w := by
  rw [MetaOk, h.dirty_eq, h.data_eq, h.evicted_eq, h.sbHash_eq]
  exact hok

/-- The hash of a block stays right when its data and mark stay. -/
theorem Cached.hashOk (h : l.Cached l' addr refcnt locked l.dirty iv key l.data)
    (hok : l.HashOk w hash) : l'.HashOk w hash := by
  rw [HashOk, h.dirty_eq, h.data_eq, h.evicted_eq, h.pending_eq]
  exact hok

/-- The disk stays right for a block when its data and mark stay. -/
theorem Cached.diskOk (h : l.Cached l' addr refcnt locked l.dirty iv key l.data)
    (hok : l.DiskOk w iv key) : l'.DiskOk w iv key := by
  rw [DiskOk, h.dirty_eq, h.disk_eq, h.evicted_eq]
  exact hok

/-- Nothing is asked of the last write back of a dirty block. -/
theorem Cached.metaOk_of_dirty (h : l.Cached l' addr refcnt locked true iv key d) : l'.MetaOk w :=
  Or.inl h.dirty_eq

/-- No hash is needed for a dirty block. -/
theorem Cached.hashOk_of_dirty (h : l.Cached l' addr refcnt locked true iv key d) :
    l'.HashOk w hash := Or.inl h.dirty_eq

/-- The disk is not needed for a dirty block. -/
theorem Cached.diskOk_of_dirty (h : l.Cached l' addr refcnt locked true iv key d) :
    l'.DiskOk w iv key := Or.inl h.dirty_eq

/-- An evicted block is unlocked. -/
theorem Unlocked.evict {bid : ℕ} : (l.evict w bid).Unlocked := by
  intro n hn
  simp at hn

end

end Spot

/-! ## The calls of a caller -/

/-- The spot of a block that is not deleted changed, and nothing else. -/
structure Quiet (bid : ℕ) (s s' : Sys) : Prop where
  /-- The nodes can be freed. -/
  safe : s'.BcacSafe
  /-- The block is not deleted. -/
  holds : ∀ n, (s'.spot bid).node = some n → n.Holds bid
  /-- The other spots are the same. -/
  other : ∀ b ≠ bid, s'.spot b = s.spot b
  /-- No block was loaded. -/
  loads : s'.loads = s.loads
  /-- What is not in a spot is the same. -/
  rest : s'.rest = s.rest
  /-- The search hint of the data bitmap is the same. -/
  hint : s'.dbmFirstEmptyWord = s.dbmFirstEmptyWord

/-- The spot of a block changed, and nothing else. -/
structure Still (bid : ℕ) (s s' : Sys) : Prop where
  /-- The block cache is good. -/
  ok : s'.BcacOk
  /-- The other spots are the same. -/
  other : ∀ b ≠ bid, s'.spot b = s.spot b
  /-- No block was loaded. -/
  loads : s'.loads = s.loads
  /-- What is not in a spot is the same. -/
  rest : s'.rest = s.rest
  /-- The search hint of the data bitmap is the same. -/
  hint : s'.dbmFirstEmptyWord = s.dbmFirstEmptyWord

section

variable {w : World} {E : Halt → Prop} {s s₁ s' : Sys} {bid addr refcnt : ℕ} {l : Spot}
  {dirty : Bool} {iv key : Key128} {d : Data}

/-- When a block is quiet no other block changes. -/
theorem Quiet.fades (h : Quiet bid s s') : Fades w {bid} [] s s' :=
  ⟨fun b hb => Or.inl (h.other b hb), h.loads, h.rest⟩

/-- A change of a node that keeps its block is quiet. -/
theorem Alters.quiet {f : Node Block → Node Block} (h : Alters bid f s s') {n : Node Block}
    (hn : (s.spot bid).node = some n) (hf : (f n).Holds bid) : Quiet bid s s' := by
  refine ⟨h.safe, fun m hm => ?_, h.other, h.loads, h.rest, h.hint⟩
  obtain rfl := Option.some.inj ((h.node hn).symm.trans hm)
  exact hf

/-- A block that is still twice is still. -/
theorem Still.trans {s₁ : Sys} (h₁ : Still bid s s₁) (h₂ : Still bid s₁ s') : Still bid s s' :=
  ⟨h₂.ok, fun b hb => (h₂.other b hb).trans (h₁.other b hb), h₂.loads.trans h₁.loads,
    h₂.rest.trans h₁.rest, h₂.hint.trans h₁.hint⟩

/-- A block that is still settles. -/
theorem Still.settles (h : Still bid s s') : Settles w {bid} [] s s' :=
  ⟨fun b hb => Or.inl (h.other b hb), h.loads, h.rest⟩

/-- A quiet block is still when the cache is in order. -/
theorem Quiet.still (h : Quiet bid s s') (hs : s.BcacOk) : Still bid s s' := by
  refine ⟨⟨h.safe.keyed, fun b n hn => ?_⟩, h.other, h.loads, h.rest, h.hint⟩
  by_cases hb : b = bid
  · subst hb
    exact h.holds n hn
  · exact hs.holds b n ((congrArg Spot.node (h.other b hb)).symm.trans hn)

/-- The rule for `bget_from_cache_lock` of a block that is ready and not deleted. -/
theorem wp_bget_quiet (hw : w.Honest) (hs : s.BcacSafe)
    (hholds : ∀ n, (s.spot bid).node = some n → n.Holds bid) (hbid : inodeStart ≤ bid)
    {expHash : Option Key256} {hashidx : HashIdx}
    (hready : (s.spot bid).Ready w iv key expHash) {Q : Option ℕ → Sys → Prop}
    (hQ : ∀ addr added s', s'.BcacSafe → (∀ n, (s'.spot bid).node = some n → n.Holds bid) →
      Fades w {bid} added s s' →
      ((∃ n, (s.spot bid).node = some n ∧ n.addr = addr) ∧ added = [] ∨
        (s.spot bid).node = none ∧ added = loaded bid hashidx) →
      (s.spot bid).Cached (s'.spot bid) addr ((s.spot bid).refs + 1) true (s.spot bid).dirty iv key
        (s.spot bid).data → Q (some addr) s')
    (hE : ¬s.bcac.Admits bid → E .nodeLost ∧ E .nullDeref) :
    Exec.Wp (bgetFromCacheLock w bid hashidx iv key expHash) Q E s := by
  cases hn : (s.spot bid).node with
  | some n =>
    have hn' := hholds n hn
    obtain ⟨block, hcontent, htype, hblock⟩ := hn'.content
    obtain ⟨hiv, hkey⟩ := hready.keys block (by simp [Spot.block, hn, hcontent])
    refine wp_bgetFromCacheLock_some hw hs hn (hready.unlocked n hn) hn' ?_ fun hroom =>
      (hE hroom).1
    intro s' hs' hfades hspot
    refine hQ n.addr [] s' hs' (fun m hm => ?_) hfades (Or.inl ⟨⟨n, hn, rfl⟩, rfl⟩)
      ⟨⟨n.take, block, by rw [hspot], rfl, ?_, rfl, ?_, hcontent, ?_, hiv, hkey⟩, ?_⟩
    · rw [hspot] at hm
      obtain rfl := Option.some.inj hm
      exact ⟨hn'.inodeStart_le, hn'.deleted_eq, block, hcontent, htype, hblock⟩
    · simp [Spot.refs, hn, Node.take]
    · simp [Spot.dirty, hn, Node.take]
    · simp [Spot.data, Spot.block, hn, hcontent]
    · rw [hspot]
  | none =>
    refine wp_bgetFromCacheLock_none hw hs hn hbid (hready.valid hn) ?_ hE
    intro addr s' hs' hfades hspot
    refine hQ addr _ s' hs' (fun m hm => ?_) hfades (Or.inr ⟨hn, rfl⟩)
      ⟨⟨_, _, by rw [hspot], rfl, ?_, rfl, ?_, rfl, ?_, rfl, rfl⟩, by rw [hspot]⟩
    · rw [hspot] at hm
      obtain rfl := Option.some.inj hm
      exact ⟨hbid, rfl, _, rfl, rfl, rfl⟩
    · simp [Spot.refs, hn]
    · simp [Spot.dirty, hn]
    · rw [hready.fetched hn]
      simp [Spot.data, Spot.block, hn]

/-- The rule for `bget_from_cache_lock` of a block that is ready. -/
theorem wp_bget (hw : w.Honest) (hs : s.BcacOk) (hbid : inodeStart ≤ bid)
    {expHash : Option Key256} {hashidx : HashIdx}
    (hready : (s.spot bid).Ready w iv key expHash) {Q : Option ℕ → Sys → Prop}
    (hQ : ∀ addr added s', s'.BcacOk → Settles w {bid} added s s' →
      ((s.spot bid).node ≠ none ∧ added = [] ∨
        (s.spot bid).node = none ∧ added = loaded bid hashidx) →
      (s.spot bid).Cached (s'.spot bid) addr ((s.spot bid).refs + 1) true (s.spot bid).dirty iv key
        (s.spot bid).data → Q (some addr) s')
    (hE : ¬s.Roomy 0 → E .nodeLost ∧ E .nullDeref) :
    Exec.Wp (bgetFromCacheLock w bid hashidx iv key expHash) Q E s := by
  refine wp_bget_quiet hw hs.safe (hs.holds bid) hbid hready ?_ fun hadmits =>
    hE fun hroom => hadmits (hroom.admits hs.keyed)
  intro addr added s' hs' hholds hfades hadded hcached
  have hok : s'.BcacOk := by
    refine hfades.bcacOk hs hs'.keyed ?_
    rintro b rfl n hn
    exact hholds n hn
  refine hQ addr added s' hok (hfades.settles hs) (hadded.imp_left fun h => ⟨?_, h.2⟩) hcached
  obtain ⟨n, hn, _⟩ := h.1
  simp [hn]

/-- The rule for a read through the pointer to a cached block. -/
theorem wp_blockAt (hkeyed : s.bcac.Keyed) {n : Node Block} {block : Block}
    (hn : (s.spot bid).node = some n) (hblock : n.content = some block)
    {Q : Block → Sys → Prop} (hQ : Q block s) : Exec.Wp (blockAt n.addr) Q E s := by
  have hcontent : s.bcac.contentAt n.addr = some block := by
    rw [hkeyed.contentAt hn, hblock]
  simp only [blockAt, Exec.wp_bind, Exec.wp_read, hcontent]
  exact hQ

/-- The rule for a read of a block that is held. -/
theorem wp_blockAt_quiet (hs : s.BcacSafe) (hholds : ∀ n, (s.spot bid).node = some n → n.Holds bid)
    {locked : Bool} (h : l.Cached (s.spot bid) addr refcnt locked dirty iv key d)
    {Q : Block → Sys → Prop} (hQ : ∀ block, block.data = d → block.bid = bid → Q block s) :
    Exec.Wp (blockAt addr) Q E s := by
  obtain ⟨n, block, hn, rfl, _, _, _, hcontent, hdata, _⟩ := h.node
  refine wp_blockAt hs.keyed hn hcontent (hQ block hdata ?_)
  obtain ⟨block', hcontent', _, hbid⟩ := (hholds n hn).content
  rw [hcontent] at hcontent'
  cases hcontent'
  exact hbid

/-- The rule for a read of a block that is held. -/
theorem wp_blockAt_held (hs : s.BcacOk) {locked : Bool}
    (h : l.Cached (s.spot bid) addr refcnt locked dirty iv key d) {Q : Block → Sys → Prop}
    (hQ : ∀ block, block.data = d → block.bid = bid → Q block s) :
    Exec.Wp (blockAt addr) Q E s :=
  wp_blockAt_quiet hs.safe (hs.holds bid) h hQ

/-- The rule for a store into a block that is held. -/
theorem wp_dataStore_quiet (hs : s.BcacSafe) (hholds : ∀ n, (s.spot bid).node = some n →
    n.Holds bid)
    {locked : Bool} (h : l.Cached (s.spot bid) addr refcnt locked dirty iv key d) {f : Data → Data}
    {Q : Unit → Sys → Prop}
    (hQ : ∀ s', Quiet bid s s' → l.Cached (s'.spot bid) addr refcnt locked dirty iv key (f d) →
      Q () s') : Exec.Wp (dataStore w addr f) Q E s := by
  obtain ⟨n, block, hn, rfl, href, hlocked, hdirty, hcontent, hdata, hiv, hkey⟩ := h.node
  have hholds' : (n.mapData f).Holds bid := (hholds n hn).mapData f
  refine wp_nodeStore_safe (f := Node.mapData f) hs hn (fun _ => ⟨rfl, rfl⟩)
    (Or.inl hholds') fun s' halters => ?_
  refine hQ s' (halters.quiet hn hholds')
    ⟨⟨n.mapData f, { block with data := f block.data }, halters.node hn, rfl, href, hlocked,
      hdirty, ?_, ?_, hiv, hkey⟩, ?_⟩
  · simp [Node.mapData, hcontent]
  · rw [hdata]
  · rw [halters.spot_eq, Spot.mapNode, h.same]

/-- The rule for a store into a block that is held. -/
theorem wp_dataStore_held (hs : s.BcacOk) {locked : Bool}
    (h : l.Cached (s.spot bid) addr refcnt locked dirty iv key d) {f : Data → Data}
    {Q : Unit → Sys → Prop}
    (hQ : ∀ s', Still bid s s' → l.Cached (s'.spot bid) addr refcnt locked dirty iv key (f d) →
      Q () s') : Exec.Wp (dataStore w addr f) Q E s :=
  wp_dataStore_quiet hs.safe (hs.holds bid) h fun s' hquiet => hQ s' (hquiet.still hs)

/-- The rule for `block_make_dirty` of a block that is cached. -/
theorem wp_blockMakeDirty_quiet (hs : s.BcacSafe)
    (hholds : ∀ n, (s.spot bid).node = some n → n.Holds bid) {locked : Bool}
    (h : l.Cached (s.spot bid) addr refcnt locked dirty iv key d) {Q : Bool → Sys → Prop}
    (hQ : ∀ s', Quiet bid s s' → l.Cached (s'.spot bid) addr refcnt locked true iv key d →
      Q false s') : Exec.Wp (blockMakeDirty w bid) Q E s := by
  obtain ⟨n, block, hn, haddr, href, hlocked, _, hcontent, hblock⟩ := h.node
  have hn' := hholds n hn
  have hholds' : n.markDirty.Holds bid := ⟨hn'.inodeStart_le, hn'.deleted_eq, hn'.content⟩
  refine Exec.wp_bind.mpr (wp_cacheFind_peek (k := bcacOf w) bcacOf_lawful hs.keyed ?_)
  have hget : ((bcacOf w).get s).node bid = some n := hn
  rw [hget]
  refine Exec.wp_bind.mpr
    (wp_nodeStore_safe (f := Node.markDirty) hs hn (fun _ => ⟨rfl, rfl⟩)
      (Or.inl hholds') fun s' halters => ?_)
  refine hQ s' (halters.quiet hn hholds')
    ⟨⟨n.markDirty, block, halters.node hn, haddr, href, hlocked, rfl, hcontent, hblock⟩, ?_⟩
  rw [halters.spot_eq, Spot.mapNode, h.same]

/-- The rule for `block_make_dirty` of a block that is cached. -/
theorem wp_blockMakeDirty_held (hs : s.BcacOk) {locked : Bool}
    (h : l.Cached (s.spot bid) addr refcnt locked dirty iv key d) {Q : Bool → Sys → Prop}
    (hQ : ∀ s', Still bid s s' → l.Cached (s'.spot bid) addr refcnt locked true iv key d →
      Q false s') : Exec.Wp (blockMakeDirty w bid) Q E s :=
  wp_blockMakeDirty_quiet hs.safe (hs.holds bid) h fun s' hquiet => hQ s' (hquiet.still hs)

/-- The rule for `block_lock` of a block that nobody has locked. -/
theorem wp_blockLock_quiet (hs : s.BcacSafe) (hholds : ∀ n, (s.spot bid).node = some n →
    n.Holds bid)
    (h : l.Cached (s.spot bid) addr refcnt false dirty iv key d) {Q : Bool → Sys → Prop}
    (hQ : ∀ s', Quiet bid s s' → l.Cached (s'.spot bid) addr refcnt true dirty iv key d →
      Q false s') : Exec.Wp (blockLock w bid) Q E s := by
  obtain ⟨n, block, hn, haddr, href, hlocked, hdirty, hcontent, hblock⟩ := h.node
  have hn' := hholds n hn
  refine Exec.wp_bind.mpr (wp_cacheFind_peek (k := bcacOf w) bcacOf_lawful hs.keyed ?_)
  have hget : ((bcacOf w).get s).node bid = some n := hn
  rw [hget]
  simp only [nodeLock, hlocked, Bool.false_eq_true, Exec.wp_bind, Exec.wp_when, IsEmpty.forall_iff,
    not_false_eq_true, forall_const, true_and, Exec.wp_pure]
  refine wp_nodeStore_safe hs hn ?_ ?_ fun s₁ h₁ => ?_
  · exact fun _ => ⟨rfl, rfl⟩
  · exact (hs.freeable bid n hn).of_eq ⟨rfl, rfl⟩
  refine hQ s₁ (h₁.quiet hn ⟨hn'.inodeStart_le, hn'.deleted_eq, hn'.content⟩)
    ⟨⟨_, block, h₁.node hn, haddr, href, rfl, hdirty, hcontent, hblock⟩, ?_⟩
  rw [h₁.spot_eq, Spot.mapNode, h.same]

/-- The rule for `block_unlock`. -/
theorem wp_blockUnlock_quiet (hs : s.BcacSafe) (hholds : ∀ n, (s.spot bid).node = some n →
    n.Holds bid) {locked : Bool} (h : l.Cached (s.spot bid) addr refcnt locked dirty iv key d)
    {Q : Bool → Sys → Prop}
    (hQ : ∀ s', Quiet bid s s' → l.Cached (s'.spot bid) addr refcnt false dirty iv key d →
      Q false s') : Exec.Wp (blockUnlock w bid) Q E s := by
  obtain ⟨n, block, hn, haddr, href, _, hdirty, hcontent, hblock⟩ := h.node
  have hn' := hholds n hn
  refine Exec.wp_bind.mpr (wp_cacheFind_peek (k := bcacOf w) bcacOf_lawful hs.keyed ?_)
  have hget : ((bcacOf w).get s).node bid = some n := hn
  rw [hget]
  simp only [nodeUnlock, Exec.wp_bind, Exec.wp_pure]
  refine wp_nodeStore_safe hs hn ?_ ?_ fun s₁ h₁ => ?_
  · exact fun _ => ⟨rfl, rfl⟩
  · exact (hs.freeable bid n hn).of_eq ⟨rfl, rfl⟩
  refine hQ s₁ (h₁.quiet hn ⟨hn'.inodeStart_le, hn'.deleted_eq, hn'.content⟩)
    ⟨⟨_, block, h₁.node hn, haddr, href, rfl, hdirty, hcontent, hblock⟩, ?_⟩
  rw [h₁.spot_eq, Spot.mapNode, h.same]

/-- The rule for `breturn_to_cache` of a block that is held and not locked. -/
theorem wp_breturnToCache_quiet (hs : s.BcacSafe)
    (hholds : ∀ n, (s.spot bid).node = some n → n.Holds bid)
    (h : l.Cached (s.spot bid) addr (refcnt + 1) false dirty iv key d) {Q : Bool → Sys → Prop}
    (hQ : ∀ s', Quiet bid s s' → l.Cached (s'.spot bid) addr refcnt false dirty iv key d →
      Q false s') : Exec.Wp (breturnToCache w bid) Q E s := by
  obtain ⟨n, block, hn, haddr, href, hlocked, hdirty, hcontent, hblock⟩ := h.node
  have hn' := hholds n hn
  refine Exec.wp_bind.mpr (wp_cacheFind_peek (k := bcacOf w) bcacOf_lawful hs.keyed ?_)
  have hget : ((bcacOf w).get s).node bid = some n := hn
  have hzero : ¬n.refcnt = 0 := by
    rw [href]
    exact Nat.succ_ne_zero refcnt
  rw [hget]
  simp only [nodeLock, dropReference, nodeUnlock, hlocked, Bool.false_eq_true, Exec.wp_bind,
    Exec.wp_when, hzero, IsEmpty.forall_iff, not_false_eq_true, forall_const, true_and,
      Exec.wp_pure]
  refine wp_nodeStore_safe hs hn ?_ ?_ fun s₁ h₁ => ?_
  · exact fun _ => ⟨rfl, rfl⟩
  · exact (hs.freeable bid n hn).of_eq ⟨rfl, rfl⟩
  refine wp_nodeStore_safe h₁.safe (h₁.node hn) ?_ ?_ fun s₂ h₂ => ?_
  · exact fun _ => ⟨rfl, rfl⟩
  · exact (h₁.safe.freeable bid _ (h₁.node hn)).of_eq ⟨rfl, rfl⟩
  have h₁₂ := h₁.trans h₂
  refine wp_nodeStore_safe h₂.safe (h₁₂.node hn) ?_ ?_ fun s₃ h₃ => ?_
  · exact fun _ => ⟨rfl, rfl⟩
  · exact (h₂.safe.freeable bid _ (h₁₂.node hn)).of_eq ⟨rfl, rfl⟩
  have halters := h₁₂.trans h₃
  have hgive := halters.node hn
  simp only [Function.comp_apply, if_neg hzero] at hgive
  refine hQ s₃ (halters.quiet hn ⟨hn'.inodeStart_le, hn'.deleted_eq, hn'.content⟩)
    ⟨⟨n.giveBack, block, hgive, haddr, ?_, rfl, hdirty, hcontent, hblock⟩, ?_⟩
  · simp [Node.giveBack, href]
  · rw [halters.spot_eq, Spot.mapNode, h.same]

/-- The rule for `block_unlock_return` of a block that is held. -/
theorem wp_blockUnlockReturn_quiet (hs : s.BcacSafe)
    (hholds : ∀ n, (s.spot bid).node = some n → n.Holds bid) {locked : Bool}
    (h : l.Cached (s.spot bid) addr (refcnt + 1) locked dirty iv key d) {Q : Bool → Sys → Prop}
    (hQ : ∀ s', Quiet bid s s' → l.Cached (s'.spot bid) addr refcnt false dirty iv key d →
      Q false s') : Exec.Wp (blockUnlockReturn w bid) Q E s := by
  obtain ⟨n, block, hn, haddr, href, _, hdirty, hcontent, hblock⟩ := h.node
  have hn' := hholds n hn
  refine Exec.wp_bind.mpr (wp_cacheFind_peek (k := bcacOf w) bcacOf_lawful hs.keyed ?_)
  have hget : ((bcacOf w).get s).node bid = some n := hn
  have hzero : ¬n.refcnt = 0 := by
    rw [href]
    exact Nat.succ_ne_zero refcnt
  rw [hget]
  simp only [dropReference, nodeUnlock, Exec.wp_bind, Exec.wp_when, hzero, IsEmpty.forall_iff,
    not_false_eq_true, forall_const, true_and, Exec.wp_pure]
  refine wp_nodeStore_safe hs hn ?_ ?_ fun s₁ h₁ => ?_
  · exact fun _ => ⟨rfl, rfl⟩
  · exact (hs.freeable bid n hn).of_eq ⟨rfl, rfl⟩
  refine wp_nodeStore_safe h₁.safe (h₁.node hn) ?_ ?_ fun s₂ h₂ => ?_
  · exact fun _ => ⟨rfl, rfl⟩
  · exact (h₁.safe.freeable bid _ (h₁.node hn)).of_eq ⟨rfl, rfl⟩
  have halters := h₁.trans h₂
  have hgive := halters.node hn
  simp only [Function.comp_apply, if_neg hzero] at hgive
  refine hQ s₂ (halters.quiet hn ⟨hn'.inodeStart_le, hn'.deleted_eq, hn'.content⟩)
    ⟨⟨n.giveBack, block, hgive, haddr, ?_, rfl, hdirty, hcontent, hblock⟩, ?_⟩
  · simp [Node.giveBack, href]
  · rw [halters.spot_eq, Spot.mapNode, h.same]

/-- The rule for `block_unlock_return` of a block that is held. -/
theorem wp_blockUnlockReturn_held (hs : s.BcacOk) {locked : Bool}
    (h : l.Cached (s.spot bid) addr (refcnt + 1) locked dirty iv key d) {Q : Bool → Sys → Prop}
    (hQ : ∀ s', Still bid s s' → l.Cached (s'.spot bid) addr refcnt false dirty iv key d →
      Q false s') : Exec.Wp (blockUnlockReturn w bid) Q E s :=
  wp_blockUnlockReturn_quiet hs.safe (hs.holds bid) h fun s' hquiet => hQ s' (hquiet.still hs)

end

end Efs
