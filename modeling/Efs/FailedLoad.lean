import Efs.InodeView
import Efs.Keeping

/-!
# Loads that fail

`bget_from_cache_lock` and `iget_from_cache` insert a node before they load what it is
for. When the load fails they return a null pointer and leave the node as it is: empty,
referenced, and in the block cache also locked. So the next call on the block blocks.
-/

namespace Efs

open Library

/-- A node of the id is left over: nobody has its pointer, but it is referenced and has no
content. -/
def Cache.LeftOver {α : Type} (c : Cache α) (id : ℕ) (locked : Bool) : Prop :=
  ∃ n ∈ c.nodes, n.id = id ∧ n.refcnt = 1 ∧ n.content = none ∧ n.locked = locked

/-- What a cache links: its queues, and what `malloc` gives next. -/
def Cache.linked {α : Type} (c : Cache α) : Queue α × Queue α × ℕ × Bool :=
  (c.fifo, c.lru, c.nextAddr, c.dangling)

section

variable {α : Type} {c c' : Cache α} {id addr : ℕ}

/-- Caches with the same links have the same nodes. -/
theorem nodes_eq_of_linked (h : c'.linked = c.linked) : c'.nodes = c.nodes :=
  congrArg (fun l : Queue α × Queue α × ℕ × Bool => l.2.1.nodes ++ l.1.nodes) h

/-- Caches with the same links differ at most in what leaked. -/
theorem eq_of_linked (h : c'.linked = c.linked) : c' = { c with leaked := c'.leaked } := by
  simp only [Cache.linked, Prod.mk.injEq] at h
  obtain ⟨hfifo, hlru, hnext, hdangling⟩ := h
  rw [← hfifo, ← hlru, ← hnext, ← hdangling]

/-- Caches with the same links find the same nodes. -/
theorem node_eq_of_linked (h : c'.linked = c.linked) : c'.node = c.node := by
  rw [eq_of_linked h]
  rfl

/-- The links tell whether each node is found by its id. -/
theorem Cache.Keyed.of_linked (hkeyed : c.Keyed) (h : c'.linked = c.linked) : c'.Keyed := by
  rw [eq_of_linked h]
  exact hkeyed.leak _

/-- A store into the node at an address. -/
theorem mem_modify {f : Node α → Node α} {n : Node α} (hn : n ∈ c.nodes) :
    f n ∈ (c.modify n.addr f).nodes := by
  have hnodes : (c.modify n.addr f).nodes =
      c.nodes.map fun m => if m.addr = n.addr then f m else m := by
    simp only [Cache.modify, Queue.modify, Cache.nodes, List.map_append]
  rw [hnodes]
  exact List.mem_map.mpr ⟨n, hn, if_pos rfl⟩

end

/-! ## Any cache -/

section

variable {σ α : Type} {w : World} {k : CacheOf σ α} {s : σ} {id : ℕ}

/-- The node that was inserted is in the fifo. -/
theorem newNode_mem_insert {c : Cache α} (h : (c.insert id).2.1 = true) :
    c.newNode id ∈ (c.insert id).1.nodes := by
  unfold Cache.insert at h ⊢
  cases hins : c.fifo.insertToHead (c.newNode id) with
  | noRoom => simp [hins] at h
  | clash fifo evicted => simp [hins] at h
  | done fifo tofree =>
    unfold Queue.insertToHead at hins
    cases hroom : c.fifo.makeRoom with
    | none => simp [hroom] at hins
    | some r =>
      simp only [hroom] at hins
      split_ifs at hins
      cases hins
      exact List.mem_append_right _ List.mem_cons_self

/-- The callback leaves the cache alone. -/
def CacheOf.SelfApart (k : CacheOf σ α) : Prop :=
  ∀ content id dirty deleted, Exec.Keeps k.get (k.contentCbWrite content id dirty deleted)

variable (hk : k.Lawful) (hcb : k.SelfApart)

include hk hcb

/-- Freeing a node that was evicted leaves the queues. -/
theorem keeps_freeEvicted (tofree : Option (Node α)) :
    Exec.Keeps (fun s => (k.get s).linked) (freeEvicted w k tofree) := by
  cases tofree with
  | none => exact .pure _
  | some n =>
    refine .bind (.bind ?_ fun failed => ?_) fun failed => .when (keeps_panic _)
    · intro s failed s' hrun
      exact congrArg Cache.linked (hcb _ _ _ _ s failed s' hrun)
    · refine .bind (.when (.update fun s => ?_)) fun _ => .pure _
      rw [hk.get_set]
      rfl

/-- The slot that `cache_insert_get` gives is that of an empty, referenced node. -/
theorem wp_cacheInsertGet_leftOver {lock : Bool} :
    Exec.Wp (cacheInsertGet w k id lock)
      (fun slot s' => slot ≠ none → (k.get s').LeftOver id lock) (fun _ => True) s := by
  simp only [cacheInsertGet, cacheAlive, Exec.wp_bind, Exec.wp_read, Exec.wp_when, Exec.wp_stop,
    Exec.wp_update]
  refine ⟨fun _ => trivial, fun _ => ?_⟩
  rw [Exec.wp_ite]
  refine ⟨fun hins => ?_, fun _ => by simp⟩
  have hmem := newNode_mem_insert hins
  simp only [Exec.wp_bind]
  refine Exec.Wp.keeping (keeps_freeEvicted hk hcb _) (Exec.Wp.intro ?_ fun _ _ => trivial)
  intro _ s₁ _ hlinked
  rw [hk.get_set] at hlinked
  rw [← nodes_eq_of_linked hlinked] at hmem
  cases lock with
  | false => exact fun _ => ⟨_, hmem, rfl, rfl, rfl, rfl⟩
  | true =>
    refine Exec.wp_when.mpr ⟨fun _ => ?_, by simp⟩
    refine Exec.wp_bind.mpr (Exec.wp_when.mpr ⟨fun _ => trivial, fun _ _ => ?_⟩)
    rw [hk.get_set]
    refine ⟨{ (k.get s).newNode id with locked := true }, ?_, rfl, rfl, rfl, rfl⟩
    exact mem_modify hmem

/-- After an insertion of an id without a node every id has one node. -/
theorem wp_cacheInsertGet_keyed (h : (k.get s).Keyed) (hnew : (k.get s).node id = none)
    {lock : Bool} :
    Exec.Wp (cacheInsertGet w k id lock) (fun slot s' => slot ≠ none → (k.get s').Keyed)
      (fun _ => True) s := by
  have hlock : ∀ s₁ : σ, (k.get s₁).Keyed → (k.get s₁).node id = some ((k.get s).newNode id) →
      Exec.Wp (Exec.when lock (nodeLock k ((k.get s).newNode id)))
        (fun _ s' => some (k.get s).nextAddr ≠ none → (k.get s').Keyed) (fun _ => True) s₁ := by
    intro s₁ hkeyed hnode
    refine Exec.wp_when.mpr ⟨fun _ => ?_, fun _ _ => hkeyed⟩
    refine Exec.wp_bind.mpr (Exec.wp_when.mpr ⟨fun _ => trivial, fun _ => ?_⟩)
    refine wp_nodeStore_map hkeyed hnode ?_ ?_
    · exact fun _ => ⟨rfl, rfl⟩
    · intro c hc _ _
      rwa [hk.get_set]
  refine wp_cacheInsertGet_map h hnew (by simp) ?_ ?_
  · intro c hc hmap
    apply hlock
    · rwa [hk.get_set]
    · rw [hk.get_set, hmap, Function.update_self]
  · intro c d _ _ _ hc hmap
    refine Exec.Wp.keeping (keeps_freeEvicted hk hcb _) (Exec.Wp.intro ?_ fun _ _ => trivial)
    intro _ s₁ _ hlinked
    rw [hk.get_set] at hlinked
    apply hlock
    · exact hc.of_linked hlinked
    · rw [node_eq_of_linked hlinked, hmap, Function.update_self]

omit hk hcb in
/-- An insertion that has room for its node gives the slot. -/
theorem wp_cacheInsertGet_room (h : (k.get s).Keyed) (hnew : (k.get s).node id = none)
    (hroom : (k.get s).fifo.HasRoom) {lock : Bool} :
    Exec.Wp (cacheInsertGet w k id lock) (fun slot _ => slot ≠ none) (fun _ => True) s := by
  have hsome : ((k.get s).insert id).2.1 = true := by
    generalize hins : (k.get s).insert id = ins
    cases (hins ▸ h.wf.insert id : (k.get s).InsertCase id ins) with
    | noRoom hno _ => exact absurd hroom hno
    | clash _ hclash _ =>
      refine absurd hclash (h.wf.fifo.not_clashes fun n hn => ?_)
      exact h.node_eq_none.mp hnew n (Cache.mem_nodes.mpr (Or.inr hn))
    | done => rfl
  simp only [cacheInsertGet, cacheAlive, Exec.wp_bind, Exec.wp_read, Exec.wp_when, Exec.wp_stop,
    Exec.wp_update, hsome, if_true]
  refine ⟨fun _ => trivial, fun _ => Exec.Wp.intro ?_ fun _ _ => trivial⟩
  intro _ s₁ _
  refine ⟨fun _ => Exec.Wp.intro ?_ fun _ _ => trivial, fun _ => Option.some_ne_none _⟩
  intro _ s₂ _
  exact Option.some_ne_none _

omit hcb in
/-- A lookup of an id without a node changes nothing. -/
theorem wp_cacheTryGet_absent (h : (k.get s).Keyed) (hnew : (k.get s).node id = none)
    (hfollow : k.followsLoss = false) {lock access : Bool} :
    Exec.Wp (cacheTryGet w k id lock access) (fun r s' => r = none ∧ s' = s) (fun _ => True) s := by
  have habsent : ∀ n, (k.get s).node id ≠ some n := by
    intro n hn
    rw [hnew] at hn
    cases hn
  refine Exec.wp_bind.mpr (wp_cacheFind_map hk h ?_ ?_ ?_ (fun _ _ _ => trivial) fun _ => hfollow)
  · intro _
    exact ⟨rfl, rfl⟩
  · intro c n hn
    exact absurd hn (habsent n)
  · intro c n d hn
    exact absurd hn (habsent n)

omit hcb in
/-- A lookup of a node that somebody has locked does not return. -/
theorem wp_cacheTryGet_locked (h : (k.get s).Keyed) {n : Node α} (hn : (k.get s).node id = some n)
    (hlocked : n.locked = true) (hfollow : k.followsLoss = false) {lock access : Bool} :
    Exec.Wp (cacheTryGet w k id lock access) (fun _ _ => False) (fun _ => True) s := by
  have hblock : ∀ m, (k.get s).node id = some m → ∀ s₁ : σ,
      Exec.Wp (do
        nodeLock k m
        if m.deleted then
          nodeUnlock k m
          return none
        nodeStore k m.addr fun n => { n with refcnt := n.refcnt + 1 }
        Exec.when (!lock) (nodeUnlock k m)
        return m.pointer) (fun _ _ => False) (fun _ => True) s₁ := by
    intro m hm s₁
    obtain rfl := Option.some.inj (hn.symm.trans hm)
    simp only [nodeLock, hlocked, Exec.when, if_true, Exec.wp_bind, Exec.wp_stop]
  refine Exec.wp_bind.mpr (wp_cacheFind_map hk h ?_ ?_ ?_ (fun _ _ _ => trivial) fun _ => hfollow)
  · intro hnone
    rw [hn] at hnone
    cases hnone
  · intro c m hm _ _ _
    exact hblock m hm _
  · intro c m d hm _ _ _ _ _ _
    exact Exec.Wp.intro (fun _ s₁ _ => hblock m hm s₁) fun _ _ => trivial

end

/-! ## Blocks -/

section

variable {w : World} {s : Sys} {bid : ℕ} {hashidx : HashIdx} {iv key : Key128}
  {expHash : Option Key256}

/-- The callback of the block cache does not change the cache. -/
theorem bcacOf_selfApart : (bcacOf w).SelfApart := offDisk_bcac.bcacheCbWrite

/-- A load that gives nothing leaves the block cache as the insertion of the node left it. -/
theorem wp_bget_none (hbid : inodeStart ≤ bid) {P : Cache Block → Prop}
    (h : Exec.Wp (cacheTryGet w (bcacOf w) bid true true)
      (fun _ s₁ => Exec.Wp (cacheInsertGet w (bcacOf w) bid true)
        (fun slot s' => slot ≠ none → P s'.bcac) (fun _ => True) s₁) (fun _ => True) s) :
    Exec.Wp (bgetFromCacheLock w bid hashidx iv key expHash)
      (fun bp s' => bp = none → P s'.bcac) (fun _ => True) s := by
  have hstart : ¬bid < inodeStart := Nat.not_lt.mpr hbid
  have hstart' : ¬bid < inodeBitmapStart := fun h => hstart (h.trans (by decide))
  refine Exec.Wp.bind h ?_
  intro bp s₁ hinsert
  cases bp with
  | some bp =>
    intro hnone
    cases hnone
  | none =>
    refine Exec.Wp.bind hinsert ?_
    intro slot s₂ hslot
    rw [if_neg hstart', if_neg hstart]
    cases slot with
    | none => trivial
    | some bpp =>
      have hP : P s₂.bcac := hslot (Option.some_ne_none _)
      refine Exec.wp_bind.mpr (Exec.Wp.keeping (offDisk_bcac.getBlockFromDisk _ _ _ _ _ _) ?_)
      refine Exec.Wp.intro ?_ fun _ _ => trivial
      intro block s₃ _ hbcac
      cases block with
      | none =>
        intro _
        rwa [hbcac]
      | some block =>
        refine Exec.Wp.intro ?_ fun _ _ => trivial
        intro r s₄ hrun hr
        obtain ⟨_, _, _, hrest⟩ := Exec.bind_eq_ok.mp hrun
        obtain ⟨_, _, _, hpure⟩ := Exec.bind_eq_ok.mp hrest
        cases hpure
        cases hr

/-- The node that was inserted for the block stays, locked. -/
theorem wp_bget_leftOver (hbid : inodeStart ≤ bid) :
    Exec.Wp (bgetFromCacheLock w bid hashidx iv key expHash)
      (fun bp s' => bp = none → s'.bcac.LeftOver bid true) (fun _ => True) s := by
  apply wp_bget_none hbid (P := fun c => c.LeftOver bid true)
  refine Exec.Wp.intro ?_ fun _ _ => trivial
  intro _ s₁ _
  exact wp_cacheInsertGet_leftOver bcacOf_lawful bcacOf_selfApart

/-- It is the one node of the block when there was none before. -/
theorem wp_bget_keyed (hbid : inodeStart ≤ bid) (h : s.bcac.Keyed) (hnew : s.bcac.node bid = none) :
    Exec.Wp (bgetFromCacheLock w bid hashidx iv key expHash)
      (fun bp s' => bp = none → s'.bcac.Keyed) (fun _ => True) s := by
  apply wp_bget_none hbid
  refine (wp_cacheTryGet_absent bcacOf_lawful h hnew rfl).imp ?_
  rintro _ _ ⟨_, rfl⟩
  exact wp_cacheInsertGet_keyed bcacOf_lawful bcacOf_selfApart h hnew

/-- With a locked node left over and an lru queue that is not full, a later load of the block
waits for the lock of the node. -/
theorem blocks_of_leftOver (h : s.bcac.Keyed) (hleft : s.bcac.LeftOver bid true)
    (hlru : s.bcac.lru.len < queueMaxLen) :
    bgetFromCacheLock w bid hashidx iv key expHash s = .error .deadlock := by
  obtain ⟨n, hmem, hid, _, _, hlocked⟩ := hleft
  have hn : s.bcac.node bid = some n := h.node_eq_some.mpr ⟨hmem, hid⟩
  obtain ⟨c, hfind⟩ := h.find_of_lt hn hlru
  have hlookup := cacheFind_eq (w := w) (k := bcacOf w) h.wf.alive hfind rfl rfl (Or.inl rfl)
  simp only [bgetFromCacheLock, cacheTryGet, nodeLock, Exec.bind_apply, hlookup, hlocked, Exec.when,
    if_true, Exec.stop_apply]

/-- With a locked node left over, no later load of the block returns. -/
theorem not_ok_of_leftOver (h : s.bcac.Keyed) (hleft : s.bcac.LeftOver bid true)
    (r : Option ℕ × Sys) : bgetFromCacheLock w bid hashidx iv key expHash s ≠ .ok r := by
  obtain ⟨n, hmem, hid, _, _, hlocked⟩ := hleft
  have hn : s.bcac.node bid = some n := h.node_eq_some.mpr ⟨hmem, hid⟩
  have hwp : Exec.Wp (bgetFromCacheLock w bid hashidx iv key expHash) (fun _ _ => False)
      (fun _ => True) s := by
    refine Exec.Wp.bind (wp_cacheTryGet_locked bcacOf_lawful h hn hlocked rfl) ?_
    intro _ _ hfalse
    exact hfalse.elim
  intro hrun
  exact hwp.of_ok hrun

end

/-! ## Inodes -/

section

variable {γ : Type} {w : World} {f : Sys → γ} (hf : OfIcac f)

include hf

omit hf in
/-- Reading the data of an index block changes nothing. -/
theorem keeps_rawData (idxp : RawBlock) : Exec.Keeps f (rawData idxp) := by
  cases idxp with
  | cached bp => exact .bind (keeps_blockAt _) fun block => .pure _
  | copy data => exact .pure _

/-- A load of an index block that is about to be freed leaves the inode cache alone. -/
theorem OfIcac.bgetRaw (bid : ℕ) (iv key : Key128) : Exec.Keeps f (bgetRaw w bid iv key) := by
  refine .ite (.pure _) (.bind (hf.aside.apart.cacheTryGet _ _ _) fun bp => ?_)
  cases bp with
  | some bp => exact .pure _
  | none =>
    refine .bind (hf.aside.offDisk.diskRead _) fun data => ?_
    cases data with
    | none => exact .pure _
    | some data =>
      refine .bind (hf.aside.offDisk.aes128BlockDecrypt _ _ _) fun data => ?_
      cases data <;> exact .pure _

/-- Giving the index block back leaves the inode cache alone. -/
theorem OfIcac.breturnRaw (bid : ℕ) (idxp : RawBlock) : Exec.Keeps f (breturnRaw w bid idxp) := by
  cases idxp with
  | cached bp => exact .bind (hf.aside.blockUnlockReturn _) fun _ => .pure _
  | copy data => exact .pure _

omit hf in
/-- The loop over the entries leaves alone what the release of one entry does. -/
theorem keeps_indexFreeFrom (idxp : RawBlock) {free : ℕ → Exec Halt Sys Unit}
    (hfree : ∀ child, Exec.Keeps f (free child)) (n : ℕ) :
    Exec.Keeps f (indexFreeFrom idxp free n) := by
  induction n with
  | zero => exact .pure _
  | succ n ih =>
    exact .bind (keeps_rawData idxp) fun data => .bind (.when (hfree _)) fun _ => ih

/-- The release of an index block leaves the inode cache alone when that of its entries does. -/
theorem OfIcac.indexFree (bid : ℕ) (iv key : Key128) {free : ℕ → Exec Halt Sys Unit}
    (hfree : ∀ child, Exec.Keeps f (free child)) : Exec.Keeps f (indexFree w bid iv key free) := by
  refine .bind (hf.bgetRaw _ _ _) fun idxp => ?_
  cases idxp with
  | none => exact .stop _
  | some idxp =>
    refine .bind (keeps_indexFreeFrom idxp hfree _) fun _ => .bind (hf.breturnRaw _ _) fun _ => ?_
    exact .bind (hf.offData.blockFree _ _) fun _ => .pure _

/-- A release of blocks at any level leaves the inode cache alone. -/
theorem OfIcac.indexFreeRecursive (iv key : Key128) (level bid : ℕ) :
    Exec.Keeps f (indexFreeRecursive w iv key level bid) := by
  have hleaf : ∀ child, Exec.Keeps f (do let _ ← Efs.blockFree w child false) :=
    fun child => .bind (hf.offData.blockFree _ _) fun _ => .pure _
  induction level generalizing bid with
  | zero => exact hf.indexFree _ _ _ hleaf
  | succ level ih => exact hf.indexFree _ _ _ fun child => .ite (hleaf child) (ih child)

/-- The release of the direct blocks leaves the inode cache alone. -/
theorem OfIcac.directFreeFrom (ip : Inode) (n : ℕ) : Exec.Keeps f (directFreeFrom w ip n) := by
  induction n with
  | zero => exact .pure _
  | succ n ih => exact .bind (.when (.bind (hf.offData.blockFree _ _) fun _ => .pure _)) fun _ => ih

/-- The release of the blocks under a root slot leaves the inode cache alone. -/
theorem OfIcac.rootFree (ip : Inode) (r level : ℕ) : Exec.Keeps f (rootFree w ip r level) :=
  .when (hf.indexFreeRecursive _ _ _ _)

/-- A store into the block of an inode leaves the inode cache alone. -/
theorem OfIcac.dipStore (dip : ℕ) (g : Data → Data) : Exec.Keeps f (dipStore w dip g) :=
  .bind (keeps_blockAt _) fun _ => hf.aside.dataStore _ _

/-- The release of an inode leaves the inode cache alone. -/
theorem OfIcac.freeInode (ip : Inode) (iid : ℕ) : Exec.Keeps f (freeInode w ip iid) := by
  refine .bind (hf.directFreeFrom _ _) fun _ => .bind (hf.rootFree _ _ _) fun _ => ?_
  refine .bind (hf.rootFree _ _ _) fun _ => .bind (hf.rootFree _ _ _) fun _ => ?_
  refine .bind (hf.aside.apart.cacheNodeLock _) fun _ => .bind (hf.dipStore _ _) fun _ => ?_
  refine .bind (hf.aside.blockMakeDirty _) fun _ => .bind (hf.aside.apart.cacheNodeUnlock _)
    fun _ => ?_
  exact .zoom fun _ s => hf _ _ rfl

/-- The write back of an inode leaves the inode cache alone. -/
theorem OfIcac.writeInode (ip : Inode) (iid : ℕ) : Exec.Keeps f (writeInode w ip iid) := by
  refine .bind (hf.aside.apart.cacheNodeLock _) fun _ => .bind (hf.dipStore _ _) fun _ => ?_
  refine .bind (hf.aside.blockMakeDirty _) fun _ => .bind (hf.aside.apart.cacheNodeUnlock _)
    fun _ => ?_
  exact .pure _

/-- The callback of the inode cache leaves the cache. -/
theorem OfIcac.icacheCbWrite (content : Option Inode) (iid : ℕ) (dirty deleted : Bool) :
    Exec.Keeps f (icacheCbWrite w content iid dirty deleted) := by
  have hend : Exec.Keeps f (do let _ ← breturnToCache w (inodeIid2Bid iid); return false) :=
    .bind (hf.aside.apart.cacheReturn _) fun _ => .pure _
  unfold Efs.icacheCbWrite
  refine .ite ?_ (.ite ?_ hend)
  · cases content with
    | none => exact .stop_bind _ _
    | some ip => exact .bind (hf.freeInode ip iid) fun _ => hend
  · cases content with
    | none => exact .bind (hf.aside.apart.cacheNodeLock _) fun _ => .stop_bind _ _
    | some ip => exact .bind (hf.writeInode ip iid) fun _ => hend

end

section

variable {w : World} {s : Sys} {iid : ℕ} {sureNotCached : Bool}

/-- The inode cache itself is looked at alone. -/
theorem ofIcac_icac : OfIcac Sys.icac := fun _ _ h => h

/-- The callback of the inode cache does not change the cache. -/
theorem icacOf_selfApart : (icacOf w).SelfApart := ofIcac_icac.icacheCbWrite

/-- The block of an inode lies in the inode area. -/
theorem inodeStart_le_inodeIid2Bid (iid : ℕ) : inodeStart ≤ inodeIid2Bid iid :=
  Nat.le_add_right _ _

/-- The part of `iget_from_cache` on an inode that is not cached. -/
def igetMiss (w : World) (iid : ℕ) : Exec Halt Sys (Option ℕ) := do
  let slot ← cacheInsertGet w (icacOf w) iid false
  match ← bgetMetadata w (inodeIid2Bid iid) with
  | none => return none
  | some bp =>
    let block ← blockAt bp
    let _ ← blockUnlock w block.bid
    match slot with
    | none => Exec.stop .nullDeref
    | some ipp =>
      nodeStore (icacOf w) ipp ({ · with content := some (loadInode bp block.data iid) })
      return some ipp

/-- `iget_from_cache` looks the inode up, and loads it when it is not found. -/
theorem igetFromCache_eq : igetFromCache w iid sureNotCached = (do
    match ← (if sureNotCached then pure none else cacheTryGet w (icacOf w) iid false true) with
    | some ip => return some ip
    | none => igetMiss w iid) := by
  cases sureNotCached <;> rfl

/-- When the block of an inode cannot be loaded, its node is left over. -/
theorem wp_igetMiss_leftOver : Exec.Wp (igetMiss w iid)
    (fun ip s' => ip = none → s'.bcac.LeftOver (inodeIid2Bid iid) true) (fun _ => True) s := by
  refine Exec.Wp.bind (.any _) ?_
  intro slot s₁ _
  refine Exec.Wp.bind (Exec.wp_bind.mpr (wp_bget_leftOver (inodeStart_le_inodeIid2Bid iid))) ?_
  intro bp s₂ hleft
  cases bp with
  | none => exact hleft
  | some bp =>
    refine Exec.Wp.intro ?_ fun _ _ => trivial
    intro ip s₃ hrun hip
    obtain ⟨_, _, _, hrest⟩ := Exec.bind_eq_ok.mp hrun
    obtain ⟨_, _, _, hlast⟩ := Exec.bind_eq_ok.mp hrest
    cases slot with
    | none => cases hlast
    | some ipp =>
      cases hlast
      cases hip

/-- The node that was inserted for the inode is left over as well. -/
theorem wp_igetMiss_leftOver_icac (h : s.icac.Keyed) (hnew : s.icac.node iid = none)
    (hroom : s.icac.fifo.HasRoom) : Exec.Wp (igetMiss w iid)
      (fun ip s' => ip = none → s'.icac.LeftOver iid false) (fun _ => True) s := by
  have hslot : Exec.Wp (cacheInsertGet w (icacOf w) iid false)
      (fun slot s' => slot ≠ none ∧ (slot ≠ none → s'.icac.LeftOver iid false)) (fun _ => True) s :=
    Exec.Wp.intro (fun slot s' hrun =>
      ⟨(wp_cacheInsertGet_room (k := icacOf w) h hnew hroom).of_ok hrun,
        (wp_cacheInsertGet_leftOver icacOf_lawful icacOf_selfApart).of_ok hrun⟩) fun _ _ => trivial
  refine Exec.Wp.bind hslot ?_
  rintro slot s₁ ⟨hsome, hleft⟩
  have hleft := hleft hsome
  refine Exec.wp_bind.mpr (Exec.Wp.keeping (ofIcac_icac.aside.bgetMetadata _) ?_)
  refine Exec.Wp.intro ?_ fun _ _ => trivial
  intro bp s₂ _ hicac
  cases bp with
  | none =>
    intro _
    rwa [hicac]
  | some bp =>
    refine Exec.Wp.intro ?_ fun _ _ => trivial
    intro ip s₃ hrun hip
    obtain ⟨_, _, _, hrest⟩ := Exec.bind_eq_ok.mp hrun
    obtain ⟨_, _, _, hlast⟩ := Exec.bind_eq_ok.mp hrest
    cases slot with
    | none => exact absurd rfl hsome
    | some ipp =>
      cases hlast
      cases hip

end

/-! ## What a failed load leaves -/

/-- A load that gives nothing leaves an empty, referenced and locked node for the block, and
no later load of the block returns, whatever the disk answers: it waits for the lock of the
node, unless the lru queue is full. A load of an inode leaves one for its block, and an empty,
referenced one for the inode. -/
theorem failed_load_leaves_node {w : World} {s s' : Sys} :
    (∀ bid hashidx iv key expHash, inodeStart ≤ bid →
      bgetFromCacheLock w bid hashidx iv key expHash s = .ok (none, s') →
      s'.bcac.LeftOver bid true ∧
      (s.bcac.Keyed → s.bcac.node bid = none → ∀ (w' : World) hashidx iv key expHash,
        (s'.bcac.lru.len < queueMaxLen →
          bgetFromCacheLock w' bid hashidx iv key expHash s' = .error .deadlock) ∧
        ∀ r, bgetFromCacheLock w' bid hashidx iv key expHash s' ≠ .ok r)) ∧
    ∀ iid sureNotCached, igetFromCache w iid sureNotCached s = .ok (none, s') →
      s'.bcac.LeftOver (inodeIid2Bid iid) true ∧
      (s.icac.Keyed → s.icac.node iid = none → s.icac.fifo.HasRoom →
        s'.icac.LeftOver iid false) := by
  constructor
  · intro bid hashidx iv key expHash hbid hrun
    have hleft : s'.bcac.LeftOver bid true := (wp_bget_leftOver hbid).of_ok hrun rfl
    refine ⟨hleft, fun hkeyed hnew w' _ _ _ _ => ?_⟩
    have hkeyed' := (wp_bget_keyed hbid hkeyed hnew).of_ok hrun rfl
    exact ⟨blocks_of_leftOver hkeyed' hleft, not_ok_of_leftOver hkeyed' hleft⟩
  · intro iid sureNotCached hrun
    rw [igetFromCache_eq] at hrun
    obtain ⟨cached, s₁, hcached, hrest⟩ := Exec.bind_eq_ok.mp hrun
    cases cached with
    | some ip => cases hrest
    | none =>
      refine ⟨wp_igetMiss_leftOver.of_ok hrest rfl, fun hkeyed hnew hroom => ?_⟩
      have hs₁ : s₁ = s := by
        cases sureNotCached with
        | true =>
          cases hcached
          rfl
        | false => exact ((wp_cacheTryGet_absent icacOf_lawful hkeyed hnew rfl).of_ok hcached).2
      rw [hs₁] at hrest
      exact (wp_igetMiss_leftOver_icac hkeyed hnew hroom).of_ok hrest rfl

/-- A world in which only the first call of the disk fails. -/
def World.failsOnce : World := { World.plain with fails := fun i => i = 0 }

/-- A disk read that fails once leaves a node behind, and the same load blocks afterwards. -/
theorem failed_read_leaves_node : ∃ s' : Sys,
    bgetFromCacheLock World.failsOnce dataStart HashIdx.zero Bytes.zero Bytes.zero (some Bytes.zero)
      Sys.blank = .ok (none, s') ∧
    s'.bcac.LeftOver dataStart true ∧
    bgetFromCacheLock World.failsOnce dataStart HashIdx.zero Bytes.zero Bytes.zero (some Bytes.zero)
      s' = .error .deadlock :=
  ⟨_, rfl, ⟨_, .head _, rfl, rfl, rfl, rfl⟩, rfl⟩

/-- The theorem at a disk read that fails once. -/
theorem failed_load_leaves_node_once : ∃ s' : Sys,
    bgetFromCacheLock World.failsOnce dataStart HashIdx.zero Bytes.zero Bytes.zero (some Bytes.zero)
      Sys.blank = .ok (none, s') ∧
    s'.bcac.LeftOver dataStart true ∧ ∀ (w' : World) hashidx iv key expHash,
      bgetFromCacheLock w' dataStart hashidx iv key expHash s' = .error .deadlock := by
  have hrun : bgetFromCacheLock World.failsOnce dataStart HashIdx.zero Bytes.zero Bytes.zero
      (some Bytes.zero) Sys.blank = .ok (none, _) := rfl
  obtain ⟨hleft, hblocks⟩ := failed_load_leaves_node.1 _ _ _ _ _ (by decide) hrun
  exact ⟨_, hrun, hleft, fun w' _ _ _ _ =>
    (hblocks Cache.Keyed.empty rfl w' _ _ _ _).1 (Nat.le_of_ble_eq_true rfl)⟩

end Efs
