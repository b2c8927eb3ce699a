import Efs.BitmapSearch
import Efs.IndexPath
import Efs.InodeSize

/-!
# Running out of data blocks

Over a full data bitmap `dbm_alloc` fails, and `block_alloc` makes the block number of
its failure value 0: that of the first data block, which somebody owns. No caller can
tell it from a block of its own, so each of the places that allocate a block links the
first data block.
-/

namespace Efs

open Library

/-- The block that a root slot of the inode at the pointer `ip` points to. -/
def Sys.rootBid (ip : ℕ) (r : Fin 13) (s : Sys) : Option ℕ := (s.icac.contentAt ip).map (·.bid r)

/-- The block of the number 0 is not 0. -/
theorem did2Bid_zero_ne : did2Bid 0 ≠ 0 := by decide

section

variable {w : World} {E : Halt → Prop} {s : Sys} {ip b k r : ℕ} {inode : Inode}

/-- A root slot is read from the inode. -/
theorem Sys.rootBid_of_contentAt (h : s.icac.contentAt ip = some inode) (r : Fin 13) :
    s.rootBid ip r = some (inode.bid r) := by
  rw [rootBid, h]
  rfl

/-- The root slots are part of the contents of the inode cache. -/
theorem ofContents_rootBid (r : Fin 13) : OfContents (Sys.rootBid ip r) := by
  intro s s' h
  simp only [Sys.rootBid, h]

/-- A store through the pointer that leaves a root slot. -/
theorem keepsRootBid_inodeStore {f : Inode → Inode} {r : Fin 13}
    (hf : ∀ inode, (f inode).bid r = inode.bid r) :
    Exec.Keeps (Sys.rootBid ip r) (inodeStore w ip f) := by
  intro s u s' h
  simp only [Sys.rootBid, contentAt_inodeStore h, Option.map_map]
  exact congrArg (Option.map · _) (funext hf)

/-- With every number in use, the first data block belongs to someone. -/
theorem usedBlock_of_full (hfull : s.freeDids = ∅) : s.UsedBlock (did2Bid 0) := by
  refine ⟨0, ?_, rfl⟩
  by_contra hnew
  have hfree : 0 ∈ s.freeDids := ⟨by decide, hnew⟩
  rw [hfull] at hfree
  exact hfree

variable (hw : w.Honest) (hreturns : w.panicReturns = true) (hs : s.BcacOk) (hmeta : s.MetaInv w)
  (hfull : s.freeDids = ∅)

include hw hreturns hs hmeta hfull

/-- The rule for `block_alloc` over a full bitmap. -/
theorem wp_blockAlloc_full (hE : ¬s.Roomy 0 → E .nodeLost ∧ E .nullDeref) {Q : ℕ → Sys → Prop}
    (hQ : ∀ s', BitmapChanges w s s' → s'.dataUsed = s.dataUsed → Q (did2Bid 0) s') :
    Exec.Wp (blockAlloc w) Q E s := by
  refine Exec.wp_bind.mpr (wp_dbmAllocExit_least hw hs hmeta ?_ ?_ hE)
  · intro did s' hmarked
    have hfree : did ∈ s.freeDids := ⟨hmarked.lt, hmarked.unused⟩
    rw [hfull] at hfree
    exact hfree.elim
  · intro s' hnone
    constructor
    · intro _
      exact hQ s' hnone.changes hnone.used
    · intro hends
      rw [hreturns] at hends
      cases hends

/-- An allocation for a root slot links the first data block. -/
theorem wp_newRoot_full (hinode : s.icac.contentAt ip = some inode) :
    Exec.Wp (newRoot w ip r)
      (fun failed s' => failed = false ∧ s'.rootBid ip (rootSlot r) = some (did2Bid 0))
      (fun _ => True) s := by
  refine Exec.wp_bind.mpr
    (wp_blockAlloc_full hw hreturns hs hmeta hfull (fun _ => ⟨trivial, trivial⟩) ?_)
  intro s₁ hchanges _
  have hinode₁ : s₁.icac.contentAt ip = some inode := by rwa [hchanges.settles.icac_eq]
  refine Exec.wp_bind.mpr (Exec.Wp.intro ?_ fun _ _ => trivial)
  intro _ s₂ hstore
  have hslot : s₂.rootBid ip (rootSlot r) = some (did2Bid 0) := by
    rw [Sys.rootBid, contentAt_inodeStore hstore, hinode₁]
    simp
  rw [if_neg did2Bid_zero_ne]
  refine Exec.Wp.intro ?_ fun _ _ => trivial
  intro failed s₃ hrest
  obtain ⟨_, s₄, hhash, hrest⟩ := Exec.bind_eq_ok.mp hrest
  obtain ⟨_, s₅, hdirty, hpure⟩ := Exec.bind_eq_ok.mp hrest
  cases hpure
  have hslot₄ : s₄.rootBid ip (rootSlot r) = s₂.rootBid ip (rootSlot r) := by
    refine keepsRootBid_inodeStore ?_ _ _ _ hhash
    intro inode
    rfl
  have hslot₅ : s₃.rootBid ip (rootSlot r) = s₄.rootBid ip (rootSlot r) :=
    (ofContents_rootBid _).inodeMakeDirty _ _ _ _ hdirty
  exact ⟨rfl, hslot₅.trans (hslot₄.trans hslot)⟩

/-- An allocation for an entry of an index block links the first data block. -/
theorem wp_newEntry_full (hb : dataStart ≤ b) (hk : k < indexPerBlock) {l : Spot}
    {addr refcnt : ℕ} {dirty : Bool} {iv key : Key128} {d : Data}
    (h : l.Cached (s.spot b) addr (refcnt + 1) true dirty iv key d)
    (hE : ¬s.Roomy 0 → E .nodeLost ∧ E .nullDeref) {Q : Bool → Sys → Prop}
    (hQ : ∀ d' s', s'.BcacOk → indexAt d' k = ⟨did2Bid 0, zeroBlockSha256 w⟩ →
      l.Cached (s'.spot b) addr (refcnt + 1) true true iv key d' → Q false s') :
    Exec.Wp (newEntry w addr k b) Q E s := by
  refine Exec.wp_bind.mpr (wp_blockAlloc_full hw hreturns hs hmeta hfull hE ?_)
  intro s₁ hchanges _
  have hheld : s₁.spot b = s.spot b := by
    obtain ⟨n, _, hn, _, href, _⟩ := h.node
    exact hchanges.settles.spot_of_held (not_mem_bitmapBlocks hb) hn (by omega)
  rw [← hheld] at h
  refine Exec.wp_bind.mpr (wp_dataStore_held hchanges.ok h fun s₂ h₂ hcached₂ => ?_)
  rw [if_neg did2Bid_zero_ne]
  refine Exec.wp_bind.mpr (wp_dataStore_held h₂.ok hcached₂ fun s₃ h₃ hcached₃ => ?_)
  refine Exec.wp_bind.mpr (wp_blockMakeDirty_held h₃.ok hcached₃ fun s₄ h₄ hcached₄ => ?_)
  refine hQ _ s₄ h₄.ok ?_ hcached₄
  rw [indexAt_setIndexHash hk, indexAt_setIndexBid hk (by decide)]

/-- A level of a lookup at an empty entry links the first data block and goes on with it. -/
theorem wp_indexLookupOneLevel_full (hinode : s.icac.contentAt ip = some inode)
    (hb : dataStart ≤ b) (hk : k < indexPerBlock) {hashidx : HashIdx} {expHash : Option Key256}
    (hready : (s.spot b).Ready w inode.aesIv inode.aesKey expHash)
    (hmissing : (indexAt (s.spot b).data k).bid = 0) :
    Exec.Wp (indexLookupOneLevel w ip b k hashidx expHash true)
      (fun found s' => found = some (⟨did2Bid 0, zeroBlockSha256 w⟩, true) ∧
        (indexAt (s'.spot b).data k).bid = did2Bid 0) (fun e => e.NoCacheRoom ∧ ¬s.Roomy 1) s := by
  have hE : ¬s.Roomy 1 → (Halt.nodeLost.NoCacheRoom ∧ ¬s.Roomy 1) ∧
      (Halt.nullDeref.NoCacheRoom ∧ ¬s.Roomy 1) :=
    fun hcrowded => ⟨⟨Or.inl rfl, hcrowded⟩, ⟨Or.inr rfl, hcrowded⟩⟩
  refine Exec.wp_bind.mpr (wp_inodeAt_of_contentAt hinode ?_)
  refine Exec.wp_bind.mpr (wp_bget hw hs (le_trans (by decide) hb) hready ?_ fun hcrowded =>
    hE fun hroom => hcrowded (hroom.mono (by omega)))
  intro addr added s₁ hs₁ hsettles _ hcached
  have hX : ∀ b' ∈ ({b} : Set ℕ), dataStart ≤ b' := by
    rintro b' rfl
    exact hb
  have hmeta₁ := hsettles.metaInv hw hs hmeta hX
  have hfull₁ : s₁.freeDids = ∅ := by
    rw [← hfull, Sys.freeDids, hsettles.dataUsed_eq hs hmeta hX]
    rfl
  refine Exec.wp_bind.mpr (wp_blockAt_held hs₁ hcached fun block hdata hbid => ?_)
  rw [hdata, hbid, if_pos ⟨rfl, hmissing⟩]
  refine Exec.wp_bind.mpr
    (wp_newEntry_full hw hreturns hs₁ hmeta₁ hfull₁ hb hk hcached (fun hcrowded =>
      hE fun hroom => hcrowded (hsettles.holdsWithin.roomy_of_one hroom)) ?_)
  intro d' s₂ hs₂ hentry hcached₂
  rw [if_neg Bool.false_ne_true]
  refine Exec.wp_bind.mpr (wp_blockAt_held hs₂ hcached₂ fun block' hdata' hbid' => ?_)
  rw [hbid']
  refine Exec.wp_bind.mpr (wp_blockUnlockReturn_held hs₂ hcached₂ fun s₃ h₃ hcached₃ => ?_)
  rw [Exec.wp_pure, hdata', hentry, hcached₃.data_eq, hentry]
  exact ⟨rfl, rfl⟩

/-- The lookup of a root slot that is empty gives the first data block. -/
theorem wp_rootLookup_full (hinode : s.icac.contentAt ip = some inode)
    (hmissing : inode.bid (rootSlot r) = 0) :
    Exec.Wp (rootLookup w ip r true)
      (fun found s' => (∃ hash, found = some (⟨did2Bid 0, hash⟩, true)) ∧
        s'.rootBid ip (rootSlot r) = some (did2Bid 0)) (fun _ => True) s := by
  refine Exec.wp_bind.mpr (wp_inodeAt_of_contentAt hinode ?_)
  rw [if_pos ⟨rfl, hmissing⟩]
  refine Exec.wp_bind.mpr ((wp_newRoot_full hw hreturns hs hmeta hfull hinode).imp ?_)
  rintro _ s' ⟨rfl, hslot⟩
  rw [if_neg Bool.false_ne_true]
  refine Exec.wp_bind.mpr (wp_inodeAt_any ?_ trivial)
  intro inode' hinode'
  rw [Sys.rootBid_of_contentAt hinode', Option.some.injEq] at hslot
  rw [Exec.wp_pure, Sys.rootBid_of_contentAt hinode', hslot]
  exact ⟨⟨_, rfl⟩, rfl⟩

/-- A lookup for writing under an empty root slot links the first data block there,
whatever it returns; at a direct slot it returns this block. -/
theorem wp_inodeIndexLookup_full {bidx : ℕ} {hashidx : HashIdx} {expHash : Key256}
    (hinode : s.icac.contentAt ip = some inode) (hmissing : inode.bid (indexPath bidx).1 = 0) :
    Exec.Wp (inodeIndexLookup w ip bidx true hashidx expHash)
      (fun found s' => s'.rootBid ip (indexPath bidx).1 = some (did2Bid 0) ∧
        (bidx < ndirect → found.bid = did2Bid 0)) (fun _ => True) s := by
  have hlevel : ∀ r b i h e, Exec.Keeps (Sys.rootBid ip r)
      (indexLookupOneLevel w ip b i h e true) :=
    fun r b i h e => (ofContents_rootBid r).ofIcac.offData.indexLookupOneLevel ip b i h e true
  have hkept : ∀ (r : Fin 13) (x : Exec Halt Sys Lookup) (s : Sys),
      s.rootBid ip r = some (did2Bid 0) → ¬bidx < ndirect →
      Exec.Keeps (Sys.rootBid ip r) x →
      Exec.Wp x (fun found s' => s'.rootBid ip r = some (did2Bid 0) ∧
        (bidx < ndirect → found.bid = did2Bid 0)) (fun _ => True) s :=
    fun r x s hslot hbidx hx => Exec.Wp.intro
      (fun found s' hrun => ⟨(hx s found s' hrun).trans hslot, fun h => absurd h hbidx⟩)
      fun _ _ => trivial
  refine Exec.wp_bind.mpr (wp_inodeAt_of_contentAt hinode ?_)
  dsimp only
  rcases indexPath_cases bidx with ⟨hlt, hpath⟩ | ⟨i, hlt, rfl, hpath⟩ | ⟨i, hlt, rfl, hpath⟩ |
    ⟨i, rfl, hpath⟩ <;>
  rw [hpath] at hmissing ⊢
  · rw [if_pos (show bidx < ndirect from hlt)]
    refine Exec.wp_bind.mpr ((wp_rootLookup_full hw hreturns hs hmeta hfull hinode hmissing).imp ?_)
    rintro _ s' ⟨⟨hash, rfl⟩, hslot⟩
    exact ⟨hslot, fun _ => rfl⟩
  · have hindirect : ¬i + 10 < ndirect := by simp only [ndirect]; omega
    have hsub : i + 10 - ndirect = i := by simp only [ndirect]; omega
    rw [if_neg hindirect, hsub, if_pos (show i < nindirect1 from hlt)]
    refine Exec.wp_bind.mpr ((wp_rootLookup_full hw hreturns hs hmeta hfull hinode hmissing).imp ?_)
    rintro _ s' ⟨⟨hash, rfl⟩, hslot⟩
    apply hkept _ _ _ hslot hindirect
    refine .bind (hlevel _ _ _ _ _) fun idx => ?_
    rcases idx with _ | ⟨idx, new⟩
    · exact .stop_bind _ _
    · exact .pure _
  · have hindirect : ¬i + 123 < ndirect := by simp only [ndirect]; omega
    have hsub : i + 123 - ndirect - nindirect1 = i := by simp only [ndirect, nindirect1]; omega
    rw [if_neg hindirect, if_neg (by simp only [ndirect, nindirect1]; omega), hsub,
      if_pos (show i < nindirect2 from hlt)]
    refine Exec.wp_bind.mpr ((wp_rootLookup_full hw hreturns hs hmeta hfull hinode hmissing).imp ?_)
    rintro _ s' ⟨⟨hash, rfl⟩, hslot⟩
    apply hkept _ _ _ hslot hindirect
    refine .bind (hlevel _ _ _ _ _) fun idx₁ => ?_
    rcases idx₁ with _ | ⟨idx₁, new⟩
    · exact .pure _
    refine .bind (hlevel _ _ _ _ _) fun idx => ?_
    rcases idx with _ | ⟨idx, new⟩ <;> exact .pure _
  · have hindirect : ¬i + 12892 < ndirect := by simp only [ndirect]; omega
    rw [if_neg hindirect, if_neg (by simp only [ndirect, nindirect1]; omega),
      if_neg (by simp only [ndirect, nindirect1, nindirect2]; omega)]
    refine Exec.wp_bind.mpr ((wp_rootLookup_full hw hreturns hs hmeta hfull hinode hmissing).imp ?_)
    rintro _ s' ⟨⟨hash, rfl⟩, hslot⟩
    apply hkept _ _ _ hslot hindirect
    refine .bind (hlevel _ _ _ _ _) fun idx₁ => ?_
    rcases idx₁ with _ | ⟨idx₁, new⟩
    · exact .pure _
    refine .bind (hlevel _ _ _ _ _) fun idx₂ => ?_
    rcases idx₂ with _ | ⟨idx₂, new⟩
    · exact .pure _
    refine .bind (hlevel _ _ _ _ _) fun idx => ?_
    rcases idx with _ | ⟨idx, new⟩ <;> exact .pure _

end

/-- Over a full data bitmap, with a host that returns from `panic`: `block_alloc` gives
the first data block, which is in use, and at every level the slot of a missing block is
set to it. A direct lookup returns it. Only a cache without room for the bitmap block, or for
the index block beside it, stops the calls. -/
theorem full_bitmap_links_used_block {w : World} (hw : w.Honest) (hreturns : w.panicReturns = true)
    {s : Sys} (hs : s.BcacOk) (hmeta : s.MetaInv w) (hfull : s.freeDids = ∅) :
    did2Bid 0 ≠ 0 ∧ s.UsedBlock (did2Bid 0) ∧
    Exec.Wp (blockAlloc w) (fun bid s' => bid = did2Bid 0 ∧ s'.dataUsed = s.dataUsed)
      (fun e => e.NoCacheRoom ∧ ¬s.Roomy 0) s ∧
    (∀ ip inode bidx hashidx expHash, s.icac.contentAt ip = some inode →
      inode.bid (indexPath bidx).1 = 0 →
      Exec.Wp (inodeIndexLookup w ip bidx true hashidx expHash)
        (fun found s' => s'.rootBid ip (indexPath bidx).1 = some (did2Bid 0) ∧
          (bidx < ndirect → found.bid = did2Bid 0)) (fun _ => True) s) ∧
    ∀ ip inode b k hashidx expHash, s.icac.contentAt ip = some inode → dataStart ≤ b →
      k < indexPerBlock → (s.spot b).Ready w inode.aesIv inode.aesKey expHash →
      (indexAt (s.spot b).data k).bid = 0 →
      Exec.Wp (indexLookupOneLevel w ip b k hashidx expHash true)
        (fun found s' => found = some (⟨did2Bid 0, zeroBlockSha256 w⟩, true) ∧
          (indexAt (s'.spot b).data k).bid = did2Bid 0) (fun e => e.NoCacheRoom ∧
            ¬s.Roomy 1) s := by
  refine ⟨did2Bid_zero_ne, usedBlock_of_full hfull, ?_, ?_, ?_⟩
  · refine wp_blockAlloc_full hw hreturns hs hmeta hfull
      (fun hcrowded => ⟨⟨Or.inl rfl, hcrowded⟩, ⟨Or.inr rfl, hcrowded⟩⟩) ?_
    intro s' _ hused
    exact ⟨rfl, hused⟩
  · intro ip inode bidx hashidx expHash hinode hmissing
    exact wp_inodeIndexLookup_full hw hreturns hs hmeta hfull hinode hmissing
  · intro ip inode b k hashidx expHash hinode hb hk hready hmissing
    exact wp_indexLookupOneLevel_full hw hreturns hs hmeta hfull hinode hb hk hready hmissing

/-- A host that returns from `panic`. -/
def World.returning : World := { World.plain with panicReturns := true }

/-- The world in which `panic` returns is honest. -/
theorem World.returning_honest : World.returning.Honest := ⟨fun _ => rfl, fun _ _ _ => rfl⟩

/-- The blocks of a system without a free data block: all bits of the bitmap are set. -/
def fullBlock (bid : ℕ) : Data :=
  if bitmapStart ≤ bid ∧ bid < dataStart then ⟨fun _ => 255⟩ else Bytes.zero

/-- A system without a free data block, with the hint past the last word. -/
def Sys.full : Sys :=
  { blank with
    disk := fullBlock
    sb.hash := fun bid => (fullBlock bid).sub 0 32
    dbmFirstEmptyWord := 262144
    evicted := fullBlock }

/-- The metadata blocks of the full system are good. -/
theorem Sys.full_metaInv : full.MetaInv World.returning := by
  intro bid _ _
  refine ⟨Or.inr ⟨rfl, rfl⟩, Or.inr rfl, ?_, ?_⟩
  · intro block hblock
    cases hblock
  · intro n hn
    cases hn

/-- No data block of the full system is free. -/
theorem Sys.full_freeDids : full.freeDids = ∅ := by
  have hones : ∀ k < 8, (255#8).getLsbD k = true := by decide
  ext did
  simp only [freeDids, freeIds, Set.mem_ofPred_eq, Set.mem_empty_iff_false, iff_false, not_and,
    not_not]
  intro hdid
  refine ⟨hdid, ?_⟩
  have hdata : (full.spot (bitmapDid2Bid did)).data = ⟨fun _ => 255⟩ :=
    if_pos (bitmapDid2Bid_mem hdid)
  have hlt : 8 * (did % 32768 / 64) + (7 - did % 32768 % 64 / 8) < 4096 := by omega
  rw [hdata, idUsed_eq_byte]
  simp only [Bytes.get, hlt, dif_pos]
  exact hones _ (by omega)

/-- An inode without blocks in the cache of a system without a free data block. -/
def Sys.fullFile : Sys :=
  { full with
    icac := ⟨.empty, ⟨[⟨0, 1, 1, false, false, some ⟨1, inodeTpFile, 0, 0, fun _ => 0, Bytes.zero,
      Bytes.zero, fun _ => Bytes.zero⟩, false⟩], 1⟩, [], 1, false⟩ }

/-- The inode asks for its first block, for a block below its double indirect slot, and for the
entry 7 of an index block that holds no entry. -/
theorem full_bitmap_links_used_block_full :
    Exec.Wp (blockAlloc World.returning)
      (fun bid s' => bid = did2Bid 0 ∧ s'.dataUsed = Sys.fullFile.dataUsed) (fun _ => False)
      Sys.fullFile ∧
    Exec.Wp (inodeIndexLookup World.returning 0 0 true HashIdx.zero Bytes.zero)
      (fun found s' => s'.rootBid 0 0 = some (did2Bid 0) ∧ found.bid = did2Bid 0) (fun _ => True)
      Sys.fullFile ∧
    Exec.Wp (inodeIndexLookup World.returning 0 1000 true HashIdx.zero Bytes.zero)
      (fun _ s' => s'.rootBid 0 (indexPath 1000).1 = some (did2Bid 0)) (fun _ => True)
      Sys.fullFile ∧
    Exec.Wp (indexLookupOneLevel World.returning 0 (did2Bid 40) 7 HashIdx.zero none true)
      (fun found s' => found = some (⟨did2Bid 0, zeroBlockSha256 World.returning⟩, true) ∧
        (indexAt (s'.spot (did2Bid 40)).data 7).bid = did2Bid 0) (fun _ => False) Sys.fullFile := by
  have hok : Sys.fullFile.BcacOk := ⟨.empty, fun _ _ hn => by cases hn⟩
  have hroomy : Sys.fullFile.Roomy 1 := Cache.Keyed.empty.roomy_of_length (by decide)
  have hroom : ∀ n ≤ 1, ∀ e : Halt, ¬(e.NoCacheRoom ∧ ¬Sys.fullFile.Roomy n) :=
    fun n hn e he => he.2 (hroomy.mono hn)
  obtain ⟨_, _, hblock, hlookup, hlevel⟩ := full_bitmap_links_used_block World.returning_honest rfl
    hok Sys.full_metaInv Sys.full_freeDids
  refine ⟨hblock.mono (fun _ _ h => h) (hroom 0 (by decide)),
    (hlookup 0 _ 0 _ _ rfl rfl).imp fun _ _ h => ⟨h.1, h.2 (by decide)⟩,
    (hlookup 0 _ 1000 _ _ rfl rfl).imp fun _ _ h => h.1, ?_⟩
  exact (hlevel 0 _ (did2Bid 40) 7 _ none rfl (by decide) (by decide)
    ⟨fun _ hn => (by cases hn), fun _ hn => (by cases hn), fun _ => rfl,
      fun _ _ hm => (by cases hm)⟩
    rfl).mono (fun _ _ h => h) (hroom 1 le_rfl)

/-- A file that is written to when no data block is free gets the first data block. -/
theorem full_write_gets_used_block : Sys.full.freeDids = ∅ ∧ Sys.full.UsedBlock (did2Bid 0) ∧
    (∃ s', blockAlloc World.returning Sys.full = .ok (did2Bid 0, s')) ∧
    ∃ r, ((do
      let ip ← igetFromCache World.returning 1 false
      let found ← inodeIndexLookup World.returning (ip.getD 0) 0 true HashIdx.zero Bytes.zero
      let slot ← Exec.read (·.rootBid (ip.getD 0) 0)
      return (found.bid, slot)) : Exec Halt Sys (ℕ × Option ℕ)) Sys.full = .ok r ∧
      decide (r.1 = (did2Bid 0, some (did2Bid 0))) = true := by
  refine ⟨Sys.full_freeDids, usedBlock_of_full Sys.full_freeDids, ⟨_, rfl⟩, ?_⟩
  exact exists_of_check (by decide +kernel)

end Efs
