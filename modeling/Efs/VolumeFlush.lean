import Efs.ExitCascade
import Efs.Volume
import Efs.InodeRuns
import Efs.MountImage

/-!
# The flush of the caches

`inode_exit` writes every inode into its block, and the `cache_exit` of the block cache evicts every
block. Then the disk has the trees of all inodes in use: the places are those that the caches
showed, each block has its data, and the hash of a block is in `pd_wb` or else in the slot of its
parent.
-/

namespace Efs

open Library

/-- The blocks that are cached, and those with a pending hash, have their own paths. -/
structure Sys.Chained (live : Finset ℕ) (s : Sys) : Prop where
  /-- The cached blocks. -/
  node : ∀ bid block, dataStart ≤ bid → (s.spot bid).block = some block →
    ∃ r ks, (s.spread live).Live r ks ∧ (s.spread live).blockAt r ks = bid ∧
      IsPath (s.spread live).forest r ks block.hashidx
  /-- The blocks with a pending hash. -/
  pending : ∀ bid entry, (s.spot bid).pending = some entry →
    ∃ r ks, (s.spread live).Live r ks ∧ (s.spread live).blockAt r ks = bid ∧
      IsPath (s.spread live).forest r ks entry.hashidx

/-- The caches of `s` were written out. -/
structure Flushed (w : World) (s t : Sys) : Prop where
  /-- The inodes are in their blocks. -/
  record : ∀ iid < 32768, loadInode 0 (t.inodePlain w iid) iid = s.record iid
  /-- The other blocks were evicted. -/
  spot : ∀ b ∉ inodeBlocks, t.spot b = (s.spot b).evict w b
  /-- No metadata block got a pending hash. -/
  pending : ∀ b < dataStart, (t.spot b).pending = (s.spot b).pending
  /-- The data bitmap is in its blocks. -/
  bitmap : ∀ b ∈ bitmapBlocks, t.metaPlain w b = (s.spot b).data
  /-- What is in no block and no inode. -/
  rest : t.rest.2 = s.rest.2

section

variable {w : World} {E : Halt → Prop} {live : Finset ℕ} {s s₁ t : Sys} {r : RootSlot}
  {ks : List ℕ} {iid b : ℕ}

/-! ## The flush -/

/-- The rule for `cache_exit` of the block cache: every block is evicted. -/
theorem wp_cacheExit_bcac (hw : w.Reliable) (hok : s.BcacOk) (hmeta : s.MetaInv w)
    {Q : Unit → Sys → Prop}
    (hQ : ∀ t, t.MetaInv w → t.rest = s.rest → (∀ b, t.spot b = (s.spot b).evict w b) → Q () t) :
    Exec.Wp (cacheExit (bcacOf w)) Q E s := by
  obtain ⟨c₁, hc₁, hfifo₁, hlru₁, hpeels₁⟩ := hok.keyed.peels_fifo rfl
  obtain ⟨c₂, hc₂, hlru₂, hfifo₂, hpeels₂⟩ := hc₁.peels_lru rfl
  simp only [cacheExit, cacheAlive, Exec.wp_bind, Exec.wp_read, Exec.wp_when, Exec.wp_stop]
  refine ⟨fun hdangling => absurd hdangling (by simp [bcacOf, hok.keyed.wf.alive]), fun _ => ?_⟩
  refine wp_freeNodes_bcac hw hok.keyed hpeels₁ hok hmeta
    fun s₁ hok₁ hmeta₁ hbcac₁ hrest₁ _ hspot₁ => ?_
  have hlist : ((bcacOf w).get s₁).lru.nodes = c₁.lru.nodes := by
    rw [hlru₁, ← hbcac₁]
    rfl
  rw [hlist]
  refine wp_freeNodes_bcac hw hc₁ hpeels₂ hok₁ hmeta₁ fun s₂ _ hmeta₂ _ hrest₂ _ hspot₂ => ?_
  have hgone : ∀ b, (({ s₂ with bcac := c₂ } : Sys).spot b).node = none :=
    hc₂.node_of_nil (hfifo₂ ▸ hfifo₁) hlru₂
  -- A block that is not cached in the end was evicted, or was not cached before.
  have hevicted : ∀ b, ({ s₂ with bcac := c₂ } : Sys).spot b = (s.spot b).evict w b := by
    intro b
    have hfirst : ({ s₁ with bcac := c₁ } : Sys).spot b = s.spot b ∨
        ({ s₁ with bcac := c₁ } : Sys).spot b = (s.spot b).evict w b := hspot₁ b
    have hnone := hgone b
    rcases hspot₂ b with heq | heq
    · rw [heq] at hnone ⊢
      rcases hfirst with heq₁ | heq₁
      · rw [heq₁] at hnone ⊢
        exact (Spot.evict_of_absent hnone).symm
      · exact heq₁
    · rw [heq]
      rcases hfirst with heq₁ | heq₁
      · rw [heq₁]
      · rw [heq₁, Spot.evict_of_absent Spot.node_evict]
  have hspot : ∀ b, ((bcacOf w).set
      { (bcacOf w).get s₂ with fifo.nodes := [], lru.nodes := [], dangling := true } s₂).spot b =
        ({ s₂ with bcac := c₂ } : Sys).spot b := by
    intro b
    have hnode : c₂.node b = none := hgone b
    have hempty : ∀ c : Cache Block,
        ({ c with fifo.nodes := [], lru.nodes := [], dangling := true } : Cache Block).node b =
          none := fun c => by
      simp [Cache.node, Queue.search]
    rw [Sys.spot, Sys.spot]
    exact congrArg (Spot.mk · _ _ _ _) ((hempty s₂.bcac).trans hnode.symm)
  refine Exec.wp_update.mpr (hQ _ (fun bid hle hlt => ?_) ?_ fun b => (hspot b).trans (hevicted b))
  · rw [hspot]
    exact hmeta₂ bid hle hlt
  · exact hrest₂.trans hrest₁

/-- An entry after an eviction has the path of the entry before it, or else that of the block. -/
theorem Spot.hashidx_evict {l : Spot} {entry : PdWbNode} (h : (l.evict w b).pending = some entry) :
    (∃ old, l.pending = some old ∧ entry.hashidx = old.hashidx) ∨
      dataStart ≤ b ∧ ∃ block, l.block = some block ∧ entry.hashidx = block.hashidx := by
  rw [Spot.evict] at h
  cases hblock : l.block with
  | none =>
    rw [hblock] at h
    exact Or.inl ⟨entry, h, rfl⟩
  | some block =>
    rw [hblock] at h
    cases hdirty : l.dirty with
    | false =>
      simp only [hdirty, Bool.false_eq_true, if_false] at h
      exact Or.inl ⟨entry, h, rfl⟩
    | true =>
      simp only [hdirty, if_true] at h
      split_ifs at h with hlt
      · exact Or.inl ⟨entry, h, rfl⟩
      · cases h
        cases hpending : l.pending with
        | none => exact Or.inr ⟨Nat.not_lt.mp hlt, block, rfl, rfl⟩
        | some old => exact Or.inl ⟨old, rfl, rfl⟩

/-- The rule for `inode_exit` and the `cache_exit` of the block cache. -/
theorem wp_flush (hw : w.Reliable) (h : s.Stored w 0) (hfull : s.Full) {Q : Unit → Sys → Prop}
    (hQ : ∀ t, Flushed w s t → Q () t) : Exec.Wp (storeExit w) Q E s := by
  apply Exec.wp_bind.mpr
  apply wp_inodeExit hw h hfull
  intro s₁ hok₁ hmeta₁ hrest₁ hload hspot₁ hpending₁
  apply wp_cacheExit_bcac hw hok₁ hmeta₁
  intro t hmeta hrest hspot
  apply hQ
  constructor
  · intro iid hiid
    obtain ⟨hle, hlt⟩ := inodeIid2Bid_mem hiid
    have hmem : inodeIid2Bid iid < dataStart := hlt.trans (by decide)
    have hnode : (t.spot (inodeIid2Bid iid)).node = none := by rw [hspot, Spot.node_evict]
    have hdata : (t.spot (inodeIid2Bid iid)).data = (s₁.spot (inodeIid2Bid iid)).data := by
      rw [hspot, Spot.data_evict (hok₁.filled _) (hmeta₁ _ hle hmem).metaOk.dirty_or]
    have hplain : t.inodePlain w iid = (s₁.spot (inodeIid2Bid iid)).data :=
      ((hmeta _ hle hmem).disk hnode).1.trans hdata
    rw [hplain]
    exact hload iid
  · intro b hb
    rw [hspot, hspot₁ b hb]
  · intro b hb
    rw [hspot, Spot.pending_evict hb, hpending₁]
  · intro b hb
    have hle : inodeStart ≤ b := le_trans (by decide) hb.1
    have hnode : (t.spot b).node = none := by rw [hspot, Spot.node_evict]
    have hnotInode : b ∉ inodeBlocks := fun hmem => absurd (hmem.2.trans_le hb.1) (lt_irrefl _)
    have hplain : t.metaPlain w b = (t.spot b).data := ((hmeta b hle hb.2).disk hnode).1
    rw [hplain, hspot, Spot.data_evict (hok₁.filled b) (hmeta₁ b hle hb.2).metaOk.dirty_or,
      hspot₁ b hnotInode]
  · exact (congrArg Prod.snd hrest).trans hrest₁

/-! ## The trees on the disk -/

section

variable (hw : w.Reliable) (h : s.Sound w live) (hf : Flushed w s t)

include hf

/-- A flush leaves the superblock and the inode bitmap. -/
theorem Flushed.sb_eq : t.sb.aesKey = s.sb.aesKey ∧ t.sb.aesIv = s.sb.aesIv ∧
    t.sb.rootinode = s.sb.rootinode ∧
    t.ibm = s.ibm :=
  ⟨congrArg (fun r => r.2.1) hf.rest, congrArg (fun r => r.2.2.1) hf.rest,
    congrArg (fun r => r.2.2.2.2.2) hf.rest,
    congrArg Prod.fst hf.rest⟩

include h

/-- The keys of an inode are those in its block. -/
theorem Flushed.keys_eq (hiid : iid ∈ live) :
    dinodeAesIv (t.inodePlain w iid) iid = (s.record iid).aesIv ∧
      dinodeAesKey (t.inodePlain w iid) iid = (s.record iid).aesKey :=
  ⟨congrArg Inode.aesIv (hf.record iid (h.lt iid hiid)),
    congrArg Inode.aesKey (hf.record iid (h.lt iid hiid))⟩

include hw

/-- A block of a tree is on the disk, and its hash is pending or else in its slot. -/
theorem Flushed.tree_eq (hl : (s.spread live).Live r ks) :
    t.plain w r.1 ((s.spread live).blockAt r ks) = (s.spot ((s.spread live).blockAt r ks)).data ∧
      w.sha256 (s.spot ((s.spread live).blockAt r ks)).data =
        ((t.spot ((s.spread live).blockAt r ks)).pending.map (·.hash)).getD
          ((s.spread live).slotAt r ks).hash := by
  have hfilled := h.stored.ok.filled ((s.spread live).blockAt r ks)
  have hspot := hf.spot _ (h.not_mem_inodeBlocks hl)
  have hgood := h.good r ks hl
  have hevicted := hgood.evict hw (h.dataStart_le hl) hfilled
  have hclean : ((s.spot ((s.spread live).blockAt r ks)).evict w
    ((s.spread live).blockAt r ks)).dirty ≠ true := by
    rw [Spot.dirty_evict]
    exact Bool.false_ne_true
  obtain ⟨hdata, hhash⟩ := hevicted.hashOk.resolve_left hclean
  have hdisk := (hevicted.diskOk not_false).resolve_left hclean
  rw [Spot.data_evict hfilled hgood.hashOk.dirty_or] at hdata
  obtain ⟨hiv, hkey⟩ := hf.keys_eq h hl.mem_live
  rw [← hspot] at hdata hhash hdisk
  constructor
  · rw [Sys.plain, hiv, hkey, hdata]
    exact hdisk
  · rw [hdata]
    exact hhash

/-- The disk has the trees that the caches showed. -/
theorem Flushed.agreeAt : (s.spread live).forest.AgreeAt treeShape (t.onDisk w live) r where
  isRoot := isRoot_spread.symm
  root hroot := by
    have hmem := isRoot_spread.mp hroot
    have hrecord := hf.record r.1 (h.lt r.1 hmem)
    rw [root_spread hmem, ← hrecord]
    rfl
  entry ks k hl _ := by
    have hplain := (hf.tree_eq hw h hl).1
    exact congrArg (indexAt · k) hplain

/-- After a flush the disk has the places of the trees. -/
theorem Flushed.live_iff : (t.onDisk w live).Live treeShape r ks ↔ (s.spread live).Live r ks :=
  (hf.agreeAt hw h).live_iff.1

/-- After a flush the disk has the entries of the trees. -/
theorem Flushed.slot_eq (hl : (s.spread live).Live r ks) :
    (t.onDisk w live).slot treeShape r ks = (s.spread live).slotAt r ks :=
      (hf.agreeAt hw h).live_iff.2 hl

/-- After a flush the disk has the blocks of the trees. -/
theorem Flushed.block_eq (hl : (s.spread live).Live r ks) :
    (t.onDisk w live).block treeShape r ks = (s.spread live).blockAt r ks :=
  congrArg treeShape.target (hf.slot_eq hw h hl)

/-- The cascade of `block_exit` can begin. -/
theorem Flushed.pendingOk (hchained : s.Chained live) : PendingOk w live t := by
  constructor
  · constructor
    · exact fun iid hiid => h.lt iid hiid
    · intro r ks hlive
      have hl := (hf.live_iff hw h).mp hlive
      rw [hf.block_eq hw h hl]
      exact h.dataStart_le hl
    · intro r ks r' ks' hlive hlive' heq
      have hl := (hf.live_iff hw h).mp hlive
      have hl' := (hf.live_iff hw h).mp hlive'
      rw [hf.block_eq hw h hl, hf.block_eq hw h hl'] at heq
      exact h.disjoint r ks r' ks' hl hl' heq
  · intro bid node hfind
    have hpending : (t.spot bid).pending = some node := hfind
    have hplace : ∃ r ks, (s.spread live).Live r ks ∧ (s.spread live).blockAt r ks = bid ∧
        IsPath (s.spread live).forest r ks node.hashidx := by
      by_cases hbid : bid ∈ inodeBlocks
      · rw [hf.pending bid (hbid.2.trans (by decide))] at hpending
        exact hchained.pending bid node hpending
      · rw [hf.spot bid hbid] at hpending
        rcases Spot.hashidx_evict hpending with ⟨old, hold, heq⟩ | ⟨hle, block, hblock, heq⟩
        · rw [heq]
          exact hchained.pending bid old hold
        · rw [heq]
          exact hchained.node bid block hle hblock
    obtain ⟨r, ks, hl, rfl, hpath⟩ := hplace
    refine ⟨r, ks, (hf.live_iff hw h).mpr hl, hf.block_eq hw h hl, ⟨?_, hpath.2⟩, ?_⟩
    · exact hpath.1.congr hl fun ks' hl' => hf.block_eq hw h hl'
    · obtain ⟨hplain, hhash⟩ := hf.tree_eq hw h hl
      rw [hpending, Option.map_some, Option.getD_some] at hhash
      rw [hplain, hhash]
  · intro r ks hlive hnone
    have hl := (hf.live_iff hw h).mp hlive
    obtain ⟨hplain, hhash⟩ := hf.tree_eq hw h hl
    rw [hf.block_eq hw h hl] at hnone
    have hpending : (t.spot ((s.spread live).blockAt r ks)).pending = none := hnone
    rw [hpending, Option.map_none, Option.getD_none] at hhash
    rw [Hashed, hf.slot_eq hw h hl, hf.block_eq hw h hl, hplain, hhash]

end

end

end Efs
