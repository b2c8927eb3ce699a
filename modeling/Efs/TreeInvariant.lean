import Efs.FileTree
import Efs.IndexLookup

/-!
# The trees of the cached inodes

The trees that hang off the inodes in the inode cache, with the current data of
their blocks. While no block is in two places and the hash of every block can be
found, each block of a tree can be loaded. A change of one slot keeps this up.
-/

namespace Efs

open Library

/-! ## The invariant -/

/-- The entry of a root slot of an inode. -/
def Inode.rootEntry (inode : Inode) (r : Fin 13) : Index := ⟨inode.bid r, inode.hash r⟩

/-- The trees of the cached inodes. -/
def Sys.forest (s : Sys) : Forest RootSlot Index where
  isRoot r := s.inodeOf r.1 ≠ none
  root r := ((s.inodeOf r.1).map fun inode => inode.rootEntry r.2).getD ⟨0, Bytes.zero⟩
  entry _ b k := indexAt (s.spot b).data k

/-- There is a block at the place. -/
def Sys.Live (s : Sys) (r : RootSlot) (ks : List ℕ) : Prop := s.forest.Live treeShape r ks

/-- The block at the place. -/
def Sys.blockAt (s : Sys) (r : RootSlot) (ks : List ℕ) : ℕ := s.forest.block treeShape r ks

/-- The slot at the place. -/
def Sys.slotAt (s : Sys) (r : RootSlot) (ks : List ℕ) : Index := s.forest.slot treeShape r ks

/-- A block of a tree can be loaded: its hash can be found, and the disk has it.
A raw block was just allocated; it was never loaded and is not on the disk. -/
structure Spot.TreeGood (w : World) (raw : Prop) (iv key : Key128) (hash : Key256) (l : Spot) :
    Prop where
  /-- The hash can be found. -/
  hashOk : l.HashOk w hash
  /-- The disk keeps what was written back. -/
  diskOk : ¬raw → l.DiskOk w iv key
  /-- A raw block is zero and not cached. -/
  blank : raw → l.node = none ∧ l.evicted = Bytes.zero
  /-- The cached copy has the keys. -/
  keysOk : l.KeysOk iv key
  /-- Nobody has locked the block. -/
  unlocked : l.Unlocked

/-- The trees are as lookups in them are to find them. The blocks in `raw` were just
allocated. -/
structure Sys.TreeInv (w : World) (raw : Set ℕ) (s : Sys) : Prop where
  /-- Every inode number has one node. -/
  icac : s.icac.Keyed
  /-- An inode has its number. -/
  iid_eq : ∀ iid inode, s.inodeOf iid = some inode → inode.iid = iid
  /-- The block cache is good. -/
  ok : s.BcacOk
  /-- The metadata blocks are good. -/
  metaInv : s.MetaInv w
  /-- No block is in two places. -/
  disjoint : s.forest.Disjoint treeShape
  /-- The bitmap shows the blocks of the trees as used. -/
  used : ∀ r ks, s.Live r ks → s.UsedBlock (s.blockAt r ks)
  /-- The blocks of the trees can be loaded. -/
  good : ∀ r ks inode, s.Live r ks → s.inodeOf r.1 = some inode →
    (s.spot (s.blockAt r ks)).TreeGood w (s.blockAt r ks ∈ raw) inode.aesIv inode.aesKey
      (s.slotAt r ks).hash
  /-- The blocks of unused numbers are not cached and have no pending hash. -/
  unused : ∀ did < 16777216, did ∉ s.dataUsed →
    (s.spot (did2Bid did)).node = none ∧ (s.spot (did2Bid did)).pending = none
  /-- An empty slot has no pending hash. -/
  hole : (s.spot 0).pending = none

section

variable {w : World} {raw raw' : Set ℕ} {s s' : Sys} {r : RootSlot} {ks : List ℕ} {k : ℕ}
  {X : Set ℕ} {added : List (ℕ × HashIdx)} {iv key : Key128} {hash : Key256} {l l' : Spot}

/-- An entry below a block is read from the data of the block. -/
theorem Sys.slotAt_cons : s.slotAt r (k :: ks) = indexAt (s.spot (s.blockAt r ks)).data k := rfl

/-- The block at a place is the one its slot points at. -/
theorem Sys.blockAt_eq : s.blockAt r ks = (s.slotAt r ks).bid := rfl

/-- A root slot is read from the inode. -/
theorem Sys.slotAt_nil {inode : Inode} (h : s.inodeOf r.1 = some inode) :
    s.slotAt r [] = inode.rootEntry r.2 := by
  simp [slotAt, Forest.slot, forest, h]

/-- A block in a tree belongs to a cached inode. -/
theorem Sys.Live.inode (h : s.Live r ks) : ∃ inode, s.inodeOf r.1 = some inode :=
  Option.ne_none_iff_exists'.mp h.isRoot

/-- A block that is not in use is not cached. -/
theorem Sys.TreeInv.unusedAbsent (h : s.TreeInv w raw) : s.UnusedAbsent :=
  fun did hlt hdid => (h.unused did hlt hdid).1

/-! ## Blocks of a tree -/

/-- A block is dirty, or as the disk would give it. -/
theorem Spot.HashOk.dirty_or (h : l.HashOk w hash) : l.dirty = true ∨ l.data = l.evicted :=
  h.imp_right And.left

/-- An eviction keeps a block of a tree good. -/
theorem Spot.TreeGood.evict {b : ℕ} {r : Prop} (h : l.TreeGood w r iv key hash)
    (hw : w.Reliable) (hb : dataStart ≤ b) (hfilled : l.Filled) :
    (l.evict w b).TreeGood w r iv key hash := by
  refine ⟨h.hashOk.evict hb hfilled, fun hr => ?_, fun hr => ?_, KeysOk.evict, Unlocked.evict⟩
  · exact (h.diskOk hr).evict h.keysOk hw.decrypt_encrypt hfilled
  · rw [Spot.evict_of_node_eq_none (h.blank hr).1]
    exact h.blank hr

/-- A block of a tree that settles stays good. -/
theorem Spot.TreeGood.settles {b : ℕ} {r : Prop} (h : (s.spot b).TreeGood w r iv key hash)
    (hw : w.Reliable) (hs : s.BcacOk) (hsettles : Settles w X added s s') (hb : dataStart ≤ b)
    (hX : b ∉ X) : (s'.spot b).TreeGood w r iv key hash := by
  rcases hsettles.spot b hX with heq | ⟨_, heq⟩
  · rw [heq]
    exact h
  · rw [heq]
    exact h.evict hw hb (hs.filled b)

/-- A block of a tree can be loaded with the hash that is found for it; a raw block
without one. -/
theorem Spot.TreeGood.ready {r : Prop} (h : l.TreeGood w r iv key hash)
    (hpending : ¬r → l.pending = none)
    {expHash : Option Key256} (hraw : r → expHash = none) (hexp : ¬r → expHash = some hash) :
    l.Ready w iv key expHash := by
  have hclean : l.node = none → l.dirty = false := fun hn => by simp [dirty, hn]
  refine ⟨h.unlocked, h.keysOk, fun hn => ?_, fun hn hash' hhash' => ?_⟩
  · by_cases hr : r
    · rw [hraw hr, (h.blank hr).2]
      rfl
    · rw [hexp hr]
      exact (h.diskOk hr).resolve_left (by simp [hclean hn])
  · by_cases hr : r
    · rw [hraw hr] at hhash'
      cases hhash'
    · rw [hexp hr] at hhash'
      obtain rfl := Option.some.inj hhash'
      rw [(h.diskOk hr).resolve_left (by simp [hclean hn]),
        (h.hashOk.resolve_left (by simp [hclean hn])).2, hpending hr]
      rfl

/-- A block of a tree that was only read is good. -/
theorem Spot.TreeGood.cached {addr refcnt : ℕ} {r : Prop} (h : l.TreeGood w r iv key hash)
    (hr : ¬r) (hcached : l.Cached l' addr refcnt false l.dirty iv key l.data) :
    l'.TreeGood w r iv key hash :=
  ⟨hcached.hashOk h.hashOk, fun hr => hcached.diskOk (h.diskOk hr), fun hr' => absurd hr' hr,
    hcached.keysOk, hcached.unlocked⟩

/-- A block that was marked dirty is good. -/
theorem Spot.Cached.treeGood {addr refcnt : ℕ} {d : Data} {r : Prop} (hr : ¬r)
    (hcached : l.Cached l' addr refcnt false true iv key d) : l'.TreeGood w r iv key hash :=
  ⟨hcached.hashOk_of_dirty, fun _ => hcached.diskOk_of_dirty, fun hr' => absurd hr' hr,
    hcached.keysOk, hcached.unlocked⟩

/-- An index block that got the pending hash of one of its entries is good. -/
theorem Spot.TreeGood.rehashed {addr refcnt : ℕ} {r : Prop} (h : l.TreeGood w r iv key hash)
    (hr : ¬r) {pending : Option PdWbNode} (hcached : l.Cached l' addr refcnt false
      (l.dirty || pending.isSome) iv key (rehash l.data k pending)) :
    l'.TreeGood w r iv key hash := by
  cases pending with
  | none => exact h.cached hr (by simpa [Efs.rehash] using hcached)
  | some node =>
    rw [Option.isSome_some, Bool.or_true] at hcached
    exact hcached.treeGood hr

/-- A pending hash was moved to the slot of the block. -/
theorem Spot.TreeGood.rehash {r : Prop} (h : l.TreeGood w r iv key hash) :
    ({ l with pending := none } : Spot).TreeGood w r iv key
      ((l.pending.map (·.hash)).getD hash) := by
  refine ⟨?_, h.diskOk, h.blank, h.keysOk, h.unlocked⟩
  exact h.hashOk.imp_right fun hok => ⟨hok.1, hok.2⟩

/-! ## Changes of one slot -/

/-- The places of `s'` are those of `s` with the contents of their slots, but for the
place `p`: it has the block that it had, or one that was not used. -/
structure OneSlot (s s' : Sys) (p : Place RootSlot) : Prop where
  /-- The other places are those of before. -/
  live : ∀ r ks, s'.Live r ks → (r, ks) = p ∨ s.Live r ks ∧ s'.slotAt r ks = s.slotAt r ks
  /-- There is a block at the place. -/
  place : s'.Live p.1 p.2
  /-- The block at the place. -/
  block : s.Live p.1 p.2 ∧ s'.blockAt p.1 p.2 = s.blockAt p.1 p.2 ∨
    ∃ did, did ∉ s.dataUsed ∧ s'.blockAt p.1 p.2 = did2Bid did
  /-- The inodes have their numbers and keys. -/
  inode : ∀ iid inode', s'.inodeOf iid = some inode' → ∃ inode, s.inodeOf iid = some inode ∧
    inode'.iid = inode.iid ∧ inode'.aesIv = inode.aesIv ∧ inode'.aesKey = inode.aesKey

/-- No block is at two places after a change of one slot. -/
theorem OneSlot.disjoint {p : Place RootSlot} (h : OneSlot s s' p) (hs : s.TreeInv w raw) :
    s'.forest.Disjoint treeShape := by
  have hother : ∀ r ks, s'.Live r ks → (r, ks) ≠ p → s'.blockAt r ks ≠ s'.blockAt p.1 p.2 := by
    intro r ks hlive hne heq
    obtain ⟨hlive', hslot⟩ := (h.live r ks hlive).resolve_left hne
    have hblock : s'.blockAt r ks = s.blockAt r ks := by
      rw [Sys.blockAt_eq, hslot, ← Sys.blockAt_eq]
    rcases h.block with ⟨hp, hsame⟩ | ⟨did, hdid, hnew⟩
    · exact hne (hs.disjoint _ _ _ _ hlive' hp (hblock.symm.trans (heq.trans hsame)))
    · exact (hs.used r ks hlive').ne hdid (hnew.symm.trans (heq.symm.trans hblock))
  intro r ks r' ks' hlive hlive' heq
  by_cases hp : (r, ks) = p
  · by_cases hp' : (r', ks') = p
    · rw [hp, hp']
    · subst hp
      exact absurd heq.symm (hother r' ks' hlive' hp')
  · by_cases hp' : (r', ks') = p
    · subst hp'
      exact absurd heq (hother r ks hlive hp)
    · obtain ⟨hold, hslot⟩ := (h.live r ks hlive).resolve_left hp
      obtain ⟨hold', hslot'⟩ := (h.live r' ks' hlive').resolve_left hp'
      refine hs.disjoint r ks r' ks' hold hold' ?_
      have hblock : s'.blockAt r ks = s.blockAt r ks := by
        rw [Sys.blockAt_eq, hslot, ← Sys.blockAt_eq]
      have hblock' : s'.blockAt r' ks' = s.blockAt r' ks' := by
        rw [Sys.blockAt_eq, hslot', ← Sys.blockAt_eq]
      exact hblock.symm.trans (Eq.trans heq hblock')

/-- A change of one slot keeps the invariant when the blocks stay good. -/
theorem OneSlot.treeInv {p : Place RootSlot} (h : OneSlot s s' p) (hs : s.TreeInv w raw)
    (hicac : s'.icac.Keyed) (hok : s'.BcacOk) (hmeta : s'.MetaInv w)
    (hused : ∀ did, did ∈ s.dataUsed ∨ s'.blockAt p.1 p.2 = did2Bid did → did ∈ s'.dataUsed)
    (hgood : ∀ r ks inode, s.Live r ks → (r, ks) ≠ p → s.inodeOf r.1 = some inode →
      (s'.spot (s.blockAt r ks)).TreeGood w (s.blockAt r ks ∈ raw') inode.aesIv inode.aesKey
        (s.slotAt r ks).hash)
    (hplace : ∀ inode, s.inodeOf p.1.1 = some inode →
      (s'.spot (s'.blockAt p.1 p.2)).TreeGood w (s'.blockAt p.1 p.2 ∈ raw') inode.aesIv
        inode.aesKey (s'.slotAt p.1 p.2).hash)
    (hunused : ∀ did < 16777216, did ∉ s'.dataUsed →
      (s'.spot (did2Bid did)).node = none ∧ (s'.spot (did2Bid did)).pending = none)
    (hhole : (s'.spot 0).pending = none) : s'.TreeInv w raw' := by
  refine ⟨hicac, fun iid inode' hinode' => ?_, hok, hmeta, h.disjoint hs, fun r ks hlive => ?_,
    fun r ks inode' hlive hinode' => ?_, hunused, hhole⟩
  · obtain ⟨inode, hinode, heq, _⟩ := h.inode iid inode' hinode'
    rw [heq]
    exact hs.iid_eq iid inode hinode
  · by_cases hp : (r, ks) = p
    · subst hp
      rcases h.block with ⟨hp, hsame⟩ | ⟨did, _, hnew⟩
      · obtain ⟨did, hdid, heq⟩ := hs.used r ks hp
        exact ⟨did, hused did (Or.inl hdid), hsame.trans heq⟩
      · exact ⟨did, hused did (Or.inr hnew), hnew⟩
    · obtain ⟨hold, hslot⟩ := (h.live r ks hlive).resolve_left hp
      obtain ⟨did, hdid, heq⟩ := hs.used r ks hold
      refine ⟨did, hused did (Or.inl hdid), ?_⟩
      rw [Sys.blockAt_eq, hslot, ← heq]
      rfl
  · obtain ⟨inode, hinode, _, hiv, hkey⟩ := h.inode r.1 inode' hinode'
    rw [hiv, hkey]
    by_cases hp : (r, ks) = p
    · subst hp
      exact hplace inode hinode
    · obtain ⟨hold, hslot⟩ := (h.live r ks hlive).resolve_left hp
      have hblock : s'.blockAt r ks = s.blockAt r ks := by
        rw [Sys.blockAt_eq, hslot, ← Sys.blockAt_eq]
      rw [hblock, hslot]
      exact hgood r ks inode hold hp hinode

/-! ## Changes of no slot -/

/-- The places of `s'` are those of `s` with the contents of their slots. -/
structure SameSlots (s s' : Sys) : Prop where
  /-- The places are the same. -/
  live : ∀ r ks, s'.Live r ks ↔ s.Live r ks
  /-- The slots of the places are the same. -/
  slot : ∀ r ks, s.Live r ks → s'.slotAt r ks = s.slotAt r ks
  /-- The inodes have their numbers and keys. -/
  inode : ∀ iid inode', s'.inodeOf iid = some inode' → ∃ inode, s.inodeOf iid = some inode ∧
    inode'.iid = inode.iid ∧ inode'.aesIv = inode.aesIv ∧ inode'.aesKey = inode.aesKey

/-- The same slots point at the same blocks. -/
theorem SameSlots.block (h : SameSlots s s') (hlive : s.Live r ks) :
    s'.blockAt r ks = s.blockAt r ks := by
  rw [Sys.blockAt_eq, h.slot r ks hlive, ← Sys.blockAt_eq]

/-- When the root slots and the entries of the index blocks stay, so do the places. -/
theorem sameSlots_of_entries
    (hroot : ∀ iid, (s'.inodeOf iid).map (fun i => (i.rootEntry, i.iid, i.aesIv, i.aesKey)) =
      (s.inodeOf iid).map (fun i => (i.rootEntry, i.iid, i.aesIv, i.aesKey)))
    (hentry : ∀ r ks, s.Live r ks → ks.length < treeShape.height r → ∀ j,
      indexAt (s'.spot (s.blockAt r ks)).data j = indexAt (s.spot (s.blockAt r ks)).data j) :
    SameSlots s s' := by
  have hinode : ∀ iid inode', s'.inodeOf iid = some inode' → ∃ inode, s.inodeOf iid = some inode ∧
      inode'.rootEntry = inode.rootEntry ∧ inode'.iid = inode.iid ∧ inode'.aesIv = inode.aesIv ∧
        inode'.aesKey = inode.aesKey := by
    intro iid inode' hinode'
    have heq := hroot iid
    rw [hinode', Option.map_some] at heq
    obtain ⟨inode, hinode, hfields⟩ := Option.map_eq_some_iff.mp heq.symm
    simp only [Prod.mk.injEq] at hfields
    exact ⟨inode, hinode, hfields.1.symm, hfields.2.1.symm, hfields.2.2.1.symm, hfields.2.2.2.symm⟩
  have hnone : ∀ iid, s'.inodeOf iid = none ↔ s.inodeOf iid = none := by
    intro iid
    rw [← Option.map_eq_none_iff, hroot iid, Option.map_eq_none_iff]
  have hagree : ∀ p, s.forest.AgreeOff treeShape s'.forest p := by
    refine fun p => ⟨fun r => not_congr (hnone r.1), fun r hr _ => ?_,
      fun r ks j hlive hlt _ => hentry r ks hlive hlt j⟩
    have hsome : s'.inodeOf r.1 ≠ none := fun h => hr ((hnone r.1).mp h)
    obtain ⟨inode', hinode'⟩ := Option.ne_none_iff_exists'.mp hsome
    obtain ⟨inode, hinode, heq, _⟩ := hinode r.1 inode' hinode'
    simp only [Sys.forest, hinode', hinode, Option.map_some, Option.getD_some, heq]
  have hsame : ∀ r ks, (s'.Live r ks ↔ s.Live r ks) ∧
      (s.Live r ks → s'.slotAt r ks = s.slotAt r ks) := fun r ks => Forest.live_iff_of_agree hagree
  refine ⟨fun r ks => (hsame r ks).1, fun r ks => (hsame r ks).2, fun iid inode' hinode' => ?_⟩
  obtain ⟨inode, heq, _, hfields⟩ := hinode iid inode' hinode'
  exact ⟨inode, heq, hfields⟩

/-- A step that changes no slot keeps the invariant when the blocks stay good. -/
theorem SameSlots.treeInv (h : SameSlots s s') (hs : s.TreeInv w raw) (hicac : s'.icac.Keyed)
    (hok : s'.BcacOk) (hmeta : s'.MetaInv w) (hused : s.dataUsed ⊆ s'.dataUsed)
    (hgood : ∀ r ks inode, s.Live r ks → s.inodeOf r.1 = some inode →
      (s'.spot (s.blockAt r ks)).TreeGood w (s.blockAt r ks ∈ raw') inode.aesIv inode.aesKey
        (s.slotAt r ks).hash)
    (hunused : ∀ did < 16777216, did ∉ s'.dataUsed →
      (s'.spot (did2Bid did)).node = none ∧ (s'.spot (did2Bid did)).pending = none)
    (hhole : (s'.spot 0).pending = none) : s'.TreeInv w raw' := by
  refine ⟨hicac, fun iid inode' hinode' => ?_, hok, hmeta, fun r ks r' ks' hlive hlive' heq => ?_,
    fun r ks hlive => ?_, fun r ks inode' hlive hinode' => ?_, hunused, hhole⟩
  · obtain ⟨inode, hinode, heq, _⟩ := h.inode iid inode' hinode'
    rw [heq]
    exact hs.iid_eq iid inode hinode
  · have hold := (h.live r ks).mp hlive
    have hold' := (h.live r' ks').mp hlive'
    exact hs.disjoint r ks r' ks' hold hold'
      ((h.block hold).symm.trans (Eq.trans heq (h.block hold')))
  · have hold := (h.live r ks).mp hlive
    obtain ⟨did, hdid, heq⟩ := hs.used r ks hold
    exact ⟨did, hused hdid, (h.block hold).trans heq⟩
  · have hold := (h.live r ks).mp hlive
    obtain ⟨inode, hinode, _, hiv, hkey⟩ := h.inode r.1 inode' hinode'
    rw [hiv, hkey, h.block hold, h.slot r ks hold]
    exact hgood r ks inode hold hinode

end

end Efs
