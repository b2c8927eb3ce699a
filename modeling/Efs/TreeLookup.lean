import Efs.TreeGrowth

/-!
# Lookups in a tree

A lookup goes down a tree from slot to slot. Each step finds the block of the next
place, or allocates it, and keeps the invariant of the trees. Apart from the places
on the way the trees keep their blocks, and the data of the files stays.
-/

namespace Efs

open Library

section

variable {w : World} {E : Halt → Prop} {raw raw' : Set ℕ} {s s₁ s' : Sys} {r : RootSlot}
  {ks : List ℕ} {k ip iid : ℕ} {inode : Inode} {p p' : Place RootSlot}

/-! ## One slot -/

/-- An empty slot got a block. -/
theorem oneSlot_of_new {did : ℕ} (hp : s.forest.HasSlot treeShape p.1 p.2)
    (hempty : s.blockAt p.1 p.2 = 0) (hagree : s.forest.AgreeOff treeShape s'.forest p)
    (hblock : s'.blockAt p.1 p.2 = did2Bid did) (hfresh : did ∉ s.dataUsed)
    (hzero : (s'.spot (did2Bid did)).data = Bytes.zero)
    (hinode : ∀ iid inode', s'.inodeOf iid = some inode' → ∃ inode, s.inodeOf iid = some inode ∧
      inode'.iid = inode.iid ∧ inode'.aesIv = inode.aesIv ∧ inode'.aesKey = inode.aesKey) :
    OneSlot s s' p ∧
      ∀ r ks, s.Live r ks → s'.Live r ks ∧ s'.slotAt r ks = s.slotAt r ks := by
  have hne : did2Bid did ≠ 0 := by
    have hle := dataStart_le_did2Bid did
    simp only [dataStart] at hle
    omega
  have hiff : ∀ r ks, (s'.Live r ks ↔ s.Live r ks ∨ (r, ks) = p) ∧
      (s.Live r ks → s'.slotAt r ks = s.slotAt r ks) := fun r ks => hagree.live_iff_of_new hp hempty
    (by change s'.blockAt p.1 p.2 ≠ 0; rw [hblock]; exact hne) fun k => by
      change (indexAt (s'.spot (s'.blockAt p.1 p.2)).data k).bid = 0
      rw [hblock, hzero, indexAt_zero]
  refine ⟨⟨fun r ks hlive => ?_, (hiff p.1 p.2).1.mpr (Or.inr rfl), Or.inr ⟨did, hfresh, hblock⟩,
    hinode⟩, fun r ks hlive => ⟨(hiff r ks).1.mpr (Or.inl hlive), (hiff r ks).2 hlive⟩⟩
  rcases (hiff r ks).1.mp hlive with hold | heq
  · exact Or.inr ⟨hold, (hiff r ks).2 hold⟩
  · exact Or.inl heq

/-- A slot kept its block. -/
theorem oneSlot_of_same (hp : s.Live p.1 p.2) (hagree : s.forest.AgreeOff treeShape s'.forest p)
    (hblock : s'.blockAt p.1 p.2 = s.blockAt p.1 p.2)
    (hinode : ∀ iid inode', s'.inodeOf iid = some inode' → ∃ inode, s.inodeOf iid = some inode ∧
      inode'.iid = inode.iid ∧ inode'.aesIv = inode.aesIv ∧ inode'.aesKey = inode.aesKey) :
    OneSlot s s' p ∧
      ∀ r ks, s.Live r ks → s'.Live r ks ∧ s'.blockAt r ks = s.blockAt r ks := by
  have hiff : ∀ r ks, s'.Live r ks ↔ s.Live r ks := fun r ks => hagree.live_iff hp hblock
  have hof := fun r ks (hlive : s.Live r ks) => hagree.of_block_eq hblock hlive
  refine ⟨⟨fun r ks hlive => ?_, (hiff _ _).mpr hp, Or.inl ⟨hp, hblock⟩, hinode⟩,
    fun r ks hlive => ⟨(hof r ks hlive).2.1, (hof r ks hlive).1⟩⟩
  have hold := (hiff r ks).mp hlive
  by_cases heq : (r, ks) = p
  · exact Or.inl heq
  · exact Or.inr ⟨hold, (hof r ks hold).2.2 heq⟩

/-- Changes of the data blocks in `X` leave the blocks of unused numbers as they are. -/
theorem Sys.TreeInv.unused_settles (h : s.TreeInv w raw) {X : Set ℕ} {added : List (ℕ × HashIdx)}
    (hsettles : Settles w X added s s') {did : ℕ} (hlt : did < 16777216) (hdid : did ∉ s.dataUsed)
    (hX : did2Bid did ∉ X) :
    (s'.spot (did2Bid did)).node = none ∧ (s'.spot (did2Bid did)).pending = none := by
  rw [hsettles.spot_of_absent hX (h.unused did hlt hdid).1]
  exact h.unused did hlt hdid

/-- An empty slot gets no pending hash. -/
theorem Sys.TreeInv.hole_settles (h : s.TreeInv w raw) {X : Set ℕ} {added : List (ℕ × HashIdx)}
    (hsettles : Settles w X added s s') (hX : 0 ∉ X) : (s'.spot 0).pending = none := by
  rcases hsettles.spot 0 hX with heq | ⟨_, heq⟩
  · rw [heq]
    exact h.hole
  · rw [heq, Spot.evict]
    cases (s.spot 0).block with
    | none => exact h.hole
    | some block =>
      cases (s.spot 0).dirty with
      | false => exact h.hole
      | true => simpa using h.hole

/-- A change of one entry of an index block. -/
theorem Sys.TreeInv.agreeOff_entry (h : s.TreeInv w raw) (hlive : s.Live r ks)
    (hicac : s'.icac = s.icac)
    (hentry : ∀ j ≠ k, indexAt (s'.spot (s.blockAt r ks)).data j =
      indexAt (s.spot (s.blockAt r ks)).data j)
    (hdata : ∀ r' ks', s.Live r' ks' → s.blockAt r' ks' ≠ s.blockAt r ks →
      (s'.spot (s.blockAt r' ks')).data = (s.spot (s.blockAt r' ks')).data) :
    s.forest.AgreeOff treeShape s'.forest (r, k :: ks) := by
  have hinode : ∀ iid, s'.inodeOf iid = s.inodeOf iid := fun iid => by rw [inodeOf, hicac]; rfl
  refine ⟨fun r' => by simp only [forest, hinode], fun r' _ _ => by simp only [forest, hinode],
    fun r' ks' j hlive' _ hne => ?_⟩
  change indexAt (s'.spot (s.blockAt r' ks')).data j = indexAt (s.spot (s.blockAt r' ks')).data j
  by_cases hb : s.blockAt r' ks' = s.blockAt r ks
  · obtain ⟨rfl, rfl⟩ := Prod.mk.inj (h.disjoint r' ks' r ks hlive' hlive hb)
    refine hentry j ?_
    rintro rfl
    exact hne rfl
  · rw [hdata r' ks' hlive' hb]

/-- A change of the root slot of an inode. -/
theorem agreeOff_root {r₀ : Fin 13}
    (hother : ∀ iid' ≠ iid, s'.inodeOf iid' = s.inodeOf iid') {inode' : Inode}
    (hinode : s.inodeOf iid = some inode) (hinode' : s'.inodeOf iid = some inode')
    (hroot : ∀ i ≠ r₀, inode'.rootEntry i = inode.rootEntry i)
    (hdata : ∀ r' ks', s.Live r' ks' →
      (s'.spot (s.blockAt r' ks')).data = (s.spot (s.blockAt r' ks')).data) :
    s.forest.AgreeOff treeShape s'.forest ((iid, r₀), []) := by
  refine ⟨fun r' => ?_, fun r' _ hne => ?_, fun r' ks' j hlive' _ _ => ?_⟩
  · by_cases hr : r'.1 = iid
    · simp [Sys.forest, hr, hinode, hinode']
    · simp only [Sys.forest, hother r'.1 hr]
  · by_cases hr : r'.1 = iid
    · have hi : r'.2 ≠ r₀ := by
        rintro rfl
        exact hne (by rw [← hr])
      simp only [Sys.forest, hr, hinode, hinode', Option.map_some, Option.getD_some, hroot _ hi]
    · simp only [Sys.forest, hother r'.1 hr]
  · change indexAt (s'.spot (s.blockAt r' ks')).data j = indexAt (s.spot (s.blockAt r' ks')).data j
    rw [hdata r' ks' hlive']

/-- Without changes of the inode cache the inodes are the same. -/
theorem inode_of_icac_eq (hicac : s'.icac = s.icac) (iid : ℕ) (inode' : Inode)
    (h : s'.inodeOf iid = some inode') : ∃ inode, s.inodeOf iid = some inode ∧
      inode'.iid = inode.iid ∧ inode'.aesIv = inode.aesIv ∧ inode'.aesKey = inode.aesKey := by
  rw [Sys.inodeOf, hicac] at h
  exact ⟨inode', h, rfl, rfl, rfl⟩

/-- The blocks of a tree are data blocks. -/
theorem Sys.TreeInv.dataStart_le (h : s.TreeInv w raw) (hlive : s.Live r ks) :
    dataStart ≤ s.blockAt r ks := (h.used r ks hlive).dataStart_le

/-- The data of a block of a tree that settles stays. -/
theorem Sys.TreeInv.data_eq (h : s.TreeInv w raw) (hlive : s.Live r ks) {X : Set ℕ}
    {added : List (ℕ × HashIdx)} (hsettles : Settles w X added s s') (hX : s.blockAt r ks ∉ X) :
    (s'.spot (s.blockAt r ks)).data = (s.spot (s.blockAt r ks)).data := by
  obtain ⟨inode, hinode⟩ := hlive.inode
  exact hsettles.data_eq h.ok hX (h.good r ks inode hlive hinode).hashOk.dirty_or

/-! ## No slot -/

/-- Changes of metadata blocks keep the trees. -/
theorem Sys.TreeInv.settles (h : s.TreeInv w raw) (hw : w.Reliable) {X : Set ℕ}
    {added : List (ℕ × HashIdx)} (hok : s'.BcacOk) (hsettles : Settles w X added s s')
    (hX : ∀ b ∈ X, b < dataStart ∧ b ≠ 0) (hmeta : s'.MetaInv w)
      (hused : s.dataUsed ⊆ s'.dataUsed) :
    s'.TreeInv w raw ∧ SameSlots s s' := by
  have hicac := hsettles.icac_eq
  have hoff : ∀ b, dataStart ≤ b → b ∉ X := fun b hb hmem => Nat.not_lt.mpr hb (hX b hmem).1
  have hsame : SameSlots s s' := by
    refine sameSlots_of_entries (fun iid => by rw [inodeOf, hicac]; rfl) fun r ks hlive _ j => ?_
    rw [h.data_eq hlive hsettles (hoff _ (h.dataStart_le hlive))]
  refine ⟨hsame.treeInv h (hicac ▸ h.icac) hok hmeta hused (fun r ks inode hlive hinode => ?_)
    (fun did hlt hdid => ?_) ?_, hsame⟩
  · have hle := h.dataStart_le hlive
    exact (h.good r ks inode hlive hinode).settles hw h.ok hsettles hle (hoff _ hle)
  · exact h.unused_settles hsettles hlt (fun hmem => hdid (hused hmem))
      (hoff _ (dataStart_le_did2Bid did))
  · exact h.hole_settles hsettles fun hmem => (hX 0 hmem).2 rfl

/-- A block of a tree is loaded, and changed in no slot. -/
theorem Sys.TreeInv.block_settles (h : s.TreeInv w raw) (hw : w.Reliable) (hlive : s.Live r ks)
    (hinode : s.inodeOf r.1 = some inode) {added : List (ℕ × HashIdx)} (hok : s'.BcacOk)
    (hsettles : Settles w {s.blockAt r ks} added s s')
    (hentry : ks.length < treeShape.height r → ∀ j, indexAt (s'.spot (s.blockAt r ks)).data j =
      indexAt (s.spot (s.blockAt r ks)).data j)
    (hgood : (s'.spot (s.blockAt r ks)).TreeGood w False inode.aesIv inode.aesKey
      (s.slotAt r ks).hash) :
    s'.TreeInv w (raw \ {s.blockAt r ks}) ∧ SameSlots s s' ∧ s'.dataUsed = s.dataUsed := by
  have hicac := hsettles.icac_eq
  have hle := h.dataStart_le hlive
  have hX : ∀ b ∈ ({s.blockAt r ks} : Set ℕ), dataStart ≤ b := by
    rintro b rfl
    exact hle
  have hused : s'.dataUsed = s.dataUsed := hsettles.dataUsed_eq h.ok h.metaInv hX
  have hsame : SameSlots s s' := by
    refine sameSlots_of_entries (fun iid => by rw [inodeOf, hicac]; rfl)
      fun r' ks' hlive' hlt j => ?_
    by_cases hb : s.blockAt r' ks' = s.blockAt r ks
    · obtain ⟨rfl, rfl⟩ := Prod.mk.inj (h.disjoint r' ks' r ks hlive' hlive hb)
      exact hentry hlt j
    · rw [h.data_eq hlive' hsettles hb]
  refine ⟨hsame.treeInv h (hicac ▸ h.icac) hok (hsettles.metaInv hw h.ok h.metaInv hX) hused.ge
    (fun r' ks' inode' hlive' hinode' => ?_) (fun did hlt hdid => ?_) ?_, hsame, hused⟩
  · by_cases hb : s.blockAt r' ks' = s.blockAt r ks
    · obtain ⟨rfl, rfl⟩ := Prod.mk.inj (h.disjoint r' ks' r ks hlive' hlive hb)
      rw [hinode] at hinode'
      cases hinode'
      simpa using hgood
    · have hold := (h.good r' ks' inode' hlive' hinode').settles hw h.ok hsettles
        (h.dataStart_le hlive') hb
      simpa [hb] using hold
  · rw [hused] at hdid
    exact h.unused_settles hsettles hlt hdid ((h.used r ks hlive).ne hdid)
  · refine h.hole_settles hsettles fun heq => ?_
    rw [← heq] at hle
    exact absurd hle (by decide)

/-! ## Root slots -/

/-- A block that was just allocated is good. -/
theorem Spot.treeGood_fresh {l : Spot} (hnode : l.node = none) (hpending : l.pending = none)
    {p : Prop} (hp : p) {iv key : Key128} :
    ({ l with evicted := Bytes.zero } : Spot).TreeGood w p iv key (zeroBlockSha256 w) := by
  refine ⟨Or.inr ⟨?_, ?_⟩, fun hnot => absurd hp hnot, fun _ => ⟨hnode, rfl⟩,
    fun block hblock => ?_, fun n hn => ?_⟩
  · simp [Spot.data, Spot.block, hnode]
  · simp [hpending, zeroBlockSha256]
  · simp [Spot.block, hnode] at hblock
  · simp [hnode] at hn

/-- What a change of an inode keeps. -/
theorem InodeChanges.fixed_eq {g : Node Inode → Node Inode} (h : InodeChanges iid g s s')
    (hg : ∀ n, s.icac.node iid = some n → (g n).fixed = n.fixed) (iid' : ℕ) :
    (s'.icac.node iid').map Node.fixed = (s.icac.node iid').map Node.fixed := by
  by_cases heq : iid' = iid
  · subst heq
    rw [h.node, Function.update_self, Option.map_map]
    exact Option.map_congr fun n hn => hg n hn
  · rw [h.node_of_ne heq]

/-- A change of an inode leaves the block cache good. -/
theorem InodeChanges.bcacOk {g : Node Inode → Node Inode} (h : InodeChanges iid g s s')
    (hs : s.BcacOk) : s'.BcacOk := by
  rw [h.same]
  exact hs.of_node hs.keyed fun _ _ h => h

/-- A change of a cached inode leaves the metadata blocks good. -/
theorem InodeChanges.metaInv {g : Node Inode → Node Inode} (h : InodeChanges iid g s s')
    (hs : s.MetaInv w) : s'.MetaInv w := by
  intro bid hle hlt
  rw [h.spot_eq]
  rw [h.same]
  exact hs bid hle hlt

/-- A change of a cached inode leaves the numbers in use. -/
theorem InodeChanges.dataUsed_eq {g : Node Inode → Node Inode} (h : InodeChanges iid g s s') :
    s'.dataUsed = s.dataUsed := dataUsed_congr fun b _ => by rw [h.spot_eq]

/-- A new block at one place keeps the invariant when the other blocks stay good. -/
theorem OneSlot.treeInv_of_new {did : ℕ} {X : Set ℕ} {added : List (ℕ × HashIdx)}
    (hone : OneSlot s s' p) (h : s.TreeInv w raw) (hicac : s'.icac.Keyed) (hok : s'.BcacOk)
    (hmeta : s'.MetaInv w) (hlt : did < 16777216) (hfresh : did ∉ s.dataUsed)
    (hused : s'.dataUsed = insert did s.dataUsed)
    (hsettles : Settles w (X ∪ ({did2Bid did} ∪ bitmapBlocks)) added s s₁)
    (hX : ∀ b ∈ X, s.UsedBlock b) (hspots : ∀ b, s'.spot b = s₁.spot b)
    (hslot : s'.slotAt p.1 p.2 = ⟨did2Bid did, zeroBlockSha256 w⟩)
    (hspot : s'.spot (did2Bid did) = { s.spot (did2Bid did) with evicted := Bytes.zero })
    (hraw : did2Bid did ∈ raw')
    (hgood : ∀ r ks inode, s.Live r ks → s.inodeOf r.1 = some inode →
      (s'.spot (s.blockAt r ks)).TreeGood w (s.blockAt r ks ∈ raw') inode.aesIv inode.aesKey
        (s.slotAt r ks).hash) : s'.TreeInv w raw' := by
  have hblock : s'.blockAt p.1 p.2 = did2Bid did := by rw [Sys.blockAt_eq, hslot]
  refine hone.treeInv h hicac hok hmeta ?_ (fun r ks inode hl _ => hgood r ks inode hl) ?_ ?_ ?_
  · rintro did' (hdid' | heq)
    · rw [hused]
      exact Set.mem_insert_of_mem _ hdid'
    · rw [hused, ← did2Bid_injective (hblock.symm.trans heq)]
      exact Set.mem_insert _ _
  · intro inode _
    have habsent := h.unused did hlt hfresh
    rw [hblock, hslot, hspot]
    exact Spot.treeGood_fresh habsent.1 habsent.2 hraw
  · intro did' hlt' hdid'
    rw [hused, Set.mem_insert_iff, not_or] at hdid'
    rw [hspots]
    refine h.unused_settles hsettles hlt' hdid'.2 ?_
    rintro (hmem | heq | hmem)
    · exact (hX _ hmem).ne hdid'.2 rfl
    · exact hdid'.1 (did2Bid_injective heq)
    · exact not_mem_bitmapBlocks (dataStart_le_did2Bid did') hmem
  · rw [hspots]
    refine h.hole_settles hsettles ?_
    rintro (hmem | heq | hmem)
    · exact absurd (hX _ hmem).dataStart_le (by decide)
    · have hle := dataStart_le_did2Bid did
      rw [← Set.mem_singleton_iff.mp heq] at hle
      exact absurd hle (by decide)
    · exact absurd hmem.1 (by decide)

/-- A change of the slot of a place that keeps its block keeps the invariant when the blocks
stay good. -/
theorem OneSlot.treeInv_of_same (hone : OneSlot s s' p) (h : s.TreeInv w raw)
    (hlive : s.Live p.1 p.2) (hblock : s'.blockAt p.1 p.2 = s.blockAt p.1 p.2)
    (hicac : s'.icac.Keyed) (hok : s'.BcacOk) (hmeta : s'.MetaInv w)
    (hused : s'.dataUsed = s.dataUsed)
    (hgood : ∀ r ks inode, s.Live r ks → (r, ks) ≠ p → s.inodeOf r.1 = some inode →
      (s'.spot (s.blockAt r ks)).TreeGood w (s.blockAt r ks ∈ raw) inode.aesIv inode.aesKey
        (s.slotAt r ks).hash)
    (hplace : ∀ inode, s.inodeOf p.1.1 = some inode →
      (s'.spot (s'.blockAt p.1 p.2)).TreeGood w (s'.blockAt p.1 p.2 ∈ raw) inode.aesIv
        inode.aesKey (s'.slotAt p.1 p.2).hash)
    (hunused : ∀ did < 16777216, did ∉ s.dataUsed →
      (s'.spot (did2Bid did)).node = none ∧ (s'.spot (did2Bid did)).pending = none)
    (hhole : (s'.spot 0).pending = none) : s'.TreeInv w raw := by
  refine hone.treeInv h hicac hok hmeta ?_ hgood hplace ?_ hhole
  · rintro did (hdid | heq)
    · rwa [hused]
    · obtain ⟨did', hdid', heq'⟩ := h.used _ _ hlive
      rwa [hused, did2Bid_injective (heq.symm.trans (hblock.trans heq'))]
  · intro did hlt hdid
    rw [hused] at hdid
    exact hunused did hlt hdid

/-- When one inode changed and kept its number and keys, all did. -/
theorem inode_of_update {inode' : Inode} (hinode : s.inodeOf iid = some inode)
    (hinode' : s'.inodeOf iid = some inode') (hiid : inode'.iid = inode.iid)
    (hiv : inode'.aesIv = inode.aesIv) (hkey : inode'.aesKey = inode.aesKey)
    (hother : ∀ iid' ≠ iid, s'.inodeOf iid' = s.inodeOf iid') (iid' : ℕ) (found : Inode)
    (h : s'.inodeOf iid' = some found) : ∃ inode, s.inodeOf iid' = some inode ∧
      found.iid = inode.iid ∧ found.aesIv = inode.aesIv ∧ found.aesKey = inode.aesKey := by
  by_cases heq : iid' = iid
  · subst heq
    rw [hinode'] at h
    cases h
    exact ⟨inode, hinode, hiid, hiv, hkey⟩
  · rw [hother iid' heq] at h
    exact ⟨found, h, rfl, rfl, rfl⟩

/-- A block of a tree is none of those that an allocation changes. -/
theorem Sys.TreeInv.not_mem_alloc (h : s.TreeInv w raw) (hlive : s.Live r ks) {did : ℕ}
    (hfresh : did ∉ s.dataUsed) : s.blockAt r ks ∉ ({did2Bid did} ∪ bitmapBlocks : Set ℕ) := by
  rintro (heq | hmem)
  · exact (h.used r ks hlive).ne hfresh heq.symm
  · exact not_mem_bitmapBlocks (h.dataStart_le hlive) hmem

/-- The blocks that an allocation changes are within reach. -/
theorem alloc_subset_reach {did : ℕ} (hfresh : did ∉ s.dataUsed) :
    ({did2Bid did} ∪ bitmapBlocks : Set ℕ) ⊆ s.reach := by
  rintro b (rfl | hb)
  · exact did2Bid_mem_reach hfresh
  · exact Or.inl hb

/-- An empty root slot got a new block. -/
theorem Sys.TreeInv.new_root (h : s.TreeInv w raw) (hw : w.Reliable) {i : Fin 13}
    (hinode : s.inodeOf iid = some inode) (hempty : inode.bid i = 0) {did : ℕ}
    (halloc : Allocated w did s s₁) {g : Node Inode → Node Inode}
      (hchanges : InodeChanges iid g s₁ s')
    (hinode' : s'.inodeOf iid = some { inode with
      bid := Function.update inode.bid i (did2Bid did)
      hash := Function.update inode.hash i (zeroBlockSha256 w) })
    (hg : ∀ n, s₁.icac.node iid = some n → (g n).fixed = n.fixed)
      (hdirty : ∀ n, (g n).dirty = true) :
    s'.TreeInv w (insert (did2Bid did) raw) ∧ Grows w {((iid, i), [])} s s' ∧ s'.Live (iid, i) [] ∧
      s'.slotAt (iid, i) [] = ⟨did2Bid did, zeroBlockSha256 w⟩ := by
  have hicac : s₁.icac = s.icac := halloc.settles.icac_eq
  have hsettles := halloc.settles
  have hother : ∀ r' ks', s.Live r' ks' →
      s.blockAt r' ks' ∉ ({did2Bid did} ∪ bitmapBlocks : Set ℕ) :=
    fun _ _ hlive' => h.not_mem_alloc hlive' halloc.fresh
  have hdata : ∀ r' ks', s.Live r' ks' →
      (s'.spot (s.blockAt r' ks')).data = (s.spot (s.blockAt r' ks')).data := by
    intro r' ks' hlive'
    rw [hchanges.spot_eq]
    exact h.data_eq hlive' hsettles (hother r' ks' hlive')
  have hinodes : ∀ iid' ≠ iid, s'.inodeOf iid' = s.inodeOf iid' := by
    intro iid' hne
    rw [hchanges.inodeOf_of_ne hne, Sys.inodeOf, hicac]
    rfl
  have hagree : s.forest.AgreeOff treeShape s'.forest ((iid, i), []) := by
    refine agreeOff_root hinodes hinode hinode' (fun j hj => ?_) hdata
    simp [Inode.rootEntry, hj]
  have hspot : s'.spot (did2Bid did) = { s.spot (did2Bid did) with evicted := Bytes.zero } := by
    rw [hchanges.spot_eq, halloc.spot_eq]
  have hzero : (s'.spot (did2Bid did)).data = Bytes.zero := by
    simp [hspot, Spot.data, Spot.block, (h.unused did halloc.lt halloc.fresh).1]
  have hslot : s'.slotAt (iid, i) [] = ⟨did2Bid did, zeroBlockSha256 w⟩ := by
    rw [Sys.slotAt_nil hinode']
    simp [Inode.rootEntry]
  have hblock : s'.blockAt (iid, i) [] = did2Bid did := by rw [Sys.blockAt_eq, hslot]
  have hempty' : s.blockAt (iid, i) [] = 0 := by
    rw [Sys.blockAt_eq, Sys.slotAt_nil hinode]
    exact hempty
  have hused : s'.dataUsed = insert did s.dataUsed := hchanges.dataUsed_eq.trans halloc.used
  have hopen : s'.openDids = s₁.openDids :=
    openDids_congr (by rw [hchanges.same]) hchanges.dataUsed_eq
  have hisRoot : s.forest.HasSlot treeShape (iid, i) [] := by
    change s.inodeOf iid ≠ none
    simp [hinode]
  obtain ⟨hone, hkeep⟩ := oneSlot_of_new (p := ((iid, i), [])) hisRoot hempty' hagree hblock
    halloc.fresh hzero (inode_of_update hinode hinode' rfl rfl rfl hinodes)
  have hinv : s'.TreeInv w (insert (did2Bid did) raw) := by
    refine hone.treeInv_of_new (X := ∅) h hchanges.keyed (hchanges.bcacOk halloc.ok)
      (hchanges.metaInv halloc.metaInv) halloc.lt halloc.fresh hused
      (hsettles.mono Set.subset_union_right) (fun _ hb => absurd hb (Set.notMem_empty _))
      hchanges.spot_eq hslot hspot
      (Set.mem_insert _ _) fun r' ks' inode' hlive' hinode'' => ?_
    have hgood := (h.good r' ks' inode' hlive' hinode'').settles hw h.ok hsettles
      (h.dataStart_le hlive') (hother r' ks' hlive')
    have hne := ((h.used r' ks' hlive').ne halloc.fresh).symm
    rw [hchanges.spot_eq]
    simpa [Set.mem_insert_iff, hne] using hgood
  have hgrows : Grows w {((iid, i), [])} s s' :=
    hone.grows_of_new hempty' hkeep hblock halloc.fresh hzero (fun r' ks' hl _ => hdata r' ks' hl)
      (fun iid' => by rw [hchanges.fixed_eq hg, hicac]) hused (halloc.openDids.trans hopen.ge)
      (hchanges.beside (hsettles.beside (alloc_subset_reach halloc.fresh) halloc.held) hdirty)
      (Set.mem_singleton _)
  exact ⟨hinv, hgrows, hone.place, hslot⟩

/-- A root slot got the pending hash of the block that it points at. -/
theorem Sys.TreeInv.old_root (h : s.TreeInv w raw) {i : Fin 13}
    (hlive : s.Live (iid, i) []) (hinode : s.inodeOf iid = some inode) (hok : s'.BcacOk)
    (hmeta : s'.MetaInv w) (hused : s'.dataUsed = s.dataUsed) (hkeyed : s'.icac.Keyed)
    {node : PdWbNode} (hpending : (s.spot (inode.bid i)).pending = some node)
    (hinode' : s'.inodeOf iid = some { inode with
      hash := Function.update inode.hash i node.hash })
    (hinodes : ∀ iid' ≠ iid, s'.inodeOf iid' = s.inodeOf iid')
    (hfixed : ∀ iid, (s'.icac.node iid).map Node.fixed = (s.icac.node iid).map Node.fixed)
    (hrest : s'.rest.2 = s.rest.2) (hhint : s'.dbmFirstEmptyWord = s.dbmFirstEmptyWord)
    (hnodes : ∀ iid, s'.icac.node iid = s.icac.node iid ∨
      ∃ n, s'.icac.node iid = some n ∧ n.dirty = true)
    (hother : ∀ b, b ≠ inode.bid i → s'.spot b = s.spot b)
    (hspot : s'.spot (inode.bid i) = { s.spot (inode.bid i) with pending := none }) :
    s'.TreeInv w raw ∧ Grows w ∅ s s' ∧ s'.Live (iid, i) [] ∧
      s'.slotAt (iid, i) [] = ⟨inode.bid i, node.hash⟩ := by
  have hold : s.slotAt (iid, i) [] = ⟨inode.bid i, inode.hash i⟩ := Sys.slotAt_nil hinode
  have hblockold : s.blockAt (iid, i) [] = inode.bid i := by rw [Sys.blockAt_eq, hold]
  have hle := hblockold ▸ h.dataStart_le hlive
  have hspots : ∀ b, s'.spot b = { s.spot b with pending := (s'.spot b).pending } := by
    intro b
    by_cases hb : b = inode.bid i
    · rw [hb, hspot]
    · rw [hother b hb]
  have hdata : ∀ b, (s'.spot b).data = (s.spot b).data := by
    intro b
    rw [hspots b]
    rfl
  have hagree : s.forest.AgreeOff treeShape s'.forest ((iid, i), []) := by
    refine agreeOff_root hinodes hinode hinode' (fun j hj => ?_) fun _ _ _ => hdata _
    simp [Inode.rootEntry, hj]
  have hslot : s'.slotAt (iid, i) [] = ⟨inode.bid i, node.hash⟩ := by
    rw [Sys.slotAt_nil hinode']
    simp [Inode.rootEntry]
  have hblock : s'.blockAt (iid, i) [] = inode.bid i := by rw [Sys.blockAt_eq, hslot]
  obtain ⟨hone, hkeep⟩ := oneSlot_of_same (p := ((iid, i), [])) hlive hagree
    (hblock.trans hblockold.symm) (inode_of_update hinode hinode' rfl rfl rfl hinodes)
  have hinv : s'.TreeInv w raw := by
    refine hone.treeInv_of_same h hlive (hblock.trans hblockold.symm) hkeyed hok hmeta hused
      ?_ ?_ ?_ ?_
    · intro r' ks' inode' hlive' hne hinode''
      have hb : s.blockAt r' ks' ≠ inode.bid i :=
        fun heq => hne (h.disjoint r' ks' _ _ hlive' hlive (Eq.trans heq hblockold.symm))
      rw [hother _ hb]
      exact h.good r' ks' inode' hlive' hinode''
    · intro inode' hinode''
      have hgood := (h.good (iid, i) [] inode' hlive hinode'').rehash
      rw [hblockold, hpending] at hgood
      rw [hblock, hslot, hspot]
      exact hgood
    · intro did hlt hdid
      rw [hother _ (hblockold ▸ (h.used _ _ hlive).ne hdid)]
      exact h.unused did hlt hdid
    · have hne : (0 : ℕ) ≠ inode.bid i := by
        rintro heq
        exact absurd (heq ▸ hle) (by decide)
      rw [hother 0 hne]
      exact h.hole
  have hbeside : Beside w s s' := by
    refine ⟨fun b hb => Or.inl (hother b ?_), hrest, hnodes,
      .of_refs fun b => by rw [hspots b]; rfl⟩
    rintro rfl
    exact hb (Or.inr (Or.inr ⟨(iid, i), [], hlive, hblockold⟩))
  exact ⟨hinv, hone.grows_of_same hlive hkeep (fun _ _ _ _ => hdata _) hfixed hused hhint hbeside,
    hone.place, hslot⟩

/-! ## Entries of index blocks -/

/-- The block that an index block lies in is not that of one of its own entries. -/
theorem Sys.TreeInv.blockAt_cons_ne (h : s.TreeInv w raw) (hlive : s.Live r (k :: ks)) :
    s.blockAt r (k :: ks) ≠ s.blockAt r ks := by
  intro heq
  have hlen := congrArg List.length (Prod.mk.inj (h.disjoint _ _ _ _ hlive hlive.1 heq)).2
  simp at hlen

/-- A change of an entry leaves the slot of its index block. -/
theorem blockAt_of_agreeOff_entry (hagree : s.forest.AgreeOff treeShape s'.forest (r, k :: ks))
    (hlive : s.Live r ks) : s'.blockAt r ks = s.blockAt r ks := by
  have hslot : s'.slotAt r ks = s.slotAt r ks ∧ _ := hagree.slot_eq hlive fun ks' hks' heq => by
    have hlen := hks'.length_le
    rw [(Prod.mk.inj heq).2, List.length_cons] at hlen
    omega
  rw [Sys.blockAt_eq, Sys.blockAt_eq]
  exact congrArg Index.bid hslot.1

/-- An empty entry of an index block got a new block. -/
theorem Sys.TreeInv.new_entry (h : s.TreeInv w raw) (hw : w.Reliable) (hlive : s.Live r ks)
    (hinode : s.inodeOf r.1 = some inode) (hheight : ks.length < treeShape.height r)
    (hk : k < indexPerBlock) (hempty : s.blockAt r (k :: ks) = 0) {did addr refcnt : ℕ}
    {added : List (ℕ × HashIdx)} (hok : s'.BcacOk) (hmeta : s'.MetaInv w)
    (hsettles : Settles w ({s.blockAt r ks} ∪ ({did2Bid did} ∪ bitmapBlocks)) added s s')
    (hheld : HoldsWithin ∅ s s') (hlt : did < 16777216) (hfresh : did ∉ s.dataUsed)
    (hused : s'.dataUsed = insert did s.dataUsed) (hopen : s.openDids \ {did} ⊆ s'.openDids)
    (hcached : (s.spot (s.blockAt r ks)).Cached (s'.spot (s.blockAt r ks)) addr refcnt false true
      inode.aesIv inode.aesKey (setIndexHash (setIndexBid (s.spot (s.blockAt r ks)).data k
        (did2Bid did)) k (zeroBlockSha256 w)))
    (hspot : s'.spot (did2Bid did) = { s.spot (did2Bid did) with evicted := Bytes.zero }) :
    s'.TreeInv w (insert (did2Bid did) (raw \ {s.blockAt r ks})) ∧ Grows w {(r, k :: ks)} s s' ∧
      s'.Live r (k :: ks) ∧ s'.slotAt r (k :: ks) = ⟨did2Bid did, zeroBlockSha256 w⟩ := by
  have hicac := hsettles.icac_eq
  have hother : ∀ r' ks', s.Live r' ks' → s.blockAt r' ks' ≠ s.blockAt r ks →
      s.blockAt r' ks' ∉ ({s.blockAt r ks} ∪ ({did2Bid did} ∪ bitmapBlocks) : Set ℕ) :=
    fun r' ks' hlive' hne hmem => hmem.elim hne (h.not_mem_alloc hlive' hfresh)
  have hdata := fun r' ks' hlive' hne => h.data_eq hlive' hsettles (hother r' ks' hlive' hne)
  have hagree : s.forest.AgreeOff treeShape s'.forest (r, k :: ks) := by
    refine h.agreeOff_entry hlive hicac (fun j hj => ?_) hdata
    rw [hcached.data_eq, indexAt_setIndexHash_of_ne (Ne.symm hj),
      indexAt_setIndexBid_of_ne (Ne.symm hj)]
  have hzero : (s'.spot (did2Bid did)).data = Bytes.zero := by
    simp [hspot, Spot.data, Spot.block, (h.unused did hlt hfresh).1]
  have hroot := blockAt_of_agreeOff_entry hagree hlive
  have hslot : s'.slotAt r (k :: ks) = ⟨did2Bid did, zeroBlockSha256 w⟩ := by
    have hlt' : did2Bid did < 2 ^ 32 := by
      simp only [did2Bid, dataStart]
      omega
    rw [Sys.slotAt_cons, hroot, hcached.data_eq, indexAt_setIndexHash hk,
      indexAt_setIndexBid hk hlt']
  have hblock : s'.blockAt r (k :: ks) = did2Bid did := by rw [Sys.blockAt_eq, hslot]
  obtain ⟨hone, hkeep⟩ := oneSlot_of_new (p := (r, k :: ks)) ⟨hlive, hheight, hk⟩ hempty hagree
    hblock hfresh hzero (inode_of_icac_eq hicac)
  have hinv : s'.TreeInv w (insert (did2Bid did) (raw \ {s.blockAt r ks})) := by
    refine hone.treeInv_of_new h (hicac ▸ h.icac) hok hmeta hlt hfresh hused hsettles ?_
      (fun _ => rfl) hslot hspot (Set.mem_insert _ _) fun r' ks' inode' hlive' hinode' => ?_
    · rintro b rfl
      exact h.used r ks hlive
    have hraw : s.blockAt r' ks' ∈ insert (did2Bid did) (raw \ {s.blockAt r ks}) ↔
        s.blockAt r' ks' ∈ raw ∧ s.blockAt r' ks' ≠ s.blockAt r ks := by
      simp only [Set.mem_insert_iff, Set.mem_sdiff, Set.mem_singleton_iff]
      exact or_iff_right ((h.used r' ks' hlive').ne hfresh).symm
    rw [hraw]
    by_cases hbb : s.blockAt r' ks' = s.blockAt r ks
    · obtain ⟨rfl, rfl⟩ := Prod.mk.inj (h.disjoint r' ks' r ks hlive' hlive hbb)
      rw [hinode] at hinode'
      cases hinode'
      exact hcached.treeGood (by simp)
    · have hgood := (h.good r' ks' inode' hlive' hinode').settles hw h.ok hsettles
        (h.dataStart_le hlive') (hother r' ks' hlive' hbb)
      simpa [hbb] using hgood
  have hreach : ({s.blockAt r ks} ∪ ({did2Bid did} ∪ bitmapBlocks) : Set ℕ) ⊆ s.reach := by
    refine Set.union_subset ?_ (alloc_subset_reach hfresh)
    rintro b rfl
    exact Or.inr (Or.inr ⟨r, ks, hlive, rfl⟩)
  have hgrows : Grows w {(r, k :: ks)} s s' := by
    refine hone.grows_of_new hempty hkeep hblock hfresh hzero (fun r' ks' hlive' hleaf => ?_)
      (fun iid => by rw [hicac]) hused hopen (hsettles.beside hreach hheld)
      (Set.mem_singleton _)
    refine hdata r' ks' hlive' fun hbb => ?_
    obtain ⟨rfl, rfl⟩ := Prod.mk.inj (h.disjoint r' ks' r ks hlive' hlive hbb)
    exact hheight.ne hleaf
  exact ⟨hinv, hgrows, hone.place, hslot⟩

/-- The entry of an index block got the pending hash of the block that it points at. -/
theorem Sys.TreeInv.old_entry (h : s.TreeInv w raw) (hw : w.Reliable) (hlive : s.Live r (k :: ks))
    (hinode : s.inodeOf r.1 = some inode) (hraw : s.blockAt r ks ∉ raw) {addr refcnt : ℕ}
    {added : List (ℕ × HashIdx)} (hok : s'.BcacOk)
    (hsettles : Settles w {s.blockAt r ks} added s s₁) (hrest : s'.rest = s₁.rest)
    (hloads : s'.loads = s₁.loads) (hhint : s'.dbmFirstEmptyWord = s.dbmFirstEmptyWord)
    (hheld : HoldsWithin ∅ s s')
    (hother : ∀ b, b ≠ s.blockAt r ks → b ≠ s.blockAt r (k :: ks) → s'.spot b = s₁.spot b)
    (hspot : s'.spot (s.blockAt r (k :: ks)) =
      { s₁.spot (s.blockAt r (k :: ks)) with pending := none })
    (hcached : (s.spot (s.blockAt r ks)).Cached (s'.spot (s.blockAt r ks)) addr refcnt false
      ((s.spot (s.blockAt r ks)).dirty || (s₁.spot (s.blockAt r (k :: ks))).pending.isSome)
      inode.aesIv inode.aesKey (rehash (s.spot (s.blockAt r ks)).data k
        (s₁.spot (s.blockAt r (k :: ks))).pending)) :
    s'.TreeInv w raw ∧ Grows w ∅ s s' ∧ s'.Live r (k :: ks) ∧
      s'.blockAt r (k :: ks) = s.blockAt r (k :: ks) := by
  have hparent : s.Live r ks := hlive.1
  have hk : k < indexPerBlock := hlive.2.2.1
  have hcb := h.blockAt_cons_ne hlive
  have hdata : ∀ r' ks', s.Live r' ks' → s.blockAt r' ks' ≠ s.blockAt r ks →
      (s'.spot (s.blockAt r' ks')).data = (s.spot (s.blockAt r' ks')).data := by
    intro r' ks' hlive' hne
    rw [← h.data_eq hlive' hsettles hne]
    by_cases hc : s.blockAt r' ks' = s.blockAt r (k :: ks)
    · rw [hc, hspot]
      rfl
    · rw [hother _ hne hc]
  have hgood₁ : ∀ r' ks' inode', s.Live r' ks' → s.blockAt r' ks' ≠ s.blockAt r ks →
      s.inodeOf r'.1 = some inode' → (s₁.spot (s.blockAt r' ks')).TreeGood w
        (s.blockAt r' ks' ∈ raw) inode'.aesIv inode'.aesKey (s.slotAt r' ks').hash :=
    fun r' ks' inode' hlive' hne hinode' =>
      (h.good r' ks' inode' hlive' hinode').settles hw h.ok hsettles (h.dataStart_le hlive') hne
  have hicac : s'.icac = s.icac := (congrArg (fun r => r.1) hrest).trans hsettles.icac_eq
  have hagree : s.forest.AgreeOff treeShape s'.forest (r, k :: ks) := by
    refine h.agreeOff_entry hparent hicac (fun j hj => ?_) hdata
    rw [hcached.data_eq, indexAt_rehash_of_ne hj]
  have hslot : s'.slotAt r (k :: ks) = ⟨s.blockAt r (k :: ks),
      ((s₁.spot (s.blockAt r (k :: ks))).pending.map (·.hash)).getD
        (s.slotAt r (k :: ks)).hash⟩ := by
    rw [Sys.slotAt_cons, blockAt_of_agreeOff_entry hagree hparent, hcached.data_eq,
      indexAt_rehash hk]
    rfl
  have hblock : s'.blockAt r (k :: ks) = s.blockAt r (k :: ks) := by rw [Sys.blockAt_eq, hslot]
  obtain ⟨hone, hkeep⟩ := oneSlot_of_same (p := (r, k :: ks)) hlive hagree hblock
    (inode_of_icac_eq hicac)
  have hX : ∀ b ∈ ({s.blockAt r ks, s.blockAt r (k :: ks)} : Set ℕ), dataStart ≤ b := by
    rintro b (rfl | rfl)
    · exact h.dataStart_le hparent
    · exact h.dataStart_le hlive
  have hboth : Settles w {s.blockAt r ks, s.blockAt r (k :: ks)} added s s' := by
    refine ⟨fun b hb => ?_, hloads.trans hsettles.loads, hrest.trans hsettles.rest⟩
    simp only [Set.mem_insert_iff, Set.mem_singleton_iff, not_or] at hb
    rw [hother b hb.1 hb.2]
    exact hsettles.spot b hb.1
  have hused : s'.dataUsed = s.dataUsed := hboth.dataUsed_eq h.ok h.metaInv hX
  have hinv : s'.TreeInv w raw := by
    refine hone.treeInv_of_same h hlive hblock (hicac ▸ h.icac) hok
      (hboth.metaInv hw h.ok h.metaInv hX) hused ?_ ?_ ?_ ?_
    · intro r' ks' inode' hlive' hne hinode'
      by_cases hbb : s.blockAt r' ks' = s.blockAt r ks
      · obtain ⟨rfl, rfl⟩ := Prod.mk.inj (h.disjoint r' ks' r ks hlive' hparent hbb)
        rw [hinode] at hinode'
        cases hinode'
        exact (h.good _ _ _ hparent hinode).rehashed hraw hcached
      · rw [hother _ hbb fun hc => hne (h.disjoint _ _ _ _ hlive' hlive hc)]
        exact hgood₁ r' ks' inode' hlive' hbb hinode'
    · intro inode' hinode'
      rw [hblock, hslot, hspot]
      exact (hgood₁ r (k :: ks) inode' hlive hcb hinode').rehash
    · intro did hlt hdid
      have hb := (h.used r ks hparent).ne hdid
      rw [hother _ hb ((h.used r (k :: ks) hlive).ne hdid)]
      exact h.unused_settles hsettles hlt hdid hb
    · refine h.hole_settles hboth fun hmem => ?_
      exact absurd (hX 0 hmem) (by decide)
  have hreach : ({s.blockAt r ks, s.blockAt r (k :: ks)} : Set ℕ) ⊆ s.reach := by
    rintro b (rfl | rfl)
    · exact Or.inr (Or.inr ⟨r, ks, hparent, rfl⟩)
    · exact Or.inr (Or.inr ⟨r, k :: ks, hlive, rfl⟩)
  have hgrows : Grows w ∅ s s' := by
    refine hone.grows_of_same hlive hkeep (fun r' ks' hlive' hleaf => ?_) (fun iid => by rw [hicac])
      hused hhint (hboth.beside hreach hheld)
    refine hdata r' ks' hlive' fun hbb => ?_
    obtain ⟨rfl, rfl⟩ := Prod.mk.inj (h.disjoint r' ks' r ks hlive' hparent hbb)
    exact hlive.2.1.ne hleaf
  exact ⟨hinv, hgrows, hone.place, hblock⟩

end

end Efs
