import Efs.TreeLookup

/-!
# The way down a tree

What a lookup knows when it came to a slot, and the rules for its first step, from
the inode to a root slot, and for the others, from a block to one of its slots.
-/

namespace Efs

open Library

/-- The raw blocks are data blocks of the trees. -/
def Sys.RawLeaves (s : Sys) (raw : Set ℕ) : Prop :=
  ∀ b ∈ raw, ∃ r ks, s.Live r ks ∧ IsLeaf r ks ∧ s.blockAt r ks = b

/-- A lookup came to a slot and found `idx` in it; `new` when the block was
allocated for it. -/
structure Reached (w : World) (raw : Set ℕ) (write : Bool) (r : RootSlot) (ks : List ℕ)
    (idx : Index) (new : Bool) (s : Sys) : Prop where
  /-- The trees are good. -/
  inv : s.TreeInv w {b | b ∈ raw ∨ new = true ∧ b = idx.bid}
  /-- The raw blocks of before are data blocks. -/
  leaves : s.RawLeaves raw
  /-- The slot. -/
  slot : s.slotAt r ks = idx
  /-- The slot points at a block or is empty. -/
  live : idx.bid ≠ 0 → s.Live r ks
  /-- A write lookup finds a block. -/
  written : write = true → idx.bid ≠ 0
  /-- Only a write lookup allocates one. -/
  asked : new = true → write = true
  /-- The hash of a block that was there is in the slot. -/
  pending : new = false → (s.spot idx.bid).pending = none

section

variable {w : World} {E : Halt → Prop} {raw : Set ℕ} {s s₁ s' : Sys} {r : RootSlot}
  {ks : List ℕ} {k ip iid : ℕ} {inode : Inode} {P : Set (Place RootSlot)} {write new : Bool}
  {idx : Index}

/-- The raw blocks are still data blocks of the trees when the trees have grown. -/
theorem Sys.RawLeaves.grows (h : s.RawLeaves raw) (hgrows : Grows w P s s') : s'.RawLeaves raw := by
  intro b hb
  obtain ⟨r, ks, hlive, hleaf, heq⟩ := h b hb
  obtain ⟨hlive', hblock⟩ := hgrows.live r ks hlive
  exact ⟨r, ks, hlive', hleaf, hblock.trans heq⟩

/-- Index blocks are not raw. -/
theorem Sys.RawLeaves.not_mem {raw' : Set ℕ} (h : s.RawLeaves raw) (hinv : s.TreeInv w raw')
    (hlive : s.Live r ks) (hlt : ks.length < treeShape.height r) : s.blockAt r ks ∉ raw := by
  intro hmem
  obtain ⟨r', ks', hlive', hleaf, heq⟩ := h _ hmem
  obtain ⟨rfl, rfl⟩ := Prod.mk.inj (hinv.disjoint r' ks' r ks hlive' hlive heq)
  exact hlt.ne hleaf

/-! ## Root slots -/

/-- The rule for `get_real_hash_ip`. -/
theorem wp_getRealHashIp (h : s.TreeInv w raw) (hp : s.PointsTo ip iid inode) {i : ℕ}
    {Q : Unit → Sys → Prop}
    (hQ : ∀ s' inode', s'.TreeInv w raw → Grows w ∅ s s' →
      s'.loads = s.loads → s'.bcac = s.bcac → s'.PointsTo ip iid inode' →
      inode'.bid (rootSlot i) = inode.bid (rootSlot i) →
      (s'.spot (inode.bid (rootSlot i))).pending = none → Q () s') :
    Exec.Wp (getRealHashIp w ip i) Q E s := by
  refine Exec.wp_bind.mpr (wp_inodeAt h.icac hp ?_)
  generalize rootSlot i = j at hQ ⊢
  simp only [pdWbFind, Exec.wp_bind, Exec.wp_read]
  have hfind : s.pdWb.find (inode.bid j) = (s.spot (inode.bid j)).pending := rfl
  rw [hfind]
  cases hpending : (s.spot (inode.bid j)).pending with
  | none => exact hQ s inode h (.refl _ _) rfl rfl hp rfl hpending
  | some node =>
    have hinode := hp.inodeOf
    have hslot : s.slotAt (iid, j) [] = ⟨inode.bid j, inode.hash j⟩ := Sys.slotAt_nil hinode
    have hlive : s.Live (iid, j) [] := by
      refine ⟨by simp [Sys.forest, hinode], ?_⟩
      change s.blockAt (iid, j) [] ≠ 0
      rw [Sys.blockAt_eq, hslot]
      intro hzero
      have hhole := h.hole
      rw [← hzero, hpending] at hhole
      cases hhole
    refine Exec.wp_bind.mpr (wp_inodeStore h.icac hp fun s₁ h₁ => ?_)
    have hkeeps : Exec.Keeps Sys.bcac (pdWbDelete (inode.bid j)) := offDisk_bcac.pdWbDelete _
    refine Exec.wp_bind.mpr (Exec.Wp.keeping hkeeps
      (wp_pdWbDelete (h₁.bcacOk h.ok) fun _ s₂ h₂ hspot₂ hbcac₂ => ?_))
    have hp₁ := h₁.pointsTo hp { inode with hash := Function.update inode.hash j node.hash }
      fun n hn => ⟨rfl, by simp [Node.mapInode, hn]⟩
    have hicac₂ : s₂.icac = s₁.icac := congrArg (fun r => r.1) h₂.rest
    have hkeyed₂ : s₂.icac.Keyed := hicac₂ ▸ h₁.keyed
    have hp₂ := hp₁.congr hicac₂
    refine Exec.wp_bind.mpr (wp_inodeMakeDirty hkeyed₂ hp₂ (h.iid_eq iid inode hinode)
      fun s₃ h₃ => ?_)
    have hp₃ := h₃.pointsTo hp₂ _ fun n hn => ⟨rfl, hn⟩
    have hother : ∀ b, b ≠ inode.bid j → s₃.spot b = s.spot b := by
      intro b hb
      rw [h₃.spot_eq, h₂.other b hb, h₁.spot_eq]
    have hspot : s₃.spot (inode.bid j) = { s.spot (inode.bid j) with pending := none } := by
      rw [h₃.spot_eq, hspot₂, h₁.spot_eq]
    have hX : ∀ b ∈ ({inode.bid j} : Set ℕ), dataStart ≤ b := by
      rintro b rfl
      have hle := h.dataStart_le hlive
      rwa [Sys.blockAt_eq, hslot] at hle
    have hmeta₁ := h₁.metaInv h.metaInv
    have hsettles₂ : Settles w {inode.bid j} [] s₁ s₂ := h₂.settles
    have hmeta₃ : s₃.MetaInv w := by
      refine h₃.metaInv fun bid hle hlt => ?_
      have hne : bid ≠ inode.bid j := fun heq => Nat.not_lt.mpr (hX _ heq) hlt
      rw [h₂.other bid hne, hsettles₂.sbKey_eq, hsettles₂.sbIv_eq]
      exact hmeta₁ bid hle hlt
    have hused : s₃.dataUsed = s.dataUsed := by
      refine dataUsed_congr fun b hb => ?_
      rw [hother b fun heq => not_mem_bitmapBlocks (hX _ heq) hb]
    have hinodes : ∀ iid' ≠ iid, s₃.inodeOf iid' = s.inodeOf iid' := by
      intro iid' hne
      rw [h₃.inodeOf_of_ne hne, Sys.inodeOf, hicac₂, ← h₁.inodeOf_of_ne hne]
      rfl
    have hfixed : ∀ iid', (s₃.icac.node iid').map Node.fixed =
      (s.icac.node iid').map Node.fixed := by
      intro iid'
      rw [h₃.fixed_eq (fun _ _ => rfl), hicac₂, h₁.fixed_eq fun n _ => ?_]
      simp [Node.fixed, Node.mapInode, Function.comp_def]
    have hrest : s₃.rest.2 = s.rest.2 := by
      rw [h₃.same]
      refine (congrArg Prod.snd h₂.rest).trans ?_
      rw [h₁.same]
      rfl
    have hhint : s₃.dbmFirstEmptyWord = s.dbmFirstEmptyWord := by
      rw [h₃.same]
      refine h₂.hint.trans ?_
      rw [h₁.same]
    have hnodes : ∀ iid', s₃.icac.node iid' = s.icac.node iid' ∨
        ∃ n, s₃.icac.node iid' = some n ∧ n.dirty = true := by
      intro iid'
      by_cases heq : iid' = iid
      · subst heq
        obtain ⟨n, hn, _⟩ := hp₂
        refine Or.inr ⟨{ n with dirty := true }, ?_, rfl⟩
        exact h₃.node_self hn
      · refine Or.inl ?_
        rw [h₃.node_of_ne heq, hicac₂, h₁.node_of_ne heq]
    obtain ⟨hinv, hgrows, _, _⟩ := h.old_root hlive hinode (h₃.bcacOk h₂.ok) hmeta₃ hused h₃.keyed
      hpending hp₃.inodeOf hinodes hfixed hrest hhint hnodes hother hspot
    refine hQ s₃ _ hinv hgrows ?_ ?_ hp₃ rfl (by rw [hspot])
    · rw [h₃.same, h₂.loads, h₁.same]
    · rw [h₃.same]
      refine hbcac₂.trans ?_
      rw [h₁.same]

/-! ## Slots of blocks -/

section

variable {added : List (ℕ × HashIdx)} {addr refcnt : ℕ}

/-- The entry that a lookup has reached points at the block of the place. -/
theorem Reached.block_eq (h : Reached w raw write r ks idx new s) : s.blockAt r ks = idx.bid := by
  rw [Sys.blockAt_eq, h.slot]

/-- The block that is reached is a data block. -/
theorem Reached.dataStart_le (h : Reached w raw write r ks idx new s) (hlive : s.Live r ks) :
    dataStart ≤ idx.bid := h.block_eq ▸ h.inv.dataStart_le hlive

/-- An index block is not one of the raw blocks of before. -/
theorem Reached.not_mem (h : Reached w raw write r ks idx new s) (hlive : s.Live r ks)
    (hlt : ks.length < treeShape.height r) : idx.bid ∉ raw :=
  h.block_eq ▸ h.leaves.not_mem h.inv hlive hlt

/-- The slots of the block that a lookup came to. -/
theorem Reached.slotAt_cons (h : Reached w raw write r ks idx new s) :
    s.slotAt r (k :: ks) = indexAt (s.spot idx.bid).data k := by
  rw [Sys.slotAt_cons, h.block_eq]

/-- A child is there when its entry points at a block. -/
theorem Reached.live_cons_iff (h : Reached w raw write r ks idx new s) (hlive : s.Live r ks)
    (hlt : ks.length < treeShape.height r) (hk : k < indexPerBlock) :
    s.Live r (k :: ks) ↔ (indexAt (s.spot idx.bid).data k).bid ≠ 0 := by
  rw [← h.slotAt_cons]
  constructor
  · exact fun hl => hl.2.2.2
  · exact fun hne => ⟨hlive, hlt, hk, hne⟩

/-- The block that a lookup came to can be loaded, with a hash unless it is new. -/
theorem Reached.ready (h : Reached w raw write r ks idx new s) (hlive : s.Live r ks)
    (hmem : idx.bid ∉ raw) (hinode : s.inodeOf r.1 = some inode) :
    (s.spot idx.bid).Ready w inode.aesIv inode.aesKey (expected idx new) := by
  have hgood := h.inv.good r ks inode hlive hinode
  rw [h.block_eq, h.slot] at hgood
  have hraw : idx.bid ∈ {b | b ∈ raw ∨ new = true ∧ b = idx.bid} ↔ new = true := by
    simp [hmem]
  refine hgood.ready (fun hnot => h.pending ?_) (fun hr => ?_) fun hnot => ?_
  · rwa [hraw, Bool.not_eq_true] at hnot
  · rw [expected, hraw.mp hr, if_pos rfl]
  · rw [hraw] at hnot
    rw [expected, if_neg hnot]

/-- A new block has the data zero. -/
theorem Reached.data_eq (h : Reached w raw write r ks idx true s) (hlive : s.Live r ks) :
    (s.spot idx.bid).data = Bytes.zero := by
  obtain ⟨inode, hinode⟩ := hlive.inode
  obtain ⟨hnode, hevicted⟩ := (h.inv.good r ks inode hlive hinode).blank (Or.inr ⟨rfl, h.block_eq⟩)
  rw [h.block_eq] at hnode hevicted
  simp [Spot.data, Spot.block, hnode, hevicted]

/-- A lookup that finds a block in the slot, or does not write, came to a block that is
not new. -/
theorem Reached.not_new (h : Reached w raw write r ks idx new s) (hlive : s.Live r ks)
    (hold : ¬(write = true ∧ (indexAt (s.spot idx.bid).data k).bid = 0)) : new = false := by
  cases hnew : new with
  | false => rfl
  | true =>
    subst hnew
    rw [h.data_eq hlive, indexAt_zero] at hold
    exact absurd ⟨h.asked rfl, rfl⟩ hold

/-- The block that a lookup came to is held after it was found in the cache or loaded. -/
structure EntryFetched (w : World) (idx : Index) (inode : Inode) (addr : ℕ)
    (added : List (ℕ × HashIdx)) (s s₁ : Sys) : Prop where
  /-- The block cache is good. -/
  ok : s₁.BcacOk
  /-- The other spots settle. -/
  settles : Settles w {idx.bid} added s s₁
  /-- The search hint of the data bitmap is the same. -/
  hint : s₁.dbmFirstEmptyWord = s.dbmFirstEmptyWord
  /-- The block is held once more. -/
  cached : (s.spot idx.bid).Cached (s₁.spot idx.bid) addr ((s.spot idx.bid).refs + 1) true
    (s.spot idx.bid).dirty inode.aesIv inode.aesKey (s.spot idx.bid).data
  /-- A block that was in the cache was found there. -/
  found : (s.spot idx.bid).node ≠ none → s.FoundInOrder idx.bid s₁

/-- The block that is reached is the one to change, and a data block. -/
theorem Reached.le_of_mem (h : Reached w raw write r ks idx new s) (hlive : s.Live r ks) :
    ∀ b ∈ ({idx.bid} : Set ℕ), dataStart ≤ b := by
  rintro b rfl
  exact h.dataStart_le hlive

/-- The block that is reached is marked as used. -/
theorem Reached.usedBlock (h : Reached w raw write r ks idx new s) (hlive : s.Live r ks) :
    s.UsedBlock idx.bid := h.block_eq ▸ h.inv.used r ks hlive

/-- The rule for `bget_from_cache_lock` of the block that a lookup came to. -/
theorem Reached.wp_fetch (h : Reached w raw write r ks idx new s) (hw : w.Reliable)
    (hlive : s.Live r ks) (hmem : idx.bid ∉ raw) (hinode : s.inodeOf r.1 = some inode)
    {hashidx : HashIdx} {Q : Option ℕ → Sys → Prop}
    (hQ : ∀ addr added s₁, EntryFetched w idx inode addr added s s₁ →
      LoadedOnce s idx.bid hashidx added → Q (some addr) s₁)
    (hE : ¬s.Roomy 0 → E .nodeLost ∧ E .nullDeref) :
    Exec.Wp (bgetFromCacheLock w idx.bid hashidx inode.aesIv inode.aesKey (expected idx new)) Q E
      s := by
  have hfound : Exec.Wp
      (bgetFromCacheLock w idx.bid hashidx inode.aesIv inode.aesKey (expected idx new))
      (fun _ s₁ => (s.spot idx.bid).node ≠ none → s.FoundInOrder idx.bid s₁) (fun _ => True) s := by
    cases hn : s.bcac.node idx.bid with
    | none => exact (Exec.Wp.any _).imp fun _ _ _ hne => absurd hn hne
    | some n =>
      exact (wp_bget_order h.inv.ok.keyed hn (h.inv.ok.holds _ n hn)).imp fun _ _ hs _ => hs
  apply Exec.Wp.also hfound
  apply Exec.Wp.keeping (aside_dbmFirstEmptyWord.bgetFromCacheLock _ _ _ _ _)
  refine wp_bget hw h.inv.ok (le_trans (by decide) (h.dataStart_le hlive))
    (h.ready hlive hmem hinode) ?_ hE
  intro addr added s₁ hok hsettles hadded hcached hhint hfound
  exact hQ addr added s₁ ⟨hok, hsettles, hhint, hcached, hfound⟩ hadded

section

variable {did : ℕ} {s₂ : Sys}

/-- A fetch of the block leaves the metadata blocks good. -/
theorem EntryFetched.metaInv (hf : EntryFetched w idx inode addr added s s₁)
    (h : Reached w raw write r ks idx new s) (hw : w.Reliable) (hlive : s.Live r ks) :
    s₁.MetaInv w := hf.settles.metaInv hw h.inv.ok h.inv.metaInv (h.le_of_mem hlive)

/-- A fetch of the block leaves the numbers in use. -/
theorem EntryFetched.dataUsed_eq (hf : EntryFetched w idx inode addr added s s₁)
    (h : Reached w raw write r ks idx new s) (hlive : s.Live r ks) :
    s₁.dataUsed = s.dataUsed := hf.settles.dataUsed_eq h.inv.ok h.inv.metaInv (h.le_of_mem hlive)

/-- While the block is held the blocks of unused numbers stay out of the cache. -/
theorem EntryFetched.unusedAbsent (hf : EntryFetched w idx inode addr added s s₁)
    (h : Reached w raw write r ks idx new s) (hlive : s.Live r ks) : s₁.UnusedAbsent := by
  intro did hlt hdid
  rw [hf.dataUsed_eq h hlive] at hdid
  exact (h.inv.unused_settles hf.settles hlt hdid ((h.usedBlock hlive).ne hdid)).1

/-- With room for two blocks there is room for one while the block is held. -/
theorem EntryFetched.room (hf : EntryFetched w idx inode addr added s s₁)
    (h : Reached w raw write r ks idx new s) (hlive : s.Live r ks)
    (hroom : s.Roomy 1 ∧ s.openDids.Nonempty) : s₁.Roomy 0 ∧ s₁.openDids.Nonempty := by
  rw [openDids_congr hf.hint (hf.dataUsed_eq h hlive)]
  exact ⟨hf.settles.holdsWithin.roomy_of_one hroom.1, hroom.2⟩

/-- The block was given back. -/
theorem EntryFetched.held {X : Set ℕ} {dirty : Bool} {d : Data}
    (hf : EntryFetched w idx inode addr added s s₁) (h₂ : HoldsWithin X s₁ s') (hX : X ⊆ {idx.bid})
    (hcached : (s.spot idx.bid).Cached (s'.spot idx.bid) addr (s.spot idx.bid).refs false dirty
      inode.aesIv inode.aesKey d) : HoldsWithin ∅ s s' := by
  have hwithin : HoldsWithin {idx.bid} s s' :=
    (hf.settles.holdsWithin.trans h₂).mono (Set.union_subset (le_refl _) hX)
  exact hwithin.drop fun href => hcached.refs_eq ▸ href

/-- The block was given back, and so are all blocks held as before. -/
theorem EntryFetched.refs_eq {c : ℕ} {dirty : Bool} {d : Data}
    (hf : EntryFetched w idx inode addr added s s₁) (hmoves : MovesHash idx.bid c s₁ s')
    (hcached : (s.spot idx.bid).Cached (s'.spot idx.bid) addr (s.spot idx.bid).refs false dirty
      inode.aesIv inode.aesKey d) (b : ℕ) : (s'.spot b).refs = (s.spot b).refs := by
  by_cases hb : b = idx.bid
  · rw [hb]
    exact hcached.refs_eq
  · have hsame : (s'.spot b).refs = (s₁.spot b).refs := by
      by_cases hc : b = c
      · rw [hc, hmoves.spot]
        rfl
      · rw [hmoves.other b hb hc]
    rw [hsame]
    rcases hf.settles.spot b hb with heq | ⟨hidle, heq⟩
    · rw [heq]
    · rw [heq, Spot.refs_eq_zero Spot.node_evict, hidle.refs_eq]

/-- The step changed the block cache as the lookup of the block alone does. -/
theorem EntryFetched.alike {c : ℕ} {dirty : Bool} {d : Data}
    (hf : EntryFetched w idx inode addr added s s₁) (hok : s.BcacOk)
    (hmoves : MovesHash idx.bid c s₁ s') (horder : s'.order = s₁.order)
    (hcached : (s.spot idx.bid).Cached (s'.spot idx.bid) addr (s.spot idx.bid).refs false dirty
      inode.aesIv inode.aesKey d) (hnode : (s.spot idx.bid).node ≠ none) :
    s'.bcac.Alike (s.bcac.find idx.bid true).cache := by
  obtain ⟨hlost, hfound⟩ := hf.found hnode
  obtain ⟨hkeyed, hrefs⟩ := hok.keyed.find hlost
  refine hmoves.ok.keyed.alike hkeyed (horder.trans hfound) fun b => ?_
  rw [hrefs]
  exact hf.refs_eq hmoves hcached b

/-- The lookup allocated a block for the slot. -/
theorem Reached.descend_new (h : Reached w raw true r ks idx new s) (hw : w.Reliable)
    (hlive : s.Live r ks) (hlt : ks.length < treeShape.height r) (hk : k < indexPerBlock)
    (hinode : s.inodeOf r.1 = some inode) (hempty : (indexAt (s.spot idx.bid).data k).bid = 0)
    (hf : EntryFetched w idx inode addr added s s₁) (halloc : Allocated w did s₁ s₂)
    (hstill : Still idx.bid s₂ s')
    (hcached : (s.spot idx.bid).Cached (s'.spot idx.bid) addr (s.spot idx.bid).refs false true
      inode.aesIv inode.aesKey (setIndexHash (setIndexBid (s.spot idx.bid).data k
        (did2Bid did)) k (zeroBlockSha256 w))) :
    Reached w raw true r (k :: ks) (indexAt (s'.spot idx.bid).data k) true s' ∧
      Grows w {(r, k :: ks)} s s' ∧ s'.loads = added ++ s.loads := by
  have hblock := h.block_eq
  have hX := h.le_of_mem hlive
  have hused₁ := hf.dataUsed_eq h hlive
  have hfresh : did ∉ s.dataUsed := hused₁ ▸ halloc.fresh
  have hcb := (h.usedBlock hlive).ne hfresh
  have hsettles₂ : Settles w {idx.bid} [] s₂ s' := hstill.settles
  have hsettles : Settles w ({idx.bid} ∪ ({did2Bid did} ∪ bitmapBlocks)) added s s' := by
    refine Settles.mono ((hf.settles.trans halloc.settles).trans hsettles₂) ?_
    exact Set.union_subset (le_refl _) Set.subset_union_left
  have hused₂ : s'.dataUsed = s₂.dataUsed := hsettles₂.dataUsed_eq halloc.ok halloc.metaInv hX
  have hused : s'.dataUsed = insert did s.dataUsed := by rw [hused₂, halloc.used, hused₁]
  have hopen : s.openDids \ {did} ⊆ s'.openDids := by
    rw [openDids_congr hstill.hint hused₂, ← openDids_congr hf.hint hused₁]
    exact halloc.openDids
  have hspot : s'.spot (did2Bid did) = { s.spot (did2Bid did) with evicted := Bytes.zero } := by
    rw [hstill.other _ hcb, halloc.spot_eq, hf.settles.spot_of_absent (by simpa using hcb)
      (h.inv.unused did halloc.lt hfresh).1]
  have hheld : HoldsWithin ∅ s s' :=
    hf.held (halloc.held.trans hstill.holdsWithin) (by simp) hcached
  have hraw : ({b | b ∈ raw ∨ new = true ∧ b = idx.bid} : Set ℕ) \ {idx.bid} = raw := by
    have hmem := h.not_mem hlive hlt
    ext b
    simp only [Set.mem_sdiff, Set.mem_ofPred_eq, Set.mem_singleton_iff]
    constructor
    · rintro ⟨hb | ⟨_, hb⟩, hne⟩
      · exact hb
      · exact absurd hb hne
    · intro hb
      refine ⟨Or.inl hb, ?_⟩
      rintro rfl
      exact hmem hb
  have hempty' : s.blockAt r (k :: ks) = 0 := by rw [Sys.blockAt_eq, h.slotAt_cons, hempty]
  have hloads := hsettles.loads
  rw [← hblock] at hsettles hcached
  obtain ⟨hinv, hgrows, hl, hslot⟩ := h.inv.new_entry hw hlive hinode hlt hk hempty' hstill.ok
    (hsettles₂.metaInv hw halloc.ok halloc.metaInv hX) hsettles hheld halloc.lt hfresh hused hopen
    hcached hspot
  rw [hblock, hraw] at hinv
  have hslot' : s'.slotAt r (k :: ks) = indexAt (s'.spot idx.bid).data k := by
    rw [Sys.slotAt_cons, (hgrows.live r ks hlive).2, hblock]
  rw [hslot'] at hslot
  refine ⟨⟨?_, h.leaves.grows hgrows, hslot', fun _ => hl, fun _ => ?_, fun _ => rfl,
    fun h => absurd h (by simp)⟩, hgrows, hloads⟩
  · rw [hslot]
    convert hinv using 1
    ext b
    simp [or_comm]
  · rw [← hslot']
    exact hl.block_ne

/-- The lookup found an empty slot. -/
theorem Reached.descend_hole (h : Reached w raw false r ks idx false s) (hw : w.Reliable)
    (hlive : s.Live r ks) (hlt : ks.length < treeShape.height r)
    (hinode : s.inodeOf r.1 = some inode) (hempty : (indexAt (s.spot idx.bid).data k).bid = 0)
    (hf : EntryFetched w idx inode addr added s s₁) (hmoves : MovesHash idx.bid 0 s₁ s')
    (hcached : (s.spot idx.bid).Cached (s'.spot idx.bid) addr (s.spot idx.bid).refs false
      ((s.spot idx.bid).dirty || (s₁.spot 0).pending.isSome) inode.aesIv inode.aesKey
      (rehash (s.spot idx.bid).data k (s₁.spot 0).pending)) :
    Reached w raw false r (k :: ks) (indexAt (s'.spot idx.bid).data k) false s' ∧
      Grows w ∅ s s' := by
  have hblock := h.block_eq
  have hmem := h.not_mem hlive hlt
  have hinv : s.TreeInv w raw := by simpa using h.inv
  have hgood := hinv.good r ks inode hlive hinode
  have hhole : (s₁.spot 0).pending = none := hinv.hole_settles hf.settles fun heq =>
    absurd (h.le_of_mem hlive 0 heq) (by decide)
  have hheld : HoldsWithin ∅ s s' := hf.held hmoves.holdsWithin (le_refl _) hcached
  simp only [hhole, Option.isSome_none, Bool.or_false, rehash] at hcached
  have hsettles : Settles w {idx.bid} added s s' := by
    refine ⟨fun b hb => ?_, hmoves.loads.trans hf.settles.loads, hmoves.rest.trans hf.settles.rest⟩
    have hsame : s'.spot b = s₁.spot b := by
      by_cases hb0 : b = 0
      · rw [hb0, hmoves.spot, ← hhole]
      · exact hmoves.other b hb hb0
    rw [hsame]
    exact hf.settles.spot b hb
  have hgood' : (s'.spot (s.blockAt r ks)).TreeGood w False inode.aesIv inode.aesKey
      (s.slotAt r ks).hash := by
    rw [hblock] at hgood ⊢
    exact ⟨hcached.hashOk hgood.hashOk, fun _ => hcached.diskOk (hgood.diskOk hmem),
      fun hfalse => hfalse.elim, hcached.keysOk, hcached.unlocked⟩
  rw [← hblock] at hsettles
  obtain ⟨hinv', hsame, hused⟩ := hinv.block_settles hw hlive hinode hmoves.ok hsettles
    (fun _ j => by rw [hblock, hcached.data_eq]) hgood'
  rw [hblock, Set.sdiff_singleton_eq_self hmem] at hinv'
  have hdata : ∀ r' ks', s.Live r' ks' → (s'.spot (s.blockAt r' ks')).data =
      (s.spot (s.blockAt r' ks')).data := by
    intro r' ks' hl
    by_cases hb : s.blockAt r' ks' = s.blockAt r ks
    · rw [hb, hblock, hcached.data_eq]
    · exact hinv.data_eq hl hsettles hb
  have hreach : ({s.blockAt r ks} : Set ℕ) ⊆ s.reach := by
    rintro b rfl
    exact Or.inr (Or.inr ⟨r, ks, hlive, rfl⟩)
  have hgrows := hsame.grows (fun r' ks' hl _ => hdata r' ks' hl)
    (fun iid => by rw [hsettles.icac_eq]) hused (hmoves.hint.trans hf.hint)
    (hsettles.beside hreach hheld) ∅
  have hbid : (indexAt (s'.spot idx.bid).data k).bid = 0 := by rw [hcached.data_eq, hempty]
  refine ⟨⟨by simpa using hinv', h.leaves.grows hgrows, ?_, fun hne => absurd hbid hne,
    fun hwrite => absurd hwrite (by simp), fun hnew => absurd hnew (by simp), fun _ => ?_⟩, hgrows⟩
  · rw [Sys.slotAt_cons, (hgrows.live r ks hlive).2, hblock]
  · rw [hbid]
    exact hinv'.hole

/-- The lookup found a block in the slot and moved the pending hash of it there. -/
theorem Reached.descend_old (h : Reached w raw write r ks idx false s) (hw : w.Reliable)
    (hlive : s.Live r (k :: ks)) (hinode : s.inodeOf r.1 = some inode) {c : ℕ}
    (hc : (indexAt (s.spot idx.bid).data k).bid = c) (hf : EntryFetched w idx inode addr added s s₁)
    (hmoves : MovesHash idx.bid c s₁ s')
    (hcached : (s.spot idx.bid).Cached (s'.spot idx.bid) addr (s.spot idx.bid).refs false
      ((s.spot idx.bid).dirty || (s₁.spot c).pending.isSome) inode.aesIv inode.aesKey
      (rehash (s.spot idx.bid).data k (s₁.spot c).pending)) :
    Reached w raw write r (k :: ks) (indexAt (s'.spot idx.bid).data k) false s' ∧
      Grows w ∅ s s' := by
  have hinv : s.TreeInv w raw := by simpa using h.inv
  have hblock := h.block_eq
  have hchild : s.blockAt r (k :: ks) = c := by rw [Sys.blockAt_eq, h.slotAt_cons, hc]
  have hmem : s.blockAt r ks ∉ raw := h.leaves.not_mem hinv hlive.1 hlive.2.1
  have hheld : HoldsWithin ∅ s s' := hf.held hmoves.holdsWithin (le_refl _) hcached
  have hsettles := hf.settles
  have hother := hmoves.other
  have hspot := hmoves.spot
  rw [← hblock] at hsettles hother hcached
  rw [← hchild] at hother hspot hcached
  obtain ⟨hinv', hgrows, hlive', hblock'⟩ := hinv.old_entry hw hlive hinode hmem hmoves.ok
    hsettles hmoves.rest hmoves.loads (hmoves.hint.trans hf.hint) hheld hother hspot hcached
  have hslot' : s'.slotAt r (k :: ks) = indexAt (s'.spot idx.bid).data k := by
    rw [Sys.slotAt_cons, (hgrows.live r ks hlive.1).2, hblock]
  refine ⟨⟨by simpa using hinv', h.leaves.grows hgrows, hslot', fun _ => hlive', fun _ => ?_,
    fun hnew => absurd hnew (by simp), fun _ => ?_⟩, hgrows⟩
  · rw [← hslot']
    exact hlive'.block_ne
  · rw [← hslot', ← Sys.blockAt_eq, hblock', hspot]

/-- A lookup that does not allocate a block for the slot goes on to it. -/
theorem Reached.descend (h : Reached w raw write r ks idx new s) (hw : w.Reliable)
    (hlive : s.Live r ks) (hlt : ks.length < treeShape.height r) (hk : k < indexPerBlock)
    (hinode : s.inodeOf r.1 = some inode) {c : ℕ}
    (hc : (indexAt (s.spot idx.bid).data k).bid = c) (hold : ¬(write = true ∧ c = 0))
    (hf : EntryFetched w idx inode addr added s s₁) (hmoves : MovesHash idx.bid c s₁ s')
    (hcached : (s.spot idx.bid).Cached (s'.spot idx.bid) addr (s.spot idx.bid).refs false
      ((s.spot idx.bid).dirty || (s₁.spot c).pending.isSome) inode.aesIv inode.aesKey
      (rehash (s.spot idx.bid).data k (s₁.spot c).pending)) :
    Reached w raw write r (k :: ks) (indexAt (s'.spot idx.bid).data k) false s' ∧
      Grows w ∅ s s' := by
  obtain rfl := h.not_new hlive (hc ▸ hold)
  by_cases hzero : c = 0
  · have hread : write = false := by
      by_contra hne
      exact hold ⟨Bool.not_eq_false _ ▸ hne, hzero⟩
    subst hread hzero
    exact h.descend_hole hw hlive hlt hinode hc hf hmoves hcached
  · have hchild := (h.live_cons_iff hlive hlt hk).mpr (hc.symm ▸ hzero)
    exact h.descend_old hw hchild hinode hc hf hmoves hcached

/-- An entry of the block does not point at the block. -/
theorem Reached.entry_ne (h : Reached w raw write r ks idx new s) (hlive : s.Live r ks)
    (hlt : ks.length < treeShape.height r) (hk : k < indexPerBlock) :
    (indexAt (s.spot idx.bid).data k).bid ≠ idx.bid := by
  intro heq
  have hzero : idx.bid ≠ 0 := h.block_eq ▸ hlive.block_ne
  have hchild := (h.live_cons_iff hlive hlt hk).mpr (heq.symm ▸ hzero)
  refine h.inv.blockAt_cons_ne hchild ?_
  rw [Sys.blockAt_eq, h.slotAt_cons, heq, h.block_eq]

end

end

/-! ## The steps of a lookup -/

variable (hw : w.Reliable)

include hw

/-- The rule for a new block in an empty root slot. -/
theorem wp_newRoot (h : s.TreeInv w raw) (hp : s.PointsTo ip iid inode) {i : ℕ}
    (hempty : inode.bid (rootSlot i) = 0) {Q : Bool → Sys → Prop}
    (hQ : ∀ did s' inode', s'.TreeInv w (insert (did2Bid did) raw) →
      Grows w {((iid, rootSlot i), [])} s s' → s'.Live (iid, rootSlot i) [] →
      s'.loads = s.loads → s'.PointsTo ip iid inode' →
      inode'.bid (rootSlot i) = did2Bid did → Q false s')
    (hE : ¬(s.Roomy 0 ∧ s.openDids.Nonempty) → ∀ e : Halt, e.NoRoom → E e) :
    Exec.Wp (newRoot w ip i) Q E s := by
  refine Exec.wp_bind.mpr (wp_blockAlloc_absent hw h.ok h.metaInv h.unusedAbsent
    (fun did s₁ halloc => ?_) hE)
  generalize rootSlot i = j at hQ hempty ⊢
  have hicac₁ : s₁.icac = s.icac := halloc.settles.icac_eq
  have hp₁ := hp.congr hicac₁
  have hne : did2Bid did ≠ 0 := by
    have hle := dataStart_le_did2Bid did
    simp only [dataStart] at hle
    omega
  refine Exec.wp_bind.mpr (wp_inodeStore (hicac₁ ▸ h.icac) hp₁ fun s₂ h₂ => ?_)
  have hp₂ := h₂.pointsTo hp₁ { inode with
    bid := Function.update inode.bid j (did2Bid did) }
      fun n hn => ⟨rfl, by simp [Node.mapInode, hn]⟩
  rw [if_neg hne]
  refine Exec.wp_bind.mpr (wp_inodeStore h₂.keyed hp₂ fun s₃ h₃ => ?_)
  have hp₃ := h₃.pointsTo hp₂ { inode with
    bid := Function.update inode.bid j (did2Bid did)
    hash := Function.update inode.hash j (zeroBlockSha256 w) }
      fun n hn => ⟨rfl, by simp [Node.mapInode, hn]⟩
  refine Exec.wp_bind.mpr (wp_inodeMakeDirty h₃.keyed hp₃ (h.iid_eq iid inode hp.inodeOf)
    fun s₄ h₄ => ?_)
  have hp₄ := h₄.pointsTo hp₃ _ fun n hn => ⟨rfl, hn⟩
  have hchanges := (h₂.trans h₃).trans h₄
  obtain ⟨hinv, hgrows, hlive, _⟩ := h.new_root hw hp.inodeOf hempty halloc hchanges hp₄.inodeOf
    (fun _ _ => by simp [Node.fixed, Node.mapInode, Function.comp_def]) fun _ => rfl
  refine hQ did s₄ _ hinv hgrows hlive ?_ hp₄ (by simp)
  rw [hchanges.same]
  exact halloc.settles.loads

/-- The rule for the step of a lookup to a root slot. -/
theorem wp_rootLookup (h : s.TreeInv w raw) (hleaves : s.RawLeaves raw)
    (hp : s.PointsTo ip iid inode) {i : ℕ} {Q : Option (Index × Bool) → Sys → Prop}
    (hQ : ∀ idx new s', Reached w raw write (iid, rootSlot i) [] idx new s' →
      Grows w (asked write ((iid, rootSlot i), [])) s s' → s'.loads = s.loads →
      (new = false → s'.bcac = s.bcac) →
      (new = true ↔ write = true ∧ ¬s.Live (iid, rootSlot i) []) → Q (some (idx, new)) s')
    (hP : ((iid, rootSlot i), []) ∈ P) (hE : ¬s.RoomFor write P → ∀ e : Halt, e.NoRoom → E e) :
    Exec.Wp (rootLookup w ip i write) Q E s := by
  have hslot : s.slotAt (iid, rootSlot i) [] = inode.rootEntry (rootSlot i) :=
    Sys.slotAt_nil hp.inodeOf
  have hlive : s.Live (iid, rootSlot i) [] ↔ inode.bid (rootSlot i) ≠ 0 := by
    have hroot : s.forest.isRoot (iid, rootSlot i) := by simp [Sys.forest, hp.inodeOf]
    have hblock : s.blockAt (iid, rootSlot i) [] = inode.bid (rootSlot i) := by
      rw [Sys.blockAt_eq, hslot]
      rfl
    rw [← hblock]
    exact and_iff_right hroot
  refine Exec.wp_bind.mpr (wp_inodeAt h.icac hp (Exec.wp_ite.mpr ⟨?_, ?_⟩))
  · rintro ⟨rfl, hempty⟩
    refine Exec.wp_bind.mpr (wp_newRoot hw h hp hempty ?_ fun hcrowded => hE fun hroom => hcrowded
      ⟨hroom.roomy.mono (Nat.zero_le _), (hroom.supplied rfl).nonempty hP fun hl =>
        hlive.mp hl hempty⟩)
    intro did s₁ inode₁ hinv hgrows hlive₁ hloads hp₁ hbid
    refine Exec.wp_bind.mpr (wp_inodeAt hinv.icac hp₁ ?_)
    have hslot₁ : s₁.slotAt (iid, rootSlot i) [] = inode₁.rootEntry (rootSlot i) :=
      Sys.slotAt_nil hp₁.inodeOf
    refine hQ _ true s₁ ⟨?_, hleaves.grows hgrows, hslot₁, fun _ => hlive₁, fun _ => ?_,
      fun _ => rfl, fun h => absurd h (by simp)⟩
      (hgrows.mono (Set.singleton_subset_iff.mpr ⟨rfl, mem_wayTo _⟩)) hloads (by simp)
      (by simp [hlive, hempty])
    · rw [hbid]
      convert hinv using 1
      ext b
      simp [or_comm]
    · exact fun hzero => hlive₁.2 (by
        change s₁.blockAt (iid, rootSlot i) [] = 0
        rw [Sys.blockAt_eq, hslot₁]
        exact hzero)
  · intro hold
    refine Exec.wp_bind.mpr (wp_getRealHashIp h hp ?_)
    intro s₁ inode₁ hinv hgrows hloads hbcac hp₁ hbid hpending
    refine Exec.wp_bind.mpr (wp_inodeAt hinv.icac hp₁ ?_)
    have hslot₁ : s₁.slotAt (iid, rootSlot i) [] = inode₁.rootEntry (rootSlot i) :=
      Sys.slotAt_nil hp₁.inodeOf
    refine hQ _ false s₁ ⟨?_, hleaves.grows hgrows, hslot₁, fun hne => ?_, fun hwrite => ?_,
      fun h => absurd h (by simp), fun _ => ?_⟩ (hgrows.mono (Set.empty_subset _)) hloads
      (fun _ => hbcac) ?_
    · simpa using hinv
    · exact (hgrows.live _ _ (hlive.mpr (hbid ▸ hne))).1
    · rw [hbid]
      exact fun hzero => hold ⟨hwrite, hzero⟩
    · rw [hbid]
      exact hpending
    · rw [hlive]
      constructor
      · intro h
        cases h
      · rintro ⟨hwrite, hnot⟩
        exact absurd ⟨hwrite, not_not.mp hnot⟩ hold

/-- The rule for the step of a lookup to a slot of a block. -/
theorem wp_indexLookupOneLevel (h : Reached w raw write r ks idx new s)
    (hlt : ks.length < treeShape.height r) (hk : k < indexPerBlock)
    (hp : s.PointsTo ip r.1 inode) {hashidx : HashIdx} {Q : Option (Index × Bool) → Sys → Prop}
    (hQ : ∀ idx' new' added s', s.Live r ks → Reached w raw write r (k :: ks) idx' new' s' →
      Grows w (asked write (r, k :: ks)) s s' → s'.loads = added ++ s.loads →
      LoadedOnce s idx.bid hashidx added →
      (new' = false → (s.spot idx.bid).node ≠ none →
        s'.bcac.Alike (s.bcac.find idx.bid true).cache) →
      (new' = true ↔ write = true ∧ ¬s.Live r (k :: ks)) → Q (some (idx', new')) s')
    (hEs : idx.bid = 0 → E (.panic .superblockRead))
    (hP : (r, k :: ks) ∈ P) (hE : ¬s.RoomFor write P → ∀ e : Halt, e.NoRoom → E e) :
    Exec.Wp (indexLookupOneLevel w ip idx.bid k hashidx (expected idx new) write) Q E s := by
  have hE' : ¬s.Roomy 0 → E .nodeLost ∧ E .nullDeref := by
    intro hcrowded
    have hstops := hE fun hroom => hcrowded (hroom.roomy.mono (Nat.zero_le _))
    exact ⟨hstops _ (by simp [Halt.NoRoom]), hstops _ (by simp [Halt.NoRoom])⟩
  refine Exec.wp_bind.mpr (wp_inodeAt h.inv.icac hp (Exec.wp_bind.mpr ?_))
  by_cases hzero : idx.bid = 0
  · rw [hzero]
    exact wp_bgetFromCacheLock_superblock hw h.inv.ok (by decide) (hEs hzero)
  have hlive := h.live hzero
  have hinode := hp.inodeOf
  have hlive' := h.live_cons_iff hlive hlt hk
  refine h.wp_fetch hw hlive (h.not_mem hlive hlt) hinode ?_ hE'
  intro addr added s₁ hf hadded
  refine Exec.wp_bind.mpr (wp_blockAt_held hf.ok hf.cached fun block hdata hbid => ?_)
  rw [hdata, hbid]
  refine Exec.wp_ite.mpr ⟨?_, ?_⟩
  · rintro ⟨rfl, hempty⟩
    have husedBlock : s₁.UsedBlock idx.bid := by
      rw [Sys.UsedBlock, hf.dataUsed_eq h hlive]
      exact h.usedBlock hlive
    have hnot : ¬s.Live r (k :: ks) := fun hl => hlive'.mp hl hempty
    refine Exec.wp_bind.mpr (wp_newEntry hw hf.ok (hf.metaInv h hw hlive) (hf.unusedAbsent h hlive)
      husedBlock hf.cached ?_ fun hcrowded => hE fun hroom => hcrowded (hf.room h hlive
        ⟨hroom.roomy, (hroom.supplied rfl).nonempty hP hnot⟩))
    intro did s₂ s₃ halloc hstill₃ hcached₃
    refine Exec.wp_bind.mpr (wp_blockAt_held hstill₃.ok hcached₃ fun block₃ hdata₃ hbid₃ => ?_)
    rw [hdata₃, hbid₃]
    refine Exec.wp_bind.mpr (wp_blockUnlockReturn_held hstill₃.ok hcached₃ ?_)
    intro s₄ hstill₄ hcached₄
    obtain ⟨hreached, hgrows, hloads⟩ := h.descend_new hw hlive hlt hk hinode hempty hf halloc
      (hstill₃.trans hstill₄) hcached₄
    rw [← hcached₄.data_eq]
    exact hQ _ true added s₄ hlive hreached
      (hgrows.mono (Set.singleton_subset_iff.mpr ⟨rfl, mem_wayTo _⟩)) hloads hadded (by simp)
      (by simp [hnot])
  · intro hold
    generalize hc : (indexAt (s.spot idx.bid).data k).bid = c at hold hlive'
    have hcb : c ≠ idx.bid := hc ▸ h.entry_ne hlive hlt hk
    refine Exec.wp_bind.mpr (Exec.Wp.keeping (keepsOrder_getRealHashIndex _ _ _)
      (wp_getRealHashIndex hf.ok hf.cached (hc.symm ▸ hcb) ?_))
    rw [hc]
    intro s₂ hmoves₂ hcached₂ horder₂
    refine Exec.wp_bind.mpr (wp_blockAt_held hmoves₂.ok hcached₂ fun block₂ hdata₂ hbid₂ => ?_)
    rw [hdata₂, hbid₂]
    refine Exec.wp_bind.mpr (Exec.Wp.keeping (keepsOrder_blockUnlockReturn _)
      (wp_blockUnlockReturn_held hmoves₂.ok hcached₂ ?_))
    intro s₃ hstill₃ hcached₃ horder₃
    have hmoves := hmoves₂.still hstill₃ hcb
    obtain ⟨hreached, hgrows⟩ := h.descend hw hlive hlt hk hinode hc hold hf hmoves hcached₃
    rw [← hcached₃.data_eq]
    refine hQ _ false added s₃ hlive hreached (hgrows.mono (Set.empty_subset _))
      (hmoves.loads.trans hf.settles.loads) hadded
      (fun _ => hf.alike h.inv.ok hmoves (horder₃.trans horder₂) hcached₃) ?_
    rw [hlive', not_not]
    exact ⟨fun hfalse => absurd hfalse (by simp), fun hnot => absurd hnot hold⟩

end

end Efs
