import Efs.CacheOrder
import Efs.DataBitmapSemantics
import Efs.Dinode
import Efs.InodeView

/-!
# One level of a lookup

What `index_lookup_one_level` does to the block that it looks into and to the one
that the entry points at. Either the entry was empty and gets a new block, or the
hash of the block that it points at is moved from `pd_wb` to the entry.
-/

namespace Efs

open Library

section

variable {w : World} {E : Halt → Prop} {s s₁ s' : Sys} {b k ip iid : ℕ} {inode : Inode}

/-- A block of a number that the bitmap shows as used. -/
def Sys.UsedBlock (s : Sys) (b : ℕ) : Prop := ∃ did ∈ s.dataUsed, b = did2Bid did

/-- The block was not in the cache and was loaded, or nothing was loaded. -/
def LoadedOnce (s : Sys) (b : ℕ) (hashidx : HashIdx) (added : List (ℕ × HashIdx)) : Prop :=
  (s.spot b).node ≠ none ∧ added = [] ∨ (s.spot b).node = none ∧ added = loaded b hashidx

/-- The data of an index block after the pending hash of its `k`-th child is moved to it. -/
def rehash (d : Data) (k : ℕ) (pending : Option PdWbNode) : Data :=
  match pending with
  | none => d
  | some node => setIndexHash d k node.hash

/-- A hash that is moved leaves the other entries. -/
theorem indexAt_rehash_of_ne {d : Data} {j k : ℕ} (hj : j ≠ k) (pending : Option PdWbNode) :
    indexAt (rehash d k pending) j = indexAt d j := by
  cases pending with
  | none => rfl
  | some node => exact indexAt_setIndexHash_of_ne (Ne.symm hj)

/-- The entry has the pending hash, or its own. -/
theorem indexAt_rehash {d : Data} {k : ℕ} (hk : k < indexPerBlock) (pending : Option PdWbNode) :
    indexAt (rehash d k pending) k =
      ⟨(indexAt d k).bid, (pending.map (·.hash)).getD (indexAt d k).hash⟩ := by
  cases pending with
  | none => rfl
  | some node => exact indexAt_setIndexHash hk

/-- The block of a number is a data block. -/
theorem dataStart_le_did2Bid (did : ℕ) : dataStart ≤ did2Bid did := Nat.le_add_left _ _

/-- A used block is a data block. -/
theorem Sys.UsedBlock.dataStart_le (h : s.UsedBlock b) : dataStart ≤ b := by
  obtain ⟨did, _, rfl⟩ := h
  exact dataStart_le_did2Bid did

/-- Different numbers have different blocks. -/
theorem did2Bid_injective {did did' : ℕ} (h : did2Bid did = did2Bid did') : did = did' :=
  Nat.add_right_cancel h

/-- A block of an unused number is another one. -/
theorem Sys.UsedBlock.ne (h : s.UsedBlock b) {did : ℕ} (hdid : did ∉ s.dataUsed) :
    did2Bid did ≠ b := by
  rintro rfl
  obtain ⟨did', hdid', heq⟩ := h
  exact hdid (did2Bid_injective heq ▸ hdid')

/-- Data blocks are no blocks of the bitmap. -/
theorem not_mem_bitmapBlocks (h : dataStart ≤ b) : b ∉ bitmapBlocks := fun hb =>
  absurd hb.2 (Nat.not_lt.mpr h)

/-- Changes of data blocks leave the metadata good. -/
theorem Settles.metaInv {X : Set ℕ} {added : List (ℕ × HashIdx)} (h : Settles w X added s s')
    (hw : w.Honest) (hs : s.BcacOk) (hmeta : s.MetaInv w) (hX : ∀ b ∈ X, dataStart ≤ b) :
    s'.MetaInv w :=
  hmeta.settles hw hs h fun b hb _ hlt => absurd hlt (Nat.not_lt.mpr (hX b hb))

/-- Changes of data blocks leave the bitmap as it is. -/
theorem Settles.dataUsed_eq {X : Set ℕ} {added : List (ℕ × HashIdx)} (h : Settles w X added s s')
    (hs : s.BcacOk) (hmeta : s.MetaInv w) (hX : ∀ b ∈ X, dataStart ≤ b) :
    s'.dataUsed = s.dataUsed := by
  refine dataUsed_congr fun b hb => ?_
  have hle : inodeStart ≤ b := le_trans (by decide : inodeStart ≤ bitmapStart) hb.1
  exact h.data_eq hs (fun hmem => not_mem_bitmapBlocks (hX b hmem) hb)
    (hmeta b hle hb.2).metaOk.dirty_or

/-- The rule for `pd_wb_delete`. -/
theorem wp_pdWbDelete {Q : Bool → Sys → Prop} (hs : s.BcacOk)
    (hQ : ∀ failed s', Still b s s' → s'.spot b = { s.spot b with pending := none } →
      Q failed s') : Exec.Wp (pdWbDelete b) Q E s := by
  simp only [pdWbDelete, pdWbFind, Exec.wp_bind, Exec.wp_read, Exec.wp_update, Exec.wp_pure]
  refine hQ _ _ ⟨hs.of_node hs.keyed fun _ _ h => h, fun b' hb' => ?_, rfl, rfl, rfl⟩ ?_
  · simp [Sys.spot, Ne.symm hb']
  · simp [Sys.spot]

/-- The pending hash of the block `c` was moved into the block `b`. -/
structure MovesHash (b c : ℕ) (s s' : Sys) : Prop where
  /-- The block cache is good. -/
  ok : s'.BcacOk
  /-- No block was loaded. -/
  loads : s'.loads = s.loads
  /-- What is not in a spot is the same. -/
  rest : s'.rest = s.rest
  /-- The search hint of the data bitmap is the same. -/
  hint : s'.dbmFirstEmptyWord = s.dbmFirstEmptyWord
  /-- The other spots are the same. -/
  other : ∀ b', b' ≠ b → b' ≠ c → s'.spot b' = s.spot b'
  /-- No hash is pending. -/
  spot : s'.spot c = { s.spot c with pending := none }

/-- A call that leaves the index block alone moves no further hash. -/
theorem MovesHash.still {c : ℕ} (h : MovesHash b c s s₁) (hstill : Still b s₁ s') (hcb : c ≠ b) :
    MovesHash b c s s' :=
  ⟨hstill.ok, hstill.loads.trans h.loads, hstill.rest.trans h.rest, hstill.hint.trans h.hint,
    fun b' hb hc => (hstill.other b' hb).trans (h.other b' hb hc),
    (hstill.other c hcb).trans h.spot⟩

/-- At most the block `b` is held that was not. -/
theorem MovesHash.holdsWithin {c : ℕ} (h : MovesHash b c s s') : HoldsWithin {b} s s' := by
  intro b' href
  by_cases hb : b' = b
  · exact Or.inr hb
  · refine Or.inl ?_
    by_cases hc : b' = c
    · subst hc
      rwa [h.spot] at href
    · rwa [h.other b' hb hc] at href

/-- No reference of another block appears. -/
theorem Still.holdsWithin (h : Still b s s') : HoldsWithin {b} s s' := by
  intro b' href
  by_cases hb : b' = b
  · exact Or.inr hb
  · exact Or.inl (h.other b' hb ▸ href)

/-- The rule for `get_real_hash_index` in a block that is held. -/
theorem wp_getRealHashIndex (hs : s.BcacOk) {l : Spot} {addr refcnt : ℕ} {dirty : Bool}
    {iv key : Key128} {d : Data}
    (h : l.Cached (s.spot b) addr refcnt true dirty iv key d) (hne : (indexAt d k).bid ≠ b)
    {Q : Unit → Sys → Prop}
    (hQ : ∀ s', MovesHash b (indexAt d k).bid s s' →
      l.Cached (s'.spot b) addr refcnt true (dirty || (s.spot (indexAt d k).bid).pending.isSome)
        iv key (rehash d k (s.spot (indexAt d k).bid).pending) → Q () s') :
    Exec.Wp (getRealHashIndex w addr k b) Q E s := by
  refine Exec.wp_bind.mpr (wp_blockAt_held hs h fun block hdata _ => ?_)
  simp only [hdata, pdWbFind, Exec.wp_bind, Exec.wp_read]
  generalize hc : (indexAt d k).bid = c at hne hQ
  have hfind : s.pdWb.find c = (s.spot c).pending := rfl
  rw [hfind]
  cases hp : (s.spot c).pending with
  | none =>
    rw [hp] at hQ
    refine hQ s ⟨hs, rfl, rfl, rfl, fun _ _ _ => rfl, ?_⟩ (by simpa [rehash] using h)
    rw [← hp]
  | some node =>
    rw [hp] at hQ
    refine Exec.wp_bind.mpr (wp_dataStore_held hs h fun s₁ h₁ hcached₁ => ?_)
    refine Exec.wp_bind.mpr (wp_pdWbDelete h₁.ok fun _ s₂ h₂ hspot₂ => ?_)
    rw [← h₂.other b (Ne.symm hne)] at hcached₁
    refine Exec.wp_bind.mpr (wp_blockMakeDirty_held h₂.ok hcached₁ fun s₃ h₃ hcached₃ => ?_)
    refine hQ s₃ ⟨h₃.ok, ?_, ?_, ?_, fun b' hb hbc => ?_, ?_⟩ (by simpa [rehash] using hcached₃)
    · rw [h₃.loads, h₂.loads, h₁.loads]
    · rw [h₃.rest, h₂.rest, h₁.rest]
    · rw [h₃.hint, h₂.hint, h₁.hint]
    · rw [h₃.other b' hb, h₂.other b' hbc, h₁.other b' hb]
    · rw [h₃.other c hne, hspot₂, h₁.other c hne]

/-- `get_real_hash_index` keeps the order of the block cache. -/
theorem keepsOrder_getRealHashIndex (bp i bid : ℕ) :
    Exec.Keeps Sys.order (getRealHashIndex w bp i bid) := by
  refine .bind (keeps_blockAt _) fun block => .bind (.read _) fun node => ?_
  cases node with
  | none => exact .pure ()
  | some node =>
    refine .bind (keepsOrder_dataStore _ _) fun _ => .bind (offDisk_order.pdWbDelete _) fun _ => ?_
    exact .bind (keepsOrder_blockMakeDirty _) fun _ => .pure ()

/-- The blocks of unused numbers are not cached. -/
def Sys.UnusedAbsent (s : Sys) : Prop :=
  ∀ did < 16777216, did ∉ s.dataUsed → (s.spot (did2Bid did)).node = none

/-- What an allocation does: a number that was not used is, and its block has the
data zero. -/
structure Allocated (w : World) (did : ℕ) (s s' : Sys) : Prop where
  /-- The block cache is good. -/
  ok : s'.BcacOk
  /-- The metadata blocks are good. -/
  metaInv : s'.MetaInv w
  /-- The other spots settle. -/
  settles : Settles w ({did2Bid did} ∪ bitmapBlocks) [] s s'
  /-- The number was not used. -/
  lt : did < 16777216
  /-- The number was not used. -/
  fresh : did ∉ s.dataUsed
  /-- The number is used. -/
  used : s'.dataUsed = insert did s.dataUsed
  /-- The block is zero. -/
  spot_eq : s'.spot (did2Bid did) = { s.spot (did2Bid did) with evicted := Bytes.zero }
  /-- No more blocks are held. -/
  held : HoldsWithin ∅ s s'
  /-- The other numbers that could be found still can. -/
  openDids : s.openDids \ {did} ⊆ s'.openDids

/-- A state whose ghost of one data block changed. -/
theorem Allocated.of_marked {did : ℕ} (hmarked : DbmMarked w s (s.dbmFirstEmptyWord * 64) did s₁)
    (habsent : (s.spot (did2Bid did)).node = none) :
    Allocated w did s
      { s₁ with evicted := Function.update s₁.evicted (did2Bid did) Bytes.zero } := by
  have h := hmarked.changes
  have hdata := dataStart_le_did2Bid did
  have hother : ∀ b ≠ did2Bid did,
      ({ s₁ with evicted := Function.update s₁.evicted (did2Bid did) Bytes.zero } : Sys).spot b =
        s₁.spot b := fun b hb => by simp [Sys.spot, hb]
  have hdids : ({ s₁ with evicted := Function.update s₁.evicted (did2Bid did) Bytes.zero } :
      Sys).dataUsed = s₁.dataUsed := dataUsed_congr fun b hb => by
    rw [hother b fun heq => not_mem_bitmapBlocks hdata (heq ▸ hb)]
  refine ⟨h.ok.of_node h.ok.keyed fun _ _ h => h, fun bid hle hbid => ?_, ⟨fun b hb => ?_, ?_, ?_⟩,
    hmarked.lt, hmarked.unused, hdids.trans hmarked.used, ?_, h.held, ?_⟩
  · rw [hother bid fun heq => Nat.not_lt.mpr hdata (heq ▸ hbid)]
    exact h.metaInv bid hle hbid
  · simp only [Set.mem_union, Set.mem_singleton_iff, not_or] at hb
    rw [hother b hb.1]
    exact h.settles.spot b hb.2
  · exact h.settles.loads
  · exact h.settles.rest
  · rw [← h.settles.spot_of_absent (not_mem_bitmapBlocks hdata) habsent]
    simp [Sys.spot]
  · simp only [Sys.openDids, hdids]
    exact hmarked.openDids

variable (hw : w.Reliable)

include hw

/-- The rule for `block_alloc` when the blocks of unused numbers are not cached. -/
theorem wp_blockAlloc_absent (hs : s.BcacOk) (hmeta : s.MetaInv w) (habsent : s.UnusedAbsent)
    {Q : ℕ → Sys → Prop} (hQ : ∀ did s', Allocated w did s s' → Q (did2Bid did) s')
    (hE : ¬(s.Roomy 0 ∧ s.openDids.Nonempty) → ∀ e : Halt, e.NoRoom → E e) :
    Exec.Wp (blockAlloc w) Q E s :=
  wp_blockAlloc hw hs hmeta (fun did _ hmarked =>
    hQ did _ (.of_marked hmarked (habsent did hmarked.lt hmarked.unused))) hE

/-- The rule for a new entry of a block that is held. -/
theorem wp_newEntry (hs : s.BcacOk) (hmeta : s.MetaInv w) (habsent : s.UnusedAbsent)
    (hb : s.UsedBlock b) {l : Spot} {addr refcnt : ℕ} {dirty : Bool} {iv key : Key128} {d : Data}
    (h : l.Cached (s.spot b) addr (refcnt + 1) true dirty iv key d) {Q : Bool → Sys → Prop}
    (hQ : ∀ did s₁ s', Allocated w did s s₁ → Still b s₁ s' →
      l.Cached (s'.spot b) addr (refcnt + 1) true true iv key
        (setIndexHash (setIndexBid d k (did2Bid did)) k (zeroBlockSha256 w)) → Q false s')
    (hE : ¬(s.Roomy 0 ∧ s.openDids.Nonempty) → ∀ e : Halt, e.NoRoom → E e) :
    Exec.Wp (newEntry w addr k b) Q E s := by
  refine Exec.wp_bind.mpr (wp_blockAlloc_absent hw hs hmeta habsent (fun did s₁ h₁ => ?_) hE)
  have hcb : b ≠ did2Bid did := (hb.ne h₁.fresh).symm
  have hheld : s₁.spot b = s.spot b := by
    obtain ⟨n, _, hn, _, href, _⟩ := h.node
    refine h₁.settles.spot_of_held ?_ hn (by omega)
    simp only [Set.mem_union, Set.mem_singleton_iff, not_or]
    exact ⟨hcb, not_mem_bitmapBlocks hb.dataStart_le⟩
  rw [← hheld] at h
  have hc₀ : did2Bid did ≠ 0 := by
    have hle := dataStart_le_did2Bid did
    simp only [dataStart] at hle
    omega
  refine Exec.wp_bind.mpr (wp_dataStore_held h₁.ok h fun s₂ h₂ hcached₂ => ?_)
  rw [if_neg hc₀]
  refine Exec.wp_bind.mpr (wp_dataStore_held h₂.ok hcached₂ fun s₃ h₃ hcached₃ => ?_)
  refine Exec.wp_bind.mpr (wp_blockMakeDirty_held h₃.ok hcached₃ fun s₄ h₄ hcached₄ => ?_)
  exact hQ did s₁ s₄ h₁ ((h₂.trans h₃).trans h₄) hcached₄

end

end Efs
