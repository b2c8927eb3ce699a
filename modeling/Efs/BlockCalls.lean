import Efs.CachedBlocks

/-!
# The block cache by spots

What the calls on blocks do to the spots while no block is deleted, in a world where
nothing outside fails. A call changes the spot of its own block; every other spot stays
as it is, or is evicted while nobody holds the block.
-/

namespace Efs

open Library

/-- Every node of the block cache holds the block of its id. -/
structure Sys.BcacOk (s : Sys) : Prop where
  /-- Every id has one node. -/
  keyed : s.bcac.Keyed
  /-- The nodes hold their blocks. -/
  holds : ∀ bid n, s.bcac.node bid = some n → n.Holds bid

/-- Outside of the blocks `X`, each spot is as it was, or was evicted while nobody
held the block; `added` was loaded, and the rest did not change. -/
structure Settles (w : World) (X : Set ℕ) (added : List (ℕ × HashIdx)) (s s' : Sys) : Prop where
  /-- The spots outside of `X`. -/
  spot : ∀ bid, bid ∉ X → s'.spot bid = s.spot bid ∨
    (s.spot bid).Idle ∧ s'.spot bid = (s.spot bid).evict w bid
  /-- The blocks that were loaded. -/
  loads : s'.loads = added ++ s.loads
  /-- What is not in a spot. -/
  rest : s'.rest = s.rest

section

variable {w : World} {X Y : Set ℕ} {added added' : List (ℕ × HashIdx)} {s s₁ s' : Sys} {bid : ℕ}

/-- Nothing settles when nothing happens. -/
theorem Settles.refl (s : Sys) : Settles w X [] s s := ⟨fun _ _ => Or.inl rfl, rfl, rfl⟩

/-- A block is evicted once. -/
theorem Spot.evict_evict (l : Spot) : (l.evict w bid).evict w bid = l.evict w bid :=
  evict_of_node_eq_none node_evict

/-- What settles in two steps settles in both together. -/
theorem Settles.trans (h₁ : Settles w X added s s₁) (h₂ : Settles w Y added' s₁ s') :
    Settles w (X ∪ Y) (added' ++ added) s s' := by
  refine ⟨fun bid hbid => ?_, ?_, h₂.rest.trans h₁.rest⟩
  · simp only [Set.mem_union, not_or] at hbid
    rcases h₁.spot bid hbid.1 with h | ⟨hidle, h⟩
    · rcases h₂.spot bid hbid.2 with h' | ⟨hidle', h'⟩
      · exact Or.inl (h'.trans h)
      · rw [h] at hidle' h'
        exact Or.inr ⟨hidle', h'⟩
    · rcases h₂.spot bid hbid.2 with h' | ⟨_, h'⟩
      · exact Or.inr ⟨hidle, h'.trans h⟩
      · rw [h, Spot.evict_evict] at h'
        exact Or.inr ⟨hidle, h'⟩
  · rw [h₂.loads, h₁.loads, List.append_assoc]

/-- More blocks may settle than do. -/
theorem Settles.mono (h : Settles w X added s s') (hXY : X ⊆ Y) : Settles w Y added s s' :=
  ⟨fun bid hbid => h.spot bid fun hX => hbid (hXY hX), h.loads, h.rest⟩

/-- A block that somebody holds stays as it is. -/
theorem Settles.spot_of_held (h : Settles w X added s s') (hbid : bid ∉ X) {n : Node Block}
    (hn : (s.spot bid).node = some n) (href : n.refcnt ≠ 0) : s'.spot bid = s.spot bid :=
  (h.spot bid hbid).resolve_right fun hidle => href (hidle.1 n hn)

/-- A block that is not cached stays as it is. -/
theorem Settles.spot_of_absent (h : Settles w X added s s') (hbid : bid ∉ X)
    (hn : (s.spot bid).node = none) : s'.spot bid = s.spot bid := by
  rcases h.spot bid hbid with h | ⟨_, h⟩
  · exact h
  · rw [h, Spot.evict_of_node_eq_none hn]

/-- Of the blocks of a call only those that it changed may be held after it. -/
theorem Settles.holdsWithin (h : Settles w X added s s') : HoldsWithin X s s' := by
  intro b href
  by_cases hb : b ∈ X
  · exact Or.inr hb
  · refine Or.inl ?_
    rcases h.spot b hb with heq | ⟨_, heq⟩
    · rwa [heq] at href
    · rw [heq, Spot.refs_eq_zero Spot.node_evict] at href
      exact absurd rfl href

/-- What settles leaves the inode cache. -/
theorem Settles.icac_eq (h : Settles w X added s s') : s'.icac = s.icac :=
  congrArg (fun r => r.1) h.rest

/-- What settles leaves the inode bitmap. -/
theorem Settles.ibm_eq (h : Settles w X added s s') : s'.ibm = s.ibm :=
  congrArg (fun r => r.2.1) h.rest

/-- What settles leaves the key of the superblock. -/
theorem Settles.sbKey_eq (h : Settles w X added s s') : s'.sb.aesKey = s.sb.aesKey :=
  congrArg (fun r => r.2.2.1) h.rest

/-- What settles leaves the iv of the superblock. -/
theorem Settles.sbIv_eq (h : Settles w X added s s') : s'.sb.aesIv = s.sb.aesIv :=
  congrArg (fun r => r.2.2.2.1) h.rest

/-! ## Caches without deleted blocks -/

/-- A good block cache is safe. -/
theorem Sys.BcacOk.safe (hs : s.BcacOk) : s.BcacSafe :=
  ⟨hs.keyed, fun bid n hn => Or.inl (hs.holds bid n hn)⟩

/-- A good block cache holds no deleted block. -/
theorem Sys.BcacOk.not_deleted (hs : s.BcacOk) (bid : ℕ) : (s.spot bid).deleted = false := by
  cases hn : (s.spot bid).node with
  | none => simp [Spot.deleted, hn]
  | some n => simp [Spot.deleted, hn, (hs.holds bid n hn).deleted_eq]

/-- Nothing but evictions happens to the other spots. -/
theorem Fades.settles (h : Fades w X added s s') (hs : s.BcacOk) : Settles w X added s s' :=
  ⟨fun bid hbid => by
    rw [← Spot.discard_of_not_deleted (hs.not_deleted bid)]
    exact h.spot bid hbid, h.loads, h.rest⟩

/-- The nodes hold their blocks after a call when those that it changed do. -/
theorem Fades.bcacOk (h : Fades w X added s s') (hs : s.BcacOk) (hkeyed : s'.bcac.Keyed)
    (hX : ∀ bid ∈ X, ∀ n, s'.bcac.node bid = some n → n.Holds bid) : s'.BcacOk := by
  refine ⟨hkeyed, fun bid n hn => ?_⟩
  by_cases hbid : bid ∈ X
  · exact hX bid hbid n hn
  · exact hs.holds bid n (h.node_eq hbid hn)

/-- A block cache with some of the nodes of a good one is good. -/
theorem Sys.BcacOk.of_node (hs : s.BcacOk) (hkeyed : s'.bcac.Keyed)
    (hnode : ∀ b n, s'.bcac.node b = some n → s.bcac.node b = some n) : s'.BcacOk :=
  ⟨hkeyed, fun b n hn => hs.holds b n (hnode b n hn)⟩

end

/-! ## Loads of a superblock -/

section

variable {w : World} {E : Halt → Prop} {s s' : Sys} {bid : ℕ}

/-- The rule for `bget_from_cache_lock` of a superblock, as for a hole of a file. -/
theorem wp_bgetFromCacheLock_superblock (hw : w.Reliable) (hs : s.BcacOk)
    (hbid : bid < inodeBitmapStart) {hashidx : HashIdx} {iv key : Key128}
    {expHash : Option Key256} {Q : Option ℕ → Sys → Prop}
    (hE : E (.panic .superblockRead)) :
    Exec.Wp (bgetFromCacheLock w bid hashidx iv key expHash) Q E s := by
  have hn : (s.spot bid).node = none := by
    cases hn : (s.spot bid).node with
    | none => rfl
    | some n =>
      have hle := (hs.holds bid n hn).inodeStart_le
      simp only [inodeStart, inodeBitmapStart] at hle hbid
      omega
  refine Exec.wp_bind.mpr (wp_cacheTryGet_none hs.keyed hn ?_)
  simp only [Exec.wp_bind, hbid, if_true]
  refine wp_cacheInsertGet_safe hw hs.safe hn (fun _ _ => ?_) fun _ _ _ _ _ => ?_
  · simp [hw.panicReturns_eq, hE]
  · simp [hw.panicReturns_eq, hE]

end

end Efs
