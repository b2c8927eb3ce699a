import Efs.BlockSpot
import Efs.CacheView
import Efs.SysCalls

/-!
# The nodes of the block cache

What the calls of the cache do to the spots of blocks, in a world where nothing outside
fails. A node holds the block of its id, or is that of a deleted data block. A call
changes the spot of its own block; every other spot stays as it is, or loses its node
while nobody holds the block.
-/

namespace Efs

open Library

/-- A node of the block cache that is not deleted and holds the block of its id. -/
structure Node.Holds (n : Node Block) (bid : ℕ) : Prop where
  /-- The superblock and the inode bitmap are not cached. -/
  inodeStart_le : inodeStart ≤ bid
  /-- The node is not deleted. -/
  deleted_eq : n.deleted = false
  /-- The content is a block of the type that its number asks for. -/
  content : ∃ block, n.content = some block ∧ block.type = blockType bid ∧ block.bid = bid

/-- A node that can be freed: it holds its block, or is that of a deleted data block. -/
def Node.Freeable (n : Node Block) (bid : ℕ) : Prop :=
  n.Holds bid ∨ dataStart ≤ bid ∧ n.deleted = true

/-- Every node of the block cache can be freed. -/
structure Sys.BcacSafe (s : Sys) : Prop where
  /-- Every id has one node. -/
  keyed : s.bcac.Keyed
  /-- The nodes can be freed. -/
  freeable : ∀ bid n, s.bcac.node bid = some n → n.Freeable bid

namespace Spot

/-- Nobody holds the block. -/
def Idle (l : Spot) : Prop := ∀ n ∈ l.node, n.refcnt = 0

/-- The references to the cached copy. -/
def refs (l : Spot) : ℕ := (l.node.map (·.refcnt)).getD 0

/-- The cached copy is deleted. -/
def deleted (l : Spot) : Bool := l.node.any (·.deleted)

/-- The spot after its node was freed: a deleted block is not written back. -/
def discard (w : World) (bid : ℕ) (l : Spot) : Spot :=
  if l.deleted then { l with node := none, pending := none } else l.evict w bid

section

variable {w : World} {bid : ℕ} {l : Spot}

/-- A node that is not deleted is discarded as it is evicted. -/
theorem discard_of_not_deleted (h : l.deleted = false) : l.discard w bid = l.evict w bid := by
  simp [discard, h]

/-- A discarded block is not cached. -/
@[simp] theorem node_discard : (l.discard w bid).node = none := by
  unfold discard
  split_ifs
  · rfl
  · exact node_evict

/-- Evicting a block that is not cached changes nothing. -/
theorem evict_of_node_eq_none (h : l.node = none) : l.evict w bid = l := by
  have hclean : l.dirty = false := by simp [dirty, h]
  rw [evict_of_clean hclean, ← h]

/-- A block that is not cached is not discarded. -/
theorem discard_of_node_eq_none (h : l.node = none) : l.discard w bid = l := by
  rw [discard_of_not_deleted (by simp [deleted, h]), evict_of_node_eq_none h]

/-- A block is discarded once. -/
theorem discard_discard (l : Spot) : (l.discard w bid).discard w bid = l.discard w bid :=
  discard_of_node_eq_none node_discard

/-- A block that is not cached has no references. -/
theorem refs_eq_zero (h : l.node = none) : l.refs = 0 := by simp [refs, h]

/-- An idle block has no references. -/
theorem Idle.refs_eq (h : l.Idle) : l.refs = 0 := by
  cases hn : l.node with
  | none => exact refs_eq_zero hn
  | some n => simp [refs, hn, h n hn]

end

end Spot

/-- What the calls on blocks and on the data bitmap leave alone. -/
def Sys.rest (s : Sys) :
    Cache Inode × InodeBitmap × (ℕ → Key128) × (ℕ → Key128) × ℕ × ℕ × ℕ :=
  (s.icac, s.ibm, s.sb.aesKey, s.sb.aesIv, s.keys, s.sb.magic, s.sb.rootinode)

/-- Outside of the blocks `X`, each spot is as it was, or its node was freed while nobody
held the block; `added` was loaded, and the rest did not change. -/
structure Fades (w : World) (X : Set ℕ) (added : List (ℕ × HashIdx)) (s s' : Sys) : Prop where
  /-- The spots outside of `X`. -/
  spot : ∀ bid, bid ∉ X → s'.spot bid = s.spot bid ∨
    (s.spot bid).Idle ∧ s'.spot bid = (s.spot bid).discard w bid
  /-- The blocks that were loaded. -/
  loads : s'.loads = added ++ s.loads
  /-- What is not in a spot. -/
  rest : s'.rest = s.rest

/-- No queue of the block cache would be full of held blocks, were `n` more of them held. -/
def Sys.Roomy (n : ℕ) (s : Sys) : Prop := s.bcac.Roomy n

/-- Nobody holds a block that nobody held before, but for those in `X`. -/
def HoldsWithin (X : Set ℕ) (s s' : Sys) : Prop :=
  ∀ bid, (s'.spot bid).refs ≠ 0 → (s.spot bid).refs ≠ 0 ∨ bid ∈ X

section

variable {w : World} {X Y : Set ℕ} {added added' : List (ℕ × HashIdx)} {s s₁ s' : Sys} {bid : ℕ}

/-- Nothing fades when nothing happens. -/
theorem Fades.refl (s : Sys) : Fades w X [] s s := ⟨fun _ _ => Or.inl rfl, rfl, rfl⟩

/-- What fades in two steps fades in both together. -/
theorem Fades.trans (h₁ : Fades w X added s s₁) (h₂ : Fades w Y added' s₁ s') :
    Fades w (X ∪ Y) (added' ++ added) s s' := by
  refine ⟨fun bid hbid => ?_, ?_, h₂.rest.trans h₁.rest⟩
  · simp only [Set.mem_union, not_or] at hbid
    rcases h₁.spot bid hbid.1 with h | ⟨hidle, h⟩
    · rcases h₂.spot bid hbid.2 with h' | ⟨hidle', h'⟩
      · exact Or.inl (h'.trans h)
      · rw [h] at hidle' h'
        exact Or.inr ⟨hidle', h'⟩
    · rcases h₂.spot bid hbid.2 with h' | ⟨_, h'⟩
      · exact Or.inr ⟨hidle, h'.trans h⟩
      · rw [h, Spot.discard_discard] at h'
        exact Or.inr ⟨hidle, h'⟩
  · rw [h₂.loads, h₁.loads, List.append_assoc]

/-- More blocks may change than do. -/
theorem Fades.mono (h : Fades w X added s s') (hXY : X ⊆ Y) : Fades w Y added s s' :=
  ⟨fun bid hbid => h.spot bid fun hX => hbid (hXY hX), h.loads, h.rest⟩

/-- States with the same spots and the same rest. -/
theorem Fades.of_spot_eq (hspot : ∀ bid, s'.spot bid = s.spot bid) (hloads : s'.loads = s.loads)
    (hrest : s'.rest = s.rest) : Fades w ∅ [] s s' :=
  ⟨fun bid _ => Or.inl (hspot bid), hloads, hrest⟩

/-- A block that somebody holds stays as it is. -/
theorem Fades.spot_of_held (h : Fades w X added s s') (hbid : bid ∉ X)
    (href : (s.spot bid).refs ≠ 0) : s'.spot bid = s.spot bid :=
  (h.spot bid hbid).resolve_right fun hidle => href hidle.1.refs_eq

/-- A node that is there after a call was there before it. -/
theorem Fades.node_eq (h : Fades w X added s s') (hbid : bid ∉ X) {n : Node Block}
    (hn : s'.bcac.node bid = some n) : s.bcac.node bid = some n := by
  have hn' : (s'.spot bid).node = some n := hn
  rcases h.spot bid hbid with heq | ⟨_, heq⟩
  · rwa [heq] at hn'
  · rw [heq, Spot.node_discard] at hn'
    cases hn'

/-- The nodes can be freed after a call when those that it changed can be. -/
theorem Fades.bcacSafe (h : Fades w X added s s') (hs : s.BcacSafe) (hkeyed : s'.bcac.Keyed)
    (hX : ∀ bid ∈ X, ∀ n, s'.bcac.node bid = some n → n.Freeable bid) : s'.BcacSafe := by
  refine ⟨hkeyed, fun bid n hn => ?_⟩
  by_cases hbid : bid ∈ X
  · exact hX bid hbid n hn
  · exact hs.freeable bid n (h.node_eq hbid hn)

/-- Nobody holds a block that nobody held before. -/
theorem Fades.refs_ne (h : Fades w X added s s') (hbid : bid ∉ X) (href : (s'.spot bid).refs ≠ 0) :
    (s.spot bid).refs ≠ 0 := by
  rcases h.spot bid hbid with heq | ⟨_, heq⟩
  · rwa [heq] at href
  · rw [heq, Spot.refs_eq_zero Spot.node_discard] at href
    exact absurd rfl href

/-- A state that references no more blocks has as much room. -/
theorem Sys.Roomy.of_refs {n : ℕ} (h : s.Roomy n)
    (hrefs : ∀ bid, (s'.spot bid).refs ≠ 0 → (s.spot bid).refs ≠ 0) : s'.Roomy n :=
  Cache.Roomy.of_refs h hrefs

/-- One more block is held. -/
theorem Sys.Roomy.take {n : ℕ} (h : s.Roomy (n + 1))
    (hrefs : ∀ b ≠ bid, (s'.spot b).refs ≠ 0 → (s.spot b).refs ≠ 0) : s'.Roomy n :=
  Cache.Roomy.take h hrefs

/-- A state with room for some nodes has room for fewer. -/
theorem Sys.Roomy.mono {m n : ℕ} (h : s.Roomy n) (hmn : m ≤ n) : s.Roomy m := Cache.Roomy.mono h hmn

/-- No reference appears when nothing happens. -/
theorem HoldsWithin.refl (X : Set ℕ) (s : Sys) : HoldsWithin X s s := fun _ href => Or.inl href

/-- References that appear in two steps are of the blocks of either. -/
theorem HoldsWithin.trans (h₁ : HoldsWithin X s s₁) (h₂ : HoldsWithin Y s₁ s') :
    HoldsWithin (X ∪ Y) s s' := by
  intro b href
  rcases h₂ b href with href₁ | hb
  · exact (h₁ b href₁).imp_right fun hb => Or.inl hb
  · exact Or.inr (Or.inr hb)

/-- References of some blocks are references of more. -/
theorem HoldsWithin.mono (h : HoldsWithin X s s') (hXY : X ⊆ Y) : HoldsWithin Y s s' :=
  fun b href => (h b href).imp_right fun hb => hXY hb

/-- Two calls that leave nothing held. -/
theorem HoldsWithin.comp (h₁ : HoldsWithin ∅ s s₁) (h₂ : HoldsWithin ∅ s₁ s') :
    HoldsWithin ∅ s s' := (h₁.trans h₂).mono (by simp)

/-- The one block that a call held was given back. -/
theorem HoldsWithin.drop (h : HoldsWithin {bid} s s')
    (hrefs : (s'.spot bid).refs ≠ 0 → (s.spot bid).refs ≠ 0) : HoldsWithin ∅ s s' := by
  intro b href
  rcases h b href with hheld | rfl
  · exact Or.inl hheld
  · exact Or.inl (hrefs href)

/-- The blocks are held as often as before. -/
theorem HoldsWithin.of_refs (h : ∀ b, (s'.spot b).refs = (s.spot b).refs) : HoldsWithin ∅ s s' :=
  fun b href => Or.inl (h b ▸ href)

/-- No block is held that was not. -/
theorem HoldsWithin.roomy {n : ℕ} (h : HoldsWithin ∅ s s') (hroom : s.Roomy n) : s'.Roomy n :=
  hroom.of_refs fun b href => (h b href).resolve_right (Set.notMem_empty b)

/-- At most one more block is held. -/
theorem HoldsWithin.roomy_of_one {n : ℕ} (h : HoldsWithin {bid} s s') (hroom : s.Roomy (n + 1)) :
    s'.Roomy n :=
  hroom.take fun b hb href => (h b href).resolve_right hb

/-- Of the blocks of a call only those that it changed may be held after it. -/
theorem Fades.holdsWithin (h : Fades w X added s s') : HoldsWithin X s s' := by
  intro b href
  by_cases hb : b ∈ X
  · exact Or.inr hb
  · exact Or.inl (h.refs_ne hb href)

/-- A cache with room admits every block. -/
theorem Sys.Roomy.admits (h : s.Roomy 0) (hkeyed : s.bcac.Keyed) : s.bcac.Admits bid :=
  hkeyed.admits (Cache.Roomy.not_crowded h hkeyed) bid

end

/-! ## Freeing a node -/

section

variable {w : World} {E : Halt → Prop} {s s' : Sys} {bid : ℕ}

/-- The block cache is a part of the state. -/
theorem bcacOf_lawful : (bcacOf w).Lawful := ⟨fun _ _ => rfl, fun _ _ _ => rfl, fun _ => rfl⟩

/-- The spot of a block in a state with another cache. -/
theorem spot_set (c : Cache Block) (bid : ℕ) :
    ((bcacOf w).set c s).spot bid = { s.spot bid with node := c.node bid } := rfl

/-- The end of a write back: the ciphertext is on the disk. -/
theorem wp_writeBack (hw : w.NoFailure) {block : Block} {Q : Bool → Sys → Prop}
    (hQ : ∀ calls, Q false
      { s with
        disk :=
          Function.update s.disk bid (w.encrypt block.aesIv block.aesKey block.data)
        evicted := Function.update s.evicted bid block.data
        calls }) :
    Exec.Wp (writeBack w block bid) Q E s :=
  Exec.wp_bind.mpr <| wp_aes128BlockEncrypt hw fun _ =>
    Exec.wp_bind.mpr <| wp_diskWrite hw hQ

/-- A metadata block holds inodes or a bitmap. -/
theorem blockType_of_lt (h : bid < dataStart) :
    blockType bid = .inode ∨ blockType bid = .bitmap := by
  unfold blockType
  by_cases hb : bid < bitmapStart
  · exact Or.inl (if_pos hb)
  · exact Or.inr (by rw [if_neg hb, if_pos h])

/-- The other blocks hold data. -/
theorem blockType_of_le (h : dataStart ≤ bid) : blockType bid = .data := by
  have hb : ¬bid < bitmapStart := fun hlt => Nat.not_lt.mpr h (hlt.trans (by decide))
  rw [blockType, if_neg hb, if_neg (Nat.not_lt.mpr h)]

/-- The callback on an evicted node that holds its block: the spot is evicted. -/
theorem wp_bcacheCbWrite (hw : w.Honest) {n : Node Block} (hn : n.Holds bid)
    {Q : Bool → Sys → Prop}
    (hQ : ∀ s', s'.bcac = s.bcac → s'.rest = s.rest → s'.loads = s.loads →
      s'.spot bid = { ({ s.spot bid with node := some n } : Spot).evict w bid with
        node := s.bcac.node bid } →
      (∀ b ≠ bid, s'.spot b = s.spot b) → Q false s') :
    Exec.Wp (bcacheCbWrite w n.content bid n.dirty n.deleted) Q E s := by
  obtain ⟨block, hcontent, htype, _⟩ := hn.content
  have hstart : ¬bid < inodeStart := Nat.not_lt.mpr hn.inodeStart_le
  have hstart' : ¬bid < inodeBitmapStart := fun h => hstart (h.trans (by decide))
  cases hdirty : n.dirty with
  | false =>
    simp only [bcacheCbWrite, hn.deleted_eq, Bool.false_eq_true, if_false, Bool.not_false, if_true,
      Exec.wp_pure]
    refine hQ s rfl rfl rfl ?_ fun _ _ => rfl
    rw [Spot.evict_of_clean (by simp [Spot.dirty, hdirty])]
    rfl
  | true =>
    have hevict : ({ s.spot bid with node := some n } : Spot).evict w bid =
        { node := none
          evicted := block.data
          pending :=
            if bid < dataStart then s.pdWb.find bid
            else some ⟨((s.pdWb.find bid).map (·.hashidx)).getD block.hashidx,
              w.sha256 block.data⟩
          disk := w.encrypt block.aesIv block.aesKey block.data
          sbHash := if bid < dataStart then w.sha256 block.data else s.sb.hash bid } :=
      Spot.evict_of_dirty (by simp [Spot.block, hcontent]) (by simp [Spot.dirty, hdirty])
    rw [hevict] at hQ
    simp only [bcacheCbWrite, hn.deleted_eq, hcontent, Bool.false_eq_true, if_false, Bool.not_true,
      hstart, hstart']
    by_cases hdata : bid < dataStart
    · have hmeta : ¬(block.type ≠ .inode ∧ block.type ≠ .bitmap) := by
        rw [htype]
        rcases blockType_of_lt hdata with h | h <;> simp [h]
      simp only [hdata, if_true] at hQ ⊢
      simp only [writeBackMetadata, hmeta, if_false, Exec.wp_bind]
      refine wp_sha256Block hw.fails_eq fun _ => ?_
      simp only [Exec.wp_bind, Exec.wp_update]
      refine wp_writeBack hw.fails_eq fun _ => hQ _ rfl rfl rfl ?_ fun b hb => ?_
      · simp [Sys.spot]
      · simp [Sys.spot, hb]
    · have htype' : ¬block.type ≠ .data := by
        simp [htype, blockType_of_le (Nat.not_lt.mp hdata)]
      simp only [hdata, if_false] at hQ ⊢
      simp only [writeBackData, htype', if_false, Exec.wp_bind]
      refine wp_sha256Block hw.fails_eq fun _ => ?_
      simp only [pdWbFind, pdWbInsert, Exec.wp_bind, Exec.wp_read]
      cases hfind : s.pdWb.find bid with
      | none =>
        refine wp_writeBack hw.fails_eq fun _ => hQ _ rfl rfl rfl ?_ fun b hb => ?_
        · simp [Sys.spot, hfind]
        · simp [Sys.spot, hb, Ne.symm hb]
      | some pending =>
        refine wp_writeBack hw.fails_eq fun _ => hQ _ rfl rfl rfl ?_ fun b hb => ?_
        · simp [Sys.spot, hfind]
        · simp [Sys.spot, hb, Ne.symm hb]

/-- The callback on a deleted node: the pending hash of the block is dropped. -/
theorem wp_bcacheCbWrite_deleted {n : Node Block} (hn : n.deleted = true) {Q : Bool → Sys → Prop}
    (hQ : ∀ s', s'.bcac = s.bcac → s'.rest = s.rest → s'.loads = s.loads →
      s'.spot bid = { s.spot bid with pending := none } →
      (∀ b ≠ bid, s'.spot b = s.spot b) → Q false s') :
    Exec.Wp (bcacheCbWrite w n.content bid n.dirty n.deleted) Q E s := by
  simp only [bcacheCbWrite, hn, if_true, pdWbDelete, pdWbFind, Exec.wp_bind, Exec.wp_read,
    Exec.wp_update, Exec.wp_pure]
  refine hQ _ rfl rfl rfl ?_ fun b hb => ?_
  · simp [Sys.spot]
  · simp [Sys.spot, Ne.symm hb]

/-- The statement `node_free` on a node that can be freed. -/
theorem wp_freeEvicted_bcac (hw : w.Honest) {n : Node Block} (hn : n.Freeable n.id)
    (habsent : s.bcac.node n.id = none) {Q : Unit → Sys → Prop}
    (hQ : ∀ s', s'.bcac = s.bcac → s'.rest = s.rest → s'.loads = s.loads →
      s'.spot n.id = ({ s.spot n.id with node := some n } : Spot).discard w n.id →
      (∀ b ≠ n.id, s'.spot b = s.spot b) → Q () s') :
    Exec.Wp (freeEvicted w (bcacOf w) (some n)) Q E s := by
  simp only [freeEvicted, nodeFree, Exec.wp_bind]
  have hdeleted : ({ s.spot n.id with node := some n } : Spot).deleted = n.deleted := rfl
  rcases hn with hn | ⟨_, hn⟩
  · rw [Spot.discard_of_not_deleted (hdeleted.trans hn.deleted_eq)] at hQ
    refine wp_bcacheCbWrite hw hn fun s' hbcac hrest hloads hspot hother => ?_
    simp only [Exec.wp_when, Exec.wp_pure, Bool.false_eq_true, not_false_eq_true, forall_const,
      IsEmpty.forall_iff, true_and]
    refine hQ s' hbcac hrest hloads ?_ hother
    rw [hspot, habsent, ← (Spot.node_evict :
      (({ s.spot n.id with node := some n } : Spot).evict w n.id).node = none)]
  · refine wp_bcacheCbWrite_deleted hn fun s' hbcac hrest hloads hspot hother => ?_
    simp only [Exec.wp_when, Exec.wp_pure, Bool.false_eq_true, not_false_eq_true, forall_const,
      IsEmpty.forall_iff, true_and]
    refine hQ s' hbcac hrest hloads ?_ hother
    rw [hspot, Spot.discard, if_pos (hdeleted.trans hn)]
    have hnode : (s.spot n.id).node = none := habsent
    rw [← hnode]

/-! ## Lookups and stores -/

/-- The rule for a lookup in the block cache: the spot looked up stays. -/
theorem wp_cacheFind_safe (hw : w.Honest) (hs : s.BcacSafe) {access : Bool}
    {Q : Option (Node Block) → Sys → Prop}
    (hQ : ∀ s', s'.BcacSafe → Fades w ∅ [] s s' → s'.spot bid = s.spot bid →
      Q (s.spot bid).node s')
    (hE : access = true → (s.bcac.find bid true).lost = true → E .nodeLost) :
    Exec.Wp (cacheFind w (bcacOf w) bid access) Q E s := by
  have hsafe : ∀ {s'}, s'.bcac.Keyed → Fades w ∅ [] s s' → s'.BcacSafe := fun hkeyed hfades =>
    hfades.bcacSafe hs hkeyed fun _ hmem => absurd hmem (Set.notMem_empty _)
  refine wp_cacheFind_map bcacOf_lawful hs.keyed ?_ ?_ ?_ ?_ (fun _ => rfl)
  · intro hnone
    have hnode : (s.spot bid).node = none := hnone
    rw [← hnode]
    exact hQ s hs (.refl s) rfl
  · intro c n hn hc hmap _
    have hnode : (s.spot bid).node = some n := hn
    have hspot : ∀ b, ((bcacOf w).set c s).spot b = s.spot b := fun b => by
      rw [spot_set, hmap]
      rfl
    rw [← hnode]
    have hfades : Fades w ∅ [] s ((bcacOf w).set c s) := .of_spot_eq hspot rfl rfl
    exact hQ _ (hsafe hc hfades) hfades (hspot _)
  · intro c n d hn hne hzero hd hc hmap _
    have hnode : (s.spot bid).node = some n := hn
    have hgone : c.node d.id = none := by rw [hmap, Function.update_self]
    refine wp_freeEvicted_bcac hw (hs.freeable _ _ hd) hgone ?_
    intro s' hbcac hrest hloads hspot hother
    have hdiscard : s'.spot d.id = (s.spot d.id).discard w d.id := by
      rw [hspot, spot_set, ← show s.bcac.node d.id = some d from hd]
      rfl
    have hstay : ∀ b ≠ d.id, s'.spot b = s.spot b := fun b hb => by
      rw [hother b hb, spot_set, hmap, Function.update_of_ne hb]
      rfl
    have hfades : Fades w ∅ [] s s' := by
      refine ⟨fun b _ => ?_, hloads, hrest⟩
      by_cases hb : b = d.id
      · subst hb
        refine Or.inr ⟨fun m hm => ?_, hdiscard⟩
        obtain rfl := Option.some.inj (hd.symm.trans hm)
        exact hzero
      · exact Or.inl (hstay b hb)
    rw [← hnode]
    exact hQ s' (hsafe (hbcac ▸ hc) hfades) hfades (hstay _ (Ne.symm hne))
  · rintro rfl hlost _
    exact hE rfl hlost

/-- The spot with the node changed. -/
def Spot.mapNode (f : Node Block → Node Block) (l : Spot) : Spot := { l with node := l.node.map f }

/-- The node of a block changed, and nothing else. -/
structure Alters (bid : ℕ) (f : Node Block → Node Block) (s s' : Sys) : Prop where
  /-- The nodes can be freed. -/
  safe : s'.BcacSafe
  /-- The other spots are the same. -/
  other : ∀ b ≠ bid, s'.spot b = s.spot b
  /-- No block was loaded. -/
  loads : s'.loads = s.loads
  /-- What is not in a spot is the same. -/
  rest : s'.rest = s.rest
  /-- The node is changed. -/
  spot_eq : s'.spot bid = (s.spot bid).mapNode f
  /-- The search hint of the data bitmap is the same. -/
  hint : s'.dbmFirstEmptyWord = s.dbmFirstEmptyWord

/-- Two changes of a node are one. -/
theorem Alters.trans {f g : Node Block → Node Block} {s₁ : Sys} (h₁ : Alters bid f s s₁)
    (h₂ : Alters bid g s₁ s') : Alters bid (g ∘ f) s s' := by
  refine ⟨h₂.safe, fun b hb => (h₂.other b hb).trans (h₁.other b hb), h₂.loads.trans h₁.loads,
    h₂.rest.trans h₁.rest, ?_, h₂.hint.trans h₁.hint⟩
  rw [h₂.spot_eq, h₁.spot_eq]
  simp only [Spot.mapNode, Option.map_map]

/-- A change of one node lets no other block change. -/
theorem Alters.fades {f : Node Block → Node Block} (h : Alters bid f s s') :
    Fades w {bid} [] s s' :=
  ⟨fun b hb => Or.inl (h.other b hb), h.loads, h.rest⟩

/-- The changed node is in the place of the old one. -/
theorem Alters.node {f : Node Block → Node Block} (h : Alters bid f s s') {n : Node Block}
    (hn : (s.spot bid).node = some n) : (s'.spot bid).node = some (f n) := by
  rw [h.spot_eq, Spot.mapNode, hn]
  rfl

/-- The rule for a store into the node of a block. -/
theorem wp_nodeStore_safe (hs : s.BcacSafe) {n : Node Block} (hn : (s.spot bid).node = some n)
    {f : Node Block → Node Block} (hf : ∀ m, (f m).id = m.id ∧ (f m).addr = m.addr)
    (hfree : (f n).Freeable bid) {Q : Unit → Sys → Prop}
    (hQ : ∀ s', Alters bid f s s' → Q () s') :
    Exec.Wp (nodeStore (bcacOf w) n.addr f) Q E s := by
  refine wp_nodeStore_map (k := bcacOf w) hs.keyed hn hf ?_
  intro c hc hmap
  have hself : c.node bid = some (f n) := by rw [hmap, Function.update_self]
  have hother : ∀ b ≠ bid, ((bcacOf w).set c s).spot b = s.spot b := fun b hb => by
    rw [spot_set, hmap, Function.update_of_ne hb]
    rfl
  have hfades : Fades w {bid} [] s ((bcacOf w).set c s) :=
    ⟨fun b hb => Or.inl (hother b hb), rfl, rfl⟩
  refine hQ _ ⟨hfades.bcacSafe hs hc ?_, hother, rfl, rfl, ?_, rfl⟩
  · rintro b rfl m hm
    obtain rfl := Option.some.inj (hself.symm.trans hm)
    exact hfree
  · rw [spot_set, hself, Spot.mapNode, hn]
    rfl

/-- A store that leaves alone what a node holds and whether it is deleted. -/
theorem Node.Freeable.of_eq {n m : Node Block} (h : n.Freeable bid)
    (hsame : m.deleted = n.deleted ∧ m.content = n.content) : m.Freeable bid := by
  rcases h with ⟨hle, hdeleted, hcontent⟩ | ⟨hle, hdeleted⟩
  · exact Or.inl ⟨hle, hsame.1.trans hdeleted, hsame.2 ▸ hcontent⟩
  · exact Or.inr ⟨hle, hsame.1.trans hdeleted⟩

/-- What `cache_make_dirty` does to a node. -/
def Node.markDirty (n : Node Block) : Node Block := { n with dirty := true }

/-- What `cache_try_get` with a lock does to a node. -/
def Node.take (n : Node Block) : Node Block := { n with refcnt := n.refcnt + 1, locked := true }

/-- What `cache_unlock_return` does to a referenced node. -/
def Node.giveBack (n : Node Block) : Node Block :=
    { n with refcnt := n.refcnt - 1, locked := false }

/-- What a store into the data of a block does to its node. -/
def Node.mapData (f : Data → Data) (n : Node Block) : Node Block :=
  { n with content := n.content.map fun block => { block with data := f block.data } }

/-- A node holds its block whatever its data. -/
theorem Node.Holds.mapData {n : Node Block} (h : n.Holds bid) (f : Data → Data) :
    (n.mapData f).Holds bid := by
  obtain ⟨block, hcontent, htype, hbid⟩ := h.content
  exact ⟨h.inodeStart_le, h.deleted_eq, { block with data := f block.data },
    by simp [Node.mapData, hcontent], htype, hbid⟩

/-! ## Loads -/

/-- The rule for `cache_try_get` with the lock on a block that is not cached. -/
theorem wp_cacheTryGet_none (hk : s.bcac.Keyed) (hn : (s.spot bid).node = none)
    {Q : Option ℕ → Sys → Prop} (hQ : Q none s) :
    Exec.Wp (cacheTryGet w (bcacOf w) bid true true) Q E s := by
  refine Exec.wp_bind.mpr (wp_cacheFind_map bcacOf_lawful hk (fun _ => hQ) ?_ ?_ ?_ fun _ => rfl)
  · intro c n hnode
    cases hn.symm.trans hnode
  · intro c n d hnode
    cases hn.symm.trans hnode
  · intro _ hlost
    have hfind : ((bcacOf w).get s).find bid true = _ := hk.find_of_none hn
    rw [hfind] at hlost
    cases hlost

/-- The rule for `cache_try_get` with the lock on a cached block that is not locked. -/
theorem wp_cacheTryGet_some (hw : w.Honest) (hs : s.BcacSafe) {n : Node Block} {block : Block}
    (hn : (s.spot bid).node = some n) (hlock : n.locked = false) (hdeleted : n.deleted = false)
    (hcontent : n.content = some block) {Q : Option ℕ → Sys → Prop}
    (hQ : ∀ s', s'.BcacSafe → Fades w {bid} [] s s' →
      s'.spot bid = { s.spot bid with node := some n.take } → Q (some n.addr) s')
    (hE : ¬s.bcac.Admits bid → E .nodeLost) :
    Exec.Wp (cacheTryGet w (bcacOf w) bid true true) Q E s := by
  refine Exec.wp_bind.mpr (wp_cacheFind_safe hw hs ?_ fun _ hlost => hE fun hadmits => ?_)
  rotate_left
  · rw [hadmits.1] at hlost
    cases hlost
  intro s₁ hs₁ hfades hspot
  have hn₁ : (s₁.spot bid).node = some n := hspot ▸ hn
  have hfree := hs₁.freeable bid n hn₁
  simp only [hn, nodeLock, hlock, hdeleted, Exec.wp_bind, Exec.wp_when, Bool.false_eq_true,
    IsEmpty.forall_iff, not_false_eq_true, forall_const, true_and, if_false, Bool.not_true,
    Exec.wp_pure]
  refine wp_nodeStore_safe hs₁ hn₁ ?_ ?_ fun s₂ h₂ => ?_
  · exact fun _ => ⟨rfl, rfl⟩
  · exact hfree.of_eq ⟨rfl, rfl⟩
  refine wp_nodeStore_safe h₂.safe (h₂.node hn₁) ?_ ?_ fun s₃ h₃ => ?_
  · exact fun _ => ⟨rfl, rfl⟩
  · exact hfree.of_eq ⟨rfl, rfl⟩
  simp only [Node.pointer, hcontent, Option.map_some]
  have h := h₂.trans h₃
  refine hQ s₃ h.safe ((hfades.trans h.fades).mono (by simp)) ?_
  rw [h.spot_eq, hspot, Spot.mapNode, hn]
  rfl

/-- The data that `get_block_from_disk` gives. -/
def Spot.fetched (w : World) (l : Spot) (iv key : Key128) : Option Key256 → Data
  | none => Bytes.zero
  | some _ => w.decrypt iv key l.disk

/-- The rule for `get_block_from_disk`. -/
theorem wp_getBlockFromDisk (hw : w.Honest) {type : BlockType} {hashidx : HashIdx}
    {iv key : Key128} {expHash : Option Key256} {Q : Option Block → Sys → Prop}
    (hvalid : ∀ hash ∈ expHash, w.sha256 (w.decrypt iv key (s.disk bid)) = hash)
    (hQ : ∀ calls, Q (some ⟨type, bid, hashidx, iv, key, (s.spot bid).fetched w iv key expHash⟩)
      { s with calls }) :
    Exec.Wp (getBlockFromDisk w bid type hashidx iv key expHash) Q E s := by
  cases expHash with
  | none => exact hQ s.calls
  | some hash =>
    simp only [getBlockFromDisk, Exec.wp_bind]
    refine wp_diskRead hw.fails_eq fun _ => ?_
    refine Exec.wp_bind.mpr (wp_aes128BlockDecrypt hw.fails_eq fun _ => ?_)
    refine Exec.wp_bind.mpr (wp_sha256Validate hw.fails_eq fun _ => ?_)
    simp only [hvalid hash rfl, ne_eq, not_true_eq_false, decide_false, Bool.false_eq_true,
      if_false, Exec.wp_pure]
    exact hQ _

/-- The rule for an insertion of a block that is not cached: it gets a locked node
without content. -/
theorem wp_cacheInsertGet_safe (hw : w.Honest) (hs : s.BcacSafe) (hn : (s.spot bid).node = none)
    {Q : Option ℕ → Sys → Prop} (hnone : ∀ s', ¬s.bcac.fifo.HasRoom → Q none s')
    (hQ : ∀ addr s', s'.bcac.Keyed → Fades w {bid} [] s s' → s'.spot bid =
      { s.spot bid with node := some ⟨addr, bid, 1, false, false, none, true⟩ } →
        Q (some addr) s') :
    Exec.Wp (cacheInsertGet w (bcacOf w) bid true) Q E s := by
  refine wp_cacheInsertGet_map (k := bcacOf w) hs.keyed hn ?_ ?_ ?_
  · exact fun hroom => hnone _ hroom
  · intro c hc hmap
    have hself : c.node bid = some (s.bcac.newNode bid) := by
      rw [hmap, Function.update_self]
      rfl
    refine Exec.wp_when.mpr ⟨fun _ => ?_, by simp⟩
    refine Exec.wp_bind.mpr (Exec.wp_when.mpr ⟨fun h => by simp [Cache.newNode] at h, fun _ => ?_⟩)
    refine wp_nodeStore_map (k := bcacOf w) (s := (bcacOf w).set c s) hc hself ?_ ?_
    · exact fun _ => ⟨rfl, rfl⟩
    intro c' hc' hmap'
    refine hQ _ _ hc' ⟨fun b hb => Or.inl ?_, rfl, rfl⟩ ?_
    · have hb' : b ≠ bid := hb
      have hnode : c'.node b = s.bcac.node b := by
        rw [hmap', Function.update_of_ne hb', show ((bcacOf w).get ((bcacOf w).set c s)).node b =
          c.node b from rfl, hmap, Function.update_of_ne hb']
        rfl
      rw [spot_set, hnode]
      rfl
    · rw [spot_set, hmap', Function.update_self]
      rfl
  · intro c d hne hzero hd hc hmap
    have hgone : c.node d.id = none := by
      rw [hmap, Function.update_of_ne hne, Function.update_self]
    have hself : c.node bid = some (s.bcac.newNode bid) := by
      rw [hmap, Function.update_self]
      rfl
    have hother : ∀ b, b ≠ bid → b ≠ d.id → c.node b = s.bcac.node b := fun b hb hbd => by
      rw [hmap, Function.update_of_ne hb, Function.update_of_ne hbd]
      rfl
    refine wp_freeEvicted_bcac hw (hs.freeable _ _ hd) hgone ?_
    intro s₁ hbcac hrest hloads hspot hstay
    have hbcac' : s₁.bcac = c := hbcac
    refine Exec.wp_when.mpr ⟨fun _ => ?_, by simp⟩
    refine Exec.wp_bind.mpr (Exec.wp_when.mpr ⟨fun h => by simp [Cache.newNode] at h, fun _ => ?_⟩)
    have hkeyed₁ : s₁.bcac.Keyed := by rwa [hbcac']
    have hself₁ : s₁.bcac.node bid = some (s.bcac.newNode bid) := by rw [hbcac', hself]
    refine wp_nodeStore_map (k := bcacOf w) hkeyed₁ hself₁ ?_ ?_
    · exact fun _ => ⟨rfl, rfl⟩
    intro c' hc' hmap'
    have hnode' : ∀ b ≠ bid, c'.node b = c.node b := fun b hb => by
      rw [hmap', Function.update_of_ne hb, ← hbcac']
      rfl
    refine hQ _ _ hc' ⟨fun b hb => ?_, hloads, hrest⟩ ?_
    · by_cases hbd : b = d.id
      · subst hbd
        refine Or.inr ⟨fun m hm => ?_, ?_⟩
        · obtain rfl := Option.some.inj (hd.symm.trans hm)
          exact hzero
        · rw [spot_set, hnode' _ hne, hgone,
            ← (Spot.node_discard : ((s.spot d.id).discard w d.id).node = none), hspot, spot_set,
            ← show s.bcac.node d.id = some d from hd]
          rfl
      · refine Or.inl ?_
        rw [spot_set, hnode' b hb, hstay b hbd, spot_set, hother b hb hbd]
        rfl
    · rw [spot_set, hmap', Function.update_self, hstay bid (Ne.symm hne)]
      rfl

/-- What a load adds to the list of loads. -/
def loaded (bid : ℕ) (hashidx : HashIdx) : List (ℕ × HashIdx) :=
  if dataStart ≤ bid then [(bid, hashidx)] else []

/-- The rule for `bget_from_cache_lock` of a block that is not cached. -/
theorem wp_bgetFromCacheLock_none (hw : w.Honest) (hs : s.BcacSafe)
    (hn : (s.spot bid).node = none) (hbid : inodeStart ≤ bid) {hashidx : HashIdx}
    {iv key : Key128} {expHash : Option Key256} {Q : Option ℕ → Sys → Prop}
    (hvalid : ∀ hash ∈ expHash, w.sha256 (w.decrypt iv key (s.spot bid).disk) = hash)
    (hQ : ∀ addr s', s'.BcacSafe → Fades w {bid} (loaded bid hashidx) s s' →
      s'.spot bid =
        { s.spot bid with
          node := some ⟨addr, bid, 1, false, false,
            some ⟨blockType bid, bid, hashidx, iv, key, (s.spot bid).fetched w iv key expHash⟩,
            true⟩ } → Q (some addr) s')
    (hE : ¬s.bcac.Admits bid → E .nodeLost ∧ E .nullDeref) :
    Exec.Wp (bgetFromCacheLock w bid hashidx iv key expHash) Q E s := by
  have hstart : ¬bid < inodeStart := Nat.not_lt.mpr hbid
  have hstart' : ¬bid < inodeBitmapStart := fun h => hstart (h.trans (by decide))
  refine Exec.wp_bind.mpr (wp_cacheTryGet_none hs.keyed hn ?_)
  simp only [Exec.wp_bind, hstart, hstart', if_false]
  refine wp_cacheInsertGet_safe hw hs hn (fun _ hroom => ?_) fun addr s₂ hkeyed₂ hfades₂ hdisk => ?_
  · exact (hE fun hadmits => hroom (hadmits.2 hn)).2
  have hdisk' : s₂.disk bid = (s.spot bid).disk := congrArg Spot.disk hdisk
  refine Exec.wp_bind.mpr (wp_getBlockFromDisk hw ?_ ?_)
  · rwa [hdisk']
  · intro calls
    have hnode : s₂.bcac.node bid = some ⟨addr, bid, 1, false, false, none, true⟩ :=
      congrArg Spot.node hdisk
    refine Exec.wp_bind.mpr
      (wp_nodeStore_map (k := bcacOf w) (s := { s₂ with calls }) hkeyed₂ hnode ?_ ?_)
    · exact fun _ => ⟨rfl, rfl⟩
    intro c hc hmap
    have hself : c.node bid = some ⟨addr, bid, 1, false, false,
        some ⟨blockType bid, bid, hashidx, iv, key, (s.spot bid).fetched w iv key expHash⟩,
        true⟩ := by
      rw [hmap, Function.update_self, hdisk]
      rfl
    have hend : ∀ loads, loads = loaded bid hashidx ++ s₂.loads →
        Q (some addr) { (bcacOf w).set c { s₂ with calls } with loads } := by
      intro loads hloads
      have hfades' : Fades w {bid} (loaded bid hashidx) s
          { (bcacOf w).set c { s₂ with calls } with loads } := by
        refine ⟨fun b hb => ?_, ?_, hfades₂.rest⟩
        · have hb' : b ≠ bid := hb
          have hspot' : ((bcacOf w).set c { s₂ with calls }).spot b = s₂.spot b := by
            rw [spot_set, hmap, Function.update_of_ne hb']
            rfl
          have hfaded := hfades₂.spot b hb
          rw [← hspot'] at hfaded
          exact hfaded
        · rw [hloads, hfades₂.loads]
          rfl
      refine hQ addr _ (hfades'.bcacSafe hs hc ?_) hfades' ?_
      · rintro b rfl m hm
        obtain rfl := Option.some.inj (hself.symm.trans hm)
        exact Or.inl ⟨hbid, rfl, _, rfl, rfl, rfl⟩
      · rw [← hself]
        change { s₂.spot bid with node := c.node bid } = _
        rw [hdisk]
    refine Exec.wp_bind.mpr (Exec.wp_when.mpr ⟨fun hdata => ?_, fun hdata => ?_⟩)
    · exact hend _ (by simp only [loaded, hdata, if_true]; rfl)
    · exact hend s₂.loads (by simp only [loaded, hdata, if_false]; rfl)

/-- The rule for `bget_from_cache_lock` of a cached block that is not locked. -/
theorem wp_bgetFromCacheLock_some (hw : w.Honest) (hs : s.BcacSafe) {n : Node Block}
    (hn : (s.spot bid).node = some n) (hlock : n.locked = false) (hholds : n.Holds bid)
    {hashidx : HashIdx} {iv key : Key128} {expHash : Option Key256} {Q : Option ℕ → Sys → Prop}
    (hQ : ∀ s', s'.BcacSafe → Fades w {bid} [] s s' →
      s'.spot bid = { s.spot bid with node := some n.take } → Q (some n.addr) s')
    (hE : ¬s.bcac.Admits bid → E .nodeLost) :
    Exec.Wp (bgetFromCacheLock w bid hashidx iv key expHash) Q E s := by
  obtain ⟨block, hcontent, _⟩ := hholds.content
  exact Exec.wp_bind.mpr
    (wp_cacheTryGet_some hw hs hn hlock hholds.deleted_eq hcontent (fun s' => hQ s') hE)

end

end Efs
