import Efs.TreeInvariant

/-!
# How the trees grow

What a lookup does to the trees of the cached inodes: the blocks stay in their
places, and places on the way get blocks that were not used. As long as the bitmap
has a number to be found for every place that is still without a block, each new
place takes one and leaves enough for the others.
-/

namespace Efs

open Library

/-! ## What stays -/

/-- What no lookup changes of a node in the inode cache. -/
def Node.fixed (n : Node Inode) :
    ℕ × ℕ × Bool × Bool × Option (ℕ × ℕ × ℕ × ℕ × Key128 × Key128) :=
  (n.addr, n.refcnt, n.deleted, n.locked,
    n.content.map fun i => (i.iid, i.type, i.size, i.dip, i.aesKey, i.aesIv))

/-- The place is one of a data block. -/
def IsLeaf (r : RootSlot) (ks : List ℕ) : Prop := ks.length = treeShape.height r

/-- The blocks that a call on the trees may change: those of the data bitmap, the data
blocks that are not used, and those of the trees. -/
def Sys.reach (s : Sys) : Set ℕ :=
  {b | b ∈ bitmapBlocks ∨ dataStart ≤ b ∧ ¬s.UsedBlock b ∨ ∃ r ks, s.Live r ks ∧ s.blockAt r ks = b}

/-- What a call on the trees does to the rest. -/
structure Beside (w : World) (s s' : Sys) : Prop where
  /-- The blocks out of reach are as they were, or were evicted while nobody held them. -/
  spot : ∀ b ∉ s.reach, s'.spot b = s.spot b ∨
    (s.spot b).Idle ∧ s'.spot b = (s.spot b).evict w b
  /-- What is in no block and no inode. -/
  rest : s'.rest.2 = s.rest.2
  /-- An inode that changed is dirty. -/
  node : ∀ iid, s'.icac.node iid = s.icac.node iid ∨
    ∃ n, s'.icac.node iid = some n ∧ n.dirty = true
  /-- No more blocks are held. -/
  held : HoldsWithin ∅ s s'

/-- From `s` to `s'` each number that can no longer be found went to a new place. -/
def Takes (s s' : Sys) : Prop :=
  ∃ (new : Finset (Place RootSlot)) (dids : Finset ℕ), dids.card ≤ new.card ∧
    (∀ q ∈ new, s'.Live q.1 q.2 ∧ ¬s.Live q.1 q.2) ∧ s.openDids \ dids ⊆ s'.openDids

/-- There are numbers to be found for all places in `P` that have no block. -/
def Sys.Supplied (P : Set (Place RootSlot)) (s : Sys) : Prop :=
  ∃ (holes : Finset (Place RootSlot)) (dids : Finset ℕ), holes.card ≤ dids.card ∧
    (∀ q ∈ P, ¬s.Live q.1 q.2 → q ∈ holes) ∧ ∀ did ∈ dids, did ∈ s.openDids

/-- The place and those on the way to it. -/
def wayTo (p : Place RootSlot) : Set (Place RootSlot) := {q | q.1 = p.1 ∧ q.2 <:+ p.2}

/-- There is room for lookups of the places in `P`: the block cache can hold two more blocks,
and a write finds a number for each place without a block. -/
structure Sys.RoomFor (write : Bool) (P : Set (Place RootSlot)) (s : Sys) : Prop where
  /-- Room in the block cache. -/
  roomy : s.Roomy 1
  /-- Numbers. -/
  supplied : write = true → s.Supplied P

/-- The places that a lookup of the place may allocate blocks for: a write lookup those on the
way, a read lookup none. -/
def asked (write : Bool) (p : Place RootSlot) : Set (Place RootSlot) :=
  {q | write = true ∧ q ∈ wayTo p}

/-- From `s` to `s'` blocks were allocated for places in `P` and nothing else was
done to the trees. -/
structure Grows (w : World) (P : Set (Place RootSlot)) (s s' : Sys) : Prop where
  /-- The blocks stay in their places. -/
  live : ∀ r ks, s.Live r ks → s'.Live r ks ∧ s'.blockAt r ks = s.blockAt r ks
  /-- New places are in `P`. -/
  fresh : ∀ r ks, s'.Live r ks → s.Live r ks ∨ (r, ks) ∈ P
  /-- The data blocks keep their data. -/
  data : ∀ r ks, s.Live r ks → IsLeaf r ks →
    (s'.spot (s.blockAt r ks)).data = (s.spot (s.blockAt r ks)).data
  /-- New data blocks are zero. -/
  zero : ∀ r ks, s'.Live r ks → ¬s.Live r ks → IsLeaf r ks →
    (s'.spot (s'.blockAt r ks)).data = Bytes.zero
  /-- New blocks were not used. -/
  unused : ∀ r ks, s'.Live r ks → ¬s.Live r ks → ¬s.UsedBlock (s'.blockAt r ks)
  /-- The inodes stay in the cache with their fields. -/
  fixed : ∀ iid, (s'.icac.node iid).map Node.fixed = (s.icac.node iid).map Node.fixed
  /-- Used numbers stay used. -/
  used : s.dataUsed ⊆ s'.dataUsed
  /-- New places took their numbers. -/
  takes : Takes s s'
  /-- The rest. -/
  beside : Beside w s s'

section

variable {w : World} {E : Halt → Prop} {raw raw' : Set ℕ} {s s₁ s' : Sys} {r : RootSlot}
  {ks : List ℕ} {k ip iid : ℕ} {inode : Inode} {p p' : Place RootSlot}
  {P P' : Set (Place RootSlot)}

/-! ## Numbers for the places -/

/-- A place is on the way to itself. -/
theorem mem_wayTo (p : Place RootSlot) : p ∈ wayTo p := ⟨rfl, List.suffix_refl _⟩

/-- The way to a place leads through the places above it. -/
theorem wayTo_subset {ks' : List ℕ} (hks : ks' <:+ ks) : wayTo (r, ks') ⊆ wayTo (r, ks) :=
  fun _ hq => ⟨hq.1, hq.2.trans hks⟩

/-- Only places on the way are asked for. -/
theorem asked_subset_wayTo (write : Bool) (p : Place RootSlot) : asked write p ⊆ wayTo p :=
  fun _ hq => hq.2

/-- A place above asks for no more. -/
theorem asked_subset {write : Bool} {ks' : List ℕ} (hks : ks' <:+ ks) :
    asked write (r, ks') ⊆ asked write (r, ks) := fun _ hq => ⟨hq.1, wayTo_subset hks hq.2⟩

/-- A call after which as many blocks are open takes none. -/
theorem Takes.of_subset (h : s.openDids ⊆ s'.openDids) : Takes s s' :=
  ⟨∅, ∅, le_refl _, by simp, by simpa using h⟩

/-- Two calls take what each of them takes. -/
theorem Takes.trans (h₁ : Takes s s₁) (h₂ : Takes s₁ s')
    (hlive₁ : ∀ r ks, s.Live r ks → s₁.Live r ks) (hlive₂ : ∀ r ks, s₁.Live r ks → s'.Live r ks) :
    Takes s s' := by
  classical
  obtain ⟨new₁, dids₁, hcard₁, hnew₁, hopen₁⟩ := h₁
  obtain ⟨new₂, dids₂, hcard₂, hnew₂, hopen₂⟩ := h₂
  have hdisjoint : Disjoint new₁ new₂ := Finset.disjoint_left.mpr fun q hq₁ hq₂ =>
    (hnew₂ q hq₂).2 (hnew₁ q hq₁).1
  refine ⟨new₁ ∪ new₂, dids₁ ∪ dids₂, ?_, fun q hq => ?_, fun did hdid => ?_⟩
  · have hle := Finset.card_union_le dids₁ dids₂
    rw [Finset.card_union_of_disjoint hdisjoint]
    omega
  · rcases Finset.mem_union.mp hq with hq | hq
    · exact ⟨hlive₂ _ _ (hnew₁ q hq).1, (hnew₁ q hq).2⟩
    · exact ⟨(hnew₂ q hq).1, fun hl => (hnew₂ q hq).2 (hlive₁ _ _ hl)⟩
  · obtain ⟨hdid, hnot⟩ := hdid
    rw [Finset.coe_union, Set.mem_union, not_or] at hnot
    exact hopen₂ ⟨hopen₁ ⟨hdid, hnot.1⟩, hnot.2⟩

/-- A supply for some places is one for fewer. -/
theorem Sys.Supplied.mono (h : s.Supplied P) (hP : P' ⊆ P) : s.Supplied P' := by
  obtain ⟨holes, dids, hcard, hholes, hdids⟩ := h
  exact ⟨holes, dids, hcard, fun q hq => hholes q (hP hq), hdids⟩

/-- What the new places took leaves enough for the others. -/
theorem Sys.Supplied.takes (h : s.Supplied P) (htakes : Takes s s')
    (hlive : ∀ r ks, s.Live r ks → s'.Live r ks)
    (hfresh : ∀ r ks, s'.Live r ks → s.Live r ks ∨ (r, ks) ∈ P) : s'.Supplied P := by
  classical
  obtain ⟨holes, dids, hcard, hholes, hdids⟩ := h
  obtain ⟨new, taken, hcard', hnew, hopen⟩ := htakes
  have hsub : new ⊆ holes := fun q hq =>
    hholes q ((hfresh _ _ (hnew q hq).1).resolve_left (hnew q hq).2) (hnew q hq).2
  refine ⟨holes \ new, dids \ taken, ?_, fun q hq hnot => ?_, fun did hdid => ?_⟩
  · have hle := Finset.le_card_sdiff taken dids
    rw [Finset.card_sdiff_of_subset hsub]
    omega
  · refine Finset.mem_sdiff.mpr ⟨hholes q hq fun hl => hnot (hlive _ _ hl), fun hmem => ?_⟩
    exact hnot (hnew q hmem).1
  · obtain ⟨hdid, hnot⟩ := Finset.mem_sdiff.mp hdid
    exact hopen ⟨hdids did hdid, hnot⟩

/-- There is a number for a place without a block. -/
theorem Sys.Supplied.nonempty (h : s.Supplied P) (hp : p ∈ P) (hnot : ¬s.Live p.1 p.2) :
    s.openDids.Nonempty := by
  obtain ⟨holes, dids, hcard, hholes, hdids⟩ := h
  have hpos := Finset.card_pos.mpr ⟨p, hholes p hp hnot⟩
  obtain ⟨did, hdid⟩ := Finset.card_pos.mp (Nat.lt_of_lt_of_le hpos hcard)
  exact ⟨did, hdids did hdid⟩

/-! ## What stays beside the trees -/

/-- Nothing happens beside the trees when nothing happens. -/
theorem Beside.refl (s : Sys) : Beside w s s :=
  ⟨fun _ _ => Or.inl rfl, rfl, fun _ => Or.inl rfl, .refl _ _⟩

/-- Two calls beside the trees are beside them. -/
theorem Beside.trans (h₁ : Beside w s s₁) (h₂ : Beside w s₁ s') (hreach : s₁.reach ⊆ s.reach) :
    Beside w s s' := by
  refine ⟨fun b hb => ?_, h₂.rest.trans h₁.rest, fun iid => ?_, h₁.held.comp h₂.held⟩
  · rcases h₁.spot b hb with h | ⟨hidle, h⟩
    · rcases h₂.spot b fun hmem => hb (hreach hmem) with h' | ⟨hidle', h'⟩
      · exact Or.inl (h'.trans h)
      · rw [h] at hidle' h'
        exact Or.inr ⟨hidle', h'⟩
    · rcases h₂.spot b fun hmem => hb (hreach hmem) with h' | ⟨_, h'⟩
      · exact Or.inr ⟨hidle, h'.trans h⟩
      · rw [h, Spot.evict_evict] at h'
        exact Or.inr ⟨hidle, h'⟩
  · rcases h₂.node iid with h | h
    · rcases h₁.node iid with h' | ⟨n, hn, hdirty⟩
      · exact Or.inl (h.trans h')
      · exact Or.inr ⟨n, h.trans hn, hdirty⟩
    · exact Or.inr h

/-- Changes of blocks within reach. -/
theorem Settles.beside {X : Set ℕ} {added : List (ℕ × HashIdx)} (h : Settles w X added s s')
    (hX : X ⊆ s.reach) (hheld : HoldsWithin ∅ s s') : Beside w s s' :=
  ⟨fun b hb => h.spot b fun hmem => hb (hX hmem), congrArg Prod.snd h.rest,
    fun iid => Or.inl (by rw [h.icac_eq]), hheld⟩

/-- The block of an unused number is within reach. -/
theorem did2Bid_mem_reach {did : ℕ} (h : did ∉ s.dataUsed) : did2Bid did ∈ s.reach := by
  refine Or.inr (Or.inl ⟨dataStart_le_did2Bid did, ?_⟩)
  rintro ⟨did', hdid', heq⟩
  exact h (did2Bid_injective heq ▸ hdid')

/-- A change of an inode that makes it dirty. -/
theorem InodeChanges.beside {g : Node Inode → Node Inode} (h : InodeChanges iid g s₁ s')
    (hbeside : Beside w s s₁) (hdirty : ∀ n, (g n).dirty = true) : Beside w s s' := by
  refine ⟨fun b hb => ?_, ?_, fun iid' => ?_, ?_⟩
  · rw [h.spot_eq]
    exact hbeside.spot b hb
  · rw [← hbeside.rest, h.same]
    rfl
  · by_cases heq : iid' = iid
    · subst heq
      rw [h.node, Function.update_self]
      cases hn : s₁.icac.node iid' with
      | none =>
        rcases hbeside.node iid' with hsame | ⟨n, hn', _⟩
        · exact Or.inl (hn.symm.trans hsame)
        · rw [hn] at hn'
          cases hn'
      | some n => exact Or.inr ⟨g n, rfl, hdirty n⟩
    · rw [h.node_of_ne heq]
      exact hbeside.node iid'
  · exact hbeside.held.comp (.of_refs fun b => by rw [h.spot_eq])

/-! ## Growth -/

/-- Places that come to the trees have blocks that were within reach. -/
theorem reach_subset (hlive : ∀ r ks, s.Live r ks → s'.Live r ks ∧ s'.blockAt r ks = s.blockAt r ks)
    (hunused : ∀ r ks, s'.Live r ks → ¬s.Live r ks → ¬s.UsedBlock (s'.blockAt r ks))
    (hused : s.dataUsed ⊆ s'.dataUsed) (hstart : ∀ r ks, s'.Live r ks →
      dataStart ≤ s'.blockAt r ks) :
    s'.reach ⊆ s.reach := by
  rintro b (hb | ⟨hb, hnot⟩ | ⟨r, ks, hl, rfl⟩)
  · exact Or.inl hb
  · refine Or.inr (Or.inl ⟨hb, fun hin => hnot ?_⟩)
    obtain ⟨did, hdid, heq⟩ := hin
    exact ⟨did, hused hdid, heq⟩
  · by_cases hold : s.Live r ks
    · exact Or.inr (Or.inr ⟨r, ks, hold, (hlive r ks hold).2.symm⟩)
    · exact Or.inr (Or.inl ⟨hstart r ks hl, hunused r ks hl hold⟩)

/-- Trees that stay have grown at no place. -/
theorem Grows.refl (P : Set (Place RootSlot)) (s : Sys) : Grows w P s s :=
  ⟨fun _ _ h => ⟨h, rfl⟩, fun _ _ h => Or.inl h, fun _ _ _ _ => rfl,
    fun _ _ h hnot => absurd h hnot, fun _ _ h hnot => absurd h hnot, fun _ => rfl, fun _ h => h,
    .of_subset fun _ h => h, .refl s⟩

/-- Trees that grew at some places grew at more. -/
theorem Grows.mono (h : Grows w P s s') (hP : P ⊆ P') : Grows w P' s s' :=
  { h with fresh := fun r ks hl => (h.fresh r ks hl).imp_right fun hmem => hP hmem }

/-- Trees that grow twice have grown. -/
theorem Grows.trans (hinv : s₁.TreeInv w raw) (h₁ : Grows w P s s₁) (h₂ : Grows w P s₁ s') :
    Grows w P s s' := by
  refine ⟨fun r ks hlive => ?_, fun r ks hlive => ?_, fun r ks hlive hleaf => ?_,
    fun r ks hlive hnot hleaf => ?_, fun r ks hlive hnot => ?_,
    fun iid => (h₂.fixed iid).trans (h₁.fixed iid), h₁.used.trans h₂.used,
    h₁.takes.trans h₂.takes (fun r ks hl => (h₁.live r ks hl).1) fun r ks hl => (h₂.live r ks hl).1,
    h₁.beside.trans h₂.beside
      (reach_subset h₁.live h₁.unused h₁.used fun r ks hl => (hinv.used r ks hl).dataStart_le)⟩
  · obtain ⟨hlive₁, hblock₁⟩ := h₁.live r ks hlive
    obtain ⟨hlive', hblock'⟩ := h₂.live r ks hlive₁
    exact ⟨hlive', hblock'.trans hblock₁⟩
  · rcases h₂.fresh r ks hlive with hlive₁ | hmem
    · exact h₁.fresh r ks hlive₁
    · exact Or.inr hmem
  · obtain ⟨hlive₁, hblock₁⟩ := h₁.live r ks hlive
    have hdata := h₂.data r ks hlive₁ hleaf
    rw [hblock₁] at hdata
    exact hdata.trans (h₁.data r ks hlive hleaf)
  · by_cases hlive₁ : s₁.Live r ks
    · rw [(h₂.live r ks hlive₁).2, h₂.data r ks hlive₁ hleaf]
      exact h₁.zero r ks hlive₁ hnot hleaf
    · exact h₂.zero r ks hlive hlive₁ hleaf
  · by_cases hlive₁ : s₁.Live r ks
    · rw [(h₂.live r ks hlive₁).2]
      exact h₁.unused r ks hlive₁ hnot
    · rintro ⟨did, hdid, heq⟩
      exact h₂.unused r ks hlive hlive₁ ⟨did, h₁.used hdid, heq⟩

/-- A pointer to an inode stays good while the fixed part of its node does. -/
theorem Sys.PointsTo.of_fixed (hp : s.PointsTo ip iid inode)
    (hfixed : (s'.icac.node iid).map Node.fixed = (s.icac.node iid).map Node.fixed) :
    ∃ inode', s'.PointsTo ip iid inode' ∧ inode'.iid = inode.iid ∧ inode'.type = inode.type ∧
      inode'.size = inode.size ∧ inode'.aesKey = inode.aesKey ∧ inode'.aesIv = inode.aesIv := by
  obtain ⟨n, hn, haddr, hcontent⟩ := hp
  rw [hn, Option.map_some] at hfixed
  obtain ⟨n', hn', heq⟩ := Option.map_eq_some_iff.mp hfixed
  simp only [Node.fixed, Prod.mk.injEq, hcontent, Option.map_some] at heq
  obtain ⟨haddr', _, _, _, hinode⟩ := heq
  obtain ⟨inode', hcontent', hfields⟩ := Option.map_eq_some_iff.mp hinode
  simp only [Prod.mk.injEq] at hfields
  obtain ⟨hiid, htype, hsize, _, hkey, hiv⟩ := hfields
  exact ⟨inode', ⟨n', hn', haddr'.trans haddr, hcontent'⟩, hiid, htype, hsize, hkey, hiv⟩

/-! ## No slot -/

/-- A step that changes no slot and no data grows the trees by nothing. -/
theorem SameSlots.grows (h : SameSlots s s')
    (hdata : ∀ r ks, s.Live r ks → IsLeaf r ks →
      (s'.spot (s.blockAt r ks)).data = (s.spot (s.blockAt r ks)).data)
    (hfixed : ∀ iid, (s'.icac.node iid).map Node.fixed = (s.icac.node iid).map Node.fixed)
    (hused : s'.dataUsed = s.dataUsed) (hhint : s'.dbmFirstEmptyWord = s.dbmFirstEmptyWord)
    (hbeside : Beside w s s') (P : Set (Place RootSlot)) : Grows w P s s' :=
  ⟨fun r ks hlive => ⟨(h.live r ks).mpr hlive, h.block hlive⟩,
    fun r ks hlive => Or.inl ((h.live r ks).mp hlive), hdata,
    fun r ks hlive hnot => absurd ((h.live r ks).mp hlive) hnot,
    fun r ks hlive hnot => absurd ((h.live r ks).mp hlive) hnot, hfixed, hused.ge,
    .of_subset (openDids_congr hhint hused).ge, hbeside⟩

/-- A slot kept its block. -/
theorem OneSlot.grows_of_same (hone : OneSlot s s' p) (hlive : s.Live p.1 p.2)
    (hkeep : ∀ r ks, s.Live r ks → s'.Live r ks ∧ s'.blockAt r ks = s.blockAt r ks)
    (hdata : ∀ r ks, s.Live r ks → IsLeaf r ks →
      (s'.spot (s.blockAt r ks)).data = (s.spot (s.blockAt r ks)).data)
    (hfixed : ∀ iid, (s'.icac.node iid).map Node.fixed = (s.icac.node iid).map Node.fixed)
    (hused : s'.dataUsed = s.dataUsed) (hhint : s'.dbmFirstEmptyWord = s.dbmFirstEmptyWord)
    (hbeside : Beside w s s') : Grows w P s s' := by
  have hold : ∀ r ks, s'.Live r ks → s.Live r ks := by
    intro r ks hl
    rcases hone.live r ks hl with rfl | h
    · exact hlive
    · exact h.1
  exact ⟨hkeep, fun r ks hl => Or.inl (hold r ks hl), hdata,
    fun r ks hl hnot => absurd (hold r ks hl) hnot, fun r ks hl hnot => absurd (hold r ks hl) hnot,
    hfixed, hused.ge, .of_subset (openDids_congr hhint hused).ge, hbeside⟩

/-- An empty slot got a block that was not used. -/
theorem OneSlot.grows_of_new {did : ℕ} (hone : OneSlot s s' p) (hempty : s.blockAt p.1 p.2 = 0)
    (hkeep : ∀ r ks, s.Live r ks → s'.Live r ks ∧ s'.slotAt r ks = s.slotAt r ks)
    (hblock : s'.blockAt p.1 p.2 = did2Bid did) (hunused : did ∉ s.dataUsed)
    (hzero : (s'.spot (did2Bid did)).data = Bytes.zero)
    (hdata : ∀ r ks, s.Live r ks → IsLeaf r ks →
      (s'.spot (s.blockAt r ks)).data = (s.spot (s.blockAt r ks)).data)
    (hfixed : ∀ iid, (s'.icac.node iid).map Node.fixed = (s.icac.node iid).map Node.fixed)
    (hused : s'.dataUsed = insert did s.dataUsed) (hopen : s.openDids \ {did} ⊆ s'.openDids)
    (hbeside : Beside w s s') (hp : p ∈ P) : Grows w P s s' := by
  have hnew : ∀ r ks, s'.Live r ks → ¬s.Live r ks → (r, ks) = p := fun r ks hl hnot =>
    (hone.live r ks hl).resolve_right fun h => hnot h.1
  refine ⟨fun r ks hl => ?_, fun r ks hl => ?_, hdata, fun r ks hl hnot _ => ?_,
    fun r ks hl hnot => ?_, hfixed, ?_, ⟨{p}, {did}, le_refl _, fun q hq => ?_, ?_⟩, hbeside⟩
  · obtain ⟨hl', hslot⟩ := hkeep r ks hl
    exact ⟨hl', by rw [Sys.blockAt_eq, hslot, ← Sys.blockAt_eq]⟩
  · rcases hone.live r ks hl with rfl | h
    · exact Or.inr hp
    · exact Or.inl h.1
  · obtain rfl := hnew r ks hl hnot
    rw [hblock, hzero]
  · obtain rfl := hnew r ks hl hnot
    rw [hblock]
    rintro ⟨did', hdid', heq⟩
    exact hunused (did2Bid_injective heq ▸ hdid')
  · rw [hused]
    exact Set.subset_insert _ _
  · rw [Finset.mem_singleton] at hq
    subst hq
    exact ⟨hone.place, fun hl => hl.block_ne hempty⟩
  · rwa [Finset.coe_singleton]

/-- The supply outlasts the growth at places of it. -/
theorem Grows.supplied (h : Grows w P' s s') (hP : P' ⊆ P) (hs : s.Supplied P) :
    s'.Supplied P :=
  hs.takes h.takes (fun r ks hl => (h.live r ks hl).1) fun r ks hl =>
    (h.fresh r ks hl).imp_right fun hmem => hP hmem


/-- Trees that grew have room for what they had room for. -/
theorem Grows.roomFor {write : Bool} (h : Grows w P' s s') (hP : P' ⊆ P)
    (hs : s.RoomFor write P) : s'.RoomFor write P :=
  ⟨h.beside.held.roomy hs.roomy, fun hwrite => h.supplied hP (hs.supplied hwrite)⟩

end

end Efs
