import Efs.IndexMap

/-!
# Rounds of a transfer

Each round of the loop of `inode_rw_data` looks up a block of a part of the file,
loads it, and reads or writes some of its bytes. The rule for a round says what it
does to the data of the parts.
-/

namespace Efs

open Library

open Classical in
/-- The data of a part of a file, zero when the part has no block. -/
noncomputable def Sys.partData (s : Sys) (iid bidx : ℕ) : Data :=
  if s.HasPart iid bidx then (s.spot (s.partBlock iid bidx)).data else Bytes.zero

/-- The bytes that a round does. -/
def Progress.round (p : Progress) (size : ℕ) : ℕ := min (size - p.done) (blkSz - p.off % blkSz)

/-- The data of the part after a round of a write. -/
def Progress.stored (p : Progress) (size : ℕ) (d : Data) : Data :=
  d.write (p.off % blkSz) (p.round size) fun i => p.buf (p.done + i)

/-- The buffer after a round of a read. -/
def Progress.fetched (p : Progress) (size : ℕ) (d : Data) : ℕ → Byte := fun i =>
  if p.done ≤ i ∧ i < p.done + p.round size then d.get (p.off % blkSz + (i - p.done)) else p.buf i

/-- From `s` to `s'` the trees of the cached inodes got blocks at places in `P` and lost none. -/
structure Widens (w : World) (P : Set (Place RootSlot)) (s s' : Sys) : Prop where
  /-- The blocks stay in their places. -/
  live : ∀ r ks, s.Live r ks → s'.Live r ks ∧ s'.blockAt r ks = s.blockAt r ks
  /-- New places are in `P`. -/
  fresh : ∀ r ks, s'.Live r ks → s.Live r ks ∨ (r, ks) ∈ P
  /-- New blocks were not used. -/
  unused : ∀ r ks, s'.Live r ks → ¬s.Live r ks → ¬s.UsedBlock (s'.blockAt r ks)
  /-- The blocks are used data blocks. -/
  inUse : ∀ r ks, s'.Live r ks → s'.UsedBlock (s'.blockAt r ks)
  /-- Used numbers stay used. -/
  used : s.dataUsed ⊆ s'.dataUsed
  /-- New places took their numbers. -/
  takes : Takes s s'
  /-- The rest. -/
  beside : Beside w s s'

/-- A round of a transfer was done. -/
structure Transferred (w : World) (iid size : ℕ) (write : Bool) (p p' : Progress) (s s' : Sys) :
    Prop where
  /-- The trees are good. -/
  inv : s'.TreeInv w ∅
  /-- The inodes stay in the cache with their fields. -/
  fixed : ∀ iid, (s'.icac.node iid).map Node.fixed = (s.icac.node iid).map Node.fixed
  /-- The part has a block. -/
  part : s'.HasPart iid (p.off / blkSz)
  /-- The blocks stay in their places. -/
  live : ∀ r ks, s.Live r ks → s'.Live r ks ∧ s'.blockAt r ks = s.blockAt r ks
  /-- The other parts keep their data. -/
  others : ∀ iid' i, (iid', i) ≠ (iid, p.off / blkSz) → s'.partData iid' i = s.partData iid' i
  /-- The part has its data, with what was written. -/
  data : s'.partData iid (p.off / blkSz) = if write then
    p.stored size (s.partData iid (p.off / blkSz)) else s.partData iid (p.off / blkSz)
  /-- The bytes done. -/
  done : p'.done = p.done + p.round size
  /-- The offset. -/
  off : p'.off = (p.off + p.round size) % 2 ^ 32
  /-- The buffer. -/
  buf : p'.buf = if write then p.buf else p.fetched size (s.partData iid (p.off / blkSz))
  /-- The trees only got blocks, and only on the way to the part. -/
  widens : Widens w (asked write (indexPlace iid (p.off / blkSz))) s s'
  /-- The path to the part. -/
  filled : Filled s'.forest (indexPlace iid (p.off / blkSz)).1 (indexPlace iid (p.off / blkSz)).2
    p.hashidx p'.hashidx
  /-- The blocks that were loaded. -/
  loads : ∃ added, s'.loads = added ++ s.loads ∧ PathLoads p.hashidx s s'
    (indexPlace iid (p.off / blkSz)).1 {ks | ks <:+ (indexPlace iid (p.off / blkSz)).2} added

section

variable {w : World} {E : Halt → Prop} {s s₁ s' : Sys} {ip iid bidx size : ℕ} {inode : Inode}
  {write new : Bool} {p : Progress} {r : RootSlot} {ks : List ℕ} {idx : Index}
  {P P' : Set (Place RootSlot)}

/-- Trees that stay are no wider. -/
theorem Widens.refl {raw : Set ℕ} (h : s.TreeInv w raw) : Widens w P s s :=
  ⟨fun _ _ hl => ⟨hl, rfl⟩, fun _ _ hl => Or.inl hl, fun _ _ hl hnot => absurd hl hnot, h.used,
    fun _ h => h, .of_subset fun _ h => h, .refl s⟩

/-- Trees that got blocks for some places got them for more. -/
theorem Widens.mono (h : Widens w P s s') (hP : P ⊆ P') : Widens w P' s s' :=
  { h with fresh := fun r ks hl => (h.fresh r ks hl).imp_right fun hmem => hP hmem }

/-- Trees that got blocks twice got them. -/
theorem Widens.trans (h₁ : Widens w P s s₁) (h₂ : Widens w P s₁ s') : Widens w P s s' := by
  have hreach : s₁.reach ⊆ s.reach :=
    reach_subset h₁.live h₁.unused h₁.used fun r ks hl => (h₁.inUse r ks hl).dataStart_le
  refine ⟨fun r ks hl => ?_, fun r ks hl => ?_, fun r ks hl hnot => ?_, h₂.inUse,
    h₁.used.trans h₂.used, h₁.takes.trans h₂.takes (fun r ks hl => (h₁.live r ks hl).1)
      fun r ks hl => (h₂.live r ks hl).1, h₁.beside.trans h₂.beside hreach⟩
  · obtain ⟨hl₁, hb₁⟩ := h₁.live r ks hl
    obtain ⟨hl₂, hb₂⟩ := h₂.live r ks hl₁
    exact ⟨hl₂, hb₂.trans hb₁⟩
  · rcases h₂.fresh r ks hl with hl₁ | hmem
    · exact h₁.fresh r ks hl₁
    · exact Or.inr hmem
  · by_cases hl₁ : s₁.Live r ks
    · rw [(h₂.live r ks hl₁).2]
      exact h₁.unused r ks hl₁ hnot
    · rintro ⟨did, hdid, heq⟩
      exact h₂.unused r ks hl hl₁ ⟨did, h₁.used hdid, heq⟩

/-- Trees that grow get blocks. -/
theorem Grows.widens {raw : Set ℕ} (h : Grows w P s s') (hinv : s'.TreeInv w raw) :
    Widens w P s s' := ⟨h.live, h.fresh, h.unused, hinv.used, h.used, h.takes, h.beside⟩

/-- A step that changes no slot. -/
theorem SameSlots.widens {raw : Set ℕ} (h : SameSlots s s') (hinv : s'.TreeInv w raw)
    (hused : s'.dataUsed = s.dataUsed) (hhint : s'.dbmFirstEmptyWord = s.dbmFirstEmptyWord)
    (hbeside : Beside w s s') : Widens w P s s' :=
  ⟨fun r ks hl => ⟨(h.live r ks).mpr hl, h.block hl⟩, fun r ks hl => Or.inl ((h.live r ks).mp hl),
    fun r ks hl hnot => absurd ((h.live r ks).mp hl) hnot, hinv.used, hused.ge,
    .of_subset (openDids_congr hhint hused).ge, hbeside⟩

/-- The room outlasts changes at places that it is for. -/
theorem Widens.roomFor (h : Widens w P' s s') (hP : P' ⊆ P) (hs : s.RoomFor write P) :
    s'.RoomFor write P :=
  ⟨h.beside.held.roomy hs.roomy, fun hwrite => (hs.supplied hwrite).takes h.takes
    (fun r ks hl => (h.live r ks hl).1) fun r ks hl =>
      (h.fresh r ks hl).imp_right fun hmem => hP hmem⟩

/-- Without new places no number is taken. -/
theorem Widens.openDids_subset (h : Widens w ∅ s s') : s.openDids ⊆ s'.openDids := by
  obtain ⟨new, dids, hcard, hnew, hopen⟩ := h.takes
  have hnone : new = ∅ := Finset.eq_empty_of_forall_notMem fun q hq =>
    (hnew q hq).2 ((h.fresh _ _ (hnew q hq).1).resolve_right (Set.notMem_empty _))
  rw [hnone, Finset.card_empty, Nat.le_zero, Finset.card_eq_zero] at hcard
  simpa [hcard] using hopen

/-- A part with a block has the data of the block. -/
theorem Sys.partData_of_part (h : s.HasPart iid bidx) :
    s.partData iid bidx = (s.spot (s.partBlock iid bidx)).data := if_pos h

/-- A lookup leaves the data of all parts. -/
theorem Grows.partData_eq (h : Grows w P s s') (iid bidx : ℕ) :
    s'.partData iid bidx = s.partData iid bidx := by
  by_cases hpart : s.HasPart iid bidx
  · obtain ⟨hpart', hblock⟩ := h.live _ _ hpart
    rw [Sys.partData_of_part hpart, Sys.partData_of_part hpart', Sys.partBlock, hblock]
    exact h.data _ _ hpart isLeaf_indexPlace
  · rw [Sys.partData, Sys.partData, if_neg hpart]
    by_cases hpart' : s'.HasPart iid bidx
    · rw [if_pos hpart']
      exact h.zero _ _ hpart' hpart isLeaf_indexPlace
    · rw [if_neg hpart']

/-- A change of the data of one part leaves the others. -/
theorem SameSlots.partData_eq {raw : Set ℕ} (h : SameSlots s s') (hinv : s.TreeInv w raw)
    (hpart : s.HasPart iid bidx) {added : List (ℕ × HashIdx)}
    (hsettles : Settles w {s.partBlock iid bidx} added s s') {iid' i : ℕ}
    (hne : (iid', i) ≠ (iid, bidx)) : s'.partData iid' i = s.partData iid' i := by
  by_cases hpart' : s.HasPart iid' i
  · have hpart'' : s'.HasPart iid' i := (h.live _ _).mpr hpart'
    rw [Sys.partData_of_part hpart', Sys.partData_of_part hpart'', Sys.partBlock, h.block hpart']
    refine hinv.data_eq hpart' hsettles fun heq => hne ?_
    obtain ⟨hiid, hi⟩ := indexPlace_injective (hinv.disjoint _ _ _ _ hpart' hpart heq)
    rw [hiid, hi]
  · have hnone : ¬s'.HasPart iid' i := mt (h.live _ _).mp hpart'
    rw [Sys.partData, Sys.partData, if_neg hpart', if_neg hnone]

/-- The parts have the same data when their blocks have. -/
theorem SameSlots.partData_congr (h : SameSlots s s')
    (hdata : ∀ b, (s'.spot b).data = (s.spot b).data) :
    s'.partData iid bidx = s.partData iid bidx := by
  by_cases hpart : s.HasPart iid bidx
  · have hpart' : s'.HasPart iid bidx := (h.live _ _).mpr hpart
    rw [Sys.partData_of_part hpart, Sys.partData_of_part hpart', Sys.partBlock,
      h.block hpart, hdata]
    rfl
  · have hnone : ¬s'.HasPart iid bidx := mt (h.live _ _).mp hpart
    rw [Sys.partData, Sys.partData, if_neg hpart, if_neg hnone]

/-- What holds of the block of a part after it was loaded, and perhaps changed. -/
structure Touched (w : World) (idx : Index) (new : Bool) (inode : Inode) (d : Data)
    (added : List (ℕ × HashIdx)) (s s' : Sys) : Prop where
  /-- The block cache is good. -/
  ok : s'.BcacOk
  /-- The other spots settle. -/
  settles : Settles w {idx.bid} added s s'
  /-- The search hint of the data bitmap is the same. -/
  hint : s'.dbmFirstEmptyWord = s.dbmFirstEmptyWord
  /-- No more blocks are held. -/
  held : HoldsWithin ∅ s s'
  /-- The block has the data. -/
  cached : ∃ addr refcnt dirty, (s.spot idx.bid).Cached (s'.spot idx.bid) addr refcnt false dirty
    inode.aesIv inode.aesKey d ∧
    (dirty = true ∨ new = false ∧ dirty = (s.spot idx.bid).dirty ∧ d = (s.spot idx.bid).data)

/-- The block was loaded, changed or not, and given back. -/
theorem EntryFetched.touched {addr : ℕ} {added : List (ℕ × HashIdx)} {dirty : Bool} {d : Data}
    (hf : EntryFetched w idx inode addr added s s₁) (hstill : Still idx.bid s₁ s')
    (hcached : (s.spot idx.bid).Cached (s'.spot idx.bid) addr (s.spot idx.bid).refs false dirty
      inode.aesIv inode.aesKey d)
    (hor : dirty = true ∨ new = false ∧ dirty = (s.spot idx.bid).dirty ∧
      d = (s.spot idx.bid).data) : Touched w idx new inode d added s s' :=
  ⟨hstill.ok, (hf.settles.trans (hstill.settles (w := w))).mono (by simp),
    hstill.hint.trans hf.hint, hf.held hstill.holdsWithin (le_refl _) hcached,
    _, _, _, hcached, hor⟩

/-- The block that a lookup came to is good after it was loaded. -/
theorem Reached.touched {raw : Set ℕ} (h : Reached w raw write r ks idx new s) (hw : w.Reliable)
    (hlive : s.Live r ks) (hleaf : IsLeaf r ks) (hmem : idx.bid ∉ raw)
    (hinode : s.inodeOf r.1 = some inode) {d : Data} {added : List (ℕ × HashIdx)}
    (ht : Touched w idx new inode d added s s') :
    s'.TreeInv w raw ∧ SameSlots s s' ∧ s'.dataUsed = s.dataUsed ∧ (s'.spot idx.bid).data = d := by
  obtain ⟨addr, refcnt, dirty, hcached, hor⟩ := ht.cached
  have hblock := h.block_eq
  have hgood := h.inv.good r ks inode hlive hinode
  have hgood' : (s'.spot (s.blockAt r ks)).TreeGood w False inode.aesIv inode.aesKey
      (s.slotAt r ks).hash := by
    rw [hblock] at hgood ⊢
    rcases hor with rfl | ⟨rfl, rfl, rfl⟩
    · exact hcached.treeGood id
    · have hnot : ¬(idx.bid ∈ {b | b ∈ raw ∨ false = true ∧ b = idx.bid}) := by simp [hmem]
      exact ⟨hcached.hashOk hgood.hashOk, fun _ => hcached.diskOk (hgood.diskOk hnot),
        fun hfalse => hfalse.elim, hcached.keysOk, hcached.unlocked⟩
  have hsettles := ht.settles
  rw [← hblock] at hsettles
  obtain ⟨hinv', hsame, hused⟩ := h.inv.block_settles hw hlive hinode ht.ok hsettles
    (fun hlt => absurd hleaf hlt.ne) hgood'
  have hraw : ({b | b ∈ raw ∨ new = true ∧ b = idx.bid} : Set ℕ) \ {s.blockAt r ks} = raw := by
    ext b
    simp only [hblock, Set.mem_sdiff, Set.mem_ofPred_eq, Set.mem_singleton_iff]
    constructor
    · rintro ⟨hb | ⟨_, heq⟩, hne⟩
      · exact hb
      · exact absurd heq hne
    · intro hb
      refine ⟨Or.inl hb, ?_⟩
      rintro rfl
      exact hmem hb
  rw [hraw] at hinv'
  exact ⟨hinv', hsame, hused, hcached.data_eq⟩

section

variable {hashidx : HashIdx} {found : Lookup} {inode₁ : Inode} {d : Data}
  {added : List (ℕ × HashIdx)}

/-- What a round leaves, whatever it did to the block of the part. -/
theorem Arrived.transferred (ha : Arrived w ∅ write ip p.hashidx s
      (indexPlace iid (p.off / blkSz)).1 (indexPlace iid (p.off / blkSz)).2
      ⟨found.bid, found.expHash⟩ found.new found.hashidx s₁) (hw : w.Reliable)
    (hlive : s₁.HasPart iid (p.off / blkSz)) (hinode : s₁.inodeOf iid = some inode₁)
    (hadded : LoadedOnce s₁ found.bid found.hashidx added)
    (ht : Touched w ⟨found.bid, found.expHash⟩ found.new inode₁ d added s₁ s')
    (hd : d = if write then p.stored size (s.partData iid (p.off / blkSz)) else
      s.partData iid (p.off / blkSz)) :
    Transferred w iid size write p
      { done := p.done + p.round size, off := (p.off + p.round size) % 2 ^ 32
        buf := if write then p.buf else p.fetched size (s.partData iid (p.off / blkSz))
        hashidx := found.hashidx, expHash := found.expHash } s s' := by
  have hblock := ha.reached.block_eq
  obtain ⟨hinv', hsame, hused, hdata'⟩ :=
    ha.reached.touched hw hlive isLeaf_indexPlace (Set.notMem_empty _) hinode ht
  have hpart' : s'.HasPart iid (p.off / blkSz) := (hsame.live _ _).mpr hlive
  have hfilled : Filled s'.forest (indexPlace iid (p.off / blkSz)).1
      (indexPlace iid (p.off / blkSz)).2 p.hashidx found.hashidx :=
    ⟨ha.filled.recorded.congr hlive fun _ hl => hsame.block hl, ha.filled.deeper⟩
  have hsettles := ht.settles
  rw [← hblock] at hsettles
  have hreach : ({s₁.blockAt (indexPlace iid (p.off / blkSz)).1
      (indexPlace iid (p.off / blkSz)).2} : Set ℕ) ⊆ s₁.reach := by
    rintro b rfl
    exact Or.inr (Or.inr ⟨_, _, hlive, rfl⟩)
  have hwidens : Widens w (asked write (indexPlace iid (p.off / blkSz))) s s' :=
    (ha.grows.widens ha.reached.inv).trans
      (hsame.widens hinv' hused ht.hint (hsettles.beside hreach ht.held))
  refine ⟨hinv', fun iid' => ?_, hpart', fun r ks hl => ?_, fun iid' i hne => ?_, ?_, rfl, rfl,
    rfl, hwidens, hfilled, ?_⟩
  · rw [ht.settles.icac_eq]
    exact ha.grows.fixed iid'
  · obtain ⟨hl₁, hb₁⟩ := ha.grows.live r ks hl
    exact ⟨(hsame.live r ks).mpr hl₁, (hsame.block hl₁).trans hb₁⟩
  · exact (hsame.partData_eq ha.reached.inv hlive hsettles hne).trans (ha.grows.partData_eq iid' i)
  · rw [Sys.partData_of_part hpart', Sys.partBlock, hsame.block hlive, hblock, hdata', hd]
  · exact ha.loads_next hlive (fun _ hl => hsame.block hl) hadded ht.settles.loads

end

/-- The rule for a round of `inode_rw_data`. -/
theorem wp_rwRound (hw : w.Reliable) (hinv : s.TreeInv w ∅) (hp : s.PointsTo ip iid inode)
    (hoff : p.off < 2 ^ 32) {Q : Bool × Progress → Sys → Prop}
    (hQ : ∀ p' s', Transferred w iid size write p p' s s' → Q (true, p') s')
    (hEs : write = false → ¬s.HasPart iid (p.off / blkSz) → E (.panic .superblockRead))
    (hE : ¬s.RoomFor write (wayTo (indexPlace iid (p.off / blkSz))) →
      ∀ e : Halt, e.NoRoom → E e) : Exec.Wp (rwRound w ip size write p) Q E s := by
  have hbidx : p.off / blkSz < 2 ^ 20 := by
    simp only [blkSz]
    omega
  have hleaves : s.RawLeaves ∅ := fun b hb => absurd hb (Set.notMem_empty b)
  refine Exec.wp_bind.mpr (wp_inodeIndexLookup hw hinv hleaves hp hbidx ?_ hEs hE)
  intro found s₁ ha
  have hE' : ¬s₁.Roomy 0 → E .nodeLost ∧ E .nullDeref := by
    intro hcrowded
    have hstops := hE fun hroom => hcrowded
      ((ha.grows.roomFor (asked_subset_wayTo _ _) hroom).roomy.mono (Nat.zero_le _))
    exact ⟨hstops _ (by simp [Halt.NoRoom]), hstops _ (by simp [Halt.NoRoom])⟩
  obtain ⟨inode₁, hp₁⟩ := ha.pointsTo
  have hblock := ha.reached.block_eq
  refine Exec.wp_bind.mpr (wp_inodeAt ha.reached.inv.icac hp₁ (Exec.wp_bind.mpr ?_))
  by_cases hzero : found.bid = 0
  · rw [hzero]
    refine wp_bgetFromCacheLock_superblock hw ha.reached.inv.ok (by decide) (hEs ?_ fun hpart => ?_)
    · by_contra hne
      exact ha.reached.written (Bool.not_eq_false _ ▸ hne) hzero
    · exact (ha.grows.live _ _ hpart).1.block_ne (hblock.trans hzero)
  have hlive := ha.reached.live hzero
  have hinode := hp₁.inodeOf
  refine ha.reached.wp_fetch hw hlive (Set.notMem_empty _) hinode ?_ hE'
  intro addr added s₂ hf hadded
  have hsamedata : (s₁.spot found.bid).data = s.partData iid (p.off / blkSz) := by
    rw [← ha.grows.partData_eq, Sys.partData_of_part hlive, Sys.partBlock, hblock]
  have hcached₂ := hf.cached
  refine Exec.wp_bind.mpr (wp_blockAt_held hf.ok hcached₂ fun block hdata hbid => ?_)
  rw [hdata, hbid]
  simp only [hsamedata] at hcached₂ ⊢
  cases write with
  | true =>
    simp only [if_true]
    refine Exec.wp_bind.mpr (wp_dataStore_held hf.ok hcached₂ fun s₃ h₃ hcached₃ => ?_)
    refine Exec.wp_bind.mpr (wp_blockMakeDirty_held h₃.ok hcached₃ fun s₄ h₄ hcached₄ => ?_)
    refine Exec.wp_bind.mpr (wp_blockUnlockReturn_held h₄.ok hcached₄ fun s₅ h₅ hcached₅ => ?_)
    exact hQ _ s₅ (ha.transferred hw hlive hinode hadded
      (hf.touched ((h₃.trans h₄).trans h₅) hcached₅ (Or.inl rfl)) rfl)
  | false =>
    simp only [Bool.false_eq_true, if_false]
    have hnew : found.new = false := by
      by_contra hne
      have hasked := ha.reached.asked (Bool.not_eq_false _ ▸ hne)
      cases hasked
    refine Exec.wp_bind.mpr (wp_blockUnlockReturn_held hf.ok hcached₂ fun s₃ h₃ hcached₃ => ?_)
    exact hQ _ s₃ (ha.transferred hw hlive hinode hadded
      (hf.touched h₃ hcached₃ (Or.inr ⟨hnew, rfl, hsamedata.symm⟩)) rfl)

end

end Efs
