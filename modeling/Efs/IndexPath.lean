import Efs.TreeDescent

/-!
# The places of the parts of a file

`inode_index_lookup` finds the block of a part of a file by up to four steps. This
file says which place in the trees each part has, and that the lookup comes to it,
with the path in `hashidx`.
-/

namespace Efs

open Library

/-- The root slot of a part of a file, and the slots taken from there. -/
def indexPath (bidx : ℕ) : Fin 13 × List ℕ :=
  if bidx < ndirect then (rootSlot bidx, [])
  else if bidx - ndirect < nindirect1 then (rootSlot ndirect, [bidx - ndirect])
  else if bidx - ndirect - nindirect1 < nindirect2 then
    let i := bidx - ndirect - nindirect1
    (rootSlot (ndirect + 1), [i % indexPerBlock, i / indexPerBlock])
  else
    let i := bidx - ndirect - nindirect1 - nindirect2
    (rootSlot (ndirect + 2),
      [i % indexPerBlock, i / indexPerBlock % indexPerBlock, i / indexPerBlock / indexPerBlock])

/-- The place of a part of the file of an inode. -/
def indexPlace (iid bidx : ℕ) : Place RootSlot := ((iid, (indexPath bidx).1), (indexPath bidx).2)

section

variable {bidx bidx' iid iid' : ℕ}

/-- The number of a root slot. -/
theorem rootSlot_val {i : ℕ} (h : i < 13) : (rootSlot i).val = i := Nat.mod_eq_of_lt h

/-- The four kinds of paths. -/
theorem indexPath_cases (bidx : ℕ) :
    (bidx < 10 ∧ indexPath bidx = (rootSlot bidx, [])) ∨
    (∃ i < 113, bidx = i + 10 ∧ indexPath bidx = (rootSlot 10, [i])) ∨
    (∃ i < 12769, bidx = i + 123 ∧ indexPath bidx = (rootSlot 11, [i % 113, i / 113])) ∨
    ∃ i, bidx = i + 12892 ∧
      indexPath bidx = (rootSlot 12, [i % 113, i / 113 % 113, i / 113 / 113]) := by
  unfold indexPath ndirect nindirect1 nindirect2 indexPerBlock
  split_ifs with h₁ h₂ h₃
  · exact Or.inl ⟨h₁, rfl⟩
  · exact Or.inr (Or.inl ⟨bidx - 10, h₂, by omega, rfl⟩)
  · exact Or.inr (Or.inr (Or.inl ⟨bidx - 10 - 113, h₃, by omega, rfl⟩))
  · exact Or.inr (Or.inr (Or.inr ⟨bidx - 10 - 113 - 12769, by omega, rfl⟩))

/-- The part of a file at a place. -/
theorem indexPath_injective (h : indexPath bidx = indexPath bidx') : bidx = bidx' := by
  have hval := congrArg (fun p => p.1.val) h
  have hks := congrArg (fun p => p.2) h
  rcases indexPath_cases bidx with ⟨hlt, heq⟩ | ⟨i, hlt, rfl, heq⟩ | ⟨i, hlt, rfl, heq⟩ |
    ⟨i, rfl, heq⟩ <;>
  rcases indexPath_cases bidx' with
    ⟨hlt', heq'⟩ | ⟨j, hlt', rfl, heq'⟩ | ⟨j, hlt', rfl, heq'⟩ | ⟨j, rfl, heq'⟩ <;>
  simp only [heq, heq', List.cons.injEq, reduceCtorEq, and_true, and_false] at hval hks
  · rw [rootSlot_val (by omega), rootSlot_val (by omega)] at hval
    exact hval
  · omega
  · omega
  · omega

/-- Different parts of files have different places. -/
theorem indexPlace_injective (h : indexPlace iid bidx = indexPlace iid' bidx') :
    iid = iid' ∧ bidx = bidx' := by
  simp only [indexPlace, Prod.mk.injEq] at h
  exact ⟨h.1.1, indexPath_injective (Prod.ext h.1.2 h.2)⟩

/-- The places are those of data blocks. -/
theorem isLeaf_indexPlace : IsLeaf (indexPlace iid bidx).1 (indexPlace iid bidx).2 := by
  simp only [IsLeaf, indexPlace, treeShape]
  rcases indexPath_cases bidx with ⟨hlt, heq⟩ | ⟨i, _, _, heq⟩ | ⟨i, _, _, heq⟩ | ⟨i, _, heq⟩
  · rw [heq, rootSlot_val (by omega), List.length_nil]
    omega
  · rw [heq]
    rfl
  · rw [heq]
    rfl
  · rw [heq]
    rfl

/-- The slots are there: every block has 113. -/
theorem lt_indexPerBlock (h : bidx < 2 ^ 20) {k : ℕ} (hk : k ∈ (indexPath bidx).2) :
    k < indexPerBlock := by
  simp only [indexPerBlock]
  rcases indexPath_cases bidx with ⟨hlt, heq⟩ | ⟨i, _, _, heq⟩ | ⟨i, _, _, heq⟩ | ⟨i, _, heq⟩ <;>
  simp only [heq, List.mem_cons, List.not_mem_nil, or_false] at hk <;> omega

end

/-! ## Paths in `hashidx` -/

section

variable {F : Forest RootSlot Index} {r : RootSlot} {ks : List ℕ} {h : HashIdx} {i j : ℕ}
  {slot : HashSlot}

/-- The entry that is set is there. -/
theorem HashIdx.at_set : (h.set j slot).at j = slot := by
  simp [HashIdx.at, HashIdx.set]

/-- An entry that is set leaves the others. -/
theorem HashIdx.at_set_of_ne (hi : i < 4) (hj : j < 4) (hne : i ≠ j) :
    (h.set j slot).at i = h.at i := by
  have hfin : Fin.ofNat 4 i ≠ Fin.ofNat 4 j := by
    intro heq
    have hval := congrArg Fin.val heq
    simp only [Fin.ofNat, Nat.mod_eq_of_lt hi, Nat.mod_eq_of_lt hj] at hval
    exact hne hval
  exact Function.update_of_ne hfin _ _

/-- A deeper entry is none of the path. -/
theorem Recorded.set (hrec : Recorded F r h ks) (hlt : ks.length < j) (hj : j < 4) :
    Recorded F r (h.set j slot) ks := by
  induction ks with
  | nil => exact (HashIdx.at_set_of_ne (by omega) hj hlt.ne).trans hrec
  | cons k ks ih =>
    rw [List.length_cons] at hlt
    exact ⟨(HashIdx.at_set_of_ne (by omega) hj hlt.ne).trans hrec.1, ih hrec.2 (by omega)⟩

end

/-! ## The lookup -/

/-- A `hashidx` on the way to a place: it has the path so far, and its deeper entries
are those of `old`. -/
structure Filled (F : Forest RootSlot Index) (r : RootSlot) (ks : List ℕ) (old h : HashIdx) :
    Prop where
  /-- The path so far. -/
  recorded : Recorded F r h ks
  /-- The deeper entries. -/
  deeper : ∀ i, ks.length < i → i < 4 → h.at i = old.at i

/-- The block cache after the blocks above a place were looked up in it, from the root on. -/
def Sys.cacheAbove (s : Sys) (r : RootSlot) : List ℕ → Cache Block
  | [] => s.bcac
  | _ :: ks => ((s.cacheAbove r ks).find (s.blockAt r ks) true).cache

/-- The place has a block, and `cache_find` finds it when it was asked for the blocks above
it before. -/
def Sys.Finds (s : Sys) (r : RootSlot) (ks : List ℕ) : Prop :=
  s.Live r ks ∧ (s.cacheAbove r ks).node (s.blockAt r ks) ≠ none

/-- The paths to the blocks above a place. -/
def pathsAbove (ks : List ℕ) : Set (List ℕ) := {ks' | ks' <:+ ks ∧ ks'.length < ks.length}

/-- What was loaded on the way down a tree from the state `s₀` to the state `s`. -/
structure PathLoads (old : HashIdx) (s₀ s : Sys) (r : RootSlot) (above : Set (List ℕ))
    (added : List (ℕ × HashIdx)) : Prop where
  /-- The blocks are on the way, and were loaded with the path to them. -/
  filled : ∀ l ∈ added, ∃ ks ∈ above, l.1 = s.blockAt r ks ∧ Filled s.forest r ks old l.2
  /-- When the blocks above it were found, a block was loaded unless it was found too. -/
  loaded_iff : ∀ ks ∈ above, (∀ ks' ∈ pathsAbove ks, s₀.Finds r ks') →
    ((∃ l ∈ added, l.1 = s.blockAt r ks) ↔ ¬s₀.Finds r ks)

/-- What a lookup from the state `s₀` knows when it came to a place. -/
structure Arrived (w : World) (raw : Set ℕ) (write : Bool) (ip : ℕ) (old : HashIdx) (s₀ : Sys)
    (r : RootSlot) (ks : List ℕ) (idx : Index) (new : Bool) (h : HashIdx) (s : Sys) : Prop where
  /-- It came to the slot. -/
  reached : Reached w raw write r ks idx new s
  /-- Nothing else happened to the trees. -/
  grows : Grows w (asked write (r, ks)) s₀ s
  /-- The pointer to the inode is good. -/
  pointsTo : ∃ inode, s.PointsTo ip r.1 inode
  /-- The block is new when there was none. -/
  new_iff : new = true ↔ write = true ∧ ¬s₀.Live r ks
  /-- The `hashidx`. -/
  filled : Filled s.forest r ks old h
  /-- The blocks that were loaded. -/
  loads : ∃ added, s.loads = added ++ s₀.loads ∧ PathLoads old s₀ s r (pathsAbove ks) added
  /-- When the blocks above were found, nothing else happened to the block cache. -/
  alike : new = false → (∀ ks' ∈ pathsAbove ks, s₀.Finds r ks') →
    s.bcac.Alike (s₀.cacheAbove r ks)

section

variable {w : World} {E : Halt → Prop} {raw : Set ℕ} {s₀ s s' : Sys} {r : RootSlot}
  {ks ks' : List ℕ}
  {k ip iid bidx : ℕ} {write new : Bool} {idx : Index} {old h : HashIdx} {inode : Inode}
  {P : Set (Place RootSlot)}

/-- The path to a block stays while the trees grow. -/
theorem Filled.grows (hfilled : Filled s.forest r ks old h) (hgrows : Grows w P s s')
    (hlive : s.Live r ks) : Filled s'.forest r ks old h :=
  ⟨hfilled.recorded.congr hlive fun ks' hl => (hgrows.live r ks' hl).2, hfilled.deeper⟩

/-- A path below a root slot has at most four slots. -/
theorem length_lt_four (hlt : ks.length < treeShape.height r) : ks.length + 1 < 4 := by
  have hle := height_le r
  omega

/-- The path to the next slot. -/
theorem Filled.cons (hfilled : Filled s.forest r ks old h) (hlt : ks.length < treeShape.height r)
    {bid : ℕ} (hbid : s.blockAt r ks = bid) :
    Filled s.forest r (k :: ks) old (h.set (ks.length + 1) ⟨bid, k⟩) := by
  have hlen := length_lt_four hlt
  refine ⟨⟨?_, hfilled.recorded.set (Nat.lt_succ_self _) hlen⟩, fun i hi hi4 => ?_⟩
  · rw [HashIdx.at_set, ← hbid]
    rfl
  · rw [List.length_cons] at hi
    rw [HashIdx.at_set_of_ne hi4 hlen (by omega)]
    exact hfilled.deeper i (by omega) hi4

/-- Nothing is above a root slot. -/
theorem pathsAbove_nil : pathsAbove [] = ∅ := by
  ext ks
  simp [pathsAbove]

/-- The blocks above the next slot are those above this one and the one at it. -/
theorem mem_pathsAbove_cons : ks' ∈ pathsAbove (k :: ks) ↔ ks' <:+ ks := by
  constructor
  · rintro ⟨hks, hlt⟩
    refine (List.suffix_cons_iff.mp hks).resolve_left ?_
    rintro rfl
    exact lt_irrefl _ hlt
  · intro hks
    refine ⟨hks.trans (List.suffix_cons k ks), ?_⟩
    rw [List.length_cons]
    exact Nat.lt_succ_of_le hks.length_le

/-- Above a place are its parent and what is above that. -/
theorem pathsAbove_cons : pathsAbove (k :: ks) = {ks' | ks' <:+ ks} :=
  Set.ext fun _ => mem_pathsAbove_cons

/-- A slot that a lookup came to got its block for the lookup when it had none. -/
theorem Arrived.new_eq (ha : Arrived w raw write ip old s₀ r ks idx new h s) (hlive : s.Live r ks) :
    new = true ↔ ¬s₀.Live r ks := by
  rw [ha.new_iff]
  refine ⟨fun hnew => hnew.2, fun hnot => ⟨?_, hnot⟩⟩
  exact ((ha.grows.fresh r ks hlive).resolve_left hnot).1

/-- The block of the slot is in the cache when the lookups of the blocks above it would leave
it there. -/
theorem Arrived.finds_iff (ha : Arrived w raw write ip old s₀ r ks idx new h s)
    (hlive : s.Live r ks) (habove : ∀ ks' ∈ pathsAbove ks, s₀.Finds r ks') :
    s₀.Finds r ks ↔ (s.spot idx.bid).node ≠ none := by
  have hnode : (s.spot idx.bid).node = s.bcac.node idx.bid := rfl
  by_cases hl : s₀.Live r ks
  · have hnew : new = false := by
      rw [← Bool.not_eq_true, ha.new_eq hlive]
      exact not_not.mpr hl
    have hblock : s₀.blockAt r ks = idx.bid :=
      (ha.grows.live r ks hl).2.symm.trans ha.reached.block_eq
    rw [Sys.Finds, and_iff_right hl, hnode, hblock]
    exact not_congr ((ha.alike hnew habove).node_eq_none idx.bid).symm
  · refine iff_of_false (fun hfinds => hl hfinds.1) (not_not.mpr ?_)
    obtain rfl := (ha.new_eq hlive).mpr hl
    obtain ⟨inode, hinode⟩ := hlive.inode
    have hblank := (ha.reached.inv.good r ks inode hlive hinode).blank
      (Or.inr ⟨rfl, ha.reached.block_eq⟩)
    rw [ha.reached.block_eq] at hblank
    exact hblank.1

/-- The loads on the way down, with that of the block that the lookup came to. -/
theorem Arrived.loads_next (ha : Arrived w raw write ip old s₀ r ks idx new h s)
    (hlive : s.Live r ks) (hsame : ∀ ks', s.Live r ks' → s'.blockAt r ks' = s.blockAt r ks')
    {added : List (ℕ × HashIdx)} (hadded : LoadedOnce s idx.bid h added)
    (hloads : s'.loads = added ++ s.loads) : ∃ all, s'.loads = all ++ s₀.loads ∧
      PathLoads old s₀ s' r {ks' | ks' <:+ ks} all := by
  obtain ⟨before, hbefore, hpath⟩ := ha.loads
  have hblock : s'.blockAt r ks = idx.bid := (hsame ks hlive).trans ha.reached.block_eq
  have hup : ∀ {ks'}, ks' <:+ ks → s.Live r ks' := fun hks => Forest.Live.of_suffix hlive hks
  have hfill : ∀ {ks' h'}, ks' <:+ ks → Filled s.forest r ks' old h' →
      Filled s'.forest r ks' old h' := fun hks hf =>
    ⟨hf.recorded.congr (hup hks) hsame, hf.deeper⟩
  have hkind : ∀ l ∈ added, l = (idx.bid, h) := by
    intro l hl
    rcases hadded with ⟨_, rfl⟩ | ⟨_, rfl⟩
    · cases hl
    · rwa [loaded, if_pos (ha.reached.dataStart_le hlive), List.mem_singleton] at hl
  -- Blocks of different places are different.
  have hne : ∀ {ks₁ ks₂}, ks₁ <:+ ks → ks₂ <:+ ks → s'.blockAt r ks₁ = s'.blockAt r ks₂ →
      ks₁ = ks₂ := by
    intro ks₁ ks₂ h₁ h₂ heq
    rw [hsame _ (hup h₁), hsame _ (hup h₂)] at heq
    exact (Prod.mk.inj (ha.reached.inv.disjoint _ _ _ _ (hup h₁) (hup h₂) heq)).2
  refine ⟨added ++ before, by rw [hloads, hbefore, List.append_assoc], fun l hl => ?_, ?_⟩
  · rcases List.mem_append.mp hl with hl | hl
    · obtain rfl := hkind l hl
      exact ⟨ks, List.suffix_refl ks, hblock.symm, hfill (List.suffix_refl ks) ha.filled⟩
    · obtain ⟨ks', hks', hbid, hf⟩ := hpath.filled l hl
      exact ⟨ks', hks'.1, hbid.trans (hsame ks' (hup hks'.1)).symm, hfill hks'.1 hf⟩
  · intro ks' hks' habove
    rcases eq_or_ne ks' ks with rfl | hks
    · rw [ha.finds_iff hlive habove, not_not]
      constructor
      · rintro ⟨l, hl, hbid⟩
        rcases List.mem_append.mp hl with hl | hl
        · rcases hadded with ⟨_, rfl⟩ | ⟨hnode, _⟩
          · cases hl
          · exact hnode
        · obtain ⟨ks₁, hks₁, hbid₁, _⟩ := hpath.filled l hl
          rw [← hsame ks₁ (hup hks₁.1)] at hbid₁
          obtain rfl := hne hks₁.1 (List.suffix_refl _) (hbid₁.symm.trans hbid)
          exact absurd hks₁.2 (lt_irrefl _)
      · intro hnode
        rcases hadded with ⟨hcached, _⟩ | ⟨_, rfl⟩
        · exact absurd hnode hcached
        · refine ⟨(idx.bid, h), List.mem_append_left _ ?_, hblock.symm⟩
          rw [loaded, if_pos (ha.reached.dataStart_le hlive)]
          exact List.mem_singleton_self _
    · have hmem : ks' ∈ pathsAbove ks := by
        refine ⟨hks', lt_of_le_of_ne hks'.length_le fun heq => hks ?_⟩
        exact hks'.eq_of_length heq
      rw [← hpath.loaded_iff ks' hmem habove, hsame ks' (hup hks')]
      constructor
      · rintro ⟨l, hl, hbid⟩
        rcases List.mem_append.mp hl with hl | hl
        · obtain rfl := hkind l hl
          refine absurd (hne hks' (List.suffix_refl ks) ?_) hks
          rw [hblock, hsame ks' (hup hks')]
          exact hbid.symm
        · exact ⟨l, hl, hbid⟩
      · rintro ⟨l, hl, hbid⟩
        exact ⟨l, List.mem_append_right _ hl, hbid⟩

variable (hw : w.Reliable)

include hw

/-- A lookup comes to a root slot. -/
theorem wp_arrive_root (hinv : s.TreeInv w raw) (hleaves : s.RawLeaves raw)
    (hp : s.PointsTo ip iid inode) {i : ℕ} (hi : i < 13) (hashidx : HashIdx)
    {Q : Option (Index × Bool) → Sys → Prop}
    (hQ : ∀ idx new s', Arrived w raw write ip hashidx s (iid, rootSlot i) [] idx new
      (hashidx.set 0 ⟨inode.iid, i⟩) s' → Q (some (idx, new)) s')
    (hP : ((iid, rootSlot i), []) ∈ P) (hE : ¬s.RoomFor write P → ∀ e : Halt, e.NoRoom → E e) :
    Exec.Wp (rootLookup w ip i write) Q E s := by
  refine wp_rootLookup hw hinv hleaves hp ?_ hP hE
  intro idx new s' hreached hgrows hloads hbcac hnew
  obtain ⟨inode', hp', _⟩ := hp.of_fixed (hgrows.fixed _)
  refine hQ idx new s' ⟨hreached, hgrows, ⟨inode', hp'⟩, hnew, ⟨?_, fun j hj hj4 => ?_⟩,
    ⟨[], hloads, by simp, by simp [pathsAbove_nil]⟩, fun hold _ => ?_⟩
  · change (hashidx.set 0 ⟨inode.iid, i⟩).at 0 = ⟨iid, (rootSlot i).val⟩
    rw [HashIdx.at_set, rootSlot_val hi, hinv.iid_eq iid inode hp.inodeOf]
  · exact HashIdx.at_set_of_ne hj4 (by decide) (Nat.ne_of_gt hj)
  · rw [hbcac hold]
    exact .refl _

/-- A lookup goes on to a slot of the block that it came to. -/
theorem wp_arrive_slot (ha : Arrived w raw write ip old s₀ r ks idx new h s)
    (hlt : ks.length < treeShape.height r) (hk : k < indexPerBlock)
    {Q : Option (Index × Bool) → Sys → Prop}
    (hQ : ∀ idx' new' s', Arrived w raw write ip old s₀ r (k :: ks) idx' new'
      (h.set (ks.length + 1) ⟨idx.bid, k⟩) s' → Q (some (idx', new')) s')
    (hEs : write = false → ¬s₀.Live r (k :: ks) → E (.panic .superblockRead))
    (hP : wayTo (r, k :: ks) ⊆ P) (hE : ¬s₀.RoomFor write P → ∀ e : Halt, e.NoRoom → E e) :
    Exec.Wp (indexLookupOneLevel w ip idx.bid k h (expected idx new) write) Q E s := by
  obtain ⟨inode, hp⟩ := ha.pointsTo
  have hEs' : idx.bid = 0 → E (.panic .superblockRead) := by
    intro hzero
    refine hEs ?_ fun hlive => ?_
    · by_contra hne
      exact ha.reached.written (Bool.not_eq_false _ ▸ hne) hzero
    · exact (ha.grows.live r ks hlive.1).1.block_ne (ha.reached.block_eq.trans hzero)
  have hway : asked write (r, ks) ⊆ P :=
    (asked_subset_wayTo _ _).trans ((wayTo_subset (List.suffix_cons k ks)).trans hP)
  refine wp_indexLookupOneLevel hw ha.reached hlt hk hp ?_ hEs' (hP (mem_wayTo _))
    fun hcrowded => hE fun hroom => hcrowded (ha.grows.roomFor hway hroom)
  intro idx' new' added s' hlive hreached hgrows hloads hadded halike hnew
  obtain ⟨inode', hp', _⟩ := hp.of_fixed (hgrows.fixed _)
  have hsuffix : ks <:+ k :: ks := List.suffix_cons k ks
  have hgrows₀ := Grows.trans ha.reached.inv (ha.grows.mono (asked_subset hsuffix)) hgrows
  have hblock : s'.blockAt r ks = idx.bid := by
    rw [(hgrows.live r ks hlive).2, ha.reached.block_eq]
  have hfilled := ha.filled.grows hgrows hlive
  refine hQ idx' new' s' ⟨hreached, hgrows₀, ⟨inode', hp'⟩, ?_, hfilled.cons hlt hblock, ?_, ?_⟩
  · rw [hnew]
    refine and_congr_right fun _ => not_congr ⟨fun hl => ?_, fun hl => (ha.grows.live r _ hl).1⟩
    refine (ha.grows.fresh r _ hl).resolve_right fun hmem => ?_
    have hlen : (k :: ks).length ≤ ks.length := hmem.2.2.length_le
    rw [List.length_cons] at hlen
    omega
  · rw [pathsAbove_cons]
    exact ha.loads_next hlive (fun ks' hl => (hgrows.live r ks' hl).2) hadded hloads
  · intro hold habove
    have hfinds : s₀.Finds r ks := habove ks (mem_pathsAbove_cons.mpr (List.suffix_refl ks))
    have habove' : ∀ ks' ∈ pathsAbove ks, s₀.Finds r ks' := fun ks' hks' =>
      habove ks' (mem_pathsAbove_cons.mpr hks'.1)
    have hnew' : new = false := by
      rw [← Bool.not_eq_true, ha.new_eq hlive]
      exact not_not.mpr hfinds.1
    refine (halike hold ((ha.finds_iff hlive habove').mp hfinds)).trans ?_
    rw [Sys.cacheAbove, ← (ha.grows.live r ks hfinds.1).2, ha.reached.block_eq]
    exact (ha.alike hnew' habove').find idx.bid

/-- The rule for `inode_index_lookup`. -/
theorem wp_inodeIndexLookup (hinv : s.TreeInv w raw) (hleaves : s.RawLeaves raw)
    (hp : s.PointsTo ip iid inode) (hbidx : bidx < 2 ^ 20) {hashidx : HashIdx} {expHash : Key256}
    {Q : Lookup → Sys → Prop}
    (hQ : ∀ found s', Arrived w raw write ip hashidx s (indexPlace iid bidx).1
      (indexPlace iid bidx).2 ⟨found.bid, found.expHash⟩ found.new found.hashidx s' → Q found s')
    (hEs : write = false → ¬s.Live (indexPlace iid bidx).1 (indexPlace iid bidx).2 →
      E (.panic .superblockRead))
    (hE : ¬s.RoomFor write (wayTo (indexPlace iid bidx)) → ∀ e : Halt, e.NoRoom → E e) :
    Exec.Wp (inodeIndexLookup w ip bidx write hashidx expHash) Q E s := by
  refine Exec.wp_bind.mpr (wp_inodeAt hinv.icac hp ?_)
  have hk : ∀ i < 113, i % 2 ^ 8 = i := fun i hi => Nat.mod_eq_of_lt (by omega)
  have hP : ∀ ks, ks <:+ (indexPlace iid bidx).2 →
      wayTo ((indexPlace iid bidx).1, ks) ⊆ wayTo (indexPlace iid bidx) :=
    fun _ hks => wayTo_subset hks
  generalize wayTo (indexPlace iid bidx) = P at hP hE
  dsimp only
  rcases indexPath_cases bidx with ⟨hlt, hpath⟩ | ⟨i, hlt, rfl, hpath⟩ | ⟨i, hlt, rfl, hpath⟩ |
    ⟨i, rfl, hpath⟩
  · simp only [indexPlace, hpath] at hQ hEs hP
    rw [if_pos (show bidx < ndirect from hlt), Nat.mod_eq_of_lt (by omega)]
    refine Exec.wp_bind.mpr (wp_arrive_root hw hinv hleaves hp (by omega) hashidx ?_
      (hP [] List.nil_suffix (mem_wayTo _)) hE)
    intro idx new s' ha
    exact hQ ⟨idx.bid, _, idx.hash, new⟩ s' ha
  · simp only [indexPlace, hpath] at hQ hEs hP
    have hsub : i + 10 - ndirect = i := by simp only [ndirect]; omega
    rw [if_neg (by simp only [ndirect]; omega), hsub, if_pos (show i < nindirect1 from hlt),
      hk i hlt]
    refine Exec.wp_bind.mpr (wp_arrive_root hw hinv hleaves hp (by decide) hashidx ?_
      (hP [] List.nil_suffix (mem_wayTo _)) hE)
    intro root new₀ s₀ h₀
    refine Exec.wp_bind.mpr (wp_arrive_slot hw h₀ (by decide : 0 < 1) hlt ?_ hEs
      (hP _ (List.suffix_refl _)) hE)
    intro idx new₁ s₁ h₁
    exact hQ ⟨idx.bid, _, idx.hash, new₁⟩ s₁ h₁
  · simp only [indexPlace, hpath] at hQ hEs hP
    have hsub : i + 123 - ndirect - nindirect1 = i := by simp only [ndirect, nindirect1]; omega
    rw [if_neg (by simp only [ndirect]; omega), if_neg (by simp only [ndirect, nindirect1]; omega),
      hsub, if_pos (show i < nindirect2 from hlt)]
    simp only [indexPerBlock]
    have hslot₁ : i / 113 < 113 := by omega
    have hslot₂ : i % 113 < 113 := Nat.mod_lt _ (by decide)
    rw [hk _ hslot₁, hk _ hslot₂]
    refine Exec.wp_bind.mpr (wp_arrive_root hw hinv hleaves hp (by decide) hashidx ?_
      (hP [] List.nil_suffix (mem_wayTo _)) hE)
    intro root new₀ s₀ h₀
    refine Exec.wp_bind.mpr (wp_arrive_slot hw h₀ (by decide : 0 < 2) hslot₁ ?_
      (fun hr hnot => hEs hr fun hl => hnot hl.1) (hP _ (List.suffix_cons _ _)) hE)
    intro idx₁ new₁ s₁ h₁
    refine Exec.wp_bind.mpr (wp_arrive_slot hw h₁ (by decide : 1 < 2) hslot₂ ?_ hEs
      (hP _ (List.suffix_refl _)) hE)
    intro idx new₂ s₂ h₂
    exact hQ ⟨idx.bid, _, idx.hash, new₂⟩ s₂ h₂
  · simp only [indexPlace, hpath] at hQ hEs hP
    have hsub : i + 12892 - ndirect - nindirect1 - nindirect2 = i := by
      simp only [ndirect, nindirect1, nindirect2]; omega
    rw [if_neg (by simp only [ndirect]; omega), if_neg (by simp only [ndirect, nindirect1]; omega),
      if_neg (by simp only [ndirect, nindirect1, nindirect2]; omega), hsub]
    simp only [indexPerBlock, Nat.mod_mul_right_div_self, Nat.mod_mul_right_mod]
    have hslot₁ : i / 113 / 113 < 113 := by omega
    have hslot₂ : i / 113 % 113 < 113 := Nat.mod_lt _ (by decide)
    have hslot₃ : i % 113 < 113 := Nat.mod_lt _ (by decide)
    rw [hk _ hslot₁, hk _ hslot₂, hk _ hslot₃]
    refine Exec.wp_bind.mpr (wp_arrive_root hw hinv hleaves hp (by decide) hashidx ?_
      (hP [] List.nil_suffix (mem_wayTo _)) hE)
    intro root new₀ s₀ h₀
    refine Exec.wp_bind.mpr (wp_arrive_slot hw h₀ (by decide : 0 < 3) hslot₁ ?_
      (fun hr hnot => hEs hr fun hl => hnot hl.1.1)
      (hP _ ((List.suffix_cons _ _).trans (List.suffix_cons _ _))) hE)
    intro idx₁ new₁ s₁ h₁
    refine Exec.wp_bind.mpr (wp_arrive_slot hw h₁ (by decide : 1 < 3) hslot₂ ?_
      (fun hr hnot => hEs hr fun hl => hnot hl.1) (hP _ (List.suffix_cons _ _)) hE)
    intro idx₂ new₂ s₂ h₂
    refine Exec.wp_bind.mpr (wp_arrive_slot hw h₂ (by decide : 2 < 3) hslot₃ ?_ hEs
      (hP _ (List.suffix_refl _)) hE)
    intro idx new₃ s₃ h₃
    exact hQ ⟨idx.bid, _, idx.hash, new₃⟩ s₃ h₃

end

end Efs
