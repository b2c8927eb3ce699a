import Efs.IndexPath

/-!
# Runs of lookups

The lookups of the parts of the file of an inode, one after the other. Together they
build an injective map from the parts to blocks.
-/

namespace Efs

open Library

/-- A call of `inode_index_lookup` and what it found. -/
structure LookupCall where
  /-- `bidx`. -/
  bidx : ℕ
  /-- `write`. -/
  write : Bool
  /-- What was behind `hashidx`. -/
  hashidx : HashIdx
  /-- What was behind `exp_hash`. -/
  expHash : Key256
  /-- What the call returned and left behind the pointers. -/
  found : Lookup

/-- The lookup in the inode at the pointer `ip` returns. -/
def LookupStep (w : World) (ip : ℕ) (s : Sys) (c : LookupCall) (s' : Sys) : Prop :=
  inodeIndexLookup w ip c.bidx c.write c.hashidx c.expHash s = .ok (c.found, s')

/-- There is a block for a part of a file. -/
def Sys.HasPart (s : Sys) (iid bidx : ℕ) : Prop :=
  s.Live (indexPlace iid bidx).1 (indexPlace iid bidx).2

/-- The block of a part of a file. -/
def Sys.partBlock (s : Sys) (iid bidx : ℕ) : ℕ :=
  s.blockAt (indexPlace iid bidx).1 (indexPlace iid bidx).2

/-- The lookup asks for an offset of 32 bits, and without `write` for a part that was written. -/
def LookupAsks (iid : ℕ) (s : Sys) (c : LookupCall) : Prop :=
  c.bidx < 2 ^ 32 / blkSz ∧ (c.write = false → s.HasPart iid c.bidx)

/-- What a lookup does to the map from the parts of a file to blocks. -/
structure LookupMaps (iid : ℕ) (s : Sys) (c : LookupCall) (s' : Sys) : Prop where
  /-- It finds the block of the part. -/
  found : s'.HasPart iid c.bidx ∧ c.found.bid = s'.partBlock iid c.bidx
  /-- The parts that have a block keep it. -/
  keeps : ∀ i, s.HasPart iid i → s'.HasPart iid i ∧ s'.partBlock iid i = s.partBlock iid i
  /-- No other part gets one. -/
  others : ∀ i ≠ c.bidx, s'.HasPart iid i → s.HasPart iid i
  /-- `*new` is set exactly when the block was allocated. -/
  new_iff : c.found.new = true ↔ ¬s.UsedBlock c.found.bid ∧ s'.UsedBlock c.found.bid
  /-- No two places have the same block, be they of index blocks or of parts. -/
  disjoint : s'.forest.Disjoint treeShape
  /-- The slots taken are those of the path to the part, without any bits cut off. -/
  slots : Recorded s'.forest (indexPlace iid c.bidx).1 c.found.hashidx (indexPlace iid c.bidx).2
  /-- No slot is beyond the end of a block. -/
  inside : ∀ k ∈ (indexPlace iid c.bidx).2, k < indexPerBlock

section

variable {w : World} {raw : Set ℕ} {s s' : Sys} {ip iid : ℕ} {inode : Inode} {c : LookupCall}
  {cs : List LookupCall}

/-- What holds between lookups. -/
structure Sys.LooksUp (w : World) (ip iid : ℕ) (s : Sys) : Prop where
  /-- The trees are good. -/
  inv : ∃ raw, s.TreeInv w raw ∧ s.RawLeaves raw
  /-- The pointer points to the inode. -/
  pointsTo : ∃ inode, s.PointsTo ip iid inode

/-- A file of less than 2^32 bytes has at most 2^20 parts. -/
theorem two_pow_div_blkSz : 2 ^ 32 / blkSz = 2 ^ 20 := by decide

/-- The blocks that are raw after a lookup are data blocks. -/
theorem Arrived.rawLeaves {write new : Bool} {old h : HashIdx} {idx : Index} {r : RootSlot}
    {ks : List ℕ} (ha : Arrived w raw write ip old s r ks idx new h s') (hleaf : IsLeaf r ks)
    (hlive : s'.Live r ks) : s'.RawLeaves {b | b ∈ raw ∨ new = true ∧ b = idx.bid} := by
  rintro b (hb | ⟨_, rfl⟩)
  · exact ha.reached.leaves b hb
  · exact ⟨r, ks, hlive, hleaf, ha.reached.block_eq⟩

/-- Another part is not on the way to a part. -/
theorem indexPlace_not_suffix {i j : ℕ} (hne : i ≠ j)
    (hr : (indexPlace iid i).1 = (indexPlace iid j).1)
    (hks : (indexPlace iid i).2 <:+ (indexPlace iid j).2) : False := by
  have hi : IsLeaf (indexPlace iid i).1 (indexPlace iid i).2 := isLeaf_indexPlace
  have hj : IsLeaf (indexPlace iid j).1 (indexPlace iid j).2 := isLeaf_indexPlace
  have hlen : (indexPlace iid i).2.length = (indexPlace iid j).2.length :=
    hi.trans (by rw [hr]; exact hj.symm)
  exact hne (indexPlace_injective (Prod.ext hr (hks.eq_of_length hlen))).2

/-- A lookup keeps what holds between lookups, and maps its part. -/
theorem LookupStep.maps (hw : w.Reliable) (hs : s.LooksUp w ip iid) (hstep : LookupStep w ip s c s')
    (hasks : LookupAsks iid s c) : s'.LooksUp w ip iid ∧ LookupMaps iid s c s' := by
  obtain ⟨⟨raw, hinv, hleaves⟩, inode, hp⟩ := hs
  have hlt : c.bidx < 2 ^ 20 := two_pow_div_blkSz ▸ hasks.1
  have hwp : Exec.Wp (inodeIndexLookup w ip c.bidx c.write c.hashidx c.expHash)
      (fun found s' => Arrived w raw c.write ip c.hashidx s (indexPlace iid c.bidx).1
        (indexPlace iid c.bidx).2 ⟨found.bid, found.expHash⟩ found.new found.hashidx s')
      (fun _ => True) s :=
    wp_inodeIndexLookup hw hinv hleaves hp hlt (fun _ _ ha => ha) (fun _ _ => trivial)
      fun _ _ _ => trivial
  have ha := hwp.of_ok hstep
  have hlive : s'.HasPart iid c.bidx := by
    cases hwrite : c.write with
    | true => exact ha.reached.live (ha.reached.written hwrite)
    | false => exact (ha.grows.live _ _ (hasks.2 hwrite)).1
  have hblock : s'.partBlock iid c.bidx = c.found.bid := ha.reached.block_eq
  have hused : s'.UsedBlock c.found.bid := hblock ▸ ha.reached.inv.used _ _ hlive
  have hold : c.found.new = false → s.HasPart iid c.bidx := by
    intro hnew
    cases hwrite : c.write with
    | true =>
      by_contra hnot
      have hnew' := ha.new_iff.mpr ⟨hwrite, hnot⟩
      rw [hnew] at hnew'
      cases hnew'
    | false => exact hasks.2 hwrite
  refine ⟨⟨⟨_, ha.reached.inv, ha.rawLeaves isLeaf_indexPlace hlive⟩, ha.pointsTo⟩,
    ⟨hlive, hblock.symm⟩, fun i hi => ha.grows.live _ _ hi, fun i hi hpart => ?_, ?_,
    ha.reached.inv.disjoint, ha.filled.recorded, fun k hk => lt_indexPerBlock hlt hk⟩
  · refine (ha.grows.fresh _ _ hpart).resolve_right ?_
    rintro ⟨_, hr, hks⟩
    exact indexPlace_not_suffix hi hr hks
  · constructor
    · intro hnew
      have hfresh := ha.grows.unused _ _ hlive (ha.new_iff.mp hnew).2
      exact ⟨hblock ▸ hfresh, hused⟩
    · rintro ⟨hfresh, _⟩
      by_contra hnew
      have hpart := hold (Bool.not_eq_true _ ▸ hnew)
      refine hfresh ?_
      rw [← hblock, Sys.partBlock, (ha.grows.live _ _ hpart).2]
      exact hinv.used _ _ hpart

/-- A run of lookups keeps the blocks of the parts. -/
theorem lookups_keep (hw : w.Reliable) (hrun : Run (LookupStep w ip) s cs s')
    (hs : s.LooksUp w ip iid) (hasks :
      Always (LookupStep w ip) (fun s c _ => LookupAsks iid s c) s cs) :
    s'.LooksUp w ip iid ∧
      ∀ i, s.HasPart iid i → s'.HasPart iid i ∧ s'.partBlock iid i = s.partBlock iid i := by
  induction hrun with
  | nil s => exact ⟨hs, fun i hi => ⟨hi, rfl⟩⟩
  | cons hstep _ ih =>
    obtain ⟨hs₁, hmaps⟩ := hstep.maps hw hs (hasks.head hstep)
    obtain ⟨hs', hkeep⟩ := ih hs₁ (hasks.tail hstep)
    refine ⟨hs', fun i hi => ?_⟩
    obtain ⟨hi₁, heq₁⟩ := hmaps.keeps i hi
    obtain ⟨hi', heq'⟩ := hkeep i hi₁
    exact ⟨hi', heq'.trans heq₁⟩

/-- An empty disk, and the inode of an empty file in the cache. -/
def emptyFile : Sys :=
  { Sys.blank with
    icac := ⟨.empty, ⟨[⟨0, 1, 1, false, false, some ⟨1, inodeTpFile, 0, 0, fun _ => 0, Bytes.zero,
      Bytes.zero, fun _ => Bytes.zero⟩, false⟩], 1⟩, [], 1, false⟩ }

/-- The one inode of the empty file. -/
theorem emptyFile_inode {iid : ℕ} {inode : Inode} (h : emptyFile.inodeOf iid = some inode) :
    iid = 1 ∧ inode.iid = 1 ∧ inode.bid = fun _ => 0 := by
  by_cases hiid : iid = 1
  · subst hiid
    cases h
    exact ⟨rfl, rfl, rfl⟩
  · simp [Sys.inodeOf, emptyFile, Cache.node, Queue.search, Queue.empty, Ne.symm hiid] at h

/-- The empty file has no blocks. -/
theorem emptyFile_not_live (r : RootSlot) (ks : List ℕ) : ¬emptyFile.Live r ks := by
  induction ks with
  | nil =>
    intro hlive
    obtain ⟨inode, hinode⟩ := hlive.inode
    have hblock : emptyFile.blockAt r [] = inode.bid r.2 := by
      rw [Sys.blockAt_eq, Sys.slotAt_nil hinode]
      rfl
    refine hlive.2 (hblock.trans ?_)
    rw [(emptyFile_inode hinode).2.2]
  | cons k ks ih => exact fun hlive => ih hlive.1

/-- The inode cache finds the empty file. -/
theorem emptyFile_icac : emptyFile.icac.Keyed := by
  refine ⟨⟨.empty, ⟨rfl, by decide, List.nodup_singleton _⟩, List.nodup_singleton _, ?_, rfl⟩,
    List.nodup_singleton _⟩
  intro n hn
  obtain rfl := List.mem_singleton.mp hn
  exact Nat.zero_lt_one

/-- The trees around the empty file are good. -/
theorem emptyFile_treeInv : emptyFile.TreeInv World.plain ∅ := by
  refine ⟨emptyFile_icac, fun iid inode hinode => ?_, ⟨.empty, fun _ _ hn => by cases hn⟩,
    Sys.blank_metaInv, fun r ks _ _ hlive => absurd hlive (emptyFile_not_live r ks),
    fun r ks hlive => absurd hlive (emptyFile_not_live r ks),
    fun r ks _ hlive => absurd hlive (emptyFile_not_live r ks), fun _ _ _ => ⟨rfl, rfl⟩, rfl⟩
  obtain ⟨rfl, hiid, _⟩ := emptyFile_inode hinode
  exact hiid

/-- The pointer 0 points to the inode of the empty file. -/
theorem emptyFile_pointsTo : ∃ inode, emptyFile.PointsTo 0 1 inode := ⟨_, _, rfl, rfl, rfl⟩

end

end Efs
