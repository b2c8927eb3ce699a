import Efs.BlockExit
import Efs.FileTree
import Efs.SysCalls

/-!
# What the exit cascade does

The trees that the disk holds, seen through decryption, and the hash that each
slot of them should have. Each write of the cascade sets the hash of one slot; a
round makes every slot from an entry up to its inode agree with the block it
points at, and the entries left after the first pass cover every other slot.
-/

namespace Efs

open Library

section

variable (w : World) (live : Set ℕ) (s : Sys)

/-- The plaintext on the disk of the block of an inode. -/
def Sys.inodePlain (iid : ℕ) : Data :=
  w.decrypt (s.sb.aesIv (inodeIid2Bid iid)) (s.sb.aesKey (inodeIid2Bid iid))
    (s.disk (inodeIid2Bid iid))

/-- The plaintext on the disk of a block in the tree of an inode. -/
def Sys.plain (iid bid : ℕ) : Data :=
  w.decrypt (dinodeAesIv (s.inodePlain w iid) iid) (dinodeAesKey (s.inodePlain w iid) iid)
    (s.disk bid)

/-- The trees that the disk holds for the inodes `live`. -/
def Sys.onDisk : Forest RootSlot Index where
  isRoot r := r.1 ∈ live
  root r := ⟨dinodeBid (s.inodePlain w r.1) r.1 r.2, dinodeHash (s.inodePlain w r.1) r.1 r.2⟩
  entry r bid k := indexAt (s.plain w r.1 bid) k

/-- The slot at a place has the hash of the block it points at. -/
def Hashed (r : RootSlot) (ks : List ℕ) : Prop :=
  ((s.onDisk w live).slot treeShape r ks).hash =
    w.sha256 (s.plain w r.1 ((s.onDisk w live).block treeShape r ks))

/-- The trees use distinct blocks of the data area, and the inodes are in the inode area. -/
structure Placed : Prop where
  /-- The inode numbers are those of the bitmap. -/
  live_lt : ∀ iid ∈ live, iid < 32768
  /-- The blocks are in the data area. -/
  data : ∀ r ks, (s.onDisk w live).Live treeShape r ks →
    dataStart ≤ (s.onDisk w live).block treeShape r ks
  /-- No block is at two places. -/
  disjoint : (s.onDisk w live).Disjoint treeShape

/-- The bytes of the hashes of root slots that are in use, in the block of an inode. -/
def rootHashFields (iid : ℕ) : Set ℕ :=
  {i | ∃ r : RootSlot, inodeIid2Bid r.1 = inodeIid2Bid iid ∧
    (s.onDisk w live).Live treeShape r [] ∧ i ∈ dinodeHashField r.1 r.2}

/-- The bytes of the hashes of slots that are in use, in the block at a place. -/
def entryHashFields (r : RootSlot) (ks : List ℕ) : Set ℕ :=
  {i | ∃ k, (s.onDisk w live).Live treeShape r (k :: ks) ∧ i ∈ indexHashField k}

end

/-- Nothing but hashes of slots in use changed on the disk. -/
structure OnlyHashes (w : World) (live : Set ℕ) (s s' : Sys) : Prop where
  /-- The superblock is as it was. -/
  sb : s'.sb = s.sb
  /-- The trees have the same places. -/
  live_iff : ∀ r ks, (s'.onDisk w live).Live treeShape r ks ↔ (s.onDisk w live).Live treeShape r ks
  /-- The same blocks are there. -/
  block : ∀ r ks, (s.onDisk w live).Live treeShape r ks →
    (s'.onDisk w live).block treeShape r ks = (s.onDisk w live).block treeShape r ks
  /-- The keys of the inodes are as they were. -/
  keys : ∀ iid ∈ live, dinodeAesIv (s'.inodePlain w iid) iid = dinodeAesIv
    (s.inodePlain w iid) iid ∧
    dinodeAesKey (s'.inodePlain w iid) iid = dinodeAesKey (s.inodePlain w iid) iid
  /-- The other bytes of the blocks of the inodes. -/
  inode : ∀ iid ∈ live, ∀ i ∉ rootHashFields w live s iid,
    (s'.inodePlain w iid).get i = (s.inodePlain w iid).get i
  /-- The other bytes of the blocks of the trees. -/
  tree : ∀ r ks, (s.onDisk w live).Live treeShape r ks → ∀ i ∉ entryHashFields w live s r ks,
    (s'.plain w r.1 ((s.onDisk w live).block treeShape r ks)).get i =
      (s.plain w r.1 ((s.onDisk w live).block treeShape r ks)).get i
  /-- The other blocks. -/
  other : ∀ bid, (∀ iid ∈ live, bid ≠ inodeIid2Bid iid) →
    (∀ r ks, (s.onDisk w live).Live treeShape r ks →
      bid ≠ (s.onDisk w live).block treeShape r ks) → s'.disk bid = s.disk bid

section

variable {w : World} {live : Set ℕ} {s s₁ s' : Sys} {r : RootSlot} {ks : List ℕ}

/-- Only hashes change when nothing happens. -/
theorem OnlyHashes.refl (s : Sys) : OnlyHashes w live s s :=
  ⟨rfl, fun _ _ => Iff.rfl, fun _ _ _ => rfl, fun _ _ => ⟨rfl, rfl⟩, fun _ _ _ _ => rfl,
    fun _ _ _ _ _ => rfl, fun _ _ _ => rfl⟩

/-- Only hashes change in two steps that change only hashes. -/
theorem OnlyHashes.trans (h₁ : OnlyHashes w live s s₁) (h₂ : OnlyHashes w live s₁ s') :
    OnlyHashes w live s s' := by
  have hroot : ∀ iid, rootHashFields w live s₁ iid = rootHashFields w live s iid := fun iid => by
    simp only [rootHashFields, h₁.live_iff]
  have hentry : ∀ r ks, entryHashFields w live s₁ r ks = entryHashFields w live s r ks :=
    fun r ks => by simp only [entryHashFields, h₁.live_iff]
  refine ⟨h₂.sb.trans h₁.sb, fun r ks => (h₂.live_iff r ks).trans (h₁.live_iff r ks), ?_, ?_, ?_,
    ?_, ?_⟩
  · intro r ks hlive
    rw [h₂.block r ks ((h₁.live_iff r ks).mpr hlive), h₁.block r ks hlive]
  · intro iid hiid
    have hkeys₁ := h₁.keys iid hiid
    have hkeys₂ := h₂.keys iid hiid
    exact ⟨hkeys₂.1.trans hkeys₁.1, hkeys₂.2.trans hkeys₁.2⟩
  · intro iid hiid i hi
    rw [h₂.inode iid hiid i (by rwa [hroot]), h₁.inode iid hiid i hi]
  · intro r ks hlive i hi
    have htree := h₂.tree r ks ((h₁.live_iff r ks).mpr hlive) i (by rwa [hentry])
    rw [h₁.block r ks hlive] at htree
    rw [htree, h₁.tree r ks hlive i hi]
  · intro bid hinode hblock
    rw [h₂.other bid hinode ?_, h₁.other bid hinode hblock]
    intro r ks hlive
    rw [h₁.block r ks ((h₁.live_iff r ks).mp hlive)]
    exact hblock r ks ((h₁.live_iff r ks).mp hlive)

/-- What keeps the places keeps the trees well placed. -/
theorem Placed.of_onlyHashes (hs : Placed w live s) (h : OnlyHashes w live s s') :
    Placed w live s' := by
  refine ⟨hs.live_lt, fun r ks hlive => ?_, fun r ks r' ks' hlive hlive' heq => ?_⟩
  · have hlive₀ := (h.live_iff r ks).mp hlive
    rw [h.block r ks hlive₀]
    exact hs.data r ks hlive₀
  · have hlive₀ := (h.live_iff r ks).mp hlive
    have hlive₀' := (h.live_iff r' ks').mp hlive'
    rw [h.block r ks hlive₀, h.block r' ks' hlive₀'] at heq
    exact hs.disjoint r ks r' ks' hlive₀ hlive₀' heq

/-- The block of an inode is not in the data area. -/
theorem inodeIid2Bid_lt {iid : ℕ} (h : iid < 32768) : inodeIid2Bid iid < dataStart := by
  simp only [inodeIid2Bid, inodeStart, inodePerBlock, dataStart]
  omega

/-! ## One write -/

/-- A write to a data block leaves the blocks of the inodes alone. -/
theorem inodePlain_of_data {iid bid : ℕ} {data : Data} (hiid : iid < 32768)
    (hbid : dataStart ≤ bid) (hsb : s'.sb = s.sb)
    (hdisk : s'.disk = Function.update s.disk bid data) :
    s'.inodePlain w iid = s.inodePlain w iid := by
  have hne : inodeIid2Bid iid ≠ bid := ((inodeIid2Bid_lt hiid).trans_le hbid).ne
  simp only [Sys.inodePlain, hsb, hdisk, Function.update_of_ne hne]

/-- The hash of one slot was set. -/
structure SetsHash (w : World) (live : Set ℕ) (s s' : Sys) (r : RootSlot) (ks : List ℕ)
    (hash : Key256) : Prop where
  /-- Nothing but hashes changed. -/
  only : OnlyHashes w live s s'
  /-- The other slots are as they were. -/
  slot : ∀ r' ks', (s.onDisk w live).Live treeShape r' ks' → (r', ks') ≠ (r, ks) →
    (s'.onDisk w live).slot treeShape r' ks' = (s.onDisk w live).slot treeShape r' ks'
  /-- The slot has the hash. -/
  hash_eq : ((s'.onDisk w live).slot treeShape r ks).hash = hash
  /-- The blocks but the one of the slot are as they were. -/
  plain : ∀ r' ks', (s.onDisk w live).Live treeShape r' ks' → (r', ks') ≠ (r, ks.tail) ∨ ks = [] →
    s'.plain w r'.1 ((s.onDisk w live).block treeShape r' ks') =
      s.plain w r'.1 ((s.onDisk w live).block treeShape r' ks')

/-- The slot that was set agrees with its block when it was set to the right hash. -/
theorem SetsHash.hashed_self {hash : Key256} (h : SetsHash w live s s' r ks hash)
    (hlive : (s.onDisk w live).Live treeShape r ks)
    (hhash : hash = w.sha256 (s.plain w r.1 ((s.onDisk w live).block treeShape r ks))) :
    Hashed w live s' r ks := by
  rw [Hashed, h.hash_eq, h.only.block r ks hlive, h.plain r ks hlive, hhash]
  cases ks with
  | nil => exact Or.inr rfl
  | cons k ks =>
    left
    intro heq
    have := congrArg List.length (Prod.mk.inj heq).2
    simp at this

/-- The other slots keep to agree with their blocks, but for the one whose block was written. -/
theorem SetsHash.hashed_of_ne {hash : Key256} (h : SetsHash w live s s' r ks hash)
    {r' : RootSlot} {ks' : List ℕ} (hlive : (s.onDisk w live).Live treeShape r' ks')
    (hne : (r', ks') ≠ (r, ks)) (hparent : (r', ks') ≠ (r, ks.tail) ∨ ks = [])
    (hhashed : Hashed w live s r' ks') : Hashed w live s' r' ks' := by
  rw [Hashed, h.slot r' ks' hlive hne, h.only.block r' ks' hlive, h.plain r' ks' hlive hparent]
  exact hhashed

/-- An index block that is written with its `k`-th hash set. -/
structure WritesIndex (w : World) (live : Set ℕ) (s s' : Sys) (r : RootSlot) (ks : List ℕ) (k : ℕ)
    (hash : Key256) : Prop where
  /-- The superblock is as it was. -/
  sb : s'.sb = s.sb
  /-- The block is written under the keys of the inode. -/
  disk : s'.disk = Function.update s.disk ((s.onDisk w live).block treeShape r ks)
    (w.encrypt (dinodeAesIv (s.inodePlain w r.1) r.1) (dinodeAesKey (s.inodePlain w r.1) r.1)
      (setIndexHash (s.plain w r.1 ((s.onDisk w live).block treeShape r ks)) k hash))

section

variable {k : ℕ} {hash : Key256} (hdec : ∀ iv key d, w.decrypt iv key (w.encrypt iv key d) = d)
  (hs : Placed w live s) (h : WritesIndex w live s s' r ks k hash)

include hs h

/-- A hash in an index block leaves the inodes. -/
theorem WritesIndex.inode (hlive : (s.onDisk w live).Live treeShape r ks) {iid : ℕ}
    (hiid : iid ∈ live) : s'.inodePlain w iid = s.inodePlain w iid :=
  inodePlain_of_data (hs.live_lt iid hiid) (hs.data r ks hlive) h.sb h.disk

include hdec in
/-- A hash in an index block is set there. -/
theorem WritesIndex.plain_self (hlive : (s.onDisk w live).Live treeShape r ks) :
    s'.plain w r.1 ((s.onDisk w live).block treeShape r ks) =
      setIndexHash (s.plain w r.1 ((s.onDisk w live).block treeShape r ks)) k hash := by
  unfold Sys.plain
  rw [h.inode hs hlive hlive.isRoot, h.disk, Function.update_self, hdec]
  rfl

/-- A hash in an index block leaves the blocks at the other places. -/
theorem WritesIndex.plain_of_ne (hlive : (s.onDisk w live).Live treeShape r ks) {r' : RootSlot}
    {ks' : List ℕ} (hlive' : (s.onDisk w live).Live treeShape r' ks') (hne : (r', ks') ≠ (r, ks)) :
    s'.plain w r'.1 ((s.onDisk w live).block treeShape r' ks') =
      s.plain w r'.1 ((s.onDisk w live).block treeShape r' ks') := by
  have hblock : (s.onDisk w live).block treeShape r' ks' ≠ (s.onDisk w live).block treeShape r ks :=
    fun heq => hne (hs.disjoint _ _ _ _ hlive' hlive heq)
  unfold Sys.plain
  rw [h.inode hs hlive hlive'.isRoot, h.disk, Function.update_of_ne hblock]

include hdec in
/-- The write of an index block sets the hash of one slot. -/
theorem WritesIndex.setsHash (hlive : (s.onDisk w live).Live treeShape r (k :: ks)) :
    SetsHash w live s s' r (k :: ks) hash := by
  have hself := h.plain_self hdec hs hlive.1
  have hagree : (s.onDisk w live).AgreeOff treeShape (s'.onDisk w live) (r, k :: ks) := by
    refine ⟨fun _ => Iff.rfl, fun r' hr' _ => ?_, fun r' ks' k' hlive' _ hne => ?_⟩
    · simp only [Sys.onDisk, h.inode hs hlive.1 hr']
    · simp only [Sys.onDisk]
      by_cases heq : (r', ks') = (r, ks)
      · obtain ⟨rfl, rfl⟩ := Prod.mk.inj heq
        have hk : k ≠ k' := fun hk => hne (by rw [hk])
        exact (congrArg (indexAt · k') hself).trans (indexAt_setIndexHash_of_ne hk)
      · exact congrArg (indexAt · k') (h.plain_of_ne hs hlive.1 hlive' heq)
  have hparent : (s'.onDisk w live).block treeShape r ks =
      (s.onDisk w live).block treeShape r ks := by
    refine congrArg Index.bid (hagree.slot_eq hlive.1 fun ks' hks' heq => ?_).1
    have hlen := hks'.length_le
    rw [(Prod.mk.inj heq).2] at hlen
    simp at hlen
  have hslot : (s'.onDisk w live).slot treeShape r (k :: ks) =
      ⟨(s.onDisk w live).block treeShape r (k :: ks), hash⟩ := by
    have hentry : (s'.onDisk w live).slot treeShape r (k :: ks) =
        indexAt (s'.plain w r.1 ((s'.onDisk w live).block treeShape r ks)) k := rfl
    rw [hentry, hparent, hself, indexAt_setIndexHash hlive.2.2.1]
    rfl
  have hblock : (s'.onDisk w live).block treeShape r (k :: ks) =
      (s.onDisk w live).block treeShape r (k :: ks) := by
    rw [Forest.block, hslot]
    rfl
  refine ⟨⟨h.sb, fun _ _ => hagree.live_iff hlive hblock, ?_, ?_, ?_, ?_, ?_⟩,
    fun _ _ hlive' => (hagree.of_block_eq hblock hlive').2.2, by rw [hslot], ?_⟩
  · exact fun _ _ hlive' => (hagree.of_block_eq hblock hlive').1
  · intro iid hiid
    rw [h.inode hs hlive.1 hiid]
    exact ⟨rfl, rfl⟩
  · intro iid hiid i _
    rw [h.inode hs hlive.1 hiid]
  · intro r' ks' hlive' i hi
    by_cases heq : (r', ks') = (r, ks)
    · obtain ⟨rfl, rfl⟩ := Prod.mk.inj heq
      rw [hself]
      exact get_setIndexHash fun hmem => hi ⟨k, hlive, hmem⟩
    · rw [h.plain_of_ne hs hlive.1 hlive' heq]
  · intro bid _ hbid
    rw [h.disk]
    exact Function.update_of_ne (hbid r ks hlive.1) _ _
  · intro r' ks' hlive' hne
    exact h.plain_of_ne hs hlive.1 hlive' (hne.resolve_right (by simp))

end

/-- The block of an inode that is written with the hash of a root slot set. -/
structure WritesRoot (w : World) (live : Set ℕ) (s s' : Sys) (r : RootSlot) (hash : Key256) :
    Prop where
  /-- The superblock is as it was. -/
  sb : s'.sb = s.sb
  /-- The block is written under its keys in the superblock. -/
  disk : s'.disk = Function.update s.disk (inodeIid2Bid r.1)
    (w.encrypt (s.sb.aesIv (inodeIid2Bid r.1)) (s.sb.aesKey (inodeIid2Bid r.1))
      (setDinodeHash (s.inodePlain w r.1) r.1 r.2 hash))

section

variable {hash : Key256} (hdec : ∀ iv key d, w.decrypt iv key (w.encrypt iv key d) = d)
  (hs : Placed w live s) (h : WritesRoot w live s s' r hash)

include hdec h

/-- A hash at a root slot is set in the block of its inode. -/
theorem WritesRoot.inode (iid : ℕ) : s'.inodePlain w iid =
    if inodeIid2Bid iid = inodeIid2Bid r.1 then setDinodeHash (s.inodePlain w iid) r.1 r.2 hash
    else s.inodePlain w iid := by
  unfold Sys.inodePlain
  rw [h.sb, h.disk]
  by_cases heq : inodeIid2Bid iid = inodeIid2Bid r.1
  · rw [if_pos heq, heq, Function.update_self, hdec]
    rfl
  · rw [if_neg heq, Function.update_of_ne heq]

/-- A hash at a root slot leaves the keys of the inodes. -/
theorem WritesRoot.keys (iid : ℕ) :
    dinodeAesIv (s'.inodePlain w iid) iid = dinodeAesIv (s.inodePlain w iid) iid ∧
      dinodeAesKey (s'.inodePlain w iid) iid = dinodeAesKey (s.inodePlain w iid) iid := by
  rw [h.inode hdec]
  by_cases heq : inodeIid2Bid iid = inodeIid2Bid r.1
  · rw [if_pos heq, dinodeAesIv_setDinodeHash, dinodeAesKey_setDinodeHash]
    exact ⟨rfl, rfl⟩
  · rw [if_neg heq]
    exact ⟨rfl, rfl⟩

/-- The blocks of the trees are as they were. -/
theorem WritesRoot.plain_eq (hr : r.1 < 32768) {iid bid : ℕ} (hbid : dataStart ≤ bid) :
    s'.plain w iid bid = s.plain w iid bid := by
  have hne : bid ≠ inodeIid2Bid r.1 := ((inodeIid2Bid_lt hr).trans_le hbid).ne'
  unfold Sys.plain
  rw [(h.keys hdec iid).1, (h.keys hdec iid).2, h.disk, Function.update_of_ne hne]

include hs in
/-- The write of the block of an inode sets the hash of one slot. -/
theorem WritesRoot.setsHash (hlive : (s.onDisk w live).Live treeShape r []) :
    SetsHash w live s s' r [] hash := by
  have hr := hs.live_lt r.1 hlive.isRoot
  have hplain : ∀ r' ks', (s.onDisk w live).Live treeShape r' ks' →
      s'.plain w r'.1 ((s.onDisk w live).block treeShape r' ks') =
        s.plain w r'.1 ((s.onDisk w live).block treeShape r' ks') :=
    fun r' ks' hlive' => h.plain_eq hdec hr (hs.data r' ks' hlive')
  have hbid : ∀ iid r', dinodeBid (s'.inodePlain w iid) iid r' =
      dinodeBid (s.inodePlain w iid) iid r' := fun iid r' => by
    rw [h.inode hdec]
    by_cases heq : inodeIid2Bid iid = inodeIid2Bid r.1
    · rw [if_pos heq, dinodeBid_setDinodeHash]
    · rw [if_neg heq]
  have hother : ∀ r' : RootSlot, r' ≠ r → dinodeHash (s'.inodePlain w r'.1) r'.1 r'.2 =
      dinodeHash (s.inodePlain w r'.1) r'.1 r'.2 := fun r' hne => by
    rw [h.inode hdec]
    by_cases heq : inodeIid2Bid r'.1 = inodeIid2Bid r.1
    · rw [if_pos heq, dinodeHash_setDinodeHash_of_ne]
      by_contra hsame
      obtain ⟨hmod, hslot⟩ := not_or.mp hsame
      refine hne (Prod.ext (iid_eq heq ?_) ?_)
      · exact (not_not.mp hmod).symm
      · exact (not_not.mp hslot).symm
    · rw [if_neg heq]
  have hself : dinodeHash (s'.inodePlain w r.1) r.1 r.2 = hash := by
    rw [h.inode hdec, if_pos rfl, dinodeHash_setDinodeHash]
  have hagree : (s.onDisk w live).AgreeOff treeShape (s'.onDisk w live) (r, []) := by
    refine ⟨fun _ => Iff.rfl, fun r' _ hne => ?_, fun r' ks' k' hlive' _ _ => ?_⟩
    · have hne' : r' ≠ r := fun heq => hne (by rw [heq])
      simp only [Sys.onDisk, hbid, hother r' hne']
    · exact congrArg (indexAt · k') (hplain r' ks' hlive')
  have hblock : (s'.onDisk w live).block treeShape r [] =
      (s.onDisk w live).block treeShape r [] := hbid r.1 r.2
  refine ⟨⟨h.sb, fun _ _ => hagree.live_iff hlive hblock, ?_, ?_, ?_, ?_, ?_⟩,
    fun _ _ hlive' => (hagree.of_block_eq hblock hlive').2.2, hself, fun r' ks' hlive' _ =>
      hplain r' ks' hlive'⟩
  · exact fun _ _ hlive' => (hagree.of_block_eq hblock hlive').1
  · exact fun iid _ => h.keys hdec iid
  · intro iid _ i hi
    rw [h.inode hdec]
    by_cases heq : inodeIid2Bid iid = inodeIid2Bid r.1
    · rw [if_pos heq]
      exact get_setDinodeHash fun hmem => hi ⟨r, heq.symm, hlive, hmem⟩
    · rw [if_neg heq]
  · intro r' ks' hlive' i _
    rw [hplain r' ks' hlive']
  · intro bid hbid' _
    rw [h.disk]
    exact Function.update_of_ne (hbid' r.1 hlive.isRoot) _ _

end

/-! ## One round -/

/-- A hash was carried up from a place to its root slot: the slots on the way agree
with their blocks, and the hash is that of the block the root slot points at. -/
structure Carried (w : World) (live : Set ℕ) (s s' : Sys) (r : RootSlot) (ks : List ℕ)
    (hash : Key256) : Prop where
  /-- Nothing but hashes changed. -/
  only : OnlyHashes w live s s'
  /-- The blocks of the inodes are as they were. -/
  inode : ∀ iid ∈ live, s'.inodePlain w iid = s.inodePlain w iid
  /-- The hash is that of the top block. -/
  hash_eq : hash = w.sha256 (s'.plain w r.1 ((s.onDisk w live).block treeShape r []))
  /-- The slots on the way agree with their blocks. -/
  hashed : ∀ ks', ks' <:+ ks → ks' ≠ [] → Hashed w live s' r ks'
  /-- The other slots keep to agree. -/
  others : ∀ r' ks', (s.onDisk w live).Live treeShape r' ks' → ¬(r' = r ∧ ks' <:+ ks) →
    Hashed w live s r' ks' → Hashed w live s' r' ks'
  /-- The blocks that are not above the place are as they were. -/
  plain : ∀ r' ks', (s.onDisk w live).Live treeShape r' ks' →
    ¬(r' = r ∧ ks' <:+ ks ∧ ks' ≠ ks) →
    s'.plain w r'.1 ((s.onDisk w live).block treeShape r' ks') =
      s.plain w r'.1 ((s.onDisk w live).block treeShape r' ks')

/-- The count of the calls plays no part. -/
theorem Carried.of_calls {calls : ℕ} {hash : Key256}
    (h : Carried w live { s with calls } s' r ks hash) : Carried w live s s' r ks hash :=
  ⟨⟨h.only.sb, h.only.live_iff, h.only.block, h.only.keys, h.only.inode, h.only.tree,
    h.only.other⟩, h.inode, h.hash_eq, h.hashed, h.others, h.plain⟩

/-- Setting one hash and carrying the hash of its block further up. -/
theorem Carried.cons {k : ℕ} {hash hash' : Key256}
    (hlive : (s.onDisk w live).Live treeShape r (k :: ks))
    (hhash : hash = w.sha256 (s.plain w r.1 ((s.onDisk w live).block treeShape r (k :: ks))))
    (hinode : ∀ iid ∈ live, s₁.inodePlain w iid = s.inodePlain w iid)
    (hset : SetsHash w live s s₁ r (k :: ks) hash) (h : Carried w live s₁ s' r ks hash') :
    Carried w live s s' r (k :: ks) hash' := by
  have hroot := Forest.Live.of_suffix hlive List.nil_suffix
  have hfirst : ¬(k :: ks) <:+ ks := fun hks => by
    have := hks.length_le
    simp at this
  refine ⟨hset.only.trans h.only, fun iid hiid => (h.inode iid hiid).trans (hinode iid hiid), ?_,
    ?_, ?_, ?_⟩
  · rw [h.hash_eq, hset.only.block r [] hroot]
  · intro ks' hks' hne
    rcases List.suffix_cons_iff.mp hks' with rfl | hks'
    · refine h.others r _ ((hset.only.live_iff r _).mpr hlive) ?_ (hset.hashed_self hlive hhash)
      exact fun hsuf => hfirst hsuf.2
    · exact h.hashed ks' hks' hne
  · intro r' ks' hlive' hout hhashed
    have hsuf : ¬(r' = r ∧ ks' <:+ ks) := fun hin =>
      hout ⟨hin.1, hin.2.trans (List.suffix_cons _ _)⟩
    refine h.others r' ks' ((hset.only.live_iff r' ks').mpr hlive') hsuf ?_
    refine hset.hashed_of_ne hlive' ?_ (Or.inl ?_) hhashed
    · rintro heq
      obtain ⟨rfl, rfl⟩ := Prod.mk.inj heq
      exact hout ⟨rfl, List.suffix_refl _⟩
    · rintro heq
      obtain ⟨rfl, rfl⟩ := Prod.mk.inj heq
      exact hsuf ⟨rfl, List.suffix_refl _⟩
  · intro r' ks' hlive' hout
    have hsuf : ¬(r' = r ∧ ks' <:+ ks ∧ ks' ≠ ks) := fun hin =>
      hout ⟨hin.1, hin.2.1.trans (List.suffix_cons _ _), fun heq => hfirst (heq ▸ hin.2.1)⟩
    have hplain := h.plain r' ks' ((hset.only.live_iff r' ks').mpr hlive') hsuf
    rw [hset.only.block r' ks' hlive'] at hplain
    rw [hplain, hset.plain r' ks' hlive' (Or.inl ?_)]
    rintro heq
    obtain ⟨rfl, rfl⟩ := Prod.mk.inj heq
    exact hout ⟨rfl, List.suffix_cons _ _, fun heq => hfirst (heq ▸ List.suffix_refl _)⟩

variable {E : Halt → Prop}

/-- The rule for `bget_simple`. -/
theorem wp_bgetSimple (hw : w.NoFailure) {bid : ℕ} {iv key : Key128} {Q : Option Data → Sys → Prop}
    (hQ : ∀ calls, Q (some (w.decrypt iv key (s.disk bid))) { s with calls }) :
    Exec.Wp (bgetSimple w bid iv key) Q E s :=
  Exec.wp_bind.mpr (wp_diskRead hw fun _ => wp_aes128BlockDecrypt hw fun _ => hQ _)

/-- The rule for `breturn_simple`. -/
theorem wp_breturnSimple (hw : w.NoFailure) {bid : ℕ} {iv key : Key128} {data : Data}
    {Q : Bool → Sys → Prop} (hQ : ∀ calls, Q false
      { s with disk := Function.update s.disk bid (w.encrypt iv key data), calls }) :
    Exec.Wp (breturnSimple w bid data iv key) Q E s :=
  Exec.wp_bind.mpr (wp_aes128BlockEncrypt hw fun _ => wp_diskWrite hw fun _ => hQ _)

/-- The loop over the index blocks carries the hash up to the root slot. -/
theorem wp_rehashIndexes (hw : w.NoFailure)
    (hdec : ∀ iv key d, w.decrypt iv key (w.encrypt iv key d) = d) (hs : Placed w live s)
    (hlive : (s.onDisk w live).Live treeShape r ks) {h : HashIdx} (hfirst : (h.at 0).id = r.1)
    (hrec : Recorded (s.onDisk w live) r h ks) {hash : Key256}
    (hhash : hash = w.sha256 (s.plain w r.1 ((s.onDisk w live).block treeShape r ks))) :
    Exec.Wp (rehashIndexes w (s.inodePlain w r.1) h ks.length hash)
      (fun result s' => ∃ hash', result = some hash' ∧ Carried w live s s' r ks hash' ∧
        s'.pdWb = s.pdWb) E s := by
  induction ks generalizing s hash with
  | nil =>
    refine ⟨hash, rfl, ⟨.refl s, fun _ _ => rfl, hhash, ?_, fun _ _ _ _ h => h, fun _ _ _ _ => rfl⟩,
      rfl⟩
    intro ks' hks' hne
    exact absurd (List.suffix_nil.mp hks') hne
  | cons k ks ih =>
    have hat := hrec.1
    simp only [List.length_cons, rehashIndexes, hat, hfirst, Exec.wp_bind]
    refine wp_bgetSimple hw fun c₁ => Exec.wp_bind.mpr (wp_sha256Block hw fun c₂ => ?_)
    refine Exec.wp_bind.mpr (wp_breturnSimple hw fun c₃ => ?_)
    simp only [Bool.false_eq_true, if_false]
    generalize hs₁ : ({ s with
      disk := Function.update s.disk ((s.onDisk w live).block treeShape r ks) _
      calls := c₃ } : Sys) = s₁
    have hwrites : WritesIndex w live s s₁ r ks k hash := by
      subst hs₁
      exact ⟨rfl, rfl⟩
    have hset := hwrites.setsHash hdec hs hlive
    have hinode : ∀ iid ∈ live, s₁.inodePlain w iid = s.inodePlain w iid :=
      fun iid hiid => hwrites.inode hs hlive.1 hiid
    have hself := hwrites.plain_self hdec hs hlive.1
    rw [← hinode r.1 hlive.isRoot]
    refine (ih (hs.of_onlyHashes hset.only) ((hset.only.live_iff r ks).mpr hlive.1)
      (hrec.2.congr hlive.1 fun ks h => hset.only.block r ks h) ?_).imp ?_
    · rw [hset.only.block r ks hlive.1, hself, hinode r.1 hlive.isRoot]
      rfl
    · rintro _ s' ⟨hash', rfl, hcarried, hpd⟩
      refine ⟨hash', rfl, hcarried.cons hlive hhash hinode hset, hpd.trans ?_⟩
      subst hs₁
      rfl

/-- The search from the deepest entry finds the length of a path. -/
theorem IsPath.depth_eq {F : Forest RootSlot Index} {h : HashIdx} (hpath : IsPath F r ks h)
    (hlive : F.Live treeShape r ks) : h.depth = ks.length := by
  have hle := hlive.length_le.trans (height_le r)
  have hne : ∀ k ks', ks = k :: ks' → (h.at ks.length).id ≠ 0 := by
    rintro k ks' rfl
    rw [List.length_cons, hpath.1.1]
    exact hlive.1.block_ne
  have hzero := hpath.2
  match ks, hle with
  | [], _ =>
    have h1 : (h.at 1).id = 0 := hzero 1 (by simp) (by simp)
    have h2 : (h.at 2).id = 0 := hzero 2 (by simp) (by simp)
    have h3 : (h.at 3).id = 0 := hzero 3 (by simp) (by simp)
    simp [HashIdx.depth, h1, h2, h3]
  | [_], _ =>
    have h1 : (h.at 1).id ≠ 0 := hne _ _ rfl
    have h2 : (h.at 2).id = 0 := hzero 2 (by simp) (by simp)
    have h3 : (h.at 3).id = 0 := hzero 3 (by simp) (by simp)
    simp [HashIdx.depth, h1, h2, h3]
  | [_, _], _ =>
    have h2 : (h.at 2).id ≠ 0 := hne _ _ rfl
    have h3 : (h.at 3).id = 0 := hzero 3 (by simp) (by simp)
    simp [HashIdx.depth, h2, h3]
  | [_, _, _], _ =>
    have h3 : (h.at 3).id ≠ 0 := hne _ _ rfl
    simp [HashIdx.depth, h3]

/-- What a round does: every slot from the entry up agrees with its block, the other
slots keep to agree, and only blocks above the entry were written. -/
structure RoundDone (w : World) (live : Set ℕ) (s s' : Sys) (r : RootSlot) (ks : List ℕ) :
    Prop where
  /-- Nothing but hashes changed. -/
  only : OnlyHashes w live s s'
  /-- The slots on the way agree with their blocks. -/
  hashed : ∀ ks', ks' <:+ ks → Hashed w live s' r ks'
  /-- The other slots keep to agree. -/
  others : ∀ r' ks', (s.onDisk w live).Live treeShape r' ks' → Hashed w live s r' ks' →
    Hashed w live s' r' ks'
  /-- The blocks that are not above the entry are as they were. -/
  plain : ∀ r' ks', (s.onDisk w live).Live treeShape r' ks' →
    ¬(r' = r ∧ ks' <:+ ks ∧ ks' ≠ ks) →
    s'.plain w r'.1 ((s.onDisk w live).block treeShape r' ks') =
      s.plain w r'.1 ((s.onDisk w live).block treeShape r' ks')

/-- A round of the walk. -/
theorem wp_writeBackEntry (hw : w.NoFailure)
    (hdec : ∀ iv key d, w.decrypt iv key (w.encrypt iv key d) = d) (hs : Placed w live s)
    (hlive : (s.onDisk w live).Live treeShape r ks) {node : PdWbNode}
    (hpath : IsPath (s.onDisk w live) r ks node.hashidx)
    (hhash : node.hash = w.sha256 (s.plain w r.1 ((s.onDisk w live).block treeShape r ks))) :
    Exec.Wp (writeBackEntry w node)
      (fun failed s' => failed = false ∧ RoundDone w live s s' r ks ∧ s'.pdWb = s.pdWb) E s := by
  have hroot := hpath.1.root
  have hslot : rootSlot r.2.val = r.2 := by simp [rootSlot]
  simp only [writeBackEntry, hroot, hslot, hpath.depth_eq hlive, Exec.wp_bind, Exec.wp_read]
  refine wp_bgetSimple hw fun c₁ => ?_
  have hlive₁ : (({ s with calls := c₁ } : Sys).onDisk w live).Live treeShape r ks := hlive
  refine Exec.wp_bind.mpr ((wp_rehashIndexes hw hdec (s := { s with calls := c₁ }) ⟨hs.live_lt,
    hs.data, hs.disjoint⟩ hlive₁ (congrArg HashSlot.id hroot) hpath.1 hhash).imp ?_)
  rintro _ s₁ ⟨hash, rfl, hcarried, hpd⟩
  replace hcarried := hcarried.of_calls
  have hlive₂ := Forest.Live.of_suffix hlive (List.nil_suffix)
  have hs₁ := hs.of_onlyHashes hcarried.only
  refine wp_breturnSimple hw fun c₂ => ?_
  generalize hs' : ({ s₁ with
    disk := Function.update s₁.disk (inodeIid2Bid r.1) _, calls := c₂ } : Sys) = s'
  have hwrites : WritesRoot w live s₁ s' r hash := by
    subst hs'
    refine ⟨rfl, ?_⟩
    rw [hcarried.inode r.1 hlive.isRoot, hcarried.only.sb]
    rfl
  have hset := hwrites.setsHash hdec hs₁ ((hcarried.only.live_iff r []).mpr hlive₂)
  have hself : Hashed w live s' r [] := by
    refine hset.hashed_self ((hcarried.only.live_iff r []).mpr hlive₂) ?_
    rw [hcarried.hash_eq, hcarried.only.block r [] hlive₂]
  have hstay : ∀ r' ks', (s.onDisk w live).Live treeShape r' ks' → (r', ks') ≠ (r, []) →
      Hashed w live s₁ r' ks' → Hashed w live s' r' ks' := fun r' ks' hlive' hne =>
    hset.hashed_of_ne ((hcarried.only.live_iff r' ks').mpr hlive') hne (Or.inr rfl)
  refine ⟨rfl, ⟨hcarried.only.trans hset.only, ?_, ?_, ?_⟩, ?_⟩
  · intro ks' hks'
    by_cases hnil : ks' = []
    · exact hnil ▸ hself
    · exact hstay r ks' (Forest.Live.of_suffix hlive hks') (fun heq => hnil (Prod.mk.inj heq).2)
        (hcarried.hashed ks' hks' hnil)
  · intro r' ks' hlive' hhashed
    by_cases heq : (r', ks') = (r, [])
    · obtain ⟨rfl, rfl⟩ := Prod.mk.inj heq
      exact hself
    · refine hstay r' ks' hlive' heq ?_
      by_cases hin : r' = r ∧ ks' <:+ ks
      · obtain ⟨rfl, hks'⟩ := hin
        exact hcarried.hashed ks' hks' fun hnil => heq (by rw [hnil])
      · exact hcarried.others r' ks' hlive' hin hhashed
  · intro r' ks' hlive' hout
    have hplain := hset.plain r' ks' ((hcarried.only.live_iff r' ks').mpr hlive') (Or.inr rfl)
    rw [hcarried.only.block r' ks' hlive'] at hplain
    exact hplain.trans (hcarried.plain r' ks' hlive' hout)
  · subst hs'
    exact hpd

/-! ## The walk -/

/-- The entries that are left to be written back: they are right about their blocks,
none is above another one, and every slot that does not agree with its block is
above one of them. -/
structure WalkReady (w : World) (live : Set ℕ) (s : Sys) (rest : List (ℕ × PdWbNode)) : Prop where
  /-- The trees are well placed. -/
  placed : Placed w live s
  /-- An entry has the path and the hash of its block. -/
  entries : ∀ e ∈ rest, ∃ r ks, (s.onDisk w live).Live treeShape r ks ∧
    (s.onDisk w live).block treeShape r ks = e.1 ∧ IsPath (s.onDisk w live) r ks e.2.hashidx ∧
    e.2.hash = w.sha256 (s.plain w r.1 e.1)
  /-- No entry is above another one. -/
  apart : ∀ e ∈ rest, ∀ e' ∈ rest, ∀ r ks ks', (s.onDisk w live).Live treeShape r ks →
    (s.onDisk w live).block treeShape r ks = e.1 → ks' <:+ ks → ks' ≠ ks →
    (s.onDisk w live).block treeShape r ks' ≠ e'.1
  /-- The entries cover the slots that do not agree. -/
  covered : ∀ r ks, (s.onDisk w live).Live treeShape r ks → Hashed w live s r ks ∨
    ∃ e ∈ rest, ∃ ks', (s.onDisk w live).Live treeShape r ks' ∧
      (s.onDisk w live).block treeShape r ks' = e.1 ∧ ks <:+ ks'

/-- A round leaves the other entries ready. -/
theorem WalkReady.tail {e : ℕ × PdWbNode} {rest : List (ℕ × PdWbNode)}
    (h : WalkReady w live s (e :: rest)) (hlive : (s.onDisk w live).Live treeShape r ks)
    (hblock : (s.onDisk w live).block treeShape r ks = e.1) (hdone : RoundDone w live s s' r ks) :
    WalkReady w live s' rest := by
  refine ⟨h.placed.of_onlyHashes hdone.only, fun e' he' => ?_, ?_, fun r' ks' hlive' => ?_⟩
  · obtain ⟨r', ks', hlive', hblock', hpath, hhash⟩ := h.entries e' (List.mem_cons_of_mem _ he')
    refine ⟨r', ks', (hdone.only.live_iff r' ks').mpr hlive', ?_, ⟨?_, hpath.2⟩, ?_⟩
    · rw [hdone.only.block r' ks' hlive', hblock']
    · exact hpath.1.congr hlive' fun ks h => hdone.only.block r' ks h
    · have hplain := hdone.plain r' ks' hlive' ?_
      · rw [hblock'] at hplain
        rw [hplain, hhash]
      · rintro ⟨rfl, hsuf, hne⟩
        exact h.apart e List.mem_cons_self e' (List.mem_cons_of_mem _ he') _ ks ks' hlive hblock
          hsuf hne hblock'
  · intro e₁ he₁ e₂ he₂ r' ks₁ ks₂ hlive' hblock' hsuf hne
    have hlive₁ := (hdone.only.live_iff r' ks₁).mp hlive'
    rw [hdone.only.block r' ks₁ hlive₁] at hblock'
    rw [hdone.only.block r' ks₂ (Forest.Live.of_suffix hlive₁ hsuf)]
    exact h.apart e₁ (List.mem_cons_of_mem _ he₁) e₂ (List.mem_cons_of_mem _ he₂) r' ks₁ ks₂ hlive₁
      hblock' hsuf hne
  · have hlive₀ := (hdone.only.live_iff r' ks').mp hlive'
    rcases h.covered r' ks' hlive₀ with hhashed | ⟨e', he', ks₂, hlive₂, hblock₂, hsuf⟩
    · exact Or.inl (hdone.others r' ks' hlive₀ hhashed)
    rcases List.mem_cons.mp he' with rfl | he'
    · obtain ⟨rfl, rfl⟩ := Prod.mk.inj
        (h.placed.disjoint r' ks₂ r ks hlive₂ hlive (hblock₂.trans hblock.symm))
      exact Or.inl (hdone.hashed ks' hsuf)
    · refine Or.inr ⟨e', he', ks₂, (hdone.only.live_iff r' ks₂).mpr hlive₂, ?_, hsuf⟩
      rw [hdone.only.block r' ks₂ hlive₂, hblock₂]

/-- The walk makes every slot agree with its block. -/
theorem wp_writeBackEntries (hw : w.NoFailure)
    (hdec : ∀ iv key d, w.decrypt iv key (w.encrypt iv key d) = d)
    {rest : List (ℕ × PdWbNode)} (h : WalkReady w live s rest) :
    Exec.Wp (writeBackEntries w rest) (fun failed s' => failed = false ∧
      OnlyHashes w live s s' ∧
      ∀ r ks, (s'.onDisk w live).Live treeShape r ks → Hashed w live s' r ks) E s := by
  induction rest generalizing s with
  | nil =>
    refine ⟨rfl, .refl s, fun r ks hlive => (h.covered r ks hlive).resolve_right ?_⟩
    rintro ⟨e, he, _⟩
    cases he
  | cons e rest ih =>
    obtain ⟨r, ks, hlive, hblock, hpath, hhash⟩ := h.entries e List.mem_cons_self
    rw [← hblock] at hhash
    refine (wp_writeBackEntry hw hdec h.placed hlive hpath hhash).bind ?_
    rintro _ s₁ ⟨rfl, hdone, _⟩
    refine (ih (h.tail hlive hblock hdone)).imp ?_
    rintro failed s' ⟨hfailed, honly, hhashed⟩
    exact ⟨hfailed, hdone.only.trans honly, hhashed⟩

/-! ## The entries that are dropped -/

/-- The ancestors inserted for one entry. -/
theorem find_insertAncestors {h : HashIdx} {n : ℕ} {m : OrdMap Unit} {bid : ℕ} :
    (insertAncestors h n m).find bid ≠ none ↔
      m.find bid ≠ none ∨ ∃ i < n, (h.at (i + 1)).id = bid := by
  induction n generalizing m with
  | zero => simp [insertAncestors]
  | succ n ih =>
    rw [insertAncestors, ih, OrdMap.find_set]
    by_cases hbid : (h.at (n + 1)).id = bid
    · simp only [hbid, if_true, ne_eq, reduceCtorEq, not_false_eq_true, true_or, true_iff]
      exact Or.inr ⟨n, Nat.lt_succ_self n, hbid⟩
    · simp only [hbid, if_false]
      refine or_congr_right ⟨?_, ?_⟩
      · rintro ⟨i, hi, heq⟩
        exact ⟨i, Nat.lt_succ_of_lt hi, heq⟩
      · rintro ⟨i, hi, heq⟩
        refine ⟨i, lt_of_le_of_ne (Nat.le_of_lt_succ hi) ?_, heq⟩
        rintro rfl
        exact hbid heq

/-- The first loop collects the ancestors of every entry. -/
theorem find_collectAncestors {l : List (ℕ × PdWbNode)} {m : OrdMap Unit} {bid : ℕ} :
    (collectAncestors l m).find bid ≠ none ↔ m.find bid ≠ none ∨
      ∃ e ∈ l, ∃ i < e.2.hashidx.depth, (e.2.hashidx.at (i + 1)).id = bid := by
  induction l generalizing m with
  | nil => simp [collectAncestors]
  | cons e rest ih =>
    rw [collectAncestors, ih, find_insertAncestors]
    simp only [List.mem_cons, exists_eq_or_imp, or_assoc]

/-- The second loop drops the entries of the blocks it goes through. -/
theorem wp_dropAncestors {l : List (ℕ × Unit)} {Q : Unit → Sys → Prop}
    (hQ : ∀ m : OrdMap PdWbNode, (∀ bid, m.find bid =
      if bid ∈ l.map Prod.fst then none else s.pdWb.find bid) → Q () { s with pdWb := m }) :
    Exec.Wp (dropAncestors l) Q E s := by
  induction l generalizing s with
  | nil => exact hQ s.pdWb fun bid => by simp
  | cons e rest ih =>
    simp only [dropAncestors, pdWbDelete, pdWbFind, Exec.wp_bind, Exec.wp_read, Exec.wp_update,
      Exec.wp_pure]
    refine ih fun m hm => hQ m fun bid => ?_
    simp only [hm, OrdMap.find_erase, List.map_cons, List.mem_cons]
    by_cases hbid : e.1 = bid
    · simp [hbid]
    · have hbid' : ¬bid = e.1 := fun heq => hbid heq.symm
      simp only [hbid, hbid', if_false, false_or]

/-- The state in which `block_exit` starts its cascade: the trees are well placed,
the entries of `pd_wb` are right about their blocks, and every slot of a block
without an entry agrees with the block. -/
structure PendingOk (w : World) (live : Set ℕ) (s : Sys) : Prop where
  /-- The trees are well placed. -/
  placed : Placed w live s
  /-- An entry has the path and the hash of its block. -/
  entries : ∀ bid node, s.pdWb.find bid = some node →
    ∃ r ks, (s.onDisk w live).Live treeShape r ks ∧
      (s.onDisk w live).block treeShape r ks = bid ∧ IsPath (s.onDisk w live) r ks node.hashidx ∧
      node.hash = w.sha256 (s.plain w r.1 bid)
  /-- The slots of the other blocks agree. -/
  others : ∀ r ks, (s.onDisk w live).Live treeShape r ks →
    s.pdWb.find ((s.onDisk w live).block treeShape r ks) = none → Hashed w live s r ks

/-- A block is dropped when it is strictly above the block of an entry. -/
theorem PendingOk.dropped_iff (h : PendingOk w live s)
    (hlive : (s.onDisk w live).Live treeShape r ks) :
    (collectAncestors s.pdWb.entries .empty).find ((s.onDisk w live).block treeShape r ks) ≠ none ↔
      ∃ ks', (s.onDisk w live).Live treeShape r ks' ∧ ks <:+ ks' ∧ ks ≠ ks' ∧
        s.pdWb.find ((s.onDisk w live).block treeShape r ks') ≠ none := by
  rw [find_collectAncestors]
  simp only [OrdMap.find_empty, ne_eq, not_true_eq_false, false_or]
  constructor
  · rintro ⟨⟨bid, node⟩, he, i, hi, heq⟩
    have hfind := OrdMap.mem_entries.mp he
    obtain ⟨r', ks', hlive', hblock, hpath, _⟩ := h.entries bid node hfind
    rw [hpath.depth_eq hlive'] at hi
    obtain ⟨k, ks₁, hsuf, rfl⟩ := exists_suffix hi
    rw [hpath.1.at_eq hsuf] at heq
    have hlive₁ := (Forest.Live.of_suffix hlive' hsuf).1
    obtain ⟨rfl, rfl⟩ := Prod.mk.inj (h.placed.disjoint r' ks₁ r ks hlive₁ hlive heq)
    refine ⟨ks', hlive', (List.suffix_cons _ _).trans hsuf, ?_, by rw [hblock, hfind]; simp⟩
    rintro rfl
    have hlen := hsuf.length_le
    simp at hlen
  · rintro ⟨ks', hlive', ⟨l, hl⟩, hne, hentry⟩
    obtain ⟨node, hfind⟩ := Option.ne_none_iff_exists'.mp hentry
    obtain ⟨r₁, ks₁, hlive₁, hblock, hpath, _⟩ := h.entries _ node hfind
    obtain ⟨rfl, rfl⟩ := Prod.mk.inj (h.placed.disjoint r₁ ks₁ r ks' hlive₁ hlive' hblock)
    rcases List.eq_nil_or_concat l with rfl | ⟨l', k, rfl⟩
    · exact absurd hl hne
    have hsuf : k :: ks <:+ ks₁ := ⟨l', by simpa using hl⟩
    refine ⟨(_, node), OrdMap.mem_entries.mpr hfind, ks.length, ?_, ?_⟩
    · rw [hpath.depth_eq hlive₁]
      exact hsuf.length_le
    · rw [hpath.1.at_eq hsuf]

/-- Every entry covers a place, and one of those that stay covers the place too. -/
theorem PendingOk.exists_cover (h : PendingOk w live s)
    (hlive : (s.onDisk w live).Live treeShape r ks)
    (hentry : s.pdWb.find ((s.onDisk w live).block treeShape r ks) ≠ none) :
    ∃ ks', (s.onDisk w live).Live treeShape r ks' ∧ ks <:+ ks' ∧
      s.pdWb.find ((s.onDisk w live).block treeShape r ks') ≠ none ∧
      (collectAncestors s.pdWb.entries .empty).find
        ((s.onDisk w live).block treeShape r ks') = none := by
  -- an entry below is longer, and no place is longer than the height of its tree
  induction hn : treeShape.height r - ks.length using Nat.strong_induction_on generalizing ks with
  | _ n ih =>
    by_cases hdropped : (collectAncestors s.pdWb.entries .empty).find
        ((s.onDisk w live).block treeShape r ks) = none
    · exact ⟨ks, hlive, List.suffix_refl _, hentry, hdropped⟩
    · obtain ⟨ks₁, hlive₁, hsuf, hne, hentry₁⟩ := (h.dropped_iff hlive).mp hdropped
      have hlt : ks.length < ks₁.length :=
        lt_of_le_of_ne hsuf.length_le fun hlen => hne (hsuf.eq_of_length hlen)
      have hle := hlive₁.length_le
      obtain ⟨ks', hlive', hsuf', hentry', hkept⟩ :=
        ih (treeShape.height r - ks₁.length) (by omega) hlive₁ hentry₁ rfl
      exact ⟨ks', hlive', hsuf.trans hsuf', hentry', hkept⟩

/-- The entries that stay are ready for the walk. -/
theorem PendingOk.walkReady (h : PendingOk w live s) {m : OrdMap PdWbNode}
    (hm : ∀ bid, m.find bid =
      if bid ∈ (collectAncestors s.pdWb.entries .empty).entries.map Prod.fst then none
      else s.pdWb.find bid) :
    WalkReady w live { s with pdWb := m } m.entries := by
  have hkeys : ∀ bid, bid ∈ (collectAncestors s.pdWb.entries .empty).entries.map Prod.fst ↔
      (collectAncestors s.pdWb.entries .empty).find bid ≠ none := fun bid => by
    rw [Option.ne_none_iff_exists']
    constructor
    · intro hmem
      obtain ⟨⟨_, u⟩, he, rfl⟩ := List.mem_map.mp hmem
      exact ⟨u, OrdMap.mem_entries.mp he⟩
    · rintro ⟨u, hu⟩
      exact List.mem_map.mpr ⟨(bid, u), OrdMap.mem_entries.mpr hu, rfl⟩
  have hfind : ∀ bid node, m.find bid = some node → s.pdWb.find bid = some node ∧
      (collectAncestors s.pdWb.entries .empty).find bid = none := fun bid node hnode => by
    rw [hm] at hnode
    by_cases hbid : bid ∈ (collectAncestors s.pdWb.entries .empty).entries.map Prod.fst
    · simp [hbid] at hnode
    · rw [if_neg hbid] at hnode
      exact ⟨hnode, not_not.mp fun hne => hbid ((hkeys bid).mpr hne)⟩
  refine ⟨⟨h.placed.live_lt, h.placed.data, h.placed.disjoint⟩, ?_, ?_, ?_⟩
  · rintro ⟨bid, node⟩ he
    exact h.entries bid node (hfind bid node (OrdMap.mem_entries.mp he)).1
  · rintro ⟨b₁, n₁⟩ he₁ ⟨b₂, n₂⟩ he₂ r ks ks' hlive hblock hsuf hne heq
    have h₁ := (hfind b₁ n₁ (OrdMap.mem_entries.mp he₁)).1
    have h₂ := (hfind b₂ n₂ (OrdMap.mem_entries.mp he₂)).2
    have hlive₀ : (s.onDisk w live).Live treeShape r ks := hlive
    have hblock₀ : (s.onDisk w live).block treeShape r ks = b₁ := hblock
    have heq₀ : (s.onDisk w live).block treeShape r ks' = b₂ := heq
    refine (h.dropped_iff (Forest.Live.of_suffix hlive₀ hsuf)).mpr ⟨ks, hlive₀, hsuf, hne, ?_⟩
      (heq₀ ▸ h₂)
    rw [hblock₀, h₁]
    simp
  · intro r ks hlive
    have hlive₀ : (s.onDisk w live).Live treeShape r ks := hlive
    by_cases hentry : s.pdWb.find ((s.onDisk w live).block treeShape r ks) = none
    · exact Or.inl (h.others r ks hlive₀ hentry)
    · obtain ⟨ks', hlive', hsuf, hentry', hkept⟩ := h.exists_cover hlive₀ hentry
      obtain ⟨node, hnode⟩ := Option.ne_none_iff_exists'.mp hentry'
      have hstays : m.find ((s.onDisk w live).block treeShape r ks') = some node := by
        rw [hm, if_neg fun hmem => (hkeys _).mp hmem hkept]
        exact hnode
      exact Or.inr ⟨(_, node), OrdMap.mem_entries.mpr hstays, ks', hlive', rfl, hsuf⟩

end

/-- The exit cascade leaves every slot with the hash of the block it points at and
changes nothing but hashes of slots. -/
theorem exit_cascade (w : World) (hw : ∀ i, w.fails i = false)
    (hdec : ∀ iv key d, w.decrypt iv key (w.encrypt iv key d) = d) (live : Set ℕ) (s : Sys)
    (h : PendingOk w live s) :
    Exec.Wp (blockExitCascade w) (fun failed s' => failed = false ∧ OnlyHashes w live s s' ∧
      ∀ r ks, (s'.onDisk w live).Live treeShape r ks → Hashed w live s' r ks)
      (fun _ => False) s := by
  simp only [blockExitCascade, Exec.wp_bind, Exec.wp_read]
  refine wp_dropAncestors fun m hm => ?_
  refine (wp_writeBackEntries hw hdec (h.walkReady hm)).imp ?_
  rintro failed s' ⟨hfailed, honly, hhashed⟩
  exact ⟨hfailed, ⟨honly.sb, honly.live_iff, honly.block, honly.keys, honly.inode, honly.tree,
    honly.other⟩, hhashed⟩

/-- A disk on which the inode 1 has the index block 5000, with the block 5001 at its entry 7. Both
wait in `pd_wb` for their hashes. -/
def nestedFile : Sys where
  disk bid :=
    if bid = 74 then Bytes.zero.putLE 560 4 5000
    else if bid = 5000 then Bytes.zero.putLE 252 4 5001 else Bytes.zero.putLE 0 1 7
  sb := ⟨efsMagic, 0, 0, fun _ => Bytes.zero, fun _ => Bytes.zero, fun _ => Bytes.zero⟩
  ibm := ⟨Bytes.zero, 0, false⟩
  dbmFirstEmptyWord := 0
  bcac := .empty
  pdWb := (OrdMap.empty.set 5000
    ⟨HashIdx.zero.set 0 ⟨1, 10⟩, World.plain.sha256 (Bytes.zero.putLE 252 4 5001)⟩).set 5001
      ⟨(HashIdx.zero.set 0 ⟨1, 10⟩).set 1 ⟨5000, 7⟩, World.plain.sha256 (Bytes.zero.putLE 0 1 7)⟩
  icac := .empty
  calls := 0
  keys := 0
  evicted _ := Bytes.zero
  loads := []

/-- The inode of `nestedFile` points at its index block only. -/
theorem nestedFile_bid (slot : Fin 13) : dinodeBid (nestedFile.inodePlain World.plain 1) 1 slot =
    if slot = 10 then 5000 else 0 := by
  have hplain : nestedFile.inodePlain World.plain 1 = Bytes.zero.putLE 560 4 5000 := rfl
  have hoff : inodeBlockOffset 1 = 512 := rfl
  rw [dinodeBid, hplain, hoff]
  by_cases hslot : slot = 10
  · subst hslot
    rw [if_pos rfl]
    exact Bytes.getLE_putLE _ _ (by decide)
  · have hne : slot.val ≠ 10 := fun h => hslot (Fin.ext h)
    rw [if_neg hslot, Bytes.putLE, Bytes.getLE_write_of_disjoint (by omega), Bytes.getLE_zero]

/-- The index block points at one block only. -/
theorem nestedFile_entry (k : ℕ) : (indexAt (nestedFile.plain World.plain 1 5000) k).bid =
    if k = 7 then 5001 else 0 := by
  have hplain : nestedFile.plain World.plain 1 5000 = Bytes.zero.putLE 252 4 5001 := rfl
  rw [hplain]
  simp only [indexAt, indexSz]
  by_cases hk : k = 7
  · subst hk
    rw [if_pos rfl]
    exact Bytes.getLE_putLE _ _ (by decide)
  · rw [if_neg hk, Bytes.putLE, Bytes.getLE_write_of_disjoint (by omega), Bytes.getLE_zero]

/-- The block under the root slot. -/
theorem nestedFile_block :
    (nestedFile.onDisk World.plain {1}).block treeShape (1, 10) [] = 5000 := nestedFile_bid 10

/-- The block under an entry of the index block. -/
theorem nestedFile_block_below (k : ℕ) :
    (nestedFile.onDisk World.plain {1}).block treeShape (1, 10)
      [k] = if k = 7 then 5001 else 0 := by
  change (indexAt (nestedFile.plain World.plain 1
    ((nestedFile.onDisk World.plain {1}).block treeShape (1, 10) [])) k).bid = _
  rw [nestedFile_block, nestedFile_entry]

/-- The two places of `nestedFile`. -/
theorem nestedFile_live {r : RootSlot} {ks : List ℕ}
    (hlive : (nestedFile.onDisk World.plain {1}).Live treeShape r ks) :
    r = (1, 10) ∧ (ks = [] ∨ ks = [7]) := by
  have hroot : r = (1, 10) := by
    obtain ⟨hin, hne⟩ := Forest.Live.of_suffix hlive List.nil_suffix
    obtain ⟨iid, slot⟩ := r
    obtain rfl : iid = 1 := hin
    refine Prod.ext rfl ?_
    by_contra hslot
    exact hne ((nestedFile_bid slot).trans (if_neg hslot))
  subst hroot
  refine ⟨rfl, ?_⟩
  cases ks with
  | nil => exact Or.inl rfl
  | cons k ks =>
    obtain ⟨_, hheight, _, hne⟩ := hlive
    have hlength : ks.length < 1 := hheight
    obtain rfl := List.length_eq_zero_iff.mp (Nat.lt_one_iff.mp hlength)
    right
    by_contra hk
    refine hne ((nestedFile_block_below k).trans (if_neg fun heq => hk ?_))
    rw [heq]

/-- The index block is in the tree. -/
theorem nestedFile_top : (nestedFile.onDisk World.plain {1}).Live treeShape (1, 10) [] :=
  ⟨rfl, by rw [nestedFile_block]; decide⟩

/-- The block under the index block is in the tree. -/
theorem nestedFile_below : (nestedFile.onDisk World.plain {1}).Live treeShape (1, 10) [7] :=
  ⟨nestedFile_top, by decide, by decide, by rw [nestedFile_block_below]; decide⟩

/-- The theorem at a disk with a block under an index block, both with an entry. -/
theorem exit_cascade_nestedFile : Exec.Wp (blockExitCascade World.plain)
    (fun failed s' => failed = false ∧ OnlyHashes World.plain {1} nestedFile s' ∧
      ∀ r ks, (s'.onDisk World.plain {1}).Live treeShape r ks → Hashed World.plain {1} s' r ks)
    (fun _ => False) nestedFile := by
  refine exit_cascade World.plain (fun _ => rfl) (fun _ _ _ => rfl) {1} nestedFile
    ⟨⟨?_, ?_, ?_⟩, ?_, ?_⟩
  · rintro iid rfl
    decide
  · intro r ks hlive
    obtain ⟨rfl, rfl | rfl⟩ := nestedFile_live hlive
    · rw [nestedFile_block]
      decide
    · rw [nestedFile_block_below]
      decide
  · intro r ks r' ks' hlive hlive' heq
    obtain ⟨rfl, rfl | rfl⟩ := nestedFile_live hlive <;>
    obtain ⟨rfl, rfl | rfl⟩ := nestedFile_live hlive'
    · rfl
    · rw [nestedFile_block, nestedFile_block_below] at heq
      cases heq
    · rw [nestedFile_block, nestedFile_block_below] at heq
      cases heq
    · rfl
  · intro bid node hfind
    simp only [nestedFile, OrdMap.find_set, OrdMap.find_empty] at hfind
    split at hfind
    · next heq =>
      obtain rfl := Option.some.inj hfind
      subst heq
      refine ⟨(1, 10), [7], nestedFile_below, nestedFile_block_below 7, ⟨⟨?_, rfl⟩, ?_⟩, rfl⟩
      · rw [nestedFile_block]
        rfl
      · intro i hi hi'
        simp only [List.length_singleton] at hi
        obtain rfl | rfl : i = 2 ∨ i = 3 := by omega
        · rfl
        · rfl
    · split at hfind
      · next heq =>
        obtain rfl := Option.some.inj hfind
        subst heq
        refine ⟨(1, 10), [], nestedFile_top, nestedFile_block, ⟨rfl, ?_⟩, rfl⟩
        intro i hi hi'
        simp only [List.length_nil] at hi
        obtain rfl | rfl | rfl : i = 1 ∨ i = 2 ∨ i = 3 := by omega
        · rfl
        · rfl
        · rfl
      · cases hfind
  · intro r ks hlive hnone
    obtain ⟨rfl, rfl | rfl⟩ := nestedFile_live hlive
    · rw [nestedFile_block] at hnone
      cases hnone
    · rw [nestedFile_block_below] at hnone
      cases hnone

end Efs
