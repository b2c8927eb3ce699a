import Efs.BitmapSemantics
import Efs.BlockHold
import Efs.DataBitmap
import Efs.Keeping

/-!
# The data bitmap as a set of used numbers

While the metadata blocks are as they should be, a load of one of them gives its
data. So the calls on the data bitmap change the set of used numbers as those on
the inode bitmap do: an allocation adds one number, a release clears the bit of
the mirrored one.
-/

namespace Efs

open Library

/-! ## Metadata blocks -/

/-- A metadata block agrees with its hash in the superblock and with the disk, and
nobody has locked it. -/
structure Spot.MetaGood (w : World) (iv key : Key128) (l : Spot) : Prop where
  /-- The hash in the superblock is right. -/
  metaOk : l.MetaOk w
  /-- The disk keeps what was written back. -/
  diskOk : l.DiskOk w iv key
  /-- The cached copy has the keys. -/
  keysOk : l.KeysOk iv key
  /-- Nobody has locked the block. -/
  unlocked : l.Unlocked

/-- Every metadata block that goes through the cache is good. -/
def Sys.MetaInv (w : World) (s : Sys) : Prop :=
  ∀ bid, inodeStart ≤ bid → bid < dataStart →
    (s.spot bid).MetaGood w (s.sb.aesIv bid) (s.sb.aesKey bid)

section

variable {w : World} {E : Halt → Prop} {s s₁ s' : Sys} {bid : ℕ} {X : Set ℕ}
  {added : List (ℕ × HashIdx)}

/-- Every cached block has content. -/
theorem Sys.BcacOk.filled (hs : s.BcacOk) (bid : ℕ) : (s.spot bid).Filled := by
  intro n hn hnone
  obtain ⟨block, hcontent, _⟩ := (hs.holds bid n hn).content
  rw [hnone] at hcontent
  cases hcontent

/-- Nothing is lost of the data of a spot that settles. -/
theorem Settles.data_eq (h : Settles w X added s s') (hs : s.BcacOk) (hbid : bid ∉ X)
    (hok : (s.spot bid).dirty = true ∨ (s.spot bid).data = (s.spot bid).evicted) :
    (s'.spot bid).data = (s.spot bid).data := by
  rcases h.spot bid hbid with h | ⟨_, h⟩
  · rw [h]
  · rw [h, Spot.data_evict (hs.filled bid) hok]

/-- A metadata block is dirty, or as the disk would give it. -/
theorem Spot.MetaOk.dirty_or {l : Spot} (h : l.MetaOk w) :
    l.dirty = true ∨ l.data = l.evicted := h.imp_right And.left

/-- An eviction keeps a metadata block good. -/
theorem Spot.MetaGood.evict {iv key : Key128} {l : Spot} (hw : w.Honest)
    (h : l.MetaGood w iv key) (hbid : bid < dataStart) (hfilled : l.Filled) :
    (l.evict w bid).MetaGood w iv key :=
  ⟨h.metaOk.evict hbid hfilled, h.diskOk.evict h.keysOk hw.decrypt_encrypt hfilled, KeysOk.evict,
    Unlocked.evict⟩

/-- A metadata block is not deleted. -/
theorem Sys.BcacSafe.holds (hs : s.BcacSafe) (hbid : bid < dataStart) {n : Node Block}
    (hn : (s.spot bid).node = some n) : n.Holds bid :=
  (hs.freeable bid n hn).resolve_right fun hdeleted => Nat.not_le.mpr hbid hdeleted.1

/-- Every cached metadata block has content. -/
theorem Sys.BcacSafe.filled (hs : s.BcacSafe) (hbid : bid < dataStart) : (s.spot bid).Filled := by
  intro n hn hnone
  obtain ⟨block, hcontent, _⟩ := (hs.holds hbid hn).content
  rw [hnone] at hcontent
  cases hcontent

/-- Nothing but evictions happens to the metadata blocks. -/
theorem Fades.spot_of_lt (h : Fades w X added s s') (hs : s.BcacSafe) (hbid : bid < dataStart)
    (hX : bid ∉ X) : s'.spot bid = s.spot bid ∨
      (s.spot bid).Idle ∧ s'.spot bid = (s.spot bid).evict w bid := by
  have hlive : (s.spot bid).deleted = false := by
    cases hn : (s.spot bid).node with
    | none => simp [Spot.deleted, hn]
    | some n => simp [Spot.deleted, hn, (hs.holds hbid hn).deleted_eq]
  rw [← Spot.discard_of_not_deleted hlive]
  exact h.spot bid hX

/-- Nothing is lost of the data of a metadata block. -/
theorem Fades.data_eq (h : Fades w X added s s') (hs : s.BcacSafe) (hbid : bid < dataStart)
    (hX : bid ∉ X) (hok : (s.spot bid).dirty = true ∨ (s.spot bid).data = (s.spot bid).evicted) :
    (s'.spot bid).data = (s.spot bid).data := by
  rcases h.spot_of_lt hs hbid hX with heq | ⟨_, heq⟩
  · rw [heq]
  · rw [heq, Spot.data_evict (hs.filled hbid) hok]

/-- The metadata blocks stay good when those that were changed are good. -/
theorem Sys.MetaInv.fades (h : s.MetaInv w) (hw : w.Honest) (hs : s.BcacSafe)
    (hfades : Fades w X added s s')
    (hX : ∀ bid ∈ X, inodeStart ≤ bid → bid < dataStart →
      (s'.spot bid).MetaGood w (s.sb.aesIv bid) (s.sb.aesKey bid)) : s'.MetaInv w := by
  intro bid hle hlt
  have hiv : s'.sb.aesIv = s.sb.aesIv := congrArg (fun r => r.2.2.2.1) hfades.rest
  have hkey : s'.sb.aesKey = s.sb.aesKey := congrArg (fun r => r.2.2.1) hfades.rest
  rw [hiv, hkey]
  by_cases hbid : bid ∈ X
  · exact hX bid hbid hle hlt
  · rcases hfades.spot_of_lt hs hlt hbid with heq | ⟨_, heq⟩
    · rw [heq]
      exact h bid hle hlt
    · rw [heq]
      exact (h bid hle hlt).evict hw hlt (hs.filled hlt)

/-- Blocks that settle in a cache in order fade. -/
theorem Settles.fades (h : Settles w X added s s') (hs : s.BcacOk) : Fades w X added s s' :=
  ⟨fun bid hbid => by
    rw [Spot.discard_of_not_deleted (hs.not_deleted bid)]
    exact h.spot bid hbid, h.loads, h.rest⟩

/-- The metadata blocks stay good when those that were changed are good. -/
theorem Sys.MetaInv.settles (h : s.MetaInv w) (hw : w.Honest) (hs : s.BcacOk)
    (hsettles : Settles w X added s s')
    (hX : ∀ bid ∈ X, inodeStart ≤ bid → bid < dataStart →
      (s'.spot bid).MetaGood w (s.sb.aesIv bid) (s.sb.aesKey bid)) : s'.MetaInv w :=
  h.fades hw hs.safe (hsettles.fades hs) hX

/-- A good metadata block can be loaded. -/
theorem Spot.MetaGood.ready {iv key : Key128} {l : Spot} (h : l.MetaGood w iv key) :
    l.Ready w iv key (some l.sbHash) := by
  have hclean : l.node = none → l.dirty = false := fun hn => by simp [dirty, hn]
  refine ⟨h.unlocked, h.keysOk, fun hn => ?_, fun hn hash hhash => ?_⟩
  · exact h.diskOk.resolve_left (by simp [hclean hn])
  · obtain rfl := Option.some.inj hhash
    rw [h.diskOk.resolve_left (by simp [hclean hn])]
    exact (h.metaOk.resolve_left (by simp [hclean hn])).2

/-- A good metadata block that was read only is good. -/
theorem Spot.MetaGood.cached {iv key : Key128} {l l' : Spot} {addr refcnt : ℕ}
    (h : l.MetaGood w iv key) (hcached : l.Cached l' addr refcnt false l.dirty iv key l.data) :
    l'.MetaGood w iv key :=
  ⟨hcached.metaOk h.metaOk, hcached.diskOk h.diskOk, hcached.keysOk, hcached.unlocked⟩

/-- A metadata block that was marked dirty is good. -/
theorem Spot.Cached.metaGood {iv key : Key128} {l l' : Spot} {addr refcnt : ℕ} {d : Data}
    (hcached : l.Cached l' addr refcnt false true iv key d) : l'.MetaGood w iv key :=
  ⟨hcached.metaOk_of_dirty, hcached.diskOk_of_dirty, hcached.keysOk, hcached.unlocked⟩

/-- The rule for a load of a metadata block. -/
theorem wp_bgetMetadata_quiet (hw : w.Honest) (hs : s.BcacSafe) (hmeta : s.MetaInv w)
    (hle : inodeStart ≤ bid) (hlt : bid < dataStart) {Q : Option ℕ → Sys → Prop}
    (hQ : ∀ addr s', s'.BcacSafe → Fades w {bid} [] s s' →
      (∀ n, (s.spot bid).node = some n → n.addr = addr) →
      (s.spot bid).Cached (s'.spot bid) addr ((s.spot bid).refs + 1) true (s.spot bid).dirty
        (s.sb.aesIv bid) (s.sb.aesKey bid) (s.spot bid).data → Q (some addr) s')
    (hE : ¬s.bcac.Admits bid → E .nodeLost ∧ E .nullDeref) :
      Exec.Wp (bgetMetadata w bid) Q E s := by
  simp only [bgetMetadata, Exec.wp_bind, Exec.wp_read]
  refine wp_bget_quiet hw hs (fun n hn => hs.holds hlt hn) hle (hmeta bid hle hlt).ready ?_ hE
  intro addr added s' hs' _ hfades hadded hcached
  have hnone : added = [] := by
    rcases hadded with ⟨_, rfl⟩ | ⟨_, rfl⟩
    · rfl
    · simp only [loaded, Nat.not_le.mpr hlt, if_false]
  rw [hnone] at hfades
  refine hQ addr s' hs' hfades (fun n hn => ?_) hcached
  rcases hadded with ⟨⟨n', hn', haddr⟩, _⟩ | ⟨habsent, _⟩
  · rw [hn] at hn'
    cases hn'
    exact haddr
  · rw [hn] at habsent
    cases habsent

/-- The rule for a load of a metadata block. -/
theorem wp_bgetMetadata (hw : w.Honest) (hs : s.BcacOk) (hmeta : s.MetaInv w)
    (hle : inodeStart ≤ bid) (hlt : bid < dataStart) {Q : Option ℕ → Sys → Prop}
    (hQ : ∀ addr s', s'.BcacOk → Settles w {bid} [] s s' →
      (∀ n, (s.spot bid).node = some n → n.addr = addr) →
      (s.spot bid).Cached (s'.spot bid) addr ((s.spot bid).refs + 1) true (s.spot bid).dirty
        (s.sb.aesIv bid) (s.sb.aesKey bid) (s.spot bid).data → Q (some addr) s')
    (hE : ¬s.Roomy 0 → E .nodeLost ∧ E .nullDeref) : Exec.Wp (bgetMetadata w bid) Q E s := by
  refine wp_bgetMetadata_quiet hw hs.safe hmeta hle hlt ?_ fun hadmits =>
    hE fun hroom => hadmits (hroom.admits hs.keyed)
  intro addr s' hs' hfades haddr hcached
  have hok : s'.BcacOk := by
    refine hfades.bcacOk hs hs'.keyed ?_
    rintro b rfl n hn
    exact hs'.holds hlt hn
  exact hQ addr s' hok (hfades.settles hs) haddr hcached

end

/-! ## The set of used numbers -/

/-- The blocks of the data bitmap. -/
def bitmapBlocks : Set ℕ := {bid | bitmapStart ≤ bid ∧ bid < dataStart}

/-- The data block numbers that the bitmap shows as used. -/
def Sys.dataUsed (s : Sys) : Set ℕ :=
  {did | did < 16777216 ∧ idUsed (s.spot (bitmapDid2Bid did)).data (did % 32768) = true}

section

variable {w : World} {E : Halt → Prop} {s s₁ s' : Sys} {bid did : ℕ}

/-- The bit of a number is in a bitmap block. -/
theorem bitmapDid2Bid_mem {did : ℕ} (h : did < 16777216) : bitmapDid2Bid did ∈ bitmapBlocks := by
  simp only [bitmapBlocks, bitmapDid2Bid, bitmapStart, blkSz, dataStart, Set.mem_ofPred_eq]
  omega

/-- The same data of the bitmap blocks shows the same numbers. -/
theorem dataUsed_congr (h : ∀ bid ∈ bitmapBlocks, (s'.spot bid).data = (s.spot bid).data) :
    s'.dataUsed = s.dataUsed := by
  ext did
  simp only [Sys.dataUsed, Set.mem_ofPred_eq]
  refine and_congr_right fun hdid => ?_
  rw [h _ (bitmapDid2Bid_mem hdid)]

/-- The number of the bit `o` of a bitmap block. -/
def didAt (bid o : ℕ) : ℕ := (bid - bitmapStart) * 32768 + o

/-- The number of a bit of a bitmap block. -/
theorem didAt_spec {o : ℕ} (hbid : bid ∈ bitmapBlocks) (ho : o < 32768) :
    didAt bid o < 16777216 ∧ bitmapDid2Bid (didAt bid o) = bid ∧ didAt bid o % 32768 = o := by
  simp only [didAt, bitmapDid2Bid, bitmapBlocks, bitmapStart, blkSz, dataStart,
    Set.mem_ofPred_eq] at *
  omega

/-- A number is that of its bit. -/
theorem eq_didAt {did : ℕ} (hbid : bitmapDid2Bid did = bid) : did = didAt bid (did % 32768) := by
  simp only [didAt, bitmapDid2Bid, bitmapStart, blkSz] at *
  omega

/-- The numbers between two bits of a bitmap block. -/
theorem didAt_between {o₁ o₂ did : ℕ} (hbid : bid ∈ bitmapBlocks) (hle : didAt bid o₁ ≤ did)
    (hlt : did < didAt bid o₂) (ho₂ : o₂ ≤ 32768) :
    bitmapDid2Bid did = bid ∧ did < 16777216 ∧ o₁ ≤ did % 32768 ∧ did % 32768 < o₂ := by
  simp only [didAt, bitmapDid2Bid, bitmapBlocks, bitmapStart, blkSz, dataStart,
    Set.mem_ofPred_eq] at *
  omega

/-- The numbers in the word of a number of a bitmap block. -/
theorem didAt_word {o did : ℕ} (hbid : bid ∈ bitmapBlocks) (ho : o < 32768)
    (hword : did / 64 = didAt bid o / 64) :
    bitmapDid2Bid did = bid ∧ did < 16777216 ∧ did % 32768 / 64 = o / 64 := by
  simp only [didAt, bitmapDid2Bid, bitmapBlocks, bitmapStart, blkSz, dataStart,
    Set.mem_ofPred_eq] at *
  omega

/-- A number of a bitmap block is used when its bit is set. -/
theorem mem_dataUsed {did : ℕ} (hdid : did < 16777216) (hbid : bitmapDid2Bid did = bid)
    (hused : idUsed (s.spot bid).data (did % 32768) = true) : did ∈ s.dataUsed :=
  ⟨hdid, by rwa [hbid]⟩

/-- A change of the bits of one bitmap block. -/
theorem mem_dataUsed_iff {did : ℕ} {d : Data} (hself : (s'.spot bid).data = d)
    (hother : ∀ b ∈ bitmapBlocks, b ≠ bid → (s'.spot b).data = (s.spot b).data) :
    did ∈ s'.dataUsed ↔ did < 16777216 ∧
      (bitmapDid2Bid did = bid ∧ idUsed d (did % 32768) = true ∨
        bitmapDid2Bid did ≠ bid ∧ did ∈ s.dataUsed) := by
  simp only [Sys.dataUsed, Set.mem_ofPred_eq]
  refine and_congr_right fun hdid => ?_
  by_cases hbid : bitmapDid2Bid did = bid
  · simp only [hbid, hself, true_and, ne_eq, not_true_eq_false, false_and, or_false]
  · rw [hother _ (bitmapDid2Bid_mem hdid) hbid]
    simp only [hbid, false_and, ne_eq, not_false_eq_true, hdid, true_and, false_or]

/-- Marking a bit of one bitmap block adds its number. -/
theorem dataUsed_mark {p tmp : ℕ} (hbid : bid ∈ bitmapBlocks) (hp : p < 512) (htmp : tmp < 64)
    (hself : (s'.spot bid).data = markWord (s.spot bid).data p tmp)
    (hother : ∀ b ∈ bitmapBlocks, b ≠ bid → (s'.spot b).data = (s.spot b).data) :
    s'.dataUsed = insert (didAt bid (p * 64 + (63 - tmp))) s.dataUsed := by
  have ho : p * 64 + (63 - tmp) < 32768 := by omega
  obtain ⟨hlt, hblock, hmod⟩ := didAt_spec hbid ho
  ext did
  rw [mem_dataUsed_iff hself hother, Set.mem_insert_iff, idUsed_markWord _ hp htmp]
  simp only [Bool.or_eq_true, decide_eq_true_eq]
  constructor
  · rintro ⟨hdid, ⟨heq, hused | hnew⟩ | ⟨_, hmem⟩⟩
    · exact Or.inr ⟨hdid, by rw [heq]; exact hused⟩
    · left
      rw [eq_didAt heq, hnew]
    · exact Or.inr hmem
  · rintro (rfl | hmem)
    · exact ⟨hlt, Or.inl ⟨hblock, Or.inr hmod⟩⟩
    · refine ⟨hmem.1, ?_⟩
      by_cases heq : bitmapDid2Bid did = bid
      · exact Or.inl ⟨heq, Or.inl (by rw [← heq]; exact hmem.2)⟩
      · exact Or.inr ⟨heq, hmem⟩

/-- The mirrored number is in the same block. -/
theorem bitmapDid2Bid_mirror (did : ℕ) : bitmapDid2Bid (mirror did) = bitmapDid2Bid did := by
  simp only [bitmapDid2Bid, mirror, bitmapStart, blkSz]
  omega

/-- The mirrored bit stays in its block. -/
theorem mirror_mod (did : ℕ) : mirror did % 32768 = mirror (did % 32768) := by
  unfold mirror
  omega

/-- Clearing a byte of one bitmap block removes the mirrored number. -/
theorem dataUsed_clear {did : ℕ}
    (hself : (s'.spot (bitmapDid2Bid did)).data =
      clearByte (s.spot (bitmapDid2Bid did)).data (did % 32768))
    (hother : ∀ b ∈ bitmapBlocks, b ≠ bitmapDid2Bid did →
      (s'.spot b).data = (s.spot b).data) : s'.dataUsed = s.dataUsed \ {mirror did} := by
  have hmod : did % 32768 < 32768 := Nat.mod_lt _ (by decide)
  ext j
  rw [mem_dataUsed_iff hself hother, Set.mem_sdiff, Set.mem_singleton_iff, idUsed_clearByte _ hmod]
  simp only [Bool.and_eq_true, decide_eq_true_eq]
  constructor
  · rintro ⟨hj, ⟨heq, hused, hne⟩ | ⟨hne, hmem⟩⟩
    · refine ⟨⟨hj, by rw [heq]; exact hused⟩, ?_⟩
      rintro rfl
      exact hne (mirror_mod did)
    · refine ⟨hmem, ?_⟩
      rintro rfl
      exact hne (bitmapDid2Bid_mirror did)
  · rintro ⟨hmem, hne⟩
    refine ⟨hmem.1, ?_⟩
    by_cases heq : bitmapDid2Bid j = bitmapDid2Bid did
    · refine Or.inl ⟨heq, by rw [← heq]; exact hmem.2, fun hmirror => hne ?_⟩
      rw [eq_didAt heq, hmirror, ← mirror_mod, ← eq_didAt (bitmapDid2Bid_mirror did)]
    · exact Or.inr ⟨heq, hmem⟩

/-! ## The calls -/

/-- The states agree off the bitmap blocks, and the metadata is good. -/
structure BitmapChanges (w : World) (s s' : Sys) : Prop where
  /-- The block cache is good. -/
  ok : s'.BcacOk
  /-- The metadata blocks are good. -/
  metaInv : s'.MetaInv w
  /-- The other spots settle. -/
  settles : Settles w bitmapBlocks [] s s'
  /-- No block is held that was not. -/
  held : HoldsWithin ∅ s s'

/-- Two changes of bitmap blocks are one. -/
theorem BitmapChanges.trans (h₁ : BitmapChanges w s s₁) (h₂ : BitmapChanges w s₁ s') :
    BitmapChanges w s s' :=
  ⟨h₂.ok, h₂.metaInv, (h₁.settles.trans h₂.settles).mono (by simp), h₁.held.comp h₂.held⟩

/-- States with the same spots and the same rest. -/
theorem Settles.of_spot_eq (hspot : ∀ bid, s'.spot bid = s.spot bid) (hloads : s'.loads = s.loads)
    (hrest : s'.rest = s.rest) : Settles w ∅ [] s s' :=
  ⟨fun bid _ => Or.inl (hspot bid), hloads, hrest⟩

/-- The states agree off the bitmap blocks but for nodes that were freed, and the metadata
is good. -/
structure BitmapFades (w : World) (s s' : Sys) : Prop where
  /-- The nodes can be freed. -/
  safe : s'.BcacSafe
  /-- The metadata blocks are good. -/
  metaInv : s'.MetaInv w
  /-- The other spots fade. -/
  fades : Fades w bitmapBlocks [] s s'
  /-- No block is held that was not. -/
  held : HoldsWithin ∅ s s'

/-- Bitmap blocks that fade change as bitmap blocks do. -/
theorem BitmapFades.changes (h : BitmapFades w s s') (hs : s.BcacOk) : BitmapChanges w s s' :=
  ⟨h.fades.bcacOk hs h.safe.keyed fun _ hb _ hn => h.safe.holds hb.2 hn, h.metaInv,
    h.fades.settles hs, h.held⟩

/-- A bitmap block that was read, or changed and marked dirty, and given back. -/
theorem bitmapFades_of_cached (hw : w.Honest) (hs : s.BcacSafe) (hmeta : s.MetaInv w)
    (hbid : bid ∈ bitmapBlocks) (hs' : s'.BcacSafe) (hfades : Fades w {bid} [] s s')
    {addr : ℕ} {dirty : Bool} {d : Data}
    (hcached : (s.spot bid).Cached (s'.spot bid) addr (s.spot bid).refs false dirty
      (s.sb.aesIv bid) (s.sb.aesKey bid) d)
    (hdirty : dirty = true ∨ dirty = (s.spot bid).dirty ∧ d = (s.spot bid).data) :
    BitmapFades w s s' ∧ (s'.spot bid).data = d ∧
      ∀ b ∈ bitmapBlocks, b ≠ bid → (s'.spot b).data = (s.spot b).data := by
  have hle : ∀ b ∈ bitmapBlocks, inodeStart ≤ b := fun b hb =>
    le_trans (by decide : inodeStart ≤ bitmapStart) hb.1
  have hgood : (s'.spot bid).MetaGood w (s.sb.aesIv bid) (s.sb.aesKey bid) := by
    rcases hdirty with rfl | ⟨rfl, rfl⟩
    · exact hcached.metaGood
    · exact (hmeta bid (hle bid hbid) hbid.2).cached hcached
  have hheld : HoldsWithin ∅ s s' := by
    apply hfades.holdsWithin.drop
    rw [hcached.refs_eq]
    exact id
  refine ⟨⟨hs', hmeta.fades hw hs hfades ?_, hfades.mono (by simpa using hbid), hheld⟩,
    hcached.data_eq, fun b hb hne => ?_⟩
  · rintro b rfl _ _
    exact hgood
  · exact hfades.data_eq hs hb.2 hne (hmeta b (hle b hb) hb.2).metaOk.dirty_or

/-- A bitmap block that was read, or changed and marked dirty, and given back. -/
theorem bitmapChanges_of_cached (hw : w.Honest) (hs : s.BcacOk) (hmeta : s.MetaInv w)
    (hbid : bid ∈ bitmapBlocks) (hs' : s'.BcacOk) (hsettles : Settles w {bid} [] s s')
    {addr : ℕ} {dirty : Bool} {d : Data}
    (hcached : (s.spot bid).Cached (s'.spot bid) addr (s.spot bid).refs false dirty
      (s.sb.aesIv bid) (s.sb.aesKey bid) d)
    (hdirty : dirty = true ∨ dirty = (s.spot bid).dirty ∧ d = (s.spot bid).data) :
    BitmapChanges w s s' ∧ (s'.spot bid).data = d ∧
      ∀ b ∈ bitmapBlocks, b ≠ bid → (s'.spot b).data = (s.spot b).data := by
  obtain ⟨hbitmap, hdata, hother⟩ := bitmapFades_of_cached hw hs.safe hmeta hbid hs'.safe
    (hsettles.fades hs) hcached hdirty
  exact ⟨hbitmap.changes hs, hdata, hother⟩

/-- The ways a run ends for want of room: no room in a queue of the cache, or in
the data bitmap. -/
def Halt.NoRoom (e : Halt) : Prop :=
  e = .nodeLost ∨ e = .nullDeref ∨ e = .panic .dataBitmapFull

/-- Only the search hint is looked at. -/
theorem aside_dbmFirstEmptyWord : Aside Sys.dbmFirstEmptyWord :=
  fun _ _ h => congrArg (fun r : Cache Inode × InodeBitmap × ℕ => r.2.2) h

/-- A search from the number `start` on marked the first number that was not used. The
hint moves on by one word when the word of the number is full then. -/
structure DbmMarked (w : World) (s : Sys) (start did : ℕ) (s' : Sys) : Prop where
  /-- The bitmap blocks changed. -/
  changes : BitmapChanges w s s'
  /-- The number is in the bitmap. -/
  lt : did < 16777216
  /-- The search found it. -/
  start_le : start ≤ did
  /-- It was not used. -/
  unused : did ∉ s.dataUsed
  /-- It is used now. -/
  used : s'.dataUsed = insert did s.dataUsed
  /-- All numbers before it were used. -/
  least : ∀ id, start ≤ id → id < did → id ∈ s.dataUsed
  /-- The hint. -/
  hint : s'.dbmFirstEmptyWord = s.dbmFirstEmptyWord ∨
    s'.dbmFirstEmptyWord = s.dbmFirstEmptyWord + 1 ∧ ∀ id, id / 64 = did / 64 → id ∈ s'.dataUsed

/-- A search from the number `start` on found all numbers used. -/
structure DbmFull (w : World) (s : Sys) (start : ℕ) (s' : Sys) : Prop where
  /-- The bitmap blocks were read. -/
  changes : BitmapChanges w s s'
  /-- The same numbers are used. -/
  used : s'.dataUsed = s.dataUsed
  /-- All of them. -/
  full : ∀ id, start ≤ id → id < 16777216 → id ∈ s.dataUsed
  /-- The hint stays. -/
  hint : s'.dbmFirstEmptyWord = s.dbmFirstEmptyWord

/-- The rule for the statements of `dbm_alloc` after the search in a block found a bit. -/
theorem wp_dbmMark (hw : w.Honest) (hs : s.BcacOk) (hmeta : s.MetaInv w) (hbid : bid ∈ bitmapBlocks)
    (hs₁ : s₁.BcacOk) (hsettles₁ : Settles w {bid} [] s s₁)
    (hhint₁ : s₁.dbmFirstEmptyWord = s.dbmFirstEmptyWord) {addr p tmp ret : ℕ} {dirty : Bool}
    {d : Data}
    (hcached₁ : (s.spot bid).Cached (s₁.spot bid) addr ((s.spot bid).refs + 1) true dirty
      (s.sb.aesIv bid) (s.sb.aesKey bid) d) {Q : Option ℕ → Sys → Prop}
    (hQ : ∀ s', BitmapChanges w s s' → (s'.spot bid).data = markWord d p tmp →
      (∀ b ∈ bitmapBlocks, b ≠ bid → (s'.spot b).data = (s.spot b).data) →
      (s'.dbmFirstEmptyWord = s.dbmFirstEmptyWord ∨
        s'.dbmFirstEmptyWord = s.dbmFirstEmptyWord + 1 ∧ ~~~(word64 (markWord d p tmp) p) = 0) →
      Q (some ret) s') :
    Exec.Wp (do
      dataStore w addr fun data => markWord data p tmp
      let full := ~~~(word64 (markWord d p tmp) p) = 0
      Exec.when full do
        Exec.update fun s => { s with dbmFirstEmptyWord := s.dbmFirstEmptyWord + 1 }
      let _ ← blockMakeDirty w bid
      let _ ← blockUnlockReturn w bid
      raiseMaxbid (did2Bid ret)
      return some ret) Q E s₁ := by
  simp only [Exec.wp_bind]
  refine wp_dataStore_held hs₁ hcached₁ fun s₂ h₂ hcached₂ => ?_
  have hrest : ∀ s₃ : Sys, s₃.BcacOk → Settles w ∅ [] s₂ s₃ → s₃.spot bid = s₂.spot bid →
      (s₃.dbmFirstEmptyWord = s₂.dbmFirstEmptyWord ∨
        s₃.dbmFirstEmptyWord = s₂.dbmFirstEmptyWord + 1 ∧
          ~~~(word64 (markWord d p tmp) p) = 0) →
      Exec.Wp (blockMakeDirty w bid) (fun _ s' => Exec.Wp (blockUnlockReturn w bid)
        (fun _ s' => Exec.Wp (raiseMaxbid (did2Bid ret)) (fun _ => Q (some ret)) E s') E s') E
          s₃ := by
    intro s₃ hs₃ hsettles₃ hspot₃ hhint₃
    rw [← hspot₃] at hcached₂
    refine wp_blockMakeDirty_held hs₃ hcached₂ fun s₄ h₄ hcached₄ => ?_
    refine wp_blockUnlockReturn_held h₄.ok hcached₄ fun s₅ h₅ hcached₅ => ?_
    have hsettles : Settles w {bid} [] s s₅ :=
      ((((hsettles₁.trans h₂.settles).trans hsettles₃).trans h₄.settles).trans h₅.settles).mono
        (by simp)
    obtain ⟨hchanges, hself, hother⟩ := bitmapChanges_of_cached hw hs hmeta hbid h₅.ok hsettles
      hcached₅ (Or.inl rfl)
    have hhint : s₅.dbmFirstEmptyWord = s₃.dbmFirstEmptyWord := h₅.hint.trans h₄.hint
    have hhint' : s₂.dbmFirstEmptyWord = s.dbmFirstEmptyWord := h₂.hint.trans hhint₁
    rw [← hhint, hhint'] at hhint₃
    exact hQ _ ⟨hchanges.ok.of_node hchanges.ok.keyed fun _ _ h => h, hchanges.metaInv,
      ⟨hchanges.settles.spot, hchanges.settles.loads, hchanges.settles.rest⟩, hchanges.held⟩ hself
      hother hhint₃
  refine Exec.wp_when.mpr ⟨fun hword => ?_, fun _ => ?_⟩
  · exact hrest _ (h₂.ok.of_node h₂.ok.keyed fun _ _ h => h) (.of_spot_eq (fun _ => rfl) rfl rfl)
      rfl (Or.inr ⟨rfl, hword⟩)
  · exact hrest s₂ h₂.ok (.refl s₂) rfl (Or.inl rfl)

/-- The rule for the loop of `dbm_alloc`, by induction on the blocks that are left. -/
theorem wp_dbmAllocFrom (hw : w.Honest) (hs : s.BcacOk) (hmeta : s.MetaInv w) {n ret wid : ℕ}
    (hn : n ≤ bitmapCnt) (hwid : wid < bitmapWordPerBlock)
    (hret : 0 < n → ret = didAt (dataStart - n) (wid * 64)) (hend : n = 0 → 16777216 ≤ ret)
    {Q : Option ℕ → Sys → Prop} (hQ : ∀ did s', DbmMarked w s ret did s' → Q (some did) s')
    (hfull : ∀ s', DbmFull w s ret s' →
      (w.panicReturns = true → Q none s') ∧ (w.panicReturns = false → E (.panic .dataBitmapFull)))
    (hE : ¬s.Roomy 0 → E .nodeLost ∧ E .nullDeref) : Exec.Wp (dbmAllocFrom w n ret wid) Q E s := by
  induction n generalizing s ret wid with
  | zero =>
    simp only [dbmAllocFrom, Exec.wp_bind, wp_panic, Exec.wp_pure]
    exact hfull s ⟨⟨hs, hmeta, .refl s, .refl ∅ s⟩, rfl,
      fun id hle hlt => absurd (le_trans (hend rfl) hle) (Nat.not_le.mpr hlt), rfl⟩
  | succ n ih =>
    have hbid : dataStart - (n + 1) ∈ bitmapBlocks := by
      simp only [bitmapBlocks, bitmapStart, bitmapCnt, dataStart, Set.mem_ofPred_eq] at *
      omega
    have hret := hret (Nat.succ_pos n)
    have hnext : ret + (bitmapWordPerBlock - wid) * bitmapBitPerWord =
        didAt (dataStart - (n + 1)) 32768 := by
      simp only [hret, didAt, bitmapWordPerBlock, bitmapBitPerWord] at hwid ⊢
      omega
    have hnextBlock : didAt (dataStart - (n + 1)) 32768 = didAt (dataStart - n) (0 * 64) := by
      simp only [didAt, bitmapStart, dataStart, bitmapCnt] at hn ⊢
      omega
    generalize hb : dataStart - (n + 1) = bid at hbid hret hnext hnextBlock
    have hle : inodeStart ≤ bid := le_trans (by decide : inodeStart ≤ bitmapStart) hbid.1
    simp only [dbmAllocFrom, hb, Exec.wp_bind]
    apply Exec.Wp.keeping (aside_dbmFirstEmptyWord.bgetMetadata _)
    refine wp_bgetMetadata hw hs hmeta hle hbid.2 ?_ hE
    intro addr s₁ hs₁ hsettles₁ _ hcached₁ hhint₁
    refine Exec.wp_bind.mpr (wp_blockAt_held hs₁ hcached₁ fun block hdata hblock => ?_)
    rw [hdata, hblock]
    cases hscan : scanWords (s.spot bid).data (bitmapWordPerBlock - wid) wid with
    | some found =>
      obtain ⟨p, tmp⟩ := found
      obtain ⟨hwp, hp, htmp, hclear⟩ := scanWords_some hscan
      have hp' : p < 512 := by
        simp only [bitmapWordPerBlock] at hp hwid
        omega
      have ho : p * 64 + (63 - tmp) < 32768 := by omega
      obtain ⟨hlt, hblock', hmod⟩ := didAt_spec hbid ho
      have hdid : ret + (p - wid) * bitmapBitPerWord + (63 - tmp) =
          didAt bid (p * 64 + (63 - tmp)) := by
        simp only [hret, didAt, bitmapBitPerWord]
        omega
      have hstart : ret ≤ didAt bid (p * 64 + (63 - tmp)) := by omega
      refine wp_dbmMark hw hs hmeta hbid hs₁ hsettles₁ hhint₁ hcached₁ ?_
      intro s' hchanges hself hother hhint
      rw [hdid]
      refine hQ _ _ ⟨hchanges, hlt, hstart, ?_, dataUsed_mark hbid hp' htmp hself hother, ?_, ?_⟩
      · rintro ⟨_, hused⟩
        rw [hblock', hmod, hclear] at hused
        cases hused
      · intro id hidle hidlt
        rw [hret] at hidle
        obtain ⟨hidbid, hid, hidlow, hidhigh⟩ := didAt_between hbid hidle hidlt ho.le
        exact mem_dataUsed hid hidbid (scanWords_least hscan hidlow hidhigh)
      · refine hhint.imp_right fun h => ⟨h.1, fun id hid => ?_⟩
        obtain ⟨hidbid, hidlt, hidword⟩ := didAt_word hbid ho hid
        have hword : (p * 64 + (63 - tmp)) / 64 = p := by omega
        apply mem_dataUsed hidlt hidbid
        rw [hself]
        exact idUsed_of_full (by rw [hidword, hword]; exact h.2)
    | none =>
      simp only [Exec.wp_bind]
      refine wp_blockUnlockReturn_held hs₁ hcached₁ fun s₂ h₂ hcached₂ => ?_
      obtain ⟨hchanges, hself, hother⟩ := bitmapChanges_of_cached hw hs hmeta hbid h₂.ok
        ((hsettles₁.trans h₂.settles).mono (by simp)) hcached₂ (Or.inr ⟨rfl, rfl⟩)
      have hused : s₂.dataUsed = s.dataUsed := dataUsed_congr fun b hb' => by
        by_cases hbb : b = bid
        · rw [hbb, hself]
        · exact hother b hb' hbb
      have hhint : s₂.dbmFirstEmptyWord = s.dbmFirstEmptyWord := h₂.hint.trans hhint₁
      -- the rest of this block is used
      have hblockUsed : ∀ id, ret ≤ id → id < didAt bid 32768 → id ∈ s.dataUsed := by
        intro id hidle hidlt
        rw [hret] at hidle
        obtain ⟨hidbid, hid, hidlow, hidhigh⟩ := didAt_between hbid hidle hidlt (le_refl _)
        apply mem_dataUsed hid hidbid
        apply scanWords_none_used hscan hidlow
        simp only [bitmapWordPerBlock] at hwid ⊢
        omega
      have hretle : ret ≤ didAt bid 32768 := by omega
      rw [hnext]
      refine ih h₂.ok hchanges.metaInv (Nat.le_of_succ_le hn) (by decide) (fun _ => hnextBlock) ?_
        ?_ ?_ fun hcrowded => hE fun hroom => hcrowded (hchanges.held.roomy hroom)
      · rintro rfl
        rw [hnextBlock]
        decide
      · rintro did s' ⟨hchanges', hlt, hstart, hnew, hinsert, hleast, hhint'⟩
        rw [hused] at hnew hinsert hleast
        rw [hhint] at hhint'
        refine hQ did s' ⟨hchanges.trans hchanges', hlt, hretle.trans hstart, hnew, hinsert, ?_,
          hhint'⟩
        intro id hidle hidlt
        by_cases hin : id < didAt bid 32768
        · exact hblockUsed id hidle hin
        · exact hleast id (Nat.not_lt.mp hin) hidlt
      · rintro s' ⟨hchanges', hused', hall, hhint'⟩
        rw [hused] at hused' hall
        refine hfull s' ⟨hchanges.trans hchanges', hused', ?_, hhint'.trans hhint⟩
        intro id hidle hidlt
        by_cases hin : id < didAt bid 32768
        · exact hblockUsed id hidle hin
        · exact hall id (Nat.not_lt.mp hin) hidlt

/-- The rule for `dbm_alloc`: the search starts at the hint. -/
theorem wp_dbmAllocExit_least (hw : w.Honest) (hs : s.BcacOk) (hmeta : s.MetaInv w)
    {Q : Option ℕ → Sys → Prop}
    (hQ : ∀ did s', DbmMarked w s (s.dbmFirstEmptyWord * 64) did s' → Q (some did) s')
    (hfull : ∀ s', DbmFull w s (s.dbmFirstEmptyWord * 64) s' →
      (w.panicReturns = true → Q none s') ∧ (w.panicReturns = false → E (.panic .dataBitmapFull)))
    (hE : ¬s.Roomy 0 → E .nodeLost ∧ E .nullDeref) : Exec.Wp (dbmAllocExit w) Q E s := by
  simp only [dbmAllocExit, Exec.wp_bind, Exec.wp_read]
  refine wp_dbmAllocFrom hw hs hmeta ?_ (Nat.mod_lt _ (by decide)) ?_ ?_ hQ hfull hE
  · simp only [bitmapWordId2Bid, bitmapStart, bitmapWordPerBlock, dataStart, bitmapCnt]
    omega
  · intro hpos
    simp only [didAt, bitmapWordId2Bid, bitmapStart, bitmapWordPerBlock, dataStart,
      bitmapBitPerWord] at *
    omega
  · intro hzero
    simp only [bitmapWordId2Bid, bitmapStart, bitmapWordPerBlock, dataStart, bitmapBitPerWord] at *
    omega

/-- The rule for `dbm_free` while data blocks may be deleted. -/
theorem wp_dbmFree_quiet (hw : w.Honest) (hs : s.BcacSafe) (hmeta : s.MetaInv w) {did : ℕ}
    (hdid : did < 16777216) {Q : Bool → Sys → Prop}
    (hQ : ∀ s', BitmapFades w s s' →
      (s'.spot (bitmapDid2Bid did)).data =
        clearByte (s.spot (bitmapDid2Bid did)).data (did % 32768) →
      (∀ b ∈ bitmapBlocks, b ≠ bitmapDid2Bid did → (s'.spot b).data = (s.spot b).data) →
      (s'.spot (bitmapDid2Bid did)).refs = (s.spot (bitmapDid2Bid did)).refs →
      Fades w {bitmapDid2Bid did} [] s s' →
      s'.dbmFirstEmptyWord = min s.dbmFirstEmptyWord (did / 64) → Q false s')
    (hE : ¬s.bcac.Admits (bitmapDid2Bid did) → E .nodeLost ∧ E .nullDeref) :
    Exec.Wp (dbmFree w did) Q E s := by
  have hbid := bitmapDid2Bid_mem hdid
  have hle : inodeStart ≤ bitmapDid2Bid did :=
    le_trans (by decide : inodeStart ≤ bitmapStart) hbid.1
  have hin : ¬bitmapCnt ≤ did / (blkSz * 8) := by
    simp only [bitmapCnt, blkSz]
    omega
  have hholds : ∀ {s : Sys}, s.BcacSafe → ∀ n, (s.spot (bitmapDid2Bid did)).node = some n →
      n.Holds (bitmapDid2Bid did) := fun hs n hn => hs.holds hbid.2 hn
  simp only [dbmFree, hin, if_false, Exec.wp_bind]
  apply Exec.Wp.keeping (aside_dbmFirstEmptyWord.bgetMetadata _)
  refine wp_bgetMetadata_quiet hw hs hmeta hle hbid.2 ?_ hE
  intro addr s₁ hs₁ hfades₁ _ hcached₁ hhint₁
  refine Exec.wp_bind.mpr (wp_blockAt_quiet hs₁ (hholds hs₁) hcached₁ fun block _ hblock => ?_)
  simp only [Exec.wp_bind, hblock]
  refine wp_dataStore_quiet hs₁ (hholds hs₁) hcached₁ fun s₂ h₂ hcached₂ => ?_
  have hs₂' : ({ s₂ with dbmFirstEmptyWord := min s₂.dbmFirstEmptyWord (did / 64) } :
      Sys).BcacSafe := ⟨h₂.safe.keyed, h₂.safe.freeable⟩
  have hhint : Fades w ∅ [] s₂
      { s₂ with dbmFirstEmptyWord := min s₂.dbmFirstEmptyWord (did / 64) } :=
    .of_spot_eq (fun _ => rfl) rfl rfl
  rw [Exec.wp_update]
  refine wp_blockMakeDirty_quiet hs₂' (hholds hs₂') hcached₂ fun s₃ h₃ hcached₃ => ?_
  simp only [Bool.false_eq_true, if_false]
  refine wp_blockUnlockReturn_quiet h₃.safe (hholds h₃.safe) hcached₃ fun s₄ h₄ hcached₄ => ?_
  have hfades : Fades w {bitmapDid2Bid did} [] s s₄ :=
    ((((hfades₁.trans h₂.fades).trans hhint).trans h₃.fades).trans h₄.fades).mono (by simp)
  obtain ⟨hbitmap, hself, hother⟩ := bitmapFades_of_cached hw hs hmeta hbid h₄.safe hfades
    hcached₄ (Or.inl rfl)
  refine hQ s₄ hbitmap hself hother hcached₄.refs_eq hfades ?_
  have hlast : s₄.dbmFirstEmptyWord = min s₂.dbmFirstEmptyWord (did / 64) := h₄.hint.trans h₃.hint
  rw [hlast, h₂.hint, hhint₁]

/-- The rule for `dbm_free`, with the search hint. -/
theorem wp_dbmFree_hint (hw : w.Honest) (hs : s.BcacOk) (hmeta : s.MetaInv w) {did : ℕ}
    (hdid : did < 16777216) {Q : Bool → Sys → Prop}
    (hQ : ∀ s', BitmapChanges w s s' → s'.dataUsed = s.dataUsed \ {mirror did} →
      s'.dbmFirstEmptyWord = min s.dbmFirstEmptyWord (did / 64) → Q false s')
    (hE : ¬s.Roomy 0 → E .nodeLost ∧ E .nullDeref) : Exec.Wp (dbmFree w did) Q E s := by
  refine wp_dbmFree_quiet hw hs.safe hmeta hdid ?_ fun hadmits =>
    hE fun hroom => hadmits (hroom.admits hs.keyed)
  intro s' hbitmap hself hother _ _ hhint
  exact hQ s' (hbitmap.changes hs) (dataUsed_clear hself hother) hhint

/-! ## Numbers that a search finds -/

/-- The numbers that a search of `dbm_alloc` finds: they are not used, and their words are not
before the hint. -/
def Sys.openDids (s : Sys) : Set ℕ :=
  {did | s.dbmFirstEmptyWord * 64 ≤ did ∧ did < 16777216 ∧ did ∉ s.dataUsed}

/-- The numbers to be found depend on the bitmap and the hint. -/
theorem openDids_congr (hhint : s'.dbmFirstEmptyWord = s.dbmFirstEmptyWord)
    (hused : s'.dataUsed = s.dataUsed) : s'.openDids = s.openDids := by
  simp only [Sys.openDids, hhint, hused]

/-- An allocation takes one number and leaves the others to be found. -/
theorem DbmMarked.openDids (h : DbmMarked w s (s.dbmFirstEmptyWord * 64) did s') :
    s.openDids \ {did} ⊆ s'.openDids := by
  rintro id ⟨⟨hstart, hlt, hunused⟩, hne⟩
  have hunused' : id ∉ s'.dataUsed := by
    rw [h.used, Set.mem_insert_iff, not_or]
    exact ⟨hne, hunused⟩
  refine ⟨?_, hlt, hunused'⟩
  rcases h.hint with hhint | ⟨hhint, hfull⟩
  · rw [hhint]
    exact hstart
  · -- the word that the hint leaves is that of `did`, or lies before it
    rw [hhint]
    have hword : id / 64 ≠ did / 64 := fun heq => hunused' (hfull id heq)
    have hafter : did ≤ id := by
      by_contra hbefore
      exact hunused (h.least id hstart (Nat.lt_of_not_le hbefore))
    have hle := h.start_le
    omega

/-- After a search through all blocks no number can be found. -/
theorem DbmFull.openDids_eq_empty (h : DbmFull w s (s.dbmFirstEmptyWord * 64) s') :
    s.openDids = ∅ := by
  ext did
  refine iff_of_false ?_ (Set.notMem_empty did)
  rintro ⟨hstart, hlt, hunused⟩
  exact hunused (h.full did hstart hlt)

variable (hw : w.Reliable)

include hw

/-- The rule for `dbm_alloc`: it marks a number that was not used. -/
theorem wp_dbmAllocExit (hs : s.BcacOk) (hmeta : s.MetaInv w) {Q : Option ℕ → Sys → Prop}
    (hQ : ∀ did s', DbmMarked w s (s.dbmFirstEmptyWord * 64) did s' → Q (some did) s')
    (hE : ¬(s.Roomy 0 ∧ s.openDids.Nonempty) → ∀ e : Halt, e.NoRoom → E e) :
    Exec.Wp (dbmAllocExit w) Q E s := by
  refine wp_dbmAllocExit_least hw hs hmeta hQ ?_ fun hcrowded => ?_
  · intro s' hfull
    rw [hw.panicReturns_eq]
    refine ⟨fun hreturns => absurd hreturns Bool.false_ne_true, fun _ => ?_⟩
    refine hE (fun hroom => ?_) _ (Or.inr (Or.inr rfl))
    rw [hfull.openDids_eq_empty] at hroom
    exact Set.not_nonempty_empty hroom.2
  · have hE' := hE fun hroom => hcrowded hroom.1
    exact ⟨hE' _ (Or.inl rfl), hE' _ (Or.inr (Or.inl rfl))⟩

/-- The rule for `block_alloc`: the block was not used, and its data is zero. -/
theorem wp_blockAlloc (hs : s.BcacOk) (hmeta : s.MetaInv w) {Q : ℕ → Sys → Prop}
    (hQ : ∀ did s', DbmMarked w s (s.dbmFirstEmptyWord * 64) did s' → Q (did2Bid did)
      { s' with evicted := Function.update s'.evicted (did2Bid did) Bytes.zero })
    (hE : ¬(s.Roomy 0 ∧ s.openDids.Nonempty) → ∀ e : Halt, e.NoRoom → E e) :
    Exec.Wp (blockAlloc w) Q E s :=
  Exec.wp_bind.mpr (wp_dbmAllocExit hw hs hmeta (fun did s' hmarked => hQ did s' hmarked) hE)

end

/-! ## Runs of both allocators -/

/-- The empty block cache is good. -/
theorem Sys.blank_bcacOk : blank.BcacOk :=
  ⟨.empty, fun _ _ hn => by cases hn⟩

/-- The metadata blocks of a blank disk are good. -/
theorem Sys.blank_metaInv : blank.MetaInv World.plain := by
  intro bid _ _
  refine ⟨Or.inr ⟨rfl, ?_⟩, Or.inr rfl, ?_, ?_⟩
  · exact Bytes.sub_zero 0
  · intro block hblock
    cases hblock
  · intro n hn
    cases hn

end Efs
