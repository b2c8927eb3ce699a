import Efs.Block
import Efs.CacheUniqueness

/-!
# What the system holds of one block

The cache node of a block, its last written plaintext, its entry in `pd_wb`, its
ciphertext and its hash in the superblock make its spot. An eviction changes the
spot of one block and leaves every other spot alone; the data of the block, and
whether its hash can be found, do not change.
-/

namespace Efs

open Library

/-- What the system holds of one block. -/
structure Spot where
  /-- The node in the block cache. -/
  node : Option (Node Block)
  /-- The plaintext of the last write back. -/
  evicted : Data
  /-- The entry in `pd_wb`. -/
  pending : Option PdWbNode
  /-- The ciphertext on the disk. -/
  disk : Data
  /-- The hash in the superblock. -/
  sbHash : Key256

/-- The spot of a block. -/
def Sys.spot (s : Sys) (bid : ℕ) : Spot :=
  ⟨s.bcac.node bid, s.evicted bid, s.pdWb.find bid, s.disk bid, s.sb.hash bid⟩

namespace Spot

/-- The cached copy of the block. -/
def block (l : Spot) : Option Block := l.node.bind (·.content)

/-- The current data of the block: that of the cached copy, else what was last written back. -/
def data (l : Spot) : Data :=
  match l.block with
  | some block => block.data
  | none => l.evicted

/-- The cached copy has changes that were not written back. -/
def dirty (l : Spot) : Bool := l.node.any (·.dirty)

/-- The spot after an eviction of the block. -/
def evict (w : World) (bid : ℕ) (l : Spot) : Spot :=
  match l.block with
  | none => { l with node := none }
  | some block =>
    if l.dirty then
      { node := none
        evicted := block.data
        pending :=
          if bid < dataStart then l.pending
          else some ⟨(l.pending.map (·.hashidx)).getD block.hashidx, w.sha256 block.data⟩
        disk := w.encrypt block.aesIv block.aesKey block.data
        sbHash := if bid < dataStart then w.sha256 block.data else l.sbHash }
    else { l with node := none }

/-- A cached copy of the block has its content. -/
def Filled (l : Spot) : Prop := ∀ n ∈ l.node, n.content ≠ none

/-- Unless the cached copy is dirty, the block is what was last written back, and
its hash is the pending one or else `h`. -/
def HashOk (w : World) (l : Spot) (h : Key256) : Prop :=
  l.dirty = true ∨
    l.data = l.evicted ∧ w.sha256 l.evicted = (l.pending.map (·.hash)).getD h

/-- Unless the cached copy is dirty, the block is what was last written back, and
its hash is the one in the superblock. -/
def MetaOk (w : World) (l : Spot) : Prop :=
  l.dirty = true ∨ l.data = l.evicted ∧ w.sha256 l.evicted = l.sbHash

/-- Unless the cached copy is dirty, the disk keeps what was last written back. -/
def DiskOk (w : World) (l : Spot) (iv key : Key128) : Prop :=
  l.dirty = true ∨ w.decrypt iv key l.disk = l.evicted

/-- The cached copy has the given keys. -/
def KeysOk (l : Spot) (iv key : Key128) : Prop :=
  ∀ block ∈ l.block, block.aesIv = iv ∧ block.aesKey = key

section

variable {w : World} {bid : ℕ} {l : Spot} {h : Key256} {iv key : Key128}

/-- A block without a cached copy is not dirty. -/
theorem Filled.clean (hfilled : l.Filled) (hblock : l.block = none) : l.dirty = false := by
  cases hn : l.node with
  | none => simp [dirty, hn]
  | some n => exact absurd (by simpa [block, hn] using hblock) (hfilled n hn)

/-- An evicted block has no node. -/
@[simp] theorem node_evict : (l.evict w bid).node = none := by
  unfold evict
  cases l.block with
  | none => rfl
  | some block => cases l.dirty <;> rfl

/-- An evicted block is not cached. -/
@[simp] theorem block_evict : (l.evict w bid).block = none := by
  simp [block]

/-- An evicted block is not dirty. -/
@[simp] theorem dirty_evict : (l.evict w bid).dirty = false := by
  simp [dirty]

/-- A clean block that is evicted loses its node only. -/
theorem evict_of_clean (hclean : l.dirty = false) : l.evict w bid = { l with node := none } := by
  unfold evict
  cases l.block <;> simp [hclean]

/-- A dirty block that is evicted goes to the disk. -/
theorem evict_of_dirty {block : Block} (hblock : l.block = some block) (hdirty : l.dirty = true) :
    l.evict w bid =
      { node := none
        evicted := block.data
        pending :=
          if bid < dataStart then l.pending
          else some ⟨(l.pending.map (·.hashidx)).getD block.hashidx, w.sha256 block.data⟩
        disk := w.encrypt block.aesIv block.aesKey block.data
        sbHash := if bid < dataStart then w.sha256 block.data else l.sbHash } := by
  simp [evict, hblock, hdirty]

/-- The data of an evicted block is what it was. -/
theorem data_evict (hfilled : l.Filled) (hok : l.dirty = true ∨ l.data = l.evicted) :
    (l.evict w bid).data = l.data := by
  cases hd : l.dirty with
  | false =>
    rw [evict_of_clean hd, hok.resolve_left (by simp [hd])]
    rfl
  | true =>
    cases hb : l.block with
    | none => simp [hfilled.clean hb] at hd
    | some block =>
      have hdata : l.data = block.data := by simp only [data, hb]
      rw [evict_of_dirty hb hd, hdata]
      rfl

/-- An eviction keeps the hash of a data block where it is looked for. -/
theorem HashOk.evict (hok : l.HashOk w h) (hdata : dataStart ≤ bid) (hfilled : l.Filled) :
    (l.evict w bid).HashOk w h := by
  refine Or.inr ⟨by simp [data], ?_⟩
  cases hd : l.dirty with
  | false =>
    rw [evict_of_clean hd]
    exact (hok.resolve_left (by simp [hd])).2
  | true =>
    cases hb : l.block with
    | none => simp [hfilled.clean hb] at hd
    | some block =>
      rw [evict_of_dirty hb hd, if_neg (Nat.not_lt_of_le hdata)]
      rfl

/-- An eviction keeps the hash of a metadata block in the superblock. -/
theorem MetaOk.evict (hok : l.MetaOk w) (hmeta : bid < dataStart) (hfilled : l.Filled) :
    (l.evict w bid).MetaOk w := by
  refine Or.inr ⟨by simp [data], ?_⟩
  cases hd : l.dirty with
  | false =>
    rw [evict_of_clean hd]
    exact (hok.resolve_left (by simp [hd])).2
  | true =>
    cases hb : l.block with
    | none => simp [hfilled.clean hb] at hd
    | some block =>
      rw [evict_of_dirty hb hd]
      exact (if_pos hmeta).symm

/-- An eviction leaves on the disk what it writes back. -/
theorem DiskOk.evict (hok : l.DiskOk w iv key) (hkeys : l.KeysOk iv key)
    (hdec : ∀ iv key d, w.decrypt iv key (w.encrypt iv key d) = d) (hfilled : l.Filled) :
    (l.evict w bid).DiskOk w iv key := by
  right
  cases hd : l.dirty with
  | false =>
    rw [evict_of_clean hd]
    exact hok.resolve_left (by simp [hd])
  | true =>
    cases hb : l.block with
    | none => simp [hfilled.clean hb] at hd
    | some block =>
      obtain ⟨rfl, rfl⟩ := hkeys block hb
      rw [evict_of_dirty hb hd]
      exact hdec _ _ _

/-- An evicted block has no keys that could be wrong. -/
theorem KeysOk.evict : (l.evict w bid).KeysOk iv key := by
  intro block hblock
  simp at hblock

end

end Spot

end Efs
