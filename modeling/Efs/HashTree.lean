import Efs.FileContents

/-!
# The hash tree during a session

Between the calls of a session the hash of every block that is not cached can be
found: in `pd_wb`, else in the slot of the block, or for a metadata block in the
superblock. So no load fails its check while the disk keeps what was written, and
on another disk no load gives anything else.
-/

namespace Efs

open Library

variable {α : Type}

/-! ## Steps of a session -/

/-- A cache without the node of an id. -/
def Cache.unlink (c : Cache α) (id : ℕ) : Cache α :=
  match c.lru.search id with
  | some _ => { c with lru := c.lru.evict id }
  | none => { c with fifo := c.fifo.evict id }

section

variable (w : World)

/-- A block that nobody holds leaves the cache through `node_free`, as one does whose
place `cache_insert_get` needs. -/
def evictBlock (bid : ℕ) : Exec Halt Sys Unit := do
  match ← Exec.read fun s => s.bcac.node bid with
  | none => pure ()
  | some n =>
    Exec.when (n.refcnt = 0) do
      Exec.update fun s => { s with bcac := s.bcac.unlink bid }
      freeEvicted w (bcacOf w) (some n)

/-- A block of inodes is loaded, changed, marked dirty and given back. -/
def changeInodeBlock (bid : ℕ) (f : Data → Data) : Exec Halt Sys Unit := do
  match ← bgetMetadata w bid with
  | none => pure ()
  | some bp =>
    dataStore w bp f
    let _ ← blockMakeDirty w bid
    let _ ← blockUnlockReturn w bid

/-- The block that a lookup found is loaded with the hash and the path that the lookup left,
unless it is cached. It is changed and marked dirty when `change` says how, and given back. -/
def useBlock (ip : ℕ) (found : Lookup) (change : Option (Data → Data)) : Exec Halt Sys Unit := do
  let inode ← inodeAt ip
  match ← bgetFromCacheLock w found.bid found.hashidx inode.aesIv inode.aesKey
      (expected ⟨found.bid, found.expHash⟩ found.new) with
  | none => pure ()
  | some bp =>
    match change with
    | none => pure ()
    | some f =>
      dataStore w bp f
      let _ ← blockMakeDirty w found.bid
    let _ ← blockUnlockReturn w found.bid

/-- What happens in a session: the block of a part of a file is looked up, or allocated; a
block that was looked up is loaded, or is changed and marked dirty; a block that nobody holds is
evicted; a block of inodes is changed. -/
inductive SessionCall
  | lookup (ip bidx : ℕ) (write : Bool) (hashidx : HashIdx) (expHash : Key256) (found : Lookup)
  | load (ip bidx : ℕ) (found : Lookup)
  | change (ip bidx : ℕ) (found : Lookup) (f : Data → Data)
  | evict (bid : ℕ)
  | inodes (bid : ℕ) (f : Data → Data)

end

/-- A state with the blocks that were allocated and not changed yet. -/
abbrev SessionState := Sys × Set ℕ

/-- `found` is what a lookup of the part returns in the state `s`: the block of the part, the
hash in its slot, which is not pending, and `new` as long as the block was not changed since it
was allocated. -/
structure Lookup.Current (found : Lookup) (ip bidx : ℕ) (a : SessionState) : Prop where
  /-- The lookup was one in the inode at the pointer. -/
  slot : ∃ iid inode, a.1.PointsTo ip iid inode ∧ a.1.HasPart iid bidx ∧
    a.1.slotAt (indexPlace iid bidx).1 (indexPlace iid bidx).2 = ⟨found.bid, found.expHash⟩
  /-- The block is new while it was not changed. -/
  new_iff : found.new = true ↔ found.bid ∈ a.2
  /-- No hash is pending. -/
  pending : found.new = false → (a.1.spot found.bid).pending = none

/-- Lookups are asked for with the pointer to a cached inode and a part of a 32-bit offset,
loads and changes with what a lookup returns in the state, a new block is changed before it is
loaded otherwise, and blocks of inodes are given by their numbers. -/
def SessionCall.Fits (a : SessionState) : SessionCall → Prop
  | .lookup ip bidx _ _ _ _ => (∃ iid inode, a.1.PointsTo ip iid inode) ∧ bidx < 2 ^ 20
  | .load ip bidx found => found.Current ip bidx a ∧ found.new = false
  | .change ip bidx found _ => found.Current ip bidx a
  | .evict _ => True
  | .inodes bid _ => inodeStart ≤ bid ∧ bid < bitmapStart

/-- The programs of the calls. -/
def SessionCall.run (w : World) : SessionCall → Exec Halt Sys (Option Lookup)
  | .lookup ip bidx write hashidx expHash _ => do
    return some (← inodeIndexLookup w ip bidx write hashidx expHash)
  | .load ip _ found => do
    useBlock w ip found none
    return none
  | .change ip _ found f => do
    useBlock w ip found (some f)
    return none
  | .evict bid => do
    evictBlock w bid
    return none
  | .inodes bid f => do
    changeInodeBlock w bid f
    return none

/-- What the call returned. -/
def SessionCall.result : SessionCall → Option Lookup
  | .lookup _ _ _ _ _ found => some found
  | _ => none

/-- The blocks that are not changed yet after the call. -/
def SessionCall.unchanged (raw : Set ℕ) : SessionCall → Set ℕ
  | .lookup _ _ _ _ _ found => {b | b ∈ raw ∨ found.new = true ∧ b = found.bid}
  | .load _ _ _ => raw
  | .change _ _ found _ => raw \ {found.bid}
  | .evict _ => raw
  | .inodes _ _ => raw

/-- A call that was fit returns. -/
def SessionStep (w : World) (a : SessionState) (c : SessionCall) (a' : SessionState) : Prop :=
  c.Fits a ∧ c.run w a.1 = .ok (c.result, a'.1) ∧ a'.2 = c.unchanged a.2

/-! ## Hashes -/

/-- The hash of the block at a place: the pending one, else the one in the slot. -/
def Sys.trueHash (s : Sys) (r : RootSlot) (ks : List ℕ) : Key256 :=
  match s.pdWb.find (s.blockAt r ks) with
  | some node => node.hash
  | none => (s.slotAt r ks).hash

/-- The block is not in the cache. -/
def Sys.Uncached (s : Sys) (bid : ℕ) : Prop := s.bcac.node bid = none

/-- The hash of every block that is not cached is where it is looked for. -/
structure Sys.HashesValid (w : World) (s : Sys) : Prop where
  /-- The hashes of index and data blocks. -/
  data : ∀ r ks, s.Live r ks → s.Uncached (s.blockAt r ks) →
    w.sha256 (s.evicted (s.blockAt r ks)) = s.trueHash r ks
  /-- The hashes of metadata blocks. -/
  metadata : ∀ bid, inodeStart ≤ bid → bid < dataStart → s.Uncached bid →
    w.sha256 (s.evicted bid) = s.sb.hash bid

section

variable {w : World} {E : Halt → Prop} {raw : Set ℕ} {s s' : Sys} {r : RootSlot} {ks : List ℕ}
  {ip iid bid size : ℕ} {c : SessionCall} {cs : List SessionCall}

/-- A good cache without one of its nodes. -/
theorem Cache.Keyed.of_evict {c c' : Cache α} (h : c.Keyed) {n : Node α} (hfifo : c'.fifo.WF)
    (hlru : c'.lru.WF) (hperm : c.nodes.Perm (n :: c'.nodes)) (hnext : c'.nextAddr = c.nextAddr)
    (halive : c'.dangling = c.dangling) :
    c'.Keyed ∧ c'.node = Function.update c.node n.id none := by
  have h' : c'.Keyed := ⟨h.wf.of_perm [n] hfifo hlru hperm hnext (halive.trans h.wf.alive),
    oneNode_of_perm h.one (show c.nodes.Perm ([n] ++ c'.nodes) from hperm)⟩
  exact ⟨h', (h.node_of_perm_cons h' hperm).2⟩

/-- A cache without one of its nodes finds the others. -/
theorem Cache.Keyed.unlink {c : Cache α} (h : c.Keyed) {n : Node α} {id : ℕ}
    (hn : c.node id = some n) :
    (c.unlink id).Keyed ∧ (c.unlink id).node = Function.update c.node id none := by
  obtain rfl := h.id_eq hn
  unfold Cache.unlink
  unfold Cache.node at hn
  cases hsearch : c.lru.search n.id with
  | some m =>
    rw [hsearch] at hn
    obtain rfl := Option.some.inj hn
    obtain ⟨hmem, _⟩ := h.wf.lru.search_eq_some.mp hsearch
    obtain ⟨hwf, _, l₁, l₂, hnodes, hnodes'⟩ := h.wf.lru.evict hmem
    refine h.of_evict h.wf.fifo hwf ?_ rfl rfl
    simp only [Cache.nodes, hnodes, hnodes', List.append_assoc, List.cons_append]
    exact List.perm_middle
  | none =>
    rw [hsearch] at hn
    obtain ⟨hmem, _⟩ := h.wf.fifo.search_eq_some.mp hn
    obtain ⟨hwf, _, l₁, l₂, hnodes, hnodes'⟩ := h.wf.fifo.evict hmem
    refine h.of_evict hwf h.wf.lru ?_ rfl rfl
    simp only [Cache.nodes, hnodes, hnodes', ← List.append_assoc]
    exact List.perm_middle

/-- The rule for an eviction. -/
theorem wp_evictBlock (hw : w.Reliable) (hs : s.BcacOk) {Q : Unit → Sys → Prop}
    (hQ : ∀ s', s'.BcacOk → Settles w ∅ [] s s' → Q () s') :
    Exec.Wp (evictBlock w bid) Q E s := by
  refine Exec.wp_bind.mpr (Exec.wp_read.mpr ?_)
  cases hn : s.bcac.node bid with
  | none => exact hQ s hs (.refl s)
  | some n =>
    refine Exec.wp_when.mpr ⟨fun hidle => ?_, fun _ => hQ s hs (.refl s)⟩
    obtain rfl := hs.keyed.id_eq hn
    obtain ⟨hkeyed, hnode⟩ := hs.keyed.unlink hn
    have habsent : (s.bcac.unlink n.id).node n.id = none := by rw [hnode, Function.update_self]
    have hlive : ({ s.spot n.id with node := some n } : Spot).deleted = false :=
      (hs.holds _ _ hn).deleted_eq
    refine Exec.wp_bind.mpr (wp_freeEvicted_bcac hw (Or.inl (hs.holds _ _ hn)) habsent ?_)
    intro s' hbcac hrest hloads hspot hother
    have hbcac' : s'.bcac = s.bcac.unlink n.id := hbcac
    replace hspot := hspot.trans (Spot.discard_of_not_deleted hlive)
    refine hQ s' (hs.of_node (hbcac' ▸ hkeyed) fun b m hm => ?_) ⟨fun b _ => ?_, hloads, hrest⟩
    · rw [hbcac', hnode] at hm
      by_cases hb : b = n.id
      · rw [hb, Function.update_self] at hm
        cases hm
      · rwa [Function.update_of_ne hb] at hm
    · by_cases hb : b = n.id
      · subst hb
        refine Or.inr ⟨fun m hm => ?_, ?_⟩
        · obtain rfl := Option.some.inj (hn.symm.trans hm)
          exact hidle
        · rw [hspot, ← hn]
          rfl
      · refine Or.inl ((hother b hb).trans ?_)
        simp only [Sys.spot, hnode, Function.update_of_ne hb]

/-- The rule for a change of a block of inodes. -/
theorem wp_changeInodeBlock (hw : w.Reliable) (hs : s.BcacOk)
    (hmeta : s.MetaInv w) (hle : inodeStart ≤ bid) (hlt : bid < bitmapStart) {f : Data → Data}
    {Q : Unit → Sys → Prop}
    (hQ : ∀ s', s'.BcacOk → s'.MetaInv w → Settles w {bid} [] s s' → Q () s')
    (hE : ¬s.Roomy 0 → E .nodeLost ∧ E .nullDeref) :
    Exec.Wp (changeInodeBlock w bid f) Q E s := by
  have hdata : bid < dataStart := lt_trans hlt (by decide)
  refine Exec.wp_bind.mpr (wp_bgetMetadata hw hs hmeta hle hdata ?_ hE)
  intro addr s₁ hs₁ hsettles₁ _ hcached₁
  refine Exec.wp_bind.mpr (wp_dataStore_held hs₁ hcached₁ fun s₂ h₂ hcached₂ => ?_)
  refine Exec.wp_bind.mpr (wp_blockMakeDirty_held h₂.ok hcached₂ fun s₃ h₃ hcached₃ => ?_)
  refine Exec.wp_bind.mpr (wp_blockUnlockReturn_held h₃.ok hcached₃ fun s₄ h₄ hcached₄ => ?_)
  have hsettles : Settles w {bid} [] s s₄ :=
    (hsettles₁.trans (((h₂.trans h₃).trans h₄).settles (w := w))).mono (by simp)
  refine hQ s₄ h₄.ok (hmeta.settles hw hs hsettles ?_) hsettles
  rintro b rfl _ _
  exact ⟨hcached₄.metaOk_of_dirty, hcached₄.diskOk_of_dirty, hcached₄.keysOk, hcached₄.unlocked⟩

/-! ## The invariant -/

/-- The trees are good, and the blocks that were not changed yet are data blocks. -/
structure SessionOk (w : World) (a : SessionState) : Prop where
  /-- The trees are good. -/
  inv : a.1.TreeInv w a.2
  /-- The blocks that were not changed are data blocks. -/
  leaves : a.1.RawLeaves a.2

/-- What a lookup returns in a state is as if a lookup had just come to the slot. -/
theorem Lookup.Current.reached {found : Lookup} {ip bidx : ℕ} {a : SessionState}
    (h : found.Current ip bidx a) (ha : SessionOk w a) : ∃ iid inode, a.1.PointsTo ip iid inode ∧
      a.1.HasPart iid bidx ∧ Reached w (a.2 \ {found.bid}) found.new (indexPlace iid bidx).1
        (indexPlace iid bidx).2 ⟨found.bid, found.expHash⟩ found.new a.1 := by
  obtain ⟨iid, inode, hp, hlive, hslot⟩ := h.slot
  have hne : found.bid ≠ 0 := by
    have hblock := hlive.block_ne
    change a.1.blockAt _ _ ≠ 0 at hblock
    rwa [Sys.blockAt_eq, hslot] at hblock
  have hinv : a.1.TreeInv w {b | b ∈ a.2 \ {found.bid} ∨ found.new = true ∧ b = found.bid} := by
    convert ha.inv using 1
    ext b
    simp only [Set.mem_ofPred_eq, Set.mem_sdiff, Set.mem_singleton_iff]
    constructor
    · rintro (⟨hb, _⟩ | ⟨hnew, rfl⟩)
      · exact hb
      · exact h.new_iff.mp hnew
    · intro hb
      by_cases heq : b = found.bid
      · exact Or.inr ⟨h.new_iff.mpr (heq ▸ hb), heq⟩
      · exact Or.inl ⟨hb, heq⟩
  exact ⟨iid, inode, hp, hlive, hinv, fun b hb => ha.leaves b hb.1, hslot, fun _ => hlive,
    fun _ => hne, fun hnew => hnew, h.pending⟩

/-- The rule for the use of a block that was looked up. -/
theorem wp_useBlock {found : Lookup} {ip bidx : ℕ} {change : Option (Data → Data)}
    {a : SessionState} (hw : w.Reliable) (ha : SessionOk w a) (h : found.Current ip bidx a)
    (hnew : found.new = true → change ≠ none) {Q : Unit → Sys → Prop}
    (hQ : ∀ s', SessionOk w (s', a.2 \ {found.bid}) → Q () s')
    (hE : ¬a.1.Roomy 0 → E .nodeLost ∧ E .nullDeref) :
    Exec.Wp (useBlock w ip found change) Q E a.1 := by
  obtain ⟨iid, inode, hp, hlive, hreached⟩ := h.reached ha
  have hmem : found.bid ∉ a.2 \ {found.bid} := fun hin => hin.2 rfl
  refine Exec.wp_bind.mpr (wp_inodeAt ha.inv.icac hp (Exec.wp_bind.mpr ?_))
  refine hreached.wp_fetch hw hlive hmem hp.inodeOf ?_ hE
  intro addr added s₁ hf _
  have hend : ∀ d s', Touched w ⟨found.bid, found.expHash⟩ found.new inode d added a.1 s' →
      Q () s' := by
    intro d s' ht
    obtain ⟨hinv, hsame, _⟩ := hreached.touched hw hlive isLeaf_indexPlace hmem hp.inodeOf ht
    refine hQ s' ⟨hinv, fun b hb => ?_⟩
    obtain ⟨r, ks, hl, hleaf, heq⟩ := hreached.leaves b hb
    exact ⟨r, ks, (hsame.live r ks).mpr hl, hleaf, (hsame.block hl).trans heq⟩
  cases change with
  | none =>
    have hold : found.new = false := Bool.not_eq_true _ ▸ fun htrue => hnew htrue rfl
    refine Exec.wp_bind.mpr (wp_blockUnlockReturn_held hf.ok hf.cached fun s₂ h₂ hcached₂ => ?_)
    exact hend _ s₂ (hf.touched h₂ hcached₂ (Or.inr ⟨hold, rfl, rfl⟩))
  | some f =>
    refine Exec.wp_bind.mpr (wp_dataStore_held hf.ok hf.cached fun s₂ h₂ hcached₂ => ?_)
    refine Exec.wp_bind.mpr (wp_blockMakeDirty_held h₂.ok hcached₂ fun s₃ h₃ hcached₃ => ?_)
    refine Exec.wp_bind.mpr (wp_blockUnlockReturn_held h₃.ok hcached₃ fun s₄ h₄ hcached₄ => ?_)
    exact hend _ s₄ (hf.touched ((h₂.trans h₃).trans h₄) hcached₄ (Or.inl rfl))

/-- What an eviction or a change of metadata blocks keeps. -/
theorem SessionOk.settles {a : SessionState} {X : Set ℕ} {added : List (ℕ × HashIdx)}
    (h : SessionOk w a) (hw : w.Reliable) (hok : s'.BcacOk) (hsettles : Settles w X added a.1 s')
    (hX : ∀ b ∈ X, b < dataStart ∧ b ≠ 0) (hmeta : s'.MetaInv w)
    (hused : a.1.dataUsed ⊆ s'.dataUsed) : SessionOk w (s', a.2) := by
  obtain ⟨hinv, hsame⟩ := h.inv.settles hw hok hsettles hX hmeta hused
  refine ⟨hinv, fun b hb => ?_⟩
  obtain ⟨r, ks, hl, hleaf, heq⟩ := h.leaves b hb
  exact ⟨r, ks, (hsame.live r ks).mpr hl, hleaf, (hsame.block hl).trans heq⟩

/-- The block that a lookup returned is what a lookup returns in the state that it leaves, unless
it was found and not changed since it was allocated. -/
theorem Arrived.current {ip iid bidx : ℕ} {write : Bool} {old : HashIdx} {found : Lookup}
    (ha : Arrived w raw write ip old s (indexPlace iid bidx).1 (indexPlace iid bidx).2
      ⟨found.bid, found.expHash⟩ found.new found.hashidx s') (hbid : found.bid ≠ 0)
    (hchanged : found.new = true ∨ found.bid ∉ raw) :
    found.Current ip bidx (s', {b | b ∈ raw ∨ found.new = true ∧ b = found.bid}) := by
  obtain ⟨inode, hp⟩ := ha.pointsTo
  refine ⟨⟨iid, inode, hp, ha.reached.live hbid, ha.reached.slot⟩, ?_, ha.reached.pending⟩
  constructor
  · exact fun hnew => Or.inr ⟨hnew, rfl⟩
  · rintro (hmem | ⟨hnew, _⟩)
    · exact hchanged.resolve_right fun hnot => hnot hmem
    · exact hnew

/-- What a lookup leaves. -/
theorem Arrived.sessionOk {ip iid bidx : ℕ} {write : Bool} {old : HashIdx} {found : Lookup}
    (ha : Arrived w raw write ip old s (indexPlace iid bidx).1 (indexPlace iid bidx).2
      ⟨found.bid, found.expHash⟩ found.new found.hashidx s') :
    SessionOk w (s', {b | b ∈ raw ∨ found.new = true ∧ b = found.bid}) := by
  refine ⟨ha.reached.inv, ?_⟩
  by_cases hbid : found.bid = 0
  · have hnew : found.new = false := by
      by_contra hne
      have hwrite := ha.reached.asked (Bool.not_eq_false _ ▸ hne)
      exact ha.reached.written hwrite hbid
    rintro b (hb | ⟨htrue, _⟩)
    · exact ha.reached.leaves b hb
    · exact absurd (htrue.symm.trans hnew) (by decide)
  · exact ha.rawLeaves isLeaf_indexPlace (ha.reached.live hbid)

/-- There is room for a call of a session: for two blocks more in the block cache, and for a
lookup that writes a number for every place on the way that has no block. -/
def SessionCall.Room (s : Sys) (c : SessionCall) : Prop :=
  s.Roomy 1 ∧ ∀ ip bidx hashidx expHash found, c = .lookup ip bidx true hashidx expHash found →
    ∀ iid inode, s.PointsTo ip iid inode → s.Supplied (wayTo (indexPlace iid bidx))

/-- A call of a session keeps the trees good, and fails no check. -/
theorem wp_sessionCall {a : SessionState} (hw : w.Reliable) (ha : SessionOk w a) (hfits : c.Fits a)
    (hEs : E (.panic .superblockRead)) (hE : ¬c.Room a.1 → ∀ e : Halt, e.NoRoom → E e) :
    Exec.Wp (c.run w) (fun r s' => r = c.result → SessionOk w (s', c.unchanged a.2)) E a.1 := by
  have hE' : ¬a.1.Roomy 0 → E .nodeLost ∧ E .nullDeref := by
    intro hcrowded
    have hstops := hE fun hroom => hcrowded (hroom.1.mono (Nat.zero_le _))
    exact ⟨hstops _ (by simp [Halt.NoRoom]), hstops _ (by simp [Halt.NoRoom])⟩
  cases c with
  | lookup ip bidx write hashidx expHash found =>
    obtain ⟨⟨iid, inode, hp⟩, hbidx⟩ := hfits
    refine Exec.wp_bind.mpr (wp_inodeIndexLookup hw ha.inv ha.leaves hp hbidx ?_ (fun _ _ => hEs)
      fun hcrowded => hE fun hroom => hcrowded ⟨hroom.1, ?_⟩)
    · intro found' s' harrived hsame
      obtain rfl := Option.some.inj hsame
      exact harrived.sessionOk
    · rintro rfl
      exact hroom.2 ip bidx hashidx expHash found rfl iid inode hp
  | load ip bidx found =>
    obtain ⟨hcurrent, hold⟩ := hfits
    have hmem : found.bid ∉ a.2 := fun hmem =>
      absurd (hcurrent.new_iff.mpr hmem) (by simp [hold])
    refine Exec.wp_bind.mpr (wp_useBlock hw ha hcurrent (by simp [hold]) (fun s' h _ => ?_) hE')
    rwa [Set.sdiff_singleton_eq_self hmem] at h
  | change ip bidx found f =>
    exact Exec.wp_bind.mpr (wp_useBlock hw ha hfits (by simp) (fun s' h _ => h) hE')
  | evict bid =>
    refine Exec.wp_bind.mpr (wp_evictBlock hw ha.inv.ok fun s' hok hsettles _ => ?_)
    have hX : ∀ b ∈ (∅ : Set ℕ), dataStart ≤ b := fun b hb => absurd hb (Set.notMem_empty b)
    exact ha.settles hw hok hsettles (fun b hb => absurd hb (Set.notMem_empty b))
      (hsettles.metaInv hw ha.inv.ok ha.inv.metaInv hX)
      (hsettles.dataUsed_eq ha.inv.ok ha.inv.metaInv hX).ge
  | inodes bid f =>
    obtain ⟨hle, hlt⟩ := hfits
    refine Exec.wp_bind.mpr (wp_changeInodeBlock hw ha.inv.ok ha.inv.metaInv hle hlt
      (fun s' hok hmeta hsettles _ => ?_) hE')
    refine ha.settles hw hok hsettles ?_ hmeta (Eq.ge (dataUsed_congr fun b hb => ?_))
    · rintro b rfl
      refine ⟨lt_trans hlt (by decide), ?_⟩
      rintro rfl
      exact absurd hle (by decide)
    · have hne : b ∉ ({bid} : Set ℕ) := by
        rintro rfl
        exact Nat.not_lt.mpr hb.1 hlt
      have hle' : inodeStart ≤ b := le_trans (by decide : inodeStart ≤ bitmapStart) hb.1
      exact hsettles.data_eq ha.inv.ok hne (ha.inv.metaInv b hle' hb.2).metaOk.dirty_or

/-- A call that is fit and returns is a step. -/
theorem SessionStep.of_run {a : SessionState} (hfits : c.Fits a)
    (hcall : c.run w a.1 = .ok (c.result, s')) : SessionStep w a c (s', c.unchanged a.2) :=
  ⟨hfits, hcall, rfl⟩

/-- A step of a session leaves the state good. -/
theorem SessionStep.ok {a a' : SessionState} (hw : w.Reliable) (ha : SessionOk w a)
    (hstep : SessionStep w a c a') : SessionOk w a' := by
  obtain ⟨hfits, hcall, hraw⟩ := hstep
  have hwp : Exec.Wp (c.run w) (fun r s' => r = c.result → SessionOk w (s', c.unchanged a.2))
      (fun _ => True) a.1 := wp_sessionCall hw ha hfits trivial fun _ _ _ => trivial
  have hok := hwp.of_ok hcall rfl
  rw [← hraw] at hok
  exact hok

/-- A block that is not cached is clean. -/
theorem Spot.dirty_of_node_eq_none {l : Spot} (h : l.node = none) : l.dirty = false := by
  simp [Spot.dirty, h]

/-- The hashes of good trees are where they are looked for. -/
theorem Sys.TreeInv.hashesValid (h : s.TreeInv w raw) : s.HashesValid w := by
  refine ⟨fun r ks hlive huncached => ?_, fun bid hle hlt huncached => ?_⟩
  · obtain ⟨inode, hinode⟩ := hlive.inode
    have hclean : (s.spot (s.blockAt r ks)).dirty = false := Spot.dirty_of_node_eq_none huncached
    have hok := (h.good r ks inode hlive hinode).hashOk.resolve_left (by simp [hclean])
    refine hok.2.trans ?_
    unfold Sys.trueHash
    change ((s.pdWb.find _).map _).getD _ = _
    cases s.pdWb.find (s.blockAt r ks) with
    | none => rfl
    | some node => rfl
  · have hclean : (s.spot bid).dirty = false := Spot.dirty_of_node_eq_none huncached
    exact ((h.metaInv bid hle hlt).metaOk.resolve_left (by simp [hclean])).2

/-! ## Loads from another disk -/

/-- A check that does not fail was of data with the hash. -/
theorem wp_sha256Validate_any {d : Data} {hash : Key256} {Q : Bool → Sys → Prop}
    (hQ : ∀ failed s', (failed = false → w.sha256 d = hash) → Q failed s') :
    Exec.Wp (sha256Validate w d hash) Q E s := by
  refine Exec.wp_bind.mpr (Exec.wp_bind.mpr ?_)
  simp only [external, Exec.wp_bind, Exec.wp_read, Exec.wp_update, Exec.wp_pure]
  cases w.fails s.calls with
  | true => exact hQ true _ (by simp)
  | false => exact hQ _ _ (by simp)

/-- A load gives only data with the expected hash, whatever the disk holds. -/
theorem getBlockFromDisk_hash {type : BlockType} {hashidx : HashIdx} {iv key : Key128}
    {hash : Key256} {block : Block}
    (hload : getBlockFromDisk w bid type hashidx iv key (some hash) s = .ok (some block, s')) :
    w.sha256 block.data = hash := by
  have hread : Exec.Wp (diskRead w bid) (fun _ _ => True) (fun _ => True) s := by
    simp [diskRead, external]
  have hdecrypt : ∀ data s, Exec.Wp (aes128BlockDecrypt w iv key data) (fun _ _ => True)
      (fun _ => True) s := by
    simp [aes128BlockDecrypt, external]
  have hwp : Exec.Wp (getBlockFromDisk w bid type hashidx iv key (some hash))
      (fun res _ => ∀ block ∈ res, w.sha256 block.data = hash) (fun _ => True) s := by
    refine hread.bind fun cipher s₁ _ => ?_
    cases cipher with
    | none => simp
    | some cipher =>
      refine (hdecrypt cipher s₁).bind fun data s₂ _ => ?_
      cases data with
      | none => simp
      | some data =>
        refine Exec.wp_bind.mpr (wp_sha256Validate_any fun failed s₃ hvalid => ?_)
        cases failed with
        | true => simp
        | false => simpa using hvalid rfl
  exact hwp.of_ok hload block rfl

/-- Two data with one hash. -/
def Collision (w : World) (d d' : Data) : Prop := d ≠ d' ∧ w.sha256 d = w.sha256 d'

/-- What a load gives of a block of which the hash is valid. -/
theorem getBlockFromDisk_evicted {type : BlockType} {hashidx : HashIdx} {iv key : Key128} {d : Data}
    {block : Block}
    (hload : getBlockFromDisk w bid type hashidx iv key (some (w.sha256 d)) s =
      .ok (some block, s')) :
    block.data = d ∨ Collision w block.data d := by
  by_cases heq : block.data = d
  · exact Or.inl heq
  · exact Or.inr ⟨heq, getBlockFromDisk_hash hload⟩

/-- In every run of a session the hashes of the blocks that are not cached are where they are
looked for. No call fails a check, and with room a call stops only at the lookup of a part that
has no index block. What a lookup returns can be loaded or changed next, unless the block was
allocated before and not changed since. A load from another disk gives what was last written
back, but for a collision of the hash. -/
theorem hash_tree_valid {a : SessionState} (hw : w.Reliable) (hinv : s.TreeInv w ∅)
    (hrun : Run (SessionStep w) (s, ∅) cs a) :
    a.1.HashesValid w ∧
      (∀ c : SessionCall, c.Fits a → c.run w a.1 ≠ .error (.panic .hashValidationFailed) ∧
        (c.Room a.1 → ∀ e, c.run w a.1 = .error e → e = .panic .superblockRead)) ∧
      (∀ ip bidx write hashidx expHash found t,
        SessionStep w a (.lookup ip bidx write hashidx expHash found) t → found.bid ≠ 0 →
          found.new = true ∨ found.bid ∉ a.2 → found.Current ip bidx t) ∧
      ∀ disk type hashidx iv key block t,
        (∀ r ks, a.1.Live r ks → a.1.Uncached (a.1.blockAt r ks) →
          getBlockFromDisk w (a.1.blockAt r ks) type hashidx iv key (some (a.1.trueHash r ks))
            { a.1 with disk } = .ok (some block, t) →
          block.data = a.1.evicted (a.1.blockAt r ks) ∨
            Collision w block.data (a.1.evicted (a.1.blockAt r ks))) ∧
        ∀ bid, inodeStart ≤ bid → bid < dataStart → a.1.Uncached bid →
          getBlockFromDisk w bid type hashidx iv key (some (a.1.sb.hash bid)) { a.1 with disk } =
            .ok (some block, t) →
          block.data = a.1.evicted bid ∨ Collision w block.data (a.1.evicted bid) := by
  have hstart : SessionOk w (s, ∅) := ⟨hinv, fun b hb => absurd hb (Set.notMem_empty b)⟩
  have ha : SessionOk w a :=
    hrun.invariant (I := SessionOk w) (fun _ _ _ h hstep => hstep.ok hw h) hstart
  have hvalid := ha.inv.hashesValid
  refine ⟨hvalid, fun c hfits => ⟨fun herr => ?_, fun hroom e herr => ?_⟩, ?_,
    fun disk type hashidx iv key block t => ⟨?_, ?_⟩⟩
  · have hwp := wp_sessionCall (E := fun e => e ≠ .panic .hashValidationFailed) hw ha hfits
      (by simp) fun _ e he => by rcases he with rfl | rfl | rfl <;> simp
    exact hwp.of_error herr rfl
  · have hwp := wp_sessionCall (E := fun e => e = .panic .superblockRead) hw ha hfits rfl
      fun hcrowded => absurd hroom hcrowded
    exact hwp.of_error herr
  · intro ip bidx write hashidx expHash found t hstep hbid hchanged
    obtain ⟨⟨⟨iid, inode, hp⟩, hbidx⟩, hcall, hraw⟩ := hstep
    have hwp : Exec.Wp ((SessionCall.lookup ip bidx write hashidx expHash found).run w)
        (fun r s' => r = some found →
          found.Current ip bidx (s', {b | b ∈ a.2 ∨ found.new = true ∧ b = found.bid}))
        (fun _ => True) a.1 := by
      refine Exec.wp_bind.mpr (wp_inodeIndexLookup hw ha.inv ha.leaves hp hbidx ?_
        (fun _ _ => trivial) fun _ _ _ => trivial)
      intro found' s' harrived hsame
      obtain rfl := Option.some.inj hsame
      exact harrived.current hbid hchanged
    have hcurrent := hwp.of_ok hcall rfl
    have ht : t = (t.1, {b | b ∈ a.2 ∨ found.new = true ∧ b = found.bid}) := Prod.ext rfl hraw
    rw [ht]
    exact hcurrent
  · intro r ks hlive huncached hload
    rw [← hvalid.data r ks hlive huncached] at hload
    exact getBlockFromDisk_evicted hload
  · intro bid hle hlt huncached hload
    rw [← hvalid.metadata bid hle hlt huncached] at hload
    exact getBlockFromDisk_evicted hload

/-- A part of an empty file is written, its block is evicted, and it is read again. -/
theorem hash_tree_valid_emptyFile : ∃ found₁ found₂ a,
    Run (SessionStep World.plain) (emptyFile, ∅)
      [.lookup 0 0 true HashIdx.zero Bytes.zero found₁,
        .change 0 0 found₁ (fun _ => ⟨fun _ => 1⟩), .evict dataStart,
        .lookup 0 0 false HashIdx.zero Bytes.zero found₂, .load 0 0 found₂, .evict dataStart] a ∧
    a.1.Uncached dataStart ∧ a.1.HashesValid World.plain := by
  obtain ⟨⟨found₁, s₁⟩, h₁, hcheck⟩ := exists_of_check
    (x := inodeIndexLookup World.plain 0 0 true HashIdx.zero Bytes.zero emptyFile)
    (p := fun r₁ => (r₁.1.new = true ∧ r₁.1.bid ≠ 0) ∧
      (useBlock World.plain 0 r₁.1 (some fun _ => ⟨fun _ => 1⟩) r₁.2).toOption.any fun r₂ =>
      (evictBlock World.plain dataStart r₂.2).toOption.any fun r₃ =>
      (r₃.2.icac.node 1).any (fun n => n.addr = 0 ∧ n.content.isSome) ∧
      (inodeIndexLookup World.plain 0 0 false HashIdx.zero Bytes.zero r₃.2).toOption.any fun r₄ =>
      (r₄.1.new = false ∧ r₄.1.bid ≠ 0) ∧
      (useBlock World.plain 0 r₄.1 none r₄.2).toOption.any fun r₅ =>
      (evictBlock World.plain dataStart r₅.2).toOption.any fun r₆ =>
      (r₆.2.bcac.node dataStart).isNone) (by decide +kernel)
  obtain ⟨⟨hnew₁, hbid₁⟩, hcheck⟩ := of_decide_eq_true hcheck
  obtain ⟨⟨_, s₂⟩, h₂, hcheck⟩ := exists_of_check hcheck
  obtain ⟨⟨_, s₃⟩, h₃, hcheck⟩ := exists_of_check hcheck
  obtain ⟨hnode₃, hcheck⟩ := of_decide_eq_true hcheck
  obtain ⟨⟨found₂, s₄⟩, h₄, hcheck⟩ := exists_of_check hcheck
  obtain ⟨⟨hnew₂, hbid₂⟩, hcheck⟩ := of_decide_eq_true hcheck
  obtain ⟨⟨_, s₅⟩, h₅, hcheck⟩ := exists_of_check hcheck
  obtain ⟨⟨_, s₆⟩, h₆, hgone⟩ := exists_of_check hcheck
  obtain ⟨inode, hp⟩ := emptyFile_pointsTo
  have hw := World.plain_reliable
  have hinv := emptyFile_treeInv
  have hstep₁ := SessionStep.of_run (a := (emptyFile, ∅))
    (c := .lookup 0 0 true HashIdx.zero Bytes.zero found₁) ⟨⟨1, inode, hp⟩, by decide⟩
    (Exec.bind_eq_ok.mpr ⟨_, _, h₁, rfl⟩)
  have hcurrent₁ := (hash_tree_valid hw hinv (.nil _)).2.2.1 _ _ _ _ _ _ _ hstep₁ hbid₁
    (Or.inl hnew₁)
  have hstep₂ := SessionStep.of_run (c := .change 0 0 found₁ fun _ => ⟨fun _ => 1⟩) hcurrent₁
    (Exec.bind_eq_ok.mpr ⟨_, _, h₂, rfl⟩)
  have hstep₃ := SessionStep.of_run (a := (s₂, {b | b ∈ (∅ : Set ℕ) ∨ found₁.new = true ∧
    b = found₁.bid} \ {found₁.bid})) (c := .evict dataStart) trivial
    (Exec.bind_eq_ok.mpr ⟨_, _, h₃, rfl⟩)
  have hp₃ : ∃ iid inode, s₃.PointsTo 0 iid inode := by
    cases hn : s₃.icac.node 1 with
    | none => simp [hn] at hnode₃
    | some n =>
      rw [hn, Option.any_some, decide_eq_true_eq] at hnode₃
      obtain ⟨inode, hcontent⟩ := Option.isSome_iff_exists.mp hnode₃.2
      exact ⟨1, inode, n, hn, hnode₃.1, hcontent⟩
  have hrun₃ := Run.cons hstep₁ (.cons hstep₂ (.cons hstep₃ (.nil _)))
  -- it is looked up again, and was changed
  have hstep₄ := SessionStep.of_run (a := (s₃, {b | b ∈ (∅ : Set ℕ) ∨ found₁.new = true ∧
    b = found₁.bid} \ {found₁.bid})) (c := .lookup 0 0 false HashIdx.zero Bytes.zero found₂)
    ⟨hp₃, by decide⟩ (Exec.bind_eq_ok.mpr ⟨_, _, h₄, rfl⟩)
  have hcurrent₂ := (hash_tree_valid hw hinv hrun₃).2.2.1 _ _ _ _ _ _ _ hstep₄ hbid₂
    (Or.inr fun hmem => by
      obtain ⟨hmem | ⟨_, hmem⟩, hne⟩ := hmem
      · exact hmem
      · exact hne hmem)
  have hstep₅ := SessionStep.of_run (c := .load 0 0 found₂) ⟨hcurrent₂, hnew₂⟩
    (Exec.bind_eq_ok.mpr ⟨_, _, h₅, rfl⟩)
  have hstep₆ := SessionStep.of_run (a := (s₅, {b | b ∈ ({b | b ∈ (∅ : Set ℕ) ∨
    found₁.new = true ∧ b = found₁.bid} \ {found₁.bid}) ∨ found₂.new = true ∧ b = found₂.bid}))
    (c := .evict dataStart) trivial (Exec.bind_eq_ok.mpr ⟨_, _, h₆, rfl⟩)
  have hrun := hrun₃.append (.cons hstep₄ (.cons hstep₅ (.cons hstep₆ (.nil _))))
  exact ⟨found₁, found₂, _, hrun, Option.isNone_iff_eq_none.mp hgone,
    (hash_tree_valid hw hinv hrun).1⟩

/-- An empty file on a disk that was used before. -/
def usedDisk : Sys :=
  { emptyFile with disk := fun bid => if bid < dataStart then Bytes.zero else ⟨fun _ => 1⟩ }

/-- The block that a write lookup allocated is looked up again before it was changed: its load
fails the check, though the disk has what was written to it. -/
theorem unchanged_block_fails : ∃ found₁ s₁ found₂ s₂,
    inodeIndexLookup World.plain 0 0 true HashIdx.zero Bytes.zero usedDisk = .ok (found₁, s₁) ∧
    inodeIndexLookup World.plain 0 0 false HashIdx.zero Bytes.zero s₁ = .ok (found₂, s₂) ∧
    useBlock World.plain 0 found₂ none s₂ = .error (.panic .hashValidationFailed) :=
  ⟨_, _, _, _, rfl, rfl, rfl⟩

end

end Efs
