import Efs.BitmapSearch
import Efs.ReleaseWalk

/-!
# The blocks that the release of an inode frees

After any lookups, the release of the inode frees the blocks that lookups can reach,
once each, and no others. It comes to its end when the inode bitmap is not locked: an
allocation that finds no number leaves it locked.
-/

namespace Efs

open Library

/-! ## The places of a tree -/

section

variable {s : Sys} {r : RootSlot} {ks ks' : List ℕ} {slot : Fin 13} {iid i b : ℕ}

/-- Every place of a data block is that of a part of the file. -/
theorem exists_indexPath_eq (hlen : ks.length = slot.val - 9) (hlt : ∀ k ∈ ks, k < 113) :
    ∃ i, indexPath i = (slot, ks) := by
  have hslot := slot.isLt
  match ks, hlen, hlt with
  | [], hlen, _ =>
    rw [List.length_nil] at hlen
    refine ⟨slot.val, ?_⟩
    rcases indexPath_cases slot.val with ⟨_, heq⟩ | ⟨j, _, _, _⟩ | ⟨j, _, _, _⟩ | ⟨j, _, _⟩
    · rw [heq]
      exact Prod.ext (Fin.ext (rootSlot_val hslot)) rfl
    all_goals omega
  | [j], hlen, hlt =>
    rw [List.length_singleton] at hlen
    have hj := hlt j (by simp)
    obtain rfl : slot = rootSlot 10 := Fin.ext (by rw [rootSlot_val (by decide)]; omega)
    refine ⟨j + 10, ?_⟩
    rcases indexPath_cases (j + 10) with ⟨_, _⟩ | ⟨m, _, _, heq⟩ | ⟨m, _, _, _⟩ | ⟨m, _, _⟩
    · omega
    · obtain rfl : m = j := by omega
      exact heq
    all_goals omega
  | [j, k], hlen, hlt =>
    rw [List.length_cons, List.length_singleton] at hlen
    have hj := hlt j (by simp)
    have hk := hlt k (by simp)
    obtain rfl : slot = rootSlot 11 := Fin.ext (by rw [rootSlot_val (by decide)]; omega)
    refine ⟨k * 113 + j + 123, ?_⟩
    rcases indexPath_cases (k * 113 + j + 123) with ⟨_, _⟩ | ⟨m, _, _, _⟩ | ⟨m, _, _, heq⟩ |
      ⟨m, _, _⟩
    · omega
    · omega
    · obtain rfl : m = k * 113 + j := by omega
      have hmod : (k * 113 + j) % 113 = j := by omega
      have hdiv : (k * 113 + j) / 113 = k := by omega
      rw [heq, hmod, hdiv]
    · omega
  | [j, k, l], hlen, hlt =>
    simp only [List.length_cons, List.length_nil] at hlen
    have hj := hlt j (by simp)
    have hk := hlt k (by simp)
    obtain rfl : slot = rootSlot 12 := Fin.ext (by rw [rootSlot_val (by decide)]; omega)
    refine ⟨(l * 113 + k) * 113 + j + 12892, ?_⟩
    rcases indexPath_cases ((l * 113 + k) * 113 + j + 12892) with
      ⟨_, _⟩ | ⟨m, _, _, _⟩ | ⟨m, _, _, _⟩ | ⟨m, _, heq⟩
    · omega
    · omega
    · omega
    · obtain rfl : m = (l * 113 + k) * 113 + j := by omega
      have hmod : ((l * 113 + k) * 113 + j) % 113 = j := by omega
      have hdiv : ((l * 113 + k) * 113 + j) / 113 = l * 113 + k := by omega
      have hmod' : (l * 113 + k) % 113 = k := by omega
      have hdiv' : (l * 113 + k) / 113 = l := by omega
      rw [heq, hmod, hdiv, hmod', hdiv']
  | _ :: _ :: _ :: _ :: _, hlen, _ =>
    simp only [List.length_cons] at hlen
    omega

/-- The slots of a place are inside their blocks. -/
theorem Sys.Live.slot_lt (h : s.Live r ks) : ∀ k ∈ ks, k < 113 := by
  induction ks with
  | nil => exact fun k hk => by cases hk
  | cons j ks ih =>
    intro k hk
    rcases List.mem_cons.mp hk with rfl | hk
    · exact h.2.2.1
    · exact ih h.1 k hk

/-- Every place is on the way to a part of the file. -/
theorem Sys.Live.exists_part (h : s.Live (iid, slot) ks) :
    ∃ i, (indexPlace iid i).1 = (iid, slot) ∧ ks <:+ (indexPlace iid i).2 := by
  have hle : ks.length ≤ slot.val - 9 := h.length_le
  have hlength : (List.replicate (slot.val - 9 - ks.length) 0 ++ ks).length = slot.val - 9 := by
    rw [List.length_append, List.length_replicate]
    omega
  have hlt : ∀ k ∈ List.replicate (slot.val - 9 - ks.length) 0 ++ ks, k < 113 := by
    intro k hk
    rcases List.mem_append.mp hk with hk | hk
    · rw [List.eq_of_mem_replicate hk]
      decide
    · exact h.slot_lt k hk
  obtain ⟨i, hi⟩ := exists_indexPath_eq hlength hlt
  refine ⟨i, by rw [indexPlace, hi], ?_⟩
  rw [indexPlace, hi]
  exact List.suffix_append _ _

/-- A place of a data block is that of a part of the file. -/
theorem Sys.Live.exists_leaf (h : s.Live (iid, slot) ks) (hleaf : IsLeaf (iid, slot) ks) :
    ∃ i, indexPlace iid i = ((iid, slot), ks) := by
  obtain ⟨i, hi⟩ := exists_indexPath_eq (show ks.length = slot.val - 9 from hleaf) h.slot_lt
  exact ⟨i, by rw [indexPlace, hi]⟩

/-! ## What is to be freed -/

/-- A lookup of the part `i` of the file comes through the index block `b`. -/
def Sys.OnTheWay (s : Sys) (iid i b : ℕ) : Prop :=
  ∃ k ks, k :: ks <:+ (indexPlace iid i).2 ∧ s.Live (indexPlace iid i).1 ks ∧
    s.blockAt (indexPlace iid i).1 ks = b

/-- The calls of `block_free` free the tree of an inode. -/
structure Releases (s : Sys) (iid : ℕ) (log : FreeLog) : Prop where
  /-- No block is freed twice. -/
  once : (log.map Prod.fst).Nodup
  /-- The blocks of the parts are freed. -/
  data : ∀ b, (b, false) ∈ log ↔ ∃ i, s.HasPart iid i ∧ s.partBlock iid i = b
  /-- The index blocks on the way to a part are freed and set to zero. -/
  index : ∀ b, (b, true) ∈ log ↔ ∃ i, s.OnTheWay iid i b
  /-- A block is freed after the blocks below it. -/
  after : ∀ r ks ks', r.1 = iid → s.Live r ks' → ks <:+ ks' → ks' ≠ ks →
    [s.freeCall r ks', s.freeCall r ks].Sublist log

/-- The root slots of an inode are those with its number. -/
theorem mem_rootsOf : r ∈ rootsOf iid ↔ r.1 = iid := by
  rw [rootsOf, slotsOf, List.mem_map]
  constructor
  · rintro ⟨i, _, rfl⟩
    rfl
  · rintro rfl
    refine ⟨r.2.val, List.mem_range.mpr r.2.isLt, Prod.ext rfl (Fin.ext (rootSlot_val r.2.isLt))⟩

/-- The root slots of an inode are listed once. -/
theorem nodup_rootsOf : (rootsOf iid).Nodup := by
  apply List.Nodup.map_on _ List.nodup_range
  intro i hi j hj heq
  have hval := congrArg (fun p : RootSlot => p.2.val) heq
  simpa only [rootSlot_val (List.mem_range.mp hi), rootSlot_val (List.mem_range.mp hj)] using hval

variable {w : World} {raw : Set ℕ} {inode : Inode}

/-- The calls on all blocks of a tree, from below, free the tree. -/
theorem releases_freeCalls (hinv : s.TreeInv w raw) (hinode : s.inodeOf iid = some inode) :
    Releases s iid (s.freeCalls (rootsOf iid)) := by
  have hisRoot : ∀ r ∈ rootsOf iid, s.forest.isRoot r := by
    intro r hr
    obtain rfl := mem_rootsOf.mp hr
    simp [Sys.forest, hinode]
  have hwalk : ∀ {r ks}, (r, ks) ∈ s.forest.walk treeShape (rootsOf iid) ↔ r.1 = iid ∧
    s.Live r ks :=
    (Forest.mem_walk hisRoot).trans (and_congr_left' mem_rootsOf)
  have hmem : ∀ b z, (b, z) ∈ s.freeCalls (rootsOf iid) ↔ ∃ slot ks, s.Live (iid, slot) ks ∧
      s.blockAt (iid, slot) ks = b ∧ decide (ks.length < treeShape.height (iid, slot)) = z := by
    intro b z
    simp only [Sys.freeCalls, List.mem_map, Sys.freeCall, Prod.mk.injEq]
    constructor
    · rintro ⟨⟨⟨_, slot⟩, ks⟩, hp, hb, hz⟩
      obtain ⟨rfl, hlive⟩ := hwalk.mp hp
      exact ⟨slot, ks, hlive, hb, hz⟩
    · rintro ⟨slot, ks, hlive, hb, hz⟩
      exact ⟨((iid, slot), ks), hwalk.mpr ⟨rfl, hlive⟩, hb, hz⟩
  refine ⟨?_, fun b => ?_, fun b => ?_, ?_⟩
  · rw [Sys.freeCalls, List.map_map]
    apply List.Nodup.map_on _ (Forest.nodup_walk nodup_rootsOf)
    rintro ⟨r, ks⟩ hp ⟨r', ks'⟩ hp' heq
    exact hinv.disjoint r ks r' ks' (hwalk.mp hp).2 (hwalk.mp hp').2 heq
  · rw [hmem]
    constructor
    · rintro ⟨slot, ks, hlive, rfl, hz⟩
      have hle := hlive.length_le
      have hleaf : IsLeaf (iid, slot) ks := le_antisymm hle (Nat.not_lt.mp (of_decide_eq_false hz))
      obtain ⟨i, hi⟩ := hlive.exists_leaf hleaf
      exact ⟨i, by rwa [Sys.HasPart, hi], by rw [Sys.partBlock, hi]⟩
    · rintro ⟨i, hpart, rfl⟩
      have hleaf : IsLeaf (indexPlace iid i).1 (indexPlace iid i).2 := isLeaf_indexPlace
      exact ⟨_, _, hpart, rfl, decide_eq_false (Nat.not_lt.mpr hleaf.ge)⟩
  · rw [hmem]
    constructor
    · rintro ⟨slot, ks, hlive, rfl, hz⟩
      obtain ⟨i, hr, hks⟩ := hlive.exists_part
      have hleaf : IsLeaf (indexPlace iid i).1 (indexPlace iid i).2 := isLeaf_indexPlace
      rcases Forest.suffix_cases hks with heq | ⟨k, hk⟩
      · have hlt := of_decide_eq_true hz
        rw [← heq, ← hr] at hlt
        exact absurd hleaf hlt.ne
      · exact ⟨i, k, ks, hk, by rwa [hr], by rw [hr]⟩
    · rintro ⟨i, k, ks, hk, hlive, rfl⟩
      have hleaf : IsLeaf (indexPlace iid i).1 (indexPlace iid i).2 := isLeaf_indexPlace
      have hlen := hk.length_le
      rw [List.length_cons, hleaf] at hlen
      exact ⟨_, ks, hlive, rfl, decide_eq_true hlen⟩
  · rintro r ks ks' rfl hlive hks hne
    exact (Forest.sublist_walk hisRoot (mem_rootsOf.mpr rfl) hlive hks hne).map fun p =>
      s.freeCall p.1 p.2

end

/-! ## The end of the release -/

/-- `icache_cb_write` of a deleted inode, with its calls of `block_free` in the log. -/
def loggedCbWrite (w : World) (ip : Inode) (iid : ℕ) : Exec Halt (Sys × FreeLog) Bool := do
  loggedFreeInode w ip iid
  let _ ← Exec.ghost (breturnToCache w (inodeIid2Bid iid))
  return false

/-- The block of a cached inode is held, and the inode has the pointer to it. -/
def Sys.Pins (s : Sys) (ip : Inode) (iid : ℕ) : Prop :=
  ∃ n, (s.spot (inodeIid2Bid iid)).node = some n ∧ n.addr = ip.dip ∧ n.refcnt ≠ 0

section

variable {w : World} {E : Halt → Prop} {raw : Set ℕ} {s s' : Sys} {ip iid : ℕ} {inode : Inode}

/-- The log decides nothing. -/
theorem erases_loggedCbWrite (inode : Inode) (iid : ℕ) (dirty : Bool) :
    Exec.Erases (loggedCbWrite w inode iid) (icacheCbWrite w (some inode) iid dirty true) :=
  (erases_loggedFreeInode inode iid).bind fun _ =>
    (Exec.Erases.ghost _).bind fun _ => Exec.Erases.pure false

/-- The block of an inode lies before the data bitmap. -/
theorem inodeIid2Bid_lt_bitmapStart (h : iid < 32768) : inodeIid2Bid iid < bitmapStart := by
  simp only [inodeIid2Bid, inodeStart, inodePerBlock, bitmapStart]
  omega

/-- The rule for the end of the release, with the return of the inode's block. -/
theorem wp_clearInode (hs : s.BcacSafe) (hpos : iid ≠ 0) (hlt : iid < 32768)
    (hlive : ∀ n, (s.spot (inodeIid2Bid iid)).node = some n → n.Holds (inodeIid2Bid iid))
    (hunlocked : (s.spot (inodeIid2Bid iid)).Unlocked) (hpins : s.Pins inode iid)
    {Q : Bool → Sys → Prop} (hQ : s.ibm.ibmLock = false → ∀ s', Q false s')
    (hE : s.ibm.ibmLock = true → E .deadlock) :
    Exec.Wp (do
      clearInode w inode iid
      let _ ← breturnToCache w (inodeIid2Bid iid)
      return false) Q E s := by
  obtain ⟨n, hn, haddr, href⟩ := hpins
  obtain ⟨block, hcontent, _⟩ := (hlive n hn).content
  obtain ⟨m, hm⟩ := Nat.exists_eq_succ_of_ne_zero href
  have hcached : (s.spot (inodeIid2Bid iid)).Cached (s.spot (inodeIid2Bid iid)) inode.dip (m + 1)
      false n.dirty block.aesIv block.aesKey block.data :=
    ⟨⟨n, block, hn, haddr, hm, hunlocked n hn, rfl, hcontent, rfl, rfl, rfl⟩, rfl⟩
  simp only [clearInode, dipStore, Exec.wp_bind]
  refine wp_blockLock_quiet hs hlive hcached fun s₁ h₁ hcached₁ => ?_
  refine wp_blockAt_quiet h₁.safe h₁.holds hcached₁ fun _ _ _ => ?_
  refine wp_dataStore_quiet h₁.safe h₁.holds hcached₁ fun s₂ h₂ hcached₂ => ?_
  refine wp_blockMakeDirty_quiet h₂.safe h₂.holds hcached₂ fun s₃ h₃ hcached₃ => ?_
  refine wp_blockUnlock_quiet h₃.safe h₃.holds hcached₃ fun s₄ h₄ hcached₄ => ?_
  have hrest : s₄.rest = s.rest := h₄.rest.trans (h₃.rest.trans (h₂.rest.trans h₁.rest))
  have hibm : s₄.ibm = s.ibm := congrArg (·.2.1) hrest
  have hiid : iid % 2 ^ 16 = iid := Nat.mod_eq_of_lt (by omega)
  cases hlock : s₄.ibm.ibmLock with
  | true =>
    refine Exec.wp_zoom.mpr ?_
    simp only [ibmFree, lockIbm, hiid, hpos, Exec.wp_bind, Exec.wp_when, Exec.wp_read, Exec.wp_stop,
      hlock, IsEmpty.forall_iff, not_false_eq_true, forall_const, true_and, not_true_eq_false,
      and_true]
    exact hE (hibm ▸ hlock)
  | false =>
    refine Exec.wp_zoom.mpr (wp_ibmFree (fun b _ _ _ => ?_) (fun hzero => ?_) fun hheld => ?_)
    · exact wp_breturnToCache_quiet (s := { s₄ with ibm := b }) ⟨h₄.safe.keyed, h₄.safe.freeable⟩
        h₄.holds hcached₄ fun s' _ _ => hQ (hibm ▸ hlock) s'
    · exact absurd (hiid ▸ hzero) hpos
    · rw [hlock] at hheld
      cases hheld

/-- An index block of a tree can be read raw. -/
theorem Spot.TreeGood.rawGood {r : Prop} {iv key : Key128} {hash : Key256} {l : Spot}
    (h : l.TreeGood w r iv key hash) (hr : ¬r) (hlive : l.deleted = false) (hfilled : l.Filled) :
    l.RawGood w iv key l.data :=
  ⟨h.unlocked, hlive, hfilled, h.keysOk, h.diskOk hr, h.hashOk.dirty_or, rfl⟩

/-- The block cache has room for what the release of an inode does with it. -/
def Sys.ReleaseFits (s : Sys) (iid : ℕ) : Prop := s.Fits (s.rootUses (rootsOf iid)) s

/-- There is room for the release when three more blocks could be held. -/
theorem Sys.Roomy.releaseFits (h : s.Roomy 3) (hk : s.bcac.Keyed) : s.ReleaseFits iid := by
  obtain ⟨c, hc, _⟩ := manages_rootUses (s := s) (rootsOf iid) s.bcac hk h
  exact Option.isSome_iff_exists.mpr ⟨c, hc⟩

/-- The release of an inode after the cache has let go of it frees its tree, unless the
inode bitmap is locked or the block cache has no room for the release. -/
theorem wp_loggedCbWrite (hw : w.Honest) (hinv : s.TreeInv w raw) (hleaves : s.RawLeaves raw)
    (hinode : s.inodeOf iid = some inode) (hpos : iid ≠ 0) (hlt : iid < 32768)
    (hpins : s.Pins inode iid) (c : Cache Inode) :
    Exec.Wp (loggedCbWrite w inode iid)
      (fun r t => r = false ∧ (s.ibm.ibmLock = false ∧ s.ReleaseFits iid) ∧ Releases s iid t.2)
      (fun _ => s.ibm.ibmLock = true ∨ ¬s.ReleaseFits iid)
      ({ s with icac := c }, []) := by
  have hs : ({ s with icac := c } : Sys).BcacSafe := ⟨hinv.ok.safe.keyed, hinv.ok.safe.freeable⟩
  have hgood : ∀ r ∈ rootsOf iid, s.Live r [] →
      Releasable w s inode.aesIv inode.aesKey r [] { s with icac := c } := by
    intro r hr _
    refine ⟨fun ks _ hlive hheight => ?_, fun ks _ _ => Or.inl rfl⟩
    have hgood := hinv.good r ks inode hlive ((mem_rootsOf.mp hr).symm ▸ hinode)
    exact hgood.rawGood (hleaves.not_mem hinv hlive hheight) (hinv.ok.not_deleted _)
      (hinv.ok.filled _)
  have hwalk := freesRoots_all (E := fun _ => s.ibm.ibmLock = true ∨
    ¬s.ReleaseFits iid) hw hinv hinode { s with icac := c } []
    (fun _ t => Exec.Wp (Exec.ghost (do
      clearInode w inode iid
      let _ ← breturnToCache w (inodeIid2Bid iid)
      return false)) (fun r t => r = false ∧ (s.ibm.ibmLock = false ∧ s.ReleaseFits iid) ∧
          Releases s iid t.2) (fun _ => s.ibm.ibmLock = true ∨ ¬s.ReleaseFits iid) t)
    hs hinv.metaInv hgood (fun hno => ⟨Or.inr hno, Or.inr hno⟩) ?_
  · simp only [loggedCbWrite, loggedFreeInode, Exec.wp_bind, Exec.wp_ghost, Exec.wp_pure] at hwalk ⊢
    exact hwalk
  · intro s₁ hcalm hfollows
    have hfits : s.ReleaseFits iid := by
      obtain ⟨c₁, hc₁, _⟩ := hfollows
      exact Option.isSome_iff_exists.mpr ⟨c₁, hc₁⟩
    have hstart : inodeStart ≤ inodeIid2Bid iid := Nat.le_add_right _ _
    have hbelow := inodeIid2Bid_lt_bitmapStart hlt
    have hdata : inodeIid2Bid iid < dataStart := by
      simp only [bitmapStart, dataStart] at hbelow ⊢
      omega
    have hout : inodeIid2Bid iid ∉ s.subtrees (rootsOf iid) ∪ bitmapBlocks := by
      rintro (⟨r, _, ks, _, hlive, heq⟩ | hmem)
      · exact absurd (hinv.dataStart_le hlive) (by rw [← heq]; exact Nat.not_le.mpr hdata)
      · exact absurd hmem.1 (Nat.not_le.mpr hbelow)
    obtain ⟨n, hn, haddr, href⟩ := hpins
    have hheld : (s.spot (inodeIid2Bid iid)).refs ≠ 0 := by simpa [Spot.refs, hn] using href
    have hspot : s₁.spot (inodeIid2Bid iid) = s.spot (inodeIid2Bid iid) :=
      hcalm.fades.spot_of_held hout hheld
    have hibm : s₁.ibm = s.ibm := congrArg (·.2.1) hcalm.fades.rest
    refine Exec.wp_ghost.mpr (wp_clearInode hcalm.safe hpos hlt (fun m hm => ?_) ?_
      ⟨n, hspot ▸ hn, haddr, href⟩ (fun hlock s' => ?_) fun hlock => ?_)
    · exact hinv.ok.holds _ m ((congrArg Spot.node hspot).symm.trans hm)
    · rw [hspot]
      exact (hinv.metaInv _ hstart hdata).unlocked
    · exact ⟨rfl, ⟨hibm ▸ hlock, hfits⟩, releases_freeCalls hinv hinode⟩
    · exact Or.inl (hibm ▸ hlock)

/-- After any lookups in the tree of an inode whose block is held, the release of the inode
comes to its end and frees the blocks that lookups can reach, once each and from below,
exactly when the inode bitmap is not locked and the block cache has room for the release. -/
theorem release_complete_iff {cs : List LookupCall} {inode₀ : Inode} (hw : w.Reliable)
    (hinv : s.TreeInv w raw) (hleaves : s.RawLeaves raw) (hp : s.PointsTo ip iid inode₀)
    (hrun : Run (LookupStep w ip) s cs s')
    (hasks : Always (LookupStep w ip) (fun s c _ => LookupAsks iid s c) s cs)
    (hp' : s'.PointsTo ip iid inode) (hpos : iid ≠ 0) (hlt : iid < 32768)
      (hpins : s'.Pins inode iid)
    (c : Cache Inode) (dirty : Bool) :
    (∃ log s'', loggedCbWrite w inode iid ({ s' with icac := c }, []) = .ok (false, s'', log) ∧
      icacheCbWrite w (some inode) iid dirty true { s' with icac := c } = .ok (false, s'') ∧
      Releases s' iid log) ↔ s'.ibm.ibmLock = false ∧ s'.ReleaseFits iid := by
  obtain ⟨⟨⟨raw', hinv', hleaves'⟩, _⟩, _⟩ :=
    lookups_keep hw hrun ⟨⟨raw, hinv, hleaves⟩, inode₀, hp⟩ hasks
  have hwp := wp_loggedCbWrite hw hinv' hleaves' hp'.inodeOf hpos hlt hpins c
  constructor
  · rintro ⟨log, s'', hrun', _, _⟩
    exact (hwp.of_ok hrun').2.1
  · rintro ⟨hlock, hfits⟩
    have hnever : s'.ibm.ibmLock = true ∨ ¬s'.ReleaseFits iid → False := by simp [hlock, hfits]
    have hreturns := hwp.mono (fun _ _ h => h) fun _ hstuck => hnever hstuck
    obtain ⟨r, ⟨s'', log⟩, hrun', rfl, _, hreleases⟩ := hreturns.returns
    exact ⟨log, s'', hrun', (erases_loggedCbWrite inode iid dirty).of_ok hrun', hreleases⟩

/-! ## A file whose block is held -/

/-- An empty file in the inode cache, with its block in the block cache. -/
def heldFile (ibm : InodeBitmap) : Sys :=
  { emptyFile with
    ibm
    bcac := ⟨.empty, ⟨[⟨0, 74, 1, false, false,
      some ⟨.inode, 74, HashIdx.zero, Bytes.zero, Bytes.zero,
      Bytes.zero⟩, false⟩], 1⟩, [], 1, false⟩ }

/-- The inode of the file. -/
def heldInode : Inode :=
  ⟨1, inodeTpFile, 0, 0, fun _ => 0, Bytes.zero, Bytes.zero, fun _ => Bytes.zero⟩

/-- In `heldFile` only the block of the inode is not blank. -/
theorem heldFile_spot {ibm : InodeBitmap} {bid : ℕ} (h : bid ≠ 74) :
    (heldFile ibm).spot bid = Sys.blank.spot bid := by
  simp [Sys.spot, heldFile, emptyFile, Sys.blank, Cache.node, Queue.search, Queue.empty,
    Cache.empty, Ne.symm h]

/-- The file of `heldFile` has no blocks. -/
theorem heldFile_not_live {ibm : InodeBitmap} (r : RootSlot) (ks : List ℕ) :
    ¬(heldFile ibm).Live r ks := by
  induction ks with
  | nil => exact emptyFile_not_live r []
  | cons k ks ih => exact fun hlive => ih hlive.1

/-- The block cache of `heldFile` is empty. -/
theorem heldFile_bcac {ibm : InodeBitmap} : (heldFile ibm).bcac.Keyed := by
  refine ⟨⟨.empty, ⟨rfl, Nat.le_of_ble_eq_true rfl, List.nodup_singleton _⟩,
    List.nodup_singleton _, ?_, rfl⟩, List.nodup_singleton _⟩
  intro n hn
  obtain rfl := List.mem_singleton.mp hn
  exact Nat.zero_lt_one

/-- The metadata blocks of `heldFile` are good. -/
theorem heldFile_metaInv {ibm : InodeBitmap} : (heldFile ibm).MetaInv World.plain := by
  intro bid hstart hdata
  by_cases hbid : bid = 74
  · subst hbid
    refine ⟨Or.inr ⟨rfl, Bytes.sub_zero 0⟩, Or.inr rfl, ?_, ?_⟩
    · intro block hblock
      cases hblock
      exact ⟨rfl, rfl⟩
    · intro n hn
      cases hn
      rfl
  · rw [heldFile_spot hbid]
    exact Sys.blank_metaInv bid hstart hdata

/-- The trees of `heldFile` are good. -/
theorem heldFile_treeInv {ibm : InodeBitmap} : (heldFile ibm).TreeInv World.plain ∅ := by
  have hnode : ∀ bid n, (heldFile ibm).bcac.node bid = some n → n.Holds bid := by
    intro bid n hn
    by_cases hbid : bid = 74
    · subst hbid
      cases hn
      exact ⟨le_rfl, rfl, _, rfl, rfl, rfl⟩
    · have hspot : ((heldFile ibm).spot bid).node = none := by
        rw [heldFile_spot hbid]
        rfl
      rw [show (heldFile ibm).bcac.node bid = none from hspot] at hn
      cases hn
  refine ⟨emptyFile_icac, fun iid inode hinode => ?_, ⟨heldFile_bcac, hnode⟩, heldFile_metaInv,
    fun r ks _ _ hlive => absurd hlive (heldFile_not_live r ks),
    fun r ks hlive => absurd hlive (heldFile_not_live r ks),
    fun r ks _ hlive => absurd hlive (heldFile_not_live r ks), fun did hdid _ => ?_, rfl⟩
  · obtain ⟨rfl, hiid, _⟩ := emptyFile_inode hinode
    exact hiid
  · have hle := dataStart_le_did2Bid did
    have hne : did2Bid did ≠ 74 := by
      simp only [dataStart] at hle
      omega
    rw [heldFile_spot hne]
    exact ⟨rfl, rfl⟩

/-- The inode of `heldFile` is held once. -/
theorem heldFile_pins {ibm : InodeBitmap} : (heldFile ibm).Pins heldInode 1 :=
  ⟨_, rfl, rfl, Nat.one_ne_zero⟩

/-- A part behind the double indirect slot is written, and the inode is released. -/
theorem release_complete_iff_heldFile : ∃ cs s' inode,
    Run (LookupStep World.plain 0) (heldFile ⟨Bytes.zero, 0, false⟩) cs s' ∧
    cs.map (fun c => (c.bidx, c.write)) = [(130, true)] ∧ s'.PointsTo 0 1 inode ∧
    ∃ log s'', loggedCbWrite World.plain inode 1 ({ s' with icac := .empty }, []) =
      .ok (false, s'', log) ∧
      icacheCbWrite World.plain (some inode) 1 false true { s' with icac := .empty } =
        .ok (false, s'') ∧ Releases s' 1 log := by
  obtain ⟨⟨found, s₁⟩, hcall, hcheck⟩ := exists_of_check
    (x := inodeIndexLookup World.plain 0 130 true HashIdx.zero Bytes.zero
      (heldFile ⟨Bytes.zero, 0, false⟩))
    (p := fun r => r.2.ibm.ibmLock = false ∧ r.2.bcac.nodes.length + 3 < queueMaxLen ∧
      ((r.2.bcac.node 74).any fun n => n.addr = 0 ∧ n.refcnt ≠ 0) ∧
        (r.2.inodeOf 1).any fun inode => inode.dip = 0) (by decide +kernel)
  have hstep : LookupStep World.plain 0 (heldFile ⟨Bytes.zero, 0, false⟩)
      ⟨130, true, HashIdx.zero, Bytes.zero, found⟩ s₁ := hcall
  have hrun := Run.cons hstep (.nil s₁)
  have hleaves : (heldFile ⟨Bytes.zero, 0, false⟩).RawLeaves ∅ :=
    fun b hb => absurd hb (Set.notMem_empty b)
  have hp : (heldFile ⟨Bytes.zero, 0, false⟩).PointsTo 0 1 heldInode := ⟨_, rfl, rfl, rfl⟩
  have hasks : Always (LookupStep World.plain 0) (fun s c _ => LookupAsks 1 s c)
      (heldFile ⟨Bytes.zero, 0, false⟩) [⟨130, true, HashIdx.zero, Bytes.zero, found⟩] := by
    refine Always.cons_iff.mpr fun s' _ => ⟨⟨?_, fun hread => by cases hread⟩, ?_⟩
    · exact (by decide : 130 < 2 ^ 32 / blkSz)
    · intro before c after _ _ heq
      simp at heq
  obtain ⟨⟨⟨raw, hinv, _⟩, inode, hp₁⟩, _⟩ :=
    lookups_keep World.plain_reliable hrun ⟨⟨∅, heldFile_treeInv, hleaves⟩, _, hp⟩ hasks
  simp only [Bool.decide_and, Bool.and_eq_true, decide_eq_true_eq] at hcheck
  obtain ⟨hlock, hroom, hnode, hdip⟩ := hcheck
  obtain ⟨n, hn, hheld⟩ := (Option.any_eq_true _ _).mp hnode
  simp only [Bool.and_eq_true, decide_eq_true_eq] at hheld
  obtain ⟨haddr, href⟩ := hheld
  have hdip' : inode.dip = 0 := by
    rw [hp₁.inodeOf] at hdip
    exact of_decide_eq_true hdip
  refine ⟨_, s₁, inode, hrun, rfl, hp₁, ?_⟩
  refine (release_complete_iff World.plain_reliable heldFile_treeInv hleaves hp hrun hasks hp₁
    Nat.one_ne_zero (by decide) ⟨n, hn, haddr.trans hdip'.symm, href⟩ _ _).mpr
    ⟨hlock, Sys.Roomy.releaseFits (hinv.ok.keyed.roomy_of_length hroom) hinv.ok.keyed⟩

/-- An allocation finds no inode number and leaves the lock held; the release of an
inode does not return after that. -/
theorem locked_release_deadlocks : ∃ s,
    onIbm (ibmAlloc ⟨none, 0⟩) (heldFile ⟨⟨fun _ => 255⟩, 511, false⟩) = .ok (0, s) ∧
    s.TreeInv World.plain ∅ ∧ s.PointsTo 0 1 heldInode ∧ s.Pins heldInode 1 ∧ s.Roomy 3 ∧
    icacheCbWrite World.plain (some heldInode) 1 false true { s with icac := .empty } =
      .error .deadlock := by
  refine ⟨heldFile ⟨⟨fun _ => 255⟩, 511, true⟩, by rfl, heldFile_treeInv, ⟨_, rfl, rfl,
    rfl⟩, heldFile_pins, heldFile_bcac.roomy_of_length (Nat.le_of_ble_eq_true rfl), by rfl⟩

end

end Efs
