import Efs.CacheReplay
import Efs.IndexMap
import Efs.Library.PostOrder
import Efs.ReleaseCalls

/-!
# The release of a deleted inode

The walk that frees the blocks of a deleted inode comes to every block of its tree once,
to an index block after all blocks below it, and to no other block, whichever of the
index blocks are cached.
-/

namespace Efs

open Library

/-! ## Index blocks -/

/-- A block can be read raw: nobody has locked it, it is not deleted, and a load with
the keys gives its data. -/
structure Spot.RawGood (w : World) (iv key : Key128) (d : Data) (l : Spot) : Prop where
  /-- Nobody has locked the block. -/
  unlocked : l.Unlocked
  /-- The cached copy is not deleted. -/
  live : l.deleted = false
  /-- The cached copy has its content. -/
  filled : l.Filled
  /-- The cached copy has the keys. -/
  keysOk : l.KeysOk iv key
  /-- The disk keeps what was written back. -/
  diskOk : l.DiskOk w iv key
  /-- Changes that were not written back are in a dirty copy. -/
  dirty_or : l.dirty = true ∨ l.data = l.evicted
  /-- The data of the block. -/
  data_eq : l.data = d

/-- What a call of the walk does: the blocks `X` changed, and the others only faded. -/
structure Calm (w : World) (X : Set ℕ) (s s' : Sys) : Prop where
  /-- The nodes can be freed. -/
  safe : s'.BcacSafe
  /-- The metadata blocks are good. -/
  metaInv : s'.MetaInv w
  /-- The other blocks fade. -/
  fades : Fades w X [] s s'

/-- The block `b` is as it was, or its node was freed. -/
def KeptOrFreed (w : World) (s s' : Sys) (b : ℕ) : Prop :=
  s'.spot b = s.spot b ∨ s'.spot b = (s.spot b).discard w b

/-- What `bget_raw` gave for the block `b` still shows the data `d`. -/
def RawBlock.Shows (s : Sys) (b : ℕ) (d : Data) : RawBlock → Prop
  | .cached bp => ∃ n block, (s.spot b).node = some n ∧ n.addr = bp ∧ n.refcnt ≠ 0 ∧
      n.content = some block ∧ block.data = d
  | .copy d' => d' = d

section

variable {w : World} {E : Halt → Prop} {X Y : Set ℕ} {s₀ s s₁ s' : Sys} {b : ℕ} {iv key : Key128}
  {d : Data} {l : Spot} {idxp : RawBlock}

/-- A block that can be read stays so when it is evicted. -/
theorem Spot.RawGood.evict (h : l.RawGood w iv key d) (hw : w.Honest) :
    (l.evict w b).RawGood w iv key d := by
  refine ⟨Unlocked.evict, ?_, ?_, KeysOk.evict, h.diskOk.evict h.keysOk hw.decrypt_encrypt h.filled,
    Or.inr ?_, (data_evict h.filled h.dirty_or).trans h.data_eq⟩
  · simp [deleted]
  · intro n hn
    simp at hn
  · simp [data]

/-- A block that fades can still be read. -/
theorem Spot.RawGood.fades {added : List (ℕ × HashIdx)} (h : (s.spot b).RawGood w iv key d)
    (hw : w.Honest) (hfades : Fades w X added s s') (hb : b ∉ X) :
    (s'.spot b).RawGood w iv key d := by
  rcases hfades.spot b hb with heq | ⟨_, heq⟩
  · rw [heq]
    exact h
  · rw [heq, discard_of_not_deleted h.live]
    exact h.evict hw

/-- A kept or freed block stays so while others fade. -/
theorem KeptOrFreed.fades {added : List (ℕ × HashIdx)} (h : KeptOrFreed w s₀ s b)
    (hfades : Fades w X added s s') (hb : b ∉ X) : KeptOrFreed w s₀ s' b := by
  rcases hfades.spot b hb with heq | ⟨_, heq⟩
  · rw [KeptOrFreed, heq]
    exact h
  · refine Or.inr (heq.trans ?_)
    rcases h with h | h
    · rw [h]
    · rw [h, Spot.discard_discard]

/-- The entry of `pd_wb` of a block that was kept or freed is there when it was there before,
or when a dirty node was freed. -/
theorem KeptOrFreed.pending_iff (h : KeptOrFreed w s₀ s b) (hlive : (s₀.spot b).deleted = false)
    (hfilled : (s₀.spot b).Filled) (hb : dataStart ≤ b) :
    s.pdWb.find b ≠ none ↔ s₀.FreesDid s.bcac b := by
  have hpending : s.pdWb.find b = (s.spot b).pending := rfl
  have hnode : s.bcac.node b = (s.spot b).node := rfl
  have hpending₀ : s₀.pdWb.find b = (s₀.spot b).pending := rfl
  rw [Sys.FreesDid, hpending, hnode, hpending₀]
  rcases h with heq | heq
  · rw [heq]
    refine (or_iff_left ?_).symm
    rintro ⟨hdirty, hnone⟩
    simp [Spot.dirty, hnone] at hdirty
  · rw [heq, Spot.discard_of_not_deleted hlive, Spot.node_evict, and_iff_left rfl]
    cases hn : (s₀.spot b).node with
    | none => simp [Spot.evict, Spot.block, Spot.dirty, hn]
    | some n =>
      obtain ⟨block, hcontent⟩ := Option.ne_none_iff_exists'.mp (hfilled n hn)
      have hblock : (s₀.spot b).block = some block := by
        rw [Spot.block, hn, Option.bind_some, hcontent]
      by_cases hdirty : (s₀.spot b).dirty = true
      · simp only [Spot.evict, hblock, hdirty, if_true, if_neg (Nat.not_lt.mpr hb)]
        simp
      · simp [Spot.evict, hblock, hdirty]

/-- Nothing happens to the blocks when nothing happens. -/
theorem Calm.refl (hs : s.BcacSafe) (hmeta : s.MetaInv w) : Calm w X s s := ⟨hs, hmeta, .refl s⟩

/-- Two calm calls are calm. -/
theorem Calm.trans (h₁ : Calm w X s s₁) (h₂ : Calm w Y s₁ s') : Calm w (X ∪ Y) s s' :=
  ⟨h₂.safe, h₂.metaInv, h₁.fades.trans h₂.fades⟩

/-- A call that is calm but for some blocks is so but for more. -/
theorem Calm.mono (h : Calm w X s s') (hXY : X ⊆ Y) : Calm w Y s s' :=
  ⟨h.safe, h.metaInv, h.fades.mono hXY⟩

/-- A block that is held goes on to show its data. -/
theorem RawBlock.Shows.calm (h : idxp.Shows s b d) (hcalm : Calm w X s s') (hb : b ∉ X) :
    idxp.Shows s' b d := by
  cases idxp with
  | copy d' => exact h
  | cached bp =>
    obtain ⟨n, block, hn, haddr, href, hcontent, hdata⟩ := h
    have hspot := hcalm.fades.spot_of_held hb (by simpa [Spot.refs, hn] using href)
    exact ⟨n, block, hspot ▸ hn, haddr, href, hcontent, hdata⟩

/-- The rule for a read of what `bget_raw` gave. -/
theorem wp_rawData (hs : s.BcacSafe) (h : idxp.Shows s b d) {Q : Data → Sys → Prop} (hQ : Q d s) :
    Exec.Wp (rawData idxp) Q E s := by
  cases idxp with
  | copy d' =>
    obtain rfl : d' = d := h
    exact hQ
  | cached bp =>
    obtain ⟨n, block, hn, rfl, _, hcontent, rfl⟩ := h
    exact Exec.wp_bind.mpr (wp_blockAt hs.keyed hn hcontent hQ)

/-- The rule for a change of the disk and the pending hashes of a data block. -/
theorem Calm.of_data (hw : w.Honest) (hs : s.BcacSafe) (hmeta : s.MetaInv w) (hb : dataStart ≤ b)
    (hs' : s'.BcacSafe) (hfades : Fades w {b} [] s s') : Calm w {b} s s' := by
  refine ⟨hs', hmeta.fades hw hs hfades ?_, hfades⟩
  rintro b' rfl _ hlt
  exact absurd hb (Nat.not_le.mpr hlt)

/-- A block outside of those that changed has the references that it had. -/
theorem Fades.refs_eq {added : List (ℕ × HashIdx)} (h : Fades w X added s s') (hb : b ∉ X) :
    s'.bcac.refs b = s.bcac.refs b := by
  change (s'.spot b).refs = (s.spot b).refs
  rcases h.spot b hb with heq | ⟨hidle, heq⟩
  · rw [heq]
  · rw [heq, hidle.refs_eq, Spot.refs, Spot.node_discard]
    rfl

/-- The rule for `dbm_free` in the walk. -/
theorem wp_dbmFree_calm (hw : w.Honest) (hs : s.BcacSafe) (hmeta : s.MetaInv w) {did : ℕ}
    (hdid : did < 16777216) {Q : Bool → Sys → Prop}
    (hQ : ∀ r s' c, Calm w bitmapBlocks s s' → s.bcac.visit (bitmapDid2Bid did) = some c →
      s'.bcac.Alike c → Q r s')
    (hE : s.bcac.visit (bitmapDid2Bid did) = none → E .nodeLost ∧ E .nullDeref) :
    Exec.Wp (dbmFree w did) Q E s := by
  have hholds : ∀ n, s.bcac.node (bitmapDid2Bid did) = some n → n.Holds (bitmapDid2Bid did) :=
    fun n hn => hs.holds (bitmapDid2Bid_mem hdid).2 hn
  refine Exec.Wp.also (wp_dbmFree_visits hs.keyed hholds hdid)
    (wp_dbmFree_quiet hw hs hmeta hdid ?_ fun hno => hE ?_)
  · rintro s' hbitmap _ _ hrefs hfades _ ⟨c, hvisit, horder⟩
    obtain ⟨hkeyed, hrefs'⟩ := hs.keyed.visit hvisit
    refine hQ false s' c ⟨hbitmap.safe, hbitmap.metaInv, hbitmap.fades⟩ hvisit
      (hbitmap.safe.keyed.alike hkeyed horder fun b => ?_)
    rw [hrefs']
    by_cases hb : b = bitmapDid2Bid did
    · subst hb
      exact hrefs
    · exact hfades.refs_eq hb
  · rw [← hs.keyed.visit_isSome] at hno
    exact Option.not_isSome_iff_eq_none.mp hno

/-- The rule for `cache_make_deleted` of a data block. -/
theorem wp_cacheMakeDeleted_calm (hw : w.Honest) (hs : s.BcacSafe) (hmeta : s.MetaInv w)
    (hle : dataStart ≤ b) {Q : Bool → Sys → Prop}
    (hQ : ∀ r s', Calm w {b} s s' → s'.bcac.Alike s.bcac → Q r s') :
    Exec.Wp (cacheMakeDeleted w (bcacOf w) b) Q E s := by
  apply Exec.Wp.keeping (keepsOrder_cacheMakeDeleted b)
  simp only [cacheMakeDeleted, Exec.wp_bind]
  refine wp_cacheFind_peek (k := bcacOf w) bcacOf_lawful hs.keyed ?_
  cases hn : (s.spot b).node with
  | none =>
    have hget : ((bcacOf w).get s).node b = none := hn
    rw [hget]
    exact fun _ => hQ true s (.refl hs hmeta) (.refl _)
  | some n =>
    have hget : ((bcacOf w).get s).node b = some n := hn
    rw [hget]
    simp only [Exec.wp_bind, Exec.wp_pure]
    refine wp_nodeStore_safe hs hn ?_ ?_ fun s' h horder => ?_
    · exact fun _ => ⟨rfl, rfl⟩
    · exact Or.inr ⟨hle, rfl⟩
    refine hQ false s' (.of_data hw hs hmeta hle h.safe h.fades)
      (h.safe.keyed.alike hs.keyed horder fun b' => ?_)
    by_cases hb : b' = b
    · subst hb
      change (s'.spot b').refs = (s.spot b').refs
      simp [Spot.refs, hn, h.node hn]
    · exact (h.fades (w := w)).refs_eq hb

/-- The rule for `block_free`, whatever it returns. -/
theorem wp_blockFree (hw : w.Honest) (hs : s.BcacSafe) (hmeta : s.MetaInv w) {did : ℕ}
    (hdid : did < 16777216) (hb : b = did2Bid did)
    (hpending : s.pdWb.find b ≠ none ↔ s₀.FreesDid s.bcac b) {setzero : Bool}
    {Q : Bool → Sys → Prop}
    (hQ : ∀ r s', Calm w ({b} ∪ bitmapBlocks) s s' → s₀.Follows [.free b] s s' → Q r s')
    (hE : ¬s₀.Fits [.free b] s → E .nodeLost ∧ E .nullDeref) :
    Exec.Wp (blockFree w b setzero) Q E s := by
  have hle : dataStart ≤ b := hb ▸ dataStart_le_did2Bid did
  have hback : bid2Did b = did := hb ▸ bid2Did_did2Bid (by omega)
  simp only [blockFree, Nat.not_lt.mpr hle, hback, Exec.wp_bind, Exec.wp_when, IsEmpty.forall_iff,
    not_false_eq_true, forall_const, true_and, pdWbDelete, pdWbFind, Exec.wp_read, Exec.wp_update,
    Exec.wp_pure]
  -- The pending hash is gone.
  have hgone : Calm w {b} s { s with pdWb := s.pdWb.erase b } := by
    refine .of_data hw hs hmeta hle ⟨hs.keyed, hs.freeable⟩ ⟨fun b' hne => Or.inl ?_, rfl, rfl⟩
    simp [Sys.spot, Ne.symm (show b' ≠ b from hne)]
  refine Exec.wp_ite.mpr ⟨fun hnone => ?_, fun hsome => ?_⟩
  · have hstay : ¬s₀.FreesDid s.bcac b := by
      rw [← hpending]
      simpa using hnone
    refine hQ _ _ (hgone.mono Set.subset_union_left) ⟨s.bcac, ?_, .refl _⟩
    rw [replay_singleton, Sys.replayUse, if_neg hstay]
  · have hgoes : s₀.FreesDid s.bcac b := by
      rw [← hpending]
      simpa using hsome
    have hreplay : s₀.replay s.bcac [.free b] = s.bcac.visit (bitmapDid2Bid did) := by
      rw [replay_singleton, Sys.replayUse, if_pos hgoes, hback]
    generalize hs₁ : ({ s with pdWb := s.pdWb.erase b } : Sys) = s₁ at hgone
    have hsame₁ : s₁.bcac = s.bcac := by
      subst hs₁
      rfl
    -- The end, from a state where the block may be deleted.
    have hend : ∀ s₂, Calm w {b} s s₂ → s₂.bcac.Alike s.bcac → Exec.Wp (dbmFree w did) Q E s₂ := by
      intro s₂ hcalm hsame
      have hvisit := hsame.visit hcalm.safe.keyed hs.keyed (bitmapDid2Bid did)
      rw [← hreplay] at hvisit
      refine wp_dbmFree_calm hw hcalm.safe hcalm.metaInv hdid (fun r s' c hbitmap hc hsame' => ?_)
        fun hnone => hE fun hfits => ?_
      · rw [hc] at hvisit
        generalize hc' : s₀.replay s.bcac [.free b] = res at hvisit
        cases hvisit with
        | some h => exact hQ r s' (hcalm.trans hbitmap) ⟨_, hc', hsame'.trans h⟩
      · rw [hnone] at hvisit
        unfold Sys.Fits at hfits
        generalize s₀.replay s.bcac [.free b] = res at hvisit hfits
        cases hvisit
        cases hfits
    have hzero : ∀ s₂, Calm w {b} s s₂ → s₂.bcac.Alike s.bcac →
        Exec.Wp (Exec.when setzero do let _ ← diskSetzero w b)
          (fun _ s' => Exec.Wp (dbmFree w did) Q E s') E s₂ := by
      intro s₂ hcalm hsame
      refine Exec.wp_when.mpr ⟨fun _ => ?_, fun _ => hend s₂ hcalm hsame⟩
      simp only [diskSetzero, Exec.wp_bind]
      refine wp_external hw.fails_eq fun calls => ?_
      simp only [Bool.not_false, Exec.wp_when, Exec.wp_update, Exec.wp_pure, forall_const,
        not_true_eq_false, IsEmpty.forall_iff, and_true]
      have hother : ∀ b' ≠ b, ({ s₂ with
          disk := Function.update s₂.disk b w.zeroEncrypted, calls } : Sys).spot b' =
            s₂.spot b' := by
        intro b' hne
        simp [Sys.spot, Function.update_of_ne hne]
      have hdisk : Calm w {b} s₂
          { s₂ with disk := Function.update s₂.disk b w.zeroEncrypted, calls } := by
        apply Calm.of_data hw hcalm.safe hcalm.metaInv hle
        · exact ⟨hcalm.safe.keyed, hcalm.safe.freeable⟩
        · exact ⟨fun b' hne => Or.inl (hother b' hne), rfl, rfl⟩
      have hdone := hcalm.trans hdisk
      rw [Set.union_self] at hdone
      exact hend _ hdone hsame
    refine Exec.wp_bind.mpr (wp_cacheMakeDeleted_calm hw hgone.safe hgone.metaInv hle
      fun _ s₂ hdeleted hsame => ?_)
    have hdone := hgone.trans hdeleted
    rw [Set.union_self] at hdone
    exact Exec.wp_bind.mpr (hzero s₂ hdone (hsame₁ ▸ hsame))

/-- The rule for `bget_raw`: a held pointer to the cached block, or a copy of its data. -/
theorem wp_bgetRaw (hw : w.Honest) (hs : s.BcacSafe) (hle : dataStart ≤ b)
    (hgood : (s.spot b).RawGood w iv key d) {Q : Option RawBlock → Sys → Prop}
    (hcached : ∀ n block s', s'.BcacSafe → Fades w {b} [] s s' → (s.spot b).node = some n →
      n.Holds b → n.content = some block → block.data = d →
      s'.spot b = { s.spot b with node := some n.take } → s₀.Follows [.hold b] s s' →
      Q (some (.cached n.addr)) s')
    (hcopy : ∀ s', s'.BcacSafe → Fades w ∅ [] s s' → (s'.spot b).node = none →
      s₀.Follows [.hold b] s s' → Q (some (.copy d)) s')
    (hE : ¬s₀.Fits [.hold b] s → E .nodeLost) : Exec.Wp (bgetRaw w b iv key) Q E s := by
  rw [bgetRaw, if_neg (Nat.not_lt.mpr hle)]
  cases hn : (s.spot b).node with
  | some n =>
    have hlive : n.deleted = false := by
      have h := hgood.live
      simpa [Spot.deleted, hn] using h
    have hholds : n.Holds b := by
      refine (hs.freeable b n hn).resolve_right fun hdeleted => ?_
      rw [hlive] at hdeleted
      exact Bool.false_ne_true hdeleted.2
    obtain ⟨block, hcontent, _⟩ := hholds.content
    have hdata : block.data = d := by
      rw [← hgood.data_eq]
      simp [Spot.data, Spot.block, hn, hcontent]
    have hcache : s.bcac.node b = some n := hn
    refine Exec.wp_bind.mpr (Exec.Wp.also (wp_cacheTryGet_order hs.keyed hcache hlive)
      (wp_cacheTryGet_some hw hs hn (hgood.unlocked n hn) hlive hcontent ?_ fun hno => hE
        fun hfits => ?_))
    · rintro s' hs' hfades hspot ⟨_, hlost, horder⟩
      refine hcached n block s' hs' hfades hn hholds hcontent hdata hspot ?_
      have hhold : s.bcac.hold b = some ((s.bcac.find b true).cache.onNode b
          fun n => { n with refcnt := n.refcnt + 1 }) := by rw [Cache.hold,
            if_neg (by simp [hlost])]
      obtain ⟨hkeyed, horder', hrefs⟩ := hs.keyed.hold hhold
      refine ⟨_, by rw [replay_singleton, Sys.replayUse, hhold], hs'.keyed.alike hkeyed
        (horder.trans horder'.symm) fun b' => ?_⟩
      rw [hrefs]
      by_cases hb : b' = b
      · subst hb
        rw [if_pos ⟨rfl, by simp [hcache]⟩]
        change (s'.spot b').refs = (s.spot b').refs + 1
        simp [hspot, Spot.refs, hn, Node.take]
      · rw [if_neg fun h => hb h.1]
        exact hfades.refs_eq hb
    · refine hno ⟨?_, fun hnone => absurd hnone (by simp [hcache])⟩
      by_contra hlost
      rw [Sys.Fits, replay_singleton, Sys.replayUse, Cache.hold,
        if_pos ((Bool.not_eq_false _).mp hlost)] at hfits
      cases hfits
  | none =>
    have hdisk : w.decrypt iv key (s.spot b).disk = d := by
      have hclean : (s.spot b).dirty = false := by simp [Spot.dirty, hn]
      have hdata : (s.spot b).data = (s.spot b).evicted := by simp [Spot.data, Spot.block, hn]
      rw [hgood.diskOk.resolve_left (by simp [hclean]), ← hdata, hgood.data_eq]
    have hdisk' : w.decrypt iv key (s.disk b) = d := hdisk
    refine Exec.wp_bind.mpr (wp_cacheTryGet_none hs.keyed hn ?_)
    refine Exec.wp_bind.mpr (wp_diskRead hw.fails_eq fun _ => ?_)
    refine Exec.wp_bind.mpr (wp_aes128BlockDecrypt hw.fails_eq fun calls => ?_)
    rw [hdisk']
    refine hcopy _ ⟨hs.keyed, hs.freeable⟩ (.of_spot_eq (fun _ => rfl) rfl rfl) hn
      ⟨s.bcac, ?_, .refl _⟩
    have hcache : s.bcac.node b = none := hn
    rw [replay_singleton, Sys.replayUse, Cache.hold, hs.keyed.find_of_none hcache,
      if_neg Bool.false_ne_true, Cache.onNode, hcache]

/-- The rule for `breturn_raw` of a cached block. -/
theorem wp_breturnRaw_cached (s₀ : Sys) (hs : s.BcacSafe) {n : Node Block} {block : Block}
    (hn : (s.spot b).node = some n.take) (hholds : n.Holds b) (hcontent : n.content = some block)
    {Q : Unit → Sys → Prop} (hQ : ∀ s', Quiet b s s' → (s'.spot b).pending = (s.spot b).pending →
      (s'.spot b).node ≠ none → s₀.Follows [.release b] s s' → Q () s') :
    Exec.Wp (breturnRaw w b (.cached n.addr)) Q E s := by
  have hcached : (s.spot b).Cached (s.spot b) n.addr (n.refcnt + 1) true n.dirty block.aesIv
      block.aesKey block.data :=
    ⟨⟨n.take, block, hn, rfl, rfl, rfl, rfl, hcontent, rfl, rfl, rfl⟩, rfl⟩
  refine Exec.wp_bind.mpr (Exec.Wp.keeping (keepsOrder_blockUnlockReturn b)
    (wp_blockUnlockReturn_quiet hs (fun m hm => ?_) hcached ?_))
  · obtain rfl := Option.some.inj (hn.symm.trans hm)
    exact ⟨hholds.inodeStart_le, hholds.deleted_eq, hholds.content⟩
  · intro s' hquiet hcached' horder
    obtain ⟨m, _, hm, _⟩ := hcached'.node
    obtain ⟨hkeyed, horder', hrefs⟩ := hs.keyed.release b
    refine hQ s' hquiet hcached'.pending_eq (by simp [hm])
      ⟨_, rfl, hquiet.safe.keyed.alike hkeyed (horder.trans horder'.symm) fun b' => ?_⟩
    rw [hrefs]
    by_cases hb : b' = b
    · subst hb
      rw [if_pos rfl]
      have hbefore : s.bcac.refs b' = n.refcnt + 1 := hcached.refs_eq
      have hafter : s'.bcac.refs b' = n.refcnt := hcached'.refs_eq
      rw [hbefore, hafter, Nat.add_sub_cancel]
    · rw [if_neg hb]
      exact (hquiet.fades (w := w)).refs_eq hb

end

/-! ## The walk of a tree -/

/-- The blocks at and under a place. -/
def Sys.subtree (s : Sys) (r : RootSlot) (ks : List ℕ) : Set ℕ :=
  {b | ∃ ks', ks <:+ ks' ∧ s.Live r ks' ∧ b = s.blockAt r ks'}

/-- The call of `block_free` on the block at a place: index blocks are set to zero. -/
def Sys.freeCall (s : Sys) (r : RootSlot) (ks : List ℕ) : ℕ × Bool :=
  (s.blockAt r ks, decide (ks.length < treeShape.height r))

/-- The uses of the block cache `under` the slots of an index block that point at a block. -/
def Sys.slotUses (s : Sys) (r : RootSlot) (ks : List ℕ) (under : List ℕ → List CacheUse)
    (slots : List ℕ) : List CacheUse :=
  slots.flatMap fun k => if s.blockAt r (k :: ks) ≠ 0 then under (k :: ks) else []

/-- What the release of the blocks at and under a place, `n` levels deep, does with the block
cache. -/
def Sys.uses (s : Sys) (r : RootSlot) : ℕ → List ℕ → List CacheUse
  | 0, ks => [.free (s.blockAt r ks)]
  | n + 1, ks => [.hold (s.blockAt r ks)] ++
      (s.slotUses r ks (s.uses r n) (List.range indexPerBlock) ++
        ([.release (s.blockAt r ks)] ++ [.free (s.blockAt r ks)]))

/-- The trees of `s₀` can still be released at and under a place. -/
structure Releasable (w : World) (s₀ : Sys) (iv key : Key128) (r : RootSlot) (ks : List ℕ)
    (s : Sys) : Prop where
  /-- The index blocks can be read raw. -/
  raw : ∀ ks', ks <:+ ks' → s₀.Live r ks' → ks'.length < treeShape.height r →
    (s.spot (s₀.blockAt r ks')).RawGood w iv key (s₀.spot (s₀.blockAt r ks')).data
  /-- The blocks only faded. -/
  kept : ∀ ks', ks <:+ ks' → s₀.Live r ks' → KeptOrFreed w s₀ s (s₀.blockAt r ks')

section

variable {w : World} {E : Halt → Prop} {raw X : Set ℕ} {s₀ s s' : Sys} {iv key : Key128}
  {r : RootSlot} {ks : List ℕ} {n k : ℕ} {log : FreeLog} {idxp : RawBlock}

/-- What is releasable at a place is so at the places below it. -/
theorem Releasable.mono (h : Releasable w s₀ iv key r ks s) {ks' : List ℕ} (hks : ks <:+ ks') :
    Releasable w s₀ iv key r ks' s :=
  ⟨fun ks'' hks'' => h.raw ks'' (hks.trans hks''), fun ks'' hks'' => h.kept ks'' (hks.trans hks'')⟩

/-- A tree can still be released after a call that did not change its blocks. -/
theorem Releasable.fades {added : List (ℕ × HashIdx)} (h : Releasable w s₀ iv key r ks s)
    (hw : w.Honest) (hfades : Fades w X added s s')
    (hX : ∀ ks', ks <:+ ks' → s₀.Live r ks' → s₀.blockAt r ks' ∉ X) :
    Releasable w s₀ iv key r ks s' :=
  ⟨fun ks' hks hlive hlt => (h.raw ks' hks hlive hlt).fades hw hfades (hX ks' hks hlive),
    fun ks' hks hlive => (h.kept ks' hks hlive).fades hfades (hX ks' hks hlive)⟩

/-- The entry of `pd_wb` of a block of a tree that can be released. -/
theorem Releasable.pending_iff (h : Releasable w s₀ iv key r ks s) (hinv : s₀.TreeInv w raw)
    (hlive : s₀.Live r ks) :
    s.pdWb.find (s₀.blockAt r ks) ≠ none ↔ s₀.FreesDid s.bcac (s₀.blockAt r ks) :=
  (h.kept ks (List.suffix_refl _) hlive).pending_iff (hinv.ok.not_deleted _) (hinv.ok.filled _)
    (hinv.dataStart_le hlive)

/-- The blocks under different slots are different. -/
theorem not_mem_subtree (hinv : s₀.TreeInv w raw) {j : ℕ} (hne : k ≠ j) {ks' : List ℕ}
    (hks : k :: ks <:+ ks') (hlive : s₀.Live r ks') : s₀.blockAt r ks' ∉ s₀.subtree r
      (j :: ks) := by
  rintro ⟨ks'', hks'', hlive'', heq⟩
  have hplace := (Prod.mk.inj (hinv.disjoint r ks' r ks'' hlive hlive'' heq)).2
  exact hne (Forest.slot_unique hks (hplace ▸ hks''))

/-- A block is not one of those under its slots. -/
theorem self_not_mem_subtree (hinv : s₀.TreeInv w raw) (hlive : s₀.Live r ks) :
    s₀.blockAt r ks ∉ s₀.subtree r (k :: ks) := by
  rintro ⟨ks', hks', hlive', heq⟩
  have hplace := (Prod.mk.inj (hinv.disjoint r ks r ks' hlive hlive' heq)).2
  have hlen := hks'.length_le
  rw [← hplace, List.length_cons] at hlen
  omega

/-- The blocks below a child are below its parent. -/
theorem subtree_cons_subset : s₀.subtree r (k :: ks) ⊆ s₀.subtree r ks := by
  rintro b ⟨ks', hks', hlive, rfl⟩
  exact ⟨ks', (List.suffix_cons k ks).trans hks', hlive, rfl⟩

/-- What the walk does under one slot, where the blocks are `n` levels deep. -/
def FreesSlot (w : World) (E : Halt → Prop) (s₀ : Sys) (iv key : Key128) (r : RootSlot)
    (n : ℕ) (free : ℕ → Exec Halt (Sys × FreeLog) Unit) (ks : List ℕ) : Prop :=
  ∀ s log (Q : Unit → Sys × FreeLog → Prop), s.BcacSafe → s.MetaInv w →
    Releasable w s₀ iv key r ks s →
    (¬s₀.Fits (s₀.uses r n ks) s → E .nodeLost ∧ E .nullDeref) →
    (∀ s', Calm w (s₀.subtree r ks ∪ bitmapBlocks) s s' → s₀.Follows (s₀.uses r n ks) s s' →
      Q () (s', log ++ (s₀.forest.postorder treeShape r n ks).map (s₀.freeCall r))) →
    Exec.Wp (free (s₀.blockAt r ks)) Q E (s, log)

/-- The loop over the last slots of an index block. -/
theorem wp_loggedFreeFrom (hw : w.Honest) (hinv : s₀.TreeInv w raw) (hlive : s₀.Live r ks)
    (hheight : ks.length < treeShape.height r) {free : ℕ → Exec Halt (Sys × FreeLog) Unit}
    (hfree : ∀ k, s₀.Live r (k :: ks) → FreesSlot w E s₀ iv key r n free (k :: ks)) {m : ℕ}
    (hm : m ≤ indexPerBlock) (hs : s.BcacSafe) (hmeta : s.MetaInv w)
    (hshows : idxp.Shows s (s₀.blockAt r ks) (s₀.spot (s₀.blockAt r ks)).data)
    (hgood : ∀ k, indexPerBlock - m ≤ k → s₀.Live r (k :: ks) →
      Releasable w s₀ iv key r (k :: ks) s)
    {uses : List CacheUse}
    (huses : uses = s₀.slotUses r ks (s₀.uses r n)
      ((List.range indexPerBlock).drop (indexPerBlock - m)))
    (hE : ¬s₀.Fits uses s → E .nodeLost ∧ E .nullDeref) {Q : Unit → Sys × FreeLog → Prop}
    (hQ : ∀ s', Calm w ({b | ∃ k, b ∈ s₀.subtree r (k :: ks)} ∪ bitmapBlocks) s s' →
      s₀.Follows uses s s' → Q ()
        (s', log ++ (((List.range indexPerBlock).drop (indexPerBlock - m)).flatMap fun k =>
        if s₀.forest.block treeShape r (k :: ks) ≠ 0 then s₀.forest.postorder treeShape r n
          (k :: ks)
        else []).map (s₀.freeCall r))) :
    Exec.Wp (loggedFreeFrom idxp free m) Q E (s, log) := by
  induction m generalizing s log uses with
  | zero =>
    rw [Nat.sub_zero, List.drop_eq_nil_of_le (by simp)] at huses
    subst huses
    have hdone := hQ s (.refl hs hmeta) (.nil (.refl _))
    rwa [Nat.sub_zero, List.drop_eq_nil_of_le (by simp), List.flatMap_nil, List.map_nil,
      List.append_nil] at hdone
  | succ m ih =>
    have hk : indexPerBlock - (m + 1) < indexPerBlock := by
      simp only [indexPerBlock] at hm ⊢
      omega
    have hnext : indexPerBlock - (m + 1) + 1 = indexPerBlock - m := by omega
    have hdrop : (List.range indexPerBlock).drop (indexPerBlock - (m + 1)) =
        (indexPerBlock - (m + 1)) :: (List.range indexPerBlock).drop (indexPerBlock - m) := by
      rw [List.drop_eq_getElem_cons (by simpa using hk), List.getElem_range, hnext]
    generalize hkm : indexPerBlock - (m + 1) = k at hk hnext hdrop hgood hQ huses
    rw [hdrop, List.flatMap_cons] at hQ
    rw [hdrop, Sys.slotUses, List.flatMap_cons] at huses
    subst huses
    -- The loop goes on after the slot.
    have hrest : ∀ s₁ log₁, Calm w (s₀.subtree r (k :: ks) ∪ bitmapBlocks) s s₁ →
        s₀.Follows (if s₀.blockAt r (k :: ks) ≠ 0 then s₀.uses r n (k :: ks) else []) s s₁ →
        log₁ = log ++ (if s₀.forest.block treeShape r (k :: ks) ≠ 0 then
          s₀.forest.postorder treeShape r n (k :: ks) else []).map (s₀.freeCall r) →
        Exec.Wp (loggedFreeFrom idxp free m) Q E (s₁, log₁) := by
      rintro s₁ _ hcalm hfollows rfl
      have hbitmap : ∀ ks', s₀.Live r ks' → s₀.blockAt r ks' ∉ bitmapBlocks := fun ks' hl =>
        not_mem_bitmapBlocks (hinv.dataStart_le hl)
      have hself : s₀.blockAt r ks ∉ s₀.subtree r (k :: ks) ∪ bitmapBlocks := fun hmem =>
        hmem.elim (self_not_mem_subtree hinv hlive) (hbitmap ks hlive)
      refine ih (by omega) hcalm.safe hcalm.metaInv (hshows.calm hcalm hself)
        (fun j hj hlive' => ?_) rfl (fun hno => hE ?_) fun s' hcalm' hfollows' => ?_
      · refine (hgood j (by omega) hlive').fades hw hcalm.fades fun ks' hks' hl hmem => ?_
        have hne : j ≠ k := by omega
        exact hmem.elim (not_mem_subtree hinv hne hks' hl) (hbitmap ks' hl)
      · exact mt (hfollows.fits_iff hs.keyed hcalm.safe.keyed).mp hno
      · rw [List.append_assoc, ← List.map_append]
        refine hQ s' ((hcalm.trans hcalm').mono ?_)
          (hfollows.append hs.keyed hcalm.safe.keyed hfollows')
        rintro b ((hb | hb) | hb)
        · exact Or.inl ⟨k, hb⟩
        · exact Or.inr hb
        · exact hb
    refine Exec.wp_bind.mpr (Exec.wp_ghost.mpr (wp_rawData hs hshows ?_))
    rw [hkm]
    refine Exec.wp_bind.mpr (Exec.wp_when.mpr ⟨fun hne => ?_, fun hzero => ?_⟩)
    · have hne' : s₀.blockAt r (k :: ks) ≠ 0 := hne
      have hlive' : s₀.Live r (k :: ks) := ⟨hlive, hheight, hk, hne⟩
      rw [if_pos hne'] at hE
      refine hfree k hlive' s log _ hs hmeta (hgood k le_rfl hlive')
        (fun hno => hE (mt Sys.Fits.left hno)) fun s₁ hcalm hfollows => ?_
      exact hrest s₁ _ hcalm (by rwa [if_pos hne'])
        (by rw [if_pos (show s₀.forest.block treeShape r (k :: ks) ≠ 0 from hne)])
    · have hzero' : ¬s₀.blockAt r (k :: ks) ≠ 0 := hzero
      exact hrest s log (.refl hs hmeta) (by rw [if_neg hzero']; exact .nil (.refl _)) (by
        rw [if_neg (show ¬s₀.forest.block treeShape r (k :: ks) ≠ 0 from hzero), List.map_nil,
          List.append_nil])

/-- A logged call of `block_free`. -/
theorem wp_loggedFree (hw : w.Honest) (hs : s.BcacSafe) (hmeta : s.MetaInv w) {b : ℕ}
    (hused : s₀.UsedBlock b) (hpending : s.pdWb.find b ≠ none ↔ s₀.FreesDid s.bcac b)
    {setzero : Bool} {Q : Unit → Sys × FreeLog → Prop}
    (hQ : ∀ s', Calm w ({b} ∪ bitmapBlocks) s s' → s₀.Follows [.free b] s s' →
      Q () (s', log ++ [(b, setzero)]))
    (hE : ¬s₀.Fits [.free b] s → E .nodeLost ∧ E .nullDeref) :
    Exec.Wp (loggedFree w b setzero) Q E (s, log) := by
  obtain ⟨did, hdid, hb⟩ := hused
  have hlt : did < 16777216 := hdid.1
  simp only [loggedFree, Exec.wp_bind, Exec.wp_note, Exec.wp_ghost, Exec.wp_pure]
  apply wp_blockFree hw hs hmeta hlt hb hpending _ hE
  intro _ s' hcalm hfollows
  exact hQ s' hcalm hfollows

/-- The walk under a slot that points at a data block. -/
theorem freesSlot_leaf (hw : w.Honest) (hinv : s₀.TreeInv w raw) (hlive : s₀.Live r ks)
    (hleaf : IsLeaf r ks) :
    FreesSlot w E s₀ iv key r 0 (fun child => loggedFree w child false) ks := by
  intro s log Q hs hmeta hgood hE hQ
  refine wp_loggedFree hw hs hmeta (hinv.used r ks hlive) (hgood.pending_iff hinv hlive)
    (fun s' hcalm hfollows => ?_) hE
  have hcall : s₀.freeCall r ks = (s₀.blockAt r ks, false) := by
    rw [Sys.freeCall, decide_eq_false (Nat.not_lt.mpr hleaf.ge)]
  rw [← hcall]
  refine hQ s' (hcalm.mono (Set.union_subset_union_left _ ?_)) hfollows
  rintro b rfl
  exact ⟨ks, List.suffix_refl _, hlive, rfl⟩

/-- The walk of one index block. -/
theorem freesSlot_index (hw : w.Honest) (hinv : s₀.TreeInv w raw) (hlive : s₀.Live r ks)
    (hheight : ks.length < treeShape.height r) {free : ℕ → Exec Halt (Sys × FreeLog) Unit}
    (hfree : ∀ k, s₀.Live r (k :: ks) → FreesSlot w E s₀ iv key r n free (k :: ks)) :
    FreesSlot w E s₀ iv key r (n + 1) (fun b => loggedFreeIndex w b iv key free) ks := by
  intro s log Q hs hmeta hgood hE hQ
  have hle := hinv.dataStart_le hlive
  have hself := hgood.raw ks (List.suffix_refl _) hlive hheight
  have hcall : s₀.freeCall r ks = (s₀.blockAt r ks, true) := by
    rw [Sys.freeCall, decide_eq_true hheight]
  have hout : ∀ k ks', k :: ks <:+ ks' → s₀.Live r ks' →
    s₀.blockAt r ks' ∉ ({s₀.blockAt r ks} : Set ℕ) := by
    rintro k ks' hks' hlive' heq
    exact self_not_mem_subtree (k := k) hinv hlive ⟨ks', hks', hlive', heq.symm⟩
  have hself' : s₀.blockAt r ks ∉ {b | ∃ k, b ∈ s₀.subtree r (k :: ks)} ∪ bitmapBlocks := by
    rintro (⟨k, hb⟩ | hb)
    · exact self_not_mem_subtree hinv hlive hb
    · exact not_mem_bitmapBlocks hle hb
  have hmetaStays : ∀ {s₁ s₂ : Sys}, s₁.BcacSafe → s₁.MetaInv w →
      Fades w {s₀.blockAt r ks} [] s₁ s₂ → s₂.MetaInv w := by
    intro s₁ s₂ hs₁ hmeta₁ hfades
    refine hmeta₁.fades hw hs₁ hfades ?_
    rintro b rfl _ hlt
    exact absurd hle (Nat.not_le.mpr hlt)
  -- The loop, and the end after the block was given back.
  have hloop : ∀ idxp s₁, s₁.BcacSafe → Fades w {s₀.blockAt r ks} [] s s₁ →
      s₀.Follows [.hold (s₀.blockAt r ks)] s s₁ →
      RawBlock.Shows s₁ (s₀.blockAt r ks) (s₀.spot (s₀.blockAt r ks)).data idxp →
      (∀ s₂, Calm w ({b | ∃ k, b ∈ s₀.subtree r (k :: ks)} ∪ bitmapBlocks) s₁ s₂ →
        Exec.Wp (breturnRaw w (s₀.blockAt r ks) idxp) (fun _ s₃ => s₃.BcacSafe ∧
          Fades w {s₀.blockAt r ks} [] s₂ s₃ ∧ s₀.Follows [.release (s₀.blockAt r ks)] s₂ s₃ ∧
          (s₃.pdWb.find (s₀.blockAt r ks) ≠ none ↔ s₀.FreesDid s₃.bcac (s₀.blockAt r ks))) E s₂) →
      Exec.Wp (do
        loggedFreeFrom idxp free indexPerBlock
        Exec.ghost (breturnRaw w (s₀.blockAt r ks) idxp)
        loggedFree w (s₀.blockAt r ks) true) Q E (s₁, log) := by
    intro idxp s₁ hs₁ hfades₁ hhold hshows hreturn
    have hmeta₁ := hmetaStays hs hmeta hfades₁
    refine Exec.wp_bind.mpr (wp_loggedFreeFrom hw hinv hlive hheight hfree le_rfl hs₁ hmeta₁ hshows
      (fun k _ hlive' => ?_) rfl (fun hno => hE fun hfits => hno ?_) fun s₂ hcalm hslots => ?_)
    · exact (hgood.mono (List.suffix_cons k ks)).fades hw hfades₁ (hout k)
    · rw [Nat.sub_self, List.drop_zero]
      exact Sys.Fits.left ((hhold.fits_iff hs.keyed hs₁.keyed).mp hfits)
    · rw [Nat.sub_self, List.drop_zero] at hslots
      refine Exec.wp_bind.mpr (Exec.wp_ghost.mpr ((hreturn s₂ hcalm).imp ?_))
      rintro _ s₃ ⟨hs₃, hfades₃, hrelease, hpending⟩
      have hk₁ := hs₁.keyed
      have hk₂ := hcalm.safe.keyed
      refine wp_loggedFree hw hs₃ (hmetaStays hcalm.safe hcalm.metaInv hfades₃)
        (hinv.used r ks hlive)
        hpending (fun s₄ hcalm₄ hfreed => ?_) fun hno => hE fun hfits => hno ?_
      · have hdone := hQ s₄ ⟨hcalm₄.safe, hcalm₄.metaInv,
          (((hfades₁.trans hcalm.fades).trans hfades₃).trans hcalm₄.fades).mono ?_⟩
          (hhold.append hs.keyed hk₁ (hslots.append hk₁ hk₂ (hrelease.append hk₂ hs₃.keyed hfreed)))
        · rw [Forest.postorder, List.map_append, List.map_singleton, hcall] at hdone
          rw [Nat.sub_self, List.drop_zero, List.append_assoc]
          exact hdone
        · have hmem : s₀.blockAt r ks ∈ s₀.subtree r ks := ⟨ks, List.suffix_refl _, hlive, rfl⟩
          rintro b (((rfl | ⟨k, hb⟩ | hb) | rfl) | rfl | hb)
          · exact Or.inl hmem
          · exact Or.inl (subtree_cons_subset hb)
          · exact Or.inr hb
          · exact Or.inl hmem
          · exact Or.inl hmem
          · exact Or.inr hb
      · have hrest := (hslots.fits_iff hk₁ hk₂).mp ((hhold.fits_iff hs.keyed hk₁).mp hfits)
        exact (hrelease.fits_iff hk₂ hs₃.keyed).mp hrest
  refine Exec.wp_bind.mpr (Exec.wp_ghost.mpr (wp_bgetRaw hw hs hle hself ?_ ?_ fun hno =>
    (hE (mt Sys.Fits.left hno)).1))
  · intro node block s₁ hs₁ hfades₁ hn hholds hcontent hdata hspot hhold
    have hn₁ : (s₁.spot (s₀.blockAt r ks)).node = some node.take := by rw [hspot]
    refine hloop _ s₁ hs₁ hfades₁ hhold
      ⟨node.take, block, hn₁, rfl, Nat.succ_ne_zero _, hcontent, hdata⟩
      fun s₂ hcalm => ?_
    have hspot₂ := hcalm.fades.spot_of_held hself' (by simp [Spot.refs, hn₁, Node.take])
    refine wp_breturnRaw_cached s₀ hcalm.safe (hspot₂ ▸ hn₁) hholds hcontent
      fun s₃ hquiet hpending hcached hrelease => ?_
    refine ⟨hquiet.safe, hquiet.fades, hrelease, ?_⟩
    -- The cached block was not written back before it was held.
    have hstart : s.spot (s₀.blockAt r ks) = s₀.spot (s₀.blockAt r ks) := by
      refine (hgood.kept ks (List.suffix_refl _) hlive).resolve_right fun hfreed => ?_
      rw [hfreed, Spot.node_discard] at hn
      cases hn
    have hpending₃ : s₃.pdWb.find (s₀.blockAt r ks) = s₀.pdWb.find (s₀.blockAt r ks) := by
      change (s₃.spot (s₀.blockAt r ks)).pending = (s₀.spot (s₀.blockAt r ks)).pending
      rw [hpending, hspot₂, hspot, hstart]
    rw [hpending₃]
    exact (or_iff_left fun h => hcached h.2).symm
  · intro s₁ hs₁ hfades₁ hn₁ hhold
    refine hloop _ s₁ hs₁ (hfades₁.mono (Set.empty_subset _)) hhold rfl fun s₂ hcalm => ?_
    have hkept := ((hgood.kept ks (List.suffix_refl _) hlive).fades hfades₁
      (Set.notMem_empty _)).fades hcalm.fades hself'
    have hn₂ : s₂.bcac.node (s₀.blockAt r ks) = none := by
      cases hnode : s₂.bcac.node (s₀.blockAt r ks) with
      | none => rfl
      | some m => exact absurd (hcalm.fades.node_eq hself' hnode) (by simp [show
          s₁.bcac.node (s₀.blockAt r ks) = none from hn₁])
    refine ⟨hcalm.safe, .refl s₂, ⟨_, rfl, ?_⟩, hkept.pending_iff (hinv.ok.not_deleted _)
      (hinv.ok.filled _) hle⟩
    rw [Cache.release, Cache.onNode, hn₂]
    exact .refl _

/-- The walk under a slot that points at an index block. -/
theorem freesSlot_recursive (hw : w.Honest) (hinv : s₀.TreeInv w raw) (hlive : s₀.Live r ks)
    (hheight : ks.length + (n + 1) = treeShape.height r) :
    FreesSlot w E s₀ iv key r (n + 1) (loggedFreeRecursive w iv key (n + 1)) ks := by
  induction n generalizing ks with
  | zero =>
    refine freesSlot_index hw hinv hlive (by omega) fun k hlive' => ?_
    refine freesSlot_leaf hw hinv hlive' ?_
    rw [IsLeaf, List.length_cons]
    omega
  | succ n ih =>
    have hchild : (fun child => if n + 1 + 1 ≤ 1 then loggedFree w child false
        else loggedFreeRecursive w iv key (n + 1) child) = loggedFreeRecursive w iv key (n + 1) :=
      funext fun _ => if_neg (by omega)
    have hih : ∀ k, s₀.Live r (k :: ks) →
        FreesSlot w E s₀ iv key r (n + 1) (loggedFreeRecursive w iv key (n + 1)) (k :: ks) := by
      intro k hlive'
      refine ih hlive' ?_
      rw [List.length_cons]
      omega
    have hindex := freesSlot_index hw hinv hlive (by omega) hih
    rw [← hchild] at hindex
    exact hindex

/-! ## The roots -/

/-- The blocks under some root slots. -/
def Sys.subtrees (s : Sys) (roots : List RootSlot) : Set ℕ := {b | ∃ r ∈ roots, b ∈ s.subtree r []}

/-- The calls of `block_free` on the blocks under some root slots. -/
def Sys.freeCalls (s : Sys) (roots : List RootSlot) : FreeLog :=
  (s.forest.walk treeShape roots).map fun p => s.freeCall p.1 p.2

/-- What the release of the blocks under some root slots does with the block cache. -/
def Sys.rootUses (s : Sys) (roots : List RootSlot) : List CacheUse :=
  roots.flatMap fun r => if s.blockAt r [] ≠ 0 then s.uses r (treeShape.height r) [] else []

/-- What a part of the release does with the blocks under some root slots. -/
def FreesRoots (w : World) (E : Halt → Prop) (s₀ : Sys) (iv key : Key128) (roots : List RootSlot)
    (x : Exec Halt (Sys × FreeLog) Unit) : Prop :=
  ∀ s log (Q : Unit → Sys × FreeLog → Prop), s.BcacSafe → s.MetaInv w →
    (∀ r ∈ roots, s₀.Live r [] → Releasable w s₀ iv key r [] s) →
    (¬s₀.Fits (s₀.rootUses roots) s → E .nodeLost ∧ E .nullDeref) →
    (∀ s', Calm w (s₀.subtrees roots ∪ bitmapBlocks) s s' → s₀.Follows (s₀.rootUses roots) s s' →
      Q () (s', log ++ s₀.freeCalls roots)) →
    Exec.Wp x Q E (s, log)

/-- The uses for two lists of root slots come one after the other. -/
theorem rootUses_append {roots roots' : List RootSlot} :
    s₀.rootUses (roots ++ roots') = s₀.rootUses roots ++ s₀.rootUses roots' := List.flatMap_append

/-- The calls of `block_free` for two lists of root slots come one after the other. -/
theorem freeCalls_append {roots roots' : List RootSlot} :
    s₀.freeCalls (roots ++ roots') = s₀.freeCalls roots ++ s₀.freeCalls roots' := by
  rw [Sys.freeCalls, Forest.walk, List.flatMap_append, List.map_append]
  rfl

/-- The blocks under different root slots are different. -/
theorem not_mem_subtrees (hinv : s₀.TreeInv w raw) {roots : List RootSlot} (hr : r ∉ roots)
    (hlive : s₀.Live r ks) : s₀.blockAt r ks ∉ s₀.subtrees roots := by
  rintro ⟨r', hmem, ks', _, hlive', heq⟩
  obtain ⟨rfl, _⟩ := Prod.mk.inj (hinv.disjoint r ks r' ks' hlive hlive' heq)
  exact hr hmem

/-- One part of the release after the other. -/
theorem FreesRoots.append (hw : w.Honest) (hinv : s₀.TreeInv w raw) {roots roots' : List RootSlot}
    {x y : Exec Halt (Sys × FreeLog) Unit} (hx : FreesRoots w E s₀ iv key roots x)
    (hy : FreesRoots w E s₀ iv key roots' y) (hdisjoint : roots.Disjoint roots') :
    FreesRoots w E s₀ iv key (roots ++ roots') (x >>= fun _ => y) := by
  intro s log Q hs hmeta hgood hE hQ
  have hleft := fun r (hr : r ∈ roots) => hgood r (List.mem_append_left roots' hr)
  rw [rootUses_append] at hE hQ
  refine Exec.wp_bind.mpr (hx s log _ hs hmeta hleft (fun hno => hE (mt Sys.Fits.left hno))
    fun s₁ hcalm hfollows => ?_)
  have hk₁ := hcalm.safe.keyed
  refine hy s₁ _ Q hcalm.safe hcalm.metaInv (fun r hr hlive => ?_)
    (fun hno => hE (mt (hfollows.fits_iff hs.keyed hk₁).mp hno)) fun s₂ hcalm' hfollows' => ?_
  · have hr' : r ∉ roots := fun hmem => hdisjoint hmem hr
    refine (hgood r (List.mem_append_right roots hr) hlive).fades hw hcalm.fades ?_
    rintro ks' - hlive' (hmem | hmem)
    · exact not_mem_subtrees hinv hr' hlive' hmem
    · exact not_mem_bitmapBlocks (hinv.dataStart_le hlive') hmem
  · rw [List.append_assoc, ← freeCalls_append]
    refine hQ s₂ ((hcalm.trans hcalm').mono ?_) (hfollows.append hs.keyed hk₁ hfollows')
    rintro b ((⟨r, hr, hb⟩ | hb) | ⟨r, hr, hb⟩ | hb)
    · exact Or.inl ⟨r, List.mem_append_left roots' hr, hb⟩
    · exact Or.inr hb
    · exact Or.inl ⟨r, List.mem_append_right roots hr, hb⟩
    · exact Or.inr hb

/-- The release of the blocks under one root slot. -/
theorem freesRoots_singleton (hisRoot : s₀.forest.isRoot r)
    (free : ℕ → Exec Halt (Sys × FreeLog) Unit)
    (hfree : s₀.Live r [] → FreesSlot w E s₀ iv key r (treeShape.height r) free []) :
    FreesRoots w E s₀ iv key [r] (Exec.when (s₀.blockAt r [] ≠ 0) (free (s₀.blockAt r []))) := by
  intro s log Q hs hmeta hgood hE hQ
  have hcalls : s₀.freeCalls [r] = (if s₀.blockAt r [] ≠ 0 then
      (s₀.forest.postorder treeShape r (treeShape.height r) []).map (s₀.freeCall r) else []) := by
    rw [Sys.freeCalls, Forest.walk, List.flatMap_cons, List.flatMap_nil, List.append_nil]
    by_cases hne : s₀.forest.block treeShape r [] ≠ 0
    · rw [if_pos hne, if_pos (show s₀.blockAt r [] ≠ 0 from hne), List.map_map]
      rfl
    · rw [if_neg hne, if_neg (show ¬s₀.blockAt r [] ≠ 0 from hne), List.map_nil]
  have huses : s₀.rootUses [r] =
      if s₀.blockAt r [] ≠ 0 then s₀.uses r (treeShape.height r) [] else [] := by
    rw [Sys.rootUses, List.flatMap_cons, List.flatMap_nil, List.append_nil]
  refine Exec.wp_when.mpr ⟨fun hne => ?_, fun hzero => ?_⟩
  · have hlive : s₀.Live r [] := ⟨hisRoot, hne⟩
    rw [if_pos hne] at hcalls huses
    rw [huses] at hE hQ
    refine hfree hlive s log Q hs hmeta (hgood r (List.mem_singleton_self r) hlive) hE
      fun s' hcalm hfollows => ?_
    rw [← hcalls]
    refine hQ s' (hcalm.mono (Set.union_subset_union_left _ fun b hb => ?_)) hfollows
    exact ⟨r, List.mem_singleton_self r, hb⟩
  · rw [if_neg hzero] at hcalls huses
    have hdone := hQ s (.refl hs hmeta) (by rw [huses]; exact .nil (.refl _))
    rwa [hcalls, List.append_nil] at hdone

/-- Root slots of an inode. -/
def slotsOf (iid : ℕ) (l : List ℕ) : List RootSlot := l.map fun i => (iid, rootSlot i)

/-- The slots of two lists come one after the other. -/
theorem slotsOf_append {iid : ℕ} {l l' : List ℕ} :
    slotsOf iid (l ++ l') = slotsOf iid l ++ slotsOf iid l' := List.map_append

/-- Lists without a common number have no common slot. -/
theorem disjoint_slotsOf {iid : ℕ} {l l' : List ℕ} (hl : ∀ i ∈ l, i < 13) (hl' : ∀ i ∈ l', i < 13)
    (h : ∀ i ∈ l, i ∉ l') : (slotsOf iid l).Disjoint (slotsOf iid l') := by
  intro r hr hr'
  obtain ⟨i, hi, rfl⟩ := List.mem_map.mp hr
  obtain ⟨j, hj, heq⟩ := List.mem_map.mp hr'
  have hval := congrArg (fun p : RootSlot => p.2.val) heq
  simp only [rootSlot_val (hl i hi), rootSlot_val (hl' j hj)] at hval
  exact h i hi (hval ▸ hj)

/-- The first block under a root slot. -/
theorem blockAt_nil {iid : ℕ} {inode : Inode} (h : s₀.inodeOf iid = some inode) (i : ℕ) :
    s₀.blockAt (iid, rootSlot i) [] = inode.bid (rootSlot i) := by
  rw [Sys.blockAt_eq, Sys.slotAt_nil h]
  rfl

section

variable {iid : ℕ} {inode : Inode}

/-- The blocks of the direct slots. -/
theorem freesRoots_direct (hw : w.Honest) (hinv : s₀.TreeInv w raw)
    (hinode : s₀.inodeOf iid = some inode) (hn : n ≤ ndirect) :
    FreesRoots w E s₀ iv key (slotsOf iid ((List.range ndirect).drop (ndirect - n)))
      (loggedFreeDirect w inode n) := by
  have hroot : ∀ i, s₀.forest.isRoot (iid, rootSlot i) := by
    intro i
    simp [Sys.forest, hinode]
  induction n with
  | zero =>
    intro s log Q hs hmeta _ _ hQ
    rw [Nat.sub_zero, List.drop_eq_nil_of_le (by simp)] at hQ
    have hdone := hQ s (.refl hs hmeta) (.nil (.refl _))
    rwa [show s₀.freeCalls (slotsOf iid []) = [] from rfl, List.append_nil] at hdone
  | succ n ih =>
    have hi : ndirect - (n + 1) < ndirect := by
      simp only [ndirect] at hn ⊢
      omega
    have hnext : ndirect - (n + 1) + 1 = ndirect - n := by omega
    have hdrop : (List.range ndirect).drop (ndirect - (n + 1)) =
        [ndirect - (n + 1)] ++ (List.range ndirect).drop (ndirect - n) := by
      rw [List.drop_eq_getElem_cons (by simpa using hi), List.getElem_range, hnext]
      rfl
    rw [hdrop, slotsOf_append]
    have hlt : ∀ j ∈ (List.range ndirect).drop (ndirect - n), j < 13 := by
      intro j hj
      have hmem := List.mem_range.mp (List.mem_of_mem_drop hj)
      simp only [ndirect] at hmem
      omega
    have hone : FreesRoots w E s₀ iv key (slotsOf iid [ndirect - (n + 1)])
        (Exec.when (inode.bid (rootSlot (ndirect - (n + 1))) ≠ 0)
          (loggedFree w (inode.bid (rootSlot (ndirect - (n + 1)))) false)) := by
      rw [← blockAt_nil hinode]
      refine freesRoots_singleton (hroot _) (fun b => loggedFree w b false) fun hlive => ?_
      have hheight : treeShape.height (iid, rootSlot (ndirect - (n + 1))) = 0 := by
        have hval : (rootSlot (ndirect - (n + 1))).val = ndirect - (n + 1) := by
          apply rootSlot_val
          simp only [ndirect] at hi ⊢
          omega
        simp only [treeShape, hval]
        simp only [ndirect] at hi ⊢
        omega
      rw [hheight]
      exact freesSlot_leaf hw hinv hlive hheight.symm
    refine hone.append hw hinv (ih (by omega)) (disjoint_slotsOf (fun j hj => ?_) hlt ?_)
    · rw [List.mem_singleton.mp hj]
      simp only [ndirect] at hi ⊢
      omega
    · have hnodup := (List.nodup_range (n := ndirect)).sublist
        (List.drop_sublist (ndirect - (n + 1)) _)
      rw [hdrop] at hnodup
      exact fun i hi hmem => List.disjoint_of_nodup_append hnodup hi hmem

/-- The blocks of an index slot. -/
theorem freesRoots_root (hw : w.Honest) (hinv : s₀.TreeInv w raw)
    (hinode : s₀.inodeOf iid = some inode) {level : ℕ} (hlevel : level < 3) :
    FreesRoots w E s₀ inode.aesIv inode.aesKey (slotsOf iid [ndirect + level])
      (loggedFreeRoot w inode (ndirect + level) (level + 1)) := by
  have hroot : s₀.forest.isRoot (iid, rootSlot (ndirect + level)) := by
    simp [Sys.forest, hinode]
  have hheight : treeShape.height (iid, rootSlot (ndirect + level)) = level + 1 := by
    have hval : (rootSlot (ndirect + level)).val = ndirect + level := by
      apply rootSlot_val
      simp only [ndirect]
      omega
    simp only [treeShape, hval]
    simp only [ndirect]
    omega
  rw [loggedFreeRoot, ← blockAt_nil hinode]
  refine freesRoots_singleton hroot (loggedFreeRecursive w inode.aesIv inode.aesKey (level + 1))
    fun hlive => ?_
  rw [hheight]
  exact freesSlot_recursive hw hinv hlive (by rw [hheight, List.length_nil, Nat.zero_add])

/-- All root slots of an inode. -/
def rootsOf (iid : ℕ) : List RootSlot := slotsOf iid (List.range 13)

/-- The walks of the release, one after the other. -/
theorem freesRoots_all (hw : w.Honest) (hinv : s₀.TreeInv w raw)
    (hinode : s₀.inodeOf iid = some inode) :
    FreesRoots w E s₀ inode.aesIv inode.aesKey (rootsOf iid) (do
      loggedFreeDirect w inode ndirect
      loggedFreeRoot w inode ndirect 1
      loggedFreeRoot w inode (ndirect + 1) 2
      loggedFreeRoot w inode (ndirect + 2) 3) := by
  have hdirect : FreesRoots w E s₀ inode.aesIv inode.aesKey (slotsOf iid (List.range ndirect))
      (loggedFreeDirect w inode ndirect) := freesRoots_direct hw hinv hinode (le_refl ndirect)
  have hroot : ∀ level < 3, FreesRoots w E s₀ inode.aesIv inode.aesKey
    (slotsOf iid [ndirect + level])
      (loggedFreeRoot w inode (ndirect + level) (level + 1)) :=
    fun level hlevel => freesRoots_root hw hinv hinode hlevel
  have hdisjoint : ∀ l l' : List ℕ, (∀ i ∈ l, i < 13) → (∀ i ∈ l', i < 13) → (∀ i ∈ l, i ∉ l') →
      (slotsOf iid l).Disjoint (slotsOf iid l') := fun _ _ hl hl' => disjoint_slotsOf hl hl'
  have hlast := (hroot 1 (by decide)).append hw hinv (hroot 2 (by decide))
    (hdisjoint [11] [12] (by decide) (by decide) (by decide))
  have hindex := (hroot 0 (by decide)).append hw hinv hlast
    (hdisjoint [10] [11, 12] (by decide) (by decide) (by decide))
  have hall := hdirect.append hw hinv hindex
    (hdisjoint (List.range 10) [10, 11, 12] (by decide) (by decide) (by decide))
  exact hall

end

/-! ## Room for a release -/

/-- The uses under a place take no more than one reference at each level. -/
theorem manages_uses {s : Sys} : s.Manages n (s.uses r n ks) := by
  induction n generalizing ks with
  | zero => exact manages_free
  | succ n ih =>
    have hslots : s.Manages n (s.slotUses r ks (s.uses r n) (List.range indexPerBlock)) := by
      refine .flatMap fun k _ => ?_
      split_ifs
      · exact ih
      · exact .nil
    have hheld := hslots.held (s.blockAt r ks)
    have hfree : s.Manages (n + 1) [.free (s.blockAt r ks)] := manages_free
    have hdone := hheld.append hfree
    simp only [List.append_assoc] at hdone
    exact hdone

/-- There is room for the uses under root slots when three more blocks could be held. -/
theorem manages_rootUses {s : Sys} (roots : List RootSlot) : s.Manages 3 (s.rootUses roots) := by
  refine .flatMap fun r _ => ?_
  split_ifs
  · exact manages_uses.mono (height_le r)
  · exact .nil

end

end Efs
