import Efs.HashTree
import Efs.InodeFetch

/-!
# Runs on the inode store

Fetches of inodes, changes of them and evictions from both caches in any order behave as
reads and writes of one record for each inode number. When the inode cache is closed and
the block cache is flushed, the disk has the records.
-/

namespace Efs

open Library

/-! ## Caches taken apart -/

section

variable {α : Type}

/-- A cache from which the nodes of a list were taken one by one. -/
inductive Peels : Cache α → List (Node α) → Cache α → Prop
  | nil (c : Cache α) : Peels c [] c
  | cons {c c' c₀ : Cache α} {d : Node α} {rest : List (Node α)} (hkeyed : c'.Keyed)
      (hperm : c.nodes.Perm (d :: c'.nodes)) (hrest : Peels c' rest c₀) : Peels c (d :: rest) c₀

variable {c : Cache α} {d : Node α} {id : ℕ}

/-- A queue without its first node. -/
theorem Queue.WF.tail {q : Queue α} {rest : List (Node α)} (h : q.WF)
    (hnodes : q.nodes = d :: rest) : (⟨rest, rest.length⟩ : Queue α).WF := by
  have hlen := h.len_eq
  have hle := h.len_le
  have hnodup := h.ids_nodup
  rw [hnodes] at hlen hnodup
  rw [List.length_cons] at hlen
  refine ⟨rfl, ?_, (List.nodup_cons.mp hnodup).2⟩
  change rest.length ≤ queueMaxLen
  omega

/-- The nodes of the fifo are taken out one by one. -/
theorem Cache.Keyed.peels_fifo {rest : List (Node α)} (h : c.Keyed) (hrest : c.fifo.nodes = rest) :
    ∃ c₀ : Cache α, c₀.Keyed ∧ c₀.fifo.nodes = [] ∧ c₀.lru = c.lru ∧ Peels c rest c₀ := by
  induction rest generalizing c with
  | nil => exact ⟨c, h, hrest, rfl, .nil c⟩
  | cons d rest ih =>
    have hperm : c.nodes.Perm
        (d :: ({ c with fifo := ⟨rest, rest.length⟩ } : Cache α).nodes) := by
      simp only [Cache.nodes, hrest]
      exact List.perm_middle
    have hkeyed : ({ c with fifo := ⟨rest, rest.length⟩ } : Cache α).Keyed := by
      apply And.left
      exact h.of_evict (h.wf.fifo.tail hrest) h.wf.lru hperm rfl rfl
    obtain ⟨c₀, hc₀, hfifo, hlru, hpeels⟩ := ih hkeyed rfl
    exact ⟨c₀, hc₀, hfifo, hlru, .cons hkeyed hperm hpeels⟩

/-- The nodes of the lru queue are taken out one by one. -/
theorem Cache.Keyed.peels_lru {rest : List (Node α)} (h : c.Keyed) (hrest : c.lru.nodes = rest) :
    ∃ c₀ : Cache α, c₀.Keyed ∧ c₀.lru.nodes = [] ∧ c₀.fifo = c.fifo ∧ Peels c rest c₀ := by
  induction rest generalizing c with
  | nil => exact ⟨c, h, hrest, rfl, .nil c⟩
  | cons d rest ih =>
    have hperm : c.nodes.Perm
        (d :: ({ c with lru := ⟨rest, rest.length⟩ } : Cache α).nodes) := by
      simp only [Cache.nodes, hrest, List.cons_append]
      exact List.Perm.refl _
    have hkeyed : ({ c with lru := ⟨rest, rest.length⟩ } : Cache α).Keyed := by
      apply And.left
      exact h.of_evict h.wf.fifo (h.wf.lru.tail hrest) hperm rfl rfl
    obtain ⟨c₀, hc₀, hlru, hfifo, hpeels⟩ := ih hkeyed rfl
    exact ⟨c₀, hc₀, hlru, hfifo, .cons hkeyed hperm hpeels⟩

end

/-! ## Evictions from the store -/

/-- An inode that nobody holds leaves the cache through `node_free`, as one does whose
place `cache_insert_get` needs. -/
def evictInode (w : World) (iid : ℕ) : Exec Halt Sys Unit := do
  match ← Exec.read fun s => s.icac.node iid with
  | none => pure ()
  | some n =>
    Exec.when (n.refcnt = 0) do
      Exec.update fun s => { s with icac := s.icac.unlink iid }
      freeEvicted w (icacOf w) (some n)

section

variable {w : World} {E : Halt → Prop} {s s₁ s' : Sys} {bid iid ip : ℕ} {inode : Inode}
  {n : Node Inode}

/-- A cache that lost one node shows the others. -/
theorem inodeOf_of_update {c : Cache Inode} {d : Node Inode}
    (hmap : c.node = Function.update s.icac.node d.id none) :
    (∀ i m, c.node i = some m → s.icac.node i = some m) ∧
      ({ s with icac := c } : Sys).inodeOf = Function.update s.inodeOf d.id none := by
  refine ⟨fun i m hm => ?_, funext fun i => ?_⟩
  · by_cases hi : i = d.id
    · rw [hmap, hi, Function.update_self] at hm
      cases hm
    · rwa [hmap, Function.update_of_ne hi] at hm
  · by_cases hi : i = d.id
    · simp [Sys.inodeOf, hmap, hi]
    · simp [Sys.inodeOf, hmap, Function.update_of_ne hi]

/-- The rule for an eviction of an inode. -/
theorem wp_evictInode (hw : w.Reliable) (h : s.Stored w 0) (hfull : s.Full) {Q : Unit → Sys → Prop}
    (hQ : ∀ s', s'.Stored w 0 → s'.Full → s'.record = s.record →
      (∀ i m, s'.icac.node i = some m → s.icac.node i = some m) → Q () s') :
    Exec.Wp (evictInode w iid) Q E s := by
  refine Exec.wp_bind.mpr (Exec.wp_read.mpr ?_)
  cases hn : s.icac.node iid with
  | none => exact hQ s h hfull rfl fun _ _ hm => hm
  | some d =>
    refine Exec.wp_when.mpr ⟨fun _ => ?_, fun _ => hQ s h hfull rfl fun _ _ hm => hm⟩
    obtain rfl := h.icac.id_eq hn
    obtain ⟨hkeyed, hmap⟩ := h.icac.unlink hn
    obtain ⟨hsub, hinode⟩ := inodeOf_of_update hmap
    obtain ⟨inode, hcontent⟩ := Option.ne_none_iff_exists'.mp (hfull _ d hn)
    refine Exec.wp_bind.mpr (Exec.wp_update.mpr ?_)
    refine wp_freeEvicted_icac hw h hn hcontent hkeyed (fun i m hm _ => hsub i m hm) hinode ?_
    intro s' hstored hrecord hstill
    have hicac : s'.icac = s.icac.unlink d.id := (hstill.settles (w := w)).icac_eq
    refine hQ s' hstored (fun i m hm => ?_) hrecord fun i m hm => ?_
    · rw [hicac] at hm
      exact hfull i m (hsub i m hm)
    · rw [hicac] at hm
      exact hsub i m hm

/-- The store after blocks settled. -/
theorem Sys.Stored.settles (hw : w.Reliable) (h : s.Stored w 0) (hok : s'.BcacOk)
    {added : List (ℕ × HashIdx)} (hsettles : Settles w ∅ added s s') :
    s'.Stored w 0 ∧ ∀ i < 32768, s'.record i = s.record i := by
  have hmeta : s'.MetaInv w :=
    h.metaInv.settles hw h.ok hsettles fun _ hmem => absurd hmem (Set.notMem_empty _)
  have hkeeps : ∀ b, inodeStart ≤ b → b < bitmapStart →
      BlockKeeps 0 s s' b ∧ (s'.spot b).data = (s.spot b).data :=
    fun b hb hb' => h.blockKeeps hb hb' (hsettles.spot b (Set.notMem_empty b))
  refine ⟨h.of_blocks hsettles.icac_eq hok hmeta fun b hb hb' => (hkeeps b hb hb').1,
    fun i hi => ?_⟩
  obtain ⟨hle, hlt⟩ := inodeIid2Bid_mem hi
  refine record_congr (by rw [inodeOf_of_icac_eq hsettles.icac_eq]) fun _ => ?_
  rw [(hkeeps _ hle hlt).2]

/-! ## The end of a session -/

/-- The rule for the loop of `inode_exit` over nodes that are in the cache `c`. -/
theorem wp_freeNodes_icac (hw : w.Reliable) {c c₀ : Cache Inode} {rest : List (Node Inode)}
    (hc : c.Keyed) (hpeels : Peels c rest c₀) (h : ({ s with icac := c } : Sys).Stored w 0)
    (hfull : ({ s with icac := c } : Sys).Full) {Q : Unit → Sys → Prop}
    (hQ : ∀ s', ({ s' with icac := c₀ } : Sys).Stored w 0 → ({ s' with icac := c₀ } : Sys).Full →
      ({ s' with icac := c₀ } : Sys).record = ({ s with icac := c } : Sys).record →
      s'.rest = s.rest → (∀ b ∉ inodeBlocks, s'.spot b = s.spot b) →
      (∀ b, (s'.spot b).pending = (s.spot b).pending) → Q () s') :
        Exec.Wp (freeNodes (icacOf w) rest) Q E s := by
  induction hpeels generalizing s with
  | nil c => exact hQ s h hfull rfl rfl (fun _ _ => rfl) fun _ => rfl
  | @cons c c' c₀ d rest hkeyed hperm _ ih =>
    obtain ⟨hd, hmap⟩ := hc.node_of_perm_cons hkeyed hperm
    obtain ⟨hsub, hinode⟩ := inodeOf_of_update (s := { s with icac := c }) hmap
    obtain ⟨inode, hcontent⟩ := Option.ne_none_iff_exists'.mp (hfull _ d hd)
    obtain ⟨hdrop, hbacks⟩ := h.drop hd hcontent hkeyed (fun i m hm _ => hsub i m hm) hinode
    have hnone : ({ s with icac := c' } : Sys).inodeOf d.id = none := by
      have hnone := congrFun hinode d.id
      rwa [Function.update_self] at hnone
    have hbacks' : s.Backs d.id d inode :=
      ⟨hbacks.iid_eq, hbacks.iid_lt, hbacks.fits, hbacks.kept, hbacks.dip, hbacks.clean⟩
    refine Exec.wp_bind.mpr (Exec.wp_bind.mpr ?_)
    refine wp_icacheCbWrite_of (s := s) c' hw hdrop hnone hcontent hbacks'
      fun s₁ hstored hrecord hstill hpending => ?_
    simp only [Exec.wp_bind, Exec.wp_when, Exec.wp_pure, Bool.false_eq_true, not_false_eq_true,
      forall_const, IsEmpty.forall_iff, true_and]
    refine ih hkeyed hstored (fun i m hm => hfull i m (hsub i m hm))
      fun s' hs' hfull' hrecord' hrest hspot hrestPending => ?_
    have hspot' : ∀ b ∉ inodeBlocks, s'.spot b = s.spot b := by
      intro b hb
      refine (hspot b hb).trans (hstill.other b ?_)
      rintro rfl
      exact hb (inodeIid2Bid_mem hbacks.iid_lt)
    refine hQ s' hs' hfull' (hrecord'.trans (hrecord.trans (funext fun i => ?_)))
      (hrest.trans hstill.rest) hspot' fun b => (hrestPending b).trans (hpending b)
    have hold : ({ s with icac := c } : Sys).inodeOf d.id = some inode :=
      inodeOf_of_node hd hcontent
    by_cases hi : i = d.id
    · subst hi
      rw [Function.update_self, record_of_inodeOf hold]
    · rw [Function.update_of_ne hi]
      refine record_congr ?_ fun _ => rfl
      have hne := congrFun hinode i
      rwa [Function.update_of_ne hi] at hne

/-- A cache without nodes shows no node. -/
theorem Cache.Keyed.node_of_nil {α : Type} {c : Cache α} (h : c.Keyed) (hfifo : c.fifo.nodes = [])
    (hlru : c.lru.nodes = []) (id : ℕ) : c.node id = none := by
  rw [h.node_eq_none]
  intro n hn
  rw [Cache.nodes, hlru, hfifo] at hn
  cases hn

/-- The rule for `inode_exit`: the inode blocks have the records. -/
theorem wp_inodeExit (hw : w.Reliable) (h : s.Stored w 0) (hfull : s.Full) {Q : Unit → Sys → Prop}
    (hQ : ∀ s', s'.BcacOk → s'.MetaInv w → s'.rest.2 = s.rest.2 →
      (∀ i, loadInode 0 (s'.spot (inodeIid2Bid i)).data i = s.record i) →
      (∀ b ∉ inodeBlocks, s'.spot b = s.spot b) → (∀ b, (s'.spot b).pending = (s.spot b).pending) →
        Q () s') :
    Exec.Wp (inodeExit w) Q E s := by
  obtain ⟨c₁, hc₁, hfifo₁, hlru₁, hpeels₁⟩ := h.icac.peels_fifo rfl
  obtain ⟨c₂, hc₂, hlru₂, hfifo₂, hpeels₂⟩ := hc₁.peels_lru rfl
  simp only [inodeExit, cacheExit, cacheAlive, Exec.wp_bind, Exec.wp_read, Exec.wp_when,
    Exec.wp_stop]
  refine ⟨fun hdangling => absurd hdangling (by simp [icacOf, h.icac.wf.alive]), fun _ => ?_⟩
  refine wp_freeNodes_icac hw h.icac hpeels₁ h hfull
    fun s₁ hs₁ hfull₁ hrecord₁ hrest₁ hspot₁ hpending₁ => ?_
  have hicac₁ : s₁.icac = s.icac := congrArg Prod.fst hrest₁
  have hlist : ((icacOf w).get s₁).lru.nodes = c₁.lru.nodes := by
    rw [hlru₁, ← hicac₁]
    rfl
  rw [hlist]
  refine wp_freeNodes_icac hw hc₁ hpeels₂ hs₁ hfull₁
    fun s₂ hs₂ _ hrecord₂ hrest₂ hspot₂ hpending₂ => ?_
  refine Exec.wp_update.mpr (hQ _ ⟨hs₂.ok.keyed, hs₂.ok.holds⟩ hs₂.metaInv ?_ (fun i => ?_)
    (fun b hb => ?_) fun b => ?_)
  · exact (congrArg Prod.snd hrest₂).trans (congrArg Prod.snd hrest₁)
  · have hnone : ({ s₂ with icac := c₂ } : Sys).inodeOf i = none := by
      have hnode := hc₂.node_of_nil (hfifo₂ ▸ hfifo₁) hlru₂ i
      simp [Sys.inodeOf, hnode]
    have hrecord := congrFun (hrecord₂.trans hrecord₁) i
    rw [record_of_none hnone] at hrecord
    exact hrecord
  · exact (hspot₂ b hb).trans (hspot₁ b hb)
  · exact (hpending₂ b).trans (hpending₁ b)

/-- A block that is not cached is not evicted a second time. -/
theorem Spot.evict_of_absent {l : Spot} {bid : ℕ} (h : l.node = none) : l.evict w bid = l := by
  have hblock : l.block = none := by
    rw [Spot.block, h]
    rfl
  rw [Spot.evict, hblock, ← h]

/-- The rule for the loop of the flush of the block cache over nodes that are in the cache `c`. -/
theorem wp_freeNodes_bcac (hw : w.Reliable) {c c₀ : Cache Block} {rest : List (Node Block)}
    (hc : c.Keyed) (hpeels : Peels c rest c₀) (hok : ({ s with bcac := c } : Sys).BcacOk)
    (hmeta : ({ s with bcac := c } : Sys).MetaInv w) {Q : Unit → Sys → Prop}
    (hQ : ∀ s', ({ s' with bcac := c₀ } : Sys).BcacOk → ({ s' with bcac := c₀ } : Sys).MetaInv w →
      s'.bcac = s.bcac → s'.rest = s.rest → (∀ b, inodeStart ≤ b → b < dataStart →
        (({ s' with bcac := c₀ } : Sys).spot b).data = (({ s with bcac := c } : Sys).spot b).data) →
      (∀ b, ({ s' with bcac := c₀ } : Sys).spot b = ({ s with bcac := c } : Sys).spot b ∨
        ({ s' with bcac := c₀ } : Sys).spot b = (({ s with bcac := c } : Sys).spot b).evict w b) →
          Q () s') :
    Exec.Wp (freeNodes (bcacOf w) rest) Q E s := by
  induction hpeels generalizing s with
  | nil c => exact hQ s hok hmeta rfl rfl (fun _ _ _ => rfl) fun _ => Or.inl rfl
  | @cons c c' c₀ d rest hkeyed hperm _ ih =>
    obtain ⟨hd, hmap⟩ := hc.node_of_perm_cons hkeyed hperm
    refine Exec.wp_bind.mpr (Exec.wp_bind.mpr ?_)
    refine wp_bcacheCbWrite hw (hok.holds _ d hd) fun s₁ hbcac hrest hloads hspot hother => ?_
    simp only [Exec.wp_bind, Exec.wp_when, Exec.wp_pure, Bool.false_eq_true, not_false_eq_true,
      forall_const, IsEmpty.forall_iff, true_and]
    -- The spots of the caches from which the node is gone.
    have hself : ({ s₁ with bcac := c' } : Sys).spot d.id =
        (({ s with bcac := c } : Sys).spot d.id).evict w d.id := by
      have hnode : c'.node d.id = none := by rw [hmap, Function.update_self]
      have hold : ({ s with bcac := c } : Sys).spot d.id = { s.spot d.id with node := some d } := by
        rw [← hd]
        rfl
      have hnew : ({ s₁ with bcac := c' } : Sys).spot d.id = { s₁.spot d.id with node :=
        none } := by
        rw [← hnode]
        rfl
      rw [hnew, hspot, hold]
      rw [← (Spot.node_evict :
        (({ s.spot d.id with node := some d } : Spot).evict w d.id).node = none)]
    have hstay : ∀ b ≠ d.id, ({ s₁ with bcac := c' } : Sys).spot b =
      ({ s with bcac := c } : Sys).spot b := by
      intro b hb
      have hnode : c'.node b = c.node b := by rw [hmap, Function.update_of_ne hb]
      change { s₁.spot b with node := c'.node b } = { s.spot b with node := c.node b }
      rw [hother b hb, hnode]
    have hok' : ({ s₁ with bcac := c' } : Sys).BcacOk := by
      refine ⟨hkeyed, fun b n hn => ?_⟩
      have hn' : c'.node b = some n := hn
      by_cases hb : b = d.id
      · rw [hmap, hb, Function.update_self] at hn'
        cases hn'
      · rw [hmap, Function.update_of_ne hb] at hn'
        exact hok.holds b n hn'
    have hiv : s₁.sb.aesIv = s.sb.aesIv := congrArg (fun r => r.2.2.2.1) hrest
    have hkey : s₁.sb.aesKey = s.sb.aesKey := congrArg (fun r => r.2.2.1) hrest
    have hmeta' : ({ s₁ with bcac := c' } : Sys).MetaInv w := by
      intro b hle hlt
      change (({ s₁ with bcac := c' } : Sys).spot b).MetaGood w (s₁.sb.aesIv b) (s₁.sb.aesKey b)
      rw [hiv, hkey]
      by_cases hb : b = d.id
      · subst hb
        rw [hself]
        exact (hmeta _ hle hlt).evict hw hlt (hok.filled _)
      · rw [hstay b hb]
        exact hmeta b hle hlt
    refine ih hkeyed hok' hmeta' fun s' hs' hs'' hbcac' hrest' hdata hevicts => ?_
    refine hQ s' hs' hs'' (hbcac'.trans hbcac) (hrest'.trans hrest)
      (fun b hle hlt => (hdata b hle hlt).trans ?_)
      fun b => ?_
    · by_cases hb : b = d.id
      · subst hb
        rw [hself, Spot.data_evict (hok.filled _) (hmeta _ hle hlt).metaOk.dirty_or]
      · rw [hstay b hb]
    · have hevicted := hevicts b
      by_cases hb : b = d.id
      · subst hb
        rw [hself, Spot.evict_of_absent Spot.node_evict, or_self] at hevicted
        exact Or.inr hevicted
      · rwa [hstay b hb] at hevicted

/-- The record of an inode number on the disk. -/
def Sys.diskRecord (w : World) (s : Sys) (iid : ℕ) : Inode :=
  loadInode 0 (w.decrypt (s.sb.aesIv (inodeIid2Bid iid)) (s.sb.aesKey (inodeIid2Bid iid))
    (s.disk (inodeIid2Bid iid))) iid

/-- A block that is not cached is on the disk. -/
theorem Spot.MetaGood.disk {l : Spot} {iv key : Key128} (h : l.MetaGood w iv key)
    (hn : l.node = none) : w.decrypt iv key l.disk = l.data ∧ w.sha256 l.data = l.sbHash := by
  have hclean : l.dirty = false := by simp [Spot.dirty, hn]
  have hdata : l.data = l.evicted := by simp [Spot.data, Spot.block, hn]
  rw [hdata]
  exact ⟨h.diskOk.resolve_left (by simp [hclean]), (h.metaOk.resolve_left (by simp [hclean])).2⟩

/-- `inode_exit`, and the flush of the block cache that `block_exit` begins with. -/
def storeExit (w : World) : Exec Halt Sys Unit := do
  inodeExit w
  cacheExit (bcacOf w)

/-- The rule for the end of a session: the disk has the records, with the hashes of their
blocks in the superblock. -/
theorem wp_storeExit (hw : w.Reliable) (h : s.Stored w 0) (hfull : s.Full) {Q : Unit → Sys → Prop}
    (hQ : ∀ s', (∀ i < 32768, s'.diskRecord w i = s.record i ∧
      w.sha256 (w.decrypt (s'.sb.aesIv (inodeIid2Bid i)) (s'.sb.aesKey (inodeIid2Bid i))
        (s'.disk (inodeIid2Bid i))) = s'.sb.hash (inodeIid2Bid i)) → Q () s') :
    Exec.Wp (storeExit w) Q E s := by
  refine Exec.wp_bind.mpr (wp_inodeExit hw h hfull fun s₁ hok₁ hmeta₁ hrest₁ hload _ _ => ?_)
  obtain ⟨c₁, hc₁, hfifo₁, hlru₁, hpeels₁⟩ := hok₁.keyed.peels_fifo rfl
  obtain ⟨c₂, hc₂, hlru₂, hfifo₂, hpeels₂⟩ := hc₁.peels_lru rfl
  simp only [cacheExit, cacheAlive, Exec.wp_bind, Exec.wp_read, Exec.wp_when, Exec.wp_stop]
  refine ⟨fun hdangling => absurd hdangling (by simp [bcacOf, hok₁.keyed.wf.alive]), fun _ => ?_⟩
  refine wp_freeNodes_bcac hw hok₁.keyed hpeels₁ hok₁ hmeta₁
    fun s₂ hok₂ hmeta₂ hbcac₂ _ hdata₂ _ => ?_
  have hlist : ((bcacOf w).get s₂).lru.nodes = c₁.lru.nodes := by
    rw [hlru₁, ← hbcac₂]
    rfl
  rw [hlist]
  refine wp_freeNodes_bcac hw hc₁ hpeels₂ hok₂ hmeta₂ fun s₃ _ hmeta₃ _ _ hdata₃ _ => ?_
  refine Exec.wp_update.mpr (hQ _ fun i hi => ?_)
  obtain ⟨hle, hlt⟩ := inodeIid2Bid_mem hi
  have hmem : inodeIid2Bid i < dataStart := hlt.trans (by decide)
  have hgone : (({ s₃ with bcac := c₂ } : Sys).spot (inodeIid2Bid i)).node = none :=
    hc₂.node_of_nil (hfifo₂ ▸ hfifo₁) hlru₂ _
  have hdata : (({ s₃ with bcac := c₂ } : Sys).spot (inodeIid2Bid i)).data =
      (s₁.spot (inodeIid2Bid i)).data := (hdata₃ _ hle hmem).trans (hdata₂ _ hle hmem)
  obtain ⟨hdisk, hhash⟩ := (hmeta₃ _ hle hmem).disk hgone
  have hdecrypt : w.decrypt (s₃.sb.aesIv (inodeIid2Bid i)) (s₃.sb.aesKey (inodeIid2Bid i))
      (s₃.disk (inodeIid2Bid i)) = (s₁.spot (inodeIid2Bid i)).data := hdisk.trans hdata
  constructor
  · rw [← hload i, ← hdecrypt]
    rfl
  · rw [hdata, ← hdecrypt] at hhash
    exact hhash

end

/-! ## Runs -/

/-- A call on the inode store. -/
inductive StoreCall
  /-- `iget_from_cache` of the inode `iid`, which gave the pointer `ip`, and the inode there. -/
  | get (iid ip : ℕ) (inode : Inode)
  /-- The fields of the inode at `ip` are set to those of `inode`, then `inode_make_dirty`. -/
  | set (iid ip : ℕ) (inode : Inode)
  /-- `inode_return`. -/
  | giveBack (iid ip : ℕ)
  /-- An eviction from the inode cache. -/
  | evictInode (iid : ℕ)
  /-- An eviction from the block cache. -/
  | evictBlock (bid : ℕ)

section

variable (w : World)

/-- `iget_from_cache`, and the inode at the pointer that it gives. -/
def fetchInode (iid : ℕ) : Exec Halt Sys (Option (ℕ × Inode)) := do
  match ← igetFromCache w iid false with
  | none => return none
  | some ip =>
    let inode ← inodeAt ip
    return some (ip, inode)

/-- The stores into all fields of the inode at a pointer, and `inode_make_dirty`. -/
def setInode (ip : ℕ) (inode : Inode) : Exec Halt Sys Unit := do
  inodeStore w ip fun old => { inode with iid := old.iid, dip := old.dip }
  let _ ← inodeMakeDirty w ip

/-- The call returns. -/
def StoreStep (s : Sys) (c : StoreCall) (s' : Sys) : Prop :=
  match c with
  | .get iid ip inode => fetchInode w iid s = .ok (some (ip, inode), s')
  | .set _ ip inode => setInode w ip inode s = .ok ((), s')
  | .giveBack _ ip => ∃ failed, inodeReturn w ip s = .ok (failed, s')
  | .evictInode iid => evictInode w iid s = .ok ((), s')
  | .evictBlock bid => evictBlock w bid s = .ok ((), s')

/-- The call can be made, with what it then gives. -/
def StoreCall.Returns (s : Sys) (c : StoreCall) : Prop :=
  match c with
  | .get iid _ _ => ∃ ip inode s', StoreStep w s (.get iid ip inode) s'
  | c => ∃ s', StoreStep w s c s'

end

/-- The call is one for an inode number of the layout, or on an inode that the caller holds,
with values of the types of the fields. -/
def StoreCall.Fits (c : StoreCall) (s : Sys) : Prop :=
  match c with
  | .get iid _ _ => iid < 32768
  | .set iid ip inode => s.Borrowed iid ip ∧ inode.Fits
  | .giveBack iid ip => s.Borrowed iid ip
  | .evictInode _ => True
  | .evictBlock _ => True

/-- What a call is to do with one record for each inode number. -/
def RecordStep (f : Fin 32768 → Inode) (c : StoreCall) (f' : Fin 32768 → Inode) : Prop :=
  match c with
  | .get iid _ inode => (∀ i, i.val = iid → inode.record = f i) ∧ f' = f
  | .set iid _ inode =>
    f' = fun i => if i.val = iid then { inode with iid := iid, dip := 0 } else f i
  | .giveBack _ _ => f' = f
  | .evictInode _ => f' = f
  | .evictBlock _ => f' = f

/-- The records of all inode numbers. -/
def Sys.records (s : Sys) : Fin 32768 → Inode := fun i => s.record i

/-- The inode store between two calls. -/
structure Sys.StoreOk (w : World) (s : Sys) : Prop where
  /-- The inode blocks hold what is needed. -/
  stored : s.Stored w 0
  /-- The nodes hold inodes. -/
  full : s.Full
  /-- Nobody has locked an inode. -/
  unlocked : ∀ iid n, s.icac.node iid = some n → n.locked = false

section

variable {w : World} {s s₁ s' : Sys} {iid ip : ℕ} {inode : Inode} {c : StoreCall}
  {cs : List StoreCall}

/-- A change of one node that leaves it unlocked. -/
theorem InodeChanges.unlocked {g : Node Inode → Node Inode} (h : InodeChanges iid g s s')
    (hs : s.StoreOk w) (hg : ∀ n : Node Inode, n.locked = false → (g n).locked = false) (i : ℕ)
    (n : Node Inode) (hn : s'.icac.node i = some n) : n.locked = false := by
  by_cases hi : i = iid
  · subst hi
    rw [h.node, Function.update_self] at hn
    obtain ⟨m, hm, rfl⟩ := Option.map_eq_some_iff.mp hn
    exact hg m (hs.unlocked i m hm)
  · rw [h.node_of_ne hi] at hn
    exact hs.unlocked i n hn

variable (hw : w.Reliable)

include hw

/-- The rule for a fetch: it gives the record. -/
theorem wp_fetchInode (hs : s.StoreOk w) (hlt : iid < 32768) :
    Exec.Wp (fetchInode w iid) (fun r s' => ∃ ip inode, r = some (ip, inode) ∧
      s'.StoreOk w ∧ s'.records = s.records ∧ inode.record = s.record iid)
      (fun _ => ¬s.HasRoom) s := by
  refine Exec.wp_bind.mpr (wp_igetFromCache hw hs.stored hs.full hlt (hs.unlocked iid) ?_
    fun hfew _ _ => hfew)
  intro ip s₁ h
  obtain ⟨n, inode, hn, haddr, hcontent, hlocked, _⟩ := h.held
  refine Exec.wp_bind.mpr (wp_inodeAt h.stored.icac ⟨n, hn, haddr, hcontent⟩ ?_)
  refine ⟨ip, inode, rfl, ⟨h.stored, h.full, fun i m hm => ?_⟩,
    funext fun i => h.record i i.isLt, ?_⟩
  · by_cases hi : i = iid
    · rw [hi, hn] at hm
      cases hm
      exact hlocked
    · rcases h.node i hi with heq | ⟨hnone, _⟩
      · exact hs.unlocked i m (heq ▸ hm)
      · rw [hnone] at hm
        cases hm
  · rw [← h.record iid hlt, record_of_inodeOf (inodeOf_of_node hn hcontent)]

omit hw in
/-- The rule for a change of an inode: it is one of the record. -/
theorem wp_setInode (hs : s.StoreOk w) (hheld : s.Borrowed iid ip) (hfits : inode.Fits) :
    Exec.Wp (setInode w ip inode) (fun _ s' => s'.StoreOk w ∧
      s'.record = Function.update s.record iid { inode with iid := iid, dip := 0 })
      (fun _ => False) s := by
  obtain ⟨n, old, hn, _, hcontent, hp, hiid⟩ := hheld.pointsTo hs.stored hs.full
  refine Exec.wp_bind.mpr (wp_inodeStore hs.stored.icac hp fun s₁ h₁ => ?_)
  have hp₁ := h₁.pointsTo hp { inode with iid := old.iid, dip := old.dip } fun m hm =>
    ⟨rfl, by simp [Node.mapInode, hm]⟩
  refine Exec.wp_bind.mpr (wp_inodeMakeDirty h₁.keyed hp₁ hiid fun s₂ h₂ => ?_)
  have hc := h₁.trans h₂
  have hfits' : ({ inode with iid := old.iid, dip := old.dip } : Inode).Fits :=
    ⟨hfits.type_lt, hfits.size_lt, hfits.bid_lt⟩
  obtain ⟨hstored, hfull, hrecord⟩ := hs.stored.set hs.full hn hcontent hfits' rfl rfl hc
    ⟨by simp [Node.mapInode, hcontent], rfl, rfl⟩
  refine ⟨⟨hstored, hfull, hc.unlocked hs fun _ h => h⟩, ?_⟩
  rw [hrecord, ← hiid]
  rfl

omit hw in
/-- The rule for the return of an inode: it changes no record. -/
theorem wp_giveBack (hs : s.StoreOk w) (hheld : s.Borrowed iid ip) :
    Exec.Wp (inodeReturn w ip) (fun _ s' => s'.StoreOk w ∧ s'.records = s.records)
      (fun _ => False) s := by
  obtain ⟨n, inode, hn, href, _, hp, hiid⟩ := hheld.pointsTo hs.stored hs.full
  refine wp_inodeReturn hs.stored.icac hp hiid (fun m hm => ?_) (hs.unlocked iid) fun s₁ h₁ => ?_
  · rw [hn] at hm
    cases hm
    exact href
  · have hkeeps : StoreKeeps w iid s s₁ := h₁.storeKeeps hs.stored hs.full fun _ => ⟨rfl, rfl, id⟩
    exact ⟨⟨hkeeps.stored, hkeeps.full, h₁.unlocked hs fun _ _ => rfl⟩,
      funext fun i => hkeeps.record i i.isLt⟩

/-- Evictions of inodes change no record. -/
theorem wp_evictInode_ok (hs : s.StoreOk w) : Exec.Wp (evictInode w iid)
    (fun _ s' => s'.StoreOk w ∧ s'.records = s.records) (fun _ => False) s :=
  wp_evictInode hw hs.stored hs.full fun _ hstored hfull hrecord hsub =>
    ⟨⟨hstored, hfull, fun i n hn => hs.unlocked i n (hsub i n hn)⟩,
      funext fun i => congrFun hrecord i⟩

/-- Evictions of blocks change no record. -/
theorem wp_evictBlock_ok (hs : s.StoreOk w) : Exec.Wp (evictBlock w bid)
    (fun _ s' => s'.StoreOk w ∧ s'.records = s.records) (fun _ => False) s := by
  refine wp_evictBlock hw hs.stored.ok fun s' hok hsettles => ?_
  obtain ⟨hstored, hrecord⟩ := hs.stored.settles hw hok hsettles
  have hicac := hsettles.icac_eq
  refine ⟨⟨hstored, fun i n hn => ?_, fun i n hn => ?_⟩, funext fun i => hrecord i i.isLt⟩
  · rw [hicac] at hn
    exact hs.full i n hn
  · rw [hicac] at hn
    exact hs.unlocked i n hn

/-- Every call on the inode store is one on the records. -/
theorem StoreStep.refines (hs : s.StoreOk w) (hfits : c.Fits s) (hstep : StoreStep w s c s') :
    s'.StoreOk w ∧ RecordStep s.records c s'.records := by
  cases c with
  | get iid ip inode =>
    obtain ⟨ip', inode', heq, hok, hrecords, hrecord⟩ := (wp_fetchInode hw hs hfits).of_ok hstep
    cases heq
    refine ⟨hok, fun i hi => ?_, hrecords⟩
    rw [hrecord, ← hi]
    rfl
  | set iid ip inode =>
    obtain ⟨hok, hrecord⟩ := (wp_setInode hs hfits.1 hfits.2).of_ok hstep
    refine ⟨hok, funext fun i => ?_⟩
    rw [Sys.records, hrecord, Function.update_apply]
    rfl
  | giveBack iid ip =>
    obtain ⟨failed, hcall⟩ := hstep
    exact (wp_giveBack hs hfits).of_ok hcall
  | evictInode iid => exact (wp_evictInode_ok hw hs).of_ok hstep
  | evictBlock bid => exact (wp_evictBlock_ok hw hs).of_ok hstep

/-- Every call on the inode store returns while the caches have room. -/
theorem StoreCall.returns (hs : s.StoreOk w) (hfits : c.Fits s) (hroom : s.HasRoom) :
    c.Returns w s := by
  cases c with
  | get iid ip inode =>
    have hwp := (wp_fetchInode hw hs hfits).mono (fun _ _ h => h) fun _ hfew => hfew hroom
    obtain ⟨_, s', hcall, ip', inode', rfl, _⟩ := hwp.returns
    exact ⟨ip', inode', s', hcall⟩
  | set iid ip inode =>
    obtain ⟨_, s', hcall, _⟩ := (wp_setInode hs hfits.1 hfits.2).returns
    exact ⟨s', hcall⟩
  | giveBack iid ip =>
    obtain ⟨failed, s', hcall, _⟩ := (wp_giveBack hs hfits).returns
    exact ⟨s', failed, hcall⟩
  | evictInode iid =>
    obtain ⟨_, s', hcall, _⟩ := (wp_evictInode_ok hw hs).returns
    exact ⟨s', hcall⟩
  | evictBlock bid =>
    obtain ⟨_, s', hcall, _⟩ := (wp_evictBlock_ok hw hs).returns
    exact ⟨s', hcall⟩

/-- The inode store behaves as one record for each inode number in every run of fetches,
changes and evictions. It begins with the records on the disk, every further call returns
while there is room in the caches, and when the caches are closed after the run the disk
has the records. -/
theorem store_refines (hs : s.StoreOk w) (hrun : Run (StoreStep w) s cs s')
    (hfits : Always (StoreStep w) (fun s c _ => c.Fits s) s cs) :
    (∀ i : Fin 32768, s.inodeOf i = none → (s.spot (inodeIid2Bid i)).node = none →
      s.records i = s.diskRecord w i) ∧
    s'.StoreOk w ∧ Run RecordStep s.records cs s'.records ∧
    (∀ c : StoreCall, c.Fits s' → s'.HasRoom → c.Returns w s') ∧
    ∃ s'', storeExit w s' = .ok ((), s'') ∧ ∀ i : Fin 32768, s''.diskRecord w i = s'.records i ∧
      w.sha256 (w.decrypt (s''.sb.aesIv (inodeIid2Bid i)) (s''.sb.aesKey (inodeIid2Bid i))
        (s''.disk (inodeIid2Bid i))) = s''.sb.hash (inodeIid2Bid i) := by
  refine ⟨fun i hinode hnode => ?_, ?_⟩
  · obtain ⟨hle, hlt⟩ := inodeIid2Bid_mem i.isLt
    have hdisk := ((hs.stored.metaInv _ hle (hlt.trans (by decide))).disk hnode).1
    rw [Sys.records, record_of_none hinode, ← hdisk]
    rfl
  induction hrun with
  | nil s =>
    refine ⟨hs, .nil _, fun c hc hroom => StoreCall.returns hw hs hc hroom, ?_⟩
    have hwp : Exec.Wp (storeExit w) (fun _ s'' => ∀ i < 32768, s''.diskRecord w i = s.record i ∧
        w.sha256 (w.decrypt (s''.sb.aesIv (inodeIid2Bid i)) (s''.sb.aesKey (inodeIid2Bid i))
          (s''.disk (inodeIid2Bid i))) = s''.sb.hash (inodeIid2Bid i)) (fun _ => False) s :=
      wp_storeExit hw hs.stored hs.full fun _ h => h
    obtain ⟨_, s'', hexit, hrecord⟩ := hwp.returns
    exact ⟨s'', hexit, fun i => hrecord i i.isLt⟩
  | cons hstep _ ih =>
    obtain ⟨hs₁, hrecord⟩ := hstep.refines hw hs (hfits.head hstep)
    obtain ⟨hs', hrun', hend⟩ := ih hs₁ (hfits.tail hstep)
    exact ⟨hs', .cons hrecord hrun', hend⟩

omit hw in
/-- Empty caches over a disk of zeros. -/
theorem Sys.blank_storeOk : Sys.blank.StoreOk World.plain := by
  refine ⟨blank_stored blank.ibm, fun _ _ hn => ?_, fun _ _ hn => ?_⟩
  · cases hn
  · cases hn

omit hw in
/-- An inode is fetched and gets a size. -/
theorem store_refines_blank : ∃ inode s',
    Run (StoreStep World.plain) Sys.blank [.get 9 0 inode, .set 9 0 { inode with size := 5 }] s' ∧
    ((∀ i : Fin 32768, Sys.blank.inodeOf i = none → (Sys.blank.spot (inodeIid2Bid i)).node = none →
      Sys.blank.records i = Sys.blank.diskRecord World.plain i) ∧
    s'.StoreOk World.plain ∧
    Run RecordStep Sys.blank.records
      [.get 9 0 inode, .set 9 0 { inode with size := 5 }] s'.records ∧
    (∀ c : StoreCall, c.Fits s' → s'.HasRoom → c.Returns World.plain s') ∧
    ∃ s'', storeExit World.plain s' = .ok ((), s'') ∧
      ∀ i : Fin 32768, s''.diskRecord World.plain i = s'.records i ∧
        World.plain.sha256 (World.plain.decrypt (s''.sb.aesIv (inodeIid2Bid i))
          (s''.sb.aesKey (inodeIid2Bid i)) (s''.disk (inodeIid2Bid i))) =
            s''.sb.hash (inodeIid2Bid i)) := by
  obtain ⟨⟨r, s₁⟩, hcall, hcheck⟩ := exists_of_check (x := fetchInode World.plain 9 Sys.blank)
    (p := fun r => r.1.any (fun f => f.1 = 0 ∧ f.2.type = 0 ∧ ∀ i, f.2.bid i = 0) &&
      (r.2.icac.node 9).any fun n => n.addr = 0 ∧ n.refcnt ≠ 0) (by decide +kernel)
  obtain ⟨hfetched, hnode⟩ := Bool.and_eq_true_iff.mp hcheck
  obtain ⟨⟨ip, inode⟩, rfl, hvalues⟩ := (Option.any_eq_true _ _).mp hfetched
  obtain ⟨n, hn, hheld⟩ := (Option.any_eq_true _ _).mp hnode
  obtain ⟨rfl, htype, hbid⟩ := of_decide_eq_true hvalues
  obtain ⟨haddr, href⟩ := of_decide_eq_true hheld
  have hget : StoreStep World.plain Sys.blank (.get 9 0 inode) s₁ := hcall
  have hfits₀ : (StoreCall.get 9 0 inode).Fits Sys.blank := (by decide : 9 < 32768)
  obtain ⟨hs₁, _⟩ := hget.refines World.plain_reliable Sys.blank_storeOk hfits₀
  have hfits : (StoreCall.set 9 0 { inode with size := 5 }).Fits s₁ := by
    refine ⟨⟨n, hn, haddr, href⟩, ?_, (by decide : 5 < 2 ^ 32), fun i => ?_⟩
    · rw [htype]
      decide
    · rw [hbid i]
      decide
  obtain ⟨_, s₂, hset, _⟩ := (wp_setInode hs₁ hfits.1 hfits.2).returns
  have hset' : StoreStep World.plain s₁ (.set 9 0 { inode with size := 5 }) s₂ := hset
  refine ⟨inode, s₂, .cons hget (.cons hset' (.nil s₂)), ?_⟩
  refine store_refines World.plain_reliable Sys.blank_storeOk
    (.cons hget (.cons hset' (.nil s₂))) ?_
  refine Always.cons_iff.mpr fun s hs => ⟨hfits₀, ?_⟩
  obtain rfl : s = s₁ := (Prod.mk.inj (Except.ok.inj (hs.symm.trans hget))).2
  refine Always.cons_iff.mpr fun _ _ => ⟨hfits, ?_⟩
  intro before c after _ _ heq
  simp at heq

end

end Efs
