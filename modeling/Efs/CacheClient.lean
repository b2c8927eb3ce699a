import Efs.CacheWellFormed

/-!
# Clients of a cache

A client calls the cache and stores into the nodes it holds; the callback
records what it is handed and succeeds or fails as it likes. The lookups and the
insertions of a client are described by what happens to the nodes.
-/

namespace Efs

open Library

variable {α : Type}

/-- The arguments of a call of `content_cb_write`. -/
structure Handed (α : Type) where
  /-- `content`. -/
  content : Option α
  /-- `id`. -/
  id : ℕ
  /-- `dirty`. -/
  dirty : Bool
  /-- `deleted`. -/
  deleted : Bool
  deriving DecidableEq

/-- What `node_free` hands over of a node. -/
def Node.handed (n : Node α) : Handed α := ⟨n.content, n.id, n.dirty, n.deleted⟩

/-- A cache with the calls of its callback, the last one first. -/
structure Client (α : Type) where
  /-- The cache. -/
  cache : Cache α
  /-- The calls of the callback. -/
  handed : List (Handed α)

/-- A cache whose callback records its calls and fails as `fails` says. -/
def recorded (fails : List (Handed α) → Bool) : CacheOf (Client α) α where
  get s := s.cache
  set c s := { s with cache := c }
  contentCbWrite content id dirty deleted s :=
    let handed := ⟨content, id, dirty, deleted⟩ :: s.handed
    .ok (fails handed, { s with handed })
  followsLoss := true

/-- Every node stays, or is handed over as it is and `may` be released. -/
def HandsOver (may : Node α → Prop) (s s' : Client α) : Prop :=
  ∃ gone kept, s.cache.nodes.Perm (gone ++ kept) ∧
    s'.handed = gone.map Node.handed ++ s.handed ∧
    (∀ n ∈ kept, ∃ n' ∈ s'.cache.nodes, n'.addr = n.addr) ∧ ∀ n ∈ gone, may n

/-! ## Stores and lookups -/

/-- The states differ in what the nodes of the cache hold. -/
def Client.Touched (s s' : Client α) : Prop :=
  s.cache.Touched s'.cache ∧ s'.handed = s.handed

/-- Nothing is touched when nothing happens. -/
theorem Client.Touched.refl (s : Client α) : s.Touched s := ⟨.refl _, rfl⟩

/-- What is touched twice is touched. -/
theorem Client.Touched.trans {s s₁ s' : Client α} (h₁ : s.Touched s₁) (h₂ : s₁.Touched s') :
    s.Touched s' := ⟨h₁.1.trans h₂.1, h₂.2.trans h₁.2⟩

/-- Stores keep what was handed over and what stays. -/
theorem HandsOver.touched_iff {may : Node α → Prop} {s s₁ s' : Client α}
    (ht : s₁.Touched s') : HandsOver may s s' ↔ HandsOver may s s₁ := by
  have hkeep : ∀ n : Node α, (∃ n' ∈ s'.cache.nodes, n'.addr = n.addr) ↔
      ∃ n' ∈ s₁.cache.nodes, n'.addr = n.addr := by
    intro n
    rw [← List.mem_map, ← List.mem_map, ht.1.map_eq.2]
  unfold HandsOver
  simp only [hkeep, ht.2]

/-- More nodes may be handed over than are. -/
theorem HandsOver.imp {may may' : Node α → Prop} {s s' : Client α} (h : HandsOver may s s')
    (hmay : ∀ n, may n → may' n) : HandsOver may' s s' := by
  obtain ⟨gone, kept, hperm, hhanded, hkept, hall⟩ := h
  exact ⟨gone, kept, hperm, hhanded, hkept, fun n hn => hmay n (hall n hn)⟩

/-- A program that does nothing to the cache but stores into its nodes. -/
def OnlyStores {β : Type} (x : Exec Halt (Client α) β) : Prop :=
  ∀ s, Exec.Wp x (fun _ s' => s.Touched s') (fun _ => True) s

section OnlyStores

variable {β γ : Type} {x : Exec Halt (Client α) β} {f : β → Exec Halt (Client α) γ}
variable {w : World} {fails : List (Handed α) → Bool}

/-- A value stores nothing. -/
theorem OnlyStores.pure (b : β) : OnlyStores (Pure.pure b : Exec Halt (Client α) β) :=
  fun s => .refl s

/-- Two calls that only store. -/
theorem OnlyStores.bind (hx : OnlyStores x) (hf : ∀ b, OnlyStores (f b)) :
    OnlyStores (x >>= f) :=
  fun s => (hx s).bind fun b s₁ h₁ => (hf b s₁).imp fun _ _ h₂ => h₁.trans h₂

/-- A call under a condition only stores when the call does. -/
theorem OnlyStores.when {c : Prop} [Decidable c] {x : Exec Halt (Client α) Unit}
    (hx : OnlyStores x) : OnlyStores (Exec.when c x) :=
  fun s => Exec.wp_when.mpr ⟨fun _ => hx s, fun _ => .refl s⟩

/-- A stop stores nothing. -/
theorem OnlyStores.stop (e : Halt) : OnlyStores (Exec.stop e : Exec Halt (Client α) β) :=
  fun _ => trivial

/-- `panic` stores nothing. -/
theorem OnlyStores.panic (p : Panic) : OnlyStores (Efs.panic w p : Exec Halt (Client α) Unit) :=
  fun s => wp_panic.mpr ⟨fun _ => .refl s, fun _ => trivial⟩

/-- A store through a pointer that keeps the id and the address of the node. -/
theorem OnlyStores.nodeStore (addr : ℕ) {f : Node α → Node α}
    (hf : ∀ n, (f n).id = n.id ∧ (f n).addr = n.addr) :
    OnlyStores (Efs.nodeStore (recorded fails) addr f) :=
  fun _ => ⟨Cache.touched_modify _ _ hf, rfl⟩

/-- A lock is stored in its node. -/
theorem OnlyStores.nodeLock (n : Node α) : OnlyStores (Efs.nodeLock (recorded fails) n) :=
  .bind (.when (.stop _)) fun _ => .nodeStore _ fun _ => ⟨rfl, rfl⟩

/-- The release of a lock is stored in its node. -/
theorem OnlyStores.nodeUnlock (n : Node α) : OnlyStores (Efs.nodeUnlock (recorded fails) n) :=
  .nodeStore _ fun _ => ⟨rfl, rfl⟩

/-- The number of references is stored in its node. -/
theorem OnlyStores.dropReference (n : Node α) :
    OnlyStores (Efs.dropReference w (recorded fails) n) :=
  .bind (.when (.panic _)) fun _ => .nodeStore _ fun _ => ⟨rfl, rfl⟩

end OnlyStores

section

variable {w : World} {fails : List (Handed α) → Bool} {s : Client α}

/-- An evicted node is handed over as it is; the queues are left alone. -/
theorem wp_freeEvicted {tofree : Option (Node α)} :
    Exec.Wp (freeEvicted w (recorded fails) tofree) (fun _ s' =>
      s'.handed = tofree.toList.map Node.handed ++ s.handed ∧
        ∃ leaked, s'.cache = { s.cache with leaked }) (fun _ => True) s := by
  cases tofree with
  | none => exact ⟨rfl, s.cache.leaked, rfl⟩
  | some n =>
    simp only [freeEvicted, nodeFree, Exec.wp_bind, Exec.wp_when, Exec.wp_update, Exec.wp_pure,
      wp_panic, implies_true, and_true]
    refine ⟨fun _ => ⟨fun _ _ => ⟨rfl, _, rfl⟩, fun _ => ⟨rfl, _, rfl⟩⟩,
      fun _ => ⟨fun _ _ => ⟨rfl, _, rfl⟩, fun _ => ⟨rfl, _, rfl⟩⟩⟩

/-- Nodes that stay or are handed over when nothing else leaves the queues. -/
theorem HandsOver.of_perm {may : Node α → Prop} {s s' : Client α} (gone : List (Node α))
    (hperm : s.cache.nodes.Perm (gone ++ s'.cache.nodes))
    (hhanded : s'.handed = gone.map Node.handed ++ s.handed) (hmay : ∀ n ∈ gone, may n) :
    HandsOver may s s' :=
  ⟨gone, s'.cache.nodes, hperm, hhanded, fun n hn => ⟨n, hn, rfl⟩, hmay⟩

/-- A call that hands nothing over and drops a node does not hand it over. -/
theorem not_handsOver {may : Node α → Prop} {s s' : Client α} {n : Node α} (h : s.cache.WF)
    (hperm : s.cache.nodes.Perm (n :: s'.cache.nodes)) (hhanded : s'.handed = s.handed) :
    ¬HandsOver may s s' := by
  rintro ⟨gone, kept, hperm', hhanded', hkept, _⟩
  have hgone : gone = [] := by
    rw [hhanded] at hhanded'
    simpa using hhanded'
  rw [hgone, List.nil_append] at hperm'
  have hn : n ∈ kept := hperm'.mem_iff.mp (hperm.mem_iff.mpr List.mem_cons_self)
  obtain ⟨n', hn', haddr⟩ := hkept n hn
  have hnodup := (hperm.map (·.addr)).nodup_iff.mp h.addrs_nodup
  rw [List.map_cons] at hnodup
  exact (List.nodup_cons.mp hnodup).1 (haddr ▸ List.mem_map_of_mem hn')

/-- The outcomes of a lookup by a client. -/
inductive LookupCase (s : Client α) (id : ℕ) (access : Bool) :
    Option (Node α) → Client α → Prop
  /-- The id is in neither queue. -/
  | absent (hlru : s.cache.lru.search id = none) (hfifo : s.cache.fifo.search id = none) :
      LookupCase s id access none s
  /-- The node is found and stays; a promotion may evict another one. -/
  | found (n : Node α) (gone : List (Node α)) (s' : Client α) (hn : s.cache.node id = some n)
      (hwf : s'.cache.WF) (hperm : s.cache.nodes.Perm (gone ++ s'.cache.nodes))
      (hhanded : s'.handed = gone.map Node.handed ++ s.handed) (hzero : ∀ d ∈ gone, d.refcnt = 0)
      (hmem : n ∈ s'.cache.nodes) (haccess : access = true → n ∈ s'.cache.lru.nodes ∧
        (s.cache.lru.search id = none → s.cache.lru.HasRoom)) :
      LookupCase s id access (some n) s'
  /-- The node is in the fifo, the lru queue has no room for it, and it is lost. -/
  | lost (n : Node α) (s' : Client α) (haccess : access = true)
      (hlru : s.cache.lru.search id = none) (hfifo : s.cache.fifo.search id = some n)
      (hroom : ¬s.cache.lru.HasRoom) (hwf : s'.cache.WF)
      (hperm : s.cache.nodes.Perm (n :: s'.cache.nodes)) (hhanded : s'.handed = s.handed)
      (hnext : s'.cache.nextAddr = s.cache.nextAddr) : LookupCase s id access none s'

/-- Every lookup that returns has one of the outcomes. -/
theorem wp_cacheFind {id : ℕ} {access : Bool} (h : s.cache.WF) :
    Exec.Wp (cacheFind w (recorded fails) id access) (LookupCase s id access)
      (fun _ => True) s := by
  unfold cacheFind cacheAlive
  simp only [Exec.wp_bind, Exec.wp_read, Exec.wp_when, Exec.wp_stop, Exec.wp_update, Exec.wp_pure]
  refine ⟨fun _ => trivial, fun _ => ?_⟩
  generalize hfound : (Cache.find ((recorded fails).get s) id access) = found
  have hcase : s.cache.FindCase id access found := hfound ▸ h.find id access
  cases hcase with
  | absent hlru hfifo => exact ⟨by simp, fun _ => ⟨by simp, fun _ => .absent hlru hfifo⟩⟩
  | found c' n tofree hn hroom hperm hzero hwf hmem haccess _ _ =>
    refine ⟨by simp, fun _ => ⟨by simp, fun _ => wp_freeEvicted.imp ?_⟩⟩
    rintro _ s' ⟨hhanded, leaked, hcache⟩
    have hnodes : s'.cache.nodes = c'.nodes := by rw [hcache]; rfl
    refine .found n tofree.toList s' hn ?_ ?_ hhanded ?_ ?_ ?_
    · rw [hcache]
      exact ⟨hwf.fifo, hwf.lru, hwf.addrs_nodup, hwf.addr_lt, hwf.alive⟩
    · rw [hnodes]
      exact hperm
    · intro d hd
      exact hzero d (Option.mem_toList.mp hd)
    · rw [hnodes]
      exact hmem
    · intro ha
      refine ⟨?_, hroom ha⟩
      rw [hcache]
      exact haccess ha
  | lost c' n haccess hlru hfifo hroom hperm hwf hnext =>
    exact ⟨by simp [recorded], fun _ => ⟨by simp, fun _ =>
      .lost n _ haccess hlru hfifo hroom hwf hperm rfl hnext⟩⟩

/-- A program that looks an id up and then does nothing but store into nodes. -/
def LooksUp {β : Type} (id : ℕ) (access : Bool) (x : Exec Halt (Client α) β) : Prop :=
  ∀ s : Client α, s.cache.WF → Exec.Wp x (fun _ s' =>
    ∃ r s₁, LookupCase s id access r s₁ ∧ s₁.Touched s') (fun _ => True) s

/-- A lookup followed by stores. -/
theorem LooksUp.of_find {β : Type} {id : ℕ} {access : Bool}
    {f : Option (Node α) → Exec Halt (Client α) β} (hf : ∀ r, OnlyStores (f r)) :
    LooksUp id access (cacheFind w (recorded fails) id access >>= f) :=
  fun _ h => (wp_cacheFind h).bind fun r s₁ hcase =>
    (hf r s₁).imp fun _ _ ht => ⟨r, s₁, hcase, ht⟩

/-- The result of a program that looks an id up may be ignored. -/
theorem LooksUp.ignore {β : Type} {id : ℕ} {access : Bool} {x : Exec Halt (Client α) β}
    (hx : LooksUp id access x) : LooksUp id access (do let _ ← x) :=
  fun s h => (hx s h).bind fun _ _ hcase => hcase

/-- `cache_make_dirty` looks its node up without an access. -/
theorem looksUp_makeDirty (id : ℕ) :
    LooksUp id false (cacheMakeDirty w (recorded fails) id) := by
  refine .of_find ?_
  rintro (_ | n)
  · exact .pure _
  · exact .bind (.nodeStore _ fun _ => ⟨rfl, rfl⟩) fun _ => .pure _

/-- `cache_make_deleted` looks its node up without an access. -/
theorem looksUp_makeDeleted (id : ℕ) :
    LooksUp id false (cacheMakeDeleted w (recorded fails) id) := by
  refine .of_find ?_
  rintro (_ | n)
  · exact .pure _
  · exact .bind (.nodeStore _ fun _ => ⟨rfl, rfl⟩) fun _ => .pure _

/-- `cache_node_lock` looks its node up without an access. -/
theorem looksUp_nodeLock (id : ℕ) : LooksUp id false (cacheNodeLock w (recorded fails) id) := by
  refine .of_find ?_
  rintro (_ | n)
  · exact .pure _
  · exact .bind (.nodeLock _) fun _ => .pure _

/-- `cache_node_unlock` looks its node up without an access. -/
theorem looksUp_nodeUnlock (id : ℕ) :
    LooksUp id false (cacheNodeUnlock w (recorded fails) id) := by
  refine .of_find ?_
  rintro (_ | n)
  · exact .pure _
  · exact .bind (.nodeUnlock _) fun _ => .pure _

/-- `cache_return` looks its node up without an access. -/
theorem looksUp_return (id : ℕ) : LooksUp id false (cacheReturn w (recorded fails) id) := by
  refine .of_find ?_
  rintro (_ | n)
  · exact .pure _
  · exact .bind (.nodeLock _) fun _ => .bind (.dropReference _) fun _ =>
      .bind (.nodeUnlock _) fun _ => .pure _

/-- `cache_unlock_return` looks its node up without an access. -/
theorem looksUp_unlockReturn (id : ℕ) :
    LooksUp id false (cacheUnlockReturn w (recorded fails) id) := by
  refine .of_find ?_
  rintro (_ | n)
  · exact .pure _
  · exact .bind (.dropReference _) fun _ => .bind (.nodeUnlock _) fun _ => .pure _

/-- What `cache_try_get` gives of the node it found; it stores into no other node. -/
theorem wp_cacheTryGet {id : ℕ} {lock access : Bool} (h : s.cache.WF) :
    Exec.Wp (cacheTryGet w (recorded fails) id lock access) (fun pointer s' =>
      ∃ r s₁, LookupCase s id access r s₁ ∧ s₁.Touched s' ∧ (r = none → s' = s₁) ∧
        pointer = r.bind fun n => if n.deleted then none else n.pointer) (fun _ => True) s := by
  refine (wp_cacheFind h).bind ?_
  rintro (_ | n) s₁ hcase
  · exact ⟨none, s₁, hcase, .refl s₁, fun _ => rfl, rfl⟩
  · refine (OnlyStores.nodeLock n s₁).bind fun _ s₂ h₂ => ?_
    rw [Exec.wp_ite]
    refine ⟨fun hdeleted => ?_, fun hdeleted => ?_⟩
    · refine (OnlyStores.nodeUnlock n s₂).bind fun _ s₃ h₃ => ?_
      exact ⟨some n, s₁, hcase, h₂.trans h₃, by simp, by simp [hdeleted]⟩
    · have hcount : OnlyStores (nodeStore (recorded fails) n.addr fun n =>
          { n with refcnt := n.refcnt + 1 }) := .nodeStore _ fun _ => ⟨rfl, rfl⟩
      refine (hcount s₂).bind fun _ s₃ h₃ => ?_
      refine (OnlyStores.when (OnlyStores.nodeUnlock n) s₃).bind fun _ s₄ h₄ => ?_
      exact ⟨some n, s₁, hcase, (h₂.trans h₃).trans h₄, by simp, by simp [hdeleted]⟩

/-- The outcomes of an insertion by a client. -/
inductive InsertionCase (s : Client α) (id : ℕ) : Option ℕ → Client α → Prop
  /-- The fifo is full of referenced nodes. -/
  | noRoom (s' : Client α) (hclash : ¬s.cache.fifo.Clashes id) (hwf : s'.cache.WF)
      (hnodes : s'.cache.nodes = s.cache.nodes) (hhanded : s'.handed = s.handed) :
      InsertionCase s id none s'
  /-- The id map of the fifo holds the id; the freed node stays linked. -/
  | clash (s' : Client α) (hclash : s.cache.fifo.Clashes id)
      (hdangling : s'.cache.dangling = true) : InsertionCase s id none s'
  /-- The node is in the fifo; another one may be evicted. -/
  | done (s' : Client α) (gone kept : List (Node α)) (hclash : ¬s.cache.fifo.Clashes id)
      (hwf : s'.cache.WF) (hperm : s.cache.nodes.Perm (gone ++ kept))
      (hnodes : s'.cache.nodes.Perm (s.cache.newNode id :: kept))
      (hhanded : s'.handed = gone.map Node.handed ++ s.handed) (hzero : ∀ d ∈ gone, d.refcnt = 0)
      (hmem : s.cache.newNode id ∈ s'.cache.fifo.nodes) (hlru : s'.cache.lru = s.cache.lru) :
      InsertionCase s id (some s.cache.nextAddr) s'

/-- Every insertion that returns has one of the outcomes, up to stores into nodes. -/
theorem wp_cacheInsertGet {id : ℕ} {lock : Bool} (h : s.cache.WF) :
    Exec.Wp (cacheInsertGet w (recorded fails) id lock) (fun r s' =>
      ∃ s₁, InsertionCase s id r s₁ ∧ s₁.Touched s') (fun _ => True) s := by
  simp only [cacheInsertGet, cacheAlive, Exec.wp_bind, Exec.wp_read, Exec.wp_when,
    Exec.wp_stop, Exec.wp_update]
  refine ⟨fun _ => trivial, fun _ => ?_⟩
  generalize hins : Cache.insert ((recorded fails).get s) id = ins
  have hcase : s.cache.InsertCase id ins := hins ▸ h.insert id
  cases hcase with
  | noRoom _ hclash =>
    have hwf : ({ s.cache with nextAddr := s.cache.nextAddr + 1 } : Cache α).WF :=
      ⟨h.fifo, h.lru, h.addrs_nodup, fun n hn => Nat.lt_succ_of_lt (h.addr_lt n hn), h.alive⟩
    exact ⟨_, .noRoom ⟨_, s.handed⟩ hclash hwf rfl rfl, .refl _⟩
  | clash c' hclash hdangling => exact ⟨_, .clash ⟨c', s.handed⟩ hclash hdangling, .refl _⟩
  | done c' tofree kept hclash hperm hnodes hzero hwf hmem hlru =>
    refine wp_freeEvicted.bind ?_
    rintro _ s₁ ⟨hhanded, leaked, hcache⟩
    refine (OnlyStores.when (OnlyStores.nodeLock _) s₁).bind fun _ s' ht => ?_
    refine ⟨s₁, .done s₁ tofree.toList kept hclash ?_ hperm ?_ hhanded ?_ (by rwa [hcache])
      (by rwa [hcache]), ht⟩
    · rw [hcache]
      exact ⟨hwf.fifo, hwf.lru, hwf.addrs_nodup, hwf.addr_lt, hwf.alive⟩
    · rw [hcache]
      exact hnodes
    · exact fun d hd => hzero d (Option.mem_toList.mp hd)

end

end Efs
