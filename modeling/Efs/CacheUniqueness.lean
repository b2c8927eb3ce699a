import Efs.CacheClient

/-!
# One node for each id

Clients that get or insert nodes, mark them, and give them back. An id has one
node over both queues, and a referenced node is the one its id leads to, unless
the protocol misses a node that is there: one that is deleted, one whose content
was never set, or a referenced one that finds no room in the lru queue.
-/

namespace Efs

open Library

variable {α : Type}

/-- No id has two nodes. -/
def Cache.OneNode (c : Cache α) : Prop := (c.nodes.map (·.id)).Nodup

/-- The empty cache has one node for each id. -/
theorem Cache.OneNode.empty : (Cache.empty : Cache α).OneNode := List.nodup_nil

/-- In a cache with one node for each id, the node of an id is the one its lookup finds. -/
theorem Cache.WF.node_eq_some {c : Cache α} (h : c.WF) (hone : c.OneNode) {id : ℕ} {n : Node α} :
    c.node id = some n ↔ n ∈ c.nodes ∧ n.id = id := by
  have hfind : ∀ {m : Node α}, c.node id = some m → m ∈ c.nodes ∧ m.id = id := by
    intro m hm
    unfold Cache.node at hm
    cases hlru : c.lru.search id with
    | some m' =>
      rw [hlru] at hm
      obtain rfl := Option.some.inj hm
      obtain ⟨hmem, hid⟩ := h.lru.search_eq_some.mp hlru
      exact ⟨Cache.mem_nodes.mpr (Or.inl hmem), hid⟩
    | none =>
      rw [hlru] at hm
      obtain ⟨hmem, hid⟩ := h.fifo.search_eq_some.mp hm
      exact ⟨Cache.mem_nodes.mpr (Or.inr hmem), hid⟩
  refine ⟨hfind, ?_⟩
  rintro ⟨hmem, hid⟩
  cases hnode : c.node id with
  | some m =>
    obtain ⟨hm, hmid⟩ := hfind hnode
    rw [List.inj_on_of_nodup_map hone hm hmem (hmid.trans hid.symm)]
  | none =>
    unfold Cache.node at hnode
    cases hlru : c.lru.search id with
    | some m' => simp [hlru] at hnode
    | none =>
      rw [hlru] at hnode
      rcases Cache.mem_nodes.mp hmem with hn | hn
      · exact absurd hid (h.lru.search_eq_none.mp hlru n hn)
      · exact absurd hid (h.fifo.search_eq_none.mp hnode n hn)

/-- One call of a client that follows the protocol. -/
inductive ProtocolCall (α : Type)
  /-- `cache_try_get` and, when it gives a null pointer, `cache_insert_get`. -/
  | getOrInsert (id : ℕ) (lock : Bool) (loaded : Option α)
  /-- `cache_make_dirty`. -/
  | makeDirty (id : ℕ)
  /-- `cache_make_deleted`. -/
  | makeDeleted (id : ℕ)
  /-- `cache_node_lock`. -/
  | lock (id : ℕ)
  /-- `cache_node_unlock`. -/
  | unlock (id : ℕ)
  /-- `cache_return`. -/
  | giveBack (id : ℕ)
  /-- `cache_unlock_return`. -/
  | unlockGiveBack (id : ℕ)

section

variable (w : World) (fails : List (Handed α) → Bool)

/-- The program of a call. -/
def ProtocolCall.run : ProtocolCall α → Exec Halt (Client α) Unit
  | .getOrInsert id lk loaded => do let _ ← cacheGetOrInsert w (recorded fails) id lk loaded
  | .makeDirty id => do let _ ← cacheMakeDirty w (recorded fails) id
  | .makeDeleted id => do let _ ← cacheMakeDeleted w (recorded fails) id
  | .lock id => do let _ ← cacheNodeLock w (recorded fails) id
  | .unlock id => do let _ ← cacheNodeUnlock w (recorded fails) id
  | .giveBack id => do let _ ← cacheReturn w (recorded fails) id
  | .unlockGiveBack id => do let _ ← cacheUnlockReturn w (recorded fails) id

/-- One call that returns. -/
def ProtocolStep (s : Client α) (call : ProtocolCall α) (s' : Client α) : Prop :=
  call.run w fails s = .ok ((), s')

end

/-- After a call every id has one node, and the id of a node that was referenced
leads to it. -/
structure Single (s : Client α) (_ : ProtocolCall α) (s' : Client α) : Prop where
  /-- No id has two nodes. -/
  unique : s'.cache.OneNode
  /-- A call by id acts on the node that a caller holds. -/
  acts : ∀ n ∈ s.cache.nodes, n.refcnt ≠ 0 → ∃ n', s'.cache.node n.id = some n' ∧ n'.addr = n.addr

/-- The id of a call is not cached, or its node stays in the cache, is not deleted
and has content, or it is dropped while nobody holds it. -/
def Fetchable (s : Client α) (call : ProtocolCall α) (_ : Client α) : Prop :=
  ∀ id lock loaded, call = .getOrInsert id lock loaded → ∀ n, s.cache.node id = some n →
    if s.cache.lru.search id = none → s.cache.lru.HasRoom then
      n.deleted = false ∧ n.content ≠ none
    else n.refcnt = 0

/-! ## Calls that keep every node -/

section

variable {w : World} {fails : List (Handed α) → Bool} {s s₁ s' : Client α}

/-- Dropping nodes keeps the ids distinct. -/
theorem oneNode_of_perm {c c' : Cache α} {gone : List (Node α)} (hone : c.OneNode)
    (hperm : c.nodes.Perm (gone ++ c'.nodes)) : c'.OneNode := by
  have hnodup := (hperm.map Node.id).nodup_iff.mp hone
  rw [List.map_append] at hnodup
  exact hnodup.of_append_right

/-- Stores keep the ids distinct. -/
theorem oneNode_of_touched {c c' : Cache α} (hone : c.OneNode) (ht : c.Touched c') :
    c'.OneNode := by
  unfold Cache.OneNode
  rw [ht.map_eq.1]
  exact hone

/-- A call that evicts unreferenced nodes and stores into the others is single. -/
theorem single_of_perm {call : ProtocolCall α} (gone : List (Node α)) (hone : s.cache.OneNode)
    (hwf : s₁.cache.WF) (hperm : s.cache.nodes.Perm (gone ++ s₁.cache.nodes))
    (hzero : ∀ d ∈ gone, d.refcnt = 0) (ht : s₁.Touched s') : Single s call s' := by
  have hone' := oneNode_of_touched (oneNode_of_perm hone hperm) ht.1
  refine ⟨hone', fun n hn href => ?_⟩
  rcases List.mem_append.mp (hperm.mem_iff.mp hn) with hgone | hkept
  · exact absurd (hzero n hgone) href
  · obtain ⟨n', hn', haddr, hid⟩ := ht.1.exists_mem hkept
    exact ⟨n', ((hwf.touched ht.1).node_eq_some hone').mpr ⟨hn', hid⟩, haddr⟩

/-- The lookup of a call that is not a fetch. -/
def ProtocolCall.lookup : ProtocolCall α → Option ℕ
  | .getOrInsert _ _ _ => none
  | .makeDirty id | .makeDeleted id | .lock id | .unlock id | .giveBack id
  | .unlockGiveBack id => some id

/-- A call that is not a fetch looks its id up and stores into the node. -/
theorem looksUp_mark {call : ProtocolCall α} {id : ℕ} (hcall : call.lookup = some id) :
    LooksUp id false (call.run w fails) := by
  cases call with
  | getOrInsert => cases hcall
  | makeDirty id => cases hcall; exact (looksUp_makeDirty id).ignore
  | makeDeleted id => cases hcall; exact (looksUp_makeDeleted id).ignore
  | lock id => cases hcall; exact (looksUp_nodeLock id).ignore
  | unlock id => cases hcall; exact (looksUp_nodeUnlock id).ignore
  | giveBack id => cases hcall; exact (looksUp_return id).ignore
  | unlockGiveBack id => cases hcall; exact (looksUp_unlockReturn id).ignore

/-- A call that is not a fetch is single. -/
theorem single_of_mark {call : ProtocolCall α} {id : ℕ} (hcall : call.lookup = some id)
    (h : s.cache.WF) (hone : s.cache.OneNode) (hstep : ProtocolStep w fails s call s') :
    s'.cache.WF ∧ Single s call s' := by
  obtain ⟨r, s₁, hcase, ht⟩ := (looksUp_mark hcall s h).of_ok hstep
  cases hcase with
  | absent =>
    exact ⟨h.touched ht.1, single_of_perm [] hone h (.refl _) (by simp) ht⟩
  | found n gone _ hn hwf hperm hhanded hzero =>
    exact ⟨hwf.touched ht.1, single_of_perm gone hone hwf hperm hzero ht⟩
  | lost n _ haccess => cases haccess

/-! ## Fetches -/

/-- When no node has the id, an insertion after the loss of unreferenced nodes is single. -/
theorem single_of_insert {call : ProtocolCall α} {id : ℕ} {r : Option ℕ} {s₂ : Client α}
    (lost : List (Node α)) (hone : s.cache.OneNode)
    (hperm₁ : s.cache.nodes.Perm (lost ++ s₁.cache.nodes)) (hlost : ∀ d ∈ lost, d.refcnt = 0)
    (hnew : ∀ n ∈ s₁.cache.nodes, n.id ≠ id) (hcase : InsertionCase s₁ id r s₂) (hr : r ≠ none)
    (ht : s₂.Touched s') : s'.cache.WF ∧ Single s call s' := by
  cases hcase with
  | noRoom => exact absurd rfl hr
  | clash => exact absurd rfl hr
  | done _ gone kept _ hwf hperm hnodes _ hzero _ _ =>
    have hone₂ : s₂.cache.OneNode := by
      have hnodup := (hperm.map Node.id).nodup_iff.mp (oneNode_of_perm hone hperm₁)
      rw [List.map_append] at hnodup
      refine (hnodes.map Node.id).nodup_iff.mpr (List.nodup_cons.mpr ⟨?_, hnodup.of_append_right⟩)
      intro hmem
      obtain ⟨n, hn, hid⟩ := List.mem_map.mp hmem
      exact hnew n (hperm.mem_iff.mpr (List.mem_append_right _ hn)) hid
    have hwf' := hwf.touched ht.1
    have hone' := oneNode_of_touched hone₂ ht.1
    refine ⟨hwf', hone', fun n hn href => ?_⟩
    rcases List.mem_append.mp (hperm₁.mem_iff.mp hn) with hn | hn
    · exact absurd (hlost n hn) href
    rcases List.mem_append.mp (hperm.mem_iff.mp hn) with hn | hn
    · exact absurd (hzero n hn) href
    obtain ⟨n', hn', haddr, hid⟩ :=
      ht.1.exists_mem (hnodes.mem_iff.mpr (List.mem_cons_of_mem _ hn))
    exact ⟨n', (hwf'.node_eq_some hone').mpr ⟨hn', hid⟩, haddr⟩

/-- When the lru queue holds the id, an insertion gives it a second node. -/
theorem insert_twice {id : ℕ} {r : Option ℕ} {n : Node α} (hn : n ∈ s.cache.lru.nodes)
    (hid : n.id = id) (hcase : InsertionCase s id r s₁) (hr : r ≠ none) : s₁.cache.WF ∧
      ¬s₁.cache.OneNode := by
  cases hcase with
  | noRoom => exact absurd rfl hr
  | clash => exact absurd rfl hr
  | done _ gone kept _ hwf hperm hnodes _ hzero hmem hlru =>
    refine ⟨hwf, fun htwo => ?_⟩
    unfold Cache.OneNode Cache.nodes at htwo
    rw [List.map_append] at htwo
    rw [← hlru] at hn
    exact List.disjoint_of_nodup_append htwo (List.mem_map_of_mem hn)
      (by rw [hid]; exact List.mem_map_of_mem (f := Node.id) hmem)

/-- What a fetch does: it finds the node and its content, it inserts a node after
a lookup that found none, or it inserts a node although the lookup found one. -/
inductive FetchCase (s : Client α) (id : ℕ) : Client α → Prop
  /-- The node has content and is not deleted. -/
  | hit (n : Node α) (s₁ s' : Client α) (hcase : LookupCase s id true (some n) s₁)
      (ht : s₁.Touched s') (hdeleted : n.deleted = false) (hcontent : n.content ≠ none) :
      FetchCase s id s'
  /-- A node is inserted after a lookup that gave nothing. -/
  | missed (r : Option (Node α)) (s₁ s₂ s₃ s' : Client α) (addr : ℕ)
      (hcase : LookupCase s id true r s₁) (ht : s₁.Touched s₂) (hsame : r = none → s₂ = s₁)
      (hmiss : ∀ n ∈ r, n.deleted = true ∨ n.content = none)
      (hins : InsertionCase s₂ id (some addr) s₃) (ht' : s₃.Touched s') : FetchCase s id s'

/-- Every fetch that returns is one of the two. -/
theorem wp_getOrInsert {id : ℕ} {lock : Bool} {loaded : Option α} (h : s.cache.WF) :
    Exec.Wp (cacheGetOrInsert w (recorded fails) id lock loaded) (fun _ s' => FetchCase s id s')
      (fun _ => True) s := by
  refine (wp_cacheTryGet h).bind ?_
  rintro pointer s₂ ⟨r, s₁, hcase, ht, hsame, rfl⟩
  have hwf₂ : s₂.cache.WF := by
    cases hcase with
    | absent => exact h.touched ht.1
    | found _ _ _ _ hwf => exact hwf.touched ht.1
    | lost _ _ _ _ _ _ hwf => exact hwf.touched ht.1
  cases hcontent : r.bind fun n => if n.deleted then none else n.pointer with
  | some pointer =>
    obtain ⟨n, rfl, hn⟩ := Option.bind_eq_some_iff.mp hcontent
    by_cases hdeleted : n.deleted = true
    · simp [hdeleted] at hn
    · refine .hit n s₁ s₂ hcase ht (by simpa using hdeleted) ?_
      rintro hnull
      simp [hdeleted, Node.pointer, hnull] at hn
  | none =>
    have hmiss : ∀ n ∈ r, n.deleted = true ∨ n.content = none := by
      rintro n rfl
      by_cases hdeleted : n.deleted = true
      · exact Or.inl hdeleted
      · exact Or.inr (by simpa [hdeleted, Node.pointer] using hcontent)
    refine (wp_cacheInsertGet hwf₂).bind ?_
    rintro (_ | addr) s₄ ⟨s₃, hins, ht'⟩
    · trivial
    · have hstore : OnlyStores (nodeStore (recorded fails) addr fun n =>
          { n with content := loaded }) := .nodeStore _ fun _ => ⟨rfl, rfl⟩
      exact (hstore s₄).bind fun _ s₅ ht'' =>
        .missed r s₁ s₂ s₃ s₅ addr hcase ht hsame hmiss hins (ht'.trans ht'')

/-- The loss of a referenced node is not single. -/
theorem not_single_of_lost {call : ProtocolCall α} {id : ℕ} {r : Option ℕ} {s₂ : Client α}
    {n : Node α} (h : s.cache.WF)
    (hperm₁ : s.cache.nodes.Perm (n :: s₁.cache.nodes))
    (hnext : s₁.cache.nextAddr = s.cache.nextAddr) (hcase : InsertionCase s₁ id r s₂)
    (hr : r ≠ none) (ht : s₂.Touched s') (hsingle : Single s call s') : n.refcnt = 0 := by
  by_contra href
  have hn : n ∈ s.cache.nodes := hperm₁.mem_iff.mpr List.mem_cons_self
  obtain ⟨n', hnode, haddr⟩ := hsingle.acts n hn href
  cases hcase with
  | noRoom => exact hr rfl
  | clash => exact hr rfl
  | done _ gone kept _ hwf hperm hnodes _ _ _ _ =>
    have hn' := (((hwf.touched ht.1).node_eq_some hsingle.unique).mp hnode).1
    have hmem : n.addr ∈ s₂.cache.nodes.map Node.addr := by
      rw [← ht.1.map_eq.2, ← haddr]
      exact List.mem_map_of_mem hn'
    obtain ⟨m, hm, hmaddr⟩ := List.mem_map.mp hmem
    rcases List.mem_cons.mp (hnodes.mem_iff.mp hm) with rfl | hm
    · have hlt := h.addr_lt n hn
      simp only [Cache.newNode, hnext] at hmaddr
      omega
    · have hnodup := (hperm₁.map Node.addr).nodup_iff.mp h.addrs_nodup
      refine (List.nodup_cons.mp hnodup).1 ?_
      rw [← hmaddr]
      exact List.mem_map_of_mem (hperm.mem_iff.mpr (List.mem_append_right _ hm))

/-- A fetch is single exactly when its node is fetchable. -/
theorem single_iff_of_fetch {id : ℕ} {lock : Bool} {loaded : Option α} (h : s.cache.WF)
    (hone : s.cache.OneNode) (hstep : ProtocolStep w fails s (.getOrInsert id lock loaded) s') :
    s'.cache.WF ∧ (Single s (.getOrInsert id lock loaded) s' ↔
      Fetchable s (.getOrInsert id lock loaded) s') := by
  have hiff : ∀ n, s.cache.node id = some n →
      (Fetchable s (.getOrInsert id lock loaded) s' ↔
        if s.cache.lru.search id = none → s.cache.lru.HasRoom then
          n.deleted = false ∧ n.content ≠ none
        else n.refcnt = 0) := by
    intro n hn
    refine ⟨fun hf => hf id lock loaded rfl n hn, ?_⟩
    rintro hcond id' lock' loaded' hcall m hm
    cases hcall
    obtain rfl := Option.some.inj (hn.symm.trans hm)
    exact hcond
  have hwp : Exec.Wp (ProtocolCall.run w fails (.getOrInsert id lock loaded))
      (fun _ s' => FetchCase s id s') (fun _ => True) s :=
    (wp_getOrInsert h).bind fun _ _ hcase => hcase
  cases hwp.of_ok hstep with
  | hit n s₁ _ hcase ht hdeleted hcontent =>
    cases hcase with
    | found _ gone _ hn hwf hperm _ hzero _ haccess =>
      refine ⟨hwf.touched ht.1, iff_of_true (single_of_perm gone hone hwf hperm hzero ht) ?_⟩
      rw [hiff n hn, if_pos (haccess rfl).2]
      exact ⟨hdeleted, hcontent⟩
  | missed r s₁ s₂ s₃ _ addr hcase ht hsame hmiss hins ht' =>
    cases hcase with
    | absent hlru hfifo =>
      rw [hsame rfl] at hins
      have hnode : s.cache.node id = none := by simp only [Cache.node, hlru, hfifo]
      have hnew : ∀ n ∈ s.cache.nodes, n.id ≠ id := by
        intro n hn hid
        have := (h.node_eq_some hone).mpr ⟨hn, hid⟩
        rw [hnode] at this
        cases this
      obtain ⟨hwf', hsingle⟩ := single_of_insert [] hone (.refl _) (by simp) hnew hins
        (by simp) ht'
      refine ⟨hwf', iff_of_true hsingle ?_⟩
      rintro id' lock' loaded' hcall m hm
      cases hcall
      rw [hnode] at hm
      cases hm
    | found n gone _ hn hwf hperm _ hzero _ haccess =>
      obtain ⟨hlru, hroom⟩ := haccess rfl
      obtain ⟨n₂, hn₂, _, hid₂⟩ := ht.1.exists_mem_lru hlru
      have hid : n.id = id := ((h.node_eq_some hone).mp hn).2
      obtain ⟨hwf₃, htwo⟩ := insert_twice hn₂ (hid₂.trans hid) hins (by simp)
      refine ⟨hwf₃.touched ht'.1, iff_of_false ?_ ?_⟩
      · intro hsingle
        apply htwo
        have hone' := hsingle.unique
        unfold Cache.OneNode at hone' ⊢
        rwa [ht'.1.map_eq.1] at hone'
      · rw [hiff n hn, if_pos hroom]
        rintro ⟨hdeleted, hcontent⟩
        rcases hmiss n rfl with hmiss | hmiss
        · simp [hdeleted] at hmiss
        · exact hcontent hmiss
    | lost n _ _ hlru hfifo hroom hwf hperm _ hnext =>
      rw [hsame rfl] at hins
      have hnode : s.cache.node id = some n := by simp only [Cache.node, hlru, hfifo]
      have hid : n.id = id := ((h.node_eq_some hone).mp hnode).2
      have hnew : ∀ m ∈ s₁.cache.nodes, m.id ≠ id := by
        intro m hm hmid
        have hnodup := (hperm.map Node.id).nodup_iff.mp hone
        rw [List.map_cons, hid, ← hmid] at hnodup
        exact (List.nodup_cons.mp hnodup).1 (List.mem_map_of_mem hm)
      have hwf' : s'.cache.WF := by
        cases hins with
        | done _ _ _ _ hwf₃ => exact hwf₃.touched ht'.1
      refine ⟨hwf', ?_⟩
      rw [hiff n hnode, if_neg fun himp => hroom (himp hlru)]
      constructor
      · exact not_single_of_lost h hperm hnext hins (by simp) ht'
      · intro hzero
        exact (single_of_insert [n] hone hperm (by simpa using hzero) hnew hins
          (by simp) ht').2

/-- A call is single exactly when the node it fetches is fetchable. -/
theorem single_iff {call : ProtocolCall α} (h : s.cache.WF) (hone : s.cache.OneNode)
    (hstep : ProtocolStep w fails s call s') :
    s'.cache.WF ∧ (Single s call s' ↔ Fetchable s call s') := by
  cases hlookup : call.lookup with
  | some id =>
    obtain ⟨hwf, hsingle⟩ := single_of_mark hlookup h hone hstep
    refine ⟨hwf, iff_of_true hsingle ?_⟩
    rintro id' lock loaded rfl
    cases hlookup
  | none =>
    cases call with
    | getOrInsert id lock loaded => exact single_iff_of_fetch h hone hstep
    | _ => cases hlookup

end

/-- Every id has one node, and the ids of referenced nodes lead to them, in
exactly the runs in which every fetch finds its node or a free id. -/
theorem cache_single_iff (w : World) (fails : List (Handed α) → Bool) (s : Client α)
    (h : s.cache.WF) (hone : s.cache.OneNode) (calls : List (ProtocolCall α)) :
    Always (ProtocolStep w fails) Single s calls ↔
      Always (ProtocolStep w fails) Fetchable s calls := by
  refine Always.congr (I := fun s => s.cache.WF ∧ s.cache.OneNode) ?_ ?_ ⟨h, hone⟩ calls
  · rintro s call s' ⟨hwf, hone⟩ hstep hsingle
    exact ⟨(single_iff hwf hone hstep).1, hsingle.unique⟩
  · rintro s call s' ⟨hwf, hone⟩ hstep
    exact (single_iff hwf hone hstep).2

/-- The theorem at a run that fetches, marks and gives back one node. -/
theorem cache_single_iff_fetched :
    Always (ProtocolStep World.plain fun _ => false) Single (⟨.empty, []⟩ : Client ℕ)
        [.getOrInsert 7 true (some 1), .makeDirty 7, .unlockGiveBack 7] ↔
      Always (ProtocolStep World.plain fun _ => false) Fetchable (⟨.empty, []⟩ : Client ℕ)
        [.getOrInsert 7 true (some 1), .makeDirty 7, .unlockGiveBack 7] :=
  cache_single_iff _ _ _ .empty .empty _

/-- A fetch of an id whose node is deleted inserts a second node. -/
theorem deleted_node_twice :
    ¬Always (ProtocolStep World.plain fun _ => false) Single (⟨.empty, []⟩ : Client ℕ)
      [.getOrInsert 7 false (some 1), .makeDeleted 7, .giveBack 7,
        .getOrInsert 7 false (some 2)] := by
  intro hall
  have hlast := hall [.getOrInsert 7 false (some 1), .makeDeleted 7, .giveBack 7]
    (.getOrInsert 7 false (some 2)) [] _ _ rfl (.cons rfl (.cons rfl (.cons rfl (.nil _)))) rfl
  exact absurd hlast.unique (by unfold Cache.OneNode; decide)

end Efs
