import Efs.CacheClient

/-!
# What leaves the cache

A call keeps every node or hands it over unless a promotion finds the lru queue
full of referenced nodes or an insertion finds its id in the fifo.
-/

namespace Efs

open Library

variable {α : Type}

/-- One call on a cache. -/
inductive CacheCall (α : Type)
  /-- `cache_try_get`. -/
  | tryGet (id : ℕ) (lock access : Bool)
  /-- `cache_insert_get`. -/
  | insertGet (id : ℕ) (lock : Bool)
  /-- `cache_make_dirty`. -/
  | makeDirty (id : ℕ)
  /-- `cache_make_deleted`. -/
  | makeDeleted (id : ℕ)
  /-- `cache_return`. -/
  | giveBack (id : ℕ)
  /-- `cache_unlock_return`. -/
  | unlockGiveBack (id : ℕ)
  /-- The client sets the content of a node, or changes what it points to. -/
  | store (addr : ℕ) (content : Option α)
  /-- `cache_exit`. -/
  | exit

/-- The id a call looks up, and whether it accesses the node. -/
def CacheCall.lookup : CacheCall α → Option (ℕ × Bool)
  | .tryGet id _ access => some (id, access)
  | .makeDirty id => some (id, false)
  | .makeDeleted id => some (id, false)
  | .giveBack id => some (id, false)
  | .unlockGiveBack id => some (id, false)
  | _ => none

section

variable (w : World) (fails : List (Handed α) → Bool)

/-- The program of a call. -/
def CacheCall.run : CacheCall α → Exec Halt (Client α) Unit
  | .tryGet id lock access => do let _ ← cacheTryGet w (recorded fails) id lock access
  | .insertGet id lock => do let _ ← cacheInsertGet w (recorded fails) id lock
  | .makeDirty id => do let _ ← cacheMakeDirty w (recorded fails) id
  | .makeDeleted id => do let _ ← cacheMakeDeleted w (recorded fails) id
  | .giveBack id => do let _ ← cacheReturn w (recorded fails) id
  | .unlockGiveBack id => do let _ ← cacheUnlockReturn w (recorded fails) id
  | .store addr content => do
    cacheAlive (recorded fails)
    nodeStore (recorded fails) addr ({ · with content })
  | .exit => cacheExit (recorded fails)

/-- One call that returns. -/
def CacheStep (s : Client α) (call : CacheCall α) (s' : Client α) : Prop :=
  call.run w fails s = .ok ((), s')

end

/-- A node is found by its id and kept in the lru queue. -/
def KeptInLru (id : ℕ) (s s' : Client α) : Prop :=
  ∀ n, s.cache.node id = some n → ∃ n' ∈ s'.cache.lru.nodes, n'.addr = n.addr

/-- The cache loses no node in a call: only `cache_exit` releases referenced
nodes, no other call leaves a freed node linked, and an access keeps its node. -/
structure Retained (s : Client α) (call : CacheCall α) (s' : Client α) : Prop where
  /-- Every node stays or is handed over. -/
  handsOver : HandsOver (fun n => call = .exit ∨ n.refcnt = 0) s s'
  /-- Every linked node is allocated. -/
  alive : call = .exit ∨ s'.cache.dangling = false
  /-- An accessed node is kept in the lru queue. -/
  kept : ∀ id, call.lookup = some (id, true) → KeptInLru id s s'

/-- A promotion finds room in the lru queue, and an inserted id is not in the
fifo once there is room for it. -/
structure Roomy (s : Client α) (call : CacheCall α) (_ : Client α) : Prop where
  /-- A node in the fifo that is accessed finds room in the lru queue. -/
  promotes : ∀ id, call.lookup = some (id, true) → s.cache.lru.search id = none →
    s.cache.fifo.search id ≠ none → s.cache.lru.HasRoom
  /-- The id map of the fifo takes an inserted id. -/
  inserts : ∀ id lock, call = .insertGet id lock → ¬s.cache.fifo.Clashes id

/-! ## One call -/

section

variable {w : World} {fails : List (Handed α) → Bool} {s : Client α}

/-- A call that looks an id up does nothing else but store into nodes. -/
theorem looksUp_run {call : CacheCall α} {id : ℕ} {access : Bool}
    (hcall : call.lookup = some (id, access)) : LooksUp id access (call.run w fails) := by
  cases call with
  | tryGet id lock access =>
    cases hcall
    refine fun s h => (wp_cacheTryGet h).bind ?_
    rintro _ s' ⟨r, s₁, hcase, ht, _⟩
    exact ⟨r, s₁, hcase, ht⟩
  | makeDirty id => cases hcall; exact (looksUp_makeDirty id).ignore
  | makeDeleted id => cases hcall; exact (looksUp_makeDeleted id).ignore
  | giveBack id => cases hcall; exact (looksUp_return id).ignore
  | unlockGiveBack id => cases hcall; exact (looksUp_unlockReturn id).ignore
  | insertGet | store | exit => cases hcall

/-- An insertion in a call. -/
theorem wp_insertGet {id : ℕ} {lock : Bool} (h : s.cache.WF) :
    Exec.Wp (CacheCall.run w fails (.insertGet id lock)) (fun _ s' =>
      ∃ r s₁, InsertionCase s id r s₁ ∧ s₁.Touched s') (fun _ => True) s :=
  (wp_cacheInsertGet h).bind fun r _ hcase => ⟨r, hcase⟩

/-- The loop of `cache_exit` hands the nodes over in order. -/
theorem wp_freeNodes (l : List (Node α)) : ∀ s : Client α,
    Exec.Wp (freeNodes (recorded fails) l) (fun _ s' =>
      s'.handed = (l.map Node.handed).reverse ++ s.handed ∧
        ∃ leaked, s'.cache = { s.cache with leaked }) (fun _ => True) s := by
  induction l with
  | nil => exact fun s => ⟨rfl, s.cache.leaked, rfl⟩
  | cons n rest ih =>
    intro s
    have hfree : Exec.Wp (nodeFree (recorded fails) n) (fun _ s' =>
        s'.handed = n.handed :: s.handed ∧ ∃ leaked, s'.cache = { s.cache with leaked })
        (fun _ => True) s := by
      simp only [nodeFree, Exec.wp_bind, Exec.wp_when, Exec.wp_update, Exec.wp_pure]
      exact ⟨fun _ => ⟨rfl, _, rfl⟩, fun _ => ⟨rfl, _, rfl⟩⟩
    refine hfree.bind ?_
    rintro _ s₁ ⟨hhanded₁, leaked₁, hcache₁⟩
    refine (ih s₁).imp ?_
    rintro _ s' ⟨hhanded, leaked, hcache⟩
    refine ⟨?_, leaked, by rw [hcache, hcache₁]⟩
    rw [hhanded, hhanded₁]
    simp

/-- `cache_exit` hands every node over. -/
theorem wp_exit : Exec.Wp (CacheCall.run w fails .exit) (fun _ s' =>
    HandsOver (fun _ => True) s s' ∧ s'.cache.dangling = true) (fun _ => True) s := by
  simp only [CacheCall.run, cacheExit, cacheAlive, Exec.wp_bind, Exec.wp_read, Exec.wp_when,
    Exec.wp_stop]
  refine ⟨fun _ => trivial, fun _ => (wp_freeNodes _ s).imp ?_⟩
  rintro _ s₁ ⟨hhanded₁, leaked₁, hcache₁⟩
  refine (wp_freeNodes _ s₁).imp ?_
  rintro _ s₂ ⟨hhanded₂, leaked₂, hcache₂⟩
  refine ⟨⟨(s.cache.fifo.nodes ++ s.cache.lru.nodes).reverse, [], ?_, ?_, by simp, by simp⟩, rfl⟩
  · rw [List.append_nil]
    exact List.perm_append_comm.trans (List.reverse_perm _).symm
  · have hlru : ((recorded fails).get s₁).lru.nodes = s.cache.lru.nodes := by
      simp only [recorded, hcache₁]
    refine hhanded₂.trans ?_
    rw [hhanded₁, hlru]
    simp [recorded]

/-! ## Runs -/

/-- No call is made on a cache that links a freed node. -/
theorem not_step_of_dangling {call : CacheCall α} {s' : Client α}
    (h : s.cache.dangling = true) : ¬CacheStep w fails s call s' := by
  intro hstep
  refine Exec.Wp.of_ok (Q := fun _ _ => False) (E := fun _ => True) ?_ hstep
  cases call <;>
    simp [CacheCall.run, cacheTryGet, cacheInsertGet, cacheMakeDirty, cacheMakeDeleted,
      cacheReturn, cacheUnlockReturn, cacheExit, cacheFind, cacheAlive, recorded, h]

/-- A call that looks an id up retains every node exactly when a promotion finds room. -/
theorem retained_iff_of_lookup {call : CacheCall α} {id : ℕ} {access : Bool} {s' : Client α}
    (hcall : call.lookup = some (id, access)) (h : s.cache.WF)
    (hstep : CacheStep w fails s call s') :
    s'.cache.WF ∧ (Retained s call s' ↔ Roomy s call s') := by
  have hexit : call ≠ .exit := by rintro rfl; cases hcall
  have hinsert : ∀ id lock, call ≠ .insertGet id lock := by rintro _ _ rfl; cases hcall
  obtain ⟨r, s₁, hcase, ht⟩ := (looksUp_run hcall s h).of_ok hstep
  cases hcase with
  | absent hlru hfifo =>
    have hwf := h.touched ht.1
    refine ⟨hwf, iff_of_true ⟨?_, Or.inr hwf.alive, ?_⟩ ⟨?_, fun id lock hi => ?_⟩⟩
    · refine (HandsOver.touched_iff ht).mpr ?_
      exact .of_perm [] (.refl _) rfl (by simp)
    · intro id' hid' n hn
      obtain ⟨rfl, _⟩ := Prod.mk.inj (Option.some.inj (hcall.symm.trans hid'))
      simp [Cache.node, hlru, hfifo] at hn
    · intro id' hid' _ hfound
      obtain ⟨rfl, _⟩ := Prod.mk.inj (Option.some.inj (hcall.symm.trans hid'))
      exact absurd hfifo hfound
    · exact absurd hi (hinsert id lock)
  | found n gone _ hn hwf hperm hhanded hzero _ haccess =>
    refine ⟨hwf.touched ht.1, iff_of_true ⟨?_, Or.inr (hwf.touched ht.1).alive, ?_⟩
      ⟨?_, fun id lock hi => absurd hi (hinsert id lock)⟩⟩
    · exact (HandsOver.touched_iff ht).mpr
        (.of_perm gone hperm hhanded fun d hd => Or.inr (hzero d hd))
    · intro id' hid' m hm
      obtain ⟨rfl, rfl⟩ := Prod.mk.inj (Option.some.inj (hcall.symm.trans hid'))
      obtain rfl := Option.some.inj (hn.symm.trans hm)
      obtain ⟨n', hn', haddr, _⟩ := ht.1.exists_mem_lru (haccess rfl).1
      exact ⟨n', hn', haddr⟩
    · intro id' hid' hlru _
      obtain ⟨rfl, rfl⟩ := Prod.mk.inj (Option.some.inj (hcall.symm.trans hid'))
      exact (haccess rfl).2 hlru
  | lost n _ haccess hlru hfifo hroom hwf hperm hhanded _ =>
    subst haccess
    refine ⟨hwf.touched ht.1, iff_of_false ?_ ?_⟩
    · intro hretained
      exact not_handsOver h hperm hhanded ((HandsOver.touched_iff ht).mp hretained.handsOver)
    · intro hroomy
      exact hroom (hroomy.promotes id hcall hlru (by simp [hfifo]))

/-- A call keeps the cache well formed or leaves a freed node linked, and it
retains every node exactly when it is roomy. -/
theorem retained_iff {call : CacheCall α} {s' : Client α} (h : s.cache.WF)
    (hstep : CacheStep w fails s call s') :
    (s'.cache.WF ∨ s'.cache.dangling = true) ∧ (Retained s call s' ↔ Roomy s call s') := by
  cases hlookup : call.lookup with
  | some found =>
    obtain ⟨hwf, hiff⟩ := retained_iff_of_lookup hlookup h hstep
    exact ⟨Or.inl hwf, hiff⟩
  | none =>
    cases call with
    | exit =>
      obtain ⟨hover, hdangling⟩ := wp_exit.of_ok hstep
      exact ⟨Or.inr hdangling, iff_of_true
        ⟨hover.imp fun _ _ => Or.inl rfl, Or.inl rfl, fun _ hid => by cases hid⟩
        ⟨fun _ hid => (by cases hid), fun _ _ hi => by cases hi⟩⟩
    | insertGet id lock =>
      obtain ⟨_, s₁, hcase, ht⟩ := (wp_insertGet h).of_ok hstep
      cases hcase with
      | clash _ hclash hdangling =>
        have hdangling' := ht.1.dangling_eq.trans hdangling
        refine ⟨Or.inr hdangling', iff_of_false ?_ fun hroomy => hroomy.inserts id lock rfl hclash⟩
        intro hretained
        rcases hretained.alive with hexit | halive
        · cases hexit
        · simp [hdangling'] at halive
      | noRoom _ hclash hwf hnodes hhanded =>
        have hwf' := hwf.touched ht.1
        refine ⟨Or.inl hwf', iff_of_true
          ⟨?_, Or.inr hwf'.alive, fun _ hid => (by cases hid)⟩
          ⟨fun _ hid => (by cases hid), fun _ _ hi => (by cases hi; exact hclash)⟩⟩
        refine (HandsOver.touched_iff ht).mpr (.of_perm [] ?_ hhanded (by simp))
        rw [hnodes, List.nil_append]
      | done _ gone kept hclash hwf hperm hnodes hhanded hzero _ _ =>
        have hwf' := hwf.touched ht.1
        refine ⟨Or.inl hwf', iff_of_true
          ⟨?_, Or.inr hwf'.alive, fun _ hid => (by cases hid)⟩
          ⟨fun _ hid => (by cases hid), fun _ _ hi => (by cases hi; exact hclash)⟩⟩
        refine (HandsOver.touched_iff ht).mpr
          ⟨gone, kept, hperm, hhanded, fun n hn => ⟨n, ?_, rfl⟩, fun d hd => Or.inr (hzero d hd)⟩
        exact hnodes.mem_iff.mpr (List.mem_cons_of_mem _ hn)
    | store addr content =>
      have hwp : Exec.Wp (CacheCall.run w fails (.store addr content)) (fun _ s' => s.Touched s')
          (fun _ => True) s := by
        refine OnlyStores.bind (.bind ?_ fun _ => .when (.stop _)) (fun _ => .nodeStore _ ?_) s
        · exact fun s => .refl s
        · exact fun _ => ⟨rfl, rfl⟩
      have ht := hwp.of_ok hstep
      have hwf := h.touched ht.1
      refine ⟨Or.inl hwf, iff_of_true ⟨?_, Or.inr hwf.alive, fun _ hid => by cases hid⟩
        ⟨fun _ hid => (by cases hid), fun _ _ hi => by cases hi⟩⟩
      exact (HandsOver.touched_iff ht).mpr (.of_perm [] (.refl _) rfl (by simp))
    | tryGet | makeDirty | makeDeleted | giveBack | unlockGiveBack => cases hlookup

end

/-- The cache retains its nodes in exactly the runs in which every promotion
finds room in the lru queue and every inserted id is new to the fifo. -/
theorem cache_retains_iff (w : World) (fails : List (Handed α) → Bool) (s : Client α)
    (h : s.cache.WF) (calls : List (CacheCall α)) :
    Always (CacheStep w fails) Retained s calls ↔ Always (CacheStep w fails) Roomy s calls := by
  refine Always.congr (I := fun s => s.cache.WF ∨ s.cache.dangling = true) ?_ ?_ (Or.inl h) calls
  · rintro s call s' (hwf | hdangling) hstep _
    · exact (retained_iff hwf hstep).1
    · exact absurd hstep (not_step_of_dangling hdangling)
  · rintro s call s' (hwf | hdangling) hstep
    · exact (retained_iff hwf hstep).2
    · exact absurd hstep (not_step_of_dangling hdangling)

/-- The theorem at a cache that is used for the first time. -/
theorem cache_retains_iff_empty :
    Always (CacheStep World.plain fun _ => true) Retained (⟨.empty, []⟩ : Client ℕ)
        [.insertGet 7 false, .tryGet 7 false true] ↔
      Always (CacheStep World.plain fun _ => true) Roomy (⟨.empty, []⟩ : Client ℕ)
        [.insertGet 7 false, .tryGet 7 false true] :=
  cache_retains_iff _ _ _ .empty _

/-! ## A node that is lost -/

/-- The calls that insert the first `k` ids and promote each of them. -/
def fillCalls (k : ℕ) : List (CacheCall Unit) :=
  (List.range k).flatMap fun id => [.insertGet id false, .tryGet id false true]

/-- A node of the cache after `fillCalls`. -/
def filledNode (id : ℕ) : Node Unit := ⟨id, id, 2, false, false, none, false⟩

/-- A node of the cache after its insertion. -/
def freshNode (id : ℕ) : Node Unit := ⟨id, id, 1, false, false, none, false⟩

/-- The lru queue after `fillCalls k`. -/
def filledLru (k : ℕ) : Queue Unit := ⟨(List.range k).reverse.map filledNode, k⟩

/-- The cache after `fillCalls k`, with the given fifo and next address. -/
def filled (k next : ℕ) (fifo : Queue Unit) : Client Unit :=
  ⟨⟨fifo, filledLru k, [], next, false⟩, []⟩

/-- The nodes of a filled queue. -/
theorem mem_filledLru {k : ℕ} {n : Node Unit} :
    n ∈ (filledLru k).nodes ↔ ∃ id < k, filledNode id = n := by
  simp [filledLru]

/-- A filled queue is well formed. -/
theorem filledLru_wf {k : ℕ} (hk : k ≤ queueMaxLen) : (filledLru k).WF := by
  refine ⟨by simp [filledLru], hk, ?_⟩
  have hids : (·.id) ∘ filledNode = id := rfl
  rw [filledLru, List.map_map, hids, List.map_id]
  exact List.nodup_reverse.mpr List.nodup_range

/-- The next id and address are new to a filled queue. -/
theorem filledLru_fresh {k : ℕ} : ∀ n ∈ (filledLru k).nodes, n.id ≠ k ∧ n.addr ≠ k := by
  intro n hn
  obtain ⟨id, hid, rfl⟩ := mem_filledLru.mp hn
  exact ⟨hid.ne, hid.ne⟩

/-- A new node enters the fifo. -/
theorem filled_insert (k : ℕ) : CacheStep World.plain (fun _ => false) (filled k k .empty)
    (.insertGet k false) (filled k (k + 1) ⟨[freshNode k], 1⟩) := rfl

/-- The new node is promoted while the lru queue is not full. -/
theorem filled_promote {k : ℕ} (hk : k < queueMaxLen) : CacheStep World.plain (fun _ => false)
    (filled k (k + 1) ⟨[freshNode k], 1⟩) (.tryGet k false true)
    (filled (k + 1) (k + 1) .empty) := by
  have hsearch := (filledLru_wf hk.le).search_eq_none.mpr fun n hn => (filledLru_fresh n hn).1
  have hfifo : (⟨[freshNode k], 1⟩ : Queue Unit).search k = some (freshNode k) := by
    simp [Queue.search, freshNode]
  have hevict : (⟨[freshNode k], 1⟩ : Queue Unit).evict k = .empty := by
    simp [Queue.evict, freshNode, Queue.empty]
  have hroom : (filledLru k).makeRoom = some (none, filledLru k) :=
    if_neg (Nat.not_le_of_lt hk)
  have hins : (filledLru k).insertToHead (freshNode k) =
      .done ⟨freshNode k :: (filledLru k).nodes, k + 1⟩ none := by
    rcases (filledLru_wf hk.le).insertToHead (freshNode k) with
      ⟨hno, _⟩ | ⟨wb, q, hq, ⟨hclash, _⟩ | ⟨_, hins, _⟩⟩
    · exact absurd (Or.inl hk) hno
    · exact absurd hclash ((filledLru_wf hk.le).not_clashes fun n hn => (filledLru_fresh n hn).1)
    · obtain ⟨rfl, rfl⟩ := Prod.mk.inj (Option.some.inj (hroom.symm.trans hq))
      exact hins
  have hfind : (filled k (k + 1) ⟨[freshNode k], 1⟩).cache.find k true =
      ⟨⟨.empty, ⟨freshNode k :: (filledLru k).nodes, k + 1⟩, [], k + 1, false⟩,
        some (freshNode k), none, false, false⟩ := by
    simp only [Cache.find, filled, hsearch, hfifo, hevict, hins, if_true]
  have hmap : ∀ f : Node Unit → Node Unit,
      ((filledLru k).nodes.map fun n => if n.addr = k then f n else n) = (filledLru k).nodes := by
    intro f
    refine (List.map_congr_left fun n hn => ?_).trans (List.map_id _)
    rw [if_neg (filledLru_fresh n hn).2, id]
  have hstore : ∀ (n : Node Unit) (f : Node Unit → Node Unit), n.addr = k →
      (⟨.empty, ⟨n :: (filledLru k).nodes, k + 1⟩, [], k + 1, false⟩ : Cache Unit).modify k f =
        ⟨.empty, ⟨f n :: (filledLru k).nodes, k + 1⟩, [], k + 1, false⟩ := by
    intro n f hn
    simp only [Cache.modify, Queue.modify, Queue.empty, List.map_nil, List.map_cons, hn, if_true,
      hmap]
  have hlast : (filledLru (k + 1)) = ⟨filledNode k :: (filledLru k).nodes, k + 1⟩ := by
    simp [filledLru, List.range_succ]
  have hlookup := @cacheFind_eq (Client Unit) Unit World.plain (recorded fun _ => false) k true
    (filled k (k + 1) ⟨[freshNode k], 1⟩) _ rfl hfind rfl rfl (Or.inl rfl)
  simp only [CacheStep, CacheCall.run, cacheTryGet, Exec.bind_apply, hlookup]
  simp only [nodeLock, nodeUnlock, nodeStore, recorded, freshNode, Exec.when, Bool.false_eq_true,
    ↓reduceIte, Bool.not_false, Exec.pure_apply, Exec.bind_apply, Exec.update_apply, hstore]
  simp only [filled, hlast, filledNode]

/-- Filling the lru queue with referenced nodes. -/
theorem fill_run {k : ℕ} (hk : k ≤ queueMaxLen) :
    Run (CacheStep World.plain fun _ => false) ⟨.empty, []⟩ (fillCalls k) (filled k k .empty) := by
  induction k with
  | zero => exact .nil _
  | succ k ih =>
    have hcalls : fillCalls (k + 1) =
        fillCalls k ++ [.insertGet k false, .tryGet k false true] := by
      simp [fillCalls, List.range_succ]
    rw [hcalls]
    exact (ih (by omega)).append
      (.cons (filled_insert k) (.cons (filled_promote (by omega)) (.nil _)))

/-- The queue that is filled to its bound has no room. -/
theorem filledLru_full : ¬(filledLru queueMaxLen).HasRoom := by
  rintro (hlt | ⟨n, hn, hzero⟩)
  · exact lt_irrefl _ hlt
  · obtain ⟨id, _, rfl⟩ := mem_filledLru.mp hn
    cases hzero

/-- The next id is not found in the queue that is filled to its bound. -/
theorem filledLru_search : (filledLru queueMaxLen).search queueMaxLen = none :=
  (filledLru_wf le_rfl).search_eq_none.mpr fun n hn => (filledLru_fresh n hn).1

/-- An access to one more node returns and drops it from the fifo. -/
theorem filled_lose : CacheStep World.plain (fun _ => false)
    (filled queueMaxLen (queueMaxLen + 1) ⟨[freshNode queueMaxLen], 1⟩)
    (.tryGet queueMaxLen false true)
    ⟨⟨.empty, filledLru queueMaxLen, [freshNode queueMaxLen], queueMaxLen + 1, false⟩, []⟩ := by
  have hins : (filledLru queueMaxLen).insertToHead (freshNode queueMaxLen) = .noRoom := by
    rcases (filledLru_wf le_rfl).insertToHead (freshNode queueMaxLen) with
      ⟨_, hins⟩ | ⟨wb, q, hroom, _⟩
    · exact hins
    · exact absurd (Queue.makeRoom_isSome.mp (by rw [hroom]; rfl)) filledLru_full
  have hfind : (filled queueMaxLen (queueMaxLen + 1) ⟨[freshNode queueMaxLen], 1⟩).cache.find
      queueMaxLen true = ⟨⟨.empty, filledLru queueMaxLen, [freshNode queueMaxLen],
        queueMaxLen + 1, false⟩, none, none, false, true⟩ := by
    simp only [Cache.find, filled, filledLru_search]
    simp [Queue.search, Queue.evict, Queue.empty, freshNode] at hins ⊢
    simp [hins]
  have hlookup := @cacheFind_eq (Client Unit) Unit World.plain (recorded fun _ => false)
    queueMaxLen true (filled queueMaxLen (queueMaxLen + 1) ⟨[freshNode queueMaxLen], 1⟩) _ rfl
    hfind rfl rfl (Or.inr rfl)
  simp only [CacheStep, CacheCall.run, cacheTryGet, Exec.bind_apply, hlookup, Exec.pure_apply]
  rfl

/-- A cache full of referenced nodes loses the next node that is accessed twice. -/
theorem cache_loses_node :
    ¬Always (CacheStep World.plain fun _ => false) Retained (⟨.empty, []⟩ : Client Unit)
      (fillCalls 256 ++ [.insertGet 256 false, .tryGet 256 false true]) := by
  intro hall
  have hrun := (fill_run le_rfl).append (.cons (filled_insert queueMaxLen) (.nil _))
  have hlost := hall (fillCalls 256 ++ [.insertGet 256 false]) (.tryGet 256 false true) [] _ _
    (by simp) hrun filled_lose
  obtain ⟨n, hn, haddr⟩ := hlost.kept queueMaxLen rfl (freshNode queueMaxLen) (by
    simp only [Cache.node, filled, filledLru_search]
    simp [Queue.search, freshNode])
  exact (filledLru_fresh n hn).2 haddr

end Efs
