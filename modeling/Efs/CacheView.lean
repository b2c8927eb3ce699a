import Efs.CacheUniqueness
import Mathlib.Data.Finset.Card

/-!
# A cache as a map from ids to nodes

While every id has one node, a cache shows a map from ids to nodes. A lookup
leaves the map alone or takes an unreferenced node out of it, an insertion adds a
node, and a store changes one. The rules here give the calls of a client by what
they do to the map; what an eviction does is left to the callback.
-/

namespace Efs

open Library

variable {σ α : Type}

namespace Cache

/-- The cache is well formed and every id has one node. -/
structure Keyed (c : Cache α) : Prop where
  /-- The cache is well formed. -/
  wf : c.WF
  /-- No id has two nodes. -/
  one : c.OneNode

/-- The empty cache finds all its nodes. -/
theorem Keyed.empty : (empty : Cache α).Keyed := ⟨.empty, .empty⟩

section

variable {c c' : Cache α} {n d : Node α} {id : ℕ}

/-- A node is found by its id. -/
theorem Keyed.node_eq_some (h : c.Keyed) : c.node id = some n ↔ n ∈ c.nodes ∧ n.id = id :=
  h.wf.node_eq_some h.one

/-- An id is not found when no node has it. -/
theorem Keyed.node_eq_none (h : c.Keyed) : c.node id = none ↔ ∀ n ∈ c.nodes, n.id ≠ id := by
  rw [Option.eq_none_iff_forall_not_mem]
  constructor
  · rintro hnone n hn rfl
    exact hnone n (h.node_eq_some.mpr ⟨hn, rfl⟩)
  · intro hall n hn
    obtain ⟨hmem, hid⟩ := h.node_eq_some.mp hn
    exact hall n hmem hid

/-- The node of an id has the id. -/
theorem Keyed.id_eq (h : c.Keyed) (hn : c.node id = some n) : n.id = id :=
  (h.node_eq_some.mp hn).2

/-- Caches with the same nodes show the same map. -/
theorem Keyed.node_eq_of_mem_iff (h : c.Keyed) (h' : c'.Keyed)
    (hmem : ∀ n, n ∈ c'.nodes ↔ n ∈ c.nodes) : c'.node = c.node := by
  funext i
  apply Option.ext
  intro n
  rw [h.node_eq_some, h'.node_eq_some, hmem]

/-- A cache that lost one node shows the map without it. -/
theorem Keyed.node_of_perm_cons (h : c.Keyed) (h' : c'.Keyed)
    (hperm : c.nodes.Perm (d :: c'.nodes)) :
    c.node d.id = some d ∧ c'.node = Function.update c.node d.id none := by
  have hd : c.node d.id = some d :=
    h.node_eq_some.mpr ⟨hperm.mem_iff.mpr List.mem_cons_self, rfl⟩
  refine ⟨hd, ?_⟩
  have hnodup := (hperm.map Node.id).nodup_iff.mp h.one
  rw [List.map_cons] at hnodup
  have hfresh := (List.nodup_cons.mp hnodup).1
  funext i
  by_cases hi : i = d.id
  · subst hi
    rw [Function.update_self, h'.node_eq_none]
    intro n hn hid
    exact hfresh (hid ▸ List.mem_map_of_mem hn)
  · rw [Function.update_of_ne hi]
    apply Option.ext
    intro n
    rw [h.node_eq_some, h'.node_eq_some, hperm.mem_iff, List.mem_cons]
    constructor
    · rintro ⟨hn, hid⟩
      exact ⟨Or.inr hn, hid⟩
    · rintro ⟨rfl | hn, hid⟩
      · exact absurd hid.symm hi
      · exact ⟨hn, hid⟩

/-- An insertion of an id without a node adds the new node to the map, and may take an
unreferenced one out. -/
theorem Keyed.inserted {tofree : Option (Node α)} (h : c.Keyed) (hnew : c.node id = none)
    (hins : c.InsertCase id (c', true, tofree)) : c'.Keyed ∧
      (∀ d ∈ tofree, c.node d.id = some d ∧ d.refcnt = 0) ∧
      ∀ i, c'.node i = if i = id then some (c.newNode id)
        else if ∃ d ∈ tofree, d.id = i then none else c.node i := by
  cases hins with
  | done _ _ kept _ hperm hnodes hzero hwf _ _ =>
    have hkept : ∀ n ∈ kept, n ∈ c.nodes := fun n hn =>
      hperm.mem_iff.mpr (List.mem_append_right _ hn)
    have hnodup := (hperm.map Node.id).nodup_iff.mp h.one
    rw [List.map_append] at hnodup
    have hone : c'.OneNode := by
      refine (hnodes.map Node.id).nodup_iff.mpr
        (List.nodup_cons.mpr ⟨?_, hnodup.of_append_right⟩)
      intro hmem
      obtain ⟨n, hn, hid⟩ := List.mem_map.mp hmem
      exact h.node_eq_none.mp hnew n (hkept n hn) hid
    have hc : c'.Keyed := ⟨hwf, hone⟩
    refine ⟨hc, fun d hd => ⟨?_, hzero d hd⟩, fun i => ?_⟩
    · refine h.node_eq_some.mpr ⟨hperm.mem_iff.mpr ?_, rfl⟩
      exact List.mem_append_left _ (Option.mem_toList.mpr hd)
    apply Option.ext
    intro n
    rw [hc.node_eq_some, hnodes.mem_iff, List.mem_cons]
    by_cases hi : i = id
    · subst hi
      rw [if_pos rfl, Option.some_inj]
      constructor
      · rintro ⟨rfl | hn, hid⟩
        · rfl
        · exact absurd hid (h.node_eq_none.mp hnew n (hkept n hn))
      · rintro rfl
        exact ⟨Or.inl rfl, rfl⟩
    · rw [if_neg hi]
      have hout : n = c.newNode id → n.id = i → False := by
        rintro rfl hid
        exact hi hid.symm
      by_cases hd : ∃ d ∈ tofree, d.id = i
      · rw [if_pos hd]
        obtain ⟨d, hd, rfl⟩ := hd
        simp only [reduceCtorEq, iff_false, not_and]
        rintro (hnew' | hn) hid
        · exact hout hnew' hid
        · refine List.disjoint_of_nodup_append hnodup
            (List.mem_map_of_mem (Option.mem_toList.mpr hd)) ?_
          rw [← hid]
          exact List.mem_map_of_mem hn
      · rw [if_neg hd, h.node_eq_some, hperm.mem_iff, List.mem_append]
        constructor
        · rintro ⟨hnew' | hn, hid⟩
          · exact (hout hnew' hid).elim
          · exact ⟨Or.inr hn, hid⟩
        · rintro ⟨hn | hn, hid⟩
          · exact absurd ⟨n, Option.mem_toList.mp hn, hid⟩ hd
          · exact ⟨Or.inr hn, hid⟩

/-- A store into the node of an id changes this node of the map. -/
theorem Keyed.modify (h : c.Keyed) (hn : c.node id = some n) {f : Node α → Node α}
    (hf : ∀ m, (f m).id = m.id ∧ (f m).addr = m.addr) :
    (c.modify n.addr f).Keyed ∧
      (c.modify n.addr f).node = Function.update c.node id (some (f n)) := by
  have ht := touched_modify c n.addr hf
  have h' : (c.modify n.addr f).Keyed := ⟨h.wf.touched ht, oneNode_of_touched h.one ht⟩
  refine ⟨h', ?_⟩
  obtain ⟨hmem, rfl⟩ := h.node_eq_some.mp hn
  have hnodes : (c.modify n.addr f).nodes =
      c.nodes.map fun m => if m.addr = n.addr then f m else m := by
    simp only [Cache.modify, Queue.modify, Cache.nodes, List.map_append]
  have haddr : ∀ m ∈ c.nodes, m.addr = n.addr → m = n := fun m hm heq =>
    List.inj_on_of_nodup_map h.wf.addrs_nodup hm hmem heq
  funext i
  apply Option.ext
  intro m
  rw [h'.node_eq_some, hnodes, List.mem_map]
  by_cases hi : i = n.id
  · subst hi
    rw [Function.update_self, Option.some_inj]
    constructor
    · rintro ⟨⟨m', hm', rfl⟩, hid⟩
      by_cases hm : m'.addr = n.addr
      · rw [if_pos hm, haddr m' hm' hm]
      · rw [if_neg hm] at hid
        exact absurd (congrArg _ (List.inj_on_of_nodup_map h.one hm' hmem hid)) hm
    · rintro rfl
      exact ⟨⟨n, hmem, if_pos rfl⟩, (hf n).1⟩
  · rw [Function.update_of_ne hi, h.node_eq_some]
    constructor
    · rintro ⟨⟨m', hm', rfl⟩, hid⟩
      by_cases hm : m'.addr = n.addr
      · rw [if_pos hm, (hf m').1, haddr m' hm' hm] at hid
        exact absurd hid.symm hi
      · rw [if_neg hm] at hid ⊢
        exact ⟨hm', hid⟩
    · rintro ⟨hm, hid⟩
      refine ⟨⟨m, hm, if_neg fun heq => hi ?_⟩, hid⟩
      rw [← hid, haddr m hm heq]

/-- A pointer to the node of an id points to its content. -/
theorem Keyed.contentAt (h : c.Keyed) (hn : c.node id = some n) :
    c.contentAt n.addr = n.content := by
  obtain ⟨hmem, _⟩ := h.node_eq_some.mp hn
  unfold Cache.contentAt
  cases hfind : c.nodes.find? (·.addr = n.addr) with
  | none =>
    have := List.find?_eq_none.mp hfind n hmem
    simp at this
  | some m =>
    have hm := List.mem_of_find?_eq_some hfind
    have haddr : m.addr = n.addr := by simpa using List.find?_some hfind
    rw [List.inj_on_of_nodup_map h.wf.addrs_nodup hm hmem haddr]
    rfl

/-- A queue of the cache is full of referenced nodes. -/
def Crowded (c : Cache α) : Prop := ¬c.lru.HasRoom ∨ ¬c.fifo.HasRoom

/-- A lookup of an id loses no node, and there is room for a node of it when it has none. -/
def Admits (c : Cache α) (id : ℕ) : Prop :=
  (c.find id true).lost = false ∧ (c.node id = none → c.fifo.HasRoom)

/-- A lookup of an id without a node changes nothing. -/
theorem Keyed.find_of_none (h : c.Keyed) (hnone : c.node id = none) :
    c.find id true = ⟨c, none, none, false, false⟩ := by
  generalize hfind : c.find id true = found
  have hcase : c.FindCase id true found := hfind ▸ h.wf.find id true
  cases hcase with
  | absent => rfl
  | found _ n _ hn =>
    rw [hnone] at hn
    cases hn
  | lost _ n _ hlru hfifo =>
    simp only [Cache.node, hlru, hfifo] at hnone
    cases hnone

/-- A lookup evicts nothing while the lru queue is not full. -/
theorem Keyed.find_of_lt (h : c.Keyed) (hn : c.node id = some n) (hlt : c.lru.len < queueMaxLen) :
    ∃ c', c.find id true = ⟨c', some n, none, false, false⟩ := by
  unfold Cache.find
  cases hlru : c.lru.search id with
  | some m =>
    obtain rfl : m = n := by simpa [Cache.node, hlru] using hn
    obtain ⟨lru, _, _, hmove, _⟩ := h.wf.lru.moveToHead (h.wf.lru.search_eq_some.mp hlru).1
    simp only [if_true, hmove]
    exact ⟨_, rfl⟩
  | none =>
    have hfifo : c.fifo.search id = some n := by simpa [Cache.node, hlru] using hn
    have hroom : c.lru.makeRoom = some (none, c.lru) := by
      simp only [Queue.makeRoom, Nat.not_le.mpr hlt, if_false]
    have hnew : ¬c.lru.nodes.any (·.id = n.id) = true := by
      simpa [h.id_eq hn] using h.wf.lru.search_eq_none.mp hlru
    simp only [hfifo, if_true, Queue.insertToHead, hroom, hnew, Bool.false_eq_true, if_false]
    exact ⟨_, rfl⟩

/-- A cache with room in both queues admits every id. -/
theorem Keyed.admits (h : c.Keyed) (hc : ¬c.Crowded) (id : ℕ) : c.Admits id := by
  obtain ⟨hlru, hfifo⟩ := not_or.mp hc
  refine ⟨?_, fun _ => not_not.mp hfifo⟩
  generalize hfind : c.find id true = found
  have hcase : c.FindCase id true found := hfind ▸ h.wf.find id true
  cases hcase with
  | absent => rfl
  | found => rfl
  | lost _ _ _ _ _ hroom => exact absurd hroom hlru

/-- A full queue of referenced nodes takes that many ids. -/
theorem Keyed.of_crowded (h : c.Keyed) (hc : c.Crowded) : ∃ ids : Finset ℕ,
    ids.card = queueMaxLen ∧ ∀ i ∈ ids, ∃ n, c.node i = some n ∧ n.refcnt ≠ 0 := by
  have hqueue : ∀ q : Queue α, q.WF → (∀ n ∈ q.nodes, n ∈ c.nodes) → ¬q.HasRoom →
      ∃ ids : Finset ℕ, ids.card = queueMaxLen ∧ ∀ i ∈ ids, ∃ n, c.node i = some n ∧
        n.refcnt ≠ 0 := by
    intro q hq hmem hroom
    obtain ⟨hfull, hheld⟩ := not_or.mp hroom
    refine ⟨(q.nodes.map (·.id)).toFinset, ?_, fun i hi => ?_⟩
    · rw [List.toFinset_card_of_nodup hq.ids_nodup, List.length_map, ← hq.len_eq]
      exact le_antisymm hq.len_le (Nat.not_lt.mp hfull)
    · obtain ⟨n, hn, rfl⟩ := List.mem_map.mp (List.mem_toFinset.mp hi)
      exact ⟨n, h.node_eq_some.mpr ⟨hmem n hn, rfl⟩, fun hzero => hheld ⟨n, hn, hzero⟩⟩
  rcases hc with hlru | hfifo
  · exact hqueue c.lru h.wf.lru (fun n hn => Cache.mem_nodes.mpr (Or.inl hn)) hlru
  · exact hqueue c.fifo h.wf.fifo (fun n hn => Cache.mem_nodes.mpr (Or.inr hn)) hfifo

/-- The references to the node of an id. -/
def refs (c : Cache α) (id : ℕ) : ℕ := ((c.node id).map Node.refcnt).getD 0

/-- The references of an id are those of its node. -/
theorem refs_of_some (hn : c.node id = some n) : c.refs id = n.refcnt := by
  rw [refs, hn]
  rfl

/-- An id that is not cached has no references. -/
theorem refs_of_none (hn : c.node id = none) : c.refs id = 0 := by
  rw [refs, hn]
  rfl

/-- No queue would be full of referenced nodes, were `k` more nodes referenced. -/
def Roomy (k : ℕ) (c : Cache α) : Prop :=
  ∃ held : Finset ℕ, held.card + k < queueMaxLen ∧ ∀ i, c.refs i ≠ 0 → i ∈ held

/-- Room for some nodes is room for fewer. -/
theorem Roomy.mono {j k : ℕ} (h : c.Roomy k) (hjk : j ≤ k) : c.Roomy j := by
  obtain ⟨held, hcard, hheld⟩ := h
  exact ⟨held, by omega, hheld⟩

/-- A cache that references no more ids has as much room. -/
theorem Roomy.of_refs {k : ℕ} (h : c.Roomy k) (hrefs : ∀ i, c'.refs i ≠ 0 → c.refs i ≠ 0) :
    c'.Roomy k := by
  obtain ⟨held, hcard, hheld⟩ := h
  exact ⟨held, hcard, fun i href => hheld i (hrefs i href)⟩

/-- One more node is referenced. -/
theorem Roomy.take {k : ℕ} (h : c.Roomy (k + 1))
    (hrefs : ∀ i ≠ id, c'.refs i ≠ 0 → c.refs i ≠ 0) : c'.Roomy k := by
  obtain ⟨held, hcard, hheld⟩ := h
  refine ⟨held ∪ {id}, ?_, fun i href => ?_⟩
  · have hle := Finset.card_union_le held {id}
    rw [Finset.card_singleton] at hle
    omega
  · by_cases hi : i = id
    · exact Finset.mem_union_right _ (Finset.mem_singleton.mpr hi)
    · exact Finset.mem_union_left _ (hheld i (hrefs i hi href))

/-- In a cache with room no queue is full of referenced nodes. -/
theorem Roomy.not_crowded {k : ℕ} (h : c.Roomy k) (hc : c.Keyed) : ¬c.Crowded := by
  intro hcrowded
  obtain ⟨held, hcard, hheld⟩ := h
  obtain ⟨ids, hids, hnodes⟩ := hc.of_crowded hcrowded
  have hsub : ids ⊆ held := by
    intro i hi
    obtain ⟨m, hm, href⟩ := hnodes i hi
    exact hheld i (refs_of_some hm ▸ href)
  have hle := Finset.card_le_card hsub
  omega

/-- A cache of few nodes has room. -/
theorem Keyed.roomy_of_length {k : ℕ} (h : c.Keyed) (hlen : c.nodes.length + k < queueMaxLen) :
    c.Roomy k := by
  refine ⟨(c.nodes.map Node.id).toFinset, ?_, fun i href => ?_⟩
  · have hcard := List.toFinset_card_le (c.nodes.map Node.id)
    rw [List.length_map] at hcard
    omega
  · obtain ⟨m, hm⟩ := Option.ne_none_iff_exists'.mp fun hnone => href (refs_of_none hnone)
    obtain ⟨hmem, hid⟩ := h.node_eq_some.mp hm
    exact List.mem_toFinset.mpr (List.mem_map.mpr ⟨m, hmem, hid⟩)

/-- What a cache holds besides its nodes plays no part in its map. -/
theorem Keyed.leak (h : c.Keyed) (leaked : List (Node α)) :
    ({ c with leaked } : Cache α).Keyed :=
  ⟨⟨h.wf.fifo, h.wf.lru, h.wf.addrs_nodup, h.wf.addr_lt, h.wf.alive⟩, h.one⟩

end

end Cache

/-! ## The calls of a client -/

/-- The cache of a state can be read back after it is set, and setting it twice is
setting it once. -/
structure CacheOf.Lawful (k : CacheOf σ α) : Prop where
  /-- What is set is read back. -/
  get_set : ∀ c s, k.get (k.set c s) = c
  /-- The last cache set is the one that stays. -/
  set_set : ∀ c c' s, k.set c (k.set c' s) = k.set c s
  /-- Setting the cache that is there changes nothing. -/
  set_get : ∀ s, k.set (k.get s) s = s

section

variable {w : World} {k : CacheOf σ α} {E : Halt → Prop} {s : σ} {id : ℕ}

/-- The rule for `cache_find`: the id has no node, or its node is found in a cache
with the same map, or in one that an unreferenced node was taken out of. -/
theorem wp_cacheFind_map (hk : k.Lawful) (h : (k.get s).Keyed) {access : Bool}
    {Q : Option (Node α) → σ → Prop}
    (habsent : (k.get s).node id = none → Q none s)
    (hfound : ∀ c n, (k.get s).node id = some n → c.Keyed → c.node = (k.get s).node →
      (access = false → c = k.get s) → Q (some n) (k.set c s))
    (hevict : ∀ c n d, (k.get s).node id = some n → d.id ≠ id → d.refcnt = 0 →
      (k.get s).node d.id = some d → c.Keyed →
      c.node = Function.update (k.get s).node d.id none → access = true →
      Exec.Wp (freeEvicted w k (some d)) (fun _ => Q (some n)) E (k.set c s))
    (hlost : access = true → ((k.get s).find id access).lost = true → ¬(k.get s).lru.HasRoom →
      E .nodeLost) (hlost' : access = true → k.followsLoss = false) :
    Exec.Wp (cacheFind w k id access) Q E s := by
  unfold cacheFind cacheAlive
  simp only [Exec.wp_bind, Exec.wp_read, Exec.wp_when, Exec.wp_stop, Exec.wp_update, Exec.wp_pure]
  refine ⟨fun hdangling => absurd hdangling (by simp [h.wf.alive]), fun _ => ?_⟩
  generalize hfind : (k.get s).find id access = found
  have hcase : (k.get s).FindCase id access found := hfind ▸ h.wf.find id access
  cases hcase with
  | absent hlru hfifo =>
    have hnode : (k.get s).node id = none := by simp only [Cache.node, hlru, hfifo]
    refine ⟨by simp, fun _ => ⟨by simp, fun _ => ?_⟩⟩
    simpa only [freeEvicted, Exec.wp_pure, hk.set_get] using habsent hnode
  | found c n tofree hn _ hperm hzero hwf hmem _ hpeek _ =>
    have hc : c.Keyed := ⟨hwf, oneNode_of_perm h.one hperm⟩
    refine ⟨by simp, fun _ => ⟨by simp, fun _ => ?_⟩⟩
    cases tofree with
    | none =>
      have hmap : c.node = (k.get s).node :=
        h.node_eq_of_mem_iff hc fun m => (hperm.mem_iff (a := m)).symm
      exact hfound c n hn hc hmap hpeek
    | some d =>
      obtain ⟨hd, hmap⟩ := h.node_of_perm_cons hc hperm
      have hne : d.id ≠ id := by
        rintro rfl
        have hnone : c.node d.id = none := by rw [hmap, Function.update_self]
        have hsome := hc.node_eq_some.mpr ⟨hmem, h.id_eq hn⟩
        rw [hnone] at hsome
        cases hsome
      refine hevict c n d hn hne (hzero d rfl) hd hc hmap ?_
      cases access with
      | true => rfl
      | false =>
        have hlen := hperm.length_eq
        rw [hpeek rfl] at hlen
        simp at hlen
  | lost c n haccess hlru hfifo hroom _ _ _ =>
    refine ⟨fun _ => hlost haccess (by rw [hfind]) hroom, fun hfollow => ?_⟩
    simp [hlost' haccess] at hfollow

/-- The rule for a lookup without access, which evicts nothing. -/
theorem wp_cacheFind_peek (hk : k.Lawful) (h : (k.get s).Keyed)
    {Q : Option (Node α) → σ → Prop} (hQ : Q ((k.get s).node id) s) :
    Exec.Wp (cacheFind w k id false) Q E s := by
  refine wp_cacheFind_map hk h ?_ ?_ (by simp) (by simp) (by simp)
  · intro hnone
    rwa [hnone] at hQ
  · intro c n hn _ _ hpeek
    rwa [hn, ← hk.set_get s, ← hpeek rfl] at hQ

/-- The rule for `cache_insert_get` of an id without a node. -/
theorem wp_cacheInsertGet_map (h : (k.get s).Keyed)
    (hnew : (k.get s).node id = none) {Q : Option ℕ → σ → Prop} {lock : Bool}
    (hnone : ¬(k.get s).fifo.HasRoom →
      Q none (k.set { k.get s with nextAddr := (k.get s).nextAddr + 1 } s))
    (hdone : ∀ c, c.Keyed → c.node =
        Function.update (k.get s).node id (some ((k.get s).newNode id)) →
      Exec.Wp (Exec.when lock (nodeLock k ((k.get s).newNode id)))
        (fun _ => Q (some (k.get s).nextAddr)) E (k.set c s))
    (hevict : ∀ c d, d.id ≠ id → d.refcnt = 0 → (k.get s).node d.id = some d → c.Keyed →
      c.node = Function.update (Function.update (k.get s).node d.id none) id
        (some ((k.get s).newNode id)) →
      Exec.Wp (freeEvicted w k (some d)) (fun _ s' =>
        Exec.Wp (Exec.when lock (nodeLock k ((k.get s).newNode id)))
          (fun _ => Q (some (k.get s).nextAddr)) E s') E (k.set c s)) :
    Exec.Wp (cacheInsertGet w k id lock) Q E s := by
  unfold cacheInsertGet cacheAlive
  simp only [Exec.wp_bind, Exec.wp_read, Exec.wp_when, Exec.wp_stop, Exec.wp_update]
  refine ⟨fun hdangling => absurd hdangling (by simp [h.wf.alive]), fun _ => ?_⟩
  generalize hins : (k.get s).insert id = ins
  have hcase : (k.get s).InsertCase id ins := hins ▸ h.wf.insert id
  cases hcase with
  | noRoom hroom => exact hnone hroom
  | clash _ hclash =>
    refine absurd hclash (h.wf.fifo.not_clashes fun n hn => ?_)
    exact h.node_eq_none.mp hnew n (Cache.mem_nodes.mpr (Or.inr hn))
  | done c tofree kept hclash hperm hnodes hzero hwf hmem hlru =>
    obtain ⟨hc, hd, hmap⟩ := h.inserted hnew
      (.done c tofree kept hclash hperm hnodes hzero hwf hmem hlru)
    cases tofree with
    | none =>
      have hnode : c.node =
          Function.update (k.get s).node id (some ((k.get s).newNode id)) := by
        funext i
        rw [hmap]
        by_cases hi : i = id <;> simp [Function.update, hi]
      simp only [if_true, freeEvicted, Exec.wp_bind, Exec.wp_pure]
      exact hdone c hc hnode
    | some d =>
      obtain ⟨hd, hzero⟩ := hd d rfl
      have hne : d.id ≠ id := by
        rintro rfl
        rw [hnew] at hd
        cases hd
      have hnode : c.node = Function.update (Function.update (k.get s).node d.id none) id
          (some ((k.get s).newNode id)) := by
        funext i
        rw [hmap]
        by_cases hi : i = id
        · simp [Function.update, hi]
        · by_cases hdi : i = d.id
          · simp [Function.update, hdi]
          · simp [Function.update, hi, hdi, Ne.symm hdi]
      simp only [if_true, Exec.wp_bind, Exec.wp_pure]
      exact hevict c d hne hzero hd hc hnode

/-- The rule for a store into the node of an id. -/
theorem wp_nodeStore_map (h : (k.get s).Keyed) {n : Node α}
    (hn : (k.get s).node id = some n) {f : Node α → Node α}
    (hf : ∀ m, (f m).id = m.id ∧ (f m).addr = m.addr) {Q : Unit → σ → Prop}
    (hQ : ∀ c, c.Keyed → c.node = Function.update (k.get s).node id (some (f n)) →
      Q () (k.set c s)) : Exec.Wp (nodeStore k n.addr f) Q E s := by
  obtain ⟨hc, hmap⟩ := h.modify hn hf
  exact hQ _ hc hmap

end

end Efs
