import Efs.Cache
import Mathlib.Data.List.Perm.Basic

/-!
# Well-formed caches

What a lookup, an insertion and a store do to the nodes of a cache whose queues
are well formed: the nodes after the call are those before it, up to order, less
the node that is evicted and, when a promotion finds no room, less the node that
was looked up.
-/

namespace Efs

open Library

variable {α : Type}

namespace Cache

/-- Both queues are well formed, the addresses of the nodes are distinct and
below the next one, and no freed node is linked. -/
structure WF (c : Cache α) : Prop where
  /-- The fifo is well formed. -/
  fifo : c.fifo.WF
  /-- The lru queue is well formed. -/
  lru : c.lru.WF
  /-- No address is used twice. -/
  addrs_nodup : (c.nodes.map (·.addr)).Nodup
  /-- `malloc` has given out every address in use. -/
  addr_lt : ∀ n ∈ c.nodes, n.addr < c.nextAddr
  /-- No freed node is linked. -/
  alive : c.dangling = false

/-- The node that a search by id finds, in the order of `cache_find`. -/
def node (c : Cache α) (id : ℕ) : Option (Node α) :=
  match c.lru.search id with
  | some n => some n
  | none => c.fifo.search id

/-- The nodes of a cache are in its queues. -/
theorem mem_nodes {c : Cache α} {n : Node α} :
    n ∈ c.nodes ↔ n ∈ c.lru.nodes ∨ n ∈ c.fifo.nodes := List.mem_append

/-- The empty cache is well formed. -/
theorem WF.empty : (empty : Cache α).WF := by
  refine ⟨.empty, .empty, List.nodup_nil, ?_, rfl⟩
  intro n hn
  cases hn

/-- A cache with some of the nodes of a well-formed one is well formed when its queues are. -/
theorem WF.of_perm {c c' : Cache α} (h : c.WF) (gone : List (Node α)) (hfifo : c'.fifo.WF)
    (hlru : c'.lru.WF) (hperm : c.nodes.Perm (gone ++ c'.nodes))
    (hnext : c'.nextAddr = c.nextAddr) (halive : c'.dangling = false) : c'.WF := by
  refine ⟨hfifo, hlru, ?_, ?_, halive⟩
  · have hnodup := (hperm.map (·.addr)).nodup_iff.mp h.addrs_nodup
    rw [List.map_append] at hnodup
    exact hnodup.of_append_right
  · intro n hn
    rw [hnext]
    exact h.addr_lt n (hperm.mem_iff.mpr (List.mem_append_right gone hn))

/-- The three outcomes of a lookup. -/
inductive FindCase (c : Cache α) (id : ℕ) (access : Bool) : Found α → Prop
  /-- The id is in neither queue. -/
  | absent (hlru : c.lru.search id = none) (hfifo : c.fifo.search id = none) :
      FindCase c id access ⟨c, none, none, false, false⟩
  /-- The node is found and stays; a promotion may evict another one. -/
  | found (c' : Cache α) (n : Node α) (tofree : Option (Node α)) (hn : c.node id = some n)
      (hroom : access = true → c.lru.search id = none → c.lru.HasRoom)
      (hperm : c.nodes.Perm (tofree.toList ++ c'.nodes)) (hzero : ∀ d ∈ tofree, d.refcnt = 0)
      (hwf : c'.WF) (hmem : n ∈ c'.nodes) (haccess : access = true → n ∈ c'.lru.nodes)
      (hpeek : access = false → c' = c) (hleaked : c'.leaked = c.leaked) :
      FindCase c id access ⟨c', some n, tofree, false, false⟩
  /-- The node is in the fifo and the lru queue has no room for it. -/
  | lost (c' : Cache α) (n : Node α) (haccess : access = true) (hlru : c.lru.search id = none)
      (hfifo : c.fifo.search id = some n) (hroom : ¬c.lru.HasRoom)
      (hperm : c.nodes.Perm (n :: c'.nodes)) (hwf : c'.WF) (hnext : c'.nextAddr = c.nextAddr) :
      FindCase c id access ⟨c', none, none, false, true⟩

/-- A lookup has one of the three outcomes. -/
theorem WF.find {c : Cache α} (h : c.WF) (id : ℕ) (access : Bool) :
    FindCase c id access (c.find id access) := by
  cases hlru : c.lru.search id with
  | some n =>
    obtain ⟨hmem, hid⟩ := h.lru.search_eq_some.mp hlru
    have hnode : c.node id = some n := by simp only [node, hlru]
    cases access with
    | false =>
      simp only [Cache.find, hlru, Bool.false_eq_true, if_false]
      exact .found c n none hnode (by simp) (.refl _) (by simp) h
        (mem_nodes.mpr (Or.inl hmem)) (by simp) (fun _ => rfl) rfl
    | true =>
      obtain ⟨lru, l₁, l₂, hmove, hwf, hnodes, hnodes'⟩ := h.lru.moveToHead hmem
      simp only [Cache.find, hlru, if_true, hmove]
      have hperm : c.nodes.Perm ({ c with lru } : Cache α).nodes := by
        simp only [Cache.nodes, hnodes, hnodes']
        exact (List.perm_middle.append_right _)
      have hhead : n ∈ lru.nodes := by
        rw [hnodes']
        exact List.mem_cons_self
      exact .found _ n none hnode (by simp [hlru]) hperm (by simp)
        (h.of_perm [] h.fifo hwf hperm rfl h.alive)
        (mem_nodes.mpr (Or.inl hhead)) (fun _ => hhead) (by simp) rfl
  | none =>
    cases hfifo : c.fifo.search id with
    | none =>
      simp only [Cache.find, hlru, hfifo]
      exact .absent hlru hfifo
    | some n =>
      obtain ⟨hmem, hid⟩ := h.fifo.search_eq_some.mp hfifo
      have hnode : c.node id = some n := by simp only [node, hlru, hfifo]
      cases access with
      | false =>
        simp only [Cache.find, hlru, hfifo, Bool.false_eq_true, if_false]
        exact .found c n none hnode (by simp) (.refl _) (by simp) h
          (mem_nodes.mpr (Or.inr hmem)) (by simp) (fun _ => rfl) rfl
      | true =>
        obtain ⟨hfifo', _, l₁, l₂, hnodes, hnodes'⟩ := h.fifo.evict hmem
        subst hid
        have hone : c.nodes.Perm (n :: (c.lru.nodes ++ (c.fifo.evict n.id).nodes)) := by
          simp only [Cache.nodes, hnodes, hnodes']
          rw [← List.append_assoc, ← List.append_assoc]
          exact List.perm_middle
        rcases h.lru.insertToHead n with ⟨hno, hins⟩ | ⟨wb, q, hroom, ⟨hclash, _⟩ | hdone⟩
        · simp only [Cache.find, hlru, hfifo, if_true, hins]
          exact .lost _ n rfl hlru hfifo hno hone
            (h.of_perm [n] hfifo' h.lru hone rfl h.alive) rfl
        · exact absurd hclash (h.lru.not_clashes (h.lru.search_eq_none.mp hlru))
        · obtain ⟨_, hins, hwf⟩ := hdone
          obtain ⟨_, _, hzero, k₁, k₂, hk, hk'⟩ := h.lru.makeRoom hroom
          have hhas : c.lru.HasRoom := Queue.makeRoom_isSome.mp (by rw [hroom]; rfl)
          simp only [Cache.find, hlru, hfifo, if_true, hins]
          have hperm : c.nodes.Perm (wb.toList ++
              ({ c with fifo := c.fifo.evict n.id, lru := ⟨n :: q.nodes, q.len + 1⟩ } :
                Cache α).nodes) := by
            refine hone.trans ?_
            simp only [Cache.nodes, hk, hk', List.append_assoc, List.cons_append]
            exact ((List.perm_append_comm_assoc k₁ wb.toList _).cons n).trans
              List.perm_middle.symm
          exact .found _ n wb hnode (fun _ _ => hhas) hperm hzero
            (h.of_perm wb.toList hfifo' hwf hperm rfl h.alive)
            (mem_nodes.mpr (Or.inl List.mem_cons_self)) (fun _ => List.mem_cons_self) (by simp) rfl

/-- The three outcomes of an insertion. -/
inductive InsertCase (c : Cache α) (id : ℕ) : Cache α × Bool × Option (Node α) → Prop
  /-- The fifo is full of referenced nodes. -/
  | noRoom (hroom : ¬c.fifo.HasRoom) (hclash : ¬c.fifo.Clashes id) :
      InsertCase c id ({ c with nextAddr := c.nextAddr + 1 }, false, none)
  /-- The id map of the fifo holds the id; the freed node stays linked. -/
  | clash (c' : Cache α) (hclash : c.fifo.Clashes id) (hdangling : c'.dangling = true) :
      InsertCase c id (c', false, none)
  /-- The node is in the fifo; another one may be evicted. -/
  | done (c' : Cache α) (tofree : Option (Node α)) (kept : List (Node α))
      (hclash : ¬c.fifo.Clashes id) (hperm : c.nodes.Perm (tofree.toList ++ kept))
      (hnodes : c'.nodes.Perm (c.newNode id :: kept)) (hzero : ∀ d ∈ tofree, d.refcnt = 0)
      (hwf : c'.WF) (hmem : c.newNode id ∈ c'.fifo.nodes) (hlru : c'.lru = c.lru) :
      InsertCase c id (c', true, tofree)

/-- An insertion has one of the three outcomes. -/
theorem WF.insert {c : Cache α} (h : c.WF) (id : ℕ) : InsertCase c id (c.insert id) := by
  rcases h.fifo.insertToHead (c.newNode id) with
    ⟨hno, hins⟩ | ⟨wb, q, hroom, ⟨hclash, hins⟩ | hdone⟩
  · simp only [Cache.insert, hins]
    refine .noRoom hno ?_
    rintro ⟨found, hfound, _⟩
    exact hno (Queue.makeRoom_isSome.mp (by rw [Option.mem_def.mp hfound]; rfl))
  · simp only [Cache.insert, hins]
    exact .clash _ hclash rfl
  · obtain ⟨hnew, hins, hwf⟩ := hdone
    obtain ⟨_, _, hzero, k₁, k₂, hk, hk'⟩ := h.fifo.makeRoom hroom
    simp only [Cache.insert, hins]
    have hperm : c.nodes.Perm (wb.toList ++ (c.lru.nodes ++ q.nodes)) := by
      simp only [Cache.nodes, hk, hk', List.append_assoc]
      have hmid := List.perm_append_comm_assoc (c.lru.nodes ++ k₁) wb.toList k₂
      simpa only [List.append_assoc] using hmid
    have hnodes : (c.lru.nodes ++ c.newNode id :: q.nodes).Perm
        (c.newNode id :: (c.lru.nodes ++ q.nodes)) := List.perm_middle
    have hnew' : ∀ n ∈ c.lru.nodes ++ q.nodes, n ∈ c.nodes := fun n hn =>
      hperm.mem_iff.mpr (List.mem_append_right _ hn)
    refine .done _ wb _ ?_ hperm hnodes hzero ⟨hwf, h.lru, ?_, ?_, h.alive⟩
      List.mem_cons_self rfl
    · rintro ⟨found, hfound, n, hn, hid⟩
      obtain rfl := Option.some.inj (hroom.symm.trans hfound)
      exact hnew n hn hid
    · refine (hnodes.map (·.addr)).nodup_iff.mpr ?_
      have hnodup := (hperm.map (·.addr)).nodup_iff.mp h.addrs_nodup
      rw [List.map_append] at hnodup
      refine List.nodup_cons.mpr ⟨?_, hnodup.of_append_right⟩
      intro hmem
      obtain ⟨n, hn, haddr⟩ := List.mem_map.mp hmem
      exact absurd haddr (h.addr_lt n (hnew' n hn)).ne
    · intro n hn
      rcases List.mem_cons.mp (hnodes.mem_iff.mp hn) with rfl | hmem
      · exact Nat.lt_succ_self _
      · exact Nat.lt_succ_of_lt (h.addr_lt n (hnew' n hmem))

/-! ## Stores -/

/-- The caches differ in what their nodes hold, not in where a node is or in its id. -/
def Touched (c c' : Cache α) : Prop :=
  ∃ g : Node α → Node α, (∀ n, (g n).id = n.id ∧ (g n).addr = n.addr) ∧
    c'.fifo = ⟨c.fifo.nodes.map g, c.fifo.len⟩ ∧ c'.lru = ⟨c.lru.nodes.map g, c.lru.len⟩ ∧
    c'.nextAddr = c.nextAddr ∧ c'.dangling = c.dangling

/-- Nothing is touched when nothing happens. -/
theorem Touched.refl (c : Cache α) : Touched c c :=
  ⟨id, fun _ => ⟨rfl, rfl⟩, by simp, by simp, rfl, rfl⟩

/-- What is touched twice is touched. -/
theorem Touched.trans {c c₁ c₂ : Cache α} (h₁ : Touched c c₁) (h₂ : Touched c₁ c₂) :
    Touched c c₂ := by
  obtain ⟨g, hg, hfifo, hlru, hnext, halive⟩ := h₁
  obtain ⟨g', hg', hfifo', hlru', hnext', halive'⟩ := h₂
  refine ⟨g' ∘ g, fun n => ?_, ?_, ?_, hnext'.trans hnext, halive'.trans halive⟩
  · exact ⟨((hg' (g n)).1).trans (hg n).1, ((hg' (g n)).2).trans (hg n).2⟩
  · rw [hfifo', hfifo, List.map_map]
  · rw [hlru', hlru, List.map_map]

/-- A touch leaves no dangling node. -/
theorem Touched.dangling_eq {c c' : Cache α} (h : Touched c c') : c'.dangling = c.dangling := by
  obtain ⟨_, _, _, _, _, halive⟩ := h
  exact halive

/-- A store that keeps ids and addresses touches the cache and no more. -/
theorem touched_modify (c : Cache α) (addr : ℕ) {f : Node α → Node α}
    (hf : ∀ n, (f n).id = n.id ∧ (f n).addr = n.addr) : Touched c (c.modify addr f) := by
  refine ⟨fun n => if n.addr = addr then f n else n, fun n => ?_, rfl, rfl, rfl, rfl⟩
  dsimp only
  split
  · exact hf n
  · exact ⟨rfl, rfl⟩

/-- A touch keeps the ids and addresses of the nodes. -/
theorem Touched.nodes {c c' : Cache α} (h : Touched c c') : ∃ g : Node α → Node α,
    (∀ n, (g n).id = n.id ∧ (g n).addr = n.addr) ∧ c'.nodes = c.nodes.map g := by
  obtain ⟨g, hg, hfifo, hlru, _⟩ := h
  refine ⟨g, hg, ?_⟩
  simp only [Cache.nodes, hfifo, hlru, List.map_append]

/-- A touched node is still there, under its address and its id. -/
theorem Touched.exists_mem {c c' : Cache α} (h : Touched c c') {n : Node α} (hn : n ∈ c.nodes) :
    ∃ n' ∈ c'.nodes, n'.addr = n.addr ∧ n'.id = n.id := by
  obtain ⟨g, hg, hnodes⟩ := h.nodes
  exact ⟨g n, by rw [hnodes]; exact List.mem_map_of_mem hn, (hg n).2, (hg n).1⟩

/-- A touched node stays in the lru queue. -/
theorem Touched.exists_mem_lru {c c' : Cache α} (h : Touched c c') {n : Node α}
    (hn : n ∈ c.lru.nodes) : ∃ n' ∈ c'.lru.nodes, n'.addr = n.addr ∧ n'.id = n.id := by
  obtain ⟨g, hg, _, hlru, _⟩ := h
  exact ⟨g n, by rw [hlru]; exact List.mem_map_of_mem hn, (hg n).2, (hg n).1⟩

/-- Stores keep the ids and the addresses of the nodes. -/
theorem Touched.map_eq {c c' : Cache α} (h : Touched c c') :
    c'.nodes.map (·.id) = c.nodes.map (·.id) ∧ c'.nodes.map (·.addr) = c.nodes.map (·.addr) := by
  obtain ⟨g, hg, hnodes⟩ := h.nodes
  rw [hnodes, List.map_map, List.map_map]
  exact ⟨List.map_congr_left fun n _ => (hg n).1, List.map_congr_left fun n _ => (hg n).2⟩

/-- Stores keep a cache well formed. -/
theorem WF.touched {c c' : Cache α} (h : c.WF) (ht : Touched c c') : c'.WF := by
  have haddrs := ht.map_eq.2
  obtain ⟨g, hg, hfifo, hlru, hnext, halive⟩ := ht
  have hqueue : ∀ q : Queue α, q.WF → (⟨q.nodes.map g, q.len⟩ : Queue α).WF := by
    intro q hq
    refine ⟨by simpa using hq.len_eq, hq.len_le, ?_⟩
    have hids : (q.nodes.map g).map (·.id) = q.nodes.map (·.id) := by
      rw [List.map_map]
      exact List.map_congr_left fun n _ => (hg n).1
    rw [hids]
    exact hq.ids_nodup
  refine ⟨by rw [hfifo]; exact hqueue _ h.fifo, by rw [hlru]; exact hqueue _ h.lru, ?_, ?_, ?_⟩
  · rw [haddrs]
    exact h.addrs_nodup
  · intro n hn
    have hmem := List.mem_map_of_mem (f := (·.addr)) hn
    rw [haddrs] at hmem
    obtain ⟨m, hm, heq⟩ := List.mem_map.mp hmem
    rw [hnext, ← heq]
    exact h.addr_lt m hm
  · rw [halive]
    exact h.alive

end Cache

end Efs
