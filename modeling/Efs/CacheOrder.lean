import Efs.BlockHold
import Efs.Keeping
import Mathlib.Data.List.Forall2

/-!
# The order of a cache

What a queue evicts depends on the order of its nodes and on their references. Caches
that are alike in these stay alike when both look the same id up. A call that only works
on a node leaves the order alone.
-/

namespace Efs

open Library

variable {α : Type}

/-- What a search and an eviction look at. -/
def Node.use (n : Node α) : ℕ × ℕ := (n.id, n.refcnt)

/-- The nodes have the same ids and references in the same order. -/
def UsedAlike (l l' : List (Node α)) : Prop := List.Forall₂ (fun n n' => n.use = n'.use) l l'

namespace Queue

/-- The queues have the same ids and references in the same order. -/
structure Alike (q q' : Queue α) : Prop where
  /-- The lengths are the same. -/
  len_eq : q.len = q'.len
  /-- The nodes are used alike. -/
  nodes : UsedAlike q.nodes q'.nodes

section

variable {q q' : Queue α} {n n' : Node α} {l l' : List (Node α)} {id : ℕ}

/-- Nodes of the same use have the same id. -/
theorem id_eq_of_use (h : n.use = n'.use) : n.id = n'.id := congrArg Prod.fst h

/-- Both lists have a node of the id, or none has. -/
theorem find_alike (h : UsedAlike l l') (id : ℕ) :
    Option.Rel (fun n n' => n.use = n'.use) (l.find? (·.id = id)) (l'.find? (·.id = id)) := by
  induction h with
  | nil => exact .none
  | @cons m m' _ _ hm _ ih =>
    by_cases hid : m.id = id
    · rw [List.find?_cons_of_pos (by simpa using hid),
        List.find?_cons_of_pos (by simpa using id_eq_of_use hm ▸ hid)]
      exact .some hm
    · rw [List.find?_cons_of_neg (by simpa using hid),
        List.find?_cons_of_neg (by simpa using id_eq_of_use hm ▸ hid)]
      exact ih

/-- Searches in queues that are alike find nodes of the same use. -/
theorem Alike.search (h : q.Alike q') (id : ℕ) :
    Option.Rel (fun n n' => n.use = n'.use) (q.search id) (q'.search id) := by
  unfold Queue.search
  rw [← h.len_eq]
  split_ifs
  · exact .none
  · exact find_alike h.nodes id

/-- Taking the nodes of an id out of lists that are alike leaves lists that are alike. -/
theorem eraseP_alike (h : UsedAlike l l') (id : ℕ) :
    UsedAlike (l.eraseP (·.id = id)) (l'.eraseP (·.id = id)) := by
  induction h with
  | nil => exact .nil
  | @cons m m' _ _ hm hl ih =>
    by_cases hid : m.id = id
    · rw [List.eraseP_cons_of_pos (by simpa using hid),
        List.eraseP_cons_of_pos (by simpa using id_eq_of_use hm ▸ hid)]
      exact hl
    · rw [List.eraseP_cons_of_neg (by simpa using hid),
        List.eraseP_cons_of_neg (by simpa using id_eq_of_use hm ▸ hid)]
      exact .cons hm ih

/-- Evictions of an id leave queues that are alike. -/
theorem Alike.evict (h : q.Alike q') (id : ℕ) : (q.evict id).Alike (q'.evict id) :=
  ⟨congrArg (· - 1) h.len_eq, eraseP_alike h.nodes id⟩

/-- The walks from the tails stop at nodes that are used alike. -/
theorem lastUnreferenced_alike (h : UsedAlike l l') :
    Option.Rel (fun p p' => UsedAlike p.2 p'.2) (lastUnreferenced l) (lastUnreferenced l') := by
  induction h with
  | nil => exact .none
  | @cons m m' l l' hm hl ih =>
    have hrefs : m.refcnt = m'.refcnt := congrArg Prod.snd hm
    unfold lastUnreferenced
    rw [← hrefs]
    generalize lastUnreferenced l = last, lastUnreferenced l' = last' at ih
    cases ih with
    | some hrest => exact .some (.cons hm hrest)
    | none =>
      by_cases hzero : m.refcnt = 0
      · simp only [hzero, if_true]
        exact .some hl
      · simp only [hzero, if_false]
        exact .none

/-- Both queues make room, by evicting nodes of the same use, or neither does. -/
theorem Alike.makeRoom (h : q.Alike q') :
    Option.Rel (fun p p' => p.2.Alike p'.2) q.makeRoom q'.makeRoom := by
  have hlast := lastUnreferenced_alike h.nodes
  unfold Queue.makeRoom dieout
  rw [← h.len_eq]
  generalize lastUnreferenced q.nodes = last, lastUnreferenced q'.nodes = last' at hlast
  by_cases hfull : queueMaxLen ≤ q.len
  · rw [if_pos hfull, if_pos hfull]
    by_cases hzero : q.len = 0
    · rw [if_pos hzero, if_pos hzero]
      exact .none
    · rw [if_neg hzero, if_neg hzero]
      cases hlast with
      | none => exact .none
      | some hrest => exact .some ⟨rfl, hrest⟩
  · rw [if_neg hfull, if_neg hfull]
    exact .some h

/-- The outcomes of two insertions in queues that are alike. -/
inductive InsertedAlike : Inserted α → Inserted α → Prop
  /-- Both queues are full of referenced nodes. -/
  | noRoom : InsertedAlike .noRoom .noRoom
  /-- Both id maps hold the id. -/
  | clash {q q' : Queue α} (h : q.Alike q') (wb wb' : Option (Node α)) :
    InsertedAlike (.clash q wb) (.clash q' wb')
  /-- Both nodes were linked. -/
  | done {q q' : Queue α} (h : q.Alike q') (wb wb' : Option (Node α)) :
    InsertedAlike (.done q wb) (.done q' wb')

/-- Lists that are alike have the same ids. -/
theorem any_alike (h : UsedAlike l l') (id : ℕ) :
    l.any (·.id = id) = l'.any (·.id = id) := by
  induction h with
  | nil => rfl
  | cons hm _ ih => rw [List.any_cons, List.any_cons, ih, id_eq_of_use hm]

/-- Insertions of nodes of the same use have the same result. -/
theorem Alike.insertToHead (h : q.Alike q') (hn : n.use = n'.use) :
    InsertedAlike (q.insertToHead n) (q'.insertToHead n') := by
  have hroom := h.makeRoom
  unfold Queue.insertToHead
  generalize q.makeRoom = room, q'.makeRoom = room' at hroom
  cases hroom with
  | none => exact .noRoom
  | @some p p' hq =>
    dsimp only
    rw [any_alike hq.nodes, id_eq_of_use hn]
    by_cases hclash : p'.2.nodes.any (·.id = n'.id) = true
    · rw [if_pos hclash, if_pos hclash]
      have hlinked : Queue.Alike ⟨p.2.nodes, p.2.len + 1⟩ ⟨p'.2.nodes, p'.2.len + 1⟩ :=
        ⟨congrArg (· + 1) hq.len_eq, hq.nodes⟩
      exact .clash hlinked _ _
    · rw [if_neg hclash, if_neg hclash]
      have hnodes : UsedAlike (n :: p.2.nodes) (n' :: p'.2.nodes) := .cons hn hq.nodes
      exact .done ⟨congrArg (· + 1) hq.len_eq, hnodes⟩ _ _

/-- So have moves of nodes of the same use. -/
theorem Alike.moveToHead (h : q.Alike q') (hn : n.use = n'.use) :
    InsertedAlike (q.moveToHead n) (q'.moveToHead n') := by
  unfold Queue.moveToHead
  rw [id_eq_of_use hn]
  exact (h.evict _).insertToHead hn

end

end Queue

namespace Cache

/-- The queues of the caches have the same ids and references in the same order. -/
structure Alike (c c' : Cache α) : Prop where
  /-- The fifos are alike. -/
  fifo : c.fifo.Alike c'.fifo
  /-- The lru queues are alike. -/
  lru : c.lru.Alike c'.lru

section

variable {c c' c₁ : Cache α} {n : Node α} {id : ℕ}

/-- A cache is like itself. -/
theorem Alike.refl (c : Cache α) : c.Alike c :=
  ⟨⟨rfl, List.forall₂_same.mpr fun _ _ => rfl⟩, ⟨rfl, List.forall₂_same.mpr fun _ _ => rfl⟩⟩

/-- Caches that are like the same cache are alike. -/
theorem Alike.trans (h : c.Alike c₁) (h' : c₁.Alike c') : c.Alike c' := by
  have hnodes : ∀ {l l₁ l' : List (Node α)}, UsedAlike l l₁ → UsedAlike l₁ l' → UsedAlike l l' := by
    intro l l₁ l' h₁ h₂
    induction h₁ generalizing l' with
    | nil => exact h₂
    | cons hm _ ih =>
      cases h₂ with
      | cons hm' hl' => exact .cons (hm.trans hm') (ih hl')
  exact ⟨⟨h.fifo.len_eq.trans h'.fifo.len_eq, hnodes h.fifo.nodes h'.fifo.nodes⟩,
    ⟨h.lru.len_eq.trans h'.lru.len_eq, hnodes h.lru.nodes h'.lru.nodes⟩⟩

/-- Both caches have a node of an id, with the same references, or none has. -/
theorem Alike.node (h : c.Alike c') (id : ℕ) :
    Option.Rel (fun n n' => n.use = n'.use) (c.node id) (c'.node id) := by
  have hlru := h.lru.search id
  have hfifo := h.fifo.search id
  unfold Cache.node
  generalize c.lru.search id = res, c'.lru.search id = res' at hlru
  generalize c.fifo.search id = fres, c'.fifo.search id = fres' at hfifo
  cases hlru with
  | some hn => exact .some hn
  | none =>
    cases hfifo with
    | some hn => exact .some hn
    | none => exact .none

/-- Caches that are alike miss the same ids. -/
theorem Alike.node_eq_none (h : c.Alike c') (id : ℕ) : c.node id = none ↔ c'.node id = none := by
  have hnode := h.node id
  generalize c.node id = n, c'.node id = n' at hnode
  cases hnode <;> simp

/-- A lookup leaves caches alike, and loses a node of both or of none. -/
theorem Alike.find_both (h : c.Alike c') (id : ℕ) :
    (c.find id true).cache.Alike (c'.find id true).cache ∧
      (c.find id true).lost = (c'.find id true).lost := by
  have hlru := h.lru.search id
  have hfifo := h.fifo.search id
  unfold Cache.find
  generalize c.lru.search id = res, c'.lru.search id = res' at hlru
  cases hlru with
  | @some n n' hn =>
    have hmove := h.lru.moveToHead hn
    simp only [if_true]
    generalize c.lru.moveToHead n = moved, c'.lru.moveToHead n' = moved' at hmove
    cases hmove with
    | noRoom => exact ⟨⟨h.fifo, h.lru.evict id⟩, rfl⟩
    | clash => exact ⟨⟨h.fifo, h.lru.evict id⟩, rfl⟩
    | done hq wb wb' => cases wb <;> cases wb' <;> exact ⟨⟨h.fifo, hq⟩, rfl⟩
  | none =>
    generalize c.fifo.search id = res, c'.fifo.search id = res' at hfifo
    cases hfifo with
    | none => exact ⟨h, rfl⟩
    | @some n n' hn =>
      have hins := h.lru.insertToHead hn
      simp only [if_true]
      generalize c.lru.insertToHead n = inserted, c'.lru.insertToHead n' = inserted' at hins
      cases hins with
      | noRoom => exact ⟨⟨h.fifo.evict id, h.lru⟩, rfl⟩
      | clash => exact ⟨⟨h.fifo.evict id, h.lru⟩, rfl⟩
      | done hq => exact ⟨⟨h.fifo.evict id, hq⟩, rfl⟩

/-- Lookups of an id leave caches that are alike. -/
theorem Alike.find (h : c.Alike c') (id : ℕ) :
    (c.find id true).cache.Alike (c'.find id true).cache := (h.find_both id).1

/-- Lookups of an id lose a node in both caches or in neither. -/
theorem Alike.find_lost (h : c.Alike c') (id : ℕ) :
    (c.find id true).lost = (c'.find id true).lost := (h.find_both id).2

/-- The ids of the queues. -/
def order (c : Cache α) : List ℕ × List ℕ := (c.fifo.nodes.map Node.id, c.lru.nodes.map Node.id)

/-- The references of an id are those of its node. -/
theorem Keyed.refs_eq (h : c.Keyed) (hn : n ∈ c.nodes) : c.refs n.id = n.refcnt := by
  rw [refs, h.node_eq_some.mpr ⟨hn, rfl⟩]
  rfl

/-- Caches that are alike have the same references. -/
theorem Alike.refs_eq (h : c.Alike c') (id : ℕ) : c.refs id = c'.refs id := by
  have hnode := h.node id
  unfold refs
  generalize c.node id = n, c'.node id = n' at hnode
  cases hnode with
  | none => rfl
  | some hn => exact congrArg Prod.snd hn

/-- Caches that are alike have their nodes in the same order. -/
theorem Alike.order_eq (h : c.Alike c') : c.order = c'.order := by
  have hids : ∀ {l l' : List (Node α)}, UsedAlike l l' → l.map Node.id = l'.map Node.id := by
    intro l l' hl
    induction hl with
    | nil => rfl
    | cons hn _ ih => rw [List.map_cons, List.map_cons, ih, Queue.id_eq_of_use hn]
  exact Prod.ext (hids h.fifo.nodes) (hids h.lru.nodes)

/-- Caches are alike when their ids are in the same order and have the same references. -/
theorem Keyed.alike (h : c.Keyed) (h' : c'.Keyed) (horder : c.order = c'.order)
    (hrefs : ∀ id, c.refs id = c'.refs id) : c.Alike c' := by
  have hqueue : ∀ q q' : Queue α, q.WF → q'.WF → (∀ n ∈ q.nodes, n ∈ c.nodes) →
      (∀ n ∈ q'.nodes, n ∈ c'.nodes) → q.nodes.map Node.id = q'.nodes.map Node.id → q.Alike q' := by
    intro q q' hq hq' hmem hmem' hids
    have hlen := congrArg List.length hids
    rw [List.length_map, List.length_map] at hlen
    refine ⟨by rw [hq.len_eq, hq'.len_eq, hlen], ?_⟩
    have huse : ∀ n ∈ q.nodes, n.use = (n.id, c.refs n.id) := fun n hn => by
      rw [h.refs_eq (hmem n hn)]
      rfl
    have huse' : ∀ n ∈ q'.nodes, n.use = (n.id, c.refs n.id) := fun n hn => by
      rw [hrefs, h'.refs_eq (hmem' n hn)]
      rfl
    have hsame : q.nodes.map Node.use = q'.nodes.map Node.use := by
      rw [List.map_congr_left huse, List.map_congr_left huse']
      simpa only [List.map_map, Function.comp_def] using congrArg
        (List.map fun i => (i, c.refs i)) hids
    rw [← List.forall₂_eq_eq_eq, List.forall₂_map_left_iff, List.forall₂_map_right_iff] at hsame
    exact hsame
  obtain ⟨hfifo, hlru⟩ := Prod.mk.inj horder
  exact ⟨hqueue _ _ h.wf.fifo h'.wf.fifo (fun _ hn => mem_nodes.mpr (Or.inr hn))
      (fun _ hn => mem_nodes.mpr (Or.inr hn)) hfifo,
    hqueue _ _ h.wf.lru h'.wf.lru (fun _ hn => mem_nodes.mpr (Or.inl hn))
      (fun _ hn => mem_nodes.mpr (Or.inl hn)) hlru⟩

/-- A lookup that loses no node keeps the references. -/
theorem Keyed.find (h : c.Keyed) (hlost : (c.find id true).lost = false) :
    (c.find id true).cache.Keyed ∧ ∀ i, (c.find id true).cache.refs i = c.refs i := by
  generalize hfind : c.find id true = found at hlost
  have hcase : c.FindCase id true found := hfind ▸ h.wf.find id true
  cases hcase with
  | absent => exact ⟨h, fun _ => rfl⟩
  | lost => cases hlost
  | found c₁ n tofree _ _ hperm hzero hwf =>
    have hc : c₁.Keyed := ⟨hwf, oneNode_of_perm h.one hperm⟩
    refine ⟨hc, fun i => ?_⟩
    cases tofree with
    | none =>
      have hmap : c₁.node = c.node :=
        h.node_eq_of_mem_iff hc fun m => (hperm.mem_iff (a := m)).symm
      simp only [refs, hmap]
    | some d =>
      obtain ⟨hd, hmap⟩ := h.node_of_perm_cons hc hperm
      by_cases hi : i = d.id
      · subst hi
        simp only [refs, hmap, Function.update_self, hd, Option.map_none, Option.map_some,
          Option.getD_none, Option.getD_some, hzero d rfl]
      · simp only [refs, hmap, Function.update_of_ne hi]

end

/-- A lookup without access changes nothing. -/
theorem find_false (c : Cache α) (id : ℕ) :
    c.find id false = ⟨c, c.node id, none, false, false⟩ := by
  unfold Cache.find Cache.node
  cases c.lru.search id with
  | some n => rfl
  | none => cases c.fifo.search id <;> rfl

/-- A lookup that loses no node finds the node of the id. -/
theorem Keyed.node_find {c : Cache α} {id : ℕ} (h : c.Keyed)
    (hlost : (c.find id true).lost = false) : (c.find id true).node = c.node id := by
  generalize hfind : c.find id true = found at hlost
  have hcase : c.FindCase id true found := hfind ▸ h.wf.find id true
  cases hcase with
  | absent hlru hfifo => simp only [Cache.node, hlru, hfifo]
  | lost => cases hlost
  | found _ _ _ hn => exact hn.symm

/-- A store that keeps the id of a node keeps the order. -/
theorem order_modify (c : Cache α) (addr : ℕ) {f : Node α → Node α} (hf : ∀ n, (f n).id = n.id) :
    (c.modify addr f).order = c.order := by
  have hid : ∀ n, (if n.addr = addr then f n else n).id = n.id := by
    intro n
    split_ifs
    · exact hf n
    · rfl
  simp only [order, Cache.modify, Queue.modify, List.map_map, Function.comp_def, hid]

end Cache

/-! ## Calls that leave the order alone -/

section

variable {w : World} {s s' : Sys} {n : Node Block} {bid : ℕ}

/-- The order of the block cache. -/
def Sys.order (s : Sys) : List ℕ × List ℕ := s.bcac.order

/-- The order of the block cache does not depend on the disk. -/
theorem offDisk_order : OffDisk Sys.order := fun _ _ h _ => congrArg Cache.order h

/-- A store that keeps the ids of the nodes keeps the order. -/
theorem keepsOrder_nodeStore (addr : ℕ) {g : Node Block → Node Block} (hg : ∀ n, (g n).id = n.id) :
    Exec.Keeps Sys.order (nodeStore (bcacOf w) addr g) :=
  .update fun _ => Cache.order_modify _ _ hg

/-- A lookup that is no access keeps the order. -/
theorem keepsOrder_cacheFind (id : ℕ) : Exec.Keeps Sys.order (cacheFind w (bcacOf w) id false) := by
  intro s node s' h
  cases halive : s.bcac.dangling with
  | true =>
    simp only [cacheFind, cacheAlive, Exec.bind_apply, Exec.read_apply, Exec.when, bcacOf, halive,
      if_true, Exec.stop_apply, reduceCtorEq] at h
  | false =>
    rw [cacheFind_eq halive (Cache.find_false _ _) rfl rfl (Or.inl rfl)] at h
    cases h
    rfl

/-- `block_make_dirty` keeps the order. -/
theorem keepsOrder_blockMakeDirty (bid : ℕ) : Exec.Keeps Sys.order (blockMakeDirty w bid) := by
  refine .bind (keepsOrder_cacheFind bid) fun node => ?_
  cases node with
  | none => exact .pure _
  | some n => exact .bind (keepsOrder_nodeStore _ fun _ => rfl) fun _ => .pure _

/-- `cache_make_deleted` keeps the order. -/
theorem keepsOrder_cacheMakeDeleted (bid : ℕ) :
    Exec.Keeps Sys.order (cacheMakeDeleted w (bcacOf w) bid) := by
  refine .bind (keepsOrder_cacheFind bid) fun node => ?_
  cases node with
  | none => exact .pure _
  | some n => exact .bind (keepsOrder_nodeStore _ fun _ => rfl) fun _ => .pure _

/-- `block_unlock_return` keeps the order. -/
theorem keepsOrder_blockUnlockReturn (bid : ℕ) :
    Exec.Keeps Sys.order (blockUnlockReturn w bid) := by
  refine .bind (keepsOrder_cacheFind bid) fun node => ?_
  cases node with
  | none => exact .pure _
  | some n =>
    refine .bind (.bind (.when (keeps_panic _)) fun _ => keepsOrder_nodeStore _ fun _ => rfl)
      fun _ => ?_
    exact .bind (keepsOrder_nodeStore _ fun _ => rfl) fun _ => .pure _

/-- A store into the data of a block keeps the order. -/
theorem keepsOrder_dataStore (bp : ℕ) (g : Data → Data) :
    Exec.Keeps Sys.order (dataStore w bp g) := keepsOrder_nodeStore bp fun _ => rfl

/-- What a lookup of a block does to the order when it loses no node. -/
def Sys.FoundInOrder (s : Sys) (bid : ℕ) (s' : Sys) : Prop :=
  (s.bcac.find bid true).lost = false ∧ s'.order = (s.bcac.find bid true).cache.order

/-- The write back of an evicted block keeps the order. -/
theorem keepsOrder_freeEvicted (tofree : Option (Node Block)) :
    Exec.Keeps Sys.order (freeEvicted w (bcacOf w) tofree) := by
  cases tofree with
  | none => exact .pure ()
  | some n =>
    refine .bind (.bind (offDisk_order.bcacheCbWrite _ _ _ _) fun failed => ?_) fun failed =>
      .when (keeps_panic _)
    exact .bind (.when (.update fun _ => rfl)) fun _ => .pure failed

/-- The lock of a node keeps the order. -/
theorem keepsOrder_nodeLock (n : Node Block) : Exec.Keeps Sys.order (nodeLock (bcacOf w) n) :=
  .bind (.when (.stop _)) fun _ => keepsOrder_nodeStore _ fun _ => rfl

/-- The lookup of an access brings the node to the head of the lru queue. -/
theorem wp_cacheFind_order : Exec.Wp (cacheFind w (bcacOf w) bid true)
    (fun node s' => node = (s.bcac.find bid true).node ∧ s.FoundInOrder bid s')
    (fun _ => True) s := by
  unfold cacheFind cacheAlive
  simp only [Exec.wp_bind, Exec.wp_read, Exec.wp_when, Exec.wp_stop, Exec.wp_update, Exec.wp_pure]
  refine ⟨fun _ => trivial, fun _ => ⟨fun _ => trivial, fun hlost => ?_⟩⟩
  have hlost' : (s.bcac.find bid true).lost = false := by simpa [bcacOf] using hlost
  have hfree : ∀ s₁ : Sys, s₁.order = (s.bcac.find bid true).cache.order →
      Exec.Wp (freeEvicted w (bcacOf w) (s.bcac.find bid true).tofree) (fun _ s' =>
        (s.bcac.find bid true).node = (s.bcac.find bid true).node ∧ s.FoundInOrder bid s')
        (fun _ => True) s₁ := by
    intro s₁ h₁
    exact (keepsOrder_freeEvicted _).wp.mono (fun _ s' h' => ⟨rfl, hlost', h'.trans h₁⟩) fun _ _ =>
      trivial
  refine ⟨fun _ => ?_, fun _ => hfree _ rfl⟩
  exact (keeps_panic _).wp.mono (fun _ s₁ h₁ => hfree s₁ h₁) fun _ _ => trivial

/-- `cache_try_get` of a cached block does to the order what the lookup does. -/
theorem wp_cacheTryGet_order (hk : s.bcac.Keyed) (hn : s.bcac.node bid = some n)
    (hdeleted : n.deleted = false) : Exec.Wp (cacheTryGet w (bcacOf w) bid true true)
      (fun r s' => r = n.pointer ∧ s.FoundInOrder bid s') (fun _ => True) s := by
  refine Exec.wp_bind.mpr (wp_cacheFind_order.mono ?_ fun _ _ => trivial)
  rintro node s₁ ⟨hnode, hlost, horder⟩
  rw [hk.node_find hlost, hn] at hnode
  subst hnode
  refine Exec.wp_bind.mpr ((keepsOrder_nodeLock n).wp.mono (fun _ s₂ h₂ => ?_) fun _ _ => trivial)
  rw [hdeleted, if_neg Bool.false_ne_true]
  have htake : Exec.Keeps Sys.order
      (nodeStore (bcacOf w) n.addr fun n => { n with refcnt := n.refcnt + 1 }) :=
    keepsOrder_nodeStore _ fun _ => rfl
  refine Exec.wp_bind.mpr (htake.wp.mono (fun _ s₃ h₃ => ?_) fun _ _ => trivial)
  exact ⟨rfl, hlost, (h₃.trans h₂).trans horder⟩

/-- `bget_from_cache_lock` of a cached block does to the order what the lookup does. -/
theorem wp_bget_order (hk : s.bcac.Keyed) (hn : s.bcac.node bid = some n) (hholds : n.Holds bid)
    {hashidx : HashIdx} {iv key : Key128} {expHash : Option Key256} :
    Exec.Wp (bgetFromCacheLock w bid hashidx iv key expHash) (fun _ s' => s.FoundInOrder bid s')
      (fun _ => True) s := by
  obtain ⟨block, hcontent, _⟩ := hholds.content
  refine Exec.wp_bind.mpr ((wp_cacheTryGet_order hk hn hholds.deleted_eq).mono ?_ fun _ _ =>
    trivial)
  rintro r s' ⟨rfl, hfound⟩
  rw [Node.pointer, hcontent, Option.map_some]
  exact hfound

end

end Efs
