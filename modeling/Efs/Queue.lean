import Efs.Layout
import Mathlib.Data.List.Nodup
import Mathlib.Data.List.Basic

/-!
# The queues of the cache

`queue.h` and `queue.c`: a doubly linked list of nodes with an id map beside it.
The list is kept head first. The map holds the nodes of the list, so a search
in it is a search by id; the length is the field `len`, which nothing recounts.
-/

namespace Efs

variable {α : Type}

/-- `struct list`, a node of the cache. -/
structure Node (α : Type) where
  /-- The address `malloc` gave to the node. -/
  addr : ℕ
  /-- `id`. -/
  id : ℕ
  /-- `refcnt`. -/
  refcnt : ℕ
  /-- `dirty`. -/
  dirty : Bool
  /-- `deleted`. -/
  deleted : Bool
  /-- `content`, `none` for a null pointer. -/
  content : Option α
  /-- Whether `lock` is held. -/
  locked : Bool
  deriving DecidableEq

/-- The pointer `content`, named by the address of the node that holds it. -/
def Node.pointer (n : Node α) : Option ℕ := n.content.map fun _ => n.addr

/-- `struct queue`. -/
structure Queue (α : Type) where
  /-- The linked nodes from `head.next` on. -/
  nodes : List (Node α)
  /-- `len`. -/
  len : ℕ
  deriving DecidableEq

/-- What `queue_insert_to_head` did. -/
inductive Inserted (α : Type)
  /-- It returned 1: the queue is full of referenced nodes. -/
  | noRoom
  /-- It linked the node and returned 1: the id map holds the id already. -/
  | clash (queue : Queue α) (writeBack : Option (Node α))
  /-- It returned 0. -/
  | done (queue : Queue α) (writeBack : Option (Node α))

namespace Queue

/-- The empty queue. -/
def empty : Queue α := ⟨[], 0⟩

/-- `queue_search`. -/
def search (q : Queue α) (id : ℕ) : Option (Node α) :=
  if q.len = 0 then none else q.nodes.find? (·.id = id)

/-- `queue_evict` of a node of the queue. -/
def evict (q : Queue α) (id : ℕ) : Queue α := ⟨q.nodes.eraseP (·.id = id), q.len - 1⟩

/-- The walk of `queue_dieout` from the tail to the first node without a
reference: this node and the nodes that stay. -/
def lastUnreferenced : List (Node α) → Option (Node α × List (Node α))
  | [] => none
  | n :: rest =>
    match lastUnreferenced rest with
    | some (m, rest') => some (m, n :: rest')
    | none => if n.refcnt = 0 then some (n, rest) else none

/-- `queue_dieout`: the evicted node and the queue without it. -/
def dieout (q : Queue α) : Option (Node α × Queue α) :=
  if q.len = 0 then none
  else match lastUnreferenced q.nodes with
    | none => none
    | some (m, rest) => some (m, ⟨rest, q.len - 1⟩)

/-- The part of `queue_insert_to_head` that evicts a node when the queue is full. -/
def makeRoom (q : Queue α) : Option (Option (Node α) × Queue α) :=
  if queueMaxLen ≤ q.len then
    match q.dieout with
    | none => none
    | some (m, q') => some (some m, q')
  else some (none, q)

/-- `queue_insert_to_head`. -/
def insertToHead (q : Queue α) (node : Node α) : Inserted α :=
  match q.makeRoom with
  | none => .noRoom
  | some (writeBack, q') =>
    if q'.nodes.any (·.id = node.id) then .clash ⟨q'.nodes, q'.len + 1⟩ writeBack
    else .done ⟨node :: q'.nodes, q'.len + 1⟩ writeBack

/-- `queue_move_to_head` of a node of the queue. -/
def moveToHead (q : Queue α) (node : Node α) : Inserted α := (q.evict node.id).insertToHead node

/-- A store into the node at an address. -/
def modify (q : Queue α) (addr : ℕ) (f : Node α → Node α) : Queue α :=
  ⟨q.nodes.map fun n => if n.addr = addr then f n else n, q.len⟩

/-! ## Well-formed queues -/

/-- The length is the number of nodes and within its bound, and no two nodes share an id. -/
structure WF (q : Queue α) : Prop where
  /-- `len` counts the nodes. -/
  len_eq : q.len = q.nodes.length
  /-- There are at most `QUEUE_MAX_LEN` nodes. -/
  len_le : q.len ≤ queueMaxLen
  /-- The ids are distinct. -/
  ids_nodup : (q.nodes.map (·.id)).Nodup

/-- An insertion finds room: the queue is not full or holds an unreferenced node. -/
def HasRoom (q : Queue α) : Prop := q.len < queueMaxLen ∨ ∃ n ∈ q.nodes, n.refcnt = 0

instance (q : Queue α) : Decidable q.HasRoom := inferInstanceAs (Decidable (_ ∨ _))

/-- An insertion of the id makes room and still finds the id in the queue. -/
def Clashes (q : Queue α) (id : ℕ) : Prop := ∃ found ∈ q.makeRoom, ∃ n ∈ found.2.nodes, n.id = id

instance (q : Queue α) (id : ℕ) : Decidable (q.Clashes id) := by
  unfold Clashes
  infer_instance

/-- The empty queue is well formed. -/
theorem WF.empty : (empty : Queue α).WF := ⟨rfl, Nat.zero_le _, List.nodup_nil⟩

/-- In a well-formed queue a search finds exactly the node with the id. -/
theorem WF.search_eq_some {q : Queue α} (h : q.WF) {id : ℕ} {n : Node α} :
    q.search id = some n ↔ n ∈ q.nodes ∧ n.id = id := by
  unfold search
  constructor
  · intro hsearch
    by_cases hlen : q.len = 0
    · simp [hlen] at hsearch
    · rw [if_neg hlen] at hsearch
      exact ⟨List.mem_of_find?_eq_some hsearch, by simpa using List.find?_some hsearch⟩
  · rintro ⟨hmem, hid⟩
    have hlen : q.len ≠ 0 := by
      rw [h.len_eq]
      exact List.length_pos_iff.mpr (List.ne_nil_of_mem hmem) |>.ne'
    rw [if_neg hlen]
    cases hfind : q.nodes.find? (·.id = id) with
    | none =>
      have := List.find?_eq_none.mp hfind n hmem
      simp [hid] at this
    | some m =>
      have hm := List.mem_of_find?_eq_some hfind
      have hmid : m.id = id := by simpa using List.find?_some hfind
      rw [List.inj_on_of_nodup_map h.ids_nodup hm hmem (hmid.trans hid.symm)]

/-- In a well-formed queue a search fails exactly when no node has the id. -/
theorem WF.search_eq_none {q : Queue α} (h : q.WF) {id : ℕ} :
    q.search id = none ↔ ∀ n ∈ q.nodes, n.id ≠ id := by
  constructor
  · intro hsearch n hmem hid
    have := h.search_eq_some.mpr ⟨hmem, hid⟩
    rw [hsearch] at this
    cases this
  · intro hall
    cases hsearch : q.search id with
    | none => rfl
    | some n =>
      obtain ⟨hmem, hid⟩ := h.search_eq_some.mp hsearch
      exact absurd hid (hall n hmem)

/-- Evicting a node takes it out of the list and leaves the others in their order. -/
theorem WF.evict {q : Queue α} (h : q.WF) {n : Node α} (hn : n ∈ q.nodes) :
    (q.evict n.id).WF ∧ (q.evict n.id).len + 1 = q.len ∧
      ∃ l₁ l₂, q.nodes = l₁ ++ n :: l₂ ∧ (q.evict n.id).nodes = l₁ ++ l₂ := by
  obtain ⟨m, l₁, l₂, hl₁, hm, hnodes, herase⟩ :=
    List.exists_of_eraseP (p := fun x => decide (x.id = n.id)) hn (by simp)
  have hmn : m = n := by
    refine List.inj_on_of_nodup_map h.ids_nodup ?_ hn (by simpa using hm)
    rw [hnodes]
    simp
  subst hmn
  have hids := h.ids_nodup
  have hlen := h.len_eq
  rw [hnodes] at hids hlen
  simp only [List.map_append, List.map_cons, List.length_append, List.length_cons] at hids hlen
  have hevict : (q.evict m.id).nodes = l₁ ++ l₂ := herase
  have hle := h.len_le
  refine ⟨⟨?_, ?_, ?_⟩, ?_, l₁, l₂, hnodes, hevict⟩
  · rw [hevict, List.length_append]
    simp only [Queue.evict]
    omega
  · simp only [Queue.evict]
    omega
  · rw [hevict, List.map_append]
    exact (List.nodup_middle.mp hids).of_cons
  · simp only [Queue.evict]
    omega

/-- The walk from the tail fails exactly when every node is referenced. -/
theorem lastUnreferenced_eq_none {l : List (Node α)} :
    lastUnreferenced l = none ↔ ∀ n ∈ l, n.refcnt ≠ 0 := by
  induction l with
  | nil => simp [lastUnreferenced]
  | cons n rest ih =>
    unfold lastUnreferenced
    cases hrest : lastUnreferenced rest with
    | none =>
      have hall := ih.mp hrest
      by_cases hn : n.refcnt = 0
      · simp [hn]
      · simpa [hn] using hall
    | some found =>
      have hnot : ¬∀ n ∈ rest, n.refcnt ≠ 0 := fun hall => by simp [ih.mpr hall] at hrest
      simp only [reduceCtorEq, false_iff]
      intro hall
      exact hnot fun m hm => hall m (List.mem_cons_of_mem n hm)

/-- The walk from the tail takes the last unreferenced node out of the list. -/
theorem lastUnreferenced_eq_some {l rest : List (Node α)} {m : Node α}
    (h : lastUnreferenced l = some (m, rest)) :
    ∃ l₁ l₂, l = l₁ ++ m :: l₂ ∧ rest = l₁ ++ l₂ ∧ m.refcnt = 0 ∧ ∀ n ∈ l₂, n.refcnt ≠ 0 := by
  induction l generalizing m rest with
  | nil => cases h
  | cons n tail ih =>
    unfold lastUnreferenced at h
    cases htail : lastUnreferenced tail with
    | some found =>
      obtain ⟨m', rest'⟩ := found
      simp only [htail, Option.some.injEq, Prod.mk.injEq] at h
      obtain ⟨rfl, rfl⟩ := h
      obtain ⟨l₁, l₂, htl, hrest, hm, hl₂⟩ := ih htail
      exact ⟨n :: l₁, l₂, by rw [htl]; rfl, by rw [hrest]; rfl, hm, hl₂⟩
    | none =>
      simp only [htail] at h
      by_cases hn : n.refcnt = 0
      · simp only [hn, if_true, Option.some.injEq, Prod.mk.injEq] at h
        obtain ⟨rfl, rfl⟩ := h
        exact ⟨[], tail, rfl, rfl, hn, lastUnreferenced_eq_none.mp htail⟩
      · simp [hn] at h

/-- The walk from the tail stops at the first node without a reference. -/
theorem lastUnreferenced_append {l₁ l₂ : List (Node α)} {m : Node α} (hm : m.refcnt = 0)
    (hl₂ : ∀ n ∈ l₂, n.refcnt ≠ 0) : lastUnreferenced (l₁ ++ m :: l₂) = some (m, l₁ ++ l₂) := by
  induction l₁ with
  | nil =>
    simp only [List.nil_append, lastUnreferenced, lastUnreferenced_eq_none.mpr hl₂, hm, if_true]
  | cons n l₁ ih => simp only [List.cons_append, lastUnreferenced, ih]

/-- Making room evicts at most one node, the last one without a reference. -/
theorem WF.makeRoom {q q' : Queue α} {wb : Option (Node α)} (h : q.WF)
    (hroom : q.makeRoom = some (wb, q')) :
    q'.WF ∧ q'.len < queueMaxLen ∧ (∀ m ∈ wb, m.refcnt = 0) ∧
      ∃ l₁ l₂, q.nodes = l₁ ++ wb.toList ++ l₂ ∧ q'.nodes = l₁ ++ l₂ := by
  unfold Queue.makeRoom at hroom
  by_cases hfull : queueMaxLen ≤ q.len
  · have hlen : q.len ≠ 0 := by
      simp only [queueMaxLen] at hfull
      omega
    cases hlast : lastUnreferenced q.nodes with
    | none =>
      rw [if_pos hfull] at hroom
      simp [dieout, hlen, hlast] at hroom
    | some found =>
      obtain ⟨m, rest⟩ := found
      simp only [hfull, if_true, dieout, hlen, if_false, hlast, Option.some.injEq,
        Prod.mk.injEq] at hroom
      obtain ⟨rfl, rfl⟩ := hroom
      obtain ⟨l₁, l₂, hnodes, rfl, hm, _⟩ := lastUnreferenced_eq_some hlast
      have hids := h.ids_nodup
      have hlen_eq := h.len_eq
      have hlen_le := h.len_le
      rw [hnodes] at hids hlen_eq
      simp only [List.map_append, List.map_cons, List.length_append, List.length_cons]
        at hids hlen_eq
      refine ⟨⟨?_, ?_, ?_⟩, ?_, ?_, l₁, l₂, ?_, rfl⟩
      · simp only [List.length_append]
        omega
      · simp only
        omega
      · rw [List.map_append]
        exact (List.nodup_middle.mp hids).of_cons
      · simp only
        omega
      · simpa using hm
      · simpa using hnodes
  · simp only [hfull, if_false, Option.some.injEq, Prod.mk.injEq] at hroom
    obtain ⟨rfl, rfl⟩ := hroom
    exact ⟨h, by omega, by simp, q.nodes, [], by simp, by simp⟩

/-- Making room succeeds exactly when there is room. -/
theorem makeRoom_isSome {q : Queue α} : q.makeRoom.isSome ↔ q.HasRoom := by
  unfold Queue.makeRoom HasRoom
  by_cases hfull : queueMaxLen ≤ q.len
  · have hlen : q.len ≠ 0 := by
      simp only [queueMaxLen] at hfull
      omega
    cases hlast : lastUnreferenced q.nodes with
    | none =>
      have hall := lastUnreferenced_eq_none.mp hlast
      simp only [hfull, if_true, dieout, hlen, if_false, hlast, Option.isSome_none,
        Bool.false_eq_true, false_iff, not_or, not_lt, true_and]
      rintro ⟨n, hn, hzero⟩
      exact hall n hn hzero
    | some found =>
      obtain ⟨l₁, l₂, hnodes, _, hm, _⟩ := lastUnreferenced_eq_some hlast
      simp only [hfull, if_true, dieout, hlen, if_false, hlast, Option.isSome_some, true_iff]
      exact Or.inr ⟨found.1, by rw [hnodes]; simp, hm⟩
  · simp only [hfull, if_false, Option.isSome_some, true_iff]
    exact Or.inl (by omega)

/-- Where an insertion goes: there is no room, the id is still in the queue once
there is room, or the node becomes the head of what the eviction left. -/
theorem WF.insertToHead {q : Queue α} (h : q.WF) (node : Node α) :
    (¬q.HasRoom ∧ q.insertToHead node = .noRoom) ∨
    ∃ wb q', q.makeRoom = some (wb, q') ∧
      (q.Clashes node.id ∧ q.insertToHead node = .clash ⟨q'.nodes, q'.len + 1⟩ wb ∨
        (∀ n ∈ q'.nodes, n.id ≠ node.id) ∧
          q.insertToHead node = .done ⟨node :: q'.nodes, q'.len + 1⟩ wb ∧
          (⟨node :: q'.nodes, q'.len + 1⟩ : Queue α).WF) := by
  cases hroom : q.makeRoom with
  | none =>
    left
    rw [← makeRoom_isSome, hroom]
    exact ⟨by simp, by simp only [Queue.insertToHead, hroom]⟩
  | some found =>
    obtain ⟨wb, q'⟩ := found
    refine Or.inr ⟨wb, q', rfl, ?_⟩
    obtain ⟨hwf, hlt, _⟩ := h.makeRoom hroom
    by_cases hclash : ∃ n ∈ q'.nodes, n.id = node.id
    · left
      have hany : q'.nodes.any (·.id = node.id) = true := by simpa using hclash
      exact ⟨⟨_, hroom, hclash⟩, by simp only [Queue.insertToHead, hroom, hany, if_true]⟩
    · right
      have hany : ¬q'.nodes.any (·.id = node.id) = true := by simpa using hclash
      simp only [not_exists, not_and] at hclash
      refine ⟨hclash, by simp only [Queue.insertToHead, hroom, hany, Bool.false_eq_true, if_false],
        ?_, hlt, ?_⟩
      · simp only [List.length_cons, hwf.len_eq]
      · simp only [List.map_cons, List.nodup_cons, List.mem_map, not_exists, not_and]
        exact ⟨hclash, hwf.ids_nodup⟩

/-- A node whose id is not in the queue becomes the head of a queue that is not full. -/
theorem insertToHead_of_lt {q : Queue α} {node : Node α} (hlt : q.len < queueMaxLen)
    (hfresh : ∀ n ∈ q.nodes, n.id ≠ node.id) :
    q.insertToHead node = .done ⟨node :: q.nodes, q.len + 1⟩ none := by
  have hroom : q.makeRoom = some (none, q) := by rw [Queue.makeRoom, if_neg (Nat.not_le.mpr hlt)]
  have hany : ¬q.nodes.any (·.id = node.id) = true := by simpa using hfresh
  rw [Queue.insertToHead, hroom]
  exact if_neg hany

/-- Moving a node of the queue to the head evicts nothing. -/
theorem WF.moveToHead {q : Queue α} (h : q.WF) {n : Node α} (hn : n ∈ q.nodes) :
    ∃ q' l₁ l₂, q.moveToHead n = .done q' none ∧ q'.WF ∧
      q.nodes = l₁ ++ n :: l₂ ∧ q'.nodes = n :: (l₁ ++ l₂) := by
  obtain ⟨hwf, hlen, l₁, l₂, hnodes, hevict⟩ := h.evict hn
  have hnotfull : ¬queueMaxLen ≤ (q.evict n.id).len := by
    have hle := h.len_le
    omega
  have hroom : (q.evict n.id).makeRoom = some (none, q.evict n.id) := by
    simp only [Queue.makeRoom, hnotfull, if_false]
  have hids := h.ids_nodup
  rw [hnodes, List.map_append, List.map_cons] at hids
  have hfresh := (List.nodup_cons.mp (List.nodup_middle.mp hids)).1
  rcases hwf.insertToHead n with ⟨hno, _⟩ | ⟨wb, q', hroom', hclash | hdone⟩
  · exact absurd (Or.inl (by omega)) hno
  · rw [hroom] at hroom'
    obtain ⟨rfl, rfl⟩ := Prod.mk.inj (Option.some.inj hroom')
    obtain ⟨⟨found, hfound, m, hm, hid⟩, _⟩ := hclash
    obtain rfl := Option.some.inj (hroom.symm.trans hfound)
    rw [hevict] at hm
    refine absurd ?_ hfresh
    rw [← List.map_append, ← hid]
    exact List.mem_map_of_mem hm
  · rw [hroom] at hroom'
    obtain ⟨rfl, rfl⟩ := Prod.mk.inj (Option.some.inj hroom')
    exact ⟨_, l₁, l₂, hdone.2.1, hdone.2.2, hnodes, by rw [← hevict]⟩

/-- An id that is not in the queue does not clash. -/
theorem WF.not_clashes {q : Queue α} (h : q.WF) {id : ℕ} (hid : ∀ n ∈ q.nodes, n.id ≠ id) :
    ¬q.Clashes id := by
  rintro ⟨⟨wb, q'⟩, hroom, n, hn, hnid⟩
  obtain ⟨_, _, _, l₁, l₂, hnodes, hnodes'⟩ := h.makeRoom hroom
  simp only [hnodes', List.mem_append] at hn
  refine hid n ?_ hnid
  rw [hnodes]
  rcases hn with hn | hn
  · simp [hn]
  · simp [hn]

end Queue

end Efs
