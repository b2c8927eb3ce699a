import Efs.Library.Exec
import Efs.Library.LinkedRing
import Efs.Library.OrdMap
import Efs.Queue
import Mathlib.Data.List.Induction

/-!
# The queues in memory

`queue.c` once more, on the memory in which its nodes are linked: a circular list
with links in both directions, the map of the ids, and the length. It does on the
memory what the queue of nodes does: each call is simulated by the call of the
same name.

Allocation does not fail. The loop of `queue_dieout` stops when it is out of fuel.
-/

namespace Efs

open Library

variable {α : Type}

/-! ## Memory -/

/-- `struct list`. -/
structure ListNode (α : Type) where
  /-- `id`. -/
  id : ℕ
  /-- `refcnt`. -/
  refcnt : ℕ
  /-- `dirty`. -/
  dirty : Bool
  /-- `deleted`. -/
  deleted : Bool
  /-- `content`. -/
  content : Option α
  /-- Whether `lock` is held. -/
  locked : Bool
  /-- `prev`. -/
  prev : ℕ
  /-- `next`. -/
  next : ℕ

/-- `struct queue` and the memory of the nodes. -/
structure LinkQueue (α : Type) where
  /-- The node at each address, and `head` at its own. -/
  mem : ℕ → ListNode α
  /-- `mp`, with the addresses of the nodes. -/
  mp : OrdMap ℕ
  /-- `len`. -/
  len : ℕ

namespace LinkQueue

/-- The links in memory. -/
def links (q : LinkQueue α) : Links ℕ := ⟨fun a => (q.mem a).next, fun a => (q.mem a).prev⟩

/-- The node at an address without its links. -/
def node (q : LinkQueue α) (a : ℕ) : Node α where
  addr := a
  id := (q.mem a).id
  refcnt := (q.mem a).refcnt
  dirty := (q.mem a).dirty
  deleted := (q.mem a).deleted
  content := (q.mem a).content
  locked := (q.mem a).locked

/-- The memory after `a->next = b`. -/
def setNext (q : LinkQueue α) (a b : ℕ) : LinkQueue α :=
  { q with mem := Function.update q.mem a { q.mem a with next := b } }

/-- The memory after `a->prev = b`. -/
def setPrev (q : LinkQueue α) (a b : ℕ) : LinkQueue α :=
  { q with mem := Function.update q.mem a { q.mem a with prev := b } }

/-- A store of a forward link changes the forward links. -/
@[simp] theorem next_setNext (q : LinkQueue α) (a b : ℕ) :
    (q.setNext a b).links.next = Function.update q.links.next a b := by
  funext c
  by_cases hc : c = a
  · simp [links, setNext, hc]
  · simp [links, setNext, hc]

/-- A store of a forward link leaves the backward links. -/
@[simp] theorem prev_setNext (q : LinkQueue α) (a b : ℕ) :
    (q.setNext a b).links.prev = q.links.prev := by
  funext c
  by_cases hc : c = a
  · simp [links, setNext, hc]
  · simp [links, setNext, hc]

/-- A store of a forward link leaves the nodes. -/
@[simp] theorem node_setNext (q : LinkQueue α) (a b : ℕ) : (q.setNext a b).node = q.node := by
  funext c
  by_cases hc : c = a
  · simp [node, setNext, hc]
  · simp [node, setNext, hc]

/-- A store of a backward link leaves the forward links. -/
@[simp] theorem next_setPrev (q : LinkQueue α) (a b : ℕ) :
    (q.setPrev a b).links.next = q.links.next := by
  funext c
  by_cases hc : c = a
  · simp [links, setPrev, hc]
  · simp [links, setPrev, hc]

/-- A store of a backward link changes the backward links. -/
@[simp] theorem prev_setPrev (q : LinkQueue α) (a b : ℕ) :
    (q.setPrev a b).links.prev = Function.update q.links.prev a b := by
  funext c
  by_cases hc : c = a
  · simp [links, setPrev, hc]
  · simp [links, setPrev, hc]

/-- A store of a backward link leaves the nodes. -/
@[simp] theorem node_setPrev (q : LinkQueue α) (a b : ℕ) : (q.setPrev a b).node = q.node := by
  funext c
  by_cases hc : c = a
  · simp [node, setPrev, hc]
  · simp [node, setPrev, hc]

end LinkQueue

/-! ## The calls -/

/-- The statement `a->next = b`. -/
def storeNext (a b : ℕ) : Exec Unit (LinkQueue α) Unit := Exec.update fun q => q.setNext a b

/-- The statement `a->prev = b`. -/
def storePrev (a b : ℕ) : Exec Unit (LinkQueue α) Unit := Exec.update fun q => q.setPrev a b

/-- `map_insert` into `mp`, true when it fails. -/
def mapInsert (id addr : ℕ) : Exec Unit (LinkQueue α) Bool := do
  if (← Exec.read fun q => q.mp.find id).isSome then return true
  Exec.update fun q => { q with mp := q.mp.set id addr }
  return false

/-- `map_delete` from `mp`, true when it fails. -/
def mapDelete (id : ℕ) : Exec Unit (LinkQueue α) Bool := do
  if (← Exec.read fun q => q.mp.find id).isNone then return true
  Exec.update fun q => { q with mp := q.mp.erase id }
  return false

/-- `NULL`. -/
def null : ℕ := 0

/-- `queue_evict`, true when it fails. -/
def queueEvict (evict : ℕ) : Exec Unit (LinkQueue α) Bool := do
  if (← Exec.read (·.len)) = 0 then return true
  let node ← Exec.read (·.mem evict)
  storeNext node.prev node.next
  let node ← Exec.read (·.mem evict)
  storePrev node.next node.prev
  Exec.update fun q => { q with len := q.len - 1 }
  let node ← Exec.read (·.mem evict)
  if ← mapDelete node.id then return true
  storeNext evict null
  storePrev evict null
  return false

/-- The loop of `queue_dieout` from a node on. -/
def dieoutWalk (head : ℕ) : ℕ → ℕ → Exec Unit (LinkQueue α) ℕ
  | 0, _ => Exec.stop ()
  | fuel + 1, evict => do
    let node ← Exec.read (·.mem evict)
    if evict ≠ head ∧ node.refcnt ≠ 0 then dieoutWalk head fuel node.prev else return evict

/-- `queue_dieout`, with `none` for a null pointer. -/
def queueDieout (head fuel : ℕ) : Exec Unit (LinkQueue α) (Option ℕ) := do
  if (← Exec.read (·.len)) = 0 then return none
  let node ← Exec.read (·.mem head)
  let evict ← dieoutWalk head fuel node.prev
  if evict = head then return none
  if ← queueEvict evict then return none
  return some evict

/-- The part of `queue_insert_to_head` that evicts a node when the queue is full:
`*write_back`, and `none` at its exit `return 1`. -/
def queueMakeRoom (head fuel : ℕ) : Exec Unit (LinkQueue α) (Option (Option ℕ)) := do
  if (← Exec.read (·.len)) < queueMaxLen then return some none
  match ← queueDieout head fuel with
  | none => return none
  | some ret => return some (some ret)

/-- The part of `queue_insert_to_head` that links the node, true when it fails. -/
def queueLinkIn (head node : ℕ) : Exec Unit (LinkQueue α) Bool := do
  let first ← Exec.read fun q => (q.mem head).next
  storePrev first node
  let first ← Exec.read fun q => (q.mem head).next
  storeNext node first
  storeNext head node
  storePrev node head
  Exec.update fun q => { q with len := q.len + 1 }
  let id ← Exec.read fun q => (q.mem node).id
  mapInsert id node

/-- `queue_insert_to_head`: whether it fails, and `*write_back`. -/
def queueInsertToHead (head fuel node : ℕ) : Exec Unit (LinkQueue α) (Bool × Option ℕ) := do
  match ← queueMakeRoom head fuel with
  | none => return (true, none)
  | some writeBack =>
    let failed ← queueLinkIn head node
    return (failed, writeBack)

/-- `queue_move_to_head`: whether it fails, and `*write_back` as it was, unless it was set. -/
def queueMoveToHead (head fuel node : ℕ) (writeBack : Option ℕ) :
    Exec Unit (LinkQueue α) (Bool × Option ℕ) := do
  if ← queueEvict node then return (true, writeBack)
  queueInsertToHead head fuel node

/-- `queue_search`, with `none` for a null pointer. -/
def queueSearch (q : LinkQueue α) (id : ℕ) : Option ℕ :=
  if q.len = 0 then none else q.mp.find id

/-! ## Consistency -/

/-- The list, the map and the length agree on the nodes `l`. -/
structure LinkQueue.Consistent (head : ℕ) (q : LinkQueue α) (l : List ℕ) : Prop where
  /-- The forward list. -/
  forward : Follows q.links.next head l head
  /-- The backward list. -/
  backward : Follows q.links.prev head l.reverse head
  /-- The head is no node. -/
  head_not_mem : head ∉ l
  /-- The ids are distinct. -/
  ids : (l.map fun a => (q.mem a).id).Nodup
  /-- The map has the nodes by their ids. -/
  map : ∀ id a, q.mp.find id = some a ↔ a ∈ l ∧ (q.mem a).id = id
  /-- The length is the number of nodes. -/
  len_eq : q.len = l.length
  /-- There are at most `QUEUE_MAX_LEN` nodes. -/
  len_le : q.len ≤ queueMaxLen

namespace LinkQueue

section

variable {E : Unit → Prop} {head a b fuel : ℕ} {q q' : LinkQueue α} {l l' l₁ l₂ : List ℕ}

/-- The nodes of a consistent queue are linked in a circle. -/
theorem Consistent.ring (h : q.Consistent head l) : q.links.Ring head l :=
  ⟨Links.linked_of_follows h.forward h.backward, h.ids.of_map _, h.head_not_mem⟩

/-- A circle of nodes with the map and the length is a consistent queue. -/
theorem Consistent.of_ring (hring : q.links.Ring head l)
    (hids : (l.map fun a => (q.mem a).id).Nodup)
    (hmap : ∀ id a, q.mp.find id = some a ↔ a ∈ l ∧ (q.mem a).id = id)
    (hlen : q.len = l.length) (hle : q.len ≤ queueMaxLen) : q.Consistent head l :=
  ⟨hring.linked.forward, hring.linked.backward, hring.head_not_mem, hids, hmap, hlen, hle⟩

/-- When the nodes stay, so do the ids. -/
theorem id_eq (h : q'.node = q.node) (a : ℕ) : (q'.mem a).id = (q.mem a).id :=
  congrArg Node.id (congrFun h a)

/-- A node that is not on the way back of an element differs from it. -/
theorem Consistent.prev_ne (h : q.Consistent head (l₁ ++ a :: l₂)) : (q.mem a).prev ≠ a := by
  have hprev := (Links.linked_append.mp h.ring.linked).1.prev_mem
  have hnodup := h.ring.nodup
  have hout := h.head_not_mem
  intro heq
  have hmem : a ∈ head :: l₁ := heq ▸ hprev
  rcases List.mem_cons.mp hmem with rfl | hin
  · simp at hout
  · exact (List.nodup_middle.mp hnodup).notMem (List.mem_append_left _ hin)

/-! ## The calls on consistent queues -/

/-- The two stores of `queue_evict` take the node out of the list. -/
theorem links_unlink (hne : (q.mem a).prev ≠ a) :
    (((q.setNext (q.mem a).prev (q.mem a).next).setPrev
      ((q.setNext (q.mem a).prev (q.mem a).next).mem a).next
      ((q.setNext (q.mem a).prev (q.mem a).next).mem a).prev).links = q.links.unlink a) ∧
    ((q.setNext (q.mem a).prev (q.mem a).next).setPrev
      ((q.setNext (q.mem a).prev (q.mem a).next).mem a).next
      ((q.setNext (q.mem a).prev (q.mem a).next).mem a).prev).node = q.node ∧
    (q.setNext (q.mem a).prev (q.mem a).next).mem a = q.mem a := by
  have hself : (q.setNext (q.mem a).prev (q.mem a).next).mem a = q.mem a :=
    Function.update_of_ne hne.symm _ _
  rw [hself]
  refine ⟨congrArg₂ Links.mk ?_ ?_, ?_, rfl⟩
  · exact (next_setPrev _ _ _).trans (next_setNext _ _ _)
  · exact (prev_setPrev _ _ _).trans (by rw [prev_setNext]; rfl)
  · rw [node_setPrev, node_setNext]

/-- The rule for `queue_evict` of a node of the queue. -/
theorem wp_queueEvict (h : q.Consistent head (l₁ ++ a :: l₂)) {Q : Bool → LinkQueue α → Prop}
    (hQ : ∀ q', q'.Consistent head (l₁ ++ l₂) → q'.node = q.node → Q false q') :
    Exec.Wp (queueEvict a) Q E q := by
  have hlen : q.len ≠ 0 := by
    rw [h.len_eq]
    simp
  have hne := h.prev_ne
  have hfind : q.mp.find (q.mem a).id = some a := (h.map _ _).mpr ⟨by simp, rfl⟩
  obtain ⟨hlinks, hnode, hself⟩ := links_unlink h.prev_ne
  generalize hq₁ : q.setNext (q.mem a).prev (q.mem a).next = q₁ at hlinks hnode hself
  generalize hq₂ : q₁.setPrev (q₁.mem a).next (q₁.mem a).prev = q₂ at hlinks hnode
  have hmp : q₂.mp = q.mp := by rw [← hq₂, ← hq₁]; rfl
  have hlen₂ : q₂.len = q.len := by rw [← hq₂, ← hq₁]; rfl
  have hid : (q₂.mem a).id = (q.mem a).id := id_eq hnode a
  have hsome : (q₂.mp.find (q₂.mem a).id).isNone = false := by rw [hid, hmp, hfind]; rfl
  simp only [queueEvict, mapDelete, storeNext, storePrev, Exec.wp_bind, Exec.wp_read,
    Exec.wp_update, hlen, if_false, hq₁, hq₂, hsome, Bool.false_eq_true, Exec.wp_pure]
  -- what the node that was taken out points at does not matter
  have hout : ∀ x ∈ head :: (l₁ ++ l₂), x ≠ a := by
    rintro x hx rfl
    rcases List.mem_cons.mp hx with rfl | hx
    · exact h.head_not_mem (by simp)
    · exact (List.nodup_middle.mp h.ring.nodup).notMem hx
  generalize hq₃ : (({ q₂ with len := q₂.len - 1, mp := q₂.mp.erase (q₂.mem a).id } :
    LinkQueue α).setNext a null).setPrev a null = q₃
  have hnode₃ : q₃.node = q.node := by
    rw [← hq₃, node_setPrev, node_setNext]
    exact hnode
  have hring : q₃.links.Ring head (l₁ ++ l₂) := by
    apply (hlinks ▸ h.ring.unlink).congr
    · intro x hx
      rw [← hq₃, next_setPrev, next_setNext]
      exact Function.update_of_ne (hout x hx) _ _
    · intro x hx
      rw [← hq₃, prev_setPrev, prev_setNext]
      exact Function.update_of_ne (hout x hx) _ _
  have hmp₃ : q₃.mp = q.mp.erase (q.mem a).id := by
    rw [← hq₃, ← hmp, ← hid]
    rfl
  have hlen₃ : q₃.len = q.len - 1 := by
    rw [← hq₃, ← hlen₂]
    rfl
  refine hQ _ (.of_ring hring ?_ ?_ ?_ ?_) hnode₃
  · simp only [id_eq hnode₃]
    exact h.ids.sublist (((List.Sublist.refl l₁).append (List.sublist_cons_self a l₂)).map _)
  · intro id b
    rw [id_eq hnode₃, hmp₃, OrdMap.find_erase]
    by_cases hsame : (q.mem a).id = id
    · simp only [hsame, if_true, reduceCtorEq, false_iff, not_and]
      intro hb hbid
      have hb' : b ∈ l₁ ++ a :: l₂ := by
        rcases List.mem_append.mp hb with hb | hb
        · simp [hb]
        · simp [hb]
      have hba := (h.map _ _).mpr ⟨hb', hbid⟩
      rw [← hsame, hfind] at hba
      exact hout b (List.mem_cons_of_mem _ hb) (Option.some.inj hba).symm
    · simp only [hsame, if_false, h.map]
      refine and_congr_left fun hbid => ?_
      have hne : b ≠ a := by
        rintro rfl
        exact hsame hbid
      simp [hne]
  · rw [hlen₃, h.len_eq]
    simp
  · have hle := h.len_le
    omega

/-- The element of `l` nearest its end without a reference. -/
structure NearestTail (q : LinkQueue α) (l l₁ : List ℕ) (a : ℕ) (l₂ : List ℕ) : Prop where
  /-- Its place. -/
  place : l = l₁ ++ a :: l₂
  /-- It has no reference. -/
  unreferenced : (q.mem a).refcnt = 0
  /-- Those behind it have references. -/
  behind : ∀ b ∈ l₂, (q.mem b).refcnt ≠ 0

/-- The rule for the loop of `queue_dieout`, by induction from the tail. -/
theorem wp_dieoutWalk (h : q.links.Linked head l b) (hhead : head ∉ l)
    (hfuel : l.length < fuel ∨ E ())
    {Q : ℕ → LinkQueue α → Prop} (hnone : (∀ a ∈ l, (q.mem a).refcnt ≠ 0) → Q head q)
    (hsome : ∀ l₁ a l₂, q.NearestTail l l₁ a l₂ → Q a q) :
    Exec.Wp (dieoutWalk head fuel (q.mem b).prev) Q E q := by
  induction l using List.reverseRecOn generalizing b fuel with
  | nil =>
    have hprev : (q.mem b).prev = head := h.2
    cases fuel with
    | zero => exact hfuel.resolve_left (Nat.not_lt_zero _)
    | succ fuel =>
      simp only [dieoutWalk, Exec.wp_bind, Exec.wp_read, hprev, ne_eq, not_true_eq_false, false_and,
        if_false, Exec.wp_pure]
      exact hnone (by simp)
  | append_singleton l a ih =>
    obtain ⟨hbefore, hafter⟩ := Links.linked_append.mp h
    have hprev : (q.mem b).prev = a := hafter.2
    simp only [List.mem_append, List.mem_singleton, not_or] at hhead
    cases fuel with
    | zero => exact hfuel.resolve_left (Nat.not_lt_zero _)
    | succ fuel =>
      have hfuel' : l.length < fuel ∨ E () := by
        rw [List.length_append, List.length_singleton] at hfuel
        exact hfuel.imp_left Nat.lt_of_succ_lt_succ
      simp only [dieoutWalk, Exec.wp_bind, Exec.wp_read, hprev]
      apply Exec.wp_ite.mpr
      constructor
      · rintro ⟨_, href⟩
        apply ih hbefore hhead.1 hfuel'
        · intro hall
          apply hnone
          intro c hc
          rcases List.mem_append.mp hc with hc | hc
          · exact hall c hc
          · rw [List.mem_singleton.mp hc]
            exact href
        · rintro l₁ c l₂ ⟨rfl, hzero, hbehind⟩
          refine hsome l₁ c (l₂ ++ [a]) ⟨by simp, hzero, ?_⟩
          intro d hd
          rcases List.mem_append.mp hd with hd | hd
          · exact hbehind d hd
          · rw [List.mem_singleton.mp hd]
            exact href
      · intro hnot
        have hzero : (q.mem a).refcnt = 0 := by
          by_contra href
          exact hnot ⟨Ne.symm hhead.2, href⟩
        exact hsome l a [] ⟨rfl, hzero, by simp⟩

/-- The rule for `queue_dieout`. -/
theorem wp_queueDieout (h : q.Consistent head l) (hfuel : l.length < fuel ∨ E ())
    {Q : Option ℕ → LinkQueue α → Prop} (hnone : (∀ a ∈ l, (q.mem a).refcnt ≠ 0) → Q none q)
    (hsome : ∀ l₁ a l₂ q', q.NearestTail l l₁ a l₂ → q'.Consistent head (l₁ ++ l₂) →
      q'.node = q.node → Q (some a) q') : Exec.Wp (queueDieout head fuel) Q E q := by
  simp only [queueDieout, Exec.wp_bind, Exec.wp_read]
  apply Exec.wp_ite.mpr
  constructor
  · intro hzero
    rw [h.len_eq, List.length_eq_zero_iff] at hzero
    apply hnone
    simp [hzero]
  intro _
  simp only [Exec.wp_bind, Exec.wp_read]
  apply wp_dieoutWalk h.ring.linked h.head_not_mem hfuel
  · intro hall
    simp only [if_true, Exec.wp_pure]
    exact hnone hall
  · intro l₁ a l₂ hnearest
    have hconsistent := hnearest.place ▸ h
    have hne : a ≠ head := by
      rintro rfl
      exact hconsistent.head_not_mem (by simp)
    simp only [hne, if_false, Exec.wp_bind]
    apply wp_queueEvict hconsistent
    intro q' hq' hnode
    exact hsome l₁ a l₂ q' hnearest hq' hnode

/-- The four stores of `queue_insert_to_head` put the node behind the head. -/
theorem links_link (q : LinkQueue α) (head a : ℕ) :
    ((((q.setPrev (q.mem head).next a).setNext a
      ((q.setPrev (q.mem head).next a).mem head).next).setNext head a).setPrev a head).links =
      q.links.link head a := by
  have hnext : ((q.setPrev (q.mem head).next a).mem head).next = (q.mem head).next :=
    congrFun (next_setPrev q (q.mem head).next a) head
  rw [hnext]
  refine congrArg₂ Links.mk ?_ ?_
  · refine (next_setPrev _ _ _).trans ((next_setNext _ _ _).trans ?_)
    rw [next_setNext, next_setPrev]
    rfl
  · refine (prev_setPrev _ _ _).trans ?_
    rw [prev_setNext, prev_setNext, prev_setPrev]
    rfl

/-- A node is put in behind the head of a queue that has room. -/
theorem wp_queueLinkIn (h : q.Consistent head l) (hroom : q.len < queueMaxLen) (hhead : a ≠ head)
    (hfresh : ∀ b ∈ l, (q.mem b).id ≠ (q.mem a).id) {Q : Bool → LinkQueue α → Prop}
    (hQ : ∀ q', q'.Consistent head (a :: l) → q'.node = q.node → Q false q') :
    Exec.Wp (queueLinkIn head a) Q E q := by
  have ha : a ∉ l := fun hin => hfresh a hin rfl
  simp only [queueLinkIn, mapInsert, storeNext, storePrev, Exec.wp_bind, Exec.wp_read,
    Exec.wp_update]
  have hlinks := links_link q head a
  generalize hq₁ : (((q.setPrev (q.mem head).next a).setNext a
    ((q.setPrev (q.mem head).next a).mem head).next).setNext head a).setPrev a head = q₁ at hlinks
  have hnode : q₁.node = q.node := by
    rw [← hq₁, node_setPrev, node_setNext, node_setNext, node_setPrev]
  have hmp : q₁.mp = q.mp := by rw [← hq₁]; rfl
  have hlen : q₁.len = q.len := by rw [← hq₁]; rfl
  have hnone : q₁.mp.find (q₁.mem a).id = none := by
    rw [hmp, id_eq hnode]
    cases hfind : q.mp.find (q.mem a).id with
    | none => rfl
    | some b =>
      obtain ⟨hb, hid⟩ := (h.map _ _).mp hfind
      exact absurd hid (hfresh b hb)
  simp only [hnone, Option.isSome_none, Bool.false_eq_true, if_false, Exec.wp_bind, Exec.wp_update,
    Exec.wp_pure]
  have hring : q₁.links.Ring head (a :: l) := hlinks ▸ h.ring.link hhead ha
  refine hQ _ (.of_ring hring ?_ ?_ ?_ ?_) hnode
  · simp only [id_eq hnode, List.map_cons, List.nodup_cons, List.mem_map, not_exists, not_and]
    exact ⟨hfresh, h.ids⟩
  · intro id b
    simp only [OrdMap.find_set, hmp, id_eq hnode, List.mem_cons]
    by_cases hid : (q.mem a).id = id
    · simp only [hid, if_true, Option.some.injEq]
      constructor
      · rintro rfl
        exact ⟨Or.inl rfl, hid⟩
      · rintro ⟨rfl | hb, hbid⟩
        · rfl
        · exact absurd (hbid.trans hid.symm) (hfresh b hb)
    · simp only [hid, if_false, h.map]
      refine and_congr_left fun hbid => ?_
      have hne : b ≠ a := by
        rintro rfl
        exact hid hbid
      simp [hne]
  · simp only [hlen, h.len_eq, List.length_cons]
  · simp only [hlen]
    exact hroom

/-- The rule for `queue_insert_to_head` of a node whose id is not in the queue. -/
theorem wp_queueInsertToHead (h : q.Consistent head l) (hfuel : l.length < fuel ∨ E ())
    (hhead : a ≠ head)
    (hfresh : ∀ b ∈ l, (q.mem b).id ≠ (q.mem a).id) {Q : Bool × Option ℕ → LinkQueue α → Prop}
    (hroom : ∀ q', l.length < queueMaxLen → q'.Consistent head (a :: l) → q'.node = q.node →
      Q (false, none) q')
    (hevict : ∀ l₁ b l₂ q', l.length = queueMaxLen → q.NearestTail l l₁ b l₂ →
      q'.Consistent head (a :: (l₁ ++ l₂)) → q'.node = q.node → Q (false, some b) q')
    (hfull : l.length = queueMaxLen → (∀ b ∈ l, (q.mem b).refcnt ≠ 0) → Q (true, none) q) :
    Exec.Wp (queueInsertToHead head fuel a) Q E q := by
  have hle := h.len_le
  have hlen := h.len_eq
  simp only [queueInsertToHead, queueMakeRoom, Exec.wp_bind, Exec.wp_read]
  apply Exec.wp_ite.mpr
  constructor
  · intro hlt
    simp only [Exec.wp_pure, Exec.wp_bind]
    apply wp_queueLinkIn h hlt hhead hfresh
    intro q' hq' hnode
    exact hroom q' (by omega) hq' hnode
  · intro hnot
    have hl : l.length = queueMaxLen := by omega
    simp only [Exec.wp_bind]
    apply wp_queueDieout h hfuel
    · intro hall
      exact hfull hl hall
    · intro l₁ b l₂ q' hnearest hq' hnode
      simp only [Exec.wp_pure, Exec.wp_bind]
      have hlen' := hq'.len_eq
      have hplace := congrArg List.length hnearest.place
      simp only [List.length_append, List.length_cons] at hlen' hplace
      apply wp_queueLinkIn hq' (by omega) hhead
      · intro c hc
        rw [id_eq hnode, id_eq hnode]
        apply hfresh
        rw [hnearest.place]
        rcases List.mem_append.mp hc with hc | hc
        · simp [hc]
        · simp [hc]
      · intro q'' hq'' hnode'
        exact hevict l₁ b l₂ q'' hl hnearest hq'' (hnode'.trans hnode)

/-- The rule for `queue_move_to_head` of a node of the queue. -/
theorem wp_queueMoveToHead (h : q.Consistent head (l₁ ++ a :: l₂))
    (hfuel : (l₁ ++ l₂).length < fuel ∨ E ()) {wb : Option ℕ}
      {Q : Bool × Option ℕ → LinkQueue α → Prop}
    (hQ : ∀ q', q'.Consistent head (a :: (l₁ ++ l₂)) → q'.node = q.node → Q (false, none) q') :
    Exec.Wp (queueMoveToHead head fuel a wb) Q E q := by
  have hle := h.len_le
  have hlen := h.len_eq
  simp only [List.length_append, List.length_cons] at hlen
  have hhead : a ≠ head := by
    rintro rfl
    exact h.head_not_mem (by simp)
  rw [queueMoveToHead, Exec.wp_bind]
  apply wp_queueEvict h
  intro q₁ hq₁ hnode
  simp only [Bool.false_eq_true, if_false]
  have hids := h.ids
  rw [List.map_append, List.map_cons, List.nodup_middle, List.nodup_cons] at hids
  have hshort : (l₁ ++ l₂).length ≠ queueMaxLen := by
    rw [List.length_append]
    omega
  apply wp_queueInsertToHead hq₁ hfuel hhead
  · intro b hb hid
    rw [id_eq hnode, id_eq hnode] at hid
    apply hids.1
    rw [← List.map_append, ← hid]
    exact List.mem_map_of_mem hb
  · intro q' _ hq' hnode'
    exact hQ q' hq' (hnode'.trans hnode)
  · intro _ _ _ _ hfull
    exact absurd hfull hshort
  · intro hfull
    exact absurd hfull hshort

/-! ## The queue of nodes -/

/-- The queue of the nodes `l`. -/
def view (q : LinkQueue α) (l : List ℕ) : Queue α := ⟨l.map q.node, q.len⟩

/-- The length of the view. -/
@[simp] theorem view_len (q : LinkQueue α) (l : List ℕ) : (q.view l).len = q.len := rfl

/-- The view depends on the nodes and the length only. -/
theorem view_eq (hnode : q'.node = q.node) {len : ℕ} (hlen : q'.len = len) :
    q'.view l = ⟨l.map q.node, len⟩ := by
  rw [view, hnode, hlen]

/-- A node whose id no element has is new to the queue of nodes. -/
theorem view_fresh (hfresh : ∀ b ∈ l, (q.mem b).id ≠ (q.mem a).id) :
    ∀ n ∈ (q.view l).nodes, n.id ≠ (q.node a).id := by
  intro n hn
  obtain ⟨b, hb, rfl⟩ := List.mem_map.mp hn
  exact hfresh b hb

/-- A node that can be evicted is the one that the queue of nodes evicts. -/
theorem NearestTail.dieout (h : q.Consistent head l) (hnearest : q.NearestTail l l₁ a l₂) :
    (q.view l).dieout = some (q.node a, ⟨(l₁ ++ l₂).map q.node, q.len - 1⟩) := by
  have hlen : q.len ≠ 0 := by
    rw [h.len_eq, hnearest.place]
    simp
  have hlast : Queue.lastUnreferenced (l.map q.node) =
      some (q.node a, l₁.map q.node ++ l₂.map q.node) := by
    rw [hnearest.place, List.map_append, List.map_cons]
    apply Queue.lastUnreferenced_append hnearest.unreferenced
    intro n hn
    obtain ⟨b, hb, rfl⟩ := List.mem_map.mp hn
    exact hnearest.behind b hb
  simp only [Queue.dieout, view, hlen, if_false, hlast, List.map_append]

/-- The queue of nodes evicts none when all have references. -/
theorem dieout_eq_none (hall : ∀ a ∈ l, (q.mem a).refcnt ≠ 0) : (q.view l).dieout = none := by
  have hlast : Queue.lastUnreferenced (l.map q.node) = none := by
    apply Queue.lastUnreferenced_eq_none.mpr
    intro n hn
    obtain ⟨a, ha, rfl⟩ := List.mem_map.mp hn
    exact hall a ha
  simp only [Queue.dieout, view, hlast, ite_self]

/-- `queue_insert_to_head` does in memory what it does on the queue of nodes. -/
theorem queueInsertToHead_simulates (h : q.Consistent head l) (hfuel : l.length < fuel ∨ E ())
    (hhead : a ≠ head) (hfresh : ∀ b ∈ l, (q.mem b).id ≠ (q.mem a).id) :
    Exec.Wp (queueInsertToHead head fuel a) (fun r q' => ∃ l', q'.Consistent head l' ∧
      ((q.view l).insertToHead (q.node a) = .noRoom ∧ r = (true, none) ∧ q' = q ∨
        ∃ wb, (q.view l).insertToHead (q.node a) = .done (q'.view l') wb ∧
          r = (false, wb.map (·.addr)))) E q := by
  have hlen := h.len_eq
  apply wp_queueInsertToHead h hfuel hhead hfresh
  · intro q' hlt hq' hnode
    refine ⟨a :: l, hq', Or.inr ⟨none, ?_, rfl⟩⟩
    have hroom : (q.view l).len < queueMaxLen := by
      rw [view_len]
      omega
    have hlen' : q'.len = q.len + 1 := by
      rw [hq'.len_eq, hlen]
      rfl
    rw [view_eq hnode hlen', Queue.insertToHead_of_lt hroom (view_fresh hfresh)]
    rfl
  · intro l₁ b l₂ q' hfull hnearest hq' hnode
    refine ⟨a :: (l₁ ++ l₂), hq', Or.inr ⟨some (q.node b), ?_, rfl⟩⟩
    have hroom : queueMaxLen ≤ (q.view l).len := by
      rw [view_len]
      omega
    have hlen' : q'.len = q.len - 1 + 1 := by
      have hplace := congrArg List.length hnearest.place
      have hlenq := hq'.len_eq
      simp only [List.length_append, List.length_cons] at hplace hlenq
      omega
    have hsub : ∀ c ∈ l₁ ++ l₂, c ∈ l := by
      intro c hc
      rw [hnearest.place]
      rcases List.mem_append.mp hc with hc | hc
      · simp [hc]
      · simp [hc]
    rw [view_eq hnode hlen']
    have hany : ((l₁ ++ l₂).map q.node).any (·.id = (q.node a).id) = false := by
      rw [List.any_eq_false]
      intro n hn
      simpa using view_fresh (fun c hc => hfresh c (hsub c hc)) n hn
    simp only [Queue.insertToHead, Queue.makeRoom, hroom, if_true, hnearest.dieout h, hany,
      Bool.false_eq_true, if_false, List.map_cons]
  · intro hfull hall
    refine ⟨l, h, Or.inl ⟨?_, rfl, rfl⟩⟩
    have hroom : queueMaxLen ≤ (q.view l).len := by
      rw [view_len]
      omega
    simp only [Queue.insertToHead, Queue.makeRoom, hroom, if_true, dieout_eq_none hall]

/-- `queue_evict` of a node of the queue takes it out of the queue of nodes. -/
theorem Consistent.evict (h : q.Consistent head (l₁ ++ a :: l₂)) :
    (q.view (l₁ ++ a :: l₂)).evict (q.node a).id = ⟨(l₁ ++ l₂).map q.node, q.len - 1⟩ := by
  have hids := h.ids
  rw [List.map_append, List.map_cons, List.nodup_middle, List.nodup_cons] at hids
  have hbefore : ∀ n ∈ l₁.map q.node, ¬decide (n.id = (q.node a).id) = true := by
    intro n hn
    obtain ⟨b, hb, rfl⟩ := List.mem_map.mp hn
    have hmem : (q.mem b).id ∈ l₁.map fun a => (q.mem a).id := List.mem_map_of_mem hb
    intro hid
    have hid' : (q.mem b).id = (q.mem a).id := of_decide_eq_true hid
    exact hids.1 (List.mem_append_left _ (hid' ▸ hmem))
  have hself : List.eraseP (fun n => decide (n.id = (q.node a).id)) (q.node a :: l₂.map q.node) =
      l₂.map q.node := List.eraseP_cons_of_pos (decide_eq_true rfl)
  simp only [Queue.evict, view, List.map_append, List.map_cons, List.eraseP_append_right _ hbefore,
    hself]

/-- `queue_move_to_head` of a node of the queue makes it the head of the queue of nodes. -/
theorem Consistent.moveToHead (h : q.Consistent head (l₁ ++ a :: l₂))
    (hq' : q'.Consistent head (a :: (l₁ ++ l₂))) (hnode : q'.node = q.node) :
    (q.view (l₁ ++ a :: l₂)).moveToHead (q.node a) = .done (q'.view (a :: (l₁ ++ l₂))) none := by
  have hids := h.ids
  rw [List.map_append, List.map_cons, List.nodup_middle, List.nodup_cons] at hids
  have hlen := h.len_eq
  have hle := h.len_le
  have hlen' := hq'.len_eq
  simp only [List.length_append, List.length_cons] at hlen hlen'
  rw [view_eq hnode (by omega : q'.len = q.len - 1 + 1), Queue.moveToHead, h.evict]
  apply Queue.insertToHead_of_lt
  · change q.len - 1 < queueMaxLen
    omega
  · intro n hn
    obtain ⟨b, hb, rfl⟩ := List.mem_map.mp hn
    intro hid
    apply hids.1
    rw [← List.map_append]
    exact List.mem_map.mpr ⟨b, hb, hid⟩

/-- `queue_search` finds in memory what it finds in the queue of nodes. -/
theorem queueSearch_simulates (h : q.Consistent head l) (id : ℕ) :
    queueSearch q id = ((q.view l).search id).map (·.addr) := by
  have hwf : (q.view l).WF := by
    refine ⟨?_, h.len_le, ?_⟩
    · rw [view, List.length_map]
      exact h.len_eq
    · rw [view, List.map_map]
      exact h.ids
  have hfind : queueSearch q id = q.mp.find id := by
    unfold queueSearch
    by_cases hzero : q.len = 0
    · have hnil : l = [] := by rwa [h.len_eq, List.length_eq_zero_iff] at hzero
      rw [if_pos hzero]
      cases hid : q.mp.find id with
      | none => rfl
      | some a =>
        obtain ⟨ha, _⟩ := (h.map _ _).mp hid
        rw [hnil] at ha
        cases ha
    · rw [if_neg hzero]
  rw [hfind]
  cases hsearch : (q.view l).search id with
  | none =>
    cases hid : q.mp.find id with
    | none => rfl
    | some a =>
      obtain ⟨ha, haid⟩ := (h.map _ _).mp hid
      exact absurd haid (hwf.search_eq_none.mp hsearch (q.node a) (List.mem_map_of_mem ha))
  | some n =>
    obtain ⟨hn, hid⟩ := hwf.search_eq_some.mp hsearch
    obtain ⟨a, ha, rfl⟩ := List.mem_map.mp hn
    exact (h.map _ _).mpr ⟨ha, hid⟩

end

/-! ## Runs -/

/-- A node is on the forward list. -/
def Holds (head : ℕ) (q : LinkQueue α) (a : ℕ) : Prop :=
  ∃ l, Follows q.links.next head l head ∧ head ∉ l ∧ a ∈ l

/-- A queue after `queue_init`, with a length of 0. -/
structure Initial (head : ℕ) (q : LinkQueue α) : Prop where
  /-- `head.next`. -/
  next : (q.mem head).next = head
  /-- `head.prev`. -/
  prev : (q.mem head).prev = head
  /-- The map is empty. -/
  mp : q.mp = .empty
  /-- The length is 0. -/
  len : q.len = 0

end LinkQueue

/-- A call on a queue with its result, or changes of the memory by others. -/
inductive QueueCall
  | insertToHead (node : ℕ) (failed : Bool) (writeBack : Option ℕ)
  | evict (node : ℕ) (failed : Bool)
  | moveToHead (node : ℕ) (failed : Bool) (writeBack : Option ℕ)
  | dieout (evicted : Option ℕ)
  | others

/-- One call: an insertion of a node whose id is not in the queue, an eviction or a
move of a node of the queue, or a call of `queue_dieout`. Others change what they want
of the nodes but their links and their ids while they are in the queue. -/
def QueueStep (head : ℕ) (q : LinkQueue α) (call : QueueCall) (q' : LinkQueue α) : Prop :=
  match call with
  | .insertToHead node failed writeBack =>
    node ≠ head ∧ (∀ a, q.Holds head a → (q.mem a).id ≠ (q.mem node).id) ∧
      ∃ fuel, queueInsertToHead head fuel node q = .ok ((failed, writeBack), q')
  | .evict node failed => q.Holds head node ∧ queueEvict node q = .ok (failed, q')
  | .moveToHead node failed writeBack =>
    q.Holds head node ∧ ∃ fuel, queueMoveToHead head fuel node none q =
      .ok ((failed, writeBack), q')
  | .dieout evicted => ∃ fuel, queueDieout head fuel q = .ok (evicted, q')
  | .others =>
    q'.mp = q.mp ∧ q'.len = q.len ∧
      (∀ a, a = head ∨ q.Holds head a →
        (q'.mem a).next = (q.mem a).next ∧ (q'.mem a).prev = (q.mem a).prev) ∧
      ∀ a, q.Holds head a → (q'.mem a).id = (q.mem a).id

/-- What a call does to the nodes `l` of the queue: they become `l'`. -/
def QueueEffect (q : LinkQueue α) (l : List ℕ) (call : QueueCall) (q' : LinkQueue α)
    (l' : List ℕ) : Prop :=
  match call with
  | .insertToHead node failed writeBack =>
    (l.length < queueMaxLen ∧ failed = false ∧ writeBack = none ∧ l' = node :: l) ∨
      (l.length = queueMaxLen ∧ failed = false ∧ ∃ l₁ a l₂, q.NearestTail l l₁ a l₂ ∧
        writeBack = some a ∧ l' = node :: (l₁ ++ l₂)) ∨
      (l.length = queueMaxLen ∧ failed = true ∧ writeBack = none ∧
        (∀ a ∈ l, (q.mem a).refcnt ≠ 0) ∧ q' = q)
  | .evict node failed => failed = false ∧ ∃ l₁ l₂, l = l₁ ++ node :: l₂ ∧ l' = l₁ ++ l₂
  | .moveToHead node failed writeBack =>
    failed = false ∧ writeBack = none ∧ ∃ l₁ l₂, l = l₁ ++ node :: l₂ ∧ l' = node :: (l₁ ++ l₂)
  | .dieout evicted =>
    (∃ l₁ a l₂, q.NearestTail l l₁ a l₂ ∧ evicted = some a ∧ l' = l₁ ++ l₂) ∨
      ((∀ a ∈ l, (q.mem a).refcnt ≠ 0) ∧ evicted = none ∧ q' = q)
  | .others => l' = l

section

variable {head : ℕ} {q q' : LinkQueue α} {l : List ℕ} {call : QueueCall}

open LinkQueue

/-- A queue after `queue_init` is consistent. -/
theorem LinkQueue.Initial.consistent (h : q.Initial head) : q.Consistent head [] := by
  refine ⟨h.next, h.prev, List.not_mem_nil, List.nodup_nil, ?_, h.len, ?_⟩
  · intro id a
    rw [h.mp]
    simp
  · rw [h.len]
    exact Nat.zero_le _

/-- The nodes on the forward list of a consistent queue. -/
theorem LinkQueue.Consistent.holds_iff (h : q.Consistent head l) {a : ℕ} :
    q.Holds head a ↔ a ∈ l := by
  constructor
  · rintro ⟨l', hfollows, hhead, ha⟩
    rwa [h.forward.unique hfollows h.head_not_mem hhead]
  · intro ha
    exact ⟨l, h.forward, h.head_not_mem, ha⟩

/-- What others change keeps a queue consistent. -/
theorem LinkQueue.Consistent.others (h : q.Consistent head l)
    (hstep : QueueStep head q .others q') : q'.Consistent head l := by
  obtain ⟨hmp, hlen, hlinks, hids⟩ := hstep
  have hlinks' : ∀ a ∈ head :: l,
      (q'.mem a).next = (q.mem a).next ∧ (q'.mem a).prev = (q.mem a).prev := by
    intro a ha
    exact hlinks a ((List.mem_cons.mp ha).imp_right h.holds_iff.mpr)
  have hids' : ∀ a ∈ l, (q'.mem a).id = (q.mem a).id := fun a ha => hids a (h.holds_iff.mpr ha)
  refine .of_ring (h.ring.congr ?_ ?_) ?_ ?_ ?_ ?_
  · exact fun a ha => (hlinks' a ha).1
  · exact fun a ha => (hlinks' a ha).2
  · rw [List.map_congr_left hids']
    exact h.ids
  · intro id a
    rw [hmp, h.map]
    exact and_congr_right fun ha => by rw [hids' a ha]
  · rw [hlen, h.len_eq]
  · rw [hlen]
    exact h.len_le

/-- One call keeps the queue consistent, and does what it should. -/
theorem queueStep_effect (h : q.Consistent head l) (hstep : QueueStep head q call q') :
    ∃ l', q'.Consistent head l' ∧ QueueEffect q l call q' l' := by
  cases call with
  | insertToHead node failed writeBack =>
    obtain ⟨hhead, hfresh, fuel, hrun⟩ := hstep
    have hwp : Exec.Wp (queueInsertToHead head fuel node) (fun r q' => ∃ l', q'.Consistent head l' ∧
        QueueEffect q l (.insertToHead node r.1 r.2) q' l') (fun _ => True) q := by
      apply wp_queueInsertToHead h (Or.inr trivial) hhead
      · exact fun a ha => hfresh a (h.holds_iff.mpr ha)
      · intro q' hlt hq' _
        exact ⟨_, hq', Or.inl ⟨hlt, rfl, rfl, rfl⟩⟩
      · intro l₁ a l₂ q' hfull hnearest hq' _
        exact ⟨_, hq', Or.inr (Or.inl ⟨hfull, rfl, l₁, a, l₂, hnearest, rfl, rfl⟩)⟩
      · intro hfull hall
        exact ⟨l, h, Or.inr (Or.inr ⟨hfull, rfl, rfl, hall, rfl⟩)⟩
    exact hwp.of_ok hrun
  | evict node failed =>
    obtain ⟨hholds, hrun⟩ := hstep
    obtain ⟨l₁, l₂, rfl⟩ := List.append_of_mem (h.holds_iff.mp hholds)
    have hwp : Exec.Wp (queueEvict node) (fun r q' => ∃ l', q'.Consistent head l' ∧
        QueueEffect q (l₁ ++ node :: l₂) (.evict node r) q' l') (fun _ => True) q := by
      apply wp_queueEvict h
      intro q' hq' _
      exact ⟨_, hq', rfl, l₁, l₂, rfl, rfl⟩
    exact hwp.of_ok hrun
  | moveToHead node failed writeBack =>
    obtain ⟨hholds, fuel, hrun⟩ := hstep
    obtain ⟨l₁, l₂, rfl⟩ := List.append_of_mem (h.holds_iff.mp hholds)
    have hwp : Exec.Wp (queueMoveToHead head fuel node none) (fun r q' => ∃ l',
        q'.Consistent head l' ∧ QueueEffect q (l₁ ++ node :: l₂) (.moveToHead node r.1 r.2) q' l')
        (fun _ => True) q := by
      apply wp_queueMoveToHead h (Or.inr trivial)
      intro q' hq' _
      exact ⟨_, hq', rfl, rfl, l₁, l₂, rfl, rfl⟩
    exact hwp.of_ok hrun
  | dieout evicted =>
    obtain ⟨fuel, hrun⟩ := hstep
    have hwp : Exec.Wp (queueDieout head fuel) (fun r q' => ∃ l', q'.Consistent head l' ∧
        QueueEffect q l (.dieout r) q' l') (fun _ => True) q := by
      apply wp_queueDieout h (Or.inr trivial)
      · intro hall
        exact ⟨l, h, Or.inr ⟨hall, rfl, rfl⟩⟩
      · intro l₁ a l₂ q' hnearest hq' _
        exact ⟨_, hq', Or.inl ⟨l₁, a, l₂, hnearest, rfl, rfl⟩⟩
    exact hwp.of_ok hrun
  | others => exact ⟨l, h.others hstep, rfl⟩

/-- A call on the queue of nodes with its result; others change no address and no id. -/
def NodesStep (q : Queue α) (call : QueueCall) (q' : Queue α) : Prop :=
  match call with
  | .insertToHead node failed writeBack =>
    ∃ n : Node α, n.addr = node ∧
      (q.insertToHead n = .noRoom ∧ failed = true ∧ writeBack = none ∧ q' = q ∨
        ∃ wb, q.insertToHead n = .done q' wb ∧ failed = false ∧ writeBack = wb.map (·.addr))
  | .evict node failed => failed = false ∧ ∃ n ∈ q.nodes, n.addr = node ∧ q' = q.evict n.id
  | .moveToHead node failed writeBack =>
    failed = false ∧ writeBack = none ∧
      ∃ n ∈ q.nodes, n.addr = node ∧ q.moveToHead n = .done q' none
  | .dieout evicted =>
    (q.dieout = none ∧ evicted = none ∧ q' = q) ∨
      ∃ n, q.dieout = some (n, q') ∧ evicted = some n.addr
  | .others =>
    q'.len = q.len ∧
      q'.nodes.map (fun n => (n.addr, n.id)) = q.nodes.map fun n => (n.addr, n.id)

/-- One call does on the queue of nodes what it does in memory. -/
theorem queueStep_simulates (h : q.Consistent head l) (hstep : QueueStep head q call q') :
    ∃ l', q'.Consistent head l' ∧ NodesStep (q.view l) call (q'.view l') := by
  cases call with
  | insertToHead node failed writeBack =>
    obtain ⟨hhead, hfresh, fuel, hrun⟩ := hstep
    have hwp : Exec.Wp (queueInsertToHead head fuel node) _ (fun _ => True) q :=
      queueInsertToHead_simulates h (Or.inr trivial) hhead fun a ha =>
        hfresh a (h.holds_iff.mpr ha)
    obtain ⟨l', hq', ⟨hnone, hr, rfl⟩ | ⟨wb, hdone, hr⟩⟩ := hwp.of_ok hrun
    · obtain ⟨rfl, rfl⟩ := Prod.mk.inj hr
      exact ⟨l, h, q'.node node, rfl, Or.inl ⟨hnone, rfl, rfl, rfl⟩⟩
    · obtain ⟨rfl, rfl⟩ := Prod.mk.inj hr
      exact ⟨l', hq', q.node node, rfl, Or.inr ⟨wb, hdone, rfl, rfl⟩⟩
  | evict node failed =>
    obtain ⟨hholds, hrun⟩ := hstep
    obtain ⟨l₁, l₂, rfl⟩ := List.append_of_mem (h.holds_iff.mp hholds)
    have hwp : Exec.Wp (queueEvict node) (fun r q' => ∃ l', q'.Consistent head l' ∧
        NodesStep (q.view (l₁ ++ node :: l₂)) (.evict node r) (q'.view l')) (fun _ => True) q := by
      apply wp_queueEvict h
      intro q' hq' hnode
      have hmem : q.node node ∈ (q.view (l₁ ++ node :: l₂)).nodes :=
        List.mem_map_of_mem (by simp)
      refine ⟨_, hq', rfl, _, hmem, rfl, ?_⟩
      have hlen := h.len_eq
      have hlen' := hq'.len_eq
      simp only [List.length_append, List.length_cons] at hlen hlen'
      rw [h.evict, view_eq hnode (by omega : q'.len = q.len - 1)]
    exact hwp.of_ok hrun
  | moveToHead node failed writeBack =>
    obtain ⟨hholds, fuel, hrun⟩ := hstep
    obtain ⟨l₁, l₂, rfl⟩ := List.append_of_mem (h.holds_iff.mp hholds)
    have hwp : Exec.Wp (queueMoveToHead head fuel node none) (fun r q' => ∃ l',
        q'.Consistent head l' ∧ NodesStep (q.view (l₁ ++ node :: l₂)) (.moveToHead node r.1 r.2)
          (q'.view l')) (fun _ => True) q := by
      apply wp_queueMoveToHead h (Or.inr trivial)
      intro q' hq' hnode
      have hmem : q.node node ∈ (q.view (l₁ ++ node :: l₂)).nodes :=
        List.mem_map_of_mem (by simp)
      exact ⟨_, hq', rfl, rfl, _, hmem, rfl, h.moveToHead hq' hnode⟩
    exact hwp.of_ok hrun
  | dieout evicted =>
    obtain ⟨fuel, hrun⟩ := hstep
    have hwp : Exec.Wp (queueDieout head fuel) (fun r q' => ∃ l', q'.Consistent head l' ∧
        NodesStep (q.view l) (.dieout r) (q'.view l')) (fun _ => True) q := by
      apply wp_queueDieout h (Or.inr trivial)
      · intro hall
        exact ⟨l, h, Or.inl ⟨dieout_eq_none hall, rfl, rfl⟩⟩
      · intro l₁ a l₂ q' hnearest hq' hnode
        have hlen := h.len_eq
        have hlen' := hq'.len_eq
        simp only [hnearest.place, List.length_append, List.length_cons] at hlen hlen'
        refine ⟨_, hq', Or.inr ⟨q.node a, ?_, rfl⟩⟩
        rw [hnearest.dieout h, view_eq hnode (by omega : q'.len = q.len - 1)]
    exact hwp.of_ok hrun
  | others =>
    have hmem : ∀ a ∈ l, (q'.mem a).id = (q.mem a).id := by
      intro a ha
      exact hstep.2.2.2 a (h.holds_iff.mpr ha)
    refine ⟨l, h.others hstep, hstep.2.1, ?_⟩
    simp only [view, List.map_map]
    apply List.map_congr_left
    intro a ha
    exact congrArg (Prod.mk a) (hmem a ha)

/-- Every call returns. -/
structure QueueReturns (head : ℕ) (q : LinkQueue α) : Prop where
  /-- An insertion of a node whose id is not in the queue. -/
  insertToHead : ∀ node, node ≠ head → (∀ a, q.Holds head a → (q.mem a).id ≠ (q.mem node).id) →
    ∃ failed writeBack q', QueueStep head q (.insertToHead node failed writeBack) q'
  /-- An eviction of a node of the queue. -/
  evict : ∀ node, q.Holds head node → ∃ failed q', QueueStep head q (.evict node failed) q'
  /-- A move of a node of the queue. -/
  moveToHead : ∀ node, q.Holds head node →
    ∃ failed writeBack q', QueueStep head q (.moveToHead node failed writeBack) q'
  /-- A call of `queue_dieout`. -/
  dieout : ∃ evicted q', QueueStep head q (.dieout evicted) q'

/-- Every call on a consistent queue returns. -/
theorem LinkQueue.Consistent.returns (h : q.Consistent head l) : QueueReturns head q := by
  have hfuel : l.length < queueMaxLen + 1 ∨ False := by
    have hlen := h.len_eq
    have hle := h.len_le
    omega
  constructor
  · intro node hhead hfresh
    have hwp : Exec.Wp (queueInsertToHead head (queueMaxLen + 1) node) (fun _ _ => True)
        (fun _ => False) q := by
      apply wp_queueInsertToHead h hfuel hhead fun a ha => hfresh a (h.holds_iff.mpr ha)
      · exact fun _ _ _ _ => trivial
      · exact fun _ _ _ _ _ _ _ _ => trivial
      · exact fun _ _ => trivial
    obtain ⟨⟨failed, writeBack⟩, q', hrun, _⟩ := hwp.returns
    exact ⟨failed, writeBack, q', hhead, hfresh, _, hrun⟩
  · intro node hholds
    obtain ⟨l₁, l₂, rfl⟩ := List.append_of_mem (h.holds_iff.mp hholds)
    have hwp : Exec.Wp (queueEvict node) (fun _ _ => True) (fun _ => False) q :=
      wp_queueEvict h fun _ _ _ => trivial
    obtain ⟨failed, q', hrun, _⟩ := hwp.returns
    exact ⟨failed, q', hholds, hrun⟩
  · intro node hholds
    obtain ⟨l₁, l₂, rfl⟩ := List.append_of_mem (h.holds_iff.mp hholds)
    have hfuel' : (l₁ ++ l₂).length < queueMaxLen + 1 := by
      have hlt := hfuel.resolve_right id
      simp only [List.length_append, List.length_cons] at hlt ⊢
      omega
    have hwp : Exec.Wp (queueMoveToHead head (queueMaxLen + 1) node none) (fun _ _ => True)
        (fun _ => False) q := wp_queueMoveToHead h (Or.inl hfuel') fun _ _ _ => trivial
    obtain ⟨⟨failed, writeBack⟩, q', hrun, _⟩ := hwp.returns
    exact ⟨failed, writeBack, q', hholds, _, hrun⟩
  · have hwp : Exec.Wp (queueDieout head (queueMaxLen + 1)) (fun _ _ => True)
      (fun _ => False) q := by
      apply wp_queueDieout h hfuel
      · exact fun _ => trivial
      · exact fun _ _ _ _ _ _ _ => trivial
    obtain ⟨evicted, q', hrun, _⟩ := hwp.returns
    exact ⟨evicted, q', _, hrun⟩

/-- In every run from an empty queue the lists, the map and the length agree, every
call returns, and it evicts at most the node nearest the tail without a reference. -/
theorem queue_consistent (head : ℕ) (q q' : LinkQueue α) (calls : List QueueCall)
    (hq : q.Initial head) (hrun : Run (QueueStep head) q calls q') :
    ∃ l, q'.Consistent head l ∧ QueueReturns head q' ∧
      ∀ call q'', QueueStep head q' call q'' →
        ∃ l', q''.Consistent head l' ∧ QueueEffect q' l call q'' l' := by
  have hinv : ∃ l, q'.Consistent head l := by
    refine hrun.invariant (I := fun q => ∃ l, q.Consistent head l) ?_ ⟨[], hq.consistent⟩
    rintro q₁ call q₂ ⟨l, hl⟩ hstep
    obtain ⟨l', hl', _⟩ := queueStep_effect hl hstep
    exact ⟨l', hl'⟩
  obtain ⟨l, hl⟩ := hinv
  exact ⟨l, hl, hl.returns, fun _ _ hstep => queueStep_effect hl hstep⟩

/-- A run of the calls in memory is a run of the calls on the queue of nodes, with the same
results, and a search finds the same node. -/
theorem queue_refines (hq : q.Initial head) {calls : List QueueCall}
    (hrun : Run (QueueStep head) q calls q') :
    ∃ l, q'.Consistent head l ∧ Run NodesStep Queue.empty calls (q'.view l) ∧
      ∀ id, queueSearch q' id = ((q'.view l).search id).map (·.addr) := by
  obtain ⟨v, ⟨l, hl, rfl⟩, hnodes⟩ := hrun.simulates
    (R := fun q v => ∃ l, q.Consistent head l ∧ q.view l = v) (t := q.view []) (by
      rintro q₁ _ call q₂ ⟨l, hl, rfl⟩ hstep
      obtain ⟨l', hl', hnodes⟩ := queueStep_simulates hl hstep
      exact ⟨_, ⟨l', hl', rfl⟩, hnodes⟩) ⟨[], hq.consistent, rfl⟩
  have hempty : q.view [] = Queue.empty := congrArg (Queue.mk []) hq.len
  exact ⟨l, hl, hempty ▸ hnodes, queueSearch_simulates hl⟩

end

/-- An empty queue with its head at the address 1; the id of each node is its address. -/
def emptyQueue : LinkQueue Unit := ⟨fun a => ⟨a, 0, false, false, none, false, 1, 1⟩, .empty, 0⟩

/-- Insertions fill the empty queue with nodes that have no reference. -/
theorem emptyQueue_fills (n : ℕ) (hn : n ≤ queueMaxLen) :
    ∃ calls q l, Run (QueueStep 1) emptyQueue calls q ∧ q.Consistent 1 l ∧ l.length = n ∧
      (∀ a ∈ l, 1 < a ∧ a ≤ n + 1) ∧ q.node = emptyQueue.node := by
  induction n with
  | zero =>
    have hinitial : emptyQueue.Initial 1 := ⟨rfl, rfl, rfl, rfl⟩
    exact ⟨[], _, [], .nil _, hinitial.consistent, rfl, by simp, rfl⟩
  | succ n ih =>
    obtain ⟨calls, q, l, hrun, hl, hlen, hbound, hnode⟩ := ih (Nat.le_of_succ_le hn)
    have hid : ∀ a, (q.mem a).id = a := LinkQueue.id_eq hnode
    have hfresh : ∀ b ∈ l, (q.mem b).id ≠ (q.mem (n + 2)).id := by
      intro b hb
      have hle := (hbound b hb).2
      rw [hid, hid]
      omega
    have hwp : Exec.Wp (queueInsertToHead 1 (l.length + 1) (n + 2)) (fun r q' => r = (false, none) ∧
        q'.Consistent 1 ((n + 2) :: l) ∧ q'.node = q.node) (fun _ => False) q := by
      apply LinkQueue.wp_queueInsertToHead hl (Or.inl (Nat.lt_succ_self _)) (by omega) hfresh
      · exact fun q' _ hq' hnode' => ⟨rfl, hq', hnode'⟩
      · exact fun _ _ _ _ hfull => by omega
      · exact fun hfull => by omega
    obtain ⟨_, q', hstep, rfl, hq', hnode'⟩ := hwp.returns
    have hinsert : QueueStep 1 q (.insertToHead (n + 2) false none) q' :=
      ⟨by omega, fun a ha => hfresh a (hl.holds_iff.mp ha), _, hstep⟩
    refine ⟨_, q', _, hrun.append (.cons hinsert (.nil _)), hq', ?_, ?_, hnode'.trans hnode⟩
    · rw [List.length_cons, hlen]
    · intro a ha
      rcases List.mem_cons.mp ha with rfl | ha
      · omega
      · have hin := hbound a ha
        omega

/-- The theorem after the insertions that fill a queue: the next one evicts the node at the tail. -/
theorem queue_consistent_full : ∃ calls q l a q', Run (QueueStep 1) emptyQueue calls q ∧
    (l ++ [a]).length = queueMaxLen ∧ q.Consistent 1 (l ++ [a]) ∧ QueueReturns 1 q ∧
    QueueStep 1 q (.insertToHead 300 false (some a)) q' ∧ q'.Consistent 1 (300 :: l) := by
  obtain ⟨calls, q, l₀, hrun, hl₀, hlen, hbound, hnode⟩ := emptyQueue_fills queueMaxLen le_rfl
  obtain ⟨l, hl, hreturns, heffect⟩ :=
    queue_consistent 1 emptyQueue q calls ⟨rfl, rfl, rfl, rfl⟩ hrun
  obtain rfl : l = l₀ := hl.forward.unique hl₀.forward hl.head_not_mem hl₀.head_not_mem
  have hfresh : ∀ a, q.Holds 1 a → (q.mem a).id ≠ (q.mem 300).id := by
    intro a ha
    have hle := (hbound a (hl.holds_iff.mp ha)).2
    simp only [queueMaxLen] at hle
    rw [LinkQueue.id_eq hnode, LinkQueue.id_eq hnode]
    change a ≠ 300
    omega
  have hzero : ∀ a, (q.mem a).refcnt = 0 := fun a => congrArg Node.refcnt (congrFun hnode a)
  obtain ⟨failed, writeBack, q', hinsert⟩ := hreturns.insertToHead 300 (by decide) hfresh
  obtain ⟨l', hl', ⟨hlt, _⟩ | ⟨_, rfl, l₁, a, l₂, hnearest, rfl, rfl⟩ | ⟨_, _, _, hall, _⟩⟩ :=
    heffect _ _ hinsert
  · omega
  · cases l₂ with
    | nil =>
      rw [List.append_nil] at hl'
      have hplace := hnearest.place
      exact ⟨calls, q, l₁, a, q', hrun, hplace ▸ hlen, hplace ▸ hl, hreturns, hinsert, hl'⟩
    | cons b l₂ => exact absurd (hzero b) (hnearest.behind b List.mem_cons_self)
  · cases l with
    | nil => cases hlen
    | cons b l => exact absurd (hzero b) (hall b List.mem_cons_self)

/-- The refinement after the insertions that fill a queue. -/
theorem queue_refines_full : ∃ calls q l, Run (QueueStep 1) emptyQueue calls q ∧
    l.length = queueMaxLen ∧ Run NodesStep Queue.empty calls (q.view l) ∧
    ∀ id, queueSearch q id = ((q.view l).search id).map (·.addr) := by
  obtain ⟨calls, q, l₀, hrun, hl₀, hlen, _⟩ := emptyQueue_fills queueMaxLen le_rfl
  obtain ⟨l, hl, hnodes, hsearch⟩ := @queue_refines _ 1 _ _ ⟨rfl, rfl, rfl, rfl⟩ _ hrun
  obtain rfl : l = l₀ := hl.forward.unique hl₀.forward hl.head_not_mem hl₀.head_not_mem
  exact ⟨calls, q, l, hrun, hlen, hnodes, hsearch⟩

end Efs
