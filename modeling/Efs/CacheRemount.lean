import Efs.CacheRetention

/-!
# A second mount

`cache_init` links the heads of the queues to themselves and empties their id
maps, but leaves the lengths alone. So a cache that was closed and initialised
again is as good as new exactly when it was closed without nodes.
-/

namespace Efs

open Library

variable {α : Type}

/-- `cache_init`: `queue_init` on both queues. -/
def Cache.init (c : Cache α) : Cache α :=
  { c with fifo.nodes := [], lru.nodes := [], dangling := false }

/-- The cache in zeroed memory, with the heap as it is. -/
def Cache.zeroed (c : Cache α) : Cache α :=
  { c with fifo := .empty, lru := .empty, dangling := false }

/-- The cache with a new node in its fifo. -/
def Cache.grow (c : Cache α) (id : ℕ) : Cache α :=
  { c with fifo := ⟨c.newNode id :: c.fifo.nodes, c.fifo.len + 1⟩, nextAddr := c.nextAddr + 1 }

/-- The client calls `cache_init`. -/
def Client.init (s : Client α) : Client α := { s with cache := s.cache.init }

/-- The client calls `cache_init` on a cache in zeroed memory. -/
def Client.initZeroed (s : Client α) : Client α := { s with cache := s.cache.zeroed.init }

/-- `cache_insert_get` of one id after the other, without locks. -/
def insertGets (w : World) (fails : List (Handed α) → Bool) :
    List ℕ → Exec Halt (Client α) (List (Option ℕ))
  | [] => pure []
  | id :: ids => do
    let slot ← cacheInsertGet w (recorded fails) id false
    let slots ← insertGets w fails ids
    return slot :: slots

/-- The cache behaves as one that was initialised from zeroed memory. -/
structure Remounted (w : World) (fails : List (Handed α) → Bool) (s : Client α) : Prop where
  /-- The fifo is empty with `len` 0. -/
  fifo : s.cache.fifo = .empty
  /-- The lru queue is empty with `len` 0. -/
  lru : s.cache.lru = .empty
  /-- Later calls do what they do on a new cache. -/
  run_iff : ∀ calls s', Run (CacheStep w fails) s calls s' ↔
    Run (CacheStep w fails) s.initZeroed calls s'
  /-- The first `QUEUE_MAX_LEN` insertions succeed without an eviction. -/
  inserts : ∀ ids : List ℕ, ids.Nodup → ids.length ≤ queueMaxLen →
    Exec.Wp (insertGets w fails ids) (fun slots s' => none ∉ slots ∧ s'.handed = s.handed)
      (fun _ => False) s

section

variable {w : World} {fails : List (Handed α) → Bool} {s s' : Client α}

/-- An insertion of a new id into a fifo that is not full. -/
theorem insert_of_lt {c : Cache α} {id : ℕ} (hlen : c.fifo.len < queueMaxLen)
    (hnew : ∀ n ∈ c.fifo.nodes, n.id ≠ id) : c.insert id = (c.grow id, true, none) := by
  have hroom : c.fifo.makeRoom = some (none, c.fifo) := if_neg (Nat.not_le_of_lt hlen)
  have hany : ¬(c.fifo.nodes.any fun n => n.id = (c.newNode id).id) = true := by
    simp only [List.any_eq_true, decide_eq_true_eq, not_exists, not_and]
    exact hnew
  simp only [Cache.insert, Queue.insertToHead, hroom, if_neg hany]
  rfl

/-- The rule for an insertion that evicts nothing. -/
theorem wp_cacheInsertGet_of_insert {c : Cache α} {id : ℕ} (halive : s.cache.dangling = false)
    (hins : s.cache.insert id = (c, true, none)) {Q : Option ℕ → Client α → Prop} {E : Halt → Prop}
    (hQ : Q (some s.cache.nextAddr) { s with cache := c }) :
    Exec.Wp (cacheInsertGet w (recorded fails) id false) Q E s := by
  simp only [cacheInsertGet, cacheAlive, Exec.wp_bind, Exec.wp_read, Exec.wp_when]
  refine ⟨fun hdangling => ?_, fun _ => ?_⟩
  · simp [recorded, halive] at hdangling
  · have hins' : ((recorded fails).get s).insert id = (c, true, none) := hins
    simp only [hins', if_true, Exec.wp_bind, Exec.wp_update, freeEvicted, Exec.wp_pure,
      Exec.wp_when, Bool.false_eq_true, IsEmpty.forall_iff, not_false_eq_true, forall_const,
      true_and]
    exact hQ

/-- Insertions of new ids succeed while the length stays within its bound, and
leave referenced nodes. -/
theorem wp_insertGets {ids : List ℕ} (halive : s.cache.dangling = false) (hids : ids.Nodup)
    (hnew : ∀ n ∈ s.cache.fifo.nodes, n.id ∉ ids)
    (hlen : s.cache.fifo.len + ids.length ≤ queueMaxLen) :
    Exec.Wp (insertGets w fails ids) (fun slots s' => none ∉ slots ∧ s'.handed = s.handed ∧
        s'.cache.dangling = false ∧ s'.cache.fifo.len = s.cache.fifo.len + ids.length ∧
        ∀ n ∈ s'.cache.fifo.nodes, n ∈ s.cache.fifo.nodes ∨ n.refcnt = 1)
      (fun _ => False) s := by
  induction ids generalizing s with
  | nil => exact ⟨by simp, rfl, halive, rfl, fun n hn => Or.inl hn⟩
  | cons id ids ih =>
    obtain ⟨hid, hids⟩ := List.nodup_cons.mp hids
    rw [List.length_cons] at hlen
    have hins := @insert_of_lt α s.cache id (by omega) fun n hn heq =>
      hnew n hn (heq ▸ List.mem_cons_self)
    refine Exec.wp_bind.mpr (wp_cacheInsertGet_of_insert halive hins ?_)
    refine Exec.wp_bind.mpr ((ih
      (s := { s with cache := s.cache.grow id }) halive hids ?_ ?_).imp ?_)
    · intro n hn hmem
      rcases List.mem_cons.mp hn with rfl | hn
      · exact hid hmem
      · exact hnew n hn (List.mem_cons_of_mem _ hmem)
    · change s.cache.fifo.len + 1 + ids.length ≤ queueMaxLen
      omega
    · rintro slots s' ⟨hslots, hhanded, halive', hlen', hnodes⟩
      refine ⟨by simp [hslots], hhanded, halive', ?_, fun n hn => ?_⟩
      · rw [hlen', List.length_cons]
        change s.cache.fifo.len + 1 + ids.length = _
        omega
      · rcases hnodes n hn with hmem | hone
        · rcases List.mem_cons.mp hmem with rfl | hmem
          · exact Or.inr rfl
          · exact Or.inl hmem
        · exact Or.inr hone

/-- `cache_exit` frees the nodes and leaves the lengths. -/
theorem wp_exit_cache : Exec.Wp (CacheCall.run w fails .exit) (fun _ s' =>
    ∃ leaked, s'.cache = ⟨⟨[], s.cache.fifo.len⟩, ⟨[], s.cache.lru.len⟩, leaked,
      s.cache.nextAddr, true⟩) (fun _ => True) s := by
  simp only [CacheCall.run, cacheExit, cacheAlive, Exec.wp_bind, Exec.wp_read, Exec.wp_when,
    Exec.wp_stop]
  refine ⟨fun _ => trivial, fun _ => (wp_freeNodes _ s).imp ?_⟩
  rintro _ s₁ ⟨_, leaked₁, hcache₁⟩
  refine (wp_freeNodes _ s₁).imp ?_
  rintro _ s₂ ⟨_, leaked₂, hcache₂⟩
  refine ⟨leaked₂, ?_⟩
  simp only [recorded, hcache₂, hcache₁]

/-- A reachable cache is well formed or links a freed node. -/
theorem wf_of_run {calls : List (CacheCall α)}
    (hrun : Run (CacheStep w fails) ⟨.empty, []⟩ calls s) :
    s.cache.WF ∨ s.cache.dangling = true := by
  refine hrun.invariant (I := fun s => s.cache.WF ∨ s.cache.dangling = true) ?_ (Or.inl .empty)
  rintro s call s' (hwf | hdangling) hstep
  · exact (retained_iff hwf hstep).1
  · exact absurd hstep (not_step_of_dangling hdangling)

/-- A cache that was closed and initialised again behaves as one initialised from
zeroed memory exactly when no node was in it. -/
theorem remount_iff (w : World) (fails : List (Handed α) → Bool) (calls : List (CacheCall α))
    (s s' : Client α) (hrun : Run (CacheStep w fails) ⟨.empty, []⟩ calls s)
    (hexit : CacheStep w fails s .exit s') : Remounted w fails s'.init ↔ s.cache.nodes = [] := by
  have hwf : s.cache.WF := (wf_of_run hrun).resolve_right fun hdangling =>
    not_step_of_dangling hdangling hexit
  obtain ⟨leaked, hcache⟩ := wp_exit_cache.of_ok hexit
  have hinit : s'.init.cache = ⟨⟨[], s.cache.fifo.len⟩, ⟨[], s.cache.lru.len⟩, leaked,
      s.cache.nextAddr, false⟩ := by
    simp only [Client.init, Cache.init, hcache]
  constructor
  · intro h
    have hfifo := congrArg Queue.len (hinit ▸ h.fifo)
    have hlru := congrArg Queue.len (hinit ▸ h.lru)
    change s.cache.fifo.len = 0 at hfifo
    change s.cache.lru.len = 0 at hlru
    rw [hwf.fifo.len_eq, List.length_eq_zero_iff] at hfifo
    rw [hwf.lru.len_eq, List.length_eq_zero_iff] at hlru
    rw [Cache.nodes, hfifo, hlru, List.append_nil]
  · intro hnodes
    obtain ⟨hlru, hfifo⟩ := List.append_eq_nil_iff.mp hnodes
    have hfifo' : s.cache.fifo.len = 0 := by rw [hwf.fifo.len_eq, hfifo, List.length_nil]
    have hlru' : s.cache.lru.len = 0 := by rw [hwf.lru.len_eq, hlru, List.length_nil]
    rw [hfifo', hlru'] at hinit
    have hzeroed : s'.init.initZeroed = s'.init := by
      have hsame : s'.init.cache.zeroed.init = s'.init.cache := by
        rw [hinit]
        rfl
      rw [Client.initZeroed, hsame]
    refine ⟨by rw [hinit]; rfl, by rw [hinit]; rfl, fun calls t => by rw [hzeroed], ?_⟩
    intro ids hids hlen
    refine (wp_insertGets ?_ hids ?_ ?_).imp fun slots t h => ⟨h.1, h.2.1⟩
    · rw [hinit]
    · rw [hinit]
      intro n hn
      cases hn
    · rw [hinit]
      simpa using hlen

/-- A new node that is inserted into a fifo of length `QUEUE_MAX_LEN` of
referenced nodes finds no room. -/
theorem wp_cacheInsertGet_full {id : ℕ} (halive : s.cache.dangling = false)
    (hlen : s.cache.fifo.len = queueMaxLen) (hrefs : ∀ n ∈ s.cache.fifo.nodes, n.refcnt ≠ 0) :
    Exec.Wp (cacheInsertGet w (recorded fails) id false) (fun slot _ => slot = none)
      (fun _ => False) s := by
  have hnone : ∀ l : List (Node α), (∀ n ∈ l, n.refcnt ≠ 0) → Queue.lastUnreferenced l = none := by
    intro l
    induction l with
    | nil => exact fun _ => rfl
    | cons n rest ih =>
      intro hl
      simp only [Queue.lastUnreferenced, ih fun m hm => hl m (List.mem_cons_of_mem _ hm),
        if_neg (hl n List.mem_cons_self)]
  have hroom : s.cache.fifo.makeRoom = none := by
    simp only [Queue.makeRoom, Queue.dieout, hlen, le_refl, if_true, hnone _ hrefs]
    rfl
  have hins : ((recorded fails).get s).insert id =
      ({ s.cache with nextAddr := s.cache.nextAddr + 1 }, false, none) := by
    simp only [recorded, Cache.insert, Queue.insertToHead, hroom]
  simp only [cacheInsertGet, cacheAlive, Exec.wp_bind, Exec.wp_read, Exec.wp_when]
  refine ⟨fun hdangling => ?_, fun _ => ?_⟩
  · simp [recorded, halive] at hdangling
  · simp only [hins, Bool.false_eq_true, if_false, Exec.wp_update, Exec.wp_pure]

/-- More insertions of new ids than there is room for do not all succeed. -/
theorem wp_insertGets_overfull {ids : List ℕ} (halive : s.cache.dangling = false)
    (hids : ids.Nodup) (hnew : ∀ n ∈ s.cache.fifo.nodes, n.refcnt ≠ 0 ∧ n.id ∉ ids)
    (hlen : s.cache.fifo.len ≤ queueMaxLen) (hover : queueMaxLen < s.cache.fifo.len + ids.length) :
    Exec.Wp (insertGets w fails ids) (fun slots _ => none ∈ slots) (fun _ => True) s := by
  induction ids generalizing s with
  | nil => exact absurd hlen (Nat.not_le_of_lt hover)
  | cons id ids ih =>
    obtain ⟨hid, hids⟩ := List.nodup_cons.mp hids
    rw [List.length_cons] at hover
    rcases hlen.lt_or_eq with hlt | hfull
    · have hins := @insert_of_lt α s.cache id hlt fun n hn heq =>
        (hnew n hn).2 (heq ▸ List.mem_cons_self)
      refine Exec.wp_bind.mpr (wp_cacheInsertGet_of_insert halive hins ?_)
      refine Exec.wp_bind.mpr ((ih
        (s := { s with cache := s.cache.grow id }) halive hids ?_ ?_ ?_).imp ?_)
      · intro n hn
        rcases List.mem_cons.mp hn with rfl | hn
        · exact ⟨Nat.one_ne_zero, hid⟩
        · exact ⟨(hnew n hn).1, fun hmem => (hnew n hn).2 (List.mem_cons_of_mem _ hmem)⟩
      · exact hlt
      · change queueMaxLen < s.cache.fifo.len + 1 + ids.length
        omega
      · intro slots _ hslots
        exact List.mem_cons_of_mem _ hslots
    · refine Exec.wp_bind.mpr ((wp_cacheInsertGet_full halive hfull fun n hn => (hnew n hn).1).mono
        ?_ fun _ _ => trivial)
      rintro _ s₁ rfl
      exact Exec.wp_bind.mpr (Exec.Wp.intro (fun _ _ _ => List.mem_cons_self) fun _ _ => trivial)

end

/-- The theorem at a cache that was used, with a node in each queue: it is not as good as new. -/
theorem remount_iff_used : ∃ s s' : Client ℕ,
    Run (CacheStep World.plain fun _ => false) ⟨.empty, []⟩
      [.insertGet 7 false, .insertGet 8 false, .makeDirty 7, .giveBack 7, .tryGet 8 false true] s ∧
    CacheStep World.plain (fun _ => false) s .exit s' ∧
    s.cache.nodes.map Node.id = [8, 7] ∧ ¬Remounted World.plain (fun _ => false) s'.init := by
  have hrun : Run (CacheStep World.plain fun _ => false) (⟨.empty, []⟩ : Client ℕ)
      [.insertGet 7 false, .insertGet 8 false, .makeDirty 7, .giveBack 7, .tryGet 8 false true] _ :=
    .cons rfl (.cons rfl (.cons rfl (.cons rfl (.cons rfl (.nil _)))))
  refine ⟨_, _, hrun, rfl, rfl, fun h => ?_⟩
  have hnone := (remount_iff World.plain (fun _ => false) _ _ _ hrun rfl).mp h
  exact absurd (congrArg List.length hnone) (by decide)

/-- The cache of `remount_fails` when it is closed. -/
def closedWithOne : Client ℕ := ⟨⟨⟨[], 1⟩, ⟨[], 0⟩, [], 1, true⟩, [⟨none, 7, false, false⟩]⟩

/-- A cache that was closed with one node in it: `QUEUE_MAX_LEN` insertions do not
succeed on it any more. -/
theorem remount_fails :
    Run (CacheStep World.plain fun _ => false) ⟨.empty, []⟩ [.insertGet 7 false, .exit]
        closedWithOne ∧
      ¬Remounted World.plain (fun _ => false) closedWithOne.init := by
  refine ⟨.cons rfl (.cons rfl (.nil _)), fun h => ?_⟩
  have hnodup : (List.range queueMaxLen).Nodup := List.nodup_range
  have hcount : (List.range queueMaxLen).length = queueMaxLen := List.length_range
  generalize List.range queueMaxLen = ids at hnodup hcount
  have hok := h.inserts ids hnodup hcount.le
  have hfifo : closedWithOne.init.cache.fifo = ⟨[], 1⟩ := rfl
  have hfail : Exec.Wp (insertGets World.plain (fun _ => false) ids) (fun slots _ => none ∈ slots)
      (fun _ => True) closedWithOne.init := by
    refine wp_insertGets_overfull rfl hnodup ?_ ?_ ?_
    · rw [hfifo]
      intro n hn
      cases hn
    · rw [hfifo]
      decide
    · rw [hfifo, hcount]
      exact Nat.lt_add_of_pos_left Nat.one_pos
  cases hrun : insertGets World.plain (fun _ => false) ids closedWithOne.init with
  | ok r =>
    obtain ⟨slots, t⟩ := r
    exact (hok.of_ok hrun).1 (hfail.of_ok hrun)
  | error e => exact hok.of_error hrun

end Efs
