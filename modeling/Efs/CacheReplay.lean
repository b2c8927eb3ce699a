import Efs.CacheOrder

/-!
# What a release does with the block cache

The release of an inode takes a reference to each cached index block while it frees the
blocks below, and gets a block of the data bitmap for each block that it frees. Whether the
queues have room for these lookups follows from their order and references, so that the
lookups can be replayed on the queues alone.
-/

namespace Efs

open Library

variable {α : Type}

namespace Cache

/-- A change of the node of an id, if there is one. -/
def onNode (c : Cache α) (id : ℕ) (f : Node α → Node α) : Cache α :=
  match c.node id with
  | some n => c.modify n.addr f
  | none => c

/-- The cache after the node of an id was looked up and a reference to it was taken. -/
def hold (c : Cache α) (id : ℕ) : Option (Cache α) :=
  if (c.find id true).lost then none
  else some ((c.find id true).cache.onNode id fun n => { n with refcnt := n.refcnt + 1 })

/-- The cache after a reference to the node of an id was given back. -/
def release (c : Cache α) (id : ℕ) : Cache α :=
  c.onNode id fun n => { n with refcnt := n.refcnt - 1 }

/-- The cache after a node of an id was got, which is inserted when there is none, and was
given back. -/
def visit (c : Cache α) (id : ℕ) : Option (Cache α) :=
  if (c.find id true).lost then none
  else if c.node id ≠ none then some (c.find id true).cache
  else
    match c.insert id with
    | (c', true, _) => some (c'.release id)
    | _ => none

section

variable {c c' c₁ : Cache α} {id : ℕ} {f : Node α → Node α} {g : ℕ → ℕ}

/-- A change of the references to a node. -/
theorem Keyed.onNode (h : c.Keyed) (id : ℕ) (hf : ∀ n, (f n).id = n.id ∧ (f n).addr = n.addr)
    (hg : ∀ n, (f n).refcnt = g n.refcnt) : (c.onNode id f).Keyed ∧
      (c.onNode id f).order = c.order ∧
      ∀ i, (c.onNode id f).refs i = if i = id ∧ c.node id ≠ none then g
        (c.refs id) else c.refs i := by
  unfold Cache.onNode
  cases hn : c.node id with
  | none => exact ⟨h, rfl, fun i => by rw [if_neg (fun hi => hi.2 rfl)]⟩
  | some n =>
    obtain ⟨hk, hmap⟩ := h.modify hn hf
    refine ⟨hk, order_modify c n.addr fun m => (hf m).1, fun i => ?_⟩
    by_cases hi : i = id
    · subst hi
      rw [if_pos ⟨rfl, by simp⟩]
      simp only [refs, hmap, Function.update_self, hn, Option.map_some, Option.getD_some, hg]
    · rw [if_neg fun h => hi h.1]
      simp only [refs, hmap, Function.update_of_ne hi]

/-- Caches stay alike when the references to the same node change. -/
theorem Alike.onNode (h : c.Alike c') (hk : c.Keyed) (hk' : c'.Keyed)
    (hf : ∀ n, (f n).id = n.id ∧ (f n).addr = n.addr) (hg : ∀ n, (f n).refcnt = g n.refcnt) :
    (c.onNode id f).Alike (c'.onNode id f) := by
  obtain ⟨hkeyed, horder, hrefs⟩ := hk.onNode id hf hg
  obtain ⟨hkeyed', horder', hrefs'⟩ := hk'.onNode id hf hg
  refine hkeyed.alike hkeyed' (by rw [horder, horder', h.order_eq]) fun i => ?_
  simp only [hrefs, hrefs', h.refs_eq, ne_eq, h.node_eq_none id]

/-- An insertion of an id without a node leaves the references to the other nodes. -/
theorem Keyed.refs_insert {tofree : Option (Node α)} (h : c.Keyed) (hnew : c.node id = none)
    (hins : c.insert id = (c', true, tofree)) : c'.Keyed ∧ c'.node id ≠ none ∧
      ∀ i, c'.refs i = if i = id then 1 else c.refs i := by
  obtain ⟨hc, hd, hmap⟩ := h.inserted hnew (hins ▸ h.wf.insert id)
  refine ⟨hc, by simp [hmap], fun i => ?_⟩
  by_cases hi : i = id
  · simp only [refs, hmap, hi, if_true]
    rfl
  · rw [refs, hmap, if_neg hi, if_neg hi]
    by_cases hfreed : ∃ d ∈ tofree, d.id = i
    · obtain ⟨d, hmem, rfl⟩ := hfreed
      obtain ⟨hnode, hzero⟩ := hd d hmem
      rw [if_pos ⟨d, hmem, rfl⟩, refs, hnode]
      exact hzero.symm
    · rw [if_neg hfreed, refs]

/-- Insertions of an id succeed together. -/
theorem Alike.insert (h : c.Alike c') (id : ℕ) :
    (c.insert id).1.Alike (c'.insert id).1 ∧ (c.insert id).2.1 = (c'.insert id).2.1 := by
  have hins := h.fifo.insertToHead (show (c.newNode id).use = (c'.newNode id).use from rfl)
  unfold Cache.insert
  generalize c.fifo.insertToHead (c.newNode id) = ins,
    c'.fifo.insertToHead (c'.newNode id) = ins' at hins
  cases hins with
  | noRoom => exact ⟨⟨h.fifo, h.lru⟩, rfl⟩
  | clash hq => exact ⟨⟨hq, h.lru⟩, rfl⟩
  | done hq => exact ⟨⟨hq, h.lru⟩, rfl⟩

/-! ### The replays -/

/-- A lookup that loses no node finds the node in the cache that it leaves, or there is none. -/
theorem Keyed.node_find_eq_none (h : c.Keyed) (hlost : (c.find id true).lost = false) :
    (c.find id true).cache.node id = none ↔ c.node id = none := by
  have hk := (h.find hlost).1
  generalize hfind : c.find id true = found at hlost hk
  have hcase : c.FindCase id true found := hfind ▸ h.wf.find id true
  cases hcase with
  | absent => exact Iff.rfl
  | lost => cases hlost
  | found c₁ n _ hn _ _ _ _ hmem =>
    have hn₁ : c₁.node id = some n := hk.node_eq_some.mpr ⟨hmem, h.id_eq hn⟩
    simp [hn, hn₁]

/-- What taking a reference leaves. -/
theorem Keyed.hold (h : c.Keyed) (hhold : c.hold id = some c₁) : c₁.Keyed ∧
    c₁.order = (c.find id true).cache.order ∧
    ∀ i, c₁.refs i = if i = id ∧ c.node id ≠ none then c.refs id + 1 else c.refs i := by
  unfold Cache.hold at hhold
  split_ifs at hhold with hlost
  obtain rfl := Option.some.inj hhold
  have hlost' : (c.find id true).lost = false := by simpa using hlost
  obtain ⟨hfound, hrefs⟩ := h.find hlost'
  obtain ⟨hk, horder, hrefs'⟩ := hfound.onNode id
    (f := fun n => { n with refcnt := n.refcnt + 1 }) (g := (· + 1))
      (fun _ => ⟨rfl, rfl⟩) fun _ => rfl
  refine ⟨hk, horder, fun i => ?_⟩
  simp only [hrefs', hrefs, ne_eq, h.node_find_eq_none hlost']

/-- What giving a reference back leaves. -/
theorem Keyed.release (h : c.Keyed) (id : ℕ) : (c.release id).Keyed ∧
    (c.release id).order = c.order ∧
    ∀ i, (c.release id).refs i = if i = id then c.refs id - 1 else c.refs i := by
  obtain ⟨hk, horder, hrefs⟩ := h.onNode id
    (f := fun n => { n with refcnt := n.refcnt - 1 }) (g := (· - 1))
      (fun _ => ⟨rfl, rfl⟩) fun _ => rfl
  refine ⟨hk, horder, fun i => (hrefs i).trans ?_⟩
  by_cases hi : i = id
  · subst hi
    by_cases hn : c.node i = none
    · rw [if_neg fun h => h.2 hn, if_pos rfl, refs_of_none hn]
    · rw [if_pos ⟨rfl, hn⟩, if_pos rfl]
  · rw [if_neg fun h => hi h.1, if_neg hi]

/-- A visit leaves the references. -/
theorem Keyed.visit (h : c.Keyed) (hvisit : c.visit id = some c₁) :
    c₁.Keyed ∧ ∀ i, c₁.refs i = c.refs i := by
  unfold Cache.visit at hvisit
  split_ifs at hvisit with hlost hn
  · obtain rfl := Option.some.inj hvisit
    exact h.find (by simpa using hlost)
  · have hnew : c.node id = none := not_not.mp hn
    split at hvisit
    · next c' tofree hins =>
      obtain rfl := Option.some.inj hvisit
      obtain ⟨hk, hne, hrefs⟩ := h.refs_insert hnew hins
      obtain ⟨hk', _, hrefs'⟩ := hk.release id
      refine ⟨hk', fun i => (hrefs' i).trans ?_⟩
      rw [hrefs, hrefs, if_pos rfl]
      split_ifs with hi
      · rw [hi, refs_of_none hnew]
      · rfl
    · cases hvisit

/-- An id without a node is inserted exactly when the fifo has room. -/
theorem Keyed.insert_iff (h : c.Keyed) (hnew : c.node id = none) :
    (c.insert id).2.1 = true ↔ c.fifo.HasRoom := by
  have hclash : ¬c.fifo.Clashes id :=
    h.wf.fifo.not_clashes fun n hn => h.node_eq_none.mp hnew n (mem_nodes.mpr (Or.inr hn))
  rcases h.wf.fifo.insertToHead (c.newNode id) with
    ⟨hno, hins⟩ | ⟨wb, q, hroom, ⟨hc, _⟩ | ⟨_, hins, _⟩⟩
  · simp only [Cache.insert, hins, Bool.false_eq_true, false_iff]
    exact hno
  · exact absurd hc hclash
  · simp only [Cache.insert, hins, true_iff]
    exact Queue.makeRoom_isSome.mp (by rw [hroom]; rfl)

/-- A visit can be made exactly when the cache admits the id. -/
theorem Keyed.visit_isSome (h : c.Keyed) : (c.visit id).isSome ↔ c.Admits id := by
  unfold Cache.visit Cache.Admits
  by_cases hlost : (c.find id true).lost = true
  · rw [if_pos hlost]
    simp [hlost]
  · rw [if_neg hlost]
    by_cases hn : c.node id = none
    · rw [if_neg (not_not.mpr hn)]
      have hiff := h.insert_iff hn
      generalize c.insert id = ins at hiff
      obtain ⟨c', inserted, tofree⟩ := ins
      cases inserted <;> simp_all
    · rw [if_pos hn]
      simpa [hn] using hlost

/-- References can be taken in both caches or in none. -/
theorem Alike.hold (h : c.Alike c') (hk : c.Keyed) (hk' : c'.Keyed) (id : ℕ) :
    Option.Rel Alike (c.hold id) (c'.hold id) := by
  unfold Cache.hold
  rw [h.find_lost]
  split_ifs with hlost
  · exact .none
  · have hlost' : (c'.find id true).lost = false := by simpa using hlost
    exact .some ((h.find id).onNode (g := (· + 1)) (hk.find (by rwa [h.find_lost])).1
      (hk'.find hlost').1 (fun _ => ⟨rfl, rfl⟩) fun _ => rfl)

/-- Releases of an id leave caches that are alike. -/
theorem Alike.release (h : c.Alike c') (hk : c.Keyed) (hk' : c'.Keyed) (id : ℕ) :
    (c.release id).Alike (c'.release id) :=
  h.onNode (g := (· - 1)) hk hk' (fun _ => ⟨rfl, rfl⟩) fun _ => rfl

/-- Visits can be made in both caches or in none. -/
theorem Alike.visit (h : c.Alike c') (hk : c.Keyed) (hk' : c'.Keyed) (id : ℕ) :
    Option.Rel Alike (c.visit id) (c'.visit id) := by
  unfold Cache.visit
  rw [h.find_lost]
  split_ifs with hlost hn hn' hn'
  · exact .none
  · exact .some (h.find id)
  · exact absurd ((h.node_eq_none id).mpr (not_not.mp hn')) hn
  · exact absurd ((h.node_eq_none id).mp (not_not.mp hn)) hn'
  · obtain ⟨hins, hmade⟩ := h.insert id
    have hnew : c.node id = none := not_not.mp hn
    have hnew' : c'.node id = none := not_not.mp hn'
    generalize hc : c.insert id = ins, hc' : c'.insert id = ins' at hins hmade
    obtain ⟨c₁, made, tofree⟩ := ins
    obtain ⟨c₁', made', tofree'⟩ := ins'
    obtain rfl : made = made' := hmade
    cases made with
    | false => exact .none
    | true =>
      exact .some (Alike.release hins (hk.refs_insert hnew hc).1 (hk'.refs_insert hnew' hc').1 id)

end

end Cache

/-! ## The uses of a release -/

/-- What the release of an inode does with the block cache. -/
inductive CacheUse
  /-- `bget_raw` of an index block. -/
  | hold (bid : ℕ)
  /-- `breturn_raw` of an index block. -/
  | release (bid : ℕ)
  /-- `block_free` of a block. -/
  | free (bid : ℕ)
  deriving DecidableEq

/-- `block_free` of a block goes on to `dbm_free`: there is an entry of `pd_wb`, from before
the release in the state `s`, or from a write back of the dirty block in the release, which
left the cache `c`. -/
def Sys.FreesDid (s : Sys) (c : Cache Block) (bid : ℕ) : Prop :=
  s.pdWb.find bid ≠ none ∨ (s.spot bid).dirty = true ∧ c.node bid = none

instance (s : Sys) (c : Cache Block) (bid : ℕ) : Decidable (s.FreesDid c bid) :=
  inferInstanceAs (Decidable (¬_ ∨ _))

/-- What one use in a release from the state `s` makes of the cache. -/
def Sys.replayUse (s : Sys) (c : Cache Block) : CacheUse → Option (Cache Block)
  | .hold bid => c.hold bid
  | .release bid => some (c.release bid)
  | .free bid => if s.FreesDid c bid then c.visit (bitmapDid2Bid (bid2Did bid)) else some c

/-- What the uses in a release from the state `s` make of the cache. -/
def Sys.replay (s : Sys) (c : Cache Block) (uses : List CacheUse) : Option (Cache Block) :=
  uses.foldlM s.replayUse c

/-- The block cache of `s` has room for the uses in a release from `s₀`. -/
def Sys.Fits (s₀ : Sys) (uses : List CacheUse) (s : Sys) : Prop := (s₀.replay s.bcac uses).isSome

/-- The uses in a release from `s₀` lead from the block cache of `s` to that of `s'`. -/
def Sys.Follows (s₀ : Sys) (uses : List CacheUse) (s s' : Sys) : Prop :=
  ∃ c, s₀.replay s.bcac uses = some c ∧ s'.bcac.Alike c

section

variable {w : World} {s₀ s s₁ s' : Sys} {c c' : Cache Block} {use : CacheUse}
  {uses uses' : List CacheUse} {bid : ℕ}

/-- Uses are replayed one after the other. -/
theorem replay_append : s₀.replay c (uses ++ uses') =
    (s₀.replay c uses).bind fun c₁ => s₀.replay c₁ uses' := List.foldlM_append

/-- A replay of one use is that use. -/
theorem replay_singleton : s₀.replay c [use] = s₀.replayUse c use := by
  simp [Sys.replay]

/-- A use keeps each node found by its id. -/
theorem Cache.Keyed.replayUse (h : c.Keyed) (huse : s₀.replayUse c use = some c') : c'.Keyed := by
  cases use with
  | hold bid => exact (h.hold huse).1
  | release bid =>
    obtain rfl := Option.some.inj huse
    exact (h.release bid).1
  | free bid =>
    simp only [Sys.replayUse] at huse
    split_ifs at huse
    · exact (h.visit huse).1
    · obtain rfl := Option.some.inj huse
      exact h

/-- A use does the same on caches that are alike. -/
theorem Cache.Alike.replayUse (h : c.Alike c') (hk : c.Keyed) (hk' : c'.Keyed) (s₀ : Sys)
    (use : CacheUse) :
    Option.Rel Alike (s₀.replayUse c use) (s₀.replayUse c' use) := by
  cases use with
  | hold bid => exact h.hold hk hk' bid
  | release bid => exact .some (h.release hk hk' bid)
  | free bid =>
    have hsame : s₀.FreesDid c bid ↔ s₀.FreesDid c' bid :=
      or_congr_right (and_congr_right fun _ => h.node_eq_none bid)
    simp only [Sys.replayUse, hsame]
    split_ifs
    · exact h.visit hk hk' _
    · exact .some h

/-- Replays on caches that are alike succeed together and leave them alike. -/
theorem Cache.Alike.replay (h : c.Alike c') (hk : c.Keyed) (hk' : c'.Keyed) (s₀ : Sys)
    (uses : List CacheUse) :
    Option.Rel Alike (s₀.replay c uses) (s₀.replay c' uses) := by
  induction uses generalizing c c' with
  | nil => exact .some h
  | cons use uses ih =>
    have huse := h.replayUse hk hk' s₀ use
    simp only [Sys.replay, List.foldlM_cons, Option.bind_eq_bind]
    generalize hc : s₀.replayUse c use = res, hc' : s₀.replayUse c' use = res' at huse
    cases huse with
    | none => exact .none
    | some h₁ => exact ih h₁ (hk.replayUse hc) (hk'.replayUse hc')

/-- A replay keeps each node found by its id. -/
theorem Cache.Keyed.replay (h : c.Keyed) (huses : s₀.replay c uses = some c') : c'.Keyed := by
  induction uses generalizing c with
  | nil =>
    obtain rfl := Option.some.inj huses
    exact h
  | cons use uses ih =>
    simp only [Sys.replay, List.foldlM_cons, Option.bind_eq_bind] at huses
    obtain ⟨c₁, huse, hrest⟩ := Option.bind_eq_some_iff.mp huses
    exact ih (h.replayUse huse) hrest

/-- A cache that stays alike follows no use. -/
theorem Sys.Follows.nil (h : s'.bcac.Alike s.bcac) : s₀.Follows [] s s' := ⟨_, rfl, h⟩

/-- A part of the uses after another one. -/
theorem Sys.Follows.append (hk : s.bcac.Keyed) (hk₁ : s₁.bcac.Keyed) (h : s₀.Follows uses s s₁)
    (h' : s₀.Follows uses' s₁ s') : s₀.Follows (uses ++ uses') s s' := by
  obtain ⟨c, hc, hsame⟩ := h
  obtain ⟨c', hc', hsame'⟩ := h'
  have hrest := hsame.replay hk₁ (hk.replay hc) s₀ uses'
  rw [hc'] at hrest
  generalize hc₁ : s₀.replay c uses' = res at hrest
  cases hrest with
  | some h₁ => exact ⟨_, by rw [replay_append, hc, Option.bind_some, hc₁], hsame'.trans h₁⟩

/-- After a part of the uses there is room for the others exactly when there was. -/
theorem Sys.Follows.fits_iff (hk : s.bcac.Keyed) (hk₁ : s₁.bcac.Keyed) (h : s₀.Follows uses s s₁) :
    s₀.Fits (uses ++ uses') s ↔ s₀.Fits uses' s₁ := by
  obtain ⟨c, hc, hsame⟩ := h
  have hrest := hsame.replay hk₁ (hk.replay hc) s₀ uses'
  rw [Sys.Fits, Sys.Fits, replay_append, hc, Option.bind_some]
  generalize s₀.replay s₁.bcac uses' = res, s₀.replay c uses' = res' at hrest
  cases hrest <;> simp

/-- When a sequence of uses fits, so does its first part. -/
theorem Sys.Fits.left (h : s₀.Fits (uses ++ uses') s) : s₀.Fits uses s := by
  rw [Sys.Fits, replay_append] at h
  exact Option.isSome_of_isSome_bind h

end

/-! ## Caches with room -/

/-- A cache with room for `n` more references has room for the uses in a release from `s`,
and they leave the references as they were. -/
def Sys.Manages (s : Sys) (n : ℕ) (uses : List CacheUse) : Prop :=
  ∀ c : Cache Block, c.Keyed → c.Roomy n →
    ∃ c', s.replay c uses = some c' ∧ c'.Keyed ∧ ∀ id, c'.refs id = c.refs id

section

variable {s : Sys} {c c' : Cache α} {n m bid id : ℕ} {uses uses' : List CacheUse}

/-- A cache with room can visit a block, and keeps its references. -/
theorem Cache.Roomy.visit (h : c.Roomy n) (hk : c.Keyed) (id : ℕ) :
    ∃ c', c.visit id = some c' ∧ c'.Keyed ∧ ∀ i, c'.refs i = c.refs i := by
  obtain ⟨c', hc'⟩ := Option.isSome_iff_exists.mp
    (hk.visit_isSome.mpr (hk.admits (h.not_crowded hk) id))
  exact ⟨c', hc', hk.visit hc'⟩

/-- A cache with room for one more can hold a block. -/
theorem Cache.Roomy.hold (h : c.Roomy (n + 1)) (hk : c.Keyed) (id : ℕ) :
    ∃ c', c.hold id = some c' ∧ c'.Roomy n := by
  have hlost : (c.find id true).lost = false := (hk.admits (h.not_crowded hk) id).1
  have hhold : c.hold id = some ((c.find id true).cache.onNode id
      fun n => { n with refcnt := n.refcnt + 1 }) := by rw [Cache.hold, if_neg (by simp [hlost])]
  refine ⟨_, hhold, h.take fun i (hi : i ≠ id) href => ?_⟩
  rwa [(hk.hold hhold).2.2, if_neg fun h => hi h.1] at href

/-- Every cache manages no uses. -/
theorem Sys.Manages.nil : s.Manages n [] := fun c hk _ => ⟨c, rfl, hk, fun _ => rfl⟩

/-- A cache that manages each of two sequences manages both. -/
theorem Sys.Manages.append (h : s.Manages n uses) (h' : s.Manages n uses') :
    s.Manages n (uses ++ uses') := by
  intro c hk hroom
  obtain ⟨c₁, hc₁, hk₁, hrefs₁⟩ := h c hk hroom
  obtain ⟨c', hc', hk', hrefs'⟩ := h' c₁ hk₁ (hroom.of_refs fun i href => hrefs₁ i ▸ href)
  exact ⟨c', by rw [replay_append, hc₁, Option.bind_some, hc'], hk',
    fun id => (hrefs' id).trans (hrefs₁ id)⟩

/-- A cache with more room manages as much. -/
theorem Sys.Manages.mono (h : s.Manages n uses) (hle : n ≤ m) : s.Manages m uses :=
  fun c hk hroom => h c hk (hroom.mono hle)

/-- A cache that manages the uses of each element manages those of the list. -/
theorem Sys.Manages.flatMap {β : Type} {f : β → List CacheUse} {l : List β}
    (h : ∀ x ∈ l, s.Manages n (f x)) : s.Manages n (l.flatMap f) := by
  induction l with
  | nil => exact .nil
  | cons x l ih =>
    rw [List.flatMap_cons]
    exact (h x List.mem_cons_self).append (ih fun y hy => h y (List.mem_cons_of_mem x hy))

/-- A released block needs no room. -/
theorem manages_free : s.Manages n [.free bid] := by
  intro c hk hroom
  rw [replay_singleton, Sys.replayUse]
  split_ifs
  · exact hroom.visit hk _
  · exact ⟨c, rfl, hk, fun _ => rfl⟩

/-- Uses between taking a reference to a block and giving it back. -/
theorem Sys.Manages.held (h : s.Manages n uses) (bid : ℕ) :
    s.Manages (n + 1) ([.hold bid] ++ (uses ++ [.release bid])) := by
  intro c hk hroom
  obtain ⟨c₁, hc₁, hroom₁⟩ := hroom.hold hk bid
  obtain ⟨hk₁, _, hrefs₁⟩ := hk.hold hc₁
  obtain ⟨c₂, hc₂, hk₂, hrefs₂⟩ := h c₁ hk₁ hroom₁
  obtain ⟨hk₃, _, hrefs₃⟩ := hk₂.release bid
  refine ⟨c₂.release bid, ?_, hk₃, fun id => ?_⟩
  · have hstart : s.replay c [.hold bid] = some c₁ := by rw [replay_singleton, Sys.replayUse, hc₁]
    have hend : s.replay c₂ [.release bid] = some (c₂.release bid) := by
      rw [replay_singleton, Sys.replayUse]
    rw [replay_append, hstart, Option.bind_some, replay_append, hc₂, Option.bind_some, hend]
  · rw [hrefs₃, hrefs₂, hrefs₂, hrefs₁, hrefs₁]
    by_cases hid : id = bid
    · subst hid
      by_cases hn : c.node id = none
      · rw [if_pos rfl, if_neg fun h => h.2 hn, Cache.refs_of_none hn]
      · rw [if_pos rfl, if_pos ⟨rfl, hn⟩, Nat.add_sub_cancel]
    · rw [if_neg hid, if_neg fun h => hid h.1]

end

/-! ## The order after the calls -/

section

variable {w : World} {s s' : Sys} {bid : ℕ}

/-- What a visit does to the order of the block cache. -/
def Sys.Visits (s : Sys) (bid : ℕ) (s' : Sys) : Prop :=
  ∃ c, s.bcac.visit bid = some c ∧ s'.order = c.order

/-- An insertion of a block that is not cached leads to the order of a visit. -/
theorem wp_cacheInsertGet_visits (hk : s.bcac.Keyed) (hn : s.bcac.node bid = none) (lock : Bool) :
    Exec.Wp (cacheInsertGet w (bcacOf w) bid lock) (fun r s' => r ≠ none → s.Visits bid s')
      (fun _ => True) s := by
  unfold cacheInsertGet cacheAlive
  simp only [Exec.wp_bind, Exec.wp_read, Exec.wp_when, Exec.wp_stop, Exec.wp_update]
  refine ⟨fun _ => trivial, fun _ => ?_⟩
  generalize hins : ((bcacOf w).get s).insert bid = ins
  obtain ⟨c, made, tofree⟩ := ins
  cases made with
  | false => exact fun hne => absurd rfl hne
  | true =>
    have hvisit : s.bcac.visit bid = some (c.release bid) := by
      have hins' : s.bcac.insert bid = (c, true, tofree) := hins
      unfold Cache.visit
      rw [hk.find_of_none hn, if_neg Bool.false_ne_true, if_neg (not_not.mpr hn), hins']
    have horder := ((hk.refs_insert hn hins).1.release bid).2.1
    have hkeeps : Exec.Keeps Sys.order (do
        freeEvicted w (bcacOf w) tofree
        Exec.when lock (nodeLock (bcacOf w) (((bcacOf w).get s).newNode bid))
        return some (((bcacOf w).get s).newNode bid).addr) :=
      .bind (keepsOrder_freeEvicted _) fun _ => .bind (.when (keepsOrder_nodeLock _)) fun _ =>
        .pure _
    exact hkeeps.wp.mono (fun _ s' h' _ => ⟨_, hvisit, h'.trans horder.symm⟩) fun _ _ => trivial

/-- `bget_from_cache_lock` leads to the order of a visit. -/
theorem wp_bget_visits (hk : s.bcac.Keyed) (hholds : ∀ n, s.bcac.node bid = some n → n.Holds bid)
    (hbid : inodeStart ≤ bid) {hashidx : HashIdx} {iv key : Key128} {expHash : Option Key256} :
    Exec.Wp (bgetFromCacheLock w bid hashidx iv key expHash) (fun _ s' => s.Visits bid s')
      (fun _ => True) s := by
  cases hn : s.bcac.node bid with
  | some n =>
    refine (wp_bget_order hk hn (hholds n hn)).mono ?_ fun _ _ => trivial
    rintro _ s' ⟨hlost, horder⟩
    refine ⟨_, ?_, horder⟩
    rw [Cache.visit, if_neg (by simp [hlost]), if_pos (by simp [hn])]
  | none =>
    have hstart : ¬bid < inodeStart := Nat.not_lt.mpr hbid
    have hstart' : ¬bid < inodeBitmapStart := fun h => hstart (h.trans (by decide))
    refine Exec.wp_bind.mpr (wp_cacheTryGet_none hk hn ?_)
    simp only [Exec.wp_bind, hstart, hstart', if_false]
    refine (wp_cacheInsertGet_visits hk hn true).mono (fun r s₁ h₁ => ?_) fun _ _ => trivial
    cases r with
    | none => trivial
    | some addr =>
      obtain ⟨c, hvisit, horder⟩ := h₁ (by simp)
      refine Exec.wp_bind.mpr ((offDisk_order.getBlockFromDisk _ _ _ _ _ _).wp.mono
        (fun block s₂ h₂ => ?_) fun _ _ => trivial)
      cases block with
      | none => exact ⟨c, hvisit, h₂.trans horder⟩
      | some block =>
        have hstore : Exec.Keeps Sys.order (do
            nodeStore (bcacOf w) addr ({ · with content := some block })
            Exec.when (dataStart ≤ bid) do
              Exec.update fun s => { s with loads := (bid, hashidx) :: s.loads }
            return some addr) :=
          .bind (keepsOrder_nodeStore _ fun _ => rfl) fun _ =>
            .bind (.when (.update fun _ => rfl)) fun _ => .pure _
        exact hstore.wp.mono (fun _ s' h' => ⟨c, hvisit, h'.trans (h₂.trans horder)⟩)
          fun _ _ => trivial

/-- `dbm_free` leads to the order of a visit of the block of the bitmap. -/
theorem wp_dbmFree_visits (hk : s.bcac.Keyed) {did : ℕ}
    (hholds : ∀ n, s.bcac.node (bitmapDid2Bid did) = some n → n.Holds (bitmapDid2Bid did))
    (hdid : did < 16777216) :
    Exec.Wp (dbmFree w did) (fun _ s' => s.Visits (bitmapDid2Bid did) s') (fun _ => True) s := by
  have hle : inodeStart ≤ bitmapDid2Bid did :=
    le_trans (by decide : inodeStart ≤ bitmapStart) (Nat.le_add_right _ _)
  have hin : ¬bitmapCnt ≤ did / (blkSz * 8) := by
    simp only [bitmapCnt, blkSz]
    omega
  rw [dbmFree, if_neg hin]
  simp only [bgetMetadata, Exec.wp_bind, Exec.wp_read]
  refine (wp_bget_visits hk hholds hle).mono (fun bp s₁ h₁ => ?_) fun _ _ => trivial
  obtain ⟨c, hvisit, horder⟩ := h₁
  have hclose : ∀ {call : Exec Halt Sys Bool}, Exec.Keeps Sys.order call →
      Exec.Wp call (fun _ s' => s.Visits (bitmapDid2Bid did) s') (fun _ => True) s₁ := fun hcall =>
    hcall.wp.mono (fun _ s' h' => ⟨c, hvisit, h'.trans horder⟩) fun _ _ => trivial
  cases bp with
  | none => exact hclose (.bind (keeps_panic _) fun _ => .pure _)
  | some bp =>
    apply hclose
    refine .bind (keeps_blockAt _) fun block => .bind (keepsOrder_dataStore _ _) fun _ => ?_
    refine .bind (.update fun _ => rfl) fun _ => .bind (keepsOrder_blockMakeDirty _)
      fun failed => ?_
    exact .ite (.pure _) (keepsOrder_blockUnlockReturn _)

end

end Efs
