import Efs.Map

/-!
# Maps as finite maps

The ids of a tree increase in order, whatever shape the tree is given. So the descent of
a search and that of an insertion agree, a map holds the last insertion of each id that
was accepted and not deleted, and an iteration visits the entries in order.
-/

namespace Efs

open Library

variable {α : Type}

/-- `rb_insert_color` keeps the nodes of a tree in order, and `rb_erase` those that remain. -/
structure Rebalance.KeepsOrder (R : Rebalance α) : Prop where
  /-- `rb_insert_color`. -/
  insertColor : ∀ addr root, nodesOf (R.rbInsertColor addr root) = nodesOf root
  /-- `rb_erase`. -/
  erase : ∀ addr root,
    nodesOf (R.rbErase addr root) = (nodesOf root).filter fun t => t.addr ≠ addr

/-- The data of the last insertion of an id that was accepted and not deleted. -/
def held (mp id : ℕ) : List (MapCall α) → Option α
  | [] => none
  | .init mp' :: past => if mp' = mp then none else held mp id past
  | .insert mp' id' data :: past =>
    if mp' = mp ∧ id' = id ∧ held mp id past = none then some data else held mp id past
  | .delete mp' id' :: past => if mp' = mp ∧ id' = id then none else held mp id past
  | .search _ _ :: past => held mp id past

/-- The finite map that calls leave. -/
def heldMap (mp : ℕ) : List (MapCall α) → OrdMap α
  | [] => .empty
  | .init mp' :: past => if mp' = mp then .empty else heldMap mp past
  | .insert mp' id data :: past =>
    if mp' = mp ∧ (heldMap mp past).find id = none then (heldMap mp past).set id data
    else heldMap mp past
  | .delete mp' id :: past => if mp' = mp then (heldMap mp past).erase id else heldMap mp past
  | .search _ _ :: past => heldMap mp past

/-- The map that past calls leave finds what they left. -/
theorem find_heldMap (mp id : ℕ) (past : List (MapCall α)) :
    (heldMap mp past).find id = held mp id past := by
  induction past with
  | nil => rfl
  | cons call past ih =>
    cases call with
    | init mp' =>
      unfold heldMap held
      split
      · rfl
      · exact ih
    | insert mp' id' data =>
      unfold heldMap held
      by_cases hmp : mp' = mp
      · by_cases hid : id' = id
        · subst hid
          simp only [hmp, true_and, ih]
          split
          · rw [OrdMap.find_set, if_pos rfl]
          · exact ih
        · simp only [hmp, hid, true_and, false_and, if_false]
          split
          · rw [OrdMap.find_set, if_neg hid, ih]
          · exact ih
      · simp only [hmp, false_and, if_false, ih]
    | delete mp' id' =>
      unfold heldMap held
      by_cases hmp : mp' = mp
      · simp only [hmp, true_and, if_true, OrdMap.find_erase, ih]
      · simp only [hmp, false_and, if_false, ih]
    | search mp' id' => exact ih

/-! ## Walks over a tree -/

variable {root left right : RbTree α} {id addr : ℕ} {t this : TreeNode α} {c : RbColor}
  {new link : TreePlace (RbColor × TreeNode α)} {xs ys : List (TreeNode α)}

/-- The ids of a tree increase. -/
def Increasing (l : List (TreeNode α)) : Prop := l.Pairwise fun a b => a.id < b.id

/-- The empty tree has no nodes. -/
@[simp] theorem nodesOf_nil : nodesOf (.nil : RbTree α) = [] := rfl

/-- The nodes of a tree in their order. -/
@[simp] theorem nodesOf_node :
    nodesOf (.node (c, this) left right) = nodesOf left ++ this :: nodesOf right := by
  simp [nodesOf, inorder]

/-- What is left of a node, and what is right of it. -/
theorem Increasing.node (h : Increasing (nodesOf (.node (c, this) left right))) :
    Increasing (nodesOf left) ∧ Increasing (nodesOf right) ∧
      (∀ t ∈ nodesOf left, t.id < this.id) ∧ ∀ t ∈ nodesOf right, this.id < t.id := by
  rw [nodesOf_node] at h
  obtain ⟨hleft, hcons, hcross⟩ := List.pairwise_append.mp h
  obtain ⟨hthis, hright⟩ := List.pairwise_cons.mp hcons
  exact ⟨hleft, hright, fun t ht => hcross t ht this List.mem_cons_self, hthis⟩

/-- `rb_search` finds the node of an id. -/
theorem rbSearch_eq (h : Increasing (nodesOf root)) :
    rbSearch id root = (nodesOf root).find? fun t => t.id = id := by
  induction root with
  | nil => rfl
  | node e left right ihl ihr =>
    obtain ⟨c, this⟩ := e
    obtain ⟨hleft, hright, hless, hmore⟩ := h.node
    rw [rbSearch, nodesOf_node, List.find?_append]
    by_cases hlt : id < this.id
    · have hnone : (this :: nodesOf right).find? (fun t => t.id = id) = none := by
        apply List.find?_eq_none.mpr
        rintro t (_ | ⟨_, ht⟩)
        · simp only [decide_eq_true_eq]
          omega
        · have := hmore t ht
          simp only [decide_eq_true_eq]
          omega
      rw [if_pos hlt, ihl hleft, hnone, Option.or_none]
    · have hnone : (nodesOf left).find? (fun t => t.id = id) = none := by
        apply List.find?_eq_none.mpr
        intro t ht
        have := hless t ht
        simp only [decide_eq_true_eq]
        omega
      rw [if_neg hlt, hnone, Option.none_or, List.find?_cons]
      by_cases hgt : this.id < id
      · rw [if_pos hgt, ihr hright]
        simp [show this.id ≠ id by omega]
      · rw [if_neg hgt]
        simp [show this.id = id by omega]

/-- The values left and right of a place. -/
def nodesBefore (link : TreePlace (RbColor × TreeNode α)) : List (TreeNode α) :=
  link.before.map Prod.snd

/-- The values right of a place. -/
def nodesAfter (link : TreePlace (RbColor × TreeNode α)) : List (TreeNode α) :=
  link.after.map Prod.snd

/-- A linked node is between those before and after its place. -/
theorem nodesOf_rbLinkNode :
    nodesOf (rbLinkNode t link) = nodesBefore link ++ t :: nodesAfter link := by
  simp [nodesOf, rbLinkNode, TreePlace.inorder_plug, nodesBefore, nodesAfter, inorder]

/-- `rb_insert` stops at the link between the smaller and the larger ids. -/
theorem rbInsertLink_some (h : Increasing (nodesOf root))
    (hlink : rbInsertLink id root new = some link) :
    ∃ xs ys, nodesOf root = xs ++ ys ∧ nodesBefore link = nodesBefore new ++ xs ∧
      nodesAfter link = ys ++ nodesAfter new ∧ (∀ t ∈ xs, t.id < id) ∧ ∀ t ∈ ys, id < t.id := by
  induction root generalizing new with
  | nil =>
    cases hlink
    exact ⟨[], [], rfl, by simp, by simp, by simp, by simp⟩
  | node e left right ihl ihr =>
    obtain ⟨c, this⟩ := e
    obtain ⟨hleft, hright, hless, hmore⟩ := h.node
    rw [rbInsertLink] at hlink
    split at hlink
    · next hlt =>
      obtain ⟨xs, ys, heq, hbefore, hafter, hxs, hys⟩ := ihl hleft hlink
      refine ⟨xs, ys ++ this :: nodesOf right, by simp [heq], hbefore, ?_, hxs, ?_⟩
      · rw [hafter]
        simp [nodesAfter, TreePlace.after, nodesOf]
      · intro t ht
        rw [List.mem_append, List.mem_cons] at ht
        rcases ht with ht | rfl | ht
        · exact hys t ht
        · exact hlt
        · exact hlt.trans (hmore t ht)
    split at hlink
    · next hlt =>
      obtain ⟨xs, ys, heq, hbefore, hafter, hxs, hys⟩ := ihr hright hlink
      refine ⟨nodesOf left ++ this :: xs, ys, by simp [heq], ?_, hafter, ?_, hys⟩
      · rw [hbefore]
        simp [nodesBefore, TreePlace.before, nodesOf]
      · intro t ht
        rw [List.mem_append, List.mem_cons] at ht
        rcases ht with ht | rfl | ht
        · exact (hless t ht).trans hlt
        · exact hlt
        · exact hxs t ht
    · cases hlink

/-- `rb_insert` fails at a node with the id. -/
theorem rbInsertLink_none (h : rbInsertLink id root new = none) :
    ∃ t ∈ nodesOf root, t.id = id := by
  induction root generalizing new with
  | nil => cases h
  | node e left right ihl ihr =>
    obtain ⟨c, this⟩ := e
    rw [rbInsertLink] at h
    split at h
    · obtain ⟨t, ht, hid⟩ := ihl h
      exact ⟨t, by simp [ht], hid⟩
    split at h
    · obtain ⟨t, ht, hid⟩ := ihr h
      exact ⟨t, by simp [ht], hid⟩
    · next hge hle =>
      exact ⟨this, by simp, Nat.le_antisymm (Nat.le_of_not_lt hge) (Nat.le_of_not_lt hle)⟩

/-- `rb_next` of a node is the node behind it. -/
theorem rbNext_eq (horder : nodesOf root = xs ++ t :: ys)
    (haddrs : ((nodesOf root).map (·.addr)).Nodup) : rbNext t.addr root = some ys.head? := by
  obtain ⟨xs', rest, hinorder, hxs, hrest⟩ := List.map_eq_append_iff.mp horder
  obtain ⟨e, ys', rfl, he, hys⟩ := List.map_eq_cons_iff.mp hrest
  rw [horder, List.map_append, List.map_cons] at haddrs
  obtain ⟨_, hcons, hcross⟩ := List.nodup_append.mp haddrs
  obtain ⟨hnotin, _⟩ := List.nodup_cons.mp hcons
  have hbefore : ∀ x ∈ xs', decide (x.2.addr = t.addr) = false := by
    intro x hx
    have hmem : x.2.addr ∈ xs.map (·.addr) := by
      rw [← hxs]
      exact List.mem_map.mpr ⟨x.2, List.mem_map.mpr ⟨x, hx, rfl⟩, rfl⟩
    exact decide_eq_false (hcross _ hmem _ List.mem_cons_self)
  have hafter : ∀ y ∈ ys', decide (y.2.addr = t.addr) = false := by
    intro y hy
    have hmem : y.2.addr ∈ ys.map (·.addr) := by
      rw [← hys]
      exact List.mem_map.mpr ⟨y.2, List.mem_map.mpr ⟨y, hy, rfl⟩, rfl⟩
    exact decide_eq_false fun heq => hnotin (heq ▸ hmem)
  have htest : decide (e.2.addr = t.addr) = true := by rw [he, decide_eq_true rfl]
  obtain ⟨node, hlocate, _, hnext⟩ := locate_of_inorder hinorder htest hbefore hafter
  rw [rbNext, hlocate, Option.map_some, hnext, ← hys, List.head?_map]

/-- `rb_first` gives the first node. -/
theorem rbFirst_eq : rbFirst root = (nodesOf root).head? := by
  rw [rbFirst, leftmost_eq, nodesOf, List.head?_map]

/-! ## Maps -/

/-- A tree holds the entries of a map, in nodes that `malloc` has given. -/
structure MapOk (m : OrdMap α) (bound : ℕ) (root : RbTree α) : Prop where
  /-- The nodes in order are the entries. -/
  entries : (nodesOf root).map (fun t => (t.id, t.data)) = m.entries
  /-- The nodes are different. -/
  addrs : ((nodesOf root).map (·.addr)).Nodup
  /-- They are allocated. -/
  lt : ∀ t ∈ nodesOf root, t.addr < bound

variable {m : OrdMap α} {bound bound' mp : ℕ} {s : Maps α} {R : Rebalance α} {data : α}
  {past : List (MapCall α)}

namespace MapOk

/-- The empty map. -/
theorem empty : MapOk (.empty : OrdMap α) bound .nil :=
  ⟨rfl, List.nodup_nil, by simp⟩

/-- A map within a bound is within a larger one. -/
theorem mono (h : MapOk m bound root) (hle : bound ≤ bound') : MapOk m bound' root :=
  ⟨h.entries, h.addrs, fun t ht => (h.lt t ht).trans_le hle⟩

/-- The nodes are in the order of their ids. -/
theorem increasing (h : MapOk m bound root) : Increasing (nodesOf root) := by
  have hsorted := m.sorted
  rw [← h.entries, List.pairwise_map] at hsorted
  exact hsorted

/-- `rb_search` finds what the map holds. -/
theorem search (h : MapOk m bound root) : (rbSearch id root).map (·.data) = m.find id := by
  rw [rbSearch_eq h.increasing, OrdMap.find, OrdMap.findEntry_eq_find?, ← h.entries,
    List.find?_map, Option.map_map]
  rfl

/-- A new node between the smaller and the larger ids. -/
theorem insert (h : MapOk m bound root) (hR : R.KeepsOrder) (data : α)
    (hlink : rbInsertLink id root [] = some link) :
    m.find id = none ∧
      MapOk (m.set id data) (bound + 1)
        (R.rbInsertColor bound (rbLinkNode ⟨bound, id, data⟩ link)) := by
  obtain ⟨xs, ys, heq, hbefore, hafter, hxs, hys⟩ := rbInsertLink_some h.increasing hlink
  have hnodes : nodesOf (R.rbInsertColor bound (rbLinkNode ⟨bound, id, data⟩ link)) =
      xs ++ ⟨bound, id, data⟩ :: ys := by
    rw [hR.insertColor, nodesOf_rbLinkNode, hbefore, hafter]
    simp [nodesBefore, nodesAfter, TreePlace.before, TreePlace.after]
  have hnotin : ∀ t ∈ nodesOf root, t.addr ≠ bound := fun t ht => (h.lt t ht).ne
  constructor
  · rw [← h.search, rbSearch_eq h.increasing, Option.map_eq_none_iff, List.find?_eq_none]
    intro t ht
    rw [heq, List.mem_append] at ht
    rw [decide_eq_true_eq]
    rcases ht with ht | ht
    · exact (hxs t ht).ne
    · exact (hys t ht).ne'
  · constructor
    · have hset : OrdMap.setEntry id data
          (xs.map (fun t => (t.id, t.data)) ++ ys.map fun t => (t.id, t.data)) = _ :=
        OrdMap.setEntry_append (by simpa using hxs) (by simpa using hys)
      rw [hnodes, List.map_append, List.map_cons, ← hset, ← List.map_append, ← heq, h.entries]
      rfl
    · have haddrs := h.addrs
      rw [heq] at haddrs hnotin
      rw [hnodes, List.perm_middle.map _ |>.nodup_iff, List.map_cons, List.nodup_cons]
      refine ⟨?_, haddrs⟩
      intro hmem
      obtain ⟨t, ht, heq⟩ := List.mem_map.mp hmem
      exact hnotin t ht heq
    · intro t ht
      rw [hnodes, List.perm_middle.mem_iff, List.mem_cons, ← heq] at ht
      rcases ht with rfl | ht
      · exact Nat.lt_succ_self bound
      · exact (h.lt t ht).trans (Nat.lt_succ_self bound)

/-- The tree without the node of an id. -/
theorem erase (h : MapOk m bound root) (hR : R.KeepsOrder) (hsearch : rbSearch id root = some t) :
    MapOk (m.erase id) bound (R.rbErase t.addr root) := by
  rw [rbSearch_eq h.increasing] at hsearch
  have hmem := List.mem_of_find?_eq_some hsearch
  have hid : t.id = id := by simpa using List.find?_some hsearch
  have hiff : ∀ t' ∈ nodesOf root, t'.addr ≠ t.addr ↔ t'.id ≠ id := by
    intro t' ht'
    rw [not_iff_not, ← hid]
    constructor
    · intro heq
      rw [List.inj_on_of_nodup_map h.addrs ht' hmem heq]
    · intro heq
      have hids : ((nodesOf root).map (·.id)).Nodup :=
        (List.pairwise_map.mpr h.increasing).imp (fun hlt => Nat.ne_of_lt hlt)
      rw [List.inj_on_of_nodup_map hids ht' hmem heq]
  constructor
  · rw [hR.erase, List.filter_congr fun t' ht' => decide_eq_decide.mpr (hiff t' ht')]
    show _ = m.entries.filter fun e => e.1 ≠ id
    rw [← h.entries, List.filter_map]
    rfl
  · rw [hR.erase]
    exact h.addrs.sublist (List.filter_sublist.map _)
  · intro t' ht'
    rw [hR.erase] at ht'
    exact h.lt t' (List.mem_of_mem_filter ht')

end MapOk

/-! ## Runs -/

/-- The maps hold what calls have left, and no iteration is under way. -/
structure MapsOk (past : List (MapCall α)) (s : Maps α) : Prop where
  /-- Each map. -/
  maps : ∀ mp, MapOk (heldMap mp past) s.nextNode (s.treeRoot mp)
  /-- The cursor. -/
  cursor : s.cursor = none

/-- A change of one map leaves the others. -/
theorem MapsOk.setRoot {call : MapCall α} {m : OrdMap α} (h : MapsOk past s)
    (hle : s.nextNode ≤ bound) (hroot : MapOk m bound root)
    (hcall : ∀ mp', heldMap mp' (call :: past) = if mp = mp' then m else heldMap mp' past) :
    MapsOk (call :: past) { s.setRoot mp root with nextNode := bound } := by
  constructor
  · intro mp'
    rw [hcall]
    by_cases hmp : mp = mp'
    · subst hmp
      rw [if_pos rfl]
      simpa [Maps.setRoot] using hroot
    · rw [if_neg hmp]
      simpa [Maps.setRoot, Function.update_of_ne (Ne.symm hmp)] using (h.maps mp').mono hle
  · exact h.cursor

/-- A call that changes no map. -/
theorem MapsOk.unchanged {call : MapCall α} (h : MapsOk past s)
    (hcall : ∀ mp', heldMap mp' (call :: past) = heldMap mp' past) : MapsOk (call :: past) s :=
  ⟨fun mp' => hcall mp' ▸ h.maps mp', h.cursor⟩

/-- A call leaves the maps good. -/
theorem MapsOk.call (h : MapsOk past s) (hR : R.KeepsOrder) (call : MapCall α) :
    MapsOk (call :: past) (call.after R s) := by
  cases call with
  | init mp => exact h.setRoot (le_refl _) .empty fun mp' => rfl
  | insert mp id data =>
    simp only [MapCall.after, Maps.insert]
    cases hlink : rbInsertLink id (s.treeRoot mp) [] with
    | none =>
      apply h.unchanged
      intro mp'
      apply if_neg
      rintro ⟨rfl, hfind⟩
      obtain ⟨t, ht, hid⟩ := rbInsertLink_none hlink
      rw [← (h.maps mp).search, rbSearch_eq (h.maps mp).increasing, Option.map_eq_none_iff,
        List.find?_eq_none] at hfind
      exact hfind t ht (decide_eq_true hid)
    | some link =>
      obtain ⟨hfind, hroot⟩ := (h.maps mp).insert hR data hlink
      apply h.setRoot (Nat.le_succ _) hroot
      intro mp'
      by_cases hmp : mp = mp'
      · subst hmp
        simp [heldMap, hfind]
      · simp [heldMap, hmp]
  | delete mp id =>
    simp only [MapCall.after, Maps.delete]
    cases hsearch : rbSearch id (s.treeRoot mp) with
    | none =>
      apply h.unchanged
      intro mp'
      by_cases hmp : mp = mp'
      · subst hmp
        have hfind : none = (heldMap mp past).find id := by
          rw [← (h.maps mp).search, hsearch]
          rfl
        simp [heldMap, OrdMap.erase_of_find hfind.symm]
      · simp [heldMap, hmp]
    | some t =>
      apply h.setRoot (le_refl _) ((h.maps mp).erase hR hsearch)
      intro mp'
      by_cases hmp : mp = mp'
      · subst hmp
        simp [heldMap]
      · simp [heldMap, hmp]
  | search mp id => exact h.unchanged fun mp' => rfl

/-- Any calls. -/
theorem mapsOk_after (hR : R.KeepsOrder) (past : List (MapCall α)) :
    MapsOk past (Maps.after R past) := by
  induction past with
  | nil => exact ⟨fun mp => .empty, rfl⟩
  | cons call past ih => exact ih.call hR call

/-! ## Iterations -/

/-- From a node on, the iteration visits the nodes behind it. -/
theorem clearLoop_behind (horder : nodesOf (s.treeRoot mp) = xs ++ t :: ys)
    (haddrs : ((nodesOf (s.treeRoot mp)).map (·.addr)).Nodup)
      (hcursor : s.cursor = some (mp, t.addr))
    {n : ℕ} (hn : ys.length < n) :
    s.clearLoop mp n = some (ys.map fun t => (t.id, t.data), { s with cursor := none }) := by
  induction ys generalizing s xs t n with
  | nil =>
    obtain ⟨n, rfl⟩ : ∃ n', n = n' + 1 := ⟨n - 1, by omega⟩
    have hiter : s.clearIter mp = some (none, { s with cursor := none }) := by
      unfold Maps.clearIter
      rw [hcursor]
      simp [rbNext_eq horder haddrs]
    rw [Maps.clearLoop, hiter]
    rfl
  | cons u ys ih =>
    obtain ⟨n, rfl⟩ : ∃ n', n = n' + 1 := ⟨n - 1, by omega⟩
    rw [List.length_cons] at hn
    have hiter : s.clearIter mp =
        some (some (u.id, u.data), { s with cursor := some (mp, u.addr) }) := by
      unfold Maps.clearIter
      rw [hcursor]
      simp [rbNext_eq horder haddrs]
    have hrestlen : ys.length < n := by omega
    have hmoved : nodesOf (s.treeRoot mp) = (xs ++ [t]) ++ u ::
      ys := by rw [horder, List.append_cons]
    have hrest := ih (s := { s with cursor := some (mp, u.addr) }) hmoved haddrs rfl hrestlen
    rw [Maps.clearLoop, hiter]
    simp only [hrest]
    rfl

/-- An iteration visits the nodes in order and leaves the cursor a null pointer. -/
theorem clearLoop_eq (haddrs : ((nodesOf (s.treeRoot mp)).map (·.addr)).Nodup)
    (hcursor : s.cursor = none) {n : ℕ} (hn : (nodesOf (s.treeRoot mp)).length < n) :
    s.clearLoop mp n = some ((nodesOf (s.treeRoot mp)).map fun t => (t.id, t.data), s) := by
  obtain ⟨n, rfl⟩ : ∃ n', n = n' + 1 := ⟨n - 1, by omega⟩
  have hself : { s with cursor := none } = s := by
    cases s
    cases hcursor
    rfl
  cases horder : nodesOf (s.treeRoot mp) with
  | nil =>
    have hiter : s.clearIter mp = some (none, { s with cursor := none }) := by
      unfold Maps.clearIter
      rw [hcursor]
      simp [rbFirst_eq, horder]
    rw [Maps.clearLoop, hiter, hself]
    rfl
  | cons t ys =>
    rw [horder, List.length_cons] at hn
    have hiter : s.clearIter mp =
        some (some (t.id, t.data), { s with cursor := some (mp, t.addr) }) := by
      unfold Maps.clearIter
      rw [hcursor]
      simp [rbFirst_eq, horder]
    have hrestlen : ys.length < n := by omega
    have hfirst : nodesOf (s.treeRoot mp) = [] ++ t :: ys := horder
    have hrest := clearLoop_behind (s := { s with cursor := some (mp, t.addr) }) hfirst haddrs rfl
      hrestlen
    rw [Maps.clearLoop, hiter]
    simp only [hrest, hself]
    rfl

/-- After any calls a map is the finite map of the insertions that were accepted and not
deleted: what `map_search`, `map_insert` and `map_delete` return, that a rejected
insertion changes nothing, and that an iteration visits each entry once and in order. -/
theorem maps_hold (hR : R.KeepsOrder) (past : List (MapCall α)) (mp : ℕ) :
    (∀ id, (Maps.after R past).search mp id = held mp id past) ∧
    (∀ id data, (Maps.after R past).insert R mp id data = (1, Maps.after R past) ∧
        (held mp id past).isSome ∨
      ((Maps.after R past).insert R mp id data).1 = 0 ∧ held mp id past = none) ∧
    (∀ id, ((Maps.after R past).delete R mp id).1 =
      (if (held mp id past).isSome then 0 else 1, held mp id past)) ∧
    ∃ entries, (∀ n, entries.length < n →
        (Maps.after R past).clearLoop mp n = some (entries, Maps.after R past)) ∧
      (entries.Pairwise fun a b => a.1 < b.1) ∧
      ∀ id data, (id, data) ∈ entries ↔ held mp id past = some data := by
  have hok := mapsOk_after hR past
  have hsearch : ∀ id, (Maps.after R past).search mp id = held mp id past := by
    intro id
    rw [← find_heldMap, ← (hok.maps mp).search]
    rfl
  refine ⟨hsearch, ?_, ?_, (heldMap mp past).entries, ?_, (heldMap mp past).sorted, ?_⟩
  · intro id data
    unfold Maps.insert
    cases hlink : rbInsertLink id ((Maps.after R past).treeRoot mp) [] with
    | none =>
      left
      obtain ⟨t, ht, hid⟩ := rbInsertLink_none hlink
      refine ⟨rfl, ?_⟩
      rw [← hsearch, Maps.search, rbSearch_eq (hok.maps mp).increasing, Option.isSome_map,
        List.find?_isSome]
      exact ⟨t, ht, decide_eq_true hid⟩
    | some link =>
      right
      refine ⟨rfl, ?_⟩
      rw [← find_heldMap]
      exact ((hok.maps mp).insert hR data hlink).1
  · intro id
    have hfound := hsearch id
    unfold Maps.search at hfound
    unfold Maps.delete
    cases hnode : rbSearch id ((Maps.after R past).treeRoot mp) with
    | none =>
      rw [hnode] at hfound
      rw [← hfound]
      rfl
    | some t =>
      rw [hnode] at hfound
      rw [← hfound]
      rfl
  · intro n hn
    rw [← (hok.maps mp).entries] at hn ⊢
    exact clearLoop_eq (hok.maps mp).addrs hok.cursor (by simpa using hn)
  · intro id data
    rw [OrdMap.mem_entries, find_heldMap]

/-- Two trees as one, the second behind the first. -/
def joinTrees : RbTree α → RbTree α → RbTree α
  | .nil, root => root
  | .node e left right, root => .node e left (joinTrees right root)

/-- Joined trees have the nodes of both. -/
theorem nodesOf_joinTrees {root' : RbTree α} :
    nodesOf (joinTrees root root') = nodesOf root ++ nodesOf root' := by
  induction root with
  | nil => rfl
  | node e left right _ ih =>
    obtain ⟨c, this⟩ := e
    rw [joinTrees, nodesOf_node, nodesOf_node, ih, List.append_assoc, List.cons_append]

/-- A tree without the node at an address. -/
def removeNode (addr : ℕ) : RbTree α → RbTree α
  | .nil => .nil
  | .node e left right =>
    if e.2.addr = addr then joinTrees (removeNode addr left) (removeNode addr right)
    else .node e (removeNode addr left) (removeNode addr right)

/-- The changes of the shape as they are while no two red nodes meet and only red leaves
go: the root is painted black, and a leaf is cut off. -/
def Rebalance.shallow : Rebalance α where
  rbInsertColor _
    | .nil => .nil
    | .node (_, t) left right => .node (.black, t) left right
  rbErase := removeNode

/-- A rebalancing that does nothing keeps the order. -/
theorem Rebalance.shallow_keepsOrder : (Rebalance.shallow : Rebalance α).KeepsOrder := by
  constructor
  · intro addr root
    cases root with
    | nil => rfl
    | node e left right =>
      obtain ⟨c, t⟩ := e
      change nodesOf (.node (.black, t) left right) = _
      rw [nodesOf_node, nodesOf_node]
  · intro addr root
    change nodesOf (removeNode addr root) = _
    induction root with
    | nil => rfl
    | node e left right ihl ihr =>
      obtain ⟨c, this⟩ := e
      rw [removeNode]
      by_cases haddr : this.addr = addr
      · rw [if_pos haddr, nodesOf_joinTrees, ihl, ihr]
        simp [haddr]
      · rw [if_neg haddr, nodesOf_node, ihl, ihr]
        simp [haddr]

/-- Two insertions and a deletion. -/
theorem maps_hold_shallow :
    (Maps.after Rebalance.shallow [.delete 0 7, .insert 0 7 'b', .insert 0 5 'a']).search 0 5 =
        some 'a' ∧
      ∃ entries, (∀ n, entries.length < n →
          (Maps.after Rebalance.shallow
            [.delete 0 7, .insert 0 7 'b', .insert 0 5 'a']).clearLoop 0 n = some (entries,
              Maps.after Rebalance.shallow [.delete 0 7, .insert 0 7 'b', .insert 0 5 'a'])) ∧
        ∀ id data, (id, data) ∈ entries ↔
          held 0 id [.delete 0 7, .insert 0 7 'b', .insert 0 5 'a'] = some data := by
  obtain ⟨hsearch, _, _, entries, hloop, _, hmem⟩ := maps_hold Rebalance.shallow_keepsOrder
    [.delete 0 7, .insert 0 7 'b', .insert 0 5 'a'] 0
  exact ⟨hsearch 5, entries, hloop, hmem⟩

end Efs
