import Efs.RbTreeBalance

/-!
# Maps on the bundled trees

In every run of calls the trees of the maps are red-black trees, no call follows a null pointer,
and a map is a finite map, with nothing assumed of the trees. `map_exit` frees each node once.
-/

namespace Efs

open Library

variable {α : Type} {root u : RbTree α} {link new : RbPlace α} {t node : TreeNode α}
  {id bound mp : ℕ} {m : OrdMap α}
  {s : Maps α} {R : Rebalance α} {past : List (MapCall α)} {data : α}

/-- The functions where they keep the order, and others elsewhere. -/
@[irreducible] noncomputable def Rebalance.ordered (R : Rebalance α) : Rebalance α where
  rbInsertColor addr root :=
    open Classical in
    if nodesOf (R.rbInsertColor addr root) = nodesOf root then R.rbInsertColor addr root else root
  rbErase addr root :=
    open Classical in
    if nodesOf (R.rbErase addr root) = (nodesOf root).filter fun t =>
      t.addr ≠ addr then R.rbErase addr root
    else removeNode addr root

/-- The calls of `rb_insert_color` and `rb_erase` follow no null pointer. -/
def MapCall.Sound (s : Maps α) : MapCall α → Prop
  | .insert mp id data => ∀ link, rbInsertLink id (s.treeRoot mp) [] = some link →
      (rbInsertColor s.nextNode (rbLinkNode ⟨s.nextNode, id, data⟩ link)).isSome
  | .delete mp id => ∀ t, rbSearch id (s.treeRoot mp) = some t →
    (rbErase t.addr (s.treeRoot mp)).isSome
  | _ => True

/-- The first loop of `map_exit`, with at most `n` rounds: the nodes, the last one first. -/
def exitNodes (root : RbTree α) : ℕ → Option (TreeNode α) → List (TreeNode α) →
    Option (List (TreeNode α))
  | 0, _, _ => none
  | _ + 1, none, tmphead => some tmphead
  | n + 1, some t, tmphead => (rbNext t.addr root).bind fun p => exitNodes root n p (t :: tmphead)

/-- `map_exit`: the addresses that it frees. -/
def Maps.exit (s : Maps α) (mp n : ℕ) : Option (List ℕ) :=
  (exitNodes (s.treeRoot mp) n (rbFirst (s.treeRoot mp)) []).map fun nodes => nodes.map (·.addr)

/-! ## Calls -/

/-- A rebalancing that is made to keep the order keeps it. -/
theorem Rebalance.ordered_keepsOrder : R.ordered.KeepsOrder := by
  unfold Rebalance.ordered
  constructor
  · intro addr root
    dsimp only
    split
    · next h => exact h
    · rfl
  · intro addr root
    dsimp only
    split
    · next h => exact h
    · exact Rebalance.shallow_keepsOrder.erase addr root

/-- An insertion that keeps the nodes needs no such help. -/
theorem Rebalance.ordered_insertColor {addr : ℕ}
    (h : nodesOf (R.rbInsertColor addr root) = nodesOf root) :
    R.ordered.rbInsertColor addr root = R.rbInsertColor addr root := by
  unfold Rebalance.ordered
  exact if_pos h

/-- An erasure that takes out its node only needs no such help. -/
theorem Rebalance.ordered_erase {addr : ℕ}
    (h : nodesOf (R.rbErase addr root) = (nodesOf root).filter fun t => t.addr ≠ addr) :
    R.ordered.rbErase addr root = R.rbErase addr root := by
  unfold Rebalance.ordered
  exact if_pos h

/-- The tree with nothing at the link is the tree. -/
theorem plug_rbInsertLink (h : rbInsertLink id root new = some link) :
    link.plug .nil = new.plug root := by
  fun_induction rbInsertLink id root new with
  | case1 =>
    cases h
    rfl
  | case2 this left right new hlt ih => exact ih h
  | case3 this left right new _ hlt ih => exact ih h
  | case4 => cases h

/-- `rb_insert_color` of a node that was linked. -/
theorem rbInsertColor_linked (hlink : rbInsertLink id root [] = some link)
    (hroot : RedBlack rbRed root)
    (haddr : ∀ t ∈ nodesOf root, t.addr ≠ node.addr) : ∃ u, rbInsertColor node.addr
      (rbLinkNode node link) = some u ∧
      RedBlack rbRed u ∧ nodesOf u = nodesOf (rbLinkNode node link) := by
  have hplug : link.plug .nil = root := plug_rbInsertLink hlink
  have hothers : ∀ x : RbColor × TreeNode α, x ∈ link.before ++ link.after →
    decide (x.2.addr = node.addr) = false := by
    intro x hx
    apply decide_eq_false
    apply haddr x.2
    have hnodes : nodesOf root = (link.before ++ link.after).map Prod.snd := by
      rw [← hplug, nodesOf, TreePlace.inorder_plug, inorder, List.append_nil]
    rw [hnodes]
    exact List.mem_map_of_mem hx
  have hlocate : locate (fun e : RbColor × TreeNode α => e.2.addr = node.addr)
    (rbLinkNode node link) [] =
      some ⟨(.red, node), .nil, .nil, link⟩ := by
    rw [rbLinkNode, locate_plug (fun x hx => hothers x (by simp [hx]))
      (fun x hx => hothers x (by simp [hx])),
      List.append_nil, locate, if_pos (decide_eq_true rfl)]
  rw [← hplug] at hroot
  obtain ⟨c, a, n, hnil, hplace, _⟩ := hroot.unplug
  cases hnil
  have hnode : Balanced rbRed (.node (.red, node) .nil .nil : RbTree α) true 0 := .red rfl .nil .nil
  obtain ⟨u, hu, hred⟩ := rbInsertColorFrom_redBlack hnode hplace
  refine ⟨u, ?_, hred, nodesOf_rbInsertColorFrom hu⟩
  unfold rbInsertColor
  rw [hlocate]
  exact hu

/-- `rb_erase` of a node of a tree. -/
theorem rbErase_found (hroot : RedBlack rbRed root) (haddrs : ((nodesOf root).map (·.addr)).Nodup)
    (ht : t ∈ nodesOf root) : ∃ u, rbErase t.addr root = some u ∧
      RedBlack rbRed u ∧ nodesOf u = (nodesOf root).filter fun t' => t'.addr ≠ t.addr := by
  unfold rbErase
  cases hlocate : locate (fun e : RbColor × TreeNode α => e.2.addr = t.addr) root [] with
  | none =>
    obtain ⟨e, he, rfl⟩ := List.mem_map.mp ht
    have hfalse := locate_none hlocate e he
    simp at hfalse
  | some found =>
    obtain ⟨htest, htree⟩ := locate_some hlocate
    have hfound : found.tree = root := htree
    have haddr : found.value.2.addr = t.addr := of_decide_eq_true htest
    rw [← hfound] at hroot
    obtain ⟨u, hu, hred⟩ := rbEraseNode_redBlack hroot
    refine ⟨u, hu, hred, ?_⟩
    have hnodes : nodesOf root =
        found.before.map Prod.snd ++ found.value.2 :: found.after.map Prod.snd := by
      rw [← hfound, nodesOf, Located.inorder_tree, List.map_append, List.map_cons]
    rw [nodesOf_rbEraseNode hu, hnodes, List.filter_append, List.filter_cons]
    rw [hnodes, List.map_append, List.map_cons, haddr] at haddrs
    obtain ⟨_, hcons, hcross⟩ := List.nodup_append.mp haddrs
    obtain ⟨hnotin, _⟩ := List.nodup_cons.mp hcons
    have hbefore : ∀ x ∈ found.before.map Prod.snd, decide (x.addr ≠ t.addr) = true := by
      intro x hx
      exact decide_eq_true (hcross _ (List.mem_map_of_mem hx) _ List.mem_cons_self)
    have hafter : ∀ x ∈ found.after.map Prod.snd, decide (x.addr ≠ t.addr) = true := by
      intro x hx
      apply decide_eq_true
      intro heq
      exact hnotin (heq ▸ List.mem_map_of_mem hx)
    have hself : decide (found.value.2.addr ≠ t.addr) = false := by simp [haddr]
    rw [List.filter_eq_self.mpr hbefore, List.filter_eq_self.mpr hafter, hself]
    rfl

/-- The maps after calls: they hold what was left, and their trees are red-black trees. -/
structure TreesOk (past : List (MapCall α)) (s : Maps α) : Prop where
  /-- Each map. -/
  maps : MapsOk past s
  /-- Each tree. -/
  redBlack : ∀ mp, RedBlack rbRed (s.treeRoot mp)

/-- An insertion into a good tree is repaired, and keeps the order. -/
theorem TreesOk.insert (h : TreesOk past s) (hlink : rbInsertLink id (s.treeRoot mp)
    [] = some link) (data : α) :
    ∃ u, rbInsertColor s.nextNode (rbLinkNode ⟨s.nextNode, id, data⟩ link) = some u ∧
      RedBlack rbRed u ∧
      nodesOf u = nodesOf (rbLinkNode ⟨s.nextNode, id, data⟩ link) := by
  have haddr : ∀ t ∈ nodesOf (s.treeRoot mp), t.addr ≠ (⟨s.nextNode, id, data⟩ : TreeNode α).addr :=
    fun t ht => ((h.maps.maps mp).lt t ht).ne
  exact rbInsertColor_linked hlink (h.redBlack mp) haddr

/-- A deletion from a good tree is repaired, and keeps the order. -/
theorem TreesOk.delete (h : TreesOk past s) (hsearch : rbSearch id (s.treeRoot mp) = some t) :
    ∃ u, rbErase t.addr (s.treeRoot mp) = some u ∧ RedBlack rbRed u ∧
      nodesOf u = (nodesOf (s.treeRoot mp)).filter fun t' => t'.addr ≠ t.addr := by
  rw [rbSearch_eq (h.maps.maps mp).increasing] at hsearch
  exact rbErase_found (h.redBlack mp) (h.maps.maps mp).addrs (List.mem_of_find?_eq_some hsearch)

/-- No call follows a null pointer. -/
theorem TreesOk.sound (h : TreesOk past s) (call : MapCall α) : call.Sound s := by
  cases call with
  | init mp => trivial
  | insert mp id data =>
    intro link hlink
    obtain ⟨u, hu, _⟩ := h.insert hlink data
    simp [hu]
  | delete mp id =>
    intro t hsearch
    obtain ⟨u, hu, _⟩ := h.delete hsearch
    simp [hu]
  | search mp id => trivial

/-- The bundled functions keep the order where they are called. -/
theorem TreesOk.insert_ordered (h : TreesOk past s) :
    s.insert (Rebalance.ordered .bundled) mp id data = s.insert .bundled mp id data := by
  unfold Maps.insert
  cases hlink : rbInsertLink id (s.treeRoot mp) [] with
  | none => rfl
  | some link =>
    obtain ⟨u, hu, _, hnodes⟩ := h.insert hlink data
    have hbundled : Rebalance.bundled.rbInsertColor s.nextNode
      (rbLinkNode ⟨s.nextNode, id, data⟩ link) = u := by
      change (rbInsertColor _ _).getD _ = u
      rw [hu, Option.getD_some]
    dsimp only
    rw [Rebalance.ordered_insertColor (by rw [hbundled, hnodes])]

/-- On good trees a deletion does the same with the order made to hold. -/
theorem TreesOk.delete_ordered (h : TreesOk past s) :
    s.delete (Rebalance.ordered .bundled) mp id = s.delete .bundled mp id := by
  unfold Maps.delete
  cases hsearch : rbSearch id (s.treeRoot mp) with
  | none => rfl
  | some t =>
    obtain ⟨u, hu, _, hnodes⟩ := h.delete hsearch
    have hbundled : Rebalance.bundled.rbErase t.addr (s.treeRoot mp) = u := by
      change (rbErase _ _).getD _ = u
      rw [hu, Option.getD_some]
    dsimp only
    rw [Rebalance.ordered_erase (by rw [hbundled, hnodes])]

/-- A call on red-black trees. -/
theorem TreesOk.call (h : TreesOk past s) (call : MapCall α) :
    TreesOk (call :: past) (call.after .bundled s) := by
  have hafter : call.after (Rebalance.ordered .bundled) s = call.after .bundled s := by
    cases call with
    | init mp => rfl
    | insert mp id data => exact congrArg Prod.snd h.insert_ordered
    | delete mp id => exact congrArg Prod.snd h.delete_ordered
    | search mp id => rfl
  have hmaps := h.maps.call (R := Rebalance.ordered .bundled) Rebalance.ordered_keepsOrder call
  rw [hafter] at hmaps
  refine ⟨hmaps, ?_⟩
  have hroot : ∀ mp u, RedBlack rbRed u →
    ∀ mp', RedBlack rbRed ((s.setRoot mp u).treeRoot mp') := by
    intro mp u hu mp'
    by_cases hmp : mp' = mp
    · subst hmp
      simpa [Maps.setRoot] using hu
    · simpa [Maps.setRoot, Function.update_of_ne hmp] using h.redBlack mp'
  cases call with
  | init mp => exact hroot mp .nil ⟨0, .nil⟩
  | insert mp id data =>
    simp only [MapCall.after, Maps.insert]
    cases hlink : rbInsertLink id (s.treeRoot mp) [] with
    | none => exact h.redBlack
    | some link =>
      obtain ⟨u, hu, hred, _⟩ := h.insert hlink data
      simp only [Rebalance.bundled, hu, Option.getD_some]
      exact hroot mp u hred
  | delete mp id =>
    simp only [MapCall.after, Maps.delete]
    cases hsearch : rbSearch id (s.treeRoot mp) with
    | none => exact h.redBlack
    | some t =>
      obtain ⟨u, hu, hred, _⟩ := h.delete hsearch
      simp only [Rebalance.bundled, hu, Option.getD_some]
      exact hroot mp u hred
  | search mp id => exact h.redBlack

/-! ## Runs -/

/-- Any calls. -/
theorem treesOk_after (past : List (MapCall α)) : TreesOk past (Maps.after .bundled past) := by
  induction past with
  | nil => exact ⟨⟨fun mp => .empty, rfl⟩, fun mp => ⟨0, .nil⟩⟩
  | cons call past ih => exact ih.call call

/-- After any calls the tree of each map is a red-black tree, so it is not higher than twice the
logarithm of its size, and the next call follows no null pointer. -/
theorem trees_redBlack (past : List (MapCall α)) :
    (∀ mp, RedBlack rbRed ((Maps.after .bundled past).treeRoot mp) ∧
      ((Maps.after .bundled past).treeRoot mp).height ≤
        2 * Nat.log 2 (((Maps.after .bundled past).treeRoot mp).numNodes + 1)) ∧
    ∀ call : MapCall α, call.Sound (Maps.after .bundled past) := by
  have hok := treesOk_after past
  exact ⟨fun mp => ⟨hok.redBlack mp, (hok.redBlack mp).height_le⟩, hok.sound⟩

/-- From a node on, `map_exit` meets the nodes behind it. -/
theorem exitNodes_behind {xs ys tmphead : List (TreeNode α)} (horder : nodesOf root = xs ++ ys)
    (haddrs : ((nodesOf root).map (·.addr)).Nodup) {n : ℕ} (hn : ys.length < n) :
    exitNodes root n ys.head? tmphead = some (ys.reverse ++ tmphead) := by
  induction ys generalizing xs tmphead n with
  | nil =>
    cases n with
    | zero => cases hn
    | succ n => rfl
  | cons t ys ih =>
    cases n with
    | zero => cases hn
    | succ n =>
      rw [List.length_cons] at hn
      have hnext : rbNext t.addr root = some ys.head? := rbNext_eq horder haddrs
      have hmoved : nodesOf root = (xs ++ [t]) ++ ys := by rw [horder, List.append_cons]
      rw [List.head?_cons, exitNodes, hnext, Option.bind_some, ih hmoved (by omega),
        List.reverse_cons,
        List.append_assoc, List.singleton_append]

/-- After any calls on the bundled trees a map is the finite map of the insertions that were
accepted and not deleted, and `map_exit` frees the node of each entry once. -/
theorem bundled_maps_hold (past : List (MapCall α)) (mp : ℕ) :
    (∀ id, (Maps.after .bundled past).search mp id = held mp id past) ∧
    (∀ id data, (Maps.after .bundled past).insert .bundled mp id data =
      (1, Maps.after .bundled past) ∧
        (held mp id past).isSome ∨
      ((Maps.after .bundled past).insert .bundled mp id data).1 = 0 ∧ held mp id past = none) ∧
    (∀ id, ((Maps.after .bundled past).delete .bundled mp id).1 =
      (if (held mp id past).isSome then 0 else 1, held mp id past)) ∧
    ∃ entries, (∀ n, entries.length < n →
        (Maps.after .bundled past).clearLoop mp n = some (entries, Maps.after .bundled past) ∧
        ∃ freed, (Maps.after .bundled past).exit mp n = some freed ∧ freed.Nodup ∧
          ∀ addr, addr ∈ freed ↔ ∃ t ∈ nodesOf ((Maps.after .bundled past).treeRoot mp),
            t.addr = addr) ∧
      (entries.Pairwise fun a b => a.1 < b.1) ∧
      ∀ id data, (id, data) ∈ entries ↔ held mp id past = some data := by
  have hsame : Maps.after (Rebalance.ordered .bundled) past = Maps.after .bundled past := by
    induction past with
    | nil => rfl
    | cons call past ih =>
      have hok := treesOk_after past
      rw [Maps.after, Maps.after, ih]
      cases call with
      | init mp => rfl
      | insert mp id data => exact congrArg Prod.snd hok.insert_ordered
      | delete mp id => exact congrArg Prod.snd hok.delete_ordered
      | search mp id => rfl
  have hok := treesOk_after past
  obtain ⟨hsearch, hinsert, hdelete, _⟩ := maps_hold
    (R := Rebalance.ordered .bundled) Rebalance.ordered_keepsOrder past mp
  rw [hsame] at hsearch hinsert hdelete
  refine ⟨hsearch, fun id data => ?_, fun id => ?_, (heldMap mp past).entries, fun n hn => ⟨?_, ?_⟩,
    (heldMap mp past).sorted, fun id data => ?_⟩
  · rw [← hok.insert_ordered]
    exact hinsert id data
  · rw [← hok.delete_ordered]
    exact hdelete id
  · rw [← (hok.maps.maps mp).entries] at hn ⊢
    exact clearLoop_eq (hok.maps.maps mp).addrs hok.maps.cursor (by simpa using hn)
  · rw [← (hok.maps.maps mp).entries, List.length_map] at hn
    have haddrs := (hok.maps.maps mp).addrs
    have hnodes : exitNodes ((Maps.after .bundled past).treeRoot mp) n
        (rbFirst ((Maps.after .bundled past).treeRoot mp)) [] =
          some (nodesOf ((Maps.after .bundled past).treeRoot mp)).reverse := by
      rw [rbFirst_eq, exitNodes_behind (List.nil_append _).symm haddrs hn, List.append_nil]
    refine ⟨_, by rw [Maps.exit, hnodes, Option.map_some], ?_, fun addr => ?_⟩
    · rw [List.map_reverse]
      exact List.nodup_reverse.mpr haddrs
    · simp
  · rw [OrdMap.mem_entries, find_heldMap]

end Efs
