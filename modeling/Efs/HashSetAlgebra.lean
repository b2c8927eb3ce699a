import Efs.HashSetSemantics
import Efs.Library.Exec
import Mathlib.Data.Set.Card

/-!
# Sets of paths together

The functions of `set.c` on several sets, and the list of the keys of one. While the tables are laid
out well they compute what they are named after, and a program that uses any number of sets cannot
tell them from finite sets.

A set is passed by value, so a result goes into another set than both arguments. Memory never runs
out.
-/

namespace Efs

open Library Probing

namespace PathSet

/-- `__set_contains`. -/
def containsNode (set : PathSet) (node : SetNode) : SetResult :=
  match set.getIndex node with
  | .found _ => .isTrue
  | .free _ => .isFalse
  | .full => .circularError

/-- `__set_add`. -/
def addNode (set : PathSet) (node : SetNode) : SetResult × PathSet :=
  if set.containsNode node = .isTrue then (.alreadyPresent, set)
  else
    let set := if toFloat set.numberNodes < 4 * toFloat set.usedNodes then set.grow else set
    match set.getIndex node with
    | .free index => (.isTrue, { set.assignNode node index with usedNodes := set.usedNodes + 1 })
    | .found _ => (.isTrue, set)
    | .full => (.circularError, set)

/-- The nodes in the order of the slots, as every loop over the table comes to them. -/
def slots (set : PathSet) : List SetNode := (List.range set.numberNodes).filterMap set.nodes

/-- `set_clear`. -/
def clear (set : PathSet) : PathSet :=
  { set with nodes := fun i => if i < set.numberNodes then none else set.nodes i, usedNodes := 0 }

/-- `set_length`. -/
def length (set : PathSet) : ℕ := set.usedNodes

/-- `set_to_array`: the keys, and their number as it is told. -/
def toArray (set : PathSet) : List CStr × ℕ := (set.slots.map SetNode.key, set.usedNodes)

/-- The loop that adds the nodes of `src` for which `keep` holds to `res`. -/
def addSlots (keep : SetNode → Bool) (src res : PathSet) : PathSet :=
  src.slots.foldl (fun res node => if keep node then (res.addNode node).2 else res) res

/-- `set_union`, with `none` for `SET_OCCUPIED_ERROR`. -/
def union (res s1 s2 : PathSet) : Option PathSet :=
  if res.usedNodes ≠ 0 then none
  else some (addSlots (fun _ => true) s2 (addSlots (fun _ => true) s1 res))

/-- `set_intersection`, with `none` for `SET_OCCUPIED_ERROR`. -/
def intersection (res s1 s2 : PathSet) : Option PathSet :=
  if res.usedNodes ≠ 0 then none
  else some (addSlots (fun node => s2.containsNode node = .isTrue) s1 res)

/-- `set_difference`, with `none` for `SET_OCCUPIED_ERROR`. -/
def difference (res s1 s2 : PathSet) : Option PathSet :=
  if res.usedNodes ≠ 0 then none
  else some (addSlots (fun node => s2.containsNode node ≠ .isTrue) s1 res)

/-- `set_symmetric_difference`, with `none` for `SET_OCCUPIED_ERROR`. -/
def symmetricDifference (res s1 s2 : PathSet) : Option PathSet :=
  if res.usedNodes ≠ 0 then none
  else some (addSlots (fun node => s1.containsNode node ≠ .isTrue) s2
    (addSlots (fun node => s2.containsNode node ≠ .isTrue) s1 res))

/-- `set_is_subset`. -/
def isSubset (test against : PathSet) : Bool :=
  test.slots.all fun node => against.containsNode node ≠ .isFalse

/-- `set_is_subset_strict`. -/
def isSubsetStrict (test against : PathSet) : Bool :=
  if test.usedNodes ≥ against.usedNodes then false else test.isSubset against

/-- What `set_cmp` returns. -/
inductive Order
  /-- `SET_RIGHT_GREATER`. -/
  | rightGreater
  /-- `SET_LEFT_GREATER`. -/
  | leftGreater
  /-- `SET_EQUAL`. -/
  | equal
  /-- `SET_UNEQUAL`. -/
  | unequal
  deriving DecidableEq

/-- `set_cmp`. -/
def cmp (left right : PathSet) : Order :=
  if left.usedNodes < right.usedNodes then .rightGreater
  else if right.usedNodes < left.usedNodes then .leftGreater
  else if left.slots.all fun node => right.contains node.key = .isTrue then .equal
  else .unequal

section

variable {set src res s1 s2 : PathSet} {key : CStr} {node : SetNode}

/-- A search for the node of a key is one for the key. -/
theorem containsNode_setNode : set.containsNode (setNode key) = set.contains key := rfl

/-- Adding the node of a key is adding the key. -/
theorem addNode_setNode : set.addNode (setNode key) = set.add key := rfl

/-! ## The nodes of a set -/

/-- The nodes in the slots are those that the table holds. -/
theorem mem_slots : node ∈ set.slots ↔ Holds set.numberNodes set.nodes node := by
  simp only [slots, List.mem_filterMap, List.mem_range, Holds]

/-- The nodes are those of the keys. -/
theorem Good.mem_slots_iff (h : set.Good) :
    node ∈ set.slots ↔ node.key ∈ set.keys ∧ node = setNode node.key := by
  rw [mem_slots]
  constructor
  · rintro ⟨p, hp, hk⟩
    have hnode := h.hashes p hp node hk
    exact ⟨⟨p, hp, hnode ▸ hk⟩, hnode⟩
  · rintro ⟨hkey, hnode⟩
    rw [hnode]
    exact hkey

/-- In a good set the nodes in the slots are those of its keys. -/
theorem Good.setNode_mem_slots (h : set.Good) : setNode key ∈ set.slots ↔ key ∈ set.keys := by
  rw [h.mem_slots_iff]
  exact and_iff_left rfl

/-- No two slots of a good set hold the same node. -/
theorem Good.nodup_slots (h : set.Good) : set.slots.Nodup := by
  rw [slots, List.Nodup, List.pairwise_filterMap]
  apply List.nodup_range.imp_of_mem
  rintro p q hp hq hne node hnode node' hnode' rfl
  exact hne (h.laid.unique p (List.mem_range.mp hp) q (List.mem_range.mp hq) node hnode hnode')

/-- A test of the nodes is a test of the keys. -/
theorem Good.all_slots (h : set.Good) {test : SetNode → Bool} :
    set.slots.all test = true ↔ ∀ key ∈ set.keys, test (setNode key) = true := by
  rw [List.all_eq_true]
  constructor
  · intro htest key hkey
    exact htest _ (h.setNode_mem_slots.mpr hkey)
  · intro htest node hnode
    obtain ⟨hkey, heq⟩ := h.mem_slots_iff.mp hnode
    rw [heq]
    exact htest _ hkey

/-- The keys, without repetition. -/
theorem Good.nodup_keys (h : set.Good) : (set.slots.map SetNode.key).Nodup := by
  apply List.Nodup.map_on _ h.nodup_slots
  intro node hnode node' hnode' heq
  rw [(h.mem_slots_iff.mp hnode).2, (h.mem_slots_iff.mp hnode').2, heq]

/-- The keys in the slots of a good set are its keys. -/
theorem Good.mem_keys_iff (h : set.Good) : key ∈ set.slots.map SetNode.key ↔ key ∈ set.keys := by
  rw [List.mem_map]
  constructor
  · rintro ⟨node, hnode, rfl⟩
    exact (h.mem_slots_iff.mp hnode).1
  · intro hkey
    exact ⟨setNode key, h.setNode_mem_slots.mpr hkey, rfl⟩

/-- The nodes are counted. -/
theorem Good.length_slots (h : set.Good) : set.slots.length = set.usedNodes := by
  have hoccupied : occupied set.numberNodes set.nodes =
      ((List.range set.numberNodes).filter fun p => (set.nodes p).isSome).toFinset := by
    ext p
    simp [mem_occupied, Option.isSome_iff_ne_none]
  rw [← h.count, hoccupied, List.toFinset_card_of_nodup (List.nodup_range.filter _), slots,
    List.length_filterMap_eq_countP, List.countP_eq_length_filter]

/-- A good set has as many keys as `used_nodes` says. -/
theorem Good.ncard_keys (h : set.Good) : set.keys.ncard = set.usedNodes := by
  have hkeys : set.keys = ((set.slots.map SetNode.key).toFinset : Set CStr) := by
    ext key
    rw [Finset.mem_coe, List.mem_toFinset, h.mem_keys_iff]
  rw [hkeys, Set.ncard_coe_finset, List.toFinset_card_of_nodup h.nodup_keys, List.length_map,
    h.length_slots]

/-- A good set has finitely many keys. -/
theorem Good.finite_keys (h : set.Good) : set.keys.Finite := by
  apply Set.Finite.subset (List.finite_toSet (set.slots.map SetNode.key))
  intro key hkey
  exact h.mem_keys_iff.mpr hkey

/-- A good set is empty when `used_nodes` is 0. -/
theorem Good.usedNodes_eq_zero (h : set.Good) : set.usedNodes = 0 ↔ set.keys = ∅ := by
  rw [← h.ncard_keys]
  exact Set.ncard_eq_zero h.finite_keys

/-- A search never makes a full turn. -/
theorem Good.contains_cases (h : set.Good) (key : CStr) : set.contains key = .isTrue ∧
    key ∈ set.keys ∨
    set.contains key = .isFalse ∧ key ∉ set.keys := by
  by_cases hkey : key ∈ set.keys
  · exact Or.inl ⟨h.contains_iff.mpr hkey, hkey⟩
  · obtain ⟨i, _, hfree⟩ := h.free hkey
    exact Or.inr ⟨by rw [contains, hfree], hkey⟩

/-- `set_contains` tells which keys are missing. -/
theorem Good.contains_isFalse_iff (h : set.Good) : set.contains key = .isFalse ↔
    key ∉ set.keys := by
  rcases h.contains_cases key with ⟨hcontains, hkey⟩ | ⟨hcontains, hkey⟩
  · simp [hcontains, hkey]
  · simp [hcontains, hkey]

/-! ## Sets from sets -/

/-- `set_add` of any path. -/
theorem Good.add_any (h : set.Good) (key : CStr) : (set.add key).2.Good ∧
    (set.add key).2.keys = insert key set.keys ∧
      ((set.add key).1 = .alreadyPresent ∧ key ∈ set.keys ∨ (set.add key).1 = .isTrue ∧
        key ∉ set.keys) := by
  by_cases hkey : key ∈ set.keys
  · have hadd : set.add key = (.alreadyPresent, set) := by
      rw [PathSet.add, if_pos (h.contains_iff.mpr hkey)]
    rw [hadd, Set.insert_eq_of_mem hkey]
    exact ⟨h, rfl, Or.inl ⟨rfl, hkey⟩⟩
  · obtain ⟨set', hadd, hgood, hkeys⟩ := h.add hkey
    rw [hadd]
    exact ⟨hgood, hkeys, Or.inr ⟨rfl, hkey⟩⟩

/-- The loop over a list of nodes. -/
theorem Good.foldl_addNode (h : res.Good) (keep : SetNode → Bool) {l : List SetNode}
    (hl : ∀ node ∈ l, node = setNode node.key) :
    (l.foldl (fun res node => if keep node then (res.addNode node).2 else res) res).Good ∧
      (l.foldl (fun res node => if keep node then (res.addNode node).2 else res) res).keys =
        res.keys ∪ {key | setNode key ∈ l ∧ keep (setNode key) = true} := by
  induction l generalizing res with
  | nil => simp [h]
  | cons node l ih =>
    have hnode := hl node List.mem_cons_self
    have hrest : ∀ node ∈ l, node = setNode node.key := fun node hmem =>
      hl node (List.mem_cons_of_mem _ hmem)
    have hone : ∀ key, setNode key = node ↔ key = node.key := by
      intro key
      constructor
      · rintro rfl
        rfl
      · rintro rfl
        exact hnode.symm
    rw [List.foldl_cons]
    by_cases hkeep : keep node = true
    · obtain ⟨hgood, hkeys, _⟩ := h.add_any node.key
      rw [← addNode_setNode, ← hnode] at hgood hkeys
      obtain ⟨hgood', hkeys'⟩ := ih hgood hrest
      rw [if_pos hkeep]
      refine ⟨hgood', hkeys'.trans ?_⟩
      rw [hkeys]
      ext key
      have hkeep' : key = node.key → keep (setNode key) = true := fun heq => by
        rw [(hone key).mpr heq, hkeep]
      simp only [Set.mem_union, Set.mem_insert_iff, Set.mem_ofPred_eq, List.mem_cons, hone]
      tauto
    · obtain ⟨hgood', hkeys'⟩ := ih h hrest
      rw [if_neg hkeep]
      refine ⟨hgood', hkeys'.trans ?_⟩
      ext key
      have hdrop : key = node.key → ¬keep (setNode key) = true := fun heq => by
        rw [(hone key).mpr heq]
        exact hkeep
      simp only [Set.mem_union, Set.mem_ofPred_eq, List.mem_cons, hone]
      tauto

/-- The loop adds the keys that are kept. -/
theorem Good.addSlots (h : res.Good) (keep : SetNode → Bool) (hsrc : src.Good) :
    (PathSet.addSlots keep src res).Good ∧
    (PathSet.addSlots keep src res).keys = res.keys ∪
      {key ∈ src.keys | keep (setNode key) = true} := by
  obtain ⟨hgood, hkeys⟩ := h.foldl_addNode keep fun node hnode => (hsrc.mem_slots_iff.mp hnode).2
  refine ⟨hgood, hkeys.trans ?_⟩
  ext key
  simp only [Set.mem_union, Set.mem_ofPred_eq, hsrc.setNode_mem_slots]

/-- `set_clear`. -/
theorem Good.clear (h : set.Good) : set.clear.Good ∧ set.clear.keys = ∅ := by
  have hnone : ∀ p < set.numberNodes, set.clear.nodes p = none := fun p hp => if_pos hp
  have hholds : ∀ k, ¬Holds set.numberNodes set.clear.nodes k := by
    rintro k ⟨p, hp, hk⟩
    rw [hnone p hp] at hk
    cases hk
  have hlarge := h.large
  refine ⟨⟨⟨?_, ?_⟩, ?_, ?_, hlarge, ?_⟩, ?_⟩
  · intro p hp _ _ k hk
    exact absurd ⟨p, hp, hk⟩ (hholds k)
  · intro p hp k hk
    exact absurd ⟨p, hp, hk⟩ (hholds k)
  · intro p hp k hk
    exact absurd ⟨p, hp, hk⟩ (hholds k)
  · apply Finset.card_eq_zero.mpr
    ext p
    simp only [mem_occupied, Finset.notMem_empty, iff_false, not_and, not_not]
    exact hnone p
  · change 2 * 0 < set.numberNodes
    omega
  · ext key
    exact iff_of_false (hholds _) (Set.notMem_empty key)

end

/-- The functions that make a set of two. -/
inductive SetOp
  /-- `set_union`. -/
  | union
  /-- `set_intersection`. -/
  | intersection
  /-- `set_difference`. -/
  | difference
  /-- `set_symmetric_difference`. -/
  | symmetricDifference

/-- The function called. -/
def SetOp.run : SetOp → PathSet → PathSet → PathSet → Option PathSet
  | .union => PathSet.union
  | .intersection => PathSet.intersection
  | .difference => PathSet.difference
  | .symmetricDifference => PathSet.symmetricDifference

/-- The operation on sets. -/
def SetOp.of : SetOp → Set CStr → Set CStr → Set CStr
  | .union, a, b => a ∪ b
  | .intersection, a, b => a ∩ b
  | .difference, a, b => a \ b
  | .symmetricDifference, a, b => symmDiff a b

section

variable {res s1 s2 : PathSet} {op : SetOp}

/-- The keys of `s1` that `__set_contains` finds in `s2`. -/
theorem Good.keys_found (h2 : s2.Good) :
    {key ∈ s1.keys | decide (s2.containsNode (setNode key) = .isTrue) = true} =
      s1.keys ∩ s2.keys := by
  ext key
  rw [Set.mem_ofPred_eq, decide_eq_true_eq, containsNode_setNode, h2.contains_iff]
  rfl

/-- The keys of `s1` that it does not find there. -/
theorem Good.keys_missed (h2 : s2.Good) :
    {key ∈ s1.keys | decide (s2.containsNode (setNode key) ≠ .isTrue) = true} = s1.keys \
      s2.keys := by
  ext key
  rw [Set.mem_ofPred_eq, decide_eq_true_eq, containsNode_setNode, ne_eq, h2.contains_iff]
  rfl

/-- A set is made in an empty one. -/
theorem Good.combine (h : res.Good) (op : SetOp) (h1 : s1.Good) (h2 : s2.Good)
    (hempty : res.keys = ∅) :
    ∃ res', op.run res s1 s2 = some res' ∧ res'.Good ∧ res'.keys = op.of s1.keys s2.keys := by
  have hzero : ¬res.usedNodes ≠ 0 := not_not.mpr (h.usedNodes_eq_zero.mpr hempty)
  cases op with
  | union =>
    obtain ⟨hgood, hkeys⟩ := h.addSlots (fun _ => true) h1
    obtain ⟨hgood', hkeys'⟩ := hgood.addSlots (fun _ => true) h2
    refine ⟨_, if_neg hzero, hgood', hkeys'.trans ?_⟩
    simp [hkeys, hempty, SetOp.of]
  | intersection =>
    obtain ⟨hgood, hkeys⟩ := h.addSlots (fun node => s2.containsNode node = .isTrue) h1
    refine ⟨_, if_neg hzero, hgood, hkeys.trans ?_⟩
    rw [hempty, Set.empty_union, h2.keys_found]
    rfl
  | difference =>
    obtain ⟨hgood, hkeys⟩ := h.addSlots (fun node => s2.containsNode node ≠ .isTrue) h1
    refine ⟨_, if_neg hzero, hgood, hkeys.trans ?_⟩
    rw [hempty, Set.empty_union, h2.keys_missed]
    rfl
  | symmetricDifference =>
    obtain ⟨hgood, hkeys⟩ := h.addSlots (fun node => s2.containsNode node ≠ .isTrue) h1
    obtain ⟨hgood', hkeys'⟩ := hgood.addSlots (fun node => s1.containsNode node ≠ .isTrue) h2
    refine ⟨_, if_neg hzero, hgood', hkeys'.trans ?_⟩
    rw [hkeys, hempty, Set.empty_union, h2.keys_missed, h1.keys_missed]
    rfl

/-- In another one nothing is made. -/
theorem Good.combine_occupied (h : res.Good) (hkeys : res.keys ≠ ∅) : op.run res s1 s2 = none := by
  have hzero : res.usedNodes ≠ 0 := fun hzero => hkeys (h.usedNodes_eq_zero.mp hzero)
  cases op
  all_goals exact if_pos hzero

/-- `set_is_subset` tells whether the keys are a subset. -/
theorem Good.isSubset_iff (h1 : s1.Good) (h2 : s2.Good) :
    s1.isSubset s2 = true ↔ s1.keys ⊆ s2.keys := by
  rw [isSubset, h1.all_slots]
  simp only [decide_eq_true_eq]
  simp only [containsNode_setNode, ne_eq, h2.contains_isFalse_iff, not_not]
  rfl

/-- A subset is strict when it is smaller. -/
theorem Good.isSubsetStrict_iff (h1 : s1.Good) (h2 : s2.Good) :
    s1.isSubsetStrict s2 = true ↔ s1.keys ⊆ s2.keys ∧ s1.keys ≠ s2.keys := by
  rw [isSubsetStrict, ← h1.ncard_keys, ← h2.ncard_keys]
  constructor
  · intro hstrict
    split_ifs at hstrict with hle
    have hsub := (h1.isSubset_iff h2).mp hstrict
    exact ⟨hsub, fun heq => hle (Set.ncard_le_ncard heq.symm.subset h1.finite_keys)⟩
  · rintro ⟨hsub, hne⟩
    have hlt : ¬s2.keys.ncard ≤ s1.keys.ncard := fun hle =>
      hne (Set.eq_of_subset_of_ncard_le hsub hle h2.finite_keys)
    rw [if_neg hlt]
    exact (h1.isSubset_iff h2).mpr hsub

/-- What `set_cmp` tells of two sets. -/
def Order.Tells : Order → Set CStr → Set CStr → Prop
  | .rightGreater, a, b => a.ncard < b.ncard
  | .leftGreater, a, b => b.ncard < a.ncard
  | .equal, a, b => a = b
  | .unequal, a, b => a.ncard = b.ncard ∧ a ≠ b

/-- `set_cmp` tells how the keys of two sets compare. -/
theorem Good.cmp_tells (h1 : s1.Good) (h2 : s2.Good) : (s1.cmp s2).Tells s1.keys s2.keys := by
  have hall : (s1.slots.all fun node => s2.contains node.key = .isTrue) = true ↔
    s1.keys ⊆ s2.keys := by
    rw [h1.all_slots]
    simp only [decide_eq_true_eq, h2.contains_iff]
    rfl
  rw [cmp, ← h1.ncard_keys, ← h2.ncard_keys]
  split_ifs with hright hleft hsame
  · exact hright
  · exact hleft
  · exact Set.eq_of_subset_of_ncard_le (hall.mp hsame) (by omega) h2.finite_keys
  · refine ⟨by omega, ?_⟩
    intro heq
    exact hsame (hall.mpr heq.subset)

end

/-! ## Runs -/

/-- A call on the sets of a program, with what it returns. -/
inductive SetCall
  /-- `set_init`. -/
  | init (i : ℕ)
  /-- `set_clear`. -/
  | clear (i : ℕ)
  /-- `set_add`. -/
  | add (i : ℕ) (key : CStr) (result : SetResult)
  /-- `set_contains`. -/
  | contains (i : ℕ) (key : CStr) (result : SetResult)
  /-- `set_remove`. -/
  | remove (i : ℕ) (key : CStr) (result : SetResult)
  /-- `set_length`. -/
  | length (i n : ℕ)
  /-- `set_to_array`. -/
  | toArray (i : ℕ) (keys : List CStr) (size : ℕ)
  /-- `set_union` and the like, with whether they succeeded. -/
  | combine (op : SetOp) (res s1 s2 : ℕ) (done : Bool)
  /-- `set_is_subset`. -/
  | isSubset (test against : ℕ) (answer : Bool)
  /-- `set_is_subset_strict`. -/
  | isSubsetStrict (test against : ℕ) (answer : Bool)
  /-- `set_cmp`. -/
  | cmp (left right : ℕ) (order : Order)

/-- A call on the tables. -/
def SetStep (σ : ℕ → PathSet) (c : SetCall) (σ' : ℕ → PathSet) : Prop :=
  match c with
  | .init i => σ' = Function.update σ i PathSet.init
  | .clear i => σ' = Function.update σ i (σ i).clear
  | .add i key result => result = ((σ i).add key).1 ∧ σ' = Function.update σ i ((σ i).add key).2
  | .contains i key result => result = (σ i).contains key ∧ σ' = σ
  | .remove i key result => result = ((σ i).remove key).1 ∧
    σ' = Function.update σ i ((σ i).remove key).2
  | .length i n => n = (σ i).length ∧ σ' = σ
  | .toArray i keys size => keys = (σ i).toArray.1 ∧ size = (σ i).toArray.2 ∧ σ' = σ
  | .combine op res s1 s2 done => res ≠ s1 ∧ res ≠ s2 ∧
      match op.run (σ res) (σ s1) (σ s2) with
      | some set => done = true ∧ σ' = Function.update σ res set
      | none => done = false ∧ σ' = σ
  | .isSubset test against answer => answer = (σ test).isSubset (σ against) ∧ σ' = σ
  | .isSubsetStrict test against answer => answer = (σ test).isSubsetStrict (σ against) ∧ σ' = σ
  | .cmp left right order => order = (σ left).cmp (σ right) ∧ σ' = σ

/-- What a call does to the sets of keys. -/
def SetCall.Does (τ : ℕ → Set CStr) (c : SetCall) (τ' : ℕ → Set CStr) : Prop :=
  match c with
  | .init i => τ' = Function.update τ i ∅
  | .clear i => τ' = Function.update τ i ∅
  | .add i key result => (result = .alreadyPresent ∧ key ∈ τ i ∨ result = .isTrue ∧ key ∉ τ i) ∧
      τ' = Function.update τ i (insert key (τ i))
  | .contains i key result => (result = .isTrue ∧ key ∈ τ i ∨ result = .isFalse ∧ key ∉ τ i) ∧
    τ' = τ
  | .remove i key result => (result = .isTrue ∧ key ∈ τ i ∨ result = .isFalse ∧ key ∉ τ i) ∧
      τ' = Function.update τ i (τ i \ {key})
  | .length i n => n = (τ i).ncard ∧ τ' = τ
  | .toArray i keys size => keys.Nodup ∧ (∀ key, key ∈ keys ↔ key ∈ τ i) ∧ size = keys.length ∧
    τ' = τ
  | .combine op res s1 s2 done => done = true ∧ τ res = ∅ ∧
        τ' = Function.update τ res (op.of (τ s1) (τ s2)) ∨
      done = false ∧ τ res ≠ ∅ ∧ τ' = τ
  | .isSubset test against answer => (answer = true ↔ τ test ⊆ τ against) ∧ τ' = τ
  | .isSubsetStrict test against answer => (answer = true ↔ τ test ⊆ τ against ∧
    τ test ≠ τ against) ∧
      τ' = τ
  | .cmp left right order => order.Tells (τ left) (τ right) ∧ τ' = τ

/-- A key that is removed leaves its set well. -/
def SetCall.Defined (σ : ℕ → PathSet) (c : SetCall) : Prop :=
  ∀ i key result, c = .remove i key result → (σ i).RemovesWell key

/-- The sets of keys of the tables. -/
def keysOf (σ : ℕ → PathSet) (i : ℕ) : Set CStr := (σ i).keys

section

variable {σ σ' : ℕ → PathSet} {c : SetCall} {cs : List SetCall} {set : PathSet} {key : CStr}

/-- A set that is stored changes the keys in its place only. -/
theorem keysOf_update (i : ℕ) : keysOf (Function.update σ i set) = Function.update
    (keysOf σ) i set.keys := by
  funext j
  by_cases hj : j = i
  · subst hj
    simp [keysOf]
  · simp [keysOf, Function.update_of_ne hj]

/-- A good set may be stored in any place. -/
theorem good_update (h : ∀ i, (σ i).Good) (hset : set.Good) (i : ℕ) :
    ∀ j, (Function.update σ i set j).Good := by
  intro j
  by_cases hj : j = i
  · subst hj
    rwa [Function.update_self]
  · rw [Function.update_of_ne hj]
    exact h j

/-- `set_remove` of any path. -/
theorem Good.remove_any (h : set.Good) (hwell : set.RemovesWell key) : (set.remove key).2.Good ∧
    (set.remove key).2.keys = set.keys \ {key} ∧
      ((set.remove key).1 = .isTrue ∧ key ∈ set.keys ∨ (set.remove key).1 = .isFalse ∧
        key ∉ set.keys) := by
  by_cases hkey : key ∈ set.keys
  · obtain ⟨set', hremove, hleft, _⟩ := h.remove hkey
    rw [hremove]
    exact ⟨(hleft hwell).1, (hleft hwell).2, Or.inl ⟨rfl, hkey⟩⟩
  · obtain ⟨i, _, hfree⟩ := h.free hkey
    have hremove : set.remove key = (.isFalse, set) := by rw [PathSet.remove, hfree]
    rw [hremove]
    exact ⟨h, (Set.sdiff_singleton_eq_self hkey).symm, Or.inr ⟨rfl, hkey⟩⟩

/-- A call on tables that are laid out well. -/
theorem SetStep.does (hstep : SetStep σ c σ') (h : ∀ i, (σ i).Good) (hdefined : c.Defined σ) :
    (∀ i, (σ' i).Good) ∧ c.Does (keysOf σ) (keysOf σ') := by
  cases c with
  | init i =>
    subst hstep
    exact ⟨good_update h init_good i, by rw [SetCall.Does, keysOf_update, keys_init]⟩
  | clear i =>
    subst hstep
    obtain ⟨hgood, hkeys⟩ := (h i).clear
    exact ⟨good_update h hgood i, by rw [SetCall.Does, keysOf_update, hkeys]⟩
  | add i key result =>
    obtain ⟨rfl, rfl⟩ := hstep
    obtain ⟨hgood, hkeys, hresult⟩ := (h i).add_any key
    exact ⟨good_update h hgood i, hresult, by rw [keysOf_update, hkeys]; rfl⟩
  | contains i key result =>
    obtain ⟨rfl, rfl⟩ := hstep
    exact ⟨h, (h i).contains_cases key, rfl⟩
  | remove i key result =>
    obtain ⟨rfl, rfl⟩ := hstep
    obtain ⟨hgood, hkeys, hresult⟩ := (h i).remove_any (hdefined i key _ rfl)
    exact ⟨good_update h hgood i, hresult, by rw [keysOf_update, hkeys]; rfl⟩
  | length i n =>
    obtain ⟨rfl, rfl⟩ := hstep
    exact ⟨h, (h i).ncard_keys.symm, rfl⟩
  | toArray i keys size =>
    obtain ⟨rfl, rfl, rfl⟩ := hstep
    refine ⟨h, (h i).nodup_keys, fun key => (h i).mem_keys_iff, ?_, rfl⟩
    exact (h i).length_slots.symm.trans (List.length_map _).symm
  | combine op res s1 s2 done =>
    obtain ⟨_, _, hstep⟩ := hstep
    by_cases hempty : (σ res).keys = ∅
    · obtain ⟨set, hrun, hgood, hkeys⟩ := (h res).combine op (h s1) (h s2) hempty
      rw [hrun] at hstep
      obtain ⟨rfl, rfl⟩ := hstep
      exact ⟨good_update h hgood res, Or.inl ⟨rfl, hempty, by rw [keysOf_update, hkeys]; rfl⟩⟩
    · rw [(h res).combine_occupied hempty] at hstep
      obtain ⟨rfl, rfl⟩ := hstep
      exact ⟨h, Or.inr ⟨rfl, hempty, rfl⟩⟩
  | isSubset test against answer =>
    obtain ⟨rfl, rfl⟩ := hstep
    exact ⟨h, (h test).isSubset_iff (h against), rfl⟩
  | isSubsetStrict test against answer =>
    obtain ⟨rfl, rfl⟩ := hstep
    exact ⟨h, (h test).isSubsetStrict_iff (h against), rfl⟩
  | cmp left right order =>
    obtain ⟨rfl, rfl⟩ := hstep
    exact ⟨h, (h left).cmp_tells (h right), rfl⟩

/-- Calls on tables that are laid out well. -/
theorem sets_run (hrun : Run SetStep σ cs σ') (h : ∀ i, (σ i).Good)
    (hdefined : Always SetStep (fun σ c _ => c.Defined σ) σ cs) :
    (∀ i, (σ' i).Good) ∧ Run (fun τ c τ' => SetCall.Does τ c τ') (keysOf σ) cs (keysOf σ') := by
  induction hrun with
  | nil => exact ⟨h, .nil _⟩
  | cons hstep _ ih =>
    obtain ⟨hgood, hdoes⟩ := hstep.does h (hdefined.head hstep)
    obtain ⟨hgood', hrun⟩ := ih hgood (hdefined.tail hstep)
    exact ⟨hgood', .cons hdoes hrun⟩

/-- A program that uses any number of sets from `set_init` on cannot tell them from sets of keys. -/
theorem sets_refine (hrun : Run SetStep (fun _ => PathSet.init) cs σ')
    (hdefined : Always SetStep (fun σ c _ => c.Defined σ) (fun _ => PathSet.init) cs) :
    Run (fun τ c τ' => SetCall.Does τ c τ') (fun _ => ∅) cs (keysOf σ') := by
  obtain ⟨_, hdoes⟩ := sets_run hrun (fun _ => init_good) hdefined
  have hstart : keysOf (fun _ => PathSet.init) = fun _ => ∅ := funext fun _ => keys_init
  rwa [hstart] at hdoes

/-- Two paths are added to two sets and united, and one of them is removed. -/
theorem sets_refine_two : ∃ σ', Run (fun τ c τ' => SetCall.Does τ c τ') (fun _ => ∅)
    [.add 0 [97#8] .isTrue, .add 1 [98#8] .isTrue, .combine .union 2 0 1 true,
      .remove 0 [97#8] .isTrue,
      .isSubsetStrict 0 1 true, .cmp 2 1 .leftGreater] (keysOf σ') := by
  have hwell : (PathSet.init.add [97#8]).2.RemovesWell [97#8] := by
    have halone : (match (PathSet.init.add [97#8]).2.getIndex (setNode [97#8]) with
        | .found i => i < 1024 && (List.range 1024).all fun p =>
            p = i || ((PathSet.init.add [97#8]).2.nodes p).isNone
        | _ => true) = true := by decide +kernel
    apply RemovesWell.of_alone
    intro i hfound
    rw [hfound] at halone
    simp only [Bool.and_eq_true, decide_eq_true_eq, List.all_eq_true, List.mem_range,
      Bool.or_eq_true,
      Option.isNone_iff_eq_none] at halone
    exact ⟨halone.1, fun p hp hne => (halone.2 p hp).resolve_left hne⟩
  refine ⟨_, sets_refine (.cons ⟨by decide +kernel, rfl⟩ <| .cons ⟨by decide +kernel, rfl⟩ <|
    .cons ⟨by decide, by decide, rfl, rfl⟩ <| .cons ⟨by decide +kernel, rfl⟩ <|
    .cons ⟨by decide +kernel, rfl⟩ <| .cons ⟨by decide +kernel, rfl⟩ <| .nil _) ?_⟩
  refine Always.cons_iff.mpr fun σ₁ hadd => ⟨(by rintro _ _ _ ⟨⟩),
    Always.cons_iff.mpr fun σ₂ hadd' =>
    ⟨(by rintro _ _ _ ⟨⟩), Always.cons_iff.mpr fun σ₃ hunion => ⟨(by rintro _ _ _ ⟨⟩),
    Always.cons_iff.mpr fun _ _ => ⟨?_, Always.cons_iff.mpr fun _ _ => ⟨(by rintro _ _ _ ⟨⟩),
    Always.cons_iff.mpr fun _ _ => ⟨(by rintro _ _ _ ⟨⟩), .nil _⟩⟩⟩⟩⟩⟩
  obtain ⟨_, rfl⟩ := hadd
  obtain ⟨_, rfl⟩ := hadd'
  obtain ⟨_, _, _, rfl⟩ := hunion
  rintro _ _ _ ⟨⟩
  exact hwell

end

end PathSet

end Efs
