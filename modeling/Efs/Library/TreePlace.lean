import Mathlib.Data.Tree.Basic
import Mathlib.Tactic.Common

/-!
# Places in binary trees

A place in a tree is the list of the frames from it up to the root: the parents, each with
its other subtree. A link of a parent is a place at which a tree can be put, and a node is
a tree at a place. In the order of the tree, all nodes before a place are to its left.
-/

namespace Efs.Library

/-- The values of a tree in order. -/
def inorder {E : Type} : BinaryTree E → List E
  | .nil => []
  | .node e l r => inorder l ++ e :: inorder r

/-- A parent with the subtree on its other side. -/
inductive Frame (E : Type)
  /-- The place is the left child. -/
  | left (parent : E) (sibling : BinaryTree E)
  /-- The place is the right child. -/
  | right (parent : E) (sibling : BinaryTree E)

/-- A place: the parent first and the root last. -/
abbrev TreePlace (E : Type) := List (Frame E)

/-- A node at a place. -/
structure Located (E : Type) where
  /-- The value of the node. -/
  value : E
  /-- The left child. -/
  left : BinaryTree E
  /-- The right child. -/
  right : BinaryTree E
  /-- The place of the node. -/
  place : TreePlace E

variable {E : Type} {e : E} {t l r : BinaryTree E} {p q : TreePlace E} {test : E → Bool}
  {f : Located E}

namespace TreePlace

/-- The tree with a tree at a place. -/
def plug (t : BinaryTree E) : TreePlace E → BinaryTree E
  | [] => t
  | .left e r :: p => plug (.node e t r) p
  | .right e l :: p => plug (.node e l t) p

/-- The values to the left of a place. -/
def before : TreePlace E → List E
  | [] => []
  | .left _ _ :: p => before p
  | .right e l :: p => before p ++ (inorder l ++ [e])

/-- The values to the right of a place. -/
def after : TreePlace E → List E
  | [] => []
  | .left e r :: p => e :: inorder r ++ after p
  | .right _ _ :: p => after p

/-- The first parent that has the place on its left. -/
def climb : TreePlace E → Option E
  | [] => none
  | .left e _ :: _ => some e
  | .right _ _ :: p => climb p

/-- A tree in a place is between what is before and after it. -/
theorem inorder_plug : inorder (plug t p) = before p ++ inorder t ++ after p := by
  induction p generalizing t with
  | nil => simp [plug, before, after]
  | cons frame p ih => cases frame <;> simp [plug, before, after, ih, inorder]

/-- Climbing leads to the next value to the right. -/
theorem climb_eq : climb p = (after p).head? := by
  induction p with
  | nil => rfl
  | cons frame p ih =>
    cases frame with
    | left e r => rfl
    | right e l => exact ih

end TreePlace

/-- The value at the end of the left links. -/
def leftmost : BinaryTree E → Option E
  | .nil => none
  | .node e .nil _ => some e
  | .node _ (.node e l r) _ => leftmost (.node e l r)

/-- A tree that is not empty has a first value. -/
theorem head?_inorder_append (e : E) (l r : BinaryTree E) (xs : List E) :
    (inorder (.node e l r) ++ xs).head? = (inorder (.node e l r)).head? := by
  rw [inorder]
  cases inorder l <;> rfl

/-- The left links lead to the first value. -/
theorem leftmost_eq (t : BinaryTree E) : leftmost t = (inorder t).head? := by
  fun_induction leftmost t with
  | case1 => rfl
  | case2 e r => rfl
  | case3 e e' l r' r ih => exact ih.trans (head?_inorder_append e' l r' (e :: inorder r)).symm

namespace Located

/-- The whole tree. -/
def tree (f : Located E) : BinaryTree E := f.place.plug (.node f.value f.left f.right)

/-- The node that comes next: the leftmost one of the right child, or else the first
parent that has the node on its left. -/
def next (f : Located E) : Option E :=
  match f.right with
  | .nil => f.place.climb
  | .node e l r => leftmost (.node e l r)

/-- The values before a node. -/
def before (f : Located E) : List E := f.place.before ++ inorder f.left

/-- The values behind a node. -/
def after (f : Located E) : List E := inorder f.right ++ f.place.after

/-- A located node is between what is before and after it. -/
theorem inorder_tree : inorder f.tree = f.before ++ f.value :: f.after := by
  simp [tree, before, after, TreePlace.inorder_plug, inorder]

/-- The next node is the first one after it. -/
theorem next_eq : f.next = f.after.head? := by
  unfold next after
  cases f.right with
  | nil => exact TreePlace.climb_eq
  | node e l r =>
    rw [head?_inorder_append]
    exact leftmost_eq (.node e l r)

end Located

/-- The node of a tree that meets a test, for a tree at a place. -/
def locate (test : E → Bool) : BinaryTree E → TreePlace E → Option (Located E)
  | .nil, _ => none
  | .node e l r, p =>
    if test e then some ⟨e, l, r, p⟩
    else (locate test l (.left e r :: p)).or (locate test r (.right e l :: p))

/-- A located node passes the test, and is in the tree. -/
theorem locate_some (h : locate test t p = some f) : test f.value = true ∧ f.tree = p.plug t := by
  induction t generalizing p with
  | nil => cases h
  | node e l r ihl ihr =>
    rw [locate] at h
    split at h
    · next htest =>
      cases h
      exact ⟨htest, rfl⟩
    · rcases Option.or_eq_some_iff.mp h with h | ⟨_, h⟩
      · exact ihl h
      · exact ihr h

/-- No node passes the test when none is located. -/
theorem locate_none (h : locate test t p = none) : ∀ e ∈ inorder t, test e = false := by
  induction t generalizing p with
  | nil => simp [inorder]
  | node e l r ihl ihr =>
    rw [locate] at h
    split at h
    · cases h
    · next htest =>
      obtain ⟨hl, hr⟩ := Option.or_eq_none_iff.mp h
      intro a ha
      rw [inorder, List.mem_append, List.mem_cons] at ha
      rcases ha with ha | rfl | ha
      · exact ihl hl a ha
      · simpa using htest
      · exact ihr hr a ha

/-- None is located when no node passes the test. -/
theorem locate_of_not (h : ∀ x ∈ inorder t, test x = false) : locate test t p = none := by
  induction t generalizing p with
  | nil => rfl
  | node e l r ihl ihr =>
    simp only [inorder, List.mem_append, List.mem_cons] at h
    rw [locate, h e (Or.inr (Or.inl rfl)), if_neg Bool.false_ne_true,
      ihl fun x hx => h x (Or.inl hx), ihr fun x hx => h x (Or.inr (Or.inr hx)), Option.or_none]

/-- The search for a node at a place goes through the tree at the place. -/
theorem locate_plug (hbefore : ∀ x ∈ p.before, test x = false)
    (hafter : ∀ x ∈ p.after, test x = false) :
    locate test (p.plug t) q = locate test t (p ++ q) := by
  induction p generalizing t with
  | nil => rfl
  | cons frame p ih =>
    cases frame with
    | left e r =>
      have hrest : ∀ x ∈ e :: inorder r ++ TreePlace.after p, test x = false := hafter
      have hright : locate test r (.right e t :: (p ++ q)) = none :=
        locate_of_not fun x hx => hrest x (by simp [hx])
      rw [TreePlace.plug, ih hbefore fun x hx => hrest x (by simp [hx]), locate, hrest e (by simp),
        if_neg Bool.false_ne_true, hright, Option.or_none]
      rfl
    | right e l =>
      have hrest : ∀ x ∈ TreePlace.before p ++ (inorder l ++ [e]), test x = false := hbefore
      have hleft : locate test l (.left e t :: (p ++ q)) = none :=
        locate_of_not fun x hx => hrest x (by simp [hx])
      rw [TreePlace.plug, ih (fun x hx => hrest x (by simp [hx])) hafter, locate, hrest e (by simp),
        if_neg Bool.false_ne_true, hleft, Option.none_or]
      rfl

/-- A value that only one node has is located, and what comes before and behind it is what
its order says. -/
theorem locate_of_inorder {xs ys : List E} (horder : inorder t = xs ++ e :: ys)
    (htest : test e = true) (hbefore : ∀ x ∈ xs, test x = false)
      (hafter : ∀ y ∈ ys, test y = false) :
    ∃ f, locate test t [] = some f ∧ f.value = e ∧ f.next = ys.head? := by
  cases hlocate : locate test t [] with
  | none =>
    have hfalse := locate_none hlocate e (by simp [horder])
    rw [htest] at hfalse
    cases hfalse
  | some f =>
    obtain ⟨hf, htree⟩ := locate_some hlocate
    have heq : f.before ++ f.value :: f.after = xs ++ e :: ys := by
      rw [← Located.inorder_tree, htree, ← horder]
      rfl
    refine ⟨f, rfl, ?_⟩
    rcases List.append_eq_append_iff.mp heq with ⟨zs, hxs, hrest⟩ | ⟨zs, hxs, hrest⟩
    · cases zs with
      | nil =>
        obtain ⟨hvalue, hys⟩ := List.cons.inj hrest
        exact ⟨hvalue, by rw [Located.next_eq, hys]⟩
      | cons z zs =>
        obtain ⟨rfl, _⟩ := List.cons.inj hrest
        have hfalse := hbefore f.value (by simp [hxs])
        rw [hf] at hfalse
        cases hfalse
    · cases zs with
      | nil =>
        obtain ⟨hvalue, hys⟩ := List.cons.inj hrest
        exact ⟨hvalue.symm, by rw [Located.next_eq, hys]⟩
      | cons z zs =>
        obtain ⟨_, hys⟩ := List.cons.inj hrest
        have hfalse := hafter f.value (by simp [hys])
        rw [hf] at hfalse
        cases hfalse

end Efs.Library
