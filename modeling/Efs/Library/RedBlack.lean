import Efs.Library.TreePlace
import Mathlib.Data.Nat.Log
import Mathlib.Tactic.Ring

/-!
# Red-black trees

A tree is balanced when no red node has a red child and each path down to an empty tree meets
the same number of black nodes. A place knows the balanced trees that can be put there. Left and
right are sides, and a rotation to a side is one definition.
-/

namespace Efs.Library

/-- A side of a node. -/
inductive Side
  | left
  | right
  deriving DecidableEq

variable {E : Type} {e f : E} {t u near far : BinaryTree E} {p : TreePlace E} {s : Side}

namespace Side

/-- The other side. -/
def other : Side → Side
  | left => right
  | right => left

/-- A node, with the child on the side first. -/
def node (side : Side) (e : E) (near far : BinaryTree E) : BinaryTree E :=
  match side with
  | left => .node e near far
  | right => .node e far near

/-- The root of a tree, its child on the side, and the other one. -/
def split (side : Side) : BinaryTree E → Option (E × BinaryTree E × BinaryTree E)
  | .nil => none
  | .node e l r =>
    match side with
    | left => some (e, l, r)
    | right => some (e, r, l)

/-- The frame of the child on the side. -/
def frame (side : Side) (e : E) (sibling : BinaryTree E) : Frame E :=
  match side with
  | left => .left e sibling
  | right => .right e sibling

/-- The rotation to the side: the child on the other side goes up. -/
def rotate (side : Side) (t : BinaryTree E) : Option (BinaryTree E) := do
  let (e, near, far) ← side.split t
  let (f, inner, outer) ← side.split far
  return side.node f (side.node e near inner) outer

/-- A node is split into its parts. -/
@[simp] theorem split_node : s.split (s.node e near far) = some (e, near, far) := by
  cases s <;> rfl

/-- The children change places on the other side. -/
@[simp] theorem other_node : s.other.node e near far = s.node e far near := by
  cases s <;> rfl

/-- A tree that is split is a node. -/
theorem eq_node_of_split (h : s.split t = some (e, near, far)) : t = s.node e near far := by
  cases t with
  | nil => cases h
  | node e' l r =>
    cases s with
    | left =>
      cases h
      rfl
    | right =>
      cases h
      rfl

/-- A tree that is not split is empty. -/
theorem eq_nil_of_split (h : s.split t = none) : t = .nil := by
  cases t with
  | nil => rfl
  | node e l r =>
    cases s with
    | left => cases h
    | right => cases h

/-- A rotation pulls the far child up. -/
@[simp] theorem rotate_node {inner outer : BinaryTree E} :
    s.rotate (s.node e near (s.node f inner outer)) =
      some (s.node f (s.node e near inner) outer) := by
  simp [rotate]

/-- A rotation to the other side pulls the near child up. -/
@[simp] theorem rotate_other_node {inner outer : BinaryTree E} :
    s.other.rotate (s.node e (s.node f outer inner) far) =
      some (s.node f outer (s.node e inner far)) := by
  cases s <;> rfl

/-- A node is no empty tree. -/
theorem node_ne_nil : s.node e near far ≠ .nil := by
  cases s <;> simp [node]

/-- A tree that is there has a root. -/
theorem exists_node (s : Side) (h : t ≠ .nil) : ∃ e near far, t = s.node e near far := by
  cases hsplit : s.split t with
  | none => exact absurd (eq_nil_of_split hsplit) h
  | some split =>
    obtain ⟨e, near, far⟩ := split
    exact ⟨e, near, far, eq_node_of_split hsplit⟩

/-- A side is the one side or the other. -/
theorem eq_other {s s' : Side} (h : s' ≠ s) : s' = s.other := by
  cases s <;> cases s' <;> simp_all [other]

end Side

namespace Frame

/-- The side of the place. -/
def side : Frame E → Side
  | .left _ _ => .left
  | .right _ _ => .right

/-- The parent. -/
def parent : Frame E → E
  | .left e _ => e
  | .right e _ => e

/-- The subtree on the other side. -/
def sibling : Frame E → BinaryTree E
  | .left _ r => r
  | .right _ l => l

/-- The side of a frame. -/
@[simp] theorem side_frame : (s.frame e t).side = s := by cases s <;> rfl

/-- The parent in a frame. -/
@[simp] theorem parent_frame : (s.frame e t).parent = e := by cases s <;> rfl

/-- The sibling in a frame. -/
@[simp] theorem sibling_frame : (s.frame e t).sibling = t := by cases s <;> rfl

end Frame

/-- The frame next to a place is filled. -/
theorem TreePlace.plug_cons {frame : Frame E} :
    plug t (frame :: p) = plug (frame.side.node frame.parent t frame.sibling) p := by
  cases frame <;> rfl

/-- A place below a place. -/
theorem TreePlace.plug_append {q : TreePlace E} : plug t (q ++ p) = plug (plug t q) p := by
  induction q generalizing t with
  | nil => rfl
  | cons frame q ih => rw [List.cons_append, plug_cons, plug_cons, ih]

/-- A tree with a node in some place is not empty. -/
theorem TreePlace.plug_ne_nil (h : t ≠ .nil) : plug t p ≠ .nil := by
  induction p generalizing t with
  | nil => exact h
  | cons frame p ih =>
    rw [plug_cons]
    exact ih Side.node_ne_nil

/-! ## Order -/

/-- The values that a map of the nodes gives, in order. A change of colours keeps them. -/
def values {V : Type} (value : E → V) (t : BinaryTree E) : List V := (inorder t).map value

section

variable {V : Type} {value : E → V}

/-- The order of a node depends on those of its children. -/
theorem values_node_congr {near' far' : BinaryTree E} (he : value e = value f)
    (hnear : values value near = values value near') (hfar : values value far = values value far') :
    values value (s.node e near far) = values value (s.node f near' far') := by
  unfold values at *
  cases s with
  | left => simp [Side.node, inorder, he, hnear, hfar]
  | right => simp [Side.node, inorder, he, hnear, hfar]

/-- A rotation keeps the order. -/
theorem values_rotate (h : s.rotate t = some u) : values value u = values value t := by
  unfold Side.rotate at h
  obtain ⟨⟨e, near, far⟩, hsplit, h⟩ := Option.bind_eq_some_iff.mp h
  obtain ⟨⟨f, inner, outer⟩, hsplit', h⟩ := Option.bind_eq_some_iff.mp h
  cases h
  rw [Side.eq_node_of_split hsplit, Side.eq_node_of_split hsplit']
  unfold values
  cases s with
  | left => simp [Side.node, inorder]
  | right => simp [Side.node, inorder]

/-- What is put at a place counts for its order only. -/
theorem values_plug_congr (h : values value t = values value u) :
    values value (p.plug t) = values value (p.plug u) := by
  unfold values at *
  simp only [TreePlace.inorder_plug, List.map_append, h]

end

/-! ## Balance -/

/-- A balanced tree: whether its root is red, and the number of black nodes on each path. -/
inductive Balanced (red : E → Bool) : BinaryTree E → Bool → ℕ → Prop
  /-- The empty tree is black. -/
  | nil : Balanced red .nil false 0
  /-- A red node has black children. -/
  | red {e : E} {l r : BinaryTree E} {n : ℕ} : red e = true → Balanced red l false n →
      Balanced red r false n → Balanced red (.node e l r) true n
  /-- A black node counts. -/
  | black {e : E} {l r : BinaryTree E} {c c' : Bool} {n : ℕ} : red e = false → Balanced red l c n →
      Balanced red r c' n → Balanced red (.node e l r) false (n + 1)

/-- A place for balanced trees: whether a red root may be put there, and the number of black
nodes that a path in the tree must have. The root of the whole tree is black. -/
inductive Awaits (red : E → Bool) : TreePlace E → Bool → ℕ → Prop
  /-- The place of the root. -/
  | root {n : ℕ} : Awaits red [] false n
  /-- The parent is black. -/
  | black {f : Frame E} {p : TreePlace E} {c a : Bool} {n : ℕ} : red f.parent = false →
      Balanced red f.sibling c n → Awaits red p a (n + 1) → Awaits red (f :: p) true n
  /-- The parent is red. -/
  | red {f : Frame E} {p : TreePlace E} {n : ℕ} : red f.parent = true →
      Balanced red f.sibling false n → Awaits red p true n → Awaits red (f :: p) false n

/-- A red-black tree: it is balanced, and its root is black. -/
def RedBlack (red : E → Bool) (t : BinaryTree E) : Prop := ∃ n, Balanced red t false n

section

variable {red : E → Bool} {c c' a : Bool} {n : ℕ}

/-- A red node over black subtrees of one height, on either side. -/
theorem Balanced.red_node (he : red e = true) (hnear : Balanced red near false n)
    (hfar : Balanced red far false n) : Balanced red (s.node e near far) true n := by
  cases s with
  | left => exact .red he hnear hfar
  | right => exact .red he hfar hnear

/-- A black node over subtrees of one height, on either side. -/
theorem Balanced.black_node (he : red e = false) (hnear : Balanced red near c n)
    (hfar : Balanced red far c' n) : Balanced red (s.node e near far) false (n + 1) := by
  cases s with
  | left => exact .black he hnear hfar
  | right => exact .black he hfar hnear

/-- A red tree is not empty. -/
theorem Balanced.ne_nil_of_red (h : Balanced red t true n) : t ≠ .nil := by
  rintro rfl
  cases h

/-- A tree of positive height is not empty. -/
theorem Balanced.ne_nil_of_succ (h : Balanced red t c (n + 1)) : t ≠ .nil := by
  rintro rfl
  cases h

/-- The color of the root. -/
theorem Balanced.root_eq (h : Balanced red (s.node e near far) c n) : red e = c := by
  cases s with
  | left =>
    cases h with
    | red he _ _ => exact he
    | black he _ _ => exact he
  | right =>
    cases h with
    | red he _ _ => exact he
    | black he _ _ => exact he

/-- The children of a red node. -/
theorem Balanced.of_red (h : Balanced red (s.node e near far) true n) :
    red e = true ∧ Balanced red near false n ∧ Balanced red far false n := by
  cases s with
  | left =>
    cases h with
    | red he hnear hfar => exact ⟨he, hnear, hfar⟩
  | right =>
    cases h with
    | red he hfar hnear => exact ⟨he, hnear, hfar⟩

/-- The children of a black node. -/
theorem Balanced.of_black (h : Balanced red (s.node e near far) false n) :
    red e = false ∧ ∃ m c c', n = m + 1 ∧ Balanced red near c m ∧ Balanced red far c' m := by
  cases s with
  | left =>
    cases h with
    | black he hnear hfar => exact ⟨he, _, _, _, rfl, hnear, hfar⟩
  | right =>
    cases h with
    | black he hfar hnear => exact ⟨he, _, _, _, rfl, hnear, hfar⟩

/-- A balanced tree at its place makes a red-black tree. -/
theorem Awaits.plug (h : Awaits red p a n) (ht : Balanced red t c n) (hc : c = true → a = true) :
    RedBlack red (p.plug t) := by
  induction h generalizing t c with
  | root =>
    cases c with
    | false => exact ⟨_, ht⟩
    | true => cases hc rfl
  | black he hsibling _ ih =>
    rw [TreePlace.plug_cons]
    apply ih (.black_node he ht hsibling)
    intro hfalse
    cases hfalse
  | red he hsibling _ ih =>
    rw [TreePlace.plug_cons]
    cases c with
    | false =>
      apply ih (.red_node he ht hsibling)
      exact fun _ => rfl
    | true => cases hc rfl

/-- Each subtree of a red-black tree is balanced, and its place awaits it. -/
theorem RedBlack.unplug (h : RedBlack red (p.plug t)) :
    ∃ c a n, Balanced red t c n ∧ Awaits red p a n ∧ (c = true → a = true) := by
  induction p generalizing t with
  | nil =>
    obtain ⟨n, h⟩ := h
    refine ⟨false, false, n, h, .root, fun hfalse => ?_⟩
    cases hfalse
  | cons frame p ih =>
    rw [TreePlace.plug_cons] at h
    obtain ⟨c, a, n, hnode, hp, hc⟩ := ih h
    cases c with
    | true =>
      obtain ⟨he, ht, hsibling⟩ := hnode.of_red
      obtain rfl := hc rfl
      refine ⟨false, false, n, ht, .red he hsibling hp, fun hfalse => ?_⟩
      cases hfalse
    | false =>
      obtain ⟨he, m, c, c', rfl, ht, hsibling⟩ := hnode.of_black
      exact ⟨c, true, m, ht, .black he hsibling hp, fun _ => rfl⟩

/-! ## Height -/

/-- A balanced tree has so many nodes, and is at most twice as high as a path has black nodes. -/
theorem Balanced.bounds (h : Balanced red t c n) :
    2 ^ n ≤ t.numNodes + 1 ∧ t.height ≤ 2 * n + c.toNat := by
  induction h with
  | nil => simp [BinaryTree.numNodes, BinaryTree.height]
  | red he hl hr ihl ihr =>
    simp only [BinaryTree.numNodes, BinaryTree.height, Bool.toNat_true, Bool.toNat_false] at *
    omega
  | @black e l r c c' n he hl hr ihl ihr =>
    have hc : c.toNat ≤ 1 := Bool.toNat_le c
    have hc' : c'.toNat ≤ 1 := Bool.toNat_le c'
    simp only [BinaryTree.numNodes, BinaryTree.height, Bool.toNat_false, pow_succ] at *
    omega

/-- A red-black tree is at most twice as high as the logarithm of its size. -/
theorem RedBlack.height_le (h : RedBlack red t) : t.height ≤ 2 * Nat.log 2 (t.numNodes + 1) := by
  obtain ⟨n, h⟩ := h
  obtain ⟨hsize, hheight⟩ := h.bounds
  have hlog : n ≤ Nat.log 2 (t.numNodes + 1) := Nat.le_log_of_pow_le Nat.one_lt_two hsize
  rw [Bool.toNat_false] at hheight
  omega

end

end Efs.Library
