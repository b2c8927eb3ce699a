import Efs.Library.RedBlack
import Efs.MapSemantics

/-!
# The trees of the bundled library

`rb_insert_color` and `rb_erase` of `rbtree.c`. A node is a tree at its place. The two branches of
each loop mirror each other and are one definition for both sides. A null pointer that is followed
is `none`.
-/

namespace Efs

open Library

variable {α : Type}

/-- A place in a tree of `rb_node`s. -/
abbrev RbPlace (α : Type) := TreePlace (RbColor × TreeNode α)

/-- The nodes that are red, for the library. -/
def rbRed (e : RbColor × TreeNode α) : Bool := e.1 = .red

/-- `rb_set_color` of a node. -/
def rbSetColor (c : RbColor) (e : RbColor × TreeNode α) : RbColor × TreeNode α := (c, e.2)

/-- The test for a node that is there and is red. -/
def rbIsRed : RbTree α → Bool
  | .nil => false
  | .node e _ _ => rbRed e

/-- `rb_set_black` of the root of a tree, which must be there. -/
def rbSetBlack : RbTree α → Option (RbTree α)
  | .nil => none
  | .node e left right => some (.node (rbSetColor .black e) left right)

/-- `rb_set_black` of the root of a tree if there is one. -/
def rbBlacken : RbTree α → RbTree α
  | .nil => .nil
  | .node e left right => .node (rbSetColor .black e) left right

/-! ## Insertion -/

/-- The first rotation of a round of `rb_insert_color`: the tree in the place of the parent. A
node on the far side goes up, and takes the part of the parent. -/
def rbInsertTurn (side : Side) (node : RbTree α) (parent : Frame (RbColor × TreeNode α)) :
    Option (RbTree α) :=
  let top := parent.side.node parent.parent node parent.sibling
  if parent.side = side then some top else side.rotate top

/-- The rotations of a round of `rb_insert_color`: the tree in the place of the grandparent. -/
def rbInsertRotate (node : RbTree α) (parent gparent : Frame (RbColor × TreeNode α)) :
    Option (RbTree α) := do
  let top ← rbInsertTurn gparent.side node parent
  let top ← rbSetBlack top
  gparent.side.other.rotate (gparent.side.node (rbSetColor .red gparent.parent) top gparent.sibling)

/-- The loop of `rb_insert_color`, from a node that is there, up to its last statement. -/
def rbInsertColorFrom (node : RbTree α) : RbPlace α → Option (RbTree α)
  | [] => rbSetBlack node
  | [parent] =>
    if rbRed parent.parent then none
    else rbSetBlack (TreePlace.plug node [parent])
  | parent :: gparent :: place =>
    if rbRed parent.parent then
      if rbIsRed gparent.sibling then
        let top := parent.side.node (rbSetColor .black parent.parent) node parent.sibling
        rbInsertColorFrom (gparent.side.node (rbSetColor .red gparent.parent) top
          (rbBlacken gparent.sibling)) place
      else do
        -- The parent is black now, and the loop ends.
        let top ← rbInsertRotate node parent gparent
        rbSetBlack (TreePlace.plug top place)
    else rbSetBlack (TreePlace.plug node (parent :: gparent :: place))

/-- `rb_insert_color` of the node at an address. -/
def rbInsertColor (addr : ℕ) (root : RbTree α) : Option (RbTree α) := do
  let node ← locate (fun e => e.2.addr = addr) root []
  rbInsertColorFrom (.node node.value node.left node.right) node.place

/-! ## Removal -/

/-- The first rotation of a round of `__rb_erase_color`: the sibling with a far child that is
red. -/
def rbEraseTurn (side : Side) (other : RbTree α) : Option (RbTree α) := do
  let (e, near, far) ← side.split other
  if rbIsRed far then some other
  else do
    let near ← rbSetBlack near
    side.other.rotate (side.node (rbSetColor .red e) near far)

/-- The part of a round of `__rb_erase_color` behind the first `if`, for the child of the parent on
the side, with a sibling `other` that is black: the tree in the place of the parent, and whether
the loop goes on at the parent. -/
def rbEraseRound (side : Side) (parent : RbColor × TreeNode α) (node other : RbTree α) :
    Option (Bool × RbTree α) := do
  let (e, near, far) ← side.split other
  if !rbIsRed near && !rbIsRed far then
    some (true, side.node parent node (side.node (rbSetColor .red e) near far))
  else do
    let other ← rbEraseTurn side other
    let (e, near, far) ← side.split other
    let far ← rbSetBlack far
    let top ← side.rotate (side.node (rbSetColor .black parent) node
      (side.node (rbSetColor parent.1 e) near far))
    some (false, top)

/-- `__rb_erase_color`. -/
def rbEraseColor (node : RbTree α) : RbPlace α → Option (RbTree α)
  | [] => some (rbBlacken node)
  | frame :: place =>
    if rbIsRed node then some (TreePlace.plug (rbBlacken node) (frame :: place))
    else do
      let (e, near, far) ← frame.side.split frame.sibling
      if rbRed e then do
        let (up, top) ← rbEraseRound frame.side (rbSetColor .red frame.parent) node near
        let place := frame.side.frame (rbSetColor .black e) far :: place
        -- The parent is red, and the loop ends at it.
        if up then some (TreePlace.plug (rbBlacken top) place)
        else rbSetBlack (TreePlace.plug top place)
      else do
        let (up, top) ← rbEraseRound frame.side frame.parent node frame.sibling
        if up then rbEraseColor top place
        else rbSetBlack (TreePlace.plug top place)

/-- The walk of `rb_erase` along the left links, from a place in the right subtree. -/
def rbSuccessor : RbTree α → RbPlace α → Option (Located (RbColor × TreeNode α))
  | .nil, _ => none
  | .node e .nil right, place => some ⟨e, .nil, right, place⟩
  | .node e (.node e' left' right') right, place => rbSuccessor (.node e' left' right')
    (.left e right :: place)

/-- The end of `rb_erase`, with the subtree that takes the place and the color that goes. -/
def rbEraseEnd (color : RbColor) (child : RbTree α) (place : RbPlace α) : Option (RbTree α) :=
  if color = .black then rbEraseColor child place else some (TreePlace.plug child place)

/-- `rb_erase` of a node. -/
def rbEraseNode (node : Located (RbColor × TreeNode α)) : Option (RbTree α) :=
  match node.left, node.right with
  | .nil, child => rbEraseEnd node.value.1 child node.place
  | child, .nil => rbEraseEnd node.value.1 child node.place
  | left, right => do
    let next ← rbSuccessor right []
    rbEraseEnd next.value.1 next.right
      (next.place ++ .right (rbSetColor node.value.1 next.value) left :: node.place)

/-- `rb_erase` of the node at an address. -/
def rbErase (addr : ℕ) (root : RbTree α) : Option (RbTree α) := do
  let node ← locate (fun e => e.2.addr = addr) root []
  rbEraseNode node

/-- The bundled functions; a call that follows a null pointer leaves the tree. -/
def Rebalance.bundled : Rebalance α where
  rbInsertColor addr root := (Efs.rbInsertColor addr root).getD root
  rbErase addr root := (Efs.rbErase addr root).getD root

end Efs
