import Efs.Library.OrdMap
import Efs.Library.TreePlace

/-!
# Maps

`map.c` on the trees of `rbtree.c`. A node of a tree is known by its address. The two
functions of `rbtree.c` that change the shape of a tree are parameters; the walks over a
tree, which stop at parents and children, are here.

Memory never runs out.
-/

namespace Efs

open Library

/-- `RB_RED`, `RB_BLACK`. -/
inductive RbColor
  | red
  | black
  deriving DecidableEq

/-- `treenode`, with its address. -/
structure TreeNode (α : Type) where
  /-- The address. -/
  addr : ℕ
  /-- `id`. -/
  id : ℕ
  /-- `data`. -/
  data : α

/-- A tree of `rb_node`s. -/
abbrev RbTree (α : Type) := BinaryTree (RbColor × TreeNode α)

/-- `rb_insert_color` and `rb_erase`, of the node at an address. -/
structure Rebalance (α : Type) where
  /-- `rb_insert_color`. -/
  rbInsertColor : ℕ → RbTree α → RbTree α
  /-- `rb_erase`. -/
  rbErase : ℕ → RbTree α → RbTree α

variable {α : Type}

/-! ## Trees -/

/-- The nodes of a tree in order. -/
def nodesOf (root : RbTree α) : List (TreeNode α) := (inorder root).map Prod.snd

/-- `rb_search`. -/
def rbSearch (id : ℕ) : RbTree α → Option (TreeNode α)
  | .nil => none
  | .node (_, data) left right =>
    if id < data.id then rbSearch id left
    else if data.id < id then rbSearch id right
    else some data

/-- The loop of `rb_insert`: the link for the new node, `none` when the id is there. -/
def rbInsertLink (id : ℕ) : RbTree α → TreePlace (RbColor × TreeNode α) →
    Option (TreePlace (RbColor × TreeNode α))
  | .nil, new => some new
  | .node this left right, new =>
    if id < this.2.id then rbInsertLink id left (.left this right :: new)
    else if this.2.id < id then rbInsertLink id right (.right this left :: new)
    else none

/-- `rb_link_node`. -/
def rbLinkNode (node : TreeNode α) (link : TreePlace (RbColor × TreeNode α)) : RbTree α :=
  link.plug (.node (.red, node) .nil .nil)

/-- `rb_first`. -/
def rbFirst (root : RbTree α) : Option (TreeNode α) := (leftmost root).map Prod.snd

/-- `rb_next` of the node at an address of a tree; `none` when no node is there. -/
def rbNext (addr : ℕ) (root : RbTree α) : Option (Option (TreeNode α)) :=
  (locate (fun node => node.2.addr = addr) root []).map fun node => node.next.map Prod.snd

/-! ## Maps -/

/-- The maps, by their numbers, and the globals that they share. -/
structure Maps (α : Type) where
  /-- `tree_root` of each map. -/
  treeRoot : ℕ → RbTree α
  /-- The next address that `malloc` gives for a node. -/
  nextNode : ℕ
  /-- `p` of `map_clear_iter`: a map and the address of a node in it, or a null pointer. -/
  cursor : Option (ℕ × ℕ)

/-- The state that a program begins with. -/
def Maps.start : Maps α := ⟨fun _ => .nil, 0, none⟩

namespace Maps

/-- A change of one map. -/
def setRoot (s : Maps α) (mp : ℕ) (root : RbTree α) : Maps α :=
  { s with treeRoot := Function.update s.treeRoot mp root }

/-- `map_init`. -/
def init (s : Maps α) (mp : ℕ) : Maps α := s.setRoot mp .nil

section

variable (R : Rebalance α)

/-- `map_insert`: what it returns. The node of an insertion that fails is given back. -/
def insert (s : Maps α) (mp id : ℕ) (data : α) : ℕ × Maps α :=
  let newnode : TreeNode α := ⟨s.nextNode, id, data⟩
  match rbInsertLink id (s.treeRoot mp) [] with
  | none => (1, s)
  | some link =>
    let root := R.rbInsertColor newnode.addr (rbLinkNode newnode link)
    (0, { s.setRoot mp root with nextNode := s.nextNode + 1 })

/-- `map_search`. -/
def search (s : Maps α) (mp id : ℕ) : Option α := (rbSearch id (s.treeRoot mp)).map (·.data)

/-- `map_delete`: what it returns, and what it stores at `tofree`. -/
def delete (s : Maps α) (mp id : ℕ) : (ℕ × Option α) × Maps α :=
  match rbSearch id (s.treeRoot mp) with
  | none => ((1, none), s)
  | some result =>
    ((0, some result.data), s.setRoot mp (R.rbErase result.addr (s.treeRoot mp)))

end

/-- `map_clear_iter`: the id and the data, or a null pointer. The node of the cursor need not be
in the map that is asked for. `none` when the node of the cursor is gone. -/
def clearIter (s : Maps α) (mp : ℕ) : Option (Option (ℕ × α) × Maps α) :=
  let next := match s.cursor with
    | none => some (mp, rbFirst (s.treeRoot mp))
    | some (mp', addr) => (rbNext addr (s.treeRoot mp')).map (mp', ·)
  next.map fun (mp', p) =>
    (p.map fun t => (t.id, t.data), { s with cursor := p.map fun t => (mp', t.addr) })

/-- A loop over `map_clear_iter` until it returns a null pointer, with at most `n` calls. -/
def clearLoop (mp : ℕ) : ℕ → Maps α → Option (List (ℕ × α) × Maps α)
  | 0, _ => none
  | n + 1, s =>
    match s.clearIter mp with
    | none => none
    | some (none, s') => some ([], s')
    | some (some e, s') => (clearLoop mp n s').map fun (rest, s'') => (e :: rest, s'')

end Maps

/-- A call that changes or searches a map. -/
inductive MapCall (α : Type)
  | init (mp : ℕ)
  | insert (mp id : ℕ) (data : α)
  | delete (mp id : ℕ)
  | search (mp id : ℕ)

/-- The state after a call. -/
def MapCall.after (R : Rebalance α) (s : Maps α) : MapCall α → Maps α
  | .init mp => s.init mp
  | .insert mp id data => (s.insert R mp id data).2
  | .delete mp id => (s.delete R mp id).2
  | .search _ _ => s

/-- The state after calls, the last of them first. -/
def Maps.after (R : Rebalance α) : List (MapCall α) → Maps α
  | [] => .start
  | call :: past => call.after R (Maps.after R past)

end Efs
