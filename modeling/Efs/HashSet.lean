import Efs.Library.Bytes
import Efs.Library.Probing

/-!
# The set of open paths

`set.h` and `set.c`, the hash set in which `file.c` registers the paths that are
open, as far as `file.c` uses it. Memory never runs out.
-/

namespace Efs

open Library Probing

/-- A string, without the zero that ends it. -/
abbrev CStr := List Byte

/-- `set_node`. -/
structure SetNode where
  /-- `_key`. -/
  key : CStr
  /-- `_hash`. -/
  hash : ℕ
  deriving DecidableEq

/-- `set_t`. -/
structure PathSet where
  /-- `nodes`, with `none` for a null pointer. -/
  nodes : ℕ → Option SetNode
  /-- `number_nodes`. -/
  numberNodes : ℕ
  /-- `used_nodes`. -/
  usedNodes : ℕ

/-- What the functions of the set return. -/
inductive SetResult
  /-- `SET_TRUE`. -/
  | isTrue
  /-- `SET_FALSE`. -/
  | isFalse
  /-- `SET_CIRCULAR_ERROR`. -/
  | circularError
  /-- `SET_ALREADY_PRESENT`. -/
  | alreadyPresent
  deriving DecidableEq

/-- `__default_hash`, in 64-bit arithmetic. -/
def defaultHash (key : CStr) : ℕ :=
  key.foldl (fun h c => (h ^^^ c.toNat) * 1099511628211 % 2 ^ 64) 14695981039346656037

/-- The node that is made for a key. -/
def setNode (key : CStr) : SetNode := ⟨key, defaultHash key⟩

/-- The conversion of an integer to `float`: its 24 leading bits, rounded to the
nearest, half to even. -/
def toFloat (n : ℕ) : ℕ :=
  let e := n.log2 - 23
  let q := n / 2 ^ e
  let r := n % 2 ^ e
  if 2 ^ e < 2 * r ∨ 2 ^ e = 2 * r ∧ q % 2 = 1 then (q + 1) * 2 ^ e else q * 2 ^ e

namespace PathSet

/-- `set_init`. -/
def init : PathSet := ⟨fun _ => none, 1024, 0⟩

/-- `__get_index`. A node is compared by its hash and its key. -/
def getIndex (set : PathSet) (node : SetNode) : Probe :=
  probe set.nodes set.numberNodes node set.numberNodes (node.hash % set.numberNodes)

/-- `set_contains`. -/
def contains (set : PathSet) (key : CStr) : SetResult :=
  match set.getIndex (setNode key) with
  | .found _ => .isTrue
  | .free _ => .isFalse
  | .full => .circularError

/-- `__assign_node`. -/
def assignNode (set : PathSet) (node : SetNode) (index : ℕ) : PathSet :=
  { set with nodes := Function.update set.nodes index (some node) }

/-- `__free_index`. -/
def freeIndex (set : PathSet) (index : ℕ) : PathSet :=
  { set with nodes := Function.update set.nodes index none }

/-- The loop of `__relayout_nodes` over the last `n` slots, from the slot `i` on.
`index` keeps its value when a search makes a full turn. -/
def relayoutFrom (start : ℕ) (endOnNull : Bool) : ℕ → ℕ → ℕ → PathSet → PathSet
  | 0, _, _, set => set
  | n + 1, i, index, set =>
    match set.nodes i with
    | some node =>
      let index := match set.getIndex node with
        | .found j => j
        | .free j => j
        | .full => index
      let set := if i ≠ index then (set.assignNode node index).freeIndex i else set
      relayoutFrom start endOnNull n (i + 1) index set
    | none =>
      if endOnNull = false ∧ i ≠ start then set
      else relayoutFrom start endOnNull n (i + 1) index set

/-- `__relayout_nodes`. -/
def relayoutNodes (set : PathSet) (start : ℕ) (endOnNull : Bool) : PathSet :=
  relayoutFrom start endOnNull (set.numberNodes - start) start 0 set

/-- The part of `__set_add` that doubles the table. -/
def grow (set : PathSet) : PathSet :=
  relayoutNodes { set with
    nodes := fun i => if i < set.numberNodes then set.nodes i else none
    numberNodes := set.numberNodes * 2 } 0 true

/-- `set_add`. -/
def add (set : PathSet) (key : CStr) : SetResult × PathSet :=
  if set.contains key = .isTrue then (.alreadyPresent, set)
  else
    let set := if toFloat set.numberNodes < 4 * toFloat set.usedNodes then set.grow else set
    match set.getIndex (setNode key) with
    | .free index =>
      (.isTrue, { set.assignNode (setNode key) index with usedNodes := set.usedNodes + 1 })
    | .found _ => (.isTrue, set)
    | .full => (.circularError, set)

/-- `set_remove`. -/
def remove (set : PathSet) (key : CStr) : SetResult × PathSet :=
  match set.getIndex (setNode key) with
  | .free _ => (.isFalse, set)
  | .full => (.circularError, set)
  | .found index =>
    let set := (set.freeIndex index).relayoutNodes index false
    (.isTrue, { set with usedNodes := set.usedNodes - 1 })

end PathSet

end Efs
