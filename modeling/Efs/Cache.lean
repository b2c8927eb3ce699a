import Efs.World
import Efs.Queue

/-!
# The cache

`cache.h` and `cache.c`: nodes enter through a fifo queue and are promoted to an
lru queue when they are accessed again. A client gives each cache a callback,
which gets a node when the node is evicted or the cache is closed.

The lock of a cache is taken and given back inside of each call and is left out;
the locks of the nodes are kept, since callers hold them from call to call.
-/

namespace Efs

open Library

variable {σ α : Type}

/-- `cache_t` with its nodes, without the callback. -/
structure Cache (α : Type) where
  /-- `fifo`. -/
  fifo : Queue α
  /-- `lru`. -/
  lru : Queue α
  /-- The nodes that left both queues and were not freed. -/
  leaked : List (Node α)
  /-- The next address that `malloc` gives. -/
  nextAddr : ℕ
  /-- A queue links a freed node. No call is followed from there. -/
  dangling : Bool
  deriving DecidableEq

namespace Cache

/-- A cache after `cache_init`. -/
def empty : Cache α := ⟨.empty, .empty, [], 0, false⟩

/-- The nodes of the two queues. -/
def nodes (c : Cache α) : List (Node α) := c.lru.nodes ++ c.fifo.nodes

/-- What `cache_find` did, before it frees a node. -/
structure Found (α : Type) where
  /-- The cache. -/
  cache : Cache α
  /-- The result, `none` for a null pointer. -/
  node : Option (Node α)
  /-- The node to free. -/
  tofree : Option (Node α)
  /-- A move to the head evicted a node. -/
  overflow : Bool
  /-- The node looked up is in neither queue any more. -/
  lost : Bool

/-- `cache_find` under the lock of the cache. -/
def find (c : Cache α) (id : ℕ) (access : Bool) : Found α :=
  match c.lru.search id with
  | some res =>
    if access then
      match c.lru.moveToHead res with
      | .done lru none => ⟨{ c with lru }, some res, none, false, false⟩
      | .done lru (some evicted) =>
        ⟨{ c with lru, leaked := evicted :: c.leaked }, some res, none, true, false⟩
      | _ => ⟨{ c with lru := c.lru.evict id, leaked := res :: c.leaked }, none, none, false, true⟩
    else ⟨c, some res, none, false, false⟩
  | none =>
    match c.fifo.search id with
    | some res =>
      if access then
        match c.lru.insertToHead res with
        | .done lru tofree =>
          ⟨{ c with fifo := c.fifo.evict id, lru }, some res, tofree, false, false⟩
        | _ =>
          ⟨{ c with fifo := c.fifo.evict id, leaked := res :: c.leaked }, none, none, false, true⟩
      else ⟨c, some res, none, false, false⟩
    | none => ⟨c, none, none, false, false⟩

/-- A store into the node at an address. -/
def modify (c : Cache α) (addr : ℕ) (f : Node α → Node α) : Cache α :=
  { c with fifo := c.fifo.modify addr f, lru := c.lru.modify addr f }

/-- What the pointer to the content of the node at an address points to. -/
def contentAt (c : Cache α) (addr : ℕ) : Option α :=
  (c.nodes.find? (·.addr = addr)).bind (·.content)

/-- The node that `cache_insert_get` allocates. -/
def newNode (c : Cache α) (id : ℕ) : Node α :=
  ⟨c.nextAddr, id, 1, false, false, none, false⟩

/-- `cache_insert_get` under the lock of the cache: the cache, whether the node
is in it, and the node to free. When the id map of the fifo holds the id already,
the new node is freed although the list links it, and the evicted node is
forgotten. -/
def insert (c : Cache α) (id : ℕ) : Cache α × Bool × Option (Node α) :=
  match c.fifo.insertToHead (c.newNode id) with
  | .noRoom => ({ c with nextAddr := c.nextAddr + 1 }, false, none)
  | .clash fifo evicted =>
    ({ c with fifo, leaked := evicted.toList ++ c.leaked, nextAddr := c.nextAddr + 1,
              dangling := true }, false, none)
  | .done fifo tofree => ({ c with fifo, nextAddr := c.nextAddr + 1 }, true, tofree)

end Cache

/-! ## The calls -/

/-- Where a cache lives in the state, and its `content_cb_write`. -/
structure CacheOf (σ α : Type) where
  /-- The cache of a state. -/
  get : σ → Cache α
  /-- The state with another cache. -/
  set : Cache α → σ → σ
  /-- `content_cb_write`, true when it fails. -/
  contentCbWrite : Option α → ℕ → Bool → Bool → Exec Halt σ Bool
  /-- Whether a run is followed past the loss of a node in `cache_find`. -/
  followsLoss : Bool

section Calls

variable (w : World) (k : CacheOf σ α)

/-- Calls are followed only while the queues link no freed node. -/
def cacheAlive : Exec Halt σ Unit := do
  let dangling ← Exec.read fun s => (k.get s).dangling
  Exec.when dangling (Exec.stop .undefinedBehaviour)

/-- A store into the node at an address. -/
def nodeStore (addr : ℕ) (f : Node α → Node α) : Exec Halt σ Unit :=
  Exec.update fun s => k.set ((k.get s).modify addr f) s

/-- `node_free` of a node that left the queues, true when it fails. -/
def nodeFree (node : Node α) : Exec Halt σ Bool := do
  let failed ← k.contentCbWrite node.content node.id node.dirty node.deleted
  Exec.when failed do
    Exec.update fun s => k.set { k.get s with leaked := node :: (k.get s).leaked } s
  return failed

/-- The statement `if(tofree != NULL)` of the callers of `node_free`. -/
def freeEvicted : Option (Node α) → Exec Halt σ Unit
  | none => pure ()
  | some node => do
    let failed ← nodeFree k node
    Exec.when failed (panic w .cannotWriteBackNode)

/-- `cache_find`. -/
def cacheFind (id : ℕ) (access : Bool) : Exec Halt σ (Option (Node α)) := do
  cacheAlive k
  let found ← Exec.read fun s => (k.get s).find id access
  Exec.update (k.set found.cache)
  Exec.when (found.lost && !k.followsLoss) (Exec.stop .nodeLost)
  Exec.when found.overflow (panic w .moveToHeadOverflow)
  freeEvicted w k found.tofree
  return found.node

/-- A lookup that evicts nothing. -/
theorem cacheFind_eq {w : World} {k : CacheOf σ α} {id : ℕ} {access : Bool} {s : σ}
    {found : Cache.Found α} (halive : (k.get s).dangling = false)
    (hfind : (k.get s).find id access = found) (hoverflow : found.overflow = false)
    (htofree : found.tofree = none) (hlost : found.lost = false ∨ k.followsLoss = true) :
    cacheFind w k id access s = .ok (found.node, k.set found.cache s) := by
  have hlost' : (found.lost && !k.followsLoss) = false := by
    rcases hlost with hlost | hlost <;> simp [hlost]
  simp only [cacheFind, cacheAlive, Exec.bind_apply, Exec.read_apply, Exec.when, halive,
    Bool.false_eq_true, if_false, Exec.pure_apply, hfind, Exec.update_apply, hoverflow, htofree,
    hlost', freeEvicted]

/-- `node_lock`. -/
def nodeLock (node : Node α) : Exec Halt σ Unit := do
  Exec.when node.locked (Exec.stop .deadlock)
  nodeStore k node.addr ({ · with locked := true })

/-- `node_unlock`. -/
def nodeUnlock (node : Node α) : Exec Halt σ Unit :=
  nodeStore k node.addr ({ · with locked := false })

/-- `cache_node_lock`, true when it fails. -/
def cacheNodeLock (id : ℕ) : Exec Halt σ Bool := do
  match ← cacheFind w k id false with
  | none => return true
  | some node => nodeLock k node; return false

/-- `cache_node_unlock`, true when it fails. -/
def cacheNodeUnlock (id : ℕ) : Exec Halt σ Bool := do
  match ← cacheFind w k id false with
  | none => return true
  | some node => nodeUnlock k node; return false

/-- `cache_insert_get`: the address of the node whose content slot it returns. -/
def cacheInsertGet (id : ℕ) (lock : Bool) : Exec Halt σ (Option ℕ) := do
  cacheAlive k
  let node ← Exec.read fun s => (k.get s).newNode id
  let (cache, inserted, tofree) ← Exec.read fun s => (k.get s).insert id
  Exec.update (k.set cache)
  if inserted then
    freeEvicted w k tofree
    Exec.when lock (nodeLock k node)
    return some node.addr
  else return none

/-- `cache_try_get`, without the counters of accesses and misses. -/
def cacheTryGet (id : ℕ) (lock access : Bool) : Exec Halt σ (Option ℕ) := do
  match ← cacheFind w k id access with
  | none => return none
  | some node =>
    nodeLock k node
    if node.deleted then
      nodeUnlock k node
      return none
    nodeStore k node.addr fun n => { n with refcnt := n.refcnt + 1 }
    Exec.when (!lock) (nodeUnlock k node)
    return node.pointer

/-- The protocol of `iget_from_cache` and `bget_from_cache_lock`: `cache_try_get`,
and when that gives a null pointer `cache_insert_get`, whose slot is then set to
what was `loaded`. Neither caller checks the slot pointer. -/
def cacheGetOrInsert (id : ℕ) (lock : Bool) (loaded : Option α) : Exec Halt σ (Option ℕ) := do
  match ← cacheTryGet w k id lock true with
  | some pointer => return some pointer
  | none =>
    match ← cacheInsertGet w k id lock with
    | none => Exec.stop .nullDeref
    | some addr =>
      nodeStore k addr ({ · with content := loaded })
      return loaded.map fun _ => addr

/-- `cache_make_dirty`, true when it fails. -/
def cacheMakeDirty (id : ℕ) : Exec Halt σ Bool := do
  match ← cacheFind w k id false with
  | none => return true
  | some node =>
    nodeStore k node.addr ({ · with dirty := true })
    return false

/-- `cache_make_deleted`, true when it fails. -/
def cacheMakeDeleted (id : ℕ) : Exec Halt σ Bool := do
  match ← cacheFind w k id false with
  | none => return true
  | some node =>
    nodeStore k node.addr ({ · with deleted := true })
    return false

/-- The statements `if(node->refcnt <= 0) panic(..); node->refcnt--`, in unsigned
32-bit arithmetic. -/
def dropReference (node : Node α) : Exec Halt σ Unit := do
  Exec.when (node.refcnt = 0) (panic w .returnOfUnreferenced)
  nodeStore k node.addr fun n =>
    { n with refcnt := if n.refcnt = 0 then 2 ^ 32 - 1 else n.refcnt - 1 }

/-- `cache_return`, true when it fails. -/
def cacheReturn (id : ℕ) : Exec Halt σ Bool := do
  match ← cacheFind w k id false with
  | none => return true
  | some node =>
    nodeLock k node
    dropReference w k node
    nodeUnlock k node
    return false

/-- `cache_unlock_return`, true when it fails. -/
def cacheUnlockReturn (id : ℕ) : Exec Halt σ Bool := do
  match ← cacheFind w k id false with
  | none => return true
  | some node =>
    dropReference w k node
    nodeUnlock k node
    return false

/-- The loop of `cache_exit` over a list of nodes. -/
def freeNodes : List (Node α) → Exec Halt σ Unit
  | [] => pure ()
  | node :: rest => do
    let _ ← nodeFree k node
    freeNodes rest

/-- `cache_exit`: every node goes to the callback, the fifo first. The heads of
the queues are left linked to freed nodes, and the lengths as they are. -/
def cacheExit : Exec Halt σ Unit := do
  cacheAlive k
  let fifo ← Exec.read fun s => (k.get s).fifo.nodes
  freeNodes k fifo
  let lru ← Exec.read fun s => (k.get s).lru.nodes
  freeNodes k lru
  Exec.update fun s =>
    k.set { k.get s with fifo.nodes := [], lru.nodes := [], dangling := true } s

end Calls

end Efs
