import Efs.InodeIndex
import Efs.Keeping

/-!
# The size of an inode

Which calls change the size that a pointer to an inode gives: only `inode_rw_data`
after a write that came to its end does. A call that locks, unlocks or marks an inode
and every round of a transfer leave it, whatever fails in them.
-/

namespace Efs

open Library

/-- What the pointer `ip` gives as the size of its inode. -/
def Sys.sizeAt (ip : ℕ) (s : Sys) : Option ℕ := (s.icac.contentAt ip).map (·.size)

/-- A store that leaves the sizes of the contents of nodes. -/
def KeepsSizes (g : Node Inode → Node Inode) : Prop :=
  ∀ n, (g n).addr = n.addr ∧ (g n).content.map (·.size) = n.content.map (·.size)

section

variable {w : World} {ip : ℕ} {c : Cache Inode} {g : Node Inode → Node Inode} {addr : ℕ}

/-- What a pointer points to after a store into a node. -/
theorem contentAt_modify (hg : ∀ n, (g n).addr = n.addr) :
    (c.modify addr g).contentAt ip = if ip = addr then
      (c.nodes.find? (·.addr = ip)).bind fun n => (g n).content else c.contentAt ip := by
  have hnodes : (c.modify addr g).nodes = c.nodes.map fun m =>
    if m.addr = addr then g m else m := by
    simp only [Cache.modify, Queue.modify, Cache.nodes, List.map_append]
  have haddr : ∀ m : Node Inode, (if m.addr = addr then g m else m).addr = m.addr := by
    intro m
    split_ifs
    · exact hg m
    · rfl
  have hpred : ((fun m : Node Inode => decide (m.addr = ip)) ∘
      fun m => if m.addr = addr then g m else m) = fun m => decide (m.addr = ip) := by
    funext m
    simp only [Function.comp_apply, haddr]
  rw [Cache.contentAt, hnodes, List.find?_map, hpred, Cache.contentAt]
  cases hfind : c.nodes.find? (·.addr = ip) with
  | none => simp
  | some m =>
    have hm : m.addr = ip := of_decide_eq_true (List.find?_some hfind :)
    by_cases heq : ip = addr
    · simp [hm, heq]
    · simp [hm, heq]

/-- A store that keeps the sizes keeps the size at each address. -/
theorem sizeAt_modify (hg : KeepsSizes g) :
    ((c.modify addr g).contentAt ip).map (·.size) = (c.contentAt ip).map (·.size) := by
  rw [contentAt_modify fun n => (hg n).1]
  split_ifs
  · rw [Cache.contentAt, Option.map_bind, Option.map_bind]
    exact congrArg _ (funext fun n => (hg n).2)
  · rfl

/-! ## Calls on inodes -/

/-- Reading an inode changes nothing. -/
theorem keeps_inodeAt {γ : Type} {f : Sys → γ} (a : ℕ) : Exec.Keeps f (inodeAt a) := by
  refine .bind (.read _) fun inode => ?_
  cases inode with
  | none => exact .stop _
  | some inode => exact .pure _

/-- A store into a node that keeps the sizes keeps the size. -/
theorem keepsSize_nodeStore (hg : KeepsSizes g) :
    Exec.Keeps (Sys.sizeAt ip) (nodeStore (icacOf w) addr g) :=
  .update fun _ => sizeAt_modify hg

/-- A lookup that is no access moves no node. -/
theorem OffData.cacheFind {γ : Type} {f : Sys → γ} (hf : OffData f) (id : ℕ) :
    Exec.Keeps f (Efs.cacheFind w (icacOf w) id false) := by
  have hfound : ∀ c : Cache Inode, (c.find id false).cache = c ∧
    (c.find id false).tofree = none := by
    intro c
    unfold Cache.find
    cases c.lru.search id with
    | some n => exact ⟨rfl, rfl⟩
    | none => cases c.fifo.search id <;> exact ⟨rfl, rfl⟩
  intro s node s' h
  obtain ⟨_, s₁, halive, hrest⟩ := Exec.bind_eq_ok.mp h
  have hs₁ : f s₁ = f s := Exec.Keeps.bind (.read _) (fun _ => .when (.stop _)) s _ s₁ halive
  rw [Exec.read_bind, Exec.update_bind] at hrest
  rw [← hs₁]
  refine (Exec.Keeps.bind (.when (.stop _)) fun _ => .bind (.when (keeps_panic _)) fun _ => ?_ :
    Exec.Keeps f _) _ _ _ hrest |>.trans ?_
  · rw [(hfound _).2]
    exact .bind (.pure _) fun _ => .pure _
  · apply hf
    · rw [(hfound _).1]
      rfl
    · rfl

/-- Only what the pointers to inodes point to is looked at. -/
def OfContents {γ : Type} (f : Sys → γ) : Prop :=
  ∀ s s' : Sys, s'.icac.contentAt = s.icac.contentAt → f s' = f s

/-- The size is part of the contents of the inode cache. -/
theorem ofContents_sizeAt : OfContents (Sys.sizeAt ip) := by
  intro s s' h
  rw [Sys.sizeAt, h, Sys.sizeAt]

/-- The contents are part of the inode cache. -/
theorem OfContents.ofIcac {γ : Type} {f : Sys → γ} (hf : OfContents f) : OfIcac f := by
  intro s s' h
  exact hf s s' (by rw [h])

section

variable {γ : Type} {f : Sys → γ} (hf : OfContents f)

include hf

/-- A store that leaves the content of a node. -/
theorem OfContents.nodeStore {g : Node Inode → Node Inode}
    (hg : ∀ n, (g n).addr = n.addr ∧ (g n).content = n.content) :
    Exec.Keeps f (Efs.nodeStore (icacOf w) addr g) := by
  refine .update fun s => hf _ _ (funext fun a => (contentAt_modify fun n => (hg n).1).trans ?_)
  split_ifs with h
  · rw [Cache.contentAt]
    exact congrArg _ (funext fun n => (hg n).2)
  · rfl

/-- A call that looks an inode up without an access, and then works on it. -/
theorem OfContents.of_find {β : Type} (id : ℕ) {x : Option (Node Inode) → Exec Halt Sys β}
    (hx : ∀ node, Exec.Keeps f (x node)) :
    Exec.Keeps f (Efs.cacheFind w (icacOf w) id false >>= x) :=
  .bind (hf.ofIcac.offData.cacheFind id) hx

/-- `inode_lock` keeps the contents. -/
theorem OfContents.inodeLock (a : ℕ) : Exec.Keeps f (inodeLock w a) := by
  refine .bind (keeps_inodeAt _) fun inode => hf.of_find _ fun node => ?_
  cases node with
  | none => exact .pure _
  | some n =>
    refine .bind (.bind (.when (.stop _)) fun _ => ?_) fun _ => .pure _
    exact hf.nodeStore fun _ => ⟨rfl, rfl⟩

/-- `inode_unlock` keeps the contents. -/
theorem OfContents.inodeUnlock (a : ℕ) : Exec.Keeps f (inodeUnlock w a) := by
  refine .bind (keeps_inodeAt _) fun inode => hf.of_find _ fun node => ?_
  cases node with
  | none => exact .pure _
  | some n => exact .bind (hf.nodeStore fun _ => ⟨rfl, rfl⟩) fun _ => .pure _

/-- A mark keeps the contents. -/
theorem OfContents.inodeMakeDirty (a : ℕ) : Exec.Keeps f (inodeMakeDirty w a) := by
  refine .bind (keeps_inodeAt _) fun inode => hf.of_find _ fun node => ?_
  cases node with
  | none => exact .pure _
  | some n => exact .bind (hf.nodeStore fun _ => ⟨rfl, rfl⟩) fun _ => .pure _

end

/-! ## One level of a lookup -/

section

variable {γ : Type} {f : Sys → γ} (hf : OffData f)

include hf

/-- Reading the hash of an entry leaves the inode cache alone. -/
theorem OffData.getRealHashIndex (bp i bid : ℕ) : Exec.Keeps f (getRealHashIndex w bp i bid) := by
  refine .bind (keeps_blockAt _) fun block => .bind (.read _) fun node => ?_
  cases node with
  | none => exact .pure _
  | some node =>
    refine .bind (hf.aside.dataStore _ _) fun _ => .bind (hf.aside.offDisk.pdWbDelete _) fun _ => ?_
    exact .bind (hf.aside.blockMakeDirty _) fun _ => .pure _

/-- A new entry in an index block leaves the inode cache alone. -/
theorem OffData.newEntry (bp bidx bid : ℕ) : Exec.Keeps f (newEntry w bp bidx bid) := by
  refine .bind hf.blockAlloc fun child => .bind (hf.aside.dataStore _ _) fun _ => ?_
  refine .ite (.pure _) (.bind (hf.aside.dataStore _ _) fun _ => ?_)
  exact .bind (hf.aside.blockMakeDirty _) fun _ => .pure _

/-- A step of a lookup through an index block leaves the inode cache alone. -/
theorem OffData.indexLookupOneLevel (a bid bidx : ℕ) (hashidx : HashIdx) (expHash : Option Key256)
    (write : Bool) : Exec.Keeps f (indexLookupOneLevel w a bid bidx hashidx expHash write) := by
  refine .bind (keeps_inodeAt _) fun inode => .bind (hf.aside.bgetFromCacheLock _ _ _ _ _)
    fun bp => ?_
  cases bp with
  | none => exact .pure _
  | some bp =>
    refine .bind (keeps_blockAt _) fun block => .ite ?_ ?_
    · refine .bind (hf.newEntry _ _ _) fun failed => .ite (.pure _) ?_
      refine .bind (keeps_blockAt _) fun block => ?_
      exact .bind (hf.aside.blockUnlockReturn _) fun _ => .pure _
    · refine .bind (hf.getRealHashIndex _ _ _) fun _ => .bind (keeps_blockAt _) fun block => ?_
      exact .bind (hf.aside.blockUnlockReturn _) fun _ => .pure _

end

/-! ## Rounds -/

/-- Nothing is looked at that a lookup changes: no block, and of the nodes of inodes at most
what stores that leave the sizes do not change. -/
structure Steady (w : World) {γ : Type} (f : Sys → γ) : Prop where
  /-- Only the inode cache and the inode bitmap are looked at. -/
  off : OffData f
  /-- The sizes are all that is looked at in the inode cache. -/
  store : ∀ addr g, KeepsSizes g → Exec.Keeps f (nodeStore (icacOf w) addr g)

/-- The size of an inode is steady. -/
theorem steady_sizeAt : Steady w (Sys.sizeAt ip) :=
  ⟨ofContents_sizeAt.ofIcac.offData, fun _ _ hg => keepsSize_nodeStore hg⟩

section

variable {γ : Type} {f : Sys → γ} (hf : Steady w f)

include hf

/-- A store into an inode that keeps its size. -/
theorem Steady.inodeStore {g : Inode → Inode} (hg : ∀ inode, (g inode).size = inode.size) :
    Exec.Keeps f (inodeStore w addr g) := by
  apply hf.store
  intro n
  refine ⟨rfl, ?_⟩
  rw [Option.map_map]
  exact congrArg (Option.map · n.content) (funext hg)

/-- The mark of an inode. -/
theorem Steady.inodeMakeDirty (a : ℕ) : Exec.Keeps f (inodeMakeDirty w a) := by
  refine .bind (keeps_inodeAt _) fun inode => .bind (hf.off.cacheFind _) fun node => ?_
  cases node with
  | none => exact .pure _
  | some n =>
    refine .bind (hf.store _ _ ?_) fun _ => .pure _
    exact fun _ => ⟨rfl, rfl⟩

/-- Reading the hash of a root slot. -/
theorem Steady.getRealHashIp (a bidx : ℕ) : Exec.Keeps f (getRealHashIp w a bidx) := by
  refine .bind (keeps_inodeAt _) fun inode => .bind (.read _) fun node => ?_
  cases node with
  | none => exact .pure _
  | some node =>
    refine .bind (hf.inodeStore fun _ => rfl) fun _ => .bind (hf.off.aside.offDisk.pdWbDelete _)
      fun _ => ?_
    exact .bind (hf.inodeMakeDirty _) fun _ => .pure _

/-- The step of a lookup at a root slot. -/
theorem Steady.rootLookup (a r : ℕ) (write : Bool) : Exec.Keeps f (rootLookup w a r write) := by
  refine .bind (keeps_inodeAt _) fun inode => .ite ?_ ?_
  · refine .bind ?_ fun failed => .ite (.pure _) (.bind (keeps_inodeAt _) fun _ => .pure _)
    refine .bind hf.off.blockAlloc fun bid => .bind (hf.inodeStore fun _ => rfl) fun _ => ?_
    refine .ite (.pure _) (.bind (hf.inodeStore fun _ => rfl) fun _ => ?_)
    exact .bind (hf.inodeMakeDirty _) fun _ => .pure _
  · exact .bind (hf.getRealHashIp _ _) fun _ => .bind (keeps_inodeAt _) fun _ => .pure _

/-- A lookup may add blocks to the tree, and keeps what is steady. -/
theorem Steady.inodeIndexLookup (a bidx : ℕ) (write : Bool) (hashidx : HashIdx) (expHash : Key256) :
    Exec.Keeps f (inodeIndexLookup w a bidx write hashidx expHash) := by
  have hroot : ∀ r, Exec.Keeps f (Efs.rootLookup w a r write) := fun r => hf.rootLookup a r write
  have hlevel : ∀ bid i h e, Exec.Keeps f (indexLookupOneLevel w a bid i h e write) :=
    fun bid i h e => hf.off.indexLookupOneLevel a bid i h e write
  refine .bind (keeps_inodeAt _) fun inode => .ite ?_ (.ite ?_ (.ite ?_ ?_))
  · refine .bind (hroot _) fun root => ?_
    rcases root with _ | ⟨root, new⟩ <;> exact .pure _
  · refine .bind (hroot _) fun root => ?_
    rcases root with _ | ⟨root, new⟩
    · exact .pure _
    refine .bind (hlevel _ _ _ _) fun idx => ?_
    rcases idx with _ | ⟨idx, new⟩
    · exact .stop_bind _ _
    · exact .pure _
  · refine .bind (hroot _) fun root => ?_
    rcases root with _ | ⟨root, new⟩
    · exact .pure _
    refine .bind (hlevel _ _ _ _) fun idx₁ => ?_
    rcases idx₁ with _ | ⟨idx₁, new⟩
    · exact .pure _
    refine .bind (hlevel _ _ _ _) fun idx => ?_
    rcases idx with _ | ⟨idx, new⟩ <;> exact .pure _
  · refine .bind (hroot _) fun root => ?_
    rcases root with _ | ⟨root, new⟩
    · exact .pure _
    refine .bind (hlevel _ _ _ _) fun idx₁ => ?_
    rcases idx₁ with _ | ⟨idx₁, new⟩
    · exact .pure _
    refine .bind (hlevel _ _ _ _) fun idx₂ => ?_
    rcases idx₂ with _ | ⟨idx₂, new⟩
    · exact .pure _
    refine .bind (hlevel _ _ _ _) fun idx => ?_
    rcases idx with _ | ⟨idx, new⟩ <;> exact .pure _

/-- A round changes nothing that is looked at. -/
theorem Steady.rwRound (a size : ℕ) (write : Bool) (p : Progress) :
    Exec.Keeps f (rwRound w a size write p) := by
  refine .bind (hf.inodeIndexLookup _ _ _ _ _) fun found => .bind (keeps_inodeAt _) fun inode => ?_
  refine .bind (hf.off.aside.bgetFromCacheLock _ _ _ _ _) fun bp => ?_
  cases bp with
  | none => exact .pure _
  | some bp =>
    refine .bind (keeps_blockAt _) fun block => .ite ?_ ?_
    · refine .bind (hf.off.aside.dataStore _ _) fun _ => .bind (hf.off.aside.blockMakeDirty _)
        fun _ => ?_
      exact .bind (hf.off.aside.blockUnlockReturn _) fun _ => .pure _
    · exact .bind (hf.off.aside.blockUnlockReturn _) fun _ => .pure _

/-- So do all rounds. -/
theorem Steady.rwRounds (a size : ℕ) (write : Bool) (n : ℕ) (p : Progress) :
    Exec.Keeps f (rwRounds w a size write n p) := by
  induction n generalizing p with
  | zero => exact .pure _
  | succ n ih =>
    refine .ite (.bind (hf.rwRound _ _ _ _) fun r => ?_) (.pure _)
    obtain ⟨goesOn, p'⟩ := r
    exact .ite (ih p') (.pure _)

end

/-- A round leaves all sizes. -/
theorem keepsSize_rwRound (a size : ℕ) (write : Bool) (p : Progress) :
    Exec.Keeps (Sys.sizeAt ip) (rwRound w a size write p) := steady_sizeAt.rwRound a size write p

/-- The rule for a read of an inode at any pointer. -/
theorem wp_inodeAt_any {Q : Inode → Sys → Prop} {E : Halt → Prop} {s : Sys}
    (hQ : ∀ inode, s.icac.contentAt ip = some inode → Q inode s) (hE : E .undefinedBehaviour) :
    Exec.Wp (inodeAt ip) Q E s := by
  unfold inodeAt
  rw [Exec.wp_bind, Exec.wp_read]
  cases h : s.icac.contentAt ip with
  | none => exact hE
  | some inode => exact hQ inode h

/-- The rule for a read of an inode at a pointer that is good. -/
theorem wp_inodeAt_of_contentAt {Q : Inode → Sys → Prop} {E : Halt → Prop} {s : Sys} {inode : Inode}
    (h : s.icac.contentAt ip = some inode) (hQ : Q inode s) : Exec.Wp (inodeAt ip) Q E s := by
  simp only [inodeAt, Exec.wp_bind, Exec.wp_read, h]
  exact hQ

/-- What a pointer points to after a store through it. -/
theorem contentAt_inodeStore {f : Inode → Inode} {u : Unit} {s s' : Sys}
    (h : inodeStore w ip f s = .ok (u, s')) :
      s'.icac.contentAt ip = (s.icac.contentAt ip).map f := by
  cases h
  have haddr : ∀ n : Node Inode, ({ n with content := n.content.map f } : Node Inode).addr =
    n.addr :=
    fun _ => rfl
  refine (contentAt_modify haddr).trans ?_
  rw [if_pos rfl, Cache.contentAt, Option.map_bind]
  rfl

end

end Efs
