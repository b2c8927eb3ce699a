import Efs.BlockHold
import Efs.InodeIndex

/-!
# Inodes through pointers

The rules for the calls on an inode of which a caller has the pointer, as long as
every inode number has one node in the inode cache. They change the node of this
inode and nothing else.
-/

namespace Efs

open Library

/-- The inode that the inode cache holds for a number. -/
def Sys.inodeOf (s : Sys) (iid : ℕ) : Option Inode := (s.icac.node iid).bind (·.content)

/-- The pointer `ip` points to the inode of the number `iid`. -/
def Sys.PointsTo (s : Sys) (ip iid : ℕ) (inode : Inode) : Prop :=
  ∃ n, s.icac.node iid = some n ∧ n.addr = ip ∧ n.content = some inode

/-- The node of one inode is changed, and nothing else. -/
structure InodeChanges (iid : ℕ) (g : Node Inode → Node Inode) (s s' : Sys) : Prop where
  /-- Every inode number has one node. -/
  keyed : s'.icac.Keyed
  /-- The node is changed. -/
  node : s'.icac.node = Function.update s.icac.node iid ((s.icac.node iid).map g)
  /-- The rest is the same. -/
  same : s' = { s with icac := s'.icac }

/-- What a store into an inode does to its node. -/
def Node.mapInode (f : Inode → Inode) (n : Node Inode) : Node Inode :=
  { n with content := n.content.map f }

section

variable {w : World} {E : Halt → Prop} {s s₁ s' : Sys} {ip iid iid' : ℕ} {inode : Inode}
  {g g' : Node Inode → Node Inode}

/-- The inode cache is a part of the state. -/
theorem icacOf_lawful : (icacOf w).Lawful := ⟨fun _ _ => rfl, fun _ _ _ => rfl, fun _ => rfl⟩

/-- An inode at a pointer is cached. -/
theorem Sys.PointsTo.inodeOf (h : s.PointsTo ip iid inode) : s.inodeOf iid = some inode := by
  obtain ⟨n, hn, _, hcontent⟩ := h
  simp [Sys.inodeOf, hn, hcontent]

/-- The pointers depend on the inode cache only. -/
theorem Sys.PointsTo.congr (h : s.PointsTo ip iid inode) (hicac : s'.icac = s.icac) :
    s'.PointsTo ip iid inode := by
  unfold PointsTo
  rwa [hicac]

/-- Two changes of an inode are one. -/
theorem InodeChanges.trans (h₁ : InodeChanges iid g s s₁) (h₂ : InodeChanges iid g' s₁ s') :
    InodeChanges iid (g' ∘ g) s s' := by
  refine ⟨h₂.keyed, ?_, by rw [h₂.same, h₁.same]⟩
  rw [h₂.node, h₁.node, Function.update_self, Function.update_idem, Option.map_map]

/-- The changed node is in the place of the old one. -/
theorem InodeChanges.node_self (h : InodeChanges iid g s s') {n : Node Inode}
    (hn : s.icac.node iid = some n) : s'.icac.node iid = some (g n) := by
  rw [h.node, Function.update_self, hn, Option.map_some]

/-- A node whose inode changes, and stays at its address. -/
theorem InodeChanges.pointsTo (h : InodeChanges iid g s s') (hp : s.PointsTo ip iid inode)
    (inode' : Inode) (hg : ∀ n, n.content = some inode →
      (g n).addr = n.addr ∧ (g n).content = some inode') : s'.PointsTo ip iid inode' := by
  obtain ⟨n, hn, rfl, hcontent⟩ := hp
  exact ⟨g n, h.node_self hn, (hg n hcontent).1, (hg n hcontent).2⟩

/-- A change of an inode leaves the other nodes. -/
theorem InodeChanges.node_of_ne (h : InodeChanges iid g s s') (hne : iid' ≠ iid) :
    s'.icac.node iid' = s.icac.node iid' := by
  rw [h.node, Function.update_of_ne hne]

/-- A change of an inode leaves the other inodes. -/
theorem InodeChanges.inodeOf_of_ne (h : InodeChanges iid g s s') (hne : iid' ≠ iid) :
    s'.inodeOf iid' = s.inodeOf iid' := by
  rw [Sys.inodeOf, h.node_of_ne hne]
  rfl

/-- A change of an inode is none of the blocks. -/
theorem InodeChanges.spot_eq (h : InodeChanges iid g s s') (bid : ℕ) :
    s'.spot bid = s.spot bid := by
  rw [h.same]
  rfl

/-- The rule for a read of an inode. -/
theorem wp_inodeAt (hk : s.icac.Keyed) (hp : s.PointsTo ip iid inode) {Q : Inode → Sys → Prop}
    (hQ : Q inode s) : Exec.Wp (inodeAt ip) Q E s := by
  obtain ⟨n, hn, rfl, hcontent⟩ := hp
  have hat : s.icac.contentAt n.addr = some inode := by rw [hk.contentAt hn, hcontent]
  simp only [inodeAt, Exec.wp_bind, Exec.wp_read, hat]
  exact hQ

/-- The rule for a store into the node of an inode. -/
theorem wp_nodeStore_icac (hk : s.icac.Keyed) {n : Node Inode} (hn : s.icac.node iid = some n)
    (hg : ∀ m, (g m).id = m.id ∧ (g m).addr = m.addr) {Q : Unit → Sys → Prop}
    (hQ : ∀ s', InodeChanges iid g s s' → Q () s') :
    Exec.Wp (nodeStore (icacOf w) n.addr g) Q E s := by
  refine wp_nodeStore_map (k := icacOf w) hk hn hg fun c hc hmap => hQ _ ⟨hc, ?_, rfl⟩
  rw [hn]
  exact hmap

/-- The rule for a store into an inode. -/
theorem wp_inodeStore (hk : s.icac.Keyed) (hp : s.PointsTo ip iid inode) {f : Inode → Inode}
    {Q : Unit → Sys → Prop} (hQ : ∀ s', InodeChanges iid (Node.mapInode f) s s' → Q () s') :
    Exec.Wp (inodeStore w ip f) Q E s := by
  obtain ⟨n, hn, rfl, _⟩ := hp
  refine wp_nodeStore_icac hk hn ?_ hQ
  exact fun _ => ⟨rfl, rfl⟩

/-- The rule for `inode_make_dirty`. -/
theorem wp_inodeMakeDirty (hk : s.icac.Keyed) (hp : s.PointsTo ip iid inode)
    (hiid : inode.iid = iid) {Q : Bool → Sys → Prop}
    (hQ : ∀ s', InodeChanges iid ({ · with dirty := true }) s s' → Q false s') :
    Exec.Wp (inodeMakeDirty w ip) Q E s := by
  refine Exec.wp_bind.mpr (wp_inodeAt hk hp (Exec.wp_bind.mpr ?_))
  rw [hiid]
  obtain ⟨n, hn, _, _⟩ := hp
  refine wp_cacheFind_peek (k := icacOf w) icacOf_lawful hk ?_
  have hget : ((icacOf w).get s).node iid = some n := hn
  rw [hget]
  refine Exec.wp_bind.mpr (wp_nodeStore_icac hk hn ?_ hQ)
  exact fun _ => ⟨rfl, rfl⟩

end

end Efs
