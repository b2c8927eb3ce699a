import Efs.Library.NameTree
import Mathlib.Data.Finset.Insert

/-!
# File systems

A file system as its callers see it: a tree of names, the contents of the files, and the
handles on open files, each with an offset. A handle is on a file, no offset is past the end
of its file, and no path is open twice.
-/

namespace Efs.Library

variable {ι κ β π : Type}

/-- An open file. -/
structure OpenFile (ι π : Type) where
  /-- The file. -/
  node : ι
  /-- The path that it was opened with. -/
  path : π
  /-- Whether it may be written. -/
  writable : Bool
  /-- Where the next transfer begins. -/
  offset : ℕ

/-- A file system with its open files. -/
structure FileSystem (ι κ β π : Type) where
  /-- The files and the directories. -/
  nodes : Finset ι
  /-- The names. -/
  tree : NameTree ι κ
  /-- The contents of the files. -/
  content : ι → List β
  /-- The open files. -/
  handles : ℕ → Option (OpenFile ι π)

namespace FileSystem

variable {a : FileSystem ι κ β π} {i j d : ι} {k : κ} {p : π} {fp n : ℕ} {h : OpenFile ι π}
  {bytes : List β}

/-- The node is a file. -/
def IsFile (a : FileSystem ι κ β π) (i : ι) : Prop := i ∈ a.nodes ∧ ¬a.tree.isDir i

/-- The path is open. -/
def IsOpen (a : FileSystem ι κ β π) (p : π) : Prop := ∃ fp h, a.handles fp = some h ∧ h.path = p

/-- A new handle. -/
def bind (a : FileSystem ι κ β π) (fp : ℕ) (h : OpenFile ι π) : FileSystem ι κ β π :=
  { a with handles := Function.update a.handles fp (some h) }

/-- One handle less. -/
def unbind (a : FileSystem ι κ β π) (fp : ℕ) : FileSystem ι κ β π :=
  { a with handles := Function.update a.handles fp none }

/-- No handles. -/
def closed (a : FileSystem ι κ β π) : FileSystem ι κ β π := { a with handles := fun _ => none }

/-- Another offset of a handle. -/
def seek (a : FileSystem ι κ β π) (fp n : ℕ) : FileSystem ι κ β π :=
  { a with
    handles := Function.update a.handles fp ((a.handles fp).map fun h => { h with offset := n }) }

/-- Another content of a file. -/
def store [DecidableEq ι] (a : FileSystem ι κ β π) (i : ι) (bytes : List β) : FileSystem ι κ β π :=
  { a with content := Function.update a.content i bytes }

/-- A new node under a name. -/
def create [DecidableEq ι] [DecidableEq κ] (a : FileSystem ι κ β π) (d : ι) (k : κ) (j : ι)
    (dir : Prop) :
    FileSystem ι κ β π :=
  { a with nodes := Insert.insert j a.nodes, tree := a.tree.insert d k j dir }

/-- The handles are in order. -/
structure WellFormed (a : FileSystem ι κ β π) : Prop where
  /-- A handle is on a file. -/
  file : ∀ fp h, a.handles fp = some h → a.IsFile h.node
  /-- The offset is not past the end. -/
  inside : ∀ fp h, a.handles fp = some h → h.offset ≤ (a.content h.node).length
  /-- No path is open twice. -/
  one : ∀ fp fp' h h', a.handles fp = some h → a.handles fp' = some h' → h.path = h'.path → fp = fp'

/-- File systems with the same parts are the same. -/
@[ext]
theorem ext {b : FileSystem ι κ β π} (hnodes : a.nodes = b.nodes) (htree : a.tree = b.tree)
    (hcontent : a.content = b.content) (hhandles : a.handles = b.handles) : a = b := by
  cases a
  cases b
  simp_all

/-- A handle after one was set. -/
theorem handle_update {o : Option (OpenFile ι π)} {fp' : ℕ} {h' : OpenFile ι π}
    (hh : Function.update a.handles fp o fp' = some h') : fp' = fp ∧ o = some h' ∨ fp' ≠ fp ∧
      a.handles fp' = some h' := by
  by_cases heq : fp' = fp
  · subst heq
    rw [Function.update_self] at hh
    exact Or.inl ⟨rfl, hh⟩
  · rw [Function.update_of_ne heq] at hh
    exact Or.inr ⟨heq, hh⟩

/-- A handle within a file that is not open can be given out. -/
theorem WellFormed.bind (ha : a.WellFormed) (hfile : a.IsFile h.node)
    (hin : h.offset ≤ (a.content h.node).length) (hpath : ¬a.IsOpen h.path) :
      (a.bind fp h).WellFormed := by
  refine ⟨fun fp' h' hh => ?_, fun fp' h' hh => ?_, fun fp₁ fp₂ h₁ h₂ hh₁ hh₂ heq => ?_⟩
  · rcases handle_update hh with ⟨_, heq⟩ | ⟨_, hold⟩
    · cases heq
      exact hfile
    · exact ha.file fp' h' hold
  · rcases handle_update hh with ⟨_, heq⟩ | ⟨_, hold⟩
    · cases heq
      exact hin
    · exact ha.inside fp' h' hold
  · rcases handle_update hh₁ with ⟨rfl, hnew₁⟩ | ⟨_, hold₁⟩
    · cases hnew₁
      rcases handle_update hh₂ with ⟨rfl, _⟩ | ⟨_, hold₂⟩
      · rfl
      · exact absurd ⟨fp₂, h₂, hold₂, heq.symm⟩ hpath
    · rcases handle_update hh₂ with ⟨rfl, hnew₂⟩ | ⟨_, hold₂⟩
      · cases hnew₂
        exact absurd ⟨fp₁, h₁, hold₁, heq⟩ hpath
      · exact ha.one fp₁ fp₂ h₁ h₂ hold₁ hold₂ heq

/-- A handle can be taken back. -/
theorem WellFormed.unbind (ha : a.WellFormed) : (a.unbind fp).WellFormed := by
  have hold : ∀ fp' h', (a.unbind fp).handles fp' = some h' → a.handles fp' = some h' := by
    intro fp' h' hh
    rcases handle_update hh with ⟨_, heq⟩ | ⟨_, hold⟩
    · cases heq
    · exact hold
  exact ⟨fun fp' h' hh => ha.file fp' h' (hold fp' h' hh), fun fp' h' hh => ha.inside fp' h'
    (hold fp' h' hh),
    fun fp₁ fp₂ h₁ h₂ hh₁ hh₂ => ha.one fp₁ fp₂ h₁ h₂ (hold fp₁ h₁ hh₁) (hold fp₂ h₂ hh₂)⟩

/-- A move of a handle to where it is does nothing. -/
theorem seek_self (hh : a.handles fp = some h) : a.seek fp h.offset = a := by
  ext1
  · rfl
  · rfl
  · rfl
  · rw [seek, hh, Option.map_some]
    exact Function.update_eq_self_iff.mpr hh.symm

/-- A handle with its offset moved. -/
theorem handles_seek {fp' : ℕ} {h' : OpenFile ι π} (hh : (a.seek fp n).handles fp' = some h') :
    ∃ h, a.handles fp' = some h ∧ h'.node = h.node ∧ h'.path = h.path ∧
      (h' = h ∨ fp' = fp ∧ h'.offset = n) := by
  rcases handle_update hh with ⟨rfl, heq⟩ | ⟨_, hold⟩
  · obtain ⟨h, hold, rfl⟩ := Option.map_eq_some_iff.mp heq
    exact ⟨h, hold, rfl, rfl, Or.inr ⟨rfl, rfl⟩⟩
  · exact ⟨h', hold, rfl, rfl, Or.inl rfl⟩

/-- A handle can be moved within its file. -/
theorem WellFormed.seek (ha : a.WellFormed) (hh : a.handles fp = some h)
    (hn : n ≤ (a.content h.node).length) :
    (a.seek fp n).WellFormed := by
  refine ⟨fun fp' h' hh' => ?_, fun fp' h' hh' => ?_, fun fp₁ fp₂ h₁ h₂ hh₁ hh₂ heq => ?_⟩
  · obtain ⟨h₀, hold, hnode, _⟩ := handles_seek hh'
    rw [hnode]
    exact ha.file fp' h₀ hold
  · obtain ⟨h₀, hold, hnode, _, hcase⟩ := handles_seek hh'
    rcases hcase with rfl | ⟨rfl, hoff⟩
    · exact ha.inside fp' h' hold
    · rw [hh] at hold
      cases hold
      rw [hoff, hnode]
      exact hn
  · obtain ⟨h₁', hold₁, _, hpath₁, _⟩ := handles_seek hh₁
    obtain ⟨h₂', hold₂, _, hpath₂, _⟩ := handles_seek hh₂
    exact ha.one fp₁ fp₂ h₁' h₂' hold₁ hold₂ (hpath₁.symm.trans (heq.trans hpath₂))

/-- A store changes one file. -/
theorem content_store [DecidableEq ι] : (a.store i bytes).content j = if j =
    i then bytes else a.content j :=
  Function.update_apply ..

/-- A store of what is there does nothing. -/
theorem store_self [DecidableEq ι] : a.store i (a.content i) = a :=
  ext rfl rfl (Function.update_eq_self i a.content) rfl

/-- A file that does not become shorter. -/
theorem WellFormed.store [DecidableEq ι] (ha : a.WellFormed)
    (hlen : (a.content i).length ≤ bytes.length) :
    (a.store i bytes).WellFormed := by
  refine ⟨ha.file, fun fp h hh => (ha.inside fp h hh).trans ?_, ha.one⟩
  rw [content_store]
  split_ifs with hi
  · rw [hi]
    exact hlen
  · exact le_rfl

/-- A created node is a file when it is no directory. -/
theorem isFile_create [DecidableEq ι] [DecidableEq κ] {dir : Prop} (hnew : j ∉ a.nodes) :
    (a.create d k j dir).IsFile i ↔ i = j ∧ ¬dir ∨ a.IsFile i := by
  unfold IsFile create
  rw [Finset.mem_insert]
  change (i = j ∨ i ∈ a.nodes) ∧ ¬(i = j ∧ dir ∨ i ≠ j ∧ a.tree.isDir i) ↔ _
  by_cases hi : i = j
  · subst hi
    simp [hnew]
  · simp [hi]

/-- A new node can be created. -/
theorem WellFormed.create [DecidableEq ι] [DecidableEq κ] {dir : Prop} (ha : a.WellFormed)
    (hnew : j ∉ a.nodes) :
    (a.create d k j dir).WellFormed :=
  ⟨fun fp h hh => (isFile_create hnew).mpr (Or.inr (ha.file fp h hh)), ha.inside, ha.one⟩

end FileSystem

end Efs.Library
