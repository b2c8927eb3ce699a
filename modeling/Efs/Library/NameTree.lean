import Mathlib.Data.Finset.Insert
import Mathlib.Logic.Function.Basic

/-!
# Trees of names

A tree of names says which nodes have children and what a name means in such a node. A
list of names leads from a node to at most one node. When a new child is made under a name
that meant nothing, what the lists of names led to stays, and one list leads to the child.
-/

namespace Efs.Library

/-- Nodes with named children. -/
structure NameTree (ι κ : Type) where
  /-- The nodes that can have children. -/
  isDir : ι → Prop
  /-- The child of a node under a name. -/
  child : ι → κ → Option ι

namespace NameTree

variable {ι κ : Type}

/-- The names lead from the first node to the second one, one by one. -/
inductive Leads (t : NameTree ι κ) : ι → List κ → ι → Prop
  | nil (i : ι) : t.Leads i [] i
  | cons {i j l : ι} {k : κ} {ks : List κ} : t.isDir i → t.child i k = some j → t.Leads j ks l →
      t.Leads i (k :: ks) l

/-- The names but the last one lead from `i` to the node `d`, in which the last name `k` means
nothing. -/
def Misses (t : NameTree ι κ) (i : ι) (ks : List κ) (d : ι) (k : κ) : Prop :=
  ∃ before, ks = before ++ [k] ∧ t.Leads i before d ∧ t.isDir d ∧ t.child d k = none

/-- The tree with a new child `j` of `d` under the name `k`, which can have children when `dir`
holds. -/
def insert [DecidableEq ι] [DecidableEq κ] (t : NameTree ι κ) (d : ι) (k : κ) (j : ι) (dir : Prop) :
    NameTree ι κ where
  isDir i := i = j ∧ dir ∨ i ≠ j ∧ t.isDir i
  child i k' := if i = d ∧ k' = k then some j else t.child i k'

variable {t : NameTree ι κ} {i j l d : ι} {k k' : κ} {ks ks' : List κ}

/-! ## Where names lead -/

/-- No names lead nowhere else. -/
@[simp] theorem leads_nil : t.Leads i [] l ↔ i = l := by
  constructor
  · rintro ⟨⟩
    rfl
  · rintro rfl
    exact .nil i

/-- Names lead through the child of the first one. -/
theorem leads_cons : t.Leads i (k :: ks) l ↔ t.isDir i ∧ ∃ j, t.child i k = some j ∧
    t.Leads j ks l := by
  constructor
  · rintro ⟨⟩
    rename_i hdir hchild hleads
    exact ⟨hdir, _, hchild, hleads⟩
  · rintro ⟨hdir, j, hchild, hleads⟩
    exact .cons hdir hchild hleads

/-- The names lead to at most one node. -/
theorem Leads.unique (h : t.Leads i ks l) (h' : t.Leads i ks j) : l = j := by
  induction h with
  | nil i => exact leads_nil.mp h'
  | cons _ hchild _ ih =>
    obtain ⟨_, _, hchild', hleads⟩ := leads_cons.mp h'
    rw [hchild] at hchild'
    cases hchild'
    exact ih hleads

/-- The names after each other. -/
theorem Leads.append (h : t.Leads i ks j) (h' : t.Leads j ks' l) : t.Leads i (ks ++ ks') l := by
  induction h with
  | nil i => exact h'
  | cons hdir hchild _ ih => exact .cons hdir hchild (ih h')

/-- One more name. -/
theorem Leads.concat (h : t.Leads i ks d) (hdir : t.isDir d) (hchild : t.child d k = some j) :
    t.Leads i (ks ++ [k]) j :=
  h.append (.cons hdir hchild (.nil j))

/-- Names miss a child below that of the first one. -/
theorem misses_cons (hks : ks ≠ []) :
    t.Misses i (k :: ks) d k' ↔ t.isDir i ∧ ∃ j, t.child i k = some j ∧ t.Misses j ks d k' := by
  constructor
  · rintro ⟨before, heq, hleads, hdir, hnone⟩
    cases before with
    | nil =>
      cases heq
      exact absurd rfl hks
    | cons k₁ before =>
      obtain ⟨rfl, rfl⟩ := List.cons.inj heq
      obtain ⟨hi, j, hchild, hrest⟩ := leads_cons.mp hleads
      exact ⟨hi, j, hchild, before, rfl, hrest, hdir, hnone⟩
  · rintro ⟨hi, j, hchild, before, rfl, hleads, hdir, hnone⟩
    exact ⟨k :: before, rfl, .cons hi hchild hleads, hdir, hnone⟩

/-- One name misses a child in the place itself. -/
theorem misses_singleton : t.Misses i [k] d k' ↔ i = d ∧ k = k' ∧ t.isDir d ∧
    t.child d k' = none := by
  constructor
  · rintro ⟨before, heq, hleads, hdir, hnone⟩
    cases before with
    | nil =>
      cases heq
      exact ⟨leads_nil.mp hleads, rfl, hdir, hnone⟩
    | cons k₁ before => simp at heq
  · rintro ⟨rfl, rfl, hdir, hnone⟩
    exact ⟨[], rfl, .nil i, hdir, hnone⟩

/-- No names miss nothing. -/
theorem not_misses_nil : ¬t.Misses i [] d k := by
  rintro ⟨before, heq, _⟩
  simp at heq

/-- A path that misses a child starts at a directory. -/
theorem Misses.isDir (h : t.Misses i (k :: ks) d k') : t.isDir i := by
  by_cases hks : ks = []
  · subst hks
    obtain ⟨rfl, _, hdir, _⟩ := misses_singleton.mp h
    exact hdir
  · exact ((misses_cons hks).mp h).1

/-- The first name has a child. -/
theorem misses_cons_of_child (hdir : t.isDir i) (hchild : t.child i k = some j) :
    t.Misses i (k :: ks) d k' ↔ t.Misses j ks d k' := by
  by_cases hks : ks = []
  · subst hks
    refine iff_of_false (fun hmiss => ?_) not_misses_nil
    obtain ⟨rfl, rfl, _, hnone⟩ := misses_singleton.mp hmiss
    rw [hchild] at hnone
    cases hnone
  · rw [misses_cons hks]
    constructor
    · rintro ⟨_, j', hchild', hmiss⟩
      rw [hchild] at hchild'
      cases hchild'
      exact hmiss
    · intro hmiss
      exact ⟨hdir, j, hchild, hmiss⟩

/-- The names miss at most one node. -/
theorem Misses.unique {d' : ι} (h : t.Misses i ks d k) (h' : t.Misses i ks d' k') : d = d' ∧
    k = k' := by
  obtain ⟨before, rfl, hleads, _⟩ := h
  obtain ⟨before', heq, hleads', _⟩ := h'
  obtain ⟨rfl, hk⟩ := List.append_inj' heq rfl
  exact ⟨hleads.unique hleads', List.cons.inj hk |>.1⟩

/-- Names that lead to a node do not miss one. -/
theorem Leads.not_misses (h : t.Leads i ks l) : ¬t.Misses i ks d k := by
  induction h with
  | nil i => exact not_misses_nil
  | cons hdir hchild _ ih => exact fun hmiss => ih ((misses_cons_of_child hdir hchild).mp hmiss)

/-! ## New children -/

section

variable [DecidableEq ι] [DecidableEq κ] {dir : Prop}

/-- An insertion gives one child. -/
theorem child_insert : (t.insert d k j dir).child i k' =
    if i = d ∧ k' = k then some j else t.child i k' := rfl

/-- What the names led to stays. -/
theorem Leads.insert (h : t.Leads i ks l) (hnew : ¬t.isDir j) (hfree : t.child d k = none) :
    (t.insert d k j dir).Leads i ks l := by
  induction h with
  | nil i => exact .nil i
  | cons hdir hchild _ ih =>
    refine .cons (Or.inr ⟨?_, hdir⟩) ?_ ih
    · rintro rfl
      exact hnew hdir
    · rw [child_insert, if_neg, hchild]
      rintro ⟨rfl, rfl⟩
      rw [hfree] at hchild
      cases hchild

/-- The names that missed a node lead to the new child. -/
theorem Misses.leads_insert (h : t.Misses i ks d k) (hnew : ¬t.isDir j) :
    (t.insert d k j dir).Leads i ks j := by
  obtain ⟨before, rfl, hleads, hdir, hnone⟩ := h
  refine (hleads.insert hnew hnone).concat (Or.inr ⟨?_, hdir⟩) (if_pos ⟨rfl, rfl⟩)
  rintro rfl
  exact hnew hdir

end

/-! ## Children of nodes that can have them -/

open Classical in
/-- The tree without the children of the nodes that can have none. -/
noncomputable def trim (t : NameTree ι κ) : NameTree ι κ where
  isDir := t.isDir
  child i k := if t.isDir i then t.child i k else none

/-- A trimmed tree has the children of the directories. -/
theorem child_trim (h : t.isDir i) : t.trim.child i k = t.child i k := if_pos h

/-- A trimmed tree has no children elsewhere. -/
theorem child_trim_of_not (h : ¬t.isDir i) : t.trim.child i k = none := if_neg h

/-- The same names lead through a trimmed tree. -/
theorem leads_trim : t.trim.Leads i ks l ↔ t.Leads i ks l := by
  induction ks generalizing i with
  | nil => rw [leads_nil, leads_nil]
  | cons k ks ih =>
    rw [leads_cons, leads_cons]
    refine and_congr_right fun hdir => exists_congr fun j => ?_
    have hchild : t.trim.child i k = t.child i k := child_trim hdir
    rw [hchild, ih]

/-- The same names miss a child of a trimmed tree. -/
theorem misses_trim : t.trim.Misses i ks d k ↔ t.Misses i ks d k := by
  refine exists_congr fun before => and_congr_right fun _ => ?_
  rw [leads_trim]
  refine and_congr_right fun _ => and_congr_right fun hdir => ?_
  have hchild : t.trim.child d k = t.child d k := child_trim hdir
  rw [hchild]

/-- Trees that agree on the nodes that can have children. -/
theorem trim_congr {t' : NameTree ι κ} (hdir : t'.isDir = t.isDir) (hchild : ∀ i, t.isDir i →
    t'.child i = t.child i) : t'.trim = t.trim := by
  obtain ⟨isDir, child⟩ := t'
  obtain rfl : isDir = t.isDir := hdir
  refine congrArg (NameTree.mk _) (funext fun i => funext fun k => ?_)
  by_cases hi : t.isDir i
  · exact (if_pos hi).trans ((congrFun (hchild i hi) k).trans (child_trim hi).symm)
  · exact (if_neg hi).trans (child_trim_of_not hi).symm

/-- A new child without children. -/
theorem trim_insert [DecidableEq ι] [DecidableEq κ] {dir : Prop} (hd : t.isDir d)
    (hnew : ¬t.isDir j)
    (hnone : ∀ k, t.child j k = none) : (t.insert d k j dir).trim = t.trim.insert d k j dir := by
  have hne : j ≠ d := by
    rintro rfl
    exact hnew hd
  refine congrArg (NameTree.mk _) (funext fun i => funext fun k' => ?_)
  change (t.insert d k j dir).trim.child i k' = if i = d ∧ k' = k then some j else t.trim.child i k'
  by_cases hdir : (t.insert d k j dir).isDir i
  · rw [child_trim hdir, child_insert]
    rcases hdir with ⟨rfl, _⟩ | ⟨_, hi⟩
    · rw [if_neg fun h => hne h.1, if_neg fun h => hne h.1, hnone, child_trim_of_not hnew]
    · rw [child_trim hi]
  · have hid : i ≠ d := by
      rintro rfl
      exact hdir (Or.inr ⟨hne.symm, hd⟩)
    rw [child_trim_of_not hdir, if_neg fun h => hid h.1, child_trim_of_not fun hi => hdir
      (Or.inr ⟨?_, hi⟩)]
    rintro rfl
    exact hnew hi

end NameTree

end Efs.Library
