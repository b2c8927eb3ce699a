import Mathlib.Data.List.Sort
import Mathlib.Tactic.Common

/-!
# Maps in the order of their keys

A finite map from numbers, kept as the list of its entries in increasing order
of the keys. The order is part of the type, so every map has one list of entries
and an iteration over it visits each key once and in order.
-/

namespace Efs.Library

/-- A finite map with its entries in increasing order of the keys. -/
structure OrdMap (α : Type) where
  /-- The entries. -/
  entries : List (ℕ × α)
  /-- The keys increase. -/
  sorted : entries.Pairwise fun a b => a.1 < b.1

namespace OrdMap

variable {α : Type}

/-- Maps with the same entries are the same. -/
@[ext] theorem ext {m m' : OrdMap α} (h : m.entries = m'.entries) : m = m' := by
  cases m
  cases m'
  cases h
  rfl

/-- The empty map. -/
def empty : OrdMap α := ⟨[], .nil⟩

/-- The value of a key in a list of entries. -/
def findEntry (k : ℕ) : List (ℕ × α) → Option α
  | [] => none
  | e :: rest => if e.1 = k then some e.2 else findEntry k rest

/-- The value of a key. -/
def find (m : OrdMap α) (k : ℕ) : Option α := findEntry k m.entries

/-- Entries with a key set to a value, in order. -/
def setEntry (k : ℕ) (v : α) : List (ℕ × α) → List (ℕ × α)
  | [] => [(k, v)]
  | e :: rest =>
    if k < e.1 then (k, v) :: e :: rest
    else if k = e.1 then (k, v) :: rest
    else e :: setEntry k v rest

/-- An entry after a store is the new one or an old one. -/
theorem mem_setEntry {k : ℕ} {v : α} {l : List (ℕ × α)} {e : ℕ × α}
    (h : e ∈ setEntry k v l) : e = (k, v) ∨ e ∈ l := by
  induction l with
  | nil => simpa [setEntry] using h
  | cons e' rest ih =>
    unfold setEntry at h
    split at h
    · simpa using h
    split at h
    · rcases List.mem_cons.mp h with h | h
      · exact Or.inl h
      · exact Or.inr (List.mem_cons_of_mem _ h)
    · rcases List.mem_cons.mp h with rfl | h
      · exact Or.inr List.mem_cons_self
      · exact (ih h).imp_right (List.mem_cons_of_mem _)

/-- A store keeps the entries sorted. -/
theorem setEntry_sorted {k : ℕ} {v : α} {l : List (ℕ × α)}
    (h : l.Pairwise fun a b => a.1 < b.1) : (setEntry k v l).Pairwise fun a b => a.1 < b.1 := by
  induction l with
  | nil => simp [setEntry]
  | cons e rest ih =>
    obtain ⟨hhead, htail⟩ := List.pairwise_cons.mp h
    unfold setEntry
    split
    · next hlt =>
      refine List.pairwise_cons.mpr ⟨?_, h⟩
      intro e' he'
      rcases List.mem_cons.mp he' with rfl | he'
      · exact hlt
      · exact hlt.trans (hhead e' he')
    split
    · next heq =>
      refine List.pairwise_cons.mpr ⟨?_, htail⟩
      intro e' he'
      rw [heq]
      exact hhead e' he'
    · refine List.pairwise_cons.mpr ⟨?_, ih htail⟩
      intro e' he'
      rcases mem_setEntry he' with rfl | he'
      · dsimp only
        omega
      · exact hhead e' he'

/-- The map with a key set to a value. -/
def set (m : OrdMap α) (k : ℕ) (v : α) : OrdMap α :=
  ⟨setEntry k v m.entries, setEntry_sorted m.sorted⟩

/-- The map without a key. -/
def erase (m : OrdMap α) (k : ℕ) : OrdMap α :=
  ⟨m.entries.filter fun e => e.1 ≠ k, m.sorted.filter _⟩

/-- The empty map finds nothing. -/
@[simp] theorem find_empty (k : ℕ) : (empty : OrdMap α).find k = none := rfl

/-- What a search finds after a key is set. -/
@[simp] theorem find_set (m : OrdMap α) (k k' : ℕ) (v : α) :
    (m.set k v).find k' = if k = k' then some v else m.find k' := by
  obtain ⟨l, hl⟩ := m
  simp only [find, set]
  induction l with
  | nil => simp [setEntry, findEntry]
  | cons e rest ih =>
    obtain ⟨hhead, htail⟩ := List.pairwise_cons.mp hl
    have ih := ih htail
    unfold setEntry
    split
    · simp [findEntry]
    split
    · next heq =>
      subst heq
      by_cases hk : e.1 = k' <;> simp [findEntry, hk]
    · next hlt hne =>
      simp only [findEntry, ih]
      by_cases hk : e.1 = k'
      · have hne' : k ≠ k' := by omega
        simp [hk, hne']
      · simp [hk]

/-- What a search finds after a key is erased. -/
@[simp] theorem find_erase (m : OrdMap α) (k k' : ℕ) :
    (m.erase k).find k' = if k = k' then none else m.find k' := by
  obtain ⟨l, hl⟩ := m
  simp only [find, erase]
  clear hl
  induction l with
  | nil => simp [findEntry]
  | cons e rest ih =>
    by_cases he : e.1 = k
    · rw [List.filter_cons_of_neg (by simpa using he), ih]
      by_cases hk : k = k'
      · simp [hk]
      · have hne : e.1 ≠ k' := by omega
        simp [findEntry, hk, hne]
    · rw [List.filter_cons_of_pos (by simpa using he)]
      simp only [findEntry, ih]
      by_cases hk : e.1 = k'
      · have hne : k ≠ k' := by omega
        simp [hk, hne]
      · simp [hk]

/-- A new key goes between the smaller and the larger ones. -/
theorem setEntry_append {k : ℕ} {v : α} {xs ys : List (ℕ × α)} (hxs : ∀ e ∈ xs, e.1 < k)
    (hys : ∀ e ∈ ys, k < e.1) : setEntry k v (xs ++ ys) = xs ++ (k, v) :: ys := by
  induction xs with
  | nil =>
    cases ys with
    | nil => rfl
    | cons e ys => exact if_pos (hys e List.mem_cons_self)
  | cons e xs ih =>
    have hlt := hxs e List.mem_cons_self
    rw [List.cons_append, setEntry, if_neg (by omega), if_neg (by omega),
      ih fun a ha => hxs a (List.mem_cons_of_mem _ ha)]
    rfl

/-- A search is a search of the list of entries. -/
theorem findEntry_eq_find? (k : ℕ) (l : List (ℕ × α)) :
    findEntry k l = (l.find? fun e => e.1 = k).map Prod.snd := by
  induction l with
  | nil => rfl
  | cons e l ih =>
    rw [findEntry, List.find?_cons]
    by_cases he : e.1 = k
    · simp [he]
    · simp [he, ih]

/-- Nothing is erased of a key that is not there. -/
theorem erase_of_find {m : OrdMap α} {k : ℕ} (h : m.find k = none) : m.erase k = m := by
  apply ext
  apply List.filter_eq_self.mpr
  intro e he
  rw [find, findEntry_eq_find?, Option.map_eq_none_iff, List.find?_eq_none] at h
  simpa using h e he

/-- The entries are the keys with their values. -/
theorem mem_entries {m : OrdMap α} {k : ℕ} {v : α} : (k, v) ∈ m.entries ↔ m.find k = some v := by
  obtain ⟨l, hl⟩ := m
  simp only [find]
  induction l with
  | nil => simp [findEntry]
  | cons e rest ih =>
    obtain ⟨hhead, htail⟩ := List.pairwise_cons.mp hl
    have ih := ih htail
    simp only [findEntry, List.mem_cons]
    by_cases he : e.1 = k
    · subst he
      have hrest : (e.1, v) ∉ rest := fun hmem => lt_irrefl e.1 (hhead (e.1, v) hmem)
      simp only [if_true, hrest, or_false, Option.some.injEq]
      exact ⟨fun h => (congrArg Prod.snd h).symm, fun h => Prod.ext rfl h.symm⟩
    · have hne : (k, v) ≠ e := fun h => he (congrArg Prod.fst h).symm
      simp only [he, if_false, hne, false_or, ih]

end OrdMap

end Efs.Library
