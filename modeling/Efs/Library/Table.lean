import Mathlib.Data.List.Perm.Basic
import Mathlib.Data.List.Nodup

/-!
# Tables with empty slots

A table is a list of entries of which some are empty and the others have keys. A scan
looks for a key and remembers the first empty slot on the way; an insertion takes this
slot, or the end of the table. While no key is there twice, a table is a finite map.
-/

namespace Efs.Library

variable {E K : Type}

namespace Table

/-- The entry of a key. -/
def lookup [DecidableEq K] (key : E → Option K) (k : K) : List E → Option E
  | [] => none
  | e :: es => if key e = some k then some e else lookup key k es

/-- The first empty slot, or the end. -/
def place (key : E → Option K) : List E → ℕ
  | [] => 0
  | e :: es => if key e = none then 0 else place key es + 1

/-- The table with an entry in the first empty slot, or at the end. -/
def insert (key : E → Option K) (new : E) : List E → List E
  | [] => [new]
  | e :: es => if key e = none then new :: es else e :: insert key new es

/-- The scan from the slot `i` on: the entry of the key, and the first empty slot that was
found before it. -/
def scan [DecidableEq K] (key : E → Option K) (k : K) : List E → ℕ → Option ℕ → Option E × Option ℕ
  | [], _, empty => (none, empty)
  | e :: es, i, empty =>
    if key e = none then scan key k es (i + 1) (empty.or (some i))
    else if key e = some k then (some e, empty)
    else scan key k es (i + 1) empty

/-- The keys of the entries that are not empty. -/
def keys (key : E → Option K) (es : List E) : List K := es.filterMap key

/-- No key is there twice. -/
def Distinct (key : E → Option K) (es : List E) : Prop := (keys key es).Nodup

variable {key : E → Option K} {k k' : K} {e new : E} {es : List E} {i : ℕ} {empty : Option ℕ}

/-! ## Insertions -/

/-- The place for a key is in the table or at its end. -/
theorem place_le : place key es ≤ es.length := by
  induction es with
  | nil => exact Nat.le_refl 0
  | cons x xs ih =>
    unfold place
    rw [List.length_cons]
    split_ifs <;> omega

/-- Only the first empty slot, or the end, is changed. -/
theorem getElem?_insert : (insert key new es)[i]? =
    if i = place key es then some new else es[i]? := by
  induction es generalizing i with
  | nil =>
    cases i with
    | zero => rfl
    | succ i => simp [insert, place]
  | cons x xs ih =>
    unfold insert place
    by_cases hnone : key x = none
    · rw [if_pos hnone, if_pos hnone]
      cases i with
      | zero => rfl
      | succ i => simp
    · rw [if_neg hnone, if_neg hnone]
      cases i with
      | zero => simp
      | succ i =>
        rw [List.getElem?_cons_succ, ih, List.getElem?_cons_succ]
        simp only [Nat.add_right_cancel_iff]

/-- A table grows when the place is at its end. -/
theorem length_insert : (insert key new es).length = max es.length (place key es + 1) := by
  induction es with
  | nil => rfl
  | cons x xs ih =>
    unfold insert place
    by_cases hnone : key x = none
    · rw [if_pos hnone, if_pos hnone, List.length_cons, List.length_cons]
      omega
    · rw [if_neg hnone, if_neg hnone, List.length_cons, List.length_cons, ih]
      omega

/-- The keys after an insertion. -/
theorem keys_insert_perm (hnew : key new = some k) :
    (keys key (insert key new es)).Perm (k :: keys key es) := by
  induction es with
  | nil => simp [insert, keys, hnew]
  | cons x xs ih =>
    unfold insert
    cases hx : key x with
    | none => simp [keys, hx, hnew]
    | some k' =>
      simp only [reduceCtorEq, if_false, keys, List.filterMap_cons_some hx]
      exact (ih.cons k').trans (List.Perm.swap k k' _)

variable [DecidableEq K]

/-! ## Lookups -/

/-- An entry that is looked up has the key. -/
theorem key_of_lookup (h : lookup key k es = some e) : key e = some k := by
  induction es with
  | nil => cases h
  | cons x xs ih =>
    by_cases hx : key x = some k
    · rw [lookup, if_pos hx] at h
      exact Option.some.inj h ▸ hx
    · rw [lookup, if_neg hx] at h
      exact ih h

/-- An entry that is found is in the table. -/
theorem mem_of_lookup (h : lookup key k es = some e) : e ∈ es := by
  induction es with
  | nil => cases h
  | cons x xs ih =>
    by_cases hx : key x = some k
    · rw [lookup, if_pos hx] at h
      exact Option.some.inj h ▸ List.mem_cons_self
    · rw [lookup, if_neg hx] at h
      exact List.mem_cons_of_mem x (ih h)

/-- A key is looked up in vain when no entry has it. -/
theorem lookup_eq_none_iff : lookup key k es = none ↔ k ∉ keys key es := by
  induction es with
  | nil => simp [lookup, keys]
  | cons x xs ih =>
    by_cases hx : key x = some k
    · simp [lookup, keys, hx]
    · rw [lookup, if_neg hx, ih]
      cases hkey : key x with
      | none => simp [keys, hkey]
      | some k' =>
        have hne : k ≠ k' := by
          rintro rfl
          exact hx hkey
        simp [keys, hkey, hne]

/-- The scan finds what the lookup finds. -/
theorem fst_scan : (scan key k es i empty).1 = lookup key k es := by
  induction es generalizing i empty with
  | nil => rfl
  | cons x xs ih =>
    unfold scan lookup
    by_cases hnone : key x = none
    · rw [if_pos hnone, if_neg (by simp [hnone]), ih]
    · rw [if_neg hnone]
      by_cases hx : key x = some k
      · rw [if_pos hx, if_pos hx]
      · rw [if_neg hx, if_neg hx, ih]

/-- A scan in vain has found the first empty slot. -/
theorem snd_scan (h : lookup key k es = none) :
    (scan key k es i empty).2.getD (i + es.length) = empty.getD (i + place key es) := by
  induction es generalizing i empty with
  | nil => rfl
  | cons x xs ih =>
    by_cases hx : key x = some k
    · rw [lookup, if_pos hx] at h
      cases h
    · rw [lookup, if_neg hx] at h
      unfold scan place
      have hlength : i + (x :: xs).length = i + 1 + xs.length := by
        rw [List.length_cons]
        omega
      by_cases hnone : key x = none
      · rw [if_pos hnone, if_pos hnone, hlength, ih h]
        cases empty <;> rfl
      · have hplace : i + (place key xs + 1) = i + 1 + place key xs := by omega
        rw [if_neg hnone, if_neg hnone, if_neg hx, hlength, ih h, hplace]

/-! ## Lookups after insertions -/

/-- Another key is there once after it was inserted. -/
theorem Distinct.insert (h : Distinct key es) (hnew : key new = some k)
    (hfresh : lookup key k es = none) : Distinct key (insert key new es) := by
  have hperm : (keys key (Table.insert key new es)).Perm (k :: keys key es) := keys_insert_perm hnew
  exact hperm.nodup_iff.mpr (List.nodup_cons.mpr ⟨lookup_eq_none_iff.mp hfresh, h⟩)

/-- What is looked up after an insertion. -/
theorem lookup_insert (hnew : key new = some k) (hfresh : lookup key k es = none) :
    lookup key k' (insert key new es) = if k' = k then some new else lookup key k' es := by
  induction es with
  | nil => simp [insert, lookup, hnew, eq_comm]
  | cons x xs ih =>
    by_cases hx : key x = some k
    · rw [lookup, if_pos hx] at hfresh
      cases hfresh
    · rw [lookup, if_neg hx] at hfresh
      unfold insert
      by_cases hnone : key x = none
      · rw [if_pos hnone, lookup, lookup, hnew, hnone]
        simp [eq_comm]
      · rw [if_neg hnone, lookup, ih hfresh, lookup]
        by_cases hk : k' = k
        · rw [hk, if_pos rfl, if_neg hx, if_pos rfl]
        · rw [if_neg hk, if_neg hk]

/-- While no key is there twice, the lookup finds every entry. -/
theorem Distinct.lookup_eq_some_iff (h : Distinct key es) :
    lookup key k es = some e ↔ e ∈ es ∧ key e = some k := by
  constructor
  · intro hfound
    exact ⟨mem_of_lookup hfound, key_of_lookup hfound⟩
  · rintro ⟨hmem, hkey⟩
    induction es with
    | nil => cases hmem
    | cons x xs ih =>
      by_cases hx : key x = some k
      · rw [lookup, if_pos hx]
        rcases List.mem_cons.mp hmem with rfl | hmem
        · rfl
        · -- The key of `x` would be there twice.
          have hnodup : (k :: keys key xs).Nodup := by
            simpa only [Distinct, keys, List.filterMap_cons_some hx] using h
          exact absurd (List.mem_filterMap.mpr ⟨e, hmem, hkey⟩) (List.nodup_cons.mp hnodup).1
      · rw [lookup, if_neg hx]
        rcases List.mem_cons.mp hmem with rfl | hmem
        · exact absurd hkey hx
        · refine ih ?_ hmem
          cases hkx : key x with
          | none => simpa [Distinct, keys, hkx] using h
          | some k' =>
            have hnodup : (k' :: keys key xs).Nodup := by
              simpa only [Distinct, keys, List.filterMap_cons_some hkx] using h
            exact (List.nodup_cons.mp hnodup).2

end Table

end Efs.Library
