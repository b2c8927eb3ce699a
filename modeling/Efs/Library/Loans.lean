import Mathlib.Data.Multiset.Count
import Mathlib.Data.Multiset.AddSub
import Mathlib.Algebra.BigOperators.Group.Finset.Piecewise
import Mathlib.Algebra.Order.Group.Multiset

/-!
# Reference counts as loans

A table of objects with addresses and reference counts, and the multiset of the references
that are on loan. The table is in order when each count is the number of its loans, and each
loan has the address of its object. An object without a loan can leave the table.
-/

namespace Efs.Library

variable {ι π : Type}

/-- The counts in the table are those of the loans. -/
structure Loans [DecidableEq ι] (table : ι → Option (π × ℕ)) (loans : Multiset (ι × π)) : Prop where
  /-- The count of an object is the number of its loans. -/
  count : ∀ i, ((table i).map Prod.snd).getD 0 = loans.countP fun l => l.1 = i
  /-- A loan has the address of its object. -/
  addr : ∀ l ∈ loans, ∃ n, table l.1 = some (l.2, n)

namespace Loans

variable [DecidableEq ι] {table table' : ι → Option (π × ℕ)} {loans : Multiset (ι × π)} {i : ι}
  {p : π} {n : ℕ}

/-- An object with a count has a loan. -/
theorem exists_mem (h : Loans table loans) (hi : table i = some (p, n)) (hn : n ≠ 0) :
    (i, p) ∈ loans := by
  have hcount := h.count i
  rw [hi] at hcount
  have hpos : 0 < loans.countP fun l => l.1 = i := hcount ▸ Nat.pos_of_ne_zero hn
  obtain ⟨⟨j, q⟩, hmem, rfl⟩ := Multiset.countP_pos.mp hpos
  obtain ⟨m, hm⟩ := h.addr _ hmem
  rw [hi] at hm
  cases hm
  exact hmem

/-- The counts of finitely many objects are those of some loans. -/
theorem exists_of_finite (objects : Finset ι) (h : ∀ i, table i ≠ none → i ∈ objects) :
    ∃ loans, Loans table loans := by
  let lent : ι → Multiset (ι × π) := fun i =>
    ((table i).map fun q => Multiset.replicate q.2 (i, q.1)).getD 0
  have hlent : ∀ i j, (lent j).countP (fun l => l.1 = i) =
      if i = j then ((table j).map Prod.snd).getD 0 else 0 := by
    intro i j
    simp only [lent]
    cases table j with
    | none => simp
    | some q =>
      rw [Option.map_some, Option.getD_some, Multiset.countP_eq_card_filter]
      by_cases hij : i = j
      · rw [if_pos hij, Multiset.filter_eq_self.mpr, Multiset.card_replicate]
        · rfl
        · intro l hl
          rw [Multiset.eq_of_mem_replicate hl, hij]
      · rw [if_neg hij, Multiset.filter_eq_nil.mpr, Multiset.card_zero]
        intro l hl heq
        rw [Multiset.eq_of_mem_replicate hl] at heq
        exact hij heq.symm
  refine ⟨∑ j ∈ objects, lent j, fun i => ?_, fun l hl => ?_⟩
  · have hsum := map_sum (Multiset.countPAddMonoidHom fun l : ι × π => l.1 = i) lent objects
    simp only [Multiset.coe_countPAddMonoidHom] at hsum
    rw [hsum, Finset.sum_congr rfl fun j _ => hlent i j, Finset.sum_ite_eq]
    split_ifs with hi
    · rfl
    · rw [not_not.mp (mt (h i) hi)]
      rfl
  · obtain ⟨j, _, hj⟩ := Multiset.mem_sum.mp hl
    simp only [lent] at hj
    cases htable : table j with
    | none => simp [htable] at hj
    | some q =>
      rw [htable, Option.map_some, Option.getD_some] at hj
      obtain rfl := Multiset.eq_of_mem_replicate hj
      exact ⟨q.2, htable⟩

/-- An object of a loan has a count. -/
theorem count_ne (h : Loans table loans) (hmem : (i, p) ∈ loans) : ∃ n, table i = some (p, n) ∧
    n ≠ 0 := by
  obtain ⟨n, hn⟩ := h.addr _ hmem
  have hcount := h.count i
  rw [hn] at hcount
  refine ⟨n, hn, ?_⟩
  have hpos : 0 < loans.countP fun l => l.1 = i := Multiset.countP_pos.mpr ⟨_, hmem, rfl⟩
  exact (hcount.trans_gt hpos).ne'

/-- The table may change where no count changes, and lose objects without a loan. -/
theorem of_table (h : Loans table loans)
    (hsame : ∀ i, table' i = table i ∨ table' i = none ∧ ∃ p, table i = some (p, 0)) :
      Loans table' loans := by
  refine ⟨fun i => ?_, fun l hl => ?_⟩
  · rcases hsame i with heq | ⟨hnone, p, hi⟩
    · rw [heq]
      exact h.count i
    · rw [hnone, ← h.count i, hi]
      rfl
  · obtain ⟨n, hn, hne⟩ := h.count_ne (i := l.1) (p := l.2) hl
    rcases hsame l.1 with heq | ⟨_, p, hi⟩
    · exact ⟨n, heq.trans hn⟩
    · rw [hn] at hi
      cases hi
      exact absurd rfl hne

/-- One more loan of an object, or the first one of a new object. -/
theorem lend (h : Loans table loans) (hother : ∀ j ≠ i, table' j = table j ∨ table' j = none ∧
    ∃ q, table j = some (q, 0))
    (hself : table' i = some (p, ((table i).map Prod.snd).getD 0 + 1))
    (haddr : ∀ q n, table i = some (q, n) → q = p) : Loans table' ((i, p) ::ₘ loans) := by
  refine ⟨fun j => ?_, fun l hl => ?_⟩
  · rw [Multiset.countP_cons]
    by_cases hj : j = i
    · subst hj
      rw [hself, if_pos rfl, ← h.count]
      rfl
    · rw [if_neg (Ne.symm hj), ← h.count]
      rcases hother j hj with heq | ⟨hnone, q, hq⟩
      · rw [heq]
        rfl
      · rw [hnone, hq]
        rfl
  · rcases Multiset.mem_cons.mp hl with rfl | hl
    · exact ⟨_, hself⟩
    · obtain ⟨n, hn, hne⟩ := h.count_ne (i := l.1) (p := l.2) hl
      by_cases hj : l.1 = i
      · rw [hj] at hn ⊢
        rw [haddr _ _ hn]
        exact ⟨_, hself⟩
      · rcases hother l.1 hj with heq | ⟨_, q, hq⟩
        · exact ⟨n, heq.trans hn⟩
        · rw [hn] at hq
          cases hq
          exact absurd rfl hne

/-- A loan was given back. -/
theorem giveBack (h : Loans table ((i, p) ::ₘ loans)) (hother : ∀ j ≠ i, table' j = table j)
    (hself : ∀ n, table i = some (p, n) → table' i = some (p, n - 1)) : Loans table' loans := by
  obtain ⟨n, hn, hne⟩ := h.count_ne (Multiset.mem_cons_self (i, p) loans)
  have hcount := h.count i
  rw [hn, Multiset.countP_cons, if_pos rfl] at hcount
  refine ⟨fun j => ?_, fun l hl => ?_⟩
  · by_cases hj : j = i
    · subst hj
      rw [hself n hn]
      exact Nat.sub_eq_of_eq_add hcount
    · rw [hother j hj, h.count, Multiset.countP_cons, if_neg (Ne.symm hj)]
      rfl
  · obtain ⟨m, hm⟩ := h.addr l (Multiset.mem_cons_of_mem hl)
    by_cases hj : l.1 = i
    · rw [hj] at hm ⊢
      rw [hn] at hm
      cases hm
      exact ⟨_, hself _ hn⟩
    · exact ⟨m, (hother _ hj).trans hm⟩

end Loans

end Efs.Library
