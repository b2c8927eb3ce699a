import Mathlib.Data.List.Nodup
import Mathlib.Logic.Function.Basic

/-!
# Doubly linked circular lists

The links of a circular list with a head that is not an element of it: following
`next` from the head visits the elements in order and comes back to it, and following
`prev` visits them in the opposite order. Taking an element out and putting one in
behind the head are two updates of links each way.
-/

namespace Efs.Library

variable {A : Type}

/-- The links of all places. -/
structure Links (A : Type) where
  /-- The place after a place. -/
  next : A → A
  /-- The place before a place. -/
  prev : A → A

/-- Following `f` from `a` visits the places `l` and then `b`. -/
def Follows (f : A → A) : A → List A → A → Prop
  | a, [], b => f a = b
  | a, c :: l, b => f a = c ∧ Follows f c l b

/-- The places from `a` over `l` to `b` are linked in both directions. -/
def Links.Linked (m : Links A) : A → List A → A → Prop
  | a, [], b => m.next a = b ∧ m.prev b = a
  | a, c :: l, b => m.next a = c ∧ m.prev c = a ∧ Linked m c l b

/-- The places `l` are linked in a circle with the head. -/
structure Links.Ring (m : Links A) (head : A) (l : List A) : Prop where
  /-- They are linked in both directions. -/
  linked : m.Linked head l head
  /-- They are distinct. -/
  nodup : l.Nodup
  /-- The head is none of them. -/
  head_not_mem : head ∉ l

section

variable {f : A → A} {m m' : Links A} {head a b c : A} {l l' l₁ l₂ : List A}

/-! ## The two directions -/

/-- A way through a place is a way to it and a way from it. -/
theorem follows_append : Follows f a (l₁ ++ c :: l₂) b ↔ Follows f a l₁ c ∧ Follows f c l₂ b := by
  induction l₁ generalizing a with
  | nil => rfl
  | cons d l₁ ih => simp only [List.cons_append, Follows, ih, and_assoc]

/-- The way from a place to an end that is not on it is determined. -/
theorem Follows.unique (h : Follows f a l b) (h' : Follows f a l' b) (hb : b ∉ l) (hb' : b ∉ l') :
    l = l' := by
  induction l generalizing a l' with
  | nil =>
    cases l' with
    | nil => rfl
    | cons c l' =>
      have hc : c = b := h'.1.symm.trans h
      rw [hc] at hb'
      exact absurd List.mem_cons_self hb'
  | cons c l ih =>
    cases l' with
    | nil =>
      have hc : c = b := h.1.symm.trans h'
      rw [hc] at hb
      exact absurd List.mem_cons_self hb
    | cons d l' =>
      have hcd : c = d := h.1.symm.trans h'.1
      subst hcd
      have htail := ih h.2 h'.2 (fun hin => hb (List.mem_cons_of_mem _ hin)) fun hin =>
        hb' (List.mem_cons_of_mem _ hin)
      rw [htail]

/-- Places that are linked through a place are linked to it and from it. -/
theorem Links.linked_append :
    m.Linked a (l₁ ++ c :: l₂) b ↔ m.Linked a l₁ c ∧ m.Linked c l₂ b := by
  induction l₁ generalizing a with
  | nil => simp only [List.nil_append, Links.Linked, and_assoc]
  | cons d l₁ ih => simp only [List.cons_append, Links.Linked, ih, and_assoc]

/-- Linked places are visited forwards. -/
theorem Links.Linked.forward (h : m.Linked a l b) : Follows m.next a l b := by
  induction l generalizing a with
  | nil => exact h.1
  | cons c l ih => exact ⟨h.1, ih h.2.2⟩

/-- Linked places are visited backwards. -/
theorem Links.Linked.backward (h : m.Linked a l b) : Follows m.prev b l.reverse a := by
  induction l generalizing a with
  | nil => exact h.2
  | cons c l ih =>
    rw [List.reverse_cons, follows_append]
    exact ⟨ih h.2.2, h.2.1⟩

/-- Places that are visited forwards and backwards are linked. -/
theorem Links.linked_of_follows (h : Follows m.next a l b) (h' : Follows m.prev b l.reverse a) :
    m.Linked a l b := by
  induction l generalizing a with
  | nil => exact ⟨h, h'⟩
  | cons c l ih =>
    rw [List.reverse_cons, follows_append] at h'
    exact ⟨h.1, h'.2, ih h.2 h'.1⟩

/-- Only the links of the places on the way matter. -/
theorem Links.Linked.congr (h : m.Linked a l b) (hnext : ∀ x ∈ a :: l, m'.next x = m.next x)
    (hprev : ∀ x ∈ l ++ [b], m'.prev x = m.prev x) : m'.Linked a l b := by
  induction l generalizing a with
  | nil =>
    constructor
    · rw [hnext a List.mem_cons_self, h.1]
    · rw [hprev b (by simp), h.2]
  | cons c l ih =>
    refine ⟨?_, ?_, ih h.2.2 ?_ ?_⟩
    · rw [hnext a List.mem_cons_self, h.1]
    · rw [hprev c (by simp), h.2.1]
    · intro x hx
      exact hnext x (List.mem_cons_of_mem _ hx)
    · intro x hx
      exact hprev x (List.mem_cons_of_mem _ hx)

/-- Only the links of the head and of the elements matter. -/
theorem Links.Ring.congr (h : m.Ring head l) (hnext : ∀ x ∈ head :: l, m'.next x = m.next x)
    (hprev : ∀ x ∈ head :: l, m'.prev x = m.prev x) : m'.Ring head l := by
  refine ⟨h.linked.congr hnext fun x hx => hprev x ?_, h.nodup, h.head_not_mem⟩
  rcases List.mem_append.mp hx with hx | hx
  · exact List.mem_cons_of_mem _ hx
  · rw [List.mem_singleton.mp hx]
    exact List.mem_cons_self

/-- The place before an end is the start or on the way. -/
theorem Links.Linked.prev_mem (h : m.Linked a l b) : m.prev b ∈ a :: l := by
  induction l generalizing a with
  | nil =>
    rw [h.2]
    exact List.mem_cons_self
  | cons c l ih => exact List.mem_cons_of_mem _ (ih h.2.2)

/-- The place after a start is the end or on the way. -/
theorem Links.Linked.next_mem (h : m.Linked a l b) : m.next a ∈ l ++ [b] := by
  cases l with
  | nil => simp [h.1]
  | cons c l => simp [h.1]

end

/-! ## Taking out and putting in -/

section

variable [DecidableEq A] {m : Links A} {head a b c : A} {l l₁ l₂ : List A}

/-- The links after `a->prev->next = a->next; a->next->prev = a->prev`. -/
def Links.unlink (m : Links A) (a : A) : Links A where
  next := Function.update m.next (m.prev a) (m.next a)
  prev := Function.update m.prev (m.next a) (m.prev a)

/-- The links after a place is put in between the head and the place after it. -/
def Links.link (m : Links A) (head a : A) : Links A where
  next := Function.update (Function.update m.next a (m.next head)) head a
  prev := Function.update (Function.update m.prev (m.next head) a) a head

/-- A place that is taken out leaves the others linked. -/
theorem Links.Linked.unlink (h : m.Linked b (l₁ ++ a :: l₂) c) (hnodup : (l₁ ++ a :: l₂).Nodup)
    (hb : b ∉ l₁ ++ a :: l₂) (hc : c ∉ l₁ ++ a :: l₂) : (m.unlink a).Linked b (l₁ ++ l₂) c := by
  obtain ⟨hbefore, hafter⟩ := Links.linked_append.mp h
  have hprev := hbefore.prev_mem
  have hnext := hafter.next_mem
  induction l₁ generalizing b with
  | nil =>
    have hpa : m.prev a = b := hbefore.2
    cases l₂ with
    | nil =>
      have hna : m.next a = c := hafter.1
      constructor
      · rw [Links.unlink, hpa, hna]
        exact Function.update_self ..
      · rw [Links.unlink, hpa, hna]
        exact Function.update_self ..
    | cons d l =>
      have hna : m.next a = d := hafter.1
      simp only [List.nil_append, List.nodup_cons, List.mem_cons, not_or] at hnodup hb hc
      refine ⟨?_, ?_, hafter.2.2.congr ?_ ?_⟩
      · rw [Links.unlink, hpa, hna]
        exact Function.update_self ..
      · rw [Links.unlink, hpa, hna]
        exact Function.update_self ..
      · intro x hx
        refine Function.update_of_ne ?_ _ _
        rw [hpa]
        rintro rfl
        rcases List.mem_cons.mp hx with rfl | hx
        · exact hb.2.1 rfl
        · exact hb.2.2 hx
      · intro x hx
        refine Function.update_of_ne ?_ _ _
        rw [hna]
        rintro rfl
        rcases List.mem_append.mp hx with hx | hx
        · exact hnodup.2.1 hx
        · exact hc.2.1 (List.mem_singleton.mp hx).symm
  | cons d l₁ ih =>
    simp only [List.cons_append, List.nodup_cons, List.mem_cons, not_or] at hnodup hb hc
    have hprev' := hbefore.2.2.prev_mem
    refine ⟨?_, ?_, ih h.2.2 hnodup.2 hnodup.1 hc.2 hbefore.2.2 hprev'⟩
    · rw [← h.1]
      refine Function.update_of_ne ?_ _ _
      rintro rfl
      rcases List.mem_cons.mp hprev' with heq | hin
      · exact hb.1 heq
      · exact hb.2 (List.mem_append_left _ hin)
    · rw [← h.2.1]
      refine Function.update_of_ne ?_ _ _
      rintro rfl
      rcases List.mem_append.mp hnext with hin | hin
      · exact hnodup.1 (List.mem_append_right _ (List.mem_cons_of_mem _ hin))
      · exact hc.1 (List.mem_singleton.mp hin).symm

/-- An element that is taken out of a circle leaves the others in their order. -/
theorem Links.Ring.unlink (h : m.Ring head (l₁ ++ a :: l₂)) :
    (m.unlink a).Ring head (l₁ ++ l₂) := by
  have hsub : (l₁ ++ l₂).Sublist (l₁ ++ a :: l₂) :=
    (List.Sublist.refl l₁).append (List.sublist_cons_self a l₂)
  constructor
  · exact h.linked.unlink h.nodup h.head_not_mem h.head_not_mem
  · exact h.nodup.sublist hsub
  · exact fun hin => h.head_not_mem (hsub.subset hin)

/-- A place that is put in behind the head becomes the first element. -/
theorem Links.Ring.link (h : m.Ring head l) (hhead : a ≠ head) (ha : a ∉ l) :
    (m.link head a).Ring head (a :: l) := by
  refine ⟨⟨Function.update_self .., Function.update_self .., ?_⟩, ?_, ?_⟩
  · have hself : (m.link head a).next a = m.next head := by
      rw [Links.link]
      simp only [Function.update_of_ne hhead, Function.update_self]
    cases l with
    | nil =>
      have hnext : m.next head = head := h.linked.1
      constructor
      · rw [hself, hnext]
      · rw [Links.link]
        simp only [hnext, Function.update_of_ne hhead.symm, Function.update_self]
    | cons c l =>
      have hnext : m.next head = c := h.linked.1
      have hnodup := h.nodup
      have hout := h.head_not_mem
      simp only [List.nodup_cons, List.mem_cons, not_or] at hnodup hout ha
      refine ⟨by rw [hself, hnext], ?_, h.linked.2.2.congr ?_ ?_⟩
      · rw [Links.link]
        simp only [hnext, Function.update_of_ne (Ne.symm ha.1), Function.update_self]
      · intro x hx
        have hxhead : x ≠ head := by
          rintro rfl
          exact h.head_not_mem hx
        have hxa : x ≠ a := by
          rintro rfl
          exact (List.mem_cons.mp hx).elim ha.1 ha.2
        rw [Links.link]
        simp only [Function.update_of_ne hxhead, Function.update_of_ne hxa]
      · intro x hx
        have hxa : x ≠ a := by
          rintro rfl
          rcases List.mem_append.mp hx with hx | hx
          · exact ha.2 hx
          · exact hhead (List.mem_singleton.mp hx)
        have hxc : x ≠ c := by
          rintro rfl
          rcases List.mem_append.mp hx with hx | hx
          · exact hnodup.1 hx
          · exact hout.1 (List.mem_singleton.mp hx).symm
        rw [Links.link]
        simp only [hnext, Function.update_of_ne hxa, Function.update_of_ne hxc]
  · exact List.nodup_cons.mpr ⟨ha, h.nodup⟩
  · intro hin
    rcases List.mem_cons.mp hin with heq | hin
    · exact hhead heq.symm
    · exact h.head_not_mem hin

end

end Efs.Library
