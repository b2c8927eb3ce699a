import Efs.RbTree

/-!
# The trees of the bundled library stay red-black

`rb_insert_color` repairs a red node below a red parent, and `__rb_erase_color` a subtree with a
black node too few. On red-black trees neither follows a null pointer, and both keep the nodes in
order.
-/

namespace Efs

open Library

variable {α : Type} {t u node near far other top root : RbTree α} {place : RbPlace α} {addr n : ℕ}
  {up a c : Bool}
  {side : Side} {parent gparent : Frame (RbColor × TreeNode α)} {e : RbColor × TreeNode α}
  {located : Located (RbColor × TreeNode α)}

/-! ## Order -/

/-- Subtrees of the same nodes make trees of the same nodes at a place. -/
theorem nodesOf_plug_congr (h : nodesOf t = nodesOf u) : nodesOf (place.plug t) = nodesOf
    (place.plug u) :=
  values_plug_congr h

/-- So do the parts of a node, whatever its color. -/
theorem nodesOf_node_congr {e' : RbColor × TreeNode α} {near' far' : RbTree α} (he : e.2 = e'.2)
    (hnear : nodesOf near = nodesOf near') (hfar : nodesOf far = nodesOf far') :
    nodesOf (side.node e near far) = nodesOf (side.node e' near' far') :=
  values_node_congr he hnear hfar

/-- Blackening a root keeps the nodes. -/
theorem nodesOf_rbBlacken (t : RbTree α) : nodesOf (rbBlacken t) = nodesOf t := by
  cases t with
  | nil => rfl
  | node e left right => simp [nodesOf, rbBlacken, rbSetColor, inorder]

/-- `rb_set_black` blackens the node it is given. -/
theorem rbSetBlack_some (h : rbSetBlack t = some u) : u = rbBlacken t := by
  cases t with
  | nil => cases h
  | node e left right =>
    cases h
    rfl

/-- `rb_set_black` keeps the nodes. -/
theorem nodesOf_rbSetBlack (h : rbSetBlack t = some u) : nodesOf u = nodesOf t := by
  rw [rbSetBlack_some h, nodesOf_rbBlacken]

/-- The rotations of `rb_insert_color` keep the nodes. -/
theorem nodesOf_rbInsertTurn (h : rbInsertTurn side node parent = some u) :
    nodesOf u = nodesOf (parent.side.node parent.parent node parent.sibling) := by
  unfold rbInsertTurn at h
  split at h
  · cases h
    rfl
  · exact values_rotate h

/-- The rotations at the grandparent keep the order. -/
theorem nodesOf_rbInsertRotate (h : rbInsertRotate node parent gparent = some u) :
    nodesOf u = nodesOf (gparent.side.node gparent.parent
      (parent.side.node parent.parent node parent.sibling) gparent.sibling) := by
  obtain ⟨top, htop, h⟩ := Option.bind_eq_some_iff.mp h
  obtain ⟨black, hblack, h⟩ := Option.bind_eq_some_iff.mp h
  have hsub := (nodesOf_rbSetBlack hblack).trans (nodesOf_rbInsertTurn htop)
  have hturned : nodesOf u = nodesOf (gparent.side.node
    (rbSetColor .red gparent.parent) black gparent.sibling) :=
    values_rotate h
  exact hturned.trans (nodesOf_node_congr rfl hsub rfl)

/-- The loop of `rb_insert_color` keeps the nodes. -/
theorem nodesOf_rbInsertColorFrom (h : rbInsertColorFrom node place = some u) :
    nodesOf u = nodesOf (place.plug node) := by
  fun_induction rbInsertColorFrom node place with
  | case1 node => exact nodesOf_rbSetBlack h
  | case2 => cases h
  | case3 => exact nodesOf_rbSetBlack h
  | case4 node parent gparent place hred huncle top ih =>
    rw [ih h, TreePlace.plug_cons, TreePlace.plug_cons]
    apply nodesOf_plug_congr
    exact nodesOf_node_congr rfl (nodesOf_node_congr rfl rfl rfl) (nodesOf_rbBlacken _)
  | case5 node parent gparent place hred huncle =>
    obtain ⟨top, htop, h⟩ := Option.bind_eq_some_iff.mp h
    rw [nodesOf_rbSetBlack h, TreePlace.plug_cons, TreePlace.plug_cons]
    exact nodesOf_plug_congr (nodesOf_rbInsertRotate htop)
  | case6 => exact nodesOf_rbSetBlack h

/-- The rotations of `rb_erase_color` keep the nodes. -/
theorem nodesOf_rbEraseTurn (h : rbEraseTurn side other = some u) : nodesOf u = nodesOf other := by
  obtain ⟨⟨o, near, far⟩, hsplit, h⟩ := Option.bind_eq_some_iff.mp h
  dsimp only at h
  split at h
  · cases h
    rfl
  · obtain ⟨near', hnear, h⟩ := Option.bind_eq_some_iff.mp h
    rw [Side.eq_node_of_split hsplit]
    exact (values_rotate h).trans (nodesOf_node_congr rfl (nodesOf_rbSetBlack hnear) rfl)

/-- A round keeps the order. -/
theorem nodesOf_rbEraseRound (h : rbEraseRound side e node other = some (up, top)) :
    nodesOf top = nodesOf (side.node e node other) := by
  obtain ⟨⟨o, near, far⟩, hsplit, h⟩ := Option.bind_eq_some_iff.mp h
  dsimp only at h
  split at h
  · cases h
    rw [Side.eq_node_of_split hsplit]
    exact nodesOf_node_congr rfl rfl (nodesOf_node_congr rfl rfl rfl)
  · obtain ⟨turned, hturn, h⟩ := Option.bind_eq_some_iff.mp h
    obtain ⟨⟨o', near', far'⟩, hsplit', h⟩ := Option.bind_eq_some_iff.mp h
    obtain ⟨black, hblack, h⟩ := Option.bind_eq_some_iff.mp h
    obtain ⟨top', htop, h⟩ := Option.bind_eq_some_iff.mp h
    cases h
    have hturned := nodesOf_rbEraseTurn hturn
    rw [Side.eq_node_of_split hsplit'] at hturned
    have hchild : nodesOf (side.node (rbSetColor e.1 o') near' black) = nodesOf other := by
      rw [← hturned]
      exact nodesOf_node_congr rfl rfl (nodesOf_rbSetBlack hblack)
    exact (values_rotate htop).trans (nodesOf_node_congr rfl rfl hchild)

/-- The loop of `rb_erase_color` keeps the nodes. -/
theorem nodesOf_rbEraseColor (h : rbEraseColor node place = some u) :
    nodesOf u = nodesOf (place.plug node) := by
  induction place generalizing node with
  | nil =>
    cases h
    exact nodesOf_rbBlacken node
  | cons frame place ih =>
    rw [rbEraseColor] at h
    split at h
    · cases h
      exact nodesOf_plug_congr (nodesOf_rbBlacken node)
    obtain ⟨⟨o, near, far⟩, hsplit, h⟩ := Option.bind_eq_some_iff.mp h
    have hsibling := Side.eq_node_of_split hsplit
    dsimp only at h
    rw [TreePlace.plug_cons]
    split at h
    · obtain ⟨⟨up, top⟩, hround, h⟩ := Option.bind_eq_some_iff.mp h
      -- The order after the rotation at the parent.
      have hturned : nodesOf (frame.side.node (rbSetColor .black o) top far) =
          nodesOf (frame.side.node frame.parent node frame.sibling) := by
        have htop : nodesOf top = nodesOf (frame.side.node frame.parent node near) :=
          (nodesOf_rbEraseRound hround).trans (nodesOf_node_congr rfl rfl rfl)
        have hrotated : nodesOf (frame.side.node o (frame.side.node frame.parent node near) far) =
            nodesOf (frame.side.node frame.parent node (frame.side.node o near far)) :=
          values_rotate Side.rotate_node
        rw [hsibling, ← hrotated]
        exact nodesOf_node_congr rfl htop rfl
      dsimp only at h
      split at h
      · cases h
        rw [TreePlace.plug_cons, Frame.side_frame, Frame.parent_frame, Frame.sibling_frame]
        apply nodesOf_plug_congr
        exact (nodesOf_node_congr rfl (nodesOf_rbBlacken top) rfl).trans hturned
      · rw [nodesOf_rbSetBlack h, TreePlace.plug_cons, Frame.side_frame, Frame.parent_frame,
          Frame.sibling_frame]
        exact nodesOf_plug_congr hturned
    · obtain ⟨⟨up, top⟩, hround, h⟩ := Option.bind_eq_some_iff.mp h
      have htop := nodesOf_rbEraseRound hround
      dsimp only at h
      split at h
      · rw [ih h]
        exact nodesOf_plug_congr htop
      · rw [nodesOf_rbSetBlack h]
        exact nodesOf_plug_congr htop

/-! ## Balance -/

/-- A node is red when its color is. -/
theorem rbIsRed_node : rbIsRed (side.node e near far) = rbRed e := by
  cases side <;> rfl

/-- A node is blackened on either side. -/
theorem rbSetBlack_node :
    rbSetBlack (side.node e near far) = some (side.node (rbSetColor .black e) near far) := by
  cases side <;> rfl

/-- Blackening a node sets its color. -/
theorem rbBlacken_node : rbBlacken (side.node e near far) = side.node
    (rbSetColor .black e) near far := by
  cases side <;> rfl

/-- A blackened node is not red. -/
theorem rbRed_black : rbRed (rbSetColor .black e) = false := rfl

/-- A reddened node is red. -/
theorem rbRed_red : rbRed (rbSetColor .red e) = true := rfl

/-- The root of a balanced tree has the color of the tree. -/
theorem rbIsRed_of_balanced (h : Balanced rbRed t c n) : rbIsRed t = c := by
  cases h with
  | nil => rfl
  | red he _ _ => exact he
  | black he _ _ => exact he

/-- A red root that is painted black counts. -/
theorem blacken_red (h : Balanced rbRed t true n) : Balanced rbRed (rbBlacken t) false (n + 1) := by
  cases h with
  | red _ hl hr => exact .black rbRed_black hl hr

/-- A black root stays balanced when it is blackened. -/
theorem blacken_black (h : Balanced rbRed t false n) : Balanced rbRed (rbBlacken t) false n := by
  cases h with
  | nil => exact .nil
  | black _ hl hr => exact .black rbRed_black hl hr

/-- The last statement of the loops. -/
theorem rbSetBlack_redBlack (h : RedBlack rbRed t) (hne : t ≠ .nil) :
    ∃ u, rbSetBlack t = some u ∧ RedBlack rbRed u := by
  obtain ⟨n, h⟩ := h
  cases t with
  | nil => exact absurd rfl hne
  | node e left right => exact ⟨_, rfl, n, blacken_black h⟩

/-- The rotations at the grandparent repair a red node below a red parent. -/
theorem rbInsertRotate_balanced (hnode : Balanced rbRed node true n)
    (hred : rbRed parent.parent = true)
    (hsibling : Balanced rbRed parent.sibling false n)
      (huncle : Balanced rbRed gparent.sibling false n) :
    ∃ top, rbInsertRotate node parent gparent = some top ∧ Balanced rbRed top false (n + 1) := by
  unfold rbInsertRotate rbInsertTurn
  generalize gparent.side = side
  by_cases hside : parent.side = side
  · rw [hside]
    simp only [if_true, Option.bind_eq_bind, Option.bind_some, rbSetBlack_node,
      Side.rotate_other_node]
    refine ⟨_, rfl, ?_⟩
    exact .black_node rbRed_black hnode (.red_node rbRed_red hsibling huncle)
  · obtain ⟨e, near, far, rfl⟩ := side.exists_node hnode.ne_nil_of_red
    obtain ⟨_, hnear, hfar⟩ := hnode.of_red
    rw [Side.eq_other hside]
    have hother : side.other ≠ side := by cases side <;> simp [Side.other]
    simp only [hother, if_false, Side.other_node, Side.rotate_node, Option.bind_eq_bind,
      Option.bind_some,
      rbSetBlack_node, Side.rotate_other_node]
    refine ⟨_, rfl, ?_⟩
    exact .black_node rbRed_black (.red_node hred hsibling hnear) (.red_node rbRed_red hfar huncle)

/-- The loop of `rb_insert_color` makes a red-black tree, from a red node whose parent may be
red. -/
theorem rbInsertColorFrom_redBlack (hnode : Balanced rbRed node true n)
    (hplace : Awaits rbRed place a n) :
    ∃ u, rbInsertColorFrom node place = some u ∧ RedBlack rbRed u := by
  fun_induction rbInsertColorFrom node place generalizing n a with
  | case1 node =>
    obtain ⟨e, left, right, rfl⟩ := Side.exists_node .left hnode.ne_nil_of_red
    exact ⟨_, rfl, n + 1, blacken_red hnode⟩
  | case2 node parent hred =>
    cases hplace with
    | black hblack _ _ =>
      rw [hblack] at hred
      cases hred
    | red _ _ hroot => cases hroot
  | case3 node parent hblack =>
    cases hplace with
    | black hparent hsibling hplace =>
      apply rbSetBlack_redBlack
      · exact (Awaits.black hparent hsibling hplace).plug hnode fun _ => rfl
      · exact TreePlace.plug_ne_nil hnode.ne_nil_of_red
    | red hred _ _ => exact absurd hred hblack
  | case4 node parent gparent place hred huncle top =>
    rename_i ih
    cases hplace with
    | black hblack _ _ =>
      rw [hblack] at hred
      cases hred
    | red _ hsibling hplace =>
      cases hplace with
      | @black _ _ c _ _ hgparent hothers hplace =>
        have hc : c = true := by rw [← rbIsRed_of_balanced hothers, huncle]
        subst hc
        have htop : Balanced rbRed top false (n + 1) := .black_node rbRed_black hnode hsibling
        exact ih (.red_node rbRed_red htop (blacken_red hothers)) hplace
  | case5 node parent gparent place hred huncle =>
    cases hplace with
    | black hblack _ _ =>
      rw [hblack] at hred
      cases hred
    | red _ hsibling hplace =>
      cases hplace with
      | @black _ _ c _ _ hgparent hothers hplace =>
        have hc : c = false := by rw [← rbIsRed_of_balanced hothers, Bool.eq_false_iff.mpr huncle]
        subst hc
        obtain ⟨top, htop, hbalanced⟩ := rbInsertRotate_balanced hnode hred hsibling hothers
        simp only [htop, Option.bind_eq_bind, Option.bind_some]
        apply rbSetBlack_redBlack
        · exact hplace.plug hbalanced fun hfalse => by cases hfalse
        · exact TreePlace.plug_ne_nil hbalanced.ne_nil_of_succ
  | case6 node parent gparent place hblack =>
    cases hplace with
    | black hparent hsibling hplace =>
      apply rbSetBlack_redBlack
      · exact (Awaits.black hparent hsibling hplace).plug hnode fun _ => rfl
      · exact TreePlace.plug_ne_nil hnode.ne_nil_of_red
    | red hred _ _ => exact absurd hred hblack

/-- A subtree that may have a black node too few: it does, unless its root is red. -/
def Short (n : ℕ) (t : RbTree α) : Prop :=
  Balanced rbRed t false n ∨ rbIsRed t = true ∧ Balanced rbRed (rbBlacken t) false (n + 1)

/-- The first rotation of a round leaves a far child that is red. -/
theorem rbEraseTurn_balanced (hother : Balanced rbRed (side.node e near far) false (n + 1))
    (hred : ¬(!rbIsRed near && !rbIsRed far) = true) : ∃ e' near' far' c,
      rbEraseTurn side (side.node e near far) = some (side.node e' near' far') ∧
        Balanced rbRed near' c n ∧ Balanced rbRed far' true n := by
  obtain ⟨_, m, c, c', hm, hnear, hfar⟩ := hother.of_black
  obtain rfl : n = m := Nat.succ_injective hm
  unfold rbEraseTurn
  simp only [Side.split_node, Option.bind_eq_bind, Option.bind_some]
  cases c' with
  | true =>
    rw [rbIsRed_of_balanced hfar, if_pos rfl]
    exact ⟨e, near, far, c, rfl, hnear, hfar⟩
  | false =>
    rw [rbIsRed_of_balanced hfar, if_neg Bool.false_ne_true]
    rw [rbIsRed_of_balanced hnear, rbIsRed_of_balanced hfar] at hred
    obtain rfl : c = true := by simpa using hred
    obtain ⟨e', inner, outer, rfl⟩ := side.exists_node hnear.ne_nil_of_red
    obtain ⟨_, hinner, houter⟩ := hnear.of_red
    simp only [rbSetBlack_node, Option.bind_some, Side.rotate_other_node]
    exact ⟨_, inner, _, false, rfl, hinner, .red_node rbRed_red houter hfar⟩

/-- A round either gives the loop the tree in the place of the parent, or repairs it. -/
theorem rbEraseRound_balanced (hnode : Balanced rbRed node false n)
    (hother : Balanced rbRed other false (n + 1)) :
    ∃ up top, rbEraseRound side e node other = some (up, top) ∧
      (up = true → (rbRed e = false → Balanced rbRed top false (n + 1)) ∧
        (rbRed e = true → rbIsRed top = true ∧ Balanced rbRed (rbBlacken top) false (n + 1))) ∧
      (up = false → (rbRed e = false → Balanced rbRed top false (n + 2)) ∧
        (rbRed e = true → Balanced rbRed top true (n + 1))) := by
  obtain ⟨o, near, far, rfl⟩ := side.exists_node hother.ne_nil_of_succ
  unfold rbEraseRound
  simp only [Side.split_node, Option.bind_eq_bind, Option.bind_some]
  by_cases hblack : (!rbIsRed near && !rbIsRed far) = true
  · rw [if_pos hblack]
    obtain ⟨_, m, c, c', hm, hnear, hfar⟩ := hother.of_black
    obtain rfl : n = m := Nat.succ_injective hm
    rw [rbIsRed_of_balanced hnear, rbIsRed_of_balanced hfar] at hblack
    obtain ⟨rfl, rfl⟩ : c = false ∧ c' = false := by simpa using hblack
    have hred : Balanced rbRed (side.node (rbSetColor .red o) near far) true n :=
      .red_node rbRed_red hnear hfar
    refine ⟨true, _, rfl, fun _ => ⟨fun he => .black_node he hnode hred, fun he => ⟨?_, ?_⟩⟩,
      fun hfalse => ?_⟩
    · rw [rbIsRed_node, he]
    · rw [rbBlacken_node]
      exact .black_node rbRed_black hnode hred
    · cases hfalse
  · rw [if_neg hblack]
    obtain ⟨o', near', far', c, hturn, hnear, hfar⟩ := rbEraseTurn_balanced hother hblack
    obtain ⟨f, inner, outer, rfl⟩ := side.exists_node hfar.ne_nil_of_red
    have hright := blacken_red hfar
    rw [rbBlacken_node] at hright
    have hleft : Balanced rbRed (side.node (rbSetColor .black e) node near') false (n + 1) :=
      .black_node rbRed_black hnode hnear
    simp only [hturn, Option.bind_some, Side.split_node, rbSetBlack_node, Side.rotate_node]
    refine ⟨false, _, rfl, fun hfalse => ?_, fun _ => ⟨fun he => ?_, fun he => ?_⟩⟩
    · cases hfalse
    · exact .black_node he hleft hright
    · exact .red_node he hleft hright

/-- `__rb_erase_color` makes a red-black tree, from a subtree that may have a black node too few. -/
theorem rbEraseColor_redBlack (hnode : Short n node) (hplace : Awaits rbRed place a (n + 1)) :
    ∃ u, rbEraseColor node place = some u ∧ RedBlack rbRed u := by
  induction place generalizing node n a with
  | nil =>
    refine ⟨_, rfl, ?_⟩
    rcases hnode with hblack | ⟨_, hred⟩
    · exact ⟨n, blacken_black hblack⟩
    · exact ⟨n + 1, hred⟩
  | cons frame place ih =>
    rw [rbEraseColor]
    rcases hnode with hnode | ⟨hisred, hblack⟩
    swap
    · rw [if_pos hisred]
      refine ⟨_, rfl, hplace.plug hblack fun hfalse => ?_⟩
      cases hfalse
    rw [rbIsRed_of_balanced hnode, if_neg Bool.false_ne_true]
    -- What the place awaits, by the color of the parent.
    obtain ⟨c, hsibling, hparent⟩ : ∃ c, Balanced rbRed frame.sibling c (n + 1) ∧
        (rbRed frame.parent = false ∧ (∃ a', Awaits rbRed place a' (n + 2)) ∨
          rbRed frame.parent = true ∧ c = false ∧ Awaits rbRed place true (n + 1)) := by
      cases hplace with
      | black hblack hsibling hplace => exact ⟨_, hsibling, Or.inl ⟨hblack, _, hplace⟩⟩
      | red hred hsibling hplace => exact ⟨_, hsibling, Or.inr ⟨hred, rfl, hplace⟩⟩
    obtain ⟨o, near, far, hsplit⟩ := frame.side.exists_node hsibling.ne_nil_of_succ
    have hroot : rbRed o = c := (hsplit ▸ hsibling).root_eq
    rw [hsplit] at hsibling ⊢
    simp only [Side.split_node, Option.bind_eq_bind, Option.bind_some, hroot]
    cases c with
    | true =>
      rw [if_pos rfl]
      obtain ⟨_, hnear, hfar⟩ := hsibling.of_red
      obtain ⟨up, top, hround, hup, hdone⟩ := @rbEraseRound_balanced α node near n frame.side
        (rbSetColor .red frame.parent) hnode hnear
      rw [hround, Option.bind_some]
      rcases hparent with ⟨_, a', hplace⟩ | ⟨_, hfalse, _⟩
      swap
      · cases hfalse
      have hplace' : Awaits rbRed (frame.side.frame (rbSetColor .black o) far :: place) true
        (n + 1) :=
        .black (by rw [Frame.parent_frame, rbRed_black]) (by rwa [Frame.sibling_frame]) hplace
      cases up with
      | true =>
        obtain ⟨_, hblack⟩ := (hup rfl).2 rbRed_red
        exact ⟨_, rfl, hplace'.plug hblack fun _ => rfl⟩
      | false =>
        have htop := (hdone rfl).2 rbRed_red
        exact rbSetBlack_redBlack (hplace'.plug htop fun _ => rfl)
          (TreePlace.plug_ne_nil htop.ne_nil_of_red)
    | false =>
      rw [if_neg Bool.false_ne_true]
      obtain ⟨up, top, hround, hup, hdone⟩ :=
        @rbEraseRound_balanced α node _ n frame.side frame.parent hnode hsibling
      rw [hround, Option.bind_some]
      rcases hparent with ⟨hblack, a', hplace⟩ | ⟨hred, _, hplace⟩
      · cases up with
        | true => exact ih (Or.inl ((hup rfl).1 hblack)) hplace
        | false =>
          have htop := (hdone rfl).1 hblack
          apply rbSetBlack_redBlack
          · exact hplace.plug htop fun hfalse => by cases hfalse
          · exact TreePlace.plug_ne_nil htop.ne_nil_of_succ
      · cases up with
        | true => exact ih (Or.inr ((hup rfl).2 hred)) hplace
        | false =>
          have htop := (hdone rfl).2 hred
          exact rbSetBlack_redBlack (hplace.plug htop fun _ => rfl)
            (TreePlace.plug_ne_nil htop.ne_nil_of_red)

/-! ## The node that goes -/

/-- The nodes of a tree are those before a place, at it and after it. -/
theorem nodesOf_plug : nodesOf (place.plug t) =
    nodesBefore place ++ nodesOf t ++ nodesAfter place := by
  simp [nodesOf, nodesBefore, nodesAfter, TreePlace.inorder_plug]

/-- The walk along the left links stays in its subtree, and ends at its first node. -/
theorem rbSuccessor_some (h : rbSuccessor t place = some located) :
    located.left = .nil ∧ located.tree = place.plug t ∧
      nodesBefore located.place = nodesBefore place := by
  fun_induction rbSuccessor t place with
  | case1 => cases h
  | case2 =>
    cases h
    exact ⟨rfl, rfl, rfl⟩
  | case3 place e e' left' right' right ih =>
    obtain ⟨hleft, htree, hbefore⟩ := ih h
    exact ⟨hleft, htree, hbefore⟩

/-- A tree that is not empty has a first node. -/
theorem exists_rbSuccessor (h : t ≠ .nil) : ∃ located, rbSuccessor t place = some located := by
  fun_induction rbSuccessor t place with
  | case1 => exact absurd rfl h
  | case2 e right => exact ⟨_, rfl⟩
  | case3 place e e' left' right' right ih =>
    apply ih
    intro hnil
    cases hnil

/-- The end of `rb_erase`. -/
theorem nodesOf_rbEraseEnd {color : RbColor} (h : rbEraseEnd color t place = some u) :
    nodesOf u = nodesOf (place.plug t) := by
  unfold rbEraseEnd at h
  split at h
  · exact nodesOf_rbEraseColor h
  · cases h
    rfl

/-- The end of `rb_erase` makes a red-black tree of one whose node at the place has one child, and
goes. -/
theorem rbEraseEnd_redBlack (side : Side) (h :
    RedBlack rbRed (place.plug (side.node e near .nil))) :
    ∃ u, rbEraseEnd e.1 near place = some u ∧ RedBlack rbRed u := by
  obtain ⟨c, a, n, hnode, hplace, hc⟩ := h.unplug
  cases c with
  | true =>
    obtain ⟨he, hnear, _⟩ := hnode.of_red
    have hcolor : e.1 = .red := of_decide_eq_true he
    unfold rbEraseEnd
    rw [hcolor, if_neg (by decide)]
    exact ⟨_, rfl, hplace.plug hnear fun hfalse => by cases hfalse⟩
  | false =>
    obtain ⟨he, m, c, c', rfl, hnear, _⟩ := hnode.of_black
    have hcolor : e.1 = .black := by
      cases hcolor : e.1 with
      | black => rfl
      | red => simp [rbRed, hcolor] at he
    unfold rbEraseEnd
    rw [hcolor, if_pos rfl]
    refine rbEraseColor_redBlack ?_ hplace
    cases c with
    | false => exact Or.inl hnear
    | true => exact Or.inr ⟨rbIsRed_of_balanced hnear, blacken_red hnear⟩

/-- A node with two children gives its place, and its color, to the next node. -/
theorem plug_successor {next : Located (RbColor × TreeNode α)} {left : RbTree α} :
    (next.place ++ .right e left :: place).plug t = place.plug (.node e left (next.place.plug t)) :=
  TreePlace.plug_append

/-- `rb_erase` leaves the other nodes in their order. -/
theorem nodesOf_rbEraseNode (h : rbEraseNode located = some u) :
    nodesOf u = located.before.map Prod.snd ++ located.after.map Prod.snd := by
  have hsplit : ∀ child, nodesOf child = nodesOf located.left ++ nodesOf located.right →
      nodesOf (located.place.plug child) = located.before.map Prod.snd ++ located.after.map
        Prod.snd := by
    intro child hchild
    rw [nodesOf_plug, hchild]
    simp [Located.before, Located.after, nodesOf, nodesBefore, nodesAfter]
  unfold rbEraseNode at h
  split at h
  · next hleft =>
    rw [nodesOf_rbEraseEnd h]
    apply hsplit
    rw [hleft]
    rfl
  · next hright _ =>
    rw [nodesOf_rbEraseEnd h]
    apply hsplit
    rw [hright]
    simp
  · obtain ⟨next, hnext, h⟩ := Option.bind_eq_some_iff.mp h
    obtain ⟨hnil, htree, hbefore⟩ := rbSuccessor_some hnext
    rw [nodesOf_rbEraseEnd h, plug_successor]
    apply hsplit
    have hright : nodesOf (next.place.plug (.node next.value next.left next.right)) =
      nodesOf located.right := by
      rw [← Located.tree, htree]
      rfl
    have hnone : nodesBefore next.place = [] := hbefore
    rw [← hright, nodesOf_node, nodesOf_plug, nodesOf_plug, hnone, hnil]
    simp [nodesOf, inorder, rbSetColor]

/-- `rb_erase` of a node of a red-black tree follows no null pointer and makes a red-black tree. -/
theorem rbEraseNode_redBlack (h : RedBlack rbRed located.tree) :
    ∃ u, rbEraseNode located = some u ∧ RedBlack rbRed u := by
  obtain ⟨e, left, right, place⟩ := located
  unfold rbEraseNode
  cases left with
  | nil =>
    apply rbEraseEnd_redBlack .right
    exact h
  | node el ll lr =>
    cases right with
    | nil =>
      apply rbEraseEnd_redBlack .left
      exact h
    | node er rl rr =>
      obtain ⟨next, hnext⟩ := @exists_rbSuccessor α (.node er rl rr) [] (by simp)
      obtain ⟨hnil, htree, _⟩ := rbSuccessor_some hnext
      simp only [hnext, Option.bind_eq_bind, Option.bind_some]
      apply rbEraseEnd_redBlack .right
      -- The next node has the color of the node in its place.
      have hright : next.place.plug (.node next.value .nil next.right) = .node er rl rr := by
        rw [← hnil]
        exact htree
      change RedBlack rbRed (TreePlace.plug (.node next.value .nil next.right) _)
      rw [plug_successor, hright]
      obtain ⟨c, a, n, hnode, hplace, hc⟩ := h.unplug
      apply hplace.plug _ hc
      cases hnode with
      | red he hl hr => exact .red he hl hr
      | black he hl hr => exact .black he hl hr

end Efs
