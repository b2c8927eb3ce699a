import Efs.FailedLoad
import Efs.IndexPath

/-!
# Lookups that fail on the way

A lookup that cannot fetch an index block. Under a single-level index block the failure
is not looked at, and what is returned was never set; everywhere else the lookup returns
0. In each case the block that could not be fetched stays locked.
-/

namespace Efs

open Library

/-- The slots that a lookup takes below the root slot, the first one first. -/
def indexSteps (bidx : ℕ) : List ℕ := (indexPath bidx).2.reverse.map (· % 2 ^ 8)

/-- The steps of a lookup from the block of `idx` down come to the block `b`, which cannot
be fetched; `j` is the entry of `hashidx` that the first step sets. -/
inductive DescentFails (w : World) (ip : ℕ) (write : Bool) (b : ℕ) :
    List ℕ → ℕ → Index → Bool → HashIdx → Sys → Sys → Prop
  /-- The first step fails. -/
  | here {k : ℕ} {ks : List ℕ} {j : ℕ} {idx : Index} {new : Bool} {h : HashIdx} {s s' : Sys}
      (hfail : indexLookupOneLevel w ip idx.bid k h (expected idx new) write s = .ok (none, s'))
      (hb : idx.bid = b) : DescentFails w ip write b (k :: ks) j idx new h s s'
  /-- A step further down fails. -/
  | further {k : ℕ} {ks : List ℕ} {j : ℕ} {idx idx' : Index} {new new' : Bool} {h : HashIdx}
      {s s₁ s' : Sys}
      (hstep : indexLookupOneLevel w ip idx.bid k h (expected idx new) write s =
        .ok (some (idx', new'), s₁))
      (hrest : DescentFails w ip write b ks (j + 1) idx' new' (h.set j ⟨idx.bid, k⟩) s₁ s') :
      DescentFails w ip write b (k :: ks) j idx new h s s'

/-- The lookup comes to the index block `b`, which cannot be fetched. -/
structure WalkFails (w : World) (ip bidx : ℕ) (write : Bool) (hashidx : HashIdx) (b : ℕ)
    (s s' : Sys) : Prop where
  /-- The block is a data block. -/
  data : dataStart ≤ b
  /-- The steps. -/
  steps : ∃ inode root new s₁, inodeAt ip s = .ok (inode, s) ∧
    rootLookup w ip (indexPath bidx).1 write s = .ok (some (root, new), s₁) ∧
    DescentFails w ip write b (indexSteps bidx) 1 root new
      (hashidx.set 0 ⟨inode.iid, (indexPath bidx).1⟩) s₁ s'

/-- The part of a file is under the single-level index block. -/
def SingleIndirect (bidx : ℕ) : Prop := ndirect ≤ bidx ∧ bidx < ndirect + nindirect1

section

variable {w : World} {s s' : Sys} {ip b bidx : ℕ} {write : Bool} {hashidx : HashIdx}
  {expHash : Key256}

/-- An allocation never gives 0. -/
theorem wp_blockAlloc_ne_zero : Exec.Wp (blockAlloc w) (fun bid _ => bid ≠ 0)
    (fun _ => True) s := by
  have hne : ∀ did, did2Bid did ≠ 0 := by
    intro did
    simp only [did2Bid, dataStart]
    omega
  refine Exec.Wp.bind (.any _) ?_
  intro did s₁ _
  cases did with
  | none => exact hne 0
  | some did => exact hne did

/-- An allocation for an entry never fails. -/
theorem wp_newEntry_ne_true {bp k : ℕ} :
    Exec.Wp (newEntry w bp k b) (fun failed _ => failed = false) (fun _ => True) s := by
  refine Exec.Wp.bind wp_blockAlloc_ne_zero ?_
  intro child s₁ hchild
  refine Exec.Wp.bind (.any _) ?_
  intro _ s₂ _
  rw [if_neg hchild]
  refine Exec.Wp.bind (.any _) ?_
  intro _ s₃ _
  refine Exec.Wp.bind (.any _) ?_
  intro _ s₄ _
  rfl

/-- A level that fails leaves its block locked. -/
theorem wp_indexLookupOneLevel_leftOver (hb : inodeStart ≤ b) {k : ℕ} {h : HashIdx}
    {e : Option Key256} : Exec.Wp (indexLookupOneLevel w ip b k h e write)
      (fun found s' => found = none → s'.bcac.LeftOver b true) (fun _ => True) s := by
  have hend : ∀ (bp : ℕ) (new : Bool) (s : Sys), Exec.Wp (do
        let block ← blockAt bp
        let _ ← blockUnlockReturn w block.bid
        return some (indexAt block.data k, new))
      (fun found s' => found = none → s'.bcac.LeftOver b true) (fun _ => True) s := by
    intro bp new s
    refine Exec.Wp.bind (.any _) ?_
    intro block s₁ _
    refine Exec.Wp.bind (.any _) ?_
    intro _ s₂ _ hnone
    cases hnone
  refine Exec.Wp.bind (.any _) ?_
  intro inode s₁ _
  refine Exec.Wp.bind (wp_bget_leftOver hb) ?_
  intro bp s₂ hleft
  cases bp with
  | none => exact fun _ => hleft rfl
  | some bp =>
    refine Exec.Wp.bind (.any _) ?_
    intro block s₃ _
    rw [Exec.wp_ite]
    constructor
    · intro _
      refine Exec.Wp.bind wp_newEntry_ne_true ?_
      rintro _ s₄ rfl
      exact hend bp true s₄
    · intro _
      refine Exec.Wp.bind (.any _) ?_
      intro _ s₄ _
      exact hend bp false s₄

/-- The block at which the steps fail is left locked. -/
theorem DescentFails.leftOver {ks : List ℕ} {j : ℕ} {idx : Index} {new : Bool} {h : HashIdx}
    (hfails : DescentFails w ip write b ks j idx new h s s') (hb : inodeStart ≤ b) :
    s'.bcac.LeftOver b true := by
  induction hfails with
  | here hfail heq =>
    subst heq
    exact (wp_indexLookupOneLevel_leftOver hb).of_ok hfail rfl
  | further _ _ ih => exact ih

/-- A lookup that fails at an index block returns 0, and with an index that was never set
under the single-level block. -/
theorem WalkFails.lookup (h : WalkFails w ip bidx write hashidx b s s') :
    (SingleIndirect bidx ∧
      inodeIndexLookup w ip bidx write hashidx expHash s = .error .undefinedBehaviour) ∨
    (¬SingleIndirect bidx ∧ ∃ h', inodeIndexLookup w ip bidx write hashidx expHash s =
      .ok (.failed h' expHash, s')) := by
  obtain ⟨inode, root, new, s₁, hinode, hroot, hfails⟩ := h.steps
  unfold SingleIndirect
  rcases indexPath_cases bidx with ⟨hlt, hpath⟩ | ⟨i, hlt, rfl, hpath⟩ | ⟨i, hlt, rfl, hpath⟩ |
    ⟨i, rfl, hpath⟩ <;>
  simp only [indexSteps, hpath, List.reverse_cons, List.reverse_nil, List.nil_append,
    List.cons_append, List.map_cons, List.map_nil] at hroot hfails
  · cases hfails
  · left
    rw [show (rootSlot 10).val = ndirect from rfl] at hroot hfails
    have hsub : i + 10 - ndirect = i := by simp only [ndirect]; omega
    refine ⟨by simp only [ndirect, nindirect1]; omega, ?_⟩
    rw [inodeIndexLookup, Exec.bind_of_ok hinode]
    dsimp only
    rw [if_neg (by simp only [ndirect]; omega), hsub, if_pos (show i < nindirect1 from hlt),
      Exec.bind_of_ok hroot]
    dsimp only
    cases hfails with
    | here hfail _ =>
      rw [Exec.bind_of_ok hfail]
      rfl
    | further _ hrest => cases hrest
  · right
    rw [show (rootSlot 11).val = ndirect + 1 from rfl] at hroot hfails
    have hsub : i + 123 - ndirect - nindirect1 = i := by simp only [ndirect, nindirect1]; omega
    refine ⟨by simp only [ndirect, nindirect1]; omega, ?_⟩
    rw [inodeIndexLookup, Exec.bind_of_ok hinode]
    dsimp only
    rw [if_neg (by simp only [ndirect]; omega), if_neg (by simp only [ndirect, nindirect1]; omega),
      hsub, if_pos (show i < nindirect2 from hlt), Exec.bind_of_ok hroot]
    dsimp only [indexPerBlock]
    cases hfails with
    | here hfail _ =>
      rw [Exec.bind_of_ok hfail]
      exact ⟨_, rfl⟩
    | further hstep hrest =>
      rw [Exec.bind_of_ok hstep]
      dsimp only
      cases hrest with
      | here hfail _ =>
        rw [Exec.bind_of_ok hfail]
        exact ⟨_, rfl⟩
      | further _ hrest => cases hrest
  · right
    rw [show (rootSlot 12).val = ndirect + 2 from rfl] at hroot hfails
    have hsub : i + 12892 - ndirect - nindirect1 - nindirect2 = i := by
      simp only [ndirect, nindirect1, nindirect2]; omega
    refine ⟨by simp only [ndirect, nindirect1]; omega, ?_⟩
    rw [inodeIndexLookup, Exec.bind_of_ok hinode]
    dsimp only
    rw [if_neg (by simp only [ndirect]; omega), if_neg (by simp only [ndirect, nindirect1]; omega),
      if_neg (by simp only [ndirect, nindirect1, nindirect2]; omega), hsub, Exec.bind_of_ok hroot]
    simp only [indexPerBlock, Nat.mod_mul_right_div_self, Nat.mod_mul_right_mod]
    cases hfails with
    | here hfail _ =>
      rw [Exec.bind_of_ok hfail]
      exact ⟨_, rfl⟩
    | further hstep hrest =>
      rw [Exec.bind_of_ok hstep]
      dsimp only
      cases hrest with
      | here hfail _ =>
        rw [Exec.bind_of_ok hfail]
        exact ⟨_, rfl⟩
      | further hstep hrest =>
        rw [Exec.bind_of_ok hstep]
        dsimp only
        cases hrest with
        | here hfail _ =>
          rw [Exec.bind_of_ok hfail]
          exact ⟨_, rfl⟩
        | further _ hrest => cases hrest

end

/-- A lookup that comes to an index block that cannot be fetched leaves this block locked,
so it never ends as it should; it returns 0 exactly outside of the single-level index. -/
theorem failed_walk_leaves_lock {w : World} {s s' : Sys} {ip b bidx : ℕ} {write : Bool}
    {hashidx : HashIdx} {expHash : Key256} (h : WalkFails w ip bidx write hashidx b s s') :
    ((∃ found s'', inodeIndexLookup w ip bidx write hashidx expHash s = .ok (found, s'') ∧
      found.bid = 0) ↔ ¬SingleIndirect bidx) ∧
    ∀ found s'', inodeIndexLookup w ip bidx write hashidx expHash s = .ok (found, s'') →
      s''.bcac.LeftOver b true := by
  obtain ⟨_, _, _, _, _, _, hfails⟩ := h.steps
  have hleft := hfails.leftOver (le_trans (by decide) h.data)
  rcases @WalkFails.lookup w s s' ip b bidx write hashidx expHash h with
    ⟨hsingle, hrun⟩ | ⟨hother, h', hrun⟩
  · constructor
    · refine iff_of_false ?_ (not_not.mpr hsingle)
      rintro ⟨found, s'', hok, _⟩
      rw [hrun] at hok
      cases hok
    · intro found s'' hok
      rw [hrun] at hok
      cases hok
  · constructor
    · exact iff_of_true ⟨_, _, hrun, rfl⟩ hother
    · intro found s'' hok
      rw [hrun] at hok
      cases hok
      exact hleft

/-- An inode with an index block at each indirect level, all the same. -/
def indirectInode : Inode where
  iid := 1
  type := 0
  size := 0
  dip := 0
  bid r := if 10 ≤ r.val then dataStart else 0
  aesKey := Bytes.zero
  aesIv := Bytes.zero
  hash _ := Bytes.zero

/-- A system in which this inode is cached. -/
def Sys.indirect : Sys :=
  { blank with icac := ⟨⟨[⟨0, 1, 1, false, false, some indirectInode, false⟩], 1⟩, .empty, [], 1,
      false⟩ }

/-- The theorem at a part of the file under the double-level block, which cannot be read. -/
theorem failed_walk_leaves_lock_double : ∃ found s',
    inodeIndexLookup World.failsOnce 0 123 false HashIdx.zero Bytes.zero Sys.indirect =
      .ok (found, s') ∧ found.bid = 0 ∧ s'.bcac.LeftOver dataStart true := by
  have h : WalkFails World.failsOnce 0 123 false HashIdx.zero dataStart Sys.indirect _ :=
    ⟨le_refl _, indirectInode, _, _, _, rfl, rfl, .here rfl rfl⟩
  have hdouble : ¬SingleIndirect 123 := by
    simp only [SingleIndirect, ndirect, nindirect1]
    omega
  obtain ⟨hreports, hleaves⟩ := @failed_walk_leaves_lock _ _ _ _ _ _ _ _ Bytes.zero h
  obtain ⟨found, s', hrun, hzero⟩ := hreports.mpr hdouble
  exact ⟨found, s', hrun, hzero, hleaves found s' hrun⟩

/-- Under the single-level block, which cannot be read, the lookup uses an index that was
never set. -/
theorem single_level_failure_not_reported : SingleIndirect 10 ∧
    (∃ s', WalkFails World.failsOnce 0 10 false HashIdx.zero dataStart Sys.indirect s') ∧
    inodeIndexLookup World.failsOnce 0 10 false HashIdx.zero Bytes.zero Sys.indirect =
      .error .undefinedBehaviour := by
  refine ⟨⟨by decide, by decide⟩,
    ⟨_, le_refl _, indirectInode, _, _, _, rfl, rfl, .here rfl rfl⟩, rfl⟩

end Efs
