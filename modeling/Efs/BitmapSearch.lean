import Efs.DataBitmapSemantics
import Efs.Inode

/-!
# The search hints of the bitmaps

The words below the search hint of a bitmap are full, whatever calls were made. So an
allocation marks the least number that is free, as long as there is one. Without one,
`ibm_alloc` leaves with its lock held.
-/

namespace Efs

open Library

/-! ## The inode bitmap -/

/-- The inode numbers that are free. -/
def InodeBitmap.freeIids (b : InodeBitmap) : Set ℕ := freeIds b.used 32768

/-- The words of the inode bitmap below the hint are full, and the lock is held only
when no number is free. -/
structure InodeBitmap.SearchOk (b : InodeBitmap) : Prop where
  /-- The words below the hint. -/
  below : FullBelow b.used 32768 (b.ibmFirstEmptyWord * 64)
  /-- The lock. -/
  locked : b.ibmLock = true → b.freeIids = ∅

/-- `ibm_alloc` marked the number `id` of the inode bitmap. -/
structure IbmMarked (b : InodeBitmap) (id : ℕ) (b' : InodeBitmap) : Prop where
  /-- The number is in the bitmap. -/
  lt : id < 32768
  /-- The search found it. -/
  start_le : b.ibmFirstEmptyWord * 64 ≤ id
  /-- It was not used. -/
  unused : id ∉ b.used
  /-- It is used now. -/
  used : b'.used = insert id b.used
  /-- All numbers from the hint up to it were used. -/
  least : ∀ j, b.ibmFirstEmptyWord * 64 ≤ j → j < id → j ∈ b.used
  /-- The hint. -/
  hint : b'.ibmFirstEmptyWord = b.ibmFirstEmptyWord ∨
    b'.ibmFirstEmptyWord = b.ibmFirstEmptyWord + 1 ∧ ∀ j, j / 64 = id / 64 → j ∈ b'.used
  /-- The lock was given back. -/
  unlocked : b'.ibmLock = false

section

variable {w : World} {E : Halt → Prop} {b b' : InodeBitmap} {junk : Leftover}

/-- The rule for `ibm_alloc`, by the exit it takes. -/
theorem wp_ibmAllocExit {Q : Option ℕ → InodeBitmap → Prop}
    (hQ : ∀ id b', b.ibmFirstEmptyWord < 512 → IbmMarked b id b' → Q (some id) b')
    (hfull : (∀ id, b.ibmFirstEmptyWord * 64 ≤ id → id < 32768 → id ∈ b.used) →
      Q none { b with ibmLock := true })
    (hbeyond : ∀ id b', 512 ≤ b.ibmFirstEmptyWord → junk.tmp ≠ none → b'.ibm = b.ibm →
      b.ibmFirstEmptyWord ≤ b'.ibmFirstEmptyWord → b'.ibmLock = false →
      (b.ibmFirstEmptyWord = 512 → 32768 ≤ id) → Q (some id) b')
    (hE : b.ibmLock = true → E .deadlock) : Exec.Wp (ibmAllocExit junk) Q E b := by
  simp only [ibmAllocExit, lockIbm, unlockIbm, bitmapWordPerBlock, bitmapBitPerWord, Exec.wp_bind,
    Exec.wp_read, Exec.wp_when, Exec.wp_stop, Exec.wp_update]
  refine ⟨hE, fun _ => Exec.wp_ite.mpr ⟨fun hfirst => ?_, fun hfirst => ?_⟩⟩
  · cases hscan : scanWords b.ibm (512 - b.ibmFirstEmptyWord) b.ibmFirstEmptyWord with
    | none =>
      apply hfull
      intro id hle hlt
      exact ⟨hlt, scanWords_none_used hscan hle (by omega)⟩
    | some found =>
      obtain ⟨p, tmp⟩ := found
      obtain ⟨hle, hlt, htmp, hclear⟩ := scanWords_some hscan
      have hret : (p * 64 + (63 - tmp)) % 2 ^ 16 = p * 64 + (63 - tmp) := by omega
      simp only [Exec.wp_bind, Exec.wp_update, Exec.wp_pure, hret]
      refine hQ _ _ hfirst ⟨by omega, by omega, ?_, used_markWord (by omega) htmp rfl, ?_, ?_, rfl⟩
      · rintro ⟨_, hused⟩
        rw [hclear] at hused
        cases hused
      · intro j hj hlt
        exact ⟨by omega, scanWords_least hscan hj hlt⟩
      · by_cases hword : ~~~(word64 (markWord b.ibm p tmp) p) = 0
        · right
          refine ⟨if_pos hword, fun j hj => ⟨by omega, ?_⟩⟩
          have hp : j / 64 = p := by omega
          exact idUsed_of_full (by rw [hp]; exact hword)
        · exact Or.inl (if_neg hword)
  · cases hjunk : junk.tmp with
    | none =>
      apply hfull
      intro id hle hlt
      omega
    | some tmp =>
      simp only [Exec.wp_bind, Exec.wp_update, Exec.wp_pure]
      refine hbeyond _ _ (Nat.not_lt.mp hfirst) (by simp [hjunk]) rfl ?_ rfl ?_
      · dsimp only
        split <;> omega
      · intro heq
        omega

/-- The rule for `ibm_free`: it clears the bit of the mirrored number. -/
theorem wp_ibmFree {iid : ℕ} {Q : Unit → InodeBitmap → Prop}
    (hQ : ∀ b', b'.ibm = clearByte b.ibm iid →
      b'.ibmFirstEmptyWord = min b.ibmFirstEmptyWord (iid / 64) → b'.ibmLock = false → Q () b')
    (hE : iid = 0 → E (.panic .rootInodeFreed)) (hE' : b.ibmLock = true → E .deadlock) :
    Exec.Wp (ibmFree w iid) Q E b := by
  simp only [ibmFree, lockIbm, unlockIbm, bitmapBitPerWord, Exec.wp_bind, Exec.wp_when, wp_panic,
    Exec.wp_read, Exec.wp_stop, Exec.wp_update]
  have hQ := hQ ⟨clearByte b.ibm iid, min b.ibmFirstEmptyWord (iid / 64), false⟩ rfl rfl rfl
  have hrest : (b.ibmLock = true → E .deadlock) ∧ (¬b.ibmLock = true → Q () _) :=
    ⟨hE', fun _ => hQ⟩
  exact ⟨fun hzero => ⟨fun _ => hrest, fun _ => hE hzero⟩, fun _ => hrest⟩

/-- Clearing a byte of the inode bitmap removes the mirrored number. -/
theorem used_clearByte {iid : ℕ} (h : b'.ibm = clearByte b.ibm iid) :
    b'.used = b.used \ {mirror iid} := by
  ext j
  simp only [InodeBitmap.used, h, Set.mem_ofPred_eq, Set.mem_sdiff, Set.mem_singleton_iff]
  by_cases hiid : iid < 32768
  · rw [idUsed_clearByte _ hiid, Bool.and_eq_true, decide_eq_true_iff, and_assoc]
  · have hsame : clearByte b.ibm iid = b.ibm := by
      apply Bytes.ext_get
      intro i hi
      exact Bytes.get_write_of_not_mem (by omega)
    rw [hsame]
    refine ⟨fun hj => ⟨hj, ?_⟩, And.left⟩
    rintro rfl
    have hlt : mirror iid < 64 * 512 := hj.1
    have hlt' := mirror_lt hlt
    rw [mirror_mirror] at hlt'
    exact hiid hlt'

/-- The number of a mark is the least free one. -/
theorem IbmMarked.isLeast {id : ℕ} (h : IbmMarked b id b') (hb : b.SearchOk) :
    IsLeast b.freeIids id :=
  hb.below.isLeast h.lt h.unused h.least

/-- An allocation of an inode number leaves the search in order. -/
theorem IbmMarked.searchOk {id : ℕ} (h : IbmMarked b id b') (hb : b.SearchOk) : b'.SearchOk := by
  constructor
  · rcases h.hint with hhint | ⟨hhint, hword⟩
    · rw [hhint]
      apply hb.below.mono
      rw [h.used]
      exact Set.subset_insert _ _
    · rw [hhint]
      exact hb.below.advance h.start_le h.least h.used hword
  · intro hlock
    rw [h.unlocked] at hlock
    cases hlock

/-- Every exit of `ibm_alloc` keeps the words below the hint full. -/
theorem InodeBitmap.SearchOk.alloc (hb : b.SearchOk) :
    Exec.Wp (ibmAlloc junk) (fun _ b' => b'.SearchOk) (fun _ => True) b := by
  refine Exec.wp_bind.mpr (wp_ibmAllocExit ?_ ?_ ?_ fun _ => trivial)
  · intro id b' _ hmarked
    exact hmarked.searchOk hb
  · intro hall
    constructor
    · exact hb.below
    · intro _
      exact hb.below.freeIds_eq_empty_of_search hall
  · intro id b' hpast _ hibm hhint hlock _
    have hused := used_congr hibm
    constructor
    · intro j hj _
      rw [hused]
      exact hb.below j hj (by omega)
    · intro hlocked
      rw [hlock] at hlocked
      cases hlocked

/-- A release takes the hint back far enough. -/
theorem InodeBitmap.SearchOk.release {iid : ℕ} (hb : b.SearchOk) :
    Exec.Wp (ibmFree w iid) (fun _ b' => b'.SearchOk) (fun _ => True) b := by
  refine wp_ibmFree ?_ (fun _ => trivial) (fun _ => trivial)
  intro b' hibm hhint hlock
  constructor
  · rw [hhint]
    exact hb.below.release (mirror_div iid) (used_clearByte hibm)
  · intro hlocked
    rw [hlock] at hlocked
    cases hlocked

/-- As long as a number is free, `ibm_alloc` returns with the least one marked. -/
theorem InodeBitmap.SearchOk.alloc_least {id : ℕ} (hb : b.SearchOk) (hid : IsLeast b.freeIids id) :
    Exec.Wp (ibmAlloc junk) (fun ret b' => ret = id ∧ b'.used = insert id b.used)
      (fun _ => False) b := by
  refine Exec.wp_bind.mpr (wp_ibmAllocExit ?_ ?_ ?_ ?_)
  · intro ret b' _ hmarked
    obtain rfl := (hmarked.isLeast hb).unique hid
    exact ⟨rfl, hmarked.used⟩
  · intro hall
    have hempty : b.freeIids = ∅ := hb.below.freeIds_eq_empty_of_search hall
    rw [hempty] at hid
    exact hid.1.elim
  · intro ret b' hpast
    have hempty : b.freeIids = ∅ := hb.below.freeIds_eq_empty (by omega)
    rw [hempty] at hid
    exact hid.1.elim
  · intro hlock
    rw [hb.locked hlock] at hid
    exact hid.1

end

/-! ## The data bitmap -/

/-- The data block numbers that are free. -/
def Sys.freeDids (s : Sys) : Set ℕ := freeIds s.dataUsed 16777216

/-- The bitmap blocks can be fetched, and the words of both bitmaps below their hints
are full. -/
structure Sys.SearchOk (w : World) (s : Sys) : Prop where
  /-- The block cache is good. -/
  ok : s.BcacOk
  /-- The metadata blocks are good. -/
  metaInv : s.MetaInv w
  /-- The inode bitmap. -/
  inodes : s.ibm.SearchOk
  /-- The data bitmap. -/
  below : FullBelow s.dataUsed 16777216 (s.dbmFirstEmptyWord * 64)

section

variable {w : World} {s s' : Sys} {start did : ℕ}

/-- An allocated block number is the least that was free. -/
theorem DbmMarked.isLeast (h : DbmMarked w s (s.dbmFirstEmptyWord * 64) did s')
    (hs : s.SearchOk w) : IsLeast s.freeDids did :=
  hs.below.isLeast h.lt h.unused h.least

/-- An allocation of a block number leaves the search in order. -/
theorem DbmMarked.searchOk (h : DbmMarked w s (s.dbmFirstEmptyWord * 64) did s')
    (hs : s.SearchOk w) : s'.SearchOk w := by
  refine ⟨h.changes.ok, h.changes.metaInv, ?_, ?_⟩
  · rw [h.changes.settles.ibm_eq]
    exact hs.inodes
  · rcases h.hint with hhint | ⟨hhint, hword⟩
    · rw [hhint]
      apply hs.below.mono
      rw [h.used]
      exact Set.subset_insert _ _
    · rw [hhint]
      exact hs.below.advance h.start_le h.least h.used hword

/-- No room in a queue of the block cache for a bitmap block. -/
def Halt.NoCacheRoom (e : Halt) : Prop := e = .nodeLost ∨ e = .nullDeref

/-- Every exit of `dbm_alloc` keeps the words below the hint full. -/
theorem Sys.SearchOk.dbmAlloc (hw : w.Honest) (hs : s.SearchOk w) :
    Exec.Wp (dbmAlloc w) (fun _ s' => s'.SearchOk w) (fun _ => True) s := by
  refine Exec.wp_bind.mpr (wp_dbmAllocExit_least hw hs.ok hs.metaInv ?_ ?_ fun _ =>
    ⟨trivial, trivial⟩)
  · intro did s' hmarked
    exact hmarked.searchOk hs
  · intro s' hfull
    refine ⟨fun _ => ⟨hfull.changes.ok, hfull.changes.metaInv, ?_, ?_⟩, fun _ => trivial⟩
    · rw [hfull.changes.settles.ibm_eq]
      exact hs.inodes
    · rw [hfull.hint, hfull.used]
      exact hs.below

/-- A release takes the hint back far enough. -/
theorem Sys.SearchOk.dbmFree (hw : w.Honest) (hs : s.SearchOk w) :
    Exec.Wp (dbmFree w did) (fun _ s' => s'.SearchOk w) (fun _ => True) s := by
  by_cases hdid : did < 16777216
  · refine wp_dbmFree_hint hw hs.ok hs.metaInv hdid ?_ fun _ => ⟨trivial, trivial⟩
    intro s' hchanges hused hhint
    refine ⟨hchanges.ok, hchanges.metaInv, ?_, ?_⟩
    · rw [hchanges.settles.ibm_eq]
      exact hs.inodes
    · rw [hhint]
      exact hs.below.release (mirror_div did) hused
  · have hout : bitmapCnt ≤ did / (blkSz * 8) := by
      simp only [bitmapCnt, blkSz]
      omega
    simp only [Efs.dbmFree, hout, if_true, Exec.wp_pure]
    exact hs

/-- As long as a number is free, `dbm_alloc` marks the least one, when it has room for
the bitmap blocks in the cache. -/
theorem Sys.SearchOk.dbmAlloc_least (hw : w.Honest) (hs : s.SearchOk w)
    (hdid : IsLeast s.freeDids did) :
    Exec.Wp (Efs.dbmAlloc w)
      (fun ret s' => ret = did ∧ s'.dataUsed = insert did s.dataUsed ∧ s'.ibm = s.ibm)
      (fun e => e.NoCacheRoom ∧ ¬s.Roomy 0) s := by
  refine Exec.wp_bind.mpr (wp_dbmAllocExit_least hw hs.ok hs.metaInv ?_ ?_ fun hcrowded =>
    ⟨⟨Or.inl rfl, hcrowded⟩, ⟨Or.inr rfl, hcrowded⟩⟩)
  · intro ret s' hmarked
    obtain rfl := (hmarked.isLeast hs).unique hdid
    exact ⟨rfl, hmarked.used, hmarked.changes.settles.ibm_eq⟩
  · intro s' hfull
    have hempty : s.freeDids = ∅ := hs.below.freeIds_eq_empty_of_search hfull.full
    rw [hempty] at hdid
    exact hdid.1.elim

/-- The calls on the inode bitmap leave the data bitmap alone. -/
theorem Sys.SearchOk.onIbm {α : Type} {x : Exec Halt InodeBitmap α} (hs : s.SearchOk w)
    (hx : Exec.Wp x (fun _ b' => b'.SearchOk) (fun _ => True) s.ibm) :
    Exec.Wp (Efs.onIbm x) (fun _ s' => s'.SearchOk w) (fun _ => True) s := by
  refine Exec.wp_zoom.mpr (hx.imp fun _ b' hb' => ⟨?_, ?_, hb', ?_⟩)
  · exact hs.ok.of_node hs.ok.keyed fun _ _ h => h
  · exact hs.metaInv
  · exact hs.below

end

/-! ## Runs -/

/-- A call on one of the bitmaps, with what it returned. -/
inductive BitmapCall
  /-- `ibm_alloc`, and what it would find in memory it never set. -/
  | ibmAlloc (junk : Leftover) (iid : ℕ)
  /-- `ibm_free`. -/
  | ibmFree (iid : ℕ)
  /-- `dbm_alloc`. -/
  | dbmAlloc (did : ℕ)
  /-- `dbm_free`. -/
  | dbmFree (did : ℕ) (failed : Bool)

/-- One call that returns. -/
def BitmapStep (w : World) (s : Sys) (call : BitmapCall) (s' : Sys) : Prop :=
  match call with
  | .ibmAlloc junk iid => onIbm (ibmAlloc junk) s = .ok (iid, s')
  | .ibmFree iid => onIbm (ibmFree w iid) s = .ok ((), s')
  | .dbmAlloc did => dbmAlloc w s = .ok (did, s')
  | .dbmFree did failed => dbmFree w did s = .ok (failed, s')

/-- Every call keeps the words below the hints full. -/
theorem Sys.SearchOk.step {w : World} (hw : w.Honest) {s s' : Sys} {call : BitmapCall}
    (hs : s.SearchOk w) (h : BitmapStep w s call s') : s'.SearchOk w := by
  unfold BitmapStep at h
  cases call with
  | ibmAlloc junk iid => exact (hs.onIbm hs.inodes.alloc).of_ok h
  | ibmFree iid => exact (hs.onIbm hs.inodes.release).of_ok h
  | dbmAlloc did => exact (hs.dbmAlloc hw).of_ok h
  | dbmFree did failed => exact (hs.dbmFree hw).of_ok h

/-- After a mount the hint is zero. -/
theorem InodeBitmap.SearchOk.of_hint {b : InodeBitmap} (hlock : b.ibmLock = false)
    (hhint : b.ibmFirstEmptyWord = 0) : b.SearchOk := by
  constructor
  · rw [hhint]
    exact fullBelow_zero
  · intro hlocked
    rw [hlock] at hlocked
    cases hlocked

/-- After a mount the hints are zero. -/
theorem Sys.SearchOk.of_hints {w : World} {s : Sys} (hs : s.BcacOk) (hmeta : s.MetaInv w)
    (hlock : s.ibm.ibmLock = false) (hibm : s.ibm.ibmFirstEmptyWord = 0)
    (hdbm : s.dbmFirstEmptyWord = 0) : s.SearchOk w := by
  refine ⟨hs, hmeta, .of_hint hlock hibm, ?_⟩
  rw [hdbm]
  exact fullBelow_zero

/-- In every state that calls on the bitmaps reach from a mount, the words below the
hints are full, and an allocation marks the least free number and no other. -/
theorem alloc_finds_least {w : World} (hw : w.Honest) {s₀ s : Sys} {calls : List BitmapCall}
    (hs : s₀.BcacOk) (hmeta : s₀.MetaInv w) (hlock : s₀.ibm.ibmLock = false)
    (hibm : s₀.ibm.ibmFirstEmptyWord = 0) (hdbm : s₀.dbmFirstEmptyWord = 0)
    (hrun : Run (BitmapStep w) s₀ calls s) :
    FullBelow s.ibm.used 32768 (s.ibm.ibmFirstEmptyWord * 64) ∧
    FullBelow s.dataUsed 16777216 (s.dbmFirstEmptyWord * 64) ∧
    (∀ junk iid, IsLeast s.ibm.freeIids iid → ∃ s', onIbm (ibmAlloc junk) s = .ok (iid, s') ∧
      s'.ibm.used = insert iid s.ibm.used ∧ s'.dataUsed = s.dataUsed) ∧
    ∀ did, IsLeast s.freeDids did → Exec.Wp (dbmAlloc w)
      (fun ret s' => ret = did ∧ s'.dataUsed = insert did s.dataUsed ∧ s'.ibm = s.ibm)
      (fun e => e.NoCacheRoom ∧ ¬s.Roomy 0) s := by
  have hok : s.SearchOk w := hrun.invariant (fun _ _ _ h hstep => h.step hw hstep)
    (.of_hints hs hmeta hlock hibm hdbm)
  refine ⟨hok.inodes.below, hok.below, fun junk iid hiid => ?_, fun did hdid => ?_⟩
  · have hwp : Exec.Wp (onIbm (ibmAlloc junk))
        (fun ret s' => ret = iid ∧ s'.ibm.used = insert iid s.ibm.used ∧ s'.dataUsed = s.dataUsed)
        (fun _ => False) s :=
      Exec.wp_zoom.mpr ((hok.inodes.alloc_least hiid).imp fun _ _ h => ⟨h.1, h.2, rfl⟩)
    obtain ⟨_, s', heq, rfl, hused, hdata⟩ := hwp.returns
    exact ⟨s', heq, hused, hdata⟩
  · exact hok.dbmAlloc_least hw hdid

/-- The theorem after an allocation in each bitmap of an empty system. -/
theorem alloc_finds_least_blank : ∃ s : Sys,
    Run (BitmapStep World.plain) Sys.blank [.ibmAlloc ⟨none, 0⟩ 0, .dbmAlloc 0] s ∧
    FullBelow s.ibm.used 32768 (s.ibm.ibmFirstEmptyWord * 64) ∧
    FullBelow s.dataUsed 16777216 (s.dbmFirstEmptyWord * 64) ∧
    (∀ junk iid, IsLeast s.ibm.freeIids iid → ∃ s', onIbm (ibmAlloc junk) s = .ok (iid, s') ∧
      s'.ibm.used = insert iid s.ibm.used ∧ s'.dataUsed = s.dataUsed) ∧
    ∀ did, IsLeast s.freeDids did → Exec.Wp (dbmAlloc World.plain)
      (fun ret s' => ret = did ∧ s'.dataUsed = insert did s.dataUsed ∧ s'.ibm = s.ibm)
      (fun e => e.NoCacheRoom ∧ ¬s.Roomy 0) s := by
  have hrun : Run (BitmapStep World.plain) Sys.blank [.ibmAlloc ⟨none, 0⟩ 0, .dbmAlloc 0] _ :=
    .cons rfl (.cons rfl (.nil _))
  exact ⟨_, hrun, alloc_finds_least World.plain_reliable Sys.blank_bcacOk Sys.blank_metaInv rfl rfl
    rfl hrun⟩

/-! ## A full inode bitmap -/

/-- A call on the inode bitmap, with what it returned. -/
inductive IbmCall
  /-- `ibm_alloc`, and what it would find in memory it never set. -/
  | alloc (junk : Leftover) (iid : ℕ)
  /-- `ibm_free`. -/
  | free (iid : ℕ)

/-- One call that returns. -/
def IbmStep (w : World) (b : InodeBitmap) (call : IbmCall) (b' : InodeBitmap) : Prop :=
  match call with
  | .alloc junk iid => ibmAlloc junk b = .ok (iid, b')
  | .free iid => ibmFree w iid b = .ok ((), b')

/-- The call of `ibm_alloc` fails and leaves the bitmap, the hint and the lock as they
should be. -/
def CleanFailure (junk : Leftover) (b : InodeBitmap) : Prop :=
  ∃ b', ibmAlloc junk b = .ok (0, b') ∧ b'.ibm = b.ibm ∧
    b'.ibmFirstEmptyWord = b.ibmFirstEmptyWord ∧ b'.ibmLock = false

/-- No call on the inode bitmap returns any more. -/
def Stuck (w : World) (b : InodeBitmap) : Prop := ∀ call b', ¬IbmStep w b call b'

section

variable {w : World} {b b' : InodeBitmap} {junk : Leftover}

/-- With the lock held every call blocks. -/
theorem stuck_of_locked (h : b.ibmLock = true) : Stuck w b := by
  intro call b' hstep
  cases call with
  | alloc junk iid =>
    have hwp : Exec.Wp (ibmAlloc junk) (fun _ _ => False) (fun _ => True) b := by
      simp [ibmAlloc, ibmAllocExit, lockIbm, h]
    exact hwp.of_ok hstep
  | free iid =>
    have hwp : Exec.Wp (ibmFree w iid) (fun _ _ => False) (fun _ => True) b := by
      simp [ibmFree, lockIbm, h]
    exact hwp.of_ok hstep

/-- Over a full bitmap `ibm_alloc` returns 0 with the lock held, or a number past the end. -/
theorem wp_ibmAlloc_full (hfull : b.freeIids = ∅) (hhint : b.ibmFirstEmptyWord ≤ 512) :
    Exec.Wp (ibmAlloc junk) (fun iid b' => iid = 0 ∧ b'.ibmLock = true ∨ 32768 ≤ iid)
      (fun _ => True) b := by
  refine Exec.wp_bind.mpr (wp_ibmAllocExit ?_ ?_ ?_ fun _ => trivial)
  · intro id b' _ hmarked
    have hid : id ∈ b.freeIids := ⟨hmarked.lt, hmarked.unused⟩
    rw [hfull] at hid
    exact hid.elim
  · intro _
    exact Or.inl ⟨rfl, rfl⟩
  · intro id b' hpast _ _ _ _ hlarge
    exact Or.inr (hlarge (le_antisymm hhint hpast))

/-- No call of `ibm_alloc` on a full bitmap is a clean failure. -/
theorem not_cleanFailure_of_full (hfull : b.freeIids = ∅) (hhint : b.ibmFirstEmptyWord ≤ 512) :
    ¬CleanFailure junk b := by
  rintro ⟨b', hret, _, _, hlock⟩
  rcases (wp_ibmAlloc_full hfull hhint).of_ok hret with ⟨_, hheld⟩ | hlarge
  · rw [hlock] at hheld
    cases hheld
  · cases hlarge

/-- Over a full bitmap `ibm_alloc` does not fail cleanly: when it returns 0 no call returns
after it, and otherwise it returns a number past the end. -/
theorem ibmAlloc_full_not_clean (hfull : b.freeIids = ∅) (hhint : b.ibmFirstEmptyWord ≤ 512) :
    ¬CleanFailure junk b ∧ ∀ iid after b', Run (IbmStep w) b (.alloc junk iid :: after) b' →
      iid = 0 ∧ after = [] ∨ 32768 ≤ iid := by
  constructor
  · exact not_cleanFailure_of_full hfull hhint
  · intro iid after b' hrun
    obtain ⟨b₁, hstep, hrest⟩ := hrun.uncons
    rcases (wp_ibmAlloc_full hfull hhint).of_ok hstep with ⟨hzero, hheld⟩ | hlarge
    · refine Or.inl ⟨hzero, ?_⟩
      cases hrest with
      | nil => rfl
      | cons hnext _ => exact (stuck_of_locked hheld _ _ hnext).elim
    · exact Or.inr hlarge

end

/-- An inode bitmap in which only the last number is free, with its word as the hint. -/
def lastFree : InodeBitmap := ⟨⟨fun i => if i.val = 4088 then 254#8 else 255#8⟩, 511, false⟩

/-- All numbers of `lastFree` but the last are used. -/
theorem lastFree_used {iid : ℕ} (h : iid < 32767) : iid ∈ lastFree.used := by
  have hones : ∀ k < 8, (255#8).getLsbD k = true := by decide
  have hlast : ∀ k < 8, k ≠ 0 → (254#8).getLsbD k = true := by decide
  refine ⟨by omega, ?_⟩
  rw [idUsed_eq_byte]
  have hlt : 8 * (iid / 64) + (7 - iid % 64 / 8) < 4096 := by omega
  simp only [lastFree, Bytes.get, hlt, dif_pos]
  by_cases hbyte : 8 * (iid / 64) + (7 - iid % 64 / 8) = 4088
  · rw [if_pos hbyte]
    exact hlast _ (by omega) (by omega)
  · rw [if_neg hbyte]
    exact hones _ (by omega)

/-- After the last number was handed out, the bitmap is full. -/
theorem exists_full_of_lastFree :
    ∃ b, Run (IbmStep World.plain) lastFree [.alloc ⟨none, 0⟩ 32767] b ∧ b.freeIids = ∅ ∧
      b.ibmFirstEmptyWord ≤ 512 := by
  refine ⟨_, .cons rfl (.nil _), ?_, by decide⟩
  ext iid
  simp only [InodeBitmap.freeIids, freeIds, Set.mem_ofPred_eq, Set.mem_empty_iff_false, iff_false,
    not_and, not_not]
  intro hiid
  rw [@used_markWord lastFree _ 511 0 (by decide) (by decide) rfl]
  by_cases hlast : iid = 32767
  · exact Or.inl hlast
  · exact Or.inr (lastFree_used (by omega))

/-- The theorem once the last number was handed out. -/
theorem ibmAlloc_full_not_clean_last : ∃ b,
    Run (IbmStep World.plain) lastFree [.alloc ⟨none, 0⟩ 32767] b ∧
    ¬CleanFailure ⟨none, 0⟩ b ∧
    ∀ iid after b', Run (IbmStep World.plain) b (.alloc ⟨none, 0⟩ iid :: after) b' →
      iid = 0 ∧ after = [] ∨ 32768 ≤ iid := by
  obtain ⟨b, hrun, hfull, hhint⟩ := exists_full_of_lastFree
  exact ⟨b, hrun, ibmAlloc_full_not_clean hfull hhint⟩

/-- The failing allocation after the last number was handed out is not clean. -/
theorem last_failure_not_clean : ∃ b,
    Run (IbmStep World.plain) lastFree [.alloc ⟨none, 0⟩ 32767] b ∧ b.freeIids = ∅ ∧
    b.ibmFirstEmptyWord ≤ 512 ∧ ¬CleanFailure ⟨none, 0⟩ b := by
  obtain ⟨b, hrun, hfull, hhint⟩ := exists_full_of_lastFree
  exact ⟨b, hrun, hfull, hhint, not_cleanFailure_of_full hfull hhint⟩

end Efs
