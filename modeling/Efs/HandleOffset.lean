import Efs.File
import Efs.InodeSize
import Efs.RecordedPaths

/-!
# The offset of a handle

`fread` and `fwrite` move the offset of a handle by the bytes done, `inode_rw_data` sets
the size of the inode after a write that came to its end, and `fseek` checks the size.
Which fetches of blocks fail is given with each write. The offset stays inside of the file
exactly when no write has its first failing fetch in a round that begins past the file.
-/

namespace Efs

open Library

/-! ## Fetches that fail -/

/-- The offset at which the round `j` of a transfer from `off` begins. -/
def roundStart (off j : ℕ) : ℕ := if j = 0 then off else (off / blkSz + j) * blkSz

/-- In the loop of `inode_rw_data`, `bget_from_cache_lock` returns a null pointer in the first
round that `fails` tells, and a block in those before it. -/
def FetchesFail (w : World) (ip size : ℕ) (write : Bool) (fails : ℕ → Bool) (a : Sys × Progress) :
    Prop :=
  ∀ rounds a' goesOn p' s', Run (RoundStep w ip size write) a rounds a' → a'.2.done < size →
    rwRound w ip size write a'.2 a'.1 = .ok ((goesOn, p'), s') → goesOn = !fails rounds.length

/-- The first fetch that fails of a transfer is that of a round that begins past `n`. -/
def FailsPast (fails : ℕ → Bool) (off size n : ℕ) : Prop :=
  ∃ j, fails j = true ∧ (∀ i < j, fails i = false) ∧ roundStart off j < off + size ∧
    n < roundStart off j

section

variable {w : World} {ip iid size off n : ℕ} {write goesOn finished : Bool} {p p' : Progress}
  {s s' : Sys} {fails : ℕ → Bool}

/-- What a round does to the bytes done and to the offset. -/
theorem rwRound_cases (h : rwRound w ip size write p s = .ok ((goesOn, p'), s')) :
    goesOn = true ∧ p'.done = p.done + p.round size ∧ p'.off = (p.off + p.round size) % 2 ^ 32 ∨
      goesOn = false ∧ p'.done = p.done ∧ p'.off = p.off := by
  obtain ⟨found, s₁, _, h⟩ := Exec.bind_eq_ok.mp h
  obtain ⟨inode, s₂, _, h⟩ := Exec.bind_eq_ok.mp h
  obtain ⟨bp, s₃, _, h⟩ := Exec.bind_eq_ok.mp h
  cases bp with
  | none =>
    cases h
    exact Or.inr ⟨rfl, rfl, rfl⟩
  | some bp =>
    obtain ⟨block, s₄, _, h⟩ := Exec.bind_eq_ok.mp h
    cases write with
    | true =>
      obtain ⟨_, s₅, _, h⟩ := Exec.bind_eq_ok.mp h
      obtain ⟨_, s₆, _, h⟩ := Exec.bind_eq_ok.mp h
      obtain ⟨_, s₇, _, h⟩ := Exec.bind_eq_ok.mp h
      cases h
      exact Or.inl ⟨rfl, rfl, rfl⟩
    | false =>
      obtain ⟨_, s₅, _, h⟩ := Exec.bind_eq_ok.mp h
      cases h
      exact Or.inl ⟨rfl, rfl, rfl⟩

/-- Rounds from one state lead to one state. -/
theorem rounds_deterministic {a a₁ a₂ : Sys × Progress} {is js : List Unit}
    (h₁ : Run (RoundStep w ip size write) a is a₁) (h₂ : Run (RoundStep w ip size write) a js a₂)
    (hlen : is.length = js.length) : a₁ = a₂ := by
  induction h₁ generalizing js with
  | nil =>
    obtain rfl := List.length_eq_zero_iff.mp hlen.symm
    cases h₂
    rfl
  | cons hstep _ ih =>
    cases h₂ with
    | nil => cases hlen
    | cons hstep' hrest' =>
      obtain rfl := RoundStep.deterministic hstep hstep'
      exact ih hrest' (Nat.succ.inj hlen)

/-- Every loop has a pattern of fetches that fail. -/
theorem exists_fetchesFail (w : World) (ip size : ℕ) (write : Bool) (a : Sys × Progress) :
    ∃ fails, FetchesFail w ip size write fails a := by
  classical
  refine ⟨fun j => decide (∃ rounds a' p' s', Run (RoundStep w ip size write) a rounds a' ∧
    rounds.length = j ∧ rwRound w ip size write a'.2 a'.1 = .ok ((false, p'), s')), ?_⟩
  intro rounds a' goesOn p' s' hrun _ hround
  cases goesOn with
  | false =>
    rw [eq_comm, Bool.not_eq_false']
    exact decide_eq_true ⟨rounds, a', p', s', hrun, rfl, hround⟩
  | true =>
    rw [eq_comm, Bool.not_eq_true']
    refine decide_eq_false ?_
    rintro ⟨js, a₁, q, t, hrun', hlen, hstop⟩
    obtain rfl := rounds_deterministic hrun hrun' hlen.symm
    rw [hround] at hstop
    cases hstop

/-- A round that goes on fetched its block. -/
theorem FetchesFail.next (h : FetchesFail w ip size write fails (s, p)) (hlt : p.done < size)
    (hround : rwRound w ip size write p s = .ok ((true, p'), s')) :
    fails 0 = false ∧ FetchesFail w ip size write (fun j => fails (j + 1)) (s', p') := by
  have hstep : RoundStep w ip size write (s, p) () (s', p') := ⟨hlt, hround⟩
  refine ⟨?_, fun rounds a' goesOn q t hrun hlt' hround' => ?_⟩
  · have hfirst := h [] (s, p) true p' s' (.nil _) hlt hround
    simpa using hfirst
  · exact h (() :: rounds) a' goesOn q t (.cons hstep hrun) hlt' hround'

/-- A round that stops did not. -/
theorem FetchesFail.stop (h : FetchesFail w ip size write fails (s, p)) (hlt : p.done < size)
    (hround : rwRound w ip size write p s = .ok ((false, p'), s')) : fails 0 = true := by
  have hfirst := h [] (s, p) false p' s' (.nil _) hlt hround
  simpa using hfirst

/-- The first round starts at the offset. -/
@[simp] theorem roundStart_zero (off : ℕ) : roundStart off 0 = off := if_pos rfl

/-- No round starts before the offset. -/
theorem le_roundStart (off j : ℕ) : off ≤ roundStart off j := by
  unfold roundStart
  split_ifs
  · exact le_refl off
  · simp only [blkSz]
    omega

/-- The rounds after one that ends with its block. -/
theorem roundStart_succ {k : ℕ} (hk : k = blkSz - off % blkSz) (j : ℕ) :
    roundStart off (j + 1) = roundStart (off + k) j := by
  have hdiv : (off + k) / blkSz = off / blkSz + 1 := by
    simp only [blkSz] at hk ⊢
    omega
  unfold roundStart
  rw [if_neg (Nat.succ_ne_zero j), hdiv]
  split_ifs with hj
  · subst hj
    simp only [blkSz] at hk ⊢
    omega
  · rw [Nat.add_right_comm, Nat.add_assoc]

/-- The next round begins after this one. -/
theorem le_roundStart_succ {k : ℕ} (hk : k ≤ blkSz - off % blkSz) (j : ℕ) :
    off + k ≤ roundStart off (j + 1) := by
  rw [roundStart_succ rfl]
  exact (Nat.add_le_add_left hk off).trans (le_roundStart _ _)

/-- What the loop of `inode_rw_data` does to the bytes done and to the offset. -/
structure LoopEnds (ip off size : ℕ) (fails : ℕ → Bool) (p : Progress) (s : Sys)
    (finished : Bool) (p' : Progress) (s' : Sys) : Prop where
  /-- The bytes done. -/
  done_le : p'.done ≤ size
  /-- The offset. -/
  off_eq : p'.off = off + p'.done
  /-- The loop ends when all bytes are done, or early. -/
  all_done : finished = true → p'.done = size
  /-- The sizes stay. -/
  sizeAt : s'.sizeAt ip = s.sizeAt ip
  /-- The early end is in the first round with a fetch that fails. -/
  stopped : finished = false → ∃ j, fails j = true ∧ (∀ i < j, fails i = false) ∧
    roundStart p.off j < off + size ∧ p'.off = roundStart p.off j
  /-- Before the other end no fetch fails. -/
  fetched : finished = true → ∀ j, roundStart p.off j < off + size → fails j = false

/-- The loop has no round when all bytes are done. -/
theorem LoopEnds.all (hle : p.done ≤ size) (hoff : p.off = off + p.done) (hdone : size ≤ p.done) :
    LoopEnds ip off size fails p s true p s := by
  refine ⟨hle, hoff, fun _ => le_antisymm hle hdone, rfl, nofun, fun _ j hj => ?_⟩
  have hge := le_roundStart p.off j
  omega

/-- The loop of `inode_rw_data` ends with all bytes done, or at a block that it cannot fetch. -/
theorem rwRounds_ends (hsize : off + size < 2 ^ 32) {k : ℕ} (hk : size - p.done ≤ k)
    (hle : p.done ≤ size) (hoff : p.off = off + p.done)
    (hfails : FetchesFail w ip size write fails (s, p))
    (h : rwRounds w ip size write k p s = .ok ((finished, p'), s')) :
    LoopEnds ip off size fails p s finished p' s' := by
  induction k generalizing p s fails with
  | zero =>
    cases h
    exact .all hle hoff (by omega)
  | succ k ih =>
    unfold rwRounds at h
    split_ifs at h with hlt
    · obtain ⟨⟨goesOn, p₁⟩, s₁, hround, hrest⟩ := Exec.bind_eq_ok.mp h
      have hkeep : s₁.sizeAt ip = s.sizeAt ip := keepsSize_rwRound _ _ _ _ _ _ _ hround
      have hpos : 0 < p.round size := by
        simp only [Progress.round, blkSz]
        omega
      have hsmall : p.round size ≤ size - p.done := Nat.min_le_left _ _
      have hblock : p.round size ≤ blkSz - p.off % blkSz := Nat.min_le_right _ _
      rcases rwRound_cases hround with ⟨rfl, hdone, hoff₁⟩ | ⟨rfl, hdone, hoff₁⟩
      · obtain ⟨hfirst, hnext⟩ := hfails.next hlt hround
        have hoff₁' : p₁.off = p.off + p.round size := by
          rw [hoff₁, Nat.mod_eq_of_lt (by omega)]
        -- Unless the round is the last one it ends with its block.
        have hsucc : ∀ j, p₁.off < off + size → roundStart p.off (j + 1) = roundStart p₁.off j := by
          intro j hj
          rw [hoff₁']
          apply roundStart_succ
          simp only [Progress.round] at hoff₁' ⊢
          omega
        have hends : LoopEnds ip off size (fun j => fails (j + 1)) p₁ s₁ finished p' s' := by
          exact ih (by omega) (by omega) (by omega) hnext hrest
        refine ⟨hends.done_le, hends.off_eq, hends.all_done, hends.sizeAt.trans hkeep, fun hf => ?_,
          fun hf j hj => ?_⟩
        · obtain ⟨j, hj, hbefore, hlt', heq⟩ := hends.stopped hf
          have hlt₁ := (le_roundStart p₁.off j).trans_lt hlt'
          rw [← hsucc j hlt₁] at hlt' heq
          refine ⟨j + 1, hj, fun i hi => ?_, hlt', heq⟩
          cases i with
          | zero => exact hfirst
          | succ i => exact hbefore i (Nat.lt_of_succ_lt_succ hi)
        · cases j with
          | zero => exact hfirst
          | succ j =>
            have hge := le_roundStart_succ hblock j
            exact hends.fetched hf j (hsucc j (by omega) ▸ hj)
      · cases hrest
        refine ⟨by omega, by omega, fun hf => absurd hf Bool.false_ne_true, hkeep, fun _ => ?_,
          fun hf => absurd hf Bool.false_ne_true⟩
        refine ⟨0, hfails.stop hlt hround, fun i hi => absurd hi (Nat.not_lt_zero i), ?_, ?_⟩
        · rw [roundStart_zero]
          omega
        · rw [roundStart_zero, hoff₁]
    · cases h
      exact .all hle hoff (by omega)

/-- The loop stops past an offset when its first fetch that fails is past it. -/
theorem LoopEnds.failsPast_iff (h : LoopEnds ip off size fails p s finished p' s')
    (hp : p.off = off) : FailsPast fails off size n ↔ finished = false ∧ n < p'.off := by
  subst hp
  constructor
  · rintro ⟨j, hj, hbefore, hlt, hn⟩
    cases finished with
    | true =>
      rw [h.fetched rfl j hlt] at hj
      cases hj
    | false =>
      obtain ⟨j', hj', hbefore', _, heq⟩ := h.stopped rfl
      have hsame : j = j' := by
        rcases Nat.lt_trichotomy j j' with hlt' | heq' | hlt'
        · rw [hbefore' j hlt'] at hj
          cases hj
        · exact heq'
        · rw [hbefore j' hlt'] at hj'
          cases hj'
      exact ⟨rfl, by rwa [heq, ← hsame]⟩
  · rintro ⟨rfl, hn⟩
    obtain ⟨j, hj, hbefore, hlt, heq⟩ := h.stopped rfl
    exact ⟨j, hj, hbefore, hlt, heq ▸ hn⟩

/-! ## Transfers -/

/-- The size is that of the inode. -/
theorem Sys.sizeAt_eq {inode : Inode} (h : s.icac.contentAt ip = some inode) :
    s.sizeAt ip = some inode.size := by
  rw [Sys.sizeAt, h, Option.map_some]

/-- A read at an offset inside of the file stays inside of it. -/
theorem read_inside {buf result : ℕ → Byte} {done : ℕ} (hn : s.sizeAt ip = some n) (hoff : off ≤ n)
    (hoff32 : off < 2 ^ 32) (hsize : size < 2 ^ 32)
    (h : inodeRwData w ip buf off size false s = .ok ((done, result), s')) :
    s'.sizeAt ip = some n ∧ off + done ≤ n := by
  have hwp : Exec.Wp (inodeRwData w ip buf off size false)
      (fun r s' => s'.sizeAt ip = some n ∧ off + r.1 ≤ n) (fun _ => True) s := by
    refine Exec.wp_ite.mpr ⟨fun _ => ⟨hn, hoff⟩, fun hnowrap => ?_⟩
    refine Exec.wp_bind.mpr (wp_inodeAt_any (fun inode hinode => ?_) trivial)
    obtain rfl : inode.size = n := Option.some.inj ((Sys.sizeAt_eq hinode).symm.trans hn)
    have hcut : off + (if ¬false = true ∧ inode.size ≤ (off + size) % 2 ^ 32 then
        (inode.size + 2 ^ 32 - off) % 2 ^ 32 else size) ≤ min inode.size (2 ^ 32 - 1) := by
      by_cases hclip : inode.size ≤ (off + size) % 2 ^ 32
      · rw [if_pos ⟨by simp, hclip⟩]
        omega
      · rw [if_neg fun hclip' => hclip hclip'.2]
        omega
    refine Exec.wp_ite.mpr ⟨fun _ => ⟨hn, hoff⟩, fun _ => ?_⟩
    generalize (if ¬false = true ∧ inode.size ≤ (off + size) % 2 ^ 32 then
        (inode.size + 2 ^ 32 - off) % 2 ^ 32 else size) = cut at hcut ⊢
    refine Exec.wp_bind.mpr (Exec.Wp.intro (fun r s₁ hrounds => ?_) fun _ _ => trivial)
    obtain ⟨finished, p₁⟩ := r
    obtain ⟨fails, hfails⟩ := exists_fetchesFail w ip cut false (s, .start off buf)
    have hends : LoopEnds ip off cut fails (.start off buf) s finished p₁ s₁ :=
      rwRounds_ends (by omega) (Nat.sub_le _ _) (Nat.zero_le _) rfl hfails hrounds
    have hresult : s₁.sizeAt ip = some inode.size ∧ off + p₁.done ≤ inode.size := by
      have hle := hends.done_le
      exact ⟨hends.sizeAt.trans hn, by omega⟩
    cases finished <;> exact hresult
  exact hwp.of_ok h

/-- A write at an offset inside of the file leaves the offset there, unless its first fetch
that fails is past the file. -/
theorem write_inside {buf result : ℕ → Byte} {done : ℕ} (hn : s.sizeAt ip = some n) (hoff : off ≤ n)
    (hoff32 : off < 2 ^ 32) (hsize : size < 2 ^ 32)
    (hfails : FetchesFail w ip size true fails (s, .start off buf))
    (h : inodeRwData w ip buf off size true s = .ok ((done, result), s')) :
    off + done < 2 ^ 32 ∧ ∃ n', s'.sizeAt ip = some n' ∧ (off + done ≤ n' ↔
      ¬(off + size < 2 ^ 32 - 1 ∧ FailsPast fails off size n)) := by
  have hwp : Exec.Wp (inodeRwData w ip buf off size true)
      (fun r s' => off + r.1 < 2 ^ 32 ∧ ∃ n', s'.sizeAt ip = some n' ∧ (off + r.1 ≤ n' ↔
        ¬(off + size < 2 ^ 32 - 1 ∧ FailsPast fails off size n))) (fun _ => True) s := by
    refine Exec.wp_ite.mpr ⟨fun hwrap => ⟨hoff32, n, hn, iff_of_true hoff ?_⟩, fun hnowrap => ?_⟩
    · rintro ⟨hlt, j, _, _, hj, _⟩
      have hge := le_roundStart off j
      omega
    refine Exec.wp_bind.mpr (wp_inodeAt_any (fun inode hinode => ?_) trivial)
    refine Exec.wp_ite.mpr ⟨fun hlarge => ⟨hoff32, n, hn, iff_of_true hoff ?_⟩, fun hsmall => ?_⟩
    · rintro ⟨hlt, _⟩
      have hmod := hlarge.2
      omega
    have hlt : off + size < 2 ^ 32 - 1 := by
      have hmod : ¬2 ^ 32 - 1 ≤ (off + size) % 2 ^ 32 := fun hle => hsmall ⟨rfl, hle⟩
      omega
    rw [if_neg (by simp)]
    refine Exec.wp_bind.mpr (Exec.Wp.intro (fun r s₁ hrounds => ?_) fun _ _ => trivial)
    obtain ⟨finished, p₁⟩ := r
    have hends : LoopEnds ip off size fails (.start off buf) s finished p₁ s₁ :=
      rwRounds_ends (by omega) (Nat.sub_le _ _) (Nat.zero_le _) rfl hfails hrounds
    have hle := hends.done_le
    have hn₁ : s₁.sizeAt ip = some n := hends.sizeAt.trans hn
    have hpast := hends.failsPast_iff (n := n) rfl
    cases finished with
    | false =>
      have hoff₁ := hends.off_eq
      refine ⟨by omega, n, hn₁, ?_⟩
      change off + p₁.done ≤ n ↔ _
      rw [hpast, hoff₁, and_iff_right rfl, and_iff_right hlt]
      exact Nat.not_lt.symm
    | true =>
      simp only [Bool.not_true, Bool.false_eq_true, if_false, if_true]
      refine Exec.wp_bind.mpr (Exec.Wp.intro (fun u s₂ hstore => ?_) fun _ _ => trivial)
      refine Exec.wp_bind.mpr (Exec.Wp.intro (fun b s₃ hdirty => ?_) fun _ _ => trivial)
      have hs₃ : s₃.sizeAt ip = some (max n p₁.off) := by
        rw [ofContents_sizeAt.inodeMakeDirty _ _ _ _ hdirty, Sys.sizeAt,
          contentAt_inodeStore hstore]
        obtain ⟨inode₁, hinode₁, rfl⟩ := Option.map_eq_some_iff.mp hn₁
        rw [hinode₁, Option.map_some, Option.map_some]
        split_ifs with hless
        · exact congrArg some (max_eq_right hless.le).symm
        · exact congrArg some (max_eq_left (Nat.not_lt.mp hless)).symm
      refine ⟨by omega, _, hs₃, iff_of_true ?_ ?_⟩
      · rw [hends.off_eq]
        exact le_max_right _ _
      · rintro ⟨_, hfailed⟩
        exact absurd (hpast.mp hfailed).1 (by simp)
  exact hwp.of_ok h

/-- A write of a file has its first fetch that fails past the end of the file. -/
def Sys.WriteFailsPast (s : Sys) (ip off size : ℕ) (fails : ℕ → Bool) : Prop :=
  ∃ inode, s.icac.contentAt ip = some inode ∧ inode.type = inodeTpFile ∧ off + size < 2 ^ 32 - 1 ∧
    FailsPast fails off size inode.size

/-- An inode is part of the contents of the inode cache. -/
theorem ofContents_contentAt : OfContents fun s => s.icac.contentAt ip := fun _ _ h => congrFun h ip

/-- What stands between `inode_lock` and `inode_unlock` sees the size of before, and the size
that it leaves is that of after. -/
theorem wp_inodeRwFile {buf : ℕ → Byte} {Q : ℕ × (ℕ → Byte) → Sys → Prop}
    (hother : ∀ b s₁ inode s', inodeLock w ip s = .ok (b, s₁) → s₁.icac.contentAt ip = some inode →
      inode.type ≠ inodeTpFile → s'.sizeAt ip = s.sizeAt ip → Q (0, buf) s')
    (hfile : ∀ b s₁ inode r s₂ s', inodeLock w ip s = .ok (b, s₁) →
      s₁.icac.contentAt ip = some inode → inode.type = inodeTpFile → s₁.sizeAt ip = s.sizeAt ip →
      inodeRwData w ip buf off size write s₁ = .ok (r, s₂) → s'.sizeAt ip = s₂.sizeAt ip → Q r s') :
    Exec.Wp (inodeRwFile w ip buf off size write) Q (fun _ => True) s := by
  refine Exec.wp_bind.mpr (Exec.Wp.intro (fun b s₁ hlock => ?_) fun _ _ => trivial)
  have hs₁ : s₁.sizeAt ip = s.sizeAt ip := ofContents_sizeAt.inodeLock _ _ _ _ hlock
  refine Exec.wp_bind.mpr (wp_inodeAt_any (fun inode hinode => ?_) trivial)
  refine Exec.wp_ite.mpr ⟨fun htype => ?_, fun htype => ?_⟩
  · refine Exec.wp_bind.mpr (Exec.Wp.intro (fun r s₂ hdata => ?_) fun _ _ => trivial)
    refine Exec.wp_bind.mpr (Exec.Wp.intro (fun _ s' hunlock => ?_) fun _ _ => trivial)
    exact hfile b s₁ inode r s₂ s' hlock hinode htype hs₁ hdata
      (ofContents_sizeAt.inodeUnlock _ _ _ _ hunlock)
  · refine Exec.wp_bind.mpr (Exec.Wp.intro (fun _ s' hunlock => ?_) fun _ _ => trivial)
    exact hother b s₁ inode s' hlock hinode htype
      ((ofContents_sizeAt.inodeUnlock _ _ _ _ hunlock).trans hs₁)

/-- A read ends within the file and keeps its size. -/
theorem wp_readFile {buf : ℕ → Byte} (hn : s.sizeAt ip = some n) (hoff : off ≤ n)
    (hoff32 : off < 2 ^ 32) (hsize : size < 2 ^ 32) :
    Exec.Wp (inodeRwFile w ip buf off size false)
      (fun r s' => s'.sizeAt ip = some n ∧ off + r.1 ≤ n) (fun _ => True) s := by
  apply wp_inodeRwFile
  · intro _ _ _ s' _ _ _ hs'
    exact ⟨hs'.trans hn, hoff⟩
  · intro _ s₁ _ r s₂ s' _ _ _ hs₁ hdata hs'
    obtain ⟨hs₂, hle⟩ := read_inside (hs₁.trans hn) hoff hoff32 hsize hdata
    exact ⟨hs'.trans hs₂, hle⟩

/-- A write from within a file ends within it, unless a fetch fails past its end. -/
theorem wp_writeFile {buf : ℕ → Byte} (hn : s.sizeAt ip = some n) (hoff : off ≤ n)
    (hoff32 : off < 2 ^ 32) (hsize : size < 2 ^ 32)
    (hfails : ∀ b s₁, inodeLock w ip s = .ok (b, s₁) →
      FetchesFail w ip size true fails (s₁, .start off buf)) :
    Exec.Wp (inodeRwFile w ip buf off size true)
      (fun r s' => off + r.1 < 2 ^ 32 ∧ ∃ n', s'.sizeAt ip = some n' ∧
        (off + r.1 ≤ n' ↔ ¬s.WriteFailsPast ip off size fails)) (fun _ => True) s := by
  have hcontent : ∀ {b s₁ inode}, inodeLock w ip s = .ok (b, s₁) →
      s₁.icac.contentAt ip = some inode → s.icac.contentAt ip = some inode := by
    intro b s₁ inode hlock hinode
    exact (ofContents_contentAt.inodeLock _ _ _ _ hlock).symm.trans hinode
  apply wp_inodeRwFile
  · intro b s₁ inode s' hlock hinode htype hs'
    refine ⟨hoff32, n, hs'.trans hn, iff_of_true hoff ?_⟩
    rintro ⟨inode', hinode', htype', _⟩
    obtain rfl := Option.some.inj ((hcontent hlock hinode).symm.trans hinode')
    exact htype htype'
  · intro b s₁ inode r s₂ s' hlock hinode htype hs₁ hdata hs'
    obtain ⟨hlt, n', hn', hiff⟩ :=
      write_inside (hs₁.trans hn) hoff hoff32 hsize (hfails b s₁ hlock) hdata
    have heq : inode.size = n := Option.some.inj ((Sys.sizeAt_eq hinode).symm.trans (hs₁.trans hn))
    refine ⟨hlt, n', hs'.trans hn', hiff.trans (not_congr ?_)⟩
    constructor
    · rintro ⟨hsmall, hpast⟩
      exact ⟨inode, hcontent hlock hinode, htype, hsmall, heq ▸ hpast⟩
    · rintro ⟨inode', hinode', _, hsmall, hpast⟩
      obtain rfl := Option.some.inj ((hcontent hlock hinode).symm.trans hinode')
      exact ⟨hsmall, heq ▸ hpast⟩

/-- `inode_get_size` returns the size. -/
theorem wp_inodeGetSize (hn : s.sizeAt ip = some n) : Exec.Wp (inodeGetSize w ip)
    (fun r s' => r = n ∧ s'.sizeAt ip = some n) (fun _ => True) s := by
  refine Exec.wp_bind.mpr (Exec.Wp.intro (fun _ s₁ hlock => ?_) fun _ _ => trivial)
  have hs₁ : s₁.sizeAt ip = some n := (ofContents_sizeAt.inodeLock _ _ _ _ hlock).trans hn
  refine Exec.wp_bind.mpr (wp_inodeAt_any (fun inode hinode => ?_) trivial)
  refine Exec.wp_bind.mpr (Exec.Wp.intro (fun _ s' hunlock => ?_) fun _ _ => trivial)
  have heq : inode.size = n := Option.some.inj ((Sys.sizeAt_eq hinode).symm.trans hs₁)
  exact ⟨heq, (ofContents_sizeAt.inodeUnlock _ _ _ _ hunlock).trans hs₁⟩

end

/-! ## Calls on a handle -/

/-- A call on a handle, with the rounds of a `fwrite` in which the fetch of a block fails and
with whether a `fseek` failed. -/
inductive HandleCall
  | fread (data : ℕ → Byte) (size : ℕ)
  | fwrite (data : ℕ → Byte) (size : ℕ) (fails : ℕ → Bool)
  | fseek (off : ℕ) (whence : Whence) (failed : Bool)

/-- In a write on the handle `fp` the fetches of blocks fail that `fails` tells. -/
def WriteFetches (w : World) (fp : ℕ) (data : ℕ → Byte) (size : ℕ) (fails : ℕ → Bool) (s : Fs) :
    Prop :=
  ∀ file b sys, s.files fp = some file → inodeLock w file.ip s.sys = .ok (b, sys) →
    FetchesFail w file.ip size true fails (sys, .start file.offset data)

/-- The call on the handle `fp`, with a size of 32 bits, returns. -/
def HandleStep (w : World) (fp : ℕ) (s : Fs) : HandleCall → Fs → Prop
  | .fread data size, s' => size < 2 ^ 32 ∧ ∃ r, fread w fp data size s = .ok (r, s')
  | .fwrite data size fails, s' => size < 2 ^ 32 ∧ WriteFetches w fp data size fails s ∧
      ∃ done, fwrite w fp data size s = .ok (done, s')
  | .fseek off whence failed, s' => fseek w fp off whence s = .ok (failed, s')

/-- The offset of the handle is not past its file. -/
def Fs.Inside (fp : ℕ) (s : Fs) : Prop :=
  ∃ file n, s.files fp = some file ∧ s.sys.sizeAt file.ip = some n ∧ file.offset ≤ n

/-- The offset is not past the file before and after a call, and a `fseek` that fails leaves
it. The size of the file less the offset, which a read takes, is then no underflow. -/
def OffsetKept (fp : ℕ) (s : Fs) (c : HandleCall) (s' : Fs) : Prop :=
  s.Inside fp ∧ s'.Inside fp ∧ ∀ off whence, c = .fseek off whence true → s'.files fp = s.files fp

/-- The call is a write whose first fetch that fails is in a round that begins past the file. -/
def FetchFailsPast (fp : ℕ) (s : Fs) (c : HandleCall) : Prop :=
  ∃ data size fails file, c = .fwrite data size fails ∧ s.files fp = some file ∧
    file.writable = true ∧ s.sys.WriteFailsPast file.ip file.offset size fails

/-- The offset has 32 bits and is not past the file. -/
def Fs.Inside32 (fp : ℕ) (s : Fs) : Prop :=
  ∃ file n, s.files fp = some file ∧ s.sys.sizeAt file.ip = some n ∧ file.offset ≤ n ∧
    file.offset < 2 ^ 32

section

variable {w : World} {fp : ℕ} {s s' : Fs} {file : File} {data : ℕ → Byte} {size off : ℕ}

/-- A handle within its file with a 32-bit offset is within its file. -/
theorem Fs.Inside32.inside (h : s.Inside32 fp) : s.Inside fp := by
  obtain ⟨file, n, hfile, hn, hle, _⟩ := h
  exact ⟨file, n, hfile, hn, hle⟩

/-- Reading an open file. -/
theorem wp_fileAt (hfile : s.files fp = some file) {Q : File → Fs → Prop} {E : Halt → Prop}
    (hQ : Q file s) : Exec.Wp (fileAt fp) Q E s := by
  simp only [fileAt, Exec.wp_bind, Exec.wp_read, hfile]
  exact hQ

/-- `fread` leaves the handle within its file. -/
theorem fread_inside (h : s.Inside32 fp) (hsize : size < 2 ^ 32) {r : ℕ × (ℕ → Byte)}
    (hcall : fread w fp data size s = .ok (r, s')) : s'.Inside32 fp := by
  obtain ⟨file, n, hfile, hn, hle, hlt⟩ := h
  have hwp : Exec.Wp (fread w fp data size) (fun _ s' => s'.Inside32 fp) (fun _ => True) s := by
    refine Exec.wp_bind.mpr (wp_fileAt hfile (Exec.wp_bind.mpr (Exec.wp_zoom.mpr ?_)))
    refine (wp_readFile hn hle hlt hsize).imp fun r sys' hr => ?_
    refine ⟨_, n, Function.update_self _ _ _, hr.1, ?_, Nat.mod_lt _ (by decide)⟩
    exact (Nat.mod_le _ _).trans hr.2
  exact hwp.of_ok hcall

/-- Every write that returns is a call with some pattern of fetches that fail. -/
theorem exists_fwriteStep (hsize : size < 2 ^ 32) {done : ℕ}
    (hcall : fwrite w fp data size s = .ok (done, s')) :
    ∃ fails, HandleStep w fp s (.fwrite data size fails) s' := by
  have hlocked : ∃ fails, WriteFetches w fp data size fails s := by
    by_cases hlock : ∃ file b sys, s.files fp = some file ∧ inodeLock w file.ip s.sys = .ok (b, sys)
    · obtain ⟨file, b, sys, hfile, hlock⟩ := hlock
      obtain ⟨fails, hfails⟩ :=
        exists_fetchesFail w file.ip size true (sys, .start file.offset data)
      refine ⟨fails, fun file' b' sys' hfile' hlock' => ?_⟩
      obtain rfl := Option.some.inj (hfile.symm.trans hfile')
      obtain ⟨-, rfl⟩ := Prod.mk.inj (Except.ok.inj (hlock.symm.trans hlock'))
      exact hfails
    · exact ⟨fun _ => false, fun file b sys hfile hlock' =>
        absurd ⟨file, b, sys, hfile, hlock'⟩ hlock⟩
  obtain ⟨fails, hfails⟩ := hlocked
  exact ⟨fails, hsize, hfails, done, hcall⟩

/-- `fwrite` leaves the handle within its file exactly when no fetch fails past the end. -/
theorem fwrite_inside_iff (h : s.Inside32 fp) (hsize : size < 2 ^ 32) {fails : ℕ → Bool} {done : ℕ}
    (hfails : WriteFetches w fp data size fails s)
    (hcall : fwrite w fp data size s = .ok (done, s')) :
    (s'.Inside fp → s'.Inside32 fp) ∧
      (s'.Inside fp ↔ ¬FetchFailsPast fp s (.fwrite data size fails)) := by
  have hs := h.inside
  obtain ⟨file, n, hfile, hn, hle, hlt⟩ := h
  have hwp : Exec.Wp (fwrite w fp data size) (fun _ s' => (s'.Inside fp → s'.Inside32 fp) ∧
      (s'.Inside fp ↔ ¬FetchFailsPast fp s (.fwrite data size fails))) (fun _ => True) s := by
    refine Exec.wp_bind.mpr (wp_fileAt hfile
      (Exec.wp_ite.mpr ⟨fun hreadonly => ?_, fun hwritable => ?_⟩))
    · refine ⟨fun _ => ⟨file, n, hfile, hn, hle, hlt⟩, iff_of_true hs ?_⟩
      rintro ⟨_, _, _, file', _, hfile', hwritable, _⟩
      obtain rfl := Option.some.inj (hfile.symm.trans hfile')
      rw [hwritable] at hreadonly
      cases hreadonly
    · refine Exec.wp_bind.mpr (Exec.wp_zoom.mpr ?_)
      refine (wp_writeFile hn hle hlt hsize fun b sys hlock => hfails file b sys hfile hlock).imp
        fun r sys' ⟨hsum, n', hn', hiff⟩ => ?_
      have hmod : (file.offset + r.1) % 2 ^ 32 = file.offset + r.1 := Nat.mod_eq_of_lt hsum
      have hstore : Function.update s.files fp
          (some { file with offset := (file.offset + r.1) % 2 ^ 32 }) fp =
            some { file with offset := file.offset + r.1 } := by
        rw [Function.update_self, hmod]
      refine ⟨?_, ?_, fun hnot => ?_⟩
      · rintro ⟨file', n'', hfile', hn'', hle'⟩
        obtain rfl := Option.some.inj (hstore.symm.trans hfile')
        exact ⟨_, n'', hfile', hn'', hle', hsum⟩
      · rintro ⟨file', n'', hfile', hn'', hle'⟩
          ⟨data', size', fails', file₀, hcall', hfile₀, _, hpast⟩
        obtain rfl := Option.some.inj (hstore.symm.trans hfile')
        obtain rfl := Option.some.inj (hfile.symm.trans hfile₀)
        obtain rfl := Option.some.inj (hn'.symm.trans hn'')
        obtain ⟨rfl, rfl, rfl⟩ := HandleCall.fwrite.inj hcall'
        exact hiff.mp hle' hpast
      · refine ⟨_, n', hstore, hn', hiff.mpr fun hpast => hnot ?_⟩
        exact ⟨data, size, fails, file, rfl, hfile, by simpa using hwritable, hpast⟩
  exact hwp.of_ok hcall

/-- `fseek` leaves the handle within its file, and as it was when it fails. -/
theorem fseek_inside (h : s.Inside32 fp) {whence : Whence} {failed : Bool}
    (hcall : fseek w fp off whence s = .ok (failed, s')) :
    s'.Inside32 fp ∧ (failed = true → s'.files fp = s.files fp) := by
  obtain ⟨file, n, hfile, hn, hle, hlt⟩ := h
  have hwp : Exec.Wp (fseek w fp off whence) (fun failed s' => s'.Inside32 fp ∧
      (failed = true → s'.files fp = s.files fp)) (fun _ => True) s := by
    refine Exec.wp_bind.mpr (wp_fileAt hfile (Exec.wp_bind.mpr (Exec.wp_zoom.mpr ?_)))
    refine (wp_inodeGetSize hn).imp fun ipsize sys' ⟨hipsize, hn'⟩ => ?_
    subst hipsize
    have hkept : ({ s with sys := sys' } : Fs).Inside32 fp ∧
        (true = true → ({ s with sys := sys' } : Fs).files fp = s.files fp) :=
      ⟨⟨file, ipsize, hfile, hn', hle, hlt⟩, fun _ => rfl⟩
    refine Exec.wp_ite.mpr ⟨fun _ => hkept, fun _ => Exec.wp_ite.mpr ⟨fun _ => hkept, fun _ => ?_⟩⟩
    refine Exec.wp_ite.mpr ⟨fun _ => hkept, fun hinside => ⟨?_, nofun⟩⟩
    exact ⟨_, ipsize, Function.update_self _ _ _, hn', Nat.not_lt.mp hinside,
      Nat.mod_lt _ (by decide)⟩
  exact hwp.of_ok hcall

/-- A call keeps the offset inside of the file exactly when it is no write whose first fetch
that fails is past the file. -/
theorem HandleStep.offsetKept_iff {c : HandleCall} (h : s.Inside32 fp)
    (hstep : HandleStep w fp s c s') :
    (OffsetKept fp s c s' → s'.Inside32 fp) ∧ (OffsetKept fp s c s' ↔ ¬FetchFailsPast fp s c) := by
  cases c with
  | fread data size =>
    obtain ⟨hsize, r, hcall⟩ := hstep
    have hs' := fread_inside h hsize hcall
    refine ⟨fun _ => hs', iff_of_true ⟨h.inside, hs'.inside, nofun⟩ ?_⟩
    rintro ⟨_, _, _, _, hcall', _⟩
    cases hcall'
  | fwrite data size fails =>
    obtain ⟨hsize, hfails, done, hcall⟩ := hstep
    obtain ⟨h32, hiff⟩ := fwrite_inside_iff h hsize hfails hcall
    refine ⟨fun hkept => h32 hkept.2.1, ?_⟩
    rw [← hiff]
    exact ⟨fun hkept => hkept.2.1, fun hin => ⟨h.inside, hin, nofun⟩⟩
  | fseek off whence failed =>
    obtain ⟨hs', hfailed⟩ := fseek_inside h hstep
    refine ⟨fun _ => hs', iff_of_true ⟨h.inside, hs'.inside, fun off' whence' heq => ?_⟩ ?_⟩
    · exact hfailed (HandleCall.fseek.inj heq).2.2
    · rintro ⟨_, _, _, _, hcall', _⟩
      cases hcall'

end

/-! ## Opening -/

section

variable {w : World} {junk : Leftover} {s s' : Sys} {fs fs' : Fs} {ip fp type flags : ℕ}
  {alloc : Bool} {filename path : CStr}

/-- The result is no null pointer, or a pointer to an inode. -/
def Points (r : Option ℕ) (s : Sys) : Prop := ∀ ip ∈ r, ∃ n, s.sizeAt ip = some n

/-- The error exit of `inode_get` returns no inode. -/
theorem wp_inodeGetError {E : Halt → Prop} (hE : ∀ e, E e) :
    Exec.Wp (inodeGetError w ip) Points E s := by
  refine Exec.wp_bind.mpr (Exec.Wp.intro (fun _ s' _ => ?_) fun e _ => hE e)
  exact fun _ h => by cases h

/-- The last part of `inode_get` returns a cached inode. -/
theorem wp_inodeGetEnd : Exec.Wp (inodeGetEnd w ip type) Points (fun _ => True) s := by
  refine Exec.wp_bind.mpr (Exec.Wp.intro (fun _ s₁ _ => ?_) fun _ _ => trivial)
  refine Exec.wp_bind.mpr (wp_inodeAt_any (fun inode hinode => ?_) trivial)
  refine Exec.wp_ite.mpr ⟨fun _ => wp_inodeGetError fun _ => trivial, fun _ => ?_⟩
  refine Exec.wp_bind.mpr (Exec.Wp.intro (fun _ s' hunlock => ?_) fun _ _ => trivial)
  intro ip' hip'
  obtain rfl := Option.some.inj hip'
  exact ⟨_, (ofContents_sizeAt.inodeUnlock _ _ _ _ hunlock).trans (Sys.sizeAt_eq hinode)⟩

/-- The loop of `inode_get` returns a cached inode. -/
theorem wp_inodeGetFrom {n : ℕ} {path : Option CStr} {buf : CStr} :
    Exec.Wp (inodeGetFrom w junk type alloc n path buf ip) Points (fun _ => True) s := by
  induction n generalizing path buf ip s with
  | zero => exact wp_inodeGetEnd
  | succ n ih =>
    rcases path with _ | _ | ⟨c, path⟩
    · exact trivial
    · exact wp_inodeGetEnd
    · refine Exec.wp_ite.mpr ⟨fun _ => wp_inodeGetEnd, fun _ => ?_⟩
      refine Exec.wp_bind.mpr (Exec.Wp.intro (fun _ s₁ _ => ?_) fun _ _ => trivial)
      refine Exec.wp_bind.mpr (Exec.Wp.intro (fun inode s₂ _ => ?_) fun _ _ => trivial)
      refine Exec.wp_ite.mpr ⟨fun _ => wp_inodeGetError fun _ => trivial, fun _ => ?_⟩
      refine Exec.wp_bind.mpr (Exec.Wp.intro (fun r s₃ _ => ?_) fun _ _ => trivial)
      cases r with
      | none => exact wp_inodeGetError fun _ => trivial
      | some iid =>
        refine Exec.wp_bind.mpr (Exec.Wp.intro (fun _ s₄ _ => ?_) fun _ _ => trivial)
        refine Exec.wp_bind.mpr (Exec.Wp.intro (fun r s₅ _ => ?_) fun _ _ => trivial)
        cases r with
        | none => exact wp_inodeGetError fun _ => trivial
        | some tmp => exact ih

/-- `inode_get` returns a cached inode. -/
theorem wp_inodeGet : Exec.Wp (inodeGet w junk path type alloc) Points (fun _ => True) s := by
  have hnone : ∀ s : Sys, Points none s := fun _ _ h => by cases h
  refine Exec.wp_ite.mpr ⟨fun _ => hnone s, fun _ => ?_⟩
  cases path with
  | nil => exact hnone s
  | cons c p =>
    refine Exec.wp_ite.mpr ⟨fun _ => hnone s, fun _ => ?_⟩
    refine Exec.wp_bind.mpr (Exec.Wp.intro (fun _ s₁ _ => ?_) fun _ _ => trivial)
    refine Exec.wp_bind.mpr (Exec.Wp.intro (fun r s₂ _ => ?_) fun _ _ => trivial)
    cases r with
    | none => exact trivial
    | some ip => exact wp_inodeGetFrom

/-- The offset of a new handle is that of the start or of the end of its file. -/
theorem wp_fopenInode : Exec.Wp (fopenInode w junk filename flags)
    (fun r s' => ∀ x ∈ r, ∃ n, s'.sizeAt x.2.1 = some n ∧ x.2.2 ≤ n) (fun _ => True) s := by
  have hnone : ∀ s : Sys, ∀ x ∈ (none : Option (Bool × ℕ × ℕ)),
      ∃ n, s.sizeAt x.2.1 = some n ∧ x.2.2 ≤ n := fun _ _ h => by cases h
  have hstart : ∀ {s ip writable}, Points (some ip) s → ∀ x ∈ some ((writable : Bool), ip, 0),
      ∃ n, s.sizeAt x.2.1 = some n ∧ x.2.2 ≤ n := by
    intro s ip writable hip x hx
    obtain rfl := Option.some.inj hx
    obtain ⟨n, hn⟩ := hip ip rfl
    exact ⟨n, hn, Nat.zero_le _⟩
  refine Exec.wp_ite.mpr ⟨fun _ => ?_, fun _ => ?_⟩
  · refine Exec.wp_bind.mpr (wp_inodeGet.imp fun r s₁ hr => ?_)
    cases r with
    | none => exact hnone s₁
    | some ip =>
      obtain ⟨n, hn⟩ := hr ip rfl
      refine Exec.wp_ite.mpr ⟨fun _ => Exec.wp_bind.mpr ?_, fun _ => hstart hr⟩
      refine (wp_inodeGetSize hn).imp fun size s' ⟨hsize, hn'⟩ => ?_
      intro x hx
      obtain rfl := Option.some.inj hx
      exact ⟨n, hn', hsize.le⟩
  · refine Exec.wp_bind.mpr (wp_inodeGet.imp fun r s₁ hr => ?_)
    cases r with
    | none => exact hnone s₁
    | some ip => exact hstart hr

/-- A new handle is inside of its file. -/
theorem fopen_inside (h : fopen w junk filename flags fs = .ok (some fp, fs')) : fs'.Inside fp := by
  have hwp : Exec.Wp (fopen w junk filename flags) (fun r fs' => ∀ fp ∈ r, fs'.Inside fp)
      (fun _ => True) fs := by
    have hnone : ∀ fs : Fs, ∀ fp ∈ (none : Option ℕ), fs.Inside fp := fun _ _ h => by cases h
    refine Exec.wp_ite.mpr ⟨fun _ => hnone fs, fun _ => Exec.wp_bind.mpr (Exec.wp_read.mpr ?_)⟩
    refine Exec.wp_ite.mpr ⟨fun _ => hnone fs, fun _ => Exec.wp_bind.mpr (Exec.wp_read.mpr ?_)⟩
    refine Exec.wp_bind.mpr (Exec.wp_update.mpr (Exec.wp_bind.mpr (Exec.wp_zoom.mpr ?_)))
    refine wp_fopenInode.imp fun r sys hr => ?_
    cases r with
    | none => exact hnone _
    | some opened =>
      obtain ⟨writable, ip, offset⟩ := opened
      obtain ⟨n, hn, hle⟩ := hr _ rfl
      refine Exec.wp_bind.mpr (Exec.wp_update.mpr (Exec.wp_bind.mpr (Exec.wp_bind.mpr ?_)))
      refine wp_fileAt (Function.update_self _ _ _) (Exec.wp_bind.mpr (Exec.wp_read.mpr ?_))
      refine Exec.wp_bind.mpr (Exec.wp_update.mpr (Exec.wp_ite.mpr ⟨fun _ => hnone _, fun _ => ?_⟩))
      intro fp hfp
      obtain rfl := Option.some.inj hfp
      exact ⟨_, n, Function.update_self _ _ _, hn, hle⟩
  exact hwp.of_ok h fp rfl

/-- The offset of a handle is inside of the file after `fopen`, and every further call on the
handle keeps it there exactly when no write has its first failing fetch past the file. -/
theorem handle_inside_iff (w : World) {calls : List HandleCall}
    (hopen : fopen w junk filename flags fs = .ok (some fp, fs'))
    (hsizes : ∀ ip n, fs'.sys.sizeAt ip = some n → n < 2 ^ 32) :
    fs'.Inside fp ∧ (Always (HandleStep w fp) (OffsetKept fp) fs' calls ↔
      Always (HandleStep w fp) (fun s c _ => ¬FetchFailsPast fp s c) fs' calls) := by
  have hin := fopen_inside hopen
  obtain ⟨file, n, hfile, hn, hle⟩ := hin
  have hin32 : fs'.Inside32 fp := ⟨file, n, hfile, hn, hle, hle.trans_lt (hsizes _ n hn)⟩
  refine ⟨hin32.inside, Always.congr (I := Fs.Inside32 fp) ?_ ?_ hin32 calls⟩
  · exact fun s c s' h hstep hkept => (hstep.offsetKept_iff h).1 hkept
  · exact fun s c s' h hstep => (hstep.offsetKept_iff h).2

/-! ## A write that is stopped -/

/-- The block of a root directory with one file. -/
def rootBlock : Data := (Bytes.zero : Data).put 0 (dirent 1 [97#8])

/-- The file of `longFile` under the name `a`, with a size that was not raised since it had
20 parts: that of the inode on the disk, when the file is removed and its name is opened again. -/
def shortFile : Sys :=
  { longFile with
    disk := Function.update longFile.disk 4805 rootBlock
    evicted := Function.update longFile.evicted 4805 rootBlock
    icac := ⟨.empty, ⟨[
      ⟨0, 0, 1, false, false, some {
        iid := 0
        type := inodeTpDir
        size := direntSz
        dip := 0
        bid := Function.update (fun _ => 0) (rootSlot 0) 4805
        aesKey := Bytes.zero
        aesIv := Bytes.zero
        hash := Function.update (fun _ => Bytes.zero) (rootSlot 0) (World.plain.sha256 rootBlock) },
        false⟩,
      ⟨1, 1, 0, false, false, some {
        iid := 1
        type := inodeTpFile
        size := 20 * blkSz
        dip := 0
        bid := fun r => if r.val ≤ 10 then 4682 + r.val else 0
        aesKey := Bytes.zero
        aesIv := Bytes.zero
        hash := Function.update (fun _ => Bytes.zero) (rootSlot 10)
          (World.plain.sha256 longFileIndex) },
        false⟩], 2⟩, [], 2, false⟩ }

/-- No file is open. -/
def shortFs : Fs := ⟨shortFile, fun _ => none, 0, [], .init⟩

/-- The world in which the tenth call of the disk or of the crypto library fails. -/
def tenthFails : World := { World.plain with fails := fun n => n = 9 }

/-- A handle at the end of the file writes two parts. The block of the second one cannot be read
from the disk, and the offset is past the size then. -/
theorem write_stops_past : ∃ fails fs fs',
    fopen tenthFails ⟨none, 0⟩ [slash, 97#8] (oRdwr ||| oAppend) shortFs = .ok (some 0, fs) ∧
      HandleStep tenthFails 0 fs (.fwrite (fun _ => 0) (2 * blkSz) fails) fs' ∧ ¬fs'.Inside 0 := by
  obtain ⟨⟨r, fs⟩, hopen, hcheck⟩ := exists_of_check
    (x := fopen tenthFails ⟨none, 0⟩ [slash, 97#8] (oRdwr ||| oAppend) shortFs)
    (p := fun r => r.1 = some 0 ∧
      (fwrite tenthFails 0 (fun _ => 0) (2 * blkSz) r.2).toOption.any fun r =>
      (r.2.files 0).any (fun file => file.ip = 1 ∧ file.offset = 21 * blkSz) ∧
        r.2.sys.sizeAt 1 = some (20 * blkSz)) (by decide +kernel)
  obtain ⟨rfl, hcheck⟩ := of_decide_eq_true hcheck
  obtain ⟨⟨done, fs'⟩, hwrite, hcheck⟩ := exists_of_check hcheck
  obtain ⟨hfile, hsize⟩ := of_decide_eq_true hcheck
  obtain ⟨fails, hstep⟩ := exists_fwriteStep (by decide) hwrite
  refine ⟨fails, fs, fs', hopen, hstep, ?_⟩
  rintro ⟨file, n, hfile', hn, hle⟩
  rw [hfile'] at hfile
  obtain ⟨hip, hoff⟩ := of_decide_eq_true hfile
  rw [hip, hsize] at hn
  obtain rfl := Option.some.inj hn
  rw [hoff] at hle
  exact absurd hle (by decide)

/-- The sizes that pointers give are those of the nodes. -/
theorem sizeAt_lt {n : ℕ} (h : s.icac.nodes.all fun m => m.content.all fun inode => inode.size < n)
    {k : ℕ} (hk : s.sizeAt ip = some k) : k < n := by
  obtain ⟨inode, hinode, rfl⟩ := Option.map_eq_some_iff.mp hk
  obtain ⟨m, hm, hcontent⟩ := Option.bind_eq_some_iff.mp hinode
  have hall := List.all_eq_true.mp h m (List.mem_of_find?_eq_some hm)
  rw [hcontent] at hall
  exact of_decide_eq_true hall

/-- The same handle, in a world in which nothing fails. -/
theorem handle_inside_iff_shortFs : ∃ fs,
    fopen World.plain ⟨none, 0⟩ [slash, 97#8] (oRdwr ||| oAppend) shortFs = .ok (some 0, fs) ∧
      fs.Inside 0 ∧ ∀ calls, Always (HandleStep World.plain 0) (OffsetKept 0) fs calls ↔
        Always (HandleStep World.plain 0) (fun s c _ => ¬FetchFailsPast 0 s c) fs calls := by
  obtain ⟨⟨r, fs⟩, hopen, hcheck⟩ := exists_of_check
    (x := fopen World.plain ⟨none, 0⟩ [slash, 97#8] (oRdwr ||| oAppend) shortFs)
    (p := fun r => r.1 = some 0 ∧ r.2.sys.icac.nodes.all fun m =>
      m.content.all fun inode => inode.size < 2 ^ 32) (by decide +kernel)
  obtain ⟨rfl, hsizes⟩ := of_decide_eq_true hcheck
  have hiff : ∀ calls, fs.Inside 0 ∧ (Always (HandleStep World.plain 0) (OffsetKept 0) fs calls ↔
      Always (HandleStep World.plain 0) (fun s c _ => ¬FetchFailsPast 0 s c) fs calls) :=
    fun calls => handle_inside_iff World.plain hopen fun ip n hn => sizeAt_lt hsizes hn
  exact ⟨fs, hopen, (hiff []).1, fun calls => (hiff calls).2⟩

end

end Efs
