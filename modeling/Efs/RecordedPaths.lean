import Efs.ExitCascade
import Efs.FileContents

/-!
# The paths that loads record

Every block that a transfer loads is stored with a `hashidx`. Its entries down to the
block are those of the path to it. The deeper entries are left from the round before,
so a block has its own path only when it is no higher in the tree than that round went.
A write back of the block makes an entry of `pd_wb` from the `hashidx`, and this names the
slot above the block when the path is its own.
-/

namespace Efs

open Library

/-- A round of a transfer returns and the loop goes on. -/
def RoundStep (w : World) (ip size : ℕ) (write : Bool) (s : Sys × Progress) (_ : Unit)
    (s' : Sys × Progress) : Prop :=
  s.2.done < size ∧ rwRound w ip size write s.2 s.1 = .ok ((true, s'.2), s'.1)

/-- What the loop of `inode_rw_data` begins with. -/
def Progress.start (off : ℕ) (buf : ℕ → Byte) : Progress := ⟨0, off, buf, HashIdx.zero, Bytes.zero⟩

/-- The bytes that a request is for: a read is cut at the end of the file. -/
def requestSize (inode : Inode) (off size : ℕ) (write : Bool) : ℕ :=
  if ¬write ∧ inode.size ≤ (off + size) % 2 ^ 32 then (inode.size + 2 ^ 32 - off) % 2 ^ 32 else size

/-- The blocks loaded from `s` to `s'`, with the `hashidx` that they were given. -/
def Sys.newLoads (s s' : Sys) : List (ℕ × HashIdx) :=
  s'.loads.take (s'.loads.length - s.loads.length)

/-- The blocks loaded from `s` to `s'` are blocks of the trees, and each has its own path. -/
def RecordsPaths (s s' : Sys) : Prop :=
  ∀ l ∈ s.newLoads s', (∃ r ks, s'.Live r ks ∧ s'.blockAt r ks = l.1) ∧
    ∀ r ks, s'.Live r ks → s'.blockAt r ks = l.1 → IsPath s'.forest r ks l.2

/-- The slot that points at the block at a place. -/
def Sys.parentSlot (s : Sys) (r : RootSlot) : List ℕ → HashSlot
  | [] => ⟨r.1, r.2⟩
  | k :: ks => ⟨s.blockAt r ks, k⟩

/-- Each entry of `pd_wb` that a write back makes of a block loaded from `s` to `s'` names
the slot that points at the block. -/
def NamesParents (s s' : Sys) : Prop :=
  ∀ l ∈ s.newLoads s', ∀ (w : World) (block : Block) (t t' : Sys) (failed : Bool) (node : PdWbNode),
    block.hashidx = l.2 → t.pdWb.find l.1 = none →
    bcacheCbWrite w (some block) l.1 true false t = .ok (failed, t') →
    t'.pdWb.find l.1 = some node →
    ∀ r ks, s'.Live r ks → s'.blockAt r ks = l.1 →
      node.hashidx.at node.hashidx.depth = s'.parentSlot r ks

/-- The levels of index blocks above a part of a file. -/
def indexDepth (bidx : ℕ) : ℕ := (indexPath bidx).2.length

/-- The depth of the paths that the rounds before have left in `hashidx`. The last of them
went as deep as any. -/
def Progress.leftDepth (off : ℕ) (p : Progress) : ℕ :=
  if p.done = 0 then 0 else indexDepth ((off + p.done - 1) / blkSz)

/-- Before a round the blocks of its path that are higher in the tree than the rounds before
went are in the tree, and `cache_find` finds them one after the other. -/
def FindsUpper (iid off : ℕ) (a : Sys × Progress) : Prop :=
  ∀ ks, ks <:+ (indexPlace iid (a.2.off / blkSz)).2 → ks.length < a.2.leftDepth off →
    a.1.Finds (indexPlace iid (a.2.off / blkSz)).1 ks

section

/-- A round has one result. -/
theorem RoundStep.deterministic {w : World} {ip size : ℕ} {write : Bool} {a a₁ a₂ : Sys × Progress}
    {u : Unit} (h₁ : RoundStep w ip size write a u a₁) (h₂ : RoundStep w ip size write a u a₂) :
    a₁ = a₂ := by
  have heq := h₁.2.symm.trans h₂.2
  simp only [Except.ok.injEq, Prod.mk.injEq, true_and] at heq
  exact Prod.ext heq.2 heq.1

variable {w : World} {s s' : Sys} {ip iid size off : ℕ} {write : Bool} {p p' : Progress}
  {inode : Inode} {bidx bidx' : ℕ} {r : RootSlot} {ks : List ℕ} {h : HashIdx}

/-- Later parts of a file are no higher in the tree. -/
theorem indexDepth_mono (h : bidx ≤ bidx') : indexDepth bidx ≤ indexDepth bidx' := by
  unfold indexDepth
  rcases indexPath_cases bidx with ⟨_, heq⟩ | ⟨i, _, _, heq⟩ | ⟨i, _, _, heq⟩ | ⟨i, _, heq⟩ <;>
  rcases indexPath_cases bidx' with
    ⟨_, heq'⟩ | ⟨j, _, _, heq'⟩ | ⟨j, _, _, heq'⟩ | ⟨j, _, heq'⟩ <;>
  simp only [heq, heq', List.length_cons, List.length_nil] <;> omega

/-- The parts past the double index block have the deepest places. -/
theorem indexDepth_eq_three (h : 12892 ≤ bidx) : indexDepth bidx = 3 := by
  unfold indexDepth
  rcases indexPath_cases bidx with ⟨_, heq⟩ | ⟨i, _, _, heq⟩ | ⟨i, _, _, heq⟩ | ⟨i, _, heq⟩
  · omega
  · omega
  · omega
  · simp only [heq, List.length_cons, List.length_nil]

/-- A path has at most four slots. -/
theorem indexDepth_le : indexDepth bidx ≤ 3 := by
  rw [← indexDepth_eq_three (le_max_right bidx 12892)]
  exact indexDepth_mono (le_max_left _ _)

/-- Where a transfer is between its rounds, and what the rounds have left in `hashidx`. -/
structure Between (w : World) (ip iid off : ℕ) (s : Sys × Progress) : Prop where
  /-- The trees are good. -/
  inv : s.1.TreeInv w ∅
  /-- The pointer points to the inode. -/
  pointsTo : ∃ inode, s.1.PointsTo ip iid inode
  /-- The offset, which wraps. -/
  off_eq : s.2.off = (off + s.2.done) % 2 ^ 32
  /-- The entries that are left are those of the paths of the rounds before. -/
  left : ∀ i, 0 < i → i < 4 → ((s.2.hashidx.at i).id ≠ 0 ↔ i ≤ s.2.leftDepth off)

/-- A transfer starts between two rounds. -/
theorem Between.start (hinv : s.TreeInv w ∅) (hp : s.PointsTo ip iid inode) (hoff : off < 2 ^ 32)
    (buf : ℕ → Byte) : Between w ip iid off (s, .start off buf) := by
  refine ⟨hinv, ⟨inode, hp⟩, (Nat.mod_eq_of_lt hoff).symm, fun i hi _ => ?_⟩
  have hleft : (Progress.start off buf).leftDepth off = 0 := rfl
  rw [hleft]
  refine ⟨fun h => absurd rfl h, fun hle => ?_⟩
  omega

/-- The entries of a path name blocks. -/
theorem Recorded.id_ne (hrec : Recorded s.forest r h ks) (hlive : s.Live r ks) {i : ℕ} (hi : 0 < i)
    (hle : i ≤ ks.length) : (h.at i).id ≠ 0 := by
  have hlt : i - 1 < ks.length := by omega
  obtain ⟨k, ks', hks', hlen⟩ := exists_suffix hlt
  have hat := hrec.at_eq hks'
  have hidx : ks'.length + 1 = i := by omega
  rw [hidx] at hat
  rw [hat]
  exact (Forest.Live.of_suffix hlive ((List.suffix_cons k ks').trans hks')).block_ne

/-- A round leaves the path that it took, and of the deeper entries what was there. -/
theorem leftDepth_next (hoff : off < 2 ^ 32) (heq : p.off = (off + p.done) % 2 ^ 32)
    (hlt : p.done < size) (hdone : p'.done = p.done + p.round size) :
    p'.leftDepth off = max (indexDepth (p.off / blkSz)) (p.leftDepth off) := by
  have hround : 0 < p.round size := by
    simp only [Progress.round, blkSz]
    omega
  have hpart : (off + p'.done - 1) / blkSz = (off + p.done) / blkSz := by
    rw [hdone]
    simp only [Progress.round, blkSz] at hround ⊢
    omega
  rw [Progress.leftDepth, if_neg (by omega), hpart]
  by_cases hwrap : off + p.done < 2 ^ 32
  · rw [heq, Nat.mod_eq_of_lt hwrap]
    refine (max_eq_left ?_).symm
    unfold Progress.leftDepth
    split_ifs
    · exact Nat.zero_le _
    · exact indexDepth_mono (Nat.div_le_div_right (Nat.sub_le _ _))
  · -- After a wrap the deepest entries are those of the last parts before it.
    have hleft : p.leftDepth off = 3 := by
      rw [Progress.leftDepth, if_neg (by omega)]
      apply indexDepth_eq_three
      simp only [blkSz]
      omega
    have hdepth : indexDepth ((off + p.done) / blkSz) = 3 := by
      apply indexDepth_eq_three
      simp only [blkSz]
      omega
    rw [hleft, hdepth]
    exact (max_eq_right indexDepth_le).symm

/-- The blocks that a round loaded. -/
theorem newLoads_eq {added : List (ℕ × HashIdx)} (h : s'.loads = added ++ s.loads) :
    s.newLoads s' = added := by
  rw [Sys.newLoads, h, List.length_append, Nat.add_sub_cancel, List.take_left]

/-- A round keeps what holds between rounds. -/
theorem Between.round (hb : Between w ip iid off (s, p)) (hoff : off < 2 ^ 32) (hlt : p.done < size)
    (h : Transferred w iid size write p p' s s') : Between w ip iid off (s', p') := by
  obtain ⟨_, hp⟩ := hb.pointsTo
  obtain ⟨inode', hp', _⟩ := hp.of_fixed (h.fixed iid)
  refine ⟨h.inv, ⟨inode', hp'⟩, ?_, fun i hi hi4 => ?_⟩
  · have heq : p.off = (off + p.done) % 2 ^ 32 := hb.off_eq
    change p'.off = (off + p'.done) % 2 ^ 32
    rw [h.off, heq, h.done]
    omega
  · change (p'.hashidx.at i).id ≠ 0 ↔ i ≤ p'.leftDepth off
    rw [leftDepth_next hoff hb.off_eq hlt h.done, le_max_iff]
    by_cases hle : i ≤ indexDepth (p.off / blkSz)
    · exact ⟨fun _ => Or.inl hle, fun _ => h.filled.recorded.id_ne h.part hi hle⟩
    · rw [h.filled.deeper i (Nat.not_le.mp hle) hi4, or_iff_right hle]
      exact hb.left i hi hi4

/-- None of the blocks above some level is loaded exactly when all of them are found. -/
theorem PathLoads.none_iff {old : HashIdx} {added : List (ℕ × HashIdx)}
    (h : PathLoads old s s' r {ks' | ks' <:+ ks} added) (n : ℕ) :
    (∀ ks', ks' <:+ ks → ks'.length < n → ∀ l ∈ added, l.1 ≠ s'.blockAt r ks') ↔
      ∀ ks', ks' <:+ ks → ks'.length < n → s.Finds r ks' := by
  constructor
  · intro hnone ks'
    induction hlen : ks'.length using Nat.strong_induction_on generalizing ks' with
    | _ m ih =>
      intro hks' hlt
      by_contra hmiss
      have habove : ∀ ks₁ ∈ pathsAbove ks', s.Finds r ks₁ := fun ks₁ hks₁ =>
        ih _ (hlen ▸ hks₁.2) ks₁ rfl (hks₁.1.trans hks') ((hks₁.2.trans_eq hlen).trans hlt)
      obtain ⟨l, hl, hbid⟩ := (h.loaded_iff ks' hks' habove).mpr hmiss
      exact hnone ks' hks' (hlen ▸ hlt) l hl hbid
  · intro hfinds ks' hks' hlt l hl hbid
    have habove : ∀ ks₁ ∈ pathsAbove ks', s.Finds r ks₁ := fun ks₁ hks₁ =>
      hfinds ks₁ (hks₁.1.trans hks') (hks₁.2.trans hlt)
    exact (h.loaded_iff ks' hks' habove).mp ⟨l, hl, hbid⟩ (hfinds ks' hks' hlt)

/-- A round gives every block that it loads its own path exactly when the blocks that are
higher in the tree than the rounds before went are found. -/
theorem Between.records_iff (hb : Between w ip iid off (s, p))
    (h : Transferred w iid size write p p' s s') :
    RecordsPaths s s' ↔ FindsUpper iid off (s, p) := by
  obtain ⟨added, hloads, hadded⟩ := h.loads
  refine Iff.trans ?_ (hadded.none_iff (p.leftDepth off))
  rw [RecordsPaths, newLoads_eq hloads]
  have hleft_le : p.leftDepth off ≤ 3 := by
    unfold Progress.leftDepth
    split_ifs
    · exact Nat.zero_le _
    · exact indexDepth_le
  have hlive : ∀ {ks}, ks <:+ (indexPlace iid (p.off / blkSz)).2 →
      s'.Live (indexPlace iid (p.off / blkSz)).1 ks := fun hks => Forest.Live.of_suffix h.part hks
  constructor
  · intro hrec ks hks hlt l hl heq
    obtain ⟨ks', hks', hbid, hfilled⟩ := hadded.filled l hl
    obtain ⟨_, rfl⟩ := Prod.mk.inj
      (h.inv.disjoint _ _ _ _ (hlive hks) (hlive hks') (heq.symm.trans hbid))
    have hzero := ((hrec l hl).2 _ ks (hlive hks) heq.symm).2 (ks.length + 1) (Nat.lt_succ_self _)
      (by omega)
    rw [hfilled.deeper _ (Nat.lt_succ_self _) (by omega)] at hzero
    exact (hb.left _ (Nat.succ_pos _) (by omega)).mpr hlt hzero
  · intro hnone l hl
    obtain ⟨ks, hks, hbid, hfilled⟩ := hadded.filled l hl
    have hdeep : p.leftDepth off ≤ ks.length := by
      by_contra hlt
      exact hnone ks hks (Nat.not_le.mp hlt) l hl hbid
    refine ⟨⟨_, ks, hlive hks, hbid.symm⟩, fun r ks' hlive' heq => ?_⟩
    obtain ⟨rfl, rfl⟩ := Prod.mk.inj
      (h.inv.disjoint _ _ _ _ hlive' (hlive hks) (heq.trans hbid))
    refine ⟨hfilled.recorded, fun i hi hi4 => ?_⟩
    rw [hfilled.deeper i hi hi4]
    by_contra hne
    have hle : i ≤ p.leftDepth off := (hb.left i (by omega) hi4).mp hne
    omega

/-- What a round does. -/
theorem RoundStep.transferred {a a' : Sys × Progress} {u : Unit} (hw : w.Reliable)
    (hb : Between w ip iid off a) (hstep : RoundStep w ip size write a u a') :
    a.2.done < size ∧ Transferred w iid size write a.2 a'.2 a.1 a'.1 := by
  obtain ⟨_, hp⟩ := hb.pointsTo
  have hoff : a.2.off < 2 ^ 32 := by
    rw [hb.off_eq]
    exact Nat.mod_lt _ (by decide)
  have hwp : Exec.Wp (rwRound w ip size write a.2)
      (fun r s' => r.1 = true → Transferred w iid size write a.2 r.2 a.1 s') (fun _ => True) a.1 :=
    wp_rwRound hw hb.inv hp hoff (fun _ _ h _ => h) (fun _ _ => trivial) fun _ _ _ => trivial
  exact ⟨hstep.1, hwp.of_ok hstep.2 rfl⟩

/-- The trees keep their places while they grow. -/
structure KeepsPlaces (s s' : Sys) : Prop where
  /-- No block is in two places. -/
  disjoint : s'.forest.Disjoint treeShape
  /-- The blocks stay in their places. -/
  live : ∀ r ks, s.Live r ks → s'.Live r ks ∧ s'.blockAt r ks = s.blockAt r ks

/-- Places that are kept keep their paths, so that it does not matter when the blocks that
were loaded at them are looked at. -/
theorem KeepsPlaces.isPath_iff (hk : KeepsPlaces s s') {b : ℕ}
    (hplace : ∃ r ks, s.Live r ks ∧ s.blockAt r ks = b) :
    (∀ r ks, s'.Live r ks → s'.blockAt r ks = b → IsPath s'.forest r ks h) ↔
      ∀ r ks, s.Live r ks → s.blockAt r ks = b → IsPath s.forest r ks h := by
  have hsame : ∀ r ks, s.Live r ks → (IsPath s'.forest r ks h ↔ IsPath s.forest r ks h) := by
    intro r ks hl
    exact and_congr_left fun _ => recorded_congr hl fun ks hl => (hk.live r ks hl).2
  constructor
  · intro hpath r ks hl heq
    obtain ⟨hl', heq'⟩ := hk.live r ks hl
    exact (hsame r ks hl).mp (hpath r ks hl' (heq'.trans heq))
  · intro hpath r ks hl' heq'
    obtain ⟨r₀, ks₀, hl, heq⟩ := hplace
    obtain ⟨hl₀, heq₀⟩ := hk.live r₀ ks₀ hl
    obtain ⟨rfl, rfl⟩ := Prod.mk.inj
      (hk.disjoint _ _ _ _ hl' hl₀ (heq'.trans (heq.symm.trans heq₀.symm)))
    exact (hsame r ks hl).mpr (hpath r ks hl heq)

/-- The blocks that were loaded from `s` to `s'` are at places of the trees. -/
structure LoadsPlaced (s s' : Sys) : Prop extends KeepsPlaces s s' where
  /-- The blocks that were loaded have places. -/
  loads : ∃ added, s'.loads = added ++ s.loads ∧
    ∀ l ∈ added, ∃ r ks, s'.Live r ks ∧ s'.blockAt r ks = l.1

/-- Nothing is loaded when nothing happens. -/
theorem LoadsPlaced.refl (h : s.forest.Disjoint treeShape) : LoadsPlaced s s :=
  ⟨⟨h, fun _ _ hl => ⟨hl, rfl⟩⟩, [], rfl, by simp⟩

/-- The loads of two calls are at their places. -/
theorem LoadsPlaced.trans {s₁ : Sys} (h₁ : LoadsPlaced s s₁) (h₂ : LoadsPlaced s₁ s') :
    LoadsPlaced s s' := by
  obtain ⟨added₁, hloads₁, hadded₁⟩ := h₁.loads
  obtain ⟨added₂, hloads₂, hadded₂⟩ := h₂.loads
  refine ⟨⟨h₂.disjoint, fun r ks hl => ?_⟩, added₂ ++ added₁, ?_, fun l hl => ?_⟩
  · obtain ⟨hl₁, heq₁⟩ := h₁.live r ks hl
    obtain ⟨hl₂, heq₂⟩ := h₂.live r ks hl₁
    exact ⟨hl₂, heq₂.trans heq₁⟩
  · rw [hloads₂, hloads₁, List.append_assoc]
  · rcases List.mem_append.mp hl with hl | hl
    · exact hadded₂ l hl
    · obtain ⟨r, ks, hlive, heq⟩ := hadded₁ l hl
      obtain ⟨hlive', heq'⟩ := h₂.live r ks hlive
      exact ⟨r, ks, hlive', heq'.trans heq⟩

/-- All loads have their own paths when those of both parts have. -/
theorem LoadsPlaced.records_iff {s₁ : Sys} (h₁ : LoadsPlaced s s₁) (h₂ : LoadsPlaced s₁ s') :
    RecordsPaths s s' ↔ RecordsPaths s s₁ ∧ RecordsPaths s₁ s' := by
  obtain ⟨added₁, hloads₁, hadded₁⟩ := h₁.loads
  obtain ⟨added₂, hloads₂, hadded₂⟩ := h₂.loads
  have hall : s.newLoads s' = added₂ ++ added₁ :=
    newLoads_eq (by rw [hloads₂, hloads₁, List.append_assoc])
  have hold : ∀ l ∈ added₁,
      ((∀ r ks, s'.Live r ks → s'.blockAt r ks = l.1 → IsPath s'.forest r ks l.2) ↔
        ∀ r ks, s₁.Live r ks → s₁.blockAt r ks = l.1 → IsPath s₁.forest r ks l.2) :=
    fun l hl => h₂.toKeepsPlaces.isPath_iff (hadded₁ l hl)
  have hplace : ∀ l ∈ added₂ ++ added₁, ∃ r ks, s'.Live r ks ∧ s'.blockAt r ks = l.1 := by
    obtain ⟨added, heq, hadded⟩ := (h₁.trans h₂).loads
    rw [← hall, newLoads_eq heq]
    exact hadded
  unfold RecordsPaths
  rw [hall, newLoads_eq hloads₁, newLoads_eq hloads₂]
  constructor
  · intro hrec
    refine ⟨fun l hl => ⟨hadded₁ l hl, ?_⟩, fun l hl => ?_⟩
    · exact (hold l hl).mp (hrec l (List.mem_append_right _ hl)).2
    · exact hrec l (List.mem_append_left _ hl)
  · rintro ⟨hrec₁, hrec₂⟩ l hl
    refine ⟨hplace l hl, ?_⟩
    rcases List.mem_append.mp hl with hl | hl
    · exact (hrec₂ l hl).2
    · exact (hold l hl).mpr (hrec₁ l hl).2

/-- The loads of a round are at their places. -/
theorem Transferred.loadsPlaced (h : Transferred w iid size write p p' s s') :
    LoadsPlaced s s' := by
  obtain ⟨added, hloads, hadded⟩ := h.loads
  refine ⟨⟨h.inv.disjoint, h.live⟩, added, hloads, fun l hl => ?_⟩
  obtain ⟨ks, hks, hbid, _⟩ := hadded.filled l hl
  exact ⟨_, ks, Forest.Live.of_suffix h.part hks, hbid.symm⟩

/-- The rounds of a transfer give every block that they load its own path exactly when each
round finds the blocks that are higher in the tree than the rounds before it went. -/
theorem rounds_record_iff (hw : w.Reliable) (hoff : off < 2 ^ 32) {a a' : Sys × Progress}
    {rounds : List Unit} (hrun : Run (RoundStep w ip size write) a rounds a')
    (hb : Between w ip iid off a) : Between w ip iid off a' ∧ LoadsPlaced a.1 a'.1 ∧
      (RecordsPaths a.1 a'.1 ↔
        Always (RoundStep w ip size write) (fun a _ _ => FindsUpper iid off a) a rounds) := by
  induction hrun with
  | nil a =>
    refine ⟨hb, .refl hb.inv.disjoint, iff_of_true (fun l hl => ?_) ?_⟩
    · rw [newLoads_eq (List.nil_append _).symm] at hl
      cases hl
    · intro before c after _ _ heq
      simp at heq
  | cons hstep _ ih =>
    obtain ⟨hlt, htrans⟩ := hstep.transferred hw hb
    obtain ⟨hb', hplaced, hiff⟩ := ih (hb.round hoff hlt htrans)
    refine ⟨hb', htrans.loadsPlaced.trans hplaced, ?_⟩
    rw [htrans.loadsPlaced.records_iff hplaced, hiff, hb.records_iff htrans, Always.cons_iff]
    constructor
    · rintro ⟨hfinds, hrest⟩ a₁ hstep'
      obtain rfl := RoundStep.deterministic hstep hstep'
      exact ⟨hfinds, hrest⟩
    · exact fun h => h _ hstep

/-- The loop of `inode_rw_data` is a run of rounds. -/
theorem rwRounds_run (hw : w.Reliable) (hoff : off < 2 ^ 32) {n : ℕ} {finished : Bool}
    (hb : Between w ip iid off (s, p))
    (hcall : rwRounds w ip size write n p s = .ok ((finished, p'), s')) :
    finished = true ∧ ∃ rounds, Run (RoundStep w ip size write) (s, p) rounds (s', p') := by
  induction n generalizing p s with
  | zero =>
    cases hcall
    exact ⟨rfl, [], .nil _⟩
  | succ n ih =>
    unfold rwRounds at hcall
    split_ifs at hcall with hlt
    · obtain ⟨⟨goesOn, p₁⟩, s₁, hround, hrest⟩ := Exec.bind_eq_ok.mp hcall
      obtain ⟨_, hp⟩ := hb.pointsTo
      have hlt' : p.off < 2 ^ 32 := hb.off_eq ▸ Nat.mod_lt _ (by decide)
      have hwp : Exec.Wp (rwRound w ip size write p)
          (fun r s' => r.1 = true ∧ Transferred w iid size write p r.2 s s') (fun _ => True) s :=
        wp_rwRound hw hb.inv hp hlt' (fun _ _ h => ⟨rfl, h⟩) (fun _ _ => trivial) fun _ _ _ =>
          trivial
      obtain ⟨hgoesOn, htrans⟩ := hwp.of_ok hround
      simp only at hgoesOn
      subst hgoesOn
      obtain ⟨hfinished, rounds, hrun⟩ := ih (hb.round hoff hlt htrans) hrest
      have hstep : RoundStep w ip size write (s, p) () (s₁, p₁) := ⟨hlt, hround⟩
      exact ⟨hfinished, () :: rounds, .cons hstep hrun⟩
    · cases hcall
      exact ⟨rfl, [], .nil _⟩

/-- Setting the size of the inode after a write leaves the places. -/
theorem Between.resized (hb : Between w ip iid off (s, p)) {g : Node Inode → Node Inode}
    (hchanges : InodeChanges iid g s s') {n : ℕ} (hinode : s.inodeOf iid = some inode)
    (hinode' : s'.inodeOf iid = some { inode with size := n }) :
    LoadsPlaced s s' ∧ s'.loads = s.loads := by
  obtain ⟨hinv, hsame⟩ := hb.inv.resize hchanges hinode hinode'
  have hloads : s'.loads = s.loads := by rw [hchanges.same]
  exact ⟨⟨⟨hinv.disjoint, fun r ks hl => ⟨(hsame.live r ks).mpr hl, hsame.block hl⟩⟩, [], hloads,
    by simp⟩, hloads⟩

/-! ## The entries made from the loads -/

/-- A call that leaves the enclave leaves `pd_wb`. -/
theorem keepsPdWb_external : Exec.Keeps Sys.pdWb (external w) :=
  .bind (.read _) fun _ => .bind (.update fun _ => rfl) fun _ => .pure _

/-- A block that is written back leaves `pd_wb`. -/
theorem keepsPdWb_writeBack (block : Block) (bid : ℕ) :
    Exec.Keeps Sys.pdWb (writeBack w block bid) := by
  refine .bind (.bind keepsPdWb_external fun _ => .pure _) fun data => ?_
  cases data with
  | none => exact .pure _
  | some data =>
    refine .bind (.bind keepsPdWb_external fun _ => ?_) fun _ => .ite (.pure _) ?_
    · exact .bind (.when (.update fun _ => rfl)) fun _ => .pure _
    · exact .bind (.update fun _ => rfl) fun _ => .pure _

/-- An entry that a write back makes has the `hashidx` of the block. -/
theorem wp_bcacheCbWrite_made {block : Block} {bid : ℕ} (hnone : s.pdWb.find bid = none) :
    Exec.Wp (bcacheCbWrite w (some block) bid true false)
      (fun _ s' => ∀ node, s'.pdWb.find bid = some node → node.hashidx = block.hashidx)
      (fun _ => True) s := by
  have hkept : ∀ {α : Type} {x : Exec Halt Sys α} {s₁ : Sys}, s₁.pdWb.find bid = none →
      Exec.Keeps Sys.pdWb x → Exec.Wp x
        (fun _ s' => ∀ node, s'.pdWb.find bid = some node → node.hashidx = block.hashidx)
        (fun _ => True) s₁ := by
    intro α x s₁ hnone₁ hx
    refine hx.wp.imp fun _ s' hs' node hnode => ?_
    rw [hs', hnone₁] at hnode
    cases hnode
  have hpanic : ∀ p, Exec.Keeps Sys.pdWb (do panic w p; return true) :=
    fun p => .bind (keeps_panic p) fun _ => .pure true
  have hhash : Exec.Keeps Sys.pdWb (sha256Block w block.data) :=
    .bind keepsPdWb_external fun _ => .pure _
  unfold bcacheCbWrite
  simp only [Bool.false_eq_true, if_false, Bool.not_true]
  refine Exec.wp_ite.mpr ⟨fun _ => hkept hnone (hpanic _), fun _ => ?_⟩
  refine Exec.wp_ite.mpr ⟨fun _ => hkept hnone (hpanic _), fun _ => ?_⟩
  refine Exec.wp_ite.mpr ⟨fun _ => hkept hnone ?_,
    fun _ => Exec.wp_ite.mpr ⟨fun _ => ?_, fun _ => ?_⟩⟩
  · refine .ite (hpanic _) (.bind hhash fun hash => ?_)
    cases hash with
    | none => exact .pure _
    | some hash => exact .bind (.update fun _ => rfl) fun _ => keepsPdWb_writeBack _ _
  · exact hkept hnone (hpanic _)
  · refine Exec.wp_bind.mpr (hhash.wp.imp fun hash s₁ h₁ => ?_)
    cases hash with
    | none => exact hkept (h₁ ▸ hnone) (hpanic _)
    | some hash =>
      refine Exec.wp_bind.mpr (Exec.wp_read.mpr ?_)
      rw [h₁, hnone]
      refine Exec.wp_bind.mpr (Exec.wp_update.mpr ?_)
      refine (keepsPdWb_writeBack _ _).wp.imp fun _ s' hs' node hnode => ?_
      rw [hs'] at hnode
      simp only [OrdMap.find_set, if_true, Option.some.injEq] at hnode
      rw [← hnode]

/-- The last entry of a path names the slot that points at the block. -/
theorem IsPath.at_depth (hpath : IsPath s.forest r ks h) (hlive : s.Live r ks) :
    h.at h.depth = s.parentSlot r ks := by
  rw [hpath.depth_eq hlive]
  cases ks with
  | nil => exact hpath.1
  | cons k ks => exact hpath.1.1

/-- The entries made from blocks with their own paths name the slots above the blocks. -/
theorem RecordsPaths.namesParents (h : RecordsPaths s s') : NamesParents s s' := by
  intro l hl w block t t' failed node hblock hnone hcall hnode r ks hlive hbid
  have hmade : node.hashidx = block.hashidx := (wp_bcacheCbWrite_made hnone).of_ok hcall node hnode
  rw [hmade, hblock]
  exact ((h l hl).2 r ks hlive hbid).at_depth hlive

/-- A record of a path names the parents on it. -/
theorem records_and_names_iff : RecordsPaths s s' ∧ NamesParents s s' ↔ RecordsPaths s s' :=
  and_iff_left_of_imp RecordsPaths.namesParents

/-- What a request records: its rounds, and whether the blocks that it loads have their own
paths and the entries of `pd_wb` made from them name the slots above them. -/
def RequestRecords (w : World) (ip iid off size : ℕ) (write : Bool) (s : Sys) (p : Progress)
    (done : ℕ) (s' : Sys) : Prop :=
  ∃ rounds, (∃ a', Run (RoundStep w ip size write) (s, p) rounds a' ∧
      a'.1.loads = s'.loads ∧ a'.2.done = done) ∧
    (RecordsPaths s s' ∧ NamesParents s s' ↔
      Always (RoundStep w ip size write) (fun a _ _ => FindsUpper iid off a) (s, p) rounds)

/-- The blocks that a call loads have their own paths, and the entries of `pd_wb` made from
them name the slots above them, exactly when before each round of the call `cache_find` finds
the blocks that are higher in the tree than the rounds before went. -/
theorem transfer_records_iff (hw : w.Reliable) (hinv : s.TreeInv w ∅) (hp : s.PointsTo ip iid inode)
    (hoff : off < 2 ^ 32) {buf result : ℕ → Byte} {done : ℕ}
    (hcall : inodeRwData w ip buf off size write s = .ok ((done, result), s')) :
    RequestRecords w ip iid off (requestSize inode off size write) write s
      (.start off buf) done s' := by
  have hb : Between w ip iid off (s, .start off buf) := .start hinv hp hoff buf
  have hnone : RequestRecords w ip iid off (requestSize inode off size write) write s
      (.start off buf) 0 s := by
    obtain ⟨hb', _, hiff⟩ := rounds_record_iff hw hoff (.nil (s, Progress.start off buf)) hb
    exact ⟨[], ⟨_, .nil _, rfl, rfl⟩, records_and_names_iff.trans hiff⟩
  have hwp : Exec.Wp (inodeRwData w ip buf off size write)
      (fun r s' => RequestRecords w ip iid off (requestSize inode off size write) write s
        (.start off buf) r.1 s') (fun _ => True) s := by
    refine Exec.wp_ite.mpr ⟨fun _ => hnone, fun _ => ?_⟩
    refine Exec.wp_bind.mpr (wp_inodeAt hinv.icac hp
      (Exec.wp_ite.mpr ⟨fun _ => hnone, fun _ => ?_⟩))
    refine Exec.wp_bind.mpr (Exec.Wp.intro (fun r s₁ hrounds => ?_) fun _ _ => trivial)
    obtain ⟨finished, p₁⟩ := r
    obtain ⟨rfl, rounds, hrun⟩ := rwRounds_run hw hoff hb hrounds
    obtain ⟨hb₁, hplaced, hiff⟩ := rounds_record_iff hw hoff hrun hb
    simp only [Bool.not_true, Bool.false_eq_true, if_false]
    cases write with
    | false => exact ⟨rounds, ⟨_, hrun, rfl, rfl⟩, records_and_names_iff.trans hiff⟩
    | true =>
      obtain ⟨inode₁, hp₁⟩ := hb₁.pointsTo
      simp only [if_true]
      refine Exec.wp_bind.mpr (wp_inodeStore hb₁.inv.icac hp₁ fun s₂ h₂ => ?_)
      have hmax : (if inode₁.size < p₁.off then { inode₁ with size := p₁.off } else inode₁) =
          { inode₁ with size := max inode₁.size p₁.off } := by
        split_ifs with hless
        · rw [max_eq_right hless.le]
        · rw [max_eq_left (Nat.not_lt.mp hless)]
      have hp₂ := h₂.pointsTo hp₁ { inode₁ with size := max inode₁.size p₁.off }
        fun n hn => ⟨rfl, by simp only [Node.mapInode, hn, Option.map_some, hmax]⟩
      have hiid : inode₁.iid = iid := hb₁.inv.iid_eq _ _ hp₁.inodeOf
      refine Exec.wp_bind.mpr (wp_inodeMakeDirty h₂.keyed hp₂ hiid fun s₃ h₃ => ?_)
      have hp₃ := h₃.pointsTo hp₂ _ fun n hn => ⟨rfl, hn⟩
      obtain ⟨hplaced', hloads⟩ := hb₁.resized (h₂.trans h₃) hp₁.inodeOf hp₃.inodeOf
      have hnew : RecordsPaths s₁ s₃ := by
        intro l hl
        rw [newLoads_eq (hloads.trans (List.nil_append _).symm)] at hl
        cases hl
      refine ⟨rounds, ⟨_, hrun, hloads.symm, rfl⟩, ?_⟩
      rw [records_and_names_iff, hplaced.records_iff hplaced', and_iff_left hnew]
      exact hiff
  exact hwp.of_ok hcall

/-- Two blocks are written at the end of an empty file, and no path is wrong. -/
theorem transfer_records_iff_emptyFile : ∃ done result s', done = 5000 ∧
    inodeRwData World.plain 0 (fun _ => 0) 0 5000 true emptyFile = .ok ((done, result), s') ∧
    RequestRecords World.plain 0 1 0 (requestSize ⟨1, inodeTpFile, 0, 0, fun _ => 0, Bytes.zero,
      Bytes.zero, fun _ => Bytes.zero⟩ 0 5000 true) true emptyFile
        (.start 0 fun _ => 0) done s' := by
  obtain ⟨⟨⟨done, result⟩, s'⟩, hcall, hdone⟩ := exists_of_check
    (x := inodeRwData World.plain 0 (fun _ => 0) 0 5000 true emptyFile)
    (p := fun r => r.1.1 = 5000) (by decide +kernel)
  have hp : emptyFile.PointsTo 0 1 ⟨1, inodeTpFile, 0, 0, fun _ => 0, Bytes.zero, Bytes.zero,
      fun _ => Bytes.zero⟩ := ⟨_, rfl, rfl, rfl⟩
  exact ⟨done, result, s', of_decide_eq_true hdone, hcall, transfer_records_iff World.plain_reliable
    emptyFile_treeInv hp (by decide) hcall⟩

/-! ## A path that is not its own -/

/-- The single index block of a file of 122 parts. -/
def longFileIndex : Data := ⟨fun i =>
  if i.val / indexSz < 112 ∧ i.val % indexSz < 4 then
    BitVec.ofNat 8 ((4693 + i.val / indexSz) / 256 ^ (i.val % indexSz))
  else 0⟩

/-- The data bitmap with 123 blocks in use. -/
def longFileBitmap : Data := ⟨fun i =>
  if i.val = 8 then 0xE0 else if i.val < 16 then 0xFF else 0⟩

/-- A disk with a file of 122 parts, whose inode is in the cache. The single index block
has room for one more part. -/
def longFile : Sys :=
  let disk := fun bid =>
    if bid = 4692 then longFileIndex else if bid = bitmapStart then longFileBitmap else Bytes.zero
  { Sys.blank with
    disk := disk
    evicted := disk
    sb := { Sys.blank.sb with
      maxbid := 4804
      hash := Function.update Sys.blank.sb.hash bitmapStart (World.plain.sha256 longFileBitmap) }
    dbmFirstEmptyWord := 1
    icac := ⟨.empty, ⟨[⟨0, 1, 1, false, false, some {
      iid := 1
      type := inodeTpFile
      size := 122 * blkSz
      dip := 0
      bid := fun r => if r.val ≤ 10 then 4682 + r.val else 0
      aesKey := Bytes.zero
      aesIv := Bytes.zero
      hash := Function.update (fun _ => Bytes.zero) (rootSlot 10)
        (World.plain.sha256 longFileIndex) },
      false⟩], 1⟩, [], 1, false⟩ }

/-- Two parts are appended to the file. The second is the first one under the double index
block, which is loaded with the entry of the single index block below its own. -/
theorem longFile_not_records : ∃ done result s', done = 2 * blkSz ∧
    inodeRwData World.plain 0 (fun _ => 0) (longFile.fileSize 1) (2 * blkSz) true longFile =
      .ok ((done, result), s') ∧ ¬RecordsPaths longFile s' := by
  obtain ⟨⟨⟨done, result⟩, s'⟩, hcall, hcheck⟩ := exists_of_check
    (x := inodeRwData World.plain 0 (fun _ => 0) (longFile.fileSize 1) (2 * blkSz) true longFile)
    (p := fun r => r.1.1 = 2 * blkSz ∧
      (r.2.inodeOf 1).any (fun inode => inode.bid (rootSlot 11) = 4806) ∧
      (longFile.newLoads r.2).any fun l => l.1 = 4806 ∧ (l.2.at 1).id = 4692) (by decide +kernel)
  obtain ⟨hdone, hinode, hloads⟩ := of_decide_eq_true hcheck
  refine ⟨done, result, s', hdone, hcall, fun hrec => ?_⟩
  obtain ⟨inode, hinode, hbid⟩ := (Option.any_eq_true _ _).mp hinode
  obtain ⟨l, hl, hentry⟩ := List.any_eq_true.mp hloads
  obtain ⟨hblock, hid⟩ := of_decide_eq_true hentry
  have hat : s'.blockAt (1, rootSlot 11) [] = 4806 := by
    rw [Sys.blockAt_eq, Sys.slotAt_nil hinode]
    exact of_decide_eq_true hbid
  have hlive : s'.Live (1, rootSlot 11) [] := by
    refine ⟨?_, hat.trans_ne (by decide)⟩
    change s'.inodeOf 1 ≠ none
    rw [hinode]
    exact Option.some_ne_none _
  have hpath := (hrec l hl).2 _ _ hlive (hat.trans hblock.symm)
  rw [hpath.2 1 Nat.zero_lt_one (by decide)] at hid
  exact absurd hid (by decide)

end

end Efs
