import Efs.FileRound

/-!
# Contents of files

The content of a file is an array of bytes of the length in the inode. Every call of
`inode_rw_data` reads or writes a range of it, as on an array, however the range is
cut into rounds and wherever the blocks are.
-/

namespace Efs

open Library

/-! ## Arrays -/

/-- An array with the range from `off` on replaced. -/
def overwrite (a : List Byte) (off : ℕ) (bytes : List Byte) : List Byte :=
  a.take off ++ bytes ++ a.drop (off + bytes.length)

/-- The first `n` bytes of a buffer. -/
def firstBytes (buf : ℕ → Byte) (n : ℕ) : List Byte := (List.range n).map buf

/-- A call of `inode_rw_data` on an inode and what it returned. -/
structure TransferCall where
  /-- The pointer to the inode. -/
  ip : ℕ
  /-- The number of the inode. -/
  iid : ℕ
  /-- `buf`. -/
  buf : ℕ → Byte
  /-- `off`. -/
  off : ℕ
  /-- `size`. -/
  size : ℕ
  /-- `write`. -/
  write : Bool
  /-- The bytes done. -/
  done : ℕ
  /-- The buffer after the call. -/
  result : ℕ → Byte

/-- What a transfer is to do with the arrays of all inodes: a request that wraps 32 bits
or a write that reaches the largest offset does nothing, any other write replaces its
range, and a read gets the part of its range that there is. -/
def ArrayStep (f : ℕ → List Byte) (c : TransferCall) (f' : ℕ → List Byte) : Prop :=
  if 2 ^ 32 ≤ c.off + c.size ∨ c.write = true ∧ 2 ^ 32 - 1 ≤ c.off + c.size then
    c.done = 0 ∧ f' = f
  else if c.write = true then
    c.done = c.size ∧
      f' = Function.update f c.iid (overwrite (f c.iid) c.off (firstBytes c.buf c.size))
  else
    c.done = min c.size ((f c.iid).length - c.off) ∧
      firstBytes c.result c.done = ((f c.iid).drop c.off).take c.done ∧ f' = f

section

variable {a : List Byte} {f buf : ℕ → Byte} {n off size : ℕ}

/-- There are as many bytes as asked for. -/
theorem length_firstBytes : (firstBytes f n).length = n := by simp [firstBytes]

/-- Each byte is the one at its place in the buffer. -/
theorem getElem_firstBytes {i : ℕ} (h : i < (firstBytes f n).length) :
    (firstBytes f n)[i] = f i := by
  simp [firstBytes]

/-- The first bytes depend on the first places only. -/
theorem firstBytes_congr {g : ℕ → Byte} (h : ∀ i < n, f i = g i) :
    firstBytes f n = firstBytes g n :=
  List.map_congr_left fun i hi => h i (List.mem_range.mp hi)

/-- No bytes overwrite nothing. -/
theorem overwrite_nil : overwrite a off [] = a := by simp [overwrite]

/-- Bytes that are stored where a range is replaced. -/
theorem overwrite_firstBytes (h : off ≤ n) :
    overwrite (firstBytes f n) off (firstBytes buf size) =
      firstBytes (fun o => if off ≤ o ∧ o < off + size then buf (o - off) else f o)
        (max n (off + size)) := by
  refine List.ext_getElem ?_ fun i h₁ h₂ => ?_
  · simp only [overwrite, List.length_append, List.length_take, List.length_drop, length_firstBytes]
    omega
  · rw [getElem_firstBytes]
    simp only [overwrite, List.getElem_append, List.length_append, List.length_take,
      length_firstBytes, List.getElem_take, List.getElem_drop, getElem_firstBytes, min_eq_left h]
    by_cases hlow : i < off
    · rw [dif_pos (by omega), dif_pos hlow, if_neg (by omega)]
    · by_cases hin : i < off + size
      · rw [dif_pos hin, dif_neg hlow, if_pos ⟨by omega, hin⟩]
      · rw [dif_neg hin, if_neg (by omega)]
        congr 1
        omega

/-- Bytes that are read where a range is taken. -/
theorem take_drop_firstBytes {done : ℕ} (h : off + done ≤ n) :
    ((firstBytes f n).drop off).take done = firstBytes (fun i => f (off + i)) done := by
  refine List.ext_getElem ?_ fun i h₁ h₂ => ?_
  · simp only [List.length_take, List.length_drop, length_firstBytes]
    omega
  · rw [getElem_firstBytes, List.getElem_take, List.getElem_drop, getElem_firstBytes]

end

/-! ## Files -/

/-- The byte at an offset. -/
noncomputable def Sys.fileByte (s : Sys) (iid o : ℕ) : Byte :=
  (s.partData iid (o / blkSz)).get (o % blkSz)

/-- The size of the file of an inode, zero when the inode is not in the cache. -/
def Sys.fileSize (s : Sys) (iid : ℕ) : ℕ := ((s.inodeOf iid).map (·.size)).getD 0

/-- The content of the file of an inode. -/
noncomputable def Sys.file (s : Sys) (iid : ℕ) : List Byte :=
  firstBytes (s.fileByte iid) (s.fileSize iid)

/-- The trees are good, and files have no holes and sizes of 32 bits. -/
structure Sys.FilesOk (w : World) (s : Sys) : Prop where
  /-- The trees are good. -/
  inv : s.TreeInv w ∅
  /-- Sizes have 32 bits. -/
  size_lt : ∀ iid, s.fileSize iid < 2 ^ 32
  /-- Every part below the size has a block. -/
  parts : ∀ iid i, i * blkSz < s.fileSize iid → s.HasPart iid i

/-- The transfer is asked for with the pointer to a cached inode and 32-bit numbers, at an
offset that is not past the file. -/
structure TransferCall.Fits (c : TransferCall) (s : Sys) : Prop where
  /-- The pointer is one to the inode. -/
  pointsTo : ∃ inode, s.PointsTo c.ip c.iid inode
  /-- The offset is not past the file. -/
  off_le : c.off ≤ s.fileSize c.iid
  /-- The size has 32 bits. -/
  size_lt : c.size < 2 ^ 32

/-- The places of the parts of a range of a file, and those on the way to them. -/
def waysTo (iid off size : ℕ) : Set (Place RootSlot) :=
  {q | ∃ i, off / blkSz ≤ i ∧ i * blkSz < off + size ∧ q ∈ wayTo (indexPlace iid i)}

/-- The places that a transfer may need blocks for: those of the range of a write that is done. -/
def TransferCall.places (c : TransferCall) : Set (Place RootSlot) :=
  {q | c.write = true ∧ c.off + c.size < 2 ^ 32 - 1 ∧ q ∈ waysTo c.iid c.off c.size}

/-- What a transfer leaves of a node in the inode cache. -/
def Node.kept (n : Node Inode) :
    ℕ × ℕ × Bool × Bool × Option (ℕ × ℕ × ℕ × Key128 × Key128) :=
  (n.addr, n.refcnt, n.deleted, n.locked,
    n.content.map fun i => (i.iid, i.type, i.dip, i.aesKey, i.aesIv))

/-- The call was done as on the arrays, and the trees only got blocks. -/
structure Transfers (w : World) (c : TransferCall) (s s' : Sys) : Prop where
  /-- The files are good. -/
  ok : s'.FilesOk w
  /-- The call is one on the arrays. -/
  array : ArrayStep s.file c s'.file
  /-- The trees only got blocks, for the range. -/
  widens : Widens w c.places s s'
  /-- The inodes stay in the cache with what is not of their files. -/
  kept : ∀ iid, (s'.icac.node iid).map Node.kept = (s.icac.node iid).map Node.kept

/-- The transfer returns. -/
def TransferStep (w : World) (s : Sys) (c : TransferCall) (s' : Sys) : Prop :=
  inodeRwData w c.ip c.buf c.off c.size c.write s = .ok ((c.done, c.result), s')

section

variable {w : World} {E : Halt → Prop} {s₀ s s' : Sys} {ip iid size off : ℕ} {inode : Inode}
  {write : Bool} {p p' : Progress} {buf : ℕ → Byte}

/-- The size of a file at a pointer is that of its inode. -/
theorem Sys.PointsTo.fileSize (h : s.PointsTo ip iid inode) : s.fileSize iid = inode.size := by
  simp [Sys.fileSize, h.inodeOf]

/-! ## Rounds -/

/-- A round stays in a part. -/
theorem mem_round {o : ℕ} (hpart : o / blkSz = p.off / blkSz) :
    p.off ≤ o ∧ o < p.off + p.round size ↔
      p.off % blkSz ≤ o % blkSz ∧ o % blkSz < p.off % blkSz + p.round size := by
  simp only [blkSz] at hpart ⊢
  omega

/-- The bytes of a round are in one part of the file. -/
theorem part_of_mem_round {o : ℕ} (h : p.off ≤ o) (hlt : o < p.off + p.round size) :
    o / blkSz = p.off / blkSz := by
  simp only [Progress.round, blkSz] at hlt ⊢
  omega

/-- The bytes of all files after a round. -/
theorem Transferred.fileByte_eq (h : Transferred w iid size write p p' s s') (iid' o : ℕ) :
    s'.fileByte iid' o = if write = true ∧ iid' = iid ∧ p.off ≤ o ∧ o < p.off + p.round size then
      p.buf (p.done + (o - p.off)) else s.fileByte iid' o := by
  by_cases hpart : iid' = iid ∧ o / blkSz = p.off / blkSz
  · obtain ⟨rfl, hpart⟩ := hpart
    have hmem : p.off ≤ o ∧ o < p.off + p.round size ↔
        p.off % blkSz ≤ o % blkSz ∧ o % blkSz < p.off % blkSz + p.round size := mem_round hpart
    have hlt : o % blkSz < blkSz := Nat.mod_lt _ (by decide)
    unfold Sys.fileByte
    rw [hpart, h.data]
    cases write with
    | false => simp
    | true =>
      simp only [if_true, true_and, Progress.stored]
      rw [Bytes.get_write]
      by_cases hin : p.off % blkSz ≤ o % blkSz ∧ o % blkSz < p.off % blkSz + p.round size
      · have hdiff : o % blkSz - p.off % blkSz = o - p.off := by
          simp only [blkSz] at hpart hin ⊢
          omega
        rw [if_pos ⟨hin.1, hin.2, hlt⟩, if_pos (hmem.mpr hin), hdiff]
      · rw [if_neg fun hin' => hin ⟨hin'.1, hin'.2.1⟩, if_neg (mt hmem.mp hin)]
  · have hnot : ¬(write = true ∧ iid' = iid ∧ p.off ≤ o ∧ o < p.off + p.round size) := by
      rintro ⟨_, rfl, hle, hlt⟩
      exact hpart ⟨rfl, part_of_mem_round hle hlt⟩
    have hne : (iid', o / blkSz) ≠ (iid, p.off / blkSz) := fun heq => hpart (Prod.mk.inj heq)
    rw [if_neg hnot, Sys.fileByte, h.others iid' _ hne, Sys.fileByte]

/-- The buffer after a round of a read. -/
theorem Progress.fetched_eq (s : Sys) (iid : ℕ) (p : Progress) (size i : ℕ) :
    p.fetched size (s.partData iid (p.off / blkSz)) i =
      if p.done ≤ i ∧ i < p.done + p.round size then s.fileByte iid (p.off + (i - p.done))
      else p.buf i := by
  unfold Progress.fetched
  by_cases hin : p.done ≤ i ∧ i < p.done + p.round size
  · have hpart : (p.off + (i - p.done)) / blkSz = p.off / blkSz := by
      have hlt : p.off + (i - p.done) < p.off + p.round size := by omega
      exact part_of_mem_round (Nat.le_add_right _ _) hlt
    have hmod : (p.off + (i - p.done)) % blkSz = p.off % blkSz + (i - p.done) := by
      simp only [blkSz] at hpart ⊢
      omega
    rw [if_pos hin, if_pos hin, Sys.fileByte, hpart, hmod]
  · rw [if_neg hin, if_neg hin]

/-- Where a transfer of a range that was begun in the state `s₀` has got to. -/
structure Transferring (w : World) (ip iid off size : ℕ) (write : Bool) (buf : ℕ → Byte) (s₀ : Sys)
    (p : Progress) (s : Sys) : Prop where
  /-- The trees are good. -/
  inv : s.TreeInv w ∅
  /-- The inodes are the same but for their blocks. -/
  fixed : ∀ iid, (s.icac.node iid).map Node.fixed = (s₀.icac.node iid).map Node.fixed
  /-- The parts keep their blocks. -/
  live : ∀ r ks, s₀.Live r ks → s.Live r ks
  /-- The trees only got blocks, for the range of a write. -/
  widens : Widens w {q | write = true ∧ q ∈ waysTo iid off size} s₀ s
  /-- The bytes done. -/
  done_le : p.done ≤ size
  /-- The offset. -/
  off_eq : p.off = off + p.done
  /-- The parts of a write have blocks. -/
  parts : off < p.off → ∀ i, off / blkSz ≤ i → i * blkSz < p.off → s.HasPart iid i
  /-- The bytes of a write are stored. -/
  bytes : ∀ iid' o, s.fileByte iid' o =
    if write = true ∧ iid' = iid ∧ off ≤ o ∧ o < p.off then buf (o - off) else s₀.fileByte iid' o
  /-- The bytes of a read are in the buffer. -/
  buffer : ∀ i, p.buf i =
    if write = false ∧ i < p.done then s₀.fileByte iid (off + i) else buf i

/-- A transfer that has not begun. -/
theorem Transferring.start (hinv : s.TreeInv w ∅) (hashidx : HashIdx) (expHash : Key256) :
    Transferring w ip iid off size write buf s ⟨0, off, buf, hashidx, expHash⟩ s := by
  refine ⟨hinv, fun _ => rfl, fun _ _ h => h, .refl hinv, Nat.zero_le _, rfl,
    fun hlt => absurd hlt (lt_irrefl _), fun iid' o => (if_neg ?_).symm, fun i => (if_neg ?_).symm⟩
  · rintro ⟨_, _, hle, hlt⟩
    exact Nat.not_lt.mpr hle hlt
  · rintro ⟨_, hlt⟩
    exact Nat.not_lt_zero i hlt

/-- The part of a round is one of the range. -/
theorem Transferring.wayTo_subset (h : Transferring w ip iid off size write buf s₀ p s)
    (hlt : p.done < size) : wayTo (indexPlace iid (p.off / blkSz)) ⊆ waysTo iid off size := by
  intro q hq
  have heq := h.off_eq
  refine ⟨p.off / blkSz, ?_, ?_, hq⟩
  · simp only [blkSz]
    omega
  · simp only [blkSz]
    omega

/-- A round of a transfer. -/
theorem Transferring.round (h : Transferring w ip iid off size write buf s₀ p s)
    (hsize : off + size < 2 ^ 32) (hlt : p.done < size)
    (hr : Transferred w iid size write p p' s s') :
    Transferring w ip iid off size write buf s₀ p' s' := by
  have hround : p.done + p.round size ≤ size := by
    have hle := h.done_le
    simp only [Progress.round]
    omega
  have hoff : p'.off = p.off + p.round size := by
    rw [hr.off, Nat.mod_eq_of_lt]
    have heq := h.off_eq
    omega
  have hwidens : Widens w {q | write = true ∧ q ∈ waysTo iid off size} s s' :=
    hr.widens.mono fun q hq => ⟨hq.1, h.wayTo_subset hlt hq.2⟩
  refine ⟨hr.inv, fun iid' => (hr.fixed iid').trans (h.fixed iid'),
    fun r ks hl => (hr.live r ks (h.live r ks hl)).1, h.widens.trans hwidens, ?_, ?_,
    fun hlt i hle hi => ?_, fun iid' o => ?_, fun i => ?_⟩
  · rw [hr.done]
    exact hround
  · rw [hr.done, hoff, h.off_eq, Nat.add_assoc]
  · by_cases heq : i = p.off / blkSz
    · rw [heq]
      exact hr.part
    · have hoff_eq := h.off_eq
      have hbefore : off < p.off ∧ i * blkSz < p.off := by
        rw [hoff] at hi
        simp only [Progress.round, blkSz] at hi heq hle ⊢
        omega
      exact (hr.live _ _ (h.parts hbefore.1 i hle hbefore.2)).1
  · have hoff_eq := h.off_eq
    rw [hr.fileByte_eq, h.bytes, hoff]
    cases write with
    | false => simp
    | true =>
      have hbuf : p.buf (p.done + (o - p.off)) = buf (p.done + (o - p.off)) := by
        rw [h.buffer, if_neg (by simp)]
      rw [hbuf]
      by_cases hiid : iid' = iid
      · by_cases hlow : off ≤ o ∧ o < p.off
        · rw [if_neg (by omega), if_pos ⟨rfl, hiid, hlow⟩, if_pos ⟨rfl, hiid, by omega⟩]
        · by_cases hin : p.off ≤ o ∧ o < p.off + p.round size
          · have hplace : p.done + (o - p.off) = o - off := by omega
            rw [if_pos ⟨rfl, hiid, hin⟩, if_pos ⟨rfl, hiid, by omega⟩, hplace]
          · rw [if_neg (by omega), if_neg (by omega), if_neg (by omega)]
      · simp [hiid]
  · have hoff_eq := h.off_eq
    have hbuf := h.buffer i
    rw [hr.buf, hr.done]
    cases write with
    | true => simpa using hbuf
    | false =>
      simp only [Bool.false_eq_true, if_false, true_and, Progress.fetched_eq] at hbuf ⊢
      by_cases hlow : i < p.done
      · rw [if_neg (by omega), hbuf, if_pos hlow, if_pos (by omega)]
      · by_cases hin : i < p.done + p.round size
        · have hplace : p.off + (i - p.done) = off + i := by omega
          rw [if_pos ⟨by omega, hin⟩, if_pos hin, hplace, h.bytes, if_neg (by simp)]
        · rw [if_neg (by omega), hbuf, if_neg hlow, if_neg hin]

/-- The loop of `inode_rw_data` does all bytes of the range. -/
theorem wp_rwRounds (hw : w.Reliable) (hsize : off + size < 2 ^ 32) {inode₀ : Inode}
    (hp : s₀.PointsTo ip iid inode₀)
    (hread : write = false → ∀ i, i * blkSz < off + size → s₀.HasPart iid i) {n : ℕ}
    (hn : size - p.done ≤ n) (h : Transferring w ip iid off size write buf s₀ p s)
    {Q : Bool × Progress → Sys → Prop}
    (hQ : ∀ p' s', p'.done = size → Transferring w ip iid off size write buf s₀ p' s' →
      Q (true, p') s')
    (hE : ¬s₀.RoomFor write (waysTo iid off size) → ∀ e : Halt, e.NoRoom → E e) :
    Exec.Wp (rwRounds w ip size write n p) Q E s := by
  induction n generalizing p s with
  | zero =>
    have hdone : p.done = size := by
      have hle := h.done_le
      omega
    exact hQ p s hdone h
  | succ n ih =>
    refine Exec.wp_ite.mpr ⟨fun hlt => ?_, fun hnot => ?_⟩
    · obtain ⟨inode, hp', _⟩ := hp.of_fixed (h.fixed iid)
      have hoff : p.off < 2 ^ 32 := by
        have heq := h.off_eq
        omega
      refine Exec.wp_bind.mpr (wp_rwRound hw h.inv hp' hoff (fun p' s' hr => ?_) ?_
        fun hcrowded => hE fun hroom => hcrowded ?_)
      · have hn' : size - p'.done ≤ n := by
          rw [hr.done]
          simp only [Progress.round, blkSz]
          omega
        exact ih hn' (h.round hsize hlt hr)
      · intro hwrite hnot
        refine absurd (h.live _ _ (hread hwrite _ ?_)) hnot
        have heq := h.off_eq
        simp only [blkSz]
        omega
      · have hroom' := h.widens.roomFor (fun q hq => hq.2) hroom
        exact ⟨hroom'.roomy, fun hwrite => (hroom'.supplied hwrite).mono (h.wayTo_subset hlt)⟩
    · have hdone : p.done = size := by
        have hle := h.done_le
        omega
      exact hQ p s hdone h

/-! ## Calls -/

/-- A change of the size of an inode is none of the trees. -/
theorem Sys.TreeInv.resize {g : Node Inode → Node Inode} (h : s.TreeInv w ∅)
    (hchanges : InodeChanges iid g s s') (hinode : s.inodeOf iid = some inode) {n : ℕ}
    (hinode' : s'.inodeOf iid = some { inode with size := n }) :
    s'.TreeInv w ∅ ∧ SameSlots s s' := by
  have hsame : SameSlots s s' := by
    refine sameSlots_of_entries (fun iid' => ?_) fun r ks _ _ j => by rw [hchanges.spot_eq]
    by_cases heq : iid' = iid
    · subst heq
      rw [hinode, hinode']
      rfl
    · rw [hchanges.inodeOf_of_ne heq]
  refine ⟨hsame.treeInv h hchanges.keyed (hchanges.bcacOk h.ok) (hchanges.metaInv h.metaInv)
    hchanges.dataUsed_eq.ge (fun r ks inode' hlive hinode'' => ?_)
      (fun did hlt hdid => ?_) ?_, hsame⟩
  · rw [hchanges.spot_eq]
    exact h.good r ks inode' hlive hinode''
  · rw [hchanges.dataUsed_eq] at hdid
    rw [hchanges.spot_eq]
    exact h.unused did hlt hdid
  · rw [hchanges.spot_eq]
    exact h.hole

/-- What keeps the record of an inode keeps the size of its file. -/
theorem fileSize_of_fixed (hfixed :
    (s'.icac.node iid).map Node.fixed = (s.icac.node iid).map Node.fixed) :
    s'.fileSize iid = s.fileSize iid := by
  cases hn : s.icac.node iid with
  | none =>
    rw [hn, Option.map_none, Option.map_eq_none_iff] at hfixed
    simp [Sys.fileSize, Sys.inodeOf, hn, hfixed]
  | some n =>
    rw [hn, Option.map_some] at hfixed
    obtain ⟨n', hn', heq⟩ := Option.map_eq_some_iff.mp hfixed
    have hcontent := congrArg (fun f => f.2.2.2.2.map fun i => i.2.2.1) heq
    simp only [Node.fixed, Option.map_map, Function.comp_def] at hcontent
    simp [Sys.fileSize, Sys.inodeOf, hn, hn', hcontent]

/-- What is fixed is kept. -/
theorem kept_of_fixed (hfixed :
    (s'.icac.node iid).map Node.fixed = (s.icac.node iid).map Node.fixed) :
    (s'.icac.node iid).map Node.kept = (s.icac.node iid).map Node.kept := by
  let g : ℕ × ℕ × Bool × Bool × Option (ℕ × ℕ × ℕ × ℕ × Key128 × Key128) →
      ℕ × ℕ × Bool × Bool × Option (ℕ × ℕ × ℕ × Key128 × Key128) := fun f =>
    (f.1, f.2.1, f.2.2.1, f.2.2.2.1, f.2.2.2.2.map fun i => (i.1, i.2.1, i.2.2.2.1, i.2.2.2.2))
  have hkept : ∀ m : Option (Node Inode), m.map Node.kept = (m.map Node.fixed).map g := by
    intro m
    rw [Option.map_map]
    congr 1
    funext n
    simp only [Node.kept, Function.comp_apply, g, Node.fixed, Option.map_map, Function.comp_def]
  rw [hkept, hkept, hfixed]

/-- A pointer to an inode stays good while what is kept of its node does. -/
theorem Sys.PointsTo.of_kept (hp : s.PointsTo ip iid inode)
    (hkept : (s'.icac.node iid).map Node.kept = (s.icac.node iid).map Node.kept) :
    ∃ inode', s'.PointsTo ip iid inode' ∧ inode'.iid = inode.iid ∧ inode'.type = inode.type := by
  obtain ⟨n, hn, haddr, hcontent⟩ := hp
  rw [hn, Option.map_some] at hkept
  obtain ⟨n', hn', heq⟩ := Option.map_eq_some_iff.mp hkept
  simp only [Node.kept, Prod.mk.injEq, hcontent, Option.map_some] at heq
  obtain ⟨haddr', _, _, _, hinode⟩ := heq
  obtain ⟨inode', hcontent', hfields⟩ := Option.map_eq_some_iff.mp hinode
  simp only [Prod.mk.injEq] at hfields
  exact ⟨inode', ⟨n', hn', haddr'.trans haddr, hcontent'⟩, hfields.1, hfields.2.1⟩

/-- A file is as long as its size. -/
theorem length_file : (s.file iid).length = s.fileSize iid := length_firstBytes

/-- Files whose sizes and bytes are the same. -/
theorem file_congr (hsize : s'.fileSize iid = s.fileSize iid)
    (hbyte : ∀ o, s'.fileByte iid o = s.fileByte iid o) : s'.file iid = s.file iid := by
  rw [Sys.file, Sys.file, hsize]
  exact firstBytes_congr fun o _ => hbyte o

/-- The end of a read. -/
theorem Transferring.finish_read (h : Transferring w ip iid off size false buf s₀ p s)
    (hs : s₀.FilesOk w) (hdone : p.done = size) (hle : off + size ≤ s₀.fileSize iid) :
    s.FilesOk w ∧ s.file = s₀.file ∧
      firstBytes p.buf size = ((s₀.file iid).drop off).take size := by
  have hfileSize : ∀ iid', s.fileSize iid' = s₀.fileSize iid' :=
    fun iid' => fileSize_of_fixed (h.fixed iid')
  refine ⟨⟨h.inv, fun iid' => ?_, fun iid' i hi => ?_⟩, funext fun iid' => ?_, ?_⟩
  · rw [hfileSize]
    exact hs.size_lt iid'
  · rw [hfileSize] at hi
    exact h.live _ _ (hs.parts iid' i hi)
  · refine file_congr (hfileSize iid') fun o => ?_
    rw [h.bytes, if_neg (by simp)]
  · rw [Sys.file, take_drop_firstBytes hle]
    refine firstBytes_congr fun i hi => ?_
    rw [h.buffer, if_pos ⟨rfl, hdone.symm ▸ hi⟩]

/-- The end of a write, with the new size in the inode. -/
theorem Transferring.finish_write {g : Node Inode → Node Inode}
    (h : Transferring w ip iid off size true buf s₀ p s) (hs : s₀.FilesOk w)
    (hdone : p.done = size) (hsize : off + size < 2 ^ 32) (hpos : 0 < size)
    (hoff : off ≤ s₀.fileSize iid) (hchanges : InodeChanges iid g s s')
    (hinode : s.inodeOf iid = some inode)
    (hinode' : s'.inodeOf iid = some { inode with size := max (s₀.fileSize iid) (off + size) }) :
    s'.FilesOk w ∧
      s'.file = Function.update s₀.file iid
        (overwrite (s₀.file iid) off (firstBytes buf size)) := by
  obtain ⟨hinv, hsame⟩ := h.inv.resize hchanges hinode hinode'
  have hfileSize : ∀ iid' ≠ iid, s'.fileSize iid' = s₀.fileSize iid' := by
    intro iid' hne
    rw [Sys.fileSize, hchanges.inodeOf_of_ne hne, ← Sys.fileSize]
    exact fileSize_of_fixed (h.fixed iid')
  have hself : s'.fileSize iid = max (s₀.fileSize iid) (off + size) := by
    simp [Sys.fileSize, hinode']
  have hbyte : ∀ iid' o, s'.fileByte iid' o = s.fileByte iid' o := by
    intro iid' o
    rw [Sys.fileByte, hsame.partData_congr fun b => by rw [hchanges.spot_eq], Sys.fileByte]
  refine ⟨⟨hinv, fun iid' => ?_, fun iid' i hi => ?_⟩, funext fun iid' => ?_⟩
  · by_cases heq : iid' = iid
    · rw [heq, hself]
      exact max_lt (hs.size_lt iid) hsize
    · rw [hfileSize iid' heq]
      exact hs.size_lt iid'
  · have hkeep : ∀ i, s₀.HasPart iid' i → s'.HasPart iid' i :=
      fun i hpart => (hsame.live _ _).mpr (h.live _ _ hpart)
    by_cases heq : iid' = iid
    · rw [heq, hself] at hi
      rw [heq] at hkeep ⊢
      by_cases hold : i * blkSz < s₀.fileSize iid
      · exact hkeep i (hs.parts iid i hold)
      · have hoff_eq := h.off_eq
        refine (hsame.live _ _).mpr (h.parts (by omega) i ?_ (by omega))
        simp only [blkSz] at hold ⊢
        omega
    · rw [hfileSize iid' heq] at hi
      exact hkeep i (hs.parts iid' i hi)
  · by_cases heq : iid' = iid
    · rw [heq, Function.update_self, Sys.file, hself, Sys.file, overwrite_firstBytes hoff]
      refine firstBytes_congr fun o _ => ?_
      have hoff_eq := h.off_eq
      rw [hdone] at hoff_eq
      rw [hbyte, h.bytes, hoff_eq]
      simp
    · rw [Function.update_of_ne heq]
      refine file_congr (hfileSize iid' heq) fun o => ?_
      rw [hbyte, h.bytes, if_neg (by simp [heq])]

/-- A request for no bytes does nothing. -/
theorem arrayStep_zero {f : ℕ → List Byte} {c : TransferCall} (hsize : c.size = 0)
    (hdone : c.done = 0) : ArrayStep f c f := by
  unfold ArrayStep
  split_ifs with hfar hwrite
  · exact ⟨hdone, rfl⟩
  · refine ⟨hdone.trans hsize.symm, ?_⟩
    rw [hsize, firstBytes, List.range_zero, List.map_nil, overwrite_nil, Function.update_eq_self]
  · rw [hdone, hsize]
    exact ⟨(Nat.zero_min _).symm, by simp [firstBytes], rfl⟩

/-- The rule for `inode_rw_data`, with what stays beside the file. -/
theorem wp_inodeRwData_transfers (hw : w.Reliable) (c : TransferCall) (hs : s.FilesOk w)
    (hfits : c.Fits s) {Q : ℕ × (ℕ → Byte) → Sys → Prop}
    (hQ : ∀ done result s', Transfers w { c with done, result } s s' → Q (done, result) s')
    (hE : ¬s.RoomFor c.write c.places → ∀ e : Halt, e.NoRoom → E e) :
    Exec.Wp (inodeRwData w c.ip c.buf c.off c.size c.write) Q E s := by
  obtain ⟨inode, hp⟩ := hfits.pointsTo
  have hfile : s.fileSize c.iid = inode.size := hp.fileSize
  have hlength : (s.file c.iid).length = s.fileSize c.iid := length_firstBytes
  have hlt := hs.size_lt c.iid
  have hle := hfits.off_le
  have hsize := hfits.size_lt
  refine Exec.wp_ite.mpr ⟨fun hwrap => ?_, fun hnowrap => ?_⟩
  · refine hQ 0 c.buf s ⟨hs, ?_, .refl hs.inv, fun _ => rfl⟩
    by_cases hfar : 2 ^ 32 ≤ c.off + c.size ∨ c.write = true ∧ 2 ^ 32 - 1 ≤ c.off + c.size
    · rw [ArrayStep, if_pos hfar]
      exact ⟨rfl, rfl⟩
    · -- Without a wrap the request is one for no bytes.
      have hzero : c.size = 0 := by
        obtain ⟨hsum, _⟩ := not_or.mp hfar
        omega
      exact arrayStep_zero hzero rfl
  have hsum : c.off + c.size < 2 ^ 32 := by omega
  have hpos : 0 < c.size := by omega
  rw [Nat.mod_eq_of_lt hsum]
  refine Exec.wp_bind.mpr (wp_inodeAt hs.inv.icac hp
    (Exec.wp_ite.mpr ⟨fun hlarge => ?_, fun hsmall => ?_⟩))
  · refine hQ 0 c.buf s ⟨hs, ?_, .refl hs.inv, fun _ => rfl⟩
    rw [ArrayStep, if_pos (Or.inr hlarge)]
    exact ⟨rfl, rfl⟩
  have hcond : ¬(2 ^ 32 ≤ c.off + c.size ∨ c.write = true ∧ 2 ^ 32 - 1 ≤ c.off + c.size) := by
    rintro (hwrap | hlarge)
    · omega
    · exact hsmall hlarge
  have hplaces : {q | c.write = true ∧ q ∈ waysTo c.iid c.off c.size} ⊆ c.places := by
    rintro q ⟨hwrite, hq⟩
    obtain ⟨_, hlarge⟩ := not_or.mp hcond
    exact ⟨hwrite, Nat.lt_of_not_le fun hle => hlarge ⟨hwrite, hle⟩, hq⟩
  have hwidens : ∀ {s₁ : Sys}, Widens w {q | c.write = true ∧ q ∈ waysTo c.iid c.off c.size} s s₁ →
      Widens w c.places s s₁ := fun h => h.mono hplaces
  have hE' : ¬s.RoomFor c.write (waysTo c.iid c.off c.size) → ∀ e : Halt, e.NoRoom → E e :=
    fun hcrowded => hE fun hroom => hcrowded ⟨hroom.roomy, fun hwrite =>
      (hroom.supplied hwrite).mono fun q hq => hplaces ⟨hwrite, hq⟩⟩
  cases hwrite : c.write with
  | true =>
    rw [hwrite] at hwidens hE'
    rw [if_neg (by simp)]
    have hstart : Transferring w c.ip c.iid c.off c.size true c.buf s
        ⟨0, c.off, c.buf, HashIdx.zero, Bytes.zero⟩ s := .start hs.inv _ _
    refine Exec.wp_bind.mpr (wp_rwRounds hw hsum hp (by simp) (Nat.sub_le _ _) hstart ?_ hE')
    intro p₁ s₁ hdone h₁
    obtain ⟨inode₁, hp₁, hiid₁, _, hsize₁, _⟩ := hp.of_fixed (h₁.fixed c.iid)
    have hoff₁ : p₁.off = c.off + c.size := by rw [h₁.off_eq, hdone]
    simp only [Bool.not_true, Bool.false_eq_true, if_false, if_true]
    refine Exec.wp_bind.mpr (wp_inodeStore h₁.inv.icac hp₁ fun s₂ h₂ => ?_)
    have hmax : (if inode₁.size < p₁.off then { inode₁ with size := p₁.off } else inode₁) =
        { inode₁ with size := max (s.fileSize c.iid) (c.off + c.size) } := by
      rw [hfile, ← hsize₁, ← hoff₁]
      split_ifs with hless
      · rw [max_eq_right hless.le]
      · rw [max_eq_left (Nat.not_lt.mp hless)]
    have hp₂ := h₂.pointsTo hp₁ { inode₁ with size := max (s.fileSize c.iid) (c.off + c.size) }
      fun n hn => ⟨rfl, by simp only [Node.mapInode, hn, Option.map_some, hmax]⟩
    refine Exec.wp_bind.mpr (wp_inodeMakeDirty h₂.keyed hp₂
      (hiid₁.trans (hs.inv.iid_eq _ _ hp.inodeOf)) fun s₃ h₃ => ?_)
    have hp₃ := h₃.pointsTo hp₂ _ fun n hn => ⟨rfl, hn⟩
    have hchanges := h₂.trans h₃
    obtain ⟨hok, hfiles⟩ := h₁.finish_write hs hdone hsum hpos hle hchanges hp₁.inodeOf hp₃.inodeOf
    have hsame : SameSlots s₁ s₃ := (h₁.inv.resize hchanges hp₁.inodeOf hp₃.inodeOf).2
    have hhint : s₃.dbmFirstEmptyWord = s₁.dbmFirstEmptyWord := by rw [hchanges.same]
    refine hQ _ _ s₃ ⟨hok, ?_, (hwidens h₁.widens).trans (hsame.widens hok.inv
      hchanges.dataUsed_eq hhint (hchanges.beside (.refl s₁) fun _ => rfl)), fun iid' => ?_⟩
    · rw [ArrayStep, if_neg hcond, if_pos hwrite]
      exact ⟨hdone, hfiles⟩
    · rw [← kept_of_fixed (h₁.fixed iid')]
      by_cases heq : iid' = c.iid
      · subst heq
        rw [hchanges.node, Function.update_self, Option.map_map]
        obtain ⟨n, hn, _, hcontent⟩ := hp₁
        rw [hn, Option.map_some, Option.map_some]
        simp only [Node.kept, Function.comp_apply, Node.mapInode, hcontent, Option.map_some, hmax]
      · rw [hchanges.node_of_ne heq]
  | false =>
    rw [hwrite] at hwidens hE'
    have hmin : (if ¬false = true ∧
      inode.size ≤ c.off + c.size then (inode.size + 2 ^ 32 - c.off) % 2 ^ 32
        else c.size) = min c.size (s.fileSize c.iid - c.off) := by
      by_cases hclip : inode.size ≤ c.off + c.size
      · rw [if_pos ⟨by simp, hclip⟩]
        omega
      · rw [if_neg fun hclip' => hclip hclip'.2]
        omega
    rw [hmin]
    generalize hcut : min c.size (s.fileSize c.iid - c.off) = size
    have hcut' : c.off + size ≤ s.fileSize c.iid := by omega
    have hstart : Transferring w c.ip c.iid c.off size false c.buf s
        ⟨0, c.off, c.buf, HashIdx.zero, Bytes.zero⟩ s := .start hs.inv _ _
    refine Exec.wp_bind.mpr (wp_rwRounds hw (by omega) hp
      (fun _ i hi => hs.parts c.iid i (by omega)) (Nat.sub_le _ _) hstart ?_ fun hcrowded =>
        hE' fun hroom => hcrowded ⟨hroom.roomy, fun hwrite => absurd hwrite Bool.false_ne_true⟩)
    intro p₁ s₁ hdone h₁
    simp only [Bool.not_true, Bool.false_eq_true, if_false]
    obtain ⟨hok, hfiles, hbytes⟩ := h₁.finish_read hs hdone hcut'
    have hwidens₁ := hwidens (h₁.widens.mono fun q hq => absurd hq.1 Bool.false_ne_true)
    refine hQ _ _ s₁ ⟨hok, ?_, hwidens₁, fun iid' => kept_of_fixed (h₁.fixed iid')⟩
    rw [ArrayStep, if_neg hcond, if_neg (by simp [hwrite]), hlength]
    exact ⟨hdone.trans hcut.symm, by rw [hdone]; exact hbytes, hfiles⟩

/-- A transfer is one on the arrays, and takes numbers only for the places of its range. -/
theorem TransferStep.transfers (hw : w.Reliable) {c : TransferCall} (hs : s.FilesOk w)
    (hfits : c.Fits s) (hstep : TransferStep w s c s') : Transfers w c s s' := by
  have hwp : Exec.Wp (inodeRwData w c.ip c.buf c.off c.size c.write)
      (fun r s' => Transfers w { c with done := r.1, result := r.2 } s s') (fun _ => True) s :=
    wp_inodeRwData_transfers hw c hs hfits (fun _ _ _ h => h) fun _ _ _ => trivial
  exact hwp.of_ok hstep

end

end Efs
