import Efs.MountImage

/-!
# What a clean unmount leaves on the disk

Each round of `sb_exit` writes a metadata block with new keys, and the loop behind it writes the
superblock. A call that fails ends `sb_exit`, so when it returns a hash the disk is an image that
`sb_init` accepts with that hash, with the same plaintexts.
-/

namespace Efs

open Library

/-- The metadata blocks below `b` have new keys, and nothing else has changed. -/
structure Rekeyed (w : World) (s s' : Sys) (b : ℕ) : Prop where
  /-- The blocks with new keys. -/
  block : ∀ bid, inodeBitmapStart ≤ bid → bid < b →
    s'.disk bid = w.encrypt (s'.sb.aesIv bid) (s'.sb.aesKey bid) (s.metaPlain w bid) ∧
      s'.sb.hash bid = w.sha256 (s.metaPlain w bid)
  /-- The others. -/
  other : ∀ bid, bid < inodeBitmapStart ∨ b ≤ bid →
    s'.disk bid = s.disk bid ∧ s'.sb.aesIv bid = s.sb.aesIv bid ∧ s'.sb.aesKey bid = s.sb.aesKey bid
  /-- The numbers of the superblock. -/
  numbers : s'.sb.magic = s.sb.magic ∧ s'.sb.maxbid = s.sb.maxbid ∧ s'.sb.rootinode = s.sb.rootinode

/-- A loop fails only when a call does, and else ends as `P` says. -/
def Ends (w : World) (P : Sys → Prop) (failed : Bool) (s : Sys) : Prop :=
  match failed with
  | true => ¬w.NoFailure
  | false => P s

section

variable {w : World} {sha256Sb : SbData → Key256} {E : Halt → Prop} {s s₁ s' t : Sys}
  {iv key : Key128}
  {hash : Key256} {bid b n : ℕ}

/-! ## Calls that may fail -/

/-- The rule for a call that leaves the enclave, which may fail. -/
theorem wp_external_any {Q : Bool → Sys → Prop}
    (hQ : ∀ failed calls, (failed = true → ¬w.NoFailure) → Q failed { s with calls }) :
    Exec.Wp (external w) Q E s := by
  simp only [external, Exec.wp_bind, Exec.wp_read, Exec.wp_update, Exec.wp_pure]
  apply hQ
  intro hfails hw
  rw [hw] at hfails
  cases hfails

/-- The rule by the two outcomes of a call. -/
theorem wp_external_cases {Q : Bool → Sys → Prop}
    (htrue : ¬w.NoFailure → ∀ calls, Q true { s with calls })
    (hfalse : ∀ calls, Q false { s with calls }) : Exec.Wp (external w) Q E s := by
  apply wp_external_any
  intro failed calls hfailed
  cases failed with
  | true => exact htrue (hfailed rfl) calls
  | false => exact hfalse calls

/-- The rule for a call that gives a value when it does not fail. -/
theorem wp_external_option {α : Type} {x : α} {Q : Option α → Sys → Prop}
    (hnone : ¬w.NoFailure → ∀ calls, Q none { s with calls })
      (hsome : ∀ calls, Q (some x) { s with calls }) :
    Exec.Wp (do
      let failed ← external w
      return if failed then none else some x) Q E s :=
  Exec.wp_bind.mpr (wp_external_cases hnone hsome)

/-- The rule for `disk_read`, which may fail. -/
theorem wp_diskRead_any {Q : Option Data → Sys → Prop}
    (hnone : ¬w.NoFailure → ∀ calls, Q none { s with calls })
    (hsome : ∀ calls, Q (some (s.disk bid)) { s with calls }) : Exec.Wp (diskRead w bid) Q E s :=
  Exec.wp_bind.mpr (wp_external_cases hnone hsome)

/-- The rule for `disk_write`, which may fail. -/
theorem wp_diskWrite_any {data : Data} {Q : Bool → Sys → Prop}
    (htrue : ¬w.NoFailure → ∀ calls, Q true { s with calls })
    (hfalse : ∀ calls, Q false { s with disk := Function.update s.disk bid data, calls }) :
    Exec.Wp (diskWrite w data bid) Q E s :=
  Exec.wp_bind.mpr (wp_external_cases htrue hfalse)

/-- The rule for `sb_key128_gen`, which may fail. -/
theorem wp_sbKey128Gen {Q : Option Key128 → Sys → Prop}
    (hnone : ¬w.NoFailure → ∀ calls keys, Q none { s with calls, keys })
    (hsome : ∀ k calls keys, Q (some k) { s with calls, keys }) :
      Exec.Wp (sbKey128Gen w) Q E s := by
  apply Exec.wp_bind.mpr
  apply wp_external_any
  intro failed calls hfailed
  simp only [key128Gen, Exec.wp_bind, Exec.wp_read, Exec.wp_update, Exec.wp_pure]
  cases failed with
  | true => exact hnone (hfailed rfl) calls _
  | false => exact hsome _ calls _

/-! ## The metadata blocks -/

/-- No block has a new key at the start. -/
theorem Rekeyed.start : Rekeyed w s s (dataStart - (dataStart - inodeBitmapStart)) := by
  have hplace : dataStart - (dataStart - inodeBitmapStart) = inodeBitmapStart := rfl
  refine ⟨fun bid hle hlt => ?_, fun _ _ => ⟨rfl, rfl, rfl⟩, rfl, rfl, rfl⟩
  omega

/-- The plaintext of a block whose turn is not yet. -/
theorem Rekeyed.metaPlain_eq (h : Rekeyed w s s' b) : s'.metaPlain w b = s.metaPlain w b := by
  obtain ⟨hdisk, hiv, hkey⟩ := h.other b (Or.inr (Nat.le_refl b))
  rw [Sys.metaPlain, Sys.metaPlain, hdisk, hiv, hkey]

/-- A round of the loop of `sb_exit`. -/
theorem Rekeyed.round (h : Rekeyed w s s₁ b) (hb : inodeBitmapStart ≤ b) :
    Exec.Wp (sbRekey w b) (Ends w fun s' => Rekeyed w s s' (b + 1)) E s₁ := by
  apply Exec.wp_bind.mpr
  refine wp_diskRead_any (fun hbad _ => hbad) fun _ => Exec.wp_bind.mpr (Exec.wp_read.mpr ?_)
  apply Exec.wp_bind.mpr
  refine wp_external_option (fun hbad _ => hbad) fun _ => Exec.wp_bind.mpr ?_
  refine wp_sbKey128Gen (fun hbad _ _ => hbad) fun iv _ _ => Exec.wp_bind.mpr
    (Exec.wp_update.mpr ?_)
  apply Exec.wp_bind.mpr
  refine wp_sbKey128Gen (fun hbad _ _ => hbad) fun key _ _ => Exec.wp_bind.mpr
    (Exec.wp_update.mpr ?_)
  apply Exec.wp_bind.mpr
  refine wp_external_option (fun hbad _ => hbad) fun _ => Exec.wp_bind.mpr (Exec.wp_update.mpr ?_)
  apply Exec.wp_bind.mpr
  refine wp_external_option (fun hbad _ => hbad) fun _ => ?_
  refine wp_diskWrite_any (fun hbad _ => hbad) fun _ => ⟨fun bid hle hlt => ?_, fun bid hbid => ?_,
    h.numbers⟩
  · by_cases hself : bid = b
    · subst hself
      simp only [Function.update_self]
      have hplain := h.metaPlain_eq
      rw [Sys.metaPlain] at hplain
      rw [hplain]
      exact ⟨rfl, rfl⟩
    · simp only [Function.update_of_ne hself]
      exact h.block bid hle (by omega)
  · have hne : bid ≠ b := by omega
    simp only [Function.update_of_ne hne]
    exact h.other bid (by omega)

/-- The loop of `sb_exit` over the metadata blocks. -/
theorem wp_sbRekeyFrom (h : Rekeyed w s s₁ (dataStart - n))
    (hn : n ≤ dataStart - inodeBitmapStart) :
    Exec.Wp (sbRekeyFrom w n) (Ends w fun s' => Rekeyed w s s' dataStart) E s₁ := by
  induction n generalizing s₁ with
  | zero => exact h
  | succ n ih =>
    have hplace : inodeBitmapStart ≤ dataStart - (n + 1) ∧
      dataStart - (n + 1) + 1 = dataStart - n := by
      simp only [inodeBitmapStart, dataStart] at hn ⊢
      omega
    apply Exec.wp_bind.mpr
    apply (h.round hplace.1).imp
    intro failed s₂ hround
    cases failed with
    | true => exact hround
    | false =>
      have hnext : Rekeyed w s s₂ (dataStart - (n + 1) + 1) := hround
      rw [hplace.2] at hnext
      exact ih hnext (by omega)

/-! ## The superblock -/

/-- The superblock as its fields hold it: `maxbid` has 32 bits. -/
def Superblock.wrapped (sb : Superblock) : Superblock := { sb with maxbid := sb.maxbid % 256 ^ 4 }

/-- The stored superblock is that of the wrapped fields. -/
theorem sbStore_wrapped {sb : Superblock} : sbStore sb.wrapped = sbStore sb := by
  simp only [sbStore, Superblock.wrapped, Bytes.putLE_mod]

/-- The blocks of the superblock are on the disk, and nothing else has changed. -/
def Written (w : World) (iv key : Key128) (data : SbData) (s s' : Sys) : Prop :=
  (∀ i < superblockCnt, s'.disk i = w.encrypt iv key (sbBlock data i)) ∧
    (∀ bid, superblockCnt ≤ bid → s'.disk bid = s.disk bid) ∧ s'.sb = s.sb

/-- The loop of `sb_exit` over the blocks of the superblock. -/
theorem wp_sbWriteFrom {data : SbData} (hn : n ≤ superblockCnt)
    (hdisk : ∀ i < superblockCnt - n, s.disk i = w.encrypt iv key (sbBlock data i)) :
    Exec.Wp (sbWriteFrom w iv key data n) (Ends w (Written w iv key data s)) E s := by
  induction n generalizing s with
  | zero => exact ⟨hdisk, fun _ _ => rfl, rfl⟩
  | succ n ih =>
    apply Exec.wp_bind.mpr
    refine wp_external_option (fun hbad _ => hbad) fun _ => Exec.wp_bind.mpr ?_
    refine wp_diskWrite_any (fun hbad _ => hbad) fun _ => ?_
    refine (ih (by omega) fun i hi => ?_).imp fun failed s' hrest => ?_
    · by_cases hself : i = superblockCnt - (n + 1)
      · subst hself
        exact Function.update_self _ _ _
      · exact (Function.update_of_ne hself _ _).trans (hdisk i (by omega))
    · cases failed with
      | true => exact hrest
      | false =>
        obtain ⟨hall, hothers, hsb⟩ := hrest
        refine ⟨hall, fun bid hle => (hothers bid hle).trans (Function.update_of_ne ?_ _ _), hsb⟩
        simp only [superblockCnt] at hn hle ⊢
        omega

/-- What `sb_exit` has left when it returns a hash. -/
structure LeftImage (w : World) (sha256Sb : SbData → Key256) (iv key : Key128) (hash : Key256)
    (s s' : Sys) : Prop where
  /-- The disk can be mounted with the hash, and the metadata blocks have their plaintexts. -/
  image : Mountable w sha256Sb iv key hash s'.disk s'.sb.wrapped (s.metaPlain w)
  /-- The numbers of the superblock. -/
  numbers : s'.sb.magic = efsMagic ∧ s'.sb.maxbid = s.sb.maxbid ∧ s'.sb.rootinode = 0
  /-- The blocks of the data area stay. -/
  data : ∀ bid, dataStart ≤ bid → s'.disk bid = s.disk bid

/-- What the loops of `sb_exit` leave. -/
theorem Rekeyed.leftImage (h : Rekeyed w s s₁ dataStart) (hmagic : s.sb.magic = efsMagic)
    (hroot : s.sb.rootinode = 0)
    (hsuper : ∀ i < superblockCnt, s'.disk i = w.encrypt iv key (sbBlock (sbStore s₁.sb) i))
    (hothers : ∀ bid, superblockCnt ≤ bid → s'.disk bid = s₁.disk bid) (hsb : s'.sb = s₁.sb) :
    LeftImage w sha256Sb iv key (sha256Sb (sbStore s₁.sb)) s s' := by
  obtain ⟨hmagic', hmaxbid', hroot'⟩ := h.numbers
  have hfits : s₁.sb.wrapped.Fits := by
    constructor
    · have hlt : efsMagic < 2 ^ 32 := by decide
      change s₁.sb.magic < 2 ^ 32
      rwa [hmagic', hmagic]
    · exact Nat.mod_lt _ (by decide)
    · have hlt : (0 : ℕ) < 2 ^ 16 := by decide
      change s₁.sb.rootinode < 2 ^ 16
      rwa [hroot', hroot]
  constructor
  · rw [hsb]
    refine ⟨hfits, by rw [sbStore_wrapped], fun i hi => ?_, fun bid hle hlt => ?_⟩
    · rw [sbStore_wrapped]
      exact hsuper i hi
    · obtain ⟨hdisk, hhash⟩ := h.block bid hle hlt
      exact ⟨(hothers bid hle).trans hdisk, hhash⟩
  · rw [hsb]
    exact ⟨hmagic'.trans hmagic, hmaxbid', hroot'.trans hroot⟩
  · intro bid hle
    rw [hothers bid (le_trans (by decide) hle)]
    exact (h.other bid (Or.inr hle)).1

/-- The rule for `sb_exit`, whatever call fails. -/
theorem wp_sbExit : Exec.Wp (sbExit w sha256Sb iv key) (fun r s' => (r = none → ¬w.NoFailure) ∧
    ∀ hash, r = some hash → LeftImage w sha256Sb iv key hash s s') E s := by
  have hfail : ¬w.NoFailure → ∀ s' : Sys, ((none : Option Key256) = none → ¬w.NoFailure) ∧
      ∀ hash, none = some hash → LeftImage w sha256Sb iv key hash s s' :=
    fun hbad _ => ⟨fun _ => hbad, fun _ hnone => by cases hnone⟩
  refine Exec.wp_bind.mpr (Exec.wp_update.mpr ?_)
  refine Exec.wp_bind.mpr ((wp_sbRekeyFrom Rekeyed.start (Nat.le_refl _)).imp
    fun failed s₁ hrekeyed => ?_)
  cases failed with
  | true => exact hfail hrekeyed s₁
  | false =>
    apply Exec.wp_bind.mpr
    refine Exec.wp_read.mpr (Exec.wp_bind.mpr
      (wp_external_option (fun hbad _ => hfail hbad _) fun _ => ?_))
    refine Exec.wp_bind.mpr ((wp_sbWriteFrom (Nat.le_refl _) fun i hi => ?_).imp
      fun failed s' hwritten => ?_)
    · simp at hi
    cases failed with
    | true => exact hfail hwritten s'
    | false =>
      obtain ⟨hsuper, hothers, hsb⟩ := hwritten
      refine ⟨fun hsome => (by cases hsome), ?_⟩
      rintro hash hhash
      obtain rfl : sha256Sb (sbStore s₁.sb) = hash := Option.some.inj hhash
      have hblocks : Rekeyed w _ s₁ dataStart := hrekeyed
      have hleft : LeftImage w sha256Sb iv key (sha256Sb (sbStore s₁.sb)) _ s' :=
        hblocks.leftImage rfl rfl hsuper hothers hsb
      exact ⟨hleft.image, hleft.numbers, hleft.data⟩

/-- When `sb_exit` returns a hash, then whatever calls have failed before, `sb_init` with that hash
and `bitmap_init` accept the disk: the superblock that `sb_exit` held is restored, and each metadata
block has the plaintext that it had. -/
theorem sbExit_sbInit (hdec : ∀ iv key d, w.decrypt iv key (w.encrypt iv key d) = d)
    (hexit : sbExit w sha256Sb iv key s = .ok (some hash, s')) (hdisk : t.disk = s'.disk) :
    ∃ t' t'', sbInit w.unfailing sha256Sb iv key hash t = .ok (false, t') ∧
      bitmapInit w.unfailing t' = .ok (false, t'') ∧ s'.sb.wrapped.Same t''.sb ∧
      t''.sb.magic = efsMagic ∧ t''.sb.maxbid = s.sb.maxbid % 256 ^ 4 ∧ t''.sb.rootinode = 0 ∧
      t''.ibm.ibm = s.metaPlain w inodeBitmapStart ∧
      (∀ bid, inodeBitmapStart ≤ bid → bid < dataStart → t''.metaPlain w bid = s.metaPlain w bid) ∧
      ∀ bid, dataStart ≤ bid → t''.disk bid = s.disk bid := by
  have hleft := ((wp_sbExit (w := w) (E := fun _ => True)).of_ok hexit).2 hash rfl
  have himage : Mountable w sha256Sb iv key hash t.disk s'.sb.wrapped (s.metaPlain w) :=
    hdisk ▸ hleft.image
  obtain ⟨t', hinit, hmounted⟩ := sbInit_accepts hdec himage
  obtain ⟨t'', hbitmap, hibm, hmounted'⟩ := bitmapInit_accepts hmounted
  obtain ⟨hmagic, hmax, hroot⟩ := hleft.numbers
  have hsame := hmounted'.same
  refine ⟨t', t'', hinit, hbitmap, hsame, ?_, ?_, ?_, hibm, hmounted'.plain_eq, fun bid hle => ?_⟩
  · exact hsame.magic.trans hmagic
  · rw [hsame.maxbid, Superblock.wrapped, hmax]
  · exact hsame.rootinode.trans hroot
  · rw [hmounted'.disk_eq, hdisk]
    exact hleft.data bid hle

/-- `sb_exit` returns a hash when no call fails. -/
theorem sbExit_returns (hw : w.NoFailure) :
    ∃ hash s', sbExit w sha256Sb iv key s = .ok (some hash, s') := by
  have hwp : Exec.Wp (sbExit w sha256Sb iv key) _ (fun _ => False) s := wp_sbExit
  obtain ⟨r, s', hrun, hsome, _⟩ := hwp.returns
  cases r with
  | none => exact absurd hw (hsome rfl)
  | some hash => exact ⟨hash, s', hrun⟩

end

/-- The blank disk is unmounted and mounted again. -/
theorem sbExit_sbInit_blank : ∃ hash s' t' t'',
    sbExit World.plain (fun _ => Bytes.zero) Bytes.zero Bytes.zero Sys.blank = .ok (some hash, s') ∧
    sbInit World.plain.unfailing (fun _ => Bytes.zero) Bytes.zero Bytes.zero hash s' =
        .ok (false, t') ∧
      bitmapInit World.plain.unfailing t' = .ok (false, t'') ∧ s'.sb.wrapped.Same t''.sb ∧
      t''.sb.magic = efsMagic ∧ t''.sb.maxbid = Sys.blank.sb.maxbid % 256 ^ 4 ∧
      t''.sb.rootinode = 0 ∧
      t''.ibm.ibm = Sys.blank.metaPlain World.plain inodeBitmapStart ∧
      (∀ bid, inodeBitmapStart ≤ bid → bid < dataStart →
        t''.metaPlain World.plain bid = Sys.blank.metaPlain World.plain bid) ∧
      ∀ bid, dataStart ≤ bid → t''.disk bid = Sys.blank.disk bid := by
  obtain ⟨hash, s', hexit⟩ : ∃ hash s',
      sbExit World.plain (fun _ => Bytes.zero) Bytes.zero Bytes.zero Sys.blank =
        .ok (some hash, s') :=
    sbExit_returns World.plain_reliable.fails_eq
  obtain ⟨t', t'', hmount⟩ := sbExit_sbInit World.plain_reliable.decrypt_encrypt hexit rfl
  exact ⟨hash, s', t', t'', hexit, hmount⟩

end Efs
