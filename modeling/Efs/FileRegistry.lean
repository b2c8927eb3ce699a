import Efs.File
import Efs.HashSetSemantics

/-!
# Exclusive opening

While a handle is open its path is in the set of open paths, so that `fopen` fails
for it. This holds on as long as every `fclose` takes a path out of the set whose
hole settles; otherwise an open path is lost, and can be opened a second time.
-/

namespace Efs

open Library

/-- The calls that open and close handles. -/
inductive FileCall
  | fopen (junk : Leftover) (filename : CStr) (flags : ℕ)
  | fclose (fp : ℕ)

/-- A state with its open handles: those that an `fopen` returned and that no
`fclose` took off the list of open files. -/
structure Session where
  /-- The state of the enclave. -/
  fs : Fs
  /-- The open handles. -/
  handles : List ℕ

namespace Session

/-- The path of a handle. -/
def path (s : Session) (fp : ℕ) : Option CStr := (s.fs.files fp).map File.path

/-- A call, with what it does to the open handles. A handle that is not open must
not be closed. -/
def call (w : World) (s : Session) : FileCall → Except Halt Session
  | .fopen junk filename flags =>
    match fopen w junk filename flags s.fs with
    | .ok (fp, fs) => .ok ⟨fs, fp.toList ++ s.handles⟩
    | .error e => .error e
  | .fclose fp =>
    if fp ∈ s.handles then
      match fclose w fp s.fs with
      | .ok (exit, fs) => .ok ⟨fs, if exit = .rejected then s.handles else s.handles.erase fp⟩
      | .error e => .error e
    else .error .undefinedBehaviour

/-- The state after `file_init`. -/
def start (sys : Sys) : Session := ⟨⟨sys, fun _ => none, 0, [], .init⟩, []⟩

/-- No path has two open handles, and the set of open paths holds exactly the paths
of the open handles. -/
structure Exclusive (s : Session) : Prop where
  /-- No path has two handles. -/
  one : ∀ fp ∈ s.handles, ∀ fp' ∈ s.handles, s.path fp = s.path fp' → fp = fp'
  /-- The set holds the paths of the handles. -/
  contains : ∀ path, fsetContains s.fs path = true ↔ ∃ fp ∈ s.handles, s.path fp = some path

/-- The invariant while no path is lost. -/
structure Registered (s : Session) : Prop where
  /-- The set of open paths is as its functions are to find it. -/
  good : s.fs.pathset.Good
  /-- It has the paths of the open handles. -/
  keys : ∀ path, path ∈ s.fs.pathset.keys ↔ ∃ fp ∈ s.handles, s.path fp = some path
  /-- No path has two handles. -/
  one : ∀ fp ∈ s.handles, ∀ fp' ∈ s.handles, s.path fp = s.path fp' → fp = fp'
  /-- Every handle is open once. -/
  nodup : s.handles.Nodup
  /-- The records of later handles are at other addresses. -/
  lt : ∀ fp ∈ s.handles, fp < s.fs.nextFp
  /-- Every handle has a record. -/
  file : ∀ fp ∈ s.handles, ∃ file, s.fs.files fp = some file

end Session

/-- A step: a call that returns. -/
def FileStep (w : World) (s : Session) (call : FileCall) (s' : Session) : Prop :=
  s.call w call = .ok s'

/-- Opening is exclusive after the call, and a handle that was to be closed is not
rejected. -/
def OpensExclusively (_ : Session) (call : FileCall) (s' : Session) : Prop :=
  s'.Exclusive ∧ ∀ fp, call = .fclose fp → fp ∉ s'.handles

/-- When the call closes a handle, the hole of its path settles. -/
def ClosesWell (s : Session) (call : FileCall) (_ : Session) : Prop :=
  ∀ fp path, call = .fclose fp → s.path fp = some path → s.fs.pathset.RemovesWell path

section

variable {w : World} {s s' : Session} {fs : Fs} {fp : ℕ} {filename : CStr} {flags : ℕ}
  {junk : Leftover}

/-- Registered handles are exclusive. -/
theorem Session.Registered.exclusive (h : s.Registered) : s.Exclusive := by
  refine ⟨h.one, fun path => ?_⟩
  rw [← h.keys, ← h.good.contains_iff]
  simp [fsetContains]

/-- No handle is open at the start. -/
theorem Session.start_registered (sys : Sys) : (start sys).Registered := by
  refine ⟨PathSet.init_good, fun path => ?_, ?_, List.nodup_nil, ?_, ?_⟩
  · simp [start, PathSet.keys_init]
  all_goals simp [start]

/-- The rule for `fopen`, by what it gets for a path that is not registered. -/
theorem wp_fopen (hgood : fs.pathset.Good) {E : Halt → Prop} {P : Option (Bool × ℕ × ℕ) →
    Sys → Prop} (hinode : pathCheck filename = true → filename ∉ fs.pathset.keys →
      Exec.Wp (fopenInode w junk filename flags) P E fs.sys) {Q : Option ℕ → Fs → Prop}
    (hsame : pathCheck filename = false ∨ filename ∈ fs.pathset.keys → Q none fs)
    (hnone : ∀ sys, P none sys → Q none { fs with sys, nextFp := fs.nextFp + 1 })
    (hsome : ∀ sys writable ip offset, filename ∉ fs.pathset.keys →
      P (some (writable, ip, offset)) sys → Q (some fs.nextFp)
        { sys
          files := Function.update fs.files fs.nextFp (some ⟨writable, offset, ip, filename⟩)
          nextFp := fs.nextFp + 1
          fset := fs.nextFp :: fs.fset
          pathset := (fs.pathset.add filename).2 }) :
    Exec.Wp (fopen w junk filename flags) Q E fs := by
  unfold fopen
  by_cases hcheck : pathCheck filename = true
  · by_cases hkey : filename ∈ fs.pathset.keys
    · have hcontains : fsetContains fs filename = true := by
        simp [fsetContains, hgood.contains_iff, hkey]
      simp only [hcheck, Bool.not_true, Bool.false_eq_true, if_false, Exec.wp_bind, Exec.wp_read,
        hcontains, if_true, Exec.wp_pure]
      exact hsame (Or.inr hkey)
    · have hcontains : fsetContains fs filename = false := by
        simp [fsetContains, hgood.contains_iff, hkey]
      obtain ⟨pathset, hpathset, _⟩ := hgood.add hkey
      simp only [hcheck, Bool.not_true, Bool.false_eq_true, if_false, Exec.wp_bind, Exec.wp_read,
        hcontains, Exec.wp_update, onSys, Exec.wp_zoom]
      refine (hinode hcheck hkey).imp fun result sys hpost => ?_
      cases result with
      | none => exact hnone sys hpost
      | some opened =>
        obtain ⟨writable, ip, offset⟩ := opened
        have hsome' := hsome sys writable ip offset hkey hpost
        simpa [fsetInsert, fileStore, fileAt, hpathset] using hsome'
  · simp only [hcheck, Bool.not_false, if_true, Exec.wp_pure]
    exact hsame (Or.inl (by simpa using hcheck))

/-- The rule for `fclose` of a handle whose path is registered. -/
theorem wp_fclose {file : File} (hfile : fs.files fp = some file)
    (hcontains : fs.pathset.contains file.path = .isTrue) {Q : Fclose → Fs → Prop}
    (hQ : ∀ exit sys files, exit ≠ .rejected →
      (files = fs.files ∨ files = Function.update fs.files fp none) →
      Q exit
        { sys
          files
          nextFp := fs.nextFp
          fset := fs.fset.erase fp
          pathset := (fs.pathset.remove file.path).2 }) :
    Exec.Wp (fclose w fp) Q (fun _ => True) fs := by
  simp only [fclose, fileAt, fsetContains, fsetDelete, Exec.wp_bind, Exec.wp_read, hfile,
    Exec.wp_pure, hcontains, decide_true, Bool.not_true, Bool.false_eq_true, if_false,
    Exec.wp_update, onSys, Exec.wp_zoom]
  refine Exec.Wp.intro (fun failed sys _ => ?_) (fun _ _ => trivial)
  cases failed with
  | true => exact hQ .notReturned sys fs.files (by decide) (Or.inl rfl)
  | false => exact hQ .closed sys _ (by decide) (Or.inr rfl)

/-- What a step that opens does. -/
theorem FileStep.fopen_registered (h : s.Registered)
    (hstep : FileStep w s (.fopen junk filename flags) s') : s'.Registered := by
  unfold FileStep Session.call at hstep
  cases hrun : fopen w junk filename flags s.fs with
  | error e => simp [hrun] at hstep
  | ok result =>
    obtain ⟨opened, fs'⟩ := result
    simp only [hrun, Except.ok.injEq] at hstep
    subst hstep
    refine Exec.Wp.of_ok (Q := fun opened fs' => (⟨fs', opened.toList ++ s.handles⟩ :
      Session).Registered) (wp_fopen h.good (fun _ _ => Exec.Wp.any _) ?_ ?_ ?_) hrun
    · exact fun _ => ⟨h.good, h.keys, h.one, h.nodup, h.lt, h.file⟩
    · intro sys _
      exact ⟨h.good, h.keys, h.one, h.nodup, fun fp hfp => (h.lt fp hfp).trans (Nat.lt_succ_self _),
        h.file⟩
    · intro sys writable ip offset hkey _
      obtain ⟨pathset, hadd, hgood, hkeys⟩ := h.good.add hkey
      have hfresh : ∀ fp ∈ s.handles, fp ≠ s.fs.nextFp := fun fp hfp => (h.lt fp hfp).ne
      have hold : ∀ fp ∈ s.handles, ∀ f : File,
          (Function.update s.fs.files s.fs.nextFp (some f) fp).map File.path = s.path fp := by
        intro fp hfp f
        rw [Function.update_of_ne (hfresh fp hfp)]
        rfl
      have hother : ∀ fp ∈ s.handles, s.path fp ≠ some filename := fun fp hfp heq =>
        hkey ((h.keys filename).mpr ⟨fp, hfp, heq⟩)
      refine ⟨by rw [hadd]; exact hgood, fun path => ?_, ?_, ?_, ?_, ?_⟩
      · simp only [hadd, hkeys, Set.mem_insert_iff, h.keys, Option.toList_some,
          List.singleton_append, List.mem_cons, exists_eq_or_imp, Session.path,
          Function.update_self, Option.map_some, Option.some.injEq]
        refine or_congr ⟨Eq.symm, Eq.symm⟩ (exists_congr fun fp => and_congr_right fun hfp => ?_)
        rw [hold fp hfp]
        rfl
      · intro fp hfp fp' hfp' heq
        simp only [Option.toList_some, List.singleton_append, List.mem_cons] at hfp hfp'
        simp only [Session.path] at heq
        rcases hfp with rfl | hfp
        · rcases hfp' with rfl | hfp'
          · rfl
          · rw [Function.update_self, hold fp' hfp', Option.map_some] at heq
            exact absurd heq.symm (hother fp' hfp')
        · rcases hfp' with rfl | hfp'
          · rw [Function.update_self, hold fp hfp, Option.map_some] at heq
            exact absurd heq (hother fp hfp)
          · rw [hold fp hfp, hold fp' hfp'] at heq
            exact h.one fp hfp fp' hfp' heq
      · exact List.nodup_cons.mpr ⟨fun hmem => hfresh _ hmem rfl, h.nodup⟩
      · intro fp hfp
        simp only [Option.toList_some, List.singleton_append, List.mem_cons] at hfp
        rcases hfp with rfl | hfp
        · exact Nat.lt_succ_self _
        · exact Nat.lt_succ_of_lt (h.lt fp hfp)
      · intro fp hfp
        simp only [Option.toList_some, List.singleton_append, List.mem_cons] at hfp
        rcases hfp with rfl | hfp
        · exact ⟨_, Function.update_self _ _ _⟩
        · obtain ⟨f, hf⟩ := h.file fp hfp
          exact ⟨f, by simp only [Function.update_of_ne (hfresh fp hfp), hf]⟩

/-- What a step that closes does: the handle is closed, and its path is removed. -/
theorem FileStep.fclose_inv (h : s.Registered) (hstep : FileStep w s (.fclose fp) s') :
    fp ∈ s.handles ∧ s'.handles = s.handles.erase fp ∧ ∃ file, s.fs.files fp = some file ∧
      s'.fs.nextFp = s.fs.nextFp ∧ s'.fs.pathset = (s.fs.pathset.remove file.path).2 ∧
      ∀ fp' ≠ fp, s'.fs.files fp' = s.fs.files fp' := by
  unfold FileStep Session.call at hstep
  by_cases hmem : fp ∈ s.handles
  · obtain ⟨file, hfile⟩ := h.file fp hmem
    have hkey : file.path ∈ s.fs.pathset.keys :=
      (h.keys file.path).mpr ⟨fp, hmem, by simp [Session.path, hfile]⟩
    refine ⟨hmem, ?_⟩
    cases hrun : fclose w fp s.fs with
    | error e => simp [hmem, hrun] at hstep
    | ok result =>
      obtain ⟨exit, fs'⟩ := result
      simp only [hmem, if_true, hrun, Except.ok.injEq] at hstep
      subst hstep
      refine Exec.Wp.of_ok (Q := fun exit fs' =>
        (if exit = Fclose.rejected then s.handles else s.handles.erase fp) = s.handles.erase fp ∧
          ∃ file, s.fs.files fp = some file ∧ fs'.nextFp = s.fs.nextFp ∧
            fs'.pathset = (s.fs.pathset.remove file.path).2 ∧
            ∀ fp' ≠ fp, fs'.files fp' = s.fs.files fp')
        (wp_fclose hfile (h.good.contains_iff.mpr hkey) fun exit sys files hexit hfiles => ?_) hrun
      refine ⟨if_neg hexit, file, hfile, rfl, rfl, fun fp' hne => ?_⟩
      rcases hfiles with rfl | rfl
      · rfl
      · exact Function.update_of_ne hne _ _
  · simp [hmem] at hstep

/-- A call keeps opening exclusive, and keeps the invariant, exactly when the hole of
a path that it removes settles. -/
theorem FileStep.exclusive_iff {call : FileCall} (h : s.Registered) (hstep : FileStep w s call s') :
    (OpensExclusively s call s' → s'.Registered) ∧
      (OpensExclusively s call s' ↔ ClosesWell s call s') := by
  cases call with
  | fopen junk filename flags =>
    have h' := hstep.fopen_registered h
    refine ⟨fun _ => h', iff_of_true ⟨h'.exclusive, ?_⟩ ?_⟩
    · intro fp heq
      cases heq
    · intro fp path heq
      cases heq
  | fclose fp =>
    obtain ⟨hmem, hhandles, file, hfile, hnext, hpathset, hfiles⟩ := hstep.fclose_inv h
    have hpath : s.path fp = some file.path := by simp [Session.path, hfile]
    have hgone : fp ∉ s'.handles := hhandles ▸ h.nodup.not_mem_erase
    have hmem_iff : ∀ fp', fp' ∈ s'.handles ↔ fp' ≠ fp ∧ fp' ∈ s.handles := fun fp' => by
      rw [hhandles, h.nodup.mem_erase_iff]
    have hsame : ∀ fp' ∈ s'.handles, s'.path fp' = s.path fp' := by
      intro fp' hfp'
      rw [Session.path, hfiles fp' ((hmem_iff fp').mp hfp').1]
      rfl
    have hkey : file.path ∈ s.fs.pathset.keys := (h.keys file.path).mpr ⟨fp, hmem, hpath⟩
    obtain ⟨set', hremove, hwell, hlost⟩ := h.good.remove hkey
    rw [hremove] at hpathset
    have hcloses : ClosesWell s (.fclose fp) s' ↔ s.fs.pathset.RemovesWell file.path := by
      constructor
      · intro hc
        exact hc fp file.path rfl hpath
      · rintro hc fp' path ⟨⟩ hpath'
        rw [hpath] at hpath'
        cases hpath'
        exact hc
    have hreg : s.fs.pathset.RemovesWell file.path → s'.Registered := by
      intro hsettles
      obtain ⟨hgood, hkeys⟩ := hwell hsettles
      refine ⟨hpathset ▸ hgood, fun path => ?_, ?_, hhandles ▸ h.nodup.erase fp, ?_, ?_⟩
      · rw [hpathset]
        simp only [hkeys, Set.mem_sdiff, h.keys, Set.mem_singleton_iff]
        constructor
        · rintro ⟨⟨fp', hfp', heq⟩, hne⟩
          have hne' : fp' ≠ fp := by
            rintro rfl
            rw [hpath] at heq
            exact hne (Option.some.inj heq).symm
          have hfp'' := (hmem_iff fp').mpr ⟨hne', hfp'⟩
          exact ⟨fp', hfp'', by rw [hsame fp' hfp'', heq]⟩
        · rintro ⟨fp', hfp', heq⟩
          rw [hsame fp' hfp'] at heq
          obtain ⟨hne', hfp''⟩ := (hmem_iff fp').mp hfp'
          refine ⟨⟨fp', hfp'', heq⟩, ?_⟩
          rintro rfl
          exact hne' (h.one fp' hfp'' fp hmem (heq.trans hpath.symm))
      · intro fp₁ hfp₁ fp₂ hfp₂ heq
        rw [hsame fp₁ hfp₁, hsame fp₂ hfp₂] at heq
        exact h.one fp₁ ((hmem_iff fp₁).mp hfp₁).2 fp₂ ((hmem_iff fp₂).mp hfp₂).2 heq
      · intro fp' hfp'
        rw [hnext]
        exact h.lt fp' ((hmem_iff fp').mp hfp').2
      · intro fp' hfp'
        obtain ⟨hne, hfp''⟩ := (hmem_iff fp').mp hfp'
        obtain ⟨f, hf⟩ := h.file fp' hfp''
        exact ⟨f, by rw [hfiles fp' hne, hf]⟩
    have hnot : OpensExclusively s (.fclose fp) s' → s.fs.pathset.RemovesWell file.path := by
      intro hopens
      by_contra hbad
      obtain ⟨path, hpathkey, hne, hmissing⟩ := hlost hbad
      obtain ⟨fp', hfp', heq⟩ := (h.keys path).mp hpathkey
      have hne' : fp' ≠ fp := by
        rintro rfl
        rw [hpath] at heq
        exact hne (Option.some.inj heq).symm
      have hfp'' := (hmem_iff fp').mpr ⟨hne', hfp'⟩
      have hfound := (hopens.1.contains path).mpr ⟨fp', hfp'', by rw [hsame fp' hfp'', heq]⟩
      simp only [fsetContains, hpathset, decide_eq_true_eq] at hfound
      exact hmissing hfound
    refine ⟨fun hopens => hreg (hnot hopens), fun hopens => hcloses.mpr (hnot hopens), fun hc => ?_⟩
    refine ⟨(hreg (hcloses.mp hc)).exclusive, ?_⟩
    rintro fp' ⟨⟩
    exact hgone

/-- In every run of `fopen` and `fclose` opening is exclusive exactly when each
`fclose` removes a path whose hole settles. -/
theorem opens_exclusively_iff (w : World) (sys : Sys) (calls : List FileCall) :
    Always (FileStep w) OpensExclusively (Session.start sys) calls ↔
      Always (FileStep w) ClosesWell (Session.start sys) calls :=
  Always.congr (I := Session.Registered) (fun _ _ _ h hstep => (hstep.exclusive_iff h).1)
    (fun _ _ _ h hstep => (hstep.exclusive_iff h).2) (Session.start_registered sys) calls

end

/-- The path `/x7`. -/
def pathX7 : CStr := [slash, 120#8, 55#8]

/-- The path `/18`, with the same home in a table of 1024 slots: the last one. -/
def path18 : CStr := [slash, 49#8, 56#8]

/-- A root directory with the files `x7` and `18`, all of it cached. -/
def twoFiles : Sys :=
  let inode (iid type size bid : ℕ) : Inode :=
    ⟨iid, type, size, 0, fun r => if r = rootSlot 0 then bid else 0, Bytes.zero, Bytes.zero,
      fun _ => Bytes.zero⟩
  let data : Data := (Bytes.zero.put 0 (dirent 1 (pathX7.drop 1))).put 16 (dirent 2 (path18.drop 1))
  { Sys.blank with
    icac := ⟨.empty, ⟨[⟨0, 0, 0, false, false, some (inode 0 inodeTpDir 32 dataStart), false⟩,
      ⟨1, 1, 0, false, false, some (inode 1 inodeTpFile 0 0), false⟩,
      ⟨2, 2, 0, false, false, some (inode 2 inodeTpFile 0 0), false⟩], 3⟩, [], 3, false⟩
    bcac := ⟨.empty, ⟨[⟨0, dataStart, 0, false, false,
      some ⟨.data, dataStart, HashIdx.zero, Bytes.zero, Bytes.zero, data⟩, false⟩], 1⟩, [], 1,
        false⟩ }

/-- Both files are opened, and the first is closed again. -/
def openTwo : List FileCall :=
  [.fopen ⟨none, 0⟩ pathX7 0, .fopen ⟨none, 0⟩ path18 0, .fclose 0]

/-- The second file is open and its path is not registered any more. -/
theorem open_path_lost :
    ¬Always (FileStep World.plain) OpensExclusively (Session.start twoFiles) openTwo := by
  intro hall
  obtain ⟨s₂, hopen, hcheck⟩ := exists_of_check
    (x := (openTwo.take 2).foldlM (Session.call World.plain) (Session.start twoFiles))
    (p := fun s₂ => (s₂.call World.plain (.fclose 0)).toOption.any fun s₃ =>
      1 ∈ s₃.handles && s₃.path 1 = some path18 && !fsetContains s₃.fs path18) (by decide +kernel)
  obtain ⟨s₃, hclose, hcheck⟩ := exists_of_check hcheck
  simp only [Bool.and_eq_true, decide_eq_true_eq, Bool.not_eq_true'] at hcheck
  obtain ⟨⟨hmem, hpath⟩, hlost⟩ := hcheck
  have hopens := hall _ _ [] s₂ s₃ rfl (.of_foldlM hopen) hclose
  rw [(hopens.1.contains path18).mpr ⟨1, hmem, hpath⟩] at hlost
  cases hlost

end Efs
