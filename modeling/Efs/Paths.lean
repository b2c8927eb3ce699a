import Efs.DirectoryEntries
import Efs.File

/-!
# Paths as lists of names

A path is `/`, or it is made of names that follow a `/` each. `path_check` decides this
for all strings but the empty one. `path_split` takes the last name away, and the loop of
`inode_get` visits all of them, so that the three agree about what a path means.
-/

namespace Efs

open Library

/-! ## The grammar -/

/-- A name in a path: from 1 to `DIRNAME_MAX_LEN` letters and digits. -/
structure Component (name : CStr) : Prop where
  /-- The name is not empty. -/
  pos : 0 < name.length
  /-- The name fits an entry. -/
  length_le : name.length ≤ dirnameMaxLen
  /-- The characters. -/
  alnum : ∀ c ∈ name, isalnum c = true

/-- The names after a `/` each. -/
def joinPath (names : List CStr) : CStr := names.flatMap fun name => slash :: name

/-- `/`, or one or more names after a `/` each. -/
def GoodPath (path : CStr) : Prop :=
  path = [slash] ∨ ∃ names, names ≠ [] ∧ (∀ name ∈ names, Component name) ∧ path = joinPath names

variable {path name : CStr} {names : List CStr} {c : Byte} {n : ℕ}

/-- The path of no names. -/
@[simp] theorem joinPath_nil : joinPath [] = [] := rfl

/-- The path of a name and more names. -/
@[simp] theorem joinPath_cons : joinPath (name :: names) = slash :: (name ++ joinPath names) := rfl

/-- The path of names and one more name. -/
theorem joinPath_concat : joinPath (names ++ [name]) = joinPath names ++ slash :: name := by
  simp [joinPath]

/-- Only the path of no names is empty. -/
theorem joinPath_eq_nil : joinPath names = [] ↔ names = [] := by
  cases names <;> simp

/-- A letter or digit is no slash. -/
theorem ne_slash_of_isalnum (h : isalnum c = true) : c ≠ slash := by
  rintro rfl
  cases h

/-- A letter or digit is not the end of a string. -/
theorem ne_zero_of_isalnum (h : isalnum c = true) : c ≠ 0 := by
  rintro rfl
  cases h

/-- A name in a path is one that a directory can have. -/
theorem Component.validName (h : Component name) : ValidName name where
  pos := h.pos
  length_le := h.length_le
  nonzero c hc := ne_zero_of_isalnum (h.alnum c hc)

/-- A name is not empty. -/
theorem Component.ne_nil (h : Component name) : name ≠ [] := List.ne_nil_of_length_pos h.pos

/-- A name has no slash. -/
theorem Component.slash_notMem (h : Component name) : slash ∉ name :=
  fun hmem => ne_slash_of_isalnum (h.alnum slash hmem) rfl

/-! ## `path_check` -/

/-- The loop of `path_check` accepts the rest of a name and the names after it. -/
theorem pathCheckFrom_iff : pathCheckFrom n path = true ↔
    ∃ rest names, path = rest ++ joinPath names ∧ (∀ c ∈ rest, isalnum c = true) ∧
      n + rest.length ≤ dirnameMaxLen ∧ n + rest.length ≠ 0 ∧ ∀ name ∈ names, Component name := by
  induction path generalizing n with
  | nil =>
    simp only [pathCheckFrom, decide_eq_true_eq]
    constructor
    · rintro ⟨hle, hne⟩
      exact ⟨[], [], rfl, by simp, by simpa using hle, by simpa using hne, by simp⟩
    · rintro ⟨rest, names, heq, _, hle, hne, _⟩
      obtain ⟨rfl, _⟩ := List.append_eq_nil_iff.mp heq.symm
      exact ⟨hle, hne⟩
  | cons c path ih =>
    rw [pathCheckFrom]
    by_cases hc : isalnum c = true
    · rw [if_pos hc, ih]
      constructor
      · rintro ⟨rest, names, rfl, hrest, hle, hne, hnames⟩
        refine ⟨c :: rest, names, rfl, ?_, ?_, ?_, hnames⟩
        · rintro a (_ | ⟨_, ha⟩)
          · exact hc
          · exact hrest a ha
        · rw [List.length_cons]
          omega
        · rw [List.length_cons]
          omega
      · rintro ⟨rest, names, heq, hrest, hle, hne, hnames⟩
        cases rest with
        | nil =>
          -- The first character would be that of `joinPath`.
          exfalso
          cases names with
          | nil => cases heq
          | cons name names =>
            rw [List.nil_append, joinPath_cons] at heq
            exact ne_slash_of_isalnum hc (List.cons.inj heq).1
        | cons a rest =>
          obtain ⟨rfl, rfl⟩ := List.cons.inj heq
          rw [List.length_cons] at hle hne
          refine ⟨rest, names, rfl, fun a ha => hrest a (List.mem_cons_of_mem _ ha), ?_, ?_, hnames⟩
          · omega
          · omega
    · rw [if_neg hc, decide_eq_true_eq, ih]
      constructor
      · rintro ⟨rfl, hle, hne, rest, names, rfl, hrest, hle', hne', hnames⟩
        refine ⟨[], rest :: names, rfl, by simp, hle, hne, ?_⟩
        rintro name (_ | ⟨_, hname⟩)
        · exact ⟨by omega, by omega, hrest⟩
        · exact hnames name hname
      · rintro ⟨rest, names, heq, hrest, hle, hne, hnames⟩
        cases rest with
        | nil =>
          cases names with
          | nil => cases heq
          | cons name names =>
            rw [List.nil_append, joinPath_cons] at heq
            obtain ⟨rfl, rfl⟩ := List.cons.inj heq
            have hname := hnames name List.mem_cons_self
            refine ⟨rfl, hle, hne, name, names, rfl, hname.alnum, ?_, ?_, ?_⟩
            · have := hname.length_le
              omega
            · have := hname.pos
              omega
            · exact fun a ha => hnames a (List.mem_cons_of_mem _ ha)
        | cons a rest =>
          obtain ⟨rfl, _⟩ := List.cons.inj heq
          exact absurd (hrest c List.mem_cons_self) hc

/-- `path_check` accepts a path exactly when it is one, but for the empty string. -/
theorem pathCheck_cons : pathCheck (c :: path) = true ↔ GoodPath (c :: path) := by
  rw [pathCheck, decide_eq_true_eq, pathCheckFrom_iff]
  constructor
  · rintro ⟨rfl, rfl | ⟨rest, names, rfl, hrest, hle, hne, hnames⟩⟩
    · exact Or.inl rfl
    · right
      refine ⟨rest :: names, List.cons_ne_nil _ _, ?_, rfl⟩
      rintro name (_ | ⟨_, hname⟩)
      · exact ⟨by omega, by omega, hrest⟩
      · exact hnames name hname
  · rintro (heq | ⟨names, hne, hnames, heq⟩)
    · obtain ⟨rfl, rfl⟩ := List.cons.inj heq
      exact ⟨rfl, Or.inl rfl⟩
    · cases names with
      | nil => exact absurd rfl hne
      | cons name names =>
        obtain ⟨rfl, rfl⟩ := List.cons.inj heq
        have hname := hnames name List.mem_cons_self
        refine ⟨rfl, Or.inr ⟨name, names, rfl, hname.alnum, ?_, ?_, ?_⟩⟩
        · have := hname.length_le
          omega
        · have := hname.pos
          omega
        · exact fun a ha => hnames a (List.mem_cons_of_mem _ ha)

/-- The empty string is no good path. -/
theorem not_goodPath_nil : ¬GoodPath [] := by
  rintro (h | ⟨names, hne, _, h⟩)
  · cases h
  · exact hne (joinPath_eq_nil.mp h.symm)

/-- `path_check` accepts paths of names. -/
theorem pathCheck_joinPath (hne : names ≠ []) (hnames : ∀ name ∈ names, Component name) :
    pathCheck (joinPath names) = true := by
  have hgood : GoodPath (joinPath names) := Or.inr ⟨names, hne, hnames, rfl⟩
  cases names with
  | nil => exact absurd rfl hne
  | cons name names => exact pathCheck_cons.mpr hgood

/-- `path_check` decides the grammar of the string exactly when the string is not empty. -/
theorem pathCheck_iff_goodPath (path : CStr) :
    (pathCheck path = true ↔ GoodPath path) ↔ path ≠ [] := by
  cases path with
  | nil =>
    constructor
    · intro h
      exact absurd (h.mp rfl) not_goodPath_nil
    · intro h
      exact absurd rfl h
  | cons c path =>
    constructor
    · intro _
      exact List.cons_ne_nil c path
    · intro _
      exact pathCheck_cons

/-- The empty string is accepted, and is no path. -/
theorem pathCheck_empty : ¬∀ path : CStr, pathCheck path = true ↔ GoodPath path := by
  intro h
  exact not_goodPath_nil ((h []).mp rfl)

/-! ## `path_split` -/

/-- `path_split` cuts at the last `/`. -/
theorem pathSplit_append (up : CStr) (h : slash ∉ name) :
    pathSplit (up ++ slash :: name) = some (if up = [] then [slash] else up, name) := by
  have hlast : ((up ++ slash :: name).reverse.takeWhile fun c => c ≠ slash).reverse = name := by
    rw [List.reverse_append, List.reverse_cons, List.append_assoc, List.takeWhile_append_of_pos]
    · simp
    · intro a ha
      rw [decide_eq_true_iff]
      rintro rfl
      exact h (List.mem_reverse.mp ha)
  have hlength : (up ++ slash :: name).length - name.length - 1 = up.length := by
    rw [List.length_append, List.length_cons]
    omega
  rw [pathSplit]
  simp only [hlast, hlength]
  rw [if_neg, List.take_left]
  rw [List.length_append, List.length_cons]
  omega

/-! ## The names that the walk visits -/

/-- The names that the loop of `inode_get` gets from `name_of_next_level`, over at most
`n` levels; `none` at a null pointer. -/
def levelsFrom : ℕ → CStr → Option (List CStr)
  | 0, _ => some []
  | _ + 1, [] => some []
  | n + 1, c :: path =>
    match nameOfNextLevel (c :: path) with
    | none => none
    | some (buf, rest) => if buf = [] then some [] else (levelsFrom n rest).map (buf :: ·)

/-- The names that `inode_get` visits on a path, when no name is missing. -/
def levels : CStr → Option (List CStr)
  | [] => none
  | c :: path => if c ≠ slash then none else levelsFrom (path.length + 1) path

/-- `name_of_next_level` skips the `/` after a name. -/
theorem nameOfNextLevel_append (h : Component name) (names : List CStr) :
    nameOfNextLevel (name ++ joinPath names) = some (name, (joinPath names).drop 1) := by
  have hname : (name ++ joinPath names).takeWhile (fun c => c ≠ slash) = name := by
    rw [List.takeWhile_append_of_pos]
    · cases names <;> simp
    · intro c hc
      exact decide_eq_true (ne_slash_of_isalnum (h.alnum c hc))
  have hle := h.length_le
  simp only [nameOfNextLevel, hname]
  rw [if_neg (by omega), ← List.drop_drop, List.drop_left]

/-- The loop visits each name once and in order. -/
theorem levelsFrom_joinPath (hnames : ∀ name ∈ names, Component name) (hn : names.length ≤ n) :
    levelsFrom n ((joinPath names).drop 1) = some names := by
  induction names generalizing n with
  | nil => cases n <;> rfl
  | cons name names ih =>
    have hname := hnames name List.mem_cons_self
    obtain ⟨n, rfl⟩ : ∃ n', n = n' + 1 := ⟨n - 1, by rw [List.length_cons] at hn; omega⟩
    rw [joinPath_cons, List.drop_succ_cons, List.drop_zero]
    have hnext := nameOfNextLevel_append hname names
    obtain ⟨c, rest, hcons⟩ := List.exists_cons_of_ne_nil
      (List.append_ne_nil_of_left_ne_nil hname.ne_nil (joinPath names))
    rw [hcons] at hnext ⊢
    rw [List.length_cons] at hn
    simp only [levelsFrom, hnext, if_neg hname.ne_nil]
    rw [ih (fun a ha => hnames a (List.mem_cons_of_mem _ ha)) (by omega)]
    rfl

/-- A path is at least as long as the list of its names. -/
theorem length_le_joinPath (names : List CStr) : names.length ≤ (joinPath names).length := by
  induction names with
  | nil => exact Nat.le_refl 0
  | cons name names ih =>
    rw [joinPath_cons, List.length_cons, List.length_cons, List.length_append]
    omega

/-- The levels of a path are its names. -/
theorem levels_joinPath (hne : names ≠ []) (hnames : ∀ name ∈ names, Component name) :
    levels (joinPath names) = some names := by
  have hlevels := levelsFrom_joinPath hnames (length_le_joinPath names)
  have hlength := length_le_joinPath names
  cases names with
  | nil => exact absurd rfl hne
  | cons name rest =>
    rw [joinPath_cons] at hlevels ⊢
    rw [List.drop_succ_cons, List.drop_zero, List.length_cons] at hlevels
    rw [levels, if_neg (by simp)]
    exact hlevels

section

variable {w : World} {junk : Leftover} {type : ℕ} {alloc : Bool} {ip : ℕ} {buf : CStr}

/-- The loop of `inode_get` over a list of names. -/
def inodeGetNames (w : World) (junk : Leftover) (type : ℕ) (alloc : Bool) :
    List CStr → ℕ → Exec Halt Sys (Option ℕ)
  | [], ip => inodeGetEnd w ip type
  | name :: names, ip => do
    let _ ← inodeLock w ip
    let inode ← inodeAt ip
    if inode.type ≠ inodeTpDir then inodeGetError w ip
    else
      match ← inodeGetStep w junk alloc ip name (some ((joinPath names).drop 1)) with
      | none => inodeGetError w ip
      | some iid =>
        let _ ← inodeUnlockReturn w ip
        match ← igetFromCache w iid false with
        | none => inodeGetError w ip
        | some tmp => inodeGetNames w junk type alloc names tmp

/-- The loop of `inode_get` goes down the list of the names of its path. -/
theorem inodeGetFrom_joinPath (hnames : ∀ name ∈ names, Component name) (hn : names.length ≤ n) :
    inodeGetFrom w junk type alloc n (some ((joinPath names).drop 1)) buf ip =
      inodeGetNames w junk type alloc names ip := by
  induction names generalizing n buf ip with
  | nil => cases n <;> rfl
  | cons name names ih =>
    have hname := hnames name List.mem_cons_self
    obtain ⟨n, rfl⟩ : ∃ n', n = n' + 1 := ⟨n - 1, by rw [List.length_cons] at hn; omega⟩
    rw [joinPath_cons, List.drop_succ_cons, List.drop_zero]
    have hnext := nameOfNextLevel_append hname names
    obtain ⟨c, rest, hcons⟩ := List.exists_cons_of_ne_nil
      (List.append_ne_nil_of_left_ne_nil hname.ne_nil (joinPath names))
    rw [hcons] at hnext ⊢
    rw [List.length_cons] at hn
    simp only [inodeGetFrom, hnext, Option.map_some, Option.getD_some, if_neg hname.ne_nil]
    simp only [ih (fun a ha => hnames a (List.mem_cons_of_mem _ ha))
      (show names.length ≤ n by omega)]
    rfl

/-- `inode_get` over a list of names, from the root. -/
def inodeGetPath (w : World) (junk : Leftover) (names : List CStr) (type : ℕ) (alloc : Bool) :
    Exec Halt Sys (Option ℕ) := do
  let rootinode ← Exec.read (·.sb.rootinode)
  match ← igetFromCache w rootinode false with
  | none => Exec.stop .nullDeref
  | some ip => inodeGetNames w junk type alloc names ip

/-- `inode_get` on `/`. -/
theorem inodeGet_slash (htype : ¬(type = inodeTpDir ∧ alloc = true)) :
    inodeGet w junk [slash] type alloc = inodeGetPath w junk [] type alloc := by
  rw [inodeGet, if_neg htype]
  rfl

/-- `inode_get` on a path of names. -/
theorem inodeGet_joinPath (hne : names ≠ []) (hnames : ∀ name ∈ names, Component name)
    (htype : ¬(type = inodeTpDir ∧ alloc = true)) :
    inodeGet w junk (joinPath names) type alloc = inodeGetPath w junk names type alloc := by
  cases names with
  | nil => exact absurd rfl hne
  | cons name rest =>
    have hlength := length_le_joinPath (name :: rest)
    have hfrom : ∀ ip, inodeGetFrom w junk type alloc (joinPath (name :: rest)).length
        (some ((joinPath (name :: rest)).drop 1)) [] ip =
          inodeGetNames w junk type alloc (name :: rest) ip :=
      fun ip => inodeGetFrom_joinPath hnames hlength
    rw [joinPath_cons, List.drop_succ_cons, List.drop_zero, List.length_cons] at hfrom
    rw [joinPath_cons, inodeGet, if_neg htype]
    simp only [ne_eq, not_true_eq_false, if_false, hfrom]
    rfl

end

/-- `path_split` gives the last name and the path of the names before it, in the sizes of
the buffers of its callers, and `inode_get` visits the names of the path: those of the
path before the last name, and then the last name. -/
theorem pathSplit_levels {names : List CStr} (hne : names ≠ [])
    (hnames : ∀ name ∈ names, Component name) :
    ∃ upper last before, pathSplit (joinPath names) = some (upper, last) ∧
      Component last ∧ last.length + 1 ≤ dirnameMaxLen + 1 ∧
      (upper = [slash] ∨ upper ≠ [] ∧ pathCheck upper = true) ∧
      upper.length + 1 ≤ (joinPath names).length + 1 ∧
      levels (joinPath names) = some names ∧ levels upper = some before ∧
      names = before ++ [last] ∧
      ∀ (w : World) (junk : Leftover) (type : ℕ) (alloc : Bool),
        ¬(type = inodeTpDir ∧ alloc = true) →
        inodeGet w junk (joinPath names) type alloc = inodeGetPath w junk names type alloc ∧
          inodeGet w junk upper type alloc = inodeGetPath w junk before type alloc := by
  obtain ⟨before, last, rfl⟩ : ∃ before last, names = before ++ [last] :=
    ⟨names.dropLast, names.getLast hne, (List.dropLast_append_getLast hne).symm⟩
  have hlast : Component last := hnames last (by simp)
  have hbefore : ∀ name ∈ before, Component name := fun name h => hnames name (by simp [h])
  have hsplit := pathSplit_append (joinPath before) hlast.slash_notMem
  rw [← joinPath_concat] at hsplit
  have hlevels := levels_joinPath hne hnames
  have hlength := hlast.length_le
  by_cases hnil : before = []
  · subst hnil
    refine ⟨[slash], last, [], hsplit, hlast, by omega, Or.inl rfl, by simp, hlevels, rfl, rfl, ?_⟩
    intro w junk type alloc htype
    exact ⟨inodeGet_joinPath hne hnames htype, inodeGet_slash htype⟩
  · have hupper : joinPath before ≠ [] := fun h => hnil (joinPath_eq_nil.mp h)
    rw [if_neg hupper] at hsplit
    refine ⟨joinPath before, last, before, hsplit, hlast, by omega,
      Or.inr ⟨hupper, pathCheck_joinPath hnil hbefore⟩, ?_, hlevels,
      levels_joinPath hnil hbefore, rfl, ?_⟩
    · rw [joinPath_concat, List.length_append]
      omega
    · intro w junk type alloc htype
      exact ⟨inodeGet_joinPath hne hnames htype, inodeGet_joinPath hnil hbefore htype⟩

/-- The path `/a/b`. -/
theorem pathSplit_levels_ab : ∃ upper last before,
    pathSplit (joinPath [[97#8], [98#8]]) = some (upper, last) ∧ Component last ∧
      levels (joinPath [[97#8], [98#8]]) = some [[97#8], [98#8]] ∧ levels upper = some before ∧
      [[97#8], [98#8]] = before ++ [last] := by
  have hnames : ∀ name ∈ [[97#8], [98#8]], Component name := by
    rintro name (_ | ⟨_, _ | ⟨_, h⟩⟩)
    · exact ⟨by decide, by decide, by decide⟩
    · exact ⟨by decide, by decide, by decide⟩
    · cases h
  obtain ⟨upper, last, before, hsplit, hlast, _, _, _, hlevels, hupper, heq, _⟩ :=
    pathSplit_levels (List.cons_ne_nil _ _) hnames
  exact ⟨upper, last, before, hsplit, hlast, hlevels, hupper, heq⟩

end Efs
