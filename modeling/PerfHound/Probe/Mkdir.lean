/-
# Making the data directory: `ph_io_mkdir`

`ph_io_mkdir` puts the home directory in front of a path that begins with `~/`. It then cuts the
path at each slash behind its first character, makes what is before the cut, and makes the whole
path at the end. A name that exists is no error, whatever it stands for: a file in the middle of
the path is noticed at the next cut, a file at its end is not.

What `mkdir` does is that of `FileTree`, where it fails with `EEXIST` at any name that exists,
with `ENOENT` where a directory is missing and with `ENOTDIR` at a file that is no directory.
-/

import PerfHound.Lib.FileTree

namespace PerfHound

open Lib

namespace Mkdir

open FileTree

/-- A name in a directory. -/
abbrev Name := List Char

/-- What a process finds in its environment. -/
structure Env where
  /-- `getenv("HOME")`. -/
  home : Option (List Char)
  /-- `pw_dir` of the user. -/
  pwDir : List Char
  deriving DecidableEq, Repr

def pathMax : ℕ := 4096

/-! ## Paths as text -/

/-- The step a part of a path between slashes stands for. -/
def step (part : List Char) : Step Name :=
  if part = ['.'] then .here else if part = ['.', '.'] then .up else .down part

/-- The steps of a path. Between slashes that follow one another there is nothing. -/
def steps (path : List Char) : List (Step Name) :=
  ((path.splitOn '/').filter fun part => !part.isEmpty).map step

/-- Where a path begins. -/
def start (fs : FileTree Name) (path : List Char) : List Name :=
  if path.head? = some '/' then [] else fs.cwd

def mkdir (fs : FileTree Name) (path : List Char) : Except Error (FileTree Name) :=
  if path = [] then .error .noEntry else fs.mkdir (start fs path) (steps path)

def NamesDir (fs : FileTree Name) (path : List Char) : Prop :=
  ∃ d, fs.walk (start fs path) (steps path) = .ok d

/-! ## `ph_io_mkdir` -/

def errno : Error → ℕ
  | .exist => 17
  | .noEntry => 2
  | .notDir => 20

/-- `tmp_path` when the home directory is expanded. -/
def expand (env : Env) : List Char → List Char
  | '~' :: '/' :: rest => env.home.getD env.pwDir ++ '/' :: rest
  | path => path

/-- The loop over `p`, with what is before `p` and what is left, and the `mkdir` behind it. -/
def makePath (fs : FileTree Name) (before : List Char) : List Char → ℕ × FileTree Name
  | [] =>
      match mkdir fs before with
      | .ok fs' => (0, fs')
      | .error .exist => (0, fs)
      | .error e => (errno e, fs)
  | c :: rest =>
      if c = '/' then
        match mkdir fs before with
        | .ok fs' => makePath fs' (before ++ [c]) rest
        | .error .exist => makePath fs (before ++ [c]) rest
        | .error e => (errno e, fs)
      else makePath fs (before ++ [c]) rest

/-- `ph_io_mkdir`, for a path that is not empty. There is no result if a path does not fit in its
array. -/
def phIoMkdir (env : Env) (fs : FileTree Name) (path : List Char) : Option (ℕ × FileTree Name) :=
  if path.length < pathMax ∧ (expand env path).length < pathMax then
    match expand env path with
    | [] => none
    | c :: rest => some (makePath fs [c] rest)
  else none

/-- A path, or a part of it that ends before a slash. -/
def Part (t path : List Char) : Prop := t ≠ [] ∧ (t = path ∨ t ++ ['/'] <+: path)

/-- What `ph_io_mkdir` is to do. -/
structure Makes (env : Env) (fs : FileTree Name) (path : List Char) (ret : ℕ)
    (fs' : FileTree Name) : Prop where
  returns : phIoMkdir env fs path = some (ret, fs')
  made : ret = 0 ↔ ∀ t, Part t (expand env path) → NamesDir fs' t
  kept : ∀ l k, fs.entry l = some k → fs'.entry l = some k
  /-- A second call returns what the first one has, and changes nothing. -/
  again : phIoMkdir env fs' path = some (ret, fs')

/-- The path ends at a file that is no directory, and does not go through one. -/
def EndsAtFile (fs : FileTree Name) (path : List Char) : Prop :=
  fs.entry (spot (start fs path) (steps path)) = some .other ∧
    ∀ p, p <+: steps path → p ≠ steps path → fs.entry (spot (start fs path) p) ≠ some .other

/-! ## Steps and cuts -/

theorem steps_nil : steps [] = [] := rfl

theorem steps_slash (xs ys : List Char) : steps (xs ++ '/' :: ys) = steps xs ++ steps ys := by
  rw [steps, List.splitOn_append_cons_self, List.filter_append, List.map_append]
  rfl

theorem steps_of_not_mem {part : List Char} (hslash : '/' ∉ part) (hne : part ≠ []) :
    steps part = [step part] := by
  rw [steps, List.splitOn_eq_singleton hslash]
  cases part with
  | nil => exact absurd rfl hne
  | cons c part => rfl

/-- What is before a slash. -/
theorem steps_append_slash (xs : List Char) : steps (xs ++ ['/']) = steps xs := by
  rw [steps_slash, steps_nil, List.append_nil]

theorem start_append (fs : FileTree Name) {xs : List Char} (hne : xs ≠ []) (ys : List Char) :
    start fs (xs ++ ys) = start fs xs := by
  cases xs with
  | nil => exact absurd rfl hne
  | cons c xs => rfl

theorem start_dir (fs : FileTree Name) (path : List Char) :
    fs.entry (start fs path) = some .dir := by
  unfold start
  split
  · exact fs.root_dir
  · exact fs.cwd_dir

/-- The strings that are handed to `mkdir` if no call fails. -/
def cuts (before : List Char) : List Char → List (List Char)
  | [] => [before]
  | c :: rest =>
      if c = '/' then before :: cuts (before ++ [c]) rest else cuts (before ++ [c]) rest

/-- From what is made to the next part. -/
theorem grows_part {pre part : List Char} {rest : List (List (Step Name))} {last : List (Step Name)}
    (hpre : pre = [] ∨ ∃ q, pre = q ++ ['/']) (hpart : '/' ∉ part)
    (h : Grows (steps (pre ++ part)) rest last) :
    Grows (steps pre) (steps (pre ++ part) :: rest) last := by
  have hsteps : steps (pre ++ part) = steps pre ++ steps part := by
    obtain rfl | ⟨q, rfl⟩ := hpre
    · rfl
    · rw [List.append_assoc, List.singleton_append, steps_slash, steps_append_slash]
  obtain rfl | hne := eq_or_ne part []
  · rw [List.append_nil] at h ⊢
    exact Grows.same h
  · rw [hsteps, steps_of_not_mem hpart hne] at h ⊢
    exact Grows.next _ h

/-- Each cut goes on from the one before by at most one step. -/
theorem grows_cuts {pre part : List Char} (hpre : pre = [] ∨ ∃ q, pre = q ++ ['/'])
    (hpart : '/' ∉ part) (rest : List Char) :
    Grows (steps pre) ((cuts (pre ++ part) rest).map steps) (steps (pre ++ part ++ rest)) := by
  induction rest generalizing pre part with
  | nil =>
    rw [List.append_nil]
    exact grows_part hpre hpart Grows.nil
  | cons c rest ih =>
    rw [cuts]
    split
    case isTrue hc =>
      subst hc
      have hrest := ih (Or.inr ⟨pre ++ part, rfl⟩) List.not_mem_nil
      rw [List.append_nil, steps_append_slash, List.append_assoc _ ['/']] at hrest
      exact grows_part hpre hpart hrest
    case isFalse hc =>
      have hpart' : '/' ∉ part ++ [c] := by
        rw [List.mem_append, List.mem_singleton]
        exact not_or.mpr ⟨hpart, fun h => hc h.symm⟩
      have hrest := ih hpre hpart'
      rwa [← List.append_assoc, List.append_assoc _ [c]] at hrest

/-! ## The loop -/

/-- The loop makes one cut after the other. -/
theorem makePath_eq (fs : FileTree Name) {before : List Char} (hne : before ≠ [])
    (rest : List Char) :
    makePath fs before rest =
      let r := fs.mkdirAll (start fs before) ((cuts before rest).map steps)
      (r.1.elim 0 errno, r.2) := by
  induction rest generalizing fs before with
  | nil =>
    rw [makePath, cuts, List.map_singleton, mkdirAll, mkdir, if_neg hne]
    cases fs.mkdir (start fs before) (steps before) with
    | ok fs' => rfl
    | error e => cases e <;> rfl
  | cons c rest ih =>
    have hne' : before ++ [c] ≠ [] := List.append_ne_nil_of_left_ne_nil hne _
    rw [makePath, cuts]
    split
    case isTrue hc =>
      rw [List.map_cons, mkdirAll, mkdir, if_neg hne]
      cases hmkdir : fs.mkdir (start fs before) (steps before) with
      | ok fs' =>
        have hstart : start fs' (before ++ [c]) = start fs before := by
          rw [start_append fs' hne, start, start, FileTree.cwd_of_mkdir hmkdir]
        simp only [ih fs' hne', hstart]
      | error e =>
        cases e with
        | exist => simp only [ih fs hne', start_append fs hne]
        | noEntry => rfl
        | notDir => rfl
    case isFalse hc => rw [ih fs hne', start_append fs hne]

theorem expand_ne_nil (env : Env) {path : List Char} (hne : path ≠ []) : expand env path ≠ [] := by
  unfold expand
  split
  · exact List.append_ne_nil_of_right_ne_nil _ (List.cons_ne_nil _ _)
  · exact hne

variable {env : Env} {fs fs' : FileTree Name} {path : List Char}

/-- A call makes the cuts of the expanded path, which go on to all of it. -/
theorem phIoMkdir_eq (env : Env) (hne : path ≠ []) (hlen : path.length < pathMax)
    (hfits : (expand env path).length < pathMax) :
    ∃ css, Grows [] css (steps (expand env path)) ∧ ∀ fs, phIoMkdir env fs path =
      let r := fs.mkdirAll (start fs (expand env path)) css
      some (r.1.elim 0 errno, r.2) := by
  obtain ⟨c, rest, hexpand⟩ := List.exists_cons_of_ne_nil (expand_ne_nil env hne)
  refine ⟨(cuts [c] rest).map steps, ?_, fun fs => ?_⟩
  · rw [hexpand]
    obtain rfl | hc := eq_or_ne c '/'
    · exact grows_cuts (Or.inr ⟨[], rfl⟩) List.not_mem_nil rest
    · exact grows_cuts (Or.inl rfl) (fun h => hc (List.mem_singleton.mp h).symm) rest
  · rw [phIoMkdir, if_pos ⟨hlen, hfits⟩, hexpand]
    exact congrArg some (makePath_eq fs (List.cons_ne_nil c []) rest)

theorem namesDir_iff : NamesDir fs path ↔ fs.Dirs (start fs path) (steps path) :=
  ⟨fun ⟨_, h⟩ => dirs_of_walk h, fun h => ⟨_, walk_of_dirs h⟩⟩

/-- The parts of a path name directories if the path does. -/
theorem all_parts_iff (fs : FileTree Name) (hne : path ≠ []) :
    (∀ t, Part t path → NamesDir fs t) ↔ fs.Dirs (start fs path) (steps path) := by
  constructor
  · exact fun h => namesDir_iff.mp (h path ⟨hne, Or.inl rfl⟩)
  · rintro h t ⟨hnt, rfl | ⟨v, rfl⟩⟩
    · exact namesDir_iff.mpr h
    · rw [List.append_assoc, List.singleton_append, steps_slash, start_append fs hnt] at h
      exact namesDir_iff.mpr fun p hp => h p (hp.trans (List.prefix_append _ _))

/-- What is left when a call returns. -/
theorem phIoMkdir_spec (env : Env) (fs : FileTree Name) (hne : path ≠ [])
    (hlen : path.length < pathMax) (hfits : (expand env path).length < pathMax) :
    ∃ ret fs', phIoMkdir env fs path = some (ret, fs') ∧ fs.Extends fs' ∧
      phIoMkdir env fs' path = some (ret, fs') ∧
      (ret = 0 ∧ fs'.Reached (start fs (expand env path)) (steps (expand env path)) ∨
        ret ≠ 0 ∧ ∃ p, p <+: steps (expand env path) ∧ p ≠ steps (expand env path) ∧
          fs'.entry (spot (start fs (expand env path)) p) = some .other) := by
  obtain ⟨css, hgrows, hcall⟩ := phIoMkdir_eq env hne hlen hfits
  let l := start fs (expand env path)
  have hroot : fs.Reached l [] := by
    refine ⟨fun p hp hpne => absurd (List.prefix_nil.mp hp) hpne, ?_⟩
    rw [spot, List.foldl_nil, start_dir]
    exact Option.some_ne_none _
  obtain ⟨hextends, hends⟩ := mkdirAll_spec hgrows hroot
  have hstart : start (fs.mkdirAll l css).2 (expand env path) = l := by
    rw [start, hextends.cwd]
    rfl
  refine ⟨_, _, hcall fs, hextends, ?_, ?_⟩
  · rw [hcall, hstart, mkdirAll_again hgrows hroot]
  obtain ⟨hnone, hreached⟩ | ⟨herror, hfile⟩ := hends
  · refine Or.inl ⟨?_, hreached⟩
    rw [hnone]
    rfl
  · refine Or.inr ⟨?_, hfile⟩
    rw [herror]
    decide

/-- When everything above the end of the path has been made, what is at its end was there before
if it is a file. -/
theorem endsAtFile_iff (hextends : fs.Extends fs')
    (hreached : fs'.Reached (start fs path) (steps path)) :
    EndsAtFile fs path ↔ fs'.entry (spot (start fs path) (steps path)) = some .other := by
  constructor
  · exact fun h => hextends.kept _ _ h.1
  · intro h
    refine ⟨hextends.other _ h, fun p hp hne hother => ?_⟩
    have hdir := hreached.above p hp hne
    rw [hextends.kept _ _ hother] at hdir
    cases hdir

/-- A call that fits makes the path, unless the path ends at a file. -/
theorem makes_iff_of_fits (hne : path ≠ []) (hlen : path.length < pathMax)
    (hfits : (expand env path).length < pathMax) :
    (∃ ret fs', Makes env fs path ret fs') ↔ ¬ EndsAtFile fs (expand env path) := by
  obtain ⟨ret, fs', hcall, hextends, hagain, hends⟩ := phIoMkdir_spec env fs hne hlen hfits
  have hstart : start fs' (expand env path) = start fs (expand env path) := by
    rw [start, hextends.cwd]
    rfl
  have hparts := all_parts_iff fs' (expand_ne_nil env hne)
  rw [hstart] at hparts
  obtain ⟨rfl, hreached⟩ | ⟨hret, p, hp, hpne, hother⟩ := hends
  · rw [endsAtFile_iff hextends hreached]
    constructor
    · rintro ⟨ret', fs'', h⟩ hother
      obtain ⟨rfl, rfl⟩ := Prod.mk.inj (Option.some.inj (hcall.symm.trans h.returns))
      have hdir := hparts.mp (h.made.mp rfl) _ (List.prefix_refl _)
      rw [hother] at hdir
      cases hdir
    · intro hother
      have hdir : fs'.entry (spot (start fs (expand env path)) (steps (expand env path))) =
          some .dir := by
        cases hentry : fs'.entry (spot (start fs (expand env path)) (steps (expand env path))) with
        | none => exact absurd hentry hreached.ne_none
        | some k =>
          cases k with
          | dir => rfl
          | other => exact absurd hentry hother
      have hmade := hparts.mpr (dirs_of_reached hreached hdir)
      exact ⟨0, fs', hcall, iff_of_true rfl hmade, hextends.kept, hagain⟩
  · have hnotmade : ¬ ∀ t, Part t (expand env path) → NamesDir fs' t := by
      intro hmade
      have hdir := hparts.mp hmade p hp
      rw [hother] at hdir
      cases hdir
    refine iff_of_true ⟨ret, fs', hcall, iff_of_false hret hnotmade, hextends.kept,
      hagain⟩ ?_
    exact fun h => h.2 p hp hpne (hextends.other _ hother)

/-- **`ph_io_mkdir` makes a path exactly if** the expanded path fits in its array and does not end
at a file that is no directory, without going through one. -/
theorem makes_iff (env : Env) (fs : FileTree Name) (path : List Char) (hne : path ≠ [])
    (hlen : path.length < pathMax) :
    (∃ ret fs', Makes env fs path ret fs') ↔
      (expand env path).length < pathMax ∧ ¬ EndsAtFile fs (expand env path) := by
  constructor
  · rintro ⟨ret, fs', h⟩
    have hfits : (expand env path).length < pathMax := by
      by_contra hlong
      have hreturns := h.returns
      rw [phIoMkdir, if_neg fun hboth => hlong hboth.2] at hreturns
      cases hreturns
    exact ⟨hfits, (makes_iff_of_fits hne hlen hfits).mp ⟨ret, fs', h⟩⟩
  · rintro ⟨hfits, hends⟩
    exact (makes_iff_of_fits hne hlen hfits).mpr hends

/-- A root directory that holds nothing but a file. -/
def oneFile (name : Name) : FileTree Name where
  entry l := if l = [] then some .dir else if l = [name] then some .other else none
  cwd := []
  root_dir := rfl
  cwd_dir := rfl
  parent_dir l n h := by
    have hne : l ++ [n] ≠ [] := List.append_ne_nil_of_right_ne_nil l (List.cons_ne_nil n [])
    simp only [if_neg hne, ne_eq, ite_eq_right_iff, reduceCtorEq, imp_false, not_not] at h
    rw [List.append_eq_singleton_iff] at h
    obtain ⟨rfl, -⟩ | ⟨-, h⟩ := h
    · rfl
    · cases h

/-- A file is taken for the data directory. -/
theorem file_is_no_error :
    ¬ ∀ (env : Env) (fs : FileTree Name) (path : List Char), path ≠ [] → path.length < pathMax →
      ∃ ret fs', Makes env fs path ret fs' := by
  intro h
  have hmakes := h ⟨none, []⟩ (oneFile ['f']) ['f'] (by decide) (by decide)
  rw [makes_iff_of_fits (by decide) (by decide) (by decide)] at hmakes
  refine hmakes ⟨by decide, fun p hp hne => ?_⟩
  have hp' : p <+: [] ++ [Step.down ['f']] := hp
  obtain rfl | hp' := List.prefix_concat_iff.mp hp'
  · exact absurd rfl hne
  · rw [List.prefix_nil.mp hp']
    decide

/-- A directory below the home directory. -/
theorem makes_below_home :
    ∃ ret fs', Makes ⟨some "/home".toList, []⟩ (oneFile ['f']) "~/data//run/".toList ret fs' :=
  (makes_iff _ _ _ (by decide) (by decide)).mpr ⟨by decide, fun h => absurd h.1 (by decide)⟩

end Mkdir

end PerfHound
