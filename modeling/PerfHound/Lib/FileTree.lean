/-
# Directories and `mkdir`

A file tree says what stands at each location, a list of names from the root. A path is walked
step by step from a directory; each step is taken in a directory, and `..` leads back to the
directory above. `mkdir` walks to the directory that is to hold the new one.

`mkdirAll` calls `mkdir` for one path after the other, each of which goes on from the one before
by at most one step, and takes it for granted that what exists is a directory. `mkdirAll_spec`
says where that leads: nothing that existed is changed, and it stops at a file that is not the
last thing on the path. At a file that is, it does not stop.
-/

import Mathlib.Data.List.Induction
import Mathlib.Logic.Function.Basic

namespace PerfHound.Lib

universe u

namespace FileTree

/-- What stands at a location. -/
inductive Kind where
  | dir
  | other
  deriving DecidableEq, Repr

/-- A step of a path: `.`, `..` or a name. -/
inductive Step (ν : Type u) where
  | here
  | up
  | down (n : ν)
  deriving DecidableEq, Repr

/-- `EEXIST`, `ENOENT` and `ENOTDIR`. -/
inductive Error where
  | exist
  | noEntry
  | notDir
  deriving DecidableEq, Repr

end FileTree

/-- A file tree with a current directory. Every location below the root stands in a directory. -/
structure FileTree (ν : Type u) where
  entry : List ν → Option FileTree.Kind
  cwd : List ν
  root_dir : entry [] = some .dir
  cwd_dir : entry cwd = some .dir
  parent_dir : ∀ l n, entry (l ++ [n]) ≠ none → entry l = some .dir

namespace FileTree

variable {ν : Type u}

/-! ## Walking -/

/-- Where a step leads. The directory above the root is the root. -/
def move (l : List ν) : Step ν → List ν
  | .here => l
  | .up => l.dropLast
  | .down n => l ++ [n]

/-- Where a path leads if all its steps can be taken. -/
def spot (l : List ν) (ss : List (Step ν)) : List ν := ss.foldl move l

/-- A location must be a directory. -/
def enter (t : FileTree ν) (l : List ν) : Except Error (List ν) :=
  match t.entry l with
  | some .dir => .ok l
  | some .other => .error .notDir
  | none => .error .noEntry

/-- The directory a path names. -/
def walk (t : FileTree ν) : List ν → List (Step ν) → Except Error (List ν)
  | l, [] => t.enter l
  | l, s :: ss => (t.enter l).bind fun d => t.walk (move d s) ss

/-- All steps of a path lead to directories. -/
def Dirs (t : FileTree ν) (l : List ν) (ss : List (Step ν)) : Prop :=
  ∀ p, p <+: ss → t.entry (spot l p) = some .dir

variable {t t' : FileTree ν} {l : List ν} {ss : List (Step ν)} {s : Step ν}

theorem spot_append (l : List ν) (ss : List (Step ν)) (s : Step ν) :
    spot l (ss ++ [s]) = move (spot l ss) s := by
  rw [spot, spot, List.foldl_append, List.foldl_cons, List.foldl_nil]

theorem enter_of_dir (h : t.entry l = some .dir) : t.enter l = .ok l := by
  rw [enter, h]

theorem enter_of_other (h : t.entry l = some .other) : t.enter l = .error .notDir := by
  rw [enter, h]

/-- The last step of a walk. -/
theorem walk_append (t : FileTree ν) (l : List ν) (ss : List (Step ν)) (s : Step ν) :
    t.walk l (ss ++ [s]) = (t.walk l ss).bind fun d => t.enter (move d s) := by
  induction ss generalizing l with
  | nil => rfl
  | cons a ss ih =>
    rw [List.cons_append, walk, walk]
    cases t.enter l with
    | error e => rfl
    | ok d => exact ih (move d a)

theorem dirs_nil (h : t.entry l = some .dir) : t.Dirs l [] := by
  intro p hp
  rwa [List.prefix_nil.mp hp]

theorem dirs_append_iff :
    t.Dirs l (ss ++ [s]) ↔ t.Dirs l ss ∧ t.entry (spot l (ss ++ [s])) = some .dir := by
  constructor
  · intro h
    exact ⟨fun p hp => h p (hp.trans (List.prefix_append ss [s])), h _ (List.prefix_refl _)⟩
  · rintro ⟨hss, hs⟩ p hp
    obtain rfl | hp := List.prefix_concat_iff.mp hp
    · exact hs
    · exact hss p hp

/-- A path can be walked if all its steps lead to directories. -/
theorem walk_of_dirs (h : t.Dirs l ss) : t.walk l ss = .ok (spot l ss) := by
  induction ss using List.reverseRecOn with
  | nil => exact enter_of_dir (h [] (List.prefix_refl _))
  | append_singleton ss s ih =>
    obtain ⟨hss, hs⟩ := dirs_append_iff.mp h
    rw [walk_append, ih hss, spot_append]
    rw [spot_append] at hs
    exact enter_of_dir hs

theorem eq_of_enter {d : List ν} (h : t.enter l = .ok d) : t.entry l = some .dir ∧ d = l := by
  unfold enter at h
  split at h
  case h_1 hdir => exact ⟨hdir, (Except.ok.inj h).symm⟩
  case h_2 => cases h
  case h_3 => cases h

theorem dirs_of_walk {d : List ν} (h : t.walk l ss = .ok d) : t.Dirs l ss := by
  suffices hspot : t.Dirs l ss ∧ d = spot l ss from hspot.1
  induction ss using List.reverseRecOn generalizing d with
  | nil =>
    obtain ⟨hdir, rfl⟩ := eq_of_enter h
    exact ⟨dirs_nil hdir, rfl⟩
  | append_singleton ss s ih =>
    rw [walk_append] at h
    cases hwalk : t.walk l ss with
    | error e =>
      rw [hwalk] at h
      cases h
    | ok c =>
      rw [hwalk] at h
      obtain ⟨hss, rfl⟩ := ih hwalk
      obtain ⟨hdir, rfl⟩ := eq_of_enter h
      rw [← spot_append] at hdir ⊢
      exact ⟨dirs_append_iff.mpr ⟨hss, hdir⟩, rfl⟩

/-! ## Making directories -/

section

variable [DecidableEq ν]

theorem update_eq_dir {f : List ν → Option Kind} {l : List ν} (k : List ν)
    (h : f l = some .dir) : Function.update f k (some .dir) l = some .dir := by
  obtain rfl | hne := eq_or_ne l k
  · exact Function.update_self ..
  · rwa [Function.update_of_ne hne]

/-- A directory at a free name of a directory. -/
def addDir (t : FileTree ν) (d : List ν) (n : ν) : FileTree ν :=
  if h : t.entry d = some .dir then
    { entry := Function.update t.entry (d ++ [n]) (some .dir)
      cwd := t.cwd
      root_dir := update_eq_dir _ t.root_dir
      cwd_dir := update_eq_dir _ t.cwd_dir
      parent_dir := by
        intro l m hm
        obtain heq | hne := eq_or_ne (l ++ [m]) (d ++ [n])
        · obtain ⟨rfl, -⟩ := List.append_inj' heq rfl
          exact update_eq_dir _ h
        · rw [Function.update_of_ne hne] at hm
          exact update_eq_dir _ (t.parent_dir l m hm) }
  else t

/-- `mkdir`. The root exists. -/
def mkdir (t : FileTree ν) (l : List ν) (ss : List (Step ν)) : Except Error (FileTree ν) :=
  match ss.getLast? with
  | none => .error .exist
  | some s => (t.walk l ss.dropLast).bind fun d =>
      match s with
      | .down n => if t.entry (d ++ [n]) = none then .ok (t.addDir d n) else .error .exist
      | _ => .error .exist

/-- `mkdir` for several paths. What exists already is no error. -/
def mkdirAll (t : FileTree ν) (l : List ν) : List (List (Step ν)) → Option Error × FileTree ν
  | [] => (none, t)
  | ss :: rest =>
      match t.mkdir l ss with
      | .ok t' => t'.mkdirAll l rest
      | .error .exist => t.mkdirAll l rest
      | .error e => (some e, t)

end

/-! ## What one call does -/

/-- What exists stays, and what comes are directories. -/
structure Extends (t t' : FileTree ν) : Prop where
  kept : ∀ l k, t.entry l = some k → t'.entry l = some k
  other : ∀ l, t'.entry l = some .other → t.entry l = some .other
  cwd : t'.cwd = t.cwd

/-- The path has been made: all that is above it are directories, and there is something. -/
structure Reached (t : FileTree ν) (l : List ν) (ss : List (Step ν)) : Prop where
  above : ∀ p, p <+: ss → p ≠ ss → t.entry (spot l p) = some .dir
  ne_none : t.entry (spot l ss) ≠ none

theorem Extends.refl (t : FileTree ν) : t.Extends t := ⟨fun _ _ h => h, fun _ h => h, rfl⟩

theorem Extends.trans {t'' : FileTree ν} (h : t.Extends t') (h' : t'.Extends t'') : t.Extends t'' :=
  ⟨fun l k hk => h'.kept l k (h.kept l k hk), fun l ho => h.other l (h'.other l ho),
    h'.cwd.trans h.cwd⟩

theorem dirs_of_reached (h : t.Reached l ss) (hdir : t.entry (spot l ss) = some .dir) :
    t.Dirs l ss := by
  intro p hp
  obtain rfl | hne := eq_or_ne p ss
  · exact hdir
  · exact h.above p hp hne

theorem reached_append (h : t.Dirs l ss) (hs : t.entry (spot l (ss ++ [s])) ≠ none) :
    t.Reached l (ss ++ [s]) := by
  refine ⟨fun p hp hne => ?_, hs⟩
  obtain rfl | hp := List.prefix_concat_iff.mp hp
  · exact absurd rfl hne
  · exact h p hp

theorem dirs_of_reached_append (h : t.Reached l (ss ++ [s])) : t.Dirs l ss := by
  intro p hp
  apply h.above p (hp.trans (List.prefix_append ss [s]))
  rintro rfl
  exact absurd hp.length_le (by simp)

theorem Reached.of_extends (h : t.Reached l ss) (hextends : t.Extends t') : t'.Reached l ss := by
  refine ⟨fun p hp hne => hextends.kept _ _ (h.above p hp hne), ?_⟩
  obtain ⟨k, hk⟩ := Option.ne_none_iff_exists'.mp h.ne_none
  rw [hextends.kept _ _ hk]
  exact Option.some_ne_none k

theorem walk_of_other (h : t.Reached l ss) (hother : t.entry (spot l ss) = some .other) :
    t.walk l ss = .error .notDir := by
  cases ss using List.reverseRecOn with
  | nil => exact enter_of_other hother
  | append_singleton p s =>
    rw [walk_append, walk_of_dirs (dirs_of_reached_append h)]
    rw [spot_append] at hother
    exact enter_of_other hother

theorem up_dir (h : t.entry l = some .dir) : t.entry l.dropLast = some .dir := by
  obtain rfl | hne := eq_or_ne l []
  · exact h
  · apply t.parent_dir l.dropLast (l.getLast hne)
    rw [List.dropLast_concat_getLast hne, h]
    exact Option.some_ne_none _

/-- Paths that go on by at most one step, from the first one to the last one. -/
inductive Grows {ν : Type u} : List (Step ν) → List (List (Step ν)) → List (Step ν) → Prop
  | nil {ss : List (Step ν)} : Grows ss [] ss
  | same {ss last : List (Step ν)} {rest : List (List (Step ν))} (h : Grows ss rest last) :
      Grows ss (ss :: rest) last
  | next {ss last : List (Step ν)} {rest : List (List (Step ν))} (s : Step ν)
      (h : Grows (ss ++ [s]) rest last) : Grows ss ((ss ++ [s]) :: rest) last

variable {rest : List (List (Step ν))} {last : List (Step ν)}

theorem Grows.prefix_last (h : Grows ss rest last) : ss <+: last := by
  induction h with
  | nil => exact List.prefix_refl _
  | same h ih => exact ih
  | next s h ih => exact (List.prefix_append _ [s]).trans ih

variable [DecidableEq ν]

theorem entry_addDir {d : List ν} (n : ν) (h : t.entry d = some .dir) :
    (t.addDir d n).entry = Function.update t.entry (d ++ [n]) (some .dir) := by
  rw [addDir, dif_pos h]

theorem cwd_addDir (t : FileTree ν) (d : List ν) (n : ν) : (t.addDir d n).cwd = t.cwd := by
  unfold addDir
  split <;> rfl

theorem cwd_of_mkdir (h : t.mkdir l ss = .ok t') : t'.cwd = t.cwd := by
  unfold mkdir at h
  split at h
  case h_1 => cases h
  case h_2 s hs =>
    cases hwalk : t.walk l ss.dropLast with
    | error e =>
      rw [hwalk] at h
      cases h
    | ok d =>
      rw [hwalk, Except.bind] at h
      split at h
      case h_1 n =>
        split_ifs at h with hfree
        rw [← Except.ok.inj h]
        exact cwd_addDir t d n
      case h_2 => cases h

theorem extends_addDir {d : List ν} {n : ν} (h : t.entry d = some .dir)
    (hfree : t.entry (d ++ [n]) = none) : t.Extends (t.addDir d n) := by
  refine ⟨fun l k hk => ?_, fun l ho => ?_, ?_⟩
  · have hne : l ≠ d ++ [n] := by
      rintro rfl
      rw [hfree] at hk
      cases hk
    rwa [entry_addDir n h, Function.update_of_ne hne]
  · rw [entry_addDir n h] at ho
    obtain rfl | hne := eq_or_ne l (d ++ [n])
    · rw [Function.update_self] at ho
      cases ho
    · rwa [Function.update_of_ne hne] at ho
  · exact cwd_addDir t d n

theorem mkdir_append (t : FileTree ν) (l : List ν) (ss : List (Step ν)) (s : Step ν) :
    t.mkdir l (ss ++ [s]) = (t.walk l ss).bind fun d =>
      match s with
      | .down n => if t.entry (d ++ [n]) = none then .ok (t.addDir d n) else .error .exist
      | _ => .error .exist := by
  rw [mkdir, List.getLast?_concat, List.dropLast_concat]

/-- What has been made exists. -/
theorem mkdir_of_reached (h : t.Reached l ss) : t.mkdir l ss = .error .exist := by
  cases ss using List.reverseRecOn with
  | nil => rfl
  | append_singleton p s =>
    rw [mkdir_append, walk_of_dirs (dirs_of_reached_append h)]
    cases s with
    | here => rfl
    | up => rfl
    | down n =>
      have hne := h.ne_none
      rw [spot_append] at hne
      exact if_neg hne

/-- One step further. -/
theorem mkdir_next (h : t.Reached l ss) (s : Step ν) :
    (t.entry (spot l ss) = some .other ∧ t.mkdir l (ss ++ [s]) = .error .notDir) ∨
    (t.mkdir l (ss ++ [s]) = .error .exist ∧ t.Reached l (ss ++ [s])) ∨
    ∃ t', t.mkdir l (ss ++ [s]) = .ok t' ∧ t.Extends t' ∧ t'.Reached l (ss ++ [s]) := by
  cases hentry : t.entry (spot l ss) with
  | none => exact absurd hentry h.ne_none
  | some k =>
    cases k with
    | other =>
      refine Or.inl ⟨rfl, ?_⟩
      rw [mkdir_append, walk_of_other h hentry]
      rfl
    | dir =>
      right
      have hdirs := dirs_of_reached h hentry
      have hexists : t.entry (spot l (ss ++ [s])) ≠ none →
          t.mkdir l (ss ++ [s]) = .error .exist ∧ t.Reached l (ss ++ [s]) := fun hne =>
        have hreached := reached_append hdirs hne
        ⟨mkdir_of_reached hreached, hreached⟩
      cases hnext : t.entry (spot l (ss ++ [s])) with
      | some k =>
        refine Or.inl (hexists ?_)
        rw [hnext]
        exact Option.some_ne_none k
      | none =>
        -- only a name can be free
        right
        cases s with
        | here =>
          rw [spot_append, move, hentry] at hnext
          cases hnext
        | up =>
          rw [spot_append, move, up_dir hentry] at hnext
          cases hnext
        | down n =>
          have hfree := hnext
          rw [spot_append, move] at hfree
          have hextends := extends_addDir hentry hfree
          refine ⟨t.addDir (spot l ss) n, ?_, hextends, ?_⟩
          · rw [mkdir_append, walk_of_dirs hdirs]
            exact if_pos hfree
          · refine reached_append (fun p hp => hextends.kept _ _ (hdirs p hp)) ?_
            rw [spot_append, move, entry_addDir n hentry, Function.update_self]
            exact Option.some_ne_none _

theorem mkdirAll_exist (h : t.mkdir l ss = .error .exist) (rest : List (List (Step ν))) :
    t.mkdirAll l (ss :: rest) = t.mkdirAll l rest := by
  rw [mkdirAll, h]

theorem mkdirAll_ok (h : t.mkdir l ss = .ok t') (rest : List (List (Step ν))) :
    t.mkdirAll l (ss :: rest) = t'.mkdirAll l rest := by
  rw [mkdirAll, h]

theorem mkdirAll_notDir (h : t.mkdir l ss = .error .notDir) (rest : List (List (Step ν))) :
    t.mkdirAll l (ss :: rest) = (some .notDir, t) := by
  rw [mkdirAll, h]

/-- What several calls do that go on from a path that has been made. -/
theorem mkdirAll_spec (hgrows : Grows ss rest last) (h : t.Reached l ss) :
    t.Extends (t.mkdirAll l rest).2 ∧
      (((t.mkdirAll l rest).1 = none ∧ (t.mkdirAll l rest).2.Reached l last) ∨
        ((t.mkdirAll l rest).1 = some .notDir ∧
          ∃ p, p <+: last ∧ p ≠ last ∧ (t.mkdirAll l rest).2.entry (spot l p) = some .other)) := by
  induction hgrows generalizing t with
  | nil => exact ⟨Extends.refl t, Or.inl ⟨rfl, h⟩⟩
  | same hrest ih =>
    rw [mkdirAll_exist (mkdir_of_reached h)]
    exact ih h
  | next s hrest ih =>
    obtain ⟨hother, hmkdir⟩ | ⟨hmkdir, hreached⟩ | ⟨t', hmkdir, hextends, hreached⟩ :=
      mkdir_next h s
    · -- the walk to the new name ends at a file
      rw [mkdirAll_notDir hmkdir]
      have hlast := hrest.prefix_last
      refine ⟨Extends.refl t, Or.inr ⟨rfl, _, (List.prefix_append _ [s]).trans hlast, ?_, hother⟩⟩
      rintro rfl
      exact absurd hlast.length_le (by simp)
    · rw [mkdirAll_exist hmkdir]
      exact ih hreached
    · rw [mkdirAll_ok hmkdir]
      obtain ⟨hextends', hends⟩ := ih hreached
      exact ⟨hextends.trans hextends', hends⟩

/-- The same calls once more do nothing and end in the same way. -/
theorem mkdirAll_again (hgrows : Grows ss rest last) (h : t.Reached l ss) :
    (t.mkdirAll l rest).2.mkdirAll l rest = t.mkdirAll l rest := by
  induction hgrows generalizing t with
  | nil => rfl
  | same hrest ih =>
    have hmade := h.of_extends (mkdirAll_spec hrest h).1
    rw [mkdirAll_exist (mkdir_of_reached h), mkdirAll_exist (mkdir_of_reached hmade)]
    exact ih h
  | next s hrest ih =>
    obtain ⟨-, hmkdir⟩ | ⟨hmkdir, hreached⟩ | ⟨t', hmkdir, -, hreached⟩ := mkdir_next h s
    · rw [mkdirAll_notDir hmkdir]
      exact mkdirAll_notDir hmkdir _
    · have hmade := hreached.of_extends (mkdirAll_spec hrest hreached).1
      rw [mkdirAll_exist hmkdir, mkdirAll_exist (mkdir_of_reached hmade)]
      exact ih hreached
    · have hmade := hreached.of_extends (mkdirAll_spec hrest hreached).1
      rw [mkdirAll_ok hmkdir, mkdirAll_exist (mkdir_of_reached hmade)]
      exact ih hreached

end FileTree

end PerfHound.Lib
