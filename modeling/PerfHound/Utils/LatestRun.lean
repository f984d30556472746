/-
# The latest run: `find_latest_run` and `ph_test_find_latest_run`

Whatever jobs share a data root, and however their steps interleave, the run directories get
the numbers 1, 2, … in the order in which they are created, with no gap (`Numbered`). The jobs
may disagree on their directory as in `RunDir`, and may fail; the numbers do not suffer.

The test suite looks for the greatest number among the names, and finds the latest run.
`summarize_run.py` takes the run that comes last in the order of the texts. That is not the run
with the greatest number: `run_9` comes behind `run_10`, and the latest run is found only
while all digits of its number but the last are nines.
-/

import Mathlib.Data.List.DropRight
import PerfHound.Lib.OrderStat
import PerfHound.Lib.TextOrder
import PerfHound.Probe.RunDir

namespace PerfHound

open Lib

namespace RunDir

/-! ## The numbers of the run directories -/

universe uJ uH

variable {J : Type uJ} {H : Type uH} [DecidableEq J]

/-- The run directory that an event creates. -/
def created (s : State J H) (e : Event J) : List ℕ :=
  match s.pc e.proc with
  | .mkfile n => if e.fails = false ∧ s.dirs n = .absent then [n] else []
  | _ => []

/-- There are the run directories from 1 to `n`, and no search has come past the next one. -/
structure Numbered (s : State J H) (n : ℕ) : Prop where
  dirs : ∀ k, s.dirs k ≠ .absent ↔ 0 < k ∧ k ≤ n
  settled : ∀ p k, (s.pc p).runid = some k → 0 < k ∧ k ≤ n + 1
  seen : ∀ p k, s.pc p = .search k → k ≤ n

section

omit [DecidableEq J]

/-- A job that creates a run directory takes the next number. -/
theorem Numbered.next_of_absent {s : State J H} {n k : ℕ} (hs : Numbered s n) (hpos : 0 < k)
    (hle : k ≤ n + 1) (habsent : s.dirs k = .absent) : k = n + 1 := by
  rcases Nat.lt_or_eq_of_le hle with hlt | heq
  · exact absurd habsent ((hs.dirs k).mpr ⟨hpos, Nat.le_of_lt_succ hlt⟩)
  · exact heq

/-- The other processes stay where they are. -/
theorem Numbered.move {s t : State J H} {p : Proc J} {n m : ℕ} (hs : Numbered s n) (hle : n ≤ m)
    (hother : ∀ q, q ≠ p → t.pc q = s.pc q) (hdirs : ∀ k, t.dirs k ≠ .absent ↔ 0 < k ∧ k ≤ m)
    (hsettled : ∀ k, (t.pc p).runid = some k → 0 < k ∧ k ≤ m + 1)
    (hseen : ∀ k, t.pc p = .search k → k ≤ m) : Numbered t m where
  dirs := hdirs
  settled := by
    intro q k hk
    by_cases hq : q = p
    · subst hq
      exact hsettled k hk
    · rw [hother q hq] at hk
      exact (hs.settled q k hk).imp_right fun h => h.trans (Nat.succ_le_succ hle)
  seen := by
    intro q k hk
    by_cases hq : q = p
    · subst hq
      exact hseen k hk
    · rw [hother q hq] at hk
      exact (hs.seen q k hk).trans hle

end

variable [DecidableEq H] {c : Jobs J H}

/-- An event that creates a run directory does so where there was none. -/
theorem dirs_of_created {s t : State J H} {e : Event J} {n : ℕ} (hstep : step c s e = some t)
    (hn : n ∈ created s e) : s.dirs n = .absent ∧ t.dirs n ≠ .absent := by
  cases hpc : s.pc e.proc with
  | mkfile m =>
      simp only [created, hpc] at hn
      by_cases hmade : e.fails = false ∧ s.dirs m = .absent
      · rw [if_pos hmade, List.mem_singleton] at hn
        subst hn
        simp only [step, Option.ite_none_right_eq_some, hmade.1, Bool.false_eq_true, if_false,
          advance, hpc, hmade.2, if_true, Option.some.injEq] at hstep
        obtain ⟨-, rfl⟩ := hstep
        exact ⟨hmade.2, by simp⟩
      · simp [hmade] at hn
  | _ => simp [created, hpc] at hn

theorem created_eq_nil {s t : State J H} {e : Event J} (hstep : step c s e = some t)
    (hdirs : t.dirs = s.dirs) : created s e = [] := by
  rw [List.eq_nil_iff_forall_not_mem]
  intro n hn
  obtain ⟨habsent, hmade⟩ := dirs_of_created hstep hn
  exact hmade (by rw [hdirs, habsent])

/-- **One event** creates no run directory, or the next one. -/
theorem Numbered.step {s t : State J H} {e : Event J} {n : ℕ} (hs : Numbered s n)
    (hstep : step c s e = some t) :
    created s e = [] ∧ Numbered t n ∨ created s e = [n + 1] ∧ Numbered t (n + 1) := by
  obtain ⟨-, heffect, hfails⟩ := step_effect hstep
  cases heffect with
  | quiet h =>
      refine Or.inl ⟨created_eq_nil hstep h.dirs, ?_⟩
      apply hs.move le_rfl fun q hq => (h.other q hq).1
      · simpa only [h.dirs] using hs.dirs
      · exact fun k hk => hs.settled e.proc k (h.runid_of_some hk)
      · intro k hk
        -- the search has found the last directory it looked for, now or before
        rcases Nat.eq_zero_or_pos k with rfl | hpos
        · exact Nat.zero_le n
        · rcases h.seen k hk k hpos le_rfl with hthere | ⟨m, hm, hle⟩
          · exact ((hs.dirs k).mp hthere).2
          · exact hle.trans (hs.seen e.proc m hm)
  | settle nrun hpc habsent ht =>
      subst ht
      refine Or.inl ⟨created_eq_nil hstep rfl, ?_⟩
      apply hs.move (p := e.proc) le_rfl fun q hq => Function.update_of_ne hq _ _
      · exact hs.dirs
      · intro k hk
        simp only [State.goto, Function.update_self, Pc.runid, Option.some.injEq] at hk
        subst hk
        exact ⟨Nat.succ_pos nrun, Nat.succ_le_succ (hs.seen e.proc nrun hpc)⟩
      · simp [State.goto]
  | make k hpc habsent ht =>
      obtain ⟨hpos, hle⟩ := hs.settled e.proc k (by rw [hpc]; rfl)
      obtain rfl : k = n + 1 := hs.next_of_absent hpos hle habsent
      have hruns : e.fails = false := by
        by_contra hfail
        have hdirs := (hfails (by simpa using hfail)).dirs
        rw [ht] at hdirs
        have hmade := congrFun hdirs (n + 1)
        simp [habsent] at hmade
      subst ht
      refine Or.inr ⟨by simp [created, hpc, hruns, habsent], ?_⟩
      apply hs.move (p := e.proc) (Nat.le_succ n) fun q hq => Function.update_of_ne hq _ _
      · intro j
        by_cases hj : j = n + 1
        · subst hj
          simp
        · simp only [Function.update_of_ne hj, hs.dirs j]
          omega
      · intro j hj
        simp only [State.goto, Function.update_self, Pc.runid, Option.some.injEq] at hj
        omega
      · simp [State.goto]

/-- **Every run of any jobs** creates the next run directories, in order. -/
theorem Numbered.run {s t : State J H} {events : List (Event J)} {n : ℕ} (hs : Numbered s n)
    (hrun : Runs.run (RunDir.step c) s events = some t) :
    ∃ m, Runs.emitted (RunDir.step c) created s events = List.range' (n + 1) m ∧
      Numbered t (n + m) := by
  induction events generalizing s n with
  | nil =>
      obtain rfl : s = t := by simpa using hrun
      exact ⟨0, rfl, hs⟩
  | cons e events ih =>
      cases hstep : RunDir.step c s e with
      | none => simp [Runs.run, hstep] at hrun
      | some u =>
          rw [Runs.run_cons hstep] at hrun
          rw [Runs.emitted_cons created hstep]
          rcases hs.step hstep with ⟨hnone, hu⟩ | ⟨hone, hu⟩
          · obtain ⟨m, hemitted, ht⟩ := ih hu hrun
            exact ⟨m, by rw [hnone, hemitted, List.nil_append], ht⟩
          · obtain ⟨m, hemitted, ht⟩ := ih hu hrun
            refine ⟨m + 1, by rw [hone, hemitted, List.range'_succ]; rfl, ?_⟩
            rwa [Nat.add_right_comm] at ht

end RunDir

namespace LatestRun

open CText

/-! ## Paths -/

def join (path name : List Char) : List Char :=
  if name.head? = some '/' then name
  else if path = [] ∨ path.getLast? = some '/' then path ++ name
  else path ++ '/' :: name

/-- What `join` puts in front of a name. -/
def before (path : List Char) : List Char :=
  if path = [] ∨ path.getLast? = some '/' then path else path ++ ['/']

/-- What stands in the data root under a name: a directory, or something else. -/
structure Entry where
  name : List Char
  isDir : Bool
  name_plain : '/' ∉ name

/-- `str.isdigit`. Which characters beyond ASCII are digits is a parameter. -/
def isDigits (beyond : Char → Bool) (s : List Char) : Bool :=
  !s.isEmpty && s.all fun c => isdigit c || beyond c

/-- What the script takes for a run directory. -/
def Entry.IsRun (beyond : Char → Bool) (e : Entry) : Prop :=
  e.isDir = true ∧ ∃ number, e.name = "run_".toList ++ number ∧ isDigits beyond number = true

/-- `sscanf(ent->d_name, "run_%d", &id)`, if it returns 1. -/
def scanRun (name : List Char) : Option ℤ :=
  if "run_".toList.isPrefixOf name ∧ (scanNumeral (name.drop 4)).isSome then
    some (BitVec.ofInt 32 (strtol (name.drop 4)).1).toInt
  else none

def runName (n : ℕ) : List Char := "run_".toList ++ decimal n

/-- The data root as a directory: it has the run directories of a state, and nothing else that
the script takes for one. -/
structure Shows {J : Type uJ} {H : Type uH} (beyond : Char → Bool) (s : RunDir.State J H)
    (root : List Entry) : Prop where
  runs : ∀ n, s.dirs n ≠ .absent → ∃ e ∈ root, e.name = runName n ∧ e.isDir = true
  others : ∀ e ∈ root, e.IsRun beyond → ∃ n, s.dirs n ≠ .absent ∧ e.name = runName n
  numbers : ∀ e ∈ root, ∀ id, scanRun e.name = some id → 0 < id →
    ∃ n, s.dirs n ≠ .absent ∧ e.name = runName n

end LatestRun

end PerfHound
