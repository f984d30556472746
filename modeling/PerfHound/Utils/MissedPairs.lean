/-
# Pairs the interval tool misses

A start row and an end row right behind it are an interval. `calc_interval` takes two rows
at a time once it stands on a start row, and drops both if the second one is no end row. It
therefore finds the pair of an end row if it stands on the start row before it, and that
depends on how many start rows there are in front of the end row: of two, the first one
takes the second one away.
-/

import PerfHound.Utils.RowLoop

namespace PerfHound

open Lib Lib.CText Lib.PairScan RecText ScanText RowLoop

namespace MissedPairs

/-- The output rows for all end rows with a start row right before them. -/
def due (f : FloatText) (arg : Interval.Arg) (file : Interval.RecFile) (rows : List Row) :
    List Interval.OutRow :=
  file.numbered 0 ((adjacent arg.isStart arg.isEnd rows).map (printedDelta f))

variable {b : Build} {f : FloatText} {arg : Interval.Arg} {file : Interval.RecFile} {nev : ℕ}
variable {rows : List Row}

variable (f file) in
theorem printed_eq_due_iff :
    file.numbered 0 ((taken arg.isStart arg.isEnd rows).map (printedDelta f)) =
        due f arg file rows ↔ OddRuns arg.isStart arg.isEnd rows := by
  rw [← taken_eq_adjacent_iff]
  constructor
  · intro h
    have hlength := congrArg List.length (file.numbered_injective h)
    rw [List.length_map, List.length_map] at hlength
    exact (taken_sublist_adjacent rows).eq_of_length hlength
  · intro h
    rw [due, h]

/-- **Adjacent pairs.** On the file of a probe, `calc_interval` prints one row for each end
row right behind a start row, exactly when each end row stands behind no start row or an odd
number of them, and the file ends with an even number of start rows. -/
theorem calcInterval_eq_due_iff (b : Build) (f : FloatText) (arg : Interval.Arg)
    (file : Interval.RecFile) (nev : ℕ) (hnev : nev ≤ 12) (recs : List Rec) :
    let rows := recs.map (Row.ofRec nev)
    (calcInterval f arg file (recText b f.print nev rows)).map Prod.snd =
        some (due f arg file rows) ↔
      OddRuns arg.isStart arg.isEnd rows ∧ Even (run arg.isStart rows) := by
  intro rows
  rw [calcInterval_rows hnev length_ev_of_mem, ← printed_eq_due_iff f file,
    ← Nat.not_odd_iff_even, ← held_iff_odd]
  cases held arg.isStart rows with
  | true => simp
  | false => simp [rows]

theorem calcInterval_eq_due_iff_pair :
    let rows := [tagged 1 1 7, tagged 1 2 9].map (Row.ofRec 0)
    (calcInterval onlyZero ⟨1, 1, 1, 2⟩ ⟨"node", 0, 0, []⟩
        (recText ⟨.ts, .x86, .phasm⟩ onlyZero.print 0 rows)).map Prod.snd =
      some (due onlyZero ⟨1, 1, 1, 2⟩ ⟨"node", 0, 0, []⟩ rows) := by
  intro rows
  have hodd : OddRuns (Interval.Arg.isStart ⟨1, 1, 1, 2⟩) (Interval.Arg.isEnd ⟨1, 1, 1, 2⟩) rows :=
    (taken_eq_adjacent_iff rows).mp (by decide)
  have heven : Even (run (Interval.Arg.isStart ⟨1, 1, 1, 2⟩) rows) := by decide
  exact (calcInterval_eq_due_iff ⟨.ts, .x86, .phasm⟩ onlyZero ⟨1, 1, 1, 2⟩ ⟨"node", 0, 0, []⟩ 0
    (by decide) [tagged 1 1 7, tagged 1 2 9]).mpr ⟨hodd, heven⟩

/-- A start row behind an unfinished one loses its pair. -/
theorem second_start_row_missed :
    let rows := [tagged 1 1 5, tagged 1 1 7, tagged 1 2 9].map (Row.ofRec 0)
    let printed := (calcInterval onlyZero ⟨1, 1, 1, 2⟩ ⟨"node", 0, 0, []⟩
      (recText ⟨.ts, .x86, .phasm⟩ onlyZero.print 0 rows)).map Prod.snd
    printed = some [] ∧
      due onlyZero ⟨1, 1, 1, 2⟩ ⟨"node", 0, 0, []⟩ rows =
        [⟨0, "node", 0, 0, ⟨2, 0, Double.zero, []⟩⟩] ∧
      printed ≠ some (due onlyZero ⟨1, 1, 1, 2⟩ ⟨"node", 0, 0, []⟩ rows) := by
  intro rows printed
  have hprinted : printed = some [] := calcInterval_rows (by decide) (by decide)
  have hdue : due onlyZero ⟨1, 1, 1, 2⟩ ⟨"node", 0, 0, []⟩ rows =
      [⟨0, "node", 0, 0, ⟨2, 0, Double.zero, []⟩⟩] := rfl
  refine ⟨hprinted, hdue, ?_⟩
  rw [hprinted, hdue]
  exact fun h => by cases h

end MissedPairs

end PerfHound
