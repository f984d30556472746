/-
# The row loop of the interval tool, up to where it leaves the text

`ScanText` has a result for the main loop of `calc_interval` only if the loop ends. Here the
loop keeps what it has printed so far, next to how it stands: it has ended, it is still
running, or it has left the text. The end of the text is tested in front of a row, and not
between the two rows of a pair, so a start row in the last line sends the tool behind the
terminating NUL. `finishes_iff` says which files are read safely.
-/

import PerfHound.Lib.PairScan
import PerfHound.Utils.ScanText

namespace PerfHound

open Lib Lib.CText Lib.PairScan RecText ScanText

namespace RowLoop

/-- How the loop stands. -/
inductive Ending
  /-- `*(pst+1)` is the terminating NUL. -/
  | finished
  | running
  /-- A character behind the terminating NUL is read, or an event is put behind `evs`. -/
  | outside
  deriving DecidableEq, Repr

variable (f : FloatText) (arg : Interval.Arg) (file : Interval.RecFile) (nev : ℕ)

/-- One turn of the loop: the differences of the pair it has found, if any, and the pointer
behind the rows it has passed. -/
def turn (pst : List Char) : Option (Option Interval.Delta × List Char) := do
  let (v, pst) ← readTags pst
  if !v.isStart arg then
    let pst ← skipRow nev pst
    return (none, pst)
  else
    let (values, pst) ← readValues f nev pst
    let (w, pst) ← readTags pst
    if !w.isEnd arg then
      let pst ← skipRow nev pst
      return (none, pst)
    else
      let (values', pst) ← readValues f nev pst
      return (some (values.delta values'), pst)

/-- `while (*(pst+1))`, for at most `fuel` turns: the rows printed so far, and how the loop
stands. -/
def rowLoop : ℕ → ℕ → List Char → List Interval.OutRow × Ending
  | 0, _, _ => ([], .running)
  | fuel + 1, id, pst =>
      match advance 1 pst with
      | none => ([], .outside)
      | some [] => ([], .finished)
      | some (_ :: _) =>
          match turn f arg nev pst with
          | none => ([], .outside)
          | some (none, pst) => rowLoop fuel id pst
          | some (some d, pst) =>
              let (out, ending) := rowLoop fuel (id + 1) pst
              (file.outRow id d :: out, ending)

/-- What a loop has printed when it has ended. -/
def result (x : List Interval.OutRow × Ending) : Option (List Interval.OutRow) :=
  if x.2 = .finished then some x.1 else none

variable {f arg file nev} {b : Build} {m n fuel id : ℕ} {pst : List Char}

/-! ## The loop -/

/-- One round of the scan, by what its turn does. -/
theorem scan_succ (fuel id : ℕ) (pst : List Char) :
    (scan f arg file nev (fuel + 1) id pst).map Prod.snd =
      (advance 1 pst).bind fun p => if p.isEmpty then some [] else
        (turn f arg nev pst).bind fun x =>
          match x with
          | (none, pst) => (scan f arg file nev fuel id pst).map Prod.snd
          | (some d, pst) =>
              ((scan f arg file nev fuel (id + 1) pst).map Prod.snd).map
                (file.outRow id d :: ·) := by
  rw [scan, turn]
  cases advance 1 pst with
  | none => rfl
  | some p =>
      simp only [Option.bind_eq_bind, Option.bind_some]
      split
      · rfl
      · cases readTags pst with
        | none => rfl
        | some x =>
            simp only [Option.bind_some]
            split
            · cases skipRow nev x.2 with
              | none => rfl
              | some p => cases h : scan f arg file nev fuel id p <;> simp [h]
            · cases readValues f nev x.2 with
              | none => rfl
              | some y =>
                  simp only [Option.bind_some]
                  cases readTags y.2 with
                  | none => rfl
                  | some z =>
                      simp only [Option.bind_some]
                      split
                      · cases skipRow nev z.2 with
                        | none => rfl
                        | some p => cases h : scan f arg file nev fuel id p <;> simp [h]
                      · cases readValues f nev z.2 with
                        | none => rfl
                        | some w => cases h : scan f arg file nev fuel (id + 1) w.2 <;> simp [h]

/-- The loop that ends is the scan. -/
theorem scan_eq (fuel id : ℕ) (pst : List Char) :
    (scan f arg file nev fuel id pst).map Prod.snd =
      result (rowLoop f arg file nev fuel id pst) := by
  induction fuel generalizing id pst with
  | zero => rfl
  | succ fuel ih =>
      rw [scan_succ, rowLoop]
      cases advance 1 pst with
      | none => rfl
      | some p =>
          cases p with
          | nil => rfl
          | cons c p =>
              simp only [Option.bind_some, List.isEmpty_cons, Bool.false_eq_true, if_false]
              cases turn f arg nev pst with
              | none => rfl
              | some x =>
                  obtain ⟨d | d, pst⟩ := x
                  · exact ih id pst
                  · simp only [Option.bind_some, ih, result]
                    split <;> rfl

variable (f arg file nev) in
/-- What one turn can do: it stops the loop, passes rows, or prints a row. -/
theorem rowLoop_succ (id : ℕ) (pst : List Char) :
    (∃ ending, ∀ fuel, rowLoop f arg file nev (fuel + 1) id pst = ([], ending)) ∨
    (∃ pst', ∀ fuel, rowLoop f arg file nev (fuel + 1) id pst =
      rowLoop f arg file nev fuel id pst') ∨
    ∃ d pst', ∀ fuel, rowLoop f arg file nev (fuel + 1) id pst =
      (file.outRow id d :: (rowLoop f arg file nev fuel (id + 1) pst').1,
        (rowLoop f arg file nev fuel (id + 1) pst').2) := by
  simp only [rowLoop]
  cases advance 1 pst with
  | none => exact Or.inl ⟨.outside, fun _ => rfl⟩
  | some p =>
      cases p with
      | nil => exact Or.inl ⟨.finished, fun _ => rfl⟩
      | cons c p =>
          cases turn f arg nev pst with
          | none => exact Or.inl ⟨.outside, fun _ => rfl⟩
          | some x =>
              obtain ⟨d | d, pst'⟩ := x
              · exact Or.inr (Or.inl ⟨pst', fun _ => rfl⟩)
              · exact Or.inr (Or.inr ⟨d, pst', fun _ => rfl⟩)

/-- A loop that no longer runs stays as it is. -/
theorem rowLoop_of_le (hle : m ≤ n) (h : (rowLoop f arg file nev m id pst).2 ≠ .running) :
    rowLoop f arg file nev n id pst = rowLoop f arg file nev m id pst := by
  induction m generalizing n id pst with
  | zero => exact absurd rfl h
  | succ m ih =>
      obtain ⟨k, rfl⟩ := Nat.exists_eq_add_of_le' hle
      rw [← Nat.add_assoc]
      obtain ⟨ending, hstop⟩ | ⟨pst', hpass⟩ | ⟨d, pst', hprint⟩ :=
        rowLoop_succ f arg file nev id pst
      · rw [hstop, hstop]
      · rw [hpass] at h
        rw [hpass, hpass, ih (Nat.le_add_left m k) h]
      · rw [hprint] at h
        rw [hprint, hprint, ih (Nat.le_add_left m k) h]

variable {r s e : Row} {rows : List Row}

theorem turn_skip (hnev : r.ev.length = nev) (hr : arg.isStart r = false) :
    turn f arg nev ('\n' :: rowsText b f (r :: rows)) = some (none, '\n' :: rowsText b f rows) := by
  have hskip := skipRow_valuesText (b := b) (f := f) (rowsText b f rows) r
  have hstart : (visit b f r rows none).isStart arg = false := hr
  rw [hnev] at hskip
  simp [turn, readTags_row, hstart, hskip]

theorem turn_broken (hmax : nev ≤ 12) (hnev : s.ev.length = nev) (hnev' : e.ev.length = nev)
    (hs : arg.isStart s = true) (he : arg.isEnd e = false) :
    turn f arg nev ('\n' :: rowsText b f (s :: e :: rows)) =
      some (none, '\n' :: rowsText b f rows) := by
  have hskip := skipRow_valuesText (b := b) (f := f) (rowsText b f rows) e
  have hvalues := readValues_valuesText (b := b) (f := f) (rowsText b f (e :: rows)) s (by omega)
  have hstart : (visit b f s (e :: rows) none).isStart arg = true := hs
  have hend : (visit b f e rows none).isEnd arg = false := he
  rw [hnev'] at hskip
  rw [hnev] at hvalues
  simp [turn, readTags_row, hstart, hvalues, hend, hskip]

/-- The differences the tool prints for a pair of rows. -/
def printedDelta (f : FloatText) (p : Row × Row) : Interval.Delta :=
  Interval.delta (reread f p.1) (reread f p.2)

theorem turn_pair (hmax : nev ≤ 12) (hnev : s.ev.length = nev) (hnev' : e.ev.length = nev)
    (hs : arg.isStart s = true) (he : arg.isEnd e = true) :
    turn f arg nev ('\n' :: rowsText b f (s :: e :: rows)) =
      some (some (printedDelta f (s, e)), '\n' :: rowsText b f rows) := by
  have hvalues := readValues_valuesText (b := b) (f := f) (rowsText b f (e :: rows)) s (by omega)
  have hvalues' := readValues_valuesText (b := b) (f := f) (rowsText b f rows) e (by omega)
  have hstart : (visit b f s (e :: rows) none).isStart arg = true := hs
  have hend : (visit b f e rows none).isEnd arg = true := he
  rw [hnev'] at hvalues'
  rw [hnev] at hvalues
  simp [turn, readTags_row, hstart, hvalues, hend, hvalues']
  rfl

/-- A start row in the last line: the next tags would be read behind the end of the text. -/
theorem turn_last (hmax : nev ≤ 12) (hnev : s.ev.length = nev) (hs : arg.isStart s = true) :
    turn f arg nev ('\n' :: rowsText b f [s]) = none := by
  have hvalues := readValues_valuesText (b := b) (f := f) (rowsText b f []) s (by omega)
  have hstart : (visit b f s [] none).isStart arg = true := hs
  have hend : readTags ('\n' :: rowsText b f []) = none := rfl
  rw [hnev] at hvalues
  simp [turn, readTags_row, hstart, hvalues, hend]

/-- The events of a start row do not fit into `evs`. -/
theorem turn_wide (hmax : 12 < nev) (hs : arg.isStart s = true) :
    turn f arg nev ('\n' :: rowsText b f (s :: rows)) = none := by
  have hstart : (visit b f s rows none).isStart arg = true := hs
  have hvalues : ∀ p, readValues f nev p = none := by
    intro p
    simp [readValues, hmax]
  simp [turn, readTags_row, hstart, hvalues]

/-- In front of a row the loop goes on. -/
theorem rowLoop_row (fuel id : ℕ) (r : Row) (rows : List Row) :
    rowLoop f arg file nev (fuel + 1) id ('\n' :: rowsText b f (r :: rows)) =
      match turn f arg nev ('\n' :: rowsText b f (r :: rows)) with
      | none => ([], .outside)
      | some (none, pst) => rowLoop f arg file nev fuel id pst
      | some (some d, pst) =>
          let (out, ending) := rowLoop f arg file nev fuel (id + 1) pst
          (file.outRow id d :: out, ending) := by
  obtain ⟨c, p, hrow⟩ := List.exists_cons_of_ne_nil (rowsText_cons_ne_nil b f r rows)
  rw [rowLoop, advance_one, hrow]

/-! ## All rows -/

variable (b f arg file) in
/-- What the loop does with rows it can read: it prints the pairs it takes, and it leaves
the text behind a start row that is left alone in the last line. -/
theorem rowLoop_rows (hmax : nev ≤ 12) (id : ℕ) (rows : List Row) :
    ∀ fuel, rows.length < fuel → (∀ r ∈ rows, r.ev.length = nev) →
      rowLoop f arg file nev fuel id ('\n' :: rowsText b f rows) =
        (file.numbered id ((taken arg.isStart arg.isEnd rows).map (printedDelta f)),
          if held arg.isStart rows then .outside else .finished) := by
  induction rows using taken.induct arg.isStart arg.isEnd generalizing id with
  | case1 =>
      rintro (_ | fuel) hfuel -
      · cases hfuel
      · rfl
  | case2 r =>
      rintro (_ | _ | fuel) hfuel hev
      · cases hfuel
      · exact absurd hfuel (Nat.lt_irrefl 1)
      · rw [rowLoop_row]
        cases hr : arg.isStart r with
        | true =>
            rw [turn_last hmax (hev r List.mem_cons_self) hr]
            simp [taken, held, hr, Interval.RecFile.numbered]
        | false =>
            rw [turn_skip (hev r List.mem_cons_self) hr]
            simp [taken, held, hr, Interval.RecFile.numbered]
            rfl
  | case3 s e rows hs he ih =>
      rintro (_ | fuel) hfuel hev
      · cases hfuel
      · simp only [List.length_cons, List.forall_mem_cons] at hfuel hev
        rw [rowLoop_row, turn_pair hmax hev.1 hev.2.1 hs he]
        simp only [ih (id + 1) fuel (by omega) hev.2.2]
        simp [taken, held, hs, he, Interval.RecFile.numbered]
  | case4 s e rows hs he ih =>
      rintro (_ | fuel) hfuel hev
      · cases hfuel
      · simp only [List.length_cons, List.forall_mem_cons] at hfuel hev
        rw [rowLoop_row, turn_broken hmax hev.1 hev.2.1 hs (by simpa using he)]
        simp only [ih id fuel (by omega) hev.2.2]
        simp [taken, held, hs, he]
  | case5 r e rows hr ih =>
      rintro (_ | fuel) hfuel hev
      · cases hfuel
      · rw [List.forall_mem_cons] at hev
        rw [rowLoop_row, turn_skip hev.1 (by simpa using hr)]
        simp only [ih id fuel (Nat.lt_of_succ_lt_succ hfuel) hev.2]
        simp [taken, held, hr]

/-- What `calc_interval` prints for the rows of a file. -/
theorem calcInterval_rows (hmax : nev ≤ 12) (hev : ∀ r ∈ rows, r.ev.length = nev) :
    (calcInterval f arg file (recText b f.print nev rows)).map Prod.snd =
      if held arg.isStart rows then none
      else some (file.numbered 0 ((taken arg.isStart arg.isEnd rows).map (printedDelta f))) := by
  rw [calcInterval, countEvents_recText]
  show (scanFile _ _ _ _ _).map Prod.snd = _
  rw [scanFile, stepTo_recText, scan_eq,
    rowLoop_rows _ _ _ _ hmax 0 rows _ (length_lt_recText b f nev rows) hev, result]
  cases held arg.isStart rows <;> rfl

/-- The loop ends when no start row is left alone. -/
theorem exists_finished_iff (hmax : nev ≤ 12) (hev : ∀ r ∈ rows, r.ev.length = nev) :
    (∃ fuel, (rowLoop f arg file nev fuel id ('\n' :: rowsText b f rows)).2 = .finished) ↔
      held arg.isStart rows = false := by
  have hrows := rowLoop_rows f arg file b hmax id rows
  constructor
  · rintro ⟨fuel, hfinished⟩
    have hends : (rowLoop f arg file nev fuel id ('\n' :: rowsText b f rows)).2 ≠ .running := by
      rw [hfinished]
      exact fun h => Ending.noConfusion h
    have hlater := rowLoop_of_le (Nat.le_add_right fuel (rows.length + 1)) hends
    rw [hrows _ (by omega) hev] at hlater
    rw [← hlater] at hfinished
    by_contra hheld
    rw [Bool.not_eq_false] at hheld
    rw [if_pos hheld] at hfinished
    cases hfinished
  · intro hheld
    refine ⟨rows.length + 1, ?_⟩
    rw [hrows _ (Nat.lt_succ_self _) hev, hheld]
    rfl

/-- Rows without a start row are passed over, however many events they have. -/
theorem rowLoop_skip (id : ℕ) (rows : List Row) :
    ∀ fuel, rows.length < fuel → (∀ r ∈ rows, r.ev.length = nev) →
      (∀ r ∈ rows, arg.isStart r = false) →
      rowLoop f arg file nev fuel id ('\n' :: rowsText b f rows) = ([], .finished) := by
  induction rows with
  | nil =>
      rintro (_ | fuel) hfuel - -
      · cases hfuel
      · rfl
  | cons r rows ih =>
      rintro (_ | fuel) hfuel hev hrows
      · cases hfuel
      · rw [List.forall_mem_cons] at hev hrows
        rw [rowLoop_row, turn_skip hev.1 hrows.1]
        exact ih fuel (Nat.lt_of_succ_lt_succ hfuel) hev.2 hrows.2

/-- With more events than `evs` has room for, no file with a start row is read to its end. -/
theorem not_finished_of_wide (hmax : 12 < nev) (id : ℕ) (rows : List Row) :
    ∀ fuel, (∀ r ∈ rows, r.ev.length = nev) → (∃ r ∈ rows, arg.isStart r = true) →
      (rowLoop f arg file nev fuel id ('\n' :: rowsText b f rows)).2 ≠ .finished := by
  induction rows with
  | nil =>
      rintro fuel - ⟨r, hr, -⟩
      cases hr
  | cons r rows ih =>
      rintro (_ | fuel) hev hstart
      · exact fun h => Ending.noConfusion h
      · rw [rowLoop_row]
        cases hr : arg.isStart r with
        | true =>
            rw [turn_wide hmax hr]
            exact fun h => Ending.noConfusion h
        | false =>
            rw [List.forall_mem_cons] at hev
            rw [turn_skip hev.1 hr]
            apply ih fuel hev.2
            obtain ⟨s, hs, hstart⟩ := hstart
            rcases List.mem_cons.mp hs with rfl | hs
            · rw [hr] at hstart
              cases hstart
            · exact ⟨s, hs, hstart⟩

/-- A line of text, without its newline. -/
def Line := { line : List Char // '\n' ∉ line ∧ nul ∉ line }

theorem stepTo_line (line : Line) (rest : List Char) :
    stepTo '\n' (line.1 ++ '\n' :: rest) = '\n' :: rest := by
  apply stepTo_newline
  rintro c hc rfl
  exact line.2.1 hc

/-- **The end of the scan.** On a header line and rows with `nev` events, the row loop ends
without leaving the text exactly when there is no start row, or when `evs` has room for the
events and the file ends with an even number of start rows. -/
theorem finishes_iff (b : Build) (f : FloatText) (arg : Interval.Arg) (file : Interval.RecFile)
    (nev : ℕ) (header : Line) (rows : List Row) (hev : ∀ r ∈ rows, r.ev.length = nev) :
    (∃ fuel, (rowLoop f arg file nev fuel 0
        (stepTo '\n' (header.1 ++ '\n' :: rowsText b f rows))).2 = .finished) ↔
      (∀ r ∈ rows, arg.isStart r = false) ∨ nev ≤ 12 ∧ Even (run arg.isStart rows) := by
  rw [stepTo_line]
  by_cases hstart : ∀ r ∈ rows, arg.isStart r = false
  case pos =>
    refine iff_of_true ⟨rows.length + 1, ?_⟩ (Or.inl hstart)
    rw [rowLoop_skip 0 rows _ (Nat.lt_succ_self _) hev hstart]
  case neg =>
    simp only [hstart, false_or]
    rcases Nat.lt_or_ge 12 nev with hwide | hmax
    · have hsome : ∃ r ∈ rows, arg.isStart r = true := by simpa using hstart
      refine iff_of_false ?_ (fun h => absurd h.1 (Nat.not_le_of_lt hwide))
      rintro ⟨fuel, hfinished⟩
      exact not_finished_of_wide hwide 0 rows fuel hev hsome hfinished
    · rw [exists_finished_iff hmax hev, ← Bool.not_eq_true, held_iff_odd, Nat.not_odd_iff_even]
      exact (and_iff_right hmax).symm

def plainHeader : Line := ⟨"gid,pid,cycle,nanosec,uval".toList, by decide⟩

theorem finishes_iff_pair :
    ∃ fuel, (rowLoop onlyZero ⟨1, 1, 1, 2⟩ ⟨"node", 0, 0, []⟩ 0 fuel 0
      (stepTo '\n' (plainHeader.1 ++ '\n' :: rowsText ⟨.ts, .x86, .phasm⟩ onlyZero
        ([tagged 1 1 7, tagged 1 2 9].map (Row.ofRec 0))))).2 = .finished := by
  have heven : Even (run (Interval.Arg.isStart ⟨1, 1, 1, 2⟩)
      ([tagged 1 1 7, tagged 1 2 9].map (Row.ofRec 0))) := by decide
  exact (finishes_iff ⟨.ts, .x86, .phasm⟩ onlyZero ⟨1, 1, 1, 2⟩ ⟨"node", 0, 0, []⟩ 0 plainHeader
    ([tagged 1 1 7, tagged 1 2 9].map (Row.ofRec 0)) (by decide)).mpr
      (Or.inr ⟨Nat.zero_le 12, heven⟩)

/-- A file cut off behind a start row sends the loop behind its end. -/
theorem last_start_row_leaves_text :
    let text := plainHeader.1 ++ '\n' :: rowsText ⟨.ts, .x86, .phasm⟩ onlyZero
      [Row.ofRec 0 (tagged 1 1 7)]
    let loop := fun fuel =>
      rowLoop onlyZero ⟨1, 1, 1, 2⟩ ⟨"node", 0, 0, []⟩ 0 fuel 0 (stepTo '\n' text)
    (∀ fuel, (loop (fuel + 1)).2 = .outside) ∧ ¬∃ fuel, (loop fuel).2 = .finished := by
  intro text loop
  have hloop : ∀ fuel, (loop (fuel + 1)).2 = .outside := by
    intro fuel
    show (rowLoop _ _ _ _ _ _ (stepTo _ (plainHeader.1 ++ _))).2 = _
    rw [stepTo_line, rowLoop_row, turn_last (by decide) (by decide) (by decide)]
  refine ⟨hloop, ?_⟩
  rintro ⟨fuel | fuel, hfinished⟩
  · cases hfinished
  · rw [hloop fuel] at hfinished
    cases hfinished

end RowLoop

end PerfHound
