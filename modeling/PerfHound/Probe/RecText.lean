/-
# The text of a record file

`ph_io_mkrec` writes the header of a record file and `ph_io_wtrec` its rows. A row is
the tags, the cycle, the time, `uval` and one field for each registered event. The
counters are printed as unsigned numbers, in a PAPI build as signed ones.

How `%f` writes a `double` is a parameter. What a reader may rely on is in `FloatText`.
-/

import PerfHound.Lib.Decimal
import PerfHound.Probe.Events

namespace PerfHound

open Lib Lib.CText

namespace RecText

/-- `%f`, and the `strtod` that reads its output. -/
structure FloatText where
  /-- `%f`. -/
  print : Double → List Char
  strtod : List Char → Double × List Char
  /-- The number `strtod` makes of what `%f` prints. -/
  reread : Double → Double
  print_ne_nil : ∀ u, print u ≠ []
  newline_not_mem : ∀ u, '\n' ∉ print u
  /-- In front of a comma or the end of a line the output of `%f` is read whole. -/
  strtod_print : ∀ u c rest, c = ',' ∨ c = '\n' →
    strtod (print u ++ c :: rest) = (reread u, c :: rest)

/-- `%llu`, and `%lld` in a PAPI build. -/
def int64Text (b : Build) (v : U64) : List Char :=
  match b.api with
  | .papi => signedDecimal v.toInt
  | .phasm => decimal v.toNat

/-- The header `ph_io_mkrec` writes. -/
def headerText (nev : ℕ) : List Char :=
  "gid,pid,cycle,nanosec,uval".toList ++
    ((List.range nev).flatMap fun i => ",ev".toList ++ decimal (i + 1)) ++ ['\n']

/-- The event fields of a row, each with the comma before it. -/
def evText (b : Build) (ev : List U64) : List Char := ev.flatMap fun v => ',' :: int64Text b v

variable (b : Build) (print : Double → List Char)

/-- The part of a row behind its tags. -/
def valuesText (r : Row) : List Char :=
  ',' :: (int64Text b r.cy ++ ',' :: (int64Text b r.ns ++ ',' :: (print r.uval ++ evText b r.ev)))

/-- A row as `ph_io_wtrec` prints it. -/
def rowText (r : Row) : List Char :=
  decimal r.gid.toNat ++ ',' :: (decimal r.pid.toNat ++ (valuesText b print r ++ ['\n']))

/-- A record file. -/
def recText (nev : ℕ) (rows : List Row) : List Char :=
  headerText nev ++ rows.flatMap (rowText b print)

variable {b}

/-! ## Fields -/

theorem noDigit_comma (s : List Char) : NoDigit (',' :: s) := noDigit_cons (by decide) s

theorem noDigit_newline (s : List Char) : NoDigit ('\n' :: s) := noDigit_cons (by decide) s

theorem length_int64Text_pos (v : U64) : 0 < (int64Text b v).length := by
  cases hapi : b.api with
  | papi => simpa only [int64Text, hapi] using length_signedDecimal_pos v.toInt
  | phasm => simpa only [int64Text, hapi] using List.length_pos_iff.mpr (decimal_ne_nil v.toNat)

theorem newline_not_mem_decimal (n : ℕ) : '\n' ∉ decimal n := fun hmem =>
  absurd (isdigit_of_mem_decimal hmem) (by decide)

theorem newline_not_mem_int64Text (v : U64) : '\n' ∉ int64Text b v := by
  intro hmem
  cases hapi : b.api with
  | papi =>
      simp only [int64Text, hapi] at hmem
      rcases mem_signedDecimal hmem with hdigit | hminus
      · exact absurd hdigit (by decide)
      · exact absurd hminus (by decide)
  | phasm =>
      simp only [int64Text, hapi] at hmem
      exact newline_not_mem_decimal _ hmem

/-- `strtoull` reads a printed counter back, signed or not. -/
theorem strtoullTen_int64Text (v : U64) {rest : List Char} (hrest : NoDigit rest) :
    strtoullTen (int64Text b v ++ rest) = (v, rest) := by
  cases hapi : b.api with
  | papi => simpa only [int64Text, hapi] using strtoullTen_signedDecimal hrest
  | phasm => simpa only [int64Text, hapi] using strtoullTen_decimal hrest

theorem int64Text_append_inj {v w : U64} {s t : List Char} (hs : NoDigit s) (ht : NoDigit t)
    (h : int64Text b v ++ s = int64Text b w ++ t) : v = w ∧ s = t := by
  have heq : strtoullTen (int64Text b v ++ s) = strtoullTen (int64Text b w ++ t) := by rw [h]
  rw [strtoullTen_int64Text v hs, strtoullTen_int64Text w ht, Prod.mk.injEq] at heq
  exact heq

theorem noDigit_evText (ev : List U64) (s : List Char) : NoDigit (evText b ev ++ '\n' :: s) := by
  cases ev with
  | nil => exact noDigit_newline s
  | cons v ev => exact noDigit_comma _

/-- The event fields of a row, up to the end of the line, determine the events. -/
theorem evText_append_inj {ev ev' : List U64} {s t : List Char}
    (hlen : ev.length = ev'.length) (h : evText b ev ++ '\n' :: s = evText b ev' ++ '\n' :: t) :
    ev = ev' := by
  induction ev generalizing ev' with
  | nil => exact (List.eq_nil_of_length_eq_zero hlen.symm).symm
  | cons v ev ih =>
      obtain ⟨w, ev', rfl⟩ : ∃ w rest, ev' = w :: rest :=
        List.exists_cons_of_length_pos (by rw [← hlen]; exact Nat.zero_lt_succ _)
      simp only [evText, List.flatMap_cons, List.cons_append, List.append_assoc,
        List.cons.injEq, true_and] at h
      obtain ⟨rfl, hrest⟩ := int64Text_append_inj (noDigit_evText ev s) (noDigit_evText ev' t) h
      rw [ih (Nat.succ.inj hlen) hrest]

/-- A row is at least as long as one character for each comma and each field asks. -/
theorem le_length_valuesText {r : Row} (hprint : print r.uval ≠ []) :
    5 + 2 * r.ev.length < (valuesText b print r).length := by
  have hev : ∀ ev : List U64, 2 * ev.length ≤ (evText b ev).length := by
    intro ev
    induction ev with
    | nil => exact Nat.le_refl 0
    | cons v ev ih =>
        have hv := length_int64Text_pos (b := b) v
        simp only [evText, List.flatMap_cons, List.cons_append, List.length_cons,
          List.length_append] at ih ⊢
        omega
  have hevents := hev r.ev
  have hcy := length_int64Text_pos (b := b) r.cy
  have hns := length_int64Text_pos (b := b) r.ns
  have huval := List.length_pos_iff.mpr hprint
  simp only [valuesText, List.length_cons, List.length_append]
  omega

theorem newline_not_mem_valuesText {r : Row} (hprint : '\n' ∉ print r.uval) :
    '\n' ∉ valuesText b print r := by
  have hcomma : '\n' ≠ ',' := by decide
  simp only [valuesText, evText, List.mem_cons, List.mem_append, List.mem_flatMap, hcomma,
    newline_not_mem_int64Text, hprint, or_false, and_false, exists_false, not_false_iff]

/-- The first row of a file, up to its `uval`, can be told from its text: two files whose
first rows differ in the cycle or in an event differ. -/
theorem first_row_inj {nev : ℕ} {r r' : Row} {rows rows' : List Row}
    (h : recText b print nev (r :: rows) = recText b print nev (r' :: rows'))
    (hgid : r.gid = r'.gid) (hpid : r.pid = r'.pid) (hns : r.ns = r'.ns)
    (huval : r.uval = r'.uval) (hlen : r.ev.length = r'.ev.length) :
    r.cy = r'.cy ∧ r.ev = r'.ev := by
  simp only [recText, rowText, valuesText, List.flatMap_cons, hgid, hpid,
    List.append_cancel_left_eq, List.append_assoc, List.cons_append, List.nil_append,
    List.cons.injEq, true_and] at h
  obtain ⟨hcy, hrest⟩ := int64Text_append_inj (noDigit_comma _) (noDigit_comma _) h
  simp only [hns, huval, List.cons.injEq, true_and, List.append_cancel_left_eq] at hrest
  exact ⟨hcy, evText_append_inj hlen hrest⟩

theorem intercalate_comma (first : List Char) (cells : List (List Char)) :
    [','].intercalate (first :: cells) = first ++ cells.flatMap fun cell => ',' :: cell := by
  induction cells generalizing first with
  | nil => simp
  | cons cell cells ih =>
      rw [List.intercalate_cons_cons, ih, List.flatMap_cons]
      simp

/-- The header is the columns of the file, separated by commas. -/
theorem headerText_eq (nev : ℕ) :
    headerText nev = (",".intercalate (Events.recHeader nev)).toList ++ ['\n'] := by
  have hcells : (Events.recHeader nev).map String.toList =
      "gid".toList :: (["pid", "cycle", "nanosec", "uval"].map String.toList ++
        (List.range nev).map fun i => "ev".toList ++ decimal (i + 1)) := by
    simp [Events.recHeader, Events.scalarColumns, decimal]
  have hjoin : (",".intercalate (Events.recHeader nev)).toList =
      "gid".toList ++ (["pid", "cycle", "nanosec", "uval"].map String.toList ++
        (List.range nev).map fun i => "ev".toList ++ decimal (i + 1)).flatMap (',' :: ·) := by
    rw [String.toList_intercalate, hcells]
    exact intercalate_comma _ _
  unfold headerText
  simp [hjoin, List.flatMap_map]

end RecText

end PerfHound
