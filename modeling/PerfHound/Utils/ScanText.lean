/-
# The interval tool on the text of a record file

`calc_interval` works on the characters of a record file. It follows a pointer: the
numeric functions move it behind the field they read, and a row it does not need is
left by a jump of `5+2*nev` characters and a search for the next newline. A jump that
overshoots the newline would drop the next row.

The model keeps the text from the pointer on, and returns next to the output rows a
`Visit` for each row at which the tool has read tags. `Interval` runs the same loop on
a list of rows, and `scan_recText` says that on a file the probe has printed both agree.
-/

import PerfHound.Probe.RecText
import PerfHound.Utils.Interval

namespace PerfHound

open Lib Lib.CText RecText

namespace ScanText

/-! ## The scan -/

/-- `p + n`. There is nothing behind the end of the text. -/
def advance (n : ℕ) (p : List Char) : Option (List Char) :=
  if n ≤ p.length then some (p.drop n) else none

def stepTo (ch : Char) (p : List Char) : List Char := p.dropWhile (· ≠ ch)

/-- `(int)strtol(pst+1, &pst, 10)`. -/
def readTag (pst : List Char) : Option (U32 × List Char) := do
  let p ← advance 1 pst
  let (n, p) := strtol p
  return (BitVec.ofInt 32 n, p)

/-- `strtoull(pst+1, &pst, 10)`. -/
def readCount (pst : List Char) : Option (U64 × List Char) := do
  let p ← advance 1 pst
  return strtoullTen p

/-- The loop over `evs`. -/
def readEvs : ℕ → List Char → Option (List U64 × List Char)
  | 0, pst => some ([], pst)
  | n + 1, pst => do
      let (v, pst) ← readCount pst
      let (evs, pst) ← readEvs n pst
      return (v :: evs, pst)

/-- The fields of a row behind its tags. -/
structure Values where
  cy : U64
  ns : U64
  uval : Double
  evs : List U64
  deriving DecidableEq, Repr

/-- What the tool has read at one row. -/
structure Visit where
  /-- The text at the first character of the row. -/
  start : List Char
  gid : U32
  pid : U32
  /-- The other fields, where they have been extracted. -/
  values : Option Values
  deriving DecidableEq, Repr

/-- `evs[12]` bounds the number of events. -/
def readValues (f : FloatText) (nev : ℕ) (pst : List Char) : Option (Values × List Char) := do
  let (cy, pst) ← readCount pst
  let (ns, pst) ← readCount pst
  let p ← advance 1 pst
  let (uval, pst) := f.strtod p
  let (evs, pst) ← if nev ≤ 12 then readEvs nev pst else none
  return (⟨cy, ns, uval, evs⟩, pst)

/-- `step_to(pst+5+2*nev, '\n', &pst)`. -/
def skipRow (nev : ℕ) (pst : List Char) : Option (List Char) := do
  let p ← advance (5 + 2 * nev) pst
  return stepTo '\n' p

/-- The tags of the row behind the pointer. -/
def readTags (pst : List Char) : Option (Visit × List Char) := do
  let (gid, p) ← readTag pst
  let (pid, p) ← readTag p
  return (⟨pst.tail, gid, pid, none⟩, p)

def Visit.isStart (arg : Interval.Arg) (v : Visit) : Bool := v.gid == arg.sgid && v.pid == arg.spid

def Visit.isEnd (arg : Interval.Arg) (v : Visit) : Bool := v.gid == arg.egid && v.pid == arg.epid

/-- The differences of a pair. -/
def Values.delta (s e : Values) : Interval.Delta where
  cy := e.cy - s.cy
  ns := e.ns - s.ns
  uval := s.uval
  ev := List.zipWith (· - ·) e.evs s.evs

variable (f : FloatText) (arg : Interval.Arg) (file : Interval.RecFile) (nev : ℕ)

/-- The main loop, with at most `fuel` rounds: `while (*(pst+1))`. Of the record file only
its name matters here. -/
def scan : ℕ → ℕ → List Char → Option (List Visit × List Interval.OutRow)
  | 0, _, _ => none
  | fuel + 1, id, pst => do
      let p ← advance 1 pst
      if p.isEmpty then return ([], [])
      else
        let (v, pst) ← readTags pst
        if !v.isStart arg then
          let pst ← skipRow nev pst
          let (visits, out) ← scan fuel id pst
          return (v :: visits, out)
        else
          let (values, pst) ← readValues f nev pst
          let v := { v with values := some values }
          let (w, pst) ← readTags pst
          if !w.isEnd arg then
            let pst ← skipRow nev pst
            let (visits, out) ← scan fuel id pst
            return (v :: w :: visits, out)
          else
            let (values', pst) ← readValues f nev pst
            let w := { w with values := some values' }
            let (visits, out) ← scan fuel (id + 1) pst
            return (v :: w :: visits, file.outRow id (values.delta values') :: out)

/-- The number of columns, from the first line. -/
def countColumns (text : List Char) : Option ℕ :=
  if '\n' ∈ text then some ((text.takeWhile (· ≠ '\n')).count ',' + 1) else none

/-- `nev = ncol - 5`. -/
def countEvents (text : List Char) : Option ℕ := do
  let ncol ← countColumns text
  if 5 ≤ ncol then some (ncol - 5) else none

/-- `calc_interval` on the text of one file. The pointer moves on in every round. -/
def scanFile (text : List Char) : Option (List Visit × List Interval.OutRow) :=
  scan f arg file nev (text.length + 1) 0 (stepTo '\n' text)

/-- `calc_interval` on its first file, whose columns it counts. -/
def calcInterval (text : List Char) : Option (List Visit × List Interval.OutRow) := do
  let nev ← countEvents text
  scanFile f arg file nev text

/-! ## One row -/

variable {f arg file nev} {b : Build} {rest : List Char}

@[simp]
theorem advance_one (c : Char) (p : List Char) : advance 1 (c :: p) = some p := by
  simp [advance]

theorem readTag_decimal (c : Char) (tag : U32) (hrest : NoDigit rest) :
    readTag (c :: (decimal tag.toNat ++ rest)) = some (tag, rest) := by
  have hlong : tag.toNat < 2 ^ 63 := lt_trans tag.isLt (by decide)
  simp [readTag, strtol_decimal hlong hrest]

theorem readTags_rowText (c : Char) (r : Row) :
    readTags (c :: (rowText b f.print r ++ rest)) =
      some (⟨rowText b f.print r ++ rest, r.gid, r.pid, none⟩,
        valuesText b f.print r ++ '\n' :: rest) := by
  have hgid : ∀ p, readTag (c :: (decimal r.gid.toNat ++ ',' :: p)) = some (r.gid, ',' :: p) :=
    fun p => readTag_decimal c r.gid (noDigit_comma p)
  have hpid : ∀ p, readTag (',' :: (decimal r.pid.toNat ++ ',' :: p)) = some (r.pid, ',' :: p) :=
    fun p => readTag_decimal ',' r.pid (noDigit_comma p)
  simp [readTags, rowText, valuesText, hgid, hpid]

theorem readCount_int64Text (c : Char) (v : U64) (hrest : NoDigit rest) :
    readCount (c :: (int64Text b v ++ rest)) = some (v, rest) := by
  simp [readCount, strtoullTen_int64Text v hrest]

theorem readEvs_evText (ev : List U64) :
    readEvs ev.length (evText b ev ++ '\n' :: rest) = some (ev, '\n' :: rest) := by
  induction ev with
  | nil => rfl
  | cons v ev ih =>
      have hv := readCount_int64Text (b := b) ',' v (noDigit_evText (b := b) ev rest)
      have hrow : evText b (v :: ev) ++ '\n' :: rest =
          ',' :: (int64Text b v ++ (evText b ev ++ '\n' :: rest)) := by simp [evText]
      simp [readEvs, hrow, hv, ih]

theorem strtod_evText (u : Double) (ev : List U64) :
    f.strtod (f.print u ++ (evText b ev ++ '\n' :: rest)) =
      (f.reread u, evText b ev ++ '\n' :: rest) := by
  cases ev with
  | nil => exact f.strtod_print u '\n' rest (Or.inr rfl)
  | cons v ev => exact f.strtod_print u ',' _ (Or.inl rfl)

/-- The fields of a row behind its tags, as they are read. -/
def valuesOf (f : FloatText) (r : Row) : Values := ⟨r.cy, r.ns, f.reread r.uval, r.ev⟩

variable (rest) in
/-- The fields of a printed row, up to the newline. -/
theorem readValues_valuesText (r : Row) (hnev : r.ev.length ≤ 12) :
    readValues f r.ev.length (valuesText b f.print r ++ '\n' :: rest) =
      some (valuesOf f r, '\n' :: rest) := by
  have hcount : ∀ v p, readCount (',' :: (int64Text b v ++ ',' :: p)) = some (v, ',' :: p) :=
    fun v p => readCount_int64Text ',' v (noDigit_comma p)
  simp [readValues, valuesText, hcount, strtod_evText, hnev, readEvs_evText, valuesOf]

/-- A search for the end of a line. -/
theorem stepTo_newline {line : List Char} (hline : ∀ c ∈ line, c ≠ '\n') :
    stepTo '\n' (line ++ '\n' :: rest) = '\n' :: rest := by
  rw [stepTo, List.dropWhile_append_of_pos (by simpa using hline)]
  simp

variable (rest) in
/-- The jump of `5+2*nev` characters stays in front of the newline, so the search finds
the one that ends the row. -/
theorem skipRow_valuesText (r : Row) :
    skipRow r.ev.length (valuesText b f.print r ++ '\n' :: rest) = some ('\n' :: rest) := by
  have hshort := le_length_valuesText (b := b) f.print (f.print_ne_nil r.uval)
  have hline : ∀ c ∈ (valuesText b f.print r).drop (5 + 2 * r.ev.length), c ≠ '\n' := by
    rintro c hc rfl
    exact newline_not_mem_valuesText f.print (f.newline_not_mem r.uval) (List.mem_of_mem_drop hc)
  have hinside : advance (5 + 2 * r.ev.length) (valuesText b f.print r ++ '\n' :: rest) =
      some ((valuesText b f.print r).drop (5 + 2 * r.ev.length) ++ '\n' :: rest) := by
    rw [advance, if_pos (by rw [List.length_append]; omega),
      List.drop_append_of_le_length hshort.le]
  rw [skipRow, hinside]
  exact congrArg some (stepTo_newline hline)

/-! ## Whole files -/

/-- The data rows of a record file. -/
def rowsText (b : Build) (f : FloatText) (rows : List Row) : List Char :=
  rows.flatMap (rowText b f.print)

theorem rowsText_cons (b : Build) (f : FloatText) (r : Row) (rows : List Row) :
    rowsText b f (r :: rows) = rowText b f.print r ++ rowsText b f rows := List.flatMap_cons

theorem rowsText_cons_ne_nil (b : Build) (f : FloatText) (r : Row) (rows : List Row) :
    rowsText b f (r :: rows) ≠ [] := by
  obtain ⟨c, cs, hdigits⟩ := decimal_eq_cons r.gid.toNat
  simp [rowsText, rowText, hdigits]

/-- The visits read the rows of a printed text one by one: each starts at the first
character of its row, reads its tags, and where it extracts the other fields, those. -/
inductive Reads (b : Build) (f : FloatText) : List Visit → List Row → Prop
  | nil : Reads b f [] []
  | cons {v : Visit} {r : Row} {visits : List Visit} {rows : List Row}
      (start : v.start = rowsText b f (r :: rows)) (gid : v.gid = r.gid)
      (pid : v.pid = r.pid)
      (values : ∀ w ∈ v.values, w = valuesOf f r)
      (rest : Reads b f visits rows) : Reads b f (v :: visits) (r :: rows)

/-- The record of a row as the tool reads it: `uval` lost all but its printed decimals. -/
def reread (f : FloatText) (r : Row) : Row := { r with uval := f.reread r.uval }

variable {fuel id : ℕ} {r s e : Row} {rows : List Row}

/-- The visit at a row that is followed by `rows`. -/
def visit (b : Build) (f : FloatText) (r : Row) (rows : List Row) (values : Option Values) :
    Visit :=
  ⟨rowsText b f (r :: rows), r.gid, r.pid, values⟩

theorem readTags_row (b : Build) (f : FloatText) (r : Row) (rows : List Row) :
    readTags ('\n' :: rowsText b f (r :: rows)) =
      some (visit b f r rows none, valuesText b f.print r ++ '\n' :: rowsText b f rows) := by
  rw [rowsText_cons, readTags_rowText]
  rfl

theorem Reads.cons_visit {values : Option Values} {visits : List Visit}
    (hvalues : ∀ w ∈ values, w = valuesOf f r) (h : Reads b f visits rows) :
    Reads b f (visit b f r rows values :: visits) (r :: rows) :=
  Reads.cons rfl rfl rfl hvalues h

/-- A row that is no start row is skipped. -/
theorem scan_skip (hnev : r.ev.length = nev) (hr : arg.isStart r = false) :
    scan f arg file nev (fuel + 1) id ('\n' :: rowsText b f (r :: rows)) =
      (scan f arg file nev fuel id ('\n' :: rowsText b f rows)).map fun x =>
        (visit b f r rows none :: x.1, x.2) := by
  have hskip := skipRow_valuesText (b := b) (f := f) (rowsText b f rows) r
  have hstart : (visit b f r rows none).isStart arg = false := hr
  rw [hnev] at hskip
  simp [scan, rowsText_cons_ne_nil, readTags_row, hstart, hskip, Option.map_eq_bind]

/-- A start row takes a row that is no end row with it. -/
theorem scan_broken (hnev : s.ev.length = nev) (hmax : nev ≤ 12) (hnev' : e.ev.length = nev)
    (hs : arg.isStart s = true) (he : arg.isEnd e = false) :
    scan f arg file nev (fuel + 1) id ('\n' :: rowsText b f (s :: e :: rows)) =
      (scan f arg file nev fuel id ('\n' :: rowsText b f rows)).map fun x =>
        (visit b f s (e :: rows) (some (valuesOf f s)) :: visit b f e rows none :: x.1, x.2) := by
  have hskip := skipRow_valuesText (b := b) (f := f) (rowsText b f rows) e
  have hvalues := readValues_valuesText (b := b) (f := f) (rowsText b f (e :: rows)) s
    (by omega)
  have hstart : (visit b f s (e :: rows) none).isStart arg = true := hs
  have hend : (visit b f e rows none).isEnd arg = false := he
  rw [hnev'] at hskip
  rw [hnev] at hvalues
  simp [scan, rowsText_cons_ne_nil, readTags_row, hstart, hvalues, hend, hskip,
    Option.map_eq_bind]
  rfl

/-- A start row and an end row behind it give an output row. -/
theorem scan_pair (hnev : s.ev.length = nev) (hmax : nev ≤ 12) (hnev' : e.ev.length = nev)
    (hs : arg.isStart s = true) (he : arg.isEnd e = true) :
    scan f arg file nev (fuel + 1) id ('\n' :: rowsText b f (s :: e :: rows)) =
      (scan f arg file nev fuel (id + 1) ('\n' :: rowsText b f rows)).map fun x =>
        (visit b f s (e :: rows) (some (valuesOf f s)) ::
          visit b f e rows (some (valuesOf f e)) :: x.1,
        file.outRow id ((valuesOf f s).delta (valuesOf f e)) :: x.2) := by
  have hvalues := readValues_valuesText (b := b) (f := f) (rowsText b f (e :: rows)) s
    (by omega)
  have hvalues' := readValues_valuesText (b := b) (f := f) (rowsText b f rows) e (by omega)
  have hstart : (visit b f s (e :: rows) none).isStart arg = true := hs
  have hend : (visit b f e rows none).isEnd arg = true := he
  rw [hnev'] at hvalues'
  rw [hnev] at hvalues
  simp [scan, rowsText_cons_ne_nil, readTags_row, hstart, hvalues, hend, hvalues',
    Option.map_eq_bind]
  rfl

/-- A start row in the last line: the next tags would be read behind the end of the text. -/
theorem scan_last (hnev : s.ev.length = nev) (hmax : nev ≤ 12) (hs : arg.isStart s = true) :
    scan f arg file nev (fuel + 1) id ('\n' :: rowsText b f [s]) = none := by
  have hvalues := readValues_valuesText (b := b) (f := f) (rowsText b f []) s (by omega)
  have hstart : (visit b f s [] none).isStart arg = true := hs
  have hend : readTags ('\n' :: rowsText b f []) = none := rfl
  rw [hnev] at hvalues
  simp [scan, rowsText_cons_ne_nil, readTags_row, hstart, hvalues, hend]

/-- The scan of the printed rows reads each of them, and its output is that of the scan of
the rows themselves; or both run past the end. -/
def Agrees (b : Build) (f : FloatText) (arg : Interval.Arg) (file : Interval.RecFile)
    (nev fuel id : ℕ) (rows : List Row) : Prop :=
  Option.Rel (fun x out => Reads b f x.1 rows ∧ x.2 = out)
    (scan f arg file nev fuel id ('\n' :: rowsText b f rows))
    (Interval.scan arg file id (rows.map (reread f)))

theorem agrees_skip (hnev : r.ev.length = nev) (hr : arg.isStart r = false)
    (h : Agrees b f arg file nev fuel id rows) :
    Agrees b f arg file nev (fuel + 1) id (r :: rows) := by
  have hr' : arg.isStart (reread f r) = false := hr
  rw [Agrees, scan_skip hnev hr, List.map_cons, Interval.scan_cons_of_not_start hr']
  exact Runs.rel_map_left h fun x out hx => ⟨Reads.cons_visit (by simp) hx.1, hx.2⟩

/-- The run lemma: the recursion is that of the scan of the rows. -/
theorem agrees_rows (hmax : nev ≤ 12) (id : ℕ) (rows : List Row) :
    ∀ fuel, rows.length < fuel → (∀ r ∈ rows, r.ev.length = nev) →
      Agrees b f arg file nev fuel id rows := by
  have hnil : ∀ fuel id, Agrees b f arg file nev (fuel + 1) id [] := fun _ _ =>
    Option.Rel.some ⟨Reads.nil, rfl⟩
  induction id, rows using Interval.scan.induct arg with
  | case1 id =>
      rintro (_ | fuel) hfuel _
      · exact absurd hfuel (Nat.lt_irrefl 0)
      · exact hnil fuel id
  | case2 id r hr =>
      rintro (_ | fuel) hfuel hev
      · exact absurd hfuel (Nat.not_lt_zero _)
      · have hr' : arg.isStart (reread f r) = true := hr
        rw [Agrees, scan_last (hev r List.mem_cons_self) hmax hr]
        simp [Interval.scan, hr']
  | case3 id r hr =>
      rintro (_ | _ | fuel) hfuel hev
      · exact absurd hfuel (Nat.not_lt_zero _)
      · exact absurd hfuel (Nat.lt_irrefl 1)
      · exact agrees_skip (hev r List.mem_cons_self) (by simpa using hr) (hnil fuel id)
  | case4 id s e rest hs he ih =>
      rintro (_ | fuel) hfuel hev
      · exact absurd hfuel (Nat.not_lt_zero _)
      · simp only [List.length_cons, List.forall_mem_cons] at hfuel hev
        have hs' : arg.isStart (reread f s) = true := hs
        have he' : arg.isEnd (reread f e) = true := he
        rw [Agrees, scan_pair hev.1 hmax hev.2.1 hs he]
        simp only [List.map_cons, Interval.scan, hs', he', if_true]
        exact Runs.rel_map (ih fuel (by omega) hev.2.2) fun x out h =>
          ⟨Reads.cons_visit (by simp) (Reads.cons_visit (by simp) h.1), by rw [h.2]; rfl⟩
  | case5 id s e rest hs he ih =>
      rintro (_ | fuel) hfuel hev
      · exact absurd hfuel (Nat.not_lt_zero _)
      · simp only [List.length_cons, List.forall_mem_cons] at hfuel hev
        have hs' : arg.isStart (reread f s) = true := hs
        have hbroken : arg.isEnd e = false := by simpa using he
        have he' : arg.isEnd (reread f e) = false := hbroken
        rw [Agrees, scan_broken hev.1 hmax hev.2.1 hs hbroken]
        simp only [List.map_cons, Interval.scan, hs', he', if_true, Bool.false_eq_true, if_false]
        exact Runs.rel_map_left (ih fuel (by omega) hev.2.2) fun x out h =>
          ⟨Reads.cons_visit (by simp) (Reads.cons_visit (by simp) h.1), h.2⟩
  | case6 id s e rest hs ih =>
      rintro (_ | fuel) hfuel hev
      · exact absurd hfuel (Nat.not_lt_zero _)
      · rw [List.forall_mem_cons] at hev
        exact agrees_skip hev.1 (by simpa using hs)
          (ih fuel (Nat.lt_of_succ_lt_succ hfuel) hev.2)

/-! ### The header -/

theorem not_mem_decimal {c : Char} (hc : isdigit c = false) (n : ℕ) : c ∉ decimal n := by
  intro hmem
  rw [isdigit_of_mem_decimal hmem] at hc
  cases hc

/-- The header is one line, whose commas are four and one more for each event. -/
theorem headerText_line (nev : ℕ) :
    ∃ line, headerText nev = line ++ ['\n'] ∧ '\n' ∉ line ∧ line.count ',' = 4 + nev := by
  unfold headerText
  refine ⟨_, rfl, ?_, ?_⟩
  · have hnewline := not_mem_decimal (c := '\n') (by decide)
    simp [hnewline]
  · have hcell : ∀ i, (",ev".toList ++ decimal (i + 1)).count ',' = 1 := fun i => by
      rw [List.count_append, List.count_eq_zero.mpr (not_mem_decimal (by decide) (i + 1))]
      rfl
    have hcells : (List.range nev).map
        (List.count ',' ∘ fun i => ",ev".toList ++ decimal (i + 1)) =
          (List.range nev).map fun _ => 1 :=
      List.map_congr_left fun i _ => hcell i
    rw [List.count_append, List.count_flatMap, hcells]
    simp

theorem countEvents_recText (b : Build) (f : FloatText) (nev : ℕ) (rows : List Row) :
    countEvents (recText b f.print nev rows) = some nev := by
  obtain ⟨line, hheader, hline, hcount⟩ := headerText_line nev
  have hfirst : (line ++ ['\n'] ++ rows.flatMap (rowText b f.print)).takeWhile (· ≠ '\n') =
      line := by
    rw [List.append_assoc, List.takeWhile_append_of_pos]
    · simp
    · intro c hc
      have hne : c ≠ '\n' := by rintro rfl; exact hline hc
      simpa using hne
  have hcolumns : countColumns (recText b f.print nev rows) = some (5 + nev) := by
    rw [countColumns, recText, hheader, if_pos (by simp), hfirst, hcount]
    exact congrArg some (by omega)
  simp [countEvents, hcolumns]

theorem stepTo_recText (b : Build) (f : FloatText) (nev : ℕ) (rows : List Row) :
    stepTo '\n' (recText b f.print nev rows) = '\n' :: rowsText b f rows := by
  obtain ⟨line, hheader, hline, -⟩ := headerText_line nev
  rw [recText, hheader, List.append_assoc]
  apply stepTo_newline
  rintro c hc rfl
  exact hline hc

theorem length_lt_recText (b : Build) (f : FloatText) (nev : ℕ) (rows : List Row) :
    rows.length < (recText b f.print nev rows).length + 1 := by
  have hrows : rows.length ≤ (rowsText b f rows).length := by
    induction rows with
    | nil => exact Nat.le_refl 0
    | cons r rows ih =>
        obtain ⟨c, cs, hdigits⟩ := decimal_eq_cons r.gid.toNat
        simp only [rowsText_cons, rowText, hdigits, List.length_cons, List.length_append]
        omega
  simp only [recText, List.length_append] at hrows ⊢
  exact Nat.lt_succ_of_le (le_trans hrows (Nat.le_add_left _ _))

variable (arg file) in
/-- The scan of a printed file, with its own number of events. -/
theorem scanFile_recText (hmax : nev ≤ 12) (rows : List Row) (hev : ∀ r ∈ rows, r.ev.length = nev) :
    Option.Rel (fun x out => Reads b f x.1 rows ∧ x.2 = out)
      (scanFile f arg file nev (recText b f.print nev rows))
      (Interval.scan arg file 0 (rows.map (reread f))) := by
  rw [scanFile, stepTo_recText]
  exact agrees_rows hmax 0 rows _ (length_lt_recText b f nev rows) hev

theorem length_ev_of_mem {recs : List Rec} : ∀ r ∈ recs.map (Row.ofRec nev), r.ev.length = nev := by
  intro r hr
  obtain ⟨rec, -, rfl⟩ := List.mem_map.mp hr
  simp [Row.ofRec]

/-- **The record codec.** On the file a probe prints for any list of records, the last of
which does not carry the start tag, the scan of the characters visits the rows one by one
and in order, reads at each the tags of its record and, where it extracts them, the
cycle, the time and the events; and its output is that of the scan of the records. -/
theorem calcInterval_recText (b : Build) (f : FloatText) (arg : Interval.Arg) (host : String)
    (rank cpu nev : ℕ) (hnev : nev ≤ 12) (recs : List Rec)
    (hlast : ∀ r ∈ (recs.map (Row.ofRec nev)).getLast?, arg.isStart r = false) :
    let rows := recs.map (Row.ofRec nev)
    let file : Interval.RecFile := ⟨host, rank, cpu, rows.map (reread f)⟩
    ∃ visits out, calcInterval f arg file (recText b f.print nev rows) = some (visits, out) ∧
      Reads b f visits rows ∧ Interval.calcInterval arg file = some out := by
  intro rows file
  have hlast' : ∀ r ∈ file.rows.getLast?, arg.isStart r = false := by
    intro r hr
    rw [List.getLast?_map] at hr
    obtain ⟨last, hmem, rfl⟩ := Option.mem_map.mp hr
    exact hlast last hmem
  have hscan := scanFile_recText (f := f) (b := b) arg file hnev rows
    length_ev_of_mem
  obtain ⟨out, hout⟩ := Option.isSome_iff_exists.mp (Interval.scan_isSome file 0 hlast')
  show ∃ visits out', (countEvents _).bind _ = _ ∧ _
  rw [countEvents_recText, Option.bind_some]
  cases hresult : scanFile f arg file nev (recText b f.print nev rows) with
  | none =>
      rw [hresult, hout] at hscan
      cases hscan
  | some x =>
      rw [hresult, hout] at hscan
      cases hscan with
      | some h => exact ⟨x.1, out, by rw [← h.2], h.1, hout⟩

/-- A reader of `%f` that knows one number. -/
def onlyZero : FloatText where
  print := fun _ => ['0', '.', '0', '0', '0', '0', '0', '0']
  strtod := fun s => (Double.zero, s.drop 8)
  reread := fun _ => Double.zero
  print_ne_nil := fun _ => by decide
  newline_not_mem := fun _ => by decide
  strtod_print := fun _ _ _ _ => rfl

/-- Records whose tags and cycle alone are set. -/
def tagged (gid pid : U32) (cy : U64) : Rec := ⟨gid, pid, cy, 0, Double.zero, fun _ => 0⟩

/-- A pair between rows with other tags, with two events: in a PAPI build one of them is printed
with a sign. -/
def eventRecs : List Rec :=
  [tagged 0 1 3, { tagged 1 1 7 with ev := fun j => if j = 0 then 5 else BitVec.allOnes 64 },
    { tagged 1 2 9 with ev := fun j => if j = 0 then 8 else 1 }, tagged 7 7 12]

theorem calcInterval_recText_events :
    let rows := eventRecs.map (Row.ofRec 2)
    let file : Interval.RecFile := ⟨"node", 0, 0, rows.map (reread onlyZero)⟩
    ∃ visits out, calcInterval onlyZero ⟨1, 1, 1, 2⟩ file
        (recText ⟨.ev, .x86, .papi⟩ onlyZero.print 2 rows) = some (visits, out) ∧
      Reads ⟨.ev, .x86, .papi⟩ onlyZero visits rows ∧
      Interval.calcInterval ⟨1, 1, 1, 2⟩ file = some out ∧ out.map (·.delta.ev) = [[3, 2]] := by
  intro rows file
  obtain ⟨visits, out, hscan, hreads, hout⟩ := calcInterval_recText ⟨.ev, .x86, .papi⟩ onlyZero
    ⟨1, 1, 1, 2⟩ "node" 0 0 2 (by decide) eventRecs (by decide)
  have hevents : (Interval.calcInterval ⟨1, 1, 1, 2⟩ file).map (List.map (·.delta.ev)) =
      some [[3, 2]] := by decide
  refine ⟨visits, out, hscan, hreads, hout, ?_⟩
  have hmap : (some out).map (List.map (·.delta.ev)) = some [[3, 2]] :=
    (congrArg (Option.map (List.map (·.delta.ev))) hout).symm.trans hevents
  exact Option.some.inj hmap

end ScanText

end PerfHound
