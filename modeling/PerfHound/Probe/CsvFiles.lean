/-
# The CSV files of a run

Five kinds of files hold the results of a run. One function writes the header of a file
and another its rows: `ph_io_mkfile` and `ph_io_mkrec` the headers, `ph_io_wtctag` and its
siblings the rows. Each row is given here as it is printed, and beside it the record it
prints: its values under the names of their columns.

In four of the files the two agree, so each file is a table of its records. The header of
`run_info.csv` has a column `npoint` that no row has a field for.
-/

import PerfHound.Lib.Csv
import PerfHound.Probe.HostSetup
import PerfHound.Probe.RecText

namespace PerfHound

open Lib Lib.CText

namespace CsvFiles

/-! ## Numbers -/

/-- A number with at least `w` digits, `%0<w>d`. -/
def padded (w n : ℕ) : List Char := List.replicate (w - (decimal n).length) '0' ++ decimal n

/-- `%llx`. -/
def hexadecimal (v : U64) : List Char := Nat.toDigits 16 v.toNat

/-- `a / b` to the nearest integer, and to the even one of two. -/
def roundEven (a b : ℕ) : ℕ :=
  if b < 2 * (a % b) ∨ 2 * (a % b) = b ∧ a / b % 2 = 1 then a / b + 1 else a / b

/-- `%f` in the C locale: six decimals, correctly rounded. -/
def fixedText (u : Double) : List Char :=
  let sign := if u.bits.msb then ['-'] else []
  let exponent := (u.bits.extractLsb' 52 11).toNat
  let fraction := (u.bits.extractLsb' 0 52).toNat
  if exponent = 2047 then
    sign ++ if fraction = 0 then ['i', 'n', 'f'] else ['n', 'a', 'n']
  else
    -- the number is `n / 2 ^ 1074`
    let n := if exponent = 0 then fraction else (2 ^ 52 + fraction) * 2 ^ (exponent - 1)
    let millionths := roundEven (n * 10 ^ 6) (2 ^ 1074)
    sign ++ decimal (millionths / 10 ^ 6) ++ '.' :: padded 6 (millionths % 10 ^ 6)

example : fixedText (Double.ofU32 3) = "3.000000".toList := by decide +kernel

/-- The fields of `struct tm` that the time stamps use. -/
structure Tm where
  tmYear : ℕ
  tmMon : ℕ
  tmMday : ℕ
  tmHour : ℕ
  tmMin : ℕ
  tmSec : ℕ
  deriving DecidableEq, Repr

/-- `st_timestr` and `en_timestr`. -/
def timestr (lt : Tm) : List Char :=
  padded 4 (lt.tmYear + 1900) ++ padded 2 (lt.tmMon + 1) ++ padded 2 lt.tmMday ++
    'T' :: (padded 2 lt.tmHour ++ padded 2 lt.tmMin ++ padded 2 lt.tmSec)

/-! ## Rows and their records -/

structure CtagRow where
  gid : U32
  pid : U32
  tagstr : String
  deriving DecidableEq, Repr

/-- A row of `run_info.csv`. The total is what `%d` makes of `nrec_tot`. -/
structure Info where
  runid : ℕ
  nrank : ℕ
  nev : ℕ
  nrecTot : ℤ
  started : Tm
  ended : Tm
  deriving DecidableEq, Repr

/-- The header of `run_info.csv`. -/
def infoHeader : List Char :=
  "id,nrank,nevent,ngroup,npoint,start_time,end_time,description\n".toList

def ctagHeader : List Char := "gid,pid,description\n".toList

def etagHeader : List Char := "id,name,code\n".toList

def rankmapHeader : List Char := "rank,hostname,cpu,hosthead,iorank\n".toList

/-- `ph_io_mkfile`, what it makes of `run_info.csv`. -/
def mkInfo (before : List Char) : List Char := if before.length = 0 then infoHeader else before
def wtctag (r : CtagRow) : List Char :=
  decimal r.gid.toNat ++ ',' :: (decimal r.pid.toNat ++ ',' :: (cstr r.tagstr ++ ['\n']))
def wtetag (r : Events.EtagRow) : List Char :=
  decimal r.id ++ ',' :: (cstr r.name ++ ',' :: ('0' :: 'x' :: (hexadecimal r.code ++ ['\n'])))
def wtrankmap (r : HostSetup.RankRow String) : List Char :=
  decimal r.rank ++ ',' :: (cstr r.hostname ++ ',' :: (signedDecimal r.cpu ++
    ',' :: (decimal r.hosthead ++ ',' :: (decimal r.iorank ++ ['\n']))))
def wtinfo (r : Info) : List Char :=
  decimal r.runid ++ ',' :: (decimal r.nrank ++ ',' :: (decimal r.nev ++
    ',' :: (signedDecimal r.nrecTot ++ ',' :: (timestr r.started ++
      ',' :: (timestr r.ended ++ ',' :: ['\n'])))))

def ctagRecord (r : CtagRow) : Csv.Record :=
  [("gid".toList, decimal r.gid.toNat), ("pid".toList, decimal r.pid.toNat),
    ("description".toList, cstr r.tagstr)]

def etagRecord (r : Events.EtagRow) : Csv.Record :=
  [("id".toList, decimal r.id), ("name".toList, cstr r.name),
    ("code".toList, '0' :: 'x' :: hexadecimal r.code)]

def rankmapRecord (r : HostSetup.RankRow String) : Csv.Record :=
  [("rank".toList, decimal r.rank), ("hostname".toList, cstr r.hostname),
    ("cpu".toList, signedDecimal r.cpu), ("hosthead".toList, decimal r.hosthead),
    ("iorank".toList, decimal r.iorank)]

/-- What the documentation lists for `run_info.csv`: `ngroup` is the number of records. -/
def infoRecord (r : Info) : Csv.Record :=
  [("id".toList, decimal r.runid), ("nrank".toList, decimal r.nrank),
    ("nevent".toList, decimal r.nev), ("ngroup".toList, signedDecimal r.nrecTot),
    ("start_time".toList, timestr r.started), ("end_time".toList, timestr r.ended),
    ("description".toList, [])]

/-- The names of the event columns. -/
def evColumns (nev : ℕ) : List Csv.Field :=
  (List.range nev).map fun i => "ev".toList ++ decimal (i + 1)

/-- A row of a record file, as `ph_io_wtrec` prints it in the build `b`. -/
def recRecord (b : Build) (r : Row) : Csv.Record :=
  [("gid".toList, decimal r.gid.toNat), ("pid".toList, decimal r.pid.toNat),
    ("cycle".toList, RecText.int64Text b r.cy), ("nanosec".toList, RecText.int64Text b r.ns),
    ("uval".toList, fixedText r.uval)] ++
  (evColumns r.ev.length).zip (r.ev.map (RecText.int64Text b))

/-! ## Numbers are plain -/

theorem plain_of_isdigit {s : List Char} (h : ∀ c ∈ s, isdigit c = true ∨ c = '-') :
    Csv.Plain s := by
  refine Csv.plain_of_forall fun c hc => ⟨?_, ?_, ?_⟩
  · rintro rfl
    exact absurd (h _ hc) (by decide)
  · rintro rfl
    exact absurd (h _ hc) (by decide)
  · rintro rfl
    exact absurd (h _ hc) (by decide)

theorem plain_decimal (n : ℕ) : Csv.Plain (decimal n) :=
  plain_of_isdigit fun _ hc => .inl (isdigit_of_mem_decimal hc)

theorem plain_signedDecimal (z : ℤ) : Csv.Plain (signedDecimal z) :=
  plain_of_isdigit fun _ hc => mem_signedDecimal hc

theorem plain_int64Text (b : Build) (v : U64) : Csv.Plain (RecText.int64Text b v) := by
  cases hapi : b.api with
  | papi => simpa only [RecText.int64Text, hapi] using plain_signedDecimal v.toInt
  | phasm => simpa only [RecText.int64Text, hapi] using plain_decimal v.toNat

theorem plain_padded (w n : ℕ) : Csv.Plain (padded w n) := by
  refine Csv.plain_append.mpr ⟨plain_of_isdigit fun c hc => .inl ?_, plain_decimal n⟩
  rw [List.eq_of_mem_replicate hc]
  decide

/-- Digits in front of plain text. -/
theorem plain_toDigitsCore (base : ℕ) : ∀ (fuel n : ℕ) {s : List Char}, Csv.Plain s →
    Csv.Plain (Nat.toDigitsCore base fuel n s) := by
  intro fuel
  induction fuel with
  | zero => intro n s hs; exact hs
  | succ fuel ih =>
      intro n s hs
      have hdigit : Csv.Plain [Nat.digitChar (n % base)] := by
        refine Csv.plain_of_forall fun c hc => ?_
        rw [List.mem_singleton.mp hc]
        exact ⟨Nat.digitChar_ne _ (by decide), Nat.digitChar_ne _ (by decide),
          Nat.digitChar_ne _ (by decide)⟩
      have hcons := Csv.plain_append.mpr ⟨hdigit, hs⟩
      rw [Nat.toDigitsCore]
      split
      · exact hcons
      · exact ih _ hcons

theorem plain_hexadecimal (v : U64) : Csv.Plain (hexadecimal v) :=
  plain_toDigitsCore 16 _ _ (by decide)

theorem plain_fixedText (u : Double) : Csv.Plain (fixedText u) := by
  have hsign : Csv.Plain (if u.bits.msb then ['-'] else []) := by
    split <;> decide
  simp only [fixedText]
  split
  · refine Csv.plain_append.mpr ⟨hsign, ?_⟩
    split <;> decide
  · rw [List.append_assoc]
    refine Csv.plain_append.mpr ⟨hsign, Csv.plain_append.mpr ⟨plain_decimal _, ?_⟩⟩
    exact Csv.plain_append.mpr ⟨(by decide : Csv.Plain ['.']), plain_padded 6 _⟩

theorem plain_timestr (lt : Tm) : Csv.Plain (timestr lt) := by
  have hT : Csv.Plain ['T'] := by decide
  simp only [timestr, Csv.plain_append, plain_padded, and_self, true_and]
  rw [← List.singleton_append]
  simp only [Csv.plain_append, plain_padded, hT, and_self]

/-- A string without commas, quotes and newlines is printed as one field. -/
theorem plain_cstr {s : String} (hs : Csv.Plain s.toList) : Csv.Plain (cstr s) := by
  have hsub : ∀ c ∈ cstr s, c ∈ s.toList := fun c hc => (List.takeWhile_sublist _).mem hc
  exact ⟨fun hc => hs.1 (hsub _ hc), fun hc => hs.2.1 (hsub _ hc), fun hc => hs.2.2 (hsub _ hc)⟩

/-! ## Four tables -/

theorem line_cons (first : Csv.Field) (rest : List Csv.Field) :
    Csv.line (first :: rest) = first ++ (rest.flatMap fun f => ',' :: f) ++ ['\n'] := by
  rw [Csv.line, RecText.intercalate_comma]

theorem ctag_rectangular {rows : List CtagRow} (h : ∀ r ∈ rows, Csv.Plain r.tagstr.toList) :
    Csv.Rectangular (ctagHeader ++ rows.flatMap wtctag) (rows.map ctagRecord) := by
  have hheader : ctagHeader = Csv.line ["gid".toList, "pid".toList, "description".toList] := by
    decide
  rw [hheader]
  refine Csv.rectangular_of_rows (List.cons_ne_nil _ _) (by decide) (by decide) fun r hr => ?_
  refine ⟨?_, rfl, ?_⟩
  · simp [wtctag, ctagRecord, line_cons]
  · simp [ctagRecord, plain_decimal, plain_cstr (h r hr)]

theorem etag_rectangular {rows : List Events.EtagRow} (h : ∀ r ∈ rows, Csv.Plain r.name.toList) :
    Csv.Rectangular (etagHeader ++ rows.flatMap wtetag) (rows.map etagRecord) := by
  have hheader : etagHeader = Csv.line ["id".toList, "name".toList, "code".toList] := by decide
  rw [hheader]
  refine Csv.rectangular_of_rows (List.cons_ne_nil _ _) (by decide) (by decide) fun r hr => ?_
  have hcode : Csv.Plain ('0' :: 'x' :: hexadecimal r.code) :=
    Csv.plain_append.mpr ⟨(by decide : Csv.Plain ['0', 'x']), plain_hexadecimal r.code⟩
  refine ⟨?_, rfl, ?_⟩
  · simp [wtetag, etagRecord, line_cons]
  · simp [etagRecord, plain_decimal, plain_cstr (h r hr), hcode]

theorem rankmap_rectangular {rows : List (HostSetup.RankRow String)}
    (h : ∀ r ∈ rows, Csv.Plain r.hostname.toList) :
    Csv.Rectangular (rankmapHeader ++ rows.flatMap wtrankmap) (rows.map rankmapRecord) := by
  have hheader : rankmapHeader = Csv.line ["rank".toList, "hostname".toList, "cpu".toList,
      "hosthead".toList, "iorank".toList] := by
    decide
  rw [hheader]
  refine Csv.rectangular_of_rows (List.cons_ne_nil _ _) (by decide) (by decide) fun r hr => ?_
  refine ⟨?_, rfl, ?_⟩
  · simp [wtrankmap, rankmapRecord, line_cons]
  · simp [rankmapRecord, plain_decimal, plain_signedDecimal, plain_cstr (h r hr)]

/-! ### Record files -/

/-- The columns of a record file. -/
def recColumns (nev : ℕ) : List Csv.Field :=
  ["gid".toList, "pid".toList, "cycle".toList, "nanosec".toList, "uval".toList] ++ evColumns nev

theorem headerText_eq_line (nev : ℕ) : RecText.headerText nev = Csv.line (recColumns nev) := by
  have hscalars : "gid,pid,cycle,nanosec,uval".toList = "gid".toList ++
      (["pid".toList, "cycle".toList, "nanosec".toList, "uval".toList].flatMap
        fun f => ',' :: f) := by
    decide
  have hev : ",ev".toList = ',' :: "ev".toList := by decide
  unfold RecText.headerText
  rw [hscalars, hev, recColumns, evColumns, List.cons_append, line_cons, List.flatMap_append,
    List.flatMap_map, List.append_assoc]
  rfl

/-- The columns of the events have names of their own. -/
theorem nodup_recColumns (nev : ℕ) : (recColumns nev).Nodup := by
  refine List.nodup_append'.mpr ⟨by decide, ?_, ?_⟩
  · refine List.Nodup.map (fun i j h => ?_) List.nodup_range
    have hdigits : decimal (i + 1) = decimal (j + 1) := List.append_cancel_left h
    exact Nat.succ.inj (decimal_injective hdigits)
  · intro name hscalar hev
    obtain ⟨i, -, rfl⟩ := List.mem_map.mp hev
    simp [decimal] at hscalar

theorem plain_evColumns {nev : ℕ} {name : Csv.Field} (h : name ∈ evColumns nev) :
    Csv.Plain name := by
  obtain ⟨i, -, rfl⟩ := List.mem_map.mp h
  exact Csv.plain_append.mpr ⟨by decide, plain_decimal _⟩

theorem plain_recColumns (nev : ℕ) : ∀ name ∈ recColumns nev, Csv.Plain name := by
  intro name hname
  have hscalars : ∀ f ∈ ["gid".toList, "pid".toList, "cycle".toList, "nanosec".toList,
      "uval".toList], Csv.Plain f := by
    decide
  rcases List.mem_append.mp hname with hscalar | hev
  · exact hscalars name hscalar
  · exact plain_evColumns hev

/-- A record file whose rows have the events the header announces. -/
theorem rec_rectangular (b : Build) {nev : ℕ} {rows : List Row}
    (h : ∀ r ∈ rows, r.ev.length = nev) :
    Csv.Rectangular (RecText.recText b fixedText nev rows) (rows.map (recRecord b)) := by
  rw [RecText.recText, headerText_eq_line]
  refine Csv.rectangular_of_rows (List.cons_ne_nil _ _) (nodup_recColumns nev)
    (plain_recColumns nev) fun r hr => ?_
  have hlength : (evColumns r.ev.length).length = (r.ev.map (RecText.int64Text b)).length := by
    simp [evColumns]
  refine ⟨?_, ?_, ?_⟩
  · simp [recRecord, List.map_snd_zip hlength.ge, line_cons, RecText.rowText, RecText.valuesText,
      RecText.evText, List.flatMap_map]
  · rw [recRecord, List.map_append, List.map_fst_zip hlength.le, h r hr]
    rfl
  · intro p hp
    rcases List.mem_append.mp hp with hscalar | hev
    · simp only [List.mem_cons, List.not_mem_nil, or_false] at hscalar
      rcases hscalar with rfl | rfl | rfl | rfl | rfl
      · exact plain_decimal _
      · exact plain_decimal _
      · exact plain_int64Text b _
      · exact plain_int64Text b _
      · exact plain_fixedText _
    · obtain ⟨v, -, hv⟩ := List.mem_map.mp (List.of_mem_zip hev).2
      rw [← hv]
      exact plain_int64Text b v

/-! ## The file that is no table -/

def infoFields (r : Info) : List Csv.Field :=
  [decimal r.runid, decimal r.nrank, decimal r.nev, signedDecimal r.nrecTot, timestr r.started,
    timestr r.ended, []]

theorem wtinfo_eq_line (r : Info) : wtinfo r = Csv.line (infoFields r) := by
  simp [wtinfo, infoFields, line_cons]

theorem plain_infoFields (r : Info) : ∀ f ∈ infoFields r, Csv.Plain f := by
  have hempty : Csv.Plain [] := by decide
  simp [infoFields, plain_decimal, plain_signedDecimal, plain_timestr, hempty]

/-- Eight columns. -/
def infoColumns : List Csv.Field :=
  ["id", "nrank", "nevent", "ngroup", "npoint", "start_time", "end_time", "description"].map
    String.toList

/-- Every row is one field short: the file is a table only while it has no row. -/
theorem info_rectangular_iff (rows : List Info) :
    Csv.Rectangular (infoHeader ++ rows.flatMap wtinfo) (rows.map infoRecord) ↔ rows = [] := by
  have hheader : infoHeader = Csv.line infoColumns := by decide
  have hplain : ∀ f ∈ infoColumns, Csv.Plain f := by decide
  have hread : Csv.read (infoHeader ++ rows.flatMap wtinfo) =
      infoColumns :: rows.map infoFields := by
    have htable : rows.flatMap wtinfo = (rows.map infoFields).flatMap Csv.line := by
      rw [List.flatMap_map]
      exact List.flatMap_congr fun r _ => wtinfo_eq_line r
    rw [hheader, Csv.read_line_append (by decide) hplain, htable, Csv.read_flatMap_line]
    intro row hrow
    obtain ⟨r, -, rfl⟩ := List.mem_map.mp hrow
    exact ⟨List.cons_ne_nil _ _, plain_infoFields r⟩
  constructor
  · intro htable
    cases rows with
    | nil => rfl
    | cons r rows =>
        have hwidth : (infoFields r).length ≠ infoColumns.length := Nat.ne_of_beq_eq_false rfl
        exact absurd htable (Csv.not_rectangular_of_width hread List.mem_cons_self hwidth _)
  · rintro rfl
    exact ⟨infoColumns, [], hread, .nil⟩

end CsvFiles

end PerfHound
