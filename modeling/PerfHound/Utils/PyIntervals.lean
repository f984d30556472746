/-
# The interval tools in Python

`interval2csv` of `algo.py` and of `parallel_pfh_interval2csv.py` compute what `calc_interval`
computes, with two data frames: the rows with the start tag, the rows with the end tag, and
their difference. The k-th start row meets the k-th end row wherever the two stand in the
file, so the markers of a dump between them do no harm.

A data frame has one type for each column. The integers of a column are `int64`, or `uint64`
if one of them does not fit. Where the two frames differ in length, pandas fills the shorter
one up with NaN, and the differences are of `float64` numbers. The model works on rows, as
that of `calc_interval` does; the arithmetic of `uval` is a parameter.
-/

import PerfHound.Lib.Brackets
import PerfHound.Lib.Rounding
import PerfHound.Utils.Interval

namespace PerfHound

open Lib Lib.Brackets

namespace PyIntervals

/-! ## Columns and cells -/

/-- The type pandas gives a column of integers. -/
inductive Dtype
  | int64
  | uint64
  deriving DecidableEq, Repr

/-- The number in the field of a counter: `%llu`, and `%lld` in a PAPI build. -/
def fieldValue (b : Build) (v : U64) : ℤ :=
  match b.api with
  | .papi => v.toInt
  | .phasm => v.toNat

/-- The number a word is in a column. -/
def Dtype.value : Dtype → U64 → ℤ
  | .int64, v => v.toInt
  | .uint64, v => v.toNat

/-- An integer, a `float64` that is an integer, or NaN. -/
inductive Cell
  | int (z : ℤ)
  | float (z : ℤ)
  | nan
  deriving DecidableEq, Repr

/-- An integer as a `float64`. -/
def float64 (z : ℤ) : ℤ := Rounding.round 52 z

/-- The difference of two cells of a column, in frames of the same length or not. NumPy
subtracts integers of one type modulo `2 ^ 64`. Frames of different lengths are first brought
to one index, which makes a column with gaps `float64`. -/
def Dtype.sub (t : Dtype) (aligned : Bool) (s e : U64) : Cell :=
  if aligned then .int (t.value (e - s))
  else .float (float64 (float64 (t.value e) - float64 (t.value s)))

/-- What `read_csv` makes of a printed `uval`, and the difference of two of them. -/
structure FloatOps where
  read : Double → Double
  sub : Double → Double → Double

/-- A row of `res_df`. -/
structure ResRow where
  cycle : Cell
  nanosec : Cell
  /-- `none` is NaN. -/
  uval : Option Double
  ev : List Cell
  deriving DecidableEq, Repr

/-- The options that matter here. -/
structure Options where
  startGid : ℤ
  startPid : ℤ
  endGid : ℤ
  endPid : ℤ
  backend : String
  deriving DecidableEq, Repr

/-- `(src_df["gid"] == sgid) & (src_df["pid"] == spid)` -/
def Options.isStart (o : Options) (r : Row) : Bool :=
  (r.gid.toNat : ℤ) == o.startGid && (r.pid.toNat : ℤ) == o.startPid

/-- `(src_df["gid"] == egid) & (src_df["pid"] == epid)` -/
def Options.isEnd (o : Options) (r : Row) : Bool :=
  (r.gid.toNat : ℤ) == o.endGid && (r.pid.toNat : ℤ) == o.endPid

section Subtract

variable (b : Build) (f : FloatOps) (srcDf : List Row)

end Subtract

/-- `constant_rates`: the ticks of the time counter in a millisecond. -/
def constantRates : List (List Char × ℕ) :=
  [("cas114".toList, 2494103), ("cas113".toList, 249414)]

def hostPrefix (hostname : List Char) : List Char := hostname.takeWhile (· != '.')

/-- `int(x * 1000000 // constant_rates[host_prefix])`. A cell that is no integer does not
occur where this is applied. -/
def Cell.nanoseconds (rate : ℕ) : Cell → Cell
  | .int z => .int (z * 1000000 / rate)
  | cell => cell

def ResRow.nanoseconds (rate : ℕ) (r : ResRow) : ResRow :=
  { r with nanosec := r.nanosec.nanoseconds rate }

/-- The differences of a pair of rows, modulo `2 ^ 64`, where they are known. -/
structure Diff where
  cy : Option U64
  ns : Option U64
  ev : List (Option U64)
  deriving DecidableEq, Repr

/-- The integer of a cell, as a word. -/
def Cell.word : Cell → Option U64
  | .int z => some (BitVec.ofInt 64 z)
  | _ => none

/-- The differences in a row of the result, in the columns that a sampling of `p` determines. -/
def ResRow.diff (p : Sampler) (r : ResRow) : Diff where
  cy := if p.cyFromEv && p.nread == 0 then none else r.cycle.word
  ns := r.nanosec.word
  ev := (r.ev.map Cell.word).take p.nread

/-- The differences of two readings. -/
def Diff.ofReadings (p : Reading × Reading) : Diff where
  cy := p.1.cy.bind fun s => p.2.cy.map fun e => e - s
  ns := some (p.2.ns - p.1.ns)
  ev := List.zipWith (fun s e => some (e - s)) p.1.ev p.2.ev

/-- The differences in an output row of `calc_interval`. -/
def Diff.ofDelta (p : Sampler) (d : Interval.Delta) : Diff where
  cy := if p.cyFromEv && p.nread == 0 then none else some d.cy
  ns := some d.ns
  ev := (d.ev.map some).take p.nread

variable {b : Build} {f : FloatOps} {srcDf : List Row} {o : Options}

end PyIntervals

end PerfHound
