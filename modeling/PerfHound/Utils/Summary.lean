/-
# The summary of a run

`summarize_run.py` sorts the rows of a record file by their tags, pairs the k-th start row
with the k-th end row up to the shorter list, and reports the least, the median and the
greatest difference of each counter.

It reads every counter as a `float` before it makes an `int` of it. A `float` has 53 binary
digits, so a counter from `2 ^ 53` on is rounded, and the statistics are only close to those
of the counters (`near_stats`); below that they are exact.
-/

import PerfHound.Lib.OrderStat
import PerfHound.Utils.PyRuns

namespace PerfHound

open Lib Lib.OrderStat PyIntervals

namespace Summary

/-! ## Statistics of integers -/

/-- `int(statistics.median(data))`. The mean of the two values in the middle is a `float`, and
`int` drops its fraction. -/
def median (data : List ℤ) : ℤ :=
  let s := sorted data
  let n := data.length
  if n % 2 = 1 then s.getD (n / 2) 0
  else (float64 (s.getD (n / 2 - 1) 0 + s.getD (n / 2) 0)).tdiv 2

/-- The three numbers for a counter. -/
structure Stats where
  min : ℤ
  med : ℤ
  max : ℤ
  deriving DecidableEq, Repr

def stats (data : List ℤ) : Stats := ⟨data.min?.getD 0, median data, data.max?.getD 0⟩

/-! ## `summarize_file` -/

/-- A row as `parse_rec_row` reads it, without its tags. -/
structure Parsed where
  cycle : ℤ
  nsec : ℤ
  evs : List ℤ
  deriving DecidableEq, Repr

def intFloat (b : Build) (v : U64) : ℤ := float64 (fieldValue b v)

def parseRecRow (b : Build) (r : Row) : Parsed :=
  ⟨intFloat b r.cy, intFloat b r.ns, r.ev.map (intFloat b)⟩

def rowsByKey (b : Build) (rows : List Row) (gid pid : ℤ) : List Parsed :=
  (rows.filter fun r => (r.gid.toNat : ℤ) == gid && (r.pid.toNat : ℤ) == pid).map (parseRecRow b)

/-- `item[name] = value`, in the order of the first assignments. -/
def setItem (items : List (String × ℤ)) (name : String) (value : ℤ) : List (String × ℤ) :=
  if items.any (·.1 == name) then
    items.map fun item => if item.1 == name then (name, value) else item
  else items ++ [(name, value)]

/-- The medians of the events, under their names. -/
def evMedians (evNames : List String) (samples : List (Parsed × Parsed)) : List (String × ℤ) :=
  evNames.zipIdx.foldl (fun items name =>
    let dev := samples.filterMap fun p =>
      p.1.evs[name.2]?.bind fun s => p.2.evs[name.2]?.map fun e => e - s
    if dev.isEmpty then items else setItem items ("dev_" ++ name.1 ++ "_med") (median dev)) []

/-- An `item`, without the name of its file. -/
structure Item where
  gid : ℤ
  pidStart : ℤ
  pidEnd : ℤ
  samples : ℕ
  dcycle : Stats
  dns : Stats
  dev : List (String × ℤ)
  deriving DecidableEq, Repr

/-- The body of the loop over `pairs`. -/
def summarizePair (b : Build) (rows : List Row) (evNames : List String) (gid pidStart pidEnd : ℤ) :
    Option Item :=
  -- `zip` stops with the shorter list, as the indices below `n` do
  let samples := (rowsByKey b rows gid pidStart).zip (rowsByKey b rows gid pidEnd)
  if samples.isEmpty then none
  else some
    { gid, pidStart, pidEnd
      samples := samples.length
      dcycle := stats (samples.map fun p => p.2.cycle - p.1.cycle)
      dns := stats (samples.map fun p => p.2.nsec - p.1.nsec)
      dev := evMedians evNames samples }

/-- `summarize_file` on the rows below the header. -/
def summarizeFile (b : Build) (rows : List Row) (pairs : List (ℤ × ℤ × ℤ))
    (evNames : List String) : List Item :=
  pairs.filterMap fun p => summarizePair b rows evNames p.1 p.2.1 p.2.2

/-! ## Rounded values -/

variable {b : Build} {data : List ℤ}

/-- The middle values: the same one twice in a list of odd length. -/
def middle (data : List ℤ) (hdata : data ≠ []) : ℤ × ℤ :=
  have hpos : 0 < data.length := List.length_pos_iff.mpr hdata
  (kth data ((data.length - 1) / 2) (by omega), kth data (data.length / 2) (by omega))

/-- The statistics of rounded differences: the least and the greatest one are off by at most
`2 ^ 11`, and the median by half of `2 ^ 13 + 1`. -/
structure Near (s : Stats) (data : List ℤ) (hdata : data ≠ []) : Prop where
  min : (s.min - (stats data).min).natAbs ≤ 2 ^ 11
  med : (2 * s.med - ((middle data hdata).1 + (middle data hdata).2)).natAbs ≤ 2 ^ 13 + 1
  max : (s.max - (stats data).max).natAbs ≤ 2 ^ 11

/-- The differences of a counter, as they are in the rows. -/
def exact (b : Build) (counter : Row → U64) (pairs : List (Row × Row)) : List ℤ :=
  pairs.map fun q => fieldValue b (counter q.2) - fieldValue b (counter q.1)

theorem exact_ne_nil {counter : Row → U64} {pairs : List (Row × Row)} (h : pairs ≠ []) :
    exact b counter pairs ≠ [] := mt List.map_eq_nil_iff.mp h

/-- What the numbers for a counter say about its differences. -/
structure Reports (b : Build) (counter : Row → U64) (pairs : List (Row × Row))
    (hpairs : pairs ≠ []) (s : Stats) : Prop where
  near : Near s (exact b counter pairs) (exact_ne_nil hpairs)
  /-- All that is rounded is the mean of two values in the middle. -/
  small : (∀ q ∈ pairs, (fieldValue b (counter q.1)).natAbs < 2 ^ 52 ∧
      (fieldValue b (counter q.2)).natAbs < 2 ^ 52) →
    s = stats (exact b counter pairs) ∧ s.min ≤ s.med ∧ s.med ≤ s.max

/-- The pair of tags as an entry of `pairs`. -/
def summarizeTags (b : Build) (rows : List Row) (evNames : List String) (tags : Serial.Tags) :
    Option Item :=
  summarizePair b rows evNames tags.gid.toNat tags.spid.toNat tags.epid.toNat

section Run

open PerfHound.Serial

end Run

end Summary

end PerfHound
