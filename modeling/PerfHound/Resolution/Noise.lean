/-
# The resolution test: removing the noise

`rm_os_noise` of `algo.py` keeps the rows of a table of intervals that are close to the least
`nanosec` and to the least `cycle`. The two minima can stand in different rows, and then no row
need be close to both: the table that is left is empty, and its percentiles are asked for all
the same. `keepsData_iff` says for which tables the filter leaves a row and, applied again,
changes nothing.

The columns are `int64`, and what follows from that is NumPy's rule for two types that meet:
`int64` with a Python integer stays `int64` and wraps, and with a Python float, or when compared
with a `float64`, it becomes `float64`. So the cut-off for `nanosec` is computed in `int64`, the
one for `cycle` in `float64`. All the numbers that occur there are integers, so they are given
as such, rounded to 53 digits.
-/

import PerfHound.Lib.Rounding

namespace PerfHound

open Lib

namespace Resolution

/-- A row of intervals, with the columns of the events as `α`. -/
structure IntervalRow (α : Type) where
  cycle : Int64
  nanosec : Int64
  events : α
  deriving DecidableEq, Repr

/-! ## The filter -/

/-- An integer as a `float64`. -/
def float64 (z : ℤ) : ℤ := Rounding.round 52 z

def thresholdNanosec (minNanosec : Int64) : Int64 := minNanosec + 1000

/-- `threshold_cycle`. The product of 1000 and the frequency 2.6 is 2600.0. -/
def thresholdCycle (minCycle : Int64) : ℤ := float64 (float64 minCycle.toInt + 2600)

variable {α : Type}

/-- Whether a row is below both cut-offs. -/
def below (minCycle minNanosec : Int64) (r : IntervalRow α) : Bool :=
  decide (r.nanosec < thresholdNanosec minNanosec) &&
    decide (float64 r.cycle.toInt < thresholdCycle minCycle)

def rmOsNoise (resDf : List (IntervalRow α)) : List (IntervalRow α) :=
  match (resDf.map (·.cycle)).min?, (resDf.map (·.nanosec)).min? with
  | some minCycle, some minNanosec => resDf.filter (below minCycle minNanosec)
  -- the minima of an empty table are NaN, and no comparison with NaN holds
  | _, _ => []

/-- `all_cycles` of `least_interval`, `round_1_cycles` and `round_2_cycles` of
`variation_judge`. -/
def allCycles (costCycle : Int64) (df : List (IntervalRow α)) : List Int64 :=
  df.map fun r => r.cycle - costCycle

/-- `all_nanosecs`, `round_1_nanosecs` and `round_2_nanosecs`. -/
def allNanosecs (costNanosec : Int64) (df : List (IntervalRow α)) : List Int64 :=
  df.map fun r => r.nanosec - costNanosec

/-- What the filter is to do. A percentile is defined for an array that is not empty. -/
structure KeepsData (resDf : List (IntervalRow α)) : Prop where
  nonempty : rmOsNoise resDf ≠ []
  cycles : ∀ cost, allCycles cost (rmOsNoise resDf) ≠ []
  nanosecs : ∀ cost, allNanosecs cost (rmOsNoise resDf) ≠ []
  sublist : (rmOsNoise resDf).Sublist resDf
  idempotent : rmOsNoise (rmOsNoise resDf) = rmOsNoise resDf

/-- A row of the table is close to every other one, from above: by less than 1000 in `nanosec`
and by less than 2600, as far as `float64` can tell, in `cycle`. -/
def Close (resDf : List (IntervalRow α)) (r : IntervalRow α) : Prop :=
  ∀ s ∈ resDf, r.nanosec.toInt < s.nanosec.toInt + 1000 ∧
    float64 r.cycle.toInt < thresholdCycle s.cycle

/-- The cut-off above a row's `nanosec` is still an `int64`. -/
def Fits (r : IntervalRow α) : Prop := r.nanosec.toInt + 1000 < 2 ^ 63

variable {resDf : List (IntervalRow α)} {r : IntervalRow α}

/-! ## The cut-offs -/

theorem thresholdCycle_mono {x y : Int64} (h : x ≤ y) : thresholdCycle x ≤ thresholdCycle y := by
  have hfloat : float64 x.toInt ≤ float64 y.toInt :=
    Rounding.round_mono 52 (Int64.le_iff_toInt_le.mp h)
  exact Rounding.round_mono 52 (Int.add_le_add_right hfloat 2600)

/-- Up to `2 ^ 52` the comparison with the cut-off is exact. -/
theorem float64_lt_thresholdCycle_iff {x y : Int64} (hx : x.toInt.natAbs ≤ 2 ^ 52)
    (hy : y.toInt.natAbs ≤ 2 ^ 52) :
    float64 x.toInt < thresholdCycle y ↔ x.toInt < y.toInt + 2600 := by
  have hxexact : float64 x.toInt = x.toInt := Rounding.round_of_natAbs_lt (by omega)
  have hyexact : float64 y.toInt = y.toInt := Rounding.round_of_natAbs_lt (by omega)
  have hcut : thresholdCycle y = y.toInt + 2600 := by
    rw [thresholdCycle, hyexact]
    exact Rounding.round_of_natAbs_lt (by omega)
  rw [hxexact, hcut]

/-- The cut-off of a minimum that has wrapped is below every value. -/
theorem lt_thresholdNanosec_iff {n m : Int64} (h : m ≤ n) :
    n < thresholdNanosec m ↔ m.toInt + 1000 < 2 ^ 63 ∧ n.toInt < m.toInt + 1000 := by
  have hsum : (m + 1000).toInt = (m.toInt + 1000).bmod (2 ^ 64) := Int64.toInt_add m 1000
  have hle := Int64.le_iff_toInt_le.mp h
  have hlow := Int64.le_toInt m
  have hhigh := Int64.toInt_lt m
  rw [thresholdNanosec, Int64.lt_iff_toInt_lt, hsum]
  obtain hfit | hwrap := lt_or_ge (m.toInt + 1000) (2 ^ 63)
  · rw [Int.bmod_eq_of_le (by omega) (by omega)]
    exact (and_iff_right hfit).symm
  · have hbmod : (m.toInt + 1000).bmod (2 ^ 64) = m.toInt + 1000 - 2 ^ 64 := by
      rw [Int.bmod_def]
      omega
    rw [hbmod]
    omega

/-! ## What is kept -/

theorem exists_filter (resDf : List (IntervalRow α)) : ∃ p, rmOsNoise resDf = resDf.filter p := by
  unfold rmOsNoise
  split
  · exact ⟨_, rfl⟩
  · exact ⟨fun _ => false, (List.filter_eq_nil_iff.mpr fun _ _ => Bool.false_ne_true).symm⟩

theorem sublist_rmOsNoise : (rmOsNoise resDf).Sublist resDf := by
  obtain ⟨p, hp⟩ := exists_filter resDf
  rw [hp]
  exact List.filter_sublist

theorem rmOsNoise_eq_self (h : ∀ r ∈ resDf, r ∈ rmOsNoise resDf) : rmOsNoise resDf = resDf := by
  obtain ⟨p, hp⟩ := exists_filter resDf
  rw [hp] at h ⊢
  rw [List.filter_eq_self]
  exact fun r hr => (List.mem_filter.mp (h r hr)).2

theorem exists_min (f : IntervalRow α → Int64) (h : resDf ≠ []) :
    ∃ a ∈ resDf, (resDf.map f).min? = some (f a) ∧ ∀ s ∈ resDf, f a ≤ f s := by
  have hsome : (resDf.map f).min? ≠ none := fun hnone =>
    h (List.map_eq_nil_iff.mp (List.min?_eq_none_iff.mp hnone))
  obtain ⟨m, hm⟩ := Option.ne_none_iff_exists'.mp hsome
  obtain ⟨hmem, hle⟩ := List.min?_eq_some_iff.mp hm
  obtain ⟨a, ha, rfl⟩ := List.mem_map.mp hmem
  exact ⟨a, ha, hm, fun s hs => hle _ (List.mem_map_of_mem hs)⟩

/-- Being below the cut-offs, said without the rows `a` and `b` in which the minima stand. -/
theorem below_iff {a b : IntervalRow α} (ha : a ∈ resDf) (hcycle : ∀ s ∈ resDf, a.cycle ≤ s.cycle)
    (hb : b ∈ resDf) (hnanosec : ∀ s ∈ resDf, b.nanosec ≤ s.nanosec) (hr : r ∈ resDf) :
    below a.cycle b.nanosec r = true ↔ (∃ s ∈ resDf, Fits s) ∧ Close resDf r := by
  rw [below, Bool.and_eq_true, decide_eq_true_iff, decide_eq_true_iff,
    lt_thresholdNanosec_iff (hnanosec r hr)]
  constructor
  · rintro ⟨⟨hfits, hlt⟩, hcut⟩
    refine ⟨⟨b, hb, hfits⟩, fun s hs => ⟨?_, ?_⟩⟩
    · have hle := Int64.le_iff_toInt_le.mp (hnanosec s hs)
      omega
    · exact hcut.trans_le (thresholdCycle_mono (hcycle s hs))
  · rintro ⟨⟨s, hs, hfits⟩, hclose⟩
    refine ⟨⟨?_, (hclose b hb).1⟩, (hclose a ha).2⟩
    have hle := Int64.le_iff_toInt_le.mp (hnanosec s hs)
    unfold Fits at hfits
    omega

/-- A row is kept if it is close to all rows, unless the cut-offs of all rows wrap. -/
theorem mem_rmOsNoise_iff :
    r ∈ rmOsNoise resDf ↔ r ∈ resDf ∧ (∃ s ∈ resDf, Fits s) ∧ Close resDf r := by
  obtain rfl | hne := eq_or_ne resDf []
  · simp [rmOsNoise]
  obtain ⟨a, ha, hcycle, hacycle⟩ := exists_min IntervalRow.cycle hne
  obtain ⟨b, hb, hnanosec, hbnanosec⟩ := exists_min IntervalRow.nanosec hne
  have hfilter : rmOsNoise resDf = resDf.filter (below a.cycle b.nanosec) := by
    unfold rmOsNoise
    rw [hcycle, hnanosec]
  rw [hfilter, List.mem_filter]
  exact and_congr_right (below_iff ha hacycle hb hbnanosec)

/-- **The noise filter keeps data exactly if** some row is close to every row and the cut-off
above it is an `int64`. -/
theorem keepsData_iff (resDf : List (IntervalRow α)) :
    KeepsData resDf ↔ ∃ r ∈ resDf, Fits r ∧ Close resDf r := by
  constructor
  · intro h
    -- what is left after the second time has a row whose cut-off fits
    obtain ⟨q, hq⟩ := List.exists_mem_of_ne_nil _ h.nonempty
    rw [← h.idempotent, mem_rmOsNoise_iff] at hq
    obtain ⟨-, ⟨r, hr, hfits⟩, -⟩ := hq
    have hkept := mem_rmOsNoise_iff.mp hr
    exact ⟨r, hkept.1, hfits, hkept.2.2⟩
  · rintro ⟨r, hr, hfits, hclose⟩
    have hkept : r ∈ rmOsNoise resDf := mem_rmOsNoise_iff.mpr ⟨hr, ⟨r, hr, hfits⟩, hclose⟩
    have hne := List.ne_nil_of_mem hkept
    refine ⟨hne, fun cost => mt List.map_eq_nil_iff.mp hne,
      fun cost => mt List.map_eq_nil_iff.mp hne, sublist_rmOsNoise, rmOsNoise_eq_self ?_⟩
    intro q hq
    have hqclose := (mem_rmOsNoise_iff.mp hq).2.2
    exact mem_rmOsNoise_iff.mpr
      ⟨hq, ⟨r, hkept, hfits⟩, fun s hs => hqclose s (sublist_rmOsNoise.subset hs)⟩

/-- Two rows, each with the minimum of one column: neither is close to the other. -/
theorem both_rows_removed :
    ¬ ∀ resDf : List (IntervalRow Unit), resDf ≠ [] → KeepsData resDf := by
  intro h
  have hkeeps := h [⟨0, 5000, ()⟩, ⟨5000, 0, ()⟩] (List.cons_ne_nil _ _)
  exact hkeeps.nonempty (by decide +kernel)

end Resolution

end PerfHound
