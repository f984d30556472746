/-
# The resolution test: searching the least round

`least_interval_test` and `variation_resolution` of `main.sh` look for the least number that
passes a measurement. Both go up in steps, by 1000 or 100 at first, and start over behind the
last number that has failed with steps of a tenth. The measurement is a program that is
compiled and run; here it is any function of the number. The result of the first search is
read from the file that `algo.py` has left at the last measurement.
-/

import PerfHound.Lib.CoarseToFine

namespace PerfHound

open Lib Lib.CoarseToFine

namespace Resolution

/-- The loops of `least_interval_test`: `i` and `start` are `cur` and `low`, and
`least_interval_file` holds the `report`. -/
def leastIntervalTest (passes : ℕ → Bool) (fuel : ℕ) : Option Search :=
  search passes 10 fuel 1000 Search.init

/-- `least_round`, the second line of `least_interval_file`. -/
def leastRound (s : Search) : Option ℕ := s.report

/-- The loops of `variation_resolution`: `k`, `left` and `right` are `cur`, `low` and `high`. -/
def variationResolution (passes : ℕ → Bool) (fuel : ℕ) : Option Search :=
  search passes 10 fuel 100 Search.init

/-- What a search is for: the number has passed, and the one before it is 0 or has failed. -/
def Least (passes : ℕ → Bool) (s : Search) (r : ℕ) : Prop :=
  1 ≤ r ∧ r ∈ s.tested ∧ passes r = true ∧
    (r - 1 = 0 ∨ r - 1 ∈ s.tested ∧ passes (r - 1) = false)

theorem atLow_init (passes : ℕ → Bool) : AtLow passes Search.init := ⟨rfl, Or.inl rfl⟩

/-- A search with a power of ten as its first step. -/
theorem found_of_search {passes : ℕ → Bool} (m : ℕ) {fuel : ℕ} {s : Search}
    (h : search passes 10 fuel (10 ^ m) Search.init = some s) :
    s.report = some s.high ∧ Least passes s s.high := by
  have hfound := search_spec (by decide) m (atLow_init passes) h
  have hstep := hfound.step
  refine ⟨hfound.report, ?_, hfound.tested, hfound.passed, ?_⟩
  · rw [hstep]
    exact Nat.le_add_left 1 _
  · rw [hstep, Nat.add_sub_cancel]
    exact hfound.failed

theorem search_atLeast (m : ℕ) {t n : ℕ} (ht : 1 ≤ t) (hn : t ≤ n * 10 ^ m) :
    ∃ fuel s, search (atLeast t) 10 fuel (10 ^ m) Search.init = some s ∧ s.high = t ∧
      s.tested.length ≤ n + 10 * m := by
  obtain ⟨s, hsearch, hhigh, htests⟩ := search_threshold (by decide) (Nat.le_add_left 10 n) m
    (s := Search.init) (Nat.le_add_right n 10) rfl ht (by rw [Search.init, Nat.zero_add]; exact hn)
  refine ⟨_, s, hsearch, hhigh, ?_⟩
  have hnone : Search.init.tested.length = 0 := rfl
  rwa [hnone, Nat.zero_add] at htests

/-- **The searches of the resolution test.** If the loops end, the result has passed and the
number before it is 0 or has failed. With a threshold `t` they end with `t`, after at most as
many tests as the first steps up to `t` and ten for each finer step. -/
theorem searches_find_least :
    (∀ passes fuel s, leastIntervalTest passes fuel = some s →
      ∃ r, leastRound s = some r ∧ Least passes s r) ∧
    (∀ t, 1 ≤ t → ∃ fuel s, leastIntervalTest (atLeast t) fuel = some s ∧
      leastRound s = some t ∧ s.tested.length ≤ (t + 999) / 1000 + 30) ∧
    (∀ passes fuel s, variationResolution passes fuel = some s → Least passes s s.high) ∧
    ∀ t, 1 ≤ t → ∃ fuel s, variationResolution (atLeast t) fuel = some s ∧
      s.high = t ∧ s.tested.length ≤ (t + 99) / 100 + 20 := by
  refine ⟨fun passes fuel s h => ?_, fun t ht => ?_, fun passes fuel s h => ?_, fun t ht => ?_⟩
  · obtain ⟨hreport, hleast⟩ := found_of_search 3 h
    exact ⟨s.high, hreport, hleast⟩
  · obtain ⟨fuel, s, hsearch, hhigh, htests⟩ :=
      search_atLeast 3 ht (show t ≤ (t + 999) / 1000 * 10 ^ 3 by omega)
    refine ⟨fuel, s, hsearch, ?_, htests⟩
    rw [leastRound, (found_of_search 3 hsearch).1, hhigh]
  · exact (found_of_search 2 h).2
  · exact search_atLeast 2 ht (show t ≤ (t + 99) / 100 * 10 ^ 2 by omega)

/-- A threshold between two multiples of the steps. -/
theorem searches_find_1234 :
    ∃ fuel s, leastIntervalTest (atLeast 1234) fuel = some s ∧ leastRound s = some 1234 ∧
      s.tested.length ≤ (1234 + 999) / 1000 + 30 :=
  searches_find_least.2.1 1234 (by decide)

end Resolution

end PerfHound
