/-
# Searching with finer and finer steps

A search for the least value that passes a test goes up from a value that has failed, in
steps of one size, until a value passes; then it goes back to the last value that failed and
takes steps of a fraction of the size. The last round has steps of 1. `search_spec` says
what the search has found, for any test, and `search_threshold` how many tests it takes for
a test with a threshold.
-/

import Mathlib.Algebra.Group.Nat.Defs
import Mathlib.Data.Nat.Basic

namespace PerfHound.Lib

namespace CoarseToFine

/-- Where a search stands. -/
structure Search where
  /-- The value from which the next step goes. -/
  cur : ℕ
  /-- The last value that has failed. -/
  low : ℕ
  /-- The last value that has passed. -/
  high : ℕ
  /-- What the last test has left: its value, if it has passed. -/
  report : Option ℕ
  /-- The values tested so far, the last one first. -/
  tested : List ℕ
  deriving DecidableEq, Repr

/-- Nothing has been tested. -/
def Search.init : Search := ⟨0, 0, 0, none, []⟩

variable (passes : ℕ → Bool)

/-- A test of one value. -/
def Search.test (s : Search) (i : ℕ) : Search :=
  if passes i then { s with cur := i, high := i, report := some i, tested := i :: s.tested }
  else { s with cur := i, low := i, report := none, tested := i :: s.tested }

/-- Steps of one size, up to a value that passes. -/
def round (step : ℕ) : ℕ → Search → Option Search
  | 0, _ => none
  | fuel + 1, s =>
      let i := s.cur + step
      if passes i then some (s.test passes i) else round step fuel (s.test passes i)

/-- Rounds with steps that become smaller by a factor `b`, until there is no step left. -/
def search (b : ℕ) : ℕ → ℕ → Search → Option Search
  | 0, _, _ => none
  | fuel + 1, step, s =>
      if step = 0 then some s
      else (round passes step fuel s).bind fun s => search b fuel (step / b) { s with cur := s.low }

variable {passes} {b step fuel m n : ℕ} {s s' : Search}

/-! ## What is found -/

/-- The search stands at a value that has failed, or at 0. -/
structure AtLow (passes : ℕ → Bool) (s : Search) : Prop where
  cur : s.cur = s.low
  failed : s.low = 0 ∨ s.low ∈ s.tested ∧ passes s.low = false

/-- What a round with steps of one size has found. -/
structure Found (passes : ℕ → Bool) (step : ℕ) (s : Search) : Prop where
  passed : passes s.high = true
  tested : s.high ∈ s.tested
  report : s.report = some s.high
  step : s.high = s.low + step
  failed : s.low = 0 ∨ s.low ∈ s.tested ∧ passes s.low = false

theorem Search.test_of_failed {i : ℕ} (hi : passes i = false) :
    s.test passes i = { s with cur := i, low := i, report := none, tested := i :: s.tested } := by
  rw [Search.test, hi]
  rfl

theorem Search.test_of_passed {i : ℕ} (hi : passes i = true) :
    s.test passes i =
      { s with cur := i, high := i, report := some i, tested := i :: s.tested } := if_pos hi

/-- A value that fails is where the search stands next. -/
theorem atLow_test {i : ℕ} (hi : passes i = false) : AtLow passes (s.test passes i) := by
  rw [Search.test_of_failed hi]
  exact ⟨rfl, Or.inr ⟨List.mem_cons_self, hi⟩⟩

/-- A value that passes is one step above. -/
theorem AtLow.found (hs : AtLow passes s) (hi : passes (s.cur + step) = true) :
    Found passes step (s.test passes (s.cur + step)) := by
  rw [Search.test_of_passed hi]
  exact ⟨hi, List.mem_cons_self, rfl, congrArg (· + step) hs.cur,
    hs.failed.imp_right fun h => ⟨List.mem_cons_of_mem _ h.1, h.2⟩⟩

theorem round_spec (hs : AtLow passes s) (h : round passes step fuel s = some s') :
    Found passes step s' := by
  induction fuel generalizing s with
  | zero => cases h
  | succ fuel ih =>
      rw [round] at h
      cases hi : passes (s.cur + step) with
      | true =>
          rw [if_pos hi] at h
          obtain rfl := Option.some.inj h
          exact hs.found hi
      | false =>
          rw [if_neg (by simp [hi])] at h
          exact ih (atLow_test hi) h

/-- Back to the value that has failed. -/
theorem Found.atLow (hs : Found passes step s) : AtLow passes { s with cur := s.low } :=
  ⟨rfl, hs.failed⟩

theorem search_zero (h : search passes b fuel 0 s = some s') : s' = s := by
  cases fuel with
  | zero => cases h
  | succ fuel => exact (Option.some.inj h).symm

/-- **What the search has found**, if it ends: a value that has passed, and one below it a
value that has failed or 0. -/
theorem search_spec (hb : 2 ≤ b) (m : ℕ) :
    ∀ {fuel : ℕ} {s s' : Search}, AtLow passes s → search passes b fuel (b ^ m) s = some s' →
      Found passes 1 s' := by
  have hbpos : 0 < b := Nat.lt_of_lt_of_le Nat.zero_lt_two hb
  have hpos : ∀ m, b ^ m ≠ 0 := fun m => Nat.ne_of_gt (Nat.pow_pos hbpos)
  induction m with
  | zero =>
      rintro (_ | fuel) s s' hs h
      · cases h
      · rw [search, if_neg (hpos 0)] at h
        obtain ⟨s₁, hround, hrest⟩ := Option.bind_eq_some_iff.mp h
        have hfound := round_spec hs hround
        rw [Nat.pow_zero, Nat.div_eq_of_lt (by omega)] at hrest
        rw [search_zero hrest]
        exact ⟨hfound.passed, hfound.tested, hfound.report, hfound.step, hfound.failed⟩
  | succ m ih =>
      rintro (_ | fuel) s s' hs h
      · cases h
      · rw [search, if_neg (hpos (m + 1))] at h
        obtain ⟨s₁, hround, hrest⟩ := Option.bind_eq_some_iff.mp h
        rw [Nat.pow_succ, Nat.mul_div_cancel _ (by omega)] at hrest
        exact ih (round_spec hs hround).atLow hrest

/-! ## A threshold -/

section Threshold

variable {t : ℕ}

/-- The test of a threshold. -/
def atLeast (t i : ℕ) : Bool := decide (t ≤ i)

/-- What a round has found below and above the threshold, with at most `n` more tests. -/
structure Bracketed (t step n : ℕ) (s s' : Search) : Prop where
  below : s'.low < t
  above : t ≤ s'.low + step
  high : s'.high = s'.low + step
  tests : s'.tested.length ≤ s.tested.length + n

/-- A round takes no more tests than there are steps up to the threshold. -/
theorem round_threshold (hn : n ≤ fuel) (hcur : s.cur = s.low) (hlow : s.low < t)
    (ht : t ≤ s.low + n * step) :
    ∃ s', round (atLeast t) step fuel s = some s' ∧ Bracketed t step n s s' := by
  induction n generalizing fuel s with
  | zero => omega
  | succ n ih =>
      obtain ⟨fuel, rfl⟩ := Nat.exists_eq_add_of_le' (Nat.one_le_of_lt hn)
      rw [Nat.succ_mul] at ht
      cases hi : atLeast t (s.cur + step) with
      | true =>
          have habove : t ≤ s.cur + step := of_decide_eq_true hi
          refine ⟨s.test (atLeast t) (s.cur + step), by rw [round, if_pos hi], ?_⟩
          rw [Search.test_of_passed hi, hcur]
          rw [hcur] at habove
          exact ⟨hlow, habove, rfl, Nat.add_le_add_left (Nat.le_add_left 1 n) _⟩
      | false =>
          have hbelow : s.cur + step < t := Nat.lt_of_not_le (of_decide_eq_false hi)
          have htest := Search.test_of_failed (s := s) hi
          obtain ⟨s', hround, hbracket⟩ := ih (s := s.test (atLeast t) (s.cur + step))
            (Nat.le_of_succ_le_succ hn) (by rw [htest]) (by rw [htest]; exact hbelow)
            (by rw [htest]; show t ≤ s.cur + step + n * step; omega)
          refine ⟨s', by rw [round, if_neg (by simp [hi]), hround], hbracket.below,
            hbracket.above, hbracket.high, Nat.le_trans hbracket.tests ?_⟩
          rw [htest, List.length_cons, Nat.add_assoc, Nat.add_comm 1]

/-- **The search for a threshold** ends there. After the first round, each of the finer ones
takes at most as many tests as the steps become smaller. -/
theorem search_threshold (hb : 2 ≤ b) {k : ℕ} (hk : b ≤ k) (m : ℕ) :
    ∀ {s : Search} {n : ℕ}, n ≤ k → s.cur = s.low → s.low < t → t ≤ s.low + n * b ^ m →
      ∃ s', search (atLeast t) b (k + m + 2) (b ^ m) s = some s' ∧ s'.high = t ∧
        s'.tested.length ≤ s.tested.length + n + b * m := by
  have hbpos : 0 < b := Nat.lt_of_lt_of_le Nat.zero_lt_two hb
  have hpos : ∀ m, b ^ m ≠ 0 := fun m => Nat.ne_of_gt (Nat.pow_pos hbpos)
  induction m with
  | zero =>
      intro s n hn hcur hlow ht
      obtain ⟨s', hround, hbracket⟩ : ∃ s', round _ _ (k + 1) s = some s' ∧ Bracketed _ _ n s s' :=
        round_threshold (Nat.le_succ_of_le hn) hcur hlow ht
      refine ⟨{ s' with cur := s'.low }, ?_, ?_, hbracket.tests⟩
      · rw [search, if_neg (hpos 0), Nat.add_zero, hround, Option.bind_some, Nat.pow_zero,
          Nat.div_eq_of_lt hb]
        rfl
      · have habove := hbracket.above
        have hbelow := hbracket.below
        have hhigh := hbracket.high
        rw [Nat.pow_zero] at habove hhigh
        show s'.high = t
        omega
  | succ m ih =>
      intro s n hn hcur hlow ht
      obtain ⟨s₁, hround, hbracket⟩ :
          ∃ s₁, round _ _ (k + m + 2) s = some s₁ ∧ Bracketed _ _ n s s₁ :=
        round_threshold (by omega) hcur hlow ht
      have hnext : t ≤ s₁.low + b * b ^ m := by
        rw [Nat.mul_comm b, ← Nat.pow_succ]
        exact hbracket.above
      obtain ⟨s', hsearch, hhigh, htests⟩ :=
        ih (s := { s₁ with cur := s₁.low }) hk rfl hbracket.below hnext
      refine ⟨s', ?_, hhigh, ?_⟩
      · rw [search, if_neg (hpos (m + 1)), ← Nat.add_assoc, hround, Option.bind_some,
          Nat.pow_succ, Nat.mul_div_cancel _ hbpos, hsearch]
      · have hfirst := hbracket.tests
        rw [Nat.mul_succ]
        show s'.tested.length ≤ _
        have htests' : s'.tested.length ≤ s₁.tested.length + b + b * m := htests
        omega

end Threshold

/-! ## Tests with effects -/

section Effects

universe uσ

variable {σ : Type uσ} (test : ℕ → σ → Bool × σ)

/-- `round` with a test that depends on something and changes it. -/
def roundWith (step : ℕ) : ℕ → Search × σ → Option (Search × σ)
  | 0, _ => none
  | fuel + 1, (s, t) =>
      let i := s.cur + step
      let (passed, t) := test i t
      let s := s.test (fun _ => passed) i
      if passed then some (s, t) else roundWith step fuel (s, t)

/-- `search` with such a test. -/
def searchWith (b : ℕ) : ℕ → ℕ → Search × σ → Option (Search × σ)
  | 0, _, _ => none
  | fuel + 1, step, (s, t) =>
      if step = 0 then some (s, t)
      else (roundWith test step fuel (s, t)).bind fun (s, t) =>
        searchWith b fuel (step / b) ({ s with cur := s.low }, t)

variable {test} {effect : ℕ → σ → σ} {t : σ}

/-- Where the verdicts are those of `passes` whatever has been tested before, a round makes the
same steps, and leaves behind the effects of its tests. -/
theorem roundWith_eq (htest : ∀ tested : List ℕ, ∀ i, 0 < i →
      test i (tested.foldr effect t) = (passes i, effect i (tested.foldr effect t)))
    (hstep : 0 < step) (fuel : ℕ) :
    ∀ s : Search, roundWith test step fuel (s, s.tested.foldr effect t) =
      (round passes step fuel s).map fun s' => (s', s'.tested.foldr effect t) := by
  induction fuel with
  | zero => exact fun s => rfl
  | succ fuel ih =>
      intro s
      have hone := htest s.tested (s.cur + step) (Nat.add_pos_right s.cur hstep)
      rw [roundWith, round, hone]
      cases hi : passes (s.cur + step) with
      | true =>
          rw [Search.test_of_passed hi]
          rfl
      | false =>
          have hrest := ih (s.test passes (s.cur + step))
          rw [Search.test_of_failed hi] at hrest ⊢
          exact hrest

theorem searchWith_eq (htest : ∀ tested : List ℕ, ∀ i, 0 < i →
      test i (tested.foldr effect t) = (passes i, effect i (tested.foldr effect t)))
    (b fuel : ℕ) :
    ∀ (step : ℕ) (s : Search), searchWith test b fuel step (s, s.tested.foldr effect t) =
      (search passes b fuel step s).map fun s' => (s', s'.tested.foldr effect t) := by
  induction fuel with
  | zero => exact fun step s => rfl
  | succ fuel ih =>
      intro step s
      rw [searchWith, search]
      by_cases hstep : step = 0
      · rw [if_pos hstep, if_pos hstep]
        rfl
      · rw [if_neg hstep, if_neg hstep, roundWith_eq htest (Nat.pos_of_ne_zero hstep)]
        cases hround : round passes step fuel s with
        | none => rfl
        | some s' => exact ih (step / b) { s' with cur := s'.low }

end Effects

/-! ## Invariants -/

section Invariant

variable {inv : Search → Prop}

theorem round_invariant (htest : ∀ s i, 0 < i → inv s → inv (s.test passes i)) (hstep : 0 < step)
    (hs : inv s) (h : round passes step fuel s = some s') : inv s' := by
  induction fuel generalizing s with
  | zero => cases h
  | succ fuel ih =>
      have hnext := htest s (s.cur + step) (Nat.add_pos_right s.cur hstep) hs
      rw [round] at h
      split at h
      · obtain rfl := Option.some.inj h
        exact hnext
      · exact ih hnext h

/-- What tests of positive values and going back keep holds at the end of a search. -/
theorem search_invariant (htest : ∀ s i, 0 < i → inv s → inv (s.test passes i))
    (hback : ∀ s : Search, inv s → inv { s with cur := s.low }) (hs : inv s)
    (h : search passes b fuel step s = some s') : inv s' := by
  induction fuel generalizing s step with
  | zero => cases h
  | succ fuel ih =>
      rw [search] at h
      split at h
      next => exact Option.some.inj h ▸ hs
      next hstep =>
        obtain ⟨s₁, hround, hrest⟩ := Option.bind_eq_some_iff.mp h
        have hround := round_invariant htest (Nat.pos_of_ne_zero hstep) hs hround
        exact ih (hback s₁ hround) hrest

end Invariant

/-- A report is about the last value tested, and the values tested are positive. -/
structure Search.Reports (s : Search) : Prop where
  last : ∀ i ∈ s.report, s.tested.head? = some i
  pos : ∀ i ∈ s.tested, 0 < i

theorem Search.Reports.test (hs : s.Reports) {i : ℕ} (hi : 0 < i) :
    (s.test passes i).Reports := by
  have hpos : ∀ j ∈ i :: s.tested, 0 < j := List.forall_mem_cons.mpr ⟨hi, hs.pos⟩
  cases hpasses : passes i with
  | true =>
      rw [Search.test_of_passed hpasses]
      exact ⟨fun j hj => hj, hpos⟩
  | false =>
      rw [Search.test_of_failed hpasses]
      exact ⟨nofun, hpos⟩

theorem reports_init : Search.init.Reports where
  last i hi := by cases hi
  pos i hi := by cases hi

theorem reports_search (h : search passes b fuel step Search.init = some s) : s.Reports :=
  search_invariant (fun _ _ hi hs => hs.test hi) (fun _ hs => ⟨hs.last, hs.pos⟩) reports_init h

end CoarseToFine

end PerfHound.Lib
