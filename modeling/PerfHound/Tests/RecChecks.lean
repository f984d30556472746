/-
# What the test suite reads off a record file

The tests run a small program and then look at its record file: whether the times never go back
and are not all zero, how many samples a group has, whether a tag occurs, and what the counters
did between two tags. Each check is a loop over the lines of the file. A row the probe prints is
shorter than the line buffer and `sscanf` reads its five leading fields, so the loops are
modelled on the rows. `%lld` takes a number that does not fit for the largest one.

On the file of a finalized run the checks are statements about the samplings (`Transcript`) and
the calls of the program, wherever the buffer was flushed.
-/

import PerfHound.Probe.RecText
import PerfHound.Probe.Transcript
import PerfHound.Utils.PyRuns

namespace PerfHound

open Lib Lib.CText RecText

namespace RecChecks

variable (b : Build)

/-- What `%lld` makes of a printed counter. -/
def lld (v : U64) : ℤ :=
  match b.api with
  | .papi => v.toInt
  | .phasm => min (2 ^ 63 - 1) v.toNat

/-- `cy` and `ns` as `_sf_parse_rec_line` reads them. -/
def times (cy ns : U64) : ℤ × ℤ := (lld b cy, lld b ns)

/-- The loop of `ph_test_rec_monotonic_times` over the lines that are left. `rows` is an `int`,
and the files of the tests have far fewer than `INT_MAX` rows. -/
def monotonicLoop : ℤ × ℤ → ℕ → Bool → List Row → Except ℤ ℕ
  | _, rows, allZero, [] => if rows = 0 ∨ allZero then .error (-3) else .ok rows
  | prev, rows, allZero, r :: rest =>
      let (cy, ns) := times b r.cy r.ns
      let allZero := if cy ≠ 0 ∨ ns ≠ 0 then false else allZero
      if 1 < rows + 1 ∧ (cy < prev.1 ∨ ns < prev.2) then .error (-2)
      else monotonicLoop (cy, ns) (rows + 1) allZero rest

/-- `ph_test_rec_monotonic_times`: its result, or `out_rows`. -/
def phTestRecMonotonicTimes (rows : List Row) : Except ℤ ℕ := monotonicLoop b (0, 0) 0 true rows

def phTestRecHasTag (gid pid : U32) (rows : List Row) : Bool :=
  rows.any fun r => r.gid == gid && r.pid == pid

def phTestRecCountUserSamples (gid : U32) (rows : List Row) : ℕ :=
  rows.countP fun r => r.gid == gid

def sfFindTagTimes (gid pid : U32) (rows : List Row) : Option (ℤ × ℤ) :=
  (rows.find? fun r => r.gid == gid && r.pid == pid).map fun r => times b r.cy r.ns

/-- `ph_test_rec_delta_for_tag`. The differences are those of `long long` by `delta_fits`. -/
def phTestRecDeltaForTag (gid pidStart : U32) (rows : List Row) : Option (ℤ × ℤ) := do
  let (cy0, ns0) ← sfFindTagTimes b gid pidStart rows
  let (cy1, ns1) ← sfFindTagTimes b gid (pidStart + 1) rows
  return (cy1 - cy0, ns1 - ns0)

variable {b}

theorem strtol_int64Text (v : U64) {rest : List Char} (hrest : NoDigit rest) :
    strtol (int64Text b v ++ rest) = (lld b v, rest) := by
  cases hapi : b.api with
  | papi =>
      simp only [int64Text, lld, hapi]
      exact strtol_signedDecimal (BitVec.le_toInt v) (BitVec.toInt_lt) hrest
  | phasm =>
      have hclamp : max (-2 ^ 63) (min (2 ^ 63 - 1) (v.toNat : ℤ)) =
          min (2 ^ 63 - 1) (v.toNat : ℤ) := by
        omega
      simp only [int64Text, lld, hapi, strtol, scanNumeral_decimal v.toNat hrest,
        Bool.false_eq_true, if_false, hclamp]

/-- What is read back is a `long long`. -/
theorem lld_lt (b : Build) (v : U64) : lld b v < 2 ^ 63 := by
  cases hapi : b.api with
  | papi =>
      rw [lld, hapi]
      exact BitVec.toInt_lt
  | phasm =>
      simp only [lld, hapi]
      omega

theorem lld_nonneg (hapi : b.api = .phasm) (v : U64) : 0 ≤ lld b v := by
  simp only [lld, hapi]
  omega

theorem sfFindTagTimes_lt {gid pid : U32} {rows : List Row} {t : ℤ × ℤ}
    (h : sfFindTagTimes b gid pid rows = some t) : t.1 < 2 ^ 63 ∧ t.2 < 2 ^ 63 := by
  obtain ⟨r, -, rfl⟩ := Option.map_eq_some_iff.mp h
  exact ⟨lld_lt b r.cy, lld_lt b r.ns⟩

theorem sfFindTagTimes_nonneg {gid pid : U32} {rows : List Row} {t : ℤ × ℤ}
    (hnonneg : b.api = .phasm ∨ ∀ r ∈ rows, 0 ≤ lld b r.cy ∧ 0 ≤ lld b r.ns)
    (h : sfFindTagTimes b gid pid rows = some t) : 0 ≤ t.1 ∧ 0 ≤ t.2 := by
  obtain ⟨r, hr, rfl⟩ := Option.map_eq_some_iff.mp h
  rcases hnonneg with hapi | hnonneg
  · exact ⟨lld_nonneg hapi r.cy, lld_nonneg hapi r.ns⟩
  · exact hnonneg r (List.mem_of_find?_eq_some hr)

/-- Subtracting does not overflow where no time is negative. With PHASM none is, and PAPI
counts its time up from some point in the past. -/
theorem delta_fits {gid pid : U32} {rows : List Row} {d : ℤ × ℤ}
    (hnonneg : b.api = .phasm ∨ ∀ r ∈ rows, 0 ≤ lld b r.cy ∧ 0 ≤ lld b r.ns)
    (h : phTestRecDeltaForTag b gid pid rows = some d) :
    (-2 ^ 63 < d.1 ∧ d.1 < 2 ^ 63) ∧ -2 ^ 63 < d.2 ∧ d.2 < 2 ^ 63 := by
  simp only [phTestRecDeltaForTag, Option.bind_eq_bind, Option.bind_eq_some_iff] at h
  obtain ⟨t, hstart, u, hend, hd⟩ := h
  obtain rfl := Option.some.inj hd
  have hstartLt := sfFindTagTimes_lt hstart
  have hstartNonneg := sfFindTagTimes_nonneg hnonneg hstart
  have hendLt := sfFindTagTimes_lt hend
  have hendNonneg := sfFindTagTimes_nonneg hnonneg hend
  constructor <;> constructor <;> simp only <;> omega

/-! ## The check of the times -/

/-- One time is not before the other. -/
def NotBefore (t u : ℤ × ℤ) : Prop := t.1 ≤ u.1 ∧ t.2 ≤ u.2

/-- `all_zero` after a row. -/
theorem allZero_iff {r : Row} {rest : List Row} {allZero : Bool} :
    ((if (times b r.cy r.ns).1 ≠ 0 ∨ (times b r.cy r.ns).2 ≠ 0 then false else allZero) = false ∨
        ∃ r' ∈ rest, times b r'.cy r'.ns ≠ (0, 0)) ↔
      (allZero = false ∨ ∃ r' ∈ r :: rest, times b r'.cy r'.ns ≠ (0, 0)) := by
  simp only [List.mem_cons, exists_eq_or_imp]
  rw [← or_assoc]
  apply or_congr_left
  have hne : times b r.cy r.ns ≠ (0, 0) ↔
      (times b r.cy r.ns).1 ≠ 0 ∨ (times b r.cy r.ns).2 ≠ 0 := by
    rw [Ne, Prod.ext_iff, not_and_or]
  rw [hne]
  split
  case isTrue hsome => exact iff_of_true rfl (Or.inr hsome)
  case isFalse hnone => exact (or_iff_left hnone).symm

/-- The loop after the first row. -/
theorem monotonicLoop_eq_ok_iff {rows : List Row} {prev : ℤ × ℤ} {n m : ℕ} {allZero : Bool}
    (hn : 0 < n) :
    monotonicLoop b prev n allZero rows = .ok m ↔
      m = n + rows.length ∧
        List.IsChain NotBefore (prev :: rows.map fun r => times b r.cy r.ns) ∧
        (allZero = false ∨ ∃ r ∈ rows, times b r.cy r.ns ≠ (0, 0)) := by
  induction rows generalizing prev n allZero with
  | nil =>
      cases allZero with
      | true => simp [monotonicLoop]
      | false => simp [monotonicLoop, Nat.ne_of_gt hn, eq_comm]
  | cons r rest ih =>
      rw [monotonicLoop, List.map_cons, List.isChain_cons_cons, List.length_cons]
      by_cases hback : (times b r.cy r.ns).1 < prev.1 ∨ (times b r.cy r.ns).2 < prev.2
      · have hnot : ¬ NotBefore prev (times b r.cy r.ns) := fun h =>
          hback.elim (not_lt.mpr h.1) (not_lt.mpr h.2)
        simp only [Nat.lt_add_left_iff_pos, hn, hback, and_self, if_true, hnot, false_and,
          and_false, iff_false]
        exact nofun
      · have hnext : NotBefore prev (times b r.cy r.ns) := by
          rw [not_or, not_lt, not_lt] at hback
          exact hback
        simp only [hback, and_false, if_false, hnext, true_and]
        rw [ih (Nat.succ_pos n), allZero_iff, Nat.succ_add]
        rfl

/-- **What the check of the times says.** It passes, and reports the number of rows, exactly
when no row is before the one above it and not all of them are zero. -/
theorem phTestRecMonotonicTimes_eq_ok_iff {rows : List Row} {m : ℕ} :
    phTestRecMonotonicTimes b rows = .ok m ↔
      m = rows.length ∧ List.IsChain NotBefore (rows.map fun r => times b r.cy r.ns) ∧
        ∃ r ∈ rows, times b r.cy r.ns ≠ (0, 0) := by
  cases rows with
  | nil => simp [phTestRecMonotonicTimes, monotonicLoop]
  | cons r rest =>
      rw [phTestRecMonotonicTimes, monotonicLoop]
      simp only [Nat.zero_add, Nat.lt_irrefl, false_and, if_false]
      rw [monotonicLoop_eq_ok_iff Nat.one_pos, allZero_iff, Nat.add_comm 1]
      simp

section Run

open Serial

variable {c : Probe}

/-- The times of one sampling, as the check reads them. -/
def sampleTimes (c : Probe) (k : ℕ) : ℤ × ℤ := times c.build (c.sample k).cy (c.sample k).ns

/-- A row that shows a sampling has its times. -/
theorem times_of_shows {m : Sample} {r : Row} (h : r.Shows (sampler c) c.nev m) :
    times b r.cy r.ns = times b m.cy m.ns := by
  obtain ⟨gid, pid, uval, hreading⟩ := h
  have hcy : r.cy = m.cy := Option.some.inj (congrArg Reading.cy hreading)
  have hns : r.ns = m.ns := congrArg Reading.ns hreading
  rw [hcy, hns]

/-- **The check of the times on a run.** On the file a finalized run leaves, after any calls,
the check passes exactly when the cycles and the times the hardware delivered to the successive
samplings never went back and were not all zero; and then it reports the number of samplings. -/
theorem monotonic_times_of_run (c : Probe) (hcap : 3 ≤ c.bufNrec.toNat)
    (hopen : ∀ i, c.fopen i = true) (precs : ℕ → Rec) (calls : List Call) :
    ∃ start last final : PhState,
      (∀ depth, 2 ≤ depth → phCommit c depth (init precs) = some start ∧
        Runs.run (step c depth) start calls = some last ∧
        phFinalize c depth last = some final) ∧
      ∀ m, phTestRecMonotonicTimes c.build final.rows = .ok m ↔
        m = final.nsample ∧
          (∀ k, k + 1 < final.nsample → NotBefore (sampleTimes c k) (sampleTimes c (k + 1))) ∧
          ∃ k < final.nsample, sampleTimes c k ≠ (0, 0) := by
  obtain ⟨final, hfinal, htranscript⟩ := exists_transcript hcap hopen precs calls
  have hlength := htranscript.length_eq
  rw [List.length_range] at hlength
  have htimes : (final.rows.map fun r => times c.build r.cy r.ns) =
      (List.range final.nsample).map (sampleTimes c) := by
    rw [← List.forall₂_eq_eq_eq, List.forall₂_map_left_iff, List.forall₂_map_right_iff]
    exact htranscript.imp fun r k hshows => times_of_shows hshows
  have hmem : ∀ {α : Type} (l : List α) (f : α → ℤ × ℤ),
      (∃ a ∈ l, f a ≠ (0, 0)) ↔ ∃ t ∈ l.map f, t ≠ (0, 0) := by
    intro α l f
    simp only [List.mem_map, exists_exists_and_eq_and]
  have hsome : (∃ r ∈ final.rows, times c.build r.cy r.ns ≠ (0, 0)) ↔
      ∃ k < final.nsample, sampleTimes c k ≠ (0, 0) := by
    rw [hmem, htimes, ← hmem]
    simp only [List.mem_range]
  refine ⟨_, _, final, hfinal, fun m => ?_⟩
  rw [phTestRecMonotonicTimes_eq_ok_iff, htimes, hsome, hlength, List.isChain_iff_getElem]
  simp

theorem monotonic_times_of_run_smallest :
    ∃ start last final : PhState,
      (∀ depth, 2 ≤ depth →
        phCommit Probe.smallest depth (init fun _ => Rec.cleared) = some start ∧
        Runs.run (step Probe.smallest depth) start [.dump, .read 1 1 Double.zero] = some last ∧
        phFinalize Probe.smallest depth last = some final) ∧
      ∀ m, phTestRecMonotonicTimes Probe.smallest.build final.rows = .ok m ↔
        m = final.nsample ∧
          (∀ k, k + 1 < final.nsample →
            NotBefore (sampleTimes Probe.smallest k) (sampleTimes Probe.smallest (k + 1))) ∧
          ∃ k < final.nsample, sampleTimes Probe.smallest k ≠ (0, 0) :=
  monotonic_times_of_run Probe.smallest (by decide) (fun _ => rfl) (fun _ => Rec.cleared)
    [.dump, .read 1 1 Double.zero]

/-! ## The checks of the tags -/

/-- The arguments of a `ph_read`. -/
def readArgs : Call → Option (U32 × U32 × Double)
  | .read gid pid uval => some (gid, pid, uval)
  | .dump => none

theorem mem_filterMap_readArgs {calls : List Call} {gid pid : U32} {uval : Double} :
    (gid, pid, uval) ∈ calls.filterMap readArgs ↔ Call.read gid pid uval ∈ calls := by
  rw [List.mem_filterMap]
  constructor
  · rintro ⟨call, hcall, hargs⟩
    cases call with
    | read g p u =>
        obtain ⟨rfl, rfl, rfl⟩ : g = gid ∧ p = pid ∧ u = uval := by simpa [readArgs] using hargs
        exact hcall
    | dump => cases hargs
  · intro hcall
    exact ⟨_, hcall, rfl⟩

/-- The readings of a run carry the arguments of its calls. -/
theorem args_emitted (hcap : 3 ≤ c.bufNrec.toNat) (calls : List Call) :
    ∀ s, Ready c s → (Runs.emitted (step c 2) (due c) s calls).map
        (fun r => (r.gid, r.pid, r.uval)) = calls.filterMap readArgs := by
  induction calls with
  | nil =>
      intro s _
      rfl
  | cons call rest ih =>
      intro s hs
      rw [Runs.emitted_cons (due c) (step_eq 0 hcap hs call) rest, List.map_append,
        ih (next c s call) (ready_next hcap hs call)]
      cases call with
      | read gid pid uval => rfl
      | dump => rfl

/-- The times of a reading, as the checks read them. -/
def readingTimes (b : Build) (r : Reading) : ℤ × ℤ := times b (r.cy.getD 0) r.ns

/-- How the times of an interval differ. -/
def intervalDelta (b : Build) (p : Reading × Reading) : ℤ × ℤ :=
  ((readingTimes b p.2).1 - (readingTimes b p.1).1, (readingTimes b p.2).2 - (readingTimes b p.1).2)

section Tagged

variable {rows : List Row} {readings : List Reading} {gid : U32}

theorem beq_and_ne_zero (hgid : gid ≠ 0) (r : Row) :
    (r.gid == gid && r.gid != 0) = (r.gid == gid) := by
  cases hr : r.gid == gid with
  | true =>
      rw [beq_iff_eq.mp hr, bne_iff_ne.mpr hgid]
      rfl
  | false => rfl

theorem count_of_tagged (hgid : gid ≠ 0)
    (hrows : (rows.filter fun r => r.gid != 0).map (Row.reading (sampler c)) = readings) :
    phTestRecCountUserSamples gid rows = readings.countP fun r => r.gid == gid := by
  rw [← hrows, List.countP_map, List.countP_filter, phTestRecCountUserSamples]
  apply List.countP_congr
  intro r _
  rw [← beq_and_ne_zero hgid r]
  rfl

theorem find_of_tagged (hgid : gid ≠ 0)
    (hrows : (rows.filter fun r => r.gid != 0).map (Row.reading (sampler c)) = readings)
    (pid : U32) : sfFindTagTimes b gid pid rows =
      (readings.find? fun r => r.gid == gid && r.pid == pid).map (readingTimes b) := by
  have hfind : (rows.find? fun r => r.gid == gid && r.pid == pid) =
      rows.find? fun r => decide ((r.gid != 0) = true ∧ (r.gid == gid && r.pid == pid) = true) := by
    apply congrArg fun q => rows.find? q
    funext r
    rw [← beq_and_ne_zero hgid r]
    cases r.gid == gid <;> cases r.gid != 0 <;> cases r.pid == pid <;> rfl
  rw [sfFindTagTimes, hfind, ← hrows, List.find?_map, List.find?_filter, Option.map_map]
  rfl

theorem hasTag_of_tagged (hgid : gid ≠ 0)
    (hrows : (rows.filter fun r => r.gid != 0).map (Row.reading (sampler c)) = readings)
    (pid : U32) : phTestRecHasTag gid pid rows =
      readings.any fun r => r.gid == gid && r.pid == pid := by
  rw [← hrows, List.any_map, List.any_filter, phTestRecHasTag]
  apply congrArg fun q => rows.any q
  funext r
  rw [← beq_and_ne_zero hgid r, Bool.and_comm (r.gid == gid), Bool.and_assoc]
  rfl

/-- Where the ends of the tag take turns, the first of each make up the first interval. -/
theorem delta_of_tagged {pid : U32} (hgid : gid ≠ 0)
    (hrows : (rows.filter fun r => r.gid != 0).map (Row.reading (sampler c)) = readings)
    (hturns : Brackets.TakeTurns (PyIntervals.startsAt ⟨gid, pid, pid + 1⟩)
      (PyIntervals.endsAt ⟨gid, pid, pid + 1⟩) false readings) :
    phTestRecDeltaForTag b gid pid rows =
      (PyIntervals.intervals ⟨gid, pid, pid + 1⟩ readings).head?.map (intervalDelta b) := by
  have hne : pid ≠ pid + 1 := by bv_omega
  have hkth := Brackets.kth_eq_brackets (@PyIntervals.apart_readings ⟨gid, pid, pid + 1⟩ hne)
    hturns
  rw [PyIntervals.intervals, ← hkth, phTestRecDeltaForTag, find_of_tagged hgid hrows,
    find_of_tagged hgid hrows, Brackets.kth, List.zip, List.head?_zipWith, List.head?_filter,
    List.head?_filter]
  show (do
      let (cy0, ns0) ← (readings.find?
        (PyIntervals.startsAt ⟨gid, pid, pid + 1⟩)).map (readingTimes b)
      let (cy1, ns1) ← (readings.find?
        (PyIntervals.endsAt ⟨gid, pid, pid + 1⟩)).map (readingTimes b)
      some (cy1 - cy0, ns1 - ns0)) = _
  cases readings.find? (PyIntervals.startsAt ⟨gid, pid, pid + 1⟩) with
  | none => rfl
  | some s =>
      cases readings.find? (PyIntervals.endsAt ⟨gid, pid, pid + 1⟩) with
      | none => rfl
      | some e => rfl

end Tagged

/-- **The checks of the tags on a run.** On the file a finalized run leaves, the checks count
the calls of a group of the user, find exactly the tags it has used, and where the reads of a
start tag and of the next tag take turns, report the differences over the first interval. -/
theorem tag_checks_of_run (c : Probe) (hcap : 3 ≤ c.bufNrec.toNat)
    (hopen : ∀ i, c.fopen i = true) (precs : ℕ → Rec) (calls : List Call)
    (htags : ∀ call ∈ calls, call.UserTag) (gid : U32) (hgid : gid ≠ 0) :
    ∃ start last final : PhState,
      (∀ depth, 2 ≤ depth → phCommit c depth (init precs) = some start ∧
        Runs.run (step c depth) start calls = some last ∧
        phFinalize c depth last = some final) ∧
      phTestRecCountUserSamples gid final.rows =
        (calls.filterMap readArgs).countP (fun args => args.1 == gid) ∧
      (∀ pid, phTestRecHasTag gid pid final.rows ↔ ∃ uval, Call.read gid pid uval ∈ calls) ∧
      ∀ pid, Brackets.TakeTurns (PyIntervals.callStarts ⟨gid, pid, pid + 1⟩)
          (PyIntervals.callEnds ⟨gid, pid, pid + 1⟩) false calls →
        phTestRecDeltaForTag c.build gid pid final.rows =
          (PyIntervals.intervals ⟨gid, pid, pid + 1⟩
            (Runs.emitted (step c 2) (due c) start calls)).head?.map (intervalDelta c.build) := by
  obtain ⟨final, hfinal, hfile⟩ := PyIntervals.exists_finalized hcap hopen precs calls
  have hrows := PyIntervals.tagged_rows_of_run hcap hopen precs htags
  rw [← hfile] at hrows
  have hready := ready_committed hcap precs
  have hargs := args_emitted hcap calls _ hready
  refine ⟨_, _, final, hfinal, ?_, fun pid => ?_, fun pid hturns => ?_⟩
  · rw [count_of_tagged hgid hrows, ← hargs, List.countP_map]
    rfl
  · rw [hasTag_of_tagged hgid hrows, List.any_eq_true]
    simp only [← mem_filterMap_readArgs, ← hargs, List.mem_map, Prod.mk.injEq, Bool.and_eq_true,
      beq_iff_eq]
    rw [exists_comm]
    simp
  · exact delta_of_tagged hgid hrows
      ((PyIntervals.takeTurns_emitted hcap calls _ false hready).mpr hturns)

theorem tag_checks_of_run_smallest :
    ∃ start last final : PhState,
      (∀ depth, 2 ≤ depth →
        phCommit Probe.smallest depth (init fun _ => Rec.cleared) = some start ∧
        Runs.run (step Probe.smallest depth) start PyIntervals.apartCalls = some last ∧
        phFinalize Probe.smallest depth last = some final) ∧
      phTestRecCountUserSamples 1 final.rows = 2 ∧ ¬ phTestRecHasTag 1 7 final.rows ∧
      phTestRecDeltaForTag Probe.smallest.build 1 1 final.rows =
        (PyIntervals.intervals ⟨1, 1, 2⟩ (Runs.emitted (step Probe.smallest 2)
          (due Probe.smallest) start PyIntervals.apartCalls)).head?.map
            (intervalDelta Probe.smallest.build) := by
  obtain ⟨start, last, final, hrun, hcount, hhas, hdelta⟩ := tag_checks_of_run Probe.smallest
    (by decide) (fun _ => rfl) (fun _ => Rec.cleared) PyIntervals.apartCalls
    PyIntervals.userTag_apartCalls 1 (by decide)
  refine ⟨start, last, final, hrun, hcount, ?_, hdelta 1 PyIntervals.takeTurns_apartCalls⟩
  rw [hhas 7]
  simp [PyIntervals.apartCalls]

end Run

end RecChecks

end PerfHound
