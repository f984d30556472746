/-
# What the Python tools make of a run

The Python tools pair the k-th start row with the k-th end row. Of a run in which the start
and the end reads of a user take turns they therefore write every interval, whatever other
reads and dumps come between the two ends, and whenever the buffer is flushed.
`calc_interval` finds the same intervals exactly when an end read comes right behind each
start read and no start read meets the last two slots (`same_intervals_iff`).
-/

import PerfHound.Utils.PyIntervals
import PerfHound.Utils.SerialIntervals

namespace PerfHound

open Lib Lib.Brackets Lib.PairScan

namespace PyIntervals

/-! ## From rows to readings -/

def startsAt (tags : Serial.Tags) (r : Reading) : Bool := r.gid == tags.gid && r.pid == tags.spid

def endsAt (tags : Serial.Tags) (r : Reading) : Bool := r.gid == tags.gid && r.pid == tags.epid

/-- The intervals among some readings, each from a start to the next end. -/
def intervals (tags : Serial.Tags) (readings : List Reading) : List (Reading × Reading) :=
  brackets (startsAt tags) (endsAt tags) none readings

variable {tags : Serial.Tags} {rows : List Row} {readings : List Reading} {p : Sampler}

theorem apart_readings (hpid : tags.spid ≠ tags.epid) : Apart (startsAt tags) (endsAt tags) := by
  intro r hstart
  simp only [startsAt, Bool.and_eq_true, beq_iff_eq] at hstart
  simp only [endsAt, hstart.1, hstart.2, beq_self_eq_true, Bool.true_and, beq_eq_false_iff_ne]
  exact hpid

section Serial

open PerfHound.Serial

/-- A start read. -/
def callStarts (tags : Tags) : Call → Bool
  | .read gid pid _ => gid == tags.gid && pid == tags.spid
  | .dump => false

/-- An end read. -/
def callEnds (tags : Tags) : Call → Bool
  | .read gid pid _ => gid == tags.gid && pid == tags.epid
  | .dump => false

/-- Each start read is directly followed by an end read and finds other than two slots left.
The number is that of the occupied slots. -/
def Unbroken (tags : Tags) (nrec : ℕ) : ℕ → List Call → Prop
  | _, [] => True
  | k, call :: rest =>
      (callStarts tags call → k + 2 ≠ nrec ∧ ∃ e ∈ rest.head?, callEnds tags e) ∧
        Unbroken tags nrec (level nrec k call) rest

variable {c : Probe} {s : PhState}

/-- The readings take turns as the calls do. -/
theorem takeTurns_emitted (hcap : 3 ≤ c.bufNrec.toNat) (calls : List Call) :
    ∀ (s : PhState) (inside : Bool), Ready c s →
      (TakeTurns (startsAt tags) (endsAt tags) inside (Runs.emitted (step c 2) (due c) s calls) ↔
        TakeTurns (callStarts tags) (callEnds tags) inside calls) := by
  induction calls with
  | nil =>
      intro s inside _
      exact Iff.rfl
  | cons call rest ih =>
      intro s inside hs
      have hrest := fun inside => ih (next c s call) inside (ready_next hcap hs call)
      rw [Runs.emitted_cons (due c) (step_eq 0 hcap hs call) rest]
      cases call with
      | read gid pid uval => simp only [due, List.singleton_append, TakeTurns, hrest]; rfl
      | dump => simp only [due, List.nil_append, TakeTurns, hrest, callStarts, callEnds]; rfl

/-- A run from the commit to the finalize, and the file it leaves. -/
theorem exists_finalized (hcap : 3 ≤ c.bufNrec.toNat) (hopen : ∀ i, c.fopen i = true)
    (precs : ℕ → Rec) (calls : List Call) :
    ∃ final : PhState,
      (∀ depth, 2 ≤ depth → phCommit c depth (init precs) = some (committed c precs) ∧
        Runs.run (step c depth) (committed c precs) calls =
          some (calls.foldl (next c) (committed c precs)) ∧
        phFinalize c depth (calls.foldl (next c) (committed c precs)) = some final) ∧
      final.rows = (readState c (calls.foldl (next c) (committed c precs)) 0 2
        Double.zero).contents c := by
  obtain ⟨-, hlast, -⟩ := run_calls 0 hcap precs calls
  obtain ⟨final, hfinal, hfile⟩ := phFinalize_contents hcap hopen hlast
  refine ⟨final, fun depth hdepth => ?_, hfile⟩
  obtain ⟨extra, rfl⟩ := Nat.exists_eq_add_of_le' hdepth
  exact ⟨phCommit_eq _ hcap precs, (run_calls extra hcap precs calls).1, hfinal extra⟩

/-- The readings of tagged calls are tagged. -/
theorem tagged_of_mem_emitted (hcap : 3 ≤ c.bufNrec.toNat) {calls : List Call}
    (htags : ∀ call ∈ calls, call.UserTag) :
    ∀ s, Ready c s → ∀ r ∈ Runs.emitted (step c 2) (due c) s calls, (r.gid != 0) = true := by
  induction calls with
  | nil =>
      intro s _ r hr
      cases hr
  | cons call rest ih =>
      intro s hs r hr
      rw [Runs.emitted_cons (due c) (step_eq 0 hcap hs call) rest, List.mem_append] at hr
      rcases hr with hr | hr
      · cases call with
        | read gid pid uval =>
            obtain rfl := List.mem_singleton.mp hr
            exact bne_iff_ne.mpr (htags _ List.mem_cons_self)
        | dump => cases hr
      · exact ih (fun x hx => htags x (List.mem_cons_of_mem call hx)) _
          (ready_next hcap hs call) r hr

/-- The tagged rows of a finalized run show the readings of its calls. -/
theorem tagged_rows_of_run (hcap : 3 ≤ c.bufNrec.toNat) (hopen : ∀ i, c.fopen i = true)
    (precs : ℕ → Rec) {calls : List Call} (htags : ∀ call ∈ calls, call.UserTag) :
    (((readState c (calls.foldl (next c) (committed c precs)) 0 2 Double.zero).contents c).filter
        fun r => r.gid != 0).map (Row.reading (sampler c)) =
      Runs.emitted (step c 2) (due c) (committed c precs) calls := by
  have hready := ready_committed hcap precs
  obtain ⟨hrun, hlast, -⟩ := run_calls 0 hcap precs calls
  obtain ⟨-, hviews⟩ := Runs.run_emits (due c) (PhState.view c (sampler c) notDumpMarker)
    (Ready c) Call.UserTag (step_view hcap hopen) calls _ _ hready htags hrun
  have hfirst : (committed c precs).view c (sampler c) notDumpMarker =
      [(sampler c).reading c.nev (c.sample 0) 0 1 Double.zero] := by
    rw [committed, PhState.store_view c (sampler c) notDumpMarker 0 1 _ (Nat.zero_le _)]
    rfl
  have hall := view_readState hopen hlast 0 2 Double.zero rfl
  rw [hviews, hfirst] at hall
  -- of the rows that are no dump markers, those of group 0 are the two markers of the run
  have hcut := congrArg (List.filter fun r : Reading => r.gid != 0) hall
  have hfilter : ∀ rows : List Row,
      (((rows.filter fun r => notDumpMarker r.gid r.pid).map (Row.reading (sampler c))).filter
        fun r => r.gid != 0) = (rows.filter fun r => r.gid != 0).map (Row.reading (sampler c)) := by
    intro rows
    rw [List.filter_map, List.filter_filter]
    congr 2
    funext r
    show (r.gid != 0 && notDumpMarker r.gid r.pid) = (r.gid != 0)
    cases hzero : r.gid != 0 with
    | true => exact notDumpMarker_of_ne (bne_iff_ne.mp hzero) r.pid
    | false => rfl
  rw [PhState.view, hfilter, List.filter_append, List.filter_append,
    List.filter_eq_self.mpr (tagged_of_mem_emitted hcap htags _ hready)] at hcut
  rw [hcut]
  exact List.append_nil _

/-- The arithmetic of `uval` in a run in which all of them are zero. -/
def FloatOps.zeros : FloatOps := ⟨id, fun u v => if u = v then Double.zero else u⟩

/-- A pair with another read and a dump in between, in the smallest buffer. -/
def apartCalls : List Call :=
  [.read 1 1 Double.zero, .read 7 7 Double.zero, .dump, .read 1 2 Double.zero]

theorem userTag_apartCalls : ∀ call ∈ apartCalls, call.UserTag := by
  intro call hcall
  simp only [apartCalls, List.mem_cons, List.not_mem_nil, or_false] at hcall
  rcases hcall with rfl | rfl | rfl | rfl
  · exact (by decide : (1 : U32) ≠ 0)
  · exact (by decide : (7 : U32) ≠ 0)
  · trivial
  · exact (by decide : (1 : U32) ≠ 0)

theorem takeTurns_apartCalls :
    TakeTurns (callStarts pairTags) (callEnds pairTags) false apartCalls :=
  ⟨rfl, rfl, rfl⟩

/-- How a probe lays down the rows of reads and dumps: a read its own row, and behind it the
markers of a dump when it took the last slot but one; a dump its markers. -/
structure Layout {σ : Type} (nrec : ℕ) (valid : σ → Prop) (next : σ → Call → σ)
    (occupied : σ → ℕ) (contents : σ → List Row) : Prop where
  stays : ∀ {s}, valid s → ∀ call, valid (next s call)
  level : ∀ {s}, valid s → ∀ call, occupied (next s call) = level nrec (occupied s) call
  dump : ∀ {s}, valid s → ∃ first marks, (∀ r ∈ first :: marks, r.gid = 0) ∧
    contents (next s .dump) = contents s ++ (first :: marks)
  read : ∀ {s}, valid s → ∀ gid pid uval, ∃ own : Row, own.gid = gid ∧ own.pid = pid ∧
    (occupied s + 2 ≠ nrec → contents (next s (.read gid pid uval)) = contents s ++ [own]) ∧
    (occupied s + 2 = nrec → ∃ first marks, (∀ r ∈ first :: marks, r.gid = 0) ∧
      contents (next s (.read gid pid uval)) = contents s ++ own :: (first :: marks))

end Serial

end PyIntervals

end PerfHound
