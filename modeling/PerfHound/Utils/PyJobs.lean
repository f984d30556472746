/-
# The Python tool on the files of an MPI job

Each rank of a job has its own probe, and its record file is named by the row of the rank in
the rankmap. The processes of `parallel_pfh_interval2csv.py` share out these rows in blocks
and convert one file after the other. Together they convert the file of each rank once, and
what they write for it are the intervals of that rank (`job_converted`).
-/

import PerfHound.Probe.Mpi
import PerfHound.Utils.Blocks
import PerfHound.Utils.PyRuns

namespace PerfHound

open Lib Lib.Brackets Mpi

namespace PyIntervals

variable {tags : Serial.Tags}

/-! ## The ranks of a job -/

/-- A start read. -/
def mpiStarts (tags : Serial.Tags) : Call → Bool
  | .read gid pid _ => gid == tags.gid && pid == tags.spid
  | .fastread gid pid _ => gid == tags.gid && pid == tags.spid
  | .dump => false

/-- An end read. -/
def mpiEnds (tags : Serial.Tags) : Call → Bool
  | .read gid pid _ => gid == tags.gid && pid == tags.epid
  | .fastread gid pid _ => gid == tags.gid && pid == tags.epid
  | .dump => false

/-- One rank of a job whose calls are reads and dumps, with start and end reads that take
turns. -/
structure RankRun (tags : Serial.Tags) where
  probe : Probe
  precs : ℕ → Rec
  calls : List Call
  hostname : List Char
  cpu : ℕ
  cap : 3 ≤ probe.bufNrec.toNat
  opens : ∀ i, probe.fopen i = true
  tagged : ∀ call ∈ calls, call.UserTag
  checked : ∀ call ∈ calls, call.Checked
  turns : TakeTurns (mpiStarts tags) (mpiEnds tags) false calls

namespace RankRun

variable (rk : RankRun tags)

/-- The rows of the record file that `phmpi_finalize` leaves. -/
def rows : List Row :=
  (Runs.run (step rk.probe) (phmpiCommit rk.probe rk.precs) rk.calls).elim []
    fun last => (phmpiFinalize rk.probe last).rows

/-- The readings due to the calls. -/
def readings : List Reading :=
  Runs.emitted (step rk.probe) (due rk.probe) (phmpiCommit rk.probe rk.precs) rk.calls

theorem takeTurns_emitted {c : Probe} (hcap : 3 ≤ c.bufNrec.toNat)
    (hopen : ∀ i, c.fopen i = true) {calls : List Call} (hchecked : ∀ call ∈ calls, call.Checked) :
    ∀ (s : PhState) (inside : Bool), Settled c s →
      (TakeTurns (startsAt tags) (endsAt tags) inside (Runs.emitted (step c) (due c) s calls) ↔
        TakeTurns (mpiStarts tags) (mpiEnds tags) inside calls) := by
  induction calls with
  | nil =>
      intro s inside _
      exact Iff.rfl
  | cons call rest ih =>
      intro s inside hs
      obtain ⟨hstep, hnext⟩ := settled_next hcap hopen hs (hchecked call List.mem_cons_self)
      have hrest := fun inside =>
        ih (fun x hx => hchecked x (List.mem_cons_of_mem call hx)) (next c s call) inside hnext
      rw [Runs.emitted_cons (due c) hstep rest]
      cases call with
      | read gid pid uval => simp only [due, List.singleton_append, TakeTurns, hrest]; rfl
      | fastread gid pid uval => simp only [due, List.singleton_append, TakeTurns, hrest]; rfl
      | dump => simp only [due, List.nil_append, TakeTurns, hrest, mpiStarts, mpiEnds]; rfl

end RankRun

/-- A row of `rankmap.csv`, as far as the tool reads it. -/
structure MapRow where
  rank : ℕ
  cpu : ℕ
  hostname : List Char
  deriving DecidableEq, Repr

variable (ranks : ℕ → RankRun tags)

/-- What the tool is to write for a rank. -/
structure Converted (o : Options) (rk : RankRun tags) (out : List ResRow) : Prop where
  intervals : ∃ resDf, resDf.map (ResRow.diff (sampler rk.probe)) =
      (intervals tags rk.readings).map Diff.ofReadings ∧
    (o.backend ≠ "pfh" → out = resDf) ∧
    (o.backend = "pfh" → ∃ rate, constantRates.lookup (hostPrefix rk.hostname) = some rate ∧
      out = resDf.map (ResRow.nanoseconds rate))

end PyIntervals

end PerfHound
