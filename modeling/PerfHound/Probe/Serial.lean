/-
# The serial probe: `ph_read` and `ph_dump`

`ph_read` stores a record and, when one empty slot is left, calls `ph_dump`;
`ph_dump` calls `ph_read` for its own two markers. The recursion is cut by an
exact equality on the index, so it is modelled with a bound on the number of
`ph_dump` activations open at once, and a call that would exceed the bound has no
result. A run that has a result at bound 2 never has more than two open.

The equality test can be stepped over only if the index skips a value. The
invariant `Ready` says where a user call finds it: at least one record in the
buffer and at least two free slots. From there each entry point has a closed form
(`readState`, `dumpState`) made of stores and dump tails.
-/

import PerfHound.Probe.Record
import PerfHound.Lib.Runs

namespace PerfHound

open Lib

namespace Serial

variable (c : Probe)

/-- How `ph_read` samples in this build. -/
def sampler : Sampler := Sampler.phRead c.build c.npapi

/-- `ph_read`, with the `ph_dump` it calls when `ph_irec+1-buf_nrec == 0`. -/
def phReadWith (dump : PhState → Option PhState) (s : PhState) (gid pid : U32)
    (uval : Double) : Option PhState :=
  let s := s.store c (sampler c) gid pid uval
  if s.irec + 1 - c.bufNrec = 0 then dump s else some s

/-- `ph_dump`, with at most `depth` activations open at once. -/
def phDump : ℕ → PhState → Option PhState
  | 0, _ => none
  | depth + 1, s => do
      let s ← phReadWith c (phDump depth) s 0 3 (Double.ofU32 (s.irec + 1))
      let s := (s.wtrec c s.irec).2
      phReadWith c (phDump depth) s.rewind 0 4 Double.zero

/-- `ph_read`, with at most `depth` activations of `ph_dump` open at once. -/
def phRead (depth : ℕ) : PhState → U32 → U32 → Double → Option PhState :=
  phReadWith c (phDump c depth)

/-- The state `ph_init` leaves, for any contents of the allocated buffer. -/
def init (precs : ℕ → Rec) : PhState :=
  { precs, irec := 0, rows := [], nrecTot := 0, nsample := 0, nopen := 0, log := [] }

/-- `ph_commit` once `ph_io_mkrec` has created the record file with its header:
no data rows, an empty buffer, and the marker (0,1). -/
def phCommit (depth : ℕ) (s : PhState) : Option PhState :=
  phRead c depth { s with rows := [], irec := 0 } 0 1 Double.zero

/-- `ph_finalize` up to its flush. -/
def phFinalize (depth : ℕ) (s : PhState) : Option PhState := do
  let s ← phRead c depth s 0 2 Double.zero
  return (s.wtrec c s.irec).2

/-- A user call between commit and finalize. -/
inductive Call
  | read (gid pid : U32) (uval : Double)
  | dump
  deriving DecidableEq, Repr

/-- One user call. -/
def step (depth : ℕ) (s : PhState) : Call → Option PhState
  | .read gid pid uval => phRead c depth s gid pid uval
  | .dump => phDump c depth s

/-- The reading a user call is due, given the state it is issued in: a `ph_read`
samples before it does anything else. -/
def due (s : PhState) : Call → List Reading
  | .read gid pid uval => [(sampler c).reading c.nev (c.sample s.nsample) gid pid uval]
  | .dump => []

/-! ## Closed forms -/

/-- The marker (0,3) a dump begins with. -/
def markDump (s : PhState) : PhState :=
  s.store c (sampler c) 0 3 (Double.ofU32 (s.irec + 1))

/-- `ph_dump` on a ready state. With exactly two slots left its own (0,3) marker
fills the buffer up to the last slot, and a second dump runs inside the first. -/
def dumpState (s : PhState) : PhState :=
  if s.irec.toNat + 2 = c.bufNrec.toNat then
    ((markDump c (markDump c s)).closeDump c (sampler c)).closeDump c (sampler c)
  else (markDump c s).closeDump c (sampler c)

/-- `ph_read` on a ready state. -/
def readState (s : PhState) (gid pid : U32) (uval : Double) : PhState :=
  let t := s.store c (sampler c) gid pid uval
  if s.irec.toNat + 2 = c.bufNrec.toNat then (markDump c t).closeDump c (sampler c) else t

/-- A user call on a ready state. -/
def next (s : PhState) : Call → PhState
  | .read gid pid uval => readState c s gid pid uval
  | .dump => dumpState c s

/-- What a user call may assume and leaves behind. -/
structure Ready (s : PhState) : Prop where
  /-- The buffer is never empty: commit and every dump leave a marker in it. -/
  pos : 1 ≤ s.irec.toNat
  /-- One slot for the call and one for the marker of the dump it may trigger. -/
  room : s.irec.toNat + 2 ≤ c.bufNrec.toNat

variable {c}

theorem Ready.lt {s : PhState} (hs : Ready c s) : s.irec.toNat < c.bufNrec.toNat :=
  lt_of_lt_of_le (Nat.lt_add_of_pos_right Nat.two_pos) hs.room

theorem Ready.le {s : PhState} (hs : Ready c s) : s.irec.toNat ≤ c.bufNrec.toNat := hs.lt.le

/-- The test `ph_irec+1-buf_nrec == 0` on 32-bit words is the equality it means. -/
theorem full_iff {irec : U32} (hle : irec.toNat ≤ c.bufNrec.toNat) :
    irec + 1 - c.bufNrec = 0 ↔ irec.toNat + 1 = c.bufNrec.toNat := by
  have hsmall := c.succ_lt_of_le hle
  constructor <;> intro h <;> bv_omega

/-- What the test finds after a store into the buffer. -/
theorem full_store_iff {s : PhState} (gid pid : U32) (uval : Double)
    (hlt : s.irec.toNat < c.bufNrec.toNat) :
    (s.store c (sampler c) gid pid uval).irec + 1 - c.bufNrec = 0 ↔
      s.irec.toNat + 2 = c.bufNrec.toNat := by
  have hirec := PhState.store_irec c (sampler c) gid pid uval hlt.le
  rw [full_iff (by rw [hirec]; exact hlt), hirec]

theorem phReadWith_of_room {dump : PhState → Option PhState} {s : PhState} (gid pid : U32)
    (uval : Double) (hlt : s.irec.toNat < c.bufNrec.toNat)
    (hroom : s.irec.toNat + 2 ≠ c.bufNrec.toNat) :
    phReadWith c dump s gid pid uval = some (s.store c (sampler c) gid pid uval) :=
  if_neg (mt (full_store_iff gid pid uval hlt).mp hroom)

theorem phReadWith_of_full {dump : PhState → Option PhState} {s : PhState} (gid pid : U32)
    (uval : Double) (hfull : s.irec.toNat + 2 = c.bufNrec.toNat) :
    phReadWith c dump s gid pid uval = dump (s.store c (sampler c) gid pid uval) :=
  if_pos ((full_store_iff gid pid uval (by omega)).mpr hfull)

/-- The second half of `ph_dump` never dumps again: after the rewind the marker
(0,4) goes to slot 0, and a capacity of three leaves room behind it. -/
theorem phReadWith_closing {dump : PhState → Option PhState} (s : PhState)
    (hcap : 3 ≤ c.bufNrec.toNat) :
    phReadWith c dump (s.wtrec c s.irec).2.rewind 0 4 Double.zero =
      some (s.closeDump c (sampler c)) :=
  phReadWith_of_room 0 4 Double.zero ((Nat.zero_lt_succ 2).trans_le hcap)
    (Nat.ne_of_lt hcap)

/-- `ph_dump` away from the last two slots: mark, flush, mark. -/
theorem phDump_of_room {depth : ℕ} {s : PhState} (hcap : 3 ≤ c.bufNrec.toNat)
    (hlt : s.irec.toNat < c.bufNrec.toNat) (hroom : s.irec.toNat + 2 ≠ c.bufNrec.toNat) :
    phDump c (depth + 1) s = some ((markDump c s).closeDump c (sampler c)) := by
  simp only [phDump, Option.bind_eq_bind]
  rw [phReadWith_of_room 0 3 _ hlt hroom, Option.bind_some]
  exact phReadWith_closing _ hcap

theorem markDump_irec {s : PhState} (hle : s.irec.toNat ≤ c.bufNrec.toNat) :
    (markDump c s).irec.toNat = s.irec.toNat + 1 :=
  PhState.store_irec c (sampler c) 0 3 _ hle

/-- `ph_dump` with two slots left runs a second `ph_dump` from inside its first
marker; the second one finds a single slot left and dumps plainly. -/
theorem phDump_of_full {depth : ℕ} {s : PhState} (hcap : 3 ≤ c.bufNrec.toNat)
    (hfull : s.irec.toNat + 2 = c.bufNrec.toNat) :
    phDump c (depth + 2) s = some (dumpState c s) := by
  have hirec : (markDump c s).irec.toNat = s.irec.toNat + 1 := markDump_irec (by omega)
  have hnested : phDump c (depth + 1) (markDump c s) =
      some ((markDump c (markDump c s)).closeDump c (sampler c)) :=
    phDump_of_room hcap (by omega) (by omega)
  rw [phDump, Option.bind_eq_bind, phReadWith_of_full 0 3 _ hfull]
  show (phDump c (depth + 1) (markDump c s)).bind _ = _
  rw [hnested, Option.bind_some, dumpState, if_pos hfull]
  exact phReadWith_closing _ hcap

theorem phDump_eq {depth : ℕ} {s : PhState} (hcap : 3 ≤ c.bufNrec.toNat) (hs : Ready c s) :
    phDump c (depth + 2) s = some (dumpState c s) := by
  by_cases hfull : s.irec.toNat + 2 = c.bufNrec.toNat
  · exact phDump_of_full hcap hfull
  · rw [dumpState, if_neg hfull]
    exact phDump_of_room hcap hs.lt hfull

theorem phRead_eq {depth : ℕ} {s : PhState} (hcap : 3 ≤ c.bufNrec.toNat) (hs : Ready c s)
    (gid pid : U32) (uval : Double) :
    phRead c (depth + 2) s gid pid uval = some (readState c s gid pid uval) := by
  by_cases hfull : s.irec.toNat + 2 = c.bufNrec.toNat
  · have hirec := PhState.store_irec c (sampler c) gid pid uval hs.le
    rw [phRead, phReadWith_of_full gid pid uval hfull, readState, if_pos hfull]
    exact phDump_of_room hcap (by omega) (by omega)
  · rw [phRead, phReadWith_of_room gid pid uval hs.lt hfull, readState, if_neg hfull]

theorem step_eq (depth : ℕ) {s : PhState} (hcap : 3 ≤ c.bufNrec.toNat) (hs : Ready c s)
    (call : Call) : step c (depth + 2) s call = some (next c s call) := by
  cases call with
  | read gid pid uval => exact phRead_eq hcap hs gid pid uval
  | dump => exact phDump_eq hcap hs

/-! ## The index stays inside the buffer -/

/-- A dump tail leaves one record, and three slots are enough for a ready state. -/
theorem ready_closeDump (hcap : 3 ≤ c.bufNrec.toNat) (s : PhState) :
    Ready c (s.closeDump c (sampler c)) where
  pos := Nat.le_refl 1
  room := hcap

theorem ready_next {s : PhState} (hcap : 3 ≤ c.bufNrec.toNat) (hs : Ready c s) (call : Call) :
    Ready c (next c s call) := by
  cases call with
  | read gid pid uval =>
      simp only [next, readState]
      split
      case isTrue => exact ready_closeDump hcap _
      case isFalse hnot =>
        have hroom := hs.room
        have hirec := PhState.store_irec c (sampler c) gid pid uval hs.le
        exact ⟨by omega, by omega⟩
  | dump =>
      simp only [next, dumpState]
      split <;> exact ready_closeDump hcap _

/-- Every store and every flush so far stayed within the buffer. -/
def LogWithin (c : Probe) (s : PhState) : Prop := s.Logged (Event.Within c.bufNrec.toNat)

theorem logWithin_markDump {s : PhState} (hlog : LogWithin c s)
    (hroom : s.irec.toNat < c.bufNrec.toNat) : LogWithin c (markDump c s) :=
  PhState.store_logged c (sampler c) 0 3 _ hlog hroom

theorem logWithin_closeDump {s : PhState} (hcap : 3 ≤ c.bufNrec.toNat) (hlog : LogWithin c s)
    (hirec : s.irec.toNat ≤ c.bufNrec.toNat) : LogWithin c (s.closeDump c (sampler c)) :=
  PhState.closeDump_logged c (sampler c) hlog hirec ((Nat.zero_lt_succ 2).trans_le hcap)

/-- A dump that finds a free slot for its marker stays within the buffer. -/
theorem logWithin_dump {s : PhState} (hcap : 3 ≤ c.bufNrec.toNat) (hlog : LogWithin c s)
    (hroom : s.irec.toNat < c.bufNrec.toNat) :
    LogWithin c ((markDump c s).closeDump c (sampler c)) := by
  apply logWithin_closeDump hcap (logWithin_markDump hlog hroom)
  rw [markDump_irec hroom.le]
  exact hroom

theorem logWithin_next {s : PhState} (hcap : 3 ≤ c.bufNrec.toNat) (hs : Ready c s)
    (hlog : LogWithin c s) (call : Call) : LogWithin c (next c s call) := by
  have hroom := hs.room
  cases call with
  | read gid pid uval =>
      have hirec := PhState.store_irec c (sampler c) gid pid uval hs.le
      have hstore : LogWithin c (s.store c (sampler c) gid pid uval) :=
        PhState.store_logged c (sampler c) gid pid uval hlog hs.lt
      simp only [next, readState]
      split
      · exact logWithin_dump hcap hstore (by omega)
      · exact hstore
  | dump =>
      simp only [next, dumpState]
      split
      · have hmark := markDump_irec hs.le
        have hinner := logWithin_dump hcap (logWithin_markDump hlog hs.lt) (by omega)
        exact logWithin_closeDump hcap hinner (Nat.le_of_succ_le (Nat.le_of_succ_le hcap))
      · exact logWithin_dump hcap hlog hs.lt

/-- Commit leaves one marker in the buffer. -/
def committed (c : Probe) (precs : ℕ → Rec) : PhState :=
  (init precs).store c (sampler c) 0 1 Double.zero

theorem phCommit_eq (depth : ℕ) (hcap : 3 ≤ c.bufNrec.toNat) (precs : ℕ → Rec) :
    phCommit c depth (init precs) = some (committed c precs) :=
  phReadWith_of_room 0 1 Double.zero ((Nat.zero_lt_succ 2).trans_le hcap) (Nat.ne_of_lt hcap)

theorem ready_committed (hcap : 3 ≤ c.bufNrec.toNat) (precs : ℕ → Rec) :
    Ready c (committed c precs) where
  pos := Nat.le_refl 1
  room := hcap

theorem logWithin_committed (hcap : 3 ≤ c.bufNrec.toNat) (precs : ℕ → Rec) :
    LogWithin c (committed c precs) := by
  refine PhState.store_logged c (sampler c) 0 1 _ ?_ ((Nat.zero_lt_succ 2).trans_le hcap)
  intro e he
  simp [init] at he

/-- User calls keep the state ready and the buffer safe, from the commit on. -/
theorem run_calls (depth : ℕ) (hcap : 3 ≤ c.bufNrec.toNat) (precs : ℕ → Rec)
    (calls : List Call) :
    Runs.run (step c (depth + 2)) (committed c precs) calls =
        some (calls.foldl (next c) (committed c precs)) ∧
      Ready c (calls.foldl (next c) (committed c precs)) ∧
      LogWithin c (calls.foldl (next c) (committed c precs)) :=
  Runs.run_eq (next c) (fun s => Ready c s ∧ LogWithin c s) (fun _ => True)
    (fun _ call h _ => ⟨step_eq depth hcap h.1 call, ready_next hcap h.1 call,
      logWithin_next hcap h.1 h.2 call⟩)
    calls _ ⟨ready_committed hcap precs, logWithin_committed hcap precs⟩ fun _ _ => trivial

/-- **Buffer safety and termination.** For every sequence of user calls after the
commit, a bound of two open dumps is enough for every call to return and a larger
bound changes nothing; all stores and flushes stay within the buffer; and the call
returns with at least one record and at least two free slots in it. -/
theorem serial_buffer_safe (c : Probe) (hcap : 3 ≤ c.bufNrec.toNat) (precs : ℕ → Rec)
    (calls : List Call) :
    ∃ s : PhState,
      (∀ depth, 2 ≤ depth →
        (phCommit c depth (init precs)).bind (Runs.run (step c depth) · calls) = some s) ∧
      (∀ index, .store index ∈ s.log → index < c.bufNrec.toNat) ∧
      (∀ n, .wtrec n ∈ s.log → n.toNat ≤ c.bufNrec.toNat) ∧
      1 ≤ s.irec.toNat ∧ s.irec.toNat ≤ c.bufNrec.toNat - 2 := by
  obtain ⟨-, hend, hwithin⟩ := run_calls 0 hcap precs calls
  refine ⟨calls.foldl (next c) (committed c precs), ?_, fun i hi => hwithin _ hi,
    fun n hn => hwithin _ hn, hend.pos, ?_⟩
  · intro depth hdepth
    obtain ⟨extra, rfl⟩ := Nat.exists_eq_add_of_le' hdepth
    rw [phCommit_eq (extra + 2) hcap precs, Option.bind_some]
    exact (run_calls extra hcap precs calls).1
  · exact Nat.le_sub_of_add_le hend.room

theorem serial_buffer_safe_smallest :
    ∃ s : PhState,
      (∀ depth, 2 ≤ depth →
        (phCommit Probe.smallest depth (init fun _ => Rec.cleared)).bind
          (Runs.run (step Probe.smallest depth) · [.dump, .read 1 1 Double.zero]) = some s) ∧
      (∀ index, .store index ∈ s.log → index < Probe.smallest.bufNrec.toNat) ∧
      (∀ n, .wtrec n ∈ s.log → n.toNat ≤ Probe.smallest.bufNrec.toNat) ∧
      1 ≤ s.irec.toNat ∧ s.irec.toNat ≤ Probe.smallest.bufNrec.toNat - 2 :=
  serial_buffer_safe Probe.smallest (by decide) (fun _ => Rec.cleared)
    [.dump, .read 1 1 Double.zero]

/-! ## Nothing is lost, duplicated or reordered -/

/-- The tags that are not the probe's own dump markers (0,3) and (0,4). -/
def notDumpMarker (gid pid : U32) : Bool := !(gid == 0 && (pid == 3 || pid == 4))

/-- User tags start at GID 1; GID 0 is the probe's own. -/
def Call.UserTag : Call → Prop
  | .read gid _ _ => gid ≠ 0
  | .dump => True

theorem notDumpMarker_of_ne {gid : U32} (hgid : gid ≠ 0) (pid : U32) :
    notDumpMarker gid pid = true := by
  have hbeq : (gid == 0) = false := beq_eq_false_iff_ne.mpr hgid
  simp only [notDumpMarker, hbeq, Bool.false_and, Bool.not_false]

theorem view_markDump_closeDump (hopen : ∀ i, c.fopen i = true) {s : PhState}
    (hroom : s.irec.toNat < c.bufNrec.toNat) :
    ((markDump c s).closeDump c (sampler c)).view c (sampler c) notDumpMarker =
      s.view c (sampler c) notDumpMarker := by
  have hirec := markDump_irec hroom.le
  rw [PhState.closeDump_view c (sampler c) rfl hopen (by rw [hirec]; exact hroom), markDump,
    PhState.store_view c (sampler c) notDumpMarker 0 3 _ hroom.le]
  exact List.append_nil _

/-- What one `ph_read` adds to the rows that are no dump markers. -/
theorem view_readState (hopen : ∀ i, c.fopen i = true) {s : PhState} (hs : Ready c s)
    (gid pid : U32) (uval : Double) (hkeep : notDumpMarker gid pid = true) :
    (readState c s gid pid uval).view c (sampler c) notDumpMarker =
      s.view c (sampler c) notDumpMarker ++
        [(sampler c).reading c.nev (c.sample s.nsample) gid pid uval] := by
  have hroom := hs.room
  have hirec := PhState.store_irec c (sampler c) gid pid uval hs.le
  have hstore := PhState.store_view c (sampler c) notDumpMarker gid pid uval hs.le
  rw [if_pos hkeep] at hstore
  simp only [readState]
  split
  · rw [view_markDump_closeDump hopen (by omega), hstore]
  · exact hstore

/-- What a user call adds to the file and the buffer is the reading it is due. -/
theorem view_next (hopen : ∀ i, c.fopen i = true) {s : PhState} (hs : Ready c s) {call : Call}
    (htag : call.UserTag) :
    (next c s call).view c (sampler c) notDumpMarker =
      s.view c (sampler c) notDumpMarker ++ due c s call := by
  cases call with
  | read gid pid uval =>
      exact view_readState hopen hs gid pid uval (notDumpMarker_of_ne htag pid)
  | dump =>
      have hmark : (markDump c s).view c (sampler c) notDumpMarker =
          s.view c (sampler c) notDumpMarker := by
        rw [markDump, PhState.store_view c (sampler c) notDumpMarker 0 3 _ hs.le]
        exact List.append_nil _
      simp only [next, dumpState, due, List.append_nil]
      split
      case isTrue hfull =>
        have hirec := markDump_irec hs.le
        rw [PhState.closeDump_view c (sampler c) rfl hopen (le_trans hs.pos hs.le),
          view_markDump_closeDump hopen (by omega), hmark]
      case isFalse => exact view_markDump_closeDump hopen hs.lt

/-- The step lemma of the run below: a user call adds the reading it is due. -/
theorem step_view (hcap : 3 ≤ c.bufNrec.toNat) (hopen : ∀ i, c.fopen i = true) (s : PhState)
    (call : Call) (t : PhState) (hs : Ready c s) (htag : call.UserTag)
    (hstep : step c 2 s call = some t) :
    Ready c t ∧ t.view c (sampler c) notDumpMarker =
      s.view c (sampler c) notDumpMarker ++ due c s call := by
  obtain rfl : next c s call = t := by
    rw [step_eq 0 hcap hs call] at hstep
    exact Option.some.inj hstep
  exact ⟨ready_next hcap hs call, view_next hopen hs htag⟩

/-- `ph_finalize` on a ready state leaves in the file all that the file and the
buffer hold after its own `ph_read`. -/
theorem phFinalize_contents (hcap : 3 ≤ c.bufNrec.toNat) (hopen : ∀ i, c.fopen i = true)
    {s : PhState} (hs : Ready c s) :
    ∃ final, (∀ depth, phFinalize c (depth + 2) s = some final) ∧
      final.rows = (readState c s 0 2 Double.zero).contents c := by
  have hnext : Ready c (readState c s 0 2 Double.zero) :=
    ready_next hcap hs (.read 0 2 Double.zero)
  refine ⟨((readState c s 0 2 Double.zero).wtrec c (readState c s 0 2 Double.zero).irec).2,
    ?_, PhState.wtrec_rows c hopen hnext.le⟩
  intro depth
  simp [phFinalize, phRead_eq hcap hs]

/-- **No record is lost, duplicated, overwritten or reordered.** A whole run, from
the commit to the finalize, returns; and in the record file it leaves, the rows
that are not dump markers carry exactly the start marker, the reading due to each
user `ph_read` in call order, and the end marker. -/
theorem serial_rows_of_run (c : Probe) (hcap : 3 ≤ c.bufNrec.toNat)
    (hopen : ∀ i, c.fopen i = true) (precs : ℕ → Rec) (calls : List Call)
    (htags : ∀ call ∈ calls, call.UserTag) :
    ∃ start last final : PhState,
      (∀ depth, 2 ≤ depth → phCommit c depth (init precs) = some start ∧
        Runs.run (step c depth) start calls = some last ∧
        phFinalize c depth last = some final) ∧
      (final.rows.filter fun r => notDumpMarker r.gid r.pid).map (Row.reading (sampler c)) =
        [(sampler c).reading c.nev (c.sample 0) 0 1 Double.zero] ++
          Runs.emitted (step c 2) (due c) start calls ++
          [(sampler c).reading c.nev (c.sample last.nsample) 0 2 Double.zero] := by
  obtain ⟨hrun, hlast, -⟩ := run_calls 0 hcap precs calls
  obtain ⟨final, hfinal, hrows⟩ := phFinalize_contents hcap hopen hlast
  refine ⟨committed c precs, calls.foldl (next c) (committed c precs), final, ?_, ?_⟩
  · intro depth hdepth
    obtain ⟨extra, rfl⟩ := Nat.exists_eq_add_of_le' hdepth
    exact ⟨phCommit_eq _ hcap precs, (run_calls extra hcap precs calls).1, hfinal extra⟩
  · obtain ⟨-, hviews⟩ := Runs.run_emits (due c) (PhState.view c (sampler c) notDumpMarker)
      (Ready c) Call.UserTag (step_view hcap hopen) calls _ _ (ready_committed hcap precs)
      htags hrun
    have hfirst : (committed c precs).view c (sampler c) notDumpMarker =
        [(sampler c).reading c.nev (c.sample 0) 0 1 Double.zero] := by
      rw [committed, PhState.store_view c (sampler c) notDumpMarker 0 1 _ (Nat.zero_le _)]
      rfl
    have hlastView := view_readState hopen hlast 0 2 Double.zero rfl
    rw [← hfirst, ← hviews, ← hlastView, hrows]
    rfl

theorem serial_rows_of_run_smallest :
    ∃ start last final : PhState,
      (∀ depth, 2 ≤ depth →
        phCommit Probe.smallest depth (init fun _ => Rec.cleared) = some start ∧
        Runs.run (step Probe.smallest depth) start [.dump, .read 1 1 Double.zero] = some last ∧
        phFinalize Probe.smallest depth last = some final) ∧
      (final.rows.filter fun r => notDumpMarker r.gid r.pid).map
          (Row.reading (sampler Probe.smallest)) =
        [(sampler Probe.smallest).reading 0 (Probe.smallest.sample 0) 0 1 Double.zero] ++
          Runs.emitted (step Probe.smallest 2) (due Probe.smallest) start
            [.dump, .read 1 1 Double.zero] ++
          [(sampler Probe.smallest).reading 0 (Probe.smallest.sample last.nsample) 0 2
            Double.zero] := by
  apply serial_rows_of_run Probe.smallest (by decide) (fun _ => rfl) (fun _ => Rec.cleared)
  intro call hcall
  simp only [List.mem_cons, List.not_mem_nil, or_false] at hcall
  rcases hcall with rfl | rfl
  · trivial
  · exact (by decide : (1 : U32) ≠ 0)

/-! ## The rows of a call -/

/-- The dump that marks and flushes adds rows of group 0, and at least one. -/
theorem contents_markDump_closeDump (hopen : ∀ i, c.fopen i = true) {s : PhState}
    (hroom : s.irec.toNat < c.bufNrec.toNat) :
    ∃ (opening : Row) (marks : List Row), (∀ r ∈ opening :: marks, r.gid = 0) ∧
      ((markDump c s).closeDump c (sampler c)).contents c = s.contents c ++ opening :: marks := by
  have hle : (markDump c s).irec.toNat ≤ c.bufNrec.toNat := by
    rw [markDump_irec hroom.le]
    exact hroom
  obtain ⟨closing, hgid, -, hcontents⟩ := PhState.closeDump_contents c (sampler c) hopen hle
  refine ⟨PhState.newRow c (sampler c) s 0 3 (Double.ofU32 (s.irec + 1)), [closing], ?_, ?_⟩
  · simp [hgid]
  · rw [hcontents, markDump, PhState.store_contents c (sampler c) 0 3 _ hroom.le,
      List.append_assoc]
    rfl

/-- A `ph_read` adds its own row. With two slots left, rows of group 0 follow it. -/
theorem contents_readState (hopen : ∀ i, c.fopen i = true) {s : PhState} (hs : Ready c s)
    (gid pid : U32) (uval : Double) :
    (s.irec.toNat + 2 ≠ c.bufNrec.toNat →
      (readState c s gid pid uval).contents c =
        s.contents c ++ [PhState.newRow c (sampler c) s gid pid uval]) ∧
    (s.irec.toNat + 2 = c.bufNrec.toNat →
      ∃ (opening : Row) (marks : List Row), (∀ r ∈ opening :: marks, r.gid = 0) ∧
        (readState c s gid pid uval).contents c = s.contents c ++
          PhState.newRow c (sampler c) s gid pid uval :: opening :: marks) := by
  have hstore := PhState.store_contents c (sampler c) gid pid uval hs.le
  constructor
  · intro hfree
    rw [readState, if_neg hfree, hstore]
  · intro hfull
    have hirec := PhState.store_irec c (sampler c) gid pid uval hs.le
    obtain ⟨opening, marks, hmarks, hcontents⟩ :=
      contents_markDump_closeDump (s := s.store c (sampler c) gid pid uval) hopen (by omega)
    refine ⟨opening, marks, hmarks, ?_⟩
    rw [readState, if_pos hfull, hcontents, hstore, List.append_assoc]
    rfl

/-- Whatever the fill level, a `ph_read` adds its row and then rows of group 0. -/
theorem contents_readState_marks (hopen : ∀ i, c.fopen i = true) {s : PhState} (hs : Ready c s)
    (gid pid : U32) (uval : Double) :
    ∃ marks : List Row, (∀ r ∈ marks, r.gid = 0) ∧ (readState c s gid pid uval).contents c =
      s.contents c ++ ([PhState.newRow c (sampler c) s gid pid uval] ++ marks) := by
  obtain ⟨hfree, hfull⟩ := contents_readState hopen hs gid pid uval
  by_cases hlast : s.irec.toNat + 2 = c.bufNrec.toNat
  · obtain ⟨opening, marks, hmarks, hcontents⟩ := hfull hlast
    exact ⟨opening :: marks, hmarks, hcontents⟩
  · exact ⟨[], by simp, hfree hlast⟩

/-- A `ph_dump` adds rows of group 0, and at least one. -/
theorem contents_dumpState_cons (hopen : ∀ i, c.fopen i = true) {s : PhState} (hs : Ready c s) :
    ∃ (opening : Row) (marks : List Row), (∀ r ∈ opening :: marks, r.gid = 0) ∧
      (dumpState c s).contents c = s.contents c ++ opening :: marks := by
  by_cases hfull : s.irec.toNat + 2 = c.bufNrec.toNat
  · -- the opening marker fills the buffer, and the inner dump adds its rows behind it
    have hirec := markDump_irec hs.le
    obtain ⟨opening, marks, hmarks, hinner⟩ :=
      contents_markDump_closeDump (s := markDump c s) hopen (by omega)
    obtain ⟨last, hlast, -, houter⟩ := PhState.closeDump_contents c (sampler c)
      (s := (markDump c (markDump c s)).closeDump c (sampler c)) hopen (le_trans hs.pos hs.le)
    refine ⟨PhState.newRow c (sampler c) s 0 3 (Double.ofU32 (s.irec + 1)),
      opening :: marks ++ [last], ?_, ?_⟩
    · rw [List.forall_mem_cons, List.forall_mem_append, List.forall_mem_singleton]
      exact ⟨rfl, hmarks, hlast⟩
    · rw [dumpState, if_pos hfull, houter, hinner, markDump,
        PhState.store_contents c (sampler c) 0 3 _ hs.le, List.append_assoc, List.append_assoc]
      rfl
  · obtain ⟨opening, marks, hmarks, hcontents⟩ := contents_markDump_closeDump hopen hs.lt
    refine ⟨opening, marks, hmarks, ?_⟩
    rw [dumpState, if_neg hfull, hcontents]

/-- A `ph_dump` adds rows of group 0. -/
theorem contents_dumpState (hopen : ∀ i, c.fopen i = true) {s : PhState} (hs : Ready c s) :
    ∃ marks : List Row, (∀ r ∈ marks, r.gid = 0) ∧
      (dumpState c s).contents c = s.contents c ++ marks := by
  obtain ⟨opening, marks, hmarks, hcontents⟩ := contents_dumpState_cons hopen hs
  exact ⟨opening :: marks, hmarks, hcontents⟩

/-- The number of occupied slots after a call, in a buffer of `nrec` records. -/
def level (nrec k : ℕ) : Call → ℕ
  | .read _ _ _ => if k + 2 = nrec then 1 else k + 1
  | .dump => 1

theorem level_eq_irec {s : PhState} (hs : Ready c s) (call : Call) :
    (next c s call).irec.toNat = level c.bufNrec.toNat s.irec.toNat call := by
  cases call with
  | read gid pid uval =>
      simp only [next, readState, level]
      split
      · rfl
      · exact PhState.store_irec c (sampler c) gid pid uval hs.le
  | dump =>
      simp only [next, dumpState, level]
      split <;> rfl

end Serial

end PerfHound
