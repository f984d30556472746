/-
# The MPI probe of one rank: `phmpi_read`, `phmpi_fastread` and `phmpi_dump`

`phmpi_read` checks the index before and after it samples, `phmpi_fastread` does
not check it at all, and `phmpi_dump` takes its two markers through the unchecked
entry point. None of them recurses.

Plain reads and dumps keep at least two slots free between calls, so the recovery
branches (step back one record, reset the index after the dump) stay unreached.
Fast reads may leave the index on the last slot or one past it. What a run keeps
there is `kept`: file and buffer, without the record in the last slot, which the
next dump overwrites by its own marker.
-/

import PerfHound.Probe.Record
import PerfHound.Lib.Runs
import PerfHound.Lib.Adjacent

namespace PerfHound

open Lib

namespace Mpi

variable (c : Probe)

/-- How `phmpi_fastread` samples in this build. -/
def sampler : Sampler := Sampler.phmpiFastread c.build c.nev c.npapi

def phmpiFastread (s : PhState) (gid pid : U32) (uval : Double) : PhState :=
  s.store c (sampler c) gid pid uval

/-- The guard of `phmpi_dump` for an exceeded buffer: warn, and step back one record
for the recording of the writing time. -/
def stepBack (s : PhState) : PhState :=
  if s.irec ≥ c.bufNrec then
    { s with irec := c.bufNrec - 1, log := s.log ++ [.bufferExceeded] }
  else s

def phmpiDump (s : PhState) : PhState :=
  if s.irec = 0 then s
  else
    let s := phmpiFastread c (stepBack c s) 0 3 Double.zero
    let s := (s.wtrec c s.irec).2
    phmpiFastread c s.rewind 0 4 Double.zero

def phmpiRead (s : PhState) (gid pid : U32) (uval : Double) : PhState :=
  if s.irec + 1 ≥ c.bufNrec then
    let s := phmpiDump c s
    let s := { s.rewind with log := s.log ++ [.dumpBeforeRead s.rows.length] }
    phmpiFastread c s gid pid uval
  else
    let s := phmpiFastread c s gid pid uval
    if s.irec + 1 ≥ c.bufNrec then
      phmpiDump c { s with log := s.log ++ [.dumpAfterRead] }
    else s

/-- `phmpi_commit` of one rank on the state `phmpi_init` leaves, once `ph_io_mkrec`
has created the record file: no data rows, an empty buffer, and the marker (0,1). -/
def phmpiCommit (precs : ℕ → Rec) : PhState :=
  phmpiFastread c
    { precs, irec := 0, rows := [], nrecTot := 0, nsample := 0, nopen := 0, log := [] }
    0 1 Double.zero

/-- `phmpi_finalize` of one rank up to its flush. -/
def phmpiFinalize (s : PhState) : PhState :=
  let s := phmpiRead c s 0 2 Double.zero
  (s.wtrec c s.irec).2

/-- A user call between commit and finalize. -/
inductive Call
  | read (gid pid : U32) (uval : Double)
  | fastread (gid pid : U32) (uval : Double)
  | dump
  deriving DecidableEq, Repr

/-- One user call. A `phmpi_fastread` past the last slot writes outside `ph_precs`,
and has no result. -/
def step (s : PhState) : Call → Option PhState
  | .read gid pid uval => some (phmpiRead c s gid pid uval)
  | .fastread gid pid uval =>
      if s.irec < c.bufNrec then some (phmpiFastread c s gid pid uval) else none
  | .dump => some (phmpiDump c s)

/-- User tags start at GID 1; GID 0 is the probe's own. -/
def Call.UserTag : Call → Prop
  | .read gid _ _ => gid ≠ 0
  | .fastread gid _ _ => gid ≠ 0
  | .dump => True

/-- A call other than `phmpi_fastread`. -/
def Call.Checked : Call → Prop
  | .fastread _ _ _ => False
  | _ => True

/-- The number of the sampling a `phmpi_read` takes for its own record. When it finds
the buffer full, the markers of the dump are sampled first. -/
def ownSample (s : PhState) : ℕ :=
  if s.irec + 1 ≥ c.bufNrec then (phmpiDump c s).nsample else s.nsample

/-- The reading a user call is due, given the state it is issued in. -/
def due (s : PhState) : Call → List Reading
  | .read gid pid uval =>
      [(sampler c).reading c.nev (c.sample (ownSample c s)) gid pid uval]
  | .fastread gid pid uval =>
      [(sampler c).reading c.nev (c.sample s.nsample) gid pid uval]
  | .dump => []

/-- The tags with `gid >= 1`. -/
def userTag (gid _pid : U32) : Bool := gid != 0

/-- The dump markers (0,3) and (0,4). -/
def IsMark (pid : U32) (r : Row) : Prop := r.gid = 0 ∧ r.pid = pid

variable {c}

/-! ## Index arithmetic -/

theorem ge_iff {irec : U32} : irec ≥ c.bufNrec ↔ c.bufNrec.toNat ≤ irec.toNat := BitVec.le_def

theorem toNat_succ {irec : U32} (hle : irec.toNat ≤ c.bufNrec.toNat) :
    (irec + 1).toNat = irec.toNat + 1 := by
  rw [BitVec.toNat_add]
  exact Nat.mod_eq_of_lt (c.succ_lt_of_le hle)

/-- The test `ph_irec+1 >= buf_nrec` means what it says while the index is in range. -/
theorem succ_ge_iff {irec : U32} (hle : irec.toNat ≤ c.bufNrec.toNat) :
    irec + 1 ≥ c.bufNrec ↔ c.bufNrec.toNat ≤ irec.toNat + 1 := by
  rw [ge_iff, toNat_succ hle]

theorem succ_lt_iff {irec : U32} (hle : irec.toNat ≤ c.bufNrec.toNat) :
    irec + 1 < c.bufNrec ↔ irec.toNat + 1 < c.bufNrec.toNat := by
  rw [BitVec.lt_def, toNat_succ hle]

/-- With a free slot behind the next one, the buffer does not count as full. -/
theorem not_full {irec : U32} (hroom : irec.toNat + 1 < c.bufNrec.toNat) :
    ¬ irec + 1 ≥ c.bufNrec := by
  rw [succ_ge_iff (Nat.le_of_succ_le hroom.le)]
  exact Nat.not_le.mpr hroom

theorem fastread_irec {s : PhState} (gid pid : U32) (uval : Double)
    (hle : s.irec.toNat ≤ c.bufNrec.toNat) :
    (phmpiFastread c s gid pid uval).irec.toNat = s.irec.toNat + 1 :=
  PhState.store_irec c (sampler c) gid pid uval hle

/-- `phmpi_read` with two free slots behind its own only stores. -/
theorem phmpiRead_of_room {s : PhState} (gid pid : U32) (uval : Double)
    (hroom : s.irec.toNat + 2 < c.bufNrec.toNat) :
    phmpiRead c s gid pid uval = phmpiFastread c s gid pid uval := by
  have hirec := fastread_irec (c := c) (s := s) gid pid uval (by omega)
  have hbefore : ¬ s.irec + 1 ≥ c.bufNrec := not_full (Nat.lt_of_succ_lt hroom)
  have hafter : ¬ (phmpiFastread c s gid pid uval).irec + 1 ≥ c.bufNrec :=
    not_full (by rw [hirec]; exact hroom)
  simp only [phmpiRead, if_neg hbefore, if_neg hafter]

/-- `phmpi_read` into the last slot but one dumps after it has stored. -/
theorem phmpiRead_of_last {s : PhState} (gid pid : U32) (uval : Double)
    (hlast : s.irec.toNat + 2 = c.bufNrec.toNat) :
    phmpiRead c s gid pid uval = phmpiDump c { phmpiFastread c s gid pid uval with
      log := (phmpiFastread c s gid pid uval).log ++ [.dumpAfterRead] } := by
  have hirec := fastread_irec (c := c) (s := s) gid pid uval (by omega)
  have hbefore : ¬ s.irec + 1 ≥ c.bufNrec := not_full (Nat.lt_of_succ_le hlast.le)
  have hafter : (phmpiFastread c s gid pid uval).irec + 1 ≥ c.bufNrec := by
    rw [succ_ge_iff (by omega), hirec]
    exact hlast.ge
  simp only [phmpiRead, if_neg hbefore, if_pos hafter]

/-- What `phmpi_read` leaves of a full buffer before it samples. -/
def dumpedBefore (c : Probe) (s : PhState) : PhState :=
  { (phmpiDump c s).rewind with
    log := (phmpiDump c s).log ++ [.dumpBeforeRead (phmpiDump c s).rows.length] }

theorem phmpiRead_of_full {s : PhState} (gid pid : U32) (uval : Double)
    (hle : s.irec.toNat ≤ c.bufNrec.toNat) (hfull : c.bufNrec.toNat ≤ s.irec.toNat + 1) :
    phmpiRead c s gid pid uval = phmpiFastread c (dumpedBefore c s) gid pid uval := by
  rw [phmpiRead, if_pos ((succ_ge_iff hle).mpr hfull)]
  rfl

/-- Where a user call may find the index: never on an empty buffer, at most one past
the last slot. -/
structure InRange (c : Probe) (s : PhState) : Prop where
  pos : 1 ≤ s.irec.toNat
  le : s.irec.toNat ≤ c.bufNrec.toNat

theorem InRange.ne_zero {s : PhState} (hs : InRange c s) : s.irec ≠ 0 := by
  intro hzero
  have hpos := hs.pos
  rw [hzero] at hpos
  simp at hpos

/-! ## The records a dump would keep -/

/-- The rows of the file and of the buffer without its last slot: what the next dump
writes. -/
def kept (c : Probe) (s : PhState) : List Row := (stepBack c s).contents c

theorem stepBack_of_lt {s : PhState} (hlt : s.irec.toNat < c.bufNrec.toNat) :
    stepBack c s = s :=
  if_neg fun hge => Nat.not_le.mpr hlt (ge_iff.mp hge)

/-- An exceeded buffer is stepped back to its last slot. -/
theorem stepBack_of_ge {s : PhState} (hcap : 3 ≤ c.bufNrec.toNat)
    (hge : c.bufNrec.toNat ≤ s.irec.toNat) :
    (stepBack c s).irec.toNat = c.bufNrec.toNat - 1 ∧ (stepBack c s).precs = s.precs ∧
      (stepBack c s).rows = s.rows := by
  have hone : (1 : U32) ≤ c.bufNrec := BitVec.le_def.mpr (Nat.le_trans (by decide) hcap)
  rw [stepBack, if_pos (ge_iff.mpr hge)]
  exact ⟨BitVec.toNat_sub_of_le hone, rfl, rfl⟩

theorem kept_of_lt {s : PhState} (hlt : s.irec.toNat < c.bufNrec.toNat) :
    kept c s = s.contents c := by
  rw [kept, stepBack_of_lt hlt]

/-- The guard leaves room for the opening marker. -/
theorem stepBack_lt {s : PhState} (hcap : 3 ≤ c.bufNrec.toNat) :
    (stepBack c s).irec.toNat < c.bufNrec.toNat := by
  by_cases hlt : s.irec.toNat < c.bufNrec.toNat
  · rw [stepBack_of_lt hlt]
    exact hlt
  · rw [(stepBack_of_ge hcap (Nat.le_of_not_lt hlt)).1]
    omega

/-- A fast read into the last slot is not kept. -/
theorem kept_store_last {s : PhState} (hcap : 3 ≤ c.bufNrec.toNat) (gid pid : U32)
    (uval : Double) (hlast : s.irec.toNat + 1 = c.bufNrec.toNat) :
    kept c (phmpiFastread c s gid pid uval) = s.contents c := by
  have hle : s.irec.toNat ≤ c.bufNrec.toNat := Nat.le_of_succ_le hlast.le
  have hirec := fastread_irec (c := c) (s := s) gid pid uval hle
  have hbuffer := PhState.store_toBuffer c (sampler c) gid pid uval hle
  have hback : (stepBack c (phmpiFastread c s gid pid uval)).toBuffer =
      (phmpiFastread c s gid pid uval).toBuffer.dropLast := by
    obtain ⟨hindex, hprecs, hrows⟩ := stepBack_of_ge (c := c)
      (s := phmpiFastread c s gid pid uval) hcap (by rw [hirec, hlast])
    simp only [PhState.toBuffer, WriteBuffer.dropLast, hindex, hprecs, hrows, hirec, hlast]
  rw [kept, PhState.contents, hback, phmpiFastread, hbuffer,
    WriteBuffer.contents_dropLast_put]
  rfl

/-! ## What one call does to the kept rows -/

/-- What a call appends to the kept rows: the readings owed to it among the user
rows, and dump markers in pairs, except where `phmpi_read` overwrote the closing one. -/
structure Appends (c : Probe) (s t : PhState) (owed : List Reading) : Prop where
  inRange : InRange c t
  log : s.log ⊆ t.log
  rows : ∃ tail : List Row, kept c t = kept c s ++ tail ∧
    (tail.filter fun r => userTag r.gid r.pid).map (Row.reading (sampler c)) = owed ∧
    FollowedBy (IsMark 3) (IsMark 4)
      (fun i => .dumpBeforeRead ((kept c s).length + i) ∈ t.log) tail

theorem phmpiDump_eq {s : PhState} (hs : InRange c s) :
    phmpiDump c s =
      (phmpiFastread c (stepBack c s) 0 3 Double.zero).closeDump c (sampler c) := by
  rw [phmpiDump, if_neg hs.ne_zero]
  rfl

theorem log_stepBack (s : PhState) : s.log ⊆ (stepBack c s).log := by
  rw [stepBack]
  split
  · exact List.subset_append_left _ _
  · exact List.Subset.refl _

/-- A dump writes the kept rows and its opening marker, and leaves the closing one
in the buffer. -/
theorem phmpiDump_spec (hcap : 3 ≤ c.bufNrec.toNat) (hopen : ∀ i, c.fopen i = true)
    {s : PhState} (hs : InRange c s) :
    (phmpiDump c s).irec = 1 ∧ s.log ⊆ (phmpiDump c s).log ∧
      ∃ opening closing : Row, IsMark 3 opening ∧ IsMark 4 closing ∧
        (phmpiDump c s).rows = kept c s ++ [opening] ∧
        (phmpiDump c s).contents c = kept c s ++ [opening, closing] := by
  have hback : (stepBack c s).irec.toNat < c.bufNrec.toNat := stepBack_lt hcap
  have hmark : (phmpiFastread c (stepBack c s) 0 3 Double.zero).contents c = kept c s ++
      [PhState.newRow c (sampler c) (stepBack c s) 0 3 Double.zero] :=
    PhState.store_contents c (sampler c) 0 3 Double.zero hback.le
  have hle : (phmpiFastread c (stepBack c s) 0 3 Double.zero).irec.toNat ≤ c.bufNrec.toNat := by
    rw [fastread_irec 0 3 Double.zero hback.le]
    exact hback
  obtain ⟨closing, hgid, hpid, hcontents⟩ :=
    PhState.closeDump_contents c (sampler c) hopen hle
  rw [phmpiDump_eq hs]
  refine ⟨PhState.closeDump_irec c (sampler c), ?_,
    PhState.newRow c (sampler c) (stepBack c s) 0 3 Double.zero, closing, ⟨rfl, rfl⟩,
    ⟨hgid, hpid⟩, ?_, ?_⟩
  · intro e he
    rw [PhState.closeDump_log]
    exact List.mem_append_left _ (List.mem_append_left _ (log_stepBack s he))
  · rw [PhState.closeDump_rows c (sampler c) hopen hle, hmark]
  · rw [hcontents, hmark, List.append_assoc]
    rfl

theorem not_isMark_of_pid_ne {row : Row} {pid : U32} (hne : row.pid ≠ pid) : ¬ IsMark pid row :=
  fun h => hne h.2

theorem userTag_of_isMark {row : Row} {pid : U32} (h : IsMark pid row) :
    userTag row.gid row.pid = false := by
  rw [userTag, h.1]
  rfl

/-- `phmpi_dump` appends its pair of markers. -/
theorem appends_dump (hcap : 3 ≤ c.bufNrec.toNat) (hopen : ∀ i, c.fopen i = true)
    {s : PhState} (hs : InRange c s) : Appends c s (phmpiDump c s) [] := by
  obtain ⟨hirec, hlog, opening, closing, hopening, hclosing, -, hcontents⟩ :=
    phmpiDump_spec hcap hopen hs
  have hone : (phmpiDump c s).irec.toNat = 1 := by rw [hirec]; rfl
  refine ⟨⟨by omega, by omega⟩, hlog, [opening, closing], ?_, ?_, ?_⟩
  · rw [kept_of_lt (by omega), hcontents]
  · simp [userTag_of_isMark hopening, userTag_of_isMark hclosing]
  · apply FollowedBy.pair _ hclosing
    apply not_isMark_of_pid_ne
    rw [hclosing.2]
    decide

/-- A tag that is not the opening dump marker. -/
def NotOpening (gid pid : U32) : Prop := ¬ (gid = 0 ∧ pid = 3)

theorem filter_newRow (s : PhState) (gid pid : U32) (uval : Double) :
    (([PhState.newRow c (sampler c) s gid pid uval]).filter
        fun r => userTag r.gid r.pid).map (Row.reading (sampler c)) =
      if userTag gid pid then
        [(sampler c).reading c.nev (c.sample s.nsample) gid pid uval] else [] := by
  by_cases huser : userTag gid pid = true
  · simp [huser]
  · simp [huser]

/-- `phmpi_fastread` appends its row, unless it goes to the last slot. -/
theorem appends_fastread (hcap : 3 ≤ c.bufNrec.toNat) {s : PhState}
    (hlt : s.irec.toNat < c.bufNrec.toNat) {gid pid : U32} (hopening : NotOpening gid pid)
    (uval : Double) :
    Appends c s (phmpiFastread c s gid pid uval)
      (if s.irec.toNat + 1 < c.bufNrec.toNat ∧ userTag gid pid then
        [(sampler c).reading c.nev (c.sample s.nsample) gid pid uval] else []) := by
  have hirec := fastread_irec (c := c) (s := s) gid pid uval hlt.le
  refine ⟨⟨?_, ?_⟩, List.subset_append_left _ _, ?_⟩
  · rw [hirec]
    exact Nat.le_add_left 1 _
  · rw [hirec]
    exact hlt
  · by_cases hroom : s.irec.toNat + 1 < c.bufNrec.toNat
    · refine ⟨[PhState.newRow c (sampler c) s gid pid uval], ?_, ?_, ?_⟩
      · rw [kept_of_lt (by rw [hirec]; exact hroom), kept_of_lt hlt]
        exact PhState.store_contents c (sampler c) gid pid uval hlt.le
      · rw [filter_newRow]
        simp only [hroom, true_and]
      · exact FollowedBy.single hopening
    · refine ⟨[], ?_, ?_, FollowedBy.nil⟩
      · rw [kept_store_last hcap gid pid uval (by omega), kept_of_lt hlt, List.append_nil]
      · simp [hroom]

/-- Appending in two steps. -/
theorem Appends.trans {s t u : PhState} {owed owed' : List Reading} (hst : Appends c s t owed)
    (htu : Appends c t u owed') : Appends c s u (owed ++ owed') := by
  obtain ⟨first, hfirst, howed, hpairs⟩ := hst.rows
  obtain ⟨rest, hrest, howed', hpairs'⟩ := htu.rows
  refine ⟨htu.inRange, List.Subset.trans hst.log htu.log, first ++ rest, ?_, ?_, ?_⟩
  · rw [hrest, hfirst, List.append_assoc]
  · rw [List.filter_append, List.map_append, howed, howed']
  · apply FollowedBy.append (hpairs.mono fun i hi => htu.log hi)
    rw [hfirst, List.length_append] at hpairs'
    simpa only [Nat.add_assoc] using hpairs'

/-- Writing into the log of what happened is no step of the program. -/
theorem Appends.note {s t : PhState} {owed : List Reading} (e : Event)
    (h : Appends c { s with log := s.log ++ [e] } t owed) (hlt : s.irec.toNat < c.bufNrec.toNat) :
    Appends c s t owed := by
  have hkept : kept c { s with log := s.log ++ [e] } = kept c s := by
    rw [kept_of_lt (s := { s with log := s.log ++ [e] }) hlt, kept_of_lt hlt]
    rfl
  have hrows := h.rows
  rw [hkept] at hrows
  exact ⟨h.inRange, List.Subset.trans (List.subset_append_left _ _) h.log, hrows⟩

/-- `phmpi_read` with a free slot behind its own appends its row, and the markers of
a dump if that slot is the last. -/
theorem appends_read_of_room (hcap : 3 ≤ c.bufNrec.toNat) (hopen : ∀ i, c.fopen i = true)
    {s : PhState} (hroom : s.irec.toNat + 1 < c.bufNrec.toNat) {gid pid : U32}
    (hopening : NotOpening gid pid) (uval : Double) :
    Appends c s (phmpiRead c s gid pid uval)
      (if userTag gid pid then
        [(sampler c).reading c.nev (c.sample (ownSample c s)) gid pid uval] else []) := by
  have hlt : s.irec.toNat < c.bufNrec.toNat := Nat.lt_of_succ_lt hroom
  have hirec := fastread_irec (c := c) (s := s) gid pid uval hlt.le
  have hown : ownSample c s = s.nsample := if_neg (not_full hroom)
  have hfast := appends_fastread hcap hlt hopening uval
  simp only [hroom, true_and] at hfast
  rw [hown]
  by_cases hlast : s.irec.toNat + 2 = c.bufNrec.toNat
  · rw [phmpiRead_of_last gid pid uval hlast]
    have hdump := appends_dump hcap hopen (s := { phmpiFastread c s gid pid uval with
      log := (phmpiFastread c s gid pid uval).log ++ [.dumpAfterRead] })
      ⟨hfast.inRange.pos, hfast.inRange.le⟩
    have hnote := Appends.note .dumpAfterRead hdump (by rw [hirec]; exact hroom)
    simpa only [List.append_nil] using hfast.trans hnote
  · rw [phmpiRead_of_room gid pid uval (by omega)]
    exact hfast

/-- `phmpi_read` on the last slot or past it dumps first and then resets the index,
so the opening marker of that dump stays without a closing one. The log says so. -/
theorem appends_read_of_full (hcap : 3 ≤ c.bufNrec.toNat) (hopen : ∀ i, c.fopen i = true)
    {s : PhState} (hs : InRange c s) (hfull : c.bufNrec.toNat ≤ s.irec.toNat + 1)
    {gid pid : U32} (hopening : NotOpening gid pid) (uval : Double) :
    Appends c s (phmpiRead c s gid pid uval)
      (if userTag gid pid then
        [(sampler c).reading c.nev (c.sample (ownSample c s)) gid pid uval] else []) := by
  have hyes : s.irec + 1 ≥ c.bufNrec := (succ_ge_iff hs.le).mpr hfull
  obtain ⟨-, hlog, opening, -, hmark, -, hrows, -⟩ := phmpiDump_spec hcap hopen hs
  have hstart : (dumpedBefore c s).contents c = kept c s ++ [opening] := by
    rw [← hrows]
    exact WriteBuffer.contents_rewind (Row.ofRec c.nev) (phmpiDump c s).toBuffer
  have hirec : (phmpiFastread c (dumpedBefore c s) gid pid uval).irec.toNat = 1 := rfl
  rw [phmpiRead_of_full gid pid uval hs.le hfull, ownSample, if_pos hyes]
  refine ⟨⟨by omega, by omega⟩, ?_,
    opening :: [PhState.newRow c (sampler c) (dumpedBefore c s) gid pid uval], ?_, ?_, ?_⟩
  · intro e he
    exact List.mem_append_left _ (List.mem_append_left _ (hlog he))
  · rw [kept_of_lt (by omega), phmpiFastread,
      PhState.store_contents c (sampler c) gid pid uval (Nat.zero_le _), hstart,
      List.append_assoc]
    rfl
  · rw [List.filter_cons, userTag_of_isMark hmark]
    exact filter_newRow (dumpedBefore c s) gid pid uval
  · apply FollowedBy.append (l := [opening])
    · apply FollowedBy.broken_single
      have hlen : (kept c s).length + 1 = (phmpiDump c s).rows.length := by
        rw [hrows, List.length_append, List.length_singleton]
      rw [hlen]
      exact List.mem_append_left _ (List.mem_append_right _ List.mem_cons_self)
    · exact FollowedBy.single hopening

theorem appends_read (hcap : 3 ≤ c.bufNrec.toNat) (hopen : ∀ i, c.fopen i = true)
    {s : PhState} (hs : InRange c s) {gid pid : U32} (hopening : NotOpening gid pid)
    (uval : Double) :
    Appends c s (phmpiRead c s gid pid uval)
      (if userTag gid pid then
        [(sampler c).reading c.nev (c.sample (ownSample c s)) gid pid uval] else []) := by
  by_cases hroom : s.irec.toNat + 1 < c.bufNrec.toNat
  · exact appends_read_of_room hcap hopen hroom hopening uval
  · exact appends_read_of_full hcap hopen hs (Nat.le_of_not_lt hroom) hopening uval

/-! ## Whole runs -/

/-- The readings a call leaves in the file: what it is due, except that a fast read
into the last slot is overwritten by the marker of the next dump. -/
def owed (c : Probe) (s : PhState) : Call → List Reading
  | .fastread gid pid uval =>
      if s.irec + 1 < c.bufNrec then due c s (.fastread gid pid uval) else []
  | call => due c s call

theorem userTag_of_ne {gid : U32} (hgid : gid ≠ 0) (pid : U32) : userTag gid pid = true :=
  bne_iff_ne.mpr hgid

/-- The step lemma of the MPI probe: a call appends the readings owed to it. -/
theorem appends_step (hcap : 3 ≤ c.bufNrec.toNat) (hopen : ∀ i, c.fopen i = true)
    {s t : PhState} (hs : InRange c s) {call : Call} (htag : call.UserTag)
    (hstep : step c s call = some t) : Appends c s t (owed c s call) := by
  cases call with
  | read gid pid uval =>
      obtain rfl := Option.some.inj hstep
      have hopening : NotOpening gid pid := fun h => htag h.1
      have happends := appends_read hcap hopen hs hopening uval
      rwa [if_pos (userTag_of_ne htag pid)] at happends
  | fastread gid pid uval =>
      by_cases hlt : s.irec < c.bufNrec
      · rw [step, if_pos hlt] at hstep
        obtain rfl := Option.some.inj hstep
        have hopening : NotOpening gid pid := fun h => htag h.1
        have happends := appends_fastread hcap (BitVec.lt_def.mp hlt) hopening uval
        have hroom : s.irec + 1 < c.bufNrec ↔ s.irec.toNat + 1 < c.bufNrec.toNat :=
          succ_lt_iff hs.le
        simp only [userTag_of_ne htag pid, and_true] at happends
        simpa only [owed, due, hroom] using happends
      · rw [step, if_neg hlt] at hstep
        cases hstep
  | dump =>
      obtain rfl := Option.some.inj hstep
      exact appends_dump hcap hopen hs

theorem appends_run (hcap : 3 ≤ c.bufNrec.toNat) (hopen : ∀ i, c.fopen i = true)
    (calls : List Call) {s t : PhState} (hs : InRange c s)
    (htags : ∀ call ∈ calls, call.UserTag) (hrun : Runs.run (step c) s calls = some t) :
    Appends c s t (Runs.emitted (step c) (owed c) s calls) := by
  refine Runs.run_rel (owed c) (fun s xs t => InRange c s → Appends c s t xs) Call.UserTag
    ?_ ?_ ?_ calls s t htags hrun hs
  · intro s hs
    exact ⟨hs, List.Subset.refl _, [], (List.append_nil _).symm, rfl, FollowedBy.nil⟩
  · intro s t u xs ys hst htu hs
    exact (hst hs).trans (htu (hst hs).inRange)
  · intro s call t htag hstep hs
    exact appends_step hcap hopen hs htag hstep

theorem inRange_commit (hcap : 3 ≤ c.bufNrec.toNat) (precs : ℕ → Rec) :
    InRange c (phmpiCommit c precs) where
  pos := Nat.le_refl 1
  le := Nat.le_of_succ_le (Nat.le_of_succ_le hcap)

/-- The commit leaves one row, tagged (0,1), in file and buffer. -/
theorem kept_commit (hcap : 3 ≤ c.bufNrec.toNat) (precs : ℕ → Rec) :
    ∃ row : Row, row.gid = 0 ∧ row.pid = 1 ∧ kept c (phmpiCommit c precs) = [row] := by
  let fresh : PhState :=
    { precs, irec := 0, rows := [], nrecTot := 0, nsample := 0, nopen := 0, log := [] }
  have hstore := PhState.store_contents c (sampler c) (s := fresh) 0 1 Double.zero (Nat.zero_le _)
  refine ⟨PhState.newRow c (sampler c) fresh 0 1 Double.zero, rfl, rfl, ?_⟩
  have hlt : (phmpiCommit c precs).irec.toNat < c.bufNrec.toNat := Nat.lt_of_succ_lt hcap
  rw [kept_of_lt hlt]
  exact hstore

/-- After a `phmpi_read` the index is off the last slots again. -/
theorem phmpiRead_room (hcap : 3 ≤ c.bufNrec.toNat) (hopen : ∀ i, c.fopen i = true)
    {s : PhState} (hs : InRange c s) (gid pid : U32) (uval : Double) :
    (phmpiRead c s gid pid uval).irec.toNat + 2 ≤ c.bufNrec.toNat := by
  by_cases hfull : c.bufNrec.toNat ≤ s.irec.toNat + 1
  · rw [phmpiRead_of_full gid pid uval hs.le hfull]
    exact hcap
  · by_cases hlast : s.irec.toNat + 2 = c.bufNrec.toNat
    · rw [phmpiRead_of_last gid pid uval hlast]
      have hirec := fastread_irec (c := c) (s := s) gid pid uval hs.le
      have hdump := (phmpiDump_spec hcap hopen (s := { phmpiFastread c s gid pid uval with
        log := (phmpiFastread c s gid pid uval).log ++ [.dumpAfterRead] })
        ⟨by simp only; omega, by simp only; omega⟩).1
      rw [hdump]
      exact hcap
    · rw [phmpiRead_of_room gid pid uval (by omega), fastread_irec gid pid uval hs.le]
      omega

/-- `phmpi_finalize` writes the kept rows and its own marker (0,2). -/
theorem phmpiFinalize_rows (hcap : 3 ≤ c.bufNrec.toNat) (hopen : ∀ i, c.fopen i = true)
    {s : PhState} (hs : InRange c s) :
    (phmpiFinalize c s).rows = kept c (phmpiRead c s 0 2 Double.zero) ∧
      (phmpiRead c s 0 2 Double.zero).log ⊆ (phmpiFinalize c s).log := by
  have hroom := phmpiRead_room hcap hopen hs 0 2 Double.zero
  have hlt := lt_of_lt_of_le (Nat.lt_add_of_pos_right Nat.two_pos) hroom
  constructor
  · rw [phmpiFinalize, PhState.wtrec_rows c hopen hlt.le, kept_of_lt hlt]
  · intro e he
    rw [phmpiFinalize, PhState.wtrec_log]
    exact List.mem_append_left _ he

/-- The record file of a finalized run: the user rows are the readings owed to the
calls, in call order, and dump markers come in pairs except where the log records a
dump before a read. -/
theorem rows_of_run (hcap : 3 ≤ c.bufNrec.toNat) (hopen : ∀ i, c.fopen i = true)
    (precs : ℕ → Rec) (calls : List Call) (htags : ∀ call ∈ calls, call.UserTag)
    {last : PhState} (hrun : Runs.run (step c) (phmpiCommit c precs) calls = some last) :
    ((phmpiFinalize c last).rows.filter fun r => userTag r.gid r.pid).map
        (Row.reading (sampler c)) =
      Runs.emitted (step c) (owed c) (phmpiCommit c precs) calls ∧
    FollowedBy (IsMark 3) (IsMark 4) (fun i => .dumpBeforeRead i ∈ (phmpiFinalize c last).log)
      (phmpiFinalize c last).rows := by
  have hstart := inRange_commit hcap precs
  have hcalls := appends_run hcap hopen calls hstart htags hrun
  have hend : Appends c last (phmpiRead c last 0 2 Double.zero) [] :=
    appends_read hcap hopen hcalls.inRange (fun h => absurd h.2 (by decide)) Double.zero
  obtain ⟨hrows, hlog⟩ := phmpiFinalize_rows hcap hopen hcalls.inRange
  obtain ⟨row, hgid, hpid, hfirst⟩ := kept_commit hcap precs
  obtain ⟨tail, htail, howed, hpairs⟩ := (hcalls.trans hend).rows
  rw [hrows, htail, hfirst]
  constructor
  · have hskip : userTag row.gid row.pid = false := by rw [hgid, hpid]; rfl
    rw [List.singleton_append, List.filter_cons, hskip, ← List.append_nil (Runs.emitted _ _ _ _)]
    exact howed
  · apply FollowedBy.append
    · apply FollowedBy.single
      apply not_isMark_of_pid_ne
      rw [hpid]
      decide
    · rw [hfirst] at hpairs
      exact hpairs.mono fun i hi => hlog hi

/-- **Fast reads against plain ones.** In the file of any finalized run, mixing
`phmpi_read`, `phmpi_fastread` and `phmpi_dump`, the user rows are the samples of all
plain reads and of the fast reads that found a slot before the last, once each and in
call order; and an opening dump marker is followed by its closing one, unless the
dump was the one `phmpi_read` takes before it samples. -/
theorem fastread_rows_of_run (c : Probe) (hcap : 3 ≤ c.bufNrec.toNat)
    (hopen : ∀ i, c.fopen i = true) (precs : ℕ → Rec) (calls : List Call)
    (htags : ∀ call ∈ calls, call.UserTag) (last : PhState)
    (hrun : Runs.run (step c) (phmpiCommit c precs) calls = some last) :
    ((phmpiFinalize c last).rows.filter fun r => userTag r.gid r.pid).map
        (Row.reading (sampler c)) =
      Runs.emitted (step c) (owed c) (phmpiCommit c precs) calls ∧
    ∀ (i : ℕ) (row : Row), (phmpiFinalize c last).rows[i]? = some row → IsMark 3 row →
      (∃ closing, (phmpiFinalize c last).rows[i + 1]? = some closing ∧ IsMark 4 closing) ∨
      .dumpBeforeRead (i + 1) ∈ (phmpiFinalize c last).log :=
  rows_of_run hcap hopen precs calls htags hrun

/-- Fast reads into both free slots, a read, a dump and another fast read. -/
def mixedCalls : List Call :=
  [.fastread 1 1 Double.zero, .fastread 1 2 Double.zero, .read 2 1 Double.zero, .dump,
    .fastread 2 2 Double.zero]

/-- The second fast read finds the last slot and is left out. -/
theorem fastread_rows_of_run_mixed :
    ∃ last, Runs.run (step Probe.smallest) (phmpiCommit Probe.smallest fun _ => Rec.cleared)
        mixedCalls = some last ∧
      (((phmpiFinalize Probe.smallest last).rows.filter fun r => userTag r.gid r.pid).map
          (Row.reading (sampler Probe.smallest))).map (fun r => (r.gid, r.pid)) =
        [(1, 1), (2, 1), (2, 2)] ∧
      ∀ (i : ℕ) (row : Row),
        (phmpiFinalize Probe.smallest last).rows[i]? = some row → IsMark 3 row →
        (∃ closing, (phmpiFinalize Probe.smallest last).rows[i + 1]? = some closing ∧
          IsMark 4 closing) ∨
        .dumpBeforeRead (i + 1) ∈ (phmpiFinalize Probe.smallest last).log := by
  have htags : ∀ call ∈ mixedCalls, call.UserTag := by
    intro call hcall
    simp only [mixedCalls, List.mem_cons, List.not_mem_nil, or_false] at hcall
    rcases hcall with rfl | rfl | rfl | rfl | rfl
    · exact (by decide : (1 : U32) ≠ 0)
    · exact (by decide : (1 : U32) ≠ 0)
    · exact (by decide : (2 : U32) ≠ 0)
    · trivial
    · exact (by decide : (2 : U32) ≠ 0)
  refine ⟨_, rfl, ?_⟩
  obtain ⟨hrows, hmarks⟩ := fastread_rows_of_run Probe.smallest (by decide) (fun _ => rfl)
    (fun _ => Rec.cleared) mixedCalls htags _ rfl
  refine ⟨?_, hmarks⟩
  rw [hrows]
  decide

/-- The plain call a fast read stands for. -/
def Call.asRead : Call → Call
  | .fastread gid pid uval => .read gid pid uval
  | call => call

/-- With three slots, two fast reads after the commit fill the buffer. The finalizing
read overwrites the second one by the marker (0,3), and then the marker (0,4) by its
own (0,2). -/
theorem fastread_loses_last_row :
    ∃ fast plain : PhState,
      Runs.run (step Probe.smallest) (phmpiCommit Probe.smallest fun _ => Rec.cleared)
        [.fastread 1 1 Double.zero, .fastread 1 2 Double.zero] = some fast ∧
      Runs.run (step Probe.smallest) (phmpiCommit Probe.smallest fun _ => Rec.cleared)
        ([.fastread 1 1 Double.zero, .fastread 1 2 Double.zero].map Call.asRead) = some plain ∧
      (phmpiFinalize Probe.smallest fast).rows.map (fun r => (r.gid, r.pid)) =
        [(0, 1), (1, 1), (0, 3), (0, 2)] ∧
      (phmpiFinalize Probe.smallest plain).rows.map (fun r => (r.gid, r.pid)) =
        [(0, 1), (1, 1), (0, 3), (0, 4), (1, 2), (0, 3), (0, 4), (0, 2), (0, 3),
          (0, 4)] :=
  ⟨_, _, rfl, rfl, by decide, by decide⟩

/-! ## Runs without fast reads -/

/-- A store inside a buffer of `nrec` records, and none of the recovery branches. -/
def Plain (nrec : ℕ) : Event → Prop
  | .store index => index < nrec
  | .wtrec _ => True
  | .bufferExceeded => False
  | .dumpBeforeRead _ => False
  | .dumpAfterRead => True

/-- What reads and dumps leave behind: two free slots, and a plain history. -/
structure Settled (c : Probe) (s : PhState) : Prop where
  pos : 1 ≤ s.irec.toNat
  room : s.irec.toNat + 2 ≤ c.bufNrec.toNat
  log : s.Logged (Plain c.bufNrec.toNat)

theorem Settled.lt {s : PhState} (hs : Settled c s) : s.irec.toNat < c.bufNrec.toNat :=
  lt_of_lt_of_le (Nat.lt_add_of_pos_right Nat.two_pos) hs.room

theorem fastread_plain {s : PhState} (hlog : s.Logged (Plain c.bufNrec.toNat))
    (hlt : s.irec.toNat < c.bufNrec.toNat) (gid pid : U32) (uval : Double) :
    (phmpiFastread c s gid pid uval).Logged (Plain c.bufNrec.toNat) :=
  PhState.store_logged c (sampler c) gid pid uval hlog hlt

/-- A dump that finds a free slot for its opening marker has a plain history. -/
theorem settled_dump (hcap : 3 ≤ c.bufNrec.toNat) (hopen : ∀ i, c.fopen i = true)
    {s : PhState} (hpos : 1 ≤ s.irec.toNat) (hlt : s.irec.toNat < c.bufNrec.toNat)
    (hlog : s.Logged (Plain c.bufNrec.toNat)) : Settled c (phmpiDump c s) := by
  have hs : InRange c s := ⟨hpos, hlt.le⟩
  have hirec := (phmpiDump_spec hcap hopen hs).1
  refine ⟨by rw [hirec]; decide, by rw [hirec]; exact hcap, ?_⟩
  rw [phmpiDump_eq hs, stepBack_of_lt hlt]
  refine PhState.closeDump_logged c (sampler c) (fastread_plain hlog hlt 0 3 Double.zero)
    trivial ?_
  exact lt_of_le_of_lt (Nat.zero_le _) hlt

theorem settled_read (hcap : 3 ≤ c.bufNrec.toNat) (hopen : ∀ i, c.fopen i = true)
    {s : PhState} (hs : Settled c s) (gid pid : U32) (uval : Double) :
    Settled c (phmpiRead c s gid pid uval) := by
  have hroom := hs.room
  have hirec := fastread_irec (c := c) (s := s) gid pid uval hs.lt.le
  have hlog := fastread_plain hs.log hs.lt gid pid uval
  by_cases hlast : s.irec.toNat + 2 = c.bufNrec.toNat
  · rw [phmpiRead_of_last gid pid uval hlast]
    apply settled_dump hcap hopen (by simp only; omega) (by simp only; omega)
    intro e he
    rcases List.mem_append.mp he with he | he
    · exact hlog e he
    · rw [List.mem_singleton.mp he]
      trivial
  · rw [phmpiRead_of_room gid pid uval (by omega)]
    exact ⟨by omega, by omega, hlog⟩

theorem settled_commit (hcap : 3 ≤ c.bufNrec.toNat) (precs : ℕ → Rec) :
    Settled c (phmpiCommit c precs) where
  pos := (inRange_commit hcap precs).pos
  room := hcap
  log := by
    refine PhState.store_logged c (sampler c) 0 1 Double.zero ?_
      ((Nat.zero_lt_succ 2).trans_le hcap)
    intro e he
    simp at he

/-- The successor of a checked call, which never fails. -/
def next (c : Probe) (s : PhState) : Call → PhState
  | .read gid pid uval => phmpiRead c s gid pid uval
  | .fastread gid pid uval => phmpiFastread c s gid pid uval
  | .dump => phmpiDump c s

theorem settled_next (hcap : 3 ≤ c.bufNrec.toNat) (hopen : ∀ i, c.fopen i = true)
    {s : PhState} (hs : Settled c s) {call : Call} (hchecked : call.Checked) :
    step c s call = some (next c s call) ∧ Settled c (next c s call) := by
  cases call with
  | read gid pid uval => exact ⟨rfl, settled_read hcap hopen hs gid pid uval⟩
  | fastread gid pid uval => exact hchecked.elim
  | dump => exact ⟨rfl, settled_dump hcap hopen hs.pos hs.lt hs.log⟩

/-- A run of checked calls exists, ends settled, and so does its finalizing read. -/
theorem settled_run (hcap : 3 ≤ c.bufNrec.toNat) (hopen : ∀ i, c.fopen i = true)
    (precs : ℕ → Rec) (calls : List Call) (hchecked : ∀ call ∈ calls, call.Checked) :
    Runs.run (step c) (phmpiCommit c precs) calls =
        some (calls.foldl (next c) (phmpiCommit c precs)) ∧
      Settled c (calls.foldl (next c) (phmpiCommit c precs)) :=
  Runs.run_eq (next c) (Settled c) Call.Checked
    (fun _ _ hs hcall => settled_next hcap hopen hs hcall) calls _ (settled_commit hcap precs)
    hchecked

theorem logged_finalize (hcap : 3 ≤ c.bufNrec.toNat) (hopen : ∀ i, c.fopen i = true)
    {s : PhState} (hs : Settled c s) :
    (phmpiFinalize c s).Logged (Plain c.bufNrec.toNat) := by
  intro e he
  rw [phmpiFinalize, PhState.wtrec_log] at he
  rcases List.mem_append.mp he with he | he
  · exact (settled_read hcap hopen hs 0 2 Double.zero).log e he
  · rw [List.mem_singleton.mp he]
    trivial

theorem owed_of_checked {call : Call} (hchecked : call.Checked) (s : PhState) :
    owed c s call = due c s call := by
  cases call with
  | read gid pid uval => rfl
  | fastread gid pid uval => exact hchecked.elim
  | dump => rfl

/-- **The MPI probe without fast reads.** A whole run of reads and dumps stores inside
the buffer and never takes a recovery branch; its user rows are the user reads, once
each and in call order; and every opening dump marker is followed by its closing one. -/
theorem mpi_rows_of_run (c : Probe) (hcap : 3 ≤ c.bufNrec.toNat)
    (hopen : ∀ i, c.fopen i = true) (precs : ℕ → Rec) (calls : List Call)
    (htags : ∀ call ∈ calls, call.UserTag) (hchecked : ∀ call ∈ calls, call.Checked) :
    ∃ last, Runs.run (step c) (phmpiCommit c precs) calls = some last ∧
      (∀ index, .store index ∈ (phmpiFinalize c last).log → index < c.bufNrec.toNat) ∧
      .bufferExceeded ∉ (phmpiFinalize c last).log ∧
      (∀ rows, .dumpBeforeRead rows ∉ (phmpiFinalize c last).log) ∧
      ((phmpiFinalize c last).rows.filter fun r => userTag r.gid r.pid).map
          (Row.reading (sampler c)) =
        Runs.emitted (step c) (due c) (phmpiCommit c precs) calls ∧
      ∀ (i : ℕ) (row : Row), (phmpiFinalize c last).rows[i]? = some row → IsMark 3 row →
        ∃ closing, (phmpiFinalize c last).rows[i + 1]? = some closing ∧ IsMark 4 closing := by
  obtain ⟨hrun, hsettled⟩ := settled_run hcap hopen precs calls hchecked
  have hlog := logged_finalize hcap hopen hsettled
  obtain ⟨hrows, hpairs⟩ := rows_of_run hcap hopen precs calls htags hrun
  refine ⟨_, hrun, fun index h => hlog _ h, hlog _, fun rows h => hlog _ h, ?_, ?_⟩
  · rw [hrows]
    exact Runs.emitted_congr (fun call hcall => owed_of_checked (hchecked call hcall)) _
  · intro i row hrow hmark
    exact hpairs.closed (fun rows h => hlog _ h) hrow hmark

theorem mpi_rows_of_run_smallest :
    ∃ last, Runs.run (step Probe.smallest) (phmpiCommit Probe.smallest fun _ => Rec.cleared)
        [.read 1 1 Double.zero] = some last ∧
      .bufferExceeded ∉ (phmpiFinalize Probe.smallest last).log := by
  obtain ⟨last, hrun, -, hexceeded, -⟩ := mpi_rows_of_run Probe.smallest (by decide)
    (fun _ => rfl) (fun _ => Rec.cleared) [.read 1 1 Double.zero]
    (fun _ hcall => by rw [List.mem_singleton.mp hcall]; exact (by decide : (1 : U32) ≠ 0))
    (fun _ hcall => by rw [List.mem_singleton.mp hcall]; trivial)
  exact ⟨last, hrun, hexceeded⟩

end Mpi

end PerfHound
