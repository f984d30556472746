/-
# The record buffer of a probe process

The state that `perfhound.c` and `ph_mpi.c` share: the buffer `ph_precs` with its
index `ph_irec`, and, through `ph_io_wtrec`, the record file and `nrec_tot`. Both
front ends fill a record the same way, flush with the same function, and differ
only in when they do it, so the single steps live here.

Every step also appends to a log of what it did. The log is not part of the
program; it lets a theorem speak about every store and every flush of a run.

A state refines a write-behind buffer (`toBuffer`): a store is a `put`, a flush
of `ph_irec` records followed by `ph_irec = 0` is a `flush`. What the file and
the buffer hold together is then `contents`, and only `put` changes it.
-/

import PerfHound.Core
import PerfHound.Lib.WriteBuffer

namespace PerfHound

open Lib

/-- One probe process between commit and finalize: what is fixed during the run,
and what its environment answers. -/
structure Probe where
  build : Build
  /-- `buf_nbyte`, the buffer size `ph_init` computed from `PH_OPT_BUFSIZE`. -/
  bufNbyte : U32
  /-- `ph_nev`, fixed by the commit. -/
  nev : ℕ
  /-- How many values a `PAPI_read` stores, one for each event in the running event set.
  The commit ignores what `PAPI_add_events` and `PAPI_start` return, so these may be
  fewer than `ph_nev`, and none when the set has not been started. -/
  npapi : ℕ
  /-- What the hardware delivers to the successive samplings. -/
  sample : ℕ → Sample
  /-- Whether the successive opens of the record file in `ph_io_wtrec` succeed. -/
  fopen : ℕ → Bool

/-- `buf_nrec = buf_nbyte / sizeof(rec_t)`. -/
def Probe.bufNrec (c : Probe) : U32 := BitVec.ofNat 32 (c.bufNbyte.toNat / c.build.sizeofRec)

/-- A record is at least 64 bytes. -/
theorem Probe.bufNrec_lt (c : Probe) : c.bufNrec.toNat < 2 ^ 26 := by
  have hsize : 64 ≤ c.build.sizeofRec := c.build.le_sizeofRec
  have hdiv : c.bufNbyte.toNat / c.build.sizeofRec ≤ c.bufNbyte.toNat / 64 :=
    Nat.div_le_div_left hsize (by decide)
  have hnbyte := c.bufNbyte.isLt
  rw [Probe.bufNrec, BitVec.toNat_ofNat]
  exact lt_of_le_of_lt (Nat.mod_le _ _) (by omega)

/-- An index in the buffer is far from wrapping. -/
theorem Probe.succ_lt_of_le (c : Probe) {n : ℕ} (hle : n ≤ c.bufNrec.toNat) : n + 1 < 2 ^ 32 :=
  lt_of_le_of_lt (Nat.succ_le_succ hle) (lt_trans (Nat.succ_lt_succ c.bufNrec_lt) (by decide))

/-- An index in the buffer fits the `int` parameter of `ph_io_wtrec`. -/
theorem Probe.lt_of_le (c : Probe) {n : ℕ} (hle : n ≤ c.bufNrec.toNat) : n < 2 ^ 31 :=
  lt_trans (lt_of_le_of_lt hle c.bufNrec_lt) (by decide)

/-- A probe without events whose buffer holds the least number of records, three. -/
def Probe.smallest : Probe where
  build := ⟨.ev, .x86, .phasm⟩
  bufNbyte := 192
  nev := 0
  npapi := 0
  sample := fun _ => ⟨0, 0, fun _ => 0⟩
  fopen := fun _ => true

/-- The contents of a buffer fresh from `calloc`. -/
def Rec.cleared : Rec := ⟨0, 0, 0, 0, Double.zero, fun _ => 0⟩

example : Probe.smallest.bufNrec = 3 := by decide

/-- What a step did. -/
inductive Event
  | /-- A record was stored in `ph_precs[index]`. -/
    store (index : ℕ)
  | /-- `ph_io_wtrec(nrec)` was called. -/
    wtrec (nrec : U32)
  | /-- `phmpi_dump` found the buffer exceeded and stepped back one record. -/
    bufferExceeded
  | /-- `phmpi_read` found the buffer full before sampling, and the dump it took left
    `rows` data rows in the file. -/
    dumpBeforeRead (rows : ℕ)
  | /-- `phmpi_read` found the buffer full after sampling. -/
    dumpAfterRead
  deriving DecidableEq, Repr

/-- A store inside a buffer of `nrec` records, a flush of no more than all of it. -/
def Event.Within (nrec : ℕ) : Event → Prop
  | .store index => index < nrec
  | .wtrec n => n.toNat ≤ nrec
  | _ => True

/-- The variables of a probe process that change between commit and finalize. -/
structure PhState where
  precs : ℕ → Rec
  irec : U32
  /-- The data rows of the record file. -/
  rows : List Row
  nrecTot : U64
  /-- How many samplings have been taken. -/
  nsample : ℕ
  /-- How often `ph_io_wtrec` has opened the record file. -/
  nopen : ℕ
  /-- What has been done so far. -/
  log : List Event

namespace PhState

variable (c : Probe) (p : Sampler)

/-- The body of `ph_read` up to its buffer check, and of `phmpi_fastread`: fill
`ph_precs[ph_irec]` and move the index up. -/
def store (s : PhState) (gid pid : U32) (uval : Double) : PhState :=
  let slot := s.irec.toNat
  { s with
    precs := Function.update s.precs slot
      (p.fill (c.sample s.nsample) gid pid uval (s.precs slot))
    irec := s.irec + 1
    nsample := s.nsample + 1
    log := s.log ++ [.store slot] }

/-- `ph_io_wtrec(nrec)`. The total counts the records before the file is opened;
a failed open returns 1 and writes nothing. -/
def wtrec (s : PhState) (nrec : U32) : ℕ × PhState :=
  let counted := { s with
    nrecTot := s.nrecTot + nrec.signExtend 64
    nopen := s.nopen + 1
    log := s.log ++ [.wtrec nrec] }
  if c.fopen s.nopen then
    (0, { counted with
      rows := s.rows ++ (List.range nrec.toInt.toNat).map fun i =>
        Row.ofRec c.nev (s.precs i) })
  else (1, counted)

def rewind (s : PhState) : PhState := { s with irec := 0 }

/-- The tail both dump functions end with: flush, rewind, and take the closing
marker (0,4). -/
def closeDump (s : PhState) : PhState :=
  store c p (wtrec c s s.irec).2.rewind 0 4 Double.zero

/-- The write-behind buffer a state refines. -/
def toBuffer (s : PhState) : WriteBuffer Rec Row := ⟨s.precs, s.irec.toNat, s.rows⟩

/-- The rows the file and the buffer hold together, in sampling order. -/
def contents (s : PhState) : List Row := s.toBuffer.contents (Row.ofRec c.nev)

/-- The readings of the rows whose tag passes `keep`, file and buffer together. -/
def view (keep : U32 → U32 → Bool) (s : PhState) : List Reading :=
  ((s.contents c).filter fun r => keep r.gid r.pid).map (Row.reading p)

/-- Everything done so far satisfies `ok`. -/
def Logged (ok : Event → Prop) (s : PhState) : Prop := ∀ e ∈ s.log, ok e

/-! ## What one step does -/

/-- The row a store appends to the contents. -/
def newRow (s : PhState) (gid pid : U32) (uval : Double) : Row :=
  Row.ofRec c.nev (p.fill (c.sample s.nsample) gid pid uval (s.precs s.irec.toNat))

@[simp]
theorem newRow_gid (s : PhState) (gid pid : U32) (uval : Double) :
    (newRow c p s gid pid uval).gid = gid := rfl

@[simp]
theorem newRow_pid (s : PhState) (gid pid : U32) (uval : Double) :
    (newRow c p s gid pid uval).pid = pid := rfl

@[simp]
theorem reading_newRow (s : PhState) (gid pid : U32) (uval : Double) :
    (newRow c p s gid pid uval).reading p =
      p.reading c.nev (c.sample s.nsample) gid pid uval :=
  Row.reading_ofRec_fill p c.nev _ gid pid uval _

@[simp]
theorem store_log (s : PhState) (gid pid : U32) (uval : Double) :
    (s.store c p gid pid uval).log = s.log ++ [.store s.irec.toNat] := rfl

@[simp]
theorem store_rows (s : PhState) (gid pid : U32) (uval : Double) :
    (s.store c p gid pid uval).rows = s.rows := rfl

theorem store_irec {s : PhState} (gid pid : U32) (uval : Double)
    (hle : s.irec.toNat ≤ c.bufNrec.toNat) :
    (s.store c p gid pid uval).irec.toNat = s.irec.toNat + 1 := by
  simp only [store, BitVec.toNat_add]
  exact Nat.mod_eq_of_lt (c.succ_lt_of_le hle)

theorem store_toBuffer {s : PhState} (gid pid : U32) (uval : Double)
    (hle : s.irec.toNat ≤ c.bufNrec.toNat) :
    (s.store c p gid pid uval).toBuffer =
      s.toBuffer.put (p.fill (c.sample s.nsample) gid pid uval (s.precs s.irec.toNat)) := by
  have hirec := store_irec c p gid pid uval hle
  simp only [toBuffer, WriteBuffer.put, hirec]
  rfl

/-- A store appends its row to the contents. -/
theorem store_contents {s : PhState} (gid pid : U32) (uval : Double)
    (hle : s.irec.toNat ≤ c.bufNrec.toNat) :
    (s.store c p gid pid uval).contents c = s.contents c ++ [newRow c p s gid pid uval] := by
  rw [contents, store_toBuffer c p gid pid uval hle, WriteBuffer.contents_put]
  rfl

/-- A store adds its reading to a view that keeps its tag, and nothing to others. -/
theorem store_view (keep : U32 → U32 → Bool) {s : PhState} (gid pid : U32) (uval : Double)
    (hle : s.irec.toNat ≤ c.bufNrec.toNat) :
    (s.store c p gid pid uval).view c p keep = s.view c p keep ++
      if keep gid pid then [p.reading c.nev (c.sample s.nsample) gid pid uval] else [] := by
  rw [view, store_contents c p gid pid uval hle, List.filter_append, List.map_append]
  congr 1
  by_cases hkeep : keep gid pid = true
  · simp [hkeep]
  · simp [hkeep]

theorem store_logged {ok : Event → Prop} {s : PhState} (gid pid : U32) (uval : Double)
    (hlog : s.Logged ok) (hstore : ok (.store s.irec.toNat)) :
    (s.store c p gid pid uval).Logged ok := by
  intro e he
  rw [store_log, List.mem_append, List.mem_singleton] at he
  rcases he with he | rfl
  · exact hlog e he
  · exact hstore

@[simp]
theorem wtrec_log (s : PhState) (nrec : U32) :
    (s.wtrec c nrec).2.log = s.log ++ [.wtrec nrec] := by
  simp only [wtrec]
  split <;> rfl

@[simp]
theorem rewind_irec (s : PhState) : s.rewind.irec = 0 := rfl

@[simp]
theorem rewind_log (s : PhState) : s.rewind.log = s.log := rfl

@[simp]
theorem rewind_rows (s : PhState) : s.rewind.rows = s.rows := rfl

/-- A flush of the whole buffer that finds the file writes exactly the buffered
rows. -/
theorem wtrec_rows {s : PhState} (hopen : ∀ i, c.fopen i = true)
    (hle : s.irec.toNat ≤ c.bufNrec.toNat) :
    (s.wtrec c s.irec).2.rows = s.contents c := by
  have hint : s.irec.toInt.toNat = s.irec.toNat := by
    have hsmall := c.lt_of_le hle
    rw [BitVec.toInt_eq_toNat_of_lt (by omega), Int.toNat_natCast]
  simp only [wtrec, hopen, if_true, hint]
  rfl

/-- Flushing the whole buffer and rewinding is a flush of the refined buffer. -/
theorem wtrec_rewind_toBuffer {s : PhState} (hopen : ∀ i, c.fopen i = true)
    (hle : s.irec.toNat ≤ c.bufNrec.toNat) :
    (s.wtrec c s.irec).2.rewind.toBuffer = s.toBuffer.flush (Row.ofRec c.nev) := by
  have hrows : (s.wtrec c s.irec).2.rewind.rows = s.contents c :=
    wtrec_rows c hopen hle
  have hprecs : (s.wtrec c s.irec).2.rewind.precs = s.precs := by
    simp only [wtrec, hopen, if_true, rewind]
  simp only [toBuffer, WriteBuffer.flush, hrows, hprecs]
  rfl

section CloseDump

variable {s : PhState}

@[simp]
theorem closeDump_irec : (s.closeDump c p).irec = 1 := rfl

@[simp]
theorem closeDump_log :
    (s.closeDump c p).log = s.log ++ [.wtrec s.irec, .store 0] := by
  simp [closeDump]

theorem closeDump_logged {ok : Event → Prop} (hlog : s.Logged ok) (hflush : ok (.wtrec s.irec))
    (hstore : ok (.store 0)) : (s.closeDump c p).Logged ok := by
  intro e he
  rw [closeDump_log, List.mem_append] at he
  rcases he with he | he
  · exact hlog e he
  · simp only [List.mem_cons, List.not_mem_nil, or_false] at he
    rcases he with rfl | rfl
    · exact hflush
    · exact hstore

/-- After the tail of a dump the file holds all that was in the file and the
buffer before. -/
theorem closeDump_rows (hopen : ∀ i, c.fopen i = true) (hle : s.irec.toNat ≤ c.bufNrec.toNat) :
    (s.closeDump c p).rows = s.contents c := by
  simp [closeDump, wtrec_rows c hopen hle]

/-- The marker (0,4) is the only row the tail of a dump adds. -/
theorem closeDump_contents (hopen : ∀ i, c.fopen i = true) (hle : s.irec.toNat ≤ c.bufNrec.toNat) :
    ∃ row : Row, row.gid = 0 ∧ row.pid = 4 ∧
      (s.closeDump c p).contents c = s.contents c ++ [row] := by
  refine ⟨newRow c p (wtrec c s s.irec).2.rewind 0 4 Double.zero, rfl, rfl, ?_⟩
  rw [closeDump, store_contents c p 0 4 Double.zero (Nat.zero_le _)]
  congr 1
  rw [contents, wtrec_rewind_toBuffer c hopen hle, WriteBuffer.contents_flush]
  rfl

/-- A dump tail is invisible to a view that skips the marker (0,4). -/
theorem closeDump_view {keep : U32 → U32 → Bool} (hskip : keep 0 4 = false)
    (hopen : ∀ i, c.fopen i = true) (hle : s.irec.toNat ≤ c.bufNrec.toNat) :
    (s.closeDump c p).view c p keep = s.view c p keep := by
  obtain ⟨row, hgid, hpid, hrow⟩ := closeDump_contents c p hopen hle
  have hmarker : keep row.gid row.pid = false := by rw [hgid, hpid, hskip]
  simp [view, hrow, hmarker]

end CloseDump

end PhState

end PerfHound
