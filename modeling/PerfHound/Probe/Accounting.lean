/-
# Accounting for records when opens fail

`ph_io_wtrec` adds to `nrec_tot` before it opens the record file, and both dump
functions rewind the index whatever it returns. What a run takes from the hardware,
what the file gets and what `ph_io_wtinfo` prints at the end can therefore differ.

How full the buffer is, how often it is flushed and how many records the flushes ask
for depends on the calls alone. `Load` follows these three numbers, and `Accounted`
ties a state of the probe to them: the rows in the file are at most the records asked
for, and as many only if every open so far has succeeded.
-/

import PerfHound.Probe.Serial
import PerfHound.Probe.Mpi

namespace PerfHound

open Lib

/-! ## What is owed -/

/-- Records the probe gives up for another reason than a failed open: the last one of an
exceeded buffer, and the closing marker that `phmpi_read` overwrites. -/
def Event.omits : Event → Bool
  | .bufferExceeded => true
  | .dumpBeforeRead _ => true
  | _ => false

namespace PhState

/-- How many records have been given up. -/
def omitted (s : PhState) : ℕ := s.log.countP Event.omits

/-- Every sampling so far is a row of the file or a record of the buffer, unless it was
given up. -/
def Conserved (c : Probe) (s : PhState) : Prop :=
  s.nsample = (s.contents c).length + s.omitted

/-- The total as `ph_io_wtinfo` prints it: a 64-bit number through `%d`. -/
def wtinfo (s : PhState) : ℤ := (s.nrecTot.truncate 32).toInt

/-! ### What a flush leaves alone, and what it counts -/

variable (c : Probe) (s : PhState) (nrec : U32)

theorem wtrec_nsample : (s.wtrec c nrec).2.nsample = s.nsample := by
  simp only [wtrec]
  split <;> rfl

theorem wtrec_nopen : (s.wtrec c nrec).2.nopen = s.nopen + 1 := by
  simp only [wtrec]
  split <;> rfl

theorem wtrec_nrecTot : (s.wtrec c nrec).2.nrecTot = s.nrecTot + nrec.signExtend 64 := by
  simp only [wtrec]
  split <;> rfl

theorem wtrec_omitted : (s.wtrec c nrec).2.omitted = s.omitted := by
  simp [omitted, Event.omits]

theorem length_rows_wtrec : (s.wtrec c nrec).2.rows.length =
    s.rows.length + if c.fopen s.nopen then nrec.toInt.toNat else 0 := by
  simp only [wtrec]
  split <;> simp

end PhState

/-- What a run owes. After the commit and after each call, that of the finalize included,
nothing is lost; and the total in `run_info.csv` is the number of rows in the file. -/
structure Owes {α : Type} (c : Probe) (step : PhState → α → Option PhState) (start : PhState)
    (calls : List α) (final : PhState) : Prop where
  conserved : ∀ done, done <+: calls → ∀ s, Runs.run step start done = some s → s.Conserved c
  total : final.wtinfo = final.rows.length

/-! ## The load of a run -/

/-- How many records the buffer holds, how often it has been flushed, and how many records
the flushes were asked to write. -/
structure Load where
  level : ℕ
  flushes : ℕ
  flushed : ℕ
  deriving DecidableEq, Repr

namespace Load

def store (l : Load) : Load := { l with level := l.level + 1 }

/-- A flush of the whole buffer, and `ph_irec = 0`. -/
def flush (l : Load) : Load := ⟨0, l.flushes + 1, l.flushed + l.level⟩

/-- The tail of both dump functions. -/
def closeDump (l : Load) : Load := l.flush.store

/-- After the commit. -/
def committed : Load := ⟨1, 0, 0⟩

/-- A call of the serial probe with a buffer of `cap` records. -/
def serial (cap : ℕ) (l : Load) : Serial.Call → Load
  | .read _ _ _ => if l.level + 2 = cap then l.store.store.closeDump else l.store
  | .dump =>
      if l.level + 2 = cap then l.store.store.closeDump.closeDump else l.store.closeDump

def phmpiDump (cap : ℕ) (l : Load) : Load :=
  { l with level := min l.level (cap - 1) }.store.closeDump

/-- A call of the MPI probe. A fast read past the last slot has no result. -/
def mpi (cap : ℕ) (l : Load) : Mpi.Call → Option Load
  | .read _ _ _ =>
      if cap ≤ l.level + 1 then some { l.phmpiDump cap with level := 0 }.store
      else if l.level + 2 = cap then some (l.store.phmpiDump cap)
      else some l.store
  | .fastread _ _ _ => if l.level < cap then some l.store else none
  | .dump => some (l.phmpiDump cap)

/-- The opens and the records of the run: one more flush, at the finalize. -/
def Served (c : Probe) (l : Load) : Prop :=
  (∀ i < l.flush.flushes, c.fopen i = true) ∧ l.flush.flushed < 2 ^ 31

end Load

/-! ## Accounted states -/

/-- A state and the load of the calls that led to it. -/
structure Accounted (c : Probe) (l : Load) (s : PhState) : Prop where
  level : s.irec.toNat = l.level
  flushes : s.nopen = l.flushes
  flushed : s.nrecTot = BitVec.ofNat 64 l.flushed
  samples : s.nsample = l.flushed + l.level + s.omitted
  rows_le : s.rows.length ≤ l.flushed
  rows_eq_iff : s.rows.length = l.flushed ↔ ∀ i < l.flushes, c.fopen i = true

namespace Accounted

variable {c : Probe} {p : Sampler} {l : Load} {s : PhState}

theorem length_contents (h : Accounted c l s) :
    (s.contents c).length = s.rows.length + l.level := by
  simp [PhState.contents, WriteBuffer.contents, WriteBuffer.printed, PhState.toBuffer, h.level]

/-- Nothing is lost exactly as long as every open succeeds. -/
theorem conserved_iff (h : Accounted c l s) :
    s.Conserved c ↔ ∀ i < l.flushes, c.fopen i = true := by
  rw [PhState.Conserved, h.length_contents, h.samples, ← h.rows_eq_iff]
  omega

theorem store (h : Accounted c l s) (hle : l.level ≤ c.bufNrec.toNat) (gid pid : U32)
    (uval : Double) : Accounted c l.store (s.store c p gid pid uval) where
  level := by
    rw [PhState.store_irec c p gid pid uval (h.level.trans_le hle), h.level]
    rfl
  flushes := h.flushes
  flushed := h.flushed
  samples := by
    have homitted : (s.store c p gid pid uval).omitted = s.omitted := by
      simp [PhState.omitted, Event.omits]
    have hsamples := h.samples
    show s.nsample + 1 = l.flushed + (l.level + 1) + _
    omega
  rows_le := h.rows_le
  rows_eq_iff := h.rows_eq_iff

/-- A flush counts its records, and writes them if it finds the file. Rewound or not, the
buffer is empty afterwards. -/
theorem flush (h : Accounted c l s) (hpos : 1 ≤ l.level) (hle : l.level ≤ c.bufNrec.toNat) :
    Accounted c l.flush (s.wtrec c s.irec).2.rewind := by
  have hsmall : s.irec.toNat < 2 ^ 31 := c.lt_of_le (h.level.trans_le hle)
  have hint : s.irec.toInt.toNat = l.level := by
    rw [BitVec.toInt_eq_toNat_of_lt (by omega), Int.toNat_natCast, h.level]
  have hmsb : s.irec.msb = false := BitVec.msb_eq_false_iff_two_mul_lt.mpr (by omega)
  have hrows : (s.wtrec c s.irec).2.rewind.rows.length =
      s.rows.length + if c.fopen l.flushes then l.level else 0 := by
    rw [PhState.rewind_rows, PhState.length_rows_wtrec, hint, h.flushes]
  have hopened : (∀ i < l.flushes + 1, c.fopen i = true) ↔
      (∀ i < l.flushes, c.fopen i = true) ∧ c.fopen l.flushes = true := Nat.forall_lt_succ_right
  have hshort := h.rows_le
  refine ⟨rfl, ?_, ?_, ?_, ?_, ?_⟩
  · show (s.wtrec c s.irec).2.nopen = _
    rw [PhState.wtrec_nopen, h.flushes]
    rfl
  · show (s.wtrec c s.irec).2.nrecTot = _
    rw [PhState.wtrec_nrecTot, h.flushed, BitVec.signExtend_eq_setWidth_of_msb_false hmsb,
      ← BitVec.ofNat_toNat, h.level, ← BitVec.ofNat_add]
    rfl
  · show (s.wtrec c s.irec).2.nsample = _ + 0 + (s.wtrec c s.irec).2.omitted
    rw [PhState.wtrec_nsample, PhState.wtrec_omitted, h.samples]
    rfl
  · rw [hrows]
    show _ ≤ l.flushed + l.level
    split <;> omega
  · rw [hrows]
    show _ = l.flushed + l.level ↔ ∀ i < l.flushes + 1, c.fopen i = true
    rw [hopened, ← h.rows_eq_iff]
    cases hopen : c.fopen l.flushes with
    | true => simp
    | false =>
        simp only [Bool.false_eq_true, if_false, Nat.add_zero, and_false, iff_false]
        exact Nat.ne_of_lt (Nat.lt_of_le_of_lt hshort (Nat.lt_add_of_pos_right hpos))

/-- The tail of a dump. -/
theorem closeDump (h : Accounted c l s) (hpos : 1 ≤ l.level) (hle : l.level ≤ c.bufNrec.toNat) :
    Accounted c l.closeDump (s.closeDump c p) :=
  (h.flush hpos hle).store (Nat.zero_le _) 0 4 Double.zero

/-- Moving the index and saying in the log how many records that gives up. -/
theorem giveUp (h : Accounted c l s) (irec : U32) (log : List Event)
    (hcount : log.countP Event.omits + irec.toNat = s.omitted + l.level) :
    Accounted c { l with level := irec.toNat } { s with irec := irec, log := log } where
  level := rfl
  flushes := h.flushes
  flushed := h.flushed
  samples := by
    have hsamples := h.samples
    show s.nsample = l.flushed + irec.toNat + log.countP Event.omits
    omega
  rows_le := h.rows_le
  rows_eq_iff := h.rows_eq_iff

theorem fresh (c : Probe) (precs : ℕ → Rec) : Accounted c ⟨0, 0, 0⟩ (Serial.init precs) where
  level := rfl
  flushes := rfl
  flushed := rfl
  samples := rfl
  rows_le := Nat.le_refl 0
  rows_eq_iff := by simp [Serial.init]

/-- The printed total is the number of rows, unless that is off by less than `2 ^ 31` or
too large to be printed. -/
theorem wtinfo_eq_iff (h : Accounted c l s) (hnear : l.flushed < s.rows.length + 2 ^ 31) :
    s.wtinfo = s.rows.length ↔ s.rows.length = l.flushed ∧ l.flushed < 2 ^ 31 := by
  have hrows := h.rows_le
  have htotal : s.nrecTot.truncate 32 = BitVec.ofNat 32 l.flushed := by
    rw [h.flushed, BitVec.truncate_eq_setWidth, BitVec.setWidth_ofNat_of_le (by decide)]
  rw [PhState.wtinfo, htotal, BitVec.toInt_eq_toNat_cond, BitVec.toNat_ofNat]
  split <;> omega

end Accounted

/-! ## Whole runs -/

section Runs

variable {α : Type} {c : Probe} {step : PhState → α → Option PhState}
  {loadStep : Load → α → Option Load}

/-- The relation along a run: accounted, with at least one record in the buffer and `room`
free slots. -/
structure Related (c : Probe) (room : ℕ) (l : Load) (s : PhState) : Prop where
  accounted : Accounted c l s
  pos : 1 ≤ l.level
  room : l.level + room ≤ c.bufNrec.toNat

theorem Related.le {room : ℕ} {l : Load} {s : PhState} (h : Related c room l s) :
    l.level ≤ c.bufNrec.toNat := Nat.le_of_add_right_le h.room

/-- A machine whose calls load the buffer as `loadStep` says accounts for its records
exactly when every open succeeds and the total can be printed. -/
theorem owes_iff {room : ℕ}
    (hstep : ∀ l s a, Related c room l s → Option.Rel (Related c room) (loadStep l a) (step s a))
    (hmono : ∀ l a l', loadStep l a = some l' → l.flushes ≤ l'.flushes)
    {start last : PhState} {first load : Load} (hstart : Related c room first start)
    {calls : List α} (hload : Runs.run loadStep first calls = some load)
    (hlast : Runs.run step start calls = some last) :
    Owes c step start calls (last.wtrec c last.irec).2 ↔ load.Served c := by
  have hrun : ∀ {done : List α} {l : Load} {s : PhState},
      Runs.run loadStep first done = some l → Runs.run step start done = some s →
        Related c room l s := by
    intro done l s hl hs
    have hrel := Runs.run_related (Related c room) (fun l s a => hstep l s a) done _ _ hstart
    rw [hl, hs] at hrel
    cases hrel with
    | some h => exact h
  have hend := hrun hload hlast
  have hflush := hend.accounted.flush hend.pos hend.le
  have hsmall : load.level < 2 ^ 26 := lt_of_le_of_lt hend.le c.bufNrec_lt
  have hlastly : (∀ i < load.flush.flushes, c.fopen i = true) →
      ∀ i < load.flushes, c.fopen i = true :=
    fun h i hi => h i (Nat.lt_succ_of_lt hi)
  constructor
  · rintro ⟨hconserved, htotal⟩
    have hopen := hend.accounted.conserved_iff.mp (hconserved calls (List.prefix_refl _) last hlast)
    have hrows := hend.accounted.rows_eq_iff.mpr hopen
    have hnear : load.flush.flushed < (last.wtrec c last.irec).2.rewind.rows.length + 2 ^ 31 := by
      rw [PhState.rewind_rows, PhState.length_rows_wtrec, hrows]
      show load.flushed + load.level < _
      omega
    obtain ⟨hall, hprint⟩ := (hflush.wtinfo_eq_iff hnear).mp htotal
    exact ⟨hflush.rows_eq_iff.mp hall, hprint⟩
  · rintro ⟨hopen, hprint⟩
    have hall := hflush.rows_eq_iff.mpr hopen
    refine ⟨?_, (hflush.wtinfo_eq_iff (by omega)).mpr ⟨hall, hprint⟩⟩
    intro done hdone s hs
    have hrel := Runs.run_related (Related c room) (fun l s a => hstep l s a) done _ _ hstart
    rw [hs] at hrel
    cases hl : Runs.run loadStep first done with
    | none => rw [hl] at hrel; cases hrel
    | some l =>
        obtain ⟨more, hmore⟩ := Runs.run_rest hdone hl hload
        have hle : l.flushes ≤ load.flushes :=
          Runs.run_invariant (fun m => l.flushes ≤ m.flushes) (fun _ => True)
            (fun m a m' h _ hone => h.trans (hmono m a m' hone)) more l load (Nat.le_refl _)
            (fun _ _ => trivial) hmore
        exact (hrun hl hs).accounted.conserved_iff.mpr
          fun i hi => hlastly hopen i (lt_of_lt_of_le hi hle)

end Runs

namespace Accounted

variable {c : Probe} {l : Load} {s : PhState}

/-! ## The serial probe -/

theorem ready (h : Related c 2 l s) : Serial.Ready c s where
  pos := h.accounted.level ▸ h.pos
  room := h.accounted.level ▸ h.room

theorem serial_dump (hroom : l.level + 1 ≤ c.bufNrec.toNat) (h : Accounted c l s) :
    Accounted c l.store.closeDump ((Serial.markDump c s).closeDump c (Serial.sampler c)) := by
  have hmark : Accounted c l.store (Serial.markDump c s) := h.store (by omega) 0 3 _
  exact hmark.closeDump (Nat.succ_le_succ (Nat.zero_le _)) hroom

/-- The step lemma of the serial probe. -/
theorem serial_step (depth : ℕ) (hcap : 3 ≤ c.bufNrec.toNat) (l : Load) (s : PhState)
    (call : Serial.Call) (h : Related c 2 l s) :
    Option.Rel (Related c 2) (some (l.serial c.bufNrec.toNat call))
      (Serial.step c (depth + 2) s call) := by
  have hlevel := h.accounted.level
  have hroom := h.room
  have hone : 1 ≤ c.bufNrec.toNat := Nat.le_trans (by decide) hcap
  rw [Serial.step_eq depth hcap (ready h)]
  apply Option.Rel.some
  cases call with
  | read gid pid uval =>
      have hstore : Accounted c l.store (s.store c (Serial.sampler c) gid pid uval) :=
        h.accounted.store h.le gid pid uval
      simp only [Serial.next, Serial.readState, Load.serial, hlevel]
      split
      case isTrue hfull =>
        exact ⟨serial_dump hfull.le hstore, Nat.le_refl 1, hcap⟩
      case isFalse hnot =>
        exact ⟨hstore, Nat.succ_le_succ (Nat.zero_le _), by simp only [Load.store]; omega⟩
  | dump =>
      simp only [Serial.next, Serial.dumpState, Load.serial, hlevel]
      split
      case isTrue hfull =>
        have hmark : Accounted c l.store (Serial.markDump c s) := h.accounted.store h.le 0 3 _
        have hinner := serial_dump hfull.le hmark
        exact ⟨hinner.closeDump (Nat.le_refl 1) (hone),
          Nat.le_refl 1, hcap⟩
      case isFalse hnot =>
        exact ⟨serial_dump (by omega) h.accounted, Nat.le_refl 1, hcap⟩

theorem serial_committed (hcap : 3 ≤ c.bufNrec.toNat) (precs : ℕ → Rec) :
    Related c 2 Load.committed (Serial.committed c precs) where
  accounted := (fresh c precs).store (Nat.zero_le _) 0 1 Double.zero
  pos := Nat.le_refl 1
  room := hcap

/-- The finalize is one more `ph_read` and a flush. -/
theorem serial_finalize {depth : ℕ} {t : PhState}
    (hread : Serial.step c depth s (.read 0 2 Double.zero) = some t) :
    Serial.phFinalize c depth s = some (t.wtrec c t.irec).2 := by
  rw [Serial.phFinalize, Option.bind_eq_bind]
  show (Serial.step c depth s (.read 0 2 Double.zero)).bind _ = _
  rw [hread]
  rfl

/-! ## The MPI probe -/

theorem inRange (h : Related c 0 l s) : Mpi.InRange c s where
  pos := h.accounted.level ▸ h.pos
  le := h.accounted.level ▸ h.room

/-- Stepping back from an exceeded buffer gives up its last record. -/
theorem stepBack (hcap : 3 ≤ c.bufNrec.toNat) (hle : l.level ≤ c.bufNrec.toNat)
    (h : Accounted c l s) :
    Accounted c { l with level := min l.level (c.bufNrec.toNat - 1) } (Mpi.stepBack c s) := by
  have hlevel := h.level
  by_cases hlt : s.irec.toNat < c.bufNrec.toNat
  · rw [Mpi.stepBack_of_lt hlt, Nat.min_eq_left (by omega)]
    exact h
  · have hone : (1 : U32) ≤ c.bufNrec := BitVec.le_def.mpr (Nat.le_trans (by decide) hcap)
    have hindex : (c.bufNrec - 1).toNat = c.bufNrec.toNat - 1 := BitVec.toNat_sub_of_le hone
    rw [Mpi.stepBack, if_pos (Mpi.ge_iff.mpr (Nat.le_of_not_lt hlt)),
      Nat.min_eq_right (by omega), ← hindex]
    apply h.giveUp _ _
    simp only [List.countP_append, PhState.omitted, Event.omits, List.countP_singleton, if_true]
    omega

theorem phmpiDump (hcap : 3 ≤ c.bufNrec.toNat) (h : Related c 0 l s) :
    Accounted c (l.phmpiDump c.bufNrec.toNat) (Mpi.phmpiDump c s) := by
  have hback := stepBack hcap h.le h.accounted
  have hmark : Accounted c { l with level := min l.level (c.bufNrec.toNat - 1) }.store
      (Mpi.phmpiFastread c (Mpi.stepBack c s) 0 3 Double.zero) :=
    hback.store (by simp only; omega) 0 3 Double.zero
  rw [Mpi.phmpiDump_eq (inRange h)]
  exact hmark.closeDump (Nat.succ_le_succ (Nat.zero_le _)) (by simp only [Load.store]; omega)

/-- The step lemma of the MPI probe. -/
theorem mpi_step (hcap : 3 ≤ c.bufNrec.toNat) (l : Load) (s : PhState) (call : Mpi.Call)
    (h : Related c 0 l s) :
    Option.Rel (Related c 0) (l.mpi c.bufNrec.toNat call) (Mpi.step c s call) := by
  have hlevel := h.accounted.level
  have hle := h.le
  have hone : 1 ≤ c.bufNrec.toNat := Nat.le_trans (by decide) hcap
  cases call with
  | read gid pid uval =>
      have hfast : Accounted c l.store (Mpi.phmpiFastread c s gid pid uval) :=
        h.accounted.store hle gid pid uval
      simp only [Mpi.step, Load.mpi]
      by_cases hfull : c.bufNrec.toNat ≤ l.level + 1
      · rw [if_pos hfull, Mpi.phmpiRead_of_full gid pid uval (inRange h).le (hlevel ▸ hfull)]
        have hdump := phmpiDump hcap h
        have hbefore : Accounted c { l.phmpiDump c.bufNrec.toNat with level := 0 }
            (Mpi.dumpedBefore c s) := by
          apply hdump.giveUp 0 _
          simp only [List.countP_append, PhState.omitted, Event.omits, List.countP_singleton,
            if_true]
          rfl
        exact Option.Rel.some ⟨hbefore.store (Nat.zero_le _) gid pid uval, Nat.le_refl 1, hone⟩
      · rw [if_neg hfull]
        by_cases hlast : l.level + 2 = c.bufNrec.toNat
        · rw [if_pos hlast, Mpi.phmpiRead_of_last gid pid uval (hlevel ▸ hlast)]
          have hnoted : Accounted c l.store { Mpi.phmpiFastread c s gid pid uval with
              log := (Mpi.phmpiFastread c s gid pid uval).log ++ [.dumpAfterRead] } := by
            have hsame := hfast.giveUp (Mpi.phmpiFastread c s gid pid uval).irec
              ((Mpi.phmpiFastread c s gid pid uval).log ++ [.dumpAfterRead])
              (by simp [PhState.omitted, Event.omits, hfast.level])
            rwa [hfast.level] at hsame
          exact Option.Rel.some ⟨phmpiDump hcap ⟨hnoted, Nat.succ_le_succ (Nat.zero_le _),
            by simp only [Load.store]; omega⟩, Nat.le_refl 1, hone⟩
        · rw [if_neg hlast, Mpi.phmpiRead_of_room gid pid uval (by omega)]
          exact Option.Rel.some ⟨hfast, Nat.succ_le_succ (Nat.zero_le _),
            by simp only [Load.store]; omega⟩
  | fastread gid pid uval =>
      simp only [Mpi.step, Load.mpi, BitVec.lt_def, hlevel]
      split
      case isTrue hlt =>
        exact Option.Rel.some ⟨h.accounted.store hle gid pid uval,
          Nat.succ_le_succ (Nat.zero_le _), hlt⟩
      case isFalse => exact Option.Rel.none
  | dump => exact Option.Rel.some ⟨phmpiDump hcap h, Nat.le_refl 1, hone⟩

theorem mpi_committed (hcap : 3 ≤ c.bufNrec.toNat) (precs : ℕ → Rec) :
    Related c 0 Load.committed (Mpi.phmpiCommit c precs) where
  accounted := (fresh c precs).store (Nat.zero_le _) 0 1 Double.zero
  pos := Nat.le_refl 1
  room := Nat.le_trans (by decide) hcap

end Accounted

/-! ## Both probes -/

namespace Load

theorem flushes_le_serial (cap : ℕ) (l : Load) (call : Serial.Call) :
    l.flushes ≤ (l.serial cap call).flushes := by
  cases call <;> grind [serial, store, closeDump, flush]

theorem flushes_le_mpi {cap : ℕ} {l l' : Load} {call : Mpi.Call} (h : l.mpi cap call = some l') :
    l.flushes ≤ l'.flushes := by
  cases call <;> simp only [mpi] at h <;>
    grind [store, phmpiDump, closeDump, flush]

end Load

/-- **Accounting under flush failures.** A run of the serial probe returns, and so does a
run of the MPI probe whose fast reads stay inside the buffer; each conserves its records
and prints the number of rows as their total, if and only if every open of the record file
succeeds and fewer than `2 ^ 31` records are flushed. -/
theorem accounting_iff (c : Probe) (hcap : 3 ≤ c.bufNrec.toNat) (precs : ℕ → Rec) :
    (∀ (depth : ℕ) (calls : List Serial.Call), 2 ≤ depth →
      ∃ start last final : PhState, Serial.phCommit c depth (Serial.init precs) = some start ∧
        Runs.run (Serial.step c depth) start calls = some last ∧
        Serial.phFinalize c depth last = some final ∧
        (Owes c (Serial.step c depth) start (calls ++ [.read 0 2 Double.zero]) final ↔
          (List.foldl (Load.serial c.bufNrec.toNat) Load.committed
            (calls ++ [.read 0 2 Double.zero])).Served c)) ∧
    ∀ (calls : List Mpi.Call) (load : Load),
      Runs.run (Load.mpi c.bufNrec.toNat) Load.committed
        (calls ++ [.read 0 2 Double.zero]) = some load →
      ∃ last : PhState, Runs.run (Mpi.step c) (Mpi.phmpiCommit c precs) calls = some last ∧
        (Owes c (Mpi.step c) (Mpi.phmpiCommit c precs) (calls ++ [.read 0 2 Double.zero])
          (Mpi.phmpiFinalize c last) ↔ load.Served c) := by
  constructor
  · intro depth calls hdepth
    obtain ⟨extra, rfl⟩ := Nat.exists_eq_add_of_le' hdepth
    obtain ⟨hrun, hready, -⟩ := Serial.run_calls extra hcap precs calls
    have hread := Serial.step_eq extra hcap hready (.read 0 2 Double.zero)
    refine ⟨_, _, _, Serial.phCommit_eq (extra + 2) hcap precs, hrun,
      Accounted.serial_finalize hread, ?_⟩
    · have hall := Runs.run_append hrun [.read 0 2 Double.zero]
      rw [Runs.run_cons hread, Runs.run_nil] at hall
      exact owes_iff (Accounted.serial_step extra hcap)
        (fun l a l' h => Option.some.inj h ▸ Load.flushes_le_serial _ l a)
        (Accounted.serial_committed hcap precs) (Runs.run_total _ _ _) hall
  · intro calls load hload
    have hrel := Runs.run_related (Related c 0) (Accounted.mpi_step hcap) calls _ _
      (Accounted.mpi_committed hcap precs)
    rw [Runs.run_append_eq] at hload
    obtain ⟨before, hbefore, -⟩ := Option.bind_eq_some_iff.mp hload
    rw [hbefore] at hrel
    cases hrun : Runs.run (Mpi.step c) (Mpi.phmpiCommit c precs) calls with
    | none => rw [hrun] at hrel; cases hrel
    | some last =>
        refine ⟨last, rfl, ?_⟩
        have hall := Runs.run_append hrun [.read 0 2 Double.zero]
        rw [← Runs.run_append_eq] at hload
        exact owes_iff (Accounted.mpi_step hcap) (fun _ _ _ h => Load.flushes_le_mpi h)
          (Accounted.mpi_committed hcap precs) hload hall

/-- Where every open succeeds, a dump and the finalize lose nothing. -/
theorem accounting_iff_smallest :
    ∃ last : PhState, Runs.run (Mpi.step Probe.smallest)
        (Mpi.phmpiCommit Probe.smallest fun _ => Rec.cleared) [.dump] = some last ∧
      Owes Probe.smallest (Mpi.step Probe.smallest)
        (Mpi.phmpiCommit Probe.smallest fun _ => Rec.cleared) [.dump, .read 0 2 Double.zero]
        (Mpi.phmpiFinalize Probe.smallest last) := by
  obtain ⟨last, hrun, howes⟩ :=
    (accounting_iff Probe.smallest (by decide) fun _ => Rec.cleared).2 [.dump] ⟨1, 2, 5⟩ rfl
  have hserved : Load.Served Probe.smallest ⟨1, 2, 5⟩ := ⟨fun _ _ => rfl, by decide⟩
  exact ⟨last, hrun, howes.mpr hserved⟩

/-- The smallest buffer, whose first flush does not find the file. -/
def Probe.failsOnce : Probe := { Probe.smallest with fopen := fun i => i != 0 }

/-- The records of a dump that fails are gone: the file ends with five rows, and
`run_info.csv` says eight. -/
theorem failed_dump_loses_records :
    ∃ start dumped final : PhState,
      Serial.phCommit Probe.failsOnce 2 (Serial.init fun _ => Rec.cleared) = some start ∧
      Runs.run (Serial.step Probe.failsOnce 2) start [.dump] = some dumped ∧
      Serial.phFinalize Probe.failsOnce 2 dumped = some final ∧
      dumped.nsample = 5 ∧ (dumped.contents Probe.failsOnce).length = 2 ∧
      final.wtinfo = 8 ∧ final.rows.length = 5 ∧
      ¬ Owes Probe.failsOnce (Serial.step Probe.failsOnce 2) start
        [.dump, .read 0 2 Double.zero] final := by
  refine ⟨_, _, _, rfl, rfl, rfl, rfl, by decide, by decide, by decide, ?_⟩
  intro howes
  exact absurd howes.total (by decide)

end PerfHound
