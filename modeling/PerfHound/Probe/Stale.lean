/-
# Data of the fresh buffer in the record file

A sampling need not fill all of the record that a flush will print: which `ev` slots it
writes is fixed by the build, by a switch over `ph_nev`, or by how many of the events
PAPI has taken into its event set, and a PAPI build takes the cycle of the MPI probe from
slot 0. A column that no sampling writes shows what the memory held when the buffer was
allocated.

Two runs that differ in nothing but that memory agree, call by call, on everything they
have written and on the printed part of every record in the buffer (`Agree`), as long as
the sampling covers the printed columns (`Sampler.Covers`). When it does not, the first
row of the file already tells the two runs apart.
-/

import PerfHound.Probe.EvtX86
import PerfHound.Probe.Serial
import PerfHound.Probe.Mpi
import PerfHound.Probe.RecText

namespace PerfHound

open Lib RecText

/-- A sampling writes every column that is printed, and the cycle it copies. -/
def Sampler.Covers (p : Sampler) (nev : ℕ) : Prop :=
  nev ≤ p.nread ∧ (p.cyFromEv = true → 0 < p.nread)

/-- A covered row does not depend on what the slot held. -/
theorem Sampler.Covers.ofRec_fill {p : Sampler} {nev : ℕ} (hp : p.Covers nev) (m : Sample)
    (gid pid : U32) (uval : Double) (old old' : Rec) :
    Row.ofRec nev (p.fill m gid pid uval old) = Row.ofRec nev (p.fill m gid pid uval old') := by
  have hev : ∀ j < nev, (if j < p.nread then m.ev j else old.ev j) =
      if j < p.nread then m.ev j else old'.ev j := by
    intro j hj
    rw [if_pos (lt_of_lt_of_le hj hp.1), if_pos (lt_of_lt_of_le hj hp.1)]
  have hcy : (if p.cyFromEv then (if 0 < p.nread then m.ev 0 else old.ev 0) else m.cy) =
      if p.cyFromEv then (if 0 < p.nread then m.ev 0 else old'.ev 0) else m.cy := by
    cases hfrom : p.cyFromEv with
    | false => rfl
    | true => rw [if_pos (hp.2 hfrom), if_pos (hp.2 hfrom)]
  simp only [Row.ofRec, Sampler.fill, hcy, Row.mk.injEq, true_and]
  exact List.map_congr_left fun j hj => hev j (List.mem_range.mp hj)

/-- A record of an allocation whose memory holds the same word everywhere in `ev`. -/
def Rec.filled (w : U64) : Rec := { Rec.cleared with ev := fun _ => w }

/-- A row that is not covered shows the memory of the slot. -/
theorem Sampler.covers_of_ofRec_fill {p : Sampler} {nev : ℕ} {m : Sample} {gid pid : U32}
    {uval : Double}
    (hcy : (Row.ofRec nev (p.fill m gid pid uval (Rec.filled 0))).cy =
      (Row.ofRec nev (p.fill m gid pid uval (Rec.filled 1))).cy)
    (hev : (Row.ofRec nev (p.fill m gid pid uval (Rec.filled 0))).ev =
      (Row.ofRec nev (p.fill m gid pid uval (Rec.filled 1))).ev) : p.Covers nev := by
  constructor
  · by_contra hlong
    have hslot := congrArg (fun ev => ev[p.nread]?) hev
    simp [Row.ofRec, Sampler.fill, Nat.not_le.mp hlong, Rec.filled] at hslot
  · intro hfrom
    by_contra hzero
    simp [Row.ofRec, Sampler.fill, hfrom, hzero, Rec.filled] at hcy

/-! ## Two runs -/

namespace PhState

/-- Two states that differ in nothing that has been or will be printed. -/
structure Agree (c : Probe) (s t : PhState) : Prop where
  irec : s.irec = t.irec
  rows : s.rows = t.rows
  nsample : s.nsample = t.nsample
  nopen : s.nopen = t.nopen
  precs : ∀ i < s.irec.toNat, Row.ofRec c.nev (s.precs i) = Row.ofRec c.nev (t.precs i)

variable {c : Probe} {p : Sampler} {s t : PhState}

theorem Agree.store (hp : p.Covers c.nev) (h : Agree c s t) (gid pid : U32) (uval : Double) :
    Agree c (s.store c p gid pid uval) (t.store c p gid pid uval) where
  irec := by simp only [PhState.store, h.irec]
  rows := h.rows
  nsample := congrArg (· + 1) h.nsample
  nopen := h.nopen
  precs := by
    intro i hi
    simp only [PhState.store, ← h.irec, ← h.nsample]
    by_cases hslot : i = s.irec.toNat
    · rw [hslot, Function.update_self, Function.update_self]
      exact hp.ofRec_fill _ gid pid uval _ _
    · rw [Function.update_of_ne hslot, Function.update_of_ne hslot]
      -- the index may wrap, but only down
      have hle : (s.irec + 1).toNat ≤ s.irec.toNat + 1 := by
        rw [BitVec.toNat_add]
        exact Nat.mod_le _ _
      have hbelow : i < (s.irec + 1).toNat := hi
      exact h.precs i (by omega)

theorem Agree.wtrec (h : Agree c s t) :
    Agree c (s.wtrec c s.irec).2 (t.wtrec c t.irec).2 := by
  have hint : s.irec.toInt.toNat ≤ s.irec.toNat := by
    rw [BitVec.toInt_eq_toNat_cond]
    split <;> omega
  have hrows : (List.range s.irec.toInt.toNat).map (fun i => Row.ofRec c.nev (s.precs i)) =
      (List.range s.irec.toInt.toNat).map fun i => Row.ofRec c.nev (t.precs i) :=
    List.map_congr_left fun i hi => h.precs i (lt_of_lt_of_le (List.mem_range.mp hi) hint)
  simp only [PhState.wtrec, ← h.nopen]
  split
  · exact ⟨h.irec, by simp only [h.rows, hrows, ← h.irec], h.nsample, rfl, h.precs⟩
  · exact ⟨h.irec, h.rows, h.nsample, rfl, h.precs⟩

theorem Agree.rewind (h : Agree c s t) : Agree c s.rewind t.rewind :=
  ⟨rfl, h.rows, h.nsample, h.nopen, fun i hi => absurd hi (Nat.not_lt_zero i)⟩

/-- A log entry is not printed. -/
theorem Agree.logged (h : Agree c s t) (log log' : List Event) :
    Agree c { s with log := log } { t with log := log' } :=
  ⟨h.irec, h.rows, h.nsample, h.nopen, h.precs⟩

theorem Agree.fresh (c : Probe) (precs precs' : ℕ → Rec) :
    Agree c (Serial.init precs) (Serial.init precs') :=
  ⟨rfl, rfl, rfl, rfl, fun i hi => absurd hi (Nat.not_lt_zero i)⟩

/-! ## The first row -/

/-- The first row of the file, or the first in the buffer while there is no file. -/
def First (c : Probe) (row : Row) (s : PhState) : Prop :=
  s.rows.head? = some row ∨
    s.rows = [] ∧ 1 ≤ s.irec.toNat ∧ Row.ofRec c.nev (s.precs 0) = row

variable {row : Row}

theorem First.store (h : First c row s) (hle : s.irec.toNat ≤ c.bufNrec.toNat) (gid pid : U32)
    (uval : Double) : First c row (s.store c p gid pid uval) := by
  rcases h with hfile | ⟨hempty, hpos, hfirst⟩
  · exact Or.inl hfile
  · refine Or.inr ⟨hempty, ?_, ?_⟩
    · rw [store_irec c p gid pid uval hle]
      exact Nat.succ_pos _
    · have hslot : 0 ≠ s.irec.toNat := Nat.ne_of_lt hpos
      simp only [PhState.store, Function.update_of_ne hslot, hfirst]

/-- After a flush that finds the file, the first row is in it. -/
theorem First.wtrec (h : First c row s) (hopen : ∀ i, c.fopen i = true)
    (hle : s.irec.toNat ≤ c.bufNrec.toNat) : (s.wtrec c s.irec).2.rows.head? = some row := by
  rw [wtrec_rows c hopen hle, contents, WriteBuffer.contents]
  rcases h with hfile | ⟨hempty, hpos, hfirst⟩
  · rw [List.head?_append]
    simp [toBuffer, hfile]
  · obtain ⟨n, hn⟩ := Nat.exists_eq_add_of_lt (Nat.lt_of_succ_le hpos)
    simp only [toBuffer, hempty, WriteBuffer.printed, List.nil_append, hn, Nat.zero_add,
      List.range_succ_eq_map, List.map_cons, List.head?_cons, hfirst]

theorem First.closeDump (h : First c row s) (hopen : ∀ i, c.fopen i = true)
    (hle : s.irec.toNat ≤ c.bufNrec.toNat) : First c row (s.closeDump c p) :=
  Or.inl (h.wtrec hopen hle)

end PhState

/-- Files of runs from differently filled buffers that agree come from samplings that
cover the columns. -/
theorem covers_of_recText_eq {print : Double → List Char} {c : Probe} {p : Sampler} {m : Sample}
    {gid pid : U32} {uval : Double} {rest rest' : List Row}
    (h : recText c.build print c.nev
        (Row.ofRec c.nev (p.fill m gid pid uval (Rec.filled 0)) :: rest) =
      recText c.build print c.nev
        (Row.ofRec c.nev (p.fill m gid pid uval (Rec.filled 1)) :: rest')) : p.Covers c.nev := by
  obtain ⟨hcy, hev⟩ := first_row_inj print h rfl rfl rfl rfl (by simp [Row.ofRec])
  exact Sampler.covers_of_ofRec_fill hcy hev

open PhState

/-! ## The serial probe -/

namespace Serial

variable (print : Double → List Char) (c : Probe)

/-- The record file of a run from commit to finalize, in a buffer that held `precs` when
it was allocated. -/
def recordFile (depth : ℕ) (precs : ℕ → Rec) (calls : List Call) : Option (List Char) := do
  let s ← phCommit c depth (init precs)
  let s ← Runs.run (step c depth) s calls
  let s ← phFinalize c depth s
  return recText c.build print c.nev s.rows

variable {print c}

theorem agree_phReadWith (hp : (sampler c).Covers c.nev) {dump : PhState → Option PhState}
    (hdump : ∀ s t, Agree c s t → Option.Rel (Agree c) (dump s) (dump t)) {s t : PhState}
    (h : Agree c s t) (gid pid : U32) (uval : Double) :
    Option.Rel (Agree c) (phReadWith c dump s gid pid uval)
      (phReadWith c dump t gid pid uval) := by
  have hstore := h.store hp gid pid uval
  simp only [phReadWith, ← hstore.irec]
  split
  · exact hdump _ _ hstore
  · exact Option.Rel.some hstore

theorem agree_phDump (hp : (sampler c).Covers c.nev) : ∀ (depth : ℕ) (s t : PhState),
    Agree c s t → Option.Rel (Agree c) (phDump c depth s) (phDump c depth t) := by
  intro depth
  induction depth with
  | zero => intro s t _; exact Option.Rel.none
  | succ depth ih =>
      intro s t h
      simp only [phDump, Option.bind_eq_bind]
      rw [← h.irec]
      refine Runs.rel_bind (agree_phReadWith hp ih h 0 3 _) fun s t h => ?_
      exact agree_phReadWith hp ih h.wtrec.rewind 0 4 Double.zero

theorem agree_phRead (hp : (sampler c).Covers c.nev) (depth : ℕ) {s t : PhState}
    (h : Agree c s t) (gid pid : U32) (uval : Double) :
    Option.Rel (Agree c) (phRead c depth s gid pid uval) (phRead c depth t gid pid uval) :=
  agree_phReadWith hp (agree_phDump hp depth) h gid pid uval

theorem agree_step (hp : (sampler c).Covers c.nev) (depth : ℕ) (s t : PhState) (call : Call)
    (h : Agree c s t) : Option.Rel (Agree c) (step c depth s call) (step c depth t call) := by
  cases call with
  | read gid pid uval => exact agree_phRead hp depth h gid pid uval
  | dump => exact agree_phDump hp depth s t h

/-- Covered rows do not tell what the buffer held. -/
theorem recordFile_congr (hp : (sampler c).Covers c.nev) (depth : ℕ) (precs precs' : ℕ → Rec)
    (calls : List Call) :
    recordFile print c depth precs calls = recordFile print c depth precs' calls := by
  have hend : Option.Rel (· = ·) (recordFile print c depth precs calls)
      (recordFile print c depth precs' calls) := by
    have hinit : Agree c { init precs with rows := [], irec := 0 }
        { init precs' with rows := [], irec := 0 } := Agree.fresh c precs precs'
    refine Runs.rel_bind (agree_phRead hp depth hinit 0 1 Double.zero) fun s t h => ?_
    refine Runs.rel_bind (Runs.run_related _ (agree_step hp depth) calls s t h) fun s t h => ?_
    refine Runs.rel_bind (r := Agree c) ?_ fun s t h => ?_
    · refine Runs.rel_bind (agree_phRead hp depth h 0 2 Double.zero) fun s t h => ?_
      exact Option.Rel.some h.wtrec
    · exact Option.Rel.some (by rw [h.rows])
  exact Runs.eq_of_rel hend

/-- The row of the commit. -/
def firstRow (c : Probe) (precs : ℕ → Rec) : Row :=
  Row.ofRec c.nev ((sampler c).fill (c.sample 0) 0 1 Double.zero (precs 0))

theorem first_markDump_closeDump (hopen : ∀ i, c.fopen i = true) {row : Row} {s : PhState}
    (h : First c row s) (hlt : s.irec.toNat < c.bufNrec.toNat) :
    First c row ((markDump c s).closeDump c (sampler c)) := by
  refine First.closeDump (h.store hlt.le 0 3 _) hopen ?_
  rw [markDump_irec hlt.le]
  exact hlt

theorem first_next (hopen : ∀ i, c.fopen i = true) {row : Row} {s : PhState}
    (hs : Ready c s) (h : First c row s) (call : Call) : First c row (next c s call) := by
  have hroom := hs.room
  cases call with
  | read gid pid uval =>
      have hstore : First c row (s.store c (sampler c) gid pid uval) := h.store hs.le gid pid uval
      have hirec := PhState.store_irec c (sampler c) gid pid uval hs.le
      simp only [next, readState]
      split
      · exact first_markDump_closeDump hopen hstore (by omega)
      · exact hstore
  | dump =>
      simp only [next, dumpState]
      split
      · have hmark : First c row (markDump c s) := h.store hs.le 0 3 _
        have hirec := markDump_irec hs.le
        have hinner := first_markDump_closeDump hopen hmark (by omega)
        exact hinner.closeDump hopen (le_trans hs.pos hs.le)
      · exact first_markDump_closeDump hopen h hs.lt

variable (print) in
/-- A run that finds the file at every flush starts it with the row of the commit. -/
theorem recordFile_first (hcap : 3 ≤ c.bufNrec.toNat) (hopen : ∀ i, c.fopen i = true)
    (depth : ℕ) (precs : ℕ → Rec) (calls : List Call) :
    ∃ rest, recordFile print c (depth + 2) precs calls =
      some (recText c.build print c.nev (firstRow c precs :: rest)) := by
  have hfirst : First c (firstRow c precs) (committed c precs) :=
    Or.inr ⟨rfl, Nat.le_refl 1, by simp [committed, PhState.store, init, firstRow]⟩
  obtain ⟨hrun, hready, hlast⟩ := Runs.run_eq (next c)
    (fun s => Ready c s ∧ First c (firstRow c precs) s) (fun _ => True)
    (fun s call h _ => ⟨step_eq depth hcap h.1 call, ready_next hcap h.1 call,
      first_next hopen h.1 h.2 call⟩)
    calls (committed c precs) ⟨ready_committed hcap precs, hfirst⟩ fun _ _ => trivial
  have hend := ready_next hcap hready (.read 0 2 Double.zero)
  have hhead := (first_next hopen hready hlast (.read 0 2 Double.zero)).wtrec hopen hend.le
  obtain ⟨rest, hrows⟩ := List.head?_eq_some_iff.mp hhead
  refine ⟨rest, ?_⟩
  rw [recordFile, phCommit_eq (depth + 2) hcap precs, ← hrows]
  simp only [Option.bind_eq_bind, Option.bind_some, hrun, phFinalize, phRead_eq hcap hready]
  rfl

end Serial

/-! ## The MPI probe -/

namespace Mpi

variable (print : Double → List Char) (c : Probe)

/-- The record file of one rank from commit to finalize, in a buffer that held `precs`
when it was allocated. -/
def recordFile (precs : ℕ → Rec) (calls : List Call) : Option (List Char) := do
  let s ← Runs.run (step c) (phmpiCommit c precs) calls
  return recText c.build print c.nev (phmpiFinalize c s).rows

variable {print c} {s t : PhState}

theorem agree_stepBack (hcap : 3 ≤ c.bufNrec.toNat) (h : Agree c s t) :
    Agree c (stepBack c s) (stepBack c t) := by
  simp only [stepBack, ← h.irec]
  split
  case isTrue hge =>
    refine ⟨rfl, h.rows, h.nsample, h.nopen, fun i hi => h.precs i ?_⟩
    have hone : (1 : U32) ≤ c.bufNrec := BitVec.le_def.mpr (Nat.le_trans (by decide) hcap)
    have hback : i < (c.bufNrec - 1).toNat := hi
    rw [BitVec.toNat_sub_of_le hone] at hback
    exact lt_of_lt_of_le (lt_of_lt_of_le hback (Nat.sub_le _ _)) (ge_iff.mp hge)
  case isFalse => exact h

theorem agree_phmpiFastread (hp : (sampler c).Covers c.nev) (h : Agree c s t) (gid pid : U32)
    (uval : Double) : Agree c (phmpiFastread c s gid pid uval) (phmpiFastread c t gid pid uval) :=
  h.store hp gid pid uval

theorem agree_phmpiDump (hp : (sampler c).Covers c.nev) (hcap : 3 ≤ c.bufNrec.toNat)
    (h : Agree c s t) : Agree c (phmpiDump c s) (phmpiDump c t) := by
  simp only [phmpiDump, ← h.irec]
  split
  · exact h
  · have hmark := agree_phmpiFastread hp (agree_stepBack hcap h) 0 3 Double.zero
    exact agree_phmpiFastread hp hmark.wtrec.rewind 0 4 Double.zero

theorem agree_phmpiRead (hp : (sampler c).Covers c.nev) (hcap : 3 ≤ c.bufNrec.toNat)
    (h : Agree c s t) (gid pid : U32) (uval : Double) :
    Agree c (phmpiRead c s gid pid uval) (phmpiRead c t gid pid uval) := by
  have hfast := agree_phmpiFastread hp h gid pid uval
  simp only [phmpiRead, ← h.irec]
  split
  · have hdump := (agree_phmpiDump hp hcap h).rewind
    exact agree_phmpiFastread hp (hdump.logged _ _) gid pid uval
  · by_cases hfull : (phmpiFastread c s gid pid uval).irec + 1 ≥ c.bufNrec
    · rw [if_pos hfull, if_pos (by rwa [← hfast.irec])]
      exact agree_phmpiDump hp hcap (hfast.logged _ _)
    · rw [if_neg hfull, if_neg (by rwa [← hfast.irec])]
      exact hfast

theorem agree_step (hp : (sampler c).Covers c.nev) (hcap : 3 ≤ c.bufNrec.toNat)
    (s t : PhState) (call : Call) (h : Agree c s t) :
    Option.Rel (Agree c) (step c s call) (step c t call) := by
  cases call with
  | read gid pid uval => exact Option.Rel.some (agree_phmpiRead hp hcap h gid pid uval)
  | fastread gid pid uval =>
      simp only [step, ← h.irec]
      split
      · exact Option.Rel.some (agree_phmpiFastread hp h gid pid uval)
      · exact Option.Rel.none
  | dump => exact Option.Rel.some (agree_phmpiDump hp hcap h)

/-- Covered rows do not tell what the buffer held. -/
theorem recordFile_congr (hp : (sampler c).Covers c.nev) (hcap : 3 ≤ c.bufNrec.toNat)
    (precs precs' : ℕ → Rec) (calls : List Call) :
    recordFile print c precs calls = recordFile print c precs' calls := by
  have hcommit : Agree c (phmpiCommit c precs) (phmpiCommit c precs') :=
    agree_phmpiFastread hp (Agree.fresh c precs precs') 0 1 Double.zero
  apply Runs.eq_of_rel
  refine Runs.rel_bind (Runs.run_related _ (agree_step hp hcap) calls _ _ hcommit)
    fun s t h => Option.Rel.some ?_
  have hfinal : Agree c (phmpiFinalize c s) (phmpiFinalize c t) :=
    (agree_phmpiRead hp hcap h 0 2 Double.zero).wtrec
  rw [hfinal.rows]

/-- The row of the commit. -/
def firstRow (c : Probe) (precs : ℕ → Rec) : Row :=
  Row.ofRec c.nev ((sampler c).fill (c.sample 0) 0 1 Double.zero (precs 0))

variable {row : Row}

theorem first_stepBack (hcap : 3 ≤ c.bufNrec.toNat) (h : First c row s) :
    First c row (stepBack c s) := by
  by_cases hlt : s.irec.toNat < c.bufNrec.toNat
  · rw [stepBack_of_lt hlt]
    exact h
  · obtain ⟨hirec, hprecs, hrows⟩ := stepBack_of_ge hcap (Nat.le_of_not_lt hlt)
    rw [First, hirec, hprecs, hrows]
    rcases h with hfile | ⟨hempty, -, hfirst⟩
    · exact Or.inl hfile
    · exact Or.inr ⟨hempty, by omega, hfirst⟩

/-- A dump puts the first row into the file. -/
theorem first_phmpiDump (hcap : 3 ≤ c.bufNrec.toNat) (hopen : ∀ i, c.fopen i = true)
    (hs : InRange c s) (h : First c row s) : (phmpiDump c s).rows.head? = some row := by
  have hlt := stepBack_lt (s := s) hcap
  have hmark : First c row (phmpiFastread c (stepBack c s) 0 3 Double.zero) :=
    (first_stepBack hcap h).store hlt.le 0 3 Double.zero
  rw [phmpiDump_eq hs]
  apply hmark.wtrec hopen
  rw [fastread_irec 0 3 Double.zero hlt.le]
  exact hlt

theorem first_phmpiRead (hcap : 3 ≤ c.bufNrec.toNat) (hopen : ∀ i, c.fopen i = true)
    (hs : InRange c s) (h : First c row s) (gid pid : U32) (uval : Double) :
    First c row (phmpiRead c s gid pid uval) := by
  by_cases hfull : c.bufNrec.toNat ≤ s.irec.toNat + 1
  · rw [phmpiRead_of_full gid pid uval hs.le hfull]
    exact Or.inl (first_phmpiDump hcap hopen hs h)
  · have hirec := fastread_irec (c := c) (s := s) gid pid uval hs.le
    have hfast : First c row (phmpiFastread c s gid pid uval) := h.store hs.le gid pid uval
    by_cases hlast : s.irec.toNat + 2 = c.bufNrec.toNat
    · rw [phmpiRead_of_last gid pid uval hlast]
      refine Or.inl (first_phmpiDump hcap hopen ⟨?_, ?_⟩ hfast)
      · show 1 ≤ (phmpiFastread c s gid pid uval).irec.toNat
        omega
      · show (phmpiFastread c s gid pid uval).irec.toNat ≤ c.bufNrec.toNat
        omega
    · rw [phmpiRead_of_room gid pid uval (by omega)]
      exact hfast

variable (print) in
/-- A rank that finalizes right after the commit starts its file with the row of the
commit. -/
theorem recordFile_first (hcap : 3 ≤ c.bufNrec.toNat) (hopen : ∀ i, c.fopen i = true)
    (precs : ℕ → Rec) :
    ∃ rest, recordFile print c precs [] =
      some (recText c.build print c.nev (firstRow c precs :: rest)) := by
  have hfirst : First c (firstRow c precs) (phmpiCommit c precs) :=
    Or.inr ⟨rfl, Nat.le_refl 1, by
      simp [phmpiCommit, phmpiFastread, PhState.store, firstRow]⟩
  have hs := inRange_commit hcap precs
  have hread := first_phmpiRead hcap hopen hs hfirst 0 2 Double.zero
  have hroom := phmpiRead_room hcap hopen hs 0 2 Double.zero
  obtain ⟨rest, hrows⟩ := List.head?_eq_some_iff.mp (hread.wtrec hopen (by omega))
  refine ⟨rest, ?_⟩
  rw [← hrows]
  rfl

end Mpi

/-! ## Every process that records -/

/-- Which probe a process runs, and in an MPI job whether it is the rank that writes
`etag.csv`. -/
inductive Process
  | serial
  | root
  | rank
  deriving DecidableEq, Repr

namespace Process

open Events

variable {b : Build} (parse : String → U64) (print : Double → List Char)

/-- `phmpi_set_evt` on the other ranks, which write no row of `etag.csv`. -/
def phmpiSetEvtOther (s : EvtState b) (etag : String) : Option (EvtState b) :=
  if s.ready then some s
  else if s.nev ≥ b.phNevMax then some s
  else
    let evcode := parse etag
    if Supported evcode then s.assign evcode else some s

/-- One registration. -/
def setEvt : Process → EvtState b → String → Option (EvtState b)
  | serial, s, etag => (phSetEvt parse s etag).map Prod.snd
  | root, s, etag => (phmpiSetEvt parse s etag).map Prod.snd
  | rank, s, etag => phmpiSetEvtOther parse s etag

/-- The state after the registrations of a run, the cycle event of `_ph_init_cy` first. -/
def registered (who : Process) (b : Build) (names : List String) : Option (EvtState b) :=
  Runs.run (who.setEvt parse) (Events.init b) (initCy b ++ names)

/-- The user calls between commit and finalize. -/
def Call : Process → Type
  | serial => Serial.Call
  | _ => Mpi.Call

/-- The record file a process writes. Only the serial probe needs a bound on the number
of open dumps. -/
def recordFile (c : Probe) (depth : ℕ) (precs : ℕ → Rec) :
    (who : Process) → List who.Call → Option (List Char)
  | serial => Serial.recordFile print c depth precs
  | root => Mpi.recordFile print c precs
  | rank => Mpi.recordFile print c precs

/-- **No stale data.** With `nev` events registered, `npapi` of them in PAPI's event set,
runs that make the same calls and see the same readings write the same file, whatever
their buffers held before. -/
def Clean (who : Process) (b : Build) (nev npapi : ℕ) : Prop :=
  ∀ c : Probe, c.build = b → c.nev = nev → c.npapi = npapi → 3 ≤ c.bufNrec.toNat →
    ∀ (depth : ℕ) (precs precs' : ℕ → Rec) (calls : List who.Call),
      recordFile print c depth precs who calls = recordFile print c depth precs' who calls

/-- In a PAPI build a `PAPI_read` stores a value for each registered event: all of them
were added to the event set, and it was started. -/
def PapiReadsAll (b : Build) (nev npapi : ℕ) : Prop := b.api = .papi → nev ≤ npapi

/-- The event counts at which a process samples all that it prints. -/
def Sampled (who : Process) (b : Build) (nev npapi : ℕ) : Prop :=
  match who with
  | serial => (b.evMode = .ts → nev = 0) ∧ (b = ⟨.evx, .x86, .phasm⟩ → nev ≤ 8) ∧
      (b.evMode ≠ .ts → PapiReadsAll b nev npapi)
  | _ => (b.api = .papi → 0 < nev) ∧ PapiReadsAll b nev npapi

def sampler (who : Process) (b : Build) (nev npapi : ℕ) : Sampler :=
  match who with
  | serial => Sampler.phRead b npapi
  | _ => Sampler.phmpiFastread b nev npapi

variable {parse print}

/-! ### Which counts can be registered -/

theorem nev_setEvtWith {tooMany : Bool} {s t : EvtState b} {name : String} {ret : ℕ}
    (h : setEvtWith parse tooMany s name = some (ret, t)) :
    t.nev = s.nev ∨ tooMany = false ∧ t.nev = s.nev + 1 := by
  cases hready : s.ready with
  | true =>
      simp only [setEvtWith, hready, if_true, Option.some.injEq, Prod.mk.injEq] at h
      exact Or.inl (by rw [h.2])
  | false =>
      cases tooMany with
      | true =>
          simp [setEvtWith, hready] at h
          exact Or.inl (by rw [h.2])
      | false =>
          by_cases hknown : Supported (parse name)
          · obtain ⟨hslot, hnone⟩ := setEvtWith_of_supported hready rfl hknown
            by_cases hlt : s.nev < b.phNEV
            · obtain ⟨u, hcall, -, hnev, -⟩ := hslot hlt
              rw [hcall] at h
              obtain rfl : u = t := by simpa using congrArg (Option.map Prod.snd) h
              exact Or.inr ⟨rfl, hnev⟩
            · rw [hnone hlt] at h
              cases h
          · by_cases hpos : 0 < s.nev
            · simp [setEvtWith, hready, hknown, EvtState.wtetag, hpos] at h
              exact Or.inl (by rw [← h.2])
            · simp [setEvtWith, hready, hknown, EvtState.wtetag, hpos] at h

/-- The MPI probe stops at `ph_nev_max`. -/
theorem nev_le_of_registered {who : Process} (hmpi : who ≠ serial) {names : List String}
    {s : EvtState b} (h : who.registered parse b names = some s) : s.nev ≤ b.phNevMax := by
  refine Runs.run_invariant (fun s : EvtState b => s.nev ≤ b.phNevMax) (fun _ => True) ?_
    _ _ s (Nat.zero_le _) (fun _ _ => trivial) h
  intro s name t hle _ hstep
  cases who with
  | serial => exact absurd rfl hmpi
  | root =>
      obtain ⟨⟨ret, u⟩, hcall, rfl⟩ := Option.map_eq_some_iff.mp hstep
      rcases nev_setEvtWith hcall with hsame | ⟨hroom, hnext⟩
      · show u.nev ≤ _
        omega
      · have hlt : s.nev < b.phNevMax := by simpa using hroom
        show u.nev ≤ _
        omega
  | rank =>
      simp only [setEvt, phmpiSetEvtOther, EvtState.assign] at hstep
      grind

/-- Up to the limit, `phmpi_fastread` has a case for the number of events. -/
theorem phmpiFastread_nread {nev : ℕ} (npapi : ℕ) (hmax : nev ≤ b.phNevMax) :
    (Sampler.phmpiFastread b nev npapi).nread =
      if b.api = .papi then (if 0 < nev then npapi else 0) else nev := by
  rcases b with ⟨evMode, arch, api⟩
  cases evMode <;> cases arch <;> cases api <;>
    simp [Sampler.phmpiFastread, Build.phNevMax] at hmax ⊢ <;> grind

/-- A rank of a PAPI build samples all columns and the cycle when it has an event and
PAPI reads all of them. -/
theorem covers_phmpiFastread {nev : ℕ} (npapi : ℕ) (hmax : nev ≤ b.phNevMax) :
    (Sampler.phmpiFastread b nev npapi).Covers nev ↔
      (b.api = .papi → 0 < nev) ∧ PapiReadsAll b nev npapi := by
  have hfrom : (Sampler.phmpiFastread b nev npapi).cyFromEv = true ↔ b.api = .papi := beq_iff_eq
  rw [Sampler.Covers, phmpiFastread_nread npapi hmax, hfrom, PapiReadsAll]
  by_cases hpapi : b.api = .papi
  · simp only [hpapi, if_true, true_implies]
    by_cases hpos : 0 < nev
    · rw [if_pos hpos]
      constructor
      · exact fun h => ⟨hpos, h.1⟩
      · exact fun h => ⟨h.2, lt_of_lt_of_le hpos h.2⟩
    · rw [if_neg hpos]
      exact iff_of_false (fun h => Nat.lt_irrefl 0 h.2) fun h => hpos h.1
  · simp [hpapi]

/-- In a record of the serial probe the columns of all registered events are sampled,
unless nothing is, `_ph_read_pm_evx` stops at eight, or PAPI reads fewer. -/
theorem covers_phRead {nev : ℕ} (npapi : ℕ) (hslots : nev ≤ b.phNEV) :
    (Sampler.phRead b npapi).Covers nev ↔
      (b.evMode = .ts → nev = 0) ∧ (b = ⟨.evx, .x86, .phasm⟩ → nev ≤ 8) ∧
        (b.evMode ≠ .ts → PapiReadsAll b nev npapi) := by
  rcases b with ⟨evMode, arch, api⟩
  cases evMode <;> cases arch <;> cases api <;>
    simp_all [Sampler.phRead, Sampler.Covers, Build.phNEV, PapiReadsAll]

/-- Registration leaves a count at which the sampling covers the columns exactly when
the process samples all that it prints. -/
theorem covers_iff_sampled {who : Process} {names : List String} {s : EvtState b}
    (h : who.registered parse b names = some s) (npapi : ℕ) :
    (who.sampler b s.nev npapi).Covers s.nev ↔ who.Sampled b s.nev npapi := by
  cases who with
  | serial => exact covers_phRead npapi s.nev_le
  | root => exact covers_phmpiFastread npapi (nev_le_of_registered (by decide) h)
  | rank => exact covers_phmpiFastread npapi (nev_le_of_registered (by decide) h)

/-! ### Clean processes -/

theorem clean_of_covers {who : Process} {nev npapi : ℕ}
    (hp : (who.sampler b nev npapi).Covers nev) : who.Clean print b nev npapi := by
  rintro c rfl rfl rfl hcap depth precs precs' calls
  cases who with
  | serial => exact Serial.recordFile_congr hp depth precs precs' calls
  | root => exact Mpi.recordFile_congr hp hcap precs precs' calls
  | rank => exact Mpi.recordFile_congr hp hcap precs precs' calls

/-- A probe with the least number of records whose counters stand still. -/
def still (b : Build) (nev npapi : ℕ) : Probe where
  build := b
  bufNbyte := BitVec.ofNat 32 (3 * b.sizeofRec)
  nev := nev
  npapi := npapi
  sample := fun _ => ⟨0, 0, fun _ => 0⟩
  fopen := fun _ => true

theorem bufNrec_still (b : Build) (nev npapi : ℕ) : (still b nev npapi).bufNrec.toNat = 3 := by
  rcases b with ⟨evMode, arch, api⟩
  cases evMode <;> simp [still, Probe.bufNrec, Build.sizeofRec, Build.phNEV]

/-- Two runs that only commit and finalize are enough to see a column that is not
sampled. -/
theorem covers_of_same_file {who : Process} {nev npapi : ℕ}
    (h : recordFile print (still b nev npapi) 2 (fun _ => Rec.filled 0) who [] =
      recordFile print (still b nev npapi) 2 (fun _ => Rec.filled 1) who []) :
    (who.sampler b nev npapi).Covers nev := by
  have hcap : 3 ≤ (still b nev npapi).bufNrec.toNat := (bufNrec_still b nev npapi).ge
  have hopen : ∀ i, (still b nev npapi).fopen i = true := fun _ => rfl
  have hmpi (h : Mpi.recordFile print (still b nev npapi) (fun _ => Rec.filled 0) [] =
      Mpi.recordFile print (still b nev npapi) (fun _ => Rec.filled 1) []) :
      (Mpi.sampler (still b nev npapi)).Covers nev := by
    obtain ⟨rest, hfile⟩ := Mpi.recordFile_first print hcap hopen fun _ => Rec.filled 0
    obtain ⟨rest', hfile'⟩ := Mpi.recordFile_first print hcap hopen fun _ => Rec.filled 1
    exact covers_of_recText_eq (Option.some.inj (hfile.symm.trans (h.trans hfile')))
  cases who with
  | serial =>
      obtain ⟨rest, hfile⟩ := Serial.recordFile_first print hcap hopen 0
        (fun _ => Rec.filled 0) []
      obtain ⟨rest', hfile'⟩ := Serial.recordFile_first print hcap hopen 0
        (fun _ => Rec.filled 1) []
      exact covers_of_recText_eq (Option.some.inj (hfile.symm.trans (h.trans hfile')))
  | root => exact hmpi h
  | rank => exact hmpi h

theorem exists_nev_of_map {s? : Option (EvtState b)} {n : ℕ}
    (h : s?.map EvtState.nev = some n) : ∃ s, s? = some s ∧ s.nev = n :=
  Option.map_eq_some_iff.mp h

/-- **Where the record file depends on the fresh buffer.** After any sequence of
registrations that stays inside `ph_evcodes`, and for any number of values a `PAPI_read`
stores, the file of every run is free of what the buffer held, if and only if the process
samples all that it prints: the serial probe has no event in TS mode and at most eight in
an x86 PHASM build in EVX mode, a rank of a PAPI build has an event whose counter it can
take the cycle from, and PAPI reads all events wherever it is asked to. -/
theorem clean_iff (b : Build) (parse : String → U64) (print : Double → List Char)
    (who : Process) (names : List String) (npapi : ℕ) (s : EvtState b)
    (hregistered : who.registered parse b names = some s) :
    who.Clean print b s.nev npapi ↔ who.Sampled b s.nev npapi := by
  rw [← covers_iff_sampled hregistered]
  constructor
  · intro hclean
    exact covers_of_same_file
      (hclean (still b s.nev npapi) rfl rfl rfl (bufNrec_still b s.nev npapi).ge 2 _ _ [])
  · exact clean_of_covers

/-- An x86 PHASM build in EV mode samples its event. A rank of a PAPI build does not, when
the event set could not be started. -/
theorem clean_iff_one_event :
    (∃ s : EvtState ⟨.ev, .x86, .phasm⟩,
      serial.registered EvtX86.phParseEvent ⟨.ev, .x86, .phasm⟩ ["INST_RETIRED.ANY_P"] = some s ∧
      s.nev = 1 ∧ serial.Clean (fun _ => ['0']) ⟨.ev, .x86, .phasm⟩ s.nev 0) ∧
    ∃ s : EvtState ⟨.ev, .x86, .papi⟩,
      rank.registered (fun _ => 0x40000003) ⟨.ev, .x86, .papi⟩ [] = some s ∧
      s.nev = 1 ∧ rank.Clean (fun _ => ['0']) ⟨.ev, .x86, .papi⟩ s.nev 1 ∧
      ¬ rank.Clean (fun _ => ['0']) ⟨.ev, .x86, .papi⟩ s.nev 0 := by
  refine ⟨?_, ?_⟩
  · have hone : ∃ s : EvtState ⟨.ev, .x86, .phasm⟩, serial.registered EvtX86.phParseEvent
        ⟨.ev, .x86, .phasm⟩ ["INST_RETIRED.ANY_P"] = some s ∧ s.nev = 1 :=
      exists_nev_of_map (by decide +kernel)
    obtain ⟨s, hs, hnev⟩ := hone
    refine ⟨s, hs, hnev, ?_⟩
    rw [clean_iff _ _ _ serial _ 0 s hs]
    exact ⟨nofun, nofun, fun _ => nofun⟩
  · have hone : ∃ s : EvtState ⟨.ev, .x86, .papi⟩, rank.registered (fun _ => 0x40000003)
        ⟨.ev, .x86, .papi⟩ [] = some s ∧ s.nev = 1 :=
      exists_nev_of_map (by decide +kernel)
    obtain ⟨s, hs, hnev⟩ := hone
    refine ⟨s, hs, hnev, ?_, ?_⟩
    · rw [clean_iff _ _ _ rank _ 1 s hs, hnev]
      exact ⟨fun _ => Nat.one_pos, fun _ => le_rfl⟩
    · rw [clean_iff _ _ _ rank _ 0 s hs, hnev]
      exact fun h => absurd (h.2 rfl) (Nat.not_succ_le_zero 0)

/-- In TS mode an event is registered like in the others and gets its column, but no
sampling writes it: the file shows what the buffer held. -/
theorem event_in_ts_mode_shows_buffer :
    let file := fun w : U64 => recordFile (fun _ => ['0']) (still ⟨.ts, .x86, .phasm⟩ 1 0) 2
      (fun _ => Rec.filled w) serial []
    ∃ s : EvtState ⟨.ts, .x86, .phasm⟩,
      serial.registered EvtX86.phParseEvent ⟨.ts, .x86, .phasm⟩ ["INST_RETIRED.ANY_P"] = some s ∧
      s.nev = 1 ∧ file 0 ≠ file 1 ∧
      ¬ serial.Clean (fun _ => ['0']) ⟨.ts, .x86, .phasm⟩ s.nev 0 := by
  intro file
  have hdiffer : file 0 ≠ file 1 := fun h => absurd (covers_of_same_file h).1 (by decide)
  have hone : ∃ s : EvtState ⟨.ts, .x86, .phasm⟩, serial.registered EvtX86.phParseEvent
      ⟨.ts, .x86, .phasm⟩ ["INST_RETIRED.ANY_P"] = some s ∧ s.nev = 1 :=
    exists_nev_of_map (by decide +kernel)
  obtain ⟨s, hs, hnev⟩ := hone
  refine ⟨s, hs, hnev, hdiffer, ?_⟩
  intro hclean
  rw [hnev] at hclean
  exact hdiffer
    (hclean (still ⟨.ts, .x86, .phasm⟩ 1 0) rfl rfl rfl (bufNrec_still _ _ _).ge 2 _ _ [])

end Process

end PerfHound
