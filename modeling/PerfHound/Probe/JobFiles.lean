/-
# The files of a job

A job is a serial process or the ranks of an MPI program. Its runs begin when rank 0 has
created the shared files in `ph_io_mkfile`. Every rank then finishes its initialisation,
which appends its row to `rankmap.csv`, and goes on to register events and tags, to commit,
to read and dump, and to finalize. The ranks make their calls in any order: only
`rankmap.csv` is written by more than one of them, and each row by a single write.

The API asks for an order of the calls of one rank: no call before the initialisation, no
reading before the commit, and none at all after finalize. Calls out of order have no
result.

Every header but that of a record file is written before the first row. A record file gets
its header at the commit, with one column for each event, and no event is registered after
that.
-/

import PerfHound.Probe.Accounting
import PerfHound.Probe.CsvFiles
import PerfHound.Probe.EvtX86
import PerfHound.Probe.Stale

namespace PerfHound

open Lib CsvFiles

namespace Process

variable (depth : ℕ) (c : Probe)

/-- The tags a process sets for itself. -/
def ownTags : Process → List CtagRow
  | serial => [⟨0, 0, "PHGroup"⟩, ⟨0, 1, "PH_S_main"⟩, ⟨0, 2, "PH_E_main"⟩,
      ⟨0, 3, "PH_S_ph_dump"⟩, ⟨0, 4, "PH_E_ph_dump"⟩]
  | root => [⟨0, 0, "PHGroup"⟩, ⟨0, 1, "PH Start"⟩, ⟨0, 2, "PH End"⟩, ⟨0, 3, "PH Wt Start"⟩,
      ⟨0, 4, "PH Wt End"⟩]
  | rank => []

/-- A commit, from `ph_irec = 0` on, with the record file just created. -/
def commit : Process → PhState → Option PhState
  | serial, s => Serial.phCommit c depth s
  | _, s => some (Mpi.phmpiFastread c { s with rows := [], irec := 0 } 0 1 Double.zero)

/-- `ph_read` and `phmpi_read`. -/
def read : Process → PhState → U32 → U32 → Double → Option PhState
  | serial, s, gid, pid, uval => Serial.step c depth s (.read gid pid uval)
  | _, s, gid, pid, uval => Mpi.step c s (.read gid pid uval)

/-- `phmpi_fastread`. The serial probe has no such call. -/
def fastread : Process → PhState → U32 → U32 → Double → Option PhState
  | serial, _, _, _, _ => none
  | _, s, gid, pid, uval => Mpi.step c s (.fastread gid pid uval)

/-- `ph_dump` and `phmpi_dump`. -/
def dump : Process → PhState → Option PhState
  | serial, s => Serial.step c depth s .dump
  | _, s => Mpi.step c s .dump

/-- The last read and the last flush. -/
def finalize : Process → PhState → Option PhState
  | serial, s => Serial.phFinalize c depth s
  | _, s => some (Mpi.phmpiFinalize c s)

end Process

namespace JobFiles

/-! ## Jobs and their calls -/

structure Job where
  build : Build
  /-- Whether the job calls `phmpi_init`, or `ph_init`. -/
  mpi : Bool
  nrank : ℕ
  bufNbyte : U32
  /-- How many values a `PAPI_read` of each rank stores. -/
  npapi : ℕ → ℕ
  runid : ℕ
  /-- `ph_pinfo.host` of each rank. -/
  host : ℕ → String
  /-- `ph_pinfo.cpu` of each rank. -/
  cpu : ℕ → ℤ
  /-- What the hardware delivers to the successive samplings of a rank. -/
  sample : ℕ → ℕ → Sample
  /-- Whether the successive opens of the record file of a rank succeed. -/
  fopen : ℕ → ℕ → Bool
  /-- The contents of the allocated buffers. -/
  precs : ℕ → ℕ → Rec
  started : Tm
  ended : Tm
  /-- The rows earlier jobs have left in `run_info.csv`, if it is there. -/
  before : Option (List Info)
  nrank_serial : mpi = false → nrank = 1

/-- What a rank runs. -/
def Job.process (job : Job) (r : ℕ) : Process :=
  if job.mpi then if r = 0 then .root else .rank else .serial

/-- The probe of a rank that has registered `nev` events. -/
def Job.probe (job : Job) (r nev : ℕ) : Probe :=
  ⟨job.build, job.bufNbyte, nev, job.npapi r, job.sample r, job.fopen r⟩

/-- A call of one rank. -/
inductive Call
  | /-- The part of the initialisation that follows `ph_io_mkfile`. -/
    init
  | setEvt (name : String)
  | setTag (gid pid : U32) (tagstr : String)
  | commit
  | read (gid pid : U32) (uval : Double)
  | fastread (gid pid : U32) (uval : Double)
  | dump
  | /-- With the answer to the `fopen` of `ph_io_wtinfo`. -/
    finalize (opens : Bool)
  deriving DecidableEq, Repr

/-- A name or tag that is printed as one field. -/
def Call.Plain : Call → Prop
  | .setEvt name => Csv.Plain name.toList
  | .setTag _ _ tagstr => Csv.Plain tagstr.toList
  | _ => True

instance : (call : Call) → Decidable call.Plain
  | .init => .isTrue trivial
  | .setEvt name => inferInstanceAs (Decidable (Csv.Plain name.toList))
  | .setTag _ _ tagstr => inferInstanceAs (Decidable (Csv.Plain tagstr.toList))
  | .commit => .isTrue trivial
  | .read _ _ _ => .isTrue trivial
  | .fastread _ _ _ => .isTrue trivial
  | .dump => .isTrue trivial
  | .finalize _ => .isTrue trivial

inductive Phase
  | fresh
  | running
  | finished
  deriving DecidableEq, Repr

/-- A rank and its record file. -/
structure Rank (b : Build) where
  phase : Phase
  evt : Events.EvtState b
  ph : PhState
  /-- What `ph_io_mkrec` has written, once it has created the record file. -/
  head : Option (List Char)

/-- The order of the calls. -/
def Rank.Accepts {b : Build} (p : Rank b) : Call → Prop
  | .init => p.phase = .fresh
  | .setEvt _ => p.phase = .running
  | .setTag _ _ _ => p.phase = .running
  | .commit => p.phase = .running
  | _ => p.phase = .running ∧ p.evt.ready = true

instance {b : Build} (p : Rank b) : (call : Call) → Decidable (p.Accepts call)
  | .init => inferInstanceAs (Decidable (_ = _))
  | .setEvt _ => inferInstanceAs (Decidable (_ = _))
  | .setTag _ _ _ => inferInstanceAs (Decidable (_ = _))
  | .commit => inferInstanceAs (Decidable (_ = _))
  | .read _ _ _ => inferInstanceAs (Decidable (_ ∧ _))
  | .fastread _ _ _ => inferInstanceAs (Decidable (_ ∧ _))
  | .dump => inferInstanceAs (Decidable (_ ∧ _))
  | .finalize _ => inferInstanceAs (Decidable (_ ∧ _))

variable (job : Job) (parse : String → U64) (depth : ℕ)

/-- What a call does to the rank that makes it. -/
def Job.act (r : ℕ) (p : Rank job.build) : Call → Option (Rank job.build)
  | .init => ((job.process r).registered parse job.build []).map fun evt =>
      { p with phase := .running, evt }
  | .setEvt name => ((job.process r).setEvt parse p.evt name).map fun evt => { p with evt }
  | .setTag _ _ _ => some p
  | .commit => ((job.process r).commit depth (job.probe r p.evt.nev) p.ph).map fun ph =>
      { p with evt := Events.phCommit p.evt, ph, head := some (RecText.headerText p.evt.nev) }
  | .read gid pid uval =>
      ((job.process r).read depth (job.probe r p.evt.nev) p.ph gid pid uval).map
        fun ph => { p with ph }
  | .fastread gid pid uval =>
      ((job.process r).fastread (job.probe r p.evt.nev) p.ph gid pid uval).map
        fun ph => { p with ph }
  | .dump => ((job.process r).dump depth (job.probe r p.evt.nev) p.ph).map fun ph => { p with ph }
  | .finalize _ => ((job.process r).finalize depth (job.probe r p.evt.nev) p.ph).map fun ph =>
      { p with phase := .finished, ph }

/-- The rows a call appends to `ctag.csv`. -/
def Job.ctagRows (r : ℕ) : Call → List CtagRow
  | .init => (job.process r).ownTags
  | .setTag gid pid tagstr => if job.process r = .rank then [] else [⟨gid, pid, tagstr⟩]
  | _ => []

/-- The rows a call appends to `rankmap.csv`. -/
def Job.rankmapRows (r : ℕ) : Call → List (HostSetup.RankRow String)
  | .init => [HostSetup.rankRow job.host job.cpu r]
  | _ => []

/-- The rows a call appends to `run_info.csv`, when it leaves the rank as `p`. -/
def Job.infoRows (r : ℕ) (p : Rank job.build) : Call → List Info
  | .finalize true =>
      if job.process r = .rank then []
      else [⟨job.runid, job.nrank, p.evt.nev, p.ph.wtinfo, job.started, job.ended⟩]
  | _ => []

/-- The ranks, and the rows the job has written to the shared files. Those of `etag.csv` are
with rank 0. -/
structure State where
  rank : ℕ → Rank job.build
  ctag : List CtagRow
  rankmap : List (HostSetup.RankRow String)
  infos : List Info

/-- The files have their headers. -/
def initial : State job where
  rank := fun r => ⟨.fresh, Events.init job.build, Serial.init (job.precs r), none⟩
  ctag := []
  rankmap := []
  infos := []

/-- A call of one rank. -/
structure Event where
  rank : ℕ
  call : Call
  deriving DecidableEq, Repr

def step (s : State job) (e : Event) : Option (State job) :=
  if e.rank < job.nrank ∧ (s.rank e.rank).Accepts e.call then
    (job.act parse depth e.rank (s.rank e.rank) e.call).map fun p =>
      { rank := Function.update s.rank e.rank p
        ctag := s.ctag ++ job.ctagRows e.rank e.call
        rankmap := s.rankmap ++ job.rankmapRows e.rank e.call
        infos := s.infos ++ job.infoRows e.rank p e.call }
  else none

/-! ## The files -/

/-- `run_info.csv` as `ph_io_mkfile` finds it. -/
def Job.infoBefore : List Char :=
  match job.before with
  | none => []
  | some rows => infoHeader ++ rows.flatMap CsvFiles.wtinfo

/-- The record file of a rank. -/
def Rank.recText {b : Build} (p : Rank b) : Option (List Char) :=
  p.head.map (· ++ p.ph.rows.flatMap (RecText.rowText b fixedText))

namespace State

variable {job}

def infoText (s : State job) : List Char := mkInfo job.infoBefore ++ s.infos.flatMap CsvFiles.wtinfo

def ctagText (s : State job) : List Char := ctagHeader ++ s.ctag.flatMap wtctag

def etagText (s : State job) : List Char := etagHeader ++ (s.rank 0).evt.etag.flatMap wtetag

def rankmapText (s : State job) : List Char := rankmapHeader ++ s.rankmap.flatMap wtrankmap

/-- The files of the run directory are tables of what was written to them. -/
structure Tables (s : State job) : Prop where
  ctag : Csv.Rectangular s.ctagText (s.ctag.map ctagRecord)
  etag : Csv.Rectangular s.etagText ((s.rank 0).evt.etag.map etagRecord)
  rankmap : Csv.Rectangular s.rankmapText (s.rankmap.map rankmapRecord)
  records : ∀ r < job.nrank, ∀ text, (s.rank r).recText = some text →
    Csv.Rectangular text ((s.rank r).ph.rows.map (recRecord job.build))

/-- Every file of the run is a table. -/
structure Rectangular (s : State job) : Prop where
  runInfo : Csv.Rectangular s.infoText ((job.before.getD [] ++ s.infos).map infoRecord)
  tables : s.Tables

end State

/-- A call that writes a row of `run_info.csv`. -/
def Event.Reports (e : Event) : Prop := e.rank = 0 ∧ e.call = .finalize true

variable {job parse depth}

/-! ## Rows of one width -/

/-- The rows of the record file have as many events as the probe. -/
def Wide (c : Probe) (s : PhState) : Prop := ∀ row ∈ s.rows, row.ev.length = c.nev

section Wide

variable {c : Probe} {s t : PhState}

theorem Wide.wtrec (h : Wide c s) (nrec : U32) : Wide c (s.wtrec c nrec).2 := by
  simp only [PhState.wtrec]
  split
  · intro row hrow
    rcases List.mem_append.mp hrow with hfile | hnew
    · exact h row hfile
    · obtain ⟨i, -, rfl⟩ := List.mem_map.mp hnew
      simp [Row.ofRec]
  · exact h

theorem Wide.store (h : Wide c s) (p : Sampler) (gid pid : U32) (uval : Double) :
    Wide c (s.store c p gid pid uval) := h

theorem Wide.rewind (h : Wide c s) : Wide c s.rewind := h

theorem Wide.phReadWith {dump : PhState → Option PhState}
    (hdump : ∀ s t, Wide c s → dump s = some t → Wide c t) (h : Wide c s) {gid pid : U32}
    {uval : Double} (hread : Serial.phReadWith c dump s gid pid uval = some t) : Wide c t := by
  have hstore := h.store (Serial.sampler c) gid pid uval
  simp only [Serial.phReadWith] at hread
  split at hread
  · exact hdump _ _ hstore hread
  · rwa [← Option.some.inj hread]

theorem wide_phDump : ∀ (depth : ℕ) (s t : PhState), Wide c s →
    Serial.phDump c depth s = some t → Wide c t := by
  intro depth
  induction depth with
  | zero => intro s t _ hdump; cases hdump
  | succ depth ih =>
      intro s t h hdump
      simp only [Serial.phDump, Option.bind_eq_bind, Option.bind_eq_some_iff] at hdump
      obtain ⟨u, hopen, hclose⟩ := hdump
      have hu : Wide c u := h.phReadWith ih hopen
      have hflushed := (hu.wtrec u.irec).rewind
      exact hflushed.phReadWith ih hclose

theorem Wide.phRead (h : Wide c s) {gid pid : U32} {uval : Double}
    (hread : Serial.phRead c depth s gid pid uval = some t) : Wide c t :=
  h.phReadWith (wide_phDump depth) hread

theorem Wide.stepBack (h : Wide c s) : Wide c (Mpi.stepBack c s) := by
  simp only [Mpi.stepBack]
  split
  · exact h
  · exact h

theorem Wide.phmpiDump (h : Wide c s) : Wide c (Mpi.phmpiDump c s) := by
  simp only [Mpi.phmpiDump]
  split
  · exact h
  · have hmark := h.stepBack.store (Mpi.sampler c) 0 3 Double.zero
    exact (hmark.wtrec _).rewind.store (Mpi.sampler c) 0 4 Double.zero

theorem Wide.phmpiRead (h : Wide c s) (gid pid : U32) (uval : Double) :
    Wide c (Mpi.phmpiRead c s gid pid uval) := by
  have hfast := h.store (Mpi.sampler c) gid pid uval
  simp only [Mpi.phmpiRead]
  split
  · exact h.phmpiDump
  · split
    · have hlogged : Wide c { Mpi.phmpiFastread c s gid pid uval with
          log := (Mpi.phmpiFastread c s gid pid uval).log ++ [.dumpAfterRead] } := hfast
      exact hlogged.phmpiDump
    · exact hfast

variable {who : Process}

theorem wide_commit (hcommit : who.commit depth c s = some t) : Wide c t := by
  have hempty : Wide c { s with rows := [], irec := 0 } := fun row hrow => by cases hrow
  cases who with
  | serial => exact hempty.phRead hcommit
  | root =>
      obtain rfl := Option.some.inj hcommit
      exact hempty
  | rank =>
      obtain rfl := Option.some.inj hcommit
      exact hempty

theorem Wide.read (h : Wide c s) {gid pid : U32} {uval : Double}
    (hread : who.read depth c s gid pid uval = some t) : Wide c t := by
  cases who with
  | serial => exact h.phRead hread
  | root =>
      obtain rfl := Option.some.inj hread
      exact h.phmpiRead gid pid uval
  | rank =>
      obtain rfl := Option.some.inj hread
      exact h.phmpiRead gid pid uval

theorem Wide.fastread (h : Wide c s) {gid pid : U32} {uval : Double}
    (hread : who.fastread c s gid pid uval = some t) : Wide c t := by
  have hmpi : ∀ {u}, Mpi.step c s (.fastread gid pid uval) = some u → Wide c u := by
    intro u hu
    simp only [Mpi.step, Option.ite_none_right_eq_some, Option.some.injEq] at hu
    rw [← hu.2]
    exact h
  cases who with
  | serial => cases hread
  | root => exact hmpi hread
  | rank => exact hmpi hread

theorem Wide.dump (h : Wide c s) (hdump : who.dump depth c s = some t) : Wide c t := by
  cases who with
  | serial => exact wide_phDump depth s t h hdump
  | root =>
      obtain rfl := Option.some.inj hdump
      exact h.phmpiDump
  | rank =>
      obtain rfl := Option.some.inj hdump
      exact h.phmpiDump

theorem Wide.finalize (h : Wide c s) (hfinal : who.finalize depth c s = some t) : Wide c t := by
  cases who with
  | serial =>
      simp only [Process.finalize, Serial.phFinalize, Option.bind_eq_bind,
        Option.bind_eq_some_iff] at hfinal
      obtain ⟨u, hread, hflush⟩ := hfinal
      obtain rfl := Option.some.inj hflush
      have hu : Wide c u := h.phRead hread
      exact hu.wtrec u.irec
  | root =>
      obtain rfl := Option.some.inj hfinal
      exact (h.phmpiRead 0 2 Double.zero).wtrec _
  | rank =>
      obtain rfl := Option.some.inj hfinal
      exact (h.phmpiRead 0 2 Double.zero).wtrec _

end Wide

/-! ## Names of events -/

section Names

open Events

variable {b : Build} {s t : EvtState b} {name : String} {who : Process}

def PlainNames (s : EvtState b) : Prop := ∀ row ∈ s.etag, Csv.Plain row.name.toList

theorem PlainNames.wtetag (h : PlainNames s) (hname : Csv.Plain name.toList)
    (hrow : s.wtetag name = some t) : PlainNames t := by
  simp only [EvtState.wtetag, Option.dite_none_right_eq_some, Option.some.injEq] at hrow
  obtain ⟨-, rfl⟩ := hrow
  intro row hmem
  rcases List.mem_append.mp hmem with hold | hnew
  · exact h row hold
  · obtain rfl := List.mem_singleton.mp hnew
    exact hname

theorem PlainNames.assign (h : PlainNames s) {code : U64} (hassign : s.assign code = some t) :
    PlainNames t := by
  simp only [EvtState.assign, Option.dite_none_right_eq_some, Option.some.injEq] at hassign
  obtain ⟨-, rfl⟩ := hassign
  exact h

/-- The end of a registration. -/
theorem PlainNames.finish (hname : Csv.Plain name.toList) {x : Option (EvtState b)}
    (hx : ∀ v, x = some v → PlainNames v) {pair : ℕ × EvtState b}
    (hpair : (do let v ← x; let w ← v.wtetag name; return (0, w)) = some pair) :
    PlainNames pair.2 := by
  obtain ⟨v, hv, hpair⟩ := Option.bind_eq_some_iff.mp hpair
  obtain ⟨w, hrow, hpair⟩ := Option.bind_eq_some_iff.mp hpair
  obtain rfl := Option.some.inj hpair
  exact (hx v hv).wtetag hname hrow

theorem PlainNames.setEvt (h : PlainNames s) (hname : Csv.Plain name.toList)
    (hset : who.setEvt parse s name = some t) : PlainNames t := by
  have hwith : ∀ {tooMany : Bool} {u : EvtState b},
      (setEvtWith parse tooMany s name).map Prod.snd = some u → PlainNames u := by
    intro tooMany u hu
    simp only [setEvtWith] at hu
    split at hu
    · rwa [← Option.some.inj hu]
    · split at hu
      · rwa [← Option.some.inj hu]
      · rw [Option.map_eq_some_iff] at hu
        obtain ⟨pair, hpair, rfl⟩ := hu
        split at hpair
        · exact PlainNames.finish hname (fun v hassign => h.assign hassign) hpair
        · refine PlainNames.finish hname (fun v hsame => ?_) hpair
          rwa [← Option.some.inj hsame]
  cases who with
  | serial => exact hwith hset
  | root => exact hwith hset
  | rank =>
      simp only [Process.setEvt, Process.phmpiSetEvtOther] at hset
      split at hset
      · rwa [← Option.some.inj hset]
      · split at hset
        · rwa [← Option.some.inj hset]
        · split at hset
          · exact h.assign hset
          · rwa [← Option.some.inj hset]

/-- No event is registered after the commit. -/
theorem setEvt_of_ready (hready : s.ready = true) : who.setEvt parse s name = some s := by
  cases who with
  | serial => simp [Process.setEvt, phSetEvt, setEvtWith, hready]
  | root => simp [Process.setEvt, phmpiSetEvt, setEvtWith, hready]
  | rank => simp [Process.setEvt, Process.phmpiSetEvtOther, hready]

theorem plain_initCy (b : Build) : ∀ name ∈ initCy b, Csv.Plain name.toList := by
  rcases b with ⟨evMode, arch, api⟩
  cases api with
  | phasm =>
      intro name hname
      cases hname
  | papi => cases arch <;> simp only [initCy] <;> decide

theorem plainNames_registered (h : who.registered parse b [] = some t) : PlainNames t := by
  rw [Process.registered, List.append_nil] at h
  refine Runs.run_invariant PlainNames (fun name => Csv.Plain name.toList) ?_ _ _ t ?_
    (plain_initCy b) h
  · intro s name t hs hname hset
    exact hs.setEvt hname hset
  · intro row hrow
    cases hrow

end Names

/-! ## What holds in every state -/

/-- The record file has a column for each event of its rows. -/
structure RankSound {b : Build} (p : Rank b) : Prop where
  names : PlainNames p.evt
  header : ∀ text, p.head = some text → p.evt.ready = true ∧
    text = RecText.headerText p.evt.nev ∧ ∀ row ∈ p.ph.rows, row.ev.length = p.evt.nev
  fresh : p.phase = .fresh → p.head = none

structure Sound (s : State job) : Prop where
  rank : ∀ r, RankSound (s.rank r)
  ctag : ∀ row ∈ s.ctag, Csv.Plain row.tagstr.toList
  rankmap : ∀ row ∈ s.rankmap, Csv.Plain row.hostname.toList

/-- A call that changes only the record buffer and file. -/
theorem RankSound.record {r : ℕ} {p : Rank job.build} (h : RankSound p) {ph : PhState}
    {phase : Phase} (hphase : phase ≠ .fresh)
    (hwide : Wide (job.probe r p.evt.nev) p.ph → Wide (job.probe r p.evt.nev) ph) :
    RankSound { p with phase, ph } where
  names := h.names
  header := by
    intro text hhead
    obtain ⟨hready, htext, hrows⟩ := h.header text hhead
    exact ⟨hready, htext, hwide hrows⟩
  fresh := fun hfresh => absurd hfresh hphase

/-- The step lemma of one rank. -/
theorem RankSound.act {r : ℕ} {p q : Rank job.build} (h : RankSound p) {call : Call}
    (haccepts : p.Accepts call) (hplain : call.Plain)
    (hact : job.act parse depth r p call = some q) : RankSound q := by
  cases call with
  | init =>
      obtain ⟨evt, hregistered, rfl⟩ := Option.map_eq_some_iff.mp hact
      have hnone := h.fresh haccepts
      refine ⟨plainNames_registered hregistered, ?_, fun _ => hnone⟩
      intro text hhead
      cases hnone.symm.trans hhead
  | setEvt name =>
      obtain ⟨evt, hset, rfl⟩ := Option.map_eq_some_iff.mp hact
      refine ⟨h.names.setEvt hplain hset, ?_, h.fresh⟩
      intro text hhead
      obtain ⟨hready, hrest⟩ := h.header text hhead
      obtain rfl := Option.some.inj ((setEvt_of_ready hready).symm.trans hset)
      exact ⟨hready, hrest⟩
  | setTag gid pid tagstr =>
      obtain rfl := Option.some.inj hact
      exact h
  | commit =>
      obtain ⟨ph, hcommit, rfl⟩ := Option.map_eq_some_iff.mp hact
      refine ⟨h.names, ?_, ?_⟩
      · intro text hhead
        obtain rfl := Option.some.inj hhead
        exact ⟨rfl, rfl, wide_commit hcommit⟩
      · intro hfresh
        cases (show p.phase = .running from haccepts).symm.trans hfresh
  | read gid pid uval =>
      obtain ⟨ph, hread, rfl⟩ := Option.map_eq_some_iff.mp hact
      exact h.record (by rw [haccepts.1]; decide) fun hwide => hwide.read hread
  | fastread gid pid uval =>
      obtain ⟨ph, hread, rfl⟩ := Option.map_eq_some_iff.mp hact
      exact h.record (by rw [haccepts.1]; decide) fun hwide => hwide.fastread hread
  | dump =>
      obtain ⟨ph, hdump, rfl⟩ := Option.map_eq_some_iff.mp hact
      exact h.record (by rw [haccepts.1]; decide) fun hwide => hwide.dump hdump
  | finalize opens =>
      obtain ⟨ph, hfinal, rfl⟩ := Option.map_eq_some_iff.mp hact
      exact h.record (by decide) fun hwide => hwide.finalize hfinal

theorem plain_ctagRows {r : ℕ} {call : Call} (hplain : call.Plain) :
    ∀ row ∈ job.ctagRows r call, Csv.Plain row.tagstr.toList := by
  cases call with
  | init =>
      simp only [Job.ctagRows]
      cases job.process r <;> decide
  | setTag gid pid tagstr =>
      intro row hrow
      simp only [Job.ctagRows] at hrow
      split at hrow
      · cases hrow
      · obtain rfl := List.mem_singleton.mp hrow
        exact hplain
  | _ =>
      intro row hrow
      cases hrow

theorem plain_rankmapRows (hhost : ∀ r, Csv.Plain (job.host r).toList) {r : ℕ} {call : Call} :
    ∀ row ∈ job.rankmapRows r call, Csv.Plain row.hostname.toList := by
  intro row hrow
  cases call with
  | init =>
      obtain rfl := List.mem_singleton.mp hrow
      exact hhost r
  | _ => cases hrow

/-- What a step does: one rank acts, and rows are appended. -/
theorem step_cases {s t : State job} {e : Event} (hstep : step job parse depth s e = some t) :
    ∃ p, e.rank < job.nrank ∧ (s.rank e.rank).Accepts e.call ∧
      job.act parse depth e.rank (s.rank e.rank) e.call = some p ∧
      t.rank = Function.update s.rank e.rank p ∧
      t.ctag = s.ctag ++ job.ctagRows e.rank e.call ∧
      t.rankmap = s.rankmap ++ job.rankmapRows e.rank e.call ∧
      t.infos = s.infos ++ job.infoRows e.rank p e.call := by
  simp only [step, Option.ite_none_right_eq_some, Option.map_eq_some_iff] at hstep
  obtain ⟨⟨hrank, haccepts⟩, p, hact, rfl⟩ := hstep
  exact ⟨p, hrank, haccepts, hact, rfl, rfl, rfl, rfl⟩

theorem sound_initial (job : Job) : Sound (initial job) where
  rank := fun r =>
    { names := fun row hrow => by cases hrow
      header := fun text hhead => by cases hhead
      fresh := fun _ => rfl }
  ctag := fun row hrow => by cases hrow
  rankmap := fun row hrow => by cases hrow

theorem Sound.step (hhost : ∀ r, Csv.Plain (job.host r).toList) {s t : State job} (h : Sound s)
    {e : Event} (hplain : e.call.Plain) (hstep : step job parse depth s e = some t) : Sound t := by
  obtain ⟨p, -, haccepts, hact, hrank, hctag, hrankmap, -⟩ := step_cases hstep
  have hp := (h.rank e.rank).act haccepts hplain hact
  refine ⟨?_, ?_, ?_⟩
  · intro r
    rw [hrank]
    by_cases hr : r = e.rank
    · rw [hr, Function.update_self]
      exact hp
    · rw [Function.update_of_ne hr]
      exact h.rank r
  · intro row hrow
    rw [hctag] at hrow
    rcases List.mem_append.mp hrow with hold | hnew
    · exact h.ctag row hold
    · exact plain_ctagRows hplain row hnew
  · intro row hrow
    rw [hrankmap] at hrow
    rcases List.mem_append.mp hrow with hold | hnew
    · exact h.rankmap row hold
    · exact plain_rankmapRows hhost row hnew

theorem sound_run (hhost : ∀ r, Csv.Plain (job.host r).toList) {events : List Event}
    {s : State job} (hplain : ∀ e ∈ events, e.call.Plain)
    (hrun : Runs.run (step job parse depth) (initial job) events = some s) : Sound s :=
  Runs.run_invariant Sound (fun e => e.call.Plain)
    (fun _ _ _ h he hstep => Sound.step hhost h he hstep) events _ s (sound_initial job) hplain hrun

/-! ## Which files are tables -/

theorem Sound.tables {s : State job} (h : Sound s) : s.Tables where
  ctag := ctag_rectangular h.ctag
  etag := etag_rectangular (h.rank 0).names
  rankmap := rankmap_rectangular h.rankmap
  records := by
    intro r _ text htext
    obtain ⟨head, hhead, rfl⟩ := Option.map_eq_some_iff.mp htext
    obtain ⟨-, rfl, hrows⟩ := (h.rank r).header head hhead
    exact rec_rectangular job.build hrows

/-- `run_info.csv` has its header, and behind it the rows of all jobs. -/
theorem infoText_eq (s : State job) :
    s.infoText = infoHeader ++ (job.before.getD [] ++ s.infos).flatMap CsvFiles.wtinfo := by
  have hheader : infoHeader.length ≠ 0 := by decide
  rw [State.infoText, Job.infoBefore, List.flatMap_append, ← List.append_assoc]
  cases job.before with
  | none => rfl
  | some rows =>
      have hlength : (infoHeader ++ rows.flatMap CsvFiles.wtinfo).length ≠ 0 := by
        rw [List.length_append]
        omega
      rw [mkInfo, if_neg hlength]
      rfl

theorem Sound.allTables_iff {s : State job} (h : Sound s) :
    s.Rectangular ↔ job.before.getD [] = [] ∧ s.infos = [] := by
  rw [← List.append_eq_nil_iff, ← info_rectangular_iff, ← infoText_eq]
  constructor
  · exact State.Rectangular.runInfo
  · intro hinfo
    exact ⟨hinfo, h.tables⟩

/-! ## Whole runs -/

/-- Rank 0 writes a row of `run_info.csv` at its finalize, the other ranks none. -/
theorem infoRows_eq_nil_iff {r : ℕ} (hr : r < job.nrank) {p : Rank job.build} {call : Call} :
    job.infoRows r p call = [] ↔ ¬ Event.Reports ⟨r, call⟩ := by
  have hrank : job.process r = .rank ↔ r ≠ 0 := by
    cases hmpi : job.mpi with
    | true =>
        by_cases hzero : r = 0
        · simp [Job.process, hmpi, hzero]
        · simp [Job.process, hmpi, hzero]
    | false =>
        have hone := job.nrank_serial hmpi
        obtain rfl : r = 0 := by omega
        simp [Job.process, hmpi]
  cases call with
  | finalize opens =>
      cases opens with
      | false => simp [Job.infoRows, Event.Reports]
      | true => simp [Job.infoRows, Event.Reports, hrank]
  | _ => simp [Job.infoRows, Event.Reports]

theorem infos_run {events : List Event} : ∀ {s t : State job},
    Runs.run (step job parse depth) s events = some t →
      (t.infos = [] ↔ s.infos = [] ∧ ∀ e ∈ events, ¬ e.Reports) := by
  induction events with
  | nil =>
      intro s t hrun
      obtain rfl := Option.some.inj hrun
      simp
  | cons e events ih =>
      intro s t hrun
      obtain ⟨u, hstep, hrest⟩ := Option.bind_eq_some_iff.mp hrun
      obtain ⟨p, hrank, -, -, -, -, -, hinfos⟩ := step_cases hstep
      rw [ih hrest, hinfos, List.append_eq_nil_iff, infoRows_eq_nil_iff hrank, and_assoc,
        List.forall_mem_cons]

/-- **The files of a run.** Whatever the ranks do, the files in the run directory are tables.
With `run_info.csv` all files are, if and only if no job on the data root has written its row
of it yet. -/
theorem files_rectangular_iff (job : Job) (parse : String → U64) (depth : ℕ)
    (hhost : ∀ r, Csv.Plain (job.host r).toList) (events : List Event)
    (hplain : ∀ e ∈ events, e.call.Plain) (s : State job)
    (hrun : Runs.run (step job parse depth) (initial job) events = some s) :
    s.Tables ∧ (s.Rectangular ↔ job.before.getD [] = [] ∧ ∀ e ∈ events, ¬ e.Reports) := by
  have hsound := sound_run hhost hplain hrun
  refine ⟨hsound.tables, ?_⟩
  rw [hsound.allTables_iff, infos_run hrun]
  simp [initial]

/-- A serial job with the smallest buffer, the first one on its data root. -/
def Job.single : Job where
  build := Probe.smallest.build
  mpi := false
  nrank := 1
  bufNbyte := Probe.smallest.bufNbyte
  npapi := fun _ => Probe.smallest.npapi
  runid := 1
  host := fun _ => "node"
  cpu := fun _ => 0
  sample := fun _ => Probe.smallest.sample
  fopen := fun _ => Probe.smallest.fopen
  precs := fun _ _ => Rec.cleared
  started := ⟨124, 0, 1, 12, 0, 0⟩
  ended := ⟨124, 0, 1, 12, 0, 5⟩
  before := none
  nrank_serial := fun _ => rfl

/-- A run from the initialisation to the finalize. -/
def Job.calls : List Event :=
  [⟨0, .init⟩, ⟨0, .setEvt "INST_RETIRED.ANY_P"⟩, ⟨0, .setTag 1 1 "solve"⟩, ⟨0, .commit⟩,
    ⟨0, .read 1 1 Double.zero⟩, ⟨0, .finalize true⟩]

/-- Up to the finalize all files are tables. -/
theorem files_rectangular_iff_single :
    ∃ s : State Job.single,
      Runs.run (step Job.single EvtX86.phParseEvent 2) (initial Job.single) Job.calls.dropLast =
        some s ∧
      s.Tables ∧ s.Rectangular := by
  have hsome : (Runs.run (step Job.single EvtX86.phParseEvent 2) (initial Job.single)
      Job.calls.dropLast).isSome = true := by
    decide +kernel
  have hplain : ∀ e ∈ Job.calls.dropLast, e.call.Plain := by decide
  have hhost : Csv.Plain "node".toList := by decide
  obtain ⟨s, hrun⟩ := Option.isSome_iff_exists.mp hsome
  obtain ⟨htables, hrectangular⟩ := files_rectangular_iff Job.single EvtX86.phParseEvent 2
    (fun _ => hhost) Job.calls.dropLast hplain s hrun
  have hquiet : ∀ e ∈ Job.calls.dropLast, ¬ e.Reports := by simp [Job.calls, Event.Reports]
  exact ⟨s, hrun, htables, hrectangular.mpr ⟨rfl, hquiet⟩⟩

/-- The row behind the header of `run_info.csv` has seven fields for eight columns. -/
theorem run_info_one_field_short :
    ∃ s : State Job.single,
      Runs.run (step Job.single EvtX86.phParseEvent 2) (initial Job.single) Job.calls = some s ∧
      Csv.read s.infoText =
        [["id", "nrank", "nevent", "ngroup", "npoint", "start_time", "end_time", "description"],
          ["1", "1", "1", "7", "20240101T120000", "20240101T120005", ""]].map
          (List.map String.toList) ∧
      ¬ s.Rectangular := by
  have hread : (Runs.run (step Job.single EvtX86.phParseEvent 2) (initial Job.single)
      Job.calls).map (fun s => Csv.read s.infoText) = some
        ([["id", "nrank", "nevent", "ngroup", "npoint", "start_time", "end_time", "description"],
          ["1", "1", "1", "7", "20240101T120000", "20240101T120005", ""]].map
          (List.map String.toList)) := by
    decide +kernel
  obtain ⟨s, hrun, htext⟩ := Option.map_eq_some_iff.mp hread
  refine ⟨s, hrun, htext, fun htables => ?_⟩
  exact Csv.not_rectangular_of_width htext (List.mem_singleton_self _) (by decide) _
    htables.runInfo

end JobFiles

end PerfHound
