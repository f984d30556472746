/-
# Run directories of concurrent jobs: `ph_init` and `phmpi_init`

Jobs that start on one data root look for the first free `run_<N>`, create it, and
put their host directories and rank maps below it. A serial process does this alone.
In an MPI job every rank searches for itself between two barriers; rank 0 then
creates the directory, and a token passed around the ranks lets them create the host
directories one after the other.

A process is a program counter over the file-system and MPI calls that decide the
outcome, each of them atomic, and an event lets one process take its next step. An
event may also let the step fail and the process exit, which stands for an error of
any call, those the model leaves out included. A run is any list of events, so every
interleaving of any set of jobs is a run.

The mkdir of rank 0 fails on a directory that is already there, so two jobs never
create the same one. What can go wrong is that another rank settles on a directory
which a different job creates before rank 0 comes to look at it. `Clean` excludes
exactly these steps, and `disagree_of_unclean` says what follows from them.
-/

import PerfHound.Lib.Runs
import Mathlib.Logic.Function.Basic

namespace PerfHound

open Lib

namespace RunDir

universe uJ uH

/-- A process: a rank of a job. A serial process is rank 0 of its job. -/
structure Proc (J : Type uJ) where
  job : J
  rank : ℕ
  deriving DecidableEq, Repr

/-- The jobs that share the data root, and the host each process runs on. -/
structure Jobs (J : Type uJ) (H : Type uH) where
  /-- Whether the job calls `phmpi_init`, or `ph_init`. -/
  mpi : J → Bool
  nrank : J → ℕ
  host : Proc J → H
  nrank_serial : ∀ j, mpi j = false → nrank j = 1

/-- What is at `run_<N>` below the data root. -/
inductive Dir (J : Type uJ)
  | absent
  | /-- A directory from before the jobs started. -/
    old
  | /-- Created by rank 0 of a job. -/
    made (j : J)
  deriving DecidableEq, Repr

/-- Where a process is. The argument is `nrun` in the search, and `runid` after it. -/
inductive Pc
  | /-- Before the first barrier: rank 0 creates the data root. -/
    start
  | inBarrier1
  | /-- `ph_io_mkname`, before the `access` of `run_<nrun+1>`. -/
    search (nrun : ℕ)
  | /-- `ph_io_mkname` has returned. -/
    settled (n : ℕ)
  | inBarrier2 (n : ℕ)
  | /-- `ph_io_mkfile`, before the `mkdir` of `run_<n>`. -/
    mkfile (n : ℕ)
  | /-- `ph_mpi_mkhost` of another rank than 0, before `MPI_Recv`. -/
    recvHost (n : ℕ)
  | /-- `ph_io_mkhost`, before the `access` of the host directory. -/
    mkhost (n : ℕ)
  | /-- `ph_io_mkhost`, before the `mkdir` of the host directory. -/
    mkhostdir (n : ℕ)
  | /-- `ph_io_wtrankmap`. -/
    wtrankmap (n : ℕ)
  | /-- `ph_mpi_mkhost`, before `MPI_Send`. -/
    send (n : ℕ)
  | /-- `ph_mpi_mkhost` of rank 0, before `MPI_Recv`. -/
    recvRing (n : ℕ)
  | /-- Before the barrier number `k` of the initialisation. -/
    atBarrier (k n : ℕ)
  | inBarrier (k n : ℕ)
  | /-- The initialisation has returned 0. -/
    finished (n : ℕ)
  | exited
  deriving DecidableEq, Repr

/-- The barriers of `phmpi_init`: two around the search, one after the host
directories, one in each of the five `phmpi_set_tag`, and two at the end. -/
def nbarrier : ℕ := 10

/-- The processes and the data root they share. -/
structure State (J : Type uJ) (H : Type uH) where
  pc : Proc J → Pc
  /-- How many barriers a process has entered. -/
  entered : Proc J → ℕ
  /-- Whether the message a process sends in `ph_mpi_mkhost` is on its way. -/
  flight : Proc J → Bool
  dirs : ℕ → Dir J
  /-- The host directories, by run number and host. -/
  hosts : ℕ → H → Bool

variable {J : Type uJ} {H : Type uH} [DecidableEq J] [DecidableEq H]

namespace State

/-- Move one process on. -/
def goto (s : State J H) (p : Proc J) (pc : Pc) : State J H :=
  { s with pc := Function.update s.pc p pc }

/-- Let a process enter barrier number `k` of its job. -/
def enter (s : State J H) (k : ℕ) (p : Proc J) (pc : Pc) : State J H :=
  { s.goto p pc with entered := Function.update s.entered p k }

/-- A barrier releases only when all ranks of the job have entered it. -/
def released (c : Jobs J H) (s : State J H) (j : J) (k : ℕ) : Bool :=
  (List.range (c.nrank j)).all fun r => k ≤ s.entered ⟨j, r⟩

end State

variable (c : Jobs J H)

/-- The next step of one process. A process that waits, or is done, has none. -/
def advance (s : State J H) (p : Proc J) : Option (State J H) :=
  match s.pc p with
  | .start =>
      if c.mpi p.job then some (s.enter 1 p .inBarrier1) else some (s.goto p (.search 0))
  | .inBarrier1 => if s.released c p.job 1 then some (s.goto p (.search 0)) else none
  | .search nrun =>
      if s.dirs (nrun + 1) = .absent then some (s.goto p (.settled (nrun + 1)))
      else some (s.goto p (.search (nrun + 1)))
  | .settled n =>
      if c.mpi p.job then some (s.enter 2 p (.inBarrier2 n)) else some (s.goto p (.mkfile n))
  | .inBarrier2 n =>
      if s.released c p.job 2 then
        some (s.goto p (if p.rank = 0 then .mkfile n else .recvHost n))
      else none
  | .mkfile n =>
      -- `mkdir` is the only test: it fails on a directory another job has created
      if s.dirs n = .absent then
        some { s.goto p (.mkhost n) with dirs := Function.update s.dirs n (.made p.job) }
      else some (s.goto p .exited)
  | .recvHost n =>
      let q : Proc J := ⟨p.job, p.rank - 1⟩
      if s.flight q then
        some { s.goto p (.mkhost n) with flight := Function.update s.flight q false }
      else none
  | .mkhost n =>
      if s.hosts n (c.host p) then some (s.goto p (.wtrankmap n))
      else some (s.goto p (.mkhostdir n))
  | .mkhostdir n =>
      -- without the run directory `mkdir` fails, and so it does when the host directory
      -- has appeared since the `access`
      if s.dirs n = .absent ∨ s.hosts n (c.host p) then some (s.goto p .exited)
      else some { s.goto p (.wtrankmap n) with
        hosts := Function.update s.hosts n (Function.update (s.hosts n) (c.host p) true) }
  | .wtrankmap n =>
      -- `fopen` gives NULL without the run directory, and `fprintf` is called with it
      if s.dirs n = .absent then some (s.goto p .exited)
      else some (s.goto p (if c.mpi p.job then .send n else .finished n))
  | .send n =>
      -- alone, rank 0 sends to rank 1, which does not exist
      if c.nrank p.job = 1 then some (s.goto p .exited)
      else some { s.goto p (if p.rank = 0 then .recvRing n else .atBarrier 3 n) with
        flight := Function.update s.flight p true }
  | .recvRing n =>
      let q : Proc J := ⟨p.job, c.nrank p.job - 1⟩
      if s.flight q then
        some { s.goto p (.atBarrier 3 n) with flight := Function.update s.flight q false }
      else none
  | .atBarrier k n => some (s.enter k p (.inBarrier k n))
  | .inBarrier k n =>
      if s.released c p.job k then
        some (s.goto p (if k = nbarrier then .finished n else .atBarrier (k + 1) n))
      else none
  | .finished _ => none
  | .exited => none

/-- A process takes its next step, or fails at it. -/
structure Event (J : Type uJ) where
  proc : Proc J
  fails : Bool
  deriving DecidableEq, Repr

/-- One event. A process that has finished or exited takes no part any more. -/
def step (s : State J H) (e : Event J) : Option (State J H) :=
  if e.proc.rank < c.nrank e.proc.job then
    if e.fails then
      match s.pc e.proc with
      | .finished _ => none
      | .exited => none
      | _ => some (s.goto e.proc .exited)
    else advance c s e.proc
  else none

/-- All processes at their start, on a data root with some run directories. -/
def initial (existing : ℕ → Bool) (hosts : ℕ → H → Bool) : State J H where
  pc := fun _ => .start
  entered := fun _ => 0
  flight := fun _ => false
  dirs := fun n => if existing n then .old else .absent
  hosts := hosts

/-! ## Agreement and exclusivity -/

/-- The ranks that complete the initialisation use the directory that rank 0 of their
job created, all ranks of a job the same one, and different jobs different ones. -/
structure Agreed (s : State J H) : Prop where
  created : ∀ (p : Proc J) (n : ℕ), p.rank < c.nrank p.job → s.pc p = .finished n →
    s.dirs n = .made p.job
  same : ∀ (p q : Proc J) (n m : ℕ), p.rank < c.nrank p.job → q.rank < c.nrank q.job →
    p.job = q.job → s.pc p = .finished n → s.pc q = .finished m → n = m
  exclusive : ∀ (p q : Proc J) (n : ℕ), p.rank < c.nrank p.job → q.rank < c.nrank q.job →
    s.pc p = .finished n → s.pc q = .finished n → p.job = q.job

namespace Pc

/-- `runid`, once the search has set it. -/
def runid : Pc → Option ℕ
  | .start => none
  | .inBarrier1 => none
  | .search _ => none
  | .settled n => some n
  | .inBarrier2 n => some n
  | .mkfile n => some n
  | .recvHost n => some n
  | .mkhost n => some n
  | .mkhostdir n => some n
  | .wtrankmap n => some n
  | .send n => some n
  | .recvRing n => some n
  | .atBarrier _ n => some n
  | .inBarrier _ n => some n
  | .finished n => some n
  | .exited => none

/-- How far a process has come: up to 2 it is still searching, up to 4 it has not left
the second barrier, at 5 the run directory is not its own yet, at 6 it is, and at 7
the process has given up. -/
def phase : Pc → ℕ
  | .start => 0
  | .inBarrier1 => 1
  | .search _ => 2
  | .settled _ => 3
  | .inBarrier2 _ => 4
  | .mkfile _ => 5
  | .recvHost _ => 5
  | .exited => 7
  | _ => 6

end Pc

theorem Pc.eq_exited {pc : Pc} (h : 7 ≤ pc.phase) : pc = .exited := by
  cases pc with
  | exited => rfl
  | _ => simp [Pc.phase] at h

theorem Pc.runid_of_searching {pc : Pc} (h : pc.phase ≤ 2) : pc.runid = none := by
  cases pc with
  | start => rfl
  | inBarrier1 => rfl
  | search => rfl
  | _ => simp [Pc.phase] at h

/-- A step is clean unless it creates `run_<n>` while another rank than 0 of some job
has settled on `n` and rank 0 of that job is still searching. -/
def Clean (s : State J H) (e : Event J) : Prop :=
  ∀ n, s.pc e.proc = .mkfile n → e.fails = false → s.dirs n = .absent →
    ∀ j r, r ≠ 0 → r < c.nrank j → (s.pc ⟨j, r⟩).runid = some n → 2 < (s.pc ⟨j, 0⟩).phase

variable {c}

/-! ## What a step does -/

section Quiet

omit [DecidableEq H]

/-- A step that neither chooses a run number nor creates a run directory. Only the
moving process changes, it never goes back, and it gets past the second barrier and
to the run directory only when it may. -/
structure Quiet (c : Jobs J H) (s t : State J H) (p : Proc J) : Prop where
  dirs : t.dirs = s.dirs
  other : ∀ q, q ≠ p → t.pc q = s.pc q ∧ t.entered q = s.entered q
  runid : (t.pc p).runid = (s.pc p).runid ∨ t.pc p = .exited
  seen : ∀ nrun, t.pc p = .search nrun → ∀ m, 0 < m → m ≤ nrun →
    s.dirs m ≠ .absent ∨ ∃ k, s.pc p = .search k ∧ m ≤ k
  phase : (s.pc p).phase ≤ (t.pc p).phase
  entered : 2 ≤ t.entered p → 2 ≤ s.entered p ∨ 3 ≤ (t.pc p).phase
  mkfile : ∀ n, t.pc p = .mkfile n → p.rank = 0 ∨ c.mpi p.job = false
  beyond : (t.pc p).phase = 5 ∨ (t.pc p).phase = 6 →
    s.released c p.job 2 = true ∨ c.mpi p.job = false ∨ (s.pc p).phase = 5 ∨ (s.pc p).phase = 6
  own : (t.pc p).phase = 6 → (s.pc p).phase = 6 ∨ ∃ q, q.job = p.job ∧ s.flight q = true
  flight : ∀ q, t.flight q = true → s.flight q = true ∨ q = p ∧ (s.pc p).phase = 6

omit [DecidableEq J] in
/-- A process that has a run number after a quiet step had it before. -/
theorem Quiet.runid_of_some {s t : State J H} {p : Proc J} {n : ℕ} (h : Quiet c s t p)
    (hn : (t.pc p).runid = some n) : (s.pc p).runid = some n := by
  rcases h.runid with hsame | hexit
  · rw [← hsame, hn]
  · rw [hexit] at hn
    cases hn

/-- What an event does. -/
inductive Effect (c : Jobs J H) (s t : State J H) (p : Proc J) : Prop
  | quiet (h : Quiet c s t p)
  | settle (nrun : ℕ) (hpc : s.pc p = .search nrun) (habsent : s.dirs (nrun + 1) = .absent)
      (ht : t = s.goto p (.settled (nrun + 1)))
  | make (n : ℕ) (hpc : s.pc p = .mkfile n) (habsent : s.dirs n = .absent)
      (ht : t = { s.goto p (.mkhost n) with dirs := Function.update s.dirs n (.made p.job) })

/-- Moving the program counter, and perhaps entering a barrier or taking a message, is
quiet if the counter moves on quietly. -/
theorem quiet_of_pc {s t : State J H} {p : Proc J} (pc : Pc)
    (hpc : t.pc = Function.update s.pc p pc) (hdirs : t.dirs = s.dirs)
    (hother : ∀ q, q ≠ p → t.entered q = s.entered q)
    (hrunid : pc.runid = (s.pc p).runid ∨ pc = .exited)
    (hseen : ∀ nrun, pc = .search nrun → ∀ m, 0 < m → m ≤ nrun →
      s.dirs m ≠ .absent ∨ ∃ k, s.pc p = .search k ∧ m ≤ k)
    (hphase : (s.pc p).phase ≤ pc.phase)
    (hentered : 2 ≤ t.entered p → 2 ≤ s.entered p ∨ 3 ≤ pc.phase)
    (hmkfile : ∀ n, pc = .mkfile n → p.rank = 0 ∨ c.mpi p.job = false)
    (hbeyond : pc.phase = 5 ∨ pc.phase = 6 → s.released c p.job 2 = true ∨
      c.mpi p.job = false ∨ (s.pc p).phase = 5 ∨ (s.pc p).phase = 6)
    (hown : pc.phase = 6 → (s.pc p).phase = 6 ∨ ∃ q, q.job = p.job ∧ s.flight q = true)
    (hflight : ∀ q, t.flight q = true → s.flight q = true ∨ q = p ∧ (s.pc p).phase = 6) :
    Quiet c s t p where
  dirs := hdirs
  other := fun q hq => ⟨by rw [hpc, Function.update_of_ne hq], hother q hq⟩
  runid := by simpa only [hpc, Function.update_self] using hrunid
  seen := by simpa only [hpc, Function.update_self] using hseen
  phase := by simpa only [hpc, Function.update_self] using hphase
  entered := by simpa only [hpc, Function.update_self] using hentered
  mkfile := by simpa only [hpc, Function.update_self] using hmkfile
  beyond := by simpa only [hpc, Function.update_self] using hbeyond
  own := by simpa only [hpc, Function.update_self] using hown
  flight := hflight

theorem quiet_goto {s : State J H} {p : Proc J} {pc : Pc}
    (hrunid : pc.runid = (s.pc p).runid ∨ pc = .exited)
    (hseen : ∀ nrun, pc = .search nrun → ∀ m, 0 < m → m ≤ nrun →
      s.dirs m ≠ .absent ∨ ∃ k, s.pc p = .search k ∧ m ≤ k)
    (hphase : (s.pc p).phase ≤ pc.phase)
    (hmkfile : ∀ n, pc = .mkfile n → p.rank = 0 ∨ c.mpi p.job = false)
    (hbeyond : pc.phase = 5 ∨ pc.phase = 6 → s.released c p.job 2 = true ∨
      c.mpi p.job = false ∨ (s.pc p).phase = 5 ∨ (s.pc p).phase = 6)
    (hown : pc.phase = 6 → (s.pc p).phase = 6 ∨ ∃ q, q.job = p.job ∧ s.flight q = true) :
    Quiet c s (s.goto p pc) p :=
  quiet_of_pc _ rfl rfl (fun _ _ => rfl) hrunid hseen hphase Or.inl hmkfile hbeyond hown
    fun _ => Or.inl

/-- Giving up is quiet. -/
theorem quiet_exit (s : State J H) (p : Proc J) : Quiet c s (s.goto p .exited) p := by
  apply quiet_goto
  · exact Or.inr rfl
  · simp
  · cases s.pc p <;> simp [Pc.phase]
  · simp
  · simp [Pc.phase]
  · simp [Pc.phase]

/-- The steps within the processes' own run directory are quiet. -/
theorem quiet_own {s t : State J H} {p : Proc J} (pc : Pc)
    (hpc : t.pc = Function.update s.pc p pc) (hdirs : t.dirs = s.dirs)
    (hother : ∀ q, q ≠ p → t.entered q = s.entered q) (hrunid : pc.runid = (s.pc p).runid)
    (hfrom : (s.pc p).phase = 6) (hto : pc.phase = 6)
    (hflight : ∀ q, t.flight q = true → s.flight q = true ∨ q = p) : Quiet c s t p := by
  refine quiet_of_pc pc hpc hdirs hother ?_ ?_ ?_ ?_ ?_ ?_ ?_ ?_
  · exact Or.inl hrunid
  · intro nrun hsearch
    simp [hsearch, Pc.phase] at hto
  · exact Nat.le_of_eq (hfrom.trans hto.symm)
  · intro _
    exact Or.inr (by rw [hto]; decide)
  · intro n hmkfile
    simp [hmkfile, Pc.phase] at hto
  · intro _
    exact Or.inr (Or.inr (Or.inr hfrom))
  · intro _
    exact Or.inl hfrom
  · intro q hq
    exact (hflight q hq).imp_right fun heq => ⟨heq, hfrom⟩

/-- Beginning to search is quiet. -/
theorem quiet_search {s : State J H} {p : Proc J} (hphase : (s.pc p).phase ≤ 2) :
    Quiet c s (s.goto p (.search 0)) p := by
  apply quiet_goto
  · exact Or.inl (Pc.runid_of_searching hphase).symm
  · intro nrun hsearch m hpos hm
    obtain rfl : 0 = nrun := Pc.search.inj hsearch
    exact absurd hpos (Nat.not_lt.mpr hm)
  · exact hphase
  · simp
  · simp [Pc.phase]
  · simp [Pc.phase]

/-- Entering one of the two barriers around the search is quiet. -/
theorem quiet_enter {s : State J H} {p : Proc J} {pc : Pc} {k : ℕ}
    (hrunid : pc.runid = (s.pc p).runid) (hfrom : (s.pc p).phase ≤ pc.phase)
    (hto : pc.phase = 1 ∨ pc.phase = 4) (hentered : 2 ≤ k → 3 ≤ pc.phase) :
    Quiet c s (s.enter k p pc) p := by
  refine quiet_of_pc pc rfl rfl ?_ (Or.inl hrunid) ?_ hfrom ?_ ?_ ?_ ?_ fun _ => Or.inl
  · intro q hq
    simp [State.enter, Function.update_of_ne hq]
  · intro nrun hsearch
    simp [hsearch, Pc.phase] at hto
  · simpa [State.enter] using fun hk => Or.inr (hentered hk)
  · intro n hmkfile
    simp [hmkfile, Pc.phase] at hto
  · omega
  · omega

/-- Getting past the second barrier is quiet. -/
theorem quiet_beyond {s : State J H} {p : Proc J} {pc : Pc} (hrunid : pc.runid = (s.pc p).runid)
    (hfrom : (s.pc p).phase ≤ 5) (hto : pc.phase = 5)
    (hmkfile : ∀ n, pc = .mkfile n → p.rank = 0 ∨ c.mpi p.job = false)
    (hbeyond : s.released c p.job 2 = true ∨ c.mpi p.job = false) :
    Quiet c s (s.goto p pc) p := by
  refine quiet_goto (Or.inl hrunid) ?_ (Nat.le_trans hfrom (Nat.le_of_eq hto.symm)) hmkfile ?_ ?_
  · intro nrun hsearch
    simp [hsearch, Pc.phase] at hto
  · exact fun _ => hbeyond.imp_right Or.inl
  · omega

/-- Taking a message sends none. -/
theorem flight_of_take {s : State J H} {q q' : Proc J}
    (h : Function.update s.flight q' false q = true) : s.flight q = true := by
  by_cases heq : q = q'
  · simp [heq] at h
  · rwa [Function.update_of_ne heq] at h

end Quiet

theorem effect_start {s t : State J H} {p : Proc J} (hpc : s.pc p = .start)
    (hstep : advance c s p = some t) : Effect c s t p := by
  cases hmpi : c.mpi p.job with
  | true =>
      obtain rfl : s.enter 1 p .inBarrier1 = t := by simpa [advance, hpc, hmpi] using hstep
      exact .quiet (quiet_enter (by rw [hpc]; rfl) (by simp [hpc, Pc.phase]) (Or.inl rfl)
        (by decide))
  | false =>
      obtain rfl : s.goto p (.search 0) = t := by simpa [advance, hpc, hmpi] using hstep
      exact .quiet (quiet_search (by simp [hpc, Pc.phase]))

theorem effect_search {s t : State J H} {p : Proc J} {nrun : ℕ} (hpc : s.pc p = .search nrun)
    (hstep : advance c s p = some t) : Effect c s t p := by
  by_cases habsent : s.dirs (nrun + 1) = .absent
  · simp only [advance, hpc, habsent, if_true, Option.some.injEq] at hstep
    exact .settle nrun hpc habsent hstep.symm
  · simp only [advance, hpc, habsent, if_false, Option.some.injEq] at hstep
    subst hstep
    refine .quiet ?_
    apply quiet_goto
    · simp [hpc, Pc.runid]
    · intro k hk m hpos hm
      -- all but the last directory were passed before
      obtain rfl : nrun + 1 = k := by simpa using hk
      rcases Nat.lt_or_eq_of_le hm with hlt | rfl
      · exact Or.inr ⟨nrun, hpc, Nat.le_of_lt_succ hlt⟩
      · exact Or.inl habsent
    · simp [hpc, Pc.phase]
    · simp
    · simp [Pc.phase]
    · simp [Pc.phase]

theorem effect_settled {s t : State J H} {p : Proc J} {n : ℕ} (hpc : s.pc p = .settled n)
    (hstep : advance c s p = some t) : Effect c s t p := by
  cases hmpi : c.mpi p.job with
  | true =>
      obtain rfl : s.enter 2 p (.inBarrier2 n) = t := by
        simpa [advance, hpc, hmpi] using hstep
      exact .quiet (quiet_enter (by rw [hpc]; rfl) (by simp [hpc, Pc.phase]) (Or.inr rfl)
        fun _ => Nat.le_succ 3)
  | false =>
      obtain rfl : s.goto p (.mkfile n) = t := by simpa [advance, hpc, hmpi] using hstep
      exact .quiet (quiet_beyond (by rw [hpc]; rfl) (by simp [hpc, Pc.phase]) rfl
        (fun _ _ => Or.inr hmpi) (Or.inr hmpi))

theorem effect_inBarrier2 {s t : State J H} {p : Proc J} {n : ℕ} (hpc : s.pc p = .inBarrier2 n)
    (hstep : advance c s p = some t) : Effect c s t p := by
  simp only [advance, hpc, Option.ite_none_right_eq_some, Option.some.injEq] at hstep
  obtain ⟨hreleased, rfl⟩ := hstep
  by_cases hrank : p.rank = 0
  · rw [if_pos hrank]
    exact .quiet (quiet_beyond (by rw [hpc]; rfl) (by simp [hpc, Pc.phase]) rfl
      (fun _ _ => Or.inl hrank) (Or.inl hreleased))
  · rw [if_neg hrank]
    exact .quiet (quiet_beyond (by rw [hpc]; rfl) (by simp [hpc, Pc.phase]) rfl
      (fun _ hmkfile => by cases hmkfile) (Or.inl hreleased))

theorem effect_mkfile {s t : State J H} {p : Proc J} {n : ℕ} (hpc : s.pc p = .mkfile n)
    (hstep : advance c s p = some t) : Effect c s t p := by
  by_cases habsent : s.dirs n = .absent
  · simp only [advance, hpc, habsent, if_true, Option.some.injEq] at hstep
    exact .make n hpc habsent hstep.symm
  · simp only [advance, hpc, habsent, if_false, Option.some.injEq] at hstep
    subst hstep
    exact .quiet (quiet_exit s p)

theorem effect_recvHost {s t : State J H} {p : Proc J} {n : ℕ} (hpc : s.pc p = .recvHost n)
    (hstep : advance c s p = some t) : Effect c s t p := by
  simp only [advance, hpc, Option.ite_none_right_eq_some, Option.some.injEq] at hstep
  obtain ⟨hflight, rfl⟩ := hstep
  refine .quiet ?_
  refine quiet_of_pc (.mkhost n) rfl rfl (fun _ _ => rfl) ?_ ?_ ?_ ?_ ?_ ?_ ?_ ?_
  · simp [hpc, Pc.runid]
  · simp
  · simp [hpc, Pc.phase]
  · exact Or.inl
  · simp
  · simp [hpc, Pc.phase]
  · exact fun _ => Or.inr ⟨⟨p.job, p.rank - 1⟩, rfl, hflight⟩
  · exact fun _ hq => Or.inl (flight_of_take hq)

theorem effect_mkhost {s t : State J H} {p : Proc J} {n : ℕ} (hpc : s.pc p = .mkhost n)
    (hstep : advance c s p = some t) : Effect c s t p := by
  refine .quiet ?_
  simp only [advance, hpc] at hstep
  split at hstep
  · obtain rfl := Option.some.inj hstep
    exact quiet_own (.wtrankmap n) rfl rfl (fun _ _ => rfl) (by simp [hpc, Pc.runid])
      (by simp [hpc, Pc.phase]) rfl (fun _ => Or.inl)
  · obtain rfl := Option.some.inj hstep
    exact quiet_own (.mkhostdir n) rfl rfl (fun _ _ => rfl) (by simp [hpc, Pc.runid])
      (by simp [hpc, Pc.phase]) rfl (fun _ => Or.inl)

theorem effect_mkhostdir {s t : State J H} {p : Proc J} {n : ℕ} (hpc : s.pc p = .mkhostdir n)
    (hstep : advance c s p = some t) : Effect c s t p := by
  refine .quiet ?_
  simp only [advance, hpc] at hstep
  split at hstep
  · obtain rfl := Option.some.inj hstep
    exact quiet_exit s p
  · obtain rfl := Option.some.inj hstep
    exact quiet_own (.wtrankmap n) rfl rfl (fun _ _ => rfl) (by simp [hpc, Pc.runid])
      (by simp [hpc, Pc.phase]) rfl (fun _ => Or.inl)

theorem effect_wtrankmap {s t : State J H} {p : Proc J} {n : ℕ} (hpc : s.pc p = .wtrankmap n)
    (hstep : advance c s p = some t) : Effect c s t p := by
  refine .quiet ?_
  simp only [advance, hpc] at hstep
  split at hstep
  · obtain rfl := Option.some.inj hstep
    exact quiet_exit s p
  · obtain rfl := Option.some.inj hstep
    refine quiet_own _ rfl rfl (fun _ _ => rfl) ?_ (by simp [hpc, Pc.phase]) ?_
      (fun _ => Or.inl)
    · split <;> simp [hpc, Pc.runid]
    · split <;> simp [Pc.phase]

theorem effect_send {s t : State J H} {p : Proc J} {n : ℕ} (hpc : s.pc p = .send n)
    (hstep : advance c s p = some t) : Effect c s t p := by
  refine .quiet ?_
  simp only [advance, hpc] at hstep
  split at hstep
  · obtain rfl := Option.some.inj hstep
    exact quiet_exit s p
  · obtain rfl := Option.some.inj hstep
    refine quiet_own _ rfl rfl (fun _ _ => rfl) ?_ (by simp [hpc, Pc.phase]) ?_ ?_
    · split <;> simp [hpc, Pc.runid]
    · split <;> simp [Pc.phase]
    · intro q hq
      by_cases heq : q = p
      · exact Or.inr heq
      · exact Or.inl (by simpa [Function.update_of_ne heq] using hq)

theorem effect_recvRing {s t : State J H} {p : Proc J} {n : ℕ} (hpc : s.pc p = .recvRing n)
    (hstep : advance c s p = some t) : Effect c s t p := by
  simp only [advance, hpc, Option.ite_none_right_eq_some, Option.some.injEq] at hstep
  obtain ⟨-, rfl⟩ := hstep
  refine .quiet ?_
  refine quiet_own (.atBarrier 3 n) rfl rfl (fun _ _ => rfl) (by simp [hpc, Pc.runid])
    (by simp [hpc, Pc.phase]) rfl ?_
  exact fun _ hq => Or.inl (flight_of_take hq)

theorem effect_atBarrier {s t : State J H} {p : Proc J} {k n : ℕ} (hpc : s.pc p = .atBarrier k n)
    (hstep : advance c s p = some t) : Effect c s t p := by
  obtain rfl := Option.some.inj (by simpa only [advance, hpc] using hstep)
  refine .quiet (quiet_own (.inBarrier k n) rfl rfl ?_ (by simp [hpc, Pc.runid])
    (by simp [hpc, Pc.phase]) rfl (fun _ => Or.inl))
  intro q hq
  simp [State.enter, Function.update_of_ne hq]

theorem effect_inBarrier {s t : State J H} {p : Proc J} {k n : ℕ} (hpc : s.pc p = .inBarrier k n)
    (hstep : advance c s p = some t) : Effect c s t p := by
  simp only [advance, hpc, Option.ite_none_right_eq_some, Option.some.injEq] at hstep
  obtain ⟨-, rfl⟩ := hstep
  refine .quiet (quiet_own _ rfl rfl (fun _ _ => rfl) ?_ (by simp [hpc, Pc.phase]) ?_
    (fun _ => Or.inl))
  · split <;> simp [hpc, Pc.runid]
  · split <;> simp [Pc.phase]

/-- What a process does at its program counter. -/
theorem advance_effect {s t : State J H} {p : Proc J} (hstep : advance c s p = some t) :
    Effect c s t p := by
  cases hpc : s.pc p with
  | start => exact effect_start hpc hstep
  | inBarrier1 =>
      simp only [advance, hpc, Option.ite_none_right_eq_some, Option.some.injEq] at hstep
      obtain ⟨-, rfl⟩ := hstep
      exact .quiet (quiet_search (by simp [hpc, Pc.phase]))
  | search nrun => exact effect_search hpc hstep
  | settled n => exact effect_settled hpc hstep
  | inBarrier2 n => exact effect_inBarrier2 hpc hstep
  | mkfile n => exact effect_mkfile hpc hstep
  | recvHost n => exact effect_recvHost hpc hstep
  | mkhost n => exact effect_mkhost hpc hstep
  | mkhostdir n => exact effect_mkhostdir hpc hstep
  | wtrankmap n => exact effect_wtrankmap hpc hstep
  | send n => exact effect_send hpc hstep
  | recvRing n => exact effect_recvRing hpc hstep
  | atBarrier k n => exact effect_atBarrier hpc hstep
  | inBarrier k n => exact effect_inBarrier hpc hstep
  | finished n => simp [advance, hpc] at hstep
  | exited => simp [advance, hpc] at hstep

/-- The inversion lemma of `step`. -/
theorem step_effect {s t : State J H} {e : Event J} (hstep : step c s e = some t) :
    e.proc.rank < c.nrank e.proc.job ∧ Effect c s t e.proc ∧
      (e.fails = true → Quiet c s t e.proc) := by
  simp only [step, Option.ite_none_right_eq_some] at hstep
  obtain ⟨hrank, hstep⟩ := hstep
  refine ⟨hrank, ?_⟩
  cases hfails : e.fails with
  | false =>
      simp only [hfails, Bool.false_eq_true, if_false] at hstep
      exact ⟨advance_effect hstep, fun h => by cases h⟩
  | true =>
      have hexit : t = s.goto e.proc .exited := by
        simp only [hfails, if_true] at hstep
        split at hstep
        · cases hstep
        · cases hstep
        · exact (Option.some.inj hstep).symm
      rw [hexit]
      exact ⟨.quiet (quiet_exit s e.proc), fun _ => quiet_exit s e.proc⟩

/-! ## The invariant of clean runs -/

section Invariant

omit [DecidableEq H]

/-- What holds in every state of a clean run. -/
structure Inv (c : Jobs J H) (s : State J H) : Prop where
  /-- Run numbers start at 1. -/
  pos : ∀ p n, (s.pc p).runid = some n → 0 < n
  /-- A search has found all the lower numbers taken. -/
  below : ∀ p n, (s.pc p).runid = some n → ∀ m, 0 < m → m < n → s.dirs m ≠ .absent
  seen : ∀ p nrun, s.pc p = .search nrun → ∀ m, 0 < m → m ≤ nrun → s.dirs m ≠ .absent
  /-- The second barrier comes after the search. -/
  entered : ∀ p, 2 ≤ s.entered p → 3 ≤ (s.pc p).phase
  /-- Past the second barrier, the whole job has searched. -/
  beyond : ∀ p, (s.pc p).phase = 5 ∨ (s.pc p).phase = 6 →
    ∀ r < c.nrank p.job, 3 ≤ (s.pc ⟨p.job, r⟩).phase
  mkfile : ∀ p n, s.pc p = .mkfile n → p.rank = 0
  /-- Before its rank 0 has run its mkdir, a job has created nothing. -/
  unmade : ∀ j, (s.pc ⟨j, 0⟩).phase ≤ 5 → ∀ n, s.dirs n ≠ .made j
  /-- While rank 0 searches, what the other ranks have settled on stays absent. This is
  the part that only clean steps keep. -/
  ahead : ∀ j r n, r < c.nrank j → r ≠ 0 → (s.pc ⟨j, 0⟩).phase ≤ 2 →
    (s.pc ⟨j, r⟩).runid = some n → s.dirs n = .absent
  /-- Once rank 0 has settled, the others agree with it, or its mkdir is due to fail. -/
  agree : ∀ j r m n, r < c.nrank j → (s.pc ⟨j, 0⟩).runid = some m →
    (s.pc ⟨j, r⟩).runid = some n → n = m ∨ s.dirs m ≠ .absent ∧ s.dirs m ≠ .made j
  /-- A created directory is the one of the whole job. -/
  made : ∀ j n, s.dirs n = .made j → ∀ r < c.nrank j,
    3 ≤ (s.pc ⟨j, r⟩).phase ∧ ∀ m, (s.pc ⟨j, r⟩).runid = some m → m = n
  /-- Nobody gets on, and no message is sent, before the directory is created. -/
  own : ∀ p, (s.pc p).phase = 6 → ∃ n, s.dirs n = .made p.job
  flight : ∀ p, s.flight p = true → ∃ n, s.dirs n = .made p.job

omit [DecidableEq J] in
theorem inv_initial (existing : ℕ → Bool) (hosts : ℕ → H → Bool) :
    Inv c (initial (J := J) existing hosts) := by
  have hmade : ∀ n j, (initial (J := J) existing hosts).dirs n ≠ .made j := by
    intro n j
    cases hold : existing n <;> simp [initial, hold]
  constructor
  case unmade => exact fun j _ n => hmade n j
  case made => exact fun j n hn => absurd hn (hmade n j)
  all_goals simp [initial, Pc.runid, Pc.phase]

omit [DecidableEq J] in
theorem released_iff {s : State J H} {j : J} {k : ℕ} :
    s.released c j k = true ↔ ∀ r < c.nrank j, k ≤ s.entered ⟨j, r⟩ := by
  simp [State.released]

/-- The program counter after a move. -/
theorem pc_goto (s : State J H) (p q : Proc J) (pc : Pc) :
    (s.goto p pc).pc q = if q = p then pc else s.pc q := by
  by_cases heq : q = p
  · simp [State.goto, heq]
  · simp [State.goto, heq]

/-- Where a process is after a move, it was before, unless it is the one that moved. -/
theorem pc_of_goto {s : State J H} {p q : Proc J} {pc pc' : Pc}
    (h : (s.goto p pc).pc q = pc') : (q = p ∧ pc = pc') ∨ s.pc q = pc' := by
  rw [pc_goto] at h
  split at h
  case isTrue heq => exact Or.inl ⟨heq, h⟩
  case isFalse => exact Or.inr h

theorem phase_goto {s : State J H} {p : Proc J} {pc : Pc} (h : (s.pc p).phase ≤ pc.phase)
    (q : Proc J) : (s.pc q).phase ≤ ((s.goto p pc).pc q).phase := by
  rw [pc_goto]
  split
  case isTrue heq => rwa [heq]
  case isFalse => exact Nat.le_refl _

/-! ### Quiet steps -/

namespace Quiet

variable {s t : State J H} {p : Proc J}

theorem runid_before (h : Quiet c s t p) (q : Proc J) (n : ℕ) (hq : (t.pc q).runid = some n) :
    (s.pc q).runid = some n := by
  by_cases heq : q = p
  · subst heq
    exact h.runid_of_some hq
  · rwa [(h.other q heq).1] at hq

theorem phase_le (h : Quiet c s t p) (q : Proc J) : (s.pc q).phase ≤ (t.pc q).phase := by
  by_cases heq : q = p
  · subst heq
    exact h.phase
  · exact Nat.le_of_eq (congrArg Pc.phase (h.other q heq).1.symm)

theorem keeps_seen (hs : Inv c s) (h : Quiet c s t p) (q : Proc J) (nrun : ℕ)
    (hq : t.pc q = .search nrun) (m : ℕ) (hpos : 0 < m) (hm : m ≤ nrun) :
    s.dirs m ≠ .absent := by
  by_cases heq : q = p
  · subst heq
    rcases h.seen nrun hq m hpos hm with hpresent | ⟨k, hk, hmk⟩
    · exact hpresent
    · exact hs.seen q k hk m hpos hmk
  · rw [(h.other q heq).1] at hq
    exact hs.seen q nrun hq m hpos hm

theorem keeps_entered (hs : Inv c s) (h : Quiet c s t p) (q : Proc J) (hq : 2 ≤ t.entered q) :
    3 ≤ (t.pc q).phase := by
  by_cases heq : q = p
  · subst heq
    rcases h.entered hq with hold | hnew
    · exact Nat.le_trans (hs.entered q hold) h.phase
    · exact hnew
  · rw [(h.other q heq).2] at hq
    exact Nat.le_trans (hs.entered q hq) (h.phase_le q)

theorem keeps_beyond (hs : Inv c s) (hrank : p.rank < c.nrank p.job) (h : Quiet c s t p)
    (q : Proc J) (hq : (t.pc q).phase = 5 ∨ (t.pc q).phase = 6) (r : ℕ)
    (hr : r < c.nrank q.job) : 3 ≤ (t.pc ⟨q.job, r⟩).phase := by
  by_cases heq : q = p
  · subst heq
    rcases h.beyond hq with hreleased | hserial | hold
    · exact Nat.le_trans (hs.entered _ (released_iff.mp hreleased r hr)) (h.phase_le _)
    · -- a serial process is the only rank of its job
      have hone := c.nrank_serial q.job hserial
      obtain rfl : q.rank = r := by omega
      rcases hq with hq | hq <;> rw [hq] <;> decide
    · exact Nat.le_trans (hs.beyond q hold r hr) (h.phase_le _)
  · rw [(h.other q heq).1] at hq
    exact Nat.le_trans (hs.beyond q hq r hr) (h.phase_le _)

theorem keeps_mkfile (hs : Inv c s) (hrank : p.rank < c.nrank p.job) (h : Quiet c s t p)
    (q : Proc J) (n : ℕ) (hq : t.pc q = .mkfile n) : q.rank = 0 := by
  by_cases heq : q = p
  · subst heq
    rcases h.mkfile n hq with hzero | hserial
    · exact hzero
    · have hone := c.nrank_serial q.job hserial
      omega
  · rw [(h.other q heq).1] at hq
    exact hs.mkfile q n hq

theorem keeps_own (hs : Inv c s) (h : Quiet c s t p) (q : Proc J) (hq : (t.pc q).phase = 6) :
    ∃ n, s.dirs n = .made q.job := by
  by_cases heq : q = p
  · subst heq
    rcases h.own hq with hold | ⟨sender, hjob, hflight⟩
    · exact hs.own q hold
    · rw [← hjob]
      exact hs.flight sender hflight
  · rw [(h.other q heq).1] at hq
    exact hs.own q hq

omit [DecidableEq J] in
theorem keeps_flight (hs : Inv c s) (h : Quiet c s t p) (q : Proc J) (hq : t.flight q = true) :
    ∃ n, s.dirs n = .made q.job := by
  rcases h.flight q hq with hold | ⟨rfl, hown⟩
  · exact hs.flight q hold
  · exact hs.own q hown

end Quiet

/-- A quiet step keeps the invariant. -/
theorem inv_quiet {s t : State J H} {p : Proc J} (hs : Inv c s) (hrank : p.rank < c.nrank p.job)
    (h : Quiet c s t p) : Inv c t where
  pos := fun q n hq => hs.pos q n (h.runid_before q n hq)
  below := by
    intro q n hq
    rw [h.dirs]
    exact hs.below q n (h.runid_before q n hq)
  seen := by
    rw [h.dirs]
    exact h.keeps_seen hs
  entered := h.keeps_entered hs
  beyond := h.keeps_beyond hs hrank
  mkfile := h.keeps_mkfile hs hrank
  unmade := by
    intro j hj
    rw [h.dirs]
    exact hs.unmade j (Nat.le_trans (h.phase_le _) hj)
  ahead := by
    intro j r n hr hne hsearching hn
    rw [h.dirs]
    exact hs.ahead j r n hr hne (Nat.le_trans (h.phase_le _) hsearching) (h.runid_before _ n hn)
  agree := by
    intro j r m n hr hm hn
    rw [h.dirs]
    exact hs.agree j r m n hr (h.runid_before _ m hm) (h.runid_before _ n hn)
  made := by
    intro j n hn r hr
    rw [h.dirs] at hn
    obtain ⟨hdone, hsame⟩ := hs.made j n hn r hr
    exact ⟨Nat.le_trans hdone (h.phase_le _), fun m hm => hsame m (h.runid_before _ m hm)⟩
  own := by
    rw [h.dirs]
    exact h.keeps_own hs
  flight := by
    rw [h.dirs]
    exact h.keeps_flight hs

/-! ### Settling on a run number -/

omit [DecidableEq J] in
/-- Two searches that end on a free number end on the same one. -/
theorem first_absent_unique {s : State J H} {n m : ℕ} (hn : 0 < n) (hm : 0 < m)
    (hbelow : ∀ k, 0 < k → k < n → s.dirs k ≠ .absent)
    (hbelow' : ∀ k, 0 < k → k < m → s.dirs k ≠ .absent)
    (hfree : s.dirs n = .absent) (hfree' : s.dirs m = .absent) : n = m := by
  apply Nat.le_antisymm
  · by_contra hlt
    exact hbelow m hm (Nat.lt_of_not_le hlt) hfree'
  · by_contra hlt
    exact hbelow' n hn (Nat.lt_of_not_le hlt) hfree

section Settle

variable {s : State J H} {p : Proc J} {nrun : ℕ}

theorem runid_settle (q : Proc J) (n : ℕ)
    (hn : ((s.goto p (.settled (nrun + 1))).pc q).runid = some n) :
    (q = p ∧ n = nrun + 1) ∨ (s.pc q).runid = some n := by
  rw [pc_goto] at hn
  split at hn
  case isTrue heq => exact Or.inl ⟨heq, (Option.some.inj hn).symm⟩
  case isFalse => exact Or.inr hn

theorem phase_settle (hpc : s.pc p = .search nrun) (q : Proc J) :
    (s.pc q).phase ≤ ((s.goto p (.settled (nrun + 1))).pc q).phase :=
  phase_goto (by simp [hpc, Pc.phase]) q

omit [DecidableEq J] in
/-- Rank 0 settles: it cannot have stopped short of the others, nor gone past them. -/
theorem agree_of_first {j : J} {r n : ℕ} (hs : Inv c s) (hpc : s.pc ⟨j, 0⟩ = .search nrun)
    (habsent : s.dirs (nrun + 1) = .absent) (hr : r < c.nrank j)
    (hn : (s.pc ⟨j, r⟩).runid = some n) : n = nrun + 1 := by
  have hne : r ≠ 0 := by
    rintro rfl
    rw [hpc] at hn
    cases hn
  have hfree : s.dirs n = .absent :=
    hs.ahead j r n hr hne (by simp [hpc, Pc.phase]) hn
  exact first_absent_unique (hs.pos _ n hn) (Nat.succ_pos nrun) (hs.below _ n hn)
    (fun m hpos hm => hs.seen _ nrun hpc m hpos (Nat.le_of_lt_succ hm)) hfree habsent

omit [DecidableEq J] in
/-- Another rank settles after rank 0: on the same number, unless that is taken. -/
theorem agree_of_later {j : J} {r m : ℕ} (hs : Inv c s) (hpc : s.pc ⟨j, r⟩ = .search nrun)
    (habsent : s.dirs (nrun + 1) = .absent) (hr : r < c.nrank j)
    (hm : (s.pc ⟨j, 0⟩).runid = some m) :
    nrun + 1 = m ∨ s.dirs m ≠ .absent ∧ s.dirs m ≠ .made j := by
  by_cases hfree : s.dirs m = .absent
  · exact Or.inl (first_absent_unique (Nat.succ_pos nrun) (hs.pos _ m hm)
      (fun k hpos hk => hs.seen _ nrun hpc k hpos (Nat.le_of_lt_succ hk)) (hs.below _ m hm)
      habsent hfree)
  · refine Or.inr ⟨hfree, fun hmade => ?_⟩
    have hdone := (hs.made j m hmade r hr).1
    simp [hpc, Pc.phase] at hdone

theorem settle_agree (hs : Inv c s) (hpc : s.pc p = .search nrun)
    (habsent : s.dirs (nrun + 1) = .absent) (j : J) (r m n : ℕ) (hr : r < c.nrank j)
    (hm : ((s.goto p (.settled (nrun + 1))).pc ⟨j, 0⟩).runid = some m)
    (hn : ((s.goto p (.settled (nrun + 1))).pc ⟨j, r⟩).runid = some n) :
    n = m ∨ s.dirs m ≠ .absent ∧ s.dirs m ≠ .made j := by
  rcases runid_settle _ m hm with ⟨hzero, rfl⟩ | hm
  · rcases runid_settle _ n hn with ⟨-, rfl⟩ | hn
    · exact Or.inl rfl
    · exact Or.inl (agree_of_first hs (by rw [hzero, hpc]) habsent hr hn)
  · rcases runid_settle _ n hn with ⟨hmover, rfl⟩ | hn
    · exact agree_of_later hs (by rw [hmover, hpc]) habsent hr hm
    · exact hs.agree j r m n hr hm hn

theorem settle_made (hs : Inv c s) (hpc : s.pc p = .search nrun) (j : J) (n : ℕ)
    (hn : s.dirs n = .made j) (r : ℕ) (hr : r < c.nrank j) :
    3 ≤ ((s.goto p (.settled (nrun + 1))).pc ⟨j, r⟩).phase ∧
      ∀ m, ((s.goto p (.settled (nrun + 1))).pc ⟨j, r⟩).runid = some m → m = n := by
  obtain ⟨hdone, hsame⟩ := hs.made j n hn r hr
  refine ⟨Nat.le_trans hdone (phase_settle hpc _), fun m hm => ?_⟩
  rcases runid_settle _ m hm with ⟨hmover, -⟩ | hold
  · simp [hmover, hpc, Pc.phase] at hdone
  · exact hsame m hold

/-- Choosing the first number found free keeps the invariant. -/
theorem inv_settle (hs : Inv c s) (hpc : s.pc p = .search nrun)
    (habsent : s.dirs (nrun + 1) = .absent) : Inv c (s.goto p (.settled (nrun + 1))) where
  pos := by
    intro q n hn
    rcases runid_settle q n hn with ⟨-, rfl⟩ | hold
    · exact Nat.succ_pos nrun
    · exact hs.pos q n hold
  below := by
    intro q n hn
    rcases runid_settle q n hn with ⟨-, rfl⟩ | hold
    · exact fun m hpos hm => hs.seen p nrun hpc m hpos (Nat.le_of_lt_succ hm)
    · exact hs.below q n hold
  seen := by
    intro q k hq
    rcases pc_of_goto hq with ⟨-, hsettled⟩ | hold
    · cases hsettled
    · exact hs.seen q k hold
  entered := fun q hq => Nat.le_trans (hs.entered q hq) (phase_settle hpc q)
  beyond := by
    intro q hq r hr
    rw [pc_goto] at hq
    split at hq
    case isTrue => simp [Pc.phase] at hq
    case isFalse => exact Nat.le_trans (hs.beyond q hq r hr) (phase_settle hpc _)
  mkfile := by
    intro q n hq
    rcases pc_of_goto hq with ⟨-, hsettled⟩ | hold
    · cases hsettled
    · exact hs.mkfile q n hold
  unmade := fun j hj => hs.unmade j (Nat.le_trans (phase_settle hpc _) hj)
  ahead := by
    intro j r n hr hne hzero hn
    rcases runid_settle _ n hn with ⟨-, rfl⟩ | hold
    · exact habsent
    · exact hs.ahead j r n hr hne (Nat.le_trans (phase_settle hpc _) hzero) hold
  agree := settle_agree hs hpc habsent
  made := settle_made hs hpc
  own := by
    intro q hq
    rw [pc_goto] at hq
    split at hq
    case isTrue => simp [Pc.phase] at hq
    case isFalse => exact hs.own q hq
  flight := hs.flight

end Settle

/-! ### Creating the run directory -/

section Make

variable {s : State J H} {j₀ : J} {n : ℕ}

omit [DecidableEq J] in
theorem present_make {m : ℕ} (hm : s.dirs m ≠ .absent) :
    Function.update s.dirs n (.made j₀) m ≠ .absent := by
  by_cases heq : m = n
  · simp [heq]
  · rwa [Function.update_of_ne heq]

omit [DecidableEq J] in
theorem of_made {j : J} {m : ℕ} (hm : Function.update s.dirs n (.made j₀) m = .made j) :
    (m = n ∧ j = j₀) ∨ s.dirs m = .made j := by
  by_cases heq : m = n
  · subst heq
    rw [Function.update_self] at hm
    exact Or.inl ⟨rfl, (Dir.made.inj hm).symm⟩
  · rw [Function.update_of_ne heq] at hm
    exact Or.inr hm

omit [DecidableEq J] in
theorem made_make {j : J} (habsent : s.dirs n = .absent) (h : ∃ m, s.dirs m = .made j) :
    ∃ m, Function.update s.dirs n (.made j₀) m = .made j := by
  obtain ⟨m, hm⟩ := h
  refine ⟨m, ?_⟩
  rw [Function.update_of_ne]
  · exact hm
  · rintro rfl
    rw [habsent] at hm
    cases hm

theorem runid_make (hpc : s.pc ⟨j₀, 0⟩ = .mkfile n) (q : Proc J) (m : ℕ)
    (hm : ((s.goto ⟨j₀, 0⟩ (.mkhost n)).pc q).runid = some m) : (s.pc q).runid = some m := by
  rw [pc_goto] at hm
  split at hm
  case isTrue heq => rw [heq, hpc]; exact hm
  case isFalse => exact hm

theorem phase_make (hpc : s.pc ⟨j₀, 0⟩ = .mkfile n) (q : Proc J) :
    (s.pc q).phase ≤ ((s.goto ⟨j₀, 0⟩ (.mkhost n)).pc q).phase :=
  phase_goto (by simp [hpc, Pc.phase]) q

theorem make_beyond (hs : Inv c s) (hpc : s.pc ⟨j₀, 0⟩ = .mkfile n) (q : Proc J)
    (hq : ((s.goto ⟨j₀, 0⟩ (.mkhost n)).pc q).phase = 5 ∨
      ((s.goto ⟨j₀, 0⟩ (.mkhost n)).pc q).phase = 6) (r : ℕ) (hr : r < c.nrank q.job) :
    3 ≤ ((s.goto ⟨j₀, 0⟩ (.mkhost n)).pc ⟨q.job, r⟩).phase := by
  refine Nat.le_trans ?_ (phase_make hpc _)
  rw [pc_goto] at hq
  split at hq
  case isTrue heq =>
    subst heq
    exact hs.beyond ⟨j₀, 0⟩ (Or.inl (by rw [hpc]; rfl)) r hr
  case isFalse => exact hs.beyond q hq r hr

/-- The one part of the invariant that needs the step to be clean. -/
theorem make_ahead (hs : Inv c s) (hpc : s.pc ⟨j₀, 0⟩ = .mkfile n)
    (hclean : ∀ j r, r ≠ 0 → r < c.nrank j → (s.pc ⟨j, r⟩).runid = some n →
      2 < (s.pc ⟨j, 0⟩).phase) (j : J) (r m : ℕ) (hr : r < c.nrank j) (hne : r ≠ 0)
    (hsearching : ((s.goto ⟨j₀, 0⟩ (.mkhost n)).pc ⟨j, 0⟩).phase ≤ 2)
    (hm : ((s.goto ⟨j₀, 0⟩ (.mkhost n)).pc ⟨j, r⟩).runid = some m) :
    Function.update s.dirs n (.made j₀) m = .absent := by
  have hzero : (s.pc ⟨j, 0⟩).phase ≤ 2 := Nat.le_trans (phase_make hpc _) hsearching
  have hfree := hs.ahead j r m hr hne hzero (runid_make hpc _ m hm)
  by_cases heq : m = n
  · subst heq
    exact absurd hzero (Nat.not_le_of_lt (hclean j r hne hr (runid_make hpc _ m hm)))
  · rw [Function.update_of_ne heq, hfree]

theorem make_agree (hs : Inv c s) (hpc : s.pc ⟨j₀, 0⟩ = .mkfile n)
    (habsent : s.dirs n = .absent) (j : J) (r m k : ℕ) (hr : r < c.nrank j)
    (hm : ((s.goto ⟨j₀, 0⟩ (.mkhost n)).pc ⟨j, 0⟩).runid = some m)
    (hk : ((s.goto ⟨j₀, 0⟩ (.mkhost n)).pc ⟨j, r⟩).runid = some k) :
    k = m ∨ Function.update s.dirs n (.made j₀) m ≠ .absent ∧
      Function.update s.dirs n (.made j₀) m ≠ .made j := by
  rcases hs.agree j r m k hr (runid_make hpc _ m hm) (runid_make hpc _ k hk) with
    heq | ⟨htaken, hother⟩
  · exact Or.inl heq
  · refine Or.inr ⟨present_make htaken, fun hnew => ?_⟩
    rcases of_made hnew with ⟨rfl, -⟩ | hold
    · exact htaken habsent
    · exact hother hold

theorem make_made (hs : Inv c s) (hpc : s.pc ⟨j₀, 0⟩ = .mkfile n)
    (habsent : s.dirs n = .absent) (j : J) (m : ℕ)
    (hm : Function.update s.dirs n (.made j₀) m = .made j) (r : ℕ) (hr : r < c.nrank j) :
    3 ≤ ((s.goto ⟨j₀, 0⟩ (.mkhost n)).pc ⟨j, r⟩).phase ∧
      ∀ k, ((s.goto ⟨j₀, 0⟩ (.mkhost n)).pc ⟨j, r⟩).runid = some k → k = m := by
  rcases of_made hm with ⟨rfl, rfl⟩ | hold
  · have hdone := hs.beyond ⟨j, 0⟩ (Or.inl (by rw [hpc]; rfl)) r hr
    refine ⟨Nat.le_trans hdone (phase_make hpc _), fun k hk => ?_⟩
    rcases hs.agree j r m k hr (by rw [hpc]; rfl) (runid_make hpc _ k hk) with heq | ⟨htaken, -⟩
    · exact heq
    · exact absurd habsent htaken
  · obtain ⟨hdone, hsame⟩ := hs.made j m hold r hr
    exact ⟨Nat.le_trans hdone (phase_make hpc _), fun k hk => hsame k (runid_make hpc _ k hk)⟩

/-- Creating the run directory keeps the invariant, if the step is clean. -/
theorem inv_make (hs : Inv c s) (hpc : s.pc ⟨j₀, 0⟩ = .mkfile n) (habsent : s.dirs n = .absent)
    (hclean : ∀ j r, r ≠ 0 → r < c.nrank j → (s.pc ⟨j, r⟩).runid = some n →
      2 < (s.pc ⟨j, 0⟩).phase) :
    Inv c { s.goto ⟨j₀, 0⟩ (.mkhost n) with dirs := Function.update s.dirs n (.made j₀) } where
  pos := fun q m hm => hs.pos q m (runid_make hpc q m hm)
  below := fun q m hm k hpos hk =>
    present_make (hs.below q m (runid_make hpc q m hm) k hpos hk)
  seen := by
    intro q k hq m hpos hm
    rcases pc_of_goto hq with ⟨-, hmkhost⟩ | hold
    · cases hmkhost
    · exact present_make (hs.seen q k hold m hpos hm)
  entered := fun q hq => Nat.le_trans (hs.entered q hq) (phase_make hpc q)
  beyond := make_beyond hs hpc
  mkfile := by
    intro q m hq
    rcases pc_of_goto hq with ⟨-, hmkhost⟩ | hold
    · cases hmkhost
    · exact hs.mkfile q m hold
  unmade := by
    intro j hj m hm
    rcases of_made hm with ⟨-, rfl⟩ | hold
    · rw [pc_goto, if_pos rfl] at hj
      simp [Pc.phase] at hj
    · exact hs.unmade j (Nat.le_trans (phase_make hpc _) hj) m hold
  ahead := make_ahead hs hpc hclean
  agree := make_agree hs hpc habsent
  made := make_made hs hpc habsent
  own := by
    intro q hq
    rw [pc_goto] at hq
    split at hq
    case isTrue heq =>
      subst heq
      exact ⟨n, Function.update_self ..⟩
    case isFalse => exact made_make habsent (hs.own q hq)
  flight := fun q hq => made_make habsent (hs.flight q hq)

end Make

end Invariant

/-- The step lemma: a clean step keeps the invariant. -/
theorem inv_step {s t : State J H} {e : Event J} (hs : Inv c s) (hclean : Clean c s e)
    (hstep : step c s e = some t) : Inv c t := by
  obtain ⟨hrank, heffect, hfails⟩ := step_effect hstep
  cases hfail : e.fails with
  | true => exact inv_quiet hs hrank (hfails hfail)
  | false =>
      cases heffect with
      | quiet h => exact inv_quiet hs hrank h
      | settle nrun hpc habsent ht =>
          rw [ht]
          exact inv_settle hs hpc habsent
      | make n hpc habsent ht =>
          have hsettled := hclean n hpc hfail habsent
          obtain ⟨⟨j, r⟩, fails⟩ := e
          obtain rfl : r = 0 := hs.mkfile ⟨j, r⟩ n hpc
          rw [ht]
          exact inv_make hs hpc habsent hsettled

omit [DecidableEq J] [DecidableEq H] in
theorem agreed_of_inv {s : State J H} (hs : Inv c s) : Agreed c s := by
  have hcreated : ∀ (p : Proc J) (n : ℕ), p.rank < c.nrank p.job → s.pc p = .finished n →
      s.dirs n = .made p.job := by
    intro p n hrank hp
    obtain ⟨m, hm⟩ := hs.own p (by rw [hp]; rfl)
    obtain rfl : n = m := (hs.made p.job m hm p.rank hrank).2 n (by rw [hp]; rfl)
    exact hm
  refine ⟨hcreated, ?_, ?_⟩
  · intro p q n m hprank hqrank hjob hp hq
    have hm : s.dirs m = .made p.job := by
      rw [hjob]
      exact hcreated q m hqrank hq
    exact (hs.made p.job m hm p.rank hprank).2 n (by rw [hp]; rfl)
  · intro p q n hprank hqrank hp hq
    have hn := hcreated p n hprank hp
    rw [hcreated q n hqrank hq] at hn
    exact (Dir.made.inj hn).symm

/-- **Run-directory agreement and exclusivity.** In every run of any jobs whose steps
are all clean, the ranks that have completed the initialisation agree with their job
and with nobody else. -/
theorem agreed_of_clean_run (c : Jobs J H) (existing : ℕ → Bool) (hosts : ℕ → H → Bool)
    (events : List (Event J)) (s : State J H)
    (hclean : Runs.EveryStep (step c) (Clean c) (initial existing hosts) events)
    (hrun : Runs.run (step c) (initial existing hosts) events = some s) : Agreed c s :=
  agreed_of_inv (Runs.EveryStep.run_invariant (Inv c) (fun _ _ _ => inv_step) events _ s
    (inv_initial existing hosts) hclean hrun)

/-- The process of a job and rank takes its next step. -/
def turn {J : Type uJ} (job : J) (rank : ℕ) : Event J := ⟨⟨job, rank⟩, false⟩

/-- An MPI job of two ranks and a serial process on one host. -/
def mixedJobs : Jobs Bool Unit where
  mpi := fun j => j
  nrank := fun j => if j then 2 else 1
  host := fun _ => ()
  nrank_serial := by decide

/-- Only a directory that rank 1 of the MPI job has settled on matters. -/
def mixedClean (s : State Bool Unit) (e : Event Bool) : Bool :=
  match s.pc e.proc with
  | .mkfile n => (s.pc ⟨true, 1⟩).runid != some n || decide (2 < (s.pc ⟨true, 0⟩).phase)
  | _ => true

theorem clean_of_mixedClean {s : State Bool Unit} {e : Event Bool} (h : mixedClean s e = true) :
    Clean mixedJobs s e := by
  intro n hpc _ _ j r hne hrank hrunid
  cases j with
  | false => exact absurd (Nat.lt_one_iff.mp hrank) hne
  | true =>
      obtain rfl : r = 1 :=
        Nat.le_antisymm (Nat.le_of_lt_succ hrank) (Nat.one_le_iff_ne_zero.mpr hne)
      simpa [mixedClean, hpc, hrunid] using h

/-- Both ranks of the MPI job settle on `run_1` and rank 0 creates it, before the serial process
comes. -/
def together : List (Event Bool) :=
  let a := turn true 0
  let b := turn true 1
  (List.replicate 5 [a, b]).flatten ++ [a] ++ List.replicate 8 (turn false 0) ++
    List.replicate 4 a ++ List.replicate 4 b ++ [a] ++ (List.replicate 8 [a, b, a, b]).flatten

theorem agreed_of_clean_run_together :
    ∃ s, Runs.run (step mixedJobs) (initial (fun _ => false) fun _ _ => false) together =
        some s ∧
      s.pc ⟨true, 0⟩ = .finished 1 ∧ s.pc ⟨true, 1⟩ = .finished 1 ∧
      s.pc ⟨false, 0⟩ = .finished 2 ∧ Agreed mixedJobs s := by
  have hend : (Runs.run (step mixedJobs) (initial (fun _ => false) fun _ _ => false) together).map
      (fun s => (s.pc ⟨true, 0⟩, s.pc ⟨true, 1⟩, s.pc ⟨false, 0⟩)) =
        some (.finished 1, .finished 1, .finished 2) := by
    decide +kernel
  have hchecked : Runs.EveryStep (step mixedJobs) (fun s e => mixedClean s e = true)
      (initial (fun _ => false) fun _ _ => false) together := by
    decide +kernel
  have hclean := hchecked.imp (fun _ => True)
    (fun _ _ _ h => ⟨clean_of_mixedClean h, fun _ _ => trivial⟩) together _ trivial
  obtain ⟨s, hrun, hpc⟩ := Option.map_eq_some_iff.mp hend
  obtain ⟨hzero, hrest⟩ := Prod.mk.inj hpc
  obtain ⟨hone, hserial⟩ := Prod.mk.inj hrest
  exact ⟨s, hrun, hzero, hone, hserial, agreed_of_clean_run mixedJobs (fun _ => false)
    (fun _ _ => false) together s hclean hrun⟩

/-- Rank 1 of the MPI job settles on `run_1`, the serial process creates it and
completes, and rank 0 comes to search after that. -/
def overtaken : List (Event Bool) :=
  let a := turn true 0
  let b := turn true 1
  [a, b, a, b, b] ++ List.replicate 7 (turn false 0) ++ [a, a, a, b, a, b] ++
    List.replicate 5 a ++ List.replicate 4 b ++ [a] ++ (List.replicate 8 [a, b, a, b]).flatten

theorem overtaken_end :
    (Runs.run (step mixedJobs) (initial (fun _ => false) fun _ _ => false) overtaken).map
        (fun s => (s.pc ⟨true, 0⟩, s.pc ⟨true, 1⟩, s.pc ⟨false, 0⟩, s.dirs 1, s.dirs 2)) =
      some (.finished 2, .finished 1, .finished 1, .made false, .made true) := by
  decide +kernel

/-- All three processes complete; the ranks of the MPI job disagree, and one of them
shares its directory with the serial process. -/
theorem overtaken_not_agreed :
    ∃ s, Runs.run (step mixedJobs) (initial (fun _ => false) fun _ _ => false) overtaken =
        some s ∧
      s.pc ⟨true, 0⟩ = .finished 2 ∧ s.pc ⟨true, 1⟩ = .finished 1 ∧
      s.pc ⟨false, 0⟩ = .finished 1 ∧ ¬ Agreed mixedJobs s := by
  obtain ⟨s, hrun, hend⟩ := Option.map_eq_some_iff.mp overtaken_end
  simp only [Prod.mk.injEq] at hend
  obtain ⟨hzero, hone, hserial, -, -⟩ := hend
  refine ⟨s, hrun, hzero, hone, hserial, fun hagreed => ?_⟩
  have hsame : 2 = 1 := hagreed.same ⟨true, 0⟩ ⟨true, 1⟩ 2 1 (by decide) (by decide) rfl hzero hone
  exact absurd hsame (by decide)

/-! ## What an unclean step leads to -/

/-- Rank `r` has settled on `n`, or has given up since; `run_<n>` is there; and rank 0
has not settled on it. -/
structure Split (s : State J H) (j : J) (r n : ℕ) : Prop where
  taken : s.dirs n ≠ .absent
  zero : (s.pc ⟨j, 0⟩).runid ≠ some n
  other : (s.pc ⟨j, r⟩).runid = some n ∨ s.pc ⟨j, r⟩ = .exited

namespace Split

variable {s t : State J H} {p : Proc J} {j : J} {r n : ℕ}

omit [DecidableEq H] in
theorem quiet (hs : Split s j r n) (h : Quiet c s t p) : Split t j r n := by
  refine ⟨by rw [h.dirs]; exact hs.taken, ?_, ?_⟩
  · by_cases heq : (⟨j, 0⟩ : Proc J) = p
    · intro hn
      rw [heq] at hn
      exact hs.zero (by rw [heq]; exact h.runid_of_some hn)
    · rw [(h.other _ heq).1]
      exact hs.zero
  · by_cases heq : (⟨j, r⟩ : Proc J) = p
    · rw [heq]
      rcases hs.other with hold | hexited
      · exact h.runid.imp_left fun hsame => by rw [hsame, ← heq, hold]
      · have hphase := h.phase
        rw [← heq, hexited] at hphase
        rw [← heq]
        exact Or.inr (Pc.eq_exited hphase)
    · rw [(h.other _ heq).1]
      exact hs.other

omit [DecidableEq H] in
theorem settle {nrun : ℕ} (hs : Split s j r n) (hpc : s.pc p = .search nrun)
    (habsent : s.dirs (nrun + 1) = .absent) :
    Split (s.goto p (.settled (nrun + 1))) j r n := by
  refine ⟨hs.taken, ?_, ?_⟩
  · rw [pc_goto]
    split
    case isTrue =>
      intro hn
      -- rank 0 never settles on a number that is taken
      obtain rfl : nrun + 1 = n := Option.some.inj hn
      exact hs.taken habsent
    case isFalse => exact hs.zero
  · rw [pc_goto]
    split
    case isTrue heq =>
      rcases hs.other with hold | hexited
      · rw [heq, hpc] at hold
        cases hold
      · rw [heq, hpc] at hexited
        cases hexited
    case isFalse => exact hs.other

omit [DecidableEq H] in
theorem make {m : ℕ} (hs : Split s j r n) (hpc : s.pc p = .mkfile m)
    (habsent : s.dirs m = .absent) :
    Split { s.goto p (.mkhost m) with dirs := Function.update s.dirs m (.made p.job) } j r n := by
  have hne : n ≠ m := fun heq => hs.taken (by rw [heq, habsent])
  refine ⟨?_, ?_, ?_⟩
  · show Function.update s.dirs m _ n ≠ .absent
    rw [Function.update_of_ne hne]
    exact hs.taken
  · rw [pc_goto]
    split
    case isTrue heq =>
      intro hn
      exact hs.zero (by rw [heq, hpc]; exact hn)
    case isFalse => exact hs.zero
  · rw [pc_goto]
    split
    case isTrue heq =>
      rcases hs.other with hold | hexited
      · rw [heq, hpc] at hold
        exact Or.inl hold
      · rw [heq, hpc] at hexited
        cases hexited
    case isFalse => exact hs.other

end Split

theorem split_step {s t : State J H} {e : Event J} {j : J} {r n : ℕ} (hs : Split s j r n)
    (hstep : step c s e = some t) : Split t j r n := by
  obtain ⟨-, heffect, -⟩ := step_effect hstep
  cases heffect with
  | quiet h => exact hs.quiet h
  | settle nrun hpc habsent ht =>
      rw [ht]
      exact hs.settle hpc habsent
  | make m hpc habsent ht =>
      rw [ht]
      exact hs.make hpc habsent

/-- After a step that is not clean, some other rank and rank 0 of a job never complete
the initialisation with the same run directory, however the run goes on. -/
theorem disagree_of_unclean {s t u : State J H} {e : Event J} {events : List (Event J)}
    (hunclean : ¬ Clean c s e) (hstep : step c s e = some t)
    (hrun : Runs.run (step c) t events = some u) :
    ∃ j r, r ≠ 0 ∧ r < c.nrank j ∧
      ∀ m, u.pc ⟨j, 0⟩ = .finished m → u.pc ⟨j, r⟩ ≠ .finished m := by
  simp only [Clean, not_forall, Nat.not_lt] at hunclean
  obtain ⟨n, hpc, hfails, habsent, j, r, hne, hrank, hsettled, hsearching⟩ := hunclean
  have hmade : t = { s.goto e.proc (.mkhost n) with
      dirs := Function.update s.dirs n (.made e.proc.job) } := by
    simp only [step, hfails, advance, hpc, habsent, Option.ite_none_right_eq_some] at hstep
    exact (Option.some.inj hstep.2).symm
  have hzero : (⟨j, 0⟩ : Proc J) ≠ e.proc := by
    intro heq
    rw [heq, hpc] at hsearching
    simp [Pc.phase] at hsearching
  have hsplit : Split t j r n := by
    subst hmade
    refine ⟨?_, ?_, Or.inl ?_⟩
    · show Function.update s.dirs n _ n ≠ .absent
      simp
    · rw [pc_goto, if_neg hzero, Pc.runid_of_searching hsearching]
      simp
    · rw [pc_goto]
      split
      case isTrue => rfl
      case isFalse => exact hsettled
  have hend : Split u j r n := Runs.run_invariant (fun s => Split s j r n) (fun _ => True)
    (fun _ _ _ hs _ hone => split_step hs hone) events t u hsplit (fun _ _ => trivial) hrun
  refine ⟨j, r, hne, hrank, fun m hm hmr => ?_⟩
  rcases hend.other with hsame | hexited
  · rw [hmr] at hsame
    exact hend.zero (by rw [hm]; exact hsame)
  · rw [hmr] at hexited
    cases hexited

end RunDir

end PerfHound
