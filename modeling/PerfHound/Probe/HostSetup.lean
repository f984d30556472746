/-
# Host directories and the rank map of one MPI job

The steps of `phmpi_init` are those of `RunDir`, here of a single job none of whose calls
fails. Added is what the ranks write to `rankmap.csv` of the run directory: rank 0 creates
the file with its header in `ph_io_mkfile`, and each rank appends its row in
`ph_io_wtrankmap`. Nothing guards the file but the order in which the ranks come to it:
a rank begins only when all the ranks below are through (`Inv.below`).
-/

import Mathlib.Data.Int.Notation
import PerfHound.Probe.RunDir

namespace PerfHound

open Lib

namespace HostSetup

universe uH

/-- A row of `rankmap.csv`: rank, hostname, cpu, hosthead and iorank. -/
structure RankRow (H : Type uH) where
  rank : ℕ
  hostname : H
  cpu : ℤ
  hosthead : ℕ
  iorank : ℕ
  deriving DecidableEq, Repr

/-- A line of `rankmap.csv`. -/
inductive Line (H : Type uH)
  | header
  | row (r : RankRow H)
  deriving DecidableEq, Repr

/-- The job, and `rankmap.csv` of each run directory. -/
structure State (H : Type uH) where
  base : RunDir.State Unit H
  rankmap : ℕ → List (Line H)

variable {H : Type uH}

/-- Where a rank is. -/
def State.pc (s : State H) (r : ℕ) : RunDir.Pc := s.base.pc ⟨(), r⟩

variable (nrank : ℕ) (host : ℕ → H) (cpu : ℕ → ℤ)

/-- One job that calls `phmpi_init`. -/
def job : RunDir.Jobs Unit H where
  mpi := fun _ => true
  nrank := fun _ => nrank
  host := fun p => host p.rank
  nrank_serial := fun _ h => by cases h

/-- The row of a rank, as `ph_mpi_rank_init` has set it. -/
def rankRow (r : ℕ) : RankRow H := ⟨r, host r, cpu r, 0, r⟩

/-- What the next step of a rank does to `rankmap.csv`. -/
def wtRankmap (s : State H) (r : ℕ) : ℕ → List (Line H) :=
  match s.pc r with
  | .mkfile n =>
      if s.base.dirs n = .absent then Function.update s.rankmap n [.header] else s.rankmap
  | .wtrankmap n =>
      if s.base.dirs n = .absent then s.rankmap
      else Function.update s.rankmap n (s.rankmap n ++ [.row (rankRow host cpu r)])
  | _ => s.rankmap

/-- A rank takes its next step. -/
def step [DecidableEq H] (s : State H) (r : ℕ) : Option (State H) :=
  (RunDir.step (job nrank host) s.base (RunDir.turn () r)).map fun base =>
    { base, rankmap := wtRankmap host cpu s r }

/-- All ranks at their start, on any data root. -/
def initial (existing : ℕ → Bool) (hosts : ℕ → H → Bool) (rankmap : ℕ → List (Line H)) :
    State H where
  base := RunDir.initial existing hosts
  rankmap := rankmap

/-- From entering `ph_io_mkhost` until returning from `ph_io_wtrankmap`. -/
def InHost : RunDir.Pc → Prop
  | .mkhost _ => True
  | .mkhostdir _ => True
  | .wtrankmap _ => True
  | _ => False

/-- Rank 0 has completed `ph_io_mkfile`. -/
def Made : RunDir.Pc → Prop
  | .mkhost _ => True
  | .mkhostdir _ => True
  | .wtrankmap _ => True
  | .send _ => True
  | .recvRing _ => True
  | .atBarrier _ _ => True
  | .inBarrier _ _ => True
  | .finished _ => True
  | _ => False

/-- The rank has returned from `ph_mpi_mkhost`. -/
def Returned : RunDir.Pc → Prop
  | .atBarrier _ _ => True
  | .inBarrier _ _ => True
  | .finished _ => True
  | _ => False

/-! ## How far a rank has come -/

/-- 0 before `ph_io_mkhost`, 1 until the row is written, 2 until the message is sent, and
3 after that. -/
def stage : RunDir.Pc → ℕ
  | .mkhost _ => 1
  | .mkhostdir _ => 1
  | .wtrankmap _ => 1
  | .exited => 1
  | .send _ => 2
  | .recvRing _ => 3
  | .atBarrier _ _ => 3
  | .inBarrier _ _ => 3
  | .finished _ => 3
  | _ => 0

/-- What holds in every state of a run. -/
structure Inv (s : State H) : Prop where
  base : RunDir.Inv (job nrank host) s.base
  recvHost : ∀ r n, s.pc r = .recvHost n → r ≠ 0
  /-- A rank begins when the rank below is through. -/
  chain : ∀ r, r + 1 < nrank → 1 ≤ stage (s.pc (r + 1)) → stage (s.pc r) = 3
  flight : ∀ r, s.base.flight ⟨(), r⟩ = true →
    stage (s.pc r) = 3 ∧ (r + 1 < nrank → stage (s.pc (r + 1)) = 0)
  /-- The file has the rows of the ranks that have written theirs. -/
  rows : ∀ n, s.base.dirs n = .made () → ∃ k ≤ nrank,
    s.rankmap n = .header :: (List.range k).map (fun r => .row (rankRow host cpu r)) ∧
      ∀ r < nrank, s.pc r ≠ .exited → (r < k ↔ 2 ≤ stage (s.pc r))

variable {nrank host cpu}

/-! ## What a step does -/

/-- The moving rank is at `pc` afterwards, and the rest is as given. -/
structure Moved (s t : State H) (r : ℕ) (pc : RunDir.Pc) (flight : RunDir.Proc Unit → Bool)
    (dirs : ℕ → RunDir.Dir Unit) (rankmap : ℕ → List (Line H)) : Prop where
  pc : t.base.pc = Function.update s.base.pc ⟨(), r⟩ pc
  flight : t.base.flight = flight
  dirs : t.base.dirs = dirs
  rankmap : t.rankmap = rankmap

/-- What a rank does at its program counter. -/
inductive Effect (nrank : ℕ) (host : ℕ → H) (cpu : ℕ → ℤ) (s t : State H) (r : ℕ) : Prop
  | quiet (pc : RunDir.Pc) (flight : RunDir.Proc Unit → Bool)
      (hmoved : Moved s t r pc flight s.base.dirs s.rankmap)
      (hflight : ∀ q, flight q = true → s.base.flight q = true)
      (hstage : stage pc = stage (s.pc r)) (hlive : s.pc r ≠ .exited)
      (hrecv : ∀ n, pc = .recvHost n → r ≠ 0)
  | quit (hmoved : Moved s t r .exited s.base.flight s.base.dirs s.rankmap)
      (hstage : stage (s.pc r) ≠ 3) (hfirst : stage (s.pc r) = 0 → r = 0)
      (halone : stage (s.pc r) = 2 → nrank = 1)
  | make (n : ℕ) (hpc : s.pc r = .mkfile n) (habsent : s.base.dirs n = .absent)
      (hmoved : Moved s t r (.mkhost n) s.base.flight
        (Function.update s.base.dirs n (.made ())) (Function.update s.rankmap n [.header]))
  | take (n : ℕ) (hpc : s.pc r = .recvHost n) (hflight : s.base.flight ⟨(), r - 1⟩ = true)
      (hmoved : Moved s t r (.mkhost n) (Function.update s.base.flight ⟨(), r - 1⟩ false)
        s.base.dirs s.rankmap)
  | write (n : ℕ) (hpc : s.pc r = .wtrankmap n) (hdir : s.base.dirs n ≠ .absent)
      (hmoved : Moved s t r (.send n) s.base.flight s.base.dirs
        (Function.update s.rankmap n (s.rankmap n ++ [.row (rankRow host cpu r)])))
  | pass (n : ℕ) (pc : RunDir.Pc) (hpc : s.pc r = .send n) (hstage : stage pc = 3)
      (hmoved : Moved s t r pc (Function.update s.base.flight ⟨(), r⟩ true) s.base.dirs
        s.rankmap)

namespace Moved

variable {s t : State H} {r : ℕ} {pc : RunDir.Pc} {flight : RunDir.Proc Unit → Bool}
  {dirs : ℕ → RunDir.Dir Unit} {rankmap : ℕ → List (Line H)}

theorem pc_self (h : Moved s t r pc flight dirs rankmap) : t.pc r = pc := by
  rw [State.pc, h.pc]
  exact Function.update_self ..

theorem pc_of_ne (h : Moved s t r pc flight dirs rankmap) {q : ℕ} (hne : q ≠ r) :
    t.pc q = s.pc q := by
  rw [State.pc, h.pc]
  exact Function.update_of_ne (fun heq => hne (congrArg RunDir.Proc.rank heq)) ..

end Moved

theorem State.base_pc (s : State H) (r : ℕ) : s.base.pc ⟨(), r⟩ = s.pc r := rfl

/-- Only `ph_io_mkfile` and `ph_io_wtrankmap` write to the file. -/
theorem wtRankmap_of_ne {s : State H} {r : ℕ} (hmkfile : ∀ n, s.pc r ≠ .mkfile n)
    (hwt : ∀ n, s.pc r ≠ .wtrankmap n) : wtRankmap host cpu s r = s.rankmap := by
  rw [wtRankmap]
  split
  case h_1 n hpc => exact absurd hpc (hmkfile n)
  case h_2 n hpc => exact absurd hpc (hwt n)
  case h_3 => rfl

variable [DecidableEq H]

section Advance

variable {s : State H} {base : RunDir.State Unit H} {r n : ℕ}

theorem effect_start (hpc : s.pc r = .start)
    (hadvance : RunDir.advance (job nrank host) s.base ⟨(), r⟩ = some base) :
    Effect nrank host cpu s ⟨base, wtRankmap host cpu s r⟩ r := by
  simp only [RunDir.advance, State.base_pc, hpc, job, if_true, Option.some.injEq] at hadvance
  subst hadvance
  refine .quiet .inBarrier1 _ ⟨rfl, rfl, rfl, wtRankmap_of_ne ?_ ?_⟩ (fun _ => id) ?_ ?_ ?_
  all_goals simp [hpc, stage]

theorem effect_inBarrier1 (hpc : s.pc r = .inBarrier1)
    (hadvance : RunDir.advance (job nrank host) s.base ⟨(), r⟩ = some base) :
    Effect nrank host cpu s ⟨base, wtRankmap host cpu s r⟩ r := by
  simp only [RunDir.advance, State.base_pc, hpc, Option.ite_none_right_eq_some,
    Option.some.injEq] at hadvance
  obtain ⟨-, rfl⟩ := hadvance
  refine .quiet (.search 0) _ ⟨rfl, rfl, rfl, wtRankmap_of_ne ?_ ?_⟩ (fun _ => id) ?_ ?_ ?_
  all_goals simp [hpc, stage]

theorem effect_search {nrun : ℕ} (hpc : s.pc r = .search nrun)
    (hadvance : RunDir.advance (job nrank host) s.base ⟨(), r⟩ = some base) :
    Effect nrank host cpu s ⟨base, wtRankmap host cpu s r⟩ r := by
  simp only [RunDir.advance, State.base_pc, hpc] at hadvance
  split at hadvance
  · obtain rfl := Option.some.inj hadvance
    refine .quiet (.settled (nrun + 1)) _ ⟨rfl, rfl, rfl, wtRankmap_of_ne ?_ ?_⟩
      (fun _ => id) ?_ ?_ ?_
    all_goals simp [hpc, stage]
  · obtain rfl := Option.some.inj hadvance
    refine .quiet (.search (nrun + 1)) _ ⟨rfl, rfl, rfl, wtRankmap_of_ne ?_ ?_⟩
      (fun _ => id) ?_ ?_ ?_
    all_goals simp [hpc, stage]

theorem effect_settled (hpc : s.pc r = .settled n)
    (hadvance : RunDir.advance (job nrank host) s.base ⟨(), r⟩ = some base) :
    Effect nrank host cpu s ⟨base, wtRankmap host cpu s r⟩ r := by
  simp only [RunDir.advance, State.base_pc, hpc, job, if_true, Option.some.injEq] at hadvance
  subst hadvance
  refine .quiet (.inBarrier2 n) _ ⟨rfl, rfl, rfl, wtRankmap_of_ne ?_ ?_⟩ (fun _ => id) ?_ ?_ ?_
  all_goals simp [hpc, stage]

theorem effect_inBarrier2 (hpc : s.pc r = .inBarrier2 n)
    (hadvance : RunDir.advance (job nrank host) s.base ⟨(), r⟩ = some base) :
    Effect nrank host cpu s ⟨base, wtRankmap host cpu s r⟩ r := by
  simp only [RunDir.advance, State.base_pc, hpc, Option.ite_none_right_eq_some,
    Option.some.injEq] at hadvance
  obtain ⟨-, rfl⟩ := hadvance
  refine .quiet _ _ ⟨rfl, rfl, rfl, wtRankmap_of_ne ?_ ?_⟩ (fun _ => id) ?_ ?_ ?_
  · simp [hpc]
  · simp [hpc]
  · rw [hpc]
    split <;> rfl
  · simp [hpc]
  · intro m hm hzero
    rw [if_pos hzero] at hm
    cases hm

theorem effect_mkfile (hbase : RunDir.Inv (job nrank host) s.base) (hpc : s.pc r = .mkfile n)
    (hadvance : RunDir.advance (job nrank host) s.base ⟨(), r⟩ = some base) :
    Effect nrank host cpu s ⟨base, wtRankmap host cpu s r⟩ r := by
  simp only [RunDir.advance, State.base_pc, hpc] at hadvance
  split at hadvance
  case isTrue habsent =>
    obtain rfl := Option.some.inj hadvance
    refine .make n hpc habsent ⟨rfl, rfl, rfl, ?_⟩
    simp only [wtRankmap, hpc, habsent, if_true]
  case isFalse hpresent =>
    obtain rfl := Option.some.inj hadvance
    refine .quit ⟨rfl, rfl, rfl, ?_⟩ ?_ ?_ ?_
    · simp only [wtRankmap, hpc, hpresent, if_false]
    · simp [hpc, stage]
    · exact fun _ => hbase.mkfile ⟨(), r⟩ n hpc
    · simp [hpc, stage]

theorem effect_recvHost (hpc : s.pc r = .recvHost n)
    (hadvance : RunDir.advance (job nrank host) s.base ⟨(), r⟩ = some base) :
    Effect nrank host cpu s ⟨base, wtRankmap host cpu s r⟩ r := by
  simp only [RunDir.advance, State.base_pc, hpc, Option.ite_none_right_eq_some,
    Option.some.injEq] at hadvance
  obtain ⟨hflight, rfl⟩ := hadvance
  refine .take n hpc hflight ⟨rfl, rfl, rfl, wtRankmap_of_ne ?_ ?_⟩
  all_goals simp [hpc]

theorem effect_mkhost (hpc : s.pc r = .mkhost n)
    (hadvance : RunDir.advance (job nrank host) s.base ⟨(), r⟩ = some base) :
    Effect nrank host cpu s ⟨base, wtRankmap host cpu s r⟩ r := by
  simp only [RunDir.advance, State.base_pc, hpc] at hadvance
  split at hadvance
  · obtain rfl := Option.some.inj hadvance
    refine .quiet (.wtrankmap n) _ ⟨rfl, rfl, rfl, wtRankmap_of_ne ?_ ?_⟩ (fun _ => id) ?_ ?_ ?_
    all_goals simp [hpc, stage]
  · obtain rfl := Option.some.inj hadvance
    refine .quiet (.mkhostdir n) _ ⟨rfl, rfl, rfl, wtRankmap_of_ne ?_ ?_⟩ (fun _ => id) ?_ ?_ ?_
    all_goals simp [hpc, stage]

theorem effect_mkhostdir (hpc : s.pc r = .mkhostdir n)
    (hadvance : RunDir.advance (job nrank host) s.base ⟨(), r⟩ = some base) :
    Effect nrank host cpu s ⟨base, wtRankmap host cpu s r⟩ r := by
  simp only [RunDir.advance, State.base_pc, hpc] at hadvance
  split at hadvance
  · obtain rfl := Option.some.inj hadvance
    refine .quit ⟨rfl, rfl, rfl, wtRankmap_of_ne ?_ ?_⟩ ?_ ?_ ?_
    all_goals simp [hpc, stage]
  · obtain rfl := Option.some.inj hadvance
    refine .quiet (.wtrankmap n) _ ⟨rfl, rfl, rfl, wtRankmap_of_ne ?_ ?_⟩ (fun _ => id) ?_ ?_ ?_
    all_goals simp [hpc, stage]

theorem effect_wtrankmap (hpc : s.pc r = .wtrankmap n)
    (hadvance : RunDir.advance (job nrank host) s.base ⟨(), r⟩ = some base) :
    Effect nrank host cpu s ⟨base, wtRankmap host cpu s r⟩ r := by
  simp only [RunDir.advance, State.base_pc, hpc] at hadvance
  split at hadvance
  case isTrue habsent =>
    obtain rfl := Option.some.inj hadvance
    refine .quit ⟨rfl, rfl, rfl, ?_⟩ ?_ ?_ ?_
    · simp only [wtRankmap, hpc, habsent, if_true]
    all_goals simp [hpc, stage]
  case isFalse hpresent =>
    obtain rfl := Option.some.inj hadvance
    refine .write n hpc hpresent ⟨rfl, rfl, rfl, ?_⟩
    simp only [wtRankmap, hpc, hpresent, if_false]

theorem effect_send (hpc : s.pc r = .send n)
    (hadvance : RunDir.advance (job nrank host) s.base ⟨(), r⟩ = some base) :
    Effect nrank host cpu s ⟨base, wtRankmap host cpu s r⟩ r := by
  simp only [RunDir.advance, State.base_pc, hpc] at hadvance
  split at hadvance
  case isTrue halone =>
    obtain rfl := Option.some.inj hadvance
    refine .quit ⟨rfl, rfl, rfl, wtRankmap_of_ne ?_ ?_⟩ ?_ ?_ (fun _ => halone)
    all_goals simp [hpc, stage]
  case isFalse =>
    obtain rfl := Option.some.inj hadvance
    refine .pass n _ hpc ?_ ⟨rfl, rfl, rfl, wtRankmap_of_ne ?_ ?_⟩
    · split <;> rfl
    all_goals simp [hpc]

theorem effect_recvRing (hpc : s.pc r = .recvRing n)
    (hadvance : RunDir.advance (job nrank host) s.base ⟨(), r⟩ = some base) :
    Effect nrank host cpu s ⟨base, wtRankmap host cpu s r⟩ r := by
  simp only [RunDir.advance, State.base_pc, hpc, Option.ite_none_right_eq_some,
    Option.some.injEq] at hadvance
  obtain ⟨-, rfl⟩ := hadvance
  refine .quiet (.atBarrier 3 n) _ ⟨rfl, rfl, rfl, wtRankmap_of_ne ?_ ?_⟩
    (fun _ => RunDir.flight_of_take) ?_ ?_ ?_
  all_goals simp [hpc, stage]

theorem effect_atBarrier {k : ℕ} (hpc : s.pc r = .atBarrier k n)
    (hadvance : RunDir.advance (job nrank host) s.base ⟨(), r⟩ = some base) :
    Effect nrank host cpu s ⟨base, wtRankmap host cpu s r⟩ r := by
  simp only [RunDir.advance, State.base_pc, hpc, Option.some.injEq] at hadvance
  subst hadvance
  refine .quiet (.inBarrier k n) _ ⟨rfl, rfl, rfl, wtRankmap_of_ne ?_ ?_⟩ (fun _ => id) ?_ ?_ ?_
  all_goals simp [hpc, stage]

theorem effect_inBarrier {k : ℕ} (hpc : s.pc r = .inBarrier k n)
    (hadvance : RunDir.advance (job nrank host) s.base ⟨(), r⟩ = some base) :
    Effect nrank host cpu s ⟨base, wtRankmap host cpu s r⟩ r := by
  simp only [RunDir.advance, State.base_pc, hpc, Option.ite_none_right_eq_some,
    Option.some.injEq] at hadvance
  obtain ⟨-, rfl⟩ := hadvance
  refine .quiet _ _ ⟨rfl, rfl, rfl, wtRankmap_of_ne ?_ ?_⟩ (fun _ => id) ?_ ?_ ?_
  · simp [hpc]
  · simp [hpc]
  · rw [hpc]
    split <;> rfl
  · simp [hpc]
  · intro m hm
    split at hm <;> cases hm

end Advance

/-- The inversion lemma of `step`. -/
theorem step_effect {s t : State H} {r : ℕ}
    (hbase : RunDir.Inv (job nrank host) s.base) (hstep : step nrank host cpu s r = some t) :
    r < nrank ∧ RunDir.step (job nrank host) s.base (RunDir.turn () r) = some t.base ∧
      Effect nrank host cpu s t r := by
  simp only [step, Option.map_eq_some_iff] at hstep
  obtain ⟨base, hrun, rfl⟩ := hstep
  have hrank : r < nrank := (RunDir.step_effect hrun).1
  refine ⟨hrank, hrun, ?_⟩
  have hadvance : RunDir.advance (job nrank host) s.base ⟨(), r⟩ = some base := by
    simpa [RunDir.step, RunDir.turn, job, hrank] using hrun
  cases hpc : s.pc r with
  | start => exact effect_start hpc hadvance
  | inBarrier1 => exact effect_inBarrier1 hpc hadvance
  | search nrun => exact effect_search hpc hadvance
  | settled n => exact effect_settled hpc hadvance
  | inBarrier2 n => exact effect_inBarrier2 hpc hadvance
  | mkfile n => exact effect_mkfile hbase hpc hadvance
  | recvHost n => exact effect_recvHost hpc hadvance
  | mkhost n => exact effect_mkhost hpc hadvance
  | mkhostdir n => exact effect_mkhostdir hpc hadvance
  | wtrankmap n => exact effect_wtrankmap hpc hadvance
  | send n => exact effect_send hpc hadvance
  | recvRing n => exact effect_recvRing hpc hadvance
  | atBarrier k n => exact effect_atBarrier hpc hadvance
  | inBarrier k n => exact effect_inBarrier hpc hadvance
  | finished n => simp [RunDir.advance, State.base_pc, hpc] at hadvance
  | exited => simp [RunDir.advance, State.base_pc, hpc] at hadvance

/-! ## The invariant -/

omit [DecidableEq H] in
theorem inv_initial (existing : ℕ → Bool) (hosts : ℕ → H → Bool) (rankmap : ℕ → List (Line H)) :
    Inv nrank host cpu (initial existing hosts rankmap) where
  base := RunDir.inv_initial existing hosts
  recvHost := by
    intro r n hpc
    cases hpc
  chain := by
    intro r _ hstage
    cases hstage
  flight := by
    intro r hflight
    cases hflight
  rows := by
    intro n hn
    cases hold : existing n <;> simp [initial, RunDir.initial, hold] at hn

omit [DecidableEq H] in
/-- All the ranks below one that has begun are through. -/
theorem Inv.below {s : State H} (hs : Inv nrank host cpu s) {r q : ℕ} (hlt : r < q)
    (hq : q < nrank) (hstage : 1 ≤ stage (s.pc q)) : stage (s.pc r) = 3 := by
  induction q with
  | zero => exact absurd hlt (Nat.not_lt_zero r)
  | succ q ih =>
      have hbelow := hs.chain q hq hstage
      rcases Nat.lt_succ_iff_lt_or_eq.mp hlt with hless | rfl
      · exact ih hless (Nat.lt_of_succ_lt hq) (by rw [hbelow]; decide)
      · exact hbelow

omit [DecidableEq H] in
/-- What a step does to the stages: only the moving rank's changes. It leaves 0 when the
rank below is through or there is none, and it never leaves 3. -/
theorem stage_step {s t : State H} {r : ℕ} (hs : Inv nrank host cpu s)
    (h : Effect nrank host cpu s t r) :
    (∀ q, q ≠ r → t.pc q = s.pc q) ∧ (stage (s.pc r) = 3 → stage (t.pc r) = 3) ∧
      (∀ q, q + 1 = r → stage (s.pc r) = 0 → 1 ≤ stage (t.pc r) → stage (s.pc q) = 3) := by
  cases h with
  | quiet pc flight hmoved hflight hstage hlive hrecv =>
      refine ⟨fun q => hmoved.pc_of_ne, ?_, ?_⟩
      · rw [hmoved.pc_self, hstage]
        exact id
      · intro q _ hzero hone
        rw [hmoved.pc_self, hstage, hzero] at hone
        exact absurd hone (Nat.not_succ_le_zero 0)
  | quit hmoved hstage hfirst halone =>
      refine ⟨fun q => hmoved.pc_of_ne, fun hthree => absurd hthree hstage, ?_⟩
      intro q hq hzero
      have hr := hfirst hzero
      omega
  | make n hpc habsent hmoved =>
      have hr : r = 0 := hs.base.mkfile ⟨(), r⟩ n hpc
      refine ⟨fun q => hmoved.pc_of_ne, ?_, ?_⟩
      · simp [hpc, stage]
      · intro q hq
        omega
  | take n hpc hflight hmoved =>
      refine ⟨fun q => hmoved.pc_of_ne, ?_, ?_⟩
      · simp [hpc, stage]
      · rintro q rfl - -
        exact (hs.flight q hflight).1
  | write n hpc hdir hmoved =>
      refine ⟨fun q => hmoved.pc_of_ne, ?_, ?_⟩
      · simp [hpc, stage]
      · intro q _ hzero
        rw [hpc] at hzero
        cases hzero
  | pass n pc hpc hstage hmoved =>
      refine ⟨fun q => hmoved.pc_of_ne, ?_, ?_⟩
      · rw [hmoved.pc_self]
        exact fun _ => hstage
      · intro q _ hzero
        rw [hpc] at hzero
        cases hzero

omit [DecidableEq H] in
theorem chain_step {s t : State H} {r : ℕ} (hs : Inv nrank host cpu s)
    (h : Effect nrank host cpu s t r) {q : ℕ} (hq : q + 1 < nrank)
    (hstage : 1 ≤ stage (t.pc (q + 1))) : stage (t.pc q) = 3 := by
  obtain ⟨hother, hkept, hbegun⟩ := stage_step hs h
  by_cases habove : q + 1 = r
  · rw [hother q (by omega)]
    by_cases hzero : stage (s.pc r) = 0
    · rw [habove] at hstage
      exact hbegun q habove hzero hstage
    · apply hs.chain q hq
      rw [habove]
      exact Nat.one_le_iff_ne_zero.mpr hzero
  · rw [hother (q + 1) habove] at hstage
    have hthree := hs.chain q hq hstage
    by_cases hself : q = r
    · rw [hself] at hthree ⊢
      exact hkept hthree
    · rw [hother q hself]
      exact hthree

omit [DecidableEq H] in
/-- A message that was on its way before, if the rank above its sender does not begin. -/
theorem flight_kept {s t : State H} {r : ℕ} (hs : Inv nrank host cpu s)
    (h : Effect nrank host cpu s t r) {q : ℕ} (hflight : s.base.flight ⟨(), q⟩ = true)
    (habove : q + 1 = r → stage (s.pc r) = 0 → stage (t.pc r) = 0) :
    stage (t.pc q) = 3 ∧ (q + 1 < nrank → stage (t.pc (q + 1)) = 0) := by
  obtain ⟨hother, hkept, -⟩ := stage_step hs h
  obtain ⟨hthree, hzero⟩ := hs.flight q hflight
  constructor
  · by_cases hself : q = r
    · rw [hself] at hthree ⊢
      exact hkept hthree
    · rwa [hother q hself]
  · intro hlt
    by_cases hnext : q + 1 = r
    · rw [hnext]
      apply habove hnext
      rw [← hnext]
      exact hzero hlt
    · rw [hother (q + 1) hnext]
      exact hzero hlt

omit [DecidableEq H] in
/-- A message is on its way only from a rank that is through to one that has not begun. -/
theorem flight_step {s t : State H} {r : ℕ} (hs : Inv nrank host cpu s)
    (h : Effect nrank host cpu s t r) {q : ℕ} (hq : t.base.flight ⟨(), q⟩ = true) :
    stage (t.pc q) = 3 ∧ (q + 1 < nrank → stage (t.pc (q + 1)) = 0) := by
  obtain ⟨hother, -, -⟩ := stage_step hs h
  have hold := flight_kept hs h (q := q)
  cases h with
  | quiet pc flight hmoved hflight hstage hlive hrecv =>
      rw [hmoved.flight] at hq
      refine hold (hflight _ hq) fun _ hzero => ?_
      rw [hmoved.pc_self, hstage, hzero]
  | quit hmoved hstage hfirst halone =>
      rw [hmoved.flight] at hq
      refine hold hq fun hnext hzero => ?_
      have hr := hfirst hzero
      omega
  | make n hpc habsent hmoved =>
      have hr : r = 0 := hs.base.mkfile ⟨(), r⟩ n hpc
      rw [hmoved.flight] at hq
      exact hold hq fun hnext => absurd (hnext.trans hr) (Nat.succ_ne_zero q)
  | take n hpc hflight hmoved =>
      rw [hmoved.flight] at hq
      refine hold (RunDir.flight_of_take hq) fun hnext => ?_
      -- the message the rank takes is no longer on its way
      obtain rfl : q = r - 1 := by omega
      rw [Function.update_self] at hq
      cases hq
  | write n hpc hdir hmoved =>
      rw [hmoved.flight] at hq
      refine hold hq fun _ hzero => ?_
      rw [hpc] at hzero
      cases hzero
  | pass n pc hpc hstage hmoved =>
      rw [hmoved.flight] at hq
      by_cases hself : q = r
      · rw [hself, hmoved.pc_self]
        refine ⟨hstage, fun hlt => ?_⟩
        by_contra hbegun
        rw [hother (r + 1) (Nat.succ_ne_self r)] at hbegun
        have hthree := hs.chain r hlt (Nat.one_le_iff_ne_zero.mpr hbegun)
        rw [hpc] at hthree
        cases hthree
      · rw [Function.update_of_ne fun heq => hself (congrArg RunDir.Proc.rank heq)] at hq
        refine hold hq fun _ hzero => ?_
        rw [hpc] at hzero
        cases hzero

omit [DecidableEq H] in
/-- The new file has its header, and nobody has begun. -/
theorem rows_make {s t : State H} {r m n : ℕ} {flight : RunDir.Proc Unit → Bool}
    (hs : Inv nrank host cpu s) (hrank : r < nrank) (hpc : s.pc r = .mkfile m)
    (hmoved : Moved s t r (.mkhost m) flight (Function.update s.base.dirs m (.made ()))
      (Function.update s.rankmap m [.header]))
    (hn : t.base.dirs n = .made ()) :
    ∃ k ≤ nrank,
      t.rankmap n = .header :: (List.range k).map (fun r => .row (rankRow host cpu r)) ∧
        ∀ q < nrank, t.pc q ≠ .exited → (q < k ↔ 2 ≤ stage (t.pc q)) := by
  obtain rfl : r = 0 := hs.base.mkfile ⟨(), r⟩ m hpc
  have hunmade : s.base.dirs n ≠ .made () := by
    apply hs.base.unmade ()
    show (s.pc 0).phase ≤ 5
    rw [hpc]
    exact Nat.le_refl 5
  obtain rfl : n = m := by
    by_contra hne
    rw [hmoved.dirs, Function.update_of_ne hne] at hn
    exact hunmade hn
  refine ⟨0, Nat.zero_le nrank, ?_, fun q hq _ => ?_⟩
  · rw [hmoved.rankmap, Function.update_self]
    rfl
  · by_cases hself : q = 0
    · rw [hself, hmoved.pc_self]
      simp [stage]
    · rw [hmoved.pc_of_ne hself]
      have hzero : stage (s.pc q) = 0 := by
        by_contra hbegun
        have hthree := hs.below (Nat.pos_of_ne_zero hself) hq
          (Nat.one_le_iff_ne_zero.mpr hbegun)
        rw [hpc] at hthree
        cases hthree
      rw [hzero]
      simp

omit [DecidableEq H] in
/-- A rank appends its row behind those of the ranks below it. -/
theorem rows_write {s t : State H} {r m n : ℕ} {flight : RunDir.Proc Unit → Bool}
    (hs : Inv nrank host cpu s) (hrank : r < nrank) (hpc : s.pc r = .wtrankmap m)
    (hmoved : Moved s t r (.send m) flight s.base.dirs
      (Function.update s.rankmap m (s.rankmap m ++ [.row (rankRow host cpu r)])))
    (hn : t.base.dirs n = .made ()) :
    ∃ k ≤ nrank,
      t.rankmap n = .header :: (List.range k).map (fun r => .row (rankRow host cpu r)) ∧
        ∀ q < nrank, t.pc q ≠ .exited → (q < k ↔ 2 ≤ stage (t.pc q)) := by
  rw [hmoved.dirs] at hn
  obtain ⟨k, -, hrows, hwritten⟩ := hs.rows n hn
  -- it is the run directory of the job
  obtain rfl : m = n := by
    apply (hs.base.made () n hn r hrank).2 m
    show (s.pc r).runid = some m
    rw [hpc]
    rfl
  have hbelow : ∀ q < r, stage (s.pc q) = 3 :=
    fun q hlt => hs.below hlt hrank (by rw [hpc]; exact Nat.le_refl 1)
  have hnot : ¬ r < k := by
    rw [hwritten r hrank (by simp [hpc]), hpc]
    simp [stage]
  obtain rfl : k = r := by
    apply Nat.le_antisymm (Nat.le_of_not_lt hnot)
    by_contra hlt
    have hk : k < r := Nat.lt_of_not_le hlt
    have hthree := hbelow k hk
    have hlive : s.pc k ≠ .exited := by
      intro hexited
      rw [hexited] at hthree
      cases hthree
    have hself := (hwritten k (Nat.lt_trans hk hrank) hlive).mpr (by rw [hthree]; decide)
    exact Nat.lt_irrefl k hself
  refine ⟨k + 1, hrank, ?_, fun q hq _ => ?_⟩
  · rw [hmoved.rankmap, Function.update_self, hrows, List.range_succ, List.map_append]
    rfl
  · rcases Nat.lt_trichotomy q k with hlt | rfl | hgt
    · rw [hmoved.pc_of_ne (Nat.ne_of_lt hlt), hbelow q hlt]
      omega
    · rw [hmoved.pc_self]
      show q < q + 1 ↔ 2 ≤ 2
      omega
    · rw [hmoved.pc_of_ne (Nat.ne_of_gt hgt)]
      have hzero : stage (s.pc q) = 0 := by
        by_contra hbegun
        have hthree := hs.below hgt hq (Nat.one_le_iff_ne_zero.mpr hbegun)
        rw [hpc] at hthree
        cases hthree
      rw [hzero]
      omega

omit [DecidableEq H] in
theorem rows_step {s t : State H} {r : ℕ} (hs : Inv nrank host cpu s) (hrank : r < nrank)
    (h : Effect nrank host cpu s t r) {n : ℕ} (hn : t.base.dirs n = .made ()) :
    ∃ k ≤ nrank,
      t.rankmap n = .header :: (List.range k).map (fun r => .row (rankRow host cpu r)) ∧
        ∀ q < nrank, t.pc q ≠ .exited → (q < k ↔ 2 ≤ stage (t.pc q)) := by
  -- where nothing is written, the ranks that have written are the same
  have hsame : t.base.dirs = s.base.dirs → t.rankmap = s.rankmap →
      (∀ q, q ≠ r → t.pc q = s.pc q) →
      (t.pc r ≠ .exited → s.pc r ≠ .exited ∧ (2 ≤ stage (t.pc r) ↔ 2 ≤ stage (s.pc r))) →
      ∃ k ≤ nrank,
        t.rankmap n = .header :: (List.range k).map (fun r => .row (rankRow host cpu r)) ∧
          ∀ q < nrank, t.pc q ≠ .exited → (q < k ↔ 2 ≤ stage (t.pc q)) := by
    intro hdirs hmap hother hself
    rw [hdirs] at hn
    obtain ⟨k, hk, hrows, hwritten⟩ := hs.rows n hn
    refine ⟨k, hk, by rw [hmap, hrows], fun q hq hlive => ?_⟩
    by_cases heq : q = r
    · subst heq
      obtain ⟨hlive', hstage⟩ := hself hlive
      rw [hstage]
      exact hwritten q hq hlive'
    · rw [hother q heq] at hlive ⊢
      exact hwritten q hq hlive
  cases h with
  | quiet pc flight hmoved hflight hstage hlive hrecv =>
      refine hsame hmoved.dirs hmoved.rankmap (fun _ => hmoved.pc_of_ne) fun _ => ⟨hlive, ?_⟩
      rw [hmoved.pc_self, hstage]
  | quit hmoved hstage hfirst halone =>
      refine hsame hmoved.dirs hmoved.rankmap (fun _ => hmoved.pc_of_ne) fun hlive => ?_
      exact absurd hmoved.pc_self hlive
  | make m hpc habsent hmoved => exact rows_make hs hrank hpc hmoved hn
  | take m hpc hflight hmoved =>
      refine hsame hmoved.dirs hmoved.rankmap (fun _ => hmoved.pc_of_ne) fun _ => ?_
      rw [hmoved.pc_self, hpc]
      simp [stage]
  | write m hpc hdir hmoved => exact rows_write hs hrank hpc hmoved hn
  | pass m pc hpc hstage hmoved =>
      refine hsame hmoved.dirs hmoved.rankmap (fun _ => hmoved.pc_of_ne) fun _ => ?_
      rw [hmoved.pc_self, hpc, hstage]
      simp [stage]

omit [DecidableEq H] in
theorem recvHost_step {s t : State H} {r q n : ℕ} (hs : Inv nrank host cpu s)
    (h : Effect nrank host cpu s t r) (hq : t.pc q = .recvHost n) : q ≠ 0 := by
  by_cases hself : q = r
  · subst hself
    cases h with
    | quiet pc flight hmoved hflight hstage hlive hrecv =>
        exact hrecv n (hmoved.pc_self.symm.trans hq)
    | quit hmoved hstage hfirst halone => cases hmoved.pc_self.symm.trans hq
    | make m hpc habsent hmoved => cases hmoved.pc_self.symm.trans hq
    | take m hpc hflight hmoved => cases hmoved.pc_self.symm.trans hq
    | write m hpc hdir hmoved => cases hmoved.pc_self.symm.trans hq
    | pass m pc hpc hstage hmoved =>
        obtain rfl : pc = .recvHost n := hmoved.pc_self.symm.trans hq
        cases hstage
  · rw [(stage_step hs h).1 q hself] at hq
    exact hs.recvHost q n hq

/-- The step lemma. -/
theorem inv_step {s t : State H} {r : ℕ} (hs : Inv nrank host cpu s)
    (hstep : step nrank host cpu s r = some t) : Inv nrank host cpu t := by
  obtain ⟨hrank, hrun, heffect⟩ := step_effect hs.base hstep
  have hclean : RunDir.Clean (job nrank host) s.base (RunDir.turn () r) := by
    intro n hpc _ _ j _ _ _ _
    obtain rfl : r = 0 := hs.base.mkfile ⟨(), r⟩ n hpc
    have hzero : s.base.pc ⟨j, 0⟩ = .mkfile n := hpc
    simp [hzero, RunDir.Pc.phase]
  constructor
  case base => exact RunDir.inv_step hs.base hclean hrun
  case recvHost => exact fun q n => recvHost_step hs heffect
  case chain => exact fun q hq => chain_step hs heffect hq
  case flight => exact fun q => flight_step hs heffect
  case rows => exact fun n => rows_step hs hrank heffect

theorem inv_run {existing : ℕ → Bool} {hosts : ℕ → H → Bool} {rankmap : ℕ → List (Line H)}
    {turns : List ℕ} {s : State H}
    (hrun : Runs.run (step nrank host cpu) (initial existing hosts rankmap) turns = some s) :
    Inv nrank host cpu s :=
  Runs.run_invariant (Inv nrank host cpu) (fun _ => True) (fun _ _ _ hs _ hone => inv_step hs hone)
    turns _ s (inv_initial existing hosts rankmap) (fun _ _ => trivial) hrun

/-! ## What the order gives -/

theorem InHost.stage_eq {pc : RunDir.Pc} (h : InHost pc) : stage pc = 1 := by
  cases pc with
  | mkhost => rfl
  | mkhostdir => rfl
  | wtrankmap => rfl
  | _ => exact h.elim

theorem InHost.made {pc : RunDir.Pc} (h : InHost pc) : Made pc := by
  cases pc with
  | mkhost => trivial
  | mkhostdir => trivial
  | wtrankmap => trivial
  | _ => exact h.elim

theorem made_of_stage {pc : RunDir.Pc} (h : stage pc = 3) : Made pc := by
  cases pc with
  | recvRing => trivial
  | atBarrier => trivial
  | inBarrier => trivial
  | finished => trivial
  | _ => simp [stage] at h

theorem Returned.stage_eq {pc : RunDir.Pc} (h : Returned pc) : stage pc = 3 := by
  cases pc with
  | atBarrier => rfl
  | inBarrier => rfl
  | finished => rfl
  | _ => exact h.elim

theorem Returned.phase_eq {pc : RunDir.Pc} (h : Returned pc) : pc.phase = 6 := by
  cases pc with
  | atBarrier => rfl
  | inBarrier => rfl
  | finished => rfl
  | _ => exact h.elim

theorem Returned.exists_runid {pc : RunDir.Pc} (h : Returned pc) : ∃ n, pc.runid = some n := by
  cases pc with
  | atBarrier k n => exact ⟨n, rfl⟩
  | inBarrier k n => exact ⟨n, rfl⟩
  | finished n => exact ⟨n, rfl⟩
  | _ => exact h.elim

omit [DecidableEq H] in
/-- Two ranks are never in their host directories at the same time. -/
theorem Inv.exclusive {s : State H} (hs : Inv nrank host cpu s) {r q : ℕ} (hr : r < nrank)
    (hq : q < nrank) (hr_in : InHost (s.pc r)) (hq_in : InHost (s.pc q)) : r = q := by
  rcases Nat.lt_trichotomy r q with hlt | heq | hgt
  · have hthree := hs.below hlt hq (Nat.le_of_eq hq_in.stage_eq.symm)
    rw [hr_in.stage_eq] at hthree
    cases hthree
  · exact heq
  · have hthree := hs.below hgt hr (Nat.le_of_eq hr_in.stage_eq.symm)
    rw [hq_in.stage_eq] at hthree
    cases hthree

omit [DecidableEq H] in
/-- Nobody is in its host directory before rank 0 has created the files. -/
theorem Inv.made {s : State H} (hs : Inv nrank host cpu s) {r : ℕ} (hr : r < nrank)
    (hin : InHost (s.pc r)) : Made (s.pc 0) := by
  by_cases hzero : r = 0
  · rw [← hzero]
    exact hin.made
  · exact made_of_stage (hs.below (Nat.pos_of_ne_zero hzero) hr
      (Nat.le_of_eq hin.stage_eq.symm))

omit [DecidableEq H] in
/-- Once all ranks have returned, the rank map of their run directory is complete. -/
theorem Inv.complete {s : State H} (hs : Inv nrank host cpu s) (hpos : 1 ≤ nrank)
    (hreturned : ∀ r < nrank, Returned (s.pc r)) :
    ∃ n, (∀ r < nrank, (s.pc r).runid = some n) ∧
      s.rankmap n =
        .header :: (List.range nrank).map (fun r => .row (rankRow host cpu r)) := by
  obtain ⟨n, hn⟩ := hs.base.own ⟨(), 0⟩ (hreturned 0 hpos).phase_eq
  obtain ⟨k, hk, hrows, hwritten⟩ := hs.rows n hn
  refine ⟨n, fun r hr => ?_, ?_⟩
  · obtain ⟨m, hm⟩ := (hreturned r hr).exists_runid
    rw [hm, (hs.base.made () n hn r hr).2 m hm]
  · obtain rfl : k = nrank := by
      apply Nat.le_antisymm hk
      by_contra hlt
      have hless : k < nrank := Nat.lt_of_not_le hlt
      have hthree := (hreturned k hless).stage_eq
      have hlive : s.pc k ≠ .exited := by
        intro hexited
        have hin := hreturned k hless
        rw [hexited] at hin
        exact hin
      have hself := (hwritten k hless hlive).mpr (by rw [hthree]; decide)
      exact Nat.lt_irrefl k hself
    exact hrows

/-- **The host set-up is in rank order.** In every run of the ranks of one job none of whose
calls fails: no rank is at its host directory or the rank map before rank 0 has created the
files, at most one is at a time, and when all have returned `rankmap.csv` has its header and
the row of each rank, in order. -/
theorem host_setup (hpos : 1 ≤ nrank) (existing : ℕ → Bool) (hosts : ℕ → H → Bool)
    (rankmap : ℕ → List (Line H)) (turns : List ℕ) (s : State H)
    (hrun : Runs.run (step nrank host cpu) (initial existing hosts rankmap) turns = some s) :
    (∀ r < nrank, InHost (s.pc r) → Made (s.pc 0)) ∧
      (∀ r < nrank, ∀ q < nrank, InHost (s.pc r) → InHost (s.pc q) → r = q) ∧
      ((∀ r < nrank, Returned (s.pc r)) →
        ∃ n, (∀ r < nrank, (s.pc r).runid = some n) ∧
          s.rankmap n =
            .header :: (List.range nrank).map (fun r => .row (rankRow host cpu r))) := by
  have hs := inv_run hrun
  exact ⟨fun r => hs.made, fun r hr q hq => hs.exclusive hr hq, hs.complete hpos⟩

/-- Two ranks, up to the barrier after `ph_mpi_mkhost`. -/
def inTurn : List ℕ :=
  [0, 1, 0, 0, 0, 1, 1, 1] ++ List.replicate 6 0 ++ List.replicate 5 1 ++ [0]

theorem inTurn_end :
    (Runs.run (step 2 (fun _ => ()) fun r => r)
        (initial (fun _ => false) (fun _ _ => false) fun _ => []) inTurn).map
        (fun s => (s.pc 0, s.pc 1)) =
      some (.atBarrier 3 1, .atBarrier 3 1) := by
  decide +kernel

theorem host_setup_two :
    ∃ s, Runs.run (step 2 (fun _ => ()) fun r => r)
        (initial (fun _ => false) (fun _ _ => false) fun _ => []) inTurn = some s ∧
      s.rankmap 1 = [.header, .row ⟨0, (), 0, 0, 0⟩, .row ⟨1, (), 1, 0, 1⟩] := by
  obtain ⟨s, hrun, hend⟩ := Option.map_eq_some_iff.mp inTurn_end
  obtain ⟨hzero, hone⟩ := Prod.mk.inj hend
  have hreturned : ∀ r < 2, Returned (s.pc r) := by
    intro r hr
    rcases Nat.le_one_iff_eq_zero_or_eq_one.mp (Nat.le_of_lt_succ hr) with rfl | rfl
    · rw [hzero]
      trivial
    · rw [hone]
      trivial
  obtain ⟨n, hrunid, hrows⟩ := (host_setup (by decide) (fun _ => false) (fun _ _ => false)
    (fun _ => []) inTurn s hrun).2.2 hreturned
  have hn := hrunid 0 (by decide)
  rw [hzero] at hn
  obtain rfl : 1 = n := Option.some.inj hn
  exact ⟨s, hrun, hrows⟩

end HostSetup

end PerfHound
