/-
# Array bounds of the event list

How many events are registered decides which array elements the serial probe
indexes: `ph_set_evt` stores a code, `ph_commit` hands codes and zero counts to the
backend, and `ph_io_wtrec` prints the events of each record. This module follows
`ph_nev` alone and lists the indices a call uses, also those outside the arrays, so
that it can say when there are none. `Events` gives a call no result instead, and
`setEvt_defined_iff` connects the two.
-/

import PerfHound.Probe.Events
import PerfHound.Probe.EvtX86

namespace PerfHound

open Lib Events

namespace Bounds

/-- The arrays that are indexed by event. -/
inductive Arr
  | /-- `ph_evcodes`. -/
    evcodes
  | /-- `ev` of a record. -/
    ev
  | /-- `ph_zeros` of `_ph_config_event`. -/
    zeros
  deriving DecidableEq, Repr

/-- The declared length of an array. -/
def Arr.length (b : Build) : Arr → ℕ
  | .evcodes => b.phNEV
  | .ev => b.phNEV
  | .zeros => 8

/-- An index the code uses. `ph_evcodes[ph_nev-1]` has no event before it at first, so
an index may be negative. -/
structure Index where
  arr : Arr
  index : ℤ
  deriving DecidableEq, Repr

def Index.Below (b : Build) (x : Index) : Prop := x.index < x.arr.length b

instance (b : Build) (x : Index) : Decidable (x.Below b) := inferInstanceAs (Decidable (_ < _))

/-- The indices of a loop over the first `n` elements. -/
def upTo (arr : Arr) (n : ℕ) : List Index := (List.range n).map fun i : ℕ => ⟨arr, i⟩

/-- The variables of event registration that decide the indices. -/
structure Count where
  ready : Bool
  nev : ℕ
  deriving DecidableEq, Repr

/-- What `ph_init` sets before `_ph_init_cy`. -/
def Count.init : Count := ⟨false, 0⟩

/-- A call of the serial probe, or one of the flushes it makes. -/
inductive Call
  | setEvt (name : String)
  | commit
  | /-- `ph_io_wtrec(nrec)`. -/
    wtrec (nrec : ℕ)
  deriving DecidableEq, Repr

variable (b : Build) (parse : String → U64)

/-- `ph_set_evt` goes past its two guards. -/
def Count.accepts (s : Count) : Bool := !s.ready && !(s.nev > b.phNevMax)

/-- The change of the counter. -/
def next (s : Count) : Call → Count
  | .setEvt name =>
      if s.accepts b ∧ Supported (parse name) then { s with nev := s.nev + 1 } else s
  | .commit => { s with ready := true }
  | .wtrec _ => s

/-- `_ph_config_event`. The PHASM backend of aarch64 writes twelve codes, however many
there are. -/
def configEvent (nevt : ℕ) : List Index :=
  if nevt = 0 then []
  else
    match b.api, b.arch with
    | .papi, _ => upTo .evcodes nevt
    | .phasm, .x86 => upTo .evcodes nevt ++ upTo .zeros nevt
    | .phasm, .aarch64 => upTo .evcodes 12

/-- The indices a call uses. The commit ends with a `ph_read`, where a `PAPI_read` may store
a value for each event. -/
def indices (s : Count) : Call → List Index
  | .setEvt name =>
      if s.accepts b then
        (if Supported (parse name) then [⟨.evcodes, s.nev⟩] else []) ++
          [⟨.evcodes, (next b parse s (.setEvt name)).nev - 1⟩]
      else []
  | .commit => configEvent b s.nev ++ upTo .ev (Sampler.phRead b s.nev).nread
  | .wtrec nrec => (List.replicate nrec (upTo .ev s.nev)).flatten

/-- What a call must keep: the limit on the number of events, and every index below the
length of its array. -/
def Keeps (s : Count) (call : Call) : Prop :=
  (next b parse s call).nev ≤ b.phNevMax ∧ ∀ x ∈ indices b parse s call, x.Below b

/-- The calls never fail here; an index out of bounds does not stop them. -/
def step (s : Count) (call : Call) : Option Count := some (next b parse s call)

/-- The calls of a whole run: `_ph_init_cy` first. -/
def fromInit (calls : List Call) : List Call := (initCy b).map Call.setEvt ++ calls

/-- How many calls register a supported event before the first commit. -/
def registered : List Call → ℕ
  | [] => 0
  | .setEvt name :: rest => registered rest + if Supported (parse name) then 1 else 0
  | .commit :: _ => 0
  | .wtrec _ :: rest => registered rest

/-- The build whose commit reads more codes than `ph_evcodes` has slots. -/
def ShortCodes : Prop := b.api = .phasm ∧ b.arch = .aarch64 ∧ b.evMode ≠ .evx

instance : Decidable (ShortCodes b) := inferInstanceAs (Decidable (_ ∧ _))

variable {b parse}

/-! ## The indices of one call -/

theorem below_upTo {arr : Arr} {n : ℕ} :
    (∀ x ∈ upTo arr n, x.Below b) ↔ n ≤ arr.length b := by
  constructor
  · intro h
    by_contra hlong
    have hmem : (⟨arr, arr.length b⟩ : Index) ∈ upTo arr n :=
      List.mem_map.mpr ⟨arr.length b, List.mem_range.mpr (Nat.not_le.mp hlong), rfl⟩
    exact absurd (h _ hmem) (lt_irrefl _)
  · intro hle x hx
    obtain ⟨i, hi, rfl⟩ := List.mem_map.mp hx
    exact Int.ofNat_lt.mpr (lt_of_lt_of_le (List.mem_range.mp hi) hle)

theorem below_wtrec {nev nrec : ℕ} (hnev : nev ≤ b.phNEV) :
    ∀ x ∈ (List.replicate nrec (upTo .ev nev)).flatten, x.Below b := by
  intro x hx
  obtain ⟨row, hrow, hx⟩ := List.mem_flatten.mp hx
  rw [List.eq_of_mem_replicate hrow] at hx
  exact below_upTo.mpr hnev x hx

/-- `ph_read` fills no more events than a record has. -/
theorem nread_le (b : Build) {nev : ℕ} (hnev : nev ≤ b.phNEV) :
    (Sampler.phRead b nev).nread ≤ b.phNEV := by
  rcases b with ⟨evMode, arch, api⟩
  cases evMode <;> cases arch <;> cases api <;> simp_all [Sampler.phRead, Build.phNEV]

/-- Within the limit, the commit stays inside its arrays unless it reads the codes of
events in a build whose `ph_evcodes` is too short for that. -/
theorem below_configEvent {nev : ℕ} (hnev : nev ≤ b.phNevMax) :
    (∀ x ∈ configEvent b nev, x.Below b) ↔ (ShortCodes b → nev = 0) := by
  have hcodes : nev ≤ b.phNEV := le_trans hnev b.phNevMax_le_phNEV
  by_cases hzero : nev = 0
  · simp [configEvent, hzero]
  · rw [configEvent, if_neg hzero]
    rcases b with ⟨evMode, arch, api⟩
    cases api with
    | papi => simpa [ShortCodes, below_upTo, Arr.length] using hcodes
    | phasm =>
        cases arch with
        | x86 =>
            have hzeros : nev ≤ 8 := le_trans hnev (by cases evMode <;> simp [Build.phNevMax])
            simp only [List.mem_append, or_imp, forall_and, below_upTo, Arr.length]
            simp [ShortCodes, hcodes, hzeros]
        | aarch64 =>
            rw [below_upTo]
            cases evMode <;> simp [ShortCodes, Arr.length, Build.phNEV, hzero]

/-! ## Whole runs -/

/-- The number of events a run will have registered. -/
def Count.final (parse : String → U64) (s : Count) (calls : List Call) : ℕ :=
  if s.ready then s.nev else s.nev + registered parse calls

theorem accepts_eq {s : Count} (hnev : s.nev ≤ b.phNevMax) : s.accepts b = !s.ready := by
  simp [Count.accepts, hnev]

/-- A call within the limit does not change what the run will register. -/
theorem final_next {s : Count} (hnev : s.nev ≤ b.phNevMax) (call : Call) (rest : List Call) :
    (next b parse s call).final parse rest = s.final parse (call :: rest) := by
  cases call with
  | setEvt name =>
      cases hready : s.ready with
      | true => simp [next, accepts_eq hnev, hready, Count.final]
      | false =>
          by_cases hknown : Supported (parse name)
          · simp [next, accepts_eq hnev, hready, hknown, Count.final, registered]
            omega
          · simp [next, hknown, hready, Count.final, registered]
  | commit => simp [next, Count.final, registered]
  | wtrec nrec => rfl

theorem nev_le_final (s : Count) (calls : List Call) : s.nev ≤ s.final parse calls := by
  rw [Count.final]
  split <;> omega

/-- The step lemma. Within the limit a call keeps what it must, unless it registers one
event too many or commits in a build whose codes are short. -/
theorem keeps_iff {s : Count} (hnev : s.nev ≤ b.phNevMax) (call : Call) :
    Keeps b parse s call ↔
      (next b parse s call).nev ≤ b.phNevMax ∧ (call = .commit → ShortCodes b → s.nev = 0) := by
  have hcodes : s.nev ≤ b.phNEV := le_trans hnev b.phNevMax_le_phNEV
  apply and_congr_right
  intro hnext
  cases call with
  | setEvt name =>
      have hlast : (next b parse s (.setEvt name)).nev ≤ b.phNEV :=
        le_trans hnext b.phNevMax_le_phNEV
      have hpos : 0 < b.phNEV := b.phNEV_pos
      simp only [reduceCtorEq, false_implies, iff_true, indices]
      split
      case isFalse => simp
      case isTrue haccepts =>
        by_cases hknown : Supported (parse name)
        · have hinc : (next b parse s (.setEvt name)).nev = s.nev + 1 := by
            rw [next, if_pos ⟨haccepts, hknown⟩]
          rw [hinc] at hlast ⊢
          simp only [hknown, if_true, List.singleton_append, List.mem_cons, List.not_mem_nil,
            or_false, forall_eq_or_imp, forall_eq, Index.Below, Arr.length]
          omega
        · have hsame : (next b parse s (.setEvt name)).nev = s.nev := by
            rw [next, if_neg fun h => hknown h.2]
          simp only [hknown, if_false, List.nil_append, List.mem_singleton, forall_eq,
            Index.Below, Arr.length, hsame]
          omega
  | commit =>
      have hread : ∀ x ∈ upTo .ev (Sampler.phRead b s.nev).nread, x.Below b :=
        below_upTo.mpr (nread_le b hcodes)
      simp only [indices, List.mem_append, or_imp, forall_and, true_implies]
      rw [below_configEvent hnev]
      exact and_iff_left hread
  | wtrec nrec =>
      simp only [reduceCtorEq, false_implies, iff_true]
      exact below_wtrec hcodes

/-- The run lemma, from any count within the limit. -/
theorem everyStep_iff (calls : List Call) : ∀ {s : Count}, s.nev ≤ b.phNevMax →
    (Runs.EveryStep (step b parse) (Keeps b parse) s calls ↔
      s.final parse calls ≤ b.phNevMax ∧
        (ShortCodes b → .commit ∈ calls → s.final parse calls = 0)) := by
  induction calls with
  | nil =>
      intro s hnev
      simp [Runs.EveryStep, Count.final, registered, hnev]
  | cons call rest ih =>
      intro s hnev
      have hrest : Runs.EveryStep (step b parse) (Keeps b parse) s (call :: rest) ↔
          Keeps b parse s call ∧
            Runs.EveryStep (step b parse) (Keeps b parse) (next b parse s call) rest := by
        simp [Runs.EveryStep, step]
      rw [hrest, keeps_iff hnev, ← final_next hnev call rest]
      by_cases hnext : (next b parse s call).nev ≤ b.phNevMax
      · rw [ih hnext]
        cases call with
        | commit =>
            have hend : (next b parse s .commit).final parse rest = s.nev := by
              simp [next, Count.final]
            rw [hend]
            simp only [List.mem_cons, true_or, true_implies]
            tauto
        | setEvt name => simp [hnext]
        | wtrec nrec => simp [hnext]
      · have hover : ¬ (next b parse s call).final parse rest ≤ b.phNevMax :=
          fun hle => hnext (le_trans (nev_le_final _ _) hle)
        simp [hnext, hover]

/-- **The event-count bound.** In a run of the serial probe the count stays within
`ph_nev_max` and every index below the length of its array, if and only if no more
events than that are registered before the commit, the cycle event of a PAPI build
counted; and a build with short codes commits no event. -/
theorem event_bound_iff (b : Build) (parse : String → U64) (calls : List Call) :
    Runs.EveryStep (step b parse) (Keeps b parse) Count.init (fromInit b calls) ↔
      registered parse (fromInit b calls) ≤ b.phNevMax ∧
        (ShortCodes b → .commit ∈ calls → registered parse (fromInit b calls) = 0) := by
  have hcommit : .commit ∈ fromInit b calls ↔ .commit ∈ calls := by simp [fromInit]
  rw [everyStep_iff _ (Nat.zero_le _), hcommit]
  simp [Count.final, Count.init]

/-- The fifth event of an EV build gets past the guard and is stored behind the last
slot of `ph_evcodes`. -/
theorem fifth_event_past_evcodes :
    let fifth := Call.setEvt "INST_RETIRED.ANY_P"
    let full := (List.replicate 4 fifth).foldl (next ⟨.ev, .x86, .phasm⟩ EvtX86.phParseEvent)
      Count.init
    indices ⟨.ev, .x86, .phasm⟩ EvtX86.phParseEvent full fifth =
        [⟨.evcodes, 4⟩, ⟨.evcodes, 4⟩] ∧
      (next ⟨.ev, .x86, .phasm⟩ EvtX86.phParseEvent full fifth).nev = 5 ∧
      ¬ Runs.EveryStep (step ⟨.ev, .x86, .phasm⟩ EvtX86.phParseEvent)
        (Keeps ⟨.ev, .x86, .phasm⟩ EvtX86.phParseEvent) Count.init
        (fromInit ⟨.ev, .x86, .phasm⟩ (List.replicate 5 fifth)) := by
  refine ⟨by decide +kernel, by decide +kernel, ?_⟩
  rw [everyStep_iff _ (Nat.zero_le _)]
  decide +kernel

/-! ## The state that holds the codes -/

/-- A registration has a result exactly when all indices it uses lie inside
`ph_evcodes`, and then the count changes as it does here. -/
theorem setEvt_defined_iff (s : EvtState b) (name : String) :
    let count : Count := ⟨s.ready, s.nev⟩
    ((Events.step parse .serial s (.setEvt name)).isSome ↔
      ∀ x ∈ indices b parse count (.setEvt name), 0 ≤ x.index ∧ x.Below b) ∧
    ∀ t, Events.step parse .serial s (.setEvt name) = some t →
      (⟨t.ready, t.nev⟩ : Count) = next b parse count (.setEvt name) := by
  intro count
  have hstep : Events.step parse .serial s (.setEvt name) =
      (setEvtWith parse (s.nev > b.phNevMax) s name).map Prod.snd := rfl
  have hle : s.nev ≤ b.phNEV := s.nev_le
  rw [hstep]
  by_cases haccepts : count.accepts b = true
  · obtain ⟨hready, hroom⟩ : s.ready = false ∧ ¬ s.nev > b.phNevMax := by
      simpa [count, Count.accepts] using haccepts
    by_cases hknown : Supported (parse name)
    · have hnext : next b parse count (.setEvt name) = ⟨s.ready, s.nev + 1⟩ := by
        rw [next, if_pos ⟨haccepts, hknown⟩]
      obtain ⟨hslot, hnone⟩ :=
        setEvtWith_of_supported (s := s) hready (decide_eq_false hroom) hknown
      simp only [indices, haccepts, hknown, if_true, hnext, List.singleton_append,
        List.mem_cons, List.not_mem_nil, or_false, forall_eq_or_imp, forall_eq, Index.Below,
        Arr.length, count]
      by_cases hlt : s.nev < b.phNEV
      · obtain ⟨t, hcall, htready, htnev, -⟩ := hslot hlt
        rw [hcall]
        refine ⟨by simp; omega, ?_⟩
        rintro u hu
        obtain rfl : t = u := by simpa using hu
        rw [htready, htnev, hready]
      · rw [hnone hlt]
        exact ⟨by simp; omega, by simp⟩
    · have hnext : next b parse count (.setEvt name) = count := by
        rw [next, if_neg fun h => hknown h.2]
      simp only [indices, haccepts, hknown, if_true, if_false, hnext, List.nil_append,
        List.mem_singleton, forall_eq, Index.Below, Arr.length, count]
      by_cases hpos : 0 < s.nev
      · simp [setEvtWith, hready, hroom, hknown, EvtState.wtetag, hpos]
        omega
      · simp [setEvtWith, hready, hroom, hknown, EvtState.wtetag, hpos]
        omega
  · have hnext : next b parse count (.setEvt name) = count := by
      rw [next, if_neg fun h => haccepts h.1]
    have hkept : ∃ ret, setEvtWith parse (s.nev > b.phNevMax) s name = some (ret, s) := by
      cases hready : s.ready with
      | true => exact ⟨1, by simp [setEvtWith, hready]⟩
      | false =>
          have hover : s.nev > b.phNevMax := by simpa [count, Count.accepts, hready] using haccepts
          exact ⟨2, by simp [setEvtWith, hready, hover]⟩
    obtain ⟨ret, hret⟩ := hkept
    rw [hret, hnext]
    simp [indices, haccepts, count]

end Bounds

end PerfHound
