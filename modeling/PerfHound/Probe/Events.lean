/-
# Event registration: `ph_set_evt`, `phmpi_set_evt` and the files that name the events

An event is registered in three places: the code in `ph_evcodes`, the count in
`ph_nev`, and a row of `etag.csv`. At the commit the record file gets one `ev`
column for each registered event, and the rows of `etag.csv` are what tells a
reader which event a column counts.

The backend's event parser is a parameter, any function from names to codes; a
code above `0xFFFFFFFE` means that the backend does not know the event. A call that
reads or writes outside `ph_evcodes` has no result.

The row is written whether or not the event was accepted, so registration is all or
nothing only for some calls. `Accountable` says for which.
-/

import PerfHound.Core
import PerfHound.Lib.Runs
import Mathlib.Data.Vector.Basic

namespace PerfHound

open Lib

namespace Events

/-- The two entry points. Only rank 0 of an MPI job writes `etag.csv`; this models
that rank. -/
inductive Front
  | serial
  | mpi
  deriving DecidableEq, Repr

/-- A data row of `etag.csv`. -/
structure EtagRow where
  id : ℕ
  name : String
  code : U64
  deriving DecidableEq, Repr

/-- The variables and files event registration works on. The registered events never
outnumber the slots of `ph_evcodes`: a call that would make them has no result. -/
structure EvtState (b : Build) where
  ready : Bool
  nev : ℕ
  /-- `ph_evcodes`, each slot as the `uint64_t` it is read as. -/
  evcodes : Vector U64 b.phNEV
  /-- The data rows of `etag.csv`. -/
  etag : List EtagRow
  /-- The header of the record file, once it has been created. -/
  header : Option (List String)
  nev_le : nev ≤ b.phNEV

variable (b : Build) (parse : String → U64)

/-- The state `ph_init` and `phmpi_init` leave, before the cycle event a PAPI build
registers for itself by an ordinary call. -/
def init : EvtState b where
  ready := false
  nev := 0
  evcodes := Vector.replicate b.phNEV 0
  etag := []
  header := none
  nev_le := Nat.zero_le _

/-- `_ph_init_cy`: the cycle event a PAPI build registers at its start. -/
def initCy (b : Build) : List String :=
  match b.api, b.arch with
  | .papi, .x86 => ["CPU_CLK_THREAD_UNHALTED:THREAD_P"]
  | .papi, .aarch64 => ["CPU_CYCLES"]
  | .phasm, _ => []

/-- What a read of a slot of `ph_evcodes` yields after a code was assigned to it. In a
PAPI build the slots are `int`, and the read sign-extends. -/
def slotValue (code : U64) : U64 :=
  match b.api with
  | .papi => (code.truncate 32).signExtend 64
  | .phasm => code

/-- `evcode <= 0xFFFFFFFF - 1`. -/
def Supported (code : U64) : Prop := code ≤ 0xFFFFFFFE

instance (code : U64) : Decidable (Supported code) := inferInstanceAs (Decidable (_ ≤ _))

variable {b}

/-- `ph_evcodes[ph_nev] = evcode; ph_nev ++`. -/
def EvtState.assign (s : EvtState b) (code : U64) : Option (EvtState b) :=
  if h : s.nev < b.phNEV then
    some { s with
      nev := s.nev + 1
      evcodes := s.evcodes.set s.nev (slotValue b code) h
      nev_le := h }
  else none

/-- `ph_io_wtetag(ph_nev, etag, ph_evcodes[ph_nev-1])`. -/
def EvtState.wtetag (s : EvtState b) (name : String) : Option (EvtState b) :=
  if hpos : 0 < s.nev then
    have hlast : s.nev - 1 < b.phNEV := lt_of_lt_of_le (Nat.sub_one_lt_of_lt hpos) s.nev_le
    some { s with etag := s.etag ++ [⟨s.nev, name, s.evcodes[s.nev - 1]⟩] }
  else none

/-- The body the two entry points share, up to their limit on `ph_nev`. -/
def setEvtWith (tooMany : Bool) (s : EvtState b) (etag : String) : Option (ℕ × EvtState b) :=
  if s.ready then some (1, s)
  else if tooMany then some (2, s)
  else do
    let evcode := parse etag
    let s ← if Supported evcode then s.assign evcode else some s
    let s ← s.wtetag etag
    return (0, s)

def phSetEvt (s : EvtState b) (etag : String) : Option (ℕ × EvtState b) :=
  setEvtWith parse (s.nev > b.phNevMax) s etag

/-- `phmpi_set_evt` on rank 0. -/
def phmpiSetEvt (s : EvtState b) (etag : String) : Option (ℕ × EvtState b) :=
  setEvtWith parse (s.nev ≥ b.phNevMax) s etag

/-- The columns of the record file before the events, as `ph_io_mkrec` writes them. -/
def scalarColumns : List String := ["gid", "pid", "cycle", "nanosec", "uval"]

/-- The header `ph_io_mkrec` writes. -/
def recHeader (nev : ℕ) : List String :=
  scalarColumns ++ (List.range nev).map fun i => "ev" ++ toString (i + 1)

/-- `ph_commit` and `phmpi_commit` after the record file could be created, which
otherwise ends the program. -/
def phCommit (s : EvtState b) : EvtState b :=
  { s with ready := true, header := some (recHeader s.nev) }

/-- The registration call of a front end. -/
def Front.setEvt : Front → EvtState b → String → Option (ℕ × EvtState b)
  | .serial => phSetEvt parse
  | .mpi => phmpiSetEvt parse

/-- The test a front end makes on `ph_nev`. -/
def Front.tooMany (b : Build) (nev : ℕ) : Front → Bool
  | .serial => nev > b.phNevMax
  | .mpi => nev ≥ b.phNevMax

/-- A call of the program. -/
inductive Call
  | setEvt (name : String)
  | commit
  deriving DecidableEq, Repr

/-- One call, with the return code dropped. -/
def step (f : Front) (s : EvtState b) : Call → Option (EvtState b)
  | .setEvt name => (f.setEvt parse s name).map Prod.snd
  | .commit => some (phCommit s)

/-! ## All or nothing -/

/-- A registration either returns 0 and enters the event in all three places, or
returns another code and changes nothing. -/
def AllOrNothing (name : String) (s : EvtState b) : Option (ℕ × EvtState b) → Prop
  | none => False
  | some (ret, t) =>
      (ret = 0 ∧ t.nev = s.nev + 1 ∧
        t.evcodes.toList = s.evcodes.toList.set s.nev (parse name) ∧
        t.etag = s.etag ++ [⟨s.nev + 1, name, parse name⟩]) ∨
      (ret ≠ 0 ∧ t.nev = s.nev ∧ t.evcodes = s.evcodes ∧ t.etag = s.etag)

/-- Rows of `etag.csv` with ids `1, …, ph_nev`, one for each `ev` column of the record
file. -/
def Names (s : EvtState b) : Prop :=
  s.etag.map EtagRow.id = (List.range s.nev).map (· + 1) ∧
    s.header = some (scalarColumns ++ s.etag.map fun r => "ev" ++ toString r.id)

/-- What a call owes: registration in all places or none, and at the commit a record
file whose columns `etag.csv` names. -/
def Owes (f : Front) (s : EvtState b) : Call → Prop
  | .setEvt name => AllOrNothing parse name s (f.setEvt parse s name)
  | .commit => Names (phCommit s)

/-- The calls that meet what they owe. A registration that is turned away does; one
that goes ahead must have a supported name, a free slot, and a code the slot can hold. -/
def Accountable (f : Front) (s : EvtState b) : Call → Prop
  | .setEvt name =>
      s.ready = true ∨ f.tooMany b s.nev = true ∨
        (Supported (parse name) ∧ s.nev < b.phNEV ∧ (b.api = .papi → (parse name).toNat < 2 ^ 31))
  | .commit => True

/-! ## Which calls are accountable -/

/-- A slot gives a supported code back, except that the `int` slots of a PAPI build
lose bit 31 to the sign. -/
theorem slotValue_eq_iff {code : U64} (hsupported : Supported code) :
    slotValue b code = code ↔ (b.api = .papi → code.toNat < 2 ^ 31) := by
  cases hapi : b.api with
  | phasm => simp [slotValue, hapi]
  | papi =>
      have hle : code.toNat ≤ 0xFFFFFFFE := BitVec.le_def.mp hsupported
      have hlow : (code.truncate 32).toNat = code.toNat := by
        rw [BitVec.truncate_eq_setWidth, BitVec.toNat_setWidth]
        exact Nat.mod_eq_of_lt (by omega)
      have hread : ((code.truncate 32).signExtend 64).toNat =
          code.toNat + if 2 ^ 31 ≤ code.toNat then 2 ^ 64 - 2 ^ 32 else 0 := by
        rw [BitVec.toNat_signExtend, BitVec.toNat_setWidth, hlow, BitVec.msb_eq_decide, hlow,
          Nat.mod_eq_of_lt (by omega)]
        simp
      simp only [slotValue, hapi, true_implies]
      rw [← BitVec.toNat_inj, hread]
      split <;> omega

variable {parse}

theorem setEvt_eq (f : Front) (s : EvtState b) (name : String) :
    f.setEvt parse s name = setEvtWith parse (f.tooMany b s.nev) s name := by
  cases f <;> rfl

/-- A call that goes ahead with an unknown event writes a row and counts nothing. -/
theorem not_allOrNothing_of_unsupported {tooMany : Bool} {s : EvtState b} {name : String}
    (hready : s.ready = false) (hroom : tooMany = false) (hunknown : ¬ Supported (parse name)) :
    ¬ AllOrNothing parse name s (setEvtWith parse tooMany s name) := by
  simp only [setEvtWith, hready, hroom, Bool.false_eq_true, if_false, if_neg hunknown]
  by_cases hpos : 0 < s.nev
  · simp [EvtState.wtetag, hpos, AllOrNothing]
  · simp [EvtState.wtetag, hpos, AllOrNothing]

/-- A call that goes ahead with a known event enters it as its slot gives it back, and
has no result when there is no slot. -/
theorem setEvtWith_of_supported {tooMany : Bool} {s : EvtState b} {name : String}
    (hready : s.ready = false) (hroom : tooMany = false) (hknown : Supported (parse name)) :
    (s.nev < b.phNEV → ∃ t, setEvtWith parse tooMany s name = some (0, t) ∧
      t.ready = false ∧ t.nev = s.nev + 1 ∧
      t.evcodes.toList = s.evcodes.toList.set s.nev (slotValue b (parse name)) ∧
      t.etag = s.etag ++ [⟨s.nev + 1, name, slotValue b (parse name)⟩]) ∧
    (¬ s.nev < b.phNEV → setEvtWith parse tooMany s name = none) := by
  constructor
  · intro hlt
    simp [setEvtWith, hready, hroom, hknown, EvtState.assign, hlt, EvtState.wtetag,
      Vector.toList_set]
  · intro hfull
    simp [setEvtWith, hready, hroom, hknown, EvtState.assign, hfull]

/-- The step lemma: a call owes nothing more exactly when it is accountable. -/
theorem allOrNothing_iff {tooMany : Bool} {s : EvtState b} {name : String} :
    AllOrNothing parse name s (setEvtWith parse tooMany s name) ↔
      s.ready = true ∨ tooMany = true ∨ (Supported (parse name) ∧ s.nev < b.phNEV ∧
        (b.api = .papi → (parse name).toNat < 2 ^ 31)) := by
  cases hready : s.ready with
  | true => simp [setEvtWith, hready, AllOrNothing]
  | false =>
      cases hroom : tooMany with
      | true => simp [setEvtWith, hready, AllOrNothing]
      | false =>
          simp only [Bool.false_eq_true, false_or]
          by_cases hknown : Supported (parse name)
          · obtain ⟨hslot, hnone⟩ := setEvtWith_of_supported (s := s) hready hroom hknown
            by_cases hlt : s.nev < b.phNEV
            · obtain ⟨t, hcall, -, hnev, hcodes, hetag⟩ := hslot hlt
              rw [← hroom, hcall, ← slotValue_eq_iff hknown]
              constructor
              · rintro (⟨-, -, -, hrow⟩ | ⟨hret, -⟩)
                · rw [hetag] at hrow
                  simp only [List.append_cancel_left_eq, List.cons.injEq, EtagRow.mk.injEq]
                    at hrow
                  exact ⟨hknown, hlt, hrow.1.2.2⟩
                · exact absurd rfl hret
              · rintro ⟨-, -, hvalue⟩
                refine Or.inl ⟨rfl, hnev, ?_, ?_⟩
                · rw [hcodes, hvalue]
                · rw [hetag, hvalue]
            · rw [← hroom, hnone hlt]
              simp [AllOrNothing, hlt]
          · simp only [hknown, false_and, iff_false]
            rw [← hroom]
            exact not_allOrNothing_of_unsupported hready hroom hknown

/-! ## Registering a list of events -/

/-- The events `names` are registered, in this order, and nothing is committed yet. -/
structure Registered (parse : String → U64) (s : EvtState b) (names : List String) : Prop where
  ready : s.ready = false
  nev : s.nev = names.length
  codes : s.evcodes.toList.take names.length = names.map fun name => slotValue b (parse name)
  rows : s.etag = names.mapIdx fun i name => ⟨i + 1, name, slotValue b (parse name)⟩

theorem registered_init : Registered parse (init b) [] := ⟨rfl, rfl, rfl, rfl⟩

/-- One more event. -/
theorem Registered.setEvt {s : EvtState b} {names : List String} (hs : Registered parse s names)
    (f : Front) {name : String} (hknown : Supported (parse name))
    (hroom : names.length < b.phNevMax) :
    ∃ t, f.setEvt parse s name = some (0, t) ∧ Registered parse t (names ++ [name]) := by
  have hslot : s.nev < b.phNEV := by
    rw [hs.nev]
    exact lt_of_lt_of_le hroom b.phNevMax_le_phNEV
  have hfree : f.tooMany b s.nev = false := by
    rw [hs.nev]
    cases f with
    | serial => exact decide_eq_false (Nat.not_lt.mpr (Nat.le_of_lt hroom))
    | mpi => exact decide_eq_false (Nat.not_le.mpr hroom)
  obtain ⟨t, hcall, hready, hnev, hcodes, hetag⟩ :=
    (setEvtWith_of_supported hs.ready hfree hknown).1 hslot
  refine ⟨t, (setEvt_eq f s name).trans hcall, hready, ?_, ?_, ?_⟩
  · rw [hnev, hs.nev, List.length_append, List.length_singleton]
  · have hlen : names.length < s.evcodes.toList.length := by
      rw [Vector.length_toList, ← hs.nev]
      exact hslot
    rw [hcodes, hs.nev, List.length_append, List.length_singleton, List.map_append, ← hs.codes,
      List.take_succ_eq_append_getElem (by rwa [List.length_set]), List.getElem_set_self,
      List.take_set_of_le (Nat.le_refl _)]
    rfl
  · rw [hetag, hs.rows, hs.nev, List.mapIdx_concat]

theorem registered_run {f : Front} {rest : List String} :
    ∀ {names : List String} {s : EvtState b}, Registered parse s names →
      (∀ name ∈ rest, Supported (parse name)) → names.length + rest.length ≤ b.phNevMax →
      ∃ t, Runs.run (step parse f) s (rest.map Call.setEvt) = some t ∧
        Registered parse t (names ++ rest) := by
  induction rest with
  | nil =>
      intro names s hs _ _
      exact ⟨s, rfl, by rwa [List.append_nil]⟩
  | cons name rest ih =>
      intro names s hs hknown hmax
      rw [List.length_cons] at hmax
      obtain ⟨t, hcall, ht⟩ := hs.setEvt f (hknown name List.mem_cons_self) (by omega)
      have hone : step parse f s (.setEvt name) = some t := by
        rw [step, hcall, Option.map_some]
      obtain ⟨u, hrun, hu⟩ := ih ht (fun n hn => hknown n (List.mem_cons_of_mem _ hn))
        (by rw [List.length_append, List.length_singleton]; omega)
      refine ⟨u, ?_, ?_⟩
      · rw [List.map_cons, Runs.run_cons hone, hrun]
      · rwa [List.append_assoc, List.singleton_append] at hu

/-! ## Whole sequences of calls -/

/-- The ids in `etag.csv` count the registered events. -/
def Numbered (s : EvtState b) : Prop :=
  s.etag.map EtagRow.id = (List.range s.nev).map (· + 1)

theorem numbered_init : Numbered (init b) := rfl

theorem numbered_of_allOrNothing {name : String} {s t : EvtState b} {ret : ℕ}
    (hs : Numbered s) (h : AllOrNothing parse name s (some (ret, t))) : Numbered t := by
  rcases h with ⟨-, hnev, -, hetag⟩ | ⟨-, hnev, -, hetag⟩
  · rw [Numbered, hetag, hnev, List.map_append, List.range_succ, List.map_append, ← hs]
    rfl
  · rw [Numbered, hetag, hnev]
    exact hs

/-- Numbered rows name the columns of the file the commit creates. -/
theorem names_phCommit {s : EvtState b} (hs : Numbered s) : Names (phCommit s) := by
  refine ⟨hs, ?_⟩
  have hcolumns : s.etag.map (fun r => "ev" ++ toString r.id) =
      (s.etag.map EtagRow.id).map fun i => "ev" ++ toString i := by
    rw [List.map_map]
    rfl
  have hnumbers : s.etag.map EtagRow.id = (List.range s.nev).map (· + 1) := hs
  simp only [phCommit, recHeader]
  rw [hcolumns, hnumbers, List.map_map]
  rfl

/-- From a numbered state an accountable call meets what it owes, and leaves a
numbered state. -/
theorem owes_of_accountable (f : Front) {s : EvtState b} {call : Call} (hs : Numbered s)
    (hcall : Accountable parse f s call) :
    Owes parse f s call ∧ ∀ t, step parse f s call = some t → Numbered t := by
  cases call with
  | commit =>
      refine ⟨names_phCommit hs, ?_⟩
      intro t hstep
      obtain rfl := Option.some.inj hstep
      exact hs
  | setEvt name =>
      have hall : AllOrNothing parse name s (f.setEvt parse s name) := by
        rw [setEvt_eq]
        exact allOrNothing_iff.mpr hcall
      refine ⟨hall, ?_⟩
      intro t hstep
      cases hresult : f.setEvt parse s name with
      | none => simp [step, hresult] at hstep
      | some result =>
          obtain ⟨ret, u⟩ := result
          rw [hresult] at hall
          obtain rfl : u = t := by simpa [step, hresult] using hstep
          exact numbered_of_allOrNothing hs hall

theorem accountable_of_owes (f : Front) {s : EvtState b} {call : Call}
    (hcall : Owes parse f s call) : Accountable parse f s call := by
  cases call with
  | commit => trivial
  | setEvt name =>
      rw [Owes, setEvt_eq] at hcall
      exact allOrNothing_iff.mp hcall

/-- **Registration is all or nothing exactly along accountable calls.** In a sequence
of registrations and commits, every call meets what it owes if and only if every
registration is turned away, or has a supported name, a free slot, and a code that its
slot can hold. -/
theorem registration_iff (b : Build) (parse : String → U64) (f : Front) (calls : List Call) :
    Runs.EveryStep (step parse f) (Owes parse f) (init b) calls ↔
      Runs.EveryStep (step parse f) (Accountable parse f) (init b) calls := by
  constructor
  · exact Runs.EveryStep.imp (fun _ => True)
      (fun s call _ hcall => ⟨accountable_of_owes f hcall, fun _ _ => trivial⟩)
      calls (init b) trivial
  · exact Runs.EveryStep.imp Numbered
      (fun s call hs hcall => owes_of_accountable f hs hcall) calls (init b) numbered_init

/-- A parser that knows one event. -/
def parseOne (name : String) : U64 :=
  if name = "INST_RETIRED.ANY_P" then 0x4100C0 else 0xFFFFFFFF

/-- An unknown name after a known one returns 0, counts nothing, and repeats the id and
the code of the event before. -/
theorem unknown_name_repeats_row :
    ∃ s t : EvtState ⟨.ev, .x86, .phasm⟩,
      phSetEvt parseOne (init ⟨.ev, .x86, .phasm⟩) "INST_RETIRED.ANY_P" = some (0, s) ∧
      phSetEvt parseOne s "NO_SUCH_EVENT" = some (0, t) ∧
      s.nev = 1 ∧ t.nev = 1 ∧
      t.etag = [⟨1, "INST_RETIRED.ANY_P", 0x4100C0⟩, ⟨1, "NO_SUCH_EVENT", 0x4100C0⟩] ∧
      ¬ Runs.EveryStep (step parseOne .serial) (Owes parseOne .serial)
        (init ⟨.ev, .x86, .phasm⟩)
        [.setEvt "INST_RETIRED.ANY_P", .setEvt "NO_SUCH_EVENT", .commit] := by
  refine ⟨_, _, rfl, rfl, rfl, rfl, rfl, ?_⟩
  intro hall
  have hsecond := (hall.2 _ rfl).1
  rcases hsecond with ⟨-, hnev, -⟩ | ⟨hret, -⟩
  · exact absurd hnev (by decide)
  · exact absurd rfl hret

end Events

end PerfHound
