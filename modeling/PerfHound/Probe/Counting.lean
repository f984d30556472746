/-
# The probe on the kernel module

An x86 build of the probe programs the counters through the sysfs files of the kernel
module: at its start it makes the fixed counters count and clears the first
general-purpose ones, and at the commit it writes the accepted event codes to the
general-purpose counters in the order of registration. It ignores what the writes return.

The module has rules of its own on what a counter may count. So a registered event is
counted exactly when the module lets the counter at its index count it, and a column
whose event is refused stays empty.
-/

import PerfHound.Kmod.Enable
import PerfHound.Probe.Events
import PerfHound.Probe.EvtX86

namespace PerfHound

open Lib Kmod EvtX86

namespace Counting

/-! ## The client of the sysfs files -/

/-- `PH_PMU_ERR_PWRITE_FAILED` and its like, for a write of `n` words. -/
def pwriteStatus (n : ℕ) (actual : ℤ) : ℤ :=
  if actual = -1 then -2 else if actual < 8 * n then -3 else 0

def phPmuWrCfgs (pmu : Pmu) (k n : ℕ) (cfg : ℕ → U64) : Kprog ℤ := do
  let (actual, _) ← pfcCfgWr pmu (BitVec.ofNat 64 (8 * k)) (BitVec.ofNat 64 (8 * n)) cfg
  pure (pwriteStatus n actual)

def phPmuWrCnts (pmu : Pmu) (k n : ℕ) (cnt : ℕ → U64) : Kprog ℤ := do
  let (actual, _) ← pfcCntWr pmu (BitVec.ofNat 64 (8 * k)) (BitVec.ofNat 64 (8 * n)) cnt
  pure (pwriteStatus n actual)

/-- The configurations of `_ph_init_ts`. -/
def phCfgs (j : ℕ) : U64 := if j < 3 then 2 else 0

/-- `_ph_init_ts`, when the sysfs files could be opened. -/
def phInitTs (pmu : Pmu) : Kprog Unit := do
  let _ ← phPmuWrCfgs pmu 0 7 phCfgs
  let _ ← phPmuWrCnts pmu 0 7 fun _ => 0

def phConfigEvent (pmu : Pmu) (codeArr : ℕ → U64) (nevt : ℕ) : Kprog Unit :=
  if nevt ≠ 0 then do
    let _ ← phPmuWrCfgs pmu 3 nevt codeArr
    let _ ← phPmuWrCnts pmu 3 nevt fun _ => 0
  else pure ()

/-! ## Probe and module together -/

abbrev x86 (evMode : EvMode) : Build := ⟨evMode, .x86, .phasm⟩

/-- The probe's state and the registers of its CPU. -/
structure System (evMode : EvMode) where
  evt : Events.EvtState (x86 evMode)
  msrs : Msrs

/-- The words of `ph_evcodes`. -/
def System.codes {evMode : EvMode} (s : System evMode) (j : ℕ) : U64 :=
  s.evt.evcodes.toList.getD j 0

/-- The state `ph_init` leaves, on counters in the state `m`. -/
def start (evMode : EvMode) (pmu : Pmu) (m : Msrs) : System evMode where
  evt := Events.init _
  msrs := ((phInitTs pmu).run pmu.device m).2

/-- One call. Only the commit reaches the counters. -/
def step {evMode : EvMode} (pmu : Pmu) (s : System evMode) (call : Events.Call) :
    Option (System evMode) :=
  (Events.step phParseEvent .serial s.evt call).map fun evt =>
    match call with
    | .setEvt _ => ⟨evt, s.msrs⟩
    | .commit => ⟨evt, ((phConfigEvent pmu s.codes s.evt.nev).run pmu.device s.msrs).2⟩

variable {pmu : Pmu} {r : CpuidReport} {evMode : EvMode}

/-! ## Which words the requests reach -/

section Request

variable {k n : ℕ} {words : ℕ → U64}

/-- `n` words for the slots from `k` on. -/
def request (k n : ℕ) (words : ℕ → U64) (hkn : k + n ≤ maxpmc) : CfgWrite where
  off := BitVec.ofNat 64 (8 * k)
  len := BitVec.ofNat 64 (8 * n)
  buf := words
  inFile := by
    have hmax : k + n ≤ 25 := hkn
    rw [BitVec.toNat_ofNat, BitVec.toNat_ofNat, Nat.mod_eq_of_lt (by omega),
      Nat.mod_eq_of_lt (by omega), ← Nat.mul_add]
    exact Nat.mul_le_mul_left 8 hkn

@[simp]
theorem request_buf (hkn : k + n ≤ maxpmc) : (request k n words hkn).buf = words := rfl

theorem accessed_request (hkn : k + n ≤ maxpmc) :
    accessed pmu (request k n words hkn).off (request k n words hkn).len =
      (List.range (min (k + n) pmu.pmcEndFf - max k pmu.pmcStartFf)).map (fun l =>
        (Counter.ff (max k pmu.pmcStartFf - pmu.pmcStartFf + l), 0 + l)) ++
      (List.range (min (k + n) pmu.pmcEndGp - max k pmu.pmcStartGp)).map (fun l =>
        (Counter.gp (max k pmu.pmcStartGp - pmu.pmcStartGp + l),
          min (k + n) pmu.pmcEndFf - max k pmu.pmcStartFf + l)) := by
  have hmax : k + n ≤ 25 := hkn
  have hoff : (request k n words hkn).off.toNat = 8 * k := by
    rw [request, BitVec.toNat_ofNat, Nat.mod_eq_of_lt (by omega)]
  have hlen : (request k n words hkn).len.toNat = 8 * n := by
    rw [request, BitVec.toNat_ofNat, Nat.mod_eq_of_lt (by omega)]
  rw [accessed_window hoff hlen hkn, overlap_window hoff hlen hkn, overlap_window hoff hlen hkn,
    List.length_map, List.length_range]

/-- A request from slot 3 on gives general-purpose counter `i` its word `i`. -/
theorem mem_request (h : phPmuInitCpuid r = some pmu) (hkn : 3 + n ≤ maxpmc) {i : ℕ} (hi : i < n)
    (hgp : i < pmu.pmcGp) :
    (Counter.gp i, i) ∈ accessed pmu (request 3 n words hkn).off (request 3 n words hkn).len := by
  obtain ⟨_, hstartFf, hendFf, hstartGp, gp, hendGp, hclamp⟩ := phPmuInitCpuid_slots h
  have hle := (clampCounts_le pmu.pmcEndFf gp).2.1
  rw [hclamp] at hle
  have hthree : phPmuSysfsMaxFf = 3 := rfl
  rw [accessed_request, List.mem_append]
  refine .inr (List.mem_map.mpr ⟨i, List.mem_range.mpr (by omega), ?_⟩)
  rw [Prod.mk.injEq, Counter.gp.injEq]
  omega

/-- With three fixed counters, a request from slot 0 on has three words for them first. -/
theorem index_of_gp (h : phPmuInitCpuid r = some pmu) (hff : 3 ≤ pmu.pmcFfHw)
    (hkn : 0 + n ≤ maxpmc) {p : Counter × ℕ} {i : ℕ}
    (hp : p ∈ accessed pmu (request 0 n words hkn).off (request 0 n words hkn).len)
    (hgp : p.1 = .gp i) : 3 ≤ p.2 := by
  obtain ⟨_, hstartFf, hendFf, hstartGp, gp, hendGp, _⟩ := phPmuInitCpuid_slots h
  have hthree : phPmuSysfsMaxFf = 3 := rfl
  rw [accessed_request, List.mem_append, List.mem_map, List.mem_map] at hp
  rcases hp with ⟨l, _, rfl⟩ | ⟨l, hl, rfl⟩
  · cases hgp
  · rw [List.mem_range] at hl
    simp only
    omega

/-- Writing words and clearing counts leaves the configuration the words lead to. -/
theorem config_requests (h : phPmuInitCpuid r = some pmu) (hkn : k + n ≤ maxpmc)
    (cnts : ℕ → U64) (m : Msrs) :
    pmu.config ((do let _ ← phPmuWrCfgs pmu k n words
                    let _ ← phPmuWrCnts pmu k n cnts : Kprog Unit).run pmu.device m).2 =
      pmu.config ((request k n words hkn).apply pmu m) := by
  have hcfgs : ((phPmuWrCfgs pmu k n words).run pmu.device m).2 =
      (request k n words hkn).apply pmu m := by
    rw [phPmuWrCfgs, RegProg.run_bind]
    rfl
  have hcnts : ∀ t, pmu.config ((phPmuWrCnts pmu k n cnts).run pmu.device t).2 = pmu.config t := by
    intro t
    rw [phPmuWrCnts, RegProg.run_bind]
    exact (request k n cnts hkn).config_cntWr h t
  rw [RegProg.run_bind, RegProg.run_bind, hcfgs]
  exact hcnts _

end Request

/-! ## The counters of the registered events -/

/-- No general-purpose counter is enabled when the registration begins. -/
theorem disabled_start (h : phPmuInitCpuid r = some pmu) (hff : 3 ≤ pmu.pmcFfHw) (m : Msrs)
    (evMode : EvMode) {i : ℕ} (hi : i < pmu.pmcGp) :
    (pmu.config (start evMode pmu (pmu.initialised m)).msrs).enabled (.gp i) = false := by
  have fits := phPmuInitCpuid_fits h
  have hexports : pmu.Exports (Counter.gp i).bit := .inl hi
  have hkn : 0 + 7 ≤ maxpmc := by decide
  have hreset : (pmu.config (pmu.initialised m)).enabled (.gp i) = false := by
    rw [config_initialised fits, Config.enabled, Config.reset, getLsbD_blend, getLsbD_globalMask,
      decide_eq_false fun hreserved => hreserved.2 hexports]
    exact BitVec.getLsbD_zero
  have hmsrs : pmu.config (start evMode pmu (pmu.initialised m)).msrs =
      pmu.config ((request 0 7 phCfgs hkn).apply pmu (pmu.initialised m)) :=
    config_requests h hkn _ _
  rw [hmsrs]
  by_cases hmem : ∃ p ∈ accessed pmu (request 0 7 phCfgs hkn).off (request 0 7 phCfgs hkn).len,
      p.1 = .gp i
  · obtain ⟨p, hp, hpi⟩ := hmem
    have hword : phCfgs p.2 = 0 := if_neg (Nat.not_lt.mpr (index_of_gp h hff hkn hp hpi))
    have henabled := congrArg Prod.fst
      ((request 0 7 phCfgs hkn).apply_of_mem h (pmu.initialised m) hp)
    rw [hpi] at henabled
    simp only [Counter.round, hreset, request_buf, hword, Bool.false_or,
      Counter.test_store fits (x := .gp i) hi hexports] at henabled
    exact henabled
  · have hne : ∀ p ∈ accessed pmu (request 0 7 phCfgs hkn).off (request 0 7 phCfgs hkn).len,
        Counter.gp i ≠ p.1 := fun p hp heq => hmem ⟨p, hp, heq.symm⟩
    have hsame := (request 0 7 phCfgs hkn).apply_of_not_mem h (pmu.initialised m)
      (x := .gp i) hi hne
    exact (congrArg Prod.fst hsame).trans hreset

/-- The low half of a selection register, and the bit that starts its counter: counter `i`
counts what `code` selects if the module lets it, and nothing otherwise. -/
def CountsIfAllowed (i : ℕ) (code : U64) (m : Msrs) : Prop :=
  if Selectable i code then
    m (msrPerfevtsel0 + i) &&& 0xFFFFFFFF = code ∧ (m msrPerfGlobalCtrl).getLsbD i = true
  else m (msrPerfevtsel0 + i) &&& 0xFFFFFFFF = 0 ∧ (m msrPerfGlobalCtrl).getLsbD i = false

/-- What the module stores for the word of an accepted event. -/
theorem low_blend_gpWord {i : ℕ} {code : U64} (hcode : Selects code) (old : U64) :
    blend 0xFFFFFFFF00000000 old (gpWord i code) &&& 0xFFFFFFFF =
      if Selectable i code then code else 0 := by
  apply BitVec.eq_of_getLsbD_eq
  intro b _
  rw [ov_thirtyTwo, getLsbD_low (by decide), getLsbD_blend_high, gpWord_eq]
  by_cases hb : b < 32
  · rw [if_pos hb, decide_eq_true hb, Bool.and_true]
    by_cases hselectable : Selectable i code
    · rw [if_pos hselectable, if_pos hselectable, getLsbD_clearPin]
      by_cases hpin : b = 19 ∨ b = 20
      · have hclear : code.getLsbD b = false := by
          rcases hpin with rfl | rfl
          · exact hcode.pin
          · exact hcode.interrupt
        rw [hclear, Bool.false_and]
      · rw [decide_eq_true (not_or.mp hpin), Bool.and_true]
    · rw [if_neg hselectable, if_neg hselectable]
  · rw [decide_eq_false hb, Bool.and_false]
    split
    · exact (hcode.high b (Nat.le_of_not_lt hb)).symm
    · exact BitVec.getLsbD_zero.symm

/-- The commit of `n` accepted events. -/
theorem countsIfAllowed_commit (h : phPmuInitCpuid r = some pmu) {n : ℕ} (codes : ℕ → U64)
    (hkn : 3 + n ≤ maxpmc) (hn : n ≤ pmu.pmcGp) {m : Msrs} {i : ℕ} (hi : i < n)
    (hcode : Selects (codes i)) (hdisabled : (pmu.config m).enabled (.gp i) = false) :
    CountsIfAllowed i (codes i) ((phConfigEvent pmu codes n).run pmu.device m).2 := by
  have fits := phPmuInitCpuid_fits h
  have hgp : i < pmu.pmcGp := Nat.lt_of_lt_of_le hi hn
  have hexports : pmu.Exports (Counter.gp i).bit := .inl hgp
  have hround := (request 3 n codes hkn).apply_of_mem h m (mem_request h hkn hi hgp)
  have hconfig : pmu.config ((phConfigEvent pmu codes n).run pmu.device m).2 =
      pmu.config ((request 3 n codes hkn).apply pmu m) := by
    rw [phConfigEvent, if_pos (Nat.ne_of_gt (Nat.lt_of_le_of_lt (Nat.zero_le i) hi))]
    exact config_requests h hkn _ _
  generalize ((phConfigEvent pmu codes n).run pmu.device m).2 = t at hconfig
  have henabled : (pmu.config t).enabled (.gp i) = decide (Selectable i (codes i)) := by
    have hbit := congrArg Prod.fst hround
    simp only [Counter.round, hdisabled, request_buf, Bool.false_or,
      Counter.test_store fits (x := .gp i) hgp hexports, Counter.asks, hcode.enable,
      Bool.true_and] at hbit
    rw [decide_eq_true hexports, Bool.and_true] at hbit
    rw [hconfig]
    exact hbit
  have hstored : t (msrPerfevtsel0 + i) =
      blend 0xFFFFFFFF00000000 ((pmu.config m).perfevtsel i) (gpWord i (codes i)) := by
    have hsel : (pmu.config t).perfevtsel i = t (msrPerfevtsel0 + i) := if_pos hgp
    rw [← hsel, hconfig]
    exact congrArg Prod.snd hround
  have hlow := low_blend_gpWord hcode ((pmu.config m).perfevtsel i) (i := i)
  rw [← hstored] at hlow
  unfold CountsIfAllowed
  by_cases hselectable : Selectable i (codes i)
  · rw [if_pos hselectable] at hlow ⊢
    rw [decide_eq_true hselectable] at henabled
    exact ⟨hlow, henabled⟩
  · rw [if_neg hselectable] at hlow ⊢
    rw [decide_eq_false hselectable] at henabled
    exact ⟨hlow, henabled⟩

/-! ## Registered events -/

/-- Registrations leave the counters alone. -/
theorem run_setEvts (pmu : Pmu) {s : System evMode} {names : List String}
    {evt : Events.EvtState (x86 evMode)}
    (hrun : Runs.run (Events.step phParseEvent .serial) s.evt (names.map .setEvt) = some evt) :
    Runs.run (step pmu) s (names.map .setEvt) = some ⟨evt, s.msrs⟩ := by
  induction names generalizing s with
  | nil =>
      obtain rfl : s.evt = evt := by simpa using hrun
      rfl
  | cons name rest ih =>
      rw [List.map_cons] at hrun ⊢
      cases hone : Events.step phParseEvent .serial s.evt (.setEvt name) with
      | none => simp [Runs.run, hone] at hrun
      | some next =>
          have hstep : step pmu s (.setEvt name) = some ⟨next, s.msrs⟩ := by
            rw [step, hone, Option.map_some]
          rw [Runs.run_cons hone] at hrun
          rw [Runs.run_cons hstep]
          exact ih (s := ⟨next, s.msrs⟩) hrun

/-- From initialised counters on, the accepted events of a program are registered in
order, `etag.csv` names them, and after the commit each is counted on the counter of its
index if and only if the module lets that counter count it. -/
theorem accepted_events_counted (h : phPmuInitCpuid r = some pmu) (hff : 3 ≤ pmu.pmcFfHw)
    (m : Msrs) (evMode : EvMode) (names : List String)
    (haccepted : ∀ name ∈ names, Events.Supported (phParseEvent name))
    (hmax : names.length ≤ (x86 evMode).phNevMax) (hgp : names.length ≤ pmu.pmcGp) :
    ∃ t, Runs.run (step pmu) (start evMode pmu (pmu.initialised m))
          (names.map .setEvt ++ [.commit]) = some t ∧
      t.evt.nev = names.length ∧
      t.evt.etag = names.mapIdx (fun i name => ⟨i + 1, name, phParseEvent name⟩) ∧
      ∀ (i : ℕ) (hi : i < names.length),
        t.codes i = phParseEvent names[i] ∧ CountsIfAllowed i (phParseEvent names[i]) t.msrs := by
  obtain ⟨evt, hrun, hregistered⟩ := Events.registered_run (b := x86 evMode) (f := .serial)
    Events.registered_init haccepted (by rwa [List.length_nil, Nat.zero_add])
  rw [List.nil_append] at hregistered
  have hsetEvts := run_setEvts pmu (s := start evMode pmu (pmu.initialised m)) hrun
  have hcode : ∀ (i : ℕ) (hi : i < names.length),
      evt.evcodes.toList.getD i 0 = phParseEvent names[i] := by
    intro i hi
    have htake := congrArg (fun l => l[i]?) hregistered.codes
    rw [List.getElem?_take_of_lt hi, List.getElem?_map, List.getElem?_eq_getElem hi] at htake
    rw [List.getD, htake]
    rfl
  refine ⟨_, (Runs.run_append hsetEvts _).trans rfl, hregistered.nev, hregistered.rows, ?_⟩
  intro i hi
  refine ⟨hcode i hi, ?_⟩
  have hkn : 3 + evt.nev ≤ maxpmc := by
    have hlen := hmax.trans (x86 evMode).phNevMax_le_phNEV
    have hevts : (x86 evMode).phNEV ≤ 12 := by cases evMode <;> decide
    have hmaxpmc : maxpmc = 25 := rfl
    rw [hregistered.nev]
    omega
  have hselects : Selects (evt.evcodes.toList.getD i 0) := by
    rw [hcode i hi]
    exact selects_phParseEvent (haccepted _ (List.getElem_mem hi))
  have hcommit := countsIfAllowed_commit h (fun j => evt.evcodes.toList.getD j 0) hkn
    (hregistered.nev ▸ hgp) (hregistered.nev ▸ hi) hselects
    (disabled_start h hff m evMode (Nat.lt_of_lt_of_le hi hgp))
  simp only [hcode i hi] at hcommit
  exact hcommit

/-- Two events on a core with four general-purpose counters. -/
theorem accepted_events_counted_quad :
    ∃ t, Runs.run (step .quad) (start .ev .quad (Pmu.quad.initialised fun _ => 0))
          (["br_inst_retired.near_taken:u", "l2_rqsts.miss"].map .setEvt ++ [.commit]) = some t ∧
      t.evt.nev = 2 ∧
      t.evt.etag = ["br_inst_retired.near_taken:u", "l2_rqsts.miss"].mapIdx
        (fun i name => ⟨i + 1, name, phParseEvent name⟩) ∧
      ∀ (i : ℕ) (hi : i < 2),
        t.codes i = phParseEvent (["br_inst_retired.near_taken:u", "l2_rqsts.miss"].get ⟨i, hi⟩) ∧
          CountsIfAllowed i
            (phParseEvent (["br_inst_retired.near_taken:u", "l2_rqsts.miss"].get ⟨i, hi⟩)) t.msrs :=
  accepted_events_counted phPmuInitCpuid_quad (by decide) _ _ _ (by decide +kernel) (by decide)
    (by decide)

/-- An event that may be counted on counter 2 only, registered first: it is accepted,
but its counter selects nothing and stays disabled. -/
theorem refused_event_not_counted :
    ∃ t, Runs.run (step .quad) (start .ev .quad (Pmu.quad.initialised fun _ => 0))
          [.setEvt "l1d_pend_miss.pending", .commit] = some t ∧
      Events.Supported (phParseEvent "l1d_pend_miss.pending") ∧ t.evt.nev = 1 ∧
      t.codes 0 = phParseEvent "l1d_pend_miss.pending" ∧
      ¬ (t.msrs (msrPerfevtsel0 + 0) &&& 0xFFFFFFFF = t.codes 0 ∧
        (t.msrs msrPerfGlobalCtrl).getLsbD 0 = true) := by
  have hview : (Runs.run (step .quad) (start .ev .quad (Pmu.quad.initialised fun _ => 0))
      [.setEvt "l1d_pend_miss.pending", .commit]).map (fun t =>
        (t.evt.nev, t.codes 0, t.msrs (msrPerfevtsel0 + 0) &&& 0xFFFFFFFF)) =
      some (1, 0x410148, 0) := by decide +kernel
  obtain ⟨t, hrun, hview⟩ := Option.map_eq_some_iff.mp hview
  simp only [Prod.mk.injEq] at hview
  obtain ⟨hnev, hcode, hlow⟩ := hview
  have hparse : phParseEvent "l1d_pend_miss.pending" = 0x410148 := by decide +kernel
  refine ⟨t, hrun, by decide +kernel, hnev, hcode.trans hparse.symm, ?_⟩
  rintro ⟨hcounted, _⟩
  rw [hlow, hcode] at hcounted
  exact absurd hcounted (by decide)

end Counting

end PerfHound
