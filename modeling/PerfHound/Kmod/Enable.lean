/-
# The global enable bits

`pfcCfgWr` is to leave a counter enabled exactly when what it stored for the counter
requests counting. It begins each round by writing the enable bit with 0, but the helper
that writes it only ever sets bits: `en |= !!v << i`. A counter that counts goes on
counting when it is reconfigured, whatever the new word says.

The law therefore holds after a write exactly when no bit of its range was left to be
cleared, and this is a condition on the state before the write and on its words.
-/

import PerfHound.Kmod.Policy
import PerfHound.Kmod.Reconfigure
import PerfHound.Lib.Runs

namespace PerfHound

open Lib

namespace Kmod

variable {pmu : Pmu} {m : Msrs} {r : CpuidReport}

/-! ## The law and its condition -/

/-- After the write, each counter in its range is enabled if and only if its stored
configuration requests counting. -/
def Follows (pmu : Pmu) (m : Msrs) (w : CfgWrite) : Prop :=
  ∀ p ∈ accessed pmu w.off w.len,
    (pmu.config (w.apply pmu m)).enabled p.1 = (pmu.config (w.apply pmu m)).requests p.1

/-- Word `w` asks counter `x` to count, and the module lets it. -/
def Counter.asks : Counter → U64 → Bool
  | .ff _, w => w.getLsbD 1
  | .gp i, w => w.getLsbD 22 && decide (Selectable i w)

/-- No counter in the range counts and is asked not to. A fixed counter that has a slot
but is not exported is written nowhere, so its bit and its field must agree already. -/
def NothingToClear (pmu : Pmu) (m : Msrs) (w : CfgWrite) : Prop :=
  ∀ p ∈ accessed pmu w.off w.len,
    if pmu.Exports p.1.bit then
      (pmu.config m).enabled p.1 = true → p.1.asks (w.buf p.2) = true
    else (pmu.config m).enabled p.1 = (pmu.config m).requests p.1

theorem Counter.exports_iff (fits : pmu.Fits) {x : Counter} (hx : x.Valid pmu) :
    pmu.Exports x.bit ↔ ∀ i, x = .ff i → i < pmu.pmcFf := by
  have hgp : pmu.pmcGp ≤ 25 := fits.gp
  cases x with
  | ff i =>
      simp only [Pmu.Exports, Counter.bit, Counter.ff.injEq]
      constructor
      · rintro h k rfl
        omega
      · intro h
        have := h i rfl
        omega
  | gp i =>
      have hi : i < pmu.pmcGp := hx
      simp only [Pmu.Exports, Counter.bit, hi, true_or, reduceCtorEq, false_implies, implies_true]

/-- An exported counter requests what its word asks for. -/
theorem Counter.test_store (fits : pmu.Fits) {x : Counter} (hx : x.Valid pmu)
    (hexports : pmu.Exports x.bit) (s w : U64) : x.test (x.store pmu s w) = x.asks w := by
  rw [Counter.test_eq]
  cases x with
  | ff i =>
      have hi : i < pmu.pmcFf := (Counter.exports_iff fits hx).mp hexports i rfl
      rw [Counter.store, if_pos hi, ov_three, getLsbD_low (by decide), Counter.asks]
      exact Bool.and_true _
  | gp i =>
      rw [Counter.store, getLsbD_blend_high, Counter.enableBit, if_pos (by decide), gpWord_eq,
        Counter.asks]
      by_cases hselectable : Selectable i w
      · rw [if_pos hselectable, getLsbD_clearPin, decide_eq_true hselectable]
        simp
      · rw [if_neg hselectable, decide_eq_false hselectable, Bool.and_false]
        exact BitVec.getLsbD_zero

theorem Counter.store_of_not_exports (fits : pmu.Fits) {x : Counter} (hx : x.Valid pmu)
    (hexports : ¬ pmu.Exports x.bit) (s w : U64) : x.store pmu s w = s := by
  cases x with
  | ff i =>
      rw [Counter.exports_iff fits hx] at hexports
      refine if_neg fun hi => hexports fun k hk => ?_
      cases hk
      exact hi
  | gp i => exact absurd (.inl hx) hexports

theorem follows_iff (h : phPmuInitCpuid r = some pmu) (m : Msrs) (w : CfgWrite) :
    Follows pmu m w ↔ NothingToClear pmu m w := by
  have fits := phPmuInitCpuid_fits h
  refine forall₂_congr fun p hp => ?_
  have hround := w.apply_of_mem h m hp
  have hx := w.valid h p hp
  have henabled : (pmu.config (w.apply pmu m)).enabled p.1 = _ := congrArg Prod.fst hround
  have hstored : (pmu.config (w.apply pmu m)).stored p.1 = _ := congrArg Prod.snd hround
  rw [Config.requests_eq, henabled, hstored]
  simp only [Counter.round]
  by_cases hexports : pmu.Exports p.1.bit
  · rw [if_pos hexports, Counter.test_store fits hx hexports, decide_eq_true hexports,
      Bool.and_true]
    cases (pmu.config m).enabled p.1 <;> cases p.1.asks (w.buf p.2) <;> simp
  · rw [if_neg hexports, Counter.store_of_not_exports fits hx hexports,
      decide_eq_false hexports, Bool.and_false, Bool.or_false, Config.requests_eq]

/-! ## Runs -/

/-- One write of a run. -/
def cfgStep (pmu : Pmu) (m : Msrs) (w : CfgWrite) : Option Msrs := some (w.apply pmu m)

/-- In a sequence of writes from the initialised counters on, every write leaves the
enable bits as the configuration says if and only if none of them found a bit to clear. -/
theorem enable_follows_iff (h : phPmuInitCpuid r = some pmu) (m : Msrs)
    (writes : List CfgWrite) :
    Runs.EveryStep (cfgStep pmu) (Follows pmu) (pmu.initialised m) writes ↔
      Runs.EveryStep (cfgStep pmu) (NothingToClear pmu) (pmu.initialised m) writes := by
  constructor
  · exact Runs.EveryStep.imp (fun _ => True)
      (fun t w _ hfollows => ⟨(follows_iff h t w).mp hfollows, fun _ _ => trivial⟩) _ _ trivial
  · exact Runs.EveryStep.imp (fun _ => True)
      (fun t w _ hnothing => ⟨(follows_iff h t w).mpr hnothing, fun _ _ => trivial⟩) _ _ trivial

/-- Two writes of one word to the slot of the first general-purpose counter: the
selection of an event with the enable flag, and 0. -/
def startThenStop : List CfgWrite :=
  [⟨24, 8, fun _ => 0x4100C0, by decide⟩, ⟨24, 8, fun _ => 0, by decide⟩]

/-- The first of the two leaves the counter as its configuration says. -/
theorem enable_follows_iff_start :
    Runs.EveryStep (cfgStep .quad) (Follows .quad) (Pmu.quad.initialised fun _ => 0)
      (startThenStop.take 1) := by
  refine (enable_follows_iff phPmuInitCpuid_quad _ _).mpr ⟨?_, fun _ _ => trivial⟩
  unfold NothingToClear
  decide +kernel

/-- The second is not: the counter stays enabled with 0 as its configuration. -/
theorem stopped_counter_enabled :
    ¬ Runs.EveryStep (cfgStep .quad) (Follows .quad) (Pmu.quad.initialised fun _ => 0)
      startThenStop := by
  intro h
  have hstop := (h.2 _ rfl).1 (.gp 0, 0) (by decide)
  exact absurd hstop (by decide +kernel)

end Kmod

end PerfHound
