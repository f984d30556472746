/-
# Loading the kernel module

What the module learns from CPUID: how many counters there are, and which slots of the
sysfs files they own. And the state in which it leaves the counters of every CPU.
-/

import PerfHound.Kmod.Msr

namespace PerfHound

open Lib

namespace Kmod

variable {pmu : Pmu} {m : Msrs}

/-! ## The CPUID report -/

/-- What the processor reports: the parts of the CPUID leaves that matter, and
`MSR_IA32_PERF_CAPABILITIES`. -/
structure CpuidReport where
  maxLeaf : U32
  leaf1c : U32
  leafAa : U32
  leafAd : U32
  perfCapabilities : U64
  deriving DecidableEq, Repr

/-- The clamping of the numbers of fixed and general-purpose counters. -/
def clampCounts (pmcFf pmcGp : ℕ) : ℕ × ℕ :=
  if pmcFf + pmcGp > maxpmc then
    let gp := if pmcGp > maxpmc then maxpmc else pmcGp
    (if gp + pmcFf > maxpmc then maxpmc - gp else pmcFf, gp)
  else (pmcFf, pmcGp)

/-- `ph_pmu_init_cpuid`, without its messages. The sysfs bounds are saved before the
counts are clamped. -/
def phPmuInitCpuid (r : CpuidReport) : Option Pmu :=
  let pmcArchVer := (r.leafAa &&& 0xFF).toNat
  if r.maxLeaf < 0xA then none
  else if (r.leaf1c >>> 15) &&& 1 = 0 then none
  else if pmcArchVer < 3 ∨ pmcArchVer > 6 then none
  else
    let fullWidthWrites := (r.perfCapabilities >>> 13) &&& 1 != 0
    let pmcGp := ((r.leafAa >>> 8) &&& 0xFF).toNat
    let pmcGpBitwidth := ((r.leafAa >>> 16) &&& 0xFF).toNat
    let pmcFfHw := (r.leafAd &&& 0x1F).toNat
    let pmcFfBitwidth := ((r.leafAd >>> 5) &&& 0xFF).toNat
    let pmcFf := if pmcFfHw > phPmuSysfsMaxFf then phPmuSysfsMaxFf else pmcFfHw
    some
      { pmcFfHw, pmcFf := (clampCounts pmcFf pmcGp).1, pmcGp := (clampCounts pmcFf pmcGp).2
        pmcGpBitwidth
        pmcFfMask := ov pmcFfBitwidth 0
        pmcGpMask := if fullWidthWrites then ov pmcGpBitwidth 0 else ov 32 0
        pmcStartFf := 0, pmcEndFf := pmcFf
        pmcStartGp := phPmuSysfsMaxFf, pmcEndGp := phPmuSysfsMaxFf + pmcGp
        fullWidthWrites }

theorem clampCounts_le (pmcFf pmcGp : ℕ) :
    (clampCounts pmcFf pmcGp).1 ≤ pmcFf ∧ (clampCounts pmcFf pmcGp).2 ≤ pmcGp ∧
      (clampCounts pmcFf pmcGp).1 + (clampCounts pmcFf pmcGp).2 ≤ maxpmc := by
  unfold clampCounts
  by_cases hclamp : pmcFf + pmcGp > maxpmc
  · rw [if_pos hclamp]
    grind
  · rw [if_neg hclamp]
    exact ⟨le_rfl, le_rfl, Nat.le_of_not_lt hclamp⟩

theorem clampCounts_snd (pmcFf pmcGp : ℕ) : (clampCounts pmcFf pmcGp).2 = min pmcGp maxpmc := by
  unfold clampCounts
  by_cases hclamp : pmcFf + pmcGp > maxpmc
  · rw [if_pos hclamp]
    by_cases hgp : pmcGp > maxpmc
    · rw [if_pos hgp, Nat.min_eq_right (Nat.le_of_lt hgp)]
    · rw [if_neg hgp, Nat.min_eq_left (Nat.le_of_not_lt hgp)]
  · rw [if_neg hclamp, Nat.min_eq_left (by omega)]

/-- What the CPUID report leads to: the counters fit the slots, which are those of the
counts before the clamping. -/
theorem phPmuInitCpuid_slots {r : CpuidReport} {pmu : Pmu} (h : phPmuInitCpuid r = some pmu) :
    pmu.pmcFfHw < 32 ∧ pmu.pmcStartFf = 0 ∧ pmu.pmcEndFf = min pmu.pmcFfHw phPmuSysfsMaxFf ∧
      pmu.pmcStartGp = phPmuSysfsMaxFf ∧ ∃ gp, pmu.pmcEndGp = phPmuSysfsMaxFf + gp ∧
        clampCounts pmu.pmcEndFf gp = (pmu.pmcFf, pmu.pmcGp) := by
  have hffHw : (r.leafAd &&& 0x1F).toNat < 32 := by
    rw [BitVec.toNat_and]
    exact Nat.and_lt_two_pow _ (by decide : (0x1F : U32).toNat < 2 ^ 5)
  simp only [phPmuInitCpuid] at h
  split at h <;> [cases h; skip]
  split at h <;> [cases h; skip]
  split at h <;> [cases h; skip]
  cases h
  refine ⟨hffHw, rfl, ?_, rfl, _, rfl, rfl⟩
  rw [Nat.min_comm, Nat.min_def]
  by_cases hmany : (r.leafAd &&& 0x1F).toNat > phPmuSysfsMaxFf
  · simp only [hmany, if_true, Nat.le_of_lt hmany]
  · simp only [hmany, if_false]
    split <;> omega

theorem phPmuInitCpuid_fits {r : CpuidReport} {pmu : Pmu} (h : phPmuInitCpuid r = some pmu) :
    pmu.Fits := by
  obtain ⟨hffHw, _, hendFf, _, gp, _, hclamp⟩ := phPmuInitCpuid_slots h
  have hle := clampCounts_le pmu.pmcEndFf gp
  rw [hclamp] at hle
  exact ⟨hffHw, hle.1.trans (hendFf ▸ Nat.min_le_right _ _), (Nat.le_add_left _ _).trans hle.2.2⟩

/-- Without clamping, the slots are those of the exported counters. -/
structure Pmu.Unclamped (pmu : Pmu) : Prop where
  ffHw : pmu.pmcFfHw < 32
  ff : pmu.pmcFf ≤ phPmuSysfsMaxFf
  sum : pmu.pmcFf + pmu.pmcGp ≤ maxpmc
  startFf : pmu.pmcStartFf = 0
  endFf : pmu.pmcEndFf = pmu.pmcFf
  startGp : pmu.pmcStartGp = phPmuSysfsMaxFf
  endGp : pmu.pmcEndGp = phPmuSysfsMaxFf + pmu.pmcGp

theorem Pmu.Unclamped.fits (h : pmu.Unclamped) : pmu.Fits :=
  ⟨h.ffHw, h.ff, (Nat.le_add_left _ _).trans h.sum⟩

theorem phPmuInitCpuid_unclamped {r : CpuidReport} {pmu : Pmu} (h : phPmuInitCpuid r = some pmu)
    (hsum : pmu.pmcEndFf + (pmu.pmcEndGp - pmu.pmcStartGp) ≤ maxpmc) : pmu.Unclamped := by
  obtain ⟨hffHw, hstartFf, hendFf, hstartGp, gp, hendGp, hclamp⟩ := phPmuInitCpuid_slots h
  rw [hendGp, hstartGp, Nat.add_sub_cancel_left] at hsum
  rw [clampCounts, if_neg (Nat.not_lt.mpr hsum), Prod.mk.injEq] at hclamp
  obtain ⟨hff, hgp⟩ := hclamp
  exact
    { ffHw := hffHw
      ff := hff ▸ hendFf ▸ Nat.min_le_right _ _
      sum := hff ▸ hgp ▸ hsum
      startFf := hstartFf
      endFf := hff
      startGp := hstartGp
      endGp := hgp ▸ hendGp }

/-- The report of a core with three fixed and four general-purpose counters. -/
def CpuidReport.quad : CpuidReport where
  maxLeaf := 0xD
  leaf1c := 0x8000
  leafAa := 0x00300404
  leafAd := 0x603
  perfCapabilities := 0x2000

/-- The counters of such a core. -/
def Pmu.quad : Pmu where
  pmcFfHw := 3
  pmcFf := 3
  pmcGp := 4
  pmcGpBitwidth := 48
  pmcFfMask := 0xFFFFFFFFFFFF
  pmcGpMask := 0xFFFFFFFFFFFF
  pmcStartFf := 0
  pmcEndFf := 3
  pmcStartGp := 3
  pmcEndGp := 7
  fullWidthWrites := true

theorem phPmuInitCpuid_quad : phPmuInitCpuid .quad = some .quad := by decide

theorem Pmu.unclamped_quad : Pmu.quad.Unclamped :=
  phPmuInitCpuid_unclamped phPmuInitCpuid_quad (by decide)

/-! ## The counters -/

def phPmuInitCounters (pmu : Pmu) : Kprog Unit := do
  pfcWrmsr pmu msrPerfGlobalCtrl 0
  pfcWrmsr pmu msrFixedCtrCtrl 0
  RegProg.loop (fun i _ _ => pfcWrmsr pmu (msrFixedCtr0 + i) 0) pmu.pmcFfHw 0 0 ()
  RegProg.loop (fun i _ _ => do
    pfcWrmsr pmu (msrPerfevtsel0 + i) 0
    pfcWrmsr pmu (msrPerfctr0 + i) 0) pmu.pmcGp 0 0 ()
  pfcWrmsr pmu msrPerfGlobalOvfCtrl (BitVec.allOnes 64)

/-- The configuration with every exported field zero. -/
def Config.reset (pmu : Pmu) (c : Config) : Config where
  perfevtsel i := blend 0xFFFFFFFF00000000 (c.perfevtsel i) 0
  fixedCtrCtrl := blend (zv (4 * pmu.pmcFf) 0) c.fixedCtrCtrl 0
  perfGlobalCtrl := blend (globalMask pmu) c.perfGlobalCtrl 0

/-- `ph_pmu_init_counters` resets the configuration. -/
theorem sets_initCounters (fits : pmu.Fits) :
    pmu.Sets (fun _ => True) m (phPmuInitCounters pmu) ((pmu.config m).reset pmu) := by
  have hgp : pmu.pmcGp ≤ 25 := fits.gp
  refine Pmu.Sets.bind (sets_globalCtrl fits rfl trivial) fun t₁ h₁ => ?_
  refine Pmu.Sets.bind (sets_fixedCtrCtrl fits rfl trivial) fun t₂ h₂ => ?_
  rw [h₁] at h₂
  -- the values of the fixed counters
  have hvalues : pmu.Sets (fun _ => True) t₂
      (RegProg.loop (fun i _ _ => pfcWrmsr pmu (msrFixedCtr0 + i) 0) pmu.pmcFfHw 0 0 ())
      (pmu.config t₂) := by
    refine Pmu.Sets.loop (fun _ => pmu.config t₂) rfl fun k hk t ht => ?_
    have hother := not_isConfig_fixedCtr fits (i := 0 + k) (by have := fits.ffHw; omega)
    rw [← ht]
    exact sets_other fits hother trivial
  refine Pmu.Sets.bind hvalues fun t₃ h₃ => ?_
  -- the selections and values of the general-purpose counters
  let conf : ℕ → Config := fun k =>
    { pmu.config t₂ with
      perfevtsel := fun i =>
        if i < k then blend 0xFFFFFFFF00000000 ((pmu.config t₂).perfevtsel i) 0
        else (pmu.config t₂).perfevtsel i }
  have hselections : pmu.Sets (fun _ => True) t₃
      (RegProg.loop (fun i _ _ => do
        pfcWrmsr pmu (msrPerfevtsel0 + i) 0
        pfcWrmsr pmu (msrPerfctr0 + i) 0) pmu.pmcGp 0 0 ()) (conf pmu.pmcGp) := by
    refine Pmu.Sets.loop conf h₃ fun k hk t ht => ?_
    rw [Nat.zero_add]
    have hnext : conf (k + 1) = { pmu.config t with
        perfevtsel := Function.update (pmu.config t).perfevtsel k
          (blend 0xFFFFFFFF00000000 ((pmu.config t).perfevtsel k) 0) } := by
      rw [ht]
      simp only [conf, Config.mk.injEq, and_true]
      funext i
      grind
    refine Pmu.Sets.bind (sets_perfevtsel fits hk hnext trivial) fun u hu => ?_
    have hvalue : pmu.IsValue (msrPerfctr0 + k) :=
      .inr ⟨Nat.le_add_right _ _, Nat.add_lt_add_left hk _⟩
    rw [← hu]
    exact sets_other fits (not_isConfig_of_isValue fits hvalue) trivial
  refine Pmu.Sets.bind hselections fun t₄ h₄ => ?_
  have hovf : ¬ pmu.IsConfig msrPerfGlobalOvfCtrl := by
    refine not_isConfig fits ?_ ?_ ?_ <;> decide
  have hend : (pmu.config m).reset pmu = pmu.config t₄ := by
    rw [h₄]
    simp only [conf, h₂, Config.reset, Config.mk.injEq, and_true]
    funext i
    by_cases hi : i < pmu.pmcGp
    · rw [if_pos hi]
    · have hzero : (pmu.config m).perfevtsel i = 0 := if_neg hi
      rw [if_neg hi, hzero, blend_self]
  rw [hend]
  exact sets_other fits hovf trivial

def Pmu.initialised (pmu : Pmu) (m : Msrs) : Msrs := ((phPmuInitCounters pmu).run pmu.device m).2

theorem config_initialised (fits : pmu.Fits) (m : Msrs) :
    pmu.config (pmu.initialised m) = (pmu.config m).reset pmu :=
  RegProg.Holds.run (sets_initCounters fits)

end Kmod

end PerfHound
