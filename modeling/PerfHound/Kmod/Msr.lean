/-
# The PMU registers and the kernel module's access to them

The model-specific registers of one CPU, the bit vectors the module builds its masks
from, and `pfcWRMSR`, the only function that writes a register: it knows a few
addresses, and blends the reserved bits of the old value into the new one.

Registers are plain storage, except that `IA32_A_PMCi` is the full-width name of
`IA32_PERFCTRi`, whose own writes take 32 bits and extend their sign. Counting, which
changes counter values between the accesses, is left out: no configuration is computed
from a counter value.
-/

import PerfHound.Core
import PerfHound.Lib.RegProg
import Mathlib.Data.Nat.Bitwise

namespace PerfHound

open Lib

namespace Kmod

/-! ## Bit vectors -/

/-- Ones vector: the `n` bits from bit `k` on. -/
def ov (n k : ℕ) : U64 :=
  let v : U64 := if n ≥ 64 then BitVec.allOnes 64 else ((1 : U64) <<< n) - 1
  v <<< k

/-- Zeros vector. -/
def zv (n k : ℕ) : U64 := ~~~ ov n k

/-- Bit vector: the low `n` bits of `v`, moved to bit `k`. -/
def bv (v : U64) (n k : ℕ) : U64 := (v &&& ov n 0) <<< k

/-- Clear vector: `v` without the `n` bits from bit `k` on. -/
def cv (v : U64) (n k : ℕ) : U64 := v &&& zv n k

theorem getLsbD_ones {n : ℕ} (hn : n < 64) (j : ℕ) :
    (((1 : U64) <<< n) - 1).getLsbD j = decide (j < n) := by
  have hpow : 2 ^ n < 2 ^ 64 := Nat.pow_lt_pow_right (by decide) hn
  have hpos : 0 < 2 ^ n := Nat.two_pow_pos n
  have hshift : ((1 : U64) <<< n).toNat = 2 ^ n := by
    have hone : (1 : U64).toNat = 1 := rfl
    rw [BitVec.toNat_shiftLeft, hone, Nat.shiftLeft_eq, Nat.one_mul, Nat.mod_eq_of_lt hpow]
  have hones : (((1 : U64) <<< n) - 1).toNat = 2 ^ n - 1 := by
    rw [BitVec.toNat_sub_of_le, hshift]
    · rfl
    · rw [BitVec.le_def, hshift]
      exact hpos
  rw [BitVec.getLsbD, hones, Nat.testBit_two_pow_sub_one]

@[simp]
theorem getLsbD_ov (n k j : ℕ) :
    (ov n k).getLsbD j = decide (k ≤ j ∧ j < n + k ∧ j < 64) := by
  simp only [ov, BitVec.getLsbD_shiftLeft]
  by_cases hn : n ≥ 64
  · simp only [hn, if_true, BitVec.getLsbD_allOnes]
    grind
  · rw [if_neg hn, getLsbD_ones (by omega)]
    grind

@[simp]
theorem getLsbD_zv (n k j : ℕ) :
    (zv n k).getLsbD j = decide (j < 64 ∧ (j < k ∨ n + k ≤ j)) := by
  simp only [zv, BitVec.getLsbD_not, getLsbD_ov]
  grind

@[simp]
theorem getLsbD_bv (v : U64) (n k j : ℕ) :
    (bv v n k).getLsbD j =
      (decide (k ≤ j ∧ j < n + k ∧ j < 64) && v.getLsbD (j - k)) := by
  simp only [bv, BitVec.getLsbD_shiftLeft, BitVec.getLsbD_and, getLsbD_ov]
  grind

@[simp]
theorem getLsbD_cv (v : U64) (n k j : ℕ) :
    (cv v n k).getLsbD j = (v.getLsbD j && decide (j < k ∨ n + k ≤ j)) := by
  simp only [cv, BitVec.getLsbD_and, getLsbD_zv]
  by_cases hj : j < 64
  · simp [hj]
  · simp [hj, BitVec.getLsbD_of_ge v j (by omega)]

/-! ## Registers -/

/-- The contents of the registers, by address. -/
abbrev Msrs := ℕ → U64

def msrPerfctr0 : ℕ := 0xC1
def msrPerfevtsel0 : ℕ := 0x186
def msrPerfCtl : ℕ := 0x199
def msrThermStatus : ℕ := 0x19C
def msrTemperatureTarget : ℕ := 0x1A2
def msrEnergyPerfBias : ℕ := 0x1B0
def msrPackageThermStatus : ℕ := 0x1B1
def msrFixedCtr0 : ℕ := 0x309
def msrFixedCtrCtrl : ℕ := 0x38D
def msrPerfGlobalStatus : ℕ := 0x38E
def msrPerfGlobalCtrl : ℕ := 0x38F
def msrPerfGlobalOvfCtrl : ℕ := 0x390
def msrPebsFrontend : ℕ := 0x3F7
def msrAPmc0 : ℕ := 0x4C1
def msrCorePerfLimitReasons : ℕ := 0x690

/-- `MAXPMC`, the number of slots of the sysfs files. -/
def maxpmc : ℕ := 25

/-- `PH_PMU_SYSFS_MAX_FF`, the number of slots for fixed counters. -/
def phPmuSysfsMaxFf : ℕ := 3

/-- The global variables of the module that describe the counters. -/
structure Pmu where
  /-- The fixed counters of the hardware, and those the module exports. -/
  pmcFfHw : ℕ
  pmcFf : ℕ
  pmcGp : ℕ
  pmcGpBitwidth : ℕ
  pmcFfMask : U64
  pmcGpMask : U64
  /-- The slots of the sysfs files that belong to fixed and general-purpose counters. -/
  pmcStartFf : ℕ
  pmcEndFf : ℕ
  pmcStartGp : ℕ
  pmcEndGp : ℕ
  fullWidthWrites : Bool
  deriving DecidableEq, Repr

/-- The registers of a CPU with the general-purpose counters of `pmu`. -/
def Pmu.device (pmu : Pmu) : Device ℕ U64 Msrs where
  read m addr :=
    if msrAPmc0 ≤ addr ∧ addr < msrAPmc0 + pmu.pmcGp then m (msrPerfctr0 + (addr - msrAPmc0))
    else m addr
  write m addr w :=
    if msrAPmc0 ≤ addr ∧ addr < msrAPmc0 + pmu.pmcGp then
      Function.update m (msrPerfctr0 + (addr - msrAPmc0)) (w &&& ov pmu.pmcGpBitwidth 0)
    else if msrPerfctr0 ≤ addr ∧ addr < msrPerfctr0 + pmu.pmcGp then
      Function.update m addr ((w.truncate 32).signExtend 64 &&& ov pmu.pmcGpBitwidth 0)
    else Function.update m addr w

/-- A part of the module that accesses the registers. -/
abbrev Kprog := RegProg ℕ U64

def pfcRdmsr (addr : ℕ) : Kprog U64 := RegProg.readReg addr

/-- The reserved bits of a register `pfcWRMSR` knows, and `none` for one that it does
not write. -/
def reservedMask (pmu : Pmu) (addr : ℕ) : Option U64 :=
  if (msrAPmc0 ≤ addr ∧ addr < msrAPmc0 + pmu.pmcGp) ∨
      (msrPerfctr0 ≤ addr ∧ addr < msrPerfctr0 + pmu.pmcGp) then
    some (~~~ pmu.pmcGpMask)
  else if addr = msrPerfGlobalCtrl then some (zv pmu.pmcFf 32 &&& zv pmu.pmcGp 0)
  else if addr = msrPerfGlobalStatus then none
  else if addr = msrPerfGlobalOvfCtrl then
    some (zv 3 61 &&& zv pmu.pmcFf 32 &&& zv pmu.pmcGp 0)
  else if addr = msrFixedCtrCtrl then some (zv (4 * pmu.pmcFf) 0)
  else if msrFixedCtr0 ≤ addr ∧ addr < msrFixedCtr0 + pmu.pmcFf then some (~~~ pmu.pmcFfMask)
  else if msrPerfevtsel0 ≤ addr ∧ addr < msrPerfevtsel0 + pmu.pmcGp then
    some 0xFFFFFFFF00000000
  else if addr = msrThermStatus then some 0xFFFFFFFF0780F000
  else if addr = msrPackageThermStatus then some 0xFFFFFFFFFF80F000
  else if addr = msrTemperatureTarget then some 0xFFFFFFFFF00000FF
  else if addr = msrCorePerfLimitReasons then some 0xFFFFFFFF1A90FFFF
  else if addr = msrEnergyPerfBias then some 0xFFFFFFFFFFFFFFF0
  else if addr = msrPerfCtl then some 0xFFFFFFFFFFFF0000
  else if addr = msrPebsFrontend then some 0xFFFFFFFFFFC000E8
  else none

/-- `pfcWRMSR`: blend the reserved bits of the old value into the new one. -/
def pfcWrmsr (pmu : Pmu) (addr : ℕ) (newVal : U64) : Kprog Unit :=
  match reservedMask pmu addr with
  | none => pure ()
  | some mask => do
      let old ← pfcRdmsr addr
      RegProg.writeReg addr ((~~~ mask &&& newVal) ||| (mask &&& old))

/-- The bits of `mask` from the old word, the others from the new one. -/
def blend (mask old new : U64) : U64 := (~~~ mask &&& new) ||| (mask &&& old)

theorem getLsbD_blend (mask old new : U64) (j : ℕ) :
    (blend mask old new).getLsbD j = if mask.getLsbD j then old.getLsbD j else new.getLsbD j := by
  simp only [blend, BitVec.getLsbD_or, BitVec.getLsbD_and, BitVec.getLsbD_not]
  by_cases hj : j < 64
  · cases mask.getLsbD j <;> simp [hj]
  · rw [BitVec.getLsbD_of_ge mask j (Nat.le_of_not_lt hj),
      BitVec.getLsbD_of_ge new j (Nat.le_of_not_lt hj)]
    simp

/-- Blending a word into itself changes nothing. -/
theorem blend_self (mask w : U64) : blend mask w w = w := by
  apply BitVec.eq_of_getLsbD_eq
  intro j _
  rw [getLsbD_blend, ite_self]

/-! ## The configuration of the counters -/

/-- The registers that say what the counters count. -/
structure Config where
  perfevtsel : ℕ → U64
  fixedCtrCtrl : U64
  perfGlobalCtrl : U64

/-- The counters fit the slots of the sysfs files. -/
structure Pmu.Fits (pmu : Pmu) : Prop where
  ffHw : pmu.pmcFfHw < 32
  ff : pmu.pmcFf ≤ phPmuSysfsMaxFf
  gp : pmu.pmcGp ≤ maxpmc

/-- The configuration that the registers of a CPU hold. -/
def Pmu.config (pmu : Pmu) (m : Msrs) : Config where
  perfevtsel i := if i < pmu.pmcGp then m (msrPerfevtsel0 + i) else 0
  fixedCtrCtrl := m msrFixedCtrCtrl
  perfGlobalCtrl := m msrPerfGlobalCtrl

/-- The addresses of the configuration. -/
def Pmu.IsConfig (pmu : Pmu) (addr : ℕ) : Prop :=
  addr = msrFixedCtrCtrl ∨ addr = msrPerfGlobalCtrl ∨ ∃ i < pmu.pmcGp, addr = msrPerfevtsel0 + i

/-- The addresses that name the value of a general-purpose counter. -/
abbrev Pmu.IsValue (pmu : Pmu) (addr : ℕ) : Prop :=
  (msrAPmc0 ≤ addr ∧ addr < msrAPmc0 + pmu.pmcGp) ∨
    (msrPerfctr0 ≤ addr ∧ addr < msrPerfctr0 + pmu.pmcGp)

variable {pmu : Pmu} {m : Msrs}

/-- A write elsewhere leaves the selections. -/
theorem perfevtsel_update_of_ne {addr : ℕ} (hevtsel : ∀ i < pmu.pmcGp, addr ≠ msrPerfevtsel0 + i)
    (w : U64) : (pmu.config (Function.update m addr w)).perfevtsel = (pmu.config m).perfevtsel := by
  funext i
  simp only [Pmu.config]
  by_cases hi : i < pmu.pmcGp
  · rw [if_pos hi, if_pos hi, Function.update_of_ne (hevtsel i hi).symm]
  · rw [if_neg hi, if_neg hi]

theorem config_update_other {addr : ℕ} (haddr : ¬ pmu.IsConfig addr) (w : U64) :
    pmu.config (Function.update m addr w) = pmu.config m := by
  simp only [Pmu.IsConfig, not_or, not_exists, not_and] at haddr
  obtain ⟨hff, hglobal, hevtsel⟩ := haddr
  rw [Config.mk.injEq]
  exact ⟨perfevtsel_update_of_ne hevtsel w, Function.update_of_ne (Ne.symm hff) _ _,
    Function.update_of_ne (Ne.symm hglobal) _ _⟩

/-- The configuration is at these addresses only. -/
theorem not_isConfig (fits : pmu.Fits) {addr : ℕ} (hff : addr ≠ msrFixedCtrCtrl)
    (hglobal : addr ≠ msrPerfGlobalCtrl)
    (hevtsel : addr < msrPerfevtsel0 ∨ msrPerfevtsel0 + maxpmc ≤ addr) :
    ¬ pmu.IsConfig addr := by
  have hgp := fits.gp
  rintro (h | h | ⟨i, hi, h⟩)
  · exact hff h
  · exact hglobal h
  · omega

theorem not_isConfig_of_isValue (fits : pmu.Fits) {addr : ℕ} (h : pmu.IsValue addr) :
    ¬ pmu.IsConfig addr := by
  have hgp : pmu.pmcGp ≤ 25 := fits.gp
  apply not_isConfig fits <;>
    · simp only [Pmu.IsValue, msrAPmc0, msrPerfctr0, msrFixedCtrCtrl, msrPerfGlobalCtrl,
        msrPerfevtsel0, maxpmc] at h ⊢
      omega

theorem not_isConfig_fixedCtr (fits : pmu.Fits) {i : ℕ} (hi : i < 32) :
    ¬ pmu.IsConfig (msrFixedCtr0 + i) := by
  apply not_isConfig fits <;>
    · simp only [msrFixedCtr0, msrFixedCtrCtrl, msrPerfGlobalCtrl, msrPerfevtsel0, maxpmc]
      omega

section Fits

variable (fits : pmu.Fits)
include fits

theorem not_isValue_globalCtrl : ¬ pmu.IsValue msrPerfGlobalCtrl :=
  fun h => not_isConfig_of_isValue fits h (.inr (.inl rfl))

theorem not_isValue_fixedCtrCtrl : ¬ pmu.IsValue msrFixedCtrCtrl :=
  fun h => not_isConfig_of_isValue fits h (.inl rfl)

theorem not_isValue_perfevtsel {i : ℕ} (hi : i < pmu.pmcGp) :
    ¬ pmu.IsValue (msrPerfevtsel0 + i) :=
  fun h => not_isConfig_of_isValue fits h (.inr (.inr ⟨i, hi, rfl⟩))

/-- No selection is at the address of a control register. -/
theorem ne_perfevtsel {i : ℕ} (hi : i < pmu.pmcGp) :
    msrFixedCtrCtrl ≠ msrPerfevtsel0 + i ∧ msrPerfGlobalCtrl ≠ msrPerfevtsel0 + i := by
  have hgp : pmu.pmcGp ≤ 25 := fits.gp
  simp only [msrPerfevtsel0, msrFixedCtrCtrl, msrPerfGlobalCtrl]
  omega

theorem config_update_globalCtrl (w : U64) :
    pmu.config (Function.update m msrPerfGlobalCtrl w) =
      { pmu.config m with perfGlobalCtrl := w } := by
  have hff : Function.update m msrPerfGlobalCtrl w msrFixedCtrCtrl = m msrFixedCtrCtrl :=
    Function.update_of_ne (by decide) _ _
  have hglobal : Function.update m msrPerfGlobalCtrl w msrPerfGlobalCtrl = w :=
    Function.update_self _ _ _
  rw [Config.mk.injEq]
  exact ⟨perfevtsel_update_of_ne (fun _ hi => (ne_perfevtsel fits hi).2) w, hff, hglobal⟩

theorem config_update_fixedCtrCtrl (w : U64) :
    pmu.config (Function.update m msrFixedCtrCtrl w) =
      { pmu.config m with fixedCtrCtrl := w } := by
  have hff : Function.update m msrFixedCtrCtrl w msrFixedCtrCtrl = w :=
    Function.update_self _ _ _
  have hglobal : Function.update m msrFixedCtrCtrl w msrPerfGlobalCtrl = m msrPerfGlobalCtrl :=
    Function.update_of_ne (by decide) _ _
  rw [Config.mk.injEq]
  exact ⟨perfevtsel_update_of_ne (fun _ hi => (ne_perfevtsel fits hi).1) w, hff, hglobal⟩

theorem config_update_perfevtsel {i : ℕ} (hi : i < pmu.pmcGp) (w : U64) :
    pmu.config (Function.update m (msrPerfevtsel0 + i) w) =
      { pmu.config m with perfevtsel := Function.update (pmu.config m).perfevtsel i w } := by
  obtain ⟨hff, hglobal⟩ := ne_perfevtsel fits hi
  simp only [Pmu.config, Config.mk.injEq]
  refine ⟨?_, Function.update_of_ne hff _ _, Function.update_of_ne hglobal _ _⟩
  funext k
  by_cases hki : k = i
  · subst hki
    rw [if_pos hi, Function.update_self, Function.update_self]
  · have hne : msrPerfevtsel0 + k ≠ msrPerfevtsel0 + i := fun h => hki (Nat.add_left_cancel h)
    rw [Function.update_of_ne hki, Function.update_of_ne hne]

end Fits

/-! ## What a write sets -/

/-- `p` sets the configuration to `c`, and its writes pass through configurations with
`inv` only. -/
def Pmu.Sets (pmu : Pmu) (inv : Config → Prop) (m : Msrs) (p : Kprog Unit) (c : Config) : Prop :=
  RegProg.Holds pmu.device (fun t => inv (pmu.config t)) p m fun _ t => pmu.config t = c

variable {inv : Config → Prop}

theorem Pmu.Sets.bind {p q : Kprog Unit} {c c' : Config} (hp : pmu.Sets inv m p c)
    (hq : ∀ t, pmu.config t = c → pmu.Sets inv t q c') :
    pmu.Sets inv m (p >>= fun _ => q) c' :=
  RegProg.Holds.bind hp fun _ t ht => hq t ht

theorem Pmu.sets_pure : pmu.Sets inv m (pure ()) (pmu.config m) := rfl

theorem Pmu.Sets.ite {p q : Kprog Unit} {c : Config} (test : Bool)
    (hp : test = true → pmu.Sets inv m p c) (hq : test = false → pmu.Sets inv m q c) :
    pmu.Sets inv m (if test = true then p else q) c := by
  cases test with
  | true => exact hp rfl
  | false => exact hq rfl

/-- The rule of the loop, when every round sets the configuration. -/
theorem Pmu.Sets.loop {body : ℕ → ℕ → Unit → Kprog Unit} {n i j : ℕ} (conf : ℕ → Config)
    (hm : pmu.config m = conf 0)
    (hbody : ∀ k < n, ∀ t, pmu.config t = conf k →
      pmu.Sets inv t (body (i + k) (j + k) ()) (conf (k + 1))) :
    pmu.Sets inv m (RegProg.loop body n i j ()) (conf n) :=
  RegProg.holds_loop (fun k _ t => pmu.config t = conf k) hm fun k hk _ t ht => hbody k hk t ht

/-- A register that is no counter is blended with what is written to it. -/
theorem Pmu.Sets.of_wrmsr {addr : ℕ} {mask newVal : U64} {c : Config}
    (hmask : reservedMask pmu addr = some mask) (hvalue : ¬ pmu.IsValue addr)
    (hconfig : pmu.config (Function.update m addr (blend mask (m addr) newVal)) = c)
    (hinv : inv c) : pmu.Sets inv m (pfcWrmsr pmu addr newVal) c := by
  obtain ⟨hpmc, hctr⟩ := not_or.mp hvalue
  have hread : pmu.device.read m addr = m addr := if_neg hpmc
  have hwrite : ∀ w, pmu.device.write m addr w = Function.update m addr w := by
    intro w
    simp only [Pmu.device, if_neg hpmc, if_neg hctr]
  simp only [Pmu.Sets, pfcWrmsr, hmask, RegProg.holds_bind, pfcRdmsr, RegProg.holds_readReg,
    RegProg.holds_writeReg, hread, hwrite]
  subst hconfig
  exact ⟨hinv, rfl⟩

/-- The reserved bits of `IA32_PERF_GLOBAL_CTRL`. -/
def globalMask (pmu : Pmu) : U64 := zv pmu.pmcFf 32 &&& zv pmu.pmcGp 0

section Fits

variable (fits : pmu.Fits)
include fits

theorem sets_globalCtrl {w : U64} {c : Config}
    (hc : c = { pmu.config m with
      perfGlobalCtrl := blend (globalMask pmu) (pmu.config m).perfGlobalCtrl w })
    (hinv : inv c) : pmu.Sets inv m (pfcWrmsr pmu msrPerfGlobalCtrl w) c := by
  have hvalue := not_isValue_globalCtrl fits
  have hmask : reservedMask pmu msrPerfGlobalCtrl = some (globalMask pmu) := by
    rw [reservedMask, if_neg hvalue, if_pos rfl, globalMask]
  refine Pmu.Sets.of_wrmsr hmask hvalue ?_ hinv
  rw [config_update_globalCtrl fits, hc]
  rfl

theorem sets_fixedCtrCtrl {w : U64} {c : Config}
    (hc : c = { pmu.config m with
      fixedCtrCtrl := blend (zv (4 * pmu.pmcFf) 0) (pmu.config m).fixedCtrCtrl w })
    (hinv : inv c) : pmu.Sets inv m (pfcWrmsr pmu msrFixedCtrCtrl w) c := by
  have hvalue := not_isValue_fixedCtrCtrl fits
  have hmask : reservedMask pmu msrFixedCtrCtrl = some (zv (4 * pmu.pmcFf) 0) := by
    rw [reservedMask, if_neg hvalue, if_neg (by decide), if_neg (by decide),
      if_neg (by decide), if_pos rfl]
  refine Pmu.Sets.of_wrmsr hmask hvalue ?_ hinv
  rw [config_update_fixedCtrCtrl fits, hc]
  rfl

theorem sets_perfevtsel {i : ℕ} (hi : i < pmu.pmcGp) {w : U64} {c : Config}
    (hc : c = { pmu.config m with
      perfevtsel := Function.update (pmu.config m).perfevtsel i
        (blend 0xFFFFFFFF00000000 ((pmu.config m).perfevtsel i) w) })
    (hinv : inv c) : pmu.Sets inv m (pfcWrmsr pmu (msrPerfevtsel0 + i) w) c := by
  have hgp : pmu.pmcGp ≤ 25 := fits.gp
  have hff : pmu.pmcFf ≤ 3 := fits.ff
  have hvalue := not_isValue_perfevtsel fits hi
  have hmask : reservedMask pmu (msrPerfevtsel0 + i) = some 0xFFFFFFFF00000000 := by
    simp only [reservedMask]
    rw [if_neg hvalue, if_neg, if_neg, if_neg, if_neg, if_neg, if_pos]
    all_goals
      simp only [msrPerfGlobalCtrl, msrPerfGlobalStatus, msrPerfGlobalOvfCtrl,
        msrFixedCtrCtrl, msrFixedCtr0, msrPerfevtsel0]
      omega
  have hold : m (msrPerfevtsel0 + i) = (pmu.config m).perfevtsel i := (if_pos hi).symm
  refine Pmu.Sets.of_wrmsr hmask hvalue ?_ hinv
  rw [config_update_perfevtsel fits hi, hc, hold]

/-- Writing a register that is not of the configuration leaves the configuration. -/
theorem sets_other {addr : ℕ} (haddr : ¬ pmu.IsConfig addr) {w : U64}
    (hinv : inv (pmu.config m)) : pmu.Sets inv m (pfcWrmsr pmu addr w) (pmu.config m) := by
  have hgp : pmu.pmcGp ≤ 25 := fits.gp
  unfold pfcWrmsr
  cases reservedMask pmu addr with
  | none => exact Pmu.sets_pure
  | some mask =>
      have hwrite : ∀ w, pmu.config (pmu.device.write m addr w) = pmu.config m := by
        intro w
        simp only [Pmu.device]
        split
        case isTrue hpmc =>
          refine config_update_other (not_isConfig_of_isValue fits (.inr ?_)) _
          omega
        case isFalse => split <;> exact config_update_other haddr _
      simp only [Pmu.Sets, RegProg.holds_bind, pfcRdmsr, RegProg.holds_readReg,
        RegProg.holds_writeReg, hwrite, and_true]
      exact hinv

end Fits

/-- Reading a register is reading it. -/
theorem holds_rdmsr {addr : ℕ} (hvalue : ¬ pmu.IsValue addr) {inv : Msrs → Prop}
    {post : U64 → Msrs → Prop} :
    RegProg.Holds pmu.device inv (pfcRdmsr addr) m post ↔ post (m addr) m := by
  have hread : pmu.device.read m addr = m addr := if_neg (not_or.mp hvalue).1
  rw [pfcRdmsr, RegProg.holds_readReg, hread]

end Kmod

end PerfHound
