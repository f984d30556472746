/-
# Counter manipulation

The module's helpers read and write one counter each, fixed-function (`Ff`) or
general-purpose (`Gp`). Each is followed by what it does to the configuration:
enabling only ever sets bits, the configuration of a fixed counter keeps three of four
bits of its word, and that of a general-purpose counter passes the event policy first.
-/

import PerfHound.Kmod.Msr

namespace PerfHound

open Lib

namespace Kmod

variable {pmu : Pmu} {m : Msrs} {inv : Config → Prop} {c : Config} {i : ℕ} {w : U64}

/-! ## Enabling -/

/-- `!!v`, as a 64-bit word. -/
def flag (v : ℕ) : U64 := if v ≠ 0 then 1 else 0

def pfcFfCntWrEnb (pmu : Pmu) (i v : ℕ) : Kprog Unit := do
  let en ← pfcRdmsr msrPerfGlobalCtrl
  pfcWrmsr pmu msrPerfGlobalCtrl (en ||| flag v <<< (32 + i))

def pfcGpCntWrEnb (pmu : Pmu) (i v : ℕ) : Kprog Unit := do
  let en ← pfcRdmsr msrPerfGlobalCtrl
  pfcWrmsr pmu msrPerfGlobalCtrl (en ||| flag v <<< (0 + i))

/-- Bit `b` of `IA32_PERF_GLOBAL_CTRL` belongs to an exported counter. -/
def Pmu.Exports (pmu : Pmu) (b : ℕ) : Prop :=
  b < pmu.pmcGp ∨ (32 ≤ b ∧ b < 32 + pmu.pmcFf)

instance (pmu : Pmu) (b : ℕ) : Decidable (pmu.Exports b) := by
  unfold Pmu.Exports; infer_instance

theorem getLsbD_globalMask (b : ℕ) :
    (globalMask pmu).getLsbD b = decide (b < 64 ∧ ¬ pmu.Exports b) := by
  simp only [globalMask, BitVec.getLsbD_and, getLsbD_zv, Pmu.Exports]
  grind

/-- The configuration with an exported bit of `IA32_PERF_GLOBAL_CTRL` set. -/
def Config.enable (pmu : Pmu) (c : Config) (b v : ℕ) : Config :=
  { c with
    perfGlobalCtrl := blend (globalMask pmu) c.perfGlobalCtrl (c.perfGlobalCtrl ||| flag v <<< b) }

theorem Config.getLsbD_enable (fits : pmu.Fits) (b k : ℕ) :
    (c.enable pmu b 1).perfGlobalCtrl.getLsbD k =
      (c.perfGlobalCtrl.getLsbD k || decide (k = b ∧ pmu.Exports b)) := by
  have hgp : pmu.pmcGp ≤ 25 := fits.gp
  have hff : pmu.pmcFf ≤ 3 := fits.ff
  have hflag : ∀ j, (flag 1).getLsbD j = decide (j = 0) := by
    intro j
    rw [flag, if_pos Nat.one_ne_zero]
    simp [BitVec.getLsbD_one]
  simp only [Config.enable, getLsbD_blend, getLsbD_globalMask, BitVec.getLsbD_or,
    BitVec.getLsbD_shiftLeft, hflag, Pmu.Exports]
  grind

theorem Config.enable_zero (b : ℕ) : c.enable pmu b 0 = c := by
  have hflag : flag 0 <<< b = 0 := by
    rw [flag, if_neg (not_not.mpr rfl)]
    exact BitVec.zero_shiftLeft b
  have hor : c.perfGlobalCtrl ||| 0 = c.perfGlobalCtrl := BitVec.or_zero
  rw [Config.enable, hflag, hor, blend_self]

section Fits

variable (fits : pmu.Fits)
include fits

theorem sets_ffCntWrEnb {v : ℕ} (hinv : inv ((pmu.config m).enable pmu (32 + i) v)) :
    pmu.Sets inv m (pfcFfCntWrEnb pmu i v) ((pmu.config m).enable pmu (32 + i) v) := by
  refine RegProg.holds_bind.mpr ((holds_rdmsr (not_isValue_globalCtrl fits)).mpr ?_)
  exact sets_globalCtrl fits rfl hinv

theorem sets_gpCntWrEnb {v : ℕ} (hinv : inv ((pmu.config m).enable pmu i v)) :
    pmu.Sets inv m (pfcGpCntWrEnb pmu i v) ((pmu.config m).enable pmu i v) := by
  refine RegProg.holds_bind.mpr ((holds_rdmsr (not_isValue_globalCtrl fits)).mpr ?_)
  rw [Nat.zero_add]
  exact sets_globalCtrl fits rfl hinv

end Fits

/-! ## Fixed-function counters -/

/-- `pfcFfCntWrCfg`: the PMI bit of the word is dropped. -/
def pfcFfCntWrCfg (pmu : Pmu) (i : ℕ) (c : U64) : Kprog Unit := do
  let c := c &&& 0x7
  let old ← pfcRdmsr msrFixedCtrCtrl
  pfcWrmsr pmu msrFixedCtrCtrl (cv old 4 (4 * i) ||| bv c 4 (4 * i))

def pfcFfCntRdCfg (i : ℕ) : Kprog U64 := do
  let cfg ← pfcRdmsr msrFixedCtrCtrl
  pure ((cfg >>> (4 * i)) &&& 0xF)

def pfcFfCntWrVal (pmu : Pmu) (i : ℕ) (v : U64) : Kprog Unit := pfcWrmsr pmu (msrFixedCtr0 + i) v

def pfcFfCntRdVal (i : ℕ) : Kprog U64 := pfcRdmsr (msrFixedCtr0 + i)

/-- The 4-bit field of fixed counter `i`. -/
def Config.ffField (c : Config) (i : ℕ) : U64 := (c.fixedCtrCtrl >>> (4 * i)) &&& 0xF

/-- The configuration after `pfcFfCntWrCfg`. -/
def Config.wrFf (pmu : Pmu) (c : Config) (i : ℕ) (w : U64) : Config :=
  { c with
    fixedCtrCtrl := blend (zv (4 * pmu.pmcFf) 0) c.fixedCtrCtrl
      (cv c.fixedCtrCtrl 4 (4 * i) ||| bv (w &&& 0x7) 4 (4 * i)) }

theorem getLsbD_low {n : ℕ} (hn : n < 64) (v : U64) (j : ℕ) :
    (v &&& ov n 0).getLsbD j = (v.getLsbD j && decide (j < n)) := by
  simp only [BitVec.getLsbD_and, getLsbD_ov]
  grind

theorem ov_three : (0x7 : U64) = ov 3 0 := by decide

theorem ov_four : (0xF : U64) = ov 4 0 := by decide

theorem ov_eight : (0xFF : U64) = ov 8 0 := by decide

theorem ov_thirtyTwo : (0xFFFFFFFF : U64) = ov 32 0 := by decide

theorem Config.getLsbD_ffField (c : Config) (i b : ℕ) : (c.ffField i).getLsbD b =
    (c.fixedCtrCtrl.getLsbD (4 * i + b) && decide (b < 4)) := by
  rw [Config.ffField, ov_four, getLsbD_low (by decide), BitVec.getLsbD_ushiftRight]

theorem Config.getLsbD_wrFf (fits : pmu.Fits) (b : ℕ) :
    (c.wrFf pmu i w).fixedCtrCtrl.getLsbD b =
      if 4 * i ≤ b ∧ b < 4 * i + 4 ∧ b < 4 * pmu.pmcFf then
        decide (b < 4 * i + 3) && w.getLsbD (b - 4 * i)
      else c.fixedCtrCtrl.getLsbD b := by
  have hff : pmu.pmcFf ≤ 3 := fits.ff
  simp only [Config.wrFf, getLsbD_blend, getLsbD_zv, BitVec.getLsbD_or, getLsbD_cv, getLsbD_bv,
    ov_three, getLsbD_low (by decide : 3 < 64)]
  by_cases hmask : b < 4 * pmu.pmcFf
  · have hexported : ¬ (b < 64 ∧ (b < 0 ∨ 4 * pmu.pmcFf + 0 ≤ b)) := by omega
    by_cases hfield : 4 * i ≤ b ∧ b < 4 * i + 4
    · have hlow : b - 4 * i < 3 ↔ b < 4 * i + 3 := by omega
      have hold : ¬ (b < 4 * i ∨ 4 + 4 * i ≤ b) := by omega
      have hnew : 4 * i ≤ b ∧ b < 4 + 4 * i ∧ b < 64 := by omega
      simp [hlow, hold, hnew, hfield, hmask, Bool.and_comm]
    · have hold : b < 4 * i ∨ 4 + 4 * i ≤ b := by omega
      have hnew : ¬ (4 * i ≤ b ∧ b < 4 + 4 * i ∧ b < 64) := by omega
      have hnot : ¬ (4 * i ≤ b ∧ b < 4 * i + 4 ∧ b < 4 * pmu.pmcFf) := by omega
      simp only [hexported, hold, hnew, hnot, decide_false, decide_true, Bool.and_true,
        Bool.false_and, Bool.or_false, if_false, Bool.false_eq_true]
  · have hnot : ¬ (4 * i ≤ b ∧ b < 4 * i + 4 ∧ b < 4 * pmu.pmcFf) := by omega
    by_cases hb : b < 64
    · have hreserved : b < 64 ∧ (b < 0 ∨ 4 * pmu.pmcFf + 0 ≤ b) := by omega
      simp only [hreserved, hnot, decide_true, if_true, if_false, and_self]
    · have hnew : ¬ (4 * i ≤ b ∧ b < 4 + 4 * i ∧ b < 64) := by omega
      rw [BitVec.getLsbD_of_ge _ b (Nat.le_of_not_lt hb)]
      simp [hnew, hnot]

/-- The test of the write handler on a fixed counter. -/
def Config.ffRequests (c : Config) (i : ℕ) : Bool := c.ffField i &&& 0x2 != 0

/-- A test of one bit. -/
theorem and_twoPow_bne_zero (v : U64) {k : ℕ} (hk : k < 64) :
    (v &&& BitVec.twoPow 64 k != 0) = v.getLsbD k := by
  rw [BitVec.and_twoPow]
  cases hbit : v.getLsbD k with
  | false => rfl
  | true =>
      rw [if_pos rfl]
      refine bne_iff_ne.mpr fun hzero => ?_
      have hself : (BitVec.twoPow 64 k).getLsbD k = true := by simp [hk]
      rw [hzero] at hself
      exact absurd hself (by simp)

section Fits

variable (fits : pmu.Fits)
include fits

theorem sets_ffCntWrCfg (hinv : inv ((pmu.config m).wrFf pmu i w)) :
    pmu.Sets inv m (pfcFfCntWrCfg pmu i w) ((pmu.config m).wrFf pmu i w) := by
  refine RegProg.holds_bind.mpr ((holds_rdmsr (not_isValue_fixedCtrCtrl fits)).mpr ?_)
  exact sets_fixedCtrCtrl fits rfl hinv

theorem holds_ffCntRdCfg {inv : Msrs → Prop} {post : U64 → Msrs → Prop} :
    RegProg.Holds pmu.device inv (pfcFfCntRdCfg i) m post ↔
      post ((pmu.config m).ffField i) m :=
  RegProg.holds_bind.trans (holds_rdmsr (not_isValue_fixedCtrCtrl fits))

theorem sets_ffCntWrVal (hi : i < 32) (hinv : inv (pmu.config m)) :
    pmu.Sets inv m (pfcFfCntWrVal pmu i w) (pmu.config m) :=
  sets_other fits (not_isConfig_fixedCtr fits hi) hinv

end Fits

/-! ## General-purpose counters -/

/-- The event number of a selection. -/
def evtNum (c : U64) : U64 := (c >>> 0) &&& 0xFF

/-- The unit mask of a selection. -/
def umask (c : U64) : U64 := (c >>> 8) &&& 0xFF

/-- The word `pfcGpCntWrCfg` writes: without the APIC interrupt and pin control bits, and
zero for an event that counter `i` may not count. -/
def gpWord (i : ℕ) (c : U64) : U64 :=
  let c := c &&& ~~~ 0x0000000000180000
  let forbidden :=
    ((evtNum c = 0x48 ∨ (evtNum c = 0xA3 ∧ (umask c = 0x08 ∨ umask c = 0x0C))) ∧ i ≠ 2) ∨
      ((evtNum c = 0xC0 ∧ umask c = 0x01) ∧ i ≠ 1)
  if forbidden then 0 else c

def pfcGpCntWrCfg (pmu : Pmu) (i : ℕ) (c : U64) : Kprog Unit :=
  pfcWrmsr pmu (msrPerfevtsel0 + i) (gpWord i c)

def pfcGpCntRdCfg (i : ℕ) : Kprog U64 := pfcRdmsr (msrPerfevtsel0 + i)

def pfcGpCntWrVal (pmu : Pmu) (i : ℕ) (v : U64) : Kprog Unit :=
  if pmu.fullWidthWrites then pfcWrmsr pmu (msrAPmc0 + i) v else pfcWrmsr pmu (msrPerfctr0 + i) v

def pfcGpCntRdVal (i : ℕ) : Kprog U64 := pfcRdmsr (msrPerfctr0 + i)

/-- The configuration after `pfcGpCntWrCfg`. -/
def Config.wrGp (c : Config) (i : ℕ) (w : U64) : Config :=
  { c with
    perfevtsel := Function.update c.perfevtsel i
      (blend 0xFFFFFFFF00000000 (c.perfevtsel i) (gpWord i w)) }

/-- The test of the write handler on a general-purpose counter. -/
def Config.gpRequests (c : Config) (i : ℕ) : Bool := c.perfevtsel i &&& 0x00400000 != 0

theorem Config.wrGp_self : (c.wrGp i w).perfevtsel i =
    blend 0xFFFFFFFF00000000 (c.perfevtsel i) (gpWord i w) := Function.update_self _ _ _

theorem Config.wrGp_of_ne {k : ℕ} (hk : k ≠ i) : (c.wrGp i w).perfevtsel k = c.perfevtsel k :=
  Function.update_of_ne hk _ _

/-- The low half of a selection is the word written, the high half is kept. -/
theorem getLsbD_blend_high (old new : U64) (b : ℕ) :
    (blend 0xFFFFFFFF00000000 old new).getLsbD b =
      if b < 32 then new.getLsbD b else old.getLsbD b := by
  have hmask : (0xFFFFFFFF00000000 : U64) = ov 32 32 := by decide
  rw [getLsbD_blend, hmask, getLsbD_ov]
  by_cases hb : b < 64
  · by_cases hlow : b < 32
    · rw [if_pos hlow, if_neg (by simp; omega)]
    · rw [if_neg hlow, if_pos (by simp; omega)]
  · have hge := Nat.le_of_not_lt hb
    rw [BitVec.getLsbD_of_ge new b hge, BitVec.getLsbD_of_ge old b hge, ite_self, ite_self]

section Fits

variable (fits : pmu.Fits)
include fits

theorem sets_gpCntWrCfg (hi : i < pmu.pmcGp) (hinv : inv ((pmu.config m).wrGp i w)) :
    pmu.Sets inv m (pfcGpCntWrCfg pmu i w) ((pmu.config m).wrGp i w) :=
  sets_perfevtsel fits hi rfl hinv

theorem holds_gpCntRdCfg (hi : i < pmu.pmcGp) {inv : Msrs → Prop} {post : U64 → Msrs → Prop} :
    RegProg.Holds pmu.device inv (pfcGpCntRdCfg i) m post ↔
      post ((pmu.config m).perfevtsel i) m := by
  have hval : m (msrPerfevtsel0 + i) = (pmu.config m).perfevtsel i := (if_pos hi).symm
  rw [pfcGpCntRdCfg, holds_rdmsr (not_isValue_perfevtsel fits hi), hval]

theorem sets_gpCntWrVal (hi : i < pmu.pmcGp) (hinv : inv (pmu.config m)) :
    pmu.Sets inv m (pfcGpCntWrVal pmu i w) (pmu.config m) := by
  have hpmc : pmu.IsValue (msrAPmc0 + i) :=
    .inl ⟨Nat.le_add_right _ _, Nat.add_lt_add_left hi _⟩
  have hctr : pmu.IsValue (msrPerfctr0 + i) :=
    .inr ⟨Nat.le_add_right _ _, Nat.add_lt_add_left hi _⟩
  unfold pfcGpCntWrVal
  cases pmu.fullWidthWrites with
  | true => exact sets_other fits (not_isConfig_of_isValue fits hpmc) hinv
  | false => exact sets_other fits (not_isConfig_of_isValue fits hctr) hinv

end Fits

end Kmod

end PerfHound
