/-
# What initialisation clears

`ph_pmu_init_counters` should leave every counter of the processor disabled, unconfigured
and zero. Its loop runs over the fixed counters of the hardware, but `pfcWRMSR` knows those
that the module exports only: for the others it drops the write of the value and keeps
their bits in the control registers. So the counters that are not exported are left as
they were, and all others are cleared.
-/

import PerfHound.Kmod.Values

namespace PerfHound

open Lib

namespace Kmod

variable {pmu : Pmu} {r : CpuidReport} {m : Msrs} {x : Counter} {i : ℕ}

/-! ## Cleared counters -/

/-- The counters of the processor. -/
def Counter.InHardware (pmu : Pmu) : Counter → Prop
  | .ff i => i < pmu.pmcFfHw
  | .gp i => i < pmu.pmcGp

def Counter.cfgBits : Counter → U64
  | .ff _ => 0xF
  | .gp _ => 0xFFFFFFFF

/-- The bits of its value that a counter implements. -/
def Counter.valueBits (pmu : Pmu) : Counter → U64
  | .ff _ => pmu.pmcFfMask
  | .gp _ => ov pmu.pmcGpBitwidth 0

/-- A counter is disabled, unconfigured and zero. -/
structure Cleared (pmu : Pmu) (m : Msrs) (x : Counter) : Prop where
  disabled : (pmu.config m).enabled x = false
  unconfigured : (pmu.config m).stored x &&& x.cfgBits = 0
  zero : m x.addr &&& x.valueBits pmu = 0

/-! ## Values -/

/-- The masks that initialisation takes from the CPUID report. -/
theorem phPmuInitCpuid_mask (h : phPmuInitCpuid r = some pmu) :
    pmu.pmcGpMask = if pmu.fullWidthWrites then ov pmu.pmcGpBitwidth 0 else ov 32 0 := by
  simp only [phPmuInitCpuid] at h
  split at h <;> [cases h; skip]
  split at h <;> [cases h; skip]
  split at h <;> [cases h; skip]
  cases h
  rfl

/-- The bits of a word of 32 bits, extended with its sign. -/
theorem getLsbD_signExtend_low (w : U64) {b : ℕ} (hb : b < 64) :
    ((w.truncate 32).signExtend 64).getLsbD b = w.getLsbD (min b 31) := by
  rw [BitVec.getLsbD_signExtend, decide_eq_true hb, Bool.true_and]
  by_cases hlow : b < 32
  · rw [if_pos hlow, Nat.min_eq_left (by omega), BitVec.truncate_eq_setWidth,
      BitVec.getLsbD_setWidth, decide_eq_true hlow, Bool.true_and]
  · rw [if_neg hlow, Nat.min_eq_right (by omega), BitVec.msb_eq_getLsbD_last,
      BitVec.truncate_eq_setWidth, BitVec.getLsbD_setWidth]
    rfl

/-- Zero written to the 32-bit name of a general-purpose counter clears the bits that it
implements. -/
theorem zero_gp (h : phPmuInitCpuid r = some pmu) (old : U64) :
    ((blend (~~~ pmu.pmcGpMask) old 0).truncate 32).signExtend 64 &&& ov pmu.pmcGpBitwidth 0 &&&
      ov pmu.pmcGpBitwidth 0 = 0 := by
  apply BitVec.eq_of_getLsbD_eq
  intro b hb
  have hzero : ∀ j, (0 : U64).getLsbD j = false := fun _ => BitVec.getLsbD_zero
  rw [BitVec.getLsbD_and, BitVec.getLsbD_and, getLsbD_signExtend_low _ hb, getLsbD_ov, hzero]
  by_cases hwidth : b < pmu.pmcGpBitwidth
  · -- the bit that is taken is below the width, and below 32
    have hmask : (~~~ pmu.pmcGpMask).getLsbD (min b 31) = false := by
      rw [BitVec.getLsbD_not, phPmuInitCpuid_mask h]
      split
      · rw [getLsbD_ov, decide_eq_true (p := 0 ≤ _ ∧ _) (by omega)]
        simp
      · rw [getLsbD_ov, decide_eq_true (p := 0 ≤ _ ∧ _) (by omega)]
        simp
    rw [getLsbD_blend, if_neg (Bool.eq_false_iff.mp hmask), hzero]
    rfl
  · rw [decide_eq_false (by omega), Bool.and_false]

/-- Zero written to a fixed counter clears the bits that it implements. -/
theorem zero_ff (hi : i < pmu.pmcFf) (old : U64) :
    (Counter.ff i).count pmu old 0 &&& pmu.pmcFfMask = 0 := by
  apply BitVec.eq_of_getLsbD_eq
  intro b hb
  have hzero : ∀ j, (0 : U64).getLsbD j = false := fun _ => BitVec.getLsbD_zero
  rw [Counter.count, if_pos hi, BitVec.getLsbD_and, getLsbD_blend, BitVec.getLsbD_not, hzero]
  cases pmu.pmcFfMask.getLsbD b <;> simp [hb]

/-! ## The loops -/

/-- The loop over the values of the fixed counters. -/
def zeroFixed (pmu : Pmu) : Kprog Unit :=
  RegProg.loop (fun i _ _ => pfcWrmsr pmu (msrFixedCtr0 + i) 0) pmu.pmcFfHw 0 0 ()

/-- The loop over the general-purpose counters. -/
def zeroGp (pmu : Pmu) : Kprog Unit :=
  RegProg.loop (fun i _ _ => do
    pfcWrmsr pmu (msrPerfevtsel0 + i) 0
    pfcWrmsr pmu (msrPerfctr0 + i) 0) pmu.pmcGp 0 0 ()

theorem phPmuInitCounters_eq : phPmuInitCounters pmu = (do
    pfcWrmsr pmu msrPerfGlobalCtrl 0
    pfcWrmsr pmu msrFixedCtrCtrl 0
    zeroFixed pmu
    zeroGp pmu
    pfcWrmsr pmu msrPerfGlobalOvfCtrl (BitVec.allOnes 64)) := rfl

/-- A register that a program does not write. The full-width names of the values, from
`IA32_A_PMC0` on, are not used here. -/
theorem frame_of_writesIn {α : Type} {p : Kprog α} {S : ℕ → Prop} (hp : p.WritesIn S) {addr : ℕ}
    (hne : ∀ a, S a → a ≠ addr ∧ a < msrAPmc0) (m : Msrs) :
    (p.run pmu.device m).2 addr = m addr := by
  refine hp.frame (d := pmu.device) (fun s : Msrs => s addr) (fun s a w ha => ?_) m
  obtain ⟨hother, hlow⟩ := hne a ha
  have hname : ¬ (msrAPmc0 ≤ a ∧ a < msrAPmc0 + pmu.pmcGp) := fun hrange =>
    Nat.not_le.mpr hlow hrange.1
  simp only [Pmu.device, if_neg hname]
  split <;> exact Function.update_of_ne hother.symm _ _

theorem frame_wrmsr {a addr : ℕ} (hne : a ≠ addr) (hlow : a < msrAPmc0) (w : U64) (m : Msrs) :
    ((pfcWrmsr pmu a w).run pmu.device m).2 addr = m addr := by
  refine frame_of_writesIn (writesIn_wrmsr (S := (· = a)) rfl) ?_ m
  rintro _ rfl
  exact ⟨hne, hlow⟩

/-- What a loop over the registers of one kind does to each of them. -/
theorem run_loop_each (body : ℕ → Kprog Unit) (addr : ℕ → ℕ) (f : ℕ → U64 → U64) {n : ℕ}
    (hself : ∀ k < n, ∀ m, ((body k).run pmu.device m).2 (addr k) = f k (m (addr k)))
    (hother : ∀ k < n, ∀ i < n, i ≠ k → ∀ m, ((body k).run pmu.device m).2 (addr i) = m (addr i))
    {i : ℕ} (hi : i < n) (m : Msrs) :
    ((RegProg.loop (fun k _ _ => body k) n 0 0 ()).run pmu.device m).2 (addr i) =
      f i (m (addr i)) := by
  have hlocal : LocalStep (fun k => k < n) (fun (s : Unit × Msrs) k => s.2 (addr k))
      (fun k (_ : Unit) v => f k v) fun s p => (body p.1).run pmu.device s.2 :=
    { self := fun s p hp => hself p.1 hp s.2
      other := fun s p k hp hk hne => hother p.1 hp k hk hne s.2 }
  have hfold := hlocal.foldl_of_mem (l := (List.range n).map fun k => (k, ())) (s := ((), m))
    (p := (i, ()))
    (fun p hp => by
      obtain ⟨k, hk, rfl⟩ := List.mem_map.mp hp
      exact List.mem_range.mp hk)
    (by
      rw [List.map_map]
      exact (List.map_id _).symm ▸ List.nodup_range)
    (List.mem_map.mpr ⟨i, List.mem_range.mpr hi, rfl⟩)
  rw [List.foldl_map] at hfold
  rw [RegProg.run_loop]
  simp only [Nat.zero_add]
  exact hfold

section Init

variable (h : phPmuInitCpuid r = some pmu) (m : Msrs)
include h

theorem zeroFixed_value (hi : i < pmu.pmcFfHw) :
    ((zeroFixed pmu).run pmu.device m).2 (msrFixedCtr0 + i) =
      (Counter.ff i).count pmu (m (msrFixedCtr0 + i)) 0 := by
  have fits := phPmuInitCpuid_fits h
  have hhw := fits.ffHw
  refine run_loop_each (fun k => pfcWrmsr pmu (msrFixedCtr0 + k) 0)
    (fun k => msrFixedCtr0 + k) (fun k v => (Counter.ff k).count pmu v 0)
    (fun k hk t => ?_) (fun k hk j hj hne t => ?_) hi m
  · have hrun := run_ffCntWrVal (m := t) (w := 0) fits (Nat.lt_trans hk hhw)
    rw [pfcFfCntWrVal] at hrun
    rw [hrun, Function.update_self]
  · have hrun := run_ffCntWrVal (m := t) (w := 0) fits (Nat.lt_trans hk hhw)
    rw [pfcFfCntWrVal] at hrun
    rw [hrun, Function.update_of_ne fun heq => hne (Nat.add_left_cancel heq)]

theorem zeroGp_value (hi : i < pmu.pmcGp) :
    ((zeroGp pmu).run pmu.device m).2 (msrPerfctr0 + i) =
      (((blend (~~~ pmu.pmcGpMask) (m (msrPerfctr0 + i)) 0).truncate 32).signExtend 64 &&&
        ov pmu.pmcGpBitwidth 0) := by
  have fits := phPmuInitCpuid_fits h
  have hgp : pmu.pmcGp ≤ 25 := fits.gp
  have hselection : ∀ k < pmu.pmcGp, ∀ j < pmu.pmcGp, ∀ t : Msrs,
      ((pfcWrmsr pmu (msrPerfevtsel0 + k) 0).run pmu.device t).2 (msrPerfctr0 + j) =
        t (msrPerfctr0 + j) := by
    intro k hk j hj t
    refine frame_wrmsr ?_ ?_ 0 t
    · simp only [msrPerfevtsel0, msrPerfctr0]
      omega
    · simp only [msrPerfevtsel0, msrAPmc0]
      omega
  refine run_loop_each (fun k => do
      pfcWrmsr pmu (msrPerfevtsel0 + k) 0
      pfcWrmsr pmu (msrPerfctr0 + k) 0)
    (fun k => msrPerfctr0 + k)
    (fun _ v => ((blend (~~~ pmu.pmcGpMask) v 0).truncate 32).signExtend 64 &&&
      ov pmu.pmcGpBitwidth 0) (fun k hk t => ?_) (fun k hk j hj hne t => ?_) hi m
  · rw [RegProg.run_bind, run_wrmsr_perfctr fits hk, Function.update_self, hselection k hk k hk]
  · rw [RegProg.run_bind, run_wrmsr_perfctr fits hk,
      Function.update_of_ne fun heq => hne (Nat.add_left_cancel heq), hselection k hk j hj]

/-- The loop over the general-purpose counters leaves the fixed ones. -/
theorem zeroGp_frame (hi : i < 32) :
    ((zeroGp pmu).run pmu.device m).2 (msrFixedCtr0 + i) = m (msrFixedCtr0 + i) := by
  have hgp : pmu.pmcGp ≤ 25 := (phPmuInitCpuid_fits h).gp
  have hwrites : (zeroGp pmu).WritesIn
      fun a => ∃ k < pmu.pmcGp, a = msrPerfevtsel0 + k ∨ a = msrPerfctr0 + k := by
    refine RegProg.WritesIn.loop fun k hk _ => ?_
    rw [Nat.zero_add]
    exact (writesIn_wrmsr ⟨k, hk, .inl rfl⟩).bind fun _ => writesIn_wrmsr ⟨k, hk, .inr rfl⟩
  refine frame_of_writesIn hwrites ?_ m
  rintro a ⟨k, hk, rfl | rfl⟩
  · simp only [msrPerfevtsel0, msrFixedCtr0, msrAPmc0]
    omega
  · simp only [msrPerfctr0, msrFixedCtr0, msrAPmc0]
    omega

/-- The loop over the fixed counters leaves the general-purpose ones. -/
theorem zeroFixed_frame (hi : i < pmu.pmcGp) :
    ((zeroFixed pmu).run pmu.device m).2 (msrPerfctr0 + i) = m (msrPerfctr0 + i) := by
  have fits := phPmuInitCpuid_fits h
  have hgp : pmu.pmcGp ≤ 25 := fits.gp
  have hhw := fits.ffHw
  have hwrites : (zeroFixed pmu).WritesIn fun a => ∃ k < pmu.pmcFfHw, a = msrFixedCtr0 + k := by
    refine RegProg.WritesIn.loop fun k hk _ => ?_
    rw [Nat.zero_add]
    exact writesIn_wrmsr ⟨k, hk, rfl⟩
  refine frame_of_writesIn hwrites ?_ m
  rintro a ⟨k, hk, rfl⟩
  simp only [msrPerfctr0, msrFixedCtr0, msrAPmc0]
  omega

/-- The values of the fixed counters: zero is written to each, and dropped where the
counter is not exported. -/
theorem initialised_ff (hi : i < pmu.pmcFfHw) :
    pmu.initialised m (msrFixedCtr0 + i) =
      (Counter.ff i).count pmu (m (msrFixedCtr0 + i)) 0 := by
  have hhw := (phPmuInitCpuid_fits h).ffHw
  have hcontrol : ∀ a w t, msrFixedCtrCtrl ≤ a → a < msrAPmc0 →
      ((pfcWrmsr pmu a w).run pmu.device t).2 (msrFixedCtr0 + i) = t (msrFixedCtr0 + i) := by
    intro a w t hlow hhigh
    refine frame_wrmsr ?_ hhigh w t
    simp only [msrFixedCtrCtrl, msrFixedCtr0] at hlow ⊢
    omega
  simp only [Pmu.initialised, phPmuInitCounters_eq, RegProg.run_bind]
  rw [hcontrol _ _ _ (by decide) (by decide), zeroGp_frame h _ (Nat.lt_trans hi hhw),
    zeroFixed_value h _ hi, hcontrol _ _ _ (by decide) (by decide),
    hcontrol _ _ _ (by decide) (by decide)]

/-- The values of the general-purpose counters. -/
theorem initialised_gp (hi : i < pmu.pmcGp) :
    pmu.initialised m (msrPerfctr0 + i) =
      (((blend (~~~ pmu.pmcGpMask) (m (msrPerfctr0 + i)) 0).truncate 32).signExtend 64 &&&
        ov pmu.pmcGpBitwidth 0) := by
  have hgp : pmu.pmcGp ≤ 25 := (phPmuInitCpuid_fits h).gp
  have hcontrol : ∀ a w t, msrFixedCtrCtrl ≤ a → a < msrAPmc0 →
      ((pfcWrmsr pmu a w).run pmu.device t).2 (msrPerfctr0 + i) = t (msrPerfctr0 + i) := by
    intro a w t hlow hhigh
    refine frame_wrmsr ?_ hhigh w t
    simp only [msrFixedCtrCtrl, msrPerfctr0] at hlow ⊢
    omega
  simp only [Pmu.initialised, phPmuInitCounters_eq, RegProg.run_bind]
  rw [hcontrol _ _ _ (by decide) (by decide), zeroGp_value h _ hi, zeroFixed_frame h _ hi,
    hcontrol _ _ _ (by decide) (by decide), hcontrol _ _ _ (by decide) (by decide)]

/-! ## Which counters are cleared -/

omit h in
/-- The field of a fixed counter after the reset. -/
theorem ffField_reset (c : Config) (i : ℕ) :
    (c.reset pmu).ffField i = if i < pmu.pmcFf then 0 else c.ffField i := by
  apply BitVec.eq_of_getLsbD_eq
  intro b _
  have hzero : ∀ j, (0 : U64).getLsbD j = false := fun _ => BitVec.getLsbD_zero
  by_cases hb : b < 4
  · rw [Config.getLsbD_ffField, Config.reset, getLsbD_blend, getLsbD_zv, hzero]
    by_cases hi : i < pmu.pmcFf
    · have hexported : ¬ (4 * i + b < 64 ∧ (4 * i + b < 0 ∨ 4 * pmu.pmcFf + 0 ≤ 4 * i + b)) := by
        omega
      rw [if_pos hi, decide_eq_false hexported, hzero]
      rfl
    · rw [if_neg hi, Config.getLsbD_ffField]
      by_cases hwidth : 4 * i + b < 64
      · have hreserved : 4 * i + b < 64 ∧ (4 * i + b < 0 ∨ 4 * pmu.pmcFf + 0 ≤ 4 * i + b) := by
          omega
        rw [decide_eq_true hreserved, if_pos rfl]
      · rw [BitVec.getLsbD_of_ge c.fixedCtrCtrl (4 * i + b) (by omega), ite_self]
  · rw [Config.getLsbD_ffField, decide_eq_false hb, Bool.and_false]
    split
    · exact (hzero b).symm
    · rw [Config.getLsbD_ffField, decide_eq_false hb, Bool.and_false]

omit h in
theorem enabled_reset (c : Config) {x : Counter} (hx : x.bit < 64) :
    (c.reset pmu).enabled x = if pmu.Exports x.bit then false else c.enabled x := by
  rw [Config.enabled, Config.reset, getLsbD_blend, getLsbD_globalMask]
  by_cases hexports : pmu.Exports x.bit
  · rw [if_pos hexports, decide_eq_false (fun hmask => hmask.2 hexports)]
    exact BitVec.getLsbD_zero
  · rw [if_neg hexports, decide_eq_true ⟨hx, hexports⟩]
    rfl

/-- The fixed counters that the module exports. -/
theorem lt_of_exports (hexports : pmu.Exports (Counter.ff i).bit) : i < pmu.pmcFf := by
  have hgp : pmu.pmcGp ≤ 25 := (phPmuInitCpuid_fits h).gp
  simp only [Pmu.Exports, Counter.bit] at hexports
  omega

omit h in
/-- The reset leaves no configuration of a counter that the module exports. -/
theorem unconfigured_reset (c : Config) (hff : ∀ i, x = .ff i → i < pmu.pmcFf) :
    (c.reset pmu).stored x &&& x.cfgBits = 0 := by
  cases x with
  | ff i =>
      have hfield : (c.reset pmu).stored (.ff i) = 0 :=
        (ffField_reset c i).trans (if_pos (hff i rfl))
      rw [hfield]
      exact BitVec.zero_and
  | gp i =>
      apply BitVec.eq_of_getLsbD_eq
      intro b _
      have hzero : ∀ j, (0 : U64).getLsbD j = false := fun _ => BitVec.getLsbD_zero
      rw [Counter.cfgBits, ov_thirtyTwo, getLsbD_low (by decide), Config.stored, Config.reset,
        getLsbD_blend_high, hzero]
      by_cases hlow : b < 32
      · rw [if_pos hlow, Bool.false_and]
      · rw [decide_eq_false hlow, Bool.and_false]

/-- A counter that the module exports is cleared. -/
theorem cleared_exported (hx : x.InHardware pmu) (hexports : pmu.Exports x.bit) :
    Cleared pmu (pmu.initialised m) x := by
  have fits := phPmuInitCpuid_fits h
  have hgp : pmu.pmcGp ≤ 25 := fits.gp
  have hff : pmu.pmcFf ≤ 3 := fits.ff
  have hbit : x.bit < 64 := by
    rcases hexports with hlow | ⟨-, hhigh⟩ <;> omega
  constructor
  · rw [config_initialised fits, enabled_reset _ hbit, if_pos hexports]
  · rw [config_initialised fits]
    refine unconfigured_reset _ fun i hi => ?_
    subst hi
    exact lt_of_exports h hexports
  · cases x with
    | ff i =>
        rw [Counter.addr, initialised_ff h m hx]
        exact zero_ff (lt_of_exports h hexports) _
    | gp i =>
        rw [Counter.addr, initialised_gp h m hx]
        exact zero_gp h _

/-- A fixed counter that the module does not export is left as it was. -/
theorem cleared_hidden (hi : i < pmu.pmcFfHw) (hhidden : pmu.pmcFf ≤ i) :
    Cleared pmu (pmu.initialised m) (.ff i) ↔ Cleared pmu m (.ff i) := by
  have fits := phPmuInitCpuid_fits h
  have hhw := fits.ffHw
  have hgp : pmu.pmcGp ≤ 25 := fits.gp
  have hnot : ¬ i < pmu.pmcFf := Nat.not_lt.mpr hhidden
  have hexports : ¬ pmu.Exports (Counter.ff i).bit := by
    simp only [Pmu.Exports, Counter.bit]
    omega
  have hbit : (Counter.ff i).bit < 64 := by
    simp only [Counter.bit]
    omega
  have henabled : (pmu.config (pmu.initialised m)).enabled (.ff i) =
      (pmu.config m).enabled (.ff i) := by
    rw [config_initialised fits, enabled_reset _ hbit, if_neg hexports]
  have hstored : (pmu.config (pmu.initialised m)).stored (.ff i) =
      (pmu.config m).stored (.ff i) := by
    rw [config_initialised fits]
    exact (ffField_reset _ i).trans (if_neg hnot)
  have hvalue : pmu.initialised m (Counter.ff i).addr = m (Counter.ff i).addr :=
    (initialised_ff h m hi).trans (if_neg hnot)
  constructor
  · rintro ⟨hdisabled, hunconfigured, hzero⟩
    exact ⟨henabled ▸ hdisabled, hstored ▸ hunconfigured, hvalue ▸ hzero⟩
  · rintro ⟨hdisabled, hunconfigured, hzero⟩
    exact ⟨henabled.trans hdisabled, hstored.symm ▸ hunconfigured, hvalue.symm ▸ hzero⟩

/-- **Initialisation covers all counters exactly when those it does not export were
cleared before.** -/
theorem initialised_iff :
    (∀ x : Counter, x.InHardware pmu → Cleared pmu (pmu.initialised m) x) ↔
      ∀ i < pmu.pmcFfHw, pmu.pmcFf ≤ i → Cleared pmu m (.ff i) := by
  have fits := phPmuInitCpuid_fits h
  have hgp : pmu.pmcGp ≤ 25 := fits.gp
  constructor
  · intro hall i hi hhidden
    exact (cleared_hidden h m hi hhidden).mp (hall (.ff i) hi)
  · intro hhidden x hx
    cases x with
    | ff i =>
        by_cases hi : i < pmu.pmcFf
        · refine cleared_exported h m hx (.inr ?_)
          simp only [Counter.bit]
          omega
        · exact (cleared_hidden h m hx (Nat.le_of_not_lt hi)).mpr
            (hhidden i hx (Nat.le_of_not_lt hi))
    | gp i => exact cleared_exported h m hx (.inl hx)

end Init

theorem initialised_iff_quad :
    Cleared .quad (Pmu.quad.initialised fun _ => BitVec.allOnes 64) (.ff 2) :=
  (initialised_iff phPmuInitCpuid_quad fun _ => BitVec.allOnes 64).mpr
    (fun i hi hhidden => absurd hi (Nat.not_lt.mpr hhidden)) (.ff 2) (by decide : 2 < 3)

/-- The report of a core with a fourth fixed counter. -/
def CpuidReport.fourFixed : CpuidReport := { CpuidReport.quad with leafAd := 0x604 }

/-- The counters of such a core. -/
def Pmu.fourFixed : Pmu := { Pmu.quad with pmcFfHw := 4 }

/-- A fourth fixed counter that was counting still counts. -/
theorem fourth_counter_kept :
    phPmuInitCpuid .fourFixed = some .fourFixed ∧
      (Pmu.fourFixed.config (Pmu.fourFixed.initialised fun _ => BitVec.allOnes 64)).enabled
        (.ff 3) = true ∧
      ¬ ∀ x : Counter, x.InHardware .fourFixed →
        Cleared .fourFixed (Pmu.fourFixed.initialised fun _ => BitVec.allOnes 64) x := by
  have henabled : (Pmu.fourFixed.config
      (Pmu.fourFixed.initialised fun _ => BitVec.allOnes 64)).enabled (.ff 3) = true := by
    decide +kernel
  refine ⟨by decide, henabled, fun hall => ?_⟩
  have hdisabled := (hall (.ff 3) (by decide : 3 < 4)).disabled
  rw [henabled] at hdisabled
  cases hdisabled

end Kmod

end PerfHound
