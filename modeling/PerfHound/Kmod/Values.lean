/-
# Counter values

Beside the configuration the registers hold the values of the counters. This is what the
module's writes do to them: `pfcWRMSR` changes the register it is addressed to and no other
one, a count written to a counter is blended with its reserved bits, and the writes to the
configuration do not reach any value.

A handler is the fold of its body over the counters it walks over, also in what it returns
and leaves in `buf`.
-/

import PerfHound.Kmod.Reconfigure

namespace PerfHound

open Lib RegProg

namespace Kmod

variable {pmu : Pmu} {m : Msrs} {x y : Counter} {i : ℕ} {w : U64}

/-! ## One register -/

/-- Where the value of a counter is. -/
def Counter.addr : Counter → ℕ
  | .ff i => msrFixedCtr0 + i
  | .gp i => msrPerfctr0 + i

/-- `pfcWRMSR`, run. -/
theorem run_wrmsr (addr : ℕ) (w : U64) :
    (pfcWrmsr pmu addr w).run pmu.device m =
      ((), match reservedMask pmu addr with
        | none => m
        | some mask => pmu.device.write m addr (blend mask (pmu.device.read m addr) w)) := by
  unfold pfcWrmsr
  cases reservedMask pmu addr with
  | none => rfl
  | some mask => rfl

theorem writesIn_wrmsr {S : ℕ → Prop} {addr : ℕ} (haddr : S addr) :
    (pfcWrmsr pmu addr w).WritesIn S := by
  unfold pfcWrmsr
  cases reservedMask pmu addr with
  | none => trivial
  | some mask => exact fun _ => ⟨haddr, trivial⟩

theorem write_of_not_isValue {addr : ℕ} (h : ¬ pmu.IsValue addr) :
    pmu.device.write m addr w = Function.update m addr w := by
  obtain ⟨hpmc, hctr⟩ := not_or.mp h
  simp only [Pmu.device, if_neg hpmc, if_neg hctr]

/-- Writes to configuration registers. -/
theorem write_of_isConfig (fits : pmu.Fits) {addr : ℕ} (h : pmu.IsConfig addr) :
    pmu.device.write m addr w = Function.update m addr w :=
  write_of_not_isValue fun hvalue => not_isConfig_of_isValue fits hvalue h

/-! ## Counts -/

/-- The value of a counter after count `w` was written over `old`. -/
def Counter.count (pmu : Pmu) : Counter → U64 → U64 → U64
  | .ff i, old, w => if i < pmu.pmcFf then blend (~~~ pmu.pmcFfMask) old w else old
  | .gp _, old, w =>
      let v := blend (~~~ pmu.pmcGpMask) old w
      if pmu.fullWidthWrites then v &&& ov pmu.pmcGpBitwidth 0
      else (v.truncate 32).signExtend 64 &&& ov pmu.pmcGpBitwidth 0

def cntWrRound (pmu : Pmu) (x : Counter) (c : U64) : Kprog Unit :=
  match x with
  | .ff i => pfcFfCntWrVal pmu i c
  | .gp i => pfcGpCntWrVal pmu i c

section Fits

variable (fits : pmu.Fits)
include fits

theorem Counter.addr_injective (hx : x.Valid pmu) (hy : y.Valid pmu) (h : x.addr = y.addr) :
    x = y := by
  have hgp : pmu.pmcGp ≤ 25 := fits.gp
  cases x with
  | ff i =>
      cases y with
      | ff k => exact congrArg Counter.ff (Nat.add_left_cancel h)
      | gp k =>
          have hk : k < pmu.pmcGp := hy
          have haddr : 0x309 + i = 0xC1 + k := h
          omega
  | gp i =>
      cases y with
      | ff k =>
          have hi : i < pmu.pmcGp := hx
          have haddr : 0xC1 + i = 0x309 + k := h
          omega
      | gp k => exact congrArg Counter.gp (Nat.add_left_cancel h)

omit fits in
/-- The reserved bits of the values of general-purpose counters. -/
theorem reservedMask_value {addr : ℕ} (h : pmu.IsValue addr) :
    reservedMask pmu addr = some (~~~ pmu.pmcGpMask) := if_pos h

/-- The reserved bits of the values of fixed counters. A counter that is not exported has
no address that `pfcWRMSR` knows. -/
theorem reservedMask_fixedCtr (hi : i < 32) :
    reservedMask pmu (msrFixedCtr0 + i) =
      if i < pmu.pmcFf then some (~~~ pmu.pmcFfMask) else none := by
  have hgp : pmu.pmcGp ≤ 25 := fits.gp
  simp only [reservedMask]
  by_cases hff : i < pmu.pmcFf
  · rw [if_neg, if_neg, if_neg, if_neg, if_neg, if_pos, if_pos hff]
    all_goals
      simp only [msrAPmc0, msrPerfctr0, msrPerfGlobalCtrl, msrPerfGlobalStatus,
        msrPerfGlobalOvfCtrl, msrFixedCtrCtrl, msrFixedCtr0]
      omega
  · rw [if_neg, if_neg, if_neg, if_neg, if_neg, if_neg, if_neg, if_neg, if_neg, if_neg, if_neg,
      if_neg, if_neg, if_neg, if_neg hff]
    all_goals
      simp only [msrAPmc0, msrPerfctr0, msrPerfGlobalCtrl, msrPerfGlobalStatus,
        msrPerfGlobalOvfCtrl, msrFixedCtrCtrl, msrFixedCtr0, msrPerfevtsel0, msrThermStatus,
        msrPackageThermStatus, msrTemperatureTarget, msrCorePerfLimitReasons,
        msrEnergyPerfBias, msrPerfCtl, msrPebsFrontend]
      omega

theorem not_isValue_fixedCtr (hi : i < 32) : ¬ pmu.IsValue (msrFixedCtr0 + i) := by
  have hgp : pmu.pmcGp ≤ 25 := fits.gp
  simp only [Pmu.IsValue, msrAPmc0, msrPerfctr0, msrFixedCtr0]
  omega

/-- The value of a fixed counter is written like a register, if it is exported. -/
theorem run_ffCntWrVal (hi : i < 32) :
    ((pfcFfCntWrVal pmu i w).run pmu.device m).2 =
      Function.update m (msrFixedCtr0 + i)
        ((Counter.ff i).count pmu (m (msrFixedCtr0 + i)) w) := by
  have hvalue := not_isValue_fixedCtr fits hi
  have hread : pmu.device.read m (msrFixedCtr0 + i) = m (msrFixedCtr0 + i) :=
    if_neg (not_or.mp hvalue).1
  rw [pfcFfCntWrVal, run_wrmsr, reservedMask_fixedCtr fits hi]
  by_cases hff : i < pmu.pmcFf
  · simp only [if_pos hff, write_of_not_isValue hvalue, hread, Counter.count]
  · simp only [if_neg hff, Counter.count, Function.update_eq_self]

/-- A write to the 32-bit name of a general-purpose counter. -/
theorem run_wrmsr_perfctr (hi : i < pmu.pmcGp) :
    ((pfcWrmsr pmu (msrPerfctr0 + i) w).run pmu.device m).2 =
      Function.update m (msrPerfctr0 + i)
        (((blend (~~~ pmu.pmcGpMask) (m (msrPerfctr0 + i)) w).truncate 32).signExtend 64 &&&
          ov pmu.pmcGpBitwidth 0) := by
  have hgp : pmu.pmcGp ≤ 25 := fits.gp
  have hctr : msrPerfctr0 ≤ msrPerfctr0 + i ∧ msrPerfctr0 + i < msrPerfctr0 + pmu.pmcGp := by
    omega
  have hnot : ¬ (msrAPmc0 ≤ msrPerfctr0 + i ∧ msrPerfctr0 + i < msrAPmc0 + pmu.pmcGp) := by
    simp only [msrAPmc0, msrPerfctr0]
    omega
  rw [run_wrmsr, reservedMask_value (.inr hctr)]
  simp only [Pmu.device, if_neg hnot, if_pos hctr]

/-- The value of a general-purpose counter is written through either of its names. -/
theorem run_gpCntWrVal (hi : i < pmu.pmcGp) :
    ((pfcGpCntWrVal pmu i w).run pmu.device m).2 =
      Function.update m (msrPerfctr0 + i)
        ((Counter.gp i).count pmu (m (msrPerfctr0 + i)) w) := by
  have hpmc : msrAPmc0 ≤ msrAPmc0 + i ∧ msrAPmc0 + i < msrAPmc0 + pmu.pmcGp := by omega
  unfold pfcGpCntWrVal Counter.count
  cases pmu.fullWidthWrites with
  | true =>
      rw [if_pos rfl, run_wrmsr, reservedMask_value (.inl hpmc)]
      simp only [Pmu.device, if_pos hpmc, Nat.add_sub_cancel_left, if_true]
  | false =>
      rw [if_neg Bool.false_ne_true, run_wrmsr_perfctr fits hi]
      simp only [Bool.false_eq_true, if_false]

/-- A round of `pfcCntWr` writes the value of its counter. -/
theorem run_cntWrRound (hx : x.Valid pmu) :
    ((cntWrRound pmu x w).run pmu.device m).2 =
      Function.update m x.addr (x.count pmu (m x.addr) w) := by
  cases x with
  | ff i => exact run_ffCntWrVal fits (Nat.lt_of_lt_of_le hx (by decide))
  | gp i => exact run_gpCntWrVal fits hx

end Fits

/-! ## The fold of a handler -/

/-- A body at one counter: what it makes of the buffer and the registers. -/
def walkStep {β : Type} (pmu : Pmu) (body : Counter → ℕ → β → Kprog β) (s : β × Msrs)
    (p : Counter × ℕ) : β × Msrs := (body p.1 p.2 s.1).run pmu.device s.2

section Walk

variable {β : Type} {body : Counter → ℕ → β → Kprog β} {off len : U64} {b : β}

theorem run_overCounters {counter : ℕ → Counter} {rangeStart rangeEnd j : ℕ} :
    (overCounters body counter off len rangeStart rangeEnd j b).run pmu.device m =
      ((j + (overlap counter off len rangeStart rangeEnd j).length,
        ((overlap counter off len rangeStart rangeEnd j).foldl (walkStep pmu body) (b, m)).1),
        ((overlap counter off len rangeStart rangeEnd j).foldl (walkStep pmu body) (b, m)).2) := by
  unfold overCounters overlap
  cases pfcClampRange ((off.sshiftRight 3).truncate 32) ((len >>> 3).truncate 32)
      rangeStart rangeEnd with
  | none => rfl
  | some bounds =>
      obtain ⟨pmcStart, pmcEnd⟩ := bounds
      simp only [RegProg.run_bind, RegProg.run_loop, List.foldl_map, List.length_map,
        List.length_range]
      rfl

/-- A handler returns the bytes of the counters it walks over, and folds its body over
them. -/
theorem run_sysfsAccess :
    (sysfsAccess pmu off len body b).run pmu.device m =
      ((if unreasonable off len then -1 else 8 * ((accessed pmu off len).length : ℤ),
        ((accessed pmu off len).foldl (walkStep pmu body) (b, m)).1),
        ((accessed pmu off len).foldl (walkStep pmu body) (b, m)).2) := by
  unfold sysfsAccess accessed
  cases unreasonable off len with
  | true => rfl
  | false =>
      simp only [Bool.false_eq_true, if_false, RegProg.run_bind, run_overCounters, Nat.zero_add,
        List.foldl_append, List.length_append]
      rfl

end Walk

/-! ## Values under the handlers -/

section Fits

variable (fits : pmu.Fits)
include fits

/-- A round of `pfcCntWr` updates its own value and leaves the others. -/
theorem localStep_cntWr (buf : ℕ → U64) :
    LocalStep (fun x : Counter => x.Valid pmu) (fun (s : Unit × Msrs) x => s.2 x.addr)
      (fun x j v => x.count pmu v (buf j))
      (walkStep pmu fun x j _ => cntWrRound pmu x (buf j)) where
  self s p hp := by
    simp only [walkStep, run_cntWrRound fits hp, Function.update_self]
  other s p y hp hy hne := by
    have haddr : y.addr ≠ p.1.addr := fun h => hne (Counter.addr_injective fits hy hp h)
    simp only [walkStep, run_cntWrRound fits hp, Function.update_of_ne haddr]

omit fits in
/-- A round of `pfcCfgWr` writes configuration registers only. -/
theorem writesIn_cfgWrRound (hx : x.Valid pmu) (w : U64) :
    (cfgWrRound pmu x w).WritesIn pmu.IsConfig := by
  have hglobal : pmu.IsConfig msrPerfGlobalCtrl := .inr (.inl rfl)
  have hread : ∀ addr, (pfcRdmsr addr).WritesIn pmu.IsConfig := fun _ _ => trivial
  cases x with
  | ff i =>
      have hfixed : pmu.IsConfig msrFixedCtrCtrl := .inl rfl
      have henb : ∀ v, (pfcFfCntWrEnb pmu i v).WritesIn pmu.IsConfig := fun v =>
        (hread _).bind fun _ => writesIn_wrmsr hglobal
      have hcfg : (pfcFfCntWrCfg pmu i w).WritesIn pmu.IsConfig :=
        (hread _).bind fun _ => writesIn_wrmsr hfixed
      refine (henb 0).bind fun _ => hcfg.bind fun _ => ?_
      refine WritesIn.bind (p := pfcFfCntRdCfg i) (fun _ => trivial) fun cfg => ?_
      split
      · exact henb 1
      · trivial
  | gp i =>
      have hevtsel : pmu.IsConfig (msrPerfevtsel0 + i) := .inr (.inr ⟨i, hx, rfl⟩)
      have henb : ∀ v, (pfcGpCntWrEnb pmu i v).WritesIn pmu.IsConfig := fun v =>
        (hread _).bind fun _ => writesIn_wrmsr hglobal
      refine (henb 0).bind fun _ => (writesIn_wrmsr hevtsel).bind fun _ => ?_
      refine (hread _).bind fun cfg => ?_
      split
      · exact henb 1
      · trivial

/-- A write to `config` leaves every register that is no configuration. -/
theorem cfgWr_frame {off len : U64} {buf : ℕ → U64}
    (hvalid : ∀ p ∈ accessed pmu off len, p.1.Valid pmu) {addr : ℕ} (haddr : ¬ pmu.IsConfig addr) :
    ((pfcCfgWr pmu off len buf).run pmu.device m).2 addr = m addr := by
  rw [pfcCfgWr, run_sysfsAccess]
  generalize accessed pmu off len = l at hvalid
  simp only
  generalize () = b
  induction l generalizing b m with
  | nil => rfl
  | cons p l ih =>
      have hwrites := writesIn_cfgWrRound (hvalid p List.mem_cons_self) (buf p.2)
      have hround := hwrites.frame (d := pmu.device) (fun s : Msrs => s addr)
        (fun s a w ha => by
          have hne : addr ≠ a := fun h => haddr (h ▸ ha)
          rw [write_of_isConfig fits ha, Function.update_of_ne hne]) m
      rw [List.foldl_cons]
      exact (ih (fun q hq => hvalid q (List.mem_cons_of_mem _ hq)) _).trans hround

end Fits

end Kmod

end PerfHound
