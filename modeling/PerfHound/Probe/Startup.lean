/-
# The counters of a running program

`ph_init` goes on only when `ph_pmu_init` found the files of the kernel module, user access
to the counters enabled, and seven masks to read. The masks are those of three fixed and four
general-purpose counters, so where the module exports fewer the probe does not start, and
where it starts its requests are in step with the slots.

From there on the counters are known as a whole: once the events are committed, the fixed
counters run, the general-purpose ones run on the events that the module lets them count,
both from zero, and the others are stopped.
-/

import PerfHound.Kmod.Cleared
import PerfHound.Kmod.Store
import PerfHound.Probe.Counting

namespace PerfHound

open Lib Kmod EvtX86

namespace Startup

variable {pmu : Pmu} {r : CpuidReport} {m : Msrs} {slot : ℕ} {x : Counter}

/-! ## Opening the files -/

theorem aligned_slots {k n : ℕ} (hkn : k + n ≤ maxpmc) :
    pfcIsAligned (BitVec.ofNat 64 (8 * k)) (BitVec.ofNat 64 (8 * n)) 0x7 = true := by
  have hmax : k + n ≤ 25 := hkn
  have hreasonable : unreasonable (BitVec.ofNat 64 (8 * k)) (BitVec.ofNat 64 (8 * n)) = false :=
    reasonable_window (by rw [BitVec.toNat_ofNat]; omega) (by rw [BitVec.toNat_ofNat]; omega) hkn
  simpa [unreasonable] using (Bool.or_eq_false_iff.mp hreasonable).1

theorem inFile_slots {k n : ℕ} (hkn : k + n ≤ maxpmc) :
    (BitVec.ofNat 64 (8 * k)).toNat + (BitVec.ofNat 64 (8 * n)).toNat ≤ 8 * maxpmc := by
  have hmax : k + n ≤ 25 := hkn
  rw [BitVec.toNat_ofNat, BitVec.toNat_ofNat, Nat.mod_eq_of_lt (by omega),
    Nat.mod_eq_of_lt (by omega), ← Nat.mul_add]
  exact Nat.mul_le_mul_left 8 hkn

/-- `n` words for the slots from `k` on. -/
def slots (k n : ℕ) (hkn : k + n ≤ maxpmc) : Request where
  off := BitVec.ofNat 64 (8 * k)
  len := BitVec.ofNat 64 (8 * n)
  aligned := aligned_slots hkn
  inFile := inFile_slots hkn

section Slots

variable {k n : ℕ} (hkn : k + n ≤ maxpmc)

end Slots

/-- The counters of a program that has committed `n` events with these codes. -/
structure Running (pmu : Pmu) (codes : ℕ → U64) (n : ℕ) (s : Store) : Prop where
  /-- The fixed counters run in user mode, from zero. -/
  fixed : ∀ i < 3, ∃ v, s i = some v ∧ v.enabled = true ∧ v.word = 2 ∧
    v.value &&& (Counter.ff i).valueBits pmu = 0
  /-- An event is counted, from zero, if its counter may count it. -/
  events : ∀ i < n, i < pmu.pmcGp → ∃ v, s (phPmuSysfsMaxFf + i) = some v ∧
    v.enabled = decide (Selectable i (codes i)) ∧
    v.word &&& 0xFFFFFFFF = (if Selectable i (codes i) then codes i else 0) ∧
    v.value &&& (Counter.gp i).valueBits pmu = 0
  /-- The other counters are stopped. -/
  idle : ∀ i, n ≤ i → i < pmu.pmcGp →
    ∃ v, s (phPmuSysfsMaxFf + i) = some v ∧ v.enabled = false

section Cells

end Cells

/-- The codes of a running program may be told in any way that agrees on its events. -/
theorem Running.congr {codes codes' : ℕ → U64} {n : ℕ} {s : Store}
    (hcodes : ∀ i < n, codes i = codes' i) (hs : Running pmu codes n s) :
    Running pmu codes' n s where
  fixed := hs.fixed
  events i hi hgp := by
    rw [← hcodes i hi]
    exact hs.events i hi hgp
  idle := hs.idle

/-! ## From the start to the commit -/

section Program

variable (hreport : phPmuInitCpuid r = some pmu) (h : pmu.Unclamped) (hff : pmu.pmcFf = 3)
include hreport h hff

end Program

end Startup

end PerfHound
