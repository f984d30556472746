/-
# Reading back a configuration

With all three fixed counters the slots of the files have no gap, so a write to `config`
gives each counter in its range the word of its slot. What is read back later is that word
by the module's rules: three bits for a fixed counter; for a general-purpose one the low
half, without interrupt and pin control, or nothing where the counter may not count the
event. The counters outside of the range keep what they had, and no register but those of
the configuration changes.
-/

import PerfHound.Kmod.Words

namespace PerfHound

open Lib

namespace Kmod

variable {pmu : Pmu} {r : CpuidReport} {x : Counter}

/-- What is stored for a counter, by the rules of the module. -/
def Counter.normalised : Counter → U64 → U64 → U64
  | .ff _, _, w => w &&& 0x7
  | .gp i, old, w =>
      (old &&& 0xFFFFFFFF00000000) |||
        if Selectable i w then w &&& 0xFFFFFFFF &&& ~~~ 0x0000000000180000 else 0

/-- The stored word is the normalised one. -/
theorem Counter.store_eq {slot : ℕ} (hx : pmu.counterAt slot = some x) (hff : pmu.pmcFf = 3)
    (old w : U64) : x.store pmu old w = x.normalised old w := by
  obtain ⟨hslot, rfl⟩ := eq_slotCounter hx
  unfold slotCounter
  split
  · next hlt =>
      have hexported : slot < pmu.pmcFf := hff ▸ hlt
      exact if_pos hexported
  · next hge =>
      apply BitVec.eq_of_getLsbD_eq
      intro b hb
      have hhigh : (0xFFFFFFFF00000000 : U64) = ov 32 32 := by decide
      simp only [Counter.store, Counter.normalised]
      rw [getLsbD_blend_high, BitVec.getLsbD_or, BitVec.getLsbD_and, hhigh, getLsbD_ov, gpWord_eq]
      by_cases hlow : b < 32
      · have hout : ¬ (32 ≤ b ∧ b < 32 + 32 ∧ b < 64) := by omega
        rw [if_pos hlow, decide_eq_false hout, Bool.and_false, Bool.false_or]
        split
        · rw [getLsbD_clearPin, getLsbD_clearPin, ov_thirtyTwo, getLsbD_low (by decide),
            decide_eq_true hlow, Bool.and_true]
        · rfl
      · have hin : 32 ≤ b ∧ b < 32 + 32 ∧ b < 64 := by omega
        rw [if_neg hlow, decide_eq_true hin, Bool.and_true]
        split
        · rw [getLsbD_clearPin, ov_thirtyTwo, getLsbD_low (by decide), decide_eq_false hlow,
            Bool.and_false, Bool.false_and, Bool.or_false]
        · have hzero : (0 : U64).getLsbD b = false := BitVec.getLsbD_zero
          rw [hzero, Bool.or_false]

def Counter.slot : Counter → ℕ
  | .ff i => i
  | .gp i => phPmuSysfsMaxFf + i

def Request.Covers (q : Request) (slot : ℕ) : Prop := q.first ≤ slot ∧ slot < q.first + q.words

instance (q : Request) (slot : ℕ) : Decidable (q.Covers slot) := by
  unfold Request.Covers; infer_instance

/-- What is stored for a counter once `words` have been written to the range of `q`. -/
def Request.stores (pmu : Pmu) (q : Request) (words : ℕ → U64) (m : Msrs) (x : Counter) : U64 :=
  if q.Covers x.slot then x.normalised ((pmu.config m).stored x) (words (x.slot - q.first))
  else (pmu.config m).stored x

theorem slot_slotCounter (slot : ℕ) : (slotCounter slot).slot = slot := by
  unfold slotCounter
  split
  · rfl
  · exact Nat.add_sub_cancel' (Nat.le_of_not_lt ‹_›)

/-- With three fixed counters a write stores the words of its range. -/
theorem stored_cfgWr (h : pmu.Unclamped) (hff : pmu.pmcFf = 3) (q : Request) (words : ℕ → U64)
    (m : Msrs) {slot : ℕ} (hx : pmu.counterAt slot = some x) :
    (pmu.config ((pfcCfgWr pmu q.off q.len words).run pmu.device m).2).stored x =
      q.stores pmu words m x := by
  have hthree : phPmuSysfsMaxFf = 3 := rfl
  obtain ⟨cnt, htransfers, hinside, houtside⟩ :=
    addressed_of_inStep h (q := q) (.inl hff) .cfgWr m words
  obtain ⟨hslot, hslotCounter⟩ := eq_slotCounter hx
  have hback : x.slot = slot := by
    rw [hslotCounter, slot_slotCounter]
  rw [Request.stores, hback]
  by_cases hcovers : q.Covers slot
  · obtain ⟨hfirst, hlast⟩ := hcovers
    -- the slots have no gap, so the transfer does not stop before this one
    have hcnt : slot - q.first < cnt := by
      by_contra hge
      rcases htransfers.whole with hall | hnone
      · omega
      · have hhas : pmu.HasSlot (q.first + cnt) := by
          unfold Pmu.HasSlot at hslot ⊢
          omega
        rw [Pmu.counterAt, if_pos hhas] at hnone
        cases hnone
    have hword := hinside (slot - q.first) hcnt x (by rw [Nat.add_sub_cancel' hfirst]; exact hx)
    rw [if_pos ⟨hfirst, hlast⟩, ← Counter.store_eq hx hff]
    exact congrArg Prod.snd hword
  · rw [if_neg hcovers]
    have hle := htransfers.le
    have hout : slot < q.first ∨ q.first + cnt ≤ slot := by
      unfold Request.Covers at hcovers
      omega
    exact congrArg Prod.snd (houtside slot x hx hout)

/-- The values of the counters are no configuration. -/
theorem not_isConfig_addr (fits : pmu.Fits) (hx : x.Valid pmu) : ¬ pmu.IsConfig x.addr := by
  cases x with
  | ff i => exact not_isConfig_fixedCtr fits (Nat.lt_of_lt_of_le hx (by decide))
  | gp i =>
      refine not_isConfig_of_isValue fits (.inr ⟨Nat.le_add_right _ _, ?_⟩)
      exact Nat.add_lt_add_left hx _

/-- **What was written is read back, and nothing else has changed.** -/
theorem read_back (hreport : phPmuInitCpuid r = some pmu) (hff : 3 ≤ pmu.pmcFfHw)
    (hgp : pmu.pmcGp ≤ 22) (q q' : Request) (words buf : ℕ → U64) (m : Msrs) :
    let t := ((pfcCfgWr pmu q.off q.len words).run pmu.device m).2
    let s := (pfcCfgRd pmu q'.off q'.len buf).run pmu.device t
    ReadsWords pmu q' (q.stores pmu words m) buf s.1 ∧
      (∀ addr, ¬ pmu.IsConfig addr → s.2 addr = m addr) ∧
      ∀ x : Counter, x.Valid pmu → s.2 x.addr = m x.addr := by
  intro t s
  have h : pmu.Unclamped := by
    obtain ⟨-, -, hendFf, hstartGp, gp, hendGp, hclamp⟩ := phPmuInitCpuid_slots hreport
    have hmin := clampCounts_snd pmu.pmcEndFf gp
    rw [hclamp] at hmin
    apply phPmuInitCpuid_unclamped hreport
    simp only [phPmuSysfsMaxFf, maxpmc] at hendFf hstartGp hendGp hmin ⊢
    omega
  have hthree : pmu.pmcFf = 3 := by
    obtain ⟨-, -, hendFf, -⟩ := phPmuInitCpuid_slots hreport
    rw [← h.endFf, hendFf]
    exact Nat.min_eq_right hff
  obtain ⟨⟨cnt, htransfers, hinside, houtside⟩, hregisters⟩ :=
    addressed_of_inStep h (q := q') (.inl hthree) .cfgRd t buf
  have hframe : ∀ addr, ¬ pmu.IsConfig addr → s.2 addr = m addr := by
    intro addr haddr
    rw [show s.2 = t from hregisters]
    exact cfgWr_frame h.fits (valid_accessed h q) haddr
  refine ⟨⟨cnt, htransfers, fun k hk x hx => ?_, houtside⟩, hframe, fun x hx => ?_⟩
  · rw [← stored_cfgWr h hthree q words m hx]
    exact hinside k hk x hx
  · exact hframe x.addr (not_isConfig_addr h.fits hx)

/-- Four words over registers that were all ones before. -/
theorem read_back_quad :
    ReadsWords .quad .four
        (Request.four.stores .quad (fun _ => 0x5900C0) fun _ => BitVec.allOnes 64) (fun _ => 0)
        ((pfcCfgRd .quad 0 32 fun _ => 0).run Pmu.quad.device
          ((pfcCfgWr .quad 0 32 fun _ => 0x5900C0).run Pmu.quad.device
            fun _ => BitVec.allOnes 64).2).1 ∧
      Request.four.stores .quad (fun _ => 0x5900C0) (fun _ => BitVec.allOnes 64) (.gp 0) =
        0xFFFFFFFF004100C0 ∧
      Request.four.stores .quad (fun _ => 0x5900C0) (fun _ => BitVec.allOnes 64) (.gp 1) =
        0xFFFFFFFFFFFFFFFF :=
  ⟨(read_back phPmuInitCpuid_quad (by decide) (by decide) .four .four (fun _ => 0x5900C0)
    (fun _ => 0) fun _ => BitVec.allOnes 64).1, by decide, by decide⟩

end Kmod

end PerfHound
