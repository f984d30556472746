/-
# The policy of the kernel module

The files are writable by everyone, so what keeps user programs away from the rest of
the PMU is the module: it drops the interrupt and pin control bits, refuses some events
on some counters, and blends the reserved bits of every register into what it writes.
`Policy` states this for one configuration. The helpers keep it one by one, and so it
holds after every single register write of any sequence of accesses.
-/

import PerfHound.Kmod.Init
import PerfHound.Kmod.Sysfs

namespace PerfHound

open Lib

namespace Kmod

variable {pmu : Pmu} {c c₀ : Config} {i : ℕ}

/-! ## Event rules -/

/-- Counter `i` may count what `w` selects. -/
def Selectable (i : ℕ) (w : U64) : Prop :=
  (evtNum w = 0x48 ∨ (evtNum w = 0xA3 ∧ (umask w = 0x08 ∨ umask w = 0x0C)) → i = 2) ∧
    (evtNum w = 0xC0 ∧ umask w = 0x01 → i = 1)

instance (i : ℕ) (w : U64) : Decidable (Selectable i w) := by
  unfold Selectable; infer_instance

/-- The rules look at the low 16 bits only. -/
theorem selectable_congr {v w : U64} (h : ∀ b < 16, v.getLsbD b = w.getLsbD b) :
    Selectable i v ↔ Selectable i w := by
  have hbyte : ∀ k : ℕ, k + 8 ≤ 16 → ((v >>> k) &&& 0xFF : U64) = (w >>> k) &&& 0xFF := by
    intro k hk
    apply BitVec.eq_of_getLsbD_eq
    intro j _
    rw [ov_eight, getLsbD_low (by decide), getLsbD_low (by decide), BitVec.getLsbD_ushiftRight,
      BitVec.getLsbD_ushiftRight]
    by_cases hj : j < 8
    · rw [h (k + j) (by omega)]
    · rw [decide_eq_false hj, Bool.and_false, Bool.and_false]
  have hevt : evtNum v = evtNum w := hbyte 0 (by decide)
  have humask : umask v = umask w := hbyte 8 (by decide)
  unfold Selectable
  rw [hevt, humask]

theorem getLsbD_clearPin (w : U64) (b : ℕ) :
    (w &&& ~~~ 0x0000000000180000).getLsbD b = (w.getLsbD b && decide (b ≠ 19 ∧ b ≠ 20)) := by
  have hmask : (~~~ 0x0000000000180000 : U64) = zv 2 19 := by decide
  rw [hmask, BitVec.getLsbD_and, getLsbD_zv]
  by_cases hb : b < 64
  · congr 1
    simp only [hb, true_and, decide_eq_decide]
    omega
  · rw [BitVec.getLsbD_of_ge w b (Nat.le_of_not_lt hb), Bool.false_and, Bool.false_and]

/-- What the module writes for a word: nothing where counter `i` may not count it, and
the word without interrupt and pin control otherwise. -/
theorem gpWord_eq (i : ℕ) (w : U64) :
    gpWord i w = if Selectable i w then w &&& ~~~ 0x0000000000180000 else 0 := by
  have hlow : ∀ b < 16, (w &&& ~~~ 0x0000000000180000).getLsbD b = w.getLsbD b := by
    intro b hb
    rw [getLsbD_clearPin, decide_eq_true (by omega), Bool.and_true]
  have hiff : Selectable i (w &&& ~~~ 0x0000000000180000) ↔ Selectable i w := selectable_congr hlow
  by_cases hselectable : Selectable i w
  · rw [if_pos hselectable]
    obtain ⟨htwo, hone⟩ := hiff.mpr hselectable
    apply if_neg
    rintro (⟨h, hi⟩ | ⟨h, hi⟩)
    · exact hi (htwo h)
    · exact hi (hone h)
  · rw [if_neg hselectable]
    apply if_pos
    by_contra hforbidden
    rw [not_or, not_and, not_and, not_not, not_not] at hforbidden
    exact hselectable (hiff.mp hforbidden)

theorem selectable_zero (i : ℕ) : Selectable i 0 := by
  constructor
  · rintro (h | ⟨h, _⟩)
    · exact absurd h (by decide)
    · exact absurd h (by decide)
  · rintro ⟨h, _⟩
    exact absurd h (by decide)

/-- A selection register holds only what its counter may count, and never bits 19 and 20. -/
theorem gpWord_policy (i : ℕ) (w : U64) :
    Selectable i (gpWord i w) ∧ (gpWord i w).getLsbD 19 = false ∧
      (gpWord i w).getLsbD 20 = false := by
  rw [gpWord_eq]
  by_cases hselectable : Selectable i w
  · rw [if_pos hselectable, getLsbD_clearPin, getLsbD_clearPin]
    refine ⟨(selectable_congr fun b hb => ?_).mpr hselectable, by simp, by simp⟩
    rw [getLsbD_clearPin, decide_eq_true (by omega), Bool.and_true]
  · rw [if_neg hselectable]
    exact ⟨selectable_zero i, BitVec.getLsbD_zero, BitVec.getLsbD_zero⟩

/-- The rules look at what was written, not at the high half that is kept. -/
theorem selectable_blend {old new : U64} (h : Selectable i new) :
    Selectable i (blend 0xFFFFFFFF00000000 old new) := by
  refine (selectable_congr fun b hb => ?_).mpr h
  rw [getLsbD_blend_high, if_pos (Nat.lt_trans hb (by decide))]

/-! ## The invariant -/

/-- Configuration `c` satisfies the policy, and agrees with `c₀` outside the exported
counters. -/
structure Policy (pmu : Pmu) (c₀ c : Config) : Prop where
  /-- No interrupt and no pin control on a general-purpose counter. -/
  pin : ∀ i < pmu.pmcGp, (c.perfevtsel i).getLsbD 19 = false ∧ (c.perfevtsel i).getLsbD 20 = false
  /-- No interrupt on a fixed counter. -/
  pmi : ∀ i < pmu.pmcFf, c.fixedCtrCtrl.getLsbD (4 * i + 3) = false
  events : ∀ i < pmu.pmcGp, Selectable i (c.perfevtsel i)
  upper : ∀ i < pmu.pmcGp, ∀ b ≥ 32, (c.perfevtsel i).getLsbD b = (c₀.perfevtsel i).getLsbD b
  fixedCtrCtrl : ∀ b ≥ 4 * pmu.pmcFf, c.fixedCtrCtrl.getLsbD b = c₀.fixedCtrCtrl.getLsbD b
  perfGlobalCtrl : ∀ b, ¬ pmu.Exports b →
    c.perfGlobalCtrl.getLsbD b = c₀.perfGlobalCtrl.getLsbD b

theorem Policy.enable (fits : pmu.Fits) (h : Policy pmu c₀ c) (b : ℕ) :
    Policy pmu c₀ (c.enable pmu b 1) where
  pin := h.pin
  pmi := h.pmi
  events := h.events
  upper := h.upper
  fixedCtrCtrl := h.fixedCtrCtrl
  perfGlobalCtrl k hk := by
    have hne : ¬ (k = b ∧ pmu.Exports b) := by
      rintro ⟨rfl, hexports⟩
      exact hk hexports
    rw [Config.getLsbD_enable fits, decide_eq_false hne, Bool.or_false]
    exact h.perfGlobalCtrl k hk

theorem Policy.wrFf (fits : pmu.Fits) (h : Policy pmu c₀ c) (i : ℕ) (w : U64) :
    Policy pmu c₀ (c.wrFf pmu i w) where
  pin := h.pin
  pmi k hk := by
    rw [Config.getLsbD_wrFf fits]
    split
    case isTrue hfield =>
      have hlast : ¬ 4 * k + 3 < 4 * i + 3 := by omega
      rw [decide_eq_false hlast, Bool.false_and]
    case isFalse => exact h.pmi k hk
  events := h.events
  upper := h.upper
  fixedCtrCtrl b hb := by
    rw [Config.getLsbD_wrFf fits, if_neg fun hfield => Nat.not_lt.mpr hb hfield.2.2]
    exact h.fixedCtrCtrl b hb
  perfGlobalCtrl := h.perfGlobalCtrl

theorem Policy.wrGp (h : Policy pmu c₀ c) (i : ℕ) (w : U64) : Policy pmu c₀ (c.wrGp i w) where
  pin k hk := by
    by_cases hki : k = i
    · subst hki
      rw [Config.wrGp_self, getLsbD_blend_high, getLsbD_blend_high]
      exact (gpWord_policy k w).2
    · rw [Config.wrGp_of_ne hki]
      exact h.pin k hk
  pmi := h.pmi
  events k hk := by
    by_cases hki : k = i
    · subst hki
      rw [Config.wrGp_self]
      exact selectable_blend (gpWord_policy k w).1
    · rw [Config.wrGp_of_ne hki]
      exact h.events k hk
  upper k hk b hb := by
    by_cases hki : k = i
    · subst hki
      rw [Config.wrGp_self, getLsbD_blend_high, if_neg (Nat.not_lt.mpr hb)]
      exact h.upper k hk b hb
    · rw [Config.wrGp_of_ne hki]
      exact h.upper k hk b hb
  fixedCtrCtrl := h.fixedCtrCtrl
  perfGlobalCtrl := h.perfGlobalCtrl

theorem kept_policy (fits : pmu.Fits) (c₀ : Config) : Kept pmu (Policy pmu c₀) where
  enable _ b h := h.enable fits b
  write c x w _ h := by
    cases x with
    | ff i => exact h.wrFf fits i w
    | gp i => exact h.wrGp i w

/-- The initialised counters satisfy the policy. -/
theorem policy_reset (c : Config) : Policy pmu (c.reset pmu) (c.reset pmu) where
  pin i _ := by
    simp only [Config.reset, getLsbD_blend_high]
    exact ⟨BitVec.getLsbD_zero, BitVec.getLsbD_zero⟩
  pmi i hi := by
    have hexported : ¬ (4 * i + 3 < 0 ∨ 4 * pmu.pmcFf + 0 ≤ 4 * i + 3) := by omega
    simp only [Config.reset, getLsbD_blend, getLsbD_zv, hexported, and_false, decide_false,
      Bool.false_eq_true, if_false]
    exact BitVec.getLsbD_zero
  events i _ := selectable_blend (selectable_zero i)
  upper _ _ _ _ := rfl
  fixedCtrCtrl _ _ := rfl
  perfGlobalCtrl _ _ := rfl

/-! ## Every moment of every session -/

/-- Without clamping, every access stays with the exported counters. -/
theorem Pmu.Unclamped.valid (h : pmu.Unclamped) (a : Access) : a.Valid pmu := by
  intro p hp
  rcases mem_accessed hp with ⟨i, hi, heq⟩ | ⟨i, hi, heq⟩
  · rw [h.endFf, h.startFf, Nat.sub_zero] at hi
    rw [heq]
    exact Nat.lt_of_lt_of_le hi h.ff
  · rw [h.endGp, h.startGp, Nat.add_sub_cancel_left] at hi
    rw [heq]
    exact hi

/-- From the initialised counters on, the policy holds at every moment of any sequence
of accesses. -/
theorem policy_at_every_moment (h : pmu.Unclamped) (m : Msrs) (accesses : List Access) :
    ∀ t ∈ pmu.initialised m :: (session pmu accesses).moments pmu.device (pmu.initialised m),
      Policy pmu (pmu.config (pmu.initialised m)) (pmu.config t) := by
  have hstart : Policy pmu (pmu.config (pmu.initialised m)) (pmu.config (pmu.initialised m)) := by
    rw [config_initialised h.fits]
    exact policy_reset _
  intro t ht
  rcases List.mem_cons.mp ht with rfl | ht
  · exact hstart
  · have hholds := (kept_policy h.fits (pmu.config (pmu.initialised m))).session h.fits
      (fun a (_ : a ∈ accesses) => h.valid a) hstart
    exact hholds.sound.1 t ht

/-- Ones written to every slot of a core whose registers were all ones before: the
selection keeps its high half and loses bits 19 and 20. -/
theorem policy_at_every_moment_quad :
    let m₀ := Pmu.quad.initialised fun _ => BitVec.allOnes 64
    let last := (m₀ :: (session .quad [.cfgWr 0 56 fun _ => BitVec.allOnes 64]).moments
      Pmu.quad.device m₀).getLast (List.cons_ne_nil _ _)
    last msrPerfevtsel0 = 0xFFFFFFFFFFE7FFFF ∧
      Policy .quad (Pmu.quad.config m₀) (Pmu.quad.config last) :=
  ⟨by decide +kernel, policy_at_every_moment Pmu.unclamped_quad _ _ _ (List.getLast_mem _)⟩

end Kmod

end PerfHound
