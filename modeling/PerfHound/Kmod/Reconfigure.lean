/-
# What a config write does to each counter

A write to `config` reconfigures the counters of its range one after the other. Seen
from one counter there are two things: its enable bit and what is stored for it. The
round of a counter updates its own two and leaves those of the others, so after the
whole write each counter in the range has been through its own round.
-/

import PerfHound.Kmod.Init
import PerfHound.Kmod.Sysfs
import PerfHound.Lib.LocalUpdates

namespace PerfHound

open Lib

namespace Kmod

variable {pmu : Pmu} {r : CpuidReport} {c : Config} {x y : Counter} {w : U64}

/-! ## The view of one counter -/

def Config.enabled (c : Config) (x : Counter) : Bool := c.perfGlobalCtrl.getLsbD x.bit

/-- What is stored for a counter: its field or its selection. -/
def Config.stored (c : Config) : Counter → U64
  | .ff i => c.ffField i
  | .gp i => c.perfevtsel i

/-- What is stored for a counter after word `w` was written over `old`. -/
def Counter.store (pmu : Pmu) : Counter → U64 → U64 → U64
  | .ff i, old, w => if i < pmu.pmcFf then w &&& 0x7 else old
  | .gp i, old, w => blend 0xFFFFFFFF00000000 old (gpWord i w)

/-- The write handler's test on what is stored for a counter. -/
def Counter.test : Counter → U64 → Bool
  | .ff _, s => s &&& 0x2 != 0
  | .gp _, s => s &&& 0x00400000 != 0

/-- The enable bit and the stored word of a counter after its round. -/
def Counter.round (pmu : Pmu) (x : Counter) (w : U64) (v : Bool × U64) : Bool × U64 :=
  (v.1 || (x.test (x.store pmu v.2 w) && decide (pmu.Exports x.bit)), x.store pmu v.2 w)

theorem Config.requests_eq (c : Config) (x : Counter) : c.requests x = x.test (c.stored x) := by
  cases x <;> rfl

/-- The bit of the stored word that requests counting. -/
def Counter.enableBit : Counter → ℕ
  | .ff _ => 1
  | .gp _ => 22

theorem Counter.test_eq (x : Counter) (s : U64) : x.test s = s.getLsbD x.enableBit := by
  cases x with
  | ff i =>
      have htwo : (0x2 : U64) = BitVec.twoPow 64 1 := by decide
      rw [Counter.test, htwo]
      exact and_twoPow_bne_zero s (by decide)
  | gp i =>
      have hmask : (0x00400000 : U64) = BitVec.twoPow 64 22 := by decide
      rw [Counter.test, hmask]
      exact and_twoPow_bne_zero s (by decide)

/-! ## One round -/

section Fits

variable (fits : pmu.Fits)
include fits

theorem Counter.bit_injective (hx : x.Valid pmu) (hy : y.Valid pmu) (h : x.bit = y.bit) :
    x = y := by
  have hgp : pmu.pmcGp ≤ 25 := fits.gp
  cases x with
  | ff i =>
      cases y with
      | ff k => exact congrArg Counter.ff (Nat.add_left_cancel h)
      | gp k =>
          have hk : k < pmu.pmcGp := hy
          have hbit : 32 + i = k := h
          omega
  | gp i =>
      cases y with
      | ff k =>
          have hi : i < pmu.pmcGp := hx
          have hbit : i = 32 + k := h
          omega
      | gp k => exact congrArg Counter.gp h

/-- Writing a fixed counter stores the word in its field, unless it is not exported. -/
theorem Config.ffField_wrFf (i k : ℕ) :
    (c.wrFf pmu i w).ffField k =
      if k = i then (Counter.ff i).store pmu (c.ffField i) w else c.ffField k := by
  apply BitVec.eq_of_getLsbD_eq
  intro b _
  rw [Config.getLsbD_ffField, Config.getLsbD_wrFf fits]
  by_cases hb : b < 4
  · by_cases hki : k = i
    · subst hki
      rw [if_pos rfl, Counter.store]
      by_cases hk : k < pmu.pmcFf
      · rw [if_pos (by omega), if_pos hk, ov_three, getLsbD_low (by decide),
          Nat.add_sub_cancel_left]
        simp [hb, Bool.and_comm]
      · rw [if_neg (by omega), if_neg hk, Config.getLsbD_ffField]
    · rw [if_neg (by omega), if_neg hki, Config.getLsbD_ffField]
  · have hge : ∀ k, (c.ffField k).getLsbD b = false := fun k => by
      rw [Config.getLsbD_ffField, decide_eq_false hb, Bool.and_false]
    rw [decide_eq_false hb, Bool.and_false]
    by_cases hki : k = i
    · rw [if_pos hki, Counter.store]
      by_cases hi : i < pmu.pmcFf
      · rw [if_pos hi, ov_three, getLsbD_low (by decide), decide_eq_false (by omega),
          Bool.and_false]
      · rw [if_neg hi, hge]
    · rw [if_neg hki, hge]

theorem Config.stored_write_self : (c.write pmu x w).stored x = x.store pmu (c.stored x) w := by
  cases x with
  | ff i => exact (Config.ffField_wrFf fits i i).trans (if_pos rfl)
  | gp i => exact Config.wrGp_self

theorem Config.stored_write_of_ne (h : y ≠ x) : (c.write pmu x w).stored y = c.stored y := by
  cases x with
  | ff i =>
      cases y with
      | ff k =>
          have hki : k ≠ i := fun hki => h (congrArg Counter.ff hki)
          exact (Config.ffField_wrFf fits i k).trans (if_neg hki)
      | gp k => rfl
  | gp i =>
      cases y with
      | ff k => rfl
      | gp k =>
          have hki : k ≠ i := fun hki => h (congrArg Counter.gp hki)
          exact Config.wrGp_of_ne hki

omit fits in
theorem Config.enabled_write : (c.write pmu x w).enabled y = c.enabled y := by
  cases x <;> rfl

omit fits in
theorem Config.stored_enable (b : ℕ) : (c.enable pmu b 1).stored y = c.stored y := by
  cases y <;> rfl

theorem Config.enabled_reconfigure : (c.reconfigure pmu x w).enabled y =
    (c.enabled y || (decide (y.bit = x.bit) &&
      (x.test (x.store pmu (c.stored x) w) && decide (pmu.Exports x.bit)))) := by
  rw [Config.reconfigure, Config.requests_eq, Config.stored_write_self fits]
  cases x.test (x.store pmu (c.stored x) w) with
  | false => simp [Config.enabled_write]
  | true =>
      rw [if_pos rfl, Config.enabled, Config.getLsbD_enable fits, Bool.decide_and, Bool.true_and]
      exact congrArg (· || _) Config.enabled_write

omit fits in
theorem Config.stored_reconfigure :
    (c.reconfigure pmu x w).stored y = (c.write pmu x w).stored y := by
  unfold Config.reconfigure
  split
  · exact Config.stored_enable _
  · rfl

/-- A round updates its own counter and leaves the others. -/
theorem localStep_reconfigure (buf : ℕ → U64) :
    LocalStep (fun x : Counter => x.Valid pmu) (fun c x => (Config.enabled c x, Config.stored c x))
      (fun x j v => x.round pmu (buf j) v) fun c p => c.reconfigure pmu p.1 (buf p.2) where
  self c p _ := by
    simp only [Counter.round, Config.enabled_reconfigure fits, decide_true, Bool.true_and,
      Config.stored_reconfigure, Config.stored_write_self fits]
  other c p y hp hy hne := by
    have hbit : ¬ y.bit = p.1.bit := fun h => hne (Counter.bit_injective fits hy hp h)
    simp only [Config.enabled_reconfigure fits, hbit, decide_false, Bool.false_and, Bool.or_false,
      Config.stored_reconfigure, Config.stored_write_of_ne fits hne]

end Fits

/-! ## A whole write -/

/-- No counter is accessed twice. -/
theorem nodup_accessed (off len : U64) : ((accessed pmu off len).map Prod.fst).Nodup := by
  have hone : ∀ {counter : ℕ → Counter}, Function.Injective counter → ∀ rangeStart rangeEnd j,
      ((overlap counter off len rangeStart rangeEnd j).map Prod.fst).Nodup := by
    intro counter hinj rangeStart rangeEnd j
    unfold overlap
    split
    · exact List.nodup_nil
    · rw [List.map_map]
      refine List.nodup_range.map fun k l hkl => ?_
      exact Nat.add_left_cancel (hinj hkl)
  have hff : Function.Injective Counter.ff := fun _ _ h => Counter.ff.inj h
  have hgp : Function.Injective Counter.gp := fun _ _ h => Counter.gp.inj h
  unfold accessed
  split
  · exact List.nodup_nil
  · rw [List.map_append]
    refine (hone hff _ _ _).append (hone hgp _ _ _) fun x hx hx' => ?_
    obtain ⟨p, hp, rfl⟩ := List.mem_map.mp hx
    obtain ⟨q, hq, hqp⟩ := List.mem_map.mp hx'
    obtain ⟨i, _, hi⟩ := mem_overlap hp
    obtain ⟨k, _, hk⟩ := mem_overlap hq
    rw [hi, hk] at hqp
    cases hqp

/-! ## A write to the file -/

/-- A write to `config`. The attribute declares its size, and no access goes beyond it. -/
structure CfgWrite where
  off : U64
  len : U64
  buf : ℕ → U64
  inFile : off.toNat + len.toNat ≤ 8 * maxpmc

/-- The registers after a write. -/
def CfgWrite.apply (pmu : Pmu) (m : Msrs) (w : CfgWrite) : Msrs :=
  ((pfcCfgWr pmu w.off w.len w.buf).run pmu.device m).2

/-- The counters in the range of a write exist, also when the counts were clamped. -/
theorem CfgWrite.valid (h : phPmuInitCpuid r = some pmu) (w : CfgWrite) :
    ∀ p ∈ accessed pmu w.off w.len, p.1.Valid pmu := by
  obtain ⟨_, hstartFf, hendFf, hstartGp, gp, hendGp, hclamp⟩ := phPmuInitCpuid_slots h
  have hgp : pmu.pmcGp = min gp 25 := by
    have hsnd := clampCounts_snd pmu.pmcEndFf gp
    rw [hclamp] at hsnd
    exact hsnd
  intro p hp
  cases hbad : unreasonable w.off w.len with
  | true => simp only [accessed, hbad, if_true, List.not_mem_nil] at hp
  | false =>
      obtain ⟨⟨a, hoff⟩, n, hlen⟩ := slots_of_reasonable hbad
      have hfile : a + n ≤ maxpmc := by
        have := w.inFile
        omega
      rw [accessed_window hoff hlen hfile, List.mem_append, overlap_window hoff hlen hfile,
        overlap_window hoff hlen hfile] at hp
      have hmax : a + n ≤ 25 := hfile
      have hthree : phPmuSysfsMaxFf = 3 := rfl
      simp only [List.mem_map, List.mem_range] at hp
      rcases hp with ⟨k, hk, rfl⟩ | ⟨k, hk, rfl⟩
      · simp only [Counter.Valid]
        omega
      · simp only [Counter.Valid]
        omega

section Apply

variable (h : phPmuInitCpuid r = some pmu) (w : CfgWrite) (m : Msrs)
include h

/-- A write to `config` is a sequence of rounds. -/
theorem CfgWrite.config_apply :
    pmu.config (w.apply pmu m) =
      (accessed pmu w.off w.len).foldl (fun c p => c.reconfigure pmu p.1 (w.buf p.2))
        (pmu.config m) :=
  (RegProg.Holds.run ((walks_cfgWr (phPmuInitCpuid_fits h) kept_true w.buf).holds_access trivial
    (w.valid h))).2.1

/-- Every counter in the range went through its own round. -/
theorem CfgWrite.apply_of_mem {p : Counter × ℕ} (hp : p ∈ accessed pmu w.off w.len) :
    ((pmu.config (w.apply pmu m)).enabled p.1, (pmu.config (w.apply pmu m)).stored p.1) =
      p.1.round pmu (w.buf p.2) ((pmu.config m).enabled p.1, (pmu.config m).stored p.1) := by
  rw [w.config_apply h]
  exact (localStep_reconfigure (phPmuInitCpuid_fits h) w.buf).foldl_of_mem (w.valid h)
    (nodup_accessed w.off w.len) hp

/-- Every other counter is as it was. -/
theorem CfgWrite.apply_of_not_mem (hx : x.Valid pmu)
    (hne : ∀ p ∈ accessed pmu w.off w.len, x ≠ p.1) :
    ((pmu.config (w.apply pmu m)).enabled x, (pmu.config (w.apply pmu m)).stored x) =
      ((pmu.config m).enabled x, (pmu.config m).stored x) := by
  rw [w.config_apply h]
  exact (localStep_reconfigure (phPmuInitCpuid_fits h) w.buf).foldl_of_not_mem hx _ _
    (w.valid h) hne

/-- Writing counts in place of configurations changes no configuration. -/
theorem CfgWrite.config_cntWr :
    pmu.config ((pfcCntWr pmu w.off w.len w.buf).run pmu.device m).2 = pmu.config m := by
  have hwalks : Walks pmu (fun _ => True) _ _ := walks_cntWr (phPmuInitCpuid_fits h) w.buf
  have hholds := hwalks.holds_access (m := m) (b := ()) trivial (w.valid h)
  have hconfig := hholds.run.2.1
  rw [List.foldl_fixed] at hconfig
  exact hconfig

end Apply

end Kmod

end PerfHound
