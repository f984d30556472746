/-
# Words and slots

The sysfs files are arrays of slots: fixed counters from index 0 on, general-purpose ones
from index 3 on. A request for the words from some index on should exchange each word with
the counter that has its slot. The handlers count the words of both kinds with one index
that runs on from the first kind to the second, so with fewer than three fixed counters the
slots in between are skipped in the file but not in the buffer.
-/

import PerfHound.Kmod.Policy
import PerfHound.Kmod.Values

namespace PerfHound

open Lib

namespace Kmod

variable {pmu : Pmu} {r : CpuidReport} {m : Msrs} {x : Counter}

/-! ## Requests -/

/-- An aligned request. The attributes declare their size, and no request goes beyond it. -/
structure Request where
  off : U64
  len : U64
  aligned : pfcIsAligned off len 0x7 = true
  inFile : off.toNat + len.toNat ≤ 8 * maxpmc

/-- The slot of the first word. -/
def Request.first (q : Request) : ℕ := q.off.toNat / 8

/-- The number of words. -/
def Request.words (q : Request) : ℕ := q.len.toNat / 8

theorem Request.reasonable (q : Request) : unreasonable q.off q.len = false := by
  have hmax : q.off.toNat + q.len.toNat ≤ 200 := q.inFile
  have hmsb : q.off.msb = false := BitVec.msb_eq_false_iff_two_mul_lt.mpr (by omega)
  have hsign : q.off.slt 0 = q.off.msb := BitVec.slt_zero_eq_msb
  rw [unreasonable, q.aligned, hsign, hmsb]
  rfl

/-- A request covers whole slots of the file. -/
theorem Request.slots (q : Request) :
    q.off.toNat = 8 * q.first ∧ q.len.toNat = 8 * q.words ∧ q.first + q.words ≤ maxpmc := by
  obtain ⟨⟨a, ha⟩, n, hn⟩ := slots_of_reasonable q.reasonable
  have hfile := q.inFile
  unfold Request.first Request.words
  omega

def slotCounter (slot : ℕ) : Counter :=
  if slot < phPmuSysfsMaxFf then .ff slot else .gp (slot - phPmuSysfsMaxFf)

/-- The slots of the counters the module exports. -/
def Pmu.HasSlot (pmu : Pmu) (slot : ℕ) : Prop :=
  slot < pmu.pmcFf ∨ (phPmuSysfsMaxFf ≤ slot ∧ slot < phPmuSysfsMaxFf + pmu.pmcGp)

instance (pmu : Pmu) (slot : ℕ) : Decidable (pmu.HasSlot slot) := by
  unfold Pmu.HasSlot; infer_instance

/-- The counter exported at a sysfs index. -/
def Pmu.counterAt (pmu : Pmu) (slot : ℕ) : Option Counter :=
  if pmu.HasSlot slot then some (slotCounter slot) else none

/-! ## What a request should do -/

/-- `ret` counts the words of the request from its first one on, up to its end or to a slot
without a counter. -/
structure Transfers (pmu : Pmu) (q : Request) (ret : ℤ) (cnt : ℕ) : Prop where
  ret_eq : ret = 8 * cnt
  le : cnt ≤ q.words
  exported : ∀ k < cnt, pmu.counterAt (q.first + k) ≠ none
  whole : cnt = q.words ∨ pmu.counterAt (q.first + cnt) = none

/-- Each word transferred is the value of the counter at its index, and the rest of `buf`
is left alone. -/
def ReadsWords (pmu : Pmu) (q : Request) (value : Counter → U64) (buf : ℕ → U64)
    (r : ℤ × (ℕ → U64)) : Prop :=
  ∃ cnt, Transfers pmu q r.1 cnt ∧
    (∀ k < cnt, ∀ x, pmu.counterAt (q.first + k) = some x → r.2 k = value x) ∧
    ∀ k ≥ cnt, r.2 k = buf k

/-- Each word transferred is stored in the counter at its index, and the other counters are
left alone. -/
def WritesWords {ν : Type} (pmu : Pmu) (q : Request) (store : Counter → U64 → ν → ν)
    (buf : ℕ → U64) (ret : ℤ) (old new : Counter → ν) : Prop :=
  ∃ cnt, Transfers pmu q ret cnt ∧
    (∀ k < cnt, ∀ x, pmu.counterAt (q.first + k) = some x → new x = store x (buf k) (old x)) ∧
    ∀ slot x, pmu.counterAt slot = some x → (slot < q.first ∨ q.first + cnt ≤ slot) →
      new x = old x

/-- The five handlers. -/
inductive Handler
  | cfgRd
  | cfgWr
  | cntRd
  | cntWr
  | mskRd
  deriving DecidableEq, Repr

def Counter.mask (pmu : Pmu) : Counter → U64
  | .ff _ => pmu.pmcFfMask
  | .gp _ => pmu.pmcGpMask

/-- The enable bit and the stored word of a counter. -/
def Pmu.setting (pmu : Pmu) (m : Msrs) (x : Counter) : Bool × U64 :=
  ((pmu.config m).enabled x, (pmu.config m).stored x)

/-- For every buffer and all contents of the registers, the request exchanges each word
with the counter at its index. -/
def Addressed (pmu : Pmu) (q : Request) : Handler → Prop
  | .cfgRd => ∀ m buf,
      let s := (pfcCfgRd pmu q.off q.len buf).run pmu.device m
      ReadsWords pmu q (pmu.config m).stored buf s.1 ∧ s.2 = m
  | .cntRd => ∀ m buf,
      let s := (pfcCntRd pmu q.off q.len buf).run pmu.device m
      ReadsWords pmu q (fun x => m x.addr) buf s.1 ∧ s.2 = m
  | .mskRd => ∀ m buf,
      let s := (pfcMskRd pmu q.off q.len buf).run pmu.device m
      ReadsWords pmu q (fun x => x.mask pmu) buf s.1 ∧ s.2 = m
  | .cfgWr => ∀ m buf,
      let s := (pfcCfgWr pmu q.off q.len buf).run pmu.device m
      WritesWords pmu q (fun x w v => x.round pmu w v) buf s.1.1 (pmu.setting m) (pmu.setting s.2)
  | .cntWr => ∀ m buf,
      let s := (pfcCntWr pmu q.off q.len buf).run pmu.device m
      WritesWords pmu q (fun x w v => x.count pmu v w) buf s.1.1 (fun x => m x.addr)
        fun x => s.2 x.addr

/-- The words of the request are in step with the slots: it does not go on from a slot
below 3 to the general-purpose counters over slots without a counter. -/
def InStep (pmu : Pmu) (q : Request) : Prop :=
  pmu.pmcFf = phPmuSysfsMaxFf ∨ pmu.pmcGp = 0 ∨ phPmuSysfsMaxFf ≤ q.first ∨
    q.first + q.words ≤ phPmuSysfsMaxFf

instance (pmu : Pmu) (q : Request) : Decidable (InStep pmu q) := by
  unfold InStep; infer_instance

/-! ## The counters of a request -/

/-- The numbers of fixed and of general-purpose counters of a request. -/
def Request.ff (pmu : Pmu) (q : Request) : ℕ := min (q.first + q.words) pmu.pmcFf - q.first

def Request.gp (pmu : Pmu) (q : Request) : ℕ :=
  min (q.first + q.words) (phPmuSysfsMaxFf + pmu.pmcGp) - max q.first phPmuSysfsMaxFf

theorem accessed_request (h : pmu.Unclamped) (q : Request) :
    accessed pmu q.off q.len =
      ((List.range (q.ff pmu)).map fun k => (.ff (q.first + k), k)) ++
        (List.range (q.gp pmu)).map fun k =>
          (.gp (max q.first phPmuSysfsMaxFf - phPmuSysfsMaxFf + k), q.ff pmu + k) := by
  obtain ⟨hoff, hlen, hfile⟩ := q.slots
  rw [accessed_window hoff hlen hfile, overlap_window hoff hlen hfile,
    overlap_window hoff hlen hfile, h.startFf, h.endFf, h.startGp, h.endGp, List.length_map,
    List.length_range, Nat.max_zero]
  simp only [Nat.sub_zero, Nat.zero_add]
  rfl

section Unclamped

variable (h : pmu.Unclamped) {q : Request}
include h

/-- A handler returns the bytes of the counters it walked over. -/
theorem length_accessed (q : Request) :
    (accessed pmu q.off q.len).length = q.ff pmu + q.gp pmu := by
  rw [accessed_request h, List.length_append, List.length_map, List.length_map, List.length_range,
    List.length_range]

/-- In step with the slots, the words of a request belong to the slots from its first one
on. -/
theorem accessed_inStep (hstep : InStep pmu q) :
    accessed pmu q.off q.len =
      (List.range (q.ff pmu + q.gp pmu)).map fun k => (slotCounter (q.first + k), k) := by
  have hff : pmu.pmcFf ≤ 3 := h.ff
  have hfirst : ∀ k < q.ff pmu, slotCounter (q.first + k) = .ff (q.first + k) := by
    intro k hk
    unfold Request.ff at hk
    exact if_pos (by simp only [phPmuSysfsMaxFf]; omega)
  have hsecond : ∀ k < q.gp pmu, slotCounter (q.first + (q.ff pmu + k)) =
      .gp (max q.first phPmuSysfsMaxFf - phPmuSysfsMaxFf + k) := by
    intro k hk
    unfold Request.gp at hk
    simp only [InStep, phPmuSysfsMaxFf] at hstep hk ⊢
    have hslot : q.first + (q.ff pmu + k) = max q.first 3 + k := by
      unfold Request.ff
      omega
    rw [slotCounter, hslot, phPmuSysfsMaxFf, if_neg (by omega)]
    exact congrArg Counter.gp (by omega)
  rw [accessed_request h, List.range_add, List.map_append, List.map_map]
  congr 1
  · refine List.map_congr_left fun k hk => ?_
    rw [hfirst k (List.mem_range.mp hk)]
  · refine List.map_congr_left fun k hk => ?_
    rw [Function.comp_apply, hsecond k (List.mem_range.mp hk)]

/-- In step with the slots, the words walked over are those that the request transfers. -/
theorem transfers_inStep (hstep : InStep pmu q) :
    Transfers pmu q (8 * ((accessed pmu q.off q.len).length : ℤ)) (q.ff pmu + q.gp pmu) := by
  have hff : pmu.pmcFf ≤ 3 := h.ff
  have hthree : phPmuSysfsMaxFf = 3 := rfl
  rw [length_accessed h]
  unfold InStep at hstep
  constructor
  · rfl
  · unfold Request.ff Request.gp
    omega
  · intro k hk
    have hslot : pmu.HasSlot (q.first + k) := by
      unfold Pmu.HasSlot
      unfold Request.ff Request.gp at hk
      omega
    rw [Pmu.counterAt, if_pos hslot]
    exact Option.some_ne_none _
  · by_cases hall : q.ff pmu + q.gp pmu = q.words
    · exact .inl hall
    · refine .inr (if_neg fun hslot => hall ?_)
      unfold Pmu.HasSlot at hslot
      unfold Request.ff Request.gp at hslot ⊢
      omega

/-- Out of step, a word is transferred for a slot without a counter. -/
theorem not_transfers (hstep : ¬ InStep pmu q) (cnt : ℕ) :
    ¬ Transfers pmu q (8 * ((accessed pmu q.off q.len).length : ℤ)) cnt := by
  intro htransfers
  have hff : pmu.pmcFf ≤ 3 := h.ff
  have hthree : phPmuSysfsMaxFf = 3 := rfl
  have hcnt : cnt = q.ff pmu + q.gp pmu := by
    have hret := htransfers.ret_eq
    rw [length_accessed h] at hret
    omega
  unfold InStep at hstep
  have hgap : ¬ pmu.HasSlot (q.first + q.ff pmu) := by
    unfold Pmu.HasSlot Request.ff
    omega
  refine htransfers.exported (q.ff pmu) ?_ (if_neg hgap)
  rw [hcnt]
  unfold Request.gp
  omega

omit h in
theorem eq_slotCounter {slot : ℕ} (hx : pmu.counterAt slot = some x) :
    pmu.HasSlot slot ∧ x = slotCounter slot := by
  unfold Pmu.counterAt at hx
  split at hx
  · next hslot => exact ⟨hslot, (Option.some.inj hx).symm⟩
  · cases hx

omit h in
theorem slotCounter_injective : Function.Injective slotCounter := by
  intro s t hst
  unfold slotCounter at hst
  split at hst <;> split at hst
  · exact Counter.ff.inj hst
  · cases hst
  · cases hst
  · have hsub := Counter.gp.inj hst
    omega

theorem valid_of_counterAt {slot : ℕ} (hx : pmu.counterAt slot = some x) : x.Valid pmu := by
  have hff : pmu.pmcFf ≤ 3 := h.ff
  have hthree : phPmuSysfsMaxFf = 3 := rfl
  obtain ⟨hslot, rfl⟩ := eq_slotCounter hx
  unfold Pmu.HasSlot at hslot
  unfold slotCounter
  split
  · assumption
  · simp only [Counter.Valid]
    omega

theorem valid_accessed (q : Request) : ∀ p ∈ accessed pmu q.off q.len, p.1.Valid pmu :=
  h.valid (.mskRd q.off q.len fun _ => 0)

/-! ## Reads -/

omit h in
/-- A loop that fills a buffer from the front. -/
theorem foldl_update_range (v b : ℕ → U64) (n k : ℕ) :
    (List.range n).foldl (fun b k => Function.update b k (v k)) b k =
      if k < n then v k else b k := by
  induction n with
  | zero => rfl
  | succ n ih =>
      rw [List.range_succ, List.foldl_append, List.foldl_cons, List.foldl_nil]
      by_cases hkn : k = n
      · subst hkn
        rw [Function.update_self, if_pos (Nat.lt_succ_self k)]
      · rw [Function.update_of_ne hkn, ih]
        exact if_congr (by omega) rfl rfl

/-- A handler that reads, in step with the slots. -/
theorem reads_inStep (hstep : InStep pmu q) {body : Counter → ℕ → (ℕ → U64) → Kprog (ℕ → U64)}
    {value : Counter → U64} (hbody : ∀ x j b, x.Valid pmu →
      (body x j b).run pmu.device m = (Function.update b j (value x), m)) (buf : ℕ → U64) :
    let s := (sysfsAccess pmu q.off q.len body buf).run pmu.device m
    ReadsWords pmu q value buf s.1 ∧ s.2 = m := by
  have hfold : ∀ l : List (Counter × ℕ), (∀ p ∈ l, p.1.Valid pmu) → ∀ b,
      l.foldl (walkStep pmu body) (b, m) =
        (l.foldl (fun b p => Function.update b p.2 (value p.1)) b, m) := by
    intro l
    induction l with
    | nil => intro _ b; rfl
    | cons p l ih =>
        intro hvalid b
        have hp := hbody p.1 p.2 b (hvalid p List.mem_cons_self)
        rw [List.foldl_cons, List.foldl_cons, walkStep, hp]
        exact ih (fun p hp => hvalid p (List.mem_cons_of_mem _ hp)) _
  have hbuf : ∀ k, (accessed pmu q.off q.len).foldl
      (fun b p => Function.update b p.2 (value p.1)) buf k =
        if k < q.ff pmu + q.gp pmu then value (slotCounter (q.first + k)) else buf k := by
    intro k
    rw [accessed_inStep h hstep, List.foldl_map]
    exact foldl_update_range (fun k => value (slotCounter (q.first + k))) buf _ k
  simp only [run_sysfsAccess, q.reasonable, hfold _ (valid_accessed h q), Bool.false_eq_true,
    if_false, and_true]
  refine ⟨_, transfers_inStep h hstep, ?_, ?_⟩
  · intro k hk x hx
    rw [(eq_slotCounter hx).2]
    exact (hbuf k).trans (if_pos hk)
  · intro k hk
    exact (hbuf k).trans (if_neg (Nat.not_lt.mpr hk))

/-! ## Writes -/

/-- A handler that writes, in step with the slots. -/
theorem writes_inStep (hstep : InStep pmu q) {σ ν : Type} {view : σ → Counter → ν}
    {step : σ → Counter × ℕ → σ} (store : Counter → U64 → ν → ν) (buf : ℕ → U64)
    (hlocal : LocalStep (fun x : Counter => x.Valid pmu) view (fun x j v => store x (buf j) v) step)
    (s : σ) :
    WritesWords pmu q store buf (8 * ((accessed pmu q.off q.len).length : ℤ)) (view s)
      (view ((accessed pmu q.off q.len).foldl step s)) := by
  have hvalid := valid_accessed h q
  have hnodup : ((accessed pmu q.off q.len).map Prod.fst).Nodup := nodup_accessed q.off q.len
  have hmem : ∀ p, p ∈ accessed pmu q.off q.len ↔
      ∃ k < q.ff pmu + q.gp pmu, (slotCounter (q.first + k), k) = p := by
    intro p
    rw [accessed_inStep h hstep, List.mem_map]
    simp only [List.mem_range]
  refine ⟨_, transfers_inStep h hstep, ?_, ?_⟩
  · intro k hk x hx
    have hp := (hmem (slotCounter (q.first + k), k)).mpr ⟨k, hk, rfl⟩
    rw [(eq_slotCounter hx).2]
    exact hlocal.foldl_of_mem hvalid hnodup hp
  · intro slot x hx hout
    refine hlocal.foldl_of_not_mem (valid_of_counterAt h hx) _ _ hvalid fun p hp heq => ?_
    obtain ⟨k, hk, rfl⟩ := (hmem p).mp hp
    have hslot := slotCounter_injective ((eq_slotCounter hx).2.symm.trans heq)
    omega

end Unclamped

/-! ## The handlers -/

section Bodies

variable (fits : pmu.Fits) {i : ℕ}
include fits

omit fits in
theorem run_eq_of_holds {α : Type} {p : Kprog α} {a : α}
    (h : RegProg.Holds pmu.device (fun _ => True) p m fun v t => v = a ∧ t = m) :
    p.run pmu.device m = (a, m) := Prod.ext h.run.1 h.run.2

theorem run_ffCntRdCfg : (pfcFfCntRdCfg i).run pmu.device m = ((pmu.config m).ffField i, m) :=
  run_eq_of_holds ((holds_ffCntRdCfg fits).mpr ⟨rfl, rfl⟩)

theorem run_gpCntRdCfg (hi : i < pmu.pmcGp) :
    (pfcGpCntRdCfg i).run pmu.device m = ((pmu.config m).perfevtsel i, m) :=
  run_eq_of_holds ((holds_gpCntRdCfg fits hi).mpr ⟨rfl, rfl⟩)

theorem run_ffCntRdVal (hi : i < 32) :
    (pfcFfCntRdVal i).run pmu.device m = (m (msrFixedCtr0 + i), m) :=
  run_eq_of_holds ((holds_rdmsr (not_isValue_fixedCtr fits hi)).mpr ⟨rfl, rfl⟩)

omit fits in
theorem run_gpCntRdVal (fits : pmu.Fits) (hi : i < pmu.pmcGp) :
    (pfcGpCntRdVal i).run pmu.device m = (m (msrPerfctr0 + i), m) := by
  have hgp : pmu.pmcGp ≤ 25 := fits.gp
  have hread : pmu.device.read m (msrPerfctr0 + i) = m (msrPerfctr0 + i) := by
    apply if_neg
    simp only [msrAPmc0, msrPerfctr0]
    omega
  exact run_eq_of_holds ⟨hread, rfl⟩

end Bodies

/-- A handler on a request, in step or not, counts the words it walked over. -/
theorem ret_sysfsAccess {β : Type} {body : Counter → ℕ → β → Kprog β} {b : β} (q : Request) :
    ((sysfsAccess pmu q.off q.len body b).run pmu.device m).1.1 =
      8 * ((accessed pmu q.off q.len).length : ℤ) := by
  rw [run_sysfsAccess, q.reasonable]
  rfl

/-- A request that is in step with the slots addresses the counters by them. -/
theorem addressed_of_inStep (h : pmu.Unclamped) {q : Request} (hstep : InStep pmu q)
    (op : Handler) : Addressed pmu q op := by
  have fits := h.fits
  cases op with
  | cfgRd =>
      intro m buf
      refine reads_inStep h hstep (fun x j b hx => ?_) buf
      cases x with
      | ff i => rw [RegProg.run_bind, run_ffCntRdCfg fits]; rfl
      | gp i => rw [RegProg.run_bind, run_gpCntRdCfg fits hx]; rfl
  | cntRd =>
      intro m buf
      refine reads_inStep h hstep (fun x j b hx => ?_) buf
      cases x with
      | ff i =>
          have hi : i < 32 := Nat.lt_of_lt_of_le hx (by decide)
          rw [RegProg.run_bind, run_ffCntRdVal fits hi]
          rfl
      | gp i => rw [RegProg.run_bind, run_gpCntRdVal fits hx]; rfl
  | mskRd =>
      intro m buf
      refine reads_inStep h hstep (fun x j b _ => ?_) buf
      cases x <;> rfl
  | cfgWr =>
      intro m buf
      have hholds := (walks_cfgWr fits kept_true buf).holds_access (m := m) (b := ()) trivial
        (valid_accessed h q)
      have hwords := writes_inStep h hstep (fun x w v => x.round pmu w v) buf
        (localStep_reconfigure fits buf) (pmu.config m)
      rw [← hholds.run.2.1, ← ret_sysfsAccess] at hwords
      exact hwords
  | cntWr =>
      intro m buf
      have hwords := writes_inStep h hstep (fun x w v => x.count pmu v w) buf
        (localStep_cntWr fits buf) ((), m)
      have hbody : pfcCntWr pmu q.off q.len buf =
          sysfsAccess pmu q.off q.len (fun x j _ => cntWrRound pmu x (buf j)) () := rfl
      simp only [hbody, run_sysfsAccess, q.reasonable, Bool.false_eq_true, if_false]
      exact hwords

/-- What any handler returns is no count of words in the slots, if the request is out of
step with them. -/
theorem inStep_of_addressed (h : pmu.Unclamped) {q : Request} {op : Handler}
    (haddressed : Addressed pmu q op) : InStep pmu q := by
  by_contra hstep
  have hnot := not_transfers h hstep
  cases op with
  | cfgRd =>
      obtain ⟨⟨cnt, htransfers, -⟩, -⟩ := haddressed (fun _ => 0) fun _ => 0
      rw [pfcCfgRd, ret_sysfsAccess] at htransfers
      exact hnot cnt htransfers
  | cntRd =>
      obtain ⟨⟨cnt, htransfers, -⟩, -⟩ := haddressed (fun _ => 0) fun _ => 0
      rw [pfcCntRd, ret_sysfsAccess] at htransfers
      exact hnot cnt htransfers
  | mskRd =>
      obtain ⟨⟨cnt, htransfers, -⟩, -⟩ := haddressed (fun _ => 0) fun _ => 0
      rw [pfcMskRd, ret_sysfsAccess] at htransfers
      exact hnot cnt htransfers
  | cfgWr =>
      obtain ⟨cnt, htransfers, -⟩ := haddressed (fun _ => 0) fun _ => 0
      rw [pfcCfgWr, ret_sysfsAccess] at htransfers
      exact hnot cnt htransfers
  | cntWr =>
      obtain ⟨cnt, htransfers, -⟩ := haddressed (fun _ => 0) fun _ => 0
      rw [pfcCntWr, ret_sysfsAccess] at htransfers
      exact hnot cnt htransfers

/-- **A request addresses the counters by their slots exactly when it is in step with
them.** -/
theorem addressed_iff (hreport : phPmuInitCpuid r = some pmu)
    (hsum : pmu.pmcEndFf + (pmu.pmcEndGp - pmu.pmcStartGp) ≤ maxpmc) (q : Request) (op : Handler) :
    Addressed pmu q op ↔ InStep pmu q := by
  have h := phPmuInitCpuid_unclamped hreport hsum
  exact ⟨inStep_of_addressed h, fun hstep => addressed_of_inStep h hstep op⟩

/-- The first four words of a file. -/
def Request.four : Request where
  off := 0
  len := 32
  aligned := by decide
  inFile := by decide

theorem addressed_iff_quad : Addressed .quad .four .cfgWr :=
  (addressed_iff phPmuInitCpuid_quad (by decide) .four .cfgWr).mpr (by decide)

/-- The report of a core with two fixed and four general-purpose counters. -/
def CpuidReport.two : CpuidReport := { CpuidReport.quad with leafAd := 0x602 }

/-- The counters of such a core. -/
def Pmu.two : Pmu := { Pmu.quad with pmcFfHw := 2, pmcFf := 2, pmcEndFf := 2 }

/-- On a core with two fixed counters the third of four words goes to the general-purpose
counter that has slot 3, and the fourth word goes nowhere. -/
theorem words_out_of_step :
    phPmuInitCpuid .two = some .two ∧
      ((pfcCfgWr .two 0 32 fun k => 0x410100 + k).run Pmu.two.device fun _ => 0).1.1 = 24 ∧
      ((pfcCfgWr .two 0 32 fun k => 0x410100 + k).run Pmu.two.device fun _ => 0).2
        msrPerfevtsel0 = 0x410102 ∧
      ¬ Addressed .two .four .cfgWr := by
  refine ⟨by decide, by decide +kernel, by decide +kernel, fun haddressed => ?_⟩
  obtain ⟨cnt, htransfers, -⟩ := haddressed (fun _ => 0) fun _ => 0
  have hret : ((pfcCfgWr .two 0 32 fun _ => 0).run Pmu.two.device fun _ => 0).1.1 = 24 := by
    decide +kernel
  have hcnt : (24 : ℤ) = 8 * cnt := hret.symm.trans htransfers.ret_eq
  exact htransfers.exported 2 (by omega) (by decide)

end Kmod

end PerfHound
