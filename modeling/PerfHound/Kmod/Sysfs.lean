/-
# The sysfs files

`config`, `masks` and `counts` are arrays of 64-bit words, one for each slot: three for
the fixed counters, then the general-purpose ones. An access with an offset and a length
is clamped to the slots of either kind, in counters; the word index `j` runs on from the
first kind to the second.

All five handlers walk over the same counters with their own body, so their effect on
the configuration is a fold over the list of accessed counters.
-/

import PerfHound.Kmod.Counters

namespace PerfHound

open Lib

namespace Kmod

variable {pmu : Pmu} {m : Msrs} {inv : Config → Prop}

/-! ## Ranges -/

def pfcIsAligned (off len mask : U64) : Bool := (off ||| len) &&& mask == 0

/-- The check of an access. A `size_t` is never negative. -/
def unreasonable (off len : U64) : Bool := !pfcIsAligned off len 0x7 || off.slt 0

/-- `pfcClampRange`: the overlap's bounds, if there is an overlap. The arguments are C
`int`s, and their sum wraps. -/
def pfcClampRange (off len : U32) (rangeStart rangeEnd : ℕ) : Option (ℕ × ℕ) :=
  let stop := (off + len).toInt
  if stop ≤ rangeStart ∨ off.toInt ≥ rangeEnd ∨ len.toInt ≤ 0 then none
  else
    some (if off.toInt < rangeStart then rangeStart else off.toInt.toNat,
      if stop > rangeEnd then rangeEnd else stop.toNat)

theorem pfcClampRange_bounds {off len : U32} {rangeStart rangeEnd pmcStart pmcEnd : ℕ}
    (h : pfcClampRange off len rangeStart rangeEnd = some (pmcStart, pmcEnd)) :
    rangeStart ≤ pmcStart ∧ pmcEnd ≤ rangeEnd := by
  unfold pfcClampRange at h
  by_cases hdisjoint : (off + len).toInt ≤ rangeStart ∨ off.toInt ≥ rangeEnd ∨ len.toInt ≤ 0
  · simp only [if_pos hdisjoint, reduceCtorEq] at h
  · simp only [if_neg hdisjoint, Option.some.injEq, Prod.mk.injEq] at h
    obtain ⟨rfl, rfl⟩ := h
    constructor <;> split <;> omega

/-- A counter: fixed-function or general-purpose. -/
inductive Counter
  | ff (i : ℕ)
  | gp (i : ℕ)
  deriving DecidableEq, Repr

/-- The counters of one kind in the range, with the index of their word. -/
def overlap (counter : ℕ → Counter) (off len : U64) (rangeStart rangeEnd j : ℕ) :
    List (Counter × ℕ) :=
  match pfcClampRange ((off.sshiftRight 3).truncate 32) ((len >>> 3).truncate 32)
      rangeStart rangeEnd with
  | none => []
  | some (pmcStart, pmcEnd) =>
      (List.range (pmcEnd - pmcStart)).map fun k => (counter (pmcStart - rangeStart + k), j + k)

/-- The counters an access walks over, with the index of their word. -/
def accessed (pmu : Pmu) (off len : U64) : List (Counter × ℕ) :=
  if unreasonable off len then []
  else
    let ff := overlap .ff off len pmu.pmcStartFf pmu.pmcEndFf 0
    ff ++ overlap .gp off len pmu.pmcStartGp pmu.pmcEndGp ff.length

/-- The counters of one kind in a range are counters of that kind. -/
theorem mem_overlap {counter : ℕ → Counter} {off len : U64} {rangeStart rangeEnd j : ℕ}
    {p : Counter × ℕ} (h : p ∈ overlap counter off len rangeStart rangeEnd j) :
    ∃ i < rangeEnd - rangeStart, p.1 = counter i := by
  unfold overlap at h
  cases hclamp : pfcClampRange ((off.sshiftRight 3).truncate 32) ((len >>> 3).truncate 32)
      rangeStart rangeEnd with
  | none => simp only [hclamp, List.not_mem_nil] at h
  | some bounds =>
      obtain ⟨pmcStart, pmcEnd⟩ := bounds
      obtain ⟨hstart, hend⟩ := pfcClampRange_bounds hclamp
      simp only [hclamp, List.mem_map, List.mem_range] at h
      obtain ⟨k, hk, rfl⟩ := h
      exact ⟨_, by omega, rfl⟩

theorem mem_accessed {off len : U64} {p : Counter × ℕ} (h : p ∈ accessed pmu off len) :
    (∃ i < pmu.pmcEndFf - pmu.pmcStartFf, p.1 = .ff i) ∨
      ∃ i < pmu.pmcEndGp - pmu.pmcStartGp, p.1 = .gp i := by
  unfold accessed at h
  cases hbad : unreasonable off len with
  | true => simp only [hbad, if_true, List.not_mem_nil] at h
  | false =>
      simp only [hbad, Bool.false_eq_true, if_false, List.mem_append] at h
      exact h.imp mem_overlap mem_overlap

/-- The window of a file: `a` is the first slot of the access, and `n` their number. -/
theorem pfcClampRange_window {a n : ℕ} (h : a + n ≤ maxpmc) (rangeStart rangeEnd : ℕ) :
    pfcClampRange (BitVec.ofNat 32 a) (BitVec.ofNat 32 n) rangeStart rangeEnd =
      if a + n ≤ rangeStart ∨ a ≥ rangeEnd ∨ n ≤ 0 then none
      else some (if a < rangeStart then rangeStart else a,
        if a + n > rangeEnd then rangeEnd else a + n) := by
  have hint : ∀ x ≤ 25, (BitVec.ofNat 32 x).toInt = x := by
    intro x hx
    have hnat : (BitVec.ofNat 32 x).toNat = x := by
      rw [BitVec.toNat_ofNat, Nat.mod_eq_of_lt (by omega)]
    rw [BitVec.toInt_eq_toNat_of_lt (by omega), hnat]
  have hmax : a + n ≤ 25 := h
  unfold pfcClampRange
  rw [← BitVec.ofNat_add, hint a (by omega), hint n (by omega), hint (a + n) hmax]
  simp only [Int.toNat_natCast]
  norm_cast

/-- In the window of a file, an access of `n` words from slot `a` on walks over the
counters that have these slots. -/
theorem overlap_window {off len : U64} {a n : ℕ} (hoff : off.toNat = 8 * a)
    (hlen : len.toNat = 8 * n) (h : a + n ≤ maxpmc) (counter : ℕ → Counter)
    (rangeStart rangeEnd j : ℕ) :
    overlap counter off len rangeStart rangeEnd j =
      (List.range (min (a + n) rangeEnd - max a rangeStart)).map fun k =>
        (counter (max a rangeStart - rangeStart + k), j + k) := by
  have hmax : a + n ≤ 25 := h
  have hmsb : off.msb = false := BitVec.msb_eq_false_iff_two_mul_lt.mpr (by omega)
  have hstart : (off.sshiftRight 3).truncate 32 = BitVec.ofNat 32 a := by
    rw [BitVec.sshiftRight_eq_of_msb_false hmsb]
    apply BitVec.eq_of_toNat_eq
    rw [BitVec.truncate_eq_setWidth, BitVec.toNat_setWidth, BitVec.toNat_ushiftRight,
      BitVec.toNat_ofNat, Nat.shiftRight_eq_div_pow, hoff]
    omega
  have hcount : (len >>> 3).truncate 32 = BitVec.ofNat 32 n := by
    apply BitVec.eq_of_toNat_eq
    rw [BitVec.truncate_eq_setWidth, BitVec.toNat_setWidth, BitVec.toNat_ushiftRight,
      BitVec.toNat_ofNat, Nat.shiftRight_eq_div_pow, hlen]
    omega
  rw [overlap, hstart, hcount, pfcClampRange_window h]
  by_cases hdisjoint : a + n ≤ rangeStart ∨ a ≥ rangeEnd ∨ n ≤ 0
  · have hzero : min (a + n) rangeEnd - max a rangeStart = 0 := by omega
    rw [if_pos hdisjoint, hzero]
    rfl
  · have hmin : (if a + n > rangeEnd then rangeEnd else a + n) = min (a + n) rangeEnd := by
      split <;> omega
    have hmaxStart : (if a < rangeStart then rangeStart else a) = max a rangeStart := by
      split <;> omega
    rw [if_neg hdisjoint, hmin, hmaxStart]

theorem reasonable_window {off len : U64} {a n : ℕ} (hoff : off.toNat = 8 * a)
    (hlen : len.toNat = 8 * n) (h : a + n ≤ maxpmc) : unreasonable off len = false := by
  have hmax : a + n ≤ 25 := h
  have hlow : ∀ (v : U64) b, v.toNat = 8 * b → ∀ j < 3, v.getLsbD j = false := by
    intro v b hv j hj
    have hbit := Nat.testBit_two_pow_mul (i := 3) (a := b) (j := j)
    rw [BitVec.getLsbD, hv]
    simpa [Nat.not_le.mpr hj] using hbit
  have haligned : (off ||| len) &&& 0x7 = 0 := by
    apply BitVec.eq_of_getLsbD_eq
    intro j _
    rw [ov_three, getLsbD_low (by decide), BitVec.getLsbD_or]
    by_cases hj : j < 3
    · rw [hlow off a hoff j hj, hlow len n hlen j hj]
      simp
    · simp [hj]
  have hmsb : off.msb = false := BitVec.msb_eq_false_iff_two_mul_lt.mpr (by omega)
  have hsign : off.slt 0 = off.msb := BitVec.slt_zero_eq_msb
  rw [unreasonable, pfcIsAligned, haligned, hsign, hmsb]
  rfl

/-- A reasonable access starts and ends at a slot. -/
theorem slots_of_reasonable {off len : U64} (h : unreasonable off len = false) :
    (∃ a, off.toNat = 8 * a) ∧ ∃ n, len.toNat = 8 * n := by
  simp only [unreasonable, Bool.or_eq_false_iff, Bool.not_eq_false', pfcIsAligned,
    beq_iff_eq] at h
  have hmultiple : ∀ v : U64, v &&& 0x7 = 0 → ∃ a, v.toNat = 8 * a := by
    intro v hv
    have hmod : v.toNat % 2 ^ 3 = 0 := by
      rw [← Nat.and_two_pow_sub_one_eq_mod]
      exact congrArg BitVec.toNat hv
    exact ⟨v.toNat / 8, by omega⟩
  have hzero := h.1
  rw [BitVec.and_or_distrib_right] at hzero
  obtain ⟨hoff, hlen⟩ := BitVec.or_eq_zero_iff.mp hzero
  exact ⟨hmultiple off hoff, hmultiple len hlen⟩

theorem accessed_window {off len : U64} {a n : ℕ} (hoff : off.toNat = 8 * a)
    (hlen : len.toNat = 8 * n) (h : a + n ≤ maxpmc) :
    accessed pmu off len =
      overlap .ff off len pmu.pmcStartFf pmu.pmcEndFf 0 ++
        overlap .gp off len pmu.pmcStartGp pmu.pmcEndGp
          (overlap .ff off len pmu.pmcStartFf pmu.pmcEndFf 0).length := by
  rw [accessed, reasonable_window hoff hlen h]
  rfl

/-! ## Handlers -/

/-- The loop of a handler over one kind of counters, from word `j` on. -/
def overCounters {β : Type} (body : Counter → ℕ → β → Kprog β) (counter : ℕ → Counter)
    (off len : U64) (rangeStart rangeEnd j : ℕ) (buf : β) : Kprog (ℕ × β) :=
  match pfcClampRange ((off.sshiftRight 3).truncate 32) ((len >>> 3).truncate 32)
      rangeStart rangeEnd with
  | none => pure (j, buf)
  | some (pmcStart, pmcEnd) => do
      let buf ← RegProg.loop (fun i => body (counter i)) (pmcEnd - pmcStart)
        (pmcStart - rangeStart) j buf
      pure (j + (pmcEnd - pmcStart), buf)

/-- A handler: the number of bytes accessed or `-1`, and what the body makes of `buf`. -/
def sysfsAccess {β : Type} (pmu : Pmu) (off len : U64) (body : Counter → ℕ → β → Kprog β)
    (buf : β) : Kprog (ℤ × β) :=
  if unreasonable off len then pure (-1, buf)
  else do
    let (j, buf) ← overCounters body .ff off len pmu.pmcStartFf pmu.pmcEndFf 0 buf
    let (j, buf) ← overCounters body .gp off len pmu.pmcStartGp pmu.pmcEndGp j buf
    pure (8 * j, buf)

/-- Counter `x` after its round in `pfcCfgWr` with word `c`. -/
def cfgWrRound (pmu : Pmu) (x : Counter) (c : U64) : Kprog Unit :=
  match x with
  | .ff i => do
      pfcFfCntWrEnb pmu i 0
      pfcFfCntWrCfg pmu i c
      let cfg ← pfcFfCntRdCfg i
      if cfg &&& 0x2 != 0 then pfcFfCntWrEnb pmu i 1
  | .gp i => do
      pfcGpCntWrEnb pmu i 0
      pfcGpCntWrCfg pmu i c
      let cfg ← pfcGpCntRdCfg i
      if cfg &&& 0x00400000 != 0 then pfcGpCntWrEnb pmu i 1

def pfcCfgWr (pmu : Pmu) (off len : U64) (buf : ℕ → U64) : Kprog (ℤ × Unit) :=
  sysfsAccess pmu off len (fun x j _ => cfgWrRound pmu x (buf j)) ()

def pfcCntWr (pmu : Pmu) (off len : U64) (buf : ℕ → U64) : Kprog (ℤ × Unit) :=
  sysfsAccess pmu off len (fun x j _ =>
    match x with
    | .ff i => pfcFfCntWrVal pmu i (buf j)
    | .gp i => pfcGpCntWrVal pmu i (buf j)) ()

def pfcCfgRd (pmu : Pmu) (off len : U64) (buf : ℕ → U64) : Kprog (ℤ × (ℕ → U64)) :=
  sysfsAccess pmu off len (fun x j buf =>
    match x with
    | .ff i => do
        let cfg ← pfcFfCntRdCfg i
        pure (Function.update buf j cfg)
    | .gp i => do
        let cfg ← pfcGpCntRdCfg i
        pure (Function.update buf j cfg)) buf

def pfcCntRd (pmu : Pmu) (off len : U64) (buf : ℕ → U64) : Kprog (ℤ × (ℕ → U64)) :=
  sysfsAccess pmu off len (fun x j buf =>
    match x with
    | .ff i => do
        let v ← pfcFfCntRdVal i
        pure (Function.update buf j v)
    | .gp i => do
        let v ← pfcGpCntRdVal i
        pure (Function.update buf j v)) buf

def pfcMskRd (pmu : Pmu) (off len : U64) (buf : ℕ → U64) : Kprog (ℤ × (ℕ → U64)) :=
  sysfsAccess pmu off len (fun x j buf =>
    match x with
    | .ff _ => pure (Function.update buf j pmu.pmcFfMask)
    | .gp _ => pure (Function.update buf j pmu.pmcGpMask)) buf

/-! ## An access is a fold -/

/-- The counters that have a slot and, if general-purpose, a selection register. -/
def Counter.Valid (pmu : Pmu) : Counter → Prop
  | .ff i => i < phPmuSysfsMaxFf
  | .gp i => i < pmu.pmcGp

/-- A body that, at a valid counter, changes the configuration by `upd`. -/
def Walks {β : Type} (pmu : Pmu) (inv : Config → Prop) (body : Counter → ℕ → β → Kprog β)
    (upd : Config → Counter × ℕ → Config) : Prop :=
  ∀ x j b t, x.Valid pmu → inv (pmu.config t) →
    RegProg.Holds pmu.device (fun u => inv (pmu.config u)) (body x j b) t fun _ u =>
      pmu.config u = upd (pmu.config t) (x, j) ∧ inv (pmu.config u)

section Walks

variable {β : Type} {body : Counter → ℕ → β → Kprog β} {upd : Config → Counter × ℕ → Config}
  {off len : U64}

theorem Walks.holds_over (h : Walks pmu inv body upd) {counter : ℕ → Counter}
    {rangeStart rangeEnd j : ℕ} {buf : β} (hinv : inv (pmu.config m))
    (hvalid : ∀ p ∈ overlap counter off len rangeStart rangeEnd j, p.1.Valid pmu) :
    RegProg.Holds pmu.device (fun u => inv (pmu.config u))
      (overCounters body counter off len rangeStart rangeEnd j buf) m fun r u =>
        r.1 = j + (overlap counter off len rangeStart rangeEnd j).length ∧
          pmu.config u =
            (overlap counter off len rangeStart rangeEnd j).foldl upd (pmu.config m) ∧
          inv (pmu.config u) := by
  unfold overCounters
  unfold overlap at hvalid ⊢
  cases hclamp : pfcClampRange ((off.sshiftRight 3).truncate 32) ((len >>> 3).truncate 32)
      rangeStart rangeEnd with
  | none => exact ⟨rfl, rfl, hinv⟩
  | some bounds =>
      obtain ⟨pmcStart, pmcEnd⟩ := bounds
      simp only [hclamp] at hvalid ⊢
      refine RegProg.Holds.bind (RegProg.holds_loop (fun k _ t =>
        pmu.config t = ((List.range k).map fun k =>
          (counter (pmcStart - rangeStart + k), j + k)).foldl upd (pmu.config m) ∧
            inv (pmu.config t)) ⟨rfl, hinv⟩ fun k hk b t ht => ?_) fun b u hu => ?_
      · have hmem : (counter (pmcStart - rangeStart + k)).Valid pmu :=
          hvalid (counter (pmcStart - rangeStart + k), j + k)
            (List.mem_map.mpr ⟨k, List.mem_range.mpr hk, rfl⟩)
        refine (h _ _ b t hmem ht.2).mono fun _ u hu => ⟨?_, hu.2⟩
        rw [hu.1, ht.1, List.range_succ, List.map_append, List.foldl_append]
        rfl
      · refine ⟨?_, hu.1, hu.2⟩
        rw [List.length_map, List.length_range]

/-- The rule of the handlers. -/
theorem Walks.holds_access (h : Walks pmu inv body upd) {b : β} (hinv : inv (pmu.config m))
    (hvalid : ∀ p ∈ accessed pmu off len, p.1.Valid pmu) :
    RegProg.Holds pmu.device (fun u => inv (pmu.config u)) (sysfsAccess pmu off len body b) m
      fun r u =>
        r.1 = (if unreasonable off len then (-1 : ℤ) else 8 * (accessed pmu off len).length) ∧
        pmu.config u = (accessed pmu off len).foldl upd (pmu.config m) ∧
        inv (pmu.config u) := by
  unfold sysfsAccess
  unfold accessed at hvalid ⊢
  cases hbad : unreasonable off len with
  | true => exact ⟨rfl, rfl, hinv⟩
  | false =>
      simp only [hbad, Bool.false_eq_true, if_false] at hvalid ⊢
      refine RegProg.Holds.bind (h.holds_over hinv fun p hp =>
        hvalid p (List.mem_append_left _ hp)) fun r t ht => ?_
      obtain ⟨hj, hconfig, ht⟩ := ht
      rw [Nat.zero_add] at hj
      simp only [hj]
      refine RegProg.Holds.bind (h.holds_over ht fun p hp =>
        hvalid p (List.mem_append_right _ hp)) fun r' u hu => ?_
      obtain ⟨hj', hconfig', hu⟩ := hu
      refine ⟨?_, ?_, hu⟩
      · simp only [hj', List.length_append]
      · rw [hconfig', hconfig, List.foldl_append]

end Walks

/-! ## What the bodies do -/

/-- The bit of a counter in `IA32_PERF_GLOBAL_CTRL`. -/
def Counter.bit : Counter → ℕ
  | .ff i => 32 + i
  | .gp i => i

/-- The configuration with word `w` written to a counter. -/
def Config.write (pmu : Pmu) (c : Config) (x : Counter) (w : U64) : Config :=
  match x with
  | .ff i => c.wrFf pmu i w
  | .gp i => c.wrGp i w

/-- The write handler's test: the stored configuration of a counter requests counting. -/
def Config.requests (c : Config) : Counter → Bool
  | .ff i => c.ffRequests i
  | .gp i => c.gpRequests i

/-- The configuration after a round of `pfcCfgWr`. -/
def Config.reconfigure (pmu : Pmu) (c : Config) (x : Counter) (w : U64) : Config :=
  if (c.write pmu x w).requests x then (c.write pmu x w).enable pmu x.bit 1 else c.write pmu x w

/-- An invariant that the helpers keep. -/
structure Kept (pmu : Pmu) (inv : Config → Prop) : Prop where
  enable : ∀ c b, inv c → inv (c.enable pmu b 1)
  write : ∀ c x w, x.Valid pmu → inv c → inv (c.write pmu x w)

theorem kept_true : Kept pmu fun _ => True := ⟨fun _ _ _ => trivial, fun _ _ _ _ _ => trivial⟩

section Fits

variable (fits : pmu.Fits)
include fits

theorem sets_cfgWrRound (kept : Kept pmu inv) {x : Counter} (hx : x.Valid pmu) {w : U64}
    (hinv : inv (pmu.config m)) :
    pmu.Sets inv m (cfgWrRound pmu x w) ((pmu.config m).reconfigure pmu x w) := by
  have hwritten := kept.write (pmu.config m) x w hx hinv
  have henabled := kept.enable _ x.bit hwritten
  unfold Config.reconfigure
  cases x with
  | ff i =>
      refine Pmu.Sets.bind (sets_ffCntWrEnb fits (by rwa [Config.enable_zero])) fun t ht => ?_
      rw [Config.enable_zero] at ht
      rw [← ht] at hwritten henabled ⊢
      refine Pmu.Sets.bind (sets_ffCntWrCfg fits hwritten) fun u hu => ?_
      refine RegProg.holds_bind.mpr ((holds_ffCntRdCfg fits).mpr ?_)
      have hstored : (pmu.config t).write pmu (.ff i) w = pmu.config u := hu.symm
      rw [hstored] at henabled ⊢
      refine Pmu.Sets.ite ((pmu.config u).requests (.ff i)) (fun htest => ?_) fun htest => ?_
      · rw [if_pos htest]
        exact sets_ffCntWrEnb fits henabled
      · rw [if_neg (Bool.eq_false_iff.mp htest)]
        exact Pmu.sets_pure
  | gp i =>
      refine Pmu.Sets.bind (sets_gpCntWrEnb fits (by rwa [Config.enable_zero])) fun t ht => ?_
      rw [Config.enable_zero] at ht
      rw [← ht] at hwritten henabled ⊢
      refine Pmu.Sets.bind (sets_gpCntWrCfg fits hx hwritten) fun u hu => ?_
      refine RegProg.holds_bind.mpr ((holds_gpCntRdCfg fits hx).mpr ?_)
      have hstored : (pmu.config t).write pmu (.gp i) w = pmu.config u := hu.symm
      rw [hstored] at henabled ⊢
      refine Pmu.Sets.ite ((pmu.config u).requests (.gp i)) (fun htest => ?_) fun htest => ?_
      · rw [if_pos htest]
        exact sets_gpCntWrEnb fits henabled
      · rw [if_neg (Bool.eq_false_iff.mp htest)]
        exact Pmu.sets_pure

theorem walks_cfgWr (kept : Kept pmu inv) (buf : ℕ → U64) :
    Walks pmu inv (fun x j (_ : Unit) => cfgWrRound pmu x (buf j))
      fun c p => c.reconfigure pmu p.1 (buf p.2) := by
  intro x j _ t hx hinv
  have hkept : inv ((pmu.config t).reconfigure pmu x (buf j)) := by
    have hwritten := kept.write _ x (buf j) hx hinv
    unfold Config.reconfigure
    split
    · exact kept.enable _ _ hwritten
    · exact hwritten
  refine (sets_cfgWrRound fits kept hx hinv).mono fun _ u hu => ⟨hu, ?_⟩
  rw [hu]
  exact hkept

/-- Writing counts leaves the configuration. -/
theorem walks_cntWr (buf : ℕ → U64) :
    Walks pmu inv (fun x j (_ : Unit) =>
      match x with
      | .ff i => pfcFfCntWrVal pmu i (buf j)
      | .gp i => pfcGpCntWrVal pmu i (buf j)) fun c _ => c := by
  intro x j _ t hx hinv
  cases x with
  | ff i =>
      have hi : i < 32 := Nat.lt_of_lt_of_le hx (by decide)
      exact (sets_ffCntWrVal fits hi hinv).mono fun _ u hu => ⟨hu, hu ▸ hinv⟩
  | gp i => exact (sets_gpCntWrVal fits hx hinv).mono fun _ u hu => ⟨hu, hu ▸ hinv⟩

end Fits

/-- A body that only reads leaves the configuration. -/
theorem walks_of_readOnly {β : Type} {body : Counter → ℕ → β → Kprog β}
    (h : ∀ x j b, (body x j b).ReadOnly) : Walks pmu inv body fun c _ => c := by
  intro x j b t _ hinv
  refine ((h x j b).holds t).mono fun _ u hu => ?_
  subst hu
  exact ⟨rfl, hinv⟩

/-! ## The accesses of user programs -/

/-- An access to one of the files, with its offset, length and buffer. -/
inductive Access
  | cfgWr (off len : U64) (buf : ℕ → U64)
  | cntWr (off len : U64) (buf : ℕ → U64)
  | cfgRd (off len : U64) (buf : ℕ → U64)
  | cntRd (off len : U64) (buf : ℕ → U64)
  | mskRd (off len : U64) (buf : ℕ → U64)

/-- The offset and the length of an access. -/
def Access.range : Access → U64 × U64
  | .cfgWr off len _ | .cntWr off len _ | .cfgRd off len _ | .cntRd off len _
  | .mskRd off len _ => (off, len)

def Access.handler (pmu : Pmu) : Access → Kprog Unit
  | .cfgWr off len buf => do let _ ← pfcCfgWr pmu off len buf
  | .cntWr off len buf => do let _ ← pfcCntWr pmu off len buf
  | .cfgRd off len buf => do let _ ← pfcCfgRd pmu off len buf
  | .cntRd off len buf => do let _ ← pfcCntRd pmu off len buf
  | .mskRd off len buf => do let _ ← pfcMskRd pmu off len buf

/-- The counters in range of an access exist. -/
def Access.Valid (pmu : Pmu) (a : Access) : Prop :=
  ∀ p ∈ accessed pmu a.range.1 a.range.2, p.1.Valid pmu

/-- The handlers one after the other. -/
def session (pmu : Pmu) : List Access → Kprog Unit
  | [] => pure ()
  | a :: rest => do
      a.handler pmu
      session pmu rest

/-- A handler, whatever it returns, keeps what its body keeps. -/
theorem Walks.keeps {β : Type} {body : Counter → ℕ → β → Kprog β}
    {upd : Config → Counter × ℕ → Config} (h : Walks pmu inv body upd) {off len : U64} {buf : β}
    (hinv : inv (pmu.config m)) (hvalid : ∀ p ∈ accessed pmu off len, p.1.Valid pmu) :
    RegProg.Holds pmu.device (fun u => inv (pmu.config u))
      (do let _ ← sysfsAccess pmu off len body buf) m fun _ u => inv (pmu.config u) :=
  RegProg.Holds.bind (h.holds_access hinv hvalid) fun _ _ ht => ht.2.2

/-- The helpers' invariants are kept by every access. -/
theorem Kept.handler (fits : pmu.Fits) (kept : Kept pmu inv) {a : Access} (ha : a.Valid pmu)
    (hinv : inv (pmu.config m)) :
    RegProg.Holds pmu.device (fun u => inv (pmu.config u)) (a.handler pmu) m
      fun _ u => inv (pmu.config u) := by
  cases a with
  | cfgWr off len buf => exact (walks_cfgWr fits kept buf).keeps hinv ha
  | cntWr off len buf => exact (walks_cntWr fits buf).keeps hinv ha
  | cfgRd off len buf =>
      refine (walks_of_readOnly fun x j b => ?_).keeps hinv ha
      cases x <;> exact fun _ => trivial
  | cntRd off len buf =>
      refine (walks_of_readOnly fun x j b => ?_).keeps hinv ha
      cases x <;> exact fun _ => trivial
  | mskRd off len buf =>
      refine (walks_of_readOnly fun x j b => ?_).keeps hinv ha
      cases x <;> trivial

/-- ... and by every session. -/
theorem Kept.session (fits : pmu.Fits) (kept : Kept pmu inv) {accesses : List Access} :
    ∀ {m : Msrs}, (∀ a ∈ accesses, a.Valid pmu) → inv (pmu.config m) →
      RegProg.Holds pmu.device (fun u => inv (pmu.config u)) (session pmu accesses) m
        fun _ u => inv (pmu.config u) := by
  induction accesses with
  | nil => intro m _ hinv; exact hinv
  | cons a rest ih =>
      intro m hvalid hinv
      have hfirst := kept.handler fits (hvalid a List.mem_cons_self) hinv
      refine RegProg.Holds.bind hfirst fun _ t ht => ?_
      exact ih (fun b hb => hvalid b (List.mem_cons_of_mem _ hb)) ht

end Kmod

end PerfHound
