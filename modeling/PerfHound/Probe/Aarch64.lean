/-
# Counting on aarch64

On aarch64 the probe programs the counters itself, with instructions that trap unless the
kernel module has opened user access on the core. The module starts all counters when it is
loaded, `ph_init` resets them, and the commit selects an event for each of the first twelve,
clears them and their overflow flags. No policy here refuses an event.

The commit writes twelve selections however many events there are, so it has a result only
on a core with twelve counters, or without events. Where it has one, each event is counted
from the commit on, on the counter of its row in `etag.csv`.
-/

import PerfHound.Lib.Numeral
import PerfHound.Probe.Events
import Mathlib.Algebra.GroupWithZero.Nat

namespace PerfHound

open Lib CText

namespace Aarch64

/-! ## Events -/

/-- A row of the event table. -/
structure VtAarch64Event where
  name : String
  eventCode : U32
  deriving DecidableEq, Repr

/-- `aarch64_events`, up to the row without a name that ends it. -/
def aarch64Events : List VtAarch64Event := [
  ⟨"SW_INCR", 0x0000⟩,
  ⟨"L1I_CACHE_REFILL", 0x0001⟩,
  ⟨"L1I_TLB_REFILL", 0x0002⟩,
  ⟨"L1D_CACHE_REFILL", 0x0003⟩,
  ⟨"L1D_CACHE", 0x0004⟩,
  ⟨"L1D_TLB_REFILL", 0x0005⟩,
  ⟨"LD_RETIRED", 0x0006⟩,
  ⟨"ST_RETIRED", 0x0007⟩,
  ⟨"INST_RETIRED", 0x0008⟩,
  ⟨"EXC_TAKEN", 0x0009⟩,
  ⟨"EXC_RETURN", 0x000A⟩,
  ⟨"CID_WRITE_RETIRED", 0x000B⟩,
  ⟨"PC_WRITE_RETIRED", 0x000C⟩,
  ⟨"BR_IMMED_RETIRED", 0x000D⟩,
  ⟨"BR_RETURN_RETIRED", 0x000E⟩,
  ⟨"UNALIGNED_LDST_RETIRED", 0x000F⟩,
  ⟨"BR_MIS_PRED", 0x0010⟩,
  ⟨"CPU_CYCLES", 0x0011⟩,
  ⟨"BR_PRED", 0x0012⟩,
  ⟨"MEM_ACCESS", 0x0013⟩,
  ⟨"L1I_CACHE", 0x0014⟩,
  ⟨"L1D_CACHE_WB", 0x0015⟩,
  ⟨"L2D_CACHE", 0x0016⟩,
  ⟨"L2D_CACHE_REFILL", 0x0017⟩,
  ⟨"L2D_CACHE_WB", 0x0018⟩,
  ⟨"BUS_ACCESS", 0x0019⟩,
  ⟨"MEMORY_ERROR", 0x001A⟩,
  ⟨"INST_SPEC", 0x001B⟩,
  ⟨"TTBR_WRITE_RETIRED", 0x001C⟩,
  ⟨"BUS_CYCLES", 0x001D⟩,
  ⟨"CHAIN", 0x001E⟩,
  ⟨"L1D_CACHE_ALLOCATE", 0x001F⟩,
  ⟨"L2D_CACHE_ALLOCATE", 0x0020⟩,
  ⟨"BR_RETIRED", 0x0021⟩,
  ⟨"BR_MIS_PRED_RETIRED", 0x0022⟩,
  ⟨"STALL_FRONTEND", 0x0023⟩,
  ⟨"STALL_BACKEND", 0x0024⟩,
  ⟨"L1D_TLB", 0x0025⟩,
  ⟨"L1I_TLB", 0x0026⟩,
  ⟨"L2I_CACHE", 0x0027⟩,
  ⟨"L2I_CACHE_REFILL", 0x0028⟩,
  ⟨"L3D_CACHE_ALLOCATE", 0x0029⟩,
  ⟨"L3D_CACHE_REFILL", 0x002A⟩,
  ⟨"L3D_CACHE", 0x002B⟩,
  ⟨"L3D_CACHE_WB", 0x002C⟩,
  ⟨"L2D_TLB_REFILL", 0x002D⟩,
  ⟨"L2I_TLB_REFILL", 0x002E⟩,
  ⟨"L2D_TLB", 0x002F⟩,
  ⟨"L2I_TLB", 0x0030⟩,
  ⟨"REMOTE_ACCESS", 0x0031⟩,
  ⟨"LL_CACHE", 0x0032⟩,
  ⟨"LL_CACHE_MISS", 0x0033⟩,
  ⟨"DTLB_WALK", 0x0034⟩,
  ⟨"ITLB_WALK", 0x0035⟩,
  ⟨"LL_CACHE_RD", 0x0036⟩,
  ⟨"LL_CACHE_MISS_RD", 0x0037⟩,
  ⟨"REMOTE_ACCESS_RD", 0x0038⟩]

/-- `_ph_parse_event`: the code of the row that has the name, or that of no event. -/
def phParseEvent (evstr : String) : U64 :=
  let s := cstr evstr
  match aarch64Events.find? fun e =>
      s.length == e.name.length && strncasecmp s e.name.toList e.name.length == 0 with
  | some e => e.eventCode.setWidth 64
  | none => 0xFFFFFFFF

/-- No two names are spelled the same. -/
theorem nodup_names : (aarch64Events.map fun e => e.name.toList.map tolower).Nodup := by
  decide +kernel

section Names

variable {e : VtAarch64Event} {name : String}

theorem nul_not_mem_name (he : e ∈ aarch64Events) : nul ∉ e.name.toList := by
  have hall : ∀ e ∈ aarch64Events, nul ∉ e.name.toList := by decide +kernel
  exact hall e he

/-- A row that the loop of the parser stops at has the name. -/
theorem match_iff (he : e ∈ aarch64Events) (s : List Char) :
    (s.length == e.name.length && strncasecmp s e.name.toList e.name.length == 0) = true ↔
      SameCase s e.name.toList := by
  rw [Bool.and_eq_true, beq_iff_eq, beq_iff_eq, ← String.length_toList,
    strncasecmp_eq_zero_iff (nul_not_mem_name he)]
  constructor
  · rintro ⟨hlen, hsame⟩
    rwa [List.take_of_length_le (Nat.le_of_eq hlen)] at hsame
  · intro hsame
    refine ⟨hsame.length_eq, ?_⟩
    rwa [List.take_of_length_le (Nat.le_of_eq hsame.length_eq)]

theorem phParseEvent_eq (he : e ∈ aarch64Events) (h : SameCase (cstr name) e.name.toList) :
    phParseEvent name = e.eventCode.setWidth 64 := by
  rw [phParseEvent]
  cases hfind : aarch64Events.find? fun e => (cstr name).length == e.name.length &&
      strncasecmp (cstr name) e.name.toList e.name.length == 0 with
  | none => exact absurd ((match_iff he _).mpr h) (List.find?_eq_none.mp hfind e he)
  | some e' =>
      have he' := List.mem_of_find?_eq_some hfind
      have hmatch := List.find?_some hfind
      have hsame := (match_iff he' _).mp hmatch
      have heq : e' = e := List.inj_on_of_nodup_map nodup_names he' he (hsame.symm.trans h)
      simp only [heq]

/-- The parser knows the names of the table, up to case. -/
theorem supported_iff : Events.Supported (phParseEvent name) ↔
    ∃ e ∈ aarch64Events, SameCase (cstr name) e.name.toList := by
  constructor
  · intro hknown
    cases hfind : aarch64Events.find? fun e => (cstr name).length == e.name.length &&
        strncasecmp (cstr name) e.name.toList e.name.length == 0 with
    | none =>
        have hunknown : phParseEvent name = 0xFFFFFFFF := by simp only [phParseEvent, hfind]
        rw [hunknown] at hknown
        exact absurd hknown (by decide)
    | some e =>
        have he := List.mem_of_find?_eq_some hfind
        have hmatch := List.find?_some hfind
        exact ⟨e, he, (match_iff he _).mp hmatch⟩
  · intro ⟨e, he, hsame⟩
    have hcodes : ∀ e ∈ aarch64Events, Events.Supported (e.eventCode.setWidth 64) := by
      decide +kernel
    rw [phParseEvent_eq he hsame]
    exact hcodes e he

end Names

example : phParseEvent "cpu_Cycles" = 0x11 := by decide +kernel

/-! ## The counters of a core -/

/-- What a core implements: `PMCR_EL0.N` event counters of some width, up to 31 of up to
64 bits. -/
structure Pmu where
  counters : ℕ
  width : ℕ
  counters_le : counters ≤ 31
  width_le : width ≤ 64

/-- The registers of the performance monitors of one core. The event counters and what they
count are functions of their number. -/
structure Core where
  pmuserenr : U64
  pmcr : U64
  pmcnten : U64
  pmovs : U64
  pmccntr : U64
  pmevtyper : ℕ → U64
  pmevcntr : ℕ → U64

/-- The counters there are: bit 31 is the cycle counter. -/
def Pmu.counterBits (pmu : Pmu) : U64 := BitVec.ofNat 64 (2 ^ pmu.counters - 1) ||| 0x80000000

namespace Core

/-- A write to `PMCR_EL0`. Bit 1 resets the event counters and bit 2 the cycle counter; both
read as zero, and the bits above the low byte cannot be written. -/
def msrPmcr (c : Core) (v : U64) : Core :=
  { c with
    pmcr := (c.pmcr &&& ~~~ 0xFF) ||| (v &&& 0xF9)
    pmccntr := if v.getLsbD 2 then 0 else c.pmccntr
    pmevcntr := if v.getLsbD 1 then fun _ => 0 else c.pmevcntr }

/-- A write to `PMCNTENSET_EL0` enables counters, ... -/
def msrPmcntenset (pmu : Pmu) (c : Core) (v : U64) : Core :=
  { c with pmcnten := c.pmcnten ||| (v &&& pmu.counterBits) }

/-- ... and one to `PMCNTENCLR_EL0` disables them. -/
def msrPmcntenclr (c : Core) (v : U64) : Core := { c with pmcnten := c.pmcnten &&& ~~~ v }

/-- A write to `PMOVSCLR_EL0`. -/
def msrPmovsclr (c : Core) (v : U64) : Core := { c with pmovs := c.pmovs &&& ~~~ v }

/-- A write to `PMUSERENR_EL0`. -/
def msrPmuserenr (c : Core) (v : U64) : Core := { c with pmuserenr := v &&& 0xF }

/-- A write to `PMEVTYPER<i>_EL0`. -/
def msrPmevtyper (c : Core) (i : ℕ) (v : U64) : Core :=
  { c with pmevtyper := Function.update c.pmevtyper i v }

/-- An instruction of a user program. It traps without user access. -/
def el0 {α : Type} (f : Core → α) (c : Core) : Option α :=
  if c.pmuserenr.getLsbD 0 then some (f c) else none

/-- The core counts cycles, and for each counter how often what it selects occurred. Of the
overflow flags some are raised. -/
def count (pmu : Pmu) (c : Core) (occurred : ℕ → U64 → ℕ) (cycles : ℕ) (overflows : U64) : Core :=
  { c with
    pmovs := c.pmovs ||| overflows
    pmccntr :=
      if c.pmcr.getLsbD 0 && c.pmcnten.getLsbD 31 then c.pmccntr + BitVec.ofNat 64 cycles
      else c.pmccntr
    pmevcntr := fun i =>
      if c.pmcr.getLsbD 0 && c.pmcnten.getLsbD i then
        BitVec.ofNat 64 (((c.pmevcntr i).toNat + occurred i (c.pmevtyper i)) % 2 ^ pmu.width)
      else c.pmevcntr i }

end Core

/-! ## The kernel module -/

def pmcntenAll : U64 := 0x8000ffff

def disableCounters (c : Core) : Core :=
  ((c.msrPmcntenclr pmcntenAll).msrPmcr 0).msrPmuserenr 0

/-! ## The probe -/

/-- `_ph_init_cy`. The constant is `1 << 31` as an `int`, which is extended with its sign. -/
def phInitCy (pmu : Pmu) (c : Core) : Option Core := do
  let c ← c.el0 fun c => c.msrPmcr (c.pmcr ||| 0x7)
  c.el0 fun c => c.msrPmcntenset pmu 0xFFFFFFFF80000000

/-- `_ph_set_pmreg`. The selection of a counter that is not there is undefined. -/
def phSetPmreg (pmu : Pmu) (i : ℕ) (v : U64) (c : Core) : Option Core :=
  if i < pmu.counters then c.el0 fun c => c.msrPmevtyper i v else none

def phConfigEvent (pmu : Pmu) (codeArr : ℕ → U64) (nevt : ℕ) (c : Core) : Option Core :=
  if nevt ≠ 0 then do
    let c ← (List.range 12).foldlM (fun c i => phSetPmreg pmu i (codeArr i) c) c
    let c ← c.el0 fun c => c.msrPmcr (c.pmcr ||| 0x2)
    c.el0 fun c => c.msrPmovsclr 0xFFFFFFFF
  else some c

def phReadCy (c : Core) : Option U64 := c.el0 Core.pmccntr

/-- `_ph_read_pm`. So is a read of such a counter. -/
def phReadPm (pmu : Pmu) (i : ℕ) (c : Core) : Option U64 :=
  if i < pmu.counters then c.el0 fun c => c.pmevcntr i else none

abbrev build (evMode : EvMode) : Build := ⟨evMode, .aarch64, .phasm⟩

/-- The probe's state and the core it runs on. -/
structure System (evMode : EvMode) where
  evt : Events.EvtState (build evMode)
  core : Core

/-- The words the commit takes for `ph_evcodes`. In the smaller builds the array is shorter
than the twelve words, and the others are what follows it in memory. -/
def System.codes {evMode : EvMode} (beyond : ℕ → U64) (s : System evMode) (i : ℕ) : U64 :=
  s.evt.evcodes.toList.getD i (beyond i)

/-- What `ph_read` reads of the counters: the cycles and the `ev` array of a record. -/
def System.phRead {evMode : EvMode} (pmu : Pmu) (s : System evMode) : Option (U64 × List U64) := do
  let cy ← phReadCy s.core
  let ev ← (List.range (Sampler.phRead (build evMode) s.evt.nev).nread).mapM fun i =>
    phReadPm pmu i s.core
  some (cy, ev)

/-- A call of the program, or the core counting. -/
inductive Act
  | call (c : Events.Call)
  | counting (occurred : ℕ → U64 → ℕ) (cycles : ℕ) (overflows : U64)

/-- ... how often what a counter selects occurred, ... -/
def occurrences (acts : List Act) (i : ℕ) (selected : U64) : ℕ :=
  (acts.map fun
    | .call _ => 0
    | .counting occurred _ _ => occurred i selected).sum

/-- ... and the cycles. -/
def cycles (acts : List Act) : ℕ :=
  (acts.map fun
    | .call _ => 0
    | .counting _ cycles _ => cycles).sum

/-- `ph_init` on a core. -/
def start (pmu : Pmu) (evMode : EvMode) (c : Core) : Option (System evMode) :=
  (phInitCy pmu c).map fun core => ⟨Events.init _, core⟩

/-- One step of the program or its core. Only the commit reaches the selections. -/
def step {evMode : EvMode} (pmu : Pmu) (beyond : ℕ → U64) (s : System evMode) :
    Act → Option (System evMode)
  | .call (.setEvt name) =>
      (Events.step phParseEvent .serial s.evt (.setEvt name)).map fun evt => ⟨evt, s.core⟩
  | .call .commit => do
      let core ← phConfigEvent pmu (s.codes beyond) s.evt.nev s.core
      let evt ← Events.step phParseEvent .serial s.evt .commit
      some ⟨evt, core⟩
  | .counting occurred cycles overflows =>
      some { s with core := s.core.count pmu occurred cycles overflows }

/-! ## Counters that run -/

/-- A core on which the first twelve counters run, and the program may use them. -/
structure Ready (pmu : Pmu) (c : Core) : Prop where
  user : c.pmuserenr.getLsbD 0 = true
  on : c.pmcr.getLsbD 0 = true
  /-- A written back `PMCR_EL0` does not reset the cycle counter. -/
  resets : c.pmcr.getLsbD 2 = false
  cycle : c.pmcnten.getLsbD 31 = true
  events : ∀ i < 12, i < pmu.counters → c.pmcnten.getLsbD i = true
  narrow : ∀ i, (c.pmevcntr i).toNat < 2 ^ pmu.width

section Ready

variable {pmu : Pmu} {c : Core}

theorem Ready.el0 (hc : Ready pmu c) {α : Type} (f : Core → α) : c.el0 f = some (f c) :=
  if_pos hc.user

theorem Core.msrPmcr_resets (c : Core) (v : U64) : (c.msrPmcr v).pmcr.getLsbD 2 = false := by
  have hhigh : (~~~ (0xFF : U64)).getLsbD 2 = false := by decide
  have hlow : (0xF9 : U64).getLsbD 2 = false := by decide
  rw [msrPmcr, BitVec.getLsbD_or, BitVec.getLsbD_and, BitVec.getLsbD_and, hhigh, hlow,
    Bool.and_false, Bool.and_false]
  rfl

/-- A write to `PMCR_EL0` that starts the counters leaves them running. -/
theorem Ready.msrPmcr (hc : Ready pmu c) {v : U64} (hv : v.getLsbD 0 = true) :
    Ready pmu (c.msrPmcr v) where
  user := hc.user
  on := by
    rw [Core.msrPmcr, BitVec.getLsbD_or, BitVec.getLsbD_and, BitVec.getLsbD_and, hv]
    exact Bool.or_true _
  resets := c.msrPmcr_resets v
  cycle := hc.cycle
  events := hc.events
  narrow i := by
    show ((if v.getLsbD 1 then fun _ => 0 else c.pmevcntr) i).toNat < _
    split
    · exact Nat.two_pow_pos _
    · exact hc.narrow i

/-- More counters may be enabled. -/
theorem Ready.msrPmcntenset (hc : Ready pmu c) (v : U64) : Ready pmu (c.msrPmcntenset pmu v) where
  user := hc.user
  on := hc.on
  resets := hc.resets
  cycle := by rw [Core.msrPmcntenset, BitVec.getLsbD_or, hc.cycle, Bool.true_or]
  events i hi hn := by rw [Core.msrPmcntenset, BitVec.getLsbD_or, hc.events i hi hn, Bool.true_or]
  narrow := hc.narrow

/-- ... until it is removed: the program may not read them, and they count nothing. -/
theorem disableCounters_count (pmu : Pmu) (c : Core) (occurred : ℕ → U64 → ℕ) (cycles : ℕ)
    (overflows : U64) :
    phReadCy (disableCounters c) = none ∧ (∀ i, phReadPm pmu i (disableCounters c) = none) ∧
      ((disableCounters c).count pmu occurred cycles overflows).pmccntr = c.pmccntr ∧
      ((disableCounters c).count pmu occurred cycles overflows).pmevcntr = c.pmevcntr := by
  have hoff : (disableCounters c).pmcr.getLsbD 0 = false := by
    rw [disableCounters, Core.msrPmuserenr, Core.msrPmcr, BitVec.getLsbD_or, BitVec.getLsbD_and]
    have hlow : (~~~ (0xFF : U64)).getLsbD 0 = false := by decide
    rw [hlow, Bool.and_false]
    rfl
  have huser : (disableCounters c).pmuserenr.getLsbD 0 = false :=
    congrArg (·.getLsbD 0) (BitVec.zero_and (x := (0xF : U64)))
  have htraps : ∀ {α : Type} (f : Core → α), (disableCounters c).el0 f = none := fun f =>
    if_neg (ne_true_of_eq_false huser)
  refine ⟨htraps _, fun i => ?_, ?_, ?_⟩
  · rw [phReadPm, htraps, ite_self]
  · rw [Core.count, hoff]
    rfl
  · funext i
    rw [Core.count, hoff]
    rfl

end Ready

/-! ## What is counted -/

/-- What has become of a core over some acts without a commit. -/
structure Counted (pmu : Pmu) (acts : List Act) (c c' : Core) : Prop where
  ready : Ready pmu c'
  cycle : c'.pmccntr = c.pmccntr + BitVec.ofNat 64 (cycles acts)
  selected : c'.pmevtyper = c.pmevtyper
  events : ∀ i < 12, i < pmu.counters → (c'.pmevcntr i).toNat =
    ((c.pmevcntr i).toNat + occurrences acts i (c.pmevtyper i)) % 2 ^ pmu.width

section Counted

variable {pmu : Pmu} {c c' : Core} {acts : List Act}

theorem toNat_ofNat_mod (pmu : Pmu) (k : ℕ) :
    (BitVec.ofNat 64 (k % 2 ^ pmu.width)).toNat = k % 2 ^ pmu.width := by
  rw [BitVec.toNat_ofNat]
  exact Nat.mod_eq_of_lt (lt_of_lt_of_le (Nat.mod_lt _ (Nat.two_pow_pos _))
    (Nat.pow_le_pow_right (by decide) pmu.width_le))

theorem Ready.count (hc : Ready pmu c) (occurred : ℕ → U64 → ℕ) (cycles : ℕ) (overflows : U64) :
    Ready pmu (c.count pmu occurred cycles overflows) where
  user := hc.user
  on := hc.on
  resets := hc.resets
  cycle := hc.cycle
  events := hc.events
  narrow i := by
    show (if _ then BitVec.ofNat 64 _ else c.pmevcntr i).toNat < _
    split
    · rw [toNat_ofNat_mod]
      exact Nat.mod_lt _ (Nat.two_pow_pos _)
    · exact hc.narrow i

/-- The core counts before the rest of the acts. -/
theorem Counted.counting (hc : Ready pmu c) {occurred : ℕ → U64 → ℕ} {n : ℕ} {overflows : U64}
    (h : Counted pmu acts (c.count pmu occurred n overflows) c') :
    Counted pmu (.counting occurred n overflows :: acts) c c' where
  ready := h.ready
  cycle := by
    have hone : (c.count pmu occurred n overflows).pmccntr = c.pmccntr + BitVec.ofNat 64 n := by
      rw [Core.count, hc.on, hc.cycle]
      rfl
    rw [h.cycle, hone, BitVec.add_assoc, ← BitVec.ofNat_add]
    rfl
  selected := h.selected
  events i hi hn := by
    have hone : (c.count pmu occurred n overflows).pmevcntr i =
        BitVec.ofNat 64
          (((c.pmevcntr i).toNat + occurred i (c.pmevtyper i)) % 2 ^ pmu.width) := by
      show (if c.pmcr.getLsbD 0 && c.pmcnten.getLsbD i then _ else _) = _
      rw [hc.on, hc.events i hi hn]
      rfl
    rw [h.events i hi hn, hone, toNat_ofNat_mod, Nat.mod_add_mod, Nat.add_assoc]
    rfl

/-- A call that leaves the core alone before the rest. -/
theorem Counted.call {call : Events.Call} (h : Counted pmu acts c c') :
    Counted pmu (.call call :: acts) c c' where
  ready := h.ready
  cycle := by
    rw [h.cycle, cycles, cycles, List.map_cons, List.sum_cons, Nat.zero_add]
  selected := h.selected
  events i hi hn := by
    rw [h.events i hi hn, occurrences, occurrences, List.map_cons, List.sum_cons, Nat.zero_add]

end Counted

/-! ## The commit -/

/-- The core after the first `k` selections. -/
def Core.selecting (c : Core) (codes : ℕ → U64) (k : ℕ) : Core :=
  { c with pmevtyper := fun i => if i < k then codes i else c.pmevtyper i }

section Commit

variable {pmu : Pmu} {c : Core}

theorem Ready.committed (hc : Ready pmu c) (codes : ℕ → U64) :
    Ready pmu (((c.selecting codes 12).msrPmcr (c.pmcr ||| 0x2)).msrPmovsclr 0xFFFFFFFF) := by
  have hselecting : Ready pmu (c.selecting codes 12) :=
    ⟨hc.user, hc.on, hc.resets, hc.cycle, hc.events, hc.narrow⟩
  have hon : (c.pmcr ||| 0x2).getLsbD 0 = true := by
    rw [BitVec.getLsbD_or, hc.on, Bool.true_or]
  have hcleared := hselecting.msrPmcr hon
  exact ⟨hcleared.user, hcleared.on, hcleared.resets, hcleared.cycle, hcleared.events,
    hcleared.narrow⟩

end Commit

/-! ## Counts of a run -/

/-- The columns of a record and the rows of `etag.csv`: the cycles since the start, and for
each event how often it occurred since the commit. -/
structure Shows (pmu : Pmu) {evMode : EvMode} (names : List String) (before after : List Act)
    (s : System evMode) : Prop where
  cycle : phReadCy s.core = some (BitVec.ofNat 64 (cycles before + cycles after))
  events : ∀ (i : ℕ) (hi : i < names.length), ∃ e ∈ aarch64Events,
    SameCase (cstr names[i]) e.name.toList ∧
    s.evt.etag[i]? = some ⟨i + 1, names[i], e.eventCode.setWidth 64⟩ ∧
    phReadPm pmu i s.core =
      some (BitVec.ofNat 64 (occurrences after i (e.eventCode.setWidth 64) % 2 ^ pmu.width))
  record : names ≠ [] → ∃ cy ev, s.phRead pmu = some (cy, ev) ∧ phReadCy s.core = some cy ∧
    ∀ i < (Sampler.phRead (build evMode) s.evt.nev).nread, phReadPm pmu i s.core = ev[i]?

section Run

variable {pmu : Pmu} {c : Core} {evMode : EvMode}

theorem nread_le (evMode : EvMode) (nev : ℕ) :
    (Sampler.phRead (build evMode) nev).nread ≤ 12 := by
  cases evMode with
  | ts => exact Nat.zero_le 12
  | ev => exact (by decide : 4 ≤ 12)
  | evx => exact Nat.le_refl 12

/-- The twelve counters can be read. -/
theorem Ready.phRead {s : System evMode} (hs : Ready pmu s.core) (h : 12 ≤ pmu.counters) :
    s.phRead pmu = some (s.core.pmccntr,
      (List.range (Sampler.phRead (build evMode) s.evt.nev).nread).map s.core.pmevcntr) := by
  have hreads : ∀ k ≤ 12, (List.range k).mapM (fun i => phReadPm pmu i s.core) =
      some ((List.range k).map s.core.pmevcntr) := by
    intro k hk
    induction k with
    | zero => rfl
    | succ k ih =>
        have hone : phReadPm pmu k s.core = some (s.core.pmevcntr k) := by
          rw [phReadPm, if_pos (by omega), hs.el0]
        rw [List.range_succ, List.mapM_append, ih (by omega), List.mapM_cons, hone, List.map_append]
        rfl
  rw [System.phRead, phReadCy, hs.el0, hreads _ (nread_le evMode _)]
  rfl

end Run

end Aarch64

end PerfHound
