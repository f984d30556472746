/-
# The files as a store

What the three files are for can be said without registers: every exported counter has one
cell with its enable bit, the word that says what it counts and its value. A write to
`config` stores words in the cells it covers and starts counters but never stops one, a write
to `counts` replaces values, a read shows what the cells hold, and a request returns the bytes
of the counters it covers. Between two requests counting changes the values.

On requests that are in step with the slots the module is this store: whatever the session,
it answers as the store does. What a session has left in a cell can then be told from the
words written to its slot alone.
-/

import PerfHound.Kmod.Enable
import PerfHound.Kmod.ReadBack
import Mathlib.Data.Nat.Count

namespace PerfHound

open Lib

namespace Kmod

variable {pmu : Pmu} {r : CpuidReport} {m : Msrs} {q : Request} {slot : ℕ} {x : Counter}

/-! ## Sessions -/

/-- A request of a client with its buffer, or the values that counting has led to. -/
inductive Event
  | request (op : Handler) (q : Request) (buf : ℕ → U64)
  | counting (values : ℕ → U64)

/-- The words of the request are in step with the slots. -/
def Event.InStep (pmu : Pmu) : Event → Prop
  | .request _ q _ => Kmod.InStep pmu q
  | .counting _ => True

/-- What the handler of a file returns and leaves in the buffer, and the registers after it.
The handlers of the writes only read the buffer. -/
def Handler.serve (pmu : Pmu) (q : Request) (buf : ℕ → U64) (m : Msrs) :
    Handler → (ℤ × (ℕ → U64)) × Msrs
  | .cfgRd => (pfcCfgRd pmu q.off q.len buf).run pmu.device m
  | .cntRd => (pfcCntRd pmu q.off q.len buf).run pmu.device m
  | .mskRd => (pfcMskRd pmu q.off q.len buf).run pmu.device m
  | .cfgWr =>
      let s := (pfcCfgWr pmu q.off q.len buf).run pmu.device m
      ((s.1.1, buf), s.2)
  | .cntWr =>
      let s := (pfcCntWr pmu q.off q.len buf).run pmu.device m
      ((s.1.1, buf), s.2)

/-- The registers once the counters have other values. -/
def counted (pmu : Pmu) (values : ℕ → U64) (m : Msrs) : Msrs := fun addr =>
  if msrFixedCtr0 ≤ addr ∧ addr < msrFixedCtr0 + pmu.pmcFf then values (addr - msrFixedCtr0)
  else if msrPerfctr0 ≤ addr ∧ addr < msrPerfctr0 + pmu.pmcGp then
    values (phPmuSysfsMaxFf + (addr - msrPerfctr0))
  else m addr

/-- The registers after an event. -/
def Event.next (pmu : Pmu) (m : Msrs) : Event → Msrs
  | .request op q buf => (op.serve pmu q buf m).2
  | .counting values => counted pmu values m

def Event.answers (pmu : Pmu) (m : Msrs) : Event → List (ℤ × (ℕ → U64))
  | .request op q buf => [(op.serve pmu q buf m).1]
  | .counting _ => []

/-- The module takes every event. -/
def eventStep (pmu : Pmu) (m : Msrs) (e : Event) : Option Msrs := some (e.next pmu m)

/-! ## The store -/

/-- A counter as the clients of the files see it. -/
structure Cell where
  enabled : Bool
  word : U64
  value : U64
  deriving DecidableEq, Repr

/-- The slots, with a cell where there is a counter. -/
abbrev Store := ℕ → Option Cell

/-- A cell after word `w` was written to its slot. A word may start a counter, and does not
stop one. -/
def Cell.write (pmu : Pmu) (x : Counter) (w : U64) (v : Cell) : Handler → Cell
  | .cfgWr => { v with enabled := v.enabled || x.asks w, word := x.normalised v.word w }
  | .cntWr => { v with value := x.count pmu v.value w }
  | .cfgRd | .cntRd | .mskRd => v

/-- What a file shows of a cell, in place of `old`. -/
def Cell.read (pmu : Pmu) (x : Counter) (old : U64) (v : Cell) : Handler → U64
  | .cfgRd => v.word
  | .cntRd => v.value
  | .mskRd => x.mask pmu
  | .cfgWr | .cntWr => old

def Store.next (pmu : Pmu) (s : Store) : Event → Store
  | .request op q buf => fun slot => (s slot).map fun v =>
      if q.Covers slot then v.write pmu (slotCounter slot) (buf (slot - q.first)) op else v
  | .counting values => fun slot => (s slot).map fun v => { v with value := values slot }

/-- What the store answers: the bytes of the cells that the request covers, and in the words
of the buffer what they show. -/
def Store.answers (pmu : Pmu) (s : Store) : Event → List (ℤ × (ℕ → U64))
  | .request op q buf =>
      [(8 * (Nat.count (fun k => (s (q.first + k)).isSome) q.words : ℤ), fun k =>
        if k < q.words then
          (s (q.first + k)).elim (buf k) fun v =>
            v.read pmu (slotCounter (q.first + k)) (buf k) op
        else buf k)]
  | .counting _ => []

def Store.step (pmu : Pmu) (s : Store) (e : Event) : Option Store := some (s.next pmu e)

/-- The store that the registers of a CPU are. -/
def Pmu.store (pmu : Pmu) (m : Msrs) : Store := fun slot =>
  (pmu.counterAt slot).map fun x =>
    ⟨(pmu.config m).enabled x, (pmu.config m).stored x, m x.addr⟩

/-! ## The slots of a request -/

theorem isSome_store {slot : ℕ} : (pmu.store m slot).isSome = true ↔ pmu.HasSlot slot := by
  unfold Pmu.store Pmu.counterAt
  split <;> simp_all

/-- In step with the slots, a request moves the words whose slot has a counter. -/
theorem Transfers.lt_iff (h : pmu.Unclamped) (hstep : InStep pmu q) {ret : ℤ} {cnt k : ℕ}
    (htransfers : Transfers pmu q ret cnt) (hk : k < q.words) :
    k < cnt ↔ pmu.HasSlot (q.first + k) := by
  have hff : pmu.pmcFf ≤ 3 := h.ff
  have hthree : phPmuSysfsMaxFf = 3 := rfl
  constructor
  · intro hlt
    by_contra hnot
    exact htransfers.exported k hlt (if_neg hnot)
  · intro hslot
    by_contra hge
    rcases htransfers.whole with hall | hnone
    · omega
    · have hnot : ¬ pmu.HasSlot (q.first + cnt) := by
        intro hhas
        rw [Pmu.counterAt, if_pos hhas] at hnone
        cases hnone
      unfold Pmu.HasSlot at hslot hnot
      unfold InStep at hstep
      omega

/-- ... and returns their bytes. -/
theorem Transfers.ret_store (h : pmu.Unclamped) (hstep : InStep pmu q) {ret : ℤ} {cnt : ℕ}
    (htransfers : Transfers pmu q ret cnt) (m : Msrs) :
    ret = 8 * (Nat.count (fun k => (pmu.store m (q.first + k)).isSome) q.words : ℤ) := by
  have hle := htransfers.le
  have hcnt : Nat.count (fun k => (pmu.store m (q.first + k)).isSome) q.words = cnt := by
    obtain ⟨rest, hrest⟩ := Nat.exists_eq_add_of_le hle
    have hmoved : Nat.count (fun k => (pmu.store m (q.first + k)).isSome) cnt = cnt := by
      refine Nat.count_of_forall fun k hk => isSome_store.mpr ?_
      exact (htransfers.lt_iff h hstep (hk.trans_le hle)).mp hk
    have hleft : Nat.count (fun k => (pmu.store m (q.first + (cnt + k))).isSome) rest = 0 := by
      refine Nat.count_of_forall_not fun k hk hsome => ?_
      have hlt := (htransfers.lt_iff h hstep (k := cnt + k) (by omega)).mpr
        (isSome_store.mp hsome)
      omega
    rw [hrest, Nat.count_add, hmoved, hleft, Nat.add_zero]
  rw [hcnt]
  exact htransfers.ret_eq

/-- A read that shows each counter's `value`. -/
theorem ReadsWords.eq_answer (h : pmu.Unclamped) (hstep : InStep pmu q) {value : Counter → U64}
    {buf : ℕ → U64} {ret : ℤ × (ℕ → U64)} (hreads : ReadsWords pmu q value buf ret) (m : Msrs) :
    ret = (8 * (Nat.count (fun k => (pmu.store m (q.first + k)).isSome) q.words : ℤ), fun k =>
      if k < q.words then
        (pmu.store m (q.first + k)).elim (buf k) fun _ => value (slotCounter (q.first + k))
      else buf k) := by
  obtain ⟨cnt, htransfers, hinside, houtside⟩ := hreads
  refine Prod.ext (htransfers.ret_store h hstep m) (funext fun k => ?_)
  show ret.2 k = if _ then _ else _
  by_cases hk : k < q.words
  · rw [if_pos hk]
    by_cases hcnt : k < cnt
    · have hslot := (htransfers.lt_iff h hstep hk).mp hcnt
      rw [hinside k hcnt (slotCounter (q.first + k)) (if_pos hslot), Pmu.store, Pmu.counterAt,
        if_pos hslot]
      rfl
    · have hslot : ¬ pmu.HasSlot (q.first + k) := fun hslot =>
        hcnt ((htransfers.lt_iff h hstep hk).mpr hslot)
      rw [houtside k (Nat.le_of_not_lt hcnt), Pmu.store, Pmu.counterAt, if_neg hslot]
      rfl
  · have hle := htransfers.le
    rw [if_neg hk]
    exact houtside k (by omega)

/-- A write that stores words in the counters of its slots, seen from one counter. -/
theorem WritesWords.at_slot (h : pmu.Unclamped) (hstep : InStep pmu q) {ν : Type}
    {store : Counter → U64 → ν → ν} {buf : ℕ → U64} {ret : ℤ} {old new : Counter → ν}
    (hwrites : WritesWords pmu q store buf ret old new) (hx : pmu.counterAt slot = some x) :
    new x = if q.Covers slot then store x (buf (slot - q.first)) (old x) else old x := by
  obtain ⟨cnt, htransfers, hinside, houtside⟩ := hwrites
  by_cases hcovers : q.Covers slot
  · obtain ⟨hfirst, hlast⟩ := hcovers
    have hback : q.first + (slot - q.first) = slot := Nat.add_sub_cancel' hfirst
    have hcnt : slot - q.first < cnt := by
      refine (htransfers.lt_iff h hstep (by omega)).mpr ?_
      rw [hback]
      exact (eq_slotCounter hx).1
    rw [if_pos ⟨hfirst, hlast⟩]
    exact hinside (slot - q.first) hcnt x (by rwa [hback])
  · have hle := htransfers.le
    rw [if_neg hcovers]
    refine houtside slot x hx ?_
    unfold Request.Covers at hcovers
    omega

/-! ## The rules of a cell -/

theorem exports_of_counterAt (fits : pmu.Fits) (hx : pmu.counterAt slot = some x) :
    pmu.Exports x.bit := by
  obtain ⟨hslot, rfl⟩ := eq_slotCounter hx
  have hff := fits.ff
  unfold Pmu.HasSlot at hslot
  unfold slotCounter Pmu.Exports
  split <;> simp only [Counter.bit] <;> omega

/-- What the module stores for an exported counter is the normalised word. -/
theorem store_of_counterAt (hx : pmu.counterAt slot = some x) (hff : pmu.pmcFf ≤ phPmuSysfsMaxFf)
    (old w : U64) : x.store pmu old w = x.normalised old w := by
  obtain ⟨hslot, rfl⟩ := eq_slotCounter hx
  by_cases hlow : slot < phPmuSysfsMaxFf
  · have hexported : slot < pmu.pmcFf := by
      unfold Pmu.HasSlot at hslot
      omega
    rw [slotCounter, if_pos hlow]
    exact if_pos hexported
  · -- the rule of a general-purpose counter does not look at the number of fixed ones
    have hgp : phPmuSysfsMaxFf ≤ slot ∧ slot < phPmuSysfsMaxFf + pmu.pmcGp :=
      hslot.resolve_left fun hlt => hlow (hlt.trans_le hff)
    have hother : ({ pmu with pmcFf := 3 } : Pmu).counterAt slot = some (slotCounter slot) :=
      if_pos (.inr hgp)
    have hstore := Counter.store_eq hother rfl old w
    rw [slotCounter, if_neg hlow] at hstore ⊢
    exact hstore

/-- The round of an exported counter. -/
theorem round_of_counterAt (h : pmu.Unclamped) (hx : pmu.counterAt slot = some x) (w : U64)
    (v : Bool × U64) : x.round pmu w v = (v.1 || x.asks w, x.normalised v.2 w) := by
  have hexports := exports_of_counterAt h.fits hx
  have htest := Counter.test_store h.fits (valid_of_counterAt h hx) hexports v.2 w
  rw [Counter.round, htest, store_of_counterAt hx h.ff, decide_eq_true hexports, Bool.and_true]

/-! ## Requests on the store -/

/-- What is made of the cell at a slot. -/
theorem elim_store (m : Msrs) (slot : ℕ) (old : U64) (f : Cell → U64) :
    (pmu.store m slot).elim old f =
      if pmu.HasSlot slot then
        f ⟨(pmu.config m).enabled (slotCounter slot), (pmu.config m).stored (slotCounter slot),
          m (slotCounter slot).addr⟩
      else old := by
  unfold Pmu.store Pmu.counterAt
  split <;> rfl

/-- Both sides of an equation of stores are told slot by slot. -/
theorem store_next_request {t : Msrs} (op : Handler) (buf : ℕ → U64)
    (hcell : ∀ slot x, pmu.counterAt slot = some x →
      (⟨(pmu.config t).enabled x, (pmu.config t).stored x, t x.addr⟩ : Cell) =
        let v : Cell := ⟨(pmu.config m).enabled x, (pmu.config m).stored x, m x.addr⟩
        if q.Covers slot then v.write pmu x (buf (slot - q.first)) op else v) :
    pmu.store t = (pmu.store m).next pmu (.request op q buf) := by
  funext slot
  simp only [Pmu.store, Store.next]
  cases hx : pmu.counterAt slot with
  | none => rfl
  | some x =>
      have hslotCounter := (eq_slotCounter hx).2
      subst hslotCounter
      simp only [Option.map_some, hcell slot _ hx]

section Unclamped

variable (h : pmu.Unclamped)
include h

/-- A write to `config` leaves the values of the counters, ... -/
theorem value_serve_cfgWr (q : Request) (buf : ℕ → U64) (m : Msrs)
    (hx : pmu.counterAt slot = some x) : (Handler.cfgWr.serve pmu q buf m).2 x.addr = m x.addr :=
  cfgWr_frame h.fits (valid_accessed h q) (not_isConfig_addr h.fits (valid_of_counterAt h hx))

/-- ... and one to `counts` their configuration. -/
theorem config_serve_cntWr (q : Request) (buf : ℕ → U64) (m : Msrs) :
    pmu.config (Handler.cntWr.serve pmu q buf m).2 = pmu.config m := by
  have hwalks : Walks pmu (fun _ => True) _ _ := walks_cntWr h.fits buf
  have hholds := hwalks.holds_access (m := m) (b := ()) trivial (valid_accessed h q)
  have hconfig := hholds.run.2.1
  rw [List.foldl_fixed] at hconfig
  exact hconfig

/-- What the clients of `config` and `counts` write reaches the cells it should. -/
theorem store_serve (hstep : InStep pmu q) (op : Handler) (buf : ℕ → U64) (m : Msrs) :
    pmu.store (op.serve pmu q buf m).2 = (pmu.store m).next pmu (.request op q buf) := by
  have hread : (op.serve pmu q buf m).2 = m → (∀ x w (v : Cell), v.write pmu x w op = v) →
      pmu.store (op.serve pmu q buf m).2 = (pmu.store m).next pmu (.request op q buf) := by
    intro hsame hkeeps
    rw [hsame]
    refine store_next_request op buf fun slot x _ => ?_
    simp only [hkeeps, ite_self]
  cases op with
  | cfgRd => exact hread (addressed_of_inStep h hstep .cfgRd m buf).2 fun _ _ _ => rfl
  | cntRd => exact hread (addressed_of_inStep h hstep .cntRd m buf).2 fun _ _ _ => rfl
  | mskRd => exact hread (addressed_of_inStep h hstep .mskRd m buf).2 fun _ _ _ => rfl
  | cfgWr =>
      refine store_next_request .cfgWr buf fun slot x hx => ?_
      have hsetting : pmu.setting (Handler.cfgWr.serve pmu q buf m).2 x = _ :=
        (addressed_of_inStep h hstep .cfgWr m buf).at_slot h hstep hx
      rw [round_of_counterAt h hx] at hsetting
      have henabled : (pmu.config (Handler.cfgWr.serve pmu q buf m).2).enabled x = _ :=
        congrArg Prod.fst hsetting
      have hstored : (pmu.config (Handler.cfgWr.serve pmu q buf m).2).stored x = _ :=
        congrArg Prod.snd hsetting
      rw [value_serve_cfgWr h q buf m hx, henabled, hstored]
      by_cases hcovers : q.Covers slot
      · simp only [if_pos hcovers]
        rfl
      · simp only [if_neg hcovers]
        rfl
  | cntWr =>
      refine store_next_request .cntWr buf fun slot x hx => ?_
      have hvalue : (Handler.cntWr.serve pmu q buf m).2 x.addr = _ :=
        (addressed_of_inStep h hstep .cntWr m buf).at_slot h hstep hx
      rw [config_serve_cntWr h q buf m, hvalue]
      by_cases hcovers : q.Covers slot
      · simp only [if_pos hcovers]
        rfl
      · simp only [if_neg hcovers]

omit h in
/-- The configuration is read off its own addresses. -/
theorem config_eq_of_agree {t : Msrs} (hagree : ∀ addr, pmu.IsConfig addr → t addr = m addr) :
    pmu.config t = pmu.config m := by
  rw [Config.mk.injEq]
  refine ⟨funext fun i => ?_, hagree _ (.inl rfl), hagree _ (.inr (.inl rfl))⟩
  simp only [Pmu.config]
  by_cases hi : i < pmu.pmcGp
  · rw [if_pos hi, if_pos hi]
    exact hagree _ (.inr (.inr ⟨i, hi, rfl⟩))
  · rw [if_neg hi, if_neg hi]

/-- The values of the counters are where `counted` puts them. -/
theorem counted_addr (hx : pmu.counterAt slot = some x) (values : ℕ → U64) (m : Msrs) :
    counted pmu values m x.addr = values slot := by
  have hthree : phPmuSysfsMaxFf = 3 := rfl
  have hff : pmu.pmcFf ≤ 3 := h.ff
  have hgp : pmu.pmcGp ≤ 25 := h.fits.gp
  obtain ⟨hslot, rfl⟩ := eq_slotCounter hx
  unfold Pmu.HasSlot at hslot
  by_cases hlow : slot < phPmuSysfsMaxFf
  · have hcounter : slot < pmu.pmcFf := by omega
    rw [slotCounter, if_pos hlow, Counter.addr, counted,
      if_pos ⟨Nat.le_add_right _ _, Nat.add_lt_add_left hcounter _⟩, Nat.add_sub_cancel_left]
  · have hcounter : slot - phPmuSysfsMaxFf < pmu.pmcGp := by omega
    have hnot : ¬ (msrFixedCtr0 ≤ msrPerfctr0 + (slot - phPmuSysfsMaxFf) ∧
        msrPerfctr0 + (slot - phPmuSysfsMaxFf) < msrFixedCtr0 + pmu.pmcFf) := by
      simp only [msrFixedCtr0, msrPerfctr0]
      omega
    rw [slotCounter, if_neg hlow, Counter.addr, counted, if_neg hnot,
      if_pos ⟨Nat.le_add_right _ _, Nat.add_lt_add_left hcounter _⟩, Nat.add_sub_cancel_left,
      Nat.add_sub_cancel' (Nat.le_of_not_lt hlow)]

/-- Counting changes the values only. -/
theorem store_counted (values : ℕ → U64) (m : Msrs) :
    pmu.store (counted pmu values m) = (pmu.store m).next pmu (.counting values) := by
  have hff : pmu.pmcFf ≤ 3 := h.ff
  have hconfig : pmu.config (counted pmu values m) = pmu.config m := by
    refine config_eq_of_agree fun addr haddr => ?_
    have hvalue : ¬ pmu.IsValue addr := fun hvalue => not_isConfig_of_isValue h.fits hvalue haddr
    have hfixed : ¬ (msrFixedCtr0 ≤ addr ∧ addr < msrFixedCtr0 + pmu.pmcFf) := by
      rintro ⟨hle, hlt⟩
      refine not_isConfig_fixedCtr h.fits (i := addr - msrFixedCtr0) (by omega) ?_
      rwa [Nat.add_sub_cancel' hle]
    rw [counted, if_neg hfixed, if_neg (not_or.mp hvalue).2]
  funext slot
  simp only [Pmu.store, Store.next]
  cases hx : pmu.counterAt slot with
  | none => rfl
  | some x => simp only [Option.map_some, hconfig, counted_addr h hx values m]

/-- Every event does to the registers what it does to the store. -/
theorem store_next {e : Event} (he : e.InStep pmu) (m : Msrs) :
    Store.step pmu (pmu.store m) e = (eventStep pmu m e).map pmu.store := by
  refine congrArg some ?_
  cases e with
  | request op q buf => exact (store_serve h he op buf m).symm
  | counting values => exact (store_counted h values m).symm

/-- The module answers as the store does. -/
theorem answers_store {e : Event} (he : e.InStep pmu) (m : Msrs) :
    (pmu.store m).answers pmu e = e.answers pmu m := by
  cases e with
  | counting values => rfl
  | request op q buf =>
      refine congrArg (fun a => [a]) ?_
      cases op with
      | cfgRd =>
          refine Eq.trans ?_ ((addressed_of_inStep h he .cfgRd m buf).1.eq_answer h he m).symm
          simp only [elim_store, Cell.read]
      | cntRd =>
          refine Eq.trans ?_ ((addressed_of_inStep h he .cntRd m buf).1.eq_answer h he m).symm
          simp only [elim_store, Cell.read]
      | mskRd =>
          refine Eq.trans ?_ ((addressed_of_inStep h he .mskRd m buf).1.eq_answer h he m).symm
          simp only [elim_store, Cell.read]
      | cfgWr =>
          obtain ⟨cnt, htransfers, -⟩ := addressed_of_inStep h he .cfgWr m buf
          simp only [elim_store, Cell.read, ite_self, ← htransfers.ret_store h he m]
          rfl
      | cntWr =>
          obtain ⟨cnt, htransfers, -⟩ := addressed_of_inStep h he .cntWr m buf
          simp only [elim_store, Cell.read, ite_self, ← htransfers.ret_store h he m]
          rfl

end Unclamped

/-- **On requests in step with the slots the module is the store.** Whatever the registers
held before and whatever is counted in between, it gives the answers of the store, and ends
with registers that are the store's. -/
theorem session_of_store (hreport : phPmuInitCpuid r = some pmu)
    (hsum : pmu.pmcEndFf + (pmu.pmcEndGp - pmu.pmcStartGp) ≤ maxpmc) (m : Msrs)
    (events : List Event) (hstep : ∀ e ∈ events, e.InStep pmu) :
    Runs.run (Store.step pmu) (pmu.store m) events =
        (Runs.run (eventStep pmu) m events).map pmu.store ∧
      Runs.emitted (Store.step pmu) (Store.answers pmu) (pmu.store m) events =
        Runs.emitted (eventStep pmu) (fun m e => e.answers pmu m) m events := by
  have h := phPmuInitCpuid_unclamped hreport hsum
  exact Runs.run_view pmu.store (fun e => e.InStep pmu) (fun m _ he => store_next h he m)
    (fun m _ he => answers_store h he m) events m hstep

/-- A client that starts a counter, lets it count and reads it back. -/
def startAndRead : List Event :=
  [.request .cfgWr .four fun _ => 0x4100C4, .counting fun slot => 100 * slot,
    .request .cntRd .four fun _ => 7]

theorem session_of_store_quad :
    (Runs.emitted (eventStep .quad) (fun m e => e.answers .quad m) (fun _ => 0)
        startAndRead).map (fun a => (a.1, a.2 3, a.2 4)) =
      [(32, 0x4100C4, 0x4100C4), (32, 300, 7)] ∧
    Runs.emitted (Store.step .quad) (Store.answers .quad) (Pmu.quad.store fun _ => 0)
        startAndRead =
      Runs.emitted (eventStep .quad) (fun m e => e.answers .quad m) (fun _ => 0) startAndRead := by
  refine ⟨by decide +kernel, (session_of_store phPmuInitCpuid_quad (by decide) (fun _ => 0)
    startAndRead fun e he => ?_).2⟩
  simp only [startAndRead, List.mem_cons, List.not_mem_nil, or_false] at he
  rcases he with rfl | rfl | rfl
  · exact Or.inl rfl
  · trivial
  · exact Or.inl rfl

/-! ## What a session leaves -/

/-- The word an event writes to the configuration of a slot. -/
def Event.word (slot : ℕ) : Event → Option U64
  | .request .cfgWr q buf => if q.Covers slot then some (buf (slot - q.first)) else none
  | _ => none

/-- The last word written makes the one before it forgotten. -/
theorem normalised_normalised (hx : pmu.counterAt slot = some x)
    (hff : pmu.pmcFf ≤ phPmuSysfsMaxFf) (old w w' : U64) :
    x.normalised (x.normalised old w) w' = x.normalised old w' := by
  cases x with
  | ff i => rfl
  | gp i =>
      rw [← store_of_counterAt hx hff, ← store_of_counterAt hx hff, ← store_of_counterAt hx hff]
      apply BitVec.eq_of_getLsbD_eq
      intro b _
      simp only [Counter.store, getLsbD_blend_high]
      split <;> rfl

/-- One event, seen from the setting of a counter. -/
theorem setting_next (h : pmu.Unclamped) {e : Event} (he : e.InStep pmu)
    (hx : pmu.counterAt slot = some x) (m : Msrs) :
    pmu.setting (e.next pmu m) x =
      (e.word slot).elim (pmu.setting m x) fun w =>
        ((pmu.setting m x).1 || x.asks w, x.normalised (pmu.setting m x).2 w) := by
  have hnext : (pmu.store m).next pmu e = pmu.store (e.next pmu m) :=
    Option.some.inj (store_next h he m)
  have hcell := congrFun hnext slot
  have hslotCounter := (eq_slotCounter hx).2
  cases e with
  | counting values =>
      simp only [Store.next, Pmu.store, hx, Option.map_some, Option.some.injEq,
        Cell.mk.injEq] at hcell
      exact Prod.ext hcell.1.symm hcell.2.1.symm
  | request op q buf =>
      by_cases hcovers : q.Covers slot
      · simp only [Store.next, Pmu.store, hx, Option.map_some, Option.some.injEq, if_pos hcovers,
          ← hslotCounter] at hcell
        cases op <;> simp only [Cell.write, Cell.mk.injEq] at hcell <;>
          simp only [Event.word, if_pos hcovers, Option.elim_some, Option.elim_none] <;>
          exact Prod.ext hcell.1.symm hcell.2.1.symm
      · simp only [Store.next, Pmu.store, hx, Option.map_some, Option.some.injEq, if_neg hcovers,
          Cell.mk.injEq] at hcell
        cases op <;>
          simp only [Event.word, if_neg hcovers, Option.elim_none] <;>
          exact Prod.ext hcell.1.symm hcell.2.1.symm

/-- **What a session leaves of a counter can be told from the words written to its slot.** It
counts if it did before or if one of them asked for it, and the word stored is the last of
them by the rules of the module. -/
theorem setting_of_session (hreport : phPmuInitCpuid r = some pmu)
    (hsum : pmu.pmcEndFf + (pmu.pmcEndGp - pmu.pmcStartGp) ≤ maxpmc) (m : Msrs)
    (events : List Event) (hstep : ∀ e ∈ events, e.InStep pmu)
    (hx : pmu.counterAt slot = some x) :
    ∃ t, Runs.run (eventStep pmu) m events = some t ∧
      (pmu.config t).enabled x =
        ((pmu.config m).enabled x || (events.filterMap (Event.word slot)).any x.asks) ∧
      (pmu.config t).stored x =
        (events.filterMap (Event.word slot)).getLast?.elim ((pmu.config m).stored x)
          (x.normalised ((pmu.config m).stored x)) := by
  have h := phPmuInitCpuid_unclamped hreport hsum
  induction events generalizing m with
  | nil => exact ⟨m, rfl, (Bool.or_false _).symm, rfl⟩
  | cons e rest ih =>
      have he := hstep e List.mem_cons_self
      obtain ⟨t, hrun, henabled, hstored⟩ := ih (e.next pmu m) fun e' he' =>
        hstep e' (List.mem_cons_of_mem e he')
      have hsetting := setting_next h he hx m
      refine ⟨t, hrun, ?_⟩
      cases hword : e.word slot with
      | none =>
          rw [hword, Option.elim_none, Pmu.setting, Pmu.setting, Prod.mk.injEq] at hsetting
          rw [List.filterMap_cons_none hword, henabled, hstored, hsetting.1, hsetting.2]
          exact ⟨rfl, rfl⟩
      | some w =>
          rw [hword, Option.elim_some, Pmu.setting, Pmu.setting, Prod.mk.injEq] at hsetting
          rw [List.filterMap_cons_some hword, henabled, hstored, hsetting.1, hsetting.2,
            List.any_cons, Bool.or_assoc, List.getLast?_cons]
          refine ⟨rfl, ?_⟩
          cases (rest.filterMap (Event.word slot)).getLast? with
          | none => rfl
          | some w' => exact normalised_normalised hx h.ff _ w w'

/-- A counter that was started and asked to stop has the last word and still counts. -/
theorem setting_of_session_quad :
    ∃ t, Runs.run (eventStep .quad) (fun _ => 0)
        [.request .cfgWr .four fun _ => 0x4100C4, .request .cfgWr .four fun _ => 0x0100C4] =
          some t ∧
      (Pmu.quad.config t).enabled (.gp 0) = true ∧
      (Pmu.quad.config t).stored (.gp 0) = 0x0100C4 := by
  have hx : Pmu.quad.counterAt 3 = some (.gp 0) := rfl
  refine setting_of_session phPmuInitCpuid_quad (by decide) (fun _ => 0)
    [.request .cfgWr .four fun _ => 0x4100C4, .request .cfgWr .four fun _ => 0x0100C4]
    (fun e he => ?_) hx
  simp only [List.mem_cons, List.not_mem_nil, or_false] at he
  rcases he with rfl | rfl
  · exact Or.inl rfl
  · exact Or.inl rfl

end Kmod

end PerfHound
