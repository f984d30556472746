/-
# The words of the event parser

A word the parser returns is made of fields that do not overlap: each value the parser
determined can be read back from its bits, the enable flag is set, and the pin control
and interrupt bits are clear. So no word is one of the two values that stand for a string
that is not accepted, and `ph_set_evt` takes exactly the strings the parser takes.
-/

import PerfHound.Lib.BitFields
import PerfHound.Probe.Events
import PerfHound.Probe.EvtReads

namespace PerfHound

open Lib CText

namespace EvtX86

/-- What the parser determined. -/
structure Parts where
  edgeTriggered : U64
  event : PhEvent
  umaskVal : U64
  inv : U64
  cmask : U64
  modes : Modes
  deriving DecidableEq, Repr

/-- The values the parser determines on a string that it accepts. -/
def parts (s : List Char) : Option Parts :=
  if s.isEmpty then none
  else
    match parseEvent (parseEdge s).2 with
    | none => none
    | some (event, r) =>
        match parseUmask event r with
        | none => none
        | some (umaskVal, rest) =>
            some
              { edgeTriggered := (parseEdge s).1
                event
                umaskVal
                inv := (parseThreshold rest).1
                cmask := (parseThreshold rest).2.1
                modes := parseModes (parseThreshold rest).2.2 }

def Parts.word (p : Parts) : U64 :=
  cfgWord p.cmask p.inv p.edgeTriggered p.umaskVal p.event.evtNum p.modes

/-- Every value has its own bits in the word, and nothing else has. -/
structure Layout (w : U64) (p : Parts) : Prop where
  lt : w.toNat < 2 ^ 32
  enable : w.getLsbD 22 = true
  pin : w.getLsbD 19 = false
  interrupt : w.getLsbD 20 = false
  evtNum : BitField.get w 0 8 = p.event.evtNum
  umaskVal : BitField.get w 8 8 = p.umaskVal
  user : BitField.get w 16 1 = p.modes.user
  os : BitField.get w 17 1 = p.modes.os
  edgeTriggered : BitField.get w 18 1 = p.edgeTriggered
  anythread : BitField.get w 21 1 = p.modes.anythread
  inv : BitField.get w 23 1 = p.inv
  cmask : BitField.get w 24 8 = p.cmask

variable {s : List Char} {p : Parts}

/-! ## The fields of a word -/

/-- The fields of the word, from the top. -/
def Parts.fields (p : Parts) : List BitField :=
  [⟨p.cmask, 24, 8⟩, ⟨p.inv, 23, 1⟩, ⟨1, 22, 1⟩, ⟨p.modes.anythread, 21, 1⟩,
    ⟨p.edgeTriggered, 18, 1⟩, ⟨p.modes.os, 17, 1⟩, ⟨p.modes.user, 16, 1⟩, ⟨p.umaskVal, 8, 8⟩,
    ⟨p.event.evtNum, 0, 8⟩]

theorem Parts.word_eq_pack (p : Parts) : p.word = BitField.pack p.fields := cfgWord_eq_pack

/-- The parts of an accepted string have their widths. -/
def Parts.Sized (p : Parts) : Prop :=
  Widths p.cmask p.inv p.edgeTriggered p.umaskVal p.event.evtNum p.modes

theorem Parts.apart (p : Parts) : p.fields.Pairwise BitField.Apart := by
  simp only [Parts.fields, List.pairwise_cons, List.forall_mem_cons, BitField.Apart]
  simp

theorem Parts.Sized.layout (h : p.Sized) : Layout p.word p := by
  have hselects := selects_cfgWord h
  have hget : ∀ f ∈ p.fields, BitField.get p.word f.lo f.width = f.value := by
    intro f hf
    rw [p.word_eq_pack]
    exact BitField.get_pack (Widths.fits h) p.apart hf
  simp only [Parts.fields, List.forall_mem_cons] at hget
  obtain ⟨hcmask, hinv, -, hanythread, hedge, hos, huser, humask, hevt, -⟩ := hget
  exact
    { lt := BitField.toNat_lt_of_high hselects.high
      enable := hselects.enable
      pin := hselects.pin
      interrupt := hselects.interrupt
      evtNum := hevt
      umaskVal := humask
      user := huser
      os := hos
      edgeTriggered := hedge
      anythread := hanythread
      inv := hinv
      cmask := hcmask }

/-! ## The parser's words -/

theorem phPmuParseCfg_eq_parts (s : List Char) :
    phPmuParseCfg s = match parts s with
      | none => 0
      | some p => p.word := by
  unfold phPmuParseCfg parts
  split
  · rfl
  · simp only
    cases parseEvent (parseEdge s).2 with
    | none => rfl
    | some found =>
        simp only
        cases parseUmask found.1 found.2 with
        | none => rfl
        | some value => rfl

theorem sized_parts (h : parts s = some p) : p.event ∈ eventList ∧ p.Sized := by
  unfold parts at h
  split at h
  · cases h
  · cases hevent : parseEvent (parseEdge s).2 with
    | none =>
        rw [hevent] at h
        cases h
    | some found =>
        obtain ⟨e, r⟩ := found
        simp only [hevent] at h
        cases humask : parseUmask e r with
        | none =>
            rw [humask] at h
            cases h
        | some value =>
            obtain ⟨umaskVal, rest⟩ := value
            simp only [humask, Option.some.injEq] at h
            subst h
            exact ⟨(parseEvent_split hevent).1, widths_of_rest (parseEdge_le s)
              (parseUmask_umaskVal humask) (parseEvent_evtNum hevent) rest⟩

/-- A word with this layout is no sentinel. -/
theorem Layout.not_sentinel {w : U64} (h : Layout w p) : w ≠ 0 ∧ w ≠ 0xFFFFFFFF := by
  constructor
  · rintro rfl
    exact absurd h.enable (by decide)
  · rintro rfl
    exact absurd h.pin (by decide)

/-- `_ph_parse_event` keeps the two kinds of results apart. -/
theorem supported_iff (evstr : String) :
    Events.Supported (phParseEvent evstr) ↔ phPmuParseCfg (cstr evstr) ≠ 0 := by
  have hcode : phParseEvent evstr = if phPmuParseCfg (cstr evstr) = 0 then 0xFFFFFFFF
      else phPmuParseCfg (cstr evstr) := rfl
  rw [hcode]
  by_cases hzero : phPmuParseCfg (cstr evstr) = 0
  · rw [if_pos hzero]
    exact iff_of_false (by decide) (not_not.mpr hzero)
  · rw [if_neg hzero]
    refine iff_of_true ?_ hzero
    rw [phPmuParseCfg_eq_parts] at hzero ⊢
    cases hparts : parts (cstr evstr) with
    | none =>
        rw [hparts] at hzero
        exact absurd rfl hzero
    | some p =>
        have hlayout := (sized_parts hparts).2.layout
        have hlt := hlayout.lt
        have hne : p.word.toNat ≠ 0xFFFFFFFF := fun h =>
          hlayout.not_sentinel.2 (BitVec.eq_of_toNat_eq h)
        rw [Events.Supported, BitVec.le_def]
        show p.word.toNat ≤ 0xFFFFFFFE
        omega

/-- `ph_set_evt` accepts the string: it enters one more event. -/
def Accepts {b : Build} (t : Events.EvtState b) (evstr : String) : Prop :=
  ∃ u, Events.phSetEvt phParseEvent t evstr = some (0, u) ∧ u.nev = t.nev + 1

/-- Before the commit, and with a slot left, it accepts what the parser accepts. -/
theorem accepts_iff {b : Build} {t : Events.EvtState b} (hready : t.ready = false)
    (hmax : t.nev ≤ b.phNevMax) (hslot : t.nev < b.phNEV) (evstr : String) :
    Accepts t evstr ↔ phPmuParseCfg (cstr evstr) ≠ 0 := by
  have hroom : decide (t.nev > b.phNevMax) = false := decide_eq_false (Nat.not_lt.mpr hmax)
  rw [← supported_iff]
  constructor
  · rintro ⟨u, hcall, hnev⟩
    by_contra hunknown
    have hcall' : ((t.wtetag evstr).bind fun s => some (0, s)) = some (0, u) := by
      simpa [Events.phSetEvt, Events.setEvtWith, hready, hroom, hunknown] using hcall
    obtain ⟨v, hrow, heq⟩ := Option.bind_eq_some_iff.mp hcall'
    obtain rfl : v = u := (Prod.mk.inj (Option.some.inj heq)).2
    unfold Events.EvtState.wtetag at hrow
    split at hrow
    · rw [← Option.some.inj hrow] at hnev
      exact absurd hnev (Nat.succ_ne_self t.nev).symm
    · cases hrow
  · intro hknown
    obtain ⟨u, hcall, -, hnev, -⟩ :=
      (Events.setEvtWith_of_supported (s := t) hready hroom hknown).1 hslot
    exact ⟨u, hcall, hnev⟩

/-- **Words are well formed.** The parser returns on every string and reads no further
than its NUL; it returns 0, or a word in which every value it determined has its own bits
and which is none of the two sentinels; and `ph_set_evt` accepts a string exactly when the
parser does. -/
theorem words_well_formed (evstr : String) :
    (∀ fuel ≥ (cstr evstr).length,
      phPmuParseCfgAt fuel (cstr evstr) = some (phPmuParseCfg (cstr evstr))) ∧
    ((parts (cstr evstr) = none ∧ phPmuParseCfg (cstr evstr) = 0) ∨
      ∃ p, parts (cstr evstr) = some p ∧ p.event ∈ eventList ∧
        Layout (phPmuParseCfg (cstr evstr)) p ∧
        phPmuParseCfg (cstr evstr) ≠ 0 ∧ phPmuParseCfg (cstr evstr) ≠ 0xFFFFFFFF) ∧
    (Events.Supported (phParseEvent evstr) ↔ phPmuParseCfg (cstr evstr) ≠ 0) ∧
    ∀ (evMode : EvMode) (t : Events.EvtState ⟨evMode, .x86, .phasm⟩), t.ready = false →
      t.nev ≤ Build.phNevMax ⟨evMode, .x86, .phasm⟩ →
      t.nev < Build.phNEV ⟨evMode, .x86, .phasm⟩ →
      (Accepts t evstr ↔ phPmuParseCfg (cstr evstr) ≠ 0) := by
  refine ⟨?_, ?_, supported_iff evstr, ?_⟩
  · intro fuel hfuel
    exact phPmuParseCfgAt_eq (nul_not_mem_cstr evstr) hfuel
  · rw [phPmuParseCfg_eq_parts]
    cases hparts : parts (cstr evstr) with
    | none => exact .inl ⟨rfl, rfl⟩
    | some p =>
        obtain ⟨hevent, hsized⟩ := sized_parts hparts
        exact .inr ⟨p, rfl, hevent, hsized.layout, hsized.layout.not_sentinel⟩
  · intro evMode t hready hmax hslot
    exact accepts_iff hready hmax hslot evstr

end EvtX86

end PerfHound
