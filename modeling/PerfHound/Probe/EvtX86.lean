/-
# The event parser

`ph_pmu_parse_cfg` turns an event string into the word for a selection register: an
optional `*`, an event and a unit mask by name or number, an optional threshold, and
optional mode letters. The parser goes through the parts from left to right, and each
part here returns what it found and what is left of the string.
-/

import PerfHound.Lib.BitFields
import PerfHound.Lib.CText
import PerfHound.Probe.EvtTables

namespace PerfHound

open Lib CText

namespace EvtX86

/-! ## The parts of an event string -/

/-- The star in front. -/
def parseEdge (s : List Char) : U64 × List Char :=
  if charAt s 0 == '*' then (1, s.drop 1) else (0, s)

/-- The event, up to and with the dot: a name from the table, or else the number of an
event in the table. -/
def parseEvent (s : List Char) : Option (PhEvent × List Char) :=
  match eventList.find? fun e =>
      strncasecmp s e.name.toList e.name.length == 0 && charAt s e.name.length == '.' with
  | some e => some (e, s.drop (e.name.length + 1))
  | none =>
      let (evtNum, s) := strtoull s
      if charAt s 0 ≠ '.' ∨ evtNum > 0xFF then none
      else (eventList.find? fun e => e.evtNum == evtNum).map fun e => (e, s.drop 1)

/-- What may follow a unit mask. -/
def umaskEnds (s : List Char) : Bool :=
  charAt s 0 == nul || charAt s 0 == '<' || (charAt s 0 == '>' && charAt s 1 == '=') ||
    charAt s 0 == ':'

/-- The name of a unit mask row. -/
def PhUmask.chars (u : PhUmask) : List Char := (u.name.getD "").toList

/-- The unit mask: a name of the event, or else a number. -/
def parseUmask (e : PhEvent) (s : List Char) : Option (U64 × List Char) :=
  match e.umaskRows.find? fun u =>
      strncasecmp s u.chars u.chars.length == 0 && umaskEnds (s.drop u.chars.length) with
  | some u => some (u.umaskVal, s.drop u.chars.length)
  | none =>
      let (umaskVal, s) := strtoull s
      if umaskVal > 0xFF ∨ ¬ umaskEnds s then none else some (umaskVal, s)

/-- The threshold: `inv`, `cmask` and what is left. -/
def parseThreshold (s : List Char) : U64 × U64 × List Char :=
  if charAt s 0 == '>' && charAt s 1 == '=' && isdigit (charAt s 2) then
    let (n, s) := strtoull (s.drop 2)
    (0, n &&& 0xFF, s)
  else if charAt s 0 == '<' && isdigit (charAt s 1) then
    let (n, s) := strtoull (s.drop 1)
    (1, n &&& 0xFF, s)
  else (0, 0, s)

structure Modes where
  anythread : U64
  user : U64
  os : U64
  deriving DecidableEq, Repr

/-- The mode letters after the colon, up to the first other character. -/
def scanModes : List Char → Modes → Modes
  | [], m => m
  | c :: s, m =>
      if c = 'A' ∨ c = 'a' then scanModes s { m with anythread := 1 }
      else if c = 'U' ∨ c = 'u' then scanModes s { m with user := 1 }
      else if c = 'K' ∨ c = 'k' then scanModes s { m with os := 1 }
      else m

/-- The modes. Without a colon an event counts in user mode. -/
def parseModes (s : List Char) : Modes :=
  if charAt s 0 == ':' then scanModes (s.drop 1) ⟨0, 0, 0⟩ else ⟨0, 1, 0⟩

/-! ## The word -/

/-- The word made of the parts. -/
def cfgWord (cmask inv edgeTriggered umaskVal evtNum : U64) (m : Modes) : U64 :=
  (cmask <<< 24) ||| (inv <<< 23) ||| ((1 : U64) <<< 22) ||| (m.anythread <<< 21) |||
    (edgeTriggered <<< 18) ||| (m.os <<< 17) ||| (m.user <<< 16) ||| (umaskVal <<< 8) ||| evtNum

/-- `ph_pmu_parse_cfg`, on a string that is not `NULL`. -/
def phPmuParseCfg (s : List Char) : U64 :=
  if s.isEmpty then 0
  else
    let (edgeTriggered, s) := parseEdge s
    match parseEvent s with
    | none => 0
    | some (e, s) =>
        match parseUmask e s with
        | none => 0
        | some (umaskVal, s) =>
            let (inv, cmask, s) := parseThreshold s
            cfgWord cmask inv edgeTriggered umaskVal e.evtNum (parseModes s)

/-- `_ph_parse_event`: what the parser rejects becomes the code of no event. -/
def phParseEvent (evstr : String) : U64 :=
  let code := phPmuParseCfg (cstr evstr)
  if code = 0 then 0xFFFFFFFF else code

example : phParseEvent "*0xC0.Prec_Dist>=2:uk" = 0x024701C0 := by decide +kernel

/-! ## Words that select an event -/

/-- What the parser makes of a string it accepts: a word of 32 bits with the enable flag,
and without interrupt and pin control. -/
structure Selects (w : U64) : Prop where
  enable : w.getLsbD 22 = true
  pin : w.getLsbD 19 = false
  interrupt : w.getLsbD 20 = false
  high : ∀ b ≥ 32, w.getLsbD b = false

/-- The parts of a word have their widths. -/
structure Widths (cmask inv edgeTriggered umaskVal evtNum : U64) (m : Modes) : Prop where
  cmask : cmask ≤ 0xFF
  inv : inv ≤ 1
  edgeTriggered : edgeTriggered ≤ 1
  umaskVal : umaskVal ≤ 0xFF
  evtNum : evtNum ≤ 0xFF
  anythread : m.anythread ≤ 1
  user : m.user ≤ 1
  os : m.os ≤ 1

/-- The fields of a word, from the top. -/
def cfgFields (cmask inv edgeTriggered umaskVal evtNum : U64) (m : Modes) : List BitField :=
  [⟨cmask, 24, 8⟩, ⟨inv, 23, 1⟩, ⟨1, 22, 1⟩, ⟨m.anythread, 21, 1⟩, ⟨edgeTriggered, 18, 1⟩,
    ⟨m.os, 17, 1⟩, ⟨m.user, 16, 1⟩, ⟨umaskVal, 8, 8⟩, ⟨evtNum, 0, 8⟩]

section Fields

variable {cmask inv edgeTriggered umaskVal evtNum : U64} {m : Modes}

theorem cfgWord_eq_pack :
    cfgWord cmask inv edgeTriggered umaskVal evtNum m =
      BitField.pack (cfgFields cmask inv edgeTriggered umaskVal evtNum m) := by
  simp only [cfgWord, cfgFields, BitField.pack, BitVec.or_assoc, BitVec.shiftLeft_zero,
    BitVec.ofNat_eq_ofNat, BitVec.or_zero]

theorem Widths.fits (h : Widths cmask inv edgeTriggered umaskVal evtNum m) :
    ∀ f ∈ cfgFields cmask inv edgeTriggered umaskVal evtNum m, f.Fits := by
  have hbyte : ∀ {v : U64} {lo : ℕ}, v ≤ 0xFF → lo ≤ 56 → BitField.Fits ⟨v, lo, 8⟩ :=
    fun hv hlo => BitField.fits_of_le hv (by simp only; omega) (by simp only; omega)
  have hflag : ∀ {v : U64} {lo : ℕ}, v ≤ 1 → lo ≤ 63 → BitField.Fits ⟨v, lo, 1⟩ :=
    fun hv hlo => BitField.fits_of_le hv (by simp only; omega) (by simp only; omega)
  simp only [cfgFields, List.forall_mem_cons]
  exact ⟨hbyte h.cmask (by decide), hflag h.inv (by decide), hflag (by decide) (by decide),
    hflag h.anythread (by decide), hflag h.edgeTriggered (by decide), hflag h.os (by decide),
    hflag h.user (by decide), hbyte h.umaskVal (by decide), hbyte h.evtNum (by decide),
    fun f hf => absurd hf List.not_mem_nil⟩

theorem selects_cfgWord (h : Widths cmask inv edgeTriggered umaskVal evtNum m) :
    Selects (cfgWord cmask inv edgeTriggered umaskVal evtNum m) := by
  have hclear : ∀ b, b = 19 ∨ b = 20 ∨ 32 ≤ b →
      (cfgWord cmask inv edgeTriggered umaskVal evtNum m).getLsbD b = false := by
    intro b hb
    rw [cfgWord_eq_pack]
    apply BitField.getLsbD_pack_of_outside h.fits
    simp only [cfgFields, List.forall_mem_cons, BitField.Outside, List.not_mem_nil,
      false_imp_iff, implies_true, and_true]
    omega
  exact
    { enable := by simp [cfgWord]
      pin := hclear 19 (.inl rfl)
      interrupt := hclear 20 (.inr (.inl rfl))
      high := fun b hb => hclear b (.inr (.inr hb)) }

end Fields

theorem cleared_le : (0 : U64) ≤ 1 := by decide

theorem raised_le : (1 : U64) ≤ 1 := by decide

theorem parseEdge_le (s : List Char) : (parseEdge s).1 ≤ 1 := by
  unfold parseEdge
  split
  · exact raised_le
  · exact cleared_le

theorem parseEvent_evtNum {s rest : List Char} {e : PhEvent} (h : parseEvent s = some (e, rest)) :
    e.evtNum ≤ 0xFF := by
  apply evtNum_le e
  unfold parseEvent at h
  split at h
  · rename_i e' hfind
    cases h
    exact List.mem_of_find?_eq_some hfind
  · simp only at h
    split at h
    · cases h
    · obtain ⟨e', hfind, heq⟩ := Option.map_eq_some_iff.mp h
      cases heq
      exact List.mem_of_find?_eq_some hfind

theorem parseUmask_umaskVal {s rest : List Char} {e : PhEvent} {umaskVal : U64}
    (h : parseUmask e s = some (umaskVal, rest)) : umaskVal ≤ 0xFF := by
  unfold parseUmask at h
  split at h
  · rename_i u hfind
    cases h
    exact umaskRows_le e u (List.mem_of_find?_eq_some hfind)
  · simp only at h
    split at h
    case isTrue => cases h
    case isFalse hbad =>
      cases h
      exact BitVec.not_lt.mp fun hlt => hbad (.inl hlt)

theorem parseThreshold_widths (s : List Char) :
    (parseThreshold s).1 ≤ 1 ∧ (parseThreshold s).2.1 ≤ 0xFF := by
  have hmask : ∀ v : U64, v &&& 0xFF ≤ 0xFF := by
    intro v
    rw [BitVec.le_def, BitVec.toNat_and]
    exact Nat.and_le_right
  unfold parseThreshold
  split
  · exact ⟨cleared_le, hmask _⟩
  · split
    · exact ⟨raised_le, hmask _⟩
    · exact ⟨cleared_le, (by decide : (0 : U64) ≤ 0xFF)⟩

/-- Every mode is a flag. -/
def Modes.Flags (m : Modes) : Prop := m.anythread ≤ 1 ∧ m.user ≤ 1 ∧ m.os ≤ 1

theorem flags_scanModes (s : List Char) : ∀ m : Modes, m.Flags → (scanModes s m).Flags := by
  induction s with
  | nil => intro m hm; exact hm
  | cons c s ih =>
      intro m hm
      unfold scanModes
      split
      · exact ih _ ⟨raised_le, hm.2.1, hm.2.2⟩
      · split
        · exact ih _ ⟨hm.1, raised_le, hm.2.2⟩
        · split
          · exact ih _ ⟨hm.1, hm.2.1, raised_le⟩
          · exact hm

theorem flags_parseModes (s : List Char) : (parseModes s).Flags := by
  unfold parseModes
  split
  · exact flags_scanModes _ _ ⟨cleared_le, cleared_le, cleared_le⟩
  · exact ⟨cleared_le, raised_le, cleared_le⟩

/-- What the parser finds behind a unit mask has its widths. -/
theorem widths_of_rest {edgeTriggered umaskVal evtNum : U64} (hedge : edgeTriggered ≤ 1)
    (humask : umaskVal ≤ 0xFF) (hevt : evtNum ≤ 0xFF) (rest : List Char) :
    Widths (parseThreshold rest).2.1 (parseThreshold rest).1 edgeTriggered umaskVal evtNum
      (parseModes (parseThreshold rest).2.2) := by
  obtain ⟨hinv, hcmask⟩ := parseThreshold_widths rest
  obtain ⟨hanythread, huser, hos⟩ := flags_parseModes (parseThreshold rest).2.2
  exact
    { cmask := hcmask
      inv := hinv
      edgeTriggered := hedge
      umaskVal := humask
      evtNum := hevt
      anythread := hanythread
      user := huser
      os := hos }

/-- The parser rejects a string or makes a word that selects an event. -/
theorem phPmuParseCfg_cases (s : List Char) :
    phPmuParseCfg s = 0 ∨ Selects (phPmuParseCfg s) := by
  unfold phPmuParseCfg
  split
  · exact .inl rfl
  · simp only
    cases hevent : parseEvent (parseEdge s).2 with
    | none => exact .inl rfl
    | some found =>
        obtain ⟨e, t⟩ := found
        simp only
        cases humask : parseUmask e t with
        | none => exact .inl rfl
        | some value =>
            obtain ⟨umaskVal, u⟩ := value
            exact .inr (selects_cfgWord (widths_of_rest (parseEdge_le s)
              (parseUmask_umaskVal humask) (parseEvent_evtNum hevent) u))

/-- An event string that is accepted selects an event. -/
theorem selects_phParseEvent {evstr : String} (h : phParseEvent evstr ≤ 0xFFFFFFFE) :
    Selects (phParseEvent evstr) := by
  have hcode : phParseEvent evstr = if phPmuParseCfg (cstr evstr) = 0 then 0xFFFFFFFF
      else phPmuParseCfg (cstr evstr) := rfl
  by_cases hzero : phPmuParseCfg (cstr evstr) = 0
  · rw [hcode, if_pos hzero] at h
    exact absurd h (by decide)
  · rw [hcode, if_neg hzero]
    exact (phPmuParseCfg_cases _).resolve_left hzero

end EvtX86

end PerfHound
