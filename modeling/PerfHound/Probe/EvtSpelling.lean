/-
# The words of event strings

Which words can be asked for with a string? Those that are 0 or have the enable flag, the
number of a known event, and nothing in the pin control, interrupt and upper bits: for each of
these there is a string, and it is found by writing out all the fields in numbers. This
spelling is one for all strings that are read alike.
-/

import PerfHound.Lib.Decimal
import PerfHound.Probe.EvtNumbers

namespace PerfHound

open Lib CText

namespace EvtX86

variable {w w' : U64} {s : List Char}

/-- A word that selects an event of the table and asks for nothing a program may not have. -/
structure Requestable (w : U64) : Prop where
  lt : w.toNat < 2 ^ 32
  enable : w.getLsbD 22 = true
  pin : w.getLsbD 19 = false
  interrupt : w.getLsbD 20 = false
  event : ∃ e ∈ eventList, e.evtNum = BitField.get w 0 8

/-- A letter that stands for a flag. -/
def flagText (flag : Bool) (c : Char) : List Char := if flag then [c] else []

/-- The letters of the modes a word asks for. -/
def modesOf (w : U64) : List Char :=
  flagText (w.getLsbD 21) 'a' ++ (flagText (w.getLsbD 16) 'u' ++ flagText (w.getLsbD 17) 'k')

/-- A numeral for a field of one byte. -/
def byteText (w : U64) (lo : ℕ) : List Char := decimal (BitField.get w lo 8).toNat

/-- What follows the unit mask: threshold and modes. -/
def endingOf (w : U64) : List Char :=
  signText (w.getLsbD 23) ++ (byteText w 24 ++ ':' :: modesOf w)

/-- The spelling of a word, with every field written out. -/
def spelling (w : U64) : List Char :=
  flagText (w.getLsbD 18) '*' ++ (byteText w 0 ++ '.' :: (byteText w 8 ++ endingOf w))

example : String.ofList (spelling 0x024701C0) = "*192.1>=2:uk" := by decide +kernel

/-! ## Reading a spelling -/

theorem and_byte (w : U64) (lo : ℕ) :
    BitField.get w lo 8 &&& 0xFF = BitField.get w lo 8 := by
  have hlt : (BitField.get w lo 8).toNat < 2 ^ 8 := BitField.toNat_get_lt w (by decide)
  apply BitVec.eq_of_toNat_eq
  rw [BitVec.toNat_and]
  exact (Nat.and_two_pow_sub_one_eq_mod _ 8).trans (Nat.mod_eq_of_lt hlt)

/-- A numeral for a byte is read back. -/
theorem isNumeral_decimal_byte :
    ∀ n < 256, IsNumeral (decimal n) ∧ (strtoull (decimal n)).1 = BitVec.ofNat 64 n := by
  decide +kernel

theorem strtoull_byteText (w : U64) (lo : ℕ) :
    IsNumeral (byteText w lo) ∧ (strtoull (byteText w lo)).1 = BitField.get w lo 8 := by
  have hlt : (BitField.get w lo 8).toNat < 256 := BitField.toNat_get_lt w (by decide)
  obtain ⟨hnumeral, hvalue⟩ := isNumeral_decimal_byte _ hlt
  rw [BitVec.ofNat_toNat, BitVec.setWidth_eq] at hvalue
  exact ⟨hnumeral, hvalue⟩

theorem isdigit_byteText (w : U64) (lo : ℕ) (r : List Char) :
    isdigit (charAt (byteText w lo ++ r) 0) = true := by
  obtain ⟨c, cs, hcons⟩ := decimal_eq_cons (BitField.get w lo 8).toNat
  have hdigit : isdigit c = true := isdigit_of_mem_decimal (hcons ▸ List.mem_cons_self)
  rw [byteText, hcons]
  exact hdigit

/-- The threshold is read back, and the modes are left. -/
theorem parseThreshold_endingOf (w : U64) :
    parseThreshold (endingOf w) =
      (if w.getLsbD 23 then 1 else 0, BitField.get w 24 8 &&& 0xFF, ':' :: modesOf w) := by
  have hread : strtoull (byteText w 24 ++ ':' :: modesOf w) =
      (BitField.get w 24 8, ':' :: modesOf w) := by
    obtain ⟨hnumeral, hvalue⟩ := strtoull_byteText w 24
    rw [hnumeral.strtoull_append fun c v hcv => ?_, hvalue]
    obtain rfl : ':' = c := (List.cons.inj hcv).1
    decide
  have hdigit := isdigit_byteText w 24 (':' :: modesOf w)
  unfold endingOf
  cases w.getLsbD 23 with
  | false =>
      have hmore : (charAt (signText false ++ (byteText w 24 ++ ':' :: modesOf w)) 0 == '>' &&
          charAt (signText false ++ (byteText w 24 ++ ':' :: modesOf w)) 1 == '=' &&
          isdigit (charAt (signText false ++ (byteText w 24 ++ ':' :: modesOf w)) 2)) = true :=
        hdigit
      have hdrop : (signText false ++ (byteText w 24 ++ ':' :: modesOf w)).drop 2 =
          byteText w 24 ++ ':' :: modesOf w := rfl
      simp only [parseThreshold, hmore, if_true, hdrop, hread, Bool.false_eq_true, if_false]
  | true =>
      have hmore : (charAt (signText true ++ (byteText w 24 ++ ':' :: modesOf w)) 0 == '>' &&
          charAt (signText true ++ (byteText w 24 ++ ':' :: modesOf w)) 1 == '=' &&
          isdigit (charAt (signText true ++ (byteText w 24 ++ ':' :: modesOf w)) 2)) = false := rfl
      have hless : (charAt (signText true ++ (byteText w 24 ++ ':' :: modesOf w)) 0 == '<' &&
          isdigit (charAt (signText true ++ (byteText w 24 ++ ':' :: modesOf w)) 1)) = true :=
        hdigit
      have hdrop : (signText true ++ (byteText w 24 ++ ':' :: modesOf w)).drop 1 =
          byteText w 24 ++ ':' :: modesOf w := rfl
      simp only [parseThreshold, hmore, hless, if_true, hdrop, hread, Bool.false_eq_true, if_false]

theorem parseModes_modesOf (w : U64) :
    parseModes (':' :: modesOf w) =
      ⟨if w.getLsbD 21 then 1 else 0, if w.getLsbD 16 then 1 else 0,
        if w.getLsbD 17 then 1 else 0⟩ := by
  unfold modesOf
  cases w.getLsbD 21 <;> cases w.getLsbD 16 <;> cases w.getLsbD 17 <;> rfl

/-- A spelling is cut where it was put together. -/
theorem shape_spelling (w : U64) {e : PhEvent} (he : e ∈ eventList)
    (hnumber : e.evtNum = BitField.get w 0 8) :
    Shape (spelling w) (flagText (w.getLsbD 18) '*') (byteText w 0) (byteText w 8) (endingOf w)
      e where
  eq := rfl
  star := by
    cases w.getLsbD 18 with
    | false => exact .inl rfl
    | true => exact .inr rfl
  mem := he
  event := .inr ⟨(strtoull_byteText w 0).1, (strtoull_byteText w 0).2.trans hnumber.symm⟩
  umask := .inr (.inl (strtoull_byteText w 8).1)
  ends := by
    unfold endingOf
    cases w.getLsbD 23 <;> rfl

theorem nul_not_mem_spelling (w : U64) : nul ∉ spelling w := by
  have hflag : ∀ b c, c ≠ nul → nul ∉ flagText b c := by
    intro b c hc
    cases b with
    | false => exact List.not_mem_nil
    | true => exact fun h => hc (List.mem_singleton.mp h).symm
  have hbyte : ∀ lo, nul ∉ byteText w lo := fun lo h =>
    absurd (isdigit_of_mem_decimal h) (by decide)
  have hsign : nul ∉ signText (w.getLsbD 23) := by
    cases w.getLsbD 23 <;> decide
  simp only [spelling, endingOf, modesOf, List.mem_append, List.mem_cons, not_or]
  exact ⟨hflag _ _ (by decide), hbyte 0, by decide, hbyte 8, hsign, hbyte 24, by decide,
    hflag _ _ (by decide), hflag _ _ (by decide), hflag _ _ (by decide)⟩

/-- As a C string a spelling does not end early. -/
theorem cstr_spelling (w : U64) : cstr (String.ofList (spelling w)) = spelling w := by
  rw [cstr, String.toList_ofList, List.takeWhile_eq_self_iff]
  intro c hc
  exact decide_eq_true fun hnul : c = nul => nul_not_mem_spelling w (hnul ▸ hc)

/-! ## Words with the same fields -/

/-- The bits of a field. -/
theorem getLsbD_of_get {lo width b : ℕ} (hwidth : width ≤ 64)
    (hget : BitField.get w lo width = BitField.get w' lo width) (hlo : lo ≤ b)
    (hb : b < lo + width) : w.getLsbD b = w'.getLsbD b := by
  have hbit := congrArg (fun v : U64 => v.getLsbD (b - lo)) hget
  simp only [BitField.getLsbD_get _ _ _ _ hwidth, Nat.add_sub_cancel' hlo] at hbit
  rwa [decide_eq_true (by omega), Bool.true_and, Bool.true_and] at hbit

theorem get_one (w : U64) (lo : ℕ) : BitField.get w lo 1 = if w.getLsbD lo then 1 else 0 := by
  apply BitVec.eq_of_getLsbD_eq
  intro b _
  rw [BitField.getLsbD_get _ _ _ _ (by decide)]
  cases b with
  | zero => cases w.getLsbD lo <;> rfl
  | succ b =>
      rw [decide_eq_false (by omega), Bool.false_and]
      cases w.getLsbD lo <;> simp [BitVec.getLsbD_one]

/-- A word is made of its fields. -/
theorem eq_of_fields (hw : Requestable w) {p : Parts} (hlayout : Layout w' p)
    (hevt : p.event.evtNum = BitField.get w 0 8) (humask : p.umaskVal = BitField.get w 8 8)
    (huser : p.modes.user = BitField.get w 16 1) (hos : p.modes.os = BitField.get w 17 1)
    (hedge : p.edgeTriggered = BitField.get w 18 1)
    (hanythread : p.modes.anythread = BitField.get w 21 1) (hinv : p.inv = BitField.get w 23 1)
    (hcmask : p.cmask = BitField.get w 24 8) : w' = w := by
  have hhigh : ∀ {v : U64}, v.toNat < 2 ^ 32 → ∀ b ≥ 32, v.getLsbD b = false := fun hlt b hb =>
    Nat.testBit_lt_two_pow (hlt.trans_le (Nat.pow_le_pow_right (by decide) hb))
  have hfield : ∀ {lo width : ℕ} {x : U64}, width ≤ 64 → BitField.get w' lo width = x →
      x = BitField.get w lo width → ∀ b, lo ≤ b → b < lo + width →
        w'.getLsbD b = w.getLsbD b := fun hwidth hleft hright b hlo hb =>
    getLsbD_of_get hwidth (hleft.trans hright) hlo hb
  apply BitVec.eq_of_getLsbD_eq
  intro b _
  by_cases hlarge : 32 ≤ b
  · rw [hhigh hlayout.lt b hlarge, hhigh hw.lt b hlarge]
  · rcases (by omega : b < 8 ∨ (8 ≤ b ∧ b < 16) ∨ b = 16 ∨ b = 17 ∨ b = 18 ∨ b = 19 ∨ b = 20 ∨
      b = 21 ∨ b = 22 ∨ b = 23 ∨ (24 ≤ b ∧ b < 32)) with
      h | h | rfl | rfl | rfl | rfl | rfl | rfl | rfl | rfl | h
    · exact hfield (by decide) hlayout.evtNum hevt b (Nat.zero_le b) (by omega)
    · exact hfield (by decide) hlayout.umaskVal humask b h.1 h.2
    · exact hfield (by decide) hlayout.user huser 16 (by decide) (by decide)
    · exact hfield (by decide) hlayout.os hos 17 (by decide) (by decide)
    · exact hfield (by decide) hlayout.edgeTriggered hedge 18 (by decide) (by decide)
    · rw [hlayout.pin, hw.pin]
    · rw [hlayout.interrupt, hw.interrupt]
    · exact hfield (by decide) hlayout.anythread hanythread 21 (by decide) (by decide)
    · rw [hlayout.enable, hw.enable]
    · exact hfield (by decide) hlayout.inv hinv 23 (by decide) (by decide)
    · exact hfield (by decide) hlayout.cmask hcmask b h.1 h.2

/-! ## The words of the parser -/

/-- A word that can be asked for is asked for by its spelling. -/
theorem phPmuParseCfg_spelling (hw : Requestable w) : phPmuParseCfg (spelling w) = w := by
  obtain ⟨e, he, hnumber⟩ := hw.event
  have hshape := shape_spelling w he hnumber
  obtain ⟨hnumeral, hvalue⟩ := strtoull_byteText w 8
  have humask : umaskValue e (byteText w 8) = BitField.get w 8 8 :=
    (umaskValue_of_number he (.inl hnumeral)).trans hvalue
  have hbyte : ∀ lo, BitField.get w lo 8 ≤ 0xFF := fun lo =>
    BitVec.le_def.mpr (Nat.lt_succ_iff.mp (BitField.toNat_get_lt w (by decide)))
  obtain ⟨-, hlayout⟩ := hshape.layout (by rw [humask]; exact hbyte 8)
  have hthreshold := parseThreshold_endingOf w
  have hmodes : (shapeParts (flagText (w.getLsbD 18) '*') (byteText w 8) (endingOf w) e).modes =
      ⟨if w.getLsbD 21 then 1 else 0, if w.getLsbD 16 then 1 else 0,
        if w.getLsbD 17 then 1 else 0⟩ := by
    rw [shapeParts, hthreshold]
    exact parseModes_modesOf w
  refine eq_of_fields hw hlayout hnumber humask ?_ ?_ ?_ ?_ ?_ ?_
  · rw [hmodes, get_one]
  · rw [hmodes, get_one]
  · rw [get_one, shapeParts]
    cases w.getLsbD 18 <;> rfl
  · rw [hmodes, get_one]
  · rw [get_one, shapeParts, hthreshold]
  · rw [shapeParts, hthreshold]
    exact and_byte w 24

/-- What the parser returns can be asked for. -/
theorem requestable_of_parse (hne : phPmuParseCfg s ≠ 0) : Requestable (phPmuParseCfg s) := by
  rw [phPmuParseCfg_eq_parts] at hne ⊢
  cases hparts : parts s with
  | none =>
      rw [hparts] at hne
      exact absurd rfl hne
  | some p =>
      obtain ⟨hevent, hsized⟩ := sized_parts hparts
      have hlayout := hsized.layout
      exact ⟨hlayout.lt, hlayout.enable, hlayout.pin, hlayout.interrupt, p.event, hevent,
        hlayout.evtNum.symm⟩

/-- **The words of event strings.** A word is what the parser makes of some string exactly
when it is 0 or can be asked for, and then it is what the parser makes of its spelling. -/
theorem words_of_strings (w : U64) :
    ((∃ evstr : String, phPmuParseCfg (cstr evstr) = w) ↔ w = 0 ∨ Requestable w) ∧
      (Requestable w → phPmuParseCfg (cstr (String.ofList (spelling w))) = w) := by
  have hspelled : Requestable w → phPmuParseCfg (cstr (String.ofList (spelling w))) = w := by
    intro hw
    rw [cstr_spelling]
    exact phPmuParseCfg_spelling hw
  refine ⟨⟨?_, ?_⟩, hspelled⟩
  · rintro ⟨evstr, rfl⟩
    by_cases hzero : phPmuParseCfg (cstr evstr) = 0
    · exact .inl hzero
    · exact .inr (requestable_of_parse hzero)
  · rintro (rfl | hw)
    · exact ⟨"", rfl⟩
    · exact ⟨_, hspelled hw⟩

end EvtX86

end PerfHound
