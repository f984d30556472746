/-
# Names and numbers in event strings

The same selection can be written with names or with numbers. A name means the first row
of its name, so a row that has the name of an earlier one cannot be selected by it. A
number means itself only within limits: the number of an event and of a unit mask are
compared with 255 after `strtoull`, for which a minus sign wraps around, and the number of
a threshold is cut to its low byte.
-/

import PerfHound.Probe.EvtAccept
import PerfHound.Probe.EvtWords

namespace PerfHound

open Lib CText

namespace EvtX86

variable {s star ev um rest : List Char} {e : PhEvent}

/-! ## The words of shapes -/

/-- What the parser determines on a shape. -/
def shapeParts (star um rest : List Char) (e : PhEvent) : Parts where
  edgeTriggered := if star = [] then 0 else 1
  event := e
  umaskVal := umaskValue e um
  inv := (parseThreshold rest).1
  cmask := (parseThreshold rest).2.1
  modes := parseModes (parseThreshold rest).2.2

/-- An accepted shape has a word with the layout of its parts. -/
theorem Shape.layout (h : Shape s star ev um rest e) (hbyte : umaskValue e um ≤ 0xFF) :
    phPmuParseCfg s = (shapeParts star um rest e).word ∧
      Layout (phPmuParseCfg s) (shapeParts star um rest e) := by
  have hword : phPmuParseCfg s = (shapeParts star um rest e).word := by
    rw [h.phPmuParseCfg_eq, if_neg (BitVec.not_lt.mpr hbyte)]
    rfl
  have hedge : (shapeParts star um rest e).edgeTriggered ≤ 1 := by
    simp only [shapeParts]
    split
    · exact cleared_le
    · exact raised_le
  have hsized : (shapeParts star um rest e).Sized :=
    widths_of_rest hedge hbyte (evtNum_le e h.mem) rest
  exact ⟨hword, hword ▸ hsized.layout⟩

/-- A text that is no name of the event is read as a number. -/
theorem umaskValue_of_number (he : e ∈ eventList) (hum : IsNumeral um ∨ um = []) :
    umaskValue e um = (strtoull um).1 := by
  have hnone : (e.umaskRows.find? fun u => decide (SameCase um u.chars)) = none := by
    refine List.find?_eq_none.mpr fun u hu hmatch => ?_
    have hname := wellNamed_umask he hu
    have hsame := of_decide_eq_true hmatch
    rcases hum with hnumeral | rfl
    · exact not_isNumeral_of_sameCase hname hsame hnumeral
    · have hnil : u.chars = [] := List.eq_nil_of_length_eq_zero hsame.length_eq.symm
      rw [hnil] at hname
      cases hname
  rw [umaskValue, hnone]

/-! ## Names and numbers agree -/

/-- What may follow an event string's unit mask in the source's grammar. -/
def Tail (t : List Char) : Prop :=
  t = [] ∨ ∃ w, t = '<' :: w ∨ t = '>' :: '=' :: w ∨ t = ':' :: w

theorem Tail.umaskEnds {t : List Char} (h : Tail t) : umaskEnds t = true := by
  rcases h with rfl | ⟨w, rfl | rfl | rfl⟩ <;> rfl

/-- The row is the first one of its name among the unit masks of the event. -/
def FirstOfName (e : PhEvent) (u : PhUmask) : Prop :=
  e.umaskRows.find? (fun v => v.name == u.name) = some u

instance (e : PhEvent) (u : PhUmask) : Decidable (FirstOfName e u) :=
  inferInstanceAs (Decidable (_ = _))

/-- Rows whose names are spelled the same have the same name. -/
theorem sameCase_chars_iff (he : e ∈ eventList) {u v : PhUmask} (hu : u ∈ e.umaskRows)
    (hv : v ∈ e.umaskRows) : SameCase u.chars v.chars ↔ v.name = u.name := by
  have hlower : ∀ x ∈ e.umaskRows, x.chars.map tolower = x.chars := fun x hx =>
    tolower_wellNamed (wellNamed_umask he hx)
  have hnamed : ∀ x ∈ e.umaskRows, ∃ name, x.name = some name := by
    intro x hx
    rw [PhEvent.umaskRows] at hx
    have hsome := List.mem_takeWhile_imp hx
    exact Option.isSome_iff_exists.mp hsome
  obtain ⟨a, ha⟩ := hnamed u hu
  obtain ⟨b, hb⟩ := hnamed v hv
  rw [SameCase, hlower u hu, hlower v hv, PhUmask.chars, PhUmask.chars, ha, hb, Option.getD_some,
    Option.getD_some, String.toList_inj, Option.some.injEq, eq_comm]

/-- A name stands for the first row that has it. -/
theorem exists_first (he : e ∈ eventList) {u : PhUmask} (hu : u ∈ e.umaskRows) :
    ∃ v, e.umaskRows.find? (fun v => v.name == u.name) = some v ∧ v ∈ e.umaskRows ∧
      v.name = u.name ∧ umaskValue e u.chars = v.umaskVal := by
  have hsearch : (e.umaskRows.find? fun v => decide (SameCase u.chars v.chars)) =
      e.umaskRows.find? fun v => v.name == u.name := by
    refine List.find?_congr fun v hv => ?_
    rw [Bool.eq_iff_iff, decide_eq_true_eq, beq_iff_eq, sameCase_chars_iff he hu hv]
  cases hfind : e.umaskRows.find? fun v => v.name == u.name with
  | none =>
      have hself := List.find?_eq_none.mp hfind u hu
      exact absurd (beq_self_eq_true u.name) hself
  | some v =>
      refine ⟨v, rfl, List.mem_of_find?_eq_some hfind, ?_, ?_⟩
      · have hname := List.find?_some hfind
        exact beq_iff_eq.mp hname
      · rw [umaskValue, hsearch, hfind]

/-- Two shapes that differ in their texts only have one word exactly when their unit masks
have one value. -/
theorem Shape.word_eq_iff {s' ev' um' : List Char} (h : Shape s star ev um rest e)
    (h' : Shape s' star ev' um' rest e) (hbyte : umaskValue e um ≤ 0xFF)
    (hbyte' : umaskValue e um' ≤ 0xFF) :
    phPmuParseCfg s = phPmuParseCfg s' ↔ umaskValue e um = umaskValue e um' := by
  obtain ⟨hword, hlayout⟩ := h.layout hbyte
  obtain ⟨hword', hlayout'⟩ := h'.layout hbyte'
  constructor
  · intro heq
    have humask := hlayout.umaskVal
    rw [heq, hlayout'.umaskVal] at humask
    exact humask.symm
  · intro heq
    rw [hword, hword']
    simp only [shapeParts, heq]

/-- **Names and numbers agree exactly on the rows that are the first of their name.** Any
numerals for the event and the unit mask, any tail, with or without a star. -/
theorem spellings_agree_iff (e : PhEvent) (u : PhUmask) (star n m t : List Char)
    (he : e ∈ eventList) (hu : u ∈ e.umaskRows) (hstar : star = [] ∨ star = ['*'])
    (hn : strtoull n = (e.evtNum, [])) (hm : strtoull m = (u.umaskVal, [])) (ht : Tail t) :
    phPmuParseCfg (star ++ (e.name.toList ++ '.' :: (u.chars ++ t))) =
        phPmuParseCfg (star ++ (n ++ '.' :: (m ++ t))) ↔ FirstOfName e u := by
  have hnumeral : ∀ {x : List Char} {v : U64}, strtoull x = (v, []) → IsNumeral x ∨ x = [] := by
    intro x v hx
    by_cases hnil : x = []
    · exact .inr hnil
    · exact .inl ⟨hnil, by rw [hx]⟩
  have hevent : EventText e n := by
    refine .inr ⟨(hnumeral hn).resolve_right ?_, by rw [hn]⟩
    rintro rfl
    exact evtNum_ne_zero he (Prod.mk.inj hn).1.symm
  have hnamed : Shape (star ++ (e.name.toList ++ '.' :: (u.chars ++ t))) star e.name.toList
      u.chars t e := ⟨rfl, hstar, he, .inl rfl, .inl ⟨u, hu, rfl⟩, ht.umaskEnds⟩
  have hnumbered : Shape (star ++ (n ++ '.' :: (m ++ t))) star n m t e :=
    ⟨rfl, hstar, he, hevent, .inr (hnumeral hm), ht.umaskEnds⟩
  obtain ⟨v, hfirst, hv, hname, hvalue⟩ := exists_first he hu
  have hvalue' : umaskValue e m = u.umaskVal := by
    rw [umaskValue_of_number he (hnumeral hm), hm]
  rw [hnamed.word_eq_iff hnumbered (hvalue ▸ umaskRows_le e v hv) (hvalue' ▸ umaskRows_le e u hu),
    hvalue, hvalue', FirstOfName, hfirst, Option.some.injEq]
  constructor
  · intro heq
    cases u
    cases v
    simp only at heq hname
    rw [heq, hname]
  · rintro rfl
    rfl

theorem spellings_agree_iff_l2_rqsts :
    phPmuParseCfg (['*'] ++ ("l2_rqsts".toList ++ '.' :: ("miss".toList ++ ">=2:uk".toList))) =
      phPmuParseCfg (['*'] ++ ("0x24".toList ++ '.' :: ("077".toList ++ ">=2:uk".toList))) :=
  (spellings_agree_iff ⟨0x24, 25, "l2_rqsts"⟩ ⟨0x3F, "miss"⟩ ['*'] "0x24".toList "077".toList
    ">=2:uk".toList (by decide) (by decide) (.inr rfl) (by decide) (by decide)
    (.inr ⟨"2:uk".toList, .inr (.inl rfl)⟩)).mpr (by decide)

/-- The one row that has the name of an earlier row. -/
theorem shadowed_row :
    phPmuParseCfg "move_elimination.int_not_eliminated".toList = 0x00410458 ∧
      phPmuParseCfg "0x58.0x01".toList = 0x00410158 ∧ (0x00410458 : U64) ≠ 0x00410158 ∧
      (eventList.flatMap fun e => (e.umaskRows.filter fun u => ¬ FirstOfName e u).map fun u =>
        (e.name, u)) = [("move_elimination", ⟨0x01, "int_not_eliminated"⟩)] :=
  ⟨by decide +kernel, by decide +kernel, by decide, by decide +kernel⟩

/-! ## Numbers as they stand -/

/-- The places of numbers in an event string. -/
inductive Place
  | event
  | umask
  | /-- Behind `<` when `inv`, else behind `>=`. -/
    threshold (inv : Bool)
  deriving DecidableEq, Repr

/-- The sign of a threshold. -/
def signText (inv : Bool) : List Char := if inv then ['<'] else ['>', '=']

/-- The rest begins with a threshold, whose number is `m`: the longest there is. Unlike the
numbers of an event and a unit mask it begins with a digit, so that a sign or a blank behind
`<` or `>=` is left-over text. -/
def ThresholdAt (rest : List Char) (inv : Bool) (m : List Char) : Prop :=
  ∃ w, rest = signText inv ++ (m ++ w) ∧ IsNumeral m ∧ isdigit (charAt m 0) = true ∧
    strtoull (m ++ w) = ((strtoull m).1, w)

/-- The numeral `m` stands in `s`, at this place. -/
def Written (s : List Char) : Place → List Char → Prop
  | .event, m => IsNumeral m ∧ ∃ star r, (star = [] ∨ star = ['*']) ∧ s = star ++ (m ++ '.' :: r)
  | .umask, m => IsNumeral m ∧ ∃ star ev rest e, Shape s star ev m rest e
  | .threshold inv, m => ∃ star ev um rest e, Shape s star ev um rest e ∧ ThresholdAt rest inv m

/-- The word has the value of numeral `m` in the bits of its place. -/
def Encodes (w : U64) (m : List Char) : Place → Prop
  | .event => ((BitField.get w 0 8).toNat : ℤ) = numeralValue m
  | .umask => ((BitField.get w 8 8).toNat : ℤ) = numeralValue m
  | .threshold inv => ((BitField.get w 24 8).toNat : ℤ) = numeralValue m ∧ w.getLsbD 23 = inv

/-- Every numeral in an accepted string is encoded as it stands, and a string with a
numeral above 255 is not accepted. -/
def NumeralsKept (s : List Char) : Prop :=
  ∀ place m, Written s place m →
    (phPmuParseCfg s ≠ 0 → Encodes (phPmuParseCfg s) m place) ∧
      (255 < numeralValue m → phPmuParseCfg s = 0)

/-- Where the string is cut into parts that the parser takes, no event or unit mask is
written with a negative number, and no threshold with one above 255. -/
def NumeralsFit (s : List Char) : Prop :=
  ∀ star ev um rest e, Shape s star ev um rest e → umaskValue e um ≤ 0xFF →
    (IsNumeral ev → 0 ≤ numeralValue ev) ∧ (IsNumeral um → 0 ≤ numeralValue um) ∧
      ∀ inv m, ThresholdAt rest inv m → numeralValue m ≤ 255

theorem parseThreshold_of_thresholdAt {inv : Bool} {m : List Char}
    (h : ThresholdAt rest inv m) :
    (parseThreshold rest).1 = (if inv then 1 else 0) ∧
      (parseThreshold rest).2.1 = (strtoull m).1 &&& 0xFF := by
  obtain ⟨w, rfl, hm, hdigit, hlongest⟩ := h
  have hat : isdigit (charAt (m ++ w) 0) = true := by
    rw [charAt_zero_append hm.1]
    exact hdigit
  cases inv with
  | true =>
      have hless : (charAt (signText true ++ (m ++ w)) 0 == '<' &&
          isdigit (charAt (signText true ++ (m ++ w)) 1)) = true := hat
      have hdrop : (signText true ++ (m ++ w)).drop 1 = m ++ w := rfl
      have hmore : (charAt (signText true ++ (m ++ w)) 0 == '>' &&
          charAt (signText true ++ (m ++ w)) 1 == '=' &&
          isdigit (charAt (signText true ++ (m ++ w)) 2)) = false := rfl
      simp only [parseThreshold, hmore, hless, hdrop, hlongest, Bool.false_eq_true, if_false,
        if_true, and_self]
  | false =>
      have hmore : (charAt (signText false ++ (m ++ w)) 0 == '>' &&
          charAt (signText false ++ (m ++ w)) 1 == '=' &&
          isdigit (charAt (signText false ++ (m ++ w)) 2)) = true := hat
      have hdrop : (signText false ++ (m ++ w)).drop 2 = m ++ w := rfl
      simp only [parseThreshold, hmore, hdrop, hlongest, Bool.false_eq_true, if_false, if_true,
        and_self]

/-- What was read as a byte stands for itself, unless it was negative. -/
theorem toNat_eq_of_byte {m : List Char} (hm : IsNumeral m) (hpos : 0 ≤ numeralValue m)
    (hbyte : (strtoull m).1 ≤ 0xFF) : ((strtoull m).1.toNat : ℤ) = numeralValue m := by
  have hread := hm.toNat_strtoull hpos
  have hle : (strtoull m).1.toNat ≤ 0xFF := BitVec.le_def.mp hbyte
  omega

/-- A threshold of one byte is encoded. -/
theorem encodes_threshold {w : U64} {inv : Bool} {m : List Char}
    (hlayout : Layout w (shapeParts star um rest e)) (hat : ThresholdAt rest inv m)
    (hsmall : numeralValue m ≤ 255) : Encodes w m (.threshold inv) := by
  obtain ⟨hinv, hcmask⟩ := parseThreshold_of_thresholdAt hat
  obtain ⟨-, -, hm, hdigit, -⟩ := hat
  have hpos : 0 ≤ numeralValue m := by
    obtain ⟨c, v, rfl⟩ := List.exists_cons_of_ne_nil hm.1
    exact numeralValue_nonneg hdigit
  have hread := hm.toNat_strtoull hpos
  constructor
  · have hlow : ((strtoull m).1 &&& 0xFF).toNat = (strtoull m).1.toNat % 2 ^ 8 := by
      rw [BitVec.toNat_and]
      exact Nat.and_two_pow_sub_one_eq_mod _ 8
    rw [hlayout.cmask, shapeParts, hcmask, hlow]
    omega
  · have hflag : (shapeParts star um rest e).inv = if inv then 1 else 0 := hinv
    rw [← BitField.getLsbD_get_one, hlayout.inv, hflag]
    cases inv with
    | false => rfl
    | true => rfl

/-- In an accepted string that fits, every numeral is encoded. -/
theorem NumeralsFit.encodes (h : NumeralsFit s) (haccept : phPmuParseCfg s ≠ 0) {place : Place}
    {m : List Char} (hwritten : Written s place m) : Encodes (phPmuParseCfg s) m place := by
  obtain ⟨star, ev, um, rest, e, hshape, hbyte⟩ := exists_shape haccept
  obtain ⟨-, hlayout⟩ := hshape.layout hbyte
  obtain ⟨hevent, humask, hthreshold⟩ := h star ev um rest e hshape hbyte
  cases place with
  | event =>
      obtain ⟨hm, star', r, hstar', heq⟩ := hwritten
      obtain ⟨rfl, rfl, -⟩ := head_unique hshape.star hstar'
        (fun _ => hshape.event.not_special hshape.mem) (fun _ => not_special_of_isNumeral hm)
        (hshape.eq.symm.trans heq)
      have hvalue : (strtoull ev).1 = e.evtNum := by
        rcases hshape.event with hname | ⟨-, hvalue⟩
        · exact absurd hm (not_isNumeral_of_sameCase (wellNamed_event hshape.mem) hname)
        · exact hvalue
      rw [Encodes, hlayout.evtNum, shapeParts, ← hvalue]
      exact toNat_eq_of_byte hm (hevent hm) (hvalue ▸ evtNum_le e hshape.mem)
  | umask =>
      obtain ⟨hm, star', ev', rest', e', hshape'⟩ := hwritten
      obtain ⟨-, -, rfl, -, -⟩ := hshape.unique hshape'
      have hvalue := umaskValue_of_number hshape.mem (.inl hm)
      rw [hvalue] at hbyte
      rw [Encodes, hlayout.umaskVal, shapeParts, hvalue]
      exact toNat_eq_of_byte hm (humask hm) hbyte
  | threshold inv =>
      obtain ⟨star', ev', um', rest', e', hshape', hat⟩ := hwritten
      obtain ⟨-, -, -, rfl, -⟩ := hshape.unique hshape'
      exact encodes_threshold hlayout hat (hthreshold inv m hat)

/-- An encoded numeral is a byte. -/
theorem Encodes.byte {w : U64} {m : List Char} {place : Place} (h : Encodes w m place) :
    0 ≤ numeralValue m ∧ numeralValue m ≤ 255 := by
  have hget : ∀ lo, (BitField.get w lo 8).toNat < 2 ^ 8 := fun lo =>
    BitField.toNat_get_lt w (by decide)
  cases place with
  | event =>
      have hlt := hget 0
      have heq : ((BitField.get w 0 8).toNat : ℤ) = numeralValue m := h
      omega
  | umask =>
      have hlt := hget 8
      have heq : ((BitField.get w 8 8).toNat : ℤ) = numeralValue m := h
      omega
  | threshold inv =>
      have hlt := hget 24
      have heq : ((BitField.get w 24 8).toNat : ℤ) = numeralValue m := h.1
      omega

/-- **Numbers are kept exactly where they fit.** -/
theorem numerals_kept_iff (evstr : String) :
    NumeralsKept (cstr evstr) ↔ NumeralsFit (cstr evstr) := by
  constructor
  · intro hkept star ev um rest e hshape hbyte
    have haccept : phPmuParseCfg (cstr evstr) ≠ 0 :=
      phPmuParseCfg_ne_zero_iff.mpr ⟨star, ev, um, rest, e, hshape, hbyte⟩
    have hencodes : ∀ place m, Written (cstr evstr) place m →
        0 ≤ numeralValue m ∧ numeralValue m ≤ 255 := fun place m hwritten =>
      ((hkept place m hwritten).1 haccept).byte
    refine ⟨fun hev => ?_, fun hum => ?_, fun inv m hat => ?_⟩
    · exact (hencodes .event ev ⟨hev, star, um ++ rest, hshape.star, hshape.eq⟩).1
    · exact (hencodes .umask um ⟨hum, star, ev, rest, e, hshape⟩).1
    · exact (hencodes (.threshold inv) m ⟨star, ev, um, rest, e, hshape, hat⟩).2
  · intro hfit place m hwritten
    refine ⟨fun haccept => hfit.encodes haccept hwritten, fun hbig => ?_⟩
    by_contra haccept
    have hbyte := (hfit.encodes haccept hwritten).byte
    omega

/-- A threshold of 256 is accepted as one of 0. -/
theorem large_threshold_accepted :
    phPmuParseCfg (cstr "inst_retired.any_p>=256") = 0x004100C0 ∧
      ¬ NumeralsKept (cstr "inst_retired.any_p>=256") := by
  have haccept : phPmuParseCfg (cstr "inst_retired.any_p>=256") = 0x004100C0 := by decide +kernel
  have hwritten : Written (cstr "inst_retired.any_p>=256") (.threshold false) "256".toList :=
    ⟨[], "inst_retired".toList, "any_p".toList, ">=256".toList, ⟨0xC0, 189, "inst_retired"⟩,
      { eq := by decide
        star := .inl rfl
        mem := by decide
        event := .inl rfl
        umask := .inl ⟨⟨0x00, "any_p"⟩, by decide, rfl⟩
        ends := rfl },
      [], rfl, by decide, by decide, by decide⟩
  refine ⟨haccept, fun hkept => ?_⟩
  have hzero := (hkept _ _ hwritten).2 (by decide)
  rw [haccept] at hzero
  exact absurd hzero (by decide)

end EvtX86

end PerfHound
