/-
# The shape of an event string

What the event parser makes of a string, without its loops: a star or none, an event, a
dot, a unit mask, and a rest that is empty or begins with `<`, `>=` or `:`. A string has
at most one such shape. The parser accepts a string exactly when it has a shape whose
unit mask fits a byte, and the shape determines the word.
-/

import PerfHound.Lib.Numeral
import PerfHound.Probe.EvtX86
import Mathlib.Data.List.Find
import Mathlib.Data.List.Nodup

namespace PerfHound

open Lib CText

namespace EvtX86

variable {s star ev um rest : List Char} {e : PhEvent}

/-! ## The names in the tables -/

/-- The characters of the names. -/
def nameChar (c : Char) : Bool := isdigit c || ('a' ≤ c && c ≤ 'z') || c == '_'

/-- A name begins with a letter. -/
def wellNamed (name : List Char) : Bool :=
  (match name with
    | [] => false
    | c :: _ => 'a' ≤ c && c ≤ 'z') && name.all nameChar

theorem wellNamed_tables :
    (eventList.all fun e => wellNamed e.name.toList &&
      e.umaskRows.all fun u => wellNamed u.chars) = true := by decide +kernel

theorem wellNamed_event (he : e ∈ eventList) : wellNamed e.name.toList = true :=
  (Bool.and_eq_true_iff.mp (List.all_eq_true.mp wellNamed_tables e he)).1

theorem wellNamed_umask (he : e ∈ eventList) {u : PhUmask} (hu : u ∈ e.umaskRows) :
    wellNamed u.chars = true :=
  List.all_eq_true.mp (Bool.and_eq_true_iff.mp (List.all_eq_true.mp wellNamed_tables e he)).2 u hu

/-- No two events have one name or one number. -/
theorem nodup_names : (eventList.map PhEvent.name).Nodup := by decide +kernel

theorem nodup_evtNums : (eventList.map PhEvent.evtNum).Nodup := by decide +kernel

/-! ## Shapes -/

/-- The text of an event: its name, in letters of either case, or a numeral. -/
def EventText (e : PhEvent) (ev : List Char) : Prop :=
  SameCase ev e.name.toList ∨ (IsNumeral ev ∧ (strtoull ev).1 = e.evtNum)

/-- The text of a unit mask: a name of the event, a numeral, or nothing. -/
def UmaskText (e : PhEvent) (um : List Char) : Prop :=
  (∃ u ∈ e.umaskRows, SameCase um u.chars) ∨ IsNumeral um ∨ um = []

/-- The string is made of these parts. -/
structure Shape (s star ev um rest : List Char) (e : PhEvent) : Prop where
  eq : s = star ++ (ev ++ '.' :: (um ++ rest))
  star : star = [] ∨ star = ['*']
  mem : e ∈ eventList
  event : EventText e ev
  umask : UmaskText e um
  ends : umaskEnds rest = true

/-- The value of a unit mask text: the first row of that name, or else a number. -/
def umaskValue (e : PhEvent) (um : List Char) : U64 :=
  match e.umaskRows.find? fun u => decide (SameCase um u.chars) with
  | some u => u.umaskVal
  | none => (strtoull um).1

def shapeWord (star um rest : List Char) (e : PhEvent) : U64 :=
  cfgWord (parseThreshold rest).2.1 (parseThreshold rest).1 (if star = [] then 0 else 1)
    (umaskValue e um) e.evtNum (parseModes (parseThreshold rest).2.2)

/-! ## The characters of the parts -/

theorem nul_not_mem_cstr (evstr : String) : nul ∉ cstr evstr := by
  intro hmem
  have hne := List.mem_takeWhile_imp hmem
  rw [decide_eq_true_eq] at hne
  exact hne rfl

/-- The characters that may stand behind a unit mask. -/
def isEnd (c : Char) : Bool := c == nul || c == '<' || c == '>' || c == ':'

/-- The characters that no name and no numeral has. -/
def special (c : Char) : Bool := isEnd c || c == '.' || c == '*'

theorem isEnd_tolower (c : Char) : isEnd (tolower c) = isEnd c := by
  simp only [isEnd]
  rw [tolower_beq (by decide), tolower_beq (by decide), tolower_beq (by decide),
    tolower_beq (by decide)]

theorem special_tolower (c : Char) : special (tolower c) = special c := by
  rw [special, isEnd_tolower, tolower_beq (by decide), tolower_beq (by decide)]
  rfl

theorem special_cases {c : Char} (h : special c = true) :
    c ∈ [nul, '<', '>', ':', '.', '*'] := by
  simp only [special, isEnd, Bool.or_eq_true, beq_iff_eq] at h
  simp only [List.mem_cons, List.not_mem_nil, or_false]
  tauto

theorem isEnd_eq_false {c : Char} (h : special c = false) : isEnd c = false := by
  simp only [special, Bool.or_eq_false_iff] at h
  exact h.1.1

/-- No numeral has or continues with a special character. -/
theorem plain_of_special {c : Char} (h : special c = true) :
    digitValue c = 36 ∧ isspace c = false ∧ c ≠ '-' ∧ c ≠ '+' := by
  have hall : [nul, '<', '>', ':', '.', '*'].all (fun d =>
      digitValue d == 36 && !isspace d && d != '-' && d != '+') = true := by decide
  have hplain := List.all_eq_true.mp hall c (special_cases h)
  simp only [Bool.and_eq_true, beq_iff_eq, Bool.not_eq_true', bne_iff_ne] at hplain
  exact ⟨hplain.1.1.1, hplain.1.1.2, hplain.1.2, hplain.2⟩

theorem not_special_nameChar {c : Char} (h : nameChar c = true) : special c = false := by
  have hall : [nul, '<', '>', ':', '.', '*'].all (fun d => !nameChar d) = true := by decide
  refine Bool.eq_false_iff.mpr fun hspecial => ?_
  have hnot := List.all_eq_true.mp hall c (special_cases hspecial)
  rw [h] at hnot
  cases hnot

theorem tolower_nameChar {c : Char} (h : nameChar c = true) : tolower c = c := by
  rw [← Char.toNat_inj, toNat_tolower]
  simp only [nameChar, Bool.or_eq_true, Bool.and_eq_true, decide_eq_true_eq, isdigit_iff,
    beq_iff_eq, Char.le_def, UInt32.le_iff_toNat_le] at h
  refine if_neg fun hupper => ?_
  rcases h with (hdigit | ⟨hletter, -⟩) | rfl
  · omega
  · exact absurd (hletter.trans hupper.2) (by decide)
  · exact absurd hupper (by decide)

section WellNamed

variable {text name : List Char} (hname : wellNamed name = true)

include hname

theorem nameChar_of_mem {c : Char} (hc : c ∈ name) : nameChar c = true :=
  List.all_eq_true.mp (Bool.and_eq_true_iff.mp hname).2 c hc

/-- A name is spelled in lower case. -/
theorem tolower_wellNamed : name.map tolower = name :=
  (List.map_congr_left fun _ hc => tolower_nameChar (nameChar_of_mem hname hc)).trans
    (List.map_id _)

theorem nul_not_mem : nul ∉ name := by
  intro hmem
  exact absurd (not_special_nameChar (nameChar_of_mem hname hmem)) (by decide)

theorem not_special_of_sameCase (h : SameCase text name) {c : Char} (hc : c ∈ text) :
    special c = false := by
  have hlower : tolower c ∈ name.map tolower := by
    rw [← show _ = name.map tolower from h]
    exact List.mem_map_of_mem hc
  rw [tolower_wellNamed hname] at hlower
  rw [← special_tolower]
  exact not_special_nameChar (nameChar_of_mem hname hlower)

end WellNamed

theorem not_special_of_isNumeral {m : List Char} (hm : IsNumeral m) {c : Char} (hc : c ∈ m) :
    special c = false := by
  refine Bool.eq_false_iff.mpr fun hspecial => ?_
  obtain ⟨hdigit, hspace, hminus, hplus⟩ := plain_of_special hspecial
  rcases hm.mem hc with h | h | h | h
  · rw [hspace] at h
    cases h
  · exact hminus h
  · exact hplus h
  · omega

theorem EventText.not_special (he : e ∈ eventList) (h : EventText e ev) {c : Char} (hc : c ∈ ev) :
    special c = false := by
  rcases h with hname | ⟨hnumeral, _⟩
  · exact not_special_of_sameCase (wellNamed_event he) hname hc
  · exact not_special_of_isNumeral hnumeral hc

theorem UmaskText.not_special (he : e ∈ eventList) (h : UmaskText e um) {c : Char} (hc : c ∈ um) :
    special c = false := by
  rcases h with ⟨u, hu, hname⟩ | hnumeral | rfl
  · exact not_special_of_sameCase (wellNamed_umask he hu) hname hc
  · exact not_special_of_isNumeral hnumeral hc
  · exact absurd hc List.not_mem_nil

/-- No name reads as a numeral. -/
theorem not_isNumeral_of_sameCase {text name : List Char} (hname : wellNamed name = true)
    (h : SameCase text name) : ¬ IsNumeral text := by
  intro hnumeral
  obtain ⟨c, w, rfl, hhead⟩ := hnumeral.head
  cases name with
  | nil => cases hname
  | cons d name =>
      simp only [SameCase, List.map_cons, List.cons.injEq] at h
      simp only [wellNamed, Bool.and_eq_true, decide_eq_true_eq, Char.le_def,
        UInt32.le_iff_toNat_le] at hname
      have hd : 97 ≤ d.toNat ∧ d.toNat ≤ 122 := hname.1
      have hcode := congrArg Char.toNat h.1
      rw [toNat_tolower, toNat_tolower,
        if_neg (by omega : ¬ (65 ≤ d.toNat ∧ d.toNat ≤ 90))] at hcode
      have hletter : 65 ≤ c.toNat ∧ c.toNat ≤ 122 := by
        split at hcode <;> omega
      rcases hhead with hc | rfl | rfl | hc
      · have := (isspace_iff c).mp hc
        omega
      · exact absurd hletter (by decide)
      · exact absurd hletter (by decide)
      · have := (isdigit_iff c).mp hc
        omega

theorem not_dot {c : Char} (h : special c = false) : (c == '.') = false := by
  simp only [special, Bool.or_eq_false_iff] at h
  exact h.1.2

/-- A star is the star in front, never the beginning of an event. -/
theorem ne_star (hev : ∀ c ∈ ev, special c = false) (r w : List Char) :
    ev ++ '.' :: r ≠ '*' :: w := by
  intro heq
  cases ev with
  | nil => exact absurd (List.cons.inj heq).1 (by decide)
  | cons c v =>
      have hc := hev c List.mem_cons_self
      rw [(List.cons.inj heq).1] at hc
      exact absurd hc (by decide)

/-- The star and the event of a string are found by the characters they do not have. -/
theorem head_unique {star' ev' r r' : List Char} (hstar : star = [] ∨ star = ['*'])
    (hstar' : star' = [] ∨ star' = ['*']) (hev : ∀ c ∈ ev, special c = false)
    (hev' : ∀ c ∈ ev', special c = false)
    (h : star ++ (ev ++ '.' :: r) = star' ++ (ev' ++ '.' :: r')) :
    star = star' ∧ ev = ev' ∧ r = r' := by
  obtain ⟨rfl, hbody⟩ : star = star' ∧ ev ++ '.' :: r = ev' ++ '.' :: r' := by
    rcases hstar with rfl | rfl <;> rcases hstar' with rfl | rfl
    · exact ⟨rfl, h⟩
    · exact absurd h (ne_star hev _ _)
    · exact absurd h.symm (ne_star hev' _ _)
    · exact ⟨rfl, (List.cons.inj h).2⟩
  have hstop : ∀ {r : List Char} c w, '.' :: r = c :: w → (c == '.') = true := by
    intro r c w hcw
    rw [← (List.cons.inj hcw).1]
    rfl
  obtain ⟨rfl, htail⟩ := append_stop_inj (· == '.') (fun c hc => not_dot (hev c hc))
    (fun c hc => not_dot (hev' c hc)) hstop hstop hbody
  exact ⟨rfl, rfl, (List.cons.inj htail).2⟩

/-- What a rest begins with. -/
theorem isEnd_of_umaskEnds {c : Char} {w : List Char} (h : umaskEnds rest = true)
    (hrest : rest = c :: w) : isEnd c = true := by
  subst hrest
  have hat : charAt (c :: w) 0 = c := rfl
  simp only [umaskEnds, hat, Bool.or_eq_true, Bool.and_eq_true] at h
  simp only [isEnd, Bool.or_eq_true]
  tauto

/-! ## The parser finds the parts -/

theorem parseEdge_eq {t : List Char} (hstar : star = [] ∨ star = ['*'])
    (ht : ∀ w, t ≠ '*' :: w) :
    parseEdge (star ++ t) = (if star = [] then 0 else 1, t) := by
  rcases hstar with rfl | rfl
  · have hfirst : ¬ (charAt ([] ++ t) 0 == '*') = true := by
      intro h
      obtain ⟨w, hw⟩ := exists_of_charAt (beq_iff_eq.mp h) (by decide)
      exact ht w hw
    rw [parseEdge, if_neg hfirst, if_pos rfl]
    rfl
  · rfl

/-- The table search in front of a dot. -/
theorem eventMatches_iff {e' : PhEvent} (he' : e' ∈ eventList) (hev : ∀ c ∈ ev, special c = false)
    (r : List Char) :
    (strncasecmp (ev ++ '.' :: r) e'.name.toList e'.name.length == 0 &&
      charAt (ev ++ '.' :: r) e'.name.length == '.') = true ↔ SameCase ev e'.name.toList := by
  have hname : ∀ c ∈ e'.name.toList, (c == '.') = false ∧ c ≠ nul := by
    intro c hc
    have hchar := not_special_nameChar (nameChar_of_mem (wellNamed_event he') hc)
    refine ⟨not_dot hchar, ?_⟩
    rintro rfl
    exact absurd hchar (by decide)
  have hfront := strncasecmp_front_iff (· == '.') ('.' :: r)
    (tolower_beq (by decide)) (fun c hc => not_dot (hev c hc))
    (fun c w h => by rw [← (List.cons.inj h).1]; rfl) hname
  rw [← hfront, String.length_toList, Bool.and_eq_true, beq_iff_eq, beq_iff_eq]
  refine and_congr_right fun hcmp => ?_
  constructor
  · intro hat c w hdrop
    obtain ⟨v, hv⟩ := exists_of_charAt hat (by decide)
    rw [hv] at hdrop
    rw [← (List.cons.inj hdrop).1]
    rfl
  · intro hbehind
    have hsame := hfront.mp ⟨by rw [String.length_toList]; exact hcmp,
      by rw [String.length_toList]; exact hbehind⟩
    have hlength : e'.name.length = ev.length := by
      rw [← String.length_toList]
      exact hsame.length_eq.symm
    rw [hlength, charAt_eq_drop, List.drop_left]
    rfl

theorem event_eq_of_sameCase {e e' : PhEvent} (he : e ∈ eventList) (he' : e' ∈ eventList)
    (h : SameCase ev e.name.toList) (h' : SameCase ev e'.name.toList) : e = e' := by
  have hlower : e.name.toList.map tolower = e'.name.toList.map tolower := h.symm.trans h'
  rw [tolower_wellNamed (wellNamed_event he), tolower_wellNamed (wellNamed_event he')] at hlower
  exact List.inj_on_of_nodup_map nodup_names he he' (String.toList_injective hlower)

theorem event_eq_of_evtNum {e e' : PhEvent} (he : e ∈ eventList) (he' : e' ∈ eventList)
    (h : e.evtNum = e'.evtNum) : e = e' :=
  List.inj_on_of_nodup_map nodup_evtNums he he' h

/-- A search that only one row satisfies finds it. -/
theorem find?_eq_of_unique {p : PhEvent → Bool} (he : e ∈ eventList)
    (h : ∀ e' ∈ eventList, p e' = true ↔ e' = e) : eventList.find? p = some e := by
  cases hfind : eventList.find? p with
  | none => exact absurd ((h e he).mpr rfl) (List.find?_eq_none.mp hfind e he)
  | some e' =>
      have hmem := List.mem_of_find?_eq_some hfind
      rw [(h e' hmem).mp (List.find?_some hfind)]

theorem parseEvent_eq (he : e ∈ eventList) (h : EventText e ev) (r : List Char) :
    parseEvent (ev ++ '.' :: r) = some (e, r) := by
  have hchars : ∀ c ∈ ev, special c = false := fun c hc => h.not_special he hc
  unfold parseEvent
  rcases h with hname | ⟨hnumeral, hvalue⟩
  · have hfind := find?_eq_of_unique (p := fun e' =>
        strncasecmp (ev ++ '.' :: r) e'.name.toList e'.name.length == 0 &&
          charAt (ev ++ '.' :: r) e'.name.length == '.') he fun e' he' =>
      (eventMatches_iff he' hchars r).trans
        ⟨fun h' => event_eq_of_sameCase he' he h' hname, fun heq => heq ▸ hname⟩
    have hlength : e.name.length + 1 = (ev ++ ['.']).length := by
      rw [List.length_append, ← String.length_toList, hname.length_eq]
      rfl
    simp only [hfind]
    rw [hlength, List.append_cons ev '.' r, List.drop_left]
  · have hnone : (eventList.find? fun e' =>
        strncasecmp (ev ++ '.' :: r) e'.name.toList e'.name.length == 0 &&
          charAt (ev ++ '.' :: r) e'.name.length == '.') = none := by
      refine List.find?_eq_none.mpr fun e' he' hmatch => ?_
      have hsame := (eventMatches_iff he' hchars r).mp hmatch
      exact not_isNumeral_of_sameCase (wellNamed_event he') hsame hnumeral
    have hread : strtoull (ev ++ '.' :: r) = (e.evtNum, '.' :: r) := by
      rw [hnumeral.strtoull_append, hvalue]
      intro c w hcw
      rw [← (List.cons.inj hcw).1]
      decide
    have hdot : charAt ('.' :: r) 0 = '.' := rfl
    have hbyte : ¬ (charAt ('.' :: r) 0 ≠ '.' ∨ e.evtNum > 0xFF) := by
      rintro (h | h)
      · exact h hdot
      · exact absurd h (BitVec.not_lt.mpr (evtNum_le e he))
    have hfind := find?_eq_of_unique (p := fun e' => e'.evtNum == e.evtNum) he fun e' he' => by
      rw [beq_iff_eq]
      exact ⟨event_eq_of_evtNum he' he, fun heq => heq ▸ rfl⟩
    simp only [hnone, hread, if_neg hbyte, hfind]
    rfl

/-- The unit mask search in front of a rest. -/
theorem umaskMatches_iff (he : e ∈ eventList) (hum : ∀ c ∈ um, special c = false)
    (hends : umaskEnds rest = true) {u : PhUmask} (hu : u ∈ e.umaskRows) :
    (strncasecmp (um ++ rest) u.chars u.chars.length == 0 &&
      umaskEnds ((um ++ rest).drop u.chars.length)) = true ↔ SameCase um u.chars := by
  have hname : ∀ c ∈ u.chars, isEnd c = false ∧ c ≠ nul := by
    intro c hc
    have hchar := not_special_nameChar (nameChar_of_mem (wellNamed_umask he hu) hc)
    refine ⟨isEnd_eq_false hchar, ?_⟩
    rintro rfl
    exact absurd hchar (by decide)
  have hfront := strncasecmp_front_iff isEnd rest isEnd_tolower
    (fun c hc => isEnd_eq_false (hum c hc)) (fun c w => isEnd_of_umaskEnds hends) hname
  rw [Bool.and_eq_true, beq_iff_eq]
  constructor
  · rintro ⟨hcmp, hbehind⟩
    exact hfront.mp ⟨hcmp, fun c w => isEnd_of_umaskEnds hbehind⟩
  · intro hsame
    refine ⟨(hfront.mpr hsame).1, ?_⟩
    rw [← hsame.length_eq, List.drop_left]
    exact hends

theorem parseUmask_eq (he : e ∈ eventList) (h : UmaskText e um) (hends : umaskEnds rest = true) :
    parseUmask e (um ++ rest) =
      if umaskValue e um > 0xFF then none else some (umaskValue e um, rest) := by
  have hchars : ∀ c ∈ um, special c = false := fun c hc => h.not_special he hc
  have hsearch : (e.umaskRows.find? fun u =>
      strncasecmp (um ++ rest) u.chars u.chars.length == 0 &&
        umaskEnds ((um ++ rest).drop u.chars.length)) =
      e.umaskRows.find? fun u => decide (SameCase um u.chars) := by
    refine List.find?_congr fun u hu => ?_
    rw [Bool.eq_iff_iff, umaskMatches_iff he hchars hends hu, decide_eq_true_eq]
  unfold parseUmask umaskValue
  rw [hsearch]
  cases hfind : e.umaskRows.find? fun u => decide (SameCase um u.chars) with
  | some u =>
      have hsame := List.find?_some hfind
      simp only [decide_eq_true_eq] at hsame
      have hbyte : ¬ u.umaskVal > 0xFF :=
        BitVec.not_lt.mpr (umaskRows_le e u (List.mem_of_find?_eq_some hfind))
      simp only [if_neg hbyte]
      rw [← hsame.length_eq, List.drop_left]
  | none =>
      have hread : strtoull (um ++ rest) = ((strtoull um).1, rest) := by
        have hplain : ∀ c w, rest = c :: w →
            digitValue c = 36 ∧ isspace c = false ∧ c ≠ '-' ∧ c ≠ '+' := by
          intro c w hcw
          have hend := isEnd_of_umaskEnds hends hcw
          exact plain_of_special (by rw [special, hend]; rfl)
        rcases h with ⟨u, hu, hsame⟩ | hnumeral | rfl
        · exact absurd (decide_eq_true hsame) (List.find?_eq_none.mp hfind u hu)
        · exact hnumeral.strtoull_append fun c w hcw => (hplain c w hcw).1
        · exact strtoull_of_no_digit hplain
      simp only [hread, hends, not_true_eq_false, or_false]

theorem Shape.phPmuParseCfg_eq (h : Shape s star ev um rest e) :
    phPmuParseCfg s = if umaskValue e um > 0xFF then 0 else shapeWord star um rest e := by
  have hne : s.isEmpty = false := by
    rw [List.isEmpty_eq_false_iff, h.eq]
    simp
  unfold phPmuParseCfg
  rw [hne, h.eq, parseEdge_eq h.star (ne_star (fun _ => h.event.not_special h.mem) _)]
  simp only [Bool.false_eq_true, if_false, parseEvent_eq h.mem h.event,
    parseUmask_eq h.mem h.umask h.ends]
  by_cases hbig : umaskValue e um > 0xFF
  · simp only [if_pos hbig]
  · simp only [if_neg hbig]
    rfl

/-! ## Accepted strings have a shape -/

theorem parseEdge_split (s : List Char) :
    ∃ star, (star = [] ∨ star = ['*']) ∧ s = star ++ (parseEdge s).2 := by
  unfold parseEdge
  by_cases hstar : (charAt s 0 == '*') = true
  · obtain ⟨w, hw⟩ := exists_of_charAt (beq_iff_eq.mp hstar) (by decide)
    rw [List.drop_zero] at hw
    rw [if_pos hstar, hw]
    exact ⟨['*'], .inr rfl, rfl⟩
  · rw [if_neg hstar]
    exact ⟨[], .inl rfl, rfl⟩

theorem evtNum_ne_zero (he : e ∈ eventList) : e.evtNum ≠ 0 := by
  have hall : (eventList.all fun e => e.evtNum != 0) = true := by decide +kernel
  exact bne_iff_ne.mp (List.all_eq_true.mp hall e he)

theorem parseEvent_split {t r : List Char} (h : parseEvent t = some (e, r)) :
    e ∈ eventList ∧ ∃ ev, t = ev ++ '.' :: r ∧ EventText e ev := by
  unfold parseEvent at h
  split at h
  · next e' hfind =>
      obtain ⟨rfl, rfl⟩ := Prod.mk.inj (Option.some.inj h)
      have he := List.mem_of_find?_eq_some hfind
      have hmatch := List.find?_some hfind
      have hnul := nul_not_mem (wellNamed_event he)
      rw [Bool.and_eq_true, beq_iff_eq, beq_iff_eq, ← String.length_toList,
        strncasecmp_eq_zero_iff hnul] at hmatch
      obtain ⟨w, hw⟩ := exists_of_charAt hmatch.2 (by decide)
      have hrest : t.drop (e'.name.toList.length + 1) = w := by
        rw [← List.drop_drop, hw]
        rfl
      refine ⟨he, t.take e'.name.toList.length, ?_, .inl hmatch.1⟩
      rw [← String.length_toList, hrest, ← hw, List.take_append_drop]
  · simp only at h
    split at h
    · cases h
    · next hvalid =>
        rw [not_or, not_not] at hvalid
        obtain ⟨e', hfind, heq⟩ := Option.map_eq_some_iff.mp h
        obtain ⟨rfl, rfl⟩ := Prod.mk.inj heq
        have he := List.mem_of_find?_eq_some hfind
        have hnum := List.find?_some hfind
        simp only [beq_iff_eq] at hnum
        obtain ⟨w, hw⟩ := exists_of_charAt hvalid.1 (by decide)
        rw [List.drop_zero] at hw
        obtain ⟨m, hm, hvalue, hnumeral⟩ := strtoull_split t
        rw [hw] at hm ⊢
        refine ⟨he, m, hm, .inr ⟨hnumeral.resolve_left ?_, hvalue.trans hnum.symm⟩⟩
        rintro ⟨rfl, -⟩
        exact evtNum_ne_zero he (hnum.trans hvalue.symm)

theorem parseUmask_split {r : List Char} {v : U64} (he : e ∈ eventList)
    (h : parseUmask e r = some (v, rest)) :
    ∃ um, r = um ++ rest ∧ UmaskText e um ∧ umaskEnds rest = true := by
  unfold parseUmask at h
  split at h
  · next u hfind =>
      obtain ⟨rfl, rfl⟩ := Prod.mk.inj (Option.some.inj h)
      have hu := List.mem_of_find?_eq_some hfind
      have hmatch := List.find?_some hfind
      have hnul := nul_not_mem (wellNamed_umask he hu)
      rw [Bool.and_eq_true, beq_iff_eq, strncasecmp_eq_zero_iff hnul] at hmatch
      exact ⟨r.take u.chars.length, (List.take_append_drop _ _).symm, .inl ⟨u, hu, hmatch.1⟩,
        hmatch.2⟩
  · simp only at h
    split at h
    · cases h
    · next hvalid =>
        rw [not_or, not_not] at hvalid
        obtain ⟨rfl, rfl⟩ := Prod.mk.inj (Option.some.inj h)
        obtain ⟨m, hm, _, hnumeral⟩ := strtoull_split r
        exact ⟨m, hm, .inr (hnumeral.symm.imp_right And.left), hvalid.2⟩

theorem exists_shape (h : phPmuParseCfg s ≠ 0) :
    ∃ star ev um rest e, Shape s star ev um rest e ∧ umaskValue e um ≤ 0xFF := by
  have hparse := h
  unfold phPmuParseCfg at hparse
  split at hparse
  · exact absurd rfl hparse
  · obtain ⟨star, hstar, hs⟩ := parseEdge_split s
    simp only at hparse
    cases hevent : parseEvent (parseEdge s).2 with
    | none =>
        rw [hevent] at hparse
        exact absurd rfl hparse
    | some found =>
        obtain ⟨e, r⟩ := found
        rw [hevent] at hparse
        simp only at hparse
        cases humask : parseUmask e r with
        | none =>
            rw [humask] at hparse
            exact absurd rfl hparse
        | some value =>
            obtain ⟨v, rest⟩ := value
            obtain ⟨he, ev, ht, hev⟩ := parseEvent_split hevent
            obtain ⟨um, hr, hum, hends⟩ := parseUmask_split he humask
            have hshape : Shape s star ev um rest e :=
              ⟨by rw [hs, ht, hr], hstar, he, hev, hum, hends⟩
            refine ⟨star, ev, um, rest, e, hshape, BitVec.not_lt.mp fun hbig => h ?_⟩
            rw [hshape.phPmuParseCfg_eq, if_pos hbig]

/-! ## One shape for a string -/

theorem EventText.unique {e e' : PhEvent} (he : e ∈ eventList) (he' : e' ∈ eventList)
    (h : EventText e ev) (h' : EventText e' ev) : e = e' := by
  rcases h with hname | ⟨hnumeral, hvalue⟩
  · rcases h' with hname' | ⟨hnumeral', _⟩
    · exact event_eq_of_sameCase he he' hname hname'
    · exact absurd hnumeral' (not_isNumeral_of_sameCase (wellNamed_event he) hname)
  · rcases h' with hname' | ⟨_, hvalue'⟩
    · exact absurd hnumeral (not_isNumeral_of_sameCase (wellNamed_event he') hname')
    · exact event_eq_of_evtNum he he' (hvalue.symm.trans hvalue')

theorem Shape.unique {star' ev' um' rest' : List Char} {e' : PhEvent}
    (h : Shape s star ev um rest e) (h' : Shape s star' ev' um' rest' e') :
    star = star' ∧ ev = ev' ∧ um = um' ∧ rest = rest' ∧ e = e' := by
  obtain ⟨rfl, rfl, htail⟩ := head_unique h.star h'.star
    (fun _ => h.event.not_special h.mem) (fun _ => h'.event.not_special h'.mem)
    (h.eq.symm.trans h'.eq)
  obtain rfl := h.event.unique h.mem h'.mem h'.event
  obtain ⟨rfl, rfl⟩ := append_stop_inj isEnd
    (fun c hc => isEnd_eq_false (h.umask.not_special h.mem hc))
    (fun c hc => isEnd_eq_false (h'.umask.not_special h.mem hc))
    (fun c w => isEnd_of_umaskEnds h.ends) (fun c w => isEnd_of_umaskEnds h'.ends) htail
  exact ⟨rfl, rfl, rfl, rfl, rfl⟩

theorem cfgWord_ne_zero (cmask inv edgeTriggered umaskVal evtNum : U64) (m : Modes) :
    cfgWord cmask inv edgeTriggered umaskVal evtNum m ≠ 0 := by
  intro hzero
  have henable : (cfgWord cmask inv edgeTriggered umaskVal evtNum m).getLsbD 22 = true := by
    simp [cfgWord]
  rw [hzero] at henable
  exact absurd henable (by decide)

/-- The parser accepts the strings that have a shape whose unit mask fits a byte. -/
theorem phPmuParseCfg_ne_zero_iff :
    phPmuParseCfg s ≠ 0 ↔
      ∃ star ev um rest e, Shape s star ev um rest e ∧ umaskValue e um ≤ 0xFF := by
  refine ⟨exists_shape, ?_⟩
  rintro ⟨star, ev, um, rest, e, h, hbyte⟩ hzero
  rw [h.phPmuParseCfg_eq, if_neg (BitVec.not_lt.mpr hbyte)] at hzero
  exact cfgWord_ne_zero _ _ _ _ _ _ hzero

end EvtX86

end PerfHound
