/-
# Event strings that mean the same

The parser does not see the case of letters, and it does not see in which order, in which
case and how often the mode letters are written. Both are one fact about strings that are
alike up to the first colon and have mode letters of one meaning behind it: they have the
same shapes, up to the spelling of the parts, and so they have one word.
-/

import PerfHound.Lib.Alike
import PerfHound.Probe.EvtAccept

namespace PerfHound

open Lib CText

namespace EvtX86

variable {s t star ev um rest rest' : List Char} {e : PhEvent}

/-! ## Mode letters -/

theorem tolower_eq_iff {c d e : Char} (hd : 97 ≤ d.toNat ∧ d.toNat ≤ 122)
    (he : e.toNat + 32 = d.toNat) : tolower c = d ↔ c = e ∨ c = d := by
  rw [← Char.toNat_inj, ← Char.toNat_inj, ← Char.toNat_inj, toNat_tolower]
  split <;> omega

/-- One letter of the modes, as `scanModes` reads it. -/
theorem scanModes_cons (c : Char) (s : List Char) (m : Modes) :
    scanModes (c :: s) m =
      if tolower c = 'a' then scanModes s { m with anythread := 1 }
      else if tolower c = 'u' then scanModes s { m with user := 1 }
      else if tolower c = 'k' then scanModes s { m with os := 1 }
      else m := by
  rw [scanModes]
  simp only [tolower_eq_iff (d := 'a') (e := 'A') (by decide) (by decide),
    tolower_eq_iff (d := 'u') (e := 'U') (by decide) (by decide),
    tolower_eq_iff (d := 'k') (e := 'K') (by decide) (by decide)]

/-- The modes that mode letters set: each letter its own, wherever it stands. -/
theorem scanModes_eq {letters : List Char} (h : ∀ c ∈ letters, c ∈ modeLetters) (m : Modes) :
    scanModes letters m =
      { anythread := if 'a' ∈ letters.map tolower then 1 else m.anythread
        user := if 'u' ∈ letters.map tolower then 1 else m.user
        os := if 'k' ∈ letters.map tolower then 1 else m.os } := by
  induction letters generalizing m with
  | nil => rfl
  | cons c letters ih =>
      have hc : tolower c = 'a' ∨ tolower c = 'u' ∨ tolower c = 'k' := by
        have hmem := h c List.mem_cons_self
        simp only [modeLetters, List.mem_cons, List.not_mem_nil, or_false] at hmem
        rcases hmem with rfl | rfl | rfl | rfl | rfl | rfl <;> decide
      have hrest := ih fun d hd => h d (List.mem_cons_of_mem _ hd)
      rw [scanModes_cons, List.map_cons, hrest, hrest, hrest]
      rcases hc with hc | hc | hc
      · simp [hc]
      · simp [hc]
      · simp [hc]

/-! ## Alike event strings -/

/-- What stands behind the colon sets the same modes. -/
def SameModes (s t : List Char) : Prop := scanModes s ⟨0, 0, 0⟩ = scanModes t ⟨0, 0, 0⟩

/-- Event strings that differ in the case of letters and in how the modes are written. -/
abbrev AlikeEvents : List Char → List Char → Prop := Alike ':' SameModes

theorem separator_colon : Separator ':' := plain_of_special (by decide)

theorem colon_not_mem {a : List Char} (h : ∀ c ∈ a, special c = false) : ':' ∉ a := by
  intro hmem
  exact absurd (h ':' hmem) (by decide)

/-- Mode letters are read without their case, and the scan stops at a colon. -/
theorem scanModes_alike (h : AlikeEvents s t) (m : Modes) : scanModes s m = scanModes t m := by
  induction h generalizing m with
  | nil => rfl
  | cons hhead _ ih => rw [scanModes_cons, scanModes_cons, hhead, ih, ih, ih]
  | stop _ => rfl

/-- A numeral in letters of the other case is the same numeral. -/
theorem isNumeral_congr {m n : List Char} (h : SameCase m n) (hm : IsNumeral m) :
    IsNumeral n ∧ (strtoull n).1 = (strtoull m).1 := by
  obtain ⟨hvalue, hrest⟩ := (h.alike (r := SameModes)).strtoull_eq separator_colon
  rw [hm.2] at hrest
  refine ⟨⟨?_, ?_⟩, hvalue.symm⟩
  · rintro rfl
    exact hm.1 (List.eq_nil_of_length_eq_zero h.length_eq)
  · generalize (strtoull n).2 = w at hrest
    cases hrest
    rfl

theorem EventText.congr {ev' : List Char} (h : EventText e ev) (hev : SameCase ev ev') :
    EventText e ev' := by
  rcases h with hname | ⟨hnumeral, hvalue⟩
  · exact .inl (hev.symm.trans hname)
  · obtain ⟨hnumeral', hvalue'⟩ := isNumeral_congr hev hnumeral
    exact .inr ⟨hnumeral', hvalue'.trans hvalue⟩

theorem UmaskText.congr {um' : List Char} (h : UmaskText e um) (hum : SameCase um um') :
    UmaskText e um' := by
  rcases h with ⟨u, hu, hname⟩ | hnumeral | rfl
  · exact .inl ⟨u, hu, hum.symm.trans hname⟩
  · exact .inr (.inl (isNumeral_congr hum hnumeral).1)
  · exact .inr (.inr (List.eq_nil_of_length_eq_zero hum.length_eq.symm))

theorem umaskValue_congr {um' : List Char} (hum : SameCase um um') :
    umaskValue e um' = umaskValue e um := by
  have hvalue := ((hum.alike (r := SameModes)).strtoull_eq separator_colon).1
  have hsearch : (e.umaskRows.find? fun u => decide (SameCase um' u.chars)) =
      e.umaskRows.find? fun u => decide (SameCase um u.chars) := by
    refine List.find?_congr fun u _ => ?_
    exact decide_eq_decide.mpr ⟨hum.trans, hum.symm.trans⟩
  rw [umaskValue, umaskValue, hsearch, hvalue]

theorem isdigit_tolower (c : Char) : isdigit (tolower c) = isdigit c := by
  rw [Bool.eq_iff_iff, isdigit_iff, isdigit_iff, toNat_tolower]
  split
  · grind
  · rfl

/-- A sign of two characters. -/
theorem atLeast_alike (h : AlikeEvents rest rest') :
    (charAt rest 0 == '>' && charAt rest 1 == '=') =
        (charAt rest' 0 == '>' && charAt rest' 1 == '=') ∧
      ((charAt rest 0 == '>' && charAt rest 1 == '=') = true →
        AlikeEvents (rest.drop 2) (rest'.drop 2)) := by
  obtain ⟨hfirst, hdrop⟩ := h.expect (c := '>') (by decide) (tolower_beq (by decide))
  rw [charAt_eq_drop rest 1, charAt_eq_drop rest' 1, ← hfirst]
  cases hgt : charAt rest 0 == '>' with
  | false => exact ⟨rfl, fun h => absurd h Bool.false_ne_true⟩
  | true =>
      obtain ⟨hsecond, hdrop'⟩ :=
        (hdrop hgt).expect (c := '=') (by decide) (tolower_beq (by decide))
      rw [List.drop_drop, List.drop_drop] at hdrop'
      rw [Bool.true_and, Bool.true_and]
      exact ⟨hsecond, hdrop'⟩

theorem umaskEnds_alike (h : AlikeEvents rest rest') : umaskEnds rest = umaskEnds rest' := by
  have htest : ∀ c, ¬ (65 ≤ c.toNat ∧ c.toNat ≤ 90) ∧ ¬ (97 ≤ c.toNat ∧ c.toNat ≤ 122) →
      (charAt rest 0 == c) = (charAt rest' 0 == c) := fun c hc =>
    h.test_head (p := (· == c)) (tolower_beq hc)
  rw [umaskEnds, umaskEnds, (atLeast_alike h).1, htest nul (by decide), htest '<' (by decide),
    htest ':' (by decide)]

/-- A digit behind a sign. -/
theorem digit_alike {a b : Bool} {u v : List Char} (hsign : a = b)
    (hdrop : a = true → AlikeEvents u v) :
    (a && isdigit (charAt u 0)) = (b && isdigit (charAt v 0)) := by
  subst hsign
  cases a with
  | false => rfl
  | true => exact (hdrop rfl).test_head isdigit_tolower

/-- A threshold is read the same, and alike rests are left. -/
theorem parseThreshold_alike (h : AlikeEvents rest rest') :
    (parseThreshold rest).1 = (parseThreshold rest').1 ∧
      (parseThreshold rest).2.1 = (parseThreshold rest').2.1 ∧
      AlikeEvents (parseThreshold rest).2.2 (parseThreshold rest').2.2 := by
  obtain ⟨hmore, hdrop⟩ := atLeast_alike h
  obtain ⟨hless, hdrop'⟩ := h.expect (c := '<') (by decide) (tolower_beq (by decide))
  have hmore' := digit_alike hmore hdrop
  have hless' := digit_alike hless hdrop'
  rw [← charAt_eq_drop, ← charAt_eq_drop] at hmore' hless'
  unfold parseThreshold
  rw [← hmore', ← hless']
  split
  · next hif =>
      have hboth := (Bool.and_eq_true_iff.mp hif).1
      obtain ⟨hvalue, hleft⟩ := (hdrop hboth).strtoull_eq separator_colon
      simp only [hvalue]
      exact ⟨trivial, trivial, hleft⟩
  · split
    · next hif =>
        have hboth := (Bool.and_eq_true_iff.mp hif).1
        obtain ⟨hvalue, hleft⟩ := (hdrop' hboth).strtoull_eq separator_colon
        simp only [hvalue]
        exact ⟨trivial, trivial, hleft⟩
    · exact ⟨rfl, rfl, h⟩

theorem parseModes_alike (h : AlikeEvents rest rest') : parseModes rest = parseModes rest' := by
  have hcolon : (charAt rest 0 == ':') = (charAt rest' 0 == ':') :=
    h.test_head (p := (· == ':')) (tolower_beq (by decide))
  unfold parseModes
  rw [← hcolon]
  split
  · cases h with
    | nil => rfl
    | cons _ hrest => exact scanModes_alike hrest _
    | stop hmodes => exact hmodes
  · rfl

/-- Alike strings have the same shapes, up to the spelling of the parts. -/
theorem Shape.alike (h : Shape s star ev um rest e) (halike : AlikeEvents s t) :
    ∃ ev' um' rest', Shape t star ev' um' rest' e ∧ umaskValue e um' = umaskValue e um ∧
      AlikeEvents rest rest' := by
  rw [h.eq] at halike
  have hstar : ':' ∉ star := by
    rcases h.star with hnil | hone
    · rw [hnil]
      exact List.not_mem_nil
    · rw [hone]
      decide
  obtain ⟨star', _, rfl, hsame, hw⟩ := halike.split hstar
  obtain ⟨ev', _, rfl, hev, hw⟩ :=
    hw.split (colon_not_mem fun c hc => h.event.not_special h.mem hc)
  obtain ⟨dot, _, rfl, hdot, hw⟩ := hw.cons_inv (by decide)
  obtain ⟨um', rest', rfl, hum, hrest⟩ :=
    hw.split (colon_not_mem fun c hc => h.umask.not_special h.mem hc)
  obtain rfl : dot = '.' := by
    have hcase := tolower_beq (d := '.') (by decide) dot
    rw [← hdot] at hcase
    exact beq_iff_eq.mp hcase.symm
  obtain rfl : star' = star := by
    rcases h.star with rfl | rfl
    · exact List.eq_nil_of_length_eq_zero hsame.length_eq.symm
    · obtain ⟨c, rfl⟩ := List.length_eq_one_iff.mp hsame.length_eq.symm
      have hcase := tolower_beq (d := '*') (by decide) c
      rw [← (List.cons.inj hsame).1] at hcase
      rw [beq_iff_eq.mp hcase.symm]
  exact ⟨ev', um', rest',
    { eq := rfl
      star := h.star
      mem := h.mem
      event := h.event.congr hev
      umask := h.umask.congr hum
      ends := umaskEnds_alike hrest ▸ h.ends },
    umaskValue_congr hum, hrest⟩

/-- Alike strings have one word. -/
theorem phPmuParseCfg_alike (h : AlikeEvents s t) : phPmuParseCfg s = phPmuParseCfg t := by
  have hshape : ∀ {s t : List Char}, AlikeEvents s t → phPmuParseCfg s ≠ 0 →
      phPmuParseCfg s = phPmuParseCfg t := by
    intro s t halike haccept
    obtain ⟨star, ev, um, rest, e, hs, -⟩ := exists_shape haccept
    obtain ⟨ev', um', rest', ht, hvalue, hrest⟩ := hs.alike halike
    obtain ⟨hinv, hcmask, hleft⟩ := parseThreshold_alike hrest
    rw [hs.phPmuParseCfg_eq, ht.phPmuParseCfg_eq, shapeWord, shapeWord, hvalue, hinv, hcmask,
      parseModes_alike hleft]
  by_cases hs : phPmuParseCfg s = 0
  · by_cases ht : phPmuParseCfg t = 0
    · rw [hs, ht]
    · exact (hshape (h.symm.mono fun _ _ hmodes => Eq.symm hmodes) ht).symm
  · exact hshape h hs

/-! ## Case and order -/

/-- Mode letters that are the same set, in whatever case, order and number. -/
structure SameLetters (letters letters' : List Char) : Prop where
  left : ∀ c ∈ letters, c ∈ modeLetters
  right : ∀ c ∈ letters', c ∈ modeLetters
  mem_iff : ∀ c, c ∈ letters.map tolower ↔ c ∈ letters'.map tolower

/-- **Neither the case of letters nor the order of the modes matters.** -/
theorem case_order_blind :
    (∀ s t : List Char, SameCase s t → phPmuParseCfg s = phPmuParseCfg t) ∧
      ∀ front letters letters' : List Char, SameLetters letters letters' →
        phPmuParseCfg (front ++ ':' :: letters) = phPmuParseCfg (front ++ ':' :: letters') := by
  refine ⟨fun s t hsame => phPmuParseCfg_alike hsame.alike, fun front letters letters' h => ?_⟩
  refine phPmuParseCfg_alike (alike_behind front ?_)
  simp only [SameModes, scanModes_eq h.left, scanModes_eq h.right, h.mem_iff]

theorem case_order_blind_inst_retired :
    phPmuParseCfg "*Inst_Retired.0xFf>=0X1f:uKA".toList =
        phPmuParseCfg "*iNST_rETIRED.0XfF>=0x1F:UkA".toList ∧
      phPmuParseCfg ("l2_rqsts.miss".toList ++ ':' :: "ukU".toList) =
        phPmuParseCfg ("l2_rqsts.miss".toList ++ ':' :: "Ku".toList) := by
  have hleft : "ukU".toList.map tolower = ['u', 'k', 'u'] := by decide
  have hright : "Ku".toList.map tolower = ['k', 'u'] := by decide
  have hfirst : "ukU".toList = ['u', 'k', 'U'] := by decide
  have hsecond : "Ku".toList = ['K', 'u'] := by decide
  refine ⟨case_order_blind.1 _ _ (by decide), case_order_blind.2 _ _ _ ⟨?_, ?_, ?_⟩⟩
  · simp [hfirst, modeLetters]
  · simp [hsecond, modeLetters]
  intro c
  rw [hleft, hright]
  simp only [List.mem_cons, List.not_mem_nil, or_false]
  tauto

end EvtX86

end PerfHound
