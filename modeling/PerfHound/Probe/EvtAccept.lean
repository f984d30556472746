/-
# Which strings the event parser accepts

An event string is a star or none, an event, a dot, a unit mask, a threshold or none, and
mode letters behind a colon or none. The parser accepts all of these with a unit mask that
fits a byte. But behind the dot it also takes nothing for a unit mask, and it does not
look at where it stopped: a threshold without a number is left where it is, and so is any
text behind the number of a threshold or behind the mode letters.

What is left over is described on the string alone (`Ragged`), so the strings on which the
parser is as strict as the grammar are exactly those that cannot be cut that way.
-/

import PerfHound.Probe.EvtGrammar

namespace PerfHound

open Lib CText

namespace EvtX86

variable {s star ev um rest : List Char} {e : PhEvent}

/-! ## Event strings -/

/-- The two signs of a threshold. -/
def Sign (op : List Char) : Prop := op = ['<'] ∨ op = ['>', '=']

/-- A threshold: a sign and a number. -/
def Threshold (th : List Char) : Prop :=
  ∃ op m, Sign op ∧ th = op ++ m ∧ IsNumeral m ∧ isdigit (charAt m 0) = true

def modeLetters : List Char := ['a', 'A', 'u', 'U', 'k', 'K']

/-- The modes: a colon and letters, or nothing. -/
def ModesText (md : List Char) : Prop :=
  md = [] ∨ ∃ letters, md = ':' :: letters ∧ ∀ c ∈ letters, c ∈ modeLetters

/-- What may follow a unit mask: a threshold or none, and modes or none. -/
def Ending (rest : List Char) : Prop :=
  ∃ th md, rest = th ++ md ∧ (th = [] ∨ Threshold th) ∧ ModesText md

def EventString (s : List Char) : Prop :=
  ∃ star ev um rest e, Shape s star ev um rest e ∧ um ≠ [] ∧ Ending rest

/-- Text that follows a unit mask and is no part of an event string. -/
inductive Ragged : List Char → Prop
  | /-- A sign without a number. -/
    number {op w : List Char} (hop : Sign op) (hw : isdigit (charAt w 0) = false) : Ragged (op ++ w)
  | /-- Something else than modes behind the number. -/
    text {op w v : List Char} {c : Char} (hop : Sign op) (hw : isdigit (charAt w 0) = true)
      (hrest : (strtoull w).2 = c :: v) (hc : c ≠ ':') : Ragged (op ++ w)
  | /-- Another letter among the modes. -/
    modes {th letters : List Char} {c : Char} (hth : th = [] ∨ Threshold th)
      (hmem : c ∈ letters) (hc : c ∉ modeLetters) : Ragged (th ++ ':' :: letters)

/-! ## What is left over -/

theorem Sign.head_ne_colon {op : List Char} (hop : Sign op) (w v : List Char) :
    op ++ w ≠ ':' :: v := by
  rcases hop with rfl | rfl <;> simp

theorem Sign.append_inj {op op' w w' : List Char} (hop : Sign op) (hop' : Sign op')
    (h : op ++ w = op' ++ w') : op = op' ∧ w = w' := by
  rcases hop with rfl | rfl <;> rcases hop' with rfl | rfl <;> simp at h ⊢ <;> exact h

theorem ModesText.head {md : List Char} (h : ModesText md) {c : Char} {w : List Char}
    (hcw : md = c :: w) : c = ':' := by
  rcases h with rfl | ⟨letters, rfl, -⟩
  · cases hcw
  · exact (List.cons.inj hcw).1.symm

/-- The modes behind a number do not continue it. -/
theorem strtoull_modes {m md : List Char} (hm : IsNumeral m) (hmd : ModesText md) :
    strtoull (m ++ md) = ((strtoull m).1, md) := by
  refine hm.strtoull_append fun c w hcw => ?_
  rw [hmd.head hcw]
  decide

/-- What follows the sign of a threshold. -/
theorem Ending.of_sign {op w : List Char} (hop : Sign op) (h : Ending (op ++ w)) :
    ∃ m md, w = m ++ md ∧ IsNumeral m ∧ isdigit (charAt m 0) = true ∧ ModesText md := by
  obtain ⟨th, md, heq, hth, hmd⟩ := h
  rcases hth with rfl | ⟨op', m, hop', rfl, hm, hdigit⟩
  · rcases hmd with rfl | ⟨letters, rfl, -⟩
    · rcases hop with rfl | rfl <;> cases heq
    · exact absurd heq (hop.head_ne_colon w letters)
  · rw [List.append_assoc] at heq
    obtain ⟨-, rfl⟩ := hop.append_inj hop' heq
    exact ⟨m, md, rfl, hm, hdigit, hmd⟩

theorem charAt_zero_append {m : List Char} (hm : m ≠ []) (w : List Char) :
    charAt (m ++ w) 0 = charAt m 0 := by
  obtain ⟨c, v, rfl⟩ := List.exists_cons_of_ne_nil hm
  rfl

theorem Ragged.not_ending (h : Ragged rest) : ¬ Ending rest := by
  intro hending
  cases h with
  | number hop hw =>
      obtain ⟨m, md, rfl, hm, hdigit, -⟩ := hending.of_sign hop
      rw [charAt_zero_append hm.1, hdigit] at hw
      cases hw
  | text hop hw hrest hc =>
      obtain ⟨m, md, rfl, hm, -, hmd⟩ := hending.of_sign hop
      rw [strtoull_modes hm hmd] at hrest
      exact hc (hmd.head hrest)
  | modes hth hmem hc =>
      rename_i th letters c
      have hletters : ModesText (':' :: letters) → False := by
        rintro (hnil | ⟨letters', heq, hall⟩)
        · cases hnil
        · obtain rfl := (List.cons.inj heq).2
          exact hc (hall c hmem)
      rcases hth with rfl | ⟨op, m, hop, rfl, hm, -⟩
      · obtain ⟨th, md, heq, hth, hmd⟩ := hending
        rcases hth with rfl | ⟨op, m, hop, rfl, -⟩
        · obtain rfl : ':' :: letters = md := heq
          exact hletters hmd
        · rw [List.append_assoc] at heq
          exact hop.head_ne_colon _ _ heq.symm
      · rw [List.append_assoc] at hending
        obtain ⟨m', md, heq, hm', -, hmd⟩ := hending.of_sign hop
        have hcolon : ∀ {md : List Char}, ModesText md → ∀ c w, md = c :: w → isEnd c = true := by
          intro md hmd c w hcw
          rw [hmd.head hcw]
          rfl
        obtain ⟨-, rfl⟩ := append_stop_inj isEnd
          (fun c hc => isEnd_eq_false (not_special_of_isNumeral hm hc))
          (fun c hc => isEnd_eq_false (not_special_of_isNumeral hm' hc))
          (fun c w hcw => by rw [← (List.cons.inj hcw).1]; rfl) (hcolon hmd) heq
        exact hletters hmd

/-- A rest that may follow a unit mask is an ending or ragged. -/
theorem ending_or_ragged (hends : umaskEnds rest = true) (hnul : nul ∉ rest) :
    Ending rest ∨ Ragged rest := by
  have hmodes : ∀ {th : List Char} (letters : List Char), th = [] ∨ Threshold th →
      Ending (th ++ ':' :: letters) ∨ Ragged (th ++ ':' :: letters) := by
    intro th letters hth
    by_cases hall : ∀ c ∈ letters, c ∈ modeLetters
    · exact .inl ⟨th, ':' :: letters, rfl, hth, .inr ⟨letters, rfl, hall⟩⟩
    · simp only [not_forall] at hall
      obtain ⟨c, hmem, hc⟩ := hall
      exact .inr (.modes hth hmem hc)
  have hsign : ∀ {op : List Char} (w : List Char), Sign op →
      Ending (op ++ w) ∨ Ragged (op ++ w) := by
    intro op w hop
    cases hw : isdigit (charAt w 0) with
    | false => exact .inr (.number hop hw)
    | true =>
        obtain ⟨m, hm, -, hnumeral, hdigit⟩ := strtoull_split_of_isdigit hw
        have hth : Threshold (op ++ m) := ⟨op, m, hop, rfl, hnumeral, hdigit⟩
        cases hleft : (strtoull w).2 with
        | nil =>
            rw [hleft, List.append_nil] at hm
            rw [hm]
            exact .inl ⟨op ++ m, [], (List.append_nil _).symm, .inr hth, .inl rfl⟩
        | cons c v =>
            by_cases hc : c = ':'
            · subst hc
              rw [hm, hleft, ← List.append_assoc]
              exact hmodes v (.inr hth)
            · exact .inr (.text hop hw hleft hc)
  cases rest with
  | nil => exact .inl ⟨[], [], rfl, .inl rfl, .inl rfl⟩
  | cons c w =>
      have hat : charAt (c :: w) 0 = c := rfl
      have hne : c ≠ nul := by
        rintro rfl
        exact hnul List.mem_cons_self
      simp only [umaskEnds, hat, Bool.or_eq_true, Bool.and_eq_true, beq_iff_eq] at hends
      rcases hends with ((hc | rfl) | ⟨rfl, hequal⟩) | rfl
      · exact absurd hc hne
      · exact hsign w (.inl rfl)
      · obtain ⟨v, hv⟩ := exists_of_charAt hequal (by decide)
        obtain rfl : w = '=' :: v := hv
        exact hsign v (.inr rfl)
      · exact hmodes w (.inl rfl)

/-! ## Full-string acceptance -/

/-- The string can be cut into parts that the parser takes, but with an empty unit mask or
with a ragged rest. -/
def Lax (s : List Char) : Prop :=
  ∃ star ev um rest e, Shape s star ev um rest e ∧ umaskValue e um ≤ 0xFF ∧
    (um = [] ∨ Ragged rest)

/-- **Acceptance is full-string acceptance exactly on the strings that are not lax.** -/
theorem full_string_iff (evstr : String) :
    (phPmuParseCfg (cstr evstr) ≠ 0 → EventString (cstr evstr)) ↔ ¬ Lax (cstr evstr) := by
  constructor
  · rintro hstrict ⟨star, ev, um, rest, e, hshape, hbyte, hlax⟩
    have haccept : phPmuParseCfg (cstr evstr) ≠ 0 :=
      phPmuParseCfg_ne_zero_iff.mpr ⟨star, ev, um, rest, e, hshape, hbyte⟩
    obtain ⟨star', ev', um', rest', e', hshape', hne, hending⟩ := hstrict haccept
    obtain ⟨-, -, rfl, rfl, -⟩ := hshape.unique hshape'
    rcases hlax with hempty | hragged
    · exact hne hempty
    · exact hragged.not_ending hending
  · intro hstrict haccept
    obtain ⟨star, ev, um, rest, e, hshape, hbyte⟩ := exists_shape haccept
    have hnul : nul ∉ rest := by
      intro hmem
      apply nul_not_mem_cstr evstr
      rw [hshape.eq]
      simp only [List.mem_append, List.mem_cons]
      exact .inr (.inr (.inr (.inr hmem)))
    refine ⟨star, ev, um, rest, e, hshape, fun hempty => ?_, ?_⟩
    · exact hstrict ⟨star, ev, um, rest, e, hshape, hbyte, .inl hempty⟩
    · refine (ending_or_ragged hshape.ends hnul).resolve_right fun hragged => ?_
      exact hstrict ⟨star, ev, um, rest, e, hshape, hbyte, .inr hragged⟩

/-- An event without a unit mask is accepted. -/
theorem empty_umask_accepted :
    phPmuParseCfg (cstr "inst_retired.") = 0x004100C0 ∧ ¬ EventString (cstr "inst_retired.") := by
  refine ⟨by decide +kernel, ?_⟩
  rintro ⟨star, ev, um, rest, e, hshape, hne, -⟩
  have hempty : Shape (cstr "inst_retired.") [] "inst_retired".toList [] []
      ⟨0xC0, 189, "inst_retired"⟩ :=
    { eq := by decide
      star := .inl rfl
      mem := by decide
      event := .inl rfl
      umask := .inr (.inr rfl)
      ends := rfl }
  obtain ⟨-, -, hum, -⟩ := hshape.unique hempty
  exact hne hum

end EvtX86

end PerfHound
