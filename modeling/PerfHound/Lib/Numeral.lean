/-
# Names and numerals at the front of a C string

`strncasecmp` compares the front of a string with a name, and `strtoull` reads a numeral
there. Both are described by how they cut the string: what they take, and the rest. A
numeral is what `strtoull` takes whole; in front of a character that is no digit of any
base it is taken the same way.
-/

import PerfHound.Lib.CText
import Mathlib.Data.Int.Notation
import Mathlib.Data.List.TakeWhile
import Mathlib.Data.Nat.Notation

namespace PerfHound.Lib

namespace CText

variable {s t m rest : List Char} {c d : Char}

/-! ## Characters -/

theorem toNat_ofNat_of_lt {n : ℕ} (hn : n < 0xd800) : (Char.ofNat n).toNat = n := by
  rw [Char.ofNat, dif_pos (Or.inl hn)]
  rfl

theorem toNat_tolower (c : Char) :
    (tolower c).toNat = if 65 ≤ c.toNat ∧ c.toNat ≤ 90 then c.toNat + 32 else c.toNat := by
  have hupper : ('A' ≤ c ∧ c ≤ 'Z') ↔ (65 ≤ c.toNat ∧ c.toNat ≤ 90) := by
    simp only [Char.le_def, UInt32.le_iff_toNat_le]
    rfl
  unfold tolower
  by_cases h : 65 ≤ c.toNat ∧ c.toNat ≤ 90
  · rw [if_pos (hupper.mpr h), if_pos h, toNat_ofNat_of_lt (by omega)]
  · rw [if_neg (mt hupper.mp h), if_neg h]

theorem isdigit_iff (c : Char) : isdigit c = true ↔ 48 ≤ c.toNat ∧ c.toNat ≤ 57 := by
  simp only [isdigit, Bool.and_eq_true, decide_eq_true_eq, Char.le_def, UInt32.le_iff_toNat_le]
  rfl

theorem isspace_iff (c : Char) :
    isspace c = true ↔ c.toNat = 32 ∨ (9 ≤ c.toNat ∧ c.toNat ≤ 13) := by
  simp only [isspace, Bool.or_eq_true, Bool.and_eq_true, decide_eq_true_eq, beq_iff_eq,
    ← Char.toNat_inj]
  rfl

/-- The value of a digit, by its code. -/
theorem digitValue_eq (c : Char) :
    digitValue c =
      if 48 ≤ c.toNat ∧ c.toNat ≤ 57 then c.toNat - 48
      else if 65 ≤ c.toNat ∧ c.toNat ≤ 90 then c.toNat - 55
      else if 97 ≤ c.toNat ∧ c.toNat ≤ 122 then c.toNat - 87
      else 36 := by
  have hlower : ('a' ≤ tolower c ∧ tolower c ≤ 'z') ↔
      (97 ≤ (tolower c).toNat ∧ (tolower c).toNat ≤ 122) := by
    simp only [Char.le_def, UInt32.le_iff_toNat_le]
    rfl
  have hzero : '0'.toNat = 48 := rfl
  have ha : 'a'.toNat = 97 := rfl
  simp only [digitValue, isdigit_iff, hlower, toNat_tolower, hzero, ha]
  split
  · rfl
  · by_cases hupper : 65 ≤ c.toNat ∧ c.toNat ≤ 90
    · have hshift : 97 ≤ c.toNat + 32 ∧ c.toNat + 32 ≤ 122 := by omega
      simp only [hupper, hshift, and_self, if_true]
      omega
    · simp only [hupper, if_false]
      split <;> omega

/-- A character with a digit value begins no other part of a numeral. -/
theorem not_blank_of_digit (h : digitValue c < 36) : isspace c = false ∧ c ≠ '-' ∧ c ≠ '+' := by
  rw [digitValue_eq] at h
  refine ⟨Bool.eq_false_iff.mpr fun hspace => ?_, ?_, ?_⟩
  · have hcode := (isspace_iff c).mp hspace
    split at h <;> [omega; skip]
    split at h <;> [omega; skip]
    split at h <;> omega
  · rintro rfl
    exact absurd h (by decide)
  · rintro rfl
    exact absurd h (by decide)

theorem digitValue_tolower (c : Char) : digitValue (tolower c) = digitValue c := by
  rw [digitValue_eq, digitValue_eq, toNat_tolower]
  by_cases hupper : 65 ≤ c.toNat ∧ c.toNat ≤ 90
  · simp only [hupper, and_self, if_true]
    grind
  · simp only [hupper, if_false]

/-! ## Names -/

/-- Equal up to the case of letters. -/
def SameCase (s t : List Char) : Prop := s.map tolower = t.map tolower

instance (s t : List Char) : Decidable (SameCase s t) := inferInstanceAs (Decidable (_ = _))

theorem tolower_eq_nul (h : tolower c = nul) : c = nul := by
  have hcode := toNat_tolower c
  rw [h] at hcode
  have hnul : nul.toNat = 0 := rfl
  rw [hnul] at hcode
  apply Char.toNat_inj.mp
  split at hcode <;> omega

/-- `strncasecmp` over the whole of a name compares the front of the string with it. -/
theorem strncasecmp_eq_zero_iff {name : List Char} (hname : nul ∉ name) (s : List Char) :
    strncasecmp s name name.length = 0 ↔ SameCase (s.take name.length) name := by
  induction name generalizing s with
  | nil => simp [strncasecmp, SameCase]
  | cons d name ih =>
      rw [List.mem_cons, not_or] at hname
      have hd : tolower d ≠ nul := fun h => hname.1 (tolower_eq_nul h).symm
      have hat : charAt (d :: name) 0 = d := rfl
      simp only [List.length_cons, strncasecmp, hat]
      cases s with
      | nil =>
          have hnul : tolower (charAt [] 0) = nul := rfl
          rw [hnul, if_pos (Ne.symm hd)]
          simp only [List.take_nil, SameCase, List.map_nil, List.map_cons, reduceCtorEq, iff_false]
          intro hsub
          exact hd (Char.toNat_inj.mp (by omega))
      | cons c s =>
          have hc : charAt (c :: s) 0 = c := rfl
          rw [hc, List.take_succ_cons, SameCase, List.map_cons, List.map_cons, List.cons.injEq]
          by_cases heq : tolower c = tolower d
          · rw [if_neg (not_not.mpr heq), if_neg (heq ▸ hd)]
            exact (ih hname.2 s).trans (and_iff_right heq).symm
          · rw [if_pos heq]
            refine iff_of_false (fun hsub => heq ?_) fun h => heq h.1
            exact Char.toNat_inj.mp (by omega)

/-- Comparing with a character that is no letter does not see the case. -/
theorem tolower_beq (hd : ¬ (65 ≤ d.toNat ∧ d.toNat ≤ 90) ∧ ¬ (97 ≤ d.toNat ∧ d.toNat ≤ 122))
    (c : Char) : (tolower c == d) = (c == d) := by
  rw [Bool.eq_iff_iff, beq_iff_eq, beq_iff_eq, ← Char.toNat_inj, ← Char.toNat_inj, toNat_tolower]
  split <;> omega

theorem SameCase.length_eq (h : SameCase s t) : s.length = t.length := by
  simpa only [List.length_map] using congrArg List.length h

/-- A name in front of a stop character is as long as the text up to there. -/
theorem length_eq_of_front {stop : Char → Bool} (hcase : ∀ c, stop (tolower c) = stop c)
    {text rest name : List Char} (htext : ∀ c ∈ text, stop c = false)
    (hrest : ∀ c w, rest = c :: w → stop c = true) (hname : ∀ c ∈ name, stop c = false)
    (hfront : SameCase ((text ++ rest).take name.length) name)
    (hbehind : ∀ c w, (text ++ rest).drop name.length = c :: w → stop c = true) :
    name.length = text.length := by
  have hlength : ((text ++ rest).take name.length).length = name.length := hfront.length_eq
  rcases Nat.lt_trichotomy name.length text.length with hlt | heq | hgt
  · have hhead : text.drop name.length = text[name.length] :: text.drop (name.length + 1) :=
      List.drop_eq_getElem_cons hlt
    have hstop := hbehind text[name.length] (text.drop (name.length + 1) ++ rest) (by
      rw [List.drop_append_of_le_length hlt.le, hhead]
      rfl)
    rw [htext _ (List.getElem_mem hlt)] at hstop
    cases hstop
  · exact heq
  · cases rest with
    | nil =>
        rw [List.append_nil, List.length_take] at hlength
        omega
    | cons c w =>
        have hmem : c ∈ (text ++ c :: w).take name.length := by
          rw [List.take_append, List.mem_append]
          obtain ⟨k, hk⟩ : ∃ k, name.length - text.length = k + 1 :=
            ⟨name.length - text.length - 1, by omega⟩
          rw [hk]
          exact .inr List.mem_cons_self
        have hlower : tolower c ∈ name.map tolower := by
          rw [← show _ = name.map tolower from hfront]
          exact List.mem_map_of_mem hmem
        obtain ⟨d, hd, hdc⟩ := List.mem_map.mp hlower
        have hstop := hrest c w rfl
        rw [← hcase, ← hdc, hcase, hname d hd] at hstop
        cases hstop

/-- ... and so the text is the name. -/
theorem sameCase_iff_front {stop : Char → Bool} (hcase : ∀ c, stop (tolower c) = stop c)
    {text rest name : List Char} (htext : ∀ c ∈ text, stop c = false)
    (hrest : ∀ c w, rest = c :: w → stop c = true) (hname : ∀ c ∈ name, stop c = false) :
    SameCase text name ↔ SameCase ((text ++ rest).take name.length) name ∧
      ∀ c w, (text ++ rest).drop name.length = c :: w → stop c = true := by
  constructor
  · intro hsame
    have hlength := hsame.length_eq
    rw [← hlength, List.take_left, List.drop_left]
    exact ⟨hsame, hrest⟩
  · rintro ⟨hfront, hbehind⟩
    have hlength := length_eq_of_front hcase htext hrest hname hfront hbehind
    rwa [hlength, List.take_left] at hfront

/-- Finding a name in front of a stop character is reading it as the text up to there. -/
theorem strncasecmp_front_iff (stop : Char → Bool) (rest : List Char)
    (hcase : ∀ c, stop (tolower c) = stop c) {text name : List Char}
    (htext : ∀ c ∈ text, stop c = false) (hrest : ∀ c w, rest = c :: w → stop c = true)
    (hname : ∀ c ∈ name, stop c = false ∧ c ≠ nul) :
    (strncasecmp (text ++ rest) name name.length = 0 ∧
      ∀ c w, (text ++ rest).drop name.length = c :: w → stop c = true) ↔ SameCase text name := by
  have hnul : nul ∉ name := fun hmem => (hname nul hmem).2 rfl
  rw [strncasecmp_eq_zero_iff hnul,
    sameCase_iff_front hcase htext hrest fun c hc => (hname c hc).1]

/-- A text without stop characters, and a rest that is empty or begins with one. -/
theorem append_stop_inj (stop : Char → Bool) {a b s t : List Char}
    (ha : ∀ c ∈ a, stop c = false) (hb : ∀ c ∈ b, stop c = false)
    (hs : ∀ c w, s = c :: w → stop c = true) (ht : ∀ c w, t = c :: w → stop c = true)
    (h : a ++ s = b ++ t) : a = b ∧ s = t := by
  have hfront : ∀ {a s : List Char}, (∀ c ∈ a, stop c = false) →
      (∀ c w, s = c :: w → stop c = true) → (a ++ s).takeWhile (fun c => !stop c) = a := by
    intro a s ha hs
    rw [List.takeWhile_append_of_pos fun c hc => by rw [ha c hc]; rfl]
    cases hcons : s with
    | nil => rw [List.takeWhile_nil, List.append_nil]
    | cons c w =>
        rw [List.takeWhile_cons_of_neg (by rw [hs c w hcons]; decide), List.append_nil]
  have heq : a = b := by rw [← hfront ha hs, h, hfront hb ht]
  subst heq
  exact ⟨rfl, List.append_cancel_left h⟩

theorem charAt_eq_drop (s : List Char) (n : ℕ) : charAt s n = charAt (s.drop n) 0 := by
  simp only [charAt, List.getD_eq_getElem?_getD, List.getElem?_drop, Nat.add_zero]

/-- A character that is not the end of the string stands there. -/
theorem exists_of_charAt {n : ℕ} (h : charAt s n = c) (hc : c ≠ nul) :
    ∃ w, s.drop n = c :: w := by
  rw [charAt_eq_drop] at h
  cases hdrop : s.drop n with
  | nil =>
      rw [hdrop] at h
      exact absurd h.symm hc
  | cons d w =>
      rw [hdrop] at h
      obtain rfl : d = c := h
      exact ⟨w, rfl⟩

/-! ## Numerals -/

/-- The value of a row of digits. -/
def magnitude (base : ℕ) (used : List Char) : ℕ :=
  used.foldl (fun n c => n * base + digitValue c) 0

/-- The word `strtoull` makes of a numeral. -/
def wordOf (negative : Bool) (n : ℕ) : BitVec 64 :=
  if 2 ^ 64 ≤ n then BitVec.allOnes 64
  else if negative then -BitVec.ofNat 64 n
  else BitVec.ofNat 64 n

/-- How a numeral is written: the base, what stands in front of the digits, and the digits. -/
inductive Style : ℕ → List Char → List Char → Prop
  | hex {x : Char} {used : List Char} (hx : tolower x = 'x') : Style 16 ['0', x] used
  | oct {used : List Char} : Style 8 [] ('0' :: used)
  | dec {c : Char} {used : List Char} (hc : c ≠ '0') : Style 10 [] (c :: used)

/-- `s` begins with a numeral, cut into blanks, sign, prefix and digits, and goes on with
`rest`. -/
structure Cut (s blanks sign pre used rest : List Char) (base : ℕ) : Prop where
  eq : s = blanks ++ (sign ++ (pre ++ (used ++ rest)))
  blanks : ∀ c ∈ blanks, isspace c = true
  sign : sign = [] ∨ sign = ['-'] ∨ sign = ['+']
  style : Style base pre used
  digits : ∀ c ∈ used, digitValue c < base
  used_ne_nil : used ≠ []
  stop : ∀ c w, rest = c :: w → base ≤ digitValue c
  /-- A zero is the numeral only if it does not begin a hexadecimal one. -/
  octal : base = 8 → ∀ x d w, used ++ rest = '0' :: x :: d :: w →
    ¬ (tolower x = 'x' ∧ digitValue d < 16)

theorem numeral_dec (hc : c ≠ '0') (w : List Char) : numeral (c :: w) = (10, c :: w) := by
  unfold numeral
  split
  · next heq => exact absurd (List.cons.inj heq).1 hc
  · next heq => exact absurd (List.cons.inj heq).1 hc
  · rfl

theorem numeral_oct {w : List Char}
    (h : ∀ x d v, '0' :: w = '0' :: x :: d :: v → ¬ (tolower x = 'x' ∧ digitValue d < 16)) :
    numeral ('0' :: w) = (8, '0' :: w) := by
  match w, h with
  | [], _ => rfl
  | [_], _ => rfl
  | x :: d :: v, h => exact if_neg (h x d v rfl)

namespace Cut

variable {blanks sign pre used : List Char} {base : ℕ}

/-- Digits have values below 36. -/
theorem base_le (h : Cut s blanks sign pre used rest base) : base ≤ 16 := by
  cases h.style <;> decide

/-- The first character behind the sign is a digit. -/
theorem exists_head (h : Cut s blanks sign pre used rest base) (tail : List Char) :
    ∃ c w, pre ++ (used ++ tail) = c :: w ∧ digitValue c < 36 := by
  cases h.style with
  | hex hx => exact ⟨'0', _, rfl, by decide⟩
  | oct => exact ⟨'0', _, rfl, by decide⟩
  | dec hc => exact ⟨_, _, rfl, Nat.lt_of_lt_of_le (h.digits _ List.mem_cons_self) (by decide)⟩

/-- Blanks and sign are taken off. -/
theorem dropWhile_isspace (h : Cut s blanks sign pre used rest base) :
    s.dropWhile isspace = sign ++ (pre ++ (used ++ rest)) := by
  obtain ⟨c, w, hcw, hdigit⟩ := h.exists_head rest
  rw [h.eq, List.dropWhile_append_of_pos h.blanks, hcw]
  rcases h.sign with rfl | rfl | rfl
  · exact List.dropWhile_cons_of_neg (Bool.eq_false_iff.mp (not_blank_of_digit hdigit).1)
  · rfl
  · rfl

theorem numeral_eq (h : Cut s blanks sign pre used rest base) :
    numeral (pre ++ (used ++ rest)) = (base, used ++ rest) := by
  have hoctal := h.octal
  have hdigits := h.digits
  have hne := h.used_ne_nil
  cases h.style with
  | hex hx =>
      obtain ⟨d, w, rfl⟩ := List.exists_cons_of_ne_nil hne
      have hd : digitValue d < 16 := hdigits d List.mem_cons_self
      exact if_pos ⟨hx, hd⟩
  | oct => exact numeral_oct (hoctal rfl)
  | dec hc => exact numeral_dec hc _

/-- What the digits end at. -/
theorem span_eq (h : Cut s blanks sign pre used rest base) :
    (used ++ rest).takeWhile (fun c => digitValue c < base) = used ∧
      (used ++ rest).dropWhile (fun c => digitValue c < base) = rest := by
  have hall : ∀ c ∈ used, decide (digitValue c < base) = true := fun c hc =>
    decide_eq_true (h.digits c hc)
  rw [List.takeWhile_append_of_pos hall, List.dropWhile_append_of_pos hall]
  cases hrest : rest with
  | nil => exact ⟨List.append_nil used, rfl⟩
  | cons c w =>
      have hstop : decide (digitValue c < base) = false :=
        decide_eq_false (Nat.not_lt.mpr (h.stop c w hrest))
      simp only [List.takeWhile_cons, List.dropWhile_cons, hstop, Bool.false_eq_true, if_false,
        List.append_nil, and_self]

/-- The sign is taken off. -/
theorem unsigned_eq (h : Cut s blanks sign pre used rest base) :
    (if charAt (s.dropWhile isspace) 0 == '-' || charAt (s.dropWhile isspace) 0 == '+'
      then (s.dropWhile isspace).tail else s.dropWhile isspace) = pre ++ (used ++ rest) ∧
      (charAt (s.dropWhile isspace) 0 == '-') = (sign == ['-']) := by
  obtain ⟨c, w, hcw, hdigit⟩ := h.exists_head rest
  obtain ⟨_, hminus, hplus⟩ := not_blank_of_digit hdigit
  rw [h.dropWhile_isspace]
  rcases h.sign with rfl | rfl | rfl
  · rw [List.nil_append, hcw]
    have hat : charAt (c :: w) 0 = c := rfl
    rw [hat, beq_false_of_ne hminus, beq_false_of_ne hplus]
    exact ⟨rfl, rfl⟩
  · exact ⟨rfl, rfl⟩
  · exact ⟨rfl, rfl⟩

/-- `strtoull` reads the numeral a string begins with. -/
theorem strtoull_eq (h : Cut s blanks sign pre used rest base) :
    strtoull s = (wordOf (sign == ['-']) (magnitude base used), rest) := by
  have hempty : used.isEmpty = false := by
    rw [List.isEmpty_eq_false_iff]
    exact h.used_ne_nil
  unfold strtoull
  simp only [h.unsigned_eq.1, h.numeral_eq, h.span_eq.1, h.span_eq.2, hempty]
  rw [h.unsigned_eq.2]
  rfl

/-- The numeral without what follows it. -/
theorem alone (h : Cut s blanks sign pre used rest base) :
    Cut (blanks ++ (sign ++ (pre ++ used))) blanks sign pre used [] base where
  eq := by rw [List.append_nil]
  blanks := h.blanks
  sign := h.sign
  style := h.style
  digits := h.digits
  used_ne_nil := h.used_ne_nil
  stop := by rintro c w ⟨⟩
  octal := by
    rintro rfl x d w hused ⟨hx, _⟩
    rw [List.append_nil] at hused
    have hdigit : digitValue x < 8 := by
      apply h.digits x
      rw [hused]
      exact List.mem_cons_of_mem _ List.mem_cons_self
    rw [← digitValue_tolower, hx] at hdigit
    exact absurd hdigit (by decide)

/-- A character that is no digit in any base ends a numeral. -/
theorem append (h : Cut m blanks sign pre used [] base)
    (hrest : ∀ c w, rest = c :: w → digitValue c = 36) :
    Cut (m ++ rest) blanks sign pre used rest base where
  eq := by
    rw [h.eq, List.append_nil]
    simp only [List.append_assoc]
  blanks := h.blanks
  sign := h.sign
  style := h.style
  digits := h.digits
  used_ne_nil := h.used_ne_nil
  stop c w hcw := by
    rw [hrest c w hcw]
    exact Nat.le_trans h.base_le (by decide)
  octal := by
    rintro hbase x d w heq ⟨hx, hd⟩
    have hxvalue : digitValue x = 33 := by
      rw [← digitValue_tolower, hx]
      rfl
    match used, h with
    | [], h => exact h.used_ne_nil rfl
    | [_], h =>
        rw [List.singleton_append, List.cons.injEq] at heq
        have := hrest x (d :: w) heq.2
        omega
    | [_, y], h =>
        simp only [List.cons_append, List.nil_append, List.cons.injEq] at heq
        have := hrest d w heq.2.2
        omega
    | a :: y :: e :: v, h =>
        simp only [List.cons_append, List.cons.injEq] at heq
        obtain ⟨rfl, rfl, rfl, -⟩ := heq
        refine h.octal hbase y e v ?_ ⟨hx, hd⟩
        rw [List.append_nil]

end Cut

/-- What `numeral` finds: the prefix it skips, and digits behind it. -/
theorem exists_style (u : List Char) :
    ∃ pre, u = pre ++ (numeral u).2 ∧
      (∀ used rest, (numeral u).2 = used ++ rest → used ≠ [] → Style (numeral u).1 pre used) ∧
      ((numeral u).1 = 8 → ∀ x d w, (numeral u).2 = '0' :: x :: d :: w →
        ¬ (tolower x = 'x' ∧ digitValue d < 16)) := by
  match u with
  | [] =>
      refine ⟨[], rfl, ?_, fun h => absurd h (by decide)⟩
      intro used rest heq hne
      exact absurd (List.append_eq_nil_iff.mp heq.symm).1 hne
  | c :: v =>
      by_cases hc : c = '0'
      · subst hc
        by_cases hhex : ∃ x d w, v = x :: d :: w ∧ tolower x = 'x' ∧ digitValue d < 16
        · obtain ⟨x, d, w, rfl, hx, hd⟩ := hhex
          have hnumeral : numeral ('0' :: x :: d :: w) = (16, d :: w) := if_pos ⟨hx, hd⟩
          rw [hnumeral]
          exact ⟨['0', x], rfl, fun _ _ _ _ => .hex hx, fun h => absurd h (by decide : 16 ≠ 8)⟩
        · have hnone : ∀ x d w, '0' :: v = '0' :: x :: d :: w →
              ¬ (tolower x = 'x' ∧ digitValue d < 16) := by
            rintro x d w heq ⟨hx, hd⟩
            exact hhex ⟨x, d, w, (List.cons.inj heq).2, hx, hd⟩
          rw [numeral_oct hnone]
          refine ⟨[], rfl, ?_, fun _ => hnone⟩
          intro used rest heq hne
          obtain ⟨e, w, rfl⟩ := List.exists_cons_of_ne_nil hne
          obtain rfl : '0' = e := (List.cons.inj heq).1
          exact .oct
      · rw [numeral_dec hc]
        refine ⟨[], rfl, ?_, fun h => absurd h (by decide : 10 ≠ 8)⟩
        intro used rest heq hne
        obtain ⟨e, w, rfl⟩ := List.exists_cons_of_ne_nil hne
        obtain rfl : c = e := (List.cons.inj heq).1
        exact .dec hc

/-- The digits of a string that begins with one. -/
theorem exists_digit_of_isdigit (hc : isdigit c = true) (w : List Char) :
    ∃ d v, (numeral (c :: w)).2 = d :: v ∧ digitValue d < (numeral (c :: w)).1 := by
  have hcode := (isdigit_iff c).mp hc
  have hvalue : digitValue c < 10 := by
    rw [digitValue_eq, if_pos hcode]
    omega
  by_cases hzero : c = '0'
  · subst hzero
    by_cases hhex : ∃ x d v, w = x :: d :: v ∧ tolower x = 'x' ∧ digitValue d < 16
    · obtain ⟨x, d, v, rfl, hx, hd⟩ := hhex
      have hnumeral : numeral ('0' :: x :: d :: v) = (16, d :: v) := if_pos ⟨hx, hd⟩
      rw [hnumeral]
      exact ⟨d, v, rfl, hd⟩
    · have hnumeral := numeral_oct (w := w) fun x d v heq hxd =>
        hhex ⟨x, d, v, (List.cons.inj heq).2, hxd⟩
      rw [hnumeral]
      exact ⟨'0', w, rfl, (by decide : digitValue '0' < 8)⟩
  · rw [numeral_dec hzero]
    exact ⟨c, w, rfl, hvalue⟩

theorem not_space_of_isdigit (hc : isdigit c = true) :
    isspace c = false ∧ (c == '-') = false ∧ (c == '+') = false := by
  have hcode := (isdigit_iff c).mp hc
  have hvalue : digitValue c < 36 := by
    rw [digitValue_eq, if_pos hcode]
    omega
  obtain ⟨hspace, hminus, hplus⟩ := not_blank_of_digit hvalue
  exact ⟨hspace, beq_false_of_ne hminus, beq_false_of_ne hplus⟩

/-- A string begins with a numeral, or `strtoull` moves nowhere. -/
theorem exists_cut (s : List Char) :
    (strtoull s = (0, s) ∧ isdigit (charAt s 0) = false) ∨
      ∃ blanks sign pre used rest base, Cut s blanks sign pre used rest base := by
  have hblanks : s.takeWhile isspace ++ s.dropWhile isspace = s := List.takeWhile_append_dropWhile
  obtain ⟨sign, u, hsign, hu, htail⟩ : ∃ sign u, (sign = [] ∨ sign = ['-'] ∨ sign = ['+']) ∧
      s.dropWhile isspace = sign ++ u ∧
      (if charAt (s.dropWhile isspace) 0 == '-' || charAt (s.dropWhile isspace) 0 == '+'
        then (s.dropWhile isspace).tail else s.dropWhile isspace) = u := by
    cases hs : s.dropWhile isspace with
    | nil => exact ⟨[], [], .inl rfl, rfl, rfl⟩
    | cons c w =>
        have hat : charAt (c :: w) 0 = c := rfl
        by_cases hminus : c = '-'
        · subst hminus
          exact ⟨['-'], w, .inr (.inl rfl), rfl, rfl⟩
        · by_cases hplus : c = '+'
          · subst hplus
            exact ⟨['+'], w, .inr (.inr rfl), rfl, rfl⟩
          · refine ⟨[], c :: w, .inl rfl, rfl, ?_⟩
            rw [hat, beq_false_of_ne hminus, beq_false_of_ne hplus]
            rfl
  obtain ⟨pre, hpre, hstyle, hoctal⟩ := exists_style u
  have hspan : (numeral u).2.takeWhile (fun c => digitValue c < (numeral u).1) ++
      (numeral u).2.dropWhile (fun c => digitValue c < (numeral u).1) = (numeral u).2 :=
    List.takeWhile_append_dropWhile
  by_cases hused : (numeral u).2.takeWhile (fun c => digitValue c < (numeral u).1) = []
  · refine Or.inl ⟨?_, Bool.eq_false_iff.mpr fun hdigit => ?_⟩
    · unfold strtoull
      simp only [htail, hused]
      rfl
    · cases s with
      | nil => exact absurd hdigit (by decide)
      | cons c w =>
          have hc : isdigit c = true := hdigit
          obtain ⟨hspace, hminus, hplus⟩ := not_space_of_isdigit hc
          obtain ⟨d, v, hdv, hvalue⟩ := exists_digit_of_isdigit hc w
          have hat : charAt (c :: w) 0 = c := rfl
          rw [List.dropWhile_cons_of_neg (Bool.eq_false_iff.mp hspace), hat, hminus, hplus] at htail
          obtain rfl : c :: w = u := htail
          rw [hdv] at hused
          simp only [List.takeWhile_cons, hvalue, decide_true, if_true, reduceCtorEq] at hused
  · have hdigits : ∀ c ∈ (numeral u).2.takeWhile (fun c => digitValue c < (numeral u).1),
        digitValue c < (numeral u).1 := by
      intro c hc
      simpa only [decide_eq_true_eq] using List.mem_takeWhile_imp hc
    refine Or.inr ⟨_, sign, pre, _, _, (numeral u).1,
      { eq := by rw [hspan, ← hpre, ← hu, hblanks]
        blanks := fun c hc => List.mem_takeWhile_imp hc
        sign := hsign
        style := hstyle _ _ hspan.symm hused
        digits := hdigits
        used_ne_nil := hused
        stop := ?_
        octal := ?_ }⟩
    · intro c w hcw
      have hhead := List.head?_dropWhile_not (fun c => decide (digitValue c < (numeral u).1))
        (numeral u).2
      rw [hcw] at hhead
      exact Nat.not_lt.mp (of_decide_eq_false hhead)
    · intro hbase x d w heq
      rw [hspan] at heq
      exact hoctal hbase x d w heq

/-- A text that `strtoull` reads whole. -/
def IsNumeral (m : List Char) : Prop := m ≠ [] ∧ (strtoull m).2 = []

instance (m : List Char) : Decidable (IsNumeral m) := inferInstanceAs (Decidable (_ ∧ _))

/-- The number a numeral stands for, whatever its size and sign. -/
def numeralValue (m : List Char) : ℤ :=
  let t := m.dropWhile isspace
  let negative := charAt t 0 == '-'
  let (base, digits) := numeral (if negative || charAt t 0 == '+' then t.tail else t)
  let n := magnitude base (digits.takeWhile fun c => digitValue c < base)
  if negative then -n else n

theorem isNumeral_iff :
    IsNumeral m ↔ ∃ blanks sign pre used base, Cut m blanks sign pre used [] base := by
  constructor
  · rintro ⟨hne, hwhole⟩
    rcases exists_cut m with ⟨hnone, -⟩ | ⟨blanks, sign, pre, used, rest, base, hcut⟩
    · rw [hnone] at hwhole
      exact absurd hwhole hne
    · rw [hcut.strtoull_eq] at hwhole
      obtain rfl : rest = [] := hwhole
      exact ⟨blanks, sign, pre, used, base, hcut⟩
  · rintro ⟨blanks, sign, pre, used, base, hcut⟩
    refine ⟨?_, by rw [hcut.strtoull_eq]⟩
    rintro rfl
    have hall := hcut.eq.symm
    simp only [List.append_eq_nil_iff] at hall
    exact hcut.used_ne_nil hall.2.2.2.1

/-- A string begins with the text `strtoull` takes: a numeral, or nothing. -/
theorem strtoull_split (s : List Char) :
    ∃ m, s = m ++ (strtoull s).2 ∧ (strtoull m).1 = (strtoull s).1 ∧
      ((m = [] ∧ isdigit (charAt s 0) = false) ∨ IsNumeral m) := by
  rcases exists_cut s with ⟨hnone, hdigit⟩ | ⟨blanks, sign, pre, used, rest, base, hcut⟩
  · rw [hnone]
    exact ⟨[], rfl, rfl, .inl ⟨rfl, hdigit⟩⟩
  · have hnumeral : IsNumeral (blanks ++ (sign ++ (pre ++ used))) :=
      isNumeral_iff.mpr ⟨_, _, _, _, _, hcut.alone⟩
    refine ⟨_, ?_, ?_, .inr hnumeral⟩
    · rw [hcut.strtoull_eq]
      simp only [List.append_assoc]
      exact hcut.eq
    · rw [hcut.strtoull_eq, hcut.alone.strtoull_eq]

/-- A digit in front is taken. -/
theorem strtoull_split_of_isdigit (hc : isdigit (charAt s 0) = true) :
    ∃ m, s = m ++ (strtoull s).2 ∧ (strtoull m).1 = (strtoull s).1 ∧ IsNumeral m ∧
      isdigit (charAt m 0) = true := by
  obtain ⟨m, hm, hvalue, hnumeral⟩ := strtoull_split s
  rcases hnumeral with ⟨-, hno⟩ | hnumeral
  · rw [hno] at hc
    cases hc
  · refine ⟨m, hm, hvalue, hnumeral, ?_⟩
    obtain ⟨d, v, rfl⟩ := List.exists_cons_of_ne_nil hnumeral.1
    rw [hm] at hc
    exact hc

/-- In front of a character that is no digit a numeral is read like alone. -/
theorem IsNumeral.strtoull_append (h : IsNumeral m)
    (hrest : ∀ c w, rest = c :: w → digitValue c = 36) :
    strtoull (m ++ rest) = ((strtoull m).1, rest) := by
  obtain ⟨blanks, sign, pre, used, base, hcut⟩ := isNumeral_iff.mp h
  rw [(hcut.append hrest).strtoull_eq, hcut.strtoull_eq]

/-- Without a digit in front nothing is taken. -/
theorem strtoull_of_no_digit (hs : ∀ c w, s = c :: w → digitValue c = 36 ∧ isspace c = false ∧
    c ≠ '-' ∧ c ≠ '+') : strtoull s = (0, s) := by
  rcases exists_cut s with ⟨hnone, -⟩ | ⟨blanks, sign, pre, used, rest, base, hcut⟩
  · exact hnone
  · obtain ⟨c, w, hcw, hdigit⟩ := hcut.exists_head rest
    have heq := hcut.eq
    rw [hcw] at heq
    cases hblanks : blanks with
    | cons b v =>
        have hspace := hcut.blanks b (by rw [hblanks]; exact List.mem_cons_self)
        rw [hblanks] at heq
        rw [(hs b _ heq).2.1] at hspace
        cases hspace
    | nil =>
        rw [hblanks, List.nil_append] at heq
        rcases hcut.sign with rfl | rfl | rfl
        · have := (hs c w heq).1
          omega
        · exact absurd rfl (hs '-' _ heq).2.2.1
        · exact absurd rfl (hs '+' _ heq).2.2.2

/-- Every character of a numeral is a blank, a sign or a digit of some base. -/
theorem IsNumeral.mem (h : IsNumeral m) (hc : c ∈ m) :
    isspace c = true ∨ c = '-' ∨ c = '+' ∨ digitValue c < 36 := by
  obtain ⟨blanks, sign, pre, used, base, hcut⟩ := isNumeral_iff.mp h
  have hbase := hcut.base_le
  rw [hcut.eq, List.append_nil] at hc
  simp only [List.mem_append] at hc
  rcases hc with hc | hc | hc | hc
  · exact .inl (hcut.blanks c hc)
  · rcases hcut.sign with rfl | rfl | rfl
    · exact absurd hc List.not_mem_nil
    · exact .inr (.inl (List.mem_singleton.mp hc))
    · exact .inr (.inr (.inl (List.mem_singleton.mp hc)))
  · refine .inr (.inr (.inr ?_))
    cases hcut.style with
    | hex hx =>
        rcases List.mem_cons.mp hc with rfl | hc
        · decide
        · obtain rfl := List.mem_singleton.mp hc
          rw [← digitValue_tolower, hx]
          decide
    | oct => exact absurd hc List.not_mem_nil
    | dec => exact absurd hc List.not_mem_nil
  · have hdigit := hcut.digits c hc
    exact .inr (.inr (.inr (by omega)))

theorem isdigit_of_digitValue_lt (h : digitValue c < 10) : isdigit c = true := by
  rw [digitValue_eq] at h
  apply (isdigit_iff c).mpr
  split at h
  · next hcode => exact hcode
  · split at h
    · omega
    · split at h <;> omega

/-- What a numeral begins with. -/
theorem IsNumeral.head (h : IsNumeral m) :
    ∃ c w, m = c :: w ∧ (isspace c = true ∨ c = '-' ∨ c = '+' ∨ isdigit c = true) := by
  obtain ⟨blanks, sign, pre, used, base, hcut⟩ := isNumeral_iff.mp h
  rw [hcut.eq]
  cases hblanks : blanks with
  | cons c w =>
      have hspace := hcut.blanks c (by rw [hblanks]; exact List.mem_cons_self)
      exact ⟨c, _, rfl, .inl hspace⟩
  | nil =>
      rcases hcut.sign with rfl | rfl | rfl
      · cases hcut.style with
        | hex hx => exact ⟨'0', _, rfl, .inr (.inr (.inr rfl))⟩
        | oct => exact ⟨'0', _, rfl, .inr (.inr (.inr rfl))⟩
        | dec hc =>
            have hdigit := hcut.digits _ List.mem_cons_self
            exact ⟨_, _, rfl, .inr (.inr (.inr (isdigit_of_digitValue_lt hdigit)))⟩
      · exact ⟨'-', _, rfl, .inr (.inl rfl)⟩
      · exact ⟨'+', _, rfl, .inr (.inr (.inl rfl))⟩

/-! ## What a numeral stands for -/

theorem Cut.numeralValue_eq {blanks sign pre used : List Char} {base : ℕ}
    (h : Cut m blanks sign pre used rest base) :
    numeralValue m = if (sign == ['-']) = true then -(magnitude base used : ℤ)
      else magnitude base used := by
  unfold numeralValue
  simp only [h.unsigned_eq.1, h.numeral_eq, h.span_eq.1]
  rw [h.unsigned_eq.2]

/-- A numeral that is not negative is read as it stands, up to the largest word. -/
theorem IsNumeral.toNat_strtoull (h : IsNumeral m) (hpos : 0 ≤ numeralValue m) :
    (strtoull m).1.toNat = min (numeralValue m).toNat (2 ^ 64 - 1) := by
  obtain ⟨blanks, sign, pre, used, base, hcut⟩ := isNumeral_iff.mp h
  rw [hcut.numeralValue_eq] at hpos ⊢
  rw [hcut.strtoull_eq]
  simp only [wordOf]
  cases hminus : sign == ['-'] with
  | true =>
      simp only [hminus, if_true] at hpos ⊢
      have hzero : magnitude base used = 0 := by omega
      rw [hzero]
      rfl
  | false =>
      simp only [Bool.false_eq_true, if_false, Int.toNat_natCast]
      by_cases hbig : 2 ^ 64 ≤ magnitude base used
      · rw [if_pos hbig, BitVec.toNat_allOnes]
        omega
      · rw [if_neg hbig, BitVec.toNat_ofNat]
        omega

/-- A numeral that begins with a digit has no sign. -/
theorem numeralValue_nonneg {w : List Char} (hc : isdigit c = true) :
    0 ≤ numeralValue (c :: w) := by
  have hcode := (isdigit_iff c).mp hc
  have hspace : isspace c = false := by
    refine Bool.eq_false_iff.mpr fun hspace => ?_
    have := (isspace_iff c).mp hspace
    omega
  have hdrop : (c :: w).dropWhile isspace = c :: w :=
    List.dropWhile_cons_of_neg (Bool.eq_false_iff.mp hspace)
  have hminus : (charAt (c :: w) 0 == '-') = false := by
    refine beq_false_of_ne fun heq : c = '-' => ?_
    rw [heq] at hc
    exact absurd hc (by decide)
  unfold numeralValue
  simp only [hdrop, hminus, Bool.false_eq_true, if_false]
  exact Int.natCast_nonneg _

end CText

end PerfHound.Lib
