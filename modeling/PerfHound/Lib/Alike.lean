/-
# Strings that differ in the case of letters

Two strings are alike when they differ in nothing but the case of letters, as far as the
first separator, with tails behind it that are related in some other way. What reads a
string from the left without seeing the case treats alike strings alike: a run of
characters of some kind, a numeral, the text up to a point. So a parser that is made of
such steps has one result on both, if its last step has one on related tails.
-/

import PerfHound.Lib.Numeral

namespace PerfHound.Lib

namespace CText

variable {s t a m : List Char} {c d : Char} {r : List Char → List Char → Prop}

/-- Equal up to the case of letters, as far as a character `d`, with related tails behind. -/
inductive Alike (d : Char) (r : List Char → List Char → Prop) : List Char → List Char → Prop
  | nil : Alike d r [] []
  | cons {b c : Char} {s t : List Char} (h : tolower b = tolower c) (hrest : Alike d r s t) :
      Alike d r (b :: s) (c :: t)
  | stop {s t : List Char} (h : r s t) : Alike d r (d :: s) (d :: t)

theorem SameCase.alike (h : SameCase s t) : Alike d r s t := by
  induction s generalizing t with
  | nil =>
      obtain rfl : t = [] := List.eq_nil_of_length_eq_zero h.length_eq.symm
      exact .nil
  | cons c s ih =>
      obtain ⟨b, t, rfl⟩ := List.exists_cons_of_length_eq_add_one h.length_eq.symm
      obtain ⟨hhead, htail⟩ := List.cons.inj h
      exact .cons hhead (ih htail)

/-- Strings that differ behind a separator only. -/
theorem alike_behind (q : List Char) (h : r s t) : Alike d r (q ++ d :: s) (q ++ d :: t) := by
  induction q with
  | nil => exact .stop h
  | cons c q ih => exact .cons rfl ih

namespace Alike

theorem symm (h : Alike d r s t) : Alike d (fun s t => r t s) t s := by
  induction h with
  | nil => exact .nil
  | cons hhead _ ih => exact .cons hhead.symm ih
  | stop htail => exact .stop htail

theorem mono {r' : List Char → List Char → Prop} (h : Alike d r s t)
    (hr : ∀ s t, r s t → r' s t) : Alike d r' s t := by
  induction h with
  | nil => exact .nil
  | cons hhead _ ih => exact .cons hhead ih
  | stop htail => exact .stop (hr _ _ htail)

theorem head (h : Alike d r s t) : tolower (charAt s 0) = tolower (charAt t 0) := by
  cases h with
  | nil => rfl
  | cons hhead _ => exact hhead
  | stop _ => rfl

/-- A test that does not see the case has one result on the first characters. -/
theorem test_head (h : Alike d r s t) {p : Char → Bool} (hcase : ∀ c, p (tolower c) = p c) :
    p (charAt s 0) = p (charAt t 0) := by
  rw [← hcase, h.head, hcase]

/-- A character that is no letter is expected in front: either both have it, with alike
strings behind, or none has. -/
theorem expect (h : Alike d r s t) (hcd : c ≠ d) (hcase : ∀ b, (tolower b == c) = (b == c)) :
    (charAt s 0 == c) = (charAt t 0 == c) ∧
      ((charAt s 0 == c) = true → Alike d r (s.drop 1) (t.drop 1)) := by
  refine ⟨h.test_head (p := (· == c)) hcase, fun heq => ?_⟩
  cases h with
  | nil => exact .nil
  | cons _ hrest => exact hrest
  | stop _ => exact absurd (beq_iff_eq.mp heq).symm hcd

/-- In front of the separator alike strings begin with characters of one letter. -/
theorem cons_inv (h : Alike d r (c :: s) t) (hc : c ≠ d) :
    ∃ b w, t = b :: w ∧ tolower c = tolower b ∧ Alike d r s w := by
  cases h with
  | cons hhead hrest => exact ⟨_, _, rfl, hhead, hrest⟩
  | stop _ => exact absurd rfl hc

/-- Alike strings are cut alike in front of the separator. -/
theorem split (h : Alike d r (a ++ s) t) (ha : d ∉ a) :
    ∃ b w, t = b ++ w ∧ SameCase a b ∧ Alike d r s w := by
  induction a generalizing t with
  | nil => exact ⟨[], t, rfl, rfl, h⟩
  | cons c a ih =>
      rw [List.mem_cons, not_or] at ha
      obtain ⟨b, w, rfl, hhead, hrest⟩ := h.cons_inv (Ne.symm ha.1)
      obtain ⟨a', v, rfl, hsame, hv⟩ := ih hrest ha.2
      refine ⟨b :: a', v, rfl, ?_, hv⟩
      rw [SameCase, List.map_cons, List.map_cons, hhead, hsame]

/-- The characters of one kind in front are the same letters, and alike strings are left. -/
theorem span (h : Alike d r s t) {p : Char → Bool} (hcase : ∀ c, p (tolower c) = p c)
    (hd : p d = false) :
    SameCase (s.takeWhile p) (t.takeWhile p) ∧ Alike d r (s.dropWhile p) (t.dropWhile p) := by
  induction h with
  | nil => exact ⟨rfl, .nil⟩
  | @cons b c s t hhead hrest ih =>
      have hp : p b = p c := by rw [← hcase, hhead, hcase]
      cases hb : p b with
      | true =>
          have hc : p c = true := hp ▸ hb
          rw [List.takeWhile_cons_of_pos hb, List.takeWhile_cons_of_pos hc,
            List.dropWhile_cons_of_pos hb, List.dropWhile_cons_of_pos hc]
          refine ⟨?_, ih.2⟩
          rw [SameCase, List.map_cons, List.map_cons, hhead, ih.1]
      | false =>
          have hc : p c = false := hp ▸ hb
          rw [List.takeWhile_cons_of_neg (Bool.eq_false_iff.mp hb),
            List.takeWhile_cons_of_neg (Bool.eq_false_iff.mp hc),
            List.dropWhile_cons_of_neg (Bool.eq_false_iff.mp hb),
            List.dropWhile_cons_of_neg (Bool.eq_false_iff.mp hc)]
          exact ⟨rfl, .cons hhead hrest⟩
  | stop htail =>
      rw [List.takeWhile_cons_of_neg (Bool.eq_false_iff.mp hd),
        List.takeWhile_cons_of_neg (Bool.eq_false_iff.mp hd),
        List.dropWhile_cons_of_neg (Bool.eq_false_iff.mp hd),
        List.dropWhile_cons_of_neg (Bool.eq_false_iff.mp hd)]
      exact ⟨rfl, .stop htail⟩

end Alike

/-! ## Numerals -/

theorem magnitude_congr {base : ℕ} (h : SameCase s t) : magnitude base s = magnitude base t := by
  have hlower : ∀ u, magnitude base (u.map tolower) = magnitude base u := by
    intro u
    simp only [magnitude, List.foldl_map, digitValue_tolower]
  rw [← hlower s, h, hlower t]

theorem tolower_eq_zero (h : tolower c = '0') : c = '0' := by
  have hzero := tolower_beq (d := '0') (by decide) c
  rw [h] at hzero
  exact beq_iff_eq.mp hzero.symm

/-- A character that ends a name or a numeral. -/
def Separator (d : Char) : Prop :=
  digitValue d = 36 ∧ isspace d = false ∧ d ≠ '-' ∧ d ≠ '+'

theorem numeral_base_le (s : List Char) : (numeral s).1 ≤ 16 := by
  unfold numeral
  split
  · split
    · exact Nat.le_refl 16
    · exact Nat.le_of_ble_eq_true rfl
  · exact Nat.le_of_ble_eq_true rfl
  · exact Nat.le_of_ble_eq_true rfl

theorem isspace_tolower (c : Char) : isspace (tolower c) = isspace c := by
  have hcode : (9 ≤ (tolower c).toNat && (tolower c).toNat ≤ 13) =
      (9 ≤ c.toNat && c.toNat ≤ 13) := by
    rw [toNat_tolower]
    split
    · grind
    · rfl
  rw [isspace, tolower_beq (by decide), hcode]
  rfl

namespace Alike

/-- A hexadecimal prefix is one in either case. -/
theorem numeral_hex {x e : Char} {w : List Char} (hd : Separator d)
    (h : Alike d r ('0' :: x :: e :: w) t) (hx : tolower x = 'x') (he : digitValue e < 16) :
    (numeral t).1 = 16 ∧ Alike d r (e :: w) (numeral t).2 := by
  have hne : ∀ {c}, digitValue c < 36 → c ≠ d := by
    rintro c hc rfl
    exact absurd hd.1 (Nat.ne_of_lt hc)
  have hxvalue : digitValue x = 33 := by
    rw [← digitValue_tolower, hx]
    rfl
  obtain ⟨z, t, rfl, hz, htail⟩ := h.cons_inv (hne (by decide))
  obtain ⟨y, t, rfl, hy, hdigits⟩ := htail.cons_inv (hne (by omega))
  obtain ⟨f, t, rfl, hf, -⟩ := hdigits.cons_inv (hne (by omega))
  obtain rfl := tolower_eq_zero (c := z) (hz ▸ rfl)
  have hhex : tolower y = 'x' ∧ digitValue f < 16 := by
    refine ⟨hy ▸ hx, ?_⟩
    rw [← digitValue_tolower, ← hf, digitValue_tolower]
    exact he
  have hnumeral : numeral ('0' :: y :: f :: t) = (16, f :: t) := if_pos hhex
  rw [hnumeral]
  exact ⟨rfl, hdigits⟩

/-- Alike strings have numerals of one base, and alike digits. -/
theorem numeral_eq (hd : Separator d) (h : Alike d r s t) :
    (numeral s).1 = (numeral t).1 ∧ Alike d r (numeral s).2 (numeral t).2 := by
  by_cases hs : ∃ x e w, s = '0' :: x :: e :: w ∧ tolower x = 'x' ∧ digitValue e < 16
  · obtain ⟨x, e, w, rfl, hx, he⟩ := hs
    have hnumeral : numeral ('0' :: x :: e :: w) = (16, e :: w) := if_pos ⟨hx, he⟩
    obtain ⟨hbase, hrest⟩ := h.numeral_hex hd hx he
    rw [hnumeral]
    exact ⟨hbase.symm, hrest⟩
  · by_cases ht : ∃ x e w, t = '0' :: x :: e :: w ∧ tolower x = 'x' ∧ digitValue e < 16
    · obtain ⟨x, e, w, rfl, hx, he⟩ := ht
      have hnumeral : numeral ('0' :: x :: e :: w) = (16, e :: w) := if_pos ⟨hx, he⟩
      obtain ⟨hbase, hrest⟩ := h.symm.numeral_hex hd hx he
      rw [hnumeral]
      exact ⟨hbase, hrest.symm⟩
    · have hoct : ∀ {u v : List Char}, (¬ ∃ x e w, u = '0' :: x :: e :: w ∧ tolower x = 'x' ∧
          digitValue e < 16) → u = '0' :: v → numeral u = (8, u) := by
        rintro u v hnone rfl
        exact numeral_oct fun x e w heq hxe => hnone ⟨x, e, w, heq, hxe⟩
      cases h with
      | nil => exact ⟨rfl, .nil⟩
      | @cons b c s t hhead hrest =>
          by_cases hb : b = '0'
          · have hc : c = '0' := tolower_eq_zero (by rw [← hhead, hb]; rfl)
            rw [hoct hs (by rw [hb]), hoct ht (by rw [hc])]
            exact ⟨rfl, .cons hhead hrest⟩
          · have hc : c ≠ '0' := by
              rintro rfl
              exact hb (tolower_eq_zero hhead)
            rw [numeral_dec hb, numeral_dec hc]
            exact ⟨rfl, .cons hhead hrest⟩
      | stop htail =>
          have hdec : d ≠ '0' := by
            rintro rfl
            exact absurd hd.1 (by decide)
          rw [numeral_dec hdec, numeral_dec hdec]
          exact ⟨rfl, .stop htail⟩

/-- Blanks and sign are taken off alike. -/
theorem unsigned (hd : Separator d) (h : Alike d r s t) :
    (charAt (s.dropWhile isspace) 0 == '-') = (charAt (t.dropWhile isspace) 0 == '-') ∧
      Alike d r
        (if charAt (s.dropWhile isspace) 0 == '-' || charAt (s.dropWhile isspace) 0 == '+'
          then (s.dropWhile isspace).tail else s.dropWhile isspace)
        (if charAt (t.dropWhile isspace) 0 == '-' || charAt (t.dropWhile isspace) 0 == '+'
          then (t.dropWhile isspace).tail else t.dropWhile isspace) := by
  have hblanks := (h.span isspace_tolower hd.2.1).2
  revert hblanks
  generalize s.dropWhile isspace = u
  generalize t.dropWhile isspace = v
  intro hblanks
  have hminus : (charAt u 0 == '-') = (charAt v 0 == '-') :=
    hblanks.test_head (p := (· == '-')) (tolower_beq (by decide))
  have hplus : (charAt u 0 == '+') = (charAt v 0 == '+') :=
    hblanks.test_head (p := (· == '+')) (tolower_beq (by decide))
  refine ⟨hminus, ?_⟩
  rw [hminus, hplus]
  cases hsign : charAt v 0 == '-' || charAt v 0 == '+' with
  | false => exact hblanks
  | true =>
      cases hblanks with
      | nil => exact .nil
      | cons _ hrest => exact hrest
      | stop _ =>
          have hat : ∀ w, charAt (d :: w) 0 = d := fun _ => rfl
          rw [hat, beq_false_of_ne hd.2.2.1, beq_false_of_ne hd.2.2.2] at hsign
          cases hsign

/-- `strtoull` reads one number from alike strings and leaves alike strings. -/
theorem strtoull_eq (hd : Separator d) (h : Alike d r s t) :
    (strtoull s).1 = (strtoull t).1 ∧ Alike d r (strtoull s).2 (strtoull t).2 := by
  obtain ⟨hminus, hunsigned⟩ := h.unsigned hd
  unfold strtoull
  simp only
  revert hunsigned
  generalize (if charAt (s.dropWhile isspace) 0 == '-' || charAt (s.dropWhile isspace) 0 == '+'
    then (s.dropWhile isspace).tail else s.dropWhile isspace) = u
  generalize (if charAt (t.dropWhile isspace) 0 == '-' || charAt (t.dropWhile isspace) 0 == '+'
    then (t.dropWhile isspace).tail else t.dropWhile isspace) = v
  intro hunsigned
  obtain ⟨hbase, hdigits⟩ := hunsigned.numeral_eq hd
  have hle := numeral_base_le u
  obtain ⟨hused, hrest⟩ := hdigits.span
    (p := fun c => digitValue c < (numeral u).1) (fun c => by rw [digitValue_tolower])
    (decide_eq_false (by rw [hd.1]; omega))
  have hempty : ∀ {x y : List Char}, SameCase x y → x.isEmpty = y.isEmpty := by
    intro x y hsame
    rw [Bool.eq_iff_iff, List.isEmpty_iff_length_eq_zero, List.isEmpty_iff_length_eq_zero,
      hsame.length_eq]
  have hvalue : ∀ {x y : List Char}, SameCase x y →
      magnitude (numeral u).1 x = magnitude (numeral u).1 y := fun hsame => magnitude_congr hsame
  unfold magnitude at hvalue
  rw [← hbase, hminus, hempty hused, hvalue hused]
  split
  · exact ⟨rfl, h⟩
  · exact ⟨rfl, hrest⟩

end Alike

end CText

end PerfHound.Lib
