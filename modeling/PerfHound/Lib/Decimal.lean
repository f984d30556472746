/-
# Decimal numerals

`printf` writes an integer as its decimal digits, and `strtol` and `strtoull` read one
back: they pass over white space and a sign, take the digits that follow, and stop at
the first other character. A numeral that is written in front of such a character is
read back whole, and its value is the one printed, modulo the width of the result.
-/

import Mathlib.Algebra.Group.Int.Defs
import Mathlib.Data.Nat.Log
import PerfHound.Lib.CText

namespace PerfHound.Lib

namespace CText

/-- `%u`. -/
def decimal (n : ℕ) : List Char := Nat.toDigits 10 n

/-- `%d`. -/
def signedDecimal : ℤ → List Char
  | .ofNat n => decimal n
  | .negSucc n => '-' :: decimal (n + 1)

/-- The numeral at the start of a text in base 10: whether it has a minus sign, its
value, and the text behind it. There may be no numeral. -/
def scanNumeral (s : List Char) : Option (Bool × ℕ × List Char) :=
  let t := s.dropWhile isspace
  let negative := charAt t 0 == '-'
  let u := if negative || charAt t 0 == '+' then t.tail else t
  if (u.takeWhile isdigit).isEmpty then none
  else some (negative, Nat.ofDigitChars 10 (u.takeWhile isdigit) 0, u.dropWhile isdigit)

/-- `strtol(s, &s, 10)`. Without a numeral the value is 0, and `s` stays. -/
def strtol (s : List Char) : ℤ × List Char :=
  match scanNumeral s with
  | none => (0, s)
  | some (negative, n, rest) =>
      (max (-2 ^ 63) (min (2 ^ 63 - 1) (if negative then -n else n)), rest)

/-- `strtoull(s, &s, 10)`. -/
def strtoullTen (s : List Char) : BitVec 64 × List Char :=
  match scanNumeral s with
  | none => (0, s)
  | some (negative, n, rest) =>
      (if 2 ^ 64 ≤ n then BitVec.allOnes 64
        else if negative then -BitVec.ofNat 64 n
        else BitVec.ofNat 64 n,
      rest)

/-- A text at which a numeral before it ends. -/
def NoDigit (s : List Char) : Prop := ∀ c ∈ s.head?, isdigit c = false

theorem noDigit_nil : NoDigit [] := fun _ hd => nomatch hd

theorem noDigit_cons {c : Char} (hc : isdigit c = false) (s : List Char) : NoDigit (c :: s) := by
  intro d hd
  obtain rfl : c = d := by simpa using hd
  exact hc

/-! ## What a numeral looks like -/

theorem isdigit_of_mem_decimal {n : ℕ} {c : Char} (hc : c ∈ decimal n) : isdigit c = true := by
  have hdigit : c.isDigit = true := Nat.isDigit_of_mem_toDigits (by decide) (by decide) hc
  simp only [Char.isDigit, Bool.and_eq_true, decide_eq_true_eq] at hdigit
  simp only [isdigit, Bool.and_eq_true, decide_eq_true_eq, Char.le_def]
  exact hdigit

theorem decimal_ne_nil (n : ℕ) : decimal n ≠ [] := Nat.toDigits_ne_nil

theorem decimal_eq_cons (n : ℕ) : ∃ c cs, decimal n = c :: cs :=
  List.exists_cons_of_ne_nil (decimal_ne_nil n)

theorem decimal_injective : Function.Injective decimal := by
  intro n m h
  have hvalue := congrArg (Nat.ofDigitChars 10 · 0) h
  simpa only [decimal, Nat.ofDigitChars_ten_toDigits] using hvalue

theorem length_signedDecimal_pos (z : ℤ) : 0 < (signedDecimal z).length := by
  cases z with
  | ofNat n => exact List.length_pos_iff.mpr (decimal_ne_nil n)
  | negSucc n => exact Nat.zero_lt_succ _

/-- The characters of a numeral: digits, and perhaps a minus sign. -/
theorem mem_signedDecimal {z : ℤ} {c : Char} (hc : c ∈ signedDecimal z) :
    isdigit c = true ∨ c = '-' := by
  cases z with
  | ofNat n => exact Or.inl (isdigit_of_mem_decimal hc)
  | negSucc n =>
      rcases List.mem_cons.mp hc with rfl | hc
      · exact Or.inr rfl
      · exact Or.inl (isdigit_of_mem_decimal hc)

theorem isspace_of_isdigit {c : Char} (hc : isdigit c = true) :
    isspace c = false ∧ c ≠ '-' ∧ c ≠ '+' := by
  simp only [isdigit, Bool.and_eq_true, decide_eq_true_eq, Char.le_def] at hc
  have hlow : 48 ≤ c.toNat := hc.1
  refine ⟨?_, ?_, ?_⟩
  · have hne : c ≠ ' ' := by rintro rfl; revert hlow; decide
    simp only [isspace, Bool.or_eq_false_iff, beq_eq_false_iff_ne, ne_eq, hne, not_false_iff,
      true_and, Bool.and_eq_false_iff, decide_eq_false_iff_not]
    omega
  · rintro rfl; revert hlow; decide
  · rintro rfl; revert hlow; decide

/-! ## Reading a numeral back -/

/-- The digits in front of a text that goes on with no digit. -/
theorem takeWhile_decimal_append (n : ℕ) {rest : List Char} (hrest : NoDigit rest) :
    (decimal n ++ rest).takeWhile isdigit = decimal n ∧
      (decimal n ++ rest).dropWhile isdigit = rest := by
  have hall : ∀ c ∈ decimal n, isdigit c = true := fun c => isdigit_of_mem_decimal
  have hstop : rest.takeWhile isdigit = [] ∧ rest.dropWhile isdigit = rest := by
    cases rest with
    | nil => exact ⟨rfl, rfl⟩
    | cons c cs =>
        have hc : isdigit c = false := hrest c rfl
        simp [hc]
  constructor
  · rw [List.takeWhile_append_of_pos hall, hstop.1, List.append_nil]
  · rw [List.dropWhile_append_of_pos hall, hstop.2]

/-- A numeral is read whole, up to a text that does not start with a digit. -/
theorem scanNumeral_decimal (n : ℕ) {rest : List Char} (hrest : NoDigit rest) :
    scanNumeral (decimal n ++ rest) = some (false, n, rest) := by
  obtain ⟨c, cs, hdigits⟩ := decimal_eq_cons n
  have hc : isdigit c = true := isdigit_of_mem_decimal (n := n) (by rw [hdigits]; simp)
  obtain ⟨hspace, hminus, hplus⟩ := isspace_of_isdigit hc
  obtain ⟨htake, hdrop⟩ := takeWhile_decimal_append n hrest
  have hskip : (decimal n ++ rest).dropWhile isspace = decimal n ++ rest := by
    rw [hdigits, List.cons_append, List.dropWhile_cons, if_neg (by rw [hspace]; decide)]
  have hhead : charAt (decimal n ++ rest) 0 = c := by rw [hdigits]; rfl
  have hvalue : Nat.ofDigitChars 10 (decimal n) 0 = n := Nat.ofDigitChars_ten_toDigits
  have hsome : (decimal n).isEmpty = false := by rw [hdigits]; rfl
  simp [scanNumeral, hskip, hhead, hminus, hplus, htake, hdrop, hvalue, hsome]

theorem scanNumeral_minus (n : ℕ) {rest : List Char} (hrest : NoDigit rest) :
    scanNumeral ('-' :: (decimal n ++ rest)) = some (true, n, rest) := by
  obtain ⟨c, cs, hdigits⟩ := decimal_eq_cons n
  obtain ⟨htake, hdrop⟩ := takeWhile_decimal_append n hrest
  have hskip : ('-' :: (decimal n ++ rest)).dropWhile isspace = '-' :: (decimal n ++ rest) := by
    rw [List.dropWhile_cons, if_neg (by decide)]
  have hhead : charAt ('-' :: (decimal n ++ rest)) 0 = '-' := rfl
  have hvalue : Nat.ofDigitChars 10 (decimal n) 0 = n := Nat.ofDigitChars_ten_toDigits
  have hsome : (decimal n).isEmpty = false := by rw [hdigits]; rfl
  simp [scanNumeral, hskip, hhead, htake, hdrop, hvalue, hsome]

/-- A text that is a numeral. -/
theorem scanNumeral_decimal_self (n : ℕ) : scanNumeral (decimal n) = some (false, n, []) := by
  simpa only [List.append_nil] using scanNumeral_decimal n noDigit_nil

theorem strtol_decimal {n : ℕ} (hn : n < 2 ^ 63) {rest : List Char} (hrest : NoDigit rest) :
    strtol (decimal n ++ rest) = ((n : ℤ), rest) := by
  have hclamp : max (-2 ^ 63) (min (2 ^ 63 - 1) (n : ℤ)) = n := by omega
  simp only [strtol, scanNumeral_decimal n hrest, Bool.false_eq_true, if_false, hclamp]

theorem strtol_signedDecimal {z : ℤ} (hlow : -2 ^ 63 ≤ z) (hhigh : z < 2 ^ 63) {rest : List Char}
    (hrest : NoDigit rest) : strtol (signedDecimal z ++ rest) = (z, rest) := by
  cases z with
  | ofNat n => exact strtol_decimal (by simp only [Int.ofNat_eq_natCast] at hhigh; omega) hrest
  | negSucc n =>
      have hvalue : -((n + 1 : ℕ) : ℤ) = Int.negSucc n := rfl
      have hclamp : max (-2 ^ 63) (min (2 ^ 63 - 1) (Int.negSucc n)) = Int.negSucc n := by omega
      simp only [strtol, signedDecimal, List.cons_append, scanNumeral_minus (n + 1) hrest, if_true,
        hvalue, hclamp]

theorem strtoullTen_decimal {v : BitVec 64} {rest : List Char} (hrest : NoDigit rest) :
    strtoullTen (decimal v.toNat ++ rest) = (v, rest) := by
  have hfits : ¬ 2 ^ 64 ≤ v.toNat := Nat.not_le.mpr v.isLt
  simp only [strtoullTen, scanNumeral_decimal v.toNat hrest, if_neg hfits, Bool.false_eq_true,
    if_false, BitVec.ofNat_toNat, BitVec.setWidth_eq]

/-- A word printed as a signed integer is read back as the same word: the sign negates
modulo `2 ^ 64`. -/
theorem strtoullTen_signedDecimal {v : BitVec 64} {rest : List Char} (hrest : NoDigit rest) :
    strtoullTen (signedDecimal v.toInt ++ rest) = (v, rest) := by
  have hbound := BitVec.two_mul_toInt_lt (x := v)
  have hbound' := BitVec.le_two_mul_toInt (x := v)
  have hback : BitVec.ofInt 64 v.toInt = v := BitVec.ofInt_toInt
  cases hz : v.toInt with
  | ofNat n =>
      rw [hz] at hbound hback
      have hfits : ¬ 2 ^ 64 ≤ n := by simp only [Int.ofNat_eq_natCast] at hbound; omega
      have hv : BitVec.ofNat 64 n = v := hback
      simp only [signedDecimal, strtoullTen, scanNumeral_decimal n hrest, if_neg hfits,
        Bool.false_eq_true, if_false, hv]
  | negSucc n =>
      rw [hz] at hbound' hback
      have hfits : ¬ 2 ^ 64 ≤ n + 1 := by omega
      have hv : -BitVec.ofNat 64 (n + 1) = v := by
        rw [← hback, Int.negSucc_eq, BitVec.ofInt_neg]
        rfl
      simp only [signedDecimal, List.cons_append, strtoullTen, scanNumeral_minus (n + 1) hrest,
        if_neg hfits, if_true, hv]

/-! ## How long a numeral is -/

/-- The number of digits of `%u`. -/
def width (n : ℕ) : ℕ := Nat.log 10 n + 1

/-- The number of characters of `%d`. -/
def signedWidth : ℤ → ℕ
  | .ofNat n => width n
  | .negSucc n => width (n + 1) + 1

end CText

end PerfHound.Lib
