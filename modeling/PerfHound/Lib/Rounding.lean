/-
# Rounding integers to a number of binary digits

A number is rounded to a multiple of the weight that its last digit has when one digit and `p`
further ones are kept, to the nearest multiple, and to the even one of two. Rounding changes
nothing on numbers that are short enough, and it keeps the order: a power of two between two
numbers is a multiple of both weights, so it stays between them.
-/

import Mathlib.Algebra.Order.Ring.Int
import Mathlib.Data.Nat.Log
import Mathlib.Order.Monotone.Basic

namespace PerfHound.Lib

namespace Rounding

/-! ## Multiples of one weight -/

/-- `n / d` to the nearest integer, and to the even one of two. -/
def quotient (n d : ℕ) : ℕ :=
  if d < 2 * (n % d) ∨ 2 * (n % d) = d ∧ n / d % 2 = 1 then n / d + 1 else n / d

variable {m n d : ℕ}

theorem div_le_quotient : n / d ≤ quotient n d := by
  unfold quotient
  split
  · exact Nat.le_succ _
  · exact le_rfl

theorem quotient_le_div_succ : quotient n d ≤ n / d + 1 := by
  unfold quotient
  split
  · exact le_rfl
  · exact Nat.le_succ _

theorem quotient_mul_self (k : ℕ) (hd : 0 < d) : quotient (k * d) d = k := by
  rw [quotient, Nat.mul_mod_left, Nat.mul_div_cancel k hd, if_neg]
  rintro (h | ⟨h, -⟩) <;> omega

theorem quotient_mono (h : m ≤ n) : quotient m d ≤ quotient n d := by
  obtain hlt | heq := (Nat.div_le_div_right (c := d) h).lt_or_eq
  · calc quotient m d ≤ m / d + 1 := quotient_le_div_succ
      _ ≤ n / d := hlt
      _ ≤ quotient n d := div_le_quotient
  · -- with one quotient the remainders have the order of the numbers
    have hm := Nat.div_add_mod m d
    have hn := Nat.div_add_mod n d
    rw [heq] at hm
    have hmod : m % d ≤ n % d := by omega
    unfold quotient
    rw [heq]
    split <;> split <;> omega

variable {p : ℕ}

/-- The weight of the last digit that is kept: `p` digits after the first one. -/
def ulp (p n : ℕ) : ℕ := 2 ^ (n.log2 - p)

/-- A natural number rounded to `p + 1` binary digits. -/
def roundNat (p n : ℕ) : ℕ := quotient n (ulp p n) * ulp p n

/-- An integer rounded to `p + 1` binary digits. -/
def round (p : ℕ) : ℤ → ℤ
  | .ofNat n => (roundNat p n : ℤ)
  | .negSucc n => -(roundNat p (n + 1) : ℤ)

theorem ulp_pos (p n : ℕ) : 0 < ulp p n := Nat.two_pow_pos _

theorem roundNat_le {k : ℕ} (hdvd : ulp p n ∣ k) (h : n ≤ k) : roundNat p n ≤ k := by
  obtain ⟨c, rfl⟩ := hdvd
  rw [mul_comm] at h ⊢
  apply Nat.mul_le_mul_right _
  calc quotient n (ulp p n) ≤ quotient (c * ulp p n) (ulp p n) := quotient_mono h
    _ = c := quotient_mul_self c (ulp_pos p n)

theorem le_roundNat {k : ℕ} (hdvd : ulp p n ∣ k) (h : k ≤ n) : k ≤ roundNat p n := by
  obtain ⟨c, rfl⟩ := hdvd
  rw [mul_comm] at h ⊢
  apply Nat.mul_le_mul_right _
  calc c = quotient (c * ulp p n) (ulp p n) := (quotient_mul_self c (ulp_pos p n)).symm
    _ ≤ quotient n (ulp p n) := quotient_mono h

/-- A number of at most `p + 1` digits stays what it is. -/
theorem roundNat_of_lt (h : n < 2 ^ (p + 1)) : roundNat p n = n := by
  have hulp : ulp p n = 1 := by
    rw [ulp]
    obtain rfl | hn := Nat.eq_zero_or_pos n
    · simp
    · have hlog := (Nat.log2_lt hn.ne').mpr h
      rw [Nat.sub_eq_zero_of_le (Nat.lt_succ_iff.mp hlog), pow_zero]
  have hquot := quotient_mul_self n Nat.one_pos
  rw [mul_one] at hquot
  rw [roundNat, hulp, mul_one, hquot]

theorem roundNat_mono (p : ℕ) : Monotone (roundNat p) := by
  intro m n h
  obtain rfl | hm := Nat.eq_zero_or_pos m
  · rw [roundNat_of_lt (Nat.two_pow_pos _)]
    exact Nat.zero_le _
  have hn : n ≠ 0 := (hm.trans_le h).ne'
  have hlog : m.log2 ≤ n.log2 := by
    rw [Nat.le_log2 hn]
    exact (Nat.log2_self_le hm.ne').trans h
  obtain hlt | heq := hlog.lt_or_eq
  · -- the power of two at which the longer number begins
    calc roundNat p m ≤ 2 ^ (m.log2 + 1) :=
          roundNat_le (Nat.pow_dvd_pow 2 (by omega)) Nat.lt_log2_self.le
      _ ≤ 2 ^ n.log2 := Nat.pow_le_pow_right (by decide) hlt
      _ ≤ roundNat p n := le_roundNat (Nat.pow_dvd_pow 2 (by omega)) (Nat.log2_self_le hn)
  · rw [roundNat, roundNat, ulp, ulp, heq]
    exact Nat.mul_le_mul_right _ (quotient_mono h)

theorem round_mono (p : ℕ) {x y : ℤ} (h : x ≤ y) : round p x ≤ round p y := by
  cases x with
  | ofNat m =>
    cases y with
    | ofNat n => exact Int.ofNat_le.mpr (roundNat_mono p (Int.ofNat_le.mp h))
    | negSucc n =>
      have hlt : Int.negSucc n < Int.ofNat m :=
        Int.lt_of_lt_of_le (Int.negSucc_lt_zero n) (Int.natCast_nonneg m)
      exact absurd h (Int.not_le.mpr hlt)
  | negSucc m =>
    cases y with
    | ofNat n =>
      have hneg : -(roundNat p (m + 1) : ℤ) ≤ 0 := Int.neg_nonpos_of_nonneg (Int.natCast_nonneg _)
      exact Int.le_trans hneg (Int.natCast_nonneg _)
    | negSucc n =>
      have hsucc : n + 1 ≤ m + 1 := by
        rw [Int.negSucc_eq, Int.negSucc_eq] at h
        omega
      exact Int.neg_le_neg (Int.ofNat_le.mpr (roundNat_mono p hsucc))

theorem round_of_natAbs_lt {z : ℤ} (h : z.natAbs < 2 ^ (p + 1)) : round p z = z := by
  cases z with
  | ofNat n => exact congrArg Int.ofNat (roundNat_of_lt h)
  | negSucc n => exact congrArg (fun k : ℕ => -(k : ℤ)) (roundNat_of_lt h)

end Rounding

end PerfHound.Lib
