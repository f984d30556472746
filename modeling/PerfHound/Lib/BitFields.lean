/-
# Words made of fields

A word put together from values, each shifted to a place of its own. When every value fits
its place and the places do not overlap, each value can be taken out again, and the bits
outside the places are clear.
-/

import Mathlib.Algebra.Group.Nat.Defs
import Mathlib.Data.List.Basic

namespace PerfHound.Lib

/-- A value, and the place for it. -/
structure BitField where
  value : BitVec 64
  lo : ℕ
  width : ℕ

namespace BitField

/-- The bits of a place, moved to the bottom. -/
def get (w : BitVec 64) (lo width : ℕ) : BitVec 64 := (w.extractLsb' lo width).setWidth 64

/-- The word of some fields. -/
def pack : List BitField → BitVec 64
  | [] => 0
  | f :: fs => (f.value <<< f.lo) ||| pack fs

/-- The value fits its place. -/
structure Fits (f : BitField) : Prop where
  value : ∀ j, f.width ≤ j → f.value.getLsbD j = false
  place : f.lo + f.width ≤ 64

/-- Bit `b` is outside the place of a field. -/
def Outside (b : ℕ) (f : BitField) : Prop := b < f.lo ∨ f.lo + f.width ≤ b

/-- The places of two fields do not overlap. -/
def Apart (f g : BitField) : Prop := f.lo + f.width ≤ g.lo ∨ g.lo + g.width ≤ f.lo

instance (f g : BitField) : Decidable (Apart f g) := inferInstanceAs (Decidable (_ ∨ _))

variable {f : BitField} {fs : List BitField} {b j : ℕ}

/-- Numbers of `width` bits fit. -/
theorem fits_of_le (hvalue : f.value ≤ BitVec.ofNat 64 (2 ^ f.width - 1)) (hwidth : f.width < 64)
    (hplace : f.lo + f.width ≤ 64) : f.Fits := by
  refine ⟨fun j hj => Nat.testBit_lt_two_pow ?_, hplace⟩
  have hpow : 2 ^ f.width < 2 ^ 64 := Nat.pow_lt_pow_right (by decide) hwidth
  have hpos : 0 < 2 ^ f.width := Nat.two_pow_pos f.width
  have hle := BitVec.le_def.mp hvalue
  rw [BitVec.toNat_ofNat, Nat.mod_eq_of_lt (by omega)] at hle
  have hmono := Nat.pow_le_pow_right (n := 2) (by decide) hj
  omega

theorem getLsbD_get (w : BitVec 64) (lo width j : ℕ) (hwidth : width ≤ 64) :
    (get w lo width).getLsbD j = (decide (j < width) && w.getLsbD (lo + j)) := by
  rw [get, BitVec.getLsbD_setWidth, BitVec.getLsbD_extractLsb']
  by_cases hj : j < width
  · rw [decide_eq_true (by omega : j < 64), Bool.true_and]
  · rw [decide_eq_false hj, Bool.false_and, Bool.and_false]

/-- A place of one bit. -/
theorem getLsbD_get_one (w : BitVec 64) (lo : ℕ) : (get w lo 1).getLsbD 0 = w.getLsbD lo := by
  rw [getLsbD_get w lo 1 0 (by decide)]
  rfl

theorem getLsbD_shift_of_outside (hf : f.Fits) (hb : Outside b f) :
    (f.value <<< f.lo).getLsbD b = false := by
  rw [BitVec.getLsbD_shiftLeft]
  rcases hb with hlo | hhi
  · rw [decide_eq_true hlo, Bool.not_true, Bool.and_false, Bool.false_and]
  · rw [hf.value (b - f.lo) (by omega), Bool.and_false]

theorem getLsbD_shift_of_lt (hf : f.Fits) (hj : j < f.width) :
    (f.value <<< f.lo).getLsbD (f.lo + j) = f.value.getLsbD j := by
  have hplace := hf.place
  rw [BitVec.getLsbD_shiftLeft, decide_eq_true (by omega : f.lo + j < 64),
    decide_eq_false (by omega : ¬ f.lo + j < f.lo), Nat.add_sub_cancel_left]
  rfl

/-- Outside all places the word is clear. -/
theorem getLsbD_pack_of_outside (hfs : ∀ f ∈ fs, f.Fits) (hb : ∀ f ∈ fs, Outside b f) :
    (pack fs).getLsbD b = false := by
  induction fs with
  | nil => exact BitVec.getLsbD_zero
  | cons f fs ih =>
      rw [pack, BitVec.getLsbD_or,
        getLsbD_shift_of_outside (hfs f List.mem_cons_self) (hb f List.mem_cons_self),
        ih (fun g hg => hfs g (List.mem_cons_of_mem _ hg))
          (fun g hg => hb g (List.mem_cons_of_mem _ hg)), Bool.or_false]

/-- In its place the word has the value of the field. -/
theorem getLsbD_pack (hfs : ∀ f ∈ fs, f.Fits) (hapart : fs.Pairwise Apart) (hf : f ∈ fs)
    (hj : j < f.width) : (pack fs).getLsbD (f.lo + j) = f.value.getLsbD j := by
  induction fs with
  | nil => exact absurd hf List.not_mem_nil
  | cons g fs ih =>
      rw [List.pairwise_cons] at hapart
      have hrest : ∀ g ∈ fs, g.Fits := fun g hg => hfs g (List.mem_cons_of_mem _ hg)
      rw [pack, BitVec.getLsbD_or]
      rcases List.mem_cons.mp hf with rfl | hf
      · have houtside : ∀ g ∈ fs, Outside (f.lo + j) g := by
          intro g hg
          have := hapart.1 g hg
          simp only [Apart, Outside] at this ⊢
          omega
        rw [getLsbD_shift_of_lt (hfs f List.mem_cons_self) hj,
          getLsbD_pack_of_outside hrest houtside, Bool.or_false]
      · have houtside : Outside (f.lo + j) g := by
          have := hapart.1 f hf
          simp only [Apart, Outside] at this ⊢
          omega
        rw [getLsbD_shift_of_outside (hfs g List.mem_cons_self) houtside, Bool.false_or,
          ih hrest hapart.2 hf]

/-- Every value can be taken out again. -/
theorem get_pack (hfs : ∀ f ∈ fs, f.Fits) (hapart : fs.Pairwise Apart) (hf : f ∈ fs) :
    get (pack fs) f.lo f.width = f.value := by
  have hfits := hfs f hf
  have hplace := hfits.place
  apply BitVec.eq_of_getLsbD_eq
  intro j _
  rw [getLsbD_get _ _ _ _ (by omega)]
  by_cases hj : j < f.width
  · rw [decide_eq_true hj, Bool.true_and, getLsbD_pack hfs hapart hf hj]
  · rw [decide_eq_false hj, Bool.false_and, hfits.value j (Nat.le_of_not_lt hj)]

/-- A word without high bits is small. -/
theorem toNat_lt_of_high {w : BitVec 64} {n : ℕ} (h : ∀ b ≥ n, w.getLsbD b = false) :
    w.toNat < 2 ^ n :=
  Nat.lt_pow_two_of_testBit _ h

/-- What is taken out of a place fits it. -/
theorem toNat_get_lt (w : BitVec 64) {lo width : ℕ} (hwidth : width ≤ 64) :
    (get w lo width).toNat < 2 ^ width := by
  refine toNat_lt_of_high fun b hb => ?_
  rw [getLsbD_get _ _ _ _ hwidth, decide_eq_false (Nat.not_lt.mpr hb), Bool.false_and]

end BitField

end PerfHound.Lib
