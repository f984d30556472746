/-
# Slots of one size in a flat array

An array is cut into slots of `w` elements each, and a text is put at the start of a slot.
As long as no text is longer than a slot, texts that are put into the slots in order do not
touch one another, and what stands behind a text in its slot is what stood there before.
`overlay` is the array with texts in its first slots; `writeAt_overlay` fills the next one,
and `drop_overlay` and `take_overlay` cut out some of the slots.
-/

import Mathlib.Data.List.Basic

namespace PerfHound.Lib

namespace Slots

universe uα

variable {α : Type uα} {w : ℕ}

/-- The array with a text at an offset. -/
def writeAt (off : ℕ) (x buf : List α) : List α := buf.take off ++ x ++ buf.drop (off + x.length)

/-- `writeAt` where the text fits. -/
def store (off : ℕ) (x buf : List α) : Option (List α) :=
  if off + x.length ≤ buf.length then some (writeAt off x buf) else none

/-- The array with texts in its first slots. -/
def overlay (w : ℕ) : List (List α) → List α → List α
  | [], old => old
  | x :: xs, old => x ++ (old.take w).drop x.length ++ overlay w xs (old.drop w)

theorem writeAt_length_add (a : List α) (off : ℕ) (x buf : List α) :
    writeAt (a.length + off) x (a ++ buf) = a ++ writeAt off x buf := by
  rw [writeAt, List.take_length_add_append, Nat.add_assoc, List.drop_length_add_append, writeAt]
  simp only [List.append_assoc]

theorem length_writeAt {off : ℕ} {x buf : List α} (h : off + x.length ≤ buf.length) :
    (writeAt off x buf).length = buf.length := by
  rw [writeAt, List.length_append, List.length_append, List.length_take, List.length_drop]
  omega

/-- A slot with a text has the size of a slot. -/
theorem length_slot {x old : List α} (hx : x.length ≤ w) (hold : w ≤ old.length) :
    (x ++ (old.take w).drop x.length).length = w := by
  rw [List.length_append, List.length_drop, List.length_take]
  omega

theorem length_overlay {xs : List (List α)} (hxs : ∀ x ∈ xs, x.length ≤ w) :
    ∀ {old : List α}, w * xs.length ≤ old.length → (overlay w xs old).length = old.length := by
  induction xs with
  | nil => exact fun _ => rfl
  | cons x xs ih =>
      intro old hold
      rw [List.forall_mem_cons] at hxs
      rw [List.length_cons, Nat.mul_succ] at hold
      rw [overlay, List.length_append, length_slot hxs.1 (by omega), ih hxs.2, List.length_drop]
      · omega
      · rw [List.length_drop]
        omega

/-- The next slot is filled. -/
theorem writeAt_overlay {xs : List (List α)} {x : List α} (hxs : ∀ y ∈ xs, y.length ≤ w)
    (hx : x.length ≤ w) :
    ∀ {old : List α}, w * (xs.length + 1) ≤ old.length →
      writeAt (w * xs.length) x (overlay w xs old) = overlay w (xs ++ [x]) old := by
  induction xs with
  | nil =>
      intro old hold
      rw [List.length_nil, Nat.zero_add, Nat.mul_one] at hold
      have hrest : old.drop x.length = (old.take w).drop x.length ++ old.drop w := by
        conv_lhs => rw [← List.take_append_drop w old]
        rw [List.drop_append_of_le_length]
        rw [List.length_take]
        omega
      simp [writeAt, overlay, hrest]
  | cons y ys ih =>
      intro old hold
      rw [List.forall_mem_cons] at hxs
      rw [List.length_cons, Nat.mul_succ, Nat.mul_succ] at hold
      have hslot := length_slot hxs.1 (show w ≤ old.length by omega)
      have hoff : w * (y :: ys).length =
          (y ++ (old.take w).drop y.length).length + w * ys.length := by
        rw [hslot, List.length_cons, Nat.mul_succ, Nat.add_comm]
      rw [hoff, overlay, writeAt_length_add, ih hxs.2, List.cons_append, overlay]
      rw [List.length_drop, Nat.mul_succ]
      omega

theorem store_overlay {xs : List (List α)} {x old : List α} (hxs : ∀ y ∈ xs, y.length ≤ w)
    (hx : x.length ≤ w) (hold : w * (xs.length + 1) ≤ old.length) :
    store (w * xs.length) x (overlay w xs old) = some (overlay w (xs ++ [x]) old) := by
  have hfits : w * xs.length + x.length ≤ (overlay w xs old).length := by
    rw [Nat.mul_succ] at hold
    rw [length_overlay hxs (by omega)]
    omega
  rw [store, if_pos hfits, writeAt_overlay hxs hx hold]

/-- The slots behind the first ones. -/
theorem drop_overlay {xs : List (List α)} (hxs : ∀ x ∈ xs, x.length ≤ w) :
    ∀ {old : List α} {i : ℕ}, w * xs.length ≤ old.length → i ≤ xs.length →
      (overlay w xs old).drop (w * i) = overlay w (xs.drop i) (old.drop (w * i)) := by
  induction xs with
  | nil =>
      intro old i _ hi
      obtain rfl := Nat.le_zero.mp hi
      simp [overlay]
  | cons x xs ih =>
      intro old i hold hi
      rw [List.forall_mem_cons] at hxs
      rw [List.length_cons, Nat.mul_succ] at hold
      have hslot := length_slot hxs.1 (show w ≤ old.length by omega)
      cases i with
      | zero => simp
      | succ i =>
          have hoff : w * (i + 1) = (x ++ (old.take w).drop x.length).length + w * i := by
            rw [hslot, Nat.mul_succ, Nat.add_comm]
          have hold' : (old.drop w).drop (w * i) = old.drop (w * (i + 1)) := by
            rw [List.drop_drop, Nat.mul_succ, Nat.add_comm]
          have hrest : w * xs.length ≤ (old.drop w).length := by
            rw [List.length_drop]
            omega
          rw [overlay, List.drop_succ_cons, ← hold', ← ih hxs.2 hrest (Nat.le_of_succ_le_succ hi),
            hoff, List.drop_length_add_append]

/-- The first slots alone. -/
theorem take_overlay {xs : List (List α)} (hxs : ∀ x ∈ xs, x.length ≤ w) :
    ∀ {old : List α} {i : ℕ}, w * xs.length ≤ old.length → i ≤ xs.length →
      (overlay w xs old).take (w * i) = overlay w (xs.take i) (old.take (w * i)) := by
  induction xs with
  | nil =>
      intro old i _ hi
      obtain rfl := Nat.le_zero.mp hi
      simp [overlay]
  | cons x xs ih =>
      intro old i hold hi
      rw [List.forall_mem_cons] at hxs
      rw [List.length_cons, Nat.mul_succ] at hold
      have hslot := length_slot hxs.1 (show w ≤ old.length by omega)
      cases i with
      | zero => simp [overlay]
      | succ i =>
          have hoff : w * (i + 1) = (x ++ (old.take w).drop x.length).length + w * i := by
            rw [hslot, Nat.mul_succ, Nat.add_comm]
          have hfirst : (old.take (w * (i + 1))).take w = old.take w := by
            rw [List.take_take, Nat.min_eq_left (Nat.le_mul_of_pos_right w (Nat.succ_pos i))]
          have hothers : (old.take (w * (i + 1))).drop w = (old.drop w).take (w * i) := by
            rw [Nat.mul_succ, Nat.add_comm, List.take_drop]
          have hrest : w * xs.length ≤ (old.drop w).length := by
            rw [List.length_drop]
            omega
          rw [overlay, List.take_succ_cons, overlay, hfirst, hothers,
            ← ih hxs.2 hrest (Nat.le_of_succ_le_succ hi), hoff, List.take_length_add_append]

/-- Some of the slots. -/
theorem part_overlay {xs : List (List α)} (array : List α) (hxs : ∀ x ∈ xs, x.length ≤ w)
    (harray : w * xs.length ≤ array.length) {offset count : ℕ}
    (hend : offset + count ≤ xs.length) :
    ((overlay w xs array).drop (w * offset)).take (w * count) =
      overlay w ((xs.drop offset).take count) ((array.drop (w * offset)).take (w * count)) := by
  have hrest : w * (xs.drop offset).length ≤ (array.drop (w * offset)).length := by
    have hroom : w * (xs.drop offset).length + w * offset ≤ array.length := by
      rw [← Nat.mul_add, List.length_drop, Nat.sub_add_cancel (by omega)]
      exact harray
    have hlength : (array.drop (w * offset)).length = array.length - w * offset :=
      List.length_drop
    omega
  rw [drop_overlay hxs harray (by omega), take_overlay _ hrest]
  · rw [List.length_drop]
    omega
  · intro x hx
    exact hxs x (List.mem_of_mem_drop hx)

/-- Slots of one element that are all filled. -/
theorem overlay_one (xs old : List α) :
    overlay 1 (xs.map fun x => [x]) old = xs ++ old.drop xs.length := by
  induction xs generalizing old with
  | nil => rfl
  | cons x xs ih => cases old <;> simp [overlay, ih]

end Slots

end PerfHound.Lib
