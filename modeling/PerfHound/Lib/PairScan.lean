/-
# Taking pairs from the front of a list

A scan takes the elements of a list from the front. An opening element takes the one
behind it with it, and the two are a pair if the second one is closing; every other
element is passed over. Whether an opening element is looked at as one therefore depends
on what stands in front of it.

What matters is the run of opening elements in front of a place: of such a run every
second element is used up. The main results are `held_iff_odd`, on what is left at the end,
and `taken_eq_adjacent_iff`, on when every adjacent pair is taken.
-/

import Mathlib.Algebra.Order.Ring.Canonical
import Mathlib.Algebra.Order.Group.Nat
import Mathlib.Algebra.Ring.Parity
import Mathlib.Data.List.DropRight

namespace PerfHound.Lib

namespace PairScan

universe uα

variable {α : Type uα} (opening closing : α → Bool)

/-- The pairs the scan takes. An opening element in the last place is in none. -/
def taken : List α → List (α × α)
  | [] => []
  | [_] => []
  | a :: b :: l =>
      if opening a then
        if closing b then (a, b) :: taken l else taken l
      else taken (b :: l)

/-- An opening element in the last place is left without a second one. -/
def held : List α → Bool
  | [] => false
  | [a] => opening a
  | a :: b :: l => if opening a then held l else held (b :: l)

/-- The pairs of a closing element and an opening one right before it. -/
def adjacent (l : List α) : List (α × α) :=
  (l.zip l.tail).filter fun p => opening p.1 && closing p.2

/-- The number of opening elements in a row at the end of the list. -/
def run (l : List α) : ℕ := (l.rtakeWhile opening).length

/-- A closing element stands behind no opening element or an odd number of them in a row. -/
def OddRuns (l : List α) : Prop :=
  ∀ i b, l[i]? = some b → closing b → run opening (l.take i) = 0 ∨ Odd (run opening (l.take i))

variable {opening closing}

/-! ## The end of the list -/

@[simp]
theorem run_nil : run opening [] = 0 := by
  simp [run]

theorem run_snoc (l : List α) (b : α) :
    run opening (l ++ [b]) = if opening b then run opening l + 1 else 0 := by
  rw [run, List.rtakeWhile_concat]
  split
  · rw [List.length_append]
    rfl
  · rfl

theorem run_singleton (a : α) : run opening [a] = if opening a then 1 else 0 := by
  rw [← List.nil_append [a], run_snoc, run_nil]

theorem run_cons_of_not {a : α} (ha : opening a = false) (l : List α) :
    run opening (a :: l) = run opening l := by
  induction l using List.reverseRecOn with
  | nil => simp [run_singleton, ha]
  | append_singleton l b ih => rw [← List.cons_append, run_snoc, run_snoc, ih]

/-- Two elements in front that start with an opening one leave the parity of the run. -/
theorem odd_run_cons_cons {a : α} (ha : opening a = true) (b : α) (l : List α) :
    Odd (run opening (a :: b :: l)) ↔ Odd (run opening l) := by
  induction l using List.reverseRecOn with
  | nil =>
      rw [← List.singleton_append, run_snoc, run_singleton, if_pos ha]
      split <;> simp
  | append_singleton l c ih =>
      rw [← List.cons_append, ← List.cons_append, run_snoc, run_snoc]
      split
      · rw [Nat.odd_add_one, Nat.odd_add_one, ih]
      · rfl

/-- **What is left at the end**: an opening element, exactly when the list ends with an odd
number of them. -/
theorem held_iff_odd (l : List α) : held opening l = true ↔ Odd (run opening l) := by
  induction l using held.induct opening with
  | case1 => simp [held]
  | case2 a =>
      rw [held, run_singleton]
      cases opening a <;> simp
  | case3 a b l ha ih => rw [held, if_pos ha, ih, odd_run_cons_cons ha]
  | case4 a b l ha ih =>
      rw [held, if_neg ha, ih, run_cons_of_not (Bool.eq_false_iff.mpr ha)]

/-! ## One more element -/

/-- The pair of the last element of a list with a further one. -/
def withLast (l : List α) (b : α) : List (α × α) := l.getLast?.toList.map fun a => (a, b)

theorem length_withLast {l : List α} (hl : l ≠ []) (b : α) : (withLast l b).length = 1 := by
  rw [withLast, List.getLast?_eq_some_getLast hl]
  rfl

/-- What a further element adds to the pairs the scan takes: it closes the pair of an
element that was left. -/
def closed (opening closing : α → Bool) (l : List α) (b : α) : List (α × α) :=
  if held opening l && closing b then withLast l b else []

/-- What a further element adds to the adjacent pairs. -/
def joined (opening closing : α → Bool) (l : List α) (b : α) : List (α × α) :=
  if decide (0 < run opening l) && closing b then withLast l b else []

theorem closed_cons_cons {a : α} (ha : opening a = true) (c : α) (l : List α) (b : α) :
    closed opening closing (a :: c :: l) b = closed opening closing l b := by
  cases l with
  | nil => simp [closed, held, ha]
  | cons d l => simp [closed, held, ha, withLast]

theorem closed_cons_of_not {a : α} (ha : ¬opening a) (c : α) (l : List α) (b : α) :
    closed opening closing (a :: c :: l) b = closed opening closing (c :: l) b := by
  simp [closed, held, ha, withLast]

theorem taken_snoc (l : List α) (b : α) :
    taken opening closing (l ++ [b]) =
      taken opening closing l ++ closed opening closing l b := by
  induction l using taken.induct opening closing with
  | case1 => rfl
  | case2 a => by_cases ha : opening a <;> simp [taken, held, closed, withLast, ha]
  | case3 a c l ha hc ih =>
      rw [closed_cons_cons ha]
      simp [taken, ha, hc, ih]
  | case4 a c l ha hc ih =>
      rw [closed_cons_cons ha]
      simp [taken, ha, hc, ih]
  | case5 a c l ha ih =>
      rw [closed_cons_of_not ha]
      rw [List.cons_append] at ih
      simp [taken, ha, ih]

theorem adjacent_cons_cons (a c : α) (l : List α) :
    adjacent opening closing (a :: c :: l) =
      (if opening a && closing c then [(a, c)] else []) ++ adjacent opening closing (c :: l) := by
  rw [adjacent, List.tail_cons, List.zip_cons_cons, List.filter_cons, adjacent, List.tail_cons]
  split <;> rfl

theorem run_pos_cons_cons (a c : α) (l : List α) :
    0 < run opening (a :: c :: l) ↔ 0 < run opening (c :: l) := by
  obtain ⟨l', d, hl⟩ : ∃ l' d, c :: l = l' ++ [d] :=
    (List.eq_nil_or_concat' _).resolve_left (List.cons_ne_nil c l)
  rw [hl, ← List.cons_append, run_snoc, run_snoc]
  split <;> simp

theorem adjacent_snoc (l : List α) (b : α) :
    adjacent opening closing (l ++ [b]) =
      adjacent opening closing l ++ joined opening closing l b := by
  induction l with
  | nil => rfl
  | cons a l ih =>
      cases l with
      | nil =>
          rw [joined, run_singleton]
          by_cases ha : opening a <;> simp [adjacent, withLast, ha, List.filter_cons]
      | cons c l =>
          rw [List.cons_append, List.cons_append, adjacent_cons_cons, adjacent_cons_cons,
            ← List.cons_append, ih, List.append_assoc]
          simp only [joined, run_pos_cons_cons, withLast, List.getLast?_cons_cons]

theorem run_pos_of_held {l : List α} (h : held opening l = true) : 0 < run opening l := by
  rw [held_iff_odd] at h
  exact h.pos

theorem closed_sublist_joined (l : List α) (b : α) :
    (closed opening closing l b).Sublist (joined opening closing l b) := by
  rw [closed]
  split
  case isFalse => exact List.nil_sublist _
  case isTrue h =>
    rw [Bool.and_eq_true] at h
    rw [joined, if_pos (by simp [run_pos_of_held h.1, h.2])]

/-- The scan misses the pair of a closing element behind an even number of opening ones. -/
theorem closed_eq_joined_iff (l : List α) (b : α) :
    closed opening closing l b = joined opening closing l b ↔
      (closing b → run opening l = 0 ∨ Odd (run opening l)) := by
  rw [closed, joined]
  cases hb : closing b with
  | false => simp
  | true =>
      cases hheld : held opening l with
      | true => simp [run_pos_of_held hheld, ← held_iff_odd, hheld]
      | false =>
          have heven : ¬Odd (run opening l) := by simp [← held_iff_odd, hheld]
          simp only [heven, or_false, forall_const, Bool.and_true]
          constructor
          · intro h
            by_contra hrun
            have hl : l ≠ [] := by
              rintro rfl
              exact hrun run_nil
            have hone := length_withLast hl b
            rw [if_neg Bool.false_ne_true, if_pos (by simpa using Nat.pos_of_ne_zero hrun)] at h
            rw [← h] at hone
            cases hone
          · intro hrun
            simp [hrun]

/-! ## All adjacent pairs -/

theorem taken_sublist_adjacent (l : List α) :
    (taken opening closing l).Sublist (adjacent opening closing l) := by
  induction l using List.reverseRecOn with
  | nil => exact List.Sublist.refl []
  | append_singleton l b ih =>
      rw [taken_snoc, adjacent_snoc]
      exact ih.append (closed_sublist_joined l b)

theorem oddRuns_snoc (l : List α) (b : α) :
    OddRuns opening closing (l ++ [b]) ↔ OddRuns opening closing l ∧
      (closing b → run opening l = 0 ∨ Odd (run opening l)) := by
  constructor
  · intro h
    refine ⟨fun i c hc hclosing => ?_, fun hclosing => ?_⟩
    · have hi : i < l.length := (List.getElem?_eq_some_iff.mp hc).1
      have hrun := h i c (by rw [List.getElem?_append_left hi, hc]) hclosing
      rwa [List.take_append_of_le_length hi.le] at hrun
    · have hrun := h l.length b List.getElem?_concat_length hclosing
      rwa [List.take_left] at hrun
  · rintro ⟨hl, hb⟩ i c hc hclosing
    rcases Nat.lt_or_ge i l.length with hi | hi
    · rw [List.getElem?_append_left hi] at hc
      rw [List.take_append_of_le_length hi.le]
      exact hl i c hc hclosing
    · rw [List.getElem?_append_right hi, List.getElem?_singleton] at hc
      split at hc
      case isFalse => cases hc
      case isTrue hend =>
        obtain rfl := Option.some.inj hc
        obtain rfl : i = l.length := by omega
        rw [List.take_left]
        exact hb hclosing

/-- **Every adjacent pair is taken** exactly when no closing element stands behind an even
number of opening ones, other than none. -/
theorem taken_eq_adjacent_iff (l : List α) :
    taken opening closing l = adjacent opening closing l ↔ OddRuns opening closing l := by
  induction l using List.reverseRecOn with
  | nil => simp [taken, adjacent, OddRuns]
  | append_singleton l b ih =>
      rw [oddRuns_snoc, ← ih, ← closed_eq_joined_iff, taken_snoc, adjacent_snoc]
      constructor
      · intro h
        -- both parts are sublists, so neither may be shorter
        have htaken : (taken opening closing l).length ≤ (adjacent opening closing l).length :=
          (taken_sublist_adjacent l).length_le
        have hclosed : (closed opening closing l b).length ≤ (joined opening closing l b).length :=
          (closed_sublist_joined l b).length_le
        have hlength := congrArg List.length h
        rw [List.length_append, List.length_append] at hlength
        have hsame : taken opening closing l = adjacent opening closing l :=
          (taken_sublist_adjacent l).eq_of_length (by omega)
        rw [hsame] at h
        exact ⟨hsame, List.append_cancel_left h⟩
      · rintro ⟨hl, hb⟩
        rw [hl, hb]

end PairScan

end PerfHound.Lib
