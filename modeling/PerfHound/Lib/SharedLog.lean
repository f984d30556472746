/-
# A log that several writers append to

Every entry of the log carries a tag: who wrote it, and as part of what. The part of a tag is
what was written under it, in the order of the log. Appending extends one part and leaves the
others alone (`part_append`), so the parts can be followed one by one; and where the tags ascend
in the log, it is its parts one behind the other (`flatMap_part`).
-/

import Mathlib.Data.List.Basic

namespace PerfHound.Lib

namespace SharedLog

universe uα uτ

variable {τ : Type uτ} {α : Type uα} [DecidableEq τ]

/-- What was written under a tag. -/
def part (log : List (τ × α)) (t : τ) : List α :=
  (log.filter fun e => e.1 = t).map Prod.snd

@[simp]
theorem part_nil (t : τ) : part ([] : List (τ × α)) t = [] := rfl

theorem part_append (log log' : List (τ × α)) (t : τ) :
    part (log ++ log') t = part log t ++ part log' t := by
  rw [part, List.filter_append, List.map_append]
  rfl

theorem part_tagged_self (t : τ) (xs : List α) : part (xs.map (Prod.mk t)) t = xs := by
  rw [part, List.filter_map, List.map_map, List.filter_eq_self.mpr]
  · exact List.map_id xs
  · intro x _
    exact decide_eq_true rfl

theorem part_tagged_of_ne {t t' : τ} (hne : t ≠ t') (xs : List α) :
    part (xs.map (Prod.mk t)) t' = [] := by
  rw [part, List.filter_map, List.map_map, List.filter_eq_nil_iff.mpr]
  · rfl
  · intro x _
    simpa using hne

/-- A log whose keys ascend is cut in two by a bound on them. -/
theorem filter_lt_append_filter_eq (key : α → ℕ) {n : ℕ} {l : List α}
    (hascend : l.Pairwise fun a b => key a ≤ key b) (hbound : ∀ a ∈ l, key a < n + 1) :
    (l.filter fun a => key a < n) ++ (l.filter fun a => key a = n) = l := by
  induction l with
  | nil => rfl
  | cons a l ih =>
      obtain ⟨hfirst, hrest⟩ := List.pairwise_cons.mp hascend
      have hbound' : ∀ b ∈ l, key b < n + 1 := fun b hb => hbound b (List.mem_cons_of_mem a hb)
      have ha : key a < n + 1 := hbound a List.mem_cons_self
      by_cases hlt : key a < n
      · have hne : key a ≠ n := Nat.ne_of_lt hlt
        simp only [List.filter_cons, hlt, hne, decide_true, decide_false, if_true,
          Bool.false_eq_true, if_false, List.cons_append]
        rw [ih hrest hbound']
      · -- from here on all keys are the last one
        have heq : ∀ b ∈ a :: l, key b = n := by
          intro b hb
          rcases List.mem_cons.mp hb with rfl | hb
          · exact Nat.le_antisymm (Nat.lt_succ_iff.mp ha) (Nat.le_of_not_lt hlt)
          · exact Nat.le_antisymm (Nat.lt_succ_iff.mp (hbound' b hb))
              (Nat.le_trans (Nat.le_of_not_lt hlt) (hfirst b hb))
        rw [List.filter_eq_self.mpr fun b hb => decide_eq_true (heq b hb),
          List.filter_eq_nil_iff.mpr fun b hb => by simp [heq b hb], List.nil_append]

/-- **Ascending keys.** A log whose keys ascend is what was written under each, in turn. -/
theorem flatMap_filter (key : α → ℕ) {n : ℕ} {l : List α}
    (hascend : l.Pairwise fun a b => key a ≤ key b) (hbound : ∀ a ∈ l, key a < n) :
    ((List.range n).flatMap fun k => l.filter fun a => key a = k) = l := by
  induction n generalizing l with
  | zero =>
      cases l with
      | nil => rfl
      | cons a l => exact absurd (hbound a List.mem_cons_self) (Nat.not_lt_zero _)
  | succ n ih =>
      have hbelow := ih (hascend.filter fun a => decide (key a < n))
        fun a ha => of_decide_eq_true (List.mem_filter.mp ha).2
      have hparts : ∀ k ∈ List.range n, (l.filter fun a => key a = k) =
          (l.filter fun a => key a < n).filter fun a => key a = k := by
        intro k hk
        rw [List.filter_filter]
        apply List.filter_congr
        intro a _
        by_cases ha : key a = k
        · simp [ha, List.mem_range.mp hk]
        · simp [ha]
      rw [List.range_succ, List.flatMap_append, List.flatMap_singleton,
        List.flatMap_congr hparts, hbelow]
      exact filter_lt_append_filter_eq key hascend hbound

end SharedLog

end PerfHound.Lib
