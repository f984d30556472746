/-
# Openers followed by closers

A sequence in which every opening element is immediately followed by a closing
one, except at positions listed as broken. The position recorded as broken is the
one where the closer is missing, so a prefix that ends in an opener satisfies the
condition exactly when its length is listed, and appending is local.
-/

import Mathlib.Data.List.Basic

namespace PerfHound.Lib

universe uα

variable {α : Type uα} {first second : α → Prop} {broken : ℕ → Prop} {l m : List α}

/-- Every `first` element of the sequence is immediately followed by a `second`
one, unless the position after it is `broken`. -/
def FollowedBy (first second : α → Prop) (broken : ℕ → Prop) (l : List α) : Prop :=
  ∀ (i : ℕ) (a : α), l[i]? = some a → first a →
    (∃ b, l[i + 1]? = some b ∧ second b) ∨ broken (i + 1)

namespace FollowedBy

theorem nil : FollowedBy first second broken [] := by
  intro i a ha
  simp at ha

/-- More broken positions are easier to satisfy. -/
theorem mono {broken' : ℕ → Prop} (h : FollowedBy first second broken l)
    (himp : ∀ i, broken i → broken' i) : FollowedBy first second broken' l := by
  intro i a ha hfirst
  exact (h i a ha hfirst).imp_right (himp (i + 1))

/-- Appending is checked on the two parts. An opener at the very end of the first
part is already accounted for by its own condition. -/
theorem append (hl : FollowedBy first second broken l)
    (hm : FollowedBy first second (fun i => broken (l.length + i)) m) :
    FollowedBy first second broken (l ++ m) := by
  intro i a ha hfirst
  by_cases hi : i < l.length
  · rw [List.getElem?_append_left hi] at ha
    rcases hl i a ha hfirst with ⟨b, hb, hsecond⟩ | hbroken
    · have hi' : i + 1 < l.length := by
        by_contra hout
        rw [List.getElem?_eq_none (by omega)] at hb
        cases hb
      exact Or.inl ⟨b, by rw [List.getElem?_append_left hi', hb], hsecond⟩
    · exact Or.inr hbroken
  · have hle : l.length ≤ i := Nat.le_of_not_lt hi
    rw [List.getElem?_append_right hle] at ha
    rcases hm (i - l.length) a ha hfirst with ⟨b, hb, hsecond⟩ | hbroken
    · refine Or.inl ⟨b, ?_, hsecond⟩
      rw [List.getElem?_append_right (by omega), ← hb]
      congr 1
      omega
    · apply Or.inr
      have hpos : l.length + (i - l.length + 1) = i + 1 := by omega
      simpa only [hpos] using hbroken

/-- A single element that is no opener. -/
theorem single {a : α} (ha : ¬ first a) : FollowedBy first second broken [a] := by
  intro i b hb hfirst
  cases i with
  | zero => simp only [List.getElem?_cons_zero, Option.some.injEq] at hb; subst b; contradiction
  | succ i => simp at hb

/-- An element followed by a closer that is no opener itself. -/
theorem pair {a b : α} (hb : ¬ first b) (hclose : second b) :
    FollowedBy first second broken [a, b] := by
  intro i x hx hfirst
  match i with
  | 0 => exact Or.inl ⟨b, rfl, hclose⟩
  | 1 =>
      simp only [List.getElem?_cons_succ, List.getElem?_cons_zero, Option.some.injEq] at hx
      subst x
      contradiction
  | _ + 2 => simp at hx

/-- An opener whose closer is missing, with the position after it listed. -/
theorem broken_single {a : α} (hbroken : broken 1) : FollowedBy first second broken [a] := by
  intro i x hx hfirst
  cases i with
  | zero => exact Or.inr hbroken
  | succ i => simp at hx

/-- Where nothing is broken, every opener has its closer. -/
theorem closed (h : FollowedBy first second broken l) (hnone : ∀ i, ¬ broken i) {i : ℕ} {a : α}
    (ha : l[i]? = some a) (hfirst : first a) : ∃ b, l[i + 1]? = some b ∧ second b :=
  (h i a ha hfirst).resolve_right (hnone (i + 1))

/-- An opener that another element follows stays unfollowed, whatever comes behind. -/
theorem not_of_prefix {i : ℕ} {a b : α} (ha : l[i]? = some a) (hb : l[i + 1]? = some b)
    (hfirst : first a) (hsecond : ¬ second b) (hstart : l <+: m) :
    ¬ FollowedBy first second (fun _ => False) m := by
  intro h
  obtain ⟨rest, rfl⟩ := hstart
  have hget : ∀ {j : ℕ} {x : α}, l[j]? = some x → (l ++ rest)[j]? = some x := fun hx => by
    rw [List.getElem?_append_left (List.getElem?_eq_some_iff.mp hx).1, hx]
  obtain ⟨x, hx, hclose⟩ := (h i a (hget ha) hfirst).resolve_right id
  rw [hget hb, Option.some.injEq] at hx
  exact hsecond (hx ▸ hclose)

theorem of_none (h : ∀ a ∈ l, ¬ first a) : FollowedBy first second broken l :=
  fun _ a ha hfirst => absurd hfirst (h a (List.mem_of_getElem? ha))

/-- Two parts in which only a last opener lacks its closer, the second one beginning with the
closer if the first ends with an opener. -/
theorem join (hl : FollowedBy first second (· = l.length) l)
    (hm : FollowedBy first second (· = m.length) m)
    (hnext : ∀ a, l.getLast? = some a → first a → ∃ b, m.head? = some b ∧ second b) :
    FollowedBy first second (· = (l ++ m).length) (l ++ m) := by
  intro i a ha hfirst
  by_cases hi : i < l.length
  · rw [List.getElem?_append_left hi] at ha
    rcases hl i a ha hfirst with ⟨b, hb, hsecond⟩ | hlast
    · have hi' : i + 1 < l.length := (List.getElem?_eq_some_iff.mp hb).1
      exact Or.inl ⟨b, by rw [List.getElem?_append_left hi', hb], hsecond⟩
    · have hend : l.getLast? = some a := by
        rw [List.getLast?_eq_getElem?, ← hlast, Nat.add_sub_cancel, ha]
      obtain ⟨b, hb, hsecond⟩ := hnext a hend hfirst
      refine Or.inl ⟨b, ?_, hsecond⟩
      rw [hlast, List.getElem?_append_right (Nat.le_refl _), Nat.sub_self, ← List.head?_eq_getElem?,
        hb]
  · have hle : l.length ≤ i := Nat.le_of_not_lt hi
    rw [List.getElem?_append_right hle] at ha
    rcases hm (i - l.length) a ha hfirst with ⟨b, hb, hsecond⟩ | hlast
    · refine Or.inl ⟨b, ?_, hsecond⟩
      rw [List.getElem?_append_right (by omega), ← hb]
      congr 1
      omega
    · apply Or.inr
      rw [List.length_append]
      omega

/-- If the last element is no opener, none lacks its closer. -/
theorem of_last (h : FollowedBy first second (· = l.length) l)
    (hlast : ∀ a, l.getLast? = some a → ¬ first a) :
    FollowedBy first second (fun _ => False) l := by
  intro i a ha hfirst
  refine Or.inl ((h i a ha hfirst).resolve_right fun hend => hlast a ?_ hfirst)
  rw [List.getLast?_eq_getElem?, ← hend, Nat.add_sub_cancel, ha]

theorem not_of_last {a : α} (ha : l.getLast? = some a) (hfirst : first a) :
    ¬ FollowedBy first second (fun _ => False) l := by
  intro h
  rw [List.getLast?_eq_getElem?] at ha
  obtain ⟨b, hb, -⟩ := (h _ a ha hfirst).resolve_right id
  have hlt := (List.getElem?_eq_some_iff.mp hb).1
  omega

end FollowedBy

/-- Every element of the sequence has a property that speaks of its position. -/
def AtEach (P : ℕ → α → Prop) (l : List α) : Prop := ∀ (i : ℕ) (a : α), l[i]? = some a → P i a

namespace AtEach

variable {P Q : ℕ → α → Prop}

theorem nil : AtEach P [] := by
  intro i a ha
  simp at ha

theorem mono (h : AtEach P l) (himp : ∀ i a, P i a → Q i a) : AtEach Q l :=
  fun i a ha => himp i a (h i a ha)

theorem append (hl : AtEach P l) (hm : AtEach (fun i => P (l.length + i)) m) :
    AtEach P (l ++ m) := by
  intro i a ha
  by_cases hi : i < l.length
  · rw [List.getElem?_append_left hi] at ha
    exact hl i a ha
  · rw [List.getElem?_append_right (Nat.le_of_not_lt hi)] at ha
    have hpos : l.length + (i - l.length) = i := by omega
    exact hpos ▸ hm _ a ha

/-- Appending one element. -/
theorem concat (h : AtEach P l) {a : α} (ha : P l.length a) : AtEach P (l ++ [a]) := by
  intro i b hb
  rcases Nat.lt_trichotomy i l.length with hlt | rfl | hgt
  · rw [List.getElem?_append_left hlt] at hb
    exact h i b hb
  · rw [List.getElem?_concat_length, Option.some.injEq] at hb
    exact hb ▸ ha
  · rw [List.getElem?_eq_none (by rw [List.length_append, List.length_singleton]; omega)] at hb
    cases hb

end AtEach

end PerfHound.Lib
