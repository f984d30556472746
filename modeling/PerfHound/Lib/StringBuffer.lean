/-
# Text in an allocated buffer

A buffer is the list of its characters. `realloc` keeps what fits and leaves the rest as
it finds it; `sprintf` puts a text and a NUL at an offset, and has no result when they do
not fit; and `%s` prints up to the first NUL, and has no result when there is none. What
a buffer prints therefore survives a `realloc` unless the NUL is cut off, and is replaced
by any text that is written from the start.
-/

import PerfHound.Lib.CText
import Mathlib.Data.List.TakeWhile

namespace PerfHound.Lib

namespace StringBuffer

open CText

/-- `realloc(buf, size)`. Slots the buffer did not have hold `fresh`. -/
def realloc (size : ℕ) (fresh : ℕ → Char) (buf : List Char) : List Char :=
  buf.take size ++ (List.range' buf.length (size - buf.length)).map fresh

/-- `off + sprintf(buf + off, ...)`, and the buffer. -/
def sprintf (off : ℕ) (text buf : List Char) : Option (ℕ × List Char) :=
  if off + text.length < buf.length then
    some (off + text.length, buf.take off ++ text ++ nul :: buf.drop (off + text.length + 1))
  else none

/-- One `sprintf` after the other, each behind the text of the one before. -/
def sprintfs : ℕ → List (List Char) → List Char → Option (List Char)
  | _, [], buf => some buf
  | off, text :: texts, buf => do
      let (off, buf) ← sprintf off text buf
      sprintfs off texts buf

/-- What `%s` prints. -/
def printed (buf : List Char) : Option (List Char) :=
  if nul ∈ buf then some (buf.takeWhile (· ≠ nul)) else none

theorem printed_of_eq {buf s rest : List Char} (hbuf : buf = s ++ nul :: rest) (hs : nul ∉ s) :
    printed buf = some s := by
  subst hbuf
  have hall : ∀ c ∈ s, decide (c ≠ nul) = true := by
    intro c hc
    exact decide_eq_true fun h => hs (h ▸ hc)
  rw [printed, if_pos (by simp), List.takeWhile_append_of_pos hall]
  simp

theorem eq_of_printed {buf s : List Char} (h : printed buf = some s) :
    ∃ rest, buf = s ++ nul :: rest ∧ nul ∉ s := by
  have hmem : nul ∈ buf := by
    by_contra hnone
    rw [printed, if_neg hnone] at h
    cases h
  obtain ⟨pre, rest, hbuf, hpre⟩ := List.eq_append_cons_of_mem hmem
  rw [printed_of_eq hbuf hpre] at h
  obtain rfl := Option.some.inj h
  exact ⟨rest, hbuf, hpre⟩

/-- A text is printed alone if and only if a NUL stands behind it. -/
theorem printed_append_iff {s : List Char} (hs : nul ∉ s) (c : Char) (rest : List Char) :
    printed (s ++ c :: rest) = some s ↔ c = nul := by
  constructor
  · intro h
    obtain ⟨rest', hbuf, -⟩ := eq_of_printed h
    exact (List.cons.inj (List.append_cancel_left hbuf)).1
  · rintro rfl
    exact printed_of_eq rfl hs

/-- A `realloc` keeps the text as long as it keeps the NUL behind it. -/
theorem printed_realloc {buf s : List Char} (h : printed buf = some s) (size : ℕ)
    (fresh : ℕ → Char) :
    printed (realloc size fresh buf) = if s.length < size then some s else none := by
  obtain ⟨rest, rfl, hs⟩ := eq_of_printed h
  split
  case isTrue hfits =>
    obtain ⟨more, rfl⟩ := Nat.exists_eq_add_of_lt hfits
    have hkept : ∃ rest', realloc (s.length + more + 1) fresh (s ++ nul :: rest) =
        s ++ nul :: rest' := by
      rw [realloc, Nat.add_assoc, List.take_length_add_append, List.take_succ_cons,
        List.append_assoc, List.cons_append]
      exact ⟨_, rfl⟩
    obtain ⟨rest', hrest⟩ := hkept
    exact printed_of_eq hrest hs
  case isFalse hcut =>
    have hkept : realloc size fresh (s ++ nul :: rest) = s.take size := by
      have hnone : size - (s ++ nul :: rest).length = 0 := by
        rw [List.length_append]
        omega
      rw [realloc, hnone, List.take_append_of_le_length (Nat.le_of_not_lt hcut)]
      simp
    rw [hkept, printed, if_neg fun hmem => hs (List.mem_of_mem_take hmem)]

/-- A new buffer prints something only if it happens to hold a NUL. -/
theorem printed_realloc_nil {size : ℕ} {fresh : ℕ → Char} (hfresh : ∀ i, fresh i ≠ nul) :
    printed (realloc size fresh []) = none := by
  have hnul : nul ∉ realloc size fresh [] := by
    simp only [realloc, List.take_nil, List.nil_append, List.mem_map, not_exists, not_and]
    exact fun i _ => hfresh i
  rw [printed, if_neg hnul]

theorem length_realloc (size : ℕ) (fresh : ℕ → Char) (buf : List Char) :
    (realloc size fresh buf).length = size := by
  simp only [realloc, List.length_append, List.length_take, List.length_map, List.length_range']
  omega

/-- Texts written one behind the other stand there as one, if they fit with a NUL behind
them. -/
theorem sprintfs_eq {texts : List (List Char)} (hne : texts ≠ []) :
    ∀ (off : ℕ) (buf : List Char), sprintfs off texts buf =
      if off + texts.flatten.length < buf.length then
        some (buf.take off ++ texts.flatten ++ nul :: buf.drop (off + texts.flatten.length + 1))
      else none := by
  induction texts with
  | nil => exact absurd rfl hne
  | cons text texts ih =>
      intro off buf
      by_cases hfits : off + text.length < buf.length
      case neg =>
        have hover : ¬ off + (text :: texts).flatten.length < buf.length := by
          rw [List.flatten_cons, List.length_append]
          omega
        rw [sprintfs, sprintf, if_neg hfits, if_neg hover]
        rfl
      case pos =>
        have hone : sprintf off text buf = some (off + text.length,
            buf.take off ++ text ++ nul :: buf.drop (off + text.length + 1)) := if_pos hfits
        have hhead : (buf.take off ++ text).length = off + text.length := by
          rw [List.length_append, List.length_take, Nat.min_eq_left (by omega)]
        rw [sprintfs, hone]
        show sprintfs (off + text.length) texts _ = _
        cases texts with
        | nil => simp [sprintfs, hfits]
        | cons next texts =>
            rw [ih (List.cons_ne_nil _ _), List.take_left' hhead, List.flatten_cons,
              List.length_append, List.length_append, hhead, List.length_cons,
              List.length_drop]
            have hlength : off + text.length + (buf.length - (off + text.length + 1) + 1) =
                buf.length := by omega
            have hdrop : ∀ k, (buf.take off ++ text ++ nul :: buf.drop (off + text.length + 1)).drop
                (off + text.length + k + 1) = buf.drop (off + text.length + k + 1) := by
              intro k
              rw [Nat.add_assoc, ← hhead, List.drop_length_add_append, List.drop_succ_cons,
                List.drop_drop, hhead]
              congr 1
              omega
            rw [hlength, hdrop, List.flatten_cons, Nat.add_assoc off]
            simp [List.append_assoc]

/-- A text from the start of the buffer is what is printed. -/
theorem printed_sprintfs {texts : List (List Char)} (buf : List Char) (hne : texts ≠ [])
    (hnul : nul ∉ texts.flatten) :
    (sprintfs 0 texts buf).bind printed =
      if texts.flatten.length < buf.length then some texts.flatten else none := by
  rw [sprintfs_eq hne, Nat.zero_add]
  split
  · exact printed_of_eq (List.append_assoc _ _ _) hnul
  · rfl

end StringBuffer

end PerfHound.Lib
