/-
# Write-behind buffers

A producer puts records into numbered slots and, from time to time, a flush
copies the occupied slots to an output sequence and rewinds the slot index.
What such a buffer is for does not depend on when the flushes fall: the output
followed by the occupied slots is one growing sequence, its *contents*, and a
flush only moves the border between the two parts.

Nothing here bounds the slot index. A client with a finite slot array proves its
own bound; the laws below hold at every fill level, also for the partial
operations (dropping the newest slot, forgetting the occupied slots) with which
a client may lose records.
-/

import Mathlib.Data.List.Basic
import Mathlib.Data.List.Range
import Mathlib.Logic.Function.Basic

namespace PerfHound.Lib

universe uα uβ

/-- Numbered slots, the number of occupied ones, and what has been written out. -/
structure WriteBuffer (α : Type uα) (β : Type uβ) where
  /-- The slots. Those from `fill` on hold whatever was there before. -/
  slots : ℕ → α
  /-- How many slots are occupied. -/
  fill : ℕ
  /-- What the flushes have written, oldest first. -/
  out : List β

namespace WriteBuffer

variable {α : Type uα} {β : Type uβ}

/-- The first `n` slots as a flush prints them. -/
def printed (print : α → β) (w : WriteBuffer α β) (n : ℕ) : List β :=
  (List.range n).map fun i => print (w.slots i)

/-- The one sequence a write-behind buffer stands for: what is written, then
what still waits in the slots. -/
def contents (print : α → β) (w : WriteBuffer α β) : List β :=
  w.out ++ w.printed print w.fill

/-- Occupy the next slot. -/
def put (x : α) (w : WriteBuffer α β) : WriteBuffer α β :=
  { w with slots := Function.update w.slots w.fill x, fill := w.fill + 1 }

/-- Write the occupied slots out and rewind. -/
def flush (print : α → β) (w : WriteBuffer α β) : WriteBuffer α β :=
  { w with out := w.contents print, fill := 0 }

/-- Take the newest slot back. -/
def dropLast (w : WriteBuffer α β) : WriteBuffer α β :=
  { w with fill := w.fill - 1 }

/-- Forget every occupied slot without writing it. -/
def rewind (w : WriteBuffer α β) : WriteBuffer α β :=
  { w with fill := 0 }

@[simp]
theorem printed_zero (print : α → β) (w : WriteBuffer α β) : w.printed print 0 = [] := rfl

theorem printed_succ (print : α → β) (w : WriteBuffer α β) (n : ℕ) :
    w.printed print (n + 1) = w.printed print n ++ [print (w.slots n)] := by
  simp [printed, List.range_succ]

/-- Slots at or above `n` do not show in the first `n` printed slots. -/
theorem printed_congr (print : α → β) {w v : WriteBuffer α β} {n : ℕ}
    (hagree : ∀ i < n, w.slots i = v.slots i) : w.printed print n = v.printed print n := by
  apply List.map_congr_left
  intro i hi
  rw [hagree i (List.mem_range.mp hi)]

/-- Putting a record appends it to the contents, whatever the slot held. -/
@[simp]
theorem contents_put (print : α → β) (x : α) (w : WriteBuffer α β) :
    (w.put x).contents print = w.contents print ++ [print x] := by
  have hold : (w.put x).printed print w.fill = w.printed print w.fill :=
    printed_congr print fun i hi => by simp [put, Nat.ne_of_lt hi]
  have hnew : (w.put x).slots w.fill = x := by simp [put]
  calc
    (w.put x).contents print = w.out ++ (w.put x).printed print (w.fill + 1) := rfl
    _ = w.out ++ (w.printed print w.fill ++ [print x]) := by rw [printed_succ, hold, hnew]
    _ = w.contents print ++ [print x] := by rw [contents, List.append_assoc]

/-- **A flush is invisible.** It moves the border between what is written and
what waits, and nothing else. -/
@[simp]
theorem contents_flush (print : α → β) (w : WriteBuffer α β) :
    (w.flush print).contents print = w.contents print := by
  simp [flush, contents]

/-- A rewind keeps exactly what had been written. -/
@[simp]
theorem contents_rewind (print : α → β) (w : WriteBuffer α β) :
    w.rewind.contents print = w.out := by
  simp [rewind, contents]

/-- Taking the newest slot back takes the last element off the contents. -/
theorem contents_dropLast (print : α → β) {w : WriteBuffer α β} (hfill : w.fill ≠ 0) :
    w.dropLast.contents print = (w.contents print).dropLast := by
  obtain ⟨n, hn⟩ := Nat.exists_eq_succ_of_ne_zero hfill
  have hkept : w.dropLast.printed print n = w.printed print n :=
    printed_congr print fun _ _ => rfl
  have hlast : w.contents print = (w.out ++ w.printed print n) ++ [print (w.slots n)] := by
    rw [contents, hn, printed_succ, List.append_assoc]
  rw [hlast, List.dropLast_concat, contents]
  simp only [dropLast, hn, Nat.succ_eq_add_one, Nat.add_sub_cancel]
  exact congrArg (w.out ++ ·) hkept

/-- A record put and taken back leaves no trace in the contents. -/
theorem contents_dropLast_put (print : α → β) (x : α) (w : WriteBuffer α β) :
    (w.put x).dropLast.contents print = w.contents print := by
  rw [contents_dropLast print (Nat.succ_ne_zero w.fill), contents_put, List.dropLast_concat]

end WriteBuffer

end PerfHound.Lib
