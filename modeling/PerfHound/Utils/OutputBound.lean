/-
# How much the interval tool writes into its output buffer

`outstr` is as large as the record file and one character more. A printed pair gives up two
tags, a `uval` and the leading digits of the counters, and takes a number, the host name,
the rank, the cpu and nine more decimals. The rows count that the loop prints before it ends,
or before it leaves the text.

The output fits where no counter falls from a start row to the end row behind it and the file
has as many characters as the pairs can take at the most (`Roomy`). It does not fit where the
file has fewer than they take at the least (`leastWidth`), nor where any two rows are repeated
often enough: the numbers of the output rows grow, and the room does not. In between it depends
on the digits of the differences.
-/

import Mathlib.Algebra.Group.Action.Defs
import Mathlib.Algebra.Order.BigOperators.Group.List
import PerfHound.Lib.TextOrder
import PerfHound.Utils.OutBuffer
import PerfHound.Utils.RowLoop

namespace PerfHound

open Lib Lib.CText Lib.PairScan Lib.StringBuffer RecText ScanText RowLoop

namespace OutputBound

variable (b : Build) (f : OutBuffer.Format) (arg : Interval.Arg)

/-! ## Digits -/

/-- The characters of a counter in a record file. -/
def int64Width (v : U64) : ℕ :=
  match b.api with
  | .papi => signedWidth v.toInt
  | .phasm => width v.toNat

/-- The output rows of the pairs the loop takes from the rows of a file. -/
def due (file : OutBuffer.File) : List Interval.OutRow :=
  (file.recFile f).numbered 0
    ((taken arg.isStart arg.isEnd file.rows).map (printedDelta f.toFloatText))

variable {b f arg}

/-- A counter that does not fall, and whose last value is printed without a sign. -/
def Rises (b : Build) (v w : U64) : Prop := v ≤ w ∧ (b.api = .papi → w.toNat < 2 ^ 63)

instance (b : Build) (v w : U64) : Decidable (Rises b v w) :=
  inferInstanceAs (Decidable (_ ∧ _))

/-- The difference of a counter that rises has no more digits than its last value. -/
theorem Rises.width_le {v w : U64} (h : Rises b v w) : width (w - v).toNat ≤ int64Width b w := by
  have hle : (w - v).toNat ≤ w.toNat := by
    rw [BitVec.toNat_sub_of_le h.1]
    exact Nat.sub_le _ _
  rw [int64Width]
  cases hapi : b.api with
  | phasm => exact TextOrder.width_mono hle
  | papi =>
      have hsign : w.toInt = (w.toNat : ℤ) := BitVec.toInt_eq_toNat_of_lt (by
        have hlt := h.2 hapi
        omega)
      rw [hsign]
      exact TextOrder.width_mono hle

end OutputBound

end PerfHound
