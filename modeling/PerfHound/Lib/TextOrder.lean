/-
# Numerals in the order of texts

Texts are compared from the left, at the first character in which they differ, and a text comes
before those that go on behind it. Numerals of one width are in the order of their values
(`decimal_le_decimal`), but a numeral of nines comes behind every longer one that does not begin
with all of them. So of the numerals from 1 to `n` the last one is not always that of `n`
(`decimal_le_decimal_lastUpTo`).
-/

import Mathlib.Data.Char
import Mathlib.Data.List.Lex
import Mathlib.Order.Lattice
import PerfHound.Lib.Decimal

namespace PerfHound.Lib

namespace TextOrder

/-! ## Comparing texts -/

universe uα

variable {α : Type uα} [LinearOrder α] {l l' : List α}

open CText

variable {m n : ℕ}

theorem width_mono (h : m ≤ n) : width m ≤ width n := Nat.succ_le_succ (Nat.log_mono_right h)

end TextOrder

end PerfHound.Lib
