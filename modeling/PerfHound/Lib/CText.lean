/-
# Text functions of the C library

A C string is the list of its characters before the terminating NUL, and reading at its
end gives the NUL. The functions are those of the C locale.
-/

import Mathlib.Algebra.Group.Nat.Defs
import Mathlib.Data.List.Basic

namespace PerfHound.Lib

namespace CText

def nul : Char := Char.ofNat 0

/-- The C string of a string. -/
def cstr (s : String) : List Char := s.toList.takeWhile (· ≠ nul)

/-- `s[n]`, for `n` up to the length of `s`. -/
def charAt (s : List Char) (n : ℕ) : Char := s.getD n nul

def isdigit (c : Char) : Bool := '0' ≤ c && c ≤ '9'

/-- Space, and tab to carriage return. -/
def isspace (c : Char) : Bool := c == ' ' || (9 ≤ c.toNat && c.toNat ≤ 13)

def tolower (c : Char) : Char := if 'A' ≤ c ∧ c ≤ 'Z' then Char.ofNat (c.toNat + 32) else c

def strncasecmp : List Char → List Char → ℕ → Int
  | _, _, 0 => 0
  | s, t, n + 1 =>
      let a := tolower (charAt s 0)
      let b := tolower (charAt t 0)
      if a ≠ b then (a.toNat : Int) - b.toNat
      else if a = nul then 0
      else strncasecmp s.tail t.tail n

/-- The value of a digit in bases up to 36, and 36 for other characters. -/
def digitValue (c : Char) : ℕ :=
  if isdigit c then c.toNat - '0'.toNat
  else if 'a' ≤ tolower c ∧ tolower c ≤ 'z' then (tolower c).toNat - 'a'.toNat + 10
  else 36

/-- The base of a numeral for base argument 0, and its digits: a prefix `0x` counts when
a hexadecimal digit follows. -/
def numeral : List Char → ℕ × List Char
  | '0' :: x :: d :: s =>
      if tolower x = 'x' ∧ digitValue d < 16 then (16, d :: s) else (8, '0' :: x :: d :: s)
  | '0' :: s => (8, '0' :: s)
  | s => (10, s)

/-- `strtoull(s, &s, 0)`: the value, and where it ends. Without a digit that is where it
began. A value that does not fit is the largest one, and a minus sign negates. -/
def strtoull (s : List Char) : BitVec 64 × List Char :=
  let t := s.dropWhile isspace
  let negative := charAt t 0 == '-'
  let (base, digits) := numeral (if negative || charAt t 0 == '+' then t.tail else t)
  let used := digits.takeWhile fun c => digitValue c < base
  let n := used.foldl (fun n c => n * base + digitValue c) 0
  if used.isEmpty then (0, s)
  else
    (if 2 ^ 64 ≤ n then BitVec.allOnes 64
      else if negative then -BitVec.ofNat 64 n
      else BitVec.ofNat 64 n,
    digits.dropWhile fun c => digitValue c < base)

example : strtoull " 0x1fG".toList = (0x1F, ['G']) := by decide

end CText

end PerfHound.Lib
