/-
# Counters that are narrower than a record

A counter of `w` bits shows the true count modulo `2 ^ w`. The probe records what it reads as
a 64-bit number, and the tool subtracts two of them as 64-bit numbers; neither knows `w`,
which the kernel module has from CPUID. A counter that wraps between the two reads of an
interval therefore makes the difference too large by `2 ^ 64 - 2 ^ w`, which is nothing for
64-bit counters only.
-/

import PerfHound.Utils.RowLoop

namespace PerfHound

open Lib Lib.CText Lib.PairScan RecText ScanText RowLoop

namespace CounterWidth

/-- What `rdpmc` or a read of `PMEVCNTR` delivers for a `w`-bit counter. -/
def reading (w count : ℕ) : U64 := BitVec.ofNat 64 (count % 2 ^ w)

theorem toNat_reading {w : ℕ} (hw : w ≤ 64) (count : ℕ) :
    (reading w count).toNat = count % 2 ^ w := by
  have hlt : count % 2 ^ w < 2 ^ w := Nat.mod_lt _ (Nat.two_pow_pos w)
  have hle : 2 ^ w ≤ 2 ^ 64 := Nat.pow_le_pow_right (by decide) hw
  rw [reading, BitVec.toNat_ofNat, Nat.mod_eq_of_lt (Nat.lt_of_lt_of_le hlt hle)]

/-- A counter that is read twice shows the increment, or wraps once. -/
theorem count_add_mod {w d : ℕ} (hd : d < 2 ^ w) (count : ℕ) :
    (count + d) % 2 ^ w =
      if count % 2 ^ w + d < 2 ^ w then count % 2 ^ w + d else count % 2 ^ w + d - 2 ^ w := by
  have hlt : count % 2 ^ w < 2 ^ w := Nat.mod_lt _ (Nat.two_pow_pos w)
  rw [← Nat.mod_add_mod]
  split
  case isTrue hinside => exact Nat.mod_eq_of_lt hinside
  case isFalse hwrap =>
    rw [Nat.mod_eq_sub_mod (Nat.le_of_not_lt hwrap), Nat.mod_eq_of_lt (by omega)]

/-- The difference of two readings. -/
theorem toNat_sub_reading {w d : ℕ} (hw : w ≤ 64) (hd : d < 2 ^ w) (count : ℕ) :
    (reading w (count + d) - reading w count).toNat =
      if count % 2 ^ w + d < 2 ^ w then d else 2 ^ 64 - 2 ^ w + d := by
  have hlt : count % 2 ^ w < 2 ^ w := Nat.mod_lt _ (Nat.two_pow_pos w)
  have hle : 2 ^ w ≤ 2 ^ 64 := Nat.pow_le_pow_right (by decide) hw
  rw [BitVec.toNat_sub, toNat_reading hw, toNat_reading hw, count_add_mod hd]
  split
  case isTrue hinside =>
    have hsum : 2 ^ 64 - count % 2 ^ w + (count % 2 ^ w + d) = 2 ^ 64 + d := by omega
    rw [hsum, Nat.add_mod_left, Nat.mod_eq_of_lt (Nat.lt_of_lt_of_le hd hle)]
  case isFalse hwrap =>
    have hsum : 2 ^ 64 - count % 2 ^ w + (count % 2 ^ w + d - 2 ^ w) = 2 ^ 64 - 2 ^ w + d := by
      omega
    rw [hsum, Nat.mod_eq_of_lt (by omega)]

/-- The difference is the increment for a 64-bit counter, and for others without a wrap. -/
theorem toNat_sub_reading_eq_iff {w d : ℕ} (hw : w ≤ 64) (hd : d < 2 ^ w) (count : ℕ) :
    (reading w (count + d) - reading w count).toNat = d ↔
      w = 64 ∨ count % 2 ^ w + d < 2 ^ w := by
  rw [toNat_sub_reading hw hd]
  split
  case isTrue hinside => exact iff_of_true rfl (Or.inr hinside)
  case isFalse hwrap =>
    simp only [hwrap, or_false]
    constructor
    · intro h
      have hfull : 2 ^ 64 ≤ 2 ^ w := by omega
      exact Nat.le_antisymm hw ((Nat.pow_le_pow_iff_right (by decide)).mp hfull)
    · rintro rfl
      omega

/-- **Wrap-around.** For a pair whose rows hold two readings of a `w`-bit counter, with an
increment `d` in between, the tool prints `d` if the counter has not wrapped and
`2 ^ 64 - 2 ^ w + d` if it has. That is `d` exactly for 64-bit counters or without a wrap. -/
theorem printed_difference (b : Build) (f : FloatText) (arg : Interval.Arg)
    (file : Interval.RecFile) (nev : ℕ) (hnev : nev ≤ 12) (recs : List Rec)
    (out : List Interval.OutRow)
    (hout : (calcInterval f arg file (recText b f.print nev (recs.map (Row.ofRec nev)))).map
      Prod.snd = some out)
    (k : ℕ) (s e : Row)
    (hpair : (taken arg.isStart arg.isEnd (recs.map (Row.ofRec nev)))[k]? = some (s, e))
    (j w a d : ℕ) (hw : w ≤ 64) (hd : d < 2 ^ w) (hs : s.ev[j]? = some (reading w a))
    (he : e.ev[j]? = some (reading w (a + d))) :
    ∃ o v, out[k]? = some o ∧ o.delta.ev[j]? = some v ∧
      v.toNat = (if a % 2 ^ w + d < 2 ^ w then d else 2 ^ 64 - 2 ^ w + d) ∧
      (v.toNat = d ↔ w = 64 ∨ a % 2 ^ w + d < 2 ^ w) := by
  rw [calcInterval_rows hnev length_ev_of_mem] at hout
  split at hout
  case isTrue => cases hout
  case isFalse =>
    obtain rfl := Option.some.inj hout
    refine ⟨file.outRow (0 + k) (printedDelta f (s, e)), reading w (a + d) - reading w a, ?_, ?_,
      toNat_sub_reading hw hd a, toNat_sub_reading_eq_iff hw hd a⟩
    · rw [Interval.RecFile.getElem?_numbered, List.getElem?_map, hpair]
      rfl
    · show (List.zipWith (· - ·) e.ev s.ev)[j]? = _
      rw [List.getElem?_zipWith, he, hs]

/-- A record with one event. -/
def counted (gid pid : U32) (ev : U64) : Rec := ⟨gid, pid, 0, 0, Double.zero, fun _ => ev⟩

/-- A 48-bit counter that goes from its largest value to 0. -/
def wrapped : List Rec := [counted 1 1 (reading 48 (2 ^ 48 - 1)), counted 1 2 (reading 48 (2 ^ 48))]

theorem calcInterval_wrapped :
    (calcInterval onlyZero ⟨1, 1, 1, 2⟩ ⟨"node", 0, 0, []⟩
      (recText ⟨.ts, .x86, .phasm⟩ onlyZero.print 1 (wrapped.map (Row.ofRec 1)))).map Prod.snd =
        some [⟨0, "node", 0, 0, ⟨0, 0, Double.zero, [0xffff000000000001]⟩⟩] :=
  (calcInterval_rows (by decide) (by decide)).trans (by decide)

theorem printed_difference_wrapped :
    ∃ o v, ([⟨0, "node", 0, 0, ⟨0, 0, Double.zero, [0xffff000000000001]⟩⟩] :
        List Interval.OutRow)[0]? = some o ∧ o.delta.ev[0]? = some v ∧
      v.toNat = (if (2 ^ 48 - 1) % 2 ^ 48 + 1 < 2 ^ 48 then 1 else 2 ^ 64 - 2 ^ 48 + 1) ∧
      (v.toNat = 1 ↔ 48 = 64 ∨ (2 ^ 48 - 1) % 2 ^ 48 + 1 < 2 ^ 48) :=
  printed_difference ⟨.ts, .x86, .phasm⟩ onlyZero ⟨1, 1, 1, 2⟩ ⟨"node", 0, 0, []⟩ 1 (by decide)
    wrapped _ calcInterval_wrapped 0 (Row.ofRec 1 (counted 1 1 (reading 48 (2 ^ 48 - 1))))
    (Row.ofRec 1 (counted 1 2 (reading 48 (2 ^ 48)))) (by decide) 0 48 (2 ^ 48 - 1) 1 (by decide)
    (by decide) (by decide) (by decide)

/-- An increment of one count is printed as a number of 20 digits. -/
theorem wrap_not_seen :
    let printed := (calcInterval onlyZero ⟨1, 1, 1, 2⟩ ⟨"node", 0, 0, []⟩
      (recText ⟨.ts, .x86, .phasm⟩ onlyZero.print 1 (wrapped.map (Row.ofRec 1)))).map Prod.snd
    printed.map (fun out => out.map fun o => o.delta.ev) = some [[18446462598732840961]] ∧
      printed.map (fun out => out.map fun o => o.delta.ev) ≠ some [[1]] := by
  intro printed
  have hprinted : printed = _ := calcInterval_wrapped
  rw [hprinted]
  decide

end CounterWidth

end PerfHound
