/-
# The blocks of the distribution, in C and in Python

Which files a rank works on is computed three times: `init_rankmap` has the number a rank
allocates room for and the offsets rank 0 copies or sends from, and `parse_rankmap` of the
Python tool cuts slices out of the table. All three are the blocks between `first r` and
`first (r + 1)`, which follow one another without a gap.
-/

import Mathlib.Order.Interval.Finset.Nat
import Mathlib.Order.Monotone.Basic
import PerfHound.Utils.Distribution

namespace PerfHound

namespace Blocks

open PerfHound.Distribution

variable (total np : ℕ)

/-! ## The Python tool -/

def localNf (myrank : ℕ) : ℕ :=
  if myrank < total % np then total / np + 1 else total / np

def localStart (myrank : ℕ) : ℕ :=
  if myrank < total % np then localNf total np myrank * myrank
  else localNf total np myrank * myrank + total % np

def localEnd (myrank : ℕ) : ℕ := localStart total np myrank + localNf total np myrank

/-- `values[local_start:local_end]`, as the set of the rows it takes. -/
def slice (myrank : ℕ) : Finset ℕ :=
  Finset.Ico (localStart total np myrank) (localEnd total np myrank)

/-! ## Rank 0 of the C tool -/

/-- The offset and the count with which rank 0 takes the entries of a rank out of its arrays:
of its own ones in the loop that copies them, of the others in each message. -/
def taken (r : ℕ) : List (ℕ × ℕ) :=
  if r = 0 then [(0, nf total np 0)]
  else ((sends total np).filter fun m => m.dst = r).map fun m => (m.offset, m.count)

/-! ## The blocks -/

/-- The first file of a rank: one more for each rank before it that has the larger share. -/
def first (r : ℕ) : ℕ := r * (total / np) + min r (total % np)

variable {total np}

theorem first_zero : first total np 0 = 0 := by
  simp [first]

theorem first_succ (r : ℕ) : first total np (r + 1) = first total np r + nf total np r := by
  rw [first, first, nf, Nat.succ_mul]
  split <;> omega

theorem first_np (hnp : 1 ≤ np) : first total np np = total := by
  rw [first, Nat.min_eq_right (Nat.mod_lt total hnp).le, Nat.div_add_mod]

theorem first_mono : Monotone (first total np) :=
  monotone_nat_of_le_succ fun r => by
    rw [first_succ]
    exact Nat.le_add_right _ _

/-- A block ends within the files. -/
theorem first_add_nf_le {r : ℕ} (hr : r < np) : first total np r + nf total np r ≤ total := by
  rw [← first_succ]
  exact (first_mono hr).trans_eq (first_np (Nat.one_le_of_lt hr))

theorem localNf_eq (r : ℕ) : localNf total np r = nf total np r := rfl

theorem localStart_eq (r : ℕ) : localStart total np r = first total np r := by
  rw [localStart, localNf, first]
  split
  case isTrue hlarge => rw [Nat.min_eq_left hlarge.le]; ring
  case isFalse hsmall => rw [Nat.min_eq_right (Nat.le_of_not_lt hsmall)]; ring

theorem localEnd_eq (r : ℕ) : localEnd total np r = first total np (r + 1) := by
  rw [localEnd, localStart_eq, localNf_eq, first_succ]

/-- The offset of the larger shares. -/
theorem large_offset {r : ℕ} (hlarge : r < total % np) :
    r * (total / np + 1) = first total np r := by
  rw [first, Nat.min_eq_left hlarge.le]
  ring

/-- The offset of the other shares. -/
theorem small_offset {r : ℕ} (hsmall : total % np ≤ r) :
    total % np * (total / np + 1) + (r - total % np) * (total / np) = first total np r := by
  rw [first, Nat.min_eq_right hsmall]
  obtain ⟨k, hk⟩ := Nat.exists_eq_add_of_le hsmall
  rw [hk, Nat.add_sub_cancel_left]
  ring

/-- What rank 0 sends to another rank. -/
theorem filter_sends_eq {r : ℕ} (hr : r < np) (hroot : r ≠ 0) :
    ((sends total np).filter fun m => decide (m.dst = r)) =
      share r (first total np r) (nf total np r) := by
  rw [filter_sends, nf]
  by_cases hlarge : r < total % np
  case pos =>
    rw [if_pos ⟨Nat.one_le_iff_ne_zero.mpr hroot, hlarge⟩, if_neg (by omega), if_pos hlarge,
      large_offset hlarge, List.append_nil]
  case neg =>
    have hsmall : total % np ≤ r := Nat.le_of_not_lt hlarge
    rw [if_neg (by omega), if_pos ⟨hsmall, hr⟩, if_neg hlarge, small_offset hsmall,
      List.nil_append]

/-- Rank 0 takes the block of a rank, in each of its arrays. -/
theorem taken_eq {r : ℕ} (hr : r < np) :
    taken total np r ≠ [] ∧ ∀ p ∈ taken total np r, p = (first total np r, nf total np r) := by
  rw [taken]
  by_cases hroot : r = 0
  case pos =>
    rw [if_pos hroot, hroot, first_zero]
    simp
  case neg =>
    rw [if_neg hroot, filter_sends_eq hr hroot]
    simp [share]

/-- Every other rank is sent what it waits for, and rank 0 is sent nothing only if the
files cannot be shared out evenly. -/
theorem matched_rank_iff {r : ℕ} (hr : r < np) :
    Matched total np r ↔ r ≠ 0 ∨ total % np ≠ 0 := by
  rw [Matched]
  by_cases hroot : r = 0
  case pos =>
    subst hroot
    rw [filter_sends, recvs, if_pos (Or.inl rfl), if_neg (by omega)]
    by_cases hmod : total % np = 0
    · rw [if_pos ⟨hmod.le, hr⟩]
      simp [share, hmod]
    · rw [if_neg (by omega)]
      simp [hmod]
  case neg =>
    rw [filter_sends_eq hr hroot, recvs, if_neg (by omega)]
    simp [share, hroot]

/-- A file before the first one of a rank is in the block of an earlier rank. -/
theorem exists_block {row k : ℕ} (hrow : row < first total np k) :
    ∃ r < k, first total np r ≤ row ∧ row < first total np (r + 1) := by
  induction k with
  | zero =>
      rw [first_zero] at hrow
      cases hrow
  | succ k ih =>
      rcases Nat.lt_or_ge row (first total np k) with hbefore | hfrom
      · obtain ⟨r, hr, hblock⟩ := ih hbefore
        exact ⟨r, Nat.lt_succ_of_lt hr, hblock⟩
      · exact ⟨k, Nat.lt_succ_self k, hfrom, hrow⟩

theorem slice_eq (r : ℕ) :
    slice total np r = Finset.Ico (first total np r) (first total np (r + 1)) := by
  rw [slice, localStart_eq, localEnd_eq]

theorem disjoint_slice_of_lt {r r' : ℕ} (hlt : r < r') :
    Disjoint (slice total np r) (slice total np r') := by
  rw [slice_eq, slice_eq, Finset.disjoint_left]
  intro row hrow hrow'
  rw [Finset.mem_Ico] at hrow hrow'
  have hnext : first total np (r + 1) ≤ first total np r' := first_mono hlt
  omega

theorem mem_slice_iff (hnp : 1 ≤ np) (row : ℕ) :
    row < total ↔ ∃ r < np, row ∈ slice total np r := by
  simp only [slice_eq, Finset.mem_Ico]
  constructor
  · intro hrow
    exact exists_block (hrow.trans_eq (first_np hnp).symm)
  · rintro ⟨r, hr, -, hrow⟩
    have hlast : first total np (r + 1) ≤ first total np np := first_mono hr
    rw [first_np hnp] at hlast
    exact Nat.lt_of_lt_of_le hrow hlast

/-- **One partition.** What rank 0 of the C tool takes out of its arrays for a rank is the
slice of that rank in the Python tool, and is as long as the rank has room for. The slices
follow one another, no two of them overlap, and they have all the rows and no others. -/
theorem same_blocks (total np : ℕ) (hnp : 1 ≤ np) :
    (∀ r < np, taken total np r ≠ [] ∧ ∀ p ∈ taken total np r,
      p = (localStart total np r, localEnd total np r - localStart total np r) ∧
        p.2 = nf total np r) ∧
    localStart total np 0 = 0 ∧
    (∀ r, localEnd total np r = localStart total np (r + 1)) ∧
    localEnd total np (np - 1) = total ∧
    (∀ r r', r ≠ r' → Disjoint (slice total np r) (slice total np r')) ∧
    ∀ row, row < total ↔ ∃ r < np, row ∈ slice total np r := by
  have hcount : ∀ r, localEnd total np r - localStart total np r = nf total np r := by
    intro r
    rw [localEnd, Nat.add_sub_cancel_left, localNf_eq]
  refine ⟨fun r hr => ?_, ?_, fun r => ?_, ?_, fun r r' hne => ?_, mem_slice_iff hnp⟩
  · obtain ⟨hne, htaken⟩ := taken_eq hr
    refine ⟨hne, fun p hp => ?_⟩
    rw [htaken p hp, hcount, localStart_eq]
    exact ⟨rfl, rfl⟩
  · rw [localStart_eq, first_zero]
  · rw [localEnd_eq, localStart_eq]
  · rw [localEnd_eq, Nat.sub_add_cancel hnp, first_np hnp]
  · rcases Nat.lt_or_gt_of_ne hne with hlt | hgt
    · exact disjoint_slice_of_lt hlt
    · exact (disjoint_slice_of_lt hgt).symm

theorem same_blocks_seven_on_three :
    (∀ r < 3, taken 7 3 r ≠ [] ∧ ∀ p ∈ taken 7 3 r,
      p = (localStart 7 3 r, localEnd 7 3 r - localStart 7 3 r) ∧ p.2 = nf 7 3 r) ∧
    localStart 7 3 0 = 0 ∧
    (∀ r, localEnd 7 3 r = localStart 7 3 (r + 1)) ∧
    localEnd 7 3 (3 - 1) = 7 ∧
    (∀ r r', r ≠ r' → Disjoint (slice 7 3 r) (slice 7 3 r')) ∧
    ∀ row, row < 7 ↔ ∃ r < 3, row ∈ slice 7 3 r :=
  same_blocks 7 3 (by decide)

end Blocks

end PerfHound
