/-
# Distributing the record files over the processes

`init_rankmap` of the interval tool gives `fcount / np` files to each process, and one
more to the first `fcount % np`. Rank 0 has read the names of all files; it keeps its own
and sends each of the others its share, in one loop for the larger shares and another one
for the rest. The first loop starts behind rank 0, the second one where the first ends.
-/

import Mathlib.Algebra.BigOperators.Group.Finset.Basic
import Mathlib.Tactic.Ring
import PerfHound.Core

namespace PerfHound

namespace Distribution

variable (fcount np : ℕ)

def nf (r : ℕ) : ℕ := if r < fcount % np then fcount / np + 1 else fcount / np

/-- What is known of a file, an array each. An entry of `hosts` is `HOST_NAME_MAX`
characters. -/
inductive Field
  | cpus
  | ranks
  | hosts
  deriving DecidableEq, Repr

/-- An `MPI_Send` of rank 0: `count` entries of an array from `offset` on, to `dst`, which is
the tag as well. -/
structure Send where
  dst : ℕ
  field : Field
  offset : ℕ
  count : ℕ
  deriving DecidableEq, Repr

/-- The share of one rank, in three messages. -/
def share (dst offset count : ℕ) : List Send :=
  [⟨dst, .cpus, offset, count⟩, ⟨dst, .ranks, offset, count⟩, ⟨dst, .hosts, offset, count⟩]

/-- The two loops of rank 0. -/
def sends : List Send :=
  let mod := fcount % np
  let n := fcount / np
  ((List.range' 1 (mod - 1)).flatMap fun i => share i (i * (n + 1)) (n + 1)) ++
    (List.range' mod (np - mod)).flatMap fun i => share i (mod * (n + 1) + (i - mod) * n) n

/-- The fields and lengths of the `MPI_Recv`s of a rank. -/
def recvs (r : ℕ) : List (Field × ℕ) :=
  if r = 0 ∨ np ≤ r then []
  else [(.cpus, nf fcount np r), (.ranks, nf fcount np r), (.hosts, nf fcount np r)]

/-- The messages to a rank are received one by one, each with the length it was sent with. -/
def Matched (r : ℕ) : Prop :=
  ((sends fcount np).filter fun m => m.dst = r).map (fun m => (m.field, m.count)) =
    recvs fcount np r

instance (r : ℕ) : Decidable (Matched fcount np r) :=
  inferInstanceAs (Decidable (_ = recvs fcount np r))

/-- The indices rank 0 uses of `allcpus`, `allranks` and `allhosts`: it sets up the rows of
`allhosts`, copies its own entries, and sends the others. A row of `allhosts` is named by its
index even when no entry of it is sent. -/
def allIndices : List ℕ :=
  0 :: List.range' 1 (fcount - 1) ++ List.range (nf fcount np 0) ++
    (sends fcount np).flatMap fun m =>
      match m.field with
      | .hosts => m.offset :: List.range' m.offset m.count
      | _ => List.range' m.offset m.count

/-- The indices a rank uses of its own `arg->cpus`, `arg->ranks` and `arg->hosts`: it sets up
the rows of `hosts` and fills in its share, and `calc_interval` looks at its first file
before it goes through all of them. -/
def ownIndices (r : ℕ) : List ℕ :=
  0 :: List.range' 1 (nf fcount np r - 1) ++ List.range (nf fcount np r) ++
    0 :: List.range (nf fcount np r)

/-- Every index is below the length of its array. -/
def InBounds : Prop :=
  (∀ i ∈ allIndices fcount np, i < fcount) ∧
    ∀ r < np, ∀ i ∈ ownIndices fcount np r, i < nf fcount np r

variable {fcount np}

/-! ## Which messages a rank is sent -/

/-- In a loop over ranks that sends to each its share, one rank is sent its own. -/
theorem filter_loop (offset : ℕ → ℕ) (count r first n : ℕ) :
    ((List.range' first n).flatMap fun i => share i (offset i) count).filter
        (fun m => decide (m.dst = r)) =
      if first ≤ r ∧ r < first + n then share r (offset r) count else [] := by
  induction n generalizing first with
  | zero => simp
  | succ n ih =>
      have hshare : (share first (offset first) count).filter (fun m => decide (m.dst = r)) =
          if first = r then share r (offset r) count else [] := by
        by_cases h : first = r
        · simp [share, h]
        · simp [share, h]
      rw [List.range'_succ, List.flatMap_cons, List.filter_append, hshare, ih]
      by_cases h : first = r
      · rw [if_pos h, if_neg (by omega), if_pos (by omega), List.append_nil]
      · rw [if_neg h, List.nil_append]
        exact if_congr (by omega) rfl rfl

/-- What rank 0 sends to a rank: a larger share, or one of the others. -/
theorem filter_sends (r : ℕ) :
    (sends fcount np).filter (fun m => decide (m.dst = r)) =
      (if 1 ≤ r ∧ r < fcount % np then
        share r (r * (fcount / np + 1)) (fcount / np + 1) else []) ++
      if fcount % np ≤ r ∧ r < np then
        share r (fcount % np * (fcount / np + 1) + (r - fcount % np) * (fcount / np)) (fcount / np)
      else [] := by
  rw [sends, List.filter_append, filter_loop, filter_loop]
  congr 1
  · exact if_congr (by omega) rfl rfl
  · by_cases hmod : fcount % np ≤ np
    · exact if_congr (by omega) rfl rfl
    · rw [if_neg (by omega), if_neg (by omega)]

/-- Every rank is sent what it waits for exactly when the second loop does not start at
rank 0. -/
theorem matched_iff (hnp : 1 ≤ np) : (∀ r, Matched fcount np r) ↔ fcount % np ≠ 0 := by
  have hmod : fcount % np < np := Nat.mod_lt _ hnp
  constructor
  · intro h hzero
    have hroot := h 0
    rw [Matched, filter_sends] at hroot
    simp [hzero, recvs, share, Nat.lt_of_lt_of_le Nat.zero_lt_one hnp] at hroot
  · intro hpos r
    rw [Matched, filter_sends, recvs]
    by_cases hroot : r = 0 ∨ np ≤ r
    · rw [if_neg (by omega), if_neg (by omega), if_pos hroot]
      rfl
    · rw [if_neg hroot, nf]
      by_cases hlarge : r < fcount % np
      · rw [if_pos (by omega), if_neg (by omega), if_pos hlarge]
        rfl
      · rw [if_neg (by omega), if_pos (by omega), if_neg hlarge]
        rfl

/-! ## Which indices are used -/

/-- The messages of a share say where it lies. -/
theorem of_mem_share {m : Send} {dst offset count : ℕ} (hm : m ∈ share dst offset count) :
    m.offset = offset ∧ m.count = count := by
  simp only [share, List.mem_cons, List.not_mem_nil, or_false] at hm
  rcases hm with rfl | rfl | rfl <;> exact ⟨rfl, rfl⟩

/-- With a file for every rank, the shares rank 0 sends are not empty and lie within the
names of all files. -/
theorem bounds_of_mem_sends (hn : 1 ≤ fcount / np) {m : Send} (hm : m ∈ sends fcount np) :
    m.offset + m.count ≤ fcount ∧ 1 ≤ m.count := by
  have hfiles : np * (fcount / np) + fcount % np = fcount := Nat.div_add_mod fcount np
  rw [sends, List.mem_append, List.mem_flatMap, List.mem_flatMap] at hm
  rcases hm with ⟨i, hi, hm⟩ | ⟨i, hi, hm⟩
  · -- the larger shares end before those of `fcount % np` ranks do
    obtain ⟨hoffset, hcount⟩ := of_mem_share hm
    rw [List.mem_range'_1] at hi
    have hmod : fcount % np ≤ np := by
      by_cases hnp : np = 0
      · simp [hnp] at hn
      · exact (Nat.mod_lt _ (Nat.pos_of_ne_zero hnp)).le
    have hend : (i + 1) * (fcount / np + 1) ≤ fcount % np * (fcount / np + 1) :=
      Nat.mul_le_mul_right _ (by omega)
    have hall : fcount % np * (fcount / np) ≤ np * (fcount / np) :=
      Nat.mul_le_mul_right _ hmod
    rw [Nat.add_mul, Nat.one_mul, Nat.mul_add (fcount % np), Nat.mul_one] at hend
    rw [hoffset, hcount]
    omega
  · -- the others end before those of all ranks do
    obtain ⟨hoffset, hcount⟩ := of_mem_share hm
    rw [List.mem_range'_1] at hi
    have hend : fcount % np * (fcount / np + 1) + (i - fcount % np) * (fcount / np) + fcount / np =
        (i + 1) * (fcount / np) + fcount % np := by
      obtain ⟨k, rfl⟩ := Nat.exists_eq_add_of_le hi.1
      rw [Nat.add_sub_cancel_left]
      ring
    have hall : (i + 1) * (fcount / np) ≤ np * (fcount / np) :=
      Nat.mul_le_mul_right _ (by omega)
    rw [hoffset, hcount]
    omega

/-- No rank has more files than there are. -/
theorem nf_le (hnp : 1 ≤ np) (r : ℕ) : nf fcount np r ≤ fcount := by
  have hfiles : np * (fcount / np) + fcount % np = fcount := Nat.div_add_mod fcount np
  have hone : 1 * (fcount / np) ≤ np * (fcount / np) := Nat.mul_le_mul_right _ hnp
  rw [nf]
  split <;> omega

/-- Where there is a file for every rank, every rank has one. -/
theorem one_le_nf (hnp : 1 ≤ np) (hle : np ≤ fcount) (r : ℕ) : 1 ≤ nf fcount np r := by
  have hn : 1 ≤ fcount / np := (Nat.one_le_div_iff hnp).mpr hle
  rw [nf]
  split
  · exact Nat.le_add_left 1 _
  · exact hn

/-- With as many files as processes, every rank has one. -/
theorem nf_self (hnp : 1 ≤ np) (r : ℕ) : nf np np r = 1 := by
  rw [nf, Nat.mod_self, if_neg (Nat.not_lt_zero r), Nat.div_self hnp]

/-- With more files than processes, rank 0 has two. -/
theorem two_le_nf (hnp : 1 ≤ np) (hlt : np < fcount) : 2 ≤ nf fcount np 0 := by
  have hfiles : np * (fcount / np) + fcount % np = fcount := Nat.div_add_mod fcount np
  have hn : 1 ≤ fcount / np := (Nat.one_le_div_iff hnp).mpr hlt.le
  rw [nf]
  by_cases hmod : 0 < fcount % np
  · rw [if_pos hmod]
    exact Nat.succ_le_succ hn
  · rw [if_neg hmod]
    by_contra hone
    have heq : fcount / np = 1 := by omega
    rw [heq] at hfiles
    omega

theorem sum_nf_range (k : ℕ) :
    ∑ r ∈ Finset.range k, nf fcount np r = k * (fcount / np) + min k (fcount % np) := by
  induction k with
  | zero => simp
  | succ k ih =>
      rw [Finset.sum_range_succ, ih, nf, Nat.succ_mul]
      split <;> omega

/-- All files are given to some rank. -/
theorem sum_nf (hnp : 1 ≤ np) : ∑ r ∈ Finset.range np, nf fcount np r = fcount := by
  rw [sum_nf_range, Nat.min_eq_right (Nat.mod_lt fcount hnp).le, Nat.div_add_mod]

/-- The shares do not grow with the rank. -/
theorem nf_anti {r r' : ℕ} (hle : r ≤ r') : nf fcount np r' ≤ nf fcount np r := by
  simp only [nf]
  split <;> split <;> omega

/-- Every access is in bounds exactly when there are at least as many files as processes: a
rank without a file still looks at the first one of its own. -/
theorem inBounds_iff (hfiles : 1 ≤ fcount) (hnp : 1 ≤ np) :
    InBounds fcount np ↔ np ≤ fcount := by
  constructor
  · intro h
    by_contra hlt
    have hown := h.2 fcount (by omega) 0 (by simp [ownIndices])
    rw [nf, Nat.mod_eq_of_lt (by omega), if_neg (Nat.lt_irrefl _),
      Nat.div_eq_of_lt (by omega)] at hown
    exact Nat.lt_irrefl 0 hown
  · intro hle
    refine ⟨fun i hi => ?_, fun r _ i hi => ?_⟩
    · simp only [allIndices, List.mem_append, List.mem_cons, List.mem_range'_1, List.mem_range,
        List.mem_flatMap] at hi
      rcases hi with (hi | hi) | ⟨m, hm, hi⟩
      · omega
      · exact Nat.lt_of_lt_of_le hi (nf_le hnp 0)
      · obtain ⟨hend, hcount⟩ := bounds_of_mem_sends ((Nat.one_le_div_iff hnp).mpr hle) hm
        cases hfield : m.field <;> rw [hfield] at hi <;>
          simp only [List.mem_cons, List.mem_range'_1] at hi <;> omega
    · have hpos := one_le_nf hnp hle r
      simp only [ownIndices, List.mem_append, List.mem_cons, List.mem_range'_1,
        List.mem_range] at hi
      omega

/-! ## The distribution as a whole -/

/-- Every message is received where it is sent to, and every access is in bounds, exactly
when there are more files than processes and they cannot be shared out evenly. -/
theorem distributed_iff (hfiles : 1 ≤ fcount) (hnp : 1 ≤ np) :
    ((∀ r, Matched fcount np r) ∧ InBounds fcount np) ↔ np < fcount ∧ fcount % np ≠ 0 := by
  rw [matched_iff hnp, inBounds_iff hfiles hnp]
  constructor
  · rintro ⟨hmod, hle⟩
    have hne : np ≠ fcount := by
      rintro rfl
      exact hmod (Nat.mod_self np)
    exact ⟨Nat.lt_of_le_of_ne hle hne, hmod⟩
  · rintro ⟨hlt, hmod⟩
    exact ⟨hmod, hlt.le⟩

/-- Five files on two processes. -/
theorem five_files_distributed : (∀ r, Matched 5 2 r) ∧ InBounds 5 2 :=
  (distributed_iff (by decide) (by decide)).mpr (by decide)

/-- With four files on two processes, rank 0 sends its own share to itself and does not
receive it. -/
theorem four_files_not_distributed : ¬ ((∀ r, Matched 4 2 r) ∧ InBounds 4 2) := by
  rintro ⟨h, -⟩
  exact absurd (h 0) (by decide)

end Distribution

end PerfHound
