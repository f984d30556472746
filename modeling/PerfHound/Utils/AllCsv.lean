/-
# What ends up in `all.csv`

A rank that has opened `all.csv` for append prints the text of one file into the stream, and
the stream reaches the file in one or more writes, each at the end of the file. The ranks of
`Gather` are followed through all of it: an action is a step of one rank, or one such write of
any length.

Two ranks may have the file open at the same time, so their texts may be mixed. But nothing is
lost or written twice, and the tokens keep an order: a file of a rank is written behind all that
come before it in the rank's own list, and behind the file of the same round of each rank below.
With one file for each rank no other order is left than that of the ranks.
-/

import PerfHound.Lib.SharedLog
import PerfHound.Utils.Gather
import PerfHound.Utils.OutBuffer

namespace PerfHound

open Lib

namespace Gather

/-- The ranks, and what they append. -/
structure Appending where
  ranks : State
  /-- What the stream of a rank still holds of its text. -/
  left : ℕ → List Char
  /-- The characters behind the header, each with the rank and the number of its file. -/
  all : List ((ℕ × ℕ) × Char)

/-- A rank takes its next step, or its stream writes `n` characters. -/
inductive Action
  | move (e : Event)
  | write (r n : ℕ)
  deriving DecidableEq, Repr

variable (np : ℕ) (nf : ℕ → ℕ) (text : ℕ → ℕ → List Char)

/-- `fprintf` puts the text of a file into the stream that has just been opened, and `fclose`
returns when the stream is empty. -/
def append (s : Appending) : Action → Option Appending
  | .move e =>
      match s.ranks.pc e.rank with
      | .fopen i =>
          (step np nf s.ranks e).map fun t =>
            { s with ranks := t, left := Function.update s.left e.rank (text e.rank i) }
      | .writing _ =>
          if s.left e.rank = [] then (step np nf s.ranks e).map fun t => { s with ranks := t }
          else none
      | _ => (step np nf s.ranks e).map fun t => { s with ranks := t }
  | .write r n =>
      match s.ranks.pc r with
      | .writing i =>
          if r < np ∧ 0 < n ∧ s.left r ≠ [] then
            some { s with
              left := Function.update s.left r ((s.left r).drop n)
              all := s.all ++ ((s.left r).take n).map (Prod.mk (r, i)) }
          else none
      | _ => none

/-- Before the exchange, behind the header that rank 0 has written. -/
def beforehand (nextjob : ℕ → ℕ) : Appending := ⟨initial np nextjob, fun _ => [], []⟩

/-- The file of one tag is due before that of another. -/
def DueBefore (a b : ℕ × ℕ) : Prop := a ≠ b ∧ a.1 ≤ b.1 ∧ a.2 ≤ b.2

/-- No file is written behind one that is due after it. -/
def InOrder (all : List ((ℕ × ℕ) × Char)) : Prop :=
  all.Pairwise fun earlier later => ¬ DueBefore later.1 earlier.1

/-- The files a rank has opened `all.csv` for. -/
def Pc.opened (n : ℕ) : Pc → ℕ
  | .writing i => i + 1
  | .pass i => i + 1
  | .passing i => i + 1
  | pc => pc.round n

/-- What holds in every state of a run. -/
structure Fills (s : Appending) : Prop where
  ranks : Inv np nf s.ranks
  left : ∀ r, (∀ i, s.ranks.pc r ≠ .writing i) → s.left r = []
  /-- What a rank has written of a file, and what its stream holds of it, is its text. -/
  parts : ∀ r < np, ∀ i,
    SharedLog.part s.all (r, i) ++ (if s.ranks.pc r = .writing i then s.left r else []) =
      if i < (s.ranks.pc r).opened (nf r) then text r i else []
  range : ∀ e ∈ s.all, e.1.1 < np ∧ e.1.2 < (s.ranks.pc e.1.1).opened (nf e.1.1)
  order : InOrder s.all

variable {np nf text}

/-! ## Steps -/

theorem Pc.opened_le_taken (n : ℕ) (pc : Pc) : pc.opened n ≤ pc.taken n := by
  cases pc <;> simp [Pc.opened, Pc.taken, Pc.round]

/-- A rank opens the file for the next of its texts, or leaves the number of them as it is. -/
theorem opened_of_advance {s t : State} {r : ℕ} {buffered : Bool}
    (hvalid : (s.pc r).Valid np (nf r) r) (hstep : advance np nf s r buffered = some t) :
    (∃ i, s.pc r = .fopen i ∧ t.pc r = .writing i) ∨
      (∀ i, s.pc r ≠ .fopen i) ∧ (∀ i, t.pc r ≠ .writing i) ∧
        (t.pc r).opened (nf r) = (s.pc r).opened (nf r) := by
  cases hpc : s.pc r with
  | askJob =>
      simp only [advance, hpc, Option.map_eq_some_iff] at hstep
      obtain ⟨m, -, rfl⟩ := hstep
      rw [State.goto_pc_self]
      right
      split <;> simp [Pc.opened, Pc.round]
  | tellJob =>
      simp only [advance, hpc, Option.some.injEq] at hstep
      rw [← hstep, State.goto_pc_self]
      simp [Pc.opened, Pc.round]
  | tellingJob =>
      simp only [advance, hpc, Option.ite_none_right_eq_some, Option.some.injEq] at hstep
      rw [← hstep.2, State.goto_pc_self]
      simp [Pc.opened, Pc.round]
  | barrier =>
      simp only [advance, hpc, Option.ite_none_right_eq_some, Option.some.injEq] at hstep
      rw [← hstep.2, State.goto_pc_self]
      simp [Pc.opened, Pc.round]
  | loop i =>
      rw [hpc] at hvalid
      by_cases hi : i < nf r
      · simp only [advance, hpc, if_pos hi, Option.some.injEq] at hstep
        rw [← hstep, State.goto_pc_self]
        right
        split <;> simp [Pc.opened, Pc.round]
      · simp only [advance, hpc, if_neg hi, Option.some.injEq] at hstep
        have hend : i = nf r := Nat.le_antisymm hvalid (Nat.le_of_not_lt hi)
        rw [← hstep, State.goto_pc_self]
        simp [Pc.opened, Pc.round, hend]
  | await i =>
      simp only [advance, hpc, Option.map_eq_some_iff] at hstep
      obtain ⟨m, -, rfl⟩ := hstep
      rw [State.goto_pc_self]
      simp [Pc.opened, Pc.round]
  | fopen i =>
      simp only [advance, hpc, Option.some.injEq] at hstep
      rw [← hstep, State.goto_pc_self]
      exact Or.inl ⟨i, rfl, rfl⟩
  | writing i =>
      simp only [advance, hpc, Option.some.injEq] at hstep
      rw [← hstep, State.goto_pc_self]
      simp [Pc.opened]
  | pass i =>
      simp only [advance, hpc] at hstep
      right
      split at hstep
      · rw [← Option.some.inj hstep, State.goto_pc_self]
        simp [Pc.opened]
      · rw [← Option.some.inj hstep, State.goto_pc_self]
        simp [Pc.opened, Pc.round]
  | passing i =>
      simp only [advance, hpc, Option.ite_none_right_eq_some, Option.some.injEq] at hstep
      rw [← hstep.2, State.goto_pc_self]
      simp [Pc.opened, Pc.round]
  | done => simp [advance, hpc] at hstep

/-- What an action does. -/
inductive Appends (np : ℕ) (nf : ℕ → ℕ) (text : ℕ → ℕ → List Char) (s t : Appending) : Prop
  | move (e : Event) (ranks : State) (hstep : step np nf s.ranks e = some ranks)
      (hleft : s.left e.rank = []) (hnot : ∀ i, ranks.pc e.rank ≠ .writing i)
      (hopened : (ranks.pc e.rank).opened (nf e.rank) =
        (s.ranks.pc e.rank).opened (nf e.rank))
      (ht : t = { s with ranks := ranks })
  | opens (e : Event) (i : ℕ) (ranks : State) (hstep : step np nf s.ranks e = some ranks)
      (hfrom : s.ranks.pc e.rank = .fopen i) (hto : ranks.pc e.rank = .writing i)
      (ht : t = { s with
        ranks := ranks, left := Function.update s.left e.rank (text e.rank i) })
  | writes (r i n : ℕ) (hr : r < np) (hpc : s.ranks.pc r = .writing i) (hn : 0 < n)
      (hleft : s.left r ≠ [])
      (ht : t = { s with
        left := Function.update s.left r ((s.left r).drop n)
        all := s.all ++ ((s.left r).take n).map (Prod.mk (r, i)) })

/-- The inversion lemma of `append`. -/
theorem append_cases {s t : Appending} {a : Action} (hs : Fills np nf text s)
    (h : append np nf text s a = some t) : Appends np nf text s t := by
  cases a with
  | write r n =>
      cases hpc : s.ranks.pc r with
      | writing i =>
          simp only [append, hpc, Option.ite_none_right_eq_some, Option.some.injEq] at h
          obtain ⟨⟨hr, hn, hleft⟩, rfl⟩ := h
          exact .writes r i n hr hpc hn hleft rfl
      | _ => simp [append, hpc] at h
  | move e =>
      have hranks : ∀ ranks, step np nf s.ranks e = some ranks →
          (∃ i, s.ranks.pc e.rank = .fopen i ∧ ranks.pc e.rank = .writing i) ∨
            (∀ i, s.ranks.pc e.rank ≠ .fopen i) ∧ (∀ i, ranks.pc e.rank ≠ .writing i) ∧
              (ranks.pc e.rank).opened (nf e.rank) =
                (s.ranks.pc e.rank).opened (nf e.rank) := by
        intro ranks hstep
        simp only [step, Option.ite_none_right_eq_some] at hstep
        exact opened_of_advance (hs.ranks.valid _ hstep.1) hstep.2
      cases hpc : s.ranks.pc e.rank with
      | fopen i =>
          simp only [append, hpc, Option.map_eq_some_iff] at h
          obtain ⟨ranks, hstep, rfl⟩ := h
          rcases hranks ranks hstep with ⟨j, hfrom, hto⟩ | ⟨hfrom, -⟩
          · obtain rfl : i = j := by simpa [hpc] using hfrom
            exact .opens e i ranks hstep hpc hto rfl
          · exact absurd hpc (hfrom i)
      | writing i =>
          simp only [append, hpc, Option.ite_none_right_eq_some, Option.map_eq_some_iff] at h
          obtain ⟨hleft, ranks, hstep, rfl⟩ := h
          rcases hranks ranks hstep with ⟨j, hfrom, -⟩ | ⟨-, hnot, hopened⟩
          · simp [hpc] at hfrom
          · exact .move e ranks hstep hleft hnot hopened rfl
      | _ =>
          simp only [append, hpc, Option.map_eq_some_iff] at h
          obtain ⟨ranks, hstep, rfl⟩ := h
          rcases hranks ranks hstep with ⟨j, hfrom, -⟩ | ⟨-, hnot, hopened⟩
          · simp [hpc] at hfrom
          · refine .move e ranks hstep (hs.left e.rank ?_) hnot hopened rfl
            simp [hpc]

theorem pc_of_ne {s t : State} {e : Event} (hs : Inv np nf s) (hstep : step np nf s e = some t)
    {r : ℕ} (hne : r ≠ e.rank) : t.pc r = s.pc r :=
  ((inv_step hs hstep).2.frame hne).1

/-! ## The invariant -/

theorem fills_beforehand (hnp : 2 ≤ np) (nextjob : ℕ → ℕ) :
    Fills np nf text (beforehand np nextjob) where
  ranks := inv_initial hnp nextjob
  left := fun _ _ => rfl
  parts := by
    intro r _ i
    have hclosed : ((initial np nextjob).pc r).opened (nf r) = 0 := by
      simp only [initial]
      split
      · rfl
      · split <;> rfl
    show [] ++ (if _ then [] else []) =
      if i < ((initial np nextjob).pc r).opened (nf r) then _ else _
    rw [hclosed, if_neg (Nat.not_lt_zero i), ite_self, List.append_nil]
  range := fun _ he => absurd he List.not_mem_nil
  order := List.Pairwise.nil

theorem Fills.move {s : Appending} {e : Event} {ranks : State} (hs : Fills np nf text s)
    (hstep : step np nf s.ranks e = some ranks) (hleft : s.left e.rank = [])
    (hnot : ∀ i, ranks.pc e.rank ≠ .writing i)
    (hopened : (ranks.pc e.rank).opened (nf e.rank) = (s.ranks.pc e.rank).opened (nf e.rank)) :
    Fills np nf text { s with ranks := ranks } where
  ranks := (inv_step hs.ranks hstep).1
  left := by
    intro r hr
    by_cases hne : r = e.rank
    · rw [hne]
      exact hleft
    · apply hs.left r
      rwa [pc_of_ne hs.ranks hstep hne] at hr
  parts := by
    intro r hr i
    have hold := hs.parts r hr i
    by_cases hne : r = e.rank
    · subst hne
      rw [hleft, ite_self] at hold
      show SharedLog.part s.all (e.rank, i) ++ (if ranks.pc e.rank = .writing i then _ else _) =
        if i < (ranks.pc e.rank).opened (nf e.rank) then _ else _
      rw [if_neg (hnot i), hopened]
      exact hold
    · show SharedLog.part s.all (r, i) ++ (if ranks.pc r = .writing i then _ else _) =
        if i < (ranks.pc r).opened (nf r) then _ else _
      rw [pc_of_ne hs.ranks hstep hne]
      exact hold
  range := by
    intro x hx
    obtain ⟨hr, hi⟩ := hs.range x hx
    refine ⟨hr, ?_⟩
    show x.1.2 < (ranks.pc x.1.1).opened (nf x.1.1)
    by_cases hne : x.1.1 = e.rank
    · rw [hne] at hi ⊢
      rwa [hopened]
    · rwa [pc_of_ne hs.ranks hstep hne]
  order := hs.order

theorem Fills.opens {s : Appending} {e : Event} {i : ℕ} {ranks : State}
    (hs : Fills np nf text s) (hstep : step np nf s.ranks e = some ranks)
    (hfrom : s.ranks.pc e.rank = .fopen i) (hto : ranks.pc e.rank = .writing i) :
    Fills np nf text { s with
      ranks := ranks, left := Function.update s.left e.rank (text e.rank i) } where
  ranks := (inv_step hs.ranks hstep).1
  left := by
    intro r hr
    have hne : r ≠ e.rank := by
      rintro rfl
      exact hr i hto
    show Function.update s.left e.rank _ r = []
    rw [Function.update_of_ne hne]
    apply hs.left r
    rwa [pc_of_ne hs.ranks hstep hne] at hr
  parts := by
    intro r hr j
    have hold := hs.parts r hr j
    by_cases hne : r = e.rank
    · subst hne
      show SharedLog.part s.all (e.rank, j) ++
          (if ranks.pc e.rank = .writing j then Function.update s.left e.rank _ e.rank else []) =
        if j < (ranks.pc e.rank).opened (nf e.rank) then _ else _
      rw [hfrom, if_neg nofun, List.append_nil] at hold
      rw [hto, hold, Function.update_self]
      show (if j < i then _ else _) ++ _ = if j < i + 1 then _ else _
      rcases Nat.lt_trichotomy j i with hlt | rfl | hgt
      · rw [if_pos hlt, if_pos (Nat.lt_succ_of_lt hlt), if_neg, List.append_nil]
        rw [Pc.writing.injEq]
        exact Nat.ne_of_gt hlt
      · rw [if_neg (Nat.lt_irrefl j), if_pos rfl, if_pos (Nat.lt_succ_self j), List.nil_append]
      · rw [if_neg (Nat.lt_asymm hgt), if_neg (Nat.not_lt.mpr hgt), if_neg, List.append_nil]
        rw [Pc.writing.injEq]
        exact Nat.ne_of_lt hgt
    · show SharedLog.part s.all (r, j) ++
          (if ranks.pc r = .writing j then Function.update s.left e.rank _ r else []) =
        if j < (ranks.pc r).opened (nf r) then _ else _
      rw [pc_of_ne hs.ranks hstep hne, Function.update_of_ne hne]
      exact hold
  range := by
    intro x hx
    obtain ⟨hr, hi⟩ := hs.range x hx
    refine ⟨hr, ?_⟩
    show x.1.2 < (ranks.pc x.1.1).opened (nf x.1.1)
    by_cases hne : x.1.1 = e.rank
    · rw [hne, hfrom] at hi
      rw [hne, hto]
      exact Nat.lt_succ_of_lt hi
    · rwa [pc_of_ne hs.ranks hstep hne]
  order := hs.order

/-- The file a rank is writing is due before none that has been opened. -/
theorem not_dueBefore_opened {s : State} (hs : Inv np nf s) {r i r' i' : ℕ} (hr' : r' < np)
    (hpc : s.pc r = .writing i) (hopened : i' < (s.pc r').opened (nf r')) :
    ¬ DueBefore (r, i) (r', i') := by
  rintro ⟨hne, hrank, hfile⟩
  rcases Nat.eq_or_lt_of_le hrank with heq | hlt
  · -- the same rank writes its files in turn
    obtain rfl : r = r' := heq
    rw [hpc] at hopened
    have hle : i' ≤ i := Nat.lt_succ_iff.mp hopened
    exact hne (Prod.ext rfl (Nat.le_antisymm hfile hle))
  · obtain ⟨d, rfl⟩ := Nat.exists_eq_add_of_lt hlt
    have htaken := Pc.opened_le_taken (nf (r + d + 1)) (s.pc (r + d + 1))
    have hposted := le_posted_of_taken hs d r hr' (Nat.le_trans hopened htaken)
    rw [hpc] at hposted
    exact absurd hfile (Nat.not_le.mpr hposted)

theorem Fills.writes {s : Appending} {r i : ℕ} (hs : Fills np nf text s) (hr : r < np)
    (hpc : s.ranks.pc r = .writing i) (n : ℕ) :
    Fills np nf text { s with
      left := Function.update s.left r ((s.left r).drop n)
      all := s.all ++ ((s.left r).take n).map (Prod.mk (r, i)) } where
  ranks := hs.ranks
  left := by
    intro q hq
    have hne : q ≠ r := by
      rintro rfl
      exact hq i hpc
    show Function.update s.left r _ q = []
    rw [Function.update_of_ne hne]
    exact hs.left q hq
  parts := by
    intro q hq j
    have hold := hs.parts q hq j
    show SharedLog.part (s.all ++ _) (q, j) ++
      (if s.ranks.pc q = .writing j then Function.update s.left r _ q else []) = _
    rw [SharedLog.part_append]
    by_cases hsame : (r, i) = (q, j)
    · obtain ⟨rfl, rfl⟩ := Prod.mk.inj hsame
      rw [if_pos hpc] at hold ⊢
      rw [SharedLog.part_tagged_self, Function.update_self, List.append_assoc,
        List.take_append_drop]
      exact hold
    · rw [SharedLog.part_tagged_of_ne hsame, List.append_nil]
      by_cases hq' : q = r
      · subst hq'
        have hother : s.ranks.pc q ≠ .writing j := by
          rw [hpc, Ne, Pc.writing.injEq]
          rintro rfl
          exact hsame rfl
        rw [if_neg hother] at hold ⊢
        exact hold
      · rw [Function.update_of_ne hq']
        exact hold
  range := by
    intro x hx
    rcases List.mem_append.mp hx with hx | hx
    · exact hs.range x hx
    · obtain ⟨c, -, rfl⟩ := List.mem_map.mp hx
      refine ⟨hr, ?_⟩
      show i < (s.ranks.pc r).opened (nf r)
      rw [hpc]
      exact Nat.lt_succ_self i
  order := by
    apply List.pairwise_append.mpr
    refine ⟨hs.order, ?_, ?_⟩
    · -- the characters of one write have the same tag
      rw [List.pairwise_map]
      apply List.pairwise_of_forall
      intro _ _ hdue
      exact hdue.1 rfl
    · intro x hx y hy
      obtain ⟨c, -, rfl⟩ := List.mem_map.mp hy
      obtain ⟨hr', hi'⟩ := hs.range x hx
      exact not_dueBefore_opened hs.ranks hr' hpc hi'

/-- The step lemma. -/
theorem fills_append {s t : Appending} {a : Action} (hs : Fills np nf text s)
    (h : append np nf text s a = some t) : Fills np nf text t := by
  cases append_cases hs h with
  | move e ranks hstep hleft hnot hopened ht =>
      rw [ht]
      exact hs.move hstep hleft hnot hopened
  | opens e i ranks hstep hfrom hto ht =>
      rw [ht]
      exact hs.opens hstep hfrom hto
  | writes r i n hr hpc hn hleft ht =>
      rw [ht]
      exact hs.writes hr hpc n

theorem fills_run (hnp : 2 ≤ np) {nextjob : ℕ → ℕ} {actions : List Action} {s : Appending}
    (hrun : Runs.run (append np nf text) (beforehand np nextjob) actions = some s) :
    Fills np nf text s :=
  Runs.run_invariant (Fills np nf text) (fun _ => True)
    (fun _ _ _ hs _ hone => fills_append hs hone) actions _ s (fills_beforehand hnp nextjob)
    (fun _ _ => trivial) hrun

/-! ## The end of a run -/

/-- How much has been written of all texts. -/
def written (np : ℕ) (nf : ℕ → ℕ) (s : Appending) : ℕ :=
  ∑ r ∈ Finset.range np, ∑ i ∈ Finset.range (nf r), (SharedLog.part s.all (r, i)).length

theorem Fills.length_part_le {s : Appending} (hs : Fills np nf text s) {r : ℕ} (hr : r < np)
    (i : ℕ) : (SharedLog.part s.all (r, i)).length ≤ (text r i).length := by
  have hlength := congrArg List.length (hs.parts r hr i)
  rw [List.length_append] at hlength
  have hall : (if i < (s.ranks.pc r).opened (nf r) then text r i else []).length ≤
      (text r i).length := by
    split
    · exact Nat.le_refl _
    · exact Nat.zero_le _
  rw [← hlength] at hall
  exact Nat.le_trans (Nat.le_add_right _ _) hall

theorem Fills.written_le {s : Appending} (hs : Fills np nf text s) :
    written np nf s ≤ ∑ r ∈ Finset.range np, ∑ i ∈ Finset.range (nf r), (text r i).length := by
  apply Finset.sum_le_sum
  intro r hr
  apply Finset.sum_le_sum
  intro i _
  exact hs.length_part_le (Finset.mem_range.mp hr) i

/-- A write adds to what has been written. -/
theorem written_lt {s : Appending} {r i : ℕ} {cs : List Char} (hr : r < np) (hi : i < nf r)
    (hne : cs ≠ []) (left : ℕ → List Char) :
    written np nf s <
      written np nf { s with left := left, all := s.all ++ cs.map (Prod.mk (r, i)) } := by
  have hle : ∀ q j, (SharedLog.part s.all (q, j)).length ≤
      (SharedLog.part (s.all ++ cs.map (Prod.mk (r, i))) (q, j)).length := by
    intro q j
    rw [SharedLog.part_append, List.length_append]
    exact Nat.le_add_right _ _
  apply Finset.sum_lt_sum
  · intro q _
    apply Finset.sum_le_sum
    intro j _
    exact hle q j
  · refine ⟨r, Finset.mem_range.mpr hr, ?_⟩
    apply Finset.sum_lt_sum
    · intro j _
      exact hle r j
    · refine ⟨i, Finset.mem_range.mpr hi, ?_⟩
      show _ < (SharedLog.part (s.all ++ cs.map (Prod.mk (r, i))) (r, i)).length
      rw [SharedLog.part_append, SharedLog.part_tagged_self, List.length_append]
      exact Nat.lt_add_of_pos_right (List.length_pos_iff.mpr hne)

theorem progress_append {s t : Appending} {a : Action} (hs : Fills np nf text s)
    (h : append np nf text s a = some t) :
    potential np nf s.ranks + written np nf s < potential np nf t.ranks + written np nf t := by
  cases append_cases hs h with
  | move e ranks hstep hleft hnot hopened ht =>
      rw [ht]
      exact Nat.add_lt_add_right (potential_step hs.ranks hstep) _
  | opens e i ranks hstep hfrom hto ht =>
      rw [ht]
      exact Nat.add_lt_add_right (potential_step hs.ranks hstep) _
  | writes r i n hr hpc hn hleft ht =>
      have hvalid := hs.ranks.valid r hr
      rw [hpc] at hvalid
      have htake : (s.left r).take n ≠ [] := by
        rw [Ne, List.take_eq_nil_iff, not_or]
        exact ⟨Nat.ne_of_gt hn, hleft⟩
      rw [ht]
      exact Nat.add_lt_add_left (written_lt hr hvalid htake _) _

/-- An action is possible as long as a rank has not finished. -/
theorem exists_action (hanti : ∀ r, nf (r + 1) ≤ nf r) {s : Appending}
    (hs : Fills np nf text s) (hunfinished : ∃ r < np, s.ranks.pc r ≠ .done) :
    ∃ a, (append np nf text s a).isSome := by
  obtain ⟨q, hq, hnot⟩ := hunfinished
  obtain ⟨r, hr, henabled⟩ := exists_enabled hanti hs.ranks hq hnot
  obtain ⟨t, ht⟩ := Option.isSome_iff_exists.mp henabled
  cases hpc : s.ranks.pc r with
  | writing i =>
      by_cases hleft : s.left r = []
      · refine ⟨.move ⟨r, false⟩, ?_⟩
        simp [append, hpc, hleft, ht]
      · refine ⟨.write r 1, ?_⟩
        simp [append, hpc, hleft, hr]
  | _ =>
      refine ⟨.move ⟨r, false⟩, ?_⟩
      simp [append, hpc, ht]

/-- Once all ranks have finished, each text has been written as a whole. -/
theorem Fills.part_eq {s : Appending} (hs : Fills np nf text s)
    (hdone : ∀ r < np, s.ranks.pc r = .done) {r i : ℕ} (hr : r < np) (hi : i < nf r) :
    SharedLog.part s.all (r, i) = text r i := by
  have hparts := hs.parts r hr i
  rw [hdone r hr, if_neg nofun, List.append_nil] at hparts
  rw [hparts]
  exact if_pos hi

theorem Fills.range_of_done {s : Appending} (hs : Fills np nf text s)
    (hdone : ∀ r < np, s.ranks.pc r = .done) {e : (ℕ × ℕ) × Char} (he : e ∈ s.all) :
    e.1.1 < np ∧ e.1.2 < nf e.1.1 := by
  obtain ⟨hr, hi⟩ := hs.range e he
  rw [hdone _ hr] at hi
  exact ⟨hr, hi⟩

/-- **The gathered file.** In every run of two or more processes, at most as many as there
are files, each has a file; at every moment no file is written behind one that is due after
it; the run cannot stop before all ranks have finished, and cannot go on for ever; and then
the text of each file of each rank has been written once and as a whole, and nothing else. -/
theorem all_csv_of_run (fcount : ℕ) (hnp : 2 ≤ np) (hle : np ≤ fcount)
    (text : ℕ → ℕ → List Char) (nextjob : ℕ → ℕ) (actions : List Action) (s : Appending)
    (hrun : Runs.run (append np (Distribution.nf fcount np) text) (beforehand np nextjob)
      actions = some s) :
    (∀ r, 1 ≤ Distribution.nf fcount np r) ∧ InOrder s.all ∧
      ((∃ r < np, s.ranks.pc r ≠ .done) →
        ∃ a, (append np (Distribution.nf fcount np) text s a).isSome) ∧
      actions.length ≤ 5 * np + 6 * fcount +
        ∑ r ∈ Finset.range np, ∑ i ∈ Finset.range (Distribution.nf fcount np r),
          (text r i).length ∧
      ((∀ r < np, s.ranks.pc r = .done) →
        (∀ r < np, ∀ i < Distribution.nf fcount np r,
          SharedLog.part s.all (r, i) = text r i) ∧
        ∀ e ∈ s.all, e.1.1 < np ∧ e.1.2 < Distribution.nf fcount np e.1.1) := by
  have hs := fills_run hnp hrun
  have hanti : ∀ r, Distribution.nf fcount np (r + 1) ≤ Distribution.nf fcount np r :=
    fun r => Distribution.nf_anti (Nat.le_succ r)
  refine ⟨Distribution.one_le_nf (Nat.le_of_succ_le hnp) hle, hs.order, exists_action hanti hs,
    ?_, fun hdone => ⟨?_, ?_⟩⟩
  · have hlength := Runs.length_le (Fills np (Distribution.nf fcount np) text)
      (fun s => potential np (Distribution.nf fcount np) s.ranks +
        written np (Distribution.nf fcount np) s) _
      (fun _ hs => Nat.add_le_add (potential_le hs.ranks) hs.written_le)
      (fun _ _ _ hs hone => ⟨fills_append hs hone, progress_append hs hone⟩) actions _ s
      (fills_beforehand hnp nextjob) hrun
    rw [sum_steps (Nat.le_of_succ_le hnp)] at hlength
    omega
  · intro r hr i hi
    exact hs.part_eq hdone hr hi
  · intro e he
    exact hs.range_of_done hdone he

/-- Two processes with one file each: the second one writes its text in two pieces. -/
def inPieces : List Action :=
  [.move ⟨1, false⟩, .move ⟨0, false⟩, .move ⟨1, false⟩, .move ⟨0, false⟩, .move ⟨1, false⟩] ++
    [.move ⟨0, false⟩, .move ⟨0, false⟩, .write 0 9, .move ⟨0, false⟩, .move ⟨0, true⟩] ++
    [.move ⟨1, false⟩, .move ⟨1, false⟩, .move ⟨1, false⟩, .write 1 1, .move ⟨0, true⟩] ++
    [.write 1 1, .move ⟨1, false⟩, .move ⟨1, false⟩, .move ⟨1, false⟩, .move ⟨0, false⟩]

/-- Their texts. -/
def shortTexts (r _i : ℕ) : List Char := if r = 0 then ['a'] else ['b', 'c']

theorem all_csv_of_run_two :
    ∃ s, Runs.run (append 2 (Distribution.nf 2 2) shortTexts) (beforehand 2 fun _ => 0)
        inPieces = some s ∧
      InOrder s.all ∧ SharedLog.part s.all (1, 0) = ['b', 'c'] := by
  have hends : (Runs.run (append 2 (Distribution.nf 2 2) shortTexts) (beforehand 2 fun _ => 0)
      inPieces).map (fun s => (s.ranks.pc 0, s.ranks.pc 1)) = some (.done, .done) := by
    decide +kernel
  obtain ⟨s, hrun, hpc⟩ := Option.map_eq_some_iff.mp hends
  obtain ⟨hzero, hone⟩ := Prod.mk.inj hpc
  obtain ⟨-, horder, -, -, hend⟩ := all_csv_of_run 2 (Nat.le_refl 2) (Nat.le_refl 2) shortTexts
    (fun _ => 0) inPieces s hrun
  have hdone : ∀ r < 2, s.ranks.pc r = .done := by
    intro r hr
    cases r with
    | zero => exact hzero
    | succ r =>
        obtain rfl : r = 0 := Nat.lt_one_iff.mp (Nat.lt_of_succ_lt_succ hr)
        exact hone
  exact ⟨s, hrun, horder, (hend hdone).1 1 (by decide) 0 (by decide)⟩

/-! ## One file for each rank -/

/-- With one file for each rank, the characters stand in the order of the ranks. -/
theorem ascending_of_inOrder (hone : ∀ r < np, nf r = 1) {all : List ((ℕ × ℕ) × Char)}
    (horder : InOrder all) (hrange : ∀ e ∈ all, e.1.1 < np ∧ e.1.2 < nf e.1.1) :
    all.Pairwise fun a b => a.1.1 ≤ b.1.1 := by
  apply List.Pairwise.imp_of_mem _ horder
  intro a b ha hb hdue
  have hfirst : ∀ e ∈ all, e.1.2 = 0 := by
    intro e he
    obtain ⟨hr, hi⟩ := hrange e he
    rw [hone _ hr] at hi
    exact Nat.lt_one_iff.mp hi
  by_contra hlt
  apply hdue
  refine ⟨?_, Nat.le_of_not_le hlt, ?_⟩
  · intro heq
    rw [heq] at hlt
    exact hlt (Nat.le_refl _)
  · rw [hfirst a ha, hfirst b hb]

theorem all_eq_flatMap (hone : ∀ r < np, nf r = 1) {s : Appending} (hs : Fills np nf text s)
    (hdone : ∀ r < np, s.ranks.pc r = .done) :
    s.all.map Prod.snd = (List.range np).flatMap fun r => text r 0 := by
  have hrange : ∀ e ∈ s.all, e.1.1 < np ∧ e.1.2 < nf e.1.1 := fun e he =>
    hs.range_of_done hdone he
  have hascend := ascending_of_inOrder hone hs.order hrange
  have hparts := SharedLog.flatMap_filter (fun e : (ℕ × ℕ) × Char => e.1.1) hascend
    fun e he => (hrange e he).1
  rw [← hparts, List.map_flatMap]
  apply List.flatMap_congr
  intro r hr
  have hr' := List.mem_range.mp hr
  rw [← hs.part_eq hdone hr' (by rw [hone r hr']; exact Nat.one_pos), SharedLog.part]
  apply congrArg
  apply List.filter_congr
  intro e he
  obtain ⟨hrank, hfile⟩ := hrange e he
  rw [hone _ hrank] at hfile
  rw [decide_eq_decide, Prod.ext_iff]
  exact (and_iff_left (Nat.lt_one_iff.mp hfile)).symm

section Files

variable {b : Build} {f : OutBuffer.Format} {arg : Interval.Arg}

theorem calcInterval_of_fits {files : List OutBuffer.File} {first : OutBuffer.File}
    (hfirst : first ∈ files.head?) (hfits : ∀ file ∈ files, OutBuffer.Fits b f arg first.nev file)
    (fresh : ℕ → ℕ → Char) :
    ∃ written, OutBuffer.calcInterval b f arg fresh files = some written ∧
      written.map some = files.map (OutBuffer.own f arg) := by
  have hcount : ScanText.countEvents (first.text b f) = some first.nev :=
    ScanText.countEvents_recText b f.toFloatText first.nev first.rows
  obtain ⟨written, hloop, hown⟩ := OutBuffer.loop_of_fits fresh 0 [] hfits
  refine ⟨written, ?_, hown⟩
  rw [OutBuffer.calcInterval, Option.mem_def.mp hfirst]
  show (ScanText.countEvents (first.text b f)).bind _ = _
  rw [hcount]
  exact hloop

/-- **The intervals of all files.** Let each process have its number of record files, which
have the columns of its first one, a pair, no start row left over and output rows no longer
than the file. Whatever new memory holds, at the end of every run each rank has written to
`all.csv` for each of its files the rows of the intervals of that file; and with one file for
each process these stand in the order of the ranks. -/
theorem gathered_intervals (fcount : ℕ) (hnp : 2 ≤ np) (files : ℕ → List OutBuffer.File)
    (hcount : ∀ r < np, (files r).length = Distribution.nf fcount np r)
    (hfits : ∀ r < np, ∃ first ∈ (files r).head?,
      ∀ file ∈ files r, OutBuffer.Fits b f arg first.nev file)
    (fresh : ℕ → ℕ → ℕ → Char) :
    ∃ text : ℕ → ℕ → List Char,
      (∀ r < np, OutBuffer.calcInterval b f arg (fresh r) (files r) =
        some ((List.range (Distribution.nf fcount np r)).map (text r))) ∧
      ∀ nextjob actions s,
        Runs.run (append np (Distribution.nf fcount np) text) (beforehand np nextjob)
          actions = some s →
        (∀ r < np, s.ranks.pc r = .done) →
        (∀ r < np, (files r).map (OutBuffer.own f arg) =
          (List.range (Distribution.nf fcount np r)).map fun i =>
            some (SharedLog.part s.all (r, i))) ∧
        (fcount = np →
          s.all.map Prod.snd = (List.range np).flatMap fun r => SharedLog.part s.all (r, 0)) := by
  have hprocess : ∀ r, ∃ text : ℕ → List Char, r < np →
      OutBuffer.calcInterval b f arg (fresh r) (files r) =
          some ((List.range (Distribution.nf fcount np r)).map text) ∧
        (files r).map (OutBuffer.own f arg) =
          (List.range (Distribution.nf fcount np r)).map fun i => some (text i) := by
    intro r
    by_cases hr : r < np
    · obtain ⟨first, hfirst, hall⟩ := hfits r hr
      obtain ⟨written, hwritten, hown⟩ := calcInterval_of_fits hfirst hall (fresh r)
      have hlength : written.length = Distribution.nf fcount np r := by
        rw [← hcount r hr, ← List.length_map (OutBuffer.own f arg), ← hown, List.length_map]
      have htexts : (List.range (Distribution.nf fcount np r)).map (fun i => written.getD i []) =
          written := by
        rw [← hlength]
        apply List.ext_getElem
        · rw [List.length_map, List.length_range]
        · intro i _ hi
          rw [List.getElem_map, List.getElem_range, List.getD_eq_getElem?_getD,
            List.getElem?_eq_getElem hi, Option.getD_some]
      refine ⟨fun i => written.getD i [], fun _ => ⟨by rw [hwritten, htexts], ?_⟩⟩
      rw [← hown, ← htexts, List.map_map, htexts]
      rfl
    · exact ⟨fun _ => [], fun h => absurd h hr⟩
  choose text htext using hprocess
  refine ⟨text, fun r hr => (htext r hr).1, fun nextjob actions s hrun hdone => ?_⟩
  have hs := fills_run hnp hrun
  refine ⟨fun r hr => ?_, ?_⟩
  · rw [(htext r hr).2]
    apply List.map_congr_left
    intro i hi
    rw [hs.part_eq hdone hr (List.mem_range.mp hi)]
  · rintro rfl
    have hone : ∀ r < fcount, Distribution.nf fcount fcount r = 1 := fun r _ =>
      Distribution.nf_self (Nat.le_of_succ_le hnp) r
    rw [all_eq_flatMap hone hs hdone]
    apply List.flatMap_congr
    intro r hr
    have hr' := List.mem_range.mp hr
    rw [hs.part_eq hdone hr' (by rw [hone r hr']; exact Nat.one_pos)]

theorem fits_withPair :
    OutBuffer.Fits ⟨.ts, .x86, .phasm⟩ OutBuffer.zeros ⟨1, 1, 1, 2⟩ OutBuffer.withPair.nev
      OutBuffer.withPair :=
  ⟨rfl, [_], Interval.Paired.pair rfl rfl Interval.Paired.nil, List.cons_ne_nil _ _, by decide⟩

theorem gathered_intervals_two :
    ∃ text : ℕ → ℕ → List Char,
      (∀ r < 2, OutBuffer.calcInterval ⟨.ts, .x86, .phasm⟩ OutBuffer.zeros ⟨1, 1, 1, 2⟩
        (fun _ _ => 'x') [OutBuffer.withPair] = some [text r 0]) ∧
      ∀ nextjob actions s,
        Runs.run (append 2 (Distribution.nf 2 2) text) (beforehand 2 nextjob) actions = some s →
        (∀ r < 2, s.ranks.pc r = .done) →
        s.all.map Prod.snd =
          SharedLog.part s.all (0, 0) ++ SharedLog.part s.all (1, 0) := by
  obtain ⟨text, htext, hruns⟩ := gathered_intervals (b := ⟨.ts, .x86, .phasm⟩) 2 (Nat.le_refl 2)
    (fun _ => [OutBuffer.withPair]) (by decide)
    (fun _ _ => ⟨OutBuffer.withPair, rfl, List.forall_mem_singleton.mpr fits_withPair⟩)
    fun _ _ _ => 'x'
  have hone : ∀ r < 2, Distribution.nf 2 2 r = 1 := by decide
  refine ⟨text, fun r hr => ?_, fun nextjob actions s hrun hdone => ?_⟩
  · apply (htext r hr).trans
    rw [hone r hr]
    rfl
  · rw [(hruns nextjob actions s hrun hdone).2 rfl]
    simp [List.range_succ]

end Files

end Gather

end PerfHound
