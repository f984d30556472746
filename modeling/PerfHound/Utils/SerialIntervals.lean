/-
# Intervals of the serial probe, from the calls to the output of `calc_interval`

A user brackets a region by a start read and an end read. This module follows such
pairs through both programs: the probe puts the two rows into the record file, and
`calc_interval` looks for them there.

The dump that `ph_read` takes when the buffer is full writes its markers right behind
the row of the read. If that read was the start of a pair, the marker (0,3) comes
where `calc_interval` looks for the end row, and the pair is lost. It depends on the
fill level of the buffer alone, which is known from the calls (`level`), so
`Intact` is a condition on the calls.
-/

import PerfHound.Probe.Serial
import PerfHound.Utils.Interval

namespace PerfHound

open Lib

namespace Serial

/-! ## Pairs of calls -/

/-- The tags of the two ends of an interval, in one group. -/
structure Tags where
  gid : U32
  spid : U32
  epid : U32
  deriving DecidableEq, Repr

namespace Tags

variable (tags : Tags)

/-- The arguments that ask `calc_interval` for the interval. -/
def arg : Interval.Arg := ⟨tags.gid, tags.spid, tags.gid, tags.epid⟩

def StartsPair : Call → Prop
  | .read gid pid _ => gid = tags.gid ∧ pid = tags.spid
  | .dump => False

instance (call : Call) : Decidable (tags.StartsPair call) := by
  cases call <;> simp only [StartsPair] <;> infer_instance

/-- The call sequences of a user who brackets regions: a start read is immediately
followed by an end read, end reads occur nowhere else, and between the pairs there may
be reads with other user tags and dumps. -/
inductive Paired : List Call → Prop
  | nil : Paired []
  | pair (u v : Double) {rest : List Call} (h : Paired rest) :
      Paired (.read tags.gid tags.spid u :: .read tags.gid tags.epid v :: rest)
  | other {gid pid : U32} (u : Double) {rest : List Call} (hgid : gid ≠ 0)
      (hstart : ¬ (gid = tags.gid ∧ pid = tags.spid))
      (hend : ¬ (gid = tags.gid ∧ pid = tags.epid)) (h : Paired rest) :
      Paired (.read gid pid u :: rest)
  | dump {rest : List Call} (h : Paired rest) : Paired (.dump :: rest)

/-- No start read is issued when exactly two slots of a buffer of `nrec` records are
left. The first argument is the number of occupied slots. -/
def Intact (nrec : ℕ) : ℕ → List Call → Prop
  | _, [] => True
  | k, call :: rest => (tags.StartsPair call → k + 2 ≠ nrec) ∧ Intact nrec (level nrec k call) rest

/-- The differences between two samplings of the probe. -/
def sampledDelta (c : Probe) (i j : ℕ) (uval : Double) : Interval.Delta where
  cy := (c.sample j).cy - (c.sample i).cy
  ns := (c.sample j).ns - (c.sample i).ns
  uval := uval
  ev := (List.range (min (sampler c).nread c.nev)).map fun k =>
    (c.sample j).ev k - (c.sample i).ev k

/-- The interval a call is due, if it is a start read: the end read comes next, and
takes the first sampling after the start read has returned. -/
def dueDelta (c : Probe) (s : PhState) : Call → List Interval.Delta
  | .read gid pid uval =>
      if tags.StartsPair (.read gid pid uval) then
        (step c 2 s (.read gid pid uval)).elim [] fun t =>
          [sampledDelta c s.nsample t.nsample uval]
      else []
  | .dump => []

end Tags

section Scan

variable {c : Probe} {tags : Tags} {file : Interval.RecFile}

/-- A row of group 0 is no end of an interval. -/
theorem untagged_of_gid_zero (hgid : tags.gid ≠ 0) {r : Row} (hr : r.gid = 0) :
    tags.arg.isStart r = false ∧ tags.arg.isEnd r = false := by
  have hne : ((0 : U32) == tags.gid) = false := beq_eq_false_iff_ne.mpr hgid.symm
  simp only [Interval.Arg.isStart, Interval.Arg.isEnd, Tags.arg, hr, hne, Bool.false_and,
    and_self]

theorem yields_of_gid_zero (hgid : tags.gid ≠ 0) {rows : List Row}
    (hrows : ∀ r ∈ rows, r.gid = 0) : Interval.Yields tags.arg file rows [] :=
  Interval.Yields.skip_all fun r hr => (untagged_of_gid_zero hgid (hrows r hr)).1

theorem isStart_newRow (s : PhState) (gid pid : U32) (uval : Double) :
    tags.arg.isStart (PhState.newRow c (sampler c) s gid pid uval) =
      decide (gid = tags.gid ∧ pid = tags.spid) := by
  simp [Interval.Arg.isStart, Tags.arg, Bool.decide_and]
  rfl

theorem isEnd_newRow (s : PhState) (gid pid : U32) (uval : Double) :
    tags.arg.isEnd (PhState.newRow c (sampler c) s gid pid uval) =
      decide (gid = tags.gid ∧ pid = tags.epid) := by
  simp [Interval.Arg.isEnd, Tags.arg, Bool.decide_and]
  rfl

/-- The differences of two printed rows are those of their samplings, in the columns
that were sampled. -/
theorem delta_newRow (s t : PhState) (gid pid gid' pid' : U32) (u v : Double) :
    (Interval.delta (PhState.newRow c (sampler c) s gid pid u)
      (PhState.newRow c (sampler c) t gid' pid' v)).reading (sampler c) =
      Tags.sampledDelta c s.nsample t.nsample u := by
  have hev : ((List.zipWith (· - ·)
      (PhState.newRow c (sampler c) t gid' pid' v).ev
      (PhState.newRow c (sampler c) s gid pid u).ev).take (sampler c).nread) =
      (List.range (min (sampler c).nread c.nev)).map fun k =>
        (c.sample t.nsample).ev k - (c.sample s.nsample).ev k := by
    simp only [PhState.newRow, Row.ofRec, Sampler.fill]
    rw [List.zipWith_map, List.zipWith_self, ← List.map_take, List.take_range]
    apply List.map_congr_left
    intro k hk
    have hlt : k < (sampler c).nread := lt_of_lt_of_le (List.mem_range.mp hk) (min_le_left _ _)
    simp only [hlt, if_true]
  simp only [Interval.delta, Interval.Delta.reading, Tags.sampledDelta, hev]
  rfl

/-- An account of the rows a sequence of calls adds: which intervals the scan finds in
them, and that these are the intervals due exactly when no pair is broken. -/
def Accounts (c : Probe) (tags : Tags) (file : Interval.RecFile) (s : PhState)
    (calls : List Call) : Prop :=
  ∃ (rows : List Row) (ds : List Interval.Delta),
    (calls.foldl (next c) s).contents c = s.contents c ++ rows ∧
    Interval.Yields tags.arg file rows ds ∧
    (tags.Intact c.bufNrec.toNat s.irec.toNat calls →
      ds.map (Interval.Delta.reading (sampler c)) =
        Runs.emitted (step c 2) (tags.dueDelta c) s calls) ∧
    (¬ tags.Intact c.bufNrec.toNat s.irec.toNat calls →
      ds.length < (Runs.emitted (step c 2) (tags.dueDelta c) s calls).length)

theorem Accounts.length_le {s : PhState} {calls : List Call} {ds : List Interval.Delta}
    (heq : tags.Intact c.bufNrec.toNat s.irec.toNat calls →
      ds.map (Interval.Delta.reading (sampler c)) =
        Runs.emitted (step c 2) (tags.dueDelta c) s calls)
    (hlt : ¬ tags.Intact c.bufNrec.toNat s.irec.toNat calls →
      ds.length < (Runs.emitted (step c 2) (tags.dueDelta c) s calls).length) :
    ds.length ≤ (Runs.emitted (step c 2) (tags.dueDelta c) s calls).length := by
  by_cases hintact : tags.Intact c.bufNrec.toNat s.irec.toNat calls
  · rw [← heq hintact, List.length_map]
  · exact (hlt hintact).le

/-- A call that starts no pair, and whose rows do not either. -/
theorem Accounts.cons {s : PhState} {call : Call} {rest : List Call} {added : List Row}
    (hcap : 3 ≤ c.bufNrec.toNat) (hs : Ready c s) (hcall : ¬ tags.StartsPair call)
    (hadded : (next c s call).contents c = s.contents c ++ added)
    (hrows : Interval.Yields tags.arg file added [])
    (hrest : Accounts c tags file (next c s call) rest) :
    Accounts c tags file s (call :: rest) := by
  obtain ⟨rows, ds, hcontents, hyields, heq, hlt⟩ := hrest
  have hdue : tags.dueDelta c s call = [] := by
    cases call with
    | read gid pid uval => exact if_neg hcall
    | dump => rfl
  have hemitted := Runs.emitted_cons (tags.dueDelta c) (step_eq 0 hcap hs call) rest
  rw [hdue, List.nil_append] at hemitted
  have hintact : tags.Intact c.bufNrec.toNat s.irec.toNat (call :: rest) ↔
      tags.Intact c.bufNrec.toNat (next c s call).irec.toNat rest := by
    rw [level_eq_irec hs]
    exact ⟨fun h => h.2, fun h => ⟨fun hstart => absurd hstart hcall, h⟩⟩
  refine ⟨added ++ rows, ds, ?_, hrows.append hyields, ?_, ?_⟩
  · rw [List.foldl_cons, hcontents, hadded, List.append_assoc]
  · rw [hintact, hemitted]
    exact heq
  · rw [hintact, hemitted]
    exact hlt

/-- What a start read and the end read behind it are due. -/
theorem emitted_pair {s : PhState} (hcap : 3 ≤ c.bufNrec.toNat) (hpid : tags.spid ≠ tags.epid)
    (hs : Ready c s) (u v : Double) (rest : List Call) :
    Runs.emitted (step c 2) (tags.dueDelta c) s
        (.read tags.gid tags.spid u :: .read tags.gid tags.epid v :: rest) =
      Tags.sampledDelta c s.nsample (next c s (.read tags.gid tags.spid u)).nsample u ::
        Runs.emitted (step c 2) (tags.dueDelta c)
          (next c (next c s (.read tags.gid tags.spid u)) (.read tags.gid tags.epid v)) rest := by
  have ht := ready_next hcap hs (.read tags.gid tags.spid u)
  have hstart : tags.StartsPair (.read tags.gid tags.spid u) := ⟨rfl, rfl⟩
  have hnotStart : ¬ tags.StartsPair (.read tags.gid tags.epid v) := fun h => hpid h.2.symm
  rw [Runs.emitted_cons (tags.dueDelta c) (step_eq 0 hcap hs _),
    Runs.emitted_cons (tags.dueDelta c) (step_eq 0 hcap ht _)]
  simp only [Tags.dueDelta, if_pos hstart, if_neg hnotStart, step_eq 0 hcap hs]
  rfl

/-- They stay together if the start read does not take the last slot but one. -/
theorem intact_pair {s : PhState} (hcap : 3 ≤ c.bufNrec.toNat) (hpid : tags.spid ≠ tags.epid)
    (hs : Ready c s) (u v : Double) (rest : List Call) :
    tags.Intact c.bufNrec.toNat s.irec.toNat
        (.read tags.gid tags.spid u :: .read tags.gid tags.epid v :: rest) ↔
      s.irec.toNat + 2 ≠ c.bufNrec.toNat ∧
        tags.Intact c.bufNrec.toNat
          (next c (next c s (.read tags.gid tags.spid u)) (.read tags.gid tags.epid v)).irec.toNat
          rest := by
  have hstart : tags.StartsPair (.read tags.gid tags.spid u) := ⟨rfl, rfl⟩
  have hnotStart : ¬ tags.StartsPair (.read tags.gid tags.epid v) := fun h => hpid h.2.symm
  rw [level_eq_irec (ready_next hcap hs _), level_eq_irec hs]
  simp only [Tags.Intact, hstart, hnotStart, true_implies, false_implies, true_and]

/-- A start read and the end read behind it. -/
theorem Accounts.pair {s : PhState} {rest : List Call} (hcap : 3 ≤ c.bufNrec.toNat)
    (hopen : ∀ i, c.fopen i = true) (hgid : tags.gid ≠ 0) (hpid : tags.spid ≠ tags.epid)
    (hs : Ready c s) (u v : Double)
    (hrest : Accounts c tags file
      (next c (next c s (.read tags.gid tags.spid u)) (.read tags.gid tags.epid v)) rest) :
    Accounts c tags file s
      (.read tags.gid tags.spid u :: .read tags.gid tags.epid v :: rest) := by
  obtain ⟨rows, ds, hcontents, hyields, heq, hlt⟩ := hrest
  have ht := ready_next hcap hs (.read tags.gid tags.spid u)
  have hlength := Accounts.length_le heq hlt
  have hemitted := emitted_pair hcap hpid hs u v rest
  have hintact := intact_pair hcap hpid hs u v rest
  set t := next c s (.read tags.gid tags.spid u) with htdef
  set w := next c t (.read tags.gid tags.epid v) with hwdef
  -- the rows of the two calls
  obtain ⟨marks, hmarks, hend⟩ := contents_readState_marks hopen ht tags.gid tags.epid v
  have hstartRow : tags.arg.isStart
      (PhState.newRow c (sampler c) s tags.gid tags.spid u) = true := by
    rw [isStart_newRow]
    simp
  have hendRow : tags.arg.isEnd
      (PhState.newRow c (sampler c) t tags.gid tags.epid v) = true := by
    rw [isEnd_newRow]
    simp
  have hendSkip : tags.arg.isStart
      (PhState.newRow c (sampler c) t tags.gid tags.epid v) = false := by
    rw [isStart_newRow]
    simp [hpid.symm]
  obtain ⟨hfree, hfull⟩ := contents_readState hopen hs tags.gid tags.spid u
  by_cases hlast : s.irec.toNat + 2 = c.bufNrec.toNat
  · -- the markers come between the two rows, and the pair is lost
    obtain ⟨opening, between, hbetween, hcontentsStart⟩ := hfull hlast
    rw [List.forall_mem_cons] at hbetween
    have hbroken : Interval.Yields tags.arg file
        [PhState.newRow c (sampler c) s tags.gid tags.spid u, opening] [] :=
      Interval.Yields.broken hstartRow (untagged_of_gid_zero hgid hbetween.1).2
    have hafter : Interval.Yields tags.arg file
        (between ++ ([PhState.newRow c (sampler c) t tags.gid tags.epid v] ++ marks)) [] :=
      (yields_of_gid_zero hgid hbetween.2).append
        ((Interval.Yields.skip hendSkip).append (yields_of_gid_zero hgid hmarks))
    refine ⟨_, ds, ?_, (hbroken.append hafter).append hyields, ?_, ?_⟩
    · rw [List.foldl_cons, List.foldl_cons, hcontents, hwdef, next, hend, htdef, next,
        hcontentsStart]
      simp only [List.append_assoc, List.cons_append, List.nil_append]
    · exact fun h => absurd hlast (hintact.mp h).1
    · intro _
      rw [hemitted, List.length_cons]
      exact Nat.lt_succ_of_le hlength
  · -- the rows are adjacent
    have hpair : Interval.Yields tags.arg file
        [PhState.newRow c (sampler c) s tags.gid tags.spid u,
          PhState.newRow c (sampler c) t tags.gid tags.epid v]
        [Interval.delta (PhState.newRow c (sampler c) s tags.gid tags.spid u)
          (PhState.newRow c (sampler c) t tags.gid tags.epid v)] :=
      Interval.Yields.pair hstartRow hendRow
    refine ⟨_, _, ?_, (hpair.append (yields_of_gid_zero hgid hmarks)).append hyields, ?_, ?_⟩
    · rw [List.foldl_cons, List.foldl_cons, hcontents, hwdef, next, hend, htdef, next,
        hfree hlast]
      simp only [List.append_assoc, List.cons_append, List.nil_append]
    · intro h
      rw [hemitted]
      simp only [List.append_nil, List.map_cons, List.singleton_append]
      rw [delta_newRow, heq (hintact.mp h).2]
    · intro h
      have hrestBroken : ¬ tags.Intact c.bufNrec.toNat w.irec.toNat rest :=
        fun hrest => h (hintact.mpr ⟨hlast, hrest⟩)
      rw [hemitted]
      simpa using hlt hrestBroken

/-- The run lemma, by induction over the way the calls are paired. -/
theorem accounts_of_paired (file : Interval.RecFile) (hcap : 3 ≤ c.bufNrec.toNat)
    (hopen : ∀ i, c.fopen i = true) (hgid : tags.gid ≠ 0) (hpid : tags.spid ≠ tags.epid)
    {calls : List Call} (hpaired : tags.Paired calls) :
    ∀ s, Ready c s → Accounts c tags file s calls := by
  induction hpaired with
  | nil =>
      intro s _
      exact ⟨[], [], (List.append_nil _).symm, Interval.Yields.nil, fun _ => rfl,
        fun h => absurd trivial h⟩
  | pair u v _ ih =>
      intro s hs
      exact Accounts.pair hcap hopen hgid hpid hs u v
        (ih _ (ready_next hcap (ready_next hcap hs _) _))
  | @other gid pid u rest hne hstart hend _ ih =>
      intro s hs
      obtain ⟨marks, hmarks, hcontents⟩ := contents_readState_marks hopen hs gid pid u
      have hother : tags.arg.isStart (PhState.newRow c (sampler c) s gid pid u) = false := by
        rw [isStart_newRow]
        exact decide_eq_false hstart
      exact Accounts.cons hcap hs hstart hcontents
        ((Interval.Yields.skip hother).append (yields_of_gid_zero hgid hmarks))
        (ih _ (ready_next hcap hs _))
  | dump _ ih =>
      intro s hs
      obtain ⟨marks, hmarks, hcontents⟩ := contents_dumpState hopen hs
      exact Accounts.cons hcap hs id hcontents (yields_of_gid_zero hgid hmarks)
        (ih _ (ready_next hcap hs _))

/-- In the file of a finalized run the scan finds what it finds in the rows of the calls. -/
theorem Accounts.scan (hopen : ∀ i, c.fopen i = true) (hgid : tags.gid ≠ 0)
    {precs : ℕ → Rec} {calls : List Call}
    (hlast : Ready c (calls.foldl (next c) (committed c precs)))
    (haccounts : Accounts c tags file (committed c precs) calls) :
    ∃ ds : List Interval.Delta,
      Interval.scan tags.arg file 0
          ((readState c (calls.foldl (next c) (committed c precs)) 0 2 Double.zero).contents c) =
        some (file.numbered 0 ds) ∧
      (tags.Intact c.bufNrec.toNat 1 calls → ds.map (Interval.Delta.reading (sampler c)) =
        Runs.emitted (step c 2) (tags.dueDelta c) (committed c precs) calls) ∧
      (¬ tags.Intact c.bufNrec.toNat 1 calls → ds.length <
        (Runs.emitted (step c 2) (tags.dueDelta c) (committed c precs) calls).length) := by
  obtain ⟨rows, ds, hcontents, hyields, heq, hlt⟩ := haccounts
  obtain ⟨marks, hmarks, hend⟩ := contents_readState_marks hopen hlast 0 2 Double.zero
  have hfirst : (committed c precs).contents c =
      [PhState.newRow c (sampler c) (init precs) 0 1 Double.zero] :=
    PhState.store_contents c (sampler c) 0 1 _ (Nat.zero_le _)
  have hbefore : Interval.Yields tags.arg file
      [PhState.newRow c (sampler c) (init precs) 0 1 Double.zero] [] :=
    yields_of_gid_zero hgid (List.forall_mem_singleton.mpr rfl)
  have hafter : Interval.Yields tags.arg file
      ([PhState.newRow c (sampler c) (calls.foldl (next c) (committed c precs)) 0 2
        Double.zero] ++ marks) [] :=
    yields_of_gid_zero hgid (List.forall_mem_cons.mpr ⟨rfl, hmarks⟩)
  have hall := ((hbefore.append hyields).append hafter).scan_eq 0
  rw [List.nil_append, List.append_nil] at hall
  refine ⟨ds, ?_, heq, hlt⟩
  rw [hend, hcontents, hfirst]
  exact hall

end Scan

/-- **Intervals survive the buffer exactly when no start read meets the last two
slots.** A whole run of paired calls returns; and `calc_interval` computes from its
record file one row for each pair, in order, with the differences of that pair, if and
only if no start read is issued with exactly two slots left. -/
theorem intervals_iff (c : Probe) (hcap : 3 ≤ c.bufNrec.toNat) (hopen : ∀ i, c.fopen i = true)
    (precs : ℕ → Rec) (tags : Tags) (hgid : tags.gid ≠ 0) (hpid : tags.spid ≠ tags.epid)
    (calls : List Call) (hpaired : tags.Paired calls) (host : String) (rank cpu : ℕ) :
    ∃ start last final : PhState,
      (∀ depth, 2 ≤ depth → phCommit c depth (init precs) = some start ∧
        Runs.run (step c depth) start calls = some last ∧
        phFinalize c depth last = some final) ∧
      ((∃ ds : List Interval.Delta,
          Interval.calcInterval tags.arg ⟨host, rank, cpu, final.rows⟩ =
            some (Interval.RecFile.numbered ⟨host, rank, cpu, final.rows⟩ 0 ds) ∧
          ds.map (Interval.Delta.reading (sampler c)) =
            Runs.emitted (step c 2) (tags.dueDelta c) start calls) ↔
        tags.Intact c.bufNrec.toNat 1 calls) := by
  obtain ⟨-, hlast, -⟩ := run_calls 0 hcap precs calls
  obtain ⟨final, hfinal, hfile⟩ := phFinalize_contents hcap hopen hlast
  refine ⟨committed c precs, calls.foldl (next c) (committed c precs), final, ?_, ?_⟩
  · intro depth hdepth
    obtain ⟨extra, rfl⟩ := Nat.exists_eq_add_of_le' hdepth
    exact ⟨phCommit_eq _ hcap precs, (run_calls extra hcap precs calls).1, hfinal extra⟩
  · have haccounts := accounts_of_paired ⟨host, rank, cpu, final.rows⟩ hcap hopen hgid hpid
      hpaired _ (ready_committed hcap precs)
    obtain ⟨ds, hscan, heq, hlt⟩ := haccounts.scan hopen hgid hlast
    rw [← hfile] at hscan
    constructor
    · rintro ⟨es, hes, hdue⟩
      by_contra hbroken
      rw [Interval.calcInterval, hscan] at hes
      obtain rfl := Interval.RecFile.numbered_injective _ (Option.some.inj hes)
      have hlength := hlt hbroken
      rw [← hdue, List.length_map] at hlength
      exact lt_irrefl _ hlength
    · intro hintact
      exact ⟨ds, hscan, heq hintact⟩

def pairTags : Tags := ⟨1, 1, 2⟩

/-- A fourth slot is enough for the pair, behind a dump too. -/
theorem intervals_iff_four_slots :
    let c := { Probe.smallest with bufNbyte := 256 }
    let calls := [.dump, .read 1 1 Double.zero, .read 1 2 Double.zero]
    ∃ start last final : PhState,
      (∀ depth, 2 ≤ depth → phCommit c depth (init fun _ => Rec.cleared) = some start ∧
        Runs.run (step c depth) start calls = some last ∧
        phFinalize c depth last = some final) ∧
      ∃ ds : List Interval.Delta,
        Interval.calcInterval pairTags.arg ⟨"node", 0, 0, final.rows⟩ =
          some (Interval.RecFile.numbered ⟨"node", 0, 0, final.rows⟩ 0 ds) ∧
        ds.map (Interval.Delta.reading (sampler c)) =
          Runs.emitted (step c 2) (pairTags.dueDelta c) start calls := by
  intro c calls
  obtain ⟨start, last, final, hfinal, hfound⟩ := intervals_iff c (by decide) (fun _ => rfl)
    (fun _ => Rec.cleared) pairTags (by decide) (by decide) calls (.dump (.pair _ _ .nil))
    "node" 0 0
  have hintact : pairTags.Intact c.bufNrec.toNat 1 calls :=
    ⟨by decide, by decide, by decide, trivial⟩
  exact ⟨start, last, final, hfinal, hfound.mpr hintact⟩

/-- With three slots, one pair right after the commit: the start read fills the buffer
up to its last slot, the dump comes between the two rows, and the pair is lost. -/
theorem pair_lost_at_dump :
    ∃ start last final : PhState,
      phCommit Probe.smallest 2 (init fun _ => Rec.cleared) = some start ∧
      Runs.run (step Probe.smallest 2) start
        [.read 1 1 Double.zero, .read 1 2 Double.zero] = some last ∧
      phFinalize Probe.smallest 2 last = some final ∧
      final.rows.map (fun r => (r.gid, r.pid)) =
        [(0, 1), (1, 1), (0, 3), (0, 4), (1, 2), (0, 3), (0, 4), (0, 2), (0, 3), (0, 4)] ∧
      Interval.calcInterval pairTags.arg ⟨"node", 0, 0, final.rows⟩ = some [] ∧
      (Runs.emitted (step Probe.smallest 2) (pairTags.dueDelta Probe.smallest) start
        [.read 1 1 Double.zero, .read 1 2 Double.zero]).length = 1 :=
  ⟨_, _, _, rfl, rfl, rfl, by decide, by decide, by decide⟩

end Serial

end PerfHound
