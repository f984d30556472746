/-
# Converting the raw data of a project

`VtObject.data_init` goes over the runs of a project and calls `abs_to_rel` for each rank of a
list. If it is given no list, it makes one of the ranks of the first run that has any, and keeps
it for the runs behind. So the runs must have one number of ranks: in a run with more of them the
last ones are left out, and in a run with fewer `abs_to_rel` raises an `IndexError`.

Each call is logged. `every_rank_converted_iff` says when the log is what it should be.
-/

import Mathlib.Data.List.Nodup
import Mathlib.Data.Nat.Find
import Mathlib.Order.Basic
import PerfHound.Lib.Attempts

namespace PerfHound

open Lib

namespace Varstat

/-! ## Projects -/

/-- A row of a rank map, with the columns that are read. -/
structure MapRow where
  hostname : String
  cpu : ℕ
  deriving DecidableEq, Repr

structure RawRow where
  cycle : ℤ
  nanosec : ℤ
  events : List ℤ
  deriving DecidableEq, Repr

/-- What stands in the directory of a project. -/
structure Project where
  /-- `run<n>_rankmap.csv`. -/
  rankmap : ℕ → Option (List MapRow)
  /-- A directory has finitely many files. -/
  finite : ∃ n, (rankmap n).isNone = true
  /-- A file in the directory of a host. -/
  raw : String → String → Option (List RawRow)
  /-- Whether there is a directory `varstat_data`. -/
  opath : Bool
  /-- Whether there is a directory `varstat_data_bak_1`. -/
  bak : Bool

/-- What ends a call before it returns. -/
inductive Stop where
  | indexError
  | fileNotFound
  | attributeError
  /-- The loop over the names of backups, which never gets to the second name. -/
  | endless
  deriving DecidableEq, Repr

/-- A file of relative readings: its host, its name and its rows. -/
abbrev OutFile := String × String × List RawRow

/-- The object, with the files it has written and the calls of `abs_to_rel`. -/
structure VtObject where
  nrun : ℕ
  nranks : List ℕ
  rmaps : List (List MapRow)
  written : List OutFile
  calls : List (ℕ × ℕ)
  deriving DecidableEq, Repr

def VtObject.init : VtObject := ⟨0, [], [], [], []⟩

/-! ## `data_init` -/

/-- `fname` of `abs_to_rel`. -/
def rawName (run rank cpu : ℕ) : String :=
  "run" ++ toString run ++ "_r" ++ toString rank ++ "_c" ++ toString cpu ++ "_all.csv"

/-- The readings relative to those of the first row, `df.iloc[0]`. The differences are exact
here. With a column of `uval` that row is one of `float64` numbers, and then so are they. -/
def relative (df : List RawRow) : Option (List RawRow) :=
  df.head?.map fun first =>
    df.map fun r => { r with cycle := r.cycle - first.cycle, nanosec := r.nanosec - first.nanosec }

/-- A value, or an exception where there is none. -/
def orRaise {α : Type} (e : Stop) : Option α → EStateM Stop VtObject α
  | some a => pure a
  | none => throw e

def absToRel (p : Project) (run rank : ℕ) : EStateM Stop VtObject PUnit := do
  modify fun s => { s with calls := s.calls ++ [(run, rank)] }
  let rmap ← orRaise .indexError (← get).rmaps[run]?
  let row ← orRaise .indexError rmap[rank]?
  let fname := rawName run rank row.cpu
  let df ← orRaise .fileNotFound (p.raw row.hostname fname)
  let rel ← orRaise .indexError (relative df)
  modify fun s => { s with written := s.written ++ [(row.hostname, fname, rel)] }

/-- The loop that counts the runs: the first number without a rank map. -/
def countRuns (p : Project) : ℕ := Nat.find p.finite

/-- What becomes of earlier data: `os.rename(os.opath, bak_path)` has no `os.opath`, and
behind a backup the number of the next name is not increased. -/
def backup (p : Project) : EStateM Stop VtObject PUnit :=
  if p.opath then throw (if p.bak then .endless else .attributeError) else pure ⟨⟩

/-- The list of ranks at a run: the given one, or one that is made here and kept. -/
def fillRankList (run : ℕ) (rankList : List ℕ) : EStateM Stop VtObject (List ℕ) := do
  if rankList.isEmpty then
    let n ← orRaise .indexError (← get).nranks[run]?
    pure (List.range n)
  else
    pure rankList

/-- The body of the loop over the runs. -/
def initRun (p : Project) (rankList : List ℕ) (run : ℕ) : EStateM Stop VtObject (List ℕ) := do
  let df ← orRaise .fileNotFound (p.rankmap run)
  modify fun s => { s with rmaps := s.rmaps ++ [df], nranks := s.nranks ++ [df.length] }
  let rankList ← fillRankList run rankList
  rankList.forM (absToRel p run)
  pure rankList

def dataInit (p : Project) (runList rankList : List ℕ) : EStateM Stop VtObject PUnit := do
  modify fun s => { s with nrun := countRuns p }
  let runList := if runList.isEmpty then List.range (countRuns p) else runList
  backup p
  let _ ← runList.foldlM (initRun p) rankList

/-! ## What should be called and what is -/

section

variable (p : Project)

/-- The number of rows of a rank map. -/
def ranksOf (run : ℕ) : ℕ := ((p.rankmap run).getD []).length

/-- The file a call of `abs_to_rel` is to write, if there is what it needs. -/
def output (c : ℕ × ℕ) : Option OutFile := do
  let rmap ← p.rankmap c.1
  let row ← rmap[c.2]?
  let df ← p.raw row.hostname (rawName c.1 c.2 row.cpu)
  let rel ← relative df
  some (row.hostname, rawName c.1 c.2 row.cpu, rel)

/-- The object when a call of `data_init` on a new one ends. -/
def after : VtObject :=
  match dataInit p [] [] VtObject.init with
  | .ok _ s => s
  | .error _ s => s

/-- `abs_to_rel` is called once for each rank of each run and for nothing else. -/
def CalledOnce : Prop :=
  (after p).calls.Nodup ∧
    ∀ run rank, (run, rank) ∈ (after p).calls ↔ run < countRuns p ∧ rank < ranksOf p run

/-- `data_init` returns, and each of these calls has written its file. -/
def Converted : Prop :=
  dataInit p [] [] VtObject.init = .ok ⟨⟩ (after p) ∧ CalledOnce p ∧
    (after p).written.map some = (after p).calls.map (output p)

/-- There are raw data with at least one row for each row of a rank map. -/
def Complete : Prop :=
  ∀ run rank rmap row, run < countRuns p → p.rankmap run = some rmap → rmap[rank]? = some row →
    ∃ df, p.raw row.hostname (rawName run rank row.cpu) = some df ∧ df ≠ []

/-- The runs behind a run with ranks have as many of them. -/
def SameSizes : Prop :=
  ∀ i j, i < j → j < countRuns p → ranksOf p i = 0 ∨ ranksOf p i = ranksOf p j

/-- The length of the list of ranks before a run. -/
def kept : ℕ → ℕ
  | 0 => 0
  | i + 1 => if kept i = 0 then ranksOf p i else kept i

/-- The calls of one run. -/
def planRun (run : ℕ) : List (ℕ × ℕ) := (List.range (kept p (run + 1))).map fun rank => (run, rank)

/-- The calls that are made if none of them raises an exception. -/
def plan : List (ℕ × ℕ) := (List.range (countRuns p)).flatMap (planRun p)

/-- What holds before a run. -/
structure Before (run : ℕ) (rankList : List ℕ) (s : VtObject) : Prop where
  rmaps : s.rmaps = (List.range run).map fun i => (p.rankmap i).getD []
  nranks : s.nranks = (List.range run).map (ranksOf p)
  rankList : rankList = List.range (kept p run)
  written : s.written.map some = s.calls.map (output p)

end

variable {p : Project} {run rank : ℕ} {s : VtObject}

/-! ## The plan -/

theorem mem_plan : (run, rank) ∈ plan p ↔ run < countRuns p ∧ rank < kept p (run + 1) := by
  simp only [plan, planRun, List.mem_flatMap, List.mem_range, List.mem_map, Prod.mk.injEq]
  constructor
  · rintro ⟨i, hi, r, hr, rfl, rfl⟩
    exact ⟨hi, hr⟩
  · rintro ⟨hrun, hrank⟩
    exact ⟨run, hrun, rank, hrank, rfl, rfl⟩

theorem nodup_plan : (plan p).Nodup := by
  rw [plan, List.nodup_flatMap]
  constructor
  · intro run _
    exact List.nodup_range.map fun a b hab => congrArg Prod.snd hab
  · refine List.nodup_range.imp fun {a b} hab c ha hb => ?_
    obtain ⟨_, _, rfl⟩ := List.mem_map.mp ha
    obtain ⟨_, _, h⟩ := List.mem_map.mp hb
    exact hab (congrArg Prod.fst h).symm

/-- A list that is not empty is kept. -/
theorem kept_eq {i j : ℕ} (h : kept p i ≠ 0) (hij : i ≤ j) : kept p j = kept p i := by
  induction j, hij using Nat.le_induction with
  | base => rfl
  | succ j hij ih => rw [kept, ih, if_neg h]

theorem exists_kept (h : kept p run ≠ 0) : ∃ i < run, kept p run = ranksOf p i := by
  induction run with
  | zero => exact absurd rfl h
  | succ run ih =>
    rw [kept] at h ⊢
    split_ifs at h ⊢ with hzero
    · exact ⟨run, Nat.lt_succ_self run, rfl⟩
    · obtain ⟨i, hi, heq⟩ := ih hzero
      exact ⟨i, Nat.lt_succ_of_lt hi, heq⟩

theorem kept_right_iff :
    (∀ run, run < countRuns p → kept p (run + 1) = ranksOf p run) ↔ SameSizes p := by
  constructor
  · intro h i j hij hj
    obtain hzero | hne := eq_or_ne (ranksOf p i) 0
    · exact Or.inl hzero
    · right
      have hi := h i (hij.trans hj)
      rw [← hi] at hne ⊢
      rw [← h j hj, kept_eq hne (Nat.succ_le_succ hij.le)]
  · intro h run hrun
    rw [kept]
    split
    case isTrue => rfl
    case isFalse hne =>
      obtain ⟨i, hi, heq⟩ := exists_kept hne
      rw [heq] at hne ⊢
      exact (h i run hi hrun).resolve_left hne

/-- The plan is right if each run has as many ranks as the list that is kept. -/
theorem plan_right_iff :
    (∀ run rank, (run, rank) ∈ plan p ↔ run < countRuns p ∧ rank < ranksOf p run) ↔
      SameSizes p := by
  simp only [← kept_right_iff, mem_plan, and_congr_right_iff]
  constructor
  · exact fun h run hrun => eq_of_forall_lt_iff fun rank => h run rank hrun
  · intro h run rank hrun
    rw [h run hrun]

/-! ## The calls -/

/-- The object when a call of `abs_to_rel` begins. -/
def logCall (run rank : ℕ) (s : VtObject) : VtObject := { s with calls := s.calls ++ [(run, rank)] }

theorem orRaise_bind {α β : Type} (e : Stop) (o : Option α) (k : α → EStateM Stop VtObject β)
    (s : VtObject) : (orRaise e o >>= k) s = o.elim (.error e s) fun a => k a s := by
  cases o <;> rfl

/-- With the rank map that the loop has stored, a call writes the file it is to write. -/
theorem absToRel_eq (rank : ℕ) (hmap : s.rmaps[run]? = p.rankmap run) :
    ∃ e, absToRel p run rank s =
      (output p (run, rank)).elim (.error e (logCall run rank s)) fun out =>
        .ok ⟨⟩ { logCall run rank s with written := s.written ++ [out] } := by
  have hrun : absToRel p run rank s =
      (orRaise .indexError s.rmaps[run]? >>= _) (logCall run rank s) := rfl
  simp only [hrun, orRaise_bind, hmap, output]
  cases p.rankmap run with
  | none => exact ⟨_, rfl⟩
  | some rmap =>
    simp only [Option.elim_some, Option.bind_eq_bind, Option.bind_some]
    cases rmap[rank]? with
    | none => exact ⟨_, rfl⟩
    | some row =>
      simp only [Option.elim_some, Option.bind_some]
      cases p.raw row.hostname (rawName run rank row.cpu) with
      | none => exact ⟨_, rfl⟩
      | some df =>
        simp only [Option.elim_some, Option.bind_some]
        cases relative df with
        | none => exact ⟨_, rfl⟩
        | some rel => exact ⟨.indexError, rfl⟩

theorem isSome_rankmap (h : run < countRuns p) :
    p.rankmap run = some ((p.rankmap run).getD []) := by
  have hnone : ¬ (p.rankmap run).isNone = true := Nat.find_min p.finite h
  cases hmap : p.rankmap run with
  | none => exact absurd (by rw [hmap]; rfl) hnone
  | some rmap => rfl

/-- What holds within a run: its rank map is stored. -/
structure Within (p : Project) (run : ℕ) (s : VtObject) : Prop where
  rmaps : s.rmaps = (List.range (run + 1)).map fun i => (p.rankmap i).getD []
  nranks : s.nranks = (List.range (run + 1)).map (ranksOf p)
  written : s.written.map some = s.calls.map (output p)

/-- The calls a program makes: each one succeeds if there is a file for it to write. -/
abbrev Calls {β : Type} (p : Project) (pre : VtObject → Prop) (m : EStateM Stop VtObject β)
    (calls : List (ℕ × ℕ)) (post : β → VtObject → Prop) : Prop :=
  Attempts VtObject.calls (fun c => (output p c).isSome = true) pre m calls post

theorem calls_absToRel (hrun : run < countRuns p) (rank : ℕ) :
    Calls p (Within p run) (absToRel p run rank) [(run, rank)] fun _ => Within p run := by
  have hmap : ∀ s, Within p run s → s.rmaps[run]? = p.rankmap run := by
    intro s hs
    rw [hs.rmaps, List.getElem?_map, List.getElem?_range (Nat.lt_succ_self run), Option.map_some,
      ← isSome_rankmap hrun]
  apply Attempts.of_attempt
  · intro hgood s hs
    obtain ⟨out, hout⟩ := Option.isSome_iff_exists.mp hgood
    obtain ⟨e, heq⟩ := absToRel_eq rank (hmap s hs)
    rw [hout, Option.elim_some] at heq
    refine ⟨_, _, heq, ⟨hs.rmaps, hs.nranks, ?_⟩, rfl⟩
    simp only [logCall, List.map_append, hs.written, List.map_singleton, hout]
  · intro hbad s hs
    obtain ⟨e, heq⟩ := absToRel_eq rank (hmap s hs)
    rw [Option.not_isSome_iff_eq_none.mp hbad, Option.elim_none] at heq
    exact ⟨e, _, heq, rfl⟩

/-- The object when the rank map of a run has been read. -/
def storeMap (df : List MapRow) (s : VtObject) : VtObject :=
  { s with rmaps := s.rmaps ++ [df], nranks := s.nranks ++ [df.length] }

theorem within_storeMap {rankList : List ℕ} (h : Before p run rankList s) :
    Within p run (storeMap ((p.rankmap run).getD []) s) := by
  refine ⟨?_, ?_, h.written⟩
  · rw [storeMap, h.rmaps, List.range_succ, List.map_append, List.map_singleton]
  · rw [storeMap, h.nranks, List.range_succ, List.map_append, List.map_singleton, ranksOf]

theorem bind_ok {α β : Type} {m : EStateM Stop VtObject α} {k : α → EStateM Stop VtObject β}
    {a : α} {t : VtObject} (h : m s = .ok a t) : (m >>= k) s = k a t := by
  change EStateM.bind m k s = k a t
  rw [EStateM.bind, h]

theorem fillRankList_eq (h : Within p run s) :
    fillRankList run (List.range (kept p run)) s = .ok (List.range (kept p (run + 1))) s := by
  have hnranks : s.nranks[run]? = some (ranksOf p run) := by
    rw [h.nranks, List.getElem?_map, List.getElem?_range (Nat.lt_succ_self run), Option.map_some]
  rw [fillRankList, kept]
  cases kept p run with
  | zero =>
    change (orRaise .indexError s.nranks[run]? >>= fun n => pure (List.range n)) s = _
    rw [hnranks, if_pos rfl]
    rfl
  | succ n =>
    have hfull : (List.range (n + 1)).isEmpty = false := by
      rw [List.range_succ_eq_map]
      rfl
    rw [if_neg (Nat.succ_ne_zero n), hfull, if_neg Bool.false_ne_true]
    rfl

theorem calls_initRun (hrun : run < countRuns p) (rankList : List ℕ) :
    Calls p (Before p run rankList) (initRun p rankList run) (planRun p run)
      (Before p (run + 1)) := by
  let ranks := List.range (kept p (run + 1))
  have hloop : Calls p (Within p run) (ranks.forM (absToRel p run) >>= fun _ => pure ranks)
      (planRun p run) (Before p (run + 1)) := by
    rw [planRun, List.map_eq_flatMap, ← List.append_nil (List.flatMap _ _)]
    exact Attempts.bind (Attempts.forM (calls_absToRel hrun) ranks) fun _ =>
      Attempts.pure fun t ht => ⟨ht.rmaps, ht.nranks, rfl, ht.written⟩
  intro s hs
  have hwithin := within_storeMap hs
  have hread : initRun p rankList run s = (orRaise .fileNotFound (p.rankmap run) >>= _) s := rfl
  have hbody : initRun p rankList run s =
      (ranks.forM (absToRel p run) >>= fun _ => pure ranks)
        (storeMap ((p.rankmap run).getD []) s) := by
    rw [hread, orRaise_bind, isSome_rankmap hrun, Option.elim_some, hs.rankList]
    exact bind_ok (fillRankList_eq hwithin)
  rw [hbody]
  exact hloop _ hwithin

/-- The loop over the runs, from a new object. -/
theorem calls_dataInit (hnew : p.opath = false) :
    Calls p (· = VtObject.init) (dataInit p [] []) (plan p) fun _ s =>
      s.written.map some = s.calls.map (output p) := by
  have hloop : Calls p (Before p 0 []) ((List.range (countRuns p)).foldlM (initRun p) [] >>=
      fun _ => pure PUnit.unit) (plan p) fun _ s =>
        s.written.map some = s.calls.map (output p) := by
    rw [plan, ← List.append_nil (List.flatMap _ _)]
    exact Attempts.bind (Attempts.foldlM_range (fun run rankList => Before p run rankList)
      (fun run hrun => calls_initRun hrun) []) fun _ => Attempts.pure fun t ht => ht.written
  rintro s rfl
  have hbody : dataInit p [] [] VtObject.init =
      ((List.range (countRuns p)).foldlM (initRun p) [] >>= fun _ => pure PUnit.unit)
        { VtObject.init with nrun := countRuns p } := by
    have hbackup : backup p = pure ⟨⟩ := by
      rw [backup, hnew]
      rfl
    change (backup p >>= _) _ = _
    rw [hbackup]
    rfl
  rw [hbody]
  exact hloop _ ⟨rfl, rfl, rfl, rfl⟩

/-! ## How a call of `data_init` ends -/

/-- All calls of the plan have succeeded, or one that was made has not. -/
theorem after_cases (hnew : p.opath = false) :
    (dataInit p [] [] VtObject.init = .ok ⟨⟩ (after p) ∧ (after p).calls = plan p ∧
      (∀ c ∈ plan p, (output p c).isSome = true) ∧
      (after p).written.map some = (after p).calls.map (output p)) ∨
    (∃ e, dataInit p [] [] VtObject.init = .error e (after p)) ∧ (after p).calls <+: plan p ∧
      ∃ c ∈ (after p).calls, ¬ (output p c).isSome = true := by
  have hcalls := calls_dataInit hnew VtObject.init rfl
  cases hrun : dataInit p [] [] VtObject.init with
  | ok u s =>
    have hafter : after p = s := by
      rw [after, hrun]
    rw [hrun] at hcalls
    rw [hafter]
    exact Or.inl ⟨rfl, hcalls.2.1, hcalls.2.2, hcalls.1⟩
  | error e s =>
    have hafter : after p = s := by
      rw [after, hrun]
    rw [hrun] at hcalls
    rw [hafter]
    obtain ⟨made, hpart, hmade, hbad⟩ := hcalls
    have hall : s.calls = made := hmade
    rw [hall]
    exact Or.inr ⟨⟨e, rfl⟩, hpart, hbad⟩

theorem isSome_output_iff {rmap : List MapRow} {row : MapRow} (hmap : p.rankmap run = some rmap)
    (hrow : rmap[rank]? = some row) :
    (output p (run, rank)).isSome = true ↔
      ∃ df, p.raw row.hostname (rawName run rank row.cpu) = some df ∧ df ≠ [] := by
  simp only [output, hmap, hrow, Option.bind_eq_bind, Option.bind_some]
  cases p.raw row.hostname (rawName run rank row.cpu) with
  | none => simp
  | some df => cases df <;> simp [relative]

theorem complete_iff :
    Complete p ↔ ∀ run rank, run < countRuns p → rank < ranksOf p run →
      (output p (run, rank)).isSome = true := by
  constructor
  · intro h run rank hrun hrank
    have hmap := isSome_rankmap hrun
    have hrow := List.getElem?_eq_getElem hrank
    exact (isSome_output_iff hmap hrow).mpr (h run rank _ _ hrun hmap hrow)
  · intro h run rank rmap row hrun hmap hrow
    refine (isSome_output_iff hmap hrow).mp (h run rank hrun ?_)
    obtain ⟨hlt, -⟩ := List.getElem?_eq_some_iff.mp hrow
    rwa [ranksOf, hmap, Option.getD_some]

/-- With the right calls, what is called is there for each rank. -/
theorem good_of_complete (hcomplete : Complete p) {calls : List (ℕ × ℕ)}
    (hright : ∀ run rank, (run, rank) ∈ calls → run < countRuns p ∧ rank < ranksOf p run)
    {c : ℕ × ℕ} (hc : c ∈ calls) : (output p c).isSome = true := by
  obtain ⟨hrun, hrank⟩ := hright c.1 c.2 hc
  exact complete_iff.mp hcomplete c.1 c.2 hrun hrank

theorem calledOnce_of_calls (h : (after p).calls = plan p) : CalledOnce p ↔ SameSizes p := by
  rw [CalledOnce, h, plan_right_iff]
  exact and_iff_right nodup_plan

theorem good_of_sameSizes (hcomplete : Complete p) (hsizes : SameSizes p) {c : ℕ × ℕ}
    (hc : c ∈ plan p) : (output p c).isSome = true :=
  good_of_complete hcomplete (fun run rank => (plan_right_iff.mpr hsizes run rank).mp) hc

theorem calledOnce_iff (hnew : p.opath = false) (hcomplete : Complete p) :
    CalledOnce p ↔ SameSizes p := by
  obtain ⟨-, hcalls, -⟩ | ⟨-, hpart, c, hc, hbad⟩ := after_cases hnew
  · exact calledOnce_of_calls hcalls
  · constructor
    · intro h
      exact absurd (good_of_complete hcomplete (fun run rank => (h.2 run rank).mp) hc) hbad
    · intro hsizes
      exact absurd (good_of_sameSizes hcomplete hsizes (hpart.subset hc)) hbad

/-- **`data_init` converts every run and rank exactly if** there are raw data for each of them and
the runs behind a run with ranks have as many. In a project whose raw data are there, the calls
are the right ones exactly if the runs have as many ranks. -/
theorem every_rank_converted_iff (p : Project) (hnew : p.opath = false) :
    (Converted p ↔ Complete p ∧ SameSizes p) ∧
      (Complete p → (CalledOnce p ↔ SameSizes p)) := by
  refine ⟨?_, calledOnce_iff hnew⟩
  constructor
  · rintro ⟨hok, hcalled, -⟩
    obtain ⟨-, hcalls, hgood, -⟩ | ⟨⟨e, herror⟩, -⟩ := after_cases hnew
    · refine ⟨complete_iff.mpr fun run rank hrun hrank => hgood _ ?_,
        (calledOnce_of_calls hcalls).mp hcalled⟩
      rw [← hcalls]
      exact (hcalled.2 run rank).mpr ⟨hrun, hrank⟩
    · rw [herror] at hok
      cases hok
  · rintro ⟨hcomplete, hsizes⟩
    obtain ⟨hok, hcalls, -, hwritten⟩ | ⟨-, hpart, c, hc, hbad⟩ := after_cases hnew
    · exact ⟨hok, (calledOnce_of_calls hcalls).mpr hsizes, hwritten⟩
    · exact absurd (good_of_sameSizes hcomplete hsizes (hpart.subset hc)) hbad

/-! ## Projects of given sizes -/

/-- The names of the raw data of runs with these numbers of ranks, all on the first CPU. -/
def rawNames (sizes : List ℕ) : List String :=
  (List.range sizes.length).flatMap fun run =>
    (List.range (sizes[run]?.getD 0)).map fun rank => rawName run rank 0

/-- A project on one host, with these numbers of ranks and one row of raw data for each. -/
def ofSizes (sizes : List ℕ) : Project where
  rankmap run := sizes[run]?.map fun n => List.replicate n ⟨"node", 0⟩
  finite := ⟨sizes.length, by rw [List.getElem?_eq_none le_rfl]; rfl⟩
  raw host fname := if host = "node" ∧ fname ∈ rawNames sizes then some [⟨0, 0, []⟩] else none
  opath := false
  bak := false

variable {sizes : List ℕ}

theorem rankmap_ofSizes (run : ℕ) :
    (ofSizes sizes).rankmap run = sizes[run]?.map fun n => List.replicate n ⟨"node", 0⟩ := rfl

theorem countRuns_ofSizes : countRuns (ofSizes sizes) = sizes.length := by
  refine (Nat.find_eq_iff _).mpr ⟨?_, fun n hn => ?_⟩
  · rw [rankmap_ofSizes, List.getElem?_eq_none le_rfl]
    rfl
  · rw [rankmap_ofSizes, List.getElem?_eq_getElem hn]
    exact Bool.false_ne_true

theorem ranksOf_ofSizes (run : ℕ) : ranksOf (ofSizes sizes) run = sizes[run]?.getD 0 := by
  rw [ranksOf, rankmap_ofSizes]
  cases sizes[run]? with
  | none => rfl
  | some n => exact List.length_replicate

theorem complete_ofSizes : Complete (ofSizes sizes) := by
  intro run rank rmap row hrun hmap hrow
  rw [countRuns_ofSizes] at hrun
  rw [rankmap_ofSizes, List.getElem?_eq_getElem hrun, Option.map_some] at hmap
  obtain rfl := Option.some.inj hmap
  obtain ⟨hrank, rfl⟩ := List.getElem?_eq_some_iff.mp hrow
  rw [List.length_replicate] at hrank
  have hname : rawName run rank 0 ∈ rawNames sizes := by
    refine List.mem_flatMap.mpr ⟨run, List.mem_range.mpr hrun, List.mem_map.mpr ⟨rank, ?_, rfl⟩⟩
    rwa [List.getElem?_eq_getElem hrun, Option.getD_some, List.mem_range]
  rw [List.getElem_replicate]
  exact ⟨_, if_pos ⟨rfl, hname⟩, List.cons_ne_nil _ _⟩

theorem sameSizes_ofSizes :
    SameSizes (ofSizes sizes) ↔ ∀ j < sizes.length, ∀ i < j,
      sizes[i]?.getD 0 = 0 ∨ sizes[i]?.getD 0 = sizes[j]?.getD 0 := by
  simp only [SameSizes, countRuns_ofSizes, ranksOf_ofSizes]
  exact ⟨fun h j hj i hij => h i j hij hj, fun h i j hij hj => h j hj i hij⟩

/-- One rank and then two: the second one of the second run is left out. -/
theorem second_rank_left_out :
    ∃ p : Project, p.opath = false ∧ Complete p ∧ ¬ CalledOnce p := by
  refine ⟨ofSizes [1, 2], rfl, complete_ofSizes, ?_⟩
  rw [calledOnce_iff rfl complete_ofSizes, sameSizes_ofSizes]
  decide

/-- Two runs of two ranks. -/
theorem every_rank_converted_two_two :
    Converted (ofSizes [2, 2]) ∧ CalledOnce (ofSizes [2, 2]) := by
  have hsizes : SameSizes (ofSizes [2, 2]) := by
    rw [sameSizes_ofSizes]
    decide
  have h := every_rank_converted_iff (ofSizes [2, 2]) rfl
  exact ⟨h.1.mpr ⟨complete_ofSizes, hsizes⟩, (h.2 complete_ofSizes).mpr hsizes⟩

end Varstat

end PerfHound
