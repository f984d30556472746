/-
# The resolution test: a whole session

`main.sh` and `algo.py` work together through files. A round is a program that is compiled and
run once; it leaves a directory, and is not run where there is one, be it that of an earlier
session. The compiler or the program may fail, and then there is none. `algo.py` reads the
directories of some rounds and files that it has written before, and writes the file that
`main.sh` reads the verdict and the result from. A script that stops with an error leaves the
files as they were, and `main.sh` goes on with what they held.

The programs and the statistics of `algo.py` are parameters. If each round has a directory or a
program that leaves one (`Supplies`), and the statistics have a result for what these hold, then
no script misses a file, and the session makes the searches of `searches_find_least`.
-/

import PerfHound.Resolution.Search
import Mathlib.Data.List.Induction
import Mathlib.Data.List.Nodup
import Mathlib.Logic.Function.Basic

namespace PerfHound

open Lib Lib.CoarseToFine

namespace Resolution

/-- What the programs of the rounds leave behind, and what `algo.py` computes from it. A
computation has no result where it stops with an error. -/
structure Experiment (δ κ μ : Type) where
  /-- What the directory of a round holds when its program has been compiled and run, after as
  many times before in the session. There is none if `gcc`, `taskset` or the program failed. -/
  program : ℕ → ℕ → Option δ
  /-- The two minima of `timing_cost`. -/
  timingCost : δ → Option κ
  /-- The verdict of `least_interval` on a round, with the medians if it has passed. -/
  leastInterval : ℕ → κ → δ → Option (Option μ)
  variationJudge : κ → δ → δ → Option (Bool × μ)
  /-- The greatest of the differences that `variation_resolution` has collected. -/
  maxDeltas : List μ → μ

/-- The files of a session, and the variable `output_dir` by its round. -/
structure Files (δ κ μ : Type) where
  /-- What the directory of each round holds, if there is one. -/
  dirs : ℕ → Option δ
  /-- The rounds whose program has been run, in order. -/
  runs : List ℕ
  outputDir : ℕ
  /-- `timing_cost_file`. -/
  cost : Option κ
  /-- `least_interval_file`: a `no`, or a `yes` with the round and the medians. -/
  interval : Option (Option (ℕ × μ))
  /-- `resolution_file`. -/
  resolution : Option (Option μ)

variable {δ κ μ : Type}

/-! ## The scripts -/

variable (e : Experiment δ κ μ)

def compileAndRun (round : ℕ) (s : Files δ κ μ) : Files δ κ μ :=
  let s := { s with outputDir := round }
  if (s.dirs round).isSome then s
  else
    { s with
      dirs := Function.update s.dirs round (e.program round (s.runs.count round))
      runs := s.runs ++ [round] }

/-- A Python script that stops with an error has written nothing. -/
def python (script : Files δ κ μ → Option (Files δ κ μ)) (s : Files δ κ μ) : Files δ κ μ :=
  (script s).getD s

def resolutionContinueNum : ℕ := 20

/-- `range(start, stop, step)`, which has no result without a step. -/
def pyRange (start stop step : ℕ) : Option (List ℕ) :=
  if step = 0 then none
  else some ((List.range ((stop - start + step - 1) / step)).map fun i => start + i * step)

/-- `seq first increment last`, which prints nothing without an increment. -/
def seq (first increment last : ℕ) : List ℕ :=
  if increment = 0 then []
  else (List.range ((last - first) / increment + 1)).map fun i => first + i * increment

/-- The table of a round. `algo.py` stops where its directory is missing. -/
def getResDf (s : Files δ κ μ) (round : ℕ) : Option δ := s.dirs round

def timingCost (s : Files δ κ μ) : Option (Files δ κ μ) := do
  let resDf ← getResDf s s.outputDir
  let cost ← e.timingCost resDf
  some { s with cost := some cost }

def leastInterval (testRound : ℕ) (s : Files δ κ μ) : Option (Files δ κ μ) := do
  let cost ← s.cost
  let resDf ← getResDf s s.outputDir
  let verdict ← e.leastInterval testRound cost resDf
  some { s with interval := some (verdict.map fun medians => (testRound, medians)) }

/-- `variation_resolution`. The last round is taken from the name of its directory. -/
def variationResolutionPy (s : Files δ κ μ) : Option (Files δ κ μ) := do
  let cost ← s.cost
  let (leastRound, _) ← (← s.interval)
  let endRound := s.outputDir
  let deltaRound := (endRound - leastRound) / resolutionContinueNum
  let rounds ← pyRange leastRound (endRound + 1) deltaRound
  let results ← (List.range resolutionContinueNum).mapM fun i => do
    let round1 ← rounds[i]?
    let round2 ← rounds[i + 1]?
    let df1 ← getResDf s round1
    let df2 ← getResDf s round2
    e.variationJudge cost df1 df2
  let passed := results.all Prod.fst
  some { s with
    resolution := some (if passed then some (e.maxDeltas (results.map Prod.snd)) else none) }

/-- The body of the loop of `least_interval_test`: the verdict is what the file holds. -/
def leastIntervalBody (i : ℕ) (s : Files δ κ μ) : Bool × Files δ κ μ :=
  let s := python (leastInterval e i) (compileAndRun e i s)
  (match s.interval with
    | some none => false
    | _ => true, s)

/-- The body of the loop of `variation_resolution` in `main.sh`. -/
def variationBody (leastRound k : ℕ) (s : Files δ κ μ) : Bool × Files δ κ μ :=
  let endRound := leastRound + k * resolutionContinueNum
  let s := (seq leastRound k endRound).foldl (fun s i => compileAndRun e i s) s
  let s := python (variationResolutionPy e) s
  (match s.resolution with
    | some none => false
    | _ => true, s)

/-- `main.sh`: what the two searches have found, and the files they leave. The second line of
`least_interval_file` is read after the first search. -/
def session (fuel : ℕ) (s : Files δ κ μ) : Option (Search × Search × Files δ κ μ) := do
  let s := python (timingCost e) (compileAndRun e 0 s)
  let (least, s) ← searchWith (leastIntervalBody e) 10 fuel 1000 (Search.init, s)
  let (leastRound, _) ← (← s.interval)
  let (variation, s) ← searchWith (variationBody e leastRound) 10 fuel 100 (Search.init, s)
  some (least, variation, s)

/-! ## What the searches are about -/

/-- Whatever the session has run so far, the table of each round is `data`: that of the directory
that is there, or that of the one its program leaves. -/
def Supplies (e : Experiment δ κ μ) (data : ℕ → δ) (s : Files δ κ μ) : Prop :=
  ∀ r, (s.dirs r).or (e.program r (s.runs.count r)) = some (data r)

/-- The computations of `algo.py` have results for these tables. -/
structure Experiment.Works (e : Experiment δ κ μ) (data : ℕ → δ) : Prop where
  cost : ∃ cost, e.timingCost (data 0) = some cost
  least : ∀ i cost, ∃ verdict, e.leastInterval i cost (data i) = some verdict
  judge : ∀ cost i j, ∃ result, e.variationJudge cost (data i) (data j) = some result

variable {e} (data : ℕ → δ) (cost : κ) (leastRound : ℕ)

/-- The verdict on a round, with its medians. -/
def verdict (e : Experiment δ κ μ) (i : ℕ) : Option μ :=
  (e.leastInterval i cost (data i)).join

def passesLeast (e : Experiment δ κ μ) (i : ℕ) : Bool := (verdict data cost e i).isSome

/-- The comparisons of rounds at distance `k`, each with the next one. -/
def judgements (e : Experiment δ κ μ) (k : ℕ) : Option (List (Bool × μ)) :=
  (List.range resolutionContinueNum).mapM fun i =>
    e.variationJudge cost (data (leastRound + i * k)) (data (leastRound + (i + 1) * k))

/-- The result at distance `k`: if all twenty comparisons pass, the greatest difference. -/
def resolved (e : Experiment δ κ μ) (k : ℕ) : Option μ :=
  (judgements data cost leastRound e k).bind fun results =>
    if results.all Prod.fst then some (e.maxDeltas (results.map Prod.snd)) else none

def passesVariation (e : Experiment δ κ μ) (k : ℕ) : Bool :=
  (resolved data cost leastRound e k).isSome

/-! ## Running programs -/

/-- From `s` the rounds in `rounds` have been run, where there was no directory for them. -/
structure Ran (s t : Files δ κ μ) (rounds : ℕ → Prop) : Prop where
  dirs : ∀ r, (t.dirs r).isSome ↔ (s.dirs r).isSome ∨ rounds r
  runs : ∃ new, t.runs = s.runs ++ new ∧ new.Nodup ∧ ∀ r, r ∈ new ↔ s.dirs r = none ∧ rounds r

section Run

variable {data : ℕ → δ} {s t : Files δ κ μ} {rounds : ℕ → Prop}

/-- What stands in a directory is the table of its round. -/
theorem Supplies.eq_of_dirs (h : Supplies e data s) {r : ℕ} {d : δ} (hdir : s.dirs r = some d) :
    d = data r := by
  have hr := h r
  rw [hdir, Option.some_or] at hr
  exact Option.some.inj hr

theorem compileAndRun_of_some {round : ℕ} (hdir : (s.dirs round).isSome) :
    compileAndRun e round s = { s with outputDir := round } :=
  if_pos hdir

/-- Where there is no directory, the program leaves one with the table of the round. -/
theorem compileAndRun_of_none (h : Supplies e data s) {round : ℕ} (hdir : s.dirs round = none) :
    compileAndRun e round s =
      { s with
        outputDir := round
        dirs := Function.update s.dirs round (some (data round))
        runs := s.runs ++ [round] } := by
  have hround := h round
  rw [hdir, Option.none_or] at hround
  rw [compileAndRun, if_neg (by simp [hdir])]
  show { s with outputDir := round, dirs := Function.update s.dirs round _, runs := _ } = _
  rw [hround]

/-- Only the directory of the round and the log of the runs change. -/
theorem compileAndRun_files (e : Experiment δ κ μ) (round : ℕ) (s : Files δ κ μ) :
    (compileAndRun e round s).outputDir = round ∧ (compileAndRun e round s).cost = s.cost ∧
      (compileAndRun e round s).interval = s.interval ∧
      (compileAndRun e round s).resolution = s.resolution := by
  rw [compileAndRun]
  split <;> exact ⟨rfl, rfl, rfl, rfl⟩

/-- No run changes the table of a round, neither its own nor that of another. -/
theorem Supplies.compileAndRun (h : Supplies e data s) (round : ℕ) :
    Supplies e data (compileAndRun e round s) := by
  cases hdir : s.dirs round with
  | some d =>
      rw [compileAndRun_of_some (by rw [hdir]; rfl)]
      exact h
  | none =>
      rw [compileAndRun_of_none h hdir]
      intro r
      show (Function.update s.dirs round (some (data round)) r).or
        (e.program r ((s.runs ++ [round]).count r)) = some (data r)
      by_cases hr : r = round
      · rw [hr, Function.update_self, Option.some_or]
      · have hcount : (s.runs ++ [round]).count r = s.runs.count r := by
          rw [List.count_append, List.count_singleton, if_neg (by simpa using Ne.symm hr),
            Nat.add_zero]
        rw [Function.update_of_ne hr, hcount]
        exact h r

/-- After a run the table of the round can be read. -/
theorem getResDf_compileAndRun (h : Supplies e data s) (round : ℕ) :
    getResDf (Resolution.compileAndRun e round s) round = some (data round) := by
  cases hdir : s.dirs round with
  | some d =>
      rw [compileAndRun_of_some (by rw [hdir]; rfl), getResDf, ← h.eq_of_dirs hdir]
      exact hdir
  | none =>
      rw [compileAndRun_of_none h hdir]
      exact Function.update_self ..

theorem Ran.refl (s : Files δ κ μ) : Ran s s fun _ => False where
  dirs r := ⟨.inl, fun h => h.elim id False.elim⟩
  runs := ⟨[], (List.append_nil _).symm, List.nodup_nil, fun r => by simp⟩

/-- Other files do not matter. -/
theorem Ran.of_eq {t' : Files δ κ μ} (h : Ran s t rounds) (hdirs : t'.dirs = t.dirs)
    (hruns : t'.runs = t.runs) : Ran s t' rounds where
  dirs := by rw [hdirs]; exact h.dirs
  runs := by rw [hruns]; exact h.runs

theorem Ran.congr {rounds' : ℕ → Prop} (h : Ran s t rounds) (hiff : ∀ r, rounds r ↔ rounds' r) :
    Ran s t rounds' := by
  rwa [← funext fun r => propext (hiff r)]

theorem Ran.compileAndRun (h : Ran s t rounds) (ht : Supplies e data t) (round : ℕ) :
    Ran s (compileAndRun e round t) fun r => rounds r ∨ r = round := by
  obtain ⟨new, hruns, hnodup, hnew⟩ := h.runs
  cases hdir : t.dirs round with
  | some d =>
      have hsome : (t.dirs round).isSome := by rw [hdir]; rfl
      have hold := (h.dirs round).mp hsome
      rw [compileAndRun_of_some hsome]
      refine ⟨fun r => ?_, new, hruns, hnodup, fun r => ?_⟩
      · show (t.dirs r).isSome ↔ _
        rw [h.dirs r, ← or_assoc, iff_self_or]
        rintro rfl
        exact hold
      · rw [hnew r, and_or_left, iff_self_or]
        rintro ⟨hfresh, rfl⟩
        exact ⟨hfresh, hold.resolve_left (by simp [hfresh])⟩
  | none =>
      have hout : ¬ ((s.dirs round).isSome ∨ rounds round) := by
        rw [← h.dirs round, hdir]
        exact Bool.false_ne_true
      obtain ⟨hfresh, hunrun⟩ := not_or.mp hout
      rw [compileAndRun_of_none ht hdir]
      refine ⟨fun r => ?_, new ++ [round], ?_, ?_, fun r => ?_⟩
      · show (Function.update t.dirs round (some (data round)) r).isSome ↔ _
        by_cases hr : r = round
        · rw [hr]
          simp
        · rw [Function.update_of_ne hr, h.dirs r, or_iff_left_of_imp (fun heq => absurd heq hr)]
      · show t.runs ++ [round] = _
        rw [hruns, List.append_assoc]
      · refine List.nodup_append.mpr ⟨hnodup, List.nodup_singleton round, ?_⟩
        rintro r hr _ hround rfl
        rw [List.mem_singleton.mp hround] at hr
        exact hunrun ((hnew round).mp hr).2
      · rw [List.mem_append, List.mem_singleton, hnew r]
        constructor
        · rintro (⟨hnone, hr⟩ | rfl)
          · exact ⟨hnone, .inl hr⟩
          · exact ⟨Option.not_isSome_iff_eq_none.mp hfresh, .inr rfl⟩
        · rintro ⟨hnone, hr | hr⟩
          · exact .inl ⟨hnone, hr⟩
          · exact .inr hr

theorem Supplies.foldl (rounds : List ℕ) {t : Files δ κ μ} (h : Supplies e data t) :
    Supplies e data (rounds.foldl (fun s i => Resolution.compileAndRun e i s) t) := by
  induction rounds generalizing t with
  | nil => exact h
  | cons round rest ih => exact ih (h.compileAndRun round)

theorem Ran.foldl (hrounds : List ℕ) :
    ∀ {t : Files δ κ μ} {rounds : ℕ → Prop}, Ran s t rounds → Supplies e data t →
      Ran s (hrounds.foldl (fun s i => Resolution.compileAndRun e i s) t)
        fun r => rounds r ∨ r ∈ hrounds := by
  induction hrounds with
  | nil =>
      intro t rounds h _
      exact h.congr fun r => by simp
  | cons round rest ih =>
      intro t rounds h ht
      refine (ih (h.compileAndRun ht round) (ht.compileAndRun round)).congr fun r => ?_
      rw [List.mem_cons, or_assoc]

end Run

/-! ## One test -/

section Test

variable {t : Files δ κ μ}

/-- What a test of the first search changes. -/
def leastEffect (e : Experiment δ κ μ) (i : ℕ) (t : Files δ κ μ) : Files δ κ μ :=
  { compileAndRun e i t with
    interval := some ((verdict data cost e i).map fun medians => (i, medians)) }

/-- What a test of the second search changes. -/
def variationEffect (e : Experiment δ κ μ) (k : ℕ) (t : Files δ κ μ) : Files δ κ μ :=
  let endRound := leastRound + k * resolutionContinueNum
  { (seq leastRound k endRound).foldl (fun s i => compileAndRun e i s) t with
    resolution := some (resolved data cost leastRound e k) }

/-- What holds in a session from the timing test on. -/
structure Timed (e : Experiment δ κ μ) (data : ℕ → δ) (cost : κ) (t : Files δ κ μ) : Prop where
  supplies : Supplies e data t
  cost : t.cost = some cost

variable {data cost leastRound}

theorem leastIntervalBody_eq (h : e.Works data) (i : ℕ) (ht : Timed e data cost t) :
    leastIntervalBody e i t = (passesLeast data cost e i, leastEffect data cost e i t) := by
  obtain ⟨v, hv⟩ := h.least i cost
  have hverdict : verdict data cost e i = v := by rw [verdict, hv, Option.join_some]
  have hscript : leastInterval e i (compileAndRun e i t) = some (leastEffect data cost e i t) := by
    rw [leastInterval, leastEffect, (compileAndRun_files e i t).2.1, ht.cost,
      (compileAndRun_files e i t).1, getResDf_compileAndRun ht.supplies, hverdict]
    show (e.leastInterval i cost (data i)).bind _ = _
    rw [hv, Option.bind_some]
  rw [leastIntervalBody, python, hscript, Option.getD_some, passesLeast, leastEffect, hverdict]
  cases v with
  | none => rfl
  | some medians => rfl

theorem getElem?_pyRange (first n : ℕ) {k : ℕ} (hk : 0 < k) :
    ∃ rounds, pyRange first (first + k * n + 1) k = some rounds ∧
      ∀ i ≤ n, rounds[i]? = some (first + i * k) := by
  have hcount : (first + k * n + 1 - first + k - 1) / k = n + 1 := by
    have hsum : first + k * n + 1 - first + k - 1 = k * (n + 1) := by
      rw [Nat.mul_succ]
      omega
    rw [hsum, Nat.mul_div_cancel_left _ hk]
  refine ⟨_, if_neg (Nat.ne_of_gt hk), fun i hi => ?_⟩
  rw [hcount, List.getElem?_map, List.getElem?_range (Nat.lt_succ_of_le hi)]
  rfl

theorem mem_seq {first k n r : ℕ} (hk : 0 < k) :
    r ∈ seq first k (first + k * n) ↔ ∃ j ≤ n, r = first + j * k := by
  have hcount : (first + k * n - first) / k + 1 = n + 1 := by
    rw [Nat.add_sub_cancel_left, Nat.mul_div_cancel_left _ hk]
  rw [seq, if_neg (Nat.ne_of_gt hk), hcount, List.mem_map]
  constructor
  · rintro ⟨j, hj, rfl⟩
    exact ⟨j, Nat.le_of_lt_succ (List.mem_range.mp hj), rfl⟩
  · rintro ⟨j, hj, rfl⟩
    exact ⟨j, List.mem_range.mpr (Nat.lt_succ_of_le hj), rfl⟩

theorem getLast?_seq {first k n : ℕ} (hk : 0 < k) :
    (seq first k (first + k * n)).getLast? = some (first + k * n) := by
  have hcount : (first + k * n - first) / k + 1 = n + 1 := by
    rw [Nat.add_sub_cancel_left, Nat.mul_div_cancel_left _ hk]
  rw [seq, if_neg (Nat.ne_of_gt hk), hcount, List.range_succ, List.map_append, List.map_singleton,
    List.getLast?_append, List.getLast?_singleton, Nat.mul_comm]
  rfl

theorem foldl_compileAndRun (e : Experiment δ κ μ) (rounds : List ℕ) (t : Files δ κ μ) :
    let u := rounds.foldl (fun s i => compileAndRun e i s) t
    u.cost = t.cost ∧ u.interval = t.interval ∧
      ∀ r ∈ rounds.getLast?, u.outputDir = r := by
  induction rounds using List.reverseRecOn with
  | nil => exact ⟨rfl, rfl, nofun⟩
  | append_singleton rounds r ih =>
      obtain ⟨hcost, hinterval, -⟩ := ih
      obtain ⟨hout, hcost', hinterval', -⟩ :=
        compileAndRun_files e r (rounds.foldl (fun s i => compileAndRun e i s) t)
      rw [List.foldl_append, List.foldl_cons, List.foldl_nil]
      refine ⟨hcost'.trans hcost, hinterval'.trans hinterval, fun r' hr' => ?_⟩
      rw [List.getLast?_concat] at hr'
      obtain rfl := Option.some.inj hr'
      exact hout

theorem mapM_congr {α β : Type} {f g : α → Option β} {l : List α} (h : ∀ a ∈ l, f a = g a) :
    l.mapM f = l.mapM g := by
  induction l with
  | nil => rfl
  | cons a l ih =>
      rw [List.mapM_cons, List.mapM_cons, h a List.mem_cons_self,
        ih fun b hb => h b (List.mem_cons_of_mem a hb)]

theorem exists_mapM {α β : Type} {f : α → Option β} (h : ∀ a, ∃ b, f a = some b) (l : List α) :
    ∃ bs, l.mapM f = some bs := by
  induction l with
  | nil => exact ⟨[], rfl⟩
  | cons a l ih =>
      obtain ⟨b, hb⟩ := h a
      obtain ⟨bs, hbs⟩ := ih
      exact ⟨b :: bs, by rw [List.mapM_cons, hb, hbs]; rfl⟩

theorem variationBody_eq (h : e.Works data) {k : ℕ} (hk : 0 < k) (ht : Timed e data cost t)
    {medians : μ} (hinterval : t.interval = some (some (leastRound, medians))) :
    variationBody e leastRound k t =
      (passesVariation data cost leastRound e k, variationEffect data cost leastRound e k t) := by
  obtain ⟨results, hresults⟩ : ∃ results, judgements data cost leastRound e k = some results :=
    exists_mapM (fun i => h.judge cost _ _) _
  set u := (seq leastRound k (leastRound + k * resolutionContinueNum)).foldl
    (fun s i => compileAndRun e i s) t with hu
  obtain ⟨hucost, huinterval, hulast⟩ := foldl_compileAndRun e
    (seq leastRound k (leastRound + k * resolutionContinueNum)) t
  have hout : u.outputDir = leastRound + k * resolutionContinueNum :=
    hulast _ (getLast?_seq hk)
  have husupplies : Supplies e data u := ht.supplies.foldl _
  have htable : ∀ j ≤ resolutionContinueNum,
      getResDf u (leastRound + j * k) = some (data (leastRound + j * k)) := by
    intro j hj
    have hdir : (u.dirs (leastRound + j * k)).isSome :=
      (((Ran.refl t).foldl _ ht.supplies).dirs _).mpr (.inr (.inr ((mem_seq hk).mpr ⟨j, hj, rfl⟩)))
    obtain ⟨d, hd⟩ := Option.isSome_iff_exists.mp hdir
    rw [getResDf, hd, husupplies.eq_of_dirs hd]
  obtain ⟨rounds, hrange, hrounds⟩ := getElem?_pyRange leastRound resolutionContinueNum hk
  have hdelta : (leastRound + k * resolutionContinueNum - leastRound) / resolutionContinueNum =
      k := by
    rw [Nat.add_sub_cancel_left]
    exact Nat.mul_div_cancel k (by decide)
  have hjudge : ((List.range resolutionContinueNum).mapM fun i =>
      rounds[i]?.bind fun round1 => rounds[i + 1]?.bind fun round2 =>
        (getResDf u round1).bind fun df1 => (getResDf u round2).bind fun df2 =>
          e.variationJudge cost df1 df2) = some results := by
    refine (mapM_congr fun i hi => ?_).trans hresults
    have hlt := List.mem_range.mp hi
    rw [hrounds i (Nat.le_of_lt hlt), hrounds (i + 1) hlt, Option.bind_some, Option.bind_some,
      htable i (Nat.le_of_lt hlt), htable (i + 1) hlt]
    rfl
  have hscript : variationResolutionPy e u = some (variationEffect data cost leastRound e k t) := by
    have hc : u.cost = some cost := hucost.trans ht.cost
    have hi : u.interval = some (some (leastRound, medians)) := huinterval.trans hinterval
    simp only [variationResolutionPy, Option.bind_eq_bind, hc, hi, Option.bind_some, hout, hdelta,
      hrange, hjudge, variationEffect, ← hu, resolved, hresults]
  rw [variationBody, python, ← hu, hscript, Option.getD_some, passesVariation, variationEffect]
  cases resolved data cost leastRound e k with
  | none => rfl
  | some medians => rfl

end Test

/-! ## A session -/

/-- What a session with these two searches has made of the files `s`. -/
structure Outcome (e : Experiment δ κ μ) (data : ℕ → δ) (cost : κ) (s : Files δ κ μ)
    (first second : Search) (t : Files δ κ μ) : Prop where
  least : Least (passesLeast data cost e) first first.high
  interval : ∃ medians, verdict data cost e first.high = some medians ∧
    t.interval = some (some (first.high, medians))
  variation : Least (passesVariation data cost first.high e) second second.high
  resolution : ∃ delta, resolved data cost first.high e second.high = some delta ∧
    t.resolution = some (some delta)
  /-- The programs that were run are those of round 0, of the rounds of the first search, and of
  twenty-one rounds at each distance of the second. -/
  runs : Ran s t fun r => r = 0 ∨ r ∈ first.tested ∨
    ∃ k ∈ second.tested, ∃ j ≤ resolutionContinueNum, r = first.high + j * k
  tables : ∀ r d, t.dirs r = some d → d = data r

section Session

variable {data : ℕ → δ} {s t : Files δ κ μ} {rounds : ℕ → Prop} {cost : κ} {leastRound : ℕ}

theorem Timed.least_effects (ht : Timed e data cost t) (tested : List ℕ) :
    Timed e data cost (tested.foldr (leastEffect data cost e) t) := by
  induction tested with
  | nil => exact ht
  | cons i tested ih =>
      exact ⟨ih.supplies.compileAndRun i, (compileAndRun_files e i _).2.1.trans ih.cost⟩

theorem Ran.least_effects (h : Ran s t rounds) (ht : Timed e data cost t) (tested : List ℕ) :
    Ran s (tested.foldr (leastEffect data cost e) t) fun r => rounds r ∨ r ∈ tested := by
  induction tested with
  | nil => exact h.congr fun r => by simp
  | cons i tested ih =>
      have hran : Ran s (leastEffect data cost e i (tested.foldr (leastEffect data cost e) t)) _ :=
        (ih.compileAndRun (ht.least_effects tested).supplies i).of_eq rfl rfl
      refine hran.congr fun r => ?_
      rw [List.mem_cons, or_assoc, or_comm (a := r ∈ tested)]

theorem Timed.variation_effects (ht : Timed e data cost t) {medians : μ}
    (hinterval : t.interval = some (some (leastRound, medians))) (tested : List ℕ) :
    Timed e data cost (tested.foldr (variationEffect data cost leastRound e) t) ∧
      (tested.foldr (variationEffect data cost leastRound e) t).interval =
        some (some (leastRound, medians)) := by
  induction tested with
  | nil => exact ⟨ht, hinterval⟩
  | cons k tested ih =>
      obtain ⟨hc, hi, -⟩ := foldl_compileAndRun e
        (seq leastRound k (leastRound + k * resolutionContinueNum))
        (tested.foldr (variationEffect data cost leastRound e) t)
      exact ⟨⟨ih.1.supplies.foldl _, hc.trans ih.1.cost⟩, hi.trans ih.2⟩

theorem Ran.variation_effects (h : Ran s t rounds) (ht : Timed e data cost t) {medians : μ}
    (hinterval : t.interval = some (some (leastRound, medians))) {tested : List ℕ}
    (hpos : ∀ k ∈ tested, 0 < k) :
    Ran s (tested.foldr (variationEffect data cost leastRound e) t) fun r => rounds r ∨
      ∃ k ∈ tested, ∃ j ≤ resolutionContinueNum, r = leastRound + j * k := by
  induction tested with
  | nil => exact h.congr fun r => by simp
  | cons k tested ih =>
      obtain ⟨hk, hrest⟩ := List.forall_mem_cons.mp hpos
      have hran : Ran s (variationEffect data cost leastRound e k
          (tested.foldr (variationEffect data cost leastRound e) t)) _ :=
        ((ih hrest).foldl (seq leastRound k (leastRound + k * resolutionContinueNum))
          (ht.variation_effects hinterval tested).1.supplies).of_eq rfl rfl
      refine hran.congr fun r => ?_
      rw [mem_seq hk, or_assoc, or_comm (b := ∃ j ≤ _, r = leastRound + j * k)]
      simp

/-- The cost of the timing is known when the searches begin. -/
theorem timingCost_eq (hs : Supplies e data s) (hcost : e.timingCost (data 0) = some cost) :
    python (timingCost e) (compileAndRun e 0 s) =
      { compileAndRun e 0 s with cost := some cost } := by
  have htable : getResDf (compileAndRun e 0 s) (compileAndRun e 0 s).outputDir =
      some (data 0) := by
    rw [(compileAndRun_files e 0 s).1]
    exact getResDf_compileAndRun hs 0
  have hscript : timingCost e (compileAndRun e 0 s) =
      some { compileAndRun e 0 s with cost := some cost } := by
    rw [timingCost, htable]
    show (e.timingCost (data 0)).bind _ = _
    rw [hcost, Option.bind_some]
  rw [python, hscript, Option.getD_some]

theorem timed_start (hs : Supplies e data s) :
    Timed e data cost { compileAndRun e 0 s with cost := some cost } :=
  ⟨hs.compileAndRun 0, rfl⟩

/-- The last test of a search that has ended is that of its result. -/
theorem tested_eq_cons {passes : ℕ → Bool} (m : ℕ) {fuel : ℕ} {found : Search}
    (h : search passes 10 fuel (10 ^ m) Search.init = some found) :
    ∃ rest, found.tested = found.high :: rest := by
  have hlast := (reports_search h).last found.high (found_of_search m h).1
  exact List.head?_eq_some_iff.mp hlast

/-- The session in closed form. -/
theorem session_eq (h : e.Works data) (hcost : e.timingCost (data 0) = some cost) (fuel : ℕ)
    (hs : Supplies e data s) :
    session e fuel s = (leastIntervalTest (passesLeast data cost e) fuel).bind fun first =>
      (variationResolution (passesVariation data cost first.high e) fuel).map fun second =>
        (first, second, second.tested.foldr (variationEffect data cost first.high e)
          (first.tested.foldr (leastEffect data cost e)
            { compileAndRun e 0 s with cost := some cost })) := by
  have hs₀ : Timed e data cost { compileAndRun e 0 s with cost := some cost } := timed_start hs
  set s₀ : Files δ κ μ := { compileAndRun e 0 s with cost := some cost } with heq
  have hfirst : searchWith (leastIntervalBody e) 10 fuel 1000 (Search.init, s₀) =
      (leastIntervalTest (passesLeast data cost e) fuel).map fun first =>
        (first, first.tested.foldr (leastEffect data cost e) s₀) :=
    searchWith_eq (fun tested i _ => leastIntervalBody_eq h i (hs₀.least_effects tested)) 10 fuel
      1000 Search.init
  rw [session, timingCost_eq hs hcost, ← heq, hfirst]
  cases hleast : leastIntervalTest (passesLeast data cost e) fuel with
  | none => rfl
  | some first =>
      obtain ⟨rest, hrest⟩ := tested_eq_cons 3 hleast
      obtain ⟨medians, hmedians⟩ := Option.isSome_iff_exists.mp (found_of_search 3 hleast).2.2.2.1
      have hs₁ := hs₀.least_effects first.tested
      set s₁ := first.tested.foldr (leastEffect data cost e) s₀ with heq₁
      have hi : s₁.interval = some (some (first.high, medians)) := by
        rw [heq₁, hrest, List.foldr_cons, leastEffect, hmedians]
        rfl
      have hsecond : searchWith (variationBody e first.high) 10 fuel 100 (Search.init, s₁) =
          (variationResolution (passesVariation data cost first.high e) fuel).map fun second =>
            (second, second.tested.foldr (variationEffect data cost first.high e) s₁) :=
        searchWith_eq (fun tested k hk =>
          have hkept := hs₁.variation_effects hi tested
          variationBody_eq h hk hkept.1 hkept.2) 10 fuel 100 Search.init
      show (s₁.interval.bind fun line => line.bind fun p =>
        (searchWith (variationBody e p.1) 10 fuel 100 (Search.init, s₁)).bind fun q =>
          some (first, q.1, q.2)) = _
      rw [hi, Option.bind_some, Option.bind_some, hsecond, Option.bind_map]
      exact (Option.map_eq_bind ..).symm

theorem outcome_of_searches {fuel : ℕ} {first second : Search}
    (hfirst : leastIntervalTest (passesLeast data cost e) fuel = some first)
    (hsecond : variationResolution (passesVariation data cost first.high e) fuel = some second)
    (hs : Supplies e data s) :
    Outcome e data cost s first second
      (second.tested.foldr (variationEffect data cost first.high e)
        (first.tested.foldr (leastEffect data cost e)
          { compileAndRun e 0 s with cost := some cost })) := by
  have hleast := (found_of_search 3 hfirst).2
  have hvariation := (found_of_search 2 hsecond).2
  obtain ⟨rest, hrest⟩ := tested_eq_cons 3 hfirst
  obtain ⟨rest', hrest'⟩ := tested_eq_cons 2 hsecond
  obtain ⟨medians, hmedians⟩ := Option.isSome_iff_exists.mp hleast.2.2.1
  obtain ⟨delta, hdelta⟩ := Option.isSome_iff_exists.mp hvariation.2.2.1
  have hs₀ : Timed e data cost { compileAndRun e 0 s with cost := some cost } := timed_start hs
  have hs₁ := hs₀.least_effects first.tested
  set s₁ := first.tested.foldr (leastEffect data cost e)
    { compileAndRun e 0 s with cost := some cost } with heq₁
  have hi : s₁.interval = some (some (first.high, medians)) := by
    rw [heq₁, hrest, List.foldr_cons, leastEffect, hmedians]
    rfl
  obtain ⟨hend, hendInterval⟩ := hs₁.variation_effects hi second.tested
  have hstart : Ran s { compileAndRun e 0 s with cost := some cost } fun r => False ∨ r = 0 :=
    ((Ran.refl s).compileAndRun hs 0).of_eq rfl rfl
  have hran : Ran s (second.tested.foldr (variationEffect data cost first.high e) s₁) _ :=
    (hstart.least_effects hs₀ first.tested).variation_effects hs₁ hi (reports_search hsecond).pos
  refine ⟨hleast, ⟨medians, hmedians, hendInterval⟩, hvariation, ⟨delta, hdelta, ?_⟩,
    hran.congr fun r => ?_, fun r d hdir => hend.supplies.eq_of_dirs hdir⟩
  · rw [hrest', List.foldr_cons, variationEffect, hdelta]
  · rw [false_or, or_assoc]

/-- **A session of the resolution test.** Let each round have a directory, of this session or
an earlier one, or a program that leaves one, and let the statistics have results for what
these hold. Then the session ends exactly if the two searches do, with their results: no script
misses a file that it reads. Its files then hold what the rounds found are due, each directory
that was there is as it was, and each program was run once, where there was none. -/
theorem session_searches (data : ℕ → δ) (s : Files δ κ μ) (hs : Supplies e data s)
    (h : e.Works data) :
    ∃ cost, e.timingCost (data 0) = some cost ∧
      (∀ fuel first second, leastIntervalTest (passesLeast data cost e) fuel = some first →
        variationResolution (passesVariation data cost first.high e) fuel = some second →
        ∃ t, session e fuel s = some (first, second, t)) ∧
      ∀ fuel first second t, session e fuel s = some (first, second, t) →
        leastIntervalTest (passesLeast data cost e) fuel = some first ∧
        variationResolution (passesVariation data cost first.high e) fuel = some second ∧
        Outcome e data cost s first second t := by
  obtain ⟨cost, hcost⟩ := h.cost
  refine ⟨cost, hcost, fun fuel first second hfirst hsecond => ?_,
    fun fuel first second t hsession => ?_⟩
  · rw [session_eq h hcost fuel hs, hfirst, Option.bind_some, hsecond]
    exact ⟨_, rfl⟩
  · rw [session_eq h hcost fuel hs] at hsession
    obtain ⟨first', hfirst, hrest⟩ := Option.bind_eq_some_iff.mp hsession
    obtain ⟨second', hsecond, hend⟩ := Option.map_eq_some_iff.mp hrest
    obtain ⟨rfl, rfl, rfl⟩ : first' = first ∧ second' = second ∧ _ = t := by simpa using hend
    exact ⟨hfirst, hsecond, outcome_of_searches hfirst hsecond hs⟩

end Session

/-- Rounds that pass from 3 on, and differ enough at distance 2. -/
def Experiment.small : Experiment ℕ ℕ ℕ where
  program := fun r _ => some r
  timingCost := some
  leastInterval := fun i _ d => some (if 3 ≤ d then some i else none)
  variationJudge := fun _ d d' => some (decide (d + 2 ≤ d'), d' - d)
  maxDeltas := fun deltas => deltas.foldl max 0

/-- An earlier session has left a directory for round 3, in which the round does not pass. -/
def Files.stale : Files ℕ ℕ ℕ :=
  ⟨fun r => if r = 3 then some 2 else none, [], 0, none, none, none⟩

/-- What the session finds: the old table of round 3. -/
def staleTables (r : ℕ) : ℕ := if r = 3 then 2 else r

theorem session_searches_stale : ∃ first second t,
    session Experiment.small 20 Files.stale = some (first, second, t) ∧
      first.high = 4 ∧ second.high = 2 ∧ t.dirs 3 = some 2 ∧
      Outcome Experiment.small staleTables 0 Files.stale first second t := by
  have hworks : Experiment.small.Works staleTables :=
    ⟨⟨0, rfl⟩, fun i _ => ⟨_, rfl⟩, fun _ _ _ => ⟨_, rfl⟩⟩
  have hsupplies : Supplies Experiment.small staleTables Files.stale := by
    intro r
    by_cases hr : r = 3 <;> simp [Files.stale, staleTables, Experiment.small, hr]
  obtain ⟨cost, hcost, hends, hspec⟩ := session_searches staleTables Files.stale hsupplies hworks
  obtain rfl : 0 = cost := Option.some.inj hcost
  have hleast : (leastIntervalTest (passesLeast staleTables 0 Experiment.small) 20).map
      Search.high = some 4 := by decide +kernel
  obtain ⟨first, hfirst, hfour⟩ := Option.map_eq_some_iff.mp hleast
  have hvariation : (variationResolution (passesVariation staleTables 0 4 Experiment.small)
      20).map Search.high = some 2 := by decide +kernel
  rw [← hfour] at hvariation
  obtain ⟨second, hsecond, htwo⟩ := Option.map_eq_some_iff.mp hvariation
  obtain ⟨t, ht⟩ := hends 20 first second hfirst hsecond
  have hend := (hspec 20 first second t ht).2.2
  obtain ⟨d, hd⟩ := Option.isSome_iff_exists.mp ((hend.runs.dirs 3).mpr (.inl rfl))
  refine ⟨first, second, t, ht, hfour, htwo, ?_, hend⟩
  rw [hd, hend.tables 3 d hd]
  rfl

end Resolution

end PerfHound
