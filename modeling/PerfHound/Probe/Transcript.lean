/-
# The record file is a transcript of the samplings

`ph_read` samples into the slot at `ph_irec`, also when `ph_dump` calls it for its markers from
inside another `ph_read` or another dump. The buffer is flushed in the order of its slots, so
the rows of the file and the buffer together are the samplings that have been taken, one by one
and in the order the hardware was read in (`Transcribes`). This speaks of the markers too, which
the tagged rows of a run leave out.
-/

import Mathlib.Data.List.Forall2
import PerfHound.Probe.Serial

namespace PerfHound

open Lib

/-- The row shows one sampling, under some tag and with some `uval`. -/
def Row.Shows (p : Sampler) (nev : ℕ) (m : Sample) (r : Row) : Prop :=
  ∃ gid pid uval, r.reading p = p.reading nev m gid pid uval

namespace Serial

/-- The rows of the file and the buffer show the samplings taken so far, in order. -/
def Transcribes (c : Probe) (s : PhState) : Prop :=
  List.Forall₂ (fun r i => r.Shows (sampler c) c.nev (c.sample i)) (s.contents c)
    (List.range s.nsample)

variable {c : Probe} {s : PhState}

theorem transcribes_store (hs : Transcribes c s) (hle : s.irec.toNat ≤ c.bufNrec.toNat)
    (gid pid : U32) (uval : Double) : Transcribes c (s.store c (sampler c) gid pid uval) := by
  rw [Transcribes, PhState.store_contents c (sampler c) gid pid uval hle]
  show List.Forall₂ _ _ (List.range (s.nsample + 1))
  rw [List.range_succ]
  apply List.rel_append hs
  apply List.Forall₂.cons _ List.Forall₂.nil
  exact ⟨gid, pid, uval, PhState.reading_newRow c (sampler c) s gid pid uval⟩

/-- A flush moves rows from the buffer to the file. -/
theorem transcribes_flush (hopen : ∀ i, c.fopen i = true) (hs : Transcribes c s)
    (hle : s.irec.toNat ≤ c.bufNrec.toNat) : Transcribes c (s.wtrec c s.irec).2.rewind := by
  have hcontents : (s.wtrec c s.irec).2.rewind.contents c = s.contents c := by
    rw [PhState.contents, PhState.wtrec_rewind_toBuffer c hopen hle, WriteBuffer.contents_flush]
    rfl
  have hnsample : (s.wtrec c s.irec).2.rewind.nsample = s.nsample := by
    simp only [PhState.wtrec, hopen, if_true, PhState.rewind]
  rw [Transcribes, hcontents, hnsample]
  exact hs

theorem transcribes_closeDump (hopen : ∀ i, c.fopen i = true) (hs : Transcribes c s)
    (hle : s.irec.toNat ≤ c.bufNrec.toNat) : Transcribes c (s.closeDump c (sampler c)) :=
  transcribes_store (transcribes_flush hopen hs hle) (Nat.zero_le _) 0 4 Double.zero

theorem transcribes_markDump (hs : Transcribes c s) (hle : s.irec.toNat ≤ c.bufNrec.toNat) :
    Transcribes c (markDump c s) :=
  transcribes_store hs hle 0 3 _

/-- A dump: its two markers are samplings like others. -/
theorem transcribes_dump (hopen : ∀ i, c.fopen i = true) (hs : Transcribes c s)
    (hroom : s.irec.toNat < c.bufNrec.toNat) :
    Transcribes c ((markDump c s).closeDump c (sampler c)) := by
  apply transcribes_closeDump hopen (transcribes_markDump hs hroom.le)
  rw [markDump_irec hroom.le]
  exact hroom

theorem transcribes_readState (hopen : ∀ i, c.fopen i = true) (hs : Transcribes c s)
    (hready : Ready c s) (gid pid : U32) (uval : Double) :
    Transcribes c (readState c s gid pid uval) := by
  have hstore := transcribes_store hs hready.le gid pid uval
  rw [readState]
  split
  · apply transcribes_dump hopen hstore
    rw [PhState.store_irec c (sampler c) gid pid uval hready.le]
    exact hready.room
  · exact hstore

theorem transcribes_dumpState (hcap : 3 ≤ c.bufNrec.toNat) (hopen : ∀ i, c.fopen i = true)
    (hs : Transcribes c s) (hready : Ready c s) : Transcribes c (dumpState c s) := by
  rw [dumpState]
  split
  · -- the inner dump runs between the outer marker and the outer flush
    apply transcribes_closeDump hopen
    · apply transcribes_dump hopen (transcribes_markDump hs hready.le)
      rw [markDump_irec hready.le]
      exact hready.room
    · exact Nat.le_of_succ_le (Nat.le_of_succ_le hcap)
  · exact transcribes_dump hopen hs hready.lt

theorem transcribes_next (hcap : 3 ≤ c.bufNrec.toNat) (hopen : ∀ i, c.fopen i = true)
    (hs : Transcribes c s) (hready : Ready c s) (call : Call) : Transcribes c (next c s call) := by
  cases call with
  | read gid pid uval => exact transcribes_readState hopen hs hready gid pid uval
  | dump => exact transcribes_dumpState hcap hopen hs hready

theorem transcribes_committed (precs : ℕ → Rec) : Transcribes c (committed c precs) := by
  have hinit : Transcribes c (init precs) := List.Forall₂.nil
  exact transcribes_store hinit (Nat.zero_le _) 0 1 Double.zero

/-- The run lemma. -/
theorem transcribes_calls (hcap : 3 ≤ c.bufNrec.toNat) (hopen : ∀ i, c.fopen i = true)
    (precs : ℕ → Rec) (calls : List Call) :
    Transcribes c (calls.foldl (next c) (committed c precs)) := by
  have hrun := @Runs.run_eq _ _ (step c 2) (next c) (fun s => Ready c s ∧ Transcribes c s)
    (fun _ => True)
    (fun s call hs _ => ⟨step_eq 0 hcap hs.1 call, ready_next hcap hs.1 call,
      transcribes_next hcap hopen hs.2 hs.1 call⟩)
    calls _ ⟨ready_committed hcap precs, transcribes_committed precs⟩ fun _ _ => trivial
  exact hrun.2.2

theorem phFinalize_nsample {depth : ℕ} {final : PhState} (hcap : 3 ≤ c.bufNrec.toNat)
    (hready : Ready c s) (hfinal : phFinalize c (depth + 2) s = some final) :
    final.nsample = (readState c s 0 2 Double.zero).nsample := by
  simp only [phFinalize, phRead_eq hcap hready, Option.bind_eq_bind, Option.bind_some] at hfinal
  rw [← Option.some.inj hfinal, PhState.wtrec]
  split <;> rfl

/-- A whole run, and the rows of its file against its samplings. -/
theorem exists_transcript (hcap : 3 ≤ c.bufNrec.toNat) (hopen : ∀ i, c.fopen i = true)
    (precs : ℕ → Rec) (calls : List Call) :
    ∃ final : PhState,
      (∀ depth, 2 ≤ depth → phCommit c depth (init precs) = some (committed c precs) ∧
        Runs.run (step c depth) (committed c precs) calls =
          some (calls.foldl (next c) (committed c precs)) ∧
        phFinalize c depth (calls.foldl (next c) (committed c precs)) = some final) ∧
      List.Forall₂ (fun r i => r.Shows (sampler c) c.nev (c.sample i)) final.rows
        (List.range final.nsample) := by
  obtain ⟨-, hlast, -⟩ := run_calls 0 hcap precs calls
  obtain ⟨final, hfinal, hrows⟩ := phFinalize_contents hcap hopen hlast
  have htranscript := transcribes_readState hopen (transcribes_calls hcap hopen precs calls)
    hlast 0 2 Double.zero
  rw [Transcribes, ← hrows, ← phFinalize_nsample hcap hlast (hfinal 0)] at htranscript
  refine ⟨final, fun depth hdepth => ?_, htranscript⟩
  obtain ⟨extra, rfl⟩ := Nat.exists_eq_add_of_le' hdepth
  exact ⟨phCommit_eq _ hcap precs, (run_calls extra hcap precs calls).1, hfinal extra⟩

/-- **The record file is a transcript.** For every sequence of user calls the file a finalized
run leaves has one row for each sampling of the run, the markers of the probe included, and
row k shows what the hardware delivered to sampling k. -/
theorem transcript_of_run (c : Probe) (hcap : 3 ≤ c.bufNrec.toNat)
    (hopen : ∀ i, c.fopen i = true) (precs : ℕ → Rec) (calls : List Call) :
    ∃ start last final : PhState,
      (∀ depth, 2 ≤ depth → phCommit c depth (init precs) = some start ∧
        Runs.run (step c depth) start calls = some last ∧
        phFinalize c depth last = some final) ∧
      final.rows.length = final.nsample ∧
      ∀ k (hk : k < final.rows.length), final.rows[k].Shows (sampler c) c.nev (c.sample k) := by
  obtain ⟨final, hfinal, htranscript⟩ := exists_transcript hcap hopen precs calls
  have hlength := htranscript.length_eq
  rw [List.length_range] at hlength
  refine ⟨_, _, final, hfinal, hlength, fun k hk => ?_⟩
  have hshows := (List.forall₂_iff_get.mp htranscript).2 k hk
    (by rwa [List.length_range, ← hlength])
  simpa using hshows

theorem transcript_of_run_smallest :
    ∃ start last final : PhState,
      (∀ depth, 2 ≤ depth →
        phCommit Probe.smallest depth (init fun _ => Rec.cleared) = some start ∧
        Runs.run (step Probe.smallest depth) start [.dump, .read 1 1 Double.zero] = some last ∧
        phFinalize Probe.smallest depth last = some final) ∧
      final.rows.length = final.nsample ∧
      ∀ k (hk : k < final.rows.length),
        final.rows[k].Shows (sampler Probe.smallest) 0 (Probe.smallest.sample k) :=
  transcript_of_run Probe.smallest (by decide) (fun _ => rfl) (fun _ => Rec.cleared)
    [.dump, .read 1 1 Double.zero]

end Serial

end PerfHound
