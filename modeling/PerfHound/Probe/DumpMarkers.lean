/-
# The markers around a dump

`ph_dump` puts a marker (0,3) behind the records it is going to flush, with their number,
and a marker (0,4) in front of the next ones. In the file the two stand side by side and
tell when the flush began and ended. But the first marker is taken by `ph_read`: with two
slots left it fills the buffer, and the dump that this starts inside the first one puts a
second marker (0,3) behind the first. And a file that is not found any more at the end
of the run stays without the marker (0,4) of its last dump.

Both can be told from the calls and from the answers to the opens of the record file. A
`Course` follows them: the load of the buffer, whether the file ends with a marker (0,3),
and whether two of them have come side by side.
-/

import Mathlib.Algebra.GroupWithZero.Nat
import PerfHound.Lib.Adjacent
import PerfHound.Probe.Accounting

namespace PerfHound

open Lib

namespace PhState

variable (c : Probe)

def buffered (s : PhState) : List Row := s.toBuffer.printed (Row.ofRec c.nev) s.irec.toNat

/-- How many records the calls of `ph_io_wtrec` were asked to write. -/
def asked (s : PhState) : List ℕ :=
  s.log.filterMap fun
    | .wtrec nrec => some nrec.toNat
    | _ => none

/-- How many rows they have appended. -/
def flushes (s : PhState) : List ℕ := s.asked.mapIdx fun i n => if c.fopen i then n else 0

variable {c} {p : Sampler} {s : PhState}

theorem length_buffered (s : PhState) : (s.buffered c).length = s.irec.toNat := by
  rw [buffered, WriteBuffer.printed, List.length_map, List.length_range]

theorem buffered_store (gid pid : U32) (uval : Double) (hle : s.irec.toNat ≤ c.bufNrec.toNat) :
    (s.store c p gid pid uval).buffered c =
      s.buffered c ++ [newRow c p s gid pid uval] := by
  have hcontents := store_contents c p gid pid uval hle
  rw [contents, contents, WriteBuffer.contents, WriteBuffer.contents,
    List.append_assoc] at hcontents
  exact List.append_cancel_left hcontents

theorem flushes_store (gid pid : U32) (uval : Double) :
    (s.store c p gid pid uval).flushes c = s.flushes c := by
  rw [flushes, asked, store_log, List.filterMap_append]
  exact congrArg _ (List.append_nil _)

theorem asked_wtrec (nrec : U32) : (s.wtrec c nrec).2.asked = s.asked ++ [nrec.toNat] := by
  rw [asked, wtrec_log, List.filterMap_append]
  rfl

/-- A flush of the buffer. -/
theorem rows_wtrec (hle : s.irec.toNat ≤ c.bufNrec.toNat) :
    (s.wtrec c s.irec).2.rows = s.rows ++ if c.fopen s.nopen then s.buffered c else [] := by
  have hsmall := c.lt_of_le hle
  have hint : s.irec.toInt.toNat = s.irec.toNat := by
    rw [BitVec.toInt_eq_toNat_of_lt (by omega), Int.toNat_natCast]
  simp only [wtrec, hint]
  split
  · rfl
  · exact (List.append_nil _).symm

theorem buffered_closeDump (s : PhState) : ∃ b : Row, b.gid = 0 ∧ b.pid = 4 ∧
    (s.closeDump c p).buffered c = [b] :=
  ⟨_, rfl, rfl, buffered_store 0 4 Double.zero (Nat.zero_le _)⟩

end PhState

namespace Serial

variable {c : Probe} {s : PhState}

/-! ## Markers -/

/-- A row with one of the probe's own tags. -/
def Marker (pid : U32) (r : Row) : Prop := r.gid = 0 ∧ r.pid = pid

instance (pid : U32) (r : Row) : Decidable (Marker pid r) := inferInstanceAs (Decidable (_ ∧ _))

/-- One of the flushes ends with row `k` of the file, and it wrote `uval` rows. -/
def Closes (flushes : List ℕ) (k : ℕ) (uval : Double) : Prop :=
  ∃ (before : List ℕ) (nrec : U32), before ++ [nrec.toNat] <+: flushes ∧ nrec ≠ 0 ∧
    before.sum + nrec.toNat = k ∧ uval = Double.ofU32 nrec

/-- Every marker (0,3) is followed by a marker (0,4), and it is the last row of a flush and
has its number of rows. -/
structure MarkersPaired (flushes : List ℕ) (rows : List Row) : Prop where
  pairs : FollowedBy (Marker 3) (Marker 4) (fun _ => False) rows
  closes : AtEach (fun i r => Marker 3 r → Closes flushes (i + 1) r.uval) rows

theorem not_marker_three {r : Row} (h : Marker 4 r) : ¬ Marker 3 r := by
  rintro ⟨-, hpid⟩
  exact absurd (h.2.symm.trans hpid) (by decide)

/-! ## The course of a run -/

/-- What the calls and the answers to the opens tell. -/
structure Course where
  load : Load
  /-- The file ends with a marker (0,3). -/
  hanging : Bool
  /-- Two markers (0,3) stand side by side in it. -/
  clash : Bool
  deriving DecidableEq, Repr

namespace Course

/-- After the commit. -/
def committed : Course := ⟨Load.committed, false, false⟩

/-- The last row of the file after a flush: `marker` tells whether the buffer ends with a
marker (0,3). -/
def hangs (fopen : ℕ → Bool) (nopen : ℕ) (marker hanging : Bool) : Bool :=
  if fopen nopen then marker else hanging

/-- A call, with a buffer of `nrec` records. -/
def next (nrec : ℕ) (fopen : ℕ → Bool) (t : Course) (call : Call) : Course :=
  let afterDump := hangs fopen t.load.flushes true t.hanging
  { load := t.load.serial nrec call
    hanging :=
      match call with
      | .read _ _ _ => if t.load.level + 2 = nrec then afterDump else t.hanging
      | .dump =>
          if t.load.level + 2 = nrec then hangs fopen (t.load.flushes + 1) false afterDump
          else afterDump
    clash :=
      match call with
      | .read _ _ _ => t.clash
      | .dump => t.clash || (decide (t.load.level + 2 = nrec) && fopen t.load.flushes) }

/-- Nothing is wrong with the file after the last flush. -/
def Clear (fopen : ℕ → Bool) (t : Course) : Prop :=
  t.clash = false ∧ hangs fopen t.load.flushes false t.hanging = false

end Course

/-- The calls of a run, with the last read of the finalize. -/
def toFinalize (calls : List Call) : List Call := calls ++ [.read 0 2 Double.zero]

/-- The course of a run from the commit to the last flush. -/
def course (c : Probe) (calls : List Call) : Course :=
  (toFinalize calls).foldl (Course.next c.bufNrec.toNat c.fopen) Course.committed

/-! ## What the file looks like -/

/-- The file without side by side markers. -/
structure OnFile (c : Probe) (hanging : Bool) (s : PhState) : Prop where
  opens : s.asked.length = s.nopen
  sum : (s.flushes c).sum = s.rows.length
  pairs : FollowedBy (Marker 3) (Marker 4) (· = s.rows.length) s.rows
  last : hanging = true ↔ ∃ a, s.rows.getLast? = some a ∧ Marker 3 a
  closes : AtEach (fun i r => Marker 3 r → Closes (s.flushes c) (i + 1) r.uval) s.rows

/-- Between two calls, the buffer goes on where the file ends. -/
structure Marked (c : Probe) (hanging : Bool) (s : PhState) : Prop where
  file : OnFile c hanging s
  quiet : ∀ r ∈ s.buffered c, ¬ Marker 3 r
  starts : hanging = true → ∃ b, (s.buffered c).head? = some b ∧ Marker 4 b

theorem Closes.mono {fl fl' : List ℕ} {k : ℕ} {uval : Double} (h : Closes fl k uval)
    (hgrow : fl <+: fl') : Closes fl' k uval := by
  obtain ⟨before, nrec, hbefore, hrest⟩ := h
  exact ⟨before, nrec, hbefore.trans hgrow, hrest⟩

theorem flushes_wtrec (hopens : s.asked.length = s.nopen) (nrec : U32) :
    (s.wtrec c nrec).2.flushes c =
      s.flushes c ++ [if c.fopen s.nopen then nrec.toNat else 0] := by
  rw [PhState.flushes, PhState.asked_wtrec, List.mapIdx_concat, hopens]
  rfl

theorem OnFile.store {hanging : Bool} (h : OnFile c hanging s) (p : Sampler) (gid pid : U32)
    (uval : Double) : OnFile c hanging (s.store c p gid pid uval) := by
  have hasked : (s.store c p gid pid uval).asked = s.asked := by
    rw [PhState.asked, PhState.store_log, List.filterMap_append]
    exact List.append_nil _
  have hflushes := PhState.flushes_store (c := c) (p := p) (s := s) gid pid uval
  exact ⟨by rw [hasked]; exact h.opens, by rw [hflushes]; exact h.sum, h.pairs, h.last,
    by rw [hflushes]; exact h.closes⟩

/-- A flush that does not find the file. -/
theorem OnFile.fail {hanging : Bool} (h : OnFile c hanging s)
    (hle : s.irec.toNat ≤ c.bufNrec.toNat) (hmissing : c.fopen s.nopen = false) :
    OnFile c hanging (s.wtrec c s.irec).2 := by
  have hrows : (s.wtrec c s.irec).2.rows = s.rows := by
    rw [PhState.rows_wtrec hle, hmissing]
    exact List.append_nil _
  have hflushes := flushes_wtrec (c := c) h.opens s.irec
  have hgrow : s.flushes c <+: (s.wtrec c s.irec).2.flushes c := hflushes ▸ List.prefix_append _ _
  refine ⟨?_, ?_, hrows ▸ h.pairs, hrows ▸ h.last, ?_⟩
  · rw [PhState.asked_wtrec, PhState.wtrec_nopen, List.length_append, h.opens]
    rfl
  · rw [hflushes, hmissing, hrows, List.sum_append, h.sum]
    rfl
  · rw [hrows]
    exact h.closes.mono fun _ _ hcloses hmarker => (hcloses hmarker).mono hgrow

/-- A flush that finds the file: a marker (0,3) may only be the last row of the buffer, and
then it has the number of its rows. -/
theorem OnFile.found {hanging marker : Bool} (h : OnFile c hanging s)
    (hle : s.irec.toNat ≤ c.bufNrec.toNat) (hfound : c.fopen s.nopen = true)
    (hstarts : hanging = true → ∃ b, (s.buffered c).head? = some b ∧ Marker 4 b)
    {quiet : List Row} {a : Row} (hbuffer : s.buffered c = quiet ++ [a])
    (hquiet : ∀ r ∈ quiet, ¬ Marker 3 r) (hlast : marker = true ↔ Marker 3 a)
    (huval : Marker 3 a → a.uval = Double.ofU32 s.irec) :
    OnFile c marker (s.wtrec c s.irec).2 := by
  have hrows : (s.wtrec c s.irec).2.rows = s.rows ++ (quiet ++ [a]) := by
    rw [PhState.rows_wtrec hle, hfound, if_pos rfl, hbuffer]
  have hflushes : (s.wtrec c s.irec).2.flushes c = s.flushes c ++ [s.irec.toNat] := by
    rw [flushes_wtrec h.opens, hfound, if_pos rfl]
  have hgrow : s.flushes c <+: (s.wtrec c s.irec).2.flushes c := hflushes ▸ List.prefix_append _ _
  have hlength : (quiet ++ [a]).length = s.irec.toNat := by
    rw [← hbuffer, PhState.length_buffered]
  refine ⟨?_, ?_, ?_, ?_, ?_⟩
  · rw [PhState.asked_wtrec, PhState.wtrec_nopen, List.length_append, h.opens]
    rfl
  · rw [hflushes, hrows, List.sum_append, List.sum_singleton, h.sum, List.length_append, hlength]
  · have hpart : FollowedBy (Marker 3) (Marker 4) (· = (quiet ++ [a]).length) (quiet ++ [a]) := by
      refine (FollowedBy.of_none hquiet).append (FollowedBy.broken_single ?_)
      rw [List.length_append]
      rfl
    rw [hrows]
    refine h.pairs.join hpart fun b hb hmarker => ?_
    exact hbuffer ▸ hstarts (h.last.mpr ⟨b, hb, hmarker⟩)
  · rw [hrows, ← List.append_assoc, List.getLast?_concat, hlast]
    simp
  · have hold := h.closes.mono fun i _ hcloses hmarker => (hcloses hmarker).mono hgrow
    have hmiddle := hold.append (m := quiet)
      fun i r hr hmarker => absurd hmarker (hquiet r (List.mem_of_getElem? hr))
    rw [hrows, ← List.append_assoc]
    refine hmiddle.concat fun hmarker => ⟨s.flushes c, s.irec, ?_, ?_, ?_, huval hmarker⟩
    · exact hflushes ▸ List.prefix_rfl
    · intro hzero
      rw [hzero, List.length_append] at hlength
      exact absurd hlength (Nat.succ_ne_zero _)
    · rw [List.length_append, List.length_singleton] at hlength
      rw [h.sum, List.length_append, ← hlength]
      rfl

/-- Behind a flush the buffer starts with a marker (0,4). -/
theorem OnFile.marked {hanging : Bool} (h : OnFile c hanging (s.wtrec c s.irec).2) (p : Sampler) :
    Marked c hanging (s.closeDump c p) := by
  obtain ⟨b, hgid, hpid, hbuffer⟩ := PhState.buffered_closeDump (c := c) (p := p) s
  have hb : Marker 4 b := ⟨hgid, hpid⟩
  have hrewind : OnFile c hanging (s.wtrec c s.irec).2.rewind :=
    ⟨h.opens, h.sum, h.pairs, h.last, h.closes⟩
  refine ⟨hrewind.store p 0 4 Double.zero, ?_, fun _ => ⟨b, by rw [hbuffer]; rfl, hb⟩⟩
  intro r hr
  rw [hbuffer, List.mem_singleton] at hr
  exact hr ▸ not_marker_three hb

/-- A flush between two calls. -/
theorem Marked.flush {hanging : Bool} (h : Marked c hanging s) (hpos : 1 ≤ s.irec.toNat)
    (hle : s.irec.toNat ≤ c.bufNrec.toNat) :
    OnFile c (Course.hangs c.fopen s.nopen false hanging) (s.wtrec c s.irec).2 := by
  cases hopen : c.fopen s.nopen with
  | false =>
      rw [Course.hangs, hopen, if_neg Bool.false_ne_true]
      exact h.file.fail hle hopen
  | true =>
      rw [Course.hangs, hopen, if_pos rfl]
      have hne : s.buffered c ≠ [] := by
        rw [← List.length_pos_iff, PhState.length_buffered]
        exact hpos
      have hlast := h.quiet _ (List.getLast_mem hne)
      exact h.file.found hle hopen h.starts (List.dropLast_concat_getLast hne).symm
        (fun r hr => h.quiet r ((List.dropLast_sublist _).mem hr))
        ⟨fun hfalse => absurd hfalse Bool.false_ne_true, fun hmarker => absurd hmarker hlast⟩
        fun hmarker => absurd hmarker hlast

/-- A row of a tag that opens no dump. -/
theorem Marked.store {hanging : Bool} (h : Marked c hanging s) {gid pid : U32} (uval : Double)
    (hle : s.irec.toNat ≤ c.bufNrec.toNat) (htag : ¬ (gid = 0 ∧ pid = 3)) :
    Marked c hanging (s.store c (sampler c) gid pid uval) := by
  have hbuffer := PhState.buffered_store (c := c) (p := sampler c) (s := s) gid pid uval hle
  refine ⟨h.file.store _ gid pid uval, ?_, fun hhanging => ?_⟩
  · intro r hr
    rw [hbuffer, List.mem_append, List.mem_singleton] at hr
    rcases hr with hold | rfl
    · exact h.quiet r hold
    · exact htag
  · obtain ⟨b, hb, hmarker⟩ := h.starts hhanging
    refine ⟨b, ?_, hmarker⟩
    rw [hbuffer, List.head?_append, hb]
    rfl

theorem buffered_markDump (hle : s.irec.toNat ≤ c.bufNrec.toNat) : ∃ a : Row, Marker 3 a ∧
    a.uval = Double.ofU32 (markDump c s).irec ∧ (markDump c s).buffered c = s.buffered c ++ [a] :=
  ⟨_, ⟨rfl, rfl⟩, rfl, PhState.buffered_store 0 3 _ hle⟩

/-- A dump that does not start another one. -/
theorem Marked.dump {hanging : Bool} (h : Marked c hanging s)
    (hlt : s.irec.toNat < c.bufNrec.toNat) :
    Marked c (Course.hangs c.fopen s.nopen true hanging)
      ((markDump c s).closeDump c (sampler c)) := by
  have hirec := markDump_irec hlt.le
  have hle : (markDump c s).irec.toNat ≤ c.bufNrec.toNat := hirec ▸ hlt
  have hmark : OnFile c hanging (markDump c s) := h.file.store _ 0 3 _
  obtain ⟨a, ha, huval, hbuffer⟩ := buffered_markDump hlt.le
  refine OnFile.marked ?_ (sampler c)
  cases hopen : c.fopen s.nopen with
  | false =>
      rw [Course.hangs, hopen, if_neg Bool.false_ne_true]
      exact hmark.fail hle hopen
  | true =>
      rw [Course.hangs, hopen, if_pos rfl]
      refine hmark.found hle hopen (fun hhanging => ?_) hbuffer h.quiet (iff_of_true rfl ha)
        fun _ => huval
      obtain ⟨b, hb, hmarker⟩ := h.starts hhanging
      refine ⟨b, ?_, hmarker⟩
      rw [hbuffer, List.head?_append, hb]
      rfl

/-- A dump inside a dump, when the flush of the inner one does not find the file. -/
theorem Marked.dump_lost {hanging : Bool} (h : Marked c hanging s)
    (hcap : 3 ≤ c.bufNrec.toNat) (hfull : s.irec.toNat + 2 = c.bufNrec.toNat)
    (hmissing : c.fopen s.nopen = false) :
    Marked c (Course.hangs c.fopen (s.nopen + 1) false hanging) (dumpState c s) := by
  have hirec := markDump_irec (c := c) (s := s) (by omega)
  have hirec' := markDump_irec (c := c) (s := markDump c s) (by omega)
  have hmarks : OnFile c hanging (markDump c (markDump c s)) :=
    (h.file.store _ 0 3 _).store _ 0 3 _
  have hinner := (hmarks.fail (by omega) hmissing).marked (sampler c)
  have hone : (1 : ℕ) ≤ c.bufNrec.toNat := Nat.le_trans (by decide) hcap
  have houter := (hinner.flush (Nat.le_refl 1) hone).marked (sampler c)
  have hnopen : ((markDump c (markDump c s)).closeDump c (sampler c)).nopen = s.nopen + 1 :=
    PhState.wtrec_nopen c _ _
  rw [dumpState, if_pos hfull]
  rwa [hnopen] at houter

/-! ## Two markers side by side -/

/-- Two markers (0,3) side by side. -/
def Doubled (rows : List Row) : Prop :=
  ∃ (i : ℕ) (a b : Row), rows[i]? = some a ∧ rows[i + 1]? = some b ∧ Marker 3 a ∧ Marker 3 b

theorem Doubled.mono {rows rows' : List Row} (h : Doubled rows) (hgrow : rows <+: rows') :
    Doubled rows' := by
  obtain ⟨i, a, b, ha, hb, hmarkers⟩ := h
  obtain ⟨rest, rfl⟩ := hgrow
  have hget : ∀ {j : ℕ} {x : Row}, rows[j]? = some x → (rows ++ rest)[j]? = some x :=
    fun hx => by rw [List.getElem?_append_left (List.getElem?_eq_some_iff.mp hx).1, hx]
  exact ⟨i, a, b, hget ha, hget hb, hmarkers⟩

theorem doubled_pair (rows : List Row) {a b : Row} (ha : Marker 3 a) (hb : Marker 3 b) :
    Doubled (rows ++ [a, b]) := by
  refine ⟨rows.length, a, b, ?_, ?_, ha, hb⟩
  · rw [List.getElem?_append_right (Nat.le_refl _), Nat.sub_self]
    rfl
  · rw [List.getElem?_append_right (Nat.le_add_right _ 1), Nat.add_sub_cancel_left]
    rfl

theorem Doubled.not_paired {rows : List Row} (h : Doubled rows) {fl : List ℕ} :
    ¬ MarkersPaired fl rows := by
  obtain ⟨i, a, b, ha, hb, hfirst, -, hpid⟩ := h
  intro hpaired
  refine FollowedBy.not_of_prefix ha hb hfirst ?_ List.prefix_rfl hpaired.pairs
  rintro ⟨-, hclose⟩
  exact absurd (hpid.symm.trans hclose) (by decide)

theorem rows_closeDump (hle : s.irec.toNat ≤ c.bufNrec.toNat) :
    s.rows <+: (s.closeDump c (sampler c)).rows := by
  have hrows := PhState.rows_wtrec (c := c) hle
  exact hrows ▸ List.prefix_append _ _

/-- Calls only append to the file. -/
theorem rows_next (hcap : 3 ≤ c.bufNrec.toNat) (hs : Ready c s) (call : Call) :
    s.rows <+: (next c s call).rows := by
  have hroom := hs.room
  have hone : (1 : ℕ) ≤ c.bufNrec.toNat := Nat.le_trans (by decide) hcap
  have hmark := markDump_irec (c := c) (s := s) (by omega)
  cases call with
  | read gid pid uval =>
      have hirec := PhState.store_irec c (sampler c) gid pid uval hs.le
      simp only [next, readState]
      split
      · have hmark' := markDump_irec (c := c) (s := s.store c (sampler c) gid pid uval) (by omega)
        exact rows_closeDump (s := markDump c (s.store c (sampler c) gid pid uval)) (by omega)
      · exact List.prefix_rfl
  | dump =>
      have hmark' := markDump_irec (c := c) (s := markDump c s) (by omega)
      simp only [next, dumpState]
      split
      · have hinner := rows_closeDump (c := c) (s := markDump c (markDump c s)) (by omega)
        exact hinner.trans
          (rows_closeDump (s := (markDump c (markDump c s)).closeDump c (sampler c)) hone)
      · exact rows_closeDump (s := markDump c s) (by omega)

/-- A dump inside a dump, when the flush of the inner one finds the file. -/
theorem doubled_dumpState (hcap : 3 ≤ c.bufNrec.toNat)
    (hfull : s.irec.toNat + 2 = c.bufNrec.toNat) (hfound : c.fopen s.nopen = true) :
    Doubled (dumpState c s).rows := by
  have hirec := markDump_irec (c := c) (s := s) (by omega)
  have hirec' := markDump_irec (c := c) (s := markDump c s) (by omega)
  have hone : (1 : ℕ) ≤ c.bufNrec.toNat := Nat.le_trans (by decide) hcap
  obtain ⟨a, ha, -, hfirst⟩ := buffered_markDump (c := c) (s := s) (by omega)
  obtain ⟨b, hb, -, hsecond⟩ := buffered_markDump (c := c) (s := markDump c s) (by omega)
  have hnopen : (markDump c (markDump c s)).nopen = s.nopen := rfl
  have hrows := PhState.rows_wtrec (c := c) (s := markDump c (markDump c s)) (by omega)
  have hfile : ((markDump c (markDump c s)).closeDump c (sampler c)).rows =
      (s.rows ++ s.buffered c) ++ [a, b] := by
    rw [hnopen, hfound, if_pos rfl, hsecond, hfirst, List.append_assoc, ← List.append_assoc]
      at hrows
    exact hrows
  have hdoubled := doubled_pair (s.rows ++ s.buffered c) ha hb
  rw [← hfile] at hdoubled
  rw [dumpState, if_pos hfull]
  exact hdoubled.mono
    (rows_closeDump (s := (markDump c (markDump c s)).closeDump c (sampler c)) hone)

/-! ## Runs -/

/-- A call that takes no marker (0,3) of its own. -/
def Unmarked : Call → Prop
  | .read gid pid _ => ¬ (gid = 0 ∧ pid = 3)
  | .dump => True

theorem unmarked_of_userTag {call : Call} (htag : call.UserTag) : Unmarked call := by
  cases call with
  | read gid pid uval => exact fun hmarker => htag hmarker.1
  | dump => trivial

/-- A state and the course of the calls that led to it. -/
structure Tracked (c : Probe) (t : Course) (s : PhState) : Prop where
  related : Related c 2 t.load s
  marked : t.clash = false → Marked c t.hanging s
  doubled : t.clash = true → Doubled s.rows

theorem related_next (hcap : 3 ≤ c.bufNrec.toNat) {l : Load} (h : Related c 2 l s) (call : Call) :
    Related c 2 (l.serial c.bufNrec.toNat call) (next c s call) := by
  have hstep := Accounted.serial_step 0 hcap l s call h
  rw [step_eq 0 hcap (Accounted.ready h)] at hstep
  cases hstep with
  | some hnext => exact hnext

/-- A call that makes no clash. -/
theorem Tracked.marked_next (hcap : 3 ≤ c.bufNrec.toNat) {t : Course} (h : Tracked c t s)
    {call : Call} (htag : Unmarked call)
    (hclash : (t.next c.bufNrec.toNat c.fopen call).clash = false) :
    Marked c (t.next c.bufNrec.toNat c.fopen call).hanging (next c s call) := by
  have hready := Accounted.ready h.related
  have hlevel := h.related.accounted.level
  have hnopen := h.related.accounted.flushes
  have hroom := hready.room
  cases call with
  | read gid pid uval =>
      have hirec := PhState.store_irec c (sampler c) gid pid uval hready.le
      have hstore := (h.marked hclash).store uval hready.le htag
      simp only [Course.next, Serial.next, readState, ← hlevel]
      split
      · rw [← hnopen]
        exact hstore.dump (by omega)
      · exact hstore
  | dump =>
      simp only [Course.next, Bool.or_eq_false_iff, Bool.and_eq_false_iff,
        decide_eq_false_iff_not, ← hlevel, ← hnopen] at hclash
      obtain ⟨hclear, hcase⟩ := hclash
      have hmarked := h.marked hclear
      simp only [Course.next, Serial.next, ← hlevel, ← hnopen]
      by_cases hfull : s.irec.toNat + 2 = c.bufNrec.toNat
      · have hmissing := hcase.resolve_left (not_not_intro hfull)
        have hlost := hmarked.dump_lost hcap hfull hmissing
        rw [if_pos hfull]
        simp only [Course.hangs, hmissing, Bool.false_eq_true, if_false] at hlost ⊢
        exact hlost
      · have hdump := hmarked.dump hready.lt
        rw [if_neg hfull, dumpState, if_neg hfull]
        exact hdump

/-- A call after a clash, or one that makes it. -/
theorem Tracked.doubled_next (hcap : 3 ≤ c.bufNrec.toNat) {t : Course} (h : Tracked c t s)
    {call : Call} (hclash : (t.next c.bufNrec.toNat c.fopen call).clash = true) :
    Doubled (next c s call).rows := by
  have hmore := rows_next hcap (Accounted.ready h.related) call
  cases call with
  | read gid pid uval => exact (h.doubled hclash).mono hmore
  | dump =>
      simp only [Course.next, Bool.or_eq_true, Bool.and_eq_true, decide_eq_true_eq,
        ← h.related.accounted.level, ← h.related.accounted.flushes] at hclash
      rcases hclash with hbefore | ⟨hfull, hfound⟩
      · exact (h.doubled hbefore).mono hmore
      · exact doubled_dumpState hcap hfull hfound

/-- The step lemma. -/
theorem Tracked.next (hcap : 3 ≤ c.bufNrec.toNat) {t : Course} (h : Tracked c t s) {call : Call}
    (htag : Unmarked call) : Tracked c (t.next c.bufNrec.toNat c.fopen call) (next c s call) :=
  ⟨related_next hcap h.related call, h.marked_next hcap htag, h.doubled_next hcap⟩

/-- Commit leaves its own marker (0,1) and no other one. -/
theorem tracked_committed (hcap : 3 ≤ c.bufNrec.toNat) (precs : ℕ → Rec) :
    Tracked c Course.committed (committed c precs) := by
  have hfile : OnFile c false (init precs) :=
    { opens := rfl
      sum := rfl
      pairs := FollowedBy.nil
      last := by simp [init]
      closes := AtEach.nil }
  have hinit : Marked c false (init precs) :=
    { file := hfile
      quiet := fun r hr => by cases hr
      starts := fun hfalse => by cases hfalse }
  refine ⟨Accounted.serial_committed hcap precs, fun _ => ?_, fun hfalse => by cases hfalse⟩
  exact hinit.store Double.zero (Nat.zero_le _) (by decide)

/-- The run lemma. -/
theorem tracked_run (hcap : 3 ≤ c.bufNrec.toNat) {calls : List Call} :
    ∀ {t : Course} {s : PhState}, Tracked c t s → (∀ call ∈ calls, call.UserTag) →
      Tracked c (calls.foldl (Course.next c.bufNrec.toNat c.fopen) t)
        (calls.foldl (next c) s) := by
  induction calls with
  | nil => intro t s h _; exact h
  | cons call calls ih =>
      intro t s h htags
      exact ih (h.next hcap (unmarked_of_userTag (htags call List.mem_cons_self)))
        fun call' hcall' => htags call' (List.mem_cons_of_mem _ hcall')

/-- The flush of the finalize. -/
theorem Tracked.paired_iff {t : Course} (h : Tracked c t s) :
    MarkersPaired ((s.wtrec c s.irec).2.flushes c) (s.wtrec c s.irec).2.rows ↔
      t.Clear c.fopen := by
  have hready := Accounted.ready h.related
  have hmore : s.rows <+: (s.wtrec c s.irec).2.rows :=
    PhState.rows_wtrec hready.le ▸ List.prefix_append _ _
  cases hclash : t.clash with
  | true =>
      apply iff_of_false ((h.doubled hclash).mono hmore).not_paired
      rintro ⟨hclear, -⟩
      exact absurd (hclash.symm.trans hclear) (by decide)
  | false =>
      have hfile := (h.marked hclash).flush hready.pos hready.le
      rw [h.related.accounted.flushes] at hfile
      rw [Course.Clear, and_iff_right hclash]
      constructor
      · intro hpaired
        by_contra hhangs
        obtain ⟨a, ha, hmarker⟩ := hfile.last.mp (Bool.not_eq_false _ ▸ hhangs)
        exact FollowedBy.not_of_last ha hmarker hpaired.pairs
      · intro hhangs
        refine ⟨hfile.pairs.of_last fun a ha hmarker => ?_, hfile.closes⟩
        have hhanging := hfile.last.mpr ⟨a, ha, hmarker⟩
        exact absurd (hhangs.symm.trans hhanging) (by decide)

/-- **The markers of dumps.** A whole run, from the commit to the finalize, whose opens of the
record file may succeed or fail: every marker (0,3) of the file has its marker (0,4) and the
number of its flush exactly when the course of the run is clear. -/
theorem markers_paired_iff (c : Probe) (hcap : 3 ≤ c.bufNrec.toNat) (precs : ℕ → Rec)
    (calls : List Call) (htags : ∀ call ∈ calls, call.UserTag) :
    ∃ start last final : PhState,
      (∀ depth, 2 ≤ depth → phCommit c depth (init precs) = some start ∧
        Runs.run (step c depth) start calls = some last ∧
        phFinalize c depth last = some final) ∧
      (MarkersPaired (final.flushes c) final.rows ↔ (course c calls).Clear c.fopen) := by
  obtain ⟨-, hlast, -⟩ := run_calls 0 hcap precs calls
  have htracked := tracked_run hcap (tracked_committed hcap precs) htags
  have htag : Unmarked (.read 0 2 Double.zero) := by
    rintro ⟨-, hpid⟩
    exact absurd hpid (by decide)
  have hread := htracked.next hcap htag
  let closing := next c (calls.foldl (next c) (committed c precs)) (.read 0 2 Double.zero)
  refine ⟨committed c precs, calls.foldl (next c) (committed c precs),
    (closing.wtrec c closing.irec).2, ?_, ?_⟩
  · intro depth hdepth
    obtain ⟨extra, rfl⟩ := Nat.exists_eq_add_of_le' hdepth
    exact ⟨phCommit_eq _ hcap precs, (run_calls extra hcap precs calls).1,
      Accounted.serial_finalize (step_eq extra hcap hlast (.read 0 2 Double.zero))⟩
  · rw [hread.paired_iff, course, toFinalize, List.foldl_append]
    rfl

/-- Without a call of `ph_dump` the markers are paired, also in the smallest buffer. -/
theorem markers_paired_iff_smallest :
    ∃ start last final : PhState,
      (∀ depth, 2 ≤ depth →
        phCommit Probe.smallest depth (init fun _ => Rec.cleared) = some start ∧
        Runs.run (step Probe.smallest depth) start [.read 1 1 Double.zero, .read 1 2 Double.zero] =
          some last ∧
        phFinalize Probe.smallest depth last = some final) ∧
      MarkersPaired (final.flushes Probe.smallest) final.rows := by
  have htags : ∀ call ∈ [Call.read 1 1 Double.zero, .read 1 2 Double.zero], call.UserTag := by
    intro call hcall
    simp only [List.mem_cons, List.not_mem_nil, or_false] at hcall
    rcases hcall with rfl | rfl
    · exact (by decide : (1 : U32) ≠ 0)
    · exact (by decide : (1 : U32) ≠ 0)
  obtain ⟨start, last, final, hfinal, hpaired⟩ :=
    markers_paired_iff Probe.smallest (by decide) (fun _ => Rec.cleared) _ htags
  have hclear : (course Probe.smallest [.read 1 1 Double.zero, .read 1 2 Double.zero]).Clear
      Probe.smallest.fopen := ⟨rfl, by decide⟩
  exact ⟨start, last, final, hfinal, hpaired.mpr hclear⟩

/-- A dump right behind the commit, with a buffer of three records: it writes the marker with
the number 2, and behind it the marker of the dump inside it. -/
theorem dump_in_dump :
    ∃ start last final : PhState,
      phCommit Probe.smallest 2 (init fun _ => Rec.cleared) = some start ∧
      Runs.run (step Probe.smallest 2) start [.dump] = some last ∧
      phFinalize Probe.smallest 2 last = some final ∧
      (final.rows.map fun r => (r.gid, r.pid)) =
        [(0, 1), (0, 3), (0, 3), (0, 4), (0, 4), (0, 2), (0, 3), (0, 4)] ∧
      final.flushes Probe.smallest = [3, 1, 3, 1] ∧
      ¬ MarkersPaired (final.flushes Probe.smallest) final.rows := by
  refine ⟨_, _, _, rfl, rfl, rfl, by decide, by decide, ?_⟩
  refine Doubled.not_paired ⟨1, _, _, rfl, rfl, ?_, ?_⟩
  · exact ⟨rfl, rfl⟩
  · exact ⟨rfl, rfl⟩

/-! ## Runs that find the record file -/

/-- With `l` records in the buffer, no `ph_dump` is called when two slots are left. -/
def Apart (nrec : ℕ) : ℕ → List Call → Prop
  | _, [] => True
  | l, call :: calls => (call = .dump → l + 2 ≠ nrec) ∧ Apart nrec (level nrec l call) calls

instance : (nrec l : ℕ) → (calls : List Call) → Decidable (Apart nrec l calls)
  | _, _, [] => .isTrue trivial
  | nrec, l, call :: calls =>
      have := instDecidableApart nrec (level nrec l call) calls
      inferInstanceAs (Decidable (_ ∧ _))

namespace Course

variable {t : Course}

theorem level_next (nrec : ℕ) (fopen : ℕ → Bool) (call : Call) :
    (t.next nrec fopen call).load.level = Serial.level nrec t.load.level call := by
  cases call <;> simp only [next, Load.serial, level] <;> split <;> rfl

/-- A clash stays in the file. -/
theorem clash_foldl (nrec : ℕ) (fopen : ℕ → Bool) (calls : List Call) (ht : t.clash = true) :
    (calls.foldl (next nrec fopen) t).clash = true := by
  induction calls generalizing t with
  | nil => exact ht
  | cons call calls ih =>
      apply ih
      cases call with
      | read gid pid uval => exact ht
      | dump => simp only [next, ht, Bool.true_or]

theorem clash_foldl_iff (nrec : ℕ) {fopen : ℕ → Bool} (hopen : ∀ i, fopen i = true)
    (calls : List Call) (ht : t.clash = false) :
    (calls.foldl (next nrec fopen) t).clash = false ↔ Apart nrec t.load.level calls := by
  induction calls generalizing t with
  | nil => exact iff_of_true ht trivial
  | cons call calls ih =>
      by_cases hfine : call = .dump → t.load.level + 2 ≠ nrec
      · have hnext : (t.next nrec fopen call).clash = false := by
          cases call with
          | read gid pid uval => exact ht
          | dump => simp [next, ht, hfine rfl]
        rw [List.foldl_cons, ih hnext, level_next, Apart, and_iff_right hfine]
      · rw [Classical.not_imp, not_not] at hfine
        obtain ⟨rfl, hfull⟩ := hfine
        have hnext : (t.next nrec fopen .dump).clash = true := by
          simp [next, hfull, hopen]
        refine iff_of_false (fun hfalse => ?_) fun h => h.1 rfl hfull
        exact absurd ((clash_foldl nrec fopen calls hnext).symm.trans hfalse) (by decide)

end Course

/-- When all opens succeed, only the level at the dumps counts. -/
theorem clear_course_iff (hopen : ∀ i, c.fopen i = true) (calls : List Call) :
    (course c calls).Clear c.fopen ↔ Apart c.bufNrec.toNat 1 (toFinalize calls) := by
  have hclear : (course c calls).Clear c.fopen ↔ (course c calls).clash = false := by
    simp [Course.Clear, Course.hangs, hopen]
  exact hclear.trans (Course.clash_foldl_iff _ hopen (toFinalize calls) rfl)

end Serial

end PerfHound
