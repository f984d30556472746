/-
# From the tags of a program to the pairs of its summary

`summarize_run.py` is not told which tags bracket an interval. It reads the tags back from
`ctag.csv`, where the last text of a tag counts, takes those whose text has `Start` or `End` in
it, and pairs in each group the k-th smallest start tag with the k-th smallest end tag.

These are the intervals that a program has named, in whatever order and however often it has set
their tags, exactly if of two intervals of a group the one with the smaller start tag has the
smaller end tag (`default_pairs_of_job`). A program that numbers its tags as they nest, start,
inner start, inner end, end, gets two intervals that cross.
-/

import Mathlib.Data.List.Dedup
import Mathlib.Data.List.Infix
import PerfHound.Lib.Dict
import PerfHound.Probe.JobFiles
import PerfHound.Utils.Summary

namespace PerfHound

open Lib Lib.CText Lib.OrderStat CsvFiles

namespace TagPairs

/-! ## `load_ctag` -/

/-- `int` of a text. -/
def pyInt (s : Csv.Field) : Option ℤ :=
  match scanNumeral s with
  | some (negative, n, rest) =>
      if rest.all isspace then some (if negative then -(n : ℤ) else n) else none
  | none => none

def fieldSizeLimit : ℕ := 131072

/-- `csv.reader`, on a text without quotes and carriage returns. An empty line has no fields. -/
def csvReader (text : List Char) : Option (List (List Csv.Field)) :=
  (Csv.read text).mapM fun row =>
    if row = [[]] then some []
    else if row.all fun f => f.length ≤ fieldSizeLimit then some row
    else none

/-- `csv.DictReader`: the rows that are not empty, under the names in the first row. -/
def dictReader (text : List Char) : Option (List Csv.Record) :=
  (csvReader text).map fun rows =>
    match rows with
    | [] => []
    | header :: rows => (rows.filter (· ≠ [])).map fun row => header.zip row

/-- The loop body of `load_ctag`. -/
def loadRow (tags : Dict (ℤ × ℤ) Csv.Field) (row : Csv.Record) :
    Option (Dict (ℤ × ℤ) Csv.Field) := do
  let gid ← pyInt (← row.lookup "gid".toList)
  let pid ← pyInt (← row.lookup "pid".toList)
  return tags.set (gid, pid) (← row.lookup "description".toList)

def loadCtag (text : List Char) : Option (Dict (ℤ × ℤ) Csv.Field) := do
  (← dictReader text).foldlM loadRow Dict.empty

/-- A text that the readers take for one field as it is. -/
def Legible (s : List Char) : Prop := Csv.Plain s ∧ '\r' ∉ s ∧ s.length ≤ fieldSizeLimit

instance (s : List Char) : Decidable (Legible s) := inferInstanceAs (Decidable (_ ∧ _ ∧ _))

theorem pyInt_decimal (n : ℕ) : pyInt (decimal n) = some (n : ℤ) := by
  rw [pyInt, scanNumeral_decimal_self]
  rfl

def item (r : CtagRow) : (ℤ × ℤ) × Csv.Field := ((r.gid.toNat, r.pid.toNat), cstr r.tagstr)

def columns : List Csv.Field := ["gid".toList, "pid".toList, "description".toList]

def fields (r : CtagRow) : List Csv.Field :=
  [decimal r.gid.toNat, decimal r.pid.toNat, cstr r.tagstr]

theorem loadRow_ctag (tags : Dict (ℤ × ℤ) Csv.Field) (r : CtagRow) :
    loadRow tags (columns.zip (fields r)) = some (tags.set (item r).1 (item r).2) := by
  have hgid : (columns.zip (fields r)).lookup "gid".toList = some (decimal r.gid.toNat) := rfl
  have hpid : (columns.zip (fields r)).lookup "pid".toList = some (decimal r.pid.toNat) := rfl
  have htag : (columns.zip (fields r)).lookup "description".toList = some (cstr r.tagstr) := rfl
  simp only [loadRow, hgid, hpid, htag, Option.bind_eq_bind, Option.bind_some, pyInt_decimal]
  rfl

theorem legible_decimal (v : U32) : Legible (decimal v.toNat) := by
  have hlength : (decimal v.toNat).length ≤ 10 :=
    (Nat.length_toDigits_le_iff (by decide) (by decide)).mpr (v.isLt.trans (by decide))
  refine ⟨plain_decimal _, fun hmem => ?_, hlength.trans (by decide)⟩
  exact absurd (isdigit_of_mem_decimal hmem) (by decide)

theorem legible_cstr {s : String} (h : Legible s.toList) : Legible (cstr s) := by
  have hsub : (cstr s).Sublist s.toList := List.takeWhile_sublist _
  exact ⟨plain_cstr h.1, fun hmem => h.2.1 (hsub.mem hmem), hsub.length_le.trans h.2.2⟩

theorem legible_fields {r : CtagRow} (h : Legible r.tagstr.toList) :
    ∀ f ∈ fields r, Legible f := by
  intro f hf
  simp only [fields, List.mem_cons, List.not_mem_nil, or_false] at hf
  rcases hf with rfl | rfl | rfl
  · exact legible_decimal r.gid
  · exact legible_decimal r.pid
  · exact legible_cstr h

theorem ctagText_eq (rows : List CtagRow) :
    ctagHeader ++ rows.flatMap wtctag = (columns :: rows.map fields).flatMap Csv.line := by
  have hheader : ctagHeader = Csv.line columns := by decide
  have hrow : wtctag = fun r => Csv.line (fields r) := by
    funext r
    simp [wtctag, fields, line_cons]
  rw [hheader, hrow, List.flatMap_cons, List.flatMap_map]

theorem csvReader_flatMap_line {table : List (List Csv.Field)}
    (h : ∀ row ∈ table, row ≠ [] ∧ row ≠ [[]] ∧ ∀ f ∈ row, Legible f) :
    csvReader (table.flatMap Csv.line) = some table := by
  have hread : Csv.read (table.flatMap Csv.line) = table :=
    Csv.read_flatMap_line fun row hrow => ⟨(h row hrow).1, fun f hf => ((h row hrow).2.2 f hf).1⟩
  rw [csvReader, hread]
  clear hread
  induction table with
  | nil => rfl
  | cons row table ih =>
      obtain ⟨-, hne, hlegible⟩ := h row List.mem_cons_self
      have hall : (row.all fun f => f.length ≤ fieldSizeLimit) = true :=
        List.all_eq_true.mpr fun f hf => decide_eq_true (hlegible f hf).2.2
      rw [List.mapM_cons, if_neg hne, if_pos hall,
        ih fun row' hrow' => h row' (List.mem_cons_of_mem row hrow')]
      rfl

theorem foldlM_loadRow (rows : List CtagRow) (tags : Dict (ℤ × ℤ) Csv.Field) :
    (rows.map fun r => columns.zip (fields r)).foldlM loadRow tags =
      some ((rows.map item).foldl (fun d row => d.set row.1 row.2) tags) := by
  induction rows generalizing tags with
  | nil => rfl
  | cons r rows ih =>
      rw [List.map_cons, List.foldlM_cons, loadRow_ctag, Option.bind_eq_bind, Option.bind_some, ih,
        List.map_cons, List.foldl_cons]

/-- **What is read back.** The last text of each tag. -/
theorem loadCtag_ctagText {rows : List CtagRow} (h : ∀ r ∈ rows, Legible r.tagstr.toList) :
    loadCtag (ctagHeader ++ rows.flatMap wtctag) = some (Dict.ofRows (rows.map item)) := by
  have hcolumns : ∀ f ∈ columns, Legible f := by
    simp only [columns, Legible, List.forall_mem_cons, fieldSizeLimit]
    decide
  have hreader : csvReader (ctagHeader ++ rows.flatMap wtctag) =
      some (columns :: rows.map fields) := by
    rw [ctagText_eq]
    apply csvReader_flatMap_line
    refine List.forall_mem_cons.mpr ⟨⟨nofun, by decide, hcolumns⟩, ?_⟩
    intro row hrow
    obtain ⟨r, hr, rfl⟩ := List.mem_map.mp hrow
    have htwo : fields r ≠ [[]] := fun heq => nomatch congrArg List.length heq
    exact ⟨List.cons_ne_nil _ _, htwo, legible_fields (h r hr)⟩
  have hfilter : (rows.map fields).filter (· ≠ []) = rows.map fields := by
    rw [List.filter_eq_self]
    intro row hrow
    obtain ⟨r, -, rfl⟩ := List.mem_map.mp hrow
    rfl
  have hdict : dictReader (ctagHeader ++ rows.flatMap wtctag) =
      some (rows.map fun r => columns.zip (fields r)) := by
    rw [dictReader, hreader, Option.map_some]
    exact congrArg some ((congrArg (List.map fun row => columns.zip row) hfilter).trans
      List.map_map)
  rw [loadCtag, hdict]
  exact foldlM_loadRow rows Dict.empty

/-! ## `default_pairs` -/

def hasWord (word : String) (text : Csv.Field) : Bool := decide (word.toList <:+: text)

def describe (tags : Dict (ℤ × ℤ) Csv.Field) (gid pid : ℤ) : Csv.Field :=
  (tags.get? (gid, pid)).getD []

/-- The tags that go to `by_gid`. -/
def marked (tags : Dict (ℤ × ℤ) Csv.Field) : List (ℤ × ℤ) :=
  (tags.items.filter fun tag =>
    tag.1.1 != 0 && (hasWord "Start" tag.2 || hasWord "End" tag.2)).map Prod.fst

/-- `starts` and `ends` for the sorted `set(pids)`. -/
def withWord (tags : Dict (ℤ × ℤ) Csv.Field) (word : String) (gid : ℤ) (pids : List ℤ) : List ℤ :=
  (sorted pids.dedup).filter fun p => hasWord word (describe tags gid p)

/-- `pairs`, before the default. -/
def pairsOf (tags : Dict (ℤ × ℤ) Csv.Field) : List (ℤ × ℤ × ℤ) :=
  (Dict.groups (marked tags)).items.flatMap fun (gid, pids) =>
    ((withWord tags "Start" gid pids).zip (withWord tags "End" gid pids)).map (Prod.mk gid)

def defaultPairs (tags : Dict (ℤ × ℤ) Csv.Field) : List (ℤ × ℤ × ℤ) :=
  if pairsOf tags = [] then [(1, 1, 2)] else pairsOf tags

variable {tags : Dict (ℤ × ℤ) Csv.Field}

/-- A tag of the group has a text with the word. -/
def Says (tags : Dict (ℤ × ℤ) Csv.Field) (word : String) (gid pid : ℤ) : Prop :=
  ∃ text, tags.get? (gid, pid) = some text ∧ hasWord word text = true

theorem mem_marked {gid pid : ℤ} :
    (gid, pid) ∈ marked tags ↔
      gid ≠ 0 ∧ (Says tags "Start" gid pid ∨ Says tags "End" gid pid) := by
  simp only [marked, List.mem_map, List.mem_filter, Prod.exists, exists_and_right, exists_eq_right,
    ← Dict.get?_eq_some_iff, Bool.and_eq_true, bne_iff_ne, Bool.or_eq_true, Says]
  refine ⟨?_, ?_⟩
  · rintro ⟨text, htext, hgid, hword | hword⟩
    · exact ⟨hgid, Or.inl ⟨text, htext, hword⟩⟩
    · exact ⟨hgid, Or.inr ⟨text, htext, hword⟩⟩
  · rintro ⟨hgid, ⟨text, htext, hword⟩ | ⟨text, htext, hword⟩⟩
    · exact ⟨text, htext, hgid, Or.inl hword⟩
    · exact ⟨text, htext, hgid, Or.inr hword⟩

theorem hasWord_describe {word word' : String} {gid pid : ℤ} (h : Says tags word' gid pid) :
    hasWord word (describe tags gid pid) = true ↔ Says tags word gid pid := by
  obtain ⟨text, htext, -⟩ := h
  rw [describe, Says, htext, Option.getD_some]
  simp

/-- The start or the end tags of a group, in order. -/
def ends (tags : Dict (ℤ × ℤ) Csv.Field) (word : String) (gid : ℤ) : List ℤ :=
  withWord tags word gid (Dict.valuesOf (marked tags) gid)

theorem pairwise_withWord (tags : Dict (ℤ × ℤ) Csv.Field) (word : String) (gid : ℤ)
    (pids : List ℤ) : (withWord tags word gid pids).Pairwise (· < ·) :=
  (pairwise_lt_sorted (List.nodup_dedup pids)).filter _

theorem mem_ends {word : String} (hword : word = "Start" ∨ word = "End") {gid pid : ℤ} :
    pid ∈ ends tags word gid ↔ gid ≠ 0 ∧ Says tags word gid pid := by
  rw [ends, withWord, List.mem_filter, mem_sorted, List.mem_dedup, Dict.mem_valuesOf, mem_marked]
  refine ⟨?_, ?_⟩
  · rintro ⟨⟨hgid, hsays | hsays⟩, h⟩
    · exact ⟨hgid, (hasWord_describe hsays).mp h⟩
    · exact ⟨hgid, (hasWord_describe hsays).mp h⟩
  · rintro ⟨hgid, hsays⟩
    refine ⟨⟨hgid, ?_⟩, (hasWord_describe hsays).mpr hsays⟩
    rcases hword with rfl | rfl
    · exact Or.inl hsays
    · exact Or.inr hsays

theorem ends_eq {word : String} (hword : word = "Start" ∨ word = "End") {gid : ℤ}
    (hgid : gid ≠ 0) {l : List ℤ} (hl : l.Nodup) (hmem : ∀ pid, Says tags word gid pid ↔ pid ∈ l) :
    ends tags word gid = sorted l := by
  have hstrict : (ends tags word gid).Pairwise (· < ·) := pairwise_withWord tags word gid _
  have hsorted : sorted (ends tags word gid) = ends tags word gid :=
    sorted_eq_of_perm (.refl _) (hstrict.imp le_of_lt)
  rw [← hsorted]
  apply sorted_congr (hstrict.imp ne_of_lt) hl
  intro pid
  rw [mem_ends hword, ← hmem pid]
  exact and_iff_right hgid

theorem mem_pairsOf {p : ℤ × ℤ × ℤ} :
    p ∈ pairsOf tags ↔ p.2 ∈ (ends tags "Start" p.1).zip (ends tags "End" p.1) := by
  obtain ⟨gid, spid, epid⟩ := p
  simp only [pairsOf, List.mem_flatMap, List.mem_map, Prod.exists, Dict.mem_items_groups,
    Prod.mk.injEq]
  refine ⟨?_, fun hmem => ?_⟩
  · rintro ⟨g, pids, ⟨rfl, -⟩, s, e, hmem, rfl, rfl, rfl⟩
    exact hmem
  · refine ⟨gid, _, ⟨rfl, fun hnil => ?_⟩, spid, epid, hmem, rfl, rfl, rfl⟩
    rw [ends, withWord, hnil] at hmem
    cases hmem

theorem nodup_pairsOf (tags : Dict (ℤ × ℤ) Csv.Field) : (pairsOf tags).Nodup := by
  rw [pairsOf, List.nodup_flatMap]
  refine ⟨?_, ?_⟩
  · rintro ⟨gid, pids⟩ -
    have hzip := nodup_zip (pairwise_withWord tags "Start" gid pids)
      (pairwise_withWord tags "End" gid pids)
    exact hzip.map (Prod.mk_right_injective gid)
  · have hkeys := List.pairwise_map.mp (Dict.groups (marked tags)).nodup
    apply hkeys.imp
    rintro ⟨gid, pids⟩ ⟨gid', pids'⟩ hne p hp hp'
    obtain ⟨_, -, rfl⟩ := List.mem_map.mp hp
    obtain ⟨_, -, heq⟩ := List.mem_map.mp hp'
    exact hne (Prod.mk.inj heq).1.symm

/-! ## The intervals that are meant -/

/-- The tags name these intervals: each has a start tag and an end tag of its own, and no other
tag of a user's group says `Start` or `End`. -/
structure Names (tags : Dict (ℤ × ℤ) Csv.Field) (l : List (ℤ × ℤ × ℤ)) : Prop where
  gid_ne : ∀ p ∈ l, p.1 ≠ 0
  start : ∀ gid pid, gid ≠ 0 → (Says tags "Start" gid pid ↔ ∃ epid, (gid, pid, epid) ∈ l)
  stop : ∀ gid pid, gid ≠ 0 → (Says tags "End" gid pid ↔ ∃ spid, (gid, spid, pid) ∈ l)
  start_own : ∀ p ∈ l, ∀ q ∈ l, p.1 = q.1 → p.2.1 = q.2.1 → p = q
  stop_own : ∀ p ∈ l, ∀ q ∈ l, p.1 = q.1 → p.2.2 = q.2.2 → p = q
  nodup : l.Nodup

/-- In a group the end tags are in the order of the start tags. -/
def InOrder (l : List (ℤ × ℤ × ℤ)) : Prop :=
  ∀ p ∈ l, ∀ q ∈ l, p.1 = q.1 → p.2.1 < q.2.1 → p.2.2 < q.2.2

variable {l : List (ℤ × ℤ × ℤ)}

theorem Names.nodup_sides (h : Names tags l) (gid : ℤ) :
    ((Dict.valuesOf l gid).map Prod.fst).Nodup ∧ ((Dict.valuesOf l gid).map Prod.snd).Nodup := by
  have hgroup : (l.filter fun p => p.1 = gid).Nodup := h.nodup.filter _
  have hmem : ∀ p ∈ l.filter fun p => p.1 = gid, p ∈ l ∧ p.1 = gid := by
    intro p hp
    simpa using hp
  rw [Dict.valuesOf, List.map_map, List.map_map]
  refine ⟨hgroup.map_on fun p hp q hq heq => ?_, hgroup.map_on fun p hp q hq heq => ?_⟩
  · exact h.start_own p (hmem p hp).1 q (hmem q hq).1 ((hmem p hp).2.trans (hmem q hq).2.symm) heq
  · exact h.stop_own p (hmem p hp).1 q (hmem q hq).1 ((hmem p hp).2.trans (hmem q hq).2.symm) heq

/-- In one group, pairing by rank finds the intervals if they are in order. -/
theorem Names.zip_perm_iff (h : Names tags l) (gid : ℤ) :
    ((ends tags "Start" gid).zip (ends tags "End" gid)).Perm (Dict.valuesOf l gid) ↔
      ∀ p ∈ Dict.valuesOf l gid, ∀ q ∈ Dict.valuesOf l gid, p.1 < q.1 → p.2 < q.2 := by
  obtain ⟨hstarts, hstops⟩ := h.nodup_sides gid
  by_cases hgid : gid = 0
  · -- the probe's own tags are passed over
    have hvalues : Dict.valuesOf l gid = [] := by
      rw [List.eq_nil_iff_forall_not_mem]
      intro p hp
      exact h.gid_ne _ (Dict.mem_valuesOf.mp hp) hgid
    have hends : ends tags "Start" gid = [] := by
      rw [List.eq_nil_iff_forall_not_mem]
      intro pid hpid
      exact ((mem_ends (Or.inl rfl)).mp hpid).1 hgid
    rw [hvalues, hends, List.zip_nil_left]
    exact iff_of_true (.refl _) nofun
  · rw [ends_eq (Or.inl rfl) hgid hstarts, ends_eq (Or.inr rfl) hgid hstops,
      zip_sorted_perm_iff hstarts hstops]
    · intro pid
      simp [h.stop gid pid hgid, Dict.mem_valuesOf]
    · intro pid
      simp [h.start gid pid hgid, Dict.mem_valuesOf]

/-- **The pairs** are the intervals that are meant, if and only if these are in order. -/
theorem Names.pairsOf_perm_iff (h : Names tags l) : (pairsOf tags).Perm l ↔ InOrder l := by
  have hgroups : (pairsOf tags).Perm l ↔
      ∀ gid, ((ends tags "Start" gid).zip (ends tags "End" gid)).Perm (Dict.valuesOf l gid) := by
    have hzip : ∀ gid, ((ends tags "Start" gid).zip (ends tags "End" gid)).Nodup := fun gid =>
      nodup_zip (pairwise_withWord tags "Start" gid _) (pairwise_withWord tags "End" gid _)
    have hvalues : ∀ gid, (Dict.valuesOf l gid).Nodup := fun gid =>
      (h.nodup_sides gid).1.of_map
    rw [List.perm_ext_iff_of_nodup (nodup_pairsOf tags) h.nodup]
    simp only [List.perm_ext_iff_of_nodup (hzip _) (hvalues _), Dict.mem_valuesOf, mem_pairsOf,
      Prod.forall]
  rw [hgroups]
  refine ⟨fun hperm p hp q hq hgid => ?_, fun horder gid => ?_⟩
  · have hq' : (p.1, q.2) ∈ l := by rwa [hgid]
    exact (h.zip_perm_iff p.1).mp (hperm p.1) p.2 (Dict.mem_valuesOf.mpr hp) q.2
      (Dict.mem_valuesOf.mpr hq')
  · exact (h.zip_perm_iff gid).mpr fun p hp q hq =>
      horder (gid, p) (Dict.mem_valuesOf.mp hp) (gid, q) (Dict.mem_valuesOf.mp hq) rfl

/-- Where an interval is named, there is a pair. -/
theorem Names.pairsOf_ne_nil (h : Names tags l) (hl : l ≠ []) : pairsOf tags ≠ [] := by
  obtain ⟨⟨gid, spid, epid⟩, hmem⟩ := List.exists_mem_of_ne_nil l hl
  have hgid : gid ≠ 0 := h.gid_ne _ hmem
  have hstart : spid ∈ ends tags "Start" gid :=
    (mem_ends (Or.inl rfl)).mpr ⟨hgid, (h.start gid spid hgid).mpr ⟨epid, hmem⟩⟩
  have hstop : epid ∈ ends tags "End" gid :=
    (mem_ends (Or.inr rfl)).mpr ⟨hgid, (h.stop gid epid hgid).mpr ⟨spid, hmem⟩⟩
  obtain ⟨s, ss, hs⟩ := List.exists_cons_of_ne_nil (List.ne_nil_of_mem hstart)
  obtain ⟨e, es, he⟩ := List.exists_cons_of_ne_nil (List.ne_nil_of_mem hstop)
  have hpair : (gid, s, e) ∈ pairsOf tags := by
    rw [mem_pairsOf, hs, he]
    exact List.mem_cons_self
  exact List.ne_nil_of_mem hpair

theorem Names.defaultPairs_perm_iff (h : Names tags l) (hl : l ≠ []) :
    (defaultPairs tags).Perm l ↔ InOrder l := by
  rw [defaultPairs, if_neg (h.pairsOf_ne_nil hl), h.pairsOf_perm_iff]

/-! ## The tags of a job -/

/-- The text that was set last for a tag. -/
def lastText (rows : List CtagRow) (gid pid : U32) : Option Csv.Field :=
  (rows.reverse.find? fun r => r.gid = gid ∧ r.pid = pid).map fun r => cstr r.tagstr

/-- The last text of a tag has the word in it. -/
def Marked (word : String) (rows : List CtagRow) (gid pid : U32) : Prop :=
  ∃ text, lastText rows gid pid = some text ∧ hasWord word text = true

instance (word : String) (rows : List CtagRow) (gid pid : U32) :
    Decidable (Marked word rows gid pid) :=
  decidable_of_iff ((lastText rows gid pid).any (hasWord word) = true)
    (by rw [Option.any_eq_true]; rfl)

/-- The tags name these intervals, as in `Names`. -/
structure Declares (rows : List CtagRow) (intervals : List Serial.Tags) : Prop where
  user : ∀ t ∈ intervals, t.gid ≠ 0
  start : ∀ gid pid, gid ≠ 0 →
    (Marked "Start" rows gid pid ↔ ∃ t ∈ intervals, t.gid = gid ∧ t.spid = pid)
  stop : ∀ gid pid, gid ≠ 0 →
    (Marked "End" rows gid pid ↔ ∃ t ∈ intervals, t.gid = gid ∧ t.epid = pid)
  start_own : ∀ t ∈ intervals, ∀ u ∈ intervals, t.gid = u.gid → t.spid = u.spid → t = u
  stop_own : ∀ t ∈ intervals, ∀ u ∈ intervals, t.gid = u.gid → t.epid = u.epid → t = u
  nodup : intervals.Nodup

/-- The tags of an interval as the script has them. -/
def triple (t : Serial.Tags) : ℤ × ℤ × ℤ := (t.gid.toNat, t.spid.toNat, t.epid.toNat)

theorem toNat_inj_int {v w : U32} : (v.toNat : ℤ) = w.toNat ↔ v = w := by
  rw [Int.natCast_inj, BitVec.toNat_inj]

theorem toNat_ne_zero {v : U32} : (v.toNat : ℤ) ≠ 0 ↔ v ≠ 0 :=
  (toNat_inj_int (w := 0)).not

theorem triple_injective : Function.Injective triple := by
  rintro ⟨gid, spid, epid⟩ ⟨gid', spid', epid'⟩ h
  simpa only [triple, Prod.mk.injEq, toNat_inj_int, Serial.Tags.mk.injEq] using h

theorem get?_items (rows : List CtagRow) (gid pid : U32) :
    (Dict.ofRows (rows.map item)).get? (gid.toNat, pid.toNat) = lastText rows gid pid := by
  rw [Dict.get?_ofRows, ← List.map_reverse, List.find?_map, Option.map_map, lastText]
  simp only [Function.comp_def, item, Prod.mk.injEq, toNat_inj_int]

/-- Only tags that were set are found. -/
theorem exists_of_get?_items {rows : List CtagRow} {gid pid : ℤ} {text : Csv.Field}
    (h : (Dict.ofRows (rows.map item)).get? (gid, pid) = some text) :
    ∃ g p : U32, gid = g.toNat ∧ pid = p.toNat := by
  rw [Dict.get?_ofRows, Option.map_eq_some_iff] at h
  obtain ⟨row, hfind, -⟩ := h
  have hmem := List.mem_reverse.mp (List.mem_of_find?_eq_some hfind)
  obtain ⟨r, -, rfl⟩ := List.mem_map.mp hmem
  have hkey : (item r).1 = (gid, pid) := by simpa using List.find?_some hfind
  exact ⟨r.gid, r.pid, (congrArg Prod.fst hkey).symm, (congrArg Prod.snd hkey).symm⟩

theorem says_items {word : String} {rows : List CtagRow} {gid pid : ℤ} :
    Says (Dict.ofRows (rows.map item)) word gid pid ↔
      ∃ g p : U32, gid = g.toNat ∧ pid = p.toNat ∧ Marked word rows g p := by
  refine ⟨?_, ?_⟩
  · rintro ⟨text, htext, hword⟩
    obtain ⟨g, p, rfl, rfl⟩ := exists_of_get?_items htext
    exact ⟨g, p, rfl, rfl, text, (get?_items rows g p).symm.trans htext, hword⟩
  · rintro ⟨g, p, rfl, rfl, text, htext, hword⟩
    exact ⟨text, (get?_items rows g p).trans htext, hword⟩

/-- The tags at one side of the intervals, as the script has them. -/
theorem says_items_iff {word : String} {rows : List CtagRow} {intervals : List Serial.Tags}
    {side : Serial.Tags → U32} (huser : ∀ t ∈ intervals, t.gid ≠ 0)
    (h : ∀ gid pid, gid ≠ 0 →
      (Marked word rows gid pid ↔ ∃ t ∈ intervals, t.gid = gid ∧ side t = pid))
    {gid pid : ℤ} (hgid : gid ≠ 0) :
    Says (Dict.ofRows (rows.map item)) word gid pid ↔
      ∃ t ∈ intervals, (t.gid.toNat : ℤ) = gid ∧ ((side t).toNat : ℤ) = pid := by
  rw [says_items]
  refine ⟨?_, ?_⟩
  · rintro ⟨g, p, rfl, rfl, hmarked⟩
    obtain ⟨t, ht, rfl, rfl⟩ := (h g p (toNat_ne_zero.mp hgid)).mp hmarked
    exact ⟨t, ht, rfl, rfl⟩
  · rintro ⟨t, ht, rfl, rfl⟩
    exact ⟨t.gid, side t, rfl, rfl, (h _ _ (huser t ht)).mpr ⟨t, ht, rfl, rfl⟩⟩

theorem Declares.names {rows : List CtagRow} {intervals : List Serial.Tags}
    (h : Declares rows intervals) :
    Names (Dict.ofRows (rows.map item)) (intervals.map triple) where
  gid_ne := by
    intro p hp
    obtain ⟨t, ht, rfl⟩ := List.mem_map.mp hp
    exact toNat_ne_zero.mpr (h.user t ht)
  start := by
    intro gid pid hgid
    rw [says_items_iff h.user h.start hgid]
    simp [triple]
  stop := by
    intro gid pid hgid
    rw [says_items_iff h.user h.stop hgid]
    simp [triple]
  start_own := by
    intro p hp q hq hgid hpid
    obtain ⟨t, ht, rfl⟩ := List.mem_map.mp hp
    obtain ⟨u, hu, rfl⟩ := List.mem_map.mp hq
    rw [h.start_own t ht u hu (toNat_inj_int.mp hgid) (toNat_inj_int.mp hpid)]
  stop_own := by
    intro p hp q hq hgid hpid
    obtain ⟨t, ht, rfl⟩ := List.mem_map.mp hp
    obtain ⟨u, hu, rfl⟩ := List.mem_map.mp hq
    rw [h.stop_own t ht u hu (toNat_inj_int.mp hgid) (toNat_inj_int.mp hpid)]
  nodup := h.nodup.map triple_injective

/-- Whether a word stands at one side of the intervals can be told from the rows. -/
theorem marked_iff_of_rows {word : String} {rows : List CtagRow} {intervals : List Serial.Tags}
    {side : Serial.Tags → U32}
    (hrows : ∀ r ∈ rows, r.gid ≠ 0 → Marked word rows r.gid r.pid →
      ∃ t ∈ intervals, t.gid = r.gid ∧ side t = r.pid)
    (hintervals : ∀ t ∈ intervals, Marked word rows t.gid (side t)) (gid pid : U32)
    (hgid : gid ≠ 0) :
    Marked word rows gid pid ↔ ∃ t ∈ intervals, t.gid = gid ∧ side t = pid := by
  refine ⟨fun hmarked => ?_, ?_⟩
  · obtain ⟨text, htext, -⟩ := id hmarked
    obtain ⟨r, hfind, -⟩ := Option.map_eq_some_iff.mp htext
    have hr := List.mem_reverse.mp (List.mem_of_find?_eq_some hfind)
    obtain ⟨rfl, rfl⟩ : r.gid = gid ∧ r.pid = pid := by simpa using List.find?_some hfind
    exact hrows r hr hgid hmarked
  · rintro ⟨t, ht, rfl, rfl⟩
    exact hintervals t ht

/-- In a group the end tags are in the order of the start tags. -/
def Ordered (intervals : List Serial.Tags) : Prop :=
  ∀ t ∈ intervals, ∀ u ∈ intervals, t.gid = u.gid → t.spid < u.spid → t.epid < u.epid

theorem inOrder_map_triple {intervals : List Serial.Tags} :
    InOrder (intervals.map triple) ↔ Ordered intervals := by
  simp only [InOrder, Ordered, List.forall_mem_map, triple, toNat_inj_int, Int.ofNat_lt,
    BitVec.lt_def]

open JobFiles

variable {job : Job} {parse : String → U64} {depth : ℕ}

/-- A tag whose text the script reads as it was set. -/
def LegibleCall : Call → Prop
  | .setTag _ _ tagstr => Legible tagstr.toList
  | _ => True

instance : (call : Call) → Decidable (LegibleCall call)
  | .setTag _ _ tagstr => inferInstanceAs (Decidable (Legible tagstr.toList))
  | .init => .isTrue trivial
  | .setEvt _ => .isTrue trivial
  | .commit => .isTrue trivial
  | .read _ _ _ => .isTrue trivial
  | .fastread _ _ _ => .isTrue trivial
  | .dump => .isTrue trivial
  | .finalize _ => .isTrue trivial

theorem legible_ctagRows {r : ℕ} {call : Call} (h : LegibleCall call) :
    ∀ row ∈ job.ctagRows r call, Legible row.tagstr.toList := by
  cases call with
  | init =>
      simp only [Job.ctagRows]
      cases job.process r <;> decide
  | setTag gid pid tagstr =>
      intro row hrow
      simp only [Job.ctagRows] at hrow
      split at hrow
      · cases hrow
      · obtain rfl := List.mem_singleton.mp hrow
        exact h
  | _ =>
      intro row hrow
      cases hrow

/-- What a run writes to `ctag.csv`. -/
theorem ctag_run {events : List JobFiles.Event} {s t : State job}
    (hrun : Runs.run (step job parse depth) s events = some t) :
    t.ctag = s.ctag ++ events.flatMap fun e => job.ctagRows e.rank e.call := by
  induction events generalizing s with
  | nil =>
      obtain rfl := Option.some.inj hrun
      simp
  | cons e events ih =>
      obtain ⟨u, hstep, hrest⟩ := Option.bind_eq_some_iff.mp hrun
      obtain ⟨p, -, -, -, -, hctag, -⟩ := step_cases hstep
      rw [ih hrest, hctag, List.append_assoc, List.flatMap_cons]

/-- **From the tags to the pairs.** Whatever a job does, `load_ctag` reads back the last text of
each of its tags. If these name intervals, the pairs of the script are the intervals exactly if
in each group the end tags are in the order of the start tags; and then the script reports, for
each record file, what it reports for the intervals one by one. -/
theorem default_pairs_of_job (job : Job) (parse : String → U64) (depth : ℕ)
    {events : List JobFiles.Event} {s : State job}
    (hrun : Runs.run (step job parse depth) (initial job) events = some s)
    (hlegible : ∀ e ∈ events, LegibleCall e.call) :
    let rows := events.flatMap fun e => job.ctagRows e.rank e.call
    ∃ tags, loadCtag s.ctagText = some tags ∧
      (∀ gid pid : U32, tags.get? (gid.toNat, pid.toNat) = lastText rows gid pid) ∧
      ∀ intervals : List Serial.Tags, intervals ≠ [] → Declares rows intervals →
        ((defaultPairs tags).Perm (intervals.map triple) ↔ Ordered intervals) ∧
        (Ordered intervals → ∀ (b : Build) (file : List Row) (evNames : List String),
          (Summary.summarizeFile b file (defaultPairs tags) evNames).Perm
            (intervals.filterMap (Summary.summarizeTags b file evNames))) := by
  intro rows
  have hctag : s.ctag = rows := ctag_run hrun
  have hrows : ∀ r ∈ s.ctag, Legible r.tagstr.toList := by
    rw [hctag]
    intro r hr
    obtain ⟨e, he, hr⟩ := List.mem_flatMap.mp hr
    exact legible_ctagRows (hlegible e he) r hr
  refine ⟨_, loadCtag_ctagText hrows, fun gid pid => ?_, fun intervals hintervals hdeclares => ?_⟩
  · rw [get?_items, hctag]
  rw [← hctag] at hdeclares
  have hpairs := hdeclares.names.defaultPairs_perm_iff (by simpa using hintervals)
  rw [inOrder_map_triple] at hpairs
  refine ⟨hpairs, fun hordered b file evNames => ?_⟩
  have hperm := hpairs.mpr hordered
  have hitems := hperm.filterMap fun p => Summary.summarizePair b file evNames p.1 p.2.1 p.2.2
  rwa [List.filterMap_map] at hitems

/-- Two intervals of one group, the tags of the second set first, and one of them twice. -/
def twoIntervals : List JobFiles.Event :=
  [⟨0, .init⟩, ⟨0, .setTag 1 0 "solver"⟩, ⟨0, .setTag 1 3 "Solve End"⟩,
    ⟨0, .setTag 1 4 "Solve End"⟩, ⟨0, .setTag 1 3 "Solve Start"⟩, ⟨0, .setTag 1 1 "Setup Start"⟩,
    ⟨0, .setTag 1 2 "Setup End"⟩]

theorem declares_twoIntervals :
    Declares (twoIntervals.flatMap fun e => Job.single.ctagRows e.rank e.call)
      [⟨1, 1, 2⟩, ⟨1, 3, 4⟩] where
  user := by decide
  start := marked_iff_of_rows (by decide +kernel) (by decide +kernel)
  stop := marked_iff_of_rows (by decide +kernel) (by decide +kernel)
  start_own := by decide
  stop_own := by decide
  nodup := by decide

theorem default_pairs_of_job_two :
    ∃ s : State Job.single,
      Runs.run (step Job.single EvtX86.phParseEvent 2) (initial Job.single) twoIntervals = some s ∧
      ∃ tags, loadCtag s.ctagText = some tags ∧
        tags.get? (1, 3) = some "Solve Start".toList ∧
        (defaultPairs tags).Perm [(1, 1, 2), (1, 3, 4)] := by
  have hsome : (Runs.run (step Job.single EvtX86.phParseEvent 2) (initial Job.single)
      twoIntervals).isSome = true := by
    decide +kernel
  obtain ⟨s, hrun⟩ := Option.isSome_iff_exists.mp hsome
  have hlegible : ∀ e ∈ twoIntervals, LegibleCall e.call := by decide
  obtain ⟨tags, htags, hlast, hpairs⟩ :=
    default_pairs_of_job Job.single EvtX86.phParseEvent 2 hrun hlegible
  have hthree : tags.get? (1, 3) = some "Solve Start".toList := by
    apply (hlast 1 3).trans
    decide +kernel
  obtain ⟨hperm, -⟩ := hpairs _ (List.cons_ne_nil _ _) declares_twoIntervals
  exact ⟨s, hrun, tags, htags, hthree, hperm.mpr (by simp only [Ordered]; decide)⟩

end TagPairs

end PerfHound
