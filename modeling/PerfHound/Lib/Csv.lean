/-
# Comma-separated text

A table is written line by line: the names of its columns, and then the fields of each
row. A reader that knows no quotes cuts the text at the newlines and the lines at the
commas, and it gets back the fields that were written when no field contains either.

A record has its values under names. A text is rectangular for a list of records when each
of its rows is as wide as its header and has, under each name, the value of its record.
-/

import Mathlib.Data.List.Forall2
import Mathlib.Tactic.Tauto

namespace PerfHound.Lib

namespace Csv

universe uR

abbrev Field := List Char

/-- The values of a record, by the names of their columns. -/
abbrev Record := List (Field × Field)

/-- A text that any reader takes for one field: no comma, no quote, no newline. -/
def Plain (s : Field) : Prop := ',' ∉ s ∧ '\x22' ∉ s ∧ '\n' ∉ s

instance (s : Field) : Decidable (Plain s) := inferInstanceAs (Decidable (_ ∧ _ ∧ _))

def line (fields : List Field) : List Char := [','].intercalate fields ++ ['\n']

/-- The lines of a text. What is behind the last newline is a line if it is not empty. -/
def lines (s : List Char) : List (List Char) :=
  if (s.splitOn '\n').getLast? = some [] then (s.splitOn '\n').dropLast else s.splitOn '\n'

/-- The fields of a text without quotes. -/
def read (s : List Char) : List (List Field) := (lines s).map (·.splitOn ',')

/-- A row is as wide as the header, and has the value of its record under each name. -/
structure Under (header : List Field) (r : Record) (row : List Field) : Prop where
  width : row.length = header.length
  named : ∀ (k : ℕ) (name field : Field), header[k]? = some name → row[k]? = some field →
    r.lookup name = some field

/-- A text with a header and one row for each record. -/
def Rectangular (text : List Char) (records : List Record) : Prop :=
  ∃ header rows, read text = header :: rows ∧ List.Forall₂ (Under header) records rows

/-! ## Plain texts -/

theorem plain_append {s t : List Char} : Plain (s ++ t) ↔ Plain s ∧ Plain t := by
  simp only [Plain, List.mem_append, not_or]
  tauto

theorem plain_of_forall {s : List Char} (h : ∀ c ∈ s, c ≠ ',' ∧ c ≠ '\x22' ∧ c ≠ '\n') :
    Plain s :=
  ⟨fun hc => (h _ hc).1 rfl, fun hc => (h _ hc).2.1 rfl, fun hc => (h _ hc).2.2 rfl⟩

/-! ## Reading what was written -/

theorem not_mem_intercalate {c : Char} (hc : c ≠ ',') {fields : List Field}
    (h : ∀ f ∈ fields, c ∉ f) : c ∉ [','].intercalate fields := by
  induction fields with
  | nil => exact List.not_mem_nil
  | cons f fields ih =>
      have hf := h f List.mem_cons_self
      have hrest := ih fun g hg => h g (List.mem_cons_of_mem _ hg)
      cases fields with
      | nil => simpa using hf
      | cons g fields =>
          rw [List.intercalate_cons_cons, List.mem_append, List.mem_append, List.mem_singleton]
          rintro ((hmem | hmem) | hmem)
          · exact hf hmem
          · exact hc hmem
          · exact hrest hmem

/-- A line in front of a text is its first line. -/
theorem lines_append {s : List Char} (hs : '\n' ∉ s) (rest : List Char) :
    lines (s ++ '\n' :: rest) = s :: lines rest := by
  have hne := List.splitOn_ne_nil '\n' rest
  have hsplit := List.splitOn_append_cons_self_of_not_mem hs rest
  rw [lines, lines, hsplit, List.getLast?_cons_of_ne_nil hne, List.dropLast_cons_of_ne_nil hne]
  split <;> rfl

theorem read_line_append {fields : List Field} (hne : fields ≠ []) (h : ∀ f ∈ fields, Plain f)
    (rest : List Char) : read (line fields ++ rest) = fields :: read rest := by
  have hline : '\n' ∉ [','].intercalate fields :=
    not_mem_intercalate (by decide) fun f hf => (h f hf).2.2
  have hcommas := List.splitOn_intercalate ',' (fun f hf => (h f hf).1) hne
  rw [read, line, List.append_assoc, List.singleton_append, lines_append hline, List.map_cons,
    hcommas]
  rfl

/-- A written table is read back. -/
theorem read_flatMap_line {table : List (List Field)}
    (h : ∀ row ∈ table, row ≠ [] ∧ ∀ f ∈ row, Plain f) : read (table.flatMap line) = table := by
  induction table with
  | nil => rfl
  | cons row table ih =>
      obtain ⟨hne, hplain⟩ := h row List.mem_cons_self
      rw [List.flatMap_cons, read_line_append hne hplain,
        ih fun row' hrow' => h row' (List.mem_cons_of_mem _ hrow')]

/-! ## Rows and records -/

/-- The values of a record, in the order of its names, stand under these names. -/
theorem under_record {r : Record} (hnames : (r.map Prod.fst).Nodup) :
    Under (r.map Prod.fst) r (r.map Prod.snd) where
  width := by rw [List.length_map, List.length_map]
  named := by
    induction r with
    | nil =>
        intro k name field hname _
        cases hname
    | cons p r ih =>
        rw [List.map_cons, List.nodup_cons] at hnames
        intro k name field hname hfield
        cases k with
        | zero =>
            obtain rfl : p.1 = name := Option.some.inj hname
            obtain rfl : p.2 = field := Option.some.inj hfield
            exact List.lookup_cons_self
        | succ k =>
            have hmem : name ∈ r.map Prod.fst := List.mem_of_getElem? hname
            have hne : (name == p.1) = false :=
              beq_eq_false_iff_ne.mpr fun heq => hnames.1 (heq ▸ hmem)
            rw [List.lookup_cons, hne]
            exact ih hnames.2 k name field hname hfield

/-- A header and the lines of some rows, when every row has a record under the names of the
header, all of them different. -/
theorem rectangular_of_rows {R : Type uR} {columns : List Field} {text : R → List Char}
    {record : R → Record} {rows : List R} (hne : columns ≠ []) (hdistinct : columns.Nodup)
    (hcolumns : ∀ f ∈ columns, Plain f)
    (hrows : ∀ r ∈ rows, text r = line ((record r).map Prod.snd) ∧
      (record r).map Prod.fst = columns ∧ ∀ p ∈ record r, Plain p.2) :
    Rectangular (line columns ++ rows.flatMap text) (rows.map record) := by
  refine ⟨columns, rows.map fun r => (record r).map Prod.snd, ?_, ?_⟩
  · have hlines : rows.flatMap text = (rows.map fun r => (record r).map Prod.snd).flatMap line := by
      rw [List.flatMap_map]
      exact List.flatMap_congr fun r hr => (hrows r hr).1
    have hplain : ∀ row ∈ rows.map fun r => (record r).map Prod.snd,
        row ≠ [] ∧ ∀ f ∈ row, Plain f := by
      intro row hrow
      obtain ⟨r, hr, rfl⟩ := List.mem_map.mp hrow
      obtain ⟨-, hnames, hvalues⟩ := hrows r hr
      constructor
      · intro hempty
        rw [List.map_eq_nil_iff] at hempty
        exact hne (by rw [← hnames, hempty, List.map_nil])
      · intro f hf
        obtain ⟨p, hp, rfl⟩ := List.mem_map.mp hf
        exact hvalues p hp
    rw [read_line_append hne hcolumns, hlines, read_flatMap_line hplain]
  · rw [List.forall₂_map_left_iff, List.forall₂_map_right_iff]
    refine List.forall₂_same.mpr fun r hr => ?_
    have hnames := (hrows r hr).2.1
    have hunder := under_record (r := record r) (hnames ▸ hdistinct)
    rwa [hnames] at hunder

/-- A row of another width than the header. -/
theorem not_rectangular_of_width {text : List Char} {header row : List Field}
    {rows : List (List Field)} (hread : read text = header :: rows) (hrow : row ∈ rows)
    (hwidth : row.length ≠ header.length) (records : List Record) : ¬ Rectangular text records := by
  rintro ⟨header', rows', hread', hrows⟩
  obtain ⟨rfl, rfl⟩ := List.cons.inj (hread.symm.trans hread')
  obtain ⟨k, hk, rfl⟩ := List.getElem_of_mem hrow
  have hunder := hrows.get (hrows.length_eq ▸ hk) hk
  exact hwidth hunder.width

end Csv

end PerfHound.Lib
