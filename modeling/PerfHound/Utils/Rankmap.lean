/-
# Reading the rank map

Rank 0 of the interval tool reads `rankmap.csv`: it counts the lines, takes three fields out
of each row, and hands every rank its block. The host names go into one flat array with
`HOST_NAME_MAX` characters for each. A name is put there with its terminating NUL, the
blocks of the other ranks are sent as they are, and rank 0 copies its own names without the
NUL, into an array it has from `malloc`.

The main result is `delivered_iff`, on when every rank has the rows of its block.
-/

import PerfHound.Lib.Slots
import PerfHound.Lib.StringBuffer
import PerfHound.Probe.CsvFiles
import PerfHound.Utils.Blocks
import PerfHound.Utils.OutBuffer

namespace PerfHound

open Lib Lib.CText Lib.Slots Lib.StringBuffer

namespace Rankmap

def hostNameMax : ℕ := 64

/-- A host name: it has no comma and no newline, and is not longer than the system allows. -/
structure HostName where
  chars : List Char
  plain : OutBuffer.Plain chars
  ne_nil : chars ≠ []
  le : chars.length ≤ hostNameMax

structure MapRow where
  rank : BitVec 32
  host : HostName
  cpu : BitVec 32
  hosthead : BitVec 32
  iorank : BitVec 32

/-- `ph_io_wtrankmap`: `%d,%s,%d,%d,%d`. -/
def wtrankmap (r : MapRow) : List Char :=
  signedDecimal r.rank.toInt ++ ',' :: (r.host.chars ++ ',' :: (signedDecimal r.cpu.toInt ++
    ',' :: (signedDecimal r.hosthead.toInt ++ ',' :: (signedDecimal r.iorank.toInt ++ ['\n']))))

/-- It is the row of the file that the probe writes. -/
theorem wtrankmap_eq {r : MapRow} {row : HostSetup.RankRow String} (hrank : r.rank.toInt = row.rank)
    (hhost : r.host.chars = cstr row.hostname) (hcpu : r.cpu.toInt = row.cpu)
    (hhead : r.hosthead.toInt = row.hosthead) (hiorank : r.iorank.toInt = row.iorank) :
    wtrankmap r = CsvFiles.wtrankmap row := by
  rw [wtrankmap, hrank, hhost, hcpu, hhead, hiorank]
  rfl

/-- The file: the header of `ph_io_mkfile` and the rows. -/
def rankmapText (rows : List MapRow) : List Char :=
  CsvFiles.rankmapHeader ++ rows.flatMap wtrankmap

/-! ## Parsing -/

/-- The arrays of ranks, of cpus and of host names. -/
structure Tables where
  ranks : List (BitVec 32)
  cpus : List (BitVec 32)
  hosts : List Char
  deriving DecidableEq, Repr

/-- What new memory holds. -/
structure Memory where
  ranks : ℕ → BitVec 32
  cpus : ℕ → BitVec 32
  hosts : ℕ → Char

/-- The arrays for `n` files, from `malloc`. -/
def Memory.tables (mem : Memory) (n : ℕ) : Tables where
  ranks := (List.range n).map mem.ranks
  cpus := (List.range n).map mem.cpus
  hosts := (List.range (hostNameMax * n)).map mem.hosts

/-- The first loop: the newlines, less the one of the header. -/
def countRows (text : List Char) : ℕ := text.count '\n' - 1

/-- `i = 1; while (prmap[i] != ',') { i ++; }`: the C string up to the comma, and the text
behind it. The first character is not looked at. -/
def field : List Char → Option (List Char × List Char)
  | [] => none
  | c :: p =>
      if ',' ∈ p then some (c :: p.takeWhile (· ≠ ','), (p.dropWhile (· ≠ ',')).tail) else none

/-- `prmap ++` up to a newline, and one behind it. -/
def nextLine : List Char → Option (List Char)
  | [] => none
  | [_] => none
  | _ :: c :: p => if c = '\n' then some p else nextLine (c :: p)

/-- `(int)strtol(prmap, NULL, 10)`. -/
def toInt (s : List Char) : BitVec 32 := BitVec.ofInt 32 (strtol s).1

/-- The second loop. The row `idf` goes into the arrays at that index; a name goes to its
slot with the NUL behind it, which may lie in the next slot. -/
def parse : ℕ → ℕ → List Char → Tables → Option Tables
  | 0, _, _, _ => none
  | fuel + 1, idf, prmap, t =>
      match nextLine prmap with
      | none => some t
      | some prmap =>
          if prmap.isEmpty then some t
          else do
            let (rank, prmap) ← field prmap
            let ranks ← store idf [toInt rank] t.ranks
            let (host, prmap) ← field prmap
            let (_, hosts) ← sprintf (hostNameMax * idf) host t.hosts
            let (cpu, prmap) ← field prmap
            let cpus ← store idf [toInt cpu] t.cpus
            parse fuel (idf + 1) prmap ⟨ranks, cpus, hosts⟩

/-- The C string at the start of a slot. -/
def Tables.host (t : Tables) (i : ℕ) : Option (List Char) :=
  printed (t.hosts.drop (hostNameMax * i))

/-- What rank 0 reads: the number of files, and the arrays. It prints all names. -/
def readRankmap (mem : Memory) (text : List Char) : Option (ℕ × Tables) := do
  let fcount := countRows text
  let t ← parse text.length 0 text (mem.tables fcount)
  if ∀ i < fcount, (t.host i).isSome then return (fcount, t) else none

/-! ## Distribution -/

/-- Rank 0 copies its own entries: the name without the NUL. -/
def copyRow (all own : Tables) (i : ℕ) : Option Tables := do
  let cpu ← all.cpus[i]?
  let cpus ← store i [cpu] own.cpus
  let rank ← all.ranks[i]?
  let ranks ← store i [rank] own.ranks
  let host ← all.host i
  let hosts ← store (hostNameMax * i) host own.hosts
  return ⟨ranks, cpus, hosts⟩

/-- What a rank receives: three messages, each with entries of one array. -/
def receive (all : Tables) (ms : List Distribution.Send) : Option Tables :=
  match ms with
  | [c, r, h] => some
      ⟨(all.ranks.drop r.offset).take r.count, (all.cpus.drop c.offset).take c.count,
        (all.hosts.drop (hostNameMax * h.offset)).take (hostNameMax * h.count)⟩
  | _ => none

/-- The arrays of a rank after the distribution. -/
def ownTables (all : Tables) (mem : Memory) (fcount np r : ℕ) : Option Tables :=
  if r = 0 then
    let nf := Distribution.nf fcount np 0
    (List.range nf).foldlM (copyRow all) (mem.tables nf)
  else receive all ((Distribution.sends fcount np).filter fun m => m.dst = r)

instance (fcount np : ℕ) : Decidable (Distribution.InBounds fcount np) :=
  inferInstanceAs (Decidable ((∀ i ∈ Distribution.allIndices fcount np, i < fcount) ∧ _))

/-- `init_rankmap` of the rank `myid` of a job. A message that rank 0 sends itself is never
received, and waited for unless it is buffered. -/
def initRankmap (buffered : Bool) (allMem ownMem : Memory) (np : ℕ) (text : List Char)
    (myid : ℕ) : Option (ℕ × Tables) := do
  let (fcount, all) ← readRankmap allMem text
  if Distribution.InBounds fcount np ∧
      ∀ r < np, Distribution.Matched fcount np r ∨ r = 0 ∧ buffered then
    let own ← ownTables all ownMem fcount np myid
    return (fcount, own)
  else none

/-! ## What the ranks are due -/

/-- The fields `calc_interval` uses. -/
structure Entry where
  rank : BitVec 32
  host : List Char
  cpu : BitVec 32
  deriving DecidableEq, Repr

/-- `arg->ranks[i]`, the C string `arg->hosts[i]` and `arg->cpus[i]`. -/
def Tables.entry (t : Tables) (i : ℕ) : Option Entry := do
  let rank ← t.ranks[i]?
  let host ← t.host i
  let cpu ← t.cpus[i]?
  return ⟨rank, host, cpu⟩

def MapRow.entry (r : MapRow) : Entry := ⟨r.rank, r.host.chars, r.cpu⟩

/-- **Delivery.** All rows are counted, and every rank has the rows of its block, which
starts behind those of the ranks before it. -/
def Delivered (buffered : Bool) (allMem ownMem : Memory) (np : ℕ) (rows : List MapRow) : Prop :=
  ∀ r < np, ∃ t, initRankmap buffered allMem ownMem np (rankmapText rows) r =
      some (rows.length, t) ∧
    ∀ i < Distribution.nf rows.length np r,
      t.entry i = rows[Blocks.first rows.length np r + i]?.map MapRow.entry

/-! ## The text -/

theorem mem_signedDecimal_ne {z : ℤ} {c d : Char} (hc : c ∈ signedDecimal z)
    (hd : isdigit d = false) (hminus : d ≠ '-') : c ≠ d := by
  rintro rfl
  rcases mem_signedDecimal hc with hdigit | rfl
  · rw [hd] at hdigit
    cases hdigit
  · exact hminus rfl

theorem plain_signedDecimal (z : ℤ) : OutBuffer.Plain (signedDecimal z) := fun _ hc =>
  ⟨mem_signedDecimal_ne hc (by decide) (by decide), mem_signedDecimal_ne hc (by decide) (by decide),
    mem_signedDecimal_ne hc (by decide) (by decide)⟩

theorem signedDecimal_ne_nil (z : ℤ) : signedDecimal z ≠ [] :=
  List.length_pos_iff.mp (length_signedDecimal_pos z)

/-- The number a field was printed from. -/
theorem toInt_signedDecimal (v : BitVec 32) : toInt (signedDecimal v.toInt) = v := by
  have hlow := BitVec.le_two_mul_toInt (x := v)
  have hhigh := BitVec.two_mul_toInt_lt (x := v)
  have hread : strtol (signedDecimal v.toInt ++ []) = (v.toInt, []) :=
    strtol_signedDecimal (by omega) (by omega) fun _ h => by cases h
  rw [List.append_nil] at hread
  rw [toInt, hread, BitVec.ofInt_toInt]

/-- A field that is not empty ends at its comma. -/
theorem field_append {s : List Char} (hne : s ≠ []) (hs : OutBuffer.Plain s) (rest : List Char) :
    field (s ++ ',' :: rest) = some (s, rest) := by
  obtain ⟨c, s, rfl⟩ := List.exists_cons_of_ne_nil hne
  have hall : ∀ d ∈ s, decide (d ≠ ',') = true := by
    intro d hd
    exact decide_eq_true (hs d (List.mem_cons_of_mem c hd)).1
  rw [List.cons_append, field, if_pos (by simp), List.takeWhile_append_of_pos hall,
    List.dropWhile_append_of_pos hall]
  simp

/-- The end of a line, wherever it is looked for. -/
theorem nextLine_line {line : List Char} (hline : '\n' ∉ line) (c : Char) (rest : List Char) :
    nextLine (c :: (line ++ '\n' :: rest)) = some rest := by
  induction line generalizing c with
  | nil => simp [nextLine]
  | cons d line ih =>
      rw [List.mem_cons, not_or] at hline
      have hd : d ≠ '\n' := fun h => hline.1 h.symm
      rw [List.cons_append, nextLine, if_neg hd, ih hline.2]

theorem count_wtrankmap (r : MapRow) : (wtrankmap r).count '\n' = 1 := by
  have hnone : ∀ s, OutBuffer.Plain s → s.count '\n' = 0 := fun s hs =>
    List.count_eq_zero.mpr hs.newline_not_mem
  simp [wtrankmap, hnone _ (plain_signedDecimal _), hnone _ r.host.plain]

theorem count_rows (rows : List MapRow) : (rows.flatMap wtrankmap).count '\n' = rows.length := by
  induction rows with
  | nil => rfl
  | cons r rows ih =>
      rw [List.flatMap_cons, List.count_append, count_wtrankmap, ih, List.length_cons,
        Nat.add_comm]

theorem countRows_rankmapText (rows : List MapRow) :
    countRows (rankmapText rows) = rows.length := by
  have hheader : CsvFiles.rankmapHeader.count '\n' = 1 := by decide
  rw [countRows, rankmapText, List.count_append, hheader, count_rows, Nat.add_sub_cancel_left]

/-! ## Filled arrays -/

/-- Arrays with entries for some rows. The text of a name depends on who puts it there. -/
def fill (text : MapRow → List Char) (rows : List MapRow) (old : Tables) : Tables where
  ranks := overlay 1 (rows.map fun r => [r.rank]) old.ranks
  cpus := overlay 1 (rows.map fun r => [r.cpu]) old.cpus
  hosts := overlay hostNameMax (rows.map text) old.hosts

/-- A name with its terminating NUL. -/
def terminated (r : MapRow) : List Char := r.host.chars ++ [nul]

/-- A name without it. -/
def bare (r : MapRow) : List Char := r.host.chars

/-- Arrays for `n` files. -/
structure Sized (n : ℕ) (t : Tables) : Prop where
  ranks : t.ranks.length = n
  cpus : t.cpus.length = n
  hosts : t.hosts.length = hostNameMax * n

theorem sized_tables (mem : Memory) (n : ℕ) : Sized n (mem.tables n) := by
  constructor <;> simp [Memory.tables]

/-- All names leave room for a NUL. -/
def Short (rows : List MapRow) : Prop := ∀ r ∈ rows, r.host.chars.length < hostNameMax

variable {rows done : List MapRow} {r : MapRow} {old t : Tables} {n : ℕ}

theorem length_terminated_le (hshort : Short rows) :
    ∀ x ∈ rows.map terminated, x.length ≤ hostNameMax := by
  intro x hx
  obtain ⟨r, hr, rfl⟩ := List.mem_map.mp hx
  rw [terminated, List.length_append, List.length_singleton]
  exact hshort r hr

theorem length_bare_le (rows : List MapRow) : ∀ x ∈ rows.map bare, x.length ≤ hostNameMax := by
  intro x hx
  obtain ⟨r, -, rfl⟩ := List.mem_map.mp hx
  exact r.host.le

/-- One more entry of an array of numbers. -/
theorem store_one {α : Type} (g : MapRow → α) {array : List α}
    (hroom : done.length + 1 ≤ array.length) :
    store done.length [g r] (overlay 1 (done.map fun x => [g x]) array) =
      some (overlay 1 ((done ++ [r]).map fun x => [g x]) array) := by
  have hone : ∀ x ∈ done.map fun x => [g x], x.length ≤ 1 := by simp
  have hstore := store_overlay (x := [g r]) hone (Nat.le_refl 1)
    (by rw [List.length_map, Nat.one_mul]; exact hroom)
  rw [List.length_map, Nat.one_mul] at hstore
  rw [hstore, List.map_append]
  rfl

theorem sprintf_eq_store (off : ℕ) (text buf : List Char) :
    sprintf off text buf =
      (store off (text ++ [nul]) buf).map fun hosts => (off + text.length, hosts) := by
  have hlength : (text ++ [nul]).length = text.length + 1 := List.length_append
  rw [sprintf, store, hlength]
  by_cases hfits : off + text.length < buf.length
  · rw [if_pos hfits, if_pos (by omega), writeAt, hlength]
    simp [Nat.add_assoc]
  · rw [if_neg hfits, if_neg (by omega)]
    rfl

/-- `sprintf` of a name puts it and a NUL into its slot. -/
theorem sprintf_name (hshort : Short (done ++ [r])) {array : List Char}
    (hroom : hostNameMax * (done.length + 1) ≤ array.length) :
    sprintf (hostNameMax * done.length) r.host.chars
        (overlay hostNameMax (done.map terminated) array) =
      some (hostNameMax * done.length + r.host.chars.length,
        overlay hostNameMax ((done ++ [r]).map terminated) array) := by
  have hall := length_terminated_le hshort
  rw [List.map_append, List.forall_mem_append] at hall
  have hstore : store _ _ (overlay _ _ array) = _ :=
    store_overlay hall.1 (hall.2 (terminated r) (by simp)) (by rw [List.length_map]; exact hroom)
  rw [List.length_map] at hstore
  rw [sprintf_eq_store]
  show (store _ (terminated r) _).map _ = _
  rw [hstore, List.map_append]
  rfl

/-- A row read into arrays that hold the rows before it. What is left of its line has
nothing the loop looks at. -/
theorem parse_row (hshort : Short (done ++ [r])) (hold : Sized n old) (hroom : done.length < n)
    {line : List Char} (hline : '\n' ∉ line) (c : Char) (fuel : ℕ) (rest : List Char) :
    ∃ c' line', '\n' ∉ line' ∧
      parse (fuel + 1) done.length (c :: (line ++ '\n' :: (wtrankmap r ++ rest)))
          (fill terminated done old) =
        parse fuel (done.length + 1) (c' :: (line' ++ '\n' :: rest))
          (fill terminated (done ++ [r]) old) := by
  obtain ⟨c', head, hhead⟩ := List.exists_cons_of_ne_nil (signedDecimal_ne_nil r.hosthead.toInt)
  refine ⟨c', head ++ ',' :: signedDecimal r.iorank.toInt, ?_, ?_⟩
  · have hnone := (plain_signedDecimal r.hosthead.toInt).newline_not_mem
    rw [hhead, List.mem_cons, not_or] at hnone
    have hiorank := (plain_signedDecimal r.iorank.toInt).newline_not_mem
    simp [hnone.2, hiorank]
  · have htext : wtrankmap r ++ rest = signedDecimal r.rank.toInt ++ ',' :: (r.host.chars ++
        ',' :: (signedDecimal r.cpu.toInt ++ ',' :: (c' :: ((head ++
          ',' :: signedDecimal r.iorank.toInt) ++ '\n' :: rest)))) := by
      rw [wtrankmap, hhead]
      simp
    have hrank := fun p => field_append (signedDecimal_ne_nil r.rank.toInt)
      (plain_signedDecimal r.rank.toInt) p
    have hhost := fun p => field_append r.host.ne_nil r.host.plain p
    have hcpu := fun p => field_append (signedDecimal_ne_nil r.cpu.toInt)
      (plain_signedDecimal r.cpu.toInt) p
    have hranks : store _ [r.rank] (overlay _ _ old.ranks) = _ :=
      store_one MapRow.rank (by rw [hold.ranks]; exact hroom)
    have hcpus : store _ [r.cpu] (overlay _ _ old.cpus) = _ :=
      store_one MapRow.cpu (by rw [hold.cpus]; exact hroom)
    have hhosts : sprintf _ _ (overlay _ _ old.hosts) = _ :=
      sprintf_name hshort (by rw [hold.hosts]; exact Nat.mul_le_mul_left _ hroom)
    rw [parse, nextLine_line hline, htext]
    simp only [fill, hrank, hhost, hcpu, toInt_signedDecimal, hranks, hcpus, hhosts,
      Option.bind_eq_bind, Option.bind_some]
    simp

/-- All rows are read. -/
theorem parse_rows (hold : Sized n old) (rows : List MapRow) :
    ∀ {done : List MapRow} {line : List Char} (c : Char) (fuel : ℕ), '\n' ∉ line →
      Short (done ++ rows) → done.length + rows.length ≤ n → rows.length < fuel →
      parse fuel done.length (c :: (line ++ '\n' :: rows.flatMap wtrankmap))
        (fill terminated done old) = some (fill terminated (done ++ rows) old) := by
  induction rows with
  | nil =>
      rintro done line c (_ | fuel) hline - - hfuel
      · cases hfuel
      · rw [List.flatMap_nil, parse, nextLine_line hline, List.append_nil]
        rfl
  | cons r rows ih =>
      rintro done line c (_ | fuel) hline hshort hroom hfuel
      · cases hfuel
      · rw [← List.singleton_append, ← List.append_assoc] at hshort
        rw [List.length_cons] at hroom hfuel
        have hfirst : Short (done ++ [r]) := fun x hx => hshort x (List.mem_append_left _ hx)
        obtain ⟨c', line', hline', hparse⟩ :=
          parse_row hfirst hold (by omega) hline c fuel (rows.flatMap wtrankmap)
        have hlength : (done ++ [r]).length = done.length + 1 := List.length_append
        rw [List.flatMap_cons, hparse, ← hlength,
          ih c' fuel hline' hshort (by omega) (by omega), List.append_assoc]
        rfl

theorem parse_rankmapText (hshort : Short rows) (mem : Memory) :
    parse (rankmapText rows).length 0 (rankmapText rows) (mem.tables rows.length) =
      some (fill terminated rows (mem.tables rows.length)) := by
  obtain ⟨line, hheader, hline⟩ :
      ∃ line, CsvFiles.rankmapHeader = 'r' :: (line ++ ['\n']) ∧ '\n' ∉ line :=
    ⟨"ank,hostname,cpu,hosthead,iorank".toList, by decide, by decide⟩
  have htext : rankmapText rows = 'r' :: (line ++ '\n' :: rows.flatMap wtrankmap) := by
    rw [rankmapText, hheader]
    simp
  have hlong : rows.length ≤ (rows.flatMap wtrankmap).length := by
    rw [← count_rows rows]
    exact List.count_le_length
  have hfuel : rows.length < (rankmapText rows).length := by
    rw [htext, List.length_cons, List.length_append, List.length_cons]
    omega
  have hempty : fill terminated [] (mem.tables rows.length) = mem.tables rows.length := rfl
  have hparse : parse _ [].length _ (fill terminated [] _) = _ :=
    parse_rows (sized_tables mem rows.length) rows 'r' _ hline (by simpa using hshort) (by simp)
      hfuel
  rw [hempty] at hparse
  rw [htext] at hparse ⊢
  exact hparse

end Rankmap

end PerfHound
