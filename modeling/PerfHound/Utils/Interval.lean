/-
# The interval tool: `calc_interval` of one record file

`calc_interval` walks over the rows of a record file and writes one output row for
each start row whose next row is an end row. It looks at a row once: a start row
takes the row behind it with it, whether or not that is an end row.

The model works on rows. In the file the fields are decimal text, and the tags are
compared as `int`s, which on both sides are the tags modulo `2 ^ 32`. A start row in
the last line makes the tool read past the end of the file, and has no result here.
-/

import PerfHound.Core

namespace PerfHound

namespace Interval

/-- The arguments: the tag pairs of the start and of the end rows. -/
structure Arg where
  sgid : U32
  spid : U32
  egid : U32
  epid : U32
  deriving DecidableEq, Repr

/-- A record file and what its name says about it. -/
structure RecFile where
  host : String
  rank : ℕ
  cpu : ℕ
  rows : List Row

/-- What an output row says about its pair. -/
structure Delta where
  cy : U64
  ns : U64
  /-- `uval` of the start row, of which six decimals were printed. -/
  uval : Double
  ev : List U64
  deriving DecidableEq, Repr

/-- An output row. -/
structure OutRow where
  id : ℕ
  host : String
  rank : ℕ
  cpu : ℕ
  delta : Delta
  deriving DecidableEq, Repr

/-- `gid != arg->sgid || pid != arg->spid`, negated. -/
def Arg.isStart (arg : Arg) (r : Row) : Bool := r.gid == arg.sgid && r.pid == arg.spid

/-- `gid != arg->egid || pid != arg->epid`, negated. -/
def Arg.isEnd (arg : Arg) (r : Row) : Bool := r.gid == arg.egid && r.pid == arg.epid

/-- The differences of a pair, modulo `2 ^ 64`. A build with `RDTSCP` rescales `ns`
afterwards; the default build does not. -/
def delta (s e : Row) : Delta where
  cy := e.cy - s.cy
  ns := e.ns - s.ns
  uval := s.uval
  ev := List.zipWith (· - ·) e.ev s.ev

/-- The output row with a given number. -/
def RecFile.outRow (file : RecFile) (id : ℕ) (d : Delta) : OutRow :=
  ⟨id, file.host, file.rank, file.cpu, d⟩

/-- The main loop of `calc_interval` over the rows that are left. -/
def scan (arg : Arg) (file : RecFile) : ℕ → List Row → Option (List OutRow)
  | _, [] => some []
  | _, [r] => if arg.isStart r then none else some []
  | id, r :: e :: rest =>
      if arg.isStart r then
        if arg.isEnd e then
          (scan arg file (id + 1) rest).map fun out => file.outRow id (delta r e) :: out
        else scan arg file id rest
      else scan arg file id (e :: rest)

def calcInterval (arg : Arg) (file : RecFile) : Option (List OutRow) :=
  scan arg file 0 file.rows

/-- Output rows with successive numbers. -/
def RecFile.numbered (file : RecFile) : ℕ → List Delta → List OutRow
  | _, [] => []
  | id, d :: rest => file.outRow id d :: file.numbered (id + 1) rest

theorem RecFile.numbered_append (file : RecFile) (id : ℕ) (ds es : List Delta) :
    file.numbered id (ds ++ es) =
      file.numbered id ds ++ file.numbered (id + ds.length) es := by
  induction ds generalizing id with
  | nil => rfl
  | cons d ds ih =>
      simp only [List.cons_append, RecFile.numbered, ih, List.length_cons]
      rw [Nat.add_assoc id 1, Nat.add_comm 1]

theorem RecFile.numbered_injective (file : RecFile) {id : ℕ} {ds es : List Delta}
    (h : file.numbered id ds = file.numbered id es) : ds = es := by
  induction ds generalizing id es with
  | nil =>
      cases es with
      | nil => rfl
      | cons e es => cases h
  | cons d ds ih =>
      cases es with
      | nil => cases h
      | cons e es =>
          simp only [RecFile.numbered, RecFile.outRow, List.cons.injEq, OutRow.mk.injEq,
            true_and] at h
          rw [h.1, ih h.2]

theorem RecFile.getElem?_numbered (file : RecFile) (id : ℕ) (ds : List Delta) (k : ℕ) :
    (file.numbered id ds)[k]? = ds[k]?.map (file.outRow (id + k)) := by
  induction ds generalizing id k with
  | nil => rfl
  | cons d ds ih =>
      cases k with
      | zero => rfl
      | succ k =>
          rw [RecFile.numbered, List.getElem?_cons_succ, List.getElem?_cons_succ, ih,
            Nat.add_right_comm id 1 k, Nat.add_assoc]

/-- Forget the event differences a sampling of `p` does not determine. -/
def Delta.reading (p : Sampler) (d : Delta) : Delta := { d with ev := d.ev.take p.nread }

section Scan

variable {arg : Arg} {file : RecFile}

theorem scan_cons_of_not_start {r : Row} (hr : arg.isStart r = false) (id : ℕ) (rest : List Row) :
    scan arg file id (r :: rest) = scan arg file id rest := by
  cases rest with
  | nil => simp [scan, hr]
  | cons e rest => simp [scan, hr]

variable (file) in
/-- A scan of rows the last of which is no start row does not run past their end. -/
theorem scan_isSome (id : ℕ) {rows : List Row}
    (hlast : ∀ r ∈ rows.getLast?, arg.isStart r = false) : (scan arg file id rows).isSome := by
  have hrest : ∀ {s e : Row} {rest : List Row},
      (∀ r ∈ (s :: e :: rest).getLast?, arg.isStart r = false) →
        ∀ r ∈ rest.getLast?, arg.isStart r = false := by
    intro s e rest h r hr
    exact h r (List.mem_getLast?_cons (List.mem_getLast?_cons hr))
  induction id, rows using scan.induct arg with
  | case1 id => rfl
  | case2 id r hr => exact absurd (hlast r rfl) (by simp [hr])
  | case3 id r hr => simp [scan, hr]
  | case4 id s e rest hs he ih => simpa [scan, hs, he] using ih (hrest hlast)
  | case5 id s e rest hs he ih => simpa [scan, hs, he] using ih (hrest hlast)
  | case6 id s e rest hs ih =>
      rw [List.getLast?_cons_cons] at hlast
      simpa [scan, hs] using ih hlast

/-- What a scan makes of a list of rows, wherever it starts to number: the output rows
for `ds`, and then it goes on with what follows. -/
def Yields (arg : Arg) (file : RecFile) (rows : List Row) (ds : List Delta) : Prop :=
  ∀ (id : ℕ) (rest : List Row), scan arg file id (rows ++ rest) =
    (scan arg file (id + ds.length) rest).map fun out => file.numbered id ds ++ out

theorem Yields.scan_eq {rows : List Row} {ds : List Delta} (h : Yields arg file rows ds) (id : ℕ) :
    scan arg file id rows = some (file.numbered id ds) := by
  have hrest := h id []
  rw [List.append_nil] at hrest
  rw [hrest]
  simp [scan]

theorem Yields.nil : Yields arg file [] [] := by
  intro id rest
  simp [RecFile.numbered]

theorem Yields.append {rows rows' : List Row} {ds ds' : List Delta}
    (h : Yields arg file rows ds) (h' : Yields arg file rows' ds') :
    Yields arg file (rows ++ rows') (ds ++ ds') := by
  intro id rest
  rw [List.append_assoc, h id, h', Option.map_map, List.length_append, Nat.add_assoc,
    RecFile.numbered_append]
  congr 1
  funext out
  exact (List.append_assoc _ _ _).symm

/-- A row that is no start row yields nothing. -/
theorem Yields.skip {r : Row} (hr : arg.isStart r = false) : Yields arg file [r] [] := by
  intro id rest
  rw [List.singleton_append, scan_cons_of_not_start hr]
  simp [RecFile.numbered]

theorem Yields.skip_all {rows : List Row} (hrows : ∀ r ∈ rows, arg.isStart r = false) :
    Yields arg file rows [] := by
  induction rows with
  | nil => exact Yields.nil
  | cons r rows ih =>
      have hhead : Yields arg file [r] [] := Yields.skip (hrows r List.mem_cons_self)
      exact hhead.append (ih fun x hx => hrows x (List.mem_cons_of_mem r hx))

/-- A start row followed by an end row yields their differences. -/
theorem Yields.pair {s e : Row} (hs : arg.isStart s = true) (he : arg.isEnd e = true) :
    Yields arg file [s, e] [delta s e] := by
  intro id rest
  simp [scan, hs, he, RecFile.numbered]

/-- A start row takes a row that is no end row with it. -/
theorem Yields.broken {s r : Row} (hs : arg.isStart s = true) (hr : arg.isEnd r = false) :
    Yields arg file [s, r] [] := by
  intro id rest
  simp [scan, hs, hr, RecFile.numbered]

/-- The pairs of start and end rows a list of rows falls into, when rows are taken from
the front: a start row takes the row behind it with it. A start row in the last place
leaves no way to do so. -/
inductive Paired (arg : Arg) : List Row → List (Row × Row) → Prop
  | nil : Paired arg [] []
  | skip {r : Row} {rows : List Row} {pairs : List (Row × Row)} (hr : arg.isStart r = false)
      (rest : Paired arg rows pairs) : Paired arg (r :: rows) pairs
  | broken {s r : Row} {rows : List Row} {pairs : List (Row × Row)}
      (hs : arg.isStart s = true) (hr : arg.isEnd r = false) (rest : Paired arg rows pairs) :
      Paired arg (s :: r :: rows) pairs
  | pair {s e : Row} {rows : List Row} {pairs : List (Row × Row)} (hs : arg.isStart s = true)
      (he : arg.isEnd e = true) (rest : Paired arg rows pairs) :
      Paired arg (s :: e :: rows) ((s, e) :: pairs)

/-- The differences of pairs. -/
def deltas (pairs : List (Row × Row)) : List Delta := pairs.map fun p => delta p.1 p.2

theorem Paired.scan_eq {rows : List Row} {pairs : List (Row × Row)} (h : Paired arg rows pairs)
    (id : ℕ) : scan arg file id rows = some (file.numbered id (deltas pairs)) := by
  induction h generalizing id with
  | nil => rfl
  | skip hr rest ih => rw [scan_cons_of_not_start hr, ih]
  | broken hs hr rest ih => simp [scan, hs, hr, ih]
  | pair hs he rest ih => simp [scan, hs, he, ih, deltas, RecFile.numbered]

/-- A scan that has a result finds the pairs. -/
theorem paired_of_scan {rows : List Row} (id : ℕ) {out : List OutRow}
    (h : scan arg file id rows = some out) :
    ∃ pairs, Paired arg rows pairs ∧ out = file.numbered id (deltas pairs) := by
  have hpaired : ∃ pairs, Paired arg rows pairs := by
    induction id, rows using scan.induct arg generalizing out with
    | case1 id => exact ⟨[], Paired.nil⟩
    | case2 id r hr => simp [scan, hr] at h
    | case3 id r hr => exact ⟨[], Paired.skip (by simpa using hr) Paired.nil⟩
    | case4 id s e rest hs he ih =>
        simp only [scan, hs, he, if_true, Option.map_eq_some_iff] at h
        obtain ⟨out', hrest, -⟩ := h
        obtain ⟨pairs, hpairs⟩ := ih hrest
        exact ⟨(s, e) :: pairs, Paired.pair hs he hpairs⟩
    | case5 id s r rest hs hr ih =>
        simp only [scan, hs, hr, if_true] at h
        obtain ⟨pairs, hpairs⟩ := ih h
        exact ⟨pairs, Paired.broken hs (by simpa using hr) hpairs⟩
    | case6 id r e rest hr ih =>
        simp only [scan, hr] at h
        obtain ⟨pairs, hpairs⟩ := ih h
        exact ⟨pairs, Paired.skip (by simpa using hr) hpairs⟩
  obtain ⟨pairs, hpairs⟩ := hpaired
  exact ⟨pairs, hpairs, Option.some.inj (h.symm.trans (hpairs.scan_eq id))⟩

end Scan

end Interval

end PerfHound
