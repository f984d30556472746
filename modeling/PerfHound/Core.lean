/-
# Build modes, records and samplings of the probe

The data types of `ph_core.h`: the build options that size them, the record
`rec_t` a sampling fills in, and the row a record becomes in the record file.

A probe variant does not overwrite a whole record. How many of the `ev` slots a
sampling writes depends on the build and on the entry point, and the slots it
leaves alone keep what the buffer held before. `Sampler` says which fields one
entry point writes, and `Reading` is the part of a row that the sampling itself
determined; a theorem about user samples is a theorem about readings.
-/

import Mathlib.Algebra.Group.Nat.Defs
import Mathlib.Data.List.Range

namespace PerfHound

/-- `uint32_t`. -/
abbrev U32 := BitVec 32

/-- `uint64_t`. -/
abbrev U64 := BitVec 64

/-! ## Build options -/

/-- `PH_EVMODE`: timestamps only, four event counters, or the extended set. -/
inductive EvMode
  | ts
  | ev
  | evx
  deriving DecidableEq, Repr

/-- The architectures with a PHASM backend. -/
inductive Arch
  | x86
  | aarch64
  deriving DecidableEq, Repr

inductive Api
  | phasm
  | papi
  deriving DecidableEq, Repr

/-- One build of the probe library. -/
structure Build where
  evMode : EvMode
  arch : Arch
  api : Api
  deriving DecidableEq, Repr

namespace Build

/-- `ph_nev_max`, how many events the probe means to accept. -/
def phNevMax (b : Build) : ℕ :=
  match b.evMode, b.arch with
  | .evx, .x86 => 8
  | .evx, .aarch64 => 12
  | _, _ => 4

/-- `PH_NEV`, the length of `ph_evcodes` and of a record's `ev` array. -/
def phNEV (b : Build) : ℕ :=
  match b.evMode with
  | .evx => 12
  | _ => 4

/-- `sizeof(rec_t)`: the record is packed, two tags, cycle, nanosec, uval, events. -/
def sizeofRec (b : Build) : ℕ := 4 * 2 + 8 * 2 + 8 + 8 * b.phNEV

theorem phNevMax_le_phNEV (b : Build) : b.phNevMax ≤ b.phNEV := by
  rcases b with ⟨evMode, arch, api⟩
  cases evMode <;> cases arch <;> simp [phNevMax, phNEV]

theorem phNEV_pos (b : Build) : 0 < b.phNEV := by
  rcases b with ⟨evMode, arch, api⟩
  cases evMode <;> simp [phNEV]

theorem le_sizeofRec (b : Build) : 64 ≤ b.sizeofRec := by
  rcases b with ⟨evMode, arch, api⟩
  cases evMode <;> simp [sizeofRec, phNEV]

end Build

/-! ## Doubles -/

/-- A C `double`, by its IEEE 754 binary64 pattern. The probe only copies them
and converts indices to them. -/
structure Double where
  bits : U64
  deriving DecidableEq, Repr

namespace Double

/-- The conversion of a `uint32_t` to `double`, which is exact: below `2 ^ 32` the
leading one and all bits after it fit the 52-bit fraction. -/
def ofU32 (n : U32) : Double :=
  if n = 0 then ⟨0⟩
  else
    let e := Nat.log2 n.toNat
    ⟨BitVec.ofNat 64 ((e + 1023) * 2 ^ 52 + (n.toNat * 2 ^ (52 - e) - 2 ^ 52))⟩

/-- The literal `0` in a `double` argument. -/
def zero : Double := ⟨0⟩

example : ofU32 3 = ⟨0x4008000000000000⟩ := by decide

end Double

/-! ## Records and rows -/

/-- `rec_t`. Slot `j` of `ev` is meant for `j < PH_NEV`. -/
structure Rec where
  gid : U32
  pid : U32
  cy : U64
  ns : U64
  uval : Double
  ev : ℕ → U64

/-- One data row of the record file, field by field. `uval` is the number whose six
decimals are printed. -/
structure Row where
  gid : U32
  pid : U32
  cy : U64
  ns : U64
  uval : Double
  ev : List U64
  deriving DecidableEq, Repr

/-- The row `ph_io_wtrec` prints for a record: all scalar fields and the first
`ph_nev` events. -/
def Row.ofRec (nev : ℕ) (r : Rec) : Row where
  gid := r.gid
  pid := r.pid
  cy := r.cy
  ns := r.ns
  uval := r.uval
  ev := (List.range nev).map r.ev

/-! ## Samplings -/

/-- What the hardware delivers to one sampling: the cycle counter, the timer, and
event counter `j`. -/
structure Sample where
  cy : U64
  ns : U64
  ev : ℕ → U64

/-- Which record fields a sampling of one entry point writes. -/
structure Sampler where
  /-- How many of the leading `ev` slots are written. -/
  nread : ℕ
  /-- Whether `cy` is replaced by slot 0 of `ev` afterwards. -/
  cyFromEv : Bool

namespace Sampler

/-- Overwrite a record with one sampling. The `ev` slots from `nread` on keep
their old contents. -/
def fill (p : Sampler) (m : Sample) (gid pid : U32) (uval : Double) (old : Rec) : Rec :=
  let ev := fun j => if j < p.nread then m.ev j else old.ev j
  { gid, pid, cy := if p.cyFromEv then ev 0 else m.cy, ns := m.ns, uval, ev }

/-- `ph_read`: nothing in TS mode, `_ph_read_pm_ev` in EV mode,
`_ph_read_pm_evx` in EVX mode. With PAPI both are one `PAPI_read`, which stores
`npapi` values. -/
def phRead (b : Build) (npapi : ℕ) : Sampler where
  nread :=
    match b.evMode, b.api, b.arch with
    | .ts, _, _ => 0
    | _, .papi, _ => npapi
    | .ev, .phasm, _ => 4
    | .evx, .phasm, .x86 => 8
    | .evx, .phasm, .aarch64 => 12
  cyFromEv := false

/-- `phmpi_fastread`: `_ph_read_pm_<ph_nev>` in every mode. The switch stops at 12,
and on x86 the macros above 8 are empty. With PAPI every case is one `PAPI_read`,
which stores `npapi` values; the build then replaces `cy` by `ev[0]`. -/
def phmpiFastread (b : Build) (nev npapi : ℕ) : Sampler where
  nread :=
    match b.api, b.arch with
    | .papi, _ => if 0 < nev ∧ nev ≤ 12 then npapi else 0
    | .phasm, .x86 => if nev ≤ 8 then nev else 0
    | .phasm, .aarch64 => if nev ≤ 12 then nev else 0
  cyFromEv := b.api == .papi

end Sampler

/-- The part of a row that its own sampling determined. -/
structure Reading where
  gid : U32
  pid : U32
  /-- `none` when the row's cycle came from an `ev` slot no sampling wrote. -/
  cy : Option U64
  ns : U64
  uval : Double
  /-- The event columns the sampling wrote. -/
  ev : List U64
  deriving DecidableEq, Repr

/-- Forget the columns of a row that a sampling of `p` does not write. -/
def Row.reading (p : Sampler) (r : Row) : Reading where
  gid := r.gid
  pid := r.pid
  cy := if p.cyFromEv && p.nread == 0 then none else some r.cy
  ns := r.ns
  uval := r.uval
  ev := r.ev.take p.nread

/-- The reading a call is due: its arguments and the values the hardware delivered. -/
def Sampler.reading (p : Sampler) (nev : ℕ) (m : Sample) (gid pid : U32) (uval : Double) :
    Reading where
  gid := gid
  pid := pid
  cy := if p.cyFromEv then (if p.nread = 0 then none else some (m.ev 0)) else some m.cy
  ns := m.ns
  uval := uval
  ev := (List.range (min p.nread nev)).map m.ev

/-- A printed record shows the reading of the sampling that filled it, whatever
the slot held before. -/
theorem Row.reading_ofRec_fill (p : Sampler) (nev : ℕ) (m : Sample) (gid pid : U32)
    (uval : Double) (old : Rec) :
    (Row.ofRec nev (p.fill m gid pid uval old)).reading p = p.reading nev m gid pid uval := by
  have hev : (((List.range nev).map fun j => if j < p.nread then m.ev j else old.ev j).take
      p.nread) = (List.range (min p.nread nev)).map m.ev := by
    rw [← List.map_take, List.take_range]
    apply List.map_congr_left
    intro j hj
    have hlt : j < p.nread := lt_of_lt_of_le (List.mem_range.mp hj) (min_le_left _ _)
    simp [hlt]
  have hcy : (if p.cyFromEv && p.nread == 0 then none
      else some (if p.cyFromEv then (if 0 < p.nread then m.ev 0 else old.ev 0) else m.cy)) =
      (if p.cyFromEv then (if p.nread = 0 then none else some (m.ev 0)) else some m.cy) := by
    cases p.cyFromEv with
    | false => simp
    | true =>
        by_cases hzero : p.nread = 0
        · simp [hzero]
        · simp [hzero, Nat.pos_of_ne_zero hzero]
  simp only [Row.reading, Row.ofRec, Sampler.fill, Sampler.reading, hev, hcy]

end PerfHound
