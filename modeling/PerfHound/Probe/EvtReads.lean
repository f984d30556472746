/-
# What the event parser reads

The parser once more, with every access to the string and to the table of unit masks
checked: a read behind the terminating NUL or behind the end of the table has no result,
and neither has the scan of the mode letters when its fuel runs out. `strncasecmp` reads
both strings up to the first difference or NUL; `strtoull` reads what it takes.

On every string the checked parser returns what the parser returns.
-/

import PerfHound.Probe.EvtGrammar

namespace PerfHound

open Lib CText

namespace EvtX86

/-! ## Checked accesses -/

/-- `s[n]`, a character of the string or its NUL. -/
def readAt (s : List Char) (n : ℕ) : Option Char :=
  if n ≤ s.length then some (charAt s n) else none

/-- `s += n`. -/
def moveBy (s : List Char) (n : ℕ) : Option (List Char) :=
  if n ≤ s.length then some (s.drop n) else none

/-- `strncasecmp(s + i, t + i, n)`. -/
def strncasecmpAt (s t : List Char) (i : ℕ) : ℕ → Option Int
  | 0 => some 0
  | n + 1 => do
      let a := tolower (← readAt s i)
      let b := tolower (← readAt t i)
      if a ≠ b then return (a.toNat : Int) - b.toNat
      else if a = nul then return 0
      else strncasecmpAt s t (i + 1) n

/-! ## The parser -/

def parseEdgeAt (s : List Char) : Option (U64 × List Char) := do
  if (← readAt s 0) == '*' then return (1, ← moveBy s 1) else return (0, s)

/-- The loop over the event table. -/
def findEventAt (s : List Char) : List PhEvent → Option (Option PhEvent)
  | [] => some none
  | e :: rows => do
      if (← strncasecmpAt s e.name.toList 0 e.name.length) == 0 then
        if (← readAt s e.name.length) == '.' then return some e
        else findEventAt s rows
      else findEventAt s rows

def parseEventAt (s : List Char) : Option (Option (PhEvent × List Char)) := do
  match ← findEventAt s eventList with
  | some e => return some (e, ← moveBy s (e.name.length + 1))
  | none =>
      let (evtNum, s) := strtoull s
      if (← readAt s 0) ≠ '.' ∨ evtNum > 0xFF then return none
      else
        match eventList.find? fun e => e.evtNum == evtNum with
        | none => return none
        | some e => return some (e, ← moveBy s 1)

/-- The test behind a unit mask at `s + n`. -/
def umaskEndsAt (s : List Char) (n : ℕ) : Option Bool := do
  if (← readAt s n) == nul then return true
  else if (← readAt s n) == '<' then return true
  else if (← readAt s n) == '>' then
    if (← readAt s (n + 1)) == '=' then return true else return (← readAt s n) == ':'
  else return (← readAt s n) == ':'

/-- The loop over the unit masks, from a place of the table on up to a row without a name. -/
def findUmaskAt (s : List Char) : List PhUmask → Option (Option PhUmask)
  | [] => none
  | u :: rows =>
      match u.name with
      | none => some none
      | some name => do
          if (← strncasecmpAt s name.toList 0 name.toList.length) == 0 then
            if ← umaskEndsAt s name.toList.length then return some u
            else findUmaskAt s rows
          else findUmaskAt s rows

def parseUmaskAt (e : PhEvent) (s : List Char) : Option (Option (U64 × List Char)) := do
  match ← findUmaskAt s (umaskList.drop e.umasks) with
  | some u => return some (u.umaskVal, ← moveBy s u.chars.length)
  | none =>
      let (umaskVal, s) := strtoull s
      if umaskVal > 0xFF then return none
      else if ← umaskEndsAt s 0 then return some (umaskVal, s)
      else return none

def parseThresholdAt (s : List Char) : Option (U64 × U64 × List Char) := do
  let less (s : List Char) : Option (U64 × U64 × List Char) := do
    if (← readAt s 0) == '<' then
      if isdigit (← readAt s 1) then
        let (n, s) := strtoull (← moveBy s 1)
        return (1, n &&& 0xFF, s)
      else return (0, 0, s)
    else return (0, 0, s)
  if (← readAt s 0) == '>' then
    if (← readAt s 1) == '=' then
      if isdigit (← readAt s 2) then
        let (n, s) := strtoull (← moveBy s 2)
        return (0, n &&& 0xFF, s)
      else less s
    else less s
  else less s

/-- The mode letters from `s + i` on. -/
def scanModesAt (s : List Char) : ℕ → ℕ → Modes → Option Modes
  | 0, _, _ => none
  | fuel + 1, i, m => do
      let c ← readAt s i
      if c = 'A' ∨ c = 'a' then scanModesAt s fuel (i + 1) { m with anythread := 1 }
      else if c = 'U' ∨ c = 'u' then scanModesAt s fuel (i + 1) { m with user := 1 }
      else if c = 'K' ∨ c = 'k' then scanModesAt s fuel (i + 1) { m with os := 1 }
      else return m

def parseModesAt (fuel : ℕ) (s : List Char) : Option Modes := do
  if (← readAt s 0) == ':' then scanModesAt s fuel 1 ⟨0, 0, 0⟩ else return ⟨0, 1, 0⟩

/-- `ph_pmu_parse_cfg` with checked accesses. -/
def phPmuParseCfgAt (fuel : ℕ) (s : List Char) : Option U64 := do
  if (← readAt s 0) == nul then return 0
  else
    let (edgeTriggered, s) ← parseEdgeAt s
    match ← parseEventAt s with
    | none => return 0
    | some (e, s) =>
        match ← parseUmaskAt e s with
        | none => return 0
        | some (umaskVal, s) =>
            let (inv, cmask, s) ← parseThresholdAt s
            let m ← parseModesAt fuel s
            return cfgWord cmask inv edgeTriggered umaskVal e.evtNum m

/-! ## No read is outside -/

variable {s : List Char} {n : ℕ}

theorem readAt_eq (h : n ≤ s.length) : readAt s n = some (charAt s n) := if_pos h

theorem moveBy_eq (h : n ≤ s.length) : moveBy s n = some (s.drop n) := if_pos h

/-- What is no NUL is a character of the string. -/
theorem lt_of_charAt {c : Char} (h : charAt s n = c) (hc : c ≠ nul) : n < s.length := by
  obtain ⟨w, hw⟩ := exists_of_charAt h hc
  by_contra hge
  rw [List.drop_eq_nil_of_le (Nat.le_of_not_lt hge)] at hw
  cases hw

theorem strncasecmpAt_eq {t : List Char} (n : ℕ) :
    ∀ {i : ℕ}, i ≤ s.length → i ≤ t.length →
      strncasecmpAt s t i n = some (strncasecmp (s.drop i) (t.drop i) n) := by
  induction n with
  | zero => intro i _ _; rfl
  | succ n ih =>
      intro i hs ht
      simp only [strncasecmpAt, readAt_eq hs, readAt_eq ht, strncasecmp, Option.bind_eq_bind,
        Option.bind_some, ← charAt_eq_drop]
      by_cases hne : tolower (charAt s i) ≠ tolower (charAt t i)
      · rw [if_pos hne, if_pos hne]
        rfl
      · rw [if_neg hne, if_neg hne]
        by_cases hnul : tolower (charAt s i) = nul
        · rw [if_pos hnul, if_pos hnul]
          rfl
        · have hs' : i < s.length := lt_of_charAt rfl fun h => hnul (by rw [h]; rfl)
          have ht' : i < t.length := lt_of_charAt rfl fun h => hnul (by
            rw [not_not.mp hne, h]
            rfl)
          rw [if_neg hnul, if_neg hnul, ih hs' ht', List.tail_drop, List.tail_drop]

/-- A name that is found ends within the string. -/
theorem length_le_of_strncasecmp {name : List Char} (hname : nul ∉ name)
    (h : strncasecmp s name name.length = 0) : name.length ≤ s.length := by
  have hlength := ((strncasecmp_eq_zero_iff hname s).mp h).length_eq
  rw [List.length_take] at hlength
  omega

theorem findEventAt_eq (s : List Char) (rows : List PhEvent)
    (hrows : ∀ e ∈ rows, e ∈ eventList) :
    findEventAt s rows = some (rows.find? fun e =>
      strncasecmp s e.name.toList e.name.length == 0 && charAt s e.name.length == '.') := by
  induction rows with
  | nil => rfl
  | cons e rows ih =>
      have hrest := ih fun e' he' => hrows e' (List.mem_cons_of_mem _ he')
      have hnul := nul_not_mem (wellNamed_event (hrows e List.mem_cons_self))
      have hcmp := strncasecmpAt_eq (s := s) (t := e.name.toList) e.name.length
        (Nat.zero_le _) (Nat.zero_le _)
      simp only [List.drop_zero] at hcmp
      simp only [findEventAt, hcmp, Option.bind_eq_bind, Option.bind_some, List.find?_cons, hrest]
      by_cases hzero : strncasecmp s e.name.toList e.name.length = 0
      · have hle : e.name.length ≤ s.length := by
          rw [← String.length_toList] at hzero ⊢
          exact length_le_of_strncasecmp hnul hzero
        rw [readAt_eq hle, beq_iff_eq.mpr hzero]
        simp only [if_true, Option.bind_some, Bool.true_and]
        cases charAt s e.name.length == '.' <;> rfl
      · rw [beq_eq_false_iff_ne.mpr hzero]
        rfl

theorem parseEdgeAt_eq (s : List Char) : parseEdgeAt s = some (parseEdge s) := by
  simp only [parseEdgeAt, parseEdge, readAt_eq (Nat.zero_le _), Option.bind_eq_bind,
    Option.bind_some]
  by_cases hstar : (charAt s 0 == '*') = true
  · have hlt := lt_of_charAt (beq_iff_eq.mp hstar) (by decide)
    rw [if_pos hstar, if_pos hstar, moveBy_eq hlt]
    rfl
  · rw [if_neg hstar, if_neg hstar]
    rfl

/-- Where a numeral ends is in the string. -/
theorem length_strtoull_le (s : List Char) : (strtoull s).2.length ≤ s.length := by
  obtain ⟨m, hm, -⟩ := strtoull_split s
  calc (strtoull s).2.length ≤ (m ++ (strtoull s).2).length := by
        rw [List.length_append]
        exact Nat.le_add_left _ _
    _ = s.length := by rw [← hm]

theorem parseEventAt_eq (s : List Char) : parseEventAt s = some (parseEvent s) := by
  have hsearch := findEventAt_eq s eventList fun e he => he
  simp only [parseEventAt, parseEvent, hsearch, Option.bind_eq_bind, Option.bind_some]
  cases hfind : eventList.find? fun e =>
      strncasecmp s e.name.toList e.name.length == 0 && charAt s e.name.length == '.' with
  | some e =>
      have hmatch := List.find?_some hfind
      rw [Bool.and_eq_true, beq_iff_eq, beq_iff_eq] at hmatch
      have hlt := lt_of_charAt hmatch.2 (by decide)
      simp only [moveBy_eq hlt]
      rfl
  | none =>
      simp only [readAt_eq (Nat.zero_le _), Option.bind_some]
      by_cases hbad : charAt (strtoull s).2 0 ≠ '.' ∨ (strtoull s).1 > 0xFF
      · rw [if_pos hbad, if_pos hbad]
        rfl
      · rw [if_neg hbad, if_neg hbad]
        rw [not_or, not_not] at hbad
        have hlt := lt_of_charAt hbad.1 (by decide)
        cases eventList.find? fun e => e.evtNum == (strtoull s).1 with
        | none => rfl
        | some e =>
            simp only [moveBy_eq hlt]
            rfl

theorem umaskEndsAt_eq (h : n ≤ s.length) : umaskEndsAt s n = some (umaskEnds (s.drop n)) := by
  have hat : charAt (s.drop n) 0 = charAt s n := (charAt_eq_drop s n).symm
  have hnext : charAt (s.drop n) 1 = charAt s (n + 1) := by
    rw [charAt_eq_drop, List.drop_drop, ← charAt_eq_drop]
  simp only [umaskEndsAt, umaskEnds, readAt_eq h, Option.bind_eq_bind, Option.bind_some, hat, hnext]
  cases hnul : charAt s n == nul
  case true => rfl
  cases hless : charAt s n == '<'
  case true => rfl
  cases hmore : charAt s n == '>'
  case false => rfl
  have hlt := lt_of_charAt (beq_iff_eq.mp hmore) (by decide)
  simp only [readAt_eq hlt, Option.bind_some]
  cases charAt s (n + 1) == '=' <;> rfl

theorem findUmaskAt_eq (s : List Char) {rows : List PhUmask}
    (hend : ∃ u ∈ rows, u.name = none)
    (hnames : ∀ u ∈ rows.takeWhile fun u => u.name.isSome, wellNamed u.chars = true) :
    findUmaskAt s rows = some ((rows.takeWhile fun u => u.name.isSome).find? fun u =>
      strncasecmp s u.chars u.chars.length == 0 && umaskEnds (s.drop u.chars.length)) := by
  induction rows with
  | nil =>
      obtain ⟨u, hu, -⟩ := hend
      exact absurd hu List.not_mem_nil
  | cons u rows ih =>
      cases hname : u.name with
      | none => simp only [findUmaskAt, List.takeWhile_cons, hname]; rfl
      | some name =>
          have hchars : u.chars = name.toList := by rw [PhUmask.chars, hname]; rfl
          simp only [List.takeWhile_cons, hname, Option.isSome_some, if_true, List.mem_cons,
            forall_eq_or_imp] at hnames
          have hrest := ih (by
            obtain ⟨v, hv, hvname⟩ := hend
            rcases List.mem_cons.mp hv with rfl | hv
            · rw [hname] at hvname
              cases hvname
            · exact ⟨v, hv, hvname⟩) hnames.2
          have hcmp := strncasecmpAt_eq (s := s) (t := name.toList) name.toList.length
            (Nat.zero_le _) (Nat.zero_le _)
          simp only [List.drop_zero] at hcmp
          simp only [findUmaskAt, hname, hcmp, Option.bind_eq_bind, Option.bind_some, hrest,
            List.takeWhile_cons, Option.isSome_some, if_true, List.find?_cons, hchars]
          by_cases hzero : strncasecmp s name.toList name.toList.length = 0
          · have hnul : nul ∉ name.toList := by
              rw [← hchars]
              exact nul_not_mem hnames.1
            rw [umaskEndsAt_eq (length_le_of_strncasecmp hnul hzero), beq_iff_eq.mpr hzero]
            simp only [if_true, Option.bind_some, Bool.true_and]
            cases umaskEnds (s.drop name.toList.length) <;> rfl
          · rw [beq_eq_false_iff_ne.mpr hzero]
            rfl

/-- The unit masks of every event end within the table. -/
theorem umasks_end :
    (eventList.all fun e => (umaskList.drop e.umasks).any fun u => u.name.isNone) = true := by
  decide +kernel

theorem parseUmaskAt_eq {e : PhEvent} (he : e ∈ eventList) (s : List Char) :
    parseUmaskAt e s = some (parseUmask e s) := by
  have hend : ∃ u ∈ umaskList.drop e.umasks, u.name = none := by
    obtain ⟨u, hu, hnone⟩ := List.any_eq_true.mp (List.all_eq_true.mp umasks_end e he)
    exact ⟨u, hu, Option.isNone_iff_eq_none.mp hnone⟩
  have hsearch := findUmaskAt_eq s hend fun u hu => wellNamed_umask he hu
  rw [← PhEvent.umaskRows] at hsearch
  simp only [parseUmaskAt, parseUmask, hsearch, Option.bind_eq_bind, Option.bind_some]
  cases hfind : e.umaskRows.find? fun u =>
      strncasecmp s u.chars u.chars.length == 0 && umaskEnds (s.drop u.chars.length) with
  | some u =>
      have hmatch := List.find?_some hfind
      rw [Bool.and_eq_true, beq_iff_eq] at hmatch
      have hnul := nul_not_mem (wellNamed_umask he (List.mem_of_find?_eq_some hfind))
      simp only [moveBy_eq (length_le_of_strncasecmp hnul hmatch.1)]
      rfl
  | none =>
      simp only [umaskEndsAt_eq (Nat.zero_le _), List.drop_zero]
      by_cases hbig : (strtoull s).1 > 0xFF
      · rw [if_pos hbig, if_pos (.inl hbig)]
        rfl
      · rw [if_neg hbig]
        cases hends : umaskEnds (strtoull s).2 with
        | true =>
            rw [if_neg (by rintro (h | h); exacts [hbig h, h rfl])]
            rfl
        | false =>
            rw [if_pos (.inr Bool.false_ne_true)]
            rfl

theorem parseThresholdAt_eq (s : List Char) : parseThresholdAt s = some (parseThreshold s) := by
  simp only [parseThresholdAt, parseThreshold, readAt_eq (Nat.zero_le _), Option.bind_eq_bind,
    Option.bind_some]
  cases hmore : charAt s 0 == '>' with
  | true =>
      have hlt := lt_of_charAt (beq_iff_eq.mp hmore) (by decide)
      have hless : (charAt s 0 == '<') = false := by
        rw [beq_iff_eq.mp hmore]
        decide
      simp only [hless, readAt_eq hlt, Option.bind_some, if_true]
      cases hequal : charAt s 1 == '=' with
      | true =>
          have hlt' := lt_of_charAt (beq_iff_eq.mp hequal) (by decide)
          simp only [readAt_eq hlt', moveBy_eq hlt', Option.bind_some, if_true]
          cases isdigit (charAt s 2) <;> rfl
      | false => rfl
  | false =>
      cases hless : charAt s 0 == '<' with
      | true =>
          have hlt := lt_of_charAt (beq_iff_eq.mp hless) (by decide)
          simp only [readAt_eq hlt, moveBy_eq hlt, Option.bind_some, if_true, Bool.false_and,
            Bool.true_and, Bool.false_eq_true, if_false]
          cases isdigit (charAt s 1) <;> rfl
      | false => rfl

theorem length_parseThreshold_le (s : List Char) : (parseThreshold s).2.2.length ≤ s.length := by
  have hread : ∀ k, (strtoull (s.drop k)).2.length ≤ s.length := by
    intro k
    apply Nat.le_trans (length_strtoull_le _)
    rw [List.length_drop]
    exact Nat.sub_le _ _
  unfold parseThreshold
  split
  · exact hread 2
  · split
    · exact hread 1
    · exact Nat.le_refl _

theorem scanModesAt_eq (s : List Char) :
    ∀ (fuel i : ℕ) (m : Modes), i ≤ s.length → s.length < fuel + i →
      scanModesAt s fuel i m = some (scanModes (s.drop i) m) := by
  intro fuel
  induction fuel with
  | zero => intro i m hi hfuel; omega
  | succ fuel ih =>
      intro i m hi hfuel
      simp only [scanModesAt, readAt_eq hi, Option.bind_eq_bind, Option.bind_some]
      rcases Nat.lt_or_ge i s.length with hlt | hge
      · have hdrop : s.drop i = charAt s i :: s.drop (i + 1) := by
          rw [List.drop_eq_getElem_cons hlt, charAt, List.getD_eq_getElem?_getD,
            List.getElem?_eq_getElem hlt, Option.getD_some]
        rw [hdrop, scanModes, ih _ _ hlt (by omega), ih _ _ hlt (by omega),
          ih _ _ hlt (by omega)]
        split
        · rfl
        · split
          · rfl
          · split <;> rfl
      · have hnil : s.drop i = [] := List.drop_eq_nil_of_le hge
        have hnul : charAt s i = nul := by
          rw [charAt_eq_drop, hnil]
          rfl
        rw [hnil, hnul]
        rfl

theorem parseModesAt_eq {fuel : ℕ} (hfuel : s.length ≤ fuel) :
    parseModesAt fuel s = some (parseModes s) := by
  simp only [parseModesAt, parseModes, readAt_eq (Nat.zero_le _), Option.bind_eq_bind,
    Option.bind_some]
  by_cases hcolon : (charAt s 0 == ':') = true
  · have hlt := lt_of_charAt (beq_iff_eq.mp hcolon) (by decide)
    rw [if_pos hcolon, if_pos hcolon, scanModesAt_eq s fuel 1 _ hlt (by omega)]
  · rw [if_neg hcolon, if_neg hcolon]
    rfl

/-- With as much fuel as the string has characters, the checked parser returns what the
parser returns. -/
theorem phPmuParseCfgAt_eq {fuel : ℕ} (hnul : nul ∉ s) (hfuel : s.length ≤ fuel) :
    phPmuParseCfgAt fuel s = some (phPmuParseCfg s) := by
  simp only [phPmuParseCfgAt, phPmuParseCfg, readAt_eq (Nat.zero_le _), Option.bind_eq_bind,
    Option.bind_some, parseEdgeAt_eq, parseEventAt_eq]
  have hempty : (charAt s 0 == nul) = s.isEmpty := by
    cases s with
    | nil => rfl
    | cons c w =>
        apply beq_eq_false_iff_ne.mpr
        rintro rfl
        exact hnul List.mem_cons_self
  rw [hempty]
  cases s.isEmpty with
  | true => rfl
  | false =>
      simp only [Bool.false_eq_true, if_false]
      cases hevent : parseEvent (parseEdge s).2 with
      | none => rfl
      | some found =>
          obtain ⟨e, r⟩ := found
          obtain ⟨he, ev, ht, -⟩ := parseEvent_split hevent
          simp only [parseUmaskAt_eq he, Option.bind_some]
          cases humask : parseUmask e r with
          | none => rfl
          | some value =>
              obtain ⟨v, rest⟩ := value
              obtain ⟨um, hr, -⟩ := parseUmask_split he humask
              obtain ⟨star, -, hs⟩ := parseEdge_split s
              have hlength : (parseThreshold rest).2.2.length ≤ fuel := by
                refine Nat.le_trans (length_parseThreshold_le rest) (Nat.le_trans ?_ hfuel)
                rw [hs, ht, hr]
                simp only [List.length_append, List.length_cons]
                omega
              simp only [parseThresholdAt_eq, parseModesAt_eq hlength, Option.bind_some]
              rfl

end EvtX86

end PerfHound
