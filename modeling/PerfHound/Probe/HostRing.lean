/-
# The messages of `ph_mpi_mkhost`

The ranks create their host directories one after the other: rank 0 starts and sends a
message to rank 1; every other rank waits for the message of the rank below, does its part
and sends a message on, the last one back to rank 0, which waits for it. The tag of a
message is the rank of its sender. Rank 0 addresses its message to rank 1 in any case, the
others theirs to the next rank modulo the number of ranks.

An event lets one rank take its next step, and a send returns when its message has been
received, or at once when it is buffered. With two ranks or more both ways of addressing
agree (`message_eq`), and what is on its way follows from where the ranks are (`Inv`).
-/

import PerfHound.Lib.Messages
import PerfHound.Lib.Runs

namespace PerfHound

open Lib

namespace HostRing

/-- Where a rank is in `ph_mpi_mkhost`. -/
inductive Pc
  | /-- Another rank than 0, before `MPI_Recv`. -/
    recv
  | /-- Before `ph_io_mkhost`. -/
    mkhost
  | /-- Before `ph_io_wtrankmap`. -/
    wtrankmap
  | /-- Before `MPI_Send`. -/
    send
  | /-- In `MPI_Send`. -/
    sending
  | /-- Rank 0, before `MPI_Recv`. -/
    recvRing
  | returned
  deriving DecidableEq, Repr

/-- The ranks and the messages between them. -/
structure State where
  pc : ℕ → Pc
  net : Network ℕ

/-- Move one rank on. -/
def State.goto (s : State) (r : ℕ) (pc : Pc) : State :=
  { s with pc := Function.update s.pc r pc }

@[simp]
theorem State.goto_pc_self (s : State) (r : ℕ) (pc : Pc) : (s.goto r pc).pc r = pc :=
  Function.update_self ..

theorem State.goto_pc_of_ne (s : State) {r q : ℕ} (pc : Pc) (hne : q ≠ r) :
    (s.goto r pc).pc q = s.pc q :=
  Function.update_of_ne hne ..

variable (nrank : ℕ)

/-- The message a rank sends. -/
def message (myrank : ℕ) : Envelope :=
  if myrank = 0 then ⟨0, 1, 0⟩ else ⟨myrank, (myrank + 1) % nrank, myrank⟩

/-- The next step of one rank. A message to a rank that does not exist stays where it is; a
library that checks the rank aborts instead, which is how `RunDir` takes it. -/
def advance (s : State) (myrank : ℕ) (buffered : Bool) : Option State :=
  match s.pc myrank with
  | .recv =>
      (s.net.receive ⟨myrank - 1, myrank, myrank - 1⟩).map fun m =>
        { s.goto myrank .mkhost with net := m.2 }
  | .mkhost => some (s.goto myrank .wtrankmap)
  | .wtrankmap => some (s.goto myrank .send)
  | .send => some { s.goto myrank .sending with net := s.net.post (message nrank myrank) 0 }
  | .sending =>
      if buffered ∨ s.net.Delivered (message nrank myrank) then
        some (s.goto myrank (if myrank = 0 then .recvRing else .returned))
      else none
  | .recvRing =>
      (s.net.receive ⟨nrank - 1, 0, nrank - 1⟩).map fun m =>
        { s.goto myrank .returned with net := m.2 }
  | .returned => none

/-- A rank takes its next step. A send is buffered, or waits until it is received. -/
structure Event where
  rank : ℕ
  buffered : Bool
  deriving DecidableEq, Repr

def step (s : State) (e : Event) : Option State :=
  if e.rank < nrank then advance nrank s e.rank e.buffered else none

/-- All ranks at the entry. -/
def initial : State where
  pc := fun r => if r = 0 then .mkhost else .recv
  net := Network.empty

/-- In every run, messages are sent to ranks that exist, some rank can move without
buffering until all have returned, and no message is left then. -/
def Closes : Prop :=
  ∀ events s, Runs.run (step nrank) initial events = some s →
    (∀ e, s.net.queue e ≠ [] → e.dst < nrank) ∧
      ((∃ r < nrank, s.pc r ≠ .returned) → ∃ r < nrank, (step nrank s ⟨r, false⟩).isSome) ∧
      ((∀ r < nrank, s.pc r = .returned) → ∀ e, s.net.queue e = [])

/-! ## The ring of two or more ranks -/

/-- The rank that is sent a message. -/
def next (r : ℕ) : ℕ := (r + 1) % nrank

variable {nrank}

theorem next_lt (hn : 2 ≤ nrank) (r : ℕ) : next nrank r < nrank :=
  Nat.mod_lt _ (Nat.lt_of_lt_of_le Nat.two_pos hn)

theorem next_of_lt {r : ℕ} (h : r + 1 < nrank) : next nrank r = r + 1 := Nat.mod_eq_of_lt h

theorem next_last (hn : 2 ≤ nrank) : next nrank (nrank - 1) = 0 := by
  rw [next, Nat.sub_add_cancel (Nat.le_of_succ_le hn), Nat.mod_self]

/-- Every rank is the next one of a single other rank. -/
theorem next_injective (hn : 2 ≤ nrank) {r q : ℕ} (hr : r < nrank) (hq : q < nrank)
    (h : next nrank r = next nrank q) : r = q := by
  by_cases hr' : r + 1 < nrank
  · by_cases hq' : q + 1 < nrank
    · rw [next_of_lt hr', next_of_lt hq'] at h
      exact Nat.succ.inj h
    · obtain rfl : q = nrank - 1 := by omega
      rw [next_of_lt hr', next_last hn] at h
      exact absurd h (Nat.succ_ne_zero r)
  · obtain rfl : r = nrank - 1 := by omega
    by_cases hq' : q + 1 < nrank
    · rw [next_of_lt hq', next_last hn] at h
      exact absurd h.symm (Nat.succ_ne_zero q)
    · omega

/-- With two ranks or more, the message of rank 0 goes to the next rank as well. -/
theorem message_eq (hn : 2 ≤ nrank) (r : ℕ) : message nrank r = ⟨r, next nrank r, r⟩ := by
  by_cases hr : r = 0
  · subst hr
    rw [message, if_pos rfl, next_of_lt hn]
  · rw [message, if_neg hr, next]

namespace Pc

/-- Whether the rank has sent its message. -/
def sent : Pc → Bool
  | .sending => true
  | .recvRing => true
  | .returned => true
  | _ => false

/-- Whether rank `r` has received the message to it. -/
def took (r : ℕ) (pc : Pc) : Bool :=
  if r = 0 then pc = .returned else pc ≠ .recv

end Pc

/-- The states a rank can be in: only rank 0 closes the ring, and it starts it. -/
def Fits (r : ℕ) (pc : Pc) : Prop := (r = 0 → pc ≠ .recv) ∧ (r ≠ 0 → pc ≠ .recvRing)

/-- What holds in every state of a run. -/
structure Inv (nrank : ℕ) (s : State) : Prop where
  fits : ∀ r < nrank, Fits r (s.pc r)
  /-- A message is on its way from when it is sent until it is received. -/
  queue : ∀ r < nrank, s.net.queue (message nrank r) =
    if (s.pc r).sent ∧ ¬ (s.pc (next nrank r)).took (next nrank r) then [0] else []
  took : ∀ r < nrank, (s.pc (next nrank r)).took (next nrank r) → (s.pc r).sent
  silent : ∀ e, (∀ r < nrank, e ≠ message nrank r) → s.net.queue e = []

/-- What a rank does at its program counter. -/
inductive Effect (nrank : ℕ) (s t : State) (r : ℕ) : Prop
  | quiet (pc : Pc) (hfits : Fits r pc) (hsent : pc.sent = (s.pc r).sent)
      (htook : pc.took r = (s.pc r).took r) (ht : t = s.goto r pc)
  | post (hpc : s.pc r = .send)
      (ht : t = { s.goto r .sending with net := s.net.post (message nrank r) 0 })
  | take (q m : ℕ) (net : Network ℕ) (pc : Pc) (hq : q < nrank) (hnext : next nrank q = r)
      (hreceive : s.net.receive (message nrank q) = some (m, net)) (hfits : Fits r pc)
      (hsent : pc.sent = (s.pc r).sent) (hwaits : (s.pc r).took r = false)
      (htook : pc.took r = true) (ht : t = { s.goto r pc with net := net })

/-- The inversion lemma of `advance`. -/
theorem advance_effect (hn : 2 ≤ nrank) {s t : State} {r : ℕ} {buffered : Bool} (hr : r < nrank)
    (hfits : Fits r (s.pc r)) (hstep : advance nrank s r buffered = some t) :
    Effect nrank s t r := by
  cases hpc : s.pc r with
  | recv =>
      have hpos : r ≠ 0 := fun hzero => hfits.1 hzero hpc
      have hnext : next nrank (r - 1) = r := by
        rw [next_of_lt (by omega)]
        omega
      simp only [advance, hpc, Option.map_eq_some_iff] at hstep
      obtain ⟨⟨m, net⟩, hreceive, rfl⟩ := hstep
      refine .take (r - 1) m net .mkhost (by omega) hnext ?_ ?_ ?_ ?_ ?_ rfl
      · rw [message_eq hn, hnext]
        exact hreceive
      · simp [Fits]
      · rw [hpc]
        rfl
      · simp [hpc, Pc.took, hpos]
      · simp [Pc.took, hpos]
  | mkhost =>
      simp only [advance, hpc, Option.some.injEq] at hstep
      refine .quiet .wtrankmap ?_ ?_ ?_ hstep.symm
      · simp [Fits]
      · rw [hpc]
        rfl
      · simp [hpc, Pc.took]
  | wtrankmap =>
      simp only [advance, hpc, Option.some.injEq] at hstep
      refine .quiet .send ?_ ?_ ?_ hstep.symm
      · simp [Fits]
      · rw [hpc]
        rfl
      · simp [hpc, Pc.took]
  | send =>
      simp only [advance, hpc, Option.some.injEq] at hstep
      exact .post hpc hstep.symm
  | sending =>
      simp only [advance, hpc, Option.ite_none_right_eq_some, Option.some.injEq] at hstep
      refine .quiet _ ?_ ?_ ?_ hstep.2.symm
      · by_cases hzero : r = 0
        · simp [Fits, hzero]
        · simp [Fits, hzero]
      · rw [hpc]
        split <;> rfl
      · rw [hpc]
        by_cases hzero : r = 0
        · simp [hzero, Pc.took]
        · simp [hzero, Pc.took]
  | recvRing =>
      obtain rfl : r = 0 := by
        by_contra hne
        exact hfits.2 hne hpc
      simp only [advance, hpc, Option.map_eq_some_iff] at hstep
      obtain ⟨⟨m, net⟩, hreceive, rfl⟩ := hstep
      refine .take (nrank - 1) m net .returned (by omega) (next_last hn) ?_ ?_ ?_ ?_ ?_ rfl
      · rw [message_eq hn, next_last hn]
        exact hreceive
      · simp [Fits]
      · rw [hpc]
        rfl
      · simp [hpc, Pc.took]
      · simp [Pc.took]
  | returned => simp [advance, hpc] at hstep

theorem message_injective (hn : 2 ≤ nrank) {r q : ℕ} (h : message nrank r = message nrank q) :
    r = q := by
  rw [message_eq hn, message_eq hn] at h
  exact (Envelope.mk.inj h).1

theorem inv_initial : Inv nrank initial := by
  have hsent : ∀ r, (initial.pc r).sent = false := by
    intro r
    simp only [initial]
    split <;> rfl
  have htook : ∀ r, (initial.pc r).took r = false := by
    intro r
    by_cases hzero : r = 0
    · simp [initial, Pc.took, hzero]
    · simp [initial, Pc.took, hzero]
  constructor
  case fits =>
      intro r _
      by_cases hzero : r = 0
      · simp [initial, Fits, hzero]
      · simp [initial, Fits, hzero]
  case queue =>
      intro r _
      rw [hsent r]
      rfl
  case took =>
      intro r _ h
      rw [htook] at h
      cases h
  case silent => exact fun _ _ => rfl

/-- A move that neither sends nor receives keeps the invariant. -/
theorem inv_quiet {s : State} {r : ℕ} {pc : Pc} (hs : Inv nrank s) (hfits : Fits r pc)
    (hsent : pc.sent = (s.pc r).sent) (htook : pc.took r = (s.pc r).took r) :
    Inv nrank (s.goto r pc) := by
  have hsent' : ∀ q, ((s.goto r pc).pc q).sent = (s.pc q).sent := by
    intro q
    by_cases hq : q = r
    · rw [hq, State.goto_pc_self, hsent]
    · rw [State.goto_pc_of_ne _ _ hq]
  have htook' : ∀ q, ((s.goto r pc).pc q).took q = (s.pc q).took q := by
    intro q
    by_cases hq : q = r
    · rw [hq, State.goto_pc_self, htook]
    · rw [State.goto_pc_of_ne _ _ hq]
  constructor
  case fits =>
      intro q hq
      by_cases heq : q = r
      · rwa [heq, State.goto_pc_self]
      · rw [State.goto_pc_of_ne _ _ heq]
        exact hs.fits q hq
  case queue =>
      intro q hq
      rw [hsent', htook']
      exact hs.queue q hq
  case took =>
      intro q hq
      rw [hsent', htook']
      exact hs.took q hq
  case silent => exact hs.silent

/-- Sending the message keeps the invariant: nobody has received it before. -/
theorem inv_post (hn : 2 ≤ nrank) {s t : State} {r : ℕ} (hs : Inv nrank s) (hr : r < nrank)
    (hpc : s.pc r = .send)
    (ht : t = { s.goto r .sending with net := s.net.post (message nrank r) 0 }) :
    Inv nrank t := by
  have hto : t.pc r = .sending := by rw [ht]; exact Function.update_self ..
  have hother : ∀ q, q ≠ r → t.pc q = s.pc q := fun q hq => by
    rw [ht]
    exact Function.update_of_ne hq ..
  have htook : ∀ q, (t.pc q).took q = (s.pc q).took q := by
    intro q
    by_cases hq : q = r
    · rw [hq, hto, hpc]
      simp [Pc.took]
    · rw [hother q hq]
  have hwaits : (s.pc (next nrank r)).took (next nrank r) = false := by
    by_contra hdone
    have hsent := hs.took r hr (by simpa using hdone)
    rw [hpc] at hsent
    cases hsent
  constructor
  case fits =>
      intro q hq
      by_cases heq : q = r
      · rw [heq, hto]
        simp [Fits]
      · rw [hother q heq]
        exact hs.fits q hq
  case queue =>
      intro q hq
      rw [htook]
      by_cases heq : q = r
      · subst heq
        have hempty := hs.queue q hq
        rw [hpc] at hempty
        rw [hto, hwaits, ht]
        show (s.net.post (message nrank q) 0).queue (message nrank q) = [0]
        rw [Network.queue_post_self, hempty]
        rfl
      · rw [hother q heq, ht]
        show (s.net.post (message nrank r) 0).queue (message nrank q) = _
        rw [Network.queue_post_of_ne fun h => heq (message_injective hn h)]
        exact hs.queue q hq
  case took =>
      intro q hq hdone
      rw [htook] at hdone
      by_cases heq : q = r
      · rw [heq, hto]
        rfl
      · rw [hother q heq]
        exact hs.took q hq hdone
  case silent =>
      intro e he
      rw [ht]
      show (s.net.post (message nrank r) 0).queue e = []
      rw [Network.queue_post_of_ne (he r hr)]
      exact hs.silent e he

/-- Receiving a message keeps the invariant. -/
theorem inv_take (hn : 2 ≤ nrank) {s t : State} {r q m : ℕ} {net : Network ℕ} {pc : Pc}
    (hs : Inv nrank s) (hq : q < nrank) (hnext : next nrank q = r)
    (hreceive : s.net.receive (message nrank q) = some (m, net)) (hfits : Fits r pc)
    (hsent : pc.sent = (s.pc r).sent) (hwaits : (s.pc r).took r = false)
    (htook : pc.took r = true) (ht : t = { s.goto r pc with net := net }) : Inv nrank t := by
  obtain ⟨hqueue, hchannels⟩ := Network.of_receive hreceive
  have hto : t.pc r = pc := by rw [ht]; exact Function.update_self ..
  have hnet : t.net = net := by rw [ht]
  have hother : ∀ p, p ≠ r → t.pc p = s.pc p := fun p hp => by
    rw [ht]
    exact Function.update_of_ne hp ..
  have hsent' : ∀ p, (t.pc p).sent = (s.pc p).sent := by
    intro p
    by_cases hp : p = r
    · rw [hp, hto, hsent]
    · rw [hother p hp]
  -- the message had been sent, and is now received
  have hpending := hs.queue q hq
  rw [hnext, hwaits, hqueue] at hpending
  have hq_sent : (s.pc q).sent = true := by
    by_contra hnot
    rw [if_neg (by simp [hnot])] at hpending
    cases hpending
  rw [if_pos (by simp [hq_sent])] at hpending
  have hrest : net.queue (message nrank q) = [] := (List.cons.inj hpending).2
  constructor
  case fits =>
      intro p hp
      by_cases heq : p = r
      · rwa [heq, hto]
      · rw [hother p heq]
        exact hs.fits p hp
  case queue =>
      intro p hp
      rw [hsent', hnet]
      by_cases heq : p = q
      · rw [heq, hnext, hto, htook, hrest]
        simp
      · have hne : next nrank p ≠ r := fun h => heq (next_injective hn hp hq (h.trans hnext.symm))
        rw [hother _ hne, hchannels _ fun h => heq (message_injective hn h)]
        exact hs.queue p hp
  case took =>
      intro p hp hdone
      rw [hsent']
      by_cases heq : p = q
      · rw [heq]
        exact hq_sent
      · have hne : next nrank p ≠ r := fun h => heq (next_injective hn hp hq (h.trans hnext.symm))
        rw [hother _ hne] at hdone
        exact hs.took p hp hdone
  case silent =>
      intro e he
      rw [hnet, hchannels e (he q hq)]
      exact hs.silent e he

/-- The step lemma. -/
theorem inv_step (hn : 2 ≤ nrank) {s t : State} {e : Event} (hs : Inv nrank s)
    (hstep : step nrank s e = some t) : Inv nrank t := by
  simp only [step, Option.ite_none_right_eq_some] at hstep
  obtain ⟨hrank, hstep⟩ := hstep
  cases advance_effect hn hrank (hs.fits _ hrank) hstep with
  | quiet pc hfits hsent htook ht =>
      rw [ht]
      exact inv_quiet hs hfits hsent htook
  | post hpc ht => exact inv_post hn hs hrank hpc ht
  | take q m net pc hq hnext hreceive hfits hsent hwaits htook ht =>
      exact inv_take hn hs hq hnext hreceive hfits hsent hwaits htook ht

theorem inv_run (hn : 2 ≤ nrank) {events : List Event} {s : State}
    (hrun : Runs.run (step nrank) initial events = some s) : Inv nrank s :=
  Runs.run_invariant (Inv nrank) (fun _ => True) (fun _ _ _ hs _ hone => inv_step hn hs hone)
    events _ s inv_initial (fun _ _ => trivial) hrun

/-! ## Progress -/

/-- The rank has a next step that needs no buffering. -/
def Enabled (nrank : ℕ) (s : State) (r : ℕ) : Prop := (step nrank s ⟨r, false⟩).isSome

theorem enabled_of_advance {s : State} {r : ℕ} (hrank : r < nrank)
    (h : (advance nrank s r false).isSome) : Enabled nrank s r := by
  rwa [Enabled, step, if_pos hrank]

/-- A rank whose message has been received returns from its send. -/
theorem enabled_of_delivered {s : State} {r : ℕ} (hr : r < nrank) (hpc : s.pc r = .sending)
    (h : s.net.Delivered (message nrank r)) : Enabled nrank s r := by
  apply enabled_of_advance hr
  simp only [advance, hpc, h, or_true, if_true, Option.isSome_some]

/-- A rank that waits for a message which is under way receives it. -/
theorem enabled_of_sent (hn : 2 ≤ nrank) {s : State} {r : ℕ} (hr : r < nrank)
    (hsent : ¬ s.net.Delivered (message nrank r))
    (hpc : s.pc (next nrank r) = .recv ∧ next nrank r ≠ 0 ∨
      s.pc (next nrank r) = .recvRing ∧ next nrank r = 0) :
    Enabled nrank s (next nrank r) := by
  obtain ⟨m, net, hreceive⟩ := Network.exists_receive hsent
  rw [message_eq hn] at hreceive
  apply enabled_of_advance (next_lt hn r)
  rcases hpc with ⟨hpc, hnext⟩ | ⟨hpc, hnext⟩
  · have hlt : r + 1 < nrank := by
      by_contra hlast
      obtain rfl : r = nrank - 1 := by omega
      exact hnext (next_last hn)
    rw [next_of_lt hlt] at hpc hreceive ⊢
    simp only [advance, hpc, Nat.add_sub_cancel, hreceive, Option.map_some, Option.isSome_some]
  · have hlast : r = nrank - 1 := by
      by_contra hne
      rw [next_of_lt (by omega)] at hnext
      exact Nat.succ_ne_zero r hnext
    rw [hnext, hlast] at hreceive
    rw [hnext] at hpc ⊢
    simp only [advance, hpc, hreceive, Option.map_some, Option.isSome_some]

/-- A rank between its receive and its send can move. -/
theorem enabled_of_busy {s : State} {r : ℕ} (hr : r < nrank)
    (hpc : s.pc r = .mkhost ∨ s.pc r = .wtrankmap ∨ s.pc r = .send) : Enabled nrank s r := by
  apply enabled_of_advance hr
  rcases hpc with hpc | hpc | hpc
  · simp only [advance, hpc, Option.isSome_some]
  · simp only [advance, hpc, Option.isSome_some]
  · simp only [advance, hpc, Option.isSome_some]

theorem took_of_delivered {s : State} (hs : Inv nrank s) {r : ℕ} (hr : r < nrank)
    (hsent : (s.pc r).sent = true) (h : s.net.Delivered (message nrank r)) :
    (s.pc (next nrank r)).took (next nrank r) = true := by
  by_contra hwaits
  have hqueue := hs.queue r hr
  rw [if_pos ⟨hsent, hwaits⟩, h] at hqueue
  cases hqueue

theorem waits_of_pending {s : State} (hs : Inv nrank s) {r : ℕ} (hr : r < nrank)
    (h : ¬ s.net.Delivered (message nrank r)) :
    ¬ (s.pc (next nrank r)).took (next nrank r) = true := by
  intro htook
  apply h
  rw [Network.Delivered, hs.queue r hr, if_neg fun hpending => hpending.2 htook]

/-- Where no rank can move, every message has been received. -/
theorem delivered_of_stuck (hn : 2 ≤ nrank) {s : State} (hs : Inv nrank s)
    (hstuck : ∀ q < nrank, ¬ Enabled nrank s q) {r : ℕ} (hr : r < nrank) :
    s.net.Delivered (message nrank r) := by
  have hup : ∀ q, q + 1 < nrank → s.net.Delivered (message nrank q) := by
    intro q hq
    by_contra hpending
    have hlt : q < nrank := Nat.lt_of_succ_lt hq
    have hwaits := waits_of_pending hs hlt hpending
    apply hstuck (next nrank q) (next_lt hn q)
    refine enabled_of_sent hn hlt hpending (Or.inl ⟨?_, ?_⟩)
    · rw [next_of_lt hq] at hwaits ⊢
      simpa [Pc.took] using hwaits
    · rw [next_of_lt hq]
      exact Nat.succ_ne_zero q
  by_cases hlt : r + 1 < nrank
  · exact hup r hlt
  · -- the message that closes the ring
    by_contra hpending
    have hnext : next nrank r = 0 := by
      obtain rfl : r = nrank - 1 := by omega
      exact next_last hn
    have hwaits := waits_of_pending hs hr hpending
    have hzero : 0 < nrank := Nat.lt_of_lt_of_le Nat.two_pos hn
    rw [hnext] at hwaits
    have hring : s.pc 0 = .recvRing := by
      cases hpc : s.pc 0 with
      | recv => exact absurd hpc ((hs.fits 0 hzero).1 rfl)
      | mkhost => exact absurd (enabled_of_busy hzero (Or.inl hpc)) (hstuck 0 hzero)
      | wtrankmap => exact absurd (enabled_of_busy hzero (Or.inr (Or.inl hpc))) (hstuck 0 hzero)
      | send => exact absurd (enabled_of_busy hzero (Or.inr (Or.inr hpc))) (hstuck 0 hzero)
      | sending => exact absurd (enabled_of_delivered hzero hpc (hup 0 hn)) (hstuck 0 hzero)
      | recvRing => rfl
      | returned => simp [Pc.took, hpc] at hwaits
    apply hstuck (next nrank r) (next_lt hn r)
    exact enabled_of_sent hn hr hpending (Or.inr ⟨by rw [hnext, hring], hnext⟩)

/-- Where no rank can move, every rank has sent its message: rank 0 has, and whoever
receives a message goes on to send one. -/
theorem sent_of_stuck (hn : 2 ≤ nrank) {s : State} (hs : Inv nrank s)
    (hstuck : ∀ q < nrank, ¬ Enabled nrank s q) : ∀ r < nrank, (s.pc r).sent = true := by
  have hbusy : ∀ r < nrank, s.pc r ≠ .recv → (s.pc r).sent = true := by
    intro r hr hrecv
    cases hpc : s.pc r with
    | recv => exact absurd hpc hrecv
    | mkhost => exact absurd (enabled_of_busy hr (Or.inl hpc)) (hstuck r hr)
    | wtrankmap => exact absurd (enabled_of_busy hr (Or.inr (Or.inl hpc))) (hstuck r hr)
    | send => exact absurd (enabled_of_busy hr (Or.inr (Or.inr hpc))) (hstuck r hr)
    | sending => rfl
    | recvRing => rfl
    | returned => rfl
  intro r
  induction r with
  | zero => exact fun hr => hbusy 0 hr ((hs.fits 0 hr).1 rfl)
  | succ r ih =>
      intro hr
      have hlt : r < nrank := Nat.lt_of_succ_lt hr
      have htook := took_of_delivered hs hlt (ih hlt) (delivered_of_stuck hn hs hstuck hlt)
      apply hbusy (r + 1) hr
      rw [next_of_lt hr] at htook
      simpa [Pc.took] using htook

/-- While some rank has not returned, some rank can move. -/
theorem exists_enabled (hn : 2 ≤ nrank) {s : State} (hs : Inv nrank s) {r : ℕ} (hr : r < nrank)
    (hunfinished : s.pc r ≠ .returned) : ∃ q < nrank, Enabled nrank s q := by
  by_contra hnone
  have hstuck : ∀ q < nrank, ¬ Enabled nrank s q := fun q hq h => hnone ⟨q, hq, h⟩
  have hsent := sent_of_stuck hn hs hstuck
  by_cases hzero : r = 0
  · -- rank 0 has received the message of the last rank
    subst hzero
    have hlast : nrank - 1 < nrank := by omega
    have htook := took_of_delivered hs hlast (hsent _ hlast)
      (delivered_of_stuck hn hs hstuck hlast)
    rw [next_last hn] at htook
    exact hunfinished (by simpa [Pc.took] using htook)
  · have hr_sent := hsent r hr
    cases hpc : s.pc r with
    | sending =>
        exact hstuck r hr (enabled_of_delivered hr hpc (delivered_of_stuck hn hs hstuck hr))
    | recvRing => exact (hs.fits r hr).2 hzero hpc
    | returned => exact hunfinished hpc
    | _ =>
        rw [hpc] at hr_sent
        cases hr_sent

/-- Messages are sent to ranks that exist. -/
theorem dst_lt (hn : 2 ≤ nrank) {s : State} (hs : Inv nrank s) {e : Envelope}
    (he : s.net.queue e ≠ []) : e.dst < nrank := by
  by_contra hnot
  apply he
  apply hs.silent
  rintro r - rfl
  rw [message_eq hn] at hnot
  exact hnot (next_lt hn r)

/-- Once all ranks have returned, every message has been received. -/
theorem silent_of_returned (hn : 2 ≤ nrank) {s : State} (hs : Inv nrank s)
    (hreturned : ∀ r < nrank, s.pc r = .returned) (e : Envelope) : s.net.queue e = [] := by
  by_cases hmessage : ∃ r < nrank, e = message nrank r
  · obtain ⟨r, hr, rfl⟩ := hmessage
    rw [hs.queue r hr, hreturned _ (next_lt hn r)]
    apply if_neg
    simp [Pc.took]
  · exact hs.silent e fun r hr heq => hmessage ⟨r, hr, heq⟩

/-- Alone, rank 0 sends its message to rank 1. -/
theorem not_closes_one : ¬ Closes 1 := by
  intro h
  have hdst := (h (List.replicate 3 ⟨0, false⟩) _ rfl).1 ⟨0, 1, 0⟩ (by decide)
  exact Nat.lt_irrefl 1 hdst

/-- **The ring of the host set-up.** All its messages find a receiver, and no rank is left
waiting, exactly when there is more than one rank. -/
theorem closes_iff (hn : 1 ≤ nrank) : Closes nrank ↔ nrank ≠ 1 := by
  constructor
  · rintro h rfl
    exact not_closes_one h
  · intro hne events s hrun
    have htwo : 2 ≤ nrank := Nat.lt_of_le_of_ne hn (Ne.symm hne)
    have hs := inv_run htwo hrun
    refine ⟨fun e => dst_lt htwo hs, ?_, silent_of_returned htwo hs⟩
    rintro ⟨r, hr, hunfinished⟩
    exact exists_enabled htwo hs hr hunfinished

theorem two_ranks_close : Closes 2 := (closes_iff (by decide)).mpr (by decide)

/-- The single rank of a job addresses rank 1, and does not return from its send. -/
theorem single_rank_blocks :
    ∃ s, Runs.run (step 1) initial (List.replicate 3 ⟨0, false⟩) = some s ∧
      s.net.queue ⟨0, 1, 0⟩ = [0] ∧ step 1 s ⟨0, false⟩ = none ∧ ¬ Closes 1 :=
  ⟨_, rfl, by decide, rfl, not_closes_one⟩

end HostRing

end PerfHound
