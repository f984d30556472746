/-
# Gathering the intervals in `all.csv`

Every process of the interval tool goes through its own files and appends the intervals of
each to one file, `all.csv`. Before that the ranks tell each other how many files they
have, from the last rank down, so that each knows the count of the rank above it. Then, for
each file, a rank other than 0 waits for a token from the rank below, appends, and sends a
token on while the rank above has files left.

The model follows each rank from the exchange of the counts to the end of the main loop. An
event lets one rank take its next step. A send puts its message on its way in one step and
returns in another: when the message has been received, or at once when it is buffered,
which the event decides. So a run is any interleaving under any buffering.

What holds between a rank and the one above it (`Linked`) counts the tokens on their way.
They are never too few, so all ranks finish. But the token does not come back to rank 0,
which enters its next round while the others are still in the one before.
-/

import Mathlib.Algebra.BigOperators.Ring.Finset
import Mathlib.Algebra.Order.BigOperators.Group.Finset
import PerfHound.Lib.Messages
import PerfHound.Lib.Runs
import PerfHound.Utils.Distribution

namespace PerfHound

open Lib

namespace Gather

/-- Where a rank is in `calc_interval`. The argument is the loop variable. -/
inductive Pc
  | /-- Before the `MPI_Recv` of `nextjob`. -/
    askJob
  | /-- Before the `MPI_Send` of `myjob`. -/
    tellJob
  | /-- In the `MPI_Send` of `myjob`. -/
    tellingJob
  | /-- In `MPI_Barrier`. -/
    barrier
  | /-- At the test of the main loop. -/
    loop (i : ℕ)
  | /-- Before the `MPI_Recv` of the token: the file has been read. -/
    await (i : ℕ)
  | /-- Before `all.csv` is opened for append. -/
    fopen (i : ℕ)
  | /-- Between opening `all.csv` and closing it. -/
    writing (i : ℕ)
  | /-- Before the test of `nextjob`. -/
    pass (i : ℕ)
  | /-- In the `MPI_Send` of the token. -/
    passing (i : ℕ)
  | done
  deriving DecidableEq, Repr

/-- Whether a rank has come to the barrier. -/
def Pc.arrived : Pc → Bool
  | .askJob => false
  | .tellJob => false
  | .tellingJob => false
  | _ => true

/-- The ranks and the messages between them. -/
structure State where
  pc : ℕ → Pc
  nextjob : ℕ → ℕ
  net : Network ℕ
  /-- How many tokens a rank has received. -/
  received : ℕ → ℕ

/-- Move one rank on. -/
def State.goto (s : State) (r : ℕ) (pc : Pc) : State :=
  { s with pc := Function.update s.pc r pc }

@[simp]
theorem State.goto_pc_self (s : State) (r : ℕ) (pc : Pc) : (s.goto r pc).pc r = pc :=
  Function.update_self ..

theorem State.goto_pc_of_ne (s : State) {r q : ℕ} (pc : Pc) (hne : q ≠ r) :
    (s.goto r pc).pc q = s.pc q :=
  Function.update_of_ne hne ..

/-- The barrier releases only when all ranks have come to it. -/
def State.released (np : ℕ) (s : State) : Bool :=
  (List.range np).all fun r => (s.pc r).arrived

variable (np : ℕ) (nf : ℕ → ℕ)

/-- The next step of one rank, where `nf` are the numbers of files. -/
def advance (s : State) (r : ℕ) (buffered : Bool) : Option State :=
  match s.pc r with
  | .askJob =>
      (s.net.receive ⟨r + 1, r, r⟩).map fun m =>
        { s.goto r (if r = 0 then .barrier else .tellJob) with
          nextjob := Function.update s.nextjob r m.1, net := m.2 }
  | .tellJob => some { s.goto r .tellingJob with net := s.net.post ⟨r, r - 1, r - 1⟩ (nf r) }
  | .tellingJob =>
      if buffered ∨ s.net.Delivered ⟨r, r - 1, r - 1⟩ then some (s.goto r .barrier) else none
  | .barrier => if s.released np then some (s.goto r (.loop 0)) else none
  | .loop i =>
      if i < nf r then some (s.goto r (if r = 0 then .fopen i else .await i))
      else some (s.goto r .done)
  | .await i =>
      (s.net.receive ⟨r - 1, r, r⟩).map fun m =>
        { s.goto r (.fopen i) with
          net := m.2, received := Function.update s.received r (s.received r + 1) }
  | .fopen i => some (s.goto r (.writing i))
  | .writing i => some (s.goto r (.pass i))
  | .pass i =>
      if r + 1 ≠ np ∧ s.nextjob r ≠ 0 then
        some { s.goto r (.passing i) with net := s.net.post ⟨r, r + 1, r + 1⟩ 0 }
      else some (s.goto r (.loop (i + 1)))
  | .passing i =>
      if buffered ∨ s.net.Delivered ⟨r, r + 1, r + 1⟩ then
        some { s.goto r (.loop (i + 1)) with
          nextjob := Function.update s.nextjob r (s.nextjob r - 1) }
      else none
  | .done => none

/-- A rank takes its next step. A send is buffered, or waits until it is received. -/
structure Event where
  rank : ℕ
  buffered : Bool
  deriving DecidableEq, Repr

def step (s : State) (e : Event) : Option State :=
  if e.rank < np then advance np nf s e.rank e.buffered else none

/-- All ranks before the exchange, with anything in `nextjob`. -/
def initial (nextjob : ℕ → ℕ) : State where
  pc := fun r => if r = 0 then .askJob else if r + 1 = np then .tellJob else .askJob
  nextjob := nextjob
  net := Network.empty
  received := fun _ => 0

/-- At most one rank has `all.csv` open. -/
def Exclusive (s : State) : Prop :=
  ∀ r r' i j, r < np → r' < np → s.pc r = .writing i → s.pc r' = .writing j → r = r'

/-! ## Counting tokens -/

namespace Pc

/-- Which states a rank can be in, with `n` files. -/
def Valid (np n r : ℕ) : Pc → Prop
  | .askJob => r + 1 < np
  | .tellJob => 0 < r
  | .tellingJob => 0 < r
  | .barrier => True
  | .loop i => i ≤ n
  | .await i => 0 < r ∧ i < n
  | .fopen i => i < n
  | .writing i => i < n
  | .pass i => i < n
  | .passing i => r + 1 < np ∧ i < n
  | .done => True

/-- Whether the rank has sent the number of its files. -/
def told : Pc → Bool
  | .askJob => false
  | .tellJob => false
  | _ => true

/-- The rounds of the main loop that are over. -/
def round (n : ℕ) : Pc → ℕ
  | .loop i => i
  | .await i => i
  | .fopen i => i
  | .writing i => i
  | .pass i => i
  | .passing i => i
  | .done => n
  | _ => 0

/-- The rounds whose token has been sent, if one was due. -/
def posted (n : ℕ) : Pc → ℕ
  | .passing i => i + 1
  | pc => pc.round n

/-- The rounds whose token has been received. -/
def taken (n : ℕ) : Pc → ℕ
  | .fopen i => i + 1
  | .writing i => i + 1
  | .pass i => i + 1
  | .passing i => i + 1
  | pc => pc.round n

/-- How many steps it takes at most to get here. -/
def pos (n : ℕ) : Pc → ℕ
  | .askJob => 0
  | .tellJob => 1
  | .tellingJob => 2
  | .barrier => 3
  | .loop i => 4 + 6 * i
  | .await i => 5 + 6 * i
  | .fopen i => 6 + 6 * i
  | .writing i => 7 + 6 * i
  | .pass i => 8 + 6 * i
  | .passing i => 9 + 6 * i
  | .done => 5 + 6 * n

theorem pos_le {n r : ℕ} {pc : Pc} (h : pc.Valid np n r) : pc.pos n ≤ 5 + 6 * n := by
  cases pc <;> simp only [Valid, pos] at h ⊢ <;> omega

end Pc

/-- What holds between a rank and the one above it. -/
structure Linked (nf : ℕ → ℕ) (s : State) (r : ℕ) : Prop where
  /-- Before it is received, the number of files is under way once it has been sent. -/
  asking : s.pc r = .askJob →
    s.net.queue ⟨r + 1, r, r⟩ = if (s.pc (r + 1)).told then [nf (r + 1)] else []
  /-- Afterwards, `nextjob` counts down to 0. -/
  asked : s.pc r ≠ .askJob →
    s.net.queue ⟨r + 1, r, r⟩ = [] ∧ (s.pc (r + 1)).told ∧
      s.nextjob r + min ((s.pc r).round (nf r)) (nf (r + 1)) = nf (r + 1)
  /-- A token is sent in each round, until there is one for each file. -/
  tokens : (s.net.queue ⟨r, r + 1, r + 1⟩).length + (s.pc (r + 1)).taken (nf (r + 1)) =
    min ((s.pc r).posted (nf r)) (nf (r + 1))
  due : ∀ i, s.pc r = .passing i → i < nf (r + 1)

/-- What holds in every state of a run. -/
structure Inv (s : State) : Prop where
  valid : ∀ r < np, (s.pc r).Valid np (nf r) r
  link : ∀ r, r + 1 < np → Linked nf s r
  received : ∀ r, 0 < r → r < np → s.received r = (s.pc r).taken (nf r)
  /-- There are no other channels. -/
  silent : ∀ e, (∀ r, r + 1 < np → e ≠ ⟨r + 1, r, r⟩ ∧ e ≠ ⟨r, r + 1, r + 1⟩) →
    s.net.queue e = []

variable {np nf}

/-! ## What a step does -/

/-- A move that neither sends nor receives nor ends a round. -/
structure Quiet (np n r : ℕ) (pc pc' : Pc) : Prop where
  valid : pc'.Valid np n r
  asked : pc ≠ .askJob ∧ pc' ≠ .askJob
  told : pc.told = true ∧ pc'.told = true
  round : pc'.round n = pc.round n
  posted : pc'.posted n = pc.posted n
  taken : 0 < r → pc'.taken n = pc.taken n
  notPassing : ∀ i, pc' ≠ .passing i
  pos : pc.pos n < pc'.pos n

/-- What a rank does at its program counter. -/
inductive Effect (np : ℕ) (nf : ℕ → ℕ) (s t : State) (r : ℕ) : Prop
  | ask (n : ℕ) (net : Network ℕ) (hpc : s.pc r = .askJob)
      (hreceive : s.net.receive ⟨r + 1, r, r⟩ = some (n, net))
      (ht : t = { s.goto r (if r = 0 then .barrier else .tellJob) with
        nextjob := Function.update s.nextjob r n, net := net })
  | tell (hpc : s.pc r = .tellJob)
      (ht : t = { s.goto r .tellingJob with net := s.net.post ⟨r, r - 1, r - 1⟩ (nf r) })
  | take (i m : ℕ) (net : Network ℕ) (hpc : s.pc r = .await i)
      (hreceive : s.net.receive ⟨r - 1, r, r⟩ = some (m, net))
      (ht : t = { s.goto r (.fopen i) with
        net := net, received := Function.update s.received r (s.received r + 1) })
  | skip (i : ℕ) (hpc : s.pc r = .pass i) (hlast : r + 1 = np ∨ s.nextjob r = 0)
      (ht : t = s.goto r (.loop (i + 1)))
  | pass (i : ℕ) (hpc : s.pc r = .pass i) (hnext : r + 1 ≠ np) (hdue : s.nextjob r ≠ 0)
      (ht : t = { s.goto r (.passing i) with net := s.net.post ⟨r, r + 1, r + 1⟩ 0 })
  | passed (i : ℕ) (hpc : s.pc r = .passing i)
      (ht : t = { s.goto r (.loop (i + 1)) with
        nextjob := Function.update s.nextjob r (s.nextjob r - 1) })
  | quiet (pc : Pc) (hquiet : Quiet np (nf r) r (s.pc r) pc) (ht : t = s.goto r pc)

/-- At the head of the loop a rank begins a round, or has done them all. -/
theorem effect_loop {s t : State} {r i : ℕ} {buffered : Bool} (hpc : s.pc r = .loop i)
    (hvalid : (s.pc r).Valid np (nf r) r) (hstep : advance np nf s r buffered = some t) :
    Effect np nf s t r := by
  rw [hpc] at hvalid
  by_cases hi : i < nf r
  · simp only [advance, hpc, if_pos hi, Option.some.injEq] at hstep
    refine .quiet _ ?_ hstep.symm
    rw [hpc]
    by_cases hr : r = 0
    · rw [if_pos hr]
      constructor
      case valid => exact hi
      case taken => exact fun hpos => absurd hr (Nat.ne_of_gt hpos)
      all_goals simp [Pc.told, Pc.round, Pc.posted, Pc.pos]
    · rw [if_neg hr]
      constructor
      case valid => exact ⟨Nat.pos_of_ne_zero hr, hi⟩
      all_goals simp [Pc.told, Pc.round, Pc.posted, Pc.taken, Pc.pos]
  · simp only [advance, hpc, if_neg hi, Option.some.injEq] at hstep
    refine .quiet _ ?_ hstep.symm
    have hend : i = nf r := Nat.le_antisymm hvalid (Nat.le_of_not_lt hi)
    rw [hpc]
    constructor <;> simp [Pc.Valid, Pc.told, Pc.round, Pc.posted, Pc.taken, Pc.pos, hend]

/-- The inversion lemma of `advance`. -/
theorem advance_effect {s t : State} {r : ℕ} {buffered : Bool}
    (hvalid : (s.pc r).Valid np (nf r) r) (hstep : advance np nf s r buffered = some t) :
    Effect np nf s t r := by
  cases hpc : s.pc r with
  | askJob =>
      simp only [advance, hpc, Option.map_eq_some_iff] at hstep
      obtain ⟨⟨n, net⟩, hreceive, rfl⟩ := hstep
      exact .ask n net hpc hreceive rfl
  | tellJob =>
      simp only [advance, hpc, Option.some.injEq] at hstep
      exact .tell hpc hstep.symm
  | tellingJob =>
      simp only [advance, hpc, Option.ite_none_right_eq_some, Option.some.injEq] at hstep
      refine .quiet .barrier ?_ hstep.2.symm
      rw [hpc]
      constructor <;> simp [Pc.Valid, Pc.told, Pc.round, Pc.posted, Pc.taken, Pc.pos]
  | barrier =>
      simp only [advance, hpc, Option.ite_none_right_eq_some, Option.some.injEq] at hstep
      refine .quiet (.loop 0) ?_ hstep.2.symm
      rw [hpc]
      constructor <;> simp [Pc.Valid, Pc.told, Pc.round, Pc.posted, Pc.taken, Pc.pos]
  | loop i => exact effect_loop hpc hvalid hstep
  | await i =>
      simp only [advance, hpc, Option.map_eq_some_iff] at hstep
      obtain ⟨⟨m, net⟩, hreceive, rfl⟩ := hstep
      exact .take i m net hpc hreceive rfl
  | fopen i =>
      simp only [advance, hpc, Option.some.injEq] at hstep
      rw [hpc] at hvalid
      refine .quiet (.writing i) ?_ hstep.symm
      rw [hpc]
      constructor
      case valid => exact hvalid
      all_goals simp [Pc.told, Pc.round, Pc.posted, Pc.taken, Pc.pos]
  | writing i =>
      simp only [advance, hpc, Option.some.injEq] at hstep
      rw [hpc] at hvalid
      refine .quiet (.pass i) ?_ hstep.symm
      rw [hpc]
      constructor
      case valid => exact hvalid
      all_goals simp [Pc.told, Pc.round, Pc.posted, Pc.taken, Pc.pos]
  | pass i =>
      simp only [advance, hpc] at hstep
      split at hstep
      case isTrue hnext => exact .pass i hpc hnext.1 hnext.2 (Option.some.inj hstep).symm
      case isFalse hlast =>
        refine .skip i hpc ?_ (Option.some.inj hstep).symm
        by_cases hlt : r + 1 = np
        · exact Or.inl hlt
        · exact Or.inr (by simpa [hlt] using hlast)
  | passing i =>
      simp only [advance, hpc, Option.ite_none_right_eq_some, Option.some.injEq] at hstep
      exact .passed i hpc hstep.2.symm
  | done => simp [advance, hpc] at hstep

/-! ## The invariant -/

theorem inv_initial (hnp : 2 ≤ np) (nextjob : ℕ → ℕ) : Inv np nf (initial np nextjob) := by
  constructor
  case valid =>
      intro r hr
      by_cases hzero : r = 0
      · simp only [initial, if_pos hzero]
        show r + 1 < np
        omega
      · by_cases hlast : r + 1 = np
        · simp only [initial, if_neg hzero, if_pos hlast]
          exact Nat.pos_of_ne_zero hzero
        · simp only [initial, if_neg hzero, if_neg hlast]
          exact Nat.lt_of_le_of_ne hr hlast
  case link =>
      intro r hr
      have hask : (initial np nextjob).pc r = .askJob := by
        simp only [initial]
        split
        · rfl
        · exact if_neg (Nat.ne_of_lt hr)
      have htold : ((initial np nextjob).pc (r + 1)).told = false ∧
          ((initial np nextjob).pc (r + 1)).taken (nf (r + 1)) = 0 := by
        simp only [initial]
        split
        · exact ⟨rfl, rfl⟩
        · split <;> exact ⟨rfl, rfl⟩
      constructor
      case asking => intro _; rw [htold.1]; rfl
      case asked => exact fun hne => absurd hask hne
      case tokens => rw [htold.2, hask]; simp [initial, Pc.posted, Pc.round]
      case due => rw [hask]; simp
  case received =>
      intro r hpos hr
      simp only [initial, if_neg (Nat.ne_of_gt hpos)]
      split <;> rfl
  case silent => exact fun _ _ => rfl

/-- Only the moving rank and its own channels change. -/
theorem Effect.frame {s t : State} {r q : ℕ} (h : Effect np nf s t r) (hne : q ≠ r) :
    t.pc q = s.pc q ∧ t.nextjob q = s.nextjob q ∧ t.received q = s.received q := by
  cases h with
  | ask n net hpc hreceive ht =>
      rw [ht]
      exact ⟨Function.update_of_ne hne .., Function.update_of_ne hne .., rfl⟩
  | tell hpc ht =>
      rw [ht]
      exact ⟨Function.update_of_ne hne .., rfl, rfl⟩
  | take i m net hpc hreceive ht =>
      rw [ht]
      exact ⟨Function.update_of_ne hne .., rfl, Function.update_of_ne hne ..⟩
  | skip i hpc hlast ht =>
      rw [ht]
      exact ⟨Function.update_of_ne hne .., rfl, rfl⟩
  | pass i hpc hnext hdue ht =>
      rw [ht]
      exact ⟨Function.update_of_ne hne .., rfl, rfl⟩
  | passed i hpc ht =>
      rw [ht]
      exact ⟨Function.update_of_ne hne .., Function.update_of_ne hne .., rfl⟩
  | quiet pc hquiet ht =>
      rw [ht]
      exact ⟨Function.update_of_ne hne .., rfl, rfl⟩

/-- The channels a rank does not use are left alone. -/
theorem Effect.queue {s t : State} {r : ℕ} (h : Effect np nf s t r) {e : Envelope}
    (hjob : e ≠ ⟨r + 1, r, r⟩) (htell : e ≠ ⟨r, r - 1, r - 1⟩) (htake : e ≠ ⟨r - 1, r, r⟩)
    (hpass : e ≠ ⟨r, r + 1, r + 1⟩) : t.net.queue e = s.net.queue e := by
  cases h with
  | ask n net hpc hreceive ht =>
      rw [ht]
      exact (Network.of_receive hreceive).2 e hjob
  | tell hpc ht =>
      rw [ht]
      exact Network.queue_post_of_ne htell
  | take i m net hpc hreceive ht =>
      rw [ht]
      exact (Network.of_receive hreceive).2 e htake
  | skip i hpc hlast ht => rw [ht]; rfl
  | pass i hpc hnext hdue ht =>
      rw [ht]
      exact Network.queue_post_of_ne hpass
  | passed i hpc ht => rw [ht]; rfl
  | quiet pc hquiet ht => rw [ht]; rfl

/-- What holds between two ranks after the lower one has moved on from the exchange. -/
theorem Linked.move {s t : State} {r : ℕ} (hs : Linked nf s r) (hfrom : s.pc r ≠ .askJob)
    (hto : t.pc r ≠ .askJob) (habove : t.pc (r + 1) = s.pc (r + 1))
    (hjob : t.net.queue ⟨r + 1, r, r⟩ = s.net.queue ⟨r + 1, r, r⟩)
    (hnext : t.nextjob r + min ((t.pc r).round (nf r)) (nf (r + 1)) = nf (r + 1))
    (htokens : (t.net.queue ⟨r, r + 1, r + 1⟩).length +
        min ((s.pc r).posted (nf r)) (nf (r + 1)) =
      (s.net.queue ⟨r, r + 1, r + 1⟩).length + min ((t.pc r).posted (nf r)) (nf (r + 1)))
    (hdue : ∀ i, t.pc r = .passing i → i < nf (r + 1)) : Linked nf t r where
  asking := fun h => absurd h hto
  asked := by
    intro _
    obtain ⟨hempty, htold, -⟩ := hs.asked hfrom
    rw [hjob, habove]
    exact ⟨hempty, htold, hnext⟩
  tokens := by
    have hold := hs.tokens
    rw [habove]
    omega
  due := hdue

/-- A rank receives the number of files of the one above it. -/
theorem linked_ask {s t : State} {r n : ℕ} {net : Network ℕ} (hs : Linked nf s r)
    (habove : t.pc (r + 1) = s.pc (r + 1)) (hpc : s.pc r = .askJob)
    (hreceive : s.net.receive ⟨r + 1, r, r⟩ = some (n, net))
    (ht : t = { s.goto r (if r = 0 then .barrier else .tellJob) with
      nextjob := Function.update s.nextjob r n, net := net }) : Linked nf t r := by
  obtain ⟨hqueue, hother⟩ := Network.of_receive hreceive
  have hpending := hs.asking hpc
  have htold : (s.pc (r + 1)).told = true := by
    by_contra hnot
    rw [if_neg hnot, hqueue] at hpending
    cases hpending
  rw [if_pos htold, hqueue] at hpending
  obtain ⟨hcount, hrest⟩ := List.cons.inj hpending
  have htokens := hs.tokens
  have hstate : t.pc r = .barrier ∨ t.pc r = .tellJob := by
    rw [ht]
    by_cases hr : r = 0
    · simp [hr]
    · simp [hr]
  have hnext : t.nextjob r = n := by rw [ht]; exact Function.update_self ..
  have hnet : t.net = net := by rw [ht]
  rw [hpc] at htokens
  constructor
  case asking => rcases hstate with hstate | hstate <;> simp [hstate]
  case asked =>
    intro _
    rw [hnet, habove, hnext]
    refine ⟨hrest, htold, ?_⟩
    rcases hstate with hstate | hstate <;> simp [hstate, Pc.round, hcount]
  case tokens =>
    rw [hnet, habove, hother _ (by simp)]
    rcases hstate with hstate | hstate <;>
      simpa [hstate, Pc.posted, Pc.round] using htokens
  case due => rcases hstate with hstate | hstate <;> simp [hstate]

/-- A rank tells the one below it the number of its files. -/
theorem linked_telling {s t : State} {r : ℕ} (hs : Linked nf s r)
    (habove : t.pc (r + 1) = s.pc (r + 1)) (hpc : s.pc r = .tellJob)
    (ht : t = { s.goto r .tellingJob with net := s.net.post ⟨r, r - 1, r - 1⟩ (nf r) }) :
    Linked nf t r := by
  have hnext := (hs.asked (by simp [hpc])).2.2
  have hnet : ∀ e : Envelope, e.dst ≠ r - 1 ∨ e.src ≠ r → t.net.queue e = s.net.queue e := by
    intro e he
    rw [ht]
    exact Network.queue_post_of_ne (by rintro rfl; simp at he)
  have hto : t.pc r = .tellingJob := by rw [ht]; exact Function.update_self ..
  rw [hpc] at hnext
  apply hs.move
  · simp [hpc]
  · simp [hto]
  · exact habove
  · exact hnet _ (Or.inr (Nat.succ_ne_self r))
  · rw [hto, ht]
    exact hnext
  · rw [hto, hpc, hnet _ (Or.inl (by simp; omega))]
    rfl
  · simp [hto]

/-- A rank takes the token of its next file from the rank below. -/
theorem linked_take {s t : State} {r i m : ℕ} {net : Network ℕ} (hs : Linked nf s r)
    (habove : t.pc (r + 1) = s.pc (r + 1)) (hpc : s.pc r = .await i)
    (hreceive : s.net.receive ⟨r - 1, r, r⟩ = some (m, net))
    (ht : t = { s.goto r (.fopen i) with
      net := net, received := Function.update s.received r (s.received r + 1) }) :
    Linked nf t r := by
  obtain ⟨-, hother⟩ := Network.of_receive hreceive
  have hnext := (hs.asked (by simp [hpc])).2.2
  have hto : t.pc r = .fopen i := by rw [ht]; exact Function.update_self ..
  have hnet : t.net = net := by rw [ht]
  rw [hpc] at hnext
  apply hs.move
  · simp [hpc]
  · simp [hto]
  · exact habove
  · rw [hnet]
    exact hother _ (by simp; omega)
  · rw [hto, ht]
    exact hnext
  · rw [hto, hpc, hnet, hother _ (by simp)]
    rfl
  · simp [hto]

/-- A rank leaves out the token once the one above it has got all of its own. -/
theorem linked_skip {s t : State} {r i : ℕ} (hs : Linked nf s r)
    (habove : t.pc (r + 1) = s.pc (r + 1)) (hpc : s.pc r = .pass i)
    (hzero : s.nextjob r = 0) (ht : t = s.goto r (.loop (i + 1))) : Linked nf t r := by
  have hnext := (hs.asked (by simp [hpc])).2.2
  rw [hpc] at hnext
  have hto : t.pc r = .loop (i + 1) := by rw [ht]; exact Function.update_self ..
  -- all tokens have been sent
  have hsent : nf (r + 1) ≤ i := by
    simp only [Pc.round] at hnext
    omega
  apply hs.move
  · simp [hpc]
  · simp [hto]
  · exact habove
  · rw [ht]
    rfl
  · rw [hto, ht]
    show s.nextjob r + min (i + 1) (nf (r + 1)) = nf (r + 1)
    omega
  · rw [hto, hpc, ht]
    show (s.net.queue _).length + min i (nf (r + 1)) =
      (s.net.queue _).length + min (i + 1) (nf (r + 1))
    omega
  · simp [hto]

/-- A rank sends a token to the one above it. -/
theorem linked_pass {s t : State} {r i : ℕ} (hs : Linked nf s r)
    (habove : t.pc (r + 1) = s.pc (r + 1)) (hpc : s.pc r = .pass i)
    (hdue : s.nextjob r ≠ 0)
    (ht : t = { s.goto r (.passing i) with net := s.net.post ⟨r, r + 1, r + 1⟩ 0 }) :
    Linked nf t r := by
  have hnext := (hs.asked (by simp [hpc])).2.2
  rw [hpc] at hnext
  have hto : t.pc r = .passing i := by rw [ht]; exact Function.update_self ..
  have hleft : i < nf (r + 1) := by
    simp only [Pc.round] at hnext
    omega
  apply hs.move
  · simp [hpc]
  · simp [hto]
  · exact habove
  · rw [ht]
    exact Network.queue_post_of_ne (by simp)
  · rw [hto, ht]
    exact hnext
  · rw [hto, hpc, ht]
    show ((s.net.post ⟨r, r + 1, r + 1⟩ 0).queue ⟨r, r + 1, r + 1⟩).length +
      min i (nf (r + 1)) = (s.net.queue _).length + min (i + 1) (nf (r + 1))
    rw [Network.queue_post_self, List.length_append, List.length_singleton]
    omega
  · intro j hj
    obtain rfl : i = j := by simpa [hto] using hj
    exact hleft

/-- A rank has sent a token. -/
theorem linked_passed {s t : State} {r i : ℕ} (hs : Linked nf s r)
    (habove : t.pc (r + 1) = s.pc (r + 1)) (hpc : s.pc r = .passing i)
    (ht : t = { s.goto r (.loop (i + 1)) with
      nextjob := Function.update s.nextjob r (s.nextjob r - 1) }) : Linked nf t r := by
  have hnext := (hs.asked (by simp [hpc])).2.2
  rw [hpc] at hnext
  have hleft := hs.due i hpc
  have hto : t.pc r = .loop (i + 1) := by rw [ht]; exact Function.update_self ..
  have hcount : t.nextjob r = s.nextjob r - 1 := by rw [ht]; exact Function.update_self ..
  apply hs.move
  · simp [hpc]
  · simp [hto]
  · exact habove
  · rw [ht]
    rfl
  · rw [hto, hcount]
    simp only [Pc.round] at hnext ⊢
    omega
  · rw [hto, hpc, ht]
    rfl
  · simp [hto]

/-- A step that neither sends nor receives. -/
theorem linked_quiet {s t : State} {r : ℕ} {pc : Pc} (hs : Linked nf s r)
    (habove : t.pc (r + 1) = s.pc (r + 1)) (hquiet : Quiet np (nf r) r (s.pc r) pc)
    (ht : t = s.goto r pc) :
    Linked nf t r := by
  have hto : t.pc r = pc := by rw [ht]; exact Function.update_self ..
  have hnext := (hs.asked hquiet.asked.1).2.2
  apply hs.move
  · exact hquiet.asked.1
  · rw [hto]
    exact hquiet.asked.2
  · exact habove
  · rw [ht]
    rfl
  · rw [hto, hquiet.round, ht]
    exact hnext
  · rw [hto, hquiet.posted, ht]
    rfl
  · intro i hi
    exact absurd (hto.symm.trans hi) (hquiet.notPassing i)

/-- A step keeps what holds between the moving rank and the one above it. -/
theorem linked_above {s t : State} {r : ℕ} (hs : Linked nf s r) (hlt : r + 1 < np)
    (h : Effect np nf s t r) : Linked nf t r := by
  obtain ⟨habove, -, -⟩ := h.frame (q := r + 1) (by omega)
  cases h with
  | ask n net hpc hreceive ht => exact linked_ask hs habove hpc hreceive ht
  | tell hpc ht => exact linked_telling hs habove hpc ht
  | take i m net hpc hreceive ht => exact linked_take hs habove hpc hreceive ht
  | skip i hpc hlast ht =>
      exact linked_skip hs habove hpc (hlast.resolve_left (Nat.ne_of_lt hlt)) ht
  | pass i hpc hnp hdue ht => exact linked_pass hs habove hpc hdue ht
  | passed i hpc ht => exact linked_passed hs habove hpc ht
  | quiet pc hquiet ht => exact linked_quiet hs habove hquiet ht

/-- What holds between two ranks after the upper one has moved on. -/
theorem Linked.climb {s t : State} {r : ℕ} (hs : Linked nf s r) (hbelow : t.pc r = s.pc r)
    (hnext : t.nextjob r = s.nextjob r) (htold : (t.pc (r + 1)).told = (s.pc (r + 1)).told)
    (hjob : t.net.queue ⟨r + 1, r, r⟩ = s.net.queue ⟨r + 1, r, r⟩)
    (htokens : (t.net.queue ⟨r, r + 1, r + 1⟩).length + (t.pc (r + 1)).taken (nf (r + 1)) =
      (s.net.queue ⟨r, r + 1, r + 1⟩).length + (s.pc (r + 1)).taken (nf (r + 1))) :
    Linked nf t r where
  asking := by
    rw [hbelow, hjob, htold]
    exact hs.asking
  asked := by
    rw [hbelow, hjob, htold, hnext]
    exact hs.asked
  tokens := by
    rw [hbelow, htokens]
    exact hs.tokens
  due := by
    rw [hbelow]
    exact hs.due

/-- A rank sends the number of its files to the one below it, which still waits for it. -/
theorem linked_tell {s t : State} {r : ℕ} (hs : Linked nf s r) (hbelow : t.pc r = s.pc r)
    (hpc : s.pc (r + 1) = .tellJob)
    (ht : t = { s.goto (r + 1) .tellingJob with
      net := s.net.post ⟨r + 1, r + 1 - 1, r + 1 - 1⟩ (nf (r + 1)) }) : Linked nf t r := by
  have hto : t.pc (r + 1) = .tellingJob := by rw [ht]; exact Function.update_self ..
  -- the rank below still waits for the number that is sent now
  have hask : s.pc r = .askJob := by
    by_contra hne
    have htold := (hs.asked hne).2.1
    rw [hpc] at htold
    cases htold
  have hempty := hs.asking hask
  have htokens := hs.tokens
  rw [hpc] at hempty htokens
  constructor
  case asking =>
    intro _
    rw [hto, ht]
    show (s.net.post ⟨r + 1, r, r⟩ (nf (r + 1))).queue ⟨r + 1, r, r⟩ = [nf (r + 1)]
    rw [Network.queue_post_self, hempty]
    rfl
  case asked => exact fun hne => absurd (hbelow.trans hask) hne
  case tokens =>
    rw [hbelow, hto, ht]
    show ((s.net.post ⟨r + 1, r, r⟩ (nf (r + 1))).queue _).length + 0 = _
    rw [Network.queue_post_of_ne (by simp)]
    exact htokens
  case due => rw [hbelow, hask]; simp

/-- A rank receives the number of files of the one above it; the one below is not concerned. -/
theorem climb_ask {s t : State} {r n : ℕ} {net : Network ℕ} (hs : Linked nf s r)
    (hbelow : t.pc r = s.pc r) (hnext : t.nextjob r = s.nextjob r)
    (hpc : s.pc (r + 1) = .askJob)
    (hreceive : s.net.receive ⟨r + 1 + 1, r + 1, r + 1⟩ = some (n, net))
    (ht : t = { s.goto (r + 1) (if r + 1 = 0 then .barrier else .tellJob) with
      nextjob := Function.update s.nextjob (r + 1) n, net := net }) : Linked nf t r := by
  obtain ⟨-, hother⟩ := Network.of_receive hreceive
  have hto : t.pc (r + 1) = .tellJob := by rw [ht]; exact Function.update_self ..
  have hnet : t.net = net := by rw [ht]
  apply hs.climb hbelow hnext
  · rw [hto, hpc]
    rfl
  · rw [hnet]
    exact hother _ (by simp)
  · rw [hto, hpc, hnet, hother _ (by simp; omega)]
    rfl

/-- A rank takes a token from the one below it. -/
theorem climb_take {s t : State} {r i m : ℕ} {net : Network ℕ} (hs : Linked nf s r)
    (hbelow : t.pc r = s.pc r) (hnext : t.nextjob r = s.nextjob r)
    (hpc : s.pc (r + 1) = .await i)
    (hreceive : s.net.receive ⟨r + 1 - 1, r + 1, r + 1⟩ = some (m, net))
    (ht : t = { s.goto (r + 1) (.fopen i) with
      net := net, received := Function.update s.received (r + 1) (s.received (r + 1) + 1) }) :
    Linked nf t r := by
  obtain ⟨hqueue, hother⟩ := Network.of_receive hreceive
  have hto : t.pc (r + 1) = .fopen i := by rw [ht]; exact Function.update_self ..
  have hnet : t.net = net := by rw [ht]
  apply hs.climb hbelow hnext
  · rw [hto, hpc]
    rfl
  · rw [hnet]
    exact hother _ (by simp)
  · rw [hto, hpc, hnet]
    rw [Nat.add_sub_cancel] at hqueue
    rw [hqueue, List.length_cons]
    show (net.queue _).length + (i + 1) = (net.queue _).length + 1 + i
    omega

/-- A rank sends a token upwards. -/
theorem climb_pass {s t : State} {r i : ℕ} (hs : Linked nf s r)
    (hbelow : t.pc r = s.pc r) (hnext : t.nextjob r = s.nextjob r)
    (hpc : s.pc (r + 1) = .pass i)
    (ht : t = { s.goto (r + 1) (.passing i) with
      net := s.net.post ⟨r + 1, r + 1 + 1, r + 1 + 1⟩ 0 }) : Linked nf t r := by
  have hto : t.pc (r + 1) = .passing i := by rw [ht]; exact Function.update_self ..
  apply hs.climb hbelow hnext
  · rw [hto, hpc]
    rfl
  · rw [ht]
    exact Network.queue_post_of_ne (by simp; omega)
  · rw [hto, hpc, ht]
    show ((s.net.post _ 0).queue _).length + (i + 1) = (s.net.queue _).length + (i + 1)
    rw [Network.queue_post_of_ne (by simp)]

/-- A rank ends a round; the channels stay as they are. -/
theorem climb_loop {s t : State} {r i : ℕ} (hs : Linked nf s r) (hbelow : t.pc r = s.pc r)
    (hnext : t.nextjob r = s.nextjob r) (hpc : s.pc (r + 1) = .pass i ∨ s.pc (r + 1) = .passing i)
    (hto : t.pc (r + 1) = .loop (i + 1)) (hnet : t.net = s.net) : Linked nf t r := by
  apply hs.climb hbelow hnext
  · rcases hpc with hpc | hpc <;> rw [hto, hpc] <;> rfl
  · rw [hnet]
  · rcases hpc with hpc | hpc <;> rw [hto, hpc, hnet] <;> rfl

/-- A step keeps what holds between the moving rank and the one below it. -/
theorem linked_below {s t : State} {r : ℕ} (hs : Linked nf s r)
    (h : Effect np nf s t (r + 1)) : Linked nf t r := by
  obtain ⟨hbelow, hnext, -⟩ := h.frame (q := r) (by omega)
  cases h with
  | ask n net hpc hreceive ht => exact climb_ask hs hbelow hnext hpc hreceive ht
  | tell hpc ht => exact linked_tell hs hbelow hpc ht
  | take i m net hpc hreceive ht => exact climb_take hs hbelow hnext hpc hreceive ht
  | skip i hpc hlast ht =>
      exact climb_loop hs hbelow hnext (Or.inl hpc) (by rw [ht]; exact Function.update_self ..)
        (by rw [ht]; rfl)
  | pass i hpc hnp hdue ht => exact climb_pass hs hbelow hnext hpc ht
  | passed i hpc ht =>
      exact climb_loop hs hbelow hnext (Or.inr hpc) (by rw [ht]; exact Function.update_self ..)
        (by rw [ht]; rfl)
  | quiet pc hquiet ht =>
      have hto : t.pc (r + 1) = pc := by rw [ht]; exact Function.update_self ..
      apply hs.climb hbelow hnext
      · rw [hto, hquiet.told.1, hquiet.told.2]
      · rw [ht]
        rfl
      · rw [hto, hquiet.taken (Nat.succ_pos r), ht]
        rfl

/-- The moving rank gets where it may be. -/
theorem valid_step {s t : State} {r : ℕ} (hrank : r < np)
    (hvalid : (s.pc r).Valid np (nf r) r) (h : Effect np nf s t r) :
    (t.pc r).Valid np (nf r) r := by
  cases h with
  | ask n net hpc hreceive ht =>
      rw [ht, State.goto_pc_self]
      split
      case isTrue => trivial
      case isFalse hne => exact Nat.pos_of_ne_zero hne
  | tell hpc ht =>
      rw [hpc] at hvalid
      rw [ht, State.goto_pc_self]
      exact hvalid
  | take i m net hpc hreceive ht =>
      rw [hpc] at hvalid
      rw [ht, State.goto_pc_self]
      exact hvalid.2
  | skip i hpc hlast ht =>
      rw [hpc] at hvalid
      rw [ht, State.goto_pc_self]
      exact hvalid
  | pass i hpc hnp hdue ht =>
      rw [hpc] at hvalid
      rw [ht, State.goto_pc_self]
      exact ⟨Nat.lt_of_le_of_ne hrank hnp, hvalid⟩
  | passed i hpc ht =>
      rw [hpc] at hvalid
      rw [ht, State.goto_pc_self]
      exact hvalid.2
  | quiet pc hquiet ht =>
      rw [ht, State.goto_pc_self]
      exact hquiet.valid

/-- The moving rank has received a token for each round it has begun to write. -/
theorem received_step {s t : State} {r : ℕ} (hpos : 0 < r)
    (hreceived : s.received r = (s.pc r).taken (nf r)) (h : Effect np nf s t r) :
    t.received r = (t.pc r).taken (nf r) := by
  cases h with
  | ask n net hpc hreceive ht =>
      rw [hpc] at hreceived
      rw [ht, State.goto_pc_self, if_neg (Nat.ne_of_gt hpos)]
      exact hreceived
  | tell hpc ht =>
      rw [hpc] at hreceived
      rw [ht, State.goto_pc_self]
      exact hreceived
  | take i m net hpc hreceive ht =>
      rw [hpc] at hreceived
      rw [ht, State.goto_pc_self]
      show Function.update s.received r (s.received r + 1) r = i + 1
      rw [Function.update_self, hreceived]
      rfl
  | skip i hpc hlast ht =>
      rw [hpc] at hreceived
      rw [ht, State.goto_pc_self]
      exact hreceived
  | pass i hpc hnp hdue ht =>
      rw [hpc] at hreceived
      rw [ht, State.goto_pc_self]
      exact hreceived
  | passed i hpc ht =>
      rw [hpc] at hreceived
      rw [ht, State.goto_pc_self]
      exact hreceived
  | quiet pc hquiet ht =>
      rw [ht, State.goto_pc_self, hquiet.taken hpos]
      exact hreceived

/-- Nothing is sent or received on other channels. -/
theorem silent_step {s t : State} {r : ℕ} {e : Envelope} (hrank : r < np)
    (hvalid : (s.pc r).Valid np (nf r) r)
    (he : ∀ r, r + 1 < np → e ≠ ⟨r + 1, r, r⟩ ∧ e ≠ ⟨r, r + 1, r + 1⟩)
    (h : Effect np nf s t r) : t.net.queue e = s.net.queue e := by
  have hbelow : 0 < r → e ≠ ⟨r, r - 1, r - 1⟩ ∧ e ≠ ⟨r - 1, r, r⟩ := by
    intro hpos
    have hprev := he (r - 1) (by omega)
    rwa [Nat.sub_add_cancel hpos] at hprev
  cases h with
  | ask n net hpc hreceive ht =>
      rw [hpc] at hvalid
      rw [ht]
      exact (Network.of_receive hreceive).2 e (he r hvalid).1
  | tell hpc ht =>
      rw [hpc] at hvalid
      rw [ht]
      exact Network.queue_post_of_ne (hbelow hvalid).1
  | take i m net hpc hreceive ht =>
      rw [hpc] at hvalid
      rw [ht]
      exact (Network.of_receive hreceive).2 e (hbelow hvalid.1).2
  | skip i hpc hlast ht => rw [ht]; rfl
  | pass i hpc hnp hdue ht =>
      rw [ht]
      exact Network.queue_post_of_ne (he r (Nat.lt_of_le_of_ne hrank hnp)).2
  | passed i hpc ht => rw [ht]; rfl
  | quiet pc hquiet ht => rw [ht]; rfl

/-- The step lemma. -/
theorem inv_step {s t : State} {e : Event} (hs : Inv np nf s) (hstep : step np nf s e = some t) :
    Inv np nf t ∧ Effect np nf s t e.rank := by
  simp only [step, Option.ite_none_right_eq_some] at hstep
  obtain ⟨hrank, hstep⟩ := hstep
  have h := advance_effect (hs.valid e.rank hrank) hstep
  refine ⟨?_, h⟩
  constructor
  case valid =>
      intro r hr
      by_cases hne : r = e.rank
      · subst hne
        exact valid_step hrank (hs.valid _ hrank) h
      · rw [(h.frame hne).1]
        exact hs.valid r hr
  case link =>
      intro r hr
      by_cases habove : r = e.rank
      · subst habove
        exact linked_above (hs.link _ hr) hr h
      · by_cases hbelow : r + 1 = e.rank
        · rw [← hbelow] at h
          exact linked_below (hs.link r hr) h
        · obtain ⟨hpc, hnext, -⟩ := h.frame habove
          obtain ⟨hpc', -, -⟩ := h.frame hbelow
          apply (hs.link r hr).climb hpc hnext
          · rw [hpc']
          · exact h.queue (by simp; omega) (by simp; omega) (by simp; omega) (by simp; omega)
          · rw [hpc', h.queue (by simp; omega) (by simp; omega) (by simp; omega)
              (by simp; omega)]
  case received =>
      intro r hpos hr
      by_cases hne : r = e.rank
      · subst hne
        exact received_step hpos (hs.received _ hpos hr) h
      · rw [(h.frame hne).1, (h.frame hne).2.2]
        exact hs.received r hpos hr
  case silent =>
      intro e' he'
      rw [silent_step hrank (hs.valid _ hrank) he' h]
      exact hs.silent e' he'

/-! ## Progress -/

/-- The rank has a next step that needs no buffering. -/
def Enabled (np : ℕ) (nf : ℕ → ℕ) (s : State) (r : ℕ) : Prop :=
  (step np nf s ⟨r, false⟩).isSome

theorem enabled_of_advance {s : State} {r : ℕ} (hrank : r < np)
    (h : (advance np nf s r false).isSome) : Enabled np nf s r := by
  rwa [Enabled, step, if_pos hrank]

theorem told_of_arrived {pc : Pc} (h : pc.arrived = true) : pc.told = true := by
  cases pc with
  | askJob => cases h
  | tellJob => cases h
  | _ => rfl

/-- A rank that asks while the number is under way gets it. -/
theorem enabled_of_asking {s : State} {r : ℕ} (hrank : r < np) (hpc : s.pc r = .askJob)
    (hsent : ¬ s.net.Delivered ⟨r + 1, r, r⟩) : Enabled np nf s r := by
  obtain ⟨m, net, hreceive⟩ := Network.exists_receive hsent
  apply enabled_of_advance hrank
  simp only [advance, hpc, hreceive, Option.map_some, Option.isSome_some]

/-- During the exchange, the last rank that has not come to the barrier can move, or the
rank it is sending to can. -/
theorem exchange_enabled {s : State} (hs : Inv np nf s) {r : ℕ} (hr : r < np)
    (hexchange : (s.pc r).arrived = false) :
    ∃ q < np, (s.pc q).arrived = false ∧ Enabled np nf s q := by
  obtain ⟨q, hq, hwaits, hlast⟩ :=
    exists_last (P := fun q => (s.pc q).arrived = false) hr hexchange
  have hvalid := hs.valid q hq
  cases hpc : s.pc q with
  | askJob =>
      rw [hpc] at hvalid
      have htold : (s.pc (q + 1)).told = true := by
        apply told_of_arrived
        simpa using hlast (q + 1) (Nat.lt_succ_self q) hvalid
      have hsent := (hs.link q hvalid).asking hpc
      rw [if_pos htold] at hsent
      refine ⟨q, hq, hwaits, enabled_of_asking hq hpc ?_⟩
      rw [Network.Delivered, hsent]
      simp
  | tellJob =>
      refine ⟨q, hq, hwaits, enabled_of_advance hq ?_⟩
      simp only [advance, hpc, Option.isSome_some]
  | tellingJob =>
      rw [hpc] at hvalid
      by_cases hdelivered : s.net.Delivered ⟨q, q - 1, q - 1⟩
      · refine ⟨q, hq, hwaits, enabled_of_advance hq ?_⟩
        simp only [advance, hpc, hdelivered, or_true, if_true, Option.isSome_some]
      · -- the number waits for the rank below, which still asks
        obtain ⟨k, rfl⟩ : ∃ k, q = k + 1 := ⟨q - 1, (Nat.sub_add_cancel hvalid).symm⟩
        rw [Nat.add_sub_cancel] at hdelivered
        have hask : s.pc k = .askJob := by
          by_contra hne
          exact hdelivered ((hs.link k hq).asked hne).1
        refine ⟨k, Nat.lt_of_succ_lt hq, ?_, enabled_of_asking (Nat.lt_of_succ_lt hq) hask
          hdelivered⟩
        rw [hask]
        rfl
  | _ =>
      rw [hpc] at hwaits
      cases hwaits

/-- Past the exchange, a rank that neither waits for a token nor for one to be received
can move. -/
theorem loop_enabled {s : State} {r : ℕ} (hr : r < np)
    (harrived : ∀ q < np, (s.pc q).arrived = true) (hdone : s.pc r ≠ .done)
    (hpassing : ∀ i, s.pc r = .passing i → s.net.Delivered ⟨r, r + 1, r + 1⟩)
    (hawait : ∀ i, s.pc r = .await i → ¬ s.net.Delivered ⟨r - 1, r, r⟩) :
    Enabled np nf s r := by
  have hown := harrived r hr
  cases hpc : s.pc r with
  | askJob =>
      rw [hpc] at hown
      cases hown
  | tellJob =>
      rw [hpc] at hown
      cases hown
  | tellingJob =>
      rw [hpc] at hown
      cases hown
  | barrier =>
      have hreleased : s.released np = true := by
        rw [State.released, List.all_eq_true]
        exact fun q hq => harrived q (List.mem_range.mp hq)
      apply enabled_of_advance hr
      simp only [advance, hpc, hreleased, if_true, Option.isSome_some]
  | loop i =>
      by_cases hi : i < nf r
      · apply enabled_of_advance hr
        simp only [advance, hpc, hi, if_true, Option.isSome_some]
      · apply enabled_of_advance hr
        simp only [advance, hpc, hi, if_false, Option.isSome_some]
  | await i =>
      obtain ⟨m, net, hreceive⟩ := Network.exists_receive (hawait i hpc)
      apply enabled_of_advance hr
      simp only [advance, hpc, hreceive, Option.map_some, Option.isSome_some]
  | fopen i =>
      apply enabled_of_advance hr
      simp only [advance, hpc, Option.isSome_some]
  | writing i =>
      apply enabled_of_advance hr
      simp only [advance, hpc, Option.isSome_some]
  | pass i =>
      by_cases hdue : r + 1 ≠ np ∧ s.nextjob r ≠ 0
      · apply enabled_of_advance hr
        simp only [advance, hpc, if_pos hdue, Option.isSome_some]
      · apply enabled_of_advance hr
        simp only [advance, hpc, if_neg hdue, Option.isSome_some]
  | passing i =>
      apply enabled_of_advance hr
      simp only [advance, hpc, hpassing i hpc, or_true, if_true, Option.isSome_some]
  | done => exact absurd hpc hdone

/-- Nobody waits for ever: while some rank has not finished, some rank can move. -/
theorem exists_enabled (hanti : ∀ r, nf (r + 1) ≤ nf r) {s : State} (hs : Inv np nf s) {r : ℕ}
    (hr : r < np) (hunfinished : s.pc r ≠ .done) : ∃ q < np, Enabled np nf s q := by
  by_cases harrived : ∀ q < np, (s.pc q).arrived = true
  · by_cases hsending : ∃ q < np, ∃ i, s.pc q = .passing i
    · -- the last rank in the send of a token, or the rank above it
      obtain ⟨p, hp, hpassing⟩ := hsending
      obtain ⟨q, hq, ⟨i, hpc⟩, hlast⟩ :=
        exists_last (P := fun q => ∃ i, s.pc q = .passing i) hp hpassing
      have hvalid := hs.valid q hq
      rw [hpc] at hvalid
      by_cases hdelivered : s.net.Delivered ⟨q, q + 1, q + 1⟩
      · refine ⟨q, hq, loop_enabled hq harrived ?_ (fun _ _ => hdelivered) ?_⟩
        · simp [hpc]
        · simp [hpc]
      · refine ⟨q + 1, hvalid.1, loop_enabled hvalid.1 harrived ?_ ?_ ?_⟩
        · intro hdone
          have htokens := (hs.link q hvalid.1).tokens
          rw [hdone] at htokens
          apply hdelivered
          rw [Network.Delivered, ← List.length_eq_zero_iff]
          simp only [Pc.taken, Pc.round] at htokens
          omega
        · intro j hj
          exact absurd ⟨j, hj⟩ (hlast (q + 1) (Nat.lt_succ_self q) hvalid.1)
        · intro _ _
          rwa [Nat.add_sub_cancel]
    · -- the first rank that has not finished
      obtain ⟨q, hq, hpc, hfirst⟩ := exists_first (P := fun q => s.pc q ≠ .done) hr hunfinished
      refine ⟨q, hq, loop_enabled hq harrived hpc ?_ ?_⟩
      · intro i hi
        exact absurd ⟨q, hq, i, hi⟩ hsending
      · intro i hi hdelivered
        have hvalid := hs.valid q hq
        rw [hi] at hvalid
        obtain ⟨k, rfl⟩ : ∃ k, q = k + 1 := ⟨q - 1, (Nat.sub_add_cancel hvalid.1).symm⟩
        have hbelow : s.pc k = .done := by simpa using hfirst k (Nat.lt_succ_self k)
        have htokens := (hs.link k hq).tokens
        rw [Nat.add_sub_cancel] at hdelivered
        rw [hbelow, hi, hdelivered] at htokens
        have hless := hvalid.2
        have hle := hanti k
        simp only [Pc.posted, Pc.taken, Pc.round, List.length_nil] at htokens
        omega
  · obtain ⟨q, hq, hexchange⟩ : ∃ q < np, (s.pc q).arrived = false := by
      simpa using harrived
    obtain ⟨p, hp, -, henabled⟩ := exchange_enabled hs hq hexchange
    exact ⟨p, hp, henabled⟩

/-- How far all ranks have come. -/
def potential (np : ℕ) (nf : ℕ → ℕ) (s : State) : ℕ :=
  ∑ r ∈ Finset.range np, (s.pc r).pos (nf r)

theorem potential_le {s : State} (hs : Inv np nf s) :
    potential np nf s ≤ ∑ r ∈ Finset.range np, (5 + 6 * nf r) :=
  Finset.sum_le_sum fun r hr => Pc.pos_le np (hs.valid r (Finset.mem_range.mp hr))

/-- The moving rank comes further. -/
theorem pos_step {s t : State} {r : ℕ} (h : Effect np nf s t r) :
    (s.pc r).pos (nf r) < (t.pc r).pos (nf r) := by
  cases h with
  | ask n net hpc hreceive ht =>
      rw [ht, State.goto_pc_self, hpc]
      split
      · exact Nat.succ_pos 2
      · exact Nat.succ_pos 0
  | tell hpc ht =>
      rw [ht, State.goto_pc_self, hpc]
      exact Nat.lt_succ_self 1
  | take i m net hpc hreceive ht =>
      rw [ht, State.goto_pc_self, hpc]
      simp [Pc.pos]
  | skip i hpc hlast ht =>
      rw [ht, State.goto_pc_self, hpc]
      simp only [Pc.pos]
      omega
  | pass i hpc hnp hdue ht =>
      rw [ht, State.goto_pc_self, hpc]
      simp [Pc.pos]
  | passed i hpc ht =>
      rw [ht, State.goto_pc_self, hpc]
      simp only [Pc.pos]
      omega
  | quiet pc hquiet ht =>
      rw [ht, State.goto_pc_self]
      exact hquiet.pos

theorem potential_step {s t : State} {e : Event} (hs : Inv np nf s)
    (hstep : step np nf s e = some t) : potential np nf s < potential np nf t := by
  obtain ⟨-, heffect⟩ := inv_step hs hstep
  have hrank : e.rank < np := by
    by_contra hnot
    simp [step, hnot] at hstep
  apply Finset.sum_lt_sum
  · intro r _
    by_cases hne : r = e.rank
    · rw [hne]
      exact (pos_step heffect).le
    · rw [(heffect.frame hne).1]
  · exact ⟨e.rank, Finset.mem_range.mpr hrank, pos_step heffect⟩

/-- Once all ranks have finished, nothing is in flight. -/
theorem silent_of_done (hanti : ∀ r, nf (r + 1) ≤ nf r) {s : State} (hs : Inv np nf s)
    (hdone : ∀ r < np, s.pc r = .done) (e : Envelope) : s.net.queue e = [] := by
  by_cases hchannel : ∃ r, r + 1 < np ∧ (e = ⟨r + 1, r, r⟩ ∨ e = ⟨r, r + 1, r + 1⟩)
  · obtain ⟨r, hr, rfl | rfl⟩ := hchannel
    · exact ((hs.link r hr).asked (by simp [hdone r (Nat.lt_of_succ_lt hr)])).1
    · have htokens := (hs.link r hr).tokens
      have hle := hanti r
      rw [hdone r (Nat.lt_of_succ_lt hr), hdone (r + 1) hr] at htokens
      rw [← List.length_eq_zero_iff]
      simp only [Pc.posted, Pc.taken, Pc.round] at htokens
      omega
  · apply hs.silent
    intro r hr
    simp only [not_exists, not_and, not_or] at hchannel
    exact hchannel r hr

theorem inv_run (hnp : 2 ≤ np) {nextjob : ℕ → ℕ} {events : List Event} {s : State}
    (hrun : Runs.run (step np nf) (initial np nextjob) events = some s) : Inv np nf s :=
  Runs.run_invariant (Inv np nf) (fun _ => True) (fun _ _ _ hs _ hone => (inv_step hs hone).1)
    events _ s (inv_initial hnp nextjob) (fun _ _ => trivial) hrun

theorem sum_steps {fcount : ℕ} (hnp : 1 ≤ np) :
    ∑ r ∈ Finset.range np, (5 + 6 * Distribution.nf fcount np r) = 5 * np + 6 * fcount := by
  have hfirst : ∑ _r ∈ Finset.range np, 5 = 5 * np := by
    rw [Finset.sum_const_nat (m := 5) fun _ _ => rfl, Finset.card_range, Nat.mul_comm]
  rw [Finset.sum_add_distrib, ← Finset.mul_sum, Distribution.sum_nf hnp, hfirst]

/-- **The token protocol completes.** In every run of two or more processes: while some rank
has not finished, some rank can move, and the run cannot go on for ever; and once all have
finished, every rank above the first has received a token for each of its files, and no
message is left. -/
theorem gather_completes (fcount : ℕ) (hnp : 2 ≤ np) (nextjob : ℕ → ℕ) (events : List Event)
    (s : State)
    (hrun : Runs.run (step np (Distribution.nf fcount np)) (initial np nextjob) events = some s) :
    ((∃ r < np, s.pc r ≠ .done) →
        ∃ r < np, (step np (Distribution.nf fcount np) s ⟨r, false⟩).isSome) ∧
      events.length ≤ 5 * np + 6 * fcount ∧
      ((∀ r < np, s.pc r = .done) →
        (∀ r, r + 1 < np → s.received (r + 1) = Distribution.nf fcount np (r + 1)) ∧
        ∀ e, s.net.queue e = []) := by
  have hs := inv_run hnp hrun
  have hanti : ∀ r, Distribution.nf fcount np (r + 1) ≤ Distribution.nf fcount np r :=
    fun r => Distribution.nf_anti (Nat.le_succ r)
  refine ⟨?_, ?_, ?_⟩
  · rintro ⟨r, hr, hunfinished⟩
    exact exists_enabled hanti hs hr hunfinished
  · have hlength := Runs.length_le (Inv np (Distribution.nf fcount np))
      (potential np (Distribution.nf fcount np)) _ (fun _ => potential_le)
      (fun _ _ _ hs hone => ⟨(inv_step hs hone).1, potential_step hs hone⟩) events _ s
      (inv_initial hnp nextjob) hrun
    rw [sum_steps (Nat.le_of_succ_le hnp)] at hlength
    omega
  · intro hdone
    refine ⟨fun r hr => ?_, silent_of_done hanti hs hdone⟩
    rw [hs.received (r + 1) (Nat.succ_pos r) hr, hdone (r + 1) hr]
    rfl

/-- Three files on two processes: rank 0 does both of its files, then rank 1 its own. -/
def inTurn : List Event :=
  [⟨1, false⟩, ⟨0, false⟩, ⟨1, false⟩, ⟨0, false⟩, ⟨1, false⟩] ++ List.replicate 4 ⟨0, false⟩ ++
    List.replicate 2 ⟨1, false⟩ ++ List.replicate 6 ⟨0, false⟩ ++ List.replicate 4 ⟨1, false⟩

theorem gather_completes_three :
    ∃ s, Runs.run (step 2 (Distribution.nf 3 2)) (initial 2 fun _ => 0) inTurn = some s ∧
      s.received 1 = 1 ∧ ∀ e, s.net.queue e = [] := by
  refine ⟨_, rfl, ?_⟩
  obtain ⟨hreceived, hqueue⟩ := (gather_completes 3 (Nat.le_refl 2) (fun _ => 0) inTurn _
    rfl).2.2 (by decide)
  exact ⟨hreceived 0 (by decide), hqueue⟩

/-! ## Who writes at the same time -/

theorem Pc.posted_le_taken (n : ℕ) (pc : Pc) : pc.posted n ≤ pc.taken n := by
  cases pc <;> simp [Pc.posted, Pc.taken, Pc.round]

/-- Each token a rank has received was sent in turn by all the ranks below. -/
theorem le_posted_of_taken {s : State} (hs : Inv np nf s) {k : ℕ} :
    ∀ d r, r + d + 1 < np → k ≤ (s.pc (r + d + 1)).taken (nf (r + d + 1)) →
      k ≤ (s.pc r).posted (nf r) := by
  intro d
  induction d with
  | zero =>
      intro r hr htaken
      have htokens := (hs.link r hr).tokens
      rw [Nat.add_zero] at htaken
      omega
  | succ d ih =>
      intro r hr htaken
      have htokens := (hs.link (r + d + 1) hr).tokens
      have hbelow := Pc.posted_le_taken (nf (r + d + 1)) (s.pc (r + d + 1))
      apply ih r (Nat.lt_of_succ_lt hr)
      rw [← Nat.add_assoc] at htaken
      omega

/-- With one file for each rank, a rank sends the only token when it has closed the file. -/
theorem exclusive_of_one (hone : ∀ r < np, nf r = 1) {s : State} (hs : Inv np nf s) :
    Exclusive np s := by
  have hchain : ∀ r r' i j, r < r' → r' < np → s.pc r = .writing i → s.pc r' = .writing j →
      False := by
    intro r r' i j hlt hr' hi hj
    obtain ⟨d, rfl⟩ : ∃ d, r' = r + d + 1 := ⟨r' - r - 1, by omega⟩
    have hposted := le_posted_of_taken (k := 1) hs d r hr' (by rw [hj]; exact Nat.le_add_left 1 j)
    have hvalid := hs.valid r (Nat.lt_trans hlt hr')
    rw [hi, hone r (Nat.lt_trans hlt hr')] at hvalid
    rw [hi] at hposted
    exact absurd hvalid (Nat.not_lt.mpr hposted)
  intro r r' i j hr hr' hi hj
  rcases Nat.lt_trichotomy r r' with hlt | heq | hgt
  · exact (hchain r r' i j hlt hr' hi hj).elim
  · exact heq
  · exact (hchain r' r j i hgt hr hj hi).elim

theorem Pc.not_arrived_of_pos_le {n : ℕ} {pc : Pc} (hpos : pc.pos n ≤ 3) (hne : pc ≠ .barrier) :
    pc.arrived = false := by
  cases pc with
  | askJob => rfl
  | tellJob => rfl
  | tellingJob => rfl
  | barrier => exact absurd rfl hne
  | _ =>
      simp only [Pc.pos] at hpos
      omega

/-- A step of the exchange does not lead into the main loop. -/
theorem pos_le_of_exchange {s t : State} {r : ℕ} {buffered : Bool}
    (hexchange : (s.pc r).arrived = false) (hstep : advance np nf s r buffered = some t) :
    (t.pc r).pos (nf r) ≤ 3 := by
  cases hpc : s.pc r with
  | askJob =>
      simp only [advance, hpc, Option.map_eq_some_iff] at hstep
      obtain ⟨⟨n, net⟩, -, rfl⟩ := hstep
      rw [State.goto_pc_self]
      split <;> simp [Pc.pos]
  | tellJob =>
      simp only [advance, hpc, Option.some.injEq] at hstep
      rw [← hstep, State.goto_pc_self]
      simp [Pc.pos]
  | tellingJob =>
      simp only [advance, hpc, Option.ite_none_right_eq_some, Option.some.injEq] at hstep
      rw [← hstep.2, State.goto_pc_self]
      simp [Pc.pos]
  | _ =>
      rw [hpc] at hexchange
      cases hexchange

variable (nf) in
/-- The exchange can be completed before any rank enters the main loop. -/
theorem exists_run_to_barrier (hnp : 2 ≤ np) (nextjob : ℕ → ℕ) :
    ∃ events s, Runs.run (step np nf) (initial np nextjob) events = some s ∧ Inv np nf s ∧
      ∀ r < np, s.pc r = .barrier := by
  have hstart : ∀ r < np, ((initial np nextjob).pc r).pos (nf r) ≤ 3 := by
    intro r _
    simp only [initial]
    split
    · exact Nat.zero_le 3
    · split
      · exact Nat.le_add_left 1 2
      · exact Nat.zero_le 3
  have hstep : ∀ s, (Inv np nf s ∧ ∀ r < np, (s.pc r).pos (nf r) ≤ 3) →
      ¬ (∀ r < np, s.pc r = .barrier) → ∃ e t, step np nf s e = some t ∧
        (Inv np nf t ∧ ∀ r < np, (t.pc r).pos (nf r) ≤ 3) ∧
        potential np nf s < potential np nf t := by
    rintro s ⟨hs, hpos⟩ hgoal
    obtain ⟨r, hr, hne⟩ : ∃ r < np, s.pc r ≠ .barrier := by simpa using hgoal
    obtain ⟨q, hq, hwaits, henabled⟩ :=
      exchange_enabled hs hr (Pc.not_arrived_of_pos_le (hpos r hr) hne)
    obtain ⟨t, ht⟩ := Option.isSome_iff_exists.mp henabled
    obtain ⟨hinv, heffect⟩ := inv_step hs ht
    refine ⟨⟨q, false⟩, t, ht, ⟨hinv, fun p hp => ?_⟩, potential_step hs ht⟩
    by_cases hpq : p = q
    · subst hpq
      rw [step, if_pos hq] at ht
      exact pos_le_of_exchange hwaits ht
    · rw [(heffect.frame hpq).1]
      exact hpos p hp
  obtain ⟨events, s, hrun, ⟨hs, -⟩, hbarrier⟩ := Runs.exists_run_until
    (fun s => Inv np nf s ∧ ∀ r < np, (s.pc r).pos (nf r) ≤ 3)
    (fun s => ∀ r < np, s.pc r = .barrier) (potential np nf) _
    (fun s hs => potential_le hs.1) hstep (initial np nextjob)
    ⟨inv_initial hnp nextjob, hstart⟩
  exact ⟨events, s, hrun, hs, hbarrier⟩

variable (nf) in
/-- Rank 0 goes through its first file and opens `all.csv` for its second one; rank 1 has
received the token and opens it for its first. -/
theorem second_round {s : State} (hnp : 2 ≤ np) (hzero : s.pc 0 = .loop 0)
    (hone : s.pc 1 = .loop 0) (hnext : s.nextjob 0 ≠ 0) (hqueue : s.net.queue ⟨0, 1, 1⟩ = [])
    (htwo : 1 < nf 0) (hfile : 0 < nf 1) :
    (Runs.run (step np nf) s (List.replicate 7 ⟨0, true⟩ ++ List.replicate 3 ⟨1, true⟩)).map
      (fun t => (t.pc 0, t.pc 1)) = some (.writing 1, .writing 0) := by
  have hrank : 0 < np := Nat.lt_of_lt_of_le Nat.two_pos hnp
  have hpos : 0 < nf 0 := Nat.lt_trans Nat.one_pos htwo
  simp [Runs.run, List.replicate, step, advance, State.goto, Network.receive, hrank,
    Nat.lt_of_succ_le hnp, Nat.ne_of_lt hnp, hpos, htwo, hfile, hzero, hone, hnext, hqueue]

/-- With two files for rank 0, two ranks can have `all.csv` open. -/
theorem exists_not_exclusive (hnp : 2 ≤ np) (htwo : 2 ≤ nf 0) (hfile : 1 ≤ nf 1)
    (nextjob : ℕ → ℕ) :
    ∃ events s, Runs.run (step np nf) (initial np nextjob) events = some s ∧
      ¬ Exclusive np s := by
  obtain ⟨events, s, hrun, hs, hbarrier⟩ := exists_run_to_barrier nf hnp nextjob
  have hrank : 0 < np := Nat.lt_of_lt_of_le Nat.two_pos hnp
  have hzero := hbarrier 0 hrank
  have hone := hbarrier 1 hnp
  have hlink := hs.link 0 hnp
  have hnext : s.nextjob 0 ≠ 0 := by
    have hcount := (hlink.asked (by simp [hzero])).2.2
    rw [hzero] at hcount
    have hall : s.nextjob 0 + min 0 (nf 1) = nf 1 := hcount
    omega
  have hqueue : s.net.queue ⟨0, 1, 1⟩ = [] := by
    have htokens := hlink.tokens
    rw [hzero, hone] at htokens
    rw [← List.length_eq_zero_iff]
    simpa [Pc.posted, Pc.taken, Pc.round] using htokens
  -- both ranks leave the barrier
  let s₁ := (s.goto 0 (.loop 0)).goto 1 (.loop 0)
  have harrived : ∀ r < np, (s.pc r).arrived = true := by
    intro r hr
    rw [hbarrier r hr]
    rfl
  have hreleased : s.released np = true := by
    rw [State.released, List.all_eq_true]
    exact fun r hr => harrived r (List.mem_range.mp hr)
  have hreleased' : (s.goto 0 (.loop 0)).released np = true := by
    rw [State.released, List.all_eq_true]
    intro r hr
    by_cases hr0 : r = 0
    · rw [hr0, State.goto_pc_self]
      rfl
    · rw [State.goto_pc_of_ne _ _ hr0]
      exact harrived r (List.mem_range.mp hr)
  have hleave : Runs.run (step np nf) s [⟨0, true⟩, ⟨1, true⟩] = some s₁ := by
    have hfirst : step np nf s ⟨0, true⟩ = some (s.goto 0 (.loop 0)) := by
      simp only [step, advance, hrank, hzero, hreleased, if_true]
    have hsecond : step np nf (s.goto 0 (.loop 0)) ⟨1, true⟩ = some s₁ := by
      have hpc : (s.goto 0 (.loop 0)).pc 1 = .barrier := hone
      simp only [step, advance, if_pos (Nat.lt_of_succ_le hnp), hpc, hreleased', if_true]
      rfl
    rw [Runs.run_cons hfirst, Runs.run_cons hsecond, Runs.run_nil]
  have hround := second_round (s := s₁) nf hnp rfl rfl hnext hqueue htwo hfile
  obtain ⟨t, ht, hend⟩ := Option.map_eq_some_iff.mp hround
  obtain ⟨hfirst, hsecond⟩ := Prod.mk.inj hend
  refine ⟨events ++ ([⟨0, true⟩, ⟨1, true⟩] ++ (List.replicate 7 ⟨0, true⟩ ++
    List.replicate 3 ⟨1, true⟩)), t, ?_, ?_⟩
  · rw [Runs.run_append hrun, Runs.run_append hleave, ht]
  · intro hexclusive
    exact absurd (hexclusive 0 1 1 0 hrank hnp hfirst hsecond) Nat.zero_ne_one

/-- **Who writes at the same time.** Two or more processes with at least one file each never
have `all.csv` open at the same time, in any run, exactly when each has one file. -/
theorem exclusive_iff (fcount : ℕ) (hnp : 2 ≤ np) (hle : np ≤ fcount) :
    (∀ nextjob events s,
      Runs.run (step np (Distribution.nf fcount np)) (initial np nextjob) events = some s →
        Exclusive np s) ↔ fcount = np := by
  have hpos : 1 ≤ np := Nat.le_of_succ_le hnp
  constructor
  · intro hall
    by_contra hne
    have htwo : 2 ≤ Distribution.nf fcount np 0 :=
      Distribution.two_le_nf hpos (Nat.lt_of_le_of_ne hle (Ne.symm hne))
    have hfile : 1 ≤ Distribution.nf fcount np 1 := Distribution.one_le_nf hpos hle 1
    obtain ⟨events, s, hrun, hnot⟩ := exists_not_exclusive hnp htwo hfile fun _ => 0
    exact hnot (hall _ events s hrun)
  · rintro rfl nextjob events s hrun
    exact exclusive_of_one (fun r _ => Distribution.nf_self hpos r) (inv_run hnp hrun)

/-- Two processes: rank 0 passes the token on after its first file, and rank 1 opens
`all.csv`. -/
def firstFiles : List Event :=
  [⟨1, false⟩, ⟨0, false⟩, ⟨1, false⟩, ⟨0, false⟩, ⟨1, false⟩] ++ List.replicate 4 ⟨0, false⟩ ++
    List.replicate 3 ⟨1, false⟩

theorem two_files_exclusive :
    ∃ s, Runs.run (step 2 (Distribution.nf 2 2)) (initial 2 fun _ => 0) firstFiles = some s ∧
      s.pc 1 = .writing 0 ∧ Exclusive 2 s :=
  ⟨_, rfl, by decide,
    (exclusive_iff 2 (Nat.le_refl 2) (Nat.le_refl 2)).mpr rfl (fun _ => 0) firstFiles _ rfl⟩

/-- With a third file, rank 0 goes on to its second one and opens `all.csv` while rank 1 has
it open. -/
theorem three_files_not_exclusive :
    ∃ s, Runs.run (step 2 (Distribution.nf 3 2)) (initial 2 fun _ => 0)
        (firstFiles ++ List.replicate 3 ⟨0, false⟩) = some s ∧
      s.pc 0 = .writing 1 ∧ s.pc 1 = .writing 0 ∧ ¬ Exclusive 2 s := by
  refine ⟨_, rfl, by decide, by decide, fun h => ?_⟩
  exact absurd (h 0 1 1 0 (by decide) (by decide) (by decide) (by decide)) Nat.zero_ne_one

end Gather

end PerfHound
