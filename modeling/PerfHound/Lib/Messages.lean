/-
# Messages between ranks

Blocking point-to-point messages: a channel for each source, destination and tag, on
which messages arrive in the order they were sent. A receive takes the oldest message of
its channel and waits while there is none. A send puts its message on the channel, and
returns at once if the message is buffered, or when it has been received.
-/

import Mathlib.Data.Nat.Find
import Mathlib.Logic.Function.Basic

namespace PerfHound.Lib

universe u

/-- What a receive selects a message by. -/
structure Envelope where
  src : ℕ
  dst : ℕ
  tag : ℕ
  deriving DecidableEq, Repr

/-- The messages in flight, the oldest first. -/
structure Network (M : Type u) where
  queue : Envelope → List M

namespace Network

variable {M : Type u} {net net' : Network M} {e e' : Envelope} {m : M}

/-- Nothing in flight. -/
def empty : Network M := ⟨fun _ => []⟩

/-- Put a message on its channel. -/
def post (net : Network M) (e : Envelope) (m : M) : Network M :=
  ⟨Function.update net.queue e (net.queue e ++ [m])⟩

/-- Take the oldest message from a channel. -/
def receive (net : Network M) (e : Envelope) : Option (M × Network M) :=
  (net.queue e).head?.map fun m => (m, ⟨Function.update net.queue e (net.queue e).tail⟩)

/-- Nothing is in flight on a channel: a send on it that is not buffered returns. -/
def Delivered (net : Network M) (e : Envelope) : Prop := net.queue e = []

instance : Decidable (net.Delivered e) :=
  inferInstanceAs (Decidable (net.queue e = []))

@[simp]
theorem queue_empty : (empty : Network M).queue e = [] := rfl

@[simp]
theorem queue_post_self : (net.post e m).queue e = net.queue e ++ [m] :=
  Function.update_self ..

theorem queue_post_of_ne (hne : e' ≠ e) : (net.post e m).queue e' = net.queue e' :=
  Function.update_of_ne hne ..

/-- A receive takes the head of its channel and leaves the other channels alone. -/
theorem of_receive (h : net.receive e = some (m, net')) :
    net.queue e = m :: net'.queue e ∧ ∀ e', e' ≠ e → net'.queue e' = net.queue e' := by
  rw [receive, Option.map_eq_some_iff] at h
  obtain ⟨first, hfirst, heq⟩ := h
  obtain ⟨rfl, rfl⟩ := Prod.mk.inj heq
  obtain ⟨rest, hrest⟩ := List.head?_eq_some_iff.mp hfirst
  constructor
  · show net.queue e = first :: Function.update net.queue e (net.queue e).tail e
    rw [Function.update_self, hrest, List.tail_cons]
  · intro e' hne
    exact Function.update_of_ne hne ..

/-- A receive waits for a message only while there is none. -/
theorem exists_receive (h : ¬ net.Delivered e) : ∃ m net', net.receive e = some (m, net') := by
  cases hqueue : net.queue e with
  | nil => exact absurd hqueue h
  | cons m rest => exact ⟨m, _, by rw [receive, hqueue]; rfl⟩

end Network

/-! ## Ranks in a row

Which rank can move is often argued from the first or the last one in some state. -/

section Ranks

variable {P : ℕ → Prop} {n r : ℕ}

theorem exists_first (hr : r < n) (h : P r) : ∃ q < n, P q ∧ ∀ q' < q, ¬ P q' := by
  classical
  have hex : ∃ q, P q := ⟨r, h⟩
  exact ⟨Nat.find hex, Nat.lt_of_le_of_lt (Nat.find_min' hex h) hr, Nat.find_spec hex,
    fun _ => Nat.find_min hex⟩

theorem exists_last (hr : r < n) (h : P r) :
    ∃ q < n, P q ∧ ∀ q', q < q' → q' < n → ¬ P q' := by
  classical
  have hle : r ≤ n - 1 := Nat.le_pred_of_lt hr
  have hbound : Nat.findGreatest P (n - 1) ≤ n - 1 := Nat.findGreatest_le (n - 1)
  refine ⟨Nat.findGreatest P (n - 1), by omega, Nat.findGreatest_spec hle h, ?_⟩
  intro q' hlt hq'
  exact Nat.findGreatest_is_greatest hlt (Nat.le_pred_of_lt hq')

end Ranks

end PerfHound.Lib
