/-
# Runs of a partial state machine

A step function `σ → α → Option σ` takes one input and may have no successor.
This module packages the two inductions a development over such machines keeps
repeating. `run_eq` turns a step that is known in closed form on an invariant
into a closed form of whole runs, so a run that exists is known to exist. And
`run_emits` accounts for an observation that each step extends by its own output.

The outputs are read off the state a step *starts* in, so what a run emits is
defined without reference to the observation it is compared with.
-/

import Mathlib.Data.List.Basic

namespace PerfHound.Lib

universe uσ uα uβ

namespace Runs

variable {σ : Type uσ} {α : Type uα} {β : Type uβ}

/-- Feed the inputs one after the other, stopping where a step has no successor. -/
def run (step : σ → α → Option σ) : σ → List α → Option σ
  | s, [] => some s
  | s, a :: rest => (step s a).bind fun t => run step t rest

/-- The outputs of a run, in order. -/
def emitted (step : σ → α → Option σ) (out : σ → α → List β) : σ → List α → List β
  | _, [] => []
  | s, a :: rest => out s a ++ (step s a).elim [] fun t => emitted step out t rest

@[simp]
theorem run_nil (step : σ → α → Option σ) (s : σ) : run step s [] = some s := rfl

theorem run_cons {step : σ → α → Option σ} {s t : σ} {a : α} (hstep : step s a = some t)
    (rest : List α) : run step s (a :: rest) = run step t rest := by
  simp [run, hstep]

/-- A run in two parts. -/
theorem run_append_eq (step : σ → α → Option σ) (s : σ) (inputs rest : List α) :
    run step s (inputs ++ rest) = (run step s inputs).bind fun t => run step t rest := by
  induction inputs generalizing s with
  | nil => rfl
  | cons a inputs ih => simp [run, ih, Option.bind_assoc]

theorem run_append {step : σ → α → Option σ} {s t : σ} {inputs : List α}
    (hrun : run step s inputs = some t) (rest : List α) :
    run step s (inputs ++ rest) = run step t rest := by
  rw [run_append_eq, hrun, Option.bind_some]

/-- A run goes on from where a part of it ends. -/
theorem run_rest {step : σ → α → Option σ} {s t u : σ} {inputs rest : List α}
    (hpart : inputs <+: rest) (hinputs : run step s inputs = some t)
    (hrest : run step s rest = some u) : ∃ more, run step t more = some u := by
  obtain ⟨more, rfl⟩ := hpart
  exact ⟨more, by rwa [run_append hinputs] at hrest⟩

theorem emitted_cons {step : σ → α → Option σ} (out : σ → α → List β) {s t : σ} {a : α}
    (hstep : step s a = some t) (rest : List α) :
    emitted step out s (a :: rest) = out s a ++ emitted step out t rest := by
  simp [emitted, hstep]

/-- Outputs that agree on the inputs of a run are emitted alike. -/
theorem emitted_congr {step : σ → α → Option σ} {out out' : σ → α → List β} {inputs : List α}
    (hagree : ∀ a ∈ inputs, ∀ s, out s a = out' s a) (s : σ) :
    emitted step out s inputs = emitted step out' s inputs := by
  induction inputs generalizing s with
  | nil => rfl
  | cons a rest ih =>
      have hrest : ∀ t, emitted step out t rest = emitted step out' t rest :=
        ih fun b hb => hagree b (List.mem_cons_of_mem a hb)
      cases hone : step s a with
      | none => simp only [emitted, hone, Option.elim_none, hagree a List.mem_cons_self s]
      | some t =>
          rw [emitted_cons out hone, emitted_cons out' hone, hrest t,
            hagree a List.mem_cons_self s]

/-- A property of every input a run is given, in the state it is given in. -/
def EveryStep (step : σ → α → Option σ) (holds : σ → α → Prop) : σ → List α → Prop
  | _, [] => True
  | s, a :: rest => holds s a ∧ ∀ t, step s a = some t → EveryStep step holds t rest

theorem everyStep_cons_of_none {step : σ → α → Option σ} {holds : σ → α → Prop} {s : σ} {a : α}
    (h : step s a = none) (rest : List α) :
    holds s a ↔ EveryStep step holds s (a :: rest) := by
  simp [EveryStep, h]

theorem everyStep_cons_of_some {step : σ → α → Option σ} {holds : σ → α → Prop} {s t : σ} {a : α}
    (h : step s a = some t) (rest : List α) :
    holds s a ∧ EveryStep step holds t rest ↔ EveryStep step holds s (a :: rest) := by
  simp [EveryStep, h]

/-- A run with decidable steps can be checked step by step. -/
instance EveryStep.decidable (step : σ → α → Option σ) (holds : σ → α → Prop)
    [∀ s a, Decidable (holds s a)] :
    (s : σ) → (inputs : List α) → Decidable (EveryStep step holds s inputs)
  | _, [] => .isTrue trivial
  | s, a :: rest =>
      match h : step s a with
      | none => decidable_of_iff _ (everyStep_cons_of_none h rest)
      | some t =>
          have := EveryStep.decidable step holds t rest
          decidable_of_iff _ (everyStep_cons_of_some h rest)

/-- What holds of every step of a run may be used to establish an invariant along it,
and with the invariant something else about every step. -/
theorem EveryStep.imp {step : σ → α → Option σ} {given holds : σ → α → Prop} (inv : σ → Prop)
    (hstep : ∀ s a, inv s → given s a → holds s a ∧ ∀ t, step s a = some t → inv t) :
    ∀ (inputs : List α) (s : σ), inv s → EveryStep step given s inputs →
      EveryStep step holds s inputs := by
  intro inputs
  induction inputs with
  | nil => intro s _ _; trivial
  | cons a rest ih =>
      intro s hs hgiven
      obtain ⟨hholds, hinv⟩ := hstep s a hs hgiven.1
      exact ⟨hholds, fun t hone => ih t (hinv t hone) (hgiven.2 t hone)⟩

/-- An invariant of the steps a run takes holds at its end. -/
theorem EveryStep.run_invariant {step : σ → α → Option σ} {given : σ → α → Prop}
    (inv : σ → Prop)
    (hstep : ∀ s a t, inv s → given s a → step s a = some t → inv t) :
    ∀ (inputs : List α) (s t : σ), inv s → EveryStep step given s inputs →
      run step s inputs = some t → inv t := by
  intro inputs
  induction inputs with
  | nil =>
      intro s t hs _ hrun
      obtain rfl : s = t := by simpa using hrun
      exact hs
  | cons a rest ih =>
      intro s t hs hgiven hrun
      cases hone : step s a with
      | none => simp [run, hone] at hrun
      | some middle =>
          rw [run_cons hone] at hrun
          exact ih middle t (hstep s a middle hs hgiven.1 hone) (hgiven.2 middle hone) hrun

/-- A step in closed form on an invariant gives runs in closed form, and the
invariant at their end. -/
theorem run_eq {step : σ → α → Option σ} (next : σ → α → σ) (inv : σ → Prop)
    (valid : α → Prop)
    (hstep : ∀ s a, inv s → valid a → step s a = some (next s a) ∧ inv (next s a)) :
    ∀ (inputs : List α) (s : σ), inv s → (∀ a ∈ inputs, valid a) →
      run step s inputs = some (inputs.foldl next s) ∧ inv (inputs.foldl next s) := by
  intro inputs
  induction inputs with
  | nil => intro s hs _; exact ⟨rfl, hs⟩
  | cons a rest ih =>
      intro s hs hvalid
      obtain ⟨hone, hinv⟩ := hstep s a hs (hvalid a List.mem_cons_self)
      rw [run_cons hone]
      exact ih (next s a) hinv fun b hb => hvalid b (List.mem_cons_of_mem a hb)

/-- A machine without failing steps. -/
theorem run_total (next : σ → α → σ) (s : σ) (inputs : List α) :
    run (fun s a => some (next s a)) s inputs = some (inputs.foldl next s) :=
  (run_eq next (fun _ => True) (fun _ => True) (fun _ _ _ _ => ⟨rfl, trivial⟩) inputs s trivial
    fun _ _ => trivial).1

/-- A relation between the ends of a run and its outputs, proved for single steps
and closed under composition, holds of every run. -/
theorem run_rel {step : σ → α → Option σ} (out : σ → α → List β)
    (rel : σ → List β → σ → Prop) (valid : α → Prop) (hnil : ∀ s, rel s [] s)
    (happend : ∀ s t u xs ys, rel s xs t → rel t ys u → rel s (xs ++ ys) u)
    (hstep : ∀ s a t, valid a → step s a = some t → rel s (out s a) t) :
    ∀ (inputs : List α) (s t : σ), (∀ a ∈ inputs, valid a) →
      run step s inputs = some t → rel s (emitted step out s inputs) t := by
  intro inputs
  induction inputs with
  | nil =>
      intro s t _ hrun
      obtain rfl : s = t := by simpa using hrun
      exact hnil s
  | cons a rest ih =>
      intro s t hvalid hrun
      cases hone : step s a with
      | none => simp [run, hone] at hrun
      | some middle =>
          rw [run_cons hone] at hrun
          rw [emitted_cons out hone]
          exact happend s middle t _ _ (hstep s a middle (hvalid a List.mem_cons_self) hone)
            (ih middle t (fun b hb => hvalid b (List.mem_cons_of_mem a hb)) hrun)

/-- An observation that each step extends by its output is extended by the outputs
of a run. -/
theorem run_emits {step : σ → α → Option σ} (out : σ → α → List β) (view : σ → List β)
    (inv : σ → Prop) (valid : α → Prop)
    (hstep : ∀ s a t, inv s → valid a → step s a = some t →
      inv t ∧ view t = view s ++ out s a)
    (inputs : List α) (s t : σ) (hs : inv s) (hvalid : ∀ a ∈ inputs, valid a)
    (hrun : run step s inputs = some t) :
    inv t ∧ view t = view s ++ emitted step out s inputs := by
  refine run_rel out (fun s xs t => inv s → inv t ∧ view t = view s ++ xs) valid ?_ ?_ ?_
    inputs s t hvalid hrun hs
  · intro s hs
    exact ⟨hs, (List.append_nil _).symm⟩
  · intro s t u xs ys hst htu hs
    obtain ⟨ht, hxs⟩ := hst hs
    obtain ⟨hu, hys⟩ := htu ht
    exact ⟨hu, by rw [hys, hxs, List.append_assoc]⟩
  · intro s a t ha hone hs
    exact hstep s a t hs ha hone

/-- Related results have related continuations. -/
theorem rel_bind {τ τ' υ υ' : Type uσ} {r : τ → τ' → Prop} {q : υ → υ' → Prop} {x : Option τ}
    {y : Option τ'} {f : τ → Option υ} {g : τ' → Option υ'} (hxy : Option.Rel r x y)
    (hfg : ∀ a b, r a b → Option.Rel q (f a) (g b)) : Option.Rel q (x.bind f) (y.bind g) := by
  cases hxy with
  | none => exact Option.Rel.none
  | some h => exact hfg _ _ h

theorem rel_map {τ τ' υ υ' : Type uσ} {r : τ → τ' → Prop} {q : υ → υ' → Prop} {x : Option τ}
    {y : Option τ'} {f : τ → υ} {g : τ' → υ'} (hxy : Option.Rel r x y)
    (hfg : ∀ a b, r a b → q (f a) (g b)) : Option.Rel q (x.map f) (y.map g) := by
  cases hxy with
  | none => exact Option.Rel.none
  | some h => exact Option.Rel.some (hfg _ _ h)

theorem rel_map_left {τ υ τ' : Type uσ} {r : τ → τ' → Prop} {q : υ → τ' → Prop} {x : Option τ}
    {y : Option τ'} {f : τ → υ} (hxy : Option.Rel r x y) (hfg : ∀ a b, r a b → q (f a) b) :
    Option.Rel q (x.map f) y := by
  cases hxy with
  | none => exact Option.Rel.none
  | some h => exact Option.Rel.some (hfg _ _ h)

/-- Results that can only be related by being equal are equal. -/
theorem eq_of_rel {τ : Type uσ} {x y : Option τ} (h : Option.Rel (· = ·) x y) : x = y := by
  cases h with
  | none => rfl
  | some h => exact congrArg some h

/-- Two machines fed the same inputs, whose steps keep a relation between their states:
either both runs end, in related states, or neither does. -/
theorem run_related {τ : Type uσ} {step : σ → α → Option σ} {step' : τ → α → Option τ}
    (rel : σ → τ → Prop)
    (hstep : ∀ s t a, rel s t → Option.Rel rel (step s a) (step' t a)) :
    ∀ (inputs : List α) (s : σ) (t : τ), rel s t →
      Option.Rel rel (run step s inputs) (run step' t inputs) := by
  intro inputs
  induction inputs with
  | nil => intro s t h; exact Option.Rel.some h
  | cons a rest ih => intro s t h; exact rel_bind (hstep s t a h) ih

/-- A machine whose steps and outputs are those of another one, seen through `view`, has its
runs and emits what it emits. -/
theorem run_view {τ : Type uσ} {step : σ → α → Option σ} {step' : τ → α → Option τ}
    {out : σ → α → List β} {out' : τ → α → List β} (view : σ → τ) (valid : α → Prop)
    (hstep : ∀ s a, valid a → step' (view s) a = (step s a).map view)
    (hout : ∀ s a, valid a → out' (view s) a = out s a) :
    ∀ (inputs : List α) (s : σ), (∀ a ∈ inputs, valid a) →
      run step' (view s) inputs = (run step s inputs).map view ∧
        emitted step' out' (view s) inputs = emitted step out s inputs := by
  intro inputs
  induction inputs with
  | nil => intro s _; exact ⟨rfl, rfl⟩
  | cons a rest ih =>
      intro s hvalid
      have ha : valid a := hvalid a List.mem_cons_self
      have hone := hstep s a ha
      cases hnext : step s a with
      | none =>
          rw [hnext, Option.map_none] at hone
          simp only [run, emitted, hone, hnext, hout s a ha, Option.bind_none, Option.map_none,
            Option.elim_none, and_self]
      | some t =>
          rw [hnext, Option.map_some] at hone
          obtain ⟨hrun, hemitted⟩ := ih t fun b hb => hvalid b (List.mem_cons_of_mem a hb)
          rw [run_cons hone, run_cons hnext, emitted_cons out' hone, emitted_cons out hnext, hrun,
            hemitted, hout s a ha]
          exact ⟨rfl, rfl⟩

/-- An invariant of single steps holds at the end of a run. -/
theorem run_invariant {step : σ → α → Option σ} (inv : σ → Prop) (valid : α → Prop)
    (hstep : ∀ s a t, inv s → valid a → step s a = some t → inv t)
    (inputs : List α) (s t : σ) (hs : inv s) (hvalid : ∀ a ∈ inputs, valid a)
    (hrun : run step s inputs = some t) : inv t :=
  (run_emits (β := Empty) (fun _ _ => []) (fun _ => []) inv valid
    (fun s a t hs ha hone => ⟨hstep s a t hs ha hone, rfl⟩) inputs s t hs hvalid hrun).1

/-- Where every step raises a quantity that the invariant bounds, runs are bounded. -/
theorem length_le {step : σ → α → Option σ} (inv : σ → Prop) (potential : σ → ℕ) (bound : ℕ)
    (hbound : ∀ s, inv s → potential s ≤ bound)
    (hstep : ∀ s a t, inv s → step s a = some t → inv t ∧ potential s < potential t) :
    ∀ (inputs : List α) (s t : σ), inv s → run step s inputs = some t →
      inputs.length + potential s ≤ bound := by
  intro inputs
  induction inputs with
  | nil =>
      intro s t hs _
      rw [List.length_nil, Nat.zero_add]
      exact hbound s hs
  | cons a rest ih =>
      intro s t hs hrun
      cases hone : step s a with
      | none => simp [run, hone] at hrun
      | some middle =>
          rw [run_cons hone] at hrun
          obtain ⟨hinv, hmore⟩ := hstep s a middle hs hone
          have hrest := ih middle t hinv hrun
          rw [List.length_cons]
          omega

/-- Where a step that raises a bounded quantity can be taken until a goal is reached, some
run reaches it. -/
theorem exists_run_until {step : σ → α → Option σ} (inv goal : σ → Prop) (potential : σ → ℕ)
    (bound : ℕ) (hbound : ∀ s, inv s → potential s ≤ bound)
    (hstep : ∀ s, inv s → ¬ goal s →
      ∃ a t, step s a = some t ∧ inv t ∧ potential s < potential t) :
    ∀ s, inv s → ∃ inputs t, run step s inputs = some t ∧ inv t ∧ goal t := by
  have hleft : ∀ n s, inv s → bound - potential s ≤ n →
      ∃ inputs t, run step s inputs = some t ∧ inv t ∧ goal t := by
    intro n
    induction n with
    | zero =>
        intro s hs hn
        by_cases hgoal : goal s
        · exact ⟨[], s, rfl, hs, hgoal⟩
        · obtain ⟨a, t, -, ht, hmore⟩ := hstep s hs hgoal
          have hlast := hbound t ht
          omega
    | succ n ih =>
        intro s hs hn
        by_cases hgoal : goal s
        · exact ⟨[], s, rfl, hs, hgoal⟩
        · obtain ⟨a, t, hone, ht, hmore⟩ := hstep s hs hgoal
          obtain ⟨inputs, u, hrun, hu, hreached⟩ := ih t ht (by omega)
          exact ⟨a :: inputs, u, by rw [run_cons hone, hrun], hu, hreached⟩
  intro s hs
  exact hleft (bound - potential s) s hs (Nat.le_refl _)

end Runs

end PerfHound.Lib
