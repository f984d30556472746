/-
# Programs that attempt one thing after the other

A program with a state and exceptions keeps a log of what it attempts. It has a plan, and
carries the plan out in order: if it returns, it has attempted the whole plan and every attempt
was one that succeeds; if it raises an exception, it has attempted a first part of the plan, and
one of these attempts was one that does not succeed. `Attempts` says so with a pre- and a
postcondition on the state, and there is a rule for each way in which programs are put together.
-/

import Mathlib.Data.List.Basic

namespace PerfHound.Lib

universe u

variable {ε σ α β γ ι : Type u}

/-- From a state with `pre` the program carries out the plan `xs`, and ends with `post` if it
returns. What is attempted is appended to `log`, and succeeds if it is `good`. -/
def Attempts (log : σ → List α) (good : α → Prop) (pre : σ → Prop) (m : EStateM ε σ β)
    (xs : List α) (post : β → σ → Prop) : Prop :=
  ∀ s, pre s →
    match m s with
    | .ok b t => post b t ∧ log t = log s ++ xs ∧ ∀ x ∈ xs, good x
    | .error _ t => ∃ made, made <+: xs ∧ log t = log s ++ made ∧ ∃ x ∈ made, ¬ good x

namespace Attempts

variable {log : σ → List α} {good : α → Prop} {pre : σ → Prop} {mid : β → σ → Prop}
  {post : γ → σ → Prop} {m : EStateM ε σ β} {k : β → EStateM ε σ γ} {xs ys : List α}

/-! ## The rules -/

/-- A program that attempts nothing and does not fail. -/
theorem of_ok {post : β → σ → Prop}
    (h : ∀ s, pre s → ∃ b t, m s = .ok b t ∧ post b t ∧ log t = log s) :
    Attempts log good pre m [] post := by
  intro s hs
  obtain ⟨b, t, hm, hpost, hlog⟩ := h s hs
  rw [hm]
  exact ⟨hpost, by rw [hlog, List.append_nil], fun x hx => absurd hx List.not_mem_nil⟩

theorem of_attempt {post : β → σ → Prop} {x : α}
    (hok : good x → ∀ s, pre s → ∃ b t, m s = .ok b t ∧ post b t ∧ log t = log s ++ [x])
    (herror : ¬ good x → ∀ s, pre s → ∃ e t, m s = .error e t ∧ log t = log s ++ [x]) :
    Attempts log good pre m [x] post := by
  intro s hs
  by_cases hx : good x
  · obtain ⟨b, t, hm, hpost, hlog⟩ := hok hx s hs
    rw [hm]
    exact ⟨hpost, hlog, fun y hy => List.mem_singleton.mp hy ▸ hx⟩
  · obtain ⟨e, t, hm, hlog⟩ := herror hx s hs
    rw [hm]
    exact ⟨[x], List.prefix_refl _, hlog, x, List.mem_singleton_self x, hx⟩

theorem pure {post : β → σ → Prop} {b : β} (h : ∀ s, pre s → post b s) :
    Attempts log good pre (Pure.pure b : EStateM ε σ β) [] post :=
  of_ok fun s hs => ⟨b, s, rfl, h s hs, rfl⟩

theorem bind (hm : Attempts log good pre m xs mid)
    (hk : ∀ b, Attempts log good (mid b) (k b) ys post) :
    Attempts log good pre (m >>= k) (xs ++ ys) post := by
  intro s hs
  have hfirst := hm s hs
  change match EStateM.bind m k s with
    | .ok b t => _
    | .error _ t => _
  unfold EStateM.bind
  cases hrun : m s with
  | ok b t =>
    rw [hrun] at hfirst
    obtain ⟨hmid, hlog, hgood⟩ := hfirst
    have hsecond := hk b t hmid
    cases hrest : k b t with
    | ok c u =>
      simp only [hrest] at hsecond ⊢
      obtain ⟨hpost, hlog', hgood'⟩ := hsecond
      refine ⟨hpost, by rw [hlog', hlog, List.append_assoc], fun x hx => ?_⟩
      obtain hx | hx := List.mem_append.mp hx
      · exact hgood x hx
      · exact hgood' x hx
    | error e u =>
      simp only [hrest] at hsecond ⊢
      obtain ⟨made, hmade, hlog', x, hx, hbad⟩ := hsecond
      exact ⟨xs ++ made, (List.prefix_append_right_inj xs).mpr hmade,
        by rw [hlog', hlog, List.append_assoc], x, List.mem_append_right _ hx, hbad⟩
  | error e t =>
    rw [hrun] at hfirst
    obtain ⟨made, hmade, hlog, hbad⟩ := hfirst
    exact ⟨made, hmade.trans (List.prefix_append xs ys), hlog, hbad⟩

/-- A loop over a list, each element with its part of the plan. -/
theorem forM {f : ι → EStateM ε σ PUnit} {plan : ι → List α}
    (h : ∀ i, Attempts log good pre (f i) (plan i) fun _ => pre) (is : List ι) :
    Attempts log good pre (is.forM f) (is.flatMap plan) fun _ => pre := by
  induction is with
  | nil => exact pure fun s hs => hs
  | cons i is ih =>
    rw [List.flatMap_cons]
    exact bind (h i) fun _ => ih

/-- A loop over the first numbers that hands a value on, with an invariant for each number. -/
theorem foldlM_range {f : β → ℕ → EStateM ε σ β} {plan : ℕ → List α} (inv : ℕ → β → σ → Prop)
    {n : ℕ} (h : ∀ i, i < n → ∀ b, Attempts log good (inv i b) (f b i) (plan i) (inv (i + 1)))
    (b : β) :
    Attempts log good (inv 0 b) ((List.range n).foldlM f b) ((List.range n).flatMap plan)
      (inv n) := by
  induction n with
  | zero => exact pure fun s hs => hs
  | succ n ih =>
    rw [List.range_succ, List.foldlM_append, List.flatMap_append, List.flatMap_singleton]
    refine bind (ih fun i hi => h i (Nat.lt_succ_of_lt hi)) fun c => ?_
    simp only [List.foldlM_cons, List.foldlM_nil, bind_pure]
    exact h n (Nat.lt_succ_self n) c

end Attempts

end PerfHound.Lib
