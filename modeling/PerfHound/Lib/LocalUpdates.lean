/-
# Updates of one part at a time

A list of updates, each of which addresses one part of a state and leaves the others.
Where no part is addressed twice, the parts can be followed one by one: every addressed
part went through its own update, every other one is as it was.
-/

import Mathlib.Data.List.Nodup

namespace PerfHound.Lib

universe u v w x

/-- `step` updates the part it is addressed to by `f`, and no other valid part. -/
structure LocalStep {σ : Type u} {κ : Type v} {ω : Type w} {ν : Type x} (valid : κ → Prop)
    (view : σ → κ → ν) (f : κ → ω → ν → ν) (step : σ → κ × ω → σ) : Prop where
  self : ∀ s p, valid p.1 → view (step s p) p.1 = f p.1 p.2 (view s p.1)
  other : ∀ s p k, valid p.1 → valid k → k ≠ p.1 → view (step s p) k = view s k

namespace LocalStep

variable {σ : Type u} {κ : Type v} {ω : Type w} {ν : Type x} {valid : κ → Prop}
  {view : σ → κ → ν} {f : κ → ω → ν → ν} {step : σ → κ × ω → σ}

/-- A part that is not addressed is as it was. -/
theorem foldl_of_not_mem (h : LocalStep valid view f step) {k : κ} (hk : valid k) :
    ∀ (l : List (κ × ω)) (s : σ), (∀ p ∈ l, valid p.1) → (∀ p ∈ l, k ≠ p.1) →
      view (l.foldl step s) k = view s k := by
  intro l
  induction l with
  | nil => intro s _ _; rfl
  | cons p l ih =>
      intro s hvalid hne
      have hrest := ih (step s p) (fun q hq => hvalid q (List.mem_cons_of_mem _ hq))
        fun q hq => hne q (List.mem_cons_of_mem _ hq)
      exact hrest.trans (h.other s p k (hvalid p List.mem_cons_self) hk (hne p List.mem_cons_self))

/-- An addressed part went through its update. -/
theorem foldl_of_mem (h : LocalStep valid view f step) :
    ∀ {l : List (κ × ω)} {s : σ} {p : κ × ω}, (∀ p ∈ l, valid p.1) → (l.map Prod.fst).Nodup →
      p ∈ l → view (l.foldl step s) p.1 = f p.1 p.2 (view s p.1) := by
  intro l
  induction l with
  | nil => intro s p _ _ hp; exact absurd hp List.not_mem_nil
  | cons q l ih =>
      intro s p hvalid hnodup hp
      rw [List.map_cons, List.nodup_cons] at hnodup
      have hq : valid q.1 := hvalid q List.mem_cons_self
      have hl : ∀ p ∈ l, valid p.1 := fun r hr => hvalid r (List.mem_cons_of_mem _ hr)
      rw [List.foldl_cons]
      rcases List.mem_cons.mp hp with rfl | hp
      · have hne : ∀ r ∈ l, p.1 ≠ r.1 := fun r hr heq =>
          hnodup.1 (heq ▸ List.mem_map_of_mem (f := Prod.fst) hr)
        rw [h.foldl_of_not_mem hq l _ hl hne, h.self s p hq]
      · have hne : p.1 ≠ q.1 := fun heq =>
          hnodup.1 (heq ▸ List.mem_map_of_mem (f := Prod.fst) hp)
        rw [ih hl hnodup.2 hp, h.other s q p.1 hq (hl p hp) hne]

end LocalStep

end PerfHound.Lib
