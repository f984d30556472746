/-
# Programs over device registers

A driver reads and writes the registers of a device. `RegProg` is the syntax of such
programs: the reads and writes in the order they happen, each read continuing with the
word it returned. A `Device` says what the two do to the device's state.

Besides the result of a run there are the states it passes through, one after each
write. `Holds` is a weakest precondition that speaks about both: an invariant that
every write re-establishes, and a postcondition for the end. It is computed along the
program, so its rules are equations, and `loop` has the usual invariant rule.
-/

import Mathlib.Data.List.Basic

namespace PerfHound.Lib

universe uσ uν

/-- A program that reads and writes words `W` at addresses `A`. -/
inductive RegProg (A W : Type) (α : Type)
  | ret (a : α)
  | read (addr : A) (k : W → RegProg A W α)
  | write (addr : A) (w : W) (k : RegProg A W α)

/-- What a read and a write do to the state of a device. -/
structure Device (A W : Type) (σ : Type uσ) where
  read : σ → A → W
  write : σ → A → W → σ

namespace RegProg

variable {A W α β : Type} {σ : Type uσ}

/-- Run one program, and then another one on its result. -/
def bind : RegProg A W α → (α → RegProg A W β) → RegProg A W β
  | .ret a, f => f a
  | .read addr k, f => .read addr fun w => (k w).bind f
  | .write addr w k, f => .write addr w (k.bind f)

instance : Monad (RegProg A W) where
  pure := .ret
  bind := bind

/-- Read a register. -/
def readReg (addr : A) : RegProg A W W := .read addr .ret

/-- Write a register. -/
def writeReg (addr : A) (w : W) : RegProg A W Unit := .write addr w (.ret ())

/-- The C loop `for(i=i0;i<i0+n;i++,j++)` with both counters, and the variable its body
updates. -/
def loop (body : ℕ → ℕ → β → RegProg A W β) : ℕ → ℕ → ℕ → β → RegProg A W β
  | 0, _, _, b => .ret b
  | n + 1, i, j, b => do
      let b ← body i j b
      loop body n (i + 1) (j + 1) b

variable (d : Device A W σ)

/-- The result and the final state of a run. -/
def run : RegProg A W α → σ → α × σ
  | .ret a, s => (a, s)
  | .read addr k, s => (k (d.read s addr)).run s
  | .write addr w k, s => k.run (d.write s addr w)

/-- The states a run passes through after its writes, in order. -/
def moments : RegProg A W α → σ → List σ
  | .ret _, _ => []
  | .read addr k, s => (k (d.read s addr)).moments s
  | .write addr w k, s => d.write s addr w :: k.moments (d.write s addr w)

/-- Every write of a run leads to a state with `inv`, and its end satisfies `post`. -/
def Holds (inv : σ → Prop) : RegProg A W α → σ → (α → σ → Prop) → Prop
  | .ret a, s, post => post a s
  | .read addr k, s, post => (k (d.read s addr)).Holds inv s post
  | .write addr w k, s, post =>
      inv (d.write s addr w) ∧ k.Holds inv (d.write s addr w) post

variable {d} {inv : σ → Prop}

theorem holds_readReg {addr : A} {s : σ} {post : W → σ → Prop} :
    Holds d inv (readReg addr) s post ↔ post (d.read s addr) s := Iff.rfl

theorem holds_writeReg {addr : A} {w : W} {s : σ} {post : Unit → σ → Prop} :
    Holds d inv (writeReg addr w) s post ↔
      inv (d.write s addr w) ∧ post () (d.write s addr w) := Iff.rfl

/-- The rule of sequencing. -/
theorem holds_bind {p : RegProg A W α} {f : α → RegProg A W β} {s : σ} {post : β → σ → Prop} :
    Holds d inv (p >>= f) s post ↔ Holds d inv p s fun a t => Holds d inv (f a) t post := by
  induction p generalizing s with
  | ret a => rfl
  | read addr k ih => exact ih (d.read s addr)
  | write addr w k ih =>
      exact and_congr_right fun _ => ih

/-- The rule of consequence. -/
theorem Holds.mono {p : RegProg A W α} {s : σ} {post post' : α → σ → Prop}
    (h : Holds d inv p s post) (himp : ∀ a t, post a t → post' a t) :
    Holds d inv p s post' := by
  induction p generalizing s with
  | ret a => exact himp a s h
  | read addr k ih => exact ih (d.read s addr) h
  | write addr w k ih => exact ⟨h.1, ih h.2⟩

/-- Sequencing, for two facts proved apart. -/
theorem Holds.bind {p : RegProg A W α} {f : α → RegProg A W β} {s : σ}
    {middle : α → σ → Prop} {post : β → σ → Prop} (hp : Holds d inv p s middle)
    (hf : ∀ a t, middle a t → Holds d inv (f a) t post) : Holds d inv (p >>= f) s post :=
  holds_bind.mpr (hp.mono hf)

/-- The rule of the loop: what holds after `k` rounds leads to what holds after `k + 1`. -/
theorem holds_loop {body : ℕ → ℕ → β → RegProg A W β} (round : ℕ → β → σ → Prop) {n : ℕ} :
    ∀ {i j : ℕ} {b : β} {s : σ}, round 0 b s →
      (∀ k < n, ∀ c t, round k c t → Holds d inv (body (i + k) (j + k) c) t (round (k + 1))) →
      Holds d inv (loop body n i j b) s (round n) := by
  induction n generalizing round with
  | zero => intro i j b s hs _; exact hs
  | succ n ih =>
      intro i j b s hs hbody
      refine Holds.bind (hbody 0 (Nat.succ_pos n) b s hs) fun c t ht => ?_
      refine ih (fun k => round (k + 1)) ht fun k hk e u hu => ?_
      have hround := hbody (k + 1) (Nat.succ_lt_succ hk) e u hu
      have hcounter : ∀ x, x + 1 + k = x + (k + 1) := fun x => by omega
      rw [hcounter, hcounter]
      exact hround

/-- A program without writes. -/
def ReadOnly : RegProg A W α → Prop
  | .ret _ => True
  | .read _ k => ∀ w, (k w).ReadOnly
  | .write _ _ _ => False

/-- A program without writes leaves the device as it is. -/
theorem ReadOnly.holds {p : RegProg A W α} (h : p.ReadOnly) (s : σ) :
    Holds d inv p s fun _ t => t = s := by
  induction p generalizing s with
  | ret a => rfl
  | read addr k ih => exact ih (d.read s addr) (h _) s
  | write addr w k _ => exact h.elim

/-- A program that writes at addresses in `S` only. -/
def WritesIn (S : A → Prop) : RegProg A W α → Prop
  | .ret _ => True
  | .read _ k => ∀ w, (k w).WritesIn S
  | .write addr _ k => S addr ∧ k.WritesIn S

theorem WritesIn.bind {S : A → Prop} {p : RegProg A W α} {f : α → RegProg A W β}
    (hp : p.WritesIn S) (hf : ∀ a, (f a).WritesIn S) : (p >>= f).WritesIn S := by
  induction p with
  | ret a => exact hf a
  | read addr k ih => exact fun w => ih w (hp w)
  | write addr w k ih => exact ⟨hp.1, ih hp.2⟩

theorem WritesIn.loop {S : A → Prop} {body : ℕ → ℕ → β → RegProg A W β} {n : ℕ} :
    ∀ {i j : ℕ} {b : β}, (∀ k < n, ∀ c, (body (i + k) (j + k) c).WritesIn S) →
      (RegProg.loop body n i j b).WritesIn S := by
  induction n with
  | zero => intro i j b _; trivial
  | succ n ih =>
      intro i j b hbody
      refine WritesIn.bind (hbody 0 (Nat.succ_pos n) b) fun c => ih fun k hk e => ?_
      have hround := hbody (k + 1) (Nat.succ_lt_succ hk) e
      have hcounter : ∀ x, x + 1 + k = x + (k + 1) := fun x => by omega
      rw [hcounter, hcounter]
      exact hround

/-- The frame rule: what no write at these addresses touches is as it was. -/
theorem WritesIn.frame {ν : Type uν} {S : A → Prop} {p : RegProg A W α} (h : p.WritesIn S)
    (view : σ → ν) (hview : ∀ s addr w, S addr → view (d.write s addr w) = view s) (s : σ) :
    view (p.run d s).2 = view s := by
  induction p generalizing s with
  | ret a => rfl
  | read addr k ih => exact ih (d.read s addr) (h _) s
  | write addr w k ih => exact (ih h.2 (d.write s addr w)).trans (hview s addr w h.1)

/-- What `Holds` says is true of the runs. -/
theorem Holds.sound {p : RegProg A W α} {s : σ} {post : α → σ → Prop} (h : Holds d inv p s post) :
    (∀ t ∈ p.moments d s, inv t) ∧ post (p.run d s).1 (p.run d s).2 := by
  induction p generalizing s with
  | ret a => exact ⟨fun t ht => absurd ht List.not_mem_nil, h⟩
  | read addr k ih => exact ih (d.read s addr) h
  | write addr w k ih =>
      obtain ⟨hrest, hpost⟩ := ih h.2
      refine ⟨fun t ht => ?_, hpost⟩
      rcases List.mem_cons.mp ht with rfl | ht
      · exact h.1
      · exact hrest t ht

/-- A postcondition on its own. -/
theorem Holds.run {p : RegProg A W α} {s : σ} {post : α → σ → Prop}
    (h : Holds d (fun _ => True) p s post) : post (p.run d s).1 (p.run d s).2 :=
  h.sound.2

theorem run_bind (p : RegProg A W α) (f : α → RegProg A W β) (s : σ) :
    (p >>= f).run d s = (f (p.run d s).1).run d (p.run d s).2 := by
  induction p generalizing s with
  | ret a => rfl
  | read addr k ih => exact ih (d.read s addr) s
  | write addr w k ih => exact ih (d.write s addr w)

/-- The run of a loop, round by round. -/
theorem run_loop {body : ℕ → ℕ → β → RegProg A W β} {n : ℕ} :
    ∀ {i j : ℕ} {b : β} {s : σ}, (loop body n i j b).run d s =
      (List.range n).foldl (fun r k => (body (i + k) (j + k) r.1).run d r.2) (b, s) := by
  induction n with
  | zero => intro i j b s; rfl
  | succ n ih =>
      intro i j b s
      have hcounter : ∀ x k, x + 1 + k = x + (k + 1) := fun x k => by omega
      have hbind : (loop body (n + 1) i j b).run d s =
          (loop body n (i + 1) (j + 1) ((body i j b).run d s).1).run d
            ((body i j b).run d s).2 := run_bind (body i j b) _ s
      rw [hbind, ih, List.range_succ_eq_map, List.foldl_cons, List.foldl_map]
      simp only [hcounter, Nat.add_zero, Nat.succ_eq_add_one]

end RegProg

end PerfHound.Lib
