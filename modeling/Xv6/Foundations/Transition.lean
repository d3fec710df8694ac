import Mathlib.Algebra.Order.Ring.Int
import Mathlib.Logic.Basic

/-!
# Labelled transition systems

The systems of this development are step relations: a state, the initial states, and the steps,
each labelled by what an observer can see of it. A *run* keeps the labels it has gone through,
newest first, so that a quantity such as "the number of ticks since the last reset" is a function
of the run's history and needs no auxiliary state.

* `LTS.Run` is a run from an initial state, with its history; `LTS.Run.invariant` is the
  induction rule for invariants that may speak of the history.
* `LTS.restrict` keeps the steps that meet a condition.
* `LTS.Within` is a path between two states all of whose states satisfy a predicate;
  `LTS.Within.invariant` is its induction rule.
-/

namespace Xv6

/-- A labelled transition system. -/
structure LTS (σ ε : Type*) where
  /-- The initial states. -/
  init : σ → Prop
  /-- `step s e s'`: a step from `s` to `s'`, seen as `e`. -/
  step : σ → ε → σ → Prop

namespace LTS

variable {σ ε : Type*} (S : LTS σ ε)

/-- `S.Run h s`: a run from an initial state to `s`; `h` lists its labels, newest first. -/
inductive Run : List ε → σ → Prop
  | init {s : σ} (h : S.init s) : Run [] s
  | step {h : List ε} {s : σ} {e : ε} {s' : σ} (r : Run h s) (t : S.step s e s') : Run (e :: h) s'

/-- The states that some run reaches. -/
def Reachable (s : σ) : Prop := ∃ h, S.Run h s

/-- `S.Within P s h s'`: a path from `s` to `s'` with labels `h`, newest first, all of whose
states, the two ends included, satisfy `P`. -/
inductive Within (P : σ → Prop) (s : σ) : List ε → σ → Prop
  | refl (hs : P s) : Within P s [] s
  | step {h : List ε} {s' : σ} {e : ε} {s'' : σ} (p : Within P s h s') (t : S.step s' e s'')
      (hs : P s'') : Within P s (e :: h) s''

/-- The steps of `S` that meet a condition on the state before the step and the label. -/
def restrict (P : σ → ε → Prop) : LTS σ ε where
  init := S.init
  step s e s' := S.step s e s' ∧ P s e

variable {S}

/-- A run whose steps meet a condition is a run. -/
theorem Run.of_restrict {P : σ → ε → Prop} {h : List ε} {s : σ} (r : (S.restrict P).Run h s) :
    S.Run h s := by
  induction r with
  | init hs => exact .init hs
  | step _ t ih => exact ih.step t.1

/-- If all steps meet the condition, nothing is lost. -/
theorem Reachable.restrict {P : σ → ε → Prop} {s : σ} (hs : S.Reachable s) (hP : ∀ s e, P s e) :
    (S.restrict P).Reachable s := by
  obtain ⟨h, r⟩ := hs
  refine ⟨h, ?_⟩
  induction r with
  | init hs => exact .init hs
  | step _ t ih => exact ih.step ⟨t, hP _ _⟩

theorem Reachable.of_restrict {P : σ → ε → Prop} {s : σ} (hs : (S.restrict P).Reachable s) :
    S.Reachable s :=
  let ⟨h, r⟩ := hs
  ⟨h, r.of_restrict⟩

/-- **The invariant rule.** What holds initially and is kept by every step of a run holds in
every state that a run reaches. -/
theorem Run.invariant {I : List ε → σ → Prop} (hinit : ∀ s, S.init s → I [] s)
    (hstep : ∀ h s e s', S.Run h s → I h s → S.step s e s' → I (e :: h) s') {h : List ε} {s : σ}
    (r : S.Run h s) : I h s := by
  induction r with
  | init hs => exact hinit _ hs
  | step r t ih => exact hstep _ _ _ _ r ih t

theorem Reachable.step {s s' : σ} {e : ε} (hs : S.Reachable s) (t : S.step s e s') :
    S.Reachable s' :=
  let ⟨h, r⟩ := hs
  ⟨e :: h, r.step t⟩

/-- The invariant rule for a property of the states alone. -/
theorem Reachable.invariant {I : σ → Prop} (hinit : ∀ s, S.init s → I s)
    (hstep : ∀ s e s', S.Reachable s → I s → S.step s e s' → I s') {s : σ}
    (hs : S.Reachable s) : I s := by
  obtain ⟨h, r⟩ := hs
  exact r.invariant (I := fun _ s => I s) hinit fun h s e s' r hi t => hstep s e s' ⟨h, r⟩ hi t

namespace Within

variable {P : σ → Prop} {s s' : σ} {h : List ε}

theorem last (p : S.Within P s h s') : P s' := by
  cases p with
  | refl hs => exact hs
  | step _ _ hs => exact hs

/-- A path from the end of a run extends the run. -/
theorem run (p : S.Within P s h s') {h₀ : List ε} (r : S.Run h₀ s) : S.Run (h ++ h₀) s' := by
  induction p with
  | refl _ => exact r
  | step _ t _ ih => exact ih.step t

theorem reachable (p : S.Within P s h s') (hs : S.Reachable s) : S.Reachable s' :=
  let ⟨_, r⟩ := hs
  ⟨_, p.run r⟩

theorem append {h' : List ε} {s'' : σ} (p : S.Within P s h s') (q : S.Within P s' h' s'') :
    S.Within P s (h' ++ h) s'' := by
  induction q with
  | refl _ => exact p
  | step _ t hs ih => exact ih.step t hs

/-- **The invariant rule for a path**: what holds at its start and is kept by the path's steps
holds at its end. -/
theorem invariant {I : List ε → σ → Prop} (hs : S.Reachable s) (hstart : P s → I [] s)
    (hstep : ∀ h s₁ e s₂, S.Reachable s₁ → P s₁ → I h s₁ → S.step s₁ e s₂ → P s₂ →
      I (e :: h) s₂) (p : S.Within P s h s') : I h s' := by
  induction p with
  | refl h => exact hstart h
  | step p t h ih => exact hstep _ _ _ _ (p.reachable hs) p.last ih t h

end Within

end LTS

end Xv6
