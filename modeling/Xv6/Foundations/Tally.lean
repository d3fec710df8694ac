import Mathlib.Algebra.BigOperators.Group.Finset.Piecewise
import Mathlib.Algebra.Order.BigOperators.Group.Finset
import Mathlib.Algebra.Order.Ring.Int
import Mathlib.Tactic.Ring

/-!
# Tallies

In a system of finitely many parties each party is at some place, and `tally w pc` adds up a
weight of the places. When one party moves, the tally changes by the weights of its old and its
new place (`tally_update`); this is all that an invariant about the number of parties in some
part of their code needs to know.
-/

namespace Xv6

variable {ι π : Type*} [Fintype ι]

/-- The sum of the weights of all parties. -/
def tally (w : ι → π → ℕ) (pc : ι → π) : ℕ := ∑ t, w t (pc t)

/-- One party moves. -/
theorem tally_update [DecidableEq ι] (w : ι → π → ℕ) (pc : ι → π) (t : ι) (x : π) :
    tally w (Function.update pc t x) + w t (pc t) = tally w pc + w t x := by
  have hrest : ∑ i ∈ Finset.univ.erase t, w i (Function.update pc t x i) =
      ∑ i ∈ Finset.univ.erase t, w i (pc i) := by
    refine Finset.sum_congr rfl fun i hi => ?_
    rw [Function.update_of_ne (Finset.ne_of_mem_erase hi)]
  simp only [tally]
  rw [← Finset.add_sum_erase _ _ (Finset.mem_univ t),
    ← Finset.add_sum_erase (a := t) _ (fun i => w i (pc i)) (Finset.mem_univ t), hrest,
    Function.update_self]
  ring

/-- All parties are at places of no weight. -/
theorem tally_eq_zero {w : ι → π → ℕ} {pc : ι → π} (h : ∀ t, w t (pc t) = 0) : tally w pc = 0 :=
  Finset.sum_eq_zero fun t _ => h t

/-- One party alone. -/
theorem le_tally (w : ι → π → ℕ) (pc : ι → π) (t : ι) : w t (pc t) ≤ tally w pc :=
  Finset.single_le_sum (f := fun i => w i (pc i)) (fun _ _ => Nat.zero_le _) (Finset.mem_univ t)

/-- Two parties. -/
theorem add_le_tally (w : ι → π → ℕ) (pc : ι → π) {t t' : ι} (h : t ≠ t') :
    w t (pc t) + w t' (pc t') ≤ tally w pc := by
  classical
  rw [← Finset.sum_pair (f := fun i => w i (pc i)) h]
  exact Finset.sum_le_sum_of_subset (Finset.subset_univ _)

/-- A smaller weight, with a party where the difference is strict. -/
theorem tally_lt_tally (w w' : ι → π → ℕ) {pc : ι → π} (h : ∀ t, w t (pc t) ≤ w' t (pc t)) {t : ι}
    (ht : w t (pc t) < w' t (pc t)) : tally w pc < tally w' pc :=
  Finset.sum_lt_sum (fun i _ => h i) ⟨t, Finset.mem_univ t, ht⟩

theorem tally_le_tally (w w' : ι → π → ℕ) {pc : ι → π} (h : ∀ t, w t (pc t) ≤ w' t (pc t)) :
    tally w pc ≤ tally w' pc :=
  Finset.sum_le_sum fun t _ => h t

end Xv6
