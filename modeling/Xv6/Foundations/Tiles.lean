import Mathlib.Algebra.BigOperators.Group.List.Basic
import Mathlib.Algebra.Order.Ring.Int

/-!
# Consecutive spans

A list of spans `(off, len)`, newest first, that follow one another without gaps: each starts where
the one before it ended. The first starts at `start`, and the last ends at `stop`.
-/

namespace Xv6

/-- The spans follow one another from `start` to `stop`; the newest comes first. -/
def Tiles (start : ℕ) : List (ℕ × ℕ) → ℕ → Prop
  | [], stop => stop = start
  | (off, len) :: l, stop => stop = off + len ∧ Tiles start l off

namespace Tiles

variable {start stop : ℕ} {l : List (ℕ × ℕ)}

/-- A new span begins where the others end. -/
theorem cons (h : Tiles start l stop) (len : ℕ) : Tiles start ((stop, len) :: l) (stop + len) :=
  ⟨rfl, h⟩

/-- The end is the start and the lengths of all spans. -/
theorem stop_eq (h : Tiles start l stop) : stop = start + (l.map Prod.snd).sum := by
  induction l generalizing stop with
  | nil => exact h
  | cons x l ih =>
    obtain ⟨rfl, h⟩ := h
    rw [ih h, List.map_cons, List.sum_cons, Nat.add_assoc, Nat.add_comm x.2]

/-- Each span lies between the start and the end. -/
theorem end_le (h : Tiles start l stop) {x : ℕ × ℕ} (hx : x ∈ l) : x.1 + x.2 ≤ stop := by
  induction l generalizing stop with
  | nil => exact (List.not_mem_nil hx).elim
  | cons y l ih =>
    obtain ⟨rfl, h⟩ := h
    rcases List.mem_cons.1 hx with rfl | hx
    · exact Nat.le_refl _
    · exact Nat.le_trans (ih h hx) (Nat.le_add_right _ _)

/-- Each span ends before all newer ones, so that no two of them meet. -/
theorem pairwise (h : Tiles start l stop) : l.Pairwise fun x y => y.1 + y.2 ≤ x.1 := by
  induction l generalizing stop with
  | nil => exact List.Pairwise.nil
  | cons x l ih =>
    obtain ⟨-, h⟩ := h
    exact List.pairwise_cons.2 ⟨fun y hy => h.end_le hy, ih h⟩

end Tiles

end Xv6
