import Mathlib.Tactic.Common

/-!
# Loops that end

`while cond do body`, where the body can fail, as a function with fuel, and the rule of total
correctness for it: an invariant, and a measure that every round makes smaller.
-/

namespace Xv6

variable {σ ε : Type*}

/-- At most `fuel` rounds of a loop; `none` when there are more. -/
def whileLoop (cond : σ → Bool) (body : σ → Except ε σ) : ℕ → σ → Except ε (Option σ)
  | 0, s => .ok (if cond s then none else some s)
  | fuel + 1, s =>
    if cond s then
      match body s with
      | .ok s' => whileLoop cond body fuel s'
      | .error e => .error e
    else .ok (some s)

/-- **The rule of total correctness.** -/
theorem whileLoop_total {cond : σ → Bool} {body : σ → Except ε σ} {I : ℕ → σ → Prop}
    (hbody : ∀ m s, I m s → cond s = true → ∃ m' s', body s = .ok s' ∧ I m' s' ∧ m' < m) :
    ∀ {fuel m : ℕ} {s : σ}, I m s → m ≤ fuel →
      ∃ m' s', whileLoop cond body fuel s = .ok (some s') ∧ I m' s' ∧ cond s' = false := by
  intro fuel
  induction fuel with
  | zero =>
    intro m s hs hm
    cases hc : cond s with
    | false => exact ⟨m, s, by simp [whileLoop, hc], hs, hc⟩
    | true =>
      obtain ⟨m', s', -, -, hlt⟩ := hbody m s hs hc
      omega
  | succ fuel ih =>
    intro m s hs hm
    cases hc : cond s with
    | false => exact ⟨m, s, by simp [whileLoop, hc], hs, hc⟩
    | true =>
      obtain ⟨m', s', hb, hs', hlt⟩ := hbody m s hs hc
      obtain ⟨m'', s'', hl, hs'', hc'⟩ := ih hs' (by omega)
      refine ⟨m'', s'', ?_, hs'', hc'⟩
      rw [whileLoop, hc, if_pos rfl, hb]
      exact hl

end Xv6
