import Mathlib.Data.Finset.Card
import Mathlib.Data.List.Infix
import Xv6.Foundations.Program

/-!
# Runs with few labels

Some calls of a program carry a *label*: a block that is written, a resource that is taken. `labels`
are those of one run. `within h label K` is the handler `h` that remembers the labels seen so far
and stops a run that asks for more than `K` different ones, so that the rules for `Meets` also bound
the number of labels (`card_labels_le`).
-/

namespace Xv6.Program

variable {S : Signature} {α β : Type} {σ ε : Type*}

/-- The labels of the calls of a run. -/
def labels (h : Handler S σ ε) (label : S.Call → Option β) (c : Program S α) (s : σ) : List β :=
  (c.trace h s).filterMap fun p => label p.1

/-- A handler that answers less makes a part of the calls. -/
theorem trace_isPrefix {h h' : Handler S σ ε} (hh : ∀ o s r, h o s = .ok r → h' o s = .ok r)
    (c : Program S α) (s : σ) : c.trace h s <+: c.trace h' s := by
  induction c generalizing s with
  | ret a => exact List.prefix_rfl
  | call o k ih =>
    simp only [trace]
    cases ho : h o s with
    | ok p =>
      simp only [hh o s p ho]
      exact List.cons_prefix_cons.2 ⟨rfl, ih p.1 p.2⟩
    | error e => exact List.nil_prefix

theorem labels_subset {h h' : Handler S σ ε} (hh : ∀ o s r, h o s = .ok r → h' o s = .ok r)
    (label : S.Call → Option β) (c : Program S α) (s : σ) :
    c.labels h label s ⊆ c.labels h' label s :=
  fun _ hb => ((trace_isPrefix hh c s).filterMap _).subset hb

variable [DecidableEq β]

/-- The handler `h` for at most `K` different labels; `none` is the error that there are more. -/
def within (h : Handler S σ ε) (label : S.Call → Option β) (K : ℕ) :
    Handler S (σ × Finset β) (Option ε) := fun o p =>
  match h o p.1 with
  | .error e => .error (some e)
  | .ok (r, s') =>
    match label o with
    | none => .ok (r, s', p.2)
    | some b => if (insert b p.2).card ≤ K then .ok (r, s', insert b p.2) else .error none

variable {h : Handler S σ ε} {label : S.Call → Option β} {K : ℕ} {E : Option ε → Prop} {s : σ}
  {P : Finset β}

/-- A call without a label. -/
theorem meets_within_of_none {o : S.Call} {Q : S.Result o → σ × Finset β → Prop}
    (hl : label o = none)
    (hm : (op o).Meets h (fun r s' => Q r (s', P)) (fun e => E (some e)) s) :
    (op o).Meets (within h label K) Q E (s, P) := by
  unfold Meets at hm ⊢
  simp only [op, run, within] at hm ⊢
  cases ho : h o s with
  | ok p =>
    simp only [ho, hl] at hm ⊢
    exact hm
  | error e =>
    simp only [ho] at hm ⊢
    exact hm

/-- A call with a label, if the budget is not used up. -/
theorem meets_within_of_some {o : S.Call} {b : β} {Q : S.Result o → σ × Finset β → Prop}
    (hl : label o = some b) (hK : (insert b P).card ≤ K)
    (hm : (op o).Meets h (fun r s' => Q r (s', insert b P)) (fun e => E (some e)) s) :
    (op o).Meets (within h label K) Q E (s, P) := by
  unfold Meets at hm ⊢
  simp only [op, run, within] at hm ⊢
  cases ho : h o s with
  | ok p =>
    simp only [ho, hl, if_pos hK] at hm ⊢
    exact hm
  | error e =>
    simp only [ho] at hm ⊢
    exact hm

/-- A run that is not stopped for its labels has at most `K` of them. -/
theorem card_labels_le {c : Program S α} {Q : α → σ × Finset β → Prop} (hE : ¬E none)
    (hP : P.card ≤ K) (hc : c.Meets (within h label K) Q E (s, P)) :
    (P ∪ (c.labels h label s).toFinset).card ≤ K := by
  induction c generalizing s P with
  | ret a =>
    rw [labels, trace, List.filterMap_nil, List.toFinset_nil, Finset.union_empty]
    exact hP
  | call o k ih =>
    unfold Meets at hc ih
    simp only [labels, trace, run, within] at hc ih ⊢
    cases ho : h o s with
    | error e =>
      rw [List.filterMap_nil, List.toFinset_nil, Finset.union_empty]
      exact hP
    | ok p =>
      simp only [ho] at hc ⊢
      cases hl : label o with
      | none =>
        simp only [hl] at hc
        simp only [List.filterMap_cons, hl]
        exact ih p.1 hP hc
      | some b =>
        simp only [hl] at hc
        simp only [List.filterMap_cons, hl]
        rw [List.toFinset_cons, Finset.union_insert, ← Finset.insert_union]
        by_cases hK : (insert b P).card ≤ K
        · rw [if_pos hK] at hc
          exact ih p.1 hK hc
        · rw [if_neg hK] at hc
          exact (hE hc).elim

end Xv6.Program
