import Mathlib.Data.List.Basic
import Xv6.Foundations.Program

/-!
# Recording the calls of a program

`record h` answers calls as `h` does and keeps a list of them, oldest first, so that a
postcondition can speak of what the program has called. The recorded calls are those of
`Program.trace` (`run_record`).

`Program.Only P c` says that the text of `c` has calls in `P` only. Where only some calls matter,
a part of a program that is `Only` other calls records nothing of interest (`Only.meets`).
-/

namespace Xv6

variable {S : Signature} {α β : Type} {σ ε : Type*}

/-- Answer as `h` does, and record the call. -/
def record (h : Handler S σ ε) : Handler S (σ × List S.Call) ε := fun o s =>
  (h o s.1).map fun r => (r.1, r.2, s.2 ++ [o])

namespace Program

variable {h : Handler S σ ε}

/-- A recorded call was made, and answered. -/
theorem meets_record {o : S.Call} {Q : S.Result o → σ × List S.Call → Prop} {E : ε → Prop}
    {s : σ × List S.Call} (hQ : ∀ r s', h o s.1 = .ok (r, s') → Q r (s', s.2 ++ [o]))
    (hE : ∀ e, h o s.1 = .error e → E e) : (op o).Meets (record h) Q E s := by
  cases ho : h o s.1 with
  | ok r =>
    have hr : record h o s = .ok (r.1, r.2, s.2 ++ [o]) := by
      rw [record, ho]
      rfl
    exact meets_op hr (hQ _ _ ho)
  | error e =>
    have hr : record h o s = .error e := by
      rw [record, ho]
      rfl
    exact meets_op_error hr (hE _ ho)

/-- The recorded calls are the calls of the trace. -/
theorem run_record (c : Program S α) (s : σ) (l : List S.Call) :
    c.run (record h) (s, l) =
      (c.run h s).map fun r => (r.1, r.2, l ++ (c.trace h s).map Prod.fst) := by
  induction c generalizing s l with
  | ret a => simp [run, trace, Except.map]
  | call o k ih =>
    rw [run, run, trace]
    simp only [record]
    cases ho : h o s with
    | ok r =>
      simp only [Except.map, ih, List.map_cons, List.append_assoc, List.cons_append,
        List.nil_append]
    | error e => rfl

/-- All calls in the text of a program are in `P`. -/
def Only (P : S.Call → Prop) : Program S α → Prop
  | ret _ => True
  | call o k => P o ∧ ∀ r, (k r).Only P

variable {P : S.Call → Prop} {c : Program S α}

theorem only_pure (a : α) : (pure a : Program S α).Only P := trivial

theorem only_op {o : S.Call} (h : P o) : (op o).Only P := ⟨h, fun _ => trivial⟩

theorem only_bind {f : α → Program S β} (hc : c.Only P) (hf : ∀ a, (f a).Only P) :
    (c >>= f).Only P := by
  induction c with
  | ret a => exact hf a
  | call o k ih => exact ⟨hc.1, fun r => ih r (hc.2 r)⟩

/-- Such a program records calls in `P` only. -/
theorem Only.meets (hc : c.Only P) (s : σ × List S.Call) :
    c.Meets (record h) (fun _ s' => ∃ l, s'.2 = s.2 ++ l ∧ ∀ o ∈ l, P o) (fun _ => True) s := by
  induction c generalizing s with
  | ret a => exact ⟨[], (List.append_nil _).symm, List.forall_mem_nil _⟩
  | call o k ih =>
    refine meets_call.2 (meets_record (fun r s' _ => ?_) fun _ _ => trivial)
    refine (ih r (hc.2 r) (s', s.2 ++ [o])).post fun _ s'' ⟨l, hl, hP⟩ => ?_
    exact ⟨o :: l, by rw [hl, List.append_assoc]; rfl, List.forall_mem_cons.2 ⟨hc.1, hP⟩⟩

end Program

end Xv6
