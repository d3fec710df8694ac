import Xv6.Foundations.Program

/-!
# Contracts

A `Contract` says what each call of a signature expects of an abstract state, and what its result
and the abstract state after it may be. `Program.Respects` is the weakest precondition of a
program under a contract: it makes each call only where the contract allows it, and ends in its
postcondition, whatever the calls return.

A handler follows a contract if its own state has a view as an abstract state in which its calls
do what the contract says. The run of a program that respects the contract then meets the same
postcondition (`Respects.meets`). A contract about more of the state can extend another one, and a
program that respects the smaller contract leaves the rest alone (`Respects.frame`).
-/

namespace Xv6

/-- The pre- and postconditions of calls. -/
structure Contract (S : Signature) (β : Type*) where
  /-- When the call may be made. -/
  Pre : S.Call → β → Prop
  /-- The result and the state after the call. -/
  Post : (o : S.Call) → β → S.Result o → β → Prop
  /-- A call that may also stop the program with an error. -/
  MayStop : S.Call → Prop

/-- The calls of the handler, made when they may be, do what the contract says. The errors they
stop with are in `E`. -/
def Contract.FollowedBy {S : Signature} {β σ ε : Type*} (C : Contract S β) (h : Handler S σ ε)
    (view : σ → β) (E : ε → Prop) : Prop :=
  ∀ o s, C.Pre o (view s) →
    (∃ r s', h o s = .ok (r, s') ∧ C.Post o (view s) r (view s')) ∨
      C.MayStop o ∧ ∃ e, h o s = .error e ∧ E e

/-- At the calls that `C` allows, `D` does on the first part of its state what `C` does, and keeps
the second part. -/
structure Contract.Extends {S : Signature} {β δ : Type*} (D : Contract S (β × δ))
    (C : Contract S β) : Prop where
  pre : ∀ {o v} x, C.Pre o v → D.Pre o (v, x)
  post : ∀ {o v x r w}, C.Pre o v → D.Post o (v, x) r w → C.Post o v r w.1 ∧ w.2 = x

namespace Program

variable {S : Signature} {α γ : Type} {β δ : Type*} {C : Contract S β} {D : Contract S (β × δ)}

/-- Each call is made when it may be, and the program ends in `Q`. -/
def Respects (C : Contract S β) : Program S α → (α → β → Prop) → β → Prop
  | ret a, Q, v => Q a v
  | call o k, Q, v => C.Pre o v ∧ ∀ r v', C.Post o v r v' → (k r).Respects C Q v'

variable {c : Program S α} {Q Q' : α → β → Prop} {v : β}

theorem respects_pure {a : α} : (pure a : Program S α).Respects C Q v ↔ Q a v := Iff.rfl

theorem respects_op {o : S.Call} {Q : S.Result o → β → Prop} :
    (op o).Respects C Q v ↔ C.Pre o v ∧ ∀ r v', C.Post o v r v' → Q r v' := Iff.rfl

/-- The rule of sequencing. -/
theorem respects_bind {f : α → Program S γ} {Q : γ → β → Prop} :
    (c >>= f).Respects C Q v ↔ c.Respects C (fun a v' => (f a).Respects C Q v') v := by
  induction c generalizing v with
  | ret a => exact Iff.rfl
  | call o k ih =>
    rw [call_bind, Respects, Respects]
    simp only [ih]

/-- One call, then the rest. -/
theorem respects_call {o : S.Call} {f : S.Result o → Program S γ} {Q : γ → β → Prop}
    (hpre : C.Pre o v) (hf : ∀ r v', C.Post o v r v' → (f r).Respects C Q v') :
    (op o >>= f).Respects C Q v :=
  ⟨hpre, hf⟩

/-- The rule of consequence. -/
theorem Respects.mono (hc : c.Respects C Q v) (hQ : ∀ a v', Q a v' → Q' a v') :
    c.Respects C Q' v := by
  induction c generalizing v with
  | ret a => exact hQ a v hc
  | call o k ih => exact ⟨hc.1, fun r v' hpost => ih r (hc.2 r v' hpost)⟩

/-- A part that respects the contract, then the rest. -/
theorem Respects.bind {f : α → Program S γ} {Q' : γ → β → Prop} (hc : c.Respects C Q v)
    (hf : ∀ a v', Q a v' → (f a).Respects C Q' v') : (c >>= f).Respects C Q' v :=
  respects_bind.2 (hc.mono hf)

/-- The frame rule. -/
theorem Respects.frame (hD : D.Extends C) (hc : c.Respects C Q v) (x : δ) :
    c.Respects D (fun a w => Q a w.1 ∧ w.2 = x) (v, x) := by
  induction c generalizing v with
  | ret a => exact ⟨hc, rfl⟩
  | call o k ih =>
    refine ⟨hD.pre x hc.1, fun r w hpost => ?_⟩
    obtain ⟨hr, rfl⟩ := hD.post hc.1 hpost
    exact ih r (hc.2 r w.1 hr)

/-- Soundness: a handler that follows the contract runs the program to its postcondition, unless
it stops with an error of its own. -/
theorem Respects.meets {σ ε : Type*} {h : Handler S σ ε} {view : σ → β} {E : ε → Prop}
    (hh : C.FollowedBy h view E) {s : σ} (hc : c.Respects C Q (view s)) :
    c.Meets h (fun a s' => Q a (view s')) E s := by
  induction c generalizing s with
  | ret a => exact hc
  | call o k ih =>
    refine meets_call.2 ?_
    rcases hh o s hc.1 with ⟨r, s', ho, hpost⟩ | ⟨-, e, ho, he⟩
    · exact meets_op ho (ih r (hc.2 r _ hpost))
    · exact meets_op_error ho he

/-- The calls of a run, the one that stops it included. -/
def calls {σ ε : Type*} (h : Handler S σ ε) : Program S α → σ → List S.Call
  | ret _, _ => []
  | call o k, s =>
    o :: match h o s with
      | .ok (r, s') => (k r).calls h s'
      | .error _ => []

/-- A program that respects the contract makes only calls that the contract allows somewhere. -/
theorem Respects.pre_of_mem_calls {σ ε : Type*} {h : Handler S σ ε} {view : σ → β} {E : ε → Prop}
    (hh : C.FollowedBy h view E) {s : σ} (hc : c.Respects C Q (view s)) {o : S.Call}
    (ho : o ∈ c.calls h s) : ∃ v', C.Pre o v' := by
  induction c generalizing s with
  | ret a => cases ho
  | call o' k ih =>
    rw [calls] at ho
    rcases List.mem_cons.1 ho with rfl | ho
    · exact ⟨_, hc.1⟩
    · rcases hh o' s hc.1 with ⟨r, s', hr, hpost⟩ | ⟨-, e, hr, -⟩
      · rw [hr] at ho
        exact ih r (hc.2 r _ hpost) ho
      · rw [hr] at ho
        cases ho

end Program

end Xv6
