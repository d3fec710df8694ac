import Mathlib.Algebra.Order.Ring.Int
import Mathlib.Logic.Basic

/-!
# Programs that make calls

A `Program` is a piece of straight code over a signature of *calls*: it either returns a value or
makes a call and goes on with the call's result. What a call does is not part of the program. A
`Handler` says it for a state that the calls share, and may stop the program with an error; the
same program can be run by several handlers, and `Program.translate` replaces each of its calls
by a program over another signature.

`Program.Meets h c Q E s` is the weakest precondition of `c` at `s`: if the run returns, its
result and its last state satisfy `Q`, and if it stops with an error, the error satisfies `E`.
Reasoning follows the program with `meets_bind`, one `Meets` fact for each part. A program over a
part of a larger state keeps what it meets (`Part.meets`).
-/

namespace Xv6

/-- A set of calls, with the type of each call's result. -/
structure Signature where
  Call : Type
  Result : Call → Type

/-- A program over the calls of `S` that returns an `α`. -/
inductive Program (S : Signature) (α : Type) where
  /-- Return `a`. -/
  | ret (a : α)
  /-- Make the call `o` and go on with its result. -/
  | call (o : S.Call) (k : S.Result o → Program S α)

/-- What each call does on a state `σ`, or the error it stops with. -/
abbrev Handler (S : Signature) (σ ε : Type*) := (o : S.Call) → σ → Except ε (S.Result o × σ)

namespace Program

variable {S S' : Signature} {α β γ : Type} {σ ε : Type*}

/-- Sequencing: run `c`, then `f` on its result. -/
def bind : Program S α → (α → Program S β) → Program S β
  | ret a, f => f a
  | call o k, f => call o fun r => (k r).bind f

instance : Monad (Program S) where
  pure := ret
  bind := bind

/-- The program that makes one call. -/
def op (o : S.Call) : Program S (S.Result o) := call o ret

theorem call_bind (o : S.Call) (k : S.Result o → Program S α) (f : α → Program S β) :
    call o k >>= f = call o fun r => k r >>= f := rfl

/-- Replace each call by a program over `S'`. -/
def translate (t : (o : S.Call) → Program S' (S.Result o)) : Program S α → Program S' α
  | ret a => ret a
  | call o k => t o >>= fun r => (k r).translate t

/-! ## Runs -/

/-- Run a program: the handler answers its calls one after the other. -/
def run (h : Handler S σ ε) : Program S α → σ → Except ε (α × σ)
  | ret a, s => .ok (a, s)
  | call o k, s =>
    match h o s with
    | .ok (r, s') => (k r).run h s'
    | .error e => .error e

/-- The run of `c` from `s` ends in `Q`, or stops with an error in `E`. -/
def Meets (h : Handler S σ ε) (c : Program S α) (Q : α → σ → Prop) (E : ε → Prop) (s : σ) :
    Prop :=
  match c.run h s with
  | .ok (a, s') => Q a s'
  | .error e => E e

variable {h : Handler S σ ε} {c : Program S α} {Q : α → σ → Prop} {E : ε → Prop} {s : σ}

theorem meets_pure {a : α} : (pure a : Program S α).Meets h Q E s ↔ Q a s := Iff.rfl

theorem meets_call {o : S.Call} {k : S.Result o → Program S α} :
    (call o k).Meets h Q E s ↔ (op o).Meets h (fun r s' => (k r).Meets h Q E s') E s := by
  simp only [Meets, op, run]
  cases h o s <;> rfl

/-- The rule of sequencing. -/
theorem meets_bind {f : α → Program S β} {Q : β → σ → Prop} :
    (c >>= f).Meets h Q E s ↔ c.Meets h (fun a s' => (f a).Meets h Q E s') E s := by
  induction c generalizing s with
  | ret a => exact Iff.rfl
  | call o k ih =>
    rw [call_bind, meets_call, meets_call]
    simp only [ih]

/-- A call that the handler answers. -/
theorem meets_op {o : S.Call} {r : S.Result o} {s' : σ} {Q : S.Result o → σ → Prop}
    (ho : h o s = .ok (r, s')) (hQ : Q r s') : (op o).Meets h Q E s := by
  simp only [Meets, op, run, ho]
  exact hQ

/-- A call that stops the program. -/
theorem meets_op_error {o : S.Call} {e : ε} {Q : S.Result o → σ → Prop}
    (ho : h o s = .error e) (hE : E e) : (op o).Meets h Q E s := by
  simp only [Meets, op, run, ho]
  exact hE

theorem run_bind {f : α → Program S β} : (c >>= f).run h s = match c.run h s with
    | .ok (a, s') => (f a).run h s'
    | .error e => .error e := by
  induction c generalizing s with
  | ret a => rfl
  | call o k ih =>
    rw [call_bind]
    simp only [run]
    cases h o s with
    | ok p => exact ih p.1
    | error e => rfl

/-- Both of two postconditions. -/
theorem Meets.and {Q' : α → σ → Prop} {E' : ε → Prop} (hc : c.Meets h Q E s)
    (hc' : c.Meets h Q' E' s) :
    c.Meets h (fun a s' => Q a s' ∧ Q' a s') (fun e => E e ∧ E' e) s := by
  unfold Meets at hc hc' ⊢
  split at hc <;> simp_all

theorem meets_true : c.Meets h (fun _ _ => True) (fun _ => True) s := by
  unfold Meets
  split <;> trivial

/-- The rule of consequence. -/
theorem Meets.mono {Q' : α → σ → Prop} {E' : ε → Prop} (hc : c.Meets h Q E s)
    (hQ : ∀ a s', Q a s' → Q' a s') (hE : ∀ e, E e → E' e) : c.Meets h Q' E' s := by
  unfold Meets at hc ⊢
  split at hc
  · exact hQ _ _ hc
  · exact hE _ hc

/-- The rule of consequence where the errors stay the same. -/
theorem Meets.post {Q' : α → σ → Prop} (hc : c.Meets h Q E s)
    (hQ : ∀ a s', Q a s' → Q' a s') : c.Meets h Q' E s :=
  hc.mono hQ fun _ => id

/-- What a program meets says how its run ends. -/
theorem Meets.run_ok {a : α} {s' : σ} (hc : c.Meets h Q E s) (hr : c.run h s = .ok (a, s')) :
    Q a s' := by
  rw [Meets, hr] at hc
  exact hc

theorem Meets.run_error {e : ε} (hc : c.Meets h Q E s) (hr : c.run h s = .error e) : E e := by
  rw [Meets, hr] at hc
  exact hc

/-- A program that can stop with no error returns. -/
theorem Meets.returns (hc : c.Meets h Q (fun _ => False) s) :
    ∃ a s', c.run h s = .ok (a, s') ∧ Q a s' := by
  unfold Meets at hc
  split at hc
  · next a s' hr => exact ⟨a, s', hr, hc⟩
  · exact hc.elim

/-- A program that returns if and only if `P` holds. -/
theorem Meets.returns_iff {P : Prop} (hc : c.Meets h (fun a s' => P ∧ Q a s') (fun _ => ¬P) s) :
    c.Meets h Q (fun _ => False) s ↔ P := by
  constructor
  · intro hQ
    obtain ⟨a, s', hr, -⟩ := hQ.returns
    exact (hc.run_ok hr).1
  · intro hP
    exact hc.mono (fun _ _ hQ => hQ.2) fun _ hE => hE hP

/-! ## A part of the state -/

/-- The programs `t` do what the calls do that `h` handles, on a part of the state of `h'`. -/
structure Part {σ' ε' : Type*} (h : Handler S σ ε) (h' : Handler S' σ' ε')
    (t : (o : S.Call) → Program S' (S.Result o)) where
  get : σ' → σ
  set : σ → σ' → σ'
  err : ε → ε'
  get_set : ∀ s x, get (set s x) = s
  set_set : ∀ s s' x, set s (set s' x) = set s x
  set_get : ∀ x, set (get x) x = x
  run_call : ∀ o x, (t o).run h' x = match h o (get x) with
    | .ok (r, s) => .ok (r, set s x)
    | .error e => .error (err e)

namespace Part

variable {σ' ε' : Type*} {h' : Handler S' σ' ε'} {t : (o : S.Call) → Program S' (S.Result o)}

theorem run_translate (m : Part h h' t) (c : Program S α) (x : σ') :
    (c.translate t).run h' x = match c.run h (m.get x) with
      | .ok (a, s) => .ok (a, m.set s x)
      | .error e => .error (m.err e) := by
  induction c generalizing x with
  | ret a =>
    rw [translate, run, run]
    dsimp only
    rw [m.set_get]
  | call o k ih =>
    rw [translate, run_bind, m.run_call]
    simp only [run]
    cases h o (m.get x) with
    | ok p =>
      dsimp only
      rw [ih, m.get_set]
      cases (k p.1).run h p.2 with
      | ok q =>
        dsimp only
        rw [m.set_set]
      | error e => rfl
    | error e => rfl

/-- **What a program meets on a part of the state, it meets on the whole**, and the rest stays as it
is. -/
theorem meets (m : Part h h' t) {x : σ'} {E' : ε' → Prop} (hc : c.Meets h Q E (m.get x))
    (hE : ∀ e, E e → E' (m.err e)) :
    (c.translate t).Meets h' (fun a y => Q a (m.get y) ∧ y = m.set (m.get y) x) E' x := by
  rw [Meets] at hc
  rw [Meets, m.run_translate]
  cases hr : c.run h (m.get x) with
  | ok p =>
    simp only [hr] at hc ⊢
    rw [m.get_set]
    exact ⟨hc, rfl⟩
  | error e =>
    simp only [hr] at hc ⊢
    exact hE e hc

end Part

/-! ## Calls that are not answered -/

/-- The handler `h`, which stops where `g` says so. -/
def guarded (h : Handler S σ ε) (g : S.Call → σ → Option ε) : Handler S σ ε := fun o s =>
  match g o s with
  | some e => .error e
  | none => h o s

variable {g : S.Call → σ → Option ε}

theorem of_guarded {o : S.Call} {r : S.Result o × σ} (ho : guarded h g o s = .ok r) :
    h o s = .ok r := by
  unfold guarded at ho
  split at ho
  · cases ho
  · exact ho

/-- A call that is not stopped. -/
theorem Meets.op_guarded {o : S.Call} {Q : S.Result o → σ → Prop} (hc : (op o).Meets h Q E s)
    (hg : g o s = none) : (op o).Meets (guarded h g) Q E s := by
  unfold Meets at hc ⊢
  simp only [op, run, guarded, hg] at hc ⊢
  exact hc

/-- What a run meets, it meets if it is not stopped. -/
theorem Meets.guarded (hc : c.Meets h Q E s) :
    c.Meets (guarded h g) Q (fun e => E e ∨ ∃ o s, g o s = some e) s := by
  induction c generalizing s with
  | ret a => exact hc
  | call o k ih =>
    unfold Meets at hc ih ⊢
    simp only [run, Program.guarded] at hc ⊢
    cases hg : g o s with
    | some e => exact Or.inr ⟨o, s, hg⟩
    | none =>
      dsimp only
      cases ho : h o s with
      | ok p =>
        simp only [ho] at hc
        exact ih p.1 hc
      | error e =>
        simp only [ho] at hc
        exact Or.inl hc

/-! ## The calls of a run -/

/-- The calls of a run that are answered, each with the state that it is made in. -/
def trace (h : Handler S σ ε) : Program S α → σ → List (S.Call × σ)
  | ret _, _ => []
  | call o k, s =>
    match h o s with
    | .ok (r, s') => (o, s) :: (k r).trace h s'
    | .error _ => []

/-- Every call of the run that is answered satisfies `I`, in the state that it is made in; the run
ends in `Q`, or stops in `E`. -/
def Observes (h : Handler S σ ε) (I : S.Call → σ → Prop) (c : Program S α) (Q : α → σ → Prop)
    (E : ε → Prop) (s : σ) : Prop :=
  (∀ p ∈ c.trace h s, I p.1 p.2) ∧ c.Meets h Q E s

variable {I : S.Call → σ → Prop}

theorem observes_pure {a : α} (hQ : Q a s) : (pure a : Program S α).Observes h I Q E s :=
  ⟨nofun, hQ⟩

theorem observes_bind {f : α → Program S β} {Q : β → σ → Prop}
    (hc : c.Observes h I (fun a s' => (f a).Observes h I Q E s') E s) :
    (c >>= f).Observes h I Q E s := by
  induction c generalizing s with
  | ret a => exact hc.2
  | call o k ih =>
    obtain ⟨hI, hm⟩ := hc
    rw [call_bind]
    unfold Observes Meets at ih ⊢
    unfold Meets at hm
    simp only [trace, run] at hI hm ⊢
    cases ho : h o s with
    | ok p =>
      simp only [ho] at hI hm ⊢
      obtain ⟨hI₁, hI₂⟩ := List.forall_mem_cons.1 hI
      obtain ⟨h₁, h₂⟩ := ih p.1 ⟨hI₂, hm⟩
      exact ⟨List.forall_mem_cons.2 ⟨hI₁, h₁⟩, h₂⟩
    | error e =>
      simp only [ho] at hm ⊢
      exact ⟨nofun, hm⟩

theorem observes_op {o : S.Call} {Q : S.Result o → σ → Prop} (hI : I o s)
    (hm : (op o).Meets h Q E s) : (op o).Observes h I Q E s := by
  refine ⟨fun p hp => ?_, hm⟩
  unfold op trace at hp
  split at hp
  · rw [trace, List.mem_singleton] at hp
    rw [hp]
    exact hI
  · exact (List.not_mem_nil hp).elim

theorem Observes.mono {Q' : α → σ → Prop} {E' : ε → Prop} (hc : c.Observes h I Q E s)
    (hQ : ∀ a s', Q a s' → Q' a s') (hE : ∀ e, E e → E' e) : c.Observes h I Q' E' s :=
  ⟨hc.1, hc.2.mono hQ hE⟩

/-- What else the run meets. -/
theorem Observes.and {Q' : α → σ → Prop} {E' : ε → Prop} (hc : c.Observes h I Q E s)
    (hc' : c.Meets h Q' E' s) :
    c.Observes h I (fun a s' => Q a s' ∧ Q' a s') (fun e => E e ∧ E' e) s :=
  ⟨hc.1, hc.2.and hc'⟩

end Program

end Xv6
