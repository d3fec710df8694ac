import Mathlib.Logic.Function.Basic
import Xv6.Foundations.Transition

/-!
# Registers

A system whose steps read and write the registers of an index type. A history of such steps is
*coherent* when every read in it returns what was written last, so that the registers behave as
if there were no copies of them. The rule to show it (`LTS.Run.coherent`) asks for the contents
that a state stands for, and for what one step does to them.
-/

namespace Xv6

/-- What a step does to the registers. -/
inductive Access (ι α : Type*)
  | read (i : ι) (v : α)
  | write (i : ι) (v : α)
  | tau

namespace Access

variable {ι α : Type*} [DecidableEq ι]

/-- The contents that a history leaves; its newest access comes first. -/
def contents (v₀ : ι → α) : List (Access ι α) → ι → α
  | [] => v₀
  | .write i v :: h => Function.update (contents v₀ h) i v
  | .read _ _ :: h | .tau :: h => contents v₀ h

/-- Every read returns what was written last. -/
def Coherent (v₀ : ι → α) : List (Access ι α) → Prop
  | [] => True
  | .read i v :: h => v = contents v₀ h i ∧ Coherent v₀ h
  | .write _ _ :: h | .tau :: h => Coherent v₀ h

/-- A step with this access turns the contents `v` into `v'`. -/
def Turns (v : ι → α) : Access ι α → (ι → α) → Prop
  | .read i x, v' => x = v i ∧ v' = v
  | .write i x, v' => v' = Function.update v i x
  | .tau, v' => v' = v

end Access

open Access

variable {σ ι α : Type*} [DecidableEq ι] {S : LTS σ (Access ι α)} {v₀ : ι → α}

/-- **The rule of coherence.** A state stands for the contents `val`, which each step turns into
those of the next state. -/
theorem LTS.Run.coherent (val : σ → ι → α) (hinit : ∀ s, S.init s → val s = v₀)
    (hstep : ∀ s e s', S.Reachable s → S.step s e s' → e.Turns (val s) (val s'))
    {h : List (Access ι α)} {s : σ} (r : S.Run h s) : Coherent v₀ h ∧ val s = contents v₀ h := by
  induction r with
  | init hs => exact ⟨trivial, hinit _ hs⟩
  | @step h s e s' r t ih =>
    obtain ⟨hh, hv⟩ := ih
    have ht := hstep s e s' ⟨h, r⟩ t
    cases e with
    | read i x => exact ⟨⟨ht.1.trans (congrFun hv i), hh⟩, ht.2.trans hv⟩
    | write i x =>
      refine ⟨hh, ht.trans ?_⟩
      rw [hv]
      rfl
    | tau => exact ⟨hh, ht.trans hv⟩

end Xv6
