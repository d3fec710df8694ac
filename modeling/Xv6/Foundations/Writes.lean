import Mathlib.Algebra.Order.Ring.Int
import Mathlib.Data.List.Nodup
import Mathlib.Logic.Function.Basic

/-!
# Lists of writes

A memory is a function from addresses to contents, and a list of writes is applied to it in order
(`applyWrites`). A redo log is such a list that is applied again after a crash: what matters is
that applying it once more changes nothing, however many of its writes have already reached the
memory. `applyWrites_update` says so for one write of the list, when no address is written twice.
-/

namespace Xv6

variable {β γ : Type*} [DecidableEq β]

/-- The memory after the writes `ws`, the first one first. -/
def applyWrites (ws : List (β × γ)) (d : β → γ) : β → γ :=
  ws.foldl (fun d w => Function.update d w.1 w.2) d

@[simp] theorem applyWrites_nil (d : β → γ) : applyWrites [] d = d := rfl

@[simp] theorem applyWrites_cons (w : β × γ) (ws : List (β × γ)) (d : β → γ) :
    applyWrites (w :: ws) d = applyWrites ws (Function.update d w.1 w.2) := rfl

theorem applyWrites_append (ws ws' : List (β × γ)) (d : β → γ) :
    applyWrites (ws ++ ws') d = applyWrites ws' (applyWrites ws d) :=
  List.foldl_append

/-- An address keeps its contents when it is not written. -/
theorem applyWrites_of_notMem {ws : List (β × γ)} {b : β} (h : b ∉ ws.map Prod.fst) (d : β → γ) :
    applyWrites ws d b = d b := by
  induction ws generalizing d with
  | nil => rfl
  | cons w ws ih =>
    rw [List.map_cons, List.mem_cons, not_or] at h
    rw [applyWrites_cons, ih h.2, Function.update_of_ne h.1]

/-- What an address holds after the writes does not depend on what it held before, if it is
written at all. -/
theorem applyWrites_congr {ws : List (β × γ)} {d d' : β → γ} {b : β}
    (h : b ∉ ws.map Prod.fst → d b = d' b) : applyWrites ws d b = applyWrites ws d' b := by
  induction ws generalizing d d' with
  | nil => exact h (by simp)
  | cons w ws ih =>
    rw [applyWrites_cons, applyWrites_cons]
    refine ih fun hb => ?_
    by_cases hw : b = w.1
    · rw [hw, Function.update_self, Function.update_self]
    · rw [Function.update_of_ne hw, Function.update_of_ne hw]
      exact h (by simp [hw, hb])

/-- When no address is written twice, each holds what was written to it. -/
theorem applyWrites_of_mem {ws : List (β × γ)} (hnodup : (ws.map Prod.fst).Nodup) {b : β} {x : γ}
    (h : (b, x) ∈ ws) (d : β → γ) : applyWrites ws d b = x := by
  induction ws generalizing d with
  | nil => cases h
  | cons w ws ih =>
    rw [List.map_cons, List.nodup_cons] at hnodup
    rcases List.mem_cons.1 h with rfl | h
    · rw [applyWrites_cons, applyWrites_of_notMem hnodup.1, Function.update_self]
    · exact ih hnodup.2 h _

/-- **A write of the list changes nothing that the list does not write again.** -/
theorem applyWrites_update {ws : List (β × γ)} {b : β} (h : b ∈ ws.map Prod.fst) (x : γ)
    (d : β → γ) : applyWrites ws (Function.update d b x) = applyWrites ws d := by
  funext b'
  refine applyWrites_congr fun hb' => ?_
  rw [Function.update_of_ne]
  rintro rfl
  exact hb' h

end Xv6
