import Mathlib.Data.List.Count
import Mathlib.Logic.Function.Basic

/-!
# Shelves

Lists that share their items: an item is in one of the lists at most, and there once. The ghost
function `place` says where. What a program does to such lists, appending, prepending, taking the
first item, moving a whole list, has one lemma each, about the lists and `place` together.
-/

namespace Xv6

variable {ι α : Type*} [DecidableEq ι] [DecidableEq α]

/-- The item `a` is in the list `place a`, once, and in no other. -/
def Shelved (shelf : ι → List α) (place : α → Option ι) : Prop :=
  ∀ i a, (shelf i).count a = if place a = some i then 1 else 0

namespace Shelved

variable {shelf : ι → List α} {place : α → Option ι} {i : ι} {a : α} {l : List α}

theorem mem_iff (h : Shelved shelf place) : a ∈ shelf i ↔ place a = some i := by
  rw [← List.count_pos_iff, h i a]
  split <;> simp_all

theorem empty : Shelved (fun _ : ι => ([] : List α)) fun _ => none := by
  intro i a
  simp

/-- The shelf `i` is replaced by one with the item `a` in addition. -/
theorem push (h : Shelved shelf place) (ha : place a = none)
    (hl : ∀ b, l.count b = (shelf i).count b + if b = a then 1 else 0) :
    Shelved (Function.update shelf i l) (Function.update place a (some i)) := by
  intro k b
  have hk := h k b
  by_cases hki : k = i
  · subst hki
    rw [Function.update_self, hl, hk]
    by_cases hb : b = a
    · subst hb
      simp [ha]
    · simp [hb]
  · rw [Function.update_of_ne hki, hk]
    by_cases hb : b = a
    · subst hb
      simp [ha, Ne.symm hki]
    · simp [hb]

theorem push_back (h : Shelved shelf place) (ha : place a = none) (i : ι) :
    Shelved (Function.update shelf i (shelf i ++ [a])) (Function.update place a (some i)) := by
  apply h.push ha
  intro b
  rw [List.count_append, List.count_singleton]
  by_cases hb : b = a
  · simp [hb]
  · simp [hb, Ne.symm hb]

theorem push_front (h : Shelved shelf place) (ha : place a = none) (i : ι) :
    Shelved (Function.update shelf i (a :: shelf i)) (Function.update place a (some i)) := by
  apply h.push ha
  intro b
  rw [List.count_cons]
  by_cases hb : b = a
  · simp [hb]
  · simp [hb, Ne.symm hb]

/-- The first item of a shelf is taken. -/
theorem pop (h : Shelved shelf place) (hi : shelf i = a :: l) :
    Shelved (Function.update shelf i l) (Function.update place a none) := by
  have ha : place a = some i := h.mem_iff.1 (hi ▸ List.mem_cons_self)
  intro k b
  have hk := h k b
  by_cases hki : k = i
  · subst hki
    rw [hi, List.count_cons] at hk
    rw [Function.update_self]
    by_cases hb : b = a
    · subst hb
      simp only [BEq.rfl, if_true, ha] at hk
      rw [Function.update_self, if_neg (by simp)]
      omega
    · rw [Function.update_of_ne hb, ← hk]
      simp [Ne.symm hb]
  · rw [Function.update_of_ne hki, hk]
    by_cases hb : b = a
    · subst hb
      simp [ha, Ne.symm hki]
    · rw [Function.update_of_ne hb]

/-- All items of the shelf `i` are moved to the end of the shelf `k`. -/
theorem drain (h : Shelved shelf place) {k : ι} (hne : i ≠ k) :
    Shelved (Function.update (Function.update shelf k (shelf k ++ shelf i)) i [])
      fun b => if place b = some i then some k else place b := by
  intro j b
  have hi := h i b
  have hk := h k b
  by_cases hji : j = i
  · subst hji
    rw [Function.update_self, List.count_nil]
    by_cases hb : place b = some j
    · simp [hb, Ne.symm hne]
    · simp [hb]
  · rw [Function.update_of_ne hji]
    by_cases hjk : j = k
    · subst hjk
      rw [Function.update_self, List.count_append, hi, hk]
      by_cases hb : place b = some i
      · simp [hb, hne]
      · simp [hb]
    · rw [Function.update_of_ne hjk, h j b]
      by_cases hb : place b = some i
      · simp [hb, Ne.symm hji, Ne.symm hjk]
      · simp [hb]

end Shelved

end Xv6
