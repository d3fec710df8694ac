import Mathlib.Algebra.Order.Ring.Int
import Mathlib.Data.List.Basic
import Mathlib.Data.List.TakeWhile

/-!
# Words

The words of a list are its non-empty parts between separators. A program that reads them one after
the other skips separators, takes elements up to the next separator, and goes on with the rest
(`words_dropWhile`, `words_append`).
-/

namespace Xv6

variable {α : Type*} [DecidableEq α]

/-- The non-empty parts of a list between separators. -/
def words (sep : α) (l : List α) : List (List α) := (l.splitOn sep).filter (· ≠ [])

variable {sep : α}

@[simp] theorem words_nil : words sep ([] : List α) = [] := by
  rw [words, List.splitOn_eq_singleton List.not_mem_nil]
  simp

@[simp] theorem words_cons_sep (l : List α) : words sep (sep :: l) = words sep l := by
  have h := List.splitOn_append_cons_self_of_not_mem (a := sep) List.not_mem_nil l
  rw [List.nil_append] at h
  rw [words, h, List.filter_cons_of_neg (by simp), words]

/-- Separators at the front belong to no word. -/
theorem words_dropWhile (l : List α) : words sep (l.dropWhile (· == sep)) = words sep l := by
  induction l with
  | nil => rfl
  | cons a l ih =>
    by_cases h : a = sep
    · rw [h, List.dropWhile_cons_of_pos (by simp), ih, words_cons_sep]
    · rw [List.dropWhile_cons_of_neg (by simpa using h)]

/-- The first word goes up to the first separator. -/
theorem words_append {w rest : List α} (hne : w ≠ []) (hw : sep ∉ w)
    (hrest : rest.head? = none ∨ rest.head? = some sep) :
    words sep (w ++ rest) = w :: words sep rest := by
  cases rest with
  | nil =>
    rw [List.append_nil, words, List.splitOn_eq_singleton hw, words_nil]
    simp [hne]
  | cons a rest =>
    obtain rfl : a = sep := by simpa using hrest
    rw [words, List.splitOn_append_cons_self_of_not_mem hw, List.filter_cons_of_pos (by simpa),
      words_cons_sep, words]

/-- **Reading a word**: it is what is taken up to the next separator, once separators are skipped. -/
theorem words_of_ne_nil {l : List α} (h : l.dropWhile (· == sep) ≠ []) :
    words sep l = (l.dropWhile (· == sep)).takeWhile (· != sep) ::
      words sep ((l.dropWhile (· == sep)).dropWhile (· != sep)) := by
  rw [← words_dropWhile]
  obtain ⟨a, l', hl'⟩ := List.exists_cons_of_ne_nil h
  have ha : a ≠ sep := by
    have := List.head_dropWhile_not (· == sep) h
    simpa [hl'] using this
  rw [hl']
  conv_lhs => rw [← List.takeWhile_append_dropWhile (p := (· != sep)) (l := a :: l')]
  refine words_append ?_ (fun hmem => ?_) ?_
  · simp [ha]
  · simpa using List.mem_takeWhile_imp hmem
  · cases hrest : (a :: l').dropWhile (· != sep) with
    | nil => exact .inl rfl
    | cons b rest =>
      have := List.head_dropWhile_not (· != sep) (hrest ▸ List.cons_ne_nil b rest)
      exact .inr (by simpa [hrest] using this)

end Xv6
