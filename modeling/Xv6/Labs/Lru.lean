import Mathlib.Algebra.Order.Ring.Int
import Mathlib.Data.List.Dedup
import Mathlib.Data.List.DropRight
import Mathlib.Data.List.Infix

/-!
# LRU page replacement

`lru_page_replacement` keeps its frames in the order of their last use, the least recently used
page first. `List.dedup` keeps the last occurrence of every page, so it lists the pages of a
reference string in that order, and the frames are its last `num_frames` entries (`lru_eq_rtake`).
With one more frame they are therefore a longer suffix of the same list, and a page that hits with
`n` frames also hits with `n + 1`.
-/

namespace Xv6.Labs

/-! ## The program -/

/-- The variables of the loop. -/
structure LruState (α : Type*) where
  frames : List α
  pageFaults : ℕ

variable {α : Type*} [DecidableEq α]

/-- One reference. `frames.pop(0)` on an empty list raises an exception. -/
def LruState.reference (numFrames : ℕ) (st : LruState α) (page : α) : Option (LruState α) :=
  if page ∈ st.frames then
    some { st with frames := st.frames.erase page ++ [page] }
  else if st.frames.length = numFrames then
    match st.frames with
    | [] => none
    | _ :: rest => some ⟨rest ++ [page], st.pageFaults + 1⟩
  else
    some ⟨st.frames ++ [page], st.pageFaults + 1⟩

/-- The loop over a page reference string. -/
def lruLoop (pages : List α) (numFrames : ℕ) : Option (LruState α) :=
  pages.foldlM (LruState.reference numFrames) ⟨[], 0⟩

/-- `lru_page_replacement`. -/
def lruPageReplacement (pages : List α) (numFrames : ℕ) : Option ℕ :=
  (lruLoop pages numFrames).map LruState.pageFaults

/-! ## The pages in the order of their last use -/

/-- How many references ago the page was last used. -/
def age (pages : List α) (page : α) : ℕ := pages.reverse.idxOf page

theorem age_concat_self (pages : List α) (page : α) : age (pages ++ [page]) page = 0 := by
  simp [age]

theorem age_concat_of_ne {pages : List α} {page p : α} (h : p ≠ page) :
    age (pages ++ [page]) p = age pages p + 1 := by
  simp [age, List.idxOf_cons_ne _ h.symm]

/-- A reference moves its page to the end. -/
theorem dedup_concat (pages : List α) (page : α) :
    (pages ++ [page]).dedup = pages.dedup.erase page ++ [page] := by
  induction pages with
  | nil => rfl
  | cons p pages ih =>
    by_cases hp : p ∈ pages
    · rw [List.cons_append, List.dedup_cons_of_mem (List.mem_append_left _ hp),
        List.dedup_cons_of_mem hp, ih]
    · rw [List.dedup_cons_of_notMem hp, List.cons_append]
      by_cases heq : p = page
      · subst heq
        rw [List.dedup_cons_of_mem (by simp), ih, List.erase_cons_head,
          List.erase_of_not_mem (mt List.mem_dedup.mp hp)]
      · rw [List.dedup_cons_of_notMem (by simp [hp, heq]), ih, List.erase_cons_tail (by simpa),
          List.cons_append]

/-- `List.dedup` lists the pages from the oldest last use to the newest. -/
theorem pairwise_dedup_age (pages : List α) :
    pages.dedup.Pairwise fun p q => age pages q < age pages p := by
  induction pages using List.reverseRecOn with
  | nil => exact List.Pairwise.nil
  | append_singleton pages page ih =>
    have hnodup := List.nodup_dedup pages
    rw [dedup_concat, List.pairwise_append]
    refine ⟨?_, List.pairwise_singleton _ _, ?_⟩
    · refine (ih.sublist List.erase_sublist).imp_of_mem fun hp hq hlt => ?_
      rw [age_concat_of_ne (hnodup.mem_erase_iff.mp hp).1,
        age_concat_of_ne (hnodup.mem_erase_iff.mp hq).1]
      exact Nat.succ_lt_succ hlt
    · intro p hp q hq
      rw [List.mem_singleton.mp hq, age_concat_self,
        age_concat_of_ne (hnodup.mem_erase_iff.mp hp).1]
      exact Nat.succ_pos _

/-! ## The frames -/

omit [DecidableEq α] in
/-- The last entries of a list are a suffix of the right length. -/
theorem eq_rtake_of_suffix {n : ℕ} {l l' : List α} (h : l <:+ l')
    (hlen : l.length = min n l'.length) : l = l'.rtake n := by
  obtain ⟨t, rfl⟩ := h
  rw [List.length_append] at hlen
  rw [List.rtake, List.length_append]
  rcases le_total n (t.length + l.length) with hle | hle
  · rw [min_eq_left hle] at hlen
    rw [← hlen, Nat.add_sub_cancel, List.drop_left]
  · rw [min_eq_right hle] at hlen
    have hnil : t = [] := List.eq_nil_of_length_eq_zero (by omega)
    subst hnil
    rw [List.length_nil, Nat.zero_add] at hle ⊢
    rw [Nat.sub_eq_zero_of_le hle, List.nil_append, List.drop_zero]

omit [DecidableEq α] in
theorem rtake_suffix (n : ℕ) (l : List α) : l.rtake n <:+ l := List.drop_suffix _ _

omit [DecidableEq α] in
theorem length_rtake (n : ℕ) (l : List α) : (l.rtake n).length = min n l.length := by
  rw [List.rtake, List.length_drop]
  omega

/-- One reference keeps the frames at the end of the list of pages. -/
theorem reference_rtake {n : ℕ} (hn : 1 ≤ n) (pages : List α) (faults : ℕ) (page : α) :
    LruState.reference n ⟨pages.dedup.rtake n, faults⟩ page =
      some ⟨(pages ++ [page]).dedup.rtake n,
        if page ∈ pages.dedup.rtake n then faults else faults + 1⟩ := by
  have hlen := length_rtake n pages.dedup
  have hnodup := List.nodup_dedup pages
  obtain ⟨old, hold⟩ := rtake_suffix n pages.dedup
  rw [dedup_concat]
  generalize pages.dedup = d at *
  generalize d.rtake n = frames at *
  subst hold
  rw [List.length_append] at hlen
  rw [LruState.reference]
  by_cases hhit : page ∈ frames
  · -- hit: the page moves to the end, and nothing leaves the frames
    have hout : page ∉ old := fun h => List.disjoint_of_nodup_append hnodup h hhit
    have hpos := List.length_pos_of_mem hhit
    rw [if_pos hhit, if_pos hhit, List.erase_append_right _ hout]
    refine congrArg (fun l => some (LruState.mk l faults)) (eq_rtake_of_suffix ?_ ?_)
    · exact ⟨old, (List.append_assoc ..).symm⟩
    · simp only [List.length_append, List.length_singleton, List.length_erase_of_mem hhit]
      omega
  · have herase : (old ++ frames).erase page = old.erase page ++ frames := by
      rw [List.erase_append]
      split
      case isTrue => rfl
      case isFalse hout => rw [List.erase_of_not_mem hhit, List.erase_of_not_mem hout]
    rw [if_neg hhit, if_neg hhit, herase]
    by_cases hfull : frames.length = n
    · -- fault with full frames: the first page leaves
      rw [if_pos hfull]
      cases frames with
      | nil => exact absurd hfull (by simp; omega)
      | cons removed rest =>
        refine congrArg (fun l => some (LruState.mk l (faults + 1))) (eq_rtake_of_suffix ?_ ?_)
        · exact ⟨old.erase page ++ [removed], by simp⟩
        · simp only [List.length_append, List.length_cons, List.length_nil] at hfull ⊢
          omega
    · -- fault with a frame left: all pages so far are in the frames
      have hnil : old = [] := List.eq_nil_of_length_eq_zero (by omega)
      subst hnil
      rw [if_neg hfull]
      refine congrArg (fun l => some (LruState.mk l (faults + 1))) (eq_rtake_of_suffix ?_ ?_)
      · exact List.suffix_rfl
      · simp only [List.length_append, List.length_cons, List.length_nil, List.erase_nil] at hlen ⊢
        omega

omit [DecidableEq α] in
/-- With one frame more the frames reach further back. -/
theorem rtake_suffix_succ (n : ℕ) (l : List α) : l.rtake n <:+ l.rtake (n + 1) := by
  refine List.suffix_of_suffix_length_le (rtake_suffix n l) (rtake_suffix (n + 1) l) ?_
  rw [length_rtake, length_rtake]
  omega

theorem lruLoop_concat (pages : List α) (page : α) (n : ℕ) :
    lruLoop (pages ++ [page]) n = (lruLoop pages n).bind fun st => st.reference n page := by
  simp [lruLoop, List.foldlM_append]

/-- The loop with `n` frames and the loop with `n + 1`, in step. -/
theorem lru_eq_rtake {n : ℕ} (hn : 1 ≤ n) (pages : List α) :
    ∃ faults faults' : ℕ, faults' ≤ faults ∧
      lruLoop pages n = some ⟨pages.dedup.rtake n, faults⟩ ∧
      lruLoop pages (n + 1) = some ⟨pages.dedup.rtake (n + 1), faults'⟩ := by
  induction pages using List.reverseRecOn with
  | nil => exact ⟨0, 0, le_rfl, by simp [lruLoop], by simp [lruLoop]⟩
  | append_singleton pages page ih =>
    obtain ⟨faults, faults', hle, hrun, hrun'⟩ := ih
    rw [lruLoop_concat, lruLoop_concat, hrun, hrun']
    refine ⟨_, _, ?_, reference_rtake hn pages faults page,
      reference_rtake (Nat.le_add_left ..) pages faults' page⟩
    have hhit : page ∈ pages.dedup.rtake n → page ∈ pages.dedup.rtake (n + 1) := fun h =>
      (rtake_suffix_succ n _).mem h
    split
    case isTrue => split <;> omega
    case isFalse hmiss =>
      rw [if_neg (mt hhit hmiss)]
      exact Nat.succ_le_succ hle

/-! ## Inclusion -/

/-- The frames are the `n` most recently used distinct pages, or all of them, in the order of
their last use. -/
structure MostRecent (n : ℕ) (pages frames : List α) : Prop where
  subset : frames ⊆ pages
  nodup : frames.Nodup
  length : frames.length = min n pages.dedup.length
  order : frames.Pairwise fun p q => age pages q < age pages p
  recent : ∀ p ∈ frames, ∀ q ∈ pages, q ∉ frames → age pages p < age pages q

theorem mostRecent_rtake (n : ℕ) (pages : List α) :
    MostRecent n pages (pages.dedup.rtake n) := by
  have hsuffix := rtake_suffix n pages.dedup
  have hpair := pairwise_dedup_age pages
  refine ⟨?_, ?_, length_rtake n _, hpair.sublist hsuffix.sublist, ?_⟩
  · exact fun p hp => List.mem_dedup.mp (hsuffix.mem hp)
  · exact (List.nodup_dedup pages).sublist hsuffix.sublist
  · intro p hp q hq hout
    obtain ⟨old, hold⟩ := hsuffix
    rw [← hold, List.pairwise_append] at hpair
    rw [← List.mem_dedup, ← hold, List.mem_append] at hq
    exact hpair.2.2 q (hq.resolve_right hout) p hp

/-- **LRU inclusion.** After every prefix of the reference string the frames are the most recently
used distinct pages, and a suffix of the frames with one frame more; so one frame more never
causes more page faults. -/
theorem lru_inclusion {n : ℕ} (hn : 1 ≤ n) (pages : List α) :
    (∀ seen, seen <+: pages → ∃ st st' : LruState α, lruLoop seen n = some st ∧
      lruLoop seen (n + 1) = some st' ∧ MostRecent n seen st.frames ∧ st.frames <:+ st'.frames) ∧
    ∃ faults faults', lruPageReplacement pages n = some faults ∧
      lruPageReplacement pages (n + 1) = some faults' ∧ faults' ≤ faults := by
  constructor
  · intro seen _
    obtain ⟨faults, faults', -, hrun, hrun'⟩ := lru_eq_rtake hn seen
    exact ⟨_, _, hrun, hrun', mostRecent_rtake n seen, rtake_suffix_succ n _⟩
  · obtain ⟨faults, faults', hle, hrun, hrun'⟩ := lru_eq_rtake hn pages
    exact ⟨faults, faults', by rw [lruPageReplacement, hrun]; rfl,
      by rw [lruPageReplacement, hrun']; rfl, hle⟩

/-- The reference string of the lab, with 3 frames and with 4. -/
theorem lru_inclusion_lab : (∃ faults faults',
    lruPageReplacement [1, 2, 3, 4, 1, 2, 5, 1, 2, 3, 4, 5] 3 = some faults ∧
    lruPageReplacement [1, 2, 3, 4, 1, 2, 5, 1, 2, 3, 4, 5] (3 + 1) = some faults' ∧
    faults' ≤ faults) ∧
    lruPageReplacement [1, 2, 3, 4, 1, 2, 5, 1, 2, 3, 4, 5] 3 = some 10 ∧
    lruPageReplacement [1, 2, 3, 4, 1, 2, 5, 1, 2, 3, 4, 5] 4 = some 8 :=
  ⟨(lru_inclusion (by decide) [1, 2, 3, 4, 1, 2, 5, 1, 2, 3, 4, 5]).2, by decide, by decide⟩

end Xv6.Labs
