import Xv6.Labs.Lru

/-!
# FIFO page replacement

`fifo_page_replacement` keeps its frames in the order in which their pages were loaded. So they are
the last pages that were loaded, and `num_frames` page faults in a row load as many different pages
(`fifo_loads`).
-/

namespace Xv6.Labs

variable {α : Type*} [DecidableEq α]

/-! ## The program -/

/-- The variables of the loop. -/
structure FifoState (α : Type*) where
  frames : List α
  pageFaults : ℕ

/-- One reference. `frames.popleft()` on an empty list raises an exception. -/
def FifoState.reference (numFrames : ℕ) (st : FifoState α) (page : α) : Option (FifoState α) :=
  if page ∉ st.frames then
    if st.frames.length = numFrames then
      match st.frames with
      | [] => none
      | _ :: rest => some ⟨rest ++ [page], st.pageFaults + 1⟩
    else
      some ⟨st.frames ++ [page], st.pageFaults + 1⟩
  else
    some st

/-- The loop over a page reference string. -/
def fifoLoop (pages : List α) (numFrames : ℕ) : Option (FifoState α) :=
  pages.foldlM (FifoState.reference numFrames) ⟨[], 0⟩

/-- `fifo_page_replacement`. -/
def fifoPageReplacement (pages : List α) (numFrames : ℕ) : Option ℕ :=
  (fifoLoop pages numFrames).map FifoState.pageFaults

/-! ## The pages that are loaded -/

/-- A reference loads its page when the page is not one of the last `n` that were loaded. -/
def load (n : ℕ) (loaded : List α) (page : α) : List α :=
  if page ∈ loaded.rtake n then loaded else loaded ++ [page]

/-- The pages in the order in which they are loaded. -/
def loads (n : ℕ) (pages : List α) : List α := pages.foldl (load n) []

theorem loads_concat (n : ℕ) (pages : List α) (page : α) :
    loads n (pages ++ [page]) = load n (loads n pages) page := by
  simp [loads, List.foldl_append]

/-- One reference keeps the frames at the end of the list of loaded pages. -/
theorem reference_load {n : ℕ} (hn : 1 ≤ n) (loaded : List α) (page : α) :
    FifoState.reference n ⟨loaded.rtake n, loaded.length⟩ page =
      some ⟨(load n loaded page).rtake n, (load n loaded page).length⟩ := by
  have hlen := length_rtake n loaded
  obtain ⟨old, hold⟩ := rtake_suffix n loaded
  rw [FifoState.reference, load]
  by_cases hhit : page ∈ loaded.rtake n
  · rw [if_neg (not_not_intro hhit), if_pos hhit]
  rw [if_pos hhit, if_neg hhit]
  have hlength : (loaded ++ [page]).length = loaded.length + 1 := by simp
  rw [hlength]
  generalize hframes : loaded.rtake n = frames at *
  by_cases hfull : frames.length = n
  · -- the first page leaves
    rw [if_pos hfull]
    cases frames with
    | nil => exact absurd hfull (by simp; omega)
    | cons removed rest =>
      refine congrArg (fun l => some (FifoState.mk l (loaded.length + 1)))
        (eq_rtake_of_suffix ?_ ?_)
      · exact ⟨old ++ [removed], by simp [← hold]⟩
      · simp only [List.length_append, List.length_cons, List.length_nil] at hfull hlen ⊢
        omega
  · -- all pages so far are in the frames
    rw [if_neg hfull]
    have hnil : old = [] := by
      apply List.eq_nil_of_length_eq_zero
      have htotal := congrArg List.length hold
      rw [List.length_append] at htotal
      omega
    subst hnil
    refine congrArg (fun l => some (FifoState.mk l (loaded.length + 1))) (eq_rtake_of_suffix ?_ ?_)
    · exact ⟨[], by simp [← hold]⟩
    · simp only [List.length_append, List.length_cons, List.length_nil]
      omega

theorem fifoLoop_eq {n : ℕ} (hn : 1 ≤ n) (pages : List α) :
    fifoLoop pages n = some ⟨(loads n pages).rtake n, (loads n pages).length⟩ := by
  induction pages using List.reverseRecOn with
  | nil => simp [fifoLoop, loads]
  | append_singleton pages page ih =>
    rw [fifoLoop, List.foldlM_append, ← fifoLoop, ih, loads_concat]
    simp [reference_load hn]

theorem loads_sublist (n : ℕ) (pages : List α) : (loads n pages).Sublist pages := by
  induction pages using List.reverseRecOn with
  | nil => exact List.Sublist.refl _
  | append_singleton pages page ih =>
    rw [loads_concat, load]
    split_ifs
    · exact ih.trans (List.sublist_append_left _ _)
    · exact ih.append_right _

theorem subset_loads (n : ℕ) (pages : List α) : pages ⊆ loads n pages := by
  induction pages using List.reverseRecOn with
  | nil => exact List.Subset.refl _
  | append_singleton pages page ih =>
    rw [loads_concat, load]
    split_ifs with hhit
    · refine List.append_subset.2 ⟨ih, fun p hp => ?_⟩
      rw [List.mem_singleton.1 hp]
      exact (rtake_suffix n _).mem hhit
    · exact List.append_subset.2
        ⟨fun p hp => List.mem_append_left _ (ih hp), List.subset_append_right _ _⟩

/-- Few loads in a row are of different pages. -/
theorem nodup_of_infix_loads {n : ℕ} {pages w : List α} (hw : w <:+: loads n pages)
    (hlen : w.length ≤ n) : w.Nodup := by
  induction pages using List.reverseRecOn generalizing w with
  | nil =>
    rw [loads, List.foldl_nil, List.infix_nil] at hw
    exact hw ▸ List.nodup_nil
  | append_singleton pages page ih =>
    rw [loads_concat, load] at hw
    split_ifs at hw with hhit
    · exact ih hw hlen
    · rcases List.infix_concat_iff.1 hw with hsuffix | hinfix
      · rcases List.suffix_concat_iff.1 hsuffix with rfl | ⟨v, rfl, hv⟩
        · exact List.nodup_nil
        · -- the last page was not in the frames, which have the pages loaded before it
          rw [List.length_append, List.length_singleton] at hlen
          have hframes : v <:+ (loads n pages).rtake n := by
            refine List.suffix_of_suffix_length_le hv (rtake_suffix n _) ?_
            have hle := hv.length_le
            rw [length_rtake]
            omega
          have hnew : page ∉ v := fun hmem => hhit (hframes.mem hmem)
          exact (List.perm_append_singleton page v).nodup_iff.2
            (List.nodup_cons.2 ⟨hnew, ih hv.isInfix (by omega)⟩)
      · exact ih hinfix hlen

/-- **FIFO replacement.** The frames are the last pages that were loaded. Every page that is
referenced is loaded, each load is a reference, and as many page faults in a row as there are
frames load different pages. -/
theorem fifo_loads {n : ℕ} (hn : 1 ≤ n) (pages : List α) :
    fifoLoop pages n = some ⟨(loads n pages).rtake n, (loads n pages).length⟩ ∧
      fifoPageReplacement pages n = some (loads n pages).length ∧
      pages ⊆ loads n pages ∧ (loads n pages).Sublist pages ∧
      ∀ w, w <:+: loads n pages → w.length ≤ n → w.Nodup := by
  refine ⟨fifoLoop_eq hn pages, ?_, subset_loads n pages, loads_sublist n pages,
    fun w hw hlen => nodup_of_infix_loads hw hlen⟩
  rw [fifoPageReplacement, fifoLoop_eq hn]
  rfl

/-- The reference string of the lab, with 3 frames. With 4 there are more page faults. -/
theorem fifo_loads_lab :
    (let pages := [1, 2, 3, 4, 1, 2, 5, 1, 2, 3, 4, 5]
    fifoLoop pages 3 = some ⟨(loads 3 pages).rtake 3, (loads 3 pages).length⟩ ∧
      fifoPageReplacement pages 3 = some (loads 3 pages).length ∧
      pages ⊆ loads 3 pages ∧ (loads 3 pages).Sublist pages ∧
      ∀ w, w <:+: loads 3 pages → w.length ≤ 3 → w.Nodup) ∧
    fifoPageReplacement [1, 2, 3, 4, 1, 2, 5, 1, 2, 3, 4, 5] 3 = some 9 ∧
    fifoPageReplacement [1, 2, 3, 4, 1, 2, 5, 1, 2, 3, 4, 5] 4 = some 10 :=
  ⟨fifo_loads (by decide) _, by decide, by decide⟩

end Xv6.Labs
