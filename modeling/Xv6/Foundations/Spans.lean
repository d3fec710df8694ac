import Mathlib.Algebra.Order.BigOperators.Group.List
import Mathlib.Algebra.Order.Ring.Int
import Mathlib.Data.List.Pairwise
import Mathlib.Data.List.Sort

/-!
# Spans of addresses

A span `(off, len)` has the addresses from `off` to `off + len`. `cover` counts the spans of a list
that have an address, so that neither the order of the list nor where a span is cut matters.
-/

namespace Xv6

/-- The number of spans with the address `x`. -/
def cover (x : ℤ) (l : List (ℤ × ℤ)) : ℕ := l.countP fun e => e.1 ≤ x ∧ x < e.1 + e.2

section Cover

variable {x : ℤ} {e : ℤ × ℤ} {l l' : List (ℤ × ℤ)}

@[simp]
theorem cover_nil : cover x [] = 0 := rfl

theorem cover_cons :
    cover x (e :: l) = cover x l + if e.1 ≤ x ∧ x < e.1 + e.2 then 1 else 0 := by
  simp [cover, List.countP_cons]

@[simp]
theorem cover_append : cover x (l ++ l') = cover x l + cover x l' := List.countP_append

theorem cover_perm (h : l.Perm l') : cover x l = cover x l' := h.countP_eq _

theorem cover_pos : 0 < cover x l ↔ ∃ e ∈ l, e.1 ≤ x ∧ x < e.1 + e.2 := by
  simp [cover, List.countP_pos_iff]

/-- Two spans that meet have the addresses of one. -/
theorem cover_glue {a m n : ℤ} (hm : 0 ≤ m) (hn : 0 ≤ n) :
    cover x ((a, m) :: (a + m, n) :: l) = cover x ((a, m + n) :: l) := by
  simp only [cover_cons]
  split_ifs <;> omega

end Cover

/-! ## Spans that make up a range -/

/-- Each address from `start` to `start + size` is in one span, and no other address is in any. -/
structure Partitions (start size : ℤ) (l : List (ℤ × ℤ)) : Prop where
  cover : ∀ x, cover x l = if start ≤ x ∧ x < start + size then 1 else 0
  pos : ∀ e ∈ l, 0 < e.2
  /-- The spans are as large as the range. -/
  total : (l.map Prod.snd).sum = size

namespace Partitions

variable {start size : ℤ} {e f : ℤ × ℤ} {l l' : List (ℤ × ℤ)}

/-- One span is the whole range. -/
theorem singleton (h : 0 < size) : Partitions start size [(start, size)] where
  cover x := by rw [cover_cons, cover_nil, Nat.zero_add]
  pos := by simpa using h
  total := by simp

theorem perm (h : Partitions start size l) (hl : l.Perm l') : Partitions start size l' where
  cover x := by rw [← cover_perm hl, h.cover]
  pos e he := h.pos e (hl.mem_iff.2 he)
  total := by rw [← h.total, (hl.map Prod.snd).sum_eq]

/-- Two spans that meet become one. -/
theorem glue (h : Partitions start size (e :: f :: l)) (hmeet : f.1 = e.1 + e.2) :
    Partitions start size ((e.1, e.2 + f.2) :: l) := by
  have he := h.pos e (by simp)
  have hf := h.pos f (by simp)
  have hcut : f = (e.1 + e.2, f.2) := Prod.ext hmeet rfl
  refine ⟨fun x => ?_, fun y hy => ?_, ?_⟩
  · rw [← h.cover x, ← cover_glue he.le hf.le, ← hcut]
  · rcases List.mem_cons.1 hy with rfl | hy
    · exact add_pos he hf
    · exact h.pos y (by simp [hy])
  · rw [← h.total]
    simp [add_assoc]

/-- A span is cut in two. -/
theorem split (h : Partitions start size (e :: l)) {n : ℤ} (hn : 0 < n) (hlt : n < e.2) :
    Partitions start size ((e.1, n) :: (e.1 + n, e.2 - n) :: l) := by
  have hrest : 0 ≤ e.2 - n := by omega
  have hwhole : n + (e.2 - n) = e.2 := by omega
  refine ⟨fun x => ?_, fun y hy => ?_, ?_⟩
  · rw [cover_glue hn.le hrest, hwhole, h.cover]
  · rcases List.mem_cons.1 hy with rfl | hy
    · exact hn
    rcases List.mem_cons.1 hy with rfl | hy
    · exact sub_pos.2 hlt
    · exact h.pos y (List.mem_cons_of_mem _ hy)
  · rw [← h.total]
    simp only [List.map_cons, List.sum_cons]
    omega

/-- No span is larger than the range. -/
theorem le_size (h : Partitions start size l) (he : e ∈ l) : e.2 ≤ size := by
  rw [← h.total]
  refine List.single_le_sum (fun x hx => ?_) _ (List.mem_map_of_mem he)
  obtain ⟨y, hy, rfl⟩ := List.mem_map.1 hx
  exact (h.pos y hy).le

/-- A span begins in the range. -/
theorem start_le (h : Partitions start size l) (he : e ∈ l) : start ≤ e.1 := by
  have hcover : 0 < Xv6.cover e.1 l :=
    cover_pos.2 ⟨e, he, le_rfl, by have := h.pos e he; omega⟩
  rw [h.cover] at hcover
  by_contra hlow
  simp [hlow] at hcover

theorem cover_le (h : Partitions start size l) (x : ℤ) : Xv6.cover x l ≤ 1 := by
  rw [h.cover]
  split_ifs <;> omega

end Partitions

/-! ## Spans in the order of their addresses -/

/-- The spans go up, with a gap after each. -/
def Gapped (l : List (ℤ × ℤ)) : Prop := l.Pairwise fun x y => x.1 + x.2 < y.1

/-- The spans go up, and no two of them meet. -/
def Ascending (l : List (ℤ × ℤ)) : Prop := l.Pairwise fun x y => x.1 + x.2 ≤ y.1

/-- Spans sorted by their first address go up when no address is in two of them. -/
theorem ascending_of_cover {l : List (ℤ × ℤ)} (hsorted : l.Pairwise fun x y => x.1 ≤ y.1)
    (hpos : ∀ e ∈ l, 0 < e.2) (hcover : ∀ x, cover x l ≤ 1) : Ascending l := by
  induction l with
  | nil => exact List.Pairwise.nil
  | cons e l ih =>
    obtain ⟨hfirst, hsorted⟩ := List.pairwise_cons.1 hsorted
    have htail : ∀ x, cover x l ≤ 1 := fun x => by
      have := hcover x
      rw [cover_cons] at this
      omega
    refine List.pairwise_cons.2
      ⟨fun f hf => ?_, ih hsorted (fun f hf => hpos f (List.mem_cons_of_mem _ hf)) htail⟩
    -- else the first address of `f` is in both
    by_contra hmeet
    have hfcover : 0 < cover f.1 l :=
      cover_pos.2 ⟨f, hf, le_rfl, by have := hpos f (List.mem_cons_of_mem _ hf); omega⟩
    have htwice := hcover f.1
    rw [cover_cons, if_pos ⟨hfirst f hf, not_le.1 hmeet⟩] at htwice
    omega

namespace Gapped

variable {l : List (ℤ × ℤ)}

/-- A span that loses its lower part. -/
theorem set (h : Gapped l) {k : ℕ} {e f : ℤ × ℤ} (hk : l[k]? = some e) (hlow : e.1 ≤ f.1)
    (hend : f.1 + f.2 = e.1 + e.2) : Gapped (l.set k f) := by
  induction l generalizing k with
  | nil => exact h
  | cons y l ih =>
    obtain ⟨hfirst, hrest⟩ := List.pairwise_cons.1 h
    cases k with
    | zero =>
      obtain rfl : y = e := by simpa using hk
      refine List.pairwise_cons.2 ⟨fun z hz => ?_, hrest⟩
      have := hfirst z hz
      omega
    | succ k =>
      rw [List.getElem?_cons_succ] at hk
      refine List.pairwise_cons.2 ⟨fun z hz => ?_, ih hrest hk⟩
      rcases List.mem_or_eq_of_mem_set hz with hz | rfl
      · exact hfirst z hz
      · have := hfirst e (List.mem_of_getElem? hk)
        omega

/-- One of two spans is above the other. -/
theorem or_of_ne (h : Gapped l) {e f : ℤ × ℤ} (he : e ∈ l) (hf : f ∈ l) (hne : e ≠ f) :
    e.1 + e.2 < f.1 ∨ f.1 + f.2 < e.1 := by
  have hsymm : Std.Symm fun x y : ℤ × ℤ => x.1 + x.2 < y.1 ∨ y.1 + y.2 < x.1 :=
    ⟨fun _ _ => Or.symm⟩
  have hpair : l.Pairwise fun x y => x.1 + x.2 < y.1 ∨ y.1 + y.2 < x.1 := h.imp Or.inl
  exact hpair.forall he hf hne

/-- A stretch of addresses that are all in spans with gaps is in one of the spans. -/
theorem exists_stretch (h : Gapped l) {a n : ℤ} (hn : 0 < n)
    (hall : ∀ x, a ≤ x → x < a + n → 0 < cover x l) :
    ∃ e ∈ l, e.1 ≤ a ∧ a + n ≤ e.1 + e.2 := by
  obtain ⟨e, he, hlow, hhigh⟩ := cover_pos.1 (hall a le_rfl (by omega))
  refine ⟨e, he, hlow, ?_⟩
  by_contra hend
  -- the address after `e` is in another span, which leaves no gap
  obtain ⟨f, hf, hflow, hfhigh⟩ := cover_pos.1 (hall (e.1 + e.2) (by omega) (by omega))
  have hne : e ≠ f := by
    rintro rfl
    omega
  have hgap := h.or_of_ne he hf hne
  omega

end Gapped

end Xv6
