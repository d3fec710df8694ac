import Mathlib.Algebra.BigOperators.Group.List.Basic
import Mathlib.Algebra.Order.BigOperators.Group.List
import Mathlib.Algebra.Order.Ring.Int
import Mathlib.Data.List.Sort
import Mathlib.Tactic.Linarith
import Mathlib.Tactic.Ring

/-!
# The scheduler simulator

The policies of `scheduler.py`, for jobs whose run times are integers. The averages have the same
count for all orders of the jobs, so only the sums are here.

The simulator adds floats, so each sum passes through a hook `rnd`: `roundFloat` for the program
itself, and `id` for exact sums. Up to `2 ^ 53` the two agree (`roundFloat_of_le`).

`SJF` runs the jobs as `FIFO` does once they are sorted, and no order of the jobs has smaller sums
(`sjf_minimal`).
-/

namespace Xv6.Simulation.Scheduler

/-! ## Floats -/

/-- The float nearest to an integer, with 53 bits; of two nearest ones the even one. -/
def roundFloat (x : ℤ) : ℤ :=
  let unit : ℤ := 2 ^ (x.natAbs.log2 - 52)
  let q := x / unit
  let r := x % unit
  if 2 * r < unit ∨ (2 * r = unit ∧ q % 2 = 0) then q * unit else (q + 1) * unit

/-- Integers of 53 bits are floats. -/
theorem roundFloat_of_lt {x : ℤ} (h : x.natAbs < 2 ^ 53) : roundFloat x = x := by
  have hlog : x.natAbs.log2 - 52 = 0 := by
    rcases Nat.eq_zero_or_pos x.natAbs with hzero | hpos
    · simp [hzero]
    · have := (Nat.log2_lt hpos.ne').2 h
      omega
  simp [roundFloat, hlog]

theorem roundFloat_of_le {x : ℤ} (h : |x| ≤ 2 ^ 53) : roundFloat x = x := by
  rcases h.lt_or_eq with hlt | heq
  · apply roundFloat_of_lt
    rw [Int.abs_eq_natAbs] at hlt
    exact_mod_cast hlt
  · rcases (abs_eq (by positivity)).1 heq with rfl | rfl <;> decide

/-- The float above `2 ^ 53` is `2 ^ 53 + 2`. -/
example : [2 ^ 53 + 1, 2 ^ 53 + 2, 2 ^ 53 + 3, -(2 ^ 53) - 1].map roundFloat =
    [2 ^ 53, 2 ^ 53 + 2, 2 ^ 53 + 4, -(2 ^ 53)] := by decide

/-! ## FIFO and SJF -/

/-- A line of the final statistics. -/
structure Line where
  jobnum : ℕ
  response : ℤ
  turnaround : ℤ
  wait : ℤ

section Sums

variable (rnd : ℤ → ℤ)

/-- The final statistics of `FIFO`, from the time `t` on. -/
def fifo : ℤ → List (ℕ × ℤ) → List Line
  | _, [] => []
  | t, (jobnum, runtime) :: joblist =>
    ⟨jobnum, t, rnd (t + runtime), t⟩ :: fifo (rnd (t + runtime)) joblist

/-- The final statistics of `SJF`. -/
def sjf (joblist : List (ℕ × ℤ)) : List Line :=
  fifo rnd 0 (joblist.insertionSort fun x y => x.2 ≤ y.2)

/-- `sum += x` for all `x` of a list, from `sum` on. -/
def sumFrom (sum : ℤ) (l : List ℤ) : ℤ := l.foldl (fun sum x => rnd (sum + x)) sum

def responseSum (l : List Line) : ℤ := sumFrom rnd 0 (l.map Line.response)

def turnaroundSum (l : List Line) : ℤ := sumFrom rnd 0 (l.map Line.turnaround)

def waitSum (l : List Line) : ℤ := sumFrom rnd 0 (l.map Line.wait)

end Sums

@[simp] theorem sumFrom_id (sum : ℤ) (l : List ℤ) : sumFrom id sum l = sum + l.sum := by
  induction l generalizing sum with
  | nil => simp [sumFrom]
  | cons x l ih =>
    have htail := ih (sum + x)
    simp only [sumFrom, List.foldl_cons, id_eq, List.sum_cons] at htail ⊢
    rw [htail, add_assoc]

variable (t : ℤ)

theorem responseSum_cons (j : ℕ × ℤ) (l : List (ℕ × ℤ)) :
    responseSum id (fifo id t (j :: l)) = t + responseSum id (fifo id (t + j.2) l) := by
  simp [responseSum, fifo]

/-- A job waits until it runs. -/
theorem waitSum_eq (l : List (ℕ × ℤ)) : waitSum id (fifo id t l) = responseSum id (fifo id t l) := by
  induction l generalizing t with
  | nil => rfl
  | cons j l ih =>
    have htail := ih (t + j.2)
    simp only [waitSum, responseSum, sumFrom_id, fifo, id_eq, List.map_cons, List.sum_cons,
      zero_add] at htail ⊢
    rw [htail]

/-- And then runs to its end. -/
theorem turnaroundSum_eq (l : List (ℕ × ℤ)) :
    turnaroundSum id (fifo id t l) = responseSum id (fifo id t l) + (l.map Prod.snd).sum := by
  induction l generalizing t with
  | nil => rfl
  | cons j l ih =>
    have htail := ih (t + j.2)
    simp only [turnaroundSum, responseSum, sumFrom_id, fifo, id_eq, List.map_cons, List.sum_cons,
      zero_add] at htail ⊢
    rw [htail]
    ring

/-- Only the run times matter. -/
theorem responseSum_congr {l l' : List (ℕ × ℤ)} (h : l.map Prod.snd = l'.map Prod.snd) :
    responseSum id (fifo id t l) = responseSum id (fifo id t l') := by
  induction l generalizing t l' with
  | nil =>
    obtain rfl : l' = [] := List.map_eq_nil_iff.1 h.symm
    rfl
  | cons j l ih =>
    cases l' with
    | nil => exact absurd h (by simp)
    | cons j' l' =>
      obtain ⟨hhead, htail⟩ := List.cons_eq_cons.1 h
      rw [responseSum_cons, responseSum_cons, hhead, ih _ htail]

/-- A job that lets shorter ones go first lowers the sum. -/
theorem responseSum_orderedInsert_le (j : ℕ × ℤ) (l : List (ℕ × ℤ)) :
    responseSum id (fifo id t (l.orderedInsert (fun x y => x.2 ≤ y.2) j)) ≤
      responseSum id (fifo id t (j :: l)) := by
  induction l generalizing t with
  | nil => exact le_rfl
  | cons k l ih =>
    rw [List.orderedInsert_cons]
    split_ifs with hle
    · exact le_rfl
    · -- `j` and `k` change places
      have hswap := ih (t + k.2)
      simp only [responseSum_cons] at hswap ⊢
      rw [add_right_comm t j.2 k.2]
      linarith

/-- Sorting the jobs lowers the sum. -/
theorem responseSum_insertionSort_le (l : List (ℕ × ℤ)) :
    responseSum id (fifo id t (l.insertionSort fun x y => x.2 ≤ y.2)) ≤
      responseSum id (fifo id t l) := by
  induction l generalizing t with
  | nil => exact le_rfl
  | cons j l ih =>
    calc responseSum id (fifo id t ((j :: l).insertionSort fun x y => x.2 ≤ y.2))
        ≤ responseSum id (fifo id t (j :: l.insertionSort fun x y => x.2 ≤ y.2)) :=
          responseSum_orderedInsert_le t j _
      _ ≤ responseSum id (fifo id t (j :: l)) := by
          rw [responseSum_cons, responseSum_cons]
          linarith [ih (t + j.2)]

theorem map_insertionSort_snd (l : List (ℕ × ℤ)) :
    (l.insertionSort fun x y => x.2 ≤ y.2).map Prod.snd =
      (l.map Prod.snd).insertionSort (· ≤ ·) :=
  List.map_insertionSort _ _ Prod.snd l fun _ _ _ _ => Iff.rfl

/-- No order of the jobs has smaller exact sums. -/
theorem sjf_minimal_exact {joblist l : List (ℕ × ℤ)} (h : l.Perm joblist) :
    responseSum id (sjf id joblist) ≤ responseSum id (fifo id 0 l) ∧
      turnaroundSum id (sjf id joblist) ≤ turnaroundSum id (fifo id 0 l) ∧
      waitSum id (sjf id joblist) ≤ waitSum id (fifo id 0 l) := by
  have hsorted : responseSum id (sjf id joblist) = responseSum id (sjf id l) := by
    apply responseSum_congr
    rw [map_insertionSort_snd, map_insertionSort_snd]
    exact ((List.perm_insertionSort _ _).trans ((h.symm.map Prod.snd).trans
      (List.perm_insertionSort _ _).symm)).eq_of_pairwise'
        (List.pairwise_insertionSort _ _) (List.pairwise_insertionSort _ _)
  have hresponse : responseSum id (sjf id joblist) ≤ responseSum id (fifo id 0 l) :=
    hsorted.le.trans (responseSum_insertionSort_le 0 l)
  have hruntime : ((joblist.insertionSort fun x y => x.2 ≤ y.2).map Prod.snd).sum =
      (l.map Prod.snd).sum :=
    (((List.perm_insertionSort _ _).trans h.symm).map Prod.snd).sum_eq
  refine ⟨hresponse, ?_, ?_⟩
  · rw [sjf, turnaroundSum_eq, turnaroundSum_eq, hruntime]
    exact add_le_add_left hresponse _
  · rw [sjf, waitSum_eq, waitSum_eq]
    exact hresponse

/-! ## Sums of at most 53 bits -/

/-- The sum of the absolute values. -/
def total (l : List ℤ) : ℤ := (l.map abs).sum

@[simp] theorem total_cons (x : ℤ) (l : List ℤ) : total (x :: l) = |x| + total l := by
  simp [total]

theorem total_nonneg (l : List ℤ) : 0 ≤ total l :=
  List.sum_nonneg (by simp)

/-- A sum that cannot leave the 53 bits is exact. -/
theorem sumFrom_roundFloat {sum : ℤ} {l : List ℤ} (h : |sum| + total l ≤ 2 ^ 53) :
    sumFrom roundFloat sum l = sumFrom id sum l := by
  induction l generalizing sum with
  | nil => rfl
  | cons x l ih =>
    rw [total_cons] at h
    have htri := abs_add_le sum x
    have hrest := total_nonneg l
    have hround : roundFloat (sum + x) = sum + x := roundFloat_of_le (by linarith)
    have htail : sumFrom roundFloat (sum + x) l = sumFrom id (sum + x) l := ih (by linarith)
    simpa only [sumFrom, List.foldl_cons, hround, id_eq] using htail

/-- The times of `FIFO` are at most all run times together. -/
theorem abs_le_of_mem_fifo {line : Line} {t : ℤ} {l : List (ℕ × ℤ)}
    (h : line ∈ fifo id t l) :
    |line.response| ≤ |t| + total (l.map Prod.snd) ∧
      |line.turnaround| ≤ |t| + total (l.map Prod.snd) ∧
      |line.wait| ≤ |t| + total (l.map Prod.snd) := by
  induction l generalizing t with
  | nil => exact absurd h (by simp [fifo])
  | cons j l ih =>
    have htri := abs_add_le t j.2
    have hrest := total_nonneg (l.map Prod.snd)
    have hj := abs_nonneg j.2
    rw [List.map_cons, total_cons]
    rcases List.mem_cons.1 h with rfl | h
    · simp only [id_eq]
      refine ⟨?_, ?_, ?_⟩ <;> linarith
    · obtain ⟨h₁, h₂, h₃⟩ := ih h
      simp only [id_eq] at h₁ h₂ h₃
      refine ⟨?_, ?_, ?_⟩ <;> linarith

theorem fifo_roundFloat {t : ℤ} {l : List (ℕ × ℤ)} (h : |t| + total (l.map Prod.snd) ≤ 2 ^ 53) :
    fifo roundFloat t l = fifo id t l := by
  induction l generalizing t with
  | nil => rfl
  | cons j l ih =>
    rw [List.map_cons, total_cons] at h
    have htri := abs_add_le t j.2
    have hrest := total_nonneg (l.map Prod.snd)
    have hround : roundFloat (t + j.2) = t + j.2 := roundFloat_of_le (by linarith)
    simp only [fifo, hround, id_eq]
    rw [ih (by linarith)]

theorem length_fifo (rnd : ℤ → ℤ) (t : ℤ) (l : List (ℕ × ℤ)) : (fifo rnd t l).length = l.length := by
  induction l generalizing t with
  | nil => rfl
  | cons j l ih => simp [fifo, ih]

/-- A column of the statistics has as many entries as there are jobs. -/
theorem total_le_of_forall {l : List Line} {f : Line → ℤ} {b : ℤ} (h : ∀ line ∈ l, |f line| ≤ b) :
    total (l.map f) ≤ l.length * b := by
  induction l with
  | nil => simp [total]
  | cons line l ih =>
    have hline := h line (List.mem_cons_self ..)
    have hrest := ih fun x hx => h x (List.mem_cons_of_mem _ hx)
    rw [List.map_cons, total_cons, List.length_cons]
    push_cast
    linarith

/-- As long as the times of all jobs together are within the 53 bits, `FIFO` and its sums are
exact. -/
theorem sums_roundFloat {l : List (ℕ × ℤ)} (h : l.length * total (l.map Prod.snd) ≤ 2 ^ 53) :
    responseSum roundFloat (fifo roundFloat 0 l) = responseSum id (fifo id 0 l) ∧
      turnaroundSum roundFloat (fifo roundFloat 0 l) = turnaroundSum id (fifo id 0 l) ∧
      waitSum roundFloat (fifo roundFloat 0 l) = waitSum id (fifo id 0 l) := by
  cases l with
  | nil => exact ⟨rfl, rfl, rfl⟩
  | cons j joblist =>
    set l := j :: joblist with hl
    have hnonneg := total_nonneg (l.map Prod.snd)
    have hlength : (1 : ℤ) ≤ l.length := by simp [hl]
    have hfifo : fifo roundFloat 0 l = fifo id 0 l := by
      apply fifo_roundFloat
      rw [abs_zero, zero_add]
      nlinarith
    have hcolumn : ∀ f : Line → ℤ, (∀ line ∈ fifo id 0 l, |f line| ≤ total (l.map Prod.snd)) →
        sumFrom roundFloat 0 ((fifo id 0 l).map f) = sumFrom id 0 ((fifo id 0 l).map f) := by
      intro f hf
      have htotal := total_le_of_forall hf
      rw [length_fifo] at htotal
      apply sumFrom_roundFloat
      rw [abs_zero, zero_add]
      exact htotal.trans h
    rw [hfifo]
    refine ⟨hcolumn _ fun line hline => ?_, hcolumn _ fun line hline => ?_,
      hcolumn _ fun line hline => ?_⟩
    · simpa using (abs_le_of_mem_fifo hline).1
    · simpa using (abs_le_of_mem_fifo hline).2.1
    · simpa using (abs_le_of_mem_fifo hline).2.2

/-- **The shortest job first.** As long as the floats are exact, no order of the jobs has a smaller
sum of the response times, of the turnaround times or of the wait times. -/
theorem sjf_minimal {joblist l : List (ℕ × ℤ)} (h : l.Perm joblist)
    (hsum : joblist.length * total (joblist.map Prod.snd) ≤ 2 ^ 53) :
    responseSum roundFloat (sjf roundFloat joblist) ≤
        responseSum roundFloat (fifo roundFloat 0 l) ∧
      turnaroundSum roundFloat (sjf roundFloat joblist) ≤
        turnaroundSum roundFloat (fifo roundFloat 0 l) ∧
      waitSum roundFloat (sjf roundFloat joblist) ≤ waitSum roundFloat (fifo roundFloat 0 l) := by
  have hbound : ∀ {l' : List (ℕ × ℤ)}, l'.Perm joblist →
      l'.length * total (l'.map Prod.snd) ≤ 2 ^ 53 := by
    intro l' hperm
    have htotal : total (l'.map Prod.snd) = total (joblist.map Prod.snd) :=
      ((hperm.map Prod.snd).map abs).sum_eq
    rw [hperm.length_eq, htotal]
    exact hsum
  obtain ⟨hr, ht, hw⟩ := sums_roundFloat (hbound h)
  obtain ⟨hr', ht', hw'⟩ := sums_roundFloat
    (hbound (List.perm_insertionSort (fun x y => x.2 ≤ y.2) joblist))
  rw [hr, ht, hw]
  simp only [sjf]
  rw [hr', ht', hw']
  exact sjf_minimal_exact h

/-- Three jobs, the longest of which comes first. -/
theorem sjf_minimal_three :
    let joblist := [(0, 9), (1, 8), (2, 5)]
    let l := [(0, 9), (2, 5), (1, 8)]
    responseSum roundFloat (sjf roundFloat joblist) ≤
        responseSum roundFloat (fifo roundFloat 0 l) ∧
      turnaroundSum roundFloat (sjf roundFloat joblist) ≤
        turnaroundSum roundFloat (fifo roundFloat 0 l) ∧
      waitSum roundFloat (sjf roundFloat joblist) ≤ waitSum roundFloat (fifo roundFloat 0 l) := by
  intro joblist l
  apply sjf_minimal
  · decide
  · decide

example : (sjf roundFloat [(0, 9), (1, 8), (2, 5)]).map Line.turnaround = [5, 13, 22] := by decide

end Xv6.Simulation.Scheduler
