import Mathlib.Algebra.BigOperators.Fin
import Mathlib.Algebra.Order.BigOperators.Group.Finset
import Mathlib.Algebra.Order.BigOperators.Group.List
import Xv6.Foundations.While
import Xv6.Simulation.Scheduler

/-!
# Round robin

The policy `RR` of `scheduler.py` for integer run times; as in the other policies, every sum passes
through a hook `rnd`. As long as the run times add up to at most `2 ^ 53`, the floats are exact, the
loop ends for every positive quantum and all positive run times, and every job has waited whenever
it has not run. Beyond that a round may leave the time as it is, and the loop need not end.
-/

namespace Xv6.Simulation.Scheduler

/-- `runlist.pop(0)` of an empty list. -/
inductive Abort
  | index
  deriving DecidableEq

/-- The variables of the loop. -/
structure State (n : ℕ) where
  turnaround : Fin n → ℤ
  response : Fin n → ℤ
  lastran : Fin n → ℤ
  wait : Fin n → ℤ
  runlist : List (Fin n × ℤ)
  thetime : ℤ
  jobcount : ℕ

variable {n : ℕ}

/-- Before the loop, with the run times of the jobs. -/
def State.start (runtime : Fin n → ℤ) : State n where
  turnaround _ := 0
  response _ := -1
  lastran _ := 0
  wait _ := 0
  runlist := (List.finRange n).map fun j => (j, runtime j)
  thetime := 0
  jobcount := n

/-- The job `j` has run for `ranfor`. -/
def State.ran (rnd : ℤ → ℤ) (s : State n) (j : Fin n) (ranfor : ℤ) : State n :=
  { s with
    response := if s.response j = -1 then Function.update s.response j s.thetime else s.response
    wait := Function.update s.wait j (rnd (s.wait j + rnd (s.thetime - s.lastran j)))
    lastran := Function.update s.lastran j (rnd (s.thetime + ranfor))
    thetime := rnd (s.thetime + ranfor) }

/-- A round of the loop. -/
def State.round (rnd : ℤ → ℤ) (quantum : ℤ) (s : State n) : Except Abort (State n) :=
  match s.runlist with
  | [] => .error .index
  | (j, runtime) :: l =>
    if quantum < runtime then
      .ok { s.ran rnd j quantum with runlist := l ++ [(j, rnd (runtime - quantum))] }
    else
      .ok { s.ran rnd j runtime with
        runlist := l
        turnaround := Function.update s.turnaround j (rnd (s.thetime + runtime))
        jobcount := s.jobcount - 1 }

/-- The loop, with at most `fuel` rounds. -/
def roundRobin (rnd : ℤ → ℤ) (quantum : ℤ) (runtime : Fin n → ℤ) (fuel : ℕ) :
    Except Abort (Option (State n)) :=
  whileLoop (fun s => decide (0 < s.jobcount)) (State.round rnd quantum) fuel
    (State.start runtime)

/-! ## The statistics -/

/-- A job of `runlist` with `x` left. -/
structure Waits (s : State n) (runtime : Fin n → ℤ) (j : Fin n) (x : ℤ) : Prop where
  pos : 0 < x
  le : x ≤ runtime j
  ran : s.wait j + (runtime j - x) = s.lastran j
  lastran : s.lastran j ≤ s.thetime
  response : (s.response j = -1 ∧ s.lastran j = 0 ∧ x = runtime j) ∨
    (0 ≤ s.response j ∧ s.response j ≤ s.wait j)

/-- A job that has ended: it has waited or run all the time. -/
structure Ended (s : State n) (runtime : Fin n → ℤ) (j : Fin n) : Prop where
  turnaround : s.turnaround j = s.wait j + runtime j
  turnaround_le : s.turnaround j ≤ s.thetime
  response_nonneg : 0 ≤ s.response j
  response_le : s.response j ≤ s.wait j

/-- The state at the head of the loop; `m` is the time that is left. -/
structure Head (runtime : Fin n → ℤ) (m : ℕ) (s : State n) : Prop where
  nodup : (s.runlist.map Prod.fst).Nodup
  jobcount : s.jobcount = s.runlist.length
  waits : ∀ e ∈ s.runlist, Waits s runtime e.1 e.2
  ended : ∀ j, j ∉ s.runlist.map Prod.fst → Ended s runtime j
  left : (m : ℤ) = (s.runlist.map Prod.snd).sum
  thetime : s.thetime + m = ∑ j, runtime j
  nonneg : 0 ≤ s.thetime

theorem Head.start {runtime : Fin n → ℤ} (h : ∀ j, 0 < runtime j) {m : ℕ}
    (hm : (m : ℤ) = ∑ j, runtime j) : Head runtime m (State.start runtime) where
  nodup := by
    simpa [State.start, Function.comp_def] using List.nodup_finRange n
  jobcount := by simp [State.start]
  waits e he := by
    obtain ⟨j, -, rfl⟩ := List.mem_map.1 he
    exact ⟨h j, le_rfl, by simp [State.start], le_rfl, Or.inl ⟨rfl, rfl, rfl⟩⟩
  ended j hj := absurd (by simp [State.start]) hj
  left := by
    rw [hm]
    simp [State.start, Function.comp_def, ← List.ofFn_eq_map, List.sum_ofFn]
  thetime := by simp [State.start, hm]
  nonneg := le_rfl

section Ran

variable {s : State n} {runtime : Fin n → ℤ}

/-- The other jobs do not change. -/
theorem Waits.ran_of_ne {i j : Fin n} {x r : ℤ} (h : Waits s runtime i x) (hne : i ≠ j)
    (hr : 0 ≤ r) : Waits (s.ran id j r) runtime i x := by
  obtain ⟨hpos, hle, hran, hlast, hresponse⟩ := h
  refine ⟨hpos, hle, ?_, ?_, ?_⟩
  · simpa [State.ran, hne] using hran
  · simp only [State.ran, Function.update_of_ne hne, id_eq]
    omega
  · simp only [State.ran]
    split_ifs <;> simpa [hne] using hresponse

theorem Ended.ran_of_ne {i j : Fin n} {r : ℤ} (h : Ended s runtime i) (hne : i ≠ j)
    (hr : 0 ≤ r) : Ended (s.ran id j r) runtime i := by
  obtain ⟨hturn, hle, hnonneg, hwait⟩ := h
  refine ⟨?_, ?_, ?_, ?_⟩
  · simpa [State.ran, hne] using hturn
  · simp only [State.ran, id_eq]
    omega
  · simp only [State.ran]
    split_ifs <;> simpa [hne] using hnonneg
  · simp only [State.ran]
    split_ifs <;> simpa [hne] using hwait

/-- The job that runs has its first response now, or had it before. -/
theorem Waits.response_ran {j : Fin n} {x r : ℤ} (h : Waits s runtime j x) (htime : 0 ≤ s.thetime) :
    0 ≤ (s.ran id j r).response j ∧ (s.ran id j r).response j ≤ (s.ran id j r).wait j := by
  obtain ⟨-, -, hran, hlast, hresponse⟩ := h
  simp only [State.ran, Function.update_self, id_eq]
  split_ifs with hfirst
  · rw [Function.update_self]
    rcases hresponse with ⟨-, hzero, hx⟩ | ⟨hnonneg, -⟩
    · omega
    · omega
  · rcases hresponse with ⟨hnot, -⟩ | ⟨hnonneg, hle⟩
    · exact absurd hnot hfirst
    · omega

/-- The job that runs goes to the end of the list. -/
theorem Waits.goesOn {j : Fin n} {x r : ℤ} (h : Waits s runtime j x) (htime : 0 ≤ s.thetime)
    (hpos : 0 < r) (hr : r < x) : Waits (s.ran id j r) runtime j (x - r) where
  pos := sub_pos.2 hr
  le := by
    have hle := h.le
    omega
  ran := by
    have hran := h.ran
    simp only [State.ran, Function.update_self, id_eq]
    omega
  lastran := by simp [State.ran]
  response := Or.inr (h.response_ran htime)

/-- The job that runs ends. -/
theorem Waits.ends {j : Fin n} {x : ℤ} (h : Waits s runtime j x) (htime : 0 ≤ s.thetime)
    {l : List (Fin n × ℤ)} {c : ℕ} :
    Ended { s.ran id j x with
      runlist := l
      turnaround := Function.update s.turnaround j (s.thetime + x)
      jobcount := c } runtime j where
  turnaround := by
    have hran := h.ran
    simp only [State.ran, Function.update_self, id_eq]
    omega
  turnaround_le := by simp [State.ran]
  response_nonneg := (h.response_ran (r := x) htime).1
  response_le := (h.response_ran (r := x) htime).2

theorem Ended.ends_of_ne {i j : Fin n} {x : ℤ} (h : Ended s runtime i) (hne : i ≠ j)
    (hx : 0 ≤ x) {l : List (Fin n × ℤ)} {c : ℕ} :
    Ended { s.ran id j x with
      runlist := l
      turnaround := Function.update s.turnaround j (s.thetime + x)
      jobcount := c } runtime i := by
  obtain ⟨hturn, hle, hnonneg, hwait⟩ := h.ran_of_ne hne hx
  refine ⟨?_, ?_, hnonneg, hwait⟩ <;> dsimp only <;> rw [Function.update_of_ne hne]
  · exact hturn
  · exact hle

end Ran

variable {runtime : Fin n → ℤ} {quantum : ℤ} {m : ℕ} {s : State n}

/-- The time that is left is that of the first job and of the others. -/
theorem Head.left_cons (h : Head runtime m s) {j : Fin n} {x : ℤ} {l : List (Fin n × ℤ)}
    (hlist : s.runlist = (j, x) :: l) :
    (m : ℤ) = x + (l.map Prod.snd).sum ∧ 0 ≤ (l.map Prod.snd).sum := by
  have hleft := h.left
  rw [hlist, List.map_cons, List.sum_cons] at hleft
  refine ⟨hleft, List.sum_nonneg fun y hy => ?_⟩
  obtain ⟨e, he, rfl⟩ := List.mem_map.1 hy
  exact (h.waits e (hlist ▸ List.mem_cons_of_mem _ he)).pos.le

/-- The first job is in the list once, and its others are as before. -/
theorem Head.others (h : Head runtime m s) {j : Fin n} {x : ℤ} {l : List (Fin n × ℤ)}
    (hlist : s.runlist = (j, x) :: l) :
    (j ∉ l.map Prod.fst ∧ (l.map Prod.fst).Nodup) ∧
      (∀ e ∈ l, e.1 ≠ j ∧ Waits s runtime e.1 e.2) ∧
      ∀ i, i ≠ j → i ∉ l.map Prod.fst → Ended s runtime i := by
  have hnodup := h.nodup
  rw [hlist, List.map_cons, List.nodup_cons] at hnodup
  refine ⟨hnodup, fun e he => ⟨fun heq => ?_, ?_⟩, fun i hi hil => ?_⟩
  · exact hnodup.1 (List.mem_map.2 ⟨e, he, heq⟩)
  · exact h.waits e (hlist ▸ List.mem_cons_of_mem _ he)
  · apply h.ended
    rw [hlist, List.map_cons, List.mem_cons]
    exact not_or.2 ⟨hi, hil⟩

/-- The first job has used up its quantum. -/
theorem Head.goesOn (h : Head runtime m s) (hq : 0 < quantum) {j : Fin n} {x : ℤ}
    {l : List (Fin n × ℤ)} (hlist : s.runlist = (j, x) :: l) (hlong : quantum < x) :
    Head runtime (m - quantum).toNat
      { s.ran id j quantum with runlist := l ++ [(j, x - quantum)] } := by
  obtain ⟨hnodup, hothers, hended⟩ := h.others hlist
  obtain ⟨hleft, hrest⟩ := h.left_cons hlist
  have hw : Waits s runtime j x := h.waits (j, x) (hlist ▸ List.mem_cons_self ..)
  have htime := h.thetime
  have hnonneg := h.nonneg
  have hm : ((m - quantum).toNat : ℤ) = m - quantum := Int.toNat_of_nonneg (by omega)
  refine ⟨?_, ?_, fun e he => ?_, fun i hi => ?_, ?_, ?_, ?_⟩
  · rw [List.map_append]
    exact (List.perm_append_singleton j _).nodup_iff.2 (List.nodup_cons.2 hnodup)
  · have hcount := h.jobcount
    rw [hlist, List.length_cons] at hcount
    simp [State.ran, hcount]
  · rcases List.mem_append.1 he with he | he
    · obtain ⟨hne, hwait⟩ := hothers e he
      obtain ⟨h₁, h₂, h₃, h₄, h₅⟩ := hwait.ran_of_ne hne hq.le
      exact ⟨h₁, h₂, h₃, h₄, h₅⟩
    · obtain ⟨h₁, h₂, h₃, h₄, h₅⟩ := hw.goesOn hnonneg hq hlong
      rw [List.mem_singleton.1 he]
      exact ⟨h₁, h₂, h₃, h₄, h₅⟩
  · rw [List.map_append, List.mem_append, not_or] at hi
    have hij : i ≠ j := by simpa using hi.2
    obtain ⟨h₁, h₂, h₃, h₄⟩ := (hended i hij hi.1).ran_of_ne hij hq.le
    exact ⟨h₁, h₂, h₃, h₄⟩
  · rw [hm, hleft]
    simp only [List.map_append, List.sum_append, List.map_cons, List.map_nil, List.sum_cons,
      List.sum_nil]
    omega
  · simp only [State.ran, id_eq]
    omega
  · simp only [State.ran, id_eq]
    omega

/-- The first job ends. -/
theorem Head.jobEnds (h : Head runtime m s) {j : Fin n} {x : ℤ} {l : List (Fin n × ℤ)}
    (hlist : s.runlist = (j, x) :: l) :
    Head runtime (m - x).toNat { s.ran id j x with
      runlist := l
      turnaround := Function.update s.turnaround j (s.thetime + x)
      jobcount := s.jobcount - 1 } := by
  obtain ⟨hnodup, hothers, hended⟩ := h.others hlist
  obtain ⟨hleft, hrest⟩ := h.left_cons hlist
  have hw : Waits s runtime j x := h.waits (j, x) (hlist ▸ List.mem_cons_self ..)
  have hpos := hw.pos
  have htime := h.thetime
  have hnonneg := h.nonneg
  have hm : ((m - x).toNat : ℤ) = m - x := Int.toNat_of_nonneg (by omega)
  refine ⟨hnodup.2, ?_, fun e he => ?_, fun i hi => ?_, ?_, ?_, ?_⟩
  · have hcount := h.jobcount
    rw [hlist, List.length_cons] at hcount
    dsimp only
    omega
  · obtain ⟨hne, hwait⟩ := hothers e he
    obtain ⟨h₁, h₂, h₃, h₄, h₅⟩ := hwait.ran_of_ne hne hpos.le
    exact ⟨h₁, h₂, h₃, h₄, h₅⟩
  · by_cases hij : i = j
    · subst hij
      exact hw.ends hnonneg
    · exact (hended i hij hi).ends_of_ne hij hpos.le
  · rw [hm, hleft]
    simp
  · simp only [State.ran, id_eq]
    omega
  · simp only [State.ran, id_eq]
    omega

theorem Head.round (h : Head runtime m s) (hq : 0 < quantum) (hgo : 0 < s.jobcount) :
    ∃ m' s', s.round id quantum = .ok s' ∧ Head runtime m' s' ∧ m' < m := by
  cases hlist : s.runlist with
  | nil =>
    have hcount := h.jobcount
    rw [hlist, List.length_nil] at hcount
    omega
  | cons e l =>
    obtain ⟨j, x⟩ := e
    have hpos : 0 < x := (h.waits (j, x) (hlist ▸ List.mem_cons_self ..)).pos
    obtain ⟨hleft, hrest⟩ := h.left_cons hlist
    by_cases hlong : quantum < x
    · refine ⟨_, _, ?_, h.goesOn hq hlist hlong, by omega⟩
      simp only [State.round, hlist, hlong, if_true, id_eq]
    · refine ⟨_, _, ?_, h.jobEnds hlist, by omega⟩
      simp only [State.round, hlist, hlong, if_false, id_eq]

/-- All values of a round are at most the sum of the run times, so the floats are exact. -/
theorem Head.round_roundFloat (h : Head runtime m s) (hq : 0 < quantum)
    (hsum : ∑ j, runtime j ≤ 2 ^ 53) : s.round roundFloat quantum = s.round id quantum := by
  cases hlist : s.runlist with
  | nil => simp only [State.round, hlist]
  | cons e l =>
    obtain ⟨j, x⟩ := e
    have hw : Waits s runtime j x := h.waits (j, x) (hlist ▸ List.mem_cons_self ..)
    obtain ⟨hleft, hrest⟩ := h.left_cons hlist
    have htime := h.thetime
    have hnonneg := h.nonneg
    have hexact : ∀ {y : ℤ}, 0 ≤ y → y ≤ ∑ j, runtime j → roundFloat y = y := fun hy hle =>
      roundFloat_of_le ((abs_of_nonneg hy).trans_le (hle.trans hsum))
    obtain ⟨hpos, hle, hran, hlast, hresponse⟩ := hw
    have hwait : 0 ≤ s.wait j := by
      rcases hresponse with ⟨-, hzero, hx⟩ | ⟨hresponse, hle⟩ <;> omega
    have hran : ∀ r, 0 < r → r ≤ x → s.ran roundFloat j r = s.ran id j r := by
      intro r hr hrx
      have hthetime : roundFloat (s.thetime + r) = s.thetime + r :=
        hexact (by omega) (by omega)
      have hcurrwait : roundFloat (s.thetime - s.lastran j) = s.thetime - s.lastran j :=
        hexact (by omega) (by omega)
      have hsumwait : roundFloat (s.wait j + (s.thetime - s.lastran j)) =
          s.wait j + (s.thetime - s.lastran j) := hexact (by omega) (by omega)
      simp only [State.ran, hthetime, hcurrwait, hsumwait, id_eq]
    by_cases hlong : quantum < x
    · have hx : roundFloat (x - quantum) = x - quantum := hexact (by omega) (by omega)
      simp only [State.round, hlist, hlong, if_true, hran quantum hq hlong.le, hx, id_eq]
    · have hx : roundFloat (s.thetime + x) = s.thetime + x := hexact (by omega) (by omega)
      simp only [State.round, hlist, hlong, if_false, hran x hpos le_rfl, hx, id_eq]

/-- **Round robin.** For a positive quantum and positive run times whose floats are exact the loop
ends, after as many rounds as the jobs have time at most; the time is then that of all jobs, and
each job has waited whenever it has not run. -/
theorem roundRobin_finishes (hq : 0 < quantum) (hruntime : ∀ j, 0 < runtime j)
    (hexact : ∑ j, runtime j ≤ 2 ^ 53) {fuel : ℕ} (hfuel : ∑ j, runtime j ≤ fuel) :
    ∃ s, roundRobin roundFloat quantum runtime fuel = .ok (some s) ∧ s.thetime = ∑ j, runtime j ∧
      ∀ j, Ended s runtime j := by
  have hsum : ((∑ j, runtime j).toNat : ℤ) = ∑ j, runtime j :=
    Int.toNat_of_nonneg (Finset.sum_nonneg fun j _ => (hruntime j).le)
  have hbody : ∀ m s, Head runtime m s → decide (0 < s.jobcount) = true →
      ∃ m' s', s.round roundFloat quantum = .ok s' ∧ Head runtime m' s' ∧ m' < m := by
    intro m s hs hgo
    rw [hs.round_roundFloat hq hexact]
    exact hs.round hq (of_decide_eq_true hgo)
  obtain ⟨m, s, hloop, hs, hend⟩ := whileLoop_total hbody (Head.start hruntime hsum)
    (show (∑ j, runtime j).toNat ≤ fuel by omega)
  have hempty : s.runlist = [] := by
    apply List.eq_nil_of_length_eq_zero
    have hcount := hs.jobcount
    have hzero := of_decide_eq_false hend
    omega
  refine ⟨s, hloop, ?_, fun j => hs.ended j (by simp [hempty])⟩
  have hleft := hs.left
  have htime := hs.thetime
  rw [hempty, List.map_nil, List.sum_nil] at hleft
  omega

/-- Three jobs, with a quantum of two. -/
theorem roundRobin_finishes_three :
    let runtime : Fin 3 → ℤ := fun j => if j = 0 then 5 else if j = 1 then 1 else 4
    ∃ s, roundRobin roundFloat 2 runtime 10 = .ok (some s) ∧ s.thetime = ∑ j, runtime j ∧
      ∀ j, Ended s runtime j := by
  intro runtime
  apply roundRobin_finishes
  · decide
  · decide
  · decide
  · decide

/-- With a quantum of one, the time stays at `2 ^ 53`. -/
example (s : State n) (j : Fin n) (h : s.thetime = 2 ^ 53) :
    (s.ran roundFloat j 1).thetime = s.thetime := by
  simpa only [State.ran, h] using show roundFloat (2 ^ 53 + 1) = 2 ^ 53 by decide

end Xv6.Simulation.Scheduler
