import Xv6.Kernel.Rounds
import Xv6.Kernel.Slots

/-!
# Aging

`wait_time` counts the aging passes that find a process waiting, not the clock ticks that it waits.
The labels of the runs here (`clocked`) also say which steps increment `ticks`, and which processes
start to wait anew. A process is promoted by the `AGING_THRESHOLD`-th pass that finds it waiting
(`promoted_at_threshold`), so it has waited for as many ticks if each of these passes comes in
another tick than the one before (`promoted_after_threshold`).
-/

namespace Xv6.Kernel

variable {κ : Type} {N : ℕ} {υ δ : Type} {C : Client N υ δ}

/-! ## What a step does to `wait_time` -/

/-- `AgeStep e j p q`: an instruction that is seen as `e` takes the slot `j` from `p` to `q`. -/
inductive AgeStep (e : Event N) (j : Fin N) (p q : Proc N υ) : Prop
  | same (h : q.waitTime = p.waitTime) (hl : q.queueLevel = p.queueLevel) (ha : e ≠ .age j)
      (hp : e ≠ .promote j)
  | reset (hst : p.state ≠ .runnable) (h : q.waitTime = 0) (ha : e ≠ .age j) (hp : e ≠ .promote j)
  | age (hst : p.state = .runnable) (h : q.waitTime = int32 (p.waitTime + 1))
      (hl : q.queueLevel = p.queueLevel)
      (hw : 0 < p.queueLevel → int32 (p.waitTime + 1) < agingThreshold) (he : e = .age j)
  | promote (hst : p.state = .runnable) (hw : agingThreshold ≤ int32 (p.waitTime + 1))
      (hl : 0 < p.queueLevel) (h : q.waitTime = 0) (hq : q.queueLevel = p.queueLevel - 1)
      (he : e = .promote j)

theorem exec_ageStep [NeZero N] {my : Option (Fin N)} {cpu0 ok : Bool} {m m' : Mem N υ}
    {i : Instr N υ} {k' : List (Instr N υ)} {e : Event N}
    (he : exec C cpu0 my ok m i = some (m', k', e)) (j : Fin N) :
    AgeStep e j (m.proc j) (m'.proc j) := by
  cases i <;> simp only [exec, reduceCtorEq] at he
  case agingVisit p =>
    cases he
    rw [Mem.set_proc]
    by_cases hst : (m.proc p).state = .runnable
    · by_cases hp : (m.proc p).promotes
      · have hw := of_decide_eq_true hp
        rw [if_pos hp]
        split_ifs with hj
        · subst hj
          refine .promote hst hw.2.1 hw.2.2 ?_ ?_ rfl <;> rw [Proc.age, if_pos hst, if_pos hw.2]
        · exact .same rfl rfl (by simp) (by simpa using Ne.symm hj)
      · have hw : ¬(int32 ((m.proc p).waitTime + 1) ≥ agingThreshold ∧ (m.proc p).queueLevel > 0) :=
          fun h => hp (decide_eq_true ⟨hst, h⟩)
        rw [if_neg hp, if_pos hst]
        split_ifs with hj
        · subst hj
          rw [Proc.age, if_pos hst, if_neg hw]
          exact .age hst rfl rfl (fun hl => by omega) rfl
        · exact .same rfl rfl (by simpa using Ne.symm hj) (by simp)
    · have hp : ¬(m.proc p).promotes := fun h => hst (of_decide_eq_true h).1
      rw [if_neg hp, if_neg hst]
      split_ifs with hj
      · subst hj
        refine .reset hst ?_ (by simp) (by simp)
        rw [Proc.age, if_neg hst]
      · exact .same rfl rfl (by simp) (by simp)
  case wakeupVisit chan p =>
    cases he
    rw [Mem.set_proc]
    by_cases hs : (m.proc p).sleepsOn chan
    · have hst := (of_decide_eq_true hs).1
      rw [if_pos hs, Proc.wake, if_pos hs]
      split_ifs with hj
      · subst hj
        exact .reset (by simp [hst]) rfl (by simp) (by simp)
      · exact .same rfl rfl (by simp) (by simp)
    · rw [if_neg hs, Proc.wake, if_neg hs]
      split_ifs with hj
      · exact hj ▸ .same rfl rfl (by simp) (by simp)
      · exact .same rfl rfl (by simp) (by simp)
  case charge =>
    cases my <;> simp only at he <;> (try split_ifs at he with hst) <;> cases he
    · exact .same rfl rfl (by simp) (by simp)
    · rw [Mem.set_proc]
      split_ifs with hj
      · subst hj
        exact .reset (by simp [hst]) rfl (by simp) (by simp)
      · exact .same rfl rfl (by simp) (by simp)
    · exact .same rfl rfl (by simp) (by simp)
  case allocInit p pp =>
    split_ifs at he with hst <;> cases he <;> rw [Mem.set_proc] <;> split_ifs with hj
    · subst hj
      exact .reset (by simp [hst]) rfl (by simp) (by simp)
    · exact .same rfl rfl (by simp) (by simp)
    · exact hj ▸ .same rfl rfl (by simp) (by simp)
    · exact .same rfl rfl (by simp) (by simp)
  case allocpid pp =>
    cases he
    dsimp only
    rw [Mem.set_proc]
    split_ifs with hj
    · exact hj ▸ .same rfl rfl (by simp) (by simp)
    · exact .same rfl rfl (by simp) (by simp)
  case tick =>
    cases he
    exact .same rfl rfl (by simp) (by simp)
  -- the other instructions leave the accounting alone
  all_goals
    cases my <;>
      refine .same ?_ ?_ ?_ ?_ <;> grind [Mem.set_proc, Proc.kill, Proc.free]

/-- Only the aging pass shows that it found a process waiting. -/
theorem exec_visit [NeZero N] {my : Option (Fin N)} {cpu0 ok : Bool} {m m' : Mem N υ}
    {i : Instr N υ} {k' : List (Instr N υ)} {e : Event N} {j : Fin N}
    (he : exec C cpu0 my ok m i = some (m', k', e)) (hj : e = .age j ∨ e = .promote j) :
    i = .agingVisit j := by
  cases i <;> simp only [exec, reduceCtorEq] at he
  all_goals cases my <;> grind

/-- The accounting ends a wait. -/
theorem Proc.account_waitTime {p q : Proc N υ} {prev : ℤ} {b : Bool}
    (h : p.account prev = some (q, b)) : q.waitTime = 0 := by
  unfold Proc.account at h
  obtain ⟨quantum, -, hq⟩ := Option.map_eq_some_iff.1 h
  split_ifs at hq <;> cases hq <;> rfl

section Step

variable [DecidableEq κ] [NeZero N] {boot : κ} {s s' : State κ N υ δ} {c : κ} {e : Event N}

omit [DecidableEq κ] in
/-- No instruction ends the waiting of a process that is on no CPU. -/
theorem SlotChange.waiting (hs : Safe C s) {i : Instr N υ} {k : List (Instr N υ)}
    (hctl : (s.cpu c).ctl = i :: k) (hacc : ∀ q t, i ≠ .account q t) {j : Fin N} {b : Slot N}
    (h : SlotChange (s.cpu c).proc i e j (s.mem.proc j).slot b)
    (hst : (s.mem.proc j).state = .runnable) (hj : (s.cpu c).proc ≠ some j) :
    b.state = .runnable := by
  have hslot : (s.mem.proc j).slot.state = .runnable := hst
  have hd := (hs.cpu c).disc hctl hacc
  cases h with
  | same | clearChan | setkilled | orphan | allocpid | adopt => exact hst
  | yield | wake | start => rfl
  | kill => simp [hslot]
  | sleep hi | exit hi =>
    subst hi
    exact absurd hd.1 hj
  | reap _ hz =>
    rw [hslot] at hz
    cases hz
  | alloc _ hu =>
    rw [hslot] at hu
    cases hu
  | abort hi =>
    rcases hi with ⟨-, hu⟩ | rfl
    · rw [hslot] at hu
      cases hu
    · obtain ⟨q, hq⟩ := hs.who_of_pending (p := j) hctl hacc (by simp [Instr.pending])
      have hused := hs.forks.used q _ j (.inl ⟨c, hq, hctl.symm⟩) (by simp [Instr.pending])
      rw [hst] at hused
      cases hused

/-! ## Clock ticks and passes -/

/-- The wait of `p` begins anew: it has become RUNNABLE, it runs, or it has been promoted. -/
def Renews (s s' : State κ N υ δ) (e : Event N) (p : Fin N) : Prop :=
  e = .promote p ∨ (s'.mem.proc p).state = .running ∨
    (s.mem.proc p).state ≠ .runnable ∧ (s'.mem.proc p).state = .runnable

instance (s s' : State κ N υ δ) (e : Event N) (p : Fin N) : Decidable (Renews s s' e p) :=
  inferInstanceAs (Decidable (_ ∨ _ ∨ _))

end Step

/-- What a step shows, also of time: whether it incremented `ticks`, and whose wait began anew. -/
structure Mark (κ : Type) (N : ℕ) where
  cpu : κ
  event : Event N
  tick : Bool
  renewed : Fin N → Bool

/-- The kernel, with the labels that tell the time. -/
def clocked [DecidableEq κ] [NeZero N] (boot : κ) (C : Client N υ δ) (start : δ → Prop) :
    LTS (State κ N υ δ) (Mark κ N) where
  init s := Boot C s ∧ start s.user
  step s x s' := Step boot C s (x.cpu, x.event) s' ∧ x.tick = decide (s'.mem.ticks ≠ s.mem.ticks) ∧
    ∀ p, x.renewed p = decide (Renews s s' x.event p)

/-- The increments of `ticks` since the wait of `p` last began anew. -/
def elapsed (p : Fin N) : List (Mark κ N) → ℕ
  | [] => 0
  | x :: h => if x.renewed p then 0 else elapsed p h + x.tick.toNat

/-- The aging passes that have found `p` waiting, and have not promoted it, since its wait last
began anew. -/
def passes (p : Fin N) : List (Mark κ N) → ℕ
  | [] => 0
  | x :: h => if x.renewed p then 0 else passes p h + (decide (x.event = .age p)).toNat

/-- `ticks` has been incremented since the wait of `p` began anew, and since an aging pass last
found it waiting. -/
def fresh (p : Fin N) : List (Mark κ N) → Bool
  | [] => false
  | x :: h => !x.renewed p && !decide (x.event = .age p) && (x.tick || fresh p h)

/-- Each aging pass that finds `p` waiting comes in another tick than the pass before, and than the
beginning of the wait. -/
def Paced (p : Fin N) : List (Mark κ N) → Prop
  | [] => True
  | x :: h => Paced p h ∧ (x.event = .age p ∨ x.event = .promote p → fresh p h = true)

/-- In a paced run there are no more passes than ticks. -/
theorem Paced.passes_le {p : Fin N} {h : List (Mark κ N)} (hp : Paced p h) :
    passes p h + (fresh p h).toNat ≤ elapsed p h := by
  induction h with
  | nil => simp [passes, fresh, elapsed]
  | cons x h ih =>
    obtain ⟨hrest, hx⟩ := hp
    have ih := ih hrest
    simp only [passes, elapsed, fresh]
    cases hr : x.renewed p with
    | true => simp
    | false =>
      by_cases ha : x.event = .age p
      · rw [hx (.inl ha)] at ih
        simp only [ha, decide_true, Bool.toNat_true, Bool.not_true, Bool.and_false, Bool.false_and,
          Bool.toNat_false, Bool.false_eq_true, if_false] at ih ⊢
        omega
      · simp only [ha, decide_false, Bool.toNat_false, Bool.not_false, Bool.true_and,
          Bool.false_eq_true, if_false]
        cases x.tick <;> cases hf : fresh p h <;> simp [hf] at ih ⊢ <;> omega

/-! ## The invariant -/

/-- What `wait_time` of the slot `p` is after the history `h`. -/
structure AgeOk (h : List (Mark κ N)) (s : State κ N υ δ) (p : Fin N) : Prop where
  /-- A process that waits, on no CPU, has been found waiting `wait_time` times. -/
  waiting : (∀ c, (s.cpu c).proc ≠ some p) → (s.mem.proc p).state = .runnable →
    (s.mem.proc p).waitTime = int32 (passes p h) ∧
      (0 < (s.mem.proc p).queueLevel → (passes p h : ℤ) < agingThreshold)
  /-- It is zero in a slot that does not wait. -/
  idle : (∀ c, (s.cpu c).proc ≠ some p) → (s.mem.proc p).state ≠ .runnable →
    (s.mem.proc p).waitTime = 0
  /-- No pass finds a process that is on its way out of a CPU. -/
  leaving : ∀ c, (s.cpu c).proc = some p → (s.mem.proc p).state = .runnable → passes p h = 0

theorem int32_add_one (n : ℕ) : int32 (int32 n + 1) = int32 ((n + 1 : ℕ) : ℤ) := by
  rw [int32, int32, int32, Int.bmod_add_bmod]
  norm_cast

namespace AgeOk

variable [DecidableEq κ] [NeZero N] {boot : κ} {s s' : State κ N υ δ} {x : Mark κ N}
  {h : List (Mark κ N)} {p : Fin N}

omit [DecidableEq κ] [NeZero N] in
/-- A step that leaves the slot alone, and `p` on the CPU it was on, if any. -/
theorem keep (hw : AgeOk h s p)
    (hproc : ∀ c, (s'.cpu c).proc = some p ↔ (s.cpu c).proc = some p)
    (hst : (s'.mem.proc p).state = (s.mem.proc p).state)
    (htime : (s'.mem.proc p).waitTime = (s.mem.proc p).waitTime)
    (hlevel : (s'.mem.proc p).queueLevel = (s.mem.proc p).queueLevel) (he : x.event ≠ .age p)
    (he' : x.event ≠ .promote p) (hx : x.renewed p = decide (Renews s s' x.event p)) :
    AgeOk (x :: h) s' p := by
  have hpasses : (s.mem.proc p).state = .runnable → passes p (x :: h) = passes p h := by
    intro hrun
    have hr : x.renewed p = false := by
      rw [hx, decide_eq_false_iff_not]
      rintro (hr | hr | ⟨hr, -⟩)
      · exact he' hr
      · rw [hst, hrun] at hr
        cases hr
      · exact hr hrun
    simp [passes, hr, he]
  refine ⟨fun hoff hrun => ?_, fun hoff hrun => ?_, fun c hc hrun => ?_⟩
  · rw [hst] at hrun
    rw [htime, hlevel, hpasses hrun]
    exact hw.waiting (fun c hc => hoff c ((hproc c).2 hc)) hrun
  · rw [hst] at hrun
    rw [htime]
    exact hw.idle (fun c hc => hoff c ((hproc c).2 hc)) hrun
  · rw [hst] at hrun
    rw [hpasses hrun]
    exact hw.leaving c ((hproc c).1 hc) hrun

/-- An instruction, when the process is on a CPU. -/
theorem exec_on (hs : Safe C s) (hw : AgeOk h s p) {c c' : κ} (hc' : (s.cpu c').proc = some p)
    {i : Instr N υ} {k k' : List (Instr N υ)} {ok : Bool} {m : Mem N υ}
    (hctl : (s.cpu c).ctl = i :: k)
    (he : exec C (c = boot) (s.cpu c).proc ok s.mem i = some (m, k', x.event))
    (hproc : ∀ c, (s'.cpu c).proc = (s.cpu c).proc) 
    (hx : x.renewed p = decide (Renews s s' x.event p)) : AgeOk (x :: h) s' p := by
  refine ⟨fun hoff => absurd hc' (hproc c' ▸ hoff c'), fun hoff => absurd hc' (hproc c' ▸ hoff c'),
    fun c₁ hc₁ hrun => ?_⟩
  by_cases hst : (s.mem.proc p).state = .runnable
  · have hne : x.event ≠ .age p := by
      intro hage
      obtain rfl := exec_visit he (.inl hage)
      obtain ⟨hnone, hl, -⟩ := (hs.cpu c).disc hctl (by simp)
      obtain rfl := hs.eq_of_held hl (by simp [hst]) hc'
      rw [hc'] at hnone
      cases hnone
    simp [passes, hne, hw.leaving c' hc' hst]
  · have hr : x.renewed p = true := by
      rw [hx]
      exact decide_eq_true (.inr (.inr ⟨hst, hrun⟩))
    simp [passes, hr]

/-- An instruction, when the process is on no CPU. -/
theorem exec_off (hs : Safe C s) (hw : AgeOk h s p) (hoff : ∀ c, (s.cpu c).proc ≠ some p) {c : κ}
    {i : Instr N υ} {k k' : List (Instr N υ)} {ok : Bool}
    (hctl : (s.cpu c).ctl = i :: k)
    (he : exec C (c = boot) (s.cpu c).proc ok s.mem i = some (s'.mem, k', x.event))
    (hproc : ∀ c, (s'.cpu c).proc = (s.cpu c).proc) 
    (hx : x.renewed p = decide (Renews s s' x.event p)) : AgeOk (x :: h) s' p := by
  have hrenew : Renews s s' x.event p → passes p (x :: h) = 0 := by
    intro hr
    simp [passes, hx, hr]
  by_cases hst : (s.mem.proc p).state = .runnable
  · have hacc : ∀ q t, i ≠ .account q t := by
      rintro q t rfl
      cases he
    have hst' : (s'.mem.proc p).state = .runnable :=
      SlotChange.waiting hs hctl hacc (exec_slotChange he p) hst (hoff c)
    obtain ⟨htime, hlevel⟩ := hw.waiting hoff hst
    refine ⟨fun _ _ => ?_, fun _ hrun => absurd hst' hrun,
      fun c' hc' => absurd hc' (hproc c' ▸ hoff c')⟩
    have hkeep : x.event ≠ .promote p → x.renewed p = false := by
      intro hne
      rw [hx, decide_eq_false_iff_not]
      rintro (hr | hr | ⟨hr, -⟩)
      · exact hne hr
      · rw [hst'] at hr
        cases hr
      · exact hr hst
    cases exec_ageStep he p with
    | same ht hl ha hp =>
      have hpasses : passes p (x :: h) = passes p h := by simp [passes, hkeep hp, ha]
      rw [ht, hl, hpasses]
      exact ⟨htime, hlevel⟩
    | reset hne => exact absurd hst hne
    | age _ ht hl hlt ha =>
      have hpasses : passes p (x :: h) = passes p h + 1 := by
        simp [passes, hkeep (by simp [ha]), ha]
      rw [ht, hl, hpasses, htime, int32_add_one]
      refine ⟨rfl, fun hpos => ?_⟩
      have hsmall := hlevel hpos
      have hlt' := hlt hpos
      rw [htime, int32_add_one, int32_of_mem] at hlt'
      · exact hlt'
      · omega
      · have : agingThreshold = 200 := rfl
        omega
    | promote _ _ _ ht _ hp =>
      rw [hrenew (.inl hp), ht]
      exact ⟨rfl, fun _ => by decide⟩
  · have hzero := hw.idle hoff hst
    have hzero' : (s'.mem.proc p).waitTime = 0 := by
      cases exec_ageStep he p with
      | same ht => rw [ht, hzero]
      | reset _ ht => exact ht
      | age hrun => exact absurd hrun hst
      | promote hrun => exact absurd hrun hst
    refine ⟨fun _ hrun => ?_, fun _ _ => hzero', fun c' hc' => absurd hc' (hproc c' ▸ hoff c')⟩
    rw [hrenew (.inr (.inr ⟨hst, hrun⟩)), hzero']
    exact ⟨rfl, fun _ => by decide⟩

omit [DecidableEq κ] [NeZero N] in
/-- The accounting for `p`. -/
theorem account (hs : Safe C s) (hw : AgeOk h s p) {c : κ} (hc : (s.cpu c).proc = some p)
    (hother : ∀ c', c' ≠ c → (s'.cpu c').proc = (s.cpu c').proc) (hnone : (s'.cpu c).proc = none)
    (hst : (s'.mem.proc p).state = (s.mem.proc p).state) (htime : (s'.mem.proc p).waitTime = 0)
    (he : x.event ≠ .age p) : AgeOk (x :: h) s' p := by
  refine ⟨fun _ hrun => ?_, fun _ _ => htime, fun c' hc' => ?_⟩
  · rw [hst] at hrun
    have hpasses : passes p (x :: h) = 0 := by
      simp [passes, he, hw.leaving c hc hrun]
    rw [hpasses, htime]
    exact ⟨rfl, fun _ => by decide⟩
  · have hne : c' ≠ c := by
      rintro rfl
      rw [hnone] at hc'
      cases hc'
    rw [hother c' hne] at hc'
    exact absurd (hs.unique c' c p hc' hc) hne

theorem step (hs : Safe C s) (hw : AgeOk h s p) {c : κ} {e : Event N} (hmark : x.event = e)
    (t : Step boot C s (c, e) s') (hx : x.renewed p = decide (Renews s s' x.event p)) :
    AgeOk (x :: h) s' p := by
  cases t with
  | acquire | release | user | clock | device =>
    refine hw.keep (fun c' => ?_) rfl rfl rfl (by simp [hmark]) (by simp [hmark]) hx
    simp only [State.setHolder, State.setCtl, State.setUser, State.setCpu, Function.update_apply]
    split_ifs with hc
    · rw [hc]
    · rfl
  | @exec _ i k ok m k' _ hctl he =>
    have hproc : ∀ c', (((s.setCtl c (k' ++ k)).setMem m).cpu c').proc = (s.cpu c').proc := by
      intro c'
      simp only [State.setMem, State.setCtl, State.setCpu, Function.update_apply]
      split_ifs with hc
      · rw [hc]
      · rfl
    subst hmark
    by_cases hon : ∃ c', (s.cpu c').proc = some p
    · obtain ⟨c', hc'⟩ := hon
      exact hw.exec_on hs hc' hctl he hproc hx
    · exact hw.exec_off hs (not_exists.1 hon) hctl he hproc hx
  | @dispatch _ level q k hctl hel =>
    by_cases hq : p = q
    · subst hq
      refine ⟨fun hoff => absurd ?_ (hoff c), fun hoff => absurd ?_ (hoff c), fun _ _ hrun => ?_⟩
      · simp
      · simp
      · simp [Proc.run] at hrun
    · have hnone : (s.cpu c).proc = none := ((hs.cpu c).disc hctl (by simp)).1
      refine hw.keep (fun c' => ?_) ?_ ?_ ?_ (by simp [hmark]) (by simp [hmark]) hx
      · by_cases hc : c' = c
        · subst hc
          simp [hnone, Ne.symm hq]
        · rw [State.setMem_cpu, State.setCpu_of_ne s hc]
      all_goals rw [State.setMem_mem, Mem.set_proc, if_neg hq]
  | @account _ q prev q' b k hctl hacc =>
    have hproc := (hs.cpu c).proc_of_account hctl
    have hev : ∀ e', e' = .age p ∨ e' = .promote p → x.event ≠ e' := by
      rintro e' he' rfl
      cases b <;> rw [hmark] at he' <;> rcases he' with he' | he' <;> cases he'
    by_cases hq : p = q
    · subst hq
      refine hw.account hs hproc (fun c' hc => ?_) ?_ ?_ ?_ (hev _ (.inl rfl))
      · rw [State.setMem_cpu, State.setCpu_of_ne s hc]
      · rw [State.setMem_cpu, State.setCpu_self]
      · rw [State.setMem_mem, Mem.set_proc, if_pos rfl, (Proc.account_eq_some hacc).1]
      · rw [State.setMem_mem, Mem.set_proc, if_pos rfl, Proc.account_waitTime hacc]
    · refine hw.keep (fun c' => ?_) ?_ ?_ ?_ (hev _ (.inl rfl)) (hev _ (.inr rfl)) hx
      · by_cases hc : c' = c
        · subst hc
          simp [hproc, Ne.symm hq]
        · rw [State.setMem_cpu, State.setCpu_of_ne s hc]
      all_goals rw [State.setMem_mem, Mem.set_proc, if_neg hq]
  | @sched _ q k hctl _ _ =>
    have hmem : ∀ {α : Type} (f : Proc N υ → α),
        (∀ r : Proc N υ, f { r with context := k } = f r) →
        f ((s.mem.set q { s.mem.proc q with context := k }).proc p) = f (s.mem.proc p) := by
      intro α f hf
      rw [Mem.set_proc]
      split_ifs with hq
      · rw [hf, hq]
      · rfl
    refine hw.keep (fun c' => ?_) (hmem _ fun _ => rfl) (hmem _ fun _ => rfl) (hmem _ fun _ => rfl)
      (by simp [hmark]) (by simp [hmark]) hx
    by_cases hc : c' = c
    · subst hc
      rw [State.setMem_cpu, State.setCpu_self]
    · rw [State.setMem_cpu, State.setCpu_of_ne s hc]

end AgeOk

theorem Boot.ageOk [NeZero N] {s : State κ N υ δ} (hb : Boot C s) (p : Fin N) :
    AgeOk [] s p := by
  have hslot : (s.mem.proc p).waitTime = 0 := by
    by_cases hp : p = 0
    · subst hp
      rw [hb.initproc]
      rfl
    · rw [hb.unused p hp]
      rfl
  refine ⟨fun _ _ => ?_, fun _ _ => hslot, fun _ _ _ => rfl⟩
  rw [hslot, passes]
  exact ⟨rfl, fun _ => by decide⟩

/-! ## When a process is promoted -/

section Run

variable [DecidableEq κ] [NeZero N] {boot : κ} {start : δ → Prop} {s : State κ N υ δ}
  {h : List (Mark κ N)}

/-- The states of the kernel with a clock are those of the kernel. -/
theorem reachable_of_clocked (r : (clocked boot C start).Run h s) :
    (kernel boot C start).Reachable s := by
  induction r with
  | init hs => exact ⟨[], .init hs⟩
  | step _ t ih => exact ih.step t.1

/-- What a promotion finds. -/
theorem Step.promote {s' : State κ N υ δ} {c : κ} {p : Fin N} (hs : Safe C s)
    (t : Step boot C s (c, .promote p) s') :
    (s.mem.proc p).state = .runnable ∧ 0 < (s.mem.proc p).queueLevel ∧
      agingThreshold ≤ int32 ((s.mem.proc p).waitTime + 1) ∧ ∀ c', (s.cpu c').proc ≠ some p := by
  generalize he : Event.promote p = e at t
  cases t with
  | acquire | release | user | dispatch | sched | clock | device => cases he
  | @account _ _ _ _ b => cases b <;> cases he
  | @exec _ i k ok m k' _ hctl hexec =>
    subst he
    obtain rfl := exec_visit hexec (.inr rfl)
    obtain ⟨-, hl, -⟩ := (hs.cpu c).disc hctl (by simp)
    cases exec_ageStep hexec p with
    | same _ _ _ hne | reset _ _ _ hne => exact absurd rfl hne
    | age _ _ _ _ he => cases he
    | promote hst htime hlevel =>
      exact ⟨hst, hlevel, htime, fun c' => hs.proc_ne_of_held hctl (by simp) (by simp) (by simp) hl
        (by simp [hst])⟩

/-- The invariant holds after every run. -/
theorem ageOk_of_run (hC : C.Disciplined) (r : (clocked boot C start).Run h s) (p : Fin N) :
    AgeOk h s p := by
  refine r.invariant (I := fun h s => AgeOk h s p) (fun s hs => ?_) (fun h s x s' r hw t => ?_)
  · exact hs.1.ageOk p
  · exact hw.step (safe_of_reachable hC (reachable_of_clocked r)) rfl t.1 (t.2.2 p)

/-- **A process is promoted by the `AGING_THRESHOLD`-th pass that finds it waiting** since it last
became RUNNABLE, ran, or was promoted. -/
theorem promoted_at_threshold (hC : C.Disciplined) {x : Mark κ N} {p : Fin N}
    (r : (clocked boot C start).Run (x :: h) s) (hx : x.event = .promote p) :
    (passes p h : ℤ) + 1 = agingThreshold := by
  cases r with
  | @step _ s _ _ r t =>
    have hs := safe_of_reachable hC (reachable_of_clocked r)
    obtain ⟨hst, hlevel, htime, hoff⟩ := Step.promote hs (hx ▸ t.1)
    obtain ⟨hcount, hlt⟩ := (ageOk_of_run hC r p).waiting hoff hst
    have hsmall := hlt hlevel
    have h200 : agingThreshold = 200 := rfl
    rw [hcount, int32_add_one, int32_of_mem] at htime <;> omega

/-- **Aging is measured in ticks, if the passes are.** In a run in which each aging pass that finds
`p` waiting comes in another tick than the pass before it, and than the beginning of the wait,
`ticks` has been incremented `AGING_THRESHOLD` times since `p` last became RUNNABLE, ran, or was
promoted, when `p` is promoted. -/
theorem promoted_after_threshold (hC : C.Disciplined) {x : Mark κ N} {p : Fin N}
    (r : (clocked boot C start).Run (x :: h) s) (hx : x.event = .promote p)
    (hp : Paced p (x :: h)) : agingThreshold ≤ elapsed p h := by
  have hpasses := promoted_at_threshold hC r hx
  have hle := hp.1.passes_le
  rw [hp.2 (.inr hx), Bool.toNat_true] at hle
  omega

omit [DecidableEq κ] [NeZero N] in
theorem elapsed_le_length (p : Fin N) (h : List (Mark κ N)) : elapsed p h ≤ h.length := by
  induction h with
  | nil => exact le_rfl
  | cons x h ih =>
    have htick := Bool.toNat_le x.tick
    simp only [elapsed, List.length_cons]
    split_ifs <;> omega

/-- A step of the kernel with the clock. -/
theorem Step.clocked {s' : State κ N υ δ} {x : κ × Event N} (t : Step boot C s x s') :
    ∃ y : Mark κ N, (clocked boot C start).step s y s' ∧ y.event = x.2 := by
  refine ⟨⟨x.1, x.2, decide (s'.mem.ticks ≠ s.mem.ticks), fun p => decide (Renews s s' x.2 p)⟩, ?_,
    rfl⟩
  exact ⟨t, rfl, fun _ => rfl⟩

/-- A run of the kernel with the clock. -/
theorem exists_clocked {g : List (κ × Event N)} (r : (kernel boot C start).Run g s) :
    ∃ h, (clocked boot C start).Run h s ∧ h.length = g.length := by
  induction r with
  | init hs => exact ⟨[], .init hs, rfl⟩
  | step _ t ih =>
    obtain ⟨h, r, hlen⟩ := ih
    obtain ⟨y, hy, -⟩ := Step.clocked t
    exact ⟨y :: h, r.step hy, by simp [hlen]⟩

/-- Steps of a CPU that is not the boot CPU take no time. -/
theorem Leads.clocked {c : κ} {A V : Set (Fin N)} {s' : State κ N υ δ}
    (hpath : Leads boot C c A V s s') (r : (clocked boot C start).Run h s) (p : Fin N) :
    ∃ h', (clocked boot C start).Run h' s' ∧ elapsed p h' ≤ elapsed p h := by
  induction hpath with
  | refl => exact ⟨h, r, le_rfl⟩
  | tail _ t ih =>
    obtain ⟨h', r', hle⟩ := ih
    obtain ⟨x, t, halone⟩ := t
    obtain ⟨y, hy, -⟩ := Step.clocked t
    refine ⟨y :: h', r'.step hy, ?_⟩
    have htick : y.tick = false := by
      rw [hy.2.1, halone.ticks]
      simp
    simp only [elapsed, htick]
    split_ifs <;> simp [hle]

end Run

/-- The process in slot 1 waits while the one in slot 0 takes its turns on CPU 1, until it is
promoted; CPU 0 has hardly run in this time. -/
theorem exists_promoted :
    ∃ x h s, (clocked (0 : Fin 8) (sysproc (N := NPROC)) fun _ => True).Run (x :: h) s ∧
      x.event = .promote 1 ∧ elapsed 1 h < 200 := by
  obtain ⟨g, s, s₁, s₂, r, hlen, hpath, t⟩ := exists_starved
  obtain ⟨h, r, hlen'⟩ := exists_clocked r
  obtain ⟨h', r', hle⟩ := hpath.clocked r 1
  obtain ⟨x, hx, hevent⟩ := Step.clocked t
  have hshort := elapsed_le_length 1 h
  exact ⟨x, h', s₂, r'.step hx, hevent, by omega⟩

/-- It has been promoted too early. -/
theorem promoted_before_threshold :
    ¬∀ (x : Mark (Fin 8) NPROC) h s p,
      (clocked (0 : Fin 8) (sysproc (N := NPROC)) fun _ => True).Run (x :: h) s →
        x.event = .promote p → agingThreshold ≤ elapsed p h := by
  intro hall
  obtain ⟨x, h, s, r, hx, hlt⟩ := exists_promoted
  have hle := hall x h s 1 r hx
  have h200 : agingThreshold = 200 := rfl
  omega

/-! ## A paced run -/

section Paced

variable [DecidableEq κ] [NeZero N] {boot c : κ} {start : δ → Prop} {s s' : State κ N υ δ}
  {p : Fin N} {fr : Bool}

/-- A paced run leads to `s`; if `fr`, the next pass may find `p`. -/
def PacedTo (boot : κ) (C : Client N υ δ) (start : δ → Prop) (p : Fin N) (fr : Bool)
    (s : State κ N υ δ) : Prop :=
  ∃ h, (clocked boot C start).Run h s ∧ Paced p h ∧ (fr = true → fresh p h = true)

/-- A step that is no visit to `p`. -/
theorem PacedTo.step {x : κ × Event N} (h : PacedTo boot C start p fr s) (t : Step boot C s x s')
    (hx : x.2 ≠ .age p ∧ x.2 ≠ .promote p) : PacedTo boot C start p false s' := by
  obtain ⟨h, r, hp, -⟩ := h
  obtain ⟨y, hy, hevent⟩ := Step.clocked t
  refine ⟨y :: h, r.step hy, ⟨hp, fun hvisit => ?_⟩, by simp⟩
  rw [hevent] at hvisit
  exact (hvisit.elim hx.1 hx.2).elim

/-- A step through which `p` waits: it keeps `fresh`, and a clock tick sets it. -/
theorem PacedTo.wait {x : κ × Event N} (h : PacedTo boot C start p fr s) (t : Step boot C s x s')
    (hx : x.2 ≠ .age p ∧ x.2 ≠ .promote p) (hst : (s.mem.proc p).state = .runnable)
    (hst' : (s'.mem.proc p).state = .runnable) :
    PacedTo boot C start p (decide (s'.mem.ticks ≠ s.mem.ticks) || fr) s' := by
  obtain ⟨h, r, hp, hfresh⟩ := h
  obtain ⟨y, hy, hevent⟩ := Step.clocked t
  have hrenewed : y.renewed p = false := by
    rw [hy.2.2 p, decide_eq_false_iff_not, hevent]
    rintro (hr | hr | ⟨hr, -⟩)
    · exact hx.2 hr
    · rw [hst'] at hr
      cases hr
    · exact hr hst
  refine ⟨y :: h, r.step hy, ⟨hp, fun hvisit => ?_⟩, fun htick => ?_⟩
  · rw [hevent] at hvisit
    exact (hvisit.elim hx.1 hx.2).elim
  · rw [Bool.or_eq_true] at htick
    have htick' : y.tick = true ∨ fresh p h = true := by
      rw [hy.2.1]
      exact htick.imp id hfresh
    simpa [fresh, hrenewed, hevent, hx.1] using htick'

/-- A visit. -/
theorem PacedTo.visit {x : κ × Event N} (h : PacedTo boot C start p true s)
    (t : Step boot C s x s') : PacedTo boot C start p false s' := by
  obtain ⟨h, r, hp, hfresh⟩ := h
  obtain ⟨y, hy, -⟩ := Step.clocked t
  exact ⟨y :: h, r.step hy, ⟨hp, fun _ => hfresh rfl⟩, by simp⟩

/-- A path without a visit to `p`. -/
theorem PacedTo.leads {A V : Set (Fin N)} (h : PacedTo boot C start p false s)
    (hpath : Leads boot C c A V s s') (hV : p ∉ V) : PacedTo boot C start p false s' := by
  induction hpath with
  | refl => exact h
  | tail _ t ih =>
    obtain ⟨x, t, halone⟩ := t
    exact ih.step t (halone.visit p hV)

/-- A path on which `p` waits. -/
theorem PacedTo.waits {A V : Set (Fin N)} (h : PacedTo boot C start p fr s)
    (hpath : Leads boot C c A V s s') (hA : p ∉ A) (hV : p ∉ V)
    (hst : (s.mem.proc p).state = .runnable) :
    PacedTo boot C start p fr s' ∧ (s'.mem.proc p).state = .runnable := by
  induction hpath with
  | refl => exact ⟨h, hst⟩
  | tail _ t ih =>
    obtain ⟨x, t, halone⟩ := t
    have hst' := (halone.state p hA).trans ih.2
    have hkeep := ih.1.wait t (halone.visit p hV) ih.2 hst'
    rw [halone.ticks] at hkeep
    exact ⟨by simpa using hkeep, hst'⟩

/-- A clock tick while `p` waits. -/
theorem PacedTo.tick {who : Option (Fin N)} {k context : List (Instr N υ)}
    (h : PacedTo boot C start p fr s) (hcpu : s.cpu boot = ⟨who, k, none, context⟩)
    (hfree : ∀ l, s.holder l = none) (hsleep : ∀ j, (s.mem.proc j).sleepsOn .ticks = false)
    (hk : .trapRet ∉ k) (huser : inUser C k = false) (hst : (s.mem.proc p).state = .runnable) :
    PacedTo boot C start p true (s.setMem { s.mem with ticks := s.mem.ticks + 1 }) := by
  obtain ⟨s₁, s₂, l₁, t, hm₁, hm₂, l₂⟩ := exists_tick (C := C) hcpu hfree hsleep hk huser
  obtain ⟨h₁, hst₁⟩ := h.waits l₁ (Set.notMem_empty p) (Set.notMem_empty p) hst
  have hst₂ : (s₂.mem.proc p).state = .runnable := by
    rw [hm₂]
    exact hst
  have hne : s₂.mem.ticks ≠ s₁.mem.ticks := by
    rw [hm₁, hm₂]
    simp
  have h₂ := h₁.wait t (by simp) hst₁ hst₂
  rw [decide_eq_true hne, Bool.true_or] at h₂
  exact (h₂.waits l₂ (Set.notMem_empty p) (Set.notMem_empty p) hst₂).1

variable {m : Mem N υ} {context boots : List (Instr N υ)}

/-- The aging pass of the CPU `c` comes to the slot `p`, which waits, after a clock tick of the boot
CPU, which is idle. -/
theorem PacedTo.toVisit (hc : c ≠ boot) (hfree : ∀ l, s.holder l = none)
    (hboot : s.cpu boot = ⟨none, [.scan 0 0], none, boots⟩)
    (hsleep : ∀ j, (m.proc j).sleepsOn .ticks = false) (hst : (m.proc p).state = .runnable)
    (h : PacedTo boot C start p fr (s.on c ⟨none, [.aging 0], none, context⟩ m)) :
    PacedTo boot C start p true ((s.lock c (.proc p)).on c
      ⟨none, [.agingVisit p, .release (.proc p), .aging (p + 1)], none, context⟩
      (({ m with ticks := m.ticks + 1 } : Mem N υ).aged 0 p)) := by
  have htick := h.tick ((s.on_cpu_of_ne hc.symm _ m).trans hboot) hfree hsleep (by simp) rfl hst
  have hpath : Leads boot C c ∅ {j | j < p}
      (s.on c ⟨none, [.aging 0], none, context⟩ { m with ticks := m.ticks + 1 }) _ :=
    Leads.toVisit hfree p (fun _ hj => hj) .refl
  exact (htick.waits hpath (Set.notMem_empty p) (by simp) hst).1

/-- The aging pass of the CPU `c`, after a clock tick of the boot CPU. -/
theorem PacedTo.aging (hc : c ≠ boot) (hfree : ∀ l, s.holder l = none)
    (hboot : s.cpu boot = ⟨none, [.scan 0 0], none, boots⟩)
    (hsleep : ∀ j, (m.proc j).sleepsOn .ticks = false) (hst : (m.proc p).state = .runnable)
    (h : PacedTo boot C start p fr (s.on c ⟨none, [.aging 0], none, context⟩ m)) :
    PacedTo boot C start p false (s.on c ⟨none, [.scan 0 0], none, context⟩
      (({ m with ticks := m.ticks + 1 } : Mem N υ).aged 0 N)) := by
  set m₁ : Mem N υ := { m with ticks := m.ticks + 1 }
  have hvisit := h.toVisit hc hfree hboot hsleep hst
  have hctl : (((s.lock c (.proc p)).on c
      ⟨none, [.agingVisit p, .release (.proc p), .aging (p + 1)], none, context⟩
      (m₁.aged 0 p)).cpu c).ctl = [.agingVisit p, .release (.proc p), .aging (p + 1)] := by
    rw [State.on_cpu_self]
  have t : Step boot C _ _ _ := Step.exec hctl (show exec C _ _ true _ _ = _ from rfl)
  rw [State.on_setCtl] at t
  have hrest : Leads boot C c ∅ {j | p < j} ((s.lock c (.proc p)).on c
      ⟨none, [.release (.proc p), .aging (p + 1)], none, context⟩
      ((m₁.aged 0 p).set p ((m₁.aged 0 p).proc p).age)) _ :=
    Leads.release (hfree _) (Leads.agingEnd hfree p.isLt (fun j hj => hj) .refl)
  rw [Mem.aged_succ _ p.isLt p.isLt, Mem.aged_aged _ p.val.zero_le p.isLt.le] at hrest
  exact (hvisit.visit t).leads hrest (by simp)

omit [DecidableEq κ] [NeZero N] in
/-- No process sleeps on `ticks` while two wait and there are no others. -/
theorem Mem.Pair.not_sleepsOn {u : υ} {a b : Fin N} {la lb : ℕ} {ta wa tb wb : ℤ}
    (h : m.Pair u a b la ta wa lb tb wb) (j : Fin N) (chan : Chan N) :
    (m.proc j).sleepsOn chan = false := by
  refine decide_eq_false fun hj => ?_
  by_cases hja : j = a
  · rw [hja, h.left.state] at hj
    cases hj.1
  · by_cases hjb : j = b
    · rw [hjb, h.right.state] at hj
      cases hj.1
    · rw [h.rest j hja hjb] at hj
      cases hj.1

/-- **Rounds with clock ticks.** Between the turn and the aging pass of each round, the boot CPU
takes a clock interrupt. -/
theorem PacedTo.rounds {u : υ} (hc : c ≠ boot) (hfree : ∀ l, s.holder l = none)
    (hu : C.inUser u = true) (hboot : s.cpu boot = ⟨none, [.scan 0 0], none, boots⟩) (p : Fin N) :
    Rounds (PacedTo boot C start p false) s c u p := by
  intro s₁ m a b la ta wa lb tb wb quantum hs₁ hidle h hab hp hquantum ht₀ ht₁ hl hw₀ hw₁
  obtain ⟨context, q, hturn, hwaits⟩ := h.turn hc hfree hu hidle hquantum ht₀ ht₁ hl
  have hpair := Mem.Pair.set h.right h.rest hab hwaits
  have hst : ((m.set a q).proc p).state = .runnable := by
    rcases hp with rfl | rfl
    · exact hpair.left.state
    · exact hpair.right.state
  have haging := (hs₁.leads hturn (Set.notMem_empty p)).aging hc hfree hboot
    (fun j => hpair.not_sleepsOn j _) hst
  have hticks : ({ m.set a q with ticks := (m.set a q).ticks + 1 } : Mem N υ).Pair u a b
      (charge la ta quantum).1 (charge la ta quantum).2 0 lb tb wb :=
    ⟨hpair.left, hpair.right, hpair.rest⟩
  exact ⟨_, _, haging, ⟨_, rfl⟩, hticks.aged le_rfl (by decide) hw₀ hw₁⟩

end Paced

/-- Both processes use up their quanta, and the one in slot 1 waits, with a clock tick of CPU 0
before each aging pass of CPU 1, until it is promoted. -/
theorem exists_paced :
    ∃ x h s, (clocked (0 : Fin 8) (sysproc (N := NPROC)) fun _ => True).Run (x :: h) s ∧
      x.event = .promote 1 ∧ Paced 1 (x :: h) := by
  obtain ⟨g, s, r, -, hno, hforked⟩ := exists_forked
  have hs := safe_of_reachable sysproc_disciplined ⟨g, r⟩
  have hfree := hforked.free hs
  have hc : (1 : Fin 8) ≠ 0 := by decide
  obtain ⟨boots, hboot⟩ := hforked.cpu_ne (c := 0) (by decide)
  have hpaced : PacedTo (0 : Fin 8) sysproc (fun _ => True) 1 false s := by
    clear hforked hs hfree hboot
    induction r with
    | init hs => exact ⟨[], .init hs, trivial, by simp⟩
    | @step g s x s' _ t ih =>
      exact (ih fun y hy => hno y (.tail _ hy)).step t (hno x (.head _))
  obtain ⟨context, q, hturn, hwaits⟩ := hforked.turn hs
  have hpair := Mem.Pair.set hforked.waits_one hforked.rest (by decide) hwaits
  have hfirst := (hpaced.leads hturn (Set.notMem_empty 1)).aging hc hfree hboot
    (fun j => hpair.not_sleepsOn j _) hpair.right.state
  have hticks : ({ s.mem.set 0 q with ticks := (s.mem.set 0 q).ticks + 1 } : Mem _ _).Pair .user 0 1
      1 0 0 0 0 0 := ⟨hpair.left, hpair.right, hpair.rest⟩
  obtain ⟨s₁, m, t, w, hs₁, hidle, ht₀, ht₁, hlast⟩ :=
    (PacedTo.rounds (u := SysPoint.user) hc hfree rfl hboot 1).starve hfirst ⟨_, rfl⟩
      (hticks.aged le_rfl (by decide) le_rfl (by decide)) (by decide) (.inr rfl)
  obtain ⟨context', q', hturn', hwaits'⟩ := hlast.turn (C := sysproc) hc hfree rfl hidle
    (show mlfqQuantum (2 : ℕ) = some 4 from rfl) ht₀ ht₁ (.inr (by decide))
  have hpair' := Mem.Pair.set hlast.right hlast.rest (by decide) hwaits'
  obtain ⟨h, r, hp, hfresh⟩ := (hs₁.leads hturn' (Set.notMem_empty 1)).toVisit hc hfree hboot
    (fun j => hpair'.not_sleepsOn j _) hpair'.right.state
  have hpromotes : ((({ m.set 0 q' with ticks := (m.set 0 q').ticks + 1 } : Mem _ _).aged 0
      (1 : Fin NPROC)).proc 1).promotes = true := hlast.promotes (by decide) (by decide) rfl q'
  obtain ⟨s₂, t⟩ := exists_promote (0 : Fin 8) 1 sysproc (s.lock 1 (.proc 1)) none none context' _
    hpromotes
  obtain ⟨y, hy, hevent⟩ := Step.clocked t
  exact ⟨y, h, s₂, r.step hy, hevent, hp, fun _ => hfresh rfl⟩

/-- It has waited for 200 ticks. -/
theorem promoted_after_threshold_paced :
    ∃ (x : Mark (Fin 8) NPROC) (h : List (Mark (Fin 8) NPROC)), x.event = .promote 1 ∧
      Paced 1 (x :: h) ∧ agingThreshold ≤ elapsed 1 h := by
  obtain ⟨x, h, s, r, hx, hp⟩ := exists_paced
  exact ⟨x, h, hx, hp, promoted_after_threshold sysproc_disciplined r hx hp⟩

end Xv6.Kernel
