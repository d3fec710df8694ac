import Xv6.Kernel.Kwait
import Xv6.Kernel.Simulate
import Xv6.Kernel.Wait

/-!
# Creation, exit and reaping

`process_family` puts together what holds of the processes in every run of the kernel with any
disciplined client: the pids of the slots in use are different, every process but the first has a
living parent, and what an exited process leaves is returned by one `kwait` of that parent. The
interpretation of a run's history (`fate`, `waiting`) is in `Xv6.Kernel.Wait`.
-/

namespace Xv6.Kernel

variable {κ : Type} {N : ℕ} {υ δ : Type} {C : Client N υ δ}

/-- The slot has been made RUNNABLE and has not been freed since. -/
def ProcState.Made : ProcState → Prop
  | .unused | .used => False
  | .sleeping | .runnable | .running | .zombie => True

/-! ## The steps of `kwait` that give a result -/

theorem Kwaits.child_of_visit {p q j : Fin N} {b : KwaitPhase N} {k : List (Instr N υ)}
    (h : Kwaits p b (.kwaitVisit q j :: k)) : b = .child j ∧ q = p := by
  generalize hk : Instr.kwaitVisit q j :: k = k₀ at h
  cases h with
  | away h =>
    subst hk
    exact absurd trivial (h (.kwaitVisit q j) (by simp))
  | @entering pre k₁ hpre h =>
    cases pre with
    | nil => cases hk
    | cons i pre =>
      cases hk
      exact (hpre (.kwaitVisit q j) (by simp)).elim
  | child =>
    cases hk
    exact ⟨rfl, rfl⟩
  | scanning | unlocking | locking | testing | test | tested | calling | called | going | lying
  | leaving | asleep => cases hk

/-- `kwait` returns -1 without a change of the table. -/
theorem exec_waitFailed [NeZero N] {my : Option (Fin N)} {cpu0 ok : Bool} {m m' : Mem N υ}
    {i : Instr N υ} {k' : List (Instr N υ)} {p : Fin N}
    (he : exec C cpu0 my ok m i = some (m', k', .waitFailed p)) : m' = m := by
  by_cases hi : i.Plain
  · exact absurd rfl ((exec_plain hi he).2 p)
  · cases i <;> simp only [exec, reduceCtorEq] at he
    case killed | usertrap | kwait => simp at he
    case killedRead | trapKilled => cases he
    case kexit =>
      obtain ⟨r, -, he⟩ := Option.bind_eq_some_iff.1 he
      split_ifs at he
      cases he
    case kwaitScan | kwaitVisit | kwaitKilled =>
      split_ifs at he <;> cases he
      rfl
    all_goals exact absurd trivial hi

section Step

variable [DecidableEq κ] [NeZero N] {boot : κ} {s s' : State κ N υ δ} {c : κ} {e : Event N}

theorem Step.of_waitFailed {p : Fin N} (t : Step boot C s (c, .waitFailed p) s') :
    s'.mem = s.mem := by
  generalize he : Event.waitFailed p = e at t
  cases t with
  | acquire | release | user | clock | device => rfl
  | dispatch | sched => cases he
  | @account _ _ _ _ b => cases b <;> cases he
  | exec _ hexec =>
    subst he
    exact exec_waitFailed hexec

/-- The child that `kwait` frees is a zombie, and its pid and status are returned. -/
theorem Step.of_reap (hs : Safe C s) {p j : Fin N} {pid xstate : ℤ}
    (t : Step boot C s (c, .reap p j pid xstate) s') :
    (∃ k, (s.cpu c).ctl = .kwaitVisit p j :: k) ∧ (s.cpu c).who = some p ∧
      (s.mem.proc j).state = .zombie ∧ pid = (s.mem.proc j).pid ∧
      xstate = (s.mem.proc j).xstate := by
  have hwho := (t.waits hs (q := p) rfl).1
  have h := t.slot hs j
  generalize (s'.mem.proc j).slot = b at h
  cases h with
  | same he => exact absurd rfl he
  | run _ _ he => exact absurd rfl he
  | @exec i k _ hctl hd _ h =>
    cases h with
    | same he => exact absurd rfl he
    | reap hi hst he =>
      cases he
      exact ⟨⟨k, hi ▸ hctl⟩, hwho, hst, rfl, rfl⟩
    | yield _ he | sleep _ he | clearChan _ he | wake _ _ _ he | kill _ _ he | setkilled _ he
    | orphan _ _ he | exit _ he | allocpid _ he | alloc _ _ he | abort _ he | adopt _ he
    | start _ he => cases he

/-- Only `kwait` frees a process. -/
theorem Step.freed (hs : Safe C s) (t : Step boot C s (c, e) s') {j : Fin N}
    (hj : (s.mem.proc j).state.Made) (hj' : (s'.mem.proc j).state = .unused) :
    ∃ p pid xstate, e = .reap p j pid xstate := by
  have h := t.slot hs j
  have hb : (s'.mem.proc j).slot.state = .unused := hj'
  have hne : (s.mem.proc j).state ≠ .unused := by
    intro hst
    rw [hst] at hj
    exact hj
  generalize (s'.mem.proc j).slot = b at h hb
  cases h with
  | same => exact absurd hb hne
  | run => cases hb
  | @exec i k _ hctl _ _ h =>
    cases h with
    | same | clearChan | setkilled | orphan | allocpid | adopt => exact absurd hb hne
    | yield | sleep | wake | exit | alloc | start => cases hb
    | kill =>
      have hst : (if (s.mem.proc j).state = .sleeping then ProcState.runnable
        else (s.mem.proc j).state) = .unused := hb
      split_ifs at hst
      exact absurd hst hne
    | reap _ _ he => exact ⟨_, _, _, he⟩
    | abort hi =>
      exfalso
      rcases hi with ⟨-, hst⟩ | rfl
      · exact hne hst
      · obtain ⟨q, hq⟩ := hs.who_of_pending (p := j) hctl (by simp) (by simp [Instr.pending])
        have hused := hs.forks.used q _ j (.inl ⟨c, hq, hctl.symm⟩) (by simp [Instr.pending])
        rw [hused] at hj
        exact hj

end Step

/-! ## The family -/

variable [DecidableEq κ] [NeZero N] {boot : κ} {start : δ → Prop} {h : List (κ × Event N)}
  {s : State κ N υ δ}

variable (C boot) in
/-- What holds of the processes in the state `s` after the history `h`, and in the steps from it. -/
structure Family (h : List (κ × Event N)) (s : State κ N υ δ) : Prop where
  /-- Two slots in use have different pids. -/
  pid : ∀ i j, i ≠ j → (s.mem.proc i).state ≠ .unused → (s.mem.proc j).state ≠ .unused →
    (s.mem.proc i).pid ≠ (s.mem.proc j).pid
  /-- Every process but the first has a parent, which has not exited. -/
  parent : s.holder .waitLock = none → ∀ j, j ≠ 0 → (s.mem.proc j).state.Made →
    ∃ p, (s.mem.proc j).parent = some p ∧ (s.mem.proc p).state ≠ .unused ∧
      (s.mem.proc p).state ≠ .zombie
  /-- A `kwait` returns a process that has exited and has not been returned since, with the pid and
  the status it exited with, to its parent. -/
  reap : ∀ c p j pid xstate s', Step boot C s (c, .reap p j pid xstate) s' →
    (s.cpu c).who = some p ∧ waiting h p = true ∧ (s.mem.proc j).parent = some p ∧
      fate h j = some (pid, xstate)
  /-- A `kwait` that returns -1 leaves the table alone. -/
  failed : ∀ c p s', Step boot C s (c, .waitFailed p) s' →
    (s.cpu c).who = some p ∧ waiting h p = true ∧ s'.mem = s.mem
  /-- A process is freed by a `kwait` that returns it. -/
  freed : ∀ c e s' j, Step boot C s (c, e) s' → (s.mem.proc j).state.Made →
    (s'.mem.proc j).state = .unused → ∃ p pid xstate, e = .reap p j pid xstate

/-- **The family of processes**, after every run with fewer than `2 ^ 31 - 1` calls of
`allocpid`. -/
theorem process_family (hC : C.Disciplined) (r : (kernel boot C start).Run h s)
    (hn : (allocpids h : ℤ) < 2 ^ 31 - 1) : Family C boot h s := by
  have hreach : (kernel boot C start).Reachable s := ⟨h, r⟩
  have hs := safe_of_reachable hC hreach
  have hpids := pidOk_of_run hC r hn
  have hpar := parentOk_of_reachable hC hreach
  have hwait := waitOk_of_run hC r
  -- a result comes from inside of `kwait`
  have hresult : ∀ {c p e s'}, Step boot C s (c, e) s' → e.Waits p → e ≠ .wait p →
      (s.cpu c).who = some p ∧ waiting h p = true := by
    intro c p e s' t he hne
    obtain ⟨hwho, i, k, hctl, hi⟩ := t.waits hs he
    have hin := hwait.thread p _ (.inl ⟨c, hwho, hctl.symm⟩)
    refine ⟨hwho, ?_⟩
    cases i <;> first | exact hi.elim | exact hin.1 | skip
    -- a call of `kwait`
    exfalso
    generalize hx : (c, e) = x at t
    cases t with
    | acquire hctl' | release hctl' | user hctl' | dispatch hctl' | account hctl' | sched hctl' =>
      cases hx
      rw [hctl] at hctl'
      cases hctl'
    | exec hctl' hexec =>
      cases hx
      rw [hctl] at hctl'
      cases hctl'
      rw [(hs.cpu c).proc_of_who hwho] at hexec
      cases hexec
      exact hne rfl
    | clock | device =>
      cases hx
      exact he
  refine ⟨fun i j hij hi _ => hpids.unique i j hij (hpids.used i hi), fun _ j hj hmade => ?_,
    fun c p j pid xstate s' t => ?_, fun c p s' t => ?_, fun c e s' j t => t.freed hs⟩
  · have hne : (s.mem.proc j).parent ≠ none := by
      refine hpar.orphan j hj ?_ ?_ <;> intro hst <;> rw [hst] at hmade <;> exact hmade
    obtain ⟨p, hp⟩ := Option.ne_none_iff_exists'.1 hne
    have halive := hpar.parent j p hp
    refine ⟨p, hp, ?_, ?_⟩ <;> intro hst <;> rw [hst] at halive <;> exact halive
  · obtain ⟨⟨k, hctl⟩, hwho, hz, hpid, hxstate⟩ := t.of_reap hs
    obtain ⟨-, hwaiting⟩ := hresult t (p := p) rfl (by simp)
    refine ⟨hwho, hwaiting, ?_, ?_⟩
    · obtain ⟨b, hb, hok⟩ := (kwaitOk_of_reachable hC hreach).thread p _ (.inl ⟨c, hwho, hctl.symm⟩)
      have hj : j ≠ 0 := by
        rintro rfl
        have hinit := hpar.init
        rw [hz] at hinit
        exact hinit
      have hne := hpar.orphan j hj (by simp [hz]) (by simp [hz])
      exact (hok.child j hb.child_of_visit.1).resolve_right hne
    · rw [hpid, hxstate]
      exact (fateOk_of_run hC r).zombie j hz
  · obtain ⟨hwho, hwaiting⟩ := hresult t (p := p) rfl (by simp)
    exact ⟨hwho, hwaiting, t.of_waitFailed⟩

/-- The first process has forked a child, which has exited with the status 0 on another CPU; its
`kwait` frees the child and returns its pid. -/
theorem process_family_wait :
    ∃ h s s', (kernel (0 : Fin 8) (sysproc (N := NPROC)) fun _ => True).Run h s ∧
      Step 0 sysproc s (0, .reap 0 1 2 0) s' ∧ (s.mem.proc 1).parent = some 0 ∧
        fate h 1 = some (2, 0) := by
  obtain ⟨h, s, r, hhead, hn⟩ : ∃ h s,
      (kernel (0 : Fin 8) (sysproc (N := NPROC)) fun _ => True).Run h s ∧
        h.head? = some (0, .reap 0 1 2 0) ∧ allocpids h.tail = 1 := by
    refine exists_run_of_play (X := sysprocChoices) (d := ())
      (v := ([0, 0, 0, 0, 1] ++ List.replicate 30 0 ++ [1, 0, 0, 0, 0, 1] ++
          List.replicate 85 0).map (.go 0 true) ++
        ([0, 0, 0, 0, 0, 0, 0, 0, 1, 0, 0, 0, 0, 3] ++ List.replicate 345 0).map (.go 1 true) ++
        List.replicate 262 (.go 0 true 0)) sysproc_disciplined trivial ?_
    set_option maxRecDepth 10000 in rfl
  cases r with
  | init => cases hhead
  | @step h s e _ r t =>
    cases hhead
    have hpids : (allocpids h : ℤ) < 2 ^ 31 - 1 := by
      rw [List.tail_cons] at hn
      rw [hn]
      decide
    have hreap := (process_family sysproc_disciplined r hpids).reap 0 0 1 2 0 _ t
    exact ⟨h, s, _, r, t, hreap.2.2⟩

end Xv6.Kernel
