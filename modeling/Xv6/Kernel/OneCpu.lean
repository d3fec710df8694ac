import Xv6.Kernel.Simulate

/-!
# One CPU per process

A process runs on at most one CPU, and a scheduler that takes a slot finds the last switch away from
its process over (`one_cpu`). This follows from the invariant of the hand-off.
-/

namespace Xv6.Kernel

variable {κ : Type} {N : ℕ} {υ δ : Type} {C : Client N υ δ}

section Step

variable [DecidableEq κ] [NeZero N] {boot : κ} {start : δ → Prop}

/-- The last switch from `p` to a scheduler and the scheduler's accounting after it are over. -/
def State.Settled (s : State κ N υ δ) (p : Fin N) : Prop :=
  ∀ c, (s.cpu c).who ≠ some p ∧ (s.cpu c).proc ≠ some p ∧
    ∀ prev k, (s.cpu c).ctl ≠ .account p prev :: k

/-- The step dispatches `p`, or frees its slot in `kwait`. -/
def Event.Takes (e : Event N) (p : Fin N) : Prop :=
  e = .dispatch p ∨ ∃ parent pid xstate, e = .reap parent p pid xstate

theorem exec_takes {my : Option (Fin N)} {cpu0 ok : Bool} {m m' : Mem N υ} {i : Instr N υ}
    {k' : List (Instr N υ)} {e : Event N} {p : Fin N}
    (he : exec C cpu0 my ok m i = some (m', k', e)) (ht : e.Takes p) :
    (m.proc p).state = .zombie ∧ ∃ q, i = .kwaitVisit q p := by
  rcases ht with rfl | ⟨q, pid, xstate, rfl⟩ <;> cases i <;> simp only [exec, reduceCtorEq] at he
  case inr.kwaitVisit =>
    split_ifs at he with hz <;> cases he
    exact ⟨hz, _, rfl⟩
  all_goals cases my <;> grind

/-- Only the scan and `kwait` take a slot: its process is not RUNNING, and its lock is held. -/
theorem Step.takes {s s' : State κ N υ δ} {c : κ} {e : Event N} {p : Fin N} (h : Safe C s)
    (t : Step boot C s (c, e) s') (he : e.Takes p) :
    .proc p ∈ s.held c ∧ (s.mem.proc p).state ≠ .running ∧
      ∃ i k, (s.cpu c).ctl = i :: k ∧ ((∃ l, i = .scanTest l p) ∨ ∃ q, i = .kwaitVisit q p) := by
  cases t with
  | exec hctl hexec =>
    obtain ⟨hz, q, rfl⟩ := exec_takes hexec he
    have hd := (h.cpu c).disc hctl (by simp)
    exact ⟨by simp [hd.2.1], by simp [hz], _, _, hctl, .inr ⟨q, rfl⟩⟩
  | dispatch hctl hel =>
    obtain ⟨-, hL⟩ := (h.cpu c).disc hctl (by simp)
    simp only [Proc.eligible, decide_eq_true_eq] at hel
    rcases he with heq | ⟨q, pid, xstate, heq⟩ <;> cases heq
    exact ⟨by simp [hL], by simp [hel.1], _, _, hctl, .inl ⟨_, rfl⟩⟩
  | account _ _ => rcases he with heq | ⟨q, pid, xstate, heq⟩ <;> split_ifs at heq
  | acquire | release | user | sched | clock | device =>
    rcases he with heq | ⟨q, pid, xstate, heq⟩ <;> cases heq

/-- A slot that is taken is settled. -/
theorem Step.settled {s s' : State κ N υ δ} {c : κ} {e : Event N} {p : Fin N} (h : Safe C s)
    (t : Step boot C s (c, e) s') (he : e.Takes p) : s.Settled p := by
  obtain ⟨hl, hst, i, k, hctl, hi⟩ := t.takes h he
  have hproc : ∀ c', (s.cpu c').proc ≠ some p := by
    intro c'
    rcases hi with ⟨l, rfl⟩ | ⟨q, rfl⟩ <;>
      exact h.proc_ne_of_held hctl (by simp) (by simp) (by simp) hl hst
  refine fun c' => ⟨fun hwho => hproc c' ((h.cpu c').proc_of_who hwho), hproc c', ?_⟩
  intro prev k' hctl'
  exact hproc c' ((h.cpu c').proc_of_account hctl')

variable (C boot) in
/-- One CPU per process, in the state `s` and the steps from it. -/
structure OneCpu (s : State κ N υ δ) : Prop where
  /-- A process runs on at most one CPU. -/
  who : ∀ c c' p, (s.cpu c).who = some p → (s.cpu c').who = some p → c = c'
  /-- `c->proc` is the same process on no two CPUs. -/
  proc : ∀ c c' p, (s.cpu c).proc = some p → (s.cpu c').proc = some p → c = c'
  /-- A process whose code runs, and which does not hold its own lock, is RUNNING. -/
  running : ∀ c p, (s.cpu c).who = some p → .proc p ∉ s.held c → (s.mem.proc p).state = .running
  /-- A process is dispatched, or freed by `kwait`, only when its last switch to the scheduler and
  the accounting after it are over. -/
  settled : ∀ c e s' p, Step boot C s (c, e) s' → e.Takes p → s.Settled p

/-- **One CPU per process**, in every state that a run of the kernel reaches. -/
theorem one_cpu (hC : C.Disciplined) {s : State κ N υ δ}
    (hs : (kernel boot C start).Reachable s) : OneCpu C boot s := by
  have h := safe_of_reachable hC hs
  refine ⟨fun c c' p => h.who_unique, h.unique, fun c p hwho hl => ?_, fun c e s' p t => t.settled h⟩
  by_contra hst
  exact hl ((h.cpu c).held_of_leaving hwho ((h.running c p hwho).running_or hst))

end Step

/-- The first process has forked a child, and each of them runs on a CPU of its own. -/
theorem one_cpu_forked :
    ∃ h s, (kernel (0 : Fin 8) (sysproc (N := NPROC)) fun _ => True).Run h s ∧
      ((s.cpu 0).who = some 0 ∧ (s.cpu 1).who = some 1) ∧ OneCpu sysproc 0 s := by
  obtain ⟨h, s, r, hwho⟩ : ∃ h s,
      (kernel (0 : Fin 8) (sysproc (N := NPROC)) fun _ => True).Run h s ∧
        (s.cpu 0).who = some 0 ∧ (s.cpu 1).who = some 1 := by
    refine exists_run_of_play (X := sysprocChoices) (d := ())
      (v := ([0, 0, 0, 0, 1] ++ List.replicate 30 0).map (.go 0 true) ++
        List.replicate 7 (.go 1 true 0)) sysproc_disciplined trivial ?_
    rfl
  exact ⟨h, s, r, hwho, one_cpu sysproc_disciplined ⟨h, r⟩⟩

end Xv6.Kernel
