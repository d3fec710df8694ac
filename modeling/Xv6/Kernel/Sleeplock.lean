import Xv6.Kernel.Monitor
import Xv6.Kernel.Phases
import Xv6.Kernel.Simulate

/-!
# Waiters and wakers, and the sleep lock

Two clients that follow the discipline of a monitor:

* `waiters`, processes that wait for a condition, make it true, or change it while they hold its
  lock, and that also kill each other, fork, exit, wait for children, and wake up any channel;
* `sleeplock`, processes that use one sleep lock of sleeplock.c. A process holds the sleep lock
  between the return of `acquiresleep` and the store of `releasesleep` (`State.Holds`).

`no_lost_wakeup` puts together what holds of both.
-/

namespace Xv6.Kernel

variable {κ : Type} {N : ℕ} {υ δ : Type}

/-! ## System calls that have nothing to do with the monitor -/

/-- The code of a process, between two program points `u`, that does not concern the monitor. -/
inductive Unrelated (u : υ) : List (Instr N υ) → Prop
  | compute : Unrelated u [.user u]
  | kill (pid : ℤ) : Unrelated u [.kkill pid 0, .user u]
  | setkilled : Unrelated u [.setkilled, .user u]
  | wakeup (chan : Chan N) : Unrelated u [.wakeup chan 0, .user u]
  | fork : Unrelated u [.kfork, .user u]
  | wait : Unrelated u [.kwait, .user u]

variable {C : Client N υ δ} {u : υ} {k : List (Instr N υ)}

theorem Unrelated.isCall (h : Unrelated u k) : ∀ i ∈ k, i.IsCall := by
  cases h <;> simp [Instr.IsCall]

theorem Unrelated.disc {p : Fin N} (h : Unrelated u k) (hu : C.locks p u = ∅) :
    Disc C (some p) ∅ k := by
  cases h <;> simp [Disc, hu]

theorem Unrelated.calm {a : ℕ} {G : υ → Prop} (h : Unrelated u k) (hu : ¬G u) :
    Calm (.addr a) G k := by
  cases h <;> simp [Calm, Instr.Marked, hu]

/-! ## Waiters and wakers -/

/-- The program points of a process that uses a monitor. -/
inductive WaitPoint
  /-- outside of the monitor -/
  | idle
  /-- `while(!Cond)`, the lock held -/
  | test
  /-- after the loop, the lock held -/
  | left
  /-- before the condition is made true, the lock held -/
  | give
  /-- before `release` -/
  | done
  /-- `kexit(-1)` -/
  | exit
  deriving DecidableEq

/-- What a process does with the monitor of `Cond`, the lock `n` and the channel `a`. -/
inductive Waiter (n a : ℕ) (Cond : δ → Prop) :
    WaitPoint → δ → δ → List (Instr N WaitPoint) → Prop
  | wait {d} : Waiter n a Cond .idle d d [.acquire (.other n), .user .test]
  | sleep {d} (h : ¬Cond d) :
      Waiter n a Cond .test d d [.sleep (.addr a) (.other n), .user .test]
  | leave {d} (h : Cond d) : Waiter n a Cond .test d d [.user .left]
  /-- What a waiter does after the loop. -/
  | body {d d'} : Waiter n a Cond .left d d' [.user .done]
  | wake {d} : Waiter n a Cond .idle d d [.acquire (.other n), .user .give]
  /-- A waker makes the condition true. -/
  | give {d d'} (h : Cond d') : Waiter n a Cond .give d d' [.wakeup (.addr a) 0, .user .done]
  | release {d} : Waiter n a Cond .done d d [.release (.other n), .user .idle]
  | unrelated {d k} (h : Unrelated .idle k) : Waiter n a Cond .idle d d k
  | exit {d} (status : ℤ) : Waiter n a Cond .idle d d [.kexit status]
  | killed {d} : Waiter n a Cond .exit d d [.kexit (-1)]

/-- Processes that use the monitor of `Cond`, the lock `n` and the channel `a`. -/
def waiters (n a : ℕ) (Cond : δ → Prop) : Client N WaitPoint δ where
  start := .idle
  killed := .exit
  inUser u := u = .idle
  sem _ := Waiter n a Cond
  locks _
    | .idle | .exit => ∅
    | _ => {.other n}

variable {n a : ℕ} {Cond : δ → Prop}

theorem waiters_disciplined : (waiters n a Cond : Client N WaitPoint δ).Disciplined where
  start _ := rfl
  killed _ := rfl
  calls p u d d' k h := by
    cases h with
    | unrelated h => exact h.isCall
    | wait | sleep | leave | body | wake | give | release | exit | killed => simp [Instr.IsCall]
  user p u d d' k h := by
    cases h with
    | unrelated h => exact h.disc rfl
    | wait | sleep | leave | body | wake | give | release | exit | killed => simp [Disc, waiters]

theorem waiters_monitor :
    (waiters n a Cond : Client N WaitPoint δ).Monitor n a (· = .left) Cond
      (fun _ _ _ => True) where
  loop p u d d' k h := by
    cases h with
    | sleep h => exact .inr (.inl ⟨_, rfl, by simp [Calm, Instr.Marked], h⟩)
    | leave h => exact .inr (.inr ⟨_, _, rfl, rfl, by simp [Calm], h⟩)
    | unrelated h => exact .inl (h.calm (by simp))
    | wait | body | wake | give | release | exit | killed =>
      exact .inl (by simp [Calm, Instr.Marked])
  left p u hu := by
    subst hu
    rfl
  start := by simp [waiters]
  killed := by simp [waiters]
  change p u d d' k h _ := by
    cases h with
    | body | give => exact .inr rfl
    | wait | sleep | leave | wake | release | unrelated | exit | killed => exact .inl Iff.rfl
  wake p u d d' k h _ hu hd hd' := by
    cases h with
    | body => exact absurd rfl hu
    | give => exact ⟨_, rfl⟩
    | wait | sleep | leave | wake | release | unrelated | exit | killed => exact absurd hd' hd

/-! ## The sleep lock -/

/-- The fields `locked` and `pid` of `struct sleeplock`, and the processes that have it: those that
have set `locked` and not cleared it since. -/
structure Sleeplock (N : ℕ) where
  locked : Bool
  pid : ℤ
  held : Fin N → Bool

/-- The program points of a process that uses a sleep lock. -/
inductive SleepPoint
  /-- without the sleep lock -/
  | idle
  /-- `acquiresleep`: `while (lk->locked)` -/
  | test
  /-- with the sleep lock -/
  | crit
  /-- `releasesleep`: before `lk->locked = 0` -/
  | clear
  /-- `releasesleep`: before `release` -/
  | done
  /-- `kexit(-1)` -/
  | exit
  deriving DecidableEq

/-- What the process `p` does with the sleep lock whose spinlock is `n` and whose address is `a`. -/
inductive SleeplockUser (n a : ℕ) (p : Fin N) :
    SleepPoint → Sleeplock N → Sleeplock N → List (Instr N SleepPoint) → Prop
  | acquire {d} : SleeplockUser n a p .idle d d [.acquire (.other n), .user .test]
  | sleep {d} (h : d.locked = true) :
      SleeplockUser n a p .test d d [.sleep (.addr a) (.other n), .user .test]
  /-- `lk->locked = 1; lk->pid = myproc()->pid;` -/
  | take {d} (h : d.locked = false) (pid : ℤ) :
      SleeplockUser n a p .test d ⟨true, pid, Function.update d.held p true⟩
        [.release (.other n), .user .crit]
  | work {d k} (h : Unrelated .crit k) : SleeplockUser n a p .crit d d k
  | releasesleep {d} : SleeplockUser n a p .crit d d [.acquire (.other n), .user .clear]
  /-- `lk->locked = 0; lk->pid = 0;` -/
  | clear {d} :
      SleeplockUser n a p .clear d ⟨false, 0, Function.update d.held p false⟩
        [.wakeup (.addr a) 0, .user .done]
  | release {d} : SleeplockUser n a p .done d d [.release (.other n), .user .idle]
  | unrelated {d k} (h : Unrelated .idle k) : SleeplockUser n a p .idle d d k
  | exit {d} (status : ℤ) : SleeplockUser n a p .idle d d [.kexit status]
  | killed {d} : SleeplockUser n a p .exit d d [.kexit (-1)]

/-- Processes that use the sleep lock whose spinlock is `n` and whose address is `a`. -/
def sleeplock (n a : ℕ) : Client N SleepPoint (Sleeplock N) where
  start := .idle
  killed := .exit
  inUser u := u = .idle
  sem := SleeplockUser n a
  locks _
    | .idle | .crit | .exit => ∅
    | _ => {.other n}

theorem sleeplock_disciplined :
    (sleeplock n a : Client N SleepPoint (Sleeplock N)).Disciplined where
  start _ := rfl
  killed _ := rfl
  calls p u d d' k h := by
    cases h with
    | work h | unrelated h => exact h.isCall
    | acquire | sleep | take | releasesleep | clear | release | exit | killed =>
      simp [Instr.IsCall]
  user p u d d' k h := by
    cases h with
    | work h | unrelated h => exact h.disc rfl
    | acquire | sleep | take | releasesleep | clear | release | exit | killed =>
      simp [Disc, sleeplock]

theorem sleeplock_monitor :
    (sleeplock n a : Client N SleepPoint (Sleeplock N)).Monitor n a (fun _ => False)
      (·.locked = false) (fun _ _ _ => True) where
  loop p u d d' k h := by
    cases h with
    | sleep h => exact .inr (.inl ⟨_, rfl, by simp [Calm, Instr.Marked], by simp [h]⟩)
    | work h | unrelated h => exact .inl (h.calm id)
    | acquire | take | releasesleep | clear | release | exit | killed =>
      exact .inl (by simp [Calm, Instr.Marked])
  left _ _ := False.elim
  start := id
  killed := id
  change p u d d' k h _ := by
    cases h with
    | take | clear => exact .inr rfl
    | acquire | sleep | work | releasesleep | release | unrelated | exit | killed =>
      exact .inl Iff.rfl
  wake p u d d' k h _ hu hd hd' := by
    cases h with
    | clear => exact ⟨_, rfl⟩
    | take => cases hd'
    | acquire | sleep | work | releasesleep | release | unrelated | exit | killed =>
      exact absurd hd' hd

/-! ### At most one holder -/

/-- The sleep lock is held at this program point. -/
def SleepPoint.holds : SleepPoint → Bool
  | .crit | .clear => true
  | _ => false

theorem sleeplock_phased :
    (sleeplock n a : Client N SleepPoint (Sleeplock N)).Phased SleepPoint.holds false
      (·.held) where
  start := rfl
  killed := rfl
  inUser u hu := by
    have hidle : u = .idle := of_decide_eq_true hu
    rw [hidle]
    rfl
  step p u d d' k h hrec := by
    cases h with
    | take | clear =>
      exact ⟨Function.update_self .., fun q hq => Function.update_of_ne hq ..⟩
    | work h | unrelated h => cases h <;> exact ⟨hrec, fun _ _ => rfl⟩
    | acquire | sleep | releasesleep | release | exit | killed => exact ⟨hrec, fun _ _ => rfl⟩
  fair p u d d' k h := by
    cases h with
    | work h | unrelated h => cases h <;> trivial
    | acquire | sleep | take | releasesleep | clear | release | exit | killed => trivial

/-- The process `p` holds the sleep lock: it is after `acquiresleep`, and has not cleared
`lk->locked` in `releasesleep`. -/
def State.Holds (s : State κ N SleepPoint (Sleeplock N)) (p : Fin N) : Prop :=
  ∃ k, s.Thread p k ∧ phase SleepPoint.holds false k = true

/-- A free sleep lock has no holder, and a sleep lock has at most one. -/
structure SleeplockOk (d : Sleeplock N) : Prop where
  free : d.locked = false → ∀ p, d.held p = false
  unique : ∀ p q, d.held p = true → d.held q = true → p = q

theorem SleeplockOk.step {p : Fin N} {u : SleepPoint} {d d' : Sleeplock N}
    {k : List (Instr N SleepPoint)} (h : SleeplockUser n a p u d d' k)
    (hrec : d.held p = u.holds) (hd : SleeplockOk d) : SleeplockOk d' := by
  cases h with
  | take hfree pid =>
    -- nobody had it
    have hheld : ∀ q, Function.update d.held p true q = true → q = p := by
      intro q hq
      by_contra hne
      rw [Function.update_of_ne hne, hd.free hfree q] at hq
      cases hq
    exact ⟨nofun, fun q r hq hr => (hheld q hq).trans (hheld r hr).symm⟩
  | clear =>
    -- the only holder gives it back
    have hnone : ∀ q, Function.update d.held p false q = false := by
      intro q
      rw [Function.update_apply]
      split_ifs with hq
      · rfl
      · rw [← Bool.not_eq_true]
        exact fun hheld => hq (hd.unique q p hheld hrec)
    exact ⟨fun _ => hnone, fun q r hq _ => absurd ((hnone q).symm.trans hq) Bool.false_ne_true⟩
  | acquire | sleep | work | releasesleep | release | unrelated | exit | killed => exact hd

section Reachable

variable [DecidableEq κ] [NeZero N] {boot : κ}

/-- The sleep lock is free, and nobody has it. -/
def Sleeplock.Free (d : Sleeplock N) : Prop := d.locked = false ∧ ∀ p, d.held p = false

theorem sleeplockOk_of_reachable {s : State κ N SleepPoint (Sleeplock N)}
    (hs : (kernel boot (sleeplock n a) Sleeplock.Free).Reachable s) : SleeplockOk s.user := by
  refine data_of_reachable sleeplock_disciplined sleeplock_phased (fun d hd => ?_)
    (fun p u d d' k h hrec => SleeplockOk.step h hrec) hs
  refine ⟨⟨fun _ => hd.2, fun p q hp => ?_⟩, hd.2⟩
  rw [hd.2 p] at hp
  cases hp

theorem held_of_holds {s : State κ N SleepPoint (Sleeplock N)} {p : Fin N}
    (hs : (kernel boot (sleeplock n a) Sleeplock.Free).Reachable s) (hp : s.Holds p) :
    s.user.held p = true := by
  obtain ⟨k, hk, hphase⟩ := hp
  rw [← phase_of_thread sleeplock_disciplined sleeplock_phased (fun d hd => hd.2) hs hk, hphase]

/-- **No lost wakeup, and the sleep lock.** Of processes that wait for a condition and make it
true, kill each other and wake up any channel: when the lock is free and the condition holds, no
process whose own lock is free is SLEEPING on the channel, and a waiter that has left its loop
holds the lock and finds the condition true. Of processes that use a sleep lock: at most one holds
it, and when it is free none is SLEEPING on it. -/
theorem no_lost_wakeup (n a : ℕ) (Cond start : δ → Prop) :
    (∀ s : State κ N WaitPoint δ, (kernel boot (waiters n a Cond) start).Reachable s →
      (s.holder (.other n) = none → Cond s.user → ∀ p, s.holder (.proc p) = none →
        ¬(s.mem.proc p).sleepsOn (.addr a)) ∧
      (∀ c k, (s.cpu c).ctl = .user .left :: k → s.holder (.other n) = some c ∧ Cond s.user)) ∧
    (∀ s : State κ N SleepPoint (Sleeplock N),
      (kernel boot (sleeplock n a) Sleeplock.Free).Reachable s →
      (∀ p q, s.Holds p → s.Holds q → p = q) ∧
      (s.holder (.other n) = none → s.user.locked = false → ∀ p,
        ¬(s.mem.proc p).sleepsOn (.addr a))) := by
  refine ⟨fun s hs => ⟨fun hfree hcond p _ => ?_, fun c k hctl => ?_⟩,
    fun s hs => ⟨?_, fun hfree hcond => ?_⟩⟩
  · exact not_sleeping_of_free waiters_disciplined waiters_monitor
      (fun _ _ _ _ _ _ _ _ => trivial) hs hfree hcond p
  · exact cond_of_left waiters_disciplined waiters_monitor (fun _ _ _ _ _ _ _ _ => trivial) hs hctl
      rfl
  · exact fun p q hp hq => (sleeplockOk_of_reachable hs).unique p q (held_of_holds hs hp)
      (held_of_holds hs hq)
  · exact not_sleeping_of_free sleeplock_disciplined sleeplock_monitor
      (fun _ _ _ _ _ _ _ _ => trivial) hs hfree hcond

end Reachable

/-- Choices of the processes that use a sleep lock: at `idle`, 0 is `fork`. -/
def SleeplockUser.pick (n a : ℕ) (p : Fin N) :
    SleepPoint → Sleeplock N → ℕ → Option (Sleeplock N × List (Instr N SleepPoint))
  | .idle, d, 0 => some (d, [.kfork, .user .idle])
  | .idle, d, _ => some (d, [.acquire (.other n), .user .test])
  | .test, d, pid =>
    if d.locked = true then some (d, [.sleep (.addr a) (.other n), .user .test])
    else some (⟨true, pid, Function.update d.held p true⟩, [.release (.other n), .user .crit])
  | .crit, d, _ => some (d, [.acquire (.other n), .user .clear])
  | .clear, d, _ =>
    some (⟨false, 0, Function.update d.held p false⟩, [.wakeup (.addr a) 0, .user .done])
  | .done, d, _ => some (d, [.release (.other n), .user .idle])
  | .exit, d, _ => some (d, [.kexit (-1)])

theorem SleeplockUser.of_pick {n a : ℕ} {p : Fin N} {u : SleepPoint} {d d' : Sleeplock N} {m : ℕ}
    {k : List (Instr N SleepPoint)} (h : pick n a p u d m = some (d', k)) :
    SleeplockUser n a p u d d' k := by
  unfold pick at h
  split at h
  case h_3 =>
    split_ifs at h with hlocked <;> cases h
    · exact .sleep hlocked
    · exact .take (eq_false_of_ne_true hlocked) _
  all_goals cases h
  case h_1.refl => exact .unrelated .fork
  case h_4.refl => exact .releasesleep
  all_goals constructor

def sleeplockChoices (n a : ℕ) : (sleeplock n a : Client N SleepPoint (Sleeplock N)).Choices where
  pick := SleeplockUser.pick n a
  free
    | .idle | .crit | .exit => true
    | _ => false
  sem_of_pick _ _ _ _ _ _ h := SleeplockUser.of_pick h
  locks_of_free _ u h := by
    cases u <;> first | rfl | cases h

/-- The first process has the sleep lock while its child waits for it on another CPU, and wakes it
up. -/
theorem no_lost_wakeup_release :
    ∃ h s, (kernel (0 : Fin 8) (sleeplock (N := NPROC) 0 0) Sleeplock.Free).Run h s ∧
      (0, .wake 1) ∈ h ∧ (∀ p q, s.Holds p → s.Holds q → p = q) ∧
        ∀ p, ¬(s.mem.proc p).sleepsOn (.addr 0) := by
  obtain ⟨h, s, r, hwake, hfree, hlocked⟩ : ∃ h s,
      (kernel (0 : Fin 8) (sleeplock (N := NPROC) 0 0) Sleeplock.Free).Run h s ∧
        (0, .wake 1) ∈ h ∧ s.holder (.other 0) = none ∧ s.user.locked = false := by
    refine exists_run_of_play (X := sleeplockChoices 0 0) (d := ⟨false, 0, fun _ => false⟩)
      (v := (List.replicate 25 0 ++ [1, 0, 0, 0]).map (.go 0 true) ++
        (List.replicate 8 0 ++ [1] ++ List.replicate 9 0).map (.go 1 true) ++
        List.replicate 259 (.go 0 true 0)) sleeplock_disciplined ⟨rfl, fun _ => rfl⟩ ?_
    set_option maxRecDepth 10000 in rfl
  obtain ⟨hunique, hawake⟩ := (no_lost_wakeup 0 0 (fun d => d = true) fun _ => True).2 s ⟨h, r⟩
  exact ⟨h, s, r, hwake, hunique, hawake hfree hlocked⟩

end Xv6.Kernel
