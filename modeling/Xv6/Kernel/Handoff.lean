import Xv6.Kernel.Sysproc

/-!
# The hand-off between processes and schedulers

The invariant of the hand-off between a process and the schedulers (`Safe`), for any number of
CPUs and any disciplined client:

* a CPU is in one of three states (`CpuOk`): it runs a process, or its scheduler has just got the
  CPU back from a process and has its accounting to do, or its scheduler is at work;
* a process on a CPU is RUNNING until it has decided to leave the CPU, and from then on the CPU
  holds its lock, through `sched` and the switch, until the scheduler's accounting is done
  (`RunOk`);
* a slot that `kfork` has taken and not yet made runnable is touched by the process that took it
  only (`ForksOk`).

What an instruction does to the state of a slot is said once, in `exec_slotStep`.
-/

namespace Xv6.Kernel

variable {κ : Type} {N : ℕ} {υ δ : Type}

/-! ## What an instruction does to a slot -/

/-- The slots that an instruction still has to make runnable or to free. -/
def Instr.pending : Instr N υ → List (Fin N)
  | .forkCopy _ pp | .forkRunnable pp => [pp]
  | _ => []

/-- The slots that a thread's control still has to make runnable or to free. -/
def pending (k : List (Instr N υ)) : List (Fin N) := k.flatMap Instr.pending

@[simp] theorem pending_nil : pending ([] : List (Instr N υ)) = [] := rfl

@[simp] theorem pending_cons (i : Instr N υ) (k : List (Instr N υ)) :
    pending (i :: k) = i.pending ++ pending k := rfl

@[simp] theorem pending_append (k k' : List (Instr N υ)) :
    pending (k ++ k') = pending k ++ pending k' :=
  List.flatMap_append

theorem pending_trapCode (user timer : Bool) :
    pending (trapCode user timer : List (Instr N υ)) = [] := by
  unfold trapCode
  split_ifs <;> rfl

/-- The process `p` has decided to leave the CPU: it is about to call `sched`. -/
inductive Leaving (p : Fin N) : List (Instr N υ) → Prop
  | sched {k} : Leaving p (.sched p :: k)
  | exiting {k} : Leaving p (.release .waitLock :: .sched p :: k)

/-- `SlotStep my L i k j a b`: the instruction `i`, run by a thread that holds the locks `L` and
goes on with `k`, takes the state of the slot `j` from `a` to `b`. -/
inductive SlotStep (my : Option (Fin N)) (L : Set (Lock N)) (i : Instr N υ)
    (k : List (Instr N υ)) (j : Fin N) : ProcState → ProcState → Prop
  | same {a} : SlotStep my L i k j a a
  | wake (h : .proc j ∈ L) : SlotStep my L i k j .sleeping .runnable
  | alloc (h : .proc j ∈ L) {p} (hi : i = .allocInit p j) : SlotStep my L i k j .unused .used
  | reap (h : .proc j ∈ L) {p} (hi : i = .kwaitVisit p j) : SlotStep my L i k j .zombie .unused
  | abort {a} (h : .proc j ∈ L) (hi : i.pending = [j]) (hk : pending k = []) :
      SlotStep my L i k j a .unused
  | start {a} (h : .proc j ∈ L) (hi : i = .forkRunnable j) (hk : k = []) :
      SlotStep my L i k j a .runnable
  | leave {a b} (hmy : my = some j) (h : .proc j ∈ L)
      (hi : i = .setRunnable j ∨ (∃ chan, i = .setSleeping j chan) ∨ ∃ st, i = .setZombie j st)
      (hk : k = []) (hb : b = .runnable ∨ b = .sleeping ∨ b = .zombie) : SlotStep my L i k j a b

variable {C : Client N υ δ}

@[simp] theorem Mem.set_proc (m : Mem N υ) (p : Fin N) (q : Proc N υ) (j : Fin N) :
    (m.set p q).proc j = if j = p then q else m.proc j := by
  simp [Mem.set, Function.update_apply]

theorem Proc.age_state (p : Proc N υ) : p.age.state = p.state := by
  unfold Proc.age
  split_ifs <;> rfl

theorem Proc.age_context (p : Proc N υ) : p.age.context = p.context := by
  unfold Proc.age
  split_ifs <;> rfl

/-- A change of one slot is a change of every slot, if it is one of that slot. -/
theorem SlotStep.set {my : Option (Fin N)} {L : Set (Lock N)} {i : Instr N υ}
    {k : List (Instr N υ)} {m : Mem N υ} {p : Fin N} {q : Proc N υ}
    (h : SlotStep my L i k p (m.proc p).state q.state) (j : Fin N) :
    SlotStep my L i k j (m.proc j).state ((m.set p q).proc j).state := by
  rw [Mem.set_proc]
  split_ifs with hj
  · exact hj ▸ h
  · exact .same

theorem SlotStep.setSame {my : Option (Fin N)} {L : Set (Lock N)} {i : Instr N υ}
    {k : List (Instr N υ)} {m : Mem N υ} {p : Fin N} {q : Proc N υ}
    (h : q.state = (m.proc p).state) (j : Fin N) :
    SlotStep my L i k j (m.proc j).state ((m.set p q).proc j).state :=
  SlotStep.set (h ▸ .same) j

/-- **All that an instruction can do to the state of a slot.** -/
theorem exec_slotStep [NeZero N] {my : Option (Fin N)} {cpu0 ok : Bool} {m m' : Mem N υ}
    {i : Instr N υ} {k k' : List (Instr N υ)} {e : Event N} {L : Set (Lock N)}
    (hd : Disc C my L (i :: k)) (he : exec C cpu0 my ok m i = some (m', k', e)) (j : Fin N) :
    SlotStep my L i k' j (m.proc j).state (m'.proc j).state := by
  cases i <;> simp only [exec, reduceCtorEq] at he
  -- the instructions that leave the table alone
  case scan | aging => split_ifs at he <;> cases he <;> exact .same
  case scanTest | kkill | kwaitScan | kwaitKilled | allocproc | allocTest =>
    split_ifs at he <;> cases he <;> exact .same
  case wakeup | killedRead | wakeupParent | clockintr | tick | kerneltrap | trapKilled | trapRet =>
    cases he; exact .same
  case yield | sleep | setkilled | killed | kwait | kfork | usertrap =>
    obtain ⟨p, -, he⟩ := Option.map_eq_some_iff.1 he
    cases he
    exact .same
  case kexit =>
    obtain ⟨p, -, he⟩ := Option.bind_eq_some_iff.1 he
    split_ifs at he
    cases he
    exact .same
  -- the instructions that change no state
  case agingVisit => cases he; exact SlotStep.setSame (Proc.age_state _) j
  case clearChan | setkilledVisit | setParent => cases he; exact SlotStep.setSame (by rfl) j
  case allocpid => cases he; exact SlotStep.setSame (by rfl) j
  case reparent =>
    split_ifs at he <;> cases he
    exacts [SlotStep.setSame (by rfl) j, .same, .same]
  case charge =>
    cases my <;> simp only at he <;> (try split_ifs at he) <;> cases he
    exacts [.same, SlotStep.setSame (by rfl) j, .same]
  -- the instructions that do
  case setRunnable =>
    cases he
    exact SlotStep.set (.leave hd.1 (by simp [hd.2.1]) (.inl rfl) rfl (.inl rfl)) j
  case setSleeping =>
    cases he
    refine SlotStep.set (.leave hd.1 (by simp [hd.2.1]) (.inr (.inl ⟨_, rfl⟩)) rfl ?_) j
    exact .inr (.inl rfl)
  case setZombie =>
    cases he
    refine SlotStep.set (.leave hd.1 (by simp [hd.2.1]) (.inr (.inr ⟨_, rfl⟩)) rfl ?_) j
    exact .inr (.inr rfl)
  case wakeupVisit chan p =>
    cases he
    refine SlotStep.set ?_ j
    unfold Proc.wake
    split_ifs with hs
    · simp only [Proc.sleepsOn, decide_eq_true_eq] at hs
      exact hs.1 ▸ .wake hd.2.1
    · exact .same
  case kkillVisit pid p =>
    split_ifs at he <;> cases he
    · refine SlotStep.set ?_ j
      unfold Proc.kill
      by_cases hs : (m.proc p).state = .sleeping
      · simpa only [hs, if_true] using .wake hd.1
      · simpa only [hs, if_false] using .same
    · exact .same
  case kwaitVisit p pp =>
    split_ifs at he with hs <;> cases he
    · exact SlotStep.set (hs ▸ .reap (by simp [hd.2.1]) rfl) j
    all_goals exact .same
  case allocInit p pp =>
    split_ifs at he with hs <;> cases he
    · exact SlotStep.set (hs ▸ .alloc (by simp [hd.2.1]) rfl) j
    · exact SlotStep.setSame (by rw [hs]; rfl) j
  case forkCopy p pp =>
    split_ifs at he <;> cases he
    · exact .same
    · exact SlotStep.set (.abort (by simp [hd.2.1]) rfl rfl) j
  case forkRunnable => cases he; exact SlotStep.set (.start hd.2.1 rfl rfl) j

/-- **All that an instruction can do to a saved context.** -/
theorem exec_context [NeZero N] {my : Option (Fin N)} {cpu0 ok : Bool} {m m' : Mem N υ}
    {i : Instr N υ} {k' : List (Instr N υ)} {e : Event N}
    (he : exec C cpu0 my ok m i = some (m', k', e)) (j : Fin N) :
    (m'.proc j).context = (m.proc j).context ∨
      (m'.proc j).context = forkretCode C j ∧ (∃ p, i = .allocInit p j) ∧
        (m.proc j).state = .unused := by
  cases i <;> simp only [exec, reduceCtorEq] at he
  case allocInit p pp =>
    split_ifs at he with hst <;> cases he <;> rw [Mem.set_proc] <;> split_ifs with hj
    · subst hj
      exact .inr ⟨rfl, ⟨p, rfl⟩, hst⟩
    · exact .inl rfl
    · exact .inl (hj ▸ rfl)
    · exact .inl rfl
  case allocpid pp =>
    cases he
    refine .inl ?_
    dsimp only
    rw [Mem.set_proc]
    split_ifs with hj
    exacts [hj ▸ rfl, rfl]
  case tick => cases he; exact .inl rfl
  all_goals
    refine .inl ?_
    cases my <;>
      grind [Mem.set_proc, Proc.age_context, Proc.wake, Proc.kill, Proc.free, Proc.chargeTick]

/-- **All that an instruction can do to the pending slots.** -/
theorem exec_pending [NeZero N] {my : Option (Fin N)} {cpu0 ok : Bool} {m m' : Mem N υ}
    {i : Instr N υ} {k' : List (Instr N υ)} {e : Event N}
    (he : exec C cpu0 my ok m i = some (m', k', e)) :
    pending k' = i.pending ∨ pending k' = [] ∨
      ∃ p pp, i = .allocInit p pp ∧ pending k' = [pp] ∧ (m.proc pp).state = .unused ∧
        m' = m.set pp ((m.proc pp).init (forkretCode C pp)) := by
  cases i <;> simp only [exec, reduceCtorEq] at he
  case allocInit p pp =>
    split_ifs at he with hs <;> cases he
    · exact .inr (.inr ⟨p, pp, rfl, rfl, hs, rfl⟩)
    · exact .inl rfl
  case forkCopy => split_ifs at he <;> cases he <;> simp [Instr.pending, forkCode]
  all_goals
    refine .inr (.inl ?_)
    cases my <;> grind [yieldCode, sleepCode, wakeupCode, kexitCode, clockintrCode,
      Instr.pending, pending_nil, pending_cons]

/-! ## The invariant -/

/-- The three states of a CPU that holds the locks `L`. -/
inductive CpuOk (C : Client N υ δ) (L : Set (Lock N)) : Cpu N υ → Prop
  /-- It runs the process `p`; its scheduler waits for `p` to come back. -/
  | process {p ctl prev k} (hd : Disc C (some p) L ctl) :
      CpuOk C L ⟨some p, ctl, some p, .account p prev :: .release (.proc p) :: .aging 0 :: k⟩
  /-- The process `p` has just come back. -/
  | back {p prev k context} (hL : L = {.proc p}) :
      CpuOk C L ⟨none, .account p prev :: .release (.proc p) :: .aging 0 :: k, some p, context⟩
  /-- Its scheduler is at work. -/
  | scheduler {ctl context} (hd : Disc C none L ctl) : CpuOk C L ⟨none, ctl, none, context⟩

/-- The state of a process on a CPU, whose control is `k`. -/
def RunOk (st : ProcState) (p : Fin N) (k : List (Instr N υ)) : Prop :=
  st = .running ∨ Leaving p k ∧ (st = .runnable ∨ st = .sleeping ∨ st = .zombie)

/-- `s.Thread p k`: the control of the kernel thread of `p` is `k`, on a CPU or saved. -/
def State.Thread (s : State κ N υ δ) (p : Fin N) (k : List (Instr N υ)) : Prop :=
  (∃ c, (s.cpu c).who = some p ∧ k = (s.cpu c).ctl) ∨
    (∀ c, (s.cpu c).who ≠ some p) ∧ k = (s.mem.proc p).context

/-- A slot that `kfork` has taken is USED, and one process has it, once. -/
structure ForksOk (s : State κ N υ δ) : Prop where
  used : ∀ p k pp, s.Thread p k → pp ∈ pending k → (s.mem.proc pp).state = .used
  nodup : ∀ p k, s.Thread p k → (pending k).Nodup
  owner : ∀ p p' k k' pp, s.Thread p k → s.Thread p' k' → pp ∈ pending k → pp ∈ pending k' → p = p'

/-- The invariant of the hand-off. -/
structure Safe (C : Client N υ δ) (s : State κ N υ δ) : Prop where
  cpu : ∀ c, CpuOk C (s.held c) (s.cpu c)
  saved : ∀ p, Disc C (some p) {.proc p} (s.mem.proc p).context
  unique : ∀ c c' p, (s.cpu c).proc = some p → (s.cpu c').proc = some p → c = c'
  running : ∀ c p, (s.cpu c).who = some p → RunOk (s.mem.proc p).state p (s.cpu c).ctl
  forks : ForksOk s

namespace CpuOk

variable {L L' : Set (Lock N)} {x : Cpu N υ} {i : Instr N υ} {k k' : List (Instr N υ)} {p : Fin N}

theorem disc (h : CpuOk C L x) (hctl : x.ctl = i :: k) (hi : ∀ p t, i ≠ .account p t) :
    Disc C x.proc L (i :: k) := by
  cases h with
  | process hd => exact hctl ▸ hd
  | back hL =>
    cases hctl
    exact absurd rfl (hi _ _)
  | scheduler hd => exact hctl ▸ hd

theorem who_eq_proc (h : CpuOk C L x) (hctl : x.ctl = i :: k) (hi : ∀ p t, i ≠ .account p t) :
    x.who = x.proc := by
  cases h with
  | process hd => rfl
  | back hL =>
    cases hctl
    exact absurd rfl (hi _ _)
  | scheduler hd => rfl

theorem who_eq_proc_of_free (h : CpuOk C L x) (hL : L = ∅) : x.who = x.proc := by
  cases h with
  | process hd => rfl
  | back hL' => exact absurd (hL'.symm.trans hL) (Set.singleton_ne_empty _)
  | scheduler hd => rfl

theorem next (h : CpuOk C L x) (hctl : x.ctl = i :: k) (hi : ∀ p t, i ≠ .account p t)
    (hk : Disc C x.proc L (i :: k) → Disc C x.proc L' k') : CpuOk C L' { x with ctl := k' } := by
  cases h with
  | process hd => exact .process (hk (hctl ▸ hd))
  | back hL =>
    cases hctl
    exact absurd rfl (hi _ _)
  | scheduler hd => exact .scheduler (hk (hctl ▸ hd))

theorem intr (h : CpuOk C ∅ x) (hk : Disc C x.proc ∅ x.ctl → Disc C x.proc ∅ k') :
    CpuOk C ∅ { x with ctl := k' } := by
  cases h with
  | process hd => exact .process (hk hd)
  | back hL => exact absurd hL.symm (Set.singleton_ne_empty _)
  | scheduler hd => exact .scheduler (hk hd)

theorem proc_of_who (h : CpuOk C L x) (hp : x.who = some p) : x.proc = some p := by
  cases h with
  | process => exact hp
  | back => cases hp
  | scheduler => cases hp

theorem disc_of_who (h : CpuOk C L x) (hp : x.who = some p) : Disc C (some p) L x.ctl := by
  cases h with
  | process hd =>
    cases hp
    exact hd
  | back => cases hp
  | scheduler => cases hp

theorem proc_of_account {t : ℤ} (h : CpuOk C L x) (hctl : x.ctl = .account p t :: k) :
    x.proc = some p := by
  cases h with
  | process hd =>
    cases hctl
    exact hd.elim
  | back hL =>
    cases hctl
    rfl
  | scheduler hd =>
    cases hctl
    exact hd.elim

/-- A process that has decided to leave the CPU has its lock. -/
theorem held_of_leaving (h : CpuOk C L x) (hp : x.who = some p) (hk : Leaving p x.ctl) :
    .proc p ∈ L := by
  cases h with
  | process hd =>
    cases hk with
    | sched => simp [hd.2.1]
    | exiting => exact (hd.2.2.1 ▸ Set.mem_singleton (Lock.proc p) : _ ∈ L \ {.waitLock}).1
  | back => cases hp
  | scheduler => cases hp

end CpuOk

theorem RunOk.running_or {st : ProcState} {p : Fin N} {k : List (Instr N υ)} (h : RunOk st p k)
    (hst : st ≠ .running) : Leaving p k :=
  (h.resolve_left hst).1

/-- An instruction other than `sched` and `release` is not that of a process about to leave. -/
theorem RunOk.running_of_head {st : ProcState} {p : Fin N} {i : Instr N υ} {k : List (Instr N υ)}
    (h : RunOk st p (i :: k)) (hs : i ≠ .sched p) (hr : i ≠ .release .waitLock) :
    st = .running := by
  refine h.resolve_right ?_
  rintro ⟨hl, -⟩
  cases hl with
  | sched => exact hs rfl
  | exiting => exact hr rfl

namespace Safe

variable {s s' : State κ N υ δ} {c c' : κ} {p : Fin N}

/-- **The key to the hand-off**: a CPU that has a process which is not RUNNING, to run it or to
account for it, holds its lock. -/
theorem held_of_proc (h : Safe C s) (hst : (s.mem.proc p).state ≠ .running)
    (hp : (s.cpu c).proc = some p) : .proc p ∈ s.held c := by
  have hcpu := h.cpu c
  have hrun := h.running c p
  generalize s.held c = L at hcpu ⊢
  generalize s.cpu c = x at hcpu hrun hp
  cases hcpu with
  | process hd =>
    cases hp
    exact CpuOk.held_of_leaving (.process hd) rfl ((hrun rfl).running_or hst)
  | back hL =>
    cases hp
    simp [hL]
  | scheduler hd => cases hp

theorem eq_of_held (h : Safe C s) (hl : .proc p ∈ s.held c)
    (hst : (s.mem.proc p).state ≠ .running) (hp : (s.cpu c').proc = some p) : c' = c :=
  Option.some_inj.1 ((h.held_of_proc hst hp).symm.trans hl)

theorem who_unique (h : Safe C s) (hp : (s.cpu c).who = some p) (hp' : (s.cpu c').who = some p) :
    c = c' :=
  h.unique c c' p ((h.cpu c).proc_of_who hp) ((h.cpu c').proc_of_who hp')

/-- A process that is not RUNNING is on no CPU, and about to be accounted for on none, when a CPU
works on its slot: it holds the lock, and its next instruction is not the end of `sched`'s
caller. -/
theorem proc_ne_of_held (h : Safe C s) {i : Instr N υ} {k : List (Instr N υ)}
    (hctl : (s.cpu c).ctl = i :: k) (hacc : ∀ q t, i ≠ .account q t) (hs : i ≠ .sched p)
    (hr : i ≠ .release .waitLock) (hl : .proc p ∈ s.held c)
    (hst : (s.mem.proc p).state ≠ .running) : (s.cpu c').proc ≠ some p := by
  intro hc'
  obtain rfl := h.eq_of_held hl hst hc'
  have hrun := h.running c' p (((h.cpu c').who_eq_proc hctl hacc).trans hc')
  rw [hctl] at hrun
  exact hst (hrun.running_of_head hs hr)

theorem who_of_account (h : Safe C s) {prev : ℤ} {k : List (Instr N υ)}
    (hctl : (s.cpu c).ctl = .account p prev :: k) : (s.cpu c).who = none := by
  have hok := h.cpu c
  generalize s.held c = L at hok
  generalize s.cpu c = x at hok hctl ⊢
  cases hok with
  | process hd =>
    cases hctl
    exact hd.elim
  | back => rfl
  | scheduler => rfl

theorem ctl_of_account (h : Safe C s) {prev : ℤ} {k : List (Instr N υ)}
    (hctl : (s.cpu c).ctl = .account p prev :: k) :
    ∃ k', k = .release (.proc p) :: .aging 0 :: k' ∧ s.held c = {.proc p} := by
  have hok := h.cpu c
  generalize s.held c = L at hok ⊢
  generalize s.cpu c = x at hok hctl
  cases hok with
  | process hd =>
    cases hctl
    exact hd.elim
  | back hL =>
    cases hctl
    exact ⟨_, rfl, hL⟩
  | scheduler hd =>
    cases hctl
    exact hd.elim

/-- The process on a CPU has one of four states. -/
theorem state_of_who (h : Safe C s) (hp : (s.cpu c).who = some p) :
    (s.mem.proc p).state ≠ .used ∧ (s.mem.proc p).state ≠ .unused := by
  rcases h.running c p hp with hst | ⟨-, hst | hst | hst⟩ <;> simp [hst]

end Safe

/-! ## Threads and forks -/

theorem exists_thread (s : State κ N υ δ) (p : Fin N) : ∃ k, s.Thread p k := by
  by_cases h : ∃ c, (s.cpu c).who = some p
  · obtain ⟨c, hc⟩ := h
    exact ⟨_, .inl ⟨c, hc, rfl⟩⟩
  · exact ⟨_, .inr ⟨not_exists.1 h, rfl⟩⟩

/-- The threads after a step that changes the CPU `c`, but not the thread it runs. -/
theorem thread_cases [DecidableEq κ] {s s' : State κ N υ δ} {c : κ} {x : Cpu N υ} (h : Safe C s)
    {p : Fin N} {k : List (Instr N υ)} (ht : s'.Thread p k)
    (hcpu : s'.cpu = Function.update s.cpu c x) (hwho : x.who = (s.cpu c).who) :
    (s.cpu c).who = some p ∧ k = x.ctl ∨
      (s.cpu c).who ≠ some p ∧
        (s.Thread p k ∨
          k = (s'.mem.proc p).context ∧ (s'.mem.proc p).context ≠ (s.mem.proc p).context) := by
  have hw : ∀ c', (s'.cpu c').who = (s.cpu c').who := by
    intro c'
    rw [hcpu, Function.update_apply]
    split_ifs with hc
    · rw [hwho, hc]
    · rfl
  rcases ht with ⟨c', hc', rfl⟩ | ⟨hoff, rfl⟩
  · rw [hw] at hc'
    by_cases hc : c' = c
    · subst hc
      exact .inl ⟨hc', by rw [hcpu, Function.update_self]⟩
    · refine .inr ⟨fun hp => hc (h.who_unique hc' hp), .inl (.inl ⟨c', hc', ?_⟩)⟩
      rw [hcpu, Function.update_of_ne hc]
  · have hoff' : ∀ c', (s.cpu c').who ≠ some p := fun c' => hw c' ▸ hoff c'
    refine .inr ⟨hoff' c, ?_⟩
    by_cases hctx : (s'.mem.proc p).context = (s.mem.proc p).context
    · exact .inl (.inr ⟨hoff', hctx⟩)
    · exact .inr ⟨rfl, hctx⟩

/-- The threads after a switch to a process that no CPU has. -/
theorem thread_dispatch [DecidableEq κ] {s s' : State κ N υ δ} {c : κ} {x : Cpu N υ} {p : Fin N}
    (h : Safe C s) {q : Fin N} {k : List (Instr N υ)} (ht : s'.Thread q k)
    (hfree : ∀ c', (s.cpu c').proc ≠ some p) (hwho : (s.cpu c).who = none)
    (hcpu : s'.cpu = (s.setCpu c x).cpu) (hx : x.who = some p)
    (hctl : x.ctl = (s.mem.proc p).context)
    (hctx : ∀ q, (s'.mem.proc q).context = (s.mem.proc q).context) : s.Thread q k := by
  have hother : ∀ c', c' ≠ c → s'.cpu c' = s.cpu c' := by
    intro c' hc
    rw [hcpu, State.setCpu_of_ne s hc]
  rcases ht with ⟨c', hc', rfl⟩ | ⟨hoff, rfl⟩
  · by_cases hc : c' = c
    · rw [hc, hcpu, State.setCpu_self] at hc' ⊢
      obtain rfl := Option.some_inj.1 (hx.symm.trans hc')
      exact .inr ⟨fun c' hc' => hfree c' ((h.cpu c').proc_of_who hc'), hctl⟩
    · rw [hother c' hc] at hc' ⊢
      exact .inl ⟨c', hc', rfl⟩
  · refine .inr ⟨fun c' hc' => ?_, hctx q⟩
    by_cases hc : c' = c
    · rw [hc, hwho] at hc'
      cases hc'
    · exact hoff c' (by rwa [hother c' hc])

/-- The threads after a switch from a process to the scheduler. -/
theorem thread_sched [DecidableEq κ] {s s' : State κ N υ δ} {c : κ} {x : Cpu N υ} {p : Fin N}
    {k : List (Instr N υ)} (h : Safe C s) {q : Fin N} {k₁ : List (Instr N υ)}
    (ht : s'.Thread q k₁) (hwho : (s.cpu c).who = some p) (hctl : (s.cpu c).ctl = .sched p :: k)
    (hcpu : s'.cpu = (s.setCpu c x).cpu) (hx : x.who = none)
    (hmem : s'.mem = s.mem.set p { s.mem.proc p with context := k }) :
    s.Thread q k₁ ∧ q ≠ p ∨ q = p ∧ k₁ = k := by
  have hother : ∀ c', c' ≠ c → s'.cpu c' = s.cpu c' := by
    intro c' hc
    rw [hcpu, State.setCpu_of_ne s hc]
  rcases ht with ⟨c', hc', rfl⟩ | ⟨hoff, rfl⟩
  · have hc : c' ≠ c := by
      rintro rfl
      rw [hcpu, State.setCpu_self, hx] at hc'
      cases hc'
    rw [hother c' hc] at hc' ⊢
    refine .inl ⟨.inl ⟨c', hc', rfl⟩, ?_⟩
    rintro rfl
    exact hc (h.who_unique hc' hwho)
  · rw [hmem, Mem.set_proc]
    split_ifs with hq
    · exact .inr ⟨hq, rfl⟩
    · refine .inl ⟨.inr ⟨fun c' hc' => ?_, rfl⟩, hq⟩
      by_cases hc : c' = c
      · rw [hc, hwho] at hc'
        exact hq (Option.some_inj.1 hc').symm
      · exact hoff c' (by rwa [hother c' hc])

namespace ForksOk

variable {s s' : State κ N υ δ}

/-- The forks stay in order when no thread gets a new pending slot. -/
theorem of_shrink (h : ForksOk s)
    (ht : ∀ p k', s'.Thread p k' → ∃ k, s.Thread p k ∧ (pending k').Sublist (pending k))
    (hs : ∀ p k' pp, s'.Thread p k' → pp ∈ pending k' → (s.mem.proc pp).state = .used →
      (s'.mem.proc pp).state = .used) : ForksOk s' where
  used p k' pp hk' hpp := by
    obtain ⟨k, hk, hsub⟩ := ht p k' hk'
    exact hs p k' pp hk' hpp (h.used p k pp hk (hsub.subset hpp))
  nodup p k' hk' := by
    obtain ⟨k, hk, hsub⟩ := ht p k' hk'
    exact (h.nodup p k hk).sublist hsub
  owner p p' k k' pp hk hk' hpp hpp' := by
    obtain ⟨k₁, hk₁, hsub₁⟩ := ht p k hk
    obtain ⟨k₂, hk₂, hsub₂⟩ := ht p' k' hk'
    exact h.owner p p' k₁ k₂ pp hk₁ hk₂ (hsub₁.subset hpp) (hsub₂.subset hpp')

/-- The forks stay in order when the process `q` takes a free slot `pp`. -/
theorem of_alloc (h : ForksOk s) {q pp : Fin N} (hpp : (s.mem.proc pp).state = .unused)
    (ht : ∀ p k', s'.Thread p k' → ∃ k, s.Thread p k ∧
      ((pending k').Sublist (pending k) ∨ p = q ∧ pending k' = pp :: pending k))
    (hs : ∀ j, (s'.mem.proc j).state = if j = pp then .used else (s.mem.proc j).state) :
    ForksOk s' := by
  have hfresh : ∀ p k, s.Thread p k → pp ∉ pending k := by
    intro p k hk hmem
    have := h.used p k pp hk hmem
    rw [hpp] at this
    cases this
  -- a thread of `s'` that has `pp` is `q`, and what else it has it had before
  have hold : ∀ p k', s'.Thread p k' → ∃ k, s.Thread p k ∧
      ∀ j ∈ pending k', j ∈ pending k ∨ j = pp ∧ p = q := by
    intro p k' hk'
    obtain ⟨k, hk, hsub | ⟨hp, heq⟩⟩ := ht p k' hk'
    · exact ⟨k, hk, fun j hj => .inl (hsub.subset hj)⟩
    · refine ⟨k, hk, fun j hj => ?_⟩
      rw [heq, List.mem_cons] at hj
      exact hj.elim (fun hj => .inr ⟨hj, hp⟩) .inl
  refine ⟨?_, ?_, ?_⟩
  · intro p k' j hk' hj
    obtain ⟨k, hk, hmem⟩ := hold p k' hk'
    rw [hs]
    split_ifs with hjpp
    · rfl
    · exact h.used p k j hk ((hmem j hj).resolve_right fun hq => hjpp hq.1)
  · intro p k' hk'
    obtain ⟨k, hk, hsub | ⟨-, heq⟩⟩ := ht p k' hk'
    · exact (h.nodup p k hk).sublist hsub
    · rw [heq]
      exact List.nodup_cons.2 ⟨hfresh p k hk, h.nodup p k hk⟩
  · intro p p' k₁ k₂ j hk₁ hk₂ hj₁ hj₂
    obtain ⟨k, hk, hmem⟩ := hold p k₁ hk₁
    obtain ⟨k', hk', hmem'⟩ := hold p' k₂ hk₂
    rcases hmem j hj₁ with h₁ | ⟨rfl, rfl⟩
    · rcases hmem' j hj₂ with h₂ | ⟨rfl, -⟩
      · exact h.owner p p' k k' j hk hk' h₁ h₂
      · exact absurd h₁ (hfresh p k hk)
    · rcases hmem' j hj₂ with h₂ | ⟨-, rfl⟩
      · exact absurd h₂ (hfresh p' k' hk')
      · rfl

end ForksOk

/-! ## The invariant is kept -/

namespace Safe

variable {s s' : State κ N υ δ} {c : κ}

/-- The process on a CPU through an instruction of that CPU: RUNNING, or leaving from now on. -/
theorem running_exec [NeZero N] (h : Safe C s) {i : Instr N υ} {k k' : List (Instr N υ)} {ok : Bool}
    {cpu0 : Bool} {m' : Mem N υ} {e : Event N} {p : Fin N} (hctl : (s.cpu c).ctl = i :: k)
    (he : exec C cpu0 (s.cpu c).proc ok s.mem i = some (m', k', e)) (hp : (s.cpu c).who = some p) :
    RunOk (m'.proc p).state p (k' ++ k) := by
  have hacc : ∀ q t, i ≠ .account q t := by
    rintro q t rfl
    cases he
  have hd := (h.cpu c).disc hctl hacc
  have hproc := (h.cpu c).proc_of_who hp
  have hst : (s.mem.proc p).state = .running := by
    have hrun := h.running c p hp
    rw [hctl] at hrun
    refine hrun.running_of_head ?_ ?_ <;> rintro rfl <;> cases he
  have hslot := exec_slotStep hd he p
  rw [hst] at hslot
  generalize (m'.proc p).state = b at hslot ⊢
  cases hslot with
  | same => exact .inl rfl
  | abort _ hi _ =>
    have hused := h.forks.used p _ p (.inl ⟨c, hp, hctl.symm⟩) (by simp [hi])
    rw [hst] at hused
    cases hused
  | start _ hi _ =>
    have hused := h.forks.used p _ p (.inl ⟨c, hp, hctl.symm⟩) (by simp [hi, Instr.pending])
    rw [hst] at hused
    cases hused
  | leave _ _ hi hk hb =>
    refine .inr ⟨?_, hb⟩
    subst hk
    rcases hi with rfl | ⟨chan, rfl⟩ | ⟨status, rfl⟩
    · obtain ⟨-, -, ⟨k', rfl⟩, -⟩ := hd
      exact .sched
    · obtain ⟨-, -, ⟨k', rfl⟩, -⟩ := hd
      exact .sched
    · obtain ⟨-, -, ⟨k', rfl⟩, -⟩ := hd
      exact .exiting

/-- Only a process has slots pending. -/
theorem who_of_pending (h : Safe C s) {i : Instr N υ} {k : List (Instr N υ)} {p : Fin N}
    (hctl : (s.cpu c).ctl = i :: k) (hacc : ∀ q t, i ≠ .account q t) (hi : p ∈ i.pending) :
    ∃ q, (s.cpu c).who = some q := by
  have hd := (h.cpu c).disc hctl hacc
  rw [(h.cpu c).who_eq_proc hctl hacc]
  refine Option.ne_none_iff_exists'.1 fun hnone => ?_
  rw [hnone] at hd
  cases i <;> simp_all [Instr.pending, Disc]

/-- A slot that an instruction makes runnable or frees is USED. -/
theorem used_of_pending [NeZero N] (h : Safe C s) {i : Instr N υ} {k k' : List (Instr N υ)}
    {ok cpu0 : Bool} {m' : Mem N υ} {e : Event N} {p : Fin N} (hctl : (s.cpu c).ctl = i :: k)
    (he : exec C cpu0 (s.cpu c).proc ok s.mem i = some (m', k', e)) (hi : p ∈ i.pending) :
    (s.mem.proc p).state = .used := by
  have hacc : ∀ q t, i ≠ .account q t := by
    rintro q t rfl
    cases he
  obtain ⟨q, hq⟩ := h.who_of_pending hctl hacc hi
  exact h.forks.used q _ p (.inl ⟨c, hq, hctl.symm⟩) (by simp [hi])

/-- The processes on the other CPUs are not touched. -/
theorem running_exec_other [NeZero N] (h : Safe C s) {i : Instr N υ} {k k' : List (Instr N υ)}
    {ok : Bool} {cpu0 : Bool} {m' : Mem N υ} {e : Event N} {p : Fin N} {c' : κ}
    (hctl : (s.cpu c).ctl = i :: k)
    (he : exec C cpu0 (s.cpu c).proc ok s.mem i = some (m', k', e)) (hc : c' ≠ c)
    (hp : (s.cpu c').who = some p) : (m'.proc p).state = (s.mem.proc p).state := by
  have hacc : ∀ q t, i ≠ .account q t := by
    rintro q t rfl
    cases he
  have hd := (h.cpu c).disc hctl hacc
  have hproc := (h.cpu c').proc_of_who hp
  obtain ⟨hne, hne'⟩ := h.state_of_who hp
  -- under its lock, only a RUNNING process is on another CPU
  have hrun : .proc p ∈ s.held c → (s.mem.proc p).state = .running := by
    intro hl
    by_contra hst
    exact hc (h.eq_of_held hl hst hproc)
  have hpend : p ∉ i.pending := by
    intro hi
    obtain ⟨q, hq⟩ := h.who_of_pending hctl hacc hi
    exact hne (h.forks.used q _ p (.inl ⟨c, hq, hctl.symm⟩) (by simp [hi]))
  have hslot := exec_slotStep hd he p
  generalize (s.mem.proc p).state = a at hslot hne hne' hrun
  generalize (m'.proc p).state = b at hslot ⊢
  cases hslot with
  | same => rfl
  | wake hl => cases hrun hl
  | alloc _ _ => exact absurd rfl hne'
  | reap hl _ => cases hrun hl
  | abort _ hi _ => exact absurd (by simp [hi]) hpend
  | start _ hi _ => exact absurd (by simp [hi, Instr.pending]) hpend
  | leave hmy _ _ _ _ => exact absurd (h.unique c' c p hproc hmy) hc

variable [DecidableEq κ]

/-- A step that changes the control and the locks of one CPU. -/
theorem of_ctl (h : Safe C s) {k : List (Instr N υ)} (hcpu : s'.cpu = (s.setCtl c k).cpu)
    (hmem : s'.mem = s.mem) (hheld : ∀ c', c' ≠ c → s'.held c' = s.held c')
    (hok : CpuOk C (s'.held c) { s.cpu c with ctl := k })
    (hrun : ∀ p, (s.cpu c).who = some p →
      RunOk (s.mem.proc p).state p (s.cpu c).ctl → RunOk (s.mem.proc p).state p k)
    (hpend : (pending k).Sublist (pending (s.cpu c).ctl)) : Safe C s' := by
  have hupd : s'.cpu = Function.update s.cpu c { s.cpu c with ctl := k } := hcpu
  refine ⟨fun c' => ?_, fun p => ?_, fun c₁ c₂ p h₁ h₂ => ?_, fun c' p hp => ?_, ?_⟩
  · by_cases hc : c' = c
    · subst hc
      rw [hupd, Function.update_self]
      exact hok
    · rw [hupd, Function.update_of_ne hc, hheld c' hc]
      exact h.cpu c'
  · rw [hmem]
    exact h.saved p
  · refine h.unique c₁ c₂ p ?_ ?_
    · rw [hupd, Function.update_apply] at h₁
      split_ifs at h₁ with hc
      exacts [hc ▸ h₁, h₁]
    · rw [hupd, Function.update_apply] at h₂
      split_ifs at h₂ with hc
      exacts [hc ▸ h₂, h₂]
  · rw [hupd, Function.update_apply] at hp ⊢
    rw [hmem]
    split_ifs at hp ⊢ with hc
    · exact hrun p hp (h.running c p hp)
    · exact h.running c' p hp
  · refine h.forks.of_shrink (fun p k' ht => ?_) fun p k' pp _ _ hpp => hmem ▸ hpp
    rcases thread_cases h ht hupd rfl with ⟨hp, rfl⟩ | ⟨-, ht | ⟨-, hne⟩⟩
    · exact ⟨_, .inl ⟨c, hp, rfl⟩, hpend⟩
    · exact ⟨k', ht, List.Sublist.refl _⟩
    · exact absurd (by rw [hmem]) hne

theorem acquire (h : Safe C s) {l : Lock N} {k : List (Instr N υ)}
    (hctl : (s.cpu c).ctl = .acquire l :: k) (hfree : s.holder l = none) :
    Safe C ((s.setCtl c k).setHolder l (some c)) := by
  have hheld := held_acquire (c := c) hfree k
  refine h.of_ctl rfl rfl (fun c' hc => by rw [hheld, if_neg hc]) ?_ (fun p _ hrun => ?_) ?_
  · rw [hheld, if_pos rfl]
    exact (h.cpu c).next hctl (by simp) And.right
  · rw [hctl] at hrun
    exact .inl (hrun.running_of_head (by simp) (by simp))
  · rw [hctl]
    exact List.Sublist.refl _

theorem release (h : Safe C s) {l : Lock N} {k : List (Instr N υ)}
    (hctl : (s.cpu c).ctl = .release l :: k) (hl : s.holder l = some c) :
    Safe C ((s.setCtl c k).setHolder l none) := by
  have hheld := held_release hl k
  refine h.of_ctl rfl rfl (fun c' hc => by rw [hheld, if_neg hc]) ?_ (fun p _ hrun => ?_) ?_
  · rw [hheld, if_pos rfl]
    exact (h.cpu c).next hctl (by simp) And.right
  · rw [hctl] at hrun
    refine hrun.imp_right fun ⟨hleave, hst⟩ => ⟨?_, hst⟩
    cases hleave with
    | exiting => exact .sched
  · rw [hctl]
    exact List.Sublist.refl _

/-- An interrupt comes when the CPU holds no lock, so its process is RUNNING. -/
theorem interrupt (h : Safe C s) (hheld : s.held c = ∅) {k : List (Instr N υ)}
    (hk : pending k = [])
    (hd : Disc C (s.cpu c).proc ∅ (s.cpu c).ctl → Disc C (s.cpu c).proc ∅ (k ++ (s.cpu c).ctl)) :
    Safe C (s.setCtl c (k ++ (s.cpu c).ctl)) := by
  refine h.of_ctl rfl rfl (fun c' _ => rfl) ?_ (fun p hp hrun => .inl ?_) ?_
  · have hok : CpuOk C ∅ (s.cpu c) := hheld ▸ h.cpu c
    exact hheld ▸ hok.intr hd
  · by_contra hst
    have hmem := (h.cpu c).held_of_leaving hp (hrun.running_or hst)
    rw [hheld] at hmem
    exact hmem
  · rw [pending_append, hk]
    exact List.Sublist.refl _

/-- A step of the client: its program points are no moment to leave the CPU. -/
theorem user (h : Safe C s) (hC : C.Disciplined) {p : Fin N} {u : υ} {k k' : List (Instr N υ)}
    {d : δ} (hctl : (s.cpu c).ctl = .user u :: k) (hproc : (s.cpu c).proc = some p)
    (hsem : C.sem p u s.user d k') : Safe C ((s.setCtl c (k' ++ k)).setUser d) := by
  have hpend : pending k' = [] := by
    refine List.flatMap_eq_nil_iff.2 fun i hi => ?_
    have hcall := hC.calls p u _ d k' hsem i hi
    cases i <;> first | rfl | exact hcall.elim
  refine h.of_ctl rfl rfl (fun c' _ => rfl) ?_ (fun q _ hrun => ?_) ?_
  · refine (h.cpu c).next hctl (by simp) fun hd => ?_
    obtain ⟨q, hq, hL⟩ := hd
    have hdisc := (hC.user p u _ d k' hsem).append k
    obtain rfl : p = q := Option.some_inj.1 (hproc.symm.trans hq)
    rw [hproc]
    exact hL ▸ hdisc
  · rw [hctl] at hrun
    exact .inl (hrun.running_of_head (by simp) (by simp))
  · rw [hctl, pending_append, hpend]
    exact List.Sublist.refl _

/-- The pending slots stay USED, and of one process, through an instruction. -/
theorem forks_exec [NeZero N] (h : Safe C s) {i : Instr N υ} {k k' : List (Instr N υ)} {ok : Bool}
    {cpu0 : Bool} {m' : Mem N υ} {e : Event N} (hctl : (s.cpu c).ctl = i :: k)
    (he : exec C cpu0 (s.cpu c).proc ok s.mem i = some (m', k', e))
    (hcpu : s'.cpu = (s.setCtl c (k' ++ k)).cpu) (hmem : s'.mem = m') : ForksOk s' := by
  subst hmem
  have hacc : ∀ q t, i ≠ .account q t := by
    rintro q t rfl
    cases he
  have hd := (h.cpu c).disc hctl hacc
  have hwho := (h.cpu c).who_eq_proc hctl hacc
  have hthread : ∀ q, (s.cpu c).who = some q → s.Thread q (i :: k) :=
    fun q hq => .inl ⟨c, hq, hctl.symm⟩
  -- a thread that is not the one that moved was there before
  have hcases : ∀ p k₁, s'.Thread p k₁ → (s.cpu c).who = some p ∧ k₁ = k' ++ k ∨
      (s.cpu c).who ≠ some p ∧ ∃ k₀, s.Thread p k₀ ∧ (pending k₁).Sublist (pending k₀) := by
    intro p k₁ ht
    rcases thread_cases h ht hcpu rfl with hme | ⟨hne, ht | ⟨rfl, hctx⟩⟩
    · exact .inl hme
    · exact .inr ⟨hne, k₁, ht, List.Sublist.refl _⟩
    · obtain ⟨k₀, hk₀⟩ := exists_thread s p
      refine .inr ⟨hne, k₀, hk₀, ?_⟩
      obtain ⟨heq, -⟩ := (exec_context he p).resolve_left hctx
      rw [heq]
      exact List.nil_sublist _
  by_cases halloc : ∃ p pp, i = .allocInit p pp ∧ pending k' = [pp] ∧
      (s.mem.proc pp).state = .unused ∧
        s'.mem = s.mem.set pp ((s.mem.proc pp).init (forkretCode C pp))
  · obtain ⟨p, pp, rfl, hpend, hpp, hmem⟩ := halloc
    have hp : (s.cpu c).who = some p := hwho.trans hd.1
    refine h.forks.of_alloc hpp (q := p) (fun q k₁ ht => ?_) fun j => ?_
    · rcases hcases q k₁ ht with ⟨hq, rfl⟩ | ⟨-, k₀, hk₀, hsub⟩
      · refine ⟨_, hthread q hq, .inr ⟨Option.some_inj.1 (hq.symm.trans hp), ?_⟩⟩
        rw [pending_append, hpend]
        rfl
      · exact ⟨k₀, hk₀, .inl hsub⟩
    · rw [hmem, Mem.set_proc]
      split_ifs <;> rfl
  · have hpend : (pending (k' ++ k)).Sublist (pending (i :: k)) := by
      rw [pending_append, pending_cons]
      refine List.Sublist.append ?_ (List.Sublist.refl _)
      rcases exec_pending he with heq | heq | heq
      · exact heq ▸ List.Sublist.refl _
      · rw [heq]
        exact List.nil_sublist _
      · exact absurd heq halloc
    -- the instruction frees a pending slot, or makes it runnable: nobody else has it
    have hgone : ∀ q k₁ pp, s'.Thread q k₁ → pp ∈ pending k₁ → i.pending = [pp] →
        pending k' = [] → False := by
      intro q k₁ pp ht hpp hi hk
      obtain ⟨r, hr⟩ := h.who_of_pending hctl hacc (p := pp) (by simp [hi])
      rcases hcases q k₁ ht with ⟨hq, rfl⟩ | ⟨hne, k₀, hk₀, hsub⟩
      · have hnodup := h.forks.nodup r _ (hthread r hr)
        rw [pending_cons, hi] at hnodup
        rw [pending_append, hk] at hpp
        exact (List.nodup_cons.1 hnodup).1 hpp
      · have heq := h.forks.owner r q _ k₀ pp (hthread r hr) hk₀ (by simp [hi]) (hsub.subset hpp)
        exact hne (heq ▸ hr)
    refine h.forks.of_shrink (fun q k₁ ht => ?_) fun q k₁ pp ht hpp hused => ?_
    · rcases hcases q k₁ ht with ⟨hq, rfl⟩ | ⟨-, hk₀⟩
      · exact ⟨_, hthread q hq, hpend⟩
      · exact hk₀
    · have hslot := exec_slotStep hd he pp
      rw [hused] at hslot
      generalize (s'.mem.proc pp).state = b at hslot ⊢
      cases hslot with
      | same => rfl
      | abort _ hi hk => exact (hgone q k₁ pp ht hpp hi hk).elim
      | start _ hi hk =>
        subst hk
        exact (hgone q k₁ pp ht hpp (by simp [hi, Instr.pending]) rfl).elim
      | leave hmy _ _ _ _ => exact absurd hused (h.state_of_who (hwho.trans hmy)).1

theorem exec [NeZero N] (h : Safe C s) (hC : C.Disciplined) {i : Instr N υ}
    {k k' : List (Instr N υ)} {ok : Bool} {cpu0 : Bool} {e : Event N}
    (hctl : (s.cpu c).ctl = i :: k)
    (he : exec C cpu0 (s.cpu c).proc ok s.mem i = some (s'.mem, k', e))
    (hcpu : s'.cpu = (s.setCtl c (k' ++ k)).cpu) (hheld : ∀ c', s'.held c' = s.held c') :
    Safe C s' := by
  have hacc : ∀ q t, i ≠ .account q t := by
    rintro q t rfl
    cases he
  have hself : s'.cpu c = { s.cpu c with ctl := k' ++ k } := by
    rw [hcpu, State.setCtl, State.setCpu_self]
  have hother : ∀ c', c' ≠ c → s'.cpu c' = s.cpu c' := by
    intro c' hc
    rw [hcpu, State.setCtl, State.setCpu_of_ne s hc]
  have hproc : ∀ c', (s'.cpu c').proc = (s.cpu c').proc := by
    intro c'
    by_cases hc : c' = c
    · rw [hc, hself]
    · rw [hother c' hc]
  refine ⟨fun c' => ?_, fun p => ?_, fun c₁ c₂ p h₁ h₂ => ?_, fun c' p hp => ?_,
    h.forks_exec hctl he hcpu rfl⟩
  · by_cases hc : c' = c
    · subst hc
      rw [hself, hheld]
      exact (h.cpu c').next hctl hacc fun hd => disc_exec hC hd he
    · rw [hother c' hc, hheld]
      exact h.cpu c'
  · rcases exec_context he p with hctx | ⟨hctx, -⟩
    · exact hctx ▸ h.saved p
    · refine hctx ▸ ⟨rfl, p, rfl, ?_⟩
      rw [hC.start, Set.sdiff_self]
  · rw [hproc] at h₁ h₂
    exact h.unique c₁ c₂ p h₁ h₂
  · by_cases hc : c' = c
    · subst hc
      rw [hself] at hp ⊢
      exact h.running_exec hctl he hp
    · rw [hother c' hc] at hp ⊢
      rw [h.running_exec_other hctl he hc hp]
      exact h.running c' p hp

/-- The scheduler switches to a process: nobody else has it. -/
theorem dispatch (h : Safe C s) {level : ℕ} {p : Fin N} {k : List (Instr N υ)}
    (hctl : (s.cpu c).ctl = .scanTest level p :: k) (hel : (s.mem.proc p).eligible level)
    (hcpu : s'.cpu = (s.setCpu c ⟨some p, (s.mem.proc p).context, some p,
      .account p (s.mem.proc p).totalTicks :: .release (.proc p) :: .aging 0 :: k⟩).cpu)
    (hmem : s'.mem = s.mem.set p (s.mem.proc p).run) (hheld : ∀ c', s'.held c' = s.held c') :
    Safe C s' := by
  obtain ⟨hnone, hL⟩ := (h.cpu c).disc hctl (by simp)
  have hwho := (h.cpu c).who_eq_proc hctl (by simp)
  rw [hnone] at hwho
  simp only [Proc.eligible, decide_eq_true_eq] at hel
  have hfree : ∀ c', (s.cpu c').proc ≠ some p := fun c' =>
    h.proc_ne_of_held hctl (by simp) (by simp) (by simp) (by simp [hL]) (by simp [hel.1])
  have hself : s'.cpu c = ⟨some p, (s.mem.proc p).context, some p,
      .account p (s.mem.proc p).totalTicks :: .release (.proc p) :: .aging 0 :: k⟩ := by
    rw [hcpu, State.setCpu_self]
  have hother : ∀ c', c' ≠ c → s'.cpu c' = s.cpu c' := by
    intro c' hc
    rw [hcpu, State.setCpu_of_ne s hc]
  have hctx : ∀ q, (s'.mem.proc q).context = (s.mem.proc q).context := by
    intro q
    rw [hmem, Mem.set_proc]
    split_ifs with hq
    exacts [hq ▸ rfl, rfl]
  have hst : ∀ q, q ≠ p → (s'.mem.proc q).state = (s.mem.proc q).state := by
    intro q hq
    rw [hmem, Mem.set_proc, if_neg hq]
  refine ⟨fun c' => ?_, fun q => hctx q ▸ h.saved q, fun c₁ c₂ q h₁ h₂ => ?_, fun c' q hq => ?_, ?_⟩
  · by_cases hc : c' = c
    · subst hc
      rw [hself, hheld, hL]
      exact .process (h.saved p)
    · rw [hother c' hc, hheld]
      exact h.cpu c'
  · by_cases hc₁ : c₁ = c <;> by_cases hc₂ : c₂ = c
    · rw [hc₁, hc₂]
    · rw [hc₁, hself] at h₁
      rw [hother c₂ hc₂] at h₂
      cases h₁
      exact absurd h₂ (hfree c₂)
    · rw [hother c₁ hc₁] at h₁
      rw [hc₂, hself] at h₂
      cases h₂
      exact absurd h₁ (hfree c₁)
    · rw [hother c₁ hc₁] at h₁
      rw [hother c₂ hc₂] at h₂
      exact h.unique c₁ c₂ q h₁ h₂
  · by_cases hc : c' = c
    · subst hc
      rw [hself] at hq
      cases hq
      left
      rw [hmem, Mem.set_proc, if_pos rfl]
      rfl
    · rw [hother c' hc] at hq ⊢
      rw [hst q fun heq => hfree c' ((h.cpu c').proc_of_who (heq ▸ hq))]
      exact h.running c' q hq
  · have hthread : ∀ q k₁, s'.Thread q k₁ → s.Thread q k₁ :=
      fun q k₁ ht => thread_dispatch h ht hfree hwho hcpu rfl rfl hctx
    refine h.forks.of_shrink (fun q k₁ ht => ⟨k₁, hthread q k₁ ht, List.Sublist.refl _⟩) ?_
    intro q k₁ pp _ _ hused
    rw [hst pp, hused]
    rintro rfl
    rw [hel.1] at hused
    cases hused

/-- The accounting is done, and the CPU has no process any more. -/
theorem account (h : Safe C s) {p : Fin N} {prev : ℤ} {k : List (Instr N υ)} {q : Proc N υ}
    (hctl : (s.cpu c).ctl = .account p prev :: k)
    (hst : q.state = (s.mem.proc p).state) (hctx : q.context = (s.mem.proc p).context)
    (hcpu : s'.cpu = (s.setCpu c ⟨(s.cpu c).who, k, none, (s.cpu c).context⟩).cpu)
    (hmem : s'.mem = s.mem.set p q) (hheld : ∀ c', s'.held c' = s.held c') : Safe C s' := by
  have hst' : ∀ j, (s'.mem.proc j).state = (s.mem.proc j).state := by
    intro j
    rw [hmem, Mem.set_proc]
    split_ifs with hj
    exacts [hj ▸ hst, rfl]
  have hctx' : ∀ j, (s'.mem.proc j).context = (s.mem.proc j).context := by
    intro j
    rw [hmem, Mem.set_proc]
    split_ifs with hj
    exacts [hj ▸ hctx, rfl]
  have hself : s'.cpu c = ⟨(s.cpu c).who, k, none, (s.cpu c).context⟩ := by
    rw [hcpu, State.setCpu_self]
  have hother : ∀ c', c' ≠ c → s'.cpu c' = s.cpu c' := by
    intro c' hc
    rw [hcpu, State.setCpu_of_ne s hc]
  have hproc : ∀ c' j, (s'.cpu c').proc = some j → (s.cpu c').proc = some j := by
    intro c' j hj
    by_cases hc : c' = c
    · rw [hc, hself] at hj
      cases hj
    · rwa [hother c' hc] at hj
  have hwho := h.who_of_account hctl
  obtain ⟨k', rfl, hL⟩ := h.ctl_of_account hctl
  refine ⟨fun c' => ?_, fun j => hctx' j ▸ h.saved j,
    fun c₁ c₂ j h₁ h₂ => h.unique c₁ c₂ j (hproc c₁ j h₁) (hproc c₂ j h₂), fun c' j hj => ?_, ?_⟩
  · by_cases hc : c' = c
    · subst hc
      rw [hself, hheld, hL, hwho]
      exact .scheduler ⟨rfl, rfl, by simp⟩
    · rw [hother c' hc, hheld]
      exact h.cpu c'
  · have hc : c' ≠ c := by
      rintro rfl
      rw [hself, hwho] at hj
      cases hj
    rw [hother c' hc] at hj ⊢
    rw [hst' j]
    exact h.running c' j hj
  · refine h.forks.of_shrink (fun j k₁ ht => ?_) fun j k₁ pp _ _ hused => (hst' pp).trans hused
    rcases thread_cases h ht hcpu rfl with ⟨hj, -⟩ | ⟨-, ht | ⟨-, hne⟩⟩
    · rw [hwho] at hj
      cases hj
    · exact ⟨k₁, ht, List.Sublist.refl _⟩
    · exact absurd (hctx' j) hne

/-- A process gives the CPU back to the scheduler. -/
theorem sched (h : Safe C s) {p : Fin N} {k : List (Instr N υ)}
    (hctl : (s.cpu c).ctl = .sched p :: k)
    (hcpu : s'.cpu = (s.setCpu c ⟨none, (s.cpu c).context, (s.cpu c).proc, (s.cpu c).context⟩).cpu)
    (hmem : s'.mem = s.mem.set p { s.mem.proc p with context := k })
    (hheld : ∀ c', s'.held c' = s.held c') : Safe C s' := by
  obtain ⟨hproc, hL, hd⟩ := (h.cpu c).disc hctl (by simp)
  have hwho := (h.cpu c).who_eq_proc hctl (by simp)
  rw [hproc] at hwho hd
  have hst : ∀ j, (s'.mem.proc j).state = (s.mem.proc j).state := by
    intro j
    rw [hmem, Mem.set_proc]
    split_ifs with hj
    exacts [hj ▸ rfl, rfl]
  have hself : s'.cpu c = ⟨none, (s.cpu c).context, (s.cpu c).proc, (s.cpu c).context⟩ := by
    rw [hcpu, State.setCpu_self]
  have hother : ∀ c', c' ≠ c → s'.cpu c' = s.cpu c' := by
    intro c' hc
    rw [hcpu, State.setCpu_of_ne s hc]
  have hproc' : ∀ c', (s'.cpu c').proc = (s.cpu c').proc := by
    intro c'
    by_cases hc : c' = c
    · rw [hc, hself]
    · rw [hother c' hc]
  refine ⟨fun c' => ?_, fun j => ?_, fun c₁ c₂ j h₁ h₂ => ?_, fun c' j hj => ?_, ?_⟩
  · by_cases hc : c' = c
    · subst hc
      have hok := h.cpu c'
      rw [hself, hheld, hL]
      rw [hL] at hok
      generalize s.cpu c' = x at hok hwho ⊢
      cases hok with
      | process =>
        cases hwho
        exact .back rfl
      | back => cases hwho
      | scheduler => cases hwho
    · rw [hother c' hc, hheld]
      exact h.cpu c'
  · rw [hmem, Mem.set_proc]
    split_ifs with hj
    · subst hj
      rwa [hL] at hd
    · exact h.saved j
  · rw [hproc'] at h₁ h₂
    exact h.unique c₁ c₂ j h₁ h₂
  · have hc : c' ≠ c := by
      rintro rfl
      rw [hself] at hj
      cases hj
    rw [hother c' hc] at hj ⊢
    rw [hst j]
    exact h.running c' j hj
  · refine h.forks.of_shrink (fun j k₁ ht => ?_) fun j k₁ pp _ _ hused => (hst pp).trans hused
    rcases thread_sched h ht hwho hctl hcpu rfl hmem with ⟨ht, -⟩ | ⟨rfl, rfl⟩
    · exact ⟨_, ht, List.Sublist.refl _⟩
    · exact ⟨_, .inl ⟨c, hwho, hctl.symm⟩, List.Sublist.refl _⟩

end Safe

theorem Proc.account_eq_some {p q : Proc N υ} {prev : ℤ} {b : Bool}
    (h : p.account prev = some (q, b)) :
    q.state = p.state ∧ q.context = p.context ∧ q.chan = p.chan := by
  unfold Proc.account at h
  obtain ⟨quantum, -, hq⟩ := Option.map_eq_some_iff.1 h
  split_ifs at hq <;> cases hq <;> exact ⟨rfl, rfl, rfl⟩

section Step

variable [DecidableEq κ] [NeZero N] {boot : κ} {start : δ → Prop}

omit [DecidableEq κ] in
theorem Boot.safe {s : State κ N υ δ} (hC : C.Disciplined) (h : Boot C s) : Safe C s := by
  have hheld : ∀ c, s.held c = ∅ := by
    intro c
    ext l
    simp [mem_held, h.holder l]
  have hctx : ∀ p, (s.mem.proc p).context = forkretCode C p := by
    intro p
    by_cases hp : p = 0
    · subst hp
      rw [h.initproc]
      rfl
    · rw [h.unused p hp]
      rfl
  have hoff : ∀ p k, s.Thread p k → pending k = [] := by
    rintro p k (⟨c, hc, -⟩ | ⟨-, rfl⟩)
    · rw [(h.cpu c).1] at hc
      cases hc
    · rw [hctx]
      rfl
  refine ⟨fun c => ?_, fun p => ?_, fun c c' p hp => ?_, fun c p hp => ?_, ?_, ?_, ?_⟩
  · obtain ⟨hwho, hctl, hproc⟩ := h.cpu c
    rw [hheld]
    generalize s.cpu c = x at hwho hctl hproc ⊢
    obtain ⟨who, ctl, proc, context⟩ := x
    cases hwho
    cases hctl
    cases hproc
    exact .scheduler ⟨rfl, rfl⟩
  · rw [hctx]
    refine ⟨rfl, p, rfl, ?_⟩
    rw [hC.start, Set.sdiff_self]
  · rw [(h.cpu c).2.2] at hp
    cases hp
  · rw [(h.cpu c).1] at hp
    cases hp
  · intro p k pp hk hpp
    rw [hoff p k hk] at hpp
    cases hpp
  · intro p k hk
    rw [hoff p k hk]
    exact List.nodup_nil
  · intro p p' k k' pp hk _ hpp
    rw [hoff p k hk] at hpp
    cases hpp

theorem Safe.step {s s' : State κ N υ δ} {e : κ × Event N} (hC : C.Disciplined) (h : Safe C s)
    (t : Step boot C s e s') : Safe C s' := by
  cases t with
  | acquire hctl hfree => exact h.acquire hctl hfree
  | release hctl hheld => exact h.release hctl hheld
  | exec hctl he => exact h.exec hC hctl he rfl fun _ => rfl
  | user hctl hproc hsem => exact h.user hC hctl hproc hsem
  | dispatch hctl hel => exact h.dispatch hctl hel rfl rfl fun _ => rfl
  | account hctl hq =>
    obtain ⟨hst, hctx, -⟩ := Proc.account_eq_some hq
    exact h.account hctl hst hctx rfl rfl fun _ => rfl
  | sched hctl _ _ => exact h.sched hctl rfl rfl fun _ => rfl
  | clock hheld _ =>
    refine h.interrupt (k := .clockintr :: trapCode (inUser C (s.cpu _).ctl) true) hheld ?_ ?_
    · rw [pending_cons, pending_trapCode]
      rfl
    · exact fun hd => ⟨rfl, disc_trapCode true hd⟩
  | device a chan hheld _ =>
    rw [← List.append_assoc]
    refine h.interrupt hheld ?_ fun hd => ?_
    · rw [pending_append, pending_trapCode]
      rfl
    · rw [List.append_assoc]
      simpa [devintrCode, Disc] using disc_trapCode false hd

/-- The invariant of the hand-off holds in every state that a run reaches. -/
theorem safe_of_reachable (hC : C.Disciplined) {s : State κ N υ δ}
    (hs : (kernel boot C start).Reachable s) : Safe C s := by
  refine LTS.Reachable.invariant (fun s h => ?_) (fun s e s' _ h t => ?_) hs
  · exact h.1.safe hC
  · exact h.step hC t

end Step

end Xv6.Kernel
