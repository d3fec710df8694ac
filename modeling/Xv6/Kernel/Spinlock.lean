import Mathlib.Data.List.Nodup
import Mathlib.Tactic.Common
import Xv6.Foundations.Transition
import Xv6.Kernel.Defs

/-!
# Spinlocks and interrupts

`spinlock.c` on any number of CPUs, under the threads that use it: each CPU has a scheduler, and
runs it or one process. `acquire` and `release` are split where another CPU can see the difference;
between their steps, as everywhere, other CPUs go on and interrupts arrive. `sched` and `scheduler`
are in the model as far as they move a thread, with its `noff` and `intena`, from one CPU to
another, and look at `p->state`.

A thread of the model also carries what it has done so far: the locks that it has acquired and not
released, the number of its calls of `push_off` without a `pop_off`, whether interrupts were on
at the outermost of them, and whether it has changed its `p->state` since it got the CPU. `Enabled`
says what threads may do: release what they have acquired, write `p->state` with `p->lock` (that of
another process only if it is not RUNNING), and call `sched` with `p->lock` only and after a change
of their own state, which they do not let go before. `exec` is the code, with its panics.
-/

namespace Xv6.Spinlock

open Kernel (ProcState)

/-- The panics of `spinlock.c`, and of `sched`. -/
inductive Panic
  | acquire
  | release
  | popOffInterruptible
  | popOff
  | schedLock
  | schedLocks
  | schedRunning
  | schedInterruptible
  deriving DecidableEq

/-- The fields of `struct cpu` for `push_off`, and the interrupt enable bit of `sstatus`. -/
structure Cpu where
  noff : ℕ
  intena : Bool
  intr : Bool
  deriving DecidableEq

/-- `push_off` -/
def Cpu.pushOff (c : Cpu) : Cpu where
  noff := c.noff + 1
  intena := if c.noff = 0 then c.intr else c.intena
  intr := false

/-- `pop_off` -/
def Cpu.popOff (c : Cpu) : Except Panic Cpu :=
  if c.intr then .error .popOffInterruptible
  else if c.noff < 1 then .error .popOff
  else
    let c := { c with noff := c.noff - 1 }
    .ok (if c.noff = 0 ∧ c.intena then { c with intr := true } else c)

/-- `struct spinlock` -/
structure Lock (C : Type) where
  locked : Bool
  cpu : Option C

variable {C K L : Type} [DecidableEq C] [DecidableEq K] [DecidableEq L]

/-- `holding` -/
def Lock.holding (lk : Lock C) (c : C) : Bool := lk.locked && decide (lk.cpu = some c)

/-- Where a thread is. -/
inductive Pc (L : Type)
  /-- Neither in `acquire` or `release`, nor in `sched`. -/
  | run
  /-- In `acquire`, after `push_off`. -/
  | acquires (l : L)
  /-- In the loop of `acquire`. -/
  | spins (l : L)
  /-- In `acquire`, with the lock, before `lk->cpu = mycpu()`. -/
  | records (l : L)
  /-- In `release`, after `lk->cpu = 0`. -/
  | clears (l : L)
  /-- In `release`, before `pop_off`. -/
  | pops
  /-- In `sched`, in `swtch` or right after it. -/
  | resumes
  /-- A new process, before `forkret`. -/
  | starts
  deriving DecidableEq

/-- A kernel thread. -/
structure Thread (L : Type) where
  pc : Pc L
  /-- The local variable of `sched`. -/
  intena : Bool
  /-- The interrupts that it is handling. -/
  traps : ℕ
  /-- The locks that it has acquired, and not released. -/
  held : List L
  /-- How often it has called `push_off` without a `pop_off`. -/
  depth : ℕ
  /-- Whether interrupts were on when it called the outermost `push_off`. -/
  base : Bool
  /-- Whether it has changed its own `p->state` since it got the CPU. -/
  changed : Bool

/-- The CPUs, the locks and the threads. -/
structure State (C K L : Type) where
  cpu : C → Cpu
  lock : L → Lock C
  /-- `c->proc` -/
  proc : C → Option K
  /-- `p->state` -/
  state : K → ProcState
  thread : K → Thread L
  scheduler : C → Thread L

/-- What a thread does next. -/
inductive Act (K L : Type)
  | pushOff
  | popOff
  | acquire (l : L)
  | release (l : L)
  /-- The next step in `acquire`, `release` or `sched`. -/
  | advance
  /-- `intr_on` or `intr_off` -/
  | intr (on : Bool)
  /-- An interrupt. -/
  | trap
  /-- The end of `kernelvec`. -/
  | sret
  /-- `p->state = st` -/
  | setState (k : K) (st : ProcState)
  | sched
  /-- `scheduler` calls `swtch`. -/
  | dispatch (k : K)
  /-- `allocproc` -/
  | spawn (k : K)

namespace State

variable (s : State C K L) (c : C)

/-- The thread that runs on `c`. -/
def current : Thread L :=
  match s.proc c with
  | some k => s.thread k
  | none => s.scheduler c

/-- Write the fields of a CPU and of its thread. -/
def set (cpu : Cpu) (t : Thread L) : State C K L :=
  match s.proc c with
  | some k => { s with
      cpu := Function.update s.cpu c cpu, thread := Function.update s.thread k t }
  | none => { s with
      cpu := Function.update s.cpu c cpu, scheduler := Function.update s.scheduler c t }

def setLock (l : L) (lk : Lock C) : State C K L := { s with lock := Function.update s.lock l lk }

/-- `push_off`, and what the thread does next. -/
def pushOff (pc : Pc L) : State C K L :=
  let t := s.current c
  s.set c (s.cpu c).pushOff
    { t with
      pc := pc
      depth := t.depth + 1
      base := if t.depth = 0 then (s.cpu c).intr else t.base }

/-- `pop_off`, as the last thing of `release` too. -/
def popOff : Except Panic (State C K L) := do
  let t := s.current c
  let cpu ← (s.cpu c).popOff
  return s.set c cpu { t with pc := .run, depth := t.depth - 1 }

/-- `acquire`, `release` and `sched`, step by step. -/
def advance : Except Panic (State C K L) :=
  let t := s.current c
  match t.pc with
  | .run => .ok s
  | .acquires l =>
    if (s.lock l).holding c then .error .acquire
    else .ok (s.set c (s.cpu c) { t with pc := .spins l })
  | .spins l =>
    -- `__sync_lock_test_and_set`
    if (s.lock l).locked then .ok s
    else .ok ((s.set c (s.cpu c) { t with pc := .records l, held := l :: t.held }).setLock l
      { s.lock l with locked := true })
  | .records l =>
    .ok ((s.set c (s.cpu c) { t with pc := .run }).setLock l { s.lock l with cpu := some c })
  | .clears l =>
    .ok ((s.set c (s.cpu c) { t with pc := .pops, held := t.held.erase l }).setLock l
      { s.lock l with locked := false })
  | .pops => s.popOff c
  | .resumes => .ok (s.set c { s.cpu c with intena := t.intena } { t with pc := .run })
  | .starts => .ok (s.set c (s.cpu c) { t with pc := .run, base := (s.cpu c).intena })

/-- `release`, up to `lk->cpu = 0`. -/
def release (l : L) : Except Panic (State C K L) :=
  if (s.lock l).holding c then
    .ok ((s.set c (s.cpu c) { s.current c with pc := .clears l }).setLock l
      { s.lock l with cpu := none })
  else .error .release

/-- `p->state = st` of the process `k`. -/
def setState (k : K) (st : ProcState) : State C K L :=
  let t := s.current c
  { s.set c (s.cpu c) { t with changed := t.changed || decide (s.proc c = some k) } with
    state := Function.update s.state k st }

/-- `swtch` in `sched`, back to the scheduler, which gets the lock of the process. -/
def leave (lockOf : K → L) (k : K) : State C K L :=
  { s with
    proc := Function.update s.proc c none
    thread := Function.update s.thread k
      { s.thread k with pc := .resumes, intena := (s.cpu c).intena, changed := false }
    scheduler := Function.update s.scheduler c { s.scheduler c with held := [lockOf k] } }

/-- `sched` up to `swtch`. -/
def sched (lockOf : K → L) (k : K) : Except Panic (State C K L) :=
  if (s.lock (lockOf k)).holding c then
    if (s.cpu c).noff = 1 then
      if s.state k = .running then .error .schedRunning
      else if (s.cpu c).intr then .error .schedInterruptible
      else .ok (s.leave c lockOf k)
    else .error .schedLocks
  else .error .schedLock

/-- `scheduler` runs the process, whose lock it has. -/
def dispatch (k : K) : State C K L :=
  { s with
    state := Function.update s.state k .running
    proc := Function.update s.proc c (some k)
    scheduler := Function.update s.scheduler c { s.scheduler c with held := [] } }

/-- A new process with this number. -/
def spawn (lockOf : K → L) (k : K) : State C K L :=
  { s with
    state := Function.update s.state k .used
    thread := Function.update s.thread k
      { pc := .starts, intena := false, traps := 0, held := [lockOf k], depth := 1, base := false
        changed := false } }

/-- What the thread on `c` does. -/
def exec (lockOf : K → L) : Act K L → Except Panic (State C K L)
  | .pushOff => .ok (s.pushOff c .run)
  | .popOff => s.popOff c
  | .acquire l => .ok (s.pushOff c (.acquires l))
  | .release l => s.release c l
  | .advance => s.advance c
  | .intr on => .ok (s.set c { s.cpu c with intr := on } (s.current c))
  | .trap =>
    .ok (s.set c { s.cpu c with intr := false }
      { s.current c with traps := (s.current c).traps + 1 })
  | .sret =>
    .ok (s.set c { s.cpu c with intr := true }
      { s.current c with traps := (s.current c).traps - 1 })
  | .setState k st => .ok (s.setState c k st)
  | .sched =>
    match s.proc c with
    | some k => s.sched c lockOf k
    | none => .ok s
  | .dispatch k => .ok (s.dispatch c k)
  | .spawn k => .ok (s.spawn lockOf k)

/-- What the thread on `c` may do. -/
def Enabled (lockOf : K → L) : Act K L → Prop
  | .pushOff => (s.current c).pc = .run
  | .popOff => (s.current c).pc = .run ∧ (s.current c).held.length < (s.current c).depth
  | .acquire l => (s.current c).pc = .run ∧ l ∉ (s.current c).held
  | .release l => (s.current c).pc = .run ∧ l ∈ (s.current c).held ∧
      ((s.current c).changed = true → (s.proc c).map lockOf ≠ some l)
  | .advance => (s.current c).pc ≠ .run
  | .intr _ => (s.current c).pc = .run ∧ (s.current c).depth = 0
  | .trap => (s.cpu c).intr = true
  | .sret => (s.current c).pc = .run ∧ (s.current c).depth = 0 ∧ 0 < (s.current c).traps
  | .setState k st => (s.current c).pc = .run ∧ lockOf k ∈ (s.current c).held ∧ st ≠ .running ∧
      if s.proc c = some k then st ≠ .unused else s.state k ≠ .running
  | .sched => ∃ k, s.proc c = some k ∧ (s.current c).pc = .run ∧
      (s.current c).held = [lockOf k] ∧ (s.current c).depth = 1 ∧ (s.current c).changed = true
  | .dispatch k => s.proc c = none ∧ (s.current c).pc = .run ∧
      (s.current c).held = [lockOf k] ∧ (s.current c).depth = 1 ∧ s.state k = .runnable
  | .spawn k => (s.current c).pc = .run ∧ lockOf k ∈ (s.current c).held ∧ s.state k = .unused

end State

/-- A scheduler before its first step, with nothing acquired. -/
def Thread.idle : Thread L :=
  { pc := .run, intena := false, traps := 0, held := [], depth := 0, base := false
    changed := false }

/-- The CPUs with their threads, from the start of the schedulers on: no lock is held, no process is
RUNNING, and processes start when a scheduler runs them. -/
def system (lockOf : K → L) : LTS (State C K L) (C × Act K L) where
  init s := (∀ c, (s.cpu c).noff = 0 ∧ s.proc c = none ∧ s.scheduler c = .idle) ∧
    (∀ l, s.lock l = { locked := false, cpu := none }) ∧
    ∀ k, s.state k ≠ .running ∧ (s.thread k).pc = .starts ∧ (s.thread k).held = [lockOf k] ∧
      (s.thread k).depth = 1 ∧ (s.thread k).changed = false
  step s e s' := s.Enabled e.1 lockOf e.2 ∧ s.exec e.1 lockOf e.2 = .ok s'

end Xv6.Spinlock
