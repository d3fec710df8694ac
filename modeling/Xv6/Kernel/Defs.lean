import Mathlib.Algebra.Order.Ring.Int
import Mathlib.Data.Set.Basic

/-!
# The process table

The fields of `struct proc` that the scheduler, `sleep` and `wakeup`, `fork`, `exit`, `wait` and
the clock interrupt read and write, and what each of them does to one slot of `proc[]` while it
holds that slot's lock (`proc.c`, `trap.c`). The number `N` of slots is a parameter; the source
has `NPROC`.

A kernel thread's saved context is the rest of its code, a list of instructions (`Instr`). The
instructions are the source's functions and their loop points, cut at lock operations; their
meaning is given in `Xv6.Kernel.Machine`. A program running on this kernel (system call code that
takes other spinlocks, sleeps and wakes) is a parameter: `υ` is the type of its program points.

The 32-bit `int` fields are integers; every increment goes through `int32`.
-/

namespace Xv6

/-- `NPROC` of param.h. -/
def NPROC : ℕ := 64

instance : NeZero NPROC := ⟨by decide⟩

/-- A C `int`: the representative of `x` modulo `2 ^ 32` in `[-2 ^ 31, 2 ^ 31)`. -/
def int32 (x : ℤ) : ℤ := x.bmod (2 ^ 32)

theorem int32_of_mem {x : ℤ} (h₁ : -2 ^ 31 ≤ x) (h₂ : x < 2 ^ 31) : int32 x = x := by
  unfold int32
  rw [Int.bmod_eq_of_le] <;> omega

/-- Subtraction of `int`s undoes an addition, also when the addition wrapped. -/
theorem int32_int32_add_sub (x d : ℤ) : int32 (int32 (x + d) - x) = int32 d := by
  have hd : x + d - x = d := by omega
  rw [int32, int32, int32, Int.bmod_sub_bmod, hd]

namespace Kernel

/-- `enum procstate`. -/
inductive ProcState
  | unused | used | sleeping | runnable | running | zombie
  deriving DecidableEq, Repr

/-- A sleep channel: a `struct proc` (`kwait`), `&ticks`, or another address. `null` is the
channel of a process that is not in `sleep`. -/
inductive Chan (N : ℕ)
  | null
  | proc (p : Fin N)
  | ticks
  | addr (a : ℕ)
  deriving DecidableEq

/-- The spinlocks of proc.c and trap.c, and any other spinlock. -/
inductive Lock (N : ℕ)
  | proc (p : Fin N)
  | waitLock
  | pidLock
  | ticksLock
  | other (a : ℕ)
  deriving DecidableEq

/-- The instructions of a kernel thread. Those that stand for a whole function or for a loop
point of one (`p : ℕ` is then the loop's index into `proc[]`) are expanded by the machine. -/
inductive Instr (N : ℕ) (υ : Type)
  /-- `acquire(lk)` -/
  | acquire (lk : Lock N)
  /-- `release(lk)` -/
  | release (lk : Lock N)
  /-- `scheduler`: the scan of one level, before slot `p` -/
  | scan (level p : ℕ)
  /-- `scheduler`: the test of slot `p`, its lock held; if it succeeds, everything up to and with
  the `swtch` to `p` -/
  | scanTest (level : ℕ) (p : Fin N)
  /-- `scheduler`: back from `p` (`prevTotal` is the local `prev_total`) -/
  | account (p : Fin N) (prevTotal : ℤ)
  /-- `scheduler`: the aging pass, before slot `p` -/
  | aging (p : ℕ)
  /-- `scheduler`: the aging of slot `p`, its lock held -/
  | agingVisit (p : Fin N)
  /-- `yield()` -/
  | yield
  /-- `yield`: `p->state = RUNNABLE` -/
  | setRunnable (p : Fin N)
  /-- `sched()`, up to and with the `swtch` to the scheduler -/
  | sched (p : Fin N)
  /-- `sleep(chan, lk)` -/
  | sleep (chan : Chan N) (lk : Lock N)
  /-- `sleep`: `p->chan = chan; p->state = SLEEPING` -/
  | setSleeping (p : Fin N) (chan : Chan N)
  /-- `sleep`: `p->chan = 0` -/
  | clearChan (p : Fin N)
  /-- `wakeup(chan)`, before slot `p` -/
  | wakeup (chan : Chan N) (p : ℕ)
  /-- `wakeup`: slot `p`, its lock held -/
  | wakeupVisit (chan : Chan N) (p : Fin N)
  /-- `kkill(pid)`, before slot `p` -/
  | kkill (pid : ℤ) (p : ℕ)
  /-- `kkill`: slot `p`, its lock held -/
  | kkillVisit (pid : ℤ) (p : Fin N)
  /-- `setkilled(myproc())` -/
  | setkilled
  /-- `setkilled`: `p->killed = 1` -/
  | setkilledVisit (p : Fin N)
  /-- `killed(myproc())`: go on at `yes` or at `no` -/
  | killed (yes no : υ)
  /-- `killed`: read `p->killed` -/
  | killedRead (p : Fin N) (yes no : υ)
  /-- `kexit(status)`, from `acquire(&wait_lock)` on -/
  | kexit (status : ℤ)
  /-- `reparent(p)`, before slot `pp` -/
  | reparent (p : Fin N) (pp : ℕ)
  /-- `kexit`: `wakeup(p->parent)` -/
  | wakeupParent (p : Fin N)
  /-- `kexit`: `p->xstate = status; p->state = ZOMBIE` -/
  | setZombie (p : Fin N) (status : ℤ)
  /-- `kexit`: `panic("zombie exit")` -/
  | zombieExit
  /-- `kwait(addr)` -/
  | kwait
  /-- `kwait`: the scan for children, before slot `pp` -/
  | kwaitScan (p : Fin N) (pp : ℕ) (havekids : Bool)
  /-- `kwait`: the child `pp`, its lock held -/
  | kwaitVisit (p pp : Fin N)
  /-- `kwait`: read `p->killed`, then sleep or give up -/
  | kwaitKilled (p : Fin N)
  /-- `kfork()` -/
  | kfork
  /-- `allocproc()` called by `kfork` of `p`, before slot `pp` -/
  | allocproc (p : Fin N) (pp : ℕ)
  /-- `allocproc`: the test of slot `pp`, its lock held -/
  | allocTest (p pp : Fin N)
  /-- `allocpid()` for slot `pp`, `pid_lock` held -/
  | allocpid (pp : Fin N)
  /-- `allocproc`: `p->state = USED`, the pages, the context and the MLFQ fields of slot `pp` -/
  | allocInit (p pp : Fin N)
  /-- `kfork`: `uvmcopy` and the rest up to `release(&np->lock)` -/
  | forkCopy (p pp : Fin N)
  /-- `kfork`: `np->parent = p` -/
  | setParent (p pp : Fin N)
  /-- `kfork`: `np->state = RUNNABLE` -/
  | forkRunnable (pp : Fin N)
  /-- `clockintr()` -/
  | clockintr
  /-- `clockintr`: `ticks++` -/
  | tick
  /-- `clockintr`: charge the tick to the current process -/
  | charge
  /-- the end of `kerneltrap` after a timer interrupt -/
  | kerneltrap
  /-- the end of `usertrap` after an interrupt, of the timer or of a device -/
  | usertrap (timer : Bool)
  /-- `usertrap`: the `killed(p)` test before `yield`, the lock of `p` held -/
  | trapKilled (p : Fin N) (timer : Bool)
  /-- return from the trap: interrupts are off in the code above it -/
  | trapRet
  /-- a program point of the code that runs on this kernel -/
  | user (u : υ)

/-- `struct proc`. `context` is the saved control of the process's kernel thread. -/
structure Proc (N : ℕ) (υ : Type) where
  state : ProcState
  chan : Chan N
  killed : Bool
  xstate : ℤ
  pid : ℤ
  parent : Option (Fin N)
  queueLevel : ℤ
  qTicks : ℤ
  waitTime : ℤ
  nRun : ℤ
  totalTicks : ℤ
  context : List (Instr N υ)

variable {N : ℕ} {υ : Type}

/-! ## What the scheduler does to a slot -/

/-- `MLFQ_LEVELS` -/
def mlfqLevels : ℤ := 3

/-- `AGING_THRESHOLD` -/
def agingThreshold : ℤ := 200

/-- `mlfq_quantum[level]`; `none` when the index is out of range. -/
def mlfqQuantum (level : ℤ) : Option ℤ :=
  if level < 0 then none else [1, 2, 4][level.toNat]?

/-- The test of the scan: `p->state == RUNNABLE && p->queue_level == level`. -/
def Proc.eligible (p : Proc N υ) (level : ℕ) : Bool :=
  p.state = .runnable ∧ p.queueLevel = level

/-- The chosen process starts to run. -/
def Proc.run (p : Proc N υ) : Proc N υ :=
  { p with state := .running, nRun := int32 (p.nRun + 1) }

/-- `int used = chosen->total_ticks - prev_total; if(used < 0) used = 0;` -/
def Proc.used (p : Proc N υ) (prevTotal : ℤ) : ℤ :=
  let used := int32 (p.totalTicks - prevTotal)
  if used < 0 then 0 else used

/-- The scheduler is back from a process: charge the quantum, demote if it is exhausted, reset the
waiting time. The flag tells whether the quantum expired; `none` is a read of `mlfq_quantum` out of
range. -/
def Proc.account (p : Proc N υ) (prevTotal : ℤ) : Option (Proc N υ × Bool) :=
  let qTicks := int32 (p.qTicks + p.used prevTotal)
  (mlfqQuantum p.queueLevel).map fun quantum =>
    if qTicks ≥ quantum then
      ({ p with
          queueLevel := if p.queueLevel < mlfqLevels - 1 then p.queueLevel + 1 else p.queueLevel
          qTicks := 0
          waitTime := 0 }, true)
    else ({ p with qTicks := qTicks, waitTime := 0 }, false)

/-- The aging pass promotes this process. -/
def Proc.promotes (p : Proc N υ) : Bool :=
  p.state = .runnable ∧ int32 (p.waitTime + 1) ≥ agingThreshold ∧ p.queueLevel > 0

/-- The visit of the aging pass. -/
def Proc.age (p : Proc N υ) : Proc N υ :=
  if p.state = .runnable then
    if int32 (p.waitTime + 1) ≥ agingThreshold ∧ p.queueLevel > 0 then
      { p with queueLevel := p.queueLevel - 1, qTicks := 0, waitTime := 0 }
    else { p with waitTime := int32 (p.waitTime + 1) }
  else { p with waitTime := 0 }

/-- `clockintr` charges a tick to the current process `p`. -/
def Proc.chargeTick (p : Proc N υ) : Proc N υ :=
  { p with totalTicks := int32 (p.totalTicks + 1), waitTime := 0 }

/-! ## Sleeping, waking, killing -/

/-- `p->state == SLEEPING && p->chan == chan` -/
def Proc.sleepsOn (p : Proc N υ) (chan : Chan N) : Bool :=
  p.state = .sleeping ∧ p.chan = chan

/-- The visit of `wakeup(chan)`. -/
def Proc.wake (p : Proc N υ) (chan : Chan N) : Proc N υ :=
  if p.sleepsOn chan then { p with state := .runnable, qTicks := 0, waitTime := 0 } else p

/-- The visit of `kkill` of a slot with the pid it looks for. -/
def Proc.kill (p : Proc N υ) : Proc N υ :=
  { p with killed := true, state := if p.state = .sleeping then .runnable else p.state }

/-! ## Allocating and freeing a slot -/

/-- `freeproc(p)`. Its pages are not modelled. -/
def Proc.free (p : Proc N υ) : Proc N υ :=
  { p with
    pid := 0
    parent := none
    chan := .null
    killed := false
    xstate := 0
    state := .unused }

/-- The state, the context and the MLFQ fields that `allocproc` sets; `k` is the code from `forkret`
on. -/
def Proc.init (p : Proc N υ) (k : List (Instr N υ)) : Proc N υ :=
  { p with
    state := .used
    context := k
    queueLevel := 0
    qTicks := 0
    waitTime := 0
    nRun := 0
    totalTicks := 0 }

end Kernel

end Xv6
