import Xv6.Foundations.Transition
import Xv6.Kernel.Defs
import Mathlib.Logic.Function.Basic
import Mathlib.Data.Set.Insert

/-!
# The multiprocessor kernel

CPUs run kernel threads: each CPU its scheduler's thread, or the kernel thread of a process. The
control of a thread is the list of instructions still to do; `swtch` saves it in a `context` and
loads another. One step of the machine is one instruction of one CPU, so that the CPUs interleave
between any two lock operations:

* `acquire` waits until the lock is free, and `release` frees it; a lock remembers the CPU that
  took it (`lk->cpu`);
* `exec` is the code of the kernel's functions between lock operations: it changes the table, and
  puts the code that comes next in front of the thread's control;
* `dispatch` and `sched` are the two calls of `swtch`;
* interrupts push the code of a handler on the current thread, whatever it is, when the CPU holds
  no lock and is not in a trap already.

What the processes do besides is a parameter, the `Client`: at a program point `u` a process may
change the data `δ` it shares with the others and go on with any kernel code that `Client.sem`
allows. A panic ends a run: the machine has no step there.
-/

namespace Xv6.Kernel

variable {κ : Type} {N : ℕ} {υ δ : Type}

/-- The code that runs on the kernel. -/
structure Client (N : ℕ) (υ δ : Type) where
  /-- Where a new process begins, once `forkret` has released its lock. -/
  start : υ
  /-- Where `usertrap` goes for a killed process: `kexit(-1)`, which first closes its files. -/
  killed : υ
  /-- The program points in user space. -/
  inUser : υ → Bool
  /-- `sem p u d d' k`: at the program point `u` and with the data `d`, the process `p` may change
  the data to `d'` and go on with `k`. -/
  sem : Fin N → υ → δ → δ → List (Instr N υ) → Prop
  /-- The spinlocks that `p` holds at a program point. -/
  locks : Fin N → υ → Set (Lock N)

/-- The process table, `nextpid` and `ticks`. -/
structure Mem (N : ℕ) (υ : Type) where
  proc : Fin N → Proc N υ
  nextpid : ℤ
  ticks : UInt32

/-- What a step shows. -/
inductive Event (N : ℕ)
  /-- nothing of interest -/
  | tau
  /-- the scheduler chose `p` -/
  | dispatch (p : Fin N)
  /-- `p` used up its quantum at `level` -/
  | expire (p : Fin N) (level : ℤ)
  /-- `p` came back with its quantum not used up -/
  | unexpired (p : Fin N)
  /-- the aging pass found `p` waiting and did not promote it -/
  | age (p : Fin N)
  /-- the aging pass promoted `p` -/
  | promote (p : Fin N)
  /-- `wakeup` made `p` runnable -/
  | wake (p : Fin N)
  /-- `kkill` found `p` -/
  | kill (p : Fin N)
  /-- `setkilled(p)` -/
  | setkilled (p : Fin N)
  /-- `allocpid` gave `pid` to slot `p` -/
  | allocpid (p : Fin N) (pid : ℤ)
  /-- `allocproc` initialised slot `p` -/
  | alloc (p : Fin N)
  /-- `p` exited with a status -/
  | exit (p : Fin N) (pid status : ℤ)
  /-- `p` calls `kwait` -/
  | wait (p : Fin N)
  /-- `kwait` of `p` returns -1 -/
  | waitFailed (p : Fin N)
  /-- `kwait` of `p` frees its child `pp`, returns `pid` and copies `xstate` out -/
  | reap (p pp : Fin N) (pid xstate : ℤ)
  /-- a clock tick was charged to `p` -/
  | tick (p : Fin N)
  deriving DecidableEq

/-- A CPU: the thread it runs (`none`: its scheduler), the control of that thread, and the fields
`proc` and `context` of `struct cpu`. -/
structure Cpu (N : ℕ) (υ : Type) where
  who : Option (Fin N)
  ctl : List (Instr N υ)
  proc : Option (Fin N)
  context : List (Instr N υ)

/-- A state of the machine; `holder l` is the CPU that holds the spinlock `l`. -/
structure State (κ : Type) (N : ℕ) (υ δ : Type) where
  cpu : κ → Cpu N υ
  mem : Mem N υ
  holder : Lock N → Option κ
  user : δ

/-- The table with the slot `p` changed to `q`. -/
def Mem.set (m : Mem N υ) (p : Fin N) (q : Proc N υ) : Mem N υ :=
  { m with proc := Function.update m.proc p q }

/-! ## The code of the functions -/

/-- `yield()` -/
def yieldCode (p : Fin N) : List (Instr N υ) :=
  [.acquire (.proc p), .setRunnable p, .sched p, .release (.proc p)]

/-- `sleep(chan, lk)` -/
def sleepCode (p : Fin N) (chan : Chan N) (lk : Lock N) : List (Instr N υ) :=
  [.acquire (.proc p), .release lk, .setSleeping p chan, .sched p, .clearChan p,
    .release (.proc p), .acquire lk]

/-- One round of the loop of `wakeup(chan)` and the rest of the loop; `my` is `myproc()`. -/
def wakeupCode (my : Option (Fin N)) (chan : Chan N) (p : ℕ) : List (Instr N υ) :=
  if h : p < N then
    if my = some ⟨p, h⟩ then [.wakeup chan (p + 1)]
    else [.acquire (.proc ⟨p, h⟩), .wakeupVisit chan ⟨p, h⟩, .release (.proc ⟨p, h⟩),
      .wakeup chan (p + 1)]
  else []

/-- `kexit(status)` from `acquire(&wait_lock)` on. -/
def kexitCode (p : Fin N) (status : ℤ) : List (Instr N υ) :=
  [.acquire .waitLock, .reparent p 0, .wakeupParent p, .acquire (.proc p), .setZombie p status,
    .release .waitLock, .sched p, .zombieExit]

/-- `kfork()` after the child's memory has been copied. -/
def forkCode (p pp : Fin N) : List (Instr N υ) :=
  [.release (.proc pp), .acquire .waitLock, .setParent p pp, .release .waitLock,
    .acquire (.proc pp), .forkRunnable pp, .release (.proc pp)]

/-- `clockintr()`; the global tick count is CPU 0's business. -/
def clockintrCode (cpu0 : Bool) : List (Instr N υ) :=
  if cpu0 then [.acquire .ticksLock, .tick, .wakeup .ticks 0, .release .ticksLock, .charge]
  else [.charge]

/-- The interrupt of a device: its handler wakes up a channel while it holds the device's lock. -/
def devintrCode (a : ℕ) (chan : Chan N) : List (Instr N υ) :=
  [.acquire (.other a), .wakeup chan 0, .release (.other a)]

/-- The thread is in user space. -/
def inUser (C : Client N υ δ) : List (Instr N υ) → Bool
  | .user u :: _ => C.inUser u
  | _ => false

/-- The end of a trap, after the handler of an interrupt. -/
def trapCode (user timer : Bool) : List (Instr N υ) :=
  if user then [.usertrap timer, .trapRet] else if timer then [.kerneltrap, .trapRet] else [.trapRet]

/-- `forkret()`: a new process begins here, on the lock that the scheduler took. -/
def forkretCode (C : Client N υ δ) (p : Fin N) : List (Instr N υ) :=
  [.release (.proc p), .user C.start]

/-! ## The instructions between lock operations -/

/-- `exec C cpu0 my ok m i`: the instruction `i` run on a CPU with `myproc() = my`. The result is
the table after it, the code that comes next, and what the step shows; `none` is a panic, or an
instruction that is a step of its own. `ok` resolves what the model leaves open: whether an
allocation or a copy succeeds. -/
def exec [NeZero N] (C : Client N υ δ) (cpu0 : Bool) (my : Option (Fin N)) (ok : Bool)
    (m : Mem N υ) : Instr N υ → Option (Mem N υ × List (Instr N υ) × Event N)
  -- scheduler
  | .scan level p =>
    if h : p < N then
      some (m, [.acquire (.proc ⟨p, h⟩), .scanTest level ⟨p, h⟩], .tau)
    else if (level + 1 : ℤ) < mlfqLevels then some (m, [.scan (level + 1) 0], .tau)
    else some (m, [.aging 0], .tau)
  | .scanTest level p =>
    if (m.proc p).eligible level then none
    else some (m, [.release (.proc p), .scan level (p + 1)], .tau)
  | .aging p =>
    if h : p < N then
      some (m, [.acquire (.proc ⟨p, h⟩), .agingVisit ⟨p, h⟩, .release (.proc ⟨p, h⟩),
        .aging (p + 1)], .tau)
    else some (m, [.scan 0 0], .tau)
  | .agingVisit p =>
    some (m.set p (m.proc p).age, [],
      if (m.proc p).promotes then .promote p
      else if (m.proc p).state = .runnable then .age p else .tau)
  -- yield, sleep, wakeup
  | .yield => my.map fun p => (m, yieldCode p, .tau)
  | .setRunnable p => some (m.set p { m.proc p with state := .runnable }, [], .tau)
  | .sleep chan lk => my.map fun p => (m, sleepCode p chan lk, .tau)
  | .setSleeping p chan =>
    some (m.set p { m.proc p with state := .sleeping, chan := chan }, [], .tau)
  | .clearChan p => some (m.set p { m.proc p with chan := .null }, [], .tau)
  | .wakeup chan p => some (m, wakeupCode my chan p, .tau)
  | .wakeupVisit chan p =>
    some (m.set p ((m.proc p).wake chan), [], if (m.proc p).sleepsOn chan then .wake p else .tau)
  -- kkill, setkilled, killed
  | .kkill pid p =>
    if h : p < N then some (m, [.acquire (.proc ⟨p, h⟩), .kkillVisit pid ⟨p, h⟩], .tau)
    else some (m, [], .tau)
  | .kkillVisit pid p =>
    if (m.proc p).pid = pid then
      some (m.set p (m.proc p).kill, [.release (.proc p)], .kill p)
    else some (m, [.release (.proc p), .kkill pid (p + 1)], .tau)
  | .setkilled => my.map fun p => (m, [.acquire (.proc p), .setkilledVisit p, .release (.proc p)],
      .tau)
  | .setkilledVisit p => some (m.set p { m.proc p with killed := true }, [], .setkilled p)
  | .killed yes no => my.map fun p => (m, [.acquire (.proc p), .killedRead p yes no], .tau)
  | .killedRead p yes no =>
    some (m, [.release (.proc p), .user (if (m.proc p).killed then yes else no)], .tau)
  -- kexit; the initial process is slot 0
  | .kexit status => my.bind fun p =>
    if p = 0 then none else some (m, kexitCode p status, .tau)
  | .reparent p pp =>
    if h : pp < N then
      if (m.proc ⟨pp, h⟩).parent = some p then
        some (m.set ⟨pp, h⟩ { m.proc ⟨pp, h⟩ with parent := some 0 },
          [.wakeup (.proc 0) 0, .reparent p (pp + 1)], .tau)
      else some (m, [.reparent p (pp + 1)], .tau)
    else some (m, [], .tau)
  | .wakeupParent p =>
    some (m, [.wakeup ((m.proc p).parent.elim .null .proc) 0], .tau)
  | .setZombie p status =>
    some (m.set p { m.proc p with state := .zombie, xstate := status }, [],
      .exit p (m.proc p).pid status)
  -- kwait
  | .kwait => my.map fun p => (m, [.acquire .waitLock, .kwaitScan p 0 false], .wait p)
  | .kwaitScan p pp havekids =>
    if h : pp < N then
      if (m.proc ⟨pp, h⟩).parent = some p then
        some (m, [.acquire (.proc ⟨pp, h⟩), .kwaitVisit p ⟨pp, h⟩], .tau)
      else some (m, [.kwaitScan p (pp + 1) havekids], .tau)
    else if havekids then some (m, [.acquire (.proc p), .kwaitKilled p], .tau)
    else some (m, [.release .waitLock], .waitFailed p)
  | .kwaitVisit p pp =>
    if (m.proc pp).state = .zombie then
      if ok then
        some (m.set pp (m.proc pp).free, [.release (.proc pp), .release .waitLock],
          .reap p pp (m.proc pp).pid (m.proc pp).xstate)
      else some (m, [.release (.proc pp), .release .waitLock], .waitFailed p)
    else some (m, [.release (.proc pp), .kwaitScan p (pp + 1) true], .tau)
  | .kwaitKilled p =>
    if (m.proc p).killed then
      some (m, [.release (.proc p), .release .waitLock], .waitFailed p)
    else some (m, [.release (.proc p), .sleep (.proc p) .waitLock, .kwaitScan p 0 false], .tau)
  -- kfork
  | .kfork => my.map fun p => (m, [.allocproc p 0], .tau)
  | .allocproc p pp =>
    if h : pp < N then some (m, [.acquire (.proc ⟨pp, h⟩), .allocTest p ⟨pp, h⟩], .tau)
    else some (m, [], .tau)
  | .allocTest p pp =>
    if (m.proc pp).state = .unused then
      some (m, [.acquire .pidLock, .allocpid pp, .release .pidLock, .allocInit p pp], .tau)
    else some (m, [.release (.proc pp), .allocproc p (pp + 1)], .tau)
  | .allocpid pp =>
    some ({ m.set pp { m.proc pp with pid := m.nextpid } with nextpid := int32 (m.nextpid + 1) },
      [], .allocpid pp m.nextpid)
  -- the slot is still UNUSED: its lock has been held since `allocTest` (`unused_of_allocInit`)
  | .allocInit p pp =>
    if (m.proc pp).state = .unused then
      if ok then
        some (m.set pp ((m.proc pp).init (forkretCode C pp)), [.forkCopy p pp], .alloc pp)
      else some (m.set pp (m.proc pp).free, [.release (.proc pp)], .tau)
    else none
  | .forkCopy p pp =>
    if ok then some (m, forkCode p pp, .tau)
    else some (m.set pp (m.proc pp).free, [.release (.proc pp)], .tau)
  | .setParent p pp => some (m.set pp { m.proc pp with parent := some p }, [], .tau)
  | .forkRunnable pp => some (m.set pp { m.proc pp with state := .runnable }, [], .tau)
  -- traps
  | .clockintr => some (m, clockintrCode cpu0, .tau)
  | .tick => some ({ m with ticks := m.ticks + 1 }, [], .tau)
  | .charge =>
    match my with
    | none => some (m, [], .tau)
    | some p =>
      if (m.proc p).state = .running then some (m.set p (m.proc p).chargeTick, [], .tick p)
      else some (m, [], .tau)
  | .kerneltrap => some (m, if my = none then [] else [.yield], .tau)
  | .usertrap timer => my.map fun p => (m, [.acquire (.proc p), .trapKilled p timer], .tau)
  | .trapKilled p timer =>
    some (m, .release (.proc p) ::
      if (m.proc p).killed then [.user C.killed] else if timer then [.yield] else [], .tau)
  | .trapRet => some (m, [], .tau)
  | .acquire _ | .release _ | .account _ _ | .sched _ | .zombieExit | .user _ => none

/-! ## The steps -/

/-- The locks that the CPU `c` holds. -/
def State.held (s : State κ N υ δ) (c : κ) : Set (Lock N) := {l | s.holder l = some c}

theorem mem_held {s : State κ N υ δ} {c : κ} {l : Lock N} : l ∈ s.held c ↔ s.holder l = some c :=
  Iff.rfl

/-- The state with the table changed to `m`. -/
def State.setMem (s : State κ N υ δ) (m : Mem N υ) : State κ N υ δ := { s with mem := m }

@[simp] theorem State.setMem_mem (s : State κ N υ δ) (m : Mem N υ) : (s.setMem m).mem = m := rfl

@[simp] theorem State.setMem_cpu (s : State κ N υ δ) (m : Mem N υ) : (s.setMem m).cpu = s.cpu := rfl

/-- The state with the client's data changed to `d`. -/
def State.setUser (s : State κ N υ δ) (d : δ) : State κ N υ δ := { s with user := d }

section Step

variable [DecidableEq κ]

/-- The state with the CPU `c` changed to `x`. -/
def State.setCpu (s : State κ N υ δ) (c : κ) (x : Cpu N υ) : State κ N υ δ :=
  { s with cpu := Function.update s.cpu c x }

@[simp] theorem State.setCpu_self (s : State κ N υ δ) (c : κ) (x : Cpu N υ) :
    (s.setCpu c x).cpu c = x :=
  Function.update_self ..

theorem State.setCpu_of_ne (s : State κ N υ δ) {c c' : κ} (h : c' ≠ c) (x : Cpu N υ) :
    (s.setCpu c x).cpu c' = s.cpu c' :=
  Function.update_of_ne h ..

/-- The state with the control of the CPU `c` changed to `k`. -/
def State.setCtl (s : State κ N υ δ) (c : κ) (k : List (Instr N υ)) : State κ N υ δ :=
  s.setCpu c { s.cpu c with ctl := k }

/-- The state with the holder of `l` changed. -/
def State.setHolder (s : State κ N υ δ) (l : Lock N) (o : Option κ) :
    State κ N υ δ :=
  { s with holder := Function.update s.holder l o }

theorem held_acquire {s : State κ N υ δ} {c : κ} {l : Lock N} (hfree : s.holder l = none)
    (k : List (Instr N υ)) (c' : κ) :
    ((s.setCtl c k).setHolder l (some c)).held c' =
      if c' = c then insert l (s.held c) else s.held c' := by
  ext l'
  simp only [mem_held, State.setHolder, State.setCtl, State.setCpu, Function.update_apply]
  split_ifs with hl hc hc
  · simp [hl, hc]
  · simpa [hl, mem_held, hfree] using Ne.symm hc
  · simp [hl, mem_held, hc]
  · simp [mem_held]

theorem held_release {s : State κ N υ δ} {c : κ} {l : Lock N} (hheld : s.holder l = some c)
    (k : List (Instr N υ)) (c' : κ) :
    ((s.setCtl c k).setHolder l none).held c' =
      if c' = c then s.held c \ {l} else s.held c' := by
  ext l'
  simp only [mem_held, State.setHolder, State.setCtl, State.setCpu, Function.update_apply]
  split_ifs with hl hc hc
  · simp [hl]
  · simpa [hl, mem_held, hheld] using Ne.symm hc
  · simp [hl, mem_held, hc]
  · simp [mem_held]

variable [NeZero N] (boot : κ) (C : Client N υ δ)

/-- The steps of the machine; `boot` is the CPU with `cpuid() == 0`. -/
inductive Step : State κ N υ δ → κ × Event N → State κ N υ δ → Prop
  /-- `acquire` spins until the lock is free. -/
  | acquire {s c l k} (hctl : (s.cpu c).ctl = .acquire l :: k) (hfree : s.holder l = none) :
      Step s (c, .tau) ((s.setCtl c k).setHolder l (some c))
  /-- `release` panics when the CPU does not hold the lock. -/
  | release {s c l k} (hctl : (s.cpu c).ctl = .release l :: k) (hheld : s.holder l = some c) :
      Step s (c, .tau) ((s.setCtl c k).setHolder l none)
  /-- An instruction of the kernel's functions. -/
  | exec {s c i k ok m k' e} (hctl : (s.cpu c).ctl = i :: k)
      (hexec : exec C (c = boot) (s.cpu c).proc ok s.mem i = some (m, k', e)) :
      Step s (c, e) ((s.setCtl c (k' ++ k)).setMem m)
  /-- A step of the code that runs on the kernel. -/
  | user {s c p u k d k'} (hctl : (s.cpu c).ctl = .user u :: k) (hproc : (s.cpu c).proc = some p)
      (hsem : C.sem p u s.user d k') :
      Step s (c, .tau) ((s.setCtl c (k' ++ k)).setUser d)
  /-- The scan has found a process, and the scheduler runs it: `swtch(&c->context,
  &chosen->context)`. What is saved is the code after the call. -/
  | dispatch {s c level p k} (hctl : (s.cpu c).ctl = .scanTest level p :: k)
      (hel : (s.mem.proc p).eligible level) :
      Step s (c, .dispatch p)
        ((s.setCpu c
          { who := some p
            ctl := (s.mem.proc p).context
            proc := some p
            context := .account p (s.mem.proc p).totalTicks :: .release (.proc p) :: .aging 0 :: k }
          ).setMem (s.mem.set p (s.mem.proc p).run))
  /-- Back in the scheduler. -/
  | account {s c p prev q b k} (hctl : (s.cpu c).ctl = .account p prev :: k)
      (hq : (s.mem.proc p).account prev = some (q, b)) :
      Step s (c, if b then .expire p (s.mem.proc p).queueLevel else .unexpired p)
        ((s.setCpu c
          { who := (s.cpu c).who, ctl := k, proc := none, context := (s.cpu c).context }
          ).setMem (s.mem.set p q))
  /-- `swtch(&p->context, &mycpu()->context)`, after the checks of `sched`: the CPU holds `p->lock`
  and no other lock, and `p` is not running any more. -/
  | sched {s c p k} (hctl : (s.cpu c).ctl = .sched p :: k) (hheld : s.held c = {.proc p})
      (hstate : (s.mem.proc p).state ≠ .running) :
      Step s (c, .tau)
        ((s.setCpu c
          { who := none, ctl := (s.cpu c).context, proc := (s.cpu c).proc,
            context := (s.cpu c).context }
          ).setMem (s.mem.set p { s.mem.proc p with context := k }))
  /-- A timer interrupt. -/
  | clock {s c} (hheld : s.held c = ∅) (htrap : .trapRet ∉ (s.cpu c).ctl) :
      Step s (c, .tau)
        (s.setCtl c (.clockintr :: (trapCode (inUser C (s.cpu c).ctl) true ++ (s.cpu c).ctl)))
  /-- An interrupt of a device. -/
  | device {s c} (a : ℕ) (chan : Chan N) (hheld : s.held c = ∅)
      (htrap : .trapRet ∉ (s.cpu c).ctl) :
      Step s (c, .tau)
        (s.setCtl c
          (devintrCode a chan ++ (trapCode (inUser C (s.cpu c).ctl) false ++ (s.cpu c).ctl)))

/-- A slot of the zeroed table. Its context is never used before `allocproc` has set it. -/
def Proc.zero (C : Client N υ δ) (p : Fin N) : Proc N υ where
  state := .unused
  chan := .null
  killed := false
  xstate := 0
  pid := 0
  parent := none
  queueLevel := 0
  qTicks := 0
  waitTime := 0
  nRun := 0
  totalTicks := 0
  context := forkretCode C p

/-- After `main` on CPU 0: `userinit` has made the first process, in slot 0 and with pid 1, and
every CPU is at the start of `scheduler()`. -/
structure Boot (s : State κ N υ δ) : Prop where
  cpu : ∀ c, (s.cpu c).who = none ∧ (s.cpu c).ctl = [.scan 0 0] ∧ (s.cpu c).proc = none
  holder : ∀ l, s.holder l = none
  nextpid : s.mem.nextpid = 2
  initproc : s.mem.proc 0 = { Proc.zero C (0 : Fin N) with state := .runnable, pid := 1 }
  unused : ∀ p, p ≠ 0 → s.mem.proc p = Proc.zero C p

variable {C} in
omit [DecidableEq κ] in
theorem Boot.context {s : State κ N υ δ} (h : Boot C s) (p : Fin N) :
    (s.mem.proc p).context = forkretCode C p := by
  by_cases hp : p = 0
  · subst hp
    rw [h.initproc]
    rfl
  · rw [h.unused p hp]
    rfl

/-- The kernel with `κ` CPUs, started on the data that `start` allows. -/
def kernel (start : δ → Prop) : LTS (State κ N υ δ) (κ × Event N) where
  init s := Boot C s ∧ start s.user
  step := Step boot C

end Step

end Xv6.Kernel
