import Xv6.Foundations.Ring
import Xv6.Kernel.Simulate
import Xv6.Kernel.Threads

/-!
# Pipes, and the other loops that a kill ends

A client of the kernel: processes that share one pipe (pipe.c), and that make the system calls of
sysproc.c and read from the console (console.c) besides. They wait in five loops, `pipewrite`,
`piperead`, `consoleread`, `sys_pause` and `kwait`, each of which ends when the process is killed.

Any process may call `pipewrite`, `piperead` and `pipeclose` at any time, also when the source would
have freed the page of the pipe: which process has which end open is the business of file.c. What
the console holds, the value of `ticks`, and whether a copy to or from user space succeeds is left
open. `inserted` and `removed` record the bytes that went through the pipe.
-/

namespace Xv6.Kernel

/-- `PIPESIZE` of pipe.c. -/
def PIPESIZE : ℕ := 512

instance : NeZero PIPESIZE := ⟨by decide⟩

/-- `struct pipe`, without its spinlock. -/
structure Pipe where
  /-- `data`, `nread` and `nwrite` -/
  ring : Ring UInt8 32 PIPESIZE
  readopen : Bool
  writeopen : Bool

/-- `pi->nread == pi->nwrite` -/
def Pipe.Empty (pi : Pipe) : Prop := pi.ring.nread = pi.ring.nwrite

/-- `pi->nwrite == pi->nread + PIPESIZE` -/
def Pipe.Full (pi : Pipe) : Prop := pi.ring.nwrite = pi.ring.nread + BitVec.ofNat 32 PIPESIZE

instance (pi : Pipe) : Decidable pi.Empty := inferInstanceAs (Decidable (_ = _))

instance (pi : Pipe) : Decidable pi.Full := inferInstanceAs (Decidable (_ = _))

/-- The pipe, and all bytes that have been put into its ring and taken out of it. -/
structure PipeHistory where
  pipe : Pipe
  inserted : List UInt8
  removed : List UInt8

namespace PipeHistory

/-- `pi->data[pi->nwrite++ % PIPESIZE] = ch` -/
def insert (d : PipeHistory) (ch : UInt8) : PipeHistory where
  pipe :=
    { ring := d.pipe.ring.push ch, readopen := d.pipe.readopen, writeopen := d.pipe.writeopen }
  inserted := d.inserted ++ [ch]
  removed := d.removed

/-- `ch = pi->data[pi->nread++ % PIPESIZE]` -/
def remove (d : PipeHistory) : PipeHistory where
  pipe := { ring := d.pipe.ring.pop, readopen := d.pipe.readopen, writeopen := d.pipe.writeopen }
  inserted := d.inserted
  removed := d.removed ++ [d.pipe.ring.front]

/-- `pi->writeopen = 0` or `pi->readopen = 0` -/
def close (d : PipeHistory) (writable : Bool) : PipeHistory where
  pipe :=
    { ring := d.pipe.ring
      readopen := d.pipe.readopen && writable
      writeopen := d.pipe.writeopen && !writable }
  inserted := d.inserted
  removed := d.removed

/-- What `pipealloc` sets; the page holds any bytes. -/
structure Fresh (d : PipeHistory) : Prop where
  nread : d.pipe.ring.nread = 0
  nwrite : d.pipe.ring.nwrite = 0
  readopen : d.pipe.readopen = true
  writeopen : d.pipe.writeopen = true
  inserted : d.inserted = []
  removed : d.removed = []

end PipeHistory

/-- The program points of a process that makes system calls. `i` and `n` are the variables of
`pipewrite` and `piperead`, and `target` and `n` those of `consoleread`. -/
inductive IpcPoint
  /-- in user space -/
  | user
  /-- `usertrap`: a system call -/
  | syscall
  /-- `usertrap`: a fault that is not handled -/
  | fault
  /-- `usertrap`: after the system call, whose result is `a0`, or the fault -/
  | ret (a0 : ℤ)
  /-- `kexit(status)`: the loop that closes the open files -/
  | exit (status : ℤ)
  /-- `sys_pause`: the loop, `tickslock` held -/
  | pause
  /-- `sys_pause`: before `sleep(&ticks, &tickslock)` -/
  | pauseSleep
  /-- `sys_pause`: before `release(&tickslock)` -/
  | pauseEnd (a0 : ℤ)
  /-- `pipewrite`: the loop, `pi->lock` held -/
  | write (i n : ℤ)
  /-- `pipewrite`: the early return -/
  | writeAbort
  /-- `pipewrite`: the test whether the ring is full -/
  | writeTest (i n : ℤ)
  /-- `piperead`: the loop that waits, `pi->lock` held -/
  | read (n : ℤ)
  /-- `piperead`: the early return -/
  | readAbort
  /-- `piperead`: before `sleep(&pi->nread, &pi->lock)` -/
  | readSleep (n : ℤ)
  /-- `piperead`: the loop that copies -/
  | readCopy (i n : ℤ)
  /-- `piperead`: before `wakeup(&pi->nwrite)` -/
  | readEnd (i : ℤ)
  /-- `pipeclose(pi, writable)`, `pi->lock` held; called by `sys_close`, or by `kexit(status)` -/
  | close (writable : Bool) (status : Option ℤ)
  /-- `consoleread`: the loops, `cons.lock` held -/
  | cons (target n : ℤ)
  /-- `consoleread`: the early return -/
  | consAbort
  /-- `consoleread`: before `sleep(&cons.r, &cons.lock)` -/
  | consSleep (target n : ℤ)

variable {N : ℕ}

/-- `pi->lock` -/
def pipeLock : Lock N := .other 0

/-- `cons.lock` -/
def consLock : Lock N := .other 1

/-- `&pi->nread` -/
def pipeRead : Chan N := .addr 0

/-- `&pi->nwrite` -/
def pipeWrite : Chan N := .addr 1

/-- The channel of those who wait for the end that `pipeclose(pi, writable)` closes. -/
def pipeOther (writable : Bool) : Chan N := if writable then pipeRead else pipeWrite

/-- `&cons.r` -/
def consR : Chan N := .addr 2

/-- Where a process goes on after `pipeclose`. -/
def IpcPoint.closed : Option ℤ → IpcPoint
  | none => .ret 0
  | some status => .exit status

/-- What the process does next. -/
inductive Ipc : IpcPoint → PipeHistory → PipeHistory → List (Instr N IpcPoint) → Prop
  | compute {d} : Ipc .user d d [.user .user]
  | ecall {d} : Ipc .user d d [.killed (.exit (-1)) .syscall]
  | trap {d} : Ipc .user d d [.user .fault]
  | fault {d} : Ipc .fault d d [.setkilled, .user (.ret 0)]
  | ret {d} (a0 : ℤ) : Ipc (.ret a0) d d [.killed (.exit (-1)) .user]
  -- the calls of sysproc.c; what they return is left open
  | fork {d} (a0 : ℤ) : Ipc .syscall d d [.kfork, .user (.ret a0)]
  | wait {d} (a0 : ℤ) : Ipc .syscall d d [.kwait, .user (.ret a0)]
  | kill {d} (pid a0 : ℤ) : Ipc .syscall d d [.kkill pid 0, .user (.ret a0)]
  | exit {d} (status : ℤ) : Ipc .syscall d d [.user (.exit status)]
  | kexit {d} (status : ℤ) : Ipc (.exit status) d d [.kexit status]
  | pause {d} : Ipc .syscall d d [.acquire .ticksLock, .user .pause]
  | elapsed {d} : Ipc .pause d d [.user (.pauseEnd 0)]
  | waiting {d} : Ipc .pause d d [.killed (.pauseEnd (-1)) .pauseSleep]
  | pauseSleep {d} : Ipc .pauseSleep d d [.sleep .ticks .ticksLock, .user .pause]
  | pauseEnd {d} (a0 : ℤ) : Ipc (.pauseEnd a0) d d [.release .ticksLock, .user (.ret a0)]
  -- pipewrite
  | write {d} (n : ℤ) : Ipc .syscall d d [.acquire pipeLock, .user (.write 0 n)]
  | writeEnd {d} {i n : ℤ} (h : ¬i < n) :
      Ipc (.write i n) d d [.wakeup pipeRead 0, .release pipeLock, .user (.ret i)]
  | writeClosed {d} {i n : ℤ} (h : i < n) (hopen : d.pipe.readopen = false) :
      Ipc (.write i n) d d [.user .writeAbort]
  | writeKilled {d} {i n : ℤ} (h : i < n) (hopen : d.pipe.readopen = true) :
      Ipc (.write i n) d d [.killed .writeAbort (.writeTest i n)]
  | writeAbort {d} : Ipc .writeAbort d d [.release pipeLock, .user (.ret (-1))]
  | writeFull {d} {i n : ℤ} (h : d.pipe.Full) :
      Ipc (.writeTest i n) d d
        [.wakeup pipeRead 0, .sleep pipeWrite pipeLock, .user (.write i n)]
  | writeFault {d} {i n : ℤ} (h : ¬d.pipe.Full) :
      Ipc (.writeTest i n) d d [.wakeup pipeRead 0, .release pipeLock, .user (.ret i)]
  | writeByte {d} {i n : ℤ} (h : ¬d.pipe.Full) (ch : UInt8) :
      Ipc (.writeTest i n) d (d.insert ch) [.user (.write (i + 1) n)]
  -- piperead
  | read {d} (n : ℤ) : Ipc .syscall d d [.acquire pipeLock, .user (.read n)]
  | readWait {d} {n : ℤ} (h : d.pipe.Empty) (hopen : d.pipe.writeopen = true) :
      Ipc (.read n) d d [.killed .readAbort (.readSleep n)]
  | readStart {d} {n : ℤ} (h : ¬(d.pipe.Empty ∧ d.pipe.writeopen = true)) :
      Ipc (.read n) d d [.user (.readCopy 0 n)]
  | readAbort {d} : Ipc .readAbort d d [.release pipeLock, .user (.ret (-1))]
  | readSleep {d} (n : ℤ) : Ipc (.readSleep n) d d [.sleep pipeRead pipeLock, .user (.read n)]
  | readByte {d} {i n : ℤ} (h : i < n) (he : ¬d.pipe.Empty) :
      Ipc (.readCopy i n) d d.remove [.user (.readCopy (i + 1) n)]
  | readFault {d} {i n : ℤ} (h : i < n) (he : ¬d.pipe.Empty) :
      Ipc (.readCopy i n) d d.remove [.user (.readEnd i)]
  | readDone {d} {i n : ℤ} (h : ¬i < n ∨ d.pipe.Empty) :
      Ipc (.readCopy i n) d d [.user (.readEnd i)]
  | readEnd {d} (i : ℤ) :
      Ipc (.readEnd i) d d [.wakeup pipeWrite 0, .release pipeLock, .user (.ret i)]
  -- pipeclose
  | sysClose {d} (writable : Bool) :
      Ipc .syscall d d [.acquire pipeLock, .user (.close writable none)]
  | exitClose {d} (writable : Bool) (status : ℤ) :
      Ipc (.exit status) d d [.acquire pipeLock, .user (.close writable (some status))]
  | close {d} (writable : Bool) (status : Option ℤ) :
      Ipc (.close writable status) d (d.close writable)
        [.wakeup (pipeOther writable) 0, .release pipeLock, .user (.closed status)]
  -- consoleread
  | cons {d} (n : ℤ) : Ipc .syscall d d [.acquire consLock, .user (.cons n n)]
  | consWait {d} {target n : ℤ} (h : 0 < n) :
      Ipc (.cons target n) d d [.killed .consAbort (.consSleep target n)]
  | consAbort {d} : Ipc .consAbort d d [.release consLock, .user (.ret (-1))]
  | consSleep {d} (target n : ℤ) :
      Ipc (.consSleep target n) d d [.sleep consR consLock, .user (.cons target n)]
  /-- A byte is copied. -/
  | consByte {d} {target n : ℤ} (h : 0 < n) :
      Ipc (.cons target n) d d [.user (.cons target (n - 1))]
  /-- The loop ends, or is left: at the end of the file, after a failed copy, or, with one byte
  more, after a newline. -/
  | consEnd {d} {target n : ℤ} (n' : ℤ) (h : n' = n ∨ 0 < n ∧ n' = n - 1) :
      Ipc (.cons target n) d d [.release consLock, .user (.ret (target - n'))]

/-- The spinlocks held at a program point. -/
def IpcPoint.locks : IpcPoint → Set (Lock N)
  | .pause | .pauseSleep | .pauseEnd _ => {.ticksLock}
  | .write _ _ | .writeAbort | .writeTest _ _ | .read _ | .readAbort | .readSleep _
  | .readCopy _ _ | .readEnd _ | .close _ _ => {pipeLock}
  | .cons _ _ | .consAbort | .consSleep _ _ => {consLock}
  | .user | .syscall | .fault | .ret _ | .exit _ => ∅

/-- The processes that share a pipe and make system calls. -/
def ipc : Client N IpcPoint PipeHistory where
  start := .user
  killed := .exit (-1)
  inUser
    | .user => true
    | _ => false
  sem _ := Ipc
  locks _ u := u.locks

theorem ipc_disciplined : (ipc : Client N IpcPoint PipeHistory).Disciplined where
  start _ := rfl
  killed _ := rfl
  calls p u d d' k h i hi := by
    cases h <;> simp only [List.mem_cons, List.not_mem_nil, or_false] at hi
    all_goals grind [Instr.IsCall, pipeLock, consLock]
  user p u d d' k h := by
    cases h
    case close writable status =>
      cases status <;> simp [Disc, ipc, IpcPoint.locks, pipeLock, IpcPoint.closed]
    all_goals simp [Disc, ipc, IpcPoint.locks, pipeLock, consLock]

/-- The choices of a process: at `syscall` the number is the call (0 `fork`, 1 `wait`, 2 `pause`,
3 `exit(0)`, 4 a read from the console, 5 and 6 `pipeclose` of the read and the write end, then
`kill(n)`, `pipewrite` of `n` bytes and `piperead` of `n` bytes for `3 * n + 7`, `3 * n + 8` and
`3 * n + 9`), and at `writeTest` it is the byte, after 0 for a failed copy. -/
def Ipc.pick (d : PipeHistory) : IpcPoint → ℕ → Option (PipeHistory × List (Instr N IpcPoint))
  | .user, 0 => some (d, [.user .user])
  | .user, _ => some (d, [.killed (.exit (-1)) .syscall])
  | .fault, _ => some (d, [.setkilled, .user (.ret 0)])
  | .ret _, _ => some (d, [.killed (.exit (-1)) .user])
  | .syscall, 0 => some (d, [.kfork, .user (.ret 0)])
  | .syscall, 1 => some (d, [.kwait, .user (.ret 0)])
  | .syscall, 2 => some (d, [.acquire .ticksLock, .user .pause])
  | .syscall, 3 => some (d, [.user (.exit 0)])
  | .syscall, 4 => some (d, [.acquire consLock, .user (.cons 1 1)])
  | .syscall, 5 => some (d, [.acquire pipeLock, .user (.close false none)])
  | .syscall, 6 => some (d, [.acquire pipeLock, .user (.close true none)])
  | .syscall, n + 7 =>
    if n % 3 = 0 then some (d, [.kkill (n / 3 : ℕ) 0, .user (.ret 0)])
    else if n % 3 = 1 then some (d, [.acquire pipeLock, .user (.write 0 (n / 3 : ℕ))])
    else some (d, [.acquire pipeLock, .user (.read (n / 3 : ℕ))])
  | .exit status, _ => some (d, [.kexit status])
  | .pause, 0 => some (d, [.user (.pauseEnd 0)])
  | .pause, _ => some (d, [.killed (.pauseEnd (-1)) .pauseSleep])
  | .pauseSleep, _ => some (d, [.sleep .ticks .ticksLock, .user .pause])
  | .pauseEnd a0, _ => some (d, [.release .ticksLock, .user (.ret a0)])
  | .write i n, _ =>
    if ¬i < n then some (d, [.wakeup pipeRead 0, .release pipeLock, .user (.ret i)])
    else if d.pipe.readopen = false then some (d, [.user .writeAbort])
    else some (d, [.killed .writeAbort (.writeTest i n)])
  | .writeAbort, _ => some (d, [.release pipeLock, .user (.ret (-1))])
  | .writeTest i n, b =>
    if d.pipe.Full then
      some (d, [.wakeup pipeRead 0, .sleep pipeWrite pipeLock, .user (.write i n)])
    else match b with
      | 0 => some (d, [.wakeup pipeRead 0, .release pipeLock, .user (.ret i)])
      | b + 1 => some (d.insert (.ofNat b), [.user (.write (i + 1) n)])
  | .read n, _ =>
    if d.pipe.Empty ∧ d.pipe.writeopen = true then some (d, [.killed .readAbort (.readSleep n)])
    else some (d, [.user (.readCopy 0 n)])
  | .readAbort, _ => some (d, [.release pipeLock, .user (.ret (-1))])
  | .readSleep n, _ => some (d, [.sleep pipeRead pipeLock, .user (.read n)])
  | .readCopy i n, _ =>
    if ¬i < n ∨ d.pipe.Empty then some (d, [.user (.readEnd i)])
    else some (d.remove, [.user (.readCopy (i + 1) n)])
  | .readEnd i, _ => some (d, [.wakeup pipeWrite 0, .release pipeLock, .user (.ret i)])
  | .close writable status, _ =>
    some (d.close writable,
      [.wakeup (pipeOther writable) 0, .release pipeLock, .user (.closed status)])
  | .cons target n, 0 => some (d, [.release consLock, .user (.ret (target - n))])
  | .cons target n, _ =>
    if 0 < n then some (d, [.killed .consAbort (.consSleep target n)]) else none
  | .consAbort, _ => some (d, [.release consLock, .user (.ret (-1))])
  | .consSleep target n, _ => some (d, [.sleep consR consLock, .user (.cons target n)])

theorem Ipc.of_pick {u : IpcPoint} {d d' : PipeHistory} {n : ℕ} {k : List (Instr N IpcPoint)}
    (h : pick d u n = some (d', k)) : Ipc u d d' k := by
  unfold pick at h
  repeat' split at h
  all_goals cases h
  all_goals constructor <;> grind

/-- The choices of `ipc`. -/
def ipcChoices : (ipc : Client N IpcPoint PipeHistory).Choices where
  pick _ u d n := Ipc.pick d u n
  free
    | .user | .syscall | .fault | .ret _ | .exit _ => true
    | _ => false
  sem_of_pick _ _ _ _ _ _ h := Ipc.of_pick h
  locks_of_free p u h := by
    cases u <;> first | rfl | cases h

/-! ## The ring is a queue -/

/-- The ring holds at most `PIPESIZE` bytes: those that were inserted and have not been removed. -/
structure PipeHistory.Queue (d : PipeHistory) : Prop where
  count : d.pipe.ring.count ≤ PIPESIZE
  contents : d.removed ++ d.pipe.ring.contents = d.inserted

namespace PipeHistory

variable {d : PipeHistory}

theorem pipeSize_dvd : PIPESIZE ∣ 2 ^ 32 := by decide

theorem pipeSize_lt : PIPESIZE < 2 ^ 32 := by decide

theorem Fresh.queue (h : d.Fresh) : d.Queue := by
  have hcount : d.pipe.ring.count = 0 := Ring.count_eq_zero.2 (h.nread.trans h.nwrite.symm)
  refine ⟨hcount ▸ Nat.zero_le _, ?_⟩
  rw [h.removed, h.inserted, Ring.contents, hcount]
  rfl

theorem Queue.insert (h : d.Queue) (hfull : ¬d.pipe.Full) (ch : UInt8) : (d.insert ch).Queue := by
  have hlt : d.pipe.ring.count < PIPESIZE :=
    Nat.lt_of_le_of_ne h.count fun heq => hfull ((Ring.count_eq_size pipeSize_lt).1 heq)
  refine ⟨?_, ?_⟩
  · change (d.pipe.ring.push ch).count ≤ PIPESIZE
    rw [Ring.count_push pipeSize_lt hlt]
    exact hlt
  · change d.removed ++ (d.pipe.ring.push ch).contents = d.inserted ++ [ch]
    rw [Ring.contents_push pipeSize_dvd pipeSize_lt hlt, ← List.append_assoc, h.contents]

theorem Queue.remove (h : d.Queue) (hempty : ¬d.pipe.Empty) : d.remove.Queue := by
  have hne : d.pipe.ring.count ≠ 0 := fun heq => hempty (Ring.count_eq_zero.1 heq)
  have hcount := Ring.count_pop hne
  refine ⟨?_, ?_⟩
  · change d.pipe.ring.pop.count ≤ PIPESIZE
    have hle := h.count
    omega
  · change (d.removed ++ [d.pipe.ring.front]) ++ d.pipe.ring.pop.contents = d.inserted
    rw [List.append_assoc, List.singleton_append, ← Ring.contents_pop hne, h.contents]

theorem Queue.step {u : IpcPoint} {d' : PipeHistory} {k : List (Instr N IpcPoint)}
    (hstep : Ipc u d d' k) (h : d.Queue) : d'.Queue := by
  cases hstep with
  | writeByte hfull ch => exact h.insert hfull ch
  | readByte _ hempty | readFault _ hempty => exact h.remove hempty
  | close => exact ⟨h.count, h.contents⟩
  | _ => exact h

end PipeHistory

section Reachable

variable {κ : Type} [DecidableEq κ] [NeZero N] {boot : κ} {s : State κ N IpcPoint PipeHistory}

/-- **The ring of a pipe is a FIFO.** For any interleaving of calls of `pipewrite`, `piperead` and
`pipeclose`, however often the counters have wrapped: there are at most `PIPESIZE` bytes in the
ring, and the bytes that were removed, followed by those in the ring, are the bytes that were
inserted. -/
theorem pipe_fifo (hs : (kernel boot ipc PipeHistory.Fresh).Reachable s) :
    (s.user.pipe.ring.nwrite - s.user.pipe.ring.nread).toNat ≤ PIPESIZE ∧
      s.user.removed ++ s.user.pipe.ring.contents = s.user.inserted := by
  have h : s.user.Queue := user_of_reachable (fun d hd => hd.queue)
    (fun _ _ _ _ _ hstep h => h.step hstep) hs
  exact ⟨h.count, h.contents⟩

end Reachable

/-- The first process of the source writes a byte to the pipe. -/
theorem pipe_fifo_write :
    ∃ s, (kernel (0 : Fin 8) (ipc (N := NPROC)) PipeHistory.Fresh).Reachable s ∧
      s.user.inserted = [65] ∧ s.user.removed ++ s.user.pipe.ring.contents = [65] := by
  have hd : PipeHistory.Fresh ⟨⟨⟨fun _ => 0, 0, 0⟩, true, true⟩, [], []⟩ :=
    ⟨rfl, rfl, rfl, rfl, rfl, rfl⟩
  have hrun : ∃ h s, (kernel (0 : Fin 8) (ipc (N := NPROC)) PipeHistory.Fresh).Run h s ∧
      s.user.inserted = [65] := by
    refine exists_run_of_play (X := ipcChoices)
      (v := [0, 0, 0, 0, 1, 0, 0, 0, 0, 11, 0, 0, 0, 0, 0, 0, 66].map (.go 0 true))
      ipc_disciplined hd ?_
    rfl
  obtain ⟨h, s, r, hs⟩ := hrun
  exact ⟨s, ⟨h, r⟩, hs, (pipe_fifo ⟨h, r⟩).2.trans hs⟩

end Xv6.Kernel
