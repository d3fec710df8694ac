import Xv6.Kernel.Discipline

/-!
# The process system calls

A client of the kernel: processes that compute, trap, and make the system calls of sysproc.c which
use the process table (`exit`, `fork`, `wait`, `pause`, `kill`). What their user code decides, and
the value of `ticks` that `sys_pause` compares with, is left open.
-/

namespace Xv6.Kernel

/-- The program points of a process that makes system calls. -/
inductive SysPoint
  /-- in user space -/
  | user
  /-- `usertrap`: a system call -/
  | syscall
  /-- `usertrap`: a fault that is not handled -/
  | fault
  /-- `usertrap`: after the system call or the fault -/
  | ret
  /-- `usertrap`: `kexit(-1)` -/
  | exit
  /-- `sys_pause`: the loop, `tickslock` held -/
  | pause
  /-- `sys_pause`: before `sleep(&ticks, &tickslock)` -/
  | pauseSleep
  /-- `sys_pause`: before `release(&tickslock)` -/
  | pauseEnd
  deriving DecidableEq

/-- What the process does next. -/
inductive Sysproc {N : ℕ} : SysPoint → List (Instr N SysPoint) → Prop
  | compute : Sysproc .user [.user .user]
  | ecall : Sysproc .user [.killed .exit .syscall]
  | trap : Sysproc .user [.user .fault]
  | fault : Sysproc .fault [.setkilled, .user .ret]
  | exit (status : ℤ) : Sysproc .syscall [.kexit status]
  | fork : Sysproc .syscall [.kfork, .user .ret]
  | wait : Sysproc .syscall [.kwait, .user .ret]
  | kill (pid : ℤ) : Sysproc .syscall [.kkill pid 0, .user .ret]
  | pause : Sysproc .syscall [.acquire .ticksLock, .user .pause]
  | elapsed : Sysproc .pause [.user .pauseEnd]
  | waiting : Sysproc .pause [.killed .pauseEnd .pauseSleep]
  | sleep : Sysproc .pauseSleep [.sleep .ticks .ticksLock, .user .pause]
  | pauseEnd : Sysproc .pauseEnd [.release .ticksLock, .user .ret]
  | ret : Sysproc .ret [.killed .exit .user]
  | killed : Sysproc .exit [.kexit (-1)]

variable {N : ℕ}

/-- The spinlocks held at a program point. -/
def SysPoint.locks : SysPoint → Set (Lock N)
  | .pause | .pauseSleep | .pauseEnd => {.ticksLock}
  | _ => ∅

/-- The processes that make the system calls of sysproc.c. -/
def sysproc : Client N SysPoint Unit where
  start := .user
  killed := .exit
  inUser u := u = .user
  sem _ u _ _ k := Sysproc u k
  locks _ u := u.locks

theorem sysproc_disciplined : (sysproc : Client N SysPoint Unit).Disciplined where
  start _ := rfl
  killed _ := rfl
  calls p u _ _ k h i hi := by
    cases h <;> simp only [List.mem_cons, List.not_mem_nil, or_false] at hi
    all_goals grind [Instr.IsCall]
  user p u _ _ k h := by
    cases h <;> simp [Disc, sysproc, SysPoint.locks]

/-- The state after boot. -/
def bootState (κ : Type) [NeZero N] {υ δ : Type} (C : Client N υ δ) (d : δ) : State κ N υ δ where
  cpu _ := ⟨none, [.scan 0 0], none, []⟩
  mem :=
    { proc := fun p =>
        if p = 0 then { Proc.zero C p with state := .runnable, pid := 1 } else Proc.zero C p
      nextpid := 2
      ticks := 0 }
  holder _ := none
  user := d

theorem boot_bootState (κ : Type) [NeZero N] {υ δ : Type} (C : Client N υ δ) (d : δ) :
    Boot C (bootState κ C d) where
  cpu _ := ⟨rfl, rfl, rfl⟩
  holder _ := rfl
  nextpid := rfl
  initproc := by simp [bootState]
  unused p hp := by simp [bootState, hp]

end Xv6.Kernel
