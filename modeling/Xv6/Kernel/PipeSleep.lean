import Xv6.Kernel.Ipc
import Xv6.Kernel.Monitor

/-!
# Sleepers at a usable pipe

The two channels of a pipe are monitors with one lock: `&pi->nread`, for those who wait until there
are bytes or the write end is closed, and `&pi->nwrite`, for those who wait until there is room or
the read end is closed. `pipewrite` puts in several bytes before it calls `wakeup(&pi->nread)`, so
the wakeup is due in its loop; the early return for a closed read end and for a killed process does
not make up for it. In the runs in which no process returns early while a reader that could go on is
asleep (`WakesReaders`), nobody sleeps on a usable pipe (`usable_pipe`).

The tests of `pi->readopen`, and of the empty ring and `pi->writeopen`, come before a test of
`killed` and the call of `sleep`; they still hold there, since `pi->lock` is held all along.
-/

namespace Xv6.Kernel

variable {N : ℕ}

/-- A call of `piperead` would not wait. -/
def Pipe.Readable (pi : Pipe) : Prop := ¬pi.Empty ∨ pi.writeopen = false

/-- A call of `pipewrite` would not wait. -/
def Pipe.Writable (pi : Pipe) : Prop := ¬pi.Full ∨ pi.readopen = false

/-- The pipe changes only under its lock. -/
theorem Ipc.iff_or_locked {u : IpcPoint} {d d' : PipeHistory} {k : List (Instr N IpcPoint)}
    (h : Ipc u d d' k) (Cond : PipeHistory → Prop) :
    (Cond d ↔ Cond d') ∨ pipeLock ∈ (u.locks : Set (Lock N)) := by
  cases h with
  | writeByte | readByte | readFault | close => exact .inr rfl
  | _ => exact .inl Iff.rfl

/-! ## What has been tested before `killed` -/

namespace IpcPoint

/-- `piperead` is about to sleep. -/
def ReadSleeps : IpcPoint → Prop
  | .readSleep _ => True
  | _ => False

/-- `pipewrite` has tested `pi->readopen` and `killed`. -/
def WriteTests : IpcPoint → Prop
  | .writeTest _ _ => True
  | _ => False

end IpcPoint

/-- Between the test of the empty ring and the call of `sleep`. The channel is one that nobody
sleeps on. -/
theorem ipc_readSleeps : (ipc : Client N IpcPoint PipeHistory).Loops 0 3 IpcPoint.ReadSleeps
    (fun d => ¬d.pipe.Readable) (fun _ _ _ => True) where
  loop p u d d' k h _ := by
    cases h with
    | readWait he hopen =>
      refine .inr (.inr ⟨.killed (.inr trivial) (by simp [Calm]), ?_⟩)
      simp [Pipe.Readable, he, hopen]
    | close writable status =>
      left
      cases status <;> simp [Calm, Instr.Marked, IpcPoint.ReadSleeps, IpcPoint.closed]
    | _ =>
      left
      simp only [Calm, List.mem_cons, List.not_mem_nil, or_false, forall_eq_or_imp, forall_eq,
        Instr.Marked, IpcPoint.ReadSleeps, not_false_eq_true, and_self, or_self, pipeRead, pipeWrite,
        consR, reduceCtorEq, Chan.addr.injEq, Nat.reduceEqDiff]
  left p u hu := by
    cases u <;> first | exact hu.elim | rfl
  start := id
  killed := id
  change p u d d' k h _ := h.iff_or_locked (fun d => ¬d.pipe.Readable)

/-- Between the test of `pi->readopen` and the one of the full ring. -/
theorem ipc_writeTests : (ipc : Client N IpcPoint PipeHistory).Loops 0 3 IpcPoint.WriteTests
    (fun d => d.pipe.readopen = true) (fun _ _ _ => True) where
  loop p u d d' k h _ := by
    cases h with
    | writeKilled _ hopen =>
      exact .inr (.inr ⟨.killed (.inr trivial) (by simp [Calm]), hopen⟩)
    | close writable status =>
      left
      cases status <;> simp [Calm, Instr.Marked, IpcPoint.WriteTests, IpcPoint.closed]
    | _ =>
      left
      simp only [Calm, List.mem_cons, List.not_mem_nil, or_false, forall_eq_or_imp, forall_eq,
        Instr.Marked, IpcPoint.WriteTests, not_false_eq_true, and_self, or_self, pipeRead, pipeWrite,
        consR, reduceCtorEq, Chan.addr.injEq, Nat.reduceEqDiff]
  left p u hu := by
    cases u <;> first | exact hu.elim | rfl
  start := id
  killed := id
  change p u d d' k h _ := h.iff_or_locked (fun d => d.pipe.readopen = true)

/-! ## The two monitors -/

/-- What a process in the middle of `piperead` or `pipewrite` knows of the pipe. -/
def Ipc.Knows (_ : Fin N) (u : IpcPoint) (d : PipeHistory) : Prop :=
  (u.ReadSleeps → ¬d.pipe.Readable) ∧ (u.WriteTests → d.pipe.readopen = true)

namespace IpcPoint

/-- A process in the loop of `pipewrite`: it is going to wake up the readers, or returns early. -/
def Writes : IpcPoint → Prop
  | .write _ _ | .writeTest _ _ | .writeAbort => True
  | _ => False

/-- A process in the loop of `piperead` that copies: it is going to wake up the writers. -/
def Copies : IpcPoint → Prop
  | .readCopy _ _ | .readEnd _ => True
  | _ => False

end IpcPoint

/-- The channel `&pi->nread`. -/
theorem ipc_pipeRead : (ipc : Client N IpcPoint PipeHistory).DueMonitor 0 0 (fun _ => False)
    IpcPoint.Writes (· = .writeAbort) (·.pipe.Readable) Ipc.Knows where
  loop p u d d' k h hI := by
    cases h with
    | readSleep n =>
      exact .inr (.inl ⟨[], _, rfl, List.forall_mem_nil _, by simp [Calm, Instr.Marked],
        hI.1 trivial⟩)
    | _ =>
      left
      simp only [Calm, List.mem_cons, List.not_mem_nil, or_false, forall_eq_or_imp, forall_eq,
        Instr.Marked, not_false_eq_true, and_self, or_self, pipeWrite, consR, reduceCtorEq,
        Chan.addr.injEq]
  left _ _ := False.elim
  start := id
  killed := id
  change p u d d' k h _ := h.iff_or_locked (fun d => d.pipe.Readable)
  wake p u d d' k h _ hu hd := by
    cases h with
    | writeEnd | writeFull | writeFault => exact .inl ⟨_, rfl⟩
    | writeClosed | writeByte => exact .inr (.inl trivial)
    | writeKilled => exact .inr (.inl ⟨trivial, trivial⟩)
    | writeAbort => exact .inr (.inr ⟨rfl, hd⟩)
    | readByte _ he | readFault _ he =>
      obtain ⟨-, hbefore⟩ := hu.resolve_left id
      exact absurd (.inl he) hbefore
    | close writable =>
      obtain ⟨-, hbefore⟩ := hu.resolve_left id
      cases writable with
      | true => exact .inl ⟨_, rfl⟩
      | false =>
        refine absurd (hd.imp id fun hopen => ?_) hbefore
        simpa [PipeHistory.close] using hopen
    | _ =>
      obtain ⟨-, hbefore⟩ := hu.resolve_left id
      exact absurd hd hbefore

/-- The channel `&pi->nwrite`. -/
theorem ipc_pipeWrite : (ipc : Client N IpcPoint PipeHistory).DueMonitor 0 1 (fun _ => False)
    IpcPoint.Copies (fun _ => False) (·.pipe.Writable) Ipc.Knows where
  loop p u d d' k h hI := by
    cases h with
    | writeFull hfull =>
      refine .inr (.inl ⟨[.wakeup pipeRead 0], _, rfl, by simp [Instr.Passing],
        by simp [Calm, Instr.Marked], ?_⟩)
      simp [Pipe.Writable, hfull, hI.2 trivial]
    | _ =>
      left
      simp only [Calm, List.mem_cons, List.not_mem_nil, or_false, forall_eq_or_imp, forall_eq,
        Instr.Marked, not_false_eq_true, and_self, or_self, pipeRead, consR, reduceCtorEq,
        Chan.addr.injEq, Nat.reduceEqDiff]
  left _ _ := False.elim
  start := id
  killed := id
  change p u d d' k h _ := h.iff_or_locked (fun d => d.pipe.Writable)
  wake p u d d' k h _ hu hd := by
    cases h with
    | readEnd => exact .inl ⟨_, rfl⟩
    | readByte | readFault | readDone => exact .inr (.inl trivial)
    | writeByte hfull =>
      obtain ⟨-, hbefore⟩ := hu.resolve_left id
      exact absurd (.inl hfull) hbefore
    | close writable =>
      obtain ⟨-, hbefore⟩ := hu.resolve_left id
      cases writable with
      | false => exact .inl ⟨_, rfl⟩
      | true =>
        refine absurd (hd.imp id fun hopen => ?_) hbefore
        simpa [PipeHistory.close] using hopen
    | _ =>
      obtain ⟨-, hbefore⟩ := hu.resolve_left id
      exact absurd hd hbefore

section Reachable

variable {κ : Type} [DecidableEq κ] [NeZero N] {boot : κ} {s : State κ N IpcPoint PipeHistory}

theorem knows_of_reachable (hs : (kernel boot ipc PipeHistory.Fresh).Reachable s) :
    s.Relies Ipc.Knows := by
  intro c p u k _ hctl
  have hsafe := safe_of_reachable ipc_disciplined hs
  have htrivial : ∀ s, (kernel boot (ipc : Client N IpcPoint PipeHistory)
      PipeHistory.Fresh).Reachable s → s.Relies fun _ _ _ => True :=
    fun _ _ _ _ _ _ _ _ => trivial
  refine ⟨fun hu => ?_, fun hu => ?_⟩
  · exact ((loopOk_of_reachable ipc_disciplined ipc_readSleeps htrivial hs).cond_of_left hsafe
      ipc_readSleeps hctl hu).2
  · exact ((loopOk_of_reachable ipc_disciplined ipc_writeTests htrivial hs).cond_of_left hsafe
      ipc_writeTests hctl hu).2

/-- A step is not that of a `pipewrite` which returns early while a process sleeps on `&pi->nread`,
or is about to, and could go on. -/
def WakesReaders (s : State κ N IpcPoint PipeHistory) (x : κ × Event N) : Prop :=
  ∀ k, (s.cpu x.1).ctl = .user .writeAbort :: k → s.user.pipe.Readable → ∀ p, ¬s.Dozing 0 p

/-- **Nobody sleeps on a usable pipe**, in the runs in which `pipewrite` does not return early while
a reader that could go on is asleep: when `pi->lock` is free, no process is SLEEPING on `&pi->nread`
while there are bytes or the write end is closed, and none is SLEEPING on `&pi->nwrite` while there
is room or the read end is closed. -/
theorem usable_pipe
    (hs : ((kernel boot ipc PipeHistory.Fresh).restrict WakesReaders).Reachable s)
    (hfree : s.holder pipeLock = none) (p : Fin N) :
    ¬((s.mem.proc p).sleepsOn pipeRead ∧ s.user.pipe.Readable) ∧
      ¬((s.mem.proc p).sleepsOn pipeWrite ∧ s.user.pipe.Writable) := by
  have hread : MonitorOk 0 0 (fun _ => False) IpcPoint.Writes (·.pipe.Readable) s :=
    monitorOk_of_restrict ipc_disciplined ipc_pipeRead
      (fun s x hx u k hctl hu hcond => hx k (hu ▸ hctl) hcond) (fun _ => knows_of_reachable) hs
  have hwrite : MonitorOk 0 1 (fun _ => False) IpcPoint.Copies (·.pipe.Writable) s :=
    monitorOk_of_restrict ipc_disciplined ipc_pipeWrite (fun _ _ _ _ _ _ => False.elim)
      (fun _ => knows_of_reachable) hs
  exact ⟨fun ⟨hp, hcond⟩ => hread.not_sleeping hfree hcond p hp,
    fun ⟨hp, hcond⟩ => hwrite.not_sleeping hfree hcond p hp⟩

end Reachable

instance (pi : Pipe) : Decidable pi.Readable := inferInstanceAs (Decidable (_ ∨ _))

/-- A test of `WakesReaders`: the step is not that of an early return. -/
def staysInWrite {κ : Type} (s : State κ N IpcPoint PipeHistory) (x : κ × Event N) : Bool :=
  match (s.cpu x.1).ctl with
  | .user .writeAbort :: _ => false
  | _ => true

theorem of_staysInWrite {κ : Type} {s : State κ N IpcPoint PipeHistory} {x : κ × Event N}
    (h : staysInWrite s x = true) : WakesReaders s x := by
  intro k hctl
  rw [staysInWrite, hctl] at h
  cases h

/-- The first process has forked a child, which reads from the pipe and sleeps, and writes a byte. -/
theorem usable_pipe_write :
    ∃ h s, ((kernel (0 : Fin 8) (ipc (N := NPROC)) PipeHistory.Fresh).restrict
        WakesReaders).Run h s ∧
      ((0, .wake 1) ∈ h ∧ s.user.pipe.Readable) ∧ ¬(s.mem.proc 1).sleepsOn pipeRead := by
  have hd : PipeHistory.Fresh ⟨⟨⟨fun _ => 0, 0, 0⟩, true, true⟩, [], []⟩ :=
    ⟨rfl, rfl, rfl, rfl, rfl, rfl⟩
  obtain ⟨h, s, r, hfree, hwake, hread⟩ : ∃ h s,
      ((kernel (0 : Fin 8) (ipc (N := NPROC)) PipeHistory.Fresh).restrict WakesReaders).Run h s ∧
        s.holder pipeLock = none ∧ (0, .wake 1) ∈ h ∧ s.user.pipe.Readable := by
    refine exists_run_of_play_restrict (X := ipcChoices)
      (v := ([0, 0, 0, 0, 1] ++ List.replicate 30 0).map (.go 0 true) ++
        ([0, 0, 0, 0, 0, 0, 0, 0, 1, 0, 0, 0, 0, 12] ++ List.replicate 14 0).map (.go 1 true) ++
        ([1, 0, 0, 0, 0, 11, 0, 0, 0, 0, 0, 0, 66] ++ List.replicate 258 0).map (.go 0 true))
      staysInWrite (fun _ _ => of_staysInWrite) ipc_disciplined hd ?_
    set_option maxRecDepth 10000 in rfl
  exact ⟨h, s, r, ⟨hwake, hread⟩, fun hp => (usable_pipe ⟨h, r⟩ hfree 1).1 ⟨hp, hread⟩⟩

/-- The first process has forked two children. One of them reads from the pipe and sleeps; the
first process writes a byte, and is killed by the other child before it writes the second one. It
returns, and the reader sleeps on though there is a byte. -/
theorem usable_pipe_fails :
    ∃ h s, (kernel (0 : Fin 8) (ipc (N := NPROC)) PipeHistory.Fresh).Run h s ∧
      s.holder pipeLock = none ∧ s.holder (.proc 1) = none ∧
        (s.mem.proc 1).sleepsOn pipeRead ∧ s.user.pipe.Readable := by
  have hd : PipeHistory.Fresh ⟨⟨⟨fun _ => 0, 0, 0⟩, true, true⟩, [], []⟩ :=
    ⟨rfl, rfl, rfl, rfl, rfl, rfl⟩
  refine exists_run_of_play (X := ipcChoices)
    (v := ([0, 0, 0, 0, 1] ++ List.replicate 30 0 ++ [1] ++ List.replicate 34 0).map (.go 0 true) ++
      ([0, 0, 0, 0, 0, 0, 0, 0, 1, 0, 0, 0, 0, 12] ++ List.replicate 14 0).map (.go 1 true) ++
      [1, 0, 0, 0, 0, 14, 0, 0, 0, 0, 0, 0, 66].map (.go 0 true) ++
      (List.replicate 12 0 ++ [1, 0, 0, 0, 0, 10, 0, 0, 0, 0]).map (.go 2 true) ++
      List.replicate 7 (.go 0 true 0)) ipc_disciplined hd ?_
  set_option maxRecDepth 10000 in rfl

end Xv6.Kernel
