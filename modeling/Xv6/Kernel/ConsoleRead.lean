import Xv6.Kernel.Console
import Xv6.Kernel.Ipc
import Xv6.Kernel.Monitor
import Xv6.Kernel.Simulate

/-!
# Readers of the console

A client of the kernel: processes that read from the console while characters arrive. A process may
be interrupted by `consoleintr` whenever it holds no lock, in user space or in a system call, and
then goes on where it was. The processes also fork, wait, exit and kill each other, and a copy to
user space may fail; both end a call of `consoleread` early.

`log` records what happens to the input: the characters, the bytes that are copied to readers, the
^D that is taken out, and the returns of `consoleread`. The editor that has seen the same characters
tells which bytes the readers get.
-/

namespace Xv6.Kernel

variable {N : ℕ}

/-- What happens to the input. `n` is the argument of a call of `consoleread`, and `a0` its
result. -/
inductive ConsAct (N : ℕ)
  /-- `consoleintr(c)` -/
  | input (c : UInt8)
  /-- `p` gets `c`. -/
  | copy (p : Fin N) (c : UInt8)
  /-- `c` is taken out for `p`, but cannot be copied, and the call returns. -/
  | fail (p : Fin N) (c : UInt8) (n a0 : ℤ)
  /-- `p` takes out a ^D, and the call returns. -/
  | eof (p : Fin N) (n a0 : ℤ)
  /-- The call returns for another reason. -/
  | ret (p : Fin N) (n a0 : ℤ)

/-- The console, and what has happened, newest first. -/
structure ConsHistory (N : ℕ) where
  cons : Cons
  log : List (ConsAct N)

namespace ConsHistory

/-- The act `a`, which leaves `cons` as `d`. -/
def act (h : ConsHistory N) (d : Cons) (a : ConsAct N) : ConsHistory N where
  cons := d
  log := a :: h.log

/-- After `consoleinit`. -/
structure Fresh (h : ConsHistory N) : Prop where
  r : h.cons.r = 0
  w : h.cons.w = 0
  e : h.cons.e = 0
  log : h.log = []

end ConsHistory

/-- The variables of `consoleread`; `copied` is `target - n`. -/
structure Reading where
  target : ℤ
  copied : ℕ
  le : copied = 0 ∨ copied ≤ target

namespace Reading

/-- The variable `n`. -/
def n (x : Reading) : ℤ := x.target - x.copied

/-- At the start of the call. -/
def start (n : ℤ) : Reading where
  target := n
  copied := 0
  le := .inl rfl

/-- `--n` -/
def next (x : Reading) (h : 0 < x.n) : Reading where
  target := x.target
  copied := x.copied + 1
  le := .inr (by
    rw [n] at h
    omega)

end Reading

/-- The program points of a process that reads from the console. -/
inductive ConsPoint
  /-- in user space -/
  | user
  /-- `usertrap`: a system call -/
  | syscall
  /-- `usertrap`: after the system call, whose result is `a0` -/
  | ret (a0 : ℤ)
  /-- `kexit(status)` -/
  | exit (status : ℤ)
  /-- `consoleread`: the loops, `cons.lock` held -/
  | read (x : Reading)
  /-- `consoleread`: the early return -/
  | readAbort (x : Reading)
  /-- `consoleread`: before `sleep(&cons.r, &cons.lock)` -/
  | readSleep (x : Reading)
  /-- `consoleintr(c)`, `cons.lock` held; the interrupted process goes on at `u` -/
  | intr (c : UInt8) (u : ConsPoint)

namespace ConsPoint

/-- The process holds `cons.lock`. -/
def locked : ConsPoint → Bool
  | .read _ | .readAbort _ | .readSleep _ | .intr _ _ => true
  | _ => false

/-- The spinlocks held at a program point. -/
def locks : ConsPoint → Set (Lock N)
  | .read _ | .readAbort _ | .readSleep _ | .intr _ _ => {consLock}
  | _ => ∅

theorem locks_of_not_locked {u : ConsPoint} (h : u.locked = false) :
    (u.locks : Set (Lock N)) = ∅ := by
  cases u <;> first | rfl | cases h

end ConsPoint

/-- The end of `consoleintr`, after which the interrupted process goes on at `u`. -/
def consoleintrEnd (wake : Bool) (u : ConsPoint) : List (Instr N ConsPoint) :=
  if wake then [.wakeup consR 0, .release consLock, .user u] else [.release consLock, .user u]

/-- What the process `p` does next. -/
inductive Console (p : Fin N) :
    ConsPoint → ConsHistory N → ConsHistory N → List (Instr N ConsPoint) → Prop
  | compute {d} : Console p .user d d [.user .user]
  | ecall {d} : Console p .user d d [.killed (.exit (-1)) .syscall]
  | ret {d} (a0 : ℤ) : Console p (.ret a0) d d [.killed (.exit (-1)) .user]
  | fork {d} (a0 : ℤ) : Console p .syscall d d [.kfork, .user (.ret a0)]
  | wait {d} (a0 : ℤ) : Console p .syscall d d [.kwait, .user (.ret a0)]
  | kill {d} (pid a0 : ℤ) : Console p .syscall d d [.kkill pid 0, .user (.ret a0)]
  | exit {d} (status : ℤ) : Console p .syscall d d [.user (.exit status)]
  | kexit {d} (status : ℤ) : Console p (.exit status) d d [.kexit status]
  -- uartintr
  | uartintr {d u} (hu : u.locked = false) (c : UInt8) :
      Console p u d d [.acquire consLock, .user (.intr c u)]
  | consoleintr {d u} (hu : u.locked = false) (c : UInt8) :
      Console p (.intr c u) d (d.act (d.cons.consoleintr c).1 (.input c))
        (consoleintrEnd (d.cons.consoleintr c).2 u)
  -- consoleread
  | consoleread {d} (n : ℤ) :
      Console p .syscall d d [.acquire consLock, .user (.read (.start n))]
  | done {d} {x : Reading} (h : ¬0 < x.n) :
      Console p (.read x) d (d.act d.cons (.ret p x.target x.copied))
        [.release consLock, .user (.ret x.copied)]
  | wait_ {d} {x : Reading} (h : 0 < x.n) (he : d.cons.r = d.cons.w) :
      Console p (.read x) d d [.killed (.readAbort x) (.readSleep x)]
  | readAbort {d} (x : Reading) :
      Console p (.readAbort x) d (d.act d.cons (.ret p x.target (-1)))
        [.release consLock, .user (.ret (-1))]
  | readSleep {d} (x : Reading) :
      Console p (.readSleep x) d d [.sleep consR consLock, .user (.read x)]
  /-- ^D after other bytes is put back. -/
  | save {d} {x : Reading} (h : 0 < x.n) (hne : d.cons.r ≠ d.cons.w)
      (hc : d.cons.ring.front = ctrl 'D') (hn : x.n < x.target) :
      Console p (.read x) d (d.act d.cons.take.untake (.ret p x.target x.copied))
        [.release consLock, .user (.ret x.copied)]
  | eof {d} {x : Reading} (h : 0 < x.n) (hne : d.cons.r ≠ d.cons.w)
      (hc : d.cons.ring.front = ctrl 'D') (hn : ¬x.n < x.target) :
      Console p (.read x) d (d.act d.cons.take (.eof p x.target x.copied))
        [.release consLock, .user (.ret x.copied)]
  | fail {d} {x : Reading} (h : 0 < x.n) (hne : d.cons.r ≠ d.cons.w)
      (hc : d.cons.ring.front ≠ ctrl 'D') :
      Console p (.read x) d
        (d.act d.cons.take (.fail p d.cons.ring.front x.target x.copied))
        [.release consLock, .user (.ret x.copied)]
  | copy {d} {x : Reading} (h : 0 < x.n) (hne : d.cons.r ≠ d.cons.w)
      (hc : d.cons.ring.front ≠ ctrl 'D') (hl : d.cons.ring.front ≠ newline) :
      Console p (.read x) d (d.act d.cons.take (.copy p d.cons.ring.front))
        [.user (.read (x.next h))]
  | line {d} {x : Reading} (h : 0 < x.n) (hne : d.cons.r ≠ d.cons.w)
      (hc : d.cons.ring.front ≠ ctrl 'D') (hl : d.cons.ring.front = newline) :
      Console p (.read x) d
        ((d.act d.cons.take (.copy p d.cons.ring.front)).act d.cons.take
          (.ret p x.target (x.next h).copied))
        [.release consLock, .user (.ret (x.next h).copied)]

/-- The processes that read from the console. -/
def console : Client N ConsPoint (ConsHistory N) where
  start := .user
  killed := .exit (-1)
  inUser
    | .user => true
    | _ => false
  sem := Console
  locks _ u := u.locks

theorem console_disciplined : (console : Client N ConsPoint (ConsHistory N)).Disciplined where
  start _ := rfl
  killed _ := rfl
  calls p u d d' k h i hi := by
    cases h
    case consoleintr => grind [Instr.IsCall, consLock, consoleintrEnd]
    all_goals
      simp only [List.mem_cons, List.not_mem_nil, or_false] at hi
      grind [Instr.IsCall, consLock]
  user p u d d' k h := by
    cases h with
    | uartintr hu c =>
      have hintr : ((ConsPoint.intr c u).locks : Set (Lock N)) = {consLock} := rfl
      simp [Disc, console, ConsPoint.locks_of_not_locked hu, hintr]
    | @consoleintr d u hu c =>
      have hintr : ((ConsPoint.intr c u).locks : Set (Lock N)) = {consLock} := rfl
      unfold consoleintrEnd
      split_ifs <;> simp [Disc, console, ConsPoint.locks_of_not_locked hu, hintr, consLock]
    | _ => simp [Disc, console, ConsPoint.locks, consLock]

/-! ## The editor that has seen the same characters -/

namespace ConsAct

/-- The byte that is taken out of the buffer. -/
def taken : ConsAct N → List UInt8
  | copy _ c | fail _ c _ _ => [c]
  | eof _ _ _ => [ctrl 'D']
  | input _ | ret _ _ _ => []

/-- The byte that a reader gets. -/
def copied : ConsAct N → List UInt8
  | copy _ c => [c]
  | input _ | fail _ _ _ _ | eof _ _ _ | ret _ _ _ => []

/-- What an act means to the editor. -/
def edit (a : ConsAct N) (ed : Editor) : Editor :=
  match a with
  | input c => ed.input c
  | copy _ _ | fail _ _ _ _ | eof _ _ _ => ed.read
  | ret _ _ _ => ed

/-- An act as it should be: ^D is no data, a ^D makes a read of at least one byte return 0, and no
other such read returns 0. -/
def Ok : ConsAct N → Prop
  | input _ => True
  | copy _ c | fail _ c _ _ => c ≠ ctrl 'D'
  | eof _ n a0 => 0 < n ∧ a0 = 0
  | ret _ n a0 => 0 < n → a0 ≠ 0

end ConsAct

/-- The bytes that have been taken out of the buffer, in order. -/
def takenBytes : List (ConsAct N) → List UInt8
  | [] => []
  | a :: log => takenBytes log ++ a.taken

/-- The bytes that readers have got, in order. -/
def copiedBytes : List (ConsAct N) → List UInt8
  | [] => []
  | a :: log => copiedBytes log ++ a.copied

/-- The editor that has seen the same characters. -/
def editor : List (ConsAct N) → Editor
  | [] => { committed := [], line := [], consumed := 0 }
  | a :: log => a.edit (editor log)

/-- The console is the editor, and what has been taken out is what the editor has committed
first. -/
structure ConsHistory.Tracks (d : ConsHistory N) : Prop where
  shows : d.cons.Shows (editor d.log)
  taken : takenBytes d.log = (editor d.log).committed.take (editor d.log).consumed
  ok : ∀ a ∈ d.log, a.Ok

namespace ConsHistory

variable {d : ConsHistory N}

theorem Fresh.tracks (h : d.Fresh) : d.Tracks := by
  have hcount : d.cons.ring.count = 0 := Ring.count_eq_zero.2 (h.r.trans h.e.symm)
  have hlog := h.log
  refine ⟨?_, ?_, ?_⟩
  · rw [hlog]
    refine ⟨?_, ?_, Nat.zero_le _, fun _ => rfl, List.not_mem_nil, Nat.zero_le _⟩
    · rw [Ring.contents, hcount]
      rfl
    · rw [h.w, h.r]
      rfl
  · rw [hlog]
    rfl
  · rw [hlog]
    rintro a ⟨⟩

/-- A return. -/
theorem Tracks.ret (h : d.Tracks) (p : Fin N) {n a0 : ℤ} (hok : 0 < n → a0 ≠ 0) :
    (d.act d.cons (.ret p n a0)).Tracks where
  shows := h.shows
  taken := (List.append_nil _).trans h.taken
  ok := List.forall_mem_cons.2 ⟨hok, h.ok⟩

/-- A character arrives. -/
theorem Tracks.input (h : d.Tracks) (c : UInt8) :
    (d.act (d.cons.consoleintr c).1 (.input c)).Tracks where
  shows := h.shows.consoleintr c
  taken := by
    have hle := h.shows.consumed
    obtain ⟨l, hl⟩ := (editor d.log).committed_prefix_input c
    have hc : ((editor d.log).input c).consumed = (editor d.log).consumed :=
      (editor d.log).consumed_input c
    show takenBytes d.log ++ [] = ((editor d.log).input c).committed.take _
    rw [List.append_nil, h.taken]
    show _ = List.take ((editor d.log).input c).consumed _
    rw [hc, ← hl, List.take_append_of_le_length hle]
  ok := List.forall_mem_cons.2 ⟨trivial, h.ok⟩

/-- A byte is taken out. -/
theorem Tracks.take (h : d.Tracks) (hne : d.cons.r ≠ d.cons.w) {a : ConsAct N}
    (ha : a.taken = [d.cons.ring.front]) (hedit : ∀ ed, a.edit ed = ed.read) (hok : a.Ok) :
    (d.act d.cons.take a).Tracks where
  shows := by
    show d.cons.take.Shows (a.edit (editor d.log))
    rw [hedit]
    exact (h.shows.take hne).1
  taken := by
    show takenBytes d.log ++ a.taken = (a.edit (editor d.log)).committed.take
      (a.edit (editor d.log)).consumed
    rw [hedit, ha, h.taken]
    exact (h.shows.take hne).2.symm
  ok := List.forall_mem_cons.2 ⟨hok, h.ok⟩

theorem Tracks.step {p : Fin N} {u : ConsPoint} {d' : ConsHistory N} {k : List (Instr N ConsPoint)}
    (hstep : Console p u d d' k) (h : d.Tracks) : d'.Tracks := by
  cases hstep with
  | consoleintr _ c => exact h.input c
  | @done _ x hn =>
    refine h.ret p fun hpos hzero => hn ?_
    rw [Reading.n, hzero]
    omega
  | readAbort x => exact h.ret p fun _ => by decide
  | @save _ x hn hne hc hlt =>
    have huntake : d.cons.take.untake = d.cons := by
      rw [Cons.take, Cons.untake, Ring.unpop_pop]
    rw [huntake]
    refine h.ret p fun _ hzero => ?_
    rw [Reading.n, hzero] at hlt
    omega
  | @eof _ x hn hne hc hlt =>
    refine h.take hne ?_ (fun _ => rfl) ?_
    · rw [hc]
      rfl
    · rw [Reading.n] at hn hlt
      have hle := x.le
      exact ⟨by omega, by omega⟩
  | fail hn hne hc => exact h.take hne rfl (fun _ => rfl) hc
  | copy hn hne hc hl => exact h.take hne rfl (fun _ => rfl) hc
  | @line _ x hn hne hc hl =>
    have ht : (d.act d.cons.take (.copy p d.cons.ring.front)).Tracks :=
      h.take hne rfl (fun _ => rfl) hc
    exact ht.ret p fun _ => by
      show ((x.copied + 1 : ℕ) : ℤ) ≠ 0
      omega
  | _ => exact h

end ConsHistory

/-! ## What the readers get -/

namespace ConsAct

/-- A call of `consoleread` for at least one byte returns 0. -/
def ReturnsZero : ConsAct N → Prop
  | eof _ n a0 | ret _ n a0 | fail _ _ n a0 => 0 < n ∧ a0 = 0
  | input _ | copy _ _ => False

instance : DecidablePred (ReturnsZero : ConsAct N → Prop)
  | eof _ _ _ | ret _ _ _ | fail _ _ _ _ => inferInstanceAs (Decidable (_ ∧ _))
  | input _ | copy _ _ => inferInstanceAs (Decidable False)

/-- A copy to user space failed. -/
def Fails : ConsAct N → Prop
  | fail _ _ _ _ => True
  | _ => False

/-- The bytes of an act are those that are taken out, without ^D. -/
theorem Ok.copied {a : ConsAct N} (h : a.Ok) (hf : ¬a.Fails) :
    a.copied = a.taken.filter (· ≠ ctrl 'D') := by
  cases a with
  | copy p c =>
    have hc : c ≠ ctrl 'D' := h
    simp only [ConsAct.copied, ConsAct.taken, List.filter_singleton, hc, ne_eq, not_false_eq_true,
      decide_true, cond_true]
  | fail => exact (hf trivial).elim
  | _ => rfl

/-- A ^D is taken out by the calls that return 0, and by no others. -/
theorem Ok.count {a : ConsAct N} (h : a.Ok) (hf : ¬a.Fails) :
    a.taken.count (ctrl 'D') = if a.ReturnsZero then 1 else 0 := by
  cases a with
  | input c => rfl
  | copy p c =>
    exact List.count_eq_zero_of_not_mem (List.mem_singleton.not.2 (Ne.symm h))
  | fail => exact (hf trivial).elim
  | eof p n a0 => exact (if_pos h).symm
  | ret p n a0 => exact (if_neg fun hz => h hz.1 hz.2).symm

end ConsAct

theorem copiedBytes_eq {log : List (ConsAct N)} (hok : ∀ a ∈ log, a.Ok)
    (hf : ∀ a ∈ log, ¬a.Fails) : copiedBytes log = (takenBytes log).filter (· ≠ ctrl 'D') := by
  induction log with
  | nil => rfl
  | cons a log ih =>
    obtain ⟨ha, hok⟩ := List.forall_mem_cons.1 hok
    obtain ⟨hfa, hf⟩ := List.forall_mem_cons.1 hf
    rw [copiedBytes, takenBytes, List.filter_append, ih hok hf, ha.copied hfa]

theorem count_takenBytes {log : List (ConsAct N)} (hok : ∀ a ∈ log, a.Ok)
    (hf : ∀ a ∈ log, ¬a.Fails) :
    (takenBytes log).count (ctrl 'D') = log.countP fun a => decide a.ReturnsZero := by
  induction log with
  | nil => rfl
  | cons a log ih =>
    obtain ⟨ha, hok⟩ := List.forall_mem_cons.1 hok
    obtain ⟨hfa, hf⟩ := List.forall_mem_cons.1 hf
    rw [takenBytes, List.count_append, ih hok hf, ha.count hfa, List.countP_cons]
    simp only [decide_eq_true_eq]

/-! ## The monitor -/

/-- `cons.r` and `cons.w` change only under the lock. -/
theorem Console.iff_or_locked {p : Fin N} {u : ConsPoint} {d d' : ConsHistory N}
    {k : List (Instr N ConsPoint)} (h : Console p u d d' k) (Cond : ConsHistory N → Prop) :
    (Cond d ↔ Cond d') ∨ consLock ∈ (u.locks : Set (Lock N)) := by
  cases h with
  | compute | ecall | ret | fork | wait | kill | exit | kexit | uartintr | consoleread =>
    exact .inl Iff.rfl
  | _ => exact .inr rfl

/-- `consoleread` is about to sleep. -/
def ConsPoint.Sleeps : ConsPoint → Prop
  | .readSleep _ => True
  | _ => False

theorem ConsPoint.not_sleeps {u : ConsPoint} (h : u.locked = false) : ¬u.Sleeps := by
  intro hs
  cases u <;> first | exact hs | cases h

/-- Between the test of `cons.r == cons.w` and the call of `sleep`. The channel is one that nobody
sleeps on. -/
theorem console_sleeps : (console : Client N ConsPoint (ConsHistory N)).Loops 1 3 ConsPoint.Sleeps
    (fun d => d.cons.r = d.cons.w) (fun _ _ _ => True) where
  loop p u d d' k h _ := by
    cases h with
    | wait_ hn he => exact .inr (.inr ⟨.killed (.inr trivial) (by simp [Calm]), he⟩)
    | @uartintr _ _ hu c => exact .inl (by simp [Calm, Instr.Marked, ConsPoint.Sleeps])
    | @consoleintr _ _ hu c =>
      left
      unfold consoleintrEnd
      split_ifs <;> simp [Calm, Instr.Marked, ConsPoint.not_sleeps hu]
    | _ =>
      left
      simp only [Calm, List.mem_cons, List.not_mem_nil, or_false, forall_eq_or_imp, forall_eq,
        Instr.Marked, ConsPoint.Sleeps, not_false_eq_true, and_self, or_self, consR,
        Chan.addr.injEq, Nat.reduceEqDiff]
  left p u hu := by
    cases u <;> first | exact hu.elim | rfl
  start := id
  killed := id
  change p u d d' k h _ := h.iff_or_locked (fun d => d.cons.r = d.cons.w)

/-- What a process in the middle of `consoleread` knows of the console. -/
def Console.Knows (_ : Fin N) (u : ConsPoint) (d : ConsHistory N) : Prop :=
  u.Sleeps → d.cons.r = d.cons.w

/-- The channel `&cons.r`. -/
theorem console_consR : (console : Client N ConsPoint (ConsHistory N)).DueMonitor 1 2
    (fun _ => False) (fun _ => False) (fun _ => False) (fun d => d.cons.r ≠ d.cons.w)
    Console.Knows where
  loop p u d d' k h hI := by
    cases h with
    | readSleep x =>
      exact .inr (.inl ⟨[], _, rfl, List.forall_mem_nil _, by simp [Calm, Instr.Marked],
        not_not.2 (hI trivial)⟩)
    | consoleintr hu c =>
      left
      unfold consoleintrEnd
      split_ifs <;> simp [Calm, Instr.Marked]
    | _ =>
      left
      simp only [Calm, List.mem_cons, List.not_mem_nil, or_false, forall_eq_or_imp, forall_eq,
        Instr.Marked, not_false_eq_true, and_self, or_self]
  left _ _ := False.elim
  start := id
  killed := id
  change p u d d' k h _ := h.iff_or_locked (fun d => d.cons.r ≠ d.cons.w)
  wake p u d d' k h _ hu hd := by
    obtain ⟨-, hbefore⟩ := hu.resolve_left id
    cases h with
    | consoleintr _ c =>
      obtain ⟨hr, hw⟩ := d.cons.consoleintr_r_w c
      cases hwake : (d.cons.consoleintr c).2 with
      | true => exact .inl ⟨_, if_pos rfl⟩
      | false =>
        refine absurd (fun he => hd ?_) hbefore
        exact (hr.trans he).trans (hw hwake).symm
    | save _ hne | eof _ hne | fail _ hne | copy _ hne | line _ hne => exact absurd hne hbefore
    | _ => exact absurd hd hbefore

section Reachable

variable {κ : Type} [DecidableEq κ] [NeZero N] {boot : κ} {s : State κ N ConsPoint (ConsHistory N)}

theorem console_knows (hs : (kernel boot console ConsHistory.Fresh).Reachable s) :
    s.Relies Console.Knows := by
  intro c p u k _ hctl hu
  have hsafe := safe_of_reachable console_disciplined hs
  have htrivial : ∀ s, (kernel boot (console : Client N ConsPoint (ConsHistory N))
      ConsHistory.Fresh).Reachable s → s.Relies fun _ _ _ => True :=
    fun _ _ _ _ _ _ _ _ => trivial
  exact ((loopOk_of_reachable console_disciplined console_sleeps htrivial hs).cond_of_left hsafe
    console_sleeps hctl hu).2

/-! ## The result -/

/-- The console in the state `s`. -/
structure LineDiscipline (s : State κ N ConsPoint (ConsHistory N)) : Prop where
  /-- `r <= w <= e <= r + INPUT_BUF_SIZE`, and a full buffer is committed. -/
  order : (s.user.cons.w - s.user.cons.r).toNat ≤ (s.user.cons.e - s.user.cons.r).toNat ∧
    (s.user.cons.e - s.user.cons.r).toNat ≤ INPUT_BUF_SIZE ∧
    (s.user.cons.e = s.user.cons.r + BitVec.ofNat 32 INPUT_BUF_SIZE → s.user.cons.w = s.user.cons.e)
  /-- From `r` to `w` are the characters that the editor has committed and nobody has taken, and
  from `w` to `e` is its line. -/
  buffer : s.user.cons.ring.contents = (editor s.user.log).queue ++ (editor s.user.log).line ∧
    (s.user.cons.w - s.user.cons.r).toNat = (editor s.user.log).queue.length
  /-- A further character leaves what has been committed as it is. -/
  kept : ∀ c, (editor s.user.log).committed <+: (editor (.input c :: s.user.log)).committed
  /-- What has been taken is what the editor has committed first. -/
  taken : takenBytes s.user.log ++ (editor s.user.log).queue = (editor s.user.log).committed
  /-- When all copies succeed, the readers get that, without the ^Ds. -/
  delivered : (∀ a ∈ s.user.log, ¬a.Fails) →
    copiedBytes s.user.log = (takenBytes s.user.log).filter (· ≠ ctrl 'D')
  /-- Then each ^D makes one read return 0, and no other read of at least one byte does. -/
  eof : (∀ a ∈ s.user.log, ¬a.Fails) → (takenBytes s.user.log).count (ctrl 'D')
    = s.user.log.countP fun a => decide a.ReturnsZero
  /-- A call that takes a ^D returns 0. -/
  zero : ∀ p n a0, .eof p n a0 ∈ s.user.log → 0 < n ∧ a0 = 0
  /-- Nobody sleeps while there is a line. -/
  awake : s.holder consLock = none → s.user.cons.r ≠ s.user.cons.w →
    ∀ p, ¬(s.mem.proc p).sleepsOn consR

/-- **The console's line discipline**, for any interleaving of `consoleintr` and `consoleread` on
the multiprocessor kernel. -/
theorem lineDiscipline_of_reachable (hs : (kernel boot console ConsHistory.Fresh).Reachable s) :
    LineDiscipline s := by
  have h : s.user.Tracks := user_of_reachable (fun d hd => hd.tracks)
    (fun _ _ _ _ _ hstep h => h.step hstep) hs
  have hmonitor : MonitorOk 1 2 (fun _ => False) (fun _ => False)
      (fun d : ConsHistory N => d.cons.r ≠ d.cons.w) s :=
    monitorOk_of_restrict console_disciplined console_consR (fun _ _ _ _ _ _ => False.elim)
      (fun _ => console_knows) (hs.restrict fun _ _ => trivial)
  have hcount : (s.user.cons.e - s.user.cons.r).toNat
      = (editor s.user.log).queue.length + (editor s.user.log).line.length := h.shows.count
  refine ⟨⟨?_, ?_, fun he => ?_⟩, ⟨h.shows.contents, h.shows.unread⟩,
    (editor s.user.log).committed_prefix_input, ?_, copiedBytes_eq h.ok, count_takenBytes h.ok,
    fun p n a0 ha => h.ok _ ha, hmonitor.not_sleeping⟩
  · rw [hcount, h.shows.unread]
    exact Nat.le_add_right ..
  · rw [hcount]
    exact h.shows.room
  · have hfull : (editor s.user.log).Full := by
      rw [← h.shows.full_iff, he, BitVec.add_comm, BitVec.add_sub_cancel]
      rfl
    by_contra hne
    exact h.shows.e_ne_w.1 (Ne.symm hne) (h.shows.full hfull)
  · rw [h.taken]
    exact List.take_append_drop ..

end Reachable

/-- The choices of a process: in user space 1 is a system call, and `c + 2` an interrupt for the
character `c`; at `syscall` the number is the argument of `consoleread`. -/
def Console.pick (p : Fin N) (d : ConsHistory N) :
    ConsPoint → ℕ → Option (ConsHistory N × List (Instr N ConsPoint))
  | .user, 0 => some (d, [.user .user])
  | .user, 1 => some (d, [.killed (.exit (-1)) .syscall])
  | .user, c + 2 => some (d, [.acquire consLock, .user (.intr (.ofNat c) .user)])
  | .syscall, n => some (d, [.acquire consLock, .user (.read (.start n))])
  | .ret _, _ => some (d, [.killed (.exit (-1)) .user])
  | .intr c .user, _ =>
    some (d.act (d.cons.consoleintr c).1 (.input c),
      consoleintrEnd (d.cons.consoleintr c).2 .user)
  | .read x, _ =>
    if h : 0 < x.n then
      if d.cons.r = d.cons.w then some (d, [.killed (.readAbort x) (.readSleep x)])
      else if d.cons.ring.front = ctrl 'D' then
        if x.n < x.target then
          some (d.act d.cons.take.untake (.ret p x.target x.copied),
            [.release consLock, .user (.ret x.copied)])
        else some (d.act d.cons.take (.eof p x.target x.copied),
          [.release consLock, .user (.ret x.copied)])
      else if d.cons.ring.front = newline then
        some ((d.act d.cons.take (.copy p d.cons.ring.front)).act d.cons.take
          (.ret p x.target (x.next h).copied), [.release consLock, .user (.ret (x.next h).copied)])
      else some (d.act d.cons.take (.copy p d.cons.ring.front), [.user (.read (x.next h))])
    else some (d.act d.cons (.ret p x.target x.copied), [.release consLock, .user (.ret x.copied)])
  | .readSleep x, _ => some (d, [.sleep consR consLock, .user (.read x)])
  | _, _ => none

theorem Console.of_pick {p : Fin N} {u : ConsPoint} {d d' : ConsHistory N} {n : ℕ}
    {k : List (Instr N ConsPoint)} (h : pick p d u n = some (d', k)) : Console p u d d' k := by
  unfold pick at h
  repeat' split at h
  all_goals cases h
  all_goals constructor <;> first | assumption | rfl

/-- The choices of `console`. -/
def consoleChoices : (console : Client N ConsPoint (ConsHistory N)).Choices where
  pick p u d n := Console.pick p d u n
  free
    | .user | .syscall | .ret _ | .exit _ => true
    | _ => false
  sem_of_pick _ _ _ _ _ _ h := Console.of_pick h
  locks_of_free p u h := by
    cases u <;> first | rfl | cases h

/-- The characters a, ^D arrive, and the first process of the source reads two bytes twice: it gets
the a, and then nothing. -/
theorem lineDiscipline_read :
    ∃ s, (kernel (0 : Fin 8) (console (N := NPROC)) ConsHistory.Fresh).Reachable s ∧
      takenBytes s.user.log = [97, 4] ∧ copiedBytes s.user.log = [97] ∧ LineDiscipline s := by
  have hd : ConsHistory.Fresh (N := NPROC) ⟨⟨⟨fun _ => 0, 0, 0⟩, 0⟩, []⟩ := ⟨rfl, rfl, rfl, rfl⟩
  have hrun : ∃ h s, (kernel (0 : Fin 8) (console (N := NPROC)) ConsHistory.Fresh).Run h s ∧
      (takenBytes s.user.log = [97, 4] ∧ copiedBytes s.user.log = [97]) := by
    refine exists_run_of_play (X := consoleChoices)
      (v := ([0, 0, 0, 0, 99, 0, 0, 0, 6, 0, 0] ++ List.replicate 255 0 ++
        [1, 0, 0, 0, 0, 2, 0, 0, 0, 0, 0, 0, 0, 0, 0, 1, 0, 0, 0, 0, 2, 0, 0, 0]).map (.go 0 true))
      console_disciplined hd ?_
    set_option maxRecDepth 10000 in rfl
  obtain ⟨h, s, r, hs⟩ := hrun
  exact ⟨s, ⟨h, r⟩, hs.1, hs.2, lineDiscipline_of_reachable ⟨h, r⟩⟩

end Xv6.Kernel
