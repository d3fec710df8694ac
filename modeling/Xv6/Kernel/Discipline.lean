import Xv6.Kernel.Machine
import Mathlib.Order.BooleanAlgebra.Set

/-!
# The lock discipline

`Disc C me L k`: the control `k` of the thread `me`, run on a CPU that holds exactly the locks `L`,
acquires no lock that it holds, releases only locks that it holds, touches a slot only under its
`p->lock`, and calls `sched` with nothing but its own `p->lock`. It is a property of the code, read
off the list of instructions from left to right; an instruction whose code never comes back (the
scheduler's loops, `kexit`, a program point of the client) says nothing about what is below it.

The discipline is kept by every instruction (`disc_exec`), so it needs to be checked of the client
only (`Client.Disciplined`).
-/

namespace Xv6.Kernel

variable {N : ℕ} {υ δ : Type}

/-- The lock discipline of a thread's control. -/
def Disc (C : Client N υ δ) (me : Option (Fin N)) : Set (Lock N) → List (Instr N υ) → Prop
  | _, [] => False
  | L, .acquire l :: k => l ∉ L ∧ Disc C me (insert l L) k
  | L, .release l :: k => l ∈ L ∧ Disc C me (L \ {l}) k
  -- scheduler
  | L, .scan _ _ :: _ => me = none ∧ L = ∅
  | L, .scanTest _ p :: _ => me = none ∧ L = {.proc p}
  | _, .account _ _ :: _ => False
  | L, .aging _ :: _ => me = none ∧ L = ∅
  | L, .agingVisit p :: k => me = none ∧ .proc p ∈ L ∧ Disc C me L k
  -- yield, sleep, wakeup
  | L, .yield :: k => me ≠ none ∧ L = ∅ ∧ Disc C me ∅ k
  | L, .setRunnable p :: k => me = some p ∧ L = {.proc p} ∧ (∃ k', k = .sched p :: k') ∧ Disc C me L k
  | L, .sched p :: k => me = some p ∧ L = {.proc p} ∧ Disc C me L k
  | L, .sleep _ lk :: k => me ≠ none ∧ (∀ p, lk ≠ .proc p) ∧ L = {lk} ∧ Disc C me L k
  | L, .setSleeping p _ :: k =>
    me = some p ∧ L = {.proc p} ∧ (∃ k', k = .sched p :: k') ∧ Disc C me L k
  | L, .clearChan p :: k => me = some p ∧ .proc p ∈ L ∧ Disc C me L k
  | L, .wakeup _ _ :: k => (∀ p, .proc p ∉ L) ∧ Disc C me L k
  | L, .wakeupVisit _ p :: k => me ≠ some p ∧ .proc p ∈ L ∧ Disc C me L k
  -- kkill, setkilled, killed
  | L, .kkill _ _ :: k => (∀ p, .proc p ∉ L) ∧ Disc C me L k
  | L, .kkillVisit _ p :: k =>
    .proc p ∈ L ∧ (∀ q, .proc q ∉ L \ {.proc p}) ∧ Disc C me (L \ {.proc p}) k
  | L, .setkilled :: k => me ≠ none ∧ (∀ p, .proc p ∉ L) ∧ Disc C me L k
  | L, .setkilledVisit p :: k => me = some p ∧ .proc p ∈ L ∧ Disc C me L k
  | L, .killed yes no :: _ =>
    (∀ q, .proc q ∉ L) ∧ ∃ p, me = some p ∧ L = C.locks p yes ∧ L = C.locks p no
  | L, .killedRead p yes no :: _ =>
    me = some p ∧ .proc p ∈ L ∧ L \ {.proc p} = C.locks p yes ∧ L \ {.proc p} = C.locks p no
  -- kexit
  | L, .kexit _ :: _ => me ≠ none ∧ L = ∅
  | L, .reparent p _ :: k => me = some p ∧ .waitLock ∈ L ∧ (∀ q, .proc q ∉ L) ∧ Disc C me L k
  | L, .wakeupParent p :: k => me = some p ∧ (∀ q, .proc q ∉ L) ∧ Disc C me L k
  | L, .setZombie p _ :: k =>
    me = some p ∧ L = {.proc p, .waitLock} ∧
      (∃ k', k = .release .waitLock :: .sched p :: .zombieExit :: k') ∧ Disc C me L k
  | _, .zombieExit :: _ => True
  -- kwait
  | L, .kwait :: k => me ≠ none ∧ L = ∅ ∧ Disc C me ∅ k
  | L, .kwaitScan p _ _ :: k => me = some p ∧ L = {.waitLock} ∧ Disc C me ∅ k
  | L, .kwaitVisit p pp :: k => me = some p ∧ L = {.proc pp, .waitLock} ∧ Disc C me ∅ k
  | L, .kwaitKilled p :: k => me = some p ∧ L = {.proc p, .waitLock} ∧ Disc C me ∅ k
  -- kfork
  | L, .kfork :: k => me ≠ none ∧ L = ∅ ∧ Disc C me ∅ k
  | L, .allocproc p _ :: k => me = some p ∧ L = ∅ ∧ Disc C me ∅ k
  | L, .allocTest p pp :: k => me = some p ∧ L = {.proc pp} ∧ Disc C me ∅ k
  | L, .allocpid pp :: k => .proc pp ∈ L ∧ me ≠ none ∧ .pidLock ∈ L ∧ Disc C me L k
  | L, .allocInit p pp :: k => me = some p ∧ L = {.proc pp} ∧ Disc C me ∅ k
  | L, .forkCopy p pp :: k => me = some p ∧ L = {.proc pp} ∧ Disc C me ∅ k
  | L, .setParent p _ :: k => me = some p ∧ .waitLock ∈ L ∧ Disc C me L k
  | L, .forkRunnable pp :: k => me ≠ none ∧ .proc pp ∈ L ∧ Disc C me L k
  -- traps
  | L, .clockintr :: k => L = ∅ ∧ Disc C me ∅ k
  | L, .tick :: k => .ticksLock ∈ L ∧ Disc C me L k
  | L, .charge :: k => L = ∅ ∧ Disc C me ∅ k
  | L, .kerneltrap :: k => L = ∅ ∧ Disc C me ∅ k
  | L, .usertrap _ :: k => me ≠ none ∧ L = ∅ ∧ Disc C me ∅ k
  | L, .trapKilled p _ :: k => me = some p ∧ L = {.proc p} ∧ Disc C me ∅ k
  | L, .trapRet :: k => L = ∅ ∧ Disc C me ∅ k
  | L, .user u :: _ => ∃ p, me = some p ∧ L = C.locks p u

/-- The instructions that code outside proc.c and trap.c uses: spinlocks other than the `p->lock`s
and the functions of the kernel, from their start. -/
def Instr.IsCall : Instr N υ → Prop
  | .acquire lk | .release lk => ∀ p, lk ≠ .proc p
  | .sleep _ _ | .wakeup _ 0 | .kkill _ 0 | .setkilled | .killed _ _ | .kexit _ | .kwait | .kfork
  | .user _ => True
  | _ => False

/-- What the kernel needs of the code that runs on it: a new process and a killed one begin
without locks, and every program point goes on with disciplined calls of the kernel. -/
structure Client.Disciplined (C : Client N υ δ) : Prop where
  start : ∀ p, C.locks p C.start = ∅
  killed : ∀ p, C.locks p C.killed = ∅
  calls : ∀ p u d d' k, C.sem p u d d' k → ∀ i ∈ k, i.IsCall
  user : ∀ p u d d' k, C.sem p u d d' k → Disc C (some p) (C.locks p u) k

/-! ## The discipline is kept -/

variable {C : Client N υ δ}

/-- Disciplined code that never comes back is disciplined above any code. -/
theorem Disc.append {p : Fin N} {k : List (Instr N υ)} {L : Set (Lock N)}
    (h : Disc C (some p) L k) (k' : List (Instr N υ)) : Disc C (some p) L (k ++ k') := by
  induction k generalizing L with
  | nil => exact h.elim
  | cons i k ih =>
    cases i
    case setRunnable | setSleeping | setZombie =>
      obtain ⟨hme, hL, ⟨k'', rfl⟩, hk⟩ := h
      exact ⟨hme, hL, ⟨_, rfl⟩, ih hk⟩
    all_goals
      simp only [Disc, List.cons_append, reduceCtorEq, false_and] at h ⊢ <;>
        first
          | exact h
          | exact ⟨h.1, ih h.2⟩
          | exact ⟨h.1, h.2.1, ih h.2.2⟩
          | exact ⟨h.1, h.2.1, h.2.2.1, ih h.2.2.2⟩

/-- `sleep` releases its lock while it holds `p->lock`. -/
theorem insert_sdiff_other {p : Fin N} {lk : Lock N} (h : ∀ p, lk ≠ .proc p) :
    (insert (.proc p) {lk} : Set (Lock N)) \ {lk} = {.proc p} := by
  rw [Set.pair_comm, Set.insert_sdiff_self_of_notMem (by simpa using h p)]

/-- **The code of the kernel's functions keeps the discipline.** `my` is the thread, and what
`myproc()` returns on it. -/
theorem disc_exec [NeZero N] (hC : C.Disciplined) {my : Option (Fin N)} {cpu0 ok : Bool}
    {m m' : Mem N υ} {i : Instr N υ} {k k' : List (Instr N υ)} {e : Event N} {L : Set (Lock N)}
    (hd : Disc C my L (i :: k)) (he : exec C cpu0 my ok m i = some (m', k', e)) :
    Disc C my L (k' ++ k) := by
  cases i <;> simp only [exec, reduceCtorEq] at he
  -- updates of the table: the code below comes next
  case setRunnable | setSleeping | setZombie | allocpid => cases he; exact hd.2.2.2
  case agingVisit | clearChan | wakeupVisit | setkilledVisit | setParent | forkRunnable =>
    cases he; exact hd.2.2
  case tick => cases he; exact hd.2
  -- scheduler
  case scan | scanTest | aging =>
    obtain ⟨rfl, rfl⟩ := hd
    split_ifs at he <;> cases he <;> simp [Disc]
  -- yield, sleep, wakeup
  case yield =>
    obtain ⟨p, rfl, he⟩ := Option.map_eq_some_iff.1 he
    cases he
    obtain ⟨-, rfl, hk⟩ := hd
    simp [Disc, yieldCode, hk]
  case sleep chan lk =>
    obtain ⟨p, rfl, he⟩ := Option.map_eq_some_iff.1 he
    cases he
    obtain ⟨-, hlk, rfl, hk⟩ := hd
    simp [Disc, sleepCode, insert_sdiff_other hlk, hk, (hlk p).symm]
  case wakeup =>
    cases he
    obtain ⟨hL, hk⟩ := hd
    unfold wakeupCode
    split_ifs with hp hmy <;> simp_all [Disc]
  -- kkill, setkilled, killed
  case kkill =>
    obtain ⟨hL, hk⟩ := hd
    split_ifs at he <;> cases he <;> simp_all [Disc]
  case kkillVisit =>
    obtain ⟨hp, hL, hk⟩ := hd
    split_ifs at he <;> cases he
    · exact ⟨hp, hk⟩
    · exact ⟨hp, hL, hk⟩
  case setkilled =>
    obtain ⟨p, rfl, he⟩ := Option.map_eq_some_iff.1 he
    cases he
    obtain ⟨-, hL, hk⟩ := hd
    simp [Disc, hL, hk]
  case killed =>
    obtain ⟨p, rfl, he⟩ := Option.map_eq_some_iff.1 he
    cases he
    obtain ⟨hL, _, hp, hy, hn⟩ := hd
    cases hp
    exact ⟨hL p, rfl, Set.mem_insert .., by rwa [Set.insert_sdiff_self_of_notMem (hL p)],
      by rwa [Set.insert_sdiff_self_of_notMem (hL p)]⟩
  case killedRead p yes no =>
    cases he
    obtain ⟨rfl, hp, hy, hn⟩ := hd
    refine ⟨hp, p, rfl, ?_⟩
    split_ifs <;> assumption
  -- kexit
  case kexit =>
    obtain ⟨p, rfl, he'⟩ := Option.bind_eq_some_iff.1 he
    obtain ⟨-, rfl⟩ := hd
    split_ifs at he'
    cases he'
    simp [Disc, kexitCode, Set.pair_comm]
  case reparent =>
    obtain ⟨rfl, hw, hL, hk⟩ := hd
    split_ifs at he <;> cases he <;> simp [Disc, hw, hL, hk]
  case wakeupParent => cases he; exact hd.2
  -- kwait
  case kwait =>
    obtain ⟨p, rfl, he⟩ := Option.map_eq_some_iff.1 he
    cases he
    obtain ⟨-, rfl, hk⟩ := hd
    simp [Disc, hk]
  case kwaitScan =>
    obtain ⟨rfl, rfl, hk⟩ := hd
    split_ifs at he <;> cases he <;> simp [Disc, hk]
  case kwaitVisit | kwaitKilled =>
    obtain ⟨rfl, rfl, hk⟩ := hd
    split_ifs at he <;> cases he <;> simp [Disc, hk]
  -- kfork
  case kfork =>
    obtain ⟨p, rfl, he⟩ := Option.map_eq_some_iff.1 he
    cases he
    obtain ⟨-, rfl, hk⟩ := hd
    simp [Disc, hk]
  case allocproc | allocTest | allocInit =>
    obtain ⟨rfl, rfl, hk⟩ := hd
    split_ifs at he <;> cases he <;> simp [Disc, hk]
  case forkCopy =>
    obtain ⟨rfl, rfl, hk⟩ := hd
    split_ifs at he <;> cases he <;> simp [Disc, forkCode, hk]
  -- traps
  case clockintr =>
    obtain ⟨rfl, hk⟩ := hd
    cases he
    cases cpu0 <;> simp [Disc, clockintrCode, hk]
  case charge =>
    obtain ⟨rfl, hk⟩ := hd
    cases my <;> simp only at he <;> (try split_ifs at he) <;> cases he <;> exact hk
  case kerneltrap =>
    obtain ⟨rfl, hk⟩ := hd
    cases he
    cases my <;> simp [Disc, hk]
  case usertrap =>
    obtain ⟨p, rfl, he⟩ := Option.map_eq_some_iff.1 he
    cases he
    obtain ⟨-, rfl, hk⟩ := hd
    simp [Disc, hk]
  case trapKilled =>
    obtain ⟨rfl, rfl, hk⟩ := hd
    cases he
    split_ifs <;> simp [Disc, hk, hC.killed]
  case trapRet =>
    obtain ⟨rfl, hk⟩ := hd
    cases he
    exact hk

/-- An interrupt of a thread without locks. -/
theorem disc_trapCode {my : Option (Fin N)} {k : List (Instr N υ)} (timer : Bool)
    (hk : Disc C my ∅ k) : Disc C my ∅ (trapCode (inUser C k) timer ++ k) := by
  unfold trapCode
  split_ifs with hu ht
  · have hmy : my ≠ none := by
      cases k with
      | nil => cases hu
      | cons i k =>
        cases i <;> first | cases hu | skip
        obtain ⟨p, rfl, -⟩ := hk
        simp
    exact ⟨hmy, rfl, rfl, hk⟩
  · exact ⟨rfl, rfl, hk⟩
  · exact ⟨rfl, hk⟩

end Xv6.Kernel
