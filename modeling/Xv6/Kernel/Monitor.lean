import Xv6.Kernel.Threads

/-!
# No lost wakeup

A monitor is a condition `Cond` on the client's data, a spinlock `lk` and a channel `chan`. Its
waiters run `while(!Cond) sleep(chan, lk)` with `lk` held, and are at a program point of `G` when
they have left the loop; who makes the condition true does so under `lk` and calls `wakeup(chan)`
before it releases `lk` (`Client.Monitor`). Then no process sleeps on the channel while the
condition holds and the lock is free (`not_sleeping_of_free`), and a waiter that has left the loop
holds the lock and finds the condition true (`cond_of_left`), for any other code of the client,
interrupts and `kkill`s.

The call of `wakeup` need not follow at once: it is due as long as the process is at a program point
of `O` (`Client.DueMonitor`). At the points of `Q` the client may drop it; then the result holds in
the runs in which this happens only when nobody is there to be woken up (`State.DropsNone`).

The invariant (`MonitorOk`) follows a waiter into `sleep` (`Waits`). While it is going there, `lk`
is held and the condition does not hold. Once it has released `lk` it holds its `p->lock` until it
is SLEEPING, so a `wakeup` that starts after that cannot pass it before it sleeps; while the
condition holds, the holder of `lk` is in such a `wakeup`, and has not come to the waiter's slot
(`Waking`), or its `wakeup` is due (`owes`).
-/

namespace Xv6.Kernel

variable {κ : Type} {N : ℕ} {υ δ : Type}

/-! ## The code of waiters and wakers -/

/-- The instruction puts its process to sleep on `chan`, or may go on at a program point of `G`. -/
def Instr.Marked (chan : Chan N) (G : υ → Prop) : Instr N υ → Prop
  | .sleep chan' _ | .setSleeping _ chan' => chan' = chan
  | .user u => G u
  | .killed yes no | .killedRead _ yes no => G yes ∨ G no
  | _ => False

/-- No instruction of `k` is marked. -/
def Calm (chan : Chan N) (G : υ → Prop) (k : List (Instr N υ)) : Prop :=
  ∀ i ∈ k, ¬i.Marked chan G

/-- Where a process is, seen from the monitor. -/
inductive WaitPhase
  /-- elsewhere -/
  | away
  /-- on its way into `sleep`, `lk` held -/
  | going
  /-- on its way into `sleep`, `lk` released and its `p->lock` held -/
  | lying
  /-- it has left the loop -/
  | left

/-- The control comes to a program point of `G`, or may do so after a test of `killed`. -/
inductive Arrives (chan : Chan N) (G : υ → Prop) : List (Instr N υ) → Prop
  | user {u k} (hu : G u) (h : Calm chan G k) : Arrives chan G (.user u :: k)
  | killed {yes no k} (hu : G yes ∨ G no) (h : Calm chan G k) : Arrives chan G (.killed yes no :: k)
  | locking {q yes no k} (hu : G yes ∨ G no) (h : Calm chan G k) :
      Arrives chan G (.acquire (.proc q) :: .killedRead q yes no :: k)
  | read {q yes no k} (hu : G yes ∨ G no) (h : Calm chan G k) :
      Arrives chan G (.killedRead q yes no :: k)
  | unlocking {q u k} (hu : G u) (h : Calm chan G k) :
      Arrives chan G (.release (.proc q) :: .user u :: k)

/-- The control of the process `p` in each phase. -/
inductive Waits (lk : Lock N) (chan : Chan N) (G : υ → Prop) (p : Fin N) :
    WaitPhase → List (Instr N υ) → Prop
  | away {k} (h : Calm chan G k) : Waits lk chan G p .away k
  | call {k} (h : Calm chan G k) : Waits lk chan G p .going (.sleep chan lk :: k)
  | unlocking {k} (h : Calm chan G k) :
      Waits lk chan G p .going (.release lk :: .setSleeping p chan :: k)
  | passing {i k} (hi : i.Passing) (h : Waits lk chan G p .going k) :
      Waits lk chan G p .going (i :: k)
  | lying {k} (h : Calm chan G k) : Waits lk chan G p .lying (.setSleeping p chan :: k)
  | left {k} (h : Arrives chan G k) : Waits lk chan G p .left k

/-- The control is in `wakeup(chan)`, and its loop has not passed the slot `p` yet. -/
inductive Waking (chan : Chan N) (p : Fin N) : List (Instr N υ) → Prop
  | loop {j k} (h : j ≤ p.val) : Waking chan p (.wakeup chan j :: k)
  | acquire {q : Fin N} {k} (h : q ≤ p) :
      Waking chan p (.acquire (.proc q) :: .wakeupVisit chan q :: .release (.proc q) ::
        .wakeup chan (q + 1) :: k)
  | visit {q : Fin N} {k} (h : q ≤ p) :
      Waking chan p (.wakeupVisit chan q :: .release (.proc q) :: .wakeup chan (q + 1) :: k)
  | release {q : Fin N} {k} (h : q < p) :
      Waking chan p (.release (.proc q) :: .wakeup chan (q + 1) :: k)

/-- What a client must do about the monitor of `Cond`, the lock `n` and the channel `a`; `I` is what
it can rely on when a process takes a step. -/
structure Client.Monitor (C : Client N υ δ) (n a : ℕ) (G : υ → Prop) (Cond : δ → Prop)
    (I : Fin N → υ → δ → Prop) : Prop where
  /-- It goes to sleep on the channel when it has found that the condition does not hold, and with
  the monitor's lock; it leaves the loop when it has found that the condition holds. -/
  loop : ∀ p u d d' k, C.sem p u d d' k → Calm (.addr a) G k ∨
    (∃ k', k = .sleep (.addr a) (.other n) :: k' ∧ Calm (.addr a) G k' ∧ ¬Cond d') ∨
    ∃ u' k', k = .user u' :: k' ∧ G u' ∧ Calm (.addr a) G k' ∧ Cond d'
  /-- It holds the lock when it has left the loop, and no process begins there. -/
  left : ∀ p u, G u → .other n ∈ C.locks p u
  start : ¬G C.start
  killed : ¬G C.killed
  /-- It changes the condition only when it holds the lock. -/
  change : ∀ p u d d' k, C.sem p u d d' k → I p u d → (Cond d ↔ Cond d') ∨ .other n ∈ C.locks p u
  /-- When it makes the condition true, it wakes up the channel before it releases the lock. -/
  wake : ∀ p u d d' k, C.sem p u d d' k → I p u d → ¬G u → ¬Cond d → Cond d' →
    ∃ k', k = .wakeup (.addr a) 0 :: k'

/-- A wakeup is due at the program points of `O`: the control comes to one of them, maybe after a
test of `killed`. -/
def owes (O : υ → Prop) : List (Instr N υ) → Prop
  | .user u :: _ => O u
  | .killed yes no :: _ | .killedRead _ yes no :: _ => O yes ∧ O no
  | .acquire (.proc _) :: k | .release (.proc _) :: k => owes O k
  | _ => False

/-- What a client must do about the loops that wait for `Cond` with the lock `n` and on the channel
`a`; `I` is what it can rely on when a process takes a step. -/
structure Client.Loops (C : Client N υ δ) (n a : ℕ) (G : υ → Prop) (Cond : δ → Prop)
    (I : Fin N → υ → δ → Prop) : Prop where
  /-- It goes to sleep on the channel when it has found that the condition does not hold, and with
  the monitor's lock; it leaves the loop when it has found that the condition holds. -/
  loop : ∀ p u d d' k, C.sem p u d d' k → I p u d → Calm (.addr a) G k ∨
    (∃ pre k', k = pre ++ .sleep (.addr a) (.other n) :: k' ∧ (∀ i ∈ pre, i.Passing) ∧
      Calm (.addr a) G k' ∧ ¬Cond d') ∨
    Arrives (.addr a) G k ∧ Cond d'
  /-- It holds the lock when it has left the loop, and no process begins there. -/
  left : ∀ p u, G u → .other n ∈ C.locks p u
  start : ¬G C.start
  killed : ¬G C.killed
  /-- It changes the condition only when it holds the lock. -/
  change : ∀ p u d d' k, C.sem p u d d' k → I p u d → (Cond d ↔ Cond d') ∨ .other n ∈ C.locks p u

/-- What a client must do about the monitor of `Cond`, the lock `n` and the channel `a`, when the
wakeup is due at the points of `O`, and may be dropped at those of `Q`. -/
structure Client.DueMonitor (C : Client N υ δ) (n a : ℕ) (G O Q : υ → Prop) (Cond : δ → Prop)
    (I : Fin N → υ → δ → Prop) : Prop extends C.Loops n a G Cond I where
  /-- When it makes the condition true, and when a wakeup was due, it wakes up the channel, or the
  wakeup is due from then on, or it drops the wakeup. -/
  wake : ∀ p u d d' k, C.sem p u d d' k → I p u d → O u ∨ ¬G u ∧ ¬Cond d → Cond d' →
    (∃ k', k = .wakeup (.addr a) 0 :: k') ∨ owes O k ∨ Q u ∧ Cond d

/-- The processes can rely on `I` when they take a step. -/
def State.Relies (s : State κ N υ δ) (I : Fin N → υ → δ → Prop) : Prop :=
  ∀ c p u k, (s.cpu c).who = some p → (s.cpu c).ctl = .user u :: k → I p u s.user

variable {C : Client N υ δ} {n a : ℕ} {G O Q : υ → Prop} {Cond : δ → Prop}
  {I : Fin N → υ → δ → Prop}

theorem Calm.append {chan : Chan N} {k k' : List (Instr N υ)} (h : Calm chan G k)
    (h' : Calm chan G k') : Calm chan G (k ++ k') := by
  intro i hi
  rcases List.mem_append.1 hi with hi | hi
  exacts [h i hi, h' i hi]

theorem Calm.tail {chan : Chan N} {i : Instr N υ} {k : List (Instr N υ)} (h : Calm chan G (i :: k)) :
    Calm chan G k :=
  fun j hj => h j (List.mem_cons_of_mem _ hj)

theorem calm_trapCode {chan : Chan N} (user timer : Bool) :
    Calm chan G (trapCode user timer : List (Instr N υ)) := by
  cases user <;> cases timer <;> simp [Calm, trapCode, Instr.Marked]

/-- The kernel's own code sleeps on other channels. -/
theorem exec_calm [NeZero N] {my : Option (Fin N)} {cpu0 ok : Bool} {m m' : Mem N υ}
    {i : Instr N υ} {k' : List (Instr N υ)} {e : Event N} {a : ℕ}
    (he : exec C cpu0 my ok m i = some (m', k', e)) (hkilled : ¬G C.killed)
    (hi : ¬i.Marked (.addr a) G) : Calm (.addr a) G k' := by
  unfold Calm
  cases i <;> simp only [exec, reduceCtorEq] at he
  case sleep chan lk =>
    obtain ⟨p, -, he⟩ := Option.map_eq_some_iff.1 he
    cases he
    simpa [sleepCode, Instr.Marked] using hi
  case kexit =>
    obtain ⟨p, -, he⟩ := Option.bind_eq_some_iff.1 he
    split_ifs at he
    cases he
    simp [kexitCode, Instr.Marked]
  case forkCopy => split_ifs at he <;> cases he <;> simp [forkCode, Instr.Marked]
  case clockintr => cases he; cases cpu0 <;> simp [clockintrCode, Instr.Marked]
  all_goals cases my <;> grind [yieldCode, wakeupCode, Instr.Marked]

/-- A slot is asleep on the channel after an instruction if it was before, or has just been put to
sleep. -/
theorem exec_asleep [NeZero N] {my : Option (Fin N)} {cpu0 ok : Bool} {m m' : Mem N υ}
    {i : Instr N υ} {k' : List (Instr N υ)} {e : Event N}
    (he : exec C cpu0 my ok m i = some (m', k', e)) {p : Fin N}
    (h : (m'.proc p).sleepsOn (.addr a)) :
    ((m.proc p).sleepsOn (.addr a) ∧ i ≠ .wakeupVisit (.addr a) p) ∨
      i = .setSleeping p (.addr a) := by
  unfold Proc.sleepsOn at h ⊢
  rw [decide_eq_true_eq] at h ⊢
  cases i <;> simp only [exec, reduceCtorEq] at he
  case tick => cases he; exact .inl ⟨h, by simp⟩
  case allocpid =>
    cases he
    dsimp only at h
    rw [Mem.set_proc] at h
    split_ifs at h with hp
    · exact .inl ⟨hp ▸ h, by simp⟩
    · exact .inl ⟨h, by simp⟩
  case agingVisit q =>
    cases he
    rw [Mem.set_proc] at h
    split_ifs at h with hp
    · refine .inl ⟨?_, by simp⟩
      unfold Proc.age at h
      split_ifs at h <;> exact hp ▸ h
    · exact .inl ⟨h, by simp⟩
  all_goals
    cases my <;> grind [Mem.set_proc, Proc.wake, Proc.sleepsOn, Proc.kill, Proc.free, Proc.init,
      Proc.chargeTick]

theorem Client.Monitor.due (h : C.Monitor n a G Cond I) :
    C.DueMonitor n a G (fun _ => False) (fun _ => False) Cond I where
  loop p u d d' k hsem _ := by
    rcases h.loop p u d d' k hsem with hcalm | ⟨k', rfl, hcalm, hcond⟩ | ⟨v, k', rfl, hv, hcalm, hcond⟩
    · exact .inl hcalm
    · exact .inr (.inl ⟨[], k', rfl, List.forall_mem_nil _, hcalm, hcond⟩)
    · exact .inr (.inr ⟨.user hv hcalm, hcond⟩)
  left := h.left
  start := h.start
  killed := h.killed
  change := h.change
  wake p u d d' k hsem hI hu hcond := by
    obtain ⟨hu, hd⟩ := hu.resolve_left id
    exact .inl (h.wake p u d d' k hsem hI hu hd hcond)

theorem owes_append {k : List (Instr N υ)} (h : owes O k) (k' : List (Instr N υ)) :
    owes O (k ++ k') := by
  induction k with
  | nil => exact h.elim
  | cons i k ih =>
    cases i
    case user | killed | killedRead => exact h
    case acquire l | release l => cases l <;> first | exact ih h | exact h.elim
    all_goals exact h.elim

/-- An instruction of a process whose wakeup is due. -/
theorem exec_owes [NeZero N] {p : Fin N} {cpu0 ok : Bool} {m m' : Mem N υ}
    {i : Instr N υ} {k k' : List (Instr N υ)} {e : Event N} (h : owes O (i :: k))
    (he : exec C cpu0 (some p) ok m i = some (m', k', e)) : owes O (k' ++ k) := by
  cases i
  case user | acquire | release => cases he
  case killed => cases he; exact h
  case killedRead q yes no =>
    cases he
    change O _
    split_ifs
    exacts [h.1, h.2]
  all_goals exact h.elim

namespace Arrives

variable {chan : Chan N} {i : Instr N υ} {k k' : List (Instr N υ)}

theorem append (h : Arrives chan G k) (h' : Calm chan G k') : Arrives chan G (k ++ k') := by
  cases h with
  | user hu hk => exact .user hu (hk.append h')
  | killed hu hk => exact .killed hu (hk.append h')
  | locking hu hk => exact .locking hu (hk.append h')
  | read hu hk => exact .read hu (hk.append h')
  | unlocking hu hk => exact .unlocking hu (hk.append h')

/-- The test of `killed` goes on at a program point of `G`, or not. -/
theorem exec [NeZero N] {p : Fin N} {cpu0 ok : Bool} {m m' : Mem N υ} {e : Event N}
    (h : Arrives chan G (i :: k)) (he : Kernel.exec C cpu0 (some p) ok m i = some (m', k', e)) :
    Arrives chan G (k' ++ k) ∨ Calm chan G (k' ++ k) := by
  cases h with
  | user | locking | unlocking => cases he
  | killed hu hk => cases he; exact .inl (.locking hu hk)
  | @read q yes no _ hu hk =>
    cases he
    by_cases hG : G (if (m.proc q).killed = true then yes else no)
    · exact .inl (.unlocking hG hk)
    · refine .inr (Calm.append (k := [.release (.proc q), .user _]) ?_ hk)
      simp [Calm, Instr.Marked, hG]

/-- It holds the lock already. -/
theorem held {L : Set (Lock N)} {lk : Lock N} {p : Fin N} (h : Arrives chan G k)
    (hd : Disc C (some p) L k) (hlk : ∀ q, lk ≠ .proc q) (hG : ∀ q u, G u → lk ∈ C.locks q u) :
    lk ∈ L := by
  cases h with
  | user hu =>
    obtain ⟨q, -, rfl⟩ := hd
    exact hG q _ hu
  | killed hu =>
    obtain ⟨-, q, -, hy, hn⟩ := hd
    rcases hu with hu | hu
    exacts [hy ▸ hG q _ hu, hn ▸ hG q _ hu]
  | @locking q yes no k hu =>
    obtain ⟨-, -, -, hy, hn⟩ := hd
    have hmem : lk ∈ insert (Lock.proc q) L \ {.proc q} := by
      rcases hu with hu | hu
      exacts [hy ▸ hG q _ hu, hn ▸ hG q _ hu]
    exact hmem.1.resolve_left (hlk q)
  | @read q yes no k hu =>
    obtain ⟨-, -, hy, hn⟩ := hd
    have hmem : lk ∈ L \ {.proc q} := by
      rcases hu with hu | hu
      exacts [hy ▸ hG q _ hu, hn ▸ hG q _ hu]
    exact hmem.1
  | @unlocking q u k hu =>
    obtain ⟨-, r, -, hL⟩ := hd
    have hmem : lk ∈ L \ {.proc q} := hL ▸ hG r _ hu
    exact hmem.1

end Arrives

/-! ## The invariant -/

/-- The process `p` sleeps on the channel `a`, or is about to, `lk` released. -/
def State.Dozing (s : State κ N υ δ) (a : ℕ) (p : Fin N) : Prop :=
  (s.mem.proc p).sleepsOn (.addr a) ∨
    ∃ c k, (s.cpu c).who = some p ∧ (s.cpu c).ctl = .setSleeping p (.addr a) :: k

/-- A step is not that of a process that drops, at a program point of `Q`, a wakeup of a process
that sleeps, or is about to, while the condition holds. -/
def State.DropsNone (a : ℕ) (Q : υ → Prop) (Cond : δ → Prop) (s : State κ N υ δ)
    (x : κ × Event N) : Prop :=
  ∀ u k, (s.cpu x.1).ctl = .user u :: k → Q u → Cond s.user → ∀ p, ¬s.Dozing a p

/-- A process on its way into `sleep` has found that the condition does not hold, and one that has
left the loop that it does. -/
structure LoopOk (n a : ℕ) (G : υ → Prop) (Cond : δ → Prop) (s : State κ N υ δ) : Prop where
  phase : ∀ c p, (s.cpu c).who = some p → ∃ b, Waits (.other n) (.addr a) G p b (s.cpu c).ctl ∧
    (b = .going → ¬Cond s.user) ∧ (b = .left → Cond s.user)
  saved : ∀ p, Calm (.addr a) G (s.mem.proc p).context

/-- The invariant of the monitor of `Cond`, the lock `n` and the channel `a`. -/
structure MonitorOk (n a : ℕ) (G O : υ → Prop) (Cond : δ → Prop) (s : State κ N υ δ) : Prop
    extends LoopOk n a G Cond s where
  wake : ∀ p, s.Dozing a p → Cond s.user →
    ∃ c, .other n ∈ s.held c ∧ (Waking (.addr a) p (s.cpu c).ctl ∨ owes O (s.cpu c).ctl)

namespace Waits

variable {lk : Lock N} {chan : Chan N} {p : Fin N} {b b' : WaitPhase} {i : Instr N υ}
  {k k' : List (Instr N υ)}

theorem of_passing (h : Waits lk chan G p .going k) (hk' : ∀ i ∈ k', i.Passing) :
    Waits lk chan G p .going (k' ++ k) := by
  induction k' with
  | nil => exact h
  | cons i k' ih =>
    exact .passing (hk' i (List.mem_cons_self ..)) (ih fun j hj => hk' j (List.mem_cons_of_mem _ hj))

/-- Only a process that is about to sleep is at the store of SLEEPING. -/
theorem eq_lying {q : Fin N} (h : Waits lk chan G p b (.setSleeping q chan :: k)) :
    b = .lying := by
  cases h with
  | away hk => exact absurd rfl (hk (.setSleeping q chan) (by simp))
  | passing hi => exact hi.elim
  | lying => rfl
  | left h => cases h

/-- A process on its way into `sleep` holds a lock: `lk`, and then its own. -/
theorem held {C : Client N υ δ} {L : Set (Lock N)} (h : Waits lk chan G p b k)
    (hd : Disc C (some p) L k) (hlk : ∀ q, lk ≠ .proc q) (hG : ∀ q u, G u → lk ∈ C.locks q u) :
    (b = .going → lk ∈ L) ∧ (b = .lying → .proc p ∈ L) ∧ (b = .left → lk ∈ L) := by
  induction h generalizing L with
  | away => exact ⟨nofun, nofun, nofun⟩
  | call => exact ⟨fun _ => by simp [hd.2.2.1], nofun, nofun⟩
  | unlocking => exact ⟨fun _ => hd.1, nofun, nofun⟩
  | @passing i k hi _ ih =>
    refine ⟨fun _ => ?_, nofun, nofun⟩
    cases i
    case acquire l =>
      refine ((ih hd.2).1 rfl).resolve_left ?_
      rintro rfl
      cases lk <;> first | exact hi.elim | exact hlk _ rfl
    case release l => exact ((ih hd.2).1 rfl).1
    case wakeup => exact (ih hd.2).1 rfl
    case wakeupVisit => exact (ih hd.2.2).1 rfl
    all_goals exact hi.elim
  | lying => exact ⟨nofun, fun _ => by simp [hd.2.1], nofun⟩
  | left h => exact ⟨nofun, nofun, fun _ => h.held hd hlk hG⟩

/-- What taking or releasing a lock does to the phase. -/
theorem pop (h : Waits lk chan G p b (i :: k)) (hi : ∃ l, i = .acquire l ∨ i = .release l) :
    ∃ b', Waits lk chan G p b' k ∧ (b' = .going → b = .going) ∧ (b' = .lying → b = .going) ∧
      (b' = .left → b = .left) := by
  cases h with
  | away hk => exact ⟨.away, .away hk.tail, nofun, nofun, nofun⟩
  | call | lying => obtain ⟨l, hl | hl⟩ := hi <;> cases hl
  | unlocking hk => exact ⟨.lying, .lying hk, nofun, fun _ => rfl, nofun⟩
  | passing _ hk => exact ⟨.going, hk, fun _ => rfl, nofun, nofun⟩
  | left hk =>
    cases hk with
    | user | killed | read => obtain ⟨l, hl | hl⟩ := hi <;> cases hl
    | locking hu hk => exact ⟨.left, .left (.read hu hk), nofun, nofun, fun _ => rfl⟩
    | unlocking hu hk => exact ⟨.left, .left (.user hu hk), nofun, nofun, fun _ => rfl⟩

/-- What an instruction does to the phase. -/
theorem exec [NeZero N] {cpu0 ok : Bool} {m m' : Mem N υ} {e : Event N} {a : ℕ}
    (h : Waits lk (.addr a) G p b (i :: k)) (hkilled : ¬G C.killed)
    (he : Kernel.exec C cpu0 (some p) ok m i = some (m', k', e)) :
    ∃ b', Waits lk (.addr a) G p b' (k' ++ k) ∧ (b' = .going → b = .going) ∧ b' ≠ .lying ∧
      (b' = .left → b = .left) := by
  cases h with
  | away hk =>
    exact ⟨.away, .away ((exec_calm he hkilled (hk i (by simp))).append hk.tail), by simp, by simp,
      by simp⟩
  | call hk =>
    cases he
    refine ⟨.going, .passing (i := .acquire (.proc p)) trivial (.unlocking (Calm.append
      (k := [.sched p, .clearChan p, .release (.proc p), .acquire lk]) ?_ hk)), fun _ => rfl, by simp,
      by simp⟩
    simp [Calm, Instr.Marked]
  | unlocking => cases he
  | lying hk =>
    simp only [Kernel.exec, Option.some.injEq, Prod.mk.injEq] at he
    obtain ⟨-, rfl, -⟩ := he
    exact ⟨.away, .away hk, by simp, by simp, by simp⟩
  | passing hi hk =>
    cases i
    case acquire | release => cases he
    case wakeup chan j =>
      cases he
      have hpass := @wakeupCode_passing N υ (some p) chan j
      exact ⟨.going, hk.of_passing hpass, fun _ => rfl, by simp, by simp⟩
    case wakeupVisit =>
      cases he
      exact ⟨.going, hk, fun _ => rfl, by simp, by simp⟩
    all_goals exact hi.elim
  | left hk =>
    rcases hk.exec he with hk | hk
    · exact ⟨.left, .left hk, by simp, by simp, fun _ => rfl⟩
    · exact ⟨.away, .away hk, by simp, by simp, by simp⟩

end Waits

theorem calm_forkret (hm : C.Loops n a G Cond I) (p : Fin N) :
    Calm (.addr a) G (forkretCode C p) := by
  simpa [Calm, forkretCode, Instr.Marked] using hm.start

section Step

variable [DecidableEq κ] [NeZero N] {boot : κ} {s s' : State κ N υ δ} {c : κ} {e : Event N}

/-! ### The loops -/

namespace LoopOk

omit [NeZero N] in
/-- The control of the CPU `c` after a step that changes it to `k`. -/
theorem phase_setCtl (h : LoopOk n a G Cond s) {k : List (Instr N υ)}
    (hcpu : s'.cpu = (s.setCtl c k).cpu) (huser : s'.user = s.user)
    (hk : ∀ p b, (s.cpu c).who = some p → Waits (.other n) (.addr a) G p b (s.cpu c).ctl →
      ∃ b', Waits (.other n) (.addr a) G p b' k ∧
        (b' = .going → b = .going) ∧ (b' = .lying → b = .going) ∧ (b' = .left → b = .left))
    {p : Fin N} (hp : (s'.cpu c).who = some p) :
    ∃ b, Waits (.other n) (.addr a) G p b (s'.cpu c).ctl ∧ (b = .going → ¬Cond s'.user) ∧
      (b = .lying → ¬Cond s'.user) ∧ (b = .left → Cond s'.user) := by
  rw [huser]
  rw [hcpu, State.setCtl, State.setCpu_self] at hp ⊢
  obtain ⟨b, hb, hgoing, hleft⟩ := h.phase c p hp
  obtain ⟨b', hb', hgoing', hlying', hleft'⟩ := hk p b hp hb
  exact ⟨b', hb', fun hg => hgoing (hgoing' hg), fun hl => hgoing (hlying' hl),
    fun hl => hleft (hleft' hl)⟩

omit [DecidableEq κ] [NeZero N] in
/-- What is below the program point of a process. -/
theorem of_user (h : LoopOk n a G Cond s) {p : Fin N} {u : υ} {k : List (Instr N υ)}
    (hctl : (s.cpu c).ctl = .user u :: k) (hwho : (s.cpu c).who = some p) :
    Calm (.addr a) G k ∧ (G u → Cond s.user) := by
  obtain ⟨b, hb, -, hleft⟩ := h.phase c p hwho
  rw [hctl] at hb
  cases hb with
  | away hk => exact ⟨hk.tail, fun hu => absurd hu (hk (.user u) (by simp))⟩
  | passing hi => exact hi.elim
  | left hk =>
    cases hk with
    | user _ hk => exact ⟨hk, fun _ => hleft rfl⟩

omit [NeZero N] in
theorem phase_interrupt (hs : Safe C s) (hm : C.Loops n a G Cond I) (h : LoopOk n a G Cond s)
    {k : List (Instr N υ)} (hcpu : s'.cpu = (s.setCtl c (k ++ (s.cpu c).ctl)).cpu)
    (huser : s'.user = s.user) (hheld : s.held c = ∅) (hk : Calm (.addr a) G k) {p : Fin N}
    (hp : (s'.cpu c).who = some p) :
    ∃ b, Waits (.other n) (.addr a) G p b (s'.cpu c).ctl ∧ (b = .going → ¬Cond s'.user) ∧
      (b = .lying → ¬Cond s'.user) ∧ (b = .left → Cond s'.user) := by
  refine h.phase_setCtl hcpu huser (fun p b hp hb => ?_) hp
  have hd : Disc C (some p) ∅ (s.cpu c).ctl := by
    have hok := hs.cpu c
    rw [hheld] at hok
    exact hok.disc_of_who hp
  obtain ⟨hgoing, hlying, hleft⟩ := hb.held hd nofun hm.left
  cases b with
  | away =>
    cases hb with
    | away hb => exact ⟨.away, .away (hk.append hb), nofun, nofun, nofun⟩
  | going => exact absurd (hgoing rfl) (Set.notMem_empty _)
  | lying => exact absurd (hlying rfl) (Set.notMem_empty _)
  | left => exact absurd (hleft rfl) (Set.notMem_empty _)

/-- The process on the CPU that takes the step. -/
theorem phase_step (hs : Safe C s) (hm : C.Loops n a G Cond I) (hI : s.Relies I)
    (h : LoopOk n a G Cond s) (t : Step boot C s (c, e) s') {p : Fin N}
    (hp : (s'.cpu c).who = some p) :
    ∃ b, Waits (.other n) (.addr a) G p b (s'.cpu c).ctl ∧ (b = .going → ¬Cond s'.user) ∧
      (b = .lying → ¬Cond s'.user) ∧ (b = .left → Cond s'.user) := by
  cases t with
  | @acquire _ l _ hctl =>
    refine h.phase_setCtl rfl rfl (fun p b _ hb => ?_) hp
    rw [hctl] at hb
    exact hb.pop ⟨l, .inl rfl⟩
  | @release _ l _ hctl =>
    refine h.phase_setCtl rfl rfl (fun p b _ hb => ?_) hp
    rw [hctl] at hb
    exact hb.pop ⟨l, .inr rfl⟩
  | exec hctl he =>
    refine h.phase_setCtl rfl rfl (fun p b hp hb => ?_) hp
    rw [hctl] at hb
    rw [(hs.cpu c).proc_of_who hp] at he
    obtain ⟨b', hb', hgoing, hlying, hleft⟩ := hb.exec hm.killed he
    exact ⟨b', hb', hgoing, fun hl => absurd hl hlying, hleft⟩
  | @user _ q u k d k' hctl hproc hsem =>
    have hwho : (s.cpu c).who = some q := ((hs.cpu c).who_eq_proc hctl (by simp)).trans hproc
    obtain ⟨hk, -⟩ := h.of_user hctl hwho
    have hself : ((s.setCtl c (k' ++ k)).setUser d).cpu c = { s.cpu c with ctl := k' ++ k } :=
      State.setCpu_self ..
    rw [hself] at hp ⊢
    obtain rfl := Option.some_inj.1 (hwho.symm.trans hp)
    change ∃ b, Waits (.other n) (.addr a) G q b (k' ++ k) ∧ (b = .going → ¬Cond d) ∧
      (b = .lying → ¬Cond d) ∧ (b = .left → Cond d)
    rcases hm.loop q u _ d k' hsem (hI c q u k hwho hctl) with
      hcalm | ⟨pre, k₁, rfl, hpre, hcalm, hcond⟩ | ⟨harrives, hcond⟩
    · exact ⟨.away, .away (hcalm.append hk), nofun, nofun, nofun⟩
    · refine ⟨.going, ?_, fun _ => hcond, nofun, nofun⟩
      rw [List.append_assoc]
      exact Waits.of_passing (.call (hcalm.append hk)) hpre
    · exact ⟨.left, .left (harrives.append hk), nofun, nofun, fun _ => hcond⟩
  | dispatch =>
    refine ⟨.away, .away ?_, nofun, nofun, nofun⟩
    rw [State.setMem_cpu, State.setCpu_self]
    exact h.saved _
  | account hctl =>
    rw [State.setMem_cpu, State.setCpu_self, hs.who_of_account hctl] at hp
    cases hp
  | sched =>
    rw [State.setMem_cpu, State.setCpu_self] at hp
    cases hp
  | clock hheld =>
    refine h.phase_interrupt (k := .clockintr :: trapCode (inUser C (s.cpu c).ctl) true) hs hm rfl rfl
      hheld ?_ hp
    exact Calm.append (k := [.clockintr]) (by simp [Calm, Instr.Marked]) (calm_trapCode _ _)
  | device i chan hheld =>
    rw [← List.append_assoc] at hp ⊢
    refine h.phase_interrupt hs hm rfl rfl hheld (Calm.append ?_ (calm_trapCode _ _)) hp
    simp [Calm, devintrCode, Instr.Marked]

/-- While another CPU holds the lock, the condition does not change. -/
theorem cond_of_ne (hs : Safe C s) (hm : C.Loops n a G Cond I) (hI : s.Relies I)
    (t : Step boot C s (c, e) s') {c' : κ} (hc : c' ≠ c) (hl : .other n ∈ s.held c') :
    Cond s.user ↔ Cond s'.user := by
  cases t with
  | acquire | release | exec | dispatch | account | sched | clock | device => exact Iff.rfl
  | @user _ p u k d k' hctl hproc hsem =>
    have hwho : (s.cpu c).who = some p := ((hs.cpu c).who_eq_proc hctl (by simp)).trans hproc
    refine (hm.change p u _ d k' hsem (hI c p u k hwho hctl)).resolve_right fun hl' => ?_
    have hd := (hs.cpu c).disc_of_who hwho
    rw [hctl] at hd
    obtain ⟨q, hq, hL⟩ := hd
    cases hq
    rw [← hL] at hl'
    exact hc (Option.some_inj.1 (hl.symm.trans hl'))

theorem step (hs : Safe C s) (hm : C.Loops n a G Cond I) (hI : s.Relies I)
    (h : LoopOk n a G Cond s) (t : Step boot C s (c, e) s') : LoopOk n a G Cond s' := by
  refine ⟨fun c' p hp => ?_, fun p => ?_⟩
  · by_cases hc : c' = c
    · subst hc
      obtain ⟨b, hb, hgoing, -, hleft⟩ := h.phase_step hs hm hI t hp
      exact ⟨b, hb, hgoing, hleft⟩
    · rw [t.cpu_of_ne hc] at hp ⊢
      obtain ⟨b, hb, hgoing, hleft⟩ := h.phase c' p hp
      have hheld := hb.held ((hs.cpu c').disc_of_who hp) nofun hm.left
      refine ⟨b, hb, fun hg => ?_, fun hl => ?_⟩
      · rw [← cond_of_ne hs hm hI t hc (hheld.1 hg)]
        exact hgoing hg
      · rw [← cond_of_ne hs hm hI t hc (hheld.2.2 hl)]
        exact hleft hl
  · rcases t.context hs p with hctx | hctx | ⟨hwho, hctl⟩
    · rw [hctx]
      exact h.saved p
    · rw [hctx]
      exact calm_forkret hm p
    · obtain ⟨b, hb, -⟩ := h.phase c p hwho
      rw [hctl] at hb
      cases hb with
      | away hk => exact hk.tail
      | passing hi => exact hi.elim
      | left hk => cases hk

end LoopOk

/-! ### The wakers -/

/-- A process that sleeps on the channel after a step did so before, or was about to. -/
theorem Step.asleep (hs : Safe C s) (t : Step boot C s (c, e) s') {p : Fin N}
    (hp : (s'.mem.proc p).sleepsOn (.addr a)) : s.Dozing a p := by
  cases t with
  | acquire | release | user | clock | device => exact .inl hp
  | @exec _ i k _ _ _ _ hctl he =>
    have hacc : ∀ q t, i ≠ .account q t := by
      rintro q t rfl
      cases he
    rcases exec_asleep he hp with ⟨hp, -⟩ | rfl
    · exact .inl hp
    · exact .inr ⟨c, k, ((hs.cpu c).who_eq_proc hctl hacc).trans ((hs.cpu c).disc hctl hacc).1, hctl⟩
  | dispatch =>
    rw [State.setMem_mem, Mem.set_proc] at hp
    split_ifs at hp
    · cases (of_decide_eq_true hp).1
    · exact .inl hp
  | account hctl hq =>
    obtain ⟨hst, -, hchan⟩ := Proc.account_eq_some hq
    rw [State.setMem_mem, Mem.set_proc] at hp
    split_ifs at hp with hpq
    · subst hpq
      unfold Proc.sleepsOn at hp
      rw [hst, hchan] at hp
      exact .inl hp
    · exact .inl hp
  | sched =>
    rw [State.setMem_mem, Mem.set_proc] at hp
    split_ifs at hp with hpq
    exacts [.inl (hpq ▸ hp), .inl hp]

omit [DecidableEq κ] [NeZero N] in
/-- A process that is dozing is not on the CPU of its waker. -/
theorem ne_of_dozing (hs : Safe C s) {p : Fin N} {j : ℕ} {k : List (Instr N υ)}
    (hctl : (s.cpu c).ctl = .wakeup (.addr a) j :: k) (hp : s.Dozing a p) :
    (s.cpu c).proc ≠ some p := by
  intro hproc
  have hwho := ((hs.cpu c).who_eq_proc hctl (by simp)).trans hproc
  rcases hp with hp | ⟨c', k', hp, hctl'⟩
  · have hrun := hs.running c p hwho
    rw [hctl] at hrun
    have hst : (s.mem.proc p).state = .sleeping := (of_decide_eq_true hp).1
    rw [hrun.running_of_head (by simp) (by simp)] at hst
    cases hst
  · rw [hs.who_unique hp hwho, hctl] at hctl'
    cases hctl'

/-- A `wakeup` goes on to its next slot; it passes no process that is still dozing. -/
theorem exec_waking (hs : Safe C s) {i : Instr N υ} {k k' : List (Instr N υ)} {ok cpu0 : Bool}
    {m' : Mem N υ} (hctl : (s.cpu c).ctl = i :: k)
    (he : exec C cpu0 (s.cpu c).proc ok s.mem i = some (m', k', e)) {p : Fin N}
    (hw : Waking (.addr a) p (i :: k)) (hdoze : s.Dozing a p)
    (hdoze' : ((s.setCtl c (k' ++ k)).setMem m').Dozing a p) :
    Waking (.addr a) p (k' ++ k) := by
  cases hw with
  | @loop j _ hj =>
    cases he
    have hne := ne_of_dozing hs hctl hdoze
    unfold wakeupCode
    rw [dif_pos (by omega)]
    split_ifs with hmy
    · refine .loop (Nat.lt_of_le_of_ne hj ?_)
      rintro rfl
      exact hne hmy
    · exact .acquire hj
  | @visit q _ hq =>
    obtain ⟨hme, hl, -⟩ := (hs.cpu c).disc hctl (by simp)
    have hwho := (hs.cpu c).who_eq_proc hctl (by simp)
    have hne : q ≠ p := by
      rintro rfl
      rcases hdoze' with hp | ⟨c', k₁, hp, hctl'⟩
      · rcases exec_asleep he hp with ⟨-, hi⟩ | hi
        · exact hi rfl
        · cases hi
      · have hc : c' ≠ c := by
          rintro rfl
          rw [State.setMem_cpu, State.setCtl, State.setCpu_self] at hp
          exact hme (hwho.symm.trans hp)
        rw [State.setMem_cpu, State.setCtl, State.setCpu_of_ne s hc] at hctl'
        obtain ⟨-, hl', -⟩ := (hs.cpu c').disc hctl' (by simp)
        have hlq : .proc q ∈ s.held c' := by simp [hl']
        exact hc (Option.some_inj.1 (hlq.symm.trans hl))
    cases he
    exact .release (Nat.lt_of_le_of_ne hq fun heq => hne (Fin.ext heq))
  | acquire | release => cases he

namespace MonitorOk

/-- The process that is about to wake up `p`, or owes it the wakeup, still is after its step. -/
theorem waker_step (hs : Safe C s) (hm : C.DueMonitor n a G O Q Cond I) (hI : s.Relies I)
    (t : Step boot C s (c, e) s') (hdrop : s.DropsNone a Q Cond (c, e)) {p : Fin N}
    (hdoze : s.Dozing a p) (hdoze' : s'.Dozing a p) (hcond : Cond s'.user)
    (hl : .other n ∈ s.held c) (hw : Waking (.addr a) p (s.cpu c).ctl ∨ owes O (s.cpu c).ctl) :
    .other n ∈ s'.held c ∧ (Waking (.addr a) p (s'.cpu c).ctl ∨ owes O (s'.cpu c).ctl) := by
  cases t with
  | @acquire _ l k hctl hfree =>
    rw [hctl] at hw
    rw [held_acquire hfree, if_pos rfl, State.setHolder, State.setCtl, State.setCpu_self]
    refine ⟨Set.mem_insert_of_mem _ hl, ?_⟩
    rcases hw with hw | hw
    · cases hw with
      | acquire hq => exact .inl (.visit hq)
    · cases l <;> first | exact .inr hw | exact hw.elim
  | @release _ l k hctl hheld =>
    rw [hctl] at hw
    rw [held_release hheld, if_pos rfl, State.setHolder, State.setCtl, State.setCpu_self]
    rcases hw with hw | hw
    · cases hw with
      | release hq => exact ⟨⟨hl, by simp⟩, .inl (.loop hq)⟩
    · cases l <;> first | exact ⟨⟨hl, by simp⟩, .inr hw⟩ | exact hw.elim
  | @exec _ i k ok m' k' _ hctl he =>
    have hself : (((s.setCtl c (k' ++ k)).setMem m').cpu c) = { s.cpu c with ctl := k' ++ k } :=
      State.setCpu_self ..
    refine ⟨hl, ?_⟩
    rw [hself]
    rw [hctl] at hw
    rcases hw with hw | hw
    · exact .inl (exec_waking hs hctl he hw hdoze hdoze')
    · right
      cases hproc : (s.cpu c).proc with
      | none =>
        rw [hproc] at he
        cases i
        case killed => cases he
        case killedRead =>
          obtain ⟨hme, -⟩ := (hs.cpu c).disc hctl (by simp)
          cases hproc.symm.trans hme
        case user | acquire | release => cases he
        all_goals exact hw.elim
      | some q =>
        rw [hproc] at he
        exact exec_owes hw he
  | @user _ q u k d k' hctl hproc hsem =>
    have hwho : (s.cpu c).who = some q := ((hs.cpu c).who_eq_proc hctl (by simp)).trans hproc
    have hself : ((s.setCtl c (k' ++ k)).setUser d).cpu c = { s.cpu c with ctl := k' ++ k } :=
      State.setCpu_self ..
    rw [hctl] at hw
    have hO : O u := hw.resolve_left (by rintro ⟨⟩)
    refine ⟨hl, ?_⟩
    rw [hself]
    rcases hm.wake q u _ d k' hsem (hI c q u k hwho hctl) (.inl hO) hcond with
      ⟨k₁, rfl⟩ | howes | ⟨hQ, hbefore⟩
    · exact .inl (.loop (Nat.zero_le _))
    · exact .inr (owes_append howes k)
    · exact absurd hdoze (hdrop u k hctl hQ hbefore p)
  | dispatch hctl | account hctl | sched hctl =>
    rw [hctl] at hw
    rcases hw with hw | hw <;> cases hw
  | clock hheld | device _ _ hheld =>
    rw [hheld] at hl
    exact absurd hl (Set.notMem_empty _)

/-- The process that makes the condition true is a waker from then on, or owes the wakeup. -/
theorem waker_of_cond (hs : Safe C s) (hm : C.DueMonitor n a G O Q Cond I) (hI : s.Relies I)
    (h : MonitorOk n a G O Cond s) (t : Step boot C s (c, e) s') (hbefore : ¬Cond s.user)
    (hcond : Cond s'.user) (p : Fin N) :
    .other n ∈ s'.held c ∧ (Waking (.addr a) p (s'.cpu c).ctl ∨ owes O (s'.cpu c).ctl) := by
  cases t with
  | acquire | release | exec | dispatch | account | sched | clock | device =>
    exact absurd hcond hbefore
  | @user _ q u k d k' hctl hproc hsem =>
    have hwho : (s.cpu c).who = some q := ((hs.cpu c).who_eq_proc hctl (by simp)).trans hproc
    have hIq := hI c q u k hwho hctl
    have hself : ((s.setCtl c (k' ++ k)).setUser d).cpu c = { s.cpu c with ctl := k' ++ k } :=
      State.setCpu_self ..
    have hlocks : s.held c = C.locks q u := by
      have hd := (hs.cpu c).disc_of_who hwho
      rw [hctl] at hd
      obtain ⟨r, hr, hL⟩ := hd
      cases hr
      exact hL
    refine ⟨?_, ?_⟩
    · rcases hm.change q u _ d k' hsem hIq with hiff | hl
      · exact absurd (hiff.2 hcond) hbefore
      · exact hlocks ▸ hl
    · rw [hself]
      have hG := mt (h.of_user hctl hwho).2 hbefore
      rcases hm.wake q u _ d k' hsem hIq (.inr ⟨hG, hbefore⟩) hcond with
        ⟨k₁, rfl⟩ | howes | ⟨-, hcond⟩
      · exact .inl (.loop (Nat.zero_le _))
      · exact .inr (owes_append howes k)
      · exact absurd hcond hbefore

theorem step (hs : Safe C s) (hm : C.DueMonitor n a G O Q Cond I) (hI : s.Relies I)
    (h : MonitorOk n a G O Cond s) (t : Step boot C s (c, e) s')
    (hdrop : s.DropsNone a Q Cond (c, e)) : MonitorOk n a G O Cond s' := by
  refine ⟨h.toLoopOk.step hs hm.toLoops hI t, fun p hp hcond => ?_⟩
  by_cases hbefore : Cond s.user
  · have hdoze : s.Dozing a p := by
      rcases hp with hp | ⟨c', k, hp, hctl⟩
      · exact t.asleep hs hp
      · by_cases hc : c' = c
        · subst hc
          obtain ⟨b, hb, -, hlying, -⟩ := h.phase_step hs hm.toLoops hI t hp
          rw [hctl] at hb
          exact absurd hcond (hlying hb.eq_lying)
        · rw [t.cpu_of_ne hc] at hp hctl
          exact .inr ⟨c', k, hp, hctl⟩
    obtain ⟨c', hl, hw⟩ := h.wake p hdoze hbefore
    by_cases hc : c' = c
    · subst hc
      exact ⟨c', waker_step hs hm hI t hdrop hdoze hp hcond hl hw⟩
    · refine ⟨c', ?_, ?_⟩
      · rwa [t.held_of_ne hc]
      · rwa [t.cpu_of_ne hc]
  · exact ⟨c, h.waker_of_cond hs hm hI t hbefore hcond p⟩

end MonitorOk

end Step

/-! ### At boot, and in every reachable state -/

theorem Boot.loopOk [NeZero N] {s : State κ N υ δ} (hm : C.Loops n a G Cond I) (hb : Boot C s) :
    LoopOk n a G Cond s := by
  refine ⟨fun c p hp => ?_, fun p => ?_⟩
  · rw [(hb.cpu c).1] at hp
    cases hp
  · rw [hb.context]
    exact calm_forkret hm p

theorem Boot.monitorOk [NeZero N] {s : State κ N υ δ} (hm : C.DueMonitor n a G O Q Cond I)
    (hb : Boot C s) : MonitorOk n a G O Cond s := by
  refine ⟨hb.loopOk hm.toLoops, fun p hp => ?_⟩
  rcases hp with hp | ⟨c, k, hp, -⟩
  · have hst := (of_decide_eq_true hp).1
    by_cases hp0 : p = 0
    · subst hp0
      rw [hb.initproc] at hst
      cases hst
    · rw [hb.unused p hp0] at hst
      cases hst
  · rw [(hb.cpu c).1] at hp
    cases hp

section Reachable

variable [DecidableEq κ] [NeZero N] {boot : κ} {start : δ → Prop} {s : State κ N υ δ}

theorem loopOk_of_reachable (hC : C.Disciplined) (hm : C.Loops n a G Cond I)
    (hI : ∀ s, (kernel boot C start).Reachable s → s.Relies I)
    (hs : (kernel boot C start).Reachable s) : LoopOk n a G Cond s := by
  refine LTS.Reachable.invariant (fun s hs => ?_) (fun s x s' hs h t => ?_) hs
  · exact hs.1.loopOk hm
  · exact h.step (safe_of_reachable hC hs) hm (hI s hs) t

/-- The invariant holds in the runs in which no wakeup of a dozing process is dropped. -/
theorem monitorOk_of_restrict {P : State κ N υ δ → κ × Event N → Prop} (hC : C.Disciplined)
    (hm : C.DueMonitor n a G O Q Cond I) (hP : ∀ s x, P s x → s.DropsNone a Q Cond x)
    (hI : ∀ s, (kernel boot C start).Reachable s → s.Relies I)
    (hs : ((kernel boot C start).restrict P).Reachable s) : MonitorOk n a G O Cond s := by
  refine LTS.Reachable.invariant (fun s hs => ?_) (fun s x s' hs h t => ?_) hs
  · exact hs.1.monitorOk hm
  · have hreach := hs.of_restrict
    exact h.step (safe_of_reachable hC hreach) hm (hI s hreach) t.1 (hP s x t.2)

omit [DecidableEq κ] [NeZero N] in
/-- When the lock of a monitor is free and its condition true, no process sleeps on its channel. -/
theorem MonitorOk.not_sleeping (h : MonitorOk n a G O Cond s) (hfree : s.holder (.other n) = none)
    (hcond : Cond s.user) (p : Fin N) : ¬(s.mem.proc p).sleepsOn (.addr a) := by
  intro hp
  obtain ⟨c, hl, -⟩ := h.wake p (.inl hp) hcond
  rw [mem_held, hfree] at hl
  cases hl

omit [DecidableEq κ] [NeZero N] in
/-- A waiter that has left the loop holds the lock, and the condition is true. -/
theorem LoopOk.cond_of_left (hs : Safe C s) (hm : C.Loops n a G Cond I) (h : LoopOk n a G Cond s)
    {c : κ} {u : υ} {k : List (Instr N υ)} (hctl : (s.cpu c).ctl = .user u :: k) (hu : G u) :
    .other n ∈ s.held c ∧ Cond s.user := by
  obtain ⟨p, hproc, hL⟩ := (hs.cpu c).disc hctl (by simp)
  have hwho := ((hs.cpu c).who_eq_proc hctl (by simp)).trans hproc
  exact ⟨hL ▸ hm.left p u hu, (h.of_user hctl hwho).2 hu⟩

theorem monitorOk_of_reachable (hC : C.Disciplined) (hm : C.Monitor n a G Cond I)
    (hI : ∀ s, (kernel boot C start).Reachable s → s.Relies I)
    (hs : (kernel boot C start).Reachable s) : MonitorOk n a G (fun _ => False) Cond s := by
  have hs' : ((kernel boot C start).restrict fun _ _ => True).Reachable s :=
    hs.restrict fun _ _ => trivial
  exact monitorOk_of_restrict hC hm.due (fun _ _ _ _ _ _ => False.elim) hI hs'

/-- **No lost wakeup.** In no reachable state is the lock of a monitor free and its condition true
while a process sleeps on its channel. -/
theorem not_sleeping_of_free (hC : C.Disciplined) (hm : C.Monitor n a G Cond I)
    (hI : ∀ s, (kernel boot C start).Reachable s → s.Relies I)
    (hs : (kernel boot C start).Reachable s) (hfree : s.holder (.other n) = none)
    (hcond : Cond s.user) (p : Fin N) : ¬(s.mem.proc p).sleepsOn (.addr a) :=
  (monitorOk_of_reachable hC hm hI hs).not_sleeping hfree hcond p

/-- A waiter that has left the loop holds the lock, and the condition is true. -/
theorem cond_of_left (hC : C.Disciplined) (hm : C.Monitor n a G Cond I)
    (hI : ∀ s, (kernel boot C start).Reachable s → s.Relies I)
    (hs : (kernel boot C start).Reachable s) {c : κ} {u : υ} {k : List (Instr N υ)}
    (hctl : (s.cpu c).ctl = .user u :: k) (hu : G u) : .other n ∈ s.held c ∧ Cond s.user :=
  (monitorOk_of_reachable hC hm hI hs).toLoopOk.cond_of_left (safe_of_reachable hC hs)
    hm.due.toLoops hctl hu

end Reachable

end Xv6.Kernel
