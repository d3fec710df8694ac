import Xv6.Kernel.Exit

/-!
# The code of `kwait`

A process that waits for a child holds `wait_lock` while it scans the table, and goes to sleep on
its own slot when it has found children but no zombie. `Kwaits` is how far it is, read off its
control, and `KwaitMove` what each step of the machine does about it. The invariant (`KwaitOk`):
none of the slots that the scan has passed is a zombie child, and a slot whose lock it asks for is a
child.
-/

namespace Xv6.Kernel

variable {κ : Type} {N : ℕ} {υ δ : Type}

/-! ## Where a process is in `kwait` -/

/-- An instruction of the loop of `kwait`. -/
def Instr.KwaitLoop : Instr N υ → Prop
  | .kwaitScan _ _ _ | .kwaitVisit _ _ | .kwaitKilled _ => True
  | _ => False

/-- The control is not in the loop of `kwait`. -/
def NoLoop (k : List (Instr N υ)) : Prop := ∀ i ∈ k, ¬i.KwaitLoop

/-- An instruction of the code of an interrupt that comes in the kernel. -/
def Instr.Trap : Instr N υ → Prop
  | .acquire _ | .release _ | .yield | .setRunnable _ | .sched _ | .wakeup _ _ | .wakeupVisit _ _
  | .clockintr | .tick | .charge | .kerneltrap | .trapRet => True
  | _ => False

/-- How far a process is in `kwait`. -/
inductive KwaitPhase (N : ℕ)
  /-- elsewhere -/
  | away
  /-- before `acquire(&wait_lock)` -/
  | entering
  /-- in the scan, which has passed the slots before `n` -/
  | scanning (n : ℕ)
  /-- in the scan, at the child in slot `j` -/
  | child (j : Fin N)
  /-- after the scan, with `wait_lock` -/
  | going
  /-- in `sleep`, before it is SLEEPING -/
  | lying
  /-- in `sleep`, once it has been SLEEPING -/
  | asleep
  deriving DecidableEq

/-- The number of slots that the scan has passed, while it holds `wait_lock`. -/
def KwaitPhase.passed : KwaitPhase N → ℕ
  | .away | .entering | .lying | .asleep => 0
  | .scanning n => n
  | .child j => j
  | .going => N

/-- `kwait` from where it wakes up. -/
def wokenCode (p : Fin N) (k : List (Instr N υ)) : List (Instr N υ) :=
  .clearChan p :: .release (.proc p) :: .acquire .waitLock :: .kwaitScan p 0 false :: k

/-- The control of the process `p` in each phase. When it holds no lock it may be interrupted. -/
inductive Kwaits (p : Fin N) : KwaitPhase N → List (Instr N υ) → Prop
  | away {k} (h : NoLoop k) : Kwaits p .away k
  | entering {pre k} (hpre : ∀ i ∈ pre, i.Trap) (h : NoLoop k) :
      Kwaits p .entering (pre ++ .acquire .waitLock :: .kwaitScan p 0 false :: k)
  | scanning {n havekids k} (h : NoLoop k) :
      Kwaits p (.scanning n) (.kwaitScan p n havekids :: k)
  | unlocking {n q havekids k} (h : NoLoop k) :
      Kwaits p (.scanning n) (.release (.proc q) :: .kwaitScan p n havekids :: k)
  | locking {j k} (h : NoLoop k) :
      Kwaits p (.child j) (.acquire (.proc j) :: .kwaitVisit p j :: k)
  | child {j k} (h : NoLoop k) : Kwaits p (.child j) (.kwaitVisit p j :: k)
  | testing {k} (h : NoLoop k) : Kwaits p .going (.acquire (.proc p) :: .kwaitKilled p :: k)
  | test {k} (h : NoLoop k) : Kwaits p .going (.kwaitKilled p :: k)
  | tested {k} (h : NoLoop k) : Kwaits p .going
      (.release (.proc p) :: .sleep (.proc p) .waitLock :: .kwaitScan p 0 false :: k)
  | calling {k} (h : NoLoop k) :
      Kwaits p .going (.sleep (.proc p) .waitLock :: .kwaitScan p 0 false :: k)
  | called {k} (h : NoLoop k) : Kwaits p .going
      (.acquire (.proc p) :: .release .waitLock :: .setSleeping p (.proc p) :: .sched p ::
        wokenCode p k)
  | going {k} (h : NoLoop k) : Kwaits p .going
      (.release .waitLock :: .setSleeping p (.proc p) :: .sched p :: wokenCode p k)
  | lying {k} (h : NoLoop k) :
      Kwaits p .lying (.setSleeping p (.proc p) :: .sched p :: wokenCode p k)
  | leaving {k} (h : NoLoop k) : Kwaits p .asleep (.sched p :: wokenCode p k)
  | asleep {k} (h : NoLoop k) : Kwaits p .asleep (wokenCode p k)

/-- How a step from `s` to `s'` moves the process `p` through `kwait`. -/
inductive KwaitMove (s s' : State κ N υ δ) (p : Fin N) : KwaitPhase N → KwaitPhase N → Prop
  | away {b} : KwaitMove s s' p b .away
  | enter {b}
      (hst : (s.mem.proc p).state ≠ .sleeping → (s'.mem.proc p).state ≠ .sleeping) :
      KwaitMove s s' p b .entering
  | start (hmem : s'.mem = s.mem) : KwaitMove s s' p .entering (.scanning 0)
  | unlock {n} (hmem : s'.mem = s.mem) : KwaitMove s s' p (.scanning n) (.scanning n)
  | skip {n} (h : ∀ j : Fin N, j.val = n → (s.mem.proc j).parent ≠ some p)
      (hmem : s'.mem = s.mem) : KwaitMove s s' p (.scanning n) (.scanning (n + 1))
  | find {j : Fin N} (hj : (s.mem.proc j).parent = some p) (hmem : s'.mem = s.mem) :
      KwaitMove s s' p (.scanning j) (.child j)
  | lock {j} (hmem : s'.mem = s.mem) : KwaitMove s s' p (.child j) (.child j)
  | pass {j} (hj : (s.mem.proc j).state ≠ .zombie) (hmem : s'.mem = s.mem) :
      KwaitMove s s' p (.child j) (.scanning (j + 1))
  | done {n} (hn : N ≤ n) (hmem : s'.mem = s.mem) : KwaitMove s s' p (.scanning n) .going
  | go (hmem : s'.mem = s.mem) : KwaitMove s s' p .going .going
  | lie (hmem : s'.mem = s.mem) : KwaitMove s s' p .going .lying
  | sleep (hst : (s'.mem.proc p).state = .sleeping) (hchan : (s'.mem.proc p).chan = .proc p) :
      KwaitMove s s' p .lying .asleep

variable {C : Client N υ δ}

theorem NoLoop.append {k k' : List (Instr N υ)} (h : NoLoop k) (h' : NoLoop k') :
    NoLoop (k ++ k') := by
  intro i hi
  rcases List.mem_append.1 hi with hi | hi
  exacts [h i hi, h' i hi]

theorem NoLoop.tail {i : Instr N υ} {k : List (Instr N υ)} (h : NoLoop (i :: k)) : NoLoop k :=
  fun j hj => h j (List.mem_cons_of_mem _ hj)

theorem Instr.Trap.not_loop {i : Instr N υ} (h : i.Trap) : ¬i.KwaitLoop := by
  cases i <;> first | exact id | exact h.elim

/-- Only `sleep` puts a process to sleep. -/
theorem exec_awake [NeZero N] {my : Option (Fin N)} {cpu0 ok : Bool} {m m' : Mem N υ}
    {i : Instr N υ} {k' : List (Instr N υ)} {e : Event N}
    (he : exec C cpu0 my ok m i = some (m', k', e)) {p : Fin N}
    (hi : ∀ chan, i ≠ .setSleeping p chan) (hp : (m.proc p).state ≠ .sleeping) :
    (m'.proc p).state ≠ .sleeping := by
  have h := exec_slotChange he p
  change (m'.proc p).slot.state ≠ .sleeping
  generalize (m'.proc p).slot = b at h
  cases h with
  | same | clearChan | setkilled | orphan | allocpid | adopt => exact hp
  | yield | wake | exit | reap | alloc | abort | start => exact nofun
  | sleep hi' => exact absurd hi' (hi _)
  | kill =>
    change (if (m.proc p).state = .sleeping then ProcState.runnable else (m.proc p).state) ≠ _
    rwa [if_neg hp]

/-- The code of interrupts goes on with code of interrupts. -/
theorem exec_trap [NeZero N] {my : Option (Fin N)} {cpu0 ok : Bool} {m m' : Mem N υ}
    {i : Instr N υ} {k' : List (Instr N υ)} {e : Event N} (hi : i.Trap)
    (he : exec C cpu0 my ok m i = some (m', k', e)) : ∀ j ∈ k', j.Trap := by
  cases i <;> first | exact hi.elim | simp only [exec, reduceCtorEq] at he
  case clockintr => cases he; cases cpu0 <;> simp [clockintrCode, Instr.Trap]
  case charge =>
    cases my <;> simp only at he <;> (try split_ifs at he) <;> cases he <;> simp
  case kerneltrap => cases he; cases my <;> simp [Instr.Trap]
  case wakeup => cases he; unfold wakeupCode; split_ifs <;> simp [Instr.Trap]
  case yield =>
    obtain ⟨p, -, he⟩ := Option.map_eq_some_iff.1 he
    cases he
    simp [yieldCode, Instr.Trap]
  all_goals cases he; simp

theorem trap_of_interrupt {k : List (Instr N υ)}
    (hk : k = [.clockintr] ∨ ∃ a chan, k = devintrCode a chan) : ∀ i ∈ k, i.Trap := by
  rcases hk with rfl | ⟨a, chan, rfl⟩ <;> simp [devintrCode, Instr.Trap]

/-- Only `kwait` goes on with its loop. -/
theorem exec_noLoop [NeZero N] {my : Option (Fin N)} {cpu0 ok : Bool} {m m' : Mem N υ}
    {i : Instr N υ} {k' : List (Instr N υ)} {e : Event N}
    (he : exec C cpu0 my ok m i = some (m', k', e)) (hi : ¬i.KwaitLoop) :
    NoLoop k' ∨ ∃ p, my = some p ∧ k' = [.acquire .waitLock, .kwaitScan p 0 false] := by
  unfold NoLoop
  cases i <;> simp only [exec, reduceCtorEq] at he
  case kwait =>
    obtain ⟨p, hmy, he⟩ := Option.map_eq_some_iff.1 he
    cases he
    exact .inr ⟨p, hmy, rfl⟩
  case kexit status =>
    obtain ⟨p, -, he⟩ := Option.bind_eq_some_iff.1 he
    split_ifs at he with hp
    cases he
    simp [kexitCode, Instr.KwaitLoop]
  case sleep =>
    obtain ⟨p, -, he⟩ := Option.map_eq_some_iff.1 he
    cases he
    simp [sleepCode, Instr.KwaitLoop]
  case kwaitScan | kwaitVisit | kwaitKilled => exact absurd trivial hi
  case forkCopy => split_ifs at he <;> cases he <;> simp [forkCode, Instr.KwaitLoop]
  case clockintr => cases he; cases cpu0 <;> simp [clockintrCode, Instr.KwaitLoop]
  all_goals
    refine .inl ?_
    cases my <;> grind [yieldCode, wakeupCode, Instr.KwaitLoop]

/-! ## What an instruction does about it -/

namespace Kwaits

variable {p : Fin N} {b : KwaitPhase N} {k : List (Instr N υ)}

theorem acquire {l : Lock N} {s s' : State κ N υ δ} (h : Kwaits p b (.acquire l :: k))
    (hmem : s'.mem = s.mem) :
    ∃ b', Kwaits p b' k ∧ KwaitMove s s' p b b' ∧ (b' = .entering → b = .entering) ∧
      b' ≠ .lying := by
  generalize hk : Instr.acquire l :: k = k₀ at h
  cases h with
  | away h =>
    subst hk
    exact ⟨_, .away h.tail, .away, nofun, nofun⟩
  | @entering pre k₁ hpre h =>
    cases pre with
    | nil =>
      cases hk
      exact ⟨_, .scanning h, .start hmem, nofun, nofun⟩
    | cons i pre =>
      cases hk
      exact ⟨_, .entering (fun i hi => hpre i (List.mem_cons_of_mem _ hi)) h,
        .enter (by rw [hmem]; exact id), fun _ => rfl, nofun⟩
  | locking h =>
    cases hk
    exact ⟨_, .child h, .lock hmem, nofun, nofun⟩
  | testing h =>
    cases hk
    exact ⟨_, .test h, .go hmem, nofun, nofun⟩
  | called h =>
    cases hk
    exact ⟨_, .going h, .go hmem, nofun, nofun⟩
  | scanning | unlocking | child | test | tested | calling | going | lying | leaving | asleep =>
    cases hk

theorem release {l : Lock N} {s s' : State κ N υ δ} (h : Kwaits p b (.release l :: k))
    (hmem : s'.mem = s.mem) :
    ∃ b', Kwaits p b' k ∧ KwaitMove s s' p b b' ∧ (b' = .entering → b = .entering) ∧
      (b' = .lying → l = .waitLock) := by
  generalize hk : Instr.release l :: k = k₀ at h
  cases h with
  | away h =>
    subst hk
    exact ⟨_, .away h.tail, .away, nofun, nofun⟩
  | @entering pre k₁ hpre h =>
    cases pre with
    | nil => cases hk
    | cons i pre =>
      cases hk
      exact ⟨_, .entering (fun i hi => hpre i (List.mem_cons_of_mem _ hi)) h,
        .enter (by rw [hmem]; exact id), fun _ => rfl, nofun⟩
  | unlocking h =>
    cases hk
    exact ⟨_, .scanning h, .unlock hmem, nofun, nofun⟩
  | tested h =>
    cases hk
    exact ⟨_, .calling h, .go hmem, nofun, nofun⟩
  | going h =>
    cases hk
    exact ⟨_, .lying h, .lie hmem, nofun, fun _ => rfl⟩
  | scanning | locking | child | testing | test | calling | called | lying | leaving | asleep =>
    cases hk

/-- An instruction that is not a lock operation. -/
theorem exec [NeZero N] {s s' : State κ N υ δ} {cpu0 ok : Bool} {i : Instr N υ}
    {k' : List (Instr N υ)} {e : Event N} (h : Kwaits p b (i :: k))
    (he : Kernel.exec C cpu0 (some p) ok s.mem i = some (s'.mem, k', e)) :
    ∃ b', Kwaits p b' (k' ++ k) ∧ KwaitMove s s' p b b' ∧ b' ≠ .lying := by
  generalize hk : i :: k = k₀ at h
  cases h with
  | away h =>
    subst hk
    rcases exec_noLoop he (h i (by simp)) with hk' | ⟨q, hq, rfl⟩
    · exact ⟨_, .away (hk'.append h.tail), .away, by simp⟩
    · cases hq
      refine ⟨_, .entering (List.forall_mem_nil _) h.tail, .enter (exec_awake he ?_), by simp⟩
      rintro chan rfl
      simp [Kernel.exec] at he
  | @entering pre k₁ hpre h =>
    cases pre with
    | nil =>
      cases hk
      cases he
    | cons i' pre =>
      cases hk
      rw [List.append_eq, ← List.append_assoc]
      have hi := hpre i (by simp)
      refine ⟨_, .entering (fun j hj => ?_) h, .enter (exec_awake he ?_), by simp⟩
      · rcases List.mem_append.1 hj with hj | hj
        · exact exec_trap hi he j hj
        · exact hpre j (List.mem_cons_of_mem _ hj)
      · rintro chan rfl
        exact hi
  | @scanning n havekids k₁ h =>
    cases hk
    simp only [Kernel.exec] at he
    split_ifs at he with hn hpar hkids
    · simp only [Option.some.injEq, Prod.mk.injEq] at he
      obtain ⟨hmem, rfl, -⟩ := he
      exact ⟨.child ⟨n, hn⟩, .locking h, .find (j := ⟨n, hn⟩) hpar hmem.symm, by simp⟩
    · simp only [Option.some.injEq, Prod.mk.injEq] at he
      obtain ⟨hmem, rfl, -⟩ := he
      refine ⟨.scanning (n + 1), .scanning h, .skip ?_ hmem.symm, by simp⟩
      rintro j rfl
      exact hpar
    · simp only [Option.some.injEq, Prod.mk.injEq] at he
      obtain ⟨hmem, rfl, -⟩ := he
      exact ⟨.going, .testing h, .done (by omega) hmem.symm, by simp⟩
    · simp only [Option.some.injEq, Prod.mk.injEq] at he
      obtain ⟨hmem, rfl, -⟩ := he
      refine ⟨.away, .away (NoLoop.append (k := [.release .waitLock]) ?_ h), .away, by simp⟩
      simp [NoLoop, Instr.KwaitLoop]
  | @child j k₁ h =>
    cases hk
    simp only [Kernel.exec] at he
    split_ifs at he with hz hok
    · simp only [Option.some.injEq, Prod.mk.injEq] at he
      obtain ⟨hmem, rfl, -⟩ := he
      exact ⟨.away, .away (NoLoop.append (by simp [NoLoop, Instr.KwaitLoop]) h), .away, by simp⟩
    · simp only [Option.some.injEq, Prod.mk.injEq] at he
      obtain ⟨hmem, rfl, -⟩ := he
      exact ⟨.away, .away (NoLoop.append (by simp [NoLoop, Instr.KwaitLoop]) h), .away, by simp⟩
    · simp only [Option.some.injEq, Prod.mk.injEq] at he
      obtain ⟨hmem, rfl, -⟩ := he
      exact ⟨.scanning (j + 1), .unlocking h, .pass hz hmem.symm, by simp⟩
  | test h =>
    cases hk
    simp only [Kernel.exec] at he
    split_ifs at he
    · simp only [Option.some.injEq, Prod.mk.injEq] at he
      obtain ⟨hmem, rfl, -⟩ := he
      exact ⟨.away, .away (NoLoop.append (by simp [NoLoop, Instr.KwaitLoop]) h), .away, by simp⟩
    · simp only [Option.some.injEq, Prod.mk.injEq] at he
      obtain ⟨hmem, rfl, -⟩ := he
      exact ⟨.going, .tested h, .go hmem.symm, by simp⟩
  | calling h =>
    cases hk
    simp only [Kernel.exec, Option.map_some, Option.some.injEq, Prod.mk.injEq] at he
    obtain ⟨hmem, rfl, -⟩ := he
    exact ⟨.going, .called h, .go hmem.symm, by simp⟩
  | lying h =>
    cases hk
    simp only [Kernel.exec, Option.some.injEq, Prod.mk.injEq] at he
    obtain ⟨hmem, rfl, -⟩ := he
    refine ⟨.asleep, .leaving h, .sleep ?_ ?_, by simp⟩ <;> rw [← hmem, Mem.set_proc, if_pos rfl]
  | asleep h =>
    cases hk
    have hawake := exec_awake (p := p) he (by simp)
    simp only [Kernel.exec, Option.some.injEq, Prod.mk.injEq] at he
    obtain ⟨-, rfl, -⟩ := he
    have htrap : ∀ i ∈ [(.release (.proc p) : Instr N υ)], i.Trap := by simp [Instr.Trap]
    exact ⟨.entering, .entering htrap h, .enter hawake, by simp⟩
  | unlocking | locking | testing | tested | called | going | leaving =>
    cases hk
    cases he

/-- What is saved at `sched`. -/
theorem sched {q : Fin N} (h : Kwaits p b (.sched q :: k)) :
    (b = .away ∨ b = .entering ∨ b = .asleep ∧ q = p) ∧ Kwaits p b k := by
  generalize hk : Instr.sched q :: k = k₀ at h
  cases h with
  | away h =>
    subst hk
    exact ⟨.inl rfl, .away h.tail⟩
  | @entering pre k₁ hpre h =>
    cases pre with
    | nil => cases hk
    | cons i pre =>
      cases hk
      exact ⟨.inr (.inl rfl), .entering (fun i hi => hpre i (List.mem_cons_of_mem _ hi)) h⟩
  | leaving h =>
    cases hk
    exact ⟨.inr (.inr ⟨rfl, rfl⟩), .asleep h⟩
  | scanning | unlocking | locking | child | testing | test | tested | calling | called | going
  | lying | asleep => cases hk

/-- A program point of the client is outside of `kwait`. -/
theorem away_of_user {u : υ} (h : Kwaits p b (.user u :: k)) : b = .away ∧ NoLoop k := by
  generalize hk : Instr.user u :: k = k₀ at h
  cases h with
  | away h =>
    subst hk
    exact ⟨rfl, h.tail⟩
  | @entering pre k₁ hpre h =>
    cases pre with
    | nil => cases hk
    | cons i pre =>
      cases hk
      exact (hpre _ (List.mem_cons_self ..)).elim
  | scanning | unlocking | locking | child | testing | test | tested | calling | called | going
  | lying | leaving | asleep => cases hk

/-- The locks in `kwait`. -/
theorem held {L : Set (Lock N)} (h : Kwaits p b k) (hd : Disc C (some p) L k) :
    b = .away ∨ b = .entering ∨ .waitLock ∈ L ∧ b ≠ .lying ∧ b ≠ .asleep ∨
      .proc p ∈ L ∧ (b = .lying ∨ b = .asleep) := by
  cases h with
  | away => exact .inl rfl
  | entering => exact .inr (.inl rfl)
  | scanning =>
    refine .inr (.inr (.inl ⟨?_, by simp⟩))
    rw [hd.2.1]
    exact Set.mem_singleton _
  | @unlocking _ q =>
    have hL : L \ {.proc q} = {.waitLock} := hd.2.2.1
    have hmem : Lock.waitLock ∈ L \ {.proc q} := by
      rw [hL]
      exact Set.mem_singleton _
    exact .inr (.inr (.inl ⟨hmem.1, by simp⟩))
  | @locking j =>
    have hL : insert (.proc j) L = {.proc j, .waitLock} := hd.2.2.1
    have hmem : Lock.waitLock ∈ insert (.proc j) L := by
      rw [hL]
      simp
    exact .inr (.inr (.inl ⟨by simpa using hmem, by simp⟩))
  | child =>
    refine .inr (.inr (.inl ⟨?_, by simp⟩))
    rw [hd.2.1]
    simp
  | testing =>
    have hL : insert (.proc p) L = {.proc p, .waitLock} := hd.2.2.1
    have hmem : Lock.waitLock ∈ insert (.proc p) L := by
      rw [hL]
      simp
    exact .inr (.inr (.inl ⟨by simpa using hmem, by simp⟩))
  | test =>
    refine .inr (.inr (.inl ⟨?_, by simp⟩))
    rw [hd.2.1]
    simp
  | tested =>
    have hL : L \ {.proc p} = {.waitLock} := hd.2.2.2.1
    have hmem : Lock.waitLock ∈ L \ {.proc p} := by
      rw [hL]
      exact Set.mem_singleton _
    exact .inr (.inr (.inl ⟨hmem.1, by simp⟩))
  | calling =>
    refine .inr (.inr (.inl ⟨?_, by simp⟩))
    rw [hd.2.2.1]
    exact Set.mem_singleton _
  | called =>
    have hmem : Lock.waitLock ∈ insert (.proc p) L := hd.2.1
    exact .inr (.inr (.inl ⟨by simpa using hmem, by simp⟩))
  | going => exact .inr (.inr (.inl ⟨hd.1, by simp⟩))
  | lying | leaving =>
    refine .inr (.inr (.inr ⟨?_, by simp⟩))
    rw [hd.2.1]
    exact Set.mem_singleton _
  | asleep => exact .inr (.inr (.inr ⟨hd.2.1, by simp⟩))

theorem not_noLoop (h : Kwaits p b k) (hb : b ≠ .away) : ¬NoLoop k := by
  intro hk
  cases h with
  | away => exact hb rfl
  | @child j => exact hk (.kwaitVisit p j) (by simp) trivial
  | @locking j => exact hk (.kwaitVisit p j) (by simp) trivial
  | testing => exact hk (.kwaitKilled p) (by simp) trivial
  | test => exact hk (.kwaitKilled p) (by simp) trivial
  | @scanning n havekids => exact hk (.kwaitScan p n havekids) (by simp) trivial
  | @unlocking n _ havekids => exact hk (.kwaitScan p n havekids) (by simp) trivial
  | entering | tested | calling | called | going | lying | leaving | asleep =>
    exact hk (.kwaitScan p 0 false) (by simp [wokenCode]) trivial

/-- The control of a process that is lying down is so in no other phase. -/
theorem eq_lying (h : Kwaits p .lying k) (h' : Kwaits p b k) : b = .lying := by
  cases h' with
  | away hk => exact absurd hk (h.not_noLoop (by simp))
  | @entering pre k₁ hpre =>
    generalize hk : pre ++ .acquire .waitLock :: .kwaitScan p 0 false :: k₁ = k₀ at h
    cases h with
    | lying =>
      cases pre with
      | nil => cases hk
      | cons i pre =>
        obtain ⟨rfl, -⟩ := List.cons.inj hk
        exact (hpre (.setSleeping p (.proc p)) (List.mem_cons_self ..)).elim
  | lying => rfl
  | scanning | unlocking | locking | child | testing | test | tested | calling | called | going
  | leaving | asleep => cases h

/-- The control of a process that is asleep is so in no other phase. -/
theorem eq_asleep (h : Kwaits p .asleep k) (h' : Kwaits p b k) : b = .asleep := by
  cases h' with
  | away hk => exact absurd hk (h.not_noLoop (by simp))
  | @entering pre k₁ hpre =>
    generalize hk : pre ++ .acquire .waitLock :: .kwaitScan p 0 false :: k₁ = k₀ at h
    have hmem : .clearChan p ∈ pre := by
      cases h with
      | leaving =>
        rcases pre with - | ⟨i, - | ⟨i', pre⟩⟩
        · cases hk
        · cases hk
        · obtain ⟨rfl, -⟩ := List.cons.inj (List.cons.inj hk).2
          simp
      | asleep =>
        rcases pre with - | ⟨i, pre⟩
        · cases hk
        · obtain ⟨rfl, -⟩ := List.cons.inj hk
          simp
    exact (hpre _ hmem).elim
  | leaving | asleep => rfl
  | scanning | unlocking | locking | child | testing | test | tested | calling | called | going
  | lying => cases h

end Kwaits

/-! ## The invariant -/

/-- What the phase of the process `p` says about the table: the slots that the scan has passed are
no zombie children, the slot that it is at is a child, and on the way to sleep and back `p` is on
its own channel. -/
structure KwaitPhase.Ok (b : KwaitPhase N) (m : Mem N υ) (p : Fin N) : Prop where
  passed : ∀ j : Fin N, j.val < b.passed → (m.proc j).parent = some p →
    (m.proc j).state ≠ .zombie
  child : ∀ j, b = .child j → (m.proc j).parent = some p ∨ (m.proc j).parent = none
  entering : b = .entering → (m.proc p).state ≠ .sleeping
  asleep : b = .asleep → (m.proc p).state = .sleeping → (m.proc p).chan = .proc p

theorem KwaitPhase.Ok.away (m : Mem N υ) (p : Fin N) : KwaitPhase.away.Ok m p :=
  ⟨nofun, nofun, nofun, nofun⟩

/-- The phase after a move of a process that is running. -/
theorem KwaitMove.ok {s s' : State κ N υ δ} {p : Fin N} {b b' : KwaitPhase N}
    (h : KwaitMove s s' p b b') (hb : b.Ok s.mem p)
    (hp : b' = .entering → (s.mem.proc p).state ≠ .sleeping) : b'.Ok s'.mem p := by
  cases h with
  | away => exact .away ..
  | enter hst => exact ⟨nofun, nofun, fun _ => hst (hp rfl), nofun⟩
  | start hmem | unlock hmem | go hmem =>
    rw [hmem]
    exact ⟨hb.passed, nofun, nofun, nofun⟩
  | @skip n hn hmem =>
    rw [hmem]
    refine ⟨fun j hj hpar => ?_, nofun, nofun, nofun⟩
    rcases Nat.lt_succ_iff_lt_or_eq.1 hj with hj | hj
    · exact hb.passed j hj hpar
    · exact absurd hpar (hn j hj)
  | find hpar hmem =>
    rw [hmem]
    refine ⟨hb.passed, ?_, nofun, nofun⟩
    rintro j ⟨⟩
    exact .inl hpar
  | lock hmem =>
    rw [hmem]
    exact hb
  | @pass j hj hmem =>
    rw [hmem]
    refine ⟨fun i hi hpar => ?_, nofun, nofun, nofun⟩
    rcases Nat.lt_succ_iff_lt_or_eq.1 hi with hi | hi
    · exact hb.passed i hi hpar
    · rwa [Fin.ext hi]
  | done hn hmem =>
    rw [hmem]
    exact ⟨fun j hj => hb.passed j (lt_of_lt_of_le hj hn), nofun, nofun, nofun⟩
  | lie => exact ⟨nofun, nofun, nofun, nofun⟩
  | sleep hst hchan => exact ⟨nofun, nofun, nofun, fun _ _ => hchan⟩

/-- The control of every process is in one of the phases, and the phase tells the truth. A process
that is lying down is on a CPU. -/
structure KwaitOk (s : State κ N υ δ) : Prop where
  thread : ∀ p k, s.Thread p k → ∃ b, Kwaits p b k ∧ b.Ok s.mem p
  saved : ∀ p, ¬Kwaits p .lying (s.mem.proc p).context

namespace KwaitOk

variable [DecidableEq κ] [NeZero N] {boot : κ} {s s' : State κ N υ δ} {c : κ} {e : Event N}

omit [DecidableEq κ] [NeZero N] in
/-- A process in the scan is on a CPU and has `wait_lock`, and one that is lying down is on a CPU
and has its own lock. -/
theorem held_of_thread (hs : Safe C s) (h : KwaitOk s) {p : Fin N} {k : List (Instr N υ)}
    {b : KwaitPhase N} (hk : s.Thread p k) (hb : Kwaits p b k) :
    b = .away ∨ b = .entering ∨ b = .asleep ∨ ∃ c, (s.cpu c).who = some p ∧
      (b ≠ .lying ∧ .waitLock ∈ s.held c ∨ b = .lying ∧ .proc p ∈ s.held c) := by
  rcases hk with ⟨c, hc, rfl⟩ | ⟨-, rfl⟩
  · rcases hb.held ((hs.cpu c).disc_of_who hc) with hb' | hb' | ⟨hl, hb', -⟩ | ⟨hl, hb' | hb'⟩
    · exact .inl hb'
    · exact .inr (.inl hb')
    · exact .inr (.inr (.inr ⟨c, hc, .inl ⟨hb', hl⟩⟩))
    · exact .inr (.inr (.inr ⟨c, hc, .inr ⟨hb', hl⟩⟩))
    · exact .inr (.inr (.inl hb'))
  · rcases hb.held (hs.saved p) with hb' | hb' | ⟨hl, -⟩ | ⟨-, hb' | hb'⟩
    · exact .inl hb'
    · exact .inr (.inl hb')
    · cases hl
    · exact absurd (hb' ▸ hb) (h.saved p)
    · exact .inr (.inr (.inl hb'))

/-- A step of another thread. -/
theorem ok_of_ne (hs : Safe C s) (h : KwaitOk s) (t : Step boot C s (c, e) s') {p : Fin N}
    {k : List (Instr N υ)} {b : KwaitPhase N} (hk : s.Thread p k) (hwho : (s.cpu c).who ≠ some p)
    (hb : Kwaits p b k) (hok : b.Ok s.mem p) : b.Ok s'.mem p := by
  have hwait : b = .away ∨ b = .entering ∨ b = .lying ∨ b = .asleep ∨ .waitLock ∉ s.held c := by
    rcases h.held_of_thread hs hk hb with h | h | h | ⟨c', hc', ⟨-, hl⟩ | ⟨h, -⟩⟩
    · exact .inl h
    · exact .inr (.inl h)
    · exact .inr (.inr (.inr (.inl h)))
    · refine .inr (.inr (.inr (.inr (notMem_held_of_ne hl ?_))))
      rintro rfl
      exact hwho hc'
    · exact .inr (.inr (.inl h))
  have hsleep : (s'.mem.proc p).state = .sleeping →
      (s.mem.proc p).state = .sleeping ∧ (s'.mem.proc p).chan = (s.mem.proc p).chan := fun hst =>
    ((t.slot hs p).asleep hs hst).resolve_right fun ⟨_, _, hp, _⟩ => hwho hp
  refine ⟨fun j hj hpar hz => ?_, fun j hj => ?_, fun hb hst => ?_, fun hb hst => ?_⟩
  · have hl : .waitLock ∉ s.held c := by
      rcases hwait with rfl | rfl | rfl | rfl | hl
      · exact absurd hj (Nat.not_lt_zero _)
      · exact absurd hj (Nat.not_lt_zero _)
      · exact absurd hj (Nat.not_lt_zero _)
      · exact absurd hj (Nat.not_lt_zero _)
      · exact hl
    rcases t.parent hs j with hsame | hnone | hl'
    · rw [hsame] at hpar
      rcases (t.slot hs j).zombie hz with hz | ⟨status, k', -, hctl⟩
      · exact hok.passed j hj hpar hz
      · refine hl ?_
        rw [((hs.cpu c).disc hctl (by simp)).2.1]
        simp
    · rw [hnone] at hpar
      cases hpar
    · exact hl hl'
  · subst hj
    have hl : .waitLock ∉ s.held c := by
      rcases hwait with h | h | h | h | hl
      · cases h
      · cases h
      · cases h
      · cases h
      · exact hl
    rcases t.parent hs j with hsame | hnone | hl'
    · rw [hsame]
      exact hok.child j rfl
    · exact .inr hnone
    · exact absurd hl' hl
  · exact hok.entering hb (hsleep hst).1
  · obtain ⟨hst', hchan⟩ := hsleep hst
    rw [hchan]
    exact hok.asleep hb hst'

omit [DecidableEq κ] [NeZero N] in
/-- An interrupt of a process, which holds no lock. -/
theorem interrupt (hs : Safe C s) (h : KwaitOk s) {p : Fin N} {k : List (Instr N υ)} (timer : Bool)
    (hp : (s.cpu c).who = some p) (hheld : s.held c = ∅) (hk : ∀ i ∈ k, i.Trap) :
    ∃ b, Kwaits p b (k ++ (trapCode (inUser C (s.cpu c).ctl) timer ++ (s.cpu c).ctl)) ∧
      b.Ok s.mem p ∧ (b = .away ∨ b = .entering) := by
  obtain ⟨b, hb, hok⟩ := h.thread p _ (.inl ⟨c, hp, rfl⟩)
  have hd := (hs.cpu c).disc_of_who hp
  rw [hheld] at hd
  have hloop : NoLoop (trapCode (inUser C (s.cpu c).ctl) timer : List (Instr N υ)) := by
    cases inUser C (s.cpu c).ctl <;> cases timer <;> simp [trapCode, NoLoop, Instr.KwaitLoop]
  rcases hb.held hd with rfl | rfl | ⟨hl, -⟩ | ⟨hl, -⟩
  · cases hb with
    | away hb =>
      exact ⟨.away, .away (NoLoop.append (fun i hi => (hk i hi).not_loop) (hloop.append hb)),
        .away .., .inl rfl⟩
  · -- it is in the kernel
    have hu : inUser C (s.cpu c).ctl = false := by
      rw [← Bool.not_eq_true]
      intro hu
      obtain ⟨u, k', hctl, -⟩ := exists_of_inUser hu
      rw [hctl] at hb
      cases hb.away_of_user.1
    have htrap : ∀ i ∈ (trapCode (inUser C (s.cpu c).ctl) timer : List (Instr N υ)), i.Trap := by
      rw [hu]
      cases timer <;> simp [trapCode, Instr.Trap]
    generalize trapCode (inUser C (s.cpu c).ctl) timer = k' at htrap ⊢
    generalize (s.cpu c).ctl = k₀ at hb
    cases hb with
    | @entering pre k₁ hpre hb =>
      refine ⟨.entering, ?_, hok, .inr rfl⟩
      rw [← List.append_assoc, ← List.append_assoc]
      refine .entering (fun i hi => ?_) hb
      rcases List.mem_append.1 hi with hi | hi
      · rcases List.mem_append.1 hi with hi | hi
        exacts [hk i hi, htrap i hi]
      · exact hpre i hi
  · exact absurd hl (Set.notMem_empty _)
  · exact absurd hl (Set.notMem_empty _)

theorem saved_step (hs : Safe C s) (h : KwaitOk s) (t : Step boot C s (c, e) s') (p : Fin N) :
    ¬Kwaits p .lying (s'.mem.proc p).context := by
  intro hb
  have hsame : ∀ {q : Fin N} {x : Proc N υ}, x.context = (s.mem.proc q).context →
      ((s.mem.set q x).proc p).context = (s.mem.proc p).context := by
    intro q x hx
    rw [Mem.set_proc]
    split_ifs with hp
    · rw [hx, hp]
    · rfl
  cases t with
  | acquire | release | user | clock | device => exact h.saved p hb
  | exec _ he =>
    rw [State.setMem_mem] at hb
    rcases exec_context he p with hctx | ⟨hctx, -⟩
    · exact h.saved p (hctx ▸ hb)
    · rw [hctx] at hb
      cases hb
  | @dispatch _ _ q =>
    rw [State.setMem_mem, hsame (x := (s.mem.proc q).run) rfl] at hb
    exact h.saved p hb
  | account _ hq =>
    rw [State.setMem_mem, hsame (Proc.account_eq_some hq).2.1] at hb
    exact h.saved p hb
  | @sched _ q k hctl _ _ =>
    rw [State.setMem_mem, Mem.set_proc] at hb
    split_ifs at hb with hp
    · subst hp
      obtain ⟨hproc, -, -⟩ := (hs.cpu c).disc hctl (by simp)
      have hwho := ((hs.cpu c).who_eq_proc hctl (by simp)).trans hproc
      obtain ⟨b, hb', -⟩ := h.thread p _ (.inl ⟨c, hwho, hctl.symm⟩)
      obtain ⟨hphase, hk⟩ := hb'.sched
      rw [hb.eq_lying hk] at hphase
      simp at hphase
    · exact h.saved p hb

theorem thread_step (hs : Safe C s) (hC : C.Disciplined) (h : KwaitOk s)
    (t : Step boot C s (c, e) s') {p : Fin N} {k : List (Instr N υ)} (hk : s'.Thread p k) :
    ∃ b, Kwaits p b k ∧ b.Ok s'.mem p := by
  rcases t.thread hs with ⟨q, u, k₁, d, k', hctl, hwho, hsem, -, hmem, ht⟩ | ⟨-, ht⟩
  · rcases ht p k hk with ⟨rfl, rfl⟩ | ⟨-, hk⟩
    · obtain ⟨b, hb, -⟩ := h.thread p _ (.inl ⟨c, hwho, hctl.symm⟩)
      refine ⟨.away, .away (NoLoop.append (fun i hi => ?_) hb.away_of_user.2), .away ..⟩
      have hcall := hC.calls p u _ d k' hsem i hi
      cases i <;> first | exact id | exact hcall.elim
    · rw [hmem]
      exact h.thread p k hk
  · cases ht p k hk with
    | same hk hwho =>
      obtain ⟨b, hb, hok⟩ := h.thread p k hk
      exact ⟨b, hb, h.ok_of_ne hs t hk hwho hb hok⟩
    | pop hk hwho hctl hi he hmem =>
      obtain ⟨b, hb, hok⟩ := h.thread p _ hk
      obtain ⟨l, rfl | rfl⟩ := hi
      · obtain ⟨b', hb', hmove, henter, -⟩ := hb.acquire hmem
        exact ⟨b', hb', hmove.ok hok fun hb => hok.entering (henter hb)⟩
      · obtain ⟨b', hb', hmove, henter, -⟩ := hb.release hmem
        exact ⟨b', hb', hmove.ok hok fun hb => hok.entering (henter hb)⟩
    | sched hk hwho hctl he hmem =>
      obtain ⟨b, hb, hok⟩ := h.thread p _ hk
      have hslot : ∀ j, (s'.mem.proc j).slot = (s.mem.proc j).slot := by
        rw [hmem]
        exact Mem.slot_set rfl
      obtain ⟨-, hb'⟩ := hb.sched
      refine ⟨b, hb', fun j hj hpar hz => ?_, fun j hj => ?_, fun hb hst => ?_, fun hb hst => ?_⟩
      · exact hok.passed j hj ((congrArg Slot.parent (hslot j)).symm.trans hpar)
          ((congrArg Slot.state (hslot j)).symm.trans hz)
      · have hpar : (s'.mem.proc j).parent = (s.mem.proc j).parent := congrArg Slot.parent (hslot j)
        rw [hpar]
        exact hok.child j hj
      · exact hok.entering hb ((congrArg Slot.state (hslot p)).symm.trans hst)
      · exact (congrArg Slot.chan (hslot p)).trans
          (hok.asleep hb ((congrArg Slot.state (hslot p)).symm.trans hst))
    | exec hk₀ hwho hctl he =>
      obtain ⟨b, hb, hok⟩ := h.thread p _ hk₀
      obtain ⟨b', hb', hmove, -⟩ := hb.exec he
      have hrun := hs.running c p hwho
      rw [hctl] at hrun
      refine ⟨b', hb', hmove.ok hok fun _ => ?_⟩
      rw [hrun.running_of_head (by rintro rfl; cases he) (by rintro rfl; cases he)]
      simp
    | fork => exact ⟨.away, .away (by simp [NoLoop, forkretCode, Instr.KwaitLoop]), .away ..⟩
    | interrupt hk hwho hheld hctl hk' timer he hmem =>
      subst hctl
      rw [hmem]
      obtain ⟨b, hb, hok, -⟩ := h.interrupt hs timer hwho hheld (trap_of_interrupt hk')
      exact ⟨b, hb, hok⟩

theorem step (hs : Safe C s) (hC : C.Disciplined) (h : KwaitOk s) (t : Step boot C s (c, e) s') :
    KwaitOk s' :=
  ⟨fun _ _ => h.thread_step hs hC t, h.saved_step hs t⟩

end KwaitOk

section Reachable

variable [DecidableEq κ] [NeZero N] {boot : κ} {start : δ → Prop} {s : State κ N υ δ}

theorem kwaitOk_of_reachable (hC : C.Disciplined) (hs : (kernel boot C start).Reachable s) :
    KwaitOk s := by
  refine LTS.Reachable.invariant (fun s hs => ?_) (fun s e s' hs h t => ?_) hs
  · refine ⟨fun p k hk => ⟨.away, .away ?_, .away ..⟩, fun p hb => ?_⟩
    · rcases hk with ⟨c, hc, -⟩ | ⟨-, rfl⟩
      · rw [(hs.1.cpu c).1] at hc
        cases hc
      · rw [hs.1.context]
        simp [NoLoop, forkretCode, Instr.KwaitLoop]
    · rw [hs.1.context] at hb
      cases hb
  · exact h.step (safe_of_reachable hC hs) hC t

end Reachable

end Xv6.Kernel
