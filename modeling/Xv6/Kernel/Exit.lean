import Xv6.Kernel.Phases
import Xv6.Kernel.Slots

/-!
# The code of `kexit`

A process that exits holds `wait_lock` from `reparent` until it is a ZOMBIE. In between it gives its
children to the initial process, one slot after the other, and wakes up its parent. `Exits` is how
far it is, read off its control, and `ExitMove` what each step of the machine does about it. The
invariant (`ExitOk`): the slots that `reparent` has passed are no children of the process, and the
initial process does not exit.
-/

namespace Xv6.Kernel

variable {κ : Type} {N : ℕ} {υ δ : Type}

/-! ## Where a process is in `kexit` -/

/-- An instruction of `kexit` between `acquire(&wait_lock)` and the ZOMBIE state. -/
def Instr.Exiting : Instr N υ → Prop
  | .reparent _ _ | .wakeupParent _ | .setZombie _ _ => True
  | _ => False

/-- The control is not in `kexit`. -/
def NoExit (k : List (Instr N υ)) : Prop := ∀ i ∈ k, ¬i.Exiting

/-- The rest of a call of `wakeup(chan)`, which has passed the slots before `n`. -/
inductive InWakeup (chan : Chan N) : ℕ → List (Instr N υ) → Prop
  | loop {n} : InWakeup chan n [.wakeup chan n]
  | acquire (q : Fin N) : InWakeup chan q
      [.acquire (.proc q), .wakeupVisit chan q, .release (.proc q), .wakeup chan (q + 1)]
  | visit (q : Fin N) :
      InWakeup chan q [.wakeupVisit chan q, .release (.proc q), .wakeup chan (q + 1)]
  | release (q : Fin N) : InWakeup chan (q + 1) [.release (.proc q), .wakeup chan (q + 1)]

/-- `kexit` from `reparent`, before slot `n`. -/
def reparentCode (p : Fin N) (n : ℕ) (status : ℤ) (k : List (Instr N υ)) : List (Instr N υ) :=
  .reparent p n :: .wakeupParent p :: .acquire (.proc p) :: .setZombie p status :: k

/-- How far a process is in `kexit`. -/
inductive ExitPhase (N : ℕ)
  /-- elsewhere -/
  | away
  /-- before `acquire(&wait_lock)` -/
  | entering
  /-- in `reparent`, which has passed the slots before `n` -/
  | sweeping (n : ℕ)
  /-- before `wakeup(p->parent)` -/
  | swept
  /-- in `wakeup(p->parent)`, which has passed the slots before `n` -/
  | waking (chan : Chan N) (n : ℕ)
  /-- before `p->state = ZOMBIE` -/
  | ready

/-- The number of slots that `reparent` has passed. -/
def ExitPhase.passed : ExitPhase N → ℕ
  | .away | .entering => 0
  | .sweeping n => n
  | .swept | .waking _ _ | .ready => N

/-- The control of the process `p` in each phase. Before it has `wait_lock` it may be interrupted. -/
inductive Exits (p : Fin N) : ExitPhase N → List (Instr N υ) → Prop
  | away {k} (h : NoExit k) : Exits p .away k
  | entering {pre status k} (hpre : ∀ i ∈ pre, i.Neutral ∧ ¬i.Exiting) (h : NoExit k) :
      Exits p .entering (pre ++ .acquire .waitLock :: reparentCode p 0 status k)
  | sweeping {n status k} (h : NoExit k) : Exits p (.sweeping n) (reparentCode p n status k)
  /-- in `wakeup(initproc)` -/
  | given {n j pre chan status k} (hpre : InWakeup chan j pre) (h : NoExit k) :
      Exits p (.sweeping n) (pre ++ reparentCode p n status k)
  | swept {status k} (h : NoExit k) :
      Exits p .swept (.wakeupParent p :: .acquire (.proc p) :: .setZombie p status :: k)
  | waking {chan n pre status k} (hpre : InWakeup chan n pre) (h : NoExit k) :
      Exits p (.waking chan n) (pre ++ .acquire (.proc p) :: .setZombie p status :: k)
  | locking {status k} (h : NoExit k) :
      Exits p .ready (.acquire (.proc p) :: .setZombie p status :: k)
  | ready {status k} (h : NoExit k) : Exits p .ready (.setZombie p status :: k)

/-- How a step from `s` to `s'` moves the process `p` through `kexit`. -/
inductive ExitMove [NeZero N] (s s' : State κ N υ δ) (p : Fin N) :
    ExitPhase N → ExitPhase N → Prop
  | away {b} : ExitMove s s' p b .away
  | enter {b} (hb : b = .away ∧ p ≠ 0 ∨ b = .entering) : ExitMove s s' p b .entering
  | start (hmem : s'.mem = s.mem) : ExitMove s s' p .entering (.sweeping 0)
  | given {n} (h : ∀ j, (s'.mem.proc j).parent = (s.mem.proc j).parent) :
      ExitMove s s' p (.sweeping n) (.sweeping n)
  /-- `reparent` passes slot `n`. -/
  | sweep {n} (h : ∀ j, (s'.mem.proc j).parent = (s.mem.proc j).parent ∧
        (j.val = n → (s.mem.proc j).parent ≠ some p) ∨
      j.val = n ∧ (s'.mem.proc j).parent = some 0) :
      ExitMove s s' p (.sweeping n) (.sweeping (n + 1))
  | swept {n} (hn : N ≤ n) (hmem : s'.mem = s.mem) : ExitMove s s' p (.sweeping n) .swept
  | announce (hmem : s'.mem = s.mem) :
      ExitMove s s' p .swept (.waking ((s.mem.proc p).parent.elim .null .proc) 0)
  /-- `wakeup(p->parent)` passes slot `n`, or goes on to. -/
  | wake {chan n n'} (h : ∀ j, (s'.mem.proc j).parent = (s.mem.proc j).parent)
      (hn : n' = n ∨ n' = n + 1 ∧ ∀ q : Fin N, q.val = n → q = p ∨
        ¬(s'.mem.proc q).sleepsOn chan ∧ ∃ c, (s.cpu c).who = some p ∧ .proc q ∈ s.held c) :
      ExitMove s s' p (.waking chan n) (.waking chan n')
  | finish {chan n} (hn : N ≤ n) (hmem : s'.mem = s.mem) :
      ExitMove s s' p (.waking chan n) .ready
  | lock (hmem : s'.mem = s.mem) : ExitMove s s' p .ready .ready

variable {C : Client N υ δ}

theorem NoExit.append {k k' : List (Instr N υ)} (h : NoExit k) (h' : NoExit k') :
    NoExit (k ++ k') := by
  intro i hi
  rcases List.mem_append.1 hi with hi | hi
  exacts [h i hi, h' i hi]

theorem NoExit.tail {i : Instr N υ} {k : List (Instr N υ)} (h : NoExit (i :: k)) : NoExit k :=
  fun j hj => h j (List.mem_cons_of_mem _ hj)

/-- Only `kexit` and its parts go on with parts of `kexit`. -/
theorem exec_noExit [NeZero N] {my : Option (Fin N)} {cpu0 ok : Bool} {m m' : Mem N υ}
    {i : Instr N υ} {k' : List (Instr N υ)} {e : Event N}
    (he : exec C cpu0 my ok m i = some (m', k', e)) (hi : ¬i.Exiting) :
    NoExit k' ∨ ∃ p status, my = some p ∧ p ≠ 0 ∧ i = .kexit status ∧ k' = kexitCode p status := by
  unfold NoExit
  cases i <;> simp only [exec, reduceCtorEq] at he
  case kexit status =>
    obtain ⟨p, hmy, he⟩ := Option.bind_eq_some_iff.1 he
    split_ifs at he with hp
    cases he
    exact .inr ⟨p, status, hmy, hp, rfl, rfl⟩
  case sleep =>
    obtain ⟨p, -, he⟩ := Option.map_eq_some_iff.1 he
    cases he
    simp [sleepCode, Instr.Exiting]
  case reparent | wakeupParent | setZombie => exact absurd trivial hi
  case forkCopy => split_ifs at he <;> cases he <;> simp [forkCode, Instr.Exiting]
  case clockintr => cases he; cases cpu0 <;> simp [clockintrCode, Instr.Exiting]
  all_goals
    refine .inl ?_
    cases my <;> grind [yieldCode, wakeupCode, Instr.Exiting]

/-! ## What an instruction does about it -/

namespace InWakeup

variable {chan : Chan N} {n : ℕ} {pre : List (Instr N υ)}

theorem acquire_tail {l : Lock N} (h : InWakeup chan n (.acquire l :: pre)) :
    InWakeup chan n pre := by
  cases h with
  | acquire q => exact .visit q

theorem release_tail {l : Lock N} (h : InWakeup chan n (.release l :: pre)) :
    InWakeup chan n pre := by
  cases h with
  | release q => exact .loop

theorem noExit (h : InWakeup chan n pre) : NoExit pre := by
  cases h <;> simp [NoExit, Instr.Exiting]

/-- An instruction of `wakeup(chan)`: the last, or it visits the slot or goes on to the next. -/
theorem exec [NeZero N] {s s' : State κ N υ δ} {p : Fin N} {cpu0 ok : Bool} {i : Instr N υ}
    {k' : List (Instr N υ)} {e : Event N} (h : InWakeup chan n (i :: pre))
    (he : Kernel.exec C cpu0 (some p) ok s.mem i = some (s'.mem, k', e)) :
    (k' ++ pre = [] ∧ N ≤ n ∧ s'.mem = s.mem) ∨
      ∃ n', InWakeup chan n' (k' ++ pre) ∧
        (∀ j, (s'.mem.proc j).parent = (s.mem.proc j).parent) ∧
        (n' = n ∨ n' = n + 1 ∧ ∀ q : Fin N, q.val = n → q = p ∨
          ¬(s'.mem.proc q).sleepsOn chan ∧ i = .wakeupVisit chan q) := by
  cases h with
  | loop =>
    simp only [Kernel.exec, Option.some.injEq, Prod.mk.injEq] at he
    obtain ⟨hmem, rfl, -⟩ := he
    rw [← hmem]
    unfold wakeupCode
    split_ifs with hn hmy
    · refine .inr ⟨n + 1, .loop, fun j => rfl, .inr ⟨rfl, fun q hq => .inl ?_⟩⟩
      rw [Option.some.injEq] at hmy
      rw [hmy]
      exact Fin.ext hq
    · exact .inr ⟨n, .acquire ⟨n, hn⟩, fun j => rfl, .inl rfl⟩
    · exact .inl ⟨rfl, by omega, rfl⟩
  | acquire | release => cases he
  | visit q =>
    simp only [Kernel.exec, Option.some.injEq, Prod.mk.injEq] at he
    obtain ⟨hmem, rfl, -⟩ := he
    refine .inr ⟨q + 1, .release q, fun j => ?_, .inr ⟨rfl, fun r hr => .inr ?_⟩⟩
    · rw [← hmem, Mem.set_proc]
      split_ifs with hj
      · rw [hj]
        unfold Proc.wake
        split_ifs <;> rfl
      · rfl
    · obtain rfl : r = q := Fin.ext hr
      refine ⟨?_, rfl⟩
      rw [← hmem, Mem.set_proc, if_pos rfl]
      unfold Proc.wake
      split_ifs with hsleep
      · simp [Proc.sleepsOn]
      · exact hsleep

end InWakeup

namespace Exits

variable {p : Fin N} {b : ExitPhase N} {k : List (Instr N υ)}

theorem acquire {l : Lock N} {s s' : State κ N υ δ} [NeZero N]
    (h : Exits p b (.acquire l :: k)) (hmem : s'.mem = s.mem) :
    ∃ b', Exits p b' k ∧ ExitMove s s' p b b' := by
  generalize hk : Instr.acquire l :: k = k₀ at h
  cases h with
  | away h =>
    subst hk
    exact ⟨_, .away h.tail, .away⟩
  | @entering pre st k₁ hpre h =>
    cases pre with
    | nil =>
      cases hk
      exact ⟨_, .sweeping h, .start hmem⟩
    | cons i pre =>
      cases hk
      exact ⟨_, .entering (fun i hi => hpre i (List.mem_cons_of_mem _ hi)) h, .enter (.inr rfl)⟩
  | sweeping | swept | ready => cases hk
  | @given _ _ pre _ _ _ hpre h =>
    have hsame : ∀ j, (s'.mem.proc j).parent = (s.mem.proc j).parent := fun j => by rw [hmem]
    cases pre with
    | nil => cases hpre
    | cons i pre =>
      cases hk
      exact ⟨_, .given hpre.acquire_tail h, .given hsame⟩
  | @waking _ _ pre _ _ hpre h =>
    have hsame : ∀ j, (s'.mem.proc j).parent = (s.mem.proc j).parent := fun j => by rw [hmem]
    cases pre with
    | nil => cases hpre
    | cons i pre =>
      cases hk
      exact ⟨_, .waking hpre.acquire_tail h, .wake hsame (.inl rfl)⟩
  | locking h =>
    cases hk
    exact ⟨_, .ready h, .lock hmem⟩

theorem release {l : Lock N} {s s' : State κ N υ δ} [NeZero N]
    (h : Exits p b (.release l :: k)) (hmem : s'.mem = s.mem) :
    ∃ b', Exits p b' k ∧ ExitMove s s' p b b' := by
  generalize hk : Instr.release l :: k = k₀ at h
  cases h with
  | away h =>
    subst hk
    exact ⟨_, .away h.tail, .away⟩
  | @entering pre st k₁ hpre h =>
    cases pre with
    | nil => cases hk
    | cons i pre =>
      cases hk
      exact ⟨_, .entering (fun i hi => hpre i (List.mem_cons_of_mem _ hi)) h, .enter (.inr rfl)⟩
  | sweeping | swept | ready | locking => cases hk
  | @given _ _ pre _ _ _ hpre h =>
    have hsame : ∀ j, (s'.mem.proc j).parent = (s.mem.proc j).parent := fun j => by rw [hmem]
    cases pre with
    | nil => cases hpre
    | cons i pre =>
      cases hk
      exact ⟨_, .given hpre.release_tail h, .given hsame⟩
  | @waking _ _ pre _ _ hpre h =>
    have hsame : ∀ j, (s'.mem.proc j).parent = (s.mem.proc j).parent := fun j => by rw [hmem]
    cases pre with
    | nil => cases hpre
    | cons i pre =>
      cases hk
      exact ⟨_, .waking hpre.release_tail h, .wake hsame (.inl rfl)⟩

/-- An instruction that is not a lock operation. -/
theorem exec [NeZero N] {s s' : State κ N υ δ} {cpu0 ok : Bool} {i : Instr N υ}
    {k' : List (Instr N υ)} {e : Event N} (h : Exits p b (i :: k))
    (he : Kernel.exec C cpu0 (some p) ok s.mem i = some (s'.mem, k', e))
    (hvisit : ∀ chan q, i = .wakeupVisit chan q →
      ∃ c, (s.cpu c).who = some p ∧ .proc q ∈ s.held c) :
    ∃ b', Exits p b' (k' ++ k) ∧ ExitMove s s' p b b' := by
  generalize hk : i :: k = k₀ at h
  cases h with
  | away h =>
    subst hk
    rcases exec_noExit he (h i (by simp)) with hk' | ⟨q, st, hq, hne, rfl, rfl⟩
    · exact ⟨_, .away (hk'.append h.tail), .away⟩
    · cases hq
      have hno : NoExit ([.release .waitLock, .sched p, .zombieExit] : List (Instr N υ)) := by
        simp [NoExit, Instr.Exiting]
      refine ⟨_, .entering (List.forall_mem_nil _) (hno.append h.tail), .enter (.inl ⟨rfl, hne⟩)⟩
  | @entering pre st k₁ hpre h =>
    cases pre with
    | nil =>
      cases hk
      cases he
    | cons i' pre =>
      cases hk
      obtain ⟨hneutral, hexit⟩ := hpre i (by simp)
      have hk' : NoExit k' := by
        refine (exec_noExit he hexit).resolve_right ?_
        rintro ⟨q, st, -, -, rfl, -⟩
        exact hneutral
      rw [List.append_eq, ← List.append_assoc]
      refine ⟨_, .entering (fun j hj => ?_) h, .enter (.inr rfl)⟩
      rcases List.mem_append.1 hj with hj | hj
      · exact ⟨exec_neutral hneutral he j hj, hk' j hj⟩
      · exact hpre j (List.mem_cons_of_mem _ hj)
  | @sweeping n st k₁ h =>
    cases hk
    simp only [Kernel.exec] at he
    split_ifs at he with hn hpar
    · simp only [Option.some.injEq, Prod.mk.injEq] at he
      obtain ⟨hmem, rfl, -⟩ := he
      have hpre : InWakeup (.proc 0) 0 ([.wakeup (.proc 0) 0] : List (Instr N υ)) := .loop
      refine ⟨.sweeping (n + 1), .given hpre h, .sweep fun j => ?_⟩
      rw [← hmem, Mem.set_proc]
      split_ifs with hj
      · exact .inr ⟨by rw [hj], rfl⟩
      · exact .inl ⟨rfl, fun hjn => absurd (Fin.ext hjn) hj⟩
    · simp only [Option.some.injEq, Prod.mk.injEq] at he
      obtain ⟨hmem, rfl, -⟩ := he
      refine ⟨.sweeping (n + 1), .sweeping h, .sweep fun j => .inl ?_⟩
      rw [← hmem]
      refine ⟨rfl, ?_⟩
      rintro rfl
      exact hpar
    · simp only [Option.some.injEq, Prod.mk.injEq] at he
      obtain ⟨hmem, rfl, -⟩ := he
      exact ⟨.swept, .swept h, .swept (by omega) hmem.symm⟩
  | @given n j pre chan st k₁ hpre h =>
    cases pre with
    | nil => cases hpre
    | cons i' pre =>
      cases hk
      rw [List.append_eq, ← List.append_assoc]
      rcases hpre.exec he with ⟨hnil, -, hmem⟩ | ⟨n', hpre', hpar, -⟩
      · rw [hnil]
        exact ⟨.sweeping n, .sweeping h, .given fun j => by rw [hmem]⟩
      · exact ⟨.sweeping n, .given hpre' h, .given hpar⟩
  | swept h =>
    cases hk
    simp only [Kernel.exec, Option.some.injEq, Prod.mk.injEq] at he
    obtain ⟨hmem, rfl, -⟩ := he
    exact ⟨_, .waking (.loop) h, .announce hmem.symm⟩
  | @waking chan n pre st k₁ hpre h =>
    cases pre with
    | nil => cases hpre
    | cons i' pre =>
      cases hk
      rw [List.append_eq, ← List.append_assoc]
      rcases hpre.exec he with ⟨hnil, hn, hmem⟩ | ⟨n', hpre', hpar, hn'⟩
      · rw [hnil]
        exact ⟨.ready, .locking h, .finish hn hmem⟩
      · refine ⟨_, .waking hpre' h, .wake hpar (hn'.imp_right (And.imp_right fun hq q hqn => ?_))⟩
        exact (hq q hqn).imp_right (And.imp_right (hvisit chan q))
  | locking =>
    cases hk
    cases he
  | ready h =>
    cases hk
    simp only [Kernel.exec, Option.some.injEq, Prod.mk.injEq] at he
    obtain ⟨-, rfl, -⟩ := he
    exact ⟨_, .away h, .away⟩

/-- What is saved at `sched`: the process has not got to `wait_lock`. -/
theorem sched {q : Fin N} (h : Exits p b (.sched q :: k)) :
    Exits p .away k ∨ b = .entering ∧ Exits p .entering k := by
  generalize hk : Instr.sched q :: k = k₀ at h
  cases h with
  | away h =>
    subst hk
    exact .inl (.away h.tail)
  | @entering pre st k₁ hpre h =>
    cases pre with
    | nil => cases hk
    | cons i pre =>
      cases hk
      exact .inr ⟨rfl, .entering (fun i hi => hpre i (List.mem_cons_of_mem _ hi)) h⟩
  | sweeping | swept | locking | ready => cases hk
  | given hpre => cases hpre <;> cases hk
  | waking hpre => cases hpre <;> cases hk

/-- A program point of the client is outside of `kexit`. -/
theorem away_of_user {u : υ} (h : Exits p b (.user u :: k)) : b = .away ∧ NoExit k := by
  generalize hk : Instr.user u :: k = k₀ at h
  cases h with
  | away h =>
    subst hk
    exact ⟨rfl, h.tail⟩
  | @entering pre st k₁ hpre h =>
    cases pre with
    | nil => cases hk
    | cons i pre =>
      cases hk
      exact (hpre _ (List.mem_cons_self ..)).1.elim
  | sweeping | swept | locking | ready => cases hk
  | given hpre => cases hpre <;> cases hk
  | waking hpre => cases hpre <;> cases hk

/-- A process that is about to be a ZOMBIE has gone through `kexit`. -/
theorem eq_ready {status : ℤ} (h : Exits p b (.setZombie p status :: k)) : b = .ready := by
  generalize hk : Instr.setZombie p status :: k = k₀ at h
  cases h with
  | away hb =>
    subst hk
    exact absurd trivial (hb (.setZombie p status) (by simp))
  | @entering pre _ _ hpre =>
    cases pre with
    | nil => cases hk
    | cons i pre =>
      cases hk
      exact absurd trivial (hpre (.setZombie p status) (by simp)).2
  | given hpre => cases hpre <;> cases hk
  | waking hpre => cases hpre <;> cases hk
  | sweeping | swept | locking => cases hk
  | ready => rfl

/-- `kexit` holds `wait_lock` from `reparent` on. -/
theorem held {L : Set (Lock N)} (h : Exits p b k) (hd : Disc C (some p) L k) :
    b = .away ∨ b = .entering ∨ .waitLock ∈ L := by
  have hzombie : ∀ {L : Set (Lock N)} {st k}, Disc C (some p) L (.setZombie p st :: k) →
      .waitLock ∈ L := by
    rintro L st k ⟨-, hL, -⟩
    rw [hL]
    simp
  have hlock : ∀ {L : Set (Lock N)} {st k},
      Disc C (some p) L (.acquire (.proc p) :: .setZombie p st :: k) → .waitLock ∈ L := by
    rintro L st k ⟨-, hd⟩
    simpa using hzombie hd
  have hsweep : ∀ {L : Set (Lock N)} {n st k}, Disc C (some p) L (reparentCode p n st k) →
      .waitLock ∈ L := fun hd => hd.2.1
  have hwakeup : ∀ {L : Set (Lock N)} {chan n pre k}, InWakeup chan n pre →
      (∀ L : Set (Lock N), Disc C (some p) L k → .waitLock ∈ L) → Disc C (some p) L (pre ++ k) →
      .waitLock ∈ L := by
    intro L chan n pre k hpre hk hd
    cases hpre with
    | loop => exact hk _ hd.2
    | acquire q => simpa using hk _ hd.2.2.2.2.2
    | visit q => exact (hk _ hd.2.2.2.2).1
    | release q => exact (hk _ hd.2.2).1
  cases h with
  | away => exact .inl rfl
  | entering => exact .inr (.inl rfl)
  | sweeping => exact .inr (.inr (hsweep hd))
  | given hpre => exact .inr (.inr (hwakeup hpre (fun _ hd => hsweep hd) hd))
  | swept => exact .inr (.inr (hlock hd.2.2))
  | waking hpre => exact .inr (.inr (hwakeup hpre (fun _ hd => hlock hd) hd))
  | locking => exact .inr (.inr (hlock hd))
  | ready => exact .inr (.inr (hzombie hd))

end Exits

/-! ## The invariant -/

/-- What `kexit` has done so far: the slots that `reparent` has passed are no children of the
process. A process that is not running has not got to `wait_lock`. -/
structure ExitOk [NeZero N] (s : State κ N υ δ) : Prop where
  ctl : ∀ c p, (s.cpu c).who = some p → ∃ b, Exits p b (s.cpu c).ctl ∧ (b ≠ .away → p ≠ 0) ∧
    ∀ j, j.val < b.passed → (s.mem.proc j).parent ≠ some p
  saved : ∀ p, Exits p .away (s.mem.proc p).context ∨
    Exits p .entering (s.mem.proc p).context ∧ p ≠ 0

/-- The end of a trap of a process in `kexit`, which is in the kernel. -/
theorem Exits.trapCode {p : Fin N} {b : ExitPhase N} {k : List (Instr N υ)}
    (h : Exits p b k) (hb : b = .entering) (timer : Bool) (i : Instr N υ)
    (hi : i ∈ Kernel.trapCode (inUser C k) timer) : i.Neutral ∧ ¬i.Exiting := by
  have hu : inUser C k = false := by
    rw [← Bool.not_eq_true]
    intro hu
    obtain ⟨u, k', rfl, -⟩ := exists_of_inUser hu
    rw [h.away_of_user.1] at hb
    cases hb
  revert hi i
  rw [hu]
  cases timer <;> simp [Kernel.trapCode, Instr.Neutral, Instr.Exiting]

/-- After a step of the CPU `c` from `s` to `s'` the process `p` is in the phase `b`: it has not got
to `wait_lock`, or it was in `kexit` before. -/
def ExitStep [NeZero N] (s s' : State κ N υ δ) (c : κ) (p : Fin N) (b : ExitPhase N) : Prop :=
  (b ≠ .away → p ≠ 0) ∧ (b = .away ∨ b = .entering ∨ ∃ b₀, (s.cpu c).who = some p ∧
    Exits p b₀ (s.cpu c).ctl ∧ ExitMove s s' p b₀ b ∧
    ∀ j, j.val < b₀.passed → (s.mem.proc j).parent ≠ some p)

namespace ExitOk

variable [DecidableEq κ] [NeZero N] {boot : κ} {s s' : State κ N υ δ} {c : κ} {e : Event N}

omit [DecidableEq κ] in
/-- An interrupt of a process, which holds no lock. -/
theorem interrupt (hs : Safe C s) (h : ExitOk s) {p : Fin N} {k : List (Instr N υ)} (timer : Bool)
    (hp : (s.cpu c).who = some p) (hheld : s.held c = ∅)
    (hk : ∀ i ∈ k, i.Neutral ∧ ¬i.Exiting) :
    ∃ b', Exits p b' (k ++ (trapCode (inUser C (s.cpu c).ctl) timer ++ (s.cpu c).ctl)) ∧
      (b' = .away ∨ b' = .entering ∧ p ≠ 0) := by
  obtain ⟨b, hb, hne, -⟩ := h.ctl c p hp
  have hd := (hs.cpu c).disc_of_who hp
  rw [hheld] at hd
  have htrap : NoExit (trapCode (inUser C (s.cpu c).ctl) timer : List (Instr N υ)) := by
    cases inUser C (s.cpu c).ctl <;> cases timer <;> simp [trapCode, NoExit, Instr.Exiting]
  rcases hb.held hd with rfl | rfl | hl
  · cases hb with
    | away hb =>
      exact ⟨.away, .away (NoExit.append (fun i hi => (hk i hi).2) (htrap.append hb)), .inl rfl⟩
  · have hneutral := hb.trapCode (C := C) rfl timer
    generalize trapCode (inUser C (s.cpu c).ctl) timer = k' at hneutral ⊢
    generalize (s.cpu c).ctl = k₀ at hb
    cases hb with
    | @entering pre st k₁ hpre hb =>
      refine ⟨.entering, ?_, .inr ⟨rfl, hne (by simp)⟩⟩
      rw [← List.append_assoc, ← List.append_assoc]
      refine .entering (fun i hi => ?_) hb
      rcases List.mem_append.1 hi with hi | hi
      · rcases List.mem_append.1 hi with hi | hi
        exacts [hk i hi, hneutral i hi]
      · exact hpre i hi
  · exact absurd hl (Set.notMem_empty _)

/-- **All that a step can do about `kexit`** on its CPU. -/
theorem move (hs : Safe C s) (hC : C.Disciplined) (h : ExitOk s) (t : Step boot C s (c, e) s')
    {p : Fin N} (hp : (s'.cpu c).who = some p) :
    ∃ b, Exits p b (s'.cpu c).ctl ∧ ExitStep s s' c p b := by
  have hself : ∀ {k : List (Instr N υ)}, ((s.setCtl c k).cpu c) = { s.cpu c with ctl := k } :=
    State.setCpu_self ..
  have hidle : ∀ {b : ExitPhase N} {k : List (Instr N υ)}, Exits p b k →
      (b = .away ∨ b = .entering ∧ p ≠ 0) → ∃ b, Exits p b k ∧ ExitStep s s' c p b := by
    rintro b k hk (rfl | ⟨rfl, hp⟩)
    · exact ⟨_, hk, by simp, .inl rfl⟩
    · exact ⟨_, hk, fun _ => hp, .inr (.inl rfl)⟩
  have hmoved : ∀ {b b' : ExitPhase N} {k : List (Instr N υ)}, (s.cpu c).who = some p →
      Exits p b (s.cpu c).ctl → (b ≠ .away → p ≠ 0) →
      (∀ j, j.val < b.passed → (s.mem.proc j).parent ≠ some p) → Exits p b' k →
      ExitMove s s' p b b' → ∃ b, Exits p b k ∧ ExitStep s s' c p b := by
    intro b b' k hwho hb hne hpar hk hmove
    refine ⟨b', hk, fun hb' => ?_, .inr (.inr ⟨b, hwho, hb, hmove, hpar⟩)⟩
    cases hmove with
    | away => exact absurd rfl hb'
    | enter hb => exact hb.elim And.right fun hb => hne (by simp [hb])
    | start | given | sweep | swept | announce | wake | finish | lock => exact hne (by simp)
  cases id t with
  | @acquire _ l k hctl _ =>
    have hmem : ((s.setCtl c k).setHolder l (some c)).mem = s.mem := rfl
    rw [State.setHolder, hself] at hp ⊢
    obtain ⟨b, hb, hne, hpar⟩ := h.ctl c p hp
    have hb' := hb
    rw [hctl] at hb
    obtain ⟨b', hk, hmove⟩ := hb.acquire hmem
    exact hmoved hp hb' hne hpar hk hmove
  | @release _ l k hctl _ =>
    have hmem : ((s.setCtl c k).setHolder l none).mem = s.mem := rfl
    rw [State.setHolder, hself] at hp ⊢
    obtain ⟨b, hb, hne, hpar⟩ := h.ctl c p hp
    have hb' := hb
    rw [hctl] at hb
    obtain ⟨b', hk, hmove⟩ := hb.release hmem
    exact hmoved hp hb' hne hpar hk hmove
  | @exec _ i k ok m k' _ hctl he =>
    rw [State.setMem_cpu, hself] at hp ⊢
    obtain ⟨b, hb, hne, hpar⟩ := h.ctl c p hp
    have hb' := hb
    rw [hctl] at hb
    rw [(hs.cpu c).proc_of_who hp] at he
    have he' : Kernel.exec C (c = boot) (some p) ok s.mem i =
        some (((s.setCtl c (k' ++ k)).setMem m).mem, k', e) := he
    obtain ⟨b', hk, hmove⟩ := hb.exec he' fun chan q hi => by
      subst hi
      exact ⟨c, hp, ((hs.cpu c).disc hctl (by simp)).2.1⟩
    exact hmoved hp hb' hne hpar hk hmove
  | @user _ q u k d k' hctl _ hsem =>
    rw [State.setUser, hself] at hp ⊢
    obtain ⟨b, hb, -⟩ := h.ctl c p hp
    rw [hctl] at hb
    refine hidle (.away (NoExit.append (fun i hi => ?_) hb.away_of_user.2)) (.inl rfl)
    have hcall := hC.calls q u _ d k' hsem i hi
    cases i <;> first | exact id | exact hcall.elim
  | dispatch =>
    rw [State.setMem_cpu, State.setCpu_self] at hp ⊢
    cases hp
    rcases h.saved p with hb | ⟨hb, hne⟩
    · exact hidle hb (.inl rfl)
    · exact hidle hb (.inr ⟨rfl, hne⟩)
  | account hctl _ =>
    rw [State.setMem_cpu, State.setCpu_self, hs.who_of_account hctl] at hp
    cases hp
  | sched =>
    rw [State.setMem_cpu, State.setCpu_self] at hp
    cases hp
  | clock hheld _ =>
    rw [hself] at hp ⊢
    obtain ⟨b', hb', hidle'⟩ := h.interrupt (k := [.clockintr]) hs true hp hheld
      (by simp [Instr.Neutral, Instr.Exiting])
    exact hidle hb' hidle'
  | device a chan hheld _ =>
    rw [hself] at hp ⊢
    obtain ⟨b', hb', hidle'⟩ := h.interrupt (k := devintrCode a chan) hs false hp hheld
      (by simp [devintrCode, Instr.Neutral, Instr.Exiting])
    exact hidle hb' hidle'

theorem saved_step (hs : Safe C s) (h : ExitOk s) (t : Step boot C s (c, e) s') (p : Fin N) :
    Exits p .away (s'.mem.proc p).context ∨
      Exits p .entering (s'.mem.proc p).context ∧ p ≠ 0 := by
  have hsame : ∀ {q : Fin N} {x : Proc N υ}, x.context = (s.mem.proc q).context →
      Exits p .away ((s.mem.set q x).proc p).context ∨
        Exits p .entering ((s.mem.set q x).proc p).context ∧ p ≠ 0 := by
    intro q x hx
    rw [Mem.set_proc]
    split_ifs with hp
    · rw [hx, ← hp]
      exact h.saved p
    · exact h.saved p
  cases t with
  | acquire | release | user | clock | device => exact h.saved p
  | exec _ he =>
    rcases exec_context he p with hctx | ⟨hctx, -⟩
    · rw [State.setMem_mem, hctx]
      exact h.saved p
    · rw [State.setMem_mem, hctx]
      exact .inl (.away (by simp [NoExit, forkretCode, Instr.Exiting]))
  | dispatch => exact hsame rfl
  | account _ hq => exact hsame (Proc.account_eq_some hq).2.1
  | @sched _ q k hctl _ _ =>
    rw [State.setMem_mem, Mem.set_proc]
    split_ifs with hp
    · subst hp
      obtain ⟨hproc, -, -⟩ := (hs.cpu c).disc hctl (by simp)
      obtain ⟨b, hb, hne, -⟩ := h.ctl c p (((hs.cpu c).who_eq_proc hctl (by simp)).trans hproc)
      rw [hctl] at hb
      rcases hb.sched with hk | ⟨rfl, hk⟩
      · exact .inl hk
      · exact .inr ⟨hk, hne (by simp)⟩
    · exact h.saved p

theorem step (hs : Safe C s) (hC : C.Disciplined) (h : ExitOk s) (t : Step boot C s (c, e) s') :
    ExitOk s' := by
  refine ⟨fun c' p hp => ?_, h.saved_step hs t⟩
  by_cases hc : c' = c
  · subst hc
    obtain ⟨b, hb, hne, hstep⟩ := h.move hs hC t hp
    refine ⟨b, hb, hne, fun j hj => ?_⟩
    rcases hstep with rfl | rfl | ⟨b₀, -, -, hmove, hpar⟩
    · exact absurd hj (Nat.not_lt_zero _)
    · exact absurd hj (Nat.not_lt_zero _)
    · cases hmove with
      | away | enter | start => exact absurd hj (Nat.not_lt_zero _)
      | given hsame | wake hsame =>
        rw [hsame]
        exact hpar j hj
      | @sweep n hsweep =>
        rcases hsweep j with ⟨hsame, hn⟩ | ⟨-, h0⟩
        · rw [hsame]
          rcases Nat.lt_succ_iff_lt_or_eq.1 hj with hj | hj
          exacts [hpar j hj, hn hj]
        · rw [h0]
          exact fun heq => hne (by simp) (Option.some_inj.1 heq).symm
      | swept hn hmem =>
        rw [hmem]
        exact hpar j (lt_of_lt_of_le hj hn)
      | announce hmem | finish _ hmem | lock hmem =>
        rw [hmem]
        exact hpar j hj
  · rw [t.cpu_of_ne hc] at hp ⊢
    obtain ⟨b, hb, hne, hpar⟩ := h.ctl c' p hp
    refine ⟨b, hb, hne, fun j hj => ?_⟩
    -- the other CPU has `wait_lock`
    have hl : .waitLock ∈ s.held c' := by
      rcases hb.held ((hs.cpu c').disc_of_who hp) with rfl | rfl | hl
      · exact absurd hj (Nat.not_lt_zero _)
      · exact absurd hj (Nat.not_lt_zero _)
      · exact hl
    rcases t.parent hs j with hsame | hnone | hl'
    · rw [hsame]
      exact hpar j hj
    · rw [hnone]
      exact nofun
    · exact absurd hl' (notMem_held_of_ne hl hc)

omit [DecidableEq κ] in
/-- A process that is about to be a ZOMBIE is not the initial process, and has no children. -/
theorem of_setZombie (hs : Safe C s) (h : ExitOk s) {p : Fin N} {status : ℤ} {k : List (Instr N υ)}
    (hctl : (s.cpu c).ctl = .setZombie p status :: k) :
    p ≠ 0 ∧ ∀ j, (s.mem.proc j).parent ≠ some p := by
  have hproc := ((hs.cpu c).disc hctl (by simp)).1
  obtain ⟨b, hb, hne, hpar⟩ := h.ctl c p (((hs.cpu c).who_eq_proc hctl (by simp)).trans hproc)
  rw [hctl] at hb
  have hready := hb.eq_ready
  subst hready
  exact ⟨hne (by simp), fun j => hpar j j.isLt⟩

end ExitOk

section Reachable

variable [DecidableEq κ] [NeZero N] {boot : κ} {start : δ → Prop} {s : State κ N υ δ}

theorem exitOk_of_reachable (hC : C.Disciplined) (hs : (kernel boot C start).Reachable s) :
    ExitOk s := by
  refine LTS.Reachable.invariant (fun s hs => ?_) (fun s e s' hs h t => ?_) hs
  · refine ⟨fun c p hp => ?_, fun p => .inl ?_⟩
    · rw [(hs.1.cpu c).1] at hp
      cases hp
    · rw [hs.1.context]
      exact .away (by simp [NoExit, forkretCode, Instr.Exiting])
  · exact h.step (safe_of_reachable hC hs) hC t

end Reachable

end Xv6.Kernel
