import Xv6.Kernel.Exit

/-!
# The family of processes

What `kfork`, `kexit`, `reparent` and `kwait` keep, in every run of the kernel with any disciplined
client:

* two processes have different pids (`PidOk`), as long as `allocpid` has not counted through all the
  ints;
* the parent of every process is a process that has not exited (`ParentOk`): `kexit` has given away
  all children of a process before it is a zombie, and only a running process adopts one;
* a process that has exited is returned by one `kwait`, that of its parent at the time, with the pid
  and the status it exited with (`fate`), and every call of `kwait` has one result (`waiting`).
-/

namespace Xv6.Kernel

variable {κ : Type} {N : ℕ} {υ δ : Type}

/-! ## Pids -/

/-- The number of calls of `allocpid`. -/
def allocpids : List (κ × Event N) → ℕ
  | [] => 0
  | (_, .allocpid _ _) :: h => allocpids h + 1
  | _ :: h => allocpids h

theorem allocpids_cons_of_ne {c : κ} {e : Event N} {h : List (κ × Event N)}
    (he : ∀ j pid, e ≠ .allocpid j pid) : allocpids ((c, e) :: h) = allocpids h := by
  cases e <;> first | rfl | exact absurd rfl (he _ _)

theorem allocpids_le_cons (x : κ × Event N) (h : List (κ × Event N)) :
    allocpids h ≤ allocpids (x :: h) := by
  obtain ⟨c, e⟩ := x
  cases e <;> simp [allocpids]

/-- The pids after `n` calls of `allocpid`. -/
structure PidOk (n : ℕ) (s : State κ N υ δ) : Prop where
  nextpid : s.mem.nextpid = int32 (2 + n)
  bound : ∀ j, 0 ≤ (s.mem.proc j).pid ∧ (s.mem.proc j).pid < 2 + n
  unique : ∀ i j, i ≠ j → (s.mem.proc i).pid ≠ 0 → (s.mem.proc i).pid ≠ (s.mem.proc j).pid
  used : ∀ j, (s.mem.proc j).state ≠ .unused → (s.mem.proc j).pid ≠ 0
  given : ∀ c p j, (s.cpu c).who = some p → Allocs (some (j, true)) (s.cpu c).ctl →
    (s.mem.proc j).pid ≠ 0

variable {C : Client N υ δ}

/-- A step changes a pid in `allocpid`, or to 0. -/
theorem SlotChange.pid [NeZero N] {my : Option (Fin N)} {i : Instr N υ} {e : Event N} {j : Fin N}
    {a b : Slot N} (h : SlotChange my i e j a b) :
    b.pid = a.pid ∨ b = .free ∨ ∃ n, e = .allocpid j n ∧ b = { a with pid := n } := by
  cases h with
  | reap | abort => exact .inr (.inl rfl)
  | allocpid hi he => exact .inr (.inr ⟨_, he, rfl⟩)
  | same | yield | sleep | clearChan | wake | kill | setkilled | orphan | exit | alloc | adopt
  | start => exact .inl rfl

theorem StepSlot.pid [NeZero N] {s : State κ N υ δ} {c : κ} {e : Event N} {j : Fin N} {b : Slot N}
    (h : StepSlot C s c e j b) :
    b.pid = (s.mem.proc j).pid ∨ b = .free ∨
      ∃ n, e = .allocpid j n ∧ b = { (s.mem.proc j).slot with pid := n } := by
  cases h with
  | same | run => exact .inl rfl
  | exec _ _ _ h => exact h.pid

section Step

variable [DecidableEq κ] [NeZero N] {boot : κ} {s s' : State κ N υ δ} {c : κ} {e : Event N}

/-- A step that is not one of `allocpid` keeps the pids of processes, and gives none. -/
theorem PidOk.keep {n : ℕ} (hs : Safe C s) (hC : C.Disciplined) (ha : AllocOk s) (h : PidOk n s)
    (t : Step boot C s (c, e) s') (he : ∀ j pid, e ≠ .allocpid j pid)
    (hnext : s'.mem.nextpid = s.mem.nextpid) : PidOk n s' := by
  have hpid : ∀ j, (s'.mem.proc j).pid = (s.mem.proc j).pid ∨
      (s'.mem.proc j).pid = 0 ∧ (s'.mem.proc j).state = .unused := by
    intro j
    rcases (t.slot hs j).pid with hp | hfree | ⟨n, he', -⟩
    · exact .inl hp
    · exact .inr ⟨congrArg Slot.pid hfree, congrArg Slot.state hfree⟩
    · exact absurd he' (he j n)
  refine ⟨hnext.trans h.nextpid, fun j => ?_, fun i j hij hi => ?_, fun j hj => ?_,
    fun c' p j hp hb => ?_⟩
  · rcases hpid j with hj | ⟨hj, -⟩
    · rw [hj]
      exact h.bound j
    · rw [hj]
      omega
  · rcases hpid i with hi' | ⟨hi', -⟩
    · rw [hi'] at hi ⊢
      rcases hpid j with hj | ⟨hj, -⟩
      · rw [hj]
        exact h.unique i j hij hi
      · rwa [hj]
    · exact absurd hi' hi
  · rcases hpid j with hj' | ⟨-, hj'⟩
    · rw [hj']
      rcases (t.slot hs j).used hs hj with hst | ⟨p, k, hctl⟩
      · exact h.used j hst
      · obtain ⟨hwho, hb, -⟩ := ha.allocs_of_allocInit hs hctl
        exact h.given c p j hwho hb
    · exact absurd hj' hj
  · by_cases hc : c' = c
    · subst hc
      obtain ⟨b, b', hb', hmove, hbefore⟩ := ha.move hs hC t hp
      obtain rfl := hb.unique hb'
      obtain ⟨hwho, hb₀⟩ := hbefore.resolve_left (by simp)
      cases hmove with
      | stay hmem =>
        rw [hmem]
        exact h.given c' p j hwho hb₀
      | give _ _ he' => exact absurd he' (he _ _)
    · rw [t.cpu_of_ne hc] at hp hb
      rw [(AllocOk.slot_of_ne hs t hc hp hb).2]
      exact h.given c' p j hp hb

/-- `allocpid` gives a pid that no slot has. -/
theorem PidOk.give {n : ℕ} (hs : Safe C s) (hC : C.Disciplined) (ha : AllocOk s)
    (h : PidOk n s) (t : Step boot C s (c, e) s') {q : Fin N} (he : e = .allocpid q s.mem.nextpid)
    (hn : (n : ℤ) + 1 < 2 ^ 31 - 1) (hnext : s'.mem.nextpid = int32 (s.mem.nextpid + 1))
    (hslot : ∀ i, (s'.mem.proc i).slot =
      if i = q then { (s.mem.proc q).slot with pid := s.mem.nextpid }
      else (s.mem.proc i).slot) : PidOk (n + 1) s' := by
  have hnew : s.mem.nextpid = 2 + n := by
    rw [h.nextpid, int32_of_mem] <;> omega
  have hpid : ∀ i, (s'.mem.proc i).pid = if i = q then 2 + (n : ℤ) else (s.mem.proc i).pid := by
    intro i
    have hi := congrArg Slot.pid (hslot i)
    rw [apply_ite Slot.pid, hnew] at hi
    exact hi
  have hstate : ∀ i, (s'.mem.proc i).state = (s.mem.proc i).state := by
    intro i
    have hi := congrArg Slot.state (hslot i)
    split_ifs at hi with hiq
    · rw [hiq] at hi ⊢
      exact hi
    · exact hi
  refine ⟨?_, fun j => ?_, fun i j hij hi => ?_, fun j hj => ?_, fun c' p j hp hb => ?_⟩
  · rw [hnext, hnew]
    congr 1
  · have hj := h.bound j
    rw [hpid]
    split_ifs <;> omega
  · have hbi := h.bound i
    have hbj := h.bound j
    rw [hpid] at hi
    rw [hpid, hpid]
    split_ifs at hi ⊢ with hi' hj'
    · exact absurd (hi'.trans hj'.symm) hij
    · omega
    · omega
    · exact h.unique i j hij hi
  · rw [hpid]
    split_ifs
    · omega
    · exact h.used j (hstate j ▸ hj)
  · rw [hpid]
    split_ifs with hjq
    · omega
    · by_cases hc : c' = c
      · subst hc
        obtain ⟨b, b', hb', hmove, hbefore⟩ := ha.move hs hC t hp
        obtain rfl := hb.unique hb'
        obtain ⟨hwho, hb₀⟩ := hbefore.resolve_left (by simp)
        cases hmove with
        | stay => exact h.given c' p j hwho hb₀
        | give _ _ he' =>
          rw [he] at he'
          cases he'
          exact absurd rfl hjq
      · rw [t.cpu_of_ne hc] at hp hb
        exact h.given c' p j hp hb

omit [DecidableEq κ] in
theorem Boot.pidOk (hb : Boot C s) : PidOk 0 s := by
  have hpid : ∀ j, (s.mem.proc j).pid = if j = 0 then 1 else 0 := by
    intro j
    split_ifs with hj
    · rw [hj, hb.initproc]
    · rw [hb.unused j hj]
      rfl
  refine ⟨by rw [hb.nextpid]; rfl, fun j => ?_, fun i j hij hi => ?_, fun j hj => ?_,
    fun c p j hp => ?_⟩
  · rw [hpid]
    split_ifs <;> decide
  · rw [hpid] at hi
    rw [hpid, hpid]
    split_ifs at hi ⊢ with hi' hj'
    · exact absurd (hi'.trans hj'.symm) hij
    · decide
    all_goals exact absurd rfl hi
  · rw [hpid]
    split_ifs with hj'
    · decide
    · rw [hb.unused j hj'] at hj
      exact absurd rfl hj
  · rw [(hb.cpu c).1] at hp
    cases hp

/-- The pids are right as long as `allocpid` has been called fewer than `2 ^ 31 - 1` times. -/
theorem pidOk_of_run {start : δ → Prop} (hC : C.Disciplined) {h : List (κ × Event N)}
    (r : (kernel boot C start).Run h s) (hn : (allocpids h : ℤ) < 2 ^ 31 - 1) :
    PidOk (allocpids h) s := by
  refine LTS.Run.invariant (I := fun h s => (allocpids h : ℤ) < 2 ^ 31 - 1 → PidOk (allocpids h) s)
    (fun s hs _ => ?_) (fun h s x s' r ih t hn => ?_) r hn
  · exact hs.1.pidOk
  obtain ⟨c, e⟩ := x
  have hle := allocpids_le_cons (c, e) h
  have hpids := ih (by omega)
  have hs := safe_of_reachable hC ⟨h, r⟩
  have ha := allocOk_of_reachable hC ⟨h, r⟩
  rcases Step.nextpid t with ⟨hnext, he⟩ | ⟨q, k, hctl, he, hnext, hslot⟩
  · rw [allocpids_cons_of_ne he]
    exact hpids.keep hs hC ha t he hnext
  · have hcount : allocpids ((c, e) :: h) = allocpids h + 1 := by
      rw [he]
      rfl
    rw [hcount] at hn ⊢
    push_cast at hn
    exact hpids.give hs hC ha t he hn hnext hslot

end Step

/-! ## Parents -/

/-- A process that has been made runnable and has not exited. -/
def ProcState.Alive : ProcState → Prop
  | .sleeping | .runnable | .running => True
  | _ => False

/-- The slots that a thread is about to make runnable and that have a parent already. -/
def adopted : List (Instr N υ) → List (Fin N)
  | [] => []
  | .setParent _ j :: k => (adopted k).filter (· ≠ j)
  | .forkRunnable j :: k => j :: adopted k
  | _ :: k => adopted k

/-- An instruction of `kfork` that changes `adopted`. -/
def Instr.Adopts : Instr N υ → Prop
  | .setParent _ _ | .forkRunnable _ => True
  | _ => False

/-- The parents: every process but the first has one, and it has not exited. -/
structure ParentOk [NeZero N] (s : State κ N υ δ) : Prop where
  init : (s.mem.proc 0).state.Alive
  parent : ∀ j p, (s.mem.proc j).parent = some p → (s.mem.proc p).state.Alive
  orphan : ∀ j, j ≠ 0 → (s.mem.proc j).state ≠ .unused → (s.mem.proc j).state ≠ .used →
    (s.mem.proc j).parent ≠ none
  adopted : ∀ p k j, s.Thread p k → j ∈ adopted k → (s.mem.proc j).parent ≠ none

theorem adopted_append {k' : List (Instr N υ)} (h : ∀ i ∈ k', ¬i.Adopts) (k : List (Instr N υ)) :
    adopted (k' ++ k) = adopted k := by
  induction k' with
  | nil => rfl
  | cons i k' ih =>
    have hi := h i (List.mem_cons_self ..)
    have hrec := ih fun j hj => h j (List.mem_cons_of_mem _ hj)
    cases i <;> first | exact hrec | exact absurd trivial hi

theorem adopted_cons {i : Instr N υ} (h : ¬i.Adopts) (k : List (Instr N υ)) :
    adopted (i :: k) = adopted k := by
  have hi : ∀ j ∈ [i], ¬j.Adopts := by simpa using h
  exact adopted_append hi k

/-- A slot that is about to be made runnable is pending. -/
theorem mem_pending_of_adopted {j : Fin N} {k : List (Instr N υ)} (h : j ∈ adopted k) :
    j ∈ pending k := by
  induction k with
  | nil => exact h
  | cons i k ih =>
    rw [pending_cons, List.mem_append]
    by_cases hi : i.Adopts
    · cases i <;> first | exact hi.elim | skip
      case setParent => exact .inr (ih (List.mem_filter.1 h).1)
      case forkRunnable =>
        rcases List.mem_cons.1 h with rfl | h
        · exact .inl (List.mem_singleton_self _)
        · exact .inr (ih h)
    · rw [adopted_cons hi] at h
      exact .inr (ih h)

/-- Only `kfork` goes on with instructions that change `adopted`, and it sets the parent first. -/
theorem adopted_exec [NeZero N] {my : Option (Fin N)} {cpu0 ok : Bool} {m m' : Mem N υ}
    {i : Instr N υ} {k k' : List (Instr N υ)} {e : Event N}
    (he : exec C cpu0 my ok m i = some (m', k', e)) {j : Fin N} (hj : j ∈ adopted (k' ++ k)) :
    j ∈ adopted (i :: k) ∨ ∃ p, i = .setParent p j := by
  by_cases hi : i.Adopts
  · cases i <;> first | exact hi.elim | skip
    case setParent p j' =>
      cases he
      by_cases hjj : j = j'
      · exact .inr ⟨p, by rw [hjj]⟩
      · exact .inl (List.mem_filter.2 ⟨hj, decide_eq_true hjj⟩)
    case forkRunnable =>
      cases he
      exact .inl (List.mem_cons_of_mem _ hj)
  · rw [adopted_cons hi]
    refine .inl ?_
    by_cases hfork : ∃ p pp, i = .forkCopy p pp
    · obtain ⟨p, pp, rfl⟩ := hfork
      simp only [exec] at he
      split_ifs at he <;> cases he
      · simp [forkCode, adopted] at hj
        exact hj.1
      · exact hj
    · rwa [adopted_append ?_] at hj
      cases i <;> simp only [exec, reduceCtorEq] at he
      case forkCopy p pp => exact absurd ⟨p, pp, rfl⟩ hfork
      case sleep =>
        obtain ⟨p, -, he⟩ := Option.map_eq_some_iff.1 he
        cases he
        simp [sleepCode, Instr.Adopts]
      case kexit =>
        obtain ⟨p, -, he⟩ := Option.bind_eq_some_iff.1 he
        split_ifs at he
        cases he
        simp [kexitCode, Instr.Adopts]
      case clockintr => cases he; cases cpu0 <;> simp [clockintrCode, Instr.Adopts]
      all_goals
        clear hfork hj
        cases my <;> grind [yieldCode, wakeupCode, Instr.Adopts]

/-- **All that can happen to a parent.** -/
theorem SlotChange.parent_cases [NeZero N] {my : Option (Fin N)} {i : Instr N υ} {e : Event N}
    {j : Fin N} {a b : Slot N} (h : SlotChange my i e j a b) :
    b.parent = a.parent ∨ b = .free ∨ b.parent = some 0 ∨
      ∃ p, i = .setParent p j ∧ b.parent = some p := by
  cases h with
  | reap | abort => exact .inr (.inl rfl)
  | orphan => exact .inr (.inr (.inl rfl))
  | adopt hi => exact .inr (.inr (.inr ⟨_, hi, rfl⟩))
  | same | yield | sleep | clearChan | wake | kill | setkilled | exit | allocpid | alloc | start =>
    exact .inl rfl

section Step

variable [DecidableEq κ] [NeZero N] {boot : κ} {s s' : State κ N υ δ} {c : κ} {e : Event N}

omit [DecidableEq κ] in
/-- A process stays alive until it sets its state to ZOMBIE. -/
theorem StepSlot.alive (hs : Safe C s) {j : Fin N} {b : Slot N} (h : StepSlot C s c e j b)
    (ha : (s.mem.proc j).state.Alive) :
    b.state.Alive ∨ ∃ status k, (s.cpu c).ctl = .setZombie j status :: k := by
  cases h with
  | same => exact .inl ha
  | run => exact .inl trivial
  | @exec i k b hctl hd hwho h =>
    cases h with
    | same | clearChan | setkilled | orphan | allocpid | adopt => exact .inl ha
    | yield | sleep | wake | start => exact .inl trivial
    | kill =>
      left
      change (if (s.mem.proc j).state = .sleeping then ProcState.runnable
        else (s.mem.proc j).state).Alive
      by_cases hst : (s.mem.proc j).state = .sleeping
      · rw [if_pos hst]
        trivial
      · rwa [if_neg hst]
    | exit hi =>
      subst hi
      exact .inr ⟨_, k, hctl⟩
    | reap _ hst =>
      change (s.mem.proc j).state = .zombie at hst
      rw [hst] at ha
      exact ha.elim
    | alloc _ hst =>
      change (s.mem.proc j).state = .unused at hst
      rw [hst] at ha
      exact ha.elim
    | abort hi =>
      rcases hi with ⟨-, hst⟩ | rfl
      · change (s.mem.proc j).state = .unused at hst
        rw [hst] at ha
        exact ha.elim
      · obtain ⟨q, hq⟩ := hs.who_of_pending (p := j) hctl (by simp) (by simp [Instr.pending])
        have hused := hs.forks.used q _ j (.inl ⟨c, hq, hctl.symm⟩) (by simp [Instr.pending])
        rw [hused] at ha
        exact ha.elim

omit [DecidableEq κ] in
/-- A process that has been made runnable by the step is the new one of a `kfork`. -/
theorem StepSlot.made (hs : Safe C s) {j : Fin N} {b : Slot N} (h : StepSlot C s c e j b)
    (hb : b.state ≠ .unused) (hb' : b.state ≠ .used) :
    (s.mem.proc j).state ≠ .unused ∧ (s.mem.proc j).state ≠ .used ∨
      ∃ q k, (s.cpu c).who = some q ∧ (s.cpu c).ctl = .forkRunnable j :: k := by
  cases h with
  | same => exact .inl ⟨hb, hb'⟩
  | run hst => exact .inl (by simp [hst])
  | @exec i k b hctl hd hwho h =>
    have hrun : (s.cpu c).proc = some j →
        (s.mem.proc j).state ≠ .unused ∧ (s.mem.proc j).state ≠ .used := fun hproc =>
      (hs.state_of_who (hwho.trans hproc)).symm
    cases h with
    | same | clearChan | setkilled | orphan | allocpid | adopt => exact .inl ⟨hb, hb'⟩
    | yield hi | sleep hi | exit hi =>
      subst hi
      exact .inl (hrun hd.1)
    | wake _ hst =>
      left
      change (s.mem.proc j).state = .sleeping at hst
      simp [hst]
    | kill =>
      left
      constructor <;> intro hst
      · exact hb (by simp [Proc.slot, hst])
      · exact hb' (by simp [Proc.slot, hst])
    | reap | abort => exact absurd rfl hb
    | alloc => exact absurd rfl hb'
    | start hi =>
      subst hi
      obtain ⟨q, hq⟩ := hs.who_of_pending (p := j) hctl (by simp) (by simp [Instr.pending])
      exact .inr ⟨q, k, hq, hctl⟩

theorem Step.parent_cases (hs : Safe C s) (t : Step boot C s (c, e) s') (j : Fin N) :
    (s'.mem.proc j).parent = (s.mem.proc j).parent ∨ (s'.mem.proc j).slot = .free ∨
      (s'.mem.proc j).parent = some 0 ∨
      ∃ p k, (s.cpu c).ctl = .setParent p j :: k ∧ (s.cpu c).who = some p ∧
        (s'.mem.proc j).parent = some p := by
  have h := t.slot hs j
  change (s'.mem.proc j).slot.parent = (s.mem.proc j).slot.parent ∨ _ ∨
    (s'.mem.proc j).slot.parent = some 0 ∨
      ∃ p k, _ ∧ (s.cpu c).who = some p ∧ (s'.mem.proc j).slot.parent = some p
  generalize (s'.mem.proc j).slot = b at h ⊢
  cases h with
  | same | run => exact .inl rfl
  | exec hctl hd hwho h =>
    rcases h.parent_cases with hsame | hfree | hinit | ⟨p, rfl, hp⟩
    · exact .inl hsame
    · exact .inr (.inl hfree)
    · exact .inr (.inr (.inl hinit))
    · exact .inr (.inr (.inr ⟨p, _, hctl, hwho.trans hd.1, hp⟩))

theorem Step.of_setParent (hs : Safe C s) (t : Step boot C s (c, e) s') {q j : Fin N}
    {k : List (Instr N υ)} (hctl : (s.cpu c).ctl = .setParent q j :: k) :
    (s'.mem.proc j).parent = some q := by
  have hl := ((hs.cpu c).disc hctl (by simp)).2.1
  cases t with
  | acquire hctl' | release hctl' | user hctl' | dispatch hctl' | account hctl' | sched hctl' =>
    rw [hctl'] at hctl
    cases hctl
  | exec hctl' he =>
    rw [hctl'] at hctl
    cases hctl
    cases he
    rw [State.setMem_mem, Mem.set_proc, if_pos rfl]
  | clock hheld | device _ _ hheld =>
    rw [hheld] at hl
    exact absurd hl (Set.notMem_empty _)

namespace ParentOk

theorem adopted_step (hs : Safe C s) (hs' : Safe C s') (hC : C.Disciplined) (h : ParentOk s)
    (t : Step boot C s (c, e) s') {p j : Fin N} {k : List (Instr N υ)} (hk : s'.Thread p k)
    (hj : j ∈ Kernel.adopted k) : (s'.mem.proc j).parent ≠ none := by
  have hused := hs'.forks.used p k j hk (mem_pending_of_adopted hj)
  -- the slot is not freed, so it keeps its parent, or gets one
  have hkeep : (s.mem.proc j).parent ≠ none → (s'.mem.proc j).parent ≠ none := by
    intro hpar
    rcases t.parent_cases hs j with hsame | hfree | hinit | ⟨q, -, -, -, hq⟩
    · rwa [hsame]
    · have hst : (s'.mem.proc j).state = .unused := congrArg Slot.state hfree
      rw [hst] at hused
      cases hused
    · rw [hinit]
      exact nofun
    · rw [hq]
      exact nofun
  rcases t.thread hs with ⟨q, u, k₁, d, k', hctl, hwho, hsem, -, -, ht⟩ | ⟨-, ht⟩
  · rcases ht p k hk with ⟨rfl, rfl⟩ | ⟨-, hk⟩
    · refine hkeep (h.adopted p (.user u :: k₁) j (.inl ⟨c, hwho, hctl.symm⟩) ?_)
      rw [adopted_append] at hj
      · rwa [adopted_cons (by simp [Instr.Adopts])]
      · intro i hi
        have hcall := hC.calls p u _ d k' hsem i hi
        cases i <;> first | exact id | exact hcall.elim
    · exact hkeep (h.adopted p k j hk hj)
  · cases ht p k hk with
    | same hk => exact hkeep (h.adopted p k j hk hj)
    | pop hk _ _ hi =>
      refine hkeep (h.adopted p _ j hk ?_)
      obtain ⟨l, rfl | rfl⟩ := hi <;> rwa [adopted_cons (by simp [Instr.Adopts])]
    | sched hk =>
      refine hkeep (h.adopted p _ j hk ?_)
      rwa [adopted_cons (by simp [Instr.Adopts])]
    | exec hk₀ _ hctl he =>
      rcases adopted_exec he hj with hj | ⟨q, rfl⟩
      · exact hkeep (h.adopted p _ j hk₀ hj)
      · rw [t.of_setParent hs hctl]
        exact nofun
    | fork => cases hj
    | @interrupt k k' hk₀ _ _ _ hk' timer =>
      have hintr : ∀ i ∈ k', ¬i.Adopts := by
        rcases hk' with rfl | ⟨a, chan, rfl⟩ <;> simp [devintrCode, Instr.Adopts]
      have htrap : ∀ i ∈ (trapCode (inUser C k) timer : List (Instr N υ)), ¬i.Adopts := by
        cases inUser C k <;> cases timer <;> simp [trapCode, Instr.Adopts]
      rw [adopted_append hintr, adopted_append htrap] at hj
      exact hkeep (h.adopted p k j hk₀ hj)

theorem step (hs : Safe C s) (hs' : Safe C s') (hC : C.Disciplined) (hx : ExitOk s)
    (h : ParentOk s) (t : Step boot C s (c, e) s') : ParentOk s' := by
  have halive : ∀ p, (s.mem.proc p).state.Alive → (s'.mem.proc p).state.Alive ∨
      p ≠ 0 ∧ (∀ j, (s.mem.proc j).parent ≠ some p) ∧
        ∃ status k, (s.cpu c).ctl = .setZombie p status :: k := by
    intro p hp
    rcases (t.slot hs p).alive hs hp with hp | ⟨status, k, hctl⟩
    · exact .inl hp
    · obtain ⟨hne, hpar⟩ := hx.of_setZombie hs hctl
      exact .inr ⟨hne, hpar, status, k, hctl⟩
  have hinit : (s'.mem.proc 0).state.Alive :=
    (halive 0 h.init).resolve_right fun hx => hx.1 rfl
  refine ⟨hinit, fun j p hp => ?_, fun j hj hst hst' => ?_,
    fun p k j hk hj => h.adopted_step hs hs' hC t hk hj⟩
  · rcases t.parent_cases hs j with hsame | hfree | h0 | ⟨q, k, hctl, hwho, hq⟩
    · rw [hsame] at hp
      exact (halive p (h.parent j p hp)).resolve_right fun hx => hx.2.1 j hp
    · have hnone : (s'.mem.proc j).parent = none := congrArg Slot.parent hfree
      rw [hnone] at hp
      cases hp
    · rw [h0] at hp
      cases hp
      exact hinit
    · -- the new parent runs
      obtain rfl := Option.some_inj.1 (hq.symm.trans hp)
      have hrun := hs.running c q hwho
      rw [hctl] at hrun
      refine (halive q ?_).resolve_right ?_
      · rw [hrun.running_of_head (by simp) (by simp)]
        trivial
      · rintro ⟨-, -, st, k', hctl'⟩
        rw [hctl'] at hctl
        cases hctl
  · have hpar : (s.mem.proc j).parent ≠ none := by
      rcases (t.slot hs j).made hs hst hst' with ⟨hst, hst'⟩ | ⟨q, k, hwho, hctl⟩
      · exact h.orphan j hj hst hst'
      · exact h.adopted q _ j (.inl ⟨c, hwho, hctl.symm⟩) (by simp [Kernel.adopted])
    rcases t.parent_cases hs j with hsame | hfree | h0 | ⟨q, -, -, -, hq⟩
    · rwa [hsame]
    · exact absurd (congrArg Slot.state hfree) hst
    · rw [h0]
      exact nofun
    · rw [hq]
      exact nofun

end ParentOk

omit [DecidableEq κ] in
theorem Boot.parentOk (hb : Boot C s) : ParentOk s := by
  have hnone : ∀ j, (s.mem.proc j).parent = none := by
    intro j
    by_cases hj : j = 0
    · subst hj
      rw [hb.initproc]
      rfl
    · rw [hb.unused j hj]
      rfl
  refine ⟨?_, fun j p hp => ?_, fun j hj hst => ?_, fun p k j hk hj => ?_⟩
  · rw [hb.initproc]
    trivial
  · rw [hnone] at hp
    cases hp
  · rw [hb.unused j hj] at hst
    exact absurd rfl hst
  · rcases hk with ⟨c, hc, -⟩ | ⟨-, rfl⟩
    · rw [(hb.cpu c).1] at hc
      cases hc
    · rw [hb.context] at hj
      cases hj

theorem parentOk_of_reachable {start : δ → Prop} (hC : C.Disciplined)
    (hs : (kernel boot C start).Reachable s) : ParentOk s := by
  refine LTS.Reachable.invariant (fun s hs => ?_) (fun s e s' hs h t => ?_) hs
  · exact hs.1.parentOk
  · exact h.step (safe_of_reachable hC hs) (safe_of_reachable hC (hs.step t)) hC
      (exitOk_of_reachable hC hs) t

end Step

end Xv6.Kernel
