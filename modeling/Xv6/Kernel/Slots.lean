import Xv6.Kernel.Threads

/-!
# What a step does to a process

`Slot` is the part of `struct proc` that is about the life of the process: its state and channel,
its pid, its parent, whether it has been killed, and its exit status. `SlotChange` says once how an
instruction can change the slot `j`, with the instruction that does it and what the step shows, and
`StepSlot` how a step can; the invariants about pids, parents, `killed` and `wait` are case analyses
on them.

A slot in the hands of `allocproc` stays UNUSED until `allocproc` says otherwise
(`unused_of_allocInit`): its lock is held from the test of its state on (`Taking`).
-/

namespace Xv6.Kernel

variable {κ : Type} {N : ℕ} {υ δ : Type}

/-- The fields of `struct proc` that are about the life of the process. -/
structure Slot (N : ℕ) where
  state : ProcState
  chan : Chan N
  killed : Bool
  xstate : ℤ
  pid : ℤ
  parent : Option (Fin N)
  deriving DecidableEq

/-- The life of the process in a slot. -/
def Proc.slot (p : Proc N υ) : Slot N where
  state := p.state
  chan := p.chan
  killed := p.killed
  xstate := p.xstate
  pid := p.pid
  parent := p.parent

/-- A slot that `freeproc` has freed. -/
def Slot.free : Slot N where
  state := .unused
  chan := .null
  killed := false
  xstate := 0
  pid := 0
  parent := none

/-- The event is one in the life of the process `j`. -/
def Event.Touches (j : Fin N) : Event N → Prop
  | .kill q | .setkilled q | .allocpid q _ | .alloc q | .exit q _ _ | .reap _ q _ _ => q = j
  | _ => False

/-- `SlotChange my i e j a b`: the instruction `i`, run by a thread with `myproc() = my` and seen as
`e`, takes the slot `j` from `a` to `b`. -/
inductive SlotChange [NeZero N] (my : Option (Fin N)) (i : Instr N υ) (e : Event N) (j : Fin N)
    (a : Slot N) :
    Slot N → Prop
  | same (he : ¬e.Touches j) : SlotChange my i e j a a
  | yield (hi : i = .setRunnable j) (he : e = .tau) :
      SlotChange my i e j a { a with state := .runnable }
  | sleep {chan} (hi : i = .setSleeping j chan) (he : e = .tau) :
      SlotChange my i e j a { a with state := .sleeping, chan := chan }
  | clearChan (hi : i = .clearChan j) (he : e = .tau) :
      SlotChange my i e j a { a with chan := .null }
  | wake {chan} (hi : i = .wakeupVisit chan j) (hst : a.state = .sleeping) (hchan : a.chan = chan)
      (he : e = .wake j) : SlotChange my i e j a { a with state := .runnable }
  | kill {pid} (hi : i = .kkillVisit pid j) (hpid : a.pid = pid) (he : e = .kill j) :
      SlotChange my i e j a
        { a with killed := true, state := if a.state = .sleeping then .runnable else a.state }
  | setkilled (hi : i = .setkilledVisit j) (he : e = .setkilled j) :
      SlotChange my i e j a { a with killed := true }
  | orphan {p} (hi : i = .reparent p j) (hp : a.parent = some p) (he : e = .tau) :
      SlotChange my i e j a { a with parent := some 0 }
  | exit {status} (hi : i = .setZombie j status) (he : e = .exit j a.pid status) :
      SlotChange my i e j a { a with state := .zombie, xstate := status }
  | reap {p} (hi : i = .kwaitVisit p j) (hst : a.state = .zombie)
      (he : e = .reap p j a.pid a.xstate) : SlotChange my i e j a .free
  | allocpid {n} (hi : i = .allocpid j) (he : e = .allocpid j n) :
      SlotChange my i e j a { a with pid := n }
  | alloc {p} (hi : i = .allocInit p j) (hst : a.state = .unused) (he : e = .alloc j) :
      SlotChange my i e j a { a with state := .used }
  | abort {p} (hi : i = .allocInit p j ∧ a.state = .unused ∨ i = .forkCopy p j) (he : e = .tau) :
      SlotChange my i e j a .free
  | adopt {p} (hi : i = .setParent p j) (he : e = .tau) :
      SlotChange my i e j a { a with parent := some p }
  | start (hi : i = .forkRunnable j) (he : e = .tau) :
      SlotChange my i e j a { a with state := .runnable }

variable {C : Client N υ δ}

theorem Mem.slot_set {m : Mem N υ} {p : Fin N} {q : Proc N υ} (h : q.slot = (m.proc p).slot)
    (j : Fin N) : ((m.set p q).proc j).slot = (m.proc j).slot := by
  rw [Mem.set_proc]
  split_ifs with hj
  · rw [h, hj]
  · rfl

namespace SlotChange

variable [NeZero N] {my : Option (Fin N)} {i : Instr N υ} {e : Event N} {m : Mem N υ} {p : Fin N}
  {q : Proc N υ}

/-- A change of one slot is a change of every slot, if it is one of that slot and is shown as one
of that slot. -/
theorem set (h : SlotChange my i e p (m.proc p).slot q.slot) (he : ∀ j, j ≠ p → ¬e.Touches j)
    (j : Fin N) : SlotChange my i e j (m.proc j).slot ((m.set p q).proc j).slot := by
  rw [Mem.set_proc]
  split_ifs with hj
  · exact hj ▸ h
  · exact .same (he j hj)

theorem setSame (h : q.slot = (m.proc p).slot) (he : ∀ j, ¬e.Touches j) (j : Fin N) :
    SlotChange my i e j (m.proc j).slot ((m.set p q).proc j).slot := by
  rw [Mem.slot_set h]
  exact .same (he j)

end SlotChange

theorem Proc.age_slot (p : Proc N υ) : p.age.slot = p.slot := by
  unfold Proc.age
  split_ifs <;> rfl

/-- **All that an instruction can do to the life of a process.** -/
theorem exec_slotChange [NeZero N] {my : Option (Fin N)} {cpu0 ok : Bool} {m m' : Mem N υ}
    {i : Instr N υ} {k' : List (Instr N υ)} {e : Event N}
    (he : exec C cpu0 my ok m i = some (m', k', e)) (j : Fin N) :
    SlotChange my i e j (m.proc j).slot (m'.proc j).slot := by
  cases i <;> simp only [exec, reduceCtorEq] at he
  -- the instructions that leave the table alone
  case scan | aging => split_ifs at he <;> cases he <;> exact .same id
  case scanTest | kkill | kwaitScan | kwaitKilled | allocproc | allocTest =>
    split_ifs at he <;> cases he <;> exact .same id
  case wakeup | killedRead | wakeupParent | clockintr | tick | kerneltrap | trapKilled | trapRet =>
    cases he; exact .same id
  case yield | sleep | setkilled | killed | kwait | kfork | usertrap =>
    obtain ⟨p, -, he⟩ := Option.map_eq_some_iff.1 he
    cases he
    exact .same id
  case kexit =>
    obtain ⟨p, -, he⟩ := Option.bind_eq_some_iff.1 he
    split_ifs at he
    cases he
    exact .same id
  -- the instructions that change the accounting
  case agingVisit p =>
    cases he
    refine SlotChange.setSame (Proc.age_slot _) (fun j => ?_) j
    split_ifs <;> exact id
  case charge =>
    cases my <;> simp only at he <;> (try split_ifs at he) <;> cases he
    exacts [.same id, SlotChange.setSame (by rfl) (fun _ => id) j, .same id]
  -- the instructions that change the life of a process
  case setRunnable => cases he; exact SlotChange.set (.yield rfl rfl) (fun _ _ => id) j
  case setSleeping => cases he; exact SlotChange.set (.sleep rfl rfl) (fun _ _ => id) j
  case clearChan => cases he; exact SlotChange.set (.clearChan rfl rfl) (fun _ _ => id) j
  case setParent => cases he; exact SlotChange.set (.adopt rfl rfl) (fun _ _ => id) j
  case forkRunnable => cases he; exact SlotChange.set (.start rfl rfl) (fun _ _ => id) j
  case setkilledVisit =>
    cases he
    refine SlotChange.set ?_ ?_ j
    exacts [.setkilled rfl rfl, fun _ hj => Ne.symm hj]
  case setZombie =>
    cases he
    refine SlotChange.set ?_ ?_ j
    exacts [.exit rfl rfl, fun _ hj => Ne.symm hj]
  case allocpid pp =>
    cases he
    refine SlotChange.set (q := { m.proc pp with pid := m.nextpid }) ?_ ?_ j
    exacts [.allocpid rfl rfl, fun _ hj => Ne.symm hj]
  case wakeupVisit chan p =>
    cases he
    by_cases hs : (m.proc p).sleepsOn chan
    · have hw := of_decide_eq_true hs
      rw [if_pos hs, Proc.wake, if_pos hs]
      exact SlotChange.set (.wake rfl hw.1 hw.2 rfl) (fun _ _ => id) j
    · rw [if_neg hs, Proc.wake, if_neg hs]
      exact SlotChange.setSame rfl (fun _ => id) j
  case kkillVisit pid p =>
    split_ifs at he with hpid <;> cases he
    · refine SlotChange.set ?_ ?_ j
      exacts [.kill rfl hpid rfl, fun _ hj => Ne.symm hj]
    · exact .same id
  case reparent p pp =>
    split_ifs at he with hpp hpar <;> cases he
    · refine SlotChange.set ?_ (fun _ _ => id) j
      exact .orphan (j := ⟨pp, hpp⟩) (a := (m.proc ⟨pp, hpp⟩).slot) rfl hpar rfl
    all_goals exact .same id
  case kwaitVisit p pp =>
    split_ifs at he with hz <;> cases he
    · refine SlotChange.set ?_ ?_ j
      exacts [.reap rfl hz rfl, fun _ hj => Ne.symm hj]
    all_goals exact .same id
  case allocInit p pp =>
    split_ifs at he with hst <;> cases he
    · refine SlotChange.set ?_ ?_ j
      exacts [.alloc rfl hst rfl, fun _ hj => Ne.symm hj]
    · refine SlotChange.set ?_ (fun _ _ => id) j
      exact .abort (.inl ⟨rfl, hst⟩) rfl
  case forkCopy p pp =>
    split_ifs at he <;> cases he
    · exact .same id
    · refine SlotChange.set ?_ (fun _ _ => id) j
      exact .abort (.inr rfl) rfl

namespace SlotChange

variable [NeZero N] {my : Option (Fin N)} {i : Instr N υ} {e : Event N} {j : Fin N} {a b : Slot N}
  {L : Set (Lock N)} {k : List (Instr N υ)}

/-- A slot changes under its lock, but for the parent, which changes under `wait_lock`. -/
theorem held (h : SlotChange my i e j a b) (hd : Disc C my L (i :: k)) :
    b = a ∨ .proc j ∈ L ∨ .waitLock ∈ L ∧ ∃ p, b = { a with parent := p } := by
  cases h with
  | same => exact .inl rfl
  | clearChan hi | wake hi | setkilled hi | start hi =>
    subst hi
    exact .inr (.inl hd.2.1)
  | kill hi | allocpid hi =>
    subst hi
    exact .inr (.inl hd.1)
  | orphan hi | adopt hi =>
    subst hi
    exact .inr (.inr ⟨hd.2.1, _, rfl⟩)
  | yield hi | sleep hi | exit hi | reap hi | alloc hi =>
    subst hi
    refine .inr (.inl ?_)
    rw [hd.2.1]
    simp
  | abort hi =>
    refine .inr (.inl ?_)
    rcases hi with ⟨rfl, -⟩ | rfl
    · rw [hd.2.1]
      simp
    · rw [hd.2.1]
      simp

/-- A slot gets another parent under `wait_lock`. -/
theorem parent (h : SlotChange my i e j a b) (hd : Disc C my L (i :: k)) :
    b.parent = a.parent ∨ b.parent = none ∨ .waitLock ∈ L := by
  cases h with
  | orphan hi | adopt hi =>
    subst hi
    exact .inr (.inr hd.2.1)
  | reap | abort => exact .inr (.inl rfl)
  | same | yield | sleep | clearChan | wake | kill | setkilled | exit | allocpid | alloc | start =>
    exact .inl rfl

end SlotChange

/-! ## What a step does to a slot -/

/-- `StepSlot C s c e j b`: a step of the CPU `c` from `s`, seen as `e`, takes the slot `j` to
`b`. -/
inductive StepSlot [NeZero N] (C : Client N υ δ) (s : State κ N υ δ) (c : κ) (e : Event N)
    (j : Fin N) :
    Slot N → Prop
  | same (he : ¬e.Touches j) : StepSlot C s c e j (s.mem.proc j).slot
  /-- The scheduler runs the process. -/
  | run (hst : (s.mem.proc j).state = .runnable) (hl : .proc j ∈ s.held c) (he : ¬e.Touches j) :
      StepSlot C s c e j { (s.mem.proc j).slot with state := .running }
  | exec {i k b} (hctl : (s.cpu c).ctl = i :: k) (hd : Disc C (s.cpu c).proc (s.held c) (i :: k))
      (hwho : (s.cpu c).who = (s.cpu c).proc)
      (h : SlotChange (s.cpu c).proc i e j (s.mem.proc j).slot b) : StepSlot C s c e j b

theorem Proc.account_slot {p q : Proc N υ} {prev : ℤ} {b : Bool}
    (h : p.account prev = some (q, b)) : q.slot = p.slot := by
  unfold Proc.account at h
  obtain ⟨quantum, -, hq⟩ := Option.map_eq_some_iff.1 h
  split_ifs at hq <;> cases hq <;> rfl

section Step

variable [DecidableEq κ] [NeZero N] {boot : κ} {s s' : State κ N υ δ} {c : κ} {e : Event N}

/-- **All that a step can do to the life of a process.** -/
theorem Step.slot (hs : Safe C s) (t : Step boot C s (c, e) s') (j : Fin N) :
    StepSlot C s c e j (s'.mem.proc j).slot := by
  cases t with
  | acquire | release | user | clock | device => exact .same id
  | @exec _ i _ _ _ _ _ hctl he =>
    have hacc : ∀ q t, i ≠ .account q t := by
      rintro q t rfl
      cases he
    exact .exec hctl ((hs.cpu c).disc hctl hacc) ((hs.cpu c).who_eq_proc hctl hacc)
      (exec_slotChange he j)
  | @dispatch _ level p k hctl hel =>
    rw [State.setMem_mem, Mem.set_proc]
    split_ifs with hj
    · subst hj
      obtain ⟨-, hL⟩ := (hs.cpu c).disc hctl (by simp)
      refine .run (of_decide_eq_true hel).1 ?_ id
      rw [hL]
      exact Set.mem_singleton _
    · exact .same id
  | @account _ p prev q b k hctl hq =>
    rw [State.setMem_mem, Mem.slot_set (Proc.account_slot hq)]
    cases b <;> exact .same id
  | @sched _ p k =>
    rw [State.setMem_mem, Mem.slot_set (q := { s.mem.proc p with context := k }) rfl]
    exact .same id

omit [DecidableEq κ] in
/-- A slot that is in use after a step was so before, or `allocproc` has just taken it. -/
theorem StepSlot.used (hs : Safe C s) {j : Fin N} {b : Slot N} (h : StepSlot C s c e j b)
    (hb : b.state ≠ .unused) :
    (s.mem.proc j).state ≠ .unused ∨ ∃ p k, (s.cpu c).ctl = .allocInit p j :: k := by
  cases h with
  | same => exact .inl hb
  | run hst => exact .inl (by simp [hst])
  | @exec i k b hctl hd hwho h =>
    have hrun : (s.cpu c).proc = some j → (s.mem.proc j).state ≠ .unused := fun hproc =>
      (hs.state_of_who (hwho.trans hproc)).2
    cases h with
    | same | clearChan | setkilled | orphan | allocpid | adopt => exact .inl hb
    | yield hi | sleep hi | exit hi =>
      subst hi
      exact .inl (hrun hd.1)
    | wake _ hst =>
      left
      change (s.mem.proc j).state = .sleeping at hst
      simp [hst]
    | kill =>
      left
      intro hst
      exact hb (by simp [Proc.slot, hst])
    | reap | abort => exact absurd rfl hb
    | alloc hi =>
      subst hi
      exact .inr ⟨_, k, hctl⟩
    | start hi =>
      subst hi
      obtain ⟨q, hq⟩ := hs.who_of_pending (p := j) hctl (by simp) (by simp [Instr.pending])
      have hused := hs.forks.used q _ j (.inl ⟨c, hq, hctl.symm⟩) (by simp [Instr.pending])
      exact .inl (by simp [hused])

omit [DecidableEq κ] in
/-- A process that is asleep after a step was so before, or has put itself to sleep. -/
theorem StepSlot.asleep (hs : Safe C s) {j : Fin N} {b : Slot N} (h : StepSlot C s c e j b)
    (hb : b.state = .sleeping) :
    (s.mem.proc j).state = .sleeping ∧ b.chan = (s.mem.proc j).chan ∨
      ∃ chan k, (s.cpu c).who = some j ∧ (s.cpu c).ctl = .setSleeping j chan :: k ∧
        b.chan = chan := by
  cases h with
  | same => exact .inl ⟨hb, rfl⟩
  | run => cases hb
  | @exec i k b hctl hd hwho h =>
    cases h with
    | same | setkilled | orphan | allocpid | adopt => exact .inl ⟨hb, rfl⟩
    | yield | wake | exit | reap | alloc | abort | start => cases hb
    | sleep hi =>
      subst hi
      exact .inr ⟨_, k, hwho.trans hd.1, hctl, rfl⟩
    | clearChan hi =>
      subst hi
      have hst : (s.mem.proc j).state = .sleeping := hb
      have hrun := hs.running c j (hwho.trans hd.1)
      rw [hctl] at hrun
      rw [hrun.running_of_head (by simp) (by simp)] at hst
      cases hst
    | kill =>
      have hst : (if (s.mem.proc j).state = .sleeping then ProcState.runnable
        else (s.mem.proc j).state) = .sleeping := hb
      split_ifs at hst with hsleep
      exact absurd hst hsleep

omit [DecidableEq κ] in
/-- A zombie after a step was one before, or has just exited. -/
theorem StepSlot.zombie {j : Fin N} {b : Slot N} (h : StepSlot C s c e j b)
    (hb : b.state = .zombie) :
    (s.mem.proc j).state = .zombie ∨
      ∃ status k, (s.cpu c).who = some j ∧ (s.cpu c).ctl = .setZombie j status :: k := by
  cases h with
  | same => exact .inl hb
  | run => cases hb
  | @exec i k b hctl hd hwho h =>
    cases h with
    | same | clearChan | setkilled | orphan | allocpid | adopt => exact .inl hb
    | yield | sleep | wake | reap | alloc | abort | start => cases hb
    | exit hi =>
      subst hi
      exact .inr ⟨_, k, hwho.trans hd.1, hctl⟩
    | kill =>
      have hst : (if (s.mem.proc j).state = .sleeping then ProcState.runnable
        else (s.mem.proc j).state) = .zombie := hb
      split_ifs at hst
      exact .inl hst

/-- A slot changes only under its lock, but for its parent. -/
theorem Step.slot_of_notMem (hs : Safe C s) (t : Step boot C s (c, e) s') {j : Fin N}
    (hj : .proc j ∉ s.held c) :
    ∃ p, (s'.mem.proc j).slot = { (s.mem.proc j).slot with parent := p } ∧
      (p = (s.mem.proc j).parent ∨ .waitLock ∈ s.held c) := by
  have h := t.slot hs j
  generalize (s'.mem.proc j).slot = b at h ⊢
  cases h with
  | same => exact ⟨_, rfl, .inl rfl⟩
  | run _ hl => exact absurd hl hj
  | exec _ hd _ h =>
    rcases h.held hd with rfl | hl | ⟨hl, p, rfl⟩
    · exact ⟨_, rfl, .inl rfl⟩
    · exact absurd hl hj
    · exact ⟨p, rfl, .inr hl⟩

/-- A process gets another parent under `wait_lock`. -/
theorem Step.parent (hs : Safe C s) (t : Step boot C s (c, e) s') (j : Fin N) :
    (s'.mem.proc j).parent = (s.mem.proc j).parent ∨ (s'.mem.proc j).parent = none ∨
      .waitLock ∈ s.held c := by
  have h := t.slot hs j
  change (s'.mem.proc j).slot.parent = (s.mem.proc j).slot.parent ∨
    (s'.mem.proc j).slot.parent = none ∨ _
  generalize (s'.mem.proc j).slot = b at h ⊢
  cases h with
  | same | run => exact .inl rfl
  | exec _ hd _ h => exact h.parent hd

omit [DecidableEq κ] [NeZero N] in
/-- A lock that a CPU holds is held by no other. -/
theorem notMem_held_of_ne {c' : κ} {l : Lock N} (hl : l ∈ s.held c') (hc : c' ≠ c) :
    l ∉ s.held c := by
  intro hl'
  rw [mem_held] at hl hl'
  exact hc (Option.some_inj.1 (hl.symm.trans hl'))

/-- `nextpid` is incremented by `allocpid` only, which gives it to a slot. -/
theorem Step.nextpid (t : Step boot C s (c, e) s') :
    s'.mem.nextpid = s.mem.nextpid ∧ (∀ j pid, e ≠ .allocpid j pid) ∨
      ∃ j k, (s.cpu c).ctl = .allocpid j :: k ∧ e = .allocpid j s.mem.nextpid ∧
        s'.mem.nextpid = int32 (s.mem.nextpid + 1) ∧ ∀ i, (s'.mem.proc i).slot =
          if i = j then { (s.mem.proc j).slot with pid := s.mem.nextpid }
          else (s.mem.proc i).slot := by
  cases t with
  | acquire | release | user | dispatch | sched | clock | device => exact .inl ⟨rfl, by simp⟩
  | @account _ p prev q b => exact .inl ⟨rfl, by cases b <;> simp⟩
  | @exec _ i k ok m k' e hctl he =>
    rw [State.setMem_mem]
    cases i <;> simp only [Kernel.exec, reduceCtorEq] at he
    case allocpid pp =>
      cases he
      refine .inr ⟨pp, k, hctl, rfl, rfl, fun i => ?_⟩
      dsimp only
      rw [Mem.set_proc]
      split_ifs <;> rfl
    case tick => cases he; exact .inl ⟨rfl, by simp⟩
    all_goals
      refine .inl ?_
      clear hctl
      generalize (s.cpu c).proc = my at he
      cases my <;> grind [Mem.set]

end Step

/-! ## A slot in the hands of `allocproc` -/

/-- An instruction of `allocproc`, when it has found a slot. -/
def Instr.Allocates : Instr N υ → Prop
  | .allocpid _ | .allocInit _ _ => True
  | _ => False

/-- No slot is in the hands of `allocproc`. -/
def NoAlloc (k : List (Instr N υ)) : Prop := ∀ i ∈ k, ¬i.Allocates

/-- `Allocs b k`: the control `k` is in `allocproc`, with the slot `j` in its hands, if
`b = some (j, given)`, and in no `allocproc` if `b = none`; `given` tells whether the slot has its
pid. -/
inductive Allocs : Option (Fin N × Bool) → List (Instr N υ) → Prop
  | away {k} (h : NoAlloc k) : Allocs none k
  | acquire {p j k} (h : NoAlloc k) : Allocs (some (j, false))
      (.acquire .pidLock :: .allocpid j :: .release .pidLock :: .allocInit p j :: k)
  | allocpid {p j k} (h : NoAlloc k) :
      Allocs (some (j, false)) (.allocpid j :: .release .pidLock :: .allocInit p j :: k)
  | release {p j k} (h : NoAlloc k) :
      Allocs (some (j, true)) (.release .pidLock :: .allocInit p j :: k)
  | init {p j k} (h : NoAlloc k) : Allocs (some (j, true)) (.allocInit p j :: k)

theorem NoAlloc.append {k k' : List (Instr N υ)} (h : NoAlloc k) (h' : NoAlloc k') :
    NoAlloc (k ++ k') := by
  intro i hi
  rcases List.mem_append.1 hi with hi | hi
  exacts [h i hi, h' i hi]

theorem NoAlloc.tail {i : Instr N υ} {k : List (Instr N υ)} (h : NoAlloc (i :: k)) : NoAlloc k :=
  fun j hj => h j (List.mem_cons_of_mem _ hj)

theorem noAlloc_trapCode (user timer : Bool) : NoAlloc (trapCode user timer : List (Instr N υ)) := by
  cases user <;> cases timer <;> simp [NoAlloc, trapCode, Instr.Allocates]

/-- Only the test of a slot in `allocproc` goes on to take it. -/
theorem exec_noAlloc [NeZero N] {my : Option (Fin N)} {cpu0 ok : Bool} {m m' : Mem N υ}
    {i : Instr N υ} {k' : List (Instr N υ)} {e : Event N}
    (he : exec C cpu0 my ok m i = some (m', k', e)) :
    NoAlloc k' ∨ ∃ p j, i = .allocTest p j ∧ (m.proc j).state = .unused ∧ m' = m ∧
      k' = [.acquire .pidLock, .allocpid j, .release .pidLock, .allocInit p j] := by
  unfold NoAlloc
  cases i <;> simp only [exec, reduceCtorEq] at he
  case allocTest p j =>
    split_ifs at he with hst <;> cases he
    · exact .inr ⟨p, j, rfl, hst, rfl, rfl⟩
    · exact .inl (by simp [Instr.Allocates])
  case sleep =>
    obtain ⟨p, -, he⟩ := Option.map_eq_some_iff.1 he
    cases he
    simp [sleepCode, Instr.Allocates]
  case kexit =>
    obtain ⟨p, -, he⟩ := Option.bind_eq_some_iff.1 he
    split_ifs at he
    cases he
    simp [kexitCode, Instr.Allocates]
  case forkCopy => split_ifs at he <;> cases he <;> simp [forkCode, Instr.Allocates]
  case clockintr => cases he; cases cpu0 <;> simp [clockintrCode, Instr.Allocates]
  all_goals
    refine .inl ?_
    cases my <;> grind [yieldCode, wakeupCode, Instr.Allocates]

namespace Allocs

variable {b b' : Option (Fin N × Bool)} {k : List (Instr N υ)}

/-- A slot in the hands of `allocproc` is locked. -/
theorem held {my : Option (Fin N)} {L : Set (Lock N)} {j : Fin N} {given : Bool}
    (h : Allocs (some (j, given)) k) (hd : Disc C my L k) : .proc j ∈ L := by
  cases h with
  | acquire =>
    have hmem : Lock.proc j ∈ insert .pidLock L := hd.2.1
    simpa using hmem
  | allocpid => exact hd.1
  | release =>
    have hL : L \ {.pidLock} = {.proc j} := hd.2.2.1
    have hmem : Lock.proc j ∈ L \ {.pidLock} := by
      rw [hL]
      exact Set.mem_singleton _
    exact hmem.1
  | init =>
    have hL : L = {.proc j} := hd.2.1
    rw [hL]
    exact Set.mem_singleton _

theorem noAlloc_of_none (h : Allocs none k) : NoAlloc k := by
  cases h with
  | away h => exact h

/-- The last instruction of `allocproc` is not far. -/
theorem not_noAlloc {x : Fin N × Bool} (h : Allocs (some x) k) : ¬NoAlloc k := by
  cases h <;> simp [NoAlloc, Instr.Allocates]

theorem unique (h : Allocs b k) (h' : Allocs b' k) : b = b' := by
  cases b with
  | none =>
    cases b' with
    | none => rfl
    | some => exact absurd h.noAlloc_of_none h'.not_noAlloc
  | some =>
    cases b' with
    | none => exact absurd h'.noAlloc_of_none h.not_noAlloc
    | some => cases h <;> cases h' <;> rfl

end Allocs

/-- The slot in the hands of `allocproc` is UNUSED. -/
structure AllocOk (s : State κ N υ δ) : Prop where
  ctl : ∀ c p, (s.cpu c).who = some p → ∃ b, Allocs b (s.cpu c).ctl ∧
    ∀ j given, b = some (j, given) → (s.mem.proc j).state = .unused
  saved : ∀ p, NoAlloc (s.mem.proc p).context

/-- How a step from `s` to `s'` moves its thread through `allocproc`. -/
inductive AllocMove (s s' : State κ N υ δ) (e : Event N) :
    Option (Fin N × Bool) → Option (Fin N × Bool) → Prop
  | away {b} : AllocMove s s' e b none
  | stay {b} (hmem : s'.mem = s.mem) : AllocMove s s' e b b
  /-- The slot is UNUSED: `allocproc` takes it. -/
  | take {j} (hst : (s.mem.proc j).state = .unused) (hmem : s'.mem = s.mem) :
      AllocMove s s' e none (some (j, false))
  /-- It gets its pid. -/
  | give {j} (hst : (s'.mem.proc j).state = (s.mem.proc j).state)
      (hpid : (s'.mem.proc j).pid = s.mem.nextpid) (he : e = .allocpid j s.mem.nextpid) :
      AllocMove s s' e (some (j, false)) (some (j, true))

namespace AllocOk

variable [DecidableEq κ] [NeZero N] {boot : κ} {s s' : State κ N υ δ} {c : κ} {e : Event N}

omit [DecidableEq κ] in
/-- The control after an instruction. -/
theorem move_exec {i : Instr N υ} {k k' : List (Instr N υ)} {my : Option (Fin N)} {ok cpu0 : Bool}
    {b : Option (Fin N × Bool)} (h : Allocs b (i :: k))
    (he : Kernel.exec C cpu0 my ok s.mem i = some (s'.mem, k', e)) :
    ∃ b', Allocs b' (k' ++ k) ∧ AllocMove s s' e b b' := by
  cases h with
  | away h =>
    rcases exec_noAlloc he with hk' | ⟨p, j, rfl, hj, hmem, rfl⟩
    · exact ⟨none, .away (hk'.append h.tail), .away⟩
    · exact ⟨some (j, false), .acquire h.tail, .take hj hmem⟩
  | acquire | release => cases he
  | @allocpid p j _ h =>
    simp only [Kernel.exec, Option.some.injEq, Prod.mk.injEq] at he
    obtain ⟨hmem, rfl, rfl⟩ := he
    refine ⟨some (j, true), .release h, .give ?_ ?_ rfl⟩ <;> rw [← hmem] <;> simp
  | init h =>
    rcases exec_noAlloc he with hk' | ⟨_, _, hi, -⟩
    · exact ⟨none, .away (hk'.append h), .away⟩
    · cases hi

/-- **All that a step can do about `allocproc`** on its CPU. -/
theorem move (hs : Safe C s) (hC : C.Disciplined) (h : AllocOk s) (t : Step boot C s (c, e) s')
    {p : Fin N} (hp : (s'.cpu c).who = some p) :
    ∃ b b', Allocs b' (s'.cpu c).ctl ∧ AllocMove s s' e b b' ∧
      (b' = none ∨ (s.cpu c).who = some p ∧ Allocs b (s.cpu c).ctl) := by
  have hfree : ∀ k, (s.cpu c).who = some p → s.held c = ∅ → NoAlloc k →
      Allocs none (k ++ (s.cpu c).ctl) := by
    intro k hp hheld hk
    obtain ⟨b, hb, -⟩ := h.ctl c p hp
    have hd := (hs.cpu c).disc_of_who hp
    rw [hheld] at hd
    cases b with
    | none => exact .away (hk.append hb.noAlloc_of_none)
    | some x => exact absurd (hb.held hd) (Set.notMem_empty _)
  have hself : ∀ {k : List (Instr N υ)}, ((s.setCtl c k).cpu c) = { s.cpu c with ctl := k } :=
    State.setCpu_self ..
  cases t with
  | acquire hctl _ =>
    rw [State.setHolder, hself] at hp ⊢
    obtain ⟨b, hb, -⟩ := h.ctl c p hp
    have hb' := hb
    rw [hctl] at hb
    cases hb with
    | away hk => exact ⟨none, none, .away hk.tail, .away, .inl rfl⟩
    | acquire hk => exact ⟨_, _, .allocpid hk, .stay rfl, .inr ⟨hp, hb'⟩⟩
  | release hctl _ =>
    rw [State.setHolder, hself] at hp ⊢
    obtain ⟨b, hb, -⟩ := h.ctl c p hp
    have hb' := hb
    rw [hctl] at hb
    cases hb with
    | away hk => exact ⟨none, none, .away hk.tail, .away, .inl rfl⟩
    | release hk => exact ⟨_, _, .init hk, .stay rfl, .inr ⟨hp, hb'⟩⟩
  | @exec _ i k ok m k' _ hctl he =>
    rw [State.setMem_cpu, hself] at hp ⊢
    obtain ⟨b, hb, -⟩ := h.ctl c p hp
    have hb' := hb
    rw [hctl] at hb
    have he' : Kernel.exec C (c = boot) (s.cpu c).proc ok s.mem i =
        some (((s.setCtl c (k' ++ k)).setMem m).mem, k', e) := he
    obtain ⟨b', hk', hmove⟩ := move_exec hb he'
    exact ⟨b, b', hk', hmove, .inr ⟨hp, hb'⟩⟩
  | @user _ q u k d k' hctl _ hsem =>
    rw [State.setUser, hself] at hp ⊢
    obtain ⟨b, hb, -⟩ := h.ctl c p hp
    rw [hctl] at hb
    cases hb with
    | away hk =>
      refine ⟨none, none, .away (NoAlloc.append (fun i hi => ?_) hk.tail), .away, .inl rfl⟩
      have hcall := hC.calls q u _ d k' hsem i hi
      cases i <;> first | exact id | exact hcall.elim
  | dispatch =>
    rw [State.setMem_cpu, State.setCpu_self]
    exact ⟨none, none, .away (h.saved _), .away, .inl rfl⟩
  | account hctl _ =>
    rw [State.setMem_cpu, State.setCpu_self, hs.who_of_account hctl] at hp
    cases hp
  | sched =>
    rw [State.setMem_cpu, State.setCpu_self] at hp
    cases hp
  | clock hheld _ =>
    rw [hself] at hp ⊢
    refine ⟨none, none, hfree (.clockintr :: trapCode _ _) hp hheld ?_, .away, .inl rfl⟩
    exact NoAlloc.append (k := [.clockintr]) (by simp [NoAlloc, Instr.Allocates])
      (noAlloc_trapCode _ _)
  | device a chan hheld _ =>
    rw [hself] at hp ⊢
    rw [← List.append_assoc]
    refine ⟨none, none, hfree _ hp hheld (NoAlloc.append ?_ (noAlloc_trapCode _ _)), .away, .inl rfl⟩
    simp [NoAlloc, devintrCode, Instr.Allocates]

theorem saved_step (hs : Safe C s) (h : AllocOk s) (t : Step boot C s (c, e) s') (p : Fin N) :
    NoAlloc (s'.mem.proc p).context := by
  have hsame : ∀ {q : Fin N} {x : Proc N υ}, x.context = (s.mem.proc q).context →
      NoAlloc ((s.mem.set q x).proc p).context := by
    intro q x hx
    rw [Mem.set_proc]
    split_ifs with hp
    · rw [hx]
      exact h.saved q
    · exact h.saved p
  cases t with
  | acquire | release | user | clock | device => exact h.saved p
  | exec _ he =>
    rcases exec_context he p with hctx | ⟨hctx, -⟩
    · rw [State.setMem_mem, hctx]
      exact h.saved p
    · rw [State.setMem_mem, hctx]
      simp [NoAlloc, forkretCode, Instr.Allocates]
  | dispatch => exact hsame rfl
  | account _ hq => exact hsame (Proc.account_eq_some hq).2.1
  | @sched _ q k hctl _ _ =>
    rw [State.setMem_mem, Mem.set_proc]
    split_ifs with hp
    · obtain ⟨hproc, -, -⟩ := (hs.cpu c).disc hctl (by simp)
      obtain ⟨b, hb, -⟩ := h.ctl c q (((hs.cpu c).who_eq_proc hctl (by simp)).trans hproc)
      rw [hctl] at hb
      cases hb with
      | away hk => exact hk.tail
    · exact h.saved p

/-- The slot in the hands of another CPU's `allocproc` does not change. -/
theorem slot_of_ne (hs : Safe C s) (t : Step boot C s (c, e) s') {c' : κ} {p j : Fin N}
    {given : Bool} (hc : c' ≠ c) (hp : (s.cpu c').who = some p)
    (hb : Allocs (some (j, given)) (s.cpu c').ctl) :
    (s'.mem.proc j).state = (s.mem.proc j).state ∧ (s'.mem.proc j).pid = (s.mem.proc j).pid := by
  have hl := hb.held ((hs.cpu c').disc_of_who hp)
  obtain ⟨q, hslot, -⟩ := t.slot_of_notMem hs (notMem_held_of_ne hl hc)
  exact ⟨congrArg Slot.state hslot, congrArg Slot.pid hslot⟩

omit [DecidableEq κ] [NeZero N] in
/-- A slot that `allocproc` is about to initialise has its pid. -/
theorem allocs_of_allocInit (hs : Safe C s) (h : AllocOk s) {p j : Fin N} {k : List (Instr N υ)}
    (hctl : (s.cpu c).ctl = .allocInit p j :: k) :
    (s.cpu c).who = some p ∧ Allocs (some (j, true)) (s.cpu c).ctl ∧
      (s.mem.proc j).state = .unused := by
  obtain ⟨hproc, -, -⟩ := (hs.cpu c).disc hctl (by simp)
  have hwho := ((hs.cpu c).who_eq_proc hctl (by simp)).trans hproc
  obtain ⟨b, hb, hst⟩ := h.ctl c p hwho
  have hb' := hb
  rw [hctl] at hb
  cases hb with
  | away hk => exact absurd trivial (hk (.allocInit p j) (by simp))
  | init => exact ⟨hwho, hb', hst j true rfl⟩

omit [DecidableEq κ] [NeZero N] in
/-- A slot that gets a pid is UNUSED. -/
theorem unused_of_allocpid (hs : Safe C s) (h : AllocOk s) {j : Fin N} {k : List (Instr N υ)}
    (hctl : (s.cpu c).ctl = .allocpid j :: k) : (s.mem.proc j).state = .unused := by
  have hacc : ∀ q t, Instr.allocpid j ≠ (.account q t : Instr N υ) := by simp
  have hd := (hs.cpu c).disc hctl hacc
  have hwho := (hs.cpu c).who_eq_proc hctl hacc
  cases hproc : (s.cpu c).proc with
  | none => exact absurd hproc hd.2.1
  | some p =>
    obtain ⟨b, hb, hst⟩ := h.ctl c p (hwho.trans hproc)
    rw [hctl] at hb
    cases hb with
    | away hk => exact absurd trivial (hk (.allocpid j) (by simp))
    | allocpid => exact hst j false rfl

theorem step (hs : Safe C s) (hC : C.Disciplined) (h : AllocOk s) (t : Step boot C s (c, e) s') :
    AllocOk s' := by
  refine ⟨fun c' p hp => ?_, h.saved_step hs t⟩
  by_cases hc : c' = c
  · subst hc
    obtain ⟨b, b', hb', hmove, hbefore⟩ := h.move hs hC t hp
    refine ⟨b', hb', fun j given heq => ?_⟩
    obtain ⟨hwho, hb⟩ := hbefore.resolve_left (by simp [heq])
    obtain ⟨b₀, hb₀, hst⟩ := h.ctl c' p hwho
    obtain rfl := hb.unique hb₀
    subst heq
    cases hmove with
    | stay hmem => rw [hmem]; exact hst j given rfl
    | take hj hmem => rw [hmem]; exact hj
    | give hst' => exact hst'.trans (hst j false rfl)
  · rw [t.cpu_of_ne hc] at hp ⊢
    obtain ⟨b, hb, hst⟩ := h.ctl c' p hp
    refine ⟨b, hb, fun j given heq => ?_⟩
    subst heq
    exact (slot_of_ne hs t hc hp hb).1.trans (hst j given rfl)

end AllocOk

section Reachable

variable [DecidableEq κ] [NeZero N] {boot : κ} {start : δ → Prop} {s : State κ N υ δ}

theorem allocOk_of_reachable (hC : C.Disciplined) (hs : (kernel boot C start).Reachable s) :
    AllocOk s := by
  refine LTS.Reachable.invariant (fun s hs => ?_) (fun s e s' hs h t => ?_) hs
  · refine ⟨fun c p hp => ?_, fun p => ?_⟩
    · rw [(hs.1.cpu c).1] at hp
      cases hp
    · rw [hs.1.context]
      simp [NoAlloc, forkretCode, Instr.Allocates]
  · exact h.step (safe_of_reachable hC hs) hC t

/-- The slot that `allocproc` has found is still UNUSED when it sets its state. -/
theorem unused_of_allocInit (hC : C.Disciplined) (hs : (kernel boot C start).Reachable s) {c : κ}
    {p j : Fin N} {k : List (Instr N υ)} (hctl : (s.cpu c).ctl = .allocInit p j :: k) :
    (s.mem.proc j).state = .unused :=
  ((allocOk_of_reachable hC hs).allocs_of_allocInit (safe_of_reachable hC hs) hctl).2.2

end Reachable

end Xv6.Kernel
