import Xv6.Kernel.Simulate

/-!
# The accounting of the MLFQ scheduler

`charged h p` counts the clock ticks that the history `h` charged to `p` since the last reset of
its quantum: its allocation, a `wakeup`, a promotion by the aging pass, or the expiry of a
quantum. The invariant (`Accounted`) says that `q_ticks` is this count for every slot that is not
on a CPU, and that it is less than the quantum of the slot's level.

While a process is on a CPU its ticks are in `total_ticks` only, and `q_ticks` lags behind by
`total_ticks - prev_total`. That difference is at most one tick: the interrupt that charges it
ends in a `yield` or an exit, with interrupts off, so the process leaves the CPU before it can be
charged again (`Leaves`).
-/

namespace Xv6.Kernel

variable {κ : Type} {N : ℕ} {υ δ : Type}

/-! ## Counting the ticks of a history -/

/-- The event resets the quantum of `p`. -/
def Event.Resets (p : Fin N) : Event N → Prop
  | .alloc q | .wake q | .promote q | .expire q _ => q = p
  | _ => False

instance (p : Fin N) : DecidablePred (Event.Resets p) := fun e => by
  unfold Event.Resets
  split <;> infer_instance

/-- The ticks charged to `p` since the last reset of its quantum; the history is newest first. -/
def charged : List (κ × Event N) → Fin N → ℤ
  | [], _ => 0
  | (_, e) :: h, p =>
    if e.Resets p then 0 else if e = .tick p then charged h p + 1 else charged h p

@[simp] theorem charged_tau (c : κ) (h : List (κ × Event N)) (p : Fin N) :
    charged ((c, .tau) :: h) p = charged h p := by
  simp [charged, Event.Resets]

/-! ## The code of an interrupt -/

/-- The instructions that only the handler of an interrupt uses. -/
def Instr.IsTrap : Instr N υ → Prop
  | .clockintr | .charge | .trapRet => True
  | _ => False

/-- A tick is charged at the start of a trap that ends with a `yield` or an exit. -/
def TickOk : List (Instr N υ) → Prop
  | [] => True
  | .charge :: k | .clockintr :: k => (∃ user k', k = trapCode user true ++ k') ∧ TickOk k
  | _ :: k => TickOk k

/-- The control leaves the CPU, or never comes back, before the next return from a trap and before
the next charge of a tick. -/
def Leaves : List (Instr N υ) → Prop
  | [] => False
  | .clockintr :: _ | .charge :: _ | .trapRet :: _ => False
  | .kerneltrap :: _ | .usertrap true :: _ | .trapKilled _ true :: _ | .yield :: _ | .sched _ :: _
  | .killed _ _ :: _
  | .killedRead _ _ _ :: _ | .kexit _ :: _ | .zombieExit :: _ | .user _ :: _ => True
  | _ :: k => Leaves k

theorem tickOk_append {k k' : List (Instr N υ)} (h : ∀ i ∈ k', ¬i.IsTrap) (hk : TickOk k) :
    TickOk (k' ++ k) := by
  induction k' with
  | nil => exact hk
  | cons i k' ih =>
    have hi := h i (List.mem_cons_self ..)
    have hrec := ih fun j hj => h j (List.mem_cons_of_mem _ hj)
    cases i <;> first | exact hrec | exact absurd trivial hi

theorem tickOk_trapCode (user timer : Bool) {k : List (Instr N υ)} (hk : TickOk k) :
    TickOk (trapCode user timer ++ k) := by
  cases user <;> cases timer <;> exact hk

theorem TickOk.tail {i : Instr N υ} {k : List (Instr N υ)} (h : TickOk (i :: k)) : TickOk k := by
  cases i <;> first | exact h | exact h.2

theorem leaves_append {k k' : List (Instr N υ)} (h : ∀ i ∈ k', ¬i.IsTrap) (hk : Leaves k) :
    Leaves (k' ++ k) := by
  induction k' with
  | nil => exact hk
  | cons i k' ih =>
    have hi := h i (List.mem_cons_self ..)
    have hrec := ih fun j hj => h j (List.mem_cons_of_mem _ hj)
    cases i
    case usertrap timer | trapKilled timer => cases timer <;> first | exact hrec | trivial
    all_goals first | exact hrec | exact absurd trivial hi | trivial

theorem Leaves.append {k : List (Instr N υ)} (h : Leaves k) (k' : List (Instr N υ)) :
    Leaves (k ++ k') := by
  induction k with
  | nil => exact h.elim
  | cons i k ih =>
    cases i
    case usertrap timer | trapKilled timer => cases timer <;> first | exact ih h | exact h
    all_goals first | exact ih h | exact h

variable {C : Client N υ δ}

/-- The code of a client never falls through. -/
theorem leaves_of_disc {p : Fin N} {L : Set (Lock N)} {k : List (Instr N υ)}
    (h : Disc C (some p) L k) (hcall : ∀ i ∈ k, i.IsCall) : Leaves k := by
  induction k generalizing L with
  | nil => exact h.elim
  | cons i k ih =>
    have hi := hcall i (List.mem_cons_self ..)
    have hrec : ∀ {L}, Disc C (some p) L k → Leaves k := fun hk =>
      ih hk fun j hj => hcall j (List.mem_cons_of_mem _ hj)
    cases i
    case acquire | release | setkilled => exact hrec (by first | exact h.2 | exact h.2.2)
    case sleep => exact hrec h.2.2.2
    case wakeup | kkill => exact hrec h.2
    case kwait | kfork => exact hrec h.2.2
    all_goals trivial

/-- Only `clockintr` expands to instructions of a trap. -/
theorem exec_code [NeZero N] {my : Option (Fin N)} {cpu0 ok : Bool} {m m' : Mem N υ}
    {i : Instr N υ} {k' : List (Instr N υ)} {e : Event N}
    (he : exec C cpu0 my ok m i = some (m', k', e)) (hi : i ≠ .clockintr) :
    ∀ j ∈ k', ¬j.IsTrap := by
  cases i <;> simp only [exec, reduceCtorEq] at he
  case clockintr => exact absurd rfl hi
  case sleep =>
    obtain ⟨p, -, he⟩ := Option.map_eq_some_iff.1 he
    cases he
    simp [sleepCode, Instr.IsTrap]
  case kexit =>
    obtain ⟨p, -, he⟩ := Option.bind_eq_some_iff.1 he
    split_ifs at he
    cases he
    simp [kexitCode, Instr.IsTrap]
  case forkCopy => split_ifs at he <;> cases he <;> simp [forkCode, Instr.IsTrap]
  all_goals cases my <;> grind [yieldCode, wakeupCode, Instr.IsTrap]

theorem exec_charge [NeZero N] {my : Option (Fin N)} {cpu0 ok : Bool} {m m' : Mem N υ}
    {k' : List (Instr N υ)} {e : Event N}
    (he : exec C cpu0 my ok m .charge = some (m', k', e)) : k' = [] := by
  cases my <;> simp only [exec] at he
  · cases he
    rfl
  · split_ifs at he <;> cases he <;> rfl

theorem tickOk_exec [NeZero N] {my : Option (Fin N)} {cpu0 ok : Bool} {m m' : Mem N υ}
    {i : Instr N υ} {k k' : List (Instr N υ)} {e : Event N} (h : TickOk (i :: k))
    (he : exec C cpu0 my ok m i = some (m', k', e)) : TickOk (k' ++ k) := by
  by_cases hi : i = .clockintr
  · subst hi
    cases he
    obtain ⟨hk', hk⟩ := h
    cases cpu0
    · exact ⟨hk', hk⟩
    · exact ⟨hk', hk⟩
  · exact tickOk_append (exec_code he hi) h.tail

/-- A process that must leave the CPU goes on to leave it. -/
theorem leaves_exec [NeZero N] {p : Fin N} {cpu0 ok : Bool} {m m' : Mem N υ}
    {i : Instr N υ} {k k' : List (Instr N υ)} {e : Event N} (h : Leaves (i :: k))
    (he : exec C cpu0 (some p) ok m i = some (m', k', e)) : Leaves (k' ++ k) := by
  have hcode := exec_code he (fun hi => by subst hi; exact h)
  cases i
  case clockintr | charge | trapRet => exact h.elim
  case kerneltrap => cases he; trivial
  case usertrap timer =>
    cases he
    cases timer
    · exact leaves_append hcode h
    · trivial
  case trapKilled timer =>
    cases he
    cases timer
    · split_ifs with hkilled htimer
      · trivial
      · cases htimer
      · exact h
    · split_ifs <;> trivial
  case yield | killed | killedRead => cases he; trivial
  case kexit =>
    simp only [exec, Option.bind_some] at he
    split_ifs at he
    cases he
    trivial
  case sched | zombieExit | user => cases he
  all_goals exact leaves_append hcode h

/-! ## What an instruction does to the accounting of a slot -/

/-- The fields of a slot that the accounting reads. -/
structure SameAccount (p q : Proc N υ) : Prop where
  queueLevel : q.queueLevel = p.queueLevel
  qTicks : q.qTicks = p.qTicks
  totalTicks : q.totalTicks = p.totalTicks

/-- `AccountStep my L i e j p q`: the instruction `i`, run by a thread that holds the locks `L`,
takes the slot `j` from `p` to `q` and shows `e`. -/
inductive AccountStep (my : Option (Fin N)) (L : Set (Lock N)) (i : Instr N υ) (e : Event N)
    (j : Fin N) (p q : Proc N υ) : Prop
  | same (h : SameAccount p q) (hr : ¬e.Resets j) (ht : e ≠ .tick j)
  | reset (hl : .proc j ∈ L) (hst : p.state ≠ .running) (hr : e.Resets j)
      (hq : q.qTicks = 0)
      (hlevel : q.queueLevel = 0 ∨ q.queueLevel = p.queueLevel ∨
        0 < p.queueLevel ∧ q.queueLevel = p.queueLevel - 1)
  | tick (hmy : my = some j) (hi : i = .charge) (he : e = .tick j)
      (hlevel : q.queueLevel = p.queueLevel) (hq : q.qTicks = p.qTicks)
      (ht : q.totalTicks = int32 (p.totalTicks + 1))

theorem SameAccount.refl (p : Proc N υ) : SameAccount p p := ⟨rfl, rfl, rfl⟩

namespace AccountStep

variable {my : Option (Fin N)} {L : Set (Lock N)} {i : Instr N υ} {m : Mem N υ} {p : Fin N}
  {q : Proc N υ}

/-- Nothing is shown, and no slot's accounting changes. -/
theorem tau {j : Fin N} {p q : Proc N υ} (h : SameAccount p q) :
    AccountStep my L i .tau j p q :=
  .same h id (by simp)

/-- A call of `kwait`, or its failure, is shown, and no slot's accounting changes. -/
theorem wait {j r : Fin N} {e : Event N} (p : Proc N υ)
    (he : e = .tau ∨ e = .wait r ∨ e = .waitFailed r) : AccountStep my L i e j p p := by
  rcases he with rfl | rfl | rfl <;> exact .same ⟨rfl, rfl, rfl⟩ id (by simp)

/-- A change of one slot is a change of every slot, if it is one of that slot and is shown as one
of that slot. -/
theorem set {e : Event N} (h : AccountStep my L i e p (m.proc p) q)
    (he : ∀ j, j ≠ p → ¬e.Resets j ∧ e ≠ .tick j) (j : Fin N) :
    AccountStep my L i e j (m.proc j) ((m.set p q).proc j) := by
  rw [Mem.set_proc]
  split_ifs with hj
  · exact hj ▸ h
  · exact .same (.refl _) (he j hj).1 (he j hj).2

theorem setTau (h : SameAccount (m.proc p) q) (j : Fin N) :
    AccountStep my L i .tau j (m.proc j) ((m.set p q).proc j) :=
  (tau h).set (fun _ _ => ⟨id, by simp⟩) j

end AccountStep

/-- An event that is about one slot is about no other. -/
theorem Event.not_resets {e : Event N} {p j : Fin N}
    (he : e = .tau ∨ e = .alloc p ∨ e = .wake p ∨ e = .promote p ∨ e = .tick p ∨ e = .age p)
    (hj : j ≠ p) : ¬e.Resets j ∧ e ≠ .tick j := by
  rcases he with rfl | rfl | rfl | rfl | rfl | rfl <;> simp [Event.Resets, hj.symm]

/-- **All that an instruction can do to the accounting of a slot.** -/
theorem exec_accountStep [NeZero N] {my : Option (Fin N)} {cpu0 ok : Bool} {m m' : Mem N υ}
    {i : Instr N υ} {k k' : List (Instr N υ)} {e : Event N} {L : Set (Lock N)}
    (hd : Disc C my L (i :: k)) (he : exec C cpu0 my ok m i = some (m', k', e)) (j : Fin N) :
    AccountStep my L i e j (m.proc j) (m'.proc j) := by
  cases i <;> simp only [exec, reduceCtorEq] at he
  -- the instructions that leave the table alone
  case scan | aging => split_ifs at he <;> cases he <;> exact .tau (.refl _)
  case scanTest | kkill | allocproc | allocTest =>
    split_ifs at he <;> cases he <;> exact .tau (.refl _)
  case kwaitScan p _ _ | kwaitKilled p =>
    split_ifs at he <;> cases he <;> exact AccountStep.wait (r := p) _ (by simp)
  case kwait =>
    obtain ⟨p, -, he⟩ := Option.map_eq_some_iff.1 he
    cases he
    exact AccountStep.wait (r := p) _ (by simp)
  case wakeup | killedRead | wakeupParent | clockintr | tick | kerneltrap | trapKilled | trapRet =>
    cases he; exact .tau (.refl _)
  case yield | sleep | setkilled | killed | kfork | usertrap =>
    obtain ⟨p, -, he⟩ := Option.map_eq_some_iff.1 he
    cases he
    exact .tau (.refl _)
  case kexit =>
    obtain ⟨p, -, he⟩ := Option.bind_eq_some_iff.1 he
    split_ifs at he
    cases he
    exact .tau (.refl _)
  -- the instructions that change other fields
  case setRunnable | setSleeping | clearChan | setParent | forkRunnable =>
    cases he; exact AccountStep.setTau ⟨by rfl, by rfl, by rfl⟩ j
  case setZombie | allocpid | setkilledVisit =>
    cases he
    refine AccountStep.set (.same ⟨by rfl, by rfl, by rfl⟩ ?_ ?_) ?_ j <;> simp [Event.Resets]
  case reparent =>
    split_ifs at he <;> cases he
    exacts [AccountStep.setTau ⟨by rfl, by rfl, by rfl⟩ j, .tau (.refl _), .tau (.refl _)]
  case kkillVisit =>
    split_ifs at he <;> cases he
    · refine AccountStep.set (.same ⟨by rfl, by rfl, by rfl⟩ ?_ ?_) ?_ j <;> simp [Event.Resets]
    · exact .tau (.refl _)
  case kwaitVisit p pp =>
    split_ifs at he <;> cases he
    · refine AccountStep.set (.same ⟨by rfl, by rfl, by rfl⟩ ?_ ?_) ?_ j <;> simp [Event.Resets]
    all_goals exact AccountStep.wait (r := p) _ (by simp)
  case forkCopy =>
    split_ifs at he <;> cases he
    exacts [.tau (.refl _), AccountStep.setTau ⟨by rfl, by rfl, by rfl⟩ j]
  -- the instructions that do
  case agingVisit p =>
    cases he
    refine AccountStep.set ?_ (fun j => Event.not_resets (by split_ifs <;> simp)) j
    by_cases hprom : (m.proc p).promotes
    · obtain ⟨hst, hwait, hlevel⟩ := of_decide_eq_true hprom
      rw [if_pos hprom, Proc.age, if_pos hst, if_pos ⟨hwait, hlevel⟩]
      exact .reset hd.2.1 (by simp [hst]) rfl rfl (.inr (.inr ⟨hlevel, rfl⟩))
    · have hsame : SameAccount (m.proc p) (m.proc p).age := by
        unfold Proc.promotes at hprom
        unfold Proc.age
        split_ifs with hst hcond
        · exact absurd (decide_eq_true ⟨hst, hcond⟩) hprom
        · exact ⟨rfl, rfl, rfl⟩
        · exact ⟨rfl, rfl, rfl⟩
      rw [if_neg hprom]
      refine .same hsame ?_ ?_ <;> split_ifs <;> simp [Event.Resets]
  case wakeupVisit chan p =>
    cases he
    refine AccountStep.set ?_ (fun j => Event.not_resets (by split_ifs <;> simp)) j
    unfold Proc.wake
    split_ifs with hs
    · have hst : (m.proc p).state = .sleeping := (of_decide_eq_true hs).1
      exact .reset hd.2.1 (by simp [hst]) rfl rfl (.inr (.inl rfl))
    · exact .tau (.refl _)
  case allocInit p pp =>
    split_ifs at he with hst <;> cases he
    · refine AccountStep.set (.reset (by simp [hd.2.1]) (by simp [hst]) ?_ (by rfl)
        (.inl (by rfl))) ?_ j
      · simp [Event.Resets]
      · exact fun j => Event.not_resets (by simp)
    · exact AccountStep.setTau ⟨by rfl, by rfl, by rfl⟩ j
  case charge =>
    cases my <;> simp only at he
    · cases he
      exact .tau (.refl _)
    · split_ifs at he <;> cases he
      · refine AccountStep.set (.tick rfl rfl rfl (by rfl) (by rfl) (by rfl)) ?_ j
        exact fun j => Event.not_resets (by simp)
      · exact .tau (.refl _)

/-! ## The invariant -/

/-- `mlfq_quantum` has an entry for every level, and no other. -/
theorem exists_mlfqQuantum {level : ℤ} :
    (∃ q, mlfqQuantum level = some q) ↔ 0 ≤ level ∧ level < mlfqLevels := by
  unfold mlfqQuantum mlfqLevels
  split_ifs with h
  · simp only [exists_false, false_iff]
    omega
  · rw [← Option.isSome_iff_exists, isSome_getElem?]
    simp only [List.length_cons, List.length_nil]
    omega

theorem mlfqQuantum_bounds {level q : ℤ} (h : mlfqQuantum level = some q) : 0 < q ∧ q ≤ 4 := by
  unfold mlfqQuantum at h
  split_ifs at h
  have hmem := List.mem_of_getElem? h
  simp only [List.mem_cons, List.not_mem_nil, or_false] at hmem
  omega

/-- The level of a slot has a quantum, and the slot has not used it up. -/
structure SlotOk (p : Proc N υ) : Prop where
  ticks : 0 ≤ p.qTicks
  quantum : ∃ q, mlfqQuantum p.queueLevel = some q ∧ p.qTicks < q

/-- The slot after a reset of its quantum, at a level that exists. -/
theorem SlotOk.of_reset {p : Proc N υ} (hq : p.qTicks = 0)
    (hlevel : 0 ≤ p.queueLevel ∧ p.queueLevel < mlfqLevels) : SlotOk p := by
  obtain ⟨q, hquantum⟩ := exists_mlfqQuantum.2 hlevel
  refine ⟨by omega, q, hquantum, ?_⟩
  have := mlfqQuantum_bounds hquantum
  omega

theorem SlotOk.level {p : Proc N υ} (h : SlotOk p) :
    0 ≤ p.queueLevel ∧ p.queueLevel < mlfqLevels :=
  exists_mlfqQuantum.1 (h.quantum.imp fun _ hq => hq.1)

theorem SlotOk.of_same {p q : Proc N υ} (h : SlotOk p) (hlevel : q.queueLevel = p.queueLevel)
    (hq : q.qTicks = p.qTicks) : SlotOk q :=
  ⟨hq ▸ h.ticks, by rw [hlevel, hq]; exact h.quantum⟩

theorem AccountStep.slotOk {my : Option (Fin N)} {L : Set (Lock N)} {i : Instr N υ} {e : Event N}
    {j : Fin N} {p q : Proc N υ} (h : AccountStep my L i e j p q) (hp : SlotOk p) : SlotOk q := by
  cases h with
  | same h => exact hp.of_same h.queueLevel h.qTicks
  | reset _ _ _ hq hlevel =>
    have hbounds := hp.level
    have h3 : mlfqLevels = 3 := rfl
    exact .of_reset hq (by omega)
  | tick _ _ _ hlevel hq => exact hp.of_same hlevel hq

/-- The ticks that `total_ticks` is ahead of `prev_total`: none, or one. -/
def Owed (total prev u : ℤ) : Prop := u = 0 ∧ total = prev ∨ u = 1 ∧ total = int32 (prev + 1)

/-- The scheduler of this CPU waits for `p`, or has its accounting to do; `prev` is its
`prev_total`. -/
def Cpu.Away (x : Cpu N υ) (p : Fin N) (prev : ℤ) : Prop :=
  (x.who = some p ∧ ∃ k, x.context = .account p prev :: k) ∨
    (x.who = none ∧ x.proc = some p ∧ ∃ k, x.ctl = .account p prev :: k)

theorem Cpu.Away.proc {L : Set (Lock N)} {x : Cpu N υ} {p : Fin N} {prev : ℤ} (h : x.Away p prev)
    (hx : CpuOk C L x) : x.proc = some p := by
  rcases h with ⟨hwho, -⟩ | ⟨-, hproc, -⟩
  exacts [hx.proc_of_who hwho, hproc]

/-- The accounting of a state that a run with the history `h` has reached. -/
structure Accounted (h : List (κ × Event N)) (s : State κ N υ δ) : Prop where
  slot : ∀ p, SlotOk (s.mem.proc p)
  settled : ∀ p, (∀ c, (s.cpu c).proc ≠ some p) → (s.mem.proc p).qTicks = charged h p
  away : ∀ c p prev, (s.cpu c).Away p prev → ∃ u, Owed (s.mem.proc p).totalTicks prev u ∧
    (s.mem.proc p).qTicks + u = charged h p ∧
      (u = 1 → (s.cpu c).who = some p → .trapRet ∈ (s.cpu c).ctl ∧ Leaves (s.cpu c).ctl)
  tickCtl : ∀ c p, (s.cpu c).who = some p → TickOk (s.cpu c).ctl
  tickSaved : ∀ p, TickOk (s.mem.proc p).context

theorem charged_of_not {c : κ} {e : Event N} {h : List (κ × Event N)} {p : Fin N}
    (hr : ¬e.Resets p) (ht : e ≠ .tick p) : charged ((c, e) :: h) p = charged h p := by
  rw [charged, if_neg hr, if_neg ht]

theorem charged_reset {c : κ} {e : Event N} {h : List (κ × Event N)} {p : Fin N}
    (hr : e.Resets p) : charged ((c, e) :: h) p = 0 :=
  if_pos hr

theorem charged_tick (c : κ) (h : List (κ × Event N)) (p : Fin N) :
    charged ((c, .tick p) :: h) p = charged h p + 1 := by
  simp [charged, Event.Resets]

/-! ## The invariant is kept -/

namespace Accounted

variable [DecidableEq κ] {h : List (κ × Event N)} {s s' : State κ N υ δ} {c : κ}

theorem away_setCtl (hwho : (s.cpu c).who = (s.cpu c).proc) {k : List (Instr N υ)}
    (hcpu : s'.cpu = (s.setCtl c k).cpu) {c' : κ} {p : Fin N} {prev : ℤ}
    (ha : (s'.cpu c').Away p prev) : (s.cpu c').Away p prev := by
  rw [hcpu, State.setCtl] at ha
  by_cases hc : c' = c
  · subst hc
    rw [State.setCpu_self] at ha
    refine ha.imp_right fun hgone => ?_
    obtain ⟨hnone, hproc, -⟩ := hgone
    have hp : (s.cpu c').who = some p := hwho.trans hproc
    rw [hnone] at hp
    cases hp
  · rwa [State.setCpu_of_ne s hc] at ha

/-- A step that changes the control of one CPU and the table. -/
theorem of_ctl (hs : Safe C s) (ha : Accounted h s) {i : Instr N υ} {k : List (Instr N υ)}
    {e : Event N} (hwho : (s.cpu c).who = (s.cpu c).proc) (hcpu : s'.cpu = (s.setCtl c k).cpu)
    (hslot : ∀ j, AccountStep (s.cpu c).proc (s.held c) i e j (s.mem.proc j) (s'.mem.proc j))
    (hfree : ∀ j, e.Resets j → ∀ c', (s.cpu c').proc ≠ some j)
    (hleave : ∀ p, (s.cpu c).who = some p → .trapRet ∈ (s.cpu c).ctl → Leaves (s.cpu c).ctl →
      .trapRet ∈ k ∧ Leaves k)
    (htick : ∀ p, (s.cpu c).who = some p → i = .charge →
      ¬Leaves (s.cpu c).ctl ∧ .trapRet ∈ k ∧ Leaves k)
    (hctl : TickOk (s.cpu c).ctl → TickOk k) (hsaved : ∀ p, TickOk (s'.mem.proc p).context) :
    Accounted ((c, e) :: h) s' := by
  have hself : s'.cpu c = { s.cpu c with ctl := k } := by
    rw [hcpu, State.setCtl, State.setCpu_self]
  have hother : ∀ c', c' ≠ c → s'.cpu c' = s.cpu c' := by
    intro c' hc
    rw [hcpu, State.setCtl, State.setCpu_of_ne s hc]
  have hproc : ∀ c', (s'.cpu c').proc = (s.cpu c').proc := by
    intro c'
    by_cases hc : c' = c
    · rw [hc, hself]
    · rw [hother c' hc]
  refine ⟨fun p => (hslot p).slotOk (ha.slot p), fun p hp => ?_, fun c' p prev haway => ?_,
    fun c' p hp => ?_, hsaved⟩
  · have hoff : ∀ c', (s.cpu c').proc ≠ some p := fun c' => hproc c' ▸ hp c'
    cases hslot p with
    | same hsame hr ht => rw [charged_of_not hr ht, hsame.qTicks, ha.settled p hoff]
    | reset _ _ hr hq _ => rw [charged_reset hr, hq]
    | tick hmy _ _ _ _ _ => exact absurd hmy (hoff c)
  · have haway' := away_setCtl hwho hcpu haway
    obtain ⟨u, howed, hsum, hu⟩ := ha.away c' p prev haway'
    have hu' : u = 1 → (s'.cpu c').who = some p → .trapRet ∈ (s'.cpu c').ctl ∧
        Leaves (s'.cpu c').ctl := by
      intro hu1 hp
      by_cases hc : c' = c
      · subst hc
        rw [hself] at hp ⊢
        obtain ⟨htrap, hl⟩ := hu hu1 hp
        exact hleave p hp htrap hl
      · rw [hother c' hc] at hp ⊢
        exact hu hu1 hp
    cases hslot p with
    | same hsame hr ht =>
      refine ⟨u, hsame.totalTicks ▸ howed, ?_, hu'⟩
      rw [charged_of_not hr ht, hsame.qTicks, hsum]
    | reset _ _ hr _ _ => exact absurd (haway'.proc (hs.cpu c')) (hfree p hr c')
    | tick hmy hi he hlevel hq ht =>
      -- the process that is charged runs on this CPU, and it has not been charged before
      obtain rfl : c' = c := hs.unique c' c p (haway'.proc (hs.cpu c')) hmy
      have hp : (s.cpu c').who = some p := hwho.trans hmy
      obtain ⟨hnot, htrap, hl⟩ := htick p hp hi
      rcases howed with ⟨rfl, htotal⟩ | ⟨hu1, -⟩
      · refine ⟨1, .inr ⟨rfl, htotal ▸ ht⟩, ?_, fun _ _ => ?_⟩
        · rw [he, charged_tick, hq]
          omega
        · rw [hself]
          exact ⟨htrap, hl⟩
      · exact absurd (hu hu1 hp).2 hnot
  · by_cases hc : c' = c
    · subst hc
      rw [hself] at hp ⊢
      exact hctl (ha.tickCtl c' p hp)
    · rw [hother c' hc] at hp ⊢
      exact ha.tickCtl c' p hp

/-- A step that shows nothing and leaves the table alone. -/
theorem of_tau (hs : Safe C s) (ha : Accounted h s) {k : List (Instr N υ)}
    (hwho : (s.cpu c).who = (s.cpu c).proc) (hcpu : s'.cpu = (s.setCtl c k).cpu)
    (hmem : s'.mem = s.mem)
    (hleave : ∀ p, (s.cpu c).who = some p → .trapRet ∈ (s.cpu c).ctl → Leaves (s.cpu c).ctl →
      .trapRet ∈ k ∧ Leaves k)
    (hctl : TickOk (s.cpu c).ctl → TickOk k) : Accounted ((c, .tau) :: h) s' := by
  refine ha.of_ctl (i := .trapRet) hs hwho hcpu (fun j => ?_) (fun j hr => hr.elim) hleave ?_ hctl ?_
  · rw [hmem]
    exact .tau (.refl _)
  · intro p _ hi
    cases hi
  · rw [hmem]
    exact ha.tickSaved

theorem exec [NeZero N] (hs : Safe C s) (ha : Accounted h s) {i : Instr N υ}
    {k k' : List (Instr N υ)} {ok : Bool} {cpu0 : Bool} {m' : Mem N υ} {e : Event N}
    (hctl : (s.cpu c).ctl = i :: k)
    (he : exec C cpu0 (s.cpu c).proc ok s.mem i = some (m', k', e))
    (hcpu : s'.cpu = (s.setCtl c (k' ++ k)).cpu) (hmem : s'.mem = m') :
    Accounted ((c, e) :: h) s' := by
  subst hmem
  have hacc : ∀ q t, i ≠ .account q t := by
    rintro q t rfl
    cases he
  have hwho := (hs.cpu c).who_eq_proc hctl hacc
  have hslot := exec_accountStep ((hs.cpu c).disc hctl hacc) he
  refine ha.of_ctl hs hwho hcpu hslot (fun j hr c' => ?_) (fun p hp htrap hl => ?_)
    (fun p hp hi => ?_) (fun hk => ?_) fun p => ?_
  · cases hslot j with
    | same _ hnot _ => exact absurd hr hnot
    | reset hl hst _ _ _ =>
      refine hs.proc_ne_of_held hctl hacc ?_ ?_ hl hst <;> rintro rfl <;> cases he
    | tick _ _ he _ _ _ =>
      subst he
      exact hr.elim
  · have hproc : (s.cpu c).proc = some p := hwho.symm.trans hp
    rw [hctl] at htrap hl
    rw [hproc] at he
    refine ⟨?_, leaves_exec hl he⟩
    rcases List.mem_cons.1 htrap with hi | hmem
    · subst hi
      exact hl.elim
    · exact List.mem_append_right _ hmem
  · subst hi
    have hk := ha.tickCtl c p hp
    rw [hctl] at hk
    obtain ⟨⟨user, k₁, rfl⟩, -⟩ := hk
    obtain rfl := exec_charge he
    refine ⟨?_, ?_, ?_⟩
    · rw [hctl]
      exact id
    · cases user <;> simp [trapCode]
    · cases user <;> trivial
  · rw [hctl] at hk
    exact tickOk_exec hk he
  · rcases exec_context he p with hctx | ⟨hctx, -⟩
    · rw [hctx]
      exact ha.tickSaved p
    · rw [hctx]
      trivial

theorem dispatch (hs : Safe C s) (ha : Accounted h s) {level : ℕ} {p : Fin N}
    {k : List (Instr N υ)} (hctl : (s.cpu c).ctl = .scanTest level p :: k)
    (hel : (s.mem.proc p).eligible level)
    (hcpu : s'.cpu = (s.setCpu c ⟨some p, (s.mem.proc p).context, some p,
      .account p (s.mem.proc p).totalTicks :: .release (.proc p) :: .aging 0 :: k⟩).cpu)
    (hmem : s'.mem = s.mem.set p (s.mem.proc p).run) :
    Accounted ((c, .dispatch p) :: h) s' := by
  obtain ⟨hnone, hL⟩ := (hs.cpu c).disc hctl (by simp)
  have hst : (s.mem.proc p).state = .runnable := (of_decide_eq_true hel).1
  have hfree : ∀ c', (s.cpu c').proc ≠ some p := fun c' =>
    hs.proc_ne_of_held hctl (by simp) (by simp) (by simp) (by simp [hL]) (by simp [hst])
  have hself : s'.cpu c = ⟨some p, (s.mem.proc p).context, some p,
      .account p (s.mem.proc p).totalTicks :: .release (.proc p) :: .aging 0 :: k⟩ := by
    rw [hcpu, State.setCpu_self]
  have hother : ∀ c', c' ≠ c → s'.cpu c' = s.cpu c' := by
    intro c' hc
    rw [hcpu, State.setCpu_of_ne s hc]
  have hsame : ∀ q, SameAccount (s.mem.proc q) (s'.mem.proc q) ∧
      (s'.mem.proc q).context = (s.mem.proc q).context := by
    intro q
    rw [hmem, Mem.set_proc]
    split_ifs with hq
    · subst hq
      exact ⟨⟨rfl, rfl, rfl⟩, rfl⟩
    · exact ⟨.refl _, rfl⟩
  have hcharged : ∀ q, charged ((c, .dispatch p) :: h) q = charged h q :=
    fun q => charged_of_not id (by simp)
  refine ⟨fun q => (ha.slot q).of_same (hsame q).1.queueLevel (hsame q).1.qTicks, fun q hq => ?_,
    fun c' q prev haway => ?_, fun c' q hq => ?_, fun q => (hsame q).2 ▸ ha.tickSaved q⟩
  · rw [(hsame q).1.qTicks, hcharged]
    refine ha.settled q fun c' hc' => ?_
    by_cases hc : c' = c
    · rw [hc, hnone] at hc'
      cases hc'
    · exact hq c' (by rwa [hother c' hc])
  · rw [(hsame q).1.totalTicks, (hsame q).1.qTicks, hcharged]
    by_cases hc : c' = c
    · subst hc
      rw [hself] at haway
      obtain ⟨hq, k', hk'⟩ | ⟨hq, -⟩ := haway
      · cases hq
        cases hk'
        refine ⟨0, .inl ⟨rfl, rfl⟩, ?_, fun h01 => by omega⟩
        rw [ha.settled p hfree]
        omega
      · cases hq
    · rw [hother c' hc] at haway ⊢
      exact ha.away c' q prev haway
  · by_cases hc : c' = c
    · subst hc
      rw [hself]
      exact ha.tickSaved p
    · rw [hother c' hc] at hq ⊢
      exact ha.tickCtl c' q hq

omit [DecidableEq κ] in
/-- The control of a scheduler that has its accounting to do. -/
theorem away_of_ctl (hs : Safe C s) {p : Fin N} {prev : ℤ} {k : List (Instr N υ)}
    (hctl : (s.cpu c).ctl = .account p prev :: k) :
    (s.cpu c).Away p prev ∧ (s.cpu c).who = none := by
  have hwho := hs.who_of_account hctl
  exact ⟨.inr ⟨hwho, (hs.cpu c).proc_of_account hctl, k, hctl⟩, hwho⟩

omit [DecidableEq κ] in
/-- What the accounting does with the ticks of a process that comes back. -/
theorem account_spec (hs : Safe C s) (ha : Accounted h s) {p : Fin N} {prev : ℤ}
    {k : List (Instr N υ)} (hctl : (s.cpu c).ctl = .account p prev :: k) {q : Proc N υ} {b : Bool}
    (hq : (s.mem.proc p).account prev = some (q, b)) :
    SlotOk q ∧ q.context = (s.mem.proc p).context ∧
      (b = true → q.qTicks = 0 ∧ mlfqQuantum (s.mem.proc p).queueLevel = some (charged h p)) ∧
      (b = false → q.qTicks = charged h p ∧ q.queueLevel = (s.mem.proc p).queueLevel) := by
  obtain ⟨u, howed, hsum, -⟩ := ha.away c p prev (away_of_ctl hs hctl).1
  obtain ⟨hticks, quantum, hquantum, hlt⟩ := ha.slot p
  have hbounds := mlfqQuantum_bounds hquantum
  have hused : (s.mem.proc p).used prev = u := by
    have hdiff : int32 ((s.mem.proc p).totalTicks - prev) = u := by
      rcases howed with ⟨rfl, htotal⟩ | ⟨rfl, htotal⟩
      · rw [htotal, Int.sub_self]
        rfl
      · rw [htotal, int32_int32_add_sub]
        rfl
    rw [Proc.used, hdiff, if_neg (by rcases howed with ⟨rfl, -⟩ | ⟨rfl, -⟩ <;> omega)]
  have hu : u = 0 ∨ u = 1 := howed.imp And.left And.left
  have hint : int32 ((s.mem.proc p).qTicks + u) = charged h p := by
    rw [← hsum]
    exact int32_of_mem (by omega) (by omega)
  have hlevel := (ha.slot p).level
  rw [Proc.account, hquantum, hused, hint, Option.map_some] at hq
  by_cases hge : charged h p ≥ quantum
  · rw [if_pos hge] at hq
    cases hq
    refine ⟨.of_reset rfl ?_, rfl, fun _ => ⟨rfl, ?_⟩, nofun⟩
    · have h3 : mlfqLevels = 3 := rfl
      dsimp only
      split_ifs <;> omega
    · rw [hquantum]
      congr 1
      omega
  · rw [if_neg hge] at hq
    cases hq
    refine ⟨⟨?_, quantum, hquantum, ?_⟩, rfl, nofun, fun _ => ⟨rfl, rfl⟩⟩
    · dsimp only
      omega
    · dsimp only
      omega

theorem account (hs : Safe C s) (ha : Accounted h s) {p : Fin N} {prev : ℤ}
    {k : List (Instr N υ)} (hctl : (s.cpu c).ctl = .account p prev :: k) {q : Proc N υ} {b : Bool}
    (hq : (s.mem.proc p).account prev = some (q, b))
    (hcpu : s'.cpu = (s.setCpu c ⟨(s.cpu c).who, k, none, (s.cpu c).context⟩).cpu)
    (hmem : s'.mem = s.mem.set p q) :
    Accounted ((c, if b then .expire p (s.mem.proc p).queueLevel else .unexpired p) :: h) s' := by
  obtain ⟨haway, hnone⟩ := away_of_ctl hs hctl
  obtain ⟨hslot, hctx, hexp, hunexp⟩ := ha.account_spec hs hctl hq
  have hproc := haway.proc (hs.cpu c)
  have hself : s'.cpu c = ⟨(s.cpu c).who, k, none, (s.cpu c).context⟩ := by
    rw [hcpu, State.setCpu_self]
  have hother : ∀ c', c' ≠ c → s'.cpu c' = s.cpu c' := by
    intro c' hc
    rw [hcpu, State.setCpu_of_ne s hc]
  have hp : s'.mem.proc p = q := by rw [hmem, Mem.set_proc, if_pos rfl]
  have hne : ∀ j, j ≠ p → s'.mem.proc j = s.mem.proc j := by
    intro j hj
    rw [hmem, Mem.set_proc, if_neg hj]
  have hcharged : ∀ j, j ≠ p →
      charged ((c, if b then .expire p (s.mem.proc p).queueLevel else .unexpired p) :: h) j =
        charged h j := by
    intro j hj
    cases b
    · exact charged_of_not id (by simp)
    · exact charged_of_not (by simpa [Event.Resets] using hj.symm) (by simp)
  -- no CPU is away for `p` any more
  have hoff : ∀ c' j prev', (s'.cpu c').Away j prev' → c' ≠ c ∧ j ≠ p ∧ (s.cpu c').Away j prev' := by
    intro c' j prev' haway'
    have hc : c' ≠ c := by
      rintro rfl
      rw [hself, hnone] at haway'
      rcases haway' with ⟨hwho, -⟩ | ⟨-, hproc', -⟩
      · cases hwho
      · cases hproc'
    rw [hother c' hc] at haway'
    refine ⟨hc, ?_, haway'⟩
    rintro rfl
    exact hc (hs.unique c' c j (haway'.proc (hs.cpu c')) hproc)
  refine ⟨fun j => ?_, fun j hj => ?_, fun c' j prev' haway' => ?_, fun c' j hj => ?_, fun j => ?_⟩
  · by_cases hjp : j = p
    · rw [hjp, hp]
      exact hslot
    · rw [hne j hjp]
      exact ha.slot j
  · by_cases hjp : j = p
    · subst hjp
      rw [hp]
      cases b
      · rw [if_neg (by simp), charged_of_not id (by simp)]
        exact (hunexp rfl).1
      · rw [if_pos rfl, charged_reset (by simp [Event.Resets])]
        exact (hexp rfl).1
    · rw [hne j hjp, hcharged j hjp]
      refine ha.settled j fun c' hc' => ?_
      by_cases hc : c' = c
      · rw [hc, hproc] at hc'
        exact hjp (Option.some_inj.1 hc').symm
      · exact hj c' (by rwa [hother c' hc])
  · obtain ⟨hc, hjp, haway''⟩ := hoff c' j prev' haway'
    rw [hne j hjp, hcharged j hjp, hother c' hc]
    exact ha.away c' j prev' haway''
  · have hc : c' ≠ c := by
      rintro rfl
      rw [hself, hnone] at hj
      cases hj
    rw [hother c' hc] at hj ⊢
    exact ha.tickCtl c' j hj
  · by_cases hjp : j = p
    · rw [hjp, hp, hctx]
      exact ha.tickSaved p
    · rw [hne j hjp]
      exact ha.tickSaved j

theorem sched (hs : Safe C s) (ha : Accounted h s) {p : Fin N} {k : List (Instr N υ)}
    (hctl : (s.cpu c).ctl = .sched p :: k)
    (hcpu : s'.cpu = (s.setCpu c ⟨none, (s.cpu c).context, (s.cpu c).proc, (s.cpu c).context⟩).cpu)
    (hmem : s'.mem = s.mem.set p { s.mem.proc p with context := k }) :
    Accounted ((c, .tau) :: h) s' := by
  obtain ⟨hproc, -, -⟩ := (hs.cpu c).disc hctl (by simp)
  have hwho : (s.cpu c).who = some p := ((hs.cpu c).who_eq_proc hctl (by simp)).trans hproc
  have hself : s'.cpu c = ⟨none, (s.cpu c).context, (s.cpu c).proc, (s.cpu c).context⟩ := by
    rw [hcpu, State.setCpu_self]
  have hother : ∀ c', c' ≠ c → s'.cpu c' = s.cpu c' := by
    intro c' hc
    rw [hcpu, State.setCpu_of_ne s hc]
  have hsame : ∀ q, SameAccount (s.mem.proc q) (s'.mem.proc q) := by
    intro q
    rw [hmem, Mem.set_proc]
    split_ifs with hq
    · exact hq ▸ ⟨rfl, rfl, rfl⟩
    · exact .refl _
  refine ⟨fun q => (ha.slot q).of_same (hsame q).queueLevel (hsame q).qTicks, fun q hq => ?_,
    fun c' q prev haway => ?_, fun c' q hq => ?_, fun q => ?_⟩
  · rw [(hsame q).qTicks, charged_tau]
    refine ha.settled q fun c' hc' => hq c' ?_
    by_cases hc : c' = c
    · subst hc
      rwa [hself]
    · rwa [hother c' hc]
  · rw [(hsame q).totalTicks, (hsame q).qTicks, charged_tau]
    by_cases hc : c' = c
    · subst hc
      rw [hself] at haway ⊢
      have haway' : (s.cpu c').Away q prev := by
        rcases haway with ⟨hq, -⟩ | ⟨-, hq, hk⟩
        · cases hq
        · exact .inl ⟨hwho.trans (hproc.symm.trans hq), hk⟩
      obtain ⟨u, howed, hsum, -⟩ := ha.away c' q prev haway'
      exact ⟨u, howed, hsum, fun _ hq => by cases hq⟩
    · rw [hother c' hc] at haway ⊢
      exact ha.away c' q prev haway
  · have hc : c' ≠ c := by
      rintro rfl
      rw [hself] at hq
      cases hq
    rw [hother c' hc] at hq ⊢
    exact ha.tickCtl c' q hq
  · rw [hmem, Mem.set_proc]
    split_ifs with hq
    · have hk := ha.tickCtl c p hwho
      rw [hctl] at hk
      exact hk.tail
    · exact ha.tickSaved q

theorem step [NeZero N] {boot : κ} {e : Event N} (hC : C.Disciplined) (hs : Safe C s)
    (ha : Accounted h s) (t : Step boot C s (c, e) s') : Accounted ((c, e) :: h) s' := by
  cases t with
  | @acquire _ l k hctl hfree =>
    refine ha.of_tau hs ((hs.cpu c).who_eq_proc hctl (by simp)) (k := k) rfl rfl ?_ ?_ <;>
      rw [hctl]
    · exact fun _ _ htrap hl => ⟨by simpa using htrap, hl⟩
    · exact TickOk.tail
  | @release _ l k hctl hheld =>
    refine ha.of_tau hs ((hs.cpu c).who_eq_proc hctl (by simp)) (k := k) rfl rfl ?_ ?_ <;>
      rw [hctl]
    · exact fun _ _ htrap hl => ⟨by simpa using htrap, hl⟩
    · exact TickOk.tail
  | exec hctl he => exact ha.exec hs hctl he rfl rfl
  | @user _ p u k d k' hctl hproc hsem =>
    have hcall := hC.calls p u _ d k' hsem
    have hcode : ∀ i ∈ k', ¬i.IsTrap := by
      intro i hi htrap
      have hi' := hcall i hi
      cases i <;> first | exact hi' | exact htrap
    refine ha.of_tau hs ((hs.cpu c).who_eq_proc hctl (by simp)) (k := k' ++ k) rfl rfl ?_ ?_ <;>
      rw [hctl]
    · refine fun _ _ htrap _ => ⟨?_, (leaves_of_disc (hC.user p u _ d k' hsem) hcall).append k⟩
      exact List.mem_append_right _ (by simpa using htrap)
    · exact fun hk => tickOk_append hcode hk.tail
  | dispatch hctl hel => exact ha.dispatch hs hctl hel rfl rfl
  | account hctl hq => exact ha.account hs hctl hq rfl rfl
  | sched hctl _ _ => exact ha.sched hs hctl rfl rfl
  | clock hheld htrap =>
    refine ha.of_tau hs ((hs.cpu c).who_eq_proc_of_free hheld) rfl rfl ?_ ?_
    · exact fun _ _ hmem => absurd hmem htrap
    · exact fun hk => ⟨⟨_, _, rfl⟩, tickOk_trapCode _ _ hk⟩
  | device a chan hheld htrap =>
    refine ha.of_tau hs ((hs.cpu c).who_eq_proc_of_free hheld) rfl rfl ?_ ?_
    · exact fun _ _ hmem => absurd hmem htrap
    · exact fun hk => tickOk_trapCode _ _ hk

end Accounted

theorem Boot.accounted [NeZero N] {s : State κ N υ δ} (hb : Boot C s) : Accounted [] s := by
  have hslot : ∀ p, (s.mem.proc p).qTicks = 0 ∧ (s.mem.proc p).queueLevel = 0 ∧
      (s.mem.proc p).context = forkretCode C p := by
    intro p
    by_cases hp : p = 0
    · subst hp
      rw [hb.initproc]
      exact ⟨rfl, rfl, rfl⟩
    · rw [hb.unused p hp]
      exact ⟨rfl, rfl, rfl⟩
  refine ⟨fun p => ?_, fun p _ => (hslot p).1, fun c p prev haway => ?_, fun c p hp => ?_,
    fun p => ?_⟩
  · obtain ⟨hq, hlevel, -⟩ := hslot p
    exact .of_reset hq (by rw [hlevel]; decide)
  · obtain ⟨hwho, -, hproc⟩ := hb.cpu c
    rcases haway with ⟨hp, -⟩ | ⟨-, hp, -⟩
    · rw [hwho] at hp
      cases hp
    · rw [hproc] at hp
      cases hp
  · rw [(hb.cpu c).1] at hp
    cases hp
  · rw [(hslot p).2.2]
    trivial

section Run

variable [DecidableEq κ] [NeZero N] {boot : κ} {start : δ → Prop}

theorem exec_not_account {my : Option (Fin N)} {cpu0 ok : Bool} {m m' : Mem N υ} {i : Instr N υ}
    {k' : List (Instr N υ)} {e : Event N} {p : Fin N}
    (he : exec C cpu0 my ok m i = some (m', k', e)) :
    ¬((∃ level, e = .expire p level) ∨ e = .unexpired p) := by
  rintro (⟨level, rfl⟩ | rfl) <;> cases i <;> simp only [exec, reduceCtorEq] at he
  all_goals cases my <;> grind

/-- Only the accounting shows whether a quantum expired. -/
theorem Step.account_of_event {s s' : State κ N υ δ} {c : κ} {e : Event N} {p : Fin N}
    (t : Step boot C s (c, e) s') (he : (∃ level, e = .expire p level) ∨ e = .unexpired p) :
    ∃ prev k q b, (s.cpu c).ctl = .account p prev :: k ∧
      (s.mem.proc p).account prev = some (q, b) ∧
      e = if b then .expire p (s.mem.proc p).queueLevel else .unexpired p := by
  cases t with
  | account hctl hq =>
    rename_i b _
    cases b
    · rcases he with ⟨level, he⟩ | he <;> cases he
      exact ⟨_, _, _, _, hctl, hq, rfl⟩
    · rcases he with ⟨level, he⟩ | he <;> cases he
      exact ⟨_, _, _, _, hctl, hq, rfl⟩
  | exec hctl hexec => exact absurd he (exec_not_account hexec)
  | acquire | release | user | dispatch | sched | clock | device =>
    rcases he with ⟨level, he⟩ | he <;> cases he

/-- The accounting invariant holds after every run. -/
theorem accounted_of_run (hC : C.Disciplined) {h : List (κ × Event N)} {s : State κ N υ δ}
    (r : (kernel boot C start).Run h s) : Accounted h s := by
  refine LTS.Run.invariant (fun s hs => ?_) (fun h s e s' r ha t => ?_) r
  · exact hs.1.accounted
  · exact ha.step hC (safe_of_reachable hC ⟨h, r⟩) t

/-- **The accounting of the MLFQ scheduler.** After every run, a slot that is not RUNNING and whose
lock is free has a level that exists, and `q_ticks` is the number of ticks charged to it since the
last reset of its quantum, and less than the quantum of the level. Whenever a scheduler reads
`mlfq_quantum` the index is in range; a quantum that expires was used by exactly as many ticks as
it has, and one that does not expire by less. -/
theorem mlfq_accounting (hC : C.Disciplined) {h : List (κ × Event N)} {s : State κ N υ δ}
    (r : (kernel boot C start).Run h s) :
    (∀ p, s.holder (.proc p) = none → (s.mem.proc p).state ≠ .running →
      0 ≤ (s.mem.proc p).queueLevel ∧ (s.mem.proc p).queueLevel < mlfqLevels ∧
      (s.mem.proc p).qTicks = charged h p ∧
      ∃ q, mlfqQuantum (s.mem.proc p).queueLevel = some q ∧ (s.mem.proc p).qTicks < q) ∧
    (∀ c p prev k, (s.cpu c).ctl = .account p prev :: k →
      ((s.mem.proc p).account prev).isSome) ∧
    (∀ c p level s', Step boot C s (c, .expire p level) s' →
      mlfqQuantum level = some (charged h p)) ∧
    (∀ c p s', Step boot C s (c, .unexpired p) s' →
      ∃ q, mlfqQuantum (s.mem.proc p).queueLevel = some q ∧ charged h p < q) := by
  have hs := safe_of_reachable hC ⟨h, r⟩
  have ha := accounted_of_run hC r
  refine ⟨fun p hfree hst => ?_, fun c p prev k hctl => ?_, fun c p level s' t => ?_,
    fun c p s' t => ?_⟩
  · have hslot := ha.slot p
    have hoff : ∀ c, (s.cpu c).proc ≠ some p := by
      intro c hc
      have hl := hs.held_of_proc hst hc
      rw [mem_held, hfree] at hl
      cases hl
    exact ⟨hslot.level.1, hslot.level.2, ha.settled p hoff, hslot.quantum⟩
  · obtain ⟨q, hq, -⟩ := (ha.slot p).quantum
    rw [Proc.account, hq]
    rfl
  · obtain ⟨prev, k, q, b, hctl, hq, he⟩ := t.account_of_event (p := p) (.inl ⟨level, rfl⟩)
    obtain ⟨-, -, hexp, -⟩ := ha.account_spec hs hctl hq
    cases b <;> cases he
    exact (hexp rfl).2
  · obtain ⟨prev, k, q, b, hctl, hq, he⟩ := t.account_of_event (p := p) (.inr rfl)
    obtain ⟨hslot, -, -, hunexp⟩ := ha.account_spec hs hctl hq
    cases b <;> cases he
    obtain ⟨hticks, hlevel⟩ := hunexp rfl
    rw [← hlevel, ← hticks]
    exact hslot.quantum

end Run

/-- The first process has used up its quantum at level 0 on a CPU, and one tick of that at level 1 on
another. -/
theorem mlfq_accounting_second_level :
    ∃ h s, (kernel (0 : Fin 8) (sysproc (N := NPROC)) fun _ => True).Run h s ∧
      ((s.mem.proc 0).queueLevel = 1 ∧ charged h 0 = 1) ∧
      (s.mem.proc 0).qTicks = charged h 0 ∧
        ∃ q, mlfqQuantum (s.mem.proc 0).queueLevel = some q ∧ (s.mem.proc 0).qTicks < q := by
  obtain ⟨h, s, r, hfree, hst, hlevel⟩ : ∃ h s,
      (kernel (0 : Fin 8) (sysproc (N := NPROC)) fun _ => True).Run h s ∧
        s.holder (.proc 0) = none ∧ (s.mem.proc 0).state ≠ .running ∧
          (s.mem.proc 0).queueLevel = 1 ∧ charged h 0 = 1 := by
    refine exists_run_of_play (X := sysprocChoices) (d := ())
      (v := List.replicate 4 (.go 1 true 0) ++ .clock 1 :: List.replicate 20 (.go 1 true 0) ++
        List.replicate 262 (.go 2 true 0) ++ .clock 2 :: List.replicate 12 (.go 2 true 0))
      sysproc_disciplined trivial ?_
    set_option maxRecDepth 10000 in rfl
  exact ⟨h, s, r, hlevel, ((mlfq_accounting sysproc_disciplined r).1 0 hfree hst).2.2⟩

end Xv6.Kernel
