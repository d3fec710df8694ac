import Xv6.Kernel.Family

/-!
# The results of `kwait`

Two readings of a run's history. `fate h j` is how the process in slot `j` has exited, if no
`kwait` has returned it since; `waiting h p` tells whether the process `p` has called `kwait` and
not got a result yet. A zombie keeps the pid and the status it has exited with (`FateOk`), and the
control of a process says whether it is in `kwait` (`WaitOk`).
-/

namespace Xv6.Kernel

variable {κ : Type} {N : ℕ} {υ δ : Type} {C : Client N υ δ}

/-! ## Exits and their results -/

/-- The pid and the status with which the process in slot `j` has exited, if `kwait` has not
returned it since. -/
def fate : List (κ × Event N) → Fin N → Option (ℤ × ℤ)
  | [], _ => none
  | (_, .exit q pid status) :: h, j => if q = j then some (pid, status) else fate h j
  | (_, .reap _ q _ _) :: h, j => if q = j then none else fate h j
  | _ :: h, j => fate h j

theorem fate_of_not_touches {c : κ} {e : Event N} {h : List (κ × Event N)} {j : Fin N}
    (he : ¬e.Touches j) : fate ((c, e) :: h) j = fate h j := by
  cases e <;> first | rfl | exact if_neg he

/-- A zombie has exited and not been returned, and nobody else has. -/
structure FateOk (h : List (κ × Event N)) (s : State κ N υ δ) : Prop where
  zombie : ∀ j, (s.mem.proc j).state = .zombie →
    fate h j = some ((s.mem.proc j).pid, (s.mem.proc j).xstate)
  other : ∀ j, (s.mem.proc j).state ≠ .zombie → fate h j = none

section Step

variable [DecidableEq κ] [NeZero N] {boot : κ} {h : List (κ × Event N)} {s s' : State κ N υ δ}
  {c : κ} {e : Event N}

/-- What `FateOk` says of a slot. -/
def Slot.Fated (a : Slot N) (f : Option (ℤ × ℤ)) : Prop :=
  (a.state = .zombie → f = some (a.pid, a.xstate)) ∧ (a.state ≠ .zombie → f = none)

omit [DecidableEq κ] in
theorem StepSlot.fated (hs : Safe C s) (ha : AllocOk s) {j : Fin N} {b : Slot N}
    (hb : StepSlot C s c e j b) (hj : (s.mem.proc j).slot.Fated (fate h j)) :
    b.Fated (fate ((c, e) :: h) j) := by
  have hnot : ∀ {x : ProcState}, (s.mem.proc j).state = x → x ≠ .zombie → fate h j = none :=
    fun hx hne => hj.2 (by rw [← hx] at hne; exact hne)
  cases hb with
  | same he => rwa [fate_of_not_touches he]
  | run hst _ he =>
    rw [fate_of_not_touches he]
    exact ⟨by simp, fun _ => hnot hst (by simp)⟩
  | @exec i k b hctl hd hwho hb =>
    have hrun : (s.cpu c).proc = some j → i ≠ .sched j → i ≠ .release .waitLock →
        fate h j = none := by
      intro hproc hne hne'
      have hrun := hs.running c j (hwho.trans hproc)
      rw [hctl] at hrun
      exact hnot (hrun.running_of_head hne hne') (by simp)
    cases hb with
    | same he => rwa [fate_of_not_touches he]
    | yield hi he | sleep hi he =>
      subst hi he
      exact ⟨by simp, fun _ => hrun hd.1 (by simp) (by simp)⟩
    | clearChan hi he | orphan hi _ he | adopt hi he =>
      subst he
      exact hj
    | wake _ hst _ he =>
      subst he
      exact ⟨by simp, fun _ => hnot hst (by simp)⟩
    | start hi he =>
      subst hi he
      obtain ⟨q, hq⟩ := hs.who_of_pending (p := j) hctl (by simp) (by simp [Instr.pending])
      have hused := hs.forks.used q _ j (.inl ⟨c, hq, hctl.symm⟩) (by simp [Instr.pending])
      exact ⟨by simp, fun _ => hnot hused (by simp)⟩
    | setkilled hi he =>
      subst he
      exact hj
    | kill _ _ he =>
      subst he
      by_cases hst : (s.mem.proc j).state = .sleeping
      · refine ⟨fun hz => ?_, fun _ => hnot hst (by simp)⟩
        simp [Proc.slot, hst] at hz
      · have hsame : (if (s.mem.proc j).state = .sleeping then ProcState.runnable
            else (s.mem.proc j).state) = (s.mem.proc j).state := if_neg hst
        exact ⟨fun hz => hj.1 (hsame.symm.trans hz), fun hz => hj.2 fun hz' => hz (hsame.trans hz')⟩
    | exit hi he =>
      subst he
      exact ⟨fun _ => if_pos rfl, fun hz => absurd rfl hz⟩
    | reap _ _ he =>
      subst he
      exact ⟨by rintro ⟨⟩, fun _ => if_pos rfl⟩
    | allocpid hi he =>
      subst hi he
      have hst := ha.unused_of_allocpid hs hctl
      refine ⟨fun hz => ?_, fun _ => hnot hst (by simp)⟩
      have hz' : (s.mem.proc j).state = .zombie := hz
      rw [hst] at hz'
      cases hz'
    | alloc _ hst he =>
      subst he
      exact ⟨by simp, fun _ => hnot hst (by simp)⟩
    | abort hi he =>
      subst he
      refine ⟨by rintro ⟨⟩, fun _ => ?_⟩
      rcases hi with ⟨-, hst⟩ | rfl
      · exact hnot hst (by simp)
      · obtain ⟨q, hq⟩ := hs.who_of_pending (p := j) hctl (by simp) (by simp [Instr.pending])
        have hused := hs.forks.used q _ j (.inl ⟨c, hq, hctl.symm⟩) (by simp [Instr.pending])
        exact hnot hused (by simp)

omit [DecidableEq κ] [NeZero N] in
theorem FateOk.fated (hf : FateOk h s) (j : Fin N) : (s.mem.proc j).slot.Fated (fate h j) :=
  ⟨hf.zombie j, hf.other j⟩

theorem fateOk_of_run {start : δ → Prop} (hC : C.Disciplined)
    (r : (kernel boot C start).Run h s) : FateOk h s := by
  refine LTS.Run.invariant (I := fun h s => FateOk h s) (fun s hs => ?_)
    (fun h s x s' r ih t => ?_) r
  · have hst : ∀ j, (s.mem.proc j).state ≠ .zombie := by
      intro j
      by_cases hj : j = 0
      · subst hj
        rw [hs.1.initproc]
        simp
      · rw [hs.1.unused j hj]
        simp [Proc.zero]
    exact ⟨fun j hj => absurd hj (hst j), fun _ _ => rfl⟩
  · obtain ⟨c, e⟩ := x
    have hs := safe_of_reachable hC ⟨h, r⟩
    have hj : ∀ j, (s'.mem.proc j).slot.Fated (fate ((c, e) :: h) j) := fun j =>
      (Step.slot hs t j).fated hs (allocOk_of_reachable hC ⟨h, r⟩) (ih.fated j)
    exact ⟨fun j => (hj j).1, fun j => (hj j).2⟩

end Step

/-! ## Calls of `kwait` and their results -/

/-- The event is a call of `kwait` by `p`, or its result. -/
def Event.Waits (p : Fin N) : Event N → Prop
  | .wait q | .waitFailed q | .reap q _ _ _ => q = p
  | _ => False

/-- `p` has called `kwait`, and has not got a result yet. -/
def waiting : List (κ × Event N) → Fin N → Bool
  | [], _ => false
  | (_, .wait q) :: h, p => if q = p then true else waiting h p
  | (_, .waitFailed q) :: h, p | (_, .reap q _ _ _) :: h, p => if q = p then false else waiting h p
  | _ :: h, p => waiting h p

theorem waiting_of_not_waits {c : κ} {e : Event N} {h : List (κ × Event N)} {p : Fin N}
    (he : ¬e.Waits p) : waiting ((c, e) :: h) p = waiting h p := by
  cases e <;> first | rfl | exact if_neg he

/-- `InWait b k`: the control `k` is inside of `kwait` if `b`, and outside of it if not. What comes
after a point that does not come back does not matter. -/
def InWait : Bool → List (Instr N υ) → Prop
  | b, [] => b = false
  | b, .user _ :: _ | b, .killed _ _ :: _ | b, .killedRead _ _ _ :: _ | b, .kexit _ :: _
  | b, .zombieExit :: _ => b = false
  | b, .kwaitScan _ _ _ :: k | b, .kwaitVisit _ _ :: k | b, .kwaitKilled _ :: k =>
    b = true ∧ InWait false k
  | b, .kwait :: k => b = false ∧ InWait false k
  | b, .usertrap _ :: k | b, .trapKilled _ _ :: k => b = false ∧ InWait false k
  | b, _ :: k => InWait b k

/-- An instruction that falls through and has nothing to do with `kwait`. -/
def Instr.Plain : Instr N υ → Prop
  | .user _ | .killed _ _ | .killedRead _ _ _ | .kexit _ | .zombieExit | .kwaitScan _ _ _
  | .kwaitVisit _ _ | .kwaitKilled _ | .kwait | .usertrap _ | .trapKilled _ _ => False
  | _ => True

/-- An instruction of `kwait`. -/
def Instr.OfKwait : Instr N υ → Prop
  | .kwaitScan _ _ _ | .kwaitVisit _ _ | .kwaitKilled _ | .kwait => True
  | _ => False

theorem inWait_append {b : Bool} {k' k : List (Instr N υ)} (h : ∀ i ∈ k', i.Plain) :
    InWait b (k' ++ k) ↔ InWait b k := by
  induction k' with
  | nil => exact Iff.rfl
  | cons i k' ih =>
    have hi := h i (List.mem_cons_self ..)
    have hrec := ih fun j hj => h j (List.mem_cons_of_mem _ hj)
    cases i <;> first | exact hi.elim | exact hrec

theorem inWait_cons {b : Bool} {i : Instr N υ} {k : List (Instr N υ)} (h : i.Plain) :
    InWait b (i :: k) ↔ InWait b k := by
  have hi : ∀ j ∈ [i], j.Plain := by simpa using h
  exact inWait_append hi

/-- The code of a client is outside of `kwait`. -/
theorem inWait_of_disc {p : Fin N} {L : Set (Lock N)} {k : List (Instr N υ)}
    (h : Disc C (some p) L k) (hcall : ∀ i ∈ k, i.IsCall) (k' : List (Instr N υ)) :
    InWait false (k ++ k') := by
  induction k generalizing L with
  | nil => exact h.elim
  | cons i k ih =>
    have hi := hcall i (List.mem_cons_self ..)
    have hrec : ∀ {L}, Disc C (some p) L k → InWait false (k ++ k') := fun hk =>
      ih hk fun j hj => hcall j (List.mem_cons_of_mem _ hj)
    cases i
    case acquire | release | setkilled => exact hrec (by first | exact h.2 | exact h.2.2)
    case sleep => exact hrec h.2.2.2
    case wakeup | kkill => exact hrec h.2
    case kfork => exact hrec h.2.2
    case kwait => exact ⟨rfl, hrec h.2.2⟩
    case killed | user | kexit => exact rfl
    all_goals exact hi.elim

section Exec

variable [NeZero N]

/-- The instructions that have nothing to do with `kwait` go on with such, and show neither a call
nor a result. -/
theorem exec_plain {my : Option (Fin N)} {cpu0 ok : Bool} {m m' : Mem N υ} {i : Instr N υ}
    {k' : List (Instr N υ)} {e : Event N} (hi : i.Plain)
    (he : exec C cpu0 my ok m i = some (m', k', e)) :
    (∀ j ∈ k', j.Plain) ∧ ∀ p, ¬e.Waits p := by
  cases i <;> simp only [exec, reduceCtorEq] at he
  case killed | killedRead | kexit | kwaitScan | kwaitVisit | kwaitKilled | kwait | usertrap
      | trapKilled => exact hi.elim
  case sleep =>
    obtain ⟨p, -, he⟩ := Option.map_eq_some_iff.1 he
    cases he
    simp [sleepCode, Instr.Plain, Event.Waits]
  case forkCopy => split_ifs at he <;> cases he <;> simp [forkCode, Instr.Plain, Event.Waits]
  case clockintr => cases he; cases cpu0 <;> simp [clockintrCode, Instr.Plain, Event.Waits]
  all_goals cases my <;> grind [yieldCode, wakeupCode, Instr.Plain, Event.Waits]

/-- An instruction of the process `p` leaves its control as far in `kwait` as what it shows says. -/
theorem exec_inWait {p : Fin N} {L : Set (Lock N)} {cpu0 ok : Bool} {m m' : Mem N υ}
    {i : Instr N υ} {k k' : List (Instr N υ)} {c : κ} {e : Event N} {h : List (κ × Event N)}
    (hd : Disc C (some p) L (i :: k)) (hw : InWait (waiting h p) (i :: k))
    (he : exec C cpu0 (some p) ok m i = some (m', k', e)) :
    InWait (waiting ((c, e) :: h) p) (k' ++ k) := by
  by_cases hi : i.Plain
  · obtain ⟨hk', hshow⟩ := exec_plain hi he
    rw [waiting_of_not_waits (hshow p), inWait_append hk']
    exact (inWait_cons hi).1 hw
  · have hfailed : waiting ((c, .waitFailed p) :: h) p = false := if_pos rfl
    cases i <;> simp only [exec, reduceCtorEq] at he
    case killed | killedRead =>
      cases he
      exact hw
    case kexit =>
      simp only [Option.bind_some] at he
      split_ifs at he
      cases he
      exact hw
    case kwait =>
      cases he
      have hcall : waiting ((c, .wait p) :: h) p = true := if_pos rfl
      rw [hcall]
      exact ⟨rfl, hw.2⟩
    case kwaitScan q n havekids =>
      obtain rfl := Option.some_inj.1 hd.1
      split_ifs at he <;> cases he
      · exact hw
      · exact hw
      · exact hw
      · rw [hfailed]
        exact hw.2
    case kwaitVisit q pp =>
      obtain rfl := Option.some_inj.1 hd.1
      split_ifs at he <;> cases he
      · have hreap : waiting ((c, .reap p pp (m.proc pp).pid (m.proc pp).xstate) :: h) p = false :=
          if_pos rfl
        rw [hreap]
        exact hw.2
      · rw [hfailed]
        exact hw.2
      · exact hw
    case kwaitKilled q =>
      obtain rfl := Option.some_inj.1 hd.1
      split_ifs at he <;> cases he
      · rw [hfailed]
        exact hw.2
      · exact hw
    case usertrap =>
      cases he
      exact hw
    case trapKilled q timer =>
      have hfalse : waiting h p = false := hw.1
      cases he
      have hsame : waiting ((c, .tau) :: h) p = false := hfalse
      rw [hsame]
      split_ifs
      · exact rfl
      · exact hw.2
      · exact hw.2
    all_goals exact absurd trivial hi

/-- A call of `kwait`, or its result, is shown by an instruction of the process. -/
theorem exec_waits {q : Fin N} {my : Option (Fin N)} {L : Set (Lock N)} {cpu0 ok : Bool}
    {m m' : Mem N υ} {i : Instr N υ} {k k' : List (Instr N υ)} {e : Event N}
    (hd : Disc C my L (i :: k)) (he : exec C cpu0 my ok m i = some (m', k', e))
    (hq : e.Waits q) : my = some q ∧ i.OfKwait := by
  by_cases hi : i.Plain
  · exact absurd hq ((exec_plain hi he).2 q)
  · cases i <;> simp only [exec, reduceCtorEq] at he
    case killed | usertrap =>
      obtain ⟨r, -, he⟩ := Option.map_eq_some_iff.1 he
      cases he
      exact hq.elim
    case killedRead | trapKilled => cases he; exact hq.elim
    case kexit =>
      obtain ⟨r, -, he⟩ := Option.bind_eq_some_iff.1 he
      split_ifs at he
      cases he
      exact hq.elim
    case kwait =>
      obtain ⟨r, hr, he⟩ := Option.map_eq_some_iff.1 he
      cases he
      obtain rfl : r = q := hq
      exact ⟨hr, trivial⟩
    case kwaitScan =>
      obtain ⟨hmy, -⟩ := hd
      split_ifs at he <;> cases he <;> first | exact hq.elim | skip
      exact ⟨hmy.trans (congrArg some hq), trivial⟩
    case kwaitVisit =>
      obtain ⟨hmy, -⟩ := hd
      split_ifs at he <;> cases he <;> first | exact hq.elim | skip
      · exact ⟨hmy.trans (congrArg some hq), trivial⟩
      · exact ⟨hmy.trans (congrArg some hq), trivial⟩
    case kwaitKilled =>
      obtain ⟨hmy, -⟩ := hd
      split_ifs at he <;> cases he <;> first | exact hq.elim | skip
      exact ⟨hmy.trans (congrArg some hq), trivial⟩
    all_goals exact absurd trivial hi

end Exec

/-- The control of every process says whether it is in `kwait`; a slot without a running process is
not. -/
structure WaitOk (h : List (κ × Event N)) (s : State κ N υ δ) : Prop where
  thread : ∀ p k, s.Thread p k → InWait (waiting h p) k
  idle : ∀ p, (s.mem.proc p).state.Idle → waiting h p = false

section Step

variable [DecidableEq κ] [NeZero N] {boot : κ} {h : List (κ × Event N)} {s s' : State κ N υ δ}
  {c : κ} {e : Event N}

theorem Step.waits (hs : Safe C s) (t : Step boot C s (c, e) s') {q : Fin N} (he : e.Waits q) :
    (s.cpu c).who = some q ∧ ∃ i k, (s.cpu c).ctl = i :: k ∧ i.OfKwait := by
  cases t with
  | acquire | release | user | dispatch | sched | clock | device => exact he.elim
  | @account _ _ _ _ b => cases b <;> exact he.elim
  | @exec _ i k _ _ _ _ hctl hexec =>
    have hacc : ∀ q t, i ≠ .account q t := by
      rintro q t rfl
      cases hexec
    obtain ⟨hmy, hi⟩ := exec_waits ((hs.cpu c).disc hctl hacc) hexec he
    exact ⟨((hs.cpu c).who_eq_proc hctl hacc).trans hmy, i, k, hctl, hi⟩

namespace WaitOk

theorem idle_step (hs : Safe C s) (hw : WaitOk h s) (t : Step boot C s (c, e) s') {p : Fin N}
    (hp : (s'.mem.proc p).state.Idle) : waiting ((c, e) :: h) p = false := by
  by_cases hidle : (s.mem.proc p).state.Idle
  · rw [waiting_of_not_waits]
    · exact hw.idle p hidle
    · intro he
      obtain ⟨hwho, i, k, hctl, hi⟩ := t.waits hs he
      have hrun := hs.running c p hwho
      rw [hctl] at hrun
      have hst : (s.mem.proc p).state = .running := by
        refine hrun.running_of_head ?_ ?_ <;> rintro rfl <;> exact hi
      rw [hst] at hidle
      exact hidle
  · have halive : (s.mem.proc p).state.Alive := by
      cases hst : (s.mem.proc p).state <;> rw [hst] at hidle <;>
        first | trivial | exact hidle trivial
    rcases (t.slot hs p).alive hs halive with hp' | ⟨status, k, hctl⟩
    · have hp'' : (s'.mem.proc p).state.Alive := hp'
      cases hst : (s'.mem.proc p).state <;> rw [hst] at hp hp'' <;>
        first | exact hp.elim | exact hp''.elim
    · obtain ⟨hproc, -, ⟨k', rfl⟩, -⟩ := (hs.cpu c).disc hctl (by simp)
      have hwho := ((hs.cpu c).who_eq_proc hctl (by simp)).trans hproc
      rw [waiting_of_not_waits]
      · exact hw.thread p _ (.inl ⟨c, hwho, hctl.symm⟩)
      · intro he
        obtain ⟨-, i, k, hctl', hi⟩ := t.waits hs he
        rw [hctl] at hctl'
        cases hctl'
        exact hi

theorem step (hs : Safe C s) (hC : C.Disciplined) (hw : WaitOk h s)
    (t : Step boot C s (c, e) s') : WaitOk ((c, e) :: h) s' := by
  refine ⟨fun p k hk => ?_, fun p hp => hw.idle_step hs t hp⟩
  have hne : (s.cpu c).who ≠ some p → waiting ((c, e) :: h) p = waiting h p := fun hne =>
    waiting_of_not_waits fun he => hne (t.waits hs he).1
  rcases t.thread hs with ⟨q, u, k₁, d, k', hctl, hwho, hsem, -, -, ht⟩ | ⟨-, ht⟩
  · have htau : waiting ((c, e) :: h) p = waiting h p := by
      refine waiting_of_not_waits fun he => ?_
      obtain ⟨-, i, k, hctl', hi⟩ := t.waits hs he
      rw [hctl] at hctl'
      cases hctl'
      exact hi
    rw [htau]
    rcases ht p k hk with ⟨rfl, rfl⟩ | ⟨-, hk⟩
    · have hout : waiting h p = false := hw.thread p _ (.inl ⟨c, hwho, hctl.symm⟩)
      rw [hout]
      exact inWait_of_disc (hC.user p u _ d k' hsem) (hC.calls p u _ d k' hsem) k₁
    · exact hw.thread p k hk
  · cases ht p k hk with
    | same hk hwho =>
      rw [hne hwho]
      exact hw.thread p k hk
    | pop hk₀ _ _ hi he =>
      subst he
      have hk₁ := hw.thread p _ hk₀
      obtain ⟨l, rfl | rfl⟩ := hi <;> exact hk₁
    | sched hk₀ _ _ he =>
      subst he
      have hk₁ := hw.thread p _ hk₀
      exact hk₁
    | exec hk₀ hwho hctl he =>
      have hd := (hs.cpu c).disc_of_who hwho
      rw [hctl] at hd
      exact exec_inWait hd (hw.thread p _ hk₀) he
    | fork hst hwho =>
      rw [hne hwho]
      exact hw.idle p (hst ▸ trivial)
    | @interrupt k k' hk₀ _ _ _ hk' timer he =>
      subst he
      have hin : InWait (waiting h p) k := hw.thread p k hk₀
      have hplain : ∀ i ∈ k', i.Plain := by
        rcases hk' with rfl | ⟨a, chan, rfl⟩ <;> simp [devintrCode, Instr.Plain]
      rw [inWait_append hplain]
      change InWait (waiting h p) _
      unfold trapCode
      split_ifs with hu
      · -- in user space, so not in `kwait`
        obtain ⟨u, k₁, rfl, -⟩ := exists_of_inUser hu
        exact ⟨hin, rfl⟩
      · exact hin
      · exact hin

end WaitOk

theorem waitOk_of_run {start : δ → Prop} (hC : C.Disciplined)
    (r : (kernel boot C start).Run h s) : WaitOk h s := by
  refine LTS.Run.invariant (I := fun h s => WaitOk h s) (fun s hs => ?_)
    (fun h s x s' r ih t => ?_) r
  · refine ⟨fun p k hk => ?_, fun _ _ => rfl⟩
    rcases hk with ⟨c, hc, -⟩ | ⟨-, rfl⟩
    · rw [(hs.1.cpu c).1] at hc
      cases hc
    · rw [hs.1.context]
      exact rfl
  · exact ih.step (safe_of_reachable hC ⟨h, r⟩) hC t

end Step

end Xv6.Kernel
