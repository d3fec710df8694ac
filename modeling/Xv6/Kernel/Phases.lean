import Xv6.Kernel.Threads

/-!
# Phases of a process

A client often knows of each process how far it is in some protocol: inside a critical section,
inside an operation of the file system, in the middle of a commit. Its program points then have
*phases*, and its data record the phase of every process. `phase` reads the phase off the control
of a thread: it is the phase of the program point where the thread goes on. `Client.Phased` asks
that every step of the client keeps the record, and `phase_of_thread` concludes that the record is
right in every reachable state, through interrupts, `sleep`, `kkill`, `fork` and `exit`.
`data_of_reachable` is the rule for invariants of the data of such a client.
-/

namespace Xv6.Kernel

variable {κ : Type} {N : ℕ} {υ δ φ : Type}

section Code

variable (ph : υ → φ) (out : φ)

/-- The phase of the program point where the control goes on; `out` if it never comes back to
one. -/
def phase : List (Instr N υ) → φ
  | [] => out
  | .user u :: _ => ph u
  | .killed yes _ :: _ | .killedRead _ yes _ :: _ => ph yes
  | .kexit _ :: _ | .zombieExit :: _ => out
  | _ :: k => phase k

/-- The phase does not depend on whether the process has been killed. -/
def Fair : List (Instr N υ) → Prop
  | [] => True
  | .user _ :: _ | .kexit _ :: _ | .zombieExit :: _ => True
  | .killed yes no :: _ | .killedRead _ yes no :: _ => ph yes = ph no
  | .usertrap _ :: k | .trapKilled _ _ :: k => phase ph out k = out ∧ Fair k
  | _ :: k => Fair k

/-- An instruction that falls through, and does not test whether the process has been killed. -/
def Instr.Neutral : Instr N υ → Prop
  | .user _ | .killed _ _ | .killedRead _ _ _ | .kexit _ | .zombieExit | .usertrap _
  | .trapKilled _ _ => False
  | _ => True

end Code

/-- A client whose data record the phase of every process. -/
structure Client.Phased (C : Client N υ δ) (ph : υ → φ) (out : φ) (rec : δ → Fin N → φ) :
    Prop where
  start : ph C.start = out
  killed : ph C.killed = out
  inUser : ∀ u, C.inUser u → ph u = out
  /-- A step records the new phase of its process, and no other. -/
  step : ∀ p u d d' k, C.sem p u d d' k → rec d p = ph u →
    rec d' p = phase ph out k ∧ ∀ q, q ≠ p → rec d' q = rec d q
  fair : ∀ p u d d' k, C.sem p u d d' k → Fair ph out k

variable (ph : υ → φ) (out : φ) {C : Client N υ δ}

theorem phase_append_of_neutral {k k' : List (Instr N υ)} (h : ∀ i ∈ k', i.Neutral) :
    phase ph out (k' ++ k) = phase ph out k ∧ (Fair ph out k → Fair ph out (k' ++ k)) := by
  induction k' with
  | nil => exact ⟨rfl, id⟩
  | cons i k' ih =>
    have hi := h i (List.mem_cons_self ..)
    have hrec := ih fun j hj => h j (List.mem_cons_of_mem _ hj)
    cases i <;> first | exact hi.elim | exact hrec

/-- The code of a client comes to a program point, or never comes back. -/
theorem phase_append_of_disc {p : Fin N} {L : Set (Lock N)} {k : List (Instr N υ)}
    (h : Disc C (some p) L k) (hcall : ∀ i ∈ k, i.IsCall) (k' : List (Instr N υ)) :
    phase ph out (k ++ k') = phase ph out k ∧ (Fair ph out k → Fair ph out (k ++ k')) := by
  induction k generalizing L with
  | nil => exact h.elim
  | cons i k ih =>
    have hi := hcall i (List.mem_cons_self ..)
    have hrec : ∀ {L}, Disc C (some p) L k → phase ph out (k ++ k') = phase ph out k ∧
        (Fair ph out k → Fair ph out (k ++ k')) := fun hk =>
      ih hk fun j hj => hcall j (List.mem_cons_of_mem _ hj)
    cases i
    case acquire | release | setkilled => exact hrec (by first | exact h.2 | exact h.2.2)
    case sleep => exact hrec h.2.2.2
    case wakeup | kkill => exact hrec h.2
    case kwait | kfork => exact hrec h.2.2
    case killed | user | kexit => exact ⟨rfl, id⟩
    all_goals exact hi.elim

variable {ph out}

/-- The kernel's functions fall through, but for the tests of `killed` and for `kexit`. -/
theorem exec_neutral [NeZero N] {my : Option (Fin N)} {cpu0 ok : Bool} {m m' : Mem N υ}
    {i : Instr N υ} {k' : List (Instr N υ)} {e : Event N} (hi : i.Neutral)
    (he : exec C cpu0 my ok m i = some (m', k', e)) : ∀ j ∈ k', j.Neutral := by
  cases i <;> simp only [exec, reduceCtorEq] at he
  case killed | killedRead | kexit | usertrap | trapKilled => exact hi.elim
  case sleep =>
    obtain ⟨p, -, he⟩ := Option.map_eq_some_iff.1 he
    cases he
    simp [sleepCode, Instr.Neutral]
  case forkCopy => split_ifs at he <;> cases he <;> simp [forkCode, Instr.Neutral]
  case clockintr => cases he; cases cpu0 <;> simp [clockintrCode, Instr.Neutral]
  all_goals cases my <;> grind [yieldCode, wakeupCode, Instr.Neutral]

theorem exec_phase [NeZero N] {p : Fin N} {cpu0 ok : Bool} {m m' : Mem N υ}
    {i : Instr N υ} {k k' : List (Instr N υ)} {e : Event N} (hkilled : ph C.killed = out)
    (hf : Fair ph out (i :: k)) (he : exec C cpu0 (some p) ok m i = some (m', k', e)) :
    phase ph out (k' ++ k) = phase ph out (i :: k) ∧ Fair ph out (k' ++ k) := by
  by_cases hi : i.Neutral
  · obtain ⟨hphase, hfair⟩ := phase_append_of_neutral ph out (k := k)
      (exec_neutral hi he)
    cases i <;> first | exact hi.elim | exact ⟨hphase, hfair hf⟩
  · cases i
    case killed yes no => cases he; exact ⟨rfl, hf⟩
    case killedRead q yes no =>
      cases he
      split_ifs
      · exact ⟨rfl, trivial⟩
      · exact ⟨hf.symm, trivial⟩
    case kexit =>
      simp only [exec, Option.bind_some] at he
      split_ifs at he
      cases he
      exact ⟨rfl, trivial⟩
    case zombieExit | user => cases he
    case usertrap => cases he; exact ⟨rfl, hf⟩
    case trapKilled =>
      cases he
      split_ifs
      · exact ⟨hkilled.trans hf.1.symm, trivial⟩
      · exact ⟨rfl, hf.2⟩
      · exact ⟨rfl, hf.2⟩
    all_goals exact absurd trivial hi

theorem exists_of_inUser {k : List (Instr N υ)} (h : inUser C k = true) :
    ∃ u k', k = .user u :: k' ∧ C.inUser u = true := by
  cases k with
  | nil => cases h
  | cons i k =>
    cases i <;> first | exact ⟨_, _, rfl, h⟩ | cases h

/-! ## The record is right -/

/-- A slot that holds no process, or one that has exited. -/
def ProcState.Idle : ProcState → Prop
  | .unused | .used | .zombie => True
  | _ => False

/-- The record of the phases is right, and a slot without a running process is `out`. -/
structure PhaseOk (ph : υ → φ) (out : φ) (rec : δ → Fin N → φ) (s : State κ N υ δ) : Prop where
  thread : ∀ p k, s.Thread p k → phase ph out k = rec s.user p ∧ Fair ph out k
  idle : ∀ p, (s.mem.proc p).state.Idle → rec s.user p = out

namespace PhaseOk

variable {rec : δ → Fin N → φ} {s s' : State κ N υ δ} {c : κ} {e : Event N}

variable [NeZero N]

/-- A step that is not one of the client keeps the phase of every thread. -/
theorem of_threadStep (hC : C.Phased ph out rec) (h : PhaseOk ph out rec s) {p : Fin N}
    {k : List (Instr N υ)} (t : ThreadStep C s s' c e p k) :
    phase ph out k = rec s.user p ∧ Fair ph out k := by
  cases t with
  | same hk => exact h.thread p k hk
  | pop hk _ _ hi =>
    have hik := h.thread p _ hk
    obtain ⟨l, rfl | rfl⟩ := hi <;> exact hik
  | sched hk =>
    have hik := h.thread p _ hk
    exact hik
  | exec hk _ _ he =>
    obtain ⟨hphase, hfair⟩ := h.thread p _ hk
    obtain ⟨hphase', hfair'⟩ := exec_phase hC.killed hfair he
    exact ⟨hphase'.trans hphase, hfair'⟩
  | fork hst =>
    have hout := h.idle p (hst ▸ trivial)
    exact ⟨hC.start.trans hout.symm, trivial⟩
  | @interrupt k k' hk _ _ _ hk' timer =>
    obtain ⟨hphase, hfair⟩ := h.thread p k hk
    have htrap : phase ph out (trapCode (inUser C k) timer ++ k) = phase ph out k ∧
        Fair ph out (trapCode (inUser C k) timer ++ k) := by
      unfold trapCode
      split_ifs with hu ht
      · -- a process in user space is out of every protocol
        obtain ⟨u, k₁, rfl, hin⟩ := exists_of_inUser hu
        exact ⟨rfl, hC.inUser u hin, hfair⟩
      · exact ⟨rfl, hfair⟩
      · exact ⟨rfl, hfair⟩
    have hneutral : ∀ i ∈ k', i.Neutral := by
      rcases hk' with rfl | ⟨a, chan, rfl⟩ <;> simp [devintrCode, Instr.Neutral]
    obtain ⟨hphase', hfair'⟩ := phase_append_of_neutral ph out
      (k := trapCode (inUser C k) timer ++ k) hneutral
    exact ⟨hphase'.trans (htrap.1.trans hphase), hfair' htrap.2⟩

/-- A slot that becomes idle is `out`. -/
theorem idle_exec (hs : Safe C s) (h : PhaseOk ph out rec s) {i : Instr N υ}
    {k k' : List (Instr N υ)} {ok cpu0 : Bool} {m' : Mem N υ} (hctl : (s.cpu c).ctl = i :: k)
    (he : Kernel.exec C cpu0 (s.cpu c).proc ok s.mem i = some (m', k', e)) {p : Fin N}
    (hp : (m'.proc p).state.Idle) : rec s.user p = out := by
  have hd := (hs.cpu c).disc hctl (by rintro q t rfl; cases he)
  have hstep := exec_slotStep hd he p
  cases hst : (m'.proc p).state <;> rw [hst] at hp <;> first | exact hp.elim | skip
  · -- freed
    generalize ha : (s.mem.proc p).state = a at hstep
    rw [hst] at hstep
    cases hstep with
    | same | reap => exact h.idle p (ha ▸ trivial)
    | abort _ hi =>
      have hused := hs.used_of_pending (p := p) hctl he (by simp [hi])
      exact h.idle p (hused ▸ trivial)
    | leave _ _ _ _ hb => simp at hb
  · -- taken
    generalize ha : (s.mem.proc p).state = a at hstep
    rw [hst] at hstep
    cases hstep with
    | same | alloc => exact h.idle p (ha ▸ trivial)
    | leave _ _ _ _ hb => simp at hb
  · -- exited
    generalize ha : (s.mem.proc p).state = a at hstep
    rw [hst] at hstep
    cases hstep with
    | same => exact h.idle p (ha ▸ trivial)
    | leave hmy _ hi =>
      have hwho := ((hs.cpu c).who_eq_proc hctl (by rintro q t rfl; cases he)).trans hmy
      have hk := (h.thread p _ (.inl ⟨c, hwho, hctl.symm⟩)).1
      rcases hi with rfl | ⟨chan, rfl⟩ | ⟨st, rfl⟩
      · cases he
        simp at hst
      · cases he
        simp at hst
      · obtain ⟨-, -, ⟨k₁, rfl⟩, -⟩ := hd
        exact hk.symm

variable [DecidableEq κ] {boot : κ}

theorem idle_step (hs : Safe C s) (h : PhaseOk ph out rec s) (t : Step boot C s (c, e) s')
    {p : Fin N} (hp : (s'.mem.proc p).state.Idle) : rec s.user p = out := by
  cases t with
  | exec hctl he => exact h.idle_exec hs hctl he hp
  | dispatch =>
    rw [State.setMem_mem, Mem.set_proc] at hp
    split_ifs at hp
    · exact hp.elim
    · exact h.idle p hp
  | account hctl hq =>
    rw [State.setMem_mem, Mem.set_proc] at hp
    split_ifs at hp with hpq
    · rw [(Proc.account_eq_some hq).1] at hp
      exact h.idle p (hpq ▸ hp)
    · exact h.idle p hp
  | sched =>
    rw [State.setMem_mem, Mem.set_proc] at hp
    split_ifs at hp with hpq
    · exact h.idle p (hpq ▸ hp)
    · exact h.idle p hp
  | acquire | release | user | clock | device => exact h.idle p hp

theorem step (hs : Safe C s) (hd : C.Disciplined) (hC : C.Phased ph out rec)
    (h : PhaseOk ph out rec s) (t : Step boot C s (c, e) s') : PhaseOk ph out rec s' := by
  rcases t.thread hs with ⟨p, u, k, d, k', hctl, hwho, hsem, rfl, hmem, ht⟩ | ⟨huser, ht⟩
  · have hu := h.thread p _ (.inl ⟨c, hwho, hctl.symm⟩)
    obtain ⟨hrec, hother⟩ := hC.step p u _ _ k' hsem hu.1.symm
    obtain ⟨hphase, hfair⟩ := phase_append_of_disc ph out
      (hd.user p u _ _ k' hsem) (hd.calls p u _ _ k' hsem) k
    refine ⟨fun q k₁ hk₁ => ?_, fun q hq => ?_⟩
    · rcases ht q k₁ hk₁ with ⟨rfl, rfl⟩ | ⟨hne, hk₁⟩
      · exact ⟨hphase.trans hrec.symm, hfair (hC.fair q u _ _ k' hsem)⟩
      · rw [hother q hne]
        exact h.thread q k₁ hk₁
    · rw [hmem] at hq
      by_cases hqp : q = p
      · have hrun := hs.running c p hwho
        rw [hctl] at hrun
        rw [hqp, hrun.running_of_head (by simp) (by simp)] at hq
        exact hq.elim
      · rw [hother q hqp]
        exact h.idle q hq
  · refine ⟨fun q k₁ hk₁ => ?_, fun q hq => ?_⟩
    · rw [huser]
      exact h.of_threadStep hC (ht q k₁ hk₁)
    · rw [huser]
      exact h.idle_step hs t hq

end PhaseOk

section Reachable

variable [DecidableEq κ] [NeZero N] {boot : κ} {start : δ → Prop} {rec : δ → Fin N → φ}
  {s : State κ N υ δ}

theorem phaseOk_of_reachable (hd : C.Disciplined) (hC : C.Phased ph out rec)
    (hstart : ∀ d, start d → ∀ p, rec d p = out) (hs : (kernel boot C start).Reachable s) :
    PhaseOk ph out rec s := by
  refine LTS.Reachable.invariant (fun s hs => ?_) (fun s e s' hs h t => ?_) hs
  · refine ⟨fun p k hk => ?_, fun p _ => hstart _ hs.2 p⟩
    rcases hk with ⟨c, hc, -⟩ | ⟨-, rfl⟩
    · rw [(hs.1.cpu c).1] at hc
      cases hc
    · rw [hs.1.context, hstart _ hs.2 p]
      exact ⟨hC.start, trivial⟩
  · exact h.step (safe_of_reachable hd hs) hd hC t

/-- **The phase of a process is the one that the data record**, in every reachable state. -/
theorem phase_of_thread (hd : C.Disciplined) (hC : C.Phased ph out rec)
    (hstart : ∀ d, start d → ∀ p, rec d p = out) (hs : (kernel boot C start).Reachable s)
    {p : Fin N} {k : List (Instr N υ)} (hk : s.Thread p k) : phase ph out k = rec s.user p :=
  ((phaseOk_of_reachable hd hC hstart hs).thread p k hk).1

/-- **The invariant rule for the data of a client.** A step of a process keeps the invariant if it
does so whenever the record says that the process is in the phase of its program point. -/
theorem data_of_reachable {I : δ → Prop} (hd : C.Disciplined) (hC : C.Phased ph out rec)
    (hstart : ∀ d, start d → I d ∧ ∀ p, rec d p = out)
    (hstep : ∀ p u d d' k, C.sem p u d d' k → rec d p = ph u → I d → I d')
    (hs : (kernel boot C start).Reachable s) : I s.user := by
  refine LTS.Reachable.invariant (I := fun s => I s.user) (fun s hs => ?_)
    (fun s e s' hs h t => ?_) hs
  · exact (hstart _ hs.2).1
  · rcases Step.thread (safe_of_reachable hd hs) t with
      ⟨p, u, k, d, k', hctl, hwho, hsem, rfl, -, -⟩ | ⟨huser, -⟩
    · have hphase := phase_of_thread hd hC (fun d h => (hstart d h).2) hs
        (.inl ⟨_, hwho, hctl.symm⟩)
      exact hstep p u _ _ k' hsem hphase.symm h
    · exact huser ▸ h

end Reachable

end Xv6.Kernel
