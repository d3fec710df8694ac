import Xv6.Kernel.Handoff

/-!
# What a step does to a thread

`ThreadStep` says where the control of a thread after a step comes from, whether the thread is on
a CPU or saved. It is the inversion lemma for properties of the code of one process: what holds of
every thread, and is kept by each of these cases, holds in every reachable state.
-/

namespace Xv6.Kernel

variable {κ : Type} {N : ℕ} {υ δ : Type}

/-- `ThreadStep C s s' c e p k`: after a step of the CPU `c` from `s` to `s'`, seen as `e` and not
a step of the client, the control of the thread of `p` is `k`. -/
inductive ThreadStep [NeZero N] (C : Client N υ δ) (s s' : State κ N υ δ) (c : κ) (e : Event N)
    (p : Fin N) : List (Instr N υ) → Prop
  /-- The thread did not move. -/
  | same {k} (h : s.Thread p k) (hwho : (s.cpu c).who ≠ some p) : ThreadStep C s s' c e p k
  /-- It took or released a lock. -/
  | pop {i k} (h : s.Thread p (i :: k)) (hwho : (s.cpu c).who = some p)
      (hctl : (s.cpu c).ctl = i :: k) (hi : ∃ l, i = .acquire l ∨ i = .release l) (he : e = .tau)
      (hmem : s'.mem = s.mem) : ThreadStep C s s' c e p k
  /-- It gave up the CPU. -/
  | sched {k} (h : s.Thread p (.sched p :: k)) (hwho : (s.cpu c).who = some p)
      (hctl : (s.cpu c).ctl = .sched p :: k) (he : e = .tau)
      (hmem : s'.mem = s.mem.set p { s.mem.proc p with context := k }) :
      ThreadStep C s s' c e p k
  /-- It ran an instruction of the kernel's functions. -/
  | exec {i k ok cpu0 k'} (h : s.Thread p (i :: k)) (hwho : (s.cpu c).who = some p)
      (hctl : (s.cpu c).ctl = i :: k)
      (he : exec C cpu0 (some p) ok s.mem i = some (s'.mem, k', e)) :
      ThreadStep C s s' c e p (k' ++ k)
  /-- It is the new process of a `kfork`. -/
  | fork (hst : (s.mem.proc p).state = .unused) (hwho : (s.cpu c).who ≠ some p) :
      ThreadStep C s s' c e p (forkretCode C p)
  /-- It was interrupted. -/
  | interrupt {k k'} (h : s.Thread p k) (hwho : (s.cpu c).who = some p) (hheld : s.held c = ∅)
      (hctl : (s.cpu c).ctl = k) (hk' : k' = [.clockintr] ∨ ∃ a chan, k' = devintrCode a chan)
      (timer : Bool) (he : e = .tau) (hmem : s'.mem = s.mem) :
      ThreadStep C s s' c e p (k' ++ (trapCode (inUser C k) timer ++ k))

variable [DecidableEq κ] {C : Client N υ δ}

omit [DecidableEq κ] in
/-- The control of the thread that a CPU runs. -/
theorem State.Thread.eq_ctl {s : State κ N υ δ} {c : κ} {p : Fin N} {k : List (Instr N υ)}
    (h : s.Thread p k) (hs : Safe C s) (hc : (s.cpu c).who = some p) : k = (s.cpu c).ctl := by
  rcases h with ⟨c', hc', rfl⟩ | ⟨hoff, -⟩
  · rw [hs.who_unique hc' hc]
  · exact absurd hc (hoff c)

omit [DecidableEq κ] in
theorem State.Thread.unique {s : State κ N υ δ} {p : Fin N} {k k' : List (Instr N υ)}
    (h : s.Thread p k) (h' : s.Thread p k') (hs : Safe C s) : k = k' := by
  rcases h with ⟨c, hc, rfl⟩ | ⟨hoff, rfl⟩
  · exact (h'.eq_ctl hs hc).symm
  · rcases h' with ⟨c, hc, -⟩ | ⟨-, rfl⟩
    · exact absurd hc (hoff c)
    · rfl

/-- The threads after a step that changes the control of the CPU `c`. -/
theorem thread_setCtl {s s' : State κ N υ δ} {c : κ} {k₁ : List (Instr N υ)} (hs : Safe C s)
    {p : Fin N} {k : List (Instr N υ)} (ht : s'.Thread p k) (hcpu : s'.cpu = (s.setCtl c k₁).cpu) :
    (s.cpu c).who = some p ∧ k = k₁ ∨
      (s.cpu c).who ≠ some p ∧
        (s.Thread p k ∨
          k = (s'.mem.proc p).context ∧ (s'.mem.proc p).context ≠ (s.mem.proc p).context) :=
  thread_cases hs (x := { s.cpu c with ctl := k₁ }) ht hcpu rfl

/-- **All that a step can do to the threads.** A step of the client moves one of them, and every
other step leaves the client's data alone. -/
theorem Step.thread [NeZero N] {boot : κ} {s s' : State κ N υ δ} {c : κ} {e : Event N}
    (hs : Safe C s) (t : Step boot C s (c, e) s') :
    (∃ p u k d k', (s.cpu c).ctl = .user u :: k ∧ (s.cpu c).who = some p ∧
      C.sem p u s.user d k' ∧ s'.user = d ∧ s'.mem = s.mem ∧
      ∀ q k₁, s'.Thread q k₁ → q = p ∧ k₁ = k' ++ k ∨ q ≠ p ∧ s.Thread q k₁) ∨
    (s'.user = s.user ∧ ∀ p k, s'.Thread p k → ThreadStep C s s' c e p k) := by
  have hon : ∀ {q}, (s.cpu c).who = some q → s.Thread q (s.cpu c).ctl := fun hq => .inl ⟨c, hq, rfl⟩
  cases t with
  | @user _ p u k d k' hctl hproc hsem =>
    have hwho := ((hs.cpu c).who_eq_proc hctl (by simp)).trans hproc
    refine .inl ⟨p, u, k, d, k', hctl, hwho, hsem, rfl, rfl, fun q k₁ ht => ?_⟩
    rcases thread_setCtl (c := c) hs ht rfl with ⟨hq, rfl⟩ | ⟨hne, h | ⟨-, hctx⟩⟩
    · exact .inl ⟨Option.some_inj.1 (hq.symm.trans hwho), rfl⟩
    · exact .inr ⟨fun hq => hne (hq ▸ hwho), h⟩
    · exact absurd rfl hctx
  | acquire hctl _ =>
    refine .inr ⟨rfl, fun p k ht => ?_⟩
    rcases thread_setCtl (c := c) hs ht rfl with ⟨hp, rfl⟩ | ⟨hwho, h | ⟨-, hne⟩⟩
    · exact .pop (hctl ▸ hon hp) hp hctl ⟨_, .inl rfl⟩ rfl rfl
    · exact .same h hwho
    · exact absurd rfl hne
  | release hctl _ =>
    refine .inr ⟨rfl, fun p k ht => ?_⟩
    rcases thread_setCtl (c := c) hs ht rfl with ⟨hp, rfl⟩ | ⟨hwho, h | ⟨-, hne⟩⟩
    · exact .pop (hctl ▸ hon hp) hp hctl ⟨_, .inr rfl⟩ rfl rfl
    · exact .same h hwho
    · exact absurd rfl hne
  | exec hctl he =>
    refine .inr ⟨rfl, fun p k ht => ?_⟩
    rcases thread_setCtl (c := c) hs ht rfl with ⟨hp, rfl⟩ | ⟨hwho, h | ⟨rfl, hne⟩⟩
    · rw [(hs.cpu c).proc_of_who hp] at he
      exact .exec (hctl ▸ hon hp) hp hctl he
    · exact .same h hwho
    · obtain ⟨hctx, -, hst⟩ := (exec_context he p).resolve_left hne
      rw [State.setMem_mem, hctx]
      exact .fork hst hwho
  | dispatch hctl hel =>
    obtain ⟨hnone, hL⟩ := (hs.cpu c).disc hctl (by simp)
    have hst : (s.mem.proc _).state = .runnable := (of_decide_eq_true hel).1
    have hwho := ((hs.cpu c).who_eq_proc hctl (by simp)).trans hnone
    refine .inr ⟨rfl, fun p k ht => ?_⟩
    refine .same (thread_dispatch hs ht (fun c' => ?_) hwho rfl rfl rfl fun q => ?_) (by simp [hwho])
    · exact hs.proc_ne_of_held hctl (by simp) (by simp) (by simp) (by simp [hL]) (by simp [hst])
    · rw [State.setMem_mem, Mem.set_proc]
      split_ifs with hq
      exacts [hq ▸ rfl, rfl]
  | account hctl hq =>
    have hctx := (Proc.account_eq_some hq).2.1
    have hwho := hs.who_of_account hctl
    refine .inr ⟨rfl, fun p k ht => ?_⟩
    rcases thread_cases hs ht rfl rfl with ⟨hp, -⟩ | ⟨hne, h | ⟨-, hne⟩⟩
    · rw [hwho] at hp
      cases hp
    · exact .same h hne
    · refine absurd ?_ hne
      rw [State.setMem_mem, Mem.set_proc]
      split_ifs with hp
      exacts [hp ▸ hctx, rfl]
  | sched hctl _ _ =>
    obtain ⟨hproc, -, -⟩ := (hs.cpu c).disc hctl (by simp)
    have hwho := ((hs.cpu c).who_eq_proc hctl (by simp)).trans hproc
    refine .inr ⟨rfl, fun p k ht => ?_⟩
    rcases thread_sched hs ht hwho hctl rfl rfl rfl with ⟨h, hne⟩ | ⟨rfl, rfl⟩
    · exact .same h fun hp => hne (Option.some_inj.1 (hp.symm.trans hwho))
    · exact .sched (hctl ▸ hon hwho) hwho hctl rfl rfl
  | clock hheld _ =>
    refine .inr ⟨rfl, fun p k ht => ?_⟩
    rcases thread_setCtl (c := c) hs ht rfl with ⟨hp, rfl⟩ | ⟨hwho, h | ⟨-, hne⟩⟩
    · have hk : ([.clockintr] : List (Instr N υ)) = [.clockintr] ∨
          ∃ a chan, ([.clockintr] : List (Instr N υ)) = devintrCode a chan := .inl rfl
      exact .interrupt (hon hp) hp hheld rfl hk true rfl rfl
    · exact .same h hwho
    · exact absurd rfl hne
  | device a chan hheld _ =>
    refine .inr ⟨rfl, fun p k ht => ?_⟩
    rcases thread_setCtl (c := c) hs ht rfl with ⟨hp, rfl⟩ | ⟨hwho, h | ⟨-, hne⟩⟩
    · exact .interrupt (hon hp) hp hheld rfl (.inr ⟨a, chan, rfl⟩) false rfl rfl
    · exact .same h hwho
    · exact absurd rfl hne

/-! ## On the way into `sleep` -/

/-- What a process may do on its way into `sleep`: it takes and releases `p->lock`s, also in a
`wakeup`. -/
def Instr.Passing : Instr N υ → Prop
  | .acquire (.proc _) | .release (.proc _) | .wakeup _ _ | .wakeupVisit _ _ => True
  | _ => False

theorem wakeupCode_passing (my : Option (Fin N)) (chan : Chan N) (j : ℕ) :
    ∀ i ∈ (wakeupCode my chan j : List (Instr N υ)), i.Passing := by
  unfold wakeupCode
  split_ifs <;> simp [Instr.Passing]

/-! ## What a step does to the other CPUs -/

variable [NeZero N] {boot : κ} {s s' : State κ N υ δ} {c c' : κ} {e : Event N}

theorem Step.cpu_of_ne (t : Step boot C s (c, e) s') (hc : c' ≠ c) : s'.cpu c' = s.cpu c' := by
  cases t <;> exact State.setCpu_of_ne s hc _

theorem Step.held_of_ne (t : Step boot C s (c, e) s') (hc : c' ≠ c) : s'.held c' = s.held c' := by
  cases t with
  | acquire hctl hfree => rw [held_acquire hfree, if_neg hc]
  | release hctl hheld => rw [held_release hheld, if_neg hc]
  | exec | user | dispatch | account | sched | clock | device => rfl

/-- A saved context changes when its process gives up the CPU, or when the slot is handed out. -/
theorem Step.context (hs : Safe C s) (t : Step boot C s (c, e) s') (p : Fin N) :
    (s'.mem.proc p).context = (s.mem.proc p).context ∨
      (s'.mem.proc p).context = forkretCode C p ∨
      (s.cpu c).who = some p ∧ (s.cpu c).ctl = .sched p :: (s'.mem.proc p).context := by
  have hset : ∀ {q : Fin N} {x : Proc N υ}, x.context = (s.mem.proc q).context →
      ((s.mem.set q x).proc p).context = (s.mem.proc p).context := by
    intro q x hx
    rw [Mem.set_proc]
    split_ifs with hp
    · rw [hx, hp]
    · rfl
  cases t with
  | acquire | release | user | clock | device => exact .inl rfl
  | exec _ he =>
    rcases exec_context he p with hctx | ⟨hctx, -⟩
    exacts [.inl hctx, .inr (.inl hctx)]
  | dispatch => exact .inl (hset rfl)
  | account _ hq => exact .inl (hset (Proc.account_eq_some hq).2.1)
  | @sched _ q k hctl _ _ =>
    by_cases hp : p = q
    · subst hp
      obtain ⟨hproc, -, -⟩ := (hs.cpu c).disc hctl (by simp)
      refine .inr (.inr ⟨((hs.cpu c).who_eq_proc hctl (by simp)).trans hproc, ?_⟩)
      rw [hctl, State.setMem_mem, Mem.set_proc, if_pos rfl]
    · rw [State.setMem_mem, Mem.set_proc, if_neg hp]
      exact .inl rfl

/-- Only the steps of the client change its data. -/
theorem user_of_reachable {start I : δ → Prop} (hstart : ∀ d, start d → I d)
    (hstep : ∀ p u d d' k, C.sem p u d d' k → I d → I d')
    (hs : (kernel boot C start).Reachable s) : I s.user := by
  refine LTS.Reachable.invariant (I := fun s => I s.user) (fun s hs => ?_)
    (fun s e s' _ h t => ?_) hs
  · exact hstart _ hs.2
  · cases t with
    | user _ _ hsem => exact hstep _ _ _ _ _ hsem h
    | acquire | release | exec | dispatch | account | sched | clock | device => exact h

end Xv6.Kernel
