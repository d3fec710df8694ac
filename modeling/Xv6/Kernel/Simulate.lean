import Xv6.Kernel.Handoff

/-!
# Runs that are computed

`State.next` is the step of the machine as a function, for a client whose choices are numbered
(`Client.Choices`): a move says which CPU goes on, and how what is left open is resolved.
`State.play` plays a list of moves, and what it computes is a run of the kernel (`run_of_play`), so
that a fact about one run is a computation. It may test a condition on the steps as it goes. The
checks of `sched` and of interrupts are about all locks; on a reachable state they follow from the
lock discipline, so `next` does not make them.
-/

namespace Xv6.Kernel

variable {κ : Type} {N : ℕ} {υ δ : Type}

/-- The choices of a client at a program point, numbered, and the program points without locks. -/
structure Client.Choices (C : Client N υ δ) where
  pick : Fin N → υ → δ → ℕ → Option (δ × List (Instr N υ))
  free : υ → Bool
  sem_of_pick : ∀ p u d n d' k, pick p u d n = some (d', k) → C.sem p u d d' k
  locks_of_free : ∀ p u, free u = true → C.locks p u = ∅

/-- What happens next. -/
inductive Move (κ : Type)
  /-- The CPU `c` goes on; `ok` and `n` resolve what is left open. -/
  | go (c : κ) (ok : Bool) (n : ℕ)
  /-- A timer interrupt of the CPU `c`, which is at a program point without locks. -/
  | clock (c : κ)

variable {C : Client N υ δ}

/-- The CPU is at a program point of a process without locks, and in no trap. -/
def Client.Choices.interruptible (X : C.Choices) : List (Instr N υ) → Bool
  | .user u :: k => X.free u && k.all fun | .trapRet => false | _ => true
  | _ => false

variable [DecidableEq κ] [NeZero N]

/-- The step of the machine as a function. -/
def State.next (boot : κ) (X : C.Choices) (s : State κ N υ δ) :
    Move κ → Option ((κ × Event N) × State κ N υ δ)
  | .go c ok n =>
    match (s.cpu c).ctl with
    | .acquire l :: k =>
      if s.holder l = none then some ((c, .tau), (s.setCtl c k).setHolder l (some c)) else none
    | .release l :: k =>
      if s.holder l = some c then some ((c, .tau), (s.setCtl c k).setHolder l none) else none
    | .user u :: k =>
      (s.cpu c).proc.bind fun p => (X.pick p u s.user n).map fun (d, k') =>
        ((c, .tau), (s.setCtl c (k' ++ k)).setUser d)
    | .account p prev :: k =>
      ((s.mem.proc p).account prev).map fun (q, b) =>
        ((c, if b then .expire p (s.mem.proc p).queueLevel else .unexpired p),
          (s.setCpu c
            { who := (s.cpu c).who, ctl := k, proc := none, context := (s.cpu c).context }
            ).setMem (s.mem.set p q))
    | .sched p :: k =>
      if (s.mem.proc p).state = .running then none
      else some ((c, .tau),
        (s.setCpu c
          { who := none, ctl := (s.cpu c).context, proc := (s.cpu c).proc,
            context := (s.cpu c).context }
          ).setMem (s.mem.set p { s.mem.proc p with context := k }))
    | .scanTest level p :: k =>
      if (s.mem.proc p).eligible level then
        some ((c, .dispatch p),
          (s.setCpu c
            { who := some p
              ctl := (s.mem.proc p).context
              proc := some p
              context := .account p (s.mem.proc p).totalTicks :: .release (.proc p) ::
                .aging 0 :: k }
            ).setMem (s.mem.set p (s.mem.proc p).run))
      else some ((c, .tau), s.setCtl c (.release (.proc p) :: .scan level (p + 1) :: k))
    | i :: k =>
      (exec C (c = boot) (s.cpu c).proc ok s.mem i).map fun (m, k', e) =>
        ((c, e), (s.setCtl c (k' ++ k)).setMem m)
    | [] => none
  | .clock c =>
    if X.interruptible (s.cpu c).ctl then
      some ((c, .tau),
        s.setCtl c (.clockintr :: (trapCode (inUser C (s.cpu c).ctl) true ++ (s.cpu c).ctl)))
    else none

/-- The moves are played one after the other, as long as `ok` allows the steps; the history is
newest first. -/
def State.play (boot : κ) (X : C.Choices) (ok : State κ N υ δ → κ × Event N → Bool)
    (s : State κ N υ δ) :
    List (κ × Event N) → List (Move κ) → Option (List (κ × Event N) × State κ N υ δ)
  | h, [] => some (h, s)
  | h, v :: vs => (s.next boot X v).bind fun (x, s') =>
      if ok s x then s'.play boot X ok (x :: h) vs else none

/-- What `next` computes is a step. -/
theorem step_of_next {boot : κ} {X : C.Choices} {s s' : State κ N υ δ} {v : Move κ}
    {x : κ × Event N} (hs : Safe C s) (h : s.next boot X v = some (x, s')) :
    Step boot C s x s' := by
  cases v with
  | go c ok n =>
    simp only [State.next] at h
    split at h
    case h_1 l k hctl =>
      split_ifs at h with hfree
      cases h
      exact .acquire hctl hfree
    case h_2 l k hctl =>
      split_ifs at h with hheld
      cases h
      exact .release hctl hheld
    case h_3 u k hctl =>
      obtain ⟨p, hp, h⟩ := Option.bind_eq_some_iff.1 h
      obtain ⟨⟨d, k'⟩, hpick, h⟩ := Option.map_eq_some_iff.1 h
      cases h
      exact .user hctl hp (X.sem_of_pick p u _ n d k' hpick)
    case h_4 p prev k hctl =>
      obtain ⟨⟨q, b⟩, hq, h⟩ := Option.map_eq_some_iff.1 h
      cases h
      exact .account hctl hq
    case h_5 p k hctl =>
      split_ifs at h with hst
      cases h
      exact .sched hctl ((hs.cpu c).disc hctl (by simp)).2.1 hst
    case h_6 level p k hctl =>
      split_ifs at h with hel
      · cases h
        exact .dispatch hctl hel
      · cases h
        have he : exec C (c = boot) (s.cpu c).proc ok s.mem (.scanTest level p) =
            some (s.mem, [.release (.proc p), .scan level (p + 1)], .tau) := if_neg hel
        exact .exec hctl he
    case h_7 i k _ _ _ _ _ _ hctl =>
      obtain ⟨⟨m, k', e⟩, he, h⟩ := Option.map_eq_some_iff.1 h
      cases h
      exact .exec hctl he
    case h_8 => cases h
  | clock c =>
    simp only [State.next] at h
    split_ifs at h with hintr
    cases h
    have hfree : s.held c = ∅ ∧ .trapRet ∉ (s.cpu c).ctl := by
      generalize hctl : (s.cpu c).ctl = k₀ at hintr
      unfold Client.Choices.interruptible at hintr
      split at hintr
      · rename_i u k
        rw [Bool.and_eq_true, List.all_eq_true] at hintr
        obtain ⟨p, -, hL⟩ := (hs.cpu c).disc hctl (by simp)
        refine ⟨hL.trans (X.locks_of_free p u hintr.1), fun hret => ?_⟩
        rcases List.mem_cons.1 hret with hret | hret
        · cases hret
        · cases hintr.2 _ hret
      · cases hintr
    exact .clock hfree.1 hfree.2

/-- **What `play` computes is a run**, whose steps meet a condition that `ok` tests. -/
theorem run_of_play {boot : κ} {start : δ → Prop} {X : C.Choices} (hC : C.Disciplined)
    {R : State κ N υ δ → κ × Event N → Prop} {ok : State κ N υ δ → κ × Event N → Bool}
    (hok : ∀ s x, ok s x = true → R s x) {s s' : State κ N υ δ} {h h' : List (κ × Event N)}
    {vs : List (Move κ)} (r : ((kernel boot C start).restrict R).Run h s)
    (hplay : s.play boot X ok h vs = some (h', s')) :
    ((kernel boot C start).restrict R).Run h' s' := by
  induction vs generalizing h s with
  | nil =>
    cases hplay
    exact r
  | cons v vs ih =>
    obtain ⟨⟨x, s₁⟩, hnext, hplay⟩ := Option.bind_eq_some_iff.1 hplay
    dsimp only at hplay
    split_ifs at hplay with hx
    have hsafe := safe_of_reachable hC ⟨h, r.of_restrict⟩
    exact ih (r.step ⟨step_of_next hsafe hnext, hok s x hx⟩) hplay

/-- What holds of the history and the state that the moves lead to from the boot holds of a run whose
steps meet the condition. -/
theorem exists_run_of_play_restrict {boot : κ} {start : δ → Prop} {X : C.Choices} {d : δ}
    {v : List (Move κ)} {P : List (κ × Event N) → State κ N υ δ → Prop}
    [∀ h s, Decidable (P h s)] {R : State κ N υ δ → κ × Event N → Prop}
    (ok : State κ N υ δ → κ × Event N → Bool) (hok : ∀ s x, ok s x = true → R s x)
    (hC : C.Disciplined) (hd : start d)
    (hP : ((bootState κ C d).play boot X ok [] v).any (fun x => P x.1 x.2)) :
    ∃ h s, ((kernel boot C start).restrict R).Run h s ∧ P h s := by
  obtain ⟨⟨h, s⟩, hplay, hP⟩ := (Option.any_eq_true ..).1 hP
  exact ⟨h, s, run_of_play hC hok (.init ⟨boot_bootState .., hd⟩) hplay, of_decide_eq_true hP⟩

/-- The same for any steps. -/
theorem exists_run_of_play {boot : κ} {start : δ → Prop} {X : C.Choices} {d : δ}
    {v : List (Move κ)} {P : List (κ × Event N) → State κ N υ δ → Prop}
    [∀ h s, Decidable (P h s)] (hC : C.Disciplined) (hd : start d)
    (hP : ((bootState κ C d).play boot X (fun _ _ => true) [] v).any (fun x => P x.1 x.2)) :
    ∃ h s, (kernel boot C start).Run h s ∧ P h s := by
  obtain ⟨h, s, r, hP⟩ := exists_run_of_play_restrict (R := fun _ _ => True) _
    (fun _ _ _ => trivial) hC hd hP
  exact ⟨h, s, r.of_restrict, hP⟩

/-! ## The process system calls -/

/-- The choices of the processes that make the system calls of sysproc.c: at `syscall` the number is
the call (0 `fork`, 1 `wait`, 2 `pause`, 3 `exit(0)`, and `kill(pid)` for `pid + 4`). -/
def Sysproc.pick : SysPoint → ℕ → Option (List (Instr N SysPoint))
  | .user, 0 => some [.user .user]
  | .user, _ => some [.killed .exit .syscall]
  | .syscall, 0 => some [.kfork, .user .ret]
  | .syscall, 1 => some [.kwait, .user .ret]
  | .syscall, 2 => some [.acquire .ticksLock, .user .pause]
  | .syscall, 3 => some [.kexit 0]
  | .syscall, pid + 4 => some [.kkill pid 0, .user .ret]
  | .fault, _ => some [.setkilled, .user .ret]
  | .pause, 0 => some [.user .pauseEnd]
  | .pause, _ => some [.killed .pauseEnd .pauseSleep]
  | .pauseSleep, _ => some [.sleep .ticks .ticksLock, .user .pause]
  | .pauseEnd, _ => some [.release .ticksLock, .user .ret]
  | .ret, _ => some [.killed .exit .user]
  | .exit, _ => some [.kexit (-1)]

omit [NeZero N] in
theorem Sysproc.of_pick {u : SysPoint} {n : ℕ} {k : List (Instr N SysPoint)}
    (h : pick u n = some k) : Sysproc u k := by
  unfold pick at h
  split at h <;> cases h <;> constructor

/-- The choices of `sysproc`. -/
def sysprocChoices : (sysproc : Client N SysPoint Unit).Choices where
  pick _ u _ n := (Sysproc.pick u n).map fun k => ((), k)
  free
    | .pause | .pauseSleep | .pauseEnd => false
    | _ => true
  sem_of_pick p u d n d' k h := by
    obtain ⟨k', hk, h⟩ := Option.map_eq_some_iff.1 h
    cases h
    exact Sysproc.of_pick hk
  locks_of_free p u h := by
    cases u <;> first | rfl | cases h

end Xv6.Kernel
