import Xv6.Kernel.Family
import Xv6.Kernel.Kwait
import Xv6.Kernel.Simulate

/-!
# The killed flag

`kkill(pid)` sets `killed` in the slot with that pid, whatever the state of the slot, and every free
slot has the pid 0: `kkill(0)` marks a free slot, which is then `killed` when `allocproc` hands it
out, since only `freeproc` clears the flag. In the runs in which no `kkill(0)` comes to a free slot
(`SparesFree`) the flag belongs to one process (`killed_flag`): a process is killed only if `kkill`
has found it or it has called `setkilled` since `allocproc`, a free slot is not killed, and `kkill`
finds the processes with its pid and no others.
-/

namespace Xv6.Kernel

variable {κ : Type} {N : ℕ} {υ δ : Type} {C : Client N υ δ}

/-! ## Who has asked for a kill -/

/-- `kkill` has found the process in slot `p`, or it has called `setkilled`, since `allocproc`
initialised the slot. -/
def asked : List (κ × Event N) → Fin N → Bool
  | [], _ => false
  | (_, .kill q) :: h, p | (_, .setkilled q) :: h, p => if q = p then true else asked h p
  | (_, .alloc q) :: h, p => if q = p then false else asked h p
  | _ :: h, p => asked h p

/-- The event changes `asked`. -/
def Event.Asks (p : Fin N) : Event N → Prop
  | .kill q | .setkilled q | .alloc q => q = p
  | _ => False

theorem asked_of_not_asks {c : κ} {e : Event N} {h : List (κ × Event N)} {p : Fin N}
    (he : ¬e.Asks p) : asked ((c, e) :: h) p = asked h p := by
  cases e <;> first | rfl | exact if_neg he

/-- A step is not that of a `kkill(0)` that comes to a free slot. -/
def SparesFree (s : State κ N υ δ) (x : κ × Event N) : Prop :=
  ∀ p k, (s.cpu x.1).ctl = .kkillVisit 0 p :: k → (s.mem.proc p).state ≠ .unused

/-! ## The pids of free slots -/

section Step

variable [DecidableEq κ] [NeZero N] {boot : κ} {start : δ → Prop} {s s' : State κ N υ δ} {c : κ}
  {e : Event N}

/-- A slot in the hands of `allocproc` stays there, or is in use, or is freed. -/
theorem Step.of_given (hs : Safe C s) (t : Step boot C s (c, e) s') {p j : Fin N}
    (hp : (s.cpu c).who = some p) (hb : Allocs (some (j, true)) (s.cpu c).ctl)
    (hst : (s.mem.proc j).state = .unused) :
    (s'.cpu c).who = some p ∧ Allocs (some (j, true)) (s'.cpu c).ctl ∨
      (s'.mem.proc j).state ≠ .unused ∨ (s'.mem.proc j).pid = 0 := by
  have hl := hb.held ((hs.cpu c).disc_of_who hp)
  generalize hk : (s.cpu c).ctl = k₀ at hb
  cases t with
  | acquire hctl | user hctl | dispatch hctl | account hctl | sched hctl =>
    rw [hctl] at hk
    subst hk
    cases hb
  | release hctl =>
    rw [hctl] at hk
    subst hk
    left
    rw [State.setHolder, State.setCtl, State.setCpu_self]
    cases hb with
    | release h => exact ⟨hp, .init h⟩
  | exec hctl he =>
    rw [hctl] at hk
    subst hk
    right
    cases hb with
    | release => cases he
    | init =>
      simp only [Kernel.exec] at he
      rw [if_pos hst] at he
      rw [State.setMem_mem]
      split_ifs at he <;> cases he <;> rw [Mem.set_proc, if_pos rfl]
      · exact .inl (by simp [Proc.init])
      · exact .inr rfl
  | clock hheld | device _ _ hheld =>
    rw [hheld] at hl
    exact absurd hl (Set.notMem_empty _)

/-- `allocpid` is called by `allocproc`. -/
theorem Step.of_allocpid (hs : Safe C s) (ha : AllocOk s) (t : Step boot C s (c, e) s') {j : Fin N}
    {n : ℤ} (he : e = .allocpid j n) :
    ∃ p, (s'.cpu c).who = some p ∧ Allocs (some (j, true)) (s'.cpu c).ctl := by
  generalize hx : (c, e) = x at t
  cases t with
  | acquire | release | user | dispatch | sched | clock | device =>
    cases hx
    cases he
  | @account _ _ _ _ b =>
    cases hx
    cases b <;> cases he
  | @exec _ i k ok m k' e' hctl hexec =>
    cases hx
    subst he
    have hslot := exec_slotChange hexec j
    rw [State.setMem_cpu, State.setCtl, State.setCpu_self]
    have hi : i = .allocpid j := by
      generalize (m.proc j).slot = b at hslot
      cases hslot with
      | same he => exact absurd rfl he
      | allocpid hi => exact hi
      | yield _ he | sleep _ he | clearChan _ he | wake _ _ _ he | kill _ _ he | setkilled _ he
      | orphan _ _ he | exit _ he | reap _ _ he | alloc _ _ he | abort _ he | adopt _ he
      | start _ he => cases he
    subst hi
    obtain ⟨-, hme, -⟩ := (hs.cpu c).disc hctl (by simp)
    obtain ⟨p, hp⟩ := Option.ne_none_iff_exists'.1 hme
    have hwho := ((hs.cpu c).who_eq_proc hctl (by simp)).trans hp
    obtain ⟨b, hb, -⟩ := ha.ctl c p hwho
    rw [hctl] at hb
    cases hexec
    refine ⟨p, hwho, ?_⟩
    cases hb with
    | away h => exact absurd trivial (h (.allocpid j) (List.mem_cons_self ..))
    | allocpid h => exact .release h

/-- A free slot has no pid, but for the one that `allocproc` is about to initialise. -/
def FreeOk (s : State κ N υ δ) : Prop :=
  ∀ j, (s.mem.proc j).state = .unused → (s.mem.proc j).pid ≠ 0 →
    ∃ c p, (s.cpu c).who = some p ∧ Allocs (some (j, true)) (s.cpu c).ctl

theorem FreeOk.step (hs : Safe C s) (ha : AllocOk s) (h : FreeOk s)
    (t : Step boot C s (c, e) s') : FreeOk s' := by
  intro j hst hpid
  have hpid' : (s'.mem.proc j).slot.pid ≠ 0 := hpid
  rcases (t.slot hs j).pid with hsame | hfree | ⟨n, he, hslot⟩
  · -- the slot was free before
    have hst₀ : (s.mem.proc j).state = .unused := by
      by_contra hne
      have hj := t.slot hs j
      have hst' : (s'.mem.proc j).slot.state = .unused := hst
      generalize (s'.mem.proc j).slot = b at hj hsame hst' hpid'
      cases hj with
      | same => exact hne hst'
      | run => cases hst'
      | exec _ _ _ hj =>
        cases hj with
        | same | clearChan | setkilled | orphan | allocpid | adopt => exact hne hst'
        | yield | sleep | wake | exit | alloc | start => cases hst'
        | kill =>
          have hst'' : (if (s.mem.proc j).state = .sleeping then ProcState.runnable
            else (s.mem.proc j).state) = .unused := hst'
          split_ifs at hst''
          exact hne hst''
        | reap | abort => exact hpid' rfl
    have hpid₀ : (s.mem.proc j).pid ≠ 0 := by
      rw [← hsame]
      exact hpid'
    obtain ⟨c₁, p, hp, hb⟩ := h j hst₀ hpid₀
    by_cases hc : c₁ = c
    · subst hc
      rcases t.of_given hs hp hb hst₀ with ⟨hp', hb'⟩ | hne | hzero
      · exact ⟨c₁, p, hp', hb'⟩
      · exact absurd hst hne
      · exact absurd hzero hpid
    · refine ⟨c₁, p, ?_, ?_⟩ <;> rwa [t.cpu_of_ne hc]
  · exact absurd (congrArg Slot.pid hfree) hpid
  · obtain ⟨p, hp, hb⟩ := t.of_allocpid hs ha he
    exact ⟨c, p, hp, hb⟩

theorem freeOk_of_reachable (hC : C.Disciplined) (hs : (kernel boot C start).Reachable s) :
    FreeOk s := by
  refine LTS.Reachable.invariant (fun s hs => ?_) (fun s e s' hs h t => ?_) hs
  · intro j hst hpid
    by_cases hj : j = 0
    · subst hj
      rw [hs.1.initproc] at hst
      cases hst
    · rw [hs.1.unused j hj] at hpid
      exact absurd rfl hpid
  · exact h.step (safe_of_reachable hC hs) (allocOk_of_reachable hC hs) t

omit [DecidableEq κ] [NeZero N] in
/-- A `kkill` that finds a free slot looks for the pid 0. -/
theorem FreeOk.pid_of_visit (hs : Safe C s) (h : FreeOk s) {pid : ℤ} {j : Fin N}
    {k : List (Instr N υ)} (hctl : (s.cpu c).ctl = .kkillVisit pid j :: k)
    (hpid : (s.mem.proc j).pid = pid) (hst : (s.mem.proc j).state = .unused) : pid = 0 := by
  by_contra hne
  obtain ⟨c₁, p, hp, hb⟩ := h j hst (by rwa [hpid])
  have hl := hb.held ((hs.cpu c₁).disc_of_who hp)
  have hl' := ((hs.cpu c).disc hctl (by simp)).1
  obtain rfl : c₁ = c := Option.some_inj.1 (hl.symm.trans hl')
  rw [hctl] at hb
  cases hb

/-! ## The flag -/

/-- A killed process has been asked to die, and a free slot is not killed. -/
structure KillOk (h : List (κ × Event N)) (s : State κ N υ δ) : Prop where
  unused : ∀ p, (s.mem.proc p).state = .unused → (s.mem.proc p).killed = false
  asked : ∀ p, (s.mem.proc p).killed = true → asked h p = true

/-- What `KillOk` says of a slot. -/
def Slot.Innocent (a : Slot N) (asked : Bool) : Prop :=
  (a.state = .unused → a.killed = false) ∧ (a.killed = true → asked = true)

omit [DecidableEq κ] in
theorem StepSlot.innocent {h : List (κ × Event N)} (hs : Safe C s) (hf : FreeOk s)
    (hspare : SparesFree s (c, e)) {j : Fin N} {b : Slot N} (hb : StepSlot C s c e j b)
    (hj : (s.mem.proc j).slot.Innocent (asked h j)) :
    b.Innocent (asked ((c, e) :: h) j) := by
  have hkeep : ¬e.Asks j → asked ((c, e) :: h) j = asked h j := asked_of_not_asks
  cases hb with
  | same he =>
    have he' : ¬e.Asks j := by cases e <;> first | exact id | exact he
    rwa [hkeep he']
  | run _ _ he =>
    have he' : ¬e.Asks j := by cases e <;> first | exact id | exact he
    rw [hkeep he']
    exact ⟨nofun, hj.2⟩
  | @exec i k b hctl hd hwho hb =>
    cases hb with
    | same he =>
      have he' : ¬e.Asks j := by cases e <;> first | exact id | exact he
      rwa [hkeep he']
    | yield _ he | sleep _ he | wake _ _ _ he | exit _ he | start _ he =>
      rw [hkeep (by subst he; exact id)]
      exact ⟨nofun, hj.2⟩
    | clearChan _ he | orphan _ _ he | allocpid _ he | adopt _ he =>
      rw [hkeep (by subst he; exact id)]
      exact hj
    | @kill pid hi hpid he =>
      subst hi he
      refine ⟨fun hst => ?_, fun _ => if_pos rfl⟩
      -- the slot was not free
      have hst' : (if (s.mem.proc j).state = .sleeping then ProcState.runnable
        else (s.mem.proc j).state) = .unused := hst
      split_ifs at hst'
      obtain rfl := hf.pid_of_visit hs hctl hpid hst'
      exact absurd hst' (hspare j k hctl)
    | setkilled hi he =>
      subst hi he
      refine ⟨fun hst => ?_, fun _ => if_pos rfl⟩
      -- the process is running
      exact absurd hst (hs.state_of_who (hwho.trans hd.1)).2
    | reap _ _ he | abort _ he => exact ⟨fun _ => rfl, nofun⟩
    | alloc _ hst he =>
      refine ⟨nofun, fun hk => ?_⟩
      rw [hj.1 hst] at hk
      cases hk

theorem killOk_of_run {h : List (κ × Event N)} (hC : C.Disciplined)
    (r : ((kernel boot C start).restrict SparesFree).Run h s) : KillOk h s := by
  refine LTS.Run.invariant (I := fun h s => KillOk h s) (fun s hs => ?_)
    (fun h s x s' r ih t => ?_) r
  · have hkilled : ∀ p, (s.mem.proc p).killed = false := by
      intro p
      by_cases hp : p = 0
      · subst hp
        rw [hs.1.initproc]
        rfl
      · rw [hs.1.unused p hp]
        rfl
    refine ⟨fun p _ => hkilled p, fun p hp => ?_⟩
    rw [hkilled p] at hp
    cases hp
  · obtain ⟨c, e⟩ := x
    obtain ⟨t, hspare⟩ := t
    have hreach : (kernel boot C start).Reachable s := ⟨h, r.of_restrict⟩
    have hs := safe_of_reachable hC hreach
    have hj : ∀ j, (s'.mem.proc j).slot.Innocent (asked ((c, e) :: h) j) := fun j =>
      (Step.slot hs t j).innocent hs (freeOk_of_reachable hC hreach) hspare
        ⟨ih.unused j, ih.asked j⟩
    exact ⟨fun j => (hj j).1, fun j => (hj j).2⟩

/-! ## The result of `kkill` -/

/-- `kkill(pid)` has passed the slots before `n`; what comes after the call is `k`. While it holds
no lock it may be interrupted. -/
inductive Kkills (pid : ℤ) (k : List (Instr N υ)) : ℕ → List (Instr N υ) → Prop
  | loop {pre n} (hpre : ∀ i ∈ pre, i.Trap) : Kkills pid k n (pre ++ .kkill pid n :: k)
  | locking {pre} {j : Fin N} (hpre : ∀ i ∈ pre, i.Trap) :
      Kkills pid k j (pre ++ .acquire (.proc j) :: .kkillVisit pid j :: k)
  | visit {j : Fin N} : Kkills pid k j (.kkillVisit pid j :: k)

/-- The process `q` is in the call of `kkill(pid)` after which comes `k`, and has passed the slots
before `n`. -/
def State.Kkills (s : State κ N υ δ) (q : Fin N) (pid : ℤ) (k : List (Instr N υ)) (n : ℕ) : Prop :=
  (s.mem.proc q).state ≠ .unused ∧ ∃ k', s.Thread q k' ∧ Kernel.Kkills pid k n k'

namespace Kkills

variable {pid : ℤ} {k k' : List (Instr N υ)} {n n' : ℕ}

omit [NeZero N] in
theorem length_lt (h : Kkills pid k n k') : k.length < k'.length := by
  cases h <;> simp <;> omega

omit [NeZero N] in
theorem ne_release {l : Lock N} (h : Kkills pid k n (.release l :: k)) : False := by
  generalize hk : Instr.release l :: k = k₀ at h
  have hlen := congrArg List.length hk
  cases h with
  | @loop pre =>
    rcases pre with - | ⟨i, pre⟩
    · cases hk
    · simp at hlen
      omega
  | locking =>
    simp at hlen
    omega
  | visit => cases hk

omit [NeZero N] in
/-- The loop has passed the slots that its index says. -/
theorem eq_of_loop (h : Kkills pid k n (.kkill pid n' :: k)) : n = n' := by
  generalize hk : Instr.kkill pid n' :: k = k₀ at h
  have hlen := congrArg List.length hk
  cases h with
  | @loop pre =>
    rcases pre with - | ⟨i, pre⟩
    · cases hk
      rfl
    · simp at hlen
      omega
  | locking =>
    simp at hlen
    omega
  | visit => cases hk

omit [NeZero N] in
/-- Code of interrupts may come in front of it when it holds no lock. -/
theorem interrupt {pre : List (Instr N υ)} {p : Fin N} (h : Kkills pid k n k')
    (hpre : ∀ i ∈ pre, i.Trap) (hd : Disc C (some p) ∅ k') : Kkills pid k n (pre ++ k') := by
  have happend : ∀ {pre' : List (Instr N υ)}, (∀ i ∈ pre', i.Trap) → ∀ i ∈ pre ++ pre', i.Trap := by
    intro pre' hpre' i hi
    rcases List.mem_append.1 hi with hi | hi
    exacts [hpre i hi, hpre' i hi]
  cases h with
  | loop hpre' =>
    rw [← List.append_assoc]
    exact .loop (happend hpre')
  | locking hpre' =>
    rw [← List.append_assoc]
    exact .locking (happend hpre')
  | visit => exact absurd hd.1 (Set.notMem_empty _)

omit [NeZero N] in
theorem not_user {u : υ} (h : Kkills pid k n (.user u :: k')) : False := by
  generalize hk : Instr.user u :: k' = k₀ at h
  cases h with
  | @loop pre _ hpre =>
    rcases pre with - | ⟨i, pre⟩
    · cases hk
    · obtain ⟨rfl, -⟩ := List.cons.inj hk
      exact hpre (.user u) (List.mem_cons_self ..)
  | @locking pre _ hpre =>
    rcases pre with - | ⟨i, pre⟩
    · cases hk
    · obtain ⟨rfl, -⟩ := List.cons.inj hk
      exact hpre (.user u) (List.mem_cons_self ..)
  | visit => cases hk

/-- An instruction of a call of `kkill`: it passes a slot with another pid, or the call is over. -/
theorem exec {i : Instr N υ} {k₀ k₁ : List (Instr N υ)} {my : Option (Fin N)} {cpu0 ok : Bool}
    {m m' : Mem N υ} (h : Kkills pid k n (i :: k₀))
    (he : Kernel.exec C cpu0 my ok m i = some (m', k₁, e)) :
    Kkills pid k n (k₁ ++ k₀) ∨
      Kkills pid k (n + 1) (k₁ ++ k₀) ∧ (∀ j : Fin N, j.val = n → (m.proc j).pid ≠ pid) ∨
      k₁ ++ k₀ = k ∨ ∃ l, k₁ ++ k₀ = .release l :: k := by
  have happend : ∀ {pre : List (Instr N υ)}, (∀ j ∈ i :: pre, j.Trap) →
      ∀ j ∈ k₁ ++ pre, j.Trap := by
    intro pre hpre j hj
    rcases List.mem_append.1 hj with hj | hj
    · exact exec_trap (hpre i (List.mem_cons_self ..)) he j hj
    · exact hpre j (List.mem_cons_of_mem _ hj)
  generalize hk : i :: k₀ = k₂ at h
  cases h with
  | @loop pre _ hpre =>
    rcases pre with - | ⟨i', pre⟩
    · obtain ⟨rfl, rfl⟩ := List.cons.inj hk
      simp only [Kernel.exec] at he
      split_ifs at he with hn <;> cases he
      · exact .inl (.locking (j := ⟨n, hn⟩) (List.forall_mem_nil _))
      · exact .inr (.inr (.inl rfl))
    · obtain ⟨rfl, rfl⟩ := List.cons.inj hk
      rw [List.append_eq, ← List.append_assoc]
      exact .inl (.loop (happend hpre))
  | @locking pre j hpre =>
    rcases pre with - | ⟨i', pre⟩
    · obtain ⟨rfl, rfl⟩ := List.cons.inj hk
      cases he
    · obtain ⟨rfl, rfl⟩ := List.cons.inj hk
      rw [List.append_eq, ← List.append_assoc]
      exact .inl (.locking (happend hpre))
  | @visit j =>
    obtain ⟨rfl, rfl⟩ := List.cons.inj hk
    simp only [Kernel.exec] at he
    split_ifs at he with hpid <;> cases he
    · exact .inr (.inr (.inr ⟨_, rfl⟩))
    · have htrap : ∀ i ∈ [(.release (.proc j) : Instr N υ)], i.Trap := by simp [Instr.Trap]
      refine .inr (.inl ⟨.loop htrap, fun i hi => ?_⟩)
      rwa [Fin.ext hi]

omit [NeZero N] in
/-- A lock operation of a call of `kkill`, or a switch to the scheduler. -/
theorem tail {i : Instr N υ} (h : Kkills pid k n (i :: k'))
    (hi : (∃ l, i = .acquire l ∨ i = .release l) ∨ ∃ q, i = .sched q) : Kkills pid k n k' := by
  generalize hk : i :: k' = k₂ at h
  cases h with
  | @loop pre _ hpre =>
    rcases pre with - | ⟨i', pre⟩
    · obtain ⟨rfl, -⟩ := List.cons.inj hk
      simp at hi
    · obtain ⟨rfl, rfl⟩ := List.cons.inj hk
      exact .loop fun j hj => hpre j (List.mem_cons_of_mem _ hj)
  | @locking pre j hpre =>
    rcases pre with - | ⟨i', pre⟩
    · obtain ⟨rfl, rfl⟩ := List.cons.inj hk
      exact .visit
    · obtain ⟨rfl, rfl⟩ := List.cons.inj hk
      exact .locking fun j hj => hpre j (List.mem_cons_of_mem _ hj)
  | visit =>
    obtain ⟨rfl, -⟩ := List.cons.inj hk
    simp at hi

end Kkills

/-- **One step of a call of `kkill`**: it passes a slot with another pid, or the call is over. -/
theorem Step.kkills (hs : Safe C s) (t : Step boot C s (c, e) s') {q : Fin N} {pid : ℤ}
    {k k₁ k₂ : List (Instr N υ)} {n : ℕ} (hq : (s.mem.proc q).state ≠ .unused)
    (hk₁ : s.Thread q k₁) (h : Kkills pid k n k₁) (hk₂ : s'.Thread q k₂) :
    Kkills pid k n k₂ ∨
      Kkills pid k (n + 1) k₂ ∧ (∀ j : Fin N, j.val = n → (s.mem.proc j).pid ≠ pid) ∨
      k₂ = k ∨ ∃ l, k₂ = .release l :: k := by
  rcases t.thread hs with ⟨p, u, k₀, d, k', hctl, hwho, -, -, -, ht⟩ | ⟨-, ht⟩
  · rcases ht q k₂ hk₂ with ⟨rfl, -⟩ | ⟨-, hk⟩
    · rw [hk₁.eq_ctl hs hwho, hctl] at h
      exact h.not_user.elim
    · rw [hk.unique hk₁ hs]
      exact .inl h
  · cases ht q k₂ hk₂ with
    | same hk =>
      rw [hk.unique hk₁ hs]
      exact .inl h
    | pop hk _ _ hi =>
      rw [← hk.unique hk₁ hs] at h
      exact .inl (h.tail (.inl hi))
    | sched hk =>
      rw [← hk.unique hk₁ hs] at h
      exact .inl (h.tail (.inr ⟨q, rfl⟩))
    | exec hk _ _ he =>
      rw [← hk.unique hk₁ hs] at h
      exact h.exec he
    | fork hst => exact absurd hst hq
    | @interrupt k₀ k' hk hwho hheld hctl hk' timer =>
      rw [hk.unique hk₁ hs] at *
      have hd := (hs.cpu c).disc_of_who hwho
      rw [hheld, hctl] at hd
      have hu : inUser C k₁ = false := by
        rw [← Bool.not_eq_true]
        intro hu
        obtain ⟨u, k'', rfl, -⟩ := exists_of_inUser hu
        exact h.not_user
      refine .inl ?_
      rw [← List.append_assoc]
      refine h.interrupt (fun i hi => ?_) hd
      rcases List.mem_append.1 hi with hi | hi
      · exact trap_of_interrupt hk' i hi
      · rw [hu] at hi
        cases timer <;> simp only [trapCode, if_true, if_false, Bool.false_eq_true, List.mem_cons,
          List.not_mem_nil, or_false] at hi
        · rw [hi]
          trivial
        · rcases hi with rfl | rfl <;> trivial

/-- A slot that has the pid all the time is not passed. -/
theorem not_passed (hC : C.Disciplined) (hs : (kernel boot C start).Reachable s) {q j : Fin N}
    {pid : ℤ} {k : List (Instr N υ)} (hq : (s.mem.proc q).state ≠ .unused)
    (hcall : s.Thread q (.kkill pid 0 :: k)) {h : List (κ × Event N)}
    (path : (kernel boot C start).Within
      (fun s => (s.mem.proc j).pid = pid ∧ ∃ n, s.Kkills q pid k n) s h s') :
    ∃ n ≤ j.val, s'.Kkills q pid k n := by
  refine LTS.Within.invariant (I := fun _ s => ∃ n ≤ j.val, s.Kkills q pid k n) hs (fun _ => ?_)
    (fun h s₁ x s₂ hs₁ hp₁ ih t hp₂ => ?_) path
  · exact ⟨0, Nat.zero_le _, hq, _, hcall, .loop (List.forall_mem_nil _)⟩
  · obtain ⟨n, hn, hq₁, k₁, hk₁, hb⟩ := ih
    obtain ⟨-, n', hq₂, k₂, hk₂, hb₂⟩ := hp₂
    rcases Step.kkills (safe_of_reachable hC hs₁) t hq₁ hk₁ hb hk₂ with
      hb' | ⟨hb', hne⟩ | rfl | ⟨l, rfl⟩
    · exact ⟨n, hn, hq₂, k₂, hk₂, hb'⟩
    · refine ⟨n + 1, Nat.lt_of_le_of_ne hn ?_, hq₂, k₂, hk₂, hb'⟩
      rintro rfl
      exact hne j rfl hp₁.1
    · exact absurd hb₂.length_lt (lt_irrefl _)
    · exact hb₂.ne_release.elim

/-! ## The theorem -/

variable (C boot start) in
/-- The flag belongs to one process, in the state `s` after the history `h` and in the steps and
calls from it. -/
structure KilledFlag (h : List (κ × Event N)) (s : State κ N υ δ) : Prop where
  /-- A killed slot is that of a process which `kkill` has found, or which has called `setkilled`,
  since its `allocproc`. -/
  asked : ∀ p, (s.mem.proc p).killed = true →
    (s.mem.proc p).state ≠ .unused ∧ asked h p = true
  /-- `kkill(pid)` returns 0 when it has found a process with this pid. -/
  found : ∀ c p s', ((kernel boot C start).restrict SparesFree).step s (c, .kill p) s' →
    (s.mem.proc p).state ≠ .unused ∧
      ∃ k, (s.cpu c).ctl = .kkillVisit (s.mem.proc p).pid p :: k
  /-- While a slot has the pid, a call of `kkill(pid)` does not come to its end and return -1. -/
  missed : ∀ c q j pid k h' s', (s.cpu c).who = some q → (s.cpu c).ctl = .kkill pid 0 :: k →
    (kernel boot C start).Within
      (fun s => (s.mem.proc j).pid = pid ∧ ∃ n, s.Kkills q pid k n) s h' s' →
    ∀ n, s'.Thread q (.kkill pid n :: k) → n < N

/-- **The killed flag belongs to one process lifetime**, in every run in which no `kkill(0)` comes
to a free slot. -/
theorem killed_flag {h : List (κ × Event N)} (hC : C.Disciplined)
    (r : ((kernel boot C start).restrict SparesFree).Run h s) : KilledFlag C boot start h s := by
  have hreach : (kernel boot C start).Reachable s := ⟨h, r.of_restrict⟩
  have hs := safe_of_reachable hC hreach
  have hkill := killOk_of_run hC r
  refine ⟨fun p hp => ⟨fun hst => ?_, hkill.asked p hp⟩, fun c p s' t => ?_,
    fun c q j pid k h' s' hq hctl path n hn => ?_⟩
  · rw [hkill.unused p hst] at hp
    cases hp
  · obtain ⟨t, hspare⟩ := t
    have hp := Step.slot hs t p
    generalize (s'.mem.proc p).slot = b at hp
    cases hp with
    | same he => exact absurd rfl he
    | run _ _ he => exact absurd rfl he
    | @exec i k _ hctl _ _ hp =>
      cases hp with
      | same he => exact absurd rfl he
      | @kill pid hi hpid =>
        subst hi
        have hpid' : (s.mem.proc p).pid = pid := hpid
        rw [hpid']
        refine ⟨fun hst => ?_, k, hctl⟩
        obtain rfl := (freeOk_of_reachable hC hreach).pid_of_visit hs hctl hpid' hst
        exact hspare p k hctl hst
      | yield _ he | sleep _ he | clearChan _ he | wake _ _ _ he | setkilled _ he
      | orphan _ _ he | exit _ he | reap _ _ he | allocpid _ he | alloc _ _ he | abort _ he
      | adopt _ he | start _ he => cases he
  · obtain ⟨m, hm, -, k', hk', hb⟩ := not_passed hC hreach (hs.state_of_who hq).2
      (.inl ⟨c, hq, hctl.symm⟩) path
    rw [hk'.unique hn (safe_of_reachable hC (path.reachable hreach))] at hb
    rw [← hb.eq_of_loop]
    exact lt_of_le_of_lt hm j.isLt

end Step

/-- The test of `SparesFree`. -/
def sparesFree (s : State κ N υ δ) (x : κ × Event N) : Bool :=
  match (s.cpu x.1).ctl with
  | .kkillVisit pid p :: _ => pid = 0 → (s.mem.proc p).state ≠ .unused
  | _ => true

theorem of_sparesFree {s : State κ N υ δ} {x : κ × Event N} (h : sparesFree s x = true) :
    SparesFree s x := by
  intro p k hctl
  rw [sparesFree, hctl] at h
  exact of_decide_eq_true h rfl

/-- The first process has forked a child, with the pid 2, and kills it. -/
theorem killed_flag_child :
    ∃ h s, ((kernel (0 : Fin 8) (sysproc (N := NPROC)) fun _ => True).restrict SparesFree).Run h s ∧
      (s.mem.proc 1).killed = true ∧ (s.mem.proc 1).state ≠ .unused ∧ asked h 1 = true := by
  obtain ⟨h, s, r, hkilled⟩ : ∃ h s,
      ((kernel (0 : Fin 8) (sysproc (N := NPROC)) fun _ => True).restrict SparesFree).Run h s ∧
        (s.mem.proc 1).killed = true := by
    refine exists_run_of_play_restrict (X := sysprocChoices) (d := ())
      (v := ([0, 0, 0, 0, 1] ++ List.replicate 30 0 ++ [1, 0, 0, 0, 0, 6] ++
        List.replicate 8 0).map (.go 0 true)) sparesFree (fun _ _ => of_sparesFree)
      sysproc_disciplined trivial ?_
    rfl
  exact ⟨h, s, r, hkilled, (killed_flag sysproc_disciplined r).asked 1 hkilled⟩

/-- The first process calls `kill(0)`: slot 1 is free and killed, and `kkill` has returned 0 though
no process has the pid 0. -/
theorem killed_flag_fails : ∃ h s, (kernel (0 : Fin 8) (sysproc (N := NPROC)) fun _ => True).Run h s ∧
    h.head? = some (0, .kill 1) ∧ (s.mem.proc 1).state = .unused ∧ (s.mem.proc 1).killed = true ∧
      ∀ p, (s.mem.proc p).pid = 0 → (s.mem.proc p).state = .unused := by
  refine exists_run_of_play (X := sysprocChoices) (d := ()) (v := [0, 0, 0, 0, 1, 0, 0, 0, 0, 4,
    0, 0, 0, 0, 0, 0, 0].map (.go 0 true))
    sysproc_disciplined trivial ?_
  rfl

end Xv6.Kernel
