import Xv6.Kernel.Ipc
import Xv6.Kernel.Slots

/-!
# Kills and sleepers

The loops that a kill ends test `killed` before each call of `sleep`. Both take the `p->lock` of the
process, one after the other: a `kkill` that comes in between finds a process that is not SLEEPING
yet, and sets a flag that nobody tests any more. `commits` is this part of the code, from a test of
`killed` that was answered no to the store of SLEEPING. In the runs in which no `kkill` finds its
process there (`SparesCommitted`), no process sleeps in one of these loops with `killed` set
(`kill_not_lost`).

A client says which channels the loops sleep on, and at which program points a process is bound to
go to sleep (`Client.Killable`).
-/

namespace Xv6.Kernel

variable {κ : Type} {N : ℕ} {υ δ : Type}

/-! ## The way into `sleep` -/

section Code

variable (S : Chan N → Prop) (D : υ → δ → Prop)

/-- The control comes to SLEEPING on a channel of `S` without another test of `killed`. `D u d`
says that a process at the program point `u` does, when the data is `d`. -/
def commits (d : δ) : List (Instr N υ) → Prop
  | .user u :: _ => D u d
  | .sleep chan _ :: _ | .setSleeping _ chan :: _ => S chan
  | .acquire _ :: k | .release _ :: k | .wakeup _ _ :: k | .wakeupVisit _ _ :: k => commits d k
  | _ => False

/-- The instruction puts its process to sleep on a channel of `S`, or may go on, without a test of
`killed`, at a program point where the process is bound to. -/
def Instr.Sleeps : Instr N υ → Prop
  | .sleep chan _ | .setSleeping _ chan => S chan
  | .user u | .killed u _ | .killedRead _ u _ => ∃ d, D u d
  | _ => False

/-- No instruction of `k` puts its process to sleep on a channel of `S`. -/
def Awake (k : List (Instr N υ)) : Prop := ∀ i ∈ k, ¬i.Sleeps S D

/-- The control comes to `sleep` on a channel of `S`, or to a program point where it may be bound to
sleep. -/
inductive Nears : List (Instr N υ) → Prop
  | user {u k} (hu : ∃ d, D u d) (hk : Awake S D k) : Nears (.user u :: k)
  | sleep {chan lk k} (hS : S chan) (hk : Awake S D k) : Nears (.sleep chan lk :: k)
  | release {lk p chan k} (hlk : ∀ q, lk ≠ .proc q) (hS : S chan) (hk : Awake S D k) :
      Nears (.release lk :: .setSleeping p chan :: k)
  | before {i k} (hi : i.Passing) (h : Nears k) : Nears (i :: k)

/-- The control of a process, seen from its loops: elsewhere, on its way into `sleep`, or about to
be SLEEPING. -/
inductive Stands : List (Instr N υ) → Prop
  | away {k} (hk : Awake S D k) : Stands k
  | near {k} (h : Nears S D k) : Stands k
  | lying {p chan k} (hS : S chan) (hk : Awake S D k) : Stands (.setSleeping p chan :: k)

end Code

variable {S : Chan N → Prop} {D : υ → δ → Prop}

theorem Awake.append {k k' : List (Instr N υ)} (h : Awake S D k) (h' : Awake S D k') :
    Awake S D (k ++ k') := by
  intro i hi
  rcases List.mem_append.1 hi with hi | hi
  exacts [h i hi, h' i hi]

theorem Awake.tail {i : Instr N υ} {k : List (Instr N υ)} (h : Awake S D (i :: k)) :
    Awake S D k :=
  fun j hj => h j (List.mem_cons_of_mem _ hj)

theorem awake_trapCode (user timer : Bool) :
    Awake S D (trapCode user timer : List (Instr N υ)) := by
  cases user <;> cases timer <;> simp [Awake, trapCode, Instr.Sleeps]

theorem Awake.not_commits {d : δ} {k : List (Instr N υ)} (h : Awake S D k) :
    ¬commits S D d k := by
  induction k with
  | nil => exact id
  | cons i k ih =>
    cases i
    case user u => exact fun hu => h (.user u) (List.mem_cons_self ..) ⟨d, hu⟩
    case sleep chan lk => exact h (.sleep chan lk) (List.mem_cons_self ..)
    case setSleeping p chan => exact h (.setSleeping p chan) (List.mem_cons_self ..)
    case acquire | release | wakeup | wakeupVisit => exact ih h.tail
    all_goals exact id

/-- What a process does on its way does not matter. -/
theorem commits_append {d : δ} {k k' : List (Instr N υ)} (h : ∀ i ∈ k', i.Passing) :
    commits S D d (k' ++ k) ↔ commits S D d k := by
  induction k' with
  | nil => exact Iff.rfl
  | cons i k' ih =>
    have hi := h i (List.mem_cons_self ..)
    have hrec := ih fun j hj => h j (List.mem_cons_of_mem _ hj)
    cases i
    case acquire | release | wakeup | wakeupVisit => exact hrec
    all_goals exact hi.elim

namespace Nears

variable {k k' : List (Instr N υ)}

theorem append (h : Nears S D k) (hk' : Awake S D k') : Nears S D (k ++ k') := by
  induction h with
  | user hu hk => exact .user hu (hk.append hk')
  | sleep hS hk => exact .sleep hS (hk.append hk')
  | release hlk hS hk => exact .release hlk hS (hk.append hk')
  | before hi _ ih => exact .before hi ih

theorem of_passing (h : Nears S D k) (hk' : ∀ i ∈ k', i.Passing) : Nears S D (k' ++ k) := by
  induction k' with
  | nil => exact h
  | cons i k' ih =>
    exact .before (hk' i (List.mem_cons_self ..)) (ih fun j hj => hk' j (List.mem_cons_of_mem _ hj))

end Nears

theorem Stands.of_sched {p : Fin N} {k : List (Instr N υ)} (h : Stands S D (.sched p :: k)) :
    Awake S D k := by
  cases h with
  | away hk => exact hk.tail
  | near hk =>
    cases hk with
    | before hi => exact hi.elim

theorem Stands.of_user {u : υ} {k : List (Instr N υ)} (h : Stands S D (.user u :: k)) :
    Awake S D k := by
  cases h with
  | away hk => exact hk.tail
  | near hk =>
    cases hk with
    | user _ hk => exact hk
    | before hi => exact hi.elim

/-! ## Clients with loops that a kill ends -/

/-- What a client must do about the channels `S` of its loops; `D u d` says that a process at the
program point `u` is bound to go to sleep on one of them when the data is `d`. -/
structure Client.Killable (C : Client N υ δ) (S : Chan N → Prop) (D : υ → δ → Prop) : Prop where
  /-- It goes to sleep only when it is bound to, and it comes to be so only after a test of
  `killed`. -/
  loop : ∀ p u d d' k, C.sem p u d d' k → Awake S D k ∨ Nears S D k ∧ D u d
  /-- Where it may be bound to go to sleep it holds a lock. -/
  locks : ∀ p u d, D u d → ∃ l ∈ C.locks p u, ∀ q, l ≠ .proc q
  /-- Who changes the data, so that another is bound to go to sleep, holds a lock of the other. -/
  change : ∀ p q u u' d d' k, C.sem p u d d' k → D u' d' → D u' d ∨
    ∃ l ∈ C.locks p u, l ∈ C.locks q u' ∧ ∀ r, l ≠ .proc r
  start : ∀ d, ¬D C.start d
  killed : ∀ d, ¬D C.killed d

section Code

variable {C : Client N υ δ} {p : Fin N} {L : Set (Lock N)} {i : Instr N υ}
  {k k' : List (Instr N υ)}

theorem awake_forkret (hC : C.Killable S D) (p : Fin N) : Awake S D (forkretCode C p) := by
  simpa [Awake, forkretCode, Instr.Sleeps] using hC.start

/-- A process on its way into `sleep` holds a lock other than the `p->lock`s. -/
theorem Nears.held (hC : C.Killable S D) (h : Nears S D k) (hd : Disc C (some p) L k) :
    ∃ l ∈ L, ∀ q, l ≠ .proc q := by
  induction h generalizing L with
  | user hu =>
    obtain ⟨d, hu⟩ := hu
    obtain ⟨q, -, rfl⟩ := hd
    exact hC.locks q _ d hu
  | @sleep chan lk =>
    obtain ⟨-, hlk, rfl, -⟩ := hd
    exact ⟨lk, rfl, hlk⟩
  | release hlk => exact ⟨_, hd.1, hlk⟩
  | @before i k hi _ ih =>
    cases i
    case acquire l =>
      obtain ⟨l', hl', hne⟩ := ih hd.2
      refine ⟨l', hl'.resolve_left ?_, hne⟩
      rintro rfl
      cases l' <;> first | exact hi.elim | exact hne _ rfl
    case release l =>
      obtain ⟨l', hl', hne⟩ := ih hd.2
      exact ⟨l', hl'.1, hne⟩
    case wakeup => exact ih hd.2
    case wakeupVisit => exact ih hd.2.2
    all_goals exact hi.elim

/-- A process that is bound to go to sleep after a change of the data was so before, or holds a lock
of the process that makes the change. -/
theorem Nears.commits_of_change (hC : C.Killable S D) (h : Nears S D k)
    (hd : Disc C (some p) L k) {q : Fin N} {u : υ} {d d' : δ} {k₁ : List (Instr N υ)}
    (hsem : C.sem q u d d' k₁) (hk : commits S D d' k) :
    commits S D d k ∨ ∃ l ∈ C.locks q u, l ∈ L ∧ ∀ r, l ≠ .proc r := by
  induction h generalizing L with
  | user hu =>
    obtain ⟨r, -, rfl⟩ := hd
    exact hC.change q r u _ d d' k₁ hsem hk
  | sleep | release => exact .inl hk
  | @before i k hi h ih =>
    cases i
    case acquire l =>
      refine (ih hd.2 hk).imp_right fun ⟨l', hl, hl', hne⟩ => ⟨l', hl, hl'.resolve_left ?_, hne⟩
      rintro rfl
      cases l' <;> first | exact hi.elim | exact hne _ rfl
    case release l =>
      exact (ih hd.2 hk).imp_right fun ⟨l', hl, hl', hne⟩ => ⟨l', hl, hl'.1, hne⟩
    case wakeup => exact ih hd.2 hk
    case wakeupVisit => exact ih hd.2.2 hk
    all_goals exact hi.elim

/-- An instruction of a process that is elsewhere; it may be the test of `killed`, answered no. -/
theorem Awake.exec [NeZero N] {cpu0 ok : Bool} {m m' : Mem N υ} {e : Event N}
    (hC : C.Killable S D) (h : Awake S D (i :: k)) (hd : Disc C (some p) L (i :: k))
    (he : exec C cpu0 (some p) ok m i = some (m', k', e)) :
    Awake S D (k' ++ k) ∨ Nears S D (k' ++ k) ∧ m' = m ∧ (m.proc p).killed = false := by
  have hi := h i (List.mem_cons_self ..)
  have hk := h.tail
  suffices hk' : Awake S D k' ∨ Nears S D k' ∧ m' = m ∧ (m.proc p).killed = false by
    rcases hk' with hk' | ⟨hk', hm⟩
    exacts [.inl (hk'.append hk), .inr ⟨hk'.append hk, hm⟩]
  cases i
  case killedRead q yes no =>
    obtain ⟨hq, -⟩ := hd
    cases hq
    cases he
    cases hkilled : (m.proc p).killed
    · by_cases hno : ∃ d, D no d
      · exact .inr ⟨.before (i := .release (.proc p)) trivial (.user hno (by simp [Awake])), rfl, rfl⟩
      · exact .inl (by simpa [Awake, Instr.Sleeps] using hno)
    · exact .inl (by simpa [Awake, Instr.Sleeps] using hi)
  case kwaitKilled q =>
    obtain ⟨hq, -⟩ := hd
    cases hq
    simp only [Kernel.exec] at he
    split_ifs at he with hkilled <;> cases he
    · exact .inl (by simp [Awake, Instr.Sleeps])
    · by_cases hS : S (.proc p)
      · refine .inr ⟨.before (i := .release (.proc p)) trivial (.sleep hS ?_), rfl,
            by simpa using hkilled⟩
        simp [Awake, Instr.Sleeps]
      · exact .inl (by simpa [Awake, Instr.Sleeps] using hS)
  case sleep chan lk =>
    cases he
    exact .inl (by simpa [Awake, sleepCode, Instr.Sleeps] using hi)
  case trapKilled =>
    cases he
    have hnot := hC.killed
    left
    unfold Awake
    grind [Instr.Sleeps]
  case kexit =>
    simp only [Kernel.exec, Option.bind_some] at he
    split_ifs at he
    cases he
    exact .inl (by simp [Awake, kexitCode, Instr.Sleeps])
  case forkCopy =>
    simp only [Kernel.exec] at he
    split_ifs at he <;> cases he <;> exact .inl (by simp [Awake, forkCode, Instr.Sleeps])
  case clockintr =>
    cases he
    cases cpu0 <;> exact .inl (by simp [Awake, clockintrCode, Instr.Sleeps])
  all_goals
    left
    unfold Awake
    grind [Kernel.exec, yieldCode, wakeupCode, Instr.Sleeps]

/-- An instruction of a process on its way into `sleep`. -/
theorem Nears.exec [NeZero N] {cpu0 ok : Bool} {m m' : Mem N υ} {e : Event N}
    (h : Nears S D (i :: k)) (hd : Disc C (some p) L (i :: k))
    (he : exec C cpu0 (some p) ok m i = some (m', k', e)) :
    Nears S D (k' ++ k) ∧ ∀ d, commits S D d (k' ++ k) → commits S D d (i :: k) := by
  generalize hk₀ : i :: k = k₀ at h
  cases h with
  | user | release =>
    cases hk₀
    cases he
  | @sleep chan lk _ hS hk =>
    cases hk₀
    cases he
    refine ⟨.before (i := .acquire (.proc p)) trivial (.release hd.2.1 hS ?_), fun _ _ => hS⟩
    exact Awake.append (k := [.sched p, .clearChan p, .release (.proc p), .acquire lk])
      (by simp [Awake, Instr.Sleeps]) hk
  | before hi h =>
    cases hk₀
    cases i
    case acquire | release => cases he
    case wakeup chan j =>
      cases he
      have hpass := @wakeupCode_passing N υ (some p) chan j
      exact ⟨h.of_passing hpass, fun d => (commits_append hpass).1⟩
    case wakeupVisit =>
      cases he
      exact ⟨h, fun _ => id⟩
    all_goals exact hi.elim

end Code

/-! ## The invariant -/

/-- A process that has decided to go to sleep in one of the loops, or does sleep there, has not been
killed. -/
structure KillWaitOk (S : Chan N → Prop) (D : υ → δ → Prop) (s : State κ N υ δ) : Prop where
  thread : ∀ p k, s.Thread p k →
    Stands S D k ∧ (commits S D s.user k → (s.mem.proc p).killed = false)
  saved : ∀ p, Awake S D (s.mem.proc p).context
  asleep : ∀ p, (s.mem.proc p).state = .sleeping → S (s.mem.proc p).chan →
    (s.mem.proc p).killed = false

/-- A step is not that of a `kkill` that finds a process which has decided to go to sleep in one of
the loops and is not SLEEPING yet. -/
def SparesCommitted (S : Chan N → Prop) (D : υ → δ → Prop) (s : State κ N υ δ)
    (x : κ × Event N) : Prop :=
  ∀ p pid k k', (s.cpu x.1).ctl = .kkillVisit pid p :: k → (s.mem.proc p).pid = pid →
    s.Thread p k' → ¬commits S D s.user k'

section Step

variable [DecidableEq κ] [NeZero N] {boot : κ} {C : Client N υ δ} {s s' : State κ N υ δ} {c : κ}
  {e : Event N}

omit [DecidableEq κ] in
/-- A process that is killed after a step was so before, or `kkill` has just found it, or it has
called `setkilled`. -/
theorem StepSlot.killed {j : Fin N} {b : Slot N} (h : StepSlot C s c e j b)
    (hb : b.killed = true) :
    (s.mem.proc j).killed = true ∨
      (∃ pid k, (s.cpu c).ctl = .kkillVisit pid j :: k ∧ (s.mem.proc j).pid = pid ∧
        b.state ≠ .sleeping) ∨
      ∃ k, (s.cpu c).who = some j ∧ (s.cpu c).ctl = .setkilledVisit j :: k := by
  cases h with
  | same | run => exact .inl hb
  | @exec i k b hctl hd hwho h =>
    cases h with
    | same | yield | sleep | clearChan | wake | orphan | exit | allocpid | alloc | adopt | start =>
      exact .inl hb
    | kill hi hpid =>
      subst hi
      refine .inr (.inl ⟨_, k, hctl, hpid, ?_⟩)
      dsimp only
      split_ifs with hst
      exacts [nofun, hst]
    | setkilled hi =>
      subst hi
      exact .inr (.inr ⟨k, hwho.trans hd.1, hctl⟩)
    | reap | abort => cases hb

namespace KillWaitOk

omit [DecidableEq κ] [NeZero N] in
/-- A process on a CPU without locks is elsewhere. -/
theorem awake_of_free (hs : Safe C s) (hC : C.Killable S D) (h : KillWaitOk S D s) {p : Fin N}
    (hwho : (s.cpu c).who = some p) (hheld : s.held c = ∅) : Awake S D (s.cpu c).ctl := by
  have hd := (hs.cpu c).disc_of_who hwho
  rw [hheld] at hd
  obtain ⟨hst, -⟩ := h.thread p _ (.inl ⟨c, hwho, rfl⟩)
  generalize (s.cpu c).ctl = k at hd hst
  cases hst with
  | away hk => exact hk
  | near hk =>
    obtain ⟨l, hl, -⟩ := hk.held hC hd
    exact absurd hl (Set.notMem_empty _)
  | lying => exact absurd hd.2.1.symm (Set.singleton_ne_empty _)

omit [DecidableEq κ] in
/-- The thread of a process after a step that is not one of the client. -/
theorem of_threadStep (hs : Safe C s) (hC : C.Killable S D) (h : KillWaitOk S D s) {p : Fin N}
    {k : List (Instr N υ)} (ht : ThreadStep C s s' c e p k) :
    Stands S D k ∧ (commits S D s.user k →
      (∃ k₀, s.Thread p k₀ ∧ commits S D s.user k₀) ∨
        s'.mem = s.mem ∧ (s.mem.proc p).killed = false) := by
  cases ht with
  | same hk _ => exact ⟨(h.thread p k hk).1, fun hcom => .inl ⟨k, hk, hcom⟩⟩
  | @pop i k hk hwho hctl hi =>
    have hst := (h.thread p _ hk).1
    have hcom : commits S D s.user k → commits S D s.user (i :: k) := by
      obtain ⟨l, rfl | rfl⟩ := hi <;> exact id
    refine ⟨?_, fun hk' => .inl ⟨_, hk, hcom hk'⟩⟩
    generalize hk₀ : i :: k = k₀ at hst
    cases hst with
    | away hawake =>
      subst hk₀
      exact .away hawake.tail
    | near hnear =>
      cases hnear with
      | user | sleep =>
        obtain ⟨rfl, -⟩ := List.cons.inj hk₀
        obtain ⟨l, hl | hl⟩ := hi <;> cases hl
      | release _ hS hawake =>
        obtain ⟨rfl, rfl⟩ := List.cons.inj hk₀
        exact .lying hS hawake
      | before _ hnear =>
        obtain ⟨rfl, rfl⟩ := List.cons.inj hk₀
        exact .near hnear
    | lying =>
      obtain ⟨rfl, -⟩ := List.cons.inj hk₀
      obtain ⟨l, hl | hl⟩ := hi <;> cases hl
  | @sched k hk =>
    have hawake := (h.thread p _ hk).1.of_sched
    exact ⟨.away hawake, fun hcom => absurd hcom hawake.not_commits⟩
  | @exec i k ok cpu0 k' hk hwho hctl he =>
    have hd := (hs.cpu c).disc_of_who hwho
    rw [hctl] at hd
    have hst := (h.thread p _ hk).1
    generalize hk₀ : i :: k = k₀ at hst
    cases hst with
    | away hawake =>
      subst hk₀
      rcases hawake.exec hC hd he with hawake' | ⟨hnear, hm⟩
      · exact ⟨.away hawake', fun hcom => absurd hcom hawake'.not_commits⟩
      · exact ⟨.near hnear, fun _ => .inr hm⟩
    | near hnear =>
      subst hk₀
      obtain ⟨hnear', hcom⟩ := hnear.exec hd he
      exact ⟨.near hnear', fun hcom' => .inl ⟨_, hk, hcom _ hcom'⟩⟩
    | lying hS hawake =>
      obtain ⟨rfl, rfl⟩ := List.cons.inj hk₀
      simp only [Kernel.exec, Option.some.injEq, Prod.mk.injEq] at he
      obtain ⟨-, rfl, -⟩ := he
      exact ⟨.away hawake, fun hcom => absurd hcom hawake.not_commits⟩
  | fork =>
    have hawake := awake_forkret hC p
    exact ⟨.away hawake, fun hcom => absurd hcom hawake.not_commits⟩
  | @interrupt k k' hk hwho hheld hctl hk' timer =>
    have hawake : Awake S D (k' ++ (trapCode (inUser C k) timer ++ k)) := by
      have hfree := h.awake_of_free hs hC hwho hheld
      rw [hctl] at hfree
      refine Awake.append ?_ ((awake_trapCode _ _).append hfree)
      rcases hk' with rfl | ⟨a, chan, rfl⟩ <;> simp [Awake, devintrCode, Instr.Sleeps]
    exact ⟨.away hawake, fun hcom => absurd hcom hawake.not_commits⟩

omit [DecidableEq κ] [NeZero N] in
/-- The thread of a process after a step of the client. -/
theorem of_user (hs : Safe C s) (hC : C.Killable S D) (h : KillWaitOk S D s) {p q : Fin N} {u : υ}
    {d : δ} {k k' k₁ : List (Instr N υ)} (hctl : (s.cpu c).ctl = .user u :: k)
    (hwho : (s.cpu c).who = some p) (hsem : C.sem p u s.user d k')
    (hk₁ : q = p ∧ k₁ = k' ++ k ∨ q ≠ p ∧ s.Thread q k₁) :
    Stands S D k₁ ∧ (commits S D d k₁ → ∃ k₀, s.Thread q k₀ ∧ commits S D s.user k₀) := by
  have hd := (hs.cpu c).disc_of_who hwho
  rw [hctl] at hd
  obtain ⟨p', hp', hlocks⟩ := hd
  cases hp'
  rcases hk₁ with ⟨rfl, rfl⟩ | ⟨hne, hk₁⟩
  · have hthread : s.Thread q (.user u :: k) := .inl ⟨c, hwho, hctl.symm⟩
    have hk := (h.thread q _ hthread).1.of_user
    rcases hC.loop q u _ d k' hsem with hk' | ⟨hk', hu⟩
    · exact ⟨.away (hk'.append hk), fun hcom => absurd hcom (hk'.append hk).not_commits⟩
    · exact ⟨.near (hk'.append hk), fun _ => ⟨_, hthread, hu⟩⟩
  · obtain ⟨hst, -⟩ := h.thread q k₁ hk₁
    refine ⟨hst, fun hcom => ⟨k₁, hk₁, ?_⟩⟩
    cases hst with
    | away hk => exact absurd hcom hk.not_commits
    | lying => exact hcom
    | near hnear =>
      rcases hk₁ with ⟨c', hc', rfl⟩ | ⟨-, rfl⟩
      · -- the other process holds the lock that the change of the data needs
        refine (hnear.commits_of_change hC ((hs.cpu c').disc_of_who hc') hsem hcom).resolve_right ?_
        rintro ⟨l, hl, hl', -⟩
        rw [← hlocks] at hl
        obtain rfl : c' = c := Option.some_inj.1 (hl'.symm.trans hl)
        exact hne (Option.some_inj.1 (hc'.symm.trans hwho))
      · exact absurd hcom (h.saved q).not_commits

theorem step (hs : Safe C s) (hC : C.Killable S D) (h : KillWaitOk S D s)
    (t : Step boot C s (c, e) s') (hspare : SparesCommitted S D s (c, e)) :
    KillWaitOk S D s' := by
  have hthread : ∀ p k, s'.Thread p k → Stands S D k ∧ (commits S D s'.user k →
      (∃ k₀, s.Thread p k₀ ∧ commits S D s.user k₀) ∨
        s'.mem = s.mem ∧ (s.mem.proc p).killed = false) := by
    intro p k hk
    rcases t.thread hs with ⟨q, u, k₁, d, k', hctl, hwho, hsem, rfl, -, ht⟩ | ⟨huser, ht⟩
    · obtain ⟨hst, hcom⟩ := h.of_user hs hC hctl hwho hsem (ht p k hk)
      exact ⟨hst, fun hk => .inl (hcom hk)⟩
    · rw [huser]
      exact h.of_threadStep hs hC (ht p k hk)
  -- a process that has decided to go to sleep is not killed by the step
  have hspared : ∀ p k₀, s.Thread p k₀ → commits S D s.user k₀ →
      (s'.mem.proc p).killed = false := by
    intro p k₀ hk₀ hcom
    by_contra hkilled
    rcases (t.slot hs p).killed (Bool.not_eq_false _ ▸ hkilled) with
      hold | ⟨pid, k, hctl, hpid, -⟩ | ⟨k, hwho, hctl⟩
    · rw [(h.thread p k₀ hk₀).2 hcom] at hold
      cases hold
    · exact hspare p pid k k₀ hctl hpid hk₀ hcom
    · rw [hk₀.eq_ctl hs hwho, hctl] at hcom
      exact hcom
  refine ⟨fun p k hk => ?_, fun p => ?_, fun p hst hS => ?_⟩
  · obtain ⟨hst, hcom⟩ := hthread p k hk
    refine ⟨hst, fun hk => ?_⟩
    rcases hcom hk with ⟨k₀, hk₀, hcom₀⟩ | ⟨hmem, hkilled⟩
    · exact hspared p k₀ hk₀ hcom₀
    · rw [hmem]
      exact hkilled
  · rcases t.context hs p with hctx | hctx | ⟨hwho, hctl⟩
    · rw [hctx]
      exact h.saved p
    · rw [hctx]
      exact awake_forkret hC p
    · exact (h.thread p _ (.inl ⟨c, hwho, hctl.symm⟩)).1.of_sched
  · -- asleep before, or SLEEPING from now on
    have hbefore : (s.mem.proc p).state = .sleeping ∧ S (s.mem.proc p).chan ∨
        ∃ k₀, s.Thread p k₀ ∧ commits S D s.user k₀ := by
      rcases (t.slot hs p).asleep hs hst with ⟨hst₀, hchan⟩ | ⟨chan, k, hwho, hctl, hchan⟩
      · refine .inl ⟨hst₀, ?_⟩
        rw [← hchan]
        exact hS
      · refine .inr ⟨_, .inl ⟨c, hwho, hctl.symm⟩, ?_⟩
        change S chan
        rw [← hchan]
        exact hS
    rcases hbefore with ⟨hst₀, hS₀⟩ | ⟨k₀, hk₀, hcom⟩
    · by_contra hkilled
      rcases (t.slot hs p).killed (Bool.not_eq_false _ ▸ hkilled) with
        hold | ⟨pid, k, -, -, hne⟩ | ⟨k, hwho, hctl⟩
      · rw [h.asleep p hst₀ hS₀] at hold
        cases hold
      · exact hne hst
      · have hrun := hs.running c p hwho
        rw [hctl] at hrun
        rw [hrun.running_of_head (by simp) (by simp)] at hst₀
        cases hst₀
    · exact hspared p k₀ hk₀ hcom

end KillWaitOk

theorem killWaitOk_of_reachable {start : δ → Prop} (hd : C.Disciplined) (hC : C.Killable S D)
    (hs : ((kernel boot C start).restrict (SparesCommitted S D)).Reachable s) :
    KillWaitOk S D s := by
  refine LTS.Reachable.invariant (fun s hs => ?_) (fun s x s' hs h t => ?_) hs
  · have hawake : ∀ p, Awake S D (s.mem.proc p).context := by
      intro p
      rw [hs.1.context]
      exact awake_forkret hC p
    refine ⟨fun p k hk => ?_, hawake, fun p hst => ?_⟩
    · rcases hk with ⟨c, hc, -⟩ | ⟨-, rfl⟩
      · rw [(hs.1.cpu c).1] at hc
        cases hc
      · exact ⟨.away (hawake p), fun hcom => absurd hcom (hawake p).not_commits⟩
    · by_cases hp : p = 0
      · subst hp
        rw [hs.1.initproc] at hst
        cases hst
      · rw [hs.1.unused p hp] at hst
        cases hst
  · exact h.step (safe_of_reachable hd hs.of_restrict) hC t.1 t.2

end Step

/-! ## The five loops -/

/-- The channels of `kwait`, `sys_pause`, `piperead`, `pipewrite` and `consoleread`. -/
def killChan : Chan N → Prop
  | .proc _ => True
  | chan => chan = .ticks ∨ chan = pipeRead ∨ chan = pipeWrite ∨ chan = consR

/-- The process is between its test of `killed` and its call of `sleep`; `pipewrite` calls it if
the ring is full. -/
def IpcPoint.Bound : IpcPoint → PipeHistory → Prop
  | .pauseSleep, _ | .readSleep _, _ | .consSleep _ _, _ => True
  | .writeTest _ _, d => d.pipe.Full
  | _, _ => False

theorem ipc_killable :
    (ipc : Client N IpcPoint PipeHistory).Killable killChan IpcPoint.Bound where
  loop p u d d' k h := by
    cases h with
    | pauseSleep =>
      exact .inr ⟨.sleep (.inl rfl) (by simp [Awake, Instr.Sleeps, IpcPoint.Bound]), trivial⟩
    | readSleep =>
      exact .inr ⟨.sleep (.inr (.inl rfl)) (by simp [Awake, Instr.Sleeps, IpcPoint.Bound]), trivial⟩
    | consSleep =>
      refine .inr ⟨.sleep (.inr (.inr (.inr rfl))) ?_, trivial⟩
      simp [Awake, Instr.Sleeps, IpcPoint.Bound]
    | writeFull hfull =>
      refine .inr ⟨.before (i := .wakeup pipeRead 0) trivial (.sleep (.inr (.inr (.inl rfl))) ?_),
        hfull⟩
      simp [Awake, Instr.Sleeps, IpcPoint.Bound]
    | close writable status =>
      left
      cases status <;> simp [Awake, Instr.Sleeps, IpcPoint.Bound, IpcPoint.closed]
    | _ =>
      left
      simp only [Awake, List.mem_cons, List.not_mem_nil, or_false, forall_eq_or_imp, forall_eq,
        Instr.Sleeps, IpcPoint.Bound, not_false_eq_true, exists_false, and_self]
  locks p u d hu := by
    cases u <;> first | exact hu.elim | exact ⟨_, rfl, by rintro q ⟨⟩⟩
  change p q u u' d d' k h hu' := by
    cases u' with
    | writeTest i n =>
      cases h with
      | writeByte | readByte | readFault | close => exact .inr ⟨pipeLock, rfl, rfl, by rintro r ⟨⟩⟩
      | _ => exact .inl hu'
    | _ => exact .inl hu'
  start _ := id
  killed _ := id

/-- **A kill is not lost on a sleeper**, unless it comes between the test of `killed` and the call
of `sleep`: in the runs in which no `kkill` finds its process there, no process is SLEEPING in
`piperead`, `pipewrite`, `consoleread`, `kwait` or `sys_pause` with `killed` set. -/
theorem kill_not_lost {κ : Type} [DecidableEq κ] [NeZero N] {boot : κ}
    {s : State κ N IpcPoint PipeHistory}
    (hs : ((kernel boot ipc PipeHistory.Fresh).restrict
      (SparesCommitted killChan IpcPoint.Bound)).Reachable s) (p : Fin N) :
    ¬((s.mem.proc p).state = .sleeping ∧ killChan (s.mem.proc p).chan ∧
      (s.mem.proc p).killed = true) := by
  rintro ⟨hst, hchan, hkilled⟩
  have h := killWaitOk_of_reachable ipc_disciplined ipc_killable hs
  rw [h.asleep p hst hchan] at hkilled
  cases hkilled

/-- A test of `SparesCommitted`: a process that `kkill` finds is in the middle of `sleep`. -/
def findsSleeper (s : State (Fin 8) NPROC IpcPoint PipeHistory) (x : Fin 8 × Event NPROC) : Bool :=
  match (s.cpu x.1).ctl with
  | .kkillVisit pid p :: _ => (s.mem.proc p).pid = pid → (∀ c, (s.cpu c).who ≠ some p) ∧
      (s.mem.proc p).context.head?.any (fun | .clearChan _ => true | _ => false) = true
  | _ => true

theorem of_findsSleeper {s : State (Fin 8) NPROC IpcPoint PipeHistory} {x : Fin 8 × Event NPROC}
    (h : findsSleeper s x = true) : SparesCommitted killChan IpcPoint.Bound s x := by
  intro p pid k k' hctl hpid hk'
  rw [findsSleeper, hctl] at h
  obtain ⟨hoff, hhead⟩ := of_decide_eq_true h hpid
  obtain ⟨c, hc, -⟩ | ⟨-, rfl⟩ := hk'
  · exact absurd hc (hoff c)
  · generalize (s.mem.proc p).context = k' at hhead
    match k' with
    | .clearChan _ :: _ => exact id

/-- The first process kills its child, which sleeps in `sys_pause`. -/
theorem kill_not_lost_pause :
    ∃ h s, ((kernel (0 : Fin 8) (ipc (N := NPROC)) PipeHistory.Fresh).restrict
        (SparesCommitted killChan IpcPoint.Bound)).Run h s ∧
      ((s.mem.proc 1).chan = .ticks ∧ (s.mem.proc 1).killed = true) ∧
        (s.mem.proc 1).state ≠ .sleeping := by
  have hd : PipeHistory.Fresh ⟨⟨⟨fun _ => 0, 0, 0⟩, true, true⟩, [], []⟩ :=
    ⟨rfl, rfl, rfl, rfl, rfl, rfl⟩
  obtain ⟨h, s, r, hchan, hkilled⟩ : ∃ h s,
      ((kernel (0 : Fin 8) (ipc (N := NPROC)) PipeHistory.Fresh).restrict
        (SparesCommitted killChan IpcPoint.Bound)).Run h s ∧
        (s.mem.proc 1).chan = .ticks ∧ (s.mem.proc 1).killed = true := by
    refine exists_run_of_play_restrict (X := ipcChoices)
      (v := ([0, 0, 0, 0, 1] ++ List.replicate 30 0).map (.go 0 true) ++
        ([0, 0, 0, 0, 0, 0, 0, 0, 1, 0, 0, 0, 0, 2, 0, 1] ++ List.replicate 12 0).map
          (.go 1 true) ++
        ([1, 0, 0, 0, 0, 13] ++ List.replicate 8 0).map (.go 0 true))
      findsSleeper (fun _ _ => of_findsSleeper) ipc_disciplined hd ?_
    set_option maxRecDepth 10000 in rfl
  refine ⟨h, s, r, ⟨hchan, hkilled⟩, fun hst => kill_not_lost ⟨h, r⟩ 1 ⟨hst, ?_, hkilled⟩⟩
  rw [hchan]
  exact .inl rfl

/-- The first process has forked a child and pauses, and is killed by the child on another CPU
between its test of `killed` and its call of `sleep`: it sleeps, killed, and all locks are free. -/
theorem kill_lost :
    ∃ h s, (kernel (0 : Fin 8) (ipc (N := NPROC)) PipeHistory.Fresh).Run h s ∧
      s.holder (.proc 0) = none ∧ (s.mem.proc 0).state = .sleeping ∧
        (s.mem.proc 0).chan = .ticks ∧ (s.mem.proc 0).killed = true := by
  have hd : PipeHistory.Fresh ⟨⟨⟨fun _ => 0, 0, 0⟩, true, true⟩, [], []⟩ :=
    ⟨rfl, rfl, rfl, rfl, rfl, rfl⟩
  refine exists_run_of_play (X := ipcChoices)
    (v := (([0, 0, 0, 0, 1] ++ List.replicate 30 0 ++ [1, 0, 0, 0, 0, 2, 0, 1, 0, 0, 0, 0]).map
      (.go 0 true)) ++ ([0, 0, 0, 0, 0, 0, 0, 0, 1, 0, 0, 0, 0, 10, 0, 0, 0, 0].map (.go 1 true)) ++
      List.replicate 8 (.go 0 true 0)) ipc_disciplined hd ?_
  rfl

end Xv6.Kernel
