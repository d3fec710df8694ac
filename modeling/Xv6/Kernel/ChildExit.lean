import Xv6.Kernel.Monitor
import Xv6.Kernel.Reap
import Xv6.Kernel.Simulate

/-!
# No missed child exit

`kexit` calls `wakeup(p->parent)` before it sets the state to ZOMBIE, and `reparent` gives children
that are zombies already to an initial process that may be asleep. No process that sleeps in `kwait`
misses a zombie child for that (`no_missed_exit`): a process goes to sleep there with `wait_lock`
until it has its own lock, and with no zombie child (`KwaitOk`), and who makes a zombie child holds
`wait_lock` and has passed the parent's slot in `wakeup` (`ExitPhase.Clears`), or has not come to it
yet (`ChildExitOk.zombie`).
-/

namespace Xv6.Kernel

variable {κ : Type} {N : ℕ} {υ δ : Type} {C : Client N υ δ}

/-- The process `p` sleeps in `kwait`, or is about to with `wait_lock` released. -/
def State.Naps (s : State κ N υ δ) (p : Fin N) : Prop :=
  ∃ k, s.Thread p k ∧
    (Kwaits p .lying k ∨ Kwaits p .asleep k ∧ (s.mem.proc p).state = .sleeping)

/-- What the process in this phase of `kexit` has made sure of about its parent `p`. -/
def ExitPhase.Clears (s : State κ N υ δ) (p : Fin N) : ExitPhase N → Prop
  | .waking chan n => chan = .proc p ∧ (p.val < n → ¬s.Naps p)
  | .ready => ¬s.Naps p
  | _ => True

/-- The invariant. -/
structure ChildExitOk (s : State κ N υ δ) : Prop where
  /-- A napping process with a zombie child is about to be woken up. -/
  zombie : ∀ p j, s.Naps p → (s.mem.proc j).parent = some p → (s.mem.proc j).state = .zombie →
    ∃ c, .waitLock ∈ s.held c ∧ Waking (.proc p) p (s.cpu c).ctl
  exit : ∀ c q, (s.cpu c).who = some q → ∃ b, Exits q b (s.cpu c).ctl ∧
    ∀ p, (s.mem.proc q).parent = some p → b.Clears s p

/-! ## The phases are different -/

namespace Exits

variable {p : Fin N} {b : ExitPhase N} {k : List (Instr N υ)}

/-- A process that has gone through its children does not come back to `reparent`. -/
theorem swept_of_zombie {n : ℕ} {chan : Chan N} (h : Exits p b k)
    (hb : b = .waking chan n ∨ b = .ready) :
    (∃ st, .setZombie p st ∈ k) ∧ ∀ q, (∀ m, .reparent q m ∉ k) ∧ .wakeupParent q ∉ k := by
  have hno : ∀ {k : List (Instr N υ)}, NoExit k →
      ∀ q, (∀ m, .reparent q m ∉ k) ∧ .wakeupParent q ∉ k := fun hk q =>
    ⟨fun m hm => hk _ hm trivial, fun hm => hk _ hm trivial⟩
  cases h with
  | away | entering | sweeping | given | swept => rcases hb with hb | hb <;> cases hb
  | @waking _ _ pre status k hpre h =>
    refine ⟨⟨status, by simp⟩, fun q => ⟨fun m hm => ?_, fun hm => ?_⟩⟩
    · rcases List.mem_append.1 hm with hm | hm
      · exact hpre.noExit _ hm trivial
      · simp only [List.mem_cons, reduceCtorEq, false_or] at hm
        exact (hno h q).1 m hm
    · rcases List.mem_append.1 hm with hm | hm
      · exact hpre.noExit _ hm trivial
      · simp only [List.mem_cons, reduceCtorEq, false_or] at hm
        exact (hno h q).2 hm
  | locking h | ready h =>
    refine ⟨⟨_, by simp; exact .inl rfl⟩, fun q => ⟨fun m hm => ?_, fun hm => ?_⟩⟩
    · simp only [List.mem_cons, reduceCtorEq, false_or] at hm
      exact (hno h q).1 m hm
    · simp only [List.mem_cons, reduceCtorEq, false_or] at hm
      exact (hno h q).2 hm

/-- The control of a process that announces its exit is so in no other phase. -/
theorem eq_of_zombie {b' : ExitPhase N} {n : ℕ} {chan : Chan N} (h : Exits p b k)
    (hb : b = .waking chan n ∨ b = .ready) (h' : Exits p b' k) : b' = b := by
  obtain ⟨⟨st, hst⟩, hno⟩ := h.swept_of_zombie hb
  cases h' with
  | away hk => exact absurd trivial (hk _ hst)
  | entering => exact absurd (by simp [reparentCode]) ((hno p).1 0)
  | @sweeping n => exact absurd (by simp [reparentCode]) ((hno p).1 n)
  | @given n => exact absurd (by simp [reparentCode]) ((hno p).1 n)
  | swept => exact absurd (by simp) (hno p).2
  | @waking chan' n' pre' status' k' hpre' hk' =>
    generalize hk : pre' ++ .acquire (.proc p) :: .setZombie p status' :: k' = k₀ at h
    cases h with
    | away | entering | sweeping | given | swept => rcases hb with hb | hb <;> cases hb
    | waking hpre => cases hpre <;> cases hpre' <;> cases hk <;> rfl
    | locking | ready => cases hpre' <;> cases hk
  | @locking status' k' hk' =>
    generalize hk : Instr.acquire (.proc p) :: .setZombie p status' :: k' = k₀ at h
    cases h with
    | away | entering | sweeping | given | swept => rcases hb with hb | hb <;> cases hb
    | waking hpre => cases hpre <;> cases hk
    | locking => rfl
    | ready => cases hk
  | @ready status' k' hk' =>
    generalize hk : Instr.setZombie p status' :: k' = k₀ at h
    cases h with
    | away | entering | sweeping | given | swept => rcases hb with hb | hb <;> cases hb
    | waking hpre => cases hpre <;> cases hk
    | locking => cases hk
    | ready => rfl

/-- A process that is about to release `wait_lock` does not announce its exit. -/
theorem not_release (h : Exits p b (.release .waitLock :: k)) : b = .away ∨ b = .entering := by
  generalize hk : Instr.release .waitLock :: k = k₀ at h
  cases h with
  | away => exact .inl rfl
  | entering => exact .inr rfl
  | sweeping | swept | locking | ready => cases hk
  | given hpre => cases hpre <;> cases hk
  | waking hpre => cases hpre <;> cases hk

/-- Nor does it lie down in `kwait`. -/
theorem not_kwaits {n : ℕ} {chan : Chan N} (h : Exits p b k)
    (hb : b = .waking chan n ∨ b = .ready) : ¬Kwaits p .lying k ∧ ¬Kwaits p .asleep k := by
  cases h with
  | away | entering | sweeping | given | swept => rcases hb with hb | hb <;> cases hb
  | waking hpre => cases hpre <;> constructor <;> rintro ⟨⟩
  | locking | ready => constructor <;> rintro ⟨⟩

end Exits

/-! ## What a step does about it -/

variable [DecidableEq κ] [NeZero N] {boot : κ} {s s' : State κ N υ δ} {c : κ} {e : Event N}

/-- **Who naps after a step** napped before, or has released `wait_lock`; then it has no zombie
child. -/
theorem Step.naps (hs : Safe C s) (hC : C.Disciplined) (hkw : KwaitOk s)
    (t : Step boot C s (c, e) s') {p : Fin N} (h : s'.Naps p) :
    s.Naps p ∨ (s.cpu c).who = some p ∧ (∃ k, (s.cpu c).ctl = .release .waitLock :: k) ∧
      .waitLock ∈ s.held c ∧ s'.mem = s.mem ∧
      ∀ j, (s.mem.proc j).parent = some p → (s.mem.proc j).state ≠ .zombie := by
  obtain ⟨k, hk, hb⟩ := h
  have hphase : ∀ {b}, Kwaits p b k →
      b = .lying ∨ b = .asleep ∧ (s'.mem.proc p).state = .sleeping := by
    intro b hb'
    rcases hb with hb | ⟨hb, hst⟩
    · exact .inl (hb.eq_lying hb')
    · exact .inr ⟨hb.eq_asleep hb', hst⟩
  have haway : ¬Kwaits p .away k := fun hb => by
    rcases hphase hb with h | ⟨h, -⟩ <;> cases h
  rcases t.thread hs with ⟨q, u, k₁, d, k', hctl, hwho, hsem, -, hmem, ht⟩ | ⟨-, ht⟩
  · rcases ht p k hk with ⟨rfl, rfl⟩ | ⟨-, hk⟩
    · obtain ⟨b, hb', -⟩ := hkw.thread p _ (.inl ⟨c, hwho, hctl.symm⟩)
      refine absurd (.away (NoLoop.append (fun i hi => ?_) hb'.away_of_user.2)) haway
      have hcall := hC.calls p u _ d k' hsem i hi
      cases i <;> first | exact id | exact hcall.elim
    · rw [hmem] at hb
      exact .inl ⟨k, hk, hb⟩
  · cases ht p k hk with
    | same hk hwho =>
      refine .inl ⟨k, hk, hb.imp id fun ⟨hb, hst⟩ => ⟨hb, ?_⟩⟩
      exact (((t.slot hs p).asleep hs hst).resolve_right fun ⟨_, _, hp, _⟩ => hwho hp).1
    | pop hk₀ hwho hctl hi _ hmem =>
      obtain ⟨b, hb₀, hok⟩ := hkw.thread p _ hk₀
      obtain ⟨l, rfl | rfl⟩ := hi
      · obtain ⟨b', hb', hmove, -, hlie⟩ := hb₀.acquire hmem
        obtain ⟨rfl, -⟩ := (hphase hb').resolve_left hlie
        cases hmove
        exact .inl ⟨_, hk₀, .inl hb₀⟩
      · obtain ⟨b', hb', hmove, -, hlie⟩ := hb₀.release hmem
        rcases hphase hb' with rfl | ⟨rfl, -⟩
        · obtain rfl := hlie rfl
          cases hmove
          refine .inr ⟨hwho, ⟨_, hctl⟩, ?_, hmem, fun j => hok.passed j j.isLt⟩
          exact ((hs.cpu c).disc hctl (by simp)).1
        · cases hmove
          exact .inl ⟨_, hk₀, .inl hb₀⟩
    | sched hk₀ _ _ _ hmem =>
      obtain ⟨b, hb₀, -⟩ := hkw.thread p _ hk₀
      obtain ⟨hb', hk'⟩ := hb₀.sched
      rcases hphase hk' with rfl | ⟨rfl, hst⟩
      · simp at hb'
      · rw [hmem, Mem.set_proc, if_pos rfl] at hst
        exact .inl ⟨_, hk₀, .inr ⟨hb₀, hst⟩⟩
    | exec hk₀ _ _ he =>
      obtain ⟨b, hb₀, -⟩ := hkw.thread p _ hk₀
      obtain ⟨b', hb', hmove, hlie⟩ := hb₀.exec he
      obtain ⟨rfl, -⟩ := (hphase hb').resolve_left hlie
      cases hmove
      exact .inl ⟨_, hk₀, .inl hb₀⟩
    | fork => exact absurd (.away (by simp [NoLoop, forkretCode, Instr.KwaitLoop])) haway
    | interrupt _ hwho hheld hctl hk' timer =>
      subst hctl
      obtain ⟨b, hb', -, hidle⟩ := hkw.interrupt hs timer hwho hheld (trap_of_interrupt hk')
      rcases hphase hb' with rfl | ⟨rfl, -⟩ <;> simp at hidle

omit [DecidableEq κ] [NeZero N] in
/-- A process that does not sleep on its slot, and whose lock somebody else has, does not nap. -/
theorem State.not_naps_of_visit (hs : Safe C s) (hkw : KwaitOk s) {p : Fin N}
    (hl : ∀ c, (s.cpu c).who = some p → .proc p ∉ s.held c)
    (hsleep : ¬(s.mem.proc p).sleepsOn (.proc p)) : ¬s.Naps p := by
  rintro ⟨k, hk, hb | ⟨hb, hst⟩⟩
  · rcases hkw.held_of_thread hs hk hb with h | h | h | ⟨c', hc', ⟨h, -⟩ | ⟨-, hl'⟩⟩
    · cases h
    · cases h
    · cases h
    · exact h rfl
    · exact hl c' hc' hl'
  · obtain ⟨b, hb', hok⟩ := hkw.thread p k hk
    have hchan := hok.asleep (hb.eq_asleep hb') hst
    exact hsleep (decide_eq_true ⟨hst, hchan⟩)

omit [DecidableEq κ] [NeZero N] in
/-- A napping process does not run the code of `wakeup`. -/
theorem State.Naps.who_ne (hs : Safe C s) {p : Fin N} (h : s.Naps p) {j : ℕ} {chan : Chan N}
    {k : List (Instr N υ)} (hctl : (s.cpu c).ctl = .wakeup chan j :: k) :
    (s.cpu c).who ≠ some p := by
  intro hwho
  obtain ⟨k', hk, hb⟩ := h
  rw [hk.eq_ctl hs hwho, hctl] at hb
  rcases hb with hb | ⟨hb, -⟩ <;> cases hb

/-- The waker of a napping process goes on. -/
theorem Waking.step (hs : Safe C s) (hs' : Safe C s') (hkw' : KwaitOk s')
    (t : Step boot C s (c, e) s') {p : Fin N} (h : Waking (.proc p) p (s.cpu c).ctl)
    (hl : .waitLock ∈ s.held c) (hp : s.Naps p) (hp' : s'.Naps p) :
    .waitLock ∈ s'.held c ∧ Waking (.proc p) p (s'.cpu c).ctl := by
  cases id t with
  | acquire hctl hfree =>
    rw [hctl] at h
    rw [held_acquire hfree, if_pos rfl, State.setHolder, State.setCtl, State.setCpu_self]
    cases h with
    | acquire hq => exact ⟨Set.mem_insert_of_mem _ hl, .visit hq⟩
  | release hctl hheld =>
    rw [hctl] at h
    rw [held_release hheld, if_pos rfl, State.setHolder, State.setCtl, State.setCpu_self]
    cases h with
    | release hq => exact ⟨⟨hl, by simp⟩, .loop hq⟩
  | @exec _ i k ok m' k' _ hctl he =>
    refine ⟨hl, ?_⟩
    have hself : (((s.setCtl c (k' ++ k)).setMem m').cpu c) = { s.cpu c with ctl := k' ++ k } :=
      State.setCpu_self ..
    rw [hself]
    rw [hctl] at h
    cases h with
    | @loop j _ hj =>
      have hne := hp.who_ne hs hctl
      have hproc : (s.cpu c).who = (s.cpu c).proc := (hs.cpu c).who_eq_proc hctl (by simp)
      cases he
      unfold wakeupCode
      rw [dif_pos (by omega)]
      split_ifs with hmy
      · refine .loop (Nat.lt_of_le_of_ne hj ?_)
        rintro rfl
        exact hne (hproc.trans hmy)
      · exact .acquire hj
    | @visit q _ hq =>
      obtain ⟨hne, hlq, -⟩ := (hs.cpu c).disc hctl (by simp)
      have hproc := (hs.cpu c).who_eq_proc hctl (by simp)
      cases he
      refine .release (Nat.lt_of_le_of_ne hq fun heq => ?_)
      obtain rfl : q = p := Fin.ext heq
      refine State.not_naps_of_visit hs' hkw' (fun c' hc' => ?_) ?_ hp'
      · have hcc : c ≠ c' := by
          rintro rfl
          rw [hself] at hc'
          exact hne (hproc.symm.trans hc')
        exact notMem_held_of_ne hlq hcc
      · rw [State.setMem_mem, Mem.set_proc, if_pos rfl]
        unfold Proc.wake
        split_ifs with hsleep
        · simp [Proc.sleepsOn]
        · exact hsleep
    | acquire | release => cases he
  | user hctl | dispatch hctl | account hctl | sched hctl =>
    rw [hctl] at h
    cases h
  | clock hheld | device _ _ hheld =>
    rw [hheld] at hl
    exact absurd hl (Set.notMem_empty _)

/-- `reparent` gives a child to the initial process, and then wakes it up. -/
theorem Step.of_reparent (hs : Safe C s) (t : Step boot C s (c, e) s') {q j : Fin N}
    {k : List (Instr N υ)} (hctl : (s.cpu c).ctl = .reparent q j :: k)
    (hq : (s.mem.proc j).parent = some q) :
    .waitLock ∈ s'.held c ∧ Waking (.proc 0) 0 (s'.cpu c).ctl := by
  have hl := ((hs.cpu c).disc hctl (by simp)).2.1
  cases t with
  | acquire hctl' | release hctl' | user hctl' | dispatch hctl' | account hctl' | sched hctl' =>
    rw [hctl'] at hctl
    cases hctl
  | exec hctl' he =>
    rw [hctl'] at hctl
    cases hctl
    simp only [Kernel.exec] at he
    rw [dif_pos j.isLt, if_pos hq] at he
    cases he
    rw [State.setMem_cpu, State.setCtl, State.setCpu_self]
    exact ⟨hl, .loop (Nat.zero_le _)⟩
  | clock hheld | device _ _ hheld =>
    rw [hheld] at hl
    exact absurd hl (Set.notMem_empty _)

/-- Who gets a child that is a zombie is the initial process, about to be woken up. -/
theorem Step.gets_child (hs : Safe C s) (t : Step boot C s (c, e) s') {p j : Fin N}
    (hp : s.Naps p) (hj : (s'.mem.proc j).state ≠ .unused)
    (hpar : (s'.mem.proc j).parent = some p) :
    (s.mem.proc j).parent = some p ∨
      .waitLock ∈ s'.held c ∧ Waking (.proc p) p (s'.cpu c).ctl := by
  have h := t.slot hs j
  have hpar' : (s'.mem.proc j).slot.parent = some p := hpar
  have hj' : (s'.mem.proc j).slot.state ≠ .unused := hj
  generalize (s'.mem.proc j).slot = b at h hpar' hj'
  cases h with
  | same | run => exact .inl hpar'
  | @exec i k _ hctl hd hwho h =>
    cases h with
    | reap | abort => exact absurd rfl hj'
    | @orphan q hi hq =>
      obtain rfl := Option.some_inj.1 hpar'
      subst hi
      exact .inr (t.of_reparent hs hctl hq)
    | adopt hi =>
      obtain rfl := Option.some_inj.1 hpar'
      subst hi
      -- a process that adopts one is awake
      exfalso
      obtain ⟨k', hk, hb⟩ := hp
      rw [hk.eq_ctl hs (hwho.trans hd.1), hctl] at hb
      rcases hb with hb | ⟨hb, -⟩ <;> cases hb
    | same | yield | sleep | clearChan | wake | kill | setkilled | exit | allocpid | alloc
    | start => exact .inl hpar'

namespace ChildExitOk

/-- What a process has made sure of stays so while it holds `wait_lock`. -/
theorem clears_step (hs : Safe C s) (hC : C.Disciplined) (hkw : KwaitOk s)
    (t : Step boot C s (c, e) s') {p : Fin N} {b : ExitPhase N} (h : b.Clears s p)
    (hc : ¬∃ k, (s.cpu c).who = some p ∧ .waitLock ∈ s.held c ∧
      (s.cpu c).ctl = .release .waitLock :: k) : b.Clears s' p := by
  have hnaps : s'.Naps p → s.Naps p := fun hp =>
    (t.naps hs hC hkw hp).resolve_right fun ⟨hwho, ⟨k, hctl⟩, hl, _⟩ => hc ⟨k, hwho, hl, hctl⟩
  cases b with
  | waking chan n => exact ⟨h.1, fun hn hp => h.2 hn (hnaps hp)⟩
  | ready => exact fun hp => h (hnaps hp)
  | away | entering | sweeping | swept => trivial

theorem exit_step (hs : Safe C s) (hs' : Safe C s') (hC : C.Disciplined) (hx : ExitOk s)
    (hkw : KwaitOk s) (hkw' : KwaitOk s') (h : ChildExitOk s) (t : Step boot C s (c, e) s')
    {c' : κ} {q : Fin N} (hq : (s'.cpu c').who = some q) :
    ∃ b, Exits q b (s'.cpu c').ctl ∧
      ∀ p, (s'.mem.proc q).parent = some p → b.Clears s' p := by
  by_cases hc : c' = c
  · subst hc
    obtain ⟨b, hb, -, hstep⟩ := hx.move hs hC t hq
    refine ⟨b, hb, fun p hp => ?_⟩
    rcases hstep with rfl | rfl | ⟨b₀, hwho, hb₀, hmove, -⟩
    · trivial
    · trivial
    obtain ⟨b₁, hb₁, hclears⟩ := h.exit c' q hwho
    -- the process does not release `wait_lock` in this step
    have hkeep : ∀ {chan n}, (b₀ = .waking chan n ∨ b₀ = .ready) → ∀ {p k},
        ¬((s.cpu c').who = some p ∧ .waitLock ∈ s.held c' ∧
          (s.cpu c').ctl = .release .waitLock :: k) := by
      rintro chan n hphase p k ⟨-, -, hctl⟩
      rw [hctl] at hb₀
      rcases hb₀.not_release with rfl | rfl <;> rcases hphase with h | h <;> cases h
    cases hmove with
    | away | enter | start | given | sweep | swept => trivial
    | announce hmem =>
      rw [hmem] at hp
      rw [hp]
      exact ⟨rfl, fun hn => absurd hn (Nat.not_lt_zero _)⟩
    | @wake chan n n' hpar hn' =>
      rw [hpar] at hp
      have hb' := hb₀.eq_of_zombie (.inl rfl) hb₁
      subst hb'
      have hclears := hclears p hp
      have hclears' := clears_step hs hC hkw t hclears fun ⟨k, hk⟩ => hkeep (.inl rfl) hk
      refine ⟨hclears.1, fun hpn => ?_⟩
      rcases hn' with rfl | ⟨rfl, hvisit⟩
      · exact hclears'.2 hpn
      · rcases Nat.lt_succ_iff_lt_or_eq.1 hpn with hpn | hpn
        · exact hclears'.2 hpn
        · -- the parent's slot
          intro hnaps
          have hne : p ≠ q := by
            rintro rfl
            obtain ⟨k, hk, hnap⟩ := hnaps
            obtain ⟨hlying, hasleep⟩ := hb.not_kwaits (.inl rfl)
            rw [hk.eq_ctl hs' hq] at hnap
            rcases hnap with hnap | ⟨hnap, -⟩
            exacts [hlying hnap, hasleep hnap]
          obtain ⟨hsleep, c₁, hc₁, hl⟩ := (hvisit p hpn).resolve_left hne
          obtain rfl := hs.who_unique hc₁ hwho
          rw [hclears.1] at hsleep
          refine State.not_naps_of_visit hs' hkw' (fun c hc => ?_) hsleep hnaps
          have hcc : c ≠ c₁ := by
            rintro rfl
            exact hne (Option.some_inj.1 (hc.symm.trans hq))
          rw [t.held_of_ne hcc]
          exact notMem_held_of_ne hl (Ne.symm hcc)
    | @finish chan n hn hmem =>
      rw [hmem] at hp
      have hb' := hb₀.eq_of_zombie (.inl rfl) hb₁
      subst hb'
      have hclears := hclears p hp
      have hclears' := clears_step hs hC hkw t hclears fun ⟨k, hk⟩ => hkeep (.inl rfl) hk
      exact hclears'.2 (lt_of_lt_of_le p.isLt hn)
    | lock hmem =>
      rw [hmem] at hp
      have hready : ExitPhase.ready = .waking (.null : Chan N) 0 ∨
          (ExitPhase.ready : ExitPhase N) = .ready :=
        .inr rfl
      have hb' := hb₀.eq_of_zombie hready hb₁
      subst hb'
      have hclears := hclears p hp
      exact clears_step hs hC hkw t hclears fun ⟨k, hk⟩ =>
        hkeep hready hk
  · have hq' := hq
    rw [t.cpu_of_ne hc] at hq' ⊢
    obtain ⟨b, hb, hclears⟩ := h.exit c' q hq'
    refine ⟨b, hb, fun p hp => ?_⟩
    rcases hb.held ((hs.cpu c').disc_of_who hq') with rfl | rfl | hl
    · trivial
    · trivial
    have hl' := notMem_held_of_ne hl hc
    have hsame : (s'.mem.proc q).parent = (s.mem.proc q).parent := by
      rcases t.parent hs q with hsame | hnone | hw
      · exact hsame
      · rw [hnone] at hp
        cases hp
      · exact absurd hw hl'
    rw [hsame] at hp
    exact clears_step hs hC hkw t (hclears p hp) fun ⟨k, _, hl, _⟩ => hl' hl

theorem zombie_step (hs : Safe C s) (hs' : Safe C s') (hC : C.Disciplined) (hkw : KwaitOk s)
    (hkw' : KwaitOk s') (h : ChildExitOk s) (t : Step boot C s (c, e) s') {p j : Fin N}
    (hp : s'.Naps p) (hpar : (s'.mem.proc j).parent = some p)
    (hz : (s'.mem.proc j).state = .zombie) :
    ∃ c, .waitLock ∈ s'.held c ∧ Waking (.proc p) p (s'.cpu c).ctl := by
  rcases t.naps hs hC hkw hp with hp₀ | ⟨-, -, -, hmem, hno⟩
  · rcases t.gets_child hs hp₀ (by simp [hz]) hpar with hpar₀ | hw
    · rcases (t.slot hs j).zombie hz with hz₀ | ⟨status, k, hwho, hctl⟩
      · obtain ⟨c₁, hl, hw⟩ := h.zombie p j hp₀ hpar₀ hz₀
        by_cases hc : c₁ = c
        · subst hc
          exact ⟨c₁, hw.step hs hs' hkw' t hl hp₀ hp⟩
        · refine ⟨c₁, ?_, ?_⟩
          · rwa [t.held_of_ne hc]
          · rwa [t.cpu_of_ne hc]
      · -- the child has just exited
        obtain ⟨b, hb, hclears⟩ := h.exit c j hwho
        rw [hctl] at hb
        have hready := hb.eq_ready
        subst hready
        exact absurd hp₀ (hclears p hpar₀)
    · exact ⟨c, hw⟩
  · rw [hmem] at hpar hz
    exact absurd hz (hno j hpar)

end ChildExitOk

theorem childExitOk_of_reachable {start : δ → Prop} (hC : C.Disciplined)
    (hs : (kernel boot C start).Reachable s) : ChildExitOk s := by
  refine LTS.Reachable.invariant (fun s hs => ?_) (fun s e s' hs h t => ?_) hs
  · have hzombie : ∀ j, (s.mem.proc j).state ≠ .zombie := by
      intro j
      by_cases hj : j = 0
      · subst hj
        rw [hs.1.initproc]
        simp
      · rw [hs.1.unused j hj]
        simp [Proc.zero]
    refine ⟨fun p j _ _ hz => absurd hz (hzombie j), fun c q hq => ?_⟩
    rw [(hs.1.cpu c).1] at hq
    cases hq
  · have hsafe := safe_of_reachable hC hs
    have hsafe' := safe_of_reachable hC (hs.step t)
    have hkw := kwaitOk_of_reachable hC hs
    have hkw' := kwaitOk_of_reachable hC (hs.step t)
    have hx := exitOk_of_reachable hC hs
    exact ⟨fun p j hp hpar hz => h.zombie_step hsafe hsafe' hC hkw hkw' t hp hpar hz,
      fun c q hq => h.exit_step hsafe hsafe' hC hx hkw hkw' t hq⟩

/-! ## The theorem -/

omit [NeZero N] in
/-- A process in `kwait` has an instruction of `kwait` in its control. -/
theorem not_noLoop_of_inWait {k : List (Instr N υ)} (h : InWait true k) : ¬NoLoop k := by
  induction k with
  | nil => cases h
  | cons i k ih =>
    intro hk
    have htail := hk.tail
    cases i
    case kwaitScan | kwaitVisit | kwaitKilled => exact hk _ (List.mem_cons_self ..) trivial
    case user | killed | killedRead | kexit | zombieExit => cases h
    case kwait | usertrap | trapKilled => cases h.1
    all_goals exact ih h htail

/-- When `wait_lock` is free, no process that is SLEEPING in `kwait` has a ZOMBIE child. -/
def MissesNoExit (h : List (κ × Event N)) (s : State κ N υ δ) : Prop :=
  s.holder .waitLock = none → ∀ p j, waiting h p = true → (s.mem.proc p).state = .sleeping →
    (s.mem.proc j).parent = some p → (s.mem.proc j).state ≠ .zombie

/-- **No missed child exit**, after every run of the kernel. -/
theorem no_missed_exit {start : δ → Prop} (hC : C.Disciplined) {h : List (κ × Event N)}
    (r : (kernel boot C start).Run h s) : MissesNoExit h s := by
  intro hfree p j hwait hst hpar hz
  have hreach : (kernel boot C start).Reachable s := ⟨h, r⟩
  have hs := safe_of_reachable hC hreach
  have hkw := kwaitOk_of_reachable hC hreach
  obtain ⟨k, hk⟩ := exists_thread s p
  obtain ⟨b, hb, hok⟩ := hkw.thread p k hk
  have hin : InWait true k := hwait ▸ (waitOk_of_run hC r).thread p k hk
  have hnaps : s.Naps p := by
    refine ⟨k, hk, ?_⟩
    rcases hkw.held_of_thread hs hk hb with rfl | rfl | rfl | ⟨c, -, ⟨-, hl⟩ | ⟨rfl, -⟩⟩
    · cases hb with
      | away hb => exact absurd hb (not_noLoop_of_inWait hin)
    · exact absurd hst (hok.entering rfl)
    · exact .inr ⟨hb, hst⟩
    · rw [mem_held, hfree] at hl
      cases hl
    · exact .inl hb
  obtain ⟨c, hl, -⟩ := (childExitOk_of_reachable hC hreach).zombie p j hnaps hpar hz
  rw [mem_held, hfree] at hl
  cases hl

/-- The first process waits for its child, which exits on another CPU. -/
theorem no_missed_exit_wait :
    ∃ h s, (kernel (0 : Fin 8) (sysproc (N := NPROC)) fun _ => True).Run h s ∧
      (s.holder .waitLock = none ∧ waiting h 0 = true ∧ (s.mem.proc 1).parent = some 0 ∧
        (s.mem.proc 1).state = .zombie) ∧ (s.mem.proc 0).state ≠ .sleeping := by
  obtain ⟨h, s, r, hz⟩ : ∃ h s,
      (kernel (0 : Fin 8) (sysproc (N := NPROC)) fun _ => True).Run h s ∧
        s.holder .waitLock = none ∧ waiting h 0 = true ∧ (s.mem.proc 1).parent = some 0 ∧
          (s.mem.proc 1).state = .zombie := by
    refine exists_run_of_play (X := sysprocChoices) (d := ())
      (v := ([0, 0, 0, 0, 1] ++ List.replicate 30 0 ++ [1, 0, 0, 0, 0, 1] ++
          List.replicate 85 0).map (.go 0 true) ++
        ([0, 0, 0, 0, 0, 0, 0, 0, 1, 0, 0, 0, 0, 3] ++ List.replicate 345 0).map (.go 1 true))
      sysproc_disciplined trivial ?_
    set_option maxRecDepth 10000 in rfl
  obtain ⟨hfree, hwait, hpar, hzombie⟩ := hz
  exact ⟨h, s, r, ⟨hfree, hwait, hpar, hzombie⟩, fun hst =>
    no_missed_exit sysproc_disciplined r hfree 0 1 hwait hst hpar hzombie⟩

end Xv6.Kernel
