import Xv6.Kernel.Aging
import Xv6.Kernel.OneCpu

/-!
# The scan of the scheduler

The scan visits the slots level by level and holds one `p->lock` at a time, so the other CPUs may
change states and levels while it is under way. `Cpu.ScansAt` is where it is, interrupts included. A
process that waits all the time is *ahead* of the scan (`Ahead`): its level is still to come, or it
is the current one and its slot is. What the other CPUs do keeps it ahead, unless an aging pass
promotes it to a level, or into a slot of the current level, that the scan has left behind
(`Spares`); so the scan finds a process, at a level that is not higher (`scan_finds`).
-/

namespace Xv6.Kernel

variable {κ : Type} {N : ℕ} {υ δ : Type} {C : Client N υ δ}

/-! ## Where a scan is -/

/-- The code of an interrupt of a scheduler. -/
def Instr.Handler : Instr N υ → Prop
  | .acquire _ | .release _ | .clockintr | .tick | .charge | .wakeup _ _ | .wakeupVisit _ _
  | .kerneltrap | .trapRet => True
  | _ => False

/-- `Scan k level p ctl`: the control `ctl`, above `k`, is that of a scan whose next slot is `p`, at
`level`. -/
inductive Scan (k : List (Instr N υ)) : ℕ → ℕ → List (Instr N υ) → Prop
  | next (level p : ℕ) : Scan k level p (.scan level p :: k)
  | lock (level : ℕ) (p : Fin N) : Scan k level p (.acquire (.proc p) :: .scanTest level p :: k)
  | test (level : ℕ) (p : Fin N) : Scan k level p (.scanTest level p :: k)
  | miss (level : ℕ) (p : Fin N) :
      Scan k level (p + 1) (.release (.proc p) :: .scan level (p + 1) :: k)

/-- The CPU is in a scan, whose next slot is `p`, at `level`, or in an interrupt of that scan. -/
structure Cpu.ScansAt (x : Cpu N υ) (k : List (Instr N υ)) (level p : ℕ) : Prop where
  proc : x.proc = none
  ctl : ∃ h ctl, x.ctl = h ++ ctl ∧ (∀ i ∈ h, i.Handler) ∧ Scan k level p ctl

/-- The slot `q`, at the level `l`, is ahead of a scan whose next slot is `p`, at `level`. -/
def Ahead (level p : ℕ) (q : Fin N) (l : ℤ) : Prop := (level : ℤ) < l ∨ (level : ℤ) = l ∧ p ≤ q

theorem Ahead.mono {level p : ℕ} {q : Fin N} {l l' : ℤ} (h : Ahead level p q l) (hl : l ≤ l') :
    Ahead level p q l' := by
  rcases h with h | ⟨h, hp⟩
  · exact .inl (by omega)
  · rcases hl.lt_or_eq with hl | rfl
    · exact .inl (by omega)
    · exact .inr ⟨h, hp⟩

theorem exec_handler [NeZero N] {cpu0 ok : Bool} {m m' : Mem N υ} {i : Instr N υ}
    {k' : List (Instr N υ)} {e : Event N} (hi : i.Handler)
    (he : exec C cpu0 none ok m i = some (m', k', e)) :
    (∀ j ∈ k', j.Handler) ∧ ∀ q, e ≠ .dispatch q := by
  cases i <;> simp only [exec, reduceCtorEq] at he <;> cases hi
  case wakeup chan p =>
    cases he
    unfold wakeupCode
    split_ifs <;> simp [Instr.Handler]
  case clockintr =>
    cases he
    cases cpu0 <;> simp [clockintrCode, Instr.Handler]
  case wakeupVisit chan p =>
    cases he
    refine ⟨by simp, fun q => ?_⟩
    split_ifs <;> simp
  all_goals
    cases he
    simp

namespace Cpu.ScansAt

variable {x : Cpu N υ} {k : List (Instr N υ)} {level p : ℕ}

theorem inUser_eq_false (hx : x.ScansAt k level p) : inUser C x.ctl = false := by
  obtain ⟨-, h, ctl, hctl, hh, hscan⟩ := hx
  rw [hctl]
  cases h with
  | nil => cases hscan <;> rfl
  | cons i h =>
    have hi := hh i (by simp)
    cases i <;> first | rfl | exact hi.elim

theorem ctl_ne_aging (hx : x.ScansAt k level p) {k' : List (Instr N υ)} {n : ℕ} :
    x.ctl ≠ .aging n :: k' := by
  obtain ⟨-, h, ctl, hctl, hh, hscan⟩ := hx
  rw [hctl]
  cases h with
  | nil => cases hscan <;> simp
  | cons i h =>
    rintro hi
    cases hi
    exact hh (.aging n) (by simp)

/-- The scan is interrupted. -/
theorem interrupt (hx : x.ScansAt k level p) (h' : List (Instr N υ)) (hh' : ∀ i ∈ h', i.Handler) :
    Cpu.ScansAt ⟨x.who, h' ++ x.ctl, x.proc, x.context⟩ k level p := by
  obtain ⟨hproc, h, ctl, hctl, hh, hscan⟩ := hx
  refine ⟨hproc, h' ++ h, ctl, ?_, fun i hi => ?_, hscan⟩
  · dsimp only
    rw [hctl, List.append_assoc]
  · rcases List.mem_append.1 hi with hi | hi
    exacts [hh' i hi, hh i hi]

end Cpu.ScansAt

theorem handler_trapCode (timer : Bool) :
    ∀ i ∈ (trapCode false timer : List (Instr N υ)), i.Handler := by
  cases timer <;> simp [trapCode, Instr.Handler]

/-- `ScanStep m k level p e x`: what a step of a CPU in a scan, seen as `e`, does: `x` is the CPU
after it. -/
inductive ScanStep (m : Mem N υ) (k : List (Instr N υ)) (level p : ℕ) (e : Event N) (x : Cpu N υ) :
    Prop
  | stay (h : x.ScansAt k level p) (he : ∀ q, e ≠ .dispatch q)
  | miss (q : Fin N) (hq : q = p) (hno : (m.proc q).eligible level = false)
      (h : x.ScansAt k level (p + 1)) (he : e = .tau)
  | level (hp : N ≤ p) (h : x.ScansAt k (level + 1) 0) (he : e = .tau)
  | found (q : Fin N) (hel : (m.proc q).eligible level = true) (he : e = .dispatch q)
  | done (hp : N ≤ p) (hl : mlfqLevels ≤ level + 1) (he : e = .tau)

/-- The accounting only demotes. -/
theorem Proc.account_queueLevel {p q : Proc N υ} {prev : ℤ} {b : Bool}
    (h : p.account prev = some (q, b)) : p.queueLevel ≤ q.queueLevel := by
  unfold Proc.account at h
  obtain ⟨quantum, -, hq⟩ := Option.map_eq_some_iff.1 h
  split_ifs at hq <;> cases hq <;> dsimp only <;> omega

section Step

variable [DecidableEq κ] [NeZero N] {boot : κ} {s s' : State κ N υ δ} {c : κ} {e : Event N}

omit [NeZero N] in
/-- A timer interrupt of a scan. -/
theorem Cpu.ScansAt.clock {k : List (Instr N υ)} {level p : ℕ} {m : Mem N υ}
    (hx : (s.cpu c).ScansAt k level p) :
    ScanStep m k level p .tau ((s.setCtl c (.clockintr ::
      (trapCode (inUser C (s.cpu c).ctl) true ++ (s.cpu c).ctl))).cpu c) := by
  rw [hx.inUser_eq_false, State.setCtl, State.setCpu_self]
  refine .stay (hx.interrupt (.clockintr :: trapCode false true) fun i hi => ?_) (by simp)
  rcases List.mem_cons.1 hi with rfl | hi
  exacts [trivial, handler_trapCode true i hi]

omit [NeZero N] in
/-- The interrupt of a device. -/
theorem Cpu.ScansAt.device {k : List (Instr N υ)} {level p : ℕ} {m : Mem N υ}
    (hx : (s.cpu c).ScansAt k level p) (a : ℕ) (chan : Chan N) :
    ScanStep m k level p .tau ((s.setCtl c (devintrCode a chan ++
      (trapCode (inUser C (s.cpu c).ctl) false ++ (s.cpu c).ctl))).cpu c) := by
  rw [hx.inUser_eq_false, State.setCtl, State.setCpu_self, ← List.append_assoc]
  refine .stay (hx.interrupt (devintrCode a chan ++ trapCode false false) fun i hi => ?_)
    (by simp)
  rcases List.mem_append.1 hi with hi | hi
  · simp only [devintrCode, List.mem_cons, List.not_mem_nil, or_false] at hi
    rcases hi with rfl | rfl | rfl <;> trivial
  · exact handler_trapCode false i hi

/-- A step in an interrupt of a scan. -/
theorem Step.scan_handler {k ctl h : List (Instr N υ)} {i : Instr N υ} {level p : ℕ}
    (hproc : (s.cpu c).proc = none) (hctl : (s.cpu c).ctl = i :: h ++ ctl)
    (hh : ∀ j ∈ i :: h, j.Handler) (hscan : Scan k level p ctl) (t : Step boot C s (c, e) s') :
    ScanStep s.mem k level p e (s'.cpu c) := by
  have hx : (s.cpu c).ScansAt k level p := ⟨hproc, i :: h, ctl, hctl, hh, hscan⟩
  have hi := hh i (by simp)
  have hrest : ∀ j ∈ h, j.Handler := fun j hj => hh j (List.mem_cons_of_mem _ hj)
  cases t with
  | acquire hctl' hfree | release hctl' hheld =>
    rw [hctl'] at hctl
    cases hctl
    refine .stay ⟨?_, h, ctl, ?_, hrest, hscan⟩ (by simp)
    · exact (congrArg Cpu.proc (s.setCpu_self c _)).trans hproc
    · exact congrArg Cpu.ctl (s.setCpu_self c _)
  | @exec _ _ _ _ _ k' _ hctl' he =>
    rw [hctl'] at hctl
    cases hctl
    rw [hproc] at he
    obtain ⟨hk', hne⟩ := exec_handler hi he
    refine .stay ⟨?_, k' ++ h, ctl, ?_, fun j hj => ?_, hscan⟩ hne
    · exact (congrArg Cpu.proc (s.setCpu_self c _)).trans hproc
    · exact (congrArg Cpu.ctl (s.setCpu_self c _)).trans (List.append_assoc ..).symm
    · rcases List.mem_append.1 hj with hj | hj
      exacts [hk' j hj, hrest j hj]
  | user hctl' | dispatch hctl' | account hctl' | sched hctl' =>
    rw [hctl'] at hctl
    cases hctl
    cases hi
  | clock hheld htrap => exact hx.clock
  | device a chan hheld htrap => exact hx.device a chan

/-- A step of a CPU in a scan. -/
theorem Step.scan {k : List (Instr N υ)} {level p : ℕ} (hx : (s.cpu c).ScansAt k level p)
    (t : Step boot C s (c, e) s') : ScanStep s.mem k level p e (s'.cpu c) := by
  obtain ⟨hproc, h, ctl, hctl, hh, hscan⟩ := id hx
  cases h with
  | cons i h => exact t.scan_handler hproc hctl hh hscan
  | nil =>
    have stay : ∀ {k' : List (Instr N υ)} {x : Cpu N υ}, x = { s.cpu c with ctl := k' } →
        ∀ {level p}, Scan k level p k' → x.ScansAt k level p := by
      rintro k' _ rfl level p hscan
      exact ⟨hproc, [], k', rfl, by simp, hscan⟩
    rw [List.nil_append] at hctl
    cases t with
    | clock hheld htrap => exact hx.clock
    | device a chan hheld htrap => exact hx.device a chan
    | acquire hctl' hfree =>
      rw [hctl'] at hctl
      subst hctl
      cases hscan
      exact .stay (stay (s.setCpu_self c _) (.test ..)) (by simp)
    | release hctl' hheld =>
      rw [hctl'] at hctl
      subst hctl
      cases hscan
      exact .stay (stay (s.setCpu_self c _) (.next ..)) (by simp)
    | dispatch hctl' hel =>
      rw [hctl'] at hctl
      subst hctl
      cases hscan
      exact .found _ hel rfl
    | user hctl' | account hctl' | sched hctl' =>
      rw [hctl'] at hctl
      subst hctl
      cases hscan
    | exec hctl' he =>
      rw [hctl'] at hctl
      subst hctl
      cases hscan with
      | next =>
        simp only [Kernel.exec] at he
        split_ifs at he with hp hlevel <;> cases he
        · exact .stay (stay (s.setCpu_self c _) (.lock level ⟨p, hp⟩)) (by simp)
        · exact .level (by omega) (stay (s.setCpu_self c _) (.next ..)) rfl
        · exact .done (by omega) (by omega) rfl
      | lock => cases he
      | test q =>
        simp only [Kernel.exec] at he
        split_ifs at he with hel
        cases he
        exact .miss q rfl (by simpa using hel) (stay (s.setCpu_self c _) (.miss level q)) rfl
      | miss => cases he

/-! ## A process that is ahead of the scan -/

/-- The level of a process that waits gets lower only when an aging pass promotes it. -/
theorem Step.queueLevel {q : Fin N} (t : Step boot C s (c, e) s')
    (hst : (s.mem.proc q).state = .runnable) (hst' : (s'.mem.proc q).state = .runnable) :
    (s.mem.proc q).queueLevel ≤ (s'.mem.proc q).queueLevel ∨
      e = .promote q ∧ (s'.mem.proc q).queueLevel = (s.mem.proc q).queueLevel - 1 := by
  cases t with
  | acquire | release | user | clock | device => exact .inl le_rfl
  | exec _ he =>
    cases exec_ageStep he q with
    | same _ hl => exact .inl hl.ge
    | reset hne => exact absurd hst hne
    | age _ _ hl => exact .inl hl.ge
    | promote _ _ _ _ hl he => exact .inr ⟨he, hl⟩
  | @dispatch _ level p =>
    left
    rw [State.setMem_mem, Mem.set_proc] at hst' ⊢
    split_ifs at hst' ⊢ with hq
    · cases hst'
    · exact le_rfl
  | @account _ p prev r b _ _ hr =>
    left
    rw [State.setMem_mem, Mem.set_proc]
    split_ifs with hq
    · subst hq
      exact Proc.account_queueLevel hr
    · exact le_rfl
  | @sched _ p k =>
    left
    rw [State.setMem_mem, Mem.set_proc]
    split_ifs with hq
    · rw [hq]
    · exact le_rfl

/-- An aging pass that promotes `q` leaves it ahead of the scan of the CPU `c`. -/
def Spares (c : κ) (q : Fin N) (s : State κ N υ δ) (x : κ × Event N) : Prop :=
  x.2 = .promote q → ∀ k level p, (s.cpu c).ScansAt k level p →
    Ahead level p q ((s.mem.proc q).queueLevel - 1)

/-- The CPU `c` is in a scan, and `q` is ahead of it. -/
def InScan (c : κ) (q : Fin N) (s : State κ N υ δ) : Prop :=
  ∃ k level p, (s.cpu c).ScansAt k level p ∧ Ahead level p q (s.mem.proc q).queueLevel

/-- A process that waits stays ahead of the scan. -/
theorem InScan.step {q : Fin N} {c' : κ} (hscan : InScan c q s) (t : Step boot C s (c', e) s')
    (hspares : Spares c q s (c', e)) (hst : (s.mem.proc q).state = .runnable)
    (hst' : (s'.mem.proc q).state = .runnable) (hlevel : (s.mem.proc q).queueLevel < mlfqLevels)
    (hno : ∀ p, (c', e) ≠ (c, .dispatch p)) : InScan c q s' := by
  obtain ⟨k, level, p, hx, hahead⟩ := hscan
  have hkeep : Ahead level p q (s'.mem.proc q).queueLevel := by
    rcases t.queueLevel hst hst' with hl | ⟨he, hl⟩
    · exact hahead.mono hl
    · rw [hl]
      exact hspares he k level p hx
  by_cases hc : c' = c
  · subst hc
    have hmono : e = .tau → (s.mem.proc q).queueLevel ≤ (s'.mem.proc q).queueLevel := by
      rintro rfl
      rcases t.queueLevel hst hst' with hl | ⟨he, -⟩
      · exact hl
      · cases he
    cases t.scan hx with
    | stay h => exact ⟨k, level, p, h, hkeep⟩
    | miss r hr hne h he =>
      refine ⟨k, level, p + 1, h, Ahead.mono ?_ (hmono he)⟩
      rcases hahead with hl | ⟨hl, hp⟩
      · exact .inl hl
      · refine .inr ⟨hl, Nat.lt_of_le_of_ne hp fun hpq => ?_⟩
        -- the slot of `q` is tested, and `q` is eligible
        have hrq : r = q := Fin.ext (hr.trans hpq)
        rw [hrq] at hne
        exact of_decide_eq_false hne ⟨hst, hl.symm⟩
    | level hp h he =>
      refine ⟨k, level + 1, 0, h, Ahead.mono ?_ (hmono he)⟩
      rcases hahead with hl | ⟨-, hpq⟩
      · rcases (show (level : ℤ) + 1 ≤ _ from hl).lt_or_eq with hl | hl
        · exact .inl (by exact_mod_cast hl)
        · exact .inr ⟨by exact_mod_cast hl, Nat.zero_le _⟩
      · omega
    | found r _ he => exact absurd (by rw [he]) (hno r)
    | done hp hl => rcases hahead with hq | ⟨-, hpq⟩ <;> omega
  · refine ⟨k, level, p, ?_, hkeep⟩
    rwa [t.cpu_of_ne (Ne.symm hc)]

end Step

/-! ## The scan finds a process -/

section Run

variable [DecidableEq κ] [NeZero N] {boot : κ} {start : δ → Prop} {s s' : State κ N υ δ} {c : κ}
  {q : Fin N}

theorem inScan_of_path (hC : C.Disciplined) {k : List (Instr N υ)} {h : List (κ × Event N)}
    (hs : (kernel boot C start).Reachable s) (hctl : (s.cpu c).ctl = .scan 0 0 :: k)
    (path : ((kernel boot C start).restrict (Spares c q)).Within
      (fun s => (s.mem.proc q).state = .runnable) s h s')
    (hno : ∀ x ∈ h, ∀ p, x ≠ (c, .dispatch p)) :
    (kernel boot C start).Reachable s' ∧ InScan c q s' := by
  have hlevel : ∀ {s : State κ N υ δ}, (kernel boot C start).Reachable s →
      0 ≤ (s.mem.proc q).queueLevel ∧ (s.mem.proc q).queueLevel < mlfqLevels :=
    fun ⟨_, r⟩ => ((accounted_of_run hC r).slot q).level
  induction path with
  | refl hst =>
    have hd : Disc C (s.cpu c).proc (s.held c) (.scan 0 0 :: k) :=
      ((safe_of_reachable hC hs).cpu c).disc hctl (by simp)
    refine ⟨hs, k, 0, 0, ⟨hd.1, [], _, hctl, by simp, .next 0 0⟩, ?_⟩
    rcases (hlevel hs).1.lt_or_eq with hl | hl
    exacts [.inl hl, .inr ⟨hl, Nat.zero_le _⟩]
  | @step h s₁ x s₂ path t hst ih =>
    obtain ⟨hs₁, hscan⟩ := ih fun x hx => hno x (List.mem_cons_of_mem _ hx)
    exact ⟨hs₁.step t.1, hscan.step t.1 t.2 path.last hst (hlevel hs₁).2 (hno x (by simp))⟩

/-- **The scan finds a process.** A process `q` is RUNNABLE from the start of a scan on, and no
aging pass promotes it to where the scan has already been. As long as the scan has not found a
process it has not ended, and the process that it finds is at a level that is not above the one
of `q`. -/
theorem scan_finds (hC : C.Disciplined) {k : List (Instr N υ)} {h : List (κ × Event N)}
    (hs : (kernel boot C start).Reachable s) (hctl : (s.cpu c).ctl = .scan 0 0 :: k)
    (path : ((kernel boot C start).restrict (Spares c q)).Within
      (fun s => (s.mem.proc q).state = .runnable) s h s')
    (hno : ∀ x ∈ h, ∀ p, x ≠ (c, .dispatch p)) :
    (∀ k', (s'.cpu c).ctl ≠ .aging 0 :: k') ∧
      ∀ p s'', Step boot C s' (c, .dispatch p) s'' →
        (s'.mem.proc p).queueLevel ≤ (s'.mem.proc q).queueLevel := by
  obtain ⟨-, k₁, level, p₁, hx, hahead⟩ := inScan_of_path hC hs hctl path hno
  refine ⟨fun k' hk' => hx.ctl_ne_aging hk', fun p s'' t => ?_⟩
  cases t.scan hx with
  | stay _ he => exact absurd rfl (he p)
  | miss _ _ _ _ he | level _ _ he | done _ _ he => cases he
  | found r hel he =>
    cases he
    have hp : (s'.mem.proc p).queueLevel = level := (of_decide_eq_true hel).2
    rw [hp]
    rcases hahead with hl | ⟨hl, -⟩
    exacts [hl.le, hl.le]

end Run

/-- CPU 1 has come to the first process of the source, and holds its lock. -/
theorem scan_finds_boot :
    ∃ s : State (Fin 8) NPROC SysPoint Unit, (s.cpu 1).ctl = [.scanTest 0 0] ∧
      (∀ k', (s.cpu 1).ctl ≠ .aging 0 :: k') ∧
      ∀ p s', Step 0 sysproc s (1, .dispatch p) s' →
        (s.mem.proc p).queueLevel ≤ (s.mem.proc 0).queueLevel := by
  let s₀ : State (Fin 8) NPROC SysPoint Unit := bootState (Fin 8) sysproc ()
  let s₁ := (s₀.setCtl 1 ([.acquire (.proc 0), .scanTest 0 0] ++ [])).setMem s₀.mem
  have hs : (kernel (0 : Fin 8) sysproc fun _ => True).Reachable s₀ :=
    ⟨[], .init ⟨boot_bootState .., trivial⟩⟩
  have he : exec sysproc (decide ((1 : Fin 8) = 0)) none true s₀.mem (.scan 0 0) =
      some (s₀.mem, [.acquire (.proc 0), .scanTest 0 0], .tau) := rfl
  have hctl : (s₀.cpu 1).ctl = [.scan 0 0] := rfl
  have t₁ : Step (0 : Fin 8) sysproc s₀ (1, .tau) s₁ := .exec hctl he
  have t₂ : Step (0 : Fin 8) sysproc s₁ (1, .tau)
      ((s₁.setCtl 1 [.scanTest 0 0]).setHolder (.proc 0) (some 1)) := .acquire rfl rfl
  exact ⟨_, rfl, scan_finds sysproc_disciplined hs rfl
    (.step (.step (.refl rfl) ⟨t₁, nofun⟩ rfl) ⟨t₂, nofun⟩ rfl) (by simp)⟩

section Run

variable [DecidableEq κ] [NeZero N] {boot : κ} {start : δ → Prop} {s s' : State κ N υ δ} {c : κ}
  {q : Fin N}

/-! ## A promotion behind the scan -/

/-- A process is RUNNABLE when it is found, and RUNNING then. -/
theorem Step.dispatched {p : Fin N} (t : Step boot C s (c, .dispatch p) s') :
    (s.mem.proc p).state = .runnable ∧ (s'.mem.proc p).state = .running := by
  generalize he : Event.dispatch p = e at t
  cases t with
  | acquire | release | user | sched | clock | device => cases he
  | @account _ _ _ _ b => cases b <;> cases he
  | exec _ hexec =>
    obtain ⟨hz, r, rfl⟩ := exec_takes hexec (.inl he.symm)
    simp only [Kernel.exec] at hexec
    split_ifs at hexec <;> cases hexec <;> cases he
  | dispatch _ hel =>
    cases he
    refine ⟨(of_decide_eq_true hel).1, ?_⟩
    rw [State.setMem_mem, Mem.set_proc_self]
    rfl

theorem Leads.reachable {A V : Set (Fin N)} (h : Leads boot C c A V s s')
    (hs : (kernel boot C start).Reachable s) : (kernel boot C start).Reachable s' := by
  induction h with
  | refl => exact hs
  | tail _ t ih =>
    obtain ⟨x, t, -⟩ := t
    exact ih.step t

/-- A path of the CPU `c` that leaves `q` waiting, and on which the CPU `d` finds no process. -/
theorem Leads.within (start : δ → Prop) {A V : Set (Fin N)} {d : κ} (h : Leads boot C c A V s s')
    (hq : q ∉ A) (hd : c ≠ d ∨ A = ∅) (hst : (s.mem.proc q).state = .runnable) :
    ∃ g, (kernel boot C start).Within (fun s => (s.mem.proc q).state = .runnable) s g s' ∧
      ∀ x ∈ g, ∀ p, x ≠ (d, .dispatch p) := by
  induction h with
  | refl => exact ⟨[], .refl hst, by simp⟩
  | tail _ t ih =>
    obtain ⟨g, path, hno⟩ := ih
    obtain ⟨x, t, halone⟩ := t
    refine ⟨x :: g, path.step t ((halone.state q hq).trans path.last), ?_⟩
    rintro y hy p rfl
    rcases List.mem_cons.1 hy with rfl | hy
    · rcases hd with hd | rfl
      · exact hd halone.cpu.symm
      · obtain ⟨hst, hst'⟩ := t.dispatched
        rw [halone.state p (by simp), hst] at hst'
        cases hst'
    · exact hno _ hy p rfl

end Run

section Overtake

variable [DecidableEq κ] [NeZero N] {boot c : κ} {s : State κ N υ δ} {m : Mem N υ} {u : υ}
  {a b : Fin N} {ta wa tb : ℤ} {context : List (Instr N υ)}

/-- The CPU `c` finds the process in the slot `a`. -/
theorem Mem.Pair.find (hfree : ∀ l, s.holder l = none)
    (h : m.Pair u a b 2 ta wa 2 tb 199) (hab : a < b) :
    Leads boot C c {a} Set.univ (s.on c ⟨none, [.scan 0 0], none, context⟩ m)
      (s.on c ⟨some a, [.user u], some a,
        [.account a (m.proc a).totalTicks, .release (.proc a), .aging 0]⟩
        (m.set a (m.proc a).run)) :=
  Leads.find hfree (Set.mem_singleton a) (h.first (by decide) (.inr ⟨rfl, hab⟩))
    h.left.toParked .refl

/-- While the process in the slot `a` runs, a scan passes it. -/
theorem Mem.Pair.scan (hfree : ∀ l, s.holder l = none)
    (h : m.Pair u a b 2 ta wa 2 tb 199) (hab : a < b) :
    Leads boot C c ∅ ∅ (s.on c ⟨none, [.scan 0 0], none, context⟩ (m.set a (m.proc a).run))
      (s.on c ⟨none, [.scan 2 (a + 1)], none, context⟩ (m.set a (m.proc a).run)) := by
  have hfirst : m.First a 2 := h.first (by decide) (.inr ⟨rfl, hab⟩)
  have hne : ∀ j l, (j ≠ a → (m.proc j).eligible l = false) →
      ((m.set a (m.proc a).run).proc j).eligible l = false := by
    intro j l hj
    rw [Mem.set_proc]
    split_ifs with hja
    · simp [Proc.eligible, Proc.run]
    · exact hj hja
  refine Leads.scanTo hfree (show ((2 : ℕ) : ℤ) < mlfqLevels by decide) (fun l hl j => ?_)
    (Leads.scan hfree (n := a + 1) (by omega) (fun j _ hj => ?_) ?_)
  · exact hne j l fun _ => hfirst.levels l hl j
  · refine hne j 2 fun hja => hfirst.slots j ?_
    have hval : (j : ℕ) ≠ a := fun hval => hja (Fin.ext hval)
    exact Fin.lt_def.2 (by omega)
  · rw [Nat.zero_add]
    exact .refl

/-- Then it yields, and the aging pass promotes the process in the slot `b`. -/
theorem Mem.Pair.overtake (hc : c ≠ boot) (hfree : ∀ l, s.holder l = none)
    (hu : C.inUser u = true) (h : m.Pair u a b 2 ta wa 2 tb 199) (hab : a < b) (ht₀ : 0 ≤ ta)
    (ht₁ : ta < 4) :
    ∃ x m', Leads boot C c {a} Set.univ (s.on c ⟨some a, [.user u], some a,
        [.account a (m.proc a).totalTicks, .release (.proc a), .aging 0]⟩
        (m.set a (m.proc a).run)) (s.on c x m') ∧
      ∀ j : Fin N, a + 1 ≤ (j : ℕ) → (m'.proc j).eligible 2 = false := by
  have hquantum : mlfqQuantum (2 : ℕ) = some 4 := rfl
  obtain ⟨q, e, hq, hwaits⟩ := Proc.account_turn (p := (m.proc a).run) (r := a) (u := u) hquantum
    h.left.queueLevel h.left.qTicks ht₀ ht₁ h.left.killed
  have hpromotes := h.promotes (Fin.ne_of_lt hab) (by decide) (by decide) q
  have hb : ((m.set a q).aged 0 b).proc b = m.proc b := m.proc_right (Fin.ne_of_lt hab) q
  have hself : (m.set a (m.proc a).run).proc a = (m.proc a).run := Mem.set_proc_self ..
  have hturn : Leads boot C c {a} Set.univ (s.on c ⟨some a, [.user u], some a,
      [.account a (m.proc a).totalTicks, .release (.proc a), .aging 0]⟩ (m.set a (m.proc a).run))
      (s.on c ⟨none, [.aging (b + 1)], none,
        [.account a (m.proc a).totalTicks, .release (.proc a), .aging 0]⟩
        (((m.set a q).aged 0 b).set b (m.proc b).age)) := by
    refine Leads.turn hc hfree (Set.mem_singleton a) hu (by rw [hself]; rfl)
      (by rw [hself]; exact h.left.killed) (by rw [hself]; exact hq)
      (Leads.toVisit hfree b (fun j _ => Set.mem_univ j) ?_)
    rw [Mem.set_set]
    refine Leads.exec _ [] _ rfl rfl (fun j _ => ?_) (by simp) (Leads.release (hfree _) ?_)
    · rw [Mem.set_proc]
      split_ifs with hj
      · rw [Proc.age_state, hj]
      · rfl
    · rw [hb]
      exact .refl
  refine ⟨_, _, hturn, fun j hj => decide_eq_false fun hel => ?_⟩
  have hja : j ≠ a := fun hja => by omega
  rw [Mem.set_proc] at hel
  split_ifs at hel with hjb
  · have hlevel : (m.proc b).age.queueLevel = 1 := by
      have hp := of_decide_eq_true (hb ▸ hpromotes)
      rw [Proc.age, if_pos hp.1, if_pos hp.2]
      simp [h.right.queueLevel]
    rw [hlevel] at hel
    cases hel.2
  · have hst := hel.1
    rw [Mem.aged_state, Mem.set_proc, if_neg hja, h.rest j hja hjb] at hst
    cases hst

/-- A scan that has only the last slots of the last level to visit, and finds no process there, has
ended. -/
theorem Leads.scanEnd (hfree : ∀ l, s.holder l = none) {p : ℕ} (hp : p ≤ N)
    (hno : ∀ j : Fin N, p ≤ j → (m.proc j).eligible 2 = false) :
    Leads boot C c ∅ ∅ (s.on c ⟨none, [.scan 2 p], none, context⟩ m)
      (s.on c ⟨none, [.aging 0], none, context⟩ m) := by
  refine Leads.scan hfree (n := N - p) (by omega) (fun j hj _ => hno j hj) ?_
  rw [Nat.add_sub_cancel' hp]
  refine Leads.exec m [.aging 0] .tau ?_ rfl (fun _ _ => rfl) (by simp) .refl
  simp [Kernel.exec, mlfqLevels]

/-- The CPU `d` scans meanwhile, and finds no process. -/
theorem Mem.Pair.missed (start : δ → Prop) {d : κ} (hc : c ≠ boot) (hcd : d ≠ c)
    (hfree : ∀ l, s.holder l = none) (hu : C.inUser u = true) (h : m.Pair u a b 2 ta wa 2 tb 199)
    (hab : a < b) (ht₀ : 0 ≤ ta) (ht₁ : ta < 4) {context' : List (Instr N υ)}
    (hcpu : s.cpu d = ⟨none, [.scan 0 0], none, context'⟩) :
    ∃ g s', (kernel boot C start).Within (fun s => (s.mem.proc b).state = .runnable)
        (s.on c ⟨none, [.scan 0 0], none, context⟩ m) g s' ∧
      (∀ x ∈ g, ∀ p, x ≠ (d, .dispatch p)) ∧ (s'.cpu d).ctl = [.aging 0] := by
  have hb : b ∉ ({a} : Set (Fin N)) := fun hba => absurd hba (Fin.ne_of_lt hab).symm
  have l₁ : Leads boot C c {a} Set.univ (s.on c ⟨none, [.scan 0 0], none, context⟩ m) _ :=
    h.find hfree hab
  generalize hs₁ : s.on c ⟨some a, [.user u], some a,
    [.account a (m.proc a).totalTicks, .release (.proc a), .aging 0]⟩
    (m.set a (m.proc a).run) = s₁ at l₁
  have hs₁d : s₁ = s₁.on d ⟨none, [.scan 0 0], none, context'⟩ (m.set a (m.proc a).run) := by
    subst hs₁
    exact State.eq_on ((s.on_cpu_of_ne hcd _ _).trans hcpu) rfl
  have hfree₁ : ∀ l, s₁.holder l = none := hs₁ ▸ hfree
  have l₂ : Leads boot C d ∅ ∅ (s₁.on d ⟨none, [.scan 0 0], none, context'⟩ _) _ :=
    h.scan hfree₁ hab
  rw [← hs₁d] at l₂
  generalize hs₂ : s₁.on d ⟨none, [.scan 2 (a + 1)], none, context'⟩
    (m.set a (m.proc a).run) = s₂ at l₂
  have hs₂c : s₂ = s₂.on c ⟨some a, [.user u], some a,
      [.account a (m.proc a).totalTicks, .release (.proc a), .aging 0]⟩
      (m.set a (m.proc a).run) := by
    subst hs₂
    refine State.eq_on ((s₁.on_cpu_of_ne hcd.symm _ _).trans ?_) rfl
    rw [← hs₁, State.on_cpu_self]
  have hfree₂ : ∀ l, s₂.holder l = none := hs₂ ▸ hfree₁
  obtain ⟨x, m', l₃, hno⟩ := h.overtake (C := C) (s := s₂) hc hfree₂ hu hab ht₀ ht₁
  rw [← hs₂c] at l₃
  generalize hs₃ : s₂.on c x m' = s₃ at l₃
  have hs₃d : s₃ = s₃.on d ⟨none, [.scan 2 (a + 1)], none, context'⟩ m' := by
    subst hs₃
    refine State.eq_on ((s₂.on_cpu_of_ne hcd _ _).trans ?_) rfl
    rw [← hs₂, State.on_cpu_self]
  have hfree₃ : ∀ l, s₃.holder l = none := hs₃ ▸ hfree₂
  have l₄ : Leads boot C d ∅ ∅ (s₃.on d ⟨none, [.scan 2 (a + 1)], none, context'⟩ m') _ :=
    Leads.scanEnd hfree₃ (by omega) hno
  rw [← hs₃d] at l₄
  obtain ⟨g₁, p₁, n₁⟩ := l₁.within start hb (.inl hcd.symm) h.right.state
  obtain ⟨g₂, p₂, n₂⟩ := l₂.within start (d := d) (Set.notMem_empty b) (.inr rfl) p₁.last
  obtain ⟨g₃, p₃, n₃⟩ := l₃.within start hb (.inl hcd.symm) p₂.last
  obtain ⟨g₄, p₄, n₄⟩ := l₄.within start (d := d) (Set.notMem_empty b) (.inr rfl) p₃.last
  refine ⟨_, _, p₁.append (p₂.append (p₃.append p₄)), fun x hx => ?_, by rw [State.on_cpu_self]⟩
  simp only [List.mem_append] at hx
  rcases hx with ((hx | hx) | hx) | hx
  exacts [n₄ x hx, n₃ x hx, n₂ x hx, n₁ x hx]

end Overtake

/-- While CPU 2 scans, CPU 1 runs the process in slot 0, ages the one in slot 1 for the 200th time,
and promotes it, behind the scan: CPU 2 finds no process though that one has been RUNNABLE all the
time. -/
theorem scan_misses :
    ∃ s h s', (kernel (0 : Fin 8) (sysproc (N := NPROC)) fun _ => True).Reachable s ∧
      (s.cpu 2).ctl = [.scan 0 0] ∧
      (kernel (0 : Fin 8) (sysproc (N := NPROC)) fun _ => True).Within
        (fun s => (s.mem.proc 1).state = .runnable) s h s' ∧
      (∀ x ∈ h, ∀ p, x ≠ (2, .dispatch p)) ∧ (s'.cpu 2).ctl = [.aging 0] := by
  obtain ⟨h, s, r, -, -, hforked⟩ := exists_forked
  have hs := safe_of_reachable sysproc_disciplined ⟨h, r⟩
  obtain ⟨s₁, m, t, w, hpath, ⟨context, rfl⟩, ht₀, ht₁, hpair⟩ := hforked.starve hs
  obtain ⟨context₂, hcpu₂⟩ := hforked.cpu_ne (c := 2) (by decide)
  have hfree := hforked.free hs
  obtain ⟨g, s', path, hno, hctl⟩ := hpair.missed (C := sysproc) (fun _ => True)
    (show (1 : Fin 8) ≠ 0 by decide) (show (2 : Fin 8) ≠ 1 by decide) hfree rfl
    (by decide) ht₀ ht₁ hcpu₂
  refine ⟨_, g, s', hpath.reachable ⟨h, r⟩, ?_, path, hno, hctl⟩
  rw [State.on_cpu_of_ne s (by decide), hcpu₂]

end Xv6.Kernel
