import Xv6.Kernel.Accounting
import Xv6.Kernel.Simulate
import Mathlib.Logic.Relation
import Mathlib.Tactic.Set

/-!
# Rounds of a CPU

A round of a CPU that is not the boot CPU, while no other CPU holds a lock: the scheduler scans the
levels and runs the process that it finds (`Leads.find`), until the next clock interrupt
(`Leads.turn`); then it ages the processes (`Leads.agingEnd`). The paths are of any length, so a
fact about hundreds of rounds is an induction on them and no computation (`Rounds.starve`). Such a
CPU does not increment `ticks`; a clock interrupt of the boot CPU does (`exists_tick`).
-/

namespace Xv6.Kernel

variable {κ : Type} {N : ℕ} {υ δ : Type} [DecidableEq κ]

/-! ## Paths of one CPU -/

/-- The state with the CPU `c` and the table changed. -/
def State.on (s : State κ N υ δ) (c : κ) (x : Cpu N υ) (m : Mem N υ) : State κ N υ δ :=
  (s.setCpu c x).setMem m

theorem Mem.set_set (m : Mem N υ) (p : Fin N) (q q' : Proc N υ) :
    (m.set p q).set p q' = m.set p q' := by
  simp only [Mem.set, Function.update_idem]

theorem Mem.set_proc_self (m : Mem N υ) (p : Fin N) (q : Proc N υ) : (m.set p q).proc p = q :=
  Function.update_self ..

/-- The table when the aging pass has gone through the slots from `a` to `b`. -/
def Mem.aged (m : Mem N υ) (a b : ℕ) : Mem N υ :=
  { m with proc := fun j => if a ≤ j ∧ j < b then (m.proc j).age else m.proc j }

section On

variable {s : State κ N υ δ} {c : κ} {x y : Cpu N υ} {m m' : Mem N υ}

@[simp] theorem State.on_cpu_self : (s.on c x m).cpu c = x := s.setCpu_self c x

@[simp] theorem State.on_mem : (s.on c x m).mem = m := rfl

theorem State.eq_on (hx : s.cpu c = x) (hm : s.mem = m) : s = s.on c x m := by
  subst hx hm
  simp only [State.on, State.setCpu, Function.update_eq_self]
  rfl

theorem State.on_cpu_of_ne (s : State κ N υ δ) {c c' : κ} (hc : c' ≠ c) (x : Cpu N υ)
    (m : Mem N υ) : (s.on c x m).cpu c' = s.cpu c' :=
  State.setCpu_of_ne s hc x

theorem State.on_setCpu : ((s.on c x m).setCpu c y).setMem m' = s.on c y m' := by
  simp only [State.on, State.setCpu, State.setMem, Function.update_idem]

theorem State.on_setCtl {k : List (Instr N υ)} :
    (s.on c x m).setCtl c k = s.on c ⟨x.who, k, x.proc, x.context⟩ m := by
  simp only [State.setCtl, State.on_cpu_self]
  exact State.on_setCpu

/-- The state with `l` held by the CPU `c`. -/
def State.lock (s : State κ N υ δ) (c : κ) (l : Lock N) : State κ N υ δ := s.setHolder l (some c)

omit [DecidableEq κ] in
theorem State.lock_release {l : Lock N} (h : s.holder l = none) :
    (s.lock c l).setHolder l none = s := by
  simp only [State.lock, State.setHolder, Function.update_idem]
  rw [← h, Function.update_eq_self]

end On

variable [NeZero N] {boot c : κ} {C : Client N υ δ}

/-- A step of the CPU `c` that increments no `ticks`, leaves the states of the processes outside `A`
alone, and is no visit of an aging pass to a process outside `V` that waits. -/
structure Alone (c : κ) (A V : Set (Fin N)) (s : State κ N υ δ) (x : κ × Event N)
    (s' : State κ N υ δ) : Prop where
  cpu : x.1 = c
  ticks : s'.mem.ticks = s.mem.ticks
  state : ∀ j, j ∉ A → (s'.mem.proc j).state = (s.mem.proc j).state
  visit : ∀ j, j ∉ V → x.2 ≠ .age j ∧ x.2 ≠ .promote j

/-- Steps of the CPU `c` lead from `s` to `s'`. -/
def Leads (boot : κ) (C : Client N υ δ) (c : κ) (A V : Set (Fin N)) :
    State κ N υ δ → State κ N υ δ → Prop :=
  Relation.ReflTransGen fun s s' => ∃ x, Step boot C s x s' ∧ Alone c A V s x s'

theorem Leads.mono {s s' : State κ N υ δ} {A V V' : Set (Fin N)} (h : Leads boot C c A V s s')
    (hV : V ⊆ V') : Leads boot C c A V' s s' := by
  induction h with
  | refl => exact .refl
  | tail _ t ih =>
    obtain ⟨x, t, halone⟩ := t
    exact ih.tail ⟨x, t, halone.cpu, halone.ticks, halone.state,
      fun j hj => halone.visit j fun hj' => hj (hV hj')⟩

section Moves

variable {s : State κ N υ δ} {A V : Set (Fin N)} {who proc : Option (Fin N)}
  {context k : List (Instr N υ)} {m : Mem N υ} {s' : State κ N υ δ}

theorem Leads.head {s₁ : State κ N υ δ} {e : Event N} (t : Step boot C s (c, e) s₁)
    (hticks : s₁.mem.ticks = s.mem.ticks)
    (hstate : ∀ j, j ∉ A → (s₁.mem.proc j).state = (s.mem.proc j).state)
    (hvisit : ∀ j, j ∉ V → e ≠ .age j ∧ e ≠ .promote j) (h : Leads boot C c A V s₁ s') :
    Leads boot C c A V s s' :=
  Relation.ReflTransGen.head ⟨(c, e), t, rfl, hticks, hstate, hvisit⟩ h

/-- `acquire` -/
theorem Leads.acquire {l : Lock N} (hfree : s.holder l = none)
    (h : Leads boot C c A V ((s.lock c l).on c ⟨who, k, proc, context⟩ m) s') :
    Leads boot C c A V (s.on c ⟨who, .acquire l :: k, proc, context⟩ m) s' := by
  refine Leads.head (e := .tau) ?_ (by rfl) (fun _ _ => by rfl) (by simp) h
  have hctl : ((s.on c ⟨who, .acquire l :: k, proc, context⟩ m).cpu c).ctl =
      .acquire l :: k := by
    rw [State.on_cpu_self]
  have t : Step boot C _ _ _ := Step.acquire hctl hfree
  rw [State.on_setCtl] at t
  exact t

/-- `release` -/
theorem Leads.release {l : Lock N} (hfree : s.holder l = none)
    (h : Leads boot C c A V (s.on c ⟨who, k, proc, context⟩ m) s') :
    Leads boot C c A V ((s.lock c l).on c ⟨who, .release l :: k, proc, context⟩ m) s' := by
  refine Leads.head (e := .tau) ?_ (by rfl) (fun _ _ => by rfl) (by simp) h
  have hctl : (((s.lock c l).on c ⟨who, .release l :: k, proc, context⟩ m).cpu c).ctl =
      .release l :: k := by
    rw [State.on_cpu_self]
  have t : Step boot C _ _ _ := Step.release hctl (Function.update_self ..)
  rw [State.on_setCtl] at t
  have hs : ((s.lock c l).on c ⟨who, k, proc, context⟩ m).setHolder l none =
      s.on c ⟨who, k, proc, context⟩ m := by
    change ((s.lock c l).setHolder l none).on c _ m = _
    rw [State.lock_release hfree]
  rw [hs] at t
  exact t

/-- An instruction of the kernel's functions. -/
theorem Leads.exec {i : Instr N υ} (m' : Mem N υ) (k' : List (Instr N υ)) (e : Event N)
    (he : exec C (c = boot) proc true m i = some (m', k', e)) (hticks : m'.ticks = m.ticks)
    (hstate : ∀ j, j ∉ A → (m'.proc j).state = (m.proc j).state)
    (hvisit : ∀ j, j ∉ V → e ≠ .age j ∧ e ≠ .promote j)
    (h : Leads boot C c A V (s.on c ⟨who, k' ++ k, proc, context⟩ m') s') :
    Leads boot C c A V (s.on c ⟨who, i :: k, proc, context⟩ m) s' := by
  refine Leads.head (e := e) ?_ hticks hstate hvisit h
  have hctl : ((s.on c ⟨who, i :: k, proc, context⟩ m).cpu c).ctl = i :: k := by
    rw [State.on_cpu_self]
  have he' : Kernel.exec C (c = boot) ((s.on c ⟨who, i :: k, proc, context⟩ m).cpu c).proc true
      (s.on c ⟨who, i :: k, proc, context⟩ m).mem i = some (m', k', e) := by
    rw [State.on_cpu_self]
    exact he
  have t := Step.exec (C := C) hctl he'
  rw [State.on_setCtl] at t
  exact t

/-! ## The scan -/

/-- The scan of a level passes the slots without an eligible process. -/
theorem Leads.scan (hfree : ∀ l, s.holder l = none) {level p n : ℕ}
    (hn : p + n ≤ N)
    (hno : ∀ j : Fin N, p ≤ j → j < p + n → (m.proc j).eligible level = false)
    (h : Leads boot C c A V (s.on c ⟨who, .scan level (p + n) :: k, proc, context⟩ m) s') :
    Leads boot C c A V (s.on c ⟨who, .scan level p :: k, proc, context⟩ m) s' := by
  induction n generalizing p with
  | zero => exact h
  | succ n ih =>
    have hp : p < N := by omega
    have hnext : Leads boot C c A V
        (s.on c ⟨who, .scan level (p + 1) :: k, proc, context⟩ m) s' := by
      refine ih (by omega) (fun j hj hj' => hno j (by omega) (by omega)) ?_
      rwa [show p + 1 + n = p + (n + 1) by omega]
    have htest : (m.proc ⟨p, hp⟩).eligible level = false := hno ⟨p, hp⟩ le_rfl (by simp)
    refine Leads.exec m [.acquire (.proc ⟨p, hp⟩), .scanTest level ⟨p, hp⟩] _ (dif_pos hp) rfl
      (fun _ _ => rfl) (by simp) (Leads.acquire (hfree _) ?_)
    refine Leads.exec m [.release (.proc ⟨p, hp⟩), .scan level (p + 1)] .tau ?_ rfl
      (fun _ _ => rfl) (by simp) ?_
    · simp [Kernel.exec, htest]
    · exact Leads.release (hfree _) hnext

/-- The scan goes on to the next level. -/
theorem Leads.nextLevel {level : ℕ} (hlevel : (level + 1 : ℤ) < mlfqLevels)
    (h : Leads boot C c A V (s.on c ⟨who, .scan (level + 1) 0 :: k, proc, context⟩ m) s') :
    Leads boot C c A V (s.on c ⟨who, .scan level N :: k, proc, context⟩ m) s' := by
  refine Leads.exec m [.scan (level + 1) 0] .tau ?_ rfl (fun _ _ => rfl) (by simp) h
  simp [Kernel.exec, hlevel]

/-- The scan goes through a level without an eligible process. -/
theorem Leads.scanLevel (hfree : ∀ l, s.holder l = none) {level : ℕ}
    (hlevel : (level + 1 : ℤ) < mlfqLevels) (hno : ∀ j, (m.proc j).eligible level = false)
    (h : Leads boot C c A V (s.on c ⟨who, .scan (level + 1) 0 :: k, proc, context⟩ m) s') :
    Leads boot C c A V (s.on c ⟨who, .scan level 0 :: k, proc, context⟩ m) s' := by
  refine Leads.scan hfree (n := N) (by omega) (fun j _ _ => hno j) ?_
  rw [Nat.zero_add]
  exact h.nextLevel hlevel

/-- The scan finds the process in slot `p`, which gives back the lock that the scheduler took. -/
theorem Leads.dispatch (hfree : ∀ l, s.holder l = none) {level : ℕ} {p : Fin N}
    (hA : p ∈ A)
    (hel : (m.proc p).eligible level = true) {k' : List (Instr N υ)}
    (hctx : (m.proc p).context = .release (.proc p) :: k')
    (h : Leads boot C c A V (s.on c ⟨some p, k', some p,
      .account p (m.proc p).totalTicks :: .release (.proc p) :: .aging 0 :: k⟩
      (m.set p (m.proc p).run)) s') :
    Leads boot C c A V (s.on c ⟨who, .scan level p :: k, proc, context⟩ m) s' := by
  refine Leads.exec m [.acquire (.proc p), .scanTest level p] _ (dif_pos p.isLt) rfl
    (fun _ _ => rfl) (by simp) (Leads.acquire (hfree _) ?_)
  have t : Step boot C ((s.lock c (.proc p)).on c ⟨who, .scanTest level p :: k, proc, context⟩ m)
      (c, _) _ := Step.dispatch (by rw [State.on_cpu_self]) hel
  rw [State.on_setCpu] at t
  refine Leads.head t rfl (fun j hj => ?_) (by simp) ?_
  · simp only [State.on_mem]
    rw [Mem.set_proc, if_neg (ne_of_mem_of_not_mem hA hj).symm]
  · simp only [State.on_mem, hctx]
    exact Leads.release (hfree _) h

/-! ## The turn of a process -/

/-- What a process is after its turn: a clock interrupt of a CPU that is not the boot CPU has
charged it for a tick, and it has yielded. -/
def Proc.turn (p : Proc N υ) (k : List (Instr N υ)) : Proc N υ :=
  { p.chargeTick with state := .runnable, context := k }

/-- A process that is in user space is interrupted and yields. -/
theorem Leads.turn (hc : c ≠ boot) (hfree : ∀ l, s.holder l = none) {p : Fin N} (hA : p ∈ A)
    {u : υ} (hu : C.inUser u = true) (hrun : (m.proc p).state = .running)
    (hkilled : (m.proc p).killed = false) {q' : Proc N υ} {prev : ℤ} {b : Bool}
    (hq : ((m.proc p).turn [.release (.proc p), .trapRet, .user u]).account prev = some (q', b))
    (h : Leads boot C c A V (s.on c ⟨none, .aging 0 :: k, none,
      .account p prev :: .release (.proc p) :: .aging 0 :: k⟩ (m.set p q')) s') :
    Leads boot C c A V (s.on c ⟨some p, [.user u], some p,
      .account p prev :: .release (.proc p) :: .aging 0 :: k⟩ m) s' := by
  have hstate : ∀ (m : Mem N υ) (x : Proc N υ) (j : Fin N), j ∉ A →
      ((m.set p x).proc j).state = (m.proc j).state := by
    intro m x j hj
    rw [Mem.set_proc, if_neg (ne_of_mem_of_not_mem hA hj).symm]
  set ctx : List (Instr N υ) := .account p prev :: .release (.proc p) :: .aging 0 :: k
  -- the interrupt
  have hheld : (s.on c ⟨some p, [.user u], some p, ctx⟩ m).held c = ∅ := by
    refine Set.eq_empty_of_forall_notMem fun l hl => ?_
    have hl' : s.holder l = some c := hl
    rw [hfree l] at hl'
    cases hl'
  have t : Step boot C _ _ _ := Step.clock hheld (by rw [State.on_cpu_self]; simp)
  rw [State.on_setCtl, State.on_cpu_self] at t
  refine Leads.head t rfl (fun _ _ => rfl) (by simp) ?_
  have htrap : trapCode (inUser C [.user u]) true =
      ([.usertrap true, .trapRet] : List (Instr N υ)) := by
    simp [trapCode, inUser, hu]
  rw [htrap]
  refine Leads.exec _ [.charge] .tau ?_ rfl (fun _ _ => rfl) (by simp) ?_
  · simp [Kernel.exec, clockintrCode, hc]
  refine Leads.exec _ [] _ (if_pos hrun) rfl (hstate m _) (by simp) ?_
  -- `usertrap` finds that the process is not killed
  refine Leads.exec _ [.acquire (.proc p), .trapKilled p true] _ rfl rfl
    (fun _ _ => rfl) (by simp) (Leads.acquire (hfree _) ?_)
  refine Leads.exec (m.set p (m.proc p).chargeTick) [.release (.proc p), .yield] .tau ?_ rfl
    (fun _ _ => rfl) (by simp) (Leads.release (hfree _) ?_)
  · simp [Kernel.exec, Proc.chargeTick, hkilled]
  -- `yield`
  refine Leads.exec _ (yieldCode p) _ rfl rfl (fun _ _ => rfl) (by simp)
    (Leads.acquire (hfree _) ?_)
  refine Leads.exec _ [] _ rfl rfl (hstate _ _) (by simp) ?_
  rw [Mem.set_set, Mem.set_proc_self]
  have hsched : ((s.lock c (.proc p)).on c
      ⟨some p, [.sched p, .release (.proc p), .trapRet, .user u], some p, ctx⟩
      (m.set p { (m.proc p).chargeTick with state := .runnable })).held c = {.proc p} := by
    ext l
    rw [mem_held, Set.mem_singleton_iff]
    change Function.update s.holder (.proc p) (some c) l = some c ↔ l = .proc p
    by_cases hl : l = .proc p
    · simp [hl]
    · simp [hl, hfree l]
  have t : Step boot C _ _ _ := Step.sched (by rw [State.on_cpu_self]) hsched
    (by rw [State.on_mem, Mem.set_proc_self]; simp)
  rw [State.on_setCpu, State.on_cpu_self, State.on_mem, Mem.set_set, Mem.set_proc_self] at t
  refine Leads.head t rfl (fun j hj => ?_) (by simp) ?_
  · rw [State.on_mem, State.on_mem, hstate m _ j hj, hstate m _ j hj]
  -- back in the scheduler
  have hq' : ((m.set p ((m.proc p).turn [.release (.proc p), .trapRet, .user u])).proc p).account
      prev = some (q', b) := by
    rw [Mem.set_proc_self]
    exact hq
  have t : Step boot C ((s.lock c (.proc p)).on c ⟨none, ctx, some p, ctx⟩
      (m.set p ((m.proc p).turn [.release (.proc p), .trapRet, .user u]))) (c, _) _ :=
    Step.account (by rw [State.on_cpu_self]) hq'
  rw [State.on_setCpu, State.on_cpu_self, State.on_mem, Mem.set_set] at t
  refine Leads.head t rfl (fun j hj => ?_) (by cases b <;> simp) (Leads.release (hfree _) h)
  rw [State.on_mem, State.on_mem, hstate m _ j hj, hstate m _ j hj]

/-! ## The aging pass -/

omit [DecidableEq κ] [NeZero N] in
theorem Mem.aged_self (m : Mem N υ) (p : ℕ) : m.aged p p = m := by
  unfold Mem.aged
  congr 1
  funext j
  rw [if_neg (by omega)]

omit [DecidableEq κ] [NeZero N] in
theorem Mem.aged_state (m : Mem N υ) (a b : ℕ) (j : Fin N) :
    ((m.aged a b).proc j).state = (m.proc j).state := by
  unfold Mem.aged
  dsimp only
  split_ifs
  · exact Proc.age_state _
  · rfl

omit [DecidableEq κ] [NeZero N] in
theorem Mem.aged_succ (m : Mem N υ) {p n : ℕ} (hp : p < N) (hn : p < n) :
    (m.set ⟨p, hp⟩ (m.proc ⟨p, hp⟩).age).aged (p + 1) n = m.aged p n := by
  unfold Mem.aged
  congr 1
  funext j
  rw [Mem.set_proc]
  by_cases hj : j = ⟨p, hp⟩
  · subst hj
    simp [hn]
  · have hne : (j : ℕ) ≠ p := fun h => hj (Fin.ext h)
    rw [if_neg hj]
    congr 1
    exact propext ⟨fun h => ⟨by omega, h.2⟩, fun h => ⟨by omega, h.2⟩⟩

omit [DecidableEq κ] [NeZero N] in
theorem Mem.aged_aged (m : Mem N υ) {a b n : ℕ} (hab : a ≤ b) (hbn : b ≤ n) :
    (m.aged a b).aged b n = m.aged a n := by
  unfold Mem.aged
  congr 1
  funext j
  by_cases h : (j : ℕ) < b
  · simp [h, show (j : ℕ) < n by omega, show ¬b ≤ (j : ℕ) by omega]
  · simp [h, show a ≤ (j : ℕ) ↔ b ≤ (j : ℕ) by omega]

omit [DecidableEq κ] [NeZero N] in
/-- A visit to the slot `p` shows no other slot. -/
theorem visit_ne {a b : Prop} [Decidable a] [Decidable b] {p j : Fin N} (hj : j ≠ p) :
    (if a then Event.promote p else if b then .age p else .tau) ≠ .age j ∧
      (if a then Event.promote p else if b then .age p else .tau) ≠ .promote j := by
  split_ifs <;> simp [hj.symm]

/-- The aging pass goes through some slots. -/
theorem Leads.aging (hfree : ∀ l, s.holder l = none) {p n : ℕ} (hn : p + n ≤ N)
    (hV : ∀ j : Fin N, p ≤ j → j < p + n → j ∈ V)
    (h : Leads boot C c A V
      (s.on c ⟨who, .aging (p + n) :: k, proc, context⟩ (m.aged p (p + n))) s') :
    Leads boot C c A V (s.on c ⟨who, .aging p :: k, proc, context⟩ m) s' := by
  induction n generalizing p m with
  | zero =>
    rw [Nat.add_zero, Mem.aged_self] at h
    exact h
  | succ n ih =>
    have hp : p < N := by omega
    have hpV : (⟨p, hp⟩ : Fin N) ∈ V := hV ⟨p, hp⟩ le_rfl (by simp)
    refine Leads.exec _ [.acquire (.proc ⟨p, hp⟩), .agingVisit ⟨p, hp⟩, .release (.proc ⟨p, hp⟩),
        .aging (p + 1)] _ (dif_pos hp) rfl (fun _ _ => rfl) (by simp) (Leads.acquire (hfree _) ?_)
    refine Leads.exec _ [] _ rfl rfl (fun j _ => ?_)
      (fun j hj => visit_ne (ne_of_mem_of_not_mem hpV hj).symm)
      (Leads.release (hfree _) (ih (by omega) (fun j hj hj' => hV j (by omega) (by omega)) ?_))
    · rw [Mem.set_proc]
      split_ifs with hj
      · rw [Proc.age_state, hj]
      · rfl
    · rwa [show p + 1 + n = p + (n + 1) by omega, Mem.aged_succ m hp (by omega)]

/-- The aging pass comes to the slot `b`. -/
theorem Leads.toVisit (hfree : ∀ l, s.holder l = none) (b : Fin N) (hV : ∀ j < b, j ∈ V)
    (h : Leads boot C c A V ((s.lock c (.proc b)).on c
      ⟨who, .agingVisit b :: .release (.proc b) :: .aging (b + 1) :: k, proc, context⟩
      (m.aged 0 b)) s') :
    Leads boot C c A V (s.on c ⟨who, .aging 0 :: k, proc, context⟩ m) s' := by
  refine Leads.aging hfree (n := b) (by omega) (fun j _ hj => hV j (by omega)) ?_
  rw [Nat.zero_add]
  exact Leads.exec _ [.acquire (.proc b), .agingVisit b, .release (.proc b), .aging (b + 1)] _
    (dif_pos b.isLt) rfl (fun _ _ => rfl) (by simp) (Leads.acquire (hfree _) h)

/-- The aging pass goes on from the slot `p` to its end, and the next scan begins. -/
theorem Leads.agingEnd (hfree : ∀ l, s.holder l = none) {p : ℕ} (hp : p ≤ N)
    (hV : ∀ j : Fin N, p ≤ j → j ∈ V)
    (h : Leads boot C c A V (s.on c ⟨who, .scan 0 0 :: k, proc, context⟩ (m.aged p N)) s') :
    Leads boot C c A V (s.on c ⟨who, .aging p :: k, proc, context⟩ m) s' := by
  refine Leads.aging hfree (n := N - p) (by omega) (fun j hj _ => hV j hj) ?_
  rw [Nat.add_sub_cancel' hp]
  exact Leads.exec _ [.scan 0 0] _ (dif_neg (by omega)) rfl (fun _ _ => rfl) (by simp) h

/-- The aging pass promotes a process. -/
theorem exists_promote (boot c : κ) (C : Client N υ δ) (s : State κ N υ δ)
    (who proc : Option (Fin N)) (context k : List (Instr N υ)) {m : Mem N υ} {p : Fin N}
    (hp : (m.proc p).promotes = true) :
    ∃ s', Step boot C (s.on c ⟨who, .agingVisit p :: k, proc, context⟩ m) (c, .promote p) s' := by
  have hexec : Kernel.exec C (c = boot)
      ((s.on c ⟨who, .agingVisit p :: k, proc, context⟩ m).cpu c).proc true
      (s.on c ⟨who, .agingVisit p :: k, proc, context⟩ m).mem (.agingVisit p) =
        some (m.set p (m.proc p).age, [], .promote p) := by
    rw [Kernel.exec, State.on_mem, if_pos hp]
  exact ⟨_, .exec (by rw [State.on_cpu_self]) hexec⟩

/-! ## A clock tick -/

/-- `wakeup` finds no process that sleeps on the channel. -/
theorem Leads.wakeup {chan : Chan N} (hfree : ∀ j, s.holder (.proc j) = none)
    (hsleep : ∀ j, (m.proc j).sleepsOn chan = false) {p n : ℕ} (hn : p + n = N)
    (h : Leads boot C c A V (s.on c ⟨who, k, none, context⟩ m) s') :
    Leads boot C c A V (s.on c ⟨who, .wakeup chan p :: k, none, context⟩ m) s' := by
  induction n generalizing p with
  | zero =>
    have hend : Kernel.exec C (c = boot) none true m (.wakeup chan p) = some (m, [], .tau) := by
      simp [Kernel.exec, wakeupCode, ← hn]
    exact Leads.exec m [] .tau hend rfl (fun _ _ => rfl) (by simp) h
  | succ n ih =>
    have hp : p < N := by omega
    refine Leads.exec m [.acquire (.proc ⟨p, hp⟩), .wakeupVisit chan ⟨p, hp⟩,
      .release (.proc ⟨p, hp⟩), .wakeup chan (p + 1)] .tau ?_ rfl (fun _ _ => rfl) (by simp)
      (Leads.acquire (hfree _) ?_)
    · simp [Kernel.exec, wakeupCode, hp]
    refine Leads.exec m [] .tau ?_ rfl (fun _ _ => rfl) (by simp)
      (Leads.release (hfree _) (ih (by omega)))
    have hwake : (m.proc ⟨p, hp⟩).wake chan = m.proc ⟨p, hp⟩ := by simp [Proc.wake, hsleep]
    simp [Kernel.exec, hwake, hsleep, Mem.set]

/-- A clock interrupt of the boot CPU, in its scheduler, increments `ticks` and changes nothing
else. -/
theorem exists_tick (hcpu : s.cpu boot = ⟨who, k, none, context⟩) (hfree : ∀ l, s.holder l = none)
    (hsleep : ∀ j, (s.mem.proc j).sleepsOn .ticks = false) (hk : .trapRet ∉ k)
    (huser : inUser C k = false) :
    ∃ s₁ s₂, Leads boot C boot ∅ ∅ s s₁ ∧ Step boot C s₁ (boot, .tau) s₂ ∧ s₁.mem = s.mem ∧
      s₂.mem = { s.mem with ticks := s.mem.ticks + 1 } ∧
      Leads boot C boot ∅ ∅ s₂ (s.setMem { s.mem with ticks := s.mem.ticks + 1 }) := by
  have hproc : ∀ j, (s.lock boot .ticksLock).holder (.proc j) = none := fun j => by
    simp [State.lock, State.setHolder, hfree]
  set rest : List (Instr N υ) := .wakeup .ticks 0 :: .release .ticksLock :: .charge ::
    .kerneltrap :: .trapRet :: k with hrest
  refine ⟨(s.lock boot .ticksLock).on boot ⟨who, .tick :: rest, none, context⟩ s.mem,
    (s.lock boot .ticksLock).on boot ⟨who, rest, none, context⟩
      { s.mem with ticks := s.mem.ticks + 1 }, ?_, ?_, rfl, rfl, ?_⟩
  · have hheld : s.held boot = ∅ := by
      refine Set.eq_empty_of_forall_notMem fun l hl => ?_
      have hl' : s.holder l = some boot := hl
      rw [hfree l] at hl'
      cases hl'
    have t : Step boot C s _ _ := Step.clock hheld (by rwa [hcpu])
    rw [hcpu, huser, State.setCtl, hcpu] at t
    refine Leads.head t rfl (fun _ _ => rfl) (by simp) ?_
    exact Leads.exec (m := s.mem) s.mem (clockintrCode true) .tau (by simp [Kernel.exec]) rfl
      (fun _ _ => rfl) (by simp) (Leads.acquire (hfree _) .refl)
  · have hctl : (((s.lock boot .ticksLock).on boot ⟨who, .tick :: rest, none, context⟩ s.mem).cpu
        boot).ctl = .tick :: rest := by
      rw [State.on_cpu_self]
    have t : Step boot C _ _ _ := Step.exec hctl (show exec C _ _ true _ _ = _ from rfl)
    rw [State.on_setCtl] at t
    exact t
  · have hlast : s.setMem { s.mem with ticks := s.mem.ticks + 1 } =
        s.on boot ⟨who, k, none, context⟩ { s.mem with ticks := s.mem.ticks + 1 } :=
      State.eq_on hcpu rfl
    rw [hrest, hlast]
    refine Leads.wakeup (m := { s.mem with ticks := s.mem.ticks + 1 }) hproc hsleep
      (Nat.zero_add N) (Leads.release (hfree _) ?_)
    exact Leads.exec _ [] .tau rfl rfl (fun _ _ => rfl) (by simp) (Leads.exec _ [] .tau rfl rfl
      (fun _ _ => rfl) (by simp) (Leads.exec _ [] .tau rfl rfl (fun _ _ => rfl) (by simp) .refl))

/-! ## A round -/

/-- The scan comes to the level of the process that it finds. -/
theorem Leads.scanTo (hfree : ∀ l, s.holder l = none) {level : ℕ}
    (hlevel : (level : ℤ) < mlfqLevels)
    (hno : ∀ l < level, ∀ j, (m.proc j).eligible l = false)
    (h : Leads boot C c A V (s.on c ⟨who, .scan level 0 :: k, proc, context⟩ m) s') :
    Leads boot C c A V (s.on c ⟨who, .scan 0 0 :: k, proc, context⟩ m) s' := by
  induction level with
  | zero => exact h
  | succ level ih =>
    refine ih (by omega) (fun l hl => hno l (by omega)) (Leads.scanLevel hfree ?_ ?_ h)
    · exact_mod_cast hlevel
    · exact hno level (by omega)

/-- `m.First r level`: the process in slot `r`, at `level`, is the one that a scan finds. -/
structure Mem.First (m : Mem N υ) (r : Fin N) (level : ℕ) : Prop where
  exists_level : (level : ℤ) < mlfqLevels
  eligible : (m.proc r).eligible level = true
  levels : ∀ l < level, ∀ j, (m.proc j).eligible l = false
  slots : ∀ j < r, (m.proc j).eligible level = false

/-- The process `p` in slot `r` has not started yet, or has yielded; in both cases it is in user
space. -/
structure Proc.Parked (p : Proc N υ) (r : Fin N) (u : υ) : Prop where
  killed : p.killed = false
  context : p.context = [.release (.proc r), .user u] ∨
    p.context = [.release (.proc r), .trapRet, .user u]

/-- The scan finds a process, which comes to user space. -/
theorem Leads.find (hfree : ∀ l, s.holder l = none) {r : Fin N} (hA : r ∈ A)
    {level : ℕ} {u : υ} (hfirst : m.First r level) (hparked : (m.proc r).Parked r u)
    (h : Leads boot C c A V (s.on c ⟨some r, [.user u], some r,
      .account r (m.proc r).totalTicks :: .release (.proc r) :: .aging 0 :: k⟩
      (m.set r (m.proc r).run)) s') :
    Leads boot C c A V (s.on c ⟨who, .scan 0 0 :: k, proc, context⟩ m) s' := by
  refine Leads.scanTo hfree hfirst.exists_level hfirst.levels
    (Leads.scan hfree (n := r) (by omega) (fun j _ hj => hfirst.slots j ?_) ?_)
  · rw [Nat.zero_add] at hj
    exact hj
  rw [Nat.zero_add]
  rcases hparked.context with hctx | hctx
  · exact Leads.dispatch hfree hA hfirst.eligible hctx h
  · refine Leads.dispatch hfree hA hfirst.eligible hctx ?_
    exact Leads.exec _ [] _ rfl rfl (fun _ _ => rfl) (by simp) h

/-- A round, up to the aging pass. -/
theorem Leads.toAging (hc : c ≠ boot) (hfree : ∀ l, s.holder l = none) {r : Fin N} (hA : r ∈ A)
    {level : ℕ} {u : υ} (hu : C.inUser u = true) (hfirst : m.First r level)
    (hparked : (m.proc r).Parked r u) {q' : Proc N υ} {b : Bool}
    (hq : ((m.proc r).run.turn [.release (.proc r), .trapRet, .user u]).account
      (m.proc r).totalTicks = some (q', b))
    (h : Leads boot C c A V (s.on c ⟨none, .aging 0 :: k, none,
      .account r (m.proc r).totalTicks :: .release (.proc r) :: .aging 0 :: k⟩ (m.set r q')) s') :
    Leads boot C c A V (s.on c ⟨who, .scan 0 0 :: k, proc, context⟩ m) s' := by
  have hself : (m.set r (m.proc r).run).proc r = (m.proc r).run := Mem.set_proc_self ..
  refine Leads.find hfree hA hfirst hparked (Leads.turn hc hfree hA hu ?_ ?_ (hself ▸ hq) ?_)
  · rw [hself]
    rfl
  · rw [hself]
    exact hparked.killed
  · rw [Mem.set_set]
    exact h

end Moves

/-! ## Two processes that take turns -/

/-- A process in slot `r` that waits, in user space. -/
structure Proc.Waits (p : Proc N υ) (r : Fin N) (u : υ) (level : ℕ) (qTicks waitTime : ℤ) :
    Prop extends p.Parked r u where
  state : p.state = .runnable
  queueLevel : p.queueLevel = level
  qTicks : p.qTicks = qTicks
  waitTime : p.waitTime = waitTime

/-- The queue level and `q_ticks` after a turn that began with these. -/
def charge (level : ℕ) (qTicks quantum : ℤ) : ℕ × ℤ :=
  if qTicks + 1 ≥ quantum then (if level < 2 then level + 1 else level, 0) else (level, qTicks + 1)

omit [DecidableEq κ] [NeZero N] in
/-- The accounting after a turn. -/
theorem Proc.account_turn {p : Proc N υ} {r : Fin N} {u : υ} {level : ℕ} {qTicks quantum : ℤ}
    (hquantum : mlfqQuantum level = some quantum) (hlevel : p.queueLevel = level)
    (hticks : p.qTicks = qTicks) (h₀ : 0 ≤ qTicks) (h₁ : qTicks < quantum)
    (hkilled : p.killed = false) :
    ∃ q b, (p.turn [.release (.proc r), .trapRet, .user u]).account p.totalTicks = some (q, b) ∧
      q.Waits r u (charge level qTicks quantum).1 (charge level qTicks quantum).2 0 := by
  have hbounds := mlfqQuantum_bounds hquantum
  have hused : (p.turn [.release (.proc r), .trapRet, .user u]).used p.totalTicks = 1 := by
    have h : int32 (int32 (p.totalTicks + 1) - p.totalTicks) = 1 := int32_int32_add_sub ..
    simp [Proc.used, Proc.turn, Proc.chargeTick, h]
  have hsum : int32 (qTicks + 1) = qTicks + 1 := int32_of_mem (by omega) (by omega)
  simp only [Proc.account, hused]
  simp only [Proc.turn, Proc.chargeTick, hlevel, hticks, hquantum, hsum, Option.map_some, charge]
  by_cases h : qTicks + 1 ≥ quantum
  · rw [if_pos h, if_pos h]
    refine ⟨_, _, rfl, ⟨hkilled, .inr rfl⟩, rfl, ?_, rfl, rfl⟩
    have h3 : mlfqLevels = 3 := rfl
    by_cases h2 : level < 2
    · simp only [if_pos h2]
      rw [if_pos (by omega)]
      push_cast
      rfl
    · simp only [if_neg h2]
      rw [if_neg (by omega)]
  · rw [if_neg h, if_neg h]
    exact ⟨_, _, rfl, ⟨hkilled, .inr rfl⟩, rfl, rfl, rfl, rfl⟩

omit [DecidableEq κ] [NeZero N] in
/-- The aging pass finds a process that waits, and does not promote it yet. -/
theorem Proc.Waits.age {p : Proc N υ} {r : Fin N} {u : υ} {level : ℕ} {qTicks waitTime : ℤ}
    (h : p.Waits r u level qTicks waitTime) (h₀ : 0 ≤ waitTime)
    (h₁ : waitTime + 1 < agingThreshold) : p.age.Waits r u level qTicks (waitTime + 1) := by
  have h200 : agingThreshold = 200 := rfl
  have hint : int32 (waitTime + 1) = waitTime + 1 := int32_of_mem (by omega) (by omega)
  have hage : p.age = { p with waitTime := waitTime + 1 } := by
    rw [Proc.age, if_pos h.state, h.waitTime, hint, if_neg (by omega)]
  rw [hage]
  exact ⟨⟨h.killed, h.context⟩, h.state, h.queueLevel, h.qTicks, rfl⟩

/-- The processes in the slots `a` and `b` wait, in user space, and no other process does. -/
structure Mem.Pair (m : Mem N υ) (u : υ) (a b : Fin N) (la : ℕ) (ta wa : ℤ) (lb : ℕ) (tb wb : ℤ) :
    Prop where
  left : (m.proc a).Waits a u la ta wa
  right : (m.proc b).Waits b u lb tb wb
  rest : ∀ j, j ≠ a → j ≠ b → (m.proc j).state = .unused

omit [DecidableEq κ] [NeZero N] in
theorem Mem.Pair.symm {m : Mem N υ} {u : υ} {a b : Fin N} {la lb : ℕ} {ta wa tb wb : ℤ}
    (h : m.Pair u a b la ta wa lb tb wb) : m.Pair u b a lb tb wb la ta wa :=
  ⟨h.right, h.left, fun j hb ha => h.rest j ha hb⟩

omit [DecidableEq κ] [NeZero N] in
/-- The scan finds the process at the lower level, or in the lower slot of the same level. -/
theorem Mem.Pair.first {m : Mem N υ} {u : υ} {a b : Fin N} {la lb : ℕ} {ta wa tb wb : ℤ}
    (h : m.Pair u a b la ta wa lb tb wb) (hla : (la : ℤ) < mlfqLevels)
    (hl : la < lb ∨ la = lb ∧ a < b) : m.First a la := by
  have hno : ∀ j l, (j = a → l ≠ la) → (j = b → l ≠ lb) → (m.proc j).eligible l = false := by
    intro j l ha hb
    refine decide_eq_false fun hel => ?_
    by_cases hja : j = a
    · subst hja
      exact ha rfl (by exact_mod_cast hel.2.symm.trans h.left.queueLevel)
    · by_cases hjb : j = b
      · subst hjb
        exact hb rfl (by exact_mod_cast hel.2.symm.trans h.right.queueLevel)
      · rw [h.rest j hja hjb] at hel
        cases hel.1
  refine ⟨hla, decide_eq_true ⟨h.left.state, h.left.queueLevel⟩, fun l hlt j => ?_,
    fun j hj => ?_⟩
  · exact hno j l (fun _ => by omega) (fun _ => by omega)
  · refine hno j la (fun hja => absurd hja (Fin.ne_of_lt hj)) (fun hjb => ?_)
    rcases hl with hl | ⟨-, hl⟩
    · omega
    · exact absurd hl (Fin.not_lt.2 (Fin.le_of_lt (hjb ▸ hj)))

section Pair

variable {s : State κ N υ δ} {m : Mem N υ} {u : υ} {a b : Fin N} {la lb : ℕ} {ta wa tb wb : ℤ}

omit [NeZero N] in
/-- The table after a turn. -/
theorem Mem.Pair.set (hb : (m.proc b).Waits b u lb tb wb)
    (hrest : ∀ j, j ≠ a → j ≠ b → (m.proc j).state = .unused) (hab : a ≠ b) {q : Proc N υ}
    (hq : q.Waits a u la ta wa) : (m.set a q).Pair u a b la ta wa lb tb wb := by
  refine ⟨?_, ?_, fun j hja hjb => ?_⟩
  · rwa [Mem.set_proc_self]
  · rwa [Mem.set_proc, if_neg hab.symm]
  · rw [Mem.set_proc, if_neg hja]
    exact hrest j hja hjb

omit [DecidableEq κ] [NeZero N] in
/-- The table after an aging pass. -/
theorem Mem.Pair.aged (h : m.Pair u a b la ta wa lb tb wb) (ha₀ : 0 ≤ wa)
    (ha₁ : wa + 1 < agingThreshold) (hb₀ : 0 ≤ wb) (hb₁ : wb + 1 < agingThreshold) :
    (m.aged 0 N).Pair u a b la ta (wa + 1) lb tb (wb + 1) := by
  have hproc : ∀ j, (m.aged 0 N).proc j = (m.proc j).age := fun j => if_pos ⟨by omega, j.isLt⟩
  refine ⟨?_, ?_, fun j hja hjb => ?_⟩
  · rw [hproc]
    exact h.left.age ha₀ ha₁
  · rw [hproc]
    exact h.right.age hb₀ hb₁
  · rw [hproc, Proc.age_state]
    exact h.rest j hja hjb

/-- The CPU `c` is at the beginning of a round, with the table `m`. -/
def State.Idle (s₀ : State κ N υ δ) (c : κ) (s : State κ N υ δ) (m : Mem N υ) : Prop :=
  ∃ context, s = s₀.on c ⟨none, [.scan 0 0], none, context⟩ m

/-- The turn of one of two processes, up to the aging pass. -/
theorem Mem.Pair.turn {s₀ : State κ N υ δ} (hc : c ≠ boot) (hfree : ∀ l, s₀.holder l = none)
    (hu : C.inUser u = true) (hs : s₀.Idle c s m) (h : m.Pair u a b la ta wa lb tb wb) {quantum : ℤ}
    (hquantum : mlfqQuantum la = some quantum) (ht₀ : 0 ≤ ta) (ht₁ : ta < quantum)
    (hl : la < lb ∨ la = lb ∧ a < b) :
    ∃ context q, Leads boot C c Set.univ ∅ s
        (s₀.on c ⟨none, [.aging 0], none, context⟩ (m.set a q)) ∧
      q.Waits a u (charge la ta quantum).1 (charge la ta quantum).2 0 := by
  obtain ⟨context, rfl⟩ := hs
  have hla := (exists_mlfqQuantum.1 ⟨quantum, hquantum⟩).2
  obtain ⟨q, e, hq, hwaits⟩ := Proc.account_turn (p := (m.proc a).run) (r := a) (u := u) hquantum
    h.left.queueLevel h.left.qTicks ht₀ ht₁ h.left.killed
  exact ⟨_, q, Leads.toAging hc hfree (Set.mem_univ a) hu (h.first hla hl) h.left.toParked hq .refl,
    hwaits⟩

/-- `P` goes on, from the beginning of a round of one of two processes to the beginning of the next
one; `p` is one of the two. -/
def Rounds (P : State κ N υ δ → Prop) (s₀ : State κ N υ δ) (c : κ) (u : υ) (p : Fin N) : Prop :=
  ∀ ⦃s m a b la ta wa lb tb wb quantum⦄, P s → s₀.Idle c s m → m.Pair u a b la ta wa lb tb wb →
    a ≠ b → p = a ∨ p = b → mlfqQuantum la = some quantum → 0 ≤ ta → ta < quantum →
    la < lb ∨ la = lb ∧ a < b → 0 ≤ wb → wb + 1 < agingThreshold →
    ∃ s' m', P s' ∧ s₀.Idle c s' m' ∧
      m'.Pair u a b (charge la ta quantum).1 (charge la ta quantum).2 1 lb tb (wb + 1)

/-- **A round of one of two processes.** -/
theorem Leads.rounds {s₀ s₁ : State κ N υ δ} (hc : c ≠ boot) (hfree : ∀ l, s₀.holder l = none)
    (hu : C.inUser u = true) (p : Fin N) :
    Rounds (Leads boot C c Set.univ Set.univ s₁) s₀ c u p := by
  intro s m a b la ta wa lb tb wb quantum hpath hs h hab _ hquantum ht₀ ht₁ hl hw₀ hw₁
  obtain ⟨context, q, hturn, hwaits⟩ := h.turn hc hfree hu hs hquantum ht₀ ht₁ hl
  have haging : Leads boot C c Set.univ Set.univ
      (s₀.on c ⟨none, [.aging 0], none, context⟩ (m.set a q))
      (s₀.on c ⟨none, [.scan 0 0], none, context⟩ ((m.set a q).aged 0 N)) :=
    Leads.agingEnd hfree N.zero_le (fun j _ => Set.mem_univ j) .refl
  exact ⟨_, _, hpath.trans ((hturn.mono (Set.empty_subset _)).trans haging), ⟨_, rfl⟩,
    (Mem.Pair.set h.right h.rest hab hwaits).aged le_rfl (by decide) hw₀ hw₁⟩

omit [NeZero N] in
/-- The process in the slot `b`, when the aging pass comes to it. -/
theorem Mem.proc_right (m : Mem N υ) (hab : a ≠ b) (q : Proc N υ) :
    ((m.set a q).aged 0 b).proc b = m.proc b := by
  change (if _ then _ else _) = _
  rw [if_neg (by omega), Mem.set_proc, if_neg hab.symm]

omit [NeZero N] in
/-- The process in the slot `b` has waited for long. -/
theorem Mem.Pair.promotes (h : m.Pair u a b la ta wa lb tb wb) (hab : a ≠ b) (hlb : 0 < lb)
    (hw : wb + 1 = agingThreshold) (q : Proc N υ) :
    (((m.set a q).aged 0 b).proc b).promotes = true := by
  have h200 : agingThreshold = 200 := rfl
  have hwait : int32 (wb + 1) ≥ agingThreshold := by
    rw [int32_of_mem] <;> omega
  rw [m.proc_right hab]
  refine decide_eq_true ⟨h.right.state, ?_, ?_⟩
  · rw [h.right.waitTime]
    exact hwait
  · rw [h.right.queueLevel]
    exact_mod_cast hlb

omit [NeZero N] in
/-- **Many rounds.** The process in the lower slot of the last level takes all the turns, and the
aging passes count the waiting time of the other one. -/
theorem Rounds.last {P : State κ N υ δ → Prop} {s₀ : State κ N υ δ} {p : Fin N}
    (hP : Rounds P s₀ c u p) (hs : P s) (hidle : s₀.Idle c s m) (h : m.Pair u a b 2 ta wa 2 tb wb)
    (hab : a < b) (hp : p = a ∨ p = b) (ht₀ : 0 ≤ ta) (ht₁ : ta < 4) (hw : 0 ≤ wb) (n : ℕ)
    (hn : wb + n < agingThreshold) :
    ∃ s' m' ta' wa', P s' ∧ s₀.Idle c s' m' ∧ 0 ≤ ta' ∧ ta' < 4 ∧
      m'.Pair u a b 2 ta' wa' 2 tb (wb + n) := by
  induction n with
  | zero =>
    refine ⟨s, m, ta, wa, hs, hidle, ht₀, ht₁, ?_⟩
    rw [Int.natCast_zero, Int.add_zero]
    exact h
  | succ n ih =>
    push_cast at hn
    obtain ⟨s₁, m₁, t, w, hs₁, hidle₁, h₀, h₁, hpair⟩ := ih (by omega)
    have hquantum : mlfqQuantum (2 : ℕ) = some 4 := rfl
    obtain ⟨s₂, m₂, hs₂, hidle₂, hpair'⟩ := hP hs₁ hidle₁ hpair (Fin.ne_of_lt hab) hp hquantum h₀ h₁
      (.inr ⟨rfl, hab⟩) (by omega) (by omega)
    have hlevel : (charge 2 t 4).1 = 2 := by
      unfold charge
      split_ifs <;> first | rfl | omega
    have hticks : 0 ≤ (charge 2 t 4).2 ∧ (charge 2 t 4).2 < 4 := by
      unfold charge
      split_ifs <;> dsimp only <;> omega
    rw [hlevel, show wb + n + 1 = wb + (n + 1 : ℕ) by push_cast; omega] at hpair'
    exact ⟨s₂, m₂, _, _, hs₂, hidle₂, hticks.1, hticks.2, hpair'⟩

omit [NeZero N] in
/-- **A process waits for 199 passes.** When the one in the lower slot has had its first turn, the
two use up their quanta until they are at the last level; then the first one takes all the turns. -/
theorem Rounds.starve {P : State κ N υ δ → Prop} {s₀ : State κ N υ δ} {p : Fin N}
    (hP : Rounds P s₀ c u p) (hs : P s) (hidle : s₀.Idle c s m) (h : m.Pair u a b 1 0 1 0 0 1)
    (hab : a < b) (hp : p = a ∨ p = b) :
    ∃ s' m' t w, P s' ∧ s₀.Idle c s' m' ∧ 0 ≤ t ∧ t < 4 ∧ m'.Pair u a b 2 t w 2 0 199 := by
  have h₀ : mlfqQuantum (0 : ℕ) = some 1 := rfl
  have h₁ : mlfqQuantum (1 : ℕ) = some 2 := rfl
  have hne : a ≠ b := Fin.ne_of_lt hab
  obtain ⟨s₂, m₂, hs₂, i₂, p₂⟩ := hP hs hidle h.symm hne.symm hp.symm h₀ le_rfl (by decide)
    (.inl (by decide)) (by decide) (by decide)
  obtain ⟨s₃, m₃, hs₃, i₃, p₃⟩ := hP hs₂ i₂ p₂.symm hne hp h₁ le_rfl (by decide) (.inr ⟨rfl, hab⟩)
    (by decide) (by decide)
  obtain ⟨s₄, m₄, hs₄, i₄, p₄⟩ := hP hs₃ i₃ p₃ hne hp h₁ (by decide) (by decide) (.inr ⟨rfl, hab⟩)
    (by decide) (by decide)
  obtain ⟨s₅, m₅, hs₅, i₅, p₅⟩ := hP hs₄ i₄ p₄.symm hne.symm hp.symm h₁ le_rfl (by decide)
    (.inl (by decide)) (by decide) (by decide)
  obtain ⟨s₆, m₆, hs₆, i₆, p₆⟩ := hP hs₅ i₅ p₅ hne.symm hp.symm h₁ (by decide) (by decide)
    (.inl (by decide)) (by decide) (by decide)
  exact hP.last hs₆ i₆ p₆.symm hab hp (by decide) (by decide) (by decide) 198 (by decide)

end Pair

/-! ## A process that waits for long -/

/-- The CPU runs the process in slot 0, in user space, since it had no ticks. -/
def Cpu.runsFirst : Cpu N SysPoint → Bool
  | ⟨some p, [.user .user], some q, [.account r prev, .release (.proc r'), .aging 0]⟩ =>
    p = 0 ∧ q = 0 ∧ r = 0 ∧ r' = 0 ∧ prev = 0
  | _ => false

/-- The CPU begins a scan. -/
def Cpu.scans : Cpu N SysPoint → Bool
  | ⟨none, [.scan 0 0], none, _⟩ => true
  | _ => false

/-- The process in slot 1 is new. -/
def startsSecond : List (Instr NPROC SysPoint) → Bool
  | [.release (.proc p), .user .user] => p = 1
  | _ => false

/-- The process in slot 0 has forked the one in slot 1, and runs on CPU 1. -/
structure Forked (s : State (Fin 8) NPROC SysPoint Unit) : Prop where
  runs : (s.cpu 1).runsFirst = true
  idle : ∀ c, c ≠ 1 → (s.cpu c).scans = true
  first : (s.mem.proc 0).state = .running ∧ (s.mem.proc 0).queueLevel = 0 ∧
    (s.mem.proc 0).qTicks = 0 ∧ (s.mem.proc 0).totalTicks = 0 ∧ (s.mem.proc 0).killed = false
  second : (s.mem.proc 1).state = .runnable ∧ (s.mem.proc 1).queueLevel = 0 ∧
    (s.mem.proc 1).qTicks = 0 ∧ (s.mem.proc 1).waitTime = 0 ∧ (s.mem.proc 1).killed = false
  starts : startsSecond (s.mem.proc 1).context = true
  rest : ∀ j, j ≠ 0 → j ≠ 1 → (s.mem.proc j).state = .unused

instance (s : State (Fin 8) NPROC SysPoint Unit) : Decidable (Forked s) :=
  decidable_of_iff
    ((s.cpu 1).runsFirst = true ∧ (∀ c, c ≠ 1 → (s.cpu c).scans = true) ∧
      ((s.mem.proc 0).state = .running ∧ (s.mem.proc 0).queueLevel = 0 ∧
        (s.mem.proc 0).qTicks = 0 ∧ (s.mem.proc 0).totalTicks = 0 ∧
        (s.mem.proc 0).killed = false) ∧
      ((s.mem.proc 1).state = .runnable ∧ (s.mem.proc 1).queueLevel = 0 ∧
        (s.mem.proc 1).qTicks = 0 ∧ (s.mem.proc 1).waitTime = 0 ∧
        (s.mem.proc 1).killed = false) ∧
      startsSecond (s.mem.proc 1).context = true ∧
      ∀ j, j ≠ 0 → j ≠ 1 → (s.mem.proc j).state = .unused)
    ⟨fun ⟨h₁, h₂, h₃, h₄, h₅, h₆⟩ => ⟨h₁, h₂, h₃, h₄, h₅, h₆⟩,
      fun ⟨h₁, h₂, h₃, h₄, h₅, h₆⟩ => ⟨h₁, h₂, h₃, h₄, h₅, h₆⟩⟩

theorem exists_forked :
    ∃ h s, (kernel (0 : Fin 8) (sysproc (N := NPROC)) fun _ => True).Run h s ∧ h.length < 200 ∧
      (∀ x ∈ h, x.2 ≠ .age 1 ∧ x.2 ≠ .promote 1) ∧ Forked s := by
  refine exists_run_of_play (X := sysprocChoices) (d := ())
    (v := ([0, 0, 0, 0, 1] ++ List.replicate 30 0).map (.go 1 true)) sysproc_disciplined trivial ?_
  rfl

namespace Forked

variable {s : State (Fin 8) NPROC SysPoint Unit}

theorem cpu_one (h : Forked s) : s.cpu 1 =
    ⟨some 0, [.user .user], some 0, [.account 0 0, .release (.proc 0), .aging 0]⟩ := by
  have hruns := h.runs
  unfold Cpu.runsFirst at hruns
  split at hruns
  · simp only [decide_eq_true_eq] at hruns
    obtain ⟨rfl, rfl, rfl, rfl, rfl⟩ := hruns
    assumption
  · cases hruns

theorem cpu_ne (h : Forked s) {c : Fin 8} (hc : c ≠ 1) :
    ∃ context, s.cpu c = ⟨none, [.scan 0 0], none, context⟩ := by
  have hscans := h.idle c hc
  unfold Cpu.scans at hscans
  split at hscans
  · exact ⟨_, by assumption⟩
  · cases hscans

theorem free (h : Forked s) (hs : Safe sysproc s) (l : Lock NPROC) : s.holder l = none := by
  by_contra hl
  obtain ⟨c, hc⟩ := Option.ne_none_iff_exists'.1 hl
  have hempty : s.held c = ∅ := by
    by_cases h1 : c = 1
    · subst h1
      obtain ⟨p, -, hL⟩ := (hs.cpu 1).disc (by rw [h.cpu_one]) (by simp)
      exact hL
    · obtain ⟨context, hcpu⟩ := h.cpu_ne h1
      have hd : Disc sysproc (s.cpu c).proc (s.held c) [.scan 0 0] :=
        (hs.cpu c).disc (by rw [hcpu]) (by simp)
      exact hd.2
  have hmem : l ∈ s.held c := hc
  rw [hempty] at hmem
  exact hmem

theorem waits_one (h : Forked s) : (s.mem.proc 1).Waits 1 .user 0 0 0 := by
  obtain ⟨hst, hlevel, hticks, hwait, hkilled⟩ := h.second
  refine ⟨⟨hkilled, .inl ?_⟩, hst, hlevel, hticks, hwait⟩
  have hstarts := h.starts
  unfold startsSecond at hstarts
  split at hstarts
  · simp only [decide_eq_true_eq] at hstarts
    subst hstarts
    assumption
  · cases hstarts

/-- The first turn of the first process, up to the aging pass. -/
theorem turn (h : Forked s) (hs : Safe sysproc s) :
    ∃ context q, Leads 0 sysproc 1 Set.univ ∅ s
        (s.on 1 ⟨none, [.aging 0], none, context⟩ (s.mem.set 0 q)) ∧
      q.Waits 0 .user (charge 0 0 1).1 (charge 0 0 1).2 0 := by
  obtain ⟨hrun, hlevel, hticks, htotal, hkilled⟩ := h.first
  have hquantum : mlfqQuantum (0 : ℕ) = some 1 := rfl
  obtain ⟨q, e, hq, hwaits⟩ := Proc.account_turn (r := 0) (u := SysPoint.user) hquantum hlevel
    hticks le_rfl (by decide) hkilled
  have hc : (1 : Fin 8) ≠ 0 := by decide
  have hself : s = s.on 1 (s.cpu 1) s.mem := State.eq_on rfl rfl
  rw [h.cpu_one] at hself
  rw [htotal] at hq
  have hpath := Leads.turn (C := sysproc) (A := Set.univ) (V := ∅) (k := []) hc (h.free hs)
    (Set.mem_univ _) rfl hrun hkilled hq .refl
  exact ⟨_, q, (congrArg (fun x => Leads 0 sysproc 1 Set.univ ∅ x _) hself).mpr hpath, hwaits⟩

/-- A process may wait for many passes without a clock tick. -/
theorem starve (h : Forked s) (hs : Safe sysproc s) :
    ∃ s₁ m t w, Leads 0 sysproc 1 Set.univ Set.univ s s₁ ∧ s.Idle 1 s₁ m ∧ 0 ≤ t ∧ t < 4 ∧
      m.Pair .user 0 1 2 t w 2 0 199 := by
  have hfree := h.free hs
  obtain ⟨context, q, hturn, hwaits⟩ := h.turn hs
  have haging : Leads 0 sysproc 1 Set.univ Set.univ
      (s.on 1 ⟨none, [.aging 0], none, context⟩ (s.mem.set 0 q))
      (s.on 1 ⟨none, [.scan 0 0], none, context⟩ ((s.mem.set 0 q).aged 0 NPROC)) :=
    Leads.agingEnd hfree (Nat.zero_le _) (fun j _ => Set.mem_univ j) .refl
  have hpair : ((s.mem.set 0 q).aged 0 NPROC).Pair .user 0 1 1 0 1 0 0 1 :=
    (Mem.Pair.set h.waits_one h.rest (by decide) hwaits).aged le_rfl (by decide) le_rfl (by decide)
  exact (Leads.rounds (by decide) hfree rfl 1).starve
    ((hturn.mono (Set.empty_subset _)).trans haging) ⟨_, rfl⟩ hpair (by decide) (.inr rfl)

end Forked

/-- The process in slot 1 is promoted on CPU 1, and nothing has happened on CPU 0 since it was
forked. -/
theorem exists_starved :
    ∃ h s s₁ s₂, (kernel (0 : Fin 8) (sysproc (N := NPROC)) fun _ => True).Run h s ∧
      h.length < 200 ∧ Leads 0 sysproc 1 Set.univ Set.univ s s₁ ∧
      Step 0 sysproc s₁ (1, .promote 1) s₂ := by
  obtain ⟨h, s, r, hlen, -, hforked⟩ := exists_forked
  have hs := safe_of_reachable sysproc_disciplined ⟨h, r⟩
  have hfree := hforked.free hs
  obtain ⟨s₁, m, t, w, hpath, hidle, ht₀, ht₁, hpair⟩ := hforked.starve hs
  obtain ⟨context, q, hturn, -⟩ := hpair.turn (C := sysproc) (show (1 : Fin 8) ≠ 0 by decide) hfree
    rfl hidle (show mlfqQuantum (2 : ℕ) = some 4 from rfl) ht₀ ht₁ (.inr (by decide))
  obtain ⟨s₃, hstep⟩ := exists_promote (0 : Fin 8) 1 sysproc (s.lock 1 (.proc 1)) none none context
    _ (hpair.promotes (by decide) (by decide) rfl q)
  exact ⟨h, s, _, s₃, r, hlen, hpath.trans ((hturn.mono (Set.empty_subset _)).trans
    (Leads.toVisit hfree 1 (fun j _ => Set.mem_univ j) .refl)), hstep⟩

end Xv6.Kernel
