import Xv6.Kernel.Spinlock

/-!
# Nested interrupts-off

What `spinlock.c` guarantees to threads that keep to its rules: a lock is held by one CPU, `noff` is
the number of calls of `push_off` that the thread on the CPU has not undone, interrupts are off as
long as there are any, and `intena` is the state of the interrupts at the outermost of them, also
when the thread has changed the CPU in between. A process that is on a CPU is RUNNING until it
changes its state itself, with its lock, so that no other CPU runs it. So no check of `spinlock.c`
or `sched` fails.

The invariant is one predicate for each CPU with the thread that it runs (`Local`), one for the
threads that do not run (`Parked`), the relation of the locks to the threads, and that of
`p->state` to the CPUs (`States`).
-/

namespace Xv6.Spinlock

open Kernel (ProcState)

variable {C K L : Type}

/-! ## The invariant -/

/-- The calls of `push_off` that are not for a lock of `held`. -/
def Pc.pending : Pc L → ℕ
  | .acquires _ | .spins _ | .pops => 1
  | _ => 0

/-- The lock `l` is recorded as held by the thread's CPU. -/
def Thread.Records (t : Thread L) (l : L) : Prop :=
  l ∈ t.held ∧ t.pc ≠ .records l ∧ t.pc ≠ .clears l

/-- A process that does not run: it is in `swtch`, or has never run. -/
structure Parked (lockOf : K → L) (k : K) (t : Thread L) : Prop where
  pc : t.pc = .resumes ∧ t.intena = t.base ∨ t.pc = .starts
  held : t.held = [lockOf k]
  depth : t.depth = 1
  changed : t.changed = false

/-- A CPU with `c->proc`, and the thread that it runs. -/
structure Local (lockOf : K → L) (cpu : Cpu) (proc : Option K) (t : Thread L) : Prop where
  noff : cpu.noff = t.depth
  off : 0 < t.depth → cpu.intr = false
  intena : proc.isSome → t.pc ≠ .resumes → t.pc ≠ .starts → 0 < t.depth → cpu.intena = t.base
  nodup : t.held.Nodup
  room : t.held.length + t.pc.pending ≤ t.depth
  acquires : ∀ l, t.pc = .acquires l ∨ t.pc = .spins l → l ∉ t.held
  releases : ∀ l, t.pc = .records l ∨ t.pc = .clears l → l ∈ t.held
  parked : t.pc = .resumes ∨ t.pc = .starts → ∃ k, proc = some k ∧ Parked lockOf k t

/-- The invariant of the system. -/
structure Inv (lockOf : K → L) (s : State C K L) : Prop where
  cpus : ∀ c, Local lockOf (s.cpu c) (s.proc c) (s.current c)
  parked : ∀ k, (∀ c, s.proc c ≠ some k) → Parked lockOf k (s.thread k)
  /-- The scheduler of a CPU that runs a process is in `swtch`. -/
  waits : ∀ c k, s.proc c = some k →
    (s.scheduler c).pc = .run ∧ (s.scheduler c).held = [] ∧ (s.scheduler c).depth = 1
  once : ∀ c c' k, s.proc c = some k → s.proc c' = some k → c = c'
  locked : ∀ l, (s.lock l).locked = true ↔ ∃ c, l ∈ (s.current c).held
  recorded : ∀ l c, (s.lock l).cpu = some c ↔ (s.current c).Records l
  excl : ∀ l c c', l ∈ (s.current c).held → l ∈ (s.current c').held → c = c'

/-- A CPU with `c->proc` and the thread that it runs: the process is RUNNING, or it has changed its
state and holds its lock. -/
def StateOk (lockOf : K → L) (proc : Option K) (state : K → ProcState) (t : Thread L) : Prop :=
  ∀ k, proc = some k → t.changed = false ∧ state k = .running ∨
    t.changed = true ∧ (state k ≠ .running ∧ state k ≠ .unused) ∧
      lockOf k ∈ t.held ∧ t.pc ≠ .clears (lockOf k)

/-- Every CPU is such. -/
def States (lockOf : K → L) (s : State C K L) : Prop :=
  ∀ c, StateOk lockOf (s.proc c) s.state (s.current c)

/-! ## Writing the fields of a CPU and of its thread -/

section Set

variable [DecidableEq C] [DecidableEq K]

namespace State

variable {s : State C K L} {c c' : C} {cpu : Cpu} {t : Thread L}

@[simp] theorem set_proc : (s.set c cpu t).proc = s.proc := by
  unfold set
  split <;> rfl

@[simp] theorem set_lock : (s.set c cpu t).lock = s.lock := by
  unfold set
  split <;> rfl

@[simp] theorem set_state : (s.set c cpu t).state = s.state := by
  unfold set
  split <;> rfl

@[simp] theorem set_cpu : (s.set c cpu t).cpu = Function.update s.cpu c cpu := by
  unfold set
  split <;> rfl

@[simp] theorem current_set : (s.set c cpu t).current c = t := by
  unfold set
  cases h : s.proc c with
  | some k => simp only [current, h, Function.update_self]
  | none => simp only [current, h, Function.update_self]

theorem current_set_of_ne (once : ∀ c c' k, s.proc c = some k → s.proc c' = some k → c = c')
    (h : c' ≠ c) : (s.set c cpu t).current c' = s.current c' := by
  unfold set
  cases hc : s.proc c with
  | none =>
    cases hc' : s.proc c' with
    | none => simp only [current, hc', Function.update_of_ne h]
    | some k' => simp only [current, hc']
  | some k =>
    cases hc' : s.proc c' with
    | none => simp only [current, hc']
    | some k' =>
      have hk : k' ≠ k := by
        rintro rfl
        exact h (once c' c k' hc' hc)
      simp only [current, hc', Function.update_of_ne hk]

theorem set_setLock [DecidableEq L] {l : L} {lk : Lock C} : (s.set c cpu t).setLock l lk =
    { s.set c cpu t with lock := Function.update s.lock l lk } := by
  rw [setLock, set_lock]

end State

namespace Inv

variable {lockOf : K → L} {s s' : State C K L} {c : C} {cpu : Cpu} {t : Thread L}

/-- The thread on `c` takes a step, and may change a lock with it. -/
theorem set (hs : Inv lockOf s) (lock : L → Lock C) (hlocal : Local lockOf cpu (s.proc c) t)
    (hexcl : ∀ l ∈ t.held, l ∈ (s.current c).held ∨ (s.lock l).locked = false)
    (hlocked : ∀ l, (lock l).locked = true ↔
      l ∈ t.held ∨ ∃ c', c' ≠ c ∧ l ∈ (s.current c').held)
    (hrec : ∀ l, (lock l).cpu = some c ↔ t.Records l)
    (hrec' : ∀ l c', c' ≠ c → ((lock l).cpu = some c' ↔ (s.lock l).cpu = some c')) :
    Inv lockOf { s.set c cpu t with lock := lock } := by
  have hother : ∀ c', c' ≠ c → State.current { s.set c cpu t with lock := lock } c' = s.current c' :=
    fun c' h => State.current_set_of_ne hs.once h
  have hself : State.current { s.set c cpu t with lock := lock } c = t := State.current_set
  have hfree : ∀ l ∈ t.held, ∀ c', c' ≠ c → l ∉ (s.current c').held := by
    intro l hl c' hc' hmem
    rcases hexcl l hl with h | h
    · exact hc' (hs.excl l c' c hmem h)
    · have := (hs.locked l).2 ⟨c', hmem⟩
      rw [h] at this
      exact absurd this Bool.false_ne_true
  constructor
  · intro c'
    by_cases hc' : c' = c
    · subst hc'
      rw [hself]
      simpa using hlocal
    · rw [hother c' hc']
      simpa [Function.update_of_ne hc'] using hs.cpus c'
  · intro k hk
    have hk' : ∀ c', s.proc c' ≠ some k := by simpa using hk
    have hthread : (s.set c cpu t).thread k = s.thread k := by
      unfold State.set
      cases hc : s.proc c with
      | none => rfl
      | some k' =>
        have hne : k ≠ k' := fun h => hk' c (h ▸ hc)
        exact Function.update_of_ne hne ..
    show Parked lockOf k ((s.set c cpu t).thread k)
    rw [hthread]
    exact hs.parked k hk'
  · intro c' k hk
    have hk' : s.proc c' = some k := by simpa using hk
    have hsched : (s.set c cpu t).scheduler c' = s.scheduler c' := by
      unfold State.set
      cases hc : s.proc c with
      | some k' => rfl
      | none =>
        have hne : c' ≠ c := by
          rintro rfl
          rw [hc] at hk'
          exact Option.some_ne_none k hk'.symm
        exact Function.update_of_ne hne ..
    show ((s.set c cpu t).scheduler c').pc = _ ∧ _
    rw [hsched]
    exact hs.waits c' k hk'
  · intro c₁ c₂ k h₁ h₂
    exact hs.once c₁ c₂ k (by simpa using h₁) (by simpa using h₂)
  · intro l
    rw [show (State.lock { s.set c cpu t with lock := lock } l) = lock l from rfl, hlocked]
    constructor
    · rintro (h | ⟨c', hc', h⟩)
      · exact ⟨c, hself.symm ▸ h⟩
      · exact ⟨c', (hother c' hc').symm ▸ h⟩
    · rintro ⟨c', h⟩
      by_cases hc' : c' = c
      · subst hc'
        exact Or.inl (hself ▸ h)
      · exact Or.inr ⟨c', hc', hother c' hc' ▸ h⟩
  · intro l c'
    by_cases hc' : c' = c
    · subst hc'
      rw [hself]
      exact hrec l
    · rw [hother c' hc', ← hs.recorded l c']
      exact hrec' l c' hc'
  · intro l c₁ c₂ h₁ h₂
    by_cases hc₁ : c₁ = c
    · by_cases hc₂ : c₂ = c
      · rw [hc₁, hc₂]
      · rw [hother c₂ hc₂] at h₂
        rw [hc₁, hself] at h₁
        exact absurd h₂ (hfree l h₁ c₂ hc₂)
    · by_cases hc₂ : c₂ = c
      · rw [hother c₁ hc₁] at h₁
        rw [hc₂, hself] at h₂
        exact absurd h₁ (hfree l h₂ c₁ hc₁)
      · rw [hother c₁ hc₁] at h₁
        rw [hother c₂ hc₂] at h₂
        exact hs.excl l c₁ c₂ h₁ h₂

/-- A step that leaves the locks alone. -/
theorem set_same (hs : Inv lockOf s) (hlocal : Local lockOf cpu (s.proc c) t)
    (hheld : t.held = (s.current c).held)
    (hrec : ∀ l, t.Records l ↔ (s.current c).Records l) : Inv lockOf (s.set c cpu t) := by
  have h := hs.set s.lock hlocal (fun l hl => Or.inl (hheld ▸ hl)) (fun l => ?_)
    (fun l => (hs.recorded l c).trans (hrec l).symm) (fun _ _ _ => Iff.rfl)
  · rwa [show s.lock = (s.set c cpu t).lock from State.set_lock.symm] at h
  · rw [hs.locked, hheld]
    constructor
    · rintro ⟨c', h⟩
      by_cases hc' : c' = c
      · exact Or.inl (hc' ▸ h)
      · exact Or.inr ⟨c', hc', h⟩
    · rintro (h | ⟨c', -, h⟩)
      · exact ⟨c, h⟩
      · exact ⟨c', h⟩

/-- A step that writes a lock which no other CPU holds. -/
theorem set_setLock [DecidableEq L] {l : L} {lk : Lock C} (hs : Inv lockOf s)
    (hlocal : Local lockOf cpu (s.proc c) t) (hout : ∀ c', c' ≠ c → l ∉ (s.current c').held)
    (hheld : ∀ l', l' ≠ l → (l' ∈ t.held ↔ l' ∈ (s.current c).held))
    (hrec : ∀ l', l' ≠ l → (t.Records l' ↔ (s.current c).Records l'))
    (hlocked : lk.locked = true ↔ l ∈ t.held) (hcpu : lk.cpu = some c ↔ t.Records l)
    (hcpu' : ∀ c', c' ≠ c → lk.cpu ≠ some c') : Inv lockOf ((s.set c cpu t).setLock l lk) := by
  rw [State.set_setLock]
  have hmem : ∀ l', (s.lock l').locked = true ↔
      l' ∈ (s.current c).held ∨ ∃ c', c' ≠ c ∧ l' ∈ (s.current c').held := by
    intro l'
    rw [hs.locked]
    constructor
    · rintro ⟨c', h⟩
      by_cases hc' : c' = c
      · exact Or.inl (hc' ▸ h)
      · exact Or.inr ⟨c', hc', h⟩
    · rintro (h | ⟨c', -, h⟩)
      · exact ⟨c, h⟩
      · exact ⟨c', h⟩
  apply hs.set _ hlocal
  · intro l' hl'
    by_cases h : l' = l
    · subst h
      by_cases hc : l' ∈ (s.current c).held
      · exact Or.inl hc
      · refine Or.inr (Bool.eq_false_iff.2 fun ht => ?_)
        rcases (hmem l').1 ht with h | ⟨c', hc', h⟩
        · exact hc h
        · exact hout c' hc' h
    · exact Or.inl ((hheld l' h).1 hl')
  · intro l'
    by_cases h : l' = l
    · subst h
      rw [Function.update_self, hlocked]
      constructor
      · exact Or.inl
      · rintro (h | ⟨c', hc', h⟩)
        · exact h
        · exact absurd h (hout c' hc')
    · rw [Function.update_of_ne h, hmem, hheld l' h]
  · intro l'
    by_cases h : l' = l
    · subst h
      rw [Function.update_self]
      exact hcpu
    · rw [Function.update_of_ne h, hrec l' h]
      exact hs.recorded l' c
  · intro l' c' hc'
    by_cases h : l' = l
    · subst h
      rw [Function.update_self, hs.recorded]
      exact ⟨fun heq => absurd heq (hcpu' c' hc'), fun hr => absurd hr.1 (hout c' hc')⟩
    · rw [Function.update_of_ne h]

end Inv

end Set

variable {lockOf : K → L} {s s' : State C K L} {c : C} {cpu : Cpu} {t : Thread L} {l : L}

/-! ## What the checks find -/

/-- Another CPU does not hold what the thread on `c` holds. -/
theorem Inv.notMem_of_mem (hs : Inv lockOf s) (hl : l ∈ (s.current c).held) {c' : C} (h : c' ≠ c) :
    l ∉ (s.current c').held :=
  fun hmem => h (hs.excl l c' c hmem hl)

/-- Only the CPU of the thread that holds a lock is recorded in it. -/
theorem Inv.cpu_ne (hs : Inv lockOf s) {c' : C} (h : l ∉ (s.current c').held) :
    (s.lock l).cpu ≠ some c' :=
  fun heq => h ((hs.recorded l c').1 heq).1

section Checks

variable [DecidableEq C]

/-- `holding` is exact for a thread that is not in `acquire` or `release`. -/
theorem Inv.holding_of_mem (hs : Inv lockOf s) (hpc : (s.current c).pc = .run)
    (hl : l ∈ (s.current c).held) : (s.lock l).holding c = true := by
  have hrec : (s.current c).Records l := ⟨hl, by simp [hpc], by simp [hpc]⟩
  unfold Lock.holding
  rw [(hs.locked l).2 ⟨c, hl⟩, (hs.recorded l c).2 hrec]
  simp

theorem Inv.holding_of_notMem (hs : Inv lockOf s) (hl : l ∉ (s.current c).held) :
    (s.lock l).holding c = false := by
  have hrec : (s.lock l).cpu ≠ some c := fun h => hl ((hs.recorded l c).1 h).1
  unfold Lock.holding
  simp [hrec]

end Checks

theorem Local.popOff {proc : Option K} (h : Local lockOf cpu proc t) (hd : 0 < t.depth) :
    cpu.popOff = .ok ⟨t.depth - 1, cpu.intena, decide (t.depth = 1) && cpu.intena⟩ := by
  have hoff := h.off hd
  have hn := h.noff
  unfold Cpu.popOff
  rw [if_neg (by simp [hoff]), if_neg (by omega)]
  by_cases h1 : t.depth = 1
  · cases cpu.intena <;> simp [hn, h1, hoff]
  · have h2 : ¬ t.depth - 1 = 0 := by omega
    simp [hn, h1, h2, hoff]

/-! ## One CPU -/

namespace Local

variable {proc : Option K}

theorem depth_pos (h : Local lockOf cpu proc t) (hpc : t.pc ≠ .run) : 0 < t.depth := by
  have hroom := h.room
  cases hp : t.pc with
  | run => exact absurd hp hpc
  | acquires l | spins l | pops =>
    simp only [hp, Pc.pending] at hroom
    omega
  | records l | clears l =>
    have hmem : l ∈ t.held := h.releases l (by simp [hp])
    have hlen := List.length_pos_of_mem hmem
    omega
  | resumes | starts =>
    obtain ⟨k, -, hk⟩ := h.parked (by simp [hp])
    rw [hk.depth]
    exact Nat.one_pos

/-- `push_off`, in `acquire` or not. -/
theorem pushOff (h : Local lockOf cpu proc t) (hpc : t.pc = .run) {pc : Pc L}
    (hpc' : pc = .run ∨ ∃ l, pc = .acquires l ∧ l ∉ t.held) :
    Local lockOf cpu.pushOff proc { t with
      pc := pc
      depth := t.depth + 1
      base := if t.depth = 0 then cpu.intr else t.base } := by
  have hroom := h.room
  have hbase : proc.isSome → (if cpu.noff = 0 then cpu.intr else cpu.intena)
      = if t.depth = 0 then cpu.intr else t.base := by
    intro hp
    rw [h.noff]
    split
    · rfl
    · exact h.intena hp (by simp [hpc]) (by simp [hpc]) (by omega)
  simp only [hpc, Pc.pending] at hroom
  rcases hpc' with rfl | ⟨l, rfl, hl⟩
  · exact ⟨by simp [Cpu.pushOff, h.noff], fun _ => rfl, fun hp _ _ _ => hbase hp, h.nodup,
      by simp only [Pc.pending]; omega, by simp, by simp, by simp⟩
  · refine ⟨by simp [Cpu.pushOff, h.noff], fun _ => rfl, fun hp _ _ _ => hbase hp, h.nodup,
      by simp only [Pc.pending]; omega, ?_, by simp, by simp⟩
    rintro l' (heq | heq)
    · cases heq
      exact hl
    · cases heq

/-- `pop_off`, in `release` or not. -/
theorem pops (h : Local lockOf cpu proc t) (hpc : t.pc = .run ∨ t.pc = .pops)
    (hd : t.held.length < t.depth) :
    Local lockOf ⟨t.depth - 1, cpu.intena, decide (t.depth = 1) && cpu.intena⟩ proc
      { t with pc := .run, depth := t.depth - 1 } := by
  refine ⟨rfl, fun hpos => ?_, fun hp _ _ _ => ?_, h.nodup, ?_, by simp, by simp, by simp⟩
  · have h1 : t.depth ≠ 1 := by
      simp only at hpos
      omega
    simp [h1]
  · refine h.intena hp ?_ ?_ (by omega)
    · rcases hpc with hpc | hpc <;> simp [hpc]
    · rcases hpc with hpc | hpc <;> simp [hpc]
  · simp only [Pc.pending]
    omega

/-- The thread goes on in `acquire` or `release`. -/
theorem goes {pc : Pc L} {held : List L} (h : Local lockOf cpu proc t) (hnodup : held.Nodup)
    (hd : 0 < t.depth) (hroom : held.length + pc.pending ≤ t.depth)
    (hpc : t.pc ≠ .resumes ∧ t.pc ≠ .starts) (hpc' : pc ≠ .resumes ∧ pc ≠ .starts)
    (hacq : ∀ l, pc = .acquires l ∨ pc = .spins l → l ∉ held)
    (hrel : ∀ l, pc = .records l ∨ pc = .clears l → l ∈ held) :
    Local lockOf cpu proc { t with pc := pc, held := held } := by
  refine ⟨h.noff, h.off, fun hp _ _ _ => h.intena hp hpc.1 hpc.2 hd, hnodup, hroom, hacq, hrel, ?_⟩
  rintro (heq | heq)
  · exact absurd heq hpc'.1
  · exact absurd heq hpc'.2

/-- A step with interrupts on, or to where they are. -/
theorem intr (h : Local lockOf cpu proc t) (hpc : t.pc = .run) (hd : t.depth = 0) (on : Bool)
    (traps : ℕ) :
    Local lockOf { cpu with intr := on } proc { t with traps := traps } := by
  refine ⟨h.noff, fun hpos => ?_, fun _ _ _ hpos => ?_, h.nodup, h.room, by simp [hpc],
    by simp [hpc], by simp [hpc]⟩
  · exact absurd hpos (by simp [hd])
  · exact absurd hpos (by simp [hd])

/-- A change of `p->state`. -/
theorem changed (h : Local lockOf cpu proc t) (hpc : t.pc = .run) (b : Bool) :
    Local lockOf cpu proc { t with changed := b } :=
  ⟨h.noff, h.off, h.intena, h.nodup, h.room, h.acquires, h.releases, by simp [hpc]⟩

end Local

/-! ## The steps keep the invariant -/

/-- No thread gets or gives up a lock. -/
theorem Inv.congr (hs : Inv lockOf s) (hlock : s'.lock = s.lock)
    (hheld : ∀ c l, l ∈ (s'.current c).held ↔ l ∈ (s.current c).held)
    (hrec : ∀ c l, (s'.current c).Records l ↔ (s.current c).Records l)
    (cpus : ∀ c, Local lockOf (s'.cpu c) (s'.proc c) (s'.current c))
    (parked : ∀ k, (∀ c, s'.proc c ≠ some k) → Parked lockOf k (s'.thread k))
    (waits : ∀ c k, s'.proc c = some k →
      (s'.scheduler c).pc = .run ∧ (s'.scheduler c).held = [] ∧ (s'.scheduler c).depth = 1)
    (once : ∀ c c' k, s'.proc c = some k → s'.proc c' = some k → c = c') : Inv lockOf s' := by
  refine ⟨cpus, parked, waits, once, fun l => ?_, fun l c => ?_, fun l c c' h h' => ?_⟩
  · rw [hlock, hs.locked]
    exact exists_congr fun c => (hheld c l).symm
  · rw [hlock, hs.recorded]
    exact (hrec c l).symm
  · exact hs.excl l c c' ((hheld c l).1 h) ((hheld c' l).1 h')

section Steps

variable [DecidableEq C] [DecidableEq K]

omit [DecidableEq C] in
theorem Inv.spawn_current {k : K} (hk : ∀ c', s.proc c' ≠ some k) (c : C) :
    (s.spawn lockOf k).current c = s.current c := by
  unfold State.spawn
  cases hc : s.proc c with
  | none => simp only [State.current, hc]
  | some k' =>
    have hkk : k' ≠ k := by
      rintro rfl
      exact hk c hc
    simp only [State.current, hc, Function.update_of_ne hkk]

theorem Inv.dispatch_current_of_ne {k : K} {c' : C} (hne : c' ≠ c) :
    (s.dispatch c k).current c' = s.current c' := by
  unfold State.dispatch
  cases hc' : s.proc c' with
  | none => simp only [State.current, Function.update_of_ne hne, hc']
  | some k' => simp only [State.current, Function.update_of_ne hne, hc']

omit [DecidableEq C] [DecidableEq K] in
/-- The invariant does not depend on the states of the processes. -/
theorem Inv.withState (hs : Inv lockOf s) (state : K → ProcState) :
    Inv lockOf { s with state := state } :=
  ⟨hs.cpus, hs.parked, hs.waits, hs.once, hs.locked, hs.recorded, hs.excl⟩

section Leave

variable {k : K} (hs : Inv lockOf s) (hc : s.proc c = some k)
include hs hc

theorem Inv.leave_current_of_ne {c' : C} (hne : c' ≠ c) :
    (s.leave c lockOf k).current c' = s.current c' := by
  unfold State.leave
  cases hc' : s.proc c' with
  | none => simp only [State.current, Function.update_of_ne hne, hc']
  | some k' =>
    have hkk : k' ≠ k := fun h => hne (hs.once c' c k (h ▸ hc') hc)
    simp only [State.current, Function.update_of_ne hne, hc', Function.update_of_ne hkk]

/-- A process goes from its CPU in `sched`, and its lock to the scheduler. -/
theorem Inv.leave (hpc : (s.current c).pc = .run) (hheld : (s.current c).held = [lockOf k])
    (hdepth : (s.current c).depth = 1) : Inv lockOf (s.leave c lockOf k) := by
  have hk : s.current c = s.thread k := by simp only [State.current, hc]
  have hlocal := hs.cpus c
  obtain ⟨hwpc, -, hwdepth⟩ := hs.waits c k hc
  have hself : (s.leave c lockOf k).current c = { s.scheduler c with held := [lockOf k] } := by
    simp only [State.leave, State.current, Function.update_self]
  have hproc : ∀ c' k', (s.leave c lockOf k).proc c' = some k' → c' ≠ c ∧ s.proc c' = some k' := by
    intro c' k' h
    by_cases hne : c' = c
    · simp [State.leave, hne] at h
    · simp only [State.leave, Function.update_of_ne hne] at h
      exact ⟨hne, h⟩
  apply hs.congr
  · rfl
  · intro c' l
    by_cases hne : c' = c
    · rw [hne, hself, hheld]
    · rw [hs.leave_current_of_ne hc hne]
  · intro c' l
    by_cases hne : c' = c
    · rw [hne, hself]
      simp only [Thread.Records, hheld, hwpc, hpc]
    · rw [hs.leave_current_of_ne hc hne]
  · intro c'
    by_cases hne : c' = c
    · rw [hne, hself]
      refine ⟨(hlocal.noff.trans hdepth).trans hwdepth.symm, fun _ => hlocal.off (by omega), ?_,
        List.nodup_singleton _, ?_, ?_, ?_, ?_⟩
      · simp [State.leave]
      · simp [hwpc, hwdepth, Pc.pending]
      · simp [hwpc]
      · simp [hwpc]
      · simp [hwpc]
    · rw [hs.leave_current_of_ne hc hne]
      simpa [State.leave, Function.update_of_ne hne] using hs.cpus c'
  · intro k' hk'
    by_cases hkk : k' = k
    · have hintena : (s.cpu c).intena = (s.thread k).base := by
        rw [← hk]
        exact hlocal.intena (by simp [hc]) (by simp [hpc]) (by simp [hpc]) (by omega)
      rw [hkk]
      simp only [State.leave, Function.update_self]
      exact ⟨Or.inl ⟨rfl, hintena⟩, hk ▸ hheld, hk ▸ hdepth, rfl⟩
    · simp only [State.leave, Function.update_of_ne hkk]
      apply hs.parked k'
      intro c' hc'
      by_cases hne : c' = c
      · rw [hne, hc] at hc'
        exact hkk (Option.some.inj hc').symm
      · apply hk' c'
        simp only [State.leave, Function.update_of_ne hne]
        exact hc'
  · intro c' k' hk'
    obtain ⟨hne, hk'⟩ := hproc c' k' hk'
    simp only [State.leave, Function.update_of_ne hne]
    exact hs.waits c' k' hk'
  · intro c₁ c₂ k' h₁ h₂
    exact hs.once c₁ c₂ k' (hproc c₁ k' h₁).2 (hproc c₂ k' h₂).2

end Leave

theorem Inv.sched {k : K} (hs : Inv lockOf s) (hc : s.proc c = some k)
    (hpc : (s.current c).pc = .run) (hheld : (s.current c).held = [lockOf k])
    (hdepth : (s.current c).depth = 1) (hstate : s.state k ≠ .running) :
    s.sched c lockOf k = .ok (s.leave c lockOf k) ∧ Inv lockOf (s.leave c lockOf k) := by
  have hlocal := hs.cpus c
  have hhold := hs.holding_of_mem hpc (hheld.symm ▸ List.mem_singleton_self (lockOf k))
  have hnoff : (s.cpu c).noff = 1 := hlocal.noff.trans hdepth
  have hintr := hlocal.off (by omega)
  refine ⟨?_, hs.leave hc hpc hheld hdepth⟩
  rw [State.sched, if_pos hhold, if_pos hnoff, if_neg hstate, hintr, if_neg Bool.false_ne_true]

/-- A process that waits in `sched`, or a new one, gets its lock and the CPU from the scheduler. -/
theorem Inv.dispatch {k : K} (hs : Inv lockOf s) (hc : s.proc c = none)
    (hpc : (s.current c).pc = .run) (hheld : (s.current c).held = [lockOf k])
    (hdepth : (s.current c).depth = 1) (hk : ∀ c', s.proc c' ≠ some k) :
    Inv lockOf (s.dispatch c k) := by
  have hlocal := hs.cpus c
  have hcur : s.current c = s.scheduler c := by simp only [State.current, hc]
  have hparked := hs.parked k hk
  have hself : (s.dispatch c k).current c = s.thread k := by
    simp only [State.dispatch, State.current, Function.update_self]
  have hother : ∀ c', c' ≠ c → (s.dispatch c k).current c' = s.current c' :=
    fun _ hne => Inv.dispatch_current_of_ne hne
  have hproc : ∀ c' k', c' ≠ c → (s.dispatch c k).proc c' = some k' → s.proc c' = some k' := by
    intro c' k' hne h
    simpa only [State.dispatch, Function.update_of_ne hne] using h
  have hproc' : ∀ k', (s.dispatch c k).proc c = some k' → k' = k := by
    intro k' h
    simp only [State.dispatch, Function.update_self, Option.some.injEq] at h
    exact h.symm
  apply hs.congr
  · rfl
  · intro c' l
    by_cases hne : c' = c
    · rw [hne, hself, hheld, hparked.held]
    · rw [hother c' hne]
  · intro c' l
    by_cases hne : c' = c
    · rw [hne, hself]
      rcases hparked.pc with ⟨hp, -⟩ | hp
      · simp only [Thread.Records, hheld, hparked.held, hpc, hp, ne_eq, reduceCtorEq]
      · simp only [Thread.Records, hheld, hparked.held, hpc, hp, ne_eq, reduceCtorEq]
    · rw [hother c' hne]
  · intro c'
    by_cases hne : c' = c
    · rw [hne, hself]
      have hroom : (s.thread k).held.length + (s.thread k).pc.pending ≤ (s.thread k).depth := by
        rcases hparked.pc with ⟨hp, -⟩ | hp <;> simp [hp, hparked.held, hparked.depth, Pc.pending]
      refine ⟨?_, fun _ => hlocal.off (by omega), fun _ h h' => ?_, ?_, hroom, ?_, ?_, fun _ => ?_⟩
      · exact (hlocal.noff.trans hdepth).trans hparked.depth.symm
      · rcases hparked.pc with ⟨hp, -⟩ | hp
        · exact absurd hp h
        · exact absurd hp h'
      · rw [hparked.held]
        exact List.nodup_singleton _
      · rcases hparked.pc with ⟨hp, -⟩ | hp <;> simp [hp]
      · rcases hparked.pc with ⟨hp, -⟩ | hp <;> simp [hp]
      · exact ⟨k, by simp only [State.dispatch, Function.update_self], hparked⟩
    · rw [hother c' hne]
      simpa [State.dispatch, Function.update_of_ne hne] using hs.cpus c'
  · intro k' hk'
    apply hs.parked k'
    intro c' hc'
    have hne : c' ≠ c := by
      rintro rfl
      rw [hc] at hc'
      exact Option.some_ne_none k' hc'.symm
    apply hk' c'
    simp only [State.dispatch, Function.update_of_ne hne]
    exact hc'
  · intro c' k' hk'
    by_cases hne : c' = c
    · rw [hne]
      simp only [State.dispatch, Function.update_self]
      exact ⟨hcur ▸ hpc, trivial, hcur ▸ hdepth⟩
    · have hk' := hproc c' k' hne hk'
      simp only [State.dispatch, Function.update_of_ne hne]
      exact hs.waits c' k' hk'
  · intro c₁ c₂ k' h₁ h₂
    by_cases hne₁ : c₁ = c
    · rw [hne₁] at h₁
      rw [hproc' k' h₁] at h₂
      by_cases hne₂ : c₂ = c
      · rw [hne₁, hne₂]
      · exact absurd (hproc c₂ k hne₂ h₂) (hk c₂)
    · by_cases hne₂ : c₂ = c
      · rw [hne₂] at h₂
        rw [hproc' k' h₂] at h₁
        exact absurd (hproc c₁ k hne₁ h₁) (hk c₁)
      · exact hs.once c₁ c₂ k' (hproc c₁ k' hne₁ h₁) (hproc c₂ k' hne₂ h₂)

omit [DecidableEq C] in
theorem Inv.spawn {k : K} (hs : Inv lockOf s) (hk : ∀ c', s.proc c' ≠ some k) :
    Inv lockOf (s.spawn lockOf k) := by
  have hcur : ∀ c, (s.spawn lockOf k).current c = s.current c := Inv.spawn_current hk
  apply hs.congr
  · rfl
  · intro c l
    rw [hcur]
  · intro c l
    rw [hcur]
  · intro c
    rw [hcur]
    exact hs.cpus c
  · intro k' hk'
    by_cases hkk : k' = k
    · rw [hkk]
      simp only [State.spawn, Function.update_self]
      exact ⟨Or.inr rfl, rfl, rfl, rfl⟩
    · simp only [State.spawn, Function.update_of_ne hkk]
      exact hs.parked k' hk'
  · exact hs.waits
  · exact hs.once

/-- The thread pops what it has pushed, in `release` or not. -/
theorem Inv.popOff (hs : Inv lockOf s) (hpc : (s.current c).pc = .run ∨ (s.current c).pc = .pops)
    (hd : (s.current c).held.length < (s.current c).depth) :
    ∃ s', s.popOff c = .ok s' ∧ Inv lockOf s' ∧
      s'.cpu c = ⟨(s.current c).depth - 1, (s.cpu c).intena,
        decide ((s.current c).depth = 1) && (s.cpu c).intena⟩ := by
  have hlocal := hs.cpus c
  refine ⟨_, by rw [State.popOff, hlocal.popOff (by omega)]; rfl, ?_, ?_⟩
  · refine hs.set_same (hlocal.pops hpc hd) rfl fun l => ?_
    rcases hpc with hpc | hpc <;> simp [Thread.Records, hpc]
  · simp

/-! ## The states of the processes -/

section StateOk

variable {proc : Option K} {state : K → ProcState} {t' : Thread L}

omit [DecidableEq C] [DecidableEq K]

/-- A process that has changed its state keeps its lock. -/
theorem StateOk.mono (h : StateOk lockOf proc state t) (hchanged : t'.changed = t.changed)
    (hkeeps : ∀ k, proc = some k → t.changed = true → lockOf k ∈ t.held →
      t.pc ≠ .clears (lockOf k) → lockOf k ∈ t'.held ∧ t'.pc ≠ .clears (lockOf k)) :
    StateOk lockOf proc state t' := by
  intro k hk
  rcases h k hk with ⟨hno, hrun⟩ | ⟨hyes, hne, hmem, hpc⟩
  · exact Or.inl ⟨hchanged.trans hno, hrun⟩
  · exact Or.inr ⟨hchanged.trans hyes, hne, hkeeps k hk hyes hmem hpc⟩

/-- A step that gives up no lock, and is not the first one of `release`. -/
theorem StateOk.goes (h : StateOk lockOf proc state t) (hchanged : t'.changed = t.changed)
    (hheld : ∀ l, l ∈ t.held → l ∈ t'.held ∧ t'.pc ≠ .clears l) : StateOk lockOf proc state t' :=
  h.mono hchanged fun k _ _ hmem _ => hheld (lockOf k) hmem

theorem States.ne_running {k : K} (hst : States lockOf s) (hc : s.proc c = some k)
    (hchanged : (s.current c).changed = true) : s.state k ≠ .running := by
  rcases hst c k hc with ⟨hno, -⟩ | ⟨-, hne, -⟩
  · rw [hno] at hchanged
    exact absurd hchanged Bool.false_ne_true
  · exact hne.1

/-- No other CPU runs a process that is not RUNNING and whose lock is held. -/
theorem Inv.proc_ne {k : K} (hs : Inv lockOf s) (hst : States lockOf s)
    (hl : lockOf k ∈ (s.current c).held) (hstate : s.state k ≠ .running) {c' : C} (hne : c' ≠ c) :
    s.proc c' ≠ some k := by
  intro hc'
  rcases hst c' k hc' with ⟨-, hrun⟩ | ⟨-, -, hmem, -⟩
  · exact hstate hrun
  · exact hne (hs.excl _ _ _ hmem hl)

end StateOk

/-- A step of the thread on `c`. -/
theorem States.set (hst : States lockOf s) (hs : Inv lockOf s)
    (ht : StateOk lockOf (s.proc c) s.state t) : States lockOf (s.set c cpu t) := by
  intro c'
  by_cases hc' : c' = c
  · subst hc'
    simpa using ht
  · rw [State.current_set_of_ne hs.once hc']
    simpa using hst c'

theorem States.popOff (hst : States lockOf s) (hs : Inv lockOf s) (hpop : s.popOff c = .ok s') :
    States lockOf s' := by
  unfold State.popOff at hpop
  cases hcpu : (s.cpu c).popOff with
  | error e =>
    rw [hcpu] at hpop
    cases hpop
  | ok cpu =>
    rw [hcpu] at hpop
    cases hpop
    exact hst.set hs ((hst c).goes rfl fun _ h => ⟨h, by simp⟩)

theorem States.leave {k : K} (hst : States lockOf s) (hs : Inv lockOf s) (hc : s.proc c = some k) :
    States lockOf (s.leave c lockOf k) := by
  intro c' k' hk'
  by_cases hne : c' = c
  · simp [State.leave, hne] at hk'
  · rw [hs.leave_current_of_ne hc hne]
    simp only [State.leave, Function.update_of_ne hne] at hk'
    exact hst c' k' hk'

/-- The process that a scheduler runs is RUNNING. -/
theorem States.dispatch {k : K} (hst : States lockOf s) (hs : Inv lockOf s)
    (hk : ∀ c', s.proc c' ≠ some k) : States lockOf (s.dispatch c k) := by
  intro c' k' hk'
  by_cases hne : c' = c
  · subst hne
    simp only [State.dispatch, Function.update_self, Option.some.injEq] at hk'
    subst hk'
    refine Or.inl ⟨?_, Function.update_self ..⟩
    simpa only [State.dispatch, State.current, Function.update_self] using (hs.parked k hk).changed
  · rw [Inv.dispatch_current_of_ne hne]
    simp only [State.dispatch, Function.update_of_ne hne] at hk'
    have hkk : k' ≠ k := fun h => hk c' (h ▸ hk')
    simpa only [State.dispatch, Function.update_of_ne hkk] using hst c' k' hk'

omit [DecidableEq C] in
theorem States.spawn {k : K} (hst : States lockOf s) (hk : ∀ c', s.proc c' ≠ some k) :
    States lockOf (s.spawn lockOf k) := by
  intro c' k' hk'
  have hkk : k' ≠ k := fun h => hk c' (h ▸ hk')
  rw [Inv.spawn_current hk]
  simpa only [State.spawn, Function.update_of_ne hkk] using hst c' k' hk'

omit [DecidableEq C] in
/-- The process that a scheduler is to run is on no CPU. -/
theorem Inv.proc_ne_of_dispatch {k : K} (hs : Inv lockOf s) (hst : States lockOf s)
    (ha : s.Enabled c lockOf (.dispatch k)) : ∀ c', s.proc c' ≠ some k := by
  obtain ⟨hc, -, hheld, -, hstate⟩ := ha
  intro c' hc'
  have hne : c' ≠ c := by
    rintro rfl
    exact Option.some_ne_none k (hc'.symm.trans hc)
  refine hs.proc_ne hst (hheld.symm ▸ List.mem_singleton_self (lockOf k)) ?_ hne hc'
  rw [hstate]
  decide

omit [DecidableEq C] in
/-- Nor is a free slot. -/
theorem States.proc_ne_of_spawn {k : K} (hst : States lockOf s)
    (ha : s.Enabled c lockOf (.spawn k)) : ∀ c', s.proc c' ≠ some k := by
  obtain ⟨-, hl, hstate⟩ := ha
  intro c' hc'
  rcases hst c' k hc' with ⟨-, hrun⟩ | ⟨-, hne, -⟩
  · rw [hstate] at hrun
    cases hrun
  · exact hne.2 hstate

/-- A process changes its own state, or that of one that is on no CPU. -/
theorem States.setState {k : K} {st : ProcState} (hst : States lockOf s) (hs : Inv lockOf s)
    (ha : s.Enabled c lockOf (.setState k st)) : States lockOf (s.setState c k st) := by
  obtain ⟨hpc, hl, hrunning, hown⟩ := ha
  intro c' k' hk'
  simp only [State.setState, State.set_proc] at hk'
  by_cases hne : c' = c
  · subst hne
    have hself : (s.setState c' k st).current c' =
        { s.current c' with changed := (s.current c').changed || decide (s.proc c' = some k) } :=
      State.current_set
    rw [hself]
    by_cases hkk : k' = k
    · subst hkk
      rw [if_pos hk'] at hown
      refine Or.inr ⟨by simp [hk'], ?_, hl, by simp [hpc]⟩
      simpa only [State.setState, Function.update_self] using ⟨hrunning, hown⟩
    · have hother : decide (s.proc c' = some k) = false := by
        rw [hk']
        simpa using hkk
      rw [hother, Bool.or_false]
      simpa only [State.setState, Function.update_of_ne hkk, State.set_state] using hst c' k' hk'
  · have hkk : k' ≠ k := by
      rintro rfl
      split at hown
      · exact hne (hs.once c' c k' hk' ‹_›)
      · exact hs.proc_ne hst hl hown hne hk'
    have hcur : (s.setState c k st).current c' = s.current c' := State.current_set_of_ne hs.once hne
    rw [hcur]
    simpa only [State.setState, Function.update_of_ne hkk, State.set_state] using hst c' k' hk'

section Locks

variable [DecidableEq L]

/-- The steps of `acquire` and `release`. -/
theorem States.advance (hst : States lockOf s) (hs : Inv lockOf s) (hadv : s.advance c = .ok s') :
    States lockOf s' := by
  unfold State.advance at hadv
  dsimp only at hadv
  split at hadv
  · cases hadv
    exact hst
  · split at hadv
    · cases hadv
    · cases hadv
      exact hst.set hs ((hst c).goes rfl fun _ h => ⟨h, by simp⟩)
  · split at hadv
    · cases hadv
      exact hst
    · cases hadv
      exact States.set hst hs ((hst c).goes rfl fun _ h => ⟨List.mem_cons_of_mem _ h, by simp⟩)
  · cases hadv
    exact States.set hst hs ((hst c).goes rfl fun _ h => ⟨h, by simp⟩)
  · rename_i l hpc
    cases hadv
    -- the lock that is given up is not that of a process that has changed its state
    refine States.set hst hs ((hst c).mono rfl fun k _ _ hmem hne => ⟨?_, by simp⟩)
    have hl : lockOf k ≠ l := by
      rintro rfl
      exact hne hpc
    exact (List.mem_erase_of_ne hl).2 hmem
  · exact hst.popOff hs hadv
  · cases hadv
    exact hst.set hs ((hst c).goes rfl fun _ h => ⟨h, by simp⟩)
  · cases hadv
    exact hst.set hs ((hst c).goes rfl fun _ h => ⟨h, by simp⟩)

theorem Inv.release (hs : Inv lockOf s) (hpc : (s.current c).pc = .run)
    (hl : l ∈ (s.current c).held) : ∃ s', s.release c l = .ok s' ∧ Inv lockOf s' := by
  have hlocal := hs.cpus c
  have hroom := hlocal.room
  have hlen := List.length_pos_of_mem hl
  refine ⟨_, by rw [State.release, if_pos (hs.holding_of_mem hpc hl)], ?_⟩
  refine hs.set_setLock (hlocal.goes hlocal.nodup (by omega) ?_ (by simp [hpc]) (by simp) (by simp)
    ?_) (fun c' hc' => hs.notMem_of_mem hl hc') (fun _ _ => Iff.rfl) (fun l' hl' => ?_) ?_ ?_ ?_
  · simp only [hpc, Pc.pending] at hroom ⊢
    exact hroom
  · simp [hl]
  · simp [Thread.Records, hpc, Ne.symm hl']
  · simpa [hl] using (hs.locked l).2 ⟨c, hl⟩
  · simp [Thread.Records]
  · simp

/-- `acquire` finds the lock free, and takes it. -/
theorem Inv.takes (hs : Inv lockOf s) (hpc : (s.current c).pc = .spins l)
    (hfree : ¬ (s.lock l).locked = true) :
    Inv lockOf ((s.set c (s.cpu c) { s.current c with
      pc := .records l, held := l :: (s.current c).held }).setLock l
        { s.lock l with locked := true }) := by
  have hlocal := hs.cpus c
  have hroom := hlocal.room
  have hout : ∀ c', l ∉ (s.current c').held := fun c' hl => hfree ((hs.locked l).2 ⟨c', hl⟩)
  simp only [hpc, Pc.pending] at hroom
  refine hs.set_setLock (hlocal.goes (List.nodup_cons.2 ⟨hout c, hlocal.nodup⟩) (by omega) ?_
    (by simp [hpc]) (by simp) (by simp) (by simp)) (fun c' _ => hout c') (fun l' hl' => ?_)
    (fun l' hl' => ?_) ?_ ?_ ?_
  · simpa [Pc.pending] using hroom
  · simp [hl']
  · simp [Thread.Records, hpc, hl', Ne.symm hl']
  · simp
  · simpa [Thread.Records] using hs.cpu_ne (hout c)
  · exact fun c' _ => hs.cpu_ne (hout c')

/-- `acquire` writes `lk->cpu`. -/
theorem Inv.records (hs : Inv lockOf s) (hpc : (s.current c).pc = .records l) :
    Inv lockOf ((s.set c (s.cpu c) { s.current c with pc := .run }).setLock l
      { s.lock l with cpu := some c }) := by
  have hlocal := hs.cpus c
  have hroom := hlocal.room
  have hl : l ∈ (s.current c).held := hlocal.releases l (by simp [hpc])
  have hlen := List.length_pos_of_mem hl
  simp only [hpc, Pc.pending] at hroom
  refine hs.set_setLock (hlocal.goes hlocal.nodup (by omega) hroom (by simp [hpc]) (by simp)
    (by simp) (by simp)) (fun c' hc' => hs.notMem_of_mem hl hc') (fun _ _ => Iff.rfl)
    (fun l' hl' => ?_) ?_ ?_ (fun c' hc' => ?_)
  · simp [Thread.Records, hpc, Ne.symm hl']
  · simpa [hl] using (hs.locked l).2 ⟨c, hl⟩
  · simp [Thread.Records, hl]
  · simp [Ne.symm hc']

/-- `release` gives up the lock. -/
theorem Inv.clears (hs : Inv lockOf s) (hpc : (s.current c).pc = .clears l) :
    Inv lockOf ((s.set c (s.cpu c) { s.current c with
      pc := .pops, held := (s.current c).held.erase l }).setLock l
        { s.lock l with locked := false }) := by
  have hlocal := hs.cpus c
  have hroom := hlocal.room
  have hl : l ∈ (s.current c).held := hlocal.releases l (by simp [hpc])
  have hlen := List.length_pos_of_mem hl
  simp only [hpc, Pc.pending] at hroom
  refine hs.set_setLock (hlocal.goes (hlocal.nodup.erase l) (by omega) ?_ (by simp [hpc]) (by simp)
    (by simp) (by simp)) (fun c' hc' => hs.notMem_of_mem hl hc')
    (fun l' hl' => List.mem_erase_of_ne hl') (fun l' hl' => ?_) ?_ ?_ (fun c' hc' => ?_)
  · rw [List.length_erase_of_mem hl]
    simp only [Pc.pending]
    omega
  · simp [Thread.Records, hpc, Ne.symm hl', List.mem_erase_of_ne hl']
  · simp [hlocal.nodup.mem_erase_iff]
  · have hno : (s.lock l).cpu ≠ some c := fun h => ((hs.recorded l c).1 h).2.2 hpc
    simpa [Thread.Records, hlocal.nodup.mem_erase_iff] using hno
  · exact hs.cpu_ne (hs.notMem_of_mem hl hc')

theorem Inv.advance (hs : Inv lockOf s) (hpc : (s.current c).pc ≠ .run) :
    ∃ s', s.advance c = .ok s' ∧ Inv lockOf s' := by
  have hlocal := hs.cpus c
  have hroom := hlocal.room
  have hd := hlocal.depth_pos hpc
  unfold State.advance
  dsimp only
  cases hp : (s.current c).pc with
  | run => exact absurd hp hpc
  | acquires l =>
    have hl : l ∉ (s.current c).held := hlocal.acquires l (by simp [hp])
    simp only [hp, Pc.pending] at hroom
    dsimp only
    rw [hs.holding_of_notMem hl, if_neg Bool.false_ne_true]
    refine ⟨_, rfl, ?_⟩
    refine hs.set_same (hlocal.goes hlocal.nodup hd ?_ (by simp [hp]) (by simp) ?_ (by simp)) rfl
      fun l' => ?_
    · simpa [Pc.pending] using hroom
    · simp [hl]
    · simp [Thread.Records, hp]
  | spins l =>
    dsimp only
    by_cases hl : (s.lock l).locked = true
    · rw [if_pos hl]
      exact ⟨s, rfl, hs⟩
    · rw [if_neg hl]
      exact ⟨_, rfl, hs.takes hp hl⟩
  | records l => exact ⟨_, rfl, hs.records hp⟩
  | clears l => exact ⟨_, rfl, hs.clears hp⟩
  | pops =>
    simp only [hp, Pc.pending] at hroom
    obtain ⟨s', hs', hinv, -⟩ := hs.popOff (Or.inr hp) (by omega)
    exact ⟨s', hs', hinv⟩
  | resumes =>
    obtain ⟨k, hk, hparked⟩ := hlocal.parked (by simp [hp])
    have hbase : (s.current c).intena = (s.current c).base := by
      rcases hparked.pc with ⟨-, h⟩ | h
      · exact h
      · simp [hp] at h
    refine ⟨_, rfl, hs.set_same ?_ rfl fun l => by simp [Thread.Records, hp]⟩
    refine ⟨hlocal.noff, hlocal.off, fun _ _ _ _ => hbase, hlocal.nodup, ?_, by simp, by simp,
      by simp⟩
    simpa [hp, Pc.pending] using hroom
  | starts =>
    refine ⟨_, rfl, hs.set_same ?_ rfl fun l => by simp [Thread.Records, hp]⟩
    refine ⟨hlocal.noff, hlocal.off, fun _ _ _ _ => rfl, hlocal.nodup, ?_, by simp, by simp,
      by simp⟩
    simpa [hp, Pc.pending] using hroom

/-- **One step.** What a thread may do does not panic, and keeps the invariant. -/
theorem Inv.exec {a : Act K L} (hs : Inv lockOf s) (hst : States lockOf s)
    (ha : s.Enabled c lockOf a) : ∃ s', s.exec c lockOf a = .ok s' ∧ Inv lockOf s' := by
  have hlocal := hs.cpus c
  have hsame : ∀ traps l, Thread.Records { s.current c with traps := traps } l ↔
      (s.current c).Records l := fun _ _ => Iff.rfl
  cases a with
  | pushOff =>
    have hpc : (s.current c).pc = .run := ha
    exact ⟨_, rfl, hs.set_same (hlocal.pushOff hpc (Or.inl rfl)) rfl
      fun l => by simp [Thread.Records, hpc]⟩
  | popOff =>
    obtain ⟨s', hs', hinv, -⟩ := hs.popOff (Or.inl ha.1) ha.2
    exact ⟨s', hs', hinv⟩
  | acquire l =>
    obtain ⟨hpc, hl⟩ := ha
    exact ⟨_, rfl, hs.set_same (hlocal.pushOff hpc (Or.inr ⟨l, rfl, hl⟩)) rfl
      fun l => by simp [Thread.Records, hpc]⟩
  | release l => exact hs.release ha.1 ha.2.1
  | advance => exact hs.advance ha
  | intr on =>
    exact ⟨_, rfl, hs.set_same (hlocal.intr ha.1 ha.2 on _) rfl (hsame _)⟩
  | trap =>
    have hintr : (s.cpu c).intr = true := ha
    have hd : (s.current c).depth = 0 := by
      by_contra h
      rw [hlocal.off (by omega)] at hintr
      exact Bool.false_ne_true hintr
    have hpc : (s.current c).pc = .run := by
      by_contra h
      have := hlocal.depth_pos h
      omega
    exact ⟨_, rfl, hs.set_same (hlocal.intr hpc hd false _) rfl (hsame _)⟩
  | sret => exact ⟨_, rfl, hs.set_same (hlocal.intr ha.1 ha.2.1 true _) rfl (hsame _)⟩
  | setState k st =>
    have h := hs.set_same (hlocal.changed ha.1 ((s.current c).changed || decide (s.proc c = some k)))
      rfl fun _ => Iff.rfl
    exact ⟨_, rfl, h.withState _⟩
  | sched =>
    obtain ⟨k, hc, hpc, hheld, hdepth, hchanged⟩ := ha
    obtain ⟨hsched, hleave⟩ := hs.sched hc hpc hheld hdepth (hst.ne_running hc hchanged)
    exact ⟨_, by simpa only [State.exec, hc] using hsched, hleave⟩
  | dispatch k =>
    have hk := hs.proc_ne_of_dispatch hst ha
    obtain ⟨hc, hpc, hheld, hdepth, -⟩ := ha
    exact ⟨_, rfl, hs.dispatch hc hpc hheld hdepth hk⟩
  | spawn k => exact ⟨_, rfl, hs.spawn (hst.proc_ne_of_spawn ha)⟩

/-- **One step** keeps the states of the processes. -/
theorem States.exec {a : Act K L} (hs : Inv lockOf s) (hst : States lockOf s)
    (ha : s.Enabled c lockOf a) (hexec : s.exec c lockOf a = .ok s') : States lockOf s' := by
  cases a with
  | pushOff =>
    cases hexec
    exact hst.set hs ((hst c).goes rfl fun _ h => ⟨h, by simp⟩)
  | popOff => exact hst.popOff hs hexec
  | acquire l =>
    cases hexec
    exact hst.set hs ((hst c).goes rfl fun _ h => ⟨h, by simp⟩)
  | release l =>
    simp only [State.exec, State.release] at hexec
    split at hexec
    · cases hexec
      -- a process that has changed its state releases another lock
      refine States.set hst hs ((hst c).mono rfl fun k hk hchanged hmem _ => ⟨hmem, ?_⟩)
      have hne := ha.2.2 hchanged
      rw [hk] at hne
      rintro ⟨rfl⟩
      exact hne rfl
    · cases hexec
  | advance => exact hst.advance hs hexec
  | intr on =>
    cases hexec
    exact hst.set hs ((hst c).mono rfl fun _ _ _ hmem hpc => ⟨hmem, hpc⟩)
  | trap =>
    cases hexec
    exact hst.set hs ((hst c).mono rfl fun _ _ _ hmem hpc => ⟨hmem, hpc⟩)
  | sret =>
    cases hexec
    exact hst.set hs ((hst c).mono rfl fun _ _ _ hmem hpc => ⟨hmem, hpc⟩)
  | setState k st =>
    cases hexec
    exact hst.setState hs ha
  | sched =>
    obtain ⟨k, hc, hpc, hheld, hdepth, hchanged⟩ := ha
    obtain ⟨hsched, -⟩ := hs.sched hc hpc hheld hdepth (hst.ne_running hc hchanged)
    simp only [State.exec, hc, hsched, Except.ok.injEq] at hexec
    subst hexec
    exact hst.leave hs hc
  | dispatch k =>
    cases hexec
    exact hst.dispatch hs (hs.proc_ne_of_dispatch hst ha)
  | spawn k =>
    cases hexec
    exact hst.spawn (hst.proc_ne_of_spawn ha)

end Locks

end Steps

/-! ## The theorem -/

variable [DecidableEq C] [DecidableEq K] [DecidableEq L]

theorem Inv.init (h : (system lockOf).init s) : Inv lockOf s := by
  obtain ⟨hcpu, hlock, hthread⟩ := h
  have hcur : ∀ c, s.current c = .idle := by
    intro c
    simp only [State.current, (hcpu c).2.1, (hcpu c).2.2]
  constructor
  · intro c
    rw [hcur, (hcpu c).2.1]
    exact ⟨(hcpu c).1, by simp [Thread.idle], by simp, List.nodup_nil, by simp [Thread.idle, Pc.pending],
      by simp [Thread.idle], by simp [Thread.idle], by simp [Thread.idle]⟩
  · intro k _
    obtain ⟨-, hpc, hheld, hdepth, hchanged⟩ := hthread k
    exact ⟨Or.inr hpc, hheld, hdepth, hchanged⟩
  · intro c k hk
    rw [(hcpu c).2.1] at hk
    exact absurd hk.symm (Option.some_ne_none k)
  · intro c c' k hk
    rw [(hcpu c).2.1] at hk
    exact absurd hk.symm (Option.some_ne_none k)
  · intro l
    simp [hlock, hcur, Thread.idle]
  · intro l c
    simp [hlock, hcur, Thread.idle, Thread.Records]
  · intro l c c' h
    simp [hcur, Thread.idle] at h

theorem States.init (h : (system lockOf).init s) : States lockOf s := by
  intro c k hk
  rw [(h.1 c).2.1] at hk
  exact absurd hk.symm (Option.some_ne_none k)

theorem Inv.of_reachable (hs : (system lockOf).Reachable s) : Inv lockOf s ∧ States lockOf s := by
  refine hs.invariant (I := fun s => Inv lockOf s ∧ States lockOf s)
    (fun s h => ⟨Inv.init h, States.init h⟩) ?_
  rintro s e s' - ⟨hinv, hst⟩ ⟨he, hexec⟩
  obtain ⟨s'', hexec', hinv'⟩ := hinv.exec hst he
  have hst' := hst.exec hinv he hexec
  rw [hexec] at hexec'
  cases hexec'
  exact ⟨hinv', hst'⟩

/-- What the threads can rely on. -/
structure Sound (lockOf : K → L) (s : State C K L) : Prop where
  off : ∀ c, 0 < (s.cpu c).noff → (s.cpu c).intr = false
  /-- No two CPUs hold a lock. -/
  excl : ∀ l c c', l ∈ (s.current c).held → l ∈ (s.current c').held → c = c'
  free : ∀ l, (s.lock l).locked = false ↔ ∀ c, l ∉ (s.current c).held
  /-- No two CPUs run a process. -/
  once : ∀ c c' k, s.proc c = some k → s.proc c' = some k → c = c'
  /-- A process on a CPU is RUNNING as long as it has not changed its state itself. -/
  running : ∀ c k, s.proc c = some k → ((s.current c).changed = false ↔ s.state k = .running)
  /-- No check fails. -/
  safe : ∀ c a, s.Enabled c lockOf a → ∃ s', s.exec c lockOf a = .ok s'
  /-- The outermost `pop_off` of a process brings back what its outermost `push_off` has found. -/
  restored : ∀ c k s', s.proc c = some k →
    ((s.current c).pc = .run ∧ (s.current c).held.length < (s.current c).depth ∨
      (s.current c).pc = .pops) →
    s.popOff c = .ok s' → (s'.cpu c).noff = 0 → (s'.cpu c).intr = (s.current c).base

/-- **Spinlocks and nested interrupts-off.** In every run of any number of processes and schedulers
on any number of CPUs, with interrupts wherever they are enabled: interrupts are off on a CPU whose
`noff` is not 0; a lock is held by one CPU at a time, and a process runs on one CPU at a time; no
check of `acquire`, `release`, `pop_off` and `sched` fails for threads that release what they have
acquired, in any order, and call `sched` with `p->lock` only, after a change of their `p->state`;
and when `noff` of a process comes back to 0, the interrupts are as they were at its outermost
`push_off`, on whatever CPU that was. -/
theorem nesting (hs : (system lockOf).Reachable s) : Sound lockOf s := by
  obtain ⟨hinv, hst⟩ := Inv.of_reachable hs
  refine ⟨fun c hc => ?_, hinv.excl, fun l => ?_, hinv.once, fun c k hk => ?_, fun c a ha => ?_,
    fun c k s' hk hpc hpop h0 => ?_⟩
  · exact (hinv.cpus c).off ((hinv.cpus c).noff ▸ hc)
  · rw [← Bool.not_eq_true, hinv.locked, not_exists]
  · rcases hst c k hk with ⟨hno, hrun⟩ | ⟨hyes, hne, -⟩
    · exact iff_of_true hno hrun
    · exact iff_of_false (by simp [hyes]) hne.1
  · obtain ⟨s', hexec, -⟩ := hinv.exec hst ha
    exact ⟨s', hexec⟩
  · have hlocal := hinv.cpus c
    have hroom := hlocal.room
    have hd : (s.current c).held.length < (s.current c).depth := by
      rcases hpc with ⟨-, hd⟩ | hpc
      · exact hd
      · simp only [hpc, Pc.pending] at hroom
        omega
    obtain ⟨s'', hpop', -, hcpu⟩ := hinv.popOff (hpc.imp_left And.left) hd
    rw [hpop] at hpop'
    cases hpop'
    rw [hcpu] at h0 ⊢
    simp only at h0 ⊢
    have h1 : (s.current c).depth = 1 := by omega
    have hbase : (s.cpu c).intena = (s.current c).base := by
      apply hlocal.intena
      · simp [hk]
      · rcases hpc with ⟨hpc, -⟩ | hpc <;> simp [hpc]
      · rcases hpc with ⟨hpc, -⟩ | hpc <;> simp [hpc]
      · omega
    simp [h1, hbase]

/-! ## Runs that are computed -/

section Run

variable (lockOf)

instance decidableEnabled (s : State C K L) (c : C) : DecidablePred (s.Enabled c lockOf)
  | .pushOff => inferInstanceAs (Decidable (_ = _))
  | .popOff => inferInstanceAs (Decidable (_ ∧ _))
  | .acquire _ => inferInstanceAs (Decidable (_ ∧ _))
  | .release _ => inferInstanceAs (Decidable (_ ∧ _))
  | .advance => inferInstanceAs (Decidable (_ ≠ _))
  | .intr _ => inferInstanceAs (Decidable (_ ∧ _))
  | .trap => inferInstanceAs (Decidable (_ = _))
  | .sret => inferInstanceAs (Decidable (_ ∧ _))
  | .setState k _ =>
    inferInstanceAs (Decidable (_ ∧ _ ∧ _ ∧ if s.proc c = some k then _ else _))
  | .sched => inferInstanceAs (Decidable (∃ _, _))
  | .dispatch _ => inferInstanceAs (Decidable (_ ∧ _))
  | .spawn _ => inferInstanceAs (Decidable (_ ∧ _))

/-- The state after some steps, if they are possible. -/
def State.run (s : State C K L) : List (C × Act K L) → Option (State C K L)
  | [] => some s
  | (c, a) :: as =>
    if s.Enabled c lockOf a then
      match s.exec c lockOf a with
      | .ok s' => s'.run as
      | .error _ => none
    else none

variable {lockOf}

theorem reachable_of_run {as : List (C × Act K L)} (hs : (system lockOf).Reachable s)
    (h : s.run lockOf as = some s') : (system lockOf).Reachable s' := by
  induction as generalizing s with
  | nil =>
    cases h
    exact hs
  | cons x as ih =>
    obtain ⟨c, a⟩ := x
    unfold State.run at h
    split at h
    · rename_i he
      cases hexec : s.exec c lockOf a with
      | error e =>
        rw [hexec] at h
        exact absurd h.symm (Option.some_ne_none s')
      | ok s₁ =>
        rw [hexec] at h
        exact ih (hs.step (e := (c, a)) ⟨he, hexec⟩) h
    · exact absurd h.symm (Option.some_ne_none s')

end Run

/-- Two CPUs and one process, at the start. -/
def twoCpus : State Bool Unit Unit where
  cpu _ := { noff := 0, intena := false, intr := false }
  lock _ := { locked := false, cpu := none }
  proc _ := none
  state _ := .runnable
  thread _ := { pc := .starts, intena := false, traps := 0, held := [()], depth := 1, base := false
                changed := false }
  scheduler _ := .idle

/-- The scheduler of a CPU enables interrupts, acquires the lock of the process and runs it. -/
def schedules (c : Bool) : List (Bool × Act Unit Unit) :=
  [.intr true, .acquire (), .advance, .advance, .advance, .dispatch (), .advance].map (c, ·)

/-- A process runs on the first CPU, yields in an interrupt, and goes on on the second. -/
def migration : List (Bool × Act Unit Unit) :=
  schedules false ++
    [.release (), .advance, .advance, .trap, .acquire (), .advance, .advance, .advance,
      .setState () .runnable, .sched, .release (), .advance, .advance].map (false, ·) ++
    schedules true

theorem nesting_migration : ∃ s, Sound (C := Bool) id s ∧ s.proc true = some () ∧
    (s.current true).traps = 1 ∧ (s.cpu true).noff = 1 ∧ (s.current true).base = false := by
  have hrun : (twoCpus.run id migration).any (fun s => decide (s.proc true = some ()) &&
      (decide ((s.current true).traps = 1) && (decide ((s.cpu true).noff = 1) &&
        decide ((s.current true).base = false)))) = true := rfl
  obtain ⟨s, hs, hall⟩ := (Option.any_eq_true _ _).1 hrun
  have hreach : (system id).Reachable s :=
    reachable_of_run ⟨[], .init ⟨fun _ => ⟨rfl, rfl, rfl⟩, fun _ => rfl,
      fun _ => ⟨(by decide : ProcState.runnable ≠ .running), rfl, rfl, rfl, rfl⟩⟩⟩ hs
  simp only [Bool.and_eq_true, decide_eq_true_eq] at hall
  exact ⟨s, nesting hreach, hall⟩

end Xv6.Spinlock
