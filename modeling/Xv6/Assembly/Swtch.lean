import Xv6.Foundations.Riscv
import Xv6.Foundations.Transition

/-!
# swtch

The context switch, and threads that use it on several CPUs. A thread that is not running has a
`struct context` in memory; `swtch` saves the registers of the running thread there and loads those
of another. What a thread finds when it runs again is what it left (`swtch_resumes`), on whatever
CPU and however many switches later.

A process that has ended leaves its slot to another one: `allocproc` writes the context with which
the new thread starts, in `forkret` and on an empty kernel stack.

The threads are the processes and the schedulers of the CPUs; a thread is switched to by one CPU at
a time, which `p->lock` ensures.
-/

namespace Xv6.Assembly

open Riscv

/-- `struct context`. -/
def contextSlots : List Slot :=
  [(.ra, 0), (.sp, 8), (.s0, 16), (.s1, 24), (.s2, 32), (.s3, 40), (.s4, 48), (.s5, 56), (.s6, 64),
    (.s7, 72), (.s8, 80), (.s9, 88), (.s10, 96), (.s11, 104)]

/-- `sizeof(struct context)`. -/
def contextSize : ℕ := 112

/-- `swtch(old, new)`. -/
def swtch : List Instr :=
  [.sd .ra 0 .a0, .sd .sp 8 .a0, .sd .s0 16 .a0, .sd .s1 24 .a0, .sd .s2 32 .a0, .sd .s3 40 .a0,
    .sd .s4 48 .a0, .sd .s5 56 .a0, .sd .s6 64 .a0, .sd .s7 72 .a0, .sd .s8 80 .a0,
    .sd .s9 88 .a0, .sd .s10 96 .a0, .sd .s11 104 .a0,
    .ld .ra 0 .a1, .ld .sp 8 .a1, .ld .s0 16 .a1, .ld .s1 24 .a1, .ld .s2 32 .a1, .ld .s3 40 .a1,
    .ld .s4 48 .a1, .ld .s5 56 .a1, .ld .s6 64 .a1, .ld .s7 72 .a1, .ld .s8 80 .a1,
    .ld .s9 88 .a1, .ld .s10 96 .a1, .ld .s11 104 .a1,
    .ret]

theorem swtch_eq : swtch = saves .a0 contextSlots ++ (restores .a1 contextSlots ++ [.ret]) := rfl

theorem contextSlots_fits : Fits contextSlots contextSize := ⟨by decide, by decide⟩

/-- The registers of a context. -/
def Saved (r : Reg) : Prop := r ∈ contextSlots.map Prod.fst

instance : DecidablePred Saved := fun r => inferInstanceAs (Decidable (r ∈ _))

variable {mmu : Word → Word → ℕ}

/-- What `swtch` does, with the old context at `old` and the new one at `new`. -/
theorem exec_swtch {m : Machine} {old new : ℕ} {f : Reg → Word}
    (hold : Maps mmu (m.csrs .satp) (m.regs .a0) old contextSize)
    (hnew : Maps mmu (m.csrs .satp) (m.regs .a1) new contextSize)
    (happart : old + contextSize ≤ new ∨ new + contextSize ≤ old)
    (hf : Holds m.mem new contextSlots f) :
    ∃ mem, exec mmu m swtch = ⟨f .ra, fun r => if Saved r then f r else m.regs r, m.csrs, mem⟩ ∧
      Holds mem old contextSlots m.regs ∧
      ∀ x, x < old ∨ old + contextSize ≤ x → mem x = m.mem x := by
  obtain ⟨mem, hsave, hholds, hrest⟩ := exec_saves hold contextSlots_fits
  have houtside : ∀ x, x < old ∨ old + contextSize ≤ x → mem x = m.mem x := by
    intro x hx
    refine hrest x fun s hs => ?_
    have := contextSlots_fits.inside s hs
    omega
  refine ⟨mem, ?_, hholds, houtside⟩
  have hnew' : Holds mem new contextSlots f :=
    hf.congr contextSlots_fits fun x hge hlt => houtside x (by omega)
  rw [swtch_eq, exec_append, hsave, exec_append,
    exec_restores (m := { m with mem := mem }) hnew contextSlots_fits.inside (by decide) hnew']
  rfl

/-! ## A new context -/

/-- The registers with which a thread starts in `forkret`, with the stack pointer `sp`. -/
def startRegs (forkret sp : Word) (r : Reg) : Word :=
  if r = .ra then forkret else if r = .sp then sp else 0

/-- What `allocproc` writes: the context is cleared, and gets a return address and a stack. -/
def setContext (mem : Memory) (base : ℕ) (forkret sp : Word) : Memory :=
  ((mem.memset base 0 contextSize).store base forkret.toNat 8).store (base + 8) sp.toNat 8

/-- The new context has these registers. -/
theorem holds_setContext (mem : Memory) (base : ℕ) (forkret sp : Word) :
    Holds (setContext mem base forkret sp) base contextSlots (startRegs forkret sp) := by
  have hra : (setContext mem base forkret sp).load base 8 = forkret.toNat := by
    rw [← Memory.load_store (mem.memset base 0 contextSize) base (toNat_lt forkret)]
    exact Memory.load_congr fun i hi => Memory.store_of_notMem _ _ (by omega)
  have hsp : (setContext mem base forkret sp).load (base + 8) 8 = sp.toNat :=
    Memory.load_store _ _ (toNat_lt sp)
  have hrest : ∀ off, 16 ≤ off → off + 8 ≤ contextSize →
      (setContext mem base forkret sp).load (base + off) 8 = 0 := by
    intro off hlow hhigh
    have hin : base + off + 8 ≤ base + contextSize := by omega
    rw [← Memory.load_memset_zero mem (Nat.le_add_right base off) hin]
    refine Memory.load_congr fun i hi => ?_
    rw [setContext, Memory.store_of_notMem _ _ (by omega), Memory.store_of_notMem _ _ (by omega)]
  intro s hs
  by_cases hs' : s = (.ra, 0) ∨ s = (.sp, 8)
  · rcases hs' with rfl | rfl
    · exact hra
    · exact hsp
  · have hslot : 16 ≤ s.2 ∧ startRegs forkret sp s.1 = 0 := by
      have hcases : ∀ s ∈ contextSlots, ¬(s = (.ra, 0) ∨ s = (.sp, 8)) →
          16 ≤ s.2 ∧ s.1 ≠ .ra ∧ s.1 ≠ .sp := by decide
      obtain ⟨hlow, hra, hsp⟩ := hcases s hs hs'
      exact ⟨hlow, by rw [startRegs, if_neg hra, if_neg hsp]⟩
    rw [hslot.2]
    exact hrest s.2 hslot.1 (contextSlots_fits.inside s hs)

/-- And nothing else is written. -/
theorem setContext_of_notMem (mem : Memory) {base x : ℕ} (forkret sp : Word)
    (h : x < base ∨ base + contextSize ≤ x) : setContext mem base forkret sp x = mem x := by
  rw [contextSize] at h
  rw [setContext, Memory.store_of_notMem _ _ (by omega), Memory.store_of_notMem _ _ (by omega),
    Memory.memset_of_notMem _ _ (by rw [contextSize]; omega)]

/-! ## Threads -/

/-- Where the contexts of the threads are, for one value of `satp`, that of the kernel, and where
a new thread starts. -/
structure Contexts (mmu : Word → Word → ℕ) (ι : Type) where
  satp : Word
  /-- The address of `forkret`. -/
  forkret : Word
  /-- The end of the kernel stack of a thread, `p->kstack + PGSIZE`. -/
  stack : ι → Word
  /-- The address of a context: the kernel maps its own data directly. -/
  base : ι → ℕ
  maps : ∀ i, Maps mmu satp (BitVec.ofNat 64 (base i)) (base i) contextSize
  apart : ∀ i j, i ≠ j → base i + contextSize ≤ base j ∨ base j + contextSize ≤ base i

/-- The CPUs and the memory. -/
structure Cpus (κ ι : Type) where
  regs : κ → Reg → Word
  pc : κ → Word
  mem : Memory
  /-- The thread that each CPU runs. -/
  current : κ → ι

variable {κ ι : Type}

/-- The machine that the CPU `c` is. -/
def Cpus.machine (s : Cpus κ ι) (satp : Word) (c : κ) : Machine :=
  ⟨s.pc c, s.regs c, fun _ => satp, s.mem⟩

/-- What can be seen of a step: code of a thread, a new context for a thread, or a switch, with the
registers before and after it and where it has returned to. -/
inductive Event (κ ι : Type)
  | run (c : κ)
  | alloc (c : κ) (j : ι)
  | switch (c : κ) (i j : ι) (before after : Reg → Word) (pc : Word)

variable [DecidableEq κ] [DecidableEq ι]

/-- No CPU runs the thread. -/
def Cpus.Suspended (s : Cpus κ ι) (j : ι) : Prop := ∀ c, s.current c ≠ j

/-- The steps of the CPUs. -/
inductive CpuStep (C : Contexts mmu ι) : Cpus κ ι → Event κ ι → Cpus κ ι → Prop
  /-- The thread on `c` runs any code, which leaves the contexts of suspended threads alone. -/
  | run {s : Cpus κ ι} {c : κ} {regs : Reg → Word} {pc : Word} {mem : Memory}
      (others : ∀ j, s.Suspended j → ∀ x, C.base j ≤ x → x < C.base j + contextSize →
        mem x = s.mem x) :
      CpuStep C s (.run c)
        ⟨Function.update s.regs c regs, Function.update s.pc c pc, mem, s.current⟩
  /-- It runs `allocproc`, which sets up the context of a thread that does not run. -/
  | alloc {s : Cpus κ ι} {c : κ} {j : ι} (suspended : s.Suspended j) :
      CpuStep C s (.alloc c j)
        { s with mem := setContext s.mem (C.base j) C.forkret (C.stack j) }
  /-- It calls `swtch` with its own context and that of a suspended thread. -/
  | switch {s : Cpus κ ι} {c : κ} {j : ι} {m : Machine} (suspended : s.Suspended j)
      (a0 : s.regs c .a0 = BitVec.ofNat 64 (C.base (s.current c)))
      (a1 : s.regs c .a1 = BitVec.ofNat 64 (C.base j))
      (hm : exec mmu (s.machine C.satp c) swtch = m) :
      CpuStep C s (.switch c (s.current c) j (s.regs c) m.regs m.pc)
        ⟨Function.update s.regs c m.regs, Function.update s.pc c m.pc, m.mem,
          Function.update s.current c j⟩

/-- The registers in the context of a thread that is not running: those with which it has called
`swtch` last, those of a new thread if `allocproc` has set up the context since, or its first
ones. -/
def lastSaved (C : Contexts mmu ι) (first : ι → Reg → Word) : List (Event κ ι) → ι → Reg → Word
  | [], j => first j
  | .run _ :: h, j => lastSaved C first h j
  | .alloc _ i :: h, j =>
    if i = j then startRegs C.forkret (C.stack i) else lastSaved C first h j
  | .switch _ i _ before _ _ :: h, j => if i = j then before else lastSaved C first h j

/-- Different CPUs run different threads, and the contexts of the other threads hold their first
registers. -/
def cpus (C : Contexts mmu ι) (first : ι → Reg → Word) : LTS (Cpus κ ι) (Event κ ι) where
  init s := Function.Injective s.current ∧
    ∀ j, s.Suspended j → Holds s.mem (C.base j) contextSlots (first j)
  step := CpuStep C

/-- The contexts of the suspended threads hold what they have saved. -/
structure CpusOk (C : Contexts mmu ι) (first : ι → Reg → Word) (h : List (Event κ ι))
    (s : Cpus κ ι) : Prop where
  injective : Function.Injective s.current
  holds : ∀ j, s.Suspended j → Holds s.mem (C.base j) contextSlots (lastSaved C first h j)

/-- Every switch has gone back to where its thread called `swtch` last, with the registers that the
thread had there, or to the start of a new thread. -/
def Resumes (C : Contexts mmu ι) (first : ι → Reg → Word) : List (Event κ ι) → Prop
  | [] => True
  | .run _ :: h => Resumes C first h
  | .alloc _ _ :: h => Resumes C first h
  | .switch _ _ j before after pc :: h =>
    (after = fun r => if Saved r then lastSaved C first h j r else before r) ∧
      pc = lastSaved C first h j .ra ∧ Resumes C first h

variable {C : Contexts mmu ι} {first : ι → Reg → Word} {h : List (Event κ ι)} {s s' : Cpus κ ι}

omit [DecidableEq κ] in
/-- A switch: the other thread has the registers that it saved, the old one has saved its own. -/
theorem CpusOk.switch (hok : CpusOk C first h s) {c : κ} {j : ι} (hj : s.Suspended j)
    (ha0 : s.regs c .a0 = BitVec.ofNat 64 (C.base (s.current c)))
    (ha1 : s.regs c .a1 = BitVec.ofNat 64 (C.base j)) :
    ∃ mem, exec mmu (s.machine C.satp c) swtch = ⟨lastSaved C first h j .ra,
        fun r => if Saved r then lastSaved C first h j r else s.regs c r, fun _ => C.satp, mem⟩ ∧
      Holds mem (C.base (s.current c)) contextSlots (s.regs c) ∧
      ∀ x, x < C.base (s.current c) ∨ C.base (s.current c) + contextSize ≤ x →
        mem x = s.mem x := by
  have hold := C.maps (s.current c)
  have hnew := C.maps j
  rw [← ha0] at hold
  rw [← ha1] at hnew
  exact exec_swtch (m := s.machine C.satp c) hold hnew (C.apart _ _ (hj c)) (hok.holds j hj)

/-- The threads that are suspended after a switch from the thread of `c` to `j`. -/
theorem suspended_switch {current : κ → ι} {c : κ} {j k : ι}
    (hk : ∀ c', Function.update current c j c' ≠ k) :
    k ≠ j ∧ (k = current c ∨ ∀ c', current c' ≠ k) := by
  refine ⟨fun hkj => hk c (by rw [Function.update_self, hkj]), ?_⟩
  by_cases hkc : k = current c
  · exact .inl hkc
  · refine .inr fun c' hc' => ?_
    have hne : c' ≠ c := by
      rintro rfl
      exact hkc hc'.symm
    exact hk c' (by rw [Function.update_of_ne hne, hc'])

omit [DecidableEq ι] in
/-- No two CPUs run the same thread after it. -/
theorem injective_switch {current : κ → ι} (hinj : Function.Injective current) {c : κ} {j : ι}
    (hj : ∀ c', current c' ≠ j) : Function.Injective (Function.update current c j) := by
  intro c₁ c₂ heq
  rw [Function.update_apply, Function.update_apply] at heq
  split at heq <;> split at heq
  · next h₁ h₂ => rw [h₁, h₂]
  · exact absurd heq.symm (hj c₂)
  · exact absurd heq (hj c₁)
  · exact hinj heq

/-- Every step keeps the invariant. -/
theorem CpusOk.step {e : Event κ ι} (hok : CpusOk C first h s) (hstep : CpuStep C s e s') :
    CpusOk C first (e :: h) s' := by
  cases hstep with
  | run others =>
    exact ⟨hok.injective, fun j hj => (hok.holds j hj).congr contextSlots_fits (others j hj)⟩
  | alloc suspended =>
    refine ⟨hok.injective, fun k hk => ?_⟩
    rw [lastSaved]
    split
    case isTrue heq =>
      rw [← heq]
      exact holds_setContext _ _ _ _
    case isFalse hne =>
      refine (hok.holds k hk).congr contextSlots_fits fun x hge hlt => setContext_of_notMem _ _ _ ?_
      have := C.apart _ _ hne
      omega
  | switch suspended a0 a1 hm =>
    obtain ⟨mem, hexec, hholds, hrest⟩ := hok.switch suspended a0 a1
    rw [hexec] at hm
    subst hm
    refine ⟨injective_switch hok.injective suspended, fun k hk => ?_⟩
    obtain ⟨-, hk⟩ := suspended_switch hk
    rw [lastSaved]
    split
    case isTrue heq => exact heq ▸ hholds
    case isFalse hne =>
      -- a thread that was suspended before; its context is not the one that is written
      have hother := hk.resolve_left (Ne.symm hne)
      refine (hok.holds k hother).congr contextSlots_fits fun x hge hlt => hrest x ?_
      have := C.apart _ _ hne
      omega

/-- What a step adds to the history. -/
theorem Resumes.step {e : Event κ ι} (hok : CpusOk C first h s) (hh : Resumes C first h)
    (hstep : CpuStep C s e s') : Resumes C first (e :: h) := by
  cases hstep with
  | run others => exact hh
  | alloc suspended => exact hh
  | switch suspended a0 a1 hm =>
    obtain ⟨mem, hexec, -⟩ := hok.switch suspended a0 a1
    rw [hexec] at hm
    subst hm
    exact ⟨rfl, rfl, hh⟩

theorem cpusOk_of_run (r : (cpus C first).Run h s) : CpusOk C first h s :=
  r.invariant (fun _ hinit => ⟨hinit.1, hinit.2⟩) fun _ _ _ _ _ hok hstep => hok.step hstep

/-- In every run of any number of threads on any number of CPUs, a thread that is switched to goes
on where it called `swtch` last, with the stack pointer, the return address and the callee-saved
registers that it had there, or starts in `forkret` if `allocproc` has made a new thread of it; the
other registers are those of the thread that has switched to it. -/
theorem swtch_resumes (r : (cpus C first).Run h s) : Resumes C first h := by
  induction r with
  | init _ => trivial
  | step r hstep ih => exact Resumes.step (cpusOk_of_run r) ih hstep

/-- Two threads with the contexts of two slots of a table, mapped directly. -/
def twoContexts : Contexts (fun _ va => va.toNat) Bool where
  satp := 0
  forkret := 512
  stack _ := 16384
  base i := if i then 8192 else 4096
  maps i off hoff := by
    rw [contextSize] at hoff
    cases i <;> simp <;> omega
  apart i j hij := by
    cases i <;> cases j <;> simp_all [contextSize]

/-- The first thread calls `swtch` on the only CPU. -/
def calling : Cpus Unit Bool where
  regs _ r := if r = .a0 then 4096 else if r = .a1 then 8192 else 7
  pc _ := 0
  mem _ := 0
  current _ := false

/-- The registers with which the second one calls it later. -/
def callingBack : Reg → Word := fun r => if r = .a0 then 8192 else if r = .a1 then 4096 else 9

/-- A thread gets its context and starts; after some code it switches back to the first thread, which
has its own registers again. -/
theorem swtch_resumes_calling : ∃ started pc after pc' s,
    (cpus twoContexts fun _ _ => 0).Run [.switch () true false callingBack after pc', .run (),
      .switch () false true (calling.regs ()) started pc, .alloc () true] s ∧
    started .sp = 16384 ∧ pc = 512 ∧ after .sp = 7 ∧ after .s3 = 7 ∧ after .a2 = 9 ∧ pc' = 7 := by
  have hinit : (cpus twoContexts fun _ _ => 0).Run [] calling :=
    .init ⟨fun _ _ _ => rfl, fun j _ s _ => rfl⟩
  have halloc := hinit.step (CpuStep.alloc (c := ()) (j := true) fun _ => Bool.false_ne_true)
  have hswitch := halloc.step (CpuStep.switch (c := ()) (j := true) (fun _ => Bool.false_ne_true)
    rfl rfl rfl)
  have hcode : ∀ (s : Cpus Unit Bool) regs pc, CpuStep twoContexts s (.run ())
      ⟨Function.update s.regs () regs, Function.update s.pc () pc, s.mem, s.current⟩ :=
    fun _ _ _ => .run fun _ _ _ _ _ => rfl
  have hrun := hswitch.step (hcode _ callingBack 0)
  have hback := hrun.step (CpuStep.switch (c := ()) (j := false) (fun _ => Bool.false_ne_true.symm)
    rfl rfl rfl)
  obtain ⟨hafter, hpc', hstarted, hpc, -⟩ := swtch_resumes hback
  refine ⟨_, _, _, _, _, hback, ?_, hpc, ?_, ?_, ?_, hpc'⟩
  · rw [hstarted]
    rfl
  · rw [hafter]
    rfl
  · rw [hafter]
    rfl
  · rw [hafter]
    rfl

end Xv6.Assembly
