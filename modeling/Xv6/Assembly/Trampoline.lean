import Xv6.Exec.Defs
import Xv6.Foundations.Riscv

/-!
# Traps from user space

`uservec` and `userret` in `trampoline.S`, with `usertrap`, `syscall` and `prepare_return` between
them as far as they read and write the trapframe. `user_trap` says what a trap is to the program
that is running: an interrupt or a page fault that has been dealt with changes nothing; a system
call goes on after the `ecall`, with its result in `a0`.

The trapframe page is mapped at `TRAPFRAME` in every user page table.
-/

namespace Xv6.Assembly

open Riscv
open Exec (Trapframe u64)

/-- The word of `struct trapframe` for a user register. -/
def wordOf : Reg → Fin 36
  | .ra => 5 | .sp => 6 | .gp => 7 | .tp => 8 | .t0 => 9 | .t1 => 10 | .t2 => 11
  | .s0 => 12 | .s1 => 13
  | .a0 => 14 | .a1 => 15 | .a2 => 16 | .a3 => 17 | .a4 => 18 | .a5 => 19 | .a6 => 20 | .a7 => 21
  | .s2 => 22 | .s3 => 23 | .s4 => 24 | .s5 => 25 | .s6 => 26 | .s7 => 27 | .s8 => 28 | .s9 => 29
  | .s10 => 30 | .s11 => 31
  | .t3 => 32 | .t4 => 33 | .t5 => 34 | .t6 => 35

/-- The slots of the user registers that are saved before `a0`. -/
def userSlots : List Slot :=
  [(.ra, 40), (.sp, 48), (.gp, 56), (.tp, 64), (.t0, 72), (.t1, 80), (.t2, 88), (.s0, 96),
    (.s1, 104), (.a1, 120), (.a2, 128), (.a3, 136), (.a4, 144), (.a5, 152), (.a6, 160), (.a7, 168),
    (.s2, 176), (.s3, 184), (.s4, 192), (.s5, 200), (.s6, 208), (.s7, 216), (.s8, 224), (.s9, 232),
    (.s10, 240), (.s11, 248), (.t3, 256), (.t4, 264), (.t5, 272), (.t6, 280)]

/-- `sizeof(struct trapframe)`. -/
def trapframeSize : ℕ := 288

/-- `TRAPFRAME` as a virtual address. -/
def TRAPFRAME : Word := BitVec.ofNat 64 Exec.TRAPFRAME

/-- `uservec`; `userret` is the address after it. -/
def uservec (userret : Word) : List Instr :=
  [.csrw .sscratch .a0, .li .a0 TRAPFRAME,
    .sd .ra 40 .a0, .sd .sp 48 .a0, .sd .gp 56 .a0, .sd .tp 64 .a0, .sd .t0 72 .a0,
    .sd .t1 80 .a0, .sd .t2 88 .a0, .sd .s0 96 .a0, .sd .s1 104 .a0, .sd .a1 120 .a0,
    .sd .a2 128 .a0, .sd .a3 136 .a0, .sd .a4 144 .a0, .sd .a5 152 .a0, .sd .a6 160 .a0,
    .sd .a7 168 .a0, .sd .s2 176 .a0, .sd .s3 184 .a0, .sd .s4 192 .a0, .sd .s5 200 .a0,
    .sd .s6 208 .a0, .sd .s7 216 .a0, .sd .s8 224 .a0, .sd .s9 232 .a0, .sd .s10 240 .a0,
    .sd .s11 248 .a0, .sd .t3 256 .a0, .sd .t4 264 .a0, .sd .t5 272 .a0, .sd .t6 280 .a0,
    .csrr .t0 .sscratch, .sd .t0 112 .a0,
    .ld .sp 8 .a0, .ld .tp 32 .a0, .ld .t0 16 .a0, .ld .t1 0 .a0,
    .sfence, .csrw .satp .t1, .sfence,
    .jalr .t0 userret]

/-- `userret`, with the user page table in `a0`. -/
def userret : List Instr :=
  [.sfence, .csrw .satp .a0, .sfence, .li .a0 TRAPFRAME,
    .ld .ra 40 .a0, .ld .sp 48 .a0, .ld .gp 56 .a0, .ld .tp 64 .a0, .ld .t0 72 .a0,
    .ld .t1 80 .a0, .ld .t2 88 .a0, .ld .s0 96 .a0, .ld .s1 104 .a0, .ld .a1 120 .a0,
    .ld .a2 128 .a0, .ld .a3 136 .a0, .ld .a4 144 .a0, .ld .a5 152 .a0, .ld .a6 160 .a0,
    .ld .a7 168 .a0, .ld .s2 176 .a0, .ld .s3 184 .a0, .ld .s4 192 .a0, .ld .s5 200 .a0,
    .ld .s6 208 .a0, .ld .s7 216 .a0, .ld .s8 224 .a0, .ld .s9 232 .a0, .ld .s10 240 .a0,
    .ld .s11 248 .a0, .ld .t3 256 .a0, .ld .t4 264 .a0, .ld .t5 272 .a0, .ld .t6 280 .a0,
    .ld .a0 112 .a0,
    .sret]

/-- The part of `uservec` that saves registers, with the trapframe in `a0`. -/
def saveUser : List Instr :=
  saves .a0 userSlots ++ ([.csrr .t0 .sscratch] ++ saves .a0 [(.t0, 112)])

/-- The slots that `uservec` loads. -/
def kernelSlots : List Slot := [(.sp, 8), (.tp, 32), (.t0, 16), (.t1, 0)]

theorem uservec_eq (next : Word) : uservec next =
    [.csrw .sscratch .a0, .li .a0 TRAPFRAME] ++ (saveUser ++ (restores .a0 kernelSlots ++
      [.sfence, .csrw .satp .t1, .sfence, .jalr .t0 next])) := rfl

theorem userret_eq : userret =
    [.sfence, .csrw .satp .a0, .sfence, .li .a0 TRAPFRAME] ++ (restores .a0 userSlots ++
      [.ld .a0 112 .a0, .sret]) := rfl

theorem userSlots_fits : Fits userSlots trapframeSize := ⟨by decide, by decide⟩

theorem userSlots_word : ∀ s ∈ userSlots, s.2 = 8 * (wordOf s.1).val := by decide

theorem mem_userSlots (r : Reg) (h : r ≠ .a0) : (r, 8 * (wordOf r).val) ∈ userSlots := by
  revert h
  cases r <;> decide

/-! ## The C functions -/

/-- What `prepare_return` leaves for the next trap. -/
structure KernelWords where
  satp : ℕ
  sp : ℕ
  trap : ℕ
  hartid : ℕ

/-- A system call: the trapframe after it, and its result. -/
abbrev Syscall := Trapframe → Trapframe × ℕ

/-- The function in the table `syscalls` for the number in `a7`, an `int`. -/
def lookup (syscalls : List (Option Syscall)) (a7 : ℕ) : Option Syscall :=
  let num := Int.bmod a7 (2 ^ 32)
  if 0 < num ∧ num < syscalls.length then syscalls.getD num.toNat none else none

/-- Call `f` and store its result in `a0`, or -1 if there is no such system call. -/
def dispatch (t : Trapframe) : Option Syscall → Trapframe
  | some f => (f t).1.set Trapframe.a0 (f t).2
  | none => t.set Trapframe.a0 (-1 : Word).toNat

def syscall (syscalls : List (Option Syscall)) (t : Trapframe) : Trapframe :=
  dispatch t (lookup syscalls (t.word (wordOf .a7)))

/-- `prepare_return`, as far as the trapframe is concerned. -/
def prepareReturn (kernel : KernelWords) (t : Trapframe) : Trapframe :=
  (((t.set 0 kernel.satp).set 1 kernel.sp).set 2 kernel.trap).set 4 kernel.hartid

/-- `usertrap` when it returns: a system call if `scause` is 8, and otherwise a device interrupt or
a page fault that `vmfault` has dealt with. -/
def usertrap (syscalls : List (Option Syscall)) (kernel : KernelWords) (scause sepc : ℕ)
    (t : Trapframe) : Trapframe :=
  let t := t.set Trapframe.epc sepc
  let t :=
    if scause = 8 then syscall syscalls (t.set Trapframe.epc (u64 (t.word Trapframe.epc + 4)))
    else t
  prepareReturn kernel t

/-- The page at `pa` holds the trapframe. -/
def Represents (mem : Memory) (pa : ℕ) (t : Trapframe) : Prop :=
  ∀ i : Fin 36, mem.load (pa + 8 * i.val) 8 = t.word i

variable {mmu : Word → Word → ℕ}

/-- A trap of the program in `m`, from `uservec` to the return in `m'`. Whatever else `usertrap`
does, the trapframe at `pa` is as its code says, and it returns the user page table. -/
structure UserTrap (mmu : Word → Word → ℕ) (syscalls : List (Option Syscall)) (scause pa : ℕ)
    (m m' : Machine) : Prop where
  maps : Maps mmu (m.csrs .satp) TRAPFRAME pa trapframeSize
  run : ∃ next kernel t k, Represents (exec mmu m (uservec next)).mem pa t ∧
    Represents k.mem pa (usertrap syscalls kernel scause (m.csrs .sepc).toNat t) ∧
    k.csrs .sepc = BitVec.ofNat 64
      ((usertrap syscalls kernel scause (m.csrs .sepc).toNat t).word Trapframe.epc) ∧
    Maps mmu (k.regs .a0) TRAPFRAME pa trapframeSize ∧
    m' = exec mmu k userret

/-! ## In and out -/

/-- The words of the kernel that `uservec` loads. -/
def kernelWord (mem : Memory) (pa : ℕ) : Reg → Word
  | .sp => word mem (pa + 8)
  | .tp => word mem (pa + 32)
  | .t0 => word mem (pa + 16)
  | _ => word mem pa

/-- What the slots of `uservec` leave alone. -/
theorem lt_or_le_slot {pa x : ℕ} (hx : x < pa + 40 ∨ pa + trapframeSize ≤ x) :
    ∀ s ∈ userSlots, x < pa + s.2 ∨ pa + s.2 + 8 ≤ x := by
  intro s hs
  have hin := userSlots_fits.inside s hs
  have hge : 40 ≤ s.2 := by
    revert s
    decide
  omega

theorem exec_saveUser {m : Machine} {pa : ℕ}
    (hmaps : Maps mmu (m.csrs .satp) (m.regs .a0) pa trapframeSize) :
    ∃ mem, exec mmu m saveUser =
        ⟨m.pc, Function.update m.regs .t0 (m.csrs .sscratch), m.csrs, mem⟩ ∧
      (∀ r, r ≠ .a0 → mem.load (pa + 8 * (wordOf r).val) 8 = (m.regs r).toNat) ∧
      mem.load (pa + 112) 8 = (m.csrs .sscratch).toNat ∧
      ∀ x, x < pa + 40 ∨ pa + trapframeSize ≤ x → mem x = m.mem x := by
  obtain ⟨mem₁, hsave₁, hholds₁, hrest₁⟩ := exec_saves hmaps userSlots_fits
  let m₂ : Machine := ⟨m.pc, Function.update m.regs .t0 (m.csrs .sscratch), m.csrs, mem₁⟩
  have hmaps₂ : Maps mmu (m₂.csrs .satp) (m₂.regs .a0) pa trapframeSize := hmaps
  have hfits : Fits [(.t0, 112)] trapframeSize := ⟨by decide, by decide⟩
  obtain ⟨mem₂, hsave₂, hholds₂, hrest₂⟩ := exec_saves hmaps₂ hfits
  have hsingle : ∀ x, x < pa + 112 ∨ pa + 112 + 8 ≤ x → mem₂ x = mem₁ x := by
    intro x hx
    apply hrest₂
    intro s hs
    obtain rfl := List.mem_singleton.1 hs
    exact hx
  refine ⟨mem₂, ?_, fun r hr => ?_, ?_, fun x hx => ?_⟩
  · rw [saveUser, exec_append, hsave₁, exec_append]
    exact hsave₂
  · rw [← hholds₁ _ (mem_userSlots r hr)]
    -- the word of `a0` is another one
    have hne : 8 * (wordOf r).val + 8 ≤ 112 ∨ 120 ≤ 8 * (wordOf r).val := by
      revert hr
      cases r <;> decide
    refine Memory.load_congr fun i hi => hsingle _ ?_
    omega
  · have hword : mem₂.load (pa + 112) 8 =
        (Function.update m.regs .t0 (m.csrs .sscratch) .t0).toNat :=
      hholds₂ _ (List.mem_singleton_self _)
    rwa [Function.update_self] at hword
  · have hin : trapframeSize = 288 := rfl
    rw [hsingle x (by omega)]
    exact hrest₁ x (lt_or_le_slot hx)

/-- `uservec` saves every user register in its word, keeps the words of the kernel, and enters
`usertrap` on the kernel stack and with the kernel page table that they name. -/
theorem exec_uservec {m : Machine} {pa : ℕ}
    (hmaps : Maps mmu (m.csrs .satp) TRAPFRAME pa trapframeSize) (next : Word) :
    ∃ mem regs csrs, exec mmu m (uservec next) = ⟨word m.mem (pa + 16), regs, csrs, mem⟩ ∧
      csrs .satp = word m.mem pa ∧ csrs .sepc = m.csrs .sepc ∧
      regs .sp = word m.mem (pa + 8) ∧ regs .tp = word m.mem (pa + 32) ∧ regs .ra = next ∧
      (∀ r, mem.load (pa + 8 * (wordOf r).val) 8 = (m.regs r).toNat) ∧
      ∀ x, x < pa + 40 ∨ pa + trapframeSize ≤ x → mem x = m.mem x := by
  -- `a0` is in `sscratch`, and the trapframe in `a0`
  let m₁ : Machine := (m.setCsr .sscratch (m.regs .a0)).setReg .a0 TRAPFRAME
  have hmaps₁ : Maps mmu (m₁.csrs .satp) (m₁.regs .a0) pa trapframeSize := hmaps
  obtain ⟨mem, hsave, hregs, ha0, hrest⟩ := exec_saveUser hmaps₁
  let m₂ : Machine := ⟨m₁.pc, Function.update m₁.regs .t0 (m₁.csrs .sscratch), m₁.csrs, mem⟩
  have hmaps₂ : Maps mmu (m₂.csrs .satp) (m₂.regs .a0) pa trapframeSize := hmaps
  have hin : ∀ s ∈ kernelSlots, s.2 + 8 ≤ 40 := by decide
  -- the words of the kernel are below those that have been written
  have hkernel : Holds m₂.mem pa kernelSlots (kernelWord m.mem pa) := by
    intro s hs
    have hlow := hin s hs
    have hload : mem.load (pa + s.2) 8 = m.mem.load (pa + s.2) 8 :=
      Memory.load_congr fun i hi => hrest _ (.inl (by omega))
    have hword : kernelWord m.mem pa s.1 = word m.mem (pa + s.2) := by
      revert s
      simp [kernelSlots, kernelWord]
    rw [hword, toNat_word]
    exact hload
  have hload := exec_restores hmaps₂ (fun s hs => (hin s hs).trans (by decide)) (by decide) hkernel
  let m₃ : Machine := ⟨m₂.pc, fun r => if r ∈ kernelSlots.map Prod.fst then kernelWord m.mem pa r
    else m₂.regs r, m₂.csrs, mem⟩
  have hrun : exec mmu m (uservec next) =
      exec mmu m₃ [.sfence, .csrw .satp .t1, .sfence, .jalr .t0 next] := by
    rw [uservec_eq, exec_append]
    change exec mmu m₁ _ = _
    rw [exec_append, hsave]
    change exec mmu m₂ _ = _
    rw [exec_append, hload]
  refine ⟨mem, Function.update m₃.regs .ra next, Function.update m₃.csrs .satp (m₃.regs .t1), hrun,
    rfl, rfl, rfl, rfl, rfl, fun r => ?_, hrest⟩
  by_cases hr : r = .a0
  · subst hr
    exact ha0
  · rw [hregs r hr, Machine.setReg_regs_of_ne hr, Machine.setCsr_regs]

/-- The words that `prepare_return` has left are those with which the next trap comes to `usertrap`:
on the kernel stack of the process, with the kernel page table, and with the CPU in `tp`. -/
theorem exec_uservec_prepareReturn {m : Machine} {pa : ℕ} {kernel : KernelWords} {t : Trapframe}
    (hmaps : Maps mmu (m.csrs .satp) TRAPFRAME pa trapframeSize)
    (ht : Represents m.mem pa (prepareReturn kernel t)) (next : Word) :
    let entry := exec mmu m (uservec next)
    entry.pc = BitVec.ofNat 64 kernel.trap ∧ entry.csrs .satp = BitVec.ofNat 64 kernel.satp ∧
      entry.regs .sp = BitVec.ofNat 64 kernel.sp ∧
      entry.regs .tp = BitVec.ofNat 64 kernel.hartid ∧ entry.regs .ra = next := by
  obtain ⟨mem, regs, csrs, hexec, hsatp, -, hsp, htp, hra, -, -⟩ := exec_uservec hmaps next
  have hword : ∀ i : Fin 36, word m.mem (pa + 8 * i.val) =
      BitVec.ofNat 64 ((prepareReturn kernel t).word i) := fun i => by rw [word, ht i]
  rw [hexec]
  exact ⟨hword 2, hsatp.trans (hword 0), hsp.trans (hword 1), htp.trans (hword 4), hra⟩

/-- `userret` loads every user register from its word, and goes on at `sepc` with the page table
in `a0`. -/
theorem exec_userret {m : Machine} {pa : ℕ} {f : Reg → Word}
    (hmaps : Maps mmu (m.regs .a0) TRAPFRAME pa trapframeSize)
    (hf : ∀ r, m.mem.load (pa + 8 * (wordOf r).val) 8 = (f r).toNat) :
    exec mmu m userret =
      ⟨m.csrs .sepc, f, Function.update m.csrs .satp (m.regs .a0), m.mem⟩ := by
  let m₁ : Machine := (m.setCsr .satp (m.regs .a0)).setReg .a0 TRAPFRAME
  have hmaps₁ : Maps mmu (m₁.csrs .satp) (m₁.regs .a0) pa trapframeSize := hmaps
  have hholds : Holds m₁.mem pa userSlots f := by
    intro s hs
    rw [userSlots_word s hs]
    exact hf s.1
  have hload := exec_restores hmaps₁ userSlots_fits.inside (by decide) hholds
  have ha0 : address mmu m₁ 112 .a0 = pa + 112 := hmaps₁ 112 (by decide)
  let m₂ : Machine :=
    ⟨m₁.pc, fun r => if r ∈ userSlots.map Prod.fst then f r else m₁.regs r, m₁.csrs, m₁.mem⟩
  have hlast : step mmu m₂ (.ld .a0 112 .a0) = m₂.setReg .a0 (f .a0) := by
    change m₂.setReg .a0 (BitVec.ofNat 64 (m₁.mem.load (address mmu m₁ 112 .a0) 8)) = _
    rw [ha0]
    change m₂.setReg .a0 (BitVec.ofNat 64 (m.mem.load (pa + 8 * (wordOf .a0).val) 8)) = _
    rw [hf .a0, BitVec.ofNat_toNat, BitVec.setWidth_eq]
  have hregs : (m₂.setReg .a0 (f .a0)).regs = f := by
    funext r
    by_cases hr : r = .a0
    · subst hr
      exact Machine.setReg_regs_self
    · rw [Machine.setReg_regs_of_ne hr]
      exact if_pos (List.mem_map_of_mem (mem_userSlots r hr))
  calc exec mmu m userret
    _ = exec mmu m₁ (restores .a0 userSlots ++ [.ld .a0 112 .a0, .sret]) := by
      rw [userret_eq, exec_append]
      rfl
    _ = step mmu (step mmu m₂ (.ld .a0 112 .a0)) .sret := by
      rw [exec_append, hload]
      rfl
    _ = _ := by
      rw [hlast, step, hregs]
      rfl

/-! ## The registers in a trapframe -/

/-- The user registers of a trapframe. -/
def userRegs (t : Trapframe) (r : Reg) : Word := BitVec.ofNat 64 (t.word (wordOf r))

/-- Its user program counter. -/
def userPc (t : Trapframe) : Word := BitVec.ofNat 64 (t.word Trapframe.epc)

section

variable (t : Trapframe) (v : ℕ)

@[simp] theorem userRegs_prepareReturn (kernel : KernelWords) :
    userRegs (prepareReturn kernel t) = userRegs t := by
  funext r
  cases r <;> rfl

@[simp] theorem userPc_prepareReturn (kernel : KernelWords) :
    userPc (prepareReturn kernel t) = userPc t := rfl

@[simp] theorem userRegs_set_epc : userRegs (t.set Trapframe.epc v) = userRegs t := by
  funext r
  cases r <;> rfl

@[simp] theorem userPc_set_epc : userPc (t.set Trapframe.epc v) = BitVec.ofNat 64 v := by
  simp [userPc, Trapframe.set]

@[simp] theorem userRegs_set_a0 : userRegs (t.set Trapframe.a0 v) =
    Function.update (userRegs t) .a0 (BitVec.ofNat 64 v) := by
  funext r
  cases r <;> rfl

@[simp] theorem userPc_set_a0 : userPc (t.set Trapframe.a0 v) = userPc t := rfl

end

theorem set_word_self (t : Trapframe) (i : Fin 36) (v : ℕ) : (t.set i v).word i = v := by
  simp [Trapframe.set]

/-- The trapframe that a system call finds when the `ecall` was at `sepc`. -/
def called (t : Trapframe) (sepc : ℕ) : Trapframe :=
  (t.set Trapframe.epc sepc).set Trapframe.epc (u64 (sepc + 4))

theorem userRegs_called (t : Trapframe) (sepc : ℕ) : userRegs (called t sepc) = userRegs t := by
  simp [called]

theorem called_word (t : Trapframe) (sepc : ℕ) (r : Reg) :
    (called t sepc).word (wordOf r) = t.word (wordOf r) := by
  cases r <;> rfl

theorem called_epc (t : Trapframe) (sepc : Word) :
    (called t sepc.toNat).word Trapframe.epc = (sepc + 4).toNat := by
  rw [called, set_word_self, u64, BitVec.toNat_add]
  rfl

theorem usertrap_syscall (syscalls : List (Option Syscall)) (kernel : KernelWords) {scause : ℕ}
    (hscause : scause = 8) (sepc : ℕ) (t : Trapframe) :
    usertrap syscalls kernel scause sepc t =
      prepareReturn kernel (syscall syscalls (called t sepc)) := by
  rw [usertrap, if_pos hscause, set_word_self, called]

theorem userRegs_dispatch_none (t : Trapframe) :
    userRegs (dispatch t none) = Function.update (userRegs t) .a0 (-1) := by
  rw [dispatch, userRegs_set_a0, BitVec.ofNat_toNat, BitVec.setWidth_eq]

/-- What a trap is to the program that has trapped in `m`, and goes on in `m'`: a device interrupt
or a page fault changes no register, and returns to the same instruction; a system call finds the
registers in the trapframe, and `epc` behind its `ecall`. It returns to the `epc` that the call has
left, with its result in `a0` and the other registers as the call has left them. -/
theorem user_trap {syscalls : List (Option Syscall)} {scause pa : ℕ} {m m' : Machine}
    (h : UserTrap mmu syscalls scause pa m m') :
    (scause ≠ 8 → m'.regs = m.regs ∧ m'.pc = m.csrs .sepc) ∧
    (scause = 8 → ∃ t : Trapframe, (∀ r, t.word (wordOf r) = (m.regs r).toNat) ∧
      t.word Trapframe.epc = (m.csrs .sepc + 4).toNat ∧
      (lookup syscalls (m.regs .a7).toNat = none →
        m'.regs = Function.update m.regs .a0 (-1) ∧ m'.pc = m.csrs .sepc + 4) ∧
      ∀ f, lookup syscalls (m.regs .a7).toNat = some f →
        m'.regs = Function.update (userRegs (f t).1) .a0 (BitVec.ofNat 64 (f t).2) ∧
          m'.pc = userPc (f t).1) := by
  obtain ⟨next, kernel, t, k, ht, hk, hsepc, hmaps, rfl⟩ := h.run
  obtain ⟨mem, regs, csrs, hexec, -, -, -, -, -, hsaved, -⟩ := exec_uservec h.maps next
  rw [hexec] at ht
  have hwords : ∀ r, t.word (wordOf r) = (m.regs r).toNat := fun r =>
    (ht (wordOf r)).symm.trans (hsaved r)
  have hregs : userRegs t = m.regs := by
    funext r
    rw [userRegs, hwords, BitVec.ofNat_toNat, BitVec.setWidth_eq]
  generalize hu : usertrap syscalls kernel scause (m.csrs .sepc).toNat t = u at hk hsepc
  have hf : ∀ r, k.mem.load (pa + 8 * (wordOf r).val) 8 = (userRegs u r).toNat := by
    intro r
    rw [userRegs, BitVec.toNat_ofNat, ← hk (wordOf r)]
    exact (Nat.mod_eq_of_lt (Memory.load_lt ..)).symm
  have hpc : k.csrs .sepc = userPc u := hsepc
  rw [exec_userret hmaps hf, hpc]
  dsimp only
  subst hu
  constructor
  · intro hscause
    rw [usertrap, if_neg hscause]
    simp [hregs]
  · intro hscause
    rw [usertrap_syscall _ _ hscause, userRegs_prepareReturn, userPc_prepareReturn]
    have hcalled : ∀ r, (called t (m.csrs .sepc).toNat).word (wordOf r) = (m.regs r).toNat :=
      fun r => (called_word ..).trans (hwords r)
    refine ⟨_, hcalled, called_epc t _, fun hnone => ?_, fun f hsome => ?_⟩
    · rw [syscall, hcalled, hnone, userRegs_dispatch_none, userRegs_called, hregs]
      refine ⟨rfl, ?_⟩
      rw [dispatch, userPc_set_a0, userPc, called_epc, BitVec.ofNat_toNat, BitVec.setWidth_eq]
    · rw [syscall, hcalled, hsome]
      exact ⟨userRegs_set_a0 .., rfl⟩

/-! ## A timer interrupt and a system call -/

/-- A memory that holds a trapframe at 0. -/
def frameMemory (t : Trapframe) : Memory := fun x =>
  if h : x / 8 < 36 then UInt8.ofNat (t.word ⟨x / 8, h⟩ / 256 ^ (x % 8)) else 0

theorem represents_frameMemory {t : Trapframe} (ht : ∀ i, t.word i < 256 ^ 8) :
    Represents (frameMemory t) 0 t := by
  intro i
  apply Memory.load_eq (ht i)
  intro j hj
  have hi := i.isLt
  have hdiv : (8 * i.val + j) / 8 = i.val := by omega
  have hmod : (8 * i.val + j) % 8 = j := by omega
  rw [Nat.zero_add, frameMemory, hmod]
  simp [hdiv]

theorem set_lt {t : Trapframe} {b : ℕ} (ht : ∀ i, t.word i < b) (j : Fin 36) {v : ℕ} (hv : v < b) :
    ∀ i, (t.set j v).word i < b := by
  intro i
  simp only [Trapframe.set, Function.update_apply]
  split_ifs
  · exact hv
  · exact ht i

/-- The trapframe page is at 0. -/
def lowTrapframe (_ va : Word) : ℕ := va.toNat - Exec.TRAPFRAME

theorem lowTrapframe_maps (satp : Word) : Maps lowTrapframe satp TRAPFRAME 0 trapframeSize := by
  intro off hoff
  have hsize : trapframeSize = 288 := rfl
  have htrapframe : Exec.TRAPFRAME = 274877898752 := rfl
  rw [lowTrapframe, TRAPFRAME, htrapframe, BitVec.toNat_add, BitVec.toNat_ofNat,
    BitVec.toNat_ofNat]
  omega

/-- A program at the address 4096. -/
def program : Machine := ⟨0, fun _ => 7, fun _ => 4096, fun _ => 0⟩

/-- A system call that returns 42, with the number 7. -/
def sevenCalls : List (Option Syscall) := List.replicate 7 none ++ [some fun t => (t, 42)]

theorem lookup_sevenCalls_seven : lookup sevenCalls 7 = some fun t => (t, 42) := rfl

theorem lookup_sevenCalls {a7 : ℕ} {f : Syscall} (h : lookup sevenCalls a7 = some f) :
    f = fun t => (t, 42) := by
  unfold lookup at h
  dsimp only at h
  split_ifs at h
  rw [List.getD_eq_getElem?_getD] at h
  cases hk : sevenCalls[(Int.bmod a7 (2 ^ 32)).toNat]? with
  | none =>
    rw [hk] at h
    cases h
  | some x =>
    rw [hk, Option.getD_some] at h
    have hmem := List.mem_of_getElem? hk
    rw [h] at hmem
    simpa [sevenCalls] using hmem

/-- The program traps, and comes back. -/
theorem exists_userTrap (syscalls : List (Option Syscall)) (scause : ℕ)
    (hwords : ∀ t : Trapframe, (∀ i, t.word i < 256 ^ 8) → ∀ i,
      (usertrap syscalls ⟨0, 0, 0, 0⟩ scause (program.csrs .sepc).toNat t).word i < 256 ^ 8) :
    ∃ m', UserTrap lowTrapframe syscalls scause 0 program m' := by
  obtain ⟨mem, hmem⟩ : ∃ mem, (exec lowTrapframe program (uservec 0)).mem = mem := ⟨_, rfl⟩
  let t : Trapframe := ⟨0, fun i => mem.load (8 * i.val) 8⟩
  have ht : Represents mem 0 t := fun i => by rw [Nat.zero_add]
  obtain ⟨u, hu⟩ : ∃ u,
    usertrap syscalls ⟨0, 0, 0, 0⟩ scause (program.csrs .sepc).toNat t = u := ⟨_, rfl⟩
  have hu' : ∀ i, u.word i < 256 ^ 8 := hu ▸ hwords t fun i => mem.load_lt _ _
  obtain ⟨k, hk⟩ : ∃ k : Machine, k = ⟨0, fun _ => 0,
    fun _ => BitVec.ofNat 64 (u.word Trapframe.epc), frameMemory u⟩ := ⟨_, rfl⟩
  refine ⟨exec lowTrapframe k userret, lowTrapframe_maps _, 0, ⟨0, 0, 0, 0⟩, t, k, ?_, ?_, ?_,
    lowTrapframe_maps _, rfl⟩
  · rw [hmem]
    exact ht
  · rw [hu, hk]
    exact represents_frameMemory hu'
  · rw [hu, hk]

theorem prepareReturn_lt {t : Trapframe} (ht : ∀ i, t.word i < 256 ^ 8) :
    ∀ i, (prepareReturn ⟨0, 0, 0, 0⟩ t).word i < 256 ^ 8 :=
  have hzero : 0 < 256 ^ 8 := by decide
  set_lt (set_lt (set_lt (set_lt ht 0 hzero) 1 hzero) 2 hzero) 4 hzero

/-- The program is interrupted by a timer, or makes the system call. -/
theorem user_trap_program :
    (∃ m', UserTrap lowTrapframe sevenCalls 5 0 program m' ∧
      m'.regs = program.regs ∧ m'.pc = 4096) ∧
    ∃ m', UserTrap lowTrapframe sevenCalls 8 0 program m' ∧
      m'.regs = Function.update program.regs .a0 42 ∧ m'.pc = 4100 := by
  constructor
  · obtain ⟨m', h⟩ := exists_userTrap sevenCalls 5 fun t ht => by
      rw [usertrap, if_neg (by decide)]
      exact prepareReturn_lt (set_lt ht _ (by decide))
    exact ⟨m', h, (user_trap h).1 (by decide)⟩
  · obtain ⟨m', h⟩ := exists_userTrap sevenCalls 8 fun t ht => by
      rw [usertrap_syscall _ _ rfl]
      refine prepareReturn_lt ?_
      have hcalled : ∀ i, (called t (program.csrs .sepc).toNat).word i < 256 ^ 8 :=
        set_lt (set_lt ht _ (by decide)) _ (by decide)
      rw [syscall]
      cases hcall : lookup sevenCalls
          ((called t (program.csrs .sepc).toNat).word (wordOf .a7)) with
      | none => exact set_lt hcalled _ (by decide)
      | some f =>
        rw [lookup_sevenCalls hcall]
        exact set_lt hcalled _ (show 42 < 256 ^ 8 by decide)
    obtain ⟨t, ht, hepc, -, hcall⟩ := (user_trap h).2 rfl
    have hregs : userRegs t = program.regs := by
      funext r
      rw [userRegs, ht, BitVec.ofNat_toNat, BitVec.setWidth_eq]
    obtain ⟨hm', hpc⟩ := hcall _ lookup_sevenCalls_seven
    refine ⟨m', h, ?_, ?_⟩
    · rw [hm', hregs]
      rfl
    · rw [hpc, userPc, hepc]
      rfl

end Xv6.Assembly
