import Mathlib.Data.Set.Basic
import Xv6.Foundations.Riscv

/-!
# kernelvec

An interrupt in the kernel: `kernelvec` makes room on the stack of the interrupted code, saves the
registers that a C function may change, calls `kerneltrap` and restores them, except for `tp`:
`kerneltrap` may have yielded, and the code may go on on another CPU.

The code that is interrupted is at addresses, and `sret` takes the machine back to the instruction
at which it was. For code that is interrupted any number of times this makes no difference
(`kernelvec_transparent`), if it does not use `tp` while interrupts are on.
-/

namespace Xv6.Assembly

open Riscv

/-- Where `kernelvec` saves registers, below the stack pointer. -/
def frameSlots : List Slot :=
  [(.ra, 0), (.gp, 16), (.tp, 24), (.t0, 32), (.t1, 40), (.t2, 48), (.a0, 72), (.a1, 80), (.a2, 88),
    (.a3, 96), (.a4, 104), (.a5, 112), (.a6, 120), (.a7, 128), (.t3, 216), (.t4, 224), (.t5, 232),
    (.t6, 240)]

/-- Those that it restores. -/
def restoredSlots : List Slot := frameSlots.filter fun s => s.1 ≠ .tp

/-- The size of the frame. -/
def frameSize : ℕ := 256

/-- `kernelvec` up to the call of `kerneltrap`, which returns to `next`. -/
def kernelvec (kerneltrap next : Word) : List Instr :=
  [.addi .sp .sp (-256),
    .sd .ra 0 .sp, .sd .gp 16 .sp, .sd .tp 24 .sp, .sd .t0 32 .sp, .sd .t1 40 .sp, .sd .t2 48 .sp,
    .sd .a0 72 .sp, .sd .a1 80 .sp, .sd .a2 88 .sp, .sd .a3 96 .sp, .sd .a4 104 .sp,
    .sd .a5 112 .sp, .sd .a6 120 .sp, .sd .a7 128 .sp,
    .sd .t3 216 .sp, .sd .t4 224 .sp, .sd .t5 232 .sp, .sd .t6 240 .sp,
    .call kerneltrap next]

/-- The rest of it. -/
def kernelret : List Instr :=
  [.ld .ra 0 .sp, .ld .gp 16 .sp, .ld .t0 32 .sp, .ld .t1 40 .sp, .ld .t2 48 .sp,
    .ld .a0 72 .sp, .ld .a1 80 .sp, .ld .a2 88 .sp, .ld .a3 96 .sp, .ld .a4 104 .sp,
    .ld .a5 112 .sp, .ld .a6 120 .sp, .ld .a7 128 .sp,
    .ld .t3 216 .sp, .ld .t4 224 .sp, .ld .t5 232 .sp, .ld .t6 240 .sp,
    .addi .sp .sp 256,
    .sret]

theorem kernelvec_eq (kerneltrap next : Word) : kernelvec kerneltrap next =
    .addi .sp .sp (-256) :: (saves .sp frameSlots ++ [.call kerneltrap next]) := rfl

theorem kernelret_eq :
    kernelret = restores .sp restoredSlots ++ [.addi .sp .sp 256, .sret] := rfl

theorem frameSlots_fits : Fits frameSlots frameSize := ⟨by decide, by decide⟩

/-- The registers that a C function keeps. -/
def CalleeSaved (r : Reg) : Prop :=
  r ∈ [Reg.sp, .s0, .s1, .s2, .s3, .s4, .s5, .s6, .s7, .s8, .s9, .s10, .s11]

instance : DecidablePred CalleeSaved := fun r => inferInstanceAs (Decidable (r ∈ _))

variable {mmu : Word → Word → ℕ}

/-- What the code that is interrupted expects of `kerneltrap`, besides the registers: that it
returns, leaves the memory `own` and the frame alone, and `sepc` as it was. -/
structure Keeps (mmu : Word → Word → ℕ) (own : Set ℕ) (kerneltrap : Machine → Machine → Prop) :
    Prop where
  ret : ∀ m k, kerneltrap m k → k.pc = m.regs .ra
  regs : ∀ m k, kerneltrap m k → ∀ r, CalleeSaved r → k.regs r = m.regs r
  satp : ∀ m k, kerneltrap m k → k.csrs .satp = m.csrs .satp
  sepc : ∀ m k, kerneltrap m k → k.csrs .sepc = m.csrs .sepc
  own : ∀ m k, kerneltrap m k → ∀ x ∈ own, k.mem x = m.mem x
  frame : ∀ m k, kerneltrap m k → ∀ pa, Maps mmu (m.csrs .satp) (m.regs .sp) pa frameSize →
    ∀ x, pa ≤ x → x < pa + frameSize → k.mem x = m.mem x

/-- The trap at `m`: its `pc` goes to `sepc`, `kernelvec` calls `kerneltrap`, and the rest of it is
executed if that comes back behind the call. -/
def Trap (mmu : Word → Word → ℕ) (kerneltrap : Machine → Machine → Prop) (m m' : Machine) : Prop :=
  ∃ entry next k, kerneltrap (exec mmu (m.setCsr .sepc m.pc) (kernelvec entry next)) k ∧
    m' = if k.pc = next then exec mmu k kernelret else k

/-- There is room for the frame below the stack pointer, and none of it is in `own`. -/
def Room (mmu : Word → Word → ℕ) (own : Set ℕ) (m : Machine) : Prop :=
  ∃ pa, Maps mmu (m.csrs .satp) (m.regs .sp - 256) pa frameSize ∧
    ∀ x ∈ own, x < pa ∨ pa + frameSize ≤ x

/-- The same state, but for `tp` and memory that does not matter. -/
structure Same (own : Set ℕ) (m m' : Machine) : Prop where
  pc : m'.pc = m.pc
  regs : ∀ r, r ≠ .tp → m'.regs r = m.regs r
  satp : m'.csrs .satp = m.csrs .satp
  mem : ∀ x ∈ own, m'.mem x = m.mem x

/-- The stack pointer in the frame. -/
theorem sub_frameSize (v : Word) : v + BitVec.ofInt 64 (-256) = v - 256 := by
  have hneg : BitVec.ofInt 64 (-256) = -(256 : Word) := by decide
  rw [hneg, BitVec.sub_eq_add_neg]

theorem exec_kernelvec {m : Machine} {pa : ℕ}
    (hmaps : Maps mmu (m.csrs .satp) (m.regs .sp - 256) pa frameSize) (kerneltrap next : Word) :
    ∃ mem, exec mmu m (kernelvec kerneltrap next) =
        ⟨kerneltrap, Function.update (Function.update m.regs .sp (m.regs .sp - 256)) .ra next,
          m.csrs, mem⟩ ∧
      Holds mem pa frameSlots m.regs ∧
      ∀ x, x < pa ∨ pa + frameSize ≤ x → mem x = m.mem x := by
  have hmaps' : Maps mmu ((m.setReg .sp (m.regs .sp - 256)).csrs .satp)
      ((m.setReg .sp (m.regs .sp - 256)).regs .sp) pa frameSize := by
    rw [Machine.setReg_regs_self]
    exact hmaps
  obtain ⟨mem, hsave, hholds, hrest⟩ := exec_saves hmaps' frameSlots_fits
  refine ⟨mem, ?_, hholds.congr_regs fun s hs => ?_, fun x hx => hrest x fun s hs => ?_⟩
  · rw [kernelvec_eq, exec_cons, step, sub_frameSize, exec_append, hsave]
    rfl
  · have hsp : s.1 ≠ .sp := by
      revert s
      decide
    exact (Machine.setReg_regs_of_ne hsp).symm
  · have := frameSlots_fits.inside s hs
    omega

theorem exec_kernelret {m : Machine} {pa : ℕ} {f : Reg → Word}
    (hmaps : Maps mmu (m.csrs .satp) (m.regs .sp) pa frameSize)
    (hholds : Holds m.mem pa restoredSlots f) :
    exec mmu m kernelret = ⟨m.csrs .sepc,
      Function.update (fun r => if r ∈ restoredSlots.map Prod.fst then f r else m.regs r) .sp
        (m.regs .sp + 256), m.csrs, m.mem⟩ := by
  have hin : ∀ s ∈ restoredSlots, s.2 + 8 ≤ frameSize := by decide
  rw [kernelret_eq, exec_append, exec_restores hmaps hin (by decide) hholds]
  rfl

/-- Every register but `tp` is restored by `kernelvec`, or kept by `kerneltrap`. -/
theorem restored_or_calleeSaved : ∀ r, r ≠ .tp → r ≠ .sp →
    r ∈ restoredSlots.map Prod.fst ∨ r ∉ restoredSlots.map Prod.fst ∧ r ≠ .ra ∧ CalleeSaved r := by
  intro r
  cases r <;> decide

/-- A trap makes no difference, and returns to the instruction that was the next. -/
theorem Trap.same {own : Set ℕ} {kerneltrap : Machine → Machine → Prop} {m m' : Machine}
    (hkeeps : Keeps mmu own kerneltrap) (hroom : Room mmu own m) (ht : Trap mmu kerneltrap m m') :
    Same own m m' := by
  obtain ⟨entry, next, k, hk, rfl⟩ := ht
  obtain ⟨pa, hmaps, hapart⟩ := hroom
  set m₀ := m.setCsr .sepc m.pc with hm₀
  have hsatp₀ : m₀.csrs .satp = m.csrs .satp := Machine.setCsr_csrs_of_ne (by decide)
  rw [← hsatp₀] at hmaps
  obtain ⟨mem, hentry, hholds, hrest⟩ := exec_kernelvec (m := m₀) hmaps entry next
  rw [hentry] at hk
  have hsp : k.regs .sp = m.regs .sp - 256 := hkeeps.regs _ _ hk .sp (by decide)
  have hsatp : k.csrs .satp = m₀.csrs .satp := (hkeeps.satp _ _ hk :)
  have hsepc : k.csrs .sepc = m.pc := by
    rw [hkeeps.sepc _ _ hk, hm₀]
    dsimp only
    rw [Machine.setCsr_csrs_self]
  have hkmaps : Maps mmu (k.csrs .satp) (k.regs .sp) pa frameSize := by
    rw [hsp, hsatp]
    exact hmaps
  have hkholds : Holds k.mem pa restoredSlots m.regs :=
    (hholds.congr frameSlots_fits (hkeeps.frame _ _ hk pa hmaps)).subset (List.filter_subset_self ..)
  have hback : k.pc = next := by
    rw [hkeeps.ret _ _ hk]
    dsimp only
    rw [Function.update_self]
  rw [if_pos hback, exec_kernelret hkmaps hkholds]
  refine ⟨hsepc, fun r hr => ?_, hsatp.trans hsatp₀, fun x hx => ?_⟩
  · by_cases hrsp : r = .sp
    · subst hrsp
      dsimp only
      rw [Function.update_self, hsp, BitVec.sub_add_cancel]
    · dsimp only
      rw [Function.update_of_ne hrsp]
      rcases restored_or_calleeSaved r hr hrsp with hin | ⟨hout, hra, hsaved⟩
      · rw [if_pos hin]
      · rw [if_neg hout, hkeeps.regs _ _ hk r hsaved]
        dsimp only
        rw [Function.update_of_ne hra, Function.update_of_ne hrsp]
        rfl
  · exact (hkeeps.own _ _ hk x hx).trans (hrest x (hapart x hx))

/-! ## Interrupted code -/

/-- The instruction is one that any code of the kernel may use with interrupts on: it does not read
`tp` or a control register, and loads from `own`. -/
def Plain (mmu : Word → Word → ℕ) (own : Set ℕ) (m : Machine) : Instr → Prop
  | .sd rs _ base => rs ≠ .tp ∧ base ≠ .tp
  | .ld _ off base => base ≠ .tp ∧ ∀ i < 8, address mmu m off base + i ∈ own
  | .addi _ rs _ => rs ≠ .tp
  | .li _ _ | .sfence | .ret | .call _ _ => True
  | .jalr rs _ => rs ≠ .tp
  | .csrw _ _ | .csrr _ _ | .sret => False

/-- The next `n` instructions are plain when they are executed without interrupts. -/
def AllPlain (mmu : Word → Word → ℕ) (own : Set ℕ) (code : Code) : ℕ → Machine → Prop
  | 0, _ => True
  | n + 1, m => ∀ i, code m.pc = some i → Plain mmu own m i.1 ∧
      AllPlain mmu own code n (step mmu { m with pc := i.2 } i.1)

/-- `n` instructions of `code`, with traps between them wherever there is room for the frame. -/
inductive Interrupted (mmu : Word → Word → ℕ) (own : Set ℕ)
    (kerneltrap : Machine → Machine → Prop) (code : Code) : ℕ → Machine → Machine → Prop
  | done (m : Machine) : Interrupted mmu own kerneltrap code 0 m m
  | instr {n : ℕ} {m m₁ m' : Machine} (fetch : next mmu code m = some m₁)
      (rest : Interrupted mmu own kerneltrap code n m₁ m') :
      Interrupted mmu own kerneltrap code (n + 1) m m'
  | trap {n : ℕ} {m m₁ m' : Machine} (room : Room mmu own m) (t : Trap mmu kerneltrap m m₁)
      (rest : Interrupted mmu own kerneltrap code n m₁ m') :
      Interrupted mmu own kerneltrap code n m m'

theorem Same.refl (own : Set ℕ) (m : Machine) : Same own m m :=
  ⟨rfl, fun _ _ => rfl, rfl, fun _ _ => rfl⟩

theorem Same.trans {own : Set ℕ} {m m' m'' : Machine} (h : Same own m m')
    (h' : Same own m' m'') : Same own m m'' where
  pc := h'.pc.trans h.pc
  regs r hr := (h'.regs r hr).trans (h.regs r hr)
  satp := h'.satp.trans h.satp
  mem x hx := (h'.mem x hx).trans (h.mem x hx)

theorem Same.setReg {own : Set ℕ} {m n : Machine} (h : Same own m n) (r : Reg) {v v' : Word}
    (hv : v' = v) : Same own (m.setReg r v) (n.setReg r v') := by
  subst hv
  refine ⟨h.pc, fun r' hr' => ?_, h.satp, h.mem⟩
  by_cases hrr : r' = r
  · subst hrr
    rw [Machine.setReg_regs_self, Machine.setReg_regs_self]
  · rw [Machine.setReg_regs_of_ne hrr, Machine.setReg_regs_of_ne hrr]
    exact h.regs r' hr'

theorem Same.address {own : Set ℕ} {m n : Machine} (h : Same own m n) (off : ℕ) {base : Reg}
    (hbase : base ≠ .tp) : address mmu n off base = address mmu m off base := by
  rw [Riscv.address, Riscv.address, h.satp, h.regs base hbase]

/-- A plain instruction does the same in both. -/
theorem Same.step {own : Set ℕ} {m n : Machine} {i : Instr} (h : Same own m n)
    (hi : Plain mmu own m i) : Same own (step mmu m i) (step mmu n i) := by
  cases i with
  | sd rs off base =>
    refine ⟨h.pc, h.regs, h.satp, fun x hx => ?_⟩
    rw [Riscv.step, Riscv.step, h.address off hi.2, h.regs rs hi.1]
    exact Memory.store_congr _ _ _ (h.mem x hx)
  | ld rd off base =>
    refine h.setReg rd ?_
    rw [h.address off hi.1, Memory.load_congr fun j hj => h.mem _ (hi.2 j hj)]
  | addi rd rs imm => exact h.setReg rd (by rw [h.regs rs hi])
  | li rd v => exact h.setReg rd rfl
  | csrw csr rs => exact hi.elim
  | csrr rd csr => exact hi.elim
  | sfence => exact h
  | ret => exact ⟨h.regs .ra (by decide), h.regs, h.satp, h.mem⟩
  | jalr rs next => exact ⟨h.regs rs hi, (h.setReg .ra rfl).regs, h.satp, h.mem⟩
  | call target next => exact ⟨rfl, (h.setReg .ra rfl).regs, h.satp, h.mem⟩
  | sret => exact hi.elim

/-- The same instruction comes next, and does the same. -/
theorem Same.next {own : Set ℕ} {code : Code} {k : ℕ} {m n n₁ : Machine} (h : Same own m n)
    (hplain : AllPlain mmu own code (k + 1) m) (hn : next mmu code n = some n₁) :
    ∃ m₁, next mmu code m = some m₁ ∧ Same own m₁ n₁ ∧ AllPlain mmu own code k m₁ := by
  obtain ⟨i, hi, rfl⟩ := Option.map_eq_some_iff.1 hn
  rw [h.pc] at hi
  obtain ⟨hinstr, hrest⟩ := hplain i hi
  have hsame : Same own { m with pc := i.2 } { n with pc := i.2 } := ⟨rfl, h.regs, h.satp, h.mem⟩
  refine ⟨Riscv.step mmu { m with pc := i.2 } i.1, ?_, hsame.step ?_, hrest⟩
  · rw [Riscv.next, hi]
    rfl
  · -- what is plain does not depend on `pc`
    cases hinstr' : i.1 <;> rw [hinstr'] at hinstr <;> exact hinstr

/-- Interrupts are transparent: code that is interrupted anywhere, and any number of times, ends at
the same instruction, with the registers, except for `tp`, and with the memory of its own that it
would have ended with uninterrupted. -/
theorem kernelvec_transparent {own : Set ℕ} {kerneltrap : Machine → Machine → Prop}
    (hkeeps : Keeps mmu own kerneltrap) {code : Code} {n : ℕ} {m m' : Machine}
    (hplain : AllPlain mmu own code n m) (h : Interrupted mmu own kerneltrap code n m m') :
    ∃ m₀, runs mmu code n m = some m₀ ∧ Same own m₀ m' := by
  -- the same from any machine that is the same as `m`
  have key : ∀ m₁, Same own m₁ m → AllPlain mmu own code n m₁ →
      ∃ m₀, runs mmu code n m₁ = some m₀ ∧ Same own m₀ m' := by
    clear hplain
    induction h with
    | done m => exact fun m₁ hm₁ _ => ⟨m₁, rfl, hm₁⟩
    | instr fetch rest ih =>
      intro m₁ hm₁ hplain
      obtain ⟨m₂, hnext, hm₂, hrest⟩ := hm₁.next hplain fetch
      rw [runs, hnext, Option.bind_some]
      exact ih m₂ hm₂ hrest
    | trap room t rest ih => exact fun m₁ hm₁ hplain => ih m₁ (hm₁.trans (t.same hkeeps room)) hplain
  exact key m (.refl own m) hplain

/-- A `kerneltrap` that comes back on another CPU. -/
def migrate (m k : Machine) : Prop :=
  k = { (m.setReg .tp (m.regs .tp + 1)).setReg .t0 0 with pc := m.regs .ra }

/-- Every address is mapped directly. -/
def direct (_ va : Word) : ℕ := va.toNat

theorem migrate_keeps (own : Set ℕ) : Keeps direct own migrate where
  ret m k hk := hk ▸ rfl
  regs m k hk r hr := by
    subst hk
    dsimp only
    have ht0 : r ≠ .t0 := by
      rintro rfl
      revert hr
      decide
    have htp : r ≠ .tp := by
      rintro rfl
      revert hr
      decide
    rw [Machine.setReg_regs_of_ne ht0, Machine.setReg_regs_of_ne htp]
  satp m k hk := hk ▸ rfl
  sepc m k hk := hk ▸ rfl
  own m k hk x _ := hk ▸ rfl
  frame m k hk pa _ x _ _ := hk ▸ rfl

/-- A machine with a stack at 8192. -/
def stacked : Machine := ⟨0, fun _ => 8192, fun _ => 0, fun _ => 0⟩

/-- Three instructions, the second of which jumps over the address 8. -/
def jumping : Code := fun pc =>
  if pc = 0 then some (.li .t0 5, 4)
  else if pc = 4 then some (.call 12 8, 8)
  else if pc = 12 then some (.sd .t0 0 .s0, 16)
  else none

theorem stacked_room (m : Machine) (hsp : m.regs .sp = 8192) :
    Room direct {x | x < 4096} m := by
  refine ⟨7936, fun off hoff => ?_, fun x hx => .inl (lt_trans hx (by decide))⟩
  rw [frameSize] at hoff
  have hframe : m.regs .sp - 256 = 7936 := by
    rw [hsp]
    decide
  rw [hframe, direct, BitVec.toNat_add, BitVec.toNat_ofNat]
  simp only [BitVec.ofNat_eq_ofNat, BitVec.toNat_ofNat]
  omega

theorem jumping_plain : AllPlain direct {x | x < 4096} jumping 3 stacked := by
  intro i hi
  obtain rfl := Option.some.inj hi
  refine ⟨trivial, fun i hi => ?_⟩
  obtain rfl := Option.some.inj hi
  refine ⟨trivial, fun i hi => ?_⟩
  obtain rfl := Option.some.inj hi
  exact ⟨⟨by decide, by decide⟩, trivial⟩

/-- Code that is interrupted after its first instruction, before the jump. -/
theorem kernelvec_transparent_migrate : ∃ m' m₀,
    Interrupted direct {x | x < 4096} migrate jumping 3 stacked m' ∧
    runs direct jumping 3 stacked = some m₀ ∧ Same {x | x < 4096} m₀ m' ∧ m₀.pc = 16 := by
  have htrap : ∀ m, ∃ m₁, Trap direct migrate m m₁ := fun m => ⟨_, 0, 0, _, rfl, rfl⟩
  obtain ⟨m₁, ht⟩ := htrap (step direct { stacked with pc := 4 } (.li .t0 5))
  have hroom : Room direct {x | x < 4096} (step direct { stacked with pc := 4 } (.li .t0 5)) :=
    stacked_room _ rfl
  have hpc : m₁.pc = 4 := (ht.same (migrate_keeps _) hroom).pc
  have hcall : next direct jumping m₁ = some (step direct { m₁ with pc := 8 } (.call 12 8)) := by
    rw [next, hpc]
    rfl
  have hrun : Interrupted direct {x | x < 4096} migrate jumping 3 stacked _ :=
    .instr rfl (.trap hroom ht (.instr hcall (.instr rfl (.done _))))
  obtain ⟨m₀, hruns, hsame⟩ := kernelvec_transparent (migrate_keeps _) jumping_plain hrun
  refine ⟨_, m₀, hrun, hruns, hsame, ?_⟩
  have hend : (runs direct jumping 3 stacked).map Machine.pc = some 16 := rfl
  rw [hruns] at hend
  exact Option.some.inj hend

end Xv6.Assembly
