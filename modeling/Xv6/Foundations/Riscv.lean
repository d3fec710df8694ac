import Xv6.Foundations.Memory

/-!
# Straight-line assembly

The instructions of RISC-V that save and restore registers, over the registers of one CPU and a
byte memory behind an address translation. A `Slot` is a register and its offset in a frame;
`exec_saves` and `exec_restores` say what a sequence of stores to the slots of a frame, or of
loads from them, does.
-/

namespace Xv6.Riscv

/-- The contents of a register. -/
abbrev Word := BitVec 64

/-- The integer registers, without `zero`. -/
inductive Reg
  | ra | sp | gp | tp
  | t0 | t1 | t2 | t3 | t4 | t5 | t6
  | a0 | a1 | a2 | a3 | a4 | a5 | a6 | a7
  | s0 | s1 | s2 | s3 | s4 | s5 | s6 | s7 | s8 | s9 | s10 | s11
  deriving DecidableEq

/-- The control registers that the programs use. -/
inductive Csr
  | satp | sscratch | sepc
  deriving DecidableEq

/-- One CPU and the physical memory. -/
structure Machine where
  /-- Where the last jump went, or, with the instructions in memory, that of the next one. -/
  pc : Word
  regs : Reg → Word
  csrs : Csr → Word
  mem : Memory

/-- The instructions, with their operands in the order of the assembler. -/
inductive Instr
  | sd (rs : Reg) (off : ℕ) (base : Reg)
  | ld (rd : Reg) (off : ℕ) (base : Reg)
  | addi (rd rs : Reg) (imm : ℤ)
  | li (rd : Reg) (v : Word)
  | csrw (csr : Csr) (rs : Reg)
  | csrr (rd : Reg) (csr : Csr)
  | sfence
  | ret
  /-- The jumps that leave the address of the next instruction in `ra`. -/
  | jalr (rs : Reg) (next : Word)
  | call (target next : Word)
  | sret

namespace Machine

variable (m : Machine)

def setReg (r : Reg) (v : Word) : Machine := { m with regs := Function.update m.regs r v }

def setCsr (c : Csr) (v : Word) : Machine := { m with csrs := Function.update m.csrs c v }

variable {m} {r r' : Reg} {c : Csr} {v : Word}

@[simp] theorem setReg_regs_self : (m.setReg r v).regs r = v := Function.update_self ..

theorem setReg_regs_of_ne (h : r' ≠ r) : (m.setReg r v).regs r' = m.regs r' :=
  Function.update_of_ne h ..

@[simp] theorem setCsr_csrs_self : (m.setCsr c v).csrs c = v := Function.update_self ..

theorem setCsr_csrs_of_ne {c' : Csr} (h : c' ≠ c) : (m.setCsr c v).csrs c' = m.csrs c' :=
  Function.update_of_ne h ..

@[simp] theorem setCsr_regs : (m.setCsr c v).regs = m.regs := rfl

end Machine

section

-- the physical address of a virtual one, for each value of `satp`
variable (mmu : Word → Word → ℕ)

/-- The physical address of the doubleword at `off(base)`; an aligned doubleword is in one page. -/
def address (m : Machine) (off : ℕ) (base : Reg) : ℕ :=
  mmu (m.csrs .satp) (m.regs base + BitVec.ofNat 64 off)

/-- What an instruction does. -/
def step (m : Machine) : Instr → Machine
  | .sd rs off base => { m with mem := m.mem.store (address mmu m off base) (m.regs rs).toNat 8 }
  | .ld rd off base => m.setReg rd (BitVec.ofNat 64 (m.mem.load (address mmu m off base) 8))
  | .addi rd rs imm => m.setReg rd (m.regs rs + BitVec.ofInt 64 imm)
  | .li rd v => m.setReg rd v
  | .csrw csr rs => m.setCsr csr (m.regs rs)
  | .csrr rd csr => m.setReg rd (m.csrs csr)
  | .sfence => m
  | .ret => { m with pc := m.regs .ra }
  | .jalr rs next => { m.setReg .ra next with pc := m.regs rs }
  | .call target next => { m.setReg .ra next with pc := target }
  | .sret => { m with pc := m.csrs .sepc }

/-- Instructions one after the other. -/
def exec (m : Machine) (code : List Instr) : Machine := code.foldl (step mmu) m

/-- The instruction at each address, with the address of the one after it. -/
abbrev Code := Word → Option (Instr × Word)

/-- The machine executes the instruction at its `pc`, if there is one. -/
def next (code : Code) (m : Machine) : Option Machine :=
  (code m.pc).map fun i => step mmu { m with pc := i.2 } i.1

/-- It executes `n` instructions. -/
def runs (code : Code) : ℕ → Machine → Option Machine
  | 0, m => some m
  | n + 1, m => (next mmu code m).bind (runs code n)

variable {mmu}

@[simp] theorem exec_nil (m : Machine) : exec mmu m [] = m := rfl

@[simp] theorem exec_cons (m : Machine) (i : Instr) (code : List Instr) :
    exec mmu m (i :: code) = exec mmu (step mmu m i) code := rfl

theorem exec_append (m : Machine) (code code' : List Instr) :
    exec mmu m (code ++ code') = exec mmu (exec mmu m code) code' :=
  List.foldl_append ..

/-! ## Frames -/

/-- A register and its offset in a frame. -/
abbrev Slot := Reg × ℕ

/-- Save registers in the frame at `base`. -/
def saves (base : Reg) (slots : List Slot) : List Instr := slots.map fun s => .sd s.1 s.2 base

/-- Restore them. -/
def restores (base : Reg) (slots : List Slot) : List Instr := slots.map fun s => .ld s.1 s.2 base

/-- The slots are apart, and inside a frame of `size` bytes. -/
structure Fits (slots : List Slot) (size : ℕ) : Prop where
  apart : slots.Pairwise fun s s' => s.2 + 8 ≤ s'.2 ∨ s'.2 + 8 ≤ s.2
  inside : ∀ s ∈ slots, s.2 + 8 ≤ size

/-- Virtual addresses from `va` on are mapped to physical ones from `pa` on. -/
def Maps (mmu : Word → Word → ℕ) (satp va : Word) (pa size : ℕ) : Prop :=
  ∀ off, off + 8 ≤ size → mmu satp (va + BitVec.ofNat 64 off) = pa + off

/-- The frame at `pa` holds the registers `f`. -/
def Holds (mem : Memory) (pa : ℕ) (slots : List Slot) (f : Reg → Word) : Prop :=
  ∀ s ∈ slots, mem.load (pa + s.2) 8 = (f s.1).toNat

/-- A frame depends on the bytes of its slots. -/
theorem Holds.congr {mem mem' : Memory} {pa size : ℕ} {slots : List Slot} {f : Reg → Word}
    (h : Holds mem pa slots f) (hfits : Fits slots size)
    (hmem : ∀ x, pa ≤ x → x < pa + size → mem' x = mem x) : Holds mem' pa slots f := by
  intro s hs
  have hin := hfits.inside s hs
  rw [← h s hs]
  exact Memory.load_congr fun i hi => hmem _ (by omega) (by omega)

/-- A frame depends on the registers of its slots. -/
theorem Holds.congr_regs {mem : Memory} {pa : ℕ} {slots : List Slot} {f g : Reg → Word}
    (h : Holds mem pa slots f) (hfg : ∀ s ∈ slots, g s.1 = f s.1) : Holds mem pa slots g := by
  intro s hs
  rw [h s hs, hfg s hs]

/-- Fewer slots. -/
theorem Holds.subset {mem : Memory} {pa : ℕ} {slots slots' : List Slot} {f : Reg → Word}
    (h : Holds mem pa slots f) (hsub : slots' ⊆ slots) : Holds mem pa slots' f :=
  fun s hs => h s (hsub hs)

/-- The word at `a`. -/
def word (mem : Memory) (a : ℕ) : Word := BitVec.ofNat 64 (mem.load a 8)

theorem toNat_word (mem : Memory) (a : ℕ) : (word mem a).toNat = mem.load a 8 := by
  rw [word, BitVec.toNat_ofNat]
  exact Nat.mod_eq_of_lt (mem.load_lt a 8)

theorem toNat_lt (v : Word) : v.toNat < 256 ^ 8 := v.isLt

/-- **Saving**: the frame holds the registers, and nothing else has changed. -/
theorem exec_saves {m : Machine} {base : Reg} {slots : List Slot} {pa size : ℕ}
    (hmaps : Maps mmu (m.csrs .satp) (m.regs base) pa size) (hfits : Fits slots size) :
    ∃ mem, exec mmu m (saves base slots) = { m with mem := mem } ∧
      Holds mem pa slots m.regs ∧
      ∀ x, (∀ s ∈ slots, x < pa + s.2 ∨ pa + s.2 + 8 ≤ x) → mem x = m.mem x := by
  induction slots generalizing m with
  | nil => exact ⟨m.mem, rfl, List.forall_mem_nil _, fun _ _ => rfl⟩
  | cons s slots ih =>
    obtain ⟨hapart, htail⟩ := List.pairwise_cons.1 hfits.apart
    obtain ⟨hin, hins⟩ := List.forall_mem_cons.1 hfits.inside
    have haddress : address mmu m s.2 base = pa + s.2 := hmaps s.2 hin
    obtain ⟨mem, hexec, hholds, hrest⟩ :=
      ih (m := { m with mem := m.mem.store (pa + s.2) (m.regs s.1).toNat 8 }) hmaps ⟨htail, hins⟩
    refine ⟨mem, ?_, List.forall_mem_cons.2 ⟨?_, hholds⟩, fun x hx => ?_⟩
    · rw [saves, List.map_cons, exec_cons, step, haddress]
      exact hexec
    · -- the later stores are apart from the first
      rw [← Memory.load_store m.mem (pa + s.2) (toNat_lt (m.regs s.1))]
      refine Memory.load_congr fun i hi => hrest _ fun s' hs' => ?_
      have := hapart s' hs'
      omega
    · obtain ⟨hs, hslots⟩ := List.forall_mem_cons.1 hx
      rw [hrest x hslots]
      exact Memory.store_of_notMem _ _ hs

/-- **Restoring**: the registers are those that the frame holds, and nothing else has changed. -/
theorem exec_restores {m : Machine} {base : Reg} {slots : List Slot} {pa size : ℕ}
    {f : Reg → Word} (hmaps : Maps mmu (m.csrs .satp) (m.regs base) pa size)
    (hin : ∀ s ∈ slots, s.2 + 8 ≤ size) (hbase : base ∉ slots.map Prod.fst)
    (hholds : Holds m.mem pa slots f) :
    exec mmu m (restores base slots) =
      { m with regs := fun r => if r ∈ slots.map Prod.fst then f r else m.regs r } := by
  induction slots generalizing m with
  | nil => simp [restores]
  | cons s slots ih =>
    rw [List.map_cons, List.mem_cons, not_or] at hbase
    obtain ⟨hin, hins⟩ := List.forall_mem_cons.1 hin
    obtain ⟨hs, hholds⟩ := List.forall_mem_cons.1 hholds
    have hload : step mmu m (.ld s.1 s.2 base) = m.setReg s.1 (f s.1) := by
      have haddress : address mmu m s.2 base = pa + s.2 := hmaps s.2 hin
      rw [step, haddress, hs, BitVec.ofNat_toNat, BitVec.setWidth_eq]
    have hregs : (m.setReg s.1 (f s.1)).regs base = m.regs base :=
      Machine.setReg_regs_of_ne hbase.1
    rw [restores, List.map_cons, exec_cons, hload]
    refine (ih (m := m.setReg s.1 (f s.1)) ?_ hins hbase.2 hholds).trans ?_
    · rw [hregs]
      exact hmaps
    · rw [Machine.setReg, Machine.mk.injEq]
      refine ⟨rfl, ?_, rfl, rfl⟩
      funext r
      by_cases hr : r = s.1
      · subst hr
        simp
      · have hkeep : Function.update m.regs s.1 (f s.1) r = m.regs r := Function.update_of_ne hr ..
        simp only [List.map_cons, List.mem_cons, hr, false_or, hkeep]

end

end Xv6.Riscv
