import Mathlib.Data.Finset.Basic
import Mathlib.Data.List.FinRange
import Xv6.Exec.Defs
import Xv6.Kernel.Defs

/-!
# kfork

`kfork`, `allocproc`, `freeproc`, `proc_pagetable` and `proc_freepagetable`, with the tables that
they use: the process table, the free pages, the reference counts of open files and of inodes.
The locks are left out: the functions run one at a time here.

The functions of `vm.c` are parameters (`Vm`). What they are documented to do is said in terms of
the pages that belong to a page table (`Space`, `Vm.Documented`); it leaves open whether a failed
`mappages` or `uvmcopy` has freed the page-table pages that it has allocated, or has left them to
the page table.
-/

namespace Xv6.Fork

open Kernel (ProcState)
open Exec (PGSIZE TRAMPOLINE TRAPFRAME NOFILE PTE_R PTE_W PTE_X)

/-! ## Page tables -/

/-- What belongs to a page table: its own pages, the pages of user memory with their virtual
addresses, and the virtual addresses of mapped pages that are not its own. -/
structure Space where
  tables : List ℕ
  user : List (ℕ × ℕ)
  upper : Finset ℕ

/-- All pages that belong to it. -/
def Space.pages (sp : Space) : List ℕ := sp.tables ++ sp.user.map Prod.snd

/-- The page tables `τ`, and the free pages in the order of the free list. -/
structure Pages (τ : Type*) where
  vm : τ
  free : List ℕ

/-- The functions of `vm.c`. -/
structure Vm (τ : Type*) where
  /-- The page tables that exist. -/
  space : τ → ℕ → Option Space
  uvmcreate : Pages τ → ℕ × Pages τ
  mappages : Pages τ → (pagetable va size pa perm : ℕ) → ℤ × Pages τ
  uvmunmap : Pages τ → (pagetable va npages : ℕ) → (doFree : Bool) → Pages τ
  uvmfree : Pages τ → (pagetable sz : ℕ) → Pages τ
  uvmcopy : Pages τ → (old new sz : ℕ) → ℤ × Pages τ

section

variable {τ : Type*} (vm : Vm τ)

/-- `l` has gone from the free pages to a page table, which has become `sp`. -/
def Vm.Gives (m m' : Pages τ) (pagetable : ℕ) (l : List ℕ) (sp : Space) : Prop :=
  m.free.Perm (l ++ m'.free) ∧
    vm.space m'.vm = Function.update (vm.space m.vm) pagetable (some sp)

/-- What the functions of `vm.c` do. -/
structure Vm.Documented : Prop where
  /-- "create an empty user page table. returns 0 if out of memory." -/
  uvmcreate : ∀ m,
    (vm.uvmcreate m).1 = 0 ∧ m.free.Perm (vm.uvmcreate m).2.free ∧
      vm.space (vm.uvmcreate m).2.vm = vm.space m.vm ∨
    (vm.uvmcreate m).1 ≠ 0 ∧ vm.Gives m (vm.uvmcreate m).2 (vm.uvmcreate m).1
      [(vm.uvmcreate m).1] ⟨[(vm.uvmcreate m).1], [], ∅⟩
  /-- "Create PTEs for virtual addresses starting at va. Returns 0 on success, -1 if walk()
  couldn't allocate a needed page-table page." -/
  mappages : ∀ m pagetable va size pa perm sp, vm.space m.vm pagetable = some sp → va ∉ sp.upper →
    ∃ l, (vm.mappages m pagetable va size pa perm).1 = 0 ∧
        vm.Gives m (vm.mappages m pagetable va size pa perm).2 pagetable l
          { sp with tables := l ++ sp.tables, upper := insert va sp.upper } ∨
      (vm.mappages m pagetable va size pa perm).1 < 0 ∧
        vm.Gives m (vm.mappages m pagetable va size pa perm).2 pagetable l
          { sp with tables := l ++ sp.tables }
  /-- "Remove npages of mappings starting from va. Optionally free the physical memory." -/
  uvmunmap : ∀ m pagetable va sp, vm.space m.vm pagetable = some sp → va ∈ sp.upper →
    vm.Gives m (vm.uvmunmap m pagetable va 1 false) pagetable []
      { sp with upper := sp.upper.erase va }
  /-- "Free user memory pages, then free page-table pages." -/
  uvmfree : ∀ m pagetable sz sp, vm.space m.vm pagetable = some sp → sp.upper = ∅ →
    (∀ u ∈ sp.user, u.1 < sz) →
    (vm.uvmfree m pagetable sz).free.Perm (sp.pages ++ m.free) ∧
      vm.space (vm.uvmfree m pagetable sz).vm = Function.update (vm.space m.vm) pagetable none
  /-- "Given a parent process's page table, copy its memory into a child's page table. returns 0
  on success, -1 on failure. frees any allocated pages on failure." -/
  uvmcopy : ∀ m old new sz spo spn, vm.space m.vm old = some spo → vm.space m.vm new = some spn →
    old ≠ new → spn.user = [] →
    (∃ l user, (vm.uvmcopy m old new sz).1 = 0 ∧
      user.map Prod.fst = (spo.user.map Prod.fst).filter (· < sz) ∧
      vm.Gives m (vm.uvmcopy m old new sz).2 new (l ++ user.map Prod.snd)
        { spn with tables := l ++ spn.tables, user := user }) ∨
    ∃ l, (vm.uvmcopy m old new sz).1 < 0 ∧
      vm.Gives m (vm.uvmcopy m old new sz).2 new l { spn with tables := l ++ spn.tables }

/-- `proc_pagetable`: a page table with no user memory, but with the trampoline and the trapframe
page of a process. -/
def procPagetable (trampoline : ℕ) (m : Pages τ) (trapframe : ℕ) : ℕ × Pages τ :=
  match vm.uvmcreate m with
  | (pagetable, m) =>
    if pagetable = 0 then (0, m)
    else
      match vm.mappages m pagetable TRAMPOLINE PGSIZE trampoline (PTE_R + PTE_X) with
      | (r, m) =>
        if r < 0 then (0, vm.uvmfree m pagetable 0)
        else
          match vm.mappages m pagetable TRAPFRAME PGSIZE trapframe (PTE_R + PTE_W) with
          | (r, m) =>
            if r < 0 then (0, vm.uvmfree (vm.uvmunmap m pagetable TRAMPOLINE 1 false) pagetable 0)
            else (pagetable, m)

/-- `proc_freepagetable`. -/
def procFreepagetable (m : Pages τ) (pagetable sz : ℕ) : Pages τ :=
  let m := vm.uvmunmap m pagetable TRAMPOLINE 1 false
  let m := vm.uvmunmap m pagetable TRAPFRAME 1 false
  vm.uvmfree m pagetable sz

end

/-! ## The tables -/

/-- `struct context`: the return address, the stack pointer and the callee-saved registers. -/
structure Context where
  ra : ℕ
  sp : ℕ
  s : Fin 12 → ℕ

/-- `struct proc`; null pointers are 0, except for `parent`. -/
structure Proc (N : ℕ) where
  state : ProcState
  chan : ℕ
  killed : ℤ
  xstate : ℤ
  pid : ℤ
  parent : Option (Fin N)
  queueLevel : ℤ
  qTicks : ℤ
  waitTime : ℤ
  nRun : ℤ
  totalTicks : ℤ
  kstack : ℕ
  sz : ℕ
  pagetable : ℕ
  trapframe : ℕ
  context : Context
  ofile : Fin NOFILE → ℕ
  cwd : ℕ
  name : List UInt8

/-- The registers saved in a trapframe page. -/
abbrev Registers := Fin 36 → ℕ

/-- The kernel: the process table, the pages, the contents of the trapframe pages, the reference
counts of `ftable` and `itable` by address, and `nextpid`. -/
structure State (N : ℕ) (τ : Type*) where
  proc : Fin N → Proc N
  pages : Pages τ
  trapframes : ℕ → Registers
  fileRef : ℕ → ℕ
  inodeRef : ℕ → ℕ
  nextpid : ℤ

variable {N : ℕ} {τ : Type*}

/-- Write fields of a slot. -/
def State.modify (s : State N τ) (p : Fin N) (f : Proc N → Proc N) : State N τ :=
  { s with proc := Function.update s.proc p (f (s.proc p)) }

/-- `kalloc`: a page filled with 5, or 0. -/
def kalloc (s : State N τ) : ℕ × State N τ :=
  match s.pages.free with
  | [] => (0, s)
  | pa :: free =>
    (pa, { s with
      pages := { s.pages with free := free }
      trapframes := Function.update s.trapframes pa fun _ => 0x0505050505050505 })

/-- `kfree`: the page is filled with 1 and linked to the head of the free list. -/
def kfree (s : State N τ) (pa : ℕ) : State N τ :=
  { s with
    pages := { s.pages with free := pa :: s.pages.free }
    trapframes := Function.update s.trapframes pa fun i =>
      if i = 0 then s.pages.free.headD 0 else 0x0101010101010101 }

/-- `filedup`; `none` is the panic. -/
def filedup (s : State N τ) (f : ℕ) : Option (State N τ) :=
  if s.fileRef f < 1 then none
  else some { s with fileRef := Function.update s.fileRef f (s.fileRef f + 1) }

/-- `idup`. -/
def idup (s : State N τ) (ip : ℕ) : State N τ :=
  { s with inodeRef := Function.update s.inodeRef ip (s.inodeRef ip + 1) }

/-- `safestrcpy(dst, src, 16)` for buffers of 16 bytes. -/
def safestrcpy (dst src : List UInt8) : List UInt8 :=
  let copied := (src.take 15).takeWhile (· ≠ 0)
  copied ++ 0 :: dst.drop (copied.length + 1)

/-! ## Processes -/

/-- `freeproc`. -/
def freeproc (vm : Vm τ) (s : State N τ) (p : Fin N) : State N τ :=
  let s := if (s.proc p).trapframe ≠ 0 then kfree s (s.proc p).trapframe else s
  let s := s.modify p fun q => { q with trapframe := 0 }
  let s :=
    if (s.proc p).pagetable ≠ 0 then
      { s with pages := procFreepagetable vm s.pages (s.proc p).pagetable (s.proc p).sz }
    else s
  s.modify p fun q => { q with
    pagetable := 0
    sz := 0
    pid := 0
    parent := none
    name := q.name.set 0 0
    chan := 0
    killed := 0
    xstate := 0
    state := .unused }

/-- The loop of `allocproc` over the process table. -/
def findUnused (s : State N τ) : Option (Fin N) :=
  (List.finRange N).find? fun p => (s.proc p).state = .unused

/-- `allocproc`, with the addresses of `trampoline` and `forkret`. -/
def allocproc (vm : Vm τ) (trampoline forkret : ℕ) (s : State N τ) : Option (Fin N) × State N τ :=
  match findUnused s with
  | none => (none, s)
  | some p =>
    let pid := s.nextpid
    let s := State.modify { s with nextpid := pid + 1 } p fun q =>
      { q with pid := pid, state := .used }
    match kalloc s with
    | (trapframe, s) =>
      let s := s.modify p fun q => { q with trapframe := trapframe }
      if trapframe = 0 then (none, freeproc vm s p)
      else
        match procPagetable vm trampoline s.pages trapframe with
        | (pagetable, pages) =>
          let s := State.modify { s with pages := pages } p fun q =>
            { q with pagetable := pagetable }
          if pagetable = 0 then (none, freeproc vm s p)
          else
            (some p, s.modify p fun q => { q with
              context := ⟨forkret, q.kstack + PGSIZE, fun _ => 0⟩
              queueLevel := 0
              qTicks := 0
              waitTime := 0
              nRun := 0
              totalTicks := 0 })

/-- One round of the loop of `kfork` over the open files. -/
def dupFile (p np : Fin N) (s : State N τ) (i : Fin NOFILE) : Option (State N τ) :=
  let f := (s.proc p).ofile i
  if f ≠ 0 then
    (filedup s f).map fun s =>
      s.modify np fun q => { q with ofile := Function.update q.ofile i f }
  else some s

/-- `kfork` from the copy of the user memory on. -/
def startChild (p np : Fin N) (s : State N τ) : Option (ℤ × State N τ) :=
  let s := s.modify np fun q => { q with sz := (s.proc p).sz }
  let saved := Function.update (s.trapframes (s.proc p).trapframe) Exec.Trapframe.a0 0
  let trapframes := Function.update s.trapframes (s.proc np).trapframe saved
  let s := { s with trapframes := trapframes }
  ((List.finRange NOFILE).foldlM (dupFile p np) s).map fun s =>
    let s := (idup s (s.proc p).cwd).modify np fun q => { q with cwd := (s.proc p).cwd }
    let s := s.modify np fun q => { q with name := safestrcpy q.name (s.proc p).name }
    let pid := (s.proc np).pid
    let s := s.modify np fun q => { q with parent := some p }
    let s := s.modify np fun q => { q with state := .runnable }
    (pid, s)

/-- `kfork`, called by the process `p`; `none` is a panic. -/
def kfork (vm : Vm τ) (trampoline forkret : ℕ) (s : State N τ) (p : Fin N) :
    Option (ℤ × State N τ) :=
  match allocproc vm trampoline forkret s with
  | (none, s) => some (-1, s)
  | (some np, s) =>
    let copied := vm.uvmcopy s.pages (s.proc p).pagetable (s.proc np).pagetable (s.proc p).sz
    let s := { s with pages := copied.2 }
    if copied.1 < 0 then some (-1, freeproc vm s np) else startChild p np s

/-! ## Page tables under construction -/

section

variable (vm : Vm τ)

/-- The free pages are not null, and belong to no page table. -/
structure Pages.Ok (m : Pages τ) : Prop where
  zero : 0 ∉ m.free
  space : ∀ pa ∈ m.free, vm.space m.vm pa = none

/-- The page table at `pagetable` has been made of free pages, and all else is as it was. -/
structure Created (m m' : Pages τ) (pagetable : ℕ) (sp : Space) : Prop where
  mem : pagetable ∈ m.free
  free : m.free.Perm (sp.pages ++ m'.free)
  space : vm.space m'.vm = Function.update (vm.space m.vm) pagetable (some sp)

/-- The same pages are free, and the same page tables exist. -/
structure SamePages (m m' : Pages τ) : Prop where
  free : m'.free.Perm m.free
  space : vm.space m'.vm = vm.space m.vm

variable {vm} {m m' m'' : Pages τ} {pagetable : ℕ} {sp sp' : Space} {l : List ℕ}

theorem Created.space_self (h : Created vm m m' pagetable sp) :
    vm.space m'.vm pagetable = some sp := by
  rw [h.space, Function.update_self]

theorem Created.gives (h : Created vm m m' pagetable sp) (hg : vm.Gives m' m'' pagetable l sp')
    (hsp : sp'.pages.Perm (l ++ sp.pages)) : Created vm m m'' pagetable sp' where
  mem := h.mem
  free := calc
    m.free.Perm (sp.pages ++ m'.free) := h.free
    _ |>.Perm (sp.pages ++ (l ++ m''.free)) := hg.1.append_left _
    _ |>.Perm ((l ++ sp.pages) ++ m''.free) := by
      rw [← List.append_assoc]
      exact List.perm_append_comm.append_right _
    _ |>.Perm (sp'.pages ++ m''.free) := hsp.symm.append_right _
  space := by rw [hg.2, h.space, Function.update_idem]

/-- `uvmfree` undoes all of it. -/
theorem Created.uvmfree (h : Created vm m m' pagetable sp) (hvm : vm.Documented) (hm : m.Ok vm)
    {sz : ℕ} (hupper : sp.upper = ∅) (huser : ∀ u ∈ sp.user, u.1 < sz) :
    SamePages vm m (vm.uvmfree m' pagetable sz) := by
  obtain ⟨hfree, hspace⟩ := hvm.uvmfree m' pagetable sz sp h.space_self hupper huser
  refine ⟨hfree.trans h.free.symm, ?_⟩
  rw [hspace, h.space, Function.update_idem, ← hm.space pagetable h.mem, Function.update_eq_self]

/-- `proc_pagetable` either makes a page table or leaves all as it was. -/
theorem procPagetable_created (hvm : vm.Documented) (hm : m.Ok vm) {trampoline trapframe r : ℕ}
    (h : procPagetable vm trampoline m trapframe = (r, m')) :
    r = 0 ∧ SamePages vm m m' ∨
      r ≠ 0 ∧ ∃ tables, Created vm m m' r ⟨tables, [], {TRAPFRAME, TRAMPOLINE}⟩ := by
  have hne : TRAPFRAME ≠ TRAMPOLINE := by decide
  unfold procPagetable at h
  split at h
  next pagetable m₁ hc =>
  have hcreate := hvm.uvmcreate m
  rw [hc] at hcreate
  obtain ⟨h0, hfree, hspace⟩ | ⟨h0, hfree, hspace⟩ := hcreate
  · rw [if_pos h0] at h
    cases h
    exact .inl ⟨rfl, hfree.symm, hspace⟩
  have h₁ : Created vm m m₁ pagetable ⟨[pagetable], [], ∅⟩ :=
    ⟨hfree.symm.subset List.mem_cons_self, by simpa [Space.pages] using hfree, hspace⟩
  rw [if_neg h0] at h
  split at h
  next r₁ m₂ hc₁ =>
  have hmap := hvm.mappages m₁ pagetable TRAMPOLINE PGSIZE trampoline (PTE_R + PTE_X) _
    h₁.space_self (Finset.notMem_empty _)
  rw [hc₁] at hmap
  obtain ⟨l, ⟨hr, hg⟩ | ⟨hr, hg⟩⟩ := hmap
  · have h₂ := h₁.gives hg (by simp [Space.pages])
    have hmap' := hvm.mappages m₂ pagetable TRAPFRAME PGSIZE trapframe (PTE_R + PTE_W) _
      h₂.space_self (by simpa using hne)
    rw [if_neg (by simp_all)] at h
    split at h
    next r₂ m₃ hc₂ =>
    rw [hc₂] at hmap'
    obtain ⟨l', ⟨hr', hg'⟩ | ⟨hr', hg'⟩⟩ := hmap'
    · rw [if_neg (by simp_all)] at h
      cases h
      exact .inr ⟨h0, _, h₂.gives hg' (by simp [Space.pages])⟩
    · have h₃ : Created vm m m₃ pagetable ⟨l' ++ (l ++ [pagetable]), [], {TRAMPOLINE}⟩ :=
        h₂.gives hg' (by simp [Space.pages])
      have h₄ := h₃.gives
        (hvm.uvmunmap _ pagetable TRAMPOLINE _ h₃.space_self (Finset.mem_singleton_self _))
        (by simp [Space.pages])
      rw [if_pos hr'] at h
      cases h
      exact .inl ⟨rfl, h₄.uvmfree hvm hm (by simp) (by simp)⟩
  · rw [if_pos hr] at h
    cases h
    exact .inl ⟨rfl, (h₁.gives hg (by simp [Space.pages])).uvmfree hvm hm rfl (by simp)⟩

/-- `proc_freepagetable` undoes `proc_pagetable`. -/
theorem Created.procFreepagetable (h : Created vm m m' pagetable sp) (hvm : vm.Documented)
    (hm : m.Ok vm) {sz : ℕ} (hupper : sp.upper = {TRAPFRAME, TRAMPOLINE})
    (huser : ∀ u ∈ sp.user, u.1 < sz) :
    SamePages vm m (Fork.procFreepagetable vm m' pagetable sz) := by
  have hne : TRAPFRAME ≠ TRAMPOLINE := by decide
  have h₁ := h.gives
    (hvm.uvmunmap _ pagetable TRAMPOLINE _ h.space_self (by simp [hupper])) (by simp [Space.pages])
  have h₂ := h₁.gives
    (hvm.uvmunmap _ pagetable TRAPFRAME _ h₁.space_self (by simp [hupper, hne]))
    (by simp [Space.pages])
  refine h₂.uvmfree hvm hm ?_ huser
  ext va
  simp only [hupper, Finset.mem_erase, Finset.mem_insert, Finset.mem_singleton,
    Finset.notMem_empty, iff_false]
  tauto

end

/-- A slot that is not in use. -/
structure Proc.Cleared (q : Proc N) : Prop where
  state : q.state = .unused
  trapframe : q.trapframe = 0
  pagetable : q.pagetable = 0
  sz : q.sz = 0
  pid : q.pid = 0
  parent : q.parent = none
  ofile : q.ofile = fun _ => 0

section

variable (vm : Vm τ) (s : State N τ) (p q : Fin N)

theorem State.modify_others (f : Proc N → Proc N) (h : q ≠ p) :
    (s.modify p f).proc q = s.proc q :=
  Function.update_of_ne h _ _

@[simp]
theorem State.modify_pages (f : Proc N → Proc N) : (s.modify p f).pages = s.pages := rfl

@[simp]
theorem State.modify_trapframes (f : Proc N → Proc N) :
    (s.modify p f).trapframes = s.trapframes := rfl

@[simp]
theorem State.modify_fileRef (f : Proc N → Proc N) : (s.modify p f).fileRef = s.fileRef := rfl

@[simp]
theorem State.modify_inodeRef (f : Proc N → Proc N) : (s.modify p f).inodeRef = s.inodeRef := rfl

@[simp]
theorem State.modify_self (f : Proc N → Proc N) : (s.modify p f).proc p = f (s.proc p) :=
  Function.update_self _ _ _

/-- What `freeproc` leaves in a slot. -/
def Proc.clear (q : Proc N) : Proc N :=
  { q with
    trapframe := 0, pagetable := 0, sz := 0, pid := 0, parent := none, name := q.name.set 0 0,
    chan := 0, killed := 0, xstate := 0, state := .unused }

theorem freeproc_eq : freeproc vm s p =
    { proc := Function.update s.proc p (s.proc p).clear
      pages :=
        let s' := if (s.proc p).trapframe ≠ 0 then kfree s (s.proc p).trapframe else s
        if (s.proc p).pagetable ≠ 0 then
          procFreepagetable vm s'.pages (s.proc p).pagetable (s.proc p).sz
        else s'.pages
      trapframes :=
        (if (s.proc p).trapframe ≠ 0 then kfree s (s.proc p).trapframe else s).trapframes
      fileRef := s.fileRef
      inodeRef := s.inodeRef
      nextpid := s.nextpid } := by
  unfold freeproc
  by_cases ht : (s.proc p).trapframe ≠ 0 <;> by_cases hp : (s.proc p).pagetable ≠ 0 <;>
    simp only [ht, hp, State.modify, kfree, Proc.clear, ite_true, ite_false, not_false_eq_true,
      ne_eq, Function.update_self, Function.update_idem]

end

/-! ## Half-built slots -/

section

variable (vm : Vm τ)

/-- What a slot that is being built holds: nothing, a trapframe page, or also a page table. -/
inductive Holds (m m' : Pages τ) : (trapframe pagetable : ℕ) → Prop
  | nothing (h : SamePages vm m m') : Holds m m' 0 0
  | trapframe {trapframe : ℕ} (mem : trapframe ∈ m.free) (free : m.free.Perm (trapframe :: m'.free))
      (space : vm.space m'.vm = vm.space m.vm) : Holds m m' trapframe 0
  | pagetable {m₁ : Pages τ} {trapframe pagetable : ℕ} {tables : List ℕ} (mem : trapframe ∈ m.free)
      (free : m.free.Perm (trapframe :: m₁.free)) (space : vm.space m₁.vm = vm.space m.vm)
      (ne : pagetable ≠ 0)
      (created : Created vm m₁ m' pagetable ⟨tables, [], {TRAPFRAME, TRAMPOLINE}⟩) :
      Holds m m' trapframe pagetable

/-- Between `s` and `s'` only free pages, page tables made of them, and the slot `np` have
changed. -/
structure Apart (s s' : State N τ) (np : Fin N) : Prop where
  others : ∀ q ≠ np, s'.proc q = s.proc q
  trapframes : ∀ pa ∉ s.pages.free, s'.trapframes pa = s.trapframes pa
  fileRef : s'.fileRef = s.fileRef
  inodeRef : s'.inodeRef = s.inodeRef

theorem Apart.modify {s s' : State N τ} {np : Fin N} (h : Apart s s' np) (f : Proc N → Proc N) :
    Apart s (s'.modify np f) np where
  others q hq := (State.modify_others _ _ _ _ hq).trans (h.others q hq)
  trapframes := h.trapframes
  fileRef := h.fileRef
  inodeRef := h.inodeRef

/-- A slot that an allocation has failed for. -/
structure HalfBuilt (s s' : State N τ) (np : Fin N) : Prop extends Apart s s' np where
  ofile : (s'.proc np).ofile = fun _ => 0
  sz : (s'.proc np).sz = 0
  holds : Holds vm s.pages s'.pages (s'.proc np).trapframe (s'.proc np).pagetable

/-- The slot has been given up, and all is as it was before. -/
structure GivenUp (s s' : State N τ) (np : Fin N) : Prop extends Apart s s' np where
  pages : SamePages vm s.pages s'.pages
  cleared : (s'.proc np).Cleared

variable {vm} {s s' : State N τ} {np : Fin N}

/-- A page table stays one that has been made of free pages when a page is freed that was taken
before. -/
theorem Created.cons {m m₁ m' : Pages τ} {pagetable pa : ℕ} {sp : Space}
    (h : Created vm m₁ m' pagetable sp) (hfree : m.free.Perm (pa :: m₁.free))
    (hspace : vm.space m₁.vm = vm.space m.vm) :
    Created vm m { m' with free := pa :: m'.free } pagetable sp where
  mem := hfree.symm.subset (List.mem_cons_of_mem _ h.mem)
  free := hfree.trans ((h.free.cons pa).trans List.perm_middle.symm)
  space := by rw [h.space, hspace]

/-- **`freeproc` copes with every half-built slot.** -/
theorem HalfBuilt.freeproc (h : HalfBuilt vm s s' np) (hvm : vm.Documented) (hm : s.pages.Ok vm) :
    GivenUp vm s (freeproc vm s' np) np := by
  obtain ⟨⟨hothers, htrapframes, hfile, hinode⟩, hofile, hsz, hholds⟩ := h
  rw [freeproc_eq, hsz]
  refine ⟨⟨fun q hq => ?_, fun pa hpa => ?_, hfile, hinode⟩, ?_, ?_⟩
  · exact (Function.update_of_ne hq _ _).trans (hothers q hq)
  · rw [← htrapframes pa hpa]
    generalize (s'.proc np).trapframe = trapframe, (s'.proc np).pagetable = pagetable at hholds
    cases hholds with
    | nothing => rfl
    | trapframe mem | pagetable mem =>
      have hne : trapframe ≠ 0 := fun h0 => hm.zero (h0 ▸ mem)
      simp only [if_pos hne, kfree]
      exact Function.update_of_ne (fun hpa' : pa = trapframe => hpa (hpa'.symm ▸ mem)) _ _
  · generalize (s'.proc np).trapframe = trapframe, (s'.proc np).pagetable = pagetable at hholds
    cases hholds with
    | nothing h => exact h
    | trapframe mem free space =>
      have hne : trapframe ≠ 0 := fun h0 => hm.zero (h0 ▸ mem)
      simp only [if_pos hne, kfree]
      exact ⟨free.symm, space⟩
    | pagetable mem free space ne created =>
      have hne : trapframe ≠ 0 := fun h0 => hm.zero (h0 ▸ mem)
      simp only [if_pos hne, if_pos ne, kfree]
      exact (created.cons free space).procFreepagetable hvm hm rfl (by simp)
  · simp only [Function.update_self]
    exact ⟨rfl, rfl, rfl, rfl, rfl, rfl, hofile⟩

end

/-! ## allocproc -/

section

variable (vm : Vm τ) (trampoline : ℕ)

/-- What `allocproc` does. -/
inductive Allocated (s : State N τ) : Option (Fin N) → State N τ → Prop
  | slot (h : findUnused s = none) : Allocated s none s
  | trapframe {np : Fin N} {s' : State N τ} (h : findUnused s = some np) (hfree : s.pages.free = [])
      (up : GivenUp vm s s' np) : Allocated s none s'
  | pagetable {np : Fin N} {s' : State N τ} {pa : ℕ} {free : List ℕ} (h : findUnused s = some np)
      (hfree : s.pages.free = pa :: free)
      (hpagetable : (procPagetable vm trampoline ⟨s.pages.vm, free⟩ pa).1 = 0)
      (up : GivenUp vm s s' np) : Allocated s none s'
  | found {np : Fin N} {s' : State N τ} {pa : ℕ} {free : List ℕ} {tables : List ℕ}
      (h : findUnused s = some np) (hfree : s.pages.free = pa :: free)
      (hpagetable : procPagetable vm trampoline ⟨s.pages.vm, free⟩ pa =
        ((s'.proc np).pagetable, s'.pages))
      (ne : (s'.proc np).pagetable ≠ 0)
      (created : Created vm ⟨s.pages.vm, free⟩ s'.pages (s'.proc np).pagetable
        ⟨tables, [], {TRAPFRAME, TRAMPOLINE}⟩)
      (hpa : (s'.proc np).trapframe = pa) (hpid : (s'.proc np).pid = s.nextpid)
      (built : HalfBuilt vm s s' np) : Allocated s (some np) s'

variable {vm trampoline}

theorem Pages.Ok.tail {m : Pages τ} (hm : m.Ok vm) {pa : ℕ} {free : List ℕ}
    (h : m.free = pa :: free) : Pages.Ok vm ⟨m.vm, free⟩ where
  zero h0 := hm.zero (h ▸ List.mem_cons_of_mem _ h0)
  space pa' h' := hm.space pa' (h ▸ List.mem_cons_of_mem _ h')

theorem allocproc_allocated {forkret : ℕ} (hvm : vm.Documented) {s s' : State N τ}
    (hm : s.pages.Ok vm) (hclean : ∀ p, (s.proc p).state = .unused → (s.proc p).Cleared)
    {r : Option (Fin N)} (h : allocproc vm trampoline forkret s = (r, s')) :
    Allocated vm trampoline s r s' := by
  unfold allocproc at h
  split at h
  · next hnone =>
    cases h
    exact .slot hnone
  next np hnp =>
  have hcleared : (s.proc np).Cleared :=
    hclean np (by simpa using List.find?_some hnp)
  dsimp only at h
  generalize hs₁ : State.modify { s with nextpid := s.nextpid + 1 } np _ = s₁ at h
  have hapart : Apart s s₁ np := hs₁ ▸ (⟨fun _ _ => rfl, fun _ _ => rfl, rfl, rfl⟩ :
    Apart s { s with nextpid := s.nextpid + 1 } np).modify _
  have hpages : s₁.pages = s.pages := hs₁ ▸ rfl
  have hself : s₁.proc np = { s.proc np with pid := s.nextpid, state := .used } :=
    hs₁ ▸ State.modify_self _ _ _
  clear hs₁
  cases hfree : s.pages.free with
  | nil =>
    rw [kalloc, hpages, hfree] at h
    dsimp only at h
    rw [if_pos rfl] at h
    cases h
    refine .trapframe hnp hfree (HalfBuilt.freeproc ⟨hapart.modify _, ?_, ?_, ?_⟩ hvm hm)
    · simp [hself, hcleared.ofile]
    · simp [hself, hcleared.sz]
    · simp only [State.modify_self, hself, hcleared.pagetable, State.modify_pages, hpages]
      exact .nothing ⟨.rfl, rfl⟩
  | cons pa free =>
    have hpa : pa ∈ s.pages.free := hfree ▸ List.mem_cons_self
    have hne : pa ≠ 0 := fun h0 => hm.zero (h0 ▸ hpa)
    rw [kalloc, hpages, hfree] at h
    dsimp only at h
    rw [if_neg hne] at h
    generalize hs₂ : State.modify { s₁ with pages := _, trapframes := _ } np _ = s₂ at h
    have hapart₂ : Apart s s₂ np := by
      rw [← hs₂]
      apply Apart.modify
      refine ⟨hapart.others, fun pa' hpa' => ?_, hapart.fileRef, hapart.inodeRef⟩
      have hne' : pa' ≠ pa := fun heq => hpa' (heq ▸ hpa)
      exact (Function.update_of_ne hne' _ _).trans (hapart.trapframes pa' hpa')
    have hpages₂ : s₂.pages = ⟨s.pages.vm, free⟩ := hs₂ ▸ rfl
    have hself₂ : s₂.proc np = { s₁.proc np with trapframe := pa } :=
      hs₂ ▸ State.modify_self _ _ _
    clear hs₂
    rw [hpages₂] at h
    generalize hpagetable : procPagetable vm trampoline ⟨s.pages.vm, free⟩ pa = c at h
    obtain ⟨pagetable, pages⟩ := c
    dsimp only at h
    have hapart₃ : Apart s { s₂ with pages := pages } np :=
      ⟨hapart₂.others, hapart₂.trapframes, hapart₂.fileRef, hapart₂.inodeRef⟩
    obtain ⟨h0, hsame⟩ | ⟨h0, tables, hcreated⟩ :=
      procPagetable_created hvm (hm.tail hfree) hpagetable
    · rw [if_pos h0] at h
      cases h
      refine .pagetable hnp hfree (by rw [hpagetable, h0])
        (HalfBuilt.freeproc ⟨hapart₃.modify _, ?_, ?_, ?_⟩ hvm hm)
      · simp [hself₂, hself, hcleared.ofile]
      · simp [hself₂, hself, hcleared.sz]
      · simp only [State.modify_self, State.modify_pages, hself₂, h0]
        exact .trapframe hpa (hfree ▸ (hsame.free.symm.cons pa)) hsame.space
    · rw [if_neg h0] at h
      cases h
      refine .found hnp hfree (by simpa using hpagetable) (by simpa using h0)
        (by simpa using hcreated) (by simp [hself₂]) (by simp [hself₂, hself])
        ⟨(hapart₃.modify _).modify _, ?_, ?_, ?_⟩
      · simp [hself₂, hself, hcleared.ofile]
      · simp [hself₂, hself, hcleared.sz]
      · simp only [State.modify_self, State.modify_pages, hself₂]
        have hspace : vm.space (⟨s.pages.vm, free⟩ : Pages τ).vm = vm.space s.pages.vm := rfl
        refine .pagetable hpa ?_ hspace h0 hcreated
        rw [hfree]

end

/-! ## Open files -/

/-- The loop of `kfork` over the slots `l`: they have been copied, and the files that they refer
to have that many more references. -/
theorem dupFiles (p np : Fin N) (hne : np ≠ p) (l : List (Fin NOFILE)) (s : State N τ)
    (hopen : ∀ i, (s.proc p).ofile i ≠ 0 → 1 ≤ s.fileRef ((s.proc p).ofile i)) :
    ∃ fileRef ofile, l.foldlM (dupFile p np) s =
        some ((State.mk s.proc s.pages s.trapframes fileRef s.inodeRef s.nextpid).modify np
          fun q => { q with ofile := ofile }) ∧
      (∀ f, fileRef f = s.fileRef f + l.countP fun i => (s.proc p).ofile i = f ∧ f ≠ 0) ∧
      ∀ i, ofile i = if i ∈ l ∧ (s.proc p).ofile i ≠ 0 then (s.proc p).ofile i
        else (s.proc np).ofile i := by
  induction l generalizing s with
  | nil =>
    refine ⟨s.fileRef, (s.proc np).ofile, ?_, by simp, by simp⟩
    simp only [List.foldlM_nil, State.modify, Function.update_eq_self]
    rfl
  | cons i l ih =>
    rw [List.foldlM_cons]
    by_cases h0 : (s.proc p).ofile i = 0
    · obtain ⟨fileRef, ofile, hrun, hcount, hofile⟩ := ih s hopen
      refine ⟨fileRef, ofile, ?_, fun f => ?_, fun j => ?_⟩
      · rw [dupFile, if_neg (not_not.mpr h0)]
        exact hrun
      · have hi : ¬ ((s.proc p).ofile i = f ∧ f ≠ 0) := fun ⟨heq, hf⟩ => hf (heq ▸ h0)
        rw [hcount, List.countP_cons_of_neg (by simpa using hi)]
      · rw [hofile]
        congr 1
        simp only [List.mem_cons]
        grind
    · let ref := Function.update s.fileRef ((s.proc p).ofile i) (s.fileRef ((s.proc p).ofile i) + 1)
      let s₁ := State.modify { s with fileRef := ref } np fun q =>
        { q with ofile := Function.update q.ofile i ((s.proc p).ofile i) }
      have hstep : dupFile p np s i = some s₁ := by
        rw [dupFile, if_pos h0, filedup, if_neg (by have := hopen i h0; omega)]
        rfl
      have hp : s₁.proc p = s.proc p := State.modify_others _ _ _ _ hne.symm
      have hopen₁ : ∀ j, (s₁.proc p).ofile j ≠ 0 → 1 ≤ s₁.fileRef ((s₁.proc p).ofile j) := by
        intro j hj
        rw [hp] at hj ⊢
        have := hopen j hj
        simp only [s₁, ref, State.modify_fileRef, Function.update_apply]
        split <;> omega
      obtain ⟨fileRef, ofile, hrun, hcount, hofile⟩ := ih s₁ hopen₁
      refine ⟨fileRef, ofile, ?_, fun f => ?_, fun j => ?_⟩
      · rw [hstep, Option.bind_eq_bind, Option.bind_some, hrun]
        simp only [s₁, State.modify, Function.update_self, Function.update_idem]
      · rw [hcount, hp, List.countP_cons]
        simp only [s₁, ref, State.modify_fileRef, Function.update_apply]
        grind
      · rw [hofile, hp]
        simp only [s₁, State.modify_self, Function.update_apply, List.mem_cons]
        grind

end Xv6.Fork
