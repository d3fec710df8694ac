import Mathlib.Data.Fin.Basic
import Mathlib.Data.List.Basic
import Xv6.Foundations.Program

/-!
# kexec

`kexec`, `loadseg` and `sys_exec`, with the page table functions of `proc.c` that `kexec` uses, as
programs over the calls they make: into the log and the inode layer (`begin_op`, `namei`, `ilock`,
`readi`, `iunlockput`, `end_op`), into `vm.c`, and to their own process.

Addresses and sizes are natural numbers below `2 ^ 64`; where the source computes in `uint64` or
`uint`, the result is reduced with `u64` or `u32`.
-/

namespace Xv6.Exec

/-! ## Layout -/

/-- Bytes per page. -/
def PGSIZE : ℕ := 4096

/-- One beyond the highest virtual address. -/
def MAXVA : ℕ := 2 ^ 38

/-- The trampoline page, the highest page of an address space. -/
def TRAMPOLINE : ℕ := MAXVA - PGSIZE

/-- The trapframe page, just below the trampoline. -/
def TRAPFRAME : ℕ := TRAMPOLINE - PGSIZE

/-- The most arguments of `exec`, the terminating null pointer included. -/
def MAXARG : ℕ := 32

/-- The size of a path buffer. -/
def MAXPATH : ℕ := 128

/-- User stack pages. -/
def USERSTACK : ℕ := 1

/-- Open files per process. -/
def NOFILE : ℕ := 16

/-- Block size. -/
def BSIZE : ℕ := 1024

/-- The most blocks of a file: 12 direct ones and those of one indirect block. -/
def MAXFILE : ℕ := 12 + BSIZE / 4

/-- The readable bit of a page table entry. -/
def PTE_R : ℕ := 2

/-- The writable bit. -/
def PTE_W : ℕ := 4

/-- The executable bit. -/
def PTE_X : ℕ := 8

/-- `uint` arithmetic. -/
def u32 (n : ℕ) : ℕ := n % 2 ^ 32

/-- `uint64` arithmetic. -/
def u64 (n : ℕ) : ℕ := n % 2 ^ 64

/-- `a - b` in `uint64`. -/
def sub64 (a b : ℕ) : ℕ := u64 (a + (2 ^ 64 - u64 b))

/-- Round up to a page boundary. -/
def PGROUNDUP (sz : ℕ) : ℕ := u64 (sz + PGSIZE - 1) / PGSIZE * PGSIZE

/-! ## Executable files -/

/-- The little-endian number in `k` bytes at offset `off`. -/
def le (bytes : List UInt8) (off k : ℕ) : ℕ :=
  ((bytes.drop off).take k).foldr (fun b n => b.toNat + 256 * n) 0

/-- The bytes of a `uint64` in memory. -/
def bytes64 (n : ℕ) : List UInt8 := (List.range 8).map fun i => UInt8.ofNat (n / 256 ^ i)

/-- `"\x7FELF"` in little endian. -/
def ELF_MAGIC : ℕ := 0x464C457F

/-- The type of a program header that asks for a segment. -/
def ELF_PROG_LOAD : ℕ := 1

/-- The fields of `struct elfhdr` that `kexec` reads. -/
structure Elfhdr where
  magic : ℕ
  entry : ℕ
  phoff : ℕ
  phnum : ℕ
  deriving DecidableEq

/-- `sizeof(struct elfhdr)`. -/
def Elfhdr.size : ℕ := 64

def Elfhdr.ofBytes (b : List UInt8) : Elfhdr where
  magic := le b 0 4
  entry := le b 24 8
  phoff := le b 32 8
  phnum := le b 56 2

/-- The fields of `struct proghdr` that `kexec` reads. -/
structure Proghdr where
  type : ℕ
  flags : ℕ
  off : ℕ
  vaddr : ℕ
  filesz : ℕ
  memsz : ℕ
  deriving DecidableEq

/-- `sizeof(struct proghdr)`. -/
def Proghdr.size : ℕ := 56

def Proghdr.ofBytes (b : List UInt8) : Proghdr where
  type := le b 0 4
  flags := le b 4 4
  off := le b 8 8
  vaddr := le b 16 8
  filesz := le b 32 8
  memsz := le b 40 8

/-- Map ELF permissions to PTE permission bits. -/
def flags2perm (flags : ℕ) : ℕ :=
  (if flags % 2 = 1 then PTE_X else 0) + if flags / 2 % 2 = 1 then PTE_W else 0

/-! ## The process -/

/-- A string of C in a buffer of `max` bytes: the bytes before its terminating NUL. -/
structure CStr (max : ℕ) where
  bytes : List UInt8
  fits : bytes.length < max
  noNul : 0 ∉ bytes

/-- The argument strings, each in a page of its own. The array of `MAXARG` pointers that holds
them ends in a null pointer. -/
structure Argv where
  args : List (CStr PGSIZE)
  fits : args.length < MAXARG

/-- A trapframe page: its address and the words of `struct trapframe` in their order. -/
structure Trapframe where
  addr : ℕ
  word : Fin 36 → ℕ

instance neZeroTrapframe : NeZero 36 := ⟨by decide⟩

/-- The saved user program counter. -/
def Trapframe.epc : Fin 36 := 3

/-- The saved user stack pointer. -/
def Trapframe.sp : Fin 36 := 6

/-- The saved first argument register. -/
def Trapframe.a0 : Fin 36 := 14

/-- The saved second argument register. -/
def Trapframe.a1 : Fin 36 := 15

/-- Write one word. -/
def Trapframe.set (t : Trapframe) (i : Fin 36) (v : ℕ) : Trapframe :=
  { t with word := Function.update t.word i v }

/-- The fields of `struct proc` that `kexec`, `growproc` and `kfork` use for the user image, and
the open files. -/
structure Proc where
  pagetable : ℕ
  sz : ℕ
  trapframe : Trapframe
  name : List UInt8
  ofile : Fin NOFILE → ℕ

/-! ## Calls -/

/-- The calls of `kexec` and `sys_exec`. A pointer is its address, and 0 is the null pointer. -/
inductive ExecCall
  | beginOp
  | endOp
  /-- `namei(path)`: the inode, with a reference, or 0. -/
  | namei (path : List UInt8)
  | ilock (ip : ℕ)
  | iunlockput (ip : ℕ)
  /-- `readi` into a variable of the kernel: the bytes read. -/
  | readi (ip off n : ℕ)
  /-- `readi` into the page at `pa`: the number of bytes read. -/
  | readiTo (ip pa off n : ℕ)
  | uvmcreate
  | mappages (pagetable va size pa perm : ℕ)
  | uvmunmap (pagetable va npages : ℕ) (doFree : Bool)
  | uvmalloc (pagetable oldsz newsz xperm : ℕ)
  | uvmfree (pagetable sz : ℕ)
  | walkaddr (pagetable va : ℕ)
  | uvmclear (pagetable va : ℕ)
  | copyout (pagetable dstva : ℕ) (src : List UInt8)
  | copyin (pagetable srcva len : ℕ)
  | copyinstr (pagetable srcva max : ℕ)
  | kalloc
  | kfree (pa : ℕ)
  /-- Read the fields of the calling process. -/
  | myproc
  /-- Write them. -/
  | setProc (p : Proc)
  | panic (msg : String)
  /-- A loop whose counter has wrapped around to its first value. -/
  | restart

/-- The type of each call's result. -/
def ExecCall.Result : ExecCall → Type
  | namei _ | uvmcreate | uvmalloc .. | walkaddr .. | kalloc | readiTo .. => ℕ
  | readi .. => List UInt8
  | mappages .. | copyout .. => ℤ
  | copyin .. => Option (List UInt8)
  | copyinstr _ _ max => Option (CStr max)
  | myproc => Proc
  | panic _ | restart => Empty
  | _ => Unit

/-- The signature of `kexec`. -/
def execCalls : Signature := ⟨ExecCall, ExecCall.Result⟩

/-- A program that makes the calls of `kexec`. -/
abbrev Code := Program execCalls

/-- Make a call. -/
abbrev call (o : ExecCall) : Code o.Result := Program.op (S := execCalls) o

/-- A call that never returns, where an `α` is expected. -/
def stop {α : Type} (o : ExecCall) (h : o.Result = Empty) : Code α :=
  Program.call (S := execCalls) o fun r => (h ▸ r : Empty).elim

/-! ## Page tables of a process -/

/-- `proc_pagetable`: a page table with no user memory, but with the trampoline and trapframe
pages. -/
def procPagetable (trampoline : ℕ) (p : Proc) : Code ℕ := do
  let pagetable : ℕ ← call .uvmcreate
  if pagetable = 0 then pure 0
  else do
    let r : ℤ ← call (.mappages pagetable TRAMPOLINE PGSIZE trampoline (PTE_R + PTE_X))
    if r < 0 then do
      call (.uvmfree pagetable 0)
      pure 0
    else do
      let r : ℤ ← call (.mappages pagetable TRAPFRAME PGSIZE p.trapframe.addr (PTE_R + PTE_W))
      if r < 0 then do
        call (.uvmunmap pagetable TRAMPOLINE 1 false)
        call (.uvmfree pagetable 0)
        pure 0
      else pure pagetable

/-- `proc_freepagetable`: free a process's page table and the memory it refers to. -/
def procFreepagetable (pagetable sz : ℕ) : Code Unit := do
  call (.uvmunmap pagetable TRAMPOLINE 1 false)
  call (.uvmunmap pagetable TRAPFRAME 1 false)
  call (.uvmfree pagetable sz)

/-! ## Loading -/

/-- The loop of `loadseg` from page `i` on, for at most `k` pages. -/
def loadsegLoop (pagetable va ip offset sz : ℕ) : ℕ → ℕ → Code ℤ
  | 0, i =>
    -- with `sz` above `2 ^ 32 - PGSIZE`, `i += PGSIZE` wraps around to 0
    if i < sz then stop .restart rfl else pure 0
  | k + 1, i =>
    if i < sz then do
      let pa : ℕ ← call (.walkaddr pagetable (u64 (va + i)))
      if pa = 0 then stop (.panic "loadseg: address should exist") rfl
      else do
        let n := if sz - i < PGSIZE then sz - i else PGSIZE
        let r : ℕ ← call (.readiTo ip pa (u32 (offset + i)) n)
        if r ≠ n then pure (-1)
        else loadsegLoop pagetable va ip offset sz k (u32 (i + PGSIZE))
    else pure 0

/-- `loadseg`: load a program segment into `pagetable` at `va`; `offset` and `sz` are `uint`. -/
def loadseg (pagetable va ip offset sz : ℕ) : Code ℤ :=
  loadsegLoop pagetable va ip offset sz ((sz + PGSIZE - 1) / PGSIZE) 0

/-- The loop of `kexec` over the `k` program headers that are left, the next one at `off`, with
the size so far. The result is the new size, or `error sz` for a jump to `bad` with size `sz`. -/
def loadSegments (pagetable ip : ℕ) : ℕ → ℕ → ℕ → Code (Except ℕ ℕ)
  | 0, _, sz => pure (.ok sz)
  | k + 1, off, sz => do
    let b : List UInt8 ← call (.readi ip off Proghdr.size)
    if b.length ≠ Proghdr.size then pure (.error sz)
    else
      let ph := Proghdr.ofBytes b
      if ph.type ≠ ELF_PROG_LOAD then
        loadSegments pagetable ip k (u32 (off + Proghdr.size)) sz
      else if ph.memsz < ph.filesz then pure (.error sz)
      else if u64 (ph.vaddr + ph.memsz) < ph.vaddr then pure (.error sz)
      else if ph.vaddr % PGSIZE ≠ 0 then pure (.error sz)
      else do
        let sz1 : ℕ ←
          call (.uvmalloc pagetable sz (u64 (ph.vaddr + ph.memsz)) (flags2perm ph.flags))
        if sz1 = 0 then pure (.error sz)
        else do
          let r ← loadseg pagetable ph.vaddr ip (u32 ph.off) (u32 ph.filesz)
          if r < 0 then pure (.error sz1)
          else loadSegments pagetable ip k (u32 (off + Proghdr.size)) sz1

/-! ## The stack -/

/-- Copy the argument strings to the new stack. `ustack` lists the addresses of those copied so
far; the result is the stack pointer and `ustack`, or `none` for a jump to `bad`. -/
def pushArgs (pagetable stackbase : ℕ) :
    List (CStr PGSIZE) → ℕ → List ℕ → Code (Option (ℕ × List ℕ))
  | [], sp, ustack => pure (some (sp, ustack))
  | s :: args, sp, ustack =>
    if MAXARG ≤ ustack.length then pure none
    else
      let sp := sub64 sp (s.bytes.length + 1)
      let sp := sp - sp % 16
      if sp < stackbase then pure none
      else do
        let r : ℤ ← call (.copyout pagetable sp (s.bytes ++ [0]))
        if r < 0 then pure none
        else pushArgs pagetable stackbase args sp (ustack ++ [sp])

/-- The part of a path after its last `/`. -/
def lastName (path : List UInt8) : List UInt8 :=
  (path.reverse.takeWhile (· ≠ 47)).reverse

/-- `safestrcpy` into `p->name`, a buffer of 16 bytes. -/
def safestrcpy (s : List UInt8) : List UInt8 := s.take 15

/-! ## kexec and sys_exec -/

/-- The exit `bad` of `kexec`. -/
def bad (pagetable sz ip : ℕ) : Code ℤ := do
  if pagetable ≠ 0 then procFreepagetable pagetable sz
  if ip ≠ 0 then do
    call (.iunlockput ip)
    call .endOp
  pure (-1)

/-- The last part of `kexec`: commit to the user image. -/
def commit (pagetable sz sp argc oldsz : ℕ) (elf : Elfhdr) (path : List UInt8) : Code ℤ := do
  let p : Proc ← call .myproc
  let p := { p with trapframe := p.trapframe.set Trapframe.a1 sp }
  let p := { p with name := safestrcpy (lastName path) }
  let oldpagetable := p.pagetable
  let p := { p with
    pagetable := pagetable
    sz := sz
    trapframe := (p.trapframe.set Trapframe.epc elf.entry).set Trapframe.sp sp }
  call (.setProc p)
  procFreepagetable oldpagetable oldsz
  pure argc

/-- The second part of `kexec`, after the program is loaded and its inode released: the stack
pages and the arguments. -/
def setupStack (pagetable sz : ℕ) (elf : Elfhdr) (path : List UInt8) (argv : Argv) : Code ℤ := do
  let p : Proc ← call .myproc
  let oldsz := p.sz
  let sz := PGROUNDUP sz
  let sz1 : ℕ ← call (.uvmalloc pagetable sz (u64 (sz + (USERSTACK + 1) * PGSIZE)) PTE_W)
  if sz1 = 0 then bad pagetable sz 0
  else do
    let sz := sz1
    call (.uvmclear pagetable (sub64 sz ((USERSTACK + 1) * PGSIZE)))
    let stackbase := sub64 sz (USERSTACK * PGSIZE)
    match ← pushArgs pagetable stackbase argv.args sz [] with
    | none => bad pagetable sz 0
    | some (sp, ustack) =>
      let argc := ustack.length
      let sp := sub64 sp ((argc + 1) * 8)
      let sp := sp - sp % 16
      if sp < stackbase then bad pagetable sz 0
      else do
        let r : ℤ ← call (.copyout pagetable sp ((ustack ++ [0]).flatMap bytes64))
        if r < 0 then bad pagetable sz 0
        else commit pagetable sz sp argc oldsz elf path

/-- `kexec`, the implementation of the exec system call. -/
def kexec (trampoline : ℕ) (path : List UInt8) (argv : Argv) : Code ℤ := do
  call .beginOp
  let ip : ℕ ← call (.namei path)
  if ip = 0 then do
    call .endOp
    pure (-1)
  else do
    call (.ilock ip)
    let b : List UInt8 ← call (.readi ip 0 Elfhdr.size)
    if b.length ≠ Elfhdr.size then bad 0 0 ip
    else
      let elf := Elfhdr.ofBytes b
      if elf.magic ≠ ELF_MAGIC then bad 0 0 ip
      else do
        let p : Proc ← call .myproc
        let pagetable ← procPagetable trampoline p
        if pagetable = 0 then bad 0 0 ip
        else do
          match ← loadSegments pagetable ip elf.phnum (u32 elf.phoff) 0 with
          | .error sz => bad pagetable sz ip
          | .ok sz => do
            call (.iunlockput ip)
            call .endOp
            setupStack pagetable sz elf path argv

/-- `fetchaddr`: the `uint64` at `addr` in the calling process. -/
def fetchaddr (addr : ℕ) : Code (Option ℕ) := do
  let p : Proc ← call .myproc
  if p.sz ≤ addr ∨ p.sz < u64 (addr + 8) then pure none
  else do
    let b : Option (List UInt8) ← call (.copyin p.pagetable addr 8)
    pure (b.map (le · 0 8))

/-- `fetchstr`: the string at `addr` in the calling process. -/
def fetchstr (addr max : ℕ) : Code (Option (CStr max)) := do
  let p : Proc ← call .myproc
  call (.copyinstr p.pagetable addr max)

instance neZeroArguments : NeZero 6 := ⟨by decide⟩

/-- The argument registers follow `a0` in the trapframe. -/
theorem argument_lt (n : Fin 6) : 14 + n.val < 36 := by omega

/-- `argraw`: the `n`th argument register. -/
def argraw (n : Fin 6) : Code ℕ := do
  let p : Proc ← call .myproc
  pure (p.trapframe.word ⟨14 + n, argument_lt n⟩)

/-- The loop of `sys_exec` that fetches the arguments, with `k` free elements left in `argv`: the
pages it has allocated and, unless it jumps to `bad`, the arguments. -/
def fetchArgs (uargv : ℕ) : (k : ℕ) → (pages : List ℕ) → (args : List (CStr PGSIZE)) →
    args.length + k = MAXARG → Code (List ℕ × Option Argv)
  | 0, pages, _, _ => pure (pages, none)
  | k + 1, pages, args, h => do
    match ← fetchaddr (u64 (uargv + 8 * args.length)) with
    | none => pure (pages, none)
    | some uarg =>
      if uarg = 0 then pure (pages, some ⟨args, by omega⟩)
      else do
        let page : ℕ ← call .kalloc
        if page = 0 then pure (pages, none)
        else do
          match ← fetchstr uarg PGSIZE with
          | none => pure (pages ++ [page], none)
          | some s => fetchArgs uargv k (pages ++ [page]) (args ++ [s]) (by simp; omega)

/-- Free the argument pages. -/
def kfreeAll : List ℕ → Code Unit
  | [] => pure ()
  | page :: pages => do
    call (.kfree page)
    kfreeAll pages

/-- `sys_exec`. -/
def sysExec (trampoline : ℕ) : Code ℤ := do
  let uargv ← argraw 1
  let upath ← argraw 0
  match ← fetchstr upath MAXPATH with
  | none => pure (-1)
  | some path => do
    match ← fetchArgs uargv MAXARG [] [] rfl with
    | (pages, none) => do
      kfreeAll pages
      pure (-1)
    | (pages, some argv) => do
      let ret ← kexec trampoline path.bytes argv
      kfreeAll pages
      pure ret

end Xv6.Exec
