import Mathlib.Data.Finset.Basic
import Mathlib.Order.Interval.Finset.Nat
import Xv6.Exec.Stack
import Xv6.Foundations.Contract

/-!
# The exits of kexec

What the process that calls `kexec` holds: page tables with their pages, references to inodes, the
lock of an inode, a log operation. `execContract` says of each call what it needs and does to
this; `kexec` respects it, so it never loads a segment where nothing is mapped, and at each of its
exits it has given back what it took.

Of `vm.c` the contract says that `uvmalloc` maps every page between the two sizes or none, and
that physical memory is smaller than `TRAPFRAME`. The calls into the log and the inode layer may stop
the kernel on their own; `kexec` has no panic but those that the contract excludes.
-/

namespace Xv6.Exec

open Program

/-! ## What a process holds -/

/-- The number of pages of `sz` bytes. -/
def pages (sz : ℕ) : ℕ := (sz + PGSIZE - 1) / PGSIZE

/-- What is mapped in a page table: the user pages by their numbers, and the two pages at the
top. -/
structure Space where
  user : Finset ℕ
  /-- The user pages that `uvmclear` has made inaccessible. -/
  guard : Finset ℕ
  trampoline : Bool
  trapframe : Bool
  deriving DecidableEq

/-- Whether the page at `va`, one of the two at the top, is mapped. -/
def Space.top (sp : Space) (va : ℕ) : Bool :=
  if va = TRAMPOLINE then sp.trampoline else sp.trapframe

/-- Map or unmap it. -/
def Space.setTop (sp : Space) (va : ℕ) (b : Bool) : Space :=
  if va = TRAMPOLINE then { sp with trampoline := b } else { sp with trapframe := b }

/-- What the calling process holds. -/
structure Held where
  /-- The page tables that have been created and not freed. -/
  spaces : ℕ → Option Space
  /-- Those that have been freed, the last one first. -/
  freed : List ℕ
  /-- The references of the process to inodes. -/
  refs : ℕ → ℕ
  /-- The inode whose lock it holds. -/
  locked : Option ℕ
  /-- Whether it is in a log operation. -/
  inOp : Bool
  proc : Proc

namespace Held

variable (v : Held)

def setSpace (pt : ℕ) (sp : Option Space) : Held :=
  { v with spaces := Function.update v.spaces pt sp }

/-- Free a page table. -/
def free (pt : ℕ) : Held := { v.setSpace pt none with freed := pt :: v.freed }

/-- Give back an inode and end the log operation. -/
def close (ip : ℕ) : Held :=
  { v with refs := Function.update v.refs ip (v.refs ip - 1), locked := none, inOp := false }

/-- An inode with its lock, in a log operation. -/
def opened (ip : ℕ) : Held :=
  { v with refs := Function.update v.refs ip (v.refs ip + 1), locked := some ip, inOp := true }

/-- A new image of `n` pages in the page table `pt`. -/
def building (pt n : ℕ) (guard : Finset ℕ) : Held :=
  v.setSpace pt (some ⟨Finset.range n, guard, true, true⟩)

end Held

/-! ## The contract -/

/-- What each call needs. The calls of `sys_exec` are not made by `kexec`, and its panics are
never allowed. -/
def ExecCall.Pre : ExecCall → Held → Prop
  | .beginOp, v => v.inOp = false ∧ v.locked = none
  | .endOp, v => v.inOp = true
  | .namei _, v => v.inOp = true ∧ v.locked = none
  | .ilock ip, v => 0 < v.refs ip ∧ v.locked = none
  | .iunlockput ip, v => 0 < v.refs ip ∧ v.locked = some ip ∧ v.inOp = true
  | .readi ip _ _, v | .readiTo ip _ _ _, v => v.locked = some ip
  | .uvmcreate, _ | .myproc, _ | .setProc _, _ => True
  | .mappages pt va size _ _, v => size = PGSIZE ∧ (va = TRAMPOLINE ∨ va = TRAPFRAME) ∧
    ∃ sp, v.spaces pt = some sp ∧ sp.top va = false
  | .uvmunmap pt va npages doFree, v => npages = 1 ∧ doFree = false ∧
    (va = TRAMPOLINE ∨ va = TRAPFRAME) ∧ ∃ sp, v.spaces pt = some sp ∧ sp.top va = true
  | .uvmalloc pt oldsz _ _, v => ∃ sp, v.spaces pt = some sp ∧ sp.user = Finset.range (pages oldsz)
  | .uvmfree pt sz, v => ∃ sp, v.spaces pt = some sp ∧ sp.trampoline = false ∧
    sp.trapframe = false ∧ ∀ i ∈ sp.user, i < pages sz
  | .walkaddr pt _, v => ∃ sp, v.spaces pt = some sp
  | .uvmclear pt va, v => ∃ sp, v.spaces pt = some sp ∧ va / PGSIZE ∈ sp.user
  | .copyout pt va src, v => ∃ sp, v.spaces pt = some sp ∧
    ∀ i, va / PGSIZE ≤ i → i * PGSIZE < va + src.length → i ∈ sp.user
  | .copyin .., _ | .copyinstr .., _ | .kalloc, _ | .kfree _, _ | .panic _, _ | .restart, _ => False

/-- What each call returns and does. -/
def ExecCall.Post : (o : ExecCall) → Held → o.Result → Held → Prop
  | .beginOp, v, _, v' => v' = { v with inOp := true }
  | .endOp, v, _, v' => v' = { v with inOp := false }
  | .namei _, v, (ip : ℕ), v' => (ip = 0 ∧ v' = v) ∨
    (ip ≠ 0 ∧ v' = { v with refs := Function.update v.refs ip (v.refs ip + 1) })
  | .ilock ip, v, _, v' => v' = { v with locked := some ip }
  | .iunlockput ip, v, _, v' =>
    v' = { v with refs := Function.update v.refs ip (v.refs ip - 1), locked := none }
  | .readi _ _ n, v, (bytes : List UInt8), v' => bytes.length ≤ n ∧ v' = v
  -- a file has at most `MAXFILE` blocks
  | .readiTo _ _ off n, v, (r : ℕ), v' => (r = n → 0 < n → off + n ≤ MAXFILE * BSIZE) ∧ v' = v
  | .uvmcreate, v, (pt : ℕ), v' => (pt = 0 ∧ v' = v) ∨
    (pt ≠ 0 ∧ v.spaces pt = none ∧ v' = v.setSpace pt (some ⟨∅, ∅, false, false⟩))
  | .mappages pt va _ _ _, v, (r : ℤ), v' => (r < 0 ∧ v' = v) ∨
    (r = 0 ∧ ∃ sp, v.spaces pt = some sp ∧ v' = v.setSpace pt (some (sp.setTop va true)))
  | .uvmunmap pt va _ _, v, _, v' =>
    ∃ sp, v.spaces pt = some sp ∧ v' = v.setSpace pt (some (sp.setTop va false))
  | .uvmalloc pt oldsz newsz _, v, (r : ℕ), v' =>
    (newsz < oldsz ∧ r = oldsz ∧ v' = v) ∨ (oldsz ≤ newsz ∧ r = 0 ∧ v' = v) ∨
    (oldsz ≤ newsz ∧ r = newsz ∧ ∃ sp, v.spaces pt = some sp ∧
      let user := sp.user ∪ Finset.Ico (pages oldsz) (pages newsz)
      user.card * PGSIZE < TRAPFRAME ∧ v' = v.setSpace pt (some { sp with user := user }))
  | .uvmfree pt _, v, _, v' => v' = v.free pt
  | .walkaddr pt va, v, (pa : ℕ), v' =>
    (∀ sp, v.spaces pt = some sp → va / PGSIZE ∈ sp.user \ sp.guard → pa ≠ 0) ∧ v' = v
  | .uvmclear pt va, v, _, v' => ∃ sp, v.spaces pt = some sp ∧
    v' = v.setSpace pt (some { sp with guard := insert (va / PGSIZE) sp.guard })
  | .copyout .., v, _, v' => v' = v
  | .myproc, v, p, v' => p = v.proc ∧ v' = v
  | .setProc p, v, _, v' => v' = { v with proc := p }
  | .copyin .., _, _, _ | .copyinstr .., _, _, _ | .kalloc, _, _, _ | .kfree _, _, _, _ => True

/-- The calls into the log and the inode layer, which have panics of their own. -/
def ExecCall.MayStop : ExecCall → Prop
  | .beginOp | .endOp | .namei _ | .ilock _ | .iunlockput _ | .readi .. | .readiTo .. => True
  | _ => False

def execContract : Contract execCalls Held := ⟨ExecCall.Pre, ExecCall.Post, ExecCall.MayStop⟩

/-! ## Sizes and pages -/

theorem pages_eq (sz : ℕ) : pages sz = (sz + 4095) / 4096 := by
  rw [pages, PGSIZE]
  omega

theorem lt_pages_iff {i sz : ℕ} : i < pages sz ↔ i * 4096 < sz := by
  rw [pages_eq]
  omega

/-- The page of an address. -/
theorem div_lt_pages {va sz : ℕ} (h : va < sz) : va / PGSIZE < pages sz := by
  rw [lt_pages_iff, PGSIZE]
  omega

theorem pages_mono {sz sz' : ℕ} (h : sz ≤ sz') : pages sz ≤ pages sz' := by
  rw [pages_eq, pages_eq]
  omega

/-- The new user pages after a successful `uvmalloc`. -/
theorem range_union_Ico {n m : ℕ} (h : n ≤ m) :
    Finset.range n ∪ Finset.Ico n m = Finset.range m := by
  ext i
  simp only [Finset.mem_union, Finset.mem_range, Finset.mem_Ico]
  omega

/-- A field of `k` bytes. -/
theorem le_lt (bytes : List UInt8) (off k : ℕ) : le bytes off k < 256 ^ k := by
  have hfold : ∀ l : List UInt8, l.foldr (fun b n => b.toNat + 256 * n) 0 < 256 ^ l.length := by
    intro l
    induction l with
    | nil => exact Nat.one_pos
    | cons b l ih =>
      have hb : b.toNat < 256 := b.toNat_lt
      rw [List.foldr_cons, List.length_cons, Nat.pow_succ']
      omega
  refine (hfold _).trans_le (Nat.pow_le_pow_right (by decide) ?_)
  rw [List.length_take]
  exact Nat.min_le_left ..

/-! ## Page tables -/

section

variable {v : Held} {pt : ℕ}

@[simp] theorem Held.setSpace_self (sp : Option Space) : (v.setSpace pt sp).spaces pt = sp :=
  Function.update_self ..

@[simp] theorem Held.setSpace_setSpace (sp sp' : Option Space) :
    (v.setSpace pt sp).setSpace pt sp' = v.setSpace pt sp' := by
  simp [Held.setSpace]

@[simp] theorem Held.free_setSpace (sp : Option Space) :
    (v.setSpace pt sp).free pt = v.free pt := by
  rw [Held.free, Held.setSpace_setSpace]
  rfl

theorem Held.setSpace_of_eq {sp : Option Space} (h : v.spaces pt = sp) : v.setSpace pt sp = v := by
  rw [Held.setSpace, ← h, Function.update_eq_self]

theorem top_trampoline (sp : Space) : sp.top TRAMPOLINE = sp.trampoline := if_pos rfl

theorem top_trapframe (sp : Space) : sp.top TRAPFRAME = sp.trapframe := if_neg (by decide)

theorem setTop_trampoline (sp : Space) (b : Bool) :
    sp.setTop TRAMPOLINE b = { sp with trampoline := b } := if_pos rfl

theorem setTop_trapframe (sp : Space) (b : Bool) :
    sp.setTop TRAPFRAME b = { sp with trapframe := b } := if_neg (by decide)

/-- Freeing a page table with the pages of `sz` bytes. -/
theorem respects_procFreepagetable {user guard : Finset ℕ} {sz : ℕ}
    (hpt : v.spaces pt = some ⟨user, guard, true, true⟩) (huser : ∀ i ∈ user, i < pages sz) :
    (procFreepagetable pt sz).Respects execContract (fun _ v' => v' = v.free pt) v := by
  refine respects_call ⟨rfl, rfl, .inl rfl, _, hpt, top_trampoline _⟩ ?_
  rintro _ _ ⟨sp, hsp, rfl⟩
  obtain rfl : ⟨user, guard, true, true⟩ = sp := Option.some.inj (hpt.symm.trans hsp)
  rw [setTop_trampoline]
  refine respects_call ⟨rfl, rfl, .inr rfl, _, Held.setSpace_self _, top_trapframe _⟩ ?_
  rintro _ _ ⟨sp, hsp, rfl⟩
  obtain rfl := Option.some.inj ((Held.setSpace_self _).symm.trans hsp)
  rw [setTop_trapframe, Held.setSpace_setSpace]
  refine respects_op.2 ⟨⟨_, Held.setSpace_self _, rfl, rfl, huser⟩, ?_⟩
  rintro _ _ rfl
  rw [Held.free_setSpace]

/-- Apart from page tables that were created and freed in between, all is as before. -/
structure Clean (v v' : Held) : Prop where
  rest : { v' with freed := v.freed } = v
  freed : ∃ l, v'.freed = l ++ v.freed ∧ ∀ pt ∈ l, v.spaces pt = none

theorem Clean.refl (v : Held) : Clean v v := ⟨rfl, [], rfl, List.forall_mem_nil _⟩

/-- A page table that was created is freed. -/
theorem Clean.of_free (hpt : v.spaces pt = none) (sp : Option Space) :
    Clean v ((v.setSpace pt sp).free pt) := by
  rw [Held.free_setSpace]
  refine ⟨?_, [pt], rfl, List.forall_mem_singleton.2 hpt⟩
  rw [Held.free, Held.setSpace_of_eq hpt]

/-- `proc_pagetable` cleans up, or there is a new page table without user memory. -/
theorem respects_procPagetable (v : Held) (trampoline : ℕ) (p : Proc) :
    (procPagetable trampoline p).Respects execContract (fun pt v' => (pt = 0 ∧ Clean v v') ∨
      (pt ≠ 0 ∧ v.spaces pt = none ∧ v' = v.building pt 0 ∅)) v := by
  refine respects_call trivial fun (pt : ℕ) v₁ hcreate => ?_
  rcases hcreate with ⟨rfl, rfl⟩ | ⟨h0, hnone, rfl⟩
  · rw [if_pos rfl]
    exact respects_pure.2 (.inl ⟨rfl, .refl v₁⟩)
  · rw [if_neg h0]
    refine respects_call ⟨rfl, .inl rfl, _, Held.setSpace_self _, top_trampoline _⟩
      fun (r : ℤ) v₁ hmap => ?_
    rcases hmap with ⟨hr, rfl⟩ | ⟨rfl, sp, hsp, rfl⟩
    · rw [if_pos hr]
      refine respects_call ⟨_, Held.setSpace_self _, rfl, rfl, nofun⟩ ?_
      rintro _ _ rfl
      exact respects_pure.2 (.inl ⟨rfl, .of_free hnone _⟩)
    · obtain rfl := Option.some.inj ((Held.setSpace_self _).symm.trans hsp)
      rw [if_neg (by decide), setTop_trampoline, Held.setSpace_setSpace]
      refine respects_call ⟨rfl, .inr rfl, _, Held.setSpace_self _, top_trapframe _⟩
        fun (r : ℤ) v₁ hmap => ?_
      rcases hmap with ⟨hr, rfl⟩ | ⟨rfl, sp, hsp, rfl⟩
      · rw [if_pos hr]
        refine respects_call
          ⟨rfl, rfl, .inl rfl, _, Held.setSpace_self _, top_trampoline _⟩ ?_
        rintro _ _ ⟨sp, hsp, rfl⟩
        obtain rfl := Option.some.inj ((Held.setSpace_self _).symm.trans hsp)
        rw [setTop_trampoline, Held.setSpace_setSpace]
        refine respects_call ⟨_, Held.setSpace_self _, rfl, rfl, nofun⟩ ?_
        rintro _ _ rfl
        exact respects_pure.2 (.inl ⟨rfl, .of_free hnone _⟩)
      · obtain rfl := Option.some.inj ((Held.setSpace_self _).symm.trans hsp)
        rw [if_neg (by decide), setTop_trapframe, Held.setSpace_setSpace]
        exact respects_pure.2 (.inr ⟨h0, hnone, rfl⟩)

/-! ## Segments -/

/-- The largest file. -/
theorem maxfile_eq : MAXFILE * BSIZE = 274432 := rfl

/-- The part of a segment that has been read when the loop of `loadseg` is at page `m`: if there
is any, it is in the file. -/
def SegmentRead (offset sz m : ℕ) : Prop :=
  m = 0 ∨ offset + min (4096 * m) sz ≤ 274432

/-- The loop of `loadseg` finds each page mapped, and reaches the end of the segment or of the
file before its counter wraps around. -/
theorem respects_loadsegLoop {sp : Space} {va ip offset sz : ℕ} (hpt : v.spaces pt = some sp)
    (hip : v.locked = some ip) (halign : va % 4096 = 0) (hoff : offset < 2 ^ 32)
    (hva : va + sz < 2 ^ 64) (hmapped : ∀ i < sz, (va + i) / PGSIZE ∈ sp.user \ sp.guard) {k m : ℕ}
    (hk : m + k = pages sz) (hread : SegmentRead offset sz m) :
    (loadsegLoop pt va ip offset sz k (4096 * m)).Respects execContract
      (fun _ v' => v' = v) v := by
  rw [pages_eq] at hk
  induction k generalizing m with
  | zero =>
    rw [loadsegLoop, if_neg (by omega)]
    exact respects_pure.2 rfl
  | succ k ih =>
    rw [loadsegLoop]
    by_cases hlt : 4096 * m < sz
    · rw [if_pos hlt]
      refine respects_call ⟨sp, hpt⟩ fun (pa : ℕ) v' hwalk => ?_
      obtain ⟨hfound, rfl⟩ := hwalk
      have hwrap : u64 (va + 4096 * m) = va + 4096 * m := Nat.mod_eq_of_lt (by omega)
      rw [hwrap] at hfound
      rw [if_neg (hfound sp hpt (hmapped _ hlt))]
      dsimp only
      have hn : (if sz - 4096 * m < PGSIZE then sz - 4096 * m else PGSIZE) =
          min (4096 * (m + 1)) sz - 4096 * m := by
        rw [PGSIZE]
        split <;> omega
      rw [hn]
      refine respects_call hip fun (r : ℕ) v₁ hin => ?_
      obtain ⟨hin, rfl⟩ := hin
      by_cases hr : r = min (4096 * (m + 1)) sz - 4096 * m
      · rw [if_neg (not_not.2 hr)]
        have hfile := hin hr (by omega)
        rw [maxfile_eq] at hfile
        have hread' : SegmentRead offset sz (m + 1) := by
          right
          have hoffset : u32 (offset + 4096 * m) = offset + 4096 * m := by
            refine Nat.mod_eq_of_lt ?_
            rcases hread with rfl | hread <;> omega
          rw [hoffset] at hfile
          omega
        have hnext : u32 (4096 * m + PGSIZE) = 4096 * (m + 1) := by
          rw [PGSIZE, u32, Nat.mod_eq_of_lt] <;> rcases hread' with h0 | hread' <;> omega
        rw [hnext]
        exact ih (by omega) hread'
      · rw [if_pos hr]
        exact respects_pure.2 rfl
    · rw [if_neg hlt]
      exact respects_pure.2 rfl

theorem respects_loadseg {sp : Space} {va ip offset sz : ℕ} (hpt : v.spaces pt = some sp)
    (hip : v.locked = some ip) (halign : va % 4096 = 0) (hoff : offset < 2 ^ 32)
    (hva : va + sz < 2 ^ 64) (hmapped : ∀ i < sz, (va + i) / PGSIZE ∈ sp.user \ sp.guard) :
    (loadseg pt va ip offset sz).Respects execContract (fun _ v' => v' = v) v :=
  respects_loadsegLoop hpt hip halign hoff hva hmapped (m := 0) (Nat.zero_add _) (.inl rfl)

/-- The user memory of a new image, `[0, sz)`, with all its pages in physical memory. -/
def Fits (sz : ℕ) : Prop := pages sz * PGSIZE < TRAPFRAME

/-- Rounding up does not wrap around. -/
theorem PGROUNDUP_eq {sz : ℕ} (hfits : Fits sz) : PGROUNDUP sz = pages sz * 4096 := by
  have hsmall : pages sz * 4096 < 274877898752 := hfits
  have hpage : PGSIZE = 4096 := rfl
  rw [pages_eq] at *
  rw [PGROUNDUP, u64, hpage]
  omega

/-- `uvmalloc` on a new image. -/
theorem respects_uvmalloc {sz newsz perm : ℕ} {γ : Type} {f : ℕ → Code γ} {Q : γ → Held → Prop}
    (hfits : Fits sz) (hfail : (f 0).Respects execContract Q (v.building pt (pages sz) ∅))
    (hless : newsz < sz → (f sz).Respects execContract Q (v.building pt (pages sz) ∅))
    (hmore : sz ≤ newsz → newsz ≠ 0 → Fits newsz →
      (f newsz).Respects execContract Q (v.building pt (pages newsz) ∅)) :
    (call (.uvmalloc pt sz newsz perm) >>= f).Respects execContract Q
      (v.building pt (pages sz) ∅) := by
  refine respects_call ⟨_, Held.setSpace_self _, rfl⟩ fun (r : ℕ) v' hpost => ?_
  rcases hpost with ⟨hlt, rfl, rfl⟩ | ⟨-, rfl, rfl⟩ | ⟨hle, rfl, sp, hsp, hcard, rfl⟩
  · exact hless hlt
  · exact hfail
  · obtain rfl := Option.some.inj ((Held.setSpace_self _).symm.trans hsp)
    rw [range_union_Ico (pages_mono hle)] at hcard ⊢
    rw [Finset.card_range] at hcard
    rw [Held.building, Held.setSpace_setSpace]
    by_cases h0 : r = 0
    · subst h0
      obtain rfl := Nat.le_zero.1 hle
      exact hfail
    · exact hmore hle h0 hcard

/-- Loading the program keeps a new image whose user memory ends at the size. -/
theorem respects_loadSegments {ip : ℕ} (hip : v.locked = some ip) {k off sz : ℕ}
    (hfits : Fits sz) :
    (loadSegments pt ip k off sz).Respects execContract
      (fun r v' => ∃ sz', (r = .ok sz' ∨ r = .error sz') ∧ Fits sz' ∧
        v' = v.building pt (pages sz') ∅) (v.building pt (pages sz) ∅) := by
  induction k generalizing off sz with
  | zero => exact respects_pure.2 ⟨sz, .inl rfl, hfits, rfl⟩
  | succ k ih =>
    have herror : (pure (.error sz) : Code (Except ℕ ℕ)).Respects execContract
        (fun r v' => ∃ sz', (r = .ok sz' ∨ r = .error sz') ∧ Fits sz' ∧
          v' = v.building pt (pages sz') ∅) (v.building pt (pages sz) ∅) :=
      respects_pure.2 ⟨sz, .inr rfl, hfits, rfl⟩
    rw [loadSegments]
    refine respects_call hip fun (b : List UInt8) v' hb => ?_
    obtain ⟨-, rfl⟩ := hb
    split
    case isTrue => exact herror
    case isFalse =>
      dsimp only
      have hvaddr : (Proghdr.ofBytes b).vaddr < 2 ^ 64 := le_lt b 16 8
      have hmemsz : (Proghdr.ofBytes b).memsz < 2 ^ 64 := le_lt b 40 8
      generalize Proghdr.ofBytes b = ph at *
      split
      case isTrue => exact ih hfits
      case isFalse =>
        split
        case isTrue => exact herror
        case isFalse hfilesz =>
          split
          case isTrue => exact herror
          case isFalse hwrap =>
            split
            case isTrue => exact herror
            case isFalse halign =>
              -- the end of the segment has not wrapped around
              have hend : u64 (ph.vaddr + ph.memsz) = ph.vaddr + ph.memsz := by
                rw [u64] at hwrap ⊢
                omega
              have hlt : ph.vaddr + ph.memsz < 2 ^ 64 := by
                rw [← hend]
                exact Nat.mod_lt _ (by decide)
              have hu32 : u32 ph.filesz ≤ ph.filesz := Nat.mod_le ..
              rw [hend]
              rw [PGSIZE] at halign
              have hload : ∀ {sz1}, ph.vaddr + ph.memsz ≤ sz1 → Fits sz1 →
                  (loadseg pt ph.vaddr ip (u32 ph.off) (u32 ph.filesz) >>= fun r =>
                    if r < 0 then pure (.error sz1)
                    else loadSegments pt ip k (u32 (off + Proghdr.size)) sz1).Respects execContract
                    (fun r v' => ∃ sz', (r = .ok sz' ∨ r = .error sz') ∧ Fits sz' ∧
                      v' = v.building pt (pages sz') ∅) (v.building pt (pages sz1) ∅) := by
                intro sz1 hle hfits₁
                have hmapped : ∀ i < u32 ph.filesz,
                    (ph.vaddr + i) / PGSIZE ∈ Finset.range (pages sz1) \ ∅ := fun i hi => by
                  rw [Finset.sdiff_empty, Finset.mem_range]
                  exact div_lt_pages (by omega)
                refine (respects_loadseg (Held.setSpace_self _) hip (not_not.1 halign)
                  (Nat.mod_lt _ (by decide)) (by omega) hmapped).bind ?_
                rintro r _ rfl
                split
                · exact respects_pure.2 ⟨sz1, .inr rfl, hfits₁, rfl⟩
                · exact ih hfits₁
              refine respects_uvmalloc hfits ?_ (fun hless => ?_) fun hmore h0 hfits₁ => ?_
              · rw [if_pos rfl]
                exact herror
              · rw [if_neg (by omega)]
                exact hload hless.le hfits
              · rw [if_neg h0]
                exact hload le_rfl hfits₁

/-! ## The exit bad -/

/-- `iunlockput(ip); end_op();` -/
theorem respects_close {ip : ℕ} {γ : Type} {f : Code γ} {Q : γ → Held → Prop}
    (hip : v.locked = some ip) (hrefs : 0 < v.refs ip) (hop : v.inOp = true)
    (hf : f.Respects execContract Q (v.close ip)) :
    (do
      call (.iunlockput ip)
      call .endOp
      f : Code γ).Respects execContract Q v := by
  refine respects_call ⟨hrefs, hip, hop⟩ ?_
  rintro _ _ rfl
  refine respects_call hop ?_
  rintro _ _ rfl
  exact hf

/-- `bad` without a page table. -/
theorem respects_bad_zero {ip : ℕ} (sz : ℕ) (h0 : ip ≠ 0) (hip : v.locked = some ip)
    (hrefs : 0 < v.refs ip) (hop : v.inOp = true) :
    (bad 0 sz ip).Respects execContract (fun r v' => r = -1 ∧ v' = v.close ip) v := by
  rw [bad, if_neg (not_not.2 rfl), if_pos h0]
  exact respects_close hip hrefs hop (respects_pure.2 ⟨rfl, rfl⟩)

/-- `bad` with a page table and the inode. -/
theorem respects_bad_inode {n ip sz : ℕ} {guard : Finset ℕ} (hpt : pt ≠ 0) (h0 : ip ≠ 0)
    (hn : n ≤ pages sz) (hip : v.locked = some ip) (hrefs : 0 < v.refs ip) (hop : v.inOp = true) :
    (bad pt sz ip).Respects execContract (fun r v' => r = -1 ∧ v' = (v.free pt).close ip)
      (v.building pt n guard) := by
  rw [bad, if_pos hpt, if_pos h0]
  refine (respects_procFreepagetable (Held.setSpace_self _) fun i hi => ?_).bind ?_
  · exact (Finset.mem_range.1 hi).trans_le hn
  · rintro _ _ rfl
    rw [Held.free_setSpace]
    exact respects_close hip hrefs hop (respects_pure.2 ⟨rfl, rfl⟩)

/-- `bad` after the inode has been given back. -/
theorem respects_bad_image {n sz : ℕ} {guard : Finset ℕ} (hpt : pt ≠ 0) (hn : n ≤ pages sz) :
    (bad pt sz 0).Respects execContract (fun r v' => r = -1 ∧ v' = v.free pt)
      (v.building pt n guard) := by
  rw [bad, if_pos hpt, if_neg (not_not.2 rfl)]
  refine (respects_procFreepagetable (Held.setSpace_self _) fun i hi => ?_).bind ?_
  · exact (Finset.mem_range.1 hi).trans_le hn
  · rintro _ _ rfl
    rw [Held.free_setSpace]
    exact respects_pure.2 ⟨rfl, rfl⟩

/-! ## The stack -/

/-- Copying the argument strings changes nothing that is held; they stay in the stack page. -/
theorem respects_pushArgs (n : ℕ) {guard : Finset ℕ} {args : List (CStr PGSIZE)}
    {sp stackbase : ℕ} {ustack : List ℕ}
    (hbase : 4096 ≤ stackbase) (hle : stackbase ≤ sp) (htop : sp ≤ n * 4096)
    (hsp : sp < 2 ^ 64) :
    (pushArgs pt stackbase args sp ustack).Respects execContract
      (fun r v' => v' = v.building pt n guard ∧ ∀ bottom all, r = some (bottom, all) →
        stackbase ≤ bottom ∧ bottom ≤ n * 4096 ∧ bottom < 2 ^ 64 ∧
          all.length = ustack.length + args.length) (v.building pt n guard) := by
  induction args generalizing sp ustack with
  | nil =>
    refine respects_pure.2 ⟨rfl, fun bottom all heq => ?_⟩
    cases heq
    exact ⟨hle, htop, hsp, rfl⟩
  | cons str args ih =>
    have hnone : (pure none : Code (Option (ℕ × List ℕ))).Respects execContract
        (fun r v' => v' = v.building pt n guard ∧ ∀ bottom all, r = some (bottom, all) →
          stackbase ≤ bottom ∧ bottom ≤ n * 4096 ∧ bottom < 2 ^ 64 ∧
            all.length = ustack.length + (str :: args).length) (v.building pt n guard) :=
      respects_pure.2 ⟨rfl, nofun⟩
    have hlen : str.bytes.length + 1 ≤ sp := by
      have hfits : str.bytes.length < 4096 := str.fits
      omega
    rw [pushArgs]
    split
    case isTrue => exact hnone
    case isFalse =>
      dsimp only
      rw [sub64_of_le hsp hlen]
      generalize ha : sp - (str.bytes.length + 1) - (sp - (str.bytes.length + 1)) % 16 = a
      have hroom : a + (str.bytes.length + 1) ≤ sp := by omega
      split
      case isTrue => exact hnone
      case isFalse hge =>
        refine respects_call ⟨_, Held.setSpace_self _, fun i _ hi => Finset.mem_range.2 ?_⟩ ?_
        · rw [List.length_append, List.length_singleton] at hi
          have hi' : i * 4096 < n * 4096 := hi.trans_le (hroom.trans htop)
          exact Nat.lt_of_mul_lt_mul_right hi'
        · rintro r _ rfl
          split
          · exact hnone
          · refine (ih (not_lt.1 hge) (by omega) (by omega)).mono fun r v' hr => ?_
            refine ⟨hr.1, fun bottom all heq => ?_⟩
            obtain ⟨h₁, h₂, h₃, h₄⟩ := hr.2 bottom all heq
            rw [List.length_append, List.length_singleton] at h₄
            exact ⟨h₁, h₂, h₃, by rw [h₄, List.length_cons]; omega⟩

/-- The process can call `kexec`: it is in no log operation, holds the lock of no inode, and the
pages of its image are below its size. -/
structure Held.Ready (v : Held) : Prop where
  op : v.inOp = false
  lock : v.locked = none
  image : ∃ user guard, v.spaces v.proc.pagetable = some ⟨user, guard, true, true⟩ ∧
    ∀ i ∈ user, i < pages v.proc.sz

/-- A call of `kexec` that has committed to a new image of the page table `pt`. -/
structure Committed (v : Held) (pt : ℕ) (v' : Held) : Prop where
  fresh : pt ≠ 0 ∧ v.spaces pt = none
  pagetable : v'.proc.pagetable = pt
  fits : Fits v'.proc.sz
  /-- The old image is gone. The new one is as large as the process says, with the guard page
  below the stack page at the top. -/
  spaces : v'.spaces = Function.update (Function.update v.spaces pt
    (some ⟨Finset.range (pages v'.proc.sz), {pages v'.proc.sz - 2}, true, true⟩))
    v.proc.pagetable none
  freed : v'.freed = v.proc.pagetable :: v.freed
  held : v'.refs = v.refs ∧ v'.locked = v.locked ∧ v'.inOp = v.inOp
  ofile : v'.proc.ofile = v.proc.ofile

/-- The last part of `kexec` frees the old page table. -/
theorem respects_commit (hready : v.Ready) (hpt : pt ≠ 0) (hnone : v.spaces pt = none) {sz : ℕ}
    (hfits : Fits sz) (sp argc : ℕ) (elf : Elfhdr) (path : List UInt8) :
    (commit pt sz sp argc v.proc.sz elf path).Respects execContract
      (fun r v' => r = argc ∧ Committed v pt v')
      (v.building pt (pages sz) {pages sz - 2}) := by
  obtain ⟨user, guard, himage, huser⟩ := hready.image
  have hne : v.proc.pagetable ≠ pt := by
    intro heq
    rw [heq, hnone] at himage
    cases himage
  refine respects_call trivial fun p v' hp => ?_
  obtain ⟨rfl, rfl⟩ := hp
  dsimp only
  refine respects_call trivial ?_
  rintro _ _ rfl
  refine (respects_procFreepagetable ((Function.update_of_ne hne ..).trans himage) huser).bind ?_
  rintro _ _ rfl
  exact respects_pure.2 ⟨rfl, ⟨hpt, hnone⟩, rfl, hfits, rfl, rfl, ⟨rfl, rfl, rfl⟩, rfl⟩

/-- The stack pages, the arguments and the commit, or `bad`. -/
theorem respects_setupStack (hready : v.Ready) (hpt : pt ≠ 0) (hnone : v.spaces pt = none)
    {sz : ℕ} (hfits : Fits sz) (elf : Elfhdr) (path : List UInt8) (argv : Argv) :
    (setupStack pt sz elf path argv).Respects execContract
      (fun r v' => (r = -1 ∧ v' = v.free pt) ∨ (r = argv.args.length ∧ Committed v pt v'))
      (v.building pt (pages sz) ∅) := by
  have hbad : ∀ {n sz' : ℕ} {guard : Finset ℕ}, n ≤ pages sz' → (bad pt sz' 0).Respects execContract
      (fun r v' => (r = -1 ∧ v' = v.free pt) ∨ (r = argv.args.length ∧ Committed v pt v'))
      (v.building pt n guard) := fun hn => (respects_bad_image hpt hn).mono fun _ _ => .inl
  have hsmall : pages sz * 4096 < 2 ^ 38 - 8192 := hfits
  refine respects_call trivial fun p v' hp => ?_
  obtain ⟨rfl, rfl⟩ := hp
  dsimp only
  have h8192 : (USERSTACK + 1) * PGSIZE = 8192 := rfl
  have h4096 : USERSTACK * PGSIZE = 4096 := rfl
  have hround := PGROUNDUP_eq hfits
  have hpages : pages (pages sz * 4096) = pages sz := by
    rw [pages_eq (pages sz * 4096)]
    omega
  have hnew : u64 (pages sz * 4096 + (USERSTACK + 1) * PGSIZE) = (pages sz + 2) * 4096 := by
    rw [h8192, u64]
    omega
  have hpages' : pages ((pages sz + 2) * 4096) = pages sz + 2 := by
    rw [pages_eq ((pages sz + 2) * 4096)]
    omega
  have hproc : (v.building pt (pages sz) ∅).proc = v.proc := rfl
  rw [hround, hnew, hproc]
  conv => arg 4; rw [← hpages]
  have hfits₀ : Fits (pages sz * 4096) := by
    rw [Fits, hpages]
    exact hfits
  refine respects_uvmalloc hfits₀ ?_ (fun hless => absurd hless (by omega)) fun _ h0 hfits₁ => ?_
  · rw [if_pos rfl]
    exact hbad le_rfl
  · have htop : (pages sz + 2) * 4096 < 2 ^ 38 - 8192 := by
      have hcard : pages ((pages sz + 2) * 4096) * 4096 < 2 ^ 38 - 8192 := hfits₁
      rwa [hpages'] at hcard
    rw [if_neg h0, hpages']
    have hlt : (pages sz + 2) * 4096 < 2 ^ 64 := htop.trans (by decide)
    have hguard : sub64 ((pages sz + 2) * 4096) ((USERSTACK + 1) * PGSIZE) = pages sz * 4096 := by
      rw [h8192, sub64_of_le hlt (by omega)]
      omega
    have hinsert : insert (pages sz * 4096 / PGSIZE) (∅ : Finset ℕ) =
        {pages ((pages sz + 2) * 4096) - 2} := by
      rw [hpages', PGSIZE, Nat.mul_div_cancel _ (by decide), Nat.add_sub_cancel]
      rfl
    have hstack : sub64 ((pages sz + 2) * 4096) (USERSTACK * PGSIZE) = (pages sz + 1) * 4096 := by
      rw [h4096, sub64_of_le hlt (by omega)]
      omega
    refine respects_call ⟨_, Held.setSpace_self _, Finset.mem_range.2 ?_⟩ ?_
    · rw [hguard, PGSIZE]
      omega
    · rintro _ _ ⟨sp, hsp, rfl⟩
      obtain rfl := Option.some.inj ((Held.setSpace_self _).symm.trans hsp)
      rw [hstack, hguard, Held.building, Held.setSpace_setSpace]
      have hbase : 4096 ≤ (pages sz + 1) * 4096 := by omega
      have hle : (pages sz + 1) * 4096 ≤ (pages sz + 2) * 4096 :=
        Nat.mul_le_mul_right 4096 (Nat.le_succ (pages sz + 1))
      refine (respects_pushArgs (pages sz + 2) hbase hle le_rfl hlt).bind fun r v' hr => ?_
      obtain ⟨rfl, hpushed⟩ := hr
      cases r with
      | none => exact hbad hpages'.ge
      | some pushed =>
        obtain ⟨bottom, ustack⟩ := pushed
        obtain ⟨hge, hle, hlt, hlen⟩ := hpushed bottom ustack rfl
        rw [List.length_nil, Nat.zero_add] at hlen
        have hargs := argv.fits
        rw [MAXARG] at hargs
        dsimp only
        rw [sub64_of_le hlt (by omega)]
        generalize harray : bottom - (ustack.length + 1) * 8 -
          (bottom - (ustack.length + 1) * 8) % 16 = array
        split
        case isTrue => exact hbad hpages'.ge
        case isFalse hroom =>
          refine respects_call ⟨_, Held.setSpace_self _, fun i _ hi => Finset.mem_range.2 ?_⟩ ?_
          · rw [length_words, List.length_append, List.length_singleton, PGSIZE] at hi
            omega
          · rintro r _ rfl
            split
            case isTrue => exact hbad hpages'.ge
            case isFalse =>
              rw [← hlen]
              conv => arg 4; rw [← hpages', hinsert]
              exact (respects_commit hready hpt hnone hfits₁ array ustack.length elf path).mono
                fun _ _ => .inr

/-! ## kexec -/

/-- Closing the inode gives back what opening it took. -/
theorem Held.close_opened (hready : v.Ready) (ip : ℕ) : (v.opened ip).close ip = v := by
  obtain ⟨hop, hlock, -⟩ := hready
  rw [Held.close, Held.opened]
  simp only [Function.update_self, Nat.add_sub_cancel, Function.update_idem,
    Function.update_eq_self, ← hop, ← hlock]

/-- A process that has opened an inode, is clean apart from it and closes it. -/
theorem Clean.close {ip : ℕ} {v' : Held} (hready : v.Ready) (hclean : Clean (v.opened ip) v') :
    Clean v (v'.close ip) :=
  ⟨(congrArg (Held.close · ip) hclean.rest).trans (Held.close_opened hready ip), hclean.freed⟩

/-- A page table that was not there is freed without a trace. -/
theorem Clean.free (hnone : v.spaces pt = none) : Clean v (v.free pt) := by
  have hclean := Clean.of_free hnone none
  rwa [Held.free_setSpace] at hclean

/-- `kexec` respects the contract, and its exits leave the process as it was or with the new
image. -/
theorem respects_kexec (hready : v.Ready) (trampoline : ℕ) (path : List UInt8) (argv : Argv) :
    (kexec trampoline path argv).Respects execContract
      (fun r v' => (r = -1 ∧ Clean v v') ∨
        (r = argv.args.length ∧ ∃ pt, Committed v pt v')) v := by
  refine respects_call ⟨hready.op, hready.lock⟩ ?_
  rintro _ _ rfl
  refine respects_call ⟨rfl, hready.lock⟩ fun (ip : ℕ) v' hnamei => ?_
  rcases hnamei with ⟨rfl, rfl⟩ | ⟨h0, rfl⟩
  · rw [if_pos rfl]
    refine respects_call rfl ?_
    rintro _ _ rfl
    refine respects_pure.2 (.inl ⟨rfl, ?_⟩)
    rw [← hready.op]
    exact .refl v
  · rw [if_neg h0]
    have hrefs : 0 < (v.opened ip).refs ip := by
      simp [Held.opened]
    refine respects_call ⟨hrefs, hready.lock⟩ fun _ w hw => ?_
    obtain rfl : w = v.opened ip := hw
    have hbad : ∀ {v'}, Clean (v.opened ip) v' → (bad 0 0 ip).Respects execContract
        (fun r v' => (r = -1 ∧ Clean v v') ∨
          (r = argv.args.length ∧ ∃ pt, Committed v pt v')) v' := by
      intro v' hclean
      have hrest := hclean.rest
      have hlocked : v'.locked = some ip := congrArg Held.locked hrest
      have hheld : v'.refs ip = (v.opened ip).refs ip := congrFun (congrArg Held.refs hrest :) ip
      have hop : v'.inOp = true := congrArg Held.inOp hrest
      refine (respects_bad_zero 0 h0 hlocked (hheld ▸ hrefs) hop).mono fun r w hr => .inl ?_
      exact ⟨hr.1, hr.2 ▸ hclean.close hready⟩
    refine respects_call rfl fun (b : List UInt8) v' hb => ?_
    obtain ⟨-, rfl⟩ := hb
    split
    case isTrue => exact hbad (.refl _)
    case isFalse =>
      dsimp only
      split
      case isTrue => exact hbad (.refl _)
      case isFalse =>
        refine respects_call trivial fun p v' hp => ?_
        obtain ⟨-, rfl⟩ := hp
        refine (respects_procPagetable _ trampoline p).bind fun pt v' hcreate => ?_
        rcases hcreate with ⟨rfl, hclean⟩ | ⟨hpt, hnone, rfl⟩
        · rw [if_pos rfl]
          exact hbad hclean
        · rw [if_neg hpt]
          have hfits : Fits 0 := by
            rw [Fits]
            decide
          refine (respects_loadSegments rfl hfits).bind fun r v' hload => ?_
          obtain ⟨sz, hr, hfits, rfl⟩ := hload
          rcases hr with rfl | rfl
          · dsimp only
            refine respects_close rfl hrefs rfl ?_
            have himage : ((v.opened ip).building pt (pages sz) ∅).close ip =
                v.building pt (pages sz) ∅ :=
              congrArg (Held.building · pt (pages sz) ∅) (Held.close_opened hready ip)
            rw [himage]
            refine (respects_setupStack hready hpt hnone hfits _ path argv).mono fun r v' hr => ?_
            rcases hr with ⟨hr, rfl⟩ | ⟨hr, hdone⟩
            · exact .inl ⟨hr, .free hnone⟩
            · exact .inr ⟨hr, pt, hdone⟩
          · refine (respects_bad_inode hpt h0 le_rfl rfl hrefs rfl).mono fun r v' hr => .inl ?_
            exact ⟨hr.1, hr.2 ▸ Clean.close hready (.free hnone)⟩

end

/-! ## A machine that follows the contract -/

/-- `uvmalloc` with 128 MB of memory. -/
def Held.uvmalloc (v : Held) (pt oldsz newsz : ℕ) : ℕ × Held :=
  if newsz < oldsz then (oldsz, v)
  else
    match v.spaces pt with
    | none => (0, v)
    | some sp =>
      let user := sp.user ∪ Finset.Ico (pages oldsz) (pages newsz)
      if user.card ≤ 32768 then (newsz, v.setSpace pt (some { sp with user := user }))
      else (0, v)

/-- `walkaddr` where user page `i` is in physical page `i`. -/
def Held.walkaddr (v : Held) (pt va : ℕ) : ℕ :=
  match v.spaces pt with
  | none => 0
  | some sp =>
    if va / PGSIZE ∈ sp.user \ sp.guard then 0x80000000 + va / PGSIZE * PGSIZE else 0

/-- A machine with one file. The page tables of the process are at 1 and 2. -/
def machine (file : List UInt8) : Handler execCalls Held String
  | .beginOp, v => .ok ((), { v with inOp := true })
  | .endOp, v => .ok ((), { v with inOp := false })
  | .namei _, v => .ok ((1 : ℕ), { v with refs := Function.update v.refs 1 (v.refs 1 + 1) })
  | .ilock ip, v => .ok ((), { v with locked := some ip })
  | .iunlockput ip, v =>
    .ok ((), { v with refs := Function.update v.refs ip (v.refs ip - 1), locked := none })
  | .readi _ off n, v => .ok ((file.drop off).take n, v)
  | .readiTo _ _ off n, v => .ok ((min (file.length - off) n : ℕ), v)
  | .uvmcreate, v =>
    if v.spaces 2 = none then .ok ((2 : ℕ), v.setSpace 2 (some ⟨∅, ∅, false, false⟩))
    else .ok ((0 : ℕ), v)
  | .mappages pt va _ _ _, v =>
    .ok ((0 : ℤ), v.setSpace pt ((v.spaces pt).map (Space.setTop · va true)))
  | .uvmunmap pt va _ _, v =>
    .ok ((), v.setSpace pt ((v.spaces pt).map (Space.setTop · va false)))
  | .uvmalloc pt oldsz newsz _, v => .ok (v.uvmalloc pt oldsz newsz)
  | .uvmfree pt _, v => .ok ((), v.free pt)
  | .walkaddr pt va, v => .ok (v.walkaddr pt va, v)
  | .uvmclear pt va, v => .ok ((), v.setSpace pt ((v.spaces pt).map fun sp =>
      { sp with guard := insert (va / PGSIZE) sp.guard }))
  | .copyout .., v => .ok ((0 : ℤ), v)
  | .copyin .., v => .ok (none, v)
  | .copyinstr .., v => .ok (none, v)
  | .kalloc, v => .ok ((0 : ℕ), v)
  | .kfree _, v => .ok ((), v)
  | .myproc, v => .ok (v.proc, v)
  | .setProc p, v => .ok ((), { v with proc := p })
  | .panic msg, _ => .error msg
  | .restart, _ => .error "restart"

theorem uvmalloc_post {v : Held} {pt oldsz newsz perm : ℕ}
    (hpre : ExecCall.Pre (.uvmalloc pt oldsz newsz perm) v) :
    ExecCall.Post (.uvmalloc pt oldsz newsz perm) v (v.uvmalloc pt oldsz newsz).1
      (v.uvmalloc pt oldsz newsz).2 := by
  obtain ⟨sp, hsp, -⟩ := hpre
  rw [Held.uvmalloc]
  split
  case isTrue hless => exact .inl ⟨hless, rfl, rfl⟩
  case isFalse hle =>
    rw [hsp]
    dsimp only
    split
    case isTrue hcard =>
      refine .inr (.inr ⟨not_lt.1 hle, rfl, sp, hsp, ?_, rfl⟩)
      exact (Nat.mul_le_mul_right PGSIZE hcard).trans_lt (by decide)
    case isFalse => exact .inr (.inl ⟨not_lt.1 hle, rfl, rfl⟩)

theorem walkaddr_post (v : Held) (pt va : ℕ) :
    ExecCall.Post (.walkaddr pt va) v (v.walkaddr pt va) v := by
  refine ⟨fun sp hsp hvalid => ?_, rfl⟩
  rw [Held.walkaddr, hsp]
  dsimp only
  rw [if_pos hvalid]
  omega

theorem machine_followedBy {file : List UInt8} (hfile : file.length ≤ MAXFILE * BSIZE) :
    execContract.FollowedBy (machine file) id (fun _ => False) := by
  intro o v (hpre : ExecCall.Pre o v)
  left
  cases o with
  | beginOp => exact ⟨_, _, rfl, rfl⟩
  | endOp => exact ⟨_, _, rfl, rfl⟩
  | namei path => exact ⟨_, _, rfl, .inr ⟨one_ne_zero, rfl⟩⟩
  | ilock ip => exact ⟨_, _, rfl, rfl⟩
  | iunlockput ip => exact ⟨_, _, rfl, rfl⟩
  | readi ip off n => exact ⟨_, _, rfl, List.length_take_le .., rfl⟩
  | readiTo ip pa off n =>
    refine ⟨_, _, rfl, fun hr hn => ?_, rfl⟩
    omega
  | uvmcreate =>
    by_cases hnone : v.spaces 2 = none
    · exact ⟨_, _, if_pos hnone, .inr ⟨two_ne_zero, hnone, rfl⟩⟩
    · exact ⟨_, _, if_neg hnone, .inl ⟨rfl, rfl⟩⟩
  | mappages pt va size pa perm =>
    obtain ⟨-, -, sp, hsp, -⟩ := hpre
    exact ⟨_, _, rfl, .inr ⟨rfl, sp, hsp, by rw [id, id, hsp, Option.map_some]⟩⟩
  | uvmunmap pt va npages doFree =>
    obtain ⟨-, -, -, sp, hsp, -⟩ := hpre
    exact ⟨_, _, rfl, sp, hsp, by rw [id, id, hsp, Option.map_some]⟩
  | uvmalloc pt oldsz newsz perm => exact ⟨_, _, rfl, uvmalloc_post hpre⟩
  | uvmfree pt sz => exact ⟨_, _, rfl, rfl⟩
  | walkaddr pt va => exact ⟨_, _, rfl, walkaddr_post v pt va⟩
  | uvmclear pt va =>
    obtain ⟨sp, hsp, -⟩ := hpre
    exact ⟨_, _, rfl, sp, hsp, by rw [id, id, hsp, Option.map_some]⟩
  | copyout pt va src => exact ⟨_, _, rfl, rfl⟩
  | myproc => exact ⟨_, _, rfl, rfl, rfl⟩
  | setProc p => exact ⟨_, _, rfl, rfl⟩
  | copyin | copyinstr | kalloc | kfree | panic | restart => exact hpre.elim

/-- An executable file of four bytes that are loaded at 0. -/
def executable : List UInt8 :=
  [0x7F, 0x45, 0x4C, 0x46] ++ .replicate 28 0 ++ [64] ++ .replicate 23 0 ++ [1] ++ .replicate 7 0 ++
  [1, 0, 0, 0, 5, 0, 0, 0, 120] ++ .replicate 23 0 ++ [4] ++ .replicate 7 0 ++ [4] ++
  .replicate 15 0 ++ [0x13, 0, 0, 0]

theorem executable_fits : executable.length ≤ MAXFILE * BSIZE := by
  have hlength : executable.length = 124 := rfl
  rw [hlength, maxfile_eq]
  omega

/-- A process with an image of four pages. -/
def calling : Held where
  spaces pt := if pt = 1 then some ⟨Finset.range 4, {2}, true, true⟩ else none
  freed := []
  refs _ := 0
  locked := none
  inOp := false
  proc := ⟨1, 16384, ⟨0x87F00000, fun _ => 0⟩, [], fun _ => 0⟩

theorem calling_ready : calling.Ready where
  op := rfl
  lock := rfl
  image := ⟨Finset.range 4, {2}, rfl, fun _ => Finset.mem_range.1⟩

/-! ## The exits -/

/-- For every file, path and arguments, and wherever memory runs out or a copy fails: `kexec` has
no panic and no endless loop; it returns -1 with the process as it was and every page table that it
created freed, or it returns the number of arguments, and the old page table has been freed once. -/
theorem kexec_cleans_up {σ ε : Type*} {h : Handler execCalls σ ε} {view : σ → Held} {E : ε → Prop}
    (hh : execContract.FollowedBy h view E) {s : σ} (hready : (view s).Ready) (trampoline : ℕ)
    (path : List UInt8) (argv : Argv) :
    (∀ o ∈ (kexec trampoline path argv).calls h s, (∀ msg, o ≠ .panic msg) ∧ o ≠ .restart) ∧
    (kexec trampoline path argv).Meets h (fun r s' => (r = -1 ∧ Clean (view s) (view s')) ∨
      (r = argv.args.length ∧ ∃ pt, Committed (view s) pt (view s'))) E s := by
  have hkexec := respects_kexec hready trampoline path argv
  refine ⟨fun o ho => ?_, hkexec.meets hh⟩
  obtain ⟨v, hpre⟩ := hkexec.pre_of_mem_calls hh ho
  constructor
  · rintro msg rfl
    exact hpre
  · rintro rfl
    exact hpre

theorem kexec_cleans_up_executable :
    (∀ o ∈ (kexec 0x80007000 [105] ⟨[], by decide⟩).calls (machine executable) calling,
      (∀ msg, o ≠ .panic msg) ∧ o ≠ .restart) ∧
    (kexec 0x80007000 [105] ⟨[], by decide⟩).Meets (machine executable)
      (fun r s' => (r = -1 ∧ Clean calling s') ∨ (r = 0 ∧ ∃ pt, Committed calling pt s'))
      (fun _ => False) calling :=
  kexec_cleans_up (machine_followedBy executable_fits) calling_ready 0x80007000 [105]
    ⟨[], by decide⟩

-- the run commits
example : ((kexec 0x80007000 [105] ⟨[], by decide⟩).run (machine executable) calling).toOption.map
    (fun out => (out.1, out.2.proc.sz, out.2.freed)) = some (0, 12288, [1]) := by
  decide +kernel

end Xv6.Exec
