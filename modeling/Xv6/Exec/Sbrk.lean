import Mathlib.Data.Int.ModEq
import Xv6.Exec.Defs

/-!
# sbrk

`sys_sbrk` and `growproc` change `p->sz` by a signed 32-bit number of bytes. The sum is computed
in `uint64`, and three places look at it: the lazy path of `sys_sbrk` refuses a sum that has
wrapped around, `uvmalloc` and `uvmdealloc` return the old size when the new one is on the wrong
side of it. `growproc` takes that old size for a success.

The two functions of `vm.c` are parameters, with what they return (`Vm.Documented`).
-/

namespace Xv6.Exec

/-! ## The code -/

/-- The mode in which memory is allocated at once. -/
def SBRK_EAGER : ℤ := 1

/-- `return -1` from a function whose result is a `uint64`. -/
def minusOne : ℕ := 2 ^ 64 - 1

/-- `a + n` in `uint64`, for an `int` `n`. -/
def add64 (a : ℕ) (n : ℤ) : ℕ := ((a + n) % 2 ^ 64).toNat

/-- `argint`: the low 32 bits of an argument register, as an `int`. -/
def argint (p : Proc) (n : Fin 6) : ℤ := Int.bmod (p.trapframe.word ⟨14 + n, argument_lt n⟩) (2 ^ 32)

/-- The functions of `vm.c` that `growproc` calls: the result, and the page tables and free pages
after the call. -/
structure Vm (σ : Type*) where
  uvmalloc : σ → (pagetable oldsz newsz xperm : ℕ) → ℕ × σ
  uvmdealloc : σ → (pagetable oldsz newsz : ℕ) → ℕ × σ

/-- What they return. -/
structure Vm.Documented {σ : Type*} (vm : Vm σ) : Prop where
  /-- The old size if the new one is less, and otherwise the new size or, on failure, 0. -/
  uvmalloc : ∀ s pagetable oldsz newsz xperm,
    if newsz < oldsz then (vm.uvmalloc s pagetable oldsz newsz xperm).1 = oldsz
    else (vm.uvmalloc s pagetable oldsz newsz xperm).1 = newsz ∨
      (vm.uvmalloc s pagetable oldsz newsz xperm).1 = 0
  /-- The old size if the new one is not less, and otherwise the new size. -/
  uvmdealloc : ∀ s pagetable oldsz newsz,
    (vm.uvmdealloc s pagetable oldsz newsz).1 = if oldsz ≤ newsz then oldsz else newsz

section

variable {σ : Type*} (vm : Vm σ)

/-- `growproc`: grow or shrink user memory by `n` bytes. -/
def growproc (s : σ) (p : Proc) (n : ℤ) : ℤ × Proc × σ :=
  if 0 < n then
    let r := vm.uvmalloc s p.pagetable p.sz (add64 p.sz n) PTE_W
    if r.1 = 0 then (-1, p, r.2) else (0, { p with sz := r.1 }, r.2)
  else if n < 0 then
    let r := vm.uvmdealloc s p.pagetable p.sz (add64 p.sz n)
    (0, { p with sz := r.1 }, r.2)
  else (0, p, s)

/-- `sys_sbrk`: its result, and the process after it. -/
def sysSbrk (s : σ) (p : Proc) : ℕ × Proc × σ :=
  let n := argint p 0
  let t := argint p 1
  let addr := p.sz
  if t = SBRK_EAGER ∨ n < 0 then
    match growproc vm s p n with
    | (r, p, s) => if r < 0 then (minusOne, p, s) else (addr, p, s)
  else if add64 addr n < addr then (minusOne, p, s)
  else (addr, { p with sz := add64 p.sz n }, s)

end

/-! ## The sum -/

theorem argint_lt (p : Proc) (n : Fin 6) : argint p n < 2 ^ 31 :=
  Int.bmod_lt (by decide)

theorem le_argint (p : Proc) (n : Fin 6) : -2 ^ 31 ≤ argint p n :=
  Int.le_bmod (by decide)

/-- In range, the sum is the mathematical one. -/
theorem add64_of_le {a : ℕ} {n : ℤ} (h : 0 ≤ a + n) (h' : a + n < 2 ^ 64) :
    (add64 a n : ℤ) = a + n := by
  rw [add64, Int.emod_eq_of_lt h h', Int.toNat_of_nonneg h]

/-- Too large, it wraps around below `a`. -/
theorem add64_of_overflow {a : ℕ} {n : ℤ} (ha : a < 2 ^ 64) (hn : n < 2 ^ 31)
    (h : 2 ^ 64 ≤ a + n) : (add64 a n : ℤ) = a + n - 2 ^ 64 := by
  rw [add64]
  omega

/-- Negative, it wraps around above `a`. -/
theorem add64_of_neg {a : ℕ} {n : ℤ} (hn : -2 ^ 31 ≤ n) (h : a + n < 0) :
    (add64 a n : ℤ) = a + n + 2 ^ 64 := by
  rw [add64]
  omega

/-! ## What sbrk reports -/

/-- The result `r` is -1 and the size is unchanged, or it is the old size and the new one is
larger by `n`. -/
def Reports (sz : ℕ) (n : ℤ) (r sz' : ℕ) : Prop :=
  (r = minusOne ∧ sz' = sz) ∨ (r = sz ∧ (sz' : ℤ) = sz + n)

/-- The size after the call exists, and an eager call does not have to compute it beyond
`2 ^ 64`; the exception is the one size that is equal to -1. -/
def SbrkFits (sz : ℕ) (n t : ℤ) : Prop :=
  0 ≤ sz + n ∧ (t = SBRK_EAGER → sz + n < 2 ^ 64 ∨ sz = minusOne)

instance (sz : ℕ) (n : ℤ) (r sz' : ℕ) : Decidable (Reports sz n r sz') :=
  inferInstanceAs (Decidable (_ ∨ _))

instance (sz : ℕ) (n t : ℤ) : Decidable (SbrkFits sz n t) :=
  inferInstanceAs (Decidable (_ ∧ (_ → _)))

variable {σ : Type*} {vm : Vm σ}

/-- The size after a `growproc` that grows. -/
theorem growproc_pos (hvm : vm.Documented) (s : σ) {p : Proc} {n : ℤ} (hn : 0 < n) :
    if add64 p.sz n < p.sz then (growproc vm s p n).1 = 0 ∧ (growproc vm s p n).2.1.sz = p.sz
    else (growproc vm s p n).1 = 0 ∧ (growproc vm s p n).2.1.sz = add64 p.sz n ∨
      (growproc vm s p n).1 = -1 ∧ (growproc vm s p n).2.1.sz = p.sz := by
  have hret := hvm.uvmalloc s p.pagetable p.sz (add64 p.sz n) PTE_W
  rw [growproc, if_pos hn]
  split at hret
  case isTrue hlt =>
    have hpos : p.sz ≠ 0 := by omega
    simp [hlt, hret, hpos]
  case isFalse hle =>
    rw [if_neg hle]
    by_cases hzero : (vm.uvmalloc s p.pagetable p.sz (add64 p.sz n) PTE_W).1 = 0
    · simp [hzero]
    · left
      rw [if_neg hzero]
      exact ⟨rfl, hret.resolve_right hzero⟩

/-- The size after a `growproc` that shrinks. -/
theorem growproc_neg (hvm : vm.Documented) (s : σ) {p : Proc} {n : ℤ} (hn : n < 0) :
    (growproc vm s p n).1 = 0 ∧
      (growproc vm s p n).2.1.sz = if p.sz ≤ add64 p.sz n then p.sz else add64 p.sz n := by
  rw [growproc, if_neg (by omega), if_pos hn]
  exact ⟨rfl, hvm.uvmdealloc s p.pagetable p.sz (add64 p.sz n)⟩

/-- A request to shrink. -/
theorem reports_neg (hvm : vm.Documented) (s : σ) {p : Proc} {n : ℤ} (hsz : p.sz < 2 ^ 64)
    (hn : n < 0) (hle : -2 ^ 31 ≤ n) :
    Reports p.sz n p.sz (growproc vm s p n).2.1.sz ↔ 0 ≤ p.sz + n := by
  rw [(growproc_neg hvm s hn).2, Reports, minusOne]
  rcases lt_or_ge ((p.sz : ℤ) + n) 0 with hneg | hnonneg
  · -- the sum has wrapped around, so `uvmdealloc` returns the old size
    have hsum := add64_of_neg hle hneg
    rw [if_pos (by omega)]
    omega
  · have hsum := add64_of_le hnonneg (by omega)
    rw [if_neg (by omega)]
    omega

/-- A request to grow at once. -/
theorem reports_eager (hvm : vm.Documented) (s : σ) {p : Proc} {n : ℤ} (hsz : p.sz < 2 ^ 64)
    (hn : 0 < n) (hlt : n < 2 ^ 31) :
    Reports p.sz n (if (growproc vm s p n).1 < 0 then minusOne else p.sz)
        (growproc vm s p n).2.1.sz ↔
      p.sz + n < 2 ^ 64 ∨ p.sz = minusOne := by
  have hgrow := growproc_pos hvm s (p := p) hn
  rw [Reports, minusOne]
  rcases lt_or_ge ((p.sz : ℤ) + n) (2 ^ 64) with hfits | hover
  · have hsum := add64_of_le (a := p.sz) (by omega) hfits
    rw [if_neg (by omega)] at hgrow
    rcases hgrow with ⟨hr, hsz'⟩ | ⟨hr, hsz'⟩
    · rw [hr, hsz', if_neg (by decide)]
      omega
    · rw [hr, hsz', if_pos (by decide)]
      omega
  · -- the sum has wrapped around, so `uvmalloc` returns the old size
    have hsum := add64_of_overflow hsz hlt hover
    rw [if_pos (by omega)] at hgrow
    rw [hgrow.1, hgrow.2, if_neg (by decide)]
    omega

/-- A request to grow lazily. -/
theorem reports_lazy {sz : ℕ} {n : ℤ} (hsz : sz < 2 ^ 64) (hn : 0 ≤ n) (hlt : n < 2 ^ 31) :
    Reports sz n (if add64 sz n < sz then minusOne else sz)
      (if add64 sz n < sz then sz else add64 sz n) := by
  rw [Reports]
  rcases lt_or_ge ((sz : ℤ) + n) (2 ^ 64) with hfits | hover
  · have hsum := add64_of_le (a := sz) (by omega) hfits
    rw [if_neg (by omega), if_neg (by omega)]
    exact Or.inr ⟨rfl, hsum⟩
  · have hsum := add64_of_overflow hsz hlt hover
    rw [if_pos (by omega), if_pos (by omega)]
    exact Or.inl ⟨rfl, rfl⟩

/-- `sys_sbrk` through `growproc`. -/
theorem sysSbrk_growproc (vm : Vm σ) (s : σ) {p : Proc}
    (h : argint p 1 = SBRK_EAGER ∨ argint p 0 < 0) :
    (sysSbrk vm s p).1 = (if (growproc vm s p (argint p 0)).1 < 0 then minusOne else p.sz) ∧
      (sysSbrk vm s p).2 = (growproc vm s p (argint p 0)).2 := by
  rw [sysSbrk, if_pos h]
  obtain ⟨r, p', s'⟩ := growproc vm s p (argint p 0)
  by_cases hr : r < 0
  · simp only [if_pos hr, and_self]
  · simp only [if_neg hr, and_self]

/-- `sys_sbrk` in lazy mode. -/
theorem sysSbrk_lazy (vm : Vm σ) (s : σ) {p : Proc}
    (h : ¬(argint p 1 = SBRK_EAGER ∨ argint p 0 < 0)) :
    (sysSbrk vm s p).1 = (if add64 p.sz (argint p 0) < p.sz then minusOne else p.sz) ∧
      (sysSbrk vm s p).2.1.sz =
        (if add64 p.sz (argint p 0) < p.sz then p.sz else add64 p.sz (argint p 0)) := by
  rw [sysSbrk, if_neg h]
  generalize add64 p.sz (argint p 0) = sum
  split
  case isTrue => exact ⟨rfl, rfl⟩
  case isFalse => exact ⟨rfl, rfl⟩

/-- **sbrk** does what it reports exactly when the new size exists, and in eager mode fits in 64
bits. -/
theorem sysSbrk_reports_iff (hvm : vm.Documented) (s : σ) (p : Proc) (hsz : p.sz < 2 ^ 64) :
    Reports p.sz (argint p 0) (sysSbrk vm s p).1 (sysSbrk vm s p).2.1.sz ↔
      SbrkFits p.sz (argint p 0) (argint p 1) := by
  have hlt := argint_lt p 0
  have hle := le_argint p 0
  have hgrow := sysSbrk_growproc vm s (p := p)
  have hlazy := sysSbrk_lazy vm s (p := p)
  rw [SbrkFits]
  generalize argint p 0 = n at *
  generalize argint p 1 = t at *
  rcases lt_trichotomy n 0 with hneg | rfl | hpos
  · rw [(hgrow (Or.inr hneg)).1, (hgrow (Or.inr hneg)).2, (growproc_neg hvm s hneg).1,
      if_neg (by decide)]
    exact (reports_neg hvm s hsz hneg hle).trans (by omega)
  · refine iff_of_true ?_ (by omega)
    by_cases ht : t = SBRK_EAGER
    · rw [(hgrow (Or.inl ht)).1, (hgrow (Or.inl ht)).2]
      exact Or.inr ⟨rfl, (Int.add_zero _).symm⟩
    · rw [(hlazy (by omega)).1, (hlazy (by omega)).2]
      exact reports_lazy hsz le_rfl (by decide)
  · by_cases ht : t = SBRK_EAGER
    · rw [(hgrow (Or.inl ht)).1, (hgrow (Or.inl ht)).2]
      exact (reports_eager hvm s hsz hpos hlt).trans (by omega)
    · rw [(hlazy (by omega)).1, (hlazy (by omega)).2]
      exact iff_of_true (reports_lazy hsz hpos.le hlt) (by omega)

/-! ## A process of one page -/

/-- `uvmalloc` and `uvmdealloc` with memory enough. -/
def ample : Vm Unit where
  uvmalloc _ _ oldsz newsz _ := (if newsz < oldsz then oldsz else newsz, ())
  uvmdealloc _ _ oldsz newsz := (if oldsz ≤ newsz then oldsz else newsz, ())

theorem ample_documented : ample.Documented where
  uvmalloc _ _ oldsz newsz _ := by
    simp only [ample]
    split
    case isTrue => rfl
    case isFalse => exact Or.inl rfl
  uvmdealloc _ _ _ _ := rfl

/-- A process of one page that calls `sbrk(n)` in eager mode. -/
def onePage (n : ℕ) : Proc where
  pagetable := 1
  sz := PGSIZE
  trapframe := ⟨0, Function.update (Function.update (fun _ => 0) Trapframe.a0 n) Trapframe.a1 1⟩
  name := []
  ofile _ := 0

/-- Growing by one page. -/
theorem onePage_grows : SbrkFits PGSIZE (argint (onePage PGSIZE) 0) (argint (onePage PGSIZE) 1) ∧
    Reports PGSIZE (argint (onePage PGSIZE) 0) (sysSbrk ample () (onePage PGSIZE)).1
      (sysSbrk ample () (onePage PGSIZE)).2.1.sz :=
  ⟨by decide, (sysSbrk_reports_iff ample_documented () (onePage PGSIZE) (by decide)).2 (by decide)⟩

/-- Shrinking by two pages is reported as a success that changes nothing. -/
theorem onePage_shrinks_by_two : ample.Documented ∧
    argint (onePage (2 ^ 64 - 2 * PGSIZE)) 0 = -2 * PGSIZE ∧
    (sysSbrk ample () (onePage (2 ^ 64 - 2 * PGSIZE))).1 = PGSIZE ∧
    (sysSbrk ample () (onePage (2 ^ 64 - 2 * PGSIZE))).2.1.sz = PGSIZE ∧
    ¬Reports PGSIZE (-2 * PGSIZE) (sysSbrk ample () (onePage (2 ^ 64 - 2 * PGSIZE))).1
      (sysSbrk ample () (onePage (2 ^ 64 - 2 * PGSIZE))).2.1.sz := by
  exact ⟨ample_documented, by decide, by decide, by decide, by decide⟩

end Xv6.Exec
