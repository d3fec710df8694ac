import Xv6.Exec.Defs
import Xv6.Foundations.Memory
import Xv6.Foundations.Transition

/-!
# The page allocator

`kalloc.c`: the free pages form a list that is threaded through the pages themselves. `kinit`
frees all pages between `end` (`kernelEnd` here) and `PHYSTOP`; `kalloc` and `kfree` overwrite a
whole page with junk, the one after it has unlinked the page and the other before it links the
page.

The system `allocator` takes calls of `kalloc` and `kfree` in any order, the latter with pages
that `kalloc` has returned and that are not yet freed. In between, the rest of the kernel writes
to the pages that it has and to memory that the allocator does not manage. `Conserved` is the
invariant.
-/

namespace Xv6.Memory

open Exec (PGSIZE u64 PGROUNDUP)

/-! ## The code -/

/-- The start of the kernel's memory. -/
def KERNBASE : ℕ := 0x80000000

/-- The end of the machine's memory. -/
def PHYSTOP : ℕ := KERNBASE + 128 * 1024 * 1024

theorem PHYSTOP_eq : PHYSTOP = 2281701376 := rfl

/-- Physical memory and `kmem.freelist`; a null pointer is 0. -/
structure Kmem where
  mem : Memory
  freelist : ℕ

/-- `kfree`: fill the page with junk, then link it; `none` is the panic. -/
def kfree (kernelEnd : ℕ) (k : Kmem) (pa : ℕ) : Option Kmem :=
  if pa % PGSIZE ≠ 0 ∨ pa < kernelEnd ∨ PHYSTOP ≤ pa then none
  else
    let mem := k.mem.memset pa 1 PGSIZE
    some ⟨mem.store64 pa k.freelist, pa⟩

/-- `kalloc`: unlink a page, then fill it with junk. -/
def kalloc (k : Kmem) : ℕ × Kmem :=
  let r := k.freelist
  let freelist := if r ≠ 0 then k.mem.load64 r else k.freelist
  let mem := if r ≠ 0 then k.mem.memset r 5 PGSIZE else k.mem
  (r, ⟨mem, freelist⟩)

theorem kfree_eq_some {base pa : ℕ} {k k' : Kmem} (h : kfree base k pa = some k') :
    (pa % PGSIZE = 0 ∧ base ≤ pa ∧ pa < PHYSTOP) ∧
      k' = ⟨(k.mem.memset pa 1 PGSIZE).store64 pa k.freelist, pa⟩ := by
  rw [kfree] at h
  split at h
  case isTrue => cases h
  case isFalse hok =>
    exact ⟨by omega, (Option.some.inj h).symm⟩

/-- The loop of `freerange`, at the page `p`. -/
def freerangeLoop (kernelEnd paEnd : ℕ) (k : Kmem) (p : ℕ) : Option Kmem :=
  if u64 (p + PGSIZE) ≤ paEnd then
    match _h : kfree kernelEnd k p with
    | none => none
    | some k' => freerangeLoop kernelEnd paEnd k' (u64 (p + PGSIZE))
  else some k
termination_by PHYSTOP - p
decreasing_by
  have hp := (kfree_eq_some (by assumption)).1.2.2
  have hstop := PHYSTOP_eq
  have hsize : PGSIZE = 4096 := rfl
  rw [u64, Nat.mod_eq_of_lt (by omega)]
  omega

/-- `freerange`: free the whole pages between two addresses. -/
def freerange (kernelEnd paStart paEnd : ℕ) (k : Kmem) : Option Kmem :=
  freerangeLoop kernelEnd paEnd k (PGROUNDUP paStart)

/-- `kinit`, with `kmem` as the loader clears it. -/
def kinit (kernelEnd : ℕ) (mem : Memory) : Option Kmem :=
  freerange kernelEnd kernelEnd PHYSTOP ⟨mem, 0⟩

/-! ## What the calls write -/

/-- `kfree` writes to its page only. -/
theorem kfree_mem {base pa b : ℕ} {k k' : Kmem} (h : kfree base k pa = some k')
    (hb : b < pa ∨ pa + PGSIZE ≤ b) : k'.mem b = k.mem b := by
  obtain ⟨-, rfl⟩ := kfree_eq_some h
  have hsize : PGSIZE = 4096 := rfl
  change (k.mem.memset pa 1 PGSIZE).store pa k.freelist 8 b = k.mem b
  rw [Memory.store_of_notMem _ _ (by omega), Memory.memset_of_notMem _ _ hb]

/-- `kalloc` writes to the page that it returns only. -/
theorem kalloc_mem {k : Kmem} {b : ℕ} (hb : b < (kalloc k).1 ∨ (kalloc k).1 + PGSIZE ≤ b) :
    (kalloc k).2.mem b = k.mem b := by
  simp only [kalloc] at hb ⊢
  split
  case isTrue => exact Memory.memset_of_notMem _ _ hb
  case isFalse => rfl

/-! ## The list -/

/-- Two pages that do not overlap. -/
theorem apart {a b : ℕ} (ha : a % PGSIZE = 0) (hb : b % PGSIZE = 0) (h : a ≠ b) :
    a + PGSIZE ≤ b ∨ b + PGSIZE ≤ a := by
  simp only [PGSIZE] at *
  omega

/-- The free list consists of the pages `free`, each once. -/
structure Linked (k : Kmem) (free : List ℕ) : Prop where
  chain : k.mem.Chain k.freelist free
  nodup : free.Nodup
  page : ∀ a ∈ free, a % PGSIZE = 0 ∧ a < PHYSTOP

namespace Linked

variable {k k' : Kmem} {free : List ℕ} {base pa : ℕ}

/-- The head of the list is a 64-bit address. -/
theorem freelist_lt (l : Linked k free) : k.freelist < 256 ^ 8 := by
  have hstop : PHYSTOP < 256 ^ 8 := by decide
  cases free with
  | nil =>
    have hnull : k.freelist = 0 := l.chain
    rw [hnull]
    decide
  | cons a free =>
    have hhead : k.freelist = a := l.chain.1
    rw [hhead]
    exact lt_trans (l.page a (List.mem_cons_self ..)).2 hstop

/-- Writes outside the free pages do not touch the list. -/
theorem of_mem_eq (l : Linked k free) {mem : Memory}
    (h : ∀ a ∈ free, ∀ i < PGSIZE, mem (a + i) = k.mem (a + i)) : Linked ⟨mem, k.freelist⟩ free :=
  ⟨l.chain.congr fun a ha => Memory.load_congr fun i hi =>
    h a ha i (lt_trans hi (by decide)), l.nodup, l.page⟩

/-- `kfree` puts its page in front. -/
theorem kfree (l : Linked k free) (hbase : 0 < base) (hout : pa ∉ free)
    (h : kfree base k pa = some k') : Linked k' (pa :: free) := by
  obtain ⟨⟨halign, hle, hlt⟩, heq⟩ := kfree_eq_some h
  have hlink : k'.mem.load64 pa = k.freelist := by
    rw [heq]
    exact Memory.load_store _ _ l.freelist_lt
  have hrest : k'.mem.Chain k.freelist free := by
    refine l.chain.congr fun a ha => Memory.load_congr fun i hi => kfree_mem h ?_
    have hapart := apart (l.page a ha).1 halign (ne_of_mem_of_not_mem ha hout)
    have hsize : PGSIZE = 4096 := rfl
    omega
  refine ⟨⟨by rw [heq], by omega, by rwa [hlink]⟩, List.nodup_cons.mpr ⟨hout, l.nodup⟩, ?_⟩
  exact List.forall_mem_cons.mpr ⟨⟨halign, hlt⟩, l.page⟩

/-- `kalloc` takes the first page from the list. -/
theorem kalloc {r : ℕ} (l : Linked k (r :: free)) :
    (kalloc k).1 = r ∧ Linked (kalloc k).2 free := by
  obtain ⟨hhead, hr, hrest⟩ := l.chain
  have hnodup := List.nodup_cons.mp l.nodup
  have hpage := List.forall_mem_cons.mp l.page
  have heq : Memory.kalloc k = (r, ⟨k.mem.memset r 5 PGSIZE, k.mem.load64 r⟩) := by
    simp [Memory.kalloc, hhead, hr]
  rw [heq]
  refine ⟨rfl, hrest.congr fun a ha => Memory.load_congr fun i hi => ?_, hnodup.2, hpage.2⟩
  have hapart := apart (hpage.2 a ha).1 hpage.1.1 (ne_of_mem_of_not_mem ha hnodup.1)
  have hsize : PGSIZE = 4096 := rfl
  exact Memory.memset_of_notMem _ _ (by omega)

/-- `kalloc` of an empty list does nothing. -/
theorem kalloc_nil (l : Linked k []) : Memory.kalloc k = (0, k) := by
  have hnull : k.freelist = 0 := l.chain
  obtain ⟨mem, freelist⟩ := k
  subst hnull
  rfl

end Linked

/-! ## Initialisation -/

/-- The whole pages between two addresses. -/
def PageIn (lo hi a : ℕ) : Prop := a % PGSIZE = 0 ∧ lo ≤ a ∧ a + PGSIZE ≤ hi

theorem pageIn_succ {lo p : ℕ} (halign : p % PGSIZE = 0) (hlo : lo ≤ p) (a : ℕ) :
    PageIn lo (p + PGSIZE) a ↔ a = p ∨ PageIn lo p a := by
  simp only [PageIn, PGSIZE] at *
  omega

/-- The loop ends when no whole page is left. -/
theorem pageIn_stop {lo p : ℕ} (halign : p % PGSIZE = 0) (hp : p < 2 ^ 64)
    (hstop : p ≤ PHYSTOP ∨ p = lo) (hgt : ¬u64 (p + PGSIZE) ≤ PHYSTOP) (a : ℕ) :
    PageIn lo p a ↔ PageIn lo PHYSTOP a := by
  simp only [PageIn, PGSIZE, u64, PHYSTOP_eq] at *
  omega

/-- The next page is again at the start of a page, below the end of memory. -/
theorem succ_le_PHYSTOP {p : ℕ} (halign : p % PGSIZE = 0) (hlt : p < PHYSTOP) :
    (p + PGSIZE) % PGSIZE = 0 ∧ p + PGSIZE ≤ PHYSTOP ∧ u64 (p + PGSIZE) = p + PGSIZE := by
  simp only [PGSIZE, u64, PHYSTOP_eq] at *
  omega

/-- The loop of `freerange` frees the pages that are left. -/
theorem freerangeLoop_linked {base lo : ℕ} (hbase : 0 < base) {k k' : Kmem} {p : ℕ}
    {free : List ℕ} (h : freerangeLoop base PHYSTOP k p = some k') (halign : p % PGSIZE = 0)
    (hp : p < 2 ^ 64) (hlo : lo ≤ p) (hstop : p ≤ PHYSTOP ∨ p = lo) (l : Linked k free)
    (hfree : ∀ a, a ∈ free ↔ PageIn lo p a) (habove : ∀ a ∈ free, base ≤ a) :
    ∃ free', Linked k' free' ∧ (∀ a, a ∈ free' ↔ PageIn lo PHYSTOP a) ∧ ∀ a ∈ free', base ≤ a := by
  fun_induction freerangeLoop base PHYSTOP k p generalizing free with
  | case1 => cases h
  | case2 k p hle k₁ hk ih =>
    obtain ⟨⟨-, hbelow, hlt⟩, -⟩ := kfree_eq_some hk
    obtain ⟨halign', hstop', hnext⟩ := succ_le_PHYSTOP halign hlt
    have hlt' : p + PGSIZE < 2 ^ 64 := lt_of_le_of_lt hstop' (by decide)
    have hout : p ∉ free := fun hmem => by
      have hbefore := ((hfree p).mp hmem).2.2
      have : 0 < PGSIZE := by decide
      omega
    rw [hnext] at ih h
    refine ih h halign' hlt' (le_trans hlo (Nat.le_add_right ..)) (Or.inl hstop')
      (l.kfree hbase hout hk) ?_ (List.forall_mem_cons.mpr ⟨hbelow, habove⟩)
    intro a
    rw [List.mem_cons, hfree a, pageIn_succ halign hlo]
  | case3 k p hgt =>
    obtain rfl := Option.some.inj h
    exact ⟨free, l, fun a => (hfree a).trans (pageIn_stop halign hp hstop hgt a), habove⟩

/-- `kinit` frees the whole pages of the managed memory. -/
theorem kinit_linked {base : ℕ} (hbase : 0 < base) {mem : Memory} {k : Kmem}
    (h : kinit base mem = some k) :
    ∃ free, Linked k free ∧ (∀ a, a ∈ free ↔ PageIn (PGROUNDUP base) PHYSTOP a) ∧
      ∀ a ∈ free, base ≤ a := by
  have halign : PGROUNDUP base % PGSIZE = 0 := Nat.mul_mod_left _ _
  have hlt : PGROUNDUP base < 2 ^ 64 := by
    rw [PGROUNDUP, u64]
    exact lt_of_le_of_lt (Nat.div_mul_le_self _ _) (Nat.mod_lt _ (by decide))
  have hempty : ∀ a, a ∈ [] ↔ PageIn (PGROUNDUP base) (PGROUNDUP base) a := by
    intro a
    simp only [List.not_mem_nil, PageIn, PGSIZE, false_iff]
    omega
  have hlinked : Linked ⟨mem, 0⟩ [] := ⟨rfl, List.nodup_nil, List.forall_mem_nil _⟩
  exact freerangeLoop_linked hbase h halign hlt le_rfl (Or.inr rfl) hlinked hempty
    (List.forall_mem_nil _)

/-- The loop does not panic at or above `end`. -/
theorem freerangeLoop_isSome {base : ℕ} {k : Kmem} {p : ℕ} (halign : p % PGSIZE = 0)
    (hbase : base ≤ p) (hp : p + PGSIZE < 2 ^ 64) : (freerangeLoop base PHYSTOP k p).isSome := by
  fun_induction freerangeLoop base PHYSTOP k p with
  | case1 k p hle hk =>
    rw [u64, Nat.mod_eq_of_lt hp] at hle
    have hsize : 0 < PGSIZE := by decide
    rw [kfree, if_neg (by omega)] at hk
    cases hk
  | case2 k p hle k₁ hk ih =>
    obtain ⟨halign', hstop', hnext⟩ := succ_le_PHYSTOP halign (kfree_eq_some hk).1.2.2
    rw [hnext] at ih ⊢
    refine ih halign' (le_trans hbase (Nat.le_add_right ..)) ?_
    exact lt_of_le_of_lt (Nat.add_le_add_right hstop' _) (by decide)
  | case3 => rfl

/-- `kinit` does not panic if rounding `end` up does not wrap around. -/
theorem kinit_isSome {base : ℕ} (h : base + 2 * PGSIZE < 2 ^ 64) (mem : Memory) :
    (kinit base mem).isSome := by
  have hround : base ≤ PGROUNDUP base ∧ PGROUNDUP base + PGSIZE < 2 ^ 64 := by
    simp only [PGROUNDUP, u64, PGSIZE] at *
    omega
  exact freerangeLoop_isSome (Nat.mul_mod_left _ _) hround.1 hround.2

/-! ## The system -/

/-- The allocator, and the pages that `kalloc` has returned and that are not yet freed. -/
structure Allocator where
  kmem : Kmem
  allocated : List ℕ

inductive Act
  | kalloc (r : ℕ)
  | kfree (pa : ℕ)
  /-- The rest of the kernel writes a byte. -/
  | write (a : ℕ)

/-- The calls, and the writes of the rest of the kernel. -/
inductive Step (base : ℕ) : Allocator → Act → Allocator → Prop
  | kalloc {s : Allocator} : Step base s (.kalloc (kalloc s.kmem).1)
      ⟨(kalloc s.kmem).2,
        if (kalloc s.kmem).1 = 0 then s.allocated else (kalloc s.kmem).1 :: s.allocated⟩
  | kfree {s : Allocator} {pa : ℕ} {k : Kmem} (h : pa ∈ s.allocated)
      (hk : kfree base s.kmem pa = some k) :
      Step base s (.kfree pa) ⟨k, s.allocated.erase pa⟩
  | write {s : Allocator} {a : ℕ} (c : UInt8)
      (h : (∃ pa ∈ s.allocated, pa ≤ a ∧ a < pa + PGSIZE) ∨ a < PGROUNDUP base ∨ PHYSTOP ≤ a) :
      Step base s (.write a)
        ⟨⟨Function.update s.kmem.mem a c, s.kmem.freelist⟩, s.allocated⟩

/-- The allocator after `kinit`, with any contents of the memory. -/
def allocator (base : ℕ) : LTS Allocator Act where
  init s := ∃ mem, kinit base mem = some s.kmem ∧ s.allocated = []
  step := Step base

/-- The free and the allocated pages are all pages, each once. -/
structure Conserved (base : ℕ) (s : Allocator) (free : List ℕ) : Prop where
  linked : Linked s.kmem free
  nodup : (free ++ s.allocated).Nodup
  pages : ∀ a, a ∈ free ++ s.allocated ↔ PageIn (PGROUNDUP base) PHYSTOP a
  above : ∀ a ∈ free ++ s.allocated, base ≤ a

namespace Conserved

variable {base : ℕ} {s s' : Allocator} {free free' : List ℕ}

/-- Pages change sides. -/
theorem of_perm (c : Conserved base s free) (l : Linked s'.kmem free')
    (h : (free' ++ s'.allocated).Perm (free ++ s.allocated)) : Conserved base s' free' :=
  ⟨l, h.nodup_iff.mpr c.nodup, fun a => h.mem_iff.trans (c.pages a),
    fun a ha => c.above a (h.mem_iff.mp ha)⟩

/-- An allocated page is not free. -/
theorem notMem_free (c : Conserved base s free) {a : ℕ} (h : a ∈ s.allocated) : a ∉ free :=
  fun hfree => List.disjoint_of_nodup_append c.nodup hfree h

theorem pageIn (c : Conserved base s free) {a : ℕ} (h : a ∈ s.allocated) :
    PageIn (PGROUNDUP base) PHYSTOP a :=
  (c.pages a).mp (List.mem_append_right _ h)

/-- One step keeps the pages. -/
theorem step (hbase : 0 < base) (c : Conserved base s free) {e : Act} (t : Step base s e s') :
    ∃ free', Conserved base s' free' := by
  cases t with
  | kalloc =>
    cases free with
    | nil =>
      refine ⟨[], c.of_perm ?_ ?_⟩
      · rw [c.linked.kalloc_nil]
        exact c.linked
      · rw [c.linked.kalloc_nil]
        exact List.Perm.refl _
    | cons r free =>
      have hr : r ≠ 0 := c.linked.chain.2.1
      obtain ⟨hret, hlinked⟩ := c.linked.kalloc
      refine ⟨free, c.of_perm hlinked ?_⟩
      simp only [hret, if_neg hr]
      exact List.perm_middle
  | @kfree pa k h hk =>
    refine ⟨pa :: free, c.of_perm (c.linked.kfree hbase (c.notMem_free h) hk) ?_⟩
    have hback := (List.perm_cons_erase h).append_left free
    exact List.perm_middle.symm.trans hback.symm
  | @write a b h =>
    refine ⟨free, c.of_perm (c.linked.of_mem_eq fun p hp i hi => ?_) (List.Perm.refl _)⟩
    have hpage := (c.pages p).mp (List.mem_append_left _ hp)
    rw [Function.update_of_ne]
    rcases h with ⟨pa, hpa, hle, hlt⟩ | hlow | hhigh
    · have hapart := apart hpage.1 (c.pageIn hpa).1 (fun heq => c.notMem_free hpa (heq ▸ hp))
      omega
    · have := hpage.2.1
      omega
    · have := hpage.2.2
      omega

/-- A `kfree` of an allocated page does not panic. -/
theorem kfree_isSome (c : Conserved base s free) {pa : ℕ} (h : pa ∈ s.allocated) :
    (kfree base s.kmem pa).isSome := by
  have hpage := c.pageIn h
  have habove := c.above pa (List.mem_append_right _ h)
  have hsize : 0 < PGSIZE := by decide
  have hok : ¬(pa % PGSIZE ≠ 0 ∨ pa < base ∨ PHYSTOP ≤ pa) := by
    have := hpage.1
    have := hpage.2.2
    omega
  rw [kfree, if_neg hok]
  rfl

/-- `kalloc` returns a free page, or 0 when there is none. -/
theorem kalloc_fresh (hbase : 0 < base) (c : Conserved base s free) :
    (kalloc s.kmem).1 ∉ s.allocated ∧
      ((kalloc s.kmem).1 = 0 → ∀ a, PageIn (PGROUNDUP base) PHYSTOP a → a ∈ s.allocated) := by
  cases free with
  | nil =>
    rw [c.linked.kalloc_nil]
    refine ⟨fun hzero => ?_, fun _ a ha => (c.pages a).mpr ha⟩
    have := c.above 0 hzero
    omega
  | cons r free =>
    rw [c.linked.kalloc.1]
    refine ⟨fun halloc => c.notMem_free halloc (List.mem_cons_self ..), fun hzero => ?_⟩
    exact absurd hzero c.linked.chain.2.1

/-- The junk of `kalloc` goes to no allocated page. -/
theorem kalloc_frame (c : Conserved base s free) {pa : ℕ} (h : pa ∈ s.allocated) {i : ℕ}
    (hi : i < PGSIZE) : (kalloc s.kmem).2.mem (pa + i) = s.kmem.mem (pa + i) := by
  cases free with
  | nil => rw [c.linked.kalloc_nil]
  | cons r free =>
    refine kalloc_mem ?_
    rw [c.linked.kalloc.1]
    have hpage := (c.pages r).mp (List.mem_append_left _ (List.mem_cons_self ..))
    have hapart := apart hpage.1 (c.pageIn h).1
      (fun heq => c.notMem_free h (heq ▸ List.mem_cons_self ..))
    omega

/-- The junk of `kfree` goes to the freed page only. -/
theorem kfree_frame (c : Conserved base s free) {pa pa' : ℕ} {k : Kmem} (h : pa ∈ s.allocated)
    (hk : kfree base s.kmem pa = some k) (h' : pa' ∈ s.allocated) (hne : pa' ≠ pa) {i : ℕ}
    (hi : i < PGSIZE) : k.mem (pa' + i) = s.kmem.mem (pa' + i) := by
  have hapart := apart (c.pageIn h).1 (c.pageIn h').1 hne.symm
  exact kfree_mem hk (by omega)

end Conserved

/-- The invariant holds after every run. -/
theorem conserved_of_run {base : ℕ} (hbase : 0 < base) {h : List Act} {s : Allocator}
    (r : (allocator base).Run h s) : ∃ free, Conserved base s free := by
  refine r.invariant (I := fun _ s => ∃ free, Conserved base s free) ?_ ?_
  · rintro s ⟨mem, hinit, hnone⟩
    obtain ⟨free, hlinked, hpages, habove⟩ := kinit_linked hbase hinit
    refine ⟨free, hlinked, ?_, ?_, ?_⟩
    · rw [hnone, List.append_nil]
      exact hlinked.nodup
    · rwa [hnone, List.append_nil]
    · rwa [hnone, List.append_nil]
  · rintro h s e s' - ⟨free, c⟩ t
    exact c.step hbase t

/-- **The page allocator.** After any calls the free list is a list of distinct pages between
`end` and `PHYSTOP`; together with the allocated pages these are exactly the whole pages there,
each once. `kalloc` returns a page that is not in use, or 0 if all are; `kfree` of an allocated
page does not panic; and neither call changes a byte of any other allocated page. -/
theorem allocator_safe {kernelEnd : ℕ} (hend : 0 < kernelEnd) {h : List Act} {s : Allocator}
    (r : (allocator kernelEnd).Run h s) :
    (∃ free, s.kmem.mem.Chain s.kmem.freelist free ∧ (free ++ s.allocated).Nodup ∧
      (∀ a ∈ free, a % PGSIZE = 0 ∧ kernelEnd ≤ a ∧ a < PHYSTOP) ∧
      ∀ a, a ∈ free ++ s.allocated ↔ PageIn (PGROUNDUP kernelEnd) PHYSTOP a) ∧
    (kalloc s.kmem).1 ∉ s.allocated ∧
    ((kalloc s.kmem).1 = 0 → ∀ a, PageIn (PGROUNDUP kernelEnd) PHYSTOP a → a ∈ s.allocated) ∧
    (∀ pa ∈ s.allocated, ∀ i < PGSIZE,
      (kalloc s.kmem).2.mem (pa + i) = s.kmem.mem (pa + i)) ∧
    (∀ pa ∈ s.allocated, ∃ k, kfree kernelEnd s.kmem pa = some k ∧
      ∀ pa' ∈ s.allocated, pa' ≠ pa → ∀ i < PGSIZE, k.mem (pa' + i) = s.kmem.mem (pa' + i)) := by
  obtain ⟨free, c⟩ := conserved_of_run hend r
  refine ⟨⟨free, c.linked.chain, c.nodup, fun a ha => ?_, c.pages⟩, (c.kalloc_fresh hend).1,
    (c.kalloc_fresh hend).2, fun pa hpa i hi => c.kalloc_frame hpa hi, fun pa hpa => ?_⟩
  · have hpage := c.linked.page a ha
    exact ⟨hpage.1, c.above a (List.mem_append_left _ ha), hpage.2⟩
  · obtain ⟨k, hk⟩ := Option.isSome_iff_exists.mp (c.kfree_isSome hpa)
    exact ⟨k, hk, fun pa' hpa' hne i hi => c.kfree_frame hpa hk hpa' hne hi⟩

/-- The allocator of the compiled kernel, after a first `kalloc`. -/
theorem firstPage_safe : ∃ (h : List Act) (s : Allocator), (allocator 0x800211d8).Run h s ∧
    h ≠ [] ∧ (kalloc s.kmem).1 ∉ s.allocated := by
  obtain ⟨k, hk⟩ := Option.isSome_iff_exists.mp
    (kinit_isSome (by decide : 0x800211d8 + 2 * PGSIZE < 2 ^ 64) fun _ => 0)
  have r := (LTS.Run.init (S := allocator 0x800211d8) (s := ⟨k, []⟩) ⟨_, hk, rfl⟩).step Step.kalloc
  exact ⟨_, _, r, nofun, (allocator_safe (by decide) r).2.1⟩

end Xv6.Memory
