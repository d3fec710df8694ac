import Xv6.Exec.Defs
import Xv6.Foundations.Memory
import Xv6.Foundations.Record

/-!
# The initial user stack

`kexec` copies the argument strings below the top of the new stack, then the array of their
addresses below the strings. Every step subtracts in `uint64`, rounds down to a multiple of 16 and
only then compares with `stackbase`; `Placed` says that the subtractions are those of the natural
numbers, by induction on the strings: an address is at least `stackbase`, which is at least the
length of one more string.

The theorems are about any environment of `kexec`: a handler of its calls of which only the result
of `uvmalloc` is assumed. What `kexec` has written is read off the calls it has made (`record`).
-/

namespace Xv6.Exec

open Program

/-! ## The layout -/

/-- Round up to a multiple of 16. -/
def pad16 (n : ℕ) : ℕ := (n + 15) / 16 * 16

/-- The strings are at the addresses, one below the other from `top` down to `bottom`. -/
def Placed (stackbase : ℕ) : ℕ → List (CStr PGSIZE) → List ℕ → ℕ → Prop
  | top, [], [], bottom => bottom = top
  | top, s :: args, a :: addrs, bottom =>
    a + pad16 (s.bytes.length + 1) = top ∧ stackbase ≤ a ∧ Placed stackbase a args addrs bottom
  | _, _, _, _ => False

/-- The strings with their NUL bytes, at their addresses. -/
def strings (args : List (CStr PGSIZE)) (addrs : List ℕ) : List (ℕ × List UInt8) :=
  List.zipWith (fun a s => (a, s.bytes ++ [0])) addrs args

/-- The bytes that the strings take, with their padding. -/
def stringsSize (args : List (CStr PGSIZE)) : ℕ :=
  (args.map fun s => pad16 (s.bytes.length + 1)).sum

theorem le_pad16 (n : ℕ) : n ≤ pad16 n := by
  rw [pad16]
  omega

theorem pad16_mod (n : ℕ) : pad16 n % 16 = 0 := Nat.mul_mod_left _ _

/-- Subtracting and rounding down. -/
theorem sub_round {top n : ℕ} (htop : top % 16 = 0) (h : n ≤ top) :
    top - n - (top - n) % 16 + pad16 n = top := by
  rw [pad16]
  omega

namespace Placed

variable {stackbase top bottom : ℕ} {args : List (CStr PGSIZE)} {addrs : List ℕ}

/-- The lists are built up together, one string and its address at a time. -/
theorem rec_on {motive : ℕ → List (CStr PGSIZE) → List ℕ → Prop} (nil : motive bottom [] [])
    (cons : ∀ {top s args a addrs}, a + pad16 (s.bytes.length + 1) = top → stackbase ≤ a →
      Placed stackbase a args addrs bottom → motive a args addrs →
        motive top (s :: args) (a :: addrs))
    (p : Placed stackbase top args addrs bottom) : motive top args addrs := by
  induction args generalizing top addrs with
  | nil => cases addrs with
    | nil => exact p ▸ nil
    | cons a addrs => exact p.elim
  | cons s args ih => cases addrs with
    | nil => exact p.elim
    | cons a addrs => exact cons p.1 p.2.1 p.2.2 (ih p.2.2)

theorem length_eq (p : Placed stackbase top args addrs bottom) : addrs.length = args.length :=
  p.rec_on (motive := fun _ args addrs => addrs.length = args.length) rfl
    fun _ _ _ ih => congrArg (· + 1) ih

/-- The strings take the bytes between `bottom` and `top`. -/
theorem size_eq (p : Placed stackbase top args addrs bottom) : bottom + stringsSize args = top := by
  refine p.rec_on (motive := fun top args _ => bottom + stringsSize args = top) rfl ?_
  intro top s args a addrs ha _ _ ih
  simp only [stringsSize, List.map_cons, List.sum_cons] at *
  omega

/-- The strings stay above the stack base. -/
theorem le_bottom (p : Placed stackbase top args addrs bottom) (htop : stackbase ≤ top) :
    stackbase ≤ bottom :=
  p.rec_on (motive := fun top _ _ => stackbase ≤ top → stackbase ≤ bottom) id
    (fun _ hbase _ ih _ => ih hbase) htop

theorem bottom_mod (p : Placed stackbase top args addrs bottom) (htop : top % 16 = 0) :
    bottom % 16 = 0 := by
  refine p.rec_on (motive := fun top _ _ => top % 16 = 0 → bottom % 16 = 0) id ?_ htop
  intro top s args a addrs ha _ _ ih hmod
  have := pad16_mod (s.bytes.length + 1)
  exact ih (by omega)

/-- Each string is between the stack base and the top, at an aligned address. -/
theorem mem_strings (p : Placed stackbase top args addrs bottom) (htop : top % 16 = 0) :
    ∀ c ∈ strings args addrs, stackbase ≤ c.1 ∧ bottom ≤ c.1 ∧ c.1 + c.2.length ≤ top ∧
      c.1 % 16 = 0 := by
  refine p.rec_on (motive := fun top args addrs => top % 16 = 0 → ∀ c ∈ strings args addrs,
    stackbase ≤ c.1 ∧ bottom ≤ c.1 ∧ c.1 + c.2.length ≤ top ∧ c.1 % 16 = 0)
    (fun _ => List.forall_mem_nil _) ?_ htop
  intro top s args a addrs ha hbase hrest ih htop
  have hmod := pad16_mod (s.bytes.length + 1)
  have hpad := le_pad16 (s.bytes.length + 1)
  have hsize := hrest.size_eq
  refine List.forall_mem_cons.2 ⟨⟨hbase, ?_, ?_, ?_⟩, fun c hc => ?_⟩
  · exact le_of_le_of_eq (Nat.le_add_right ..) hsize
  · change a + (s.bytes ++ [0]).length ≤ top
    rw [List.length_append, List.length_singleton]
    omega
  · change a % 16 = 0
    omega
  · have hc' := ih (by omega) c hc
    exact ⟨hc'.1, hc'.2.1, by omega, hc'.2.2.2⟩

/-- No two strings overlap. -/
theorem pairwise_strings (p : Placed stackbase top args addrs bottom) (htop : top % 16 = 0) :
    (strings args addrs).Pairwise Memory.Apart := by
  refine p.rec_on (motive := fun top args addrs => top % 16 = 0 →
    (strings args addrs).Pairwise Memory.Apart) (fun _ => List.Pairwise.nil) ?_ htop
  intro top s args a addrs ha hbase hrest ih htop
  have hmod : a % 16 = 0 := by
    have := pad16_mod (s.bytes.length + 1)
    omega
  refine List.pairwise_cons.2 ⟨fun c hc => Or.inr ?_, ih hmod⟩
  exact (hrest.mem_strings hmod c hc).2.2.1

end Placed

/-! ## The strings -/

/-- The copies of these pieces to user memory. -/
def copyouts (pagetable : ℕ) (pieces : List (ℕ × List UInt8)) : List ExecCall :=
  pieces.map fun c => .copyout pagetable c.1 c.2

/-- In range, `uint64` subtraction is that of the natural numbers. -/
theorem sub64_of_le {a b : ℕ} (ha : a < 2 ^ 64) (h : b ≤ a) : sub64 a b = a - b := by
  have hb : u64 b = b := Nat.mod_eq_of_lt (lt_of_le_of_lt h ha)
  rw [sub64, hb, u64]
  omega

section

variable {σ ε : Type*} {h : Handler execCalls σ ε} {pagetable stackbase : ℕ}

/-- What `pushArgs` does: the strings are placed and copied, or there is no room for them. -/
theorem pushArgs_meets (hbase : PGSIZE ≤ stackbase) {args : List (CStr PGSIZE)} {sp : ℕ}
    {ustack : List ℕ} (halign : sp % 16 = 0) (hsp : sp < 2 ^ 64) (hle : stackbase ≤ sp)
    (hargs : ustack.length + args.length < MAXARG) (s : σ × List ExecCall) :
    (pushArgs pagetable stackbase args sp ustack).Meets (record h)
      (fun r s' => ∀ bottom all, r = some (bottom, all) →
        ∃ addrs, all = ustack ++ addrs ∧ Placed stackbase sp args addrs bottom ∧
          s'.2 = s.2 ++ copyouts pagetable (strings args addrs))
      (fun _ => True) s := by
  induction args generalizing sp ustack s with
  | nil =>
    refine meets_pure.2 fun bottom all heq => ⟨[], ?_⟩
    cases heq
    exact ⟨(List.append_nil _).symm, rfl, (List.append_nil _).symm⟩
  | cons str args ih =>
    have hlen : str.bytes.length + 1 ≤ sp := by
      have := str.fits
      omega
    rw [List.length_cons] at hargs
    rw [pushArgs, if_neg (by omega)]
    dsimp only
    rw [sub64_of_le hsp hlen]
    have hround := sub_round halign hlen
    generalize sp - (str.bytes.length + 1) - (sp - (str.bytes.length + 1)) % 16 = a at *
    split
    case isTrue => exact meets_pure.2 fun _ _ heq => nomatch heq
    case isFalse hroom =>
      refine meets_bind.2 (meets_record (fun r s' _ => ?_) fun _ _ => trivial)
      split
      case isTrue => exact meets_pure.2 fun _ _ heq => nomatch heq
      case isFalse =>
        have ha : a % 16 = 0 := by
          have := pad16_mod (str.bytes.length + 1)
          omega
        have hlt : a < 2 ^ 64 := by omega
        have hargs' : (ustack ++ [a]).length + args.length < MAXARG := by
          rw [List.length_append, List.length_singleton]
          omega
        have hrec := ih ha hlt (not_lt.1 hroom) hargs'
          (s', s.2 ++ [.copyout pagetable a (str.bytes ++ [0])])
        refine hrec.post fun r s'' hr bottom all heq => ?_
        obtain ⟨addrs, hall, hplaced, hcalls⟩ := hr bottom all heq
        refine ⟨a :: addrs, ?_, ⟨hround, not_lt.1 hroom, hplaced⟩, ?_⟩
        · rw [hall, List.append_assoc]
          rfl
        · rw [hcalls, List.append_assoc]
          rfl

end

/-! ## The array -/

theorem length_bytes64 (n : ℕ) : (bytes64 n).length = 8 := by simp [bytes64]

/-- The bytes of `argc + 1` words. -/
theorem length_words (l : List ℕ) : (l.flatMap bytes64).length = 8 * l.length := by
  induction l with
  | nil => rfl
  | cons n l ih =>
    rw [List.flatMap_cons, List.length_append, length_bytes64, ih, List.length_cons]
    omega

/-- A word in memory. -/
theorem load64_of_holds {mem : Memory} {a n : ℕ} (hn : n < 2 ^ 64)
    (h : mem.Holds a (bytes64 n)) : mem.load64 a = n := by
  refine Memory.load_eq (lt_of_lt_of_eq hn (by decide)) fun i hi => ?_
  have hi' : i < (bytes64 n).length := by rwa [length_bytes64]
  rw [h i hi']
  simp [bytes64]

/-- The words of an array in memory. -/
theorem load64_of_words {mem : Memory} {a : ℕ} {l : List ℕ} (hl : ∀ n ∈ l, n < 2 ^ 64)
    (h : mem.Holds a (l.flatMap bytes64)) {i n : ℕ} (hi : l[i]? = some n) :
    mem.load64 (a + 8 * i) = n := by
  induction l generalizing a i with
  | nil => cases hi
  | cons w l ih =>
    obtain ⟨hw, hrest⟩ := List.forall_mem_cons.1 hl
    rw [List.flatMap_cons] at h
    obtain ⟨hfirst, hlast⟩ := h.of_append
    cases i with
    | zero =>
      cases hi
      exact load64_of_holds hw hfirst
    | succ i =>
      rw [length_bytes64] at hlast
      have hnext : a + 8 * (i + 1) = a + 8 + 8 * i := by omega
      rw [hnext]
      exact ih hrest hlast hi

/-! ## The stack that kexec builds -/

/-- Where `kexec` has put the parts of the stack: the page table, the top, the array, and the
addresses of the strings. -/
structure UserStack where
  pagetable : ℕ
  sz : ℕ
  array : ℕ
  ustack : List ℕ

namespace UserStack

def stackbase (k : UserStack) : ℕ := k.sz - USERSTACK * PGSIZE

/-- The strings, and the array with its null pointer. -/
def pieces (k : UserStack) (argv : Argv) : List (ℕ × List UInt8) :=
  strings argv.args k.ustack ++ [(k.array, (k.ustack ++ [0]).flatMap bytes64)]

/-- The stack is well formed. -/
structure WellFormed (k : UserStack) (argv : Argv) : Prop where
  /-- The top is the end of the two pages of the stack. -/
  top : k.sz % PGSIZE = 0 ∧ (USERSTACK + 1) * PGSIZE ≤ k.sz ∧ k.sz < 2 ^ 64
  /-- `ustack[0]` to `ustack[argc]` are written, at indices below `MAXARG`. -/
  index : k.ustack.length = argv.args.length ∧ k.ustack.length < MAXARG
  /-- No subtraction wraps around. -/
  placed : ∃ bottom, Placed k.stackbase k.sz argv.args k.ustack bottom ∧
    k.array + pad16 (8 * (k.ustack.length + 1)) = bottom
  inside : ∀ c ∈ k.pieces argv, k.stackbase ≤ c.1 ∧ c.1 + c.2.length ≤ k.sz
  aligned : ∀ c ∈ k.pieces argv, c.1 % 16 = 0
  apart : (k.pieces argv).Pairwise Memory.Apart

/-- The piece of an argument. -/
theorem mem_pieces {k : UserStack} {argv : Argv} {i a : ℕ} {str : CStr PGSIZE}
    (ha : k.ustack[i]? = some a) (hstr : argv.args[i]? = some str) :
    (a, str.bytes ++ [0]) ∈ k.pieces argv := by
  refine List.mem_append_left _ (List.mem_iff_getElem?.2 ⟨i, ?_⟩)
  simp [strings, List.getElem?_zipWith, ha, hstr]

/-- The entries of the array are 64-bit addresses. -/
theorem WellFormed.lt {k : UserStack} {argv : Argv} (w : k.WellFormed argv) :
    ∀ a ∈ k.ustack, a < 2 ^ 64 := by
  intro a ha
  obtain ⟨i, hi⟩ := List.mem_iff_getElem?.1 ha
  have hlt : i < argv.args.length := w.index.1 ▸ (List.getElem?_eq_some_iff.1 hi).1
  have hinside := w.inside _ (mem_pieces hi (List.getElem?_eq_getElem hlt))
  exact lt_of_le_of_lt (le_trans (Nat.le_add_right ..) hinside.2) w.top.2.2

/-- The layout follows from the positions. -/
theorem wellFormed_of_placed {k : UserStack} {argv : Argv} {bottom : ℕ}
    (htop : k.sz % PGSIZE = 0 ∧ (USERSTACK + 1) * PGSIZE ≤ k.sz ∧ k.sz < 2 ^ 64)
    (p : Placed k.stackbase k.sz argv.args k.ustack bottom)
    (harray : k.array + pad16 (8 * (k.ustack.length + 1)) = bottom)
    (hroom : k.stackbase ≤ k.array) : k.WellFormed argv := by
  have hmod : k.sz % 16 = 0 := by
    have := htop.1
    simp only [PGSIZE] at this
    omega
  have hstrings := p.mem_strings hmod
  have hbottom := p.bottom_mod hmod
  have hsize := p.size_eq
  have hpad := le_pad16 (8 * (k.ustack.length + 1))
  have hpadmod := pad16_mod (8 * (k.ustack.length + 1))
  have hwords : ((k.ustack ++ [0]).flatMap bytes64).length = 8 * (k.ustack.length + 1) := by
    rw [length_words, List.length_append, List.length_singleton]
  refine ⟨htop, ⟨p.length_eq, p.length_eq ▸ argv.fits⟩, ⟨bottom, p, harray⟩, ?_, ?_, ?_⟩
  · refine List.forall_mem_append.2 ⟨fun c hc => ?_, List.forall_mem_singleton.2 ⟨hroom, ?_⟩⟩
    · exact ⟨(hstrings c hc).1, (hstrings c hc).2.2.1⟩
    · simp only [hwords]
      omega
  · refine List.forall_mem_append.2 ⟨fun c hc => (hstrings c hc).2.2.2, ?_⟩
    exact List.forall_mem_singleton.2 (by dsimp only; omega)
  · refine List.pairwise_append.2 ⟨p.pairwise_strings hmod, List.pairwise_singleton _ _, ?_⟩
    intro c hc d hd
    rw [List.mem_singleton.1 hd]
    right
    have := (hstrings c hc).2.1
    simp only [hwords]
    omega

end UserStack

/-- The pieces that the calls have copied to a page table's memory. -/
def copiesTo (pagetable : ℕ) (calls : List ExecCall) : List (ℕ × List UInt8) :=
  calls.filterMap fun
    | .copyout pt va src => if pt = pagetable then some (va, src) else none
    | _ => none

/-- The states of the process that the calls have set. -/
def committed (calls : List ExecCall) : List Proc :=
  calls.filterMap fun
    | .setProc p => some p
    | _ => none

/-- A call that neither writes to user memory nor changes the process. -/
def ExecCall.IsQuiet : ExecCall → Prop
  | .copyout .. | .setProc _ => False
  | _ => True

theorem copiesTo_of_quiet {pagetable : ℕ} {calls : List ExecCall} (h : ∀ o ∈ calls, o.IsQuiet) :
    copiesTo pagetable calls = [] := by
  refine List.filterMap_eq_nil_iff.2 fun o ho => ?_
  have := h o ho
  cases o <;> first | rfl | exact this.elim

theorem committed_of_quiet {calls : List ExecCall} (h : ∀ o ∈ calls, o.IsQuiet) :
    committed calls = [] := by
  refine List.filterMap_eq_nil_iff.2 fun o ho => ?_
  have := h o ho
  cases o <;> first | rfl | exact this.elim

theorem copiesTo_copyouts (pagetable : ℕ) (pieces : List (ℕ × List UInt8)) :
    copiesTo pagetable (copyouts pagetable pieces) = pieces := by
  induction pieces with
  | nil => rfl
  | cons c pieces ih =>
    simp only [copyouts, copiesTo] at ih
    simp [copyouts, copiesTo, ih]

theorem committed_copyouts (pagetable : ℕ) (pieces : List (ℕ × List UInt8)) :
    committed (copyouts pagetable pieces) = [] := by
  induction pieces with
  | nil => rfl
  | cons c pieces ih => exact ih

/-! ## kexec -/

/-- The bytes that the strings and the array take, with their padding. -/
def stackSize (argv : Argv) : ℕ := stringsSize argv.args + pad16 (8 * (argv.args.length + 1))

/-- What `uvmalloc` returns: the old size if the new one is less, and otherwise the new size or,
on failure, 0. -/
def UvmallocReturns {σ ε : Type*} (h : Handler execCalls σ ε) : Prop :=
  ∀ s pagetable oldsz newsz xperm (r : ℕ) s',
    h (.uvmalloc pagetable oldsz newsz xperm) s = .ok (r, s') →
      if newsz < oldsz then r = oldsz else r = newsz ∨ r = 0

/-- What a call of `kexec` that does not return -1 has done to the new image. -/
structure Built (k : UserStack) (argv : Argv) (calls : List ExecCall) : Prop where
  wellFormed : k.WellFormed argv
  fits : stackSize argv ≤ USERSTACK * PGSIZE
  copies : copiesTo k.pagetable calls = k.pieces argv
  process : ∃ p, committed calls = [p] ∧ p.pagetable = k.pagetable ∧ p.sz = k.sz ∧
    p.trapframe.word Trapframe.sp = k.array ∧ p.trapframe.word Trapframe.a1 = k.array

/-- The postcondition of `kexec`. -/
def KexecPost (argv : Argv) (r : ℤ) (calls : List ExecCall) : Prop :=
  r = -1 ∨ ∃ k, Built k argv calls ∧ r = k.ustack.length

section

variable {σ ε : Type*} {h : Handler execCalls σ ε}

/-- The exit `bad` returns -1. -/
theorem bad_meets (pagetable sz ip : ℕ) (s : σ × List ExecCall) :
    (bad pagetable sz ip).Meets (record h) (fun r _ => r = -1) (fun _ => True) s := by
  have hend : ∀ s, (if ip ≠ 0 then do
      call (.iunlockput ip)
      call .endOp
      pure (-1)
    else pure (-1) : Code ℤ).Meets (record h) (fun r _ => r = -1) (fun _ => True) s := by
    intro s
    split
    · exact meets_bind.2 (meets_true.post fun _ _ _ => meets_bind.2
        (meets_true.post fun _ _ _ => meets_pure.2 rfl))
    · exact meets_pure.2 rfl
  unfold bad
  dsimp only
  split
  · exact meets_bind.2 (meets_true.post fun _ s' _ => hend s')
  · exact hend s

end

/-! ### The calls before the stack -/

theorem only_stop {α : Type} {o : ExecCall} {hres : o.Result = Empty} (ho : o.IsQuiet) :
    (stop o hres : Code α).Only ExecCall.IsQuiet :=
  ⟨ho, fun r => (hres ▸ r : Empty).elim⟩

theorem only_procPagetable (trampoline : ℕ) (p : Proc) :
    (procPagetable trampoline p).Only ExecCall.IsQuiet := by
  refine only_bind (only_op trivial) fun pagetable => ?_
  split
  · exact only_pure _
  · refine only_bind (only_op trivial) fun r => ?_
    split
    · exact only_bind (only_op trivial) fun _ => only_pure _
    · refine only_bind (only_op trivial) fun r => ?_
      split
      · exact only_bind (only_op trivial) fun _ => only_bind (only_op trivial) fun _ => only_pure _
      · exact only_pure _

theorem only_procFreepagetable (pagetable sz : ℕ) :
    (procFreepagetable pagetable sz).Only ExecCall.IsQuiet :=
  only_bind (only_op trivial) fun _ => only_bind (only_op trivial) fun _ => only_op trivial

theorem only_loadsegLoop (pagetable va ip offset sz k i : ℕ) :
    (loadsegLoop pagetable va ip offset sz k i).Only ExecCall.IsQuiet := by
  induction k generalizing i with
  | zero =>
    rw [loadsegLoop]
    split
    · exact only_stop trivial
    · exact only_pure _
  | succ k ih =>
    rw [loadsegLoop]
    split
    · refine only_bind (only_op trivial) fun pa => ?_
      split
      · exact only_stop trivial
      · dsimp only
        generalize (if sz - i < PGSIZE then sz - i else PGSIZE) = n
        refine only_bind (only_op trivial) fun r => ?_
        split
        · exact only_pure _
        · exact ih _
    · exact only_pure _

theorem only_loadSegments (pagetable ip k off sz : ℕ) :
    (loadSegments pagetable ip k off sz).Only ExecCall.IsQuiet := by
  induction k generalizing off sz with
  | zero => exact only_pure _
  | succ k ih =>
    refine only_bind (only_op trivial) fun b => ?_
    split
    · exact only_pure _
    · dsimp only
      split
      · exact ih _ _
      · split
        · exact only_pure _
        · split
          · exact only_pure _
          · split
            · exact only_pure _
            · refine only_bind (only_op trivial) fun sz1 => ?_
              split
              · exact only_pure _
              · refine only_bind (only_loadsegLoop ..) fun r => ?_
                split
                · exact only_pure _
                · exact ih _ _

section

variable {σ ε : Type*} {h : Handler execCalls σ ε}

/-- A part of the program before the first call of interest. -/
theorem quiet_bind {α β : Type} {c : Code α} {f : α → Code β} {Q : β → σ × List ExecCall → Prop}
    {s : σ × List ExecCall} (hs : ∀ o ∈ s.2, o.IsQuiet) (hc : c.Only ExecCall.IsQuiet)
    (hf : ∀ a s', (∀ o ∈ s'.2, o.IsQuiet) → (f a).Meets (record h) Q (fun _ => True) s') :
    (c >>= f).Meets (record h) Q (fun _ => True) s := by
  refine meets_bind.2 ((hc.meets s).post fun a s' ⟨l, hl, hquiet⟩ => hf a s' ?_)
  rw [hl]
  exact List.forall_mem_append.2 ⟨hs, hquiet⟩

/-- A call of no interest, whose result matters. -/
theorem quiet_call {β : Type} {o : ExecCall} {f : o.Result → Code β}
    {Q : β → σ × List ExecCall → Prop} {s : σ × List ExecCall} (hs : ∀ o ∈ s.2, o.IsQuiet)
    (ho : o.IsQuiet)
    (hf : ∀ r s', h o s.1 = .ok (r, s'.1) → (∀ o ∈ s'.2, o.IsQuiet) →
      (f r).Meets (record h) Q (fun _ => True) s') :
    (call o >>= f).Meets (record h) Q (fun _ => True) s := by
  refine meets_bind.2 (meets_record (fun r s' hr => hf r (s', s.2 ++ [o]) hr ?_) fun _ _ => trivial)
  exact List.forall_mem_append.2 ⟨hs, List.forall_mem_singleton.2 ho⟩

omit h in
/-- The top of the stack pages: a page boundary at least two pages up. -/
theorem stack_top {sz sz1 : ℕ}
    (hret : if u64 (PGROUNDUP sz + (USERSTACK + 1) * PGSIZE) < PGROUNDUP sz then sz1 = PGROUNDUP sz
      else sz1 = u64 (PGROUNDUP sz + (USERSTACK + 1) * PGSIZE) ∨ sz1 = 0) (hne : sz1 ≠ 0) :
    sz1 % PGSIZE = 0 ∧ (USERSTACK + 1) * PGSIZE ≤ sz1 ∧ sz1 < 2 ^ 64 := by
  have hround : PGROUNDUP sz % 4096 = 0 ∧ PGROUNDUP sz < 2 ^ 64 := by
    simp only [PGROUNDUP, PGSIZE, u64]
    omega
  have hsize : (USERSTACK + 1) * PGSIZE = 8192 := rfl
  have hpage : PGSIZE = 4096 := rfl
  generalize PGROUNDUP sz = base at *
  rw [hsize, u64] at hret
  rw [hsize, hpage]
  split at hret
  case isTrue hwrap => omega
  case isFalse hwrap => omega

/-- The last part of `kexec` sets the process once. -/
theorem commit_meets (pagetable sz sp argc oldsz : ℕ) (elf : Elfhdr) (path : List UInt8)
    (s : σ × List ExecCall) :
    (commit pagetable sz sp argc oldsz elf path).Meets (record h)
      (fun r s' => r = argc ∧ ∃ p l, s'.2 = s.2 ++ .myproc :: .setProc p :: l ∧
        (∀ o ∈ l, o.IsQuiet) ∧ p.pagetable = pagetable ∧ p.sz = sz ∧
        p.trapframe.word Trapframe.sp = sp ∧ p.trapframe.word Trapframe.a1 = sp)
      (fun _ => True) s := by
  refine meets_bind.2 (meets_record (fun (p : Proc) s₁ _ => ?_) fun _ _ => trivial)
  dsimp only
  refine meets_bind.2 (meets_record (fun _ s₂ _ => ?_) fun _ _ => trivial)
  refine meets_bind.2 (((only_procFreepagetable p.pagetable oldsz).meets _).post ?_)
  rintro _ s₃ ⟨l, hl, hquiet⟩
  rw [List.append_assoc, List.append_assoc] at hl
  refine meets_pure.2 ⟨rfl, _, l, hl, hquiet, rfl, rfl, ?_, ?_⟩
  · simp [Trapframe.set]
  · simp [Trapframe.set, Trapframe.a1, Trapframe.sp, Trapframe.epc]

/-- What the calls of a successful set-up have copied and set. -/
theorem built_of_calls {k : UserStack} {argv : Argv} {quiet quiet' calls : List ExecCall} {p : Proc}
    (hwf : k.WellFormed argv) (hfits : stackSize argv ≤ USERSTACK * PGSIZE)
    (hquiet : ∀ o ∈ quiet, o.IsQuiet) (hquiet' : ∀ o ∈ quiet', o.IsQuiet)
    (hcalls : calls = quiet ++ copyouts k.pagetable (k.pieces argv) ++
      .myproc :: .setProc p :: quiet')
    (hp : p.pagetable = k.pagetable ∧ p.sz = k.sz ∧ p.trapframe.word Trapframe.sp = k.array ∧
      p.trapframe.word Trapframe.a1 = k.array) : Built k argv calls := by
  have happ : ∀ (pt : ℕ) (l l' : List ExecCall),
      copiesTo pt (l ++ l') = copiesTo pt l ++ copiesTo pt l' := fun _ _ _ => List.filterMap_append
  have happ' : ∀ l l' : List ExecCall, committed (l ++ l') = committed l ++ committed l' :=
    fun _ _ => List.filterMap_append
  refine ⟨hwf, hfits, ?_, p, ?_, hp⟩
  · rw [hcalls, happ, happ, copiesTo_of_quiet hquiet, copiesTo_copyouts]
    have hrest : copiesTo k.pagetable (.myproc :: .setProc p :: quiet') =
        copiesTo k.pagetable quiet' := rfl
    rw [hrest, copiesTo_of_quiet hquiet', List.append_nil, List.nil_append]
  · rw [hcalls, happ', happ', committed_of_quiet hquiet, committed_copyouts]
    exact congrArg (p :: ·) (committed_of_quiet hquiet')

/-- The array, once the strings are placed and copied. -/
theorem pushArray_meets {pagetable sz stackbase sp : ℕ} {ustack : List ℕ} {argv : Argv}
    {s s₁ : σ × List ExecCall} (hs : ∀ o ∈ s.2, o.IsQuiet)
    (hplaced : Placed stackbase sz argv.args ustack sp)
    (hcalls : s₁.2 = s.2 ++ copyouts pagetable (strings argv.args ustack))
    (hbase : stackbase = sz - USERSTACK * PGSIZE)
    (htop : sz % PGSIZE = 0 ∧ (USERSTACK + 1) * PGSIZE ≤ sz ∧ sz < 2 ^ 64) (oldsz : ℕ)
    (elf : Elfhdr) (path : List UInt8) :
    (let argc := ustack.length
      let sp := sub64 sp ((argc + 1) * 8)
      let sp := sp - sp % 16
      if sp < stackbase then bad pagetable sz 0
      else do
        let r : ℤ ← call (.copyout pagetable sp ((ustack ++ [0]).flatMap bytes64))
        if r < 0 then bad pagetable sz 0
        else commit pagetable sz sp argc oldsz elf path : Code ℤ).Meets (record h)
      (fun r s' => KexecPost argv r s'.2) (fun _ => True) s₁ := by
  have hroom : PGSIZE ≤ stackbase := hbase ▸ Nat.le_sub_of_add_le htop.2.1
  have hle : stackbase ≤ sz := hbase ▸ Nat.sub_le ..
  have hmod : sz % 16 = 0 := by
    have := htop.1
    simp only [PGSIZE] at this
    omega
  have hbottom := hplaced.le_bottom hle
  have hsize := hplaced.size_eq
  have hlen := hplaced.length_eq
  have hwords : (ustack.length + 1) * 8 ≤ sp := by
    have hfits := argv.fits
    simp only [MAXARG] at hfits
    have hpage : PGSIZE = 4096 := rfl
    omega
  have hsp : sp < 2 ^ 64 := lt_of_le_of_lt (le_of_le_of_eq (Nat.le_add_right ..) hsize) htop.2.2
  have hround := sub_round (hplaced.bottom_mod hmod) hwords
  dsimp only
  rw [sub64_of_le hsp hwords]
  generalize sp - (ustack.length + 1) * 8 - (sp - (ustack.length + 1) * 8) % 16 = array at *
  rw [Nat.mul_comm] at hround
  have hbad : ∀ s, (bad pagetable sz 0).Meets (record h)
      (fun r s' => KexecPost argv r s'.2) (fun _ => True) s :=
    fun s => (bad_meets pagetable sz 0 s).post fun r s' hr => Or.inl hr
  split
  case isTrue => exact hbad _
  case isFalse hfit =>
    refine meets_bind.2 (meets_record (fun (r : ℤ) s₂ _ => ?_) fun _ _ => trivial)
    split
    case isTrue => exact hbad _
    case isFalse =>
      refine (commit_meets pagetable sz array ustack.length oldsz elf path _).post ?_
      rintro r s₃ ⟨rfl, p', l, hlog, hquiet, hp⟩
      let k : UserStack := ⟨pagetable, sz, array, ustack⟩
      have hk : k.stackbase = stackbase := hbase.symm
      have hwf : k.WellFormed argv :=
        UserStack.wellFormed_of_placed htop (hk ▸ hplaced) hround (hk ▸ not_lt.1 hfit)
      refine Or.inr ⟨k, built_of_calls hwf ?_ hs hquiet ?_ hp, rfl⟩
      · rw [stackSize, ← hlen]
        omega
      · have hpieces : copyouts k.pagetable (k.pieces argv) =
            copyouts pagetable (strings argv.args ustack) ++
              [.copyout pagetable array ((ustack ++ [0]).flatMap bytes64)] := List.map_append
        rw [hlog, hcalls, hpieces]
        exact congrArg (· ++ ExecCall.myproc :: ExecCall.setProc p' :: l)
          (List.append_assoc (α := ExecCall) s.2 _ _)

/-- The stack pages and the arguments. -/
theorem setupStack_meets (huv : UvmallocReturns h) (pagetable sz : ℕ) (elf : Elfhdr)
    (path : List UInt8) (argv : Argv) {s : σ × List ExecCall} (hs : ∀ o ∈ s.2, o.IsQuiet) :
    (setupStack pagetable sz elf path argv).Meets (record h)
      (fun r s' => KexecPost argv r s'.2) (fun _ => True) s := by
  have hbad : ∀ sz s, (bad pagetable sz 0).Meets (record h)
      (fun r s' => KexecPost argv r s'.2) (fun _ => True) s :=
    fun sz s => (bad_meets pagetable sz 0 s).post fun r s' hr => Or.inl hr
  refine quiet_bind hs (only_op trivial) fun p s hs => ?_
  dsimp only
  refine quiet_call hs trivial fun (sz1 : ℕ) s huvm hs => ?_
  have hsz1 := huv _ _ _ _ _ sz1 _ huvm
  split
  case isTrue => exact hbad ..
  case isFalse hne =>
    have htop := stack_top hsz1 hne
    refine quiet_bind hs (only_op trivial) fun _ s hs => ?_
    have hbase : sub64 sz1 (USERSTACK * PGSIZE) = sz1 - USERSTACK * PGSIZE :=
      sub64_of_le htop.2.2 (le_trans (by decide) htop.2.1)
    rw [hbase]
    have hmod : sz1 % 16 = 0 := by
      have := htop.1
      simp only [PGSIZE] at this
      omega
    have hroom : PGSIZE ≤ sz1 - USERSTACK * PGSIZE := Nat.le_sub_of_add_le htop.2.1
    have hle : sz1 - USERSTACK * PGSIZE ≤ sz1 := Nat.sub_le ..
    have hargs : ([] : List ℕ).length + argv.args.length < MAXARG := by
      rw [List.length_nil, Nat.zero_add]
      exact argv.fits
    generalize hstack : sz1 - USERSTACK * PGSIZE = stackbase at *
    refine meets_bind.2 ((pushArgs_meets hroom hmod htop.2.2 hle hargs s).post fun r s₁ hr => ?_)
    cases r with
    | none => exact hbad ..
    | some pushed =>
      obtain ⟨addrs, hall, hplaced, hcalls⟩ := hr pushed.1 pushed.2 rfl
      rw [List.nil_append] at hall
      exact pushArray_meets hs (hall ▸ hplaced) (hall ▸ hcalls) hstack.symm htop p.sz elf path

/-- The whole of `kexec`. -/
theorem kexec_meets (huv : UvmallocReturns h) (trampoline : ℕ) (path : List UInt8) (argv : Argv)
    (s : σ) :
    (kexec trampoline path argv).Meets (record h) (fun r s' => KexecPost argv r s'.2)
      (fun _ => True) (s, []) := by
  have hbad : ∀ pagetable sz ip s, (bad pagetable sz ip).Meets (record h)
      (fun r s' => KexecPost argv r s'.2) (fun _ => True) s :=
    fun pagetable sz ip s => (bad_meets pagetable sz ip s).post fun r s' hr => Or.inl hr
  refine quiet_bind (List.forall_mem_nil _) (only_op trivial) fun _ s hs => ?_
  refine quiet_bind hs (only_op trivial) fun ip s hs => ?_
  split
  · exact meets_bind.2 (meets_true.post fun _ _ _ => meets_pure.2 (Or.inl rfl))
  · refine quiet_bind hs (only_op trivial) fun _ s hs => ?_
    refine quiet_bind hs (only_op trivial) fun b s hs => ?_
    split
    · exact hbad ..
    · dsimp only
      split
      · exact hbad ..
      · refine quiet_bind hs (only_op trivial) fun p s hs => ?_
        refine quiet_bind hs (only_procPagetable trampoline p) fun pagetable s hs => ?_
        split
        · exact hbad ..
        · refine quiet_bind hs (only_loadSegments ..) fun r s hs => ?_
          cases r with
          | error sz => exact hbad ..
          | ok sz =>
            refine quiet_bind hs (only_op trivial) fun _ s hs => ?_
            refine quiet_bind hs (only_op trivial) fun _ s hs => ?_
            exact setupStack_meets huv pagetable sz _ path argv hs

/-- The calls of a run of `kexec`. -/
def callsOf (h : Handler execCalls σ ε) (c : Code ℤ) (s : σ) : List ExecCall :=
  (c.trace h s).map Prod.fst

/-- **The initial user stack.** If `kexec` does not return -1, the stack that it has built is well
formed, user memory holds a copy of every argument at its entry of the array and a null pointer
after them, and the saved `sp` and `a1` of the process are the address of the array. If the
strings and the array do not fit in the stack pages, it returns -1. -/
theorem kexec_stack (huv : UvmallocReturns h) (trampoline : ℕ) (path : List UInt8) (argv : Argv)
    {s s' : σ} {r : ℤ} (hr : (kexec trampoline path argv).run h s = .ok (r, s')) :
    (r ≠ -1 → ∃ k : UserStack, k.WellFormed argv ∧ r = k.ustack.length ∧
      (∀ mem : Memory,
        let user := mem.copies (copiesTo k.pagetable (callsOf h (kexec trampoline path argv) s))
        (∀ (i a : ℕ) str, k.ustack[i]? = some a → argv.args[i]? = some str →
          user.Holds a (str.bytes ++ [0])) ∧
        ∀ i a : ℕ, (k.ustack ++ [0])[i]? = some a → user.load64 (k.array + 8 * i) = a) ∧
      ∃ p, committed (callsOf h (kexec trampoline path argv) s) = [p] ∧
        p.pagetable = k.pagetable ∧ p.sz = k.sz ∧
        p.trapframe.word Trapframe.sp = k.array ∧ p.trapframe.word Trapframe.a1 = k.array) ∧
    (USERSTACK * PGSIZE < stackSize argv → r = -1) := by
  have hrecord := run_record (h := h) (kexec trampoline path argv) s []
  rw [hr] at hrecord
  have hpost := (kexec_meets huv trampoline path argv s).run_ok hrecord
  change KexecPost argv r (callsOf h (kexec trampoline path argv) s) at hpost
  generalize callsOf h (kexec trampoline path argv) s = calls at *
  rcases hpost with hfail | ⟨k, hbuilt, hargc⟩
  · exact ⟨fun hne => absurd hfail hne, fun _ => hfail⟩
  · refine ⟨fun _ => ⟨k, hbuilt.wellFormed, hargc, fun mem => ?_, hbuilt.process⟩, fun hlarge => ?_⟩
    · rw [hbuilt.copies]
      have hheld := Memory.holds_copies hbuilt.wellFormed.apart mem
      have harray := hheld _ (List.mem_append_right _ (List.mem_singleton_self _))
      refine ⟨fun i a str ha hstr => ?_, fun i a ha => ?_⟩
      · exact hheld _ (UserStack.mem_pieces ha hstr)
      · refine load64_of_words (List.forall_mem_append.2 ⟨hbuilt.wellFormed.lt, ?_⟩) harray ha
        exact List.forall_mem_singleton.2 (by decide)
    · exact absurd hbuilt.fits (not_le.2 hlarge)

end

/-! ## A program without segments -/

/-- The first bytes of an executable file with no program headers. -/
def emptyElf : List UInt8 := [0x7F, 0x45, 0x4C, 0x46] ++ List.replicate 60 0

/-- A process of one page. -/
def caller : Proc where
  pagetable := 1
  sz := PGSIZE
  trapframe := ⟨0, fun _ => 0⟩
  name := []
  ofile _ := 0

/-- An environment with that file, and with memory enough. -/
def emptyProgram : Handler execCalls Unit String := fun o _ =>
  match o with
  | .namei _ => .ok ((1 : ℕ), ())
  | .readi .. => .ok (emptyElf, ())
  | .readiTo _ _ _ n => .ok (n, ())
  | .uvmcreate => .ok ((2 : ℕ), ())
  | .uvmalloc _ oldsz newsz _ => .ok ((if newsz < oldsz then oldsz else newsz : ℕ), ())
  | .walkaddr .. => .ok ((1 : ℕ), ())
  | .kalloc => .ok ((1 : ℕ), ())
  | .mappages .. => .ok ((0 : ℤ), ())
  | .copyout .. => .ok ((0 : ℤ), ())
  | .copyin .. => .ok (none, ())
  | .copyinstr .. => .ok (none, ())
  | .myproc => .ok (caller, ())
  | .panic msg => .error msg
  | .restart => .error "restart"
  | .beginOp | .endOp | .ilock _ | .iunlockput _ | .uvmunmap .. | .uvmfree .. | .uvmclear ..
  | .kfree _ | .setProc _ => .ok ((), ())

theorem emptyProgram_uvmalloc : UvmallocReturns emptyProgram := by
  intro s pagetable oldsz newsz xperm r s' hr
  have hval : (if newsz < oldsz then oldsz else newsz : ℕ) = r :=
    congrArg Prod.fst (Except.ok.inj hr)
  rw [← hval]
  split
  case isTrue => rfl
  case isFalse => exact Or.inl rfl

/-- `exec("ls", {"ls"})`. -/
def oneArg : Argv := ⟨[⟨[108, 115], by decide, by decide⟩], by decide⟩

theorem emptyProgram_stack : ∃ k : UserStack, k.WellFormed oneArg ∧ k.ustack.length = 1 := by
  have hrun : (kexec 0 [108, 115] oneArg).run emptyProgram () = .ok (1, ()) := by rfl
  obtain ⟨k, hwf, hlen, -⟩ :=
    (kexec_stack emptyProgram_uvmalloc 0 [108, 115] oneArg hrun).1 (by decide)
  exact ⟨k, hwf, by exact_mod_cast hlen.symm⟩

end Xv6.Exec
