import Mathlib.Algebra.Order.Ring.Int
import Mathlib.Data.List.Nodup
import Mathlib.Logic.Function.Basic

/-!
# Byte memory and lists threaded through it

A memory is a function from addresses to bytes, with 64-bit words in little-endian order.
`Chain mem p l` says that the pointer `p` starts a linked list of the nodes `l`, in which the
first word of each node points to the next and the last pointer is null. A chain depends on the
first words of its nodes only (`Chain.congr`).
-/

namespace Xv6

/-- A byte memory. -/
abbrev Memory := ℕ → UInt8

namespace Memory

/-- Fill `n` bytes from `a` on with `c`. -/
def memset (mem : Memory) (a : ℕ) (c : UInt8) : ℕ → Memory
  | 0 => mem
  | n + 1 => Function.update (memset mem a c n) (a + n) c

/-- The filled bytes. -/
theorem memset_of_mem (mem : Memory) {a b : ℕ} (c : UInt8) {n : ℕ} (h : a ≤ b) (h' : b < a + n) :
    mem.memset a c n b = c := by
  induction n with
  | zero => omega
  | succ n ih =>
    rw [memset, Function.update_apply]
    split
    case isTrue => rfl
    case isFalse hb => exact ih (by omega)

/-- All other bytes. -/
theorem memset_of_notMem (mem : Memory) {a b : ℕ} (c : UInt8) {n : ℕ} (h : b < a ∨ a + n ≤ b) :
    mem.memset a c n b = mem b := by
  induction n with
  | zero => rfl
  | succ n ih => rw [memset, Function.update_of_ne (by omega), ih (by omega)]

/-- The number in the `k` bytes at `a`. -/
def load (mem : Memory) (a : ℕ) : ℕ → ℕ
  | 0 => 0
  | k + 1 => (mem a).toNat + 256 * load mem (a + 1) k

/-- Store the low `k` bytes of a number at `a`. -/
def store (mem : Memory) (a : ℕ) (v : ℕ) : ℕ → Memory
  | 0 => mem
  | k + 1 => Function.update (store mem (a + 1) (v / 256) k) a (UInt8.ofNat v)

theorem load_lt (mem : Memory) (a k : ℕ) : mem.load a k < 256 ^ k := by
  induction k generalizing a with
  | zero => exact Nat.one_pos
  | succ k ih =>
    have hbyte : (mem a).toNat < 256 := (mem a).toNat_lt
    have hrest := ih (a + 1)
    rw [load, Nat.pow_succ']
    omega

/-- A number depends on its own bytes. -/
theorem load_congr {mem mem' : Memory} {a k : ℕ} (h : ∀ i < k, mem' (a + i) = mem (a + i)) :
    mem'.load a k = mem.load a k := by
  induction k generalizing a with
  | zero => rfl
  | succ k ih =>
    have hfirst : mem' a = mem a := h 0 (Nat.succ_pos k)
    rw [load, load, hfirst, ih]
    intro i hi
    have hnext := h (i + 1) (Nat.succ_lt_succ hi)
    rwa [Nat.add_assoc, Nat.add_comm 1 i]

/-- Cleared bytes hold zero. -/
theorem load_memset_zero (mem : Memory) {a base n k : ℕ} (hlow : base ≤ a)
    (hhigh : a + k ≤ base + n) : (mem.memset base 0 n).load a k = 0 := by
  induction k generalizing a with
  | zero => rfl
  | succ k ih =>
    rw [load, memset_of_mem _ _ hlow (by omega), ih (by omega) (by omega)]
    rfl

/-- Only the bytes of the number change. -/
theorem store_of_notMem (mem : Memory) {a b : ℕ} (v : ℕ) {k : ℕ} (h : b < a ∨ a + k ≤ b) :
    mem.store a v k b = mem b := by
  induction k generalizing a v with
  | zero => rfl
  | succ k ih => rw [store, Function.update_of_ne (by omega), ih _ (by omega)]

/-- A store in two memories that agree at `b`. -/
theorem store_congr {mem mem' : Memory} (a : ℕ) {b : ℕ} (v k : ℕ) (h : mem' b = mem b) :
    mem'.store a v k b = mem.store a v k b := by
  induction k generalizing a v with
  | zero => exact h
  | succ k ih =>
    rw [store, store, Function.update_apply, Function.update_apply, ih]

/-- What is stored is what is loaded. -/
theorem load_store (mem : Memory) (a : ℕ) {v k : ℕ} (h : v < 256 ^ k) :
    (mem.store a v k).load a k = v := by
  induction k generalizing a v with
  | zero => rw [load]; omega
  | succ k ih =>
    have hrest : (mem.store a v (k + 1)).load (a + 1) k =
        (mem.store (a + 1) (v / 256) k).load (a + 1) k := by
      refine load_congr fun i _ => ?_
      rw [store, Function.update_of_ne (by omega)]
    have hdiv : v / 256 < 256 ^ k := by
      rw [Nat.div_lt_iff_lt_mul (by decide), ← Nat.pow_succ]
      exact h
    rw [load, hrest, ih _ hdiv, store, Function.update_self]
    have hbyte : (UInt8.ofNat v).toNat = v % 256 := by simp
    omega

/-- A number given by its bytes. -/
theorem load_eq {mem : Memory} {a v k : ℕ} (hv : v < 256 ^ k)
    (h : ∀ i < k, mem (a + i) = UInt8.ofNat (v / 256 ^ i)) : mem.load a k = v := by
  induction k generalizing a v with
  | zero => rw [load]; omega
  | succ k ih =>
    have hdiv : v / 256 < 256 ^ k := by
      rw [Nat.div_lt_iff_lt_mul (by decide), ← Nat.pow_succ]
      exact hv
    have hrest : mem.load (a + 1) k = v / 256 := by
      refine ih hdiv fun i hi => ?_
      rw [Nat.add_assoc, Nat.add_comm 1 i, h (i + 1) (Nat.succ_lt_succ hi), Nat.div_div_eq_div_mul,
        Nat.pow_succ']
    have hfirst : mem a = UInt8.ofNat v := by
      have := h 0 (Nat.succ_pos k)
      rwa [Nat.pow_zero, Nat.div_one] at this
    rw [load, hrest, hfirst]
    have hbyte : (UInt8.ofNat v).toNat = v % 256 := by simp
    omega

/-! ## Copies -/

/-- Copy bytes to `a`. -/
def copy (mem : Memory) (a : ℕ) (bytes : List UInt8) : Memory := fun b =>
  if a ≤ b then (bytes[b - a]?).getD (mem b) else mem b

/-- The memory holds these bytes at `a`. -/
def Holds (mem : Memory) (a : ℕ) (bytes : List UInt8) : Prop :=
  ∀ i, (h : i < bytes.length) → mem (a + i) = bytes[i]

theorem holds_copy (mem : Memory) (a : ℕ) (bytes : List UInt8) :
    (mem.copy a bytes).Holds a bytes := by
  intro i hi
  simp [copy, hi]

/-- A copy changes its own range only. -/
theorem copy_of_notMem (mem : Memory) {a b : ℕ} {bytes : List UInt8}
    (h : b < a ∨ a + bytes.length ≤ b) : mem.copy a bytes b = mem b := by
  rw [copy]
  split
  case isTrue hle =>
    rw [List.getElem?_eq_none (by omega)]
    rfl
  case isFalse => rfl

/-- A copy to a range apart leaves the bytes. -/
theorem Holds.copy {mem : Memory} {a a' : ℕ} {bytes bytes' : List UInt8} (h : mem.Holds a bytes)
    (hapart : a + bytes.length ≤ a' ∨ a' + bytes'.length ≤ a) :
    (mem.copy a' bytes').Holds a bytes := by
  intro i hi
  rw [copy_of_notMem mem (by omega)]
  exact h i hi

/-- Bytes in two parts. -/
theorem Holds.of_append {mem : Memory} {a : ℕ} {bytes bytes' : List UInt8}
    (h : mem.Holds a (bytes ++ bytes')) :
    mem.Holds a bytes ∧ mem.Holds (a + bytes.length) bytes' := by
  constructor
  · intro i hi
    have := h i (by rw [List.length_append]; omega)
    rwa [List.getElem_append_left hi] at this
  · intro i hi
    have := h (bytes.length + i) (by rw [List.length_append]; omega)
    rw [List.getElem_append_right (Nat.le_add_right ..)] at this
    simpa [Nat.add_assoc] using this

/-- Two pieces of memory, given by their addresses and their bytes, do not overlap. -/
def Apart (c d : ℕ × List UInt8) : Prop := c.1 + c.2.length ≤ d.1 ∨ d.1 + d.2.length ≤ c.1

/-- Copy pieces one after the other. -/
def copies (mem : Memory) (l : List (ℕ × List UInt8)) : Memory :=
  l.foldl (fun m c => m.copy c.1 c.2) mem

theorem Holds.copies {mem : Memory} {c : ℕ × List UInt8} {l : List (ℕ × List UInt8)}
    (h : mem.Holds c.1 c.2) (hapart : ∀ d ∈ l, Apart c d) : (mem.copies l).Holds c.1 c.2 := by
  induction l generalizing mem with
  | nil => exact h
  | cons d l ih =>
    obtain ⟨hd, hl⟩ := List.forall_mem_cons.1 hapart
    exact ih (h.copy hd) hl

/-- Pieces that do not overlap are all there in the end. -/
theorem holds_copies {l : List (ℕ × List UInt8)} (h : l.Pairwise Apart) (mem : Memory) :
    ∀ c ∈ l, (mem.copies l).Holds c.1 c.2 := by
  induction l generalizing mem with
  | nil => exact List.forall_mem_nil _
  | cons d l ih =>
    obtain ⟨hd, hl⟩ := List.pairwise_cons.1 h
    refine List.forall_mem_cons.2 ⟨?_, ih hl _⟩
    exact (holds_copy mem d.1 d.2).copies hd

/-! ## Moves -/

/-- The memory in which the bytes from `d` on are those from `s` on. -/
def moved (mem : Memory) (n d s : ℕ) : Memory := fun a =>
  if d ≤ a ∧ a < d + n then mem (s + (a - d)) else mem a

/-- One more byte at the start, if the rest of the source is not there. -/
theorem moved_succ_left (mem : Memory) {n d s : ℕ} (h : d ≤ s ∨ s + n < d) :
    moved (Function.update mem d (mem s)) n (d + 1) (s + 1) = mem.moved (n + 1) d s := by
  funext a
  unfold moved
  rcases Nat.lt_trichotomy a d with hlt | rfl | hgt
  · rw [if_neg (by omega), if_neg (by omega), Function.update_of_ne (Nat.ne_of_lt hlt)]
  · rw [if_neg (by omega), if_pos (by omega), Function.update_self, Nat.sub_self, Nat.add_zero]
  · by_cases hin : a < d + (n + 1)
    · have hsrc : s + 1 + (a - (d + 1)) = s + (a - d) := by omega
      rw [if_pos (by omega), if_pos (by omega), hsrc, Function.update_of_ne (by omega)]
    · rw [if_neg (by omega), if_neg (by omega), Function.update_of_ne (Nat.ne_of_gt hgt)]

/-- One more byte at the end. -/
theorem moved_succ_right (mem : Memory) {n d s : ℕ} (h : s ≤ d ∨ d + n < s) :
    moved (Function.update mem (d + n) (mem (s + n))) n d s = mem.moved (n + 1) d s := by
  funext a
  unfold moved
  rcases Nat.lt_trichotomy a (d + n) with hlt | rfl | hgt
  · by_cases hin : d ≤ a
    · rw [if_pos ⟨hin, hlt⟩, if_pos (by omega), Function.update_of_ne (by omega)]
    · rw [if_neg (by omega), if_neg (by omega), Function.update_of_ne (Nat.ne_of_lt hlt)]
  · have hsrc : d + n - d = n := by omega
    rw [if_neg (by omega), if_pos (by omega), Function.update_self, hsrc]
  · rw [if_neg (by omega), if_neg (by omega), Function.update_of_ne (Nat.ne_of_gt hgt)]

/-! ## Words and lists -/

/-- The 64-bit word at `a`. -/
def load64 (mem : Memory) (a : ℕ) : ℕ := mem.load a 8

/-- Store a 64-bit word. -/
def store64 (mem : Memory) (a v : ℕ) : Memory := mem.store a v 8

/-- `p` points to a list of the nodes `l`, each of which starts with a pointer to the next. -/
def Chain (mem : Memory) : ℕ → List ℕ → Prop
  | p, [] => p = 0
  | p, a :: l => p = a ∧ a ≠ 0 ∧ Chain mem (mem.load64 a) l

/-- A chain depends on the first words of its nodes. -/
theorem Chain.congr {mem mem' : Memory} {p : ℕ} {l : List ℕ} (c : Chain mem p l)
    (h : ∀ a ∈ l, mem'.load64 a = mem.load64 a) : Chain mem' p l := by
  induction l generalizing p with
  | nil => exact c
  | cons a l ih =>
    obtain ⟨hp, ha, hrest⟩ := c
    refine ⟨hp, ha, ?_⟩
    rw [h a (List.mem_cons_self ..)]
    exact ih hrest fun b hb => h b (List.mem_cons_of_mem _ hb)

end Memory

end Xv6
