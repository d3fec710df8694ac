import Xv6.Foundations.Memory

/-!
# memmove

`memmove` of string.c copies from the end if the destination starts inside the source, and from
the start otherwise. Pointers are 64-bit words and wrap around; `n` is a `uint`.
-/

namespace Xv6.Lib

/-! ## The code -/

/-- `while(n-- > 0) *--d = *--s;` -/
def copyDown : (n : ℕ) → (d s : UInt64) → Memory → Memory
  | 0, _, _, mem => mem
  | n + 1, d, s, mem =>
    let d := d - 1
    let s := s - 1
    copyDown n d s (Function.update mem d.toNat (mem s.toNat))

/-- `while(n-- > 0) *d++ = *s++;` -/
def copyUp : (n : ℕ) → (d s : UInt64) → Memory → Memory
  | 0, _, _, mem => mem
  | n + 1, d, s, mem => copyUp n (d + 1) (s + 1) (Function.update mem d.toNat (mem s.toNat))

/-- `memmove`: its result and the memory after it. -/
def memmove (dst src : UInt64) (n : UInt32) (mem : Memory) : UInt64 × Memory :=
  if n = 0 then (dst, mem)
  else
    let s := src
    let d := dst
    if s < d ∧ s + n.toUInt64 > d then
      (dst, copyDown n.toNat (d + n.toUInt64) (s + n.toUInt64) mem)
    else (dst, copyUp n.toNat d s mem)

/-- `memcpy` -/
def memcpy (dst src : UInt64) (n : UInt32) (mem : Memory) : UInt64 × Memory :=
  memmove dst src n mem

/-! ## The loops -/

/-- The next pointer, if there is one. -/
theorem toNat_add_ofNat {p : UInt64} {k : ℕ} (h : p.toNat + k < 2 ^ 64) :
    (p + .ofNat k).toNat = p.toNat + k := by
  rw [UInt64.toNat_add, UInt64.toNat_ofNat', Nat.add_mod_mod, Nat.mod_eq_of_lt h]

/-- The loop that goes up is right if no byte of the source is overwritten before it is read. -/
theorem copyUp_eq {n : ℕ} {d s : UInt64} (mem : Memory) (hd : d.toNat + n ≤ 2 ^ 64)
    (hs : s.toNat + n ≤ 2 ^ 64) (h : d.toNat ≤ s.toNat ∨ s.toNat + n ≤ d.toNat) :
    copyUp n d s mem = mem.moved n d.toNat s.toNat := by
  induction n generalizing d s mem with
  | zero =>
    funext a
    exact (if_neg (by omega)).symm
  | succ n ih =>
    rw [copyUp]
    rcases n.eq_zero_or_pos with rfl | hpos
    · -- the pointers may wrap around, but they are not used any more
      rw [copyUp, ← Memory.moved_succ_left mem (by omega)]
      funext a
      exact (if_neg (by omega)).symm
    · have hd' : (d + 1).toNat = d.toNat + 1 := toNat_add_ofNat (k := 1) (by omega)
      have hs' : (s + 1).toNat = s.toNat + 1 := toNat_add_ofNat (k := 1) (by omega)
      rw [ih _ (by omega) (by omega) (by omega), hd', hs']
      exact Memory.moved_succ_left mem (by omega)

/-- The loop that goes down, from the ends of the two ranges. -/
theorem copyDown_eq {n : ℕ} {d s : UInt64} (mem : Memory) (hd : d.toNat + n ≤ 2 ^ 64)
    (hs : s.toNat + n ≤ 2 ^ 64) (h : s.toNat ≤ d.toNat ∨ d.toNat + n ≤ s.toNat) :
    copyDown n (d + .ofNat n) (s + .ofNat n) mem = mem.moved n d.toNat s.toNat := by
  induction n generalizing mem with
  | zero =>
    funext a
    exact (if_neg (by omega)).symm
  | succ n ih =>
    have hpred : ∀ p : UInt64, p + .ofNat (n + 1) - 1 = p + .ofNat n := by
      intro p
      rw [UInt64.ofNat_add, ← UInt64.add_assoc]
      exact UInt64.add_sub_cancel ..
    rw [copyDown, hpred, hpred, toNat_add_ofNat (p := d) (by omega),
      toNat_add_ofNat (p := s) (by omega)]
    rw [ih _ (by omega) (by omega) (by omega)]
    exact Memory.moved_succ_right mem (by omega)

/-! ## memmove -/

/-- Where each loop is used, it is right. -/
theorem memmove_eq (dst src : UInt64) (n : UInt32) (mem : Memory)
    (hdst : dst.toNat + n.toNat ≤ 2 ^ 64) (hsrc : src.toNat + n.toNat ≤ 2 ^ 64) :
    memmove dst src n mem = (dst, mem.moved n.toNat dst.toNat src.toNat) := by
  have hn : n.toUInt64 = .ofNat n.toNat := (UInt64.ofNat_uInt32ToNat n).symm
  rw [memmove]
  split
  case isTrue h0 =>
    subst h0
    refine congrArg (dst, ·) (funext fun a => ?_)
    exact (if_neg (by simp)).symm
  case isFalse h0 =>
    have hpos : n.toNat ≠ 0 := fun h => h0 (UInt32.toNat_inj.1 h)
    dsimp only
    split
    case isTrue h =>
      have hlt : src.toNat < dst.toNat := h.1
      rw [hn, copyDown_eq mem hdst hsrc (Or.inl (Nat.le_of_lt hlt))]
    case isFalse h =>
      rw [copyUp_eq mem hdst hsrc]
      rcases Nat.lt_or_ge src.toNat dst.toNat with hlt | hge
      · -- the source ends below the destination, so its end does not wrap around
        right
        have hend : (src + n.toUInt64).toNat = src.toNat + n.toNat := by
          rw [hn]
          exact toNat_add_ofNat (by omega)
        have hle : ¬dst.toNat < (src + n.toUInt64).toNat := fun hgt => h ⟨hlt, hgt⟩
        omega
      · exact Or.inl hge

/-- **memmove is correct under overlap**: afterwards the destination holds what the source held
before, and no other byte has changed. -/
theorem memmove_correct (mem : Memory) (dst src : UInt64) (n : UInt32)
    (hdst : dst.toNat + n.toNat ≤ 2 ^ 64) (hsrc : src.toNat + n.toNat ≤ 2 ^ 64) :
    (memmove dst src n mem).1 = dst ∧
      (∀ i < n.toNat, (memmove dst src n mem).2 (dst.toNat + i) = mem (src.toNat + i)) ∧
      ∀ a, a < dst.toNat ∨ dst.toNat + n.toNat ≤ a → (memmove dst src n mem).2 a = mem a := by
  rw [memmove_eq dst src n mem hdst hsrc]
  refine ⟨rfl, fun i hi => ?_, fun a ha => if_neg (by omega)⟩
  have hsub : dst.toNat + i - dst.toNat = i := Nat.add_sub_cancel_left ..
  exact (if_pos (by omega)).trans (by rw [hsub])

/-- Three bytes are moved up by one, in a range that ends with the address space. -/
theorem memmove_top :
    let mem : Memory := fun a => .ofNat a
    let move := memmove (.ofNat (2 ^ 64 - 3)) (.ofNat (2 ^ 64 - 4)) 3 mem
    move.1 = .ofNat (2 ^ 64 - 3) ∧ (∀ i < 3, move.2 (2 ^ 64 - 3 + i) = mem (2 ^ 64 - 4 + i)) ∧
      ∀ a, a < 2 ^ 64 - 3 ∨ 2 ^ 64 - 3 + 3 ≤ a → move.2 a = mem a :=
  memmove_correct (fun a => .ofNat a) (.ofNat (2 ^ 64 - 3)) (.ofNat (2 ^ 64 - 4)) 3 (by decide)
    (by decide)

end Xv6.Lib
