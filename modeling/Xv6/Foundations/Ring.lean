import Mathlib.Data.BitVec
import Mathlib.Logic.Function.Basic
import Mathlib.Tactic.SplitIfs

/-!
# Rings with free-running counters

A ring buffer whose two counters are `w`-bit words that only grow, and wrap: `nread` counts what has
been taken out and `nwrite` what has been put in. The place of a counter in the buffer is its
remainder by the size, so the size must divide `2 ^ w`. The ring is full when `nwrite` is `size`
ahead of `nread`, and empty when they are equal; `contents` is the queue that the ring stands for.
-/

namespace Xv6

/-- A ring of `size` places with `w`-bit counters. -/
structure Ring (α : Type*) (w size : ℕ) where
  data : Fin size → α
  nread : BitVec w
  nwrite : BitVec w

namespace Ring

variable {α : Type*} {w size : ℕ} [NeZero size]

/-- The place of a counter. -/
def place (size : ℕ) [NeZero size] (c : BitVec w) : Fin size := Fin.ofNat size c.toNat

/-- The number of elements. -/
def count (r : Ring α w size) : ℕ := (r.nwrite - r.nread).toNat

/-- The element that was put in first. -/
def front (r : Ring α w size) : α := r.data (place size r.nread)

/-- `data[nwrite++ % size] = x` -/
def push (r : Ring α w size) (x : α) : Ring α w size where
  data := Function.update r.data (place size r.nwrite) x
  nread := r.nread
  nwrite := r.nwrite + 1

/-- The first half of `push`: `data[nwrite % size] = x` -/
def store (r : Ring α w size) (x : α) : Ring α w size :=
  { r with data := Function.update r.data (place size r.nwrite) x }

/-- The second half of `push`: `nwrite += 1` -/
def advance (r : Ring α w size) : Ring α w size := { r with nwrite := r.nwrite + 1 }

/-- `data[nread++ % size]`, without the value -/
def pop (r : Ring α w size) : Ring α w size where
  data := r.data
  nread := r.nread + 1
  nwrite := r.nwrite

/-- `nread--`, which undoes `pop` -/
def unpop (r : Ring α w size) : Ring α w size := { r with nread := r.nread - 1 }

/-- The element that was put in last, `data[(nwrite - 1) % size]` -/
def back (r : Ring α w size) : α := r.data (place size (r.nwrite - 1))

/-- `nwrite--` -/
def retract (r : Ring α w size) : Ring α w size := { r with nwrite := r.nwrite - 1 }

/-- The elements at the places `nread`, …, `nwrite - 1`. -/
def contents (r : Ring α w size) : List α :=
  (List.range r.count).map fun i => r.data (place size (r.nread + BitVec.ofNat w i))

@[simp] theorem length_contents (r : Ring α w size) : r.contents.length = r.count := by
  rw [contents, List.length_map, List.length_range]

omit [NeZero size] in
theorem nwrite_eq (r : Ring α w size) : r.nwrite = r.nread + BitVec.ofNat w r.count := by
  unfold count
  rw [BitVec.ofNat_toNat, BitVec.setWidth_eq, BitVec.add_comm, BitVec.sub_add_cancel]

omit [NeZero size] in
theorem count_eq_zero {r : Ring α w size} : r.count = 0 ↔ r.nread = r.nwrite := by
  constructor
  · intro h
    have heq := r.nwrite_eq
    rw [h, BitVec.add_zero] at heq
    exact heq.symm
  · intro h
    rw [count, h, BitVec.sub_self]
    rfl

omit [NeZero size] in
theorem count_eq_size (hlt : size < 2 ^ w) {r : Ring α w size} :
    r.count = size ↔ r.nwrite = r.nread + BitVec.ofNat w size := by
  constructor
  · intro h
    rw [r.nwrite_eq, h]
  · intro h
    rw [count, h, BitVec.add_comm, BitVec.add_sub_cancel, BitVec.toNat_ofNat]
    exact Nat.mod_eq_of_lt hlt

/-- Two places are the same when the counters are so up to a multiple of the size. -/
theorem place_add (hdvd : size ∣ 2 ^ w) (c : BitVec w) (i : ℕ) :
    (place size (c + BitVec.ofNat w i)).val = (c.toNat + i) % size := by
  have hmod : (c + BitVec.ofNat w i).toNat = (c.toNat + i) % 2 ^ w := by
    rw [BitVec.toNat_add, BitVec.toNat_ofNat, Nat.add_mod_mod]
  change (c + BitVec.ofNat w i).toNat % size = _
  rw [hmod, Nat.mod_mod_of_dvd _ hdvd]

theorem place_add_ne (hdvd : size ∣ 2 ^ w) (c : BitVec w) {i j : ℕ} (hij : i < j)
    (hj : j - i < size) : place size (c + BitVec.ofNat w i) ≠ place size (c + BitVec.ofNat w j) := by
  intro heq
  have hmod : (c.toNat + i) % size = (c.toNat + j) % size := by
    rw [← place_add hdvd, ← place_add hdvd, heq]
  have hdiv : size ∣ (c.toNat + j) - (c.toNat + i) :=
    (Nat.modEq_iff_dvd' (by omega)).1 hmod
  have hle := Nat.le_of_dvd (by omega) hdiv
  omega

theorem count_push (hlt : size < 2 ^ w) {r : Ring α w size} (h : r.count < size) (x : α) :
    (r.push x).count = r.count + 1 := by
  have hsub : r.nwrite + 1 - r.nread = BitVec.ofNat w (r.count + 1) := by
    conv_lhs => rw [r.nwrite_eq]
    rw [BitVec.add_assoc, BitVec.add_comm, BitVec.add_sub_cancel]
    exact (BitVec.ofNat_add r.count 1).symm
  change (r.nwrite + 1 - r.nread).toNat = _
  rw [hsub, BitVec.toNat_ofNat]
  exact Nat.mod_eq_of_lt (by omega)

omit [NeZero size] in
theorem count_pop {r : Ring α w size} (h : r.count ≠ 0) : r.pop.count + 1 = r.count := by
  have hw : r.count < 2 ^ w := BitVec.isLt _
  have hsub : r.nwrite - (r.nread + 1) = BitVec.ofNat w (r.count - 1) := by
    have hcount : BitVec.ofNat w r.count = BitVec.ofNat w (r.count - 1) + 1 := by
      have hadd := BitVec.ofNat_add (n := w) (r.count - 1) 1
      rw [Nat.sub_add_cancel (by omega)] at hadd
      exact hadd
    conv_lhs => rw [r.nwrite_eq, hcount]
    rw [BitVec.add_comm (BitVec.ofNat w (r.count - 1)) 1, ← BitVec.add_assoc, BitVec.add_comm,
      BitVec.add_sub_cancel]
  change (r.nwrite - (r.nread + 1)).toNat + 1 = _
  rw [hsub, BitVec.toNat_ofNat, Nat.mod_eq_of_lt (by omega)]
  omega

omit [NeZero size] in
@[simp] theorem unpop_pop (r : Ring α w size) : r.pop.unpop = r := by
  simp only [pop, unpop, BitVec.add_sub_cancel]

omit [NeZero size] in
theorem count_retract {r : Ring α w size} (h : r.count ≠ 0) : r.retract.count + 1 = r.count := by
  have hw : r.count < 2 ^ w := BitVec.isLt _
  have hsub : r.nwrite - 1 - r.nread = BitVec.ofNat w (r.count - 1) := by
    have hadd := BitVec.ofNat_add (n := w) (r.count - 1) 1
    rw [Nat.sub_add_cancel (by omega)] at hadd
    conv_lhs => rw [r.nwrite_eq, hadd]
    rw [← BitVec.add_assoc]
    change r.nread + _ + BitVec.ofNat w 1 - BitVec.ofNat w 1 - r.nread = _
    rw [BitVec.add_sub_cancel, BitVec.add_comm, BitVec.add_sub_cancel]
  change (r.nwrite - 1 - r.nread).toNat + 1 = _
  rw [hsub, BitVec.toNat_ofNat, Nat.mod_eq_of_lt (by omega)]
  omega

/-- What was put in last comes last. -/
theorem contents_retract {r : Ring α w size} (h : r.count ≠ 0) :
    r.contents = r.retract.contents ++ [r.back] := by
  have hplace : r.nread + BitVec.ofNat w r.retract.count = r.nwrite - 1 := r.retract.nwrite_eq.symm
  rw [contents, ← count_retract h, List.range_succ, List.map_append, List.map_singleton, hplace]
  rfl

/-- What is put in comes last. -/
theorem contents_push (hdvd : size ∣ 2 ^ w) (hlt : size < 2 ^ w) {r : Ring α w size}
    (h : r.count < size) (x : α) : (r.push x).contents = r.contents ++ [x] := by
  have hplace : place size r.nwrite = place size (r.nread + BitVec.ofNat w r.count) := by
    rw [← r.nwrite_eq]
  rw [contents, count_push hlt h, List.range_succ, List.map_append, contents]
  congr 1
  · refine List.map_congr_left fun i hi => ?_
    rw [List.mem_range] at hi
    refine Function.update_of_ne ?_ ..
    rw [hplace]
    exact place_add_ne hdvd _ hi (by omega)
  · rw [List.map_singleton]
    change [Function.update r.data (place size r.nwrite) x
      (place size (r.nread + BitVec.ofNat w r.count))] = [x]
    rw [hplace, Function.update_self]

/-- A ring with room does not use the place at `nwrite`. -/
theorem place_ne_nwrite (hdvd : size ∣ 2 ^ w) {r : Ring α w size} (h : r.count < size) {i : ℕ}
    (hi : i < r.count) : place size (r.nread + BitVec.ofNat w i) ≠ place size r.nwrite := by
  rw [r.nwrite_eq]
  exact place_add_ne hdvd _ hi (by omega)

theorem contents_store (hdvd : size ∣ 2 ^ w) {r : Ring α w size} (h : r.count < size) (x : α) :
    (r.store x).contents = r.contents := by
  refine List.map_congr_left fun i hi => ?_
  rw [List.mem_range] at hi
  exact Function.update_of_ne (place_ne_nwrite hdvd h hi) ..

/-- What was stored comes last. -/
theorem contents_advance (hdvd : size ∣ 2 ^ w) (hlt : size < 2 ^ w) {r : Ring α w size}
    (h : r.count < size) : r.advance.contents = r.contents ++ [r.data (place size r.nwrite)] := by
  have hpush : r.push (r.data (place size r.nwrite)) = r.advance := by
    simp only [push, advance, Function.update_eq_self]
  rw [← hpush, contents_push hdvd hlt h]

/-- What is taken out comes first. -/
theorem contents_pop {r : Ring α w size} (h : r.count ≠ 0) :
    r.contents = r.front :: r.pop.contents := by
  rw [contents, contents, ← count_pop h, List.range_succ_eq_map, List.map_cons, List.map_map]
  congr 1
  · rw [BitVec.add_zero]
    rfl
  · refine List.map_congr_left fun i _ => ?_
    change r.data (place size (r.nread + BitVec.ofNat w (i + 1))) =
      r.data (place size (r.nread + 1 + BitVec.ofNat w i))
    rw [Nat.add_comm i 1, BitVec.ofNat_add, BitVec.add_assoc]
    rfl

end Ring

end Xv6
