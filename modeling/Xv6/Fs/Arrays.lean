import Xv6.Foundations.Overwrite
import Xv6.Fs.Reserve

/-!
# Files are byte arrays

The abstract file system gives each inode an array of bytes. `contents s d` is the array of the
dinode `d`; `readi` returns a part of it, and `writei` overwrites a part of it with a first part of
the bytes it is given, as many as there are blocks for.
-/

namespace Xv6.Fs

open Inode (Dinode NDIRECT)

variable {sb : Superblock} {s s' : Disk} {d d' : Dinode} {i : ℕ} {src : List UInt8} {off n : UInt32}
  {E : Stop → Prop}

/-- The bytes of a file. -/
def contents (s : Disk) (d : Dinode) : List UInt8 := (List.range d.size.toNat).map (s.byte d)

@[simp] theorem length_contents (s : Disk) (d : Dinode) :
    (contents s d).length = d.size.toNat := by
  rw [contents, List.length_map, List.length_range]

theorem getElem?_contents {k : ℕ} (hk : k < d.size.toNat) :
    (contents s d)[k]? = some (s.byte d k) := by
  rw [contents, List.getElem?_map, List.getElem?_range hk, Option.map_some]

/-- The files of other inodes are the same. -/
theorem SameFile.contents (h : SameFile s s' d) : contents s' d = contents s d :=
  List.map_congr_left fun k _ => h.byte k

theorem take_drop_contents (s : Disk) (d : Dinode) (a m : ℕ) :
    ((contents s d).drop a).take m =
      (List.range (min m (d.size.toNat - a))).map fun j => s.byte d (a + j) := by
  refine List.ext_getElem? fun k => ?_
  rw [List.getElem?_take, List.getElem?_drop]
  by_cases hk : k < min m (d.size.toNat - a)
  · rw [if_pos (by omega), getElem?_contents (by omega), List.getElem?_map,
      List.getElem?_range hk, Option.map_some]
  · rw [List.getElem?_eq_none (l := List.map _ _) (by rw [List.length_map, List.length_range]; omega)]
    split_ifs
    · exact List.getElem?_eq_none (by rw [length_contents]; omega)
    · rfl

/-- The part of the array that `readi` returns when the copy succeeds. -/
theorem ends_readi_contents (hheld : s.held = []) (h : NoHoles s d)
    (hn : off.toNat + n.toNat < 2 ^ 32) {room : ℕ} (hroom : n.toNat ≤ room) :
    Ends (readi sb room d off n) (fun r s' => s' = s ∧
      r = (((((contents s d).drop off.toNat).take n.toNat).length : ℤ),
        ((contents s d).drop off.toNat).take n.toNat, d)) s E := by
  rw [take_drop_contents, List.length_map, List.length_range]
  by_cases hoff : off.toNat ≤ d.size.toNat
  · have hadd : ¬off + n < off := by
      rw [UInt32.lt_iff_toNat_lt, UInt32.toNat_add, Nat.mod_eq_of_lt hn]
      omega
    refine (ends_readi_bytes hheld h hoff hadd rfl).post ?_
    rintro _ _ ⟨rfl, rfl⟩
    have hle : min n.toNat (d.size.toNat - off.toNat) ≤ room := by omega
    rw [if_pos hle, Nat.min_eq_left hle]
    exact ⟨rfl, rfl⟩
  · have hzero : min n.toNat (d.size.toNat - off.toNat) = 0 := by omega
    rw [readi, if_pos (Or.inl (UInt32.lt_iff_toNat_lt.2 (Nat.lt_of_not_le hoff))), hzero]
    exact ⟨rfl, rfl⟩

/-- The bytes that `writei` has written are a first part of the bytes it was given. -/
theorem Stored.contents_eq {tot : ℕ} (h : Stored sb s d src off.toNat n.toNat tot s' d')
    (hfits : Fits d off n)
    (hrest : ∀ k, k / BSIZE < MAXFILE → off.toNat + tot ≤ k → s'.byte d' k = s.byte d k)
    (hsize : d.size.toNat ≤ MAXFILE * BSIZE) :
    contents s' d' = overwrite (contents s d) off.toNat (src.take tot) := by
  have hoff : off.toNat ≤ d.size.toNat := hfits.1
  have hlen : (src.take tot).length = tot := List.length_take_of_le h.copied
  have hsize' := h.size
  refine eq_overwrite (by rwa [length_contents]) ?_ (fun k h₁ h₂ => ?_) fun k hk hlt => ?_
  · rw [length_contents, length_contents, hlen, hsize']
  · rw [hlen] at h₂
    have hk : k - off.toNat < src.length := by
      have := h.copied
      omega
    rw [getElem?_contents (by omega), h.inside k h₁ h₂, List.getElem?_take_of_lt (by omega),
      List.getElem?_eq_getElem hk, List.getD_eq_getElem _ _ hk]
  · rw [length_contents] at hlt
    rw [hlen] at hk
    have hdiv : k / BSIZE < MAXFILE := by
      refine Nat.div_lt_of_lt_mul ?_
      rw [Nat.mul_comm]
      omega
    have hbyte : s'.byte d' k = s.byte d k := by
      rcases hk with hk | hk
      · exact h.before k hdiv hk
      · exact hrest k hdiv hk
    rw [getElem?_contents (by omega), getElem?_contents hlt, hbyte]

/-- What `writei` of the bytes `src` to the file `i` leaves in the abstract file system, if it has
written `tot` of them. -/
structure Overwritten (sb : Superblock) (s : Disk) (src : List UInt8) (i : ℕ) (off n tot : ℕ)
    (s' : Disk) : Prop where
  count : tot ≤ n
  full : tot < n → FullDisk sb s'
  file : contents s' (s'.dinode i) = overwrite (contents s (s.dinode i)) off (src.take tot)
  others : ∀ j, j ≠ i → contents s' (s'.dinode j) = contents s (s.dinode j)
  consistent : Consistent sb s'

/-- The result of `writei` and the state that it leaves, if the copy succeeds. -/
def WritesArray (sb : Superblock) (s : Disk) (src : List UInt8) (i : ℕ) (off n : ℕ)
    (r : ℤ × Dinode) (s' : Disk) : Prop :=
  if (s.dinode i).size.toNat < off ∨ MAXFILE * BSIZE < off + n then r = (-1, s.dinode i) ∧ s' = s
  else ∃ tot : ℕ, r = (↑tot, s'.dinode i) ∧ Overwritten sb s src i off n tot s'

theorem ends_writei_array (h : Consistent sb s) (hout : 1 ≤ s.outstanding)
    (hcopy : n.toNat ≤ src.length) : Ends (writei sb src i (s.dinode i) off n)
    (WritesArray sb s src i off.toNat n.toNat) s := by
  refine (ends_writei h hout src i off n).post ?_
  rintro ⟨r, d'⟩ s' (⟨hfits, he, rfl⟩ | ⟨hfits, hu, tot, hr, hst⟩)
  · have hor : (s'.dinode i).size.toNat < off.toNat ∨
        MAXFILE * BSIZE < off.toNat + n.toNat := by
      rw [Fits] at hfits
      omega
    rw [WritesArray, if_pos hor]
    exact ⟨he, rfl⟩
  · have hfits' : off.toNat ≤ (s.dinode i).size.toNat ∧
        off.toNat + n.toNat ≤ MAXFILE * BSIZE := hfits
    have hcount := hst.count
    have hdinode : s'.dinode i = d' := by
      rw [hu.dinode]
      exact Function.update_self ..
    have hrest : (tot < n.toNat → FullDisk sb s') ∧ ∀ k, k / BSIZE < MAXFILE →
        off.toNat + tot ≤ k → s'.byte d' k = s.byte (s.dinode i) k := by
      cases hst.ending with
      | done h hrest => exact ⟨fun hlt => (hlt.ne h).elim, hrest⟩
      | noBlock _ hfull _ hrest => exact ⟨fun _ => hfull, hrest⟩
      | badCopy h hshort _ _ _ =>
        have := chunk_le (off.toNat + tot) n.toNat tot
        omega
    rw [WritesArray, if_neg (by omega)]
    refine ⟨tot, ?_, hcount, hrest.1, ?_, fun j hj => ?_, hu.consistent⟩
    · rw [hdinode]
      exact Prod.ext hr rfl
    · rw [hdinode]
      exact hst.contents_eq hfits hrest.2 (h.noHoles i).size
    · rw [hu.dinode, Function.update_of_ne hj]
      exact (hu.others j hj).contents

/-- **Files are byte arrays.** If the copies succeed, `readi` returns the bytes of the array, and
`writei` overwrites a part of it with the first `tot` bytes of its source, fewer than `n` only if the
disk is full; the arrays of all other files stay the same. A run of `writei` can only be stopped by a
full log, and is not if there is room in it for the blocks that the bytes lie in. -/
theorem files_are_arrays (sb : Superblock) (s : Disk) (h : Consistent sb s) (i : ℕ)
    (off n : UInt32) (hn : off.toNat + n.toNat < 2 ^ 32) :
    (∀ room, n.toNat ≤ room → Ends (readi sb room (s.dinode i) off n) (fun r s' => s' = s ∧
      r = (((((contents s (s.dinode i)).drop off.toNat).take n.toNat).length : ℤ),
        ((contents s (s.dinode i)).drop off.toNat).take n.toNat, s.dinode i)) s NoStop) ∧
    ∀ src : List UInt8, n.toNat ≤ src.length → 1 ≤ s.outstanding →
      Ends (writei sb src i (s.dinode i) off n) (WritesArray sb s src i off.toNat n.toNat) s ∧
      (s.logged.length + (2 * rounds off.toNat n.toNat + 3) < LOGBLOCKS →
        Ends (writei sb src i (s.dinode i) off n) (WritesArray sb s src i off.toNat n.toNat) s
          NoStop) := by
  refine ⟨fun room hroom => ends_readi_contents h.held (h.noHoles i) hn hroom,
    fun src hcopy hout => ⟨ends_writei_array h hout hcopy, fun hroom => ?_⟩⟩
  have hpays : Pays (2 * rounds off.toNat n.toNat + 3) (writei sb src i (s.dinode i) off n)
      (fun _ _ P' => P'.card ≤ (∅ : Finset ℕ).card + 2 * rounds off.toNat n.toNat + 3) s ∅ :=
    pays_writei src i (by rw [Finset.card_empty, Nat.zero_add])
  refine (ends_writei_array h hout hcopy).noStop hpays (fun b hb => ?_) (Nat.zero_le _) ?_
  · exact (Finset.notMem_empty b hb).elim
  · rwa [Finset.card_empty, Nat.sub_zero]

/-- A write to a new disk. -/
theorem newDisk_is_array : Ends (writei newSuperblock [1, 2, 3] 1 (newDisk.dinode 1) 0 3)
    (WritesArray newSuperblock newDisk [1, 2, 3] 1 0 3) newDisk NoStop :=
  ((files_are_arrays newSuperblock newDisk consistent_newDisk 1 0 3 (by decide)).2 [1, 2, 3]
    (by decide) (by decide)).2 (by decide)

end Xv6.Fs
