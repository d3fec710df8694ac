import Xv6.Fs.Bmap

/-!
# readi

`NoHoles s d`: every block of the file below its size is there. Then `readi` finds all blocks that
it reads, allocates none, and copies out the bytes of the file.
-/

namespace Xv6.Fs

open Inode (Dinode NDIRECT)

/-- The file is not too large, and has a block for each index below its size. -/
structure NoHoles (s : Disk) (d : Dinode) : Prop where
  size : d.size.toNat ≤ MAXFILE * BSIZE
  mapped : ∀ bn, bn * BSIZE < d.size.toNat → s.mapped d bn ≠ 0

variable {sb : Superblock} {s : Disk} {d : Dinode} {E : Stop → Prop}

theorem NoHoles.mapped_of_lt (h : NoHoles s d) {k : ℕ} (hk : k < d.size.toNat) :
    k / BSIZE < MAXFILE ∧ s.mapped d (k / BSIZE) ≠ 0 := by
  have hmul : k / BSIZE * BSIZE ≤ k := Nat.div_mul_le_self k BSIZE
  refine ⟨?_, h.mapped _ (hmul.trans_lt hk)⟩
  exact Nat.div_lt_of_lt_mul (Nat.mul_comm .. ▸ hk.trans_le h.size)

/-- A block that is there is found without a transaction. -/
theorem ends_bmap_found (hheld : s.held = []) {bn : ℕ} (hbn : bn < MAXFILE)
    (h0 : s.mapped d bn ≠ 0) :
    Ends (bmap sb d bn) (fun r s' => s' = s ∧ r = (s.mapped d bn, d)) s E := by
  rw [bmap]
  by_cases hnd : bn < NDIRECT
  · have hmapped : s.mapped d bn = (d.addrs ⟨bn, Nat.lt_succ_of_lt hnd⟩).toNat := by
      rw [Disk.mapped, Slot.ofIndex, dif_pos hnd]
      rfl
    rw [dif_pos hnd]
    dsimp only
    rw [← hmapped, if_neg h0]
    exact ⟨rfl, rfl⟩
  · have hlt : bn - NDIRECT < NINDIRECT := by
      rw [MAXFILE] at hbn
      omega
    have hmod : (bn - NDIRECT) % NINDIRECT = bn - NDIRECT := Nat.mod_eq_of_lt hlt
    have hind : Disk.indirect d ≠ 0 := by
      intro hz
      rw [Disk.mapped, Slot.ofIndex, dif_neg hnd, Disk.slot, if_pos hz] at h0
      exact h0 rfl
    have hmapped : s.mapped d bn = ((s.data (Disk.indirect d)).word (bn - NDIRECT)).toNat := by
      rw [Disk.mapped, Slot.ofIndex, dif_neg hnd, Disk.slot, if_neg hind, Fin.val_ofNat, hmod]
    have hind' : ¬(d.addrs (Fin.last NDIRECT)).toNat = 0 := hind
    rw [dif_neg hnd, if_pos hlt, if_neg hind', bmapIndirect, ends_bind, ends_bind]
    refine ends_bread (by rw [hheld]; exact List.not_mem_nil) ?_
    rw [ends_bind, ends_data]
    have hdata : (s.lock (d.addrs (Fin.last NDIRECT)).toNat).data (d.addrs (Fin.last NDIRECT)).toNat
        = s.data (Disk.indirect d) := rfl
    rw [hdata, ← hmapped, if_neg h0, ends_bind]
    exact ends_brelse rfl ⟨rfl, rfl⟩

theorem byte_of_chunk {off n tot k : ℕ} (hk : k < chunk off n tot)
    (h0 : s.mapped d (off / BSIZE) ≠ 0) :
    s.byte d (off + k) = s.data (s.mapped d (off / BSIZE)) (off % BSIZE + k) := by
  obtain ⟨hdiv, hmod⟩ := div_of_chunk (Nat.le_add_right off k) (Nat.add_lt_add_left hk off)
  rw [Disk.byte, hdiv, hmod, if_neg h0, Nat.add_sub_cancel_left]

theorem slice_chunk {off n tot m : ℕ} (hm : m ≤ chunk off n tot)
    (h0 : s.mapped d (off / BSIZE) ≠ 0) :
    Block.slice (s.data (s.mapped d (off / BSIZE))) (off % BSIZE) m =
      (List.range m).map fun k => s.byte d (off + k) :=
  List.map_congr_left fun _ hk => (byte_of_chunk ((List.mem_range.1 hk).trans_le hm) h0).symm

/-- The bytes of a file, in two parts. -/
theorem map_byte_add (off m n : ℕ) : (List.range (m + n)).map (fun k => s.byte d (off + k)) =
    (List.range m).map (fun k => s.byte d (off + k)) ++
      (List.range n).map fun k => s.byte d (off + m + k) := by
  rw [List.range_add, List.map_append, List.map_map]
  refine congrArg _ (List.map_congr_left fun k _ => ?_)
  rw [Function.comp_apply, Nat.add_assoc]

/-- The loop of `readi` over blocks that are there. -/
theorem ends_readLoop (hheld : s.held = []) {room n off tot : ℕ} (bytes : List UInt8)
    (hmap : ∀ k, off ≤ k → k < off + (n - tot) →
      k / BSIZE < MAXFILE ∧ s.mapped d (k / BSIZE) ≠ 0) (hroom : tot ≤ room) (hn : tot ≤ n) :
    Ends (readLoop sb room n off tot d bytes) (fun r s' => s' = s ∧
      r = (if n ≤ room then (n : ℤ) else -1,
        bytes ++ (List.range (min n room - tot)).map fun k => s.byte d (off + k), d)) s E := by
  induction hk : n - tot using Nat.strong_induction_on generalizing off tot bytes with
  | _ k ih =>
    rw [readLoop]
    by_cases h : tot < n
    · obtain ⟨hbn, h0⟩ := hmap off le_rfl (by omega)
      have hle := chunk_le off n tot
      rw [dif_pos h, ends_bind]
      refine (ends_bmap_found hheld hbn h0).post ?_
      rintro _ _ ⟨rfl, rfl⟩
      dsimp only
      rw [if_neg h0, ends_bind]
      refine ends_bread (by rw [hheld]; exact List.not_mem_nil) ?_
      rw [ends_bind, ends_data]
      by_cases hr : room < tot + chunk off n tot
      · rw [if_pos hr, ends_bind]
        refine ends_brelse rfl ⟨rfl, ?_⟩
        have hnr : ¬n ≤ room := by omega
        have hmin : min n room - tot = room - tot := by omega
        rw [if_neg hnr, hmin]
        have hm : room - tot ≤ chunk off n tot := by omega
        exact congrArg (fun l => ((-1 : ℤ), bytes ++ l, d)) (slice_chunk hm h0)
      · rw [if_neg hr, ends_bind]
        have hlt := sub_chunk_lt off h
        refine ends_brelse rfl ?_
        refine (ih _ (hk ▸ hlt) _ (fun k' h₁ h₂ => hmap k' (by omega) (by omega)) (by omega)
          (by omega) rfl).post ?_
        rintro _ _ ⟨rfl, rfl⟩
        refine ⟨rfl, ?_⟩
        have hsplit : min n room - tot =
            chunk off n tot + (min n room - (tot + chunk off n tot)) := by omega
        rw [hsplit, map_byte_add, ← List.append_assoc]
        exact congrArg (fun l => (_, bytes ++ l ++ _, d)) (slice_chunk le_rfl h0)
    · have hn' : tot = n := by omega
      subst hn'
      have hmin : min tot room - tot = 0 := by omega
      rw [dif_neg h, if_pos hroom, hmin, List.range_zero, List.map_nil, List.append_nil]
      exact ⟨rfl, rfl⟩

/-- What `readi` asks its loop for. -/
theorem ends_readi_of_loop {room : ℕ} {off n : UInt32} {Q : ℤ × List UInt8 × Dinode → Disk → Prop}
    (h0 : d.size < off ∨ off + n < off → Q (0, [], d) s)
    (hloop : off.toNat ≤ d.size.toNat → ¬off + n < off →
      Ends (readLoop sb room (min n.toNat (d.size.toNat - off.toNat)) off.toNat 0 d []) Q s E) :
    Ends (readi sb room d off n) Q s E := by
  rw [readi]
  by_cases h : d.size < off ∨ off + n < off
  · rw [if_pos h]
    exact h0 h
  · obtain ⟨h₁, h₂⟩ := not_or.1 h
    have hle : off.toNat ≤ d.size.toNat := Nat.le_of_not_lt h₁
    have hadd := toNat_add_of_not_lt h₂
    have hl := hloop hle h₂
    rw [if_neg h]
    split_ifs with h₃
    · rw [UInt32.lt_iff_toNat_lt] at h₃
      have hmin : min n.toNat (d.size.toNat - off.toNat) = d.size.toNat - off.toNat := by omega
      rwa [hmin, ← UInt32.toNat_sub_of_le _ _ hle] at hl
    · rw [UInt32.lt_iff_toNat_lt] at h₃
      have hmin : min n.toNat (d.size.toNat - off.toNat) = n.toNat := by omega
      rwa [hmin] at hl

/-- The bytes that `readi` copies out. -/
theorem ends_readi_bytes (hheld : s.held = []) (h : NoHoles s d) {room : ℕ} {off n : UInt32}
    (hoff : off.toNat ≤ d.size.toNat) (hn : ¬off + n < off) {k : ℕ}
    (hk : k = min n.toNat (d.size.toNat - off.toNat)) :
    Ends (readi sb room d off n) (fun r s' => s' = s ∧
      r = (if k ≤ room then (k : ℤ) else -1,
        (List.range (min k room)).map fun j => s.byte d (off.toNat + j), d)) s E := by
  subst hk
  refine ends_readi_of_loop (fun h₁ => ?_) fun _ _ => ?_
  · rcases h₁ with h₁ | h₁
    · exact (Nat.not_lt.2 hoff h₁).elim
    · exact (hn h₁).elim
  · exact ends_readLoop hheld [] (fun k _ hk => h.mapped_of_lt (by omega)) (Nat.zero_le _)
      (Nat.zero_le _)

end Xv6.Fs
