import Xv6.Fs.Calls

/-!
# Allocating and freeing blocks

`Ready`: the process is in a transaction, the metadata blocks are marked in use, and the buffers
that the process has locked are data blocks in use. Then `balloc` does not find a block that is
locked, and neither function waits for a buffer that the process has locked.
-/

namespace Xv6.Fs

open Inode (Dinode NDIRECT)

/-- The first data block: the bitmap blocks are the last ones of the metadata. -/
def Superblock.dataStart (sb : Superblock) : ℕ := sb.bmapstart + sb.size.toNat / BPB + 1

/-- When blocks may be allocated and freed. -/
structure Ready (sb : Superblock) (s : Disk) : Prop where
  outstanding : 1 ≤ s.outstanding
  held : ∀ b ∈ s.held, sb.dataStart ≤ b ∧ s.bitmap b = true
  metadata : ∀ b < sb.dataStart, s.bitmap b = true

variable {sb : Superblock} {s : Disk} {b : ℕ}

theorem BBLOCK_lt (hb : b < sb.size.toNat) : sb.BBLOCK b < sb.dataStart := by
  have := Nat.div_le_div_right (c := BPB) hb.le
  rw [Superblock.BBLOCK, Superblock.dataStart]
  omega

theorem BBLOCK_add {bi : ℕ} (hmod : b % BPB = 0) (hbi : bi < BPB) :
    sb.BBLOCK (b + bi) = sb.BBLOCK b := by
  have hpos : 0 < BPB := by decide
  have hdiv : (b + bi) / BPB = b / BPB := by
    rw [Nat.add_div hpos, Nat.div_eq_of_lt hbi, hmod, Nat.zero_add, Nat.mod_eq_of_lt hbi,
      if_neg (Nat.not_le.2 hbi)]
    rfl
  rw [Superblock.BBLOCK, Superblock.BBLOCK, hdiv]

namespace Ready

theorem notMem_held (h : Ready sb s) (hb : b < sb.size.toNat) : sb.BBLOCK b ∉ s.held :=
  fun hm => absurd (BBLOCK_lt hb) (Nat.not_lt.2 (h.held _ hm).1)

theorem dataStart_le (h : Ready sb s) (hb : s.bitmap b = false) : sb.dataStart ≤ b := by
  by_contra hlt
  rw [h.metadata b (Nat.lt_of_not_le hlt)] at hb
  cases hb

theorem lock (h : Ready sb s) (hb : sb.dataStart ≤ b) (hbit : s.bitmap b = true) :
    Ready sb (s.lock b) where
  outstanding := h.outstanding
  held b' hm := by
    rcases List.mem_cons.1 hm with rfl | hm
    · exact ⟨hb, hbit⟩
    · exact h.held b' hm
  metadata := h.metadata

end Ready

/-- The state after `balloc` has returned `b`. -/
def Disk.alloc (s : Disk) (b : ℕ) (l : List ℕ) : Disk :=
  { s with bitmap := Function.update s.bitmap b true
           data := Function.update s.data b fun _ => 0
           logged := l }

/-- The state after `bfree` of `b`. -/
def Disk.free (s : Disk) (b : ℕ) (l : List ℕ) : Disk :=
  { s with bitmap := Function.update s.bitmap b false, logged := l }

theorem ends_bzero (hb : b ∉ s.held) (hs : 1 ≤ s.outstanding) : Ends (bzero b)
    (fun _ s' => ∃ l, s' = { s with data := Function.update s.data b fun _ => 0, logged := l })
    s := by
  rw [bzero, ends_bind]
  refine ends_bread hb ?_
  rw [ends_bind, ends_modify, ends_bind]
  refine ends_logWrite hs ?_
  exact ends_brelse rfl ⟨(s.log b).logged, rfl⟩

/-- A bitmap block: a free block of it is allocated, or there is none. -/
theorem ends_ballocBits (h : Ready sb s) {bis : List ℕ} (b : ℕ)
    (hbis : ∀ bi ∈ bis, b + bi < sb.size.toNat ∧ sb.BBLOCK (b + bi) = sb.BBLOCK b) :
    Ends (ballocBits sb b bis) (fun r s' => match r with
      | some addr => addr < sb.size.toNat ∧ s.bitmap addr = false ∧ ∃ l, s' = s.alloc addr l
      | none => s' = s.lock (sb.BBLOCK b) ∧ ∀ bi ∈ bis, s.bitmap (b + bi) = true)
      (s.lock (sb.BBLOCK b)) := by
  induction bis with
  | nil => exact ⟨rfl, nofun⟩
  | cons bi rest ih =>
    obtain ⟨hlt, hblock⟩ := hbis bi List.mem_cons_self
    rw [ballocBits, ends_bind, ends_bit]
    by_cases hfree : (s.lock (sb.BBLOCK b)).bitmap (b + bi) = false
    · rw [if_pos hfree, ends_bind, ends_setBit, ends_bind]
      refine ends_logWrite h.outstanding ?_
      rw [ends_bind]
      refine ends_brelse rfl ?_
      rw [ends_bind]
      have hnot : b + bi ∉ s.held := fun hm =>
        Bool.false_ne_true (hfree.symm.trans (h.held _ hm).2)
      refine Program.Meets.post (ends_bzero hnot (show 1 ≤ _ from h.outstanding)) ?_
      rintro - s' ⟨l, rfl⟩
      exact ⟨hlt, hfree, l, rfl⟩
    · rw [if_neg hfree]
      refine (ih fun bi' hm => hbis bi' (List.mem_cons_of_mem bi hm)).post fun r s' hr => ?_
      cases r with
      | some addr => exact hr
      | none => exact ⟨hr.1, List.forall_mem_cons.2 ⟨Bool.not_eq_false _ ▸ hfree, hr.2⟩⟩

theorem ends_ballocBlocks (h : Ready sb s) {bs : List ℕ}
    (hbs : ∀ b ∈ bs, b < sb.size.toNat ∧ b % BPB = 0) :
    Ends (ballocBlocks sb bs) (fun b s' =>
      b = 0 ∧ s' = s ∧ (∀ b ∈ bs, ∀ bi < min BPB (sb.size.toNat - b), s.bitmap (b + bi) = true) ∨
      b ≠ 0 ∧ b < sb.size.toNat ∧ s.bitmap b = false ∧ ∃ l, s' = s.alloc b l) s := by
  induction bs with
  | nil => exact Or.inl ⟨rfl, rfl, nofun⟩
  | cons b rest ih =>
    obtain ⟨hlt, hmod⟩ := hbs b List.mem_cons_self
    have hnot := h.notMem_held hlt
    rw [ballocBlocks, ends_bind]
    refine ends_bread hnot ?_
    rw [ends_bind]
    refine (ends_ballocBits h b fun bi hm => ?_).post fun r s' hr => ?_
    · have hm' := List.mem_range.1 hm
      exact ⟨by omega, BBLOCK_add hmod (lt_of_lt_of_le hm' (Nat.min_le_left ..))⟩
    · cases r with
      | some addr =>
        obtain ⟨hsize, hfree, l, rfl⟩ := hr
        have hpos := lt_of_lt_of_le (Nat.succ_pos _) (h.dataStart_le hfree)
        exact Or.inr ⟨hpos.ne', hsize, hfree, l, rfl⟩
      | none =>
        obtain ⟨rfl, hused⟩ := hr
        change Ends (brelse (sb.BBLOCK b) >>= fun _ => ballocBlocks sb rest) _ _
        rw [ends_bind]
        refine ends_brelse rfl ?_
        refine Program.Meets.post (ih fun b' hm => hbs b' (List.mem_cons_of_mem b hm)) ?_
        rintro r s' (⟨hr, hs, hrest⟩ | hr)
        · refine Or.inl ⟨hr, hs, List.forall_mem_cons.2 ⟨fun bi hbi => ?_, hrest⟩⟩
          exact hused bi (List.mem_range.2 hbi)
        · exact Or.inr hr

/-- All blocks are in use. -/
def FullDisk (sb : Superblock) (s : Disk) : Prop := ∀ b < sb.size.toNat, s.bitmap b = true

/-- `balloc` returns a block that was free, zeroed and marked in use, or 0 if there is none. -/
theorem ends_balloc (h : Ready sb s) : Ends (balloc sb) (fun b s' =>
    b = 0 ∧ s' = s ∧ FullDisk sb s ∨
    b ≠ 0 ∧ b < sb.size.toNat ∧ s.bitmap b = false ∧ ∃ l, s' = s.alloc b l) s := by
  have hpos : 0 < BPB := by decide
  refine Program.Meets.post (ends_ballocBlocks h fun b hm => ?_) fun b s' hb => ?_
  · obtain ⟨k, hk, rfl⟩ := List.mem_map.1 hm
    have hk' := List.mem_range.1 hk
    rw [Nat.lt_div_iff_mul_lt hpos] at hk'
    exact ⟨by omega, Nat.mul_mod_left k BPB⟩
  · rcases hb with ⟨hb, hs, hused⟩ | hb
    · refine Or.inl ⟨hb, hs, fun x hx => ?_⟩
      have hdiv := Nat.div_add_mod x BPB
      have hmod := Nat.mod_lt x hpos
      have hk : x / BPB < (sb.size.toNat + BPB - 1) / BPB := by
        rw [Nat.lt_div_iff_mul_lt hpos, Nat.mul_comm]
        omega
      have := hused (x / BPB * BPB) (List.mem_map.2 ⟨_, List.mem_range.2 hk, rfl⟩) (x % BPB)
        (by rw [Nat.mul_comm]; omega)
      rwa [Nat.mul_comm, hdiv] at this
    · exact Or.inr hb

/-- `bfree` of a block in use. -/
theorem ends_bfree (h : Ready sb s) (hb : b < sb.size.toNat) (hbit : s.bitmap b = true) :
    Ends (bfree sb b) (fun _ s' => ∃ l, s' = s.free b l) s := by
  rw [bfree, ends_bind]
  refine ends_bread (h.notMem_held hb) ?_
  rw [ends_bind, ends_bit, if_neg (by rw [Disk.lock, hbit]; exact nofun), ends_bind, ends_setBit,
    ends_bind]
  refine ends_logWrite h.outstanding ?_
  exact ends_brelse rfl ⟨(s.log (sb.BBLOCK b)).logged, rfl⟩

/-- `iupdate` writes the copy to the inode's block. -/
theorem ends_iupdate {inum : ℕ} {d : Inode.Dinode} (hs : 1 ≤ s.outstanding)
    (hi : sb.IBLOCK inum ∉ s.held) : Ends (iupdate sb inum d)
    (fun _ s' => ∃ l, s' = { s with dinode := Function.update s.dinode inum d, logged := l }) s := by
  rw [iupdate, ends_bind]
  refine ends_bread hi ?_
  rw [ends_bind, ends_setDinode, ends_bind]
  refine ends_logWrite hs ?_
  exact ends_brelse rfl ⟨(s.log (sb.IBLOCK inum)).logged, rfl⟩

end Xv6.Fs
