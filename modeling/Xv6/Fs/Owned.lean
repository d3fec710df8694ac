import Xv6.Fs.Alloc

/-!
# Owners of blocks

Each block number on the disk stands in a *slot* of an inode: one of its direct blocks, its indirect
block, or an entry of the indirect block. `Owned sb s v`: no block stands in two slots, and all of
them are data blocks in use; `v i` is the dinode `i`, or its copy in memory if the inode is locked.

`Extends s d s' d'`: an operation on one inode has kept its blocks, may have allocated more, and has
not touched the blocks of the others.
-/

namespace Xv6.Fs

open Inode (Dinode NDIRECT)

instance : NeZero NINDIRECT := ⟨by decide⟩

/-- A place of an inode that holds a block number. -/
inductive Slot
  | direct (k : Fin NDIRECT)
  | indirect
  | entry (j : Fin NINDIRECT)
  deriving DecidableEq

/-- The slot of the `bn`-th block of a file. -/
def Slot.ofIndex (bn : ℕ) : Slot :=
  if h : bn < NDIRECT then .direct ⟨bn, h⟩ else .entry (Fin.ofNat NINDIRECT (bn - NDIRECT))

/-- The slots that `bmap` of the block `bn` may fill. -/
def Slot.Touched (bn : ℕ) (k : Slot) : Prop := k = .ofIndex bn ∨ k = .indirect ∧ NDIRECT ≤ bn

namespace Disk

variable (s : Disk) (d : Dinode)

/-- The indirect block, or 0. -/
def indirect (d : Dinode) : ℕ := (d.addrs (Fin.last NDIRECT)).toNat

/-- The block number in a slot, or 0. -/
def slot : Slot → ℕ
  | .direct k => (d.addrs k.castSucc).toNat
  | .indirect => indirect d
  | .entry j => if indirect d = 0 then 0 else ((s.data (indirect d)).word j).toNat

/-- The block number of the `bn`-th block of a file, or 0. -/
def mapped (bn : ℕ) : ℕ := s.slot d (.ofIndex bn)

/-- The `k`-th byte of a file; a block that is not there reads as zeros. -/
def byte (k : ℕ) : UInt8 :=
  if s.mapped d (k / BSIZE) = 0 then 0 else s.data (s.mapped d (k / BSIZE)) (k % BSIZE)

end Disk

/-- Each block in a slot has one owner and is marked in use. -/
structure Owned (sb : Superblock) (s : Disk) (v : ℕ → Dinode) : Prop where
  used : ∀ i k, s.slot (v i) k ≠ 0 → sb.dataStart ≤ s.slot (v i) k ∧
    s.slot (v i) k < sb.size.toNat ∧ s.bitmap (s.slot (v i) k) = true
  inj : ∀ i k i' k', s.slot (v i) k ≠ 0 → s.slot (v i) k = s.slot (v i') k' → i = i' ∧ k = k'

/-- What an operation on the inode `d` may change. -/
structure Extends (s : Disk) (d : Dinode) (s' : Disk) (d' : Dinode) : Prop where
  held : s'.held = s.held
  outstanding : s'.outstanding = s.outstanding
  dinode : s'.dinode = s.dinode
  fields : { d' with addrs := d.addrs } = d
  bits : ∀ b, s.bitmap b = true → s'.bitmap b = true
  taken : ∀ b, s'.bitmap b = true → s.bitmap b = true ∨
    ∃ k, s.slot d k = 0 ∧ s'.slot d' k = b ∧ b ≠ 0
  others : ∀ b, s.bitmap b = true → (∀ k, s.slot d k ≠ b) → s'.data b = s.data b
  slots : ∀ k, s.slot d k ≠ 0 → s'.slot d' k = s.slot d k
  fresh : ∀ k, s.slot d k = 0 → s'.slot d' k ≠ 0 → s.bitmap (s'.slot d' k) = false

variable {sb : Superblock} {s s' s'' : Disk} {d d' d'' : Dinode} {v : ℕ → Dinode} {i b : ℕ}

/-! ## Slots -/

theorem slot_congr (h : Disk.indirect d ≠ 0 → s'.data (Disk.indirect d) = s.data (Disk.indirect d))
    (k : Slot) : s'.slot d k = s.slot d k := by
  cases k with
  | direct k => rfl
  | indirect => rfl
  | entry j =>
    rw [Disk.slot, Disk.slot]
    split_ifs with h0
    · rfl
    · rw [h h0]

/-- The other fields of the dinode do not matter. -/
theorem slot_of_addrs (h : d'.addrs = d.addrs) (k : Slot) : s.slot d' k = s.slot d k := by
  have hind : Disk.indirect d' = Disk.indirect d := by rw [Disk.indirect, Disk.indirect, h]
  cases k with
  | direct k => rw [Disk.slot, Disk.slot, h]
  | indirect => exact hind
  | entry j => rw [Disk.slot, Disk.slot, hind]

theorem slot_of_addrs_eq_zero (h : ∀ k, d.addrs k = 0) (k : Slot) : s.slot d k = 0 := by
  have hind : Disk.indirect d = 0 := congrArg UInt32.toNat (h _)
  cases k with
  | direct k => exact congrArg UInt32.toNat (h _)
  | indirect => exact hind
  | entry j => rw [Disk.slot, if_pos hind]

theorem byte_of_addrs (h : d'.addrs = d.addrs) (k : ℕ) : s.byte d' k = s.byte d k := by
  rw [Disk.byte, Disk.byte, Disk.mapped, Disk.mapped, slot_of_addrs h]

theorem ofIndex_inj {bn bn' : ℕ} (h : bn < MAXFILE) (h' : bn' < MAXFILE)
    (he : Slot.ofIndex bn = Slot.ofIndex bn') : bn = bn' := by
  have hmod : ∀ {x}, x < MAXFILE → ¬x < NDIRECT → (x - NDIRECT) % NINDIRECT = x - NDIRECT := by
    intro x hx hx'
    rw [MAXFILE] at hx
    exact Nat.mod_eq_of_lt (by omega)
  rw [Slot.ofIndex, Slot.ofIndex] at he
  split_ifs at he with h₁ h₂ h₂
  · cases he
    rfl
  · have he' := congrArg Fin.val (Slot.entry.inj he)
    rw [Fin.val_ofNat, Fin.val_ofNat, hmod h h₁, hmod h' h₂] at he'
    omega

theorem ofIndex_ne_indirect (bn : ℕ) : Slot.ofIndex bn ≠ .indirect := by
  rw [Slot.ofIndex]
  split_ifs <;> exact nofun

namespace Extends

theorem refl (s : Disk) (d : Dinode) : Extends s d s d where
  held := rfl
  outstanding := rfl
  dinode := rfl
  fields := rfl
  bits _ hb := hb
  taken _ hb := Or.inl hb
  others _ _ _ := rfl
  slots _ _ := rfl
  fresh _ h0 hne := (hne h0).elim

theorem trans (h : Extends s d s' d') (h' : Extends s' d' s'' d'') : Extends s d s'' d'' where
  held := h'.held.trans h.held
  outstanding := h'.outstanding.trans h.outstanding
  dinode := h'.dinode.trans h.dinode
  fields := by
    have hf := h.fields
    rw [← h'.fields] at hf
    exact hf
  bits b hb := h'.bits b (h.bits b hb)
  taken b hb := by
    rcases h'.taken b hb with hb' | ⟨k, h0, hk, hb0⟩
    · rcases h.taken b hb' with hb'' | ⟨k, h0, hk, hb0⟩
      · exact Or.inl hb''
      · exact Or.inr ⟨k, h0, (h'.slots k (hk.trans_ne hb0)).trans hk, hb0⟩
    · refine Or.inr ⟨k, ?_, hk, hb0⟩
      by_contra hne
      exact hne ((h.slots k hne).symm.trans h0)
  others b hb hk := by
    rw [h'.others b (h.bits b hb) fun k hk' => ?_, h.others b hb hk]
    by_cases h0 : s.slot d k = 0
    · by_cases hb0 : b = 0
      · exact hk k (h0.trans hb0.symm)
      · have hf := h.fresh k h0 (hk' ▸ hb0)
        rw [hk', hb] at hf
        cases hf
    · exact hk k ((h.slots k h0).symm.trans hk')
  slots k h0 := by
    have he := h.slots k h0
    rw [h'.slots k (he ▸ h0), he]
  fresh k h0 hne := by
    by_cases h0' : s'.slot d' k = 0
    · have hf := h'.fresh k h0' hne
      by_contra hb
      rw [h.bits _ (Bool.not_eq_false _ ▸ hb)] at hf
      cases hf
    · rw [h'.slots k h0']
      exact h.fresh k h0 h0'

theorem mapped (h : Extends s d s' d') {bn : ℕ} (h0 : s.mapped d bn ≠ 0) :
    s'.mapped d' bn = s.mapped d bn :=
  h.slots _ h0

end Extends

namespace Owned

/-- The slots and the bitmap are all that matters. -/
theorem congr {v' : ℕ → Dinode} (h : Owned sb s v)
    (hslot : ∀ i k, s'.slot (v' i) k = s.slot (v i) k) (hbits : s'.bitmap = s.bitmap) :
    Owned sb s' v' where
  used i k h0 := by
    rw [hslot] at h0 ⊢
    rw [hbits]
    exact h.used i k h0
  inj i k i' k' h0 he := by
    rw [hslot] at h0 he
    rw [hslot] at he
    exact h.inj i k i' k' h0 he

/-- The blocks of other inodes stay as they are. -/
theorem slot_of_ne (h : Owned sb s v) (he : Extends s (v i) s' d') {j : ℕ} (hj : j ≠ i) (k : Slot) :
    s'.slot (v j) k = s.slot (v j) k := by
  refine slot_congr (fun h0 => ?_) k
  have hused : s.slot (v j) .indirect ≠ 0 := h0
  refine he.others _ (h.used j .indirect hused).2.2 fun k' hk => hj ?_
  exact (h.inj j .indirect i k' hused hk.symm).1

/-- So do their contents. -/
theorem byte_of_ne (h : Owned sb s v) (he : Extends s (v i) s' d') {j : ℕ} (hj : j ≠ i) (k : ℕ) :
    s'.byte (v j) k = s.byte (v j) k := by
  have hm : s'.mapped (v j) (k / BSIZE) = s.mapped (v j) (k / BSIZE) := h.slot_of_ne he hj _
  rw [Disk.byte, Disk.byte, hm]
  split_ifs with h0
  · rfl
  · have hdata : s'.data (s.mapped (v j) (k / BSIZE)) = s.data (s.mapped (v j) (k / BSIZE)) :=
      he.others _ (h.used j _ h0).2.2 fun k' hk => hj (h.inj j _ i k' h0 hk.symm).1
    rw [hdata]

/-- An operation on the inode `i` that has filled its new slots with different blocks. -/
theorem of_extends (h : Owned sb s v) (he : Extends s (v i) s' d')
    (hused : ∀ k, s.slot (v i) k = 0 → s'.slot d' k ≠ 0 → sb.dataStart ≤ s'.slot d' k ∧
      s'.slot d' k < sb.size.toNat ∧ s'.bitmap (s'.slot d' k) = true)
    (hinj : ∀ k k', s.slot (v i) k = 0 → s.slot (v i) k' = 0 → s'.slot d' k ≠ 0 →
      s'.slot d' k = s'.slot d' k' → k = k') : Owned sb s' (Function.update v i d') := by
  -- a slot of `v` keeps its block; a slot of `i` that was empty has a block that was free
  have hslot : ∀ j k, s'.slot (Function.update v i d' j) k ≠ 0 →
      (s.slot (v j) k ≠ 0 ∧ s'.slot (Function.update v i d' j) k = s.slot (v j) k) ∨
        (j = i ∧ s.slot (v i) k = 0 ∧ s'.slot (Function.update v i d' j) k = s'.slot d' k ∧
          s.bitmap (s'.slot d' k) = false) := by
    intro j k hne
    by_cases hj : j = i
    · subst hj
      rw [Function.update_self] at hne ⊢
      by_cases h0 : s.slot (v j) k = 0
      · exact Or.inr ⟨rfl, h0, rfl, he.fresh k h0 hne⟩
      · exact Or.inl ⟨h0, he.slots k h0⟩
    · rw [Function.update_of_ne hj] at hne ⊢
      have hs := h.slot_of_ne he hj k
      exact Or.inl ⟨hs ▸ hne, hs⟩
  refine ⟨fun j k hne => ?_, fun j k j' k' hne heq => ?_⟩
  · rcases hslot j k hne with ⟨h0, hs⟩ | ⟨-, h0, hs, -⟩
    · obtain ⟨h₁, h₂, h₃⟩ := h.used j k h0
      rw [hs]
      exact ⟨h₁, h₂, he.bits _ h₃⟩
    · rw [hs] at hne ⊢
      exact hused k h0 hne
  · rcases hslot j k hne with ⟨h0, hs⟩ | ⟨hj, h0, hs, hfree⟩ <;>
      rcases hslot j' k' (heq ▸ hne) with ⟨h0', hs'⟩ | ⟨hj', h0', hs', hfree'⟩
    · exact h.inj j k j' k' h0 (hs.symm.trans (heq.trans hs'))
    · have hb := (h.used j k h0).2.2
      rw [← hs, heq, hs', hfree'] at hb
      cases hb
    · have hb := (h.used j' k' h0').2.2
      rw [← hs', ← heq, hs, hfree] at hb
      cases hb
    · refine ⟨hj.trans hj'.symm, hinj k k' h0 h0' (hs ▸ hne) ?_⟩
      rw [← hs, heq, hs']

end Owned

end Xv6.Fs
