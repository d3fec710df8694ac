import Xv6.Fs.Writei

/-!
# itrunc and iupdate

`itrunc` frees the blocks of an inode one after the other: none of them is in a slot of another
inode, and none is freed twice. `iupdate` writes fields other than the size and the blocks.
-/

namespace Xv6.Fs

open Inode (Dinode NDIRECT)

variable {sb : Superblock} {s s' s'' : Disk} {d d' : Dinode} {v : ℕ → Dinode} {i b : ℕ}

/-- The blocks in `F` have been freed, and nothing else has changed. -/
structure Freed (s : Disk) (F : ℕ → Prop) (s' : Disk) : Prop where
  held : s'.held = s.held
  outstanding : s'.outstanding = s.outstanding
  dinode : s'.dinode = s.dinode
  data : s'.data = s.data
  bits : ∀ b, s'.bitmap b = true ↔ s.bitmap b = true ∧ ¬F b

namespace Freed

theorem refl (s : Disk) : Freed s (fun _ => False) s where
  held := rfl
  outstanding := rfl
  dinode := rfl
  data := rfl
  bits _ := ⟨fun h => ⟨h, not_false⟩, And.left⟩

theorem trans {F G : ℕ → Prop} (h : Freed s F s') (h' : Freed s' G s'') :
    Freed s (fun b => F b ∨ G b) s'' where
  held := h'.held.trans h.held
  outstanding := h'.outstanding.trans h.outstanding
  dinode := h'.dinode.trans h.dinode
  data := h'.data.trans h.data
  bits b := by rw [h'.bits, h.bits, not_or, and_assoc]

theorem congr {F G : ℕ → Prop} (h : Freed s F s') (hFG : ∀ b, F b ↔ G b) : Freed s G s' where
  held := h.held
  outstanding := h.outstanding
  dinode := h.dinode
  data := h.data
  bits b := by rw [h.bits, hFG]

theorem free (s : Disk) (b : ℕ) (l : List ℕ) : Freed s (· = b) (s.free b l) where
  held := rfl
  outstanding := rfl
  dinode := rfl
  data := rfl
  bits x := by
    have hx : (s.free b l).bitmap x = if x = b then false else s.bitmap x :=
      Function.update_apply ..
    rw [hx]
    split_ifs with h
    · exact iff_of_false not_false fun h' => h'.2 h
    · exact ⟨fun h' => ⟨h', h⟩, And.left⟩

/-- Data blocks that are not locked have been freed. -/
theorem ready {F : ℕ → Prop} (h : Freed s F s') (hs : Ready sb s)
    (hF : ∀ b, F b → sb.dataStart ≤ b ∧ b ∉ s.held) : Ready sb s' where
  outstanding := h.outstanding ▸ hs.outstanding
  held b hb := by
    rw [h.held] at hb
    exact ⟨(hs.held b hb).1, (h.bits b).2 ⟨(hs.held b hb).2, fun hf => (hF b hf).2 hb⟩⟩
  metadata b hb := (h.bits b).2 ⟨hs.metadata b hb, fun hf => absurd hb (Nat.not_lt.2 (hF b hf).1)⟩

end Freed

/-- A block that may be freed. -/
def Loose (sb : Superblock) (s : Disk) (b : ℕ) : Prop :=
  sb.dataStart ≤ b ∧ b < sb.size.toNat ∧ s.bitmap b = true ∧ b ∉ s.held

theorem Loose.of_freed {F : ℕ → Prop} (h : Loose sb s b) (hf : Freed s F s') (hb : ¬F b) :
    Loose sb s' b :=
  ⟨h.1, h.2.1, (hf.bits b).2 ⟨h.2.2.1, hb⟩, hf.held ▸ h.2.2.2⟩

theorem Loose.ends_bfree (h : Loose sb s b) (hs : Ready sb s) :
    Ends (bfree sb b) (fun _ s' => Freed s (· = b) s' ∧ Ready sb s') s := by
  refine (Fs.ends_bfree hs h.2.1 h.2.2.1).post ?_
  rintro _ s' ⟨l, rfl⟩
  refine ⟨Freed.free s b l, (Freed.free s b l).ready hs ?_⟩
  rintro x rfl
  exact ⟨h.1, h.2.2.2⟩

/-- The loop over the entries of the indirect block. -/
theorem ends_itruncEntries (a : Block) {js : List ℕ} (hnd : js.Nodup) (hs : Ready sb s)
    (hloose : ∀ j ∈ js, (a.word j).toNat ≠ 0 → Loose sb s (a.word j).toNat)
    (hinj : ∀ j ∈ js, ∀ j' ∈ js, (a.word j).toNat ≠ 0 → (a.word j).toNat = (a.word j').toNat →
      j = j') :
    Ends (itruncEntries sb a js) (fun _ s' =>
      Freed s (fun b => b ≠ 0 ∧ ∃ j ∈ js, (a.word j).toNat = b) s' ∧ Ready sb s') s := by
  induction js generalizing s with
  | nil =>
    refine ⟨(Freed.refl s).congr fun b => ⟨False.elim, fun h => ?_⟩, hs⟩
    obtain ⟨-, j, hj, -⟩ := h
    exact List.not_mem_nil hj
  | cons j rest ih =>
    obtain ⟨hj, hnd'⟩ := List.nodup_cons.1 hnd
    rw [itruncEntries]
    by_cases h0 : (a.word j).toNat = 0
    · rw [if_neg (not_not.2 h0)]
      refine (ih hnd' hs (fun j' hm => hloose j' (List.mem_cons_of_mem j hm))
        fun j' hm j'' hm' => hinj j' (List.mem_cons_of_mem j hm) j''
          (List.mem_cons_of_mem j hm')).post fun _ s' hf => ⟨hf.1.congr fun b => ?_, hf.2⟩
      constructor
      · rintro ⟨hb, j', hm, he⟩
        exact ⟨hb, j', List.mem_cons_of_mem j hm, he⟩
      · rintro ⟨hb, j', hm, he⟩
        rcases List.mem_cons.1 hm with rfl | hm
        · exact (hb (he.symm.trans h0)).elim
        · exact ⟨hb, j', hm, he⟩
    · rw [if_pos h0, ends_bind]
      refine ((hloose j List.mem_cons_self h0).ends_bfree hs).post fun _ s₁ hf₁ => ?_
      have hne : ∀ j' ∈ rest, (a.word j').toNat ≠ (a.word j).toNat := by
        intro j' hm he
        have := hinj j List.mem_cons_self j' (List.mem_cons_of_mem j hm) h0 he.symm
        exact hj (this ▸ hm)
      refine (ih hnd' hf₁.2 (fun j' hm h0' =>
        (hloose j' (List.mem_cons_of_mem j hm) h0').of_freed hf₁.1 (hne j' hm))
        fun j' hm j'' hm' => hinj j' (List.mem_cons_of_mem j hm) j''
          (List.mem_cons_of_mem j hm')).post fun _ s' hf =>
            ⟨(hf₁.1.trans hf.1).congr fun b => ?_, hf.2⟩
      constructor
      · rintro (rfl | ⟨hb, j', hm, he⟩)
        · exact ⟨h0, j, List.mem_cons_self, rfl⟩
        · exact ⟨hb, j', List.mem_cons_of_mem j hm, he⟩
      · rintro ⟨hb, j', hm, he⟩
        rcases List.mem_cons.1 hm with rfl | hm
        · exact Or.inl he.symm
        · exact Or.inr ⟨hb, j', hm, he⟩

/-- The dinode `d'` is `d` without the direct blocks `ks`. -/
structure Cleared (d : Dinode) (ks : List (Fin NDIRECT)) (d' : Dinode) : Prop where
  fields : { d' with addrs := d.addrs } = d
  zero : ∀ k ∈ ks, d'.addrs k.castSucc = 0
  other : ∀ k, (∀ k' ∈ ks, k ≠ k'.castSucc) → d'.addrs k = d.addrs k

/-- The loop over the direct blocks. -/
theorem ends_itruncDirect {ks : List (Fin NDIRECT)} (hnd : ks.Nodup) (hs : Ready sb s)
    (hloose : ∀ k ∈ ks, s.slot d (.direct k) ≠ 0 → Loose sb s (s.slot d (.direct k)))
    (hinj : ∀ k ∈ ks, ∀ k' ∈ ks, s.slot d (.direct k) ≠ 0 →
      s.slot d (.direct k) = s.slot d (.direct k') → k = k') :
    Ends (itruncDirect sb ks d) (fun d' s' =>
      Freed s (fun b => b ≠ 0 ∧ ∃ k ∈ ks, s.slot d (.direct k) = b) s' ∧ Ready sb s' ∧
        Cleared d ks d') s := by
  induction ks generalizing s d with
  | nil =>
    refine ⟨(Freed.refl s).congr fun b => ⟨False.elim, fun h => ?_⟩, hs, rfl, nofun, fun _ _ => rfl⟩
    obtain ⟨-, k, hk, -⟩ := h
    exact List.not_mem_nil hk
  | cons k rest ih =>
    obtain ⟨hk, hnd'⟩ := List.nodup_cons.1 hnd
    rw [itruncDirect]
    by_cases h0 : (d.addrs k.castSucc).toNat = 0
    · rw [if_neg (not_not.2 h0)]
      refine (ih hnd' hs (fun k' hm => hloose k' (List.mem_cons_of_mem k hm))
        fun k' hm k'' hm' => hinj k' (List.mem_cons_of_mem k hm) k''
          (List.mem_cons_of_mem k hm')).post fun d' s' ⟨hf, hr, hc⟩ =>
            ⟨hf.congr fun b => ?_, hr, hc.fields, fun k' hm => ?_, fun k' hne => ?_⟩
      · constructor
        · rintro ⟨hb, k', hm, he⟩
          exact ⟨hb, k', List.mem_cons_of_mem k hm, he⟩
        · rintro ⟨hb, k', hm, he⟩
          rcases List.mem_cons.1 hm with rfl | hm
          · exact (hb (he.symm.trans h0)).elim
          · exact ⟨hb, k', hm, he⟩
      · rcases List.mem_cons.1 hm with rfl | hm
        · have hne' : ∀ k'' ∈ rest, k'.castSucc ≠ k''.castSucc := fun k'' hm' he =>
            hk (Fin.castSucc_inj.1 he ▸ hm')
          rw [hc.other _ hne']
          exact UInt32.toNat_inj.1 h0
        · exact hc.zero k' hm
      · exact hc.other k' fun k'' hm => hne k'' (List.mem_cons_of_mem k hm)
    · rw [if_pos h0, ends_bind]
      refine ((hloose k List.mem_cons_self h0).ends_bfree hs).post fun _ s₁ ⟨hf₁, hr₁⟩ => ?_
      have hslot : ∀ k' ∈ rest, s₁.slot (setAddr d k.castSucc 0) (.direct k') =
          s.slot d (.direct k') := by
        intro k' hm
        rw [slot_setAddr k (by decide),
          if_neg fun he : Slot.direct k' = .direct k => hk (Slot.direct.inj he ▸ hm)]
        rfl
      have hne : ∀ k' ∈ rest, s.slot d (.direct k') ≠ s.slot d (.direct k) := by
        intro k' hm he
        have := hinj k List.mem_cons_self k' (List.mem_cons_of_mem k hm) h0 he.symm
        exact hk (this ▸ hm)
      refine (ih hnd' hr₁ (fun k' hm h0' => ?_) fun k' hm k'' hm' h0' he => ?_).post
        fun d' s' ⟨hf, hr, hc⟩ => ⟨(hf₁.trans hf).congr fun b => ?_, hr, ?_, fun k' hm => ?_,
          fun k' hne' => ?_⟩
      · rw [hslot k' hm] at h0' ⊢
        exact (hloose k' (List.mem_cons_of_mem k hm) h0').of_freed hf₁ (hne k' hm)
      · rw [hslot k' hm] at h0' he
        rw [hslot k'' hm'] at he
        exact hinj k' (List.mem_cons_of_mem k hm) k'' (List.mem_cons_of_mem k hm') h0' he
      · constructor
        · rintro (rfl | ⟨hb, k', hm, he⟩)
          · exact ⟨h0, k, List.mem_cons_self, rfl⟩
          · exact ⟨hb, k', List.mem_cons_of_mem k hm, (hslot k' hm).symm.trans he⟩
        · rintro ⟨hb, k', hm, he⟩
          rcases List.mem_cons.1 hm with rfl | hm
          · exact Or.inl he.symm
          · exact Or.inr ⟨hb, k', hm, (hslot k' hm).trans he⟩
      · have hfields := hc.fields
        have hset : { setAddr d k.castSucc 0 with addrs := d.addrs } = d := rfl
        rw [← hset, ← hfields]
      · rcases List.mem_cons.1 hm with rfl | hm
        · have hne' : ∀ k'' ∈ rest, k'.castSucc ≠ k''.castSucc := fun k'' hm' he =>
            hk (Fin.castSucc_inj.1 he ▸ hm')
          rw [hc.other _ hne']
          exact Function.update_self ..
        · exact hc.zero k' hm
      · rw [hc.other k' fun k'' hm => hne' k'' (List.mem_cons_of_mem k hm)]
        exact addrs_setAddr_of_ne d (hne' k List.mem_cons_self)

/-! ## itrunc -/

theorem slot_trunc (d : Dinode) (k : Slot) : s.slot d.trunc k = 0 := by
  cases k with
  | direct k => rfl
  | indirect => rfl
  | entry j =>
    rw [Disk.slot, if_pos]
    rfl

/-- The blocks of a dinode. -/
def Disk.HasBlock (s : Disk) (d : Dinode) (b : ℕ) : Prop := b ≠ 0 ∧ ∃ k, s.slot d k = b

/-- The blocks of the inode have been freed, and its empty dinode is written. -/
theorem Updated.of_freed {s₁ : Disk} (h : Consistent sb s)
    (hf : Freed s (s.HasBlock (s.dinode i)) s₁) (l : List ℕ) :
    Updated sb s i { s₁ with
      dinode := Function.update s₁.dinode i (s.dinode i).trunc, logged := l }
      (s.dinode i).trunc := by
  have hslot : ∀ d k, s₁.slot d k = s.slot d k := fun d k => by
    cases k <;> simp only [Disk.slot, hf.data]
  have hfile : ∀ d, SameFile s s₁ d := fun d => by
    refine ⟨hslot d, fun k => ?_⟩
    rw [Disk.byte, Disk.byte, Disk.mapped, Disk.mapped, hslot, hf.data]
  refine Updated.of h hf.held hf.outstanding hf.dinode (fun b hb => ?_) ⟨fun j k h0 => ?_,
    fun j k j' k' h0 he => ?_⟩ (fun j _ => hfile _) ⟨Nat.zero_le _, fun bn hbn => ?_⟩ l
  · refine (hf.bits b).2 ⟨h.metadata b hb, ?_⟩
    rintro ⟨hb0, k, rfl⟩
    exact absurd hb (Nat.not_lt.2 (h.owned.used i k hb0).1)
  · by_cases hj : j = i
    · rw [hj, Function.update_self, slot_trunc] at h0
      exact (h0 rfl).elim
    · rw [Function.update_of_ne hj, hslot] at h0 ⊢
      obtain ⟨h₁, h₂, h₃⟩ := h.owned.used j k h0
      refine ⟨h₁, h₂, (hf.bits _).2 ⟨h₃, ?_⟩⟩
      rintro ⟨-, k', he⟩
      exact hj (h.owned.inj j k i k' h0 he.symm).1
  · by_cases hj : j = i
    · rw [hj, Function.update_self, slot_trunc] at h0
      exact (h0 rfl).elim
    · by_cases hj' : j' = i
      · rw [hj', Function.update_self, slot_trunc] at he
        exact (h0 he).elim
      · rw [Function.update_of_ne hj, hslot] at h0 he
        rw [Function.update_of_ne hj', hslot] at he
        exact h.owned.inj j k j' k' h0 he
  · exact (Nat.not_lt_zero _ hbn).elim

theorem Consistent.loose (h : Consistent sb s) {k : Slot} (h0 : s.slot (s.dinode i) k ≠ 0) :
    Loose sb s (s.slot (s.dinode i) k) := by
  obtain ⟨h₁, h₂, h₃⟩ := h.owned.used i k h0
  refine ⟨h₁, h₂, h₃, ?_⟩
  rw [h.held]
  exact List.not_mem_nil

/-- Unlocking a buffer does not matter. -/
theorem Freed.unlock {F : ℕ → Prop} (h : Freed (s.lock b) F s') :
    Freed s F { s' with held := s.held } where
  held := rfl
  outstanding := h.outstanding
  dinode := h.dinode
  data := h.data
  bits := h.bits

/-- The indirect block and its entries are freed. -/
theorem ends_itruncIndirect {addr : ℕ} (hr : Ready sb s) (hheld : s.held = [])
    (haddr : Loose sb s addr)
    (hloose : ∀ j < NINDIRECT, ((s.data addr).word j).toNat ≠ 0 →
      Loose sb s ((s.data addr).word j).toNat ∧ ((s.data addr).word j).toNat ≠ addr)
    (hinj : ∀ j < NINDIRECT, ∀ j' < NINDIRECT, ((s.data addr).word j).toNat ≠ 0 →
      ((s.data addr).word j).toNat = ((s.data addr).word j').toNat → j = j') :
    Ends (itruncIndirect sb addr) (fun _ s' => Freed s (fun b => (b ≠ 0 ∧
      ∃ j ∈ List.range NINDIRECT, ((s.data addr).word j).toNat = b) ∨ b = addr) s' ∧
        Ready sb s') s := by
  rw [itruncIndirect, ends_bind]
  refine ends_bread haddr.2.2.2 ?_
  rw [ends_bind, ends_data, ends_bind]
  refine Program.Meets.post (ends_itruncEntries _ List.nodup_range
    (hr.lock haddr.1 haddr.2.2.1) (fun j hj h0 => ?_) fun j hj j' hj' => ?_) fun _ s₁ ⟨hf₁, hr₁⟩ => ?_
  · obtain ⟨hl, hne⟩ := hloose j (List.mem_range.1 hj) h0
    refine ⟨hl.1, hl.2.1, hl.2.2.1, fun hm => ?_⟩
    rcases List.mem_cons.1 hm with he | hm
    · exact hne he
    · exact hl.2.2.2 hm
  · exact hinj j (List.mem_range.1 hj) j' (List.mem_range.1 hj')
  · rw [ends_bind]
    refine ends_brelse hf₁.held ?_
    have hf : Freed s (fun b => b ≠ 0 ∧
        ∃ j ∈ List.range NINDIRECT, ((s.data addr).word j).toNat = b)
        { s₁ with held := s.held } := hf₁.unlock
    have hr' : Ready sb { s₁ with held := s.held } := by
      refine ⟨hr₁.outstanding, fun b hb => ?_, hr₁.metadata⟩
      have hb' : b ∈ s.held := hb
      rw [hheld] at hb'
      exact (List.not_mem_nil hb').elim
    have hloose' : Loose sb { s₁ with held := s.held } addr := by
      refine haddr.of_freed hf ?_
      rintro ⟨h0, j, hj, he⟩
      exact (hloose j (List.mem_range.1 hj) (he.trans_ne h0)).2 he
    exact Program.Meets.post (hloose'.ends_bfree hr') fun _ s₂ ⟨hf₂, hr₂⟩ => ⟨hf.trans hf₂, hr₂⟩

/-- The dinode that `itrunc` leaves. -/
theorem Cleared.eq_trunc {d₁ : Dinode} (hc : Cleared d (List.finRange NDIRECT) d₁)
    (haddrs : d'.addrs (Fin.last NDIRECT) = 0)
    (hd' : ∀ k : Fin NDIRECT, d'.addrs k.castSucc = d₁.addrs k.castSucc)
    (hfields : { d' with addrs := d₁.addrs, size := d₁.size } = d₁) (hsize : d'.size = 0) :
    d' = d.trunc := by
  have hzero : d'.addrs = fun _ => 0 := by
    funext k
    induction k using Fin.lastCases with
    | last => exact haddrs
    | cast k => exact (hd' k).trans (hc.zero k (List.mem_finRange k))
  have h₁ := hc.fields
  refine Dinode.ext ?_ ?_ ?_ ?_ hsize hzero
  · exact (congrArg Dinode.type hfields :).trans (congrArg Dinode.type h₁ :)
  · exact (congrArg Dinode.major hfields :).trans (congrArg Dinode.major h₁ :)
  · exact (congrArg Dinode.minor hfields :).trans (congrArg Dinode.minor h₁ :)
  · exact (congrArg Dinode.nlink hfields :).trans (congrArg Dinode.nlink h₁ :)

/-- The blocks of an inode: the direct ones, the entries of the indirect one, and that one. -/
theorem hasBlock_iff {addr : ℕ} (hind : Disk.indirect d = addr) (h0 : addr ≠ 0) : s.HasBlock d b ↔
    (b ≠ 0 ∧ ∃ k ∈ List.finRange NDIRECT, s.slot d (.direct k) = b) ∨
      (b ≠ 0 ∧ ∃ j ∈ List.range NINDIRECT, ((s.data addr).word j).toNat = b) ∨ b = addr := by
  subst hind
  constructor
  · rintro ⟨hb, k, he⟩
    cases k with
    | direct k => exact Or.inl ⟨hb, k, List.mem_finRange k, he⟩
    | indirect => exact Or.inr (Or.inr he.symm)
    | entry j =>
      rw [Disk.slot, if_neg h0] at he
      exact Or.inr (Or.inl ⟨hb, j, List.mem_range.2 j.isLt, he⟩)
  · rintro (⟨hb, k, -, he⟩ | ⟨hb, j, hj, he⟩ | rfl)
    · exact ⟨hb, .direct k, he⟩
    · refine ⟨hb, .entry ⟨j, List.mem_range.1 hj⟩, ?_⟩
      rw [Disk.slot, if_neg h0]
      exact he
    · exact ⟨h0, .indirect, rfl⟩

theorem hasBlock_iff_of_eq_zero (hind : Disk.indirect d = 0) : s.HasBlock d b ↔
    b ≠ 0 ∧ ∃ k ∈ List.finRange NDIRECT, s.slot d (.direct k) = b := by
  constructor
  · rintro ⟨hb, k, he⟩
    cases k with
    | direct k => exact ⟨hb, k, List.mem_finRange k, he⟩
    | indirect => exact (hb (he.symm.trans hind)).elim
    | entry j =>
      rw [Disk.slot, if_pos hind] at he
      exact (hb he.symm).elim
  · rintro ⟨hb, k, -, he⟩
    exact ⟨hb, .direct k, he⟩

/-- **itrunc frees the blocks of the inode**, and no other ones. -/
theorem ends_itrunc (h : Consistent sb s) (hout : 1 ≤ s.outstanding) (i : ℕ) :
    Ends (itrunc sb i (s.dinode i)) (fun d' s' => d' = (s.dinode i).trunc ∧ Updated sb s i s' d' ∧
      ∀ b, s'.bitmap b = true ↔ s.bitmap b = true ∧ ¬s.HasBlock (s.dinode i) b) s := by
  have hnot : ∀ b, b ∉ s.held := fun b => h.held ▸ List.not_mem_nil
  -- the end of `itrunc`
  have hend : ∀ {d' : Dinode} {s₁ : Disk}, Freed s (s.HasBlock (s.dinode i)) s₁ → Ready sb s₁ →
      { d' with size := 0 } = (s.dinode i).trunc →
      Ends (do
        iupdate sb i { d' with size := 0 }
        return { d' with size := 0 }) (fun d' s' => d' = (s.dinode i).trunc ∧
        Updated sb s i s' d' ∧
          ∀ b, s'.bitmap b = true ↔ s.bitmap b = true ∧ ¬s.HasBlock (s.dinode i) b) s₁ := by
    intro d' s₁ hf hr htrunc
    rw [ends_bind, htrunc]
    refine (ends_iupdate hr.outstanding (hf.held ▸ hnot _)).post ?_
    rintro _ s' ⟨l, rfl⟩
    exact ⟨rfl, Updated.of_freed h hf l, hf.bits⟩
  rw [itrunc, ends_bind]
  refine (ends_itruncDirect (List.nodup_finRange NDIRECT) (h.ready hout)
    (fun k _ h0 => h.loose h0) fun k _ k' _ h0 he =>
      Slot.direct.inj (h.owned.inj i _ i _ h0 he).2).post fun d₁ s₁ hdone => ?_
  obtain ⟨hf₁, hr₁, hc⟩ := hdone
  have hlast : d₁.addrs (Fin.last NDIRECT) = (s.dinode i).addrs (Fin.last NDIRECT) :=
    hc.other _ fun k _ => (Fin.castSucc_lt_last k).ne'
  have hheld₁ : s₁.held = [] := hf₁.held.trans h.held
  dsimp only
  rw [hlast]
  generalize haddr : ((s.dinode i).addrs (Fin.last NDIRECT)).toNat = addr
  have hind : Disk.indirect (s.dinode i) = addr := haddr
  by_cases h0 : addr = 0
  · rw [if_neg (not_not.2 h0)]
    subst h0
    refine hend (hf₁.congr fun b => (hasBlock_iff_of_eq_zero hind).symm) hr₁ ?_
    exact hc.eq_trunc (hlast.trans (UInt32.toNat_inj.1 hind)) (fun _ => rfl) rfl rfl
  · have hloose := h.loose (i := i) (k := .indirect) (hind.trans_ne h0)
    have hne : ∀ k, k ≠ .indirect → s.slot (s.dinode i) k ≠ addr := by
      intro k hk he
      exact hk (h.owned.inj i .indirect i k (hind.trans_ne h0) (hind.trans he.symm)).2.symm
    have hdata : s₁.data addr = s.data addr := congrFun hf₁.data addr
    have hslot : ∀ j (hj : j < NINDIRECT), ((s₁.data addr).word j).toNat =
        s.slot (s.dinode i) (.entry ⟨j, hj⟩) := by
      intro j hj
      rw [Disk.slot, hind, if_neg h0, hdata]
    have hdirect : ∀ {k}, (∀ k', k ≠ .direct k') → s.slot (s.dinode i) k ≠ 0 →
        Loose sb s₁ (s.slot (s.dinode i) k) := by
      intro k hk hk0
      refine (h.loose hk0).of_freed hf₁ ?_
      rintro ⟨-, k', -, he⟩
      exact hk k' (h.owned.inj i _ i _ hk0 he.symm).2
    have hloose₁ : Loose sb s₁ addr := by
      have := hdirect (k := .indirect) (fun _ => by simp) (hind.trans_ne h0)
      rwa [Disk.slot, hind] at this
    rw [if_pos h0, ends_bind]
    refine (ends_itruncIndirect hr₁ hheld₁ hloose₁ (fun j hj hj0 => ?_)
      fun j hj j' hj' hj0 he => ?_).post fun _ s₂ hdone => ?_
    · rw [hslot j hj] at hj0 ⊢
      exact ⟨hdirect (fun _ => by simp) hj0, hne _ (by simp)⟩
    · rw [hslot j hj] at hj0 he
      rw [hslot j' hj'] at he
      exact congrArg Fin.val (Slot.entry.inj (h.owned.inj i _ i _ hj0 he).2)
    · obtain ⟨hf₂, hr₂⟩ := hdone
      rw [hdata] at hf₂
      refine hend ((hf₁.trans hf₂).congr fun b => (hasBlock_iff hind h0).symm) hr₂ ?_
      have haddrs : (setAddr d₁ (Fin.last NDIRECT) 0).addrs (Fin.last NDIRECT) = 0 :=
        UInt32.toNat_inj.1 (toNat_setAddr d₁ _ (by decide))
      exact hc.eq_trunc haddrs (fun k => addrs_setAddr_of_ne d₁ (Fin.castSucc_lt_last k).ne) rfl
        rfl

/-! ## iupdate -/

/-- The blocks of the inode `i` are the same in `d'`, and so is what they hold. -/
theorem ends_iupdate_fields (h : Consistent sb s) (hout : 1 ≤ s.outstanding)
    (haddrs : d'.addrs = (s.dinode i).addrs) (hsize : d'.size = (s.dinode i).size) :
    Ends (iupdate sb i d') (fun _ s' => Updated sb s i s' d' ∧ s'.bitmap = s.bitmap ∧
      s'.data = s.data) s := by
  refine (ends_iupdate hout (h.held ▸ List.not_mem_nil)).post ?_
  rintro _ s' ⟨l, rfl⟩
  have hno : NoHoles s d' := by
    refine ⟨hsize ▸ (h.noHoles i).size, fun bn hbn => ?_⟩
    rw [Disk.mapped, slot_of_addrs haddrs]
    exact (h.noHoles i).mapped bn (hsize ▸ hbn)
  have howned : Owned sb s (Function.update s.dinode i (s.dinode i)) := by
    rw [Function.update_eq_self]
    exact h.owned
  exact ⟨Updated.of_extends h howned (Extends.refl s _) haddrs hno l, rfl, rfl⟩

end Xv6.Fs
