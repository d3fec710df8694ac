import Xv6.Fs.Owned

/-!
# bmap

`bmap` returns the block of a file, or allocates one for it; then nothing else of the file changes,
and nothing of other files. If the block is there, it changes nothing at all.
-/

namespace Xv6.Fs

open Inode (Dinode NDIRECT)

variable {sb : Superblock} {s s' : Disk} {d d' : Dinode} {v : ℕ → Dinode} {i b : ℕ}

/-! ## Slots after an allocation -/

theorem slot_alloc {l : List ℕ} (hb : Disk.indirect d ≠ 0 → Disk.indirect d ≠ b) (k : Slot) :
    (s.alloc b l).slot d k = s.slot d k :=
  slot_congr (fun h0 => Function.update_of_ne (hb h0) ..) k

theorem toNat_setAddr (d : Dinode) (k : Fin (NDIRECT + 1)) (hb : b < 2 ^ 32) :
    ((setAddr d k b).addrs k).toNat = b := by
  have ha : (setAddr d k b).addrs k = .ofNat b := Function.update_self ..
  rw [ha, UInt32.toNat_ofNat']
  exact Nat.mod_eq_of_lt hb

theorem addrs_setAddr_of_ne (d : Dinode) {k k' : Fin (NDIRECT + 1)} (hk : k' ≠ k) :
    (setAddr d k b).addrs k' = d.addrs k' :=
  Function.update_of_ne hk ..

theorem indirect_setAddr (d : Dinode) (k : Fin NDIRECT) :
    Disk.indirect (setAddr d k.castSucc b) = Disk.indirect d := by
  rw [Disk.indirect, addrs_setAddr_of_ne d (Fin.castSucc_lt_last k).ne', Disk.indirect]

theorem slot_setAddr (k : Fin NDIRECT) (hb : b < 2 ^ 32) (k' : Slot) :
    s.slot (setAddr d k.castSucc b) k' = if k' = .direct k then b else s.slot d k' := by
  cases k' with
  | direct j =>
    by_cases hj : j = k
    · rw [hj, if_pos rfl]
      exact toNat_setAddr d _ hb
    · rw [if_neg fun he => hj (Slot.direct.inj he)]
      have hne : j.castSucc ≠ k.castSucc := fun he => hj (Fin.castSucc_injective _ he)
      exact congrArg UInt32.toNat (addrs_setAddr_of_ne d hne)
  | indirect =>
    rw [if_neg nofun]
    exact indirect_setAddr d k
  | entry j =>
    rw [if_neg nofun, Disk.slot, indirect_setAddr, Disk.slot]

/-! ## Allocations -/

namespace Owned

theorem indirect_ne (h : Owned sb s v) (hd : v i = d) (hb : s.bitmap b = false)
    (h0 : Disk.indirect d ≠ 0) : Disk.indirect d ≠ b := by
  subst hd
  rintro rfl
  exact Bool.false_ne_true (hb.symm.trans (h.used i .indirect h0).2.2)

end Owned

theorem bitmap_alloc {l : List ℕ} {x : ℕ} (hx : s.bitmap x = true) :
    (s.alloc b l).bitmap x = true := by
  by_cases hxb : x = b
  · rw [hxb]
    exact Function.update_self ..
  · exact (Function.update_of_ne hxb ..).trans hx

theorem data_alloc {l : List ℕ} {x : ℕ} (hb : s.bitmap b = false) (hx : s.bitmap x = true) :
    (s.alloc b l).data x = s.data x := by
  refine Function.update_of_ne ?_ ..
  rintro rfl
  exact Bool.false_ne_true (hb.symm.trans hx)

/-- An operation that has put a free block into one empty slot. -/
theorem extends_of_slot {k : Slot} {l : List ℕ} (hb : s.bitmap b = false) (hb0 : b ≠ 0)
    (hs : s' = { s.alloc b l with data := s'.data }) (hfields : { d' with addrs := d.addrs } = d)
    (hothers : ∀ x, s.bitmap x = true → (∀ k, s.slot d k ≠ x) → s'.data x = s.data x)
    (hk : s.slot d k = 0) (hslot : ∀ k', s'.slot d' k' = if k' = k then b else s.slot d k') :
    Extends s d s' d' := by
  refine ⟨by rw [hs]; rfl, by rw [hs]; rfl, by rw [hs]; rfl, hfields, fun x hx => ?_,
    fun x hx => ?_, hothers, fun k' h0 => ?_, fun k' h0 hne => ?_⟩
  · rw [hs]
    exact bitmap_alloc (l := l) hx
  · rw [hs] at hx
    by_cases hxb : x = b
    · exact Or.inr ⟨k, hk, (hslot k).trans ((if_pos rfl).trans hxb.symm), hxb ▸ hb0⟩
    · exact Or.inl ((Function.update_of_ne hxb ..).symm.trans hx)
  · rw [hslot, if_neg]
    rintro rfl
    exact h0 hk
  · rw [hslot] at hne ⊢
    split_ifs at hne ⊢
    · exact hb
    · exact (hne h0).elim

/-- A new direct block. -/
theorem slot_direct (h : Owned sb s v) (hd : v i = d) {k : Fin NDIRECT} {l : List ℕ}
    (hb : s.bitmap b = false) (hsize : b < 2 ^ 32) (k' : Slot) :
    (s.alloc b l).slot (setAddr d k.castSucc b) k' =
      if k' = .direct k then b else s.slot d k' := by
  rw [slot_setAddr k hsize, slot_alloc (h.indirect_ne hd hb)]

/-- A new indirect block. -/
theorem slot_indirect {l : List ℕ} (hsize : b < 2 ^ 32) (h0 : Disk.indirect d = 0) (k' : Slot) :
    (s.alloc b l).slot (setAddr d (Fin.last NDIRECT) b) k' =
      if k' = .indirect then b else s.slot d k' := by
  have hind : Disk.indirect (setAddr d (Fin.last NDIRECT) b) = b := toNat_setAddr d _ hsize
  cases k' with
  | direct j =>
    rw [if_neg nofun]
    exact congrArg UInt32.toNat (addrs_setAddr_of_ne d (Fin.castSucc_lt_last j).ne)
  | indirect =>
    rw [if_pos rfl]
    exact hind
  | entry j =>
    have hdata : (s.alloc b l).data b = fun _ => 0 := Function.update_self ..
    rw [if_neg nofun, Disk.slot, Disk.slot, hind, if_pos h0, hdata, Block.word_zero]
    split_ifs <;> rfl

/-- A new entry of the indirect block `a`. -/
theorem slot_entry {a : ℕ} {j : Fin NINDIRECT} (hsize : b < 2 ^ 32) (ha : Disk.indirect d = a)
    (h0 : a ≠ 0) (hdata : s'.data a = Block.setWord j (.ofNat b) (s.data a)) (k' : Slot) :
    s'.slot d k' = if k' = .entry j then b else s.slot d k' := by
  cases k' with
  | direct j => rw [if_neg (by simp), Disk.slot, Disk.slot]
  | indirect => rw [if_neg (by simp), Disk.slot, Disk.slot]
  | entry j' =>
    rw [Disk.slot, Disk.slot, ha, if_neg h0, if_neg h0, hdata]
    by_cases hj : j' = j
    · rw [hj, if_pos rfl, Block.word_setWord_self, UInt32.toNat_ofNat']
      exact Nat.mod_eq_of_lt hsize
    · rw [if_neg fun he => hj (Slot.entry.inj he),
        Block.word_setWord_of_ne fun he => hj (Fin.ext he)]

/-- The contents of a file stay the same when a zeroed block is put into one of its slots. -/
theorem byte_of_slot (h : Owned sb s v) (hd : v i = d) {k : Slot}
    (hslot : ∀ k', s'.slot d' k' = if k' = k then b else s.slot d k')
    (hnew : ∀ k', k = k' → k' ≠ .indirect → s'.data b = fun _ => 0)
    (hdata : ∀ x, s.bitmap x = true → x ≠ Disk.indirect d → s'.data x = s.data x)
    (hk : s.slot d k = 0) (n : ℕ) : s'.byte d' n = s.byte d n := by
  subst hd
  have hm : s'.mapped d' (n / BSIZE) =
      if Slot.ofIndex (n / BSIZE) = k then b else s.mapped (v i) (n / BSIZE) := hslot _
  rw [Disk.byte, Disk.byte, hm]
  by_cases hki : Slot.ofIndex (n / BSIZE) = k
  · have h0 : s.mapped (v i) (n / BSIZE) = 0 := by
      rw [Disk.mapped, hki, hk]
    rw [if_pos hki, if_pos h0, hnew _ hki.symm (ofIndex_ne_indirect _)]
    split_ifs <;> rfl
  · rw [if_neg hki]
    split_ifs with h0
    · rfl
    · have hne : s.mapped (v i) (n / BSIZE) ≠ Disk.indirect (v i) := fun he =>
        ofIndex_ne_indirect _ (h.inj i _ i .indirect h0 he).2
      have hd := hdata (s.mapped (v i) (n / BSIZE)) (h.used i _ h0).2.2 hne
      rw [hd]

/-! ## bmap -/

/-- What `bmap` leaves, if it returns `addr` and the inode `d'`. -/
structure Bmapped (sb : Superblock) (v : ℕ → Dinode) (i : ℕ) (s : Disk) (d : Dinode) (bn : ℕ)
    (addr : ℕ) (s' : Disk) (d' : Dinode) : Prop where
  owned : Owned sb s' (Function.update v i d')
  extends' : Extends s d s' d'
  byte : ∀ n, s'.byte d' n = s.byte d n
  mapped : addr ≠ 0 → s'.mapped d' bn = addr
  /-- A block that is there. -/
  found : s.mapped d bn ≠ 0 → addr = s.mapped d bn ∧ d' = d ∧ s' = s
  full : addr = 0 → FullDisk sb s' ∧ s'.mapped d' bn = 0
  untouched : ∀ k, ¬Slot.Touched bn k → s'.slot d' k = s.slot d k

theorem Bmapped.refl (h : Owned sb s v) (hd : v i = d) {bn addr : ℕ}
    (ha : addr ≠ 0 → s.mapped d bn = addr) (hf : s.mapped d bn ≠ 0 → addr = s.mapped d bn)
    (hfull : addr = 0 → FullDisk sb s ∧ s.mapped d bn = 0) :
    Bmapped sb v i s d bn addr s d where
  owned := by
    rw [← hd, Function.update_eq_self]
    exact h
  extends' := Extends.refl s d
  byte _ := rfl
  mapped := ha
  found h0 := ⟨hf h0, rfl, rfl⟩
  full := hfull
  untouched _ _ := rfl

/-- `bmap` has found the block. -/
theorem Bmapped.there (h : Owned sb s v) (hd : v i = d) {bn : ℕ} (hm : s.mapped d bn ≠ 0) :
    Bmapped sb v i s d bn (s.mapped d bn) s d :=
  .refl h hd (fun _ => rfl) (fun _ => rfl) fun h0 => (hm h0).elim

/-- `bmap` has not found the block, and there is no free one. -/
theorem Bmapped.none (h : Owned sb s v) (hd : v i = d) {bn : ℕ} (hm : s.mapped d bn = 0)
    (hfull : FullDisk sb s) : Bmapped sb v i s d bn 0 s d :=
  .refl h hd (fun hn => (hn rfl).elim) (fun hn => (hn hm).elim) fun _ => ⟨hfull, hm⟩

/-- A free block has been put into an empty slot. -/
theorem Owned.put (h : Owned sb s v) (hd : v i = d) (hready : Ready sb s) {k : Slot}
    {l : List ℕ} (hb : s.bitmap b = false) (hsize : b < sb.size.toNat)
    (hs : s' = { s.alloc b l with data := s'.data }) (hfields : { d' with addrs := d.addrs } = d)
    (hk : s.slot d k = 0) (hslot : ∀ k', s'.slot d' k' = if k' = k then b else s.slot d k')
    (hdata : ∀ x, s.bitmap x = true → x ≠ Disk.indirect d → s'.data x = s.data x) :
    Extends s d s' d' ∧ Owned sb s' (Function.update v i d') := by
  have hext : Extends s d s' d' := by
    refine extends_of_slot hb ?_ hs hfields (fun x hx hne => hdata x hx fun he => ?_) hk hslot
    · exact (lt_of_lt_of_le (Nat.succ_pos _) (hready.dataStart_le hb)).ne'
    · exact hne .indirect he.symm
  refine ⟨hext, ?_⟩
  subst hd
  -- only the slot `k` was empty and is not any more
  have hnew : ∀ k', s.slot (v i) k' = 0 → s'.slot d' k' ≠ 0 → k' = k := by
    intro k' h0 hne
    rw [hslot] at hne
    by_contra hk'
    rw [if_neg hk'] at hne
    exact hne h0
  refine h.of_extends hext (fun k' h0 hne => ?_) fun k' k'' h0 h0' hne he => ?_
  · rw [hnew k' h0 hne, hslot, if_pos rfl]
    refine ⟨hready.dataStart_le hb, hsize, ?_⟩
    rw [hs]
    exact Function.update_self ..
  · exact (hnew k' h0 hne).trans (hnew k'' h0' (he ▸ hne)).symm

theorem Bmapped.of_slot (h : Owned sb s v) (hd : v i = d) (hready : Ready sb s) {bn : ℕ}
    {l : List ℕ} (hb : s.bitmap b = false) (hb0 : b ≠ 0) (hsize : b < sb.size.toNat)
    (hs : s' = { s.alloc b l with data := s'.data }) (hfields : { d' with addrs := d.addrs } = d)
    (hk : s.mapped d bn = 0)
    (hslot : ∀ k', s'.slot d' k' = if k' = .ofIndex bn then b else s.slot d k')
    (hnew : s'.data b = fun _ => 0)
    (hdata : ∀ x, s.bitmap x = true → x ≠ Disk.indirect d → s'.data x = s.data x) :
    Bmapped sb v i s d bn b s' d' := by
  obtain ⟨hext, howned⟩ := h.put hd hready hb hsize hs hfields hk hslot hdata
  refine ⟨howned, hext, byte_of_slot h hd hslot (fun _ _ _ => hnew) hdata hk, fun _ => ?_,
    fun h0 => (h0 hk).elim, fun h0 => (hb0 h0).elim, fun k' hk' => ?_⟩
  · rw [Disk.mapped, hslot, if_pos rfl]
  · rw [hslot, if_neg fun he => hk' (Or.inl he)]

theorem Ready.alloc (h : Ready sb s) (b : ℕ) (l : List ℕ) : Ready sb (s.alloc b l) where
  outstanding := h.outstanding
  held x hx := ⟨(h.held x hx).1, bitmap_alloc (h.held x hx).2⟩
  metadata x hx := bitmap_alloc (h.metadata x hx)

/-- The rest of `bmap` when the inode has the indirect block `a`. -/
theorem ends_bmapIndirect (h : Owned sb s v) (hd : v i = d) (hready : Ready sb s) {bn a : ℕ}
    (hbn : bn < MAXFILE) (hnd : ¬bn < NDIRECT) (ha : Disk.indirect d = a) (h0 : a ≠ 0)
    (hheld : a ∉ s.held) :
    Ends (bmapIndirect sb a (bn - NDIRECT)) (fun r s' => Bmapped sb v i s d bn r s' d) s := by
  have hlt : bn - NDIRECT < NINDIRECT := by
    rw [MAXFILE] at hbn
    omega
  have hindex : Slot.ofIndex bn = .entry ⟨bn - NDIRECT, hlt⟩ := by
    rw [Slot.ofIndex, dif_neg hnd]
    exact congrArg Slot.entry (Fin.ext (Nat.mod_eq_of_lt hlt))
  have hmapped : s.mapped d bn = ((s.data a).word (bn - NDIRECT)).toNat := by
    rw [Disk.mapped, hindex, Disk.slot, ha, if_neg h0]
  have hused : sb.dataStart ≤ a ∧ a < sb.size.toNat ∧ s.bitmap a = true := by
    subst hd ha
    exact h.used i .indirect h0
  rw [bmapIndirect, ends_bind]
  refine ends_bread hheld ?_
  rw [ends_bind, ends_data]
  have hdata : (s.lock a).data a = s.data a := rfl
  rw [hdata, ← hmapped]
  by_cases hm : s.mapped d bn = 0
  · rw [if_pos hm, ends_bind]
    refine (ends_balloc (hready.lock hused.1 hused.2.2)).post fun b s' hb => ?_
    rcases hb with ⟨rfl, rfl, hfull⟩ | ⟨hb0, hsize, hfree, l, rfl⟩
    · rw [if_neg (not_not.2 rfl), ends_bind]
      exact ends_brelse rfl (Bmapped.none h hd hm hfull)
    · have hout : 1 ≤ s.outstanding := hready.outstanding
      have hfree' : s.bitmap b = false := hfree
      have hba : b ≠ a := by
        rintro rfl
        exact Bool.false_ne_true (hfree'.symm.trans hused.2.2)
      rw [if_pos hb0, ends_bind, ends_modify, ends_bind]
      refine ends_logWrite hout ?_
      rw [ends_bind]
      refine ends_brelse rfl ?_
      have hsize' : b < 2 ^ 32 := hsize.trans sb.size.toNat_lt
      refine Bmapped.of_slot h hd hready hfree' hb0 hsize rfl rfl hm (fun k' => ?_) ?_
        fun x hx hxa => ?_
      · rw [hindex]
        refine slot_entry hsize' ha h0 ?_ k'
        refine (Function.update_self ..).trans ?_
        rw [show ((s.lock a).alloc b l).data a = s.data a from data_alloc hfree' hused.2.2]
      · exact (Function.update_of_ne hba ..).trans (Function.update_self ..)
      · rw [ha] at hxa
        refine (Function.update_of_ne hxa ..).trans ?_
        exact data_alloc (s := s) (l := l) hfree' hx
  · rw [if_neg hm, ends_bind]
    exact ends_brelse rfl (Bmapped.there h hd hm)

/-- **bmap returns the block, or puts a free one in its place.** -/
theorem ends_bmap (h : Owned sb s v) (hd : v i = d) (hready : Ready sb s) (hheld : s.held = [])
    {bn : ℕ} (hbn : bn < MAXFILE) :
    Ends (bmap sb d bn) (fun r s' => Bmapped sb v i s d bn r.1 s' r.2) s := by
  rw [bmap]
  by_cases hnd : bn < NDIRECT
  · have hindex : Slot.ofIndex bn = .direct ⟨bn, hnd⟩ := dif_pos hnd
    have hmapped : s.mapped d bn = (d.addrs ⟨bn, Nat.lt_succ_of_lt hnd⟩).toNat := by
      rw [Disk.mapped, hindex]
      rfl
    rw [dif_pos hnd]
    dsimp only
    rw [← hmapped]
    by_cases hm : s.mapped d bn = 0
    · rw [if_pos hm, ends_bind]
      refine (ends_balloc hready).post fun b s' hb => ?_
      rcases hb with ⟨rfl, rfl, hfull⟩ | ⟨hb0, hsize, hfree, l, rfl⟩
      · rw [if_pos rfl]
        exact Bmapped.none h hd hm hfull
      · have hsize' : b < 2 ^ 32 := hsize.trans sb.size.toNat_lt
        rw [if_neg hb0]
        refine Bmapped.of_slot h hd hready hfree hb0 hsize rfl rfl hm (fun k' => ?_)
          (Function.update_self ..) fun x hx _ => data_alloc hfree hx
        rw [hindex]
        exact slot_direct (k := ⟨bn, hnd⟩) (l := l) h hd hfree hsize' k'
    · rw [if_neg hm]
      exact Bmapped.there h hd hm
  · have hlt : bn - NDIRECT < NINDIRECT := by
      rw [MAXFILE] at hbn
      omega
    rw [dif_neg hnd, if_pos hlt]
    by_cases h0 : (d.addrs (Fin.last NDIRECT)).toNat = 0
    · have hind : Disk.indirect d = 0 := h0
      have hm : s.mapped d bn = 0 := by
        rw [Disk.mapped, Slot.ofIndex, dif_neg hnd, Disk.slot, if_pos hind]
      rw [if_pos h0, ends_bind]
      refine (ends_balloc hready).post fun b s' hb => ?_
      rcases hb with ⟨rfl, rfl, hfull⟩ | ⟨hb0, hsize, hfree, l, rfl⟩
      · rw [if_pos rfl]
        exact Bmapped.none h hd hm hfull
      · have hsize' : b < 2 ^ 32 := hsize.trans sb.size.toNat_lt
        have hdata : ∀ x, s.bitmap x = true → x ≠ Disk.indirect d →
            (s.alloc b l).data x = s.data x := fun x hx _ => data_alloc hfree hx
        have hslot := slot_indirect (s := s) (l := l) hsize' hind
        have hk : s.slot d .indirect = 0 := hind
        have hfields : { setAddr d (Fin.last NDIRECT) b with addrs := d.addrs } = d := rfl
        obtain ⟨hext, howned⟩ := h.put hd hready hfree hsize rfl hfields hk hslot hdata
        have hbyte := byte_of_slot h hd hslot (fun k' hk' hne => (hne hk'.symm).elim) hdata hk
        have hnot : b ∉ (s.alloc b l).held := by
          have : (s.alloc b l).held = [] := hheld
          rw [this]
          exact List.not_mem_nil
        rw [if_neg hb0, ends_bind]
        refine (ends_bmapIndirect howned (Function.update_self ..) (hready.alloc b l) hbn hnd
          (toNat_setAddr d _ hsize') hb0 hnot).post fun r s' hr => ?_
        refine ⟨?_, hext.trans hr.extends', fun n => (hr.byte n).trans (hbyte n), hr.mapped,
          fun hn => (hn hm).elim, hr.full, fun k' hk' => ?_⟩
        · have hidem := hr.owned
          rwa [Function.update_idem] at hidem
        · have hi : k' ≠ .indirect := fun he => hk' (Or.inr ⟨he, Nat.le_of_not_lt hnd⟩)
          rw [hr.untouched k' hk', hslot, if_neg hi]
    · rw [if_neg h0, ends_bind]
      refine (ends_bmapIndirect h hd hready hbn hnd rfl h0 ?_).post fun r s' hr => hr
      rw [hheld]
      exact List.not_mem_nil

end Xv6.Fs
