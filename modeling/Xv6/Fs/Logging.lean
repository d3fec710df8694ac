import Xv6.Fs.Writei

/-!
# Changed buffers are logged

A buffer that is changed has to be passed to `log_write` before `brelse`, or the change is lost when
the buffer is evicted. `NoLoss sb c s` says so for each `brelse` of a run of `c`. The allocating
functions and `iupdate` keep to it, on any disk.
-/

namespace Xv6.Fs

open Inode (Dinode NDIRECT)

/-- The data of the block `x` is not the same: its bytes, its bits of the bitmap or its dinodes. -/
def Dirty (sb : Superblock) (s t : Disk) (x : ℕ) : Prop :=
  t.data x ≠ s.data x ∨ (∃ b, sb.BBLOCK b = x ∧ t.bitmap b ≠ s.bitmap b) ∨
    ∃ i, sb.IBLOCK i = x ∧ t.dinode i ≠ s.dinode i

/-- A buffer that the call releases is in the log, if it has changed since `s`. -/
def Clean (sb : Superblock) (s : Disk) (o : BlockCall) (t : Disk) : Prop :=
  ∀ x, o = .brelse x → Dirty sb s t x → x ∈ t.logged

/-- Every buffer that a run changes is passed to `log_write` before it is released. -/
def NoLoss {α : Type} (sb : Superblock) (c : M α) (s : Disk) : Prop :=
  ∀ p ∈ c.trace disk s, Clean sb s p.1 p.2

/-- All that has changed since `s` is in the log. -/
structure Kept (sb : Superblock) (s t : Disk) : Prop where
  dirty : ∀ x, Dirty sb s t x → x ∈ t.logged
  mono : ∀ x ∈ s.logged, x ∈ t.logged

/-- Between `s` and `t` only blocks in `A` have been logged. -/
structure Logs (A : ℕ → Prop) (s t : Disk) : Prop where
  mono : ∀ x ∈ s.logged, x ∈ t.logged
  upper : ∀ x ∈ t.logged, x ∈ s.logged ∨ A x

/-- A run from `s` that releases no buffer that has changed since `s₀` and is not in the log; it
may stop. -/
abbrev Obs {α : Type} (sb : Superblock) (s₀ : Disk) (c : M α) (Q : α → Disk → Prop) (s : Disk) :
    Prop := c.Observes disk (Clean sb s₀) Q (fun _ => True) s

variable {α : Type} {sb : Superblock} {s₀ s t t' : Disk} {d d' : Dinode} {A : ℕ → Prop} {b i x : ℕ}

theorem Kept.refl (sb : Superblock) (s : Disk) : Kept sb s s where
  dirty x h := by
    rcases h with h | ⟨b, -, h⟩ | ⟨i, -, h⟩
    · exact (h rfl).elim
    · exact (h rfl).elim
    · exact (h rfl).elim
  mono _ hx := hx

theorem Logs.refl (A : ℕ → Prop) (s : Disk) : Logs A s s where
  mono _ hx := hx
  upper _ hx := Or.inl hx

theorem Logs.trans (h : Logs A s t) (h' : Logs A t t') : Logs A s t' where
  mono x hx := h'.mono x (h.mono x hx)
  upper x hx := (h'.upper x hx).elim (h.upper x) Or.inr

theorem Logs.log (s : Disk) (hA : A b) : Logs A s (s.log b) where
  mono _ hx := mem_logged_log.2 (Or.inl hx)
  upper _ hx := (mem_logged_log.1 hx).imp_right fun he => by rwa [he]

/-- Only the bitmap, the dinodes, the data and the log matter. -/
theorem Kept.congr (h : Kept sb s₀ t) (hbits : t'.bitmap = t.bitmap) (hdinode : t'.dinode = t.dinode)
    (hdata : t'.data = t.data) (hlog : t'.logged = t.logged) : Kept sb s₀ t' := by
  refine ⟨fun x hx => ?_, hlog ▸ h.mono⟩
  rw [Dirty, hbits, hdinode, hdata] at hx
  rw [hlog]
  exact h.dirty x hx

/-- A change of one buffer that is logged. -/
theorem Kept.log_of (h : Kept sb s₀ t) (hdirty : ∀ x, x ≠ b → Dirty sb s₀ t' x → Dirty sb s₀ t x)
    (hlog : t'.logged = t.logged) : Kept sb s₀ (t'.log b) := by
  refine ⟨fun x hx => ?_, fun x hx => mem_logged_log.2 (Or.inl (hlog ▸ h.mono x hx))⟩
  by_cases hxb : x = b
  · exact mem_logged_log.2 (Or.inr hxb)
  · exact mem_logged_log.2 (Or.inl (hlog ▸ h.dirty x (hdirty x hxb hx)))

theorem Kept.modify (h : Kept sb s₀ t) (b : ℕ) (y : Block) :
    Kept sb s₀ (Disk.log { t with data := Function.update t.data b y } b) := by
  refine h.log_of (fun x hx hd => ?_) rfl
  rcases hd with hd | hd
  · exact Or.inl ((Function.update_of_ne hx y t.data) ▸ hd)
  · exact Or.inr hd

theorem Kept.setBit (h : Kept sb s₀ t) (b : ℕ) (v : Bool) :
    Kept sb s₀ (Disk.log { t with bitmap := Function.update t.bitmap b v } (sb.BBLOCK b)) := by
  refine h.log_of (fun x hx hd => ?_) rfl
  rcases hd with hd | ⟨b', hb', hd⟩ | hd
  · exact Or.inl hd
  · refine Or.inr (Or.inl ⟨b', hb', ?_⟩)
    have hne : b' ≠ b := fun he => hx (he ▸ hb'.symm)
    exact (Function.update_of_ne hne v t.bitmap) ▸ hd
  · exact Or.inr (Or.inr hd)

theorem Kept.setDinode (h : Kept sb s₀ t) (i : ℕ) (d : Dinode) :
    Kept sb s₀ (Disk.log { t with dinode := Function.update t.dinode i d } (sb.IBLOCK i)) := by
  refine h.log_of (fun x hx hd => ?_) rfl
  rcases hd with hd | hd | ⟨i', hi', hd⟩
  · exact Or.inl hd
  · exact Or.inr (Or.inl hd)
  · refine Or.inr (Or.inr ⟨i', hi', ?_⟩)
    have hne : i' ≠ i := fun he => hx (he ▸ hi'.symm)
    exact (Function.update_of_ne hne d t.dinode) ▸ hd

/-! ## Rules -/

theorem obs_bind {β : Type} {c : M α} {f : α → M β} {Q : β → Disk → Prop}
    (hc : Obs sb s₀ c (fun a s' => Obs sb s₀ (f a) Q s') s) : Obs sb s₀ (c >>= f) Q s :=
  Program.observes_bind hc

theorem obs_pure {a : α} {Q : α → Disk → Prop} (hQ : Q a s) : Obs sb s₀ (pure a : M α) Q s :=
  Program.observes_pure hQ

theorem Obs.post {c : M α} {Q Q' : α → Disk → Prop} (hc : Obs sb s₀ c Q s)
    (hQ : ∀ a s', Q a s' → Q' a s') : Obs sb s₀ c Q' s :=
  hc.mono hQ fun _ => id

theorem obs_bread {Q : Unit → Disk → Prop} (hQ : Q () (s.lock b)) : Obs sb s₀ (bread b) Q s := by
  refine Program.observes_op nofun ?_
  by_cases hb : b ∈ s.held
  · exact Program.meets_op_error (if_pos hb) trivial
  · exact Program.meets_op (if_neg hb) hQ

theorem obs_brelse {Q : Unit → Disk → Prop} (hs : Kept sb s₀ s)
    (hQ : Q () { s with held := s.held.erase b }) : Obs sb s₀ (brelse b) Q s := by
  refine Program.observes_op (fun x _ hx => hs.dirty x hx) ?_
  by_cases hb : b ∈ s.held
  · exact Program.meets_op (if_pos hb) hQ
  · exact Program.meets_op_error (if_neg hb) trivial

theorem obs_brelse_cons {Q : Unit → Disk → Prop} {held : List ℕ} (hs : Kept sb s₀ s)
    (hb : s.held = b :: held) (hQ : Q () { s with held := held }) : Obs sb s₀ (brelse b) Q s := by
  refine obs_brelse hs ?_
  rw [hb, List.erase_cons_head]
  exact hQ

theorem obs_logWrite {Q : Unit → Disk → Prop} (hQ : Q () (s.log b)) :
    Obs sb s₀ (logWrite b) Q s :=
  Program.observes_op nofun (ends_logWrite_any hQ)

theorem obs_bit {Q : Bool → Disk → Prop} (hQ : Q (s.bitmap b) s) : Obs sb s₀ (bit b) Q s :=
  Program.observes_op nofun hQ

theorem obs_setBit {v : Bool} {Q : Unit → Disk → Prop}
    (hQ : Q () { s with bitmap := Function.update s.bitmap b v }) : Obs sb s₀ (setBit b v) Q s :=
  Program.observes_op nofun hQ

theorem obs_data {Q : Block → Disk → Prop} (hQ : Q (s.data b) s) : Obs sb s₀ (data b) Q s :=
  Program.observes_op nofun hQ

theorem obs_modify {f : Block → Block} {Q : Unit → Disk → Prop}
    (hQ : Q () { s with data := Function.update s.data b (f (s.data b)) }) :
    Obs sb s₀ (modify b f) Q s :=
  Program.observes_op nofun hQ

theorem obs_setDinode {Q : Unit → Disk → Prop}
    (hQ : Q () { s with dinode := Function.update s.dinode i d }) :
    Obs sb s₀ (setDinode i d) Q s :=
  Program.observes_op nofun hQ

/-! ## balloc -/

/-- What a function leaves that started in `s`. -/
structure Logged (sb : Superblock) (A : ℕ → Prop) (s₀ s t : Disk) : Prop where
  kept : Kept sb s₀ t
  logs : Logs A s t
  bits : ∀ b, s.bitmap b = true → t.bitmap b = true

theorem Logged.refl (h : Kept sb s₀ s) : Logged sb A s₀ s s := ⟨h, .refl A s, fun _ hb => hb⟩

theorem Logged.trans (h : Logged sb A s₀ s t) (h' : Logged sb A s₀ t t') : Logged sb A s₀ s t' :=
  ⟨h'.kept, h.logs.trans h'.logs, fun b hb => h'.bits b (h.bits b hb)⟩

/-- Buffers do not matter. -/
theorem Logged.congr (h : Logged sb A s₀ s t) (l : List ℕ) : Logged sb A s₀ s { t with held := l } :=
  ⟨h.kept.congr rfl rfl rfl rfl, ⟨h.logs.mono, h.logs.upper⟩, h.bits⟩

theorem Logged.of_lock (h : Logged sb A s₀ (s.lock b) t) : Logged sb A s₀ s t :=
  ⟨h.kept, ⟨h.logs.mono, h.logs.upper⟩, h.bits⟩

theorem Kept.lock (h : Kept sb s₀ s) (b : ℕ) : Kept sb s₀ (s.lock b) := h.congr rfl rfl rfl rfl

/-- A block that has been allocated. -/
structure Fresh (A : ℕ → Prop) (b : ℕ) (t : Disk) : Prop where
  allowed : A b
  logged : b ∈ t.logged
  zero : t.data b = fun _ => 0

theorem obs_bzero (h : Kept sb s₀ s) (hA : A b) :
    Obs sb s₀ (bzero b) (fun _ t => Logged sb A s₀ s t ∧ Fresh A b t) s := by
  have hkept := (h.lock b).modify b fun _ => 0
  refine obs_bind (obs_bread (obs_bind (obs_modify (obs_bind (obs_logWrite ?_)))))
  refine obs_brelse hkept ⟨⟨hkept.congr rfl rfl rfl rfl, ?_, fun _ hb => hb⟩, hA, ?_, ?_⟩
  · exact ⟨(Logs.log s hA).mono, (Logs.log s hA).upper⟩
  · exact mem_logged_log.2 (Or.inr rfl)
  · exact Function.update_self ..

theorem obs_ballocBits (h : Kept sb s₀ s) {bis : List ℕ} (b : ℕ) (hA : A (sb.BBLOCK b))
    (hbis : ∀ bi ∈ bis, sb.BBLOCK (b + bi) = sb.BBLOCK b ∧ (s.bitmap (b + bi) = false → A (b + bi))) :
    Obs sb s₀ (ballocBits sb b bis) (fun r t => Logged sb A s₀ s t ∧ match r with
      | some addr => Fresh A addr t
      | none => t.bitmap = s.bitmap) s := by
  induction bis with
  | nil => exact obs_pure ⟨Logged.refl h, rfl⟩
  | cons bi rest ih =>
    obtain ⟨hblock, hfree⟩ := hbis bi List.mem_cons_self
    refine obs_bind (obs_bit ?_)
    by_cases hb : s.bitmap (b + bi) = false
    · have hkept := hblock ▸ h.setBit (b + bi) true
      have hlogs : Logged sb A s₀ s (Disk.log { s with
          bitmap := Function.update s.bitmap (b + bi) true } (sb.BBLOCK b)) := by
        refine ⟨hkept, ⟨(Logs.log s hA).mono, (Logs.log s hA).upper⟩, fun x hx => ?_⟩
        by_cases hxb : x = b + bi
        · rw [hxb]
          exact Function.update_self ..
        · exact (Function.update_of_ne hxb ..).trans hx
      rw [if_pos hb]
      refine obs_bind (obs_setBit (obs_bind (obs_logWrite (obs_bind (obs_brelse hkept
        (obs_bind ?_))))))
      refine Obs.post (obs_bzero (hkept.congr rfl rfl rfl rfl) (hfree hb)) fun _ t ht => ?_
      refine obs_pure ?_
      exact ⟨hlogs.trans ⟨ht.1.kept, ⟨ht.1.logs.mono, ht.1.logs.upper⟩, ht.1.bits⟩, ht.2⟩
    · rw [if_neg hb]
      exact ih fun bi' hm => hbis bi' (List.mem_cons_of_mem bi hm)

/-- The blocks in `A` are those that an allocation may log. -/
structure Allows (sb : Superblock) (A : ℕ → Prop) (s : Disk) : Prop where
  bitmap : ∀ b < sb.size.toNat, A (sb.BBLOCK b)
  free : ∀ b, s.bitmap b = false → A b

theorem Allows.mono (h : Allows sb A s) (hbits : ∀ b, s.bitmap b = true → t.bitmap b = true) :
    Allows sb A t where
  bitmap := h.bitmap
  free b hb := h.free b (Bool.eq_false_iff.2 fun hs => Bool.eq_false_iff.1 hb (hbits b hs))

theorem obs_ballocBlocks (h : Kept sb s₀ s) (hA : Allows sb A s) {bs : List ℕ}
    (hbs : ∀ b ∈ bs, b < sb.size.toNat ∧ b % BPB = 0) :
    Obs sb s₀ (ballocBlocks sb bs) (fun b t => Logged sb A s₀ s t ∧ (b ≠ 0 → Fresh A b t)) s := by
  induction bs generalizing s with
  | nil => exact obs_pure ⟨Logged.refl h, fun hne => (hne rfl).elim⟩
  | cons b rest ih =>
    obtain ⟨hlt, hmod⟩ := hbs b List.mem_cons_self
    refine obs_bind (obs_bread (obs_bind ?_))
    refine Obs.post (obs_ballocBits (h.lock _) b (hA.bitmap b hlt) fun bi hm =>
      ⟨BBLOCK_add hmod (lt_of_lt_of_le (List.mem_range.1 hm) (Nat.min_le_left ..)),
        fun hb => hA.free _ hb⟩) ?_
    rintro r t ⟨ht, hr⟩
    cases r with
    | some addr => exact obs_pure ⟨ht.of_lock, fun _ => hr⟩
    | none =>
      refine obs_bind (obs_brelse ht.kept ?_)
      have ht' : Logged sb A s₀ s { t with held := t.held.erase (sb.BBLOCK b) } :=
        ht.of_lock.congr _
      refine Obs.post (ih ht'.kept (hA.mono ht'.bits) fun b' hm =>
        hbs b' (List.mem_cons_of_mem b hm)) ?_
      exact fun b' t' hb' => ⟨ht'.trans hb'.1, hb'.2⟩

theorem obs_balloc (h : Kept sb s₀ s) (hA : Allows sb A s) :
    Obs sb s₀ (balloc sb) (fun b t => Logged sb A s₀ s t ∧ (b ≠ 0 → Fresh A b t)) s := by
  refine obs_ballocBlocks h hA fun b hm => ?_
  obtain ⟨k, hk, rfl⟩ := List.mem_map.1 hm
  have hk' := List.mem_range.1 hk
  rw [Nat.lt_div_iff_mul_lt (show 0 < BPB by decide)] at hk'
  exact ⟨by omega, Nat.mul_mod_left k BPB⟩

/-! ## bmap and iupdate -/

theorem obs_bmapIndirect (h : Kept sb s₀ s) (hA : Allows sb A s) {addr : ℕ} (haddr : A addr)
    (bn : ℕ) : Obs sb s₀ (bmapIndirect sb addr bn) (fun r t => Logged sb A s₀ s t ∧
      (((s.data addr).word bn).toNat = 0 → r ≠ 0 → r ∈ t.logged)) s := by
  refine obs_bind (obs_bread (obs_bind (obs_data ?_)))
  have hdata : (s.lock addr).data addr = s.data addr := rfl
  rw [hdata]
  by_cases hw : ((s.data addr).word bn).toNat = 0
  · rw [if_pos hw]
    refine obs_bind (Obs.post (obs_balloc (h.lock addr) (hA.mono fun _ hb => hb)) ?_)
    rintro b t ⟨ht, hb⟩
    by_cases hb0 : b = 0
    · rw [if_neg (not_not.2 hb0)]
      refine obs_bind (obs_brelse ht.kept (obs_pure ⟨ht.of_lock.congr _, fun _ hne => ?_⟩))
      exact (hne rfl).elim
    · rw [if_pos hb0]
      have hkept := ht.kept.modify addr (Block.setWord bn (.ofNat b) (t.data addr))
      refine obs_bind (obs_modify (obs_bind (obs_logWrite (obs_bind (obs_brelse hkept ?_)))))
      have hlogs := Logs.log t haddr
      refine obs_pure ⟨ht.of_lock.trans ⟨hkept.congr rfl rfl rfl rfl, ?_, fun _ hb => hb⟩, fun _ _ => ?_⟩
      · exact ⟨hlogs.mono, hlogs.upper⟩
      · exact mem_logged_log.2 (Or.inl (hb hb0).logged)
  · rw [if_neg hw]
    refine obs_bind (obs_brelse (h.lock addr) (obs_pure ⟨(Logged.refl h).congr _, fun h0 => ?_⟩))
    exact (hw h0).elim

/-- `bmap` loses no change, and a block that it allocates is in the log. -/
theorem obs_bmap (h : Kept sb s₀ s) (hA : Allows sb A s)
    (hind : Disk.indirect d ≠ 0 → A (Disk.indirect d)) {bn : ℕ} (hbn : bn < MAXFILE) :
    Obs sb s₀ (bmap sb d bn) (fun r t => Logged sb A s₀ s t ∧
      (s.mapped d bn = 0 → r.1 ≠ 0 → r.1 ∈ t.logged)) s := by
  rw [bmap]
  by_cases hnd : bn < NDIRECT
  · have hmapped : s.mapped d bn = (d.addrs ⟨bn, Nat.lt_succ_of_lt hnd⟩).toNat := by
      rw [Disk.mapped, Slot.ofIndex, dif_pos hnd]
      rfl
    rw [dif_pos hnd]
    dsimp only
    rw [← hmapped]
    by_cases hm : s.mapped d bn = 0
    · rw [if_pos hm]
      refine obs_bind (Obs.post (obs_balloc h hA) ?_)
      rintro b t ⟨ht, hb⟩
      by_cases hb0 : b = 0
      · rw [if_pos hb0]
        exact obs_pure ⟨ht, fun _ hne => (hne rfl).elim⟩
      · rw [if_neg hb0]
        exact obs_pure ⟨ht, fun _ hne => (hb hne).logged⟩
    · rw [if_neg hm]
      exact obs_pure ⟨Logged.refl h, fun h0 => (hm h0).elim⟩
  · have hlt : bn - NDIRECT < NINDIRECT := by
      rw [MAXFILE] at hbn
      omega
    rw [dif_neg hnd, if_pos hlt]
    by_cases h0 : (d.addrs (Fin.last NDIRECT)).toNat = 0
    · rw [if_pos h0]
      refine obs_bind (Obs.post (obs_balloc h hA) ?_)
      rintro b t ⟨ht, hb⟩
      by_cases hb0 : b = 0
      · rw [if_pos hb0]
        exact obs_pure ⟨ht, fun _ hne => (hne rfl).elim⟩
      · have hfresh := hb hb0
        rw [if_neg hb0]
        refine obs_bind (Obs.post (obs_bmapIndirect ht.kept (hA.mono ht.bits) hfresh.allowed
          (bn - NDIRECT)) ?_)
        rintro r t' ⟨ht', hr⟩
        refine obs_pure ⟨ht.trans ht', fun _ => hr ?_⟩
        rw [hfresh.zero, Block.word_zero]
        rfl
    · have hind' : ¬Disk.indirect d = 0 := h0
      have hmapped : s.mapped d bn = ((s.data (Disk.indirect d)).word (bn - NDIRECT)).toNat := by
        rw [Disk.mapped, Slot.ofIndex, dif_neg hnd, Disk.slot, if_neg hind', Fin.val_ofNat,
          Nat.mod_eq_of_lt hlt]
      rw [if_neg h0, hmapped]
      refine obs_bind (Obs.post (obs_bmapIndirect h hA (hind h0) (bn - NDIRECT)) ?_)
      exact fun r t ht => obs_pure ht

theorem obs_iupdate (h : Kept sb s₀ s) (hA : A (sb.IBLOCK i)) :
    Obs sb s₀ (iupdate sb i d) (fun _ t => Logged sb A s₀ s t) s := by
  have hkept := (h.lock (sb.IBLOCK i)).setDinode i d
  have hlogs := Logs.log s hA
  refine obs_bind (obs_bread (obs_bind (obs_setDinode (obs_bind (obs_logWrite ?_)))))
  refine obs_brelse hkept ⟨hkept.congr rfl rfl rfl rfl, ⟨hlogs.mono, hlogs.upper⟩, fun _ hb => hb⟩

end Xv6.Fs
