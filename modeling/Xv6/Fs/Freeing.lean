import Xv6.Foundations.Marks
import Xv6.Fs.Itrunc
import Xv6.Fs.Reserve

/-!
# What itrunc writes

`itrunc` clears the bits of the blocks of the inode, one after the other, and writes the empty
dinode. After each of these changes it logs the block that it has changed (`does_itrunc`). So the
log or the buffers, which the log pins, can get too few only if the blocks that the transaction
changes are too many.
-/

namespace Xv6.Fs

open Inode (Dinode NDIRECT)
open Program (Marks)

/-- A change of the disk, or a block that is logged. -/
inductive Mark
  | bit (b : ℕ) (v : Bool)
  | data (b : ℕ)
  | dinode (i : ℕ) (d : Dinode)
  | log (b : ℕ)

/-- What a call changes. -/
def mark : BlockCall → Option Mark
  | .setBit b v => some (.bit b v)
  | .modify b _ => some (.data b)
  | .setDinode i d => some (.dinode i d)
  | .logWrite b => some (.log b)
  | _ => none

/-- The block that is logged. -/
def Mark.logged : Mark → Option ℕ
  | .log b => some b
  | _ => none

/-- The blocks of a dinode, in the order in which `itrunc` frees them. -/
def Disk.blocks (s : Disk) (d : Dinode) : List ℕ :=
  ((List.finRange NDIRECT).map (fun k => s.slot d (.direct k)) ++
    ((List.finRange NINDIRECT).map (fun j => s.slot d (.entry j)) ++
      [s.slot d .indirect])).filter (· ≠ 0)

/-- The changes of `bfree`. -/
def freeMarks (sb : Superblock) (b : ℕ) : List Mark := [.bit b false, .log (sb.BBLOCK b)]

/-- The changes of `iupdate`. -/
def updateMarks (sb : Superblock) (i : ℕ) (d : Dinode) : List Mark :=
  [.dinode i d, .log (sb.IBLOCK i)]

/-- The changes of `itrunc`. -/
def truncMarks (sb : Superblock) (s : Disk) (i : ℕ) : List Mark :=
  (s.blocks (s.dinode i)).flatMap (freeMarks sb) ++ updateMarks sb i (s.dinode i).trunc

/-- Only blocks in `W` are in the log, each of them once. -/
structure Within (W : Finset ℕ) (s : Disk) : Prop where
  nodup : s.logged.Nodup
  subset : ∀ x ∈ s.logged, x ∈ W

/-- The log or the buffers are too few. -/
def Exhausted (e : Stop) : Prop := e = .panic .tooBig ∨ e = .panic .noBuffers

/-- A run of `c` makes the changes `L` if it returns; the log and the buffers get too few only if
`W` does not fit. -/
abbrev Does {α : Type} (W : Finset ℕ) (c : M α) (L : List Mark) (Q : α → Disk → Prop) (s : Disk) :
    Prop := c.Marks buffered mark L Q (fun e => Exhausted e → LOGBLOCKS ≤ W.card) s

variable {α : Type} {sb : Superblock} {W : Finset ℕ} {s s' : Disk} {d d' : Dinode} {i b : ℕ}
  {L : List Mark}

theorem mem_blocks_iff : b ∈ s.blocks d ↔ s.HasBlock d b := by
  rw [Disk.blocks, List.mem_filter, decide_eq_true_eq, and_comm]
  refine and_congr_right fun _ => ?_
  rw [List.mem_append, List.mem_append, List.mem_map, List.mem_map, List.mem_singleton]
  constructor
  · rintro (⟨k, -, he⟩ | ⟨j, -, he⟩ | he)
    · exact ⟨.direct k, he⟩
    · exact ⟨.entry j, he⟩
    · exact ⟨.indirect, he.symm⟩
  · rintro ⟨k | _ | j, he⟩
    · exact Or.inl ⟨k, List.mem_finRange k, he⟩
    · exact Or.inr (Or.inr he.symm)
    · exact Or.inr (Or.inl ⟨j, List.mem_finRange j, he⟩)

/-! ## The log -/

theorem Within.congr (h : Within W s) (hlog : s'.logged = s.logged) : Within W s' := by
  constructor
  · rw [hlog]
    exact h.nodup
  · rw [hlog]
    exact h.subset

theorem Within.log (h : Within W s) : Within (insert b W) (s.log b) where
  nodup := by
    rw [Disk.log]
    split_ifs with hm
    · exact h.nodup
    · exact h.nodup.append (List.nodup_singleton b) (List.disjoint_singleton.2 hm)
  subset x hx := by
    rcases mem_logged_log.1 hx with hx | rfl
    · exact Finset.mem_insert_of_mem (h.subset x hx)
    · exact Finset.mem_insert_self ..

theorem Within.length_le (h : Within W s) : s.logged.length ≤ W.card := by
  rw [← List.toFinset_card_of_nodup h.nodup]
  exact Finset.card_le_card fun x hx => h.subset x (List.mem_toFinset.1 hx)

/-- A block that is not in the log, and finds no buffer. -/
theorem Within.card_of_noBuffer (h : Within W s) (hb : s.NoBuffer b)
    (hheld : s.held = [] ∨ s.held.length ≤ 1 ∧ b ∈ W) : LOGBLOCKS ≤ W.card := by
  obtain ⟨-, hlog, hfull⟩ := hb
  have hN : NBUF = 30 := rfl
  have hL : LOGBLOCKS = 30 := rfl
  have hsub : s.logged.toFinset ⊆ W.erase b := fun x hx =>
    Finset.mem_erase.2 ⟨fun hxb => hlog (hxb ▸ List.mem_toFinset.1 hx),
      h.subset x (List.mem_toFinset.1 hx)⟩
  have hcard := Finset.card_le_card hsub
  have hunion := Finset.card_union_le s.held.toFinset s.logged.toFinset
  rw [← List.toFinset_append] at hunion
  have hlen := s.held.toFinset_card_le
  rcases hheld with hheld | ⟨hheld, hbW⟩
  · have hzero : s.held.length = 0 := congrArg List.length hheld
    have herase := Finset.card_erase_le (s := W) (a := b)
    omega
  · rw [Finset.card_erase_of_mem hbW] at hcard
    have hpos := Finset.card_pos.2 ⟨b, hbW⟩
    omega

/-- The blocks that a run passes to `log_write` are in the log, if it returns. -/
theorem meets_mem_logged (c : M α) (s : Disk) : c.Meets buffered (fun _ s' =>
    ∀ b, b ∈ s.logged ∨ b ∈ c.labels buffered logLabel s → b ∈ s'.logged) (fun _ => True) s := by
  induction c generalizing s with
  | ret a => exact fun b hb => hb.resolve_right List.not_mem_nil
  | call o k ih =>
    unfold Program.Meets at ih ⊢
    rw [Program.labels_call]
    simp only [Program.run]
    cases ho : buffered o s with
    | error e => trivial
    | ok p =>
      have hd : disk o s = .ok p := Program.of_guarded ho
      dsimp only
      have hp := ih p.1 p.2
      split
      · next a s' hr =>
        rw [hr] at hp
        intro b hb
        refine hp b ?_
        cases hl : logLabel o with
        | none =>
          rw [hl] at hb
          rwa [logged_of_call hl (unlimited_of_disk o s p hd)]
        | some b' =>
          rw [hl, Option.toList_some, List.singleton_append, List.mem_cons] at hb
          cases o with
          | logWrite x =>
            obtain rfl := Option.some.inj hl
            have hp2 : p.2 = s.log x := by
              have hu := unlimited_of_disk _ s p hd
              rw [unlimited] at hu
              split_ifs at hu
              cases hu
              rfl
            rw [hp2] at hb ⊢
            rw [mem_logged_log, or_assoc]
            exact hb
          | _ => cases hl
      · trivial

/-- A run that would at most fill the log. -/
theorem meets_buffered {c : M α} {Q : α → Disk → Prop} (hc : Ends c Q s) :
    c.Meets buffered Q Exhausted s := by
  refine hc.guarded.mono (fun _ _ => id) ?_
  rintro e (he | ⟨o, s, he⟩)
  · exact Or.inl he
  · cases o with
    | bread b =>
      simp only [noBuffer] at he
      split_ifs at he
      exact Or.inr (Option.some.inj he).symm
    | _ => cases he

/-! ## Rules -/

theorem does_bread {Q : Unit → Disk → Prop} (hs : Within W s)
    (hheld : s.held = [] ∨ s.held.length ≤ 1 ∧ b ∈ W) (hQ : Q () (s.lock b)) :
    Does W (bread b) [] Q s := by
  refine Program.marks_op_none rfl ?_
  by_cases hno : s.NoBuffer b
  · refine Program.meets_op_error (e := .panic .noBuffers) ?_ fun _ =>
      hs.card_of_noBuffer hno hheld
    simp [buffered, Program.guarded, noBuffer, hno]
  · have hg : noBuffer (.bread b) s = none := if_neg hno
    refine Program.Meets.op_guarded ?_ hg
    by_cases hb : b ∈ s.held
    · exact Program.meets_op_error (if_pos hb) (by rintro (h | h) <;> cases h)
    · exact Program.meets_op (if_neg hb) hQ

theorem does_brelse {held : List ℕ} {Q : Unit → Disk → Prop} (hb : s.held = b :: held)
    (hQ : Q () { s with held := held }) : Does W (brelse b) [] Q s := by
  refine Program.marks_op_none rfl (Program.Meets.op_guarded ?_ rfl)
  refine Program.meets_op (if_pos (hb ▸ List.mem_cons_self)) ?_
  rw [hb, List.erase_cons_head]
  exact hQ

theorem does_logWrite {Q : Unit → Disk → Prop} (hs : Within W s)
    (hQ : Within (insert b W) (s.log b) → Q () (s.log b)) : Does W (logWrite b) [.log b] Q s := by
  refine Program.marks_op_some rfl (Program.Meets.op_guarded ?_ rfl)
  by_cases hl : LOGBLOCKS ≤ s.logged.length
  · exact Program.meets_op_error (if_pos hl) fun _ => hl.trans hs.length_le
  · by_cases hout : s.outstanding < 1
    · exact Program.meets_op_error ((if_neg hl).trans (if_pos hout))
        (by rintro (h | h) <;> cases h)
    · exact Program.meets_op ((if_neg hl).trans (if_neg hout)) (hQ hs.log)

theorem does_bit {Q : Bool → Disk → Prop} (hQ : Q (s.bitmap b) s) : Does W (bit b) [] Q s :=
  Program.marks_op_none rfl hQ

theorem does_setBit {v : Bool} {Q : Unit → Disk → Prop}
    (hQ : Q () { s with bitmap := Function.update s.bitmap b v }) :
    Does W (setBit b v) [.bit b v] Q s :=
  Program.marks_op_some rfl hQ

theorem does_data {Q : Block → Disk → Prop} (hQ : Q (s.data b) s) : Does W (data b) [] Q s :=
  Program.marks_op_none rfl hQ

theorem does_setDinode {Q : Unit → Disk → Prop}
    (hQ : Q () { s with dinode := Function.update s.dinode i d }) :
    Does W (setDinode i d) [.dinode i d] Q s :=
  Program.marks_op_some rfl hQ

/-! ## itrunc -/

/-- What a run leaves as it is. -/
structure Same (W : Finset ℕ) (s s' : Disk) : Prop where
  within : Within W s'
  data : s'.data = s.data
  held : s'.held = s.held

theorem Same.trans {s₁ : Disk} (h : Same W s s₁) (h' : Same W s₁ s') : Same W s s' :=
  ⟨h'.within, h'.data.trans h.data, h'.held.trans h.held⟩

theorem does_bfree (hs : Within W s) (hheld : s.held.length ≤ 1) (hb : sb.BBLOCK b ∈ W) :
    Does W (bfree sb b) (freeMarks sb b) (fun _ s' => Same W s s') s := by
  rw [bfree]
  refine Program.marks_bind_nil (does_bread hs (Or.inr ⟨hheld, hb⟩)
    (Program.marks_bind_nil (does_bit ?_)))
  by_cases hbit : (s.lock (sb.BBLOCK b)).bitmap b = false
  · rw [if_pos hbit]
    exact Program.marks_error rfl (by rintro (h | h) <;> cases h)
  · rw [if_neg hbit]
    refine Program.marks_bind_cons (does_setBit (Program.marks_bind_cons ?_))
    refine does_logWrite (hs.congr rfl) fun hs' => does_brelse rfl ⟨?_, rfl, rfl⟩
    rw [Finset.insert_eq_of_mem hb] at hs'
    exact hs'.congr rfl

theorem does_iupdate (hs : Within W s) (hheld : s.held = []) :
    Does W (iupdate sb i d) (updateMarks sb i d)
      (fun _ s' => Same (insert (sb.IBLOCK i) W) s s') s := by
  rw [iupdate]
  refine Program.marks_bind_nil (does_bread hs (Or.inl hheld)
    (Program.marks_bind_cons (does_setDinode ?_)))
  refine Program.marks_bind_cons (does_logWrite (hs.congr rfl) fun hs' => ?_)
  exact does_brelse rfl ⟨hs'.congr rfl, rfl, rfl⟩

theorem does_itruncEntries (a : Block) {js : List ℕ} (hs : Within W s) (hheld : s.held.length ≤ 1)
    (hW : ∀ j ∈ js, (a.word j).toNat ≠ 0 → sb.BBLOCK (a.word j).toNat ∈ W) :
    Does W (itruncEntries sb a js)
      (((js.map fun j => (a.word j).toNat).filter (· ≠ 0)).flatMap (freeMarks sb))
      (fun _ s' => Same W s s') s := by
  induction js generalizing s with
  | nil => exact Program.marks_pure ⟨hs, rfl, rfl⟩
  | cons j rest ih =>
    have hrest : ∀ j' ∈ rest, (a.word j').toNat ≠ 0 → sb.BBLOCK (a.word j').toNat ∈ W :=
      fun j' hj' => hW j' (List.mem_cons_of_mem j hj')
    rw [itruncEntries, List.map_cons]
    by_cases h0 : (a.word j).toNat = 0
    · rw [if_neg (not_not.2 h0), List.filter_cons_of_neg (by simp [h0])]
      exact ih hs hheld hrest
    · rw [if_pos h0, List.filter_cons_of_pos (by simp [h0]), List.flatMap_cons]
      refine Program.marks_bind ((does_bfree hs hheld (hW j List.mem_cons_self h0)).post ?_)
      intro _ s₁ h₁
      exact (ih h₁.within (h₁.held ▸ hheld) hrest).post fun _ s' h' => h₁.trans h'

theorem does_itruncDirect {ks : List (Fin NDIRECT)} (hnd : ks.Nodup) (hs : Within W s)
    (hheld : s.held.length ≤ 1)
    (hW : ∀ k ∈ ks, s.slot d (.direct k) ≠ 0 → sb.BBLOCK (s.slot d (.direct k)) ∈ W) :
    Does W (itruncDirect sb ks d)
      (((ks.map fun k => s.slot d (.direct k)).filter (· ≠ 0)).flatMap (freeMarks sb))
      (fun _ s' => Same W s s') s := by
  induction ks generalizing s d with
  | nil => exact Program.marks_pure ⟨hs, rfl, rfl⟩
  | cons k rest ih =>
    obtain ⟨hk, hnd'⟩ := List.nodup_cons.1 hnd
    rw [itruncDirect, List.map_cons]
    by_cases h0 : (d.addrs k.castSucc).toNat = 0
    · rw [if_neg (not_not.2 h0), List.filter_cons_of_neg (by simp [Disk.slot, h0])]
      exact ih hnd' hs hheld fun k' hk' => hW k' (List.mem_cons_of_mem k hk')
    · rw [if_pos h0, List.filter_cons_of_pos (by simp [Disk.slot, h0]), List.flatMap_cons]
      refine Program.marks_bind ((does_bfree hs hheld (hW k List.mem_cons_self h0)).post ?_)
      intro _ s₁ h₁
      -- the other slots are not the one that is cleared
      have hslot : ∀ k' ∈ rest, s₁.slot (setAddr d k.castSucc 0) (.direct k') =
          s.slot d (.direct k') := by
        intro k' hm
        rw [slot_setAddr k (by decide),
          if_neg fun he : Slot.direct k' = .direct k => hk (Slot.direct.inj he ▸ hm)]
        rfl
      rw [← List.map_congr_left hslot]
      refine (ih hnd' h₁.within (h₁.held ▸ hheld) fun k' hk' h0' => ?_).post fun _ s' h' =>
        h₁.trans h'
      rw [hslot k' hk'] at h0' ⊢
      exact hW k' (List.mem_cons_of_mem k hk') h0'

theorem does_itruncIndirect {addr : ℕ} (hs : Within W s) (hheld : s.held = [])
    (hW : ∀ j < NINDIRECT, ((s.data addr).word j).toNat ≠ 0 →
      sb.BBLOCK ((s.data addr).word j).toNat ∈ W) (haddr : sb.BBLOCK addr ∈ W) :
    Does W (itruncIndirect sb addr)
      ((((List.range NINDIRECT).map fun j => ((s.data addr).word j).toNat).filter
        (· ≠ 0)).flatMap (freeMarks sb) ++ freeMarks sb addr)
      (fun _ s' => Same W s s') s := by
  rw [itruncIndirect]
  refine Program.marks_bind_nil (does_bread hs (Or.inl hheld)
    (Program.marks_bind_nil (does_data ?_)))
  have hlock : Within W (s.lock addr) := hs.congr rfl
  have hone : (s.lock addr).held = [addr] := congrArg (addr :: ·) hheld
  refine Program.marks_bind ((does_itruncEntries (s.data addr) hlock (hone ▸ le_rfl) fun j hj =>
    hW j (List.mem_range.1 hj)).post ?_)
  intro _ s₁ h₁
  refine Program.marks_bind_nil (does_brelse (h₁.held.trans hone) ?_)
  have hs₁ : Within W { s₁ with held := [] } := h₁.within.congr rfl
  refine (does_bfree hs₁ (Nat.zero_le 1) haddr).post fun _ s' h' => ⟨h'.within, ?_, ?_⟩
  · exact h'.data.trans h₁.data
  · exact h'.held.trans hheld.symm

/-- The blocks without those of the indirect block. -/
theorem blocks_of_indirect_eq_zero (hind : Disk.indirect d = 0) : s.blocks d =
    ((List.finRange NDIRECT).map fun k => s.slot d (.direct k)).filter (· ≠ 0) := by
  have hentries : ((List.finRange NINDIRECT).map fun j => s.slot d (.entry j)).filter (· ≠ 0) =
      [] := by
    refine List.filter_eq_nil_iff.2 fun b hb => ?_
    obtain ⟨j, -, rfl⟩ := List.mem_map.1 hb
    rw [Disk.slot, if_pos hind]
    exact fun hne => of_decide_eq_true hne rfl
  have hlast : s.slot d .indirect = 0 := hind
  rw [Disk.blocks, List.filter_append, List.filter_append, hentries, hlast]
  exact List.append_nil _

theorem blocks_of_indirect_ne_zero {addr : ℕ} (hind : Disk.indirect d = addr) (h0 : addr ≠ 0) :
    s.blocks d = ((List.finRange NDIRECT).map fun k => s.slot d (.direct k)).filter (· ≠ 0) ++
      (((List.range NINDIRECT).map fun j => ((s.data addr).word j).toNat).filter (· ≠ 0) ++
        [addr]) := by
  have hentries : ((List.finRange NINDIRECT).map fun j => s.slot d (.entry j)) =
      (List.range NINDIRECT).map fun j => ((s.data addr).word j).toNat := by
    rw [← List.map_coe_finRange_eq_range, List.map_map]
    refine List.map_congr_left fun j _ => ?_
    rw [Disk.slot, hind, if_neg h0]
    rfl
  have hlast : s.slot d .indirect = addr := hind
  rw [Disk.blocks, List.filter_append, List.filter_append, hentries, hlast,
    List.filter_cons_of_pos (by simp [h0]), List.filter_nil]

/-- **The changes of itrunc**: it clears the bit of each block, in order, and writes the dinode. -/
theorem does_itrunc (h : Consistent sb s) (hout : 1 ≤ s.outstanding) (hs : Within W s)
    (hW : ∀ b, s.HasBlock (s.dinode i) b → sb.BBLOCK b ∈ W) :
    Does W (itrunc sb i (s.dinode i)) (truncMarks sb s i)
      (fun _ s' => Same (insert (sb.IBLOCK i) W) s s') s := by
  have hend : ∀ {s₁ : Disk} {d' : Dinode}, Same W s s₁ → d' = (s.dinode i).trunc →
      Does W (do
        iupdate sb i d'
        return d') (updateMarks sb i (s.dinode i).trunc)
        (fun _ s' => Same (insert (sb.IBLOCK i) W) s s') s₁ := by
    rintro s₁ d' h₁ rfl
    have hdo : Does W (iupdate sb i (s.dinode i).trunc >>= fun _ => pure (s.dinode i).trunc)
        (updateMarks sb i (s.dinode i).trunc ++ [])
        (fun _ s' => Same (insert (sb.IBLOCK i) W) s s') s₁ := by
      refine Program.marks_bind ((does_iupdate h₁.within (h₁.held.trans h.held)).post
        fun _ s' h' => ?_)
      exact Program.marks_pure ⟨h'.within, h'.data.trans h₁.data, h'.held.trans h₁.held⟩
    rwa [List.append_nil] at hdo
  have hheld : s.held.length ≤ 1 := h.held ▸ Nat.zero_le 1
  have hdirect := (does_itruncDirect (d := s.dinode i) (List.nodup_finRange NDIRECT) hs hheld
    fun k _ h0 => hW _ ⟨h0, .direct k, rfl⟩).and (meets_buffered
      (ends_itruncDirect (List.nodup_finRange NDIRECT) (h.ready hout) (fun k _ h0 => h.loose h0)
        fun k _ k' _ h0 he => Slot.direct.inj (h.owned.inj i _ i _ h0 he).2))
  rw [itrunc, truncMarks]
  generalize haddr : ((s.dinode i).addrs (Fin.last NDIRECT)).toNat = addr
  have hind : Disk.indirect (s.dinode i) = addr := haddr
  by_cases h0 : addr = 0
  · subst h0
    rw [blocks_of_indirect_eq_zero hind]
    refine Program.marks_bind (hdirect.mono ?_ fun _ he => he.1)
    rintro d₁ s₁ ⟨h₁, -, -, hc⟩
    have hlast : d₁.addrs (Fin.last NDIRECT) = (s.dinode i).addrs (Fin.last NDIRECT) :=
      hc.other _ fun k _ => (Fin.castSucc_lt_last k).ne'
    dsimp only
    rw [hlast, haddr, if_neg (not_not.2 rfl)]
    refine hend h₁ (hc.eq_trunc ?_ (fun _ => rfl) rfl rfl)
    exact hlast.trans (UInt32.toNat_inj.1 haddr)
  · rw [blocks_of_indirect_ne_zero hind h0, List.flatMap_append, List.append_assoc,
      List.flatMap_append, List.flatMap_singleton]
    refine Program.marks_bind (hdirect.mono ?_ fun _ he => he.1)
    rintro d₁ s₁ ⟨h₁, -, -, hc⟩
    have hlast : d₁.addrs (Fin.last NDIRECT) = (s.dinode i).addrs (Fin.last NDIRECT) :=
      hc.other _ fun k _ => (Fin.castSucc_lt_last k).ne'
    have hentry : ∀ j < NINDIRECT, ((s₁.data addr).word j).toNat ≠ 0 →
        sb.BBLOCK ((s₁.data addr).word j).toNat ∈ W := by
      intro j hj hj0
      refine hW _ ⟨hj0, .entry ⟨j, hj⟩, ?_⟩
      rw [Disk.slot, hind, if_neg h0, h₁.data]
    dsimp only
    rw [hlast, haddr, if_pos h0, ← h₁.data]
    refine Program.marks_bind ((does_itruncIndirect h₁.within (h₁.held.trans h.held) hentry
      (hW addr ⟨h0, .indirect, hind⟩)).post fun _ s₂ h₂ => ?_)
    refine hend (h₁.trans h₂) ?_
    have haddrs : (setAddr d₁ (Fin.last NDIRECT) 0).addrs (Fin.last NDIRECT) = 0 :=
      UInt32.toNat_inj.1 (toNat_setAddr d₁ _ (by decide))
    exact hc.eq_trunc haddrs (fun k => addrs_setAddr_of_ne d₁ (Fin.castSucc_lt_last k).ne) rfl rfl

/-! ## Freeing an inode -/

/-- The bitmap blocks that change when the inode `i` is freed. -/
def bitmapBlocks (sb : Superblock) (s : Disk) (i : ℕ) : Finset ℕ :=
  ((s.blocks (s.dinode i)).map sb.BBLOCK).toFinset

/-- The blocks that change when the inode `i` is freed: bitmap blocks, and the inode's own block. -/
def written (sb : Superblock) (s : Disk) (i : ℕ) : Finset ℕ :=
  insert (sb.IBLOCK i) (bitmapBlocks sb s i)

theorem BBLOCK_mem_bitmapBlocks (hb : s.HasBlock (s.dinode i) b) :
    sb.BBLOCK b ∈ bitmapBlocks sb s i :=
  List.mem_toFinset.2 (List.mem_map_of_mem (mem_blocks_iff.2 hb))

theorem logLabel_eq : logLabel = fun o => (mark o).bind Mark.logged := by
  funext o
  cases o <;> rfl

/-- What is logged in a run that returns, is in the log. -/
theorem mem_logged_of_marks {c : M α} {Q : α → Disk → Prop} {E : Stop → Prop}
    (hc : c.Marks buffered mark L Q E s) : c.Marks buffered mark L
      (fun a s' => Q a s' ∧ ∀ b, .log b ∈ L → b ∈ s'.logged) E s := by
  refine ⟨hc.1, (hc.2.and (meets_mem_logged c s)).mono ?_ fun _ he => he.1⟩
  rintro a s' ⟨⟨hl, hQ⟩, hm⟩
  refine ⟨hl, hQ, fun b hb => hm b (Or.inr ?_)⟩
  rw [logLabel_eq, Program.labels_filterMap, hl]
  exact List.mem_filterMap.2 ⟨.log b, hb, rfl⟩

theorem log_mem_truncMarks (hb : b ∈ written sb s i) : .log b ∈ truncMarks sb s i := by
  rw [truncMarks]
  rcases Finset.mem_insert.1 hb with rfl | hb
  · exact List.mem_append_right _ (List.mem_cons_of_mem _ List.mem_cons_self)
  · obtain ⟨x, hx, rfl⟩ := List.mem_map.1 (List.mem_toFinset.1 hb)
    refine List.mem_append_left _ (List.mem_flatMap.2 ⟨x, hx, ?_⟩)
    exact List.mem_cons_of_mem _ List.mem_cons_self

/-- How freeing an inode stops. If the blocks `W` that change fill the log, `log_write` panics when
the inode block is logged again, though it needs no more room; it may have stopped before if the
bitmap blocks `B` alone fill it. -/
def Overflow (B W : Finset ℕ) (e : Stop) : Prop :=
  e = .panic .tooBig ∧ LOGBLOCKS ≤ W.card ∨ Exhausted e ∧ LOGBLOCKS ≤ B.card

/-- `itrunc` of the inode `i` has returned. -/
structure Truncated (sb : Superblock) (s : Disk) (i : ℕ) (s' : Disk) : Prop where
  updated : Updated sb s i s' (s.dinode i).trunc
  data : s'.data = s.data
  bits : ∀ b, s'.bitmap b = true ↔ s.bitmap b = true ∧ ¬s.HasBlock (s.dinode i) b
  logged : ∀ b ∈ written sb s i, b ∈ s'.logged
  within : Within (written sb s i) s'

theorem marks_itrunc (h : Consistent sb s) (hout : 1 ≤ s.outstanding) (hlog : s.logged = [])
    (i : ℕ) : (itrunc sb i (s.dinode i)).Marks buffered mark (truncMarks sb s i)
      (fun d' s' => d' = (s.dinode i).trunc ∧ Truncated sb s i s')
      (Overflow (bitmapBlocks sb s i) (written sb s i)) s := by
  have hs : Within (bitmapBlocks sb s i) s := by
    constructor
    · rw [hlog]
      exact List.nodup_nil
    · rw [hlog]
      exact nofun
  have hdoes := does_itrunc h hout hs fun b => BBLOCK_mem_bitmapBlocks
  refine Marks.mono (mem_logged_of_marks (hdoes.and (meets_buffered (ends_itrunc h hout i)))) ?_ ?_
  · rintro d' s' ⟨⟨hsame, rfl, hu, hbits⟩, hm⟩
    exact ⟨rfl, hu, hsame.data, hbits, fun b hb => hm b (log_mem_truncMarks hb), hsame.within⟩
  · rintro e ⟨hcard, he⟩
    exact Or.inr ⟨he, hcard he⟩

/-- The inode `i` has been freed, and nothing else has changed. -/
structure Disposed (sb : Superblock) (s : Disk) (i : ℕ) (s' : Disk) : Prop where
  consistent : Consistent sb s'
  outstanding : s'.outstanding = s.outstanding
  dinode : s'.dinode = Function.update s.dinode i (s.dinode i).trunc.untype
  data : s'.data = s.data
  bits : ∀ b, s'.bitmap b = true ↔ s.bitmap b = true ∧ ¬s.HasBlock (s.dinode i) b

/-- An inode block that is in the log has a buffer, and the log is not full if it can be written
again. -/
theorem meets_iupdate_again (hm : sb.IBLOCK i ∈ s.logged) :
    (iupdate sb i d).Meets buffered (fun _ _ => s.logged.length < LOGBLOCKS)
      (fun e => e ≠ .panic .noBuffers) s := by
  have hg : noBuffer (.bread (sb.IBLOCK i)) s = none := if_neg fun h => h.2.1 hm
  rw [iupdate, Program.meets_bind]
  refine Program.Meets.op_guarded ?_ hg
  by_cases hb : sb.IBLOCK i ∈ s.held
  · exact Program.meets_op_error (if_pos hb) (by simp)
  · refine Program.meets_op (if_neg hb) ?_
    rw [Program.meets_bind]
    refine Program.Meets.op_guarded (Program.meets_op rfl ?_) rfl
    rw [Program.meets_bind]
    refine Program.Meets.op_guarded ?_ rfl
    by_cases hl : LOGBLOCKS ≤ s.logged.length
    · exact Program.meets_op_error (if_pos hl) (by simp)
    · by_cases hout : s.outstanding < 1
      · exact Program.meets_op_error ((if_neg hl).trans (if_pos hout)) (by simp)
      · refine Program.meets_op ((if_neg hl).trans (if_neg hout)) ?_
        exact Program.Meets.op_guarded (ends_brelse rfl (Nat.lt_of_not_le hl)) rfl

/-- The `iupdate` that writes the type 0. -/
theorem Truncated.marks_iupdate (h : Truncated sb s i s') (hout : 1 ≤ s.outstanding) :
    (iupdate sb i (s.dinode i).trunc.untype).Marks buffered mark
      (updateMarks sb i (s.dinode i).trunc.untype)
      (fun _ t => Disposed sb s i t ∧ Within (written sb s i) t ∧
        (written sb s i).card < LOGBLOCKS)
      (Overflow (bitmapBlocks sb s i) (written sb s i)) s' := by
  have hi : s'.dinode i = (s.dinode i).trunc := by
    rw [h.updated.dinode]
    exact Function.update_self ..
  have hends : Ends (iupdate sb i (s.dinode i).trunc.untype) _ s' :=
    ends_iupdate_fields h.updated.consistent (h.updated.outstanding ▸ hout)
      (by rw [hi]; rfl) (by rw [hi]; rfl)
  have hcard : (written sb s i).card ≤ s'.logged.length := by
    refine le_trans (Finset.card_le_card fun b hb => ?_) s'.logged.toFinset_card_le
    exact List.mem_toFinset.2 (h.logged b hb)
  have hmem : sb.IBLOCK i ∈ written sb s i := Finset.mem_insert_self ..
  have hdoes : Does _ (iupdate sb i (s.dinode i).trunc.untype) _ _ s' :=
    does_iupdate h.within h.updated.consistent.held
  rw [Finset.insert_eq_of_mem hmem] at hdoes
  refine Marks.mono ((hdoes.and (meets_buffered hends)).and
    (meets_iupdate_again (h.logged _ hmem))) ?_ ?_
  · rintro _ t ⟨⟨hsame, hu, hbits, hdata⟩, hroom⟩
    refine ⟨⟨hu.consistent, hu.outstanding.trans h.updated.outstanding, ?_, hdata.trans h.data,
      fun b => ?_⟩, hsame.within, hcard.trans_lt hroom⟩
    · rw [hu.dinode, h.updated.dinode, Function.update_idem]
    · rw [hbits]
      exact h.bits b
  · rintro e ⟨⟨hle, he⟩, hne⟩
    exact Or.inl ⟨he.resolve_right hne, hle he⟩

end Xv6.Fs
