import Mathlib.Order.Interval.Finset.Nat
import Xv6.Fs.Logging
import Xv6.Fs.Reserve

/-!
# Copies that fail in the middle of a block

`either_copyin` copies straight into the buffer. If it fails after some bytes, `writei` does not
count them, does not log the buffer and releases it: the file has changed beyond the bytes that
`writei` reports, and the change is lost when the buffer is evicted. Here is exactly when this
happens (`Torn`), and that `writei` touches only what it reports when it does not
(`writei_reported_iff`).
-/

namespace Xv6.Fs

open Inode (Dinode NDIRECT)

/-- The block indices from `a` to below `q` that have no block. -/
def missing (s : Disk) (d : Dinode) (a q : ℕ) : Finset ℕ :=
  (Finset.Ico a q).filter fun j => s.mapped d j = 0

/-- The blocks that can be allocated. -/
def freeBlocks (sb : Superblock) (s : Disk) : Finset ℕ :=
  (Finset.range sb.size.toNat).filter fun b => s.bitmap b = false

/-- A write of `n` bytes at `off`, of which `src` can be copied, that fails in a block of the file
after some bytes: `writei` gets to the block `q`, and there a byte changes that is below the size,
or the block is not in the log. -/
structure Torn (sb : Superblock) (s : Disk) (d : Dinode) (src : List UInt8) (off n : UInt32)
    (q : ℕ) : Prop where
  fits : Fits d off n
  short : src.length < n.toNat
  block : q = (off.toNat + src.length) / BSIZE
  mapped : s.mapped d q ≠ 0
  reached : (missing s d (off.toNat / BSIZE) q).card ≤ (freeBlocks sb s).card
  changed : ∃ k, off.toNat ≤ k ∧ q * BSIZE ≤ k ∧ k < off.toNat + src.length ∧
    src.getD (k - off.toNat) 0 ≠ s.byte d k ∧ (k < d.size.toNat ∨ s.mapped d q ∉ s.logged)

/-- A run of `writei` to the file `i` that has touched only what it reports. -/
structure Reported (sb : Superblock) (s : Disk) (i : ℕ) (off : UInt32) (r : ℤ × Dinode)
    (s' : Disk) : Prop where
  bytes : ∀ k : ℕ, k < (s'.dinode i).size.toNat → (k < off.toNat ∨ off.toNat + max r.1 0 ≤ k) →
    k < (s.dinode i).size.toNat ∧ s'.byte (s'.dinode i) k = s.byte (s.dinode i) k
  size : ((s'.dinode i).size.toNat : ℤ) = max ↑(s.dinode i).size.toNat (off.toNat + max r.1 0)
  logged : ∀ x, Dirty sb s s' x → x ∈ s'.logged

variable {sb : Superblock} {s s₀ s' t : Disk} {d d' : Dinode} {v v₀ : ℕ → Dinode}
  {i : ℕ} {src : List UInt8}

/-! ## No change is lost -/

/-- Where the loop of `writei` is that has started in `s₀` at `off₀`. -/
structure Progress (sb : Superblock) (s₀ : Disk) (v₀ : ℕ → Dinode) (i : ℕ) (src : List UInt8)
    (n off₀ off tot : ℕ) (s : Disk) (v : ℕ → Dinode) : Prop where
  owned : Owned sb s v
  ready : Ready sb s
  held : s.held = []
  kept : Kept sb s₀ s
  extends' : Extends s₀ (v₀ i) s (v i)
  offset : off = off₀ + tot
  count : tot ≤ n
  copied : tot ≤ src.length
  mapped : ∀ j, off₀ / BSIZE ≤ j → j * BSIZE < off → s.mapped (v i) j ≠ 0
  byte : ∀ k, k / BSIZE < MAXFILE → off ≤ k → s.byte (v i) k = s₀.byte (v₀ i) k
  fresh : ∀ bn < MAXFILE, s₀.mapped (v₀ i) bn = 0 → s.mapped (v i) bn ≠ 0 →
    s.mapped (v i) bn ∈ s.logged

/-- Blocks that are missing at first and are there later were free. -/
theorem card_missing_le (h : Owned sb s v) (he : Extends s₀ (v₀ i) s (v i)) {a q : ℕ}
    (hq : q ≤ MAXFILE) (hmapped : ∀ j, a ≤ j → j < q → s.mapped (v i) j ≠ 0) :
    (missing s₀ (v₀ i) a q).card ≤ (freeBlocks sb s₀).card := by
  refine Finset.card_le_card_of_injOn (fun j => s.mapped (v i) j) (fun j hj => ?_) ?_
  · obtain ⟨hm, h0⟩ := Finset.mem_filter.1 (Finset.mem_coe.1 hj)
    obtain ⟨ha, hjq⟩ := Finset.mem_Ico.1 hm
    have hne := hmapped j ha hjq
    refine Finset.mem_filter.2 ⟨Finset.mem_range.2 (h.used i _ hne).2.1, ?_⟩
    exact he.fresh _ h0 hne
  · intro j hj j' hj' he'
    obtain ⟨ha, hjq⟩ := Finset.mem_Ico.1 (Finset.mem_filter.1 (Finset.mem_coe.1 hj)).1
    obtain ⟨ha', hjq'⟩ := Finset.mem_Ico.1 (Finset.mem_filter.1 (Finset.mem_coe.1 hj')).1
    exact ofIndex_inj (by omega) (by omega) (h.inj i _ i _ (hmapped j ha hjq) he').2

/-- A buffer in the log may be changed. -/
theorem Kept.modify_of_mem {x : ℕ} (h : Kept sb s₀ t) (hx : x ∈ t.logged) (y : Block) :
    Kept sb s₀ { t with data := Function.update t.data x y } := by
  have hk := h.modify x y
  have hlog : (Disk.log { t with data := Function.update t.data x y } x).logged = t.logged :=
    logged_log_of_mem (s := { t with data := Function.update t.data x y }) hx
  exact hk.congr rfl rfl rfl hlog.symm

theorem Block.store_eq_self {o : ℕ} {bytes : List UInt8} {x : Block}
    (h : ∀ j < bytes.length, bytes.getD j 0 = x (o + j)) : Block.store o bytes x = x := by
  funext k
  rw [Block.store]
  split_ifs with hk
  · by_cases hj : k - o < bytes.length
    · have := h (k - o) hj
      rw [List.getD_eq_getElem _ _ hj] at this ⊢
      rw [this]
      congr 1
      omega
    · exact List.getD_eq_default _ _ (Nat.le_of_not_lt hj)
  · rfl

/-- The state in which a copy fails: nothing that is not in the log is changed. -/
theorem Progress.kept_store {n off₀ off tot : ℕ} (h : Progress sb s₀ v₀ i src n off₀ off tot s v)
    {s₁ : Disk} {v₁ : ℕ → Dinode} (howned : Owned sb s₁ v₁) (he : Extends s₀ (v₀ i) s₁ (v₁ i))
    (hkept : Kept sb s₀ s₁) (hbyte : ∀ k, s₁.byte (v₁ i) k = s.byte (v i) k)
    (hmapped : ∀ j, off₀ / BSIZE ≤ j → j * BSIZE < off → s₁.mapped (v₁ i) j ≠ 0)
    (hbn : off / BSIZE < MAXFILE) (ha : s₁.mapped (v₁ i) (off / BSIZE) ≠ 0)
    (hfresh : s₀.mapped (v₀ i) (off / BSIZE) = 0 →
      s₁.mapped (v₁ i) (off / BSIZE) ∈ s₁.logged)
    (hshort : src.length < tot + chunk off n tot)
    (hgood : s₀.mapped (v₀ i) (off / BSIZE) ≠ 0 →
      (missing s₀ (v₀ i) (off₀ / BSIZE) (off / BSIZE)).card ≤ (freeBlocks sb s₀).card →
      s₀.mapped (v₀ i) (off / BSIZE) ∉ s₀.logged →
      ∀ k, off ≤ k → k < off₀ + src.length → src.getD (k - off₀) 0 = s₀.byte (v₀ i) k) :
    Kept sb s₀ (s₁.modify (s₁.mapped (v₁ i) (off / BSIZE))
      (Block.store (off % BSIZE) ((src.drop tot).take (chunk off n tot))) s₁.logged) := by
  by_cases hx : s₁.mapped (v₁ i) (off / BSIZE) ∈ s₁.logged
  · exact hkept.modify_of_mem hx _
  · have h0 : s₀.mapped (v₀ i) (off / BSIZE) ≠ 0 := fun h0 => hx (hfresh h0)
    have hsame := he.mapped h0
    have hnot : s₀.mapped (v₀ i) (off / BSIZE) ∉ s₀.logged := fun hm =>
      hx (hsame.symm ▸ hkept.mono _ hm)
    have hreach := card_missing_le howned he hbn.le fun j h₁ h₂ => hmapped j h₁ (by
      have := Nat.div_mul_le_self off BSIZE
      have := Nat.mul_le_mul_right BSIZE (Nat.succ_le_of_lt h₂)
      rw [Nat.succ_mul] at this
      have hpos : 0 < BSIZE := by decide
      omega)
    have hoff := h.offset
    have hcopied := h.copied
    -- the bytes that are stored are the ones that are there
    have hstore : Block.store (off % BSIZE) ((src.drop tot).take (chunk off n tot))
        (s₁.data (s₁.mapped (v₁ i) (off / BSIZE))) = s₁.data (s₁.mapped (v₁ i) (off / BSIZE)) := by
      refine Block.store_eq_self fun j hj => ?_
      rw [List.length_take, List.length_drop] at hj
      have hchunk : j < chunk off n tot := by omega
      have hdiv := (div_of_chunk (Nat.le_add_right off j) (Nat.add_lt_add_left hchunk off)).1
      have hb := hgood h0 hreach hnot (off + j) (Nat.le_add_right off j) (by omega)
      have hsub : off + j - off₀ = tot + j := by omega
      rw [getD_take_drop hchunk, ← byte_of_chunk hchunk ha, hbyte,
        h.byte (off + j) (hdiv ▸ hbn) (Nat.le_add_right off j), ← hb, hsub]
    rw [Disk.modify, hstore, Function.update_eq_self]
    exact hkept

/-- **The loop of `writei` loses no change**, if the copy does not fail in a block of the file that
is not in the log, after bytes that change it. -/
theorem Progress.obs_writeLoop {n off₀ off tot : ℕ}
    (h : Progress sb s₀ v₀ i src n off₀ off tot s v) (hmax : off₀ + n ≤ MAXFILE * BSIZE)
    (hd : v i = d)
    (hgood : src.length < n → ∀ q, q = (off₀ + src.length) / BSIZE → s₀.mapped (v₀ i) q ≠ 0 →
      (missing s₀ (v₀ i) (off₀ / BSIZE) q).card ≤ (freeBlocks sb s₀).card →
      s₀.mapped (v₀ i) q ∉ s₀.logged → ∀ k, off₀ ≤ k → q * BSIZE ≤ k → k < off₀ + src.length →
      src.getD (k - off₀) 0 = s₀.byte (v₀ i) k) :
    Obs sb s₀ (writeLoop sb src n off tot d) (fun _ t => Kept sb s₀ t) s := by
  induction hk : n - tot using Nat.strong_induction_on generalizing v s d off tot with
  | _ k ih =>
    have hoff := h.offset
    have hcount := h.count
    have hcopied := h.copied
    rw [writeLoop]
    by_cases hlt : tot < n
    · have hbn : off / BSIZE < MAXFILE := by
        refine Nat.div_lt_of_lt_mul ?_
        rw [Nat.mul_comm]
        omega
      rw [dif_pos hlt]
      have hobs := obs_bmap (A := fun _ => True) (d := d) h.kept
        ⟨fun _ _ => trivial, fun _ _ => trivial⟩ (fun _ => trivial) hbn
      refine obs_bind (Program.Observes.mono (hobs.and (ends_bmap h.owned hd h.ready h.held hbn)) ?_
        fun _ _ => trivial)
      rintro ⟨addr, d₁⟩ s₁ ⟨⟨hlog, hnew⟩, hb⟩
      dsimp only at hnew hb ⊢
      have hv₁ : Function.update v i d₁ i = d₁ := Function.update_self ..
      have hready₁ := h.ready.of_extends hb.extends'
      have hheld₁ : s₁.held = [] := hb.extends'.held.trans h.held
      by_cases ha : addr = 0
      · rw [if_pos ha]
        exact obs_pure hlog.kept
      · have hm := hb.mapped ha
        subst hm
        generalize hv : Function.update v i d₁ = v₁ at hv₁
        have hown := hv ▸ hb.owned
        subst hv₁ hd
        have he : Extends s₀ (v₀ i) s₁ (v₁ i) := h.extends'.trans hb.extends'
        have hfresh : ∀ bn < MAXFILE, s₀.mapped (v₀ i) bn = 0 → s₁.mapped (v₁ i) bn ≠ 0 →
            s₁.mapped (v₁ i) bn ∈ s₁.logged := by
          intro bn hbn' h0 hne
          by_cases hs : s.mapped (v i) bn = 0
          · by_cases he' : bn = off / BSIZE
            · exact he' ▸ hnew (he' ▸ hs) (he' ▸ hne)
            · have hnot : ¬Slot.Touched (off / BSIZE) (.ofIndex bn) := by
                rintro (ht | ⟨ht, -⟩)
                · exact he' (ofIndex_inj hbn' hbn ht)
                · exact ofIndex_ne_indirect bn ht
              exact (hne ((hb.untouched _ hnot).trans hs)).elim
          · rw [hb.extends'.mapped hs]
            exact hlog.logs.mono _ (h.fresh bn hbn' h0 hs)
        have hmapped : ∀ j, off₀ / BSIZE ≤ j → j * BSIZE < off → s₁.mapped (v₁ i) j ≠ 0 := by
          intro j h₁ h₂
          have hne := h.mapped j h₁ h₂
          rw [hb.extends'.mapped hne]
          exact hne
        rw [if_neg ha]
        refine obs_bind (obs_bread (obs_bind (obs_modify ?_)))
        by_cases hshort : src.length < tot + chunk off n tot
        · have hkept := h.kept_store hown he hlog.kept hb.byte hmapped hbn ha (hfresh _ hbn · ha)
            hshort fun h0 hreach hnot k' h₁ h₂ => ?_
          · rw [if_pos hshort]
            refine obs_bind (obs_brelse (hkept.congr rfl rfl rfl rfl) (obs_pure ?_))
            exact hkept.congr rfl rfl rfl rfl
          · have hle := chunk_le off n tot
            have hq := div_of_chunk (show off ≤ off₀ + src.length by omega)
              (show off₀ + src.length < off + chunk off n tot by omega)
            exact hgood (by omega) _ hq.1.symm h0 hreach hnot k' (by omega)
              ((Nat.div_mul_le_self off BSIZE).trans h₁) h₂
        · rw [if_neg hshort]
          have hkept := hlog.kept.modify (s₁.mapped (v₁ i) (off / BSIZE))
            (Block.store (off % BSIZE) ((src.drop tot).take (chunk off n tot))
              (s₁.data (s₁.mapped (v₁ i) (off / BSIZE))))
          refine obs_bind (obs_logWrite (obs_bind (obs_brelse_cons (hkept.congr rfl rfl rfl rfl)
            rfl ?_)))
          have hslot := hown.slot_modify ha (Block.store (off % BSIZE)
            ((src.drop tot).take (chunk off n tot)))
          have hlen : ((src.drop tot).take (chunk off n tot)).length = chunk off n tot := by
            rw [List.length_take, List.length_drop]
            omega
          have hle := chunk_le off n tot
          refine ih _ (hk ▸ sub_chunk_lt off hlt) (v := v₁) ⟨(hown.modify ha _ _).1,
            hready₁.of_extends (hown.modify ha _ _).2, hheld₁, hkept.congr rfl rfl rfl rfl,
            he.trans (hown.modify ha _ _).2, by omega, by omega, by omega, fun j h₁ h₂ => ?_,
            fun k' hk' hle' => ?_, fun bn hbn' h0 hne => ?_⟩ rfl rfl
          · refine (hslot _ i _).trans_ne ?_
            by_cases hj : j * BSIZE < off
            · exact hmapped j h₁ hj
            · have hdiv := (div_of_chunk (Nat.le_of_not_lt hj) h₂).1
              rw [Nat.mul_div_cancel _ (show 0 < BSIZE by decide)] at hdiv
              exact hdiv ▸ ha
          · refine (byte_round_of_outside hown hbn ha _ hk' (Or.inr (hlen.symm ▸ hle'))).trans ?_
            rw [hb.byte, h.byte k' hk' (by omega)]
          · have hm : s₁.mapped (v₁ i) bn ≠ 0 := (hslot _ i _).symm.trans_ne hne
            have hin : s₁.mapped (v₁ i) bn ∈ (s₁.log (s₁.mapped (v₁ i) (off / BSIZE))).logged :=
              mem_logged_log.2 (Or.inl (hfresh bn hbn' h0 hm))
            exact (congrArg (· ∈ _) (hslot _ i _)).mpr hin
    · rw [dif_neg hlt]
      exact obs_pure h.kept

/-- `writei` loses no change if its copy does not tear a block. -/
theorem obs_writei (h : Consistent sb s) (hout : 1 ≤ s.outstanding) {off n : UInt32}
    (hgood : ∀ q, ¬Torn sb s (s.dinode i) src off n q) :
    Obs sb s (writei sb src i (s.dinode i) off n) (fun _ t => Kept sb s t) s := by
  rw [writei]
  by_cases h₁ : (s.dinode i).size < off ∨ off + n < off
  · rw [if_pos h₁]
    exact obs_pure (Kept.refl sb s)
  · rw [if_neg h₁]
    by_cases h₂ : MAXFILE * BSIZE < (off + n).toNat
    · rw [if_pos h₂]
      exact obs_pure (Kept.refl sb s)
    · have hfits : Fits (s.dinode i) off n := fits_iff.2 ⟨h₁, h₂⟩
      have hstart : Progress sb s s.dinode i src n.toNat off.toNat off.toNat 0 s s.dinode :=
        ⟨h.owned, h.ready hout, h.held, Kept.refl sb s, Extends.refl s _, rfl, Nat.zero_le _,
          Nat.zero_le _, fun j h₁ h₂ => ?_, fun _ _ _ => rfl, fun _ _ h0 hne => (hne h0).elim⟩
      · rw [if_neg h₂]
        refine obs_bind (Obs.post (hstart.obs_writeLoop hfits.2 rfl ?_) ?_)
        · intro hshort q hq hm hreach hnot k h₁ h₂ h₃
          by_contra hne
          exact hgood q ⟨hfits, hshort, hq, hm, hreach, k, h₁, h₂, h₃, hne, Or.inr hnot⟩
        · rintro ⟨tot, off', d₁⟩ t ht
          refine obs_bind (Obs.post (obs_iupdate (A := fun _ => True) ht trivial) ?_)
          exact fun _ t' ht' => obs_pure ht'.kept
      · have hsize : off.toNat ≤ (s.dinode i).size.toNat := hfits.1
        exact (h.noHoles i).mapped j (by omega)

/-! ## What is reported -/

/-- The file has changed only where `writei` says so. -/
theorem Stored.bytes_eq (h : Consistent sb s) {off n : UInt32} {tot : ℕ}
    (hst : Stored sb s (s.dinode i) src off.toNat n.toNat tot s' d')
    (hfits : Fits (s.dinode i) off n) (hgood : ∀ q, ¬Torn sb s (s.dinode i) src off n q) {k : ℕ}
    (hk : k < (s.dinode i).size.toNat) (hout : k < off.toNat ∨ off.toNat + tot ≤ k) :
    s'.byte d' k = s.byte (s.dinode i) k := by
  have hno := h.noHoles i
  obtain ⟨hdiv, hm⟩ := hno.mapped_of_lt hk
  rcases hout with hlt | hle
  · exact hst.before k hdiv hlt
  · cases hst.ending with
    | done _ hrest => exact hrest k hdiv hle
    | noBlock _ _ _ hrest => exact hrest k hdiv hle
    | badCopy ht hshort _ hpart hrest =>
      by_cases hL : off.toNat + tot + (src.length - tot) ≤ k
      · exact hrest k hdiv hL
      · have hcopied := hst.copied
        have hchunk := chunk_le (off.toNat + tot) n.toNat tot
        have hin : ∀ {x}, off.toNat + tot ≤ x → x ≤ off.toNat + src.length →
            x / BSIZE = (off.toNat + tot) / BSIZE := fun h₁ h₂ =>
          (div_of_chunk h₁ (lt_of_le_of_lt h₂ (by omega :
            _ < off.toNat + tot + chunk (off.toNat + tot) n.toNat tot))).1
        have hq := hin (show off.toNat + tot ≤ off.toNat + src.length by omega) le_rfl
        have hkq := hin hle (by omega)
        have hmul := Nat.div_mul_le_self k BSIZE
        rw [hpart k hle (by omega)]
        by_contra hne
        refine hgood _ ⟨hfits, by omega, (hkq.trans hq.symm), hm, ?_, k, by omega, hmul, by omega,
          ?_, Or.inl hk⟩
        · -- all blocks below `k` are there
          have hnone : missing s (s.dinode i) (off.toNat / BSIZE) (k / BSIZE) = ∅ := by
            refine Finset.filter_eq_empty_iff.2 fun j hj => hno.mapped j ?_
            have hlt := Nat.mul_lt_mul_of_pos_right (Finset.mem_Ico.1 hj).2
              (show 0 < BSIZE by decide)
            omega
          rw [hnone]
          exact Nat.zero_le _
        · have hsub : tot + (k - (off.toNat + tot)) = k - off.toNat := by omega
          rwa [hsub] at hne

/-! ## A torn block -/

/-- The block in which the copy fails is not logged. -/
theorem logs_writeLoop {n off tot q x : ℕ} (h : Owned sb s v) (hd : v i = d) (hready : Ready sb s)
    (hheld : s.held = []) (hc : tot ≤ src.length) (hmax : off + (n - tot) ≤ MAXFILE * BSIZE)
    (hshort : src.length < n) (hq : q = (off + (src.length - tot)) / BSIZE)
    (hx : s.mapped (v i) q = x) (hx0 : x ≠ 0) :
    Ends (writeLoop sb src n off tot d) (fun _ t => Logs (· ≠ x) s t) s fun _ => True := by
  induction hk : n - tot using Nat.strong_induction_on generalizing v s d off tot with
  | _ k ih =>
    have hlt : tot < n := by omega
    have hbn : off / BSIZE < MAXFILE := by
      refine Nat.div_lt_of_lt_mul ?_
      rw [Nat.mul_comm]
      omega
    have hqmax : q < MAXFILE := by
      refine hq ▸ Nat.div_lt_of_lt_mul ?_
      rw [Nat.mul_comm]
      omega
    obtain ⟨hstart, -, hused⟩ := h.used i _ (hx.trans_ne hx0)
    have hxstart : sb.dataStart ≤ x := hx ▸ hstart
    have hA : Allows sb (· ≠ x) s := by
      refine ⟨fun b hb he => ?_, fun b hb he => ?_⟩
      · have := BBLOCK_lt hb
        omega
      · subst hx
        exact Bool.false_ne_true (hb.symm.trans (he ▸ hused))
    rw [writeLoop, dif_pos hlt, ends_bind]
    have hobs := obs_bmap (d := d) (Kept.refl sb s) hA
      (fun _ => hd ▸ hx ▸ h.indirect_ne_mapped (hx.trans_ne hx0) i) hbn
    refine (hobs.2.and (ends_bmap h hd hready hheld hbn)).mono ?_ fun _ _ => trivial
    rintro ⟨addr, d₁⟩ s₁ ⟨⟨hlog, -⟩, hb⟩
    dsimp only at hb ⊢
    have hv₁ : Function.update v i d₁ i = d₁ := Function.update_self ..
    have hready₁ := hready.of_extends hb.extends'
    have hheld₁ : s₁.held = [] := hb.extends'.held.trans hheld
    by_cases ha : addr = 0
    · rw [if_pos ha]
      exact hlog.logs
    · have hm := hb.mapped ha
      subst hm
      generalize hv : Function.update v i d₁ = v₁ at hv₁
      have hown := hv ▸ hb.owned
      subst hv₁ hd
      have hx₁ : s₁.mapped (v₁ i) q = x := (hb.extends'.mapped (hx.trans_ne hx0)).trans hx
      rw [if_neg ha, ends_bind]
      refine ends_bread (by rw [hheld₁]; exact List.not_mem_nil) ?_
      rw [ends_bind, ends_modify]
      by_cases hfail : src.length < tot + chunk off n tot
      · rw [if_pos hfail, ends_bind]
        exact ends_brelse rfl ⟨hlog.logs.mono, hlog.logs.upper⟩
      · have hne : s₁.mapped (v₁ i) (off / BSIZE) ≠ x := by
          intro he
          have hqe := ofIndex_inj hbn hqmax (hown.inj i _ i _ ha (he.trans hx₁.symm)).2
          have h₁ := Nat.div_add_mod off BSIZE
          have h₂ := Nat.div_add_mod (off + (src.length - tot)) BSIZE
          have h₃ := Nat.mod_lt (off + (src.length - tot)) (show 0 < BSIZE by decide)
          rw [← hq, ← hqe] at h₂
          rw [chunk] at hfail
          omega
        rw [if_neg hfail, ends_bind]
        refine ends_logWrite_any ?_
        rw [ends_bind]
        refine ends_brelse rfl ?_
        have hlogs : Logs (· ≠ x) s₁ (s₁.log (s₁.mapped (v₁ i) (off / BSIZE))) := Logs.log s₁ hne
        have hslot := hown.slot_modify ha (Block.store (off % BSIZE)
          ((src.drop tot).take (chunk off n tot)))
        refine Program.Meets.post (ih _ (hk ▸ sub_chunk_lt off hlt) (hown.modify ha _ _).1 rfl
          (hready₁.of_extends (hown.modify ha _ _).2) hheld₁ (by omega) (by omega) ?_
          ((hslot _ i _).trans hx₁) rfl) ?_
        · rw [hq]
          congr 1
          omega
        · intro _ t ht
          exact hlog.logs.trans ⟨fun y hy => ht.mono y (hlogs.mono y hy), fun y hy =>
            (ht.upper y hy).elim (hlogs.upper y) Or.inr⟩

theorem logs_writei (h : Consistent sb s) (hout : 1 ≤ s.outstanding)
    (hi : sb.IBLOCK i < sb.dataStart) {off n : UInt32} {q : ℕ}
    (ht : Torn sb s (s.dinode i) src off n q) :
    Ends (writei sb src i (s.dinode i) off n)
      (fun _ t => Logs (· ≠ s.mapped (s.dinode i) q) s t) s fun _ => True := by
  obtain ⟨h₁, h₂⟩ := fits_iff.1 ht.fits
  obtain ⟨hstart, -, -⟩ := h.owned.used i _ ht.mapped
  have hblock : sb.IBLOCK i ≠ s.mapped (s.dinode i) q := (hi.trans_le hstart).ne
  rw [writei, if_neg h₁, if_neg h₂, ends_bind]
  refine (logs_writeLoop h.owned rfl (h.ready hout) h.held (Nat.zero_le _) ht.fits.2 ht.short
    ht.block rfl ht.mapped).post ?_
  rintro ⟨tot, off', d₁⟩ t hlogs
  dsimp only
  rw [ends_bind]
  have hobs := obs_iupdate (A := (· ≠ s.mapped (s.dinode i) q))
    (d := if d₁.size.toNat < off' then { d₁ with size := .ofNat off' } else d₁) (Kept.refl sb t)
    hblock
  exact Program.Meets.post hobs.2 fun _ t' ht' => hlogs.trans ht'.logs

/-- A copy that tears a block is not stopped by the disk being full: the blocks before that one can
be allocated. -/
theorem Torn.mapped_of_full {off n : UInt32} {q tot : ℕ}
    (ht : Torn sb s (s.dinode i) src off n q)
    (hst : Stored sb s (s.dinode i) src off.toNat n.toNat tot s' d')
    (hfull : FullDisk sb s') : s'.mapped d' ((off.toNat + tot) / BSIZE) ≠ 0 := by
  intro hm
  generalize hd : s.dinode i = d at ht hst
  generalize hj : (off.toNat + tot) / BSIZE = j at hm
  have hcopied := hst.copied
  have hjq : j ≤ q := by
    rw [← hj, ht.block]
    exact Nat.div_le_div_right (by omega)
  have hm₀ : s.mapped d j = 0 := by
    by_contra h0
    exact h0 ((hst.slots _ h0).symm.trans hm)
  have hne : j ≠ q := fun he => ht.mapped (he ▸ hm₀)
  have haj : off.toNat / BSIZE ≤ j := hj ▸ Nat.div_le_div_right (Nat.le_add_right ..)
  -- each block that was free is now one of those that were missing before `j`
  have hsub : freeBlocks sb s ⊆ (missing s d (off.toNat / BSIZE) j).image (s'.mapped d') := by
    intro b hb
    obtain ⟨hsize, hfree⟩ := Finset.mem_filter.1 hb
    have hnot : s.bitmap b ≠ true := Bool.eq_false_iff.1 hfree
    obtain ⟨k, h0, hk, hb0⟩ := (hst.taken b (hfull b (Finset.mem_range.1 hsize))).resolve_left hnot
    have htouched : ∃ x, off.toNat ≤ x ∧ x ≤ off.toNat + tot ∧ Slot.Touched (x / BSIZE) k := by
      by_contra hno
      push Not at hno
      exact hb0 (hk.symm.trans ((hst.untouched k hno).trans h0))
    obtain ⟨x, h₁, h₂, hx | ⟨rfl, hx⟩⟩ := htouched
    · subst hx
      have hlt : x / BSIZE ≤ j := hj ▸ Nat.div_le_div_right h₂
      have hxj : x / BSIZE ≠ j := fun he => hb0 (hk.symm.trans (he ▸ hm))
      refine Finset.mem_image.2 ⟨x / BSIZE, Finset.mem_filter.2 ⟨Finset.mem_Ico.2 ⟨?_, ?_⟩, h0⟩, hk⟩
      · exact Nat.div_le_div_right h₁
      · omega
    · have hqi : ¬q < NDIRECT := by
        have : x / BSIZE ≤ j := hj ▸ Nat.div_le_div_right h₂
        omega
      refine (ht.mapped ?_).elim
      have hind : Disk.indirect d = 0 := h0
      rw [Disk.mapped, Slot.ofIndex, dif_neg hqi, Disk.slot, if_pos hind]
  have hcard := (Finset.card_le_card hsub).trans Finset.card_image_le
  have hlt : (missing s d (off.toNat / BSIZE) j).card < (missing s d (off.toNat / BSIZE) q).card := by
    refine Finset.card_lt_card ((Finset.ssubset_iff_of_subset ?_).2 ⟨j, ?_, ?_⟩)
    · refine Finset.filter_subset_filter _ fun x hx => ?_
      obtain ⟨h₁, h₂⟩ := Finset.mem_Ico.1 hx
      exact Finset.mem_Ico.2 ⟨h₁, by omega⟩
    · exact Finset.mem_filter.2 ⟨Finset.mem_Ico.2 ⟨haj, by omega⟩, hm₀⟩
    · exact fun hx => absurd (Finset.mem_Ico.1 (Finset.mem_filter.1 hx).1).2 (lt_irrefl j)
  have := ht.reached
  omega

/-- The property of a whole run of `writei` to the file `i`: if it returns, it has touched only what
it reports; and it releases no buffer that it has changed and not logged. -/
def TouchesOnly (sb : Superblock) (s : Disk) (src : List UInt8) (i : ℕ) (off n : UInt32) : Prop :=
  Ends (writei sb src i (s.dinode i) off n) (Reported sb s i off) s ∧
    NoLoss sb (writei sb src i (s.dinode i) off n) s

theorem touchesOnly_of_not_torn (h : Consistent sb s) (hout : 1 ≤ s.outstanding) {off n : UInt32}
    (hoff : off.toNat ≤ (s.dinode i).size.toNat)
    (hgood : ∀ q, ¬Torn sb s (s.dinode i) src off n q) : TouchesOnly sb s src i off n := by
  have hobs := obs_writei h hout hgood
  refine ⟨((ends_writei h hout src i off n).and hobs.2).mono ?_ fun _ he => he.1, hobs.1⟩
  rintro ⟨r, d'⟩ s' ⟨hw, hkept⟩
  rcases hw with ⟨-, he, rfl⟩ | ⟨hfits, hu, tot, hr, hst⟩
  · obtain ⟨rfl, rfl⟩ := Prod.mk.inj he
    exact ⟨fun k hk _ => ⟨hk, rfl⟩, by omega, hkept.dirty⟩
  · have hdinode : s'.dinode i = d' := by
      rw [hu.dinode]
      exact Function.update_self ..
    have hsize := hst.size
    dsimp only at hr
    subst hr
    have hmax : max (tot : ℤ) 0 = tot := max_eq_left (Int.natCast_nonneg tot)
    refine ⟨fun k hk hout => ?_, ?_, hkept.dirty⟩
    · rw [hdinode] at hk ⊢
      dsimp only at hout
      rw [hmax] at hout
      have hk' : k < (s.dinode i).size.toNat := by
        rw [hsize] at hk
        rcases lt_max_iff.1 hk with hlt | hlt <;> omega
      exact ⟨hk', hst.bytes_eq h hfits hgood hk' (by omega)⟩
    · dsimp only
      rw [hdinode, hmax, hsize]
      omega

/-- A torn block is a change that is not reported. -/
theorem not_touchesOnly_of_torn (h : Consistent sb s) (hout : 1 ≤ s.outstanding)
    (hi : sb.IBLOCK i < sb.dataStart) {off n : UInt32}
    (hroom : s.logged.length + (2 * rounds off.toNat n.toNat + 3) < LOGBLOCKS) {q : ℕ}
    (ht : Torn sb s (s.dinode i) src off n q) : ¬TouchesOnly sb s src i off n := by
  rintro ⟨hrep, -⟩
  have hpays : Pays (2 * rounds off.toNat n.toNat + 3) (writei sb src i (s.dinode i) off n)
      (fun _ _ P' => P'.card ≤ (∅ : Finset ℕ).card + 2 * rounds off.toNat n.toNat + 3) s ∅ :=
    pays_writei src i (by rw [Finset.card_empty, Nat.zero_add])
  have hends := (ends_writei h hout src i off n).noStop hpays
    (fun b hb => (Finset.notMem_empty b hb).elim) (Nat.zero_le _)
    (by rwa [Finset.card_empty, Nat.sub_zero])
  obtain ⟨⟨r, d'⟩, s', hrun, hw⟩ := hends.returns
  have hrep' := hrep.run_ok hrun
  have hlogs := (logs_writei h hout hi ht).run_ok hrun
  obtain ⟨-, hu, tot, hr, hst⟩ := hw.resolve_left fun hf => hf.1 ht.fits
  have hdinode : s'.dinode i = d' := by
    rw [hu.dinode]
    exact Function.update_self ..
  have hshort := ht.short
  have hcopied := hst.copied
  have hsize := hst.size
  obtain ⟨k, h₁, h₂, h₃, hne, hk⟩ := ht.changed
  have hq := ht.block
  cases hst.ending with
  | done hn _ => omega
  | noBlock _ hfull hm _ => exact ht.mapped_of_full hst hfull hm
  | badCopy hlt hshort' _ hpart _ =>
    have hchunk := chunk_le (off.toNat + tot) n.toNat tot
    have hqtot : (off.toNat + tot) / BSIZE = q := by
      have hsum : off.toNat + src.length < off.toNat + tot +
          chunk (off.toNat + tot) n.toNat tot := by omega
      rw [hq]
      exact ((div_of_chunk (by omega : off.toNat + tot ≤ off.toNat + src.length) hsum).1).symm
    -- the byte that changes is not one of those that are reported
    have hle : off.toNat + tot ≤ k := by
      rcases hst.boundary with h0 | hn | hmod
      · omega
      · omega
      · have hdm := Nat.div_add_mod (off.toNat + tot) BSIZE
        rw [hqtot, hmod, Nat.mul_comm] at hdm
        omega
    have hbyte := hpart k hle (by omega)
    have hsub : tot + (k - (off.toNat + tot)) = k - off.toNat := by omega
    rw [hsub] at hbyte
    have hchanged : s'.byte d' k ≠ s.byte (s.dinode i) k := fun he => hne (hbyte.symm.trans he)
    rcases hk with hk | hk
    · refine hchanged ((hdinode ▸ hrep'.bytes k ?_ (Or.inr ?_)).2)
      · rw [hdinode, hsize]
        exact hk.trans_le (le_max_left _ _)
      · dsimp only at hr ⊢
        omega
    · -- a later eviction loses it
      have hkq : k / BSIZE = q := by
        have hlt : k < off.toNat + tot + chunk (off.toNat + tot) n.toNat tot := by omega
        rw [← hqtot]
        exact (div_of_chunk hle hlt).1
      have hslot : s'.mapped d' q = s.mapped (s.dinode i) q := hst.slots _ ht.mapped
      refine (hlogs.upper _ (hrep'.logged _ (Or.inl fun he => hchanged ?_))).elim hk (· rfl)
      rw [Disk.byte, Disk.byte, hkq, hslot, if_neg ht.mapped, if_neg ht.mapped, he]

/-- Past the end of the file `writei` refuses, and leaves everything as it is. -/
theorem ends_writei_past {off n : UInt32} (hoff : (s.dinode i).size.toNat < off.toNat) :
    Ends (writei sb src i (s.dinode i) off n) (fun r s' => r = (-1, s.dinode i) ∧ s' = s) s
      NoStop := by
  rw [writei, if_pos (Or.inl (show (s.dinode i).size < off from hoff))]
  exact ⟨rfl, rfl⟩

/-- **writei touches only what it reports** if it starts inside the file and its copy does not tear a
block of the file; and, as long as the transaction does not get too big, only then. -/
theorem writei_reported_iff (sb : Superblock) (s : Disk) (h : Consistent sb s)
    (hout : 1 ≤ s.outstanding) (src : List UInt8) (i : ℕ) (hi : sb.IBLOCK i < sb.dataStart)
    (off n : UInt32) :
    (off.toNat ≤ (s.dinode i).size.toNat ∧ (∀ q, ¬Torn sb s (s.dinode i) src off n q) →
      TouchesOnly sb s src i off n) ∧
    (s.logged.length + (2 * rounds off.toNat n.toNat + 3) < LOGBLOCKS →
      TouchesOnly sb s src i off n →
      off.toNat ≤ (s.dinode i).size.toNat ∧ ∀ q, ¬Torn sb s (s.dinode i) src off n q) := by
  refine ⟨fun hgood => touchesOnly_of_not_torn h hout hgood.1 hgood.2, fun hroom ht =>
    ⟨?_, fun q hq => not_touchesOnly_of_torn h hout hi hroom hq ht⟩⟩
  by_contra hoff
  obtain ⟨⟨r, d'⟩, s', hrun, hr, rfl⟩ := (ends_writei_past (Nat.lt_of_not_le hoff)).returns
  obtain ⟨rfl, rfl⟩ := Prod.mk.inj hr
  have hsize := (ht.1.run_ok hrun).size
  dsimp only at hsize
  omega

/-- A write of two bytes of which the second cannot be copied: it returns 0, the file has changed. -/
theorem torn_smallDisk : Torn newSuperblock smallDisk (smallDisk.dinode 1) [7] 0 2 0 where
  fits := by decide
  short := by decide
  block := by decide
  mapped := by decide
  reached := by
    have hnone : missing smallDisk (smallDisk.dinode 1) 0 0 = ∅ := by
      rw [missing, Finset.Ico_self, Finset.filter_empty]
    exact hnone ▸ Nat.zero_le _
  changed := ⟨0, by decide, by decide, by decide, by decide, Or.inl (by decide)⟩

theorem smallDisk_not_reported : Consistent newSuperblock smallDisk ∧
    ¬TouchesOnly newSuperblock smallDisk [7] 1 0 2 :=
  ⟨consistent_smallDisk, not_touchesOnly_of_torn consistent_smallDisk le_rfl (by decide) (by decide)
    torn_smallDisk⟩

theorem newDisk_writes_reported : TouchesOnly newSuperblock newDisk [1, 2, 3] 1 0 3 :=
  (writei_reported_iff newSuperblock newDisk consistent_newDisk le_rfl [1, 2, 3] 1 (by decide)
    0 3).1 ⟨Nat.zero_le _, fun _ ht =>
      ht.mapped (slot_of_addrs_eq_zero (fun _ => rfl) _)⟩

end Xv6.Fs
