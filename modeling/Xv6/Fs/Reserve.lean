import Xv6.Foundations.Budget
import Xv6.Fs.Writei

/-!
# What a write needs of the log

A transaction reserves `MAXOPBLOCKS` blocks of the log. Here the blocks that `writei` passes to
`log_write` are counted, each once, whatever is on the disk: two for each block that may have to be
allocated (the block and its bitmap block), one for a block that is there, up to two for the
indirect block, and one for the inode. `filewrite` asks for so little at a time that this is never
more than the reservation.
-/

namespace Xv6.Fs

open Inode (Dinode NDIRECT)

/-- The most blocks that an operation writes. -/
def MAXOPBLOCKS : ℕ := 10

/-- The block that a call passes to `log_write`. -/
def logLabel : BlockCall → Option ℕ
  | .logWrite b => some b
  | _ => none

/-- The blocks that a run passes to `log_write`. -/
def logWrites {α : Type} (c : M α) (s : Disk) : List ℕ := c.labels disk logLabel s

/-- The calls with a log that is never full. -/
def unlimited : Handler BlockSig Disk Stop
  | .logWrite b, s => if s.outstanding < 1 then .error (.panic .outside) else .ok ((), s.log b)
  | o, s => disk o s

/-- Neither is the budget used up, nor is a transaction too big. -/
def Affordable (e : Option Stop) : Prop := e ≠ none ∧ e ≠ some (.panic .tooBig)

/-- A run of `c` that has passed the blocks `P` to `log_write` before stays within `K` of them. -/
abbrev Pays {α : Type} (K : ℕ) (c : M α) (Q : α → Disk → Finset ℕ → Prop) (s : Disk)
    (P : Finset ℕ) : Prop :=
  c.Meets (Program.within unlimited logLabel K) (fun a t => Q a t.1 t.2) Affordable (s, P)

variable {α : Type} {sb : Superblock} {K : ℕ} {s s' : Disk} {d d' : Dinode} {P P' : Finset ℕ} {b : ℕ}

theorem disk_logWrite (hroom : s.logged.length < LOGBLOCKS) :
    disk (.logWrite b) s = unlimited (.logWrite b) s :=
  if_neg (Nat.not_le.2 hroom)

theorem disk_eq_unlimited {o : BlockCall} (hl : logLabel o = none) (s : Disk) :
    disk o s = unlimited o s := by
  cases o with
  | logWrite b => cases hl
  | _ => rfl

theorem unlimited_of_disk (o : BlockCall) (s : Disk) (r : BlockSig.Result o × Disk)
    (h : disk o s = .ok r) : unlimited o s = .ok r := by
  cases hl : logLabel o with
  | none => rw [← disk_eq_unlimited hl, h]
  | some b =>
    cases o with
    | logWrite b' =>
      by_cases hroom : s.logged.length < LOGBLOCKS
      · rw [← disk_logWrite hroom, h]
      · rw [disk, if_pos (Nat.le_of_not_lt hroom)] at h
        cases h
    | _ => cases hl

theorem logged_of_call {o : BlockCall} {p : BlockSig.Result o × Disk} (hl : logLabel o = none)
    (h : unlimited o s = .ok p) : p.2.logged = s.logged := by
  cases o with
  | logWrite b => cases hl
  | bread b =>
    simp only [unlimited, disk] at h
    split_ifs at h
    cases h
    rfl
  | brelse b =>
    simp only [unlimited, disk] at h
    split_ifs at h
    cases h
    rfl
  | panic p => cases h
  | _ =>
    cases h
    rfl

/-! ## Rules -/

theorem pays_bind {β : Type} {c : M α} {f : α → M β} {Q : β → Disk → Finset ℕ → Prop} :
    Pays K (c >>= f) Q s P ↔ Pays K c (fun a s' P' => Pays K (f a) Q s' P') s P :=
  Program.meets_bind

theorem Pays.post {c : M α} {Q Q' : α → Disk → Finset ℕ → Prop} (hc : Pays K c Q s P)
    (hQ : ∀ a s' P', Q a s' P' → Q' a s' P') : Pays K c Q' s P :=
  Program.Meets.post hc fun a t => hQ a t.1 t.2

theorem affordable_of_ne {e : Stop} (h : e ≠ .panic .tooBig) : Affordable (some e) :=
  ⟨nofun, fun he => h (Option.some.inj he)⟩

theorem pays_bread {Q : Unit → Disk → Finset ℕ → Prop} (hQ : Q () (s.lock b) P) :
    Pays K (bread b) Q s P := by
  refine Program.meets_within_of_none rfl ?_
  by_cases hb : b ∈ s.held
  · exact Program.meets_op_error (if_pos hb) (affordable_of_ne nofun)
  · exact Program.meets_op (if_neg hb) hQ

theorem pays_brelse {Q : Unit → Disk → Finset ℕ → Prop}
    (hQ : Q () { s with held := s.held.erase b } P) : Pays K (brelse b) Q s P := by
  refine Program.meets_within_of_none rfl ?_
  by_cases hb : b ∈ s.held
  · exact Program.meets_op (if_pos hb) hQ
  · exact Program.meets_op_error (if_neg hb) (affordable_of_ne nofun)

theorem pays_logWrite {Q : Unit → Disk → Finset ℕ → Prop} (hK : (insert b P).card ≤ K)
    (hQ : Q () (s.log b) (insert b P)) : Pays K (logWrite b) Q s P := by
  refine Program.meets_within_of_some rfl hK ?_
  by_cases hout : s.outstanding < 1
  · exact Program.meets_op_error (if_pos hout) (affordable_of_ne nofun)
  · exact Program.meets_op (if_neg hout) hQ

theorem pays_bit {Q : Bool → Disk → Finset ℕ → Prop} :
    Pays K (bit b) Q s P ↔ Q (s.bitmap b) s P := Iff.rfl

theorem pays_setBit {v : Bool} {Q : Unit → Disk → Finset ℕ → Prop} : Pays K (setBit b v) Q s P ↔
    Q () { s with bitmap := Function.update s.bitmap b v } P := Iff.rfl

theorem pays_data {Q : Block → Disk → Finset ℕ → Prop} :
    Pays K (data b) Q s P ↔ Q (s.data b) s P := Iff.rfl

theorem pays_modify {f : Block → Block} {Q : Unit → Disk → Finset ℕ → Prop} :
    Pays K (modify b f) Q s P ↔
      Q () { s with data := Function.update s.data b (f (s.data b)) } P := Iff.rfl

theorem pays_dinode {i : ℕ} {Q : Dinode → Disk → Finset ℕ → Prop} :
    Pays K (dinode i) Q s P ↔ Q (s.dinode i) s P := Iff.rfl

theorem pays_setDinode {i : ℕ} {Q : Unit → Disk → Finset ℕ → Prop} :
    Pays K (setDinode i d) Q s P ↔
      Q () { s with dinode := Function.update s.dinode i d } P := Iff.rfl

theorem pays_panic {p : Panic} (hp : p ≠ .tooBig) {Q : α → Disk → Finset ℕ → Prop} :
    Pays K (panic p : M α) Q s P :=
  affordable_of_ne fun he => hp (Stop.panic.inj he)

/-- A run within the budget passes at most `K` blocks to `log_write`. -/
theorem Pays.card_logWrites {c : M α} {Q : α → Disk → Finset ℕ → Prop} (hc : Pays K c Q s ∅) :
    (logWrites c s).toFinset.card ≤ K := by
  have hcard := Program.card_labels_le (fun h => h.1 rfl) (Nat.zero_le K) hc
  rw [Finset.empty_union] at hcard
  refine le_trans (Finset.card_le_card fun b hb => ?_) hcard
  rw [List.mem_toFinset] at hb ⊢
  exact Program.labels_subset unlimited_of_disk logLabel c s hb

/-- A run that nothing but a full log can stop, if there is room for the blocks that it may still
pass to `log_write`. -/
theorem Ends.noStop {c : M α} {Q : α → Disk → Prop} {Q' : α → Disk → Finset ℕ → Prop}
    (hc : Ends c Q s) (hb : Pays K c Q' s P) (hP : ∀ b ∈ P, b ∈ s.logged)
    (hcard : P.card ≤ K) (hroom : s.logged.length + (K - P.card) < LOGBLOCKS) :
    Ends c Q s NoStop := by
  induction c generalizing s P with
  | ret a => exact hc
  | call o k ih =>
    unfold Ends Program.Meets at hc ih ⊢
    unfold Pays Program.Meets at hb ih
    simp only [Program.run, Program.within] at hc hb ⊢
    cases hl : logLabel o with
    | none =>
      rw [disk_eq_unlimited hl] at hc ⊢
      cases ho : unlimited o s with
      | error e =>
        simp only [ho] at hc hb
        exact (hb.2 (congrArg some hc)).elim
      | ok p =>
        simp only [ho, hl] at hc hb ⊢
        have hlog := logged_of_call hl ho
        exact ih p.1 hc hb (hlog.symm ▸ hP) hcard (hlog.symm ▸ hroom)
    | some b =>
      cases o with
      | logWrite b' =>
        obtain rfl := Option.some.inj hl
        rw [disk_logWrite (by omega)] at hc ⊢
        by_cases hout : s.outstanding < 1
        · simp only [unlimited, if_pos hout] at hc
          cases hc
        · simp only [unlimited, if_neg hout, logLabel] at hc hb ⊢
          by_cases hK : (insert b' P).card ≤ K
          · rw [if_pos hK] at hb
            refine ih () hc hb (fun x hx => ?_) hK ?_
            · rcases Finset.mem_insert.1 hx with rfl | hx
              · exact mem_logged_log.2 (Or.inr rfl)
              · exact mem_logged_log.2 (Or.inl (hP x hx))
            · by_cases hbl : b' ∈ s.logged
              · have hle := Finset.card_le_card (Finset.subset_insert b' P)
                rw [logged_log_of_mem hbl]
                omega
              · have hcard' := Finset.card_insert_of_notMem fun hb' => hbl (hP b' hb')
                rw [length_logged_log hbl]
                omega
          · rw [if_neg hK] at hb
            exact (hb.1 rfl).elim
      | _ => cases hl

/-! ## balloc -/

theorem pays_bzero (hK : (insert b P).card ≤ K) :
    Pays K (bzero b) (fun _ _ P' => P' = insert b P) s P := by
  rw [bzero, pays_bind]
  refine pays_bread ?_
  rw [pays_bind, pays_modify, pays_bind]
  refine pays_logWrite hK ?_
  exact pays_brelse rfl

theorem card_insert_insert (a b : ℕ) (P : Finset ℕ) :
    (insert a (insert b P)).card ≤ P.card + 2 := by
  have h₁ := Finset.card_insert_le a (insert b P)
  have h₂ := Finset.card_insert_le b P
  omega

/-- A block that is allocated takes two blocks of the log. -/
structure Allocated (P : Finset ℕ) (b : ℕ) (P' : Finset ℕ) : Prop where
  subset : P ⊆ P'
  card : P'.card ≤ P.card + 2
  mem : b ∈ P'

theorem pays_ballocBits (hK : P.card + 2 ≤ K) (b : ℕ) {bis : List ℕ}
    (hbis : ∀ bi ∈ bis, b + bi < sb.size.toNat) :
    Pays K (ballocBits sb b bis) (fun r _ P' => match r with
      | some addr => addr < sb.size.toNat ∧ Allocated P addr P'
      | none => P' = P) s P := by
  induction bis with
  | nil => exact rfl
  | cons bi rest ih =>
    rw [ballocBits, pays_bind, pays_bit]
    by_cases hfree : s.bitmap (b + bi) = false
    · have hcard := card_insert_insert (b + bi) (sb.BBLOCK b) P
      have hle := Finset.card_le_card (Finset.subset_insert (b + bi) (insert (sb.BBLOCK b) P))
      rw [if_pos hfree, pays_bind, pays_setBit, pays_bind]
      refine pays_logWrite (by omega) ?_
      rw [pays_bind]
      refine pays_brelse ?_
      rw [pays_bind]
      refine (pays_bzero (by omega)).post ?_
      rintro _ _ _ rfl
      refine ⟨hbis bi List.mem_cons_self, ?_, hcard, Finset.mem_insert_self ..⟩
      exact (Finset.subset_insert ..).trans (Finset.subset_insert ..)
    · rw [if_neg hfree]
      exact ih fun bi' hm => hbis bi' (List.mem_cons_of_mem bi hm)

theorem pays_balloc (hK : P.card + 2 ≤ K) : Pays K (balloc sb) (fun b _ P' =>
    (b = 0 ∧ P' = P) ∨ b < sb.size.toNat ∧ Allocated P b P') s P := by
  rw [balloc]
  generalize (List.range ((sb.size.toNat + BPB - 1) / BPB)).map (· * BPB) = bs
  induction bs generalizing s with
  | nil => exact Or.inl ⟨rfl, rfl⟩
  | cons b rest ih =>
    rw [ballocBlocks, pays_bind]
    refine pays_bread ?_
    rw [pays_bind]
    refine (pays_ballocBits hK b fun bi hbi => ?_).post fun r s' P' hr => ?_
    · have := List.mem_range.1 hbi
      omega
    · cases r with
      | some addr => exact Or.inr hr
      | none =>
        have hP : P' = P := hr
        subst hP
        change Pays K (brelse (sb.BBLOCK b) >>= fun _ => ballocBlocks sb rest) _ _ _
        rw [pays_bind]
        exact pays_brelse ih

/-! ## bmap -/

/-- The blocks of the log that the indirect block of a file may still take. -/
def indirectCost (d : Dinode) (P : Finset ℕ) : ℕ :=
  if Disk.indirect d = 0 then 2 else if Disk.indirect d ∈ P then 0 else 1

theorem indirectCost_le (d : Dinode) (P : Finset ℕ) : indirectCost d P ≤ 2 := by
  rw [indirectCost]
  split_ifs <;> omega

theorem indirectCost_mono (hind : Disk.indirect d' = Disk.indirect d) (hP : P ⊆ P') :
    indirectCost d' P' ≤ indirectCost d P := by
  rw [indirectCost, indirectCost, hind]
  by_cases h₁ : Disk.indirect d = 0
  · rw [if_pos h₁, if_pos h₁]
  · rw [if_neg h₁, if_neg h₁]
    by_cases h₂ : Disk.indirect d ∈ P
    · rw [if_pos h₂, if_pos (hP h₂)]
    · rw [if_neg h₂]
      split_ifs <;> omega

/-- What `bmap` takes of the log: nothing, or two blocks of which the block that it returns is
one. -/
structure Mapped (d : Dinode) (P : Finset ℕ) (addr : ℕ) (d' : Dinode) (P' : Finset ℕ) : Prop where
  subset : P ⊆ P'
  card : P'.card + indirectCost d' P' ≤ P.card + indirectCost d P + 2
  found : addr ≠ 0 → addr ∈ P' ∨ P'.card + indirectCost d' P' ≤ P.card + indirectCost d P

theorem Mapped.refl (d : Dinode) (P : Finset ℕ) (addr : ℕ) : Mapped d P addr d P where
  subset := subset_rfl
  card := Nat.le_add_right ..
  found _ := Or.inr le_rfl

/-- A block has been taken that does not count as one. -/
theorem Mapped.zero (hall : Allocated P b P') : Mapped d P 0 d P' where
  subset := hall.subset
  card := by
    have hmono : indirectCost d P' ≤ indirectCost d P := indirectCost_mono rfl hall.subset
    have hcard := hall.card
    omega
  found hne := (hne rfl).elim

theorem pays_bmapIndirect {addr : ℕ} (bn : ℕ) (haddr : Disk.indirect d = addr) (h0 : addr ≠ 0)
    (hK : P.card + indirectCost d P + 2 ≤ K) :
    Pays K (bmapIndirect sb addr bn) (fun r _ P' => Mapped d P r d P') s P := by
  rw [bmapIndirect, pays_bind]
  refine pays_bread ?_
  rw [pays_bind, pays_data]
  split_ifs with hw
  · rw [pays_bind]
    refine (pays_balloc (by omega)).post fun b s' P' hb => ?_
    split_ifs with hb0
    · obtain ⟨-, hall⟩ := hb.resolve_left fun h => hb0 h.1
      have hcard := hall.card
      have hcost : indirectCost d (insert addr P') = 0 := by
        rw [indirectCost, haddr, if_neg h0, if_pos (Finset.mem_insert_self ..)]
      have hinsert : (insert addr P').card ≤ P.card + indirectCost d P + 2 := by
        rw [indirectCost, haddr, if_neg h0]
        split_ifs with hm
        · rw [Finset.insert_eq_of_mem (hall.subset hm)]
          omega
        · have := Finset.card_insert_le addr P'
          omega
      rw [pays_bind, pays_modify, pays_bind]
      refine pays_logWrite (hinsert.trans hK) ?_
      rw [pays_bind]
      refine pays_brelse ⟨hall.subset.trans (Finset.subset_insert ..), ?_, fun _ =>
        Or.inl (Finset.mem_insert_of_mem hall.mem)⟩
      rw [hcost]
      exact hinsert
    · rw [pays_bind]
      refine pays_brelse ?_
      rcases hb with ⟨-, rfl⟩ | ⟨-, hall⟩
      · exact Mapped.refl d P' 0
      · exact Mapped.zero hall
  · rw [pays_bind]
    exact pays_brelse (Mapped.refl d P _)

theorem pays_bmap (bn : ℕ) (hK : P.card + indirectCost d P + 2 ≤ K) :
    Pays K (bmap sb d bn) (fun r _ P' => Mapped d P r.1 r.2 P') s P := by
  rw [bmap]
  by_cases hnd : bn < NDIRECT
  · rw [dif_pos hnd]
    dsimp only
    by_cases hz : (d.addrs ⟨bn, Nat.lt_succ_of_lt hnd⟩).toNat = 0
    · rw [if_pos hz, pays_bind]
      refine (pays_balloc (by omega)).post fun b s' P' hb => ?_
      by_cases hb0 : b = 0
      · rw [if_pos hb0]
        rcases hb with ⟨-, rfl⟩ | ⟨-, hall⟩
        · exact Mapped.refl d P' 0
        · exact Mapped.zero hall
      · obtain ⟨-, hall⟩ := hb.resolve_left fun h => hb0 h.1
        have hmono : indirectCost (setAddr d ⟨bn, Nat.lt_succ_of_lt hnd⟩ b) P' ≤
            indirectCost d P := indirectCost_mono (indirect_setAddr d ⟨bn, hnd⟩) hall.subset
        have hcard := hall.card
        rw [if_neg hb0]
        refine ⟨hall.subset, ?_, fun _ => Or.inl hall.mem⟩
        dsimp only
        omega
    · rw [if_neg hz]
      exact Mapped.refl d P _
  · rw [dif_neg hnd]
    by_cases hlt : bn - NDIRECT < NINDIRECT
    · rw [if_pos hlt]
      by_cases hind : (d.addrs (Fin.last NDIRECT)).toNat = 0
      · have hcost : indirectCost d P = 2 := if_pos hind
        rw [if_pos hind, pays_bind]
        refine (pays_balloc (by omega)).post fun b s' P₁ hb => ?_
        by_cases hb0 : b = 0
        · rw [if_pos hb0]
          rcases hb with ⟨-, rfl⟩ | ⟨-, hall⟩
          · exact Mapped.refl d P₁ 0
          · exact Mapped.zero hall
        · obtain ⟨hsize, hall⟩ := hb.resolve_left fun h => hb0 h.1
          have haddr : Disk.indirect (setAddr d (Fin.last NDIRECT) b) = b :=
            toNat_setAddr d _ (hsize.trans sb.size.toNat_lt)
          have hcost₁ : indirectCost (setAddr d (Fin.last NDIRECT) b) P₁ = 0 := by
            rw [indirectCost, haddr, if_neg hb0, if_pos hall.mem]
          have hcard := hall.card
          rw [if_neg hb0, pays_bind]
          refine (pays_bmapIndirect (bn - NDIRECT) haddr hb0 (by omega)).post
            fun r s'' P' hr => ?_
          have hcard' := hr.card
          refine ⟨hall.subset.trans hr.subset, ?_, fun hne => (hr.found hne).imp_right fun h => ?_⟩
          · dsimp only
            omega
          · dsimp only
            omega
      · rw [if_neg hind, pays_bind]
        exact pays_bmapIndirect (bn - NDIRECT) rfl hind hK
    · rw [if_neg hlt]
      exact pays_panic (show Panic.bmapRange ≠ .tooBig by simp)

/-- A block that is there takes nothing. -/
theorem pays_bmap_found {bn : ℕ} (hbn : bn < MAXFILE) (h0 : s.mapped d bn ≠ 0) :
    Pays K (bmap sb d bn) (fun r _ P' => r.2 = d ∧ P' = P) s P := by
  rw [bmap]
  by_cases hnd : bn < NDIRECT
  · have hmapped : s.mapped d bn = (d.addrs ⟨bn, Nat.lt_succ_of_lt hnd⟩).toNat := by
      rw [Disk.mapped, Slot.ofIndex, dif_pos hnd]
      rfl
    rw [dif_pos hnd]
    dsimp only
    rw [← hmapped, if_neg h0]
    exact ⟨rfl, rfl⟩
  · have hlt : bn - NDIRECT < NINDIRECT := by
      rw [MAXFILE] at hbn
      omega
    have hind : ¬Disk.indirect d = 0 := by
      intro hz
      rw [Disk.mapped, Slot.ofIndex, dif_neg hnd, Disk.slot, if_pos hz] at h0
      exact h0 rfl
    have hmapped : ((s.data (Disk.indirect d)).word (bn - NDIRECT)).toNat ≠ 0 := by
      rw [Disk.mapped, Slot.ofIndex, dif_neg hnd, Disk.slot, if_neg hind, Fin.val_ofNat,
        Nat.mod_eq_of_lt hlt] at h0
      exact h0
    have hind' : ¬(d.addrs (Fin.last NDIRECT)).toNat = 0 := hind
    rw [dif_neg hnd, if_pos hlt, if_neg hind', bmapIndirect, pays_bind, pays_bind]
    refine pays_bread ?_
    rw [pays_bind, pays_data]
    have hdata : (s.lock (d.addrs (Fin.last NDIRECT)).toNat).data (d.addrs (Fin.last NDIRECT)).toNat
        = s.data (Disk.indirect d) := rfl
    rw [hdata, if_neg hmapped, pays_bind]
    exact pays_brelse ⟨rfl, rfl⟩

/-! ## writei -/

/-- The blocks of a file that `m` bytes from `off` on lie in. -/
def rounds (off m : ℕ) : ℕ := if m = 0 then 0 else (off + m - 1) / BSIZE - off / BSIZE + 1

theorem rounds_eq (off : ℕ) {n tot : ℕ} (h : tot < n) :
    rounds off (n - tot) = rounds (off + chunk off n tot) (n - (tot + chunk off n tot)) + 1 := by
  have hpos : 0 < BSIZE := by decide
  have hdiv := Nat.div_add_mod off BSIZE
  have hmod := Nat.mod_lt off hpos
  rw [rounds, rounds, chunk]
  generalize hq : off / BSIZE = q at *
  generalize off % BSIZE = r at *
  by_cases hle : n - tot ≤ BSIZE - r
  · have hlast : (off + (n - tot) - 1) / BSIZE = q := by
      refine Nat.div_eq_of_lt_le ?_ ?_
      · rw [Nat.mul_comm]
        omega
      · rw [Nat.succ_mul, Nat.mul_comm]
        omega
    rw [Nat.min_eq_left hle, if_neg (by omega), if_pos (by omega), hlast, Nat.sub_self]
  · have hnext : (off + (BSIZE - r)) / BSIZE = q + 1 := by
      have : off + (BSIZE - r) = BSIZE * (q + 1) := by
        rw [Nat.mul_succ]
        omega
      rw [this, Nat.mul_div_cancel_left _ hpos]
    have hlast : q + 1 ≤ (off + (n - tot) - 1) / BSIZE := by
      rw [Nat.le_div_iff_mul_le hpos, Nat.succ_mul, Nat.mul_comm]
      omega
    have hsum : off + (BSIZE - r) + (n - (tot + (BSIZE - r))) = off + (n - tot) := by omega
    rw [Nat.min_eq_right (Nat.le_of_not_le hle), if_neg (by omega), if_neg (by omega), hnext, hsum]
    omega

/-- A write of at most three blocks' bytes lies in four blocks, or in three if it is aligned. -/
theorem rounds_le (off : ℕ) {m : ℕ} (hm : m ≤ 3 * BSIZE) :
    rounds off m ≤ 3 ∨ rounds off m = 4 ∧ off % BSIZE ≠ 0 := by
  have hdiv := Nat.div_add_mod off BSIZE
  have hmod := Nat.mod_lt off (show 0 < BSIZE by decide)
  rw [rounds]
  split_ifs with h0
  · exact Or.inl (Nat.zero_le 3)
  · by_cases hlt : off % BSIZE + m ≤ 3 * BSIZE
    · have : (off + m - 1) / BSIZE < off / BSIZE + 3 := by
        refine Nat.div_lt_of_lt_mul ?_
        rw [Nat.mul_add]
        omega
      omega
    · have : (off + m - 1) / BSIZE < off / BSIZE + 4 := by
        refine Nat.div_lt_of_lt_mul ?_
        rw [Nat.mul_add]
        omega
      omega

variable {src : List UInt8} {n off tot : ℕ}

/-- A round of the loop after `bmap`: the block takes one block of the log, if it has not been
passed to `log_write` already. -/
theorem pays_round {addr k : ℕ} {Q : ℕ × ℕ × Dinode → Disk → Finset ℕ → Prop} (h : tot < n)
    (hP : P.card + indirectCost d P ≤ k) (hk : k ≤ K)
    (hfound : addr ≠ 0 → addr ∈ P ∨ P.card + indirectCost d P + 1 ≤ k)
    (hstop : ∀ s' P', P'.card + indirectCost d P' ≤ k → Q (tot, off, d) s' P')
    (hloop : ∀ s' P', P'.card + indirectCost d P' ≤ k →
      Pays K (writeLoop sb src n (off + chunk off n tot) (tot + chunk off n tot) d) Q s' P') :
    Pays K (if addr = 0 then return (tot, off, d)
      else do
        bread addr
        let m := chunk off n tot
        modify addr (Block.store (off % BSIZE) ((src.drop tot).take m))
        if src.length < tot + m then
          brelse addr
          return (tot, off, d)
        else
          logWrite addr
          brelse addr
          have := sub_chunk_lt off h
          writeLoop sb src n (off + m) (tot + m) d) Q s P := by
  by_cases h0 : addr = 0
  · rw [if_pos h0]
    exact hstop s P hP
  · rw [if_neg h0, pays_bind]
    refine pays_bread ?_
    rw [pays_bind, pays_modify]
    by_cases hshort : src.length < tot + chunk off n tot
    · rw [if_pos hshort, pays_bind]
      exact pays_brelse (hstop _ P hP)
    · have hinsert : (insert addr P).card + indirectCost d (insert addr P) ≤ k := by
        rcases hfound h0 with hm | hle
        · rwa [Finset.insert_eq_of_mem hm]
        · have hcard := Finset.card_insert_le addr P
          have hmono : indirectCost d (insert addr P) ≤ indirectCost d P :=
            indirectCost_mono rfl (Finset.subset_insert ..)
          omega
      rw [if_neg hshort, pays_bind]
      refine pays_logWrite (by omega) ?_
      rw [pays_bind]
      exact pays_brelse (hloop _ _ hinsert)

/-- The loop of `writei` takes at most two blocks of the log a round, besides the indirect block. -/
theorem pays_writeLoop {k : ℕ}
    (hk : P.card + indirectCost d P + 2 * rounds off (n - tot) ≤ k) (hK : k ≤ K) :
    Pays K (writeLoop sb src n off tot d)
      (fun r _ P' => P'.card + indirectCost r.2.2 P' ≤ k) s P := by
  induction hm : n - tot using Nat.strong_induction_on generalizing s d off tot P with
  | _ m ih =>
    rw [writeLoop]
    by_cases hlt : tot < n
    · have hrounds := rounds_eq off hlt
      have hsub := sub_chunk_lt off hlt
      rw [dif_pos hlt, pays_bind]
      refine (pays_bmap (off / BSIZE) (by omega)).post fun r s' P' hr => ?_
      have hcard := hr.card
      refine pays_round (k := k - 2 * rounds (off + chunk off n tot) (n - (tot + chunk off n tot)))
        hlt (by omega) (by omega) (fun hne => (hr.found hne).imp_right fun hle => by omega)
        (fun s'' P'' hle => ?_) fun s'' P'' hle => ?_
      · dsimp only
        omega
      · exact ih _ (hm ▸ hsub) (by omega) rfl
    · rw [dif_neg hlt]
      exact (Nat.le_add_right _ _).trans hk

/-- If the first block is there, the first round takes only one. -/
theorem pays_writeLoop_found {k : ℕ} (hlt : tot < n) (hbn : off / BSIZE < MAXFILE)
    (h0 : s.mapped d (off / BSIZE) ≠ 0)
    (hk : P.card + indirectCost d P + 2 * rounds off (n - tot) ≤ k + 1) (hK : k ≤ K) :
    Pays K (writeLoop sb src n off tot d)
      (fun r _ P' => P'.card + indirectCost r.2.2 P' ≤ k) s P := by
  have hrounds := rounds_eq off hlt
  rw [writeLoop, dif_pos hlt, pays_bind]
  refine (pays_bmap_found hbn h0).post ?_
  rintro ⟨addr, d'⟩ s' P' ⟨hd, rfl⟩
  obtain rfl : d' = d := hd
  refine pays_round (k := k - 2 * rounds (off + chunk off n tot) (n - (tot + chunk off n tot)))
    hlt (by omega) (by omega) (fun _ => Or.inr (by omega)) (fun s'' P'' hle => ?_)
    fun s'' P'' hle => ?_
  · dsimp only
    omega
  · exact pays_writeLoop (by omega) hK

theorem pays_iupdate {inum : ℕ} (hK : P.card + 1 ≤ K) :
    Pays K (iupdate sb inum d) (fun _ _ P' => P'.card ≤ P.card + 1) s P := by
  have hcard := Finset.card_insert_le (sb.IBLOCK inum) P
  rw [iupdate, pays_bind]
  refine pays_bread ?_
  rw [pays_bind, pays_setDinode, pays_bind]
  refine pays_logWrite (by omega) ?_
  exact pays_brelse hcard

/-- `writei` takes what its loop takes, and one block for the inode. -/
theorem pays_writei_of_loop {inum k : ℕ} {off n : UInt32} (hk : k + 1 ≤ K) (hP : P.card ≤ k)
    (hloop : Fits d off n → Pays K (writeLoop sb src n.toNat off.toNat 0 d)
      (fun r _ P' => P'.card + indirectCost r.2.2 P' ≤ k) s P) :
    Pays K (writei sb src inum d off n) (fun _ _ P' => P'.card ≤ k + 1) s P := by
  rw [writei]
  by_cases h₁ : d.size < off ∨ off + n < off
  · rw [if_pos h₁]
    exact Nat.le_succ_of_le hP
  · rw [if_neg h₁]
    by_cases h₂ : MAXFILE * BSIZE < (off + n).toNat
    · rw [if_pos h₂]
      exact Nat.le_succ_of_le hP
    · rw [if_neg h₂, pays_bind]
      refine (hloop (fits_iff.2 ⟨h₁, h₂⟩)).post fun r s' P' hr => ?_
      rw [pays_bind]
      refine (pays_iupdate (by omega)).post fun _ _ P'' hle => ?_
      have hr' : P''.card ≤ k + 1 := by omega
      exact hr'

/-- **What `writei` takes of the log** on any disk. -/
theorem pays_writei {off n : UInt32} (src : List UInt8) (inum : ℕ)
    (hK : P.card + 2 * rounds off.toNat n.toNat + 3 ≤ K) :
    Pays K (writei sb src inum d off n)
      (fun _ _ P' => P'.card ≤ P.card + 2 * rounds off.toNat n.toNat + 3) s P := by
  have hcost := indirectCost_le d P
  refine pays_writei_of_loop (by omega) (by omega) fun _ => ?_
  exact pays_writeLoop (by rw [Nat.sub_zero]; omega) (by omega)

/-! ## filewrite -/

/-- The most bytes that `filewrite` asks for in one transaction. -/
def filewriteMax : ℕ := (MAXOPBLOCKS - 1 - 1 - 2) / 2 * BSIZE

/-- `n1`: what `filewrite` asks for when `i` of `n` bytes are written. -/
def filewriteChunk (n : ℤ) (i : ℕ) : UInt32 := .ofNat (min (n - i) filewriteMax).toNat

/-- What `filewrite` does between `begin_op` and `end_op` when `i` of `n` bytes are written; `ilock`
reads the inode if the copy `d` of it is not valid. -/
def filewriteSection (sb : Superblock) (src : List UInt8) (inum : ℕ) (valid : Bool) (d : Dinode)
    (off : UInt32) (n : ℤ) (i : ℕ) : M (ℤ × Dinode) := do
  let d ← if valid then pure d else iread sb inum
  writei sb (src.drop i) inum d off (filewriteChunk n i)

theorem filewriteChunk_le (n : ℤ) (i : ℕ) : (filewriteChunk n i).toNat ≤ filewriteMax := by
  have hle : (min (n - i) (filewriteMax : ℤ)).toNat ≤ filewriteMax := by omega
  rw [filewriteChunk, UInt32.toNat_ofNat']
  exact (Nat.mod_le _ _).trans hle

/-- A write of at most `filewriteMax` bytes to a file without holes. -/
theorem pays_filewrite {inum : ℕ} {off n : UInt32} (h : NoHoles s d)
    (hoff : off.toNat ≤ d.size.toNat) (hn : n.toNat ≤ filewriteMax) :
    Pays MAXOPBLOCKS (writei sb src inum d off n) (fun _ _ P' => P'.card ≤ MAXOPBLOCKS) s ∅ := by
  have hcost := indirectCost_le d ∅
  have hmax : filewriteMax = 3 * BSIZE := rfl
  have hten : MAXOPBLOCKS = 9 + 1 := rfl
  have hcard : (∅ : Finset ℕ).card = 0 := rfl
  refine pays_writei_of_loop (k := 9) (by omega) (by omega) fun hfits => ?_
  rcases rounds_le off.toNat (hn.trans hmax.le) with hr | ⟨hr, hmod⟩
  · exact pays_writeLoop (by rw [Nat.sub_zero]; omega) (by omega)
  · -- an unaligned write begins in a block below the size
    have hlt : off.toNat / BSIZE * BSIZE < off.toNat := by
      have := Nat.div_add_mod off.toNat BSIZE
      rw [Nat.mul_comm]
      omega
    have hn0 : 0 < n.toNat := by
      rw [rounds] at hr
      split_ifs at hr
      omega
    have hbn : off.toNat / BSIZE < MAXFILE := by
      have : off.toNat + n.toNat ≤ MAXFILE * BSIZE := hfits.2
      refine Nat.div_lt_of_lt_mul ?_
      rw [Nat.mul_comm]
      omega
    exact pays_writeLoop_found hn0 hbn (h.mapped _ (hlt.trans_le hoff))
      (by rw [Nat.sub_zero]; omega) (by omega)

/-- **A transaction of `filewrite` fits into its reservation**: whatever the bitmap and the other
files are, it passes at most `MAXOPBLOCKS` blocks to `log_write`. -/
theorem filewrite_fits (sb : Superblock) (s : Disk) (src : List UInt8) (inum : ℕ) (valid : Bool)
    (d : Dinode) (off : UInt32) (n : ℤ) (i : ℕ)
    (h : NoHoles s (if valid then d else s.dinode inum))
    (hoff : off.toNat ≤ (if valid then d else s.dinode inum).size.toNat) :
    (logWrites (filewriteSection sb src inum valid d off n i) s).toFinset.card ≤ MAXOPBLOCKS := by
  have hle := filewriteChunk_le n i
  refine Pays.card_logWrites (Q := fun _ _ P' => P'.card ≤ MAXOPBLOCKS) ?_
  rw [filewriteSection]
  cases valid with
  | true => exact pays_filewrite h hoff hle
  | false =>
    rw [if_neg Bool.false_ne_true, pays_bind, iread, pays_bind]
    refine pays_bread ?_
    rw [pays_bind, pays_dinode, pays_bind]
    refine pays_brelse ?_
    have hs : { s.lock (sb.IBLOCK inum) with
        held := (s.lock (sb.IBLOCK inum)).held.erase (sb.IBLOCK inum) } = s :=
      congrArg (fun l => { s with held := l }) (List.erase_cons_head _ s.held)
    rw [hs]
    exact pays_filewrite h hoff hle

/-- The first write to a new file takes three blocks: the bitmap, each of them, and the inode are
logged. -/
theorem newDisk_write_fits :
    let logged := logWrites (filewriteSection newSuperblock (List.replicate 3000 7) 1 false
      (newDisk.dinode 1) 0 3000 0) newDisk
    logged = [46, 47, 47, 46, 48, 48, 46, 49, 49, 33] ∧ logged.toFinset.card ≤ MAXOPBLOCKS :=
  ⟨by decide +kernel, filewrite_fits newSuperblock newDisk (List.replicate 3000 7) 1 false
    (newDisk.dinode 1) 0 3000 0 (consistent_newDisk.noHoles 1) (by decide)⟩

end Xv6.Fs
