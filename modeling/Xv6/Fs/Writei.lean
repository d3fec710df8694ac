import Mathlib.Data.List.GetD
import Xv6.Fs.Readi

/-!
# writei

`writei` stores bytes into blocks of the file that are there or that `bmap` allocates, so that every
block below the new size is there, however early it stops. The rest of the file, and all other
files, stay as they are.
-/

namespace Xv6.Fs

open Inode (Dinode NDIRECT)

variable {sb : Superblock} {s s' : Disk} {d d' : Dinode} {v : ℕ → Dinode} {i : ℕ}

/-- The state after a change of the block `addr`. -/
def Disk.modify (s : Disk) (addr : ℕ) (f : Block → Block) (l : List ℕ) : Disk :=
  { s with data := Function.update s.data addr (f (s.data addr)), logged := l }

theorem Ready.of_extends (h : Ready sb s) (he : Extends s d s' d') : Ready sb s' where
  outstanding := he.outstanding ▸ h.outstanding
  held b hb := by
    rw [he.held] at hb
    exact ⟨(h.held b hb).1, he.bits b (h.held b hb).2⟩
  metadata b hb := he.bits b (h.metadata b hb)

namespace Owned

/-- A block of a file is no indirect block. -/
theorem indirect_ne_mapped (h : Owned sb s v) {bn : ℕ} (h0 : s.mapped (v i) bn ≠ 0) (j : ℕ) :
    Disk.indirect (v j) ≠ s.mapped (v i) bn := fun he =>
  ofIndex_ne_indirect bn (h.inj i _ j .indirect h0 he.symm).2

theorem slot_modify (h : Owned sb s v) {bn : ℕ} (h0 : s.mapped (v i) bn ≠ 0) (f : Block → Block)
    (l : List ℕ) (j : ℕ) (k : Slot) :
    (s.modify (s.mapped (v i) bn) f l).slot (v j) k = s.slot (v j) k :=
  slot_congr (fun _ => Function.update_of_ne (h.indirect_ne_mapped h0 j) ..) k

/-- A change of a block of the file `i`. -/
theorem modify (h : Owned sb s v) {bn : ℕ} (h0 : s.mapped (v i) bn ≠ 0) (f : Block → Block)
    (l : List ℕ) : Owned sb (s.modify (s.mapped (v i) bn) f l) v ∧
      Extends s (v i) (s.modify (s.mapped (v i) bn) f l) (v i) := by
  have hslot := h.slot_modify h0 f l
  refine ⟨h.congr hslot rfl, ⟨rfl, rfl, rfl, rfl, fun _ hb => hb, fun _ hb => Or.inl hb, fun b _ hk => ?_,
    fun k _ => hslot i k, fun k hz hk => ?_⟩⟩
  · exact Function.update_of_ne (hk _).symm ..
  · rw [hslot] at hk
    exact (hk hz).elim

/-- The bytes of the file after a change of its block `bn`. -/
theorem byte_modify (h : Owned sb s v) {bn : ℕ} (hbn : bn < MAXFILE) (h0 : s.mapped (v i) bn ≠ 0)
    (f : Block → Block) (l : List ℕ) {k : ℕ} (hk : k / BSIZE < MAXFILE) :
    (s.modify (s.mapped (v i) bn) f l).byte (v i) k =
      if k / BSIZE = bn then f (s.data (s.mapped (v i) bn)) (k % BSIZE) else s.byte (v i) k := by
  have hm : (s.modify (s.mapped (v i) bn) f l).mapped (v i) (k / BSIZE) =
      s.mapped (v i) (k / BSIZE) := h.slot_modify h0 f l i _
  rw [Disk.byte, hm]
  by_cases hkb : k / BSIZE = bn
  · rw [if_pos hkb, hkb, if_neg h0]
    exact congrFun (Function.update_self ..) _
  · rw [if_neg hkb, Disk.byte]
    split_ifs with hz
    · rfl
    · have hne : s.mapped (v i) (k / BSIZE) ≠ s.mapped (v i) bn := fun he =>
        hkb (ofIndex_inj hk hbn (h.inj i _ i _ hz he).2)
      exact congrFun (Function.update_of_ne hne ..) _

end Owned

/-- Outside the bytes that are stored, the file stays as it is. -/
theorem byte_round_of_outside (h : Owned sb s v) {off : ℕ} (hbn : off / BSIZE < MAXFILE)
    (h0 : s.mapped (v i) (off / BSIZE) ≠ 0) {bytes : List UInt8}
    (l : List ℕ) {k : ℕ} (hk : k / BSIZE < MAXFILE) (hout : k < off ∨ off + bytes.length ≤ k) :
    (s.modify (s.mapped (v i) (off / BSIZE)) (Block.store (off % BSIZE) bytes) l).byte (v i) k =
      s.byte (v i) k := by
  rw [h.byte_modify hbn h0 _ l hk]
  split_ifs with hkb
  · have hoff := Nat.div_add_mod off BSIZE
    have hkm := Nat.div_add_mod k BSIZE
    rw [Disk.byte, hkb, if_neg h0]
    rw [hkb] at hkm
    rcases hout with hlt | hge
    · exact Block.store_of_lt (by omega) ..
    · have hsum : k % BSIZE = off % BSIZE + (k - off) := by omega
      have hle : bytes.length ≤ k - off := by omega
      rw [hsum, Block.store_add, List.getD_eq_default _ _ hle]
  · rfl

/-- The bytes that are stored. -/
theorem byte_round_of_inside (h : Owned sb s v) {off n tot : ℕ} (hbn : off / BSIZE < MAXFILE)
    (h0 : s.mapped (v i) (off / BSIZE) ≠ 0) {bytes : List UInt8}
    (hlen : bytes.length ≤ chunk off n tot) (l : List ℕ) {k : ℕ} (h₁ : off ≤ k)
    (h₂ : k < off + bytes.length) :
    (s.modify (s.mapped (v i) (off / BSIZE)) (Block.store (off % BSIZE) bytes) l).byte (v i) k =
      bytes.getD (k - off) 0 := by
  obtain ⟨hdiv, hmod⟩ := div_of_chunk h₁ (h₂.trans_le (Nat.add_le_add_left hlen off))
  have hlt : k - off < bytes.length := by omega
  rw [h.byte_modify hbn h0 _ l (hdiv ▸ hbn), if_pos hdiv, hmod, Block.store_add,
    List.getD_eq_getElem _ _ hlt, List.getD_eq_getElem _ _ hlt]

theorem getD_take_drop {src : List UInt8} {tot m j : ℕ} (hj : j < m) :
    ((src.drop tot).take m).getD j 0 = src.getD (tot + j) 0 := by
  rw [List.getD_eq_getElem?_getD, List.getElem?_take_of_lt hj, List.getElem?_drop,
    ← List.getD_eq_getElem?_getD]

/-- Why the loop of `writei` ends at `off` with `tot` of `n` bytes done, and what has become of the
file `d` from `off` on. -/
inductive Ending (sb : Superblock) (src : List UInt8) (n off tot : ℕ) (s : Disk) (d : Dinode)
    (s' : Disk) (d' : Dinode) : Prop
  /-- All bytes are written. -/
  | done (h : tot = n) (hrest : ∀ k, k / BSIZE < MAXFILE → off ≤ k → s'.byte d' k = s.byte d k)
  /-- There is no block for the next byte. -/
  | noBlock (h : tot < n) (hfull : FullDisk sb s') (hm : s'.mapped d' (off / BSIZE) = 0)
    (hrest : ∀ k, k / BSIZE < MAXFILE → off ≤ k → s'.byte d' k = s.byte d k)
  /-- The copy has failed, after the bytes that can be copied. -/
  | badCopy (h : tot < n) (hshort : src.length < tot + chunk off n tot)
    (hm : s'.mapped d' (off / BSIZE) ≠ 0)
    (hpart : ∀ k, off ≤ k → k < off + (src.length - tot) →
      s'.byte d' k = src.getD (tot + (k - off)) 0)
    (hrest : ∀ k, k / BSIZE < MAXFILE → off + (src.length - tot) ≤ k →
      s'.byte d' k = s.byte d k)

variable {src : List UInt8} {n off tot : ℕ}

namespace Ending

/-- Only the bytes from `off` on matter. -/
theorem congr {s₁ : Disk} {d₁ : Dinode} (h : Ending sb src n off tot s₁ d₁ s' d')
    (hbyte : ∀ k, k / BSIZE < MAXFILE → off ≤ k → s₁.byte d₁ k = s.byte d k) :
    Ending sb src n off tot s d s' d' := by
  cases h with
  | done h hrest => exact .done h fun k hk hle => (hrest k hk hle).trans (hbyte k hk hle)
  | noBlock h hfull hm hrest =>
    exact .noBlock h hfull hm fun k hk hle => (hrest k hk hle).trans (hbyte k hk hle)
  | badCopy h hshort hm hpart hrest =>
    exact .badCopy h hshort hm hpart fun k hk hle =>
      (hrest k hk hle).trans (hbyte k hk (by omega))

/-- Only the blocks and the bytes of the file matter. -/
theorem congr_right {s'' : Disk} {d'' : Dinode} (h : Ending sb src n off tot s d s' d')
    (hbits : s''.bitmap = s'.bitmap) (hslot : ∀ k, s''.slot d'' k = s'.slot d' k)
    (hbyte : ∀ k, s''.byte d'' k = s'.byte d' k) : Ending sb src n off tot s d s'' d'' := by
  have hmapped : ∀ bn, s''.mapped d'' bn = s'.mapped d' bn := fun bn => hslot _
  cases h with
  | done h hrest => exact .done h fun k hk hle => (hbyte k).trans (hrest k hk hle)
  | noBlock h hfull hm hrest =>
    refine .noBlock h (fun b hb => ?_) ((hmapped _).trans hm) fun k hk hle =>
      (hbyte k).trans (hrest k hk hle)
    rw [hbits]
    exact hfull b hb
  | badCopy h hshort hm hpart hrest =>
    exact .badCopy h hshort ((hmapped _).trans_ne hm)
      (fun k h₁ h₂ => (hbyte k).trans (hpart k h₁ h₂)) fun k hk hle =>
        (hbyte k).trans (hrest k hk hle)

end Ending

/-- What the loop of `writei` leaves, if it starts at `off` with `tot` of `n` bytes done and ends at
`off'` with `tot'`. -/
structure Written (sb : Superblock) (v : ℕ → Dinode) (i : ℕ) (src : List UInt8) (n off tot : ℕ)
    (s : Disk) (d : Dinode) (tot' off' : ℕ) (s' : Disk) (d' : Dinode) : Prop where
  owned : Owned sb s' (Function.update v i d')
  extends' : Extends s d s' d'
  count : tot ≤ tot' ∧ tot' ≤ n
  copied : tot' ≤ src.length
  offset : off' = off + (tot' - tot)
  mapped : ∀ k, off ≤ k → k < off' → s'.mapped d' (k / BSIZE) ≠ 0
  inside : ∀ k, off ≤ k → k < off' → s'.byte d' k = src.getD (tot + (k - off)) 0
  before : ∀ k, k / BSIZE < MAXFILE → k < off → s'.byte d' k = s.byte d k
  untouched : ∀ k, (∀ x, off ≤ x → x ≤ off' → ¬Slot.Touched (x / BSIZE) k) →
    s'.slot d' k = s.slot d k
  /-- A round goes to the end of its block, unless it is the last one. -/
  boundary : tot' = tot ∨ tot' = n ∨ off' % BSIZE = 0
  ending : Ending sb src n off' tot' s d s' d'

namespace Written

/-- The loop stops where it is. -/
theorem stop (h : Owned sb s' (Function.update v i d')) (he : Extends s d s' d') (ht : tot ≤ n)
    (hc : tot ≤ src.length)
    (hbefore : ∀ k, k / BSIZE < MAXFILE → k < off → s'.byte d' k = s.byte d k)
    (hslot : ∀ k, ¬Slot.Touched (off / BSIZE) k → s'.slot d' k = s.slot d k)
    (hend : Ending sb src n off tot s d s' d') : Written sb v i src n off tot s d tot off s' d' where
  owned := h
  extends' := he
  count := ⟨le_rfl, ht⟩
  copied := hc
  offset := by omega
  mapped k h₁ h₂ := by omega
  inside k h₁ h₂ := by omega
  before := hbefore
  untouched k hk := hslot k (hk off le_rfl le_rfl)
  boundary := Or.inl rfl
  ending := hend

/-- One round and the rounds after it. -/
theorem round {s₁ : Disk} {v₁ : ℕ → Dinode} {m : ℕ} {l : List ℕ} {tot' off' : ℕ}
    (hv : Function.update v i (v₁ i) = v₁) (hown : Owned sb s₁ v₁) (he : Extends s d s₁ (v₁ i))
    (hbyte : ∀ k, s₁.byte (v₁ i) k = s.byte d k)
    (hslot : ∀ k, ¬Slot.Touched (off / BSIZE) k → s₁.slot (v₁ i) k = s.slot d k)
    (hbn : off / BSIZE < MAXFILE)
    (h0 : s₁.mapped (v₁ i) (off / BSIZE) ≠ 0) (hm : m = chunk off n tot)
    (hlen : tot + m ≤ src.length) (hlt : tot < n)
    (hw : Written sb v₁ i src n (off + m) (tot + m) (s₁.modify (s₁.mapped (v₁ i) (off / BSIZE))
      (Block.store (off % BSIZE) ((src.drop tot).take m)) l) (v₁ i) tot' off' s' d') :
    Written sb v i src n off tot s d tot' off' s' d' := by
  subst hm
  have hmod := (hown.modify h0 (Block.store (off % BSIZE) ((src.drop tot).take (chunk off n tot)))
    l).2
  have htake : ((src.drop tot).take (chunk off n tot)).length = chunk off n tot := by
    rw [List.length_take, List.length_drop]
    omega
  have hcount := hw.count
  have hoffset := hw.offset
  refine ⟨?_, (he.trans hmod).trans hw.extends', by omega, hw.copied, by omega, fun k h₁ h₂ => ?_,
    fun k h₁ h₂ => ?_, fun k hk hlt => ?_, fun k hk => ?_, ?_, hw.ending.congr fun k hk hle => ?_⟩
  · have := hw.owned
    rwa [← hv, Function.update_idem] at this
  · by_cases hlt : k < off + chunk off n tot
    · have hsame := hmod.mapped h0
      rw [(div_of_chunk h₁ hlt).1, hw.extends'.mapped (hsame.trans_ne h0), hsame]
      exact h0
    · exact hw.mapped k (by omega) h₂
  · by_cases hlt : k < off + chunk off n tot
    · have hdiv := (div_of_chunk h₁ hlt).1
      rw [hw.before k (hdiv ▸ hbn) hlt,
        byte_round_of_inside hown hbn h0 htake.le l h₁ (htake.symm ▸ hlt),
        getD_take_drop (by omega)]
    · have hsub : tot + chunk off n tot + (k - (off + chunk off n tot)) = tot + (k - off) := by
        omega
      rw [hw.inside k (by omega) h₂, hsub]
  · rw [hw.before k hk (by omega), byte_round_of_outside hown hbn h0 l hk (Or.inl hlt),
      hbyte]
  · rw [hw.untouched k fun x h₁ h₂ => hk x (by omega) h₂, hown.slot_modify h0,
      hslot k (hk off le_rfl (by omega))]
  · rcases hw.boundary with hb | hb
    · rcases add_chunk off hlt with hc | hc
      · exact Or.inr (Or.inl (hb.trans hc))
      · refine Or.inr (Or.inr ?_)
        rw [hoffset, hb, Nat.sub_self, Nat.add_zero]
        exact hc
    · exact Or.inr hb
  · rw [byte_round_of_outside hown hbn h0 l hk (Or.inr (by omega)), hbyte]

end Written

/-- **The loop of `writei`.** -/
theorem ends_writeLoop (h : Owned sb s v) (hd : v i = d) (hready : Ready sb s) (hheld : s.held = [])
    (hn : tot ≤ n) (hc : tot ≤ src.length) (hmax : off + (n - tot) ≤ MAXFILE * BSIZE) :
    Ends (writeLoop sb src n off tot d)
      (fun r s' => Written sb v i src n off tot s d r.1 r.2.1 s' r.2.2) s := by
  induction hk : n - tot using Nat.strong_induction_on generalizing v s d off tot with
  | _ k ih =>
    rw [writeLoop]
    by_cases hlt : tot < n
    · have hbn : off / BSIZE < MAXFILE := by
        refine Nat.div_lt_of_lt_mul ?_
        rw [Nat.mul_comm]
        omega
      have hle := chunk_le off n tot
      rw [dif_pos hlt, ends_bind]
      refine (ends_bmap h hd hready hheld hbn).post ?_
      rintro ⟨addr, d₁⟩ s₁ hb
      dsimp only at hb ⊢
      have hv₁ : Function.update v i d₁ i = d₁ := Function.update_self ..
      have hready₁ := hready.of_extends hb.extends'
      have hheld₁ : s₁.held = [] := hb.extends'.held.trans hheld
      by_cases ha : addr = 0
      · obtain ⟨hfull, hm⟩ := hb.full ha
        rw [if_pos ha]
        exact Written.stop hb.owned hb.extends' hn hc (fun k' _ _ => hb.byte k')
          hb.untouched (.noBlock hlt hfull hm fun k' _ _ => hb.byte k')
      · have hm := hb.mapped ha
        subst hm
        generalize hv : Function.update v i d₁ = v₁ at hv₁
        have hown := hv ▸ hb.owned
        subst hv₁
        rw [if_neg ha, ends_bind]
        refine ends_bread (by rw [hheld₁]; exact List.not_mem_nil) ?_
        rw [ends_bind, ends_modify]
        by_cases hshort : src.length < tot + chunk off n tot
        · rw [if_pos hshort, ends_bind]
          refine ends_brelse rfl ?_
          have htake : ((src.drop tot).take (chunk off n tot)).length = src.length - tot := by
            rw [List.length_take, List.length_drop]
            omega
          have htake' : ((src.drop tot).take (chunk off n tot)).length ≤ chunk off n tot :=
            List.length_take_le ..
          obtain ⟨hown', he'⟩ := hown.modify ha
            (Block.store (off % BSIZE) ((src.drop tot).take (chunk off n tot))) s₁.logged
          have hslot := hown.slot_modify ha
            (Block.store (off % BSIZE) ((src.drop tot).take (chunk off n tot))) s₁.logged i
          have hout : ∀ k', k' / BSIZE < MAXFILE → k' < off ∨ off + (src.length - tot) ≤ k' →
              (s₁.modify (s₁.mapped (v₁ i) (off / BSIZE))
                  (Block.store (off % BSIZE) ((src.drop tot).take (chunk off n tot)))
                s₁.logged).byte (v₁ i) k' = s.byte d k' := by
            intro k' hk' hout
            rw [← hb.byte k']
            exact byte_round_of_outside hown hbn ha s₁.logged hk' (htake.symm ▸ hout)
          refine Written.stop ?_ (hb.extends'.trans he') hn hc (fun k' hk' hlt' =>
            hout k' hk' (Or.inl hlt')) (fun k' hk' => (hslot k').trans (hb.untouched k' hk'))
              (.badCopy hlt hshort ((hslot _).trans_ne ha) (fun k' h₁ h₂ => ?_) fun k' hk' hle' =>
                hout k' hk' (Or.inr hle'))
          · rw [hv]
            exact hown'
          · rw [← getD_take_drop (show k' - off < chunk off n tot by omega)]
            exact byte_round_of_inside hown hbn ha htake' s₁.logged h₁ (htake.symm ▸ h₂)
        · rw [if_neg hshort, ends_bind]
          refine ends_logWrite hready₁.outstanding ?_
          rw [ends_bind]
          refine ends_brelse rfl ?_
          have hsub := sub_chunk_lt off hlt
          refine Program.Meets.post (ih _ (hk ▸ hsub) (hown.modify ha _ _).1 rfl
            (hready₁.of_extends (hown.modify ha _ _).2) hheld₁ (by omega) (by omega) (by omega)
            rfl) ?_
          intro r s' hw
          exact Written.round hv hown hb.extends' hb.byte hb.untouched hbn ha rfl (by omega) hlt hw
    · have hn' : tot = n := by omega
      rw [dif_neg hlt]
      refine Written.stop ?_ (Extends.refl s d) hn hc (fun _ _ _ => rfl) (fun _ _ => rfl)
        (.done hn' fun _ _ _ => rfl)
      rw [← hd, Function.update_eq_self]
      exact h

/-! ## writei -/

/-- Between two operations: no buffer is locked, the metadata blocks are in use, each block has one
owner, and no file has a hole. -/
structure Consistent (sb : Superblock) (s : Disk) : Prop where
  held : s.held = []
  metadata : ∀ b < sb.dataStart, s.bitmap b = true
  owned : Owned sb s s.dinode
  noHoles : ∀ i, NoHoles s (s.dinode i)

theorem Consistent.ready (h : Consistent sb s) (hout : 1 ≤ s.outstanding) : Ready sb s where
  outstanding := hout
  held b hb := by
    rw [h.held] at hb
    exact (List.not_mem_nil hb).elim
  metadata := h.metadata

/-- A new disk, with blocks 0 to 46 in use and inode 1 the only one, a file. -/
def newDisk : Disk where
  bitmap b := decide (b < 47)
  dinode i := .zero (if i = 1 then 2 else 0)
  data _ _ := 0
  held := []
  logged := []
  outstanding := 1

/-- The layout of `newDisk`. -/
def newSuperblock : Superblock where
  size := 2000
  ninodes := 200
  inodestart := 33
  bmapstart := 46

theorem consistent_newDisk : Consistent newSuperblock newDisk where
  held := rfl
  metadata b hb := decide_eq_true hb
  owned := by
    have hslot : ∀ i k, newDisk.slot (newDisk.dinode i) k = 0 := fun i k =>
      slot_of_addrs_eq_zero (fun _ => rfl) k
    exact ⟨fun i k h0 => (h0 (hslot i k)).elim, fun i k _ _ h0 => (h0 (hslot i k)).elim⟩
  noHoles i := ⟨Nat.zero_le _, fun bn hbn => (Nat.not_lt_zero _ hbn).elim⟩

/-- `newDisk` after a write of one byte to the inode 1, in block 47. -/
def smallDisk : Disk where
  bitmap b := decide (b < 48)
  dinode i := if i = 1 then { Dinode.zero 2 with size := 1, addrs := Function.update (fun _ => 0) 0 47 } else
    .zero 0
  data _ _ := 0
  held := []
  logged := []
  outstanding := 1

/-- A file of at most one block. -/
theorem slot_of_first {t : Disk} {d : Dinode} {addr : UInt32}
    (h : d.addrs = Function.update (fun _ => 0) 0 addr) {k : Slot} (hk : t.slot d k ≠ 0) :
    k = .direct ⟨0, by decide⟩ ∧ t.slot d k = addr.toNat := by
  have hind : Disk.indirect d = 0 := by
    rw [Disk.indirect, h, Function.update_of_ne (by decide)]
    rfl
  cases k with
  | direct k =>
    by_cases h0 : k = ⟨0, by decide⟩
    · subst h0
      refine ⟨rfl, ?_⟩
      rw [Disk.slot, h]
      rfl
    · have hne : k.castSucc ≠ (0 : Fin (NDIRECT + 1)) := fun he =>
        h0 (Fin.ext (congrArg Fin.val he : (k.castSucc).val = 0))
      rw [Disk.slot, h, Function.update_of_ne hne] at hk
      exact (hk rfl).elim
  | indirect => exact (hk hind).elim
  | entry j =>
    rw [Disk.slot, if_pos hind] at hk
    exact (hk rfl).elim

theorem slot_smallDisk {i : ℕ} {k : Slot} (h : smallDisk.slot (smallDisk.dinode i) k ≠ 0) :
    i = 1 ∧ k = .direct ⟨0, by decide⟩ ∧ smallDisk.slot (smallDisk.dinode i) k = 47 := by
  by_cases hi : i = 1
  · subst hi
    have haddrs : (smallDisk.dinode 1).addrs = Function.update (fun _ => 0) 0 47 := rfl
    exact ⟨rfl, slot_of_first haddrs h⟩
  · have hd : smallDisk.dinode i = .zero 0 := if_neg hi
    rw [hd] at h
    exact (h (slot_of_addrs_eq_zero (fun _ => rfl) k)).elim

theorem consistent_smallDisk : Consistent newSuperblock smallDisk where
  held := rfl
  metadata b hb := decide_eq_true (Nat.lt_succ_of_lt hb)
  owned := by
    refine ⟨fun i k h0 => ?_, fun i k i' k' h0 he => ?_⟩
    · obtain ⟨-, -, hs⟩ := slot_smallDisk h0
      rw [hs]
      decide
    · obtain ⟨rfl, rfl, -⟩ := slot_smallDisk h0
      obtain ⟨rfl, rfl, -⟩ := slot_smallDisk (he ▸ h0)
      exact ⟨rfl, rfl⟩
  noHoles i := by
    by_cases hi : i = 1
    · subst hi
      refine ⟨by decide, fun bn hbn => ?_⟩
      obtain rfl : bn = 0 := by
        have hsize : (smallDisk.dinode 1).size.toNat = 1 := rfl
        rw [hsize, BSIZE] at hbn
        omega
      decide
    · have hd : smallDisk.dinode i = .zero 0 := if_neg hi
      rw [hd]
      exact ⟨Nat.zero_le _, fun bn hbn => (Nat.not_lt_zero _ hbn).elim⟩

/-- The file of the dinode `d` is the same in both states. -/
structure SameFile (s s' : Disk) (d : Dinode) : Prop where
  slot : ∀ k, s'.slot d k = s.slot d k
  byte : ∀ k, s'.byte d k = s.byte d k

theorem SameFile.noHoles (h : SameFile s s' d) (hn : NoHoles s d) : NoHoles s' d where
  size := hn.size
  mapped bn hbn := by
    rw [Disk.mapped, h.slot]
    exact hn.mapped bn hbn

/-- What an operation on the inode `i` leaves that has written its dinode `d'` to the disk. -/
structure Updated (sb : Superblock) (s : Disk) (i : ℕ) (s' : Disk) (d' : Dinode) : Prop where
  consistent : Consistent sb s'
  outstanding : s'.outstanding = s.outstanding
  dinode : s'.dinode = Function.update s.dinode i d'
  others : ∀ j, j ≠ i → SameFile s s' (s.dinode j)

/-- `iupdate` after a change of blocks. -/
theorem Updated.of {s₁ : Disk} (h : Consistent sb s) (hheld : s₁.held = s.held)
    (hout : s₁.outstanding = s.outstanding) (hdinode : s₁.dinode = s.dinode)
    (hmeta : ∀ b < sb.dataStart, s₁.bitmap b = true)
    (howned : Owned sb s₁ (Function.update s.dinode i d'))
    (hothers : ∀ j, j ≠ i → SameFile s s₁ (s.dinode j)) (hno : NoHoles s₁ d') (l : List ℕ) :
    Updated sb s i { s₁ with dinode := Function.update s₁.dinode i d', logged := l } d' := by
  generalize hs : { s₁ with dinode := Function.update s₁.dinode i d', logged := l } = s'
  have hdinode' : s'.dinode = Function.update s.dinode i d' := by
    rw [← hs, ← hdinode]
  have hfile : ∀ d, SameFile s₁ s' d := fun d => by
    rw [← hs]
    exact ⟨fun k => by cases k <;> rfl, fun k => rfl⟩
  have hothers' : ∀ j, j ≠ i → SameFile s s' (s.dinode j) := fun j hj =>
    ⟨fun k => ((hfile _).slot k).trans ((hothers j hj).slot k),
      fun k => ((hfile _).byte k).trans ((hothers j hj).byte k)⟩
  refine ⟨⟨?_, fun b hb => ?_, ?_, fun j => ?_⟩, ?_, hdinode', hothers'⟩
  · rw [← hs]
    exact hheld.trans h.held
  · rw [← hs]
    exact hmeta b hb
  · rw [hdinode']
    exact howned.congr (fun j k => (hfile _).slot k) (by rw [← hs])
  · rw [hdinode']
    by_cases hj : j = i
    · rw [hj, Function.update_self]
      exact (hfile _).noHoles hno
    · rw [Function.update_of_ne hj]
      exact (hothers' j hj).noHoles (h.noHoles j)
  · rw [← hs]
    exact hout

/-- The dinode that `iupdate` writes has the blocks of `d₁`. -/
theorem Updated.of_extends {d₁ : Dinode} {s₁ : Disk} (h : Consistent sb s)
    (howned : Owned sb s₁ (Function.update s.dinode i d₁)) (he : Extends s (s.dinode i) s₁ d₁)
    (haddrs : d'.addrs = d₁.addrs) (hno : NoHoles s₁ d') (l : List ℕ) :
    Updated sb s i { s₁ with dinode := Function.update s₁.dinode i d', logged := l } d' := by
  refine Updated.of h he.held he.outstanding he.dinode (fun b hb => he.bits b (h.metadata b hb))
    (howned.congr (fun j k => ?_) rfl) (fun j hj => ?_) hno l
  · by_cases hj : j = i
    · rw [hj, Function.update_self, Function.update_self, slot_of_addrs haddrs]
    · rw [Function.update_of_ne hj, Function.update_of_ne hj]
  · exact ⟨h.owned.slot_of_ne he hj, h.owned.byte_of_ne he hj⟩

/-- The bytes from `off` on are within the file or right after it, and not past its limit. -/
def Fits (d : Dinode) (off n : UInt32) : Prop :=
  off.toNat ≤ d.size.toNat ∧ off.toNat + n.toNat ≤ MAXFILE * BSIZE

instance (d : Dinode) (off n : UInt32) : Decidable (Fits d off n) :=
  inferInstanceAs (Decidable (_ ∧ _))

/-- The checks of `writei`. -/
theorem fits_iff {off n : UInt32} : Fits d off n ↔ ¬(d.size < off ∨ off + n < off) ∧
    ¬MAXFILE * BSIZE < (off + n).toNat := by
  have hmax : MAXFILE * BSIZE < 2 ^ 32 := by decide
  rw [Fits, not_or, UInt32.lt_iff_toNat_lt]
  constructor
  · rintro ⟨hoff, hsum⟩
    have hadd : (off + n).toNat = off.toNat + n.toNat := by
      rw [UInt32.toNat_add]
      exact Nat.mod_eq_of_lt (hsum.trans_lt hmax)
    refine ⟨⟨Nat.not_lt.2 hoff, ?_⟩, ?_⟩
    · rw [UInt32.lt_iff_toNat_lt, hadd]
      omega
    · omega
  · rintro ⟨⟨hoff, hadd⟩, hsum⟩
    rw [toNat_add_of_not_lt hadd] at hsum
    exact ⟨Nat.not_lt.1 hoff, Nat.not_lt.1 hsum⟩

/-- What `writei` leaves that has written the first `tot` of `n` bytes. -/
structure Stored (sb : Superblock) (s : Disk) (d : Dinode) (src : List UInt8) (off n tot : ℕ)
    (s' : Disk) (d' : Dinode) : Prop where
  count : tot ≤ n
  copied : tot ≤ src.length
  fields : { d' with addrs := d.addrs, size := d.size } = d
  size : d'.size.toNat = max d.size.toNat (off + tot)
  slots : ∀ k, s.slot d k ≠ 0 → s'.slot d' k = s.slot d k
  taken : ∀ b, s'.bitmap b = true → s.bitmap b = true ∨
    ∃ k, s.slot d k = 0 ∧ s'.slot d' k = b ∧ b ≠ 0
  untouched : ∀ k, (∀ x, off ≤ x → x ≤ off + tot → ¬Slot.Touched (x / BSIZE) k) →
    s'.slot d' k = s.slot d k
  boundary : tot = 0 ∨ tot = n ∨ (off + tot) % BSIZE = 0
  inside : ∀ k, off ≤ k → k < off + tot → s'.byte d' k = src.getD (k - off) 0
  before : ∀ k, k / BSIZE < MAXFILE → k < off → s'.byte d' k = s.byte d k
  ending : Ending sb src n (off + tot) tot s d s' d'

/-- **writei leaves no hole**, wherever it stops. -/
theorem ends_writei (h : Consistent sb s) (hout : 1 ≤ s.outstanding) (src : List UInt8) (i : ℕ)
    (off n : UInt32) : Ends (writei sb src i (s.dinode i) off n) (fun r s' =>
      (¬Fits (s.dinode i) off n ∧ r = (-1, s.dinode i) ∧ s' = s) ∨
      Fits (s.dinode i) off n ∧ Updated sb s i s' r.2 ∧ ∃ tot : ℕ, r.1 = tot ∧
        Stored sb s (s.dinode i) src off.toNat n.toNat tot s' r.2) s := by
  generalize hd : s.dinode i = d
  rw [writei]
  by_cases hfits : Fits d off n
  · obtain ⟨h₁, h₂⟩ := fits_iff.1 hfits
    have hoff : off.toNat ≤ d.size.toNat := hfits.1
    have hmax : off.toNat + (n.toNat - 0) ≤ MAXFILE * BSIZE := hfits.2
    rw [if_neg h₁, if_neg h₂, ends_bind]
    refine (ends_writeLoop h.owned hd (h.ready hout) h.held (Nat.zero_le _) (Nat.zero_le _)
      hmax).post ?_
    rintro ⟨tot, off', d₁⟩ s₁ hw
    dsimp only at hw ⊢
    have hext := hw.extends'
    have hcount := hw.count
    have hoffset : off' = off.toNat + tot := by
      have := hw.offset
      omega
    have hno := h.noHoles i
    rw [hd] at hno
    have hsize : d₁.size = d.size := (congrArg Dinode.size hext.fields :)
    -- the dinode that is written
    generalize hd' : (if d₁.size.toNat < off' then { d₁ with size := .ofNat off' } else d₁) = d'
    have haddrs : d'.addrs = d₁.addrs := by
      rw [← hd']
      split_ifs <;> rfl
    have hsize' : d'.size.toNat = max d.size.toNat (off.toNat + tot) := by
      rw [← hd', hsize]
      split_ifs with hlt
      · have hlt' : off' < 2 ^ 32 := by
          have hmax' : MAXFILE * BSIZE < 2 ^ 32 := by decide
          omega
        have hof : (UInt32.ofNat off').toNat = off' := by
          rw [UInt32.toNat_ofNat']
          exact Nat.mod_eq_of_lt hlt'
        exact hof.trans (by omega)
      · rw [hsize]
        omega
    have hfields : { d' with addrs := d.addrs, size := d.size } = d := by
      have hf := hext.fields
      rw [hsize] at hf
      rw [← hd']
      split_ifs <;> exact hf
    have hno' : NoHoles s₁ d' := by
      refine ⟨?_, fun bn hbn => ?_⟩
      · have := hno.size
        rw [hsize']
        omega
      · rw [Disk.mapped, slot_of_addrs haddrs]
        by_cases hbn' : bn * BSIZE < d.size.toNat
        · have h0 := hno.mapped bn hbn'
          rw [← Disk.mapped, hext.mapped h0]
          exact h0
        · have h0 := hw.mapped (bn * BSIZE) (by omega) (by omega)
          rwa [Nat.mul_div_cancel _ (show 0 < BSIZE by decide)] at h0
    have hiblock : sb.IBLOCK i ∉ s₁.held := by
      rw [hext.held, h.held]
      exact List.not_mem_nil
    rw [ends_bind]
    refine (ends_iupdate (hext.outstanding ▸ hout) hiblock).post ?_
    rintro _ s' ⟨l, rfl⟩
    subst hd
    generalize hs' : { s₁ with dinode := Function.update s₁.dinode i d', logged := l } = s'
    have hslot : ∀ k, s'.slot d' k = s₁.slot d₁ k := fun k => by
      rw [← hs', ← slot_of_addrs haddrs k]
      cases k <;> rfl
    have hbyte : ∀ k, s'.byte d' k = s₁.byte d₁ k := fun k => by
      rw [← hs', ← byte_of_addrs haddrs k]
      rfl
    have hbits : s'.bitmap = s₁.bitmap := by rw [← hs']
    refine Or.inr ⟨hfits, ?_, tot, rfl, hcount.2, hw.copied, hfields, hsize', fun k h0 => ?_,
      fun b hb => ?_, fun k hk => ?_, hoffset ▸ hw.boundary, fun k h₁ h₂ => ?_, fun k hk hlt => ?_, ?_⟩
    · rw [← hs']
      exact Updated.of_extends h hw.owned hext haddrs hno' l
    · rw [hslot, hext.slots k h0]
    · rw [hbits] at hb
      simp only [hslot]
      exact hext.taken b hb
    · rw [hslot]
      exact hw.untouched k fun x h₁ h₂ => hk x h₁ (by omega)
    · rw [hbyte, hw.inside k h₁ (by omega), Nat.zero_add]
    · rw [hbyte, hw.before k hk hlt]
    · rw [← hoffset]
      exact hw.ending.congr_right hbits hslot hbyte
  · have hor := not_and_or.1 fun hf => hfits (fits_iff.2 hf)
    rw [not_not, not_not] at hor
    by_cases h₁ : d.size < off ∨ off + n < off
    · rw [if_pos h₁]
      exact Or.inl ⟨hfits, rfl, rfl⟩
    · rw [if_neg h₁, if_pos (hor.resolve_left h₁)]
      exact Or.inl ⟨hfits, rfl, rfl⟩

end Xv6.Fs
