import Xv6.Fs.Directory
import Xv6.Fs.Torn

/-!
# Directories are maps

An entry lies within one block, so that `writei` writes all of it or nothing. It writes nothing only
if the directory has its full size, or if there are too few free blocks (`Writable`). With that,
`dirlookup`, `dirlink` and the write of `sys_unlink` are lookup, insertion and deletion of a finite
map from names of at most `DIRSIZ` bytes to inode numbers (`directory_is_map`).
-/

namespace Xv6.Fs

open Inode (Dinode NDIRECT)

variable {sb : Superblock} {s s' : Disk} {d d' : Dinode} {i : ℕ} {E : Stop → Prop}

/-! ## Writing an entry -/

/-- A block that `writei` has put into an empty slot was free. -/
theorem ends_writei_fresh (h : Consistent sb s) (hout : 1 ≤ s.outstanding) (src : List UInt8)
    (off n : UInt32) : Ends (writei sb src i (s.dinode i) off n) (fun r s' =>
      ∀ k, s.slot (s.dinode i) k = 0 → s'.slot r.2 k ≠ 0 →
        s.bitmap (s'.slot r.2 k) = false) s := by
  rw [writei]
  by_cases hfits : Fits (s.dinode i) off n
  · obtain ⟨h₁, h₂⟩ := fits_iff.1 hfits
    have hmax : off.toNat + (n.toNat - 0) ≤ MAXFILE * BSIZE := hfits.2
    rw [if_neg h₁, if_neg h₂, ends_bind]
    refine (ends_writeLoop h.owned rfl (h.ready hout) h.held (Nat.zero_le _) (Nat.zero_le _)
      hmax).post ?_
    rintro ⟨tot, off', d₁⟩ s₁ hw
    have hext := hw.extends'
    dsimp only at hext ⊢
    have hiblock : sb.IBLOCK i ∉ s₁.held := by
      rw [hext.held, h.held]
      exact List.not_mem_nil
    generalize hd' : (if d₁.size.toNat < off' then { d₁ with size := .ofNat off' } else d₁) = d'
    have haddrs : d'.addrs = d₁.addrs := by
      rw [← hd']
      split_ifs <;> rfl
    rw [ends_bind]
    refine (ends_iupdate (hext.outstanding ▸ hout) hiblock).post ?_
    rintro _ s' ⟨l, rfl⟩ k h0 hk
    have hslot : Disk.slot { s₁ with dinode := Function.update s₁.dinode i d', logged := l } d' k =
        s₁.slot d₁ k := by
      rw [← slot_of_addrs haddrs k]
      cases k <;> rfl
    rw [hslot] at hk ⊢
    exact hext.fresh k h0 hk
  · have hor := not_and_or.1 fun hf => hfits (fits_iff.2 hf)
    rw [not_not, not_not] at hor
    by_cases h₁ : (s.dinode i).size < off ∨ off + n < off
    · rw [if_pos h₁]
      exact fun k h0 hk => absurd h0 hk
    · rw [if_neg h₁, if_pos (hor.resolve_left h₁)]
      exact fun k h0 hk => absurd h0 hk

/-- The blocks that `bmap` allocates for the block `bn`. -/
def blocksNeeded (s : Disk) (d : Dinode) (bn : ℕ) : ℕ :=
  if s.mapped d bn ≠ 0 then 0 else if NDIRECT ≤ bn ∧ Disk.indirect d = 0 then 2 else 1

/-- There is room for the `n`-th entry. -/
def Writable (sb : Superblock) (s : Disk) (d : Dinode) (n : ℕ) : Prop :=
  n * Dirent.size + Dirent.size ≤ MAXFILE * BSIZE ∧
    blocksNeeded s d (n * Dirent.size / BSIZE) ≤ (freeBlocks sb s).card

instance (sb : Superblock) (s : Disk) (d : Dinode) (n : ℕ) : Decidable (Writable sb s d n) :=
  inferInstanceAs (Decidable (_ ∧ _))

/-- There is room for an entry that is there. -/
theorem writable_of_lt (h : NoHoles s d) (hdir : d.size.toNat % Dirent.size = 0) {n : ℕ}
    (hn : n < (slots s d).length) : Writable sb s d n := by
  have hsize := h.size
  rw [length_slots] at hn
  have hlt : n * Dirent.size + Dirent.size ≤ d.size.toNat := by
    simp only [Dirent.size_eq] at hn hdir ⊢
    omega
  refine ⟨hlt.trans hsize, ?_⟩
  have hmapped := (h.mapped_of_lt (k := n * Dirent.size) (by
    simp only [Dirent.size_eq] at hlt ⊢
    omega)).2
  rw [blocksNeeded, if_pos hmapped]
  exact Nat.zero_le _

/-- Slots that were empty have taken as many free blocks. -/
theorem blocksNeeded_le (howned : Owned sb s' (Function.update s.dinode i d'))
    (hfresh : ∀ k, s.slot (s.dinode i) k = 0 → s'.slot d' k ≠ 0 →
      s.bitmap (s'.slot d' k) = false)
    {bn : ℕ} (hmapped : s'.mapped d' bn ≠ 0) :
    blocksNeeded s (s.dinode i) bn ≤ (freeBlocks sb s).card := by
  have hself : Function.update s.dinode i d' i = d' := Function.update_self ..
  have hfree : ∀ k, s.slot (s.dinode i) k = 0 → s'.slot d' k ≠ 0 →
      s'.slot d' k ∈ freeBlocks sb s := fun k h0 hk => by
    have hused := howned.used i k
    rw [hself] at hused
    exact Finset.mem_filter.2 ⟨Finset.mem_range.2 (hused hk).2.1, hfresh k h0 hk⟩
  rw [blocksNeeded]
  split_ifs with h0 h₁
  · exact Nat.zero_le _
  · obtain ⟨hle, hind⟩ := h₁
    have hentry : s'.slot d' .indirect ≠ 0 := fun hind' => by
      refine hmapped ?_
      have hnd : ¬bn < NDIRECT := Nat.not_lt.mpr hle
      rw [Disk.mapped, Slot.ofIndex, dif_neg hnd, Disk.slot]
      exact if_pos hind'
    have hne : s'.slot d' .indirect ≠ s'.mapped d' bn := fun heq => by
      have hinj := howned.inj i .indirect i (.ofIndex bn)
      rw [hself] at hinj
      exact ofIndex_ne_indirect bn (hinj hentry heq).2.symm
    rw [← Finset.card_pair hne]
    refine Finset.card_le_card fun b hb => ?_
    obtain rfl | hb := Finset.mem_insert.1 hb
    · exact hfree _ hind hentry
    · rw [Finset.mem_singleton.1 hb]
      exact hfree _ (not_not.1 h0) hmapped
  · exact Finset.card_pos.2 ⟨_, hfree _ (not_not.1 h0) hmapped⟩

/-- `writei` that has written nothing has found too few free blocks. -/
theorem Stored.card_lt {src : List UInt8} {off n : ℕ}
    (h : Stored sb s d src off n 0 s' d') (hfull : FullDisk sb s')
    (hm : s'.mapped d' (off / BSIZE) = 0) :
    (freeBlocks sb s).card < blocksNeeded s d (off / BSIZE) := by
  have hm₀ : s.mapped d (off / BSIZE) = 0 := by
    by_contra h0
    exact h0 ((h.slots _ h0).symm.trans hm)
  -- a block that is not free any more is the indirect block
  have htaken : ∀ b ∈ freeBlocks sb s, s.slot d .indirect = 0 ∧ s'.slot d' .indirect = b ∧
      NDIRECT ≤ off / BSIZE := by
    intro b hb
    obtain ⟨hsize, hfree⟩ := Finset.mem_filter.1 hb
    have hnot : s.bitmap b ≠ true := Bool.eq_false_iff.1 hfree
    obtain ⟨k, h0, hk, hb0⟩ := (h.taken b (hfull b (Finset.mem_range.1 hsize))).resolve_left hnot
    have htouched : Slot.Touched (off / BSIZE) k := by
      by_contra hno
      refine hb0 (hk.symm.trans ((h.untouched k fun x h₁ h₂ => ?_).trans h0))
      rwa [show x = off by omega]
    obtain rfl | ⟨rfl, hle⟩ := htouched
    · exact absurd (hk.symm.trans hm) hb0
    · exact ⟨h0, hk, hle⟩
  rw [blocksNeeded, if_neg (not_not.2 hm₀)]
  split_ifs with hind
  · have hsub : freeBlocks sb s ⊆ {s'.slot d' .indirect} := fun b hb =>
      Finset.mem_singleton.2 (htaken b hb).2.1.symm
    have hcard := Finset.card_le_card hsub
    rw [Finset.card_singleton] at hcard
    omega
  · have hempty : freeBlocks sb s = ∅ := Finset.eq_empty_of_forall_notMem fun b hb =>
      hind ⟨(htaken b hb).2.2, (htaken b hb).1⟩
    rw [hempty]
    exact Nat.zero_lt_one

/-- What the write of the `n`-th entry leaves. -/
structure Entered (sb : Superblock) (s : Disk) (i n : ℕ) (new : List UInt8) (r : ℤ × Dinode)
    (s' : Disk) : Prop where
  consistent : Consistent sb s'
  dinode : s'.dinode i = r.2
  type : r.2.type = (s.dinode i).type
  others : ∀ j, j ≠ i → s'.dinode j = s.dinode j ∧
    contents s' (s'.dinode j) = contents s (s.dinode j)
  written : Writable sb s (s.dinode i) n → r.1 = Dirent.size ∧
    contents s' r.2 = overwrite (contents s (s.dinode i)) (n * Dirent.size) new
  noRoom : ¬Writable sb s (s.dinode i) n → r.1 ≠ Dirent.size ∧
    contents s' r.2 = contents s (s.dinode i)

/-- **An entry is written as a whole, or not at all.** -/
theorem ends_writeDirent (h : Consistent sb s) (hout : 1 ≤ s.outstanding) {n : ℕ}
    (hsize : (s.dinode i).size.toNat % Dirent.size = 0) (hn : n ≤ (slots s (s.dinode i)).length)
    {new : List UInt8} (hnew : new.length = Dirent.size) :
    Ends (writei sb new i (s.dinode i) (.ofNat (n * Dirent.size)) (.ofNat Dirent.size))
      (Entered sb s i n new) s := by
  have hmax := (h.noHoles i).size
  have hbig : MAXFILE * BSIZE < 2 ^ 31 := by decide
  have h16 := Dirent.size_eq
  have hle : n * Dirent.size ≤ (s.dinode i).size.toNat := by
    rw [length_slots, h16] at hn
    rw [h16]
    omega
  have hoff : (UInt32.ofNat (n * Dirent.size)).toNat = n * Dirent.size := by
    rw [UInt32.toNat_ofNat']
    exact Nat.mod_eq_of_lt (by omega)
  refine Program.Meets.mono ((ends_writei h hout new i _ _).and
    (ends_writei_fresh h hout new (.ofNat (n * Dirent.size)) (.ofNat Dirent.size))) ?_
    fun _ he => he.1
  rintro ⟨r, d'⟩ s' ⟨hw, hfresh⟩
  obtain ⟨hfits, heq, rfl⟩ | ⟨hfits, hu, tot, hr, hst⟩ := hw
  · have hnot : ¬Writable sb s' (s'.dinode i) n := fun hwr => hfits <| by
      rw [Fits, hoff]
      exact ⟨hle, hwr.1⟩
    cases heq
    refine ⟨h, rfl, rfl, fun _ _ => ⟨rfl, rfl⟩, fun hwr => absurd hwr hnot, fun _ => ⟨?_, rfl⟩⟩
    exact (by decide : (-1 : ℤ) ≠ Dirent.size)
  · have hdinode : s'.dinode i = d' := by
      rw [hu.dinode]
      exact Function.update_self ..
    have hst' : Stored sb s (s.dinode i) new (n * Dirent.size) Dirent.size tot s' d' := by
      rw [hoff, toNat_direntSize] at hst
      exact hst
    have hlim : n * Dirent.size + Dirent.size ≤ MAXFILE * BSIZE := by
      rw [Fits, hoff] at hfits
      exact hfits.2
    obtain ⟨hfull, hrest⟩ : (tot < Dirent.size → FullDisk sb s' ∧
          s'.mapped d' ((n * Dirent.size + tot) / BSIZE) = 0) ∧ ∀ k, k / BSIZE < MAXFILE →
        n * Dirent.size + tot ≤ k → s'.byte d' k = s.byte (s.dinode i) k := by
      cases hst'.ending with
      | done h hrest => exact ⟨fun hlt => (hlt.ne h).elim, hrest⟩
      | noBlock _ hfull hm hrest => exact ⟨fun _ => ⟨hfull, hm⟩, hrest⟩
      | badCopy h hshort _ _ _ =>
        have := chunk_le (n * Dirent.size + tot) Dirent.size tot
        omega
    have hcontents : contents s' d' =
        overwrite (contents s (s.dinode i)) (n * Dirent.size) (new.take tot) := by
      have := hst.contents_eq hfits (by rwa [hoff]) hmax
      rwa [hoff] at this
    have hcases : tot = 0 ∨ tot = Dirent.size := by
      have hcount := hst'.count
      have hboundary := hst'.boundary
      rw [show BSIZE = 1024 from rfl] at hboundary
      rw [h16] at hcount hboundary ⊢
      omega
    -- with nothing written, too few blocks were free
    have hnone : tot = 0 → ¬Writable sb s (s.dinode i) n := by
      rintro rfl hwr
      obtain ⟨hfull, hm⟩ := hfull (by decide)
      exact absurd (hst'.card_lt hfull hm) (Nat.not_lt.mpr hwr.2)
    have hall : tot = Dirent.size → Writable sb s (s.dinode i) n := by
      rintro rfl
      have howned := hu.consistent.owned
      rw [hu.dinode] at howned
      have hno := hu.consistent.noHoles i
      rw [hdinode] at hno
      refine ⟨hlim, blocksNeeded_le howned hfresh (hno.mapped_of_lt ?_).2⟩
      rw [hst'.size, h16]
      omega
    refine ⟨hu.consistent, hdinode, ?_, fun j hj => ?_, fun hwr => ?_, fun hwr => ?_⟩
    · have htype := congrArg Dinode.type hst.fields
      exact htype
    · have hj' : s'.dinode j = s.dinode j := by
        rw [hu.dinode, Function.update_of_ne hj]
      exact ⟨hj', hj' ▸ (hu.others j hj).contents⟩
    · have htot := hcases.resolve_left fun h0 => hnone h0 hwr
      refine ⟨hr.trans (by rw [htot]), ?_⟩
      rw [hcontents, htot, ← hnew, List.take_length]
    · have htot := hcases.resolve_right fun hall' => hwr (hall hall')
      refine ⟨fun heq => ?_, ?_⟩
      · rw [hr, htot] at heq
        exact absurd heq (by decide)
      · rw [hcontents, htot, List.take_zero, overwrite_nil]

/-! ## Insertion and deletion -/

/-- What `dirlookup` finds: an inode number and the offset of its entry. -/
def dirFound (s : Disk) (d : Dinode) (name : List UInt8) : Option (ℕ × ℕ) :=
  (SlotMap.lookup (name.take DIRSIZ) (slots s d)).map fun p => (p.2, p.1 * Dirent.size)

/-- `dirlookup` of every name returns what the map `m` has for its first `DIRSIZ` bytes. -/
def LooksUp (sb : Superblock) (s : Disk) (d : Dinode) (m : List UInt8 → Option ℕ) : Prop :=
  ∀ name, 0 ∉ name → Ends (dirlookup sb d name) (fun r s' => s' = s ∧
    r = (some (dirFound s d name), d) ∧ (dirFound s d name).map Prod.fst = m (name.take DIRSIZ)) s
    NoStop

/-- A directory on the disk after an operation on it: the map in it is `m`, and the other files are
the same. -/
structure DirUpdated (sb : Superblock) (s : Disk) (i : ℕ) (m : List UInt8 → Option ℕ) (s' : Disk) :
    Prop where
  consistent : Consistent sb s'
  isDir : IsDir s' (s'.dinode i)
  looksUp : LooksUp sb s' (s'.dinode i) m
  others : ∀ j, j ≠ i → s'.dinode j = s.dinode j ∧
    contents s' (s'.dinode j) = contents s (s.dinode j)

theorem looksUp (h : Consistent sb s) (hdir : IsDir s (s.dinode i)) :
    LooksUp sb s (s.dinode i) (dirMap s (s.dinode i)) := by
  intro name hname
  refine (ends_dirlookup h.held (h.noHoles i) hdir hname).post ?_
  rintro _ _ ⟨rfl, rfl⟩
  refine ⟨rfl, rfl, ?_⟩
  rw [dirFound, Option.map_map]
  rfl

/-- The directory is the same. -/
theorem Entered.dirUpdated_noRoom {n : ℕ} {new : List UInt8} {r : ℤ × Dinode}
    (h : Entered sb s i n new r s') (hdir : IsDir s (s.dinode i))
    (hw : ¬Writable sb s (s.dinode i) n) : DirUpdated sb s i (dirMap s (s.dinode i)) s' := by
  have hcontents := (h.noRoom hw).2
  have hslots : slots s' r.2 = slots s (s.dinode i) := by rw [slots, hcontents, slots]
  have hsize : r.2.size.toNat = (s.dinode i).size.toNat := by
    rw [← length_contents s', hcontents, length_contents]
  have hisDir : IsDir s' (s'.dinode i) := by
    rw [h.dinode]
    exact ⟨h.type.trans hdir.type, hsize ▸ hdir.size, hslots ▸ hdir.distinct⟩
  refine ⟨h.consistent, hisDir, ?_, h.others⟩
  have hlooks := looksUp h.consistent hisDir
  rwa [h.dinode, dirMap, hslots, ← h.dinode] at hlooks

theorem Entered.slots_eq {n : ℕ} {new : List UInt8} {r : ℤ × Dinode}
    (h : Entered sb s i n new r s') (hdir : IsDir s (s.dinode i))
    (hn : n ≤ (slots s (s.dinode i)).length) (hnew : new.length = Dirent.size)
    (hw : Writable sb s (s.dinode i) n) :
    slots s' r.2 = overwrite (slots s (s.dinode i)) n [(Dirent.ofBytes new).slot] := by
  rw [length_slots] at hn
  rw [slots, (h.written hw).2, dirents_overwrite (by rw [length_contents]; exact hdir.size)
    (by rwa [length_contents]) hnew, map_overwrite]
  rfl

/-- An entry has changed. -/
theorem Entered.dirUpdated {n : ℕ} {new : List UInt8} {r : ℤ × Dinode}
    (h : Entered sb s i n new r s') (hdir : IsDir s (s.dinode i))
    (hn : n ≤ (slots s (s.dinode i)).length) (hnew : new.length = Dirent.size)
    (hw : Writable sb s (s.dinode i) n) {m : List UInt8 → Option ℕ}
    (hmap : SlotMap.Distinct (overwrite (slots s (s.dinode i)) n [(Dirent.ofBytes new).slot]) ∧
      SlotMap.toMap (overwrite (slots s (s.dinode i)) n [(Dirent.ofBytes new).slot]) = m) :
    DirUpdated sb s i m s' ∧
      r.2.size.toNat = max (s.dinode i).size.toNat (n * Dirent.size + Dirent.size) := by
  have hcontents := (h.written hw).2
  have hslots := h.slots_eq hdir hn hnew hw
  have hlen := hn
  rw [length_slots] at hlen
  have hsize : r.2.size.toNat = max (s.dinode i).size.toNat (n * Dirent.size + Dirent.size) := by
    rw [← length_contents s', hcontents, length_overwrite, length_contents, hnew]
    rw [length_contents]
    have := hdir.size
    simp only [Dirent.size_eq] at *
    omega
  have hisDir : IsDir s' (s'.dinode i) := by
    rw [h.dinode]
    refine ⟨h.type.trans hdir.type, ?_, hslots ▸ hmap.1⟩
    have := hdir.size
    rw [hsize]
    simp only [Dirent.size_eq] at *
    omega
  refine ⟨⟨h.consistent, hisDir, ?_, h.others⟩, hsize⟩
  have hlooks := looksUp h.consistent hisDir
  rwa [h.dinode, dirMap, hslots, hmap.2, ← h.dinode] at hlooks

/-- No slot can be written for a name that is not there. -/
def NoSlot (sb : Superblock) (s : Disk) (d : Dinode) : Prop :=
  ¬Writable sb s d (SlotMap.firstFree (slots s d))

instance (sb : Superblock) (s : Disk) (d : Dinode) : Decidable (NoSlot sb s d) :=
  inferInstanceAs (Decidable (¬_))

/-- What `dirlink` does: it fails if the name is there or no slot can be written, and otherwise
inserts the name; the directory grows only if no entry is free. -/
def Links (sb : Superblock) (s : Disk) (i : ℕ) (name : List UInt8) (inum : ℕ)
    (r : Option ℤ × Dinode) (s' : Disk) : Prop :=
  if dirMap s (s.dinode i) (name.take DIRSIZ) ≠ none ∨ NoSlot sb s (s.dinode i) then
    r = (some (-1), s'.dinode i) ∧ DirUpdated sb s i (dirMap s (s.dinode i)) s'
  else
    r = (some 0, s'.dinode i) ∧ DirUpdated sb s i
      (Function.update (dirMap s (s.dinode i)) (name.take DIRSIZ) (some inum)) s' ∧
    dirFound s' r.2 name =
      some (inum, SlotMap.firstFree (slots s (s.dinode i)) * Dirent.size) ∧
    (none ∈ slots s (s.dinode i) → r.2.size = (s.dinode i).size)

/-- What the write of `sys_unlink` does. -/
def Unlinks (sb : Superblock) (s : Disk) (i : ℕ) (name : List UInt8) (r : Option Unit × Dinode)
    (s' : Disk) : Prop :=
  r = (some (), s'.dinode i) ∧ DirUpdated sb s i
    (Function.update (dirMap s (s.dinode i)) (name.take DIRSIZ) none) s'

theorem slot_zero : (Dirent.ofBytes (List.replicate Dirent.size 0)).slot = none := by decide

/-- The bytes of a new entry. -/
theorem slot_bytes {name : List UInt8} (hname : 0 ∉ name) {inum : ℕ} (h0 : 0 < inum)
    (hlt : inum < 65536) (de : Dirent) (hde : de.name.length = DIRSIZ) :
    (⟨.ofNat inum, strncpy de.name name DIRSIZ⟩ : Dirent).bytes.length = Dirent.size ∧
      (Dirent.ofBytes (⟨.ofNat inum, strncpy de.name name DIRSIZ⟩ : Dirent).bytes).slot =
        some (name.take DIRSIZ, inum) := by
  obtain ⟨hlen, hkey⟩ := strncpy_eq hname de.name hde
  generalize strncpy de.name name DIRSIZ = field at hlen hkey
  have hinum : (UInt16.ofNat inum).toNat = inum := Nat.mod_eq_of_lt hlt
  have hsum : UInt16.ofNat ((UInt8.ofNat inum).toNat + 2 ^ 8 *
      (UInt8.ofNat (inum / 2 ^ 8)).toNat) = UInt16.ofNat inum := by
    have hlow : (UInt8.ofNat inum).toNat = inum % 2 ^ 8 := UInt8.toNat_ofNat'
    have hhigh : (UInt8.ofNat (inum / 2 ^ 8)).toNat = inum / 2 ^ 8 % 2 ^ 8 := UInt8.toNat_ofNat'
    rw [hlow, hhigh]
    congr 1
    omega
  have hof : Dirent.ofBytes (⟨.ofNat inum, field⟩ : Dirent).bytes = ⟨.ofNat inum, field⟩ := by
    simp only [Dirent.ofBytes, Dirent.bytes, hinum, List.getD_cons_zero, List.getD_cons_succ,
      List.drop_succ_cons, List.drop_zero, hsum]
  have hne : UInt16.ofNat inum ≠ 0 := fun heq => by
    rw [← UInt16.toNat_inj, hinum] at heq
    exact h0.ne' heq
  refine ⟨?_, ?_⟩
  · rw [Dirent.bytes, List.length_cons, List.length_cons, hlen]
    rfl
  · rw [hof, Dirent.slot, if_neg hne, hinum, Dirent.key, List.take_of_length_le hlen.le, hkey]

/-- `dirlink`, if its write is not stopped. -/
theorem ends_dirlink (h : Consistent sb s) (hdir : IsDir s (s.dinode i)) {name : List UInt8}
    (hname : 0 ∉ name) {inum : ℕ} (h0 : 0 < inum) (hlt : inum < 65536) (de : Dirent)
    (hde : de.name.length = DIRSIZ)
    (hwrite : ∀ n ≤ (slots s (s.dinode i)).length, ∀ new : List UInt8,
      new.length = Dirent.size →
      Ends (writei sb new i (s.dinode i) (.ofNat (n * Dirent.size)) (.ofNat Dirent.size))
        (Entered sb s i n new) s E) :
    Ends (dirlink sb i (s.dinode i) name inum de) (Links sb s i name inum) s E := by
  have hno := h.noHoles i
  rw [dirlink, ends_bind]
  refine (ends_dirlookup h.held hno hdir hname).post ?_
  rintro r t ⟨ht, hr⟩
  rw [ht, hr]
  dsimp only
  cases hlookup : SlotMap.lookup (name.take DIRSIZ) (slots s (s.dinode i)) with
  | some p =>
    have hfound : dirMap s (s.dinode i) (name.take DIRSIZ) ≠ none := by
      rw [dirMap, SlotMap.toMap, hlookup]
      simp
    have hsame : DirUpdated sb s i (dirMap s (s.dinode i)) s :=
      ⟨h, hdir, looksUp h hdir, fun _ _ => ⟨rfl, rfl⟩⟩
    rw [Option.map_some]
    change Links sb s i name inum (some (-1), s.dinode i) s
    rw [Links, if_pos (Or.inl hfound)]
    exact ⟨rfl, hsame⟩
  | none =>
    have hmap : dirMap s (s.dinode i) (name.take DIRSIZ) = none := by
      rw [dirMap, SlotMap.toMap, hlookup]
      rfl
    rw [Option.map_none]
    dsimp only
    rw [ends_bind]
    have hloop : Ends (emptyLoop sb (direntRounds (s.dinode i)) (0 * Dirent.size) de (s.dinode i))
        _ s E := ends_emptyLoop h.held hno _ 0 de
      (by rw [Nat.zero_add, direntRounds_eq hdir.size]) hde
    rw [Nat.zero_mul] at hloop
    refine hloop.post ?_
    rintro r t ⟨ht, de', hde', hr⟩
    rw [ht, hr]
    dsimp only
    rw [Nat.zero_add, List.drop_zero, ends_bind]
    obtain ⟨hlen, hslot⟩ := slot_bytes hname h0 hlt de' hde'
    generalize (⟨.ofNat inum, strncpy de'.name name DIRSIZ⟩ : Dirent).bytes = new at hlen hslot ⊢
    have hle := SlotMap.firstFree_le (slots s (s.dinode i))
    refine (hwrite _ hle new hlen).post ?_
    rintro ⟨r, d'⟩ s' he
    have hd' : d' = s'.dinode i := he.dinode.symm
    by_cases hw : Writable sb s (s.dinode i) (SlotMap.firstFree (slots s (s.dinode i)))
    · have hins := SlotMap.toMap_insert hdir.distinct hmap (v := inum)
        (SlotMap.getElem?_firstFree _) hle
      obtain ⟨hupdated, hsize⟩ := he.dirUpdated hdir hle hlen hw (hslot.symm ▸ hins)
      have hr : r = Dirent.size := (he.written hw).1
      change Links sb s i name inum (some (if r ≠ Dirent.size then -1 else 0), d') s'
      have hnot : ¬(dirMap s (s.dinode i) (name.take DIRSIZ) ≠ none ∨ NoSlot sb s (s.dinode i)) :=
        fun hor => hor.elim (· hmap) (· hw)
      rw [Links, if_neg hnot, if_neg (not_not.mpr hr)]
      refine ⟨by rw [hd'], hupdated, ?_, fun hnone => ?_⟩
      · have hslots := he.slots_eq hdir hle hlen hw
        have hget : (slots s' d')[SlotMap.firstFree (slots s (s.dinode i))]? =
            some (some (name.take DIRSIZ, inum)) := by
          rw [hslots, hslot, getElem?_overwrite hle, if_neg (lt_irrefl _), if_pos (by simp)]
          simp
        have hdistinct : SlotMap.Distinct (slots s' d') := hd' ▸ hupdated.isDir.distinct
        rw [dirFound, (SlotMap.lookup_eq_some_iff hdistinct).mpr hget]
        rfl
      · have hlt := SlotMap.firstFree_lt hnone
        have hmod := hdir.size
        rw [length_slots] at hlt
        rw [← UInt32.toNat_inj, hsize]
        simp only [Dirent.size_eq] at hlt hmod ⊢
        omega
    · have hr : r ≠ Dirent.size := (he.noRoom hw).1
      change Links sb s i name inum (some (if r ≠ Dirent.size then -1 else 0), d') s'
      have hno : NoSlot sb s (s.dinode i) := hw
      rw [Links, if_pos (Or.inr hno), if_pos hr]
      exact ⟨by rw [hd'], he.dirUpdated_noRoom hdir hw⟩

/-- The write of `sys_unlink`, if it is not stopped. -/
theorem ends_unlinkDirent (h : Consistent sb s) (hdir : IsDir s (s.dinode i)) {name : List UInt8}
    {inum off : ℕ} (hfound : dirFound s (s.dinode i) name = some (inum, off))
    (hwrite : ∀ n ≤ (slots s (s.dinode i)).length, ∀ new : List UInt8,
      new.length = Dirent.size →
      Ends (writei sb new i (s.dinode i) (.ofNat (n * Dirent.size)) (.ofNat Dirent.size))
        (Entered sb s i n new) s E) :
    Ends (unlinkDirent sb i (s.dinode i) off) (Unlinks sb s i name) s E := by
  obtain ⟨⟨n, v⟩, hlookup, heq⟩ := Option.map_eq_some_iff.mp hfound
  obtain rfl : n * Dirent.size = off := congrArg Prod.snd heq
  have hlt : n < (slots s (s.dinode i)).length :=
    (List.getElem?_eq_some_iff.mp (SlotMap.getElem?_of_lookup hlookup)).1
  have hlen : (List.replicate Dirent.size (0 : UInt8)).length = Dirent.size :=
    List.length_replicate
  have hw : Writable sb s (s.dinode i) n := writable_of_lt (h.noHoles i) hdir.size hlt
  rw [unlinkDirent, ends_bind]
  refine (hwrite n hlt.le _ hlen).post ?_
  rintro ⟨r, d'⟩ s' he
  have hd' : d' = s'.dinode i := he.dinode.symm
  have hr : r = Dirent.size := (he.written hw).1
  change Unlinks sb s i name (if r ≠ Dirent.size then none else some (), d') s'
  rw [Unlinks, if_neg (not_not.mpr hr), hd']
  exact ⟨rfl, (he.dirUpdated hdir hlt.le hlen hw
    (slot_zero ▸ SlotMap.toMap_erase hdir.distinct hlookup)).1⟩

theorem rounds_dirent (n : ℕ) : rounds (n * Dirent.size) Dirent.size = 1 := by
  have h16 := Dirent.size_eq
  rw [rounds, if_neg (by decide), show BSIZE = 1024 from rfl, h16]
  omega

/-- The write of an entry is not stopped if there is room in the log. -/
theorem ends_writeDirent_noStop (h : Consistent sb s) (hout : 1 ≤ s.outstanding) {n : ℕ}
    (hsize : (s.dinode i).size.toNat % Dirent.size = 0) (hn : n ≤ (slots s (s.dinode i)).length)
    {new : List UInt8} (hnew : new.length = Dirent.size)
    (hroom : s.logged.length + 5 < LOGBLOCKS) :
    Ends (writei sb new i (s.dinode i) (.ofNat (n * Dirent.size)) (.ofNat Dirent.size))
      (Entered sb s i n new) s NoStop := by
  have hmax := (h.noHoles i).size
  have hbig : MAXFILE * BSIZE < 2 ^ 31 := by decide
  have hoff : (UInt32.ofNat (n * Dirent.size)).toNat = n * Dirent.size := by
    rw [UInt32.toNat_ofNat']
    rw [length_slots] at hn
    simp only [Dirent.size_eq] at hn ⊢
    omega
  have hrounds : rounds (UInt32.ofNat (n * Dirent.size)).toNat (UInt32.ofNat Dirent.size).toNat = 1 := by
    rw [hoff, toNat_direntSize, rounds_dirent]
  have hpays : Pays 5 (writei sb new i (s.dinode i) (.ofNat (n * Dirent.size))
      (.ofNat Dirent.size)) _ s ∅ := pays_writei new i (by rw [hrounds, Finset.card_empty])
  refine (ends_writeDirent h hout hsize hn hnew).noStop hpays (fun b hb => ?_) (Nat.zero_le _) ?_
  · exact (Finset.notMem_empty b hb).elim
  · rwa [Finset.card_empty, Nat.sub_zero]

/-- **Directories are finite maps.** `dirlookup` looks a name up, `dirlink` inserts one, and the write
of `sys_unlink` at the offset that `dirlookup` has reported deletes it; only the first `DIRSIZ` bytes
of a name count. A run can only be stopped by a full log, and is not if there is room in it for five
blocks. -/
theorem directory_is_map (sb : Superblock) (s : Disk) (h : Consistent sb s) (i : ℕ)
    (hdir : IsDir s (s.dinode i)) :
    LooksUp sb s (s.dinode i) (dirMap s (s.dinode i)) ∧
    ∀ name, 0 ∉ name → 1 ≤ s.outstanding →
      (∀ inum, 0 < inum → inum < 65536 → ∀ de : Dirent, de.name.length = DIRSIZ →
        Ends (dirlink sb i (s.dinode i) name inum de) (Links sb s i name inum) s ∧
        (s.logged.length + 5 < LOGBLOCKS →
          Ends (dirlink sb i (s.dinode i) name inum de) (Links sb s i name inum) s NoStop)) ∧
      ∀ inum off, dirFound s (s.dinode i) name = some (inum, off) →
        Ends (unlinkDirent sb i (s.dinode i) off) (Unlinks sb s i name) s ∧
        (s.logged.length + 5 < LOGBLOCKS →
          Ends (unlinkDirent sb i (s.dinode i) off) (Unlinks sb s i name) s NoStop) := by
  refine ⟨looksUp h hdir, fun name hname hout => ⟨fun inum h0 hlt de hde => ⟨?_, fun hroom => ?_⟩,
    fun inum off hfound => ⟨?_, fun hroom => ?_⟩⟩⟩
  · exact ends_dirlink h hdir hname h0 hlt de hde fun n hn new hnew =>
      ends_writeDirent h hout hdir.size hn hnew
  · exact ends_dirlink h hdir hname h0 hlt de hde fun n hn new hnew =>
      ends_writeDirent_noStop h hout hdir.size hn hnew hroom
  · exact ends_unlinkDirent h hdir hfound fun n hn new hnew =>
      ends_writeDirent h hout hdir.size hn hnew
  · exact ends_unlinkDirent h hdir hfound fun n hn new hnew =>
      ends_writeDirent_noStop h hout hdir.size hn hnew hroom

/-! ## A root directory -/

/-- `smallDisk` with a root directory in place of the file, whose entries are `.` and `..`. -/
def rootDisk : Disk :=
  { smallDisk with
    dinode := fun i =>
      if i = 1 then { smallDisk.dinode 1 with type := T_DIR, size := 32 } else .zero 0
    data := fun b k =>
      if b = 47 then ((⟨1, 46 :: List.replicate 13 0⟩ : Dirent).bytes ++
        (⟨1, 46 :: 46 :: List.replicate 12 0⟩ : Dirent).bytes).getD k 0
      else 0 }

theorem slot_rootDisk (i : ℕ) (k : Slot) :
    rootDisk.slot (rootDisk.dinode i) k = smallDisk.slot (smallDisk.dinode i) k := by
  by_cases hi : i = 1
  · subst hi
    cases k <;> rfl
  · have hd : smallDisk.dinode i = .zero 0 := if_neg hi
    have hd' : rootDisk.dinode i = .zero 0 := if_neg hi
    rw [hd, hd', slot_of_addrs_eq_zero fun _ => rfl, slot_of_addrs_eq_zero fun _ => rfl]

theorem consistent_rootDisk : Consistent newSuperblock rootDisk where
  held := rfl
  metadata := consistent_smallDisk.metadata
  owned := by
    refine ⟨fun i k h0 => ?_, fun i k i' k' h0 he => ?_⟩
    · rw [slot_rootDisk] at h0 ⊢
      exact consistent_smallDisk.owned.used i k h0
    · rw [slot_rootDisk] at h0 he
      rw [slot_rootDisk] at he
      exact consistent_smallDisk.owned.inj i k i' k' h0 he
  noHoles i := by
    by_cases hi : i = 1
    · subst hi
      refine ⟨by decide, fun bn hbn => ?_⟩
      obtain rfl : bn = 0 := by
        have hsize : (rootDisk.dinode 1).size.toNat = 32 := rfl
        rw [hsize, BSIZE] at hbn
        omega
      decide
    · have hd : rootDisk.dinode i = .zero 0 := if_neg hi
      rw [hd]
      exact ⟨Nat.zero_le _, fun bn hbn => (Nat.not_lt_zero _ hbn).elim⟩

theorem slots_rootDisk :
    slots rootDisk (rootDisk.dinode 1) = [some ([46], 1), some ([46, 46], 1)] := by
  decide

theorem isDir_rootDisk : IsDir rootDisk (rootDisk.dinode 1) where
  type := rfl
  size := rfl
  distinct := by
    rw [slots_rootDisk]
    exact SlotMap.distinct_of_nodup (by decide)

/-- A new name in the root directory. -/
theorem rootDisk_links : Ends (dirlink newSuperblock 1 (rootDisk.dinode 1) [97] 2
    ⟨0, List.replicate 14 0⟩) (Links newSuperblock rootDisk 1 [97] 2) rootDisk NoStop :=
  (((directory_is_map newSuperblock rootDisk consistent_rootDisk 1 isDir_rootDisk).2 [97]
    (by decide) (by decide)).1 2 (by decide) (by decide) _ (by decide)).2 (by decide)

end Xv6.Fs
