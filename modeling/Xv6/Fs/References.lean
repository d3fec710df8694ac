import Mathlib.Data.Finset.Card
import Mathlib.Data.Finset.Dedup
import Xv6.Fs.Dirlink

/-!
# References to inodes

`iget`, `idup`, `ilock`, `iunlock`, `iput` and `dirlookup` of fs.c, as one process runs them. Of the
inode table it sees how many references each inode has and how many entries are free, the copies of
the inodes and which of them are valid, and the inodes that it has locked itself.

`Refs s₀ s l held` says that from `s₀` to `s` the process has taken the references `l` and the
locks `held`, and that nothing on the disk has changed. Two panics may come up: `iget` finds no
free entry, and `ilock` finds an inode on the disk that is free.
-/

namespace Xv6.Path

open Fs (BlockCall BlockSig DIRSIZ Superblock T_DIR)
open Inode (Dinode)

/-! ## The inode table -/

/-- The disk, the copies of the inodes and which of them are valid, the references to each inode,
the free entries of the table, and what the process has locked. -/
structure Inodes where
  disk : Fs.Disk
  copy : ℕ → Dinode
  valid : ℕ → Bool
  ref : ℕ → ℕ
  free : ℕ
  held : List ℕ

/-- The type on the disk. -/
def Inodes.type (s : Inodes) (x : ℕ) : Int16 := (s.disk.dinode x).type

/-- The names in a directory on the disk, and the inode numbers in their entries. -/
def Inodes.entries (s : Inodes) (x : ℕ) : List UInt8 → Option ℕ :=
  Fs.dirMap s.disk (s.disk.dinode x)

/-- Why a program does not go on. -/
inductive Stop
  | disk (e : Fs.Stop)
  /-- `"iget: no inodes"` -/
  | noInodes
  /-- `"ilock"` -/
  | ilock
  /-- `"ilock: no type"` -/
  | noType
  /-- `"iunlock"` -/
  | iunlock
  /-- `"dirlookup not DIR"` or `"dirlookup read"` -/
  | dirlookup
  /-- The process has locked the inode that it waits for. -/
  | deadlock
  deriving DecidableEq

/-- Calls into the buffer cache, and accesses to the inode table and to the sleeplocks of its
entries. `iget` and `idup` hold `itable.lock` all along. -/
inductive InodeCall
  | block (o : BlockCall)
  | iget (inum : ℕ)
  | idup (inum : ℕ)
  /-- `ip->ref--` -/
  | drop (inum : ℕ)
  | ref (inum : ℕ)
  | valid (inum : ℕ)
  | copy (inum : ℕ)
  | setValid (inum : ℕ) (v : Bool)
  | setCopy (inum : ℕ) (d : Dinode)
  | acquiresleep (inum : ℕ)
  | holdingsleep (inum : ℕ)
  | releasesleep (inum : ℕ)
  | panic (e : Stop)

/-- The calls with their results. -/
abbrev InodeSig : Signature where
  Call := InodeCall
  Result
    | .block o => BlockSig.Result o
    | .ref _ => ℕ
    | .valid _ | .holdingsleep _ => Bool
    | .copy _ => Dinode
    | .panic _ => Empty
    | _ => Unit

/-- What the calls do. -/
def inodes : Handler InodeSig Inodes Stop
  | .block o, s =>
    match Fs.disk o s.disk with
    | .ok (r, d) => .ok (r, { s with disk := d })
    | .error e => .error (.disk e)
  | .iget x, s =>
    if s.ref x ≠ 0 then .ok ((), { s with ref := Function.update s.ref x (s.ref x + 1) })
    else if s.free = 0 then .error .noInodes
    else .ok ((), { s with
      ref := Function.update s.ref x 1
      valid := Function.update s.valid x false
      free := s.free - 1 })
  | .idup x, s => .ok ((), { s with ref := Function.update s.ref x (s.ref x + 1) })
  | .drop x, s => .ok ((), { s with
      ref := Function.update s.ref x (s.ref x - 1)
      free := if s.ref x = 1 then s.free + 1 else s.free })
  | .ref x, s => .ok (s.ref x, s)
  | .valid x, s => .ok (s.valid x, s)
  | .copy x, s => .ok (s.copy x, s)
  | .setValid x v, s => .ok ((), { s with valid := Function.update s.valid x v })
  | .setCopy x d, s => .ok ((), { s with copy := Function.update s.copy x d })
  | .acquiresleep x, s =>
    if x ∈ s.held then .error .deadlock else .ok ((), { s with held := x :: s.held })
  | .holdingsleep x, s => .ok (decide (x ∈ s.held), s)
  | .releasesleep x, s => .ok ((), { s with held := s.held.erase x })
  | .panic e, _ => .error e

/-- A program over these calls. -/
abbrev M (α : Type) : Type := Program InodeSig α

/-- A program over the buffer cache. -/
def block {α : Type} (c : Fs.M α) : M α := c.translate fun o => .op (S := InodeSig) (.block o)

/-- Find the inode with number `x`, with a reference more. -/
def iget (x : ℕ) : M Unit := .op (S := InodeSig) (.iget x)

def idup (x : ℕ) : M Unit := .op (S := InodeSig) (.idup x)

def drop (x : ℕ) : M Unit := .op (S := InodeSig) (.drop x)

/-- `ip->ref` -/
def ref (x : ℕ) : M ℕ := .op (S := InodeSig) (.ref x)

/-- `ip->valid` -/
def valid (x : ℕ) : M Bool := .op (S := InodeSig) (.valid x)

/-- The fields of `ip` that are on the disk as well. -/
def copy (x : ℕ) : M Dinode := .op (S := InodeSig) (.copy x)

def setValid (x : ℕ) (v : Bool) : M Unit := .op (S := InodeSig) (.setValid x v)

def setCopy (x : ℕ) (d : Dinode) : M Unit := .op (S := InodeSig) (.setCopy x d)

def acquiresleep (x : ℕ) : M Unit := .op (S := InodeSig) (.acquiresleep x)

def holdingsleep (x : ℕ) : M Bool := .op (S := InodeSig) (.holdingsleep x)

def releasesleep (x : ℕ) : M Unit := .op (S := InodeSig) (.releasesleep x)

def panic {α : Type} (e : Stop) : M α := .call (S := InodeSig) (.panic e) nofun

/-! ## The programs -/

section

variable (sb : Superblock)

/-- Lock the given inode. Reads the inode from disk if necessary. -/
def ilock (x : ℕ) : M Unit := do
  if (← ref x) < 1 then panic .ilock
  else
    acquiresleep x
    if (← valid x) = false then
      let dip ← block (Fs.iread sb x)
      setCopy x dip
      setValid x true
      if dip.type = 0 then panic .noType else return
    else return

/-- Unlock the given inode. -/
def iunlock (x : ℕ) : M Unit := do
  if (← holdingsleep x) = false ∨ (← ref x) < 1 then panic .iunlock else releasesleep x

/-- `iput`: the inode has no links and no other references. -/
def iputLast (x : ℕ) : M Unit := do
  acquiresleep x
  let d ← block (Fs.itrunc sb x (← copy x))
  setCopy x d.untype
  block (Fs.iupdate sb x d.untype)
  setValid x false
  releasesleep x

/-- Drop a reference to an in-memory inode. -/
def iput (x : ℕ) : M Unit := do
  if (← ref x) = 1 ∧ (← valid x) = true ∧ (← copy x).nlink = 0 then
    iputLast sb x
    drop x
  else drop x

/-- Common idiom: unlock, then put. -/
def iunlockput (x : ℕ) : M Unit := do
  iunlock x
  iput sb x

/-- `dirlookup`, with the reference that it takes to the inode that it finds. -/
def dirlookup (x : ℕ) (name : List UInt8) : M (Option ℕ) := do
  let (found, d) ← block (Fs.dirlookup sb (← copy x) name)
  setCopy x d
  match found with
  | none => panic .dirlookup
  | some none => return none
  | some (some (inum, _)) =>
    iget inum
    return some inum

end

/-! ## References -/

/-- The free entries of the table that the references `l` take. -/
def taken (s₀ : Inodes) (l : List ℕ) : ℕ := (l.toFinset.filter fun x => s₀.ref x = 0).card

/-- From `s₀` to `s` the process has taken the references `l` and the locks `held`, and nothing on
the disk has changed. What is valid is a copy of an inode that is not free. -/
structure Refs (s₀ s : Inodes) (l held : List ℕ) : Prop where
  disk : s.disk = s₀.disk
  copy : ∀ y, 1 ≤ s.ref y → s.valid y = true →
    s.copy y = s₀.disk.dinode y ∧ s₀.type y ≠ 0
  ref : ∀ y, s.ref y = s₀.ref y + l.count y
  free : s.free + taken s₀ l = s₀.free
  locked : ∀ y ∈ held, y ∈ l ∧ s.valid y = true
  held : s.held = held

/-- An inode that is not free has links, or others refer to it. -/
def Linked (s : Inodes) : Prop := ∀ x, s.type x ≠ 0 → (s.disk.dinode x).nlink ≠ 0 ∨ 1 ≤ s.ref x

/-- `iget` of `y` does not need an entry of the table, or finds one, after the references `l` have
been taken. -/
def HasRoom (s₀ : Inodes) (l : List ℕ) (y : ℕ) : Prop :=
  s₀.ref y + l.count y ≠ 0 ∨ taken s₀ l < s₀.free

instance (s₀ : Inodes) (l : List ℕ) (y : ℕ) : Decidable (HasRoom s₀ l y) :=
  inferInstanceAs (Decidable (_ ∨ _))

/-- Nothing stops the program. -/
def NoStop (_ : Stop) : Prop := False

/-- A run of `c` from `s` ends in `Q` or stops in `E`. -/
abbrev Ends {α : Type} (c : M α) (Q : α → Inodes → Prop) (s : Inodes) (E : Stop → Prop) : Prop :=
  c.Meets inodes Q E s

variable {sb : Superblock} {s₀ s : Inodes} {l held : List ℕ} {x : ℕ} {E : Stop → Prop}
  {α : Type}

theorem taken_cons (s₀ : Inodes) (x : ℕ) (l : List ℕ) :
    taken s₀ (x :: l) = taken s₀ l + if s₀.ref x + l.count x = 0 then 1 else 0 := by
  rw [taken, taken, List.toFinset_cons, Finset.filter_insert]
  by_cases h : s₀.ref x = 0
  · rw [if_pos h]
    by_cases hx : x ∈ l
    · have hcount := List.count_pos_iff.mpr hx
      rw [if_neg (by omega), Nat.add_zero, Finset.insert_eq_of_mem]
      simp [hx, h]
    · have hcount := List.count_eq_zero.mpr hx
      rw [if_pos (by omega), Finset.card_insert_of_notMem]
      simp [hx]
  · rw [if_neg h, if_neg (by omega), Nat.add_zero]

theorem taken_singleton_le (s : Inodes) (x : ℕ) : taken s [x] ≤ 1 := by
  rw [taken_cons]
  have h : taken s [] = 0 := rfl
  rw [h]
  split_ifs <;> omega

theorem count_cons_self_or (x y : ℕ) (l : List ℕ) :
    (x :: l).count y = if y = x then l.count x + 1 else l.count y := by
  split_ifs with h
  · rw [h, List.count_cons_self]
  · exact List.count_cons_of_ne (Ne.symm h)

namespace Refs

theorem refl (hcopy : ∀ y, 1 ≤ s.ref y → s.valid y = true →
    s.copy y = s.disk.dinode y ∧ s.type y ≠ 0) (hheld : s.held = []) : Refs s s [] [] :=
  ⟨rfl, hcopy, fun _ => rfl, rfl, nofun, hheld⟩

theorem perm {l' : List ℕ} (h : Refs s₀ s l held) (hp : l.Perm l') : Refs s₀ s l' held :=
  { h with
    ref := fun x => by rw [h.ref, hp.count_eq]
    free := by rw [taken, ← List.toFinset_eq_of_perm _ _ hp, ← taken, h.free]
    locked := fun y hy => ⟨hp.mem_iff.mp (h.locked y hy).1, (h.locked y hy).2⟩ }

theorem ref_pos (h : Refs s₀ s (x :: l) held) : 1 ≤ s.ref x := by
  rw [h.ref, List.count_cons_self]
  omega

/-- One more reference to an inode in the table. -/
theorem again (h : Refs s₀ s l held) (hx : s.ref x ≠ 0) :
    Refs s₀ { s with ref := Function.update s.ref x (s.ref x + 1) } (x :: l) held where
  disk := h.disk
  copy y hy hvalid := by
    refine h.copy y ?_ hvalid
    dsimp only at hy
    rw [Function.update_apply] at hy
    split_ifs at hy with he
    · rw [he]
      omega
    · exact hy
  ref y := by
    dsimp only
    rw [Function.update_apply, count_cons_self_or]
    split_ifs with hy
    · rw [hy, h.ref, Nat.add_assoc]
    · exact h.ref y
  free := by
    have hsum := h.free
    rw [taken_cons, ← h.ref, if_neg hx]
    exact hsum
  held := h.held
  locked y hy := ⟨List.mem_cons_of_mem _ (h.locked y hy).1, (h.locked y hy).2⟩

/-- The first reference to an inode, which takes an entry of the table. -/
theorem recycle (h : Refs s₀ s l held) (hx : s.ref x = 0) (hfree : s.free ≠ 0) :
    Refs s₀ { s with
      ref := Function.update s.ref x 1
      valid := Function.update s.valid x false
      free := s.free - 1 } (x :: l) held where
  disk := h.disk
  copy y hy hvalid := by
    dsimp only at hy hvalid ⊢
    rw [Function.update_apply] at hy hvalid
    split_ifs at hy hvalid with he
    exact h.copy y hy hvalid
  ref y := by
    have hy := h.ref y
    dsimp only
    rw [Function.update_apply, count_cons_self_or]
    split_ifs with he
    · subst he
      omega
    · exact hy
  free := by
    have hsum := h.free
    rw [taken_cons, ← h.ref, if_pos hx]
    dsimp only
    omega
  held := h.held
  locked y hy := by
    obtain ⟨hmem, hvalid⟩ := h.locked y hy
    have hcount := List.count_pos_iff.mpr hmem
    have href := h.ref y
    refine ⟨List.mem_cons_of_mem _ hmem, ?_⟩
    dsimp only
    rw [Function.update_of_ne (by rintro rfl; omega)]
    exact hvalid

/-- One reference less. -/
theorem drop (h : Refs s₀ s (x :: l) []) :
    Refs s₀ { s with
      ref := Function.update s.ref x (s.ref x - 1)
      free := if s.ref x = 1 then s.free + 1 else s.free } l [] where
  disk := h.disk
  copy y hy hvalid := by
    refine h.copy y ?_ hvalid
    dsimp only at hy
    rw [Function.update_apply] at hy
    split_ifs at hy with he
    · rw [he]
      omega
    · exact hy
  ref y := by
    have hy' := h.ref y
    rw [count_cons_self_or] at hy'
    dsimp only
    rw [Function.update_apply]
    split_ifs at hy' ⊢ with hy
    · subst hy
      omega
    · exact hy'
  free := by
    have hsum := h.free
    have hx := h.ref x
    rw [taken_cons] at hsum
    rw [List.count_cons_self] at hx
    dsimp only
    split_ifs at hsum ⊢ <;> omega
  held := h.held
  locked := nofun

/-- The process locks an inode whose copy is valid. -/
theorem lock (h : Refs s₀ s (x :: l) []) (hvalid : s.valid x = true) :
    Refs s₀ { s with held := x :: s.held } (x :: l) [x] where
  disk := h.disk
  copy := h.copy
  ref := h.ref
  free := h.free
  held := congrArg (x :: ·) h.held
  locked y hy := by
    rw [List.mem_singleton.mp hy]
    exact ⟨List.mem_cons_self, hvalid⟩

/-- A copy of an inode that is not free. -/
theorem read (h : Refs s₀ s l held) (hx : s₀.type x ≠ 0) :
    Refs s₀ { s with
      copy := Function.update s.copy x (s₀.disk.dinode x)
      valid := Function.update s.valid x true } l held where
  disk := h.disk
  copy y hy hvalid := by
    dsimp only at hvalid ⊢
    by_cases he : y = x
    · subst he
      rw [Function.update_self]
      exact ⟨rfl, hx⟩
    · rw [Function.update_of_ne he] at hvalid ⊢
      exact h.copy y hy hvalid
  ref := h.ref
  free := h.free
  held := h.held
  locked y hy := by
    obtain ⟨hmem, hvalid⟩ := h.locked y hy
    refine ⟨hmem, ?_⟩
    dsimp only
    rw [Function.update_apply]
    split_ifs
    · rfl
    · exact hvalid

end Refs

/-! ## The calls -/

theorem ends_bind {β : Type} {c : M α} {f : α → M β} {Q : β → Inodes → Prop} :
    Ends (c >>= f) Q s E ↔ Ends c (fun a s' => Ends (f a) Q s' E) s E :=
  Program.meets_bind

/-- The disk is a part of the state. -/
def diskPart : Program.Part Fs.disk inodes fun o => .op (S := InodeSig) (.block o) where
  get := Inodes.disk
  set d s := { s with disk := d }
  err := .disk
  get_set _ _ := rfl
  set_set _ _ _ := rfl
  set_get _ := rfl
  run_call o s := by
    simp only [Program.op, Program.run, inodes]
    cases Fs.disk o s.disk <;> rfl

/-- A program over the buffer cache that changes nothing on the disk. -/
theorem ends_block {c : Fs.M α} {P : α → Prop} {Q : α → Inodes → Prop}
    (hc : Fs.Ends c (fun a t => t = s.disk ∧ P a) s.disk Fs.NoStop) (hQ : ∀ a, P a → Q a s) :
    Ends (block c) Q s E := by
  refine (diskPart.meets hc fun _ => False.elim).post ?_
  rintro a s' ⟨⟨hd, hP⟩, hs'⟩
  rw [hs', hd]
  exact hQ a hP

/-- `iget` is only stopped if the table is full. -/
theorem ends_iget (h : Refs s₀ s l held) (x : ℕ) :
    Ends (iget x) (fun _ s' => HasRoom s₀ l x ∧ Refs s₀ s' (x :: l) held) s
      fun e => ¬HasRoom s₀ l x ∧ e = .noInodes := by
  have hsum := h.free
  have href := h.ref x
  by_cases h0 : s.ref x = 0
  · have hx : ¬s.ref x ≠ 0 := not_not.mpr h0
    by_cases hfull : s.free = 0
    · refine Program.meets_op_error ((if_neg hx).trans (if_pos hfull)) ⟨fun hroom => ?_, rfl⟩
      exact hroom.elim (fun hne => hne (href.symm.trans h0)) fun hlt => by omega
    · refine Program.meets_op ((if_neg hx).trans (if_neg hfull)) ⟨.inr ?_, h.recycle h0 hfull⟩
      omega
  · exact Program.meets_op (if_pos h0) ⟨.inl (href ▸ h0), h.again h0⟩

theorem ends_idup (h : Refs s₀ s l held) (hx : 1 ≤ s.ref x) :
    Ends (idup x) (fun _ s' => Refs s₀ s' (x :: l) held) s E :=
  Program.meets_op rfl (h.again (by omega))

theorem ends_iread (hheld : s.disk.held = []) :
    Fs.Ends (Fs.iread sb x) (fun d t => t = s.disk ∧ d = s.disk.dinode x) s.disk Fs.NoStop := by
  have hb : sb.IBLOCK x ∉ s.disk.held := hheld ▸ List.not_mem_nil
  rw [Fs.iread, Fs.ends_bind]
  refine Fs.ends_bread hb ?_
  rw [Fs.ends_bind, Fs.ends_dinode, Fs.ends_bind]
  exact Fs.ends_brelse rfl ⟨rfl, rfl⟩

/-- `ilock` is only stopped if the inode is free. -/
theorem ends_ilock (hheld : s₀.disk.held = []) (h : Refs s₀ s (x :: l) []) :
    Ends (ilock sb x) (fun _ s' => s₀.type x ≠ 0 ∧ Refs s₀ s' (x :: l) [x]) s
      fun e => s₀.type x = 0 ∧ e = .noType := by
  have hpos := h.ref_pos
  have hfree : x ∉ s.held := h.held ▸ List.not_mem_nil
  rw [ilock, ends_bind]
  refine Program.meets_op rfl ?_
  rw [if_neg (by omega), ends_bind]
  refine Program.meets_op (if_neg hfree) ?_
  rw [ends_bind]
  refine Program.meets_op rfl ?_
  dsimp only
  cases hvalid : s.valid x with
  | true =>
    rw [if_neg (by decide)]
    exact ⟨(h.copy x hpos hvalid).2, h.lock hvalid⟩
  | false =>
    rw [if_pos rfl, ends_bind]
    refine ends_block (ends_iread (h.disk ▸ hheld)) ?_
    rintro _ rfl
    rw [ends_bind]
    refine Program.meets_op rfl ?_
    rw [ends_bind]
    refine Program.meets_op rfl ?_
    have hdinode : s.disk.dinode x = s₀.disk.dinode x := by rw [h.disk]
    have htype : (s₀.disk.dinode x).type = s₀.type x := rfl
    dsimp only
    rw [hdinode, htype]
    by_cases h0 : s₀.type x = 0
    · rw [if_pos h0]
      exact ⟨h0, rfl⟩
    · rw [if_neg h0]
      exact ⟨h0, (h.read h0).lock (Function.update_self ..)⟩

theorem ends_iunlock (h : Refs s₀ s (x :: l) [x]) :
    Ends (iunlock x) (fun _ s' => Refs s₀ s' (x :: l) []) s E := by
  have hpos := h.ref_pos
  have hmem : x ∈ s.held := h.held ▸ List.mem_singleton_self x
  rw [iunlock, ends_bind]
  refine Program.meets_op rfl ?_
  rw [ends_bind]
  refine Program.meets_op rfl ?_
  rw [if_neg (not_or.mpr ⟨by simpa using hmem, by omega⟩)]
  refine Program.meets_op rfl ⟨h.disk, h.copy, h.ref, h.free, nofun, ?_⟩
  dsimp only
  rw [h.held, List.erase_cons_head]

/-- `iput` frees no inode that is linked. -/
theorem ends_iput (hlinked : Linked s₀) (h : Refs s₀ s (x :: l) []) :
    Ends (iput sb x) (fun _ s' => Refs s₀ s' l []) s E := by
  rw [iput, ends_bind]
  refine Program.meets_op rfl ?_
  rw [ends_bind]
  refine Program.meets_op rfl ?_
  rw [ends_bind]
  refine Program.meets_op rfl ?_
  rw [if_neg]
  · exact Program.meets_op rfl h.drop
  · rintro ⟨href, hvalid, hnlink⟩
    obtain ⟨hcopy, htype⟩ := h.copy x h.ref_pos hvalid
    rw [hcopy] at hnlink
    refine (hlinked x htype).elim (fun hne => hne hnlink) fun hothers => ?_
    have hx := h.ref x
    rw [List.count_cons_self] at hx
    omega

theorem ends_iunlockput (hlinked : Linked s₀) (h : Refs s₀ s (x :: l) [x]) :
    Ends (iunlockput sb x) (fun _ s' => Refs s₀ s' l []) s E := by
  rw [iunlockput, ends_bind]
  exact (ends_iunlock h).post fun _ _ h' => ends_iput hlinked h'

/-- The copy of an inode that the process has locked. -/
theorem ends_copy {Q : Dinode → Inodes → Prop} (h : Refs s₀ s (x :: l) [x])
    (hQ : Q (s₀.disk.dinode x) s) : Ends (copy x) Q s E := by
  have hcopy := (h.copy x h.ref_pos (h.locked x (List.mem_singleton_self x)).2).1
  refine Program.meets_op rfl ?_
  rw [hcopy]
  exact hQ

/-- `dirlookup` finds the entry on the disk, and is only stopped if the table is full. -/
theorem ends_dirlookup (hdisk : Fs.Consistent sb s₀.disk) (h : Refs s₀ s (x :: l) [x])
    (hdir : Fs.IsDir s₀.disk (s₀.disk.dinode x)) {name : List UInt8} (hname : 0 ∉ name) :
    Ends (dirlookup sb x name) (fun r s' => r = s₀.entries x (name.take DIRSIZ) ∧
      (∀ y, r = some y → HasRoom s₀ (x :: l) y) ∧ Refs s₀ s' (r.toList ++ x :: l) [x]) s
      fun e => (∃ y, s₀.entries x (name.take DIRSIZ) = some y ∧ ¬HasRoom s₀ (x :: l) y) ∧
        e = .noInodes := by
  have hcopy := (h.copy x h.ref_pos (h.locked x (List.mem_singleton_self x)).2).1
  rw [dirlookup, ends_bind]
  refine ends_copy h ?_
  rw [ends_bind]
  have hlook := Fs.looksUp hdisk hdir name hname
  rw [← h.disk] at hlook ⊢
  refine ends_block hlook ?_
  rintro _ ⟨rfl, hfound⟩
  dsimp only
  rw [ends_bind]
  refine Program.meets_op rfl ?_
  -- `dirlookup` leaves the copy as it is
  have hset : { s with copy := Function.update s.copy x (s.disk.dinode x) } = s := by
    have hdinode : s.disk.dinode x = s.copy x := by rw [hcopy, h.disk]
    rw [hdinode, Function.update_eq_self]
  rw [hset]
  have hentry : (Fs.dirFound s.disk (s.disk.dinode x) name).map Prod.fst =
      s₀.entries x (name.take DIRSIZ) := by
    rw [hfound, Inodes.entries, h.disk]
  cases hr : Fs.dirFound s.disk (s.disk.dinode x) name with
  | none =>
    rw [hr] at hentry
    exact ⟨hentry, nofun, h⟩
  | some p =>
    rw [hr] at hentry
    dsimp only
    rw [ends_bind]
    refine (ends_iget h p.1).mono (fun _ s' h' => ?_) fun e he => ⟨⟨p.1, hentry.symm, he.1⟩, he.2⟩
    refine ⟨hentry, fun y hy => ?_, h'.2⟩
    cases hy
    exact h'.1

end Xv6.Path
