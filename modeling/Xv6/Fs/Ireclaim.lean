import Mathlib.Order.Interval.Finset.Nat
import Xv6.Fs.Directory
import Xv6.Fs.Freeing

/-!
# ireclaim

`iget`, `ilock`, `iunlock`, `iput` and `ireclaim` of fs.c, with `begin_op` and `end_op`, as the
first process runs them after the log has been recovered. Nobody else uses the file system yet, so
a process that waits for a lock or for room in the log waits for ever.

`ireclaim` frees each inode that has a type and no links (`Orphan`), in a transaction of its own
(`reclaimEvents`), and nothing else changes (`Reclaimed`). It does so if and only if the blocks that
change in each of these transactions are fewer than the log has (`reclaim_complete`): if the blocks
of an orphan are in too many bitmap blocks, `log_write` panics, or there is no buffer left.
-/

namespace Xv6.Boot

open Fs
open Inode (Dinode Entry NDIRECT NINODE)

/-! ## The state -/

/-- The disk with the buffer cache and the log, the inode table, and the sleeplocks of its entries
that the process holds. -/
structure State where
  disk : Disk
  itable : Fin NINODE → Entry
  locked : Fin NINODE → Bool

/-- Why a program does not go on. -/
inductive Stop
  | disk (e : Fs.Stop)
  /-- `"iget: no inodes"` -/
  | noInodes
  /-- `"ilock"` -/
  | ilock
  /-- `"ilock: no type"` -/
  | noType
  /-- `"iunlock"` -/
  | iunlock
  /-- The process sleeps for ever. -/
  | sleep

/-- Calls into the buffer cache and log.c, and accesses to the inode table and its sleeplocks. -/
inductive Call
  | block (o : BlockCall)
  | beginOp
  | endOp
  | itable
  | setEntry (e : Fin NINODE) (x : Entry)
  | acquiresleep (e : Fin NINODE)
  | holdingsleep (e : Fin NINODE)
  | releasesleep (e : Fin NINODE)
  | panic (e : Stop)

/-- The calls with their results. -/
abbrev Sig : Signature where
  Call := Call
  Result
    | .block o => BlockSig.Result o
    | .itable => Fin NINODE → Entry
    | .holdingsleep _ => Bool
    | .panic _ => Empty
    | _ => Unit

/-- What the calls do. The last `end_op` commits, which needs a buffer for the blocks of the log,
and empties it. -/
def boot : Handler Sig State Stop
  | .block o, s =>
    match buffered o s.disk with
    | .ok (r, d) => .ok (r, { s with disk := d })
    | .error e => .error (.disk e)
  | .beginOp, s =>
    if LOGBLOCKS < s.disk.logged.length + (s.disk.outstanding + 1) * MAXOPBLOCKS then .error .sleep
    else .ok ((), { s with disk := { s.disk with outstanding := s.disk.outstanding + 1 } })
  | .endOp, s =>
    if s.disk.outstanding - 1 = 0 then
      if s.disk.logged ≠ [] ∧ NBUF ≤ (s.disk.held ++ s.disk.logged).toFinset.card then
        .error (.disk (.panic .noBuffers))
      else .ok ((), { s with disk := { s.disk with outstanding := 0, logged := [] } })
    else .ok ((), { s with disk := { s.disk with outstanding := s.disk.outstanding - 1 } })
  | .itable, s => .ok (s.itable, s)
  | .setEntry e x, s => .ok ((), { s with itable := Function.update s.itable e x })
  | .acquiresleep e, s =>
    if s.locked e = true then .error .sleep
    else .ok ((), { s with locked := Function.update s.locked e true })
  | .holdingsleep e, s => .ok (s.locked e, s)
  | .releasesleep e, s => .ok ((), { s with locked := Function.update s.locked e false })
  | .panic e, _ => .error e

/-- A program over these calls. -/
abbrev M (α : Type) : Type := Program Sig α

/-- A program over the buffer cache and the log. -/
def block {α : Type} (c : Fs.M α) : M α := c.translate fun o => .op (S := Sig) (.block o)

def beginOp : M Unit := .op (S := Sig) .beginOp

def endOp : M Unit := .op (S := Sig) .endOp

/-- `itable.inode` -/
def itable : M (Fin NINODE → Entry) := .op (S := Sig) .itable

def setEntry (e : Fin NINODE) (x : Entry) : M Unit := .op (S := Sig) (.setEntry e x)

def acquiresleep (e : Fin NINODE) : M Unit := .op (S := Sig) (.acquiresleep e)

def holdingsleep (e : Fin NINODE) : M Bool := .op (S := Sig) (.holdingsleep e)

def releasesleep (e : Fin NINODE) : M Unit := .op (S := Sig) (.releasesleep e)

def panic {α : Type} (e : Stop) : M α := .call (S := Sig) (.panic e) nofun

/-! ## The programs -/

variable (sb : Superblock)

/-- The number of the dinode `k` in the block `b`. -/
def inumAt (b k : ℕ) : ℕ := (b - sb.inodestart) * IPB + k

/-- The loop of `iget`: the entry of an inode, or the first one that is empty. -/
def lookup (t : Fin NINODE → Entry) (inum : ℕ) : Option (Fin NINODE) :=
  ((List.finRange NINODE).find? fun e => 0 < (t e).ref ∧ (t e).inum = inum).or
    ((List.finRange NINODE).find? fun e => (t e).ref = 0)

/-- Find the inode with number `inum` and return its entry. -/
def iget (inum : ℕ) : M (Fin NINODE) := do
  let t ← itable
  match lookup t inum with
  | none => panic .noInodes
  | some e =>
    setEntry e ((t e).get inum)
    return e

/-- Lock the given inode. Reads the inode from disk if necessary. -/
def ilock (e : Fin NINODE) : M Unit := do
  let t ← itable
  if (t e).ref < 1 then panic .ilock
  else
    acquiresleep e
    let t ← itable
    if (t e).valid = false then
      block (bread (sb.IBLOCK (t e).inum))
      let dip ← block (dinode (inumAt sb (sb.IBLOCK (t e).inum) ((t e).inum % IPB)))
      block (brelse (sb.IBLOCK (t e).inum))
      setEntry e { t e with valid := true, d := dip }
      if dip.type = 0 then panic .noType else return
    else return

/-- Unlock the given inode. -/
def iunlock (e : Fin NINODE) : M Unit := do
  let held ← holdingsleep e
  let t ← itable
  if held = false ∨ (t e).ref < 1 then panic .iunlock else releasesleep e

/-- `iput`: the inode of the entry `e` has no links and no other references. -/
def iputLast (e : Fin NINODE) (x : Entry) : M Unit := do
  acquiresleep e
  let d ← block (itrunc sb x.inum x.d)
  setEntry e { x with d := d.untype }
  block (iupdate sb x.inum d.untype)
  setEntry e { x with d := d.untype, valid := false }
  releasesleep e

/-- `ip->ref--` -/
def iputDrop (e : Fin NINODE) : M Unit := do
  let t ← itable
  setEntry e { t e with ref := (t e).ref - 1 }

/-- Drop a reference to an in-memory inode. -/
def iput (e : Fin NINODE) : M Unit := do
  let t ← itable
  if (t e).ref = 1 ∧ (t e).valid = true ∧ (t e).d.nlink = 0 then
    iputLast sb e (t e)
    iputDrop e
  else iputDrop e

/-- The loop of `ireclaim` over the inode numbers that are left. -/
def ireclaimLoop : List ℕ → M Unit
  | [] => return
  | inum :: rest => do
    block (bread (sb.IBLOCK inum))
    let dip ← block (dinode (inumAt sb (sb.IBLOCK inum) (inum % IPB)))
    if dip.type ≠ 0 ∧ dip.nlink = 0 then
      -- is an orphaned inode
      let ip ← iget inum
      block (brelse (sb.IBLOCK inum))
      beginOp
      ilock sb ip
      iunlock ip
      iput sb ip
      endOp
      ireclaimLoop rest
    else
      block (brelse (sb.IBLOCK inum))
      ireclaimLoop rest

/-- Free the inodes that no directory entry names, after a crash. -/
def ireclaim : M Unit := ireclaimLoop sb (List.range' 1 (sb.ninodes.toNat - 1))

/-! ## Orphans -/

/-- An inode that is allocated and has no links. -/
def Orphan (s : Disk) (i : ℕ) : Prop :=
  1 ≤ i ∧ i < sb.ninodes.toNat ∧ (s.dinode i).type ≠ 0 ∧ (s.dinode i).nlink = 0

/-- The orphans, in the order of their numbers. -/
def orphans (s : Disk) : List ℕ :=
  (List.range' 1 (sb.ninodes.toNat - 1)).filter fun i =>
    (s.dinode i).type ≠ 0 ∧ (s.dinode i).nlink = 0

/-- What a run shows: transactions, and what is changed and logged. -/
inductive Event
  | beginOp
  | endOp
  | write (m : Mark)

def event : Call → Option Event
  | .block o => (mark o).map .write
  | .beginOp => some .beginOp
  | .endOp => some .endOp
  | _ => none

/-- The transaction that frees the inode `i`: its blocks, its empty dinode, and the type 0. -/
def reclaimEvents (s : Disk) (i : ℕ) : List Event :=
  .beginOp :: ((truncMarks sb s i ++ updateMarks sb i (s.dinode i).trunc.untype).map .write ++
    [.endOp])

/-- The state after log recovery: the log is empty, no inode is locked, the table has a free entry,
and it has no references to orphans; `userinit` has taken one to the root. -/
structure Start (s : State) : Prop where
  consistent : Consistent sb s.disk
  logged : s.disk.logged = []
  outstanding : s.disk.outstanding = 0
  locked : ∀ e, s.locked e = false
  free : ∃ e, (s.itable e).ref = 0
  linked : ∀ e, (s.itable e).ref ≠ 0 → ¬Orphan sb s.disk (s.itable e).inum

/-- From `s₀` to `s` the inodes in `F` have been freed, with their blocks. No other inode and no
data block has changed, and the references are what they were. -/
structure Swept (s₀ : State) (F : ℕ → Prop) (s : State) : Prop where
  consistent : Consistent sb s.disk
  logged : s.disk.logged = []
  outstanding : s.disk.outstanding = 0
  locked : s.locked = s₀.locked
  freed : ∀ i, F i → s.disk.dinode i = (s₀.disk.dinode i).trunc.untype
  dinode : ∀ i, ¬F i → s.disk.dinode i = s₀.disk.dinode i
  data : s.disk.data = s₀.disk.data
  bits : ∀ b, s.disk.bitmap b = true ↔
    s₀.disk.bitmap b = true ∧ ∀ i, F i → ¬s₀.disk.HasBlock (s₀.disk.dinode i) b
  ref : ∀ e, (s.itable e).ref = (s₀.itable e).ref
  entry : ∀ e, (s₀.itable e).ref ≠ 0 → s.itable e = s₀.itable e

/-- All orphans have been freed; the other files, and the names in directories, are what they
were. -/
structure Reclaimed (s s' : State) : Prop where
  noOrphan : ∀ i, ¬Orphan sb s'.disk i
  swept : Swept sb s (Orphan sb s.disk) s'
  file : ∀ i, ¬Orphan sb s.disk i → SameFile s.disk s'.disk (s.disk.dinode i)
  names : ∀ i, ¬Orphan sb s.disk i →
    dirMap s'.disk (s'.disk.dinode i) = dirMap s.disk (s.disk.dinode i)

/-! ## Rules -/

/-- A run of `c` shows `L` if it returns, and then it ends in `Q`, or it stops in `E`. -/
abbrev Runs {α : Type} (c : M α) (L : List Event) (Q : α → State → Prop) (E : Stop → Prop)
    (s : State) : Prop := c.Marks boot event L Q E s

variable {sb : Superblock} {s s' s₀ : State} {e : Fin NINODE} {i : ℕ} {E : Stop → Prop} {α : Type}

/-- The buffer cache and the log are a part of the state. -/
def diskPart : Program.Embedding buffered boot mark event
    fun o => .op (S := Sig) (.block o) where
  get := State.disk
  set d s := { s with disk := d }
  err := .disk
  mark := .write
  get_set _ _ := rfl
  set_set _ _ _ := rfl
  set_get _ := rfl
  run_call o s := by
    simp only [Program.op, Program.run, boot]
    cases buffered o s.disk <;> rfl
  labels_call o s := by
    rw [Program.labels_op]
    simp only [boot]
    cases buffered o s.disk <;> rfl

theorem runs_block {c : Fs.M α} {L : List Mark} {Q : α → Disk → Prop} {E' : Fs.Stop → Prop}
    (hc : c.Marks buffered mark L Q E' s.disk) (hE : ∀ e, E' e → E (.disk e)) :
    Runs (block c) (L.map .write) (fun a s' => Q a s'.disk ∧ s' = { s with disk := s'.disk }) E
      s :=
  diskPart.marks hc hE

/-- With no block in the log, and no buffer locked, there are buffers. -/
theorem runs_bread {b : ℕ} {Q : Unit → State → Prop} (hheld : s.disk.held = [])
    (hlog : s.disk.logged = []) (hQ : Q () { s with disk := s.disk.lock b }) :
    Runs (block (bread b)) [] Q E s := by
  have hg : noBuffer (.bread b) s.disk = none := by
    refine if_neg fun h => ?_
    rw [Disk.NoBuffer, hheld, hlog] at h
    exact absurd h.2.2 (by decide)
  have hm : (bread b).Marks buffered mark [] (fun _ d => d = s.disk.lock b) Fs.NoStop s.disk :=
    Program.marks_op_none rfl
      (Program.Meets.op_guarded (ends_bread (hheld ▸ List.not_mem_nil) rfl) hg)
  refine (runs_block hm fun _ => False.elim).post ?_
  rintro _ s' ⟨hd, hs'⟩
  rw [hs', hd]
  exact hQ

theorem runs_brelse {b : ℕ} {held : List ℕ} {Q : Unit → State → Prop}
    (hb : s.disk.held = b :: held) (hQ : Q () { s with disk := { s.disk with held := held } }) :
    Runs (block (brelse b)) [] Q E s := by
  have hm : (brelse b).Marks buffered mark [] (fun _ d => d = { s.disk with held := held })
      Fs.NoStop s.disk :=
    Program.marks_op_none rfl (Program.Meets.op_guarded (ends_brelse hb rfl) rfl)
  refine (runs_block hm fun _ => False.elim).post ?_
  rintro _ s' ⟨hd, hs'⟩
  rw [hs', hd]
  exact hQ

theorem runs_dinode {Q : Dinode → State → Prop} (hQ : Q (s.disk.dinode i) s) :
    Runs (block (dinode i)) [] Q E s := by
  have hm : (dinode i).Marks buffered mark [] (fun d t => d = s.disk.dinode i ∧ t = s.disk)
      Fs.NoStop s.disk := Program.marks_op_none rfl ⟨rfl, rfl⟩
  refine (runs_block hm fun _ => False.elim).post ?_
  rintro _ s' ⟨⟨rfl, hd⟩, hs'⟩
  rw [hs', hd]
  exact hQ

theorem runs_itable {Q : (Fin NINODE → Entry) → State → Prop} (hQ : Q s.itable s) :
    Runs itable [] Q E s :=
  Program.marks_op_none rfl hQ

theorem runs_setEntry {x : Entry} {Q : Unit → State → Prop}
    (hQ : Q () { s with itable := Function.update s.itable e x }) : Runs (setEntry e x) [] Q E s :=
  Program.marks_op_none rfl hQ

theorem runs_acquiresleep {Q : Unit → State → Prop} (hl : s.locked e = false)
    (hQ : Q () { s with locked := Function.update s.locked e true }) :
    Runs (acquiresleep e) [] Q E s := by
  refine Program.marks_op_none rfl (Program.meets_op (if_neg ?_) hQ)
  rw [hl]
  exact nofun

theorem runs_releasesleep {Q : Unit → State → Prop}
    (hQ : Q () { s with locked := Function.update s.locked e false }) :
    Runs (releasesleep e) [] Q E s :=
  Program.marks_op_none rfl hQ

theorem runs_beginOp {Q : Unit → State → Prop} (hlog : s.disk.logged = [])
    (hout : s.disk.outstanding = 0)
    (hQ : Q () { s with disk := { s.disk with outstanding := 1 } }) :
    Runs beginOp [.beginOp] Q E s := by
  have hroom : ¬LOGBLOCKS < s.disk.logged.length + (s.disk.outstanding + 1) * MAXOPBLOCKS := by
    rw [hlog, hout]
    decide
  refine Program.marks_op_some rfl (Program.meets_op (if_neg hroom) ?_)
  rw [hout]
  exact hQ

/-- The last operation commits. -/
theorem runs_endOp {Q : Unit → State → Prop} (hout : s.disk.outstanding = 1)
    (hroom : (s.disk.held ++ s.disk.logged).toFinset.card < NBUF)
    (hQ : Q () { s with disk := { s.disk with outstanding := 0, logged := [] } }) :
    Runs endOp [.endOp] Q E s := by
  have hlast : s.disk.outstanding - 1 = 0 := by omega
  have hbuf : ¬(s.disk.logged ≠ [] ∧ NBUF ≤ (s.disk.held ++ s.disk.logged).toFinset.card) :=
    fun h => absurd h.2 (Nat.not_le.2 hroom)
  exact Program.marks_op_some rfl (Program.meets_op ((if_pos hlast).trans (if_neg hbuf)) hQ)

/-! ## The functions -/

/-- The dinode is where `IBLOCK` says, and nowhere else. -/
theorem inumAt_IBLOCK (sb : Superblock) (i : ℕ) : inumAt sb (sb.IBLOCK i) (i % IPB) = i := by
  rw [inumAt, Superblock.IBLOCK, Nat.add_sub_cancel, Nat.div_add_mod']

/-- The inode is not in the table, which has a free entry. -/
theorem lookup_eq {t : Fin NINODE → Entry} (hfree : ∃ e, (t e).ref = 0)
    (hnone : ∀ e, (t e).ref ≠ 0 → (t e).inum ≠ i) : ∃ e, lookup t i = some e ∧ (t e).ref = 0 := by
  have hnot : ((List.finRange NINODE).find? fun e => 0 < (t e).ref ∧ (t e).inum = i) = none := by
    refine List.find?_eq_none.2 fun e _ he => ?_
    obtain ⟨hpos, hi⟩ := of_decide_eq_true he
    exact hnone e hpos.ne' hi
  obtain ⟨e₀, he₀⟩ := hfree
  have hsome : ((List.finRange NINODE).find? fun e => (t e).ref = 0).isSome :=
    List.find?_isSome.2 ⟨e₀, List.mem_finRange e₀, decide_eq_true he₀⟩
  obtain ⟨e, he⟩ := Option.isSome_iff_exists.1 hsome
  refine ⟨e, ?_, of_decide_eq_true (List.find?_some he :)⟩
  rw [lookup, hnot, Option.none_or, he]

/-- The entry of an inode that has just been taken. -/
def fresh (i : ℕ) (d : Dinode) : Entry where
  inum := i
  ref := 1
  valid := false
  d := d

theorem runs_iget (hfree : ∃ e, (s.itable e).ref = 0)
    (hnone : ∀ e, (s.itable e).ref ≠ 0 → (s.itable e).inum ≠ i) :
    Runs (iget i) [] (fun e s' => (s.itable e).ref = 0 ∧
      s' = { s with itable := Function.update s.itable e (fresh i (s.itable e).d) }) E s := by
  obtain ⟨e, he, href⟩ := lookup_eq hfree hnone
  refine Program.marks_bind_nil (runs_itable ?_)
  rw [he]
  refine Program.marks_bind_nil (runs_setEntry (Program.marks_pure ⟨href, ?_⟩))
  rw [Entry.get, if_pos href]
  rfl

theorem runs_ilock {x : Entry} (hx : s.itable e = x) (href : 1 ≤ x.ref) (hv : x.valid = false)
    (hl : s.locked e = false) (hheld : s.disk.held = []) (hlog : s.disk.logged = [])
    (htype : (s.disk.dinode x.inum).type ≠ 0) :
    Runs (ilock sb e) [] (fun _ s' => s' = { s with
      itable := Function.update s.itable e { x with valid := true, d := s.disk.dinode x.inum }
      locked := Function.update s.locked e true }) E s := by
  subst hx
  refine Program.marks_bind_nil (runs_itable ?_)
  rw [if_neg (Nat.not_lt.2 href)]
  refine Program.marks_bind_nil (runs_acquiresleep hl (Program.marks_bind_nil (runs_itable ?_)))
  rw [if_pos hv]
  refine Program.marks_bind_nil (runs_bread hheld hlog ?_)
  refine Program.marks_bind_nil (runs_dinode (Program.marks_bind_nil ?_))
  refine runs_brelse rfl (Program.marks_bind_nil (runs_setEntry ?_))
  rw [inumAt_IBLOCK]
  have hdinode : (s.disk.lock (sb.IBLOCK (s.itable e).inum)).dinode (s.itable e).inum =
      s.disk.dinode (s.itable e).inum := rfl
  rw [hdinode, if_neg htype]
  exact Program.marks_pure rfl

theorem runs_iunlock (hl : s.locked e = true) (href : 1 ≤ (s.itable e).ref) :
    Runs (iunlock e) []
      (fun _ s' => s' = { s with locked := Function.update s.locked e false }) E s := by
  refine Program.marks_bind_nil (Program.marks_op_none rfl ?_)
  refine Program.marks_bind_nil (runs_itable ?_)
  have hok : ¬(s.locked e = false ∨ (s.itable e).ref < 1) := by
    rw [hl]
    rintro (h | h)
    · cases h
    · omega
  rw [if_neg hok]
  exact runs_releasesleep rfl

/-- The transaction that frees the inode `i` stops. -/
def Overflows (sb : Superblock) (s : Disk) (i : ℕ) (e : Stop) : Prop :=
  ∃ e', e = .disk e' ∧ Overflow (bitmapBlocks sb s i) (written sb s i) e'

/-- What `iput` marks that frees the inode `i`. -/
def iputMarks (sb : Superblock) (s : Disk) (i : ℕ) : List Mark :=
  truncMarks sb s i ++ updateMarks sb i (s.dinode i).trunc.untype

/-- `iput` has freed the inode `i`, and dropped the last reference to its entry. -/
structure Dropped (sb : Superblock) (s : State) (e : Fin NINODE) (i : ℕ) (s' : State) : Prop where
  disposed : Disposed sb s.disk i s'.disk
  within : Within (written sb s.disk i) s'.disk
  fits : (written sb s.disk i).card < LOGBLOCKS
  locked : s'.locked = s.locked
  itable : ∃ x : Entry, x.ref = 0 ∧ s'.itable = Function.update s.itable e x

theorem runs_iput (hx : s.itable e = { inum := i, ref := 1, valid := true, d := s.disk.dinode i })
    (hnlink : (s.disk.dinode i).nlink = 0) (hl : s.locked e = false)
    (hc : Consistent sb s.disk) (hout : s.disk.outstanding = 1) (hlog : s.disk.logged = []) :
    Runs (iput sb e) ((iputMarks sb s.disk i).map .write) (fun _ s' => Dropped sb s e i s')
      (Overflows sb s.disk i) s := by
  have hlast : (s.itable e).ref = 1 ∧ (s.itable e).valid = true ∧ (s.itable e).d.nlink = 0 := by
    rw [hx]
    exact ⟨rfl, rfl, hnlink⟩
  have hE : ∀ e', Overflow (bitmapBlocks sb s.disk i) (written sb s.disk i) e' →
      Overflows sb s.disk i (.disk e') := fun e' he => ⟨e', rfl, he⟩
  refine Program.marks_bind_nil (runs_itable ?_)
  rw [if_pos hlast, hx, iputMarks, List.map_append]
  refine Program.marks_bind_last ?_
  -- the inode is freed
  refine Program.marks_bind_nil (runs_acquiresleep hl (Program.marks_bind ?_))
  refine (runs_block (s := { s with locked := Function.update s.locked e true })
    (marks_itrunc hc hout.ge hlog i) hE).post ?_
  rintro d s₁ ⟨⟨rfl, ht⟩, hs₁⟩
  refine Program.marks_bind_nil (runs_setEntry (Program.marks_bind_last ?_))
  let x : Entry := { inum := i, ref := 1, valid := true, d := (s.disk.dinode i).trunc.untype }
  refine (runs_block (s := { s₁ with itable := Function.update s₁.itable e x })
    (ht.marks_iupdate hout.ge) hE).post ?_
  rintro _ s₂ ⟨⟨hd, hwithin, hfits⟩, hs₂⟩
  refine Program.marks_bind_nil (runs_setEntry (runs_releasesleep ?_))
  -- the reference is dropped
  refine Program.marks_bind_nil (runs_itable (runs_setEntry ⟨hd, hwithin, hfits, ?_, ?_⟩))
  · rw [hs₂, hs₁]
    dsimp only
    rw [Function.update_idem, ← hl, Function.update_eq_self]
  · rw [hs₂, hs₁]
    dsimp only
    rw [Function.update_idem, Function.update_self, Function.update_idem]
    exact ⟨_, rfl, rfl⟩

/-! ## The scan -/

/-- The log does not matter. -/
theorem consistent_congr {d : Disk} (h : Consistent sb d) (n : ℕ) (l : List ℕ) :
    Consistent sb { d with outstanding := n, logged := l } where
  held := h.held
  metadata := h.metadata
  owned := ⟨h.owned.used, h.owned.inj⟩
  noHoles i := ⟨(h.noHoles i).size, (h.noHoles i).mapped⟩

variable {F : ℕ → Prop}

theorem Start.swept (h : Start sb s) : Swept sb s (fun _ => False) s where
  consistent := h.consistent
  logged := h.logged
  outstanding := h.outstanding
  locked := rfl
  freed _ := False.elim
  dinode _ _ := rfl
  data := rfl
  bits _ := ⟨fun hb => ⟨hb, fun _ => False.elim⟩, And.left⟩
  ref _ := rfl
  entry _ _ := rfl

namespace Swept

theorem slot (h : Swept sb s₀ F s) (d : Dinode) (k : Slot) : s.disk.slot d k = s₀.disk.slot d k :=
  slot_congr (fun _ => by rw [h.data]) k

theorem blocks (h : Swept sb s₀ F s) (d : Dinode) : s.disk.blocks d = s₀.disk.blocks d := by
  simp only [Disk.blocks, h.slot]

theorem hasBlock (h : Swept sb s₀ F s) (d : Dinode) (b : ℕ) :
    s.disk.HasBlock d b ↔ s₀.disk.HasBlock d b := by
  simp only [Disk.HasBlock, h.slot]

theorem sameFile (h : Swept sb s₀ F s) (d : Dinode) : SameFile s₀.disk s.disk d where
  slot := h.slot d
  byte k := by rw [Disk.byte, Disk.byte, Disk.mapped, Disk.mapped, h.slot, h.data]

theorem bitmapBlocks_eq (h : Swept sb s₀ F s) (hF : ¬F i) :
    bitmapBlocks sb s.disk i = bitmapBlocks sb s₀.disk i := by
  rw [bitmapBlocks, bitmapBlocks, h.dinode i hF, h.blocks]

theorem written_eq (h : Swept sb s₀ F s) (hF : ¬F i) :
    written sb s.disk i = written sb s₀.disk i := by
  rw [written, written, h.bitmapBlocks_eq hF]

theorem iputMarks_eq (h : Swept sb s₀ F s) (hF : ¬F i) :
    iputMarks sb s.disk i = iputMarks sb s₀.disk i := by
  rw [iputMarks, iputMarks, truncMarks, truncMarks, h.dinode i hF, h.blocks]

/-- What is freed may be said in another way. -/
theorem congr {G : ℕ → Prop} (h : Swept sb s₀ F s) (hFG : ∀ i, F i ↔ G i) : Swept sb s₀ G s := by
  have he : F = G := funext fun i => propext (hFG i)
  rwa [← he]

/-- One more inode has been freed. -/
theorem cons (h : Swept sb s₀ F s) (hF : ¬F i) (he : (s₀.itable e).ref = 0)
    (hd : Disposed sb s.disk i s'.disk) (hlog : s'.disk.logged = [])
    (hout : s'.disk.outstanding = 0) (hl : s'.locked = s.locked) {x : Entry} (hx : x.ref = 0)
    (ht : s'.itable = Function.update s.itable e x) :
    Swept sb s₀ (fun j => F j ∨ j = i) s' where
  consistent := hd.consistent
  logged := hlog
  outstanding := hout
  locked := hl.trans h.locked
  freed j hj := by
    rw [hd.dinode]
    rcases hj with hj | rfl
    · have hji : j ≠ i := fun hji => hF (hji ▸ hj)
      rw [Function.update_of_ne hji]
      exact h.freed j hj
    · rw [Function.update_self, h.dinode j hF]
  dinode j hj := by
    rw [hd.dinode, Function.update_of_ne fun hji => hj (Or.inr hji)]
    exact h.dinode j fun hFj => hj (Or.inl hFj)
  data := hd.data.trans h.data
  bits b := by
    rw [hd.bits, h.bits, and_assoc, h.hasBlock, h.dinode i hF]
    refine and_congr_right fun _ => ⟨?_, fun hall => ⟨fun j hj => hall j (Or.inl hj), ?_⟩⟩
    · rintro ⟨hall, hi⟩ j (hj | rfl)
      · exact hall j hj
      · exact hi
    · exact hall i (Or.inr rfl)
  ref e' := by
    rw [ht, Function.update_apply]
    split_ifs with hee
    · rw [hx, hee, he]
    · exact h.ref e'
  entry e' he' := by
    have hee : e' ≠ e := fun hee => he' (hee ▸ he)
    rw [ht, Function.update_of_ne hee]
    exact h.entry e' he'

/-- The transaction that frees an orphan, after its dinode has been read. -/
theorem runs_transaction {c : M Unit} {L : List Event} {Q : Unit → State → Prop}
    (h₀ : Start sb s₀) (h : Swept sb s₀ F s) (hi : Orphan sb s₀.disk i) (hF : ¬F i)
    (hE : ∀ e, Overflows sb s₀.disk i e → E e)
    (hc : ∀ s', Swept sb s₀ (fun j => F j ∨ j = i) s' →
      (written sb s₀.disk i).card < LOGBLOCKS → Runs c L Q E s') :
    Runs (do
      let ip ← iget i
      block (brelse (sb.IBLOCK i))
      beginOp
      ilock sb ip
      iunlock ip
      iput sb ip
      endOp
      c) (reclaimEvents sb s₀.disk i ++ L) Q E
      { s with disk := s.disk.lock (sb.IBLOCK i) } := by
  have hdi := h.dinode i hF
  obtain ⟨-, -, htype, hnlink⟩ := id hi
  rw [← hdi] at htype hnlink
  obtain ⟨e₀, he₀⟩ := h₀.free
  have hnone : ∀ e, (s.itable e).ref ≠ 0 → (s.itable e).inum ≠ i := by
    intro e href hinum
    rw [h.ref] at href
    rw [h.entry e href] at hinum
    exact h₀.linked e href (hinum ▸ hi)
  rw [reclaimEvents, List.cons_append, List.append_assoc, List.singleton_append]
  refine Program.marks_bind_nil ((runs_iget (s := { s with disk := s.disk.lock (sb.IBLOCK i) })
    ⟨e₀, (h.ref e₀).trans he₀⟩ hnone).post ?_)
  rintro e _ ⟨href, rfl⟩
  have hl : s.locked e = false := by
    rw [h.locked]
    exact h₀.locked e
  refine Program.marks_bind_nil (runs_brelse rfl (Program.marks_bind_cons ?_))
  refine runs_beginOp h.logged h.outstanding (Program.marks_bind_nil ?_)
  refine Program.Marks.post (runs_ilock (x := fresh i (s.itable e).d) ?_ le_rfl rfl ?_ ?_ ?_ ?_) ?_
  · exact Function.update_self ..
  · exact hl
  · exact h.consistent.held
  · exact h.logged
  · exact htype
  rintro _ s₁ hs₁
  dsimp only at hs₁
  rw [Function.update_idem] at hs₁
  have hl₁ : s₁.locked e = true := by
    rw [hs₁]
    exact Function.update_self ..
  have hx₁ : s₁.itable e = { inum := i, ref := 1, valid := true, d := s.disk.dinode i } := by
    rw [hs₁]
    exact Function.update_self ..
  refine Program.marks_bind_nil ((runs_iunlock hl₁ (by rw [hx₁])).post ?_)
  rintro _ s₂ hs₂
  have hd₂ : s₂.disk = { s.disk with outstanding := 1 } := by rw [hs₂, hs₁]; rfl
  have ht₂ : s₂.itable = Function.update s.itable e
      { inum := i, ref := 1, valid := true, d := s.disk.dinode i } := by rw [hs₂, hs₁]; rfl
  have hl₂ : s₂.locked = s.locked := by
    rw [hs₂, hs₁]
    dsimp only
    rw [Function.update_idem, ← hl, Function.update_eq_self]
  have hc₂ : Consistent sb s₂.disk := by
    rw [hd₂]
    exact consistent_congr h.consistent 1 s.disk.logged
  have hdi₂ : s₂.disk.dinode i = s.disk.dinode i := by rw [hd₂]
  have hmarks : iputMarks sb s₂.disk i = iputMarks sb s₀.disk i := by
    rw [← h.iputMarks_eq hF, hd₂]
    rfl
  have hwritten : written sb s₂.disk i = written sb s₀.disk i := by
    rw [← h.written_eq hF, hd₂]
    rfl
  have hbitmap : bitmapBlocks sb s₂.disk i = bitmapBlocks sb s₀.disk i := by
    rw [← h.bitmapBlocks_eq hF, hd₂]
    rfl
  have hout₂ : s₂.disk.outstanding = 1 := by rw [hd₂]
  have hlog₂ : s₂.disk.logged = [] := by
    rw [hd₂]
    exact h.logged
  have hput := runs_iput (by rw [ht₂, Function.update_self, hdi₂]) (hdi₂ ▸ hnlink) (hl₂ ▸ hl) hc₂
    hout₂ hlog₂
  have hover : Overflows sb s₂.disk i = Overflows sb s₀.disk i := by
    funext e'
    rw [Overflows, Overflows, hbitmap, hwritten]
  rw [hmarks, hover] at hput
  refine Program.marks_bind (hput.mono ?_ hE)
  rintro _ s₃ ⟨hd₃, hin₃, hfits, hl₃, x, hx, ht₃⟩
  rw [hd₂] at hd₃
  refine Program.marks_bind_cons (runs_endOp hd₃.outstanding ?_ ?_)
  · rw [hd₃.consistent.held, List.nil_append]
    exact (s₃.disk.logged.toFinset_card_le.trans hin₃.length_le).trans_lt hfits
  have hend : Disposed sb s.disk i { s₃.disk with outstanding := 0, logged := [] } :=
    ⟨consistent_congr hd₃.consistent 0 [], h.outstanding.symm, hd₃.dinode, hd₃.data, hd₃.bits⟩
  refine hc _ (h.cons hF ((h.ref e).symm.trans href) hend rfl rfl (hl₃.trans hl₂) hx ?_)
    (hwritten ▸ hfits)
  rw [ht₃, ht₂, Function.update_idem]

end Swept

/-- The loop of `ireclaim` frees the orphans among the inodes that are left. -/
theorem runs_ireclaimLoop (h₀ : Start sb s₀) {l : List ℕ} (hnd : l.Nodup)
    (hl : ∀ i ∈ l, 1 ≤ i ∧ i < sb.ninodes.toNat) (h : Swept sb s₀ F s) (hF : ∀ i ∈ l, ¬F i) :
    Runs (ireclaimLoop sb l)
      ((l.filter fun i => (s₀.disk.dinode i).type ≠ 0 ∧ (s₀.disk.dinode i).nlink = 0).flatMap
        (reclaimEvents sb s₀.disk))
      (fun _ s' => Swept sb s₀ (fun i => F i ∨ i ∈ l ∧ Orphan sb s₀.disk i) s' ∧
        ∀ i ∈ l, Orphan sb s₀.disk i → (written sb s₀.disk i).card < LOGBLOCKS)
      (fun e => ∃ i, Orphan sb s₀.disk i ∧ Overflows sb s₀.disk i e) s := by
  induction l generalizing F s with
  | nil =>
    refine Program.marks_pure ⟨h.congr fun i => ?_, nofun⟩
    exact ⟨Or.inl, fun hi => hi.resolve_right fun hm => List.not_mem_nil hm.1⟩
  | cons i rest ih =>
    obtain ⟨hi, hnd'⟩ := List.nodup_cons.1 hnd
    have hrest := fun j hj => hl j (List.mem_cons_of_mem i hj)
    have hFi := hF i List.mem_cons_self
    rw [ireclaimLoop]
    refine Program.marks_bind_nil (runs_bread h.consistent.held h.logged
      (Program.marks_bind_nil (runs_dinode ?_)))
    have hdip : (s.disk.lock (sb.IBLOCK i)).dinode (inumAt sb (sb.IBLOCK i) (i % IPB)) =
        s₀.disk.dinode i := by
      rw [inumAt_IBLOCK]
      exact h.dinode i hFi
    rw [hdip]
    by_cases ho : (s₀.disk.dinode i).type ≠ 0 ∧ (s₀.disk.dinode i).nlink = 0
    · have horphan : Orphan sb s₀.disk i :=
        ⟨(hl i List.mem_cons_self).1, (hl i List.mem_cons_self).2, ho⟩
      rw [if_pos ho, List.filter_cons_of_pos (by simpa using ho), List.flatMap_cons]
      refine h.runs_transaction h₀ horphan hFi (fun e he => ⟨i, horphan, he⟩) fun s' h' hfits => ?_
      refine (ih hnd' hrest h' fun j hj => ?_).post fun _ t ht => ⟨ht.1.congr fun j => ?_, ?_⟩
      · rintro (hFj | rfl)
        · exact hF j (List.mem_cons_of_mem i hj) hFj
        · exact hi hj
      · constructor
        · rintro ((hFj | rfl) | ⟨hj, hoj⟩)
          · exact Or.inl hFj
          · exact Or.inr ⟨List.mem_cons_self, horphan⟩
          · exact Or.inr ⟨List.mem_cons_of_mem i hj, hoj⟩
        · rintro (hFj | ⟨hj, hoj⟩)
          · exact Or.inl (Or.inl hFj)
          · rcases List.mem_cons.1 hj with rfl | hj
            · exact Or.inl (Or.inr rfl)
            · exact Or.inr ⟨hj, hoj⟩
      · exact List.forall_mem_cons.2 ⟨fun _ => hfits, ht.2⟩
    · have hno : ¬Orphan sb s₀.disk i := fun hoi => ho hoi.2.2
      rw [if_neg ho, List.filter_cons_of_neg (by simpa using ho)]
      refine Program.marks_bind_nil (runs_brelse rfl ?_)
      refine Program.Marks.post (ih hnd' hrest h fun j hj => hF j (List.mem_cons_of_mem i hj)) ?_
      refine fun _ t ht => ⟨ht.1.congr fun j => ?_, List.forall_mem_cons.2 ⟨fun hoi => ?_, ht.2⟩⟩
      · refine or_congr_right ⟨fun hj => ⟨List.mem_cons_of_mem i hj.1, hj.2⟩, fun hj => ?_⟩
        rcases List.mem_cons.1 hj.1 with rfl | hm
        · exact (hno hj.2).elim
        · exact ⟨hm, hj.2⟩
      · exact (hno hoi).elim

/-! ## ireclaim -/

theorem mem_range'_iff : i ∈ List.range' 1 (sb.ninodes.toNat - 1) ↔
    1 ≤ i ∧ i < sb.ninodes.toNat := by
  rw [List.mem_range'_1]
  omega

theorem Swept.reclaimed (h : Swept sb s₀ (Orphan sb s₀.disk) s) : Reclaimed sb s₀ s where
  noOrphan i hi := by
    obtain ⟨h₁, h₂, htype, hnlink⟩ := hi
    by_cases ho : Orphan sb s₀.disk i
    · rw [h.freed i ho] at htype
      exact htype rfl
    · rw [h.dinode i ho] at htype hnlink
      exact ho ⟨h₁, h₂, htype, hnlink⟩
  swept := h
  file i _ := h.sameFile (s₀.disk.dinode i)
  names i hi := by
    have hbyte : s.disk.byte (s₀.disk.dinode i) = s₀.disk.byte (s₀.disk.dinode i) :=
      funext (h.sameFile (s₀.disk.dinode i)).byte
    rw [h.dinode i hi, dirMap, dirMap, slots, slots, contents, contents, hbyte]

/-- A run of `ireclaim` at boot. -/
theorem runs_ireclaim (h : Start sb s) : Runs (ireclaim sb)
    ((orphans sb s.disk).flatMap (reclaimEvents sb s.disk))
    (fun _ s' => Reclaimed sb s s' ∧
      ∀ i, Orphan sb s.disk i → (written sb s.disk i).card < LOGBLOCKS)
    (fun e => ∃ i, Orphan sb s.disk i ∧ Overflows sb s.disk i e) s := by
  refine (runs_ireclaimLoop h List.nodup_range' (fun i => mem_range'_iff.1) h.swept
    fun _ _ => not_false).post ?_
  rintro _ s' ⟨hs', hfits⟩
  refine ⟨(hs'.congr fun i => ?_).reclaimed, fun i hi => ?_⟩
  · rw [false_or, mem_range'_iff]
    exact ⟨And.right, fun hi => ⟨⟨hi.1, hi.2.1⟩, hi⟩⟩
  · exact hfits i (mem_range'_iff.2 ⟨hi.1, hi.2.1⟩) hi

theorem run_ireclaim_of_fits (h : Start sb s)
    (hfits : ∀ i, Orphan sb s.disk i → (written sb s.disk i).card < LOGBLOCKS) :
    ∃ s', (ireclaim sb).run boot s = .ok ((), s') ∧ Reclaimed sb s s' ∧
      (ireclaim sb).labels boot event s =
        (orphans sb s.disk).flatMap (reclaimEvents sb s.disk) := by
  have hnot : ∀ e, (∃ i, Orphan sb s.disk i ∧ Overflows sb s.disk i e) → False := by
    rintro e ⟨i, hi, -, -, ⟨-, hcard⟩ | ⟨-, hcard⟩⟩
    · exact absurd (hfits i hi) (Nat.not_lt.2 hcard)
    · have hsub := Finset.subset_insert (sb.IBLOCK i) (bitmapBlocks sb s.disk i)
      exact absurd (hfits i hi) (Nat.not_lt.2 (hcard.trans (Finset.card_le_card hsub)))
  have hruns := (runs_ireclaim h).mono (fun _ _ => And.left) hnot
  obtain ⟨_, s', hrun, hs'⟩ := hruns.meets.returns
  exact ⟨s', hrun, hs', hruns.labels_eq hrun⟩

/-- If a transaction does not fit, one of them stops the run. -/
theorem run_ireclaim_of_overflow (h : Start sb s) (hi : Orphan sb s.disk i)
    (hcard : LOGBLOCKS ≤ (written sb s.disk i).card) :
    ∃ e, (ireclaim sb).run boot s = .error e ∧
      ∃ i', Orphan sb s.disk i' ∧ Overflows sb s.disk i' e := by
  have hmeets := (runs_ireclaim h).meets
  cases hrun : (ireclaim sb).run boot s with
  | ok p => exact absurd ((hmeets.run_ok hrun).2 i hi) (Nat.not_lt.2 hcard)
  | error e => exact ⟨e, rfl, hmeets.run_error hrun⟩

/-- **ireclaim frees all orphans**, each in a transaction of its own, and changes nothing else, if
and only if the blocks that change in each of these transactions do not fill the log. -/
theorem reclaim_complete (sb : Superblock) (s : State) (h : Start sb s) :
    (∃ s', (ireclaim sb).run boot s = .ok ((), s') ∧ Reclaimed sb s s' ∧
        (ireclaim sb).labels boot event s =
          (orphans sb s.disk).flatMap (reclaimEvents sb s.disk)) ↔
      ∀ i, Orphan sb s.disk i → (written sb s.disk i).card < LOGBLOCKS := by
  refine ⟨?_, run_ireclaim_of_fits h⟩
  rintro ⟨s', hrun, -⟩
  exact ((runs_ireclaim h).meets.run_ok hrun).2

/-- The transactions fit if there are few bitmap blocks. -/
theorem card_written_le (h : Consistent sb s.disk) (i : ℕ) :
    (written sb s.disk i).card ≤ sb.size.toNat / BPB + 2 := by
  have hsub : ((s.disk.blocks (s.disk.dinode i)).map sb.BBLOCK).toFinset ⊆
      Finset.Icc sb.bmapstart (sb.bmapstart + sb.size.toNat / BPB) := by
    intro x hx
    obtain ⟨b, hb, rfl⟩ := List.mem_map.1 (List.mem_toFinset.1 hx)
    obtain ⟨h0, k, rfl⟩ := mem_blocks_iff.1 hb
    have hdiv := Nat.div_le_div_right (c := BPB) (h.owned.used i k h0).2.1.le
    rw [Finset.mem_Icc, Superblock.BBLOCK, Nat.add_comm sb.bmapstart]
    exact ⟨Nat.le_add_left .., Nat.add_le_add_right hdiv sb.bmapstart⟩
  have hcard := Finset.card_le_card hsub
  have hinsert := Finset.card_insert_le (sb.IBLOCK i)
    ((s.disk.blocks (s.disk.dinode i)).map sb.BBLOCK).toFinset
  rw [Nat.card_Icc] at hcard
  rw [written, bitmapBlocks]
  generalize sb.size.toNat / BPB = n at hcard ⊢
  omega

/-! ## Two disks -/

/-- The disk `smallDisk` after a crash: the inode 1 has a block and no links. -/
def smallState : State where
  disk := { smallDisk with outstanding := 0 }
  itable _ := { inum := 0, ref := 0, valid := false, d := .zero 0 }
  locked _ := false

theorem start_smallState : Start newSuperblock smallState where
  consistent := consistent_congr consistent_smallDisk 0 []
  logged := rfl
  outstanding := rfl
  locked _ := rfl
  free := ⟨0, rfl⟩
  linked _ h := (h rfl).elim

theorem orphan_smallState : Orphan newSuperblock smallState.disk 1 :=
  ⟨le_rfl, by decide, by decide, rfl⟩

/-- The block of the orphan of `smallState` is free afterwards. -/
theorem smallState_reclaim : ∃ s', (ireclaim newSuperblock).run boot smallState = .ok ((), s') ∧
    (s'.disk.dinode 1).type = 0 ∧ s'.disk.bitmap 47 = false := by
  obtain ⟨s', hrun, hs', -⟩ := (reclaim_complete newSuperblock smallState start_smallState).2
    fun i _ => (card_written_le start_smallState.consistent i).trans_lt (by decide)
  refine ⟨s', hrun, ?_, ?_⟩
  · rw [hs'.swept.freed 1 orphan_smallState]
    rfl
  · refine Bool.eq_false_iff.2 fun hbit => ?_
    exact ((hs'.swept.bits 47).1 hbit).2 1 orphan_smallState
      ⟨by decide, .direct ⟨0, by decide⟩, rfl⟩

/-- A block of 32-bit words. -/
def words (f : ℕ → UInt32) : Block := fun k => .ofNat ((f (k / 4)).toNat / 2 ^ (8 * (k % 4)))

theorem word_words (f : ℕ → UInt32) (j : ℕ) : (words f).word j = f j := by
  have hset : ∀ r < 4, words f (4 * j + r) = Block.setWord j (f j) (fun _ => 0) (4 * j + r) := by
    intro r hr
    have hdiv : (4 * j + r) / 4 = j := by omega
    rw [words, Block.setWord, hdiv, if_pos rfl]
  have h₀ := hset 0 (by decide)
  rw [Nat.add_zero] at h₀
  rw [← Block.word_setWord_self j (f j) fun _ => 0, Block.word, Block.word, h₀,
    hset 1 (by decide), hset 2 (by decide), hset 3 (by decide)]

/-- A disk of 30 · 8192 blocks. -/
def wideSuperblock : Superblock where
  size := 245760
  ninodes := 2
  inodestart := 2
  bmapstart := 3

/-- A file of 29 blocks, each of which has its bit in another bitmap block. -/
def wideInode : Dinode where
  type := 2
  major := 0
  minor := 0
  nlink := 0
  size := 29696
  addrs k := if k.val < 12 then .ofNat (8192 * k.val + 100) else 99

/-- The entries of its indirect block. -/
def wideEntries : Block :=
  words fun j => if j < 17 then .ofNat (8192 * (j + 12) + 100) else 0

/-- An orphan with too many bitmap blocks. -/
def wideState : State where
  disk :=
    { bitmap := fun b => decide (b < 34 ∨ b = 99 ∨ b % 8192 = 100)
      dinode := fun i => if i = 1 then wideInode else .zero 0
      data := fun b => if b = 99 then wideEntries else fun _ => 0
      held := []
      logged := []
      outstanding := 0 }
  itable _ := { inum := 0, ref := 0, valid := false, d := .zero 0 }
  locked _ := false

/-- The block number in a slot of the orphan. -/
def wideSlot : Slot → ℕ
  | .direct k => 8192 * k.val + 100
  | .indirect => 99
  | .entry j => if j.val < 17 then 8192 * (j.val + 12) + 100 else 0

theorem slot_wideInode (k : Slot) : wideState.disk.slot wideInode k = wideSlot k := by
  have hof : ∀ n < 2 ^ 32, (UInt32.ofNat n).toNat = n := fun n hn => by
    rw [UInt32.toNat_ofNat']
    exact Nat.mod_eq_of_lt hn
  have hind : Disk.indirect wideInode = 99 := rfl
  cases k with
  | direct k =>
    have hk : k.val < 12 := k.isLt
    have haddr : wideInode.addrs k.castSucc = .ofNat (8192 * k.val + 100) := if_pos hk
    rw [Disk.slot, haddr, wideSlot, hof _ (by omega)]
  | indirect => exact hind
  | entry j =>
    have hdata : wideState.disk.data 99 = wideEntries := rfl
    rw [Disk.slot, hind, if_neg (by decide), hdata, wideEntries, word_words, wideSlot]
    split_ifs with hj
    · exact hof _ (by omega)
    · rfl

theorem slot_wideState {i : ℕ} {k : Slot}
    (h0 : wideState.disk.slot (wideState.disk.dinode i) k ≠ 0) :
    i = 1 ∧ wideState.disk.slot (wideState.disk.dinode i) k = wideSlot k := by
  by_cases hi : i = 1
  · subst hi
    exact ⟨rfl, slot_wideInode k⟩
  · have hd : wideState.disk.dinode i = .zero 0 := if_neg hi
    rw [hd] at h0
    exact (h0 (slot_of_addrs_eq_zero (fun _ => rfl) k)).elim

theorem wideSlot_bounds {k : Slot} (h0 : wideSlot k ≠ 0) :
    34 ≤ wideSlot k ∧ wideSlot k < 245760 ∧ (wideSlot k = 99 ∨ wideSlot k % 8192 = 100) := by
  cases k with
  | direct k =>
    have hk : k.val < 12 := k.isLt
    simp only [wideSlot]
    omega
  | indirect => exact ⟨by decide, by decide, Or.inl rfl⟩
  | entry j =>
    simp only [wideSlot] at h0 ⊢
    split_ifs at h0 ⊢
    · omega
    · exact (h0 rfl).elim

theorem wideSlot_le (k : Slot) : wideSlot k ≤ 8192 * 28 + 100 := by
  cases k with
  | direct k =>
    have hk : k.val < 12 := k.isLt
    simp only [wideSlot]
    omega
  | indirect => decide
  | entry j =>
    simp only [wideSlot]
    split_ifs <;> omega

theorem wideSlot_inj {k k' : Slot} (h0 : wideSlot k ≠ 0) (he : wideSlot k = wideSlot k') :
    k = k' := by
  have hk : ∀ k : Fin NDIRECT, k.val < 12 := Fin.isLt
  cases k <;> cases k' <;> grind [wideSlot]

theorem wideSlot_ofIndex {bn : ℕ} (hbn : bn < 29) : wideSlot (.ofIndex bn) = 8192 * bn + 100 := by
  have hN : NDIRECT = 12 := rfl
  have hI : NINDIRECT = 256 := rfl
  rw [Slot.ofIndex]
  split_ifs with h
  · rfl
  · have hval : (Fin.ofNat NINDIRECT (bn - NDIRECT)).val = bn - 12 := by
      rw [Fin.val_ofNat, hN, hI]
      exact Nat.mod_eq_of_lt (by omega)
    rw [wideSlot, hval, if_pos (by omega)]
    omega

theorem consistent_wideState : Consistent wideSuperblock wideState.disk where
  held := rfl
  metadata b hb := decide_eq_true (Or.inl hb)
  owned := by
    refine ⟨fun i k h0 => ?_, fun i k i' k' h0 he => ?_⟩
    · obtain ⟨-, hs⟩ := slot_wideState h0
      rw [hs] at h0 ⊢
      obtain ⟨h₁, h₂, h₃⟩ := wideSlot_bounds h0
      exact ⟨h₁, h₂, decide_eq_true (Or.inr h₃)⟩
    · obtain ⟨hi, hs⟩ := slot_wideState h0
      obtain ⟨hi', hs'⟩ := slot_wideState (he ▸ h0)
      rw [hs] at h0 he
      rw [hs'] at he
      exact ⟨hi.trans hi'.symm, wideSlot_inj h0 he⟩
  noHoles i := by
    by_cases hi : i = 1
    · subst hi
      refine ⟨by decide, fun bn hbn => ?_⟩
      have hsize : (wideState.disk.dinode 1).size.toNat = 29696 := rfl
      have hB : BSIZE = 1024 := rfl
      rw [hsize, hB] at hbn
      have hslot : wideState.disk.mapped (wideState.disk.dinode 1) bn = 8192 * bn + 100 :=
        (slot_wideInode _).trans (wideSlot_ofIndex (by omega))
      omega
    · have hd : wideState.disk.dinode i = .zero 0 := if_neg hi
      rw [hd]
      exact ⟨Nat.zero_le _, fun bn hbn => (Nat.not_lt_zero _ hbn).elim⟩

theorem start_wideState : Start wideSuperblock wideState where
  consistent := consistent_wideState
  logged := rfl
  outstanding := rfl
  locked _ := rfl
  free := ⟨0, rfl⟩
  linked _ h := (h rfl).elim

theorem orphan_wideState : Orphan wideSuperblock wideState.disk 1 :=
  ⟨le_rfl, by decide, by decide, rfl⟩

theorem card_written_wideState : LOGBLOCKS ≤ (written wideSuperblock wideState.disk 1).card := by
  have hsub : Finset.Icc 2 31 ⊆ written wideSuperblock wideState.disk 1 := by
    intro x hx
    obtain ⟨h₁, h₂⟩ := Finset.mem_Icc.1 hx
    by_cases hx2 : x = 2
    · rw [hx2]
      exact Finset.mem_insert_self ..
    · have hslot := (slot_wideInode (.ofIndex (x - 3))).trans (wideSlot_ofIndex (by omega))
      have hblock : wideSuperblock.BBLOCK (8192 * (x - 3) + 100) = x := by
        have hB : BPB = 8192 := rfl
        have hstart : wideSuperblock.bmapstart = 3 := rfl
        rw [Superblock.BBLOCK, hB, hstart]
        omega
      rw [← hblock]
      exact Finset.mem_insert_of_mem
        (BBLOCK_mem_bitmapBlocks ⟨by omega, .ofIndex (x - 3), hslot⟩)
  exact Finset.card_le_card hsub

theorem card_bitmapBlocks_wideState :
    (bitmapBlocks wideSuperblock wideState.disk 1).card < LOGBLOCKS := by
  have hsub : bitmapBlocks wideSuperblock wideState.disk 1 ⊆ Finset.Icc 3 31 := by
    intro x hx
    obtain ⟨b, hb, rfl⟩ := List.mem_map.1 (List.mem_toFinset.1 hx)
    obtain ⟨h0, k, rfl⟩ := mem_blocks_iff.1 hb
    obtain ⟨-, hs⟩ := slot_wideState (i := 1) (k := k) h0
    rw [hs] at h0 ⊢
    have hB : BPB = 8192 := rfl
    have hstart : wideSuperblock.bmapstart = 3 := rfl
    rw [Finset.mem_Icc, Superblock.BBLOCK, hB, hstart]
    have hle : wideSlot k ≤ 8192 * 28 + 100 := wideSlot_le k
    omega
  exact (Finset.card_le_card hsub).trans_lt (by decide)

/-- **An orphan that is not freed.** The 29 bitmap blocks and the inode block are in the log, and
`log_write` of the inode block, which needs no more room, panics. -/
theorem wideState_overflow : Start wideSuperblock wideState ∧
    Orphan wideSuperblock wideState.disk 1 ∧
      (ireclaim wideSuperblock).run boot wideState = .error (.disk (.panic .tooBig)) := by
  refine ⟨start_wideState, orphan_wideState, ?_⟩
  obtain ⟨e, hrun, i, ⟨-, -, htype, -⟩, e', rfl, he⟩ :=
    run_ireclaim_of_overflow start_wideState orphan_wideState card_written_wideState
  have hi : i = 1 := by
    by_contra hne
    have hd : wideState.disk.dinode i = .zero 0 := if_neg hne
    exact htype (by rw [hd]; rfl)
  subst hi
  rcases he with ⟨rfl, -⟩ | ⟨-, hcard⟩
  · exact hrun
  · exact absurd card_bitmapBlocks_wideState (Nat.not_lt.2 hcard)

end Xv6.Boot
