import Mathlib.Data.Finset.Card
import Mathlib.Data.Fintype.Basic
import Mathlib.Data.List.FinRange
import Mathlib.Logic.Function.Basic
import Xv6.Foundations.Transition

/-!
# The inode table

`iget`, `idup`, `ilock`, `iunlock`, `iupdate`, `iput` and `ialloc` of fs.c, called by any number of
processes. A step of a process is what it does between two points at which another one can see a
difference: it takes `itable.lock` or a sleeplock, reads or writes the dinode in its block, or
changes the copy in the table. `iget` and `idup` hold `itable.lock` all along and are one step each;
`iput` is not, as it waits for the sleeplock in the middle.

A pointer to an entry has a name in `τ`; it may be a process's local variable, its `cwd`, or in a
`struct file` that several processes use. `refs` are the pointers to each entry, which `ref` counts.
Who locks an inode does it through a pointer, and the pointer is not dropped as long as somebody
uses it. There is one device.
-/

namespace Xv6.Inode

/-- `NINODE` of param.h. -/
def NINODE : ℕ := 50

instance : NeZero NINODE := ⟨by decide⟩

/-- `NDIRECT` of fs.h. -/
def NDIRECT : ℕ := 12

/-- `struct dinode`. -/
@[ext] structure Dinode where
  type : Int16
  major : Int16
  minor : Int16
  nlink : Int16
  size : UInt32
  addrs : Fin (NDIRECT + 1) → UInt32

/-- `memset(dip, 0, sizeof(*dip)); dip->type = type` -/
def Dinode.zero (type : Int16) : Dinode where
  type := type
  major := 0
  minor := 0
  nlink := 0
  size := 0
  addrs _ := 0

/-- What `itrunc` does to the copy of an inode. -/
def Dinode.trunc (d : Dinode) : Dinode where
  type := d.type
  major := d.major
  minor := d.minor
  nlink := d.nlink
  size := 0
  addrs _ := 0

/-- `ip->type = 0` -/
def Dinode.untype (d : Dinode) : Dinode := { d with type := 0 }

/-- `struct inode`, without its sleeplock: `d` is the copy of the dinode. -/
structure Entry where
  inum : ℕ
  ref : ℕ
  valid : Bool
  d : Dinode

/-- The entry that `iget` returns, with one reference more. -/
def Entry.get (x : Entry) (inum : ℕ) : Entry :=
  if x.ref = 0 then { inum := inum, ref := 1, valid := false, d := x.d }
  else { x with ref := x.ref + 1 }

/-- Why a copy is written to the disk. -/
inductive Stage (τ : Type)
  /-- An update by who has locked the inode. -/
  | user
  /-- `itrunc`, called by `iput`. -/
  | trunc (t : τ)
  /-- `iput` has set the type to 0. -/
  | free (t : τ)

/-- Where a process is. -/
inductive Pc (τ : Type)
  | idle
  /-- `ilock`: in `acquiresleep` -/
  | ilock (e : Fin NINODE) (t : τ)
  /-- `ilock`: at the test of `ip->valid` -/
  | ilockTest (e : Fin NINODE) (t : τ)
  /-- `iupdate`, after a change of the copy -/
  | iupdate (e : Fin NINODE) (stage : Stage τ)
  /-- `iput`: before `acquire(&itable.lock)` -/
  | iput (e : Fin NINODE) (t : τ)
  /-- `iput`: at the test, `itable.lock` held -/
  | iputTest (e : Fin NINODE) (t : τ)
  /-- `iput`: in `acquiresleep`, `itable.lock` held -/
  | iputLock (e : Fin NINODE) (t : τ)
  /-- `iput`: before `itrunc` -/
  | iputTrunc (e : Fin NINODE) (t : τ)
  /-- `iput`: before `ip->type = 0` -/
  | iputType (e : Fin NINODE) (t : τ)
  /-- `iput`: before `ip->valid = 0` -/
  | iputValid (e : Fin NINODE) (t : τ)
  /-- `iput`: before the second `acquire(&itable.lock)` -/
  | iputAgain (e : Fin NINODE) (t : τ)
  /-- `iput`: before `ip->ref--`, `itable.lock` held -/
  | iputDrop (e : Fin NINODE) (t : τ)
  /-- `ialloc(dev, type)`: the loop -/
  | ialloc (type : Int16) (inum : ℕ)
  /-- `ialloc`: before `iget` -/
  | ialloced (inum : ℕ)

namespace Pc

variable {τ : Type}

/-- The pointer that a process is dropping. -/
def puts : Pc τ → Option (Fin NINODE × τ)
  | iput e t | iputTest e t | iputLock e t | iputTrunc e t | iupdate e (.trunc t) | iputType e t
  | iupdate e (.free t) | iputValid e t | iputAgain e t | iputDrop e t => some (e, t)
  | _ => none

/-- The pointer through which a process locks an inode or which it is dropping. -/
def uses : Pc τ → Option (Fin NINODE × τ)
  | ilock e t | ilockTest e t => some (e, t)
  | pc => pc.puts

/-- The process holds `itable.lock`. -/
def locked : Pc τ → Bool
  | iputTest _ _ | iputLock _ _ | iputDrop _ _ => true
  | _ => false

end Pc

/-- The disk, the table, the owners of the locks, and the processes. -/
structure State (κ τ : Type) where
  disk : ℕ → Dinode
  entry : Fin NINODE → Entry
  /-- Who holds `itable.lock`. -/
  holder : Option κ
  /-- Who holds the sleeplock of an entry, and through which pointer. -/
  lock : Fin NINODE → Option (κ × τ)
  /-- The pointers to an entry. -/
  refs : Fin NINODE → Finset τ
  pc : κ → Pc τ

/-- What a step shows. -/
inductive Event
  /-- An inode is allocated on the disk. -/
  | alloc (inum : ℕ)
  /-- `ialloc` calls `iget`. -/
  | get (inum : ℕ)
  /-- An inode is freed on the disk. -/
  | free (inum : ℕ)
  | other

namespace State

variable {κ τ : Type}

/-- The dinode of an entry. -/
def dinode (s : State κ τ) (e : Fin NINODE) : Dinode := s.disk (s.entry e).inum

/-- The loop of `iget`: the entry of an inode, or the first one that is empty. -/
def iget (s : State κ τ) (inum : ℕ) : Option (Fin NINODE) :=
  ((List.finRange NINODE).find? fun e => 0 < (s.entry e).ref ∧ (s.entry e).inum = inum).or
    ((List.finRange NINODE).find? fun e => (s.entry e).ref = 0)

/-- Nobody is dropping the pointer `t`. -/
def Kept (s : State κ τ) (t : τ) : Prop := ∀ p e, (s.pc p).puts ≠ some (e, t)

/-- Nobody uses the pointer `t`. -/
def Unused (s : State κ τ) (t : τ) : Prop :=
  (∀ p e, (s.pc p).uses ≠ some (e, t)) ∧ ∀ p e, s.lock e ≠ some (p, t)

/-- `t` is the name of no pointer. -/
def Fresh (s : State κ τ) (t : τ) : Prop := ∀ e, t ∉ s.refs e

/-- The inode has a link: its name may be found in a directory. -/
def Named (s : State κ τ) (inum : ℕ) : Prop :=
  (s.disk inum).nlink ≠ 0 ∧ ∀ e, 0 < (s.entry e).ref → (s.entry e).inum = inum →
    (s.entry e).valid = true → (s.entry e).d.nlink ≠ 0

instance [Fintype κ] [DecidableEq τ] (s : State κ τ) (t : τ) : Decidable (s.Kept t) :=
  inferInstanceAs (Decidable (∀ p e, (s.pc p).puts ≠ some (e, t)))

instance [Fintype κ] [DecidableEq κ] [DecidableEq τ] (s : State κ τ) (t : τ) :
    Decidable (s.Unused t) :=
  inferInstanceAs (Decidable ((∀ p e, (s.pc p).uses ≠ some (e, t)) ∧ ∀ p e, s.lock e ≠ some (p, t)))

instance [DecidableEq τ] (s : State κ τ) (t : τ) : Decidable (s.Fresh t) :=
  inferInstanceAs (Decidable (∀ e, t ∉ s.refs e))

instance (s : State κ τ) (inum : ℕ) : Decidable (s.Named inum) :=
  inferInstanceAs (Decidable ((s.disk inum).nlink ≠ 0 ∧ ∀ e, 0 < (s.entry e).ref →
    (s.entry e).inum = inum → (s.entry e).valid = true → (s.entry e).d.nlink ≠ 0))

/-- The entry `e` changes to `x`. -/
def setEntry (s : State κ τ) (e : Fin NINODE) (x : Entry) : State κ τ :=
  { s with entry := Function.update s.entry e x }

/-- The sleeplock of `e` changes hands. -/
def setLock (s : State κ τ) (e : Fin NINODE) (o : Option (κ × τ)) : State κ τ :=
  { s with lock := Function.update s.lock e o }

/-- The dinode `inum` is written. -/
def write (s : State κ τ) (inum : ℕ) (d : Dinode) : State κ τ :=
  { s with disk := Function.update s.disk inum d }

variable [DecidableEq κ] [DecidableEq τ]

/-- The process `p` goes on at `pc`. -/
def goto (s : State κ τ) (p : κ) (pc : Pc τ) : State κ τ :=
  { s with pc := Function.update s.pc p pc }

/-- `t` becomes a pointer to `e`. -/
def point (s : State κ τ) (e : Fin NINODE) (t : τ) : State κ τ :=
  { s with refs := Function.update s.refs e (insert t (s.refs e)) }

/-- `t` is no pointer any more. -/
def unpoint (s : State κ τ) (e : Fin NINODE) (t : τ) : State κ τ :=
  { s with refs := Function.update s.refs e ((s.refs e).erase t) }

section Lemmas

variable (s : State κ τ) (p q : κ) (e e' : Fin NINODE)

omit [DecidableEq τ] in
@[simp, grind =] theorem pc_goto (pc : Pc τ) :
    (s.goto p pc).pc q = if q = p then pc else s.pc q :=
  Function.update_apply ..

omit [DecidableEq κ] [DecidableEq τ] in
@[simp, grind =] theorem entry_setEntry (x : Entry) :
    (s.setEntry e x).entry e' = if e' = e then x else s.entry e' :=
  Function.update_apply ..

omit [DecidableEq κ] [DecidableEq τ] in
@[simp, grind =] theorem lock_setLock (o : Option (κ × τ)) :
    (s.setLock e o).lock e' = if e' = e then o else s.lock e' :=
  Function.update_apply ..

omit [DecidableEq κ] in
@[simp, grind =] theorem refs_point (t : τ) :
    (s.point e t).refs e' = if e' = e then insert t (s.refs e) else s.refs e' :=
  Function.update_apply ..

omit [DecidableEq κ] in
@[simp, grind =] theorem refs_unpoint (t : τ) :
    (s.unpoint e t).refs e' = if e' = e then (s.refs e).erase t else s.refs e' :=
  Function.update_apply ..

omit [DecidableEq κ] [DecidableEq τ] in
@[simp, grind =] theorem disk_write (inum inum' : ℕ) (d : Dinode) :
    (s.write inum d).disk inum' = if inum' = inum then d else s.disk inum' :=
  Function.update_apply ..

end Lemmas

end State

variable {κ τ : Type} [DecidableEq κ] [DecidableEq τ]

/-- Where `iupdate` returns to. -/
def Stage.next (e : Fin NINODE) : Stage τ → Pc τ
  | user => .idle
  | trunc t => .iputType e t
  | free t => .iputValid e t

/-- What `iupdate` shows. -/
def Stage.event (inum : ℕ) : Stage τ → Event
  | free _ => .free inum
  | _ => .other

/-- The steps of the processes; `ninodes` is `sb.ninodes`. -/
inductive Step (ninodes : ℕ) : State κ τ → Event → State κ τ → Prop
  /-- `iget`, called by `dirlookup` -/
  | iget {s : State κ τ} {p : κ} {inum : ℕ} {e : Fin NINODE} {t : τ} (hpc : s.pc p = .idle)
      (free : s.holder = none) (named : s.Named inum) (he : s.iget inum = some e)
      (ht : s.Fresh t) :
      Step ninodes s .other
        (((s.setEntry e ((s.entry e).get inum)).point e t).goto p .idle)
  | idup {s : State κ τ} {p : κ} {e : Fin NINODE} {t t' : τ} (hpc : s.pc p = .idle)
      (free : s.holder = none) (ht : t ∈ s.refs e) (kept : s.Kept t) (ht' : s.Fresh t') :
      Step ninodes s .other
        (((s.setEntry e { s.entry e with ref := (s.entry e).ref + 1 }).point e t').goto p .idle)
  -- ilock and iunlock
  | ilock {s : State κ τ} {p : κ} {e : Fin NINODE} {t : τ} (hpc : s.pc p = .idle)
      (ht : t ∈ s.refs e) (kept : s.Kept t) : Step ninodes s .other (s.goto p (.ilock e t))
  | acquiresleep {s : State κ τ} {p : κ} {e : Fin NINODE} {t : τ} (hpc : s.pc p = .ilock e t)
      (free : s.lock e = none) :
      Step ninodes s .other ((s.setLock e (some (p, t))).goto p (.ilockTest e t))
  | ilockValid {s : State κ τ} {p : κ} {e : Fin NINODE} {t : τ} (hpc : s.pc p = .ilockTest e t)
      (hv : (s.entry e).valid = true) : Step ninodes s .other (s.goto p .idle)
  /-- A type of 0 is a panic. -/
  | ilockRead {s : State κ τ} {p : κ} {e : Fin NINODE} {t : τ} (hpc : s.pc p = .ilockTest e t)
      (hv : (s.entry e).valid = false) (htype : (s.dinode e).type ≠ 0) :
      Step ninodes s .other
        ((s.setEntry e { s.entry e with valid := true, d := s.dinode e }).goto p .idle)
  | iunlock {s : State κ τ} {p : κ} {e : Fin NINODE} {t : τ} (hpc : s.pc p = .idle)
      (hl : s.lock e = some (p, t)) :
      Step ninodes s .other ((s.setLock e none).goto p .idle)
  -- updates
  /-- Who has locked an inode changes its copy, but not its type. -/
  | update {s : State κ τ} {p : κ} {e : Fin NINODE} {t : τ} (hpc : s.pc p = .idle)
      (hl : s.lock e = some (p, t)) (d : Dinode) (htype : d.type = (s.entry e).d.type) :
      Step ninodes s .other
        ((s.setEntry e { s.entry e with d := d }).goto p (.iupdate e .user))
  | iupdate {s : State κ τ} {p : κ} {e : Fin NINODE} {stage : Stage τ}
      (hpc : s.pc p = .iupdate e stage) :
      Step ninodes s (stage.event (s.entry e).inum)
        ((s.write (s.entry e).inum (s.entry e).d).goto p (stage.next e))
  -- iput
  | iput {s : State κ τ} {p : κ} {e : Fin NINODE} {t : τ} (hpc : s.pc p = .idle)
      (ht : t ∈ s.refs e) (unused : s.Unused t) : Step ninodes s .other (s.goto p (.iput e t))
  | iputAcquire {s : State κ τ} {p : κ} {e : Fin NINODE} {t : τ} (hpc : s.pc p = .iput e t)
      (free : s.holder = none) :
      Step ninodes s .other { s.goto p (.iputTest e t) with holder := some p }
  | iputLast {s : State κ τ} {p : κ} {e : Fin NINODE} {t : τ} (hpc : s.pc p = .iputTest e t)
      (h : (s.entry e).ref = 1 ∧ (s.entry e).valid = true ∧ (s.entry e).d.nlink = 0) :
      Step ninodes s .other (s.goto p (.iputLock e t))
  | iputMore {s : State κ τ} {p : κ} {e : Fin NINODE} {t : τ} (hpc : s.pc p = .iputTest e t)
      (h : ¬((s.entry e).ref = 1 ∧ (s.entry e).valid = true ∧ (s.entry e).d.nlink = 0)) :
      Step ninodes s .other (s.goto p (.iputDrop e t))
  /-- `acquiresleep(&ip->lock); release(&itable.lock)` -/
  | iputLock {s : State κ τ} {p : κ} {e : Fin NINODE} {t : τ} (hpc : s.pc p = .iputLock e t)
      (free : s.lock e = none) :
      Step ninodes s .other
        { (s.setLock e (some (p, t))).goto p (.iputTrunc e t) with holder := none }
  | iputTrunc {s : State κ τ} {p : κ} {e : Fin NINODE} {t : τ} (hpc : s.pc p = .iputTrunc e t) :
      Step ninodes s .other
        ((s.setEntry e { s.entry e with d := (s.entry e).d.trunc }).goto p (.iupdate e (.trunc t)))
  | iputType {s : State κ τ} {p : κ} {e : Fin NINODE} {t : τ} (hpc : s.pc p = .iputType e t) :
      Step ninodes s .other
        ((s.setEntry e { s.entry e with d := (s.entry e).d.untype }).goto p (.iupdate e (.free t)))
  /-- `ip->valid = 0; releasesleep(&ip->lock)` -/
  | iputValid {s : State κ τ} {p : κ} {e : Fin NINODE} {t : τ} (hpc : s.pc p = .iputValid e t) :
      Step ninodes s .other
        (((s.setEntry e { s.entry e with valid := false }).setLock e none).goto p (.iputAgain e t))
  | iputAgain {s : State κ τ} {p : κ} {e : Fin NINODE} {t : τ} (hpc : s.pc p = .iputAgain e t)
      (free : s.holder = none) :
      Step ninodes s .other { s.goto p (.iputDrop e t) with holder := some p }
  | iputDrop {s : State κ τ} {p : κ} {e : Fin NINODE} {t : τ} (hpc : s.pc p = .iputDrop e t) :
      Step ninodes s .other
        { ((s.setEntry e { s.entry e with ref := (s.entry e).ref - 1 }).unpoint e t).goto p
          .idle with holder := none }
  -- ialloc
  | ialloc {s : State κ τ} {p : κ} {type : Int16} (hpc : s.pc p = .idle) (htype : type ≠ 0) :
      Step ninodes s .other (s.goto p (.ialloc type 1))
  | iallocNext {s : State κ τ} {p : κ} {type : Int16} {inum : ℕ}
      (hpc : s.pc p = .ialloc type inum) (hlt : inum < ninodes) (h : (s.disk inum).type ≠ 0) :
      Step ninodes s .other (s.goto p (.ialloc type (inum + 1)))
  | iallocTake {s : State κ τ} {p : κ} {type : Int16} {inum : ℕ}
      (hpc : s.pc p = .ialloc type inum) (hlt : inum < ninodes) (h : (s.disk inum).type = 0) :
      Step ninodes s (.alloc inum) ((s.write inum (.zero type)).goto p (.ialloced inum))
  | iallocFail {s : State κ τ} {p : κ} {type : Int16} {inum : ℕ}
      (hpc : s.pc p = .ialloc type inum) (hlt : ¬inum < ninodes) :
      Step ninodes s .other (s.goto p .idle)
  | iallocGet {s : State κ τ} {p : κ} {inum : ℕ} {e : Fin NINODE} {t : τ}
      (hpc : s.pc p = .ialloced inum) (free : s.holder = none) (he : s.iget inum = some e)
      (ht : s.Fresh t) :
      Step ninodes s (.get inum)
        (((s.setEntry e ((s.entry e).get inum)).point e t).goto p .idle)

/-- A disk whose free inodes have no links; the table is empty, and nobody does anything. -/
structure Boot (s : State κ τ) : Prop where
  disk : ∀ inum, (s.disk inum).type = 0 → (s.disk inum).nlink = 0
  entry : ∀ e, (s.entry e).ref = 0 ∧ (s.entry e).valid = false
  holder : s.holder = none
  lock : ∀ e, s.lock e = none
  refs : ∀ e, s.refs e = ∅
  pc : ∀ p, s.pc p = .idle

/-- The inode table and the processes. -/
def itable (κ τ : Type) [DecidableEq κ] [DecidableEq τ] (ninodes : ℕ) :
    LTS (State κ τ) Event where
  init := Boot
  step := Step ninodes

end Xv6.Inode
