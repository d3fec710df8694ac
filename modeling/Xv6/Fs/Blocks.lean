import Mathlib.Data.List.FinRange
import Mathlib.Logic.Function.Basic
import Xv6.Foundations.Program
import Xv6.Inode.Defs

/-!
# Blocks of files

`bzero`, `balloc`, `bfree`, `iupdate`, `bmap`, `itrunc`, `readi` and `writei` of fs.c, as
programs over calls into the buffer cache and the log.

The disk is what the buffer cache shows of it, by regions: a bit for each block in the bitmap
blocks, a dinode for each number in the inode blocks, and the bytes of all other blocks. A function
that works on a locked inode gets the copy of its dinode and returns the copy that it leaves. Block
numbers, and offsets within a file, are natural numbers where they cannot overflow.
-/

namespace Xv6.Fs

open Inode (Dinode NDIRECT)

/-! ## Layout -/

/-- Block size. -/
def BSIZE : ℕ := 1024

/-- Block numbers in the indirect block. -/
def NINDIRECT : ℕ := BSIZE / 4

/-- The most blocks of a file. -/
def MAXFILE : ℕ := NDIRECT + NINDIRECT

/-- Bitmap bits per block. -/
def BPB : ℕ := BSIZE * 8

/-- Inodes per block; a dinode has 64 bytes. -/
def IPB : ℕ := BSIZE / 64

/-- The most blocks in the log. -/
def LOGBLOCKS : ℕ := 30

/-- The number of buffers. -/
def NBUF : ℕ := 30

/-- The fields of `struct superblock` that fs.c uses. -/
structure Superblock where
  size : UInt32
  ninodes : UInt32
  inodestart : ℕ
  bmapstart : ℕ

/-- Block containing inode `i`. -/
def Superblock.IBLOCK (sb : Superblock) (i : ℕ) : ℕ := i / IPB + sb.inodestart

/-- Block of free map containing bit for block `b`. -/
def Superblock.BBLOCK (sb : Superblock) (b : ℕ) : ℕ := b / BPB + sb.bmapstart

/-- The bytes of a block; those from `BSIZE` on do not matter. -/
abbrev Block : Type := ℕ → UInt8

namespace Block

/-- `((uint *)bp->data)[j]` -/
def word (x : Block) (j : ℕ) : UInt32 :=
  .ofNat ((x (4 * j)).toNat + 2 ^ 8 * (x (4 * j + 1)).toNat + 2 ^ 16 * (x (4 * j + 2)).toNat +
    2 ^ 24 * (x (4 * j + 3)).toNat)

/-- `((uint *)bp->data)[j] = v` -/
def setWord (j : ℕ) (v : UInt32) (x : Block) : Block := fun k =>
  if k / 4 = j then .ofNat (v.toNat / 2 ^ (8 * (k % 4))) else x k

/-- `m` bytes from `o` on. -/
def slice (x : Block) (o m : ℕ) : List UInt8 := (List.range m).map fun k => x (o + k)

/-- Copy bytes to `o`. -/
def store (o : ℕ) (bytes : List UInt8) (x : Block) : Block := fun k =>
  if o ≤ k then bytes.getD (k - o) (x k) else x k

theorem store_of_lt {o k : ℕ} (h : k < o) (bytes : List UInt8) (x : Block) :
    store o bytes x k = x k :=
  if_neg (Nat.not_le.2 h)

theorem store_add (o j : ℕ) (bytes : List UInt8) (x : Block) :
    store o bytes x (o + j) = bytes.getD j (x (o + j)) := by
  rw [store, if_pos (Nat.le_add_right o j), Nat.add_sub_cancel_left]

theorem word_zero (j : ℕ) : word (fun _ => 0) j = 0 := rfl

theorem setWord_apply (j : ℕ) (v : UInt32) (x : Block) {r : ℕ} (hr : r < 4) :
    (setWord j v x (4 * j + r)).toNat = v.toNat / 2 ^ (8 * r) % 2 ^ 8 := by
  have hdiv : (4 * j + r) / 4 = j := by omega
  have hmod : (4 * j + r) % 4 = r := by omega
  rw [setWord, if_pos hdiv, hmod, UInt8.toNat_ofNat']

theorem word_setWord_self (j : ℕ) (v : UInt32) (x : Block) : (setWord j v x).word j = v := by
  have h₀ := setWord_apply j v x (r := 0) (by decide)
  have h₁ := setWord_apply j v x (r := 1) (by decide)
  have h₂ := setWord_apply j v x (r := 2) (by decide)
  have h₃ := setWord_apply j v x (r := 3) (by decide)
  rw [word, ← Nat.add_zero (4 * j), h₀, Nat.add_zero, h₁, h₂, h₃, ← UInt32.toNat_inj,
    UInt32.toNat_ofNat']
  have := v.toNat_lt
  omega

theorem word_setWord_of_ne {i j : ℕ} (h : i ≠ j) (v : UInt32) (x : Block) :
    (setWord j v x).word i = x.word i := by
  have hne : ∀ r < 4, setWord j v x (4 * i + r) = x (4 * i + r) := by
    intro r hr
    rw [setWord, if_neg]
    omega
  have h₀ := hne 0 (by decide)
  rw [Nat.add_zero] at h₀
  rw [word, word, h₀, hne 1 (by decide), hne 2 (by decide), hne 3 (by decide)]

end Block

/-- `ip->addrs[k] = addr` -/
def setAddr (d : Dinode) (k : Fin (NDIRECT + 1)) (addr : ℕ) : Dinode :=
  { d with addrs := Function.update d.addrs k (.ofNat addr) }

/-! ## Calls -/

/-- The panics of fs.c, bio.c, log.c and sysfile.c. -/
inductive Panic
  /-- `"bget: no buffers"` -/
  | noBuffers
  /-- `"too big a transaction"` -/
  | tooBig
  /-- `"log_write outside of trans"` -/
  | outside
  /-- `"brelse"` -/
  | brelse
  /-- `"freeing free block"` -/
  | freeingFree
  /-- `"bmap: out of range"` -/
  | bmapRange
  deriving DecidableEq

/-- Why a program does not go on. -/
inductive Stop
  | panic (p : Panic)
  /-- A buffer is locked by who waits for it. -/
  | deadlock
  deriving DecidableEq

/-- Calls into bio.c and log.c, and accesses to the data of a buffer. -/
inductive BlockCall
  | bread (b : ℕ)
  | brelse (b : ℕ)
  | logWrite (b : ℕ)
  /-- The bit of block `b`. -/
  | bit (b : ℕ)
  | setBit (b : ℕ) (v : Bool)
  | data (b : ℕ)
  /-- A change of the bytes of block `b`. -/
  | modify (b : ℕ) (f : Block → Block)
  | dinode (i : ℕ)
  | setDinode (i : ℕ) (d : Dinode)
  | panic (p : Panic)

/-- The calls with their results. -/
abbrev BlockSig : Signature where
  Call := BlockCall
  Result
    | .bit _ => Bool
    | .data _ => Block
    | .dinode _ => Dinode
    | .panic _ => Empty
    | _ => Unit

/-- The disk as the buffer cache shows it, the buffers that the running process has locked, and the
part of the log that `log_write` uses. -/
structure Disk where
  bitmap : ℕ → Bool
  dinode : ℕ → Dinode
  data : ℕ → Block
  held : List ℕ
  /-- `log.lh.block` -/
  logged : List ℕ
  /-- `log.outstanding` -/
  outstanding : ℕ

/-- What the calls do, while `bget` finds a buffer. What it does when all of them are in use is in
`buffered`. -/
def disk : Handler BlockSig Disk Stop
  | .bread b, s => if b ∈ s.held then .error .deadlock else .ok ((), { s with held := b :: s.held })
  | .brelse b, s =>
    if b ∈ s.held then .ok ((), { s with held := s.held.erase b }) else .error (.panic .brelse)
  | .logWrite b, s =>
    if LOGBLOCKS ≤ s.logged.length then .error (.panic .tooBig)
    else if s.outstanding < 1 then .error (.panic .outside)
    else .ok ((), { s with logged := if b ∈ s.logged then s.logged else s.logged ++ [b] })
  | .bit b, s => .ok (s.bitmap b, s)
  | .setBit b v, s => .ok ((), { s with bitmap := Function.update s.bitmap b v })
  | .data b, s => .ok (s.data b, s)
  | .modify b f, s => .ok ((), { s with data := Function.update s.data b (f (s.data b)) })
  | .dinode i, s => .ok (s.dinode i, s)
  | .setDinode i d, s => .ok ((), { s with dinode := Function.update s.dinode i d })
  | .panic p, _ => .error (.panic p)

/-- `bget` finds no buffer of the block, and none that is neither locked nor pinned by the log. -/
def Disk.NoBuffer (s : Disk) (b : ℕ) : Prop :=
  b ∉ s.held ∧ b ∉ s.logged ∧ NBUF ≤ (s.held ++ s.logged).toFinset.card

instance (s : Disk) (b : ℕ) : Decidable (s.NoBuffer b) := inferInstanceAs (Decidable (_ ∧ _))

/-- The calls that find no buffer. -/
def noBuffer : BlockCall → Disk → Option Stop
  | .bread b, s => if s.NoBuffer b then some (.panic .noBuffers) else none
  | _, _ => none

/-- What the calls do in a buffer cache that only the running process uses. -/
def buffered : Handler BlockSig Disk Stop := Program.guarded disk noBuffer

/-- A program over the buffer cache. -/
abbrev M (α : Type) : Type := Program BlockSig α

def bread (b : ℕ) : M Unit := .op (S := BlockSig) (.bread b)

def brelse (b : ℕ) : M Unit := .op (S := BlockSig) (.brelse b)

def logWrite (b : ℕ) : M Unit := .op (S := BlockSig) (.logWrite b)

/-- The bit of block `b` in the bitmap. -/
def bit (b : ℕ) : M Bool := .op (S := BlockSig) (.bit b)

def setBit (b : ℕ) (v : Bool) : M Unit := .op (S := BlockSig) (.setBit b v)

/-- `bp->data` -/
def data (b : ℕ) : M Block := .op (S := BlockSig) (.data b)

def modify (b : ℕ) (f : Block → Block) : M Unit := .op (S := BlockSig) (.modify b f)

/-- The dinode `i` in its block. -/
def dinode (i : ℕ) : M Dinode := .op (S := BlockSig) (.dinode i)

def setDinode (i : ℕ) (d : Dinode) : M Unit := .op (S := BlockSig) (.setDinode i d)

def panic {α : Type} (p : Panic) : M α := .call (S := BlockSig) (.panic p) nofun

/-! ## Blocks -/

variable (sb : Superblock)

/-- Zero a block. -/
def bzero (bno : ℕ) : M Unit := do
  bread bno
  modify bno fun _ _ => 0
  logWrite bno
  brelse bno

/-- The inner loop of `balloc`, for the bits `bi` of the bitmap block of `b`. -/
def ballocBits (b : ℕ) : List ℕ → M (Option ℕ)
  | [] => return none
  | bi :: rest => do
    if (← bit (b + bi)) = false then
      setBit (b + bi) true
      logWrite (sb.BBLOCK b)
      brelse (sb.BBLOCK b)
      bzero (b + bi)
      return some (b + bi)
    else ballocBits b rest

/-- The outer loop of `balloc`. -/
def ballocBlocks : List ℕ → M ℕ
  | [] => return 0
  | b :: rest => do
    bread (sb.BBLOCK b)
    match ← ballocBits sb b (List.range (min BPB (sb.size.toNat - b))) with
    | some addr => return addr
    | none =>
      brelse (sb.BBLOCK b)
      ballocBlocks rest

/-- Allocate a zeroed disk block; 0 if out of disk space. -/
def balloc : M ℕ :=
  ballocBlocks sb ((List.range ((sb.size.toNat + BPB - 1) / BPB)).map (· * BPB))

/-- Free a disk block. -/
def bfree (b : ℕ) : M Unit := do
  bread (sb.BBLOCK b)
  if (← bit b) = false then
    panic .freeingFree
  else
    setBit b false
    logWrite (sb.BBLOCK b)
    brelse (sb.BBLOCK b)

/-! ## Inodes -/

/-- Copy a modified in-memory inode to disk. -/
def iupdate (inum : ℕ) (d : Dinode) : M Unit := do
  bread (sb.IBLOCK inum)
  setDinode inum d
  logWrite (sb.IBLOCK inum)
  brelse (sb.IBLOCK inum)

/-- Read the dinode from disk. -/
def iread (inum : ℕ) : M Dinode := do
  bread (sb.IBLOCK inum)
  let d ← dinode inum
  brelse (sb.IBLOCK inum)
  return d

/-- The part of `bmap` that looks up block `bn` in the indirect block `addr`. -/
def bmapIndirect (addr bn : ℕ) : M ℕ := do
  bread addr
  let a ← data addr
  if (a.word bn).toNat = 0 then
    let new ← balloc sb
    if new ≠ 0 then
      modify addr (Block.setWord bn (.ofNat new))
      logWrite addr
      brelse addr
      return new
    else
      brelse addr
      return 0
  else
    brelse addr
    return (a.word bn).toNat

/-- The disk block address of the `bn`-th block in an inode, allocated if there is none; 0 if out of
disk space. -/
def bmap (d : Dinode) (bn : ℕ) : M (ℕ × Dinode) :=
  if h : bn < NDIRECT then
    let i : Fin (NDIRECT + 1) := ⟨bn, Nat.lt_succ_of_lt h⟩
    if (d.addrs i).toNat = 0 then do
      let addr ← balloc sb
      if addr = 0 then return (0, d) else return (addr, setAddr d i addr)
    else return ((d.addrs i).toNat, d)
  else if bn - NDIRECT < NINDIRECT then
    if (d.addrs (Fin.last NDIRECT)).toNat = 0 then do
      let addr ← balloc sb
      if addr = 0 then return (0, d)
      else return (← bmapIndirect sb addr (bn - NDIRECT), setAddr d (Fin.last NDIRECT) addr)
    else do
      return (← bmapIndirect sb (d.addrs (Fin.last NDIRECT)).toNat (bn - NDIRECT), d)
  else panic .bmapRange

/-- `itrunc`: the loop over the direct blocks. -/
def itruncDirect : List (Fin NDIRECT) → Dinode → M Dinode
  | [], d => return d
  | i :: rest, d =>
    if (d.addrs i.castSucc).toNat ≠ 0 then do
      bfree sb (d.addrs i.castSucc).toNat
      itruncDirect rest (setAddr d i.castSucc 0)
    else itruncDirect rest d

/-- `itrunc`: the loop over the entries of the indirect block. -/
def itruncEntries (a : Block) : List ℕ → M Unit
  | [] => return
  | j :: rest =>
    if (a.word j).toNat ≠ 0 then do
      bfree sb (a.word j).toNat
      itruncEntries a rest
    else itruncEntries a rest

/-- `itrunc`: the indirect block. -/
def itruncIndirect (addr : ℕ) : M Unit := do
  bread addr
  let a ← data addr
  itruncEntries sb a (List.range NINDIRECT)
  brelse addr
  bfree sb addr

/-- Truncate inode (discard contents). -/
def itrunc (inum : ℕ) (d : Dinode) : M Dinode := do
  let d ← itruncDirect sb (List.finRange NDIRECT) d
  let addr := (d.addrs (Fin.last NDIRECT)).toNat
  if addr ≠ 0 then do
    itruncIndirect sb addr
    let d := setAddr d (Fin.last NDIRECT) 0
    iupdate sb inum { d with size := 0 }
    return { d with size := 0 }
  else do
    iupdate sb inum { d with size := 0 }
    return { d with size := 0 }

/-! ## Contents -/

/-- A sum of `uint` that does not wrap. -/
theorem toNat_add_of_not_lt {off n : UInt32} (h : ¬off + n < off) :
    (off + n).toNat = off.toNat + n.toNat := by
  rw [UInt32.lt_iff_toNat_lt, UInt32.toNat_add] at h
  rw [UInt32.toNat_add]
  have := off.toNat_lt
  have := n.toNat_lt
  omega

/-- The bytes of one round of `readi` or `writei`. -/
def chunk (off n tot : ℕ) : ℕ := min (n - tot) (BSIZE - off % BSIZE)

theorem chunk_pos (off : ℕ) {n tot : ℕ} (h : tot < n) : 0 < chunk off n tot := by
  have := Nat.mod_lt off (show 0 < BSIZE by decide)
  rw [chunk]
  omega

theorem chunk_le (off n tot : ℕ) : chunk off n tot ≤ n - tot := Nat.min_le_left ..

theorem add_chunk (off : ℕ) {n tot : ℕ} (h : tot < n) :
    tot + chunk off n tot = n ∨ (off + chunk off n tot) % BSIZE = 0 := by
  have hdiv := Nat.div_add_mod off BSIZE
  have hmod := Nat.mod_lt off (show 0 < BSIZE by decide)
  rw [chunk]
  by_cases hle : n - tot ≤ BSIZE - off % BSIZE
  · rw [Nat.min_eq_left hle]
    exact Or.inl (by omega)
  · have hsum : off + (BSIZE - off % BSIZE) = BSIZE * (off / BSIZE + 1) := by
      rw [Nat.mul_succ]
      omega
    rw [Nat.min_eq_right (Nat.le_of_not_le hle), hsum]
    exact Or.inr (Nat.mul_mod_right ..)

theorem sub_chunk_lt (off : ℕ) {n tot : ℕ} (h : tot < n) :
    n - (tot + chunk off n tot) < n - tot := by
  have := chunk_pos off h
  omega

theorem div_of_chunk {off n tot k : ℕ} (h₁ : off ≤ k) (h₂ : k < off + chunk off n tot) :
    k / BSIZE = off / BSIZE ∧ k % BSIZE = off % BSIZE + (k - off) := by
  have hpos : 0 < BSIZE := by decide
  have hlt : off % BSIZE + (k - off) < BSIZE := by
    rw [chunk] at h₂
    omega
  have hsum : k = BSIZE * (off / BSIZE) + (off % BSIZE + (k - off)) := by
    have := Nat.div_add_mod off BSIZE
    omega
  constructor
  · rw [hsum, Nat.mul_add_div hpos, Nat.div_eq_of_lt hlt, Nat.add_zero]
  · rw [hsum, Nat.mul_add_mod, Nat.mod_eq_of_lt hlt]
    omega

/-- The loop of `readi`; `room` is the number of bytes that can be copied out. -/
def readLoop (room n off tot : ℕ) (d : Dinode) (bytes : List UInt8) :
    M (ℤ × List UInt8 × Dinode) :=
  if h : tot < n then do
    let (addr, d) ← bmap sb d (off / BSIZE)
    if addr = 0 then return (tot, bytes, d)
    else
      bread addr
      let x ← data addr
      let m := chunk off n tot
      if room < tot + m then
        brelse addr
        return (-1, bytes ++ x.slice (off % BSIZE) (room - tot), d)
      else
        brelse addr
        have := sub_chunk_lt off h
        readLoop room n (off + m) (tot + m) d (bytes ++ x.slice (off % BSIZE) m)
  else return (tot, bytes, d)
termination_by n - tot

/-- Read data from inode: the result, the bytes copied out, and the inode. -/
def readi (room : ℕ) (d : Dinode) (off n : UInt32) : M (ℤ × List UInt8 × Dinode) :=
  if d.size < off ∨ off + n < off then return (0, [], d)
  else if d.size < off + n then readLoop sb room (d.size - off).toNat off.toNat 0 d []
  else readLoop sb room n.toNat off.toNat 0 d []

/-- The loop of `writei`; `src` are the bytes that can be copied in. -/
def writeLoop (src : List UInt8) (n off tot : ℕ) (d : Dinode) : M (ℕ × ℕ × Dinode) :=
  if h : tot < n then do
    let (addr, d) ← bmap sb d (off / BSIZE)
    if addr = 0 then return (tot, off, d)
    else
      bread addr
      let m := chunk off n tot
      modify addr (Block.store (off % BSIZE) ((src.drop tot).take m))
      if src.length < tot + m then
        brelse addr
        return (tot, off, d)
      else
        logWrite addr
        brelse addr
        have := sub_chunk_lt off h
        writeLoop src n (off + m) (tot + m) d
  else return (tot, off, d)
termination_by n - tot

/-- Write data to inode: the result, and the inode. -/
def writei (src : List UInt8) (inum : ℕ) (d : Dinode) (off n : UInt32) : M (ℤ × Dinode) :=
  if d.size < off ∨ off + n < off then return (-1, d)
  else if MAXFILE * BSIZE < (off + n).toNat then return (-1, d)
  else do
    let (tot, off, d) ← writeLoop sb src n.toNat off.toNat 0 d
    let d := if d.size.toNat < off then { d with size := .ofNat off } else d
    iupdate sb inum d
    return ((tot : ℤ), d)

end Xv6.Fs
