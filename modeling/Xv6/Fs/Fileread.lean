import Xv6.Fs.Writei
import Xv6.Kernel.ConsoleRead
import Xv6.Kernel.Piperead

/-!
# fileread

One call of `fileread` of a `struct file`: a pipe, a device or an inode. The argument `n` is a
signed number in `fileread`, `piperead` and `consoleread`, and an unsigned one in `readi`. A
negative `n` is therefore a very large one for `readi`, unless the sum with the offset wraps, and a
read of a file then copies out all of its bytes from the offset on (`fileread_bounded_iff`).
-/

namespace Xv6.Fs

open Kernel (PipeHistory ConsHistory ConsPoint Reading Console Piperead consLock consR copiedBytes)

/-- `NDEV` of param.h. -/
def NDEV : ℤ := 10

/-- `CONSOLE` of file.h, the only device with an entry in `devsw`. -/
def CONSOLE : ℤ := 1

/-- The types of a `struct file`. -/
inductive FdType
  | FD_NONE
  | FD_PIPE
  | FD_INODE
  | FD_DEVICE
  deriving DecidableEq

/-- `struct file`, without its reference count; `inum` is the number of `ip`. -/
structure File where
  type : FdType
  readable : Bool
  writable : Bool
  inum : ℕ
  off : UInt32
  major : Int16

/-- `f->off += r`, if `r > 0` -/
def File.advance (f : File) (r : ℤ) : File :=
  if 0 < r then { f with off := f.off + .ofInt r } else f

/-- `fileread` and `filewrite` find a function in `devsw`. -/
def File.HasDevice (f : File) : Prop :=
  ¬(f.major.toInt < 0 ∨ NDEV ≤ f.major.toInt ∨ f.major.toInt ≠ CONSOLE)

/-- A call of `consoleread` of the process `p`, from the loops on: its result, and the bytes that it
copies out. `cons.lock` is held, except in `sleep`. -/
inductive Consoleread {N : ℕ} (p : Fin N) : Reading → ConsHistory N → ℤ → List UInt8 → Prop
  | ret {x d d' a0 out} (h : Console p (.read x) d d' [.release consLock, .user (.ret a0)])
      (hout : copiedBytes d'.log = copiedBytes d.log ++ out) : Consoleread p x d a0 out
  | copy {x x' d d' a0 out rest} (h : Console p (.read x) d d' [.user (.read x')])
      (hout : copiedBytes d'.log = copiedBytes d.log ++ out) (hrest : Consoleread p x' d' a0 rest) :
      Consoleread p x d a0 (out ++ rest)
  | killed {x d} (h : Console p (.read x) d d [.killed (.readAbort x) (.readSleep x)]) :
      Consoleread p x d (-1) []
  /-- `d₁` is what the interrupts and the others have left when `sleep` returns. -/
  | sleep {x d d₁ a0 out} (h : Console p (.read x) d d [.killed (.readAbort x) (.readSleep x)])
      (hrest : Consoleread p x d₁ a0 out) : Consoleread p x d a0 out

/-- What `fileread` returns, the bytes that it copies out, and the offset that it leaves. -/
structure FileCall where
  result : ℤ
  stored : List UInt8
  off : UInt32

/-- `fileread(f, addr, n)` of the process `p`, where the bytes of user space from `addr` to below
`addr + room` can be written, and the next one cannot. -/
inductive Fileread {N : ℕ} (sb : Superblock) (s : Disk) (pi : PipeHistory) (e : ConsHistory N)
    (p : Fin N) (room : ℕ) (f : File) (n : Int32) : FileCall → Prop
  | unreadable (h : f.readable = false) : Fileread sb s pi e p room f n ⟨-1, [], f.off⟩
  | pipe (h : f.readable = true) (ht : f.type = .FD_PIPE) {c}
      (hc : Piperead (fun j => decide (j < room)) n.toInt pi c) :
      Fileread sb s pi e p room f n ⟨c.result, c.stored, f.off⟩
  | noDevice (h : f.readable = true) (ht : f.type = .FD_DEVICE) (hd : ¬f.HasDevice) :
      Fileread sb s pi e p room f n ⟨-1, [], f.off⟩
  | device (h : f.readable = true) (ht : f.type = .FD_DEVICE) (hd : f.HasDevice) {r out}
      (hc : Consoleread p (.start n.toInt) e r out) :
      Fileread sb s pi e p room f n ⟨r, out, f.off⟩
  | inode (h : f.readable = true) (ht : f.type = .FD_INODE) {r out d' s'}
      (hc : (readi sb room (s.dinode f.inum) f.off n.toUInt32).run disk s = .ok ((r, out, d'), s')) :
      Fileread sb s pi e p room f n ⟨r, out, (f.advance r).off⟩

/-- At most `max(n, 0)` bytes are copied out, and no more are reported. -/
structure FileCall.Bounded (c : FileCall) (n : ℤ) : Prop where
  stored : (c.stored.length : ℤ) ≤ max n 0
  result : c.result ≤ max n 0

variable {N : ℕ} {sb : Superblock} {s : Disk} {pi : PipeHistory} {e : ConsHistory N} {p : Fin N}
  {room : ℕ} {f : File} {n : Int32} {c : FileCall}

/-- The bytes that a call of `consoleread` copies out count against its argument, and it returns
their number, or -1. -/
theorem Consoleread.le {x : Reading} {r : ℤ} {out : List UInt8} (h : Consoleread p x e r out) :
    out.length ≤ x.n.toNat ∧ (r = -1 ∨ r = x.copied + out.length) := by
  induction h with
  | @ret x d d' a0 out h hout =>
    cases h with
    | done h | save h | eof h | fail h =>
      obtain rfl : out = [] := (List.self_eq_append_right.1 ((List.append_nil _).symm.trans hout))
      exact ⟨Nat.zero_le _, Or.inr (add_zero _).symm⟩
    | line hn =>
      have hout' : copiedBytes d.log ++ [d.cons.ring.front] = copiedBytes d.log ++ out :=
        (List.append_nil _).symm.trans hout
      obtain rfl := List.append_cancel_left hout'
      rw [List.length_singleton]
      exact ⟨by omega, Or.inr rfl⟩
  | @copy x x' d d' a0 out rest h hout hrest ih =>
    cases h with
    | copy hn =>
      obtain rfl : [d.cons.ring.front] = out := List.append_cancel_left hout
      obtain ⟨hle, hr⟩ := ih
      have hcopied : (x.next hn).copied = x.copied + 1 := rfl
      have hnext : (x.next hn).n = x.target - (x.copied + 1 : ℕ) := rfl
      have hx : x.n = x.target - x.copied := rfl
      rw [List.singleton_append, List.length_cons]
      exact ⟨by omega, hr.imp_right fun hr => by omega⟩
  | killed => exact ⟨Nat.zero_le _, Or.inl rfl⟩
  | sleep _ _ ih => exact ih

/-- A call of `readi` for a positive number of bytes is bounded by it. -/
theorem readi_le (h : Consistent sb s) {i : ℕ} {off n : UInt32} {r : ℤ} {out : List UInt8}
    {d' : Inode.Dinode} {s' : Disk}
    (hc : (readi sb room (s.dinode i) off n).run disk s = .ok ((r, out, d'), s')) :
    out.length ≤ n.toNat ∧ r ≤ n.toNat := by
  have hends : Ends (readi sb room (s.dinode i) off n)
      (fun r _ => r.2.1.length ≤ n.toNat ∧ r.1 ≤ n.toNat) s := by
    refine ends_readi_of_loop (fun _ => ⟨Nat.zero_le _, Int.natCast_nonneg _⟩) fun hoff _ => ?_
    refine (ends_readLoop h.held [] (fun k _ hk => (h.noHoles i).mapped_of_lt (by omega))
      (Nat.zero_le _) (Nat.zero_le _)).post ?_
    rintro _ _ ⟨-, rfl⟩
    dsimp only
    rw [List.nil_append, List.length_map, List.length_range]
    refine ⟨by omega, ?_⟩
    split_ifs <;> omega
  exact hends.run_ok hc

/-- The conversion of an `int` to a `uint`. -/
theorem toNat_toUInt32 (n : Int32) :
    (n.toUInt32.toNat : ℤ) = if n.toInt < 0 then n.toInt + 2 ^ 32 else n.toInt := by
  have hlt : n.toUInt32.toNat < 2 ^ 32 := n.toUInt32.toNat_lt
  have hint : n.toInt = if 2 * n.toUInt32.toNat < 2 ^ 32 then (n.toUInt32.toNat : ℤ) else
      (n.toUInt32.toNat : ℤ) - (2 ^ 32 : ℕ) := BitVec.toInt_eq_toNat_cond n.toBitVec
  split_ifs at hint ⊢ <;> omega

/-- A negative number of bytes is taken for a very large one, unless the sum with the offset
wraps. -/
structure Negative (s : Disk) (room : ℕ) (f : File) (n : Int32) : Prop where
  readable : f.readable = true
  type : f.type = .FD_INODE
  neg : n.toInt < 0
  inside : f.off.toNat < (s.dinode f.inum).size.toNat
  noWrap : f.off.toNat < -n.toInt
  room : 0 < room

/-- Other negative numbers are harmless. -/
theorem readi_of_neg (h : Consistent sb s) {i : ℕ} {off : UInt32} {r : ℤ} {out : List UInt8}
    {d' : Inode.Dinode} {s' : Disk} (hn : n.toInt < 0)
    (hc : (readi sb room (s.dinode i) off n.toUInt32).run disk s = .ok ((r, out, d'), s'))
    (hnot : off.toNat < (s.dinode i).size.toNat → off.toNat < -n.toInt → ¬0 < room) :
    out = [] ∧ r ≤ 0 := by
  have huint := toNat_toUInt32 n
  rw [if_pos hn] at huint
  have hends : Ends (readi sb room (s.dinode i) off n.toUInt32)
      (fun r _ => r.2.1 = [] ∧ r.1 ≤ 0) s := by
    refine ends_readi_of_loop (fun _ => ⟨rfl, le_rfl⟩) fun hoff hadd => ?_
    refine (ends_readLoop h.held [] (fun k _ hk => (h.noHoles i).mapped_of_lt (by omega))
      (Nat.zero_le _) (Nat.zero_le _)).post ?_
    rintro _ _ ⟨-, rfl⟩
    have hsum := toNat_add_of_not_lt hadd
    have hlt : (off + n.toUInt32).toNat < 2 ^ 32 := (off + n.toUInt32).toNat_lt
    have hzero : min n.toUInt32.toNat ((s.dinode i).size.toNat - off.toNat) = 0 ∨ room = 0 := by
      by_cases hin : off.toNat < (s.dinode i).size.toNat
      · exact Or.inr (Nat.eq_zero_of_not_pos (hnot hin (by omega)))
      · omega
    dsimp only
    rw [List.nil_append]
    rcases hzero with h0 | h0
    · rw [h0]
      exact ⟨rfl, by split_ifs <;> decide⟩
    · rw [h0, Nat.min_zero]
      refine ⟨rfl, ?_⟩
      split_ifs <;> omega
  exact hends.run_ok hc

/-- A read of an inode for a negative number of bytes copies out all that it can. -/
theorem Negative.not_bounded (pi : PipeHistory) (e : ConsHistory N) (p : Fin N)
    (h : Consistent sb s) (hneg : Negative s room f n) :
    ∃ c, Fileread sb s pi e p room f n c ∧ ¬c.Bounded n.toInt := by
  obtain ⟨hread, htype, hsign, hinside, hwrap, hroom⟩ := hneg
  have hmin : -2 ^ 31 ≤ n.toInt := n.le_toInt
  have hn := toNat_toUInt32 n
  rw [if_pos hsign] at hn
  have hlt : f.off.toNat + n.toUInt32.toNat < 2 ^ 32 := by omega
  have hadd : ¬f.off + n.toUInt32 < f.off := by
    rw [UInt32.lt_iff_toNat_lt, UInt32.toNat_add, Nat.mod_eq_of_lt hlt]
    omega
  have hends : Ends (readi sb room (s.dinode f.inum) f.off n.toUInt32) _ s NoStop :=
    ends_readi_bytes h.held (h.noHoles f.inum) hinside.le hadd rfl
  obtain ⟨⟨r, out, d'⟩, s', hrun, -, hr⟩ := hends.returns
  refine ⟨_, .inode hread htype hrun, fun hb => ?_⟩
  have hstored := hb.stored
  have hout := congrArg (fun x => x.2.1.length) hr
  dsimp only at hstored hout
  rw [List.length_map, List.length_range] at hout
  omega

/-- **A read never transfers more than asked**, of a pipe, a device or an inode, if and only if it
is not a read of an inode for a negative number of bytes that does not wrap. -/
theorem fileread_bounded_iff (sb : Superblock) (s : Disk) (h : Consistent sb s) (pi : PipeHistory)
    (e : ConsHistory N) (p : Fin N) (room : ℕ) (f : File) (n : Int32) :
    (∀ c, Fileread sb s pi e p room f n c → c.Bounded n.toInt) ↔ ¬Negative s room f n := by
  constructor
  · intro hall hneg
    obtain ⟨c, hc, hb⟩ := Negative.not_bounded pi e p h hneg
    exact hb (hall c hc)
  · intro hneg c hc
    cases hc with
    | unreadable => exact ⟨le_max_right _ _, (by decide : (-1 : ℤ) ≤ 0).trans (le_max_right _ _)⟩
    | noDevice => exact ⟨le_max_right _ _, (by decide : (-1 : ℤ) ≤ 0).trans (le_max_right _ _)⟩
    | @pipe hread ht c hc =>
      have hle := hc.le
      exact ⟨by dsimp only; omega, by dsimp only; omega⟩
    | @device hread ht hd r out hc =>
      obtain ⟨hle, hr⟩ := hc.le
      have hn : (Reading.start n.toInt).n = n.toInt := sub_zero _
      have hcopied : (Reading.start n.toInt).copied = 0 := rfl
      exact ⟨by dsimp only; omega, by dsimp only; omega⟩
    | @inode hread ht r out d' s' hc =>
      have hn := toNat_toUInt32 n
      split_ifs at hn with hsign
      · obtain ⟨rfl, hr⟩ := readi_of_neg h hsign hc fun h₁ h₂ h₃ =>
          hneg ⟨hread, ht, hsign, h₁, h₂, h₃⟩
        exact ⟨le_max_right _ _, hr.trans (le_max_right _ _)⟩
      · obtain ⟨hle, hr⟩ := readi_le h hc
        exact ⟨by dsimp only; omega, by dsimp only; omega⟩

/-- The console after boot. -/
def idleConsole : ConsHistory 1 where
  cons := { ring := ⟨fun _ => 0, 0, 0⟩, w := 0 }
  log := []

/-- A file that is open for the inode 1, at its start. -/
def openFile : File where
  type := .FD_INODE
  readable := true
  writable := true
  inum := 1
  off := 0
  major := 0

/-- `read(fd, buf, 3)` of a file of one byte stores and reports this byte. -/
theorem smallDisk_read_bounded : Consistent newSuperblock smallDisk ∧
    (∃ off, Fileread newSuperblock smallDisk Kernel.oneByte idleConsole 0 3 openFile 3
      ⟨1, [0], off⟩) ∧
    ∀ c, Fileread newSuperblock smallDisk Kernel.oneByte idleConsole 0 3 openFile 3 c →
      c.Bounded (3 : Int32).toInt := by
  have hends : Ends (readi newSuperblock 3 (smallDisk.dinode openFile.inum) openFile.off
      (3 : Int32).toUInt32) _ smallDisk NoStop :=
    ends_readi_bytes (k := 1) rfl (consistent_smallDisk.noHoles 1) (by decide) (by decide)
      (by decide)
  obtain ⟨⟨r, out, d'⟩, s', hrun, -, hr⟩ := hends.returns
  obtain rfl : r = 1 := congrArg Prod.fst hr
  obtain rfl : out = [0] := congrArg (fun x => x.2.1) hr
  exact ⟨consistent_smallDisk, ⟨_, .inode rfl rfl hrun⟩,
    (fileread_bounded_iff newSuperblock smallDisk consistent_smallDisk Kernel.oneByte idleConsole 0
      3 openFile 3).2 fun h => absurd h.neg (by decide)⟩

/-- `read(fd, buf, -1)` of a file of one byte stores this byte. -/
theorem smallDisk_read_negative : Consistent newSuperblock smallDisk ∧
    ∃ c, Fileread newSuperblock smallDisk Kernel.oneByte idleConsole 0 1 openFile (-1) c ∧
      ¬c.Bounded (-1 : Int32).toInt :=
  ⟨consistent_smallDisk, Negative.not_bounded Kernel.oneByte idleConsole 0
    consistent_smallDisk ⟨rfl, rfl, by decide, by decide, by decide, by decide⟩⟩

end Xv6.Fs
