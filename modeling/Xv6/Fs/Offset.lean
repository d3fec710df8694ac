import Mathlib.Data.Fintype.Basic
import Xv6.Foundations.Tiles
import Xv6.Foundations.Transition
import Xv6.Fs.Fileread
import Xv6.Fs.Reserve

/-!
# A shared file offset

Any number of processes call `fileread` and `filewrite` of one `struct file` for an inode, as they
can after `kfork` and `sys_dup`. A call takes `ip->lock` for each of its chunks, and `filewrite`
makes a transaction of each. Between two steps of these calls, other calls may change the disk, but
not this file.

The labels of a run are the chunks that have been transferred. Their ranges in the file follow one
another without gaps, whoever makes them (`shared_offset`).
-/

namespace Xv6.Fs

open Inode (Dinode)

/-- The arguments of a call: the bytes of user space from `addr` on that can be read, and the number
of those that can be written. -/
structure Call where
  write : Bool
  buf : List UInt8
  room : ℕ
  n : Int32

/-- Where a process is; `pos` is `i` of `filewrite`, and 0 in `fileread`. -/
inductive Stage
  | idle
  /-- `filewrite`: the head of the loop; `fileread`: before `ilock` -/
  | loop (c : Call) (pos : ℕ)
  /-- `filewrite`: after `begin_op` -/
  | begun (c : Call) (pos : ℕ)
  /-- after `ilock` -/
  | locked (c : Call) (pos : ℕ)
  /-- after `readi` or `writei`, whose result is `r` -/
  | moved (c : Call) (pos : ℕ) (r : ℤ)
  /-- after `f->off += r` -/
  | advanced (c : Call) (pos : ℕ) (r : ℤ)
  /-- after `iunlock` -/
  | unlocked (c : Call) (pos : ℕ) (r : ℤ)

namespace Stage

/-- The process holds `ip->lock`. -/
def holds : Stage → Bool
  | locked _ _ | moved _ _ _ | advanced _ _ _ => true
  | _ => false

/-- The process is in a transaction. -/
def inTx : Stage → Bool
  | begun _ _ => true
  | locked c _ | moved c _ _ | advanced c _ _ | unlocked c _ _ => c.write
  | _ => false

/-- The bytes that have been transferred and are not in `f->off` yet. -/
def pending : Stage → ℕ
  | moved _ _ r => r.toNat
  | _ => 0

/-- The arguments of the call. -/
def call? : Stage → Option Call
  | idle => none
  | loop c _ | begun c _ | locked c _ | moved c _ _ | advanced c _ _ | unlocked c _ _ => some c

/-- The bytes that the call has transferred. -/
def count : Stage → ℕ
  | idle => 0
  | loop _ pos | begun _ pos | locked _ pos => pos
  | moved _ pos r | advanced _ pos r | unlocked _ pos r => pos + r.toNat

end Stage

/-- A call of `readi` or `writei` at `off`: that of the `index`-th call of the process `proc`, with
the bytes from `pos` on. -/
structure Chunk (ι : Type) where
  proc : ι
  index : ℕ
  call : Call
  pos : ℕ
  off : ℕ
  result : ℤ

/-- The bytes that are reported. -/
def Chunk.len {ι : Type} (e : Chunk ι) : ℕ := e.result.toNat

/-- What is seen of a step: a chunk, a call that returns, or nothing. -/
inductive FileAct (ι : Type)
  | chunk (e : Chunk ι)
  | ret (p : ι) (index : ℕ) (r : ℤ)
  | other

/-- The processes that share the file; `calls p` is the number of calls that `p` has made. -/
structure Shared (ι : Type) where
  file : File
  disk : Disk
  owner : Option ι
  proc : ι → Stage
  calls : ι → ℕ

/-- `begin_op`, when there is room -/
def Disk.beginOp (s : Disk) : Disk := { s with outstanding := s.outstanding + 1 }

/-- `end_op`; the last call commits -/
def Disk.endOp (s : Disk) : Disk :=
  { s with outstanding := s.outstanding - 1, logged := if s.outstanding = 1 then [] else s.logged }

/-- `readi` or `writei`, with what `f->off` is. -/
inductive Transfer (sb : Superblock) (s : Disk) (f : File) (c : Call) (pos : ℕ) : ℤ → Disk → Prop
  | read (h : c.write = false) {r out d' s'}
      (hrun : (readi sb c.room (s.dinode f.inum) f.off c.n.toUInt32).run disk s =
        .ok ((r, out, d'), s')) : Transfer sb s f c pos r s'
  | write (h : c.write = true) {r d' s'}
      (hrun : (filewriteSection sb c.buf f.inum true (s.dinode f.inum) f.off c.n.toInt pos).run disk
        s = .ok ((r, d'), s')) : Transfer sb s f c pos r s'

section Steps

variable {ι : Type}

namespace Shared

/-- The process `p` goes on to `a`. -/
def goto [DecidableEq ι] (x : Shared ι) (p : ι) (a : Stage) : Shared ι :=
  { x with proc := Function.update x.proc p a }

/-- The processes that are in a transaction. -/
def inTx [Fintype ι] (x : Shared ι) : Finset ι := Finset.univ.filter fun p => (x.proc p).inTx = true

end Shared

/-- One step of a process, or of the rest of the system. -/
inductive Shared.Step [DecidableEq ι] [Fintype ι] (sb : Superblock) :
    Shared ι → FileAct ι → Shared ι → Prop
  | call {x} (p : ι) (hp : x.proc p = .idle) (c : Call) :
      Step sb x .other
        { x.goto p (.loop c 0) with calls := Function.update x.calls p (x.calls p + 1) }
  | refuse {x} {p : ι} {c} (hp : x.proc p = .loop c 0)
      (h : (if c.write then x.file.writable else x.file.readable) = false) :
      Step sb x (.ret p (x.calls p) (-1)) (x.goto p .idle)
  -- the loop of `filewrite`
  | done {x} {p : ι} {c} {pos : ℕ} (hp : x.proc p = .loop c pos) (hw : c.write = true)
      (h : ¬(pos : ℤ) < c.n.toInt) :
      Step sb x (.ret p (x.calls p) (if (pos : ℤ) = c.n.toInt then c.n.toInt else -1))
        (x.goto p .idle)
  | beginOp {x} {p : ι} {c} {pos : ℕ} (hp : x.proc p = .loop c pos) (hw : c.write = true)
      (hf : x.file.writable = true) (h : (pos : ℤ) < c.n.toInt) :
      Step sb x .other { x.goto p (.begun c pos) with disk := x.disk.beginOp }
  | ilock {x} {p : ι} {c pos} (ho : x.owner = none)
      (hp : x.proc p = .begun c pos ∨
        x.proc p = .loop c pos ∧ c.write = false ∧ x.file.readable = true) :
      Step sb x .other { x.goto p (.locked c pos) with owner := some p }
  | transfer {x} {p : ι} {c pos} (hp : x.proc p = .locked c pos) {r s'}
      (h : Transfer sb x.disk x.file c pos r s') :
      Step sb x (.chunk ⟨p, x.calls p, c, pos, x.file.off.toNat, r⟩)
        { x.goto p (.moved c pos r) with disk := s' }
  | advance {x} {p : ι} {c pos r} (hp : x.proc p = .moved c pos r) :
      Step sb x .other { x.goto p (.advanced c pos r) with file := x.file.advance r }
  | iunlock {x} {p : ι} {c pos r} (hp : x.proc p = .advanced c pos r) :
      Step sb x .other { x.goto p (.unlocked c pos r) with owner := none }
  | readEnd {x} {p : ι} {c pos r} (hp : x.proc p = .unlocked c pos r) (hw : c.write = false) :
      Step sb x (.ret p (x.calls p) r) (x.goto p .idle)
  | next {x} {p : ι} {c} {pos : ℕ} {r : ℤ} (hp : x.proc p = .unlocked c pos r) (hw : c.write = true)
      (h : r = (filewriteChunk c.n.toInt pos).toNat) :
      Step sb x .other { x.goto p (.loop c (pos + r.toNat)) with disk := x.disk.endOp }
  /-- `error from writei` -/
  | error {x} {p : ι} {c} {pos : ℕ} {r : ℤ} (hp : x.proc p = .unlocked c pos r) (hw : c.write = true)
      (h : r ≠ (filewriteChunk c.n.toInt pos).toNat) :
      Step sb x (.ret p (x.calls p) (-1)) { x.goto p .idle with disk := x.disk.endOp }
  /-- Other calls keep the disk consistent, and do not change the file. -/
  | others {x} {s'} (hs : Consistent sb s')
      (hd : s'.dinode x.file.inum = x.disk.dinode x.file.inum)
      (hfile : SameFile x.disk s' (x.disk.dinode x.file.inum))
      (hout : x.inTx.card ≤ s'.outstanding) :
      Step sb x .other { x with disk := s' }

/-- The processes that share a file, from an offset on. -/
def sharedFile (ι : Type) [DecidableEq ι] [Fintype ι] (sb : Superblock) (inum : ℕ)
    (off₀ : UInt32) : LTS (Shared ι) (FileAct ι) where
  init x := x.file.type = .FD_INODE ∧ x.file.inum = inum ∧ x.file.off = off₀ ∧
    Consistent sb x.disk ∧ x.owner = none ∧ ∀ p, x.proc p = .idle
  step := Shared.Step sb

/-! ## One chunk -/

theorem sameFile_transaction (s : Disk) (d : Dinode) (n : ℕ) (l : List ℕ) :
    SameFile s { s with outstanding := n, logged := l } d :=
  ⟨fun k => by cases k <;> rfl, fun _ => rfl⟩

/-- The counter of `begin_op` and the log do not matter between two operations. -/
theorem Consistent.transaction {sb : Superblock} {s : Disk} (h : Consistent sb s) (n : ℕ)
    (l : List ℕ) : Consistent sb { s with outstanding := n, logged := l } := by
  have hslot : ∀ d k, { s with outstanding := n, logged := l }.slot d k = s.slot d k :=
    fun d => (sameFile_transaction s d n l).slot
  refine ⟨h.held, h.metadata, ⟨fun i k => ?_, fun i k i' k' => ?_⟩,
    fun i => (sameFile_transaction s _ n l).noHoles (h.noHoles i)⟩
  · rw [hslot]
    exact h.owned.used i k
  · rw [hslot, hslot]
    exact h.owned.inj i k i' k'

/-- What a call of `readi` or `writei` does. -/
structure Moved (sb : Superblock) (s : Disk) (f : File) (c : Call) (pos : ℕ) (r : ℤ) (s' : Disk) :
    Prop where
  consistent : Consistent sb s'
  outstanding : s'.outstanding = s.outstanding
  result : -1 ≤ r
  bound : f.off.toNat + r.toNat < 2 ^ 32
  before : ∀ k < f.off.toNat, k / BSIZE < MAXFILE →
    s'.byte (s'.dinode f.inum) k = s.byte (s.dinode f.inum) k
  stored : c.write = true → r.toNat ≤ (c.buf.drop pos).length ∧ ∀ k < r.toNat,
    (f.off.toNat + k) / BSIZE < MAXFILE ∧
      s'.byte (s'.dinode f.inum) (f.off.toNat + k) = (c.buf.drop pos).getD k 0

variable {sb : Superblock} {s s' : Disk} {f : File} {c : Call} {pos : ℕ} {r : ℤ}

/-- A call that fails changes nothing. -/
theorem Moved.refl (h : Consistent sb s) (hr : r = -1 ∨ r = 0) : Moved sb s f c pos r s := by
  have hlt := f.off.toNat_lt
  have hzero : r.toNat = 0 := by omega
  refine ⟨h, rfl, by omega, by omega, fun _ _ _ => rfl, fun _ => ?_⟩
  rw [hzero]
  exact ⟨Nat.zero_le _, fun k hk => (Nat.not_lt_zero k hk).elim⟩

theorem moved_of_transfer (h : Consistent sb s) (hout : c.write = true → 1 ≤ s.outstanding)
    (ht : Transfer sb s f c pos r s') : Moved sb s f c pos r s' := by
  cases ht with
  | @read hw _ out d' _ hrun =>
    have hlt := f.off.toNat_lt
    have hends : Ends (readi sb c.room (s.dinode f.inum) f.off c.n.toUInt32)
        (fun r t => t = s ∧ -1 ≤ r.1 ∧ f.off.toNat + r.1.toNat < 2 ^ 32) s := by
      refine ends_readi_of_loop (fun _ => ⟨rfl, (by decide : (-1 : ℤ) ≤ 0), hlt⟩) fun hoff _ => ?_
      refine (ends_readLoop h.held [] (fun k _ hk => (h.noHoles f.inum).mapped_of_lt (by omega))
        (Nat.zero_le _) (Nat.zero_le _)).post ?_
      rintro _ t ⟨ht, rfl⟩
      have hsize := (s.dinode f.inum).size.toNat_lt
      dsimp only
      refine ⟨ht, ?_⟩
      split_ifs <;> omega
    obtain ⟨rfl, h₁, h₂⟩ := hends.run_ok hrun
    exact ⟨h, rfl, h₁, h₂, fun _ _ _ => rfl, fun hw' => absurd (hw.symm.trans hw') nofun⟩
  | write hw hrun =>
    have hw' := (ends_writei h (hout hw) (c.buf.drop pos) f.inum f.off
      (filewriteChunk c.n.toInt pos)).run_ok hrun
    rcases hw' with ⟨-, hr, rfl⟩ | ⟨hfits, hu, tot, rfl, hst⟩
    · exact Moved.refl h (Or.inl (congrArg Prod.fst hr))
    · have hmax : f.off.toNat + (filewriteChunk c.n.toInt pos).toNat ≤ MAXFILE * BSIZE := hfits.2
      have hbound : MAXFILE * BSIZE < 2 ^ 32 := by decide
      have hcount := hst.count
      have hdinode : s'.dinode f.inum = _ := (congrFun hu.dinode f.inum).trans
        (Function.update_self ..)
      refine ⟨hu.consistent, hu.outstanding, by omega, ?_, fun k hk hdiv => ?_, fun _ =>
        ⟨?_, fun k hk => ⟨?_, ?_⟩⟩⟩
      · rw [Int.toNat_natCast]
        omega
      · rw [hdinode]
        exact hst.before k hdiv hk
      · rw [Int.toNat_natCast]
        exact hst.copied
      · rw [Int.toNat_natCast] at hk
        refine Nat.div_lt_of_lt_mul ?_
        rw [Nat.mul_comm]
        omega
      · rw [Int.toNat_natCast] at hk
        rw [hdinode, hst.inside _ (Nat.le_add_right ..) (by omega), Nat.add_sub_cancel_left]

/-! ## The file -/

/-- The chunks `l` that have been transferred, and the file; `n` more bytes have been transferred
than `f->off` says. -/
structure Data (sb : Superblock) (inum : ℕ) (off₀ : UInt32) (l : List (Chunk ι)) (f : File)
    (n : ℕ) (s : Disk) : Prop where
  inum_eq : f.inum = inum
  consistent : Consistent sb s
  tiles : Tiles off₀.toNat (l.map fun e => (e.off, e.len)) (f.off.toNat + n)
  bound : f.off.toNat + n < 2 ^ 32
  stored : ∀ e ∈ l, e.call.write = true → e.len ≤ (e.call.buf.drop e.pos).length ∧
    ∀ k < e.len, (e.off + k) / BSIZE < MAXFILE ∧
      s.byte (s.dinode inum) (e.off + k) = (e.call.buf.drop e.pos).getD k 0

variable {inum : ℕ} {off₀ : UInt32} {cs : List (Chunk ι)}

/-- Other files, and what is not data, do not matter. -/
theorem Data.keep {n : ℕ} (hd : Data sb inum off₀ cs f n s) (hs : Consistent sb s')
    (hdinode : s'.dinode inum = s.dinode inum) (hfile : SameFile s s' (s.dinode inum)) :
    Data sb inum off₀ cs f n s' := by
  refine ⟨hd.inum_eq, hs, hd.tiles, hd.bound, fun e he hw => ?_⟩
  obtain ⟨hlen, hbytes⟩ := hd.stored e he hw
  refine ⟨hlen, fun k hk => ⟨(hbytes k hk).1, ?_⟩⟩
  rw [hdinode, hfile.byte]
  exact (hbytes k hk).2

/-- A chunk begins at `f->off`, where all others have ended. -/
theorem Data.chunk {p : ι} {k : ℕ} (hd : Data sb inum off₀ cs f 0 s)
    (hm : Moved sb s f c pos r s') :
    Data sb inum off₀ (⟨p, k, c, pos, f.off.toNat, r⟩ :: cs) f r.toNat s' := by
  have hinum := hd.inum_eq
  refine ⟨hinum, hm.consistent, hd.tiles.cons r.toNat, hm.bound, fun e he hw => ?_⟩
  subst hinum
  rcases List.mem_cons.1 he with rfl | he
  · exact hm.stored hw
  · obtain ⟨hlen, hbytes⟩ := hd.stored e he hw
    refine ⟨hlen, fun k hk => ⟨(hbytes k hk).1, ?_⟩⟩
    have hend : e.off + e.len ≤ f.off.toNat :=
      hd.tiles.end_le (List.mem_map_of_mem (f := fun e : Chunk ι => (e.off, e.len)) he)
    rw [hm.before _ (by omega) (hbytes k hk).1]
    exact (hbytes k hk).2

theorem Data.advance (hd : Data sb inum off₀ cs f r.toNat s) :
    Data sb inum off₀ cs (f.advance r) 0 s := by
  have hbound := hd.bound
  have hoff : (f.advance r).off.toNat = f.off.toNat + r.toNat := by
    rw [File.advance]
    split_ifs with hr
    · have hint : (UInt32.ofInt r).toNat = r.toNat := by
        rw [UInt32.ofInt, UInt32.toNat_ofNat', Int.emod_eq_of_lt hr.le (by omega)]
        exact Nat.mod_eq_of_lt (by omega)
      rw [UInt32.toNat_add, hint]
      exact Nat.mod_eq_of_lt hbound
    · omega
  have hinum : (f.advance r).inum = f.inum := by
    rw [File.advance]
    split_ifs <;> rfl
  refine ⟨hinum.trans hd.inum_eq, hd.consistent, ?_, ?_, hd.stored⟩
  · rw [hoff]
    exact hd.tiles
  · rw [hoff]
    exact hbound

/-! ## Runs -/

variable [DecidableEq ι] (h : List (FileAct ι))

/-- The chunks of a run, newest first. -/
def chunks : List (FileAct ι) → List (Chunk ι)
  | [] => []
  | .chunk e :: h => e :: chunks h
  | .ret _ _ _ :: h | .other :: h => chunks h

/-- The chunks of the `k`-th call of `p`. -/
def chunksOf (p : ι) (k : ℕ) : List (Chunk ι) :=
  (chunks h).filter fun e => e.proc = p ∧ e.index = k

/-- The ranges of the file. -/
def ranges : List (ℕ × ℕ) := (chunks h).map fun e => (e.off, e.len)

/-- The ranges of the buffer of the `k`-th call of `p`. -/
def bufferRanges (p : ι) (k : ℕ) : List (ℕ × ℕ) := (chunksOf h p k).map fun e => (e.pos, e.len)

/-- What holds of the offset of a file that is shared, and of the calls that share it. -/
structure SharesOffset (inum : ℕ) (off₀ : UInt32) (x : Shared ι) : Prop where
  /-- The ranges of the chunks follow one another. -/
  consecutive : ∃ stop, Tiles off₀.toNat (ranges h) stop
  disjoint : (chunks h).Pairwise fun e e' => e'.off + e'.len ≤ e.off
  offset : x.owner = none → x.file.off.toNat = off₀.toNat + ((chunks h).map Chunk.len).sum
  /-- A call has one buffer, and its chunks take it from the front. -/
  call : ∀ e ∈ chunks h, ∀ e' ∈ chunks h, e.proc = e'.proc → e.index = e'.index → e.call = e'.call
  buffer : ∀ p k, ∃ stop, Tiles 0 (bufferRanges h p k) stop
  /-- What `filewrite` has reported is in the file. -/
  stored : ∀ e ∈ chunks h, e.call.write = true → e.len ≤ (e.call.buf.drop e.pos).length ∧
    ∀ k < e.len, x.disk.byte (x.disk.dinode inum) (e.off + k) = (e.call.buf.drop e.pos).getD k 0
  returned : ∀ p k (r : ℤ), .ret p k r ∈ h → r = -1 ∨ r = (((chunksOf h p k).map Chunk.len).sum : ℕ)

/-! ## The calls of one process -/

/-- Only `filewrite` makes transactions and gets on in its buffer, and a result is -1 or a count. -/
def Stage.Ok : Stage → Prop
  | .idle => True
  | .begun c _ => c.write = true
  | .loop c pos | .locked c pos => c.write = false → pos = 0
  | .moved c pos r | .advanced c pos r | .unlocked c pos r => (c.write = false → pos = 0) ∧ -1 ≤ r

/-- The chunks of the calls of `p`, which is at `a` in its `k`-th call. -/
structure Own (p : ι) (a : Stage) (k : ℕ) : Prop where
  buffer : ∀ j, ∃ stop, Tiles 0 (bufferRanges h p j) stop ∧ (j = k → a ≠ .idle → stop = a.count)
  index : ∀ e ∈ chunks h, e.proc = p → e.index ≤ k
  current : ∀ e ∈ chunks h, e.proc = p → e.index = k → ∀ c, a.call? = some c → e.call = c
  call : ∀ e ∈ chunks h, ∀ e' ∈ chunks h, e.proc = p → e'.proc = p → e.index = e'.index →
    e.call = e'.call
  ok : a.Ok
  returned : ∀ j (r : ℤ), .ret p j r ∈ h → (j < k ∨ j = k ∧ a = .idle) ∧
    (r = -1 ∨ r = (((chunksOf h p j).map Chunk.len).sum : ℕ))

variable {h} {p : ι} {a b : Stage} {k : ℕ} {x x' : Shared ι} {l : FileAct ι}

theorem Stage.call?_eq_none : a.call? = none ↔ a = .idle := by
  cases a <;> first | exact ⟨fun _ => rfl, fun _ => rfl⟩ | exact ⟨nofun, nofun⟩

theorem chunksOf_cons (e : Chunk ι) (p : ι) (j : ℕ) : chunksOf (.chunk e :: h) p j =
    if e.proc = p ∧ e.index = j then e :: chunksOf h p j else chunksOf h p j := by
  rw [chunksOf, chunks, List.filter_cons]
  simp only [decide_eq_true_eq]
  rfl

theorem Own.init (p : ι) (k : ℕ) : Own [] p .idle k where
  buffer _ := ⟨0, rfl, fun _ hne => (hne rfl).elim⟩
  index _ he := (List.not_mem_nil he).elim
  current _ he := (List.not_mem_nil he).elim
  call _ he := (List.not_mem_nil he).elim
  ok := trivial
  returned _ _ he := (List.not_mem_nil he).elim

/-- The sum of the chunks of a call is the end of the last one. -/
theorem sum_of_tiles {j stop : ℕ} (ht : Tiles 0 (bufferRanges h p j) stop) :
    ((chunksOf h p j).map Chunk.len).sum = stop := by
  rw [ht.stop_eq, Nat.zero_add, bufferRanges, List.map_map]
  rfl

/-- Steps that are not seen: the process stays in its call, and has transferred nothing. -/
theorem Own.other (hp : Own h p a k) (hcall : b.call? = a.call?) (hcount : b.count = a.count)
    (hok : b.Ok) : Own (.other :: h) p b k := by
  have hidle : b = .idle ↔ a = .idle := by
    rw [← Stage.call?_eq_none, hcall, Stage.call?_eq_none]
  refine ⟨fun j => ?_, hp.index, fun e he h₁ h₂ c hc => hp.current e he h₁ h₂ c (hcall ▸ hc),
    hp.call, hok, fun j r hr => ?_⟩
  · obtain ⟨stop, ht, hstop⟩ := hp.buffer j
    exact ⟨stop, ht, fun hj hb => hcount ▸ hstop hj fun ha => hb (hidle.2 ha)⟩
  · rcases List.mem_cons.1 hr with hr | hr
    · cases hr
    · rw [hidle]
      exact hp.returned j r hr

/-- A new call. -/
theorem Own.start (hp : Own h p .idle k) (c : Call) : Own (.other :: h) p (.loop c 0) (k + 1) := by
  have hnone : chunksOf h p (k + 1) = [] := by
    refine List.filter_eq_nil_iff.2 fun e he hd => ?_
    obtain ⟨hproc, hindex⟩ := of_decide_eq_true hd
    have := hp.index e he hproc
    omega
  refine ⟨fun j => ?_, fun e he h₁ => (hp.index e he h₁).trans (Nat.le_succ k),
    fun e he h₁ h₂ => ?_, hp.call, fun _ => rfl, fun j r hr => ?_⟩
  · by_cases hj : j = k + 1
    · subst hj
      have hranges : bufferRanges h p (k + 1) = [] := congrArg (List.map _) hnone
      exact ⟨0, hranges ▸ rfl, fun _ _ => rfl⟩
    · obtain ⟨stop, ht, -⟩ := hp.buffer j
      exact ⟨stop, ht, fun he => (hj he).elim⟩
  · have := hp.index e he h₁
    omega
  · rcases List.mem_cons.1 hr with hr | hr
    · cases hr
    · obtain ⟨hj, hr⟩ := hp.returned j r hr
      exact ⟨Or.inl (by omega), hr⟩

/-- The call returns -1, or what it has transferred. -/
theorem Own.ret {r : ℤ} (hp : Own h p a k) (ha : a ≠ .idle) (hr : r = -1 ∨ r = a.count) :
    Own (.ret p k r :: h) p .idle k := by
  refine ⟨fun j => ?_, hp.index, fun e he h₁ h₂ => nofun, hp.call, trivial, fun j r' hr' => ?_⟩
  · obtain ⟨stop, ht, -⟩ := hp.buffer j
    exact ⟨stop, ht, fun _ hne => (hne rfl).elim⟩
  · rcases List.mem_cons.1 hr' with hr' | hr'
    · cases hr'
      obtain ⟨stop, ht, hstop⟩ := hp.buffer k
      refine ⟨Or.inr ⟨rfl, rfl⟩, hr.imp_right fun hr => ?_⟩
      rw [hr, ← hstop rfl ha]
      exact congrArg Nat.cast (sum_of_tiles ht).symm
    · obtain ⟨hj, hr'⟩ := hp.returned j r' hr'
      exact ⟨hj.imp_right fun hj => ⟨hj.1, rfl⟩, hr'⟩

/-- A chunk of the call. -/
theorem Own.chunk {c : Call} {pos off : ℕ} {r : ℤ} (hp : Own h p (.locked c pos) k) (hr : -1 ≤ r) :
    Own (.chunk ⟨p, k, c, pos, off, r⟩ :: h) p (.moved c pos r) k := by
  refine ⟨fun j => ?_, fun e he hproc => ?_, fun e he h₁ h₂ c' hc => ?_,
    fun e he e' he' h₁ h₂ h₃ => ?_, ⟨hp.ok, hr⟩, fun j r' hr' => ?_⟩
  · obtain ⟨stop, ht, hstop⟩ := hp.buffer j
    rw [bufferRanges, chunksOf_cons]
    by_cases hj : k = j
    · rw [if_pos ⟨rfl, hj⟩]
      obtain rfl : stop = pos := hstop hj.symm nofun
      exact ⟨stop + r.toNat, ht.cons r.toNat, fun _ _ => rfl⟩
    · rw [if_neg fun hd => hj hd.2]
      exact ⟨stop, ht, fun hj' => (hj hj'.symm).elim⟩
  · rcases List.mem_cons.1 he with rfl | he
    · exact le_rfl
    · exact hp.index e he hproc
  · obtain rfl : c = c' := Option.some.inj hc
    rcases List.mem_cons.1 he with rfl | he
    · rfl
    · exact hp.current e he h₁ h₂ c rfl
  · rcases List.mem_cons.1 he with rfl | he
    · rcases List.mem_cons.1 he' with rfl | he'
      · rfl
      · exact (hp.current e' he' h₂ h₃.symm c rfl).symm
    · rcases List.mem_cons.1 he' with rfl | he'
      · exact hp.current e he h₁ h₃ c rfl
      · exact hp.call e he e' he' h₁ h₂ h₃
  · rcases List.mem_cons.1 hr' with hr' | hr'
    · cases hr'
    · obtain ⟨hj, hr'⟩ := hp.returned j r' hr'
      have hlt : j < k := hj.resolve_right fun hj => nomatch hj.2
      rw [chunksOf_cons, if_neg fun hd => hlt.ne' hd.2]
      exact ⟨Or.inl hlt, hr'⟩

/-- What is seen of another process. -/
def FileAct.Foreign (p : ι) : FileAct ι → Prop
  | .chunk e => e.proc ≠ p
  | .ret q _ _ => q ≠ p
  | .other => True

/-- The steps of other processes do not matter. -/
theorem Own.foreign (hp : Own h p a k) (hl : l.Foreign p) : Own (l :: h) p a k := by
  have hchunks : ∀ e ∈ chunks (l :: h), e.proc = p → e ∈ chunks h := by
    intro e he hproc
    cases l with
    | chunk e₀ => exact (List.mem_cons.1 he).resolve_left fun heq => hl (heq ▸ hproc)
    | ret => exact he
    | other => exact he
  have hof : ∀ j, chunksOf (l :: h) p j = chunksOf h p j := by
    intro j
    cases l with
    | chunk e₀ => rw [chunksOf_cons, if_neg fun hd => hl hd.1]
    | ret => rfl
    | other => rfl
  refine ⟨fun j => ?_, fun e he h₁ => hp.index e (hchunks e he h₁) h₁,
    fun e he h₁ => hp.current e (hchunks e he h₁) h₁,
    fun e he e' he' h₁ h₂ => hp.call e (hchunks e he h₁) e' (hchunks e' he' h₂) h₁ h₂, hp.ok,
    fun j r hr => ?_⟩
  · rw [bufferRanges, hof]
    exact hp.buffer j
  · rw [hof]
    refine hp.returned j r ((List.mem_cons.1 hr).resolve_left fun heq => ?_)
    rw [← heq] at hl
    exact hl rfl

/-! ## The invariant -/

/-- The bytes that have been transferred and are not in `f->off` yet. -/
def Shared.pending (x : Shared ι) : ℕ :=
  match x.owner with
  | none => 0
  | some p => (x.proc p).pending

omit [DecidableEq ι] in
theorem pending_of_owner {a : Stage} (ho : x.owner = some p) (hp : x.proc p = a) :
    x.pending = a.pending := by
  rw [Shared.pending, ho]
  exact congrArg Stage.pending hp

omit [DecidableEq ι] in
theorem pending_of_free (ho : x.owner = none) : x.pending = 0 := by
  rw [Shared.pending, ho]

/-- The invariant of the processes that share a file. -/
structure Shared.Inv [Fintype ι] (sb : Superblock) (inum : ℕ) (off₀ : UInt32)
    (h : List (FileAct ι)) (x : Shared ι) : Prop where
  data : Data sb inum off₀ (chunks h) x.file x.pending x.disk
  holds : ∀ p, (x.proc p).holds = true ↔ x.owner = some p
  inTx : x.inTx.card ≤ x.disk.outstanding
  own : ∀ p, Own h p (x.proc p) (x.calls p)

@[simp] theorem Shared.goto_proc_self (x : Shared ι) (p : ι) (b : Stage) :
    (x.goto p b).proc p = b := Function.update_self ..

theorem Shared.goto_proc_of_ne (x : Shared ι) {p q : ι} (hq : q ≠ p) (b : Stage) :
    (x.goto p b).proc q = x.proc q := Function.update_of_ne hq ..

/-- A step of `p` that keeps what it holds. -/
theorem holds_goto (hx : ∀ q, (x.proc q).holds = true ↔ x.owner = some q) (hp : x.proc p = a)
    (hb : b.holds = a.holds) (q : ι) : ((x.goto p b).proc q).holds = true ↔ x.owner = some q := by
  by_cases hq : q = p
  · subst hq
    rw [Shared.goto_proc_self, hb, ← hp]
    exact hx q
  · rw [Shared.goto_proc_of_ne x hq]
    exact hx q

section Inv

variable [Fintype ι]

theorem inTx_goto (x : Shared ι) (p : ι) (b : Stage) :
    (x.goto p b).inTx = if b.inTx then insert p x.inTx else x.inTx.erase p := by
  ext q
  rw [Shared.inTx, Finset.mem_filter]
  by_cases hq : q = p
  · subst hq
    rw [Shared.goto_proc_self]
    split_ifs with hb <;> simp [hb]
  · rw [Shared.goto_proc_of_ne x hq]
    split_ifs with hb <;> simp [hq, Shared.inTx]

omit [DecidableEq ι] in
theorem mem_inTx {q : ι} : q ∈ x.inTx ↔ (x.proc q).inTx = true := by
  rw [Shared.inTx, Finset.mem_filter]
  exact and_iff_right (Finset.mem_univ q)

/-- A step of `p` that neither begins nor ends a transaction. -/
theorem inTx_goto_of_eq (hp : x.proc p = a) (hb : b.inTx = a.inTx) :
    (x.goto p b).inTx = x.inTx := by
  have hmem : p ∈ x.inTx ↔ a.inTx = true := hp ▸ mem_inTx
  rw [inTx_goto, hb]
  split_ifs with ha
  · exact Finset.insert_eq_of_mem (hmem.2 ha)
  · exact Finset.erase_eq_of_notMem fun hm => ha (hmem.1 hm)

theorem card_inTx_insert (hb : b.inTx = true) : (x.goto p b).inTx.card ≤ x.inTx.card + 1 := by
  rw [inTx_goto, if_pos hb]
  exact Finset.card_insert_le ..

theorem card_inTx_erase (hp : x.proc p = a) (ha : a.inTx = true) (hb : b.inTx = false) :
    (x.goto p b).inTx.card = x.inTx.card - 1 := by
  rw [inTx_goto, if_neg (Bool.eq_false_iff.1 hb)]
  exact Finset.card_erase_of_mem (mem_inTx.2 (hp ▸ ha))

omit [Fintype ι] in
theorem pending_goto (hp : x.proc p = a) (hb : b.pending = a.pending) :
    (x.goto p b).pending = x.pending := by
  have howner : (x.goto p b).owner = x.owner := rfl
  rw [Shared.pending, Shared.pending, howner]
  cases x.owner with
  | none => rfl
  | some q =>
    by_cases hq : q = p
    · subst hq
      dsimp only
      rw [Shared.goto_proc_self, hb, hp]
    · dsimp only
      rw [Shared.goto_proc_of_ne x hq]

omit [Fintype ι] in
theorem own_goto (ho : ∀ q, Own h q (x.proc q) (x.calls q)) (hp : Own (l :: h) p b (x.calls p))
    (hl : ∀ q, q ≠ p → l.Foreign q) (q : ι) : Own (l :: h) q ((x.goto p b).proc q) (x.calls q) := by
  by_cases hq : q = p
  · subst hq
    rw [Shared.goto_proc_self]
    exact hp
  · rw [Shared.goto_proc_of_ne x hq]
    exact (ho q).foreign (hl q hq)

namespace Shared.Inv

/-- A step of `p` from `a` to `b` that takes no lock and transfers nothing. -/
theorem goto (hi : x.Inv sb inum off₀ h) (hp : x.proc p = a) (hholds : b.holds = a.holds)
    (hpending : b.pending = a.pending) (hcs : chunks (l :: h) = chunks h)
    (hl : ∀ q, q ≠ p → l.Foreign q) (hown : Own (l :: h) p b (x.calls p))
    (hs : Consistent sb s') (hdinode : s'.dinode inum = x.disk.dinode inum)
    (hfile : SameFile x.disk s' (x.disk.dinode inum)) (hout : (x.goto p b).inTx.card ≤ s'.outstanding) :
    Inv sb inum off₀ (l :: h) { x.goto p b with disk := s' } := by
  refine ⟨?_, holds_goto hi.holds hp hholds, hout, own_goto hi.own hown hl⟩
  have hpend : ({ x.goto p b with disk := s' } : Shared ι).pending = x.pending :=
    pending_goto hp hpending
  rw [hcs, hpend]
  exact hi.data.keep hs hdinode hfile

theorem stay (hi : x.Inv sb inum off₀ h) (hp : x.proc p = a) (hholds : b.holds = a.holds)
    (hpending : b.pending = a.pending) (hcs : chunks (l :: h) = chunks h)
    (hl : ∀ q, q ≠ p → l.Foreign q) (hown : Own (l :: h) p b (x.calls p)) (hin : b.inTx = a.inTx) :
    (x.goto p b).Inv sb inum off₀ (l :: h) :=
  hi.goto hp hholds hpending hcs hl hown hi.data.consistent rfl ⟨fun _ => rfl, fun _ => rfl⟩
    (inTx_goto_of_eq hp hin ▸ hi.inTx)

/-- A chunk. -/
theorem transfer (hi : x.Inv sb inum off₀ h) (hp : x.proc p = .locked c pos)
    (ht : Transfer sb x.disk x.file c pos r s') :
    Inv sb inum off₀ (.chunk ⟨p, x.calls p, c, pos, x.file.off.toNat, r⟩ :: h)
      { x.goto p (.moved c pos r) with disk := s' } := by
  have howner : x.owner = some p := (hi.holds p).1 (hp ▸ rfl)
  have hpend : x.pending = 0 := pending_of_owner howner hp
  have hpend' : ({ x.goto p (.moved c pos r) with disk := s' } : Shared ι).pending = r.toNat :=
    pending_of_owner (a := .moved c pos r) howner (x.goto_proc_self p _)
  have hm : Moved sb x.disk x.file c pos r s' := by
    refine moved_of_transfer hi.data.consistent (fun hw => ?_) ht
    have hmem : p ∈ x.inTx := mem_inTx.2 (hp ▸ hw)
    exact (Finset.card_pos.2 ⟨p, hmem⟩).trans_le hi.inTx
  have hdata := hi.data
  rw [hpend] at hdata
  refine ⟨?_, holds_goto hi.holds hp rfl, ?_, own_goto hi.own ?_ fun q hq => hq.symm⟩
  · rw [hpend']
    exact hdata.chunk hm
  · have hin : (x.goto p (.moved c pos r)).inTx = x.inTx := inTx_goto_of_eq hp rfl
    exact (congrArg Finset.card hin).le.trans (hi.inTx.trans hm.outstanding.ge)
  · exact (hp ▸ hi.own p).chunk hm.result

theorem step (hi : x.Inv sb inum off₀ h) (hstep : Shared.Step sb x l x') :
    x'.Inv sb inum off₀ (l :: h) := by
  have hinum := hi.data.inum_eq
  have hcons := hi.data.consistent
  have hforeign : ∀ {p q : ι} {k : ℕ} {r : ℤ}, q ≠ p → FileAct.Foreign q (.ret p k r) :=
    fun hq => hq.symm
  cases hstep with
  | call p hp c =>
    have hgoto : ∀ q, q ≠ p → (x.goto p (.loop c 0)).proc q = x.proc q := fun q hq =>
      Shared.goto_proc_of_ne x hq _
    refine ⟨?_, holds_goto hi.holds hp rfl, ?_, fun q => ?_⟩
    · have hpend := pending_goto (b := .loop c 0) hp rfl
      exact hpend.symm ▸ hi.data
    · exact (congrArg Finset.card (inTx_goto_of_eq (b := .loop c 0) hp rfl)).le.trans hi.inTx
    · by_cases hq : q = p
      · subst hq
        have hown : Own h q .idle (x.calls q) := hp ▸ hi.own q
        exact (congrArg₂ (Own _ q) (x.goto_proc_self q _) (Function.update_self ..)).mpr
          (hown.start c)
      · exact (congrArg₂ (Own _ q) (hgoto q hq) (Function.update_of_ne hq ..)).mpr
          ((hi.own q).foreign trivial)
  | @refuse p c hp hf =>
    exact hi.stay hp rfl rfl rfl (fun q hq => hforeign hq)
      ((hp ▸ hi.own p).ret nofun (Or.inl rfl)) rfl
  | @done p c pos hp hw hn =>
    refine hi.stay hp rfl rfl rfl (fun q hq => hforeign hq) ((hp ▸ hi.own p).ret nofun ?_) rfl
    split_ifs with hpos
    · exact Or.inr hpos.symm
    · exact Or.inl rfl
  | @beginOp p c pos hp hw hf hn =>
    exact hi.goto hp rfl rfl rfl (fun _ _ => trivial) ((hp ▸ hi.own p).other rfl rfl hw)
      (hcons.transaction _ _) rfl (sameFile_transaction ..)
      ((card_inTx_insert rfl).trans (Nat.succ_le_succ hi.inTx))
  | @ilock p c pos ho hp =>
    have hstage : ∃ a, x.proc p = a ∧ a.call? = some c ∧ a.count = pos ∧ a.inTx = c.write := by
      rcases hp with hp | ⟨hp, hw, -⟩
      · have hown : Own h p (.begun c pos) (x.calls p) := hp ▸ hi.own p
        exact ⟨_, hp, rfl, rfl, hown.ok.symm⟩
      · exact ⟨_, hp, rfl, rfl, hw.symm⟩
    have hok : (Stage.locked c pos).Ok := by
      rcases hp with hp | ⟨hp, -, -⟩
      · have hown : Own h p (.begun c pos) (x.calls p) := hp ▸ hi.own p
        exact fun hw' => absurd (hown.ok.symm.trans hw') nofun
      · have hown : Own h p (.loop c pos) (x.calls p) := hp ▸ hi.own p
        exact hown.ok
    obtain ⟨a, ha, hcall, hcount, hin⟩ := hstage
    refine ⟨?_, fun q => ?_, ?_,
      own_goto hi.own ((ha ▸ hi.own p).other hcall.symm hcount.symm hok) fun _ _ => trivial⟩
    · have hpend : ({ x.goto p (.locked c pos) with owner := some p } : Shared ι).pending = 0 :=
        pending_of_owner (a := .locked c pos) rfl (x.goto_proc_self p _)
      rw [hpend, ← pending_of_free ho]
      exact hi.data
    · by_cases hq : q = p
      · subst hq
        exact ⟨fun _ => rfl, fun _ => congrArg Stage.holds (x.goto_proc_self q _)⟩
      · have hfree : (x.proc q).holds ≠ true := fun hh => by
          have := (hi.holds q).1 hh
          rw [ho] at this
          cases this
        refine ⟨fun hh => (hfree ?_).elim, fun he => (hq (Option.some.inj he).symm).elim⟩
        exact (congrArg Stage.holds (x.goto_proc_of_ne hq _)).symm.trans hh
    · exact (congrArg Finset.card (inTx_goto_of_eq (b := .locked c pos) ha hin.symm)).le.trans hi.inTx
  | transfer hp ht => exact hi.transfer hp ht
  | @advance p c pos r hp =>
    have howner : x.owner = some p := (hi.holds p).1 (hp ▸ rfl)
    have hdata := hi.data
    have hown : Own h p (.moved c pos r) (x.calls p) := hp ▸ hi.own p
    rw [pending_of_owner howner hp] at hdata
    refine ⟨?_, holds_goto hi.holds hp rfl,
      (congrArg Finset.card (inTx_goto_of_eq (b := .advanced c pos r) hp rfl)).le.trans hi.inTx,
      own_goto hi.own (hown.other rfl rfl hown.ok) fun _ _ => trivial⟩
    have hpend : ({ x.goto p (.advanced c pos r) with file := x.file.advance r } :
        Shared ι).pending = 0 :=
      pending_of_owner (a := .advanced c pos r) howner (x.goto_proc_self p _)
    rw [hpend]
    exact hdata.advance
  | @iunlock p c pos r hp =>
    have howner : x.owner = some p := (hi.holds p).1 (hp ▸ rfl)
    have hown : Own h p (.advanced c pos r) (x.calls p) := hp ▸ hi.own p
    refine ⟨?_, fun q => ⟨fun hh => ?_, nofun⟩,
      (congrArg Finset.card (inTx_goto_of_eq (b := .unlocked c pos r) hp rfl)).le.trans hi.inTx,
      own_goto hi.own (hown.other rfl rfl hown.ok) fun _ _ => trivial⟩
    · have hpend : ({ x.goto p (.unlocked c pos r) with owner := none } : Shared ι).pending = 0 :=
        pending_of_free rfl
      have hdata := hi.data
      rw [pending_of_owner howner hp] at hdata
      rw [hpend]
      exact hdata
    · by_cases hq : q = p
      · subst hq
        have hfalse := (congrArg Stage.holds (x.goto_proc_self q (.unlocked c pos r))).symm.trans hh
        cases hfalse
      · have hother := (congrArg Stage.holds (x.goto_proc_of_ne hq (.unlocked c pos r))).symm.trans hh
        exact (hq (Option.some.inj (howner.symm.trans ((hi.holds q).1 hother))).symm).elim
  | @readEnd p c pos r hp hw =>
    have hok : (Stage.unlocked c pos r).Ok := hp ▸ (hi.own p).ok
    refine hi.stay hp rfl rfl rfl (fun q hq => hforeign hq) ((hp ▸ hi.own p).ret nofun ?_) hw.symm
    have hpos := hok.1 hw
    have hr := hok.2
    rw [Stage.count]
    omega
  | @next p c pos r hp hw hr =>
    refine hi.goto hp rfl rfl rfl (fun _ _ => trivial)
      ((hp ▸ hi.own p).other rfl rfl fun hw' => absurd (hw.symm.trans hw') nofun)
      (hcons.transaction _ _) rfl (sameFile_transaction ..) ?_
    rw [card_inTx_erase hp hw rfl]
    exact Nat.sub_le_sub_right hi.inTx 1
  | @error p c pos r hp hw hr =>
    refine hi.goto hp rfl rfl rfl (fun q hq => hforeign hq)
      ((hp ▸ hi.own p).ret nofun (Or.inl rfl)) (hcons.transaction _ _) rfl
      (sameFile_transaction ..) ?_
    rw [card_inTx_erase hp hw rfl]
    exact Nat.sub_le_sub_right hi.inTx 1
  | others hs hd hfile hout =>
    rw [hinum] at hd hfile
    exact ⟨hi.data.keep hs hd hfile, hi.holds, hout, fun p => (hi.own p).foreign trivial⟩

/-- What the invariant says of the offset. -/
theorem sharesOffset (hi : x.Inv sb inum off₀ h) : SharesOffset h inum off₀ x where
  consecutive := ⟨_, hi.data.tiles⟩
  disjoint := List.pairwise_map.1 hi.data.tiles.pairwise
  offset ho := by
    have hstop := hi.data.tiles.stop_eq
    rw [pending_of_free ho, List.map_map] at hstop
    exact hstop
  call e he e' he' hproc hindex := (hi.own e.proc).call e he e' he' rfl hproc.symm hindex
  buffer p k :=
    let ⟨stop, ht, _⟩ := (hi.own p).buffer k
    ⟨stop, ht⟩
  stored e he hw :=
    let ⟨hlen, hbytes⟩ := hi.data.stored e he hw
    ⟨hlen, fun k hk => (hbytes k hk).2⟩
  returned p k r hr := ((hi.own p).returned k r hr).2

end Shared.Inv

/-- **A shared offset.** However the calls interleave, and wherever they fail: the ranges that they
transfer follow one another, `f->off` is the sum of what has been reported, and what a `filewrite`
has reported is the front of its buffer. -/
theorem shared_offset (sb : Superblock) (inum : ℕ) (off₀ : UInt32)
    (hr : (sharedFile ι sb inum off₀).Run h x) : SharesOffset h inum off₀ x := by
  have hinv : x.Inv sb inum off₀ h := by
    refine hr.invariant (fun x hx => ?_) fun _ _ _ _ _ hi hstep => hi.step hstep
    obtain ⟨-, hinum, hoff, hs, ho, hidle⟩ := hx
    have hlt := x.file.off.toNat_lt
    refine ⟨⟨hinum, hs, ?_, ?_, nofun⟩, fun p => ?_, ?_, fun p => ?_⟩
    · rw [pending_of_free ho, hoff]
      rfl
    · rw [pending_of_free ho]
      exact hlt
    · rw [hidle, ho]
      exact ⟨nofun, nofun⟩
    · have hnone : x.inTx = ∅ := Finset.filter_eq_empty_iff.2 fun p _ => by
        rw [hidle]
        exact Bool.false_ne_true
      rw [hnone]
      exact Nat.zero_le _
    · rw [hidle]
      exact .init p _
  exact hinv.sharesOffset

/-- `read(fd, buf, 1)` -/
def readOne : Call where
  write := false
  buf := []
  room := 1
  n := 1

/-- `write(fd, buf, 2)` -/
def writeTwo : Call where
  write := true
  buf := [7, 8]
  room := 0
  n := 2

/-- The byte of `smallDisk`, read while another process is in a transaction. -/
theorem transfer_readOne : Transfer newSuperblock smallDisk.beginOp openFile readOne 0 1
    smallDisk.beginOp := by
  have hs : Consistent newSuperblock smallDisk.beginOp := consistent_smallDisk.transaction 2 []
  have hends : Ends (readi newSuperblock readOne.room (smallDisk.beginOp.dinode openFile.inum)
      openFile.off readOne.n.toUInt32) _ smallDisk.beginOp NoStop :=
    ends_readi_bytes (k := 1) rfl (hs.noHoles 1) (by decide) (by decide) (by decide)
  obtain ⟨⟨r, out, d'⟩, s', hrun, rfl, hr⟩ := hends.returns
  have hone : r = if 1 ≤ 1 then ((1 : ℕ) : ℤ) else -1 := congrArg Prod.fst hr
  obtain rfl : r = 1 := hone.trans (if_pos le_rfl)
  exact .read rfl hrun

/-- Two bytes written behind it. -/
theorem transfer_writeTwo : ∃ s', Transfer newSuperblock smallDisk.beginOp (openFile.advance 1)
    writeTwo 0 2 s' := by
  let run := (filewriteSection newSuperblock writeTwo.buf (openFile.advance 1).inum true
    (smallDisk.beginOp.dinode 1) (openFile.advance 1).off writeTwo.n.toInt 0).run disk
    smallDisk.beginOp
  have htwo : (run.toOption.map fun x => x.1.1) = some 2 := by decide +kernel
  match hrun : run with
  | .ok ((r, d'), s') =>
    obtain rfl : r = 2 := Option.some.inj htwo
    exact ⟨s', .write rfl hrun⟩
  | .error _ =>
    cases htwo

/-- Two processes share a file of one byte: the one reads it when the other has begun to write, and
the two bytes of the write follow it. -/
theorem shared_offset_interleaved : ∃ h x, (sharedFile (Fin 2) newSuperblock 1 0).Run h x ∧
    ranges h = [(1, 2), (0, 1)] ∧ .ret 0 1 2 ∈ h ∧ .ret 1 1 1 ∈ h ∧ x.file.off = 3 ∧
    SharesOffset h 1 0 x := by
  obtain ⟨s', hwrite⟩ := transfer_writeTwo
  have hinit : (sharedFile (Fin 2) newSuperblock 1 0).Run []
      ⟨openFile, smallDisk, none, fun _ => .idle, fun _ => 0⟩ :=
    .init ⟨rfl, rfl, rfl, consistent_smallDisk, rfl, fun _ => rfl⟩
  have hbegun := ((hinit.step (.call 0 rfl writeTwo)).step (.call 1 rfl readOne)).step
    (.beginOp (p := 0) (c := writeTwo) rfl rfl rfl (by decide))
  have hread := (hbegun.step (.ilock (p := 1) rfl (Or.inr ⟨rfl, rfl, rfl⟩))).step
    (.transfer (p := 1) rfl transfer_readOne)
  have hlocked := ((hread.step (.advance (p := 1) rfl)).step (.iunlock (p := 1) rfl)).step
    (.ilock (p := 0) rfl (Or.inl rfl))
  have hwritten := (hlocked.step (.transfer (p := 0) rfl hwrite)).step (.advance (p := 0) rfl)
  have hnext := (((hwritten.step (.iunlock (p := 0) rfl)).step
    (.readEnd (p := 1) rfl rfl)).step (.next (p := 0) rfl rfl (by decide)))
  have hdone := hnext.step (.done (p := 0) (c := writeTwo) rfl rfl (by decide))
  exact ⟨_, _, hdone, rfl, .head _, .tail _ (.tail _ (.head _)), rfl,
    shared_offset newSuperblock 1 0 hdone⟩

end Inv

end Steps

end Xv6.Fs
