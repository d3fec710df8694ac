import Mathlib.Algebra.Order.BigOperators.Group.Finset
import Mathlib.Data.Fintype.Basic
import Mathlib.Data.List.FinRange
import Xv6.Foundations.Circle
import Xv6.Foundations.Transition
import Xv6.Log.Defs

/-!
# The buffer cache as a list of buffers

`bio.c` with its list of buffers, for a cache of `n` buffers and any number of processes. What a
function does under `bcache.lock` is one step; the sleeplock of a buffer is taken and released in
steps of its own, so a process can be between `bget`'s choice of a buffer and its lock (`waits`),
and in `brelse` between the lock and the list (`releases`).

`log.c` pins buffers: `log_write` by the holder of a buffer, `install_trans` unpins them one after
the other, in the order of the log.
-/

namespace Xv6.Bcache

open Log (BlockNo MAXOPBLOCKS LOGBLOCKS)

/-- The size of the disk block cache. -/
def NBUF : ℕ := MAXOPBLOCKS * 3

instance : NeZero NBUF := ⟨by decide⟩

/-- The device of the root file system, which is also the log's. -/
def ROOTDEV : BitVec 32 := 1

/-- A node of the list: a buffer, or `bcache.head`. -/
abbrev Node (n : ℕ) := Option (Fin n)

/-- The fields of `struct buf` that `bio.c` uses for its list. -/
structure Buf where
  dev : BitVec 32
  blockno : BlockNo
  refcnt : ℕ
  valid : Bool
  deriving DecidableEq

/-- The cached block is `blockno` of `dev`. -/
def Buf.Is (b : Buf) (dev : BitVec 32) (blockno : BlockNo) : Prop :=
  b.dev = dev ∧ b.blockno = blockno

instance (b : Buf) (dev : BitVec 32) (blockno : BlockNo) : Decidable (b.Is dev blockno) :=
  inferInstanceAs (Decidable (_ ∧ _))

/-- `bcache`: the list and the buffers. -/
structure Cache (n : ℕ) where
  links : Links (Node n)
  buf : Fin n → Buf

namespace Cache

variable {n : ℕ} (c : Cache n) (b : Fin n)

/-- Write the fields of a buffer. -/
def setBuf (x : Buf) : Cache n := { c with buf := Function.update c.buf b x }

/-- The list that `binit` makes. -/
def binit : Links (Node n) :=
  (List.finRange n).foldl (fun L b => L.push none (some b)) ⟨fun _ => none, fun _ => none⟩

/-- The first loop of `bget`: is the block already cached? -/
def lookup (dev : BitVec 32) (blockno : BlockNo) : Option (Fin n) :=
  (Links.scan c.links.next (fun x => x.any fun b => (c.buf b).Is dev blockno) none (n + 1)
    (c.links.next none)).join

/-- The second loop of `bget`: the least recently used unused buffer. -/
def unused : Option (Fin n) :=
  (Links.scan c.links.prev (fun x => x.any fun b => (c.buf b).refcnt = 0) none (n + 1)
    (c.links.prev none)).join

/-- `b->refcnt++`. -/
def bpin : Cache n := c.setBuf b { c.buf b with refcnt := (c.buf b).refcnt + 1 }

/-- `b->refcnt--`. -/
def bunpin : Cache n := c.setBuf b { c.buf b with refcnt := (c.buf b).refcnt - 1 }

/-- What `bget` does to a buffer that it recycles. -/
def recycle (dev : BitVec 32) (blockno : BlockNo) : Cache n :=
  c.setBuf b { dev := dev, blockno := blockno, valid := false, refcnt := 1 }

/-- `bget` up to the sleeplock: the buffer; `none` is the panic "bget: no buffers". -/
def bget (dev : BitVec 32) (blockno : BlockNo) : Option (Fin n × Cache n) :=
  match c.lookup dev blockno with
  | some b => some (b, c.bpin b)
  | none =>
    match c.unused with
    | some b => some (b, c.recycle b dev blockno)
    | none => none

/-- `b->valid = 1`. -/
def fill : Cache n := c.setBuf b { c.buf b with valid := true }

/-- `brelse` after the sleeplock is released. -/
def brelse : Cache n :=
  let c := c.bunpin b
  if (c.buf b).refcnt = 0 then
    { c with links := (c.links.unlink (some b)).push none (some b) }
  else c

end Cache

/-! ## Processes -/

/-- What a process is doing in `bio.c`. -/
inductive Stage (n : ℕ)
  | idle
  /-- In `bget`, about to take the sleeplock of `b`, or waiting for it. -/
  | waits (b : Fin n)
  /-- In `brelse`, after the sleeplock of `b` is released. -/
  | releases (b : Fin n)
  deriving DecidableEq

/-- The cache, the sleeplocks of its buffers, the processes, and the log's header. -/
structure State (κ : Type) (n : ℕ) where
  cache : Cache n
  /-- The owner of each buffer's sleeplock. -/
  locked : Fin n → Option κ
  stage : κ → Stage n
  /-- `log.lh.block[0..log.lh.n)`. -/
  lh : List BlockNo
  /-- While `install_trans` runs for a commit: how many blocks it has unpinned. -/
  installed : Option ℕ

/-- What a step does to the order of the list. -/
inductive Event (n : ℕ)
  /-- `bget` recycles `b`. -/
  | recycle (b : Fin n)
  /-- `brelse` drops the last reference to `b`. -/
  | drop (b : Fin n)
  | other
  deriving DecidableEq

variable {κ : Type} [DecidableEq κ] {n : ℕ}

/-- The calls of `bio.c` by the process `p`. -/
inductive CacheStep (p : κ) : State κ n → Event n → State κ n → Prop
  /-- `bget` finds the block. -/
  | hit {s : State κ n} {dev : BitVec 32} {blockno : BlockNo} {b : Fin n}
      (idle : s.stage p = .idle) (dev0 : dev ≠ 0) (hb : s.cache.lookup dev blockno = some b) :
      CacheStep p s .other
        { s with cache := s.cache.bpin b, stage := Function.update s.stage p (.waits b) }
  /-- `bget` recycles a buffer. -/
  | recycle {s : State κ n} {dev : BitVec 32} {blockno : BlockNo} {b : Fin n}
      (idle : s.stage p = .idle) (dev0 : dev ≠ 0) (hm : s.cache.lookup dev blockno = none)
      (hb : s.cache.unused = some b) :
      CacheStep p s (.recycle b)
        { s with
          cache := s.cache.recycle b dev blockno
          stage := Function.update s.stage p (.waits b) }
  /-- `bget` gets the sleeplock and returns. -/
  | acquire {s : State κ n} {b : Fin n} (waits : s.stage p = .waits b)
      (free : s.locked b = none) :
      CacheStep p s .other
        { s with
          locked := Function.update s.locked b (some p)
          stage := Function.update s.stage p .idle }
  /-- `bread` has read the block. -/
  | fill {s : State κ n} {b : Fin n} (mine : s.locked b = some p) :
      CacheStep p s .other { s with cache := s.cache.fill b }
  /-- `brelse` releases the sleeplock. -/
  | release {s : State κ n} {b : Fin n} (idle : s.stage p = .idle) (mine : s.locked b = some p) :
      CacheStep p s .other
        { s with
          locked := Function.update s.locked b none
          stage := Function.update s.stage p (.releases b) }
  /-- `brelse` gives up the reference. -/
  | brelse {s : State κ n} {b : Fin n} (releases : s.stage p = .releases b) :
      CacheStep p s (if ((s.cache.bunpin b).buf b).refcnt = 0 then .drop b else .other)
        { s with cache := s.cache.brelse b, stage := Function.update s.stage p .idle }

/-- What `log.c` does to the reference counts. The buffers that `fs.c` logs are of `ROOTDEV`; no
operation is in progress while a commit runs, so `log_write` comes only outside of
`install_trans`. -/
inductive LogStep (p : κ) : State κ n → State κ n → Prop
  /-- `log_write` of a block that is in the log already. -/
  | absorb {s : State κ n} {b : Fin n} (mine : s.locked b = some p)
      (dev : (s.cache.buf b).dev = ROOTDEV) (quiet : s.installed = none)
      (hb : (s.cache.buf b).blockno ∈ s.lh) : LogStep p s s
  /-- `log_write` of a new block. -/
  | logWrite {s : State κ n} {b : Fin n} (mine : s.locked b = some p)
      (dev : (s.cache.buf b).dev = ROOTDEV) (quiet : s.installed = none)
      (hb : (s.cache.buf b).blockno ∉ s.lh) :
      LogStep p s { s with cache := s.cache.bpin b, lh := s.lh ++ [(s.cache.buf b).blockno] }
  /-- `install_trans(0)` starts. -/
  | install {s : State κ n} (quiet : s.installed = none) :
      LogStep p s { s with installed := some 0 }
  /-- `install_trans(0)` unpins the buffer of the next block of the log, which it holds. -/
  | bunpin {s : State κ n} {b : Fin n} {tail : ℕ} {blockno : BlockNo}
      (ht : s.installed = some tail) (hl : s.lh[tail]? = some blockno)
      (mine : s.locked b = some p) (hb : (s.cache.buf b).Is ROOTDEV blockno) :
      LogStep p s { s with cache := s.cache.bunpin b, installed := some (tail + 1) }
  /-- `commit` erases the transaction. -/
  | clear {s : State κ n} (ht : s.installed = some s.lh.length) :
      LogStep p s { s with lh := [], installed := none }

/-- After `binit`: every field of the buffers is zero. -/
def Cache.init : Cache n where
  links := Cache.binit
  buf _ := { dev := 0, blockno := 0, refcnt := 0, valid := false }

/-- Nobody uses the cache yet, and the log is empty. -/
def State.boot (κ : Type) (n : ℕ) : State κ n where
  cache := Cache.init
  locked _ := none
  stage _ := .idle
  lh := []
  installed := none

/-- The cache used by the processes of `κ`, from `binit` on. -/
def bcache (κ : Type) [DecidableEq κ] (n : ℕ) : LTS (State κ n) (Event n) where
  init s := s = State.boot κ n
  step s e s' := ∃ p, CacheStep p s e s' ∨ e = .other ∧ LogStep p s s'

end Xv6.Bcache
