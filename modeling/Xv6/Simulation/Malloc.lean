import Xv6.Foundations.Spans

/-!
# The heap simulator

The class `malloc` of `malloc.py`, and the loop of the main program that makes random calls. A chunk
is its address and its size, header included. A dictionary is the list of its entries, in the order
in which they came.

`Abort` is every way in which the program stops early: the two assertions, the call of `abort`,
which is not defined anywhere, and the look-up of an index or a key that is not there.
-/

namespace Xv6.Simulation.Malloc

inductive Policy
  | first
  | best
  | worst
  deriving DecidableEq

/-- `returnPolicy` -/
inductive Order
  | addrSort
  | sizeSortUp
  | sizeSortDown
  | insertFront
  | insertBack
  deriving DecidableEq

/-- The arguments of `__init__`. -/
structure Options where
  size : ℤ
  start : ℤ
  headerSize : ℤ
  policy : Policy
  order : Order
  coalesce : Bool
  /-- No alignment with -1. -/
  align : ℤ

/-- The fields that the calls change. -/
structure Heap where
  freelist : List (ℤ × ℤ)
  sizemap : List (ℤ × ℤ)
  deriving DecidableEq

/-- How the program stops early. -/
inductive Abort
  | align
  | addToMap
  | abort
  | index
  | key
  deriving DecidableEq

/-- `__init__` -/
def Heap.init (o : Options) : Except Abort Heap :=
  if o.align = -1 ∨ 0 < o.align then .ok ⟨[(o.start, o.size)], []⟩ else .error .align

/-- The variables of the search. -/
structure Search where
  /-- `bestIdx` and `bestAddr`; `none` is -1. -/
  best : Option (ℕ × ℤ)
  bestSize : ℤ
  count : ℕ

namespace Options

variable (o : Options)

/-- The size that a call asks for, with the alignment and the header. -/
def request (size : ℤ) : ℤ :=
  (if o.align ≠ -1 then
    let left := size % o.align
    size + if left ≠ 0 then o.align - left else 0
  else size) + o.headerSize

/-- `bestSize` before the search. -/
def bestSize : ℤ :=
  match o.policy with
  | .best => o.size + 1
  | .worst | .first => -1

/-- A chunk is taken in place of the best one so far. -/
def better (esize bestSize : ℤ) : Bool :=
  match o.policy with
  | .best => esize < bestSize
  | .worst => bestSize < esize
  | .first => true

/-- The search, from the chunk `i` on. -/
def search (size : ℤ) : ℕ → List (ℤ × ℤ) → Search → Search
  | _, [], s => s
  | i, e :: l, s =>
    if size ≤ e.2 ∧ o.better e.2 s.bestSize then
      let s := ⟨some (i, e.1), e.2, s.count + 1⟩
      if o.policy = .first then s else search size (i + 1) l s
    else search size (i + 1) l { s with count := s.count + 1 }

/-- The free list with a chunk that comes back. -/
def giveBack (l : List (ℤ × ℤ)) (e : ℤ × ℤ) : List (ℤ × ℤ) :=
  match o.order with
  | .insertBack => l ++ [e]
  | .insertFront => e :: l
  | .addrSort => (l ++ [e]).insertionSort fun x y => x.1 ≤ y.1
  | .sizeSortUp => (l ++ [e]).insertionSort fun x y => x.2 ≤ y.2
  | .sizeSortDown => (l ++ [e]).insertionSort fun x y => y.2 ≤ x.2

end Options

/-- The loop of the coalescing, with `curr` and the chunks that are left. -/
def coalesceFrom : ℤ × ℤ → List (ℤ × ℤ) → List (ℤ × ℤ)
  | curr, [] => [curr]
  | curr, e :: l =>
    if e.1 = curr.1 + curr.2 then coalesceFrom (curr.1, curr.2 + e.2) l
    else curr :: coalesceFrom e l

/-- The coalescing of the free list, which is not empty. -/
def coalesce : List (ℤ × ℤ) → List (ℤ × ℤ)
  | [] => []
  | curr :: l => coalesceFrom curr l

namespace Heap

variable (o : Options) (h : Heap)

def addToMap (addr size : ℤ) : Except Abort Heap :=
  if (h.sizemap.lookup addr).isSome then .error .addToMap
  else .ok { h with sizemap := h.sizemap ++ [(addr, size)] }

/-- `malloc`: the heap, the address or -1, and the number of chunks searched. -/
def malloc (size : ℤ) : Except Abort (Heap × ℤ × ℕ) :=
  let size := o.request size
  let s := o.search size 0 h.freelist ⟨none, o.bestSize, 0⟩
  match s.best with
  | none => .ok (h, -1, s.count)
  | some (bestIdx, bestAddr) =>
    if size < s.bestSize then do
      let h ← addToMap
        { h with freelist := h.freelist.set bestIdx (bestAddr + size, s.bestSize - size) }
        bestAddr size
      return (h, bestAddr, s.count)
    else if s.bestSize = size then do
      let h ← addToMap { h with freelist := h.freelist.eraseIdx bestIdx } bestAddr size
      return (h, bestAddr, s.count)
    else .error .abort

/-- `free` -/
def free (addr : ℤ) : Heap × ℤ :=
  match h.sizemap.lookup addr with
  | none => (h, -1)
  | some size =>
    let freelist := o.giveBack h.freelist (addr, size)
    ({ freelist := if o.coalesce then Malloc.coalesce freelist else freelist
       sizemap := h.sizemap.eraseP fun e => e.1 == addr }, 0)

end Heap

/-- A call of one of the two methods. -/
inductive Call
  | malloc (size : ℤ)
  | free (addr : ℤ)

def Heap.step (o : Options) (h : Heap) : Call → Except Abort Heap
  | .malloc size => do
    let (h, _) ← h.malloc o size
    return h
  | .free addr => .ok (h.free o addr).1

/-- The heap after `calls`. -/
def run (o : Options) (calls : List Call) : Except Abort Heap := do
  let h ← Heap.init o
  calls.foldlM (Heap.step o) h

/-! ## The main program -/

/-- The variables of the loop. -/
structure Main where
  m : Heap
  p : List (ℕ × ℤ)
  L : List ℕ
  c : ℕ
  /-- What the calls of `free` have returned, the last one first. -/
  rcs : List ℤ

/-- What the random numbers make of a round: a size, or a number for the choice of a pointer. -/
inductive Op
  | alloc (size : ℤ)
  | free (r : ℕ)

def Main.init (m : Heap) : Main := ⟨m, [], [], 0, []⟩

/-- A round. The index `d` below the length of `L` is `r` modulo it. -/
def Main.round (o : Options) (s : Main) : Op → Except Abort Main
  | .alloc size => do
    let (m, ptr, _) ← s.m.malloc o size
    let s := if ptr ≠ -1 then { s with p := s.p ++ [(s.c, ptr)], L := s.L ++ [s.c] } else s
    return { s with m := m, c := s.c + 1 }
  | .free r =>
    if 0 < s.p.length then
      match s.L[r % s.L.length]? with
      | none => .error .index
      | some i =>
        match s.p.lookup i with
        | none => .error .key
        | some ptr =>
          let (m, rc) := s.m.free o ptr
          .ok { s with
            m := m
            p := s.p.eraseP fun e => e.1 == i
            L := s.L.eraseIdx (r % s.L.length)
            rcs := rc :: s.rcs }
    else .ok s

/-- The loop. -/
def main (o : Options) (ops : List Op) : Except Abort Main := do
  let m ← Heap.init o
  ops.foldlM (Main.round o) (Main.init m)

end Xv6.Simulation.Malloc
