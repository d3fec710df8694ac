import Mathlib.Data.List.Nodup
import Xv6.Foundations.Ring
import Xv6.Foundations.Transition

/-!
# The virtio disk driver

`virtio_disk.c`: the descriptors and their free flags, the two rings that the driver shares with
the device, and the calls of `virtio_disk_rw` and `virtio_disk_intr` by any number of processes.

The driver computes with `disk.vdisk_lock` held, except in `sleep`; a step of a process is what it
does between two points at which the device's view changes. The device runs at any time: it takes
the next chain from the `avail` ring, and completes the chains that it has taken in any order, by
writing a status byte of 0 through the chain's descriptors and an entry of the `used` ring.

Indices of descriptors are numbers, as they are read from memory; that they are below `NUM` is
a result.
-/

namespace Xv6.Virtio

/-- The number of descriptors and of entries in a ring. -/
def NUM : ℕ := 8

instance : NeZero NUM := ⟨by decide⟩

/-- The chain goes on at `next`. -/
def VRING_DESC_F_NEXT : ℕ := 1

/-- The device writes to the memory of the descriptor. -/
def VRING_DESC_F_WRITE : ℕ := 2

/-- What a descriptor points to: the request header `ops[i]`, the data of a buffer, or the status
byte `info[i].status`. -/
inductive Addr (β : Type)
  | null
  | op (i : ℕ)
  | data (b : β)
  | status (i : ℕ)

/-- `struct virtq_desc`. -/
structure Desc (β : Type) where
  addr : Addr β
  len : ℕ
  flags : ℕ
  next : ℕ

/-- The header of a request, `struct virtio_blk_req`: its type (1 to write the disk) and its
sector. -/
structure Req where
  type : ℕ
  sector : ℕ

/-- An element of `disk.info`. -/
structure Info (β : Type) where
  b : Option β
  status : ℕ

/-- The memory that the driver and the device share, with the driver's own book-keeping. -/
structure Disk (β : Type) where
  desc : ℕ → Desc β
  free : ℕ → Bool
  info : ℕ → Info β
  ops : ℕ → Req
  /-- `nwrite` is `avail->idx`, and `nread` how far the device has read. -/
  avail : Ring ℕ 16 NUM
  /-- `nwrite` is `used->idx`, and `nread` is `disk.used_idx`. -/
  used : Ring ℕ 16 NUM
  /-- The chains that the device has taken and not completed. -/
  taken : List ℕ
  /-- `b->disk`. -/
  busy : β → Bool

namespace Disk

variable {β : Type} [DecidableEq β]

/-! ## Descriptors -/

/-- `alloc_desc`: a free descriptor, marked non-free; `none` is -1. -/
def allocDesc (d : Disk β) : Option (ℕ × Disk β) :=
  ((List.range NUM).find? d.free).map fun i =>
    (i, { d with free := Function.update d.free i false })

/-- `free_desc`; `none` is a panic. -/
def freeDesc (d : Disk β) (i : ℕ) : Option (Disk β) :=
  if NUM ≤ i then none
  else if d.free i then none
  else some { d with
    desc := Function.update d.desc i { addr := .null, len := 0, flags := 0, next := 0 }
    free := Function.update d.free i true }

/-- `free_desc` of the descriptors in a list. -/
def freeDescs (d : Disk β) : List ℕ → Option (Disk β)
  | [] => some d
  | i :: idx => do (← d.freeDesc i).freeDescs idx

/-- The loop of `alloc3_desc` with `k` descriptors to go; `idx` are those allocated so far. If
there is none left, they are freed again and the result is `some (none, _)`; `none` is a panic. -/
def allocDescs (d : Disk β) (idx : List ℕ) : ℕ → Option (Option (List ℕ) × Disk β)
  | 0 => some (some idx, d)
  | k + 1 =>
    match d.allocDesc with
    | some (i, d) => d.allocDescs (idx ++ [i]) k
    | none => (d.freeDescs idx).map fun d => (none, d)

/-- `alloc3_desc`. -/
def alloc3Desc (d : Disk β) : Option (Option (List ℕ) × Disk β) := d.allocDescs [] 3

/-- `free_chain`, for at most `fuel` descriptors; `none` is a panic. A round frees a descriptor or
panics, so there are at most `NUM` rounds before the last. -/
def freeChain (d : Disk β) : ℕ → ℕ → Option (Disk β)
  | 0, _ => none
  | fuel + 1, i => do
    let flag := (d.desc i).flags
    let nxt := (d.desc i).next
    let d ← d.freeDesc i
    if flag % 2 = VRING_DESC_F_NEXT then d.freeChain fuel nxt else some d

/-! ## Requests -/

/-- Format the three descriptors `i`, `j`, `k` for a request of `b`, record the buffer, and write
the first index of the chain to the `avail` ring. -/
def format (d : Disk β) (b : β) (blockno : ℕ) (write : Bool) (i j k : ℕ) : Disk β where
  desc :=
    Function.update (Function.update (Function.update d.desc
      i { addr := .op i, len := 16, flags := VRING_DESC_F_NEXT, next := j })
      j { addr := .data b, len := 1024,
          flags := (if write then 0 else VRING_DESC_F_WRITE) + VRING_DESC_F_NEXT, next := k })
      k { addr := .status i, len := 1, flags := VRING_DESC_F_WRITE, next := 0 }
  free := d.free
  info := Function.update d.info i { b := some b, status := 0xff }
  ops := Function.update d.ops i { type := if write then 1 else 0, sector := blockno * 2 }
  avail := d.avail.store i
  used := d.used
  taken := d.taken
  busy := Function.update d.busy b true

/-- `avail->idx += 1`. -/
def publish (d : Disk β) : Disk β := { d with avail := d.avail.advance }

/-- `disk.info[i].b = 0; free_chain(i)`. -/
def finish (d : Disk β) (i : ℕ) : Option (Disk β) :=
  { d with info := Function.update d.info i { d.info i with b := none } }.freeChain (NUM + 1) i

/-- A round of the loop of `virtio_disk_intr`; `none` is its panic or the dereference of a null
`info[id].b`. -/
def intr (d : Disk β) : Option (Disk β) :=
  let id := d.used.front
  if (d.info id).status ≠ 0 then none
  else
    match (d.info id).b with
    | none => none
    | some b => some { d with busy := Function.update d.busy b false, used := d.used.pop }

/-! ## The device -/

/-- The device takes the next chain from the `avail` ring. -/
def take (d : Disk β) : Disk β :=
  { d with taken := d.taken ++ [d.avail.front], avail := d.avail.pop }

/-- The descriptor at the end of the chain of three that starts at `i`. -/
def last (d : Disk β) (i : ℕ) : Desc β := d.desc (d.desc (d.desc i).next).next

/-- The device completes the chain that starts at `i`. -/
def complete (d : Disk β) (i : ℕ) : Disk β :=
  { d with
    info :=
      match (d.last i).addr with
      | .status j => Function.update d.info j { d.info j with status := 0 }
      | _ => d.info
    used := d.used.push i
    taken := d.taken.erase i }

end Disk

/-! ## Processes -/

/-- Where a process is in `virtio_disk_rw(b, write)` or `virtio_disk_intr()`. `idx` are its
descriptors. -/
inductive Pc (β : Type)
  | idle
  /-- About to acquire `vdisk_lock`. -/
  | start (b : β) (write : Bool)
  /-- About to call `alloc3_desc`. -/
  | alloc (b : β) (write : Bool)
  /-- In `sleep(&disk.free[0], &disk.vdisk_lock)`. -/
  | sleepAlloc (b : β) (write : Bool)
  /-- About to format its descriptors. -/
  | format (b : β) (write : Bool) (idx : List ℕ)
  /-- About to increment `avail->idx`. -/
  | publish (b : β) (idx : List ℕ)
  /-- At the test of `b->disk`. -/
  | wait (b : β) (idx : List ℕ)
  /-- In `sleep(b, &disk.vdisk_lock)`. -/
  | sleepDisk (b : β) (idx : List ℕ)
  /-- About to free its chain. -/
  | finish (b : β) (idx : List ℕ)
  /-- About to release `vdisk_lock`. -/
  | leave (b : β)
  /-- In `virtio_disk_intr`, about to acquire `vdisk_lock`. -/
  | intr
  /-- In the loop of `virtio_disk_intr`. -/
  | intrLoop

namespace Pc

variable {β : Type}

/-- The buffer of a request. -/
def buf : Pc β → Option β
  | idle | intr | intrLoop => none
  | start b _ | alloc b _ | sleepAlloc b _ | format b _ _ | publish b _ | wait b _
  | sleepDisk b _ | finish b _ | leave b => some b

/-- The descriptors that a process has allocated. -/
def idx : Pc β → List ℕ
  | format _ _ idx | publish _ idx | wait _ idx | sleepDisk _ idx | finish _ idx => idx
  | _ => []

/-- The process holds `vdisk_lock`. -/
def locked : Pc β → Bool
  | idle | start .. | sleepAlloc .. | sleepDisk .. | intr => false
  | _ => true

/-- Where a process goes on when it gets `vdisk_lock`. -/
def acquired : Pc β → Option (Pc β)
  | start b write | sleepAlloc b write => some (alloc b write)
  | sleepDisk b idx => some (wait b idx)
  | intr => some intrLoop
  | _ => none

end Pc

/-- The disk, the owner of `vdisk_lock`, and the processes. -/
structure State (κ β : Type) where
  disk : Disk β
  holder : Option κ
  pc : κ → Pc β

/-- What a step does to a request. -/
inductive Event (κ : Type)
  /-- `p` tells the device of its chain. -/
  | publish (p : κ) (idx : List ℕ)
  /-- The device completes the chain that starts at `i`. -/
  | complete (i : ℕ)
  /-- `p` frees its chain. -/
  | finish (p : κ)
  /-- `virtio_disk_rw` returns. -/
  | ret (p : κ)
  | other

variable {κ β : Type} [DecidableEq κ] [DecidableEq β]

/-- A process goes on. -/
def State.goto (s : State κ β) (p : κ) (pc : Pc β) (d : Disk β) (holder : Option κ) :
    State κ β where
  disk := d
  holder := holder
  pc := Function.update s.pc p pc

omit [DecidableEq β] in
@[simp] theorem State.goto_self (s : State κ β) (p : κ) (pc : Pc β) (d : Disk β)
    (holder : Option κ) : (s.goto p pc d holder).pc p = pc :=
  Function.update_self ..

omit [DecidableEq β] in
theorem State.goto_of_ne (s : State κ β) {p q : κ} (h : q ≠ p) (pc : Pc β) (d : Disk β)
    (holder : Option κ) : (s.goto p pc d holder).pc q = s.pc q :=
  Function.update_of_ne h ..

/-- The steps of the processes and of the device; `blockno b` is `b->blockno`. -/
inductive Step (blockno : β → ℕ) : State κ β → Event κ → State κ β → Prop
  /-- A call of `virtio_disk_rw`; the caller holds the sleeplock of `b`, so nobody else has a
  request for it. -/
  | call {s : State κ β} {p : κ} {b : β} {write : Bool} (hpc : s.pc p = .idle)
      (mine : ∀ q, (s.pc q).buf ≠ some b) :
      Step blockno s .other (s.goto p (.start b write) s.disk s.holder)
  | callIntr {s : State κ β} {p : κ} (hpc : s.pc p = .idle) :
      Step blockno s .other (s.goto p .intr s.disk s.holder)
  /-- `acquire(&disk.vdisk_lock)`, also at the end of `sleep`. -/
  | acquire {s : State κ β} {p : κ} {pc : Pc β} (hpc : (s.pc p).acquired = some pc)
      (free : s.holder = none) : Step blockno s .other (s.goto p pc s.disk (some p))
  /-- `alloc3_desc` succeeds. -/
  | alloc {s : State κ β} {p : κ} {b : β} {write : Bool} {idx : List ℕ} {d : Disk β}
      (hpc : s.pc p = .alloc b write) (hd : s.disk.alloc3Desc = some (some idx, d)) :
      Step blockno s .other (s.goto p (.format b write idx) d s.holder)
  /-- `alloc3_desc` fails, and the process sleeps. -/
  | allocFail {s : State κ β} {p : κ} {b : β} {write : Bool} {d : Disk β}
      (hpc : s.pc p = .alloc b write) (hd : s.disk.alloc3Desc = some (none, d)) :
      Step blockno s .other (s.goto p (.sleepAlloc b write) d none)
  | format {s : State κ β} {p : κ} {b : β} {write : Bool} {i j k : ℕ}
      (hpc : s.pc p = .format b write [i, j, k]) :
      Step blockno s .other
        (s.goto p (.publish b [i, j, k]) (s.disk.format b (blockno b) write i j k) s.holder)
  | publish {s : State κ β} {p : κ} {b : β} {idx : List ℕ} (hpc : s.pc p = .publish b idx) :
      Step blockno s (.publish p idx) (s.goto p (.wait b idx) s.disk.publish s.holder)
  /-- `b->disk` is still 1, and the process sleeps. -/
  | sleep {s : State κ β} {p : κ} {b : β} {idx : List ℕ} (hpc : s.pc p = .wait b idx)
      (hb : s.disk.busy b = true) :
      Step blockno s .other (s.goto p (.sleepDisk b idx) s.disk none)
  | done {s : State κ β} {p : κ} {b : β} {idx : List ℕ} (hpc : s.pc p = .wait b idx)
      (hb : s.disk.busy b = false) :
      Step blockno s .other (s.goto p (.finish b idx) s.disk s.holder)
  | finish {s : State κ β} {p : κ} {b : β} {i : ℕ} {idx : List ℕ} {d : Disk β}
      (hpc : s.pc p = .finish b (i :: idx)) (hd : s.disk.finish i = some d) :
      Step blockno s (.finish p) (s.goto p (.leave b) d s.holder)
  | ret {s : State κ β} {p : κ} {b : β} (hpc : s.pc p = .leave b) :
      Step blockno s (.ret p) (s.goto p .idle s.disk none)
  | intr {s : State κ β} {p : κ} {d : Disk β} (hpc : s.pc p = .intrLoop)
      (more : s.disk.used.nread ≠ s.disk.used.nwrite) (hd : s.disk.intr = some d) :
      Step blockno s .other (s.goto p .intrLoop d s.holder)
  | intrRet {s : State κ β} {p : κ} (hpc : s.pc p = .intrLoop)
      (more : s.disk.used.nread = s.disk.used.nwrite) :
      Step blockno s .other (s.goto p .idle s.disk none)
  /-- The device sees a new entry of the `avail` ring. -/
  | take {s : State κ β} (more : s.disk.avail.nread ≠ s.disk.avail.nwrite) :
      Step blockno s .other { s with disk := s.disk.take }
  | complete {s : State κ β} {i : ℕ} (hi : i ∈ s.disk.taken) :
      Step blockno s (.complete i) { s with disk := s.disk.complete i }

/-- After `virtio_disk_init`: zeroed queues, every descriptor free. -/
def Disk.init (β : Type) : Disk β where
  desc _ := { addr := .null, len := 0, flags := 0, next := 0 }
  free i := decide (i < NUM)
  info _ := { b := none, status := 0 }
  ops _ := { type := 0, sector := 0 }
  avail := { data := fun _ => 0, nread := 0, nwrite := 0 }
  used := { data := fun _ => 0, nread := 0, nwrite := 0 }
  taken := []
  busy _ := false

/-- The driver and the device. -/
def virtio (κ : Type) [DecidableEq κ] (blockno : β → ℕ) : LTS (State κ β) (Event κ) where
  init s := s = { disk := Disk.init β, holder := none, pc := fun _ => .idle }
  step := Step blockno

end Xv6.Virtio
