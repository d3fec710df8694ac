import Mathlib.Data.Fintype.Sum
import Mathlib.Data.List.Nodup
import Xv6.Foundations.Tally
import Xv6.Foundations.Transition

/-!
# The bounded buffer of the producer/consumer lab

Producers and consumers share a `deque(maxlen=BUFFER_SIZE)`, two counting semaphores and a mutex.
Between any two operations on these a thread can be suspended, so the model has one step for each
operation and a place in the code for each thread. The two loops have the same shape: acquire a
semaphore, acquire the mutex, use the deque, release the mutex, release the other semaphore; the
places (`Place`) are therefore common to both.

`buffer.popleft()` on an empty deque and `mutex.release()` on an unlocked mutex raise an
exception that nothing catches, which ends the thread; `append` on a full deque discards the
leftmost item. The invariant `Balanced` rules the three out. It counts the threads at each
place with tallies, so it holds for any number of threads. Sleeping and printing change
nothing and are left out.
-/

namespace Xv6.Labs

/-! ## The program -/

/-- What `f"Item-{producer_id}-{item_counter}"` is made of. -/
structure Item (ι : Type*) where
  producerId : ι
  itemCounter : ℕ

/-- Where a thread is in its loop. -/
inductive Place
  /-- Before `empty.acquire()` in `producer`, before `full.acquire()` in `consumer`. -/
  | waiting
  /-- Before `mutex.acquire()`. -/
  | locking
  /-- Before `buffer.append(item)` in `producer`, before `buffer.popleft()` in `consumer`. -/
  | inside
  /-- Before `mutex.release()`. -/
  | unlocking
  /-- Before `full.release()` in `producer`, before `empty.release()` in `consumer`. -/
  | signalling
  /-- An exception has ended the thread. -/
  | raised
  deriving DecidableEq

variable {ι κ : Type*}

/-- The shared resources, the places of the producers `ι` and of the consumers `κ`, and the
`item_counter` of each producer. -/
structure Shared (ι κ : Type*) where
  buffer : List (Item ι)
  empty : ℕ
  full : ℕ
  /-- `mutex.locked()`. -/
  mutex : Bool
  place : ι ⊕ κ → Place
  itemCounter : ι → ℕ

/-- What a step does to the deque. -/
inductive BufferEvent (ι : Type*)
  | append (item : Item ι)
  | popleft (item : Item ι)
  | sync

/-- `append` of a `deque(maxlen=maxlen)`: a full deque discards its leftmost item. -/
def dequeAppend {α : Type*} (maxlen : ℕ) (items : List α) (item : α) : List α :=
  (items ++ [item]).drop (items.length + 1 - maxlen)

/-- Below its maximal length a deque grows by the item. -/
theorem dequeAppend_of_lt {α : Type*} {maxlen : ℕ} {items : List α} (h : items.length < maxlen)
    (item : α) : dequeAppend maxlen items item = items ++ [item] := by
  rw [dequeAppend, Nat.sub_eq_zero_of_le h, List.drop_zero]

/-- The item that a producer makes in this round of its loop. -/
def Shared.item (s : Shared ι κ) (i : ι) : Item ι := ⟨i, s.itemCounter i⟩

/-- The thread goes on to another place. -/
def Shared.goto [DecidableEq ι] [DecidableEq κ] (s : Shared ι κ) (t : ι ⊕ κ) (x : Place) :
    Shared ι κ :=
  { s with place := Function.update s.place t x }

/-- The operations of the threads; `N` is `BUFFER_SIZE`. -/
inductive BufferStep [DecidableEq ι] [DecidableEq κ] (N : ℕ) :
    Shared ι κ → BufferEvent ι → Shared ι κ → Prop
  | emptyAcquire {s : Shared ι κ} {i : ι} (hp : s.place (.inl i) = .waiting) (he : 0 < s.empty) :
      BufferStep N s .sync ({ s with empty := s.empty - 1 }.goto (.inl i) .locking)
  | fullAcquire {s : Shared ι κ} {k : κ} (hp : s.place (.inr k) = .waiting) (hf : 0 < s.full) :
      BufferStep N s .sync ({ s with full := s.full - 1 }.goto (.inr k) .locking)
  | mutexAcquire {s : Shared ι κ} {t : ι ⊕ κ} (hp : s.place t = .locking) (hm : s.mutex = false) :
      BufferStep N s .sync ({ s with mutex := true }.goto t .inside)
  | append {s : Shared ι κ} {i : ι} (hp : s.place (.inl i) = .inside) :
      BufferStep N s (.append (s.item i))
        ({ s with buffer := dequeAppend N s.buffer (s.item i) }.goto (.inl i) .unlocking)
  | popleft {s : Shared ι κ} {k : κ} {item : Item ι} {rest : List (Item ι)}
      (hp : s.place (.inr k) = .inside) (hb : s.buffer = item :: rest) :
      BufferStep N s (.popleft item) ({ s with buffer := rest }.goto (.inr k) .unlocking)
  | popleftEmpty {s : Shared ι κ} {k : κ} (hp : s.place (.inr k) = .inside) (hb : s.buffer = []) :
      BufferStep N s .sync (s.goto (.inr k) .raised)
  | mutexRelease {s : Shared ι κ} {t : ι ⊕ κ} (hp : s.place t = .unlocking)
      (hm : s.mutex = true) :
      BufferStep N s .sync ({ s with mutex := false }.goto t .signalling)
  | releaseUnlocked {s : Shared ι κ} {t : ι ⊕ κ} (hp : s.place t = .unlocking)
      (hm : s.mutex = false) :
      BufferStep N s .sync (s.goto t .raised)
  | fullRelease {s : Shared ι κ} {i : ι} (hp : s.place (.inl i) = .signalling) :
      BufferStep N s .sync
        ({ s with
            full := s.full + 1
            itemCounter := Function.update s.itemCounter i (s.itemCounter i + 1) }.goto
          (.inl i) .waiting)
  | emptyRelease {s : Shared ι κ} {k : κ} (hp : s.place (.inr k) = .signalling) :
      BufferStep N s .sync ({ s with empty := s.empty + 1 }.goto (.inr k) .waiting)

/-- The lab: `empty = Semaphore(N)`, `full = Semaphore(0)`, an unlocked mutex, an empty deque,
and every thread at the start of its loop. -/
def boundedBuffer (ι κ : Type*) [DecidableEq ι] [DecidableEq κ] (N : ℕ) :
    LTS (Shared ι κ) (BufferEvent ι) where
  init s := s = ⟨[], N, 0, false, fun _ => .waiting, fun _ => 0⟩
  step := BufferStep N

/-! ## The history -/

/-- The items appended so far, in order; the history is newest first. -/
def appended : List (BufferEvent ι) → List (Item ι)
  | [] => []
  | .append item :: h => appended h ++ [item]
  | _ :: h => appended h

/-- The items consumed so far, in order. -/
def consumed : List (BufferEvent ι) → List (Item ι)
  | [] => []
  | .popleft item :: h => consumed h ++ [item]
  | _ :: h => consumed h

/-! ## The threads at each place -/

/-- Between its two semaphore operations. -/
def Place.between : Place → ℕ
  | .waiting => 0
  | _ => 1

/-- Between `mutex.acquire()` and `mutex.release()`. -/
def Place.critical : Place → ℕ
  | .inside | .unlocking => 1
  | _ => 0

/-- A producer whose item is in the deque but not yet in `full`. -/
def Place.stored : Place → ℕ
  | .unlocking | .signalling => 1
  | _ => 0

/-- A consumer whose item is no longer in `full` but still in the deque. -/
def Place.claimed : Place → ℕ
  | .locking | .inside => 1
  | _ => 0

/-- The items in the deque that `full` does not count. -/
def uncounted : ι ⊕ κ → Place → ℕ
  | .inl _ => Place.stored
  | .inr _ => Place.claimed

theorem uncounted_le_between (t : ι ⊕ κ) (x : Place) : uncounted t x ≤ x.between := by
  cases t <;> cases x <;> simp [uncounted, Place.between, Place.stored, Place.claimed]

/-! ## The invariant -/

variable [Fintype ι] [Fintype κ]

/-- What the two semaphores, the mutex and the deque say about each other. -/
structure Balanced (N : ℕ) (s : Shared ι κ) : Prop where
  slots : s.empty + s.full + tally (fun _ => Place.between) s.place = N
  lock : tally (fun _ => Place.critical) s.place = s.mutex.toNat
  length : s.buffer.length = s.full + tally uncounted s.place
  running : ∀ t, s.place t ≠ .raised

namespace Balanced

variable {N : ℕ} {s s' : Shared ι κ}

/-- The deque holds no more than the threads and `full` account for. -/
theorem length_le (b : Balanced N s) : s.buffer.length ≤ N := by
  have hle := tally_le_tally uncounted (fun _ => Place.between)
    fun t => uncounted_le_between t (s.place t)
  have := b.slots
  have := b.length
  omega

/-- A producer about to append is one of the threads that hold a slot without an item. -/
theorem length_lt (b : Balanced N s) {i : ι} (hp : s.place (.inl i) = .inside) :
    s.buffer.length < N := by
  have hlt := tally_lt_tally uncounted (fun _ => Place.between)
    (fun t => uncounted_le_between t (s.place t)) (t := .inl i) (by rw [hp]; exact Nat.zero_lt_one)
  have := b.slots
  have := b.length
  omega

/-- A consumer about to pop has claimed an item. -/
theorem buffer_ne_nil (b : Balanced N s) {k : κ} (hp : s.place (.inr k) = .inside) :
    s.buffer ≠ [] := by
  have hle := le_tally uncounted s.place (.inr k)
  rw [hp] at hle
  have hone : 1 ≤ s.buffer.length := by
    rw [b.length]
    exact le_trans hle (Nat.le_add_left ..)
  exact List.ne_nil_of_length_pos hone

/-- The mutex excludes. -/
theorem critical_unique (b : Balanced N s) {t t' : ι ⊕ κ} (h : (s.place t).critical = 1)
    (h' : (s.place t').critical = 1) : t = t' := by
  by_contra hne
  have hle := add_le_tally (fun _ => Place.critical) s.place hne
  have hlock := b.lock
  have := s.mutex.toNat_le
  omega

/-- A thread before `mutex.release()` holds the mutex. -/
theorem locked (b : Balanced N s) {t : ι ⊕ κ} (hp : s.place t = .unlocking) :
    s.mutex = true := by
  have hle := le_tally (fun _ => Place.critical) s.place t
  rw [hp, b.lock] at hle
  cases hm : s.mutex with
  | true => rfl
  | false => rw [hm] at hle; exact absurd hle (by decide)

variable [DecidableEq ι] [DecidableEq κ]

/-- One thread moves: the counters have to change by what its two places weigh. -/
theorem move (b : Balanced N s) {t : ι ⊕ κ} {x y : Place} (hp : s.place t = x) (hy : y ≠ .raised)
    {buffer : List (Item ι)} {empty full : ℕ} {mutex : Bool} {itemCounter : ι → ℕ}
    (hslots : empty + full + y.between = s.empty + s.full + x.between)
    (hlock : mutex.toNat + x.critical = s.mutex.toNat + y.critical)
    (hlength : buffer.length + s.full + uncounted t x =
      s.buffer.length + full + uncounted t y) :
    Balanced N (Shared.goto ⟨buffer, empty, full, mutex, s.place, itemCounter⟩ t y) := by
  have htally : ∀ w : ι ⊕ κ → Place → ℕ,
      tally w (Function.update s.place t y) + w t x = tally w s.place + w t y := by
    intro w
    rw [← hp]
    exact tally_update w s.place t y
  have hbetween := htally fun _ => Place.between
  have hcritical := htally fun _ => Place.critical
  have huncounted := htally uncounted
  have hs := b.slots
  have hl := b.lock
  have hn := b.length
  constructor
  · change empty + full + tally (fun _ => Place.between) (Function.update s.place t y) = N
    omega
  · change tally (fun _ => Place.critical) (Function.update s.place t y) = mutex.toNat
    omega
  · change buffer.length = full + tally uncounted (Function.update s.place t y)
    omega
  · intro u
    change Function.update s.place t y u ≠ .raised
    rw [Function.update_apply]
    split
    · exact hy
    · exact b.running u

/-- One step keeps the balance. -/
theorem step {e : BufferEvent ι} (b : Balanced N s) (h : BufferStep N s e s') :
    Balanced N s' := by
  cases h with
  | emptyAcquire hp he =>
    refine b.move hp (by decide) ?_ rfl rfl
    simp only [Place.between]
    omega
  | fullAcquire hp hf =>
    refine b.move hp (by decide) ?_ rfl ?_
    · simp only [Place.between]
      omega
    · simp only [uncounted, Place.claimed]
      omega
  | @mutexAcquire t hp hm =>
    refine b.move hp (by decide) rfl ?_ ?_
    · rw [hm]
      rfl
    · cases t <;> rfl
  | append hp =>
    refine b.move hp (by decide) rfl rfl ?_
    rw [dequeAppend_of_lt (b.length_lt hp), List.length_append]
    simp only [uncounted, Place.stored, List.length_singleton]
    omega
  | popleft hp hb =>
    refine b.move hp (by decide) rfl rfl ?_
    simp only [hb, uncounted, Place.claimed, List.length_cons]
    omega
  | popleftEmpty hp hb => exact absurd hb (b.buffer_ne_nil hp)
  | @mutexRelease t hp hm =>
    refine b.move hp (by decide) rfl ?_ ?_
    · rw [hm]
      rfl
    · cases t <;> rfl
  | releaseUnlocked hp hm => exact absurd hm (by simp [b.locked hp])
  | fullRelease hp =>
    refine b.move hp (by decide) ?_ rfl ?_
    · simp only [Place.between]
      omega
    · simp only [uncounted, Place.stored]
      omega
  | emptyRelease hp =>
    refine b.move hp (by decide) ?_ rfl rfl
    simp only [Place.between]
    omega

end Balanced

/-! ## The items -/

/-- What the history says about the items: they leave the deque in the order in which they
entered it, and no item enters it twice. -/
structure Ordered (h : List (BufferEvent ι)) (s : Shared ι κ) : Prop where
  order : appended h = consumed h ++ s.buffer
  /-- The items of a producer are those of its earlier rounds, and that of this round once it is
  appended. -/
  made : ∀ item ∈ appended h,
    item.itemCounter < s.itemCounter item.producerId + (s.place (.inl item.producerId)).stored
  nodup : (appended h).Nodup

namespace Ordered

omit [Fintype ι] [Fintype κ]

variable {N : ℕ} {h : List (BufferEvent ι)} {s s' : Shared ι κ}

/-- The rounds of the producers only advance. -/
theorem made_mono (o : Ordered h s) (hmono : ∀ i, s.itemCounter i + (s.place (.inl i)).stored ≤
      s'.itemCounter i + (s'.place (.inl i)).stored) :
    ∀ item ∈ appended h, item.itemCounter <
      s'.itemCounter item.producerId + (s'.place (.inl item.producerId)).stored :=
  fun item hitem => lt_of_lt_of_le (o.made item hitem) (hmono _)

/-- A step that leaves the deque alone. -/
theorem sync (o : Ordered h s) (hbuffer : s'.buffer = s.buffer)
    (hmono : ∀ i, s.itemCounter i + (s.place (.inl i)).stored ≤
      s'.itemCounter i + (s'.place (.inl i)).stored) : Ordered (.sync :: h) s' :=
  ⟨by rw [hbuffer]; exact o.order, o.made_mono hmono, o.nodup⟩

variable [DecidableEq ι] [DecidableEq κ]

/-- A thread moves without taking an item out of the account of its round. -/
theorem stored_goto {t : ι ⊕ κ} {x y : Place} (hp : s.place t = x) (hxy : x.stored ≤ y.stored)
    (i : ι) : (s.place (.inl i)).stored ≤ ((s.goto t y).place (.inl i)).stored := by
  change _ ≤ (Function.update s.place t y (.inl i)).stored
  rw [Function.update_apply]
  split
  case isTrue heq => rwa [heq, hp]
  case isFalse => exact le_rfl

/-- One step keeps the order. -/
theorem step [Fintype ι] [Fintype κ] {e : BufferEvent ι} (o : Ordered h s) (b : Balanced N s)
    (hs : BufferStep N s e s') : Ordered (e :: h) s' := by
  cases hs with
  | emptyAcquire hp _ | fullAcquire hp _ | mutexAcquire hp _ | popleftEmpty hp _
  | mutexRelease hp _ =>
    exact o.sync rfl fun i => Nat.add_le_add_left (stored_goto hp (by decide) i) _
  | @emptyRelease k hp =>
    refine o.sync rfl fun i => le_of_eq ?_
    change _ = s.itemCounter i + (Function.update s.place (.inr k) .waiting (.inl i)).stored
    rw [Function.update_of_ne Sum.inl_ne_inr]
  | releaseUnlocked hp hm => exact absurd hm (by simp [b.locked hp])
  | @fullRelease i hp =>
    refine o.sync rfl fun j => ?_
    change _ ≤ Function.update s.itemCounter i (s.itemCounter i + 1) j +
      (Function.update s.place (.inl i) .waiting (.inl j)).stored
    by_cases hij : j = i
    · subst hij
      simp [hp, Place.stored]
    · simp [Function.update_of_ne hij, Function.update_of_ne (Sum.inl_injective.ne hij)]
  | popleft hp hb =>
    refine ⟨?_, ?_, o.nodup⟩
    · have horder := o.order
      rw [hb] at horder
      simpa [appended, consumed, Shared.goto] using horder
    · exact o.made_mono fun i => Nat.add_le_add_left (stored_goto hp (by decide) i) _
  | @append i hp =>
    have hfresh : s.item i ∉ appended h := by
      intro hmem
      have hlt := o.made _ hmem
      simp [Shared.item, hp, Place.stored] at hlt
    refine ⟨?_, ?_, ?_⟩
    · change appended h ++ [s.item i] = consumed h ++ dequeAppend N s.buffer (s.item i)
      rw [dequeAppend_of_lt (b.length_lt hp), o.order, List.append_assoc]
    · intro item hitem
      rcases List.mem_append.mp hitem with hold | hnew
      · exact o.made_mono
          (fun i => Nat.add_le_add_left (stored_goto hp (by decide) i) _) item hold
      · rw [List.mem_singleton.mp hnew]
        simp [Shared.item, Shared.goto, Place.stored]
    · exact List.nodup_append.mpr ⟨o.nodup, List.nodup_singleton _, by
        intro item hitem item' hitem' heq
        rw [List.mem_singleton] at hitem'
        exact hfresh (hitem' ▸ heq ▸ hitem)⟩

end Ordered

/-! ## Every interleaving -/

section Runs

variable [DecidableEq ι] [DecidableEq κ] {N : ℕ} {h : List (BufferEvent ι)} {s : Shared ι κ}

/-- The invariants hold after every run. -/
theorem balanced_of_run (r : (boundedBuffer ι κ N).Run h s) : Balanced N s ∧ Ordered h s := by
  refine r.invariant (I := fun h s => Balanced N s ∧ Ordered h s) ?_ ?_
  · rintro s rfl
    refine ⟨⟨?_, tally_eq_zero fun _ => rfl, ?_, fun t => by simp⟩, ⟨rfl, by simp [appended],
      List.nodup_nil⟩⟩
    · exact congrArg (N + 0 + ·) (tally_eq_zero fun _ => rfl)
    · have hzero : ∀ t : ι ⊕ κ, uncounted t Place.waiting = 0 := by rintro (i | k) <;> rfl
      exact (congrArg (0 + ·) (tally_eq_zero hzero)).symm
  · rintro h s e s' - ⟨b, o⟩ t
    exact ⟨b.step t, o.step b t⟩

/-- **The bounded buffer.** Whatever the interleaving, the deque holds at most `N` items and an
`append` discards none; `popleft` finds an item and no thread is ended by an exception; at most
one thread is between `mutex.acquire()` and `mutex.release()`; the consumed items are the first of
the appended ones, in their order, and no item is appended twice; and the two semaphores and the
threads between their two operations on them add up to `N`. -/
theorem boundedBuffer_safe (r : (boundedBuffer ι κ N).Run h s) :
    s.buffer.length ≤ N ∧
    (∀ i, s.place (.inl i) = .inside → ∀ item,
      dequeAppend N s.buffer item = s.buffer ++ [item]) ∧
    (∀ k, s.place (.inr k) = .inside → s.buffer ≠ []) ∧
    (∀ t, s.place t ≠ .raised) ∧
    (∀ t t', (s.place t).critical = 1 → (s.place t').critical = 1 → t = t') ∧
    appended h = consumed h ++ s.buffer ∧
    (appended h).Nodup ∧
    s.empty + s.full + tally (fun _ => Place.between) s.place = N := by
  obtain ⟨b, o⟩ := balanced_of_run r
  refine ⟨b.length_le, ?_, ?_, b.running, ?_, o.order, o.nodup, b.slots⟩
  · intro i hp item
    exact dequeAppend_of_lt (b.length_lt hp) item
  · intro k hp
    exact b.buffer_ne_nil hp
  · intro t t' ht ht'
    exact b.critical_unique ht ht'

end Runs

/-- One producer has taken the slot and the mutex of a buffer of one item, and has appended. -/
theorem firstAppend_safe : ∃ (h : List (BufferEvent Unit)) (s : Shared Unit Unit),
    (boundedBuffer Unit Unit 1).Run h s ∧ s.buffer.length = 1 ∧ s.buffer.length ≤ 1 ∧
      appended h = consumed h ++ s.buffer := by
  have r := (((LTS.Run.init (S := boundedBuffer Unit Unit 1) rfl).step
    (.emptyAcquire (i := ()) rfl Nat.zero_lt_one)).step
    (.mutexAcquire (t := .inl ()) rfl rfl)).step (.append (i := ()) rfl)
  have hsafe := boundedBuffer_safe r
  exact ⟨_, _, r, rfl, hsafe.1, hsafe.2.2.2.2.2.1⟩

end Xv6.Labs
