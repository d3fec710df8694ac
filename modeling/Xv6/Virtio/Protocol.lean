import Xv6.Virtio.Descriptors

/-!
# The protocol between the processes and the device

A chain is *flying* from the increment of `avail->idx` to the round of `virtio_disk_intr` that
clears `b->disk`: it is in the `avail` ring, with the device, or in the `used` ring. `Inv` says
who owns the descriptors, and that the flying chains are those of the processes that wait for
them. A chain that is about to be published has its own three descriptors, so fewer than `NUM`
are flying, and the ring has room.
-/

namespace Xv6.Virtio

variable {κ β : Type} {blockno : β → ℕ}

namespace Pc

/-- The request of a process whose descriptors are formatted. -/
def formatted : Pc β → Option (β × List ℕ)
  | publish b idx | wait b idx | sleepDisk b idx | finish b idx => some (b, idx)
  | _ => none

/-- The request that a process waits for. -/
def request : Pc β → Option (β × List ℕ)
  | wait b idx | sleepDisk b idx => some (b, idx)
  | _ => none

/-- A process that has descriptors has three. -/
def Shape : Pc β → Prop
  | format _ _ idx | publish _ idx | wait _ idx | sleepDisk _ idx | finish _ idx => idx.length = 3
  | _ => True

variable {pc pc' : Pc β} {b : β} {idx : List ℕ}

theorem formatted_of_request (h : pc.request = some (b, idx)) : pc.formatted = some (b, idx) := by
  cases pc with
  | wait _ _ | sleepDisk _ _ => exact h
  | _ => cases h

theorem idx_of_formatted (h : pc.formatted = some (b, idx)) : pc.idx = idx := by
  cases pc with
  | publish _ _ | wait _ _ | sleepDisk _ _ | finish _ _ =>
    cases h
    rfl
  | _ => cases h

theorem idx_of_request (h : pc.request = some (b, idx)) : pc.idx = idx :=
  idx_of_formatted (formatted_of_request h)

theorem buf_of_request (h : pc.request = some (b, idx)) : pc.buf = some b := by
  cases pc with
  | wait _ _ | sleepDisk _ _ =>
    cases h
    rfl
  | _ => cases h

/-- `acquire` does not change what a process has. -/
theorem of_acquired (h : pc.acquired = some pc') :
    pc'.buf = pc.buf ∧ pc'.idx = pc.idx ∧ pc'.formatted = pc.formatted ∧
      pc'.request = pc.request ∧ (pc.Shape → pc'.Shape) ∧ pc.locked = false ∧
      pc'.locked = true ∧ (∀ b idx, pc' ≠ .publish b idx) ∧ ∀ b idx, pc' ≠ .finish b idx := by
  cases pc with
  | start _ _ | sleepAlloc _ _ | sleepDisk _ _ | intr =>
    cases h
    exact ⟨rfl, rfl, rfl, rfl, id, rfl, rfl, nofun, nofun⟩
  | _ => cases h

end Pc

/-! ## The invariant -/

/-- The chains between the increment of `avail->idx` and the interrupt. -/
def Disk.flying (d : Disk β) : List ℕ := d.avail.contents ++ d.taken ++ d.used.contents

/-- What holds of a process at `pc` by itself. -/
structure Pc.Ok (d : Disk β) (pc : Pc β) : Prop where
  shape : pc.Shape
  nodup : pc.idx.Nodup
  owns : ∀ i ∈ pc.idx, i < NUM ∧ d.free i = false
  chain : ∀ b i j k, pc.formatted = some (b, [i, j, k]) → d.Chain b i j k
  ready : ∀ b i idx, pc = .publish b (i :: idx) →
    d.avail.data (Ring.place NUM d.avail.nwrite) = i ∧ d.busy b = true
  finished : ∀ b idx, pc = .finish b idx → d.busy b = false
  waiting : ∀ b i idx, pc.request = some (b, i :: idx) → d.busy b = true → i ∈ d.flying

/-- The invariant of the driver and the device. -/
structure Inv [DecidableEq κ] [DecidableEq β] (s : State κ β) : Prop where
  lock : ∀ p, (s.pc p).locked = true ↔ s.holder = some p
  bufs : ∀ p q b, (s.pc p).buf = some b → (s.pc q).buf = some b → p = q
  disjoint : ∀ p q i, i ∈ (s.pc p).idx → i ∈ (s.pc q).idx → p = q
  ok : ∀ p, (s.pc p).Ok s.disk
  nodup : s.disk.flying.Nodup
  owner : ∀ i ∈ s.disk.flying, ∃ p b idx,
    (s.pc p).request = some (b, i :: idx) ∧ s.disk.busy b = true
  status : ∀ i ∈ s.disk.used.contents, (s.disk.info i).status = 0

variable {d d' : Disk β} {pc pc' : Pc β}

/-- A process without descriptors. -/
theorem Pc.Ok.of_idx_eq_nil (hs : pc.Shape) (hi : pc.idx = []) (hf : pc.formatted = none) :
    pc.Ok d where
  shape := hs
  nodup := by
    rw [hi]
    exact List.nodup_nil
  owns i h := by
    rw [hi] at h
    cases h
  chain b i j k h := by
    rw [hf] at h
    cases h
  ready b i idx h := by
    subst h
    cases hf
  finished b idx h := by
    subst h
    cases hf
  waiting b i idx h := by
    rw [Pc.formatted_of_request h] at hf
    cases hf

/-- What a process owns is not changed by the others. -/
theorem Pc.Ok.congr (h : pc.Ok d)
    (hidx : ∀ i ∈ pc.idx, d'.free i = d.free i ∧ d'.desc i = d.desc i ∧
      (d'.info i).b = (d.info i).b)
    (hlocked : pc.locked = true → d'.busy = d.busy ∧
      d'.avail.data (Ring.place NUM d'.avail.nwrite) = d.avail.data (Ring.place NUM d.avail.nwrite))
    (hwait : ∀ b i idx, pc.request = some (b, i :: idx) → d'.busy b = true → i ∈ d'.flying) :
    pc.Ok d' where
  shape := h.shape
  nodup := h.nodup
  owns i hi := by
    rw [(hidx i hi).1]
    exact h.owns i hi
  chain b i j k hf := by
    have hi := Pc.idx_of_formatted hf
    refine (h.chain b i j k hf).congr (fun x hx => (hidx x ?_).2.1) (hidx i ?_).2.2
    · rw [hi]
      exact hx
    · rw [hi]
      exact List.mem_cons_self
  ready b i idx hp := by
    subst hp
    rw [(hlocked rfl).1, (hlocked rfl).2]
    exact h.ready b i idx rfl
  finished b idx hp := by
    subst hp
    rw [(hlocked rfl).1]
    exact h.finished b idx rfl
  waiting := hwait

theorem Pc.Ok.acquire (h : pc.Ok d) (ha : pc.acquired = some pc') : pc'.Ok d := by
  obtain ⟨-, hidx, hf, hr, hs, -, -, hp, hfin⟩ := Pc.of_acquired ha
  refine ⟨hs h.shape, ?_, ?_, ?_, fun b i idx he => (hp _ _ he).elim,
    fun b idx he => (hfin _ _ he).elim, ?_⟩
  · rw [hidx]
    exact h.nodup
  · rw [hidx]
    exact h.owns
  · rw [hf]
    exact h.chain
  · rw [hr]
    exact h.waiting

/-- The descriptors of a process that has some. -/
theorem Pc.Ok.exists_idx (h : pc.Ok d) {b : β} {idx : List ℕ}
    (hf : pc.formatted = some (b, idx)) : ∃ i j k, idx = [i, j, k] ∧ [i, j, k].Nodup ∧
      (∀ x ∈ [i, j, k], x < NUM ∧ d.free x = false) ∧ d.Chain b i j k := by
  have hl : idx.length = 3 := by
    have hs := h.shape
    cases pc with
    | publish _ _ | wait _ _ | sleepDisk _ _ | finish _ _ =>
      cases hf
      exact hs
    | _ => cases hf
  obtain ⟨i, j, k, rfl⟩ := List.length_eq_three.1 hl
  have hi := Pc.idx_of_formatted hf
  refine ⟨i, j, k, rfl, ?_, ?_, h.chain b i j k hf⟩
  · rw [← hi]
    exact h.nodup
  · rw [← hi]
    exact h.owns

variable [DecidableEq κ] [DecidableEq β] {s s' : State κ β} {p : κ}

/-! ## Room in the rings -/

namespace Inv

theorem mem_idx_of_flying (inv : Inv s) {i : ℕ} (hi : i ∈ s.disk.flying) :
    ∃ q, i ∈ (s.pc q).idx ∧ (s.pc q).request ≠ none := by
  obtain ⟨q, b, idx, hq, -⟩ := inv.owner i hi
  refine ⟨q, ?_, ?_⟩
  · rw [Pc.idx_of_request hq]
    exact List.mem_cons_self
  · rw [hq]
    exact Option.some_ne_none _

theorem lt_of_mem_flying (inv : Inv s) {i : ℕ} (hi : i ∈ s.disk.flying) : i < NUM := by
  obtain ⟨q, hq, -⟩ := inv.mem_idx_of_flying hi
  exact ((inv.ok q).owns i hq).1

/-- The chain of a process that does not wait is not flying. -/
theorem notMem_flying (inv : Inv s) {i : ℕ} (hi : i ∈ (s.pc p).idx)
    (hp : (s.pc p).request = none) : i ∉ s.disk.flying := by
  intro hf
  obtain ⟨q, hq, hr⟩ := inv.mem_idx_of_flying hf
  obtain rfl := inv.disjoint p q i hi hq
  exact hr hp

theorem length_le_of_nodup {l : List ℕ} (hn : l.Nodup) (hlt : ∀ x ∈ l, x < NUM) :
    l.length ≤ NUM := by
  have hsub : l ⊆ List.range NUM := fun x hx => List.mem_range.2 (hlt x hx)
  have hle := (hn.subperm hsub).length_le
  rwa [List.length_range] at hle

theorem flying_length_le (inv : Inv s) : s.disk.flying.length ≤ NUM :=
  length_le_of_nodup inv.nodup fun _ => inv.lt_of_mem_flying

/-- A process that is about to publish its chain finds room for it. -/
theorem flying_length_lt (inv : Inv s) {i : ℕ} (hi : i ∈ (s.pc p).idx)
    (hp : (s.pc p).request = none) : s.disk.flying.length < NUM := by
  have hn : (i :: s.disk.flying).Nodup :=
    List.nodup_cons.2 ⟨inv.notMem_flying hi hp, inv.nodup⟩
  refine length_le_of_nodup hn fun x hx => ?_
  rcases List.mem_cons.1 hx with rfl | hx
  · exact ((inv.ok p).owns x hi).1
  · exact inv.lt_of_mem_flying hx

omit [DecidableEq κ] [DecidableEq β] in
theorem count_avail_le (d : Disk β) : d.avail.count ≤ d.flying.length := by
  rw [Disk.flying, List.length_append, List.length_append, Ring.length_contents]
  omega

/-! ## A step of a process -/

theorem unlocked (inv : Inv s) (hp : (s.pc p).locked = true) {q : κ} (hq : q ≠ p) :
    (s.pc q).locked = false := by
  rw [Bool.eq_false_iff]
  intro hl
  have he := ((inv.lock q).1 hl).symm.trans ((inv.lock p).1 hp)
  exact hq (Option.some.inj he)

theorem buf_ne (inv : Inv s) {b : β} (hp : (s.pc p).buf = some b) :
    ∀ q, q ≠ p → (s.pc q).buf ≠ some b :=
  fun q hq hb => hq (inv.bufs q p b hb hp)

theorem notMem_idx (inv : Inv s) {i : ℕ} (hp : i ∈ (s.pc p).idx) :
    ∀ q, q ≠ p → i ∉ (s.pc q).idx :=
  fun q hq hi => hq (inv.disjoint q p i hi hp)

/-- The invariant after a step of `p`. -/
theorem goto (inv : Inv s) {pc : Pc β} {d : Disk β} {holder : Option κ}
    (hlock : pc.locked = true ↔ holder = some p)
    (hothers : ∀ q, q ≠ p → (holder = some q ↔ s.holder = some q))
    (hbuf : ∀ b, pc.buf = some b → ∀ q, q ≠ p → (s.pc q).buf ≠ some b)
    (hidx : ∀ i ∈ pc.idx, ∀ q, q ≠ p → i ∉ (s.pc q).idx)
    (hok : pc.Ok d) (hok' : ∀ q, q ≠ p → (s.pc q).Ok d) (hnodup : d.flying.Nodup)
    (howner : ∀ i ∈ d.flying, (∃ b idx, pc.request = some (b, i :: idx) ∧ d.busy b = true) ∨
      ∃ q, q ≠ p ∧ ∃ b idx, (s.pc q).request = some (b, i :: idx) ∧ d.busy b = true)
    (hstatus : ∀ i ∈ d.used.contents, (d.info i).status = 0) :
    Inv (s.goto p pc d holder) := by
  have hself : (s.goto p pc d holder).pc p = pc := s.goto_self p pc d holder
  have hne : ∀ {q}, q ≠ p → (s.goto p pc d holder).pc q = s.pc q :=
    fun hq => s.goto_of_ne hq pc d holder
  refine ⟨fun q => ?_, fun q r b hq hr => ?_, fun q r i hq hr => ?_, fun q => ?_, hnodup,
    fun i hi => ?_, hstatus⟩
  · by_cases h : q = p
    · rw [h, hself]
      exact hlock
    · rw [hne h, inv.lock q]
      exact (hothers q h).symm
  · by_cases h : q = p <;> by_cases h' : r = p
    · exact h.trans h'.symm
    · rw [h, hself] at hq
      rw [hne h'] at hr
      exact (hbuf b hq r h' hr).elim
    · rw [h', hself] at hr
      rw [hne h] at hq
      exact (hbuf b hr q h hq).elim
    · rw [hne h] at hq
      rw [hne h'] at hr
      exact inv.bufs q r b hq hr
  · by_cases h : q = p <;> by_cases h' : r = p
    · exact h.trans h'.symm
    · rw [h, hself] at hq
      rw [hne h'] at hr
      exact (hidx i hq r h' hr).elim
    · rw [h', hself] at hr
      rw [hne h] at hq
      exact (hidx i hr q h hq).elim
    · rw [hne h] at hq
      rw [hne h'] at hr
      exact inv.disjoint q r i hq hr
  · by_cases h : q = p
    · rw [h, hself]
      exact hok
    · rw [hne h]
      exact hok' q h
  · rcases howner i hi with ⟨b, idx, hr, hb⟩ | ⟨q, hq, b, idx, hr, hb⟩
    · refine ⟨p, b, idx, ?_, hb⟩
      rw [hself]
      exact hr
    · refine ⟨q, b, idx, ?_, hb⟩
      rw [hne hq]
      exact hr

/-- Whoever waits for a flying chain goes on to do so, when `p` does. -/
theorem owner_goto (inv : Inv s) {pc : Pc β}
    (hreq : ∀ b i idx, (s.pc p).request = some (b, i :: idx) → s.disk.busy b = true →
      pc.request = some (b, i :: idx)) {i : ℕ} (hi : i ∈ s.disk.flying) :
    (∃ b idx, pc.request = some (b, i :: idx) ∧ s.disk.busy b = true) ∨
      ∃ q, q ≠ p ∧ ∃ b idx, (s.pc q).request = some (b, i :: idx) ∧ s.disk.busy b = true := by
  obtain ⟨q, b, idx, hr, hb⟩ := inv.owner i hi
  by_cases h : q = p
  · subst h
    exact Or.inl ⟨b, idx, hreq b i idx hr hb, hb⟩
  · exact Or.inr ⟨q, h, b, idx, hr, hb⟩

/-- A step of `p` that leaves the disk as it is. -/
theorem move (inv : Inv s) {pc : Pc β} {holder : Option κ}
    (hlock : pc.locked = true ↔ holder = some p)
    (hothers : ∀ q, q ≠ p → (holder = some q ↔ s.holder = some q))
    (hbuf : ∀ b, pc.buf = some b → ∀ q, q ≠ p → (s.pc q).buf ≠ some b)
    (hidx : ∀ i ∈ pc.idx, i ∈ (s.pc p).idx) (hok : pc.Ok s.disk)
    (hreq : ∀ b i idx, (s.pc p).request = some (b, i :: idx) → s.disk.busy b = true →
      pc.request = some (b, i :: idx)) : Inv (s.goto p pc s.disk holder) :=
  inv.goto hlock hothers hbuf (fun i hi => inv.notMem_idx (hidx i hi)) hok (fun q _ => inv.ok q)
    inv.nodup (fun _ => inv.owner_goto hreq) inv.status

/-- The lock stays with `p`. -/
theorem lock_of_locked (inv : Inv s) {pc : Pc β} (hp : (s.pc p).locked = pc.locked) :
    pc.locked = true ↔ s.holder = some p := by
  rw [← hp]
  exact inv.lock p

/-- `p` releases the lock. -/
theorem none_eq_some (inv : Inv s) (hp : (s.pc p).locked = true) (q : κ) (hq : q ≠ p) :
    none = some q ↔ s.holder = some q := by
  rw [(inv.lock p).1 hp]
  exact ⟨nofun, fun h => (hq (Option.some.inj h).symm).elim⟩

theorem call (inv : Inv s) {b : β} {write : Bool} (hpc : s.pc p = .idle)
    (mine : ∀ q, (s.pc q).buf ≠ some b) :
    Inv (s.goto p (.start b write) s.disk s.holder) := by
  refine inv.move (inv.lock_of_locked (by rw [hpc]; rfl)) (fun _ _ => Iff.rfl) ?_ nofun
    (.of_idx_eq_nil trivial rfl rfl) ?_
  · intro b' hb q _
    cases hb
    exact mine q
  · rw [hpc]
    nofun

theorem callIntr (inv : Inv s) (hpc : s.pc p = .idle) :
    Inv (s.goto p .intr s.disk s.holder) := by
  refine inv.move (inv.lock_of_locked (by rw [hpc]; rfl)) (fun _ _ => Iff.rfl) nofun nofun
    (.of_idx_eq_nil trivial rfl rfl) ?_
  rw [hpc]
  nofun

theorem acquire (inv : Inv s) {pc : Pc β} (hpc : (s.pc p).acquired = some pc)
    (free : s.holder = none) : Inv (s.goto p pc s.disk (some p)) := by
  obtain ⟨hbuf, hidx, -, hreq, -, -, hl, -⟩ := Pc.of_acquired hpc
  refine inv.move (iff_of_true hl rfl) ?_ ?_ ?_ ((inv.ok p).acquire hpc) ?_
  · intro q hq
    rw [free]
    exact ⟨fun h => (hq (Option.some.inj h).symm).elim, nofun⟩
  · rw [hbuf]
    exact fun b => inv.buf_ne
  · rw [hidx]
    exact fun i => id
  · rw [hreq]
    exact fun b i idx h _ => h

theorem sleep (inv : Inv s) {b : β} {idx : List ℕ} (hpc : s.pc p = .wait b idx) :
    Inv (s.goto p (.sleepDisk b idx) s.disk none) := by
  have hok := inv.ok p
  have hbuf : (s.pc p).buf = some b := by rw [hpc]; rfl
  rw [hpc] at hok
  refine inv.move (iff_of_false Bool.false_ne_true nofun) (inv.none_eq_some (by rw [hpc]; rfl))
    ?_ ?_ ⟨hok.shape, hok.nodup, hok.owns, hok.chain, nofun, nofun, hok.waiting⟩ ?_
  · intro b' hb
    cases hb
    exact inv.buf_ne hbuf
  · rw [hpc]
    exact fun i => id
  · rw [hpc]
    exact fun b i idx h _ => h

theorem done (inv : Inv s) {b : β} {idx : List ℕ} (hpc : s.pc p = .wait b idx)
    (hb : s.disk.busy b = false) : Inv (s.goto p (.finish b idx) s.disk s.holder) := by
  have hok := inv.ok p
  have hbuf : (s.pc p).buf = some b := by rw [hpc]; rfl
  rw [hpc] at hok
  refine inv.move (inv.lock_of_locked (by rw [hpc]; rfl)) (fun _ _ => Iff.rfl) ?_ ?_
    ⟨hok.shape, hok.nodup, hok.owns, hok.chain, nofun, ?_, nofun⟩ ?_
  · intro b' hb
    cases hb
    exact inv.buf_ne hbuf
  · rw [hpc]
    exact fun i => id
  · intro b' idx' he
    cases he
    exact hb
  · intro b' i l h hb'
    rw [hpc] at h
    cases h
    rw [hb] at hb'
    cases hb'

/-- `p` releases the lock and is done. -/
theorem retire (inv : Inv s) (hp : (s.pc p).locked = true) (hr : (s.pc p).request = none) :
    Inv (s.goto p .idle s.disk none) := by
  refine inv.move (iff_of_false Bool.false_ne_true nofun) (inv.none_eq_some hp) nofun nofun
    (.of_idx_eq_nil trivial rfl rfl) ?_
  rw [hr]
  nofun

/-! ## Steps that change the disk -/

omit [DecidableEq κ] [DecidableEq β] in
theorem flying_eq (h : d.SameQueues d') : d'.flying = d.flying := by
  rw [Disk.flying, Disk.flying, h.avail, h.used, h.taken]

/-- What an unlocked process owns is not changed by `alloc3_desc` and `free_chain`. -/
theorem ok_of_sameQueues (inv : Inv s) (h : s.disk.SameQueues d') {q : κ}
    (hl : (s.pc q).locked = false)
    (hidx : ∀ i ∈ (s.pc q).idx, d'.free i = s.disk.free i ∧ d'.desc i = s.disk.desc i ∧
      (d'.info i).b = (s.disk.info i).b) : (s.pc q).Ok d' := by
  refine (inv.ok q).congr hidx (fun hl' => ?_) fun b i idx hr hb => ?_
  · rw [hl] at hl'
    cases hl'
  · rw [flying_eq h]
    rw [h.busy] at hb
    exact (inv.ok q).waiting b i idx hr hb

/-- A step of `p` that changes only descriptors, when `p` waits for nothing. -/
theorem describe (inv : Inv s) (hp : (s.pc p).locked = true) (hr : (s.pc p).request = none)
    {pc : Pc β} {holder : Option κ} (h : s.disk.SameQueues d')
    (hlock : pc.locked = true ↔ holder = some p)
    (hothers : ∀ q, q ≠ p → (holder = some q ↔ s.holder = some q))
    (hbuf : pc.buf = (s.pc p).buf) (hidx : ∀ i ∈ pc.idx, ∀ q, q ≠ p → i ∉ (s.pc q).idx)
    (hok : pc.Ok d') (hothers' : ∀ q, q ≠ p → ∀ i ∈ (s.pc q).idx, d'.free i = s.disk.free i ∧
      d'.desc i = s.disk.desc i ∧ (d'.info i).b = (s.disk.info i).b)
    (hstatus : ∀ i ∈ s.disk.flying, d'.info i = s.disk.info i) :
    Inv (s.goto p pc d' holder) := by
  refine inv.goto hlock hothers ?_ hidx hok
    (fun q hq => inv.ok_of_sameQueues h (inv.unlocked hp hq) (hothers' q hq)) ?_ ?_ ?_
  · rw [hbuf]
    exact fun b => inv.buf_ne
  · rw [flying_eq h]
    exact inv.nodup
  · rw [flying_eq h, h.busy]
    refine fun i => inv.owner_goto ?_
    rw [hr]
    nofun
  · rw [h.used]
    intro i hi
    rw [hstatus i (List.mem_append_right _ hi)]
    exact inv.status i hi

theorem alloc (inv : Inv s) {b : β} {write : Bool} {idx : List ℕ}
    (hpc : s.pc p = .alloc b write) (hd : s.disk.alloc3Desc = some (some idx, d)) :
    Inv (s.goto p (.format b write idx) d s.holder) := by
  have hp : (s.pc p).locked = true := by rw [hpc]; rfl
  rcases s.disk.exists_alloc3Desc with ⟨new, he, hlen, hnodup, hfree⟩ | ⟨d', he, -⟩
  · rw [hd] at he
    cases he
    have hnew : ∀ i ∈ idx, ∀ q, i ∉ (s.pc q).idx := by
      intro i hi q hq
      have hf := ((inv.ok q).owns i hq).2
      rw [(hfree i hi).2] at hf
      cases hf
    refine inv.describe hp (by rw [hpc]; rfl) ⟨rfl, rfl, rfl, rfl⟩
      (inv.lock_of_locked (by rw [hpc]; rfl)) (fun _ _ => Iff.rfl) (by rw [hpc]; rfl)
      (fun i hi q _ => hnew i hi q) ⟨hlen, hnodup, ?_, nofun, nofun, nofun, nofun⟩ ?_
      fun _ _ => rfl
    · exact fun i hi => ⟨(hfree i hi).1, if_pos hi⟩
    · exact fun q _ i hi => ⟨if_neg fun hm => hnew i hm q hi, rfl, rfl⟩
  · rw [hd] at he
    cases he

theorem allocFail (inv : Inv s) {b : β} {write : Bool} (hpc : s.pc p = .alloc b write)
    (hd : s.disk.alloc3Desc = some (none, d)) :
    Inv (s.goto p (.sleepAlloc b write) d none) := by
  have hp : (s.pc p).locked = true := by rw [hpc]; rfl
  rcases s.disk.exists_alloc3Desc with ⟨new, he, -⟩ | ⟨d', he, hfree, hdesc, hq, hinfo⟩
  · rw [hd] at he
    cases he
  · rw [hd] at he
    cases he
    refine inv.describe hp (by rw [hpc]; rfl) hq (iff_of_false Bool.false_ne_true nofun)
      (inv.none_eq_some hp) (by rw [hpc]; rfl) nofun (.of_idx_eq_nil trivial rfl rfl) ?_ ?_
    · intro q _ i hi
      rw [hfree, hinfo]
      exact ⟨rfl, hdesc i ((inv.ok q).owns i hi).2, rfl⟩
    · intro i _
      rw [hinfo]

/-- `free_chain` frees the descriptors of the request. -/
theorem exists_finish (inv : Inv s) {b : β} {idx : List ℕ} (hpc : s.pc p = .finish b idx) :
    ∃ i j k d, idx = [i, j, k] ∧ s.disk.finish i = some d ∧ s.disk.SameQueues d ∧
      (∀ x, d.free x = if x ∈ [i, j, k] then true else s.disk.free x) ∧
      (∀ x ∉ [i, j, k], d.desc x = s.disk.desc x) ∧ ∀ x ≠ i, d.info x = s.disk.info x := by
  have hf : (s.pc p).formatted = some (b, idx) := by rw [hpc]; rfl
  obtain ⟨i, j, k, rfl, hn, ho, hc⟩ := (inv.ok p).exists_idx hf
  obtain ⟨d, he, h⟩ := hc.exists_finish hn ho
  exact ⟨i, j, k, d, rfl, he, h⟩

theorem finish (inv : Inv s) {b : β} {i : ℕ} {idx : List ℕ} (hpc : s.pc p = .finish b (i :: idx))
    (hd : s.disk.finish i = some d) : Inv (s.goto p (.leave b) d s.holder) := by
  have hp : (s.pc p).locked = true := by rw [hpc]; rfl
  have hr : (s.pc p).request = none := by rw [hpc]; rfl
  obtain ⟨i', j, k, d', hl, he, hq, hfree, hdesc, hinfo⟩ := inv.exists_finish hpc
  cases hl
  rw [hd] at he
  cases he
  have hidx : (s.pc p).idx = [i, j, k] := by rw [hpc]; rfl
  refine inv.describe hp hr hq (inv.lock_of_locked (by rw [hpc]; rfl)) (fun _ _ => Iff.rfl)
    (by rw [hpc]; rfl) nofun (.of_idx_eq_nil trivial rfl rfl) ?_ ?_
  · intro q hne x hx
    have hni : x ∉ [i, j, k] := by
      intro hm
      rw [← hidx] at hm
      exact inv.notMem_idx hm q hne hx
    refine ⟨?_, hdesc x hni, ?_⟩
    · rw [hfree, if_neg hni]
    · rw [hinfo x fun h => hni (by rw [h]; exact List.mem_cons_self)]
  · intro x hx
    refine hinfo x fun h => inv.notMem_flying (p := p) (i := i) ?_ hr (h ▸ hx)
    rw [hidx]
    exact List.mem_cons_self

/-- An entry of the `avail` ring is written where the device does not look. -/
theorem contents_format (inv : Inv s) {b : β} {write : Bool} {i j k : ℕ}
    (hpc : s.pc p = .format b write [i, j, k]) :
    (s.disk.format b (blockno b) write i j k).avail.contents = s.disk.avail.contents := by
  refine Ring.contents_store (by decide) ?_ i
  refine (count_avail_le s.disk).trans_lt (inv.flying_length_lt (p := p) (i := i) ?_ ?_)
  · rw [hpc]
    exact List.mem_cons_self
  · rw [hpc]
    rfl

theorem format (inv : Inv s) {b : β} {write : Bool} {i j k : ℕ}
    (hpc : s.pc p = .format b write [i, j, k]) :
    Inv (s.goto p (.publish b [i, j, k]) (s.disk.format b (blockno b) write i j k) s.holder) := by
  have hp : (s.pc p).locked = true := by rw [hpc]; rfl
  have hr : (s.pc p).request = none := by rw [hpc]; rfl
  have hidx : (s.pc p).idx = [i, j, k] := by rw [hpc]; rfl
  have hbuf : (s.pc p).buf = some b := by rw [hpc]; rfl
  have hmi : i ∈ (s.pc p).idx := by
    rw [hidx]
    exact List.mem_cons_self
  have hok := inv.ok p
  rw [hpc] at hok
  have hfly : (s.disk.format b (blockno b) write i j k).flying = s.disk.flying := by
    rw [Disk.flying, inv.contents_format hpc]
    rfl
  have hbusy : ∀ b', b' ≠ b →
      (s.disk.format b (blockno b) write i j k).busy b' = s.disk.busy b' :=
    fun b' h => Function.update_of_ne h ..
  refine inv.goto (inv.lock_of_locked (by rw [hpc]; rfl)) (fun _ _ => Iff.rfl) ?_ ?_
    ⟨hok.shape, hok.nodup, hok.owns, ?_, ?_, nofun, nofun⟩ ?_ ?_ ?_ ?_
  · intro b' hb
    cases hb
    exact inv.buf_ne hbuf
  · intro x hx
    refine inv.notMem_idx ?_
    rw [hidx]
    exact hx
  · intro b' i' j' k' h
    cases h
    exact Disk.chain_format hok.nodup (blockno b) write
  · intro b' i' idx' h
    cases h
    exact ⟨Function.update_self .., Function.update_self ..⟩
  · intro q hq
    refine (inv.ok q).congr (fun x hx => ?_) (fun hl => ?_) fun b' x idx hr' hb' => ?_
    · have hni : x ∉ [i, j, k] := by
        intro hm
        rw [← hidx] at hm
        exact inv.notMem_idx hm q hq hx
      refine ⟨rfl, Disk.format_desc hni, ?_⟩
      rw [Disk.format_info fun h => hni (by rw [h]; exact List.mem_cons_self)]
    · rw [inv.unlocked hp hq] at hl
      cases hl
    · have hne : b' ≠ b := by
        rintro rfl
        exact inv.buf_ne hbuf q hq (Pc.buf_of_request hr')
      rw [hfly]
      rw [hbusy b' hne] at hb'
      exact (inv.ok q).waiting b' x idx hr' hb'
  · rw [hfly]
    exact inv.nodup
  · intro x hx
    rw [hfly] at hx
    obtain ⟨q, b', idx', hr', hb'⟩ := inv.owner x hx
    have hq : q ≠ p := by
      rintro rfl
      rw [hr] at hr'
      cases hr'
    have hne : b' ≠ b := by
      rintro rfl
      exact inv.buf_ne hbuf q hq (Pc.buf_of_request hr')
    exact Or.inr ⟨q, hq, b', idx', hr', (hbusy b' hne).trans hb'⟩
  · intro x hx
    have hne : x ≠ i := by
      rintro rfl
      exact inv.notMem_flying hmi hr (List.mem_append_right _ hx)
    rw [Disk.format_info hne]
    exact inv.status x hx

/-! ## Flying chains -/

/-- The increment of `avail->idx` adds the chain to the ring. -/
theorem contents_publish (inv : Inv s) {b : β} {i : ℕ} {idx : List ℕ}
    (hpc : s.pc p = .publish b (i :: idx)) :
    s.disk.publish.avail.contents = s.disk.avail.contents ++ [i] := by
  have hr : (s.pc p).request = none := by rw [hpc]; rfl
  have hmi : i ∈ (s.pc p).idx := by
    rw [hpc]
    exact List.mem_cons_self
  have hroom : s.disk.avail.count < NUM :=
    (count_avail_le s.disk).trans_lt (inv.flying_length_lt hmi hr)
  show s.disk.avail.advance.contents = _
  rw [Ring.contents_advance (by decide) (by decide) hroom, ((inv.ok p).ready b i idx hpc).1]

theorem publish (inv : Inv s) {b : β} {idx : List ℕ} (hpc : s.pc p = .publish b idx) :
    Inv (s.goto p (.wait b idx) s.disk.publish s.holder) := by
  have hp : (s.pc p).locked = true := by rw [hpc]; rfl
  have hr : (s.pc p).request = none := by rw [hpc]; rfl
  have hbuf : (s.pc p).buf = some b := by rw [hpc]; rfl
  have hf : (s.pc p).formatted = some (b, idx) := by rw [hpc]; rfl
  obtain ⟨i, j, k, rfl, -⟩ := (inv.ok p).exists_idx hf
  have hmi : i ∈ (s.pc p).idx := by
    rw [hpc]
    exact List.mem_cons_self
  have hperm : s.disk.publish.flying.Perm (i :: s.disk.flying) := by
    rw [Disk.flying, inv.contents_publish hpc, Disk.flying]
    simp only [List.append_assoc, List.singleton_append]
    exact List.perm_middle
  have hok := inv.ok p
  rw [hpc] at hok
  refine inv.goto (inv.lock_of_locked (by rw [hpc]; rfl)) (fun _ _ => Iff.rfl) ?_ ?_
    ⟨hok.shape, hok.nodup, hok.owns, ?_, nofun, nofun, ?_⟩ ?_ ?_ ?_ inv.status
  · intro b' hb
    cases hb
    exact inv.buf_ne hbuf
  · intro x hx
    refine inv.notMem_idx ?_
    rw [hpc]
    exact hx
  · intro b' i' j' k' h
    exact (hok.chain b' i' j' k' h).congr (fun _ _ => rfl) rfl
  · intro b' x l h _
    cases h
    exact hperm.mem_iff.2 List.mem_cons_self
  · intro q hq
    refine (inv.ok q).congr (fun x hx => ⟨rfl, rfl, rfl⟩) (fun hl => ?_) fun b' x l hr' hb' => ?_
    · rw [inv.unlocked hp hq] at hl
      cases hl
    · exact hperm.mem_iff.2 (List.mem_cons_of_mem _ ((inv.ok q).waiting b' x l hr' hb'))
  · exact hperm.nodup_iff.2 (List.nodup_cons.2 ⟨inv.notMem_flying hmi hr, inv.nodup⟩)
  · intro x hx
    rcases List.mem_cons.1 (hperm.mem_iff.1 hx) with rfl | hx
    · exact Or.inl ⟨b, [j, k], rfl, (hok.ready b x [j, k] rfl).2⟩
    · exact inv.owner_goto (by rw [hr]; nofun) hx

/-- The process that waits for a flying chain. -/
theorem exists_chain (inv : Inv s) {i : ℕ} (hi : i ∈ s.disk.flying) :
    ∃ p b j k, (s.pc p).request = some (b, [i, j, k]) ∧ s.disk.Chain b i j k ∧
      s.disk.busy b = true := by
  obtain ⟨p, b, idx, hr, hb⟩ := inv.owner i hi
  obtain ⟨i', j, k, he, -, -, hc⟩ := (inv.ok p).exists_idx (Pc.formatted_of_request hr)
  cases he
  exact ⟨p, b, j, k, hr, hc, hb⟩

omit [DecidableEq κ] [DecidableEq β] in
theorem front_mem (d : Disk β) (more : d.used.nread ≠ d.used.nwrite) :
    d.flying.Perm (d.used.front :: { d with used := d.used.pop }.flying) := by
  rw [Disk.flying, Disk.flying, Ring.contents_pop (mt Ring.count_eq_zero.1 more)]
  exact List.perm_middle

/-- The interrupt handler finds a completed request. -/
theorem exists_intr (inv : Inv s) (more : s.disk.used.nread ≠ s.disk.used.nwrite) :
    ∃ p b j k, (s.pc p).request = some (b, [s.disk.used.front, j, k]) ∧
      s.disk.busy b = true ∧ s.disk.intr = some { s.disk with
        busy := Function.update s.disk.busy b false
        used := s.disk.used.pop } := by
  have hfront : s.disk.used.front ∈ s.disk.used.contents := by
    rw [Ring.contents_pop (mt Ring.count_eq_zero.1 more)]
    exact List.mem_cons_self
  obtain ⟨p, b, j, k, hr, hc, hb⟩ := inv.exists_chain (List.mem_append_right _ hfront)
  refine ⟨p, b, j, k, hr, hb, ?_⟩
  simp only [Disk.intr, inv.status _ hfront, hc.buf, ne_eq, not_true, if_false]

theorem intr (inv : Inv s) (hpc : s.pc p = .intrLoop)
    (more : s.disk.used.nread ≠ s.disk.used.nwrite) (hd : s.disk.intr = some d) :
    Inv (s.goto p .intrLoop d s.holder) := by
  have hp : (s.pc p).locked = true := by rw [hpc]; rfl
  have hr : (s.pc p).request = none := by rw [hpc]; rfl
  obtain ⟨q, b, j, k, hq, hb, he⟩ := inv.exists_intr more
  rw [hd] at he
  cases he
  have hperm := front_mem s.disk more
  have hn := List.nodup_cons.1 (hperm.nodup_iff.1 inv.nodup)
  have hbusy : ∀ b', b' ≠ b → Function.update s.disk.busy b false b' = s.disk.busy b' :=
    fun b' h => Function.update_of_ne h ..
  refine inv.goto (inv.lock_of_locked (by rw [hpc])) (fun _ _ => Iff.rfl) nofun nofun
    (.of_idx_eq_nil trivial rfl rfl) ?_ hn.2 ?_ ?_
  · intro r hne
    refine (inv.ok r).congr (fun x hx => ⟨rfl, rfl, rfl⟩) (fun hl => ?_) fun b' x l hr' hb' => ?_
    · rw [inv.unlocked hp hne] at hl
      cases hl
    · have hne' : b' ≠ b := by
        rintro rfl
        cases (Function.update_self ..).symm.trans hb'
      have hx := (inv.ok r).waiting b' x l hr' ((hbusy b' hne').symm.trans hb')
      rcases List.mem_cons.1 (hperm.mem_iff.1 hx) with rfl | hx
      · -- The chain at the front is that of `q`, so `r = q` and the buffer is `b`.
        have hxr : s.disk.used.front ∈ (s.pc r).idx := by
          rw [Pc.idx_of_request hr']
          exact List.mem_cons_self
        have hxq : s.disk.used.front ∈ (s.pc q).idx := by
          rw [Pc.idx_of_request hq]
          exact List.mem_cons_self
        obtain rfl := inv.disjoint r q _ hxr hxq
        rw [hq] at hr'
        cases hr'
        exact (hne' rfl).elim
      · exact hx
  · intro x hx
    obtain ⟨r, b', l, hr', hb'⟩ := inv.owner x (hperm.mem_iff.2 (List.mem_cons_of_mem _ hx))
    have hne : r ≠ p := by
      rintro rfl
      rw [hr] at hr'
      cases hr'
    have hne' : b' ≠ b := by
      rintro rfl
      obtain rfl := inv.bufs r q b' (Pc.buf_of_request hr') (Pc.buf_of_request hq)
      rw [hq] at hr'
      cases hr'
      exact hn.1 hx
    exact Or.inr ⟨r, hne, b', l, hr', (hbusy b' hne').trans hb'⟩
  · intro x hx
    refine inv.status x ?_
    rw [Ring.contents_pop (mt Ring.count_eq_zero.1 more)]
    exact List.mem_cons_of_mem _ hx

/-! ## Steps of the device -/

/-- A step of the device: the flying chains stay the same, and the descriptors with them. -/
theorem device (inv : Inv s) (hdesc : d.desc = s.disk.desc) (hfree : d.free = s.disk.free)
    (hinfo : ∀ i, (d.info i).b = (s.disk.info i).b) (hbusy : d.busy = s.disk.busy)
    (hslot : d.avail.data (Ring.place NUM d.avail.nwrite)
      = s.disk.avail.data (Ring.place NUM s.disk.avail.nwrite))
    (hperm : d.flying.Perm s.disk.flying)
    (hstatus : ∀ i ∈ d.used.contents, (d.info i).status = 0) :
    Inv { s with disk := d } where
  lock := inv.lock
  bufs := inv.bufs
  disjoint := inv.disjoint
  ok p := by
    refine (inv.ok p).congr (fun x _ => ⟨?_, ?_, hinfo x⟩) (fun _ => ⟨hbusy, hslot⟩) ?_
    · rw [hfree]
    · rw [hdesc]
    · intro b i idx hr hb
      rw [hbusy] at hb
      exact hperm.mem_iff.2 ((inv.ok p).waiting b i idx hr hb)
  nodup := hperm.nodup_iff.2 inv.nodup
  owner i hi := by
    rw [hbusy]
    exact inv.owner i (hperm.mem_iff.1 hi)
  status := hstatus

omit [DecidableEq β] in
theorem flying_take (d : Disk β) (more : d.avail.nread ≠ d.avail.nwrite) :
    d.take.flying.Perm d.flying := by
  rw [Disk.flying, Disk.flying, Disk.take, Ring.contents_pop (mt Ring.count_eq_zero.1 more)]
  refine List.Perm.append_right _ ?_
  rw [← List.append_assoc]
  exact List.perm_append_comm

theorem take (inv : Inv s) (more : s.disk.avail.nread ≠ s.disk.avail.nwrite) :
    Inv { s with disk := s.disk.take } :=
  inv.device rfl rfl (fun _ => rfl) rfl rfl (flying_take s.disk more) inv.status

/-- The device writes the status byte of the chain and an entry of the `used` ring. -/
theorem complete_eq (inv : Inv s) {i : ℕ} (hi : i ∈ s.disk.taken) :
    s.disk.complete i = { s.disk with
      info := Function.update s.disk.info i { s.disk.info i with status := 0 }
      used := s.disk.used.push i
      taken := s.disk.taken.erase i } := by
  have hf : i ∈ s.disk.flying := List.mem_append_left _ (List.mem_append_right _ hi)
  obtain ⟨p, b, j, k, hr, hc, hb⟩ := inv.exists_chain hf
  rw [Disk.complete, hc.last, hc.status]

theorem contents_complete (inv : Inv s) {i : ℕ} (hi : i ∈ s.disk.taken) :
    (s.disk.used.push i).contents = s.disk.used.contents ++ [i] := by
  refine Ring.contents_push (by decide) (by decide) ?_ i
  have hlen := inv.flying_length_le
  have hpos := List.length_pos_of_mem hi
  rw [Disk.flying, List.length_append, List.length_append, Ring.length_contents,
    Ring.length_contents] at hlen
  omega

theorem flying_complete (inv : Inv s) {i : ℕ} (hi : i ∈ s.disk.taken) :
    (s.disk.complete i).flying.Perm s.disk.flying := by
  rw [inv.complete_eq hi, Disk.flying, Disk.flying, inv.contents_complete hi]
  have hperm := List.perm_cons_erase hi
  calc s.disk.avail.contents ++ s.disk.taken.erase i ++ (s.disk.used.contents ++ [i])
    _ = s.disk.avail.contents ++ (s.disk.taken.erase i ++ s.disk.used.contents ++ [i]) := by
        simp only [List.append_assoc]
    List.Perm _ (s.disk.avail.contents ++ (i :: (s.disk.taken.erase i ++ s.disk.used.contents))) :=
        List.perm_append_comm.append_left _
    List.Perm _ (s.disk.avail.contents ++ (s.disk.taken ++ s.disk.used.contents)) :=
        (hperm.symm.append_right _).append_left _
    _ = s.disk.avail.contents ++ s.disk.taken ++ s.disk.used.contents :=
        (List.append_assoc ..).symm

theorem complete (inv : Inv s) {i : ℕ} (hi : i ∈ s.disk.taken) :
    Inv { s with disk := s.disk.complete i } := by
  have hperm := inv.flying_complete hi
  rw [inv.complete_eq hi] at hperm ⊢
  refine inv.device rfl rfl (fun x => ?_) rfl rfl hperm fun x hx => ?_
  · show (Function.update s.disk.info i { s.disk.info i with status := 0 } x).b = _
    by_cases h : x = i
    · rw [h, Function.update_self]
    · rw [Function.update_of_ne h]
  · show (Function.update s.disk.info i { s.disk.info i with status := 0 } x).status = 0
    by_cases h : x = i
    · rw [h, Function.update_self]
    · rw [Function.update_of_ne h]
      rw [inv.contents_complete hi] at hx
      rcases List.mem_append.1 hx with hx | hx
      · exact inv.status x hx
      · exact (h (List.mem_singleton.1 hx)).elim

omit [DecidableEq κ] [DecidableEq β] in
theorem flying_init : (Disk.init β).flying = [] := by
  simp only [Disk.flying, Disk.init, Ring.contents, Ring.count, BitVec.sub_self, BitVec.toNat_zero,
    List.range_zero, List.map_nil, List.append_nil]

theorem init (κ β : Type) [DecidableEq κ] [DecidableEq β] :
    Inv ({ disk := Disk.init β, holder := none, pc := fun _ => .idle } : State κ β) where
  lock _ := iff_of_false Bool.false_ne_true nofun
  bufs _ _ _ := nofun
  disjoint _ _ _ := nofun
  ok _ := .of_idx_eq_nil trivial rfl rfl
  nodup := by
    rw [flying_init]
    exact List.nodup_nil
  owner i hi := by
    rw [flying_init] at hi
    cases hi
  status i hi := by
    have hf : i ∈ (Disk.init β).flying := List.mem_append_right _ hi
    rw [flying_init] at hf
    cases hf

/-- **Every step keeps the invariant.** -/
theorem step {e : Event κ} (inv : Inv s) (t : Step blockno s e s') : Inv s' := by
  cases t with
  | call hpc mine => exact inv.call hpc mine
  | callIntr hpc => exact inv.callIntr hpc
  | acquire hpc free => exact inv.acquire hpc free
  | alloc hpc hd => exact inv.alloc hpc hd
  | allocFail hpc hd => exact inv.allocFail hpc hd
  | format hpc => exact inv.format hpc
  | publish hpc => exact inv.publish hpc
  | sleep hpc hb => exact inv.sleep hpc
  | done hpc hb => exact inv.done hpc hb
  | finish hpc hd => exact inv.finish hpc hd
  | ret hpc => exact inv.retire (by rw [hpc]; rfl) (by rw [hpc]; rfl)
  | intr hpc more hd => exact inv.intr hpc more hd
  | intrRet hpc more => exact inv.retire (by rw [hpc]; rfl) (by rw [hpc]; rfl)
  | take more => exact inv.take more
  | complete hi => exact inv.complete hi

/-- The invariant holds in every run. -/
theorem of_run {h : List (Event κ)} (r : (virtio κ blockno).Run h s) : Inv s := by
  refine r.invariant (I := fun _ s => Inv s) ?_ fun _ _ _ _ _ inv t => inv.step t
  rintro s rfl
  exact init κ β

end Inv

end Xv6.Virtio
