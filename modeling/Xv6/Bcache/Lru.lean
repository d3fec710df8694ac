import Mathlib.Algebra.BigOperators.Ring.Finset
import Mathlib.Tactic.Linarith
import Xv6.Bcache.Defs

/-!
# The representation of the buffer cache

The list from `bcache.head` is a permutation of the buffers (`Cache.Listed`), at most one buffer
carries a block (`Cache.Unique`), and the reference count of a buffer is the number of processes
that use it plus its log pins (`Ok.count`). The order of the list is the order in which the
buffers were last given up: `age h b` counts the steps of a run since `brelse` last dropped the
count of `b` to 0, and the list is sorted by it (`Sorted`).
-/

namespace Xv6.Bcache

open Log (BlockNo)

variable {κ : Type} [DecidableEq κ] {n : ℕ}

/-! ## The list -/

namespace Cache

variable {c : Cache n} {l : List (Fin n)} {a b : Fin n} {dev : BitVec 32} {blockno : BlockNo}

private theorem join_map_some {α : Type*} (o : Option α) : (o.map some).join = o := by
  cases o <;> rfl

/-- The list from the head is `l`, a permutation of all buffers. -/
structure Listed (c : Cache n) (l : List (Fin n)) : Prop where
  perm : l.Perm (List.finRange n)
  circle : c.links.Circle none (l.map some)

/-- At most one buffer carries a given block of a device other than 0. -/
def Unique (c : Cache n) : Prop :=
  ∀ a b, (c.buf a).dev ≠ 0 → (c.buf a).Is (c.buf b).dev (c.buf b).blockno → a = b

@[simp] theorem setBuf_self (x : Buf) : (c.setBuf b x).buf b = x := Function.update_self ..

theorem setBuf_of_ne (x : Buf) (h : a ≠ b) : (c.setBuf b x).buf a = c.buf a :=
  Function.update_of_ne h ..

/-- `brelse` changes the fields of its buffer as `bunpin` does. -/
@[simp] theorem brelse_buf : (c.brelse b).buf = (c.bunpin b).buf := by
  unfold brelse
  dsimp only
  split <;> rfl

namespace Listed

theorem mem (h : c.Listed l) (b : Fin n) : b ∈ l := h.perm.mem_iff.2 (List.mem_finRange b)

theorem nodup (h : c.Listed l) : l.Nodup := h.perm.nodup_iff.2 (List.nodup_finRange n)

theorem length (h : c.Listed l) : l.length = n := h.perm.length_eq.trans (List.length_finRange)

theorem of_links {c' : Cache n} (h : c.Listed l) (hl : c'.links = c.links) : c'.Listed l :=
  ⟨h.perm, hl ▸ h.circle⟩

/-- The first loop of `bget` finds the first buffer of the list with the block. -/
theorem lookup_eq (h : c.Listed l) :
    c.lookup dev blockno = l.find? fun b => (c.buf b).Is dev blockno := by
  rw [lookup, h.circle.scan_next (by rw [List.length_map, h.length]; omega), List.find?_map,
    join_map_some]
  rfl

/-- The second loop finds the last one that is unused. -/
theorem unused_eq (h : c.Listed l) :
    c.unused = l.reverse.find? fun b => (c.buf b).refcnt = 0 := by
  rw [unused, h.circle.scan_prev (by rw [List.length_map, h.length]; omega), ← List.map_reverse,
    List.find?_map, join_map_some]
  rfl

theorem is_of_lookup (h : c.Listed l) (hb : c.lookup dev blockno = some b) :
    (c.buf b).Is dev blockno := by
  rw [h.lookup_eq] at hb
  simpa using List.find?_some hb

theorem not_is_of_lookup (h : c.Listed l) (hm : c.lookup dev blockno = none) (b : Fin n) :
    ¬ (c.buf b).Is dev blockno := by
  rw [h.lookup_eq, List.find?_eq_none] at hm
  simpa using hm b (h.mem b)

theorem refcnt_of_unused (h : c.Listed l) (hb : c.unused = some b) : (c.buf b).refcnt = 0 := by
  rw [h.unused_eq] at hb
  simpa using List.find?_some hb

theorem refcnt_ne_of_unused (h : c.Listed l) (hm : c.unused = none) (b : Fin n) :
    (c.buf b).refcnt ≠ 0 := by
  rw [h.unused_eq, List.find?_eq_none] at hm
  simpa using hm b (List.mem_reverse.2 (h.mem b))

/-- The buffer that `bget` recycles is the last unused one. -/
theorem unused_last (h : c.Listed l) {r : Fin n → Fin n → Prop} (hr : l.Pairwise r)
    (hb : c.unused = some b) (ha : (c.buf a).refcnt = 0) : a = b ∨ r a b := by
  rw [h.unused_eq, List.find?_eq_some_iff_append] at hb
  obtain ⟨-, l₂, l₁, hl, hno⟩ := hb
  have hl : l = l₁.reverse ++ b :: l₂.reverse := by
    rw [← List.reverse_reverse l, hl, List.reverse_append, List.reverse_cons, List.append_assoc,
      List.singleton_append]
  have ham : a ∈ l := h.mem a
  rw [hl, List.mem_append, List.mem_cons, List.mem_reverse, List.mem_reverse] at ham
  rcases ham with ham | rfl | ham
  · rw [hl, List.pairwise_append] at hr
    exact Or.inr (hr.2.2 a (List.mem_reverse.2 ham) b List.mem_cons_self)
  · exact Or.inl rfl
  · have := hno a ham
    simp [ha] at this

/-- `brelse` moves a buffer that nobody uses any more to the front. -/
theorem brelse_drop (h : c.Listed l) (hb : ((c.bunpin b).buf b).refcnt = 0) :
    (c.brelse b).Listed (b :: l.erase b) := by
  obtain ⟨l₁, l₂, hl⟩ := List.append_of_mem (h.mem b)
  have hb₁ : b ∉ l₁ := fun hm => by
    have := h.nodup
    rw [hl, List.nodup_append] at this
    exact this.2.2 b hm b List.mem_cons_self rfl
  have he : l.erase b = l₁ ++ l₂ := by
    rw [hl, List.erase_append_right _ hb₁, List.erase_cons_head]
  constructor
  · exact (List.perm_cons_erase (h.mem b)).symm.trans h.perm
  · have hc := h.circle
    rw [hl, List.map_append, List.map_cons] at hc
    rw [brelse, if_pos hb, he, List.map_cons, List.map_append]
    exact hc.unlink_push

theorem brelse_keep (h : c.Listed l) (hb : ((c.bunpin b).buf b).refcnt ≠ 0) :
    (c.brelse b).Listed l := by
  rw [brelse, if_neg hb]
  exact h.of_links rfl

end Listed

/-- The list that `binit` makes. -/
theorem listed_init : (init : Cache n).Listed (List.finRange n).reverse := by
  have hfold : ∀ (l : List (Fin n)), l.Nodup →
      (l.foldl (fun (L : Links (Node n)) b => L.push none (some b))
        ⟨fun _ => none, fun _ => none⟩).Circle none (l.reverse.map some) := by
    intro l
    induction l using List.reverseRecOn with
    | nil => exact fun _ => .empty rfl rfl
    | append_singleton l b ih =>
      intro hl
      rw [List.nodup_append] at hl
      rw [List.foldl_append, List.reverse_append, List.reverse_singleton]
      refine (ih hl.1).push fun hm => ?_
      simp only [List.mem_cons, List.mem_map, List.mem_reverse, Option.some.injEq,
        exists_eq_right, reduceCtorEq, false_or] at hm
      exact hl.2.2 b hm b (List.mem_singleton_self b) rfl
  exact ⟨List.reverse_perm _, hfold _ (List.nodup_finRange n)⟩

/-! ## Uniqueness -/

/-- The fields that say which block a buffer carries stay the same. -/
theorem Unique.of_same {c' : Cache n} (hu : c.Unique)
    (hs : ∀ b, (c'.buf b).dev = (c.buf b).dev ∧ (c'.buf b).blockno = (c.buf b).blockno) :
    c'.Unique := by
  intro a b h0 hab
  simp only [Buf.Is, (hs a).1, (hs a).2, (hs b).1, (hs b).2] at h0 hab
  exact hu a b h0 hab

/-- Recycling a buffer for a block that is not cached. -/
theorem Unique.recycle (hu : c.Unique) (hm : ∀ a, ¬ (c.buf a).Is dev blockno) :
    (c.recycle b dev blockno).Unique := by
  intro x y h0 hxy
  unfold Cache.recycle at h0 hxy
  by_cases hx : x = b <;> by_cases hy : y = b
  · rw [hx, hy]
  · subst hx
    rw [setBuf_self, setBuf_of_ne _ hy] at hxy
    exact (hm y ⟨hxy.1.symm, hxy.2.symm⟩).elim
  · subst hy
    rw [setBuf_self, setBuf_of_ne _ hx] at hxy
    exact (hm x hxy).elim
  · rw [setBuf_of_ne _ hx] at h0 hxy
    rw [setBuf_of_ne _ hy] at hxy
    exact hu x y h0 hxy

end Cache

/-! ## Reference counts -/

/-- How the number of places with the value `x` changes with one update. -/
theorem card_update {α : Type*} [DecidableEq α] [Fintype κ] (f : κ → α) (p : κ) (v x : α) :
    (Finset.univ.filter (Function.update f p v · = x)).card + (if f p = x then 1 else 0)
      = (Finset.univ.filter (f · = x)).card + if v = x then 1 else 0 := by
  have hrest : ∀ i ∈ Finset.univ.erase p,
      (if Function.update f p v i = x then 1 else 0) = if f i = x then 1 else 0 := by
    intro i hi
    rw [Function.update_of_ne (Finset.ne_of_mem_erase hi)]
  rw [Finset.card_filter, Finset.card_filter, ← Finset.add_sum_erase _ _ (Finset.mem_univ p),
    ← Finset.add_sum_erase _ (fun i => if f i = x then 1 else 0) (Finset.mem_univ p),
    Finset.sum_congr rfl hrest, Function.update_self]
  omega

namespace State

variable [Fintype κ] (s : State κ n) (b : Fin n)

/-- The number of processes in `bget` that wait for the sleeplock of `b`. -/
def waiters : ℕ := (Finset.univ.filter (s.stage · = .waits b)).card

/-- The number of processes in `brelse` that have released the sleeplock of `b`, but not given
up their reference yet. -/
def releasers : ℕ := (Finset.univ.filter (s.stage · = .releases b)).card

/-- The number of processes that hold the sleeplock of `b`. -/
def holders : ℕ := if (s.locked b).isSome then 1 else 0

omit [DecidableEq κ] [Fintype κ] in
/-- The blocks of the log whose buffers are pinned. -/
def pinned (s : State κ n) : List BlockNo := s.lh.drop (s.installed.getD 0)

omit [DecidableEq κ] [Fintype κ] in
/-- The number of log pins of `b`. -/
def pins (s : State κ n) (b : Fin n) : ℕ :=
  if (s.cache.buf b).dev = ROOTDEV ∧ (s.cache.buf b).blockno ∈ s.pinned then 1 else 0

/-- All references to `b`. -/
def refs : ℕ := s.waiters b + s.releasers b + s.holders b + s.pins b

/-- The invariant of the cache. -/
structure Ok (s : State κ n) : Prop where
  listed : ∃ l, s.cache.Listed l
  unique : s.cache.Unique
  /-- The log lists a block once. -/
  nodup : s.lh.Nodup
  /-- A pinned block has its buffer. -/
  cached : ∀ blockno ∈ s.pinned, ∃ b, (s.cache.buf b).Is ROOTDEV blockno
  count : ∀ b, (s.cache.buf b).refcnt = s.refs b

end State

/-- Whether a process at this stage has a reference to `b` without holding its lock. -/
def Stage.uses (x : Stage n) (b : Fin n) : ℕ := if x = .waits b ∨ x = .releases b then 1 else 0

@[simp] theorem Stage.uses_idle (b : Fin n) : (Stage.idle : Stage n).uses b = 0 := rfl

@[simp] theorem Stage.uses_waits (a b : Fin n) :
    (Stage.waits a).uses b = if a = b then 1 else 0 := by
  simp [uses]

@[simp] theorem Stage.uses_releases (a b : Fin n) :
    (Stage.releases a).uses b = if a = b then 1 else 0 := by
  simp [uses]

namespace State

variable [Fintype κ] {s s' : State κ n} {p : κ} {b : Fin n}

/-- One process moves to another stage. -/
theorem users_update {v : Stage n} (hs : s'.stage = Function.update s.stage p v) (b : Fin n) :
    s'.waiters b + s'.releasers b + (s.stage p).uses b
      = s.waiters b + s.releasers b + v.uses b := by
  have hw := card_update s.stage p v (.waits b)
  have hr := card_update s.stage p v (.releases b)
  simp only [waiters, releasers, hs, Stage.uses]
  cases hp : s.stage p <;> cases v <;> simp only [hp] at hw hr ⊢ <;> simp at hw hr ⊢ <;> omega

omit [DecidableEq κ] in
theorem users_same (hs : s'.stage = s.stage) (b : Fin n) :
    s'.waiters b = s.waiters b ∧ s'.releasers b = s.releasers b := by
  simp only [waiters, releasers, hs, and_self]

omit [DecidableEq κ] [Fintype κ] in
/-- Log pins depend on the log and on which block each buffer carries. -/
theorem pins_same (hp : s'.pinned = s.pinned)
    (hb : (s'.cache.buf b).dev = (s.cache.buf b).dev ∧
      (s'.cache.buf b).blockno = (s.cache.buf b).blockno) : s'.pins b = s.pins b := by
  simp only [pins, hp, hb]

omit [DecidableEq κ] [Fintype κ] in
theorem holders_update {o : Option κ} [DecidableEq κ]
    (hl : s'.locked = Function.update s.locked b o) (a : Fin n) :
    s'.holders a = if a = b then (if o.isSome then 1 else 0) else s.holders a := by
  simp only [holders, hl]
  by_cases h : a = b
  · rw [h, Function.update_self, if_pos rfl]
  · rw [Function.update_of_ne h, if_neg h]

end State

namespace Cache

variable {c : Cache n} {b : Fin n}

theorem bpin_refcnt (a : Fin n) :
    ((c.bpin b).buf a).refcnt = (c.buf a).refcnt + if a = b then 1 else 0 := by
  by_cases h : a = b
  · rw [h, bpin, setBuf_self, if_pos rfl]
  · rw [bpin, setBuf_of_ne _ h, if_neg h]
    rfl

theorem bunpin_refcnt (a : Fin n) :
    ((c.bunpin b).buf a).refcnt = (c.buf a).refcnt - if a = b then 1 else 0 := by
  by_cases h : a = b
  · rw [h, bunpin, setBuf_self, if_pos rfl]
  · rw [bunpin, setBuf_of_ne _ h, if_neg h]
    rfl

theorem bpin_same (a : Fin n) : ((c.bpin b).buf a).dev = (c.buf a).dev ∧
    ((c.bpin b).buf a).blockno = (c.buf a).blockno := by
  by_cases h : a = b
  · rw [h, bpin, setBuf_self]
    exact ⟨rfl, rfl⟩
  · rw [bpin, setBuf_of_ne _ h]
    exact ⟨rfl, rfl⟩

theorem bunpin_same (a : Fin n) : ((c.bunpin b).buf a).dev = (c.buf a).dev ∧
    ((c.bunpin b).buf a).blockno = (c.buf a).blockno := by
  by_cases h : a = b
  · rw [h, bunpin, setBuf_self]
    exact ⟨rfl, rfl⟩
  · rw [bunpin, setBuf_of_ne _ h]
    exact ⟨rfl, rfl⟩

theorem fill_same (a : Fin n) : ((c.fill b).buf a).dev = (c.buf a).dev ∧
    ((c.fill b).buf a).blockno = (c.buf a).blockno ∧
    ((c.fill b).buf a).refcnt = (c.buf a).refcnt := by
  by_cases h : a = b
  · rw [h, fill, setBuf_self]
    exact ⟨rfl, rfl, rfl⟩
  · rw [fill, setBuf_of_ne _ h]
    exact ⟨rfl, rfl, rfl⟩

theorem Listed.brelse {l : List (Fin n)} (h : c.Listed l) : ∃ l', (c.brelse b).Listed l' := by
  by_cases hb : ((c.bunpin b).buf b).refcnt = 0
  · exact ⟨_, h.brelse_drop hb⟩
  · exact ⟨_, h.brelse_keep hb⟩

end Cache

/-! ## The steps keep the invariant -/

variable [Fintype κ] {s s' : State κ n} {p : κ} {e : Event n}

omit [DecidableEq κ] [Fintype κ] in
/-- The blocks stay in their buffers. -/
private theorem cached_of_same
    (hc : ∀ blockno ∈ s.pinned, ∃ b, (s.cache.buf b).Is ROOTDEV blockno)
    (hp : ∀ blockno ∈ s'.pinned, blockno ∈ s.pinned)
    (hs : ∀ b, (s'.cache.buf b).dev = (s.cache.buf b).dev ∧
      (s'.cache.buf b).blockno = (s.cache.buf b).blockno) :
    ∀ blockno ∈ s'.pinned, ∃ b, (s'.cache.buf b).Is ROOTDEV blockno := by
  intro blockno hm
  obtain ⟨b, hb⟩ := hc blockno (hp blockno hm)
  exact ⟨b, (hs b).1.trans hb.1, (hs b).2.trans hb.2⟩

omit [DecidableEq κ] in
/-- Nobody uses a buffer whose count is 0. -/
theorem State.Ok.unused (hs : s.Ok) {b : Fin n} (hb : (s.cache.buf b).refcnt = 0) :
    s.waiters b + s.releasers b = 0 ∧ s.holders b = 0 ∧ s.pins b = 0 := by
  have := hs.count b
  unfold State.refs at this
  omega

/-- The count of `a` follows one process from one stage to another. -/
private theorem count_of_step {v : Stage n} {a : Fin n} {x : ℕ}
    (hc : (s.cache.buf a).refcnt = s.refs a) (hst : s'.stage = Function.update s.stage p v)
    (hh : s'.holders a = x) (hp : s'.pins a = s.pins a)
    (hr : (s'.cache.buf a).refcnt + (s.stage p).uses a + s.holders a
      = (s.cache.buf a).refcnt + v.uses a + x) :
    (s'.cache.buf a).refcnt = s'.refs a := by
  have hu := State.users_update hst a
  unfold State.refs at hc ⊢
  omega

/-- `bget` recycles a buffer for a block that is not cached. -/
private theorem recycle_ok {dev : BitVec 32} {blockno : BlockNo} {b : Fin n} (hs : s.Ok)
    (idle : s.stage p = .idle) (hm : s.cache.lookup dev blockno = none)
    (hb : s.cache.unused = some b)
    (hst : s' = { s with
      cache := s.cache.recycle b dev blockno
      stage := Function.update s.stage p (.waits b) }) : s'.Ok := by
  subst hst
  obtain ⟨⟨l, hl⟩, unique, nodup, cached, count⟩ := id hs
  have hb0 := hl.refcnt_of_unused hb
  have hm := hl.not_is_of_lookup hm
  obtain ⟨-, hh, hp⟩ := hs.unused hb0
  -- the block that `b` carried is not pinned, and neither is the one that it gets
  have hold : ∀ blockno' ∈ s.pinned, ¬ (s.cache.buf b).Is ROOTDEV blockno' := by
    rintro _ hmem ⟨hd, rfl⟩
    simp [State.pins, hd, hmem] at hp
  have hnew : ∀ a, ((s.cache.recycle b dev blockno).buf a).dev = ROOTDEV ∧
      ((s.cache.recycle b dev blockno).buf a).blockno ∈ s.pinned ↔
      (s.cache.buf a).dev = ROOTDEV ∧ (s.cache.buf a).blockno ∈ s.pinned := by
    intro a
    by_cases ha : a = b
    · subst ha
      rw [Cache.recycle, Cache.setBuf_self]
      constructor
      · rintro ⟨rfl, hmem⟩
        obtain ⟨b', hb'⟩ := cached _ hmem
        exact (hm b' hb').elim
      · rintro ⟨hd, hmem⟩
        exact (hold _ hmem ⟨hd, rfl⟩).elim
    · rw [Cache.recycle, Cache.setBuf_of_ne _ ha]
  refine ⟨⟨l, hl.of_links rfl⟩, unique.recycle hm, nodup, fun blockno' hmem => ?_, fun a => ?_⟩
  · obtain ⟨b', hb'⟩ := cached _ hmem
    have hne : b' ≠ b := by
      rintro rfl
      exact hold _ hmem hb'
    refine ⟨b', ?_⟩
    simp only [Cache.recycle, Cache.setBuf_of_ne _ hne]
    exact hb'
  · refine count_of_step (x := s.holders a) (count a) rfl rfl (if_congr (hnew a) rfl rfl) ?_
    rw [idle]
    by_cases ha : a = b
    · subst ha
      simp [Cache.recycle, hb0]
    · simp [Cache.recycle, Cache.setBuf_of_ne _ ha, Ne.symm ha]

theorem CacheStep.ok (hs : s.Ok) (t : CacheStep p s e s') : s'.Ok := by
  obtain ⟨⟨l, hl⟩, unique, nodup, cached, count⟩ := id hs
  cases t with
  | @hit _ _ b idle dev0 hb =>
    refine ⟨⟨l, hl.of_links rfl⟩, unique.of_same Cache.bpin_same, nodup,
      cached_of_same cached (fun _ => id) Cache.bpin_same, fun a => ?_⟩
    refine count_of_step (x := s.holders a) (count a) rfl rfl (State.pins_same rfl (Cache.bpin_same a)) ?_
    simp [idle, Cache.bpin_refcnt, eq_comm]
  | recycle idle dev0 hm hb => exact recycle_ok hs idle hm hb rfl
  | @acquire b waits free =>
    refine ⟨⟨l, hl⟩, unique, nodup, cached, fun a => ?_⟩
    refine count_of_step (count a) rfl (State.holders_update rfl a) rfl ?_
    by_cases ha : a = b
    · subst ha
      simp [waits, State.holders, free]
    · simp [waits, ha, Ne.symm ha]
  | @fill b mine =>
    have hsame := fun a => (⟨(Cache.fill_same a).1, (Cache.fill_same a).2.1⟩ :
      ((s.cache.fill b).buf a).dev = (s.cache.buf a).dev ∧
        ((s.cache.fill b).buf a).blockno = (s.cache.buf a).blockno)
    refine ⟨⟨l, hl.of_links rfl⟩, unique.of_same hsame, nodup,
      cached_of_same cached (fun _ => id) hsame, fun a => ?_⟩
    refine count_of_step (p := p) (x := s.holders a) (count a)
      (Function.update_eq_self p s.stage).symm rfl (State.pins_same rfl (hsame a)) ?_
    simp [Cache.fill_same]
  | @release b idle mine =>
    refine ⟨⟨l, hl⟩, unique, nodup, cached, fun a => ?_⟩
    refine count_of_step (count a) rfl (State.holders_update rfl a) rfl ?_
    by_cases ha : a = b
    · subst ha
      simp [idle, State.holders, mine]
    · simp [idle, ha, Ne.symm ha]
  | @brelse b releases =>
    have hsame : ∀ a, ((s.cache.brelse b).buf a).dev = (s.cache.buf a).dev ∧
        ((s.cache.brelse b).buf a).blockno = (s.cache.buf a).blockno := by
      intro a
      rw [Cache.brelse_buf]
      exact Cache.bunpin_same a
    refine ⟨hl.brelse, unique.of_same hsame, nodup, cached_of_same cached (fun _ => id) hsame,
      fun a => ?_⟩
    refine count_of_step (x := s.holders a) (count a) rfl rfl (State.pins_same rfl (hsame a)) ?_
    -- the process that gives up its reference is one of those counted
    have hpos : 0 < s.releasers b :=
      Finset.card_pos.2 ⟨p, Finset.mem_filter.2 ⟨Finset.mem_univ p, releases⟩⟩
    have hc := count b
    unfold State.refs at hc
    simp only [releases, Cache.brelse_buf, Cache.bunpin_refcnt, Stage.uses_releases,
      Stage.uses_idle, eq_comm (a := b)]
    by_cases ha : a = b
    · subst ha
      simp only [if_true]
      omega
    · simp only [if_neg ha]
      omega

omit [DecidableEq κ] in
/-- The count of `a` when no process moves. -/
private theorem count_of_quiet {a : Fin n} (hc : (s.cache.buf a).refcnt = s.refs a)
    (hst : s'.stage = s.stage) (hh : s'.locked = s.locked)
    (hr : (s'.cache.buf a).refcnt + s.pins a = (s.cache.buf a).refcnt + s'.pins a) :
    (s'.cache.buf a).refcnt = s'.refs a := by
  have hu := State.users_same hst a
  have hl : s'.holders a = s.holders a := by simp only [State.holders, hh]
  unfold State.refs at hc ⊢
  omega

omit [DecidableEq κ] in
theorem LogStep.ok (hs : s.Ok) (t : LogStep p s s') : s'.Ok := by
  obtain ⟨⟨l, hl⟩, unique, nodup, cached, count⟩ := id hs
  cases t with
  | absorb mine dev quiet hb => exact hs
  | @logWrite b mine dev quiet hb =>
    have hpin : s.pinned = s.lh := by
      rw [State.pinned, quiet]
      rfl
    refine ⟨⟨l, hl.of_links rfl⟩, unique.of_same Cache.bpin_same, ?_, fun blockno hm => ?_,
      fun a => ?_⟩
    · rw [List.nodup_append]
      refine ⟨nodup, List.nodup_singleton _, fun x hx y hy => ?_⟩
      rw [List.mem_singleton] at hy
      exact hy ▸ ne_of_mem_of_not_mem hx hb
    · simp only [State.pinned, quiet, Option.getD_none, List.drop_zero, List.mem_append,
        List.mem_singleton] at hm
      rcases hm with hm | rfl
      · obtain ⟨b', hb'⟩ := cached _ (hpin ▸ hm)
        exact ⟨b', (Cache.bpin_same b').1.trans hb'.1, (Cache.bpin_same b').2.trans hb'.2⟩
      · exact ⟨b, (Cache.bpin_same b).1.trans dev, (Cache.bpin_same b).2⟩
    · refine count_of_quiet (count a) rfl rfl ?_
      simp only [State.pins, State.pinned, Cache.bpin_refcnt, Cache.bpin_same, quiet,
        Option.getD_none, List.drop_zero, List.mem_append, List.mem_singleton]
      by_cases ha : a = b
      · subst ha
        simp [dev, hb]
      · -- another buffer does not carry the new block
        have hno : ¬ ((s.cache.buf a).dev = ROOTDEV ∧
            (s.cache.buf a).blockno = (s.cache.buf b).blockno) := by
          rintro ⟨hd, hn⟩
          refine ha (unique a b ?_ ⟨hd.trans dev.symm, hn⟩)
          rw [hd]
          decide
        simp only [ha, if_false, Nat.add_zero]
        congr 1
        refine if_congr ?_ rfl rfl
        tauto
  | install quiet =>
    have hpin : s.pinned = s.lh := by
      rw [State.pinned, quiet]
      rfl
    refine ⟨⟨l, hl⟩, unique, nodup, fun blockno hm => cached _ (hpin ▸ hm), fun a => ?_⟩
    refine count_of_quiet (count a) rfl rfl ?_
    refine congrArg ((s.cache.buf a).refcnt + ·) (Eq.symm ?_)
    exact State.pins_same hpin.symm ⟨rfl, rfl⟩
  | @bunpin b tail blockno ht hn mine hb =>
    obtain ⟨htl, hget⟩ := List.getElem?_eq_some_iff.1 hn
    have hpin : s.pinned = blockno :: s.lh.drop (tail + 1) := by
      rw [State.pinned, ht, Option.getD_some, List.drop_eq_getElem_cons htl, hget]
    have hnew : State.pinned { s with cache := s.cache.bunpin b, installed := some (tail + 1) }
        = s.lh.drop (tail + 1) := rfl
    have hno : blockno ∉ s.lh.drop (tail + 1) := by
      have hd : s.pinned.Nodup := nodup.sublist (List.drop_sublist _ _)
      rw [hpin] at hd
      exact (List.nodup_cons.1 hd).1
    refine ⟨⟨l, hl.of_links rfl⟩, unique.of_same Cache.bunpin_same, nodup,
      cached_of_same cached (fun x hx => ?_) Cache.bunpin_same, fun a => ?_⟩
    · rw [hnew] at hx
      rw [hpin]
      exact List.mem_cons_of_mem _ hx
    · refine count_of_quiet (count a) rfl rfl ?_
      simp only [State.pins, hnew, hpin, Cache.bunpin_refcnt, Cache.bunpin_same, List.mem_cons]
      by_cases ha : a = b
      · subst ha
        have hc := count a
        simp only [State.refs, State.pins, hpin, List.mem_cons, hb.1, hb.2, true_or, and_self,
          if_true] at hc
        simp only [hb.1, hb.2, hno, if_true, true_or, and_self, and_false, if_false]
        omega
      · -- another buffer does not carry the block
        have hne : ¬ ((s.cache.buf a).dev = ROOTDEV ∧ (s.cache.buf a).blockno = blockno) := by
          rintro ⟨hd, hn⟩
          refine ha (unique a b ?_ ⟨hd.trans hb.1.symm, hn.trans hb.2.symm⟩)
          rw [hd]
          decide
        simp only [ha, if_false, Nat.sub_zero]
        congr 1
        refine if_congr ?_ rfl rfl
        tauto
  | clear ht =>
    have hpin : s.pinned = [] := by
      rw [State.pinned, ht, Option.getD_some, List.drop_length]
    refine ⟨⟨l, hl⟩, unique, List.nodup_nil, fun blockno hm => (List.not_mem_nil hm).elim,
      fun a => ?_⟩
    refine count_of_quiet (count a) rfl rfl ?_
    refine congrArg ((s.cache.buf a).refcnt + ·) (Eq.symm ?_)
    exact State.pins_same hpin.symm ⟨rfl, rfl⟩

/-! ## The order of the list -/

/-- How many steps ago `brelse` last dropped the count of `b` to 0; the length of the history if
that never happened. -/
def age (h : List (Event n)) (b : Fin n) : ℕ := h.findIdx (· = .drop b)

/-- The list runs from the buffer given up last to those never given up. -/
def Sorted (h : List (Event n)) (l : List (Fin n)) : Prop :=
  l.Pairwise fun a b => age h a ≤ age h b

theorem age_cons (h : List (Event n)) (e : Event n) (b : Fin n) :
    age (e :: h) b = if e = .drop b then 0 else age h b + 1 := by
  simp only [age, List.findIdx_cons]
  by_cases he : e = .drop b
  · simp [he]
  · simp [he]

theorem Sorted.other {h : List (Event n)} {l : List (Fin n)} {e : Event n} (hl : Sorted h l)
    (he : ∀ b, e ≠ .drop b) : Sorted (e :: h) l := by
  refine hl.imp fun {a b} hab => ?_
  rw [age_cons, age_cons, if_neg (he a), if_neg (he b)]
  omega

theorem Sorted.drop {h : List (Event n)} {l : List (Fin n)} {b : Fin n} (hl : Sorted h l)
    (hd : l.Nodup) : Sorted (.drop b :: h) (b :: l.erase b) := by
  refine List.pairwise_cons.2 ⟨fun a _ => ?_, ?_⟩
  · rw [age_cons, if_pos rfl]
    exact Nat.zero_le _
  · refine (hl.sublist List.erase_sublist).imp_of_mem fun {x y} hx hy hxy => ?_
    have hne : ∀ z ∈ l.erase b, (Event.drop b : Event n) ≠ .drop z := by
      rintro z hz he
      exact ((hd.mem_erase_iff).1 hz).1 (Event.drop.inj he).symm
    rw [age_cons, age_cons, if_neg (hne x hx), if_neg (hne y hy)]
    omega

omit [Fintype κ] in
theorem CacheStep.sorted {h : List (Event n)} {l : List (Fin n)} (hl : s.cache.Listed l)
    (ho : Sorted h l) (t : CacheStep p s e s') :
    ∃ l', s'.cache.Listed l' ∧ Sorted (e :: h) l' := by
  cases t with
  | hit idle dev0 hb => exact ⟨l, hl.of_links rfl, ho.other (by simp)⟩
  | recycle idle dev0 hm hb => exact ⟨l, hl.of_links rfl, ho.other (by simp)⟩
  | acquire waits free => exact ⟨l, hl, ho.other (by simp)⟩
  | fill mine => exact ⟨l, hl.of_links rfl, ho.other (by simp)⟩
  | release idle mine => exact ⟨l, hl, ho.other (by simp)⟩
  | @brelse b releases =>
    by_cases hb : ((s.cache.bunpin b).buf b).refcnt = 0
    · rw [if_pos hb]
      exact ⟨_, hl.brelse_drop hb, ho.drop hl.nodup⟩
    · rw [if_neg hb]
      exact ⟨l, hl.brelse_keep hb, ho.other (by simp)⟩

omit [DecidableEq κ] [Fintype κ] in
/-- `log.c` does not touch the list. -/
theorem LogStep.links (t : LogStep p s s') : s'.cache.links = s.cache.links := by
  cases t <;> rfl

/-! ## The theorem -/

/-- The representation of the buffer cache, after a run with the history `h`. -/
structure Represented (h : List (Event n)) (s : State κ n) : Prop where
  /-- The list from the head via `next` is a permutation of the buffers. -/
  list : ∃ l : List (Fin n), l.Perm (List.finRange n) ∧ s.cache.links.Circle none (l.map some)
  /-- `prev` is the exact inverse of `next`. -/
  inverse : ∀ x, s.cache.links.prev (s.cache.links.next x) = x ∧
    s.cache.links.next (s.cache.links.prev x) = x
  /-- At most one buffer carries a given block. -/
  unique : ∀ a b, (s.cache.buf a).dev ≠ 0 →
    (s.cache.buf a).Is (s.cache.buf b).dev (s.cache.buf b).blockno → a = b
  /-- The reference count of a buffer. -/
  refcnt : ∀ b, (s.cache.buf b).refcnt = s.holders b + s.waiters b + s.releasers b + s.pins b
  /-- `bget` recycles the unused buffer that was given up longest ago. -/
  recycle : ∀ b s', (bcache κ n).step s (.recycle b) s' → (s.cache.buf b).refcnt = 0 ∧
    ∀ a, (s.cache.buf a).refcnt = 0 → age h a ≤ age h b

omit [DecidableEq κ] in
theorem State.boot_ok : (State.boot κ n).Ok where
  listed := ⟨_, Cache.listed_init⟩
  unique := fun _ _ h0 => (h0 rfl).elim
  nodup := List.nodup_nil
  cached := fun _ hm => (List.not_mem_nil hm).elim
  count := fun b => by
    simp [State.refs, State.waiters, State.releasers, State.holders, State.pins, State.pinned,
      State.boot, Cache.init]

theorem ok_of_run {h : List (Event n)} (r : (bcache κ n).Run h s) :
    s.Ok ∧ ∃ l, s.cache.Listed l ∧ Sorted h l := by
  induction r with
  | init hs =>
    subst hs
    refine ⟨State.boot_ok, _, Cache.listed_init, ?_⟩
    exact List.pairwise_of_forall fun _ _ => le_rfl
  | step r t ih =>
    obtain ⟨hs, l, hl, ho⟩ := ih
    obtain ⟨p, t | ⟨rfl, t⟩⟩ := t
    · exact ⟨t.ok hs, t.sorted hl ho⟩
    · exact ⟨t.ok hs, l, hl.of_links t.links, ho.other (by simp)⟩

/-- **The buffer cache.** In every state of a run the list is a permutation of the buffers with
`prev` the inverse of `next`, a block is in at most one buffer, the count of a buffer is the
number of processes that hold it, wait for it or are still giving it up, plus its log pins, and
`bget` recycles in LRU order. -/
theorem represented {h : List (Event n)} (r : (bcache κ n).Run h s) : Represented h s := by
  obtain ⟨hs, l, hl, ho⟩ := ok_of_run r
  have hall : ∀ x : Node n, x ∈ none :: l.map some := by
    rintro (_ | b)
    · exact List.mem_cons_self
    · exact List.mem_cons_of_mem _ (List.mem_map_of_mem (hl.mem b))
  refine ⟨⟨l, hl.perm, hl.circle⟩, fun x => ?_, hs.unique, fun b => ?_, ?_⟩
  · exact ⟨hl.circle.prev_next x (hall x), hl.circle.next_prev x (hall x)⟩
  · have := hs.count b
    unfold State.refs at this
    omega
  · rintro b s' ⟨p, t | ⟨he, -⟩⟩
    · generalize he : Event.recycle b = e at t
      cases t with
      | recycle idle dev0 hm hb =>
        cases he
        refine ⟨hl.refcnt_of_unused hb, fun a ha => ?_⟩
        rcases hl.unused_last ho hb ha with rfl | hab
        · exact le_rfl
        · exact hab
      | brelse releases => split at he <;> cases he
      | _ => cases he
    · cases he

/-- One process reads a block and gives it up again, as far as the release of the sleeplock. -/
theorem releasing_run : ∃ s : State (Fin 1) NBUF,
    (bcache (Fin 1) NBUF).Run [.other, .other, .recycle 0] s ∧ (s.cache.buf 0).refcnt = 1 ∧
      s.stage = (fun _ => .releases 0) ∧ s.locked 0 = none ∧ s.lh = [] := by
  have hlist : (Cache.init : Cache NBUF).Listed (List.finRange NBUF).reverse := Cache.listed_init
  have hm : (Cache.init : Cache NBUF).lookup ROOTDEV 0 = none := by
    rw [hlist.lookup_eq, List.find?_eq_none]
    intro b _
    simp [Cache.init, Buf.Is, ROOTDEV]
  have hb : (Cache.init : Cache NBUF).unused = some 0 := by
    rw [hlist.unused_eq, List.reverse_reverse]
    rfl
  have r₀ : (bcache (Fin 1) NBUF).Run [] (State.boot (Fin 1) NBUF) := .init rfl
  have r₁ := r₀.step ⟨0, .inl (.recycle (s := State.boot (Fin 1) NBUF) rfl (by decide) hm hb)⟩
  have r₂ := r₁.step ⟨0, .inl (.acquire (b := 0) rfl rfl)⟩
  have r₃ := r₂.step ⟨0, .inl (.release (b := 0) rfl rfl)⟩
  refine ⟨_, r₃, rfl, ?_, rfl, rfl⟩
  funext p
  rw [Subsingleton.elim p 0]
  rfl

/-- The representation after such a run. -/
theorem represented_releasing :
    ∃ s, Represented (κ := Fin 1) (n := NBUF) [.other, .other, .recycle 0] s := by
  obtain ⟨s, r, -⟩ := releasing_run
  exact ⟨s, represented r⟩

/-- While a process gives up a buffer, its reference counts although the process neither holds
the sleeplock nor waits for it. -/
theorem refcnt_ne : ¬ ∀ (h : List (Event NBUF)) (s : State (Fin 1) NBUF),
    (bcache (Fin 1) NBUF).Run h s →
      ∀ b, (s.cache.buf b).refcnt = s.holders b + s.waiters b + s.pins b := by
  intro hall
  obtain ⟨s, r, hr, hst, hl, hlh⟩ := releasing_run
  have := hall _ s r 0
  simp [hr, State.holders, State.waiters, State.pins, State.pinned, hst, hl, hlh] at this

end Xv6.Bcache
