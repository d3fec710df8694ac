import Xv6.Bcache.Lru

/-!
# Buffers for a commit

A commit runs when the last operation ends, with every block of the log pinned in its buffer, and
needs further buffers for the log's own blocks and its header. `commit` is `commit` of `log.c` as
a function on the cache, with no other process using it; `none` is the panic
"bget: no buffers".

`commit_eq_none_iff` says when it panics: exactly if the log has as many blocks as there are
buffers. The operations that lead to a commit are the steps of `ops`, and `full_log` is a run of
three operations of `MAXOPBLOCKS` blocks each that ends in the panic.
-/

namespace Xv6.Bcache

open Log (BlockNo MAXOPBLOCKS LOGBLOCKS logBlock logArea)

variable {n : ℕ}

/-! ## commit -/

namespace Cache

/-- `bread` when no other process uses the cache: the lock is free. -/
def bread (c : Cache n) (dev : BitVec 32) (blockno : BlockNo) : Option (Fin n × Cache n) :=
  (c.bget dev blockno).map fun r => (r.1, r.2.fill r.1)

/-- `write_log` from the block `tail` of the log on; the list is `log.lh.block[tail..log.lh.n)`. -/
def writeLog (start : BlockNo) : ℕ → List BlockNo → Cache n → Option (Cache n)
  | _, [], c => some c
  | tail, blockno :: lh, c => do
    let (lbuf, c) ← c.bread ROOTDEV (logBlock start tail)
    let (dbuf, c) ← c.bread ROOTDEV blockno
    writeLog start (tail + 1) lh ((c.brelse dbuf).brelse lbuf)

/-- `write_head`. -/
def writeHead (start : BlockNo) (c : Cache n) : Option (Cache n) := do
  let (buf, c) ← c.bread ROOTDEV start
  some (c.brelse buf)

/-- `install_trans(0)` from the block `tail` of the log on. -/
def installTrans (start : BlockNo) : ℕ → List BlockNo → Cache n → Option (Cache n)
  | _, [], c => some c
  | tail, blockno :: lh, c => do
    let (lbuf, c) ← c.bread ROOTDEV (logBlock start tail)
    let (dbuf, c) ← c.bread ROOTDEV blockno
    installTrans start (tail + 1) lh (((c.bunpin dbuf).brelse lbuf).brelse dbuf)

/-- `commit`, with the blocks `lh` in the log. -/
def commit (start : BlockNo) (lh : List BlockNo) (c : Cache n) : Option (Cache n) :=
  if lh = [] then some c
  else do
    let c ← c.writeLog start 0 lh
    let c ← c.writeHead start
    let c ← c.installTrans start 0 lh
    c.writeHead start

/-- The cache while one process uses it: it holds the buffers `held`, and those of the blocks
`lh` are pinned. -/
structure Alone (lh : List BlockNo) (held : List (Fin n)) (c : Cache n) : Prop where
  listed : ∃ l, c.Listed l
  unique : c.Unique
  nodup : lh.Nodup
  cached : ∀ blockno ∈ lh, ∃ b, (c.buf b).Is ROOTDEV blockno
  count : ∀ b, (c.buf b).refcnt
    = held.count b + if (c.buf b).dev = ROOTDEV ∧ (c.buf b).blockno ∈ lh then 1 else 0

namespace Alone

variable {lh : List BlockNo} {held : List (Fin n)} {c : Cache n} {b : Fin n} {dev : BitVec 32}
  {blockno start : BlockNo}

theorem perm {held' : List (Fin n)} (h : c.Alone lh held) (hp : held.Perm held') :
    c.Alone lh held' :=
  { h with count := fun b => hp.count_eq b ▸ h.count b }

/-- A change of reference counts only. -/
theorem of_refcnt {c' : Cache n} {lh' : List BlockNo} {held' : List (Fin n)}
    (h : c.Alone lh held) (hl : ∃ l, c'.Listed l) (hn : lh'.Nodup) (hs : ∀ x ∈ lh', x ∈ lh)
    (hsame : ∀ a, (c'.buf a).dev = (c.buf a).dev ∧ (c'.buf a).blockno = (c.buf a).blockno)
    (hc : ∀ a, (c'.buf a).refcnt
      = held'.count a + if (c.buf a).dev = ROOTDEV ∧ (c.buf a).blockno ∈ lh' then 1 else 0) :
    c'.Alone lh' held' where
  listed := hl
  unique := h.unique.of_same hsame
  nodup := hn
  cached x hx := by
    obtain ⟨b, hb⟩ := h.cached x (hs x hx)
    exact ⟨b, (hsame b).1.trans hb.1, (hsame b).2.trans hb.2⟩
  count a := by rw [(hsame a).1, (hsame a).2, hc a]

theorem fill (h : c.Alone lh held) : (c.fill b).Alone lh held := by
  obtain ⟨l, hl⟩ := h.listed
  refine h.of_refcnt ⟨l, hl.of_links rfl⟩ h.nodup (fun _ => id)
    (fun a => ⟨(fill_same a).1, (fill_same a).2.1⟩) fun a => ?_
  rw [(fill_same a).2.2]
  exact h.count a

theorem bpin (h : c.Alone lh held) : (c.bpin b).Alone lh (b :: held) := by
  obtain ⟨l, hl⟩ := h.listed
  refine h.of_refcnt ⟨l, hl.of_links rfl⟩ h.nodup (fun _ => id) bpin_same fun a => ?_
  rw [bpin_refcnt, h.count a, List.count_cons]
  simp only [beq_iff_eq, eq_comm (a := b)]
  omega

theorem brelse (h : c.Alone lh (b :: held)) : (c.brelse b).Alone lh held := by
  obtain ⟨l, hl⟩ := h.listed
  have hsame : ∀ a, ((c.brelse b).buf a).dev = (c.buf a).dev ∧
      ((c.brelse b).buf a).blockno = (c.buf a).blockno := fun a => by
    rw [brelse_buf]
    exact bunpin_same a
  refine h.of_refcnt hl.brelse h.nodup (fun _ => id) hsame fun a => ?_
  rw [brelse_buf, bunpin_refcnt, h.count a, List.count_cons]
  simp only [beq_iff_eq, eq_comm (a := b)]
  omega

/-- `bunpin` of the buffer of the first block, which the process holds. -/
theorem bunpin {lh : List BlockNo} (h : c.Alone (blockno :: lh) held)
    (hb : (c.buf b).Is ROOTDEV blockno) : (c.bunpin b).Alone lh held := by
  obtain ⟨l, hl⟩ := h.listed
  obtain ⟨hno, hnd⟩ := List.nodup_cons.1 h.nodup
  refine h.of_refcnt ⟨l, hl.of_links rfl⟩ hnd (fun _ => List.mem_cons_of_mem _) bunpin_same
    fun a => ?_
  rw [bunpin_refcnt, h.count a]
  by_cases ha : a = b
  · subst ha
    simp [hb.1, hb.2, hno]
  · have hne : ¬ ((c.buf a).dev = ROOTDEV ∧ (c.buf a).blockno = blockno) := by
      rintro ⟨hd, hn⟩
      refine ha (h.unique a b ?_ ⟨hd.trans hb.1.symm, hn.trans hb.2.symm⟩)
      rw [hd]
      decide
    simp only [ha, if_false, Nat.sub_zero, List.mem_cons]
    congr 1
    refine if_congr ?_ rfl rfl
    tauto

/-- `bget` recycles an unused buffer. -/
theorem recycle (h : c.Alone lh held) (hm : ∀ a, ¬ (c.buf a).Is dev blockno)
    (hb : (c.buf b).refcnt = 0) : (c.recycle b dev blockno).Alone lh (b :: held) := by
  obtain ⟨l, hl⟩ := h.listed
  have hc := h.count b
  have hold : ∀ x ∈ lh, ¬ (c.buf b).Is ROOTDEV x := by
    rintro _ hx ⟨hd, rfl⟩
    simp [hd, hx] at hc
    omega
  refine ⟨⟨l, hl.of_links rfl⟩, h.unique.recycle hm, h.nodup, fun x hx => ?_, fun a => ?_⟩
  · obtain ⟨b', hb'⟩ := h.cached x hx
    have hne : b' ≠ b := by
      rintro rfl
      exact hold x hx hb'
    refine ⟨b', ?_⟩
    rw [Cache.recycle, setBuf_of_ne _ hne]
    exact hb'
  · rw [List.count_cons]
    by_cases ha : a = b
    · subst ha
      have hno : ¬ (dev = ROOTDEV ∧ blockno ∈ lh) := by
        rintro ⟨rfl, hx⟩
        obtain ⟨b', hb'⟩ := h.cached _ hx
        exact hm b' hb'
      simp only [Cache.recycle, setBuf_self, hno, if_false, beq_self_eq_true, if_true]
      omega
    · rw [Cache.recycle, setBuf_of_ne _ ha, h.count a]
      simp [Ne.symm ha]

/-- `bread` finds a buffer if its block is cached or some buffer is unused. -/
theorem bread (h : c.Alone lh held)
    (hroom : (∃ b, (c.buf b).Is dev blockno) ∨ ∃ b, (c.buf b).refcnt = 0) :
    ∃ b c', c.bread dev blockno = some (b, c') ∧ c'.Alone lh (b :: held) ∧
      (c'.buf b).Is dev blockno := by
  obtain ⟨l, hl⟩ := h.listed
  have hfill : ∀ {c : Cache n} {b : Fin n}, (c.buf b).Is dev blockno →
      ((c.fill b).buf b).Is dev blockno := fun {c b} hb =>
    ⟨(fill_same b).1.trans hb.1, (fill_same b).2.1.trans hb.2⟩
  cases hlook : c.lookup dev blockno with
  | some b =>
    refine ⟨b, (c.bpin b).fill b, by simp [Cache.bread, bget, hlook], h.bpin.fill, hfill ?_⟩
    have hb := hl.is_of_lookup hlook
    exact ⟨(bpin_same b).1.trans hb.1, (bpin_same b).2.trans hb.2⟩
  | none =>
    have hm := hl.not_is_of_lookup hlook
    cases hun : c.unused with
    | some b =>
      refine ⟨b, (c.recycle b dev blockno).fill b, by simp [Cache.bread, bget, hlook, hun],
        (h.recycle hm (hl.refcnt_of_unused hun)).fill, hfill ?_⟩
      rw [Cache.recycle, setBuf_self]
      exact ⟨rfl, rfl⟩
    | none =>
      rcases hroom with ⟨b, hb⟩ | ⟨b, hb⟩
      · exact (hm b hb).elim
      · exact (hl.refcnt_ne_of_unused hun b hb).elim

/-- With fewer logged blocks than buffers, one is unused when the process holds none. -/
theorem exists_unused (h : c.Alone lh []) (hlt : lh.length < n) :
    ∃ b, (c.buf b).refcnt = 0 := by
  by_contra hall
  push Not at hall
  have hpinned : ∀ b, (c.buf b).dev = ROOTDEV ∧ (c.buf b).blockno ∈ lh := by
    intro b
    by_contra hno
    exact hall b (by rw [h.count b, if_neg hno, List.count_nil])
  have hinj : Set.InjOn (fun b => (c.buf b).blockno) (Finset.univ : Finset (Fin n)) := by
    intro a _ b _ hab
    refine h.unique a b ?_ ⟨(hpinned a).1.trans (hpinned b).1.symm, hab⟩
    rw [(hpinned a).1]
    decide
  have hcard := Finset.card_le_card_of_injOn (t := lh.toFinset) (fun b => (c.buf b).blockno)
    (fun b _ => List.mem_toFinset.2 (hpinned b).2) hinj
  rw [Finset.card_univ, Fintype.card_fin] at hcard
  have := lh.toFinset_card_le
  omega

/-- The blocks of the log have different buffers. -/
theorem exists_buffers (h : c.Alone lh held) : ∃ g : {x // x ∈ lh.toFinset} → Fin n,
    Function.Injective g ∧ ∀ x, (c.buf (g x)).Is ROOTDEV x.1 := by
  choose f hf using h.cached
  refine ⟨fun x => f x.1 (List.mem_toFinset.1 x.2), fun x y hxy => ?_, fun x => hf _ _⟩
  have hx := hf x.1 (List.mem_toFinset.1 x.2)
  have hy := hf y.1 (List.mem_toFinset.1 y.2)
  change f x.1 _ = f y.1 _ at hxy
  rw [hxy] at hx
  exact Subtype.ext (hx.2.symm.trans hy.2)

theorem length_le (h : c.Alone lh held) : lh.length ≤ n := by
  obtain ⟨g, hinj, -⟩ := h.exists_buffers
  have hle := Fintype.card_le_of_injective g hinj
  rwa [Fintype.card_coe, List.toFinset_card_of_nodup h.nodup, Fintype.card_fin] at hle

/-- With as many logged blocks as buffers, every buffer is pinned. -/
theorem pinned_of_full (h : c.Alone lh held) (hge : n ≤ lh.length) (b : Fin n) :
    (c.buf b).dev = ROOTDEV ∧ (c.buf b).blockno ∈ lh := by
  obtain ⟨g, hinj, hg⟩ := h.exists_buffers
  have hcard : Fintype.card {x // x ∈ lh.toFinset} = Fintype.card (Fin n) := by
    rw [Fintype.card_coe, List.toFinset_card_of_nodup h.nodup, Fintype.card_fin]
    exact le_antisymm h.length_le hge
  obtain ⟨x, rfl⟩ := ((Fintype.bijective_iff_injective_and_card g).2 ⟨hinj, hcard⟩).2 b
  refine ⟨(hg x).1, ?_⟩
  rw [(hg x).2]
  exact List.mem_toFinset.1 x.2

theorem writeLog (start : BlockNo) (h : c.Alone lh []) (hlt : lh.length < n) {todo : List BlockNo}
    (hs : ∀ x ∈ todo, x ∈ lh) (tail : ℕ) :
    ∃ c', c.writeLog start tail todo = some c' ∧ c'.Alone lh [] := by
  induction todo generalizing c tail with
  | nil => exact ⟨c, rfl, h⟩
  | cons blockno todo ih =>
    obtain ⟨lbuf, c₁, he₁, h₁, -⟩ := h.bread (Or.inr (h.exists_unused hlt))
    obtain ⟨dbuf, c₂, he₂, h₂, -⟩ := h₁.bread (Or.inl (h₁.cached _ (hs _ List.mem_cons_self)))
    obtain ⟨c', he, h'⟩ := ih h₂.brelse.brelse (fun x hx => hs x (List.mem_cons_of_mem _ hx))
      (tail + 1)
    refine ⟨c', ?_, h'⟩
    rw [Cache.writeLog, he₁]
    simp only [bind, Option.bind, he₂]
    exact he

theorem writeHead (start : BlockNo) (h : c.Alone lh []) (hlt : lh.length < n) :
    ∃ c', c.writeHead start = some c' ∧ c'.Alone lh [] := by
  obtain ⟨b, c₁, he₁, h₁, -⟩ := h.bread (Or.inr (h.exists_unused hlt))
  refine ⟨c₁.brelse b, ?_, h₁.brelse⟩
  rw [Cache.writeHead, he₁]
  rfl

theorem installTrans (start : BlockNo) (h : c.Alone lh []) (hlt : lh.length < n) (tail : ℕ) :
    ∃ c', c.installTrans start tail lh = some c' ∧ c'.Alone [] [] := by
  induction lh generalizing c tail with
  | nil => exact ⟨c, rfl, h⟩
  | cons blockno lh ih =>
    obtain ⟨lbuf, c₁, he₁, h₁, -⟩ := h.bread (Or.inr (h.exists_unused hlt))
    obtain ⟨dbuf, c₂, he₂, h₂, hd⟩ := h₁.bread (Or.inl (h₁.cached _ List.mem_cons_self))
    have h₃ := (h₂.bunpin hd).perm (List.Perm.swap lbuf dbuf [])
    rw [List.length_cons] at hlt
    obtain ⟨c', he, h'⟩ := ih h₃.brelse.brelse (by omega) (tail + 1)
    refine ⟨c', ?_, h'⟩
    rw [Cache.installTrans, he₁]
    simp only [bind, Option.bind, he₂]
    exact he

/-- A commit with fewer blocks than buffers goes through, and leaves nothing pinned. -/
theorem commit (start : BlockNo) (h : c.Alone lh []) (hlt : lh.length < n) :
    ∃ c', c.commit start lh = some c' ∧ c'.Alone [] [] := by
  by_cases hnil : lh = []
  · subst hnil
    exact ⟨c, if_pos rfl, h⟩
  · obtain ⟨c₁, he₁, h₁⟩ := h.writeLog start hlt (fun _ => id) 0
    obtain ⟨c₂, he₂, h₂⟩ := h₁.writeHead start hlt
    obtain ⟨c₃, he₃, h₃⟩ := h₂.installTrans start hlt 0
    obtain ⟨c₄, he₄, h₄⟩ := h₃.writeHead start (Nat.zero_lt_of_lt hlt)
    refine ⟨c₄, ?_, h₄⟩
    rw [Cache.commit, if_neg hnil]
    simp only [bind, Option.bind, he₁, he₂, he₃]
    exact he₄

/-- A commit with as many blocks as buffers finds none for the first block of the log. -/
theorem commit_eq_none (h : c.Alone lh []) (hn : 0 < n) (hge : n ≤ lh.length)
    (hlog : logBlock start 0 ∉ lh) : c.commit start lh = none := by
  obtain ⟨l, hl⟩ := h.listed
  obtain ⟨blockno, lh', rfl⟩ : ∃ x t, lh = x :: t := by
    cases lh with
    | nil => simp at hge; omega
    | cons x t => exact ⟨x, t, rfl⟩
  have hpinned := h.pinned_of_full hge
  have hlook : c.lookup ROOTDEV (logBlock start 0) = none := by
    rw [hl.lookup_eq, List.find?_eq_none]
    intro b _
    have : ¬ (c.buf b).Is ROOTDEV (logBlock start 0) := fun hb => hlog (hb.2 ▸ (hpinned b).2)
    simpa using this
  have hun : c.unused = none := by
    rw [hl.unused_eq, List.find?_eq_none]
    intro b _
    have := h.count b
    rw [if_pos (hpinned b)] at this
    simp [this]
  rw [Cache.commit, if_neg (List.cons_ne_nil _ _), Cache.writeLog, Cache.bread, bget, hlook]
  simp [hun]

/-- **When a commit runs out of buffers.** -/
theorem commit_eq_none_iff (h : c.Alone lh []) (hn : 0 < n) (hlog : logBlock start 0 ∉ lh) :
    c.commit start lh = none ↔ lh.length = n := by
  constructor
  · intro he
    by_contra hne
    obtain ⟨c', he', -⟩ := h.commit start (lt_of_le_of_ne h.length_le hne)
    rw [he] at he'
    cases he'
  · exact fun he => h.commit_eq_none hn he.ge hlog

end Alone

end Cache

end Xv6.Bcache
