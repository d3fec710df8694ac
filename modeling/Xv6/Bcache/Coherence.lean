import Xv6.Bcache.Lru
import Xv6.Foundations.Registers

/-!
# The contents of the buffer cache

The buffer cache of `Bcache.Defs` with what it is there for: the data of the buffers, and the disk.
All callers pass `ROOTDEV`, the only device of `virtio_disk.c`. A process reads and changes the data
of a buffer between `bread` and `brelse`, and before `brelse` it is to write them to the disk with
`bwrite` or to leave them to the log, which pins the buffer until it has installed the block.
`brelse` does not look whether it has (`stores`), so this is a condition on the runs
(`savingStores`): a `writei` whose `copyin` fails within a block does not meet it.

The list, the sleeplocks and the reference counts disappear in `Store.abs`: what remains is
`Log.Bio`, the cache that the log is verified on (`StoreStep.sound`). There a block has contents,
whether it is cached or not, and they change only when a process writes them.
-/

namespace Xv6.Bcache

open Log (BlockNo Block Bio)

variable {κ : Type} {n : ℕ}

/-- The cache with the data of its buffers, and the disk. -/
structure Store (κ : Type) (n : ℕ) extends State κ n where
  data : Fin n → Block
  disk : BlockNo → Block

namespace Store

variable (s : Store κ n) (b : Fin n)

/-- The number of the block in `b`. -/
def blockno : BlockNo := (s.cache.buf b).blockno

/-- The data of a valid buffer. -/
def copy : Option Block := if (s.cache.buf b).valid then some (s.data b) else none

/-- The rest of `bread`, with the sleeplock of `b`: `virtio_disk_rw(b, 0)` unless `b` is valid. -/
def bread : Store κ n :=
  { s with
    cache := s.cache.fill b
    data := Function.update s.data b ((s.copy b).getD (s.disk (s.blockno b))) }

/-- `bwrite`: `virtio_disk_rw(b, 1)`. -/
def bwrite : Store κ n := { s with disk := Function.update s.disk (s.blockno b) (s.data b) }

/-- The data of `b` change. -/
def write (d : Block) : Store κ n := { s with data := Function.update s.data b d }

/-- The buffer is on the disk as it is, or left to the log. -/
def Saved : Prop :=
  ∀ d, s.copy b = some d → d = s.disk (s.blockno b) ∨ s.blockno b ∈ s.pinned

/-- No buffer that a step from `s` to `s'` releases has changes that would be lost. -/
def Saves (s' : Store κ n) : Prop := ∀ b, s.locked b ≠ none → s'.locked b = none → s.Saved b

end Store

/-- The steps of the process `p`. -/
inductive StoreStep [DecidableEq κ] (p : κ) : Store κ n → Access BlockNo Block → Store κ n → Prop
  /-- `bget` up to the sleeplock. -/
  | bget {s : Store κ n} {blockno : BlockNo} {b : Fin n} {c : Cache n} (idle : s.stage p = .idle)
      (hb : s.cache.bget ROOTDEV blockno = some (b, c)) :
      StoreStep p s .tau { s with cache := c, stage := Function.update s.stage p (.waits b) }
  /-- `bget` gets the sleeplock. -/
  | acquiresleep {s : Store κ n} {b : Fin n} (waits : s.stage p = .waits b)
      (free : s.locked b = none) :
      StoreStep p s .tau
        { s with
          locked := Function.update s.locked b (some p)
          stage := Function.update s.stage p .idle }
  /-- `bread` returns, and the process reads the data. -/
  | bread {s : Store κ n} {b : Fin n} (mine : s.locked b = some p) :
      StoreStep p s (.read (s.blockno b) ((s.bread b).data b)) (s.bread b)
  /-- The process changes the data. -/
  | write {s : Store κ n} {b : Fin n} {d : Block} (mine : s.locked b = some p)
      (valid : (s.cache.buf b).valid = true) :
      StoreStep p s (.write (s.blockno b) d) (s.write b d)
  /-- `bwrite` -/
  | bwrite {s : Store κ n} {b : Fin n} (mine : s.locked b = some p)
      (valid : (s.cache.buf b).valid = true) : StoreStep p s .tau (s.bwrite b)
  /-- `brelse` releases the sleeplock. -/
  | releasesleep {s : Store κ n} {b : Fin n} (idle : s.stage p = .idle)
      (mine : s.locked b = some p) :
      StoreStep p s .tau
        { s with
          locked := Function.update s.locked b none
          stage := Function.update s.stage p (.releases b) }
  /-- `brelse` gives up the reference. -/
  | brelse {s : Store κ n} {b : Fin n} (releases : s.stage p = .releases b) :
      StoreStep p s .tau
        { s with cache := s.cache.brelse b, stage := Function.update s.stage p .idle }
  /-- `log.c` pins buffers, and unpins them. -/
  | log {s : Store κ n} {base : State κ n} (t : LogStep p s.toState base) :
      StoreStep p s .tau { s with toState := base }

/-- The cache from `binit` on, over a disk with the contents `disk`. -/
def stores (κ : Type) [DecidableEq κ] (n : ℕ) (disk : BlockNo → Block) :
    LTS (Store κ n) (Access BlockNo Block) where
  init s := s.toState = State.boot κ n ∧ s.disk = disk
  step s e s' := ∃ p, StoreStep p s e s'

/-- The runs in which every process saves what it has changed before it releases the buffer. -/
def savingStores (κ : Type) [DecidableEq κ] (n : ℕ) (disk : BlockNo → Block) :
    LTS (Store κ n) (Access BlockNo Block) where
  init := (stores κ n disk).init
  step s e s' := (stores κ n disk).step s e s' ∧ s.Saves s'

/-! ## The abstract cache -/

attribute [ext] Bio

/-- The steps of the cache that the log uses. A buffer that is recycled is not pinned, and it is on
the disk as it is. -/
inductive BioStep : Bio → Access BlockNo Block → Bio → Prop
  | stay (s : Bio) : BioStep s .tau s
  | bread (s : Bio) (b : BlockNo) : BioStep s (.read b (s.data b)) (s.bread b)
  | modify (s : Bio) (b : BlockNo) (d : Block) : BioStep s (.write b d) (s.modify b d)
  | bwrite (s : Bio) (b : BlockNo) : BioStep s .tau (s.bwrite b (s.data b))
  | bpin (s : Bio) (b : BlockNo) : BioStep s .tau (s.bpin b)
  | bunpin (s : Bio) (b : BlockNo) : BioStep s .tau (s.bunpin b)
  | recycle {s : Bio} {b : BlockNo} (unused : s.refcnt b = 0) (clean : s.data b = s.disk b) :
      BioStep s .tau (s.recycle b)

/-- The empty abstract cache over a disk. -/
def bios (disk : BlockNo → Block) : LTS Bio (Access BlockNo Block) where
  init s := s = { disk := disk, cache := fun _ => none, refcnt := fun _ => 0 }
  step := BioStep

/-- Only writes change the contents of a block. -/
theorem BioStep.turns {s s' : Bio} {e : Access BlockNo Block} (t : BioStep s e s') :
    e.Turns s.data s'.data := by
  cases t with
  | stay => rfl
  | bread b => exact ⟨rfl, funext fun _ => Bio.bread_data⟩
  | modify b d =>
    funext b'
    rw [Bio.modify_data, Function.update_apply]
  | bwrite b =>
    funext b'
    rw [Bio.bwrite_data]
    split
    · rename_i h
      rw [h]
    · rfl
  | bpin b => rfl
  | bunpin b => rfl
  | @recycle b unused clean =>
    funext b'
    by_cases h : b' = b
    · rw [h, Bio.recycle_data_self, clean]
    · exact Bio.recycle_data h

namespace Store

variable {s s' : Store κ n} {b : Fin n} {blockno : BlockNo}

/-! ## What a store stands for -/

/-- The cache without its list: the valid buffer of each block, and its log pins. -/
def abs (s : Store κ n) : Bio where
  disk := s.disk
  cache blockno := (s.cache.lookup ROOTDEV blockno).bind s.copy
  refcnt blockno := if blockno ∈ s.pinned then 1 else 0

theorem abs_refcnt_congr (hpin : s'.pinned = s.pinned) : s'.abs.refcnt = s.abs.refcnt := by
  simp only [abs, hpin]

/-- The buffers carry the same blocks, with the same data. -/
structure Same (s s' : Store κ n) : Prop where
  dev : ∀ a, (s'.cache.buf a).dev = (s.cache.buf a).dev
  blockno : ∀ a, s'.blockno a = s.blockno a
  copy : ∀ a, s'.copy a = s.copy a
  disk : s'.disk = s.disk

namespace Same

/-- Reference counts may change. -/
theorem of_setBuf {x : Buf} (hc : s'.cache.buf = (s.cache.setBuf b x).buf)
    (hx : x.dev = (s.cache.buf b).dev ∧ x.blockno = (s.cache.buf b).blockno ∧
      x.valid = (s.cache.buf b).valid) (hdata : s'.data = s.data) (hdisk : s'.disk = s.disk) :
    Same s s' := by
  have hsame : ∀ a, (s'.cache.buf a).dev = (s.cache.buf a).dev ∧
      (s'.cache.buf a).blockno = (s.cache.buf a).blockno ∧
      (s'.cache.buf a).valid = (s.cache.buf a).valid := by
    intro a
    rw [hc]
    by_cases ha : a = b
    · rw [ha, Cache.setBuf_self]
      exact hx
    · rw [Cache.setBuf_of_ne x ha]
      exact ⟨rfl, rfl, rfl⟩
  refine ⟨fun a => (hsame a).1, fun a => (hsame a).2.1, fun a => ?_, hdisk⟩
  unfold Store.copy
  rw [(hsame a).2.2, hdata]

theorem of_cache (hc : s'.cache = s.cache) (hdata : s'.data = s.data) (hdisk : s'.disk = s.disk) :
    Same s s' := by
  refine ⟨fun a => ?_, fun a => ?_, fun a => ?_, hdisk⟩
  · rw [hc]
  · unfold Store.blockno
    rw [hc]
  · unfold Store.copy
    rw [hc, hdata]

theorem saved (h : Same s s') (hs : s.Saved b) (hp : s.blockno b ∈ s.pinned → s.blockno b ∈ s'.pinned) :
    s'.Saved b := by
  intro d hd
  rw [h.copy b] at hd
  rw [h.blockno b, h.disk]
  exact (hs d hd).imp_right hp

end Same

variable [Fintype κ]

/-- The invariant of the cache with its data. -/
structure Ok (s : Store κ n) : Prop where
  base : s.toState.Ok
  /-- Buffers in use are of the only device. -/
  root : ∀ b, (s.cache.buf b).dev = ROOTDEV ∨
    (s.cache.buf b).refcnt = 0 ∧ (s.cache.buf b).valid = false
  /-- A buffer that nobody holds has nothing to lose. -/
  saved : ∀ b, s.locked b = none → s.Saved b

theorem Ok.dev_of_locked {p : κ} (hs : s.Ok) (mine : s.locked b = some p) :
    (s.cache.buf b).dev = ROOTDEV := by
  rcases hs.root b with h | ⟨h, -⟩
  · exact h
  · have hh := (hs.base.unused h).2.1
    rw [State.holders, mine] at hh
    exact absurd hh one_ne_zero

section Base

variable (hs : s.toState.Ok) (hs' : s'.toState.Ok)
include hs

/-- A block of the device is in one buffer. -/
theorem eq_of_is {a : Fin n} (ha : (s.cache.buf a).Is ROOTDEV blockno)
    (hb : (s.cache.buf b).Is ROOTDEV blockno) : a = b := by
  apply hs.unique a b
  · rw [ha.1]
    decide
  · exact ⟨ha.1.trans hb.1.symm, ha.2.trans hb.2.symm⟩

theorem abs_cache_of_is (hb : (s.cache.buf b).Is ROOTDEV blockno) :
    s.abs.cache blockno = s.copy b := by
  obtain ⟨l, hl⟩ := hs.listed
  unfold abs
  cases h : s.cache.lookup ROOTDEV blockno with
  | none => exact absurd hb (hl.not_is_of_lookup h b)
  | some a =>
    simp only [Option.bind_some, h]
    rw [eq_of_is hs (hl.is_of_lookup h) hb]

theorem abs_cache_of_not (hno : ∀ b, ¬ (s.cache.buf b).Is ROOTDEV blockno) :
    s.abs.cache blockno = none := by
  obtain ⟨l, hl⟩ := hs.listed
  unfold abs
  cases h : s.cache.lookup ROOTDEV blockno with
  | none => simp only [h, Option.bind_none]
  | some a => exact absurd (hl.is_of_lookup h) (hno a)

include hs'

/-- All buffers carry the same blocks and data as before. -/
theorem abs_cache_congr
    (hsame : ∀ a, (s'.cache.buf a).dev = (s.cache.buf a).dev ∧ s'.blockno a = s.blockno a)
    (hcopy : ∀ a, s'.copy a = s.copy a) : s'.abs.cache = s.abs.cache := by
  funext blockno
  by_cases h : ∃ b, (s.cache.buf b).Is ROOTDEV blockno
  · obtain ⟨b, hb⟩ := h
    rw [abs_cache_of_is hs hb, abs_cache_of_is hs' (b := b), hcopy b]
    exact ⟨(hsame b).1.trans hb.1, (hsame b).2.trans hb.2⟩
  · rw [not_exists] at h
    rw [abs_cache_of_not hs h, abs_cache_of_not hs']
    intro b hb
    exact h b ⟨(hsame b).1.symm.trans hb.1, (hsame b).2.symm.trans hb.2⟩

/-- The data of one buffer change. -/
theorem abs_cache_update (hdev : (s.cache.buf b).dev = ROOTDEV)
    (hsame : ∀ a, (s'.cache.buf a).dev = (s.cache.buf a).dev ∧ s'.blockno a = s.blockno a)
    (hcopy : ∀ a, a ≠ b → s'.copy a = s.copy a) :
    s'.abs.cache = Function.update s.abs.cache (s.blockno b) (s'.copy b) := by
  funext blockno
  by_cases h : ∃ a, (s.cache.buf a).Is ROOTDEV blockno
  · obtain ⟨a, ha⟩ := h
    rw [abs_cache_of_is hs' (b := a) ⟨(hsame a).1.trans ha.1, (hsame a).2.trans ha.2⟩]
    by_cases hab : a = b
    · subst hab
      rw [← ha.2]
      exact (Function.update_self (s.blockno a) (s'.copy a) s.abs.cache).symm
    · have hne : blockno ≠ s.blockno b := by
        rintro rfl
        exact hab (eq_of_is hs ha ⟨hdev, rfl⟩)
      rw [hcopy a hab, Function.update_of_ne hne, abs_cache_of_is hs ha]
  · rw [not_exists] at h
    have hne : blockno ≠ s.blockno b := by
      rintro rfl
      exact h b ⟨hdev, rfl⟩
    rw [Function.update_of_ne hne, abs_cache_of_not hs h, abs_cache_of_not hs']
    intro a ha
    exact h a ⟨(hsame a).1.symm.trans ha.1, (hsame a).2.symm.trans ha.2⟩

end Base

/-! ## One step -/

namespace Same

theorem abs_cache (h : Same s s') (hs : s.toState.Ok) (hs' : s'.toState.Ok) :
    s'.abs.cache = s.abs.cache :=
  abs_cache_congr hs hs' (fun a => ⟨h.dev a, h.blockno a⟩) h.copy

/-- A step that changes neither the contents nor the pins. -/
theorem stays (h : Same s s') (hs : s.toState.Ok) (hs' : s'.toState.Ok)
    (hp : s'.pinned = s.pinned) : BioStep s.abs .tau s'.abs := by
  have hstep : s'.abs = s.abs := Bio.ext h.disk (h.abs_cache hs hs') (abs_refcnt_congr hp)
  rw [hstep]
  exact .stay _

theorem ok (h : Same s s') (hs : s.Ok) (hs' : s'.toState.Ok)
    (hroot : ∀ a, (s'.cache.buf a).refcnt ≤ (s.cache.buf a).refcnt ∨
      (s.cache.buf a).dev = ROOTDEV)
    (hsaved : ∀ a, s'.locked a = none → s.Saved a)
    (hp : ∀ a, s'.locked a = none → (s.cache.buf a).dev = ROOTDEV → s.blockno a ∈ s.pinned →
      s.blockno a ∈ s'.pinned) : s'.Ok := by
  have hinvalid : ∀ a, (s.cache.buf a).valid = false → s'.copy a = none := by
    intro a hv
    rw [h.copy a]
    unfold Store.copy
    rw [hv]
    rfl
  refine ⟨hs', fun a => ?_, fun a ha => ?_⟩
  · rw [h.dev a]
    rcases hs.root a with hd | ⟨h0, hv⟩
    · exact Or.inl hd
    · refine (hroot a).symm.imp_right fun hle => ⟨by omega, ?_⟩
      have hcopy := hinvalid a hv
      unfold Store.copy at hcopy
      cases hv' : (s'.cache.buf a).valid with
      | false => rfl
      | true => simp [hv'] at hcopy
  · rcases hs.root a with hd | ⟨-, hv⟩
    · exact h.saved (hsaved a ha) (hp a ha hd)
    · intro d hcopy
      rw [hinvalid a hv] at hcopy
      exact absurd hcopy (Option.some_ne_none d).symm

end Same

end Store

/-- The two ways of `bget`. -/
theorem Cache.bget_cases {c c' : Cache n} {dev : BitVec 32} {blockno : BlockNo} {b : Fin n}
    (h : c.bget dev blockno = some (b, c')) :
    c.lookup dev blockno = some b ∧ c' = c.bpin b ∨
      c.lookup dev blockno = none ∧ c.unused = some b ∧ c' = c.recycle b dev blockno := by
  unfold bget at h
  cases hl : c.lookup dev blockno with
  | some a =>
    simp only [hl, Option.some.injEq, Prod.mk.injEq] at h
    obtain ⟨rfl, rfl⟩ := h
    exact Or.inl ⟨rfl, rfl⟩
  | none =>
    cases hu : c.unused with
    | none => simp only [hl, hu, reduceCtorEq] at h
    | some a =>
      simp only [hl, hu, Option.some.injEq, Prod.mk.injEq] at h
      obtain ⟨rfl, rfl⟩ := h
      exact Or.inr ⟨rfl, rfl, rfl⟩

variable [DecidableEq κ] [Fintype κ] {s s' : Store κ n} {p : κ} {e : Access BlockNo Block}
  {b : Fin n} {blockno : BlockNo}

/-- Without their data, the steps are those of the cache and of the log. -/
theorem StoreStep.base_ok (hs : s.Ok) (t : StoreStep p s e s') : s'.toState.Ok := by
  cases t with
  | bget idle hb =>
    rcases Cache.bget_cases hb with ⟨hl, rfl⟩ | ⟨hl, hu, rfl⟩
    · exact CacheStep.ok hs.base (.hit idle (by decide) hl)
    · exact CacheStep.ok hs.base (.recycle idle (by decide) hl hu)
  | acquiresleep waits free => exact CacheStep.ok hs.base (.acquire waits free)
  | bread mine => exact CacheStep.ok hs.base (.fill mine)
  | write => exact hs.base
  | bwrite => exact hs.base
  | releasesleep idle mine => exact CacheStep.ok hs.base (.release idle mine)
  | brelse releases => exact CacheStep.ok hs.base (.brelse releases)
  | log t => exact t.ok hs.base

namespace Store

omit [DecidableEq κ] in
/-- What was in a buffer is not cached any more when it carries a new block. -/
theorem abs_cache_recycle (hs : s.toState.Ok) (hs' : s'.toState.Ok)
    (hm : ∀ a, ¬ (s.cache.buf a).Is ROOTDEV blockno) (hb : (s'.cache.buf b).Is ROOTDEV blockno)
    (hnone : s'.copy b = none) (hother : ∀ a, a ≠ b → s'.cache.buf a = s.cache.buf a)
    (hcopy : ∀ a, a ≠ b → s'.copy a = s.copy a) (x : BlockNo) :
    s'.abs.cache x = if (s.cache.buf b).Is ROOTDEV x then none else s.abs.cache x := by
  by_cases hx : x = blockno
  · subst hx
    rw [abs_cache_of_is hs' hb, hnone, if_neg (hm b), abs_cache_of_not hs hm]
  have hbx : ¬ (s'.cache.buf b).Is ROOTDEV x := fun h => hx (h.2.symm.trans hb.2)
  split
  · rename_i hold
    apply abs_cache_of_not hs'
    intro a ha
    have hab : a ≠ b := fun h => hbx (h ▸ ha)
    rw [hother a hab] at ha
    exact hab (eq_of_is hs ha hold)
  · rename_i hold
    by_cases hex : ∃ a, (s.cache.buf a).Is ROOTDEV x
    · obtain ⟨a, ha⟩ := hex
      have hab : a ≠ b := fun h => hold (h ▸ ha)
      have ha' : (s'.cache.buf a).Is ROOTDEV x := by rwa [hother a hab]
      rw [abs_cache_of_is hs' ha', hcopy a hab, abs_cache_of_is hs ha]
    · rw [not_exists] at hex
      rw [abs_cache_of_not hs hex, abs_cache_of_not hs']
      intro a ha
      by_cases hab : a = b
      · exact hbx (hab ▸ ha)
      · exact hex a (hother a hab ▸ ha)

omit [DecidableEq κ] in
/-- A buffer that nobody uses is on the disk as it is. -/
theorem Ok.clean_of_unused (hs : s.Ok) (hb : (s.cache.buf b).refcnt = 0)
    (hdev : (s.cache.buf b).dev = ROOTDEV) :
    s.abs.refcnt (s.blockno b) = 0 ∧ s.abs.data (s.blockno b) = s.abs.disk (s.blockno b) := by
  obtain ⟨-, hholders, hpins⟩ := hs.base.unused hb
  have hunpinned : s.blockno b ∉ s.pinned := by
    intro hmem
    rw [State.pins, if_pos ⟨hdev, hmem⟩] at hpins
    exact one_ne_zero hpins
  have hfree : s.locked b = none := by
    unfold State.holders at hholders
    cases h : s.locked b with
    | none => rfl
    | some q => simp [h] at hholders
  refine ⟨if_neg hunpinned, ?_⟩
  have hcache : s.abs.cache (s.blockno b) = s.copy b := abs_cache_of_is hs.base ⟨hdev, rfl⟩
  unfold Bio.data
  rw [hcache]
  cases hd : s.copy b with
  | none => rfl
  | some d => exact (hs.saved b hfree d hd).resolve_right hunpinned

omit [DecidableEq κ] in
/-- `bget` takes a buffer that nobody uses for another block. -/
theorem Ok.recycle (hs : s.Ok) (hm : s.cache.lookup ROOTDEV blockno = none)
    (hu : s.cache.unused = some b) (hcache : s'.cache = s.cache.recycle b ROOTDEV blockno)
    (hdata : s'.data = s.data) (hdisk : s'.disk = s.disk) (hlocked : s'.locked = s.locked)
    (hpin : s'.pinned = s.pinned) (hs' : s'.toState.Ok) :
    s'.Ok ∧ BioStep s.abs .tau s'.abs := by
  obtain ⟨l, hl⟩ := hs.base.listed
  have h0 := hl.refcnt_of_unused hu
  have hself : s'.cache.buf b = { dev := ROOTDEV, blockno := blockno, valid := false, refcnt := 1 } := by
    rw [hcache]
    exact Cache.setBuf_self ..
  have hother : ∀ a, a ≠ b → s'.cache.buf a = s.cache.buf a := by
    intro a ha
    rw [hcache]
    exact Cache.setBuf_of_ne _ ha
  have hnone : s'.copy b = none := by
    unfold copy
    rw [hself]
    rfl
  have hcopy : ∀ a, a ≠ b → s'.copy a = s.copy a := by
    intro a ha
    unfold copy
    rw [hother a ha, hdata]
  have habs := abs_cache_recycle hs.base hs' (hl.not_is_of_lookup hm)
    (by rw [hself]; exact ⟨rfl, rfl⟩) hnone hother hcopy
  have hrefcnt := abs_refcnt_congr hpin
  constructor
  · refine ⟨hs', fun a => ?_, fun a ha d hd => ?_⟩
    · by_cases hab : a = b
      · rw [hab, hself]
        exact Or.inl rfl
      · rw [hother a hab]
        exact hs.root a
    · by_cases hab : a = b
      · rw [hab, hnone] at hd
        exact absurd hd (Option.some_ne_none d).symm
      · rw [hcopy a hab] at hd
        have hsaved := hs.saved a (hlocked ▸ ha) d hd
        unfold Store.blockno at hsaved ⊢
        rwa [hother a hab, hdisk, hpin]
  · by_cases hdev : (s.cache.buf b).dev = ROOTDEV
    · obtain ⟨hunpinned, hclean⟩ := hs.clean_of_unused h0 hdev
      have hc : s'.abs.cache = Function.update s.abs.cache (s.blockno b) none := by
        funext x
        rw [habs, Function.update_apply]
        apply if_congr _ rfl rfl
        exact ⟨fun h => h.2.symm, fun h => ⟨hdev, h.symm⟩⟩
      have hstep : s'.abs = s.abs.recycle (s.blockno b) := Bio.ext hdisk hc hrefcnt
      rw [hstep]
      exact .recycle hunpinned hclean
    · have hc : s'.abs.cache = s.abs.cache := by
        funext x
        rw [habs, if_neg fun h => hdev h.1]
      have hstep : s'.abs = s.abs := Bio.ext hdisk hc hrefcnt
      rw [hstep]
      exact .stay _

omit [DecidableEq κ] in
/-- The data of a buffer change under its sleeplock. -/
theorem Ok.update {x : Buf} (hs : s.Ok) (mine : s.locked b = some p)
    (hx : x.dev = (s.cache.buf b).dev ∧ x.blockno = (s.cache.buf b).blockno ∧
      x.refcnt = (s.cache.buf b).refcnt)
    (hcache : s'.cache = s.cache.setBuf b x) (hdata : ∀ a, a ≠ b → s'.data a = s.data a)
    (hdisk : ∀ a, a ≠ s.blockno b → s'.disk a = s.disk a) (hlocked : s'.locked = s.locked)
    (hpin : s'.pinned = s.pinned) (hs' : s'.toState.Ok) : s'.Ok ∧
      s'.abs.cache = Function.update s.abs.cache (s.blockno b) (s'.copy b) := by
  have hdev := hs.dev_of_locked mine
  have hself : s'.cache.buf b = x := by
    rw [hcache]
    exact Cache.setBuf_self x
  have hother : ∀ a, a ≠ b → s'.cache.buf a = s.cache.buf a := by
    intro a ha
    rw [hcache]
    exact Cache.setBuf_of_ne x ha
  have hcopy : ∀ a, a ≠ b → s'.copy a = s.copy a := by
    intro a ha
    unfold copy
    rw [hother a ha, hdata a ha]
  have hsame : ∀ a, (s'.cache.buf a).dev = (s.cache.buf a).dev ∧ s'.blockno a = s.blockno a := by
    intro a
    unfold Store.blockno
    by_cases hab : a = b
    · rw [hab, hself]
      exact ⟨hx.1, hx.2.1⟩
    · rw [hother a hab]
      exact ⟨rfl, rfl⟩
  refine ⟨⟨hs', fun a => ?_, fun a ha d hd => ?_⟩, abs_cache_update hs.base hs' hdev hsame hcopy⟩
  · by_cases hab : a = b
    · rw [hab, hself, hx.1]
      exact Or.inl hdev
    · rw [hother a hab]
      exact hs.root a
  · have hab : a ≠ b := by
      rintro rfl
      rw [hlocked, mine] at ha
      exact Option.some_ne_none p ha
    rw [hcopy a hab] at hd
    have hne : s.blockno a ≠ s.blockno b := by
      intro heq
      rcases hs.root a with hda | ⟨-, hv⟩
      · exact hab (eq_of_is hs.base ⟨hda, rfl⟩ ⟨hdev, heq.symm⟩)
      · unfold copy at hd
        simp [hv] at hd
    rw [(hsame a).2, hdisk _ hne, hpin]
    exact hs.saved a (hlocked ▸ ha) d hd

omit [DecidableEq κ] in
theorem abs_data_of_locked (hs : s.Ok) (mine : s.locked b = some p) :
    s.abs.data (s.blockno b) = (s.copy b).getD (s.disk (s.blockno b)) := by
  have hcache : s.abs.cache (s.blockno b) = s.copy b :=
    abs_cache_of_is hs.base ⟨hs.dev_of_locked mine, rfl⟩
  unfold Bio.data
  rw [hcache]
  rfl

omit [DecidableEq κ] [Fintype κ] in
theorem setBuf_buf (c : Cache n) (b : Fin n) : c.setBuf b (c.buf b) = c := by
  unfold Cache.setBuf
  rw [Function.update_eq_self]

omit [DecidableEq κ] in
theorem Ok.bread (hs : s.Ok) (mine : s.locked b = some p) (hs' : (s.bread b).toState.Ok) :
    (s.bread b).Ok ∧ BioStep s.abs (.read (s.blockno b) ((s.bread b).data b)) (s.bread b).abs := by
  have hdata : s.abs.data (s.blockno b) = (s.bread b).data b := by
    rw [abs_data_of_locked hs mine]
    exact (Function.update_self b ((s.copy b).getD (s.disk (s.blockno b))) s.data).symm
  have hcopy : (s.bread b).copy b = some (s.abs.data (s.blockno b)) := by
    unfold copy
    rw [hdata, if_pos]
    show ((s.cache.fill b).buf b).valid = true
    rw [Cache.fill, Cache.setBuf_self]
  obtain ⟨hok, hcache⟩ : (s.bread b).Ok ∧ (s.bread b).abs.cache =
      Function.update s.abs.cache (s.blockno b) ((s.bread b).copy b) :=
    hs.update (x := { s.cache.buf b with valid := true }) mine ⟨rfl, rfl, rfl⟩ rfl
      (fun a ha => Function.update_of_ne ha ..) (fun _ _ => rfl) rfl rfl hs'
  refine ⟨hok, ?_⟩
  rw [hcopy] at hcache
  have hstep : (s.bread b).abs = s.abs.bread (s.blockno b) := Bio.ext rfl hcache rfl
  rw [hstep, ← hdata]
  exact .bread _ _

omit [DecidableEq κ] in
theorem Ok.write (hs : s.Ok) (mine : s.locked b = some p)
    (valid : (s.cache.buf b).valid = true) (d : Block) :
    (s.write b d).Ok ∧ BioStep s.abs (.write (s.blockno b) d) (s.write b d).abs := by
  have hcopy : (s.write b d).copy b = some d := by
    unfold copy
    rw [Store.write, if_pos valid]
    exact congrArg some (Function.update_self b d s.data)
  obtain ⟨hok, hcache⟩ : (s.write b d).Ok ∧ (s.write b d).abs.cache =
      Function.update s.abs.cache (s.blockno b) ((s.write b d).copy b) :=
    hs.update mine ⟨rfl, rfl, rfl⟩ (setBuf_buf s.cache b).symm
      (fun a ha => Function.update_of_ne ha ..) (fun _ _ => rfl) rfl rfl hs.base
  refine ⟨hok, ?_⟩
  rw [hcopy] at hcache
  have hstep : (s.write b d).abs = s.abs.modify (s.blockno b) d := Bio.ext rfl hcache rfl
  rw [hstep]
  exact .modify _ _ _

omit [DecidableEq κ] in
theorem Ok.bwrite (hs : s.Ok) (mine : s.locked b = some p)
    (valid : (s.cache.buf b).valid = true) :
    (s.bwrite b).Ok ∧ BioStep s.abs .tau (s.bwrite b).abs := by
  obtain ⟨hok, hcache⟩ : (s.bwrite b).Ok ∧ (s.bwrite b).abs.cache =
      Function.update s.abs.cache (s.blockno b) ((s.bwrite b).copy b) :=
    hs.update mine ⟨rfl, rfl, rfl⟩ (setBuf_buf s.cache b).symm (fun _ _ => rfl)
      (fun a ha => Function.update_of_ne ha ..) rfl rfl hs.base
  refine ⟨hok, ?_⟩
  have hcopy : s.copy b = some (s.data b) := if_pos valid
  have hdata : s.abs.data (s.blockno b) = s.data b := by
    rw [abs_data_of_locked hs mine, hcopy]
    rfl
  have hcopy' : (s.bwrite b).copy b = some (s.abs.data (s.blockno b)) := by
    rw [hdata]
    exact hcopy
  rw [hcopy'] at hcache
  have hdisk : (s.bwrite b).disk = Function.update s.disk (s.blockno b)
      (s.abs.data (s.blockno b)) := by
    rw [hdata]
    rfl
  have hstep : (s.bwrite b).abs = s.abs.bwrite (s.blockno b) (s.abs.data (s.blockno b)) :=
    Bio.ext hdisk hcache rfl
  rw [hstep]
  exact .bwrite _ _

omit [Fintype κ] [DecidableEq κ] in
/-- `log_write` and `install_trans` change pins only. -/
theorem log_same {base : State κ n} (t : LogStep p s.toState base) :
    Same s { s with toState := base } := by
  cases t with
  | absorb | install | clear => exact .of_cache rfl rfl rfl
  | logWrite => exact .of_setBuf rfl ⟨rfl, rfl, rfl⟩ rfl rfl
  | bunpin => exact .of_setBuf rfl ⟨rfl, rfl, rfl⟩ rfl rfl

omit [DecidableEq κ] [Fintype κ] in
theorem pinned_of_quiet {s : State κ n} (quiet : s.installed = none) : s.pinned = s.lh := by
  rw [State.pinned, quiet]
  rfl

omit [DecidableEq κ] in
theorem Ok.log {base : State κ n} (hs : s.Ok) (t : LogStep p s.toState base) :
    Store.Ok { s with toState := base } ∧ BioStep s.abs .tau (Store.abs { s with toState := base }) := by
  have hsame := log_same t
  have hs' : base.Ok := t.ok hs.base
  have hcache := hsame.abs_cache hs.base hs'
  cases t with
  | absorb => exact ⟨hs, .stay _⟩
  | @logWrite b mine dev quiet hb =>
    have hpin := pinned_of_quiet quiet
    have hpin' : State.pinned { s.toState with
        cache := s.cache.bpin b, lh := s.lh ++ [(s.cache.buf b).blockno] }
        = s.lh ++ [(s.cache.buf b).blockno] := pinned_of_quiet quiet
    constructor
    · apply hsame.ok hs hs'
      · intro a
        by_cases hab : a = b
        · exact Or.inr (hab ▸ dev)
        · refine Or.inl (le_of_eq ?_)
          show ((s.cache.bpin b).buf a).refcnt = _
          rw [Cache.bpin_refcnt, if_neg hab, Nat.add_zero]
      · exact hs.saved
      · intro a _ _ hm
        rw [hpin] at hm
        rw [hpin']
        exact List.mem_append_left _ hm
    · have hstep : Store.abs { s with
          cache := s.cache.bpin b, lh := s.lh ++ [(s.cache.buf b).blockno] }
          = s.abs.bpin (s.blockno b) := by
        refine Bio.ext rfl hcache ?_
        funext x
        unfold abs Bio.bpin
        simp only [hpin, hpin', Function.update_apply, List.mem_append, List.mem_singleton]
        by_cases hx : x = (s.cache.buf b).blockno
        · subst hx
          simp [blockno, hb]
        · simp [blockno, hx]
      rw [hstep]
      exact .bpin _ _
  | install quiet =>
    have hpin : State.pinned { s.toState with installed := some 0 } = s.pinned := by
      rw [pinned_of_quiet quiet]
      rfl
    exact ⟨hsame.ok hs hs' (fun _ => Or.inl le_rfl) hs.saved (fun _ _ _ h => hpin.symm ▸ h),
      hsame.stays hs.base hs' hpin⟩
  | @bunpin b tail blockno ht hl mine hb =>
    obtain ⟨htl, hget⟩ := List.getElem?_eq_some_iff.1 hl
    have hpin : s.pinned = blockno :: s.lh.drop (tail + 1) := by
      rw [State.pinned, ht, Option.getD_some, List.drop_eq_getElem_cons htl, hget]
    have hpin' : State.pinned { s.toState with
        cache := s.cache.bunpin b, installed := some (tail + 1) } = s.lh.drop (tail + 1) := rfl
    have hno : blockno ∉ s.lh.drop (tail + 1) := by
      have hd : s.pinned.Nodup := hs.base.nodup.sublist (List.drop_sublist _ _)
      rw [hpin] at hd
      exact (List.nodup_cons.1 hd).1
    constructor
    · apply hsame.ok hs hs'
      · intro a
        refine Or.inl ?_
        show ((s.cache.bunpin b).buf a).refcnt ≤ _
        rw [Cache.bunpin_refcnt]
        exact Nat.sub_le _ _
      · exact hs.saved
      · intro a ha hdev hm
        rw [hpin, List.mem_cons] at hm
        rw [hpin']
        apply hm.resolve_left
        -- the block that is unpinned is in the buffer that `install_trans` holds
        intro heq
        rw [eq_of_is hs.base ⟨hdev, heq⟩ hb] at ha
        exact absurd (mine.symm.trans ha) (Option.some_ne_none p)
    · have hstep : Store.abs { s with cache := s.cache.bunpin b, installed := some (tail + 1) }
          = s.abs.bunpin blockno := by
        refine Bio.ext rfl hcache ?_
        funext x
        unfold abs Bio.bunpin
        simp only [hpin, hpin', Function.update_apply, List.mem_cons]
        by_cases hx : x = blockno
        · subst hx
          simp [hno]
        · simp [hx]
      rw [hstep]
      exact .bunpin _ _
  | clear ht =>
    have hpin : s.pinned = [] := by
      rw [State.pinned, ht, Option.getD_some, List.drop_length]
    exact ⟨hsame.ok hs hs' (fun _ => Or.inl le_rfl) hs.saved
      (fun a _ _ h => absurd (hpin ▸ h) List.not_mem_nil), hsame.stays hs.base hs' hpin.symm⟩

end Store

/-- **One step.** If it saves what it releases, it keeps the invariant and is a step of the abstract
cache. -/
theorem StoreStep.sound (hs : s.Ok) (t : StoreStep p s e s') (hsaves : s.Saves s') :
    s'.Ok ∧ BioStep s.abs e s'.abs := by
  have hs' := t.base_ok hs
  cases t with
  | @bget blockno b c idle hb =>
    rcases Cache.bget_cases hb with ⟨hl, rfl⟩ | ⟨hl, hu, rfl⟩
    · have hsame : Store.Same s { s with
          cache := s.cache.bpin b, stage := Function.update s.stage p (.waits b) } :=
        .of_setBuf rfl ⟨rfl, rfl, rfl⟩ rfl rfl
      obtain ⟨l, hlist⟩ := hs.base.listed
      refine ⟨hsame.ok hs hs' (fun a => ?_) hs.saved (fun _ _ _ h => h),
        hsame.stays hs.base hs' rfl⟩
      by_cases hab : a = b
      · exact Or.inr (hab ▸ (hlist.is_of_lookup hl).1)
      · refine Or.inl (le_of_eq ?_)
        show ((s.cache.bpin b).buf a).refcnt = _
        rw [Cache.bpin_refcnt, if_neg hab, Nat.add_zero]
    · exact hs.recycle hl hu rfl rfl rfl rfl rfl hs'
  | @acquiresleep b waits free =>
    have hsame : Store.Same s { s with
        locked := Function.update s.locked b (some p)
        stage := Function.update s.stage p .idle } := .of_cache rfl rfl rfl
    refine ⟨hsame.ok hs hs' (fun _ => Or.inl le_rfl) (fun a ha => hs.saved a ?_)
      (fun _ _ _ h => h), hsame.stays hs.base hs' rfl⟩
    by_cases hab : a = b
    · exact hab ▸ free
    · exact (Function.update_of_ne hab (some p) s.locked).symm.trans ha
  | bread mine => exact hs.bread mine hs'
  | write mine valid => exact hs.write mine valid _
  | bwrite mine valid => exact hs.bwrite mine valid
  | @releasesleep b idle mine =>
    have saved : s.Saved b :=
      hsaves b (mine ▸ Option.some_ne_none p) (Function.update_self b none s.locked)
    have hsame : Store.Same s { s with
        locked := Function.update s.locked b none
        stage := Function.update s.stage p (.releases b) } := .of_cache rfl rfl rfl
    refine ⟨hsame.ok hs hs' (fun _ => Or.inl le_rfl) (fun a ha => ?_)
      (fun _ _ _ h => h), hsame.stays hs.base hs' rfl⟩
    by_cases hab : a = b
    · exact hab ▸ saved
    · exact hs.saved a ((Function.update_of_ne hab none s.locked).symm.trans ha)
  | @brelse b releases =>
    have hsame : Store.Same s { s with
        cache := s.cache.brelse b, stage := Function.update s.stage p .idle } :=
      .of_setBuf Cache.brelse_buf ⟨rfl, rfl, rfl⟩ rfl rfl
    refine ⟨hsame.ok hs hs' (fun a => Or.inl ?_) hs.saved (fun _ _ _ h => h),
      hsame.stays hs.base hs' rfl⟩
    show ((s.cache.brelse b).buf a).refcnt ≤ _
    rw [Cache.brelse_buf, Cache.bunpin_refcnt]
    exact Nat.sub_le _ _
  | log t => exact hs.log t

omit [DecidableEq κ] in
theorem Store.Ok.boot (h : s.toState = State.boot κ n) : s.Ok where
  base := h ▸ State.boot_ok
  root b := by
    rw [h]
    exact Or.inr ⟨rfl, rfl⟩
  saved b _ d hd := by
    unfold Store.copy at hd
    rw [h] at hd
    exact absurd hd (Option.some_ne_none d).symm

/-! ## Runs -/

section Runs

variable {disk : BlockNo → Block} {h : List (Access BlockNo Block)}

theorem Store.abs_boot (hs : (stores κ n disk).init s) : (bios disk).init s.abs := by
  obtain ⟨hboot, rfl⟩ := hs
  have hok := Store.Ok.boot hboot
  have hcache : s.abs.cache = fun _ => none := by
    funext blockno
    by_cases hex : ∃ b, (s.cache.buf b).Is ROOTDEV blockno
    · obtain ⟨b, hb⟩ := hex
      rw [Store.abs_cache_of_is hok.base hb, Store.copy, hboot]
      rfl
    · exact Store.abs_cache_of_not hok.base (not_exists.1 hex)
  have hrefcnt : s.abs.refcnt = fun _ => 0 := by
    funext blockno
    unfold Store.abs State.pinned
    simp only [hboot]
    rfl
  exact Bio.ext rfl hcache hrefcnt

theorem ok_of_store_run (r : (savingStores κ n disk).Run h s) : s.Ok :=
  r.invariant (I := fun _ s => s.Ok) (fun _ hs => .boot hs.1)
    fun _ _ _ _ _ hs ⟨⟨_, t⟩, hsaves⟩ => (t.sound hs hsaves).1

/-- **The buffer cache refines the cache that the log is verified on.** Every run of `bio.c`, with
any number of processes and buffers, in which changes are saved before `brelse`, is a run of the
cache without the list, the sleeplocks and the reference counts, with the same reads and writes. -/
theorem refines_bio (r : (savingStores κ n disk).Run h s) : (bios disk).Run h s.abs := by
  induction r with
  | init hs => exact .init (Store.abs_boot hs)
  | step r t ih =>
    obtain ⟨⟨p, t⟩, hsaves⟩ := t
    exact ih.step (t.sound (ok_of_store_run r) hsaves).2

/-- **The buffer cache is coherent.** In every run in which changes are saved before `brelse`, `bread`
returns what was written to the block last, in whatever buffer that was and however often the
buffers were recycled since; and a block that no process holds and the log does not pin is on the
disk as it was written last. -/
theorem bread_coherent (r : (savingStores κ n disk).Run h s) : Access.Coherent disk h ∧
    ∀ blockno, blockno ∉ s.pinned → (∀ b, s.blockno b = blockno → s.locked b = none) →
      s.disk blockno = Access.contents disk h blockno := by
  have hinit : ∀ s : Store κ n, (savingStores κ n disk).init s → s.abs.data = disk := by
    intro s hs
    rw [Store.abs_boot hs]
    rfl
  have hstep : ∀ (s : Store κ n) e s', (savingStores κ n disk).Reachable s →
      (savingStores κ n disk).step s e s' → e.Turns s.abs.data s'.abs.data := by
    rintro s e s' ⟨h, r⟩ ⟨⟨p, t⟩, hsaves⟩
    exact (t.sound (ok_of_store_run r) hsaves).2.turns
  obtain ⟨hcoherent, hdata⟩ := r.coherent (fun s => s.abs.data) hinit hstep
  refine ⟨hcoherent, fun blockno hpin hfree => ?_⟩
  have hs := ok_of_store_run r
  rw [← hdata]
  unfold Bio.data
  by_cases hex : ∃ b, (s.cache.buf b).Is ROOTDEV blockno
  · obtain ⟨b, hb⟩ := hex
    rw [Store.abs_cache_of_is hs.base hb]
    cases hd : s.copy b with
    | none => rfl
    | some d =>
      have hsaved := hs.saved b (hfree b hb.2) d hd
      rw [show s.blockno b = blockno from hb.2] at hsaved
      exact (hsaved.resolve_right hpin).symm
  · rw [Store.abs_cache_of_not hs.base (not_exists.1 hex)]
    rfl

end Runs

omit [Fintype κ] [DecidableEq κ] in
/-- A step that releases no sleeplock. -/
theorem Store.saves_of_locked (h : ∀ b, s.locked b ≠ none → s'.locked b ≠ none) : s.Saves s' :=
  fun b hb hb' => absurd hb' (h b hb)

/-- Two processes and one buffer: the first writes block 7, and gives it up; the second takes the
buffer for block 8. -/
theorem recycling_run : ∃ s : Store (Fin 2) 1, (savingStores (Fin 2) 1 fun _ _ => 0).Run
    [.tau, .tau, .tau, .tau, .write 7 fun _ => 1, .read 7 fun _ => 0, .tau, .tau] s ∧
      s.blockno 0 = 8 ∧ s.pinned = [] := by
  have r₀ : (savingStores (Fin 2) 1 fun _ _ => 0).Run []
      { State.boot (Fin 2) 1 with data := fun _ _ => 0, disk := fun _ _ => 0 } := .init ⟨rfl, rfl⟩
  have r₁ := r₀.step ⟨⟨0, .bget rfl (show Cache.bget _ ROOTDEV 7 = some (0, _) from rfl)⟩,
    Store.saves_of_locked fun _ h => h⟩
  have r₂ := r₁.step ⟨⟨0, .acquiresleep (b := 0) rfl rfl⟩,
    Store.saves_of_locked fun _ h => absurd rfl h⟩
  have r₃ := r₂.step ⟨⟨0, .bread (b := 0) rfl⟩, Store.saves_of_locked fun _ h => h⟩
  have r₄ := r₃.step ⟨⟨0, .write (b := 0) (d := fun _ => 1) rfl rfl⟩,
    Store.saves_of_locked fun _ h => h⟩
  have r₅ := r₄.step ⟨⟨0, .bwrite (b := 0) rfl rfl⟩, Store.saves_of_locked fun _ h => h⟩
  have r₆ := r₅.step ⟨⟨0, .releasesleep (b := 0) rfl rfl⟩, fun b _ _ d hd => Or.inl (by
    rw [Subsingleton.elim b 0] at hd ⊢
    exact (Option.some.inj hd).symm)⟩
  have r₇ := r₆.step ⟨⟨0, .brelse (b := 0) rfl⟩, Store.saves_of_locked fun _ h => h⟩
  have r₈ := r₇.step ⟨⟨1, .bget rfl (show Cache.bget _ ROOTDEV 8 = some (0, _) from rfl)⟩,
    Store.saves_of_locked fun _ h => h⟩
  exact ⟨_, r₈, rfl, rfl⟩

/-- The abstract cache after such a run. -/
theorem refines_bio_recycling : ∃ s : Store (Fin 2) 1, (bios fun _ _ => 0).Run
    [.tau, .tau, .tau, .tau, .write 7 fun _ => 1, .read 7 fun _ => 0, .tau, .tau] s.abs := by
  obtain ⟨s, r, -⟩ := recycling_run
  exact ⟨s, refines_bio r⟩

/-- What was written is on the disk then. -/
theorem bread_coherent_recycling : ∃ s : Store (Fin 2) 1, s.blockno 0 = 8 ∧
    s.disk 7 = fun _ => 1 := by
  obtain ⟨s, r, hb, hpin⟩ := recycling_run
  refine ⟨s, hb, ?_⟩
  rw [(bread_coherent r).2 7 (hpin ▸ List.not_mem_nil) fun b hb' => ?_]
  · rfl
  · rw [Subsingleton.elim b 0, hb] at hb'
    exact absurd hb' (by decide)

end Xv6.Bcache
