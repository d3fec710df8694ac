import Mathlib.Tactic.FinCases
import Xv6.Bcache.Commit

/-!
# Operations and their commits

The operations of the file system, from `begin_op` to `end_op`, as users of the buffer cache: each
writes at most `MAXOPBLOCKS` distinct blocks with `log_write` and has given up every buffer before
its `end_op`. The last `end_op` commits, with no other process using the cache.

Whether that commit runs out of buffers depends on the number of blocks in the log alone
(`commit_runs_out_iff`), and a full log is reached by operations that keep to the rules
(`full_log`).
-/

namespace Xv6.Bcache

open Log (BlockNo MAXOPBLOCKS LOGBLOCKS logBlock logArea)

variable {κ : Type} [DecidableEq κ] [Fintype κ]

/-- The cache, and the operations in progress with the blocks that each has written. -/
structure OpState (κ : Type) where
  base : State κ NBUF
  writes : κ → Option (Finset BlockNo)

/-- `log.outstanding`. -/
def OpState.outstanding (s : OpState κ) : ℕ :=
  (Finset.univ.filter fun p => (s.writes p).isSome).card

/-- The process `p` is in an operation and has given up every buffer. -/
structure OpState.Done (s : OpState κ) (p : κ) : Prop where
  inOp : (s.writes p).isSome
  idle : s.base.stage p = .idle
  holds : ∀ b, s.base.locked b ≠ some p

/-- The `end_op` of `p` is going to commit. -/
structure OpState.Commits (s : OpState κ) (p : κ) : Prop extends s.Done p where
  last : ∀ q ≠ p, s.writes q = none

/-- `log_write` of the buffer `b`. -/
def State.logWrite {n : ℕ} (s : State κ n) (b : Fin n) : State κ n :=
  if (s.cache.buf b).blockno ∈ s.lh then s
  else { s with cache := s.cache.bpin b, lh := s.lh ++ [(s.cache.buf b).blockno] }

/-- The steps of `p`. The operations write blocks of the file system, which are not in the log's
own area. -/
inductive OpStep (start : BlockNo) (p : κ) : OpState κ → OpState κ → Prop
  /-- `begin_op` admits an operation. -/
  | beginOp {s : OpState κ} (out : s.writes p = none)
      (room : s.base.lh.length + (s.outstanding + 1) * MAXOPBLOCKS ≤ LOGBLOCKS) :
      OpStep start p s { s with writes := Function.update s.writes p (some ∅) }
  /-- A call of `bio.c`. -/
  | cache {s : OpState κ} {e : Event NBUF} {base : State κ NBUF} (inOp : (s.writes p).isSome)
      (t : CacheStep p s.base e base) : OpStep start p s { s with base := base }
  /-- `log_write`. -/
  | logWrite {s : OpState κ} {W : Finset BlockNo} {b : Fin NBUF} (inOp : s.writes p = some W)
      (mine : s.base.locked b = some p) (dev : (s.base.cache.buf b).dev = ROOTDEV)
      (area : (s.base.cache.buf b).blockno ∉ logArea start)
      (small : (insert (s.base.cache.buf b).blockno W).card ≤ MAXOPBLOCKS)
      (space : s.base.lh.length < LOGBLOCKS) :
      OpStep start p s
        { base := s.base.logWrite b
          writes := Function.update s.writes p (some (insert (s.base.cache.buf b).blockno W)) }
  /-- `end_op` while another operation is in progress. -/
  | endOp {s : OpState κ} (done : s.Done p) {q : κ} (hq : q ≠ p) (other : (s.writes q).isSome) :
      OpStep start p s { s with writes := Function.update s.writes p none }
  /-- The last `end_op`, with its commit. -/
  | commit {s : OpState κ} {c : Cache NBUF} (commits : s.Commits p)
      (hc : s.base.cache.commit start s.base.lh = some c) :
      OpStep start p s
        { base := { s.base with cache := c, lh := [] }
          writes := Function.update s.writes p none }

/-- No operation is in progress. -/
def OpState.boot (κ : Type) : OpState κ where
  base := State.boot κ NBUF
  writes _ := none

/-- The operations of the processes of `κ`, from an empty cache and log on. -/
def ops (κ : Type) [DecidableEq κ] [Fintype κ] (start : BlockNo) : LTS (OpState κ) κ where
  init s := s = OpState.boot κ
  step s p s' := OpStep start p s s'

/-! ## The invariant -/

/-- A value of an updated function is the new one, or an old one elsewhere. -/
private theorem of_update_eq {α β : Type*} [DecidableEq α] {f : α → β} {x y : α} {v w : β}
    (h : Function.update f x v y = w) : y = x ∧ v = w ∨ y ≠ x ∧ f y = w := by
  by_cases hy : y = x
  · subst hy
    exact Or.inl ⟨rfl, (Function.update_self ..).symm.trans h⟩
  · exact Or.inr ⟨hy, (Function.update_of_ne hy ..).symm.trans h⟩

/-- The invariant: only a process in an operation uses the cache, and a block of the log is not in
the log's area. -/
structure OpState.Ok (start : BlockNo) (s : OpState κ) : Prop where
  base : s.base.Ok
  quiet : s.base.installed = none
  outside : ∀ p, s.writes p = none → s.base.stage p = .idle ∧ ∀ b, s.base.locked b ≠ some p
  area : ∀ x ∈ s.base.lh, x ∉ logArea start

omit [Fintype κ] in
/-- What a call of `p` leaves as it is. -/
theorem CacheStep.frame {n : ℕ} {p : κ} {s s' : State κ n} {e : Event n}
    (t : CacheStep p s e s') : s'.lh = s.lh ∧ s'.installed = s.installed ∧
      ∀ q ≠ p, s'.stage q = s.stage q ∧ ∀ b, s'.locked b = some q → s.locked b = some q := by
  cases t with
  | hit | recycle | brelse =>
    exact ⟨rfl, rfl, fun q hq => ⟨Function.update_of_ne hq .., fun _ => id⟩⟩
  | fill => exact ⟨rfl, rfl, fun q hq => ⟨rfl, fun _ => id⟩⟩
  | @acquire b waits free =>
    refine ⟨rfl, rfl, fun q hq => ⟨Function.update_of_ne hq .., fun b' hl => ?_⟩⟩
    rcases of_update_eq hl with ⟨-, hv⟩ | ⟨-, hl⟩
    · exact (hq (Option.some.inj hv).symm).elim
    · exact hl
  | @release b idle mine =>
    refine ⟨rfl, rfl, fun q hq => ⟨Function.update_of_ne hq .., fun b' hl => ?_⟩⟩
    rcases of_update_eq hl with ⟨-, hv⟩ | ⟨-, hl⟩
    · cases hv
    · exact hl

omit [DecidableEq κ] in
/-- When the processes are idle and hold nothing, one of them has the cache alone. -/
theorem State.Ok.alone {s : State κ NBUF} (hs : s.Ok) (hq : s.installed = none)
    (hidle : ∀ p, s.stage p = .idle) (hfree : ∀ b, s.locked b = none) :
    s.cache.Alone s.lh [] where
  listed := hs.listed
  unique := hs.unique
  nodup := hs.nodup
  cached x hx := hs.cached x (by rwa [State.pinned, hq])
  count b := by
    rw [hs.count b]
    simp [State.refs, State.waiters, State.releasers, State.holders, State.pins, State.pinned,
      hidle, hfree, hq]

omit [DecidableEq κ] in
theorem State.Ok.of_alone {s : State κ NBUF} (ha : s.cache.Alone s.lh [])
    (hq : s.installed = none) (hidle : ∀ p, s.stage p = .idle) (hfree : ∀ b, s.locked b = none) :
    s.Ok where
  listed := ha.listed
  unique := ha.unique
  nodup := ha.nodup
  cached x hx := ha.cached x (by rwa [State.pinned, hq] at hx)
  count b := by
    rw [ha.count b]
    simp [State.refs, State.waiters, State.releasers, State.holders, State.pins, State.pinned,
      hidle, hfree, hq]

omit [DecidableEq κ] in
/-- When a commit starts, nobody uses the cache. -/
theorem OpState.Commits.quiet {start : BlockNo} {s : OpState κ} {p : κ} (hs : s.Ok start)
    (hc : s.Commits p) : (∀ q, s.base.stage q = .idle) ∧ ∀ b, s.base.locked b = none := by
  have hall : ∀ q, s.base.stage q = .idle ∧ ∀ b, s.base.locked b ≠ some q := by
    intro q
    by_cases hq : q = p
    · subst hq
      exact ⟨hc.idle, hc.holds⟩
    · exact hs.outside q (hc.last q hq)
  refine ⟨fun q => (hall q).1, fun b => ?_⟩
  cases hb : s.base.locked b with
  | none => rfl
  | some q => exact ((hall q).2 b hb).elim

theorem OpStep.ok {start : BlockNo} {p : κ} {s s' : OpState κ} (hs : s.Ok start)
    (t : OpStep start p s s') : s'.Ok start := by
  cases t with
  | beginOp out room =>
    refine ⟨hs.base, hs.quiet, fun q hq => ?_, hs.area⟩
    rcases of_update_eq hq with ⟨-, hv⟩ | ⟨-, hq⟩
    · cases hv
    · exact hs.outside q hq
  | cache inOp t =>
    obtain ⟨hlh, hinst, hframe⟩ := t.frame
    refine ⟨t.ok hs.base, hinst.trans hs.quiet, fun q hq => ?_, fun x hx => ?_⟩
    · have hqp : q ≠ p := by
        rintro rfl
        rw [hq] at inOp
        cases inOp
      obtain ⟨hidle, hfree⟩ := hs.outside q hq
      exact ⟨(hframe q hqp).1.trans hidle, fun b hb => hfree b ((hframe q hqp).2 b hb)⟩
    · exact hs.area x (hlh ▸ hx)
  | @logWrite W b inOp mine dev area small space =>
    have hout : ∀ q, Function.update s.writes p
        (some (insert (s.base.cache.buf b).blockno W)) q = none → s.writes q = none := by
      intro q hq
      rcases of_update_eq hq with ⟨-, hv⟩ | ⟨-, hq⟩
      · cases hv
      · exact hq
    by_cases hm : (s.base.cache.buf b).blockno ∈ s.base.lh
    · rw [State.logWrite, if_pos hm]
      exact ⟨hs.base, hs.quiet, fun q hq => hs.outside q (hout q hq), hs.area⟩
    · rw [State.logWrite, if_neg hm]
      refine ⟨(LogStep.logWrite (p := p) mine dev hs.quiet hm).ok hs.base, hs.quiet,
        fun q hq => hs.outside q (hout q hq), fun x hx => ?_⟩
      rcases List.mem_append.1 hx with hx | hx
      · exact hs.area x hx
      · rwa [List.mem_singleton.1 hx]
  | endOp done hq other =>
    refine ⟨hs.base, hs.quiet, fun q hw => ?_, hs.area⟩
    rcases of_update_eq hw with ⟨rfl, -⟩ | ⟨-, hw⟩
    · exact ⟨done.idle, done.holds⟩
    · exact hs.outside q hw
  | @commit c commits hc =>
    obtain ⟨hidle, hfree⟩ := commits.quiet hs
    have hnone : ∀ x ∈ ([] : List BlockNo), x ∉ logArea start := fun x hx =>
      (List.not_mem_nil hx).elim
    have ha := hs.base.alone hs.quiet hidle hfree
    have hlen : s.base.lh.length < NBUF := by
      refine lt_of_le_of_ne ha.length_le fun he => ?_
      rw [ha.commit_eq_none (by decide) he.ge fun hm =>
        hs.area _ hm (Log.logBlock_mem_logArea (by decide))] at hc
      cases hc
    obtain ⟨c', he, h'⟩ := ha.commit start hlen
    obtain rfl : c' = c := Option.some.inj (he.symm.trans hc)
    refine ⟨State.Ok.of_alone (s := { s.base with cache := c', lh := [] }) h' hs.quiet hidle hfree,
      hs.quiet, fun q _ => ⟨hidle q, fun b hb => ?_⟩, hnone⟩
    rw [hfree b] at hb
    cases hb

theorem ok_of_reachable {start : BlockNo} {s : OpState κ} (hs : (ops κ start).Reachable s) :
    s.Ok start := by
  refine hs.invariant ?_ ?_
  · rintro s rfl
    exact ⟨State.boot_ok, rfl, fun p _ => ⟨rfl, fun b hb => by cases hb⟩, fun x hx =>
      (List.not_mem_nil hx).elim⟩
  · intro s p s' _ hi t
    exact OpStep.ok (p := p) hi t

/-- **When a commit runs out of buffers.** In every state that operations reach, the commit of the
last `end_op` panics with "bget: no buffers" if and only if the log has `NBUF` blocks. -/
theorem commit_runs_out_iff {start : BlockNo} {s : OpState κ} {p : κ}
    (hs : (ops κ start).Reachable s) (hc : s.Commits p) :
    s.base.cache.commit start s.base.lh = none ↔ s.base.lh.length = NBUF := by
  have hok := ok_of_reachable hs
  obtain ⟨hidle, hfree⟩ := hc.quiet hok
  refine (hok.base.alone hok.quiet hidle hfree).commit_eq_none_iff (by decide) fun hm => ?_
  exact hok.area _ hm (Log.logBlock_mem_logArea (by decide))

/-! ## A full log -/

/-- Nobody uses the cache. -/
structure OpState.Calm (s : OpState κ) : Prop where
  idle : ∀ q, s.base.stage q = .idle
  free : ∀ b, s.base.locked b = none

omit [DecidableEq κ] [Fintype κ] in
/-- The first part of `bget` when a buffer is left. -/
theorem State.Ok.get [DecidableEq κ] [Fintype κ] {s : State κ NBUF} {p : κ}
    (blockno : BlockNo) (hs : s.Ok) (hidle : s.stage p = .idle)
    (hroom : ∃ b, (s.cache.buf b).refcnt = 0) :
    ∃ e c b, CacheStep p s e
      { s with cache := c, stage := Function.update s.stage p (.waits b) } ∧
      (c.buf b).Is ROOTDEV blockno := by
  obtain ⟨l, hl⟩ := hs.listed
  cases hlook : s.cache.lookup ROOTDEV blockno with
  | some b =>
    refine ⟨_, _, b, .hit hidle (by decide) hlook, ?_⟩
    have hb := hl.is_of_lookup hlook
    exact ⟨(Cache.bpin_same b).1.trans hb.1, (Cache.bpin_same b).2.trans hb.2⟩
  | none =>
    cases hun : s.cache.unused with
    | some b =>
      refine ⟨_, _, b, .recycle hidle (by decide) hlook hun, ?_⟩
      rw [Cache.recycle, Cache.setBuf_self]
      exact ⟨rfl, rfl⟩
    | none =>
      obtain ⟨b, hb⟩ := hroom
      exact (hl.refcnt_ne_of_unused hun b hb).elim

/-- An operation logs one more block: `bread`, `log_write`, `brelse`. -/
theorem exists_logged {start blockno : BlockNo} {s : OpState κ} {p : κ} {W : Finset BlockNo}
    (hs : (ops κ start).Reachable s) (calm : s.Calm) (inOp : s.writes p = some W)
    (hnew : blockno ∉ s.base.lh) (harea : blockno ∉ logArea start)
    (hlt : s.base.lh.length < LOGBLOCKS) (hsmall : W.card < MAXOPBLOCKS) :
    ∃ s', (ops κ start).Reachable s' ∧ s'.Calm ∧ s'.base.lh = s.base.lh ++ [blockno] ∧
      s'.writes = Function.update s.writes p (some (insert blockno W)) := by
  have hok := ok_of_reachable hs
  have ha := hok.base.alone hok.quiet calm.idle calm.free
  obtain ⟨e, c, b, hget, hb⟩ :=
    hok.base.get blockno (calm.idle p) (ha.exists_unused hlt)
  have hin : (s.writes p).isSome := by rw [inOp]; rfl
  have r₁ := hs.step (OpStep.cache hin hget)
  have r₂ := r₁.step (OpStep.cache hin (.acquire (b := b) (Function.update_self ..) (calm.free b)))
  have r₃ := r₂.step (OpStep.logWrite (b := b) inOp (Function.update_self ..) hb.1
    (by change (c.buf b).blockno ∉ _; rwa [hb.2])
    ((Finset.card_insert_le _ _).trans hsmall) hlt)
  simp only [State.logWrite, hb.2, if_neg hnew] at r₃
  have hin' : (Function.update s.writes p (some (insert blockno W)) p).isSome := by
    rw [Function.update_self]; rfl
  have r₄ := r₃.step (OpStep.cache hin'
    (.release (b := b) (Function.update_self ..) (Function.update_self ..)))
  have r₅ := r₄.step (OpStep.cache hin' (.brelse (b := b) (Function.update_self ..)))
  refine ⟨_, r₅, ⟨fun q => ?_, fun b' => ?_⟩, rfl, rfl⟩
  · by_cases hq : q = p
    · subst hq
      exact Function.update_self ..
    · simp [Function.update_of_ne hq, calm.idle q]
  · by_cases hb' : b' = b
    · subst hb'
      exact Function.update_self ..
    · simp [Function.update_of_ne hb', calm.free b']

/-- The blocks that the operations below write. -/
def fullLogBlock (i : ℕ) : BlockNo := BitVec.ofNat 32 (100 + i)

theorem fullLogBlock_inj {i j : ℕ} (hi : i < LOGBLOCKS) (hj : j < LOGBLOCKS)
    (h : fullLogBlock i = fullLogBlock j) : i = j := by
  have := congrArg BitVec.toNat h
  simp only [fullLogBlock, BitVec.toNat_ofNat, LOGBLOCKS, MAXOPBLOCKS] at this hi hj
  omega

theorem fullLogBlock_notMem {i : ℕ} (hi : i < LOGBLOCKS) : fullLogBlock i ∉ logArea 0 := by
  change ¬ (fullLogBlock i - 0).toNat ≤ LOGBLOCKS
  have hv : (fullLogBlock i - 0).toNat = (100 + i) % 2 ^ 32 := by simp [fullLogBlock]
  simp only [LOGBLOCKS, MAXOPBLOCKS] at hi ⊢
  omega

/-- Three operations are in progress and have written `k` blocks, the first one the first
`MAXOPBLOCKS` of them, and so on. -/
structure FullLog (k : ℕ) (s : OpState (Fin 3)) : Prop where
  reachable : (ops (Fin 3) 0).Reachable s
  calm : s.Calm
  length : s.base.lh.length = k
  lh : ∀ x ∈ s.base.lh, ∃ i < k, x = fullLogBlock i
  writes : ∀ p : Fin 3, ∃ W, s.writes p = some W ∧ W.card ≤ k - MAXOPBLOCKS * p

theorem exists_fullLog_zero : ∃ s, FullLog 0 s := by
  have r₀ : (ops (Fin 3) 0).Reachable (OpState.boot (Fin 3)) := ⟨[], .init rfl⟩
  have r₁ := r₀.step (OpStep.beginOp (p := 0) rfl (by decide))
  have r₂ := r₁.step (OpStep.beginOp (p := 1) rfl (by decide))
  have r₃ := r₂.step (OpStep.beginOp (p := 2) rfl (by decide))
  refine ⟨_, r₃, ⟨fun _ => rfl, fun _ => rfl⟩, rfl, fun x hx => (List.not_mem_nil hx).elim,
    fun p => ⟨∅, ?_, by simp⟩⟩
  fin_cases p <;> rfl

theorem exists_fullLog {k : ℕ} (hk : k ≤ LOGBLOCKS) : ∃ s, FullLog k s := by
  induction k with
  | zero => exact exists_fullLog_zero
  | succ k ih =>
    obtain ⟨s, hs⟩ := ih (by omega)
    have hk3 : k / MAXOPBLOCKS < 3 := by
      simp only [LOGBLOCKS, MAXOPBLOCKS] at hk ⊢
      omega
    obtain ⟨W, hW, hcard⟩ := hs.writes ⟨k / MAXOPBLOCKS, hk3⟩
    have hnew : fullLogBlock k ∉ s.base.lh := by
      intro hm
      obtain ⟨i, hi, he⟩ := hs.lh _ hm
      have := fullLogBlock_inj (by omega) (by omega) he
      omega
    have hsmall : W.card < MAXOPBLOCKS := by
      simp only [MAXOPBLOCKS] at hcard ⊢
      omega
    obtain ⟨s', hr, calm, hlh, hw⟩ := exists_logged hs.reachable hs.calm hW hnew
      (fullLogBlock_notMem (by omega)) (by rw [hs.length]; omega) hsmall
    refine ⟨s', hr, calm, ?_, fun x hx => ?_, fun p => ?_⟩
    · rw [hlh, List.length_append, hs.length, List.length_singleton]
    · rw [hlh, List.mem_append, List.mem_singleton] at hx
      rcases hx with hx | rfl
      · obtain ⟨i, hi, he⟩ := hs.lh x hx
        exact ⟨i, by omega, he⟩
      · exact ⟨k, by omega, rfl⟩
    · by_cases hp : p = ⟨k / MAXOPBLOCKS, hk3⟩
      · subst hp
        refine ⟨_, by rw [hw, Function.update_self], (Finset.card_insert_le _ _).trans ?_⟩
        simp only [MAXOPBLOCKS] at hcard ⊢
        omega
      · obtain ⟨V, hV, hc⟩ := hs.writes p
        exact ⟨V, by rw [hw, Function.update_of_ne hp, hV], by omega⟩

/-- The three operations end, and the commit of their blocks is about to start. -/
theorem exists_commit {k : ℕ} (hk : k ≤ LOGBLOCKS) : ∃ s, (ops (Fin 3) 0).Reachable s ∧
    s.Commits 2 ∧ s.base.lh.length = k := by
  obtain ⟨s, hs⟩ := exists_fullLog hk
  have hin : ∀ p, (s.writes p).isSome := fun p => by
    obtain ⟨W, hW, -⟩ := hs.writes p
    rw [hW]
    rfl
  have hfree : ∀ (p : Fin 3) b, s.base.locked b ≠ some p := fun p b hb => by
    rw [hs.calm.free b] at hb
    cases hb
  have r₁ := hs.reachable.step (OpStep.endOp (p := 0) (q := 2) ⟨hin 0, hs.calm.idle 0, hfree 0⟩
    (by decide) (hin 2))
  have r₂ := r₁.step (OpStep.endOp (p := 1) (q := 2) ⟨hin 1, hs.calm.idle 1, hfree 1⟩
    (by decide) (hin 2))
  refine ⟨_, r₂, ⟨⟨hin 2, hs.calm.idle 2, hfree 2⟩, fun q hq => ?_⟩, hs.length⟩
  fin_cases q
  · rfl
  · rfl
  · exact (hq rfl).elim

/-- The commit of a full log: 30 blocks are pinned in the 30 buffers. -/
theorem commit_runs_out : ¬ ∀ (s : OpState (Fin 3)) (p : Fin 3), (ops (Fin 3) 0).Reachable s →
    s.Commits p → s.base.cache.commit 0 s.base.lh ≠ none := by
  intro hall
  obtain ⟨s, hs, hc, hlen⟩ := exists_commit (le_refl LOGBLOCKS)
  have hok := ok_of_reachable hs
  obtain ⟨hidle, hfree⟩ := hc.quiet hok
  refine hall s 2 hs hc ((hok.base.alone hok.quiet hidle hfree).commit_eq_none (by decide)
    hlen.ge fun hm => ?_)
  exact hok.area _ hm (Log.logBlock_mem_logArea (by decide))

/-- The commit of 12 blocks goes through, and that of 30 does not. -/
theorem commit_runs_out_iff_logs :
    (∃ s : OpState (Fin 3), s.Commits 2 ∧ s.base.lh.length = 12 ∧
      s.base.cache.commit 0 s.base.lh ≠ none) ∧
    ∃ s : OpState (Fin 3), s.Commits 2 ∧ s.base.lh.length = 30 ∧
      s.base.cache.commit 0 s.base.lh = none := by
  constructor
  · obtain ⟨s, hs, hc, hlen⟩ := exists_commit (show 12 ≤ LOGBLOCKS by decide)
    refine ⟨s, hc, hlen, fun hnone => ?_⟩
    have hfull := (commit_runs_out_iff hs hc).1 hnone
    rw [hlen] at hfull
    exact absurd hfull (by decide)
  · obtain ⟨s, hs, hc, hlen⟩ := exists_commit (le_refl LOGBLOCKS)
    exact ⟨s, hc, hlen, (commit_runs_out_iff hs hc).2 hlen⟩

end Xv6.Bcache
