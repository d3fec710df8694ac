import Xv6.Foundations.Transition
import Xv6.Log.Defs

/-!
# Crashes and recovery

The log as one client after another uses it: transactions of `log_write`s, each followed by its
commit, and a crash between any two disk writes, those of a recovery included. Every step makes at
most one disk write. Besides, buffers are filled and recycled at any time.

The history of a run says which transactions have committed: those whose header has reached the
disk in `commit` (`committed`). The invariant on the disk (`Redo`) is that applying the logged
writes to it gives the result of the committed transactions; so recovery may start at any point.
-/

namespace Xv6.Log.Crash

/-! ## The steps -/

/-- Where the kernel is. -/
inductive Pc
  /-- before `recover_from_log` -/
  | boot
  /-- between two transactions, or inside of one -/
  | idle
  /-- `write_log`, before the round `tail` -/
  | writeLog (tail : ℕ)
  /-- `install_trans(recovering)`, before the round `tail` -/
  | install (recovering : Bool) (tail : ℕ)

/-- The disk and the buffer cache, `log.lh`, and where the kernel is. -/
structure State where
  bio : Bio
  lh : List BlockNo
  pc : Pc

/-- What a step shows. -/
inductive Event
  | tau
  /-- a transaction has written `d` to the block `b` -/
  | write (b : BlockNo) (d : Block)
  /-- the header of a transaction has reached the disk -/
  | commit
  | crash
  /-- `recover_from_log` is done -/
  | recovered

variable (start : BlockNo)

/-- The steps of the log whose header block is `start`. -/
inductive Step : State → Event → State → Prop
  | bread {bio lh pc} (b : BlockNo) : Step ⟨bio, lh, pc⟩ .tau ⟨bio.bread b, lh, pc⟩
  | recycle {bio lh pc b} (h : bio.refcnt b = 0) : Step ⟨bio, lh, pc⟩ .tau ⟨bio.recycle b, lh, pc⟩
  /-- A transaction reads a block, changes it and calls `log_write`. -/
  | write {bio lh b d} (hb : b ∉ logArea start) (hn : lh.length < LOGBLOCKS) :
      Step ⟨bio, lh, .idle⟩ (.write b d)
        ⟨(logWrite b lh ((bio.bread b).modify b d)).2,
          (logWrite b lh ((bio.bread b).modify b d)).1, .idle⟩
  /-- `commit`: `log.lh.n > 0` -/
  | commit {bio lh} (hn : 0 < lh.length) : Step ⟨bio, lh, .idle⟩ .tau ⟨bio, lh, .writeLog 0⟩
  | writeLog {bio lh tail b} (hb : lh[tail]? = some b) :
      Step ⟨bio, lh, .writeLog tail⟩ .tau ⟨writeLog start tail b bio, lh, .writeLog (tail + 1)⟩
  | writeHead {bio lh} :
      Step ⟨bio, lh, .writeLog lh.length⟩ .commit ⟨writeHead start lh bio, lh, .install false 0⟩
  | install {bio lh recovering tail b} (hb : lh[tail]? = some b) :
      Step ⟨bio, lh, .install recovering tail⟩ .tau
        ⟨installTrans start recovering tail b bio, lh, .install recovering (tail + 1)⟩
  /-- `log.lh.n = 0; write_head();` at the end of `commit` and of `recover_from_log` -/
  | clear {bio lh recovering} :
      Step ⟨bio, lh, .install recovering lh.length⟩ (if recovering then .recovered else .tau)
        ⟨writeHead start [] bio, [], .idle⟩
  | crash {bio lh pc} : Step ⟨bio, lh, pc⟩ .crash ⟨bio.crash, [], .boot⟩
  /-- `read_head` -/
  | recover {bio lh lh'} (h : decodeHead (bio.data start) = some lh') :
      Step ⟨bio, lh, .boot⟩ .tau ⟨bio.bread start, lh', .install true 0⟩

/-- The log, powered on with the disk `d₀`. -/
def system (d₀ : BlockNo → Block) : LTS State Event where
  init s := s.bio.disk = d₀ ∧ (∀ b, s.bio.cache b = none) ∧ s.pc = .boot
  step := Step start

/-! ## The committed transactions -/

/-- The writes of the current transaction, the first one first; the history is newest first. -/
def current : List Event → List (BlockNo × Block)
  | [] => []
  | .write b d :: h => current h ++ [(b, d)]
  | .commit :: _ | .crash :: _ => []
  | .tau :: h | .recovered :: h => current h

/-- The committed transactions, the first one first. -/
def committed : List Event → List (List (BlockNo × Block))
  | [] => []
  | .commit :: h => committed h ++ [current h]
  | _ :: h => committed h

/-- The disk `d₀` after the committed transactions. -/
def target (d₀ : BlockNo → Block) (h : List Event) : BlockNo → Block :=
  applyWrites (committed h).flatten d₀

variable {start}

/-! ## The disk -/

/-- The writes that the header `lh` and the log blocks stand for. -/
def logged (start : BlockNo) (disk : BlockNo → Block) (lh : List BlockNo) :
    List (BlockNo × Block) :=
  lh.zipIdx.map fun x => (x.1, disk (logBlock start x.2))

@[simp] theorem logged_fst (disk : BlockNo → Block) (lh : List BlockNo) :
    (logged start disk lh).map Prod.fst = lh := by
  simp only [logged, List.map_map, Function.comp_def]
  exact List.zipIdx_map_fst 0 lh

theorem mem_logged {disk : BlockNo → Block} {lh : List BlockNo} {i : ℕ} {b : BlockNo}
    (hb : lh[i]? = some b) : (b, disk (logBlock start i)) ∈ logged start disk lh :=
  List.mem_map.2 ⟨(b, i), List.mem_zipIdx_iff_getElem?.2 hb, rfl⟩

theorem logged_congr {disk disk' : BlockNo → Block} {lh : List BlockNo} (hlen : lh.length ≤ LOGBLOCKS)
    (h : ∀ i, i < LOGBLOCKS → disk' (logBlock start i) = disk (logBlock start i)) :
    logged start disk' lh = logged start disk lh := by
  refine List.map_congr_left fun x hx => ?_
  have hlt := (List.mem_zipIdx hx).2.1
  rw [h x.2 (by omega)]

/-- **The invariant of the disk**: applying the logged writes gives `T`, on the home blocks. -/
structure Redo (start : BlockNo) (disk T : BlockNo → Block) (lh : List BlockNo) : Prop where
  head : decodeHead (disk start) = some lh
  listed : Listed start lh
  home : ∀ b ∉ logArea start, applyWrites (logged start disk lh) disk b = T b

namespace Redo

variable {disk T : BlockNo → Block} {lh : List BlockNo} {i : ℕ} {b : BlockNo}

theorem home_nil (h : Redo start disk T []) (hb : b ∉ logArea start) : disk b = T b := h.home b hb

/-- A home block that is not logged is up to date. -/
theorem home_of_notMem (h : Redo start disk T lh) (hb : b ∉ logArea start) (hlh : b ∉ lh) :
    disk b = T b := by
  rw [← h.home b hb, applyWrites_of_notMem (by rwa [logged_fst])]

/-- A log block holds what its home block should hold. -/
theorem logBlock_eq (h : Redo start disk T lh) (hb : lh[i]? = some b) :
    disk (logBlock start i) = T b := by
  have hmem := List.mem_of_getElem? hb
  rw [← h.home b (h.listed.home b hmem)]
  exact (applyWrites_of_mem (by rw [logged_fst]; exact h.listed.nodup) (mem_logged hb) disk).symm

/-- A write to the log area that leaves the header alone, while nothing is logged. -/
theorem append (h : Redo start disk T []) (hi : i < LOGBLOCKS) (d : Block) :
    Redo start (Function.update disk (logBlock start i) d) T [] := by
  refine ⟨?_, Listed.nil, fun b hb => ?_⟩
  · rw [Function.update_of_ne (logBlock_ne_start hi).symm]
    exact h.head
  · have hne : b ≠ logBlock start i := fun heq => hb (heq ▸ logBlock_mem_logArea hi)
    exact (Function.update_of_ne hne ..).trans (h.home b hb)

/-- An installed block may be installed again. -/
theorem install (h : Redo start disk T lh) (hb : b ∈ lh) (d : Block) :
    Redo start (Function.update disk b d) T lh := by
  have hhome := h.listed.home b hb
  have hlog : ∀ i, i < LOGBLOCKS →
      Function.update disk b d (logBlock start i) = disk (logBlock start i) := by
    intro i hi
    refine Function.update_of_ne ?_ ..
    rintro rfl
    exact hhome (logBlock_mem_logArea hi)
  refine ⟨?_, h.listed, fun b' hb' => ?_⟩
  · rw [Function.update_of_ne]
    · exact h.head
    · rintro rfl
      exact hhome start_mem_logArea
  · rw [logged_congr h.listed.length_le hlog, applyWrites_update (by rwa [logged_fst])]
    exact h.home b' hb'

/-- The header is written: from then on, what is logged counts. -/
theorem writeHead (hl : Listed start lh) (x : Block)
    (hlog : ∀ i b, lh[i]? = some b → disk (logBlock start i) = T b)
    (hhome : ∀ b ∉ logArea start, b ∉ lh → disk b = T b) :
    Redo start (Function.update disk start (encodeHead lh x)) T lh := by
  refine ⟨?_, hl, fun b hb => ?_⟩
  · rw [Function.update_self, decodeHead_encodeHead hl.length_le]
  · have hdisk : logged start (Function.update disk start (encodeHead lh x)) lh =
        logged start disk lh :=
      logged_congr hl.length_le fun i hi => Function.update_of_ne (logBlock_ne_start hi) ..
    have hne : b ≠ start := fun heq => hb (heq ▸ start_mem_logArea)
    rw [hdisk]
    by_cases hmem : b ∈ lh
    · obtain ⟨i, hi⟩ := List.mem_iff_getElem?.1 hmem
      rw [applyWrites_of_mem (by rw [logged_fst]; exact hl.nodup) (mem_logged hi), hlog i b hi]
    · rw [applyWrites_of_notMem (by rwa [logged_fst]), Function.update_of_ne hne]
      exact hhome b hb hmem

end Redo

/-! ## The buffers -/

/-- The buffers of all blocks but the ones in `dirty` have the contents of the disk, and those are
not recycled. -/
structure Buffers (bio : Bio) (dirty : List BlockNo) : Prop where
  coherent : ∀ b ∉ dirty, bio.data b = bio.disk b
  pinned : ∀ b ∈ dirty, 0 < bio.refcnt b

/-- What is still to be installed, and not on the disk yet. -/
def pending (recovering : Bool) (lh : List BlockNo) (tail : ℕ) : List BlockNo :=
  if recovering then [] else lh.drop tail

theorem Buffers.bread {bio : Bio} {dirty : List BlockNo} (h : Buffers bio dirty) (b : BlockNo) :
    Buffers (bio.bread b) dirty := by
  refine ⟨fun b' hb' => ?_, h.pinned⟩
  rw [Bio.bread_data, h.coherent b' hb', Bio.bread_disk]

theorem Buffers.bwrite {bio : Bio} {dirty : List BlockNo} (h : Buffers bio dirty) (b : BlockNo)
    (d : Block) : Buffers (bio.bwrite b d) dirty := by
  refine ⟨fun b' hb' => ?_, h.pinned⟩
  rw [Bio.bwrite_data, Bio.bwrite_disk, h.coherent b' hb']

/-! ## The invariant -/

/-- The invariant: `T` is the result of the committed transactions, and `cur` are the writes of the
current one. -/
inductive CrashOk (start : BlockNo) (T : BlockNo → Block) :
    List (BlockNo × Block) → State → Prop
  | boot {bio lh l} (hr : Redo start bio.disk T l) (hb : Buffers bio []) :
      CrashOk start T [] ⟨bio, lh, .boot⟩
  | idle {cur bio lh} (hr : Redo start bio.disk T []) (hl : Listed start lh) (hb : Buffers bio lh)
      (hview : ∀ b ∉ logArea start, bio.data b = applyWrites cur T b) :
      CrashOk start T cur ⟨bio, lh, .idle⟩
  | writeLog {cur bio lh tail} (hr : Redo start bio.disk T []) (hl : Listed start lh)
      (hb : Buffers bio lh) (hview : ∀ b ∉ logArea start, bio.data b = applyWrites cur T b)
      (hlog : ∀ i < tail, ∀ b, lh[i]? = some b → bio.disk (logBlock start i) = bio.data b) :
      CrashOk start T cur ⟨bio, lh, .writeLog tail⟩
  | install {bio lh recovering tail} (hr : Redo start bio.disk T lh)
      (hb : Buffers bio (pending recovering lh tail))
      (hdone : ∀ b ∉ logArea start, b ∉ lh.drop tail → bio.disk b = T b) :
      CrashOk start T [] ⟨bio, lh, .install recovering tail⟩

namespace CrashOk

variable {T : BlockNo → Block} {cur : List (BlockNo × Block)} {bio : Bio} {lh : List BlockNo}
  {tail : ℕ} {b : BlockNo}

/-- A change of the cache that no `bread` can see keeps the invariant. -/
theorem of_data {bio' : Bio} {pc : Pc} (h : CrashOk start T cur ⟨bio, lh, pc⟩)
    (hdisk : bio'.disk = bio.disk)
    (hbuf : ∀ dirty, Buffers bio dirty →
      Buffers bio' dirty ∧ ∀ b, bio'.data b = bio.data b) :
    CrashOk start T cur ⟨bio', lh, pc⟩ := by
  cases h with
  | boot hr hb => exact .boot (hdisk ▸ hr) (hbuf _ hb).1
  | idle hr hl hb hview =>
    obtain ⟨hb', hdata⟩ := hbuf _ hb
    exact .idle (hdisk ▸ hr) hl hb' fun b hbh => (hdata b).trans (hview b hbh)
  | writeLog hr hl hb hview hlog =>
    obtain ⟨hb', hdata⟩ := hbuf _ hb
    refine .writeLog (hdisk ▸ hr) hl hb' (fun b hbh => (hdata b).trans (hview b hbh)) ?_
    intro i hi b hib
    rw [hdisk, hdata, hlog i hi b hib]
  | install hr hb hdone => exact .install (hdisk ▸ hr) (hbuf _ hb).1 (hdisk ▸ hdone)

theorem bread {pc : Pc} (h : CrashOk start T cur ⟨bio, lh, pc⟩) (b : BlockNo) :
    CrashOk start T cur ⟨bio.bread b, lh, pc⟩ := by
  exact h.of_data rfl fun dirty hb => ⟨hb.bread b, fun b' => Bio.bread_data⟩

/-- A buffer that can be recycled has the contents of the disk. -/
theorem recycle {pc : Pc} (h : CrashOk start T cur ⟨bio, lh, pc⟩) (hb : bio.refcnt b = 0) :
    CrashOk start T cur ⟨bio.recycle b, lh, pc⟩ := by
  refine h.of_data rfl fun dirty hbuf => ?_
  have hdirty : b ∉ dirty := fun hd => absurd hb (hbuf.pinned b hd).ne'
  have hdata : ∀ b', (bio.recycle b).data b' = bio.data b' := by
    intro b'
    by_cases hbb : b' = b
    · rw [hbb, Bio.recycle_data_self, hbuf.coherent b hdirty]
    · exact Bio.recycle_data hbb
  exact ⟨⟨fun b' hb' => (hdata b').trans (hbuf.coherent b' hb'), hbuf.pinned⟩, hdata⟩

theorem write (h : CrashOk start T cur ⟨bio, lh, .idle⟩) (hb : b ∉ logArea start)
    (hn : lh.length < LOGBLOCKS) (d : Block) :
    CrashOk start T (cur ++ [(b, d)])
      ⟨(logWrite b lh ((bio.bread b).modify b d)).2,
        (logWrite b lh ((bio.bread b).modify b d)).1, .idle⟩ := by
  cases h with
  | idle hr hl hbuf hview =>
    have hdata : ∀ b', ((bio.bread b).modify b d).data b' = if b' = b then d else bio.data b' := by
      intro b'
      rw [Bio.modify_data, Bio.bread_data]
    have hview' : ∀ b' ∉ logArea start, ((bio.bread b).modify b d).data b' =
        applyWrites (cur ++ [(b, d)]) T b' := by
      intro b' hb'
      rw [applyWrites_append, applyWrites_cons, applyWrites_nil, Function.update_apply, hdata,
        hview b' hb']
    have hl' := hl.logWrite hb hn ((bio.bread b).modify b d)
    unfold logWrite at hl' ⊢
    split_ifs at hl' ⊢ with hmem
    · refine .idle hr hl ⟨fun b' hb' => ?_, hbuf.pinned⟩ hview'
      have hne : b' ≠ b := fun heq => hb' (heq ▸ hmem)
      rw [hdata, if_neg hne]
      exact hbuf.coherent b' hb'
    · refine .idle hr hl' ⟨fun b' hb' => ?_, fun b' hb' => ?_⟩ hview'
      · rw [List.mem_append, not_or, List.mem_singleton] at hb'
        rw [Bio.bpin_data, hdata, if_neg hb'.2]
        exact hbuf.coherent b' hb'.1
      · by_cases hbb : b' = b
        · rw [hbb, Bio.bpin]
          simp
        · have hlh : b' ∈ lh := by simpa [hbb] using hb'
          have hpin : 0 < (bio.bread b).refcnt b' := hbuf.pinned b' hlh
          simpa [Bio.bpin, Bio.modify, Function.update_of_ne hbb] using hpin

theorem commit (h : CrashOk start T cur ⟨bio, lh, .idle⟩) :
    CrashOk start T cur ⟨bio, lh, .writeLog 0⟩ := by
  cases h with
  | idle hr hl hbuf hview => exact .writeLog hr hl hbuf hview fun i hi => absurd hi (Nat.not_lt_zero i)

theorem writeLog_step (h : CrashOk start T cur ⟨bio, lh, .writeLog tail⟩)
    (hb : lh[tail]? = some b) :
    CrashOk start T cur ⟨Log.writeLog start tail b bio, lh, .writeLog (tail + 1)⟩ := by
  cases h with
  | writeLog hr hl hbuf hview hlog =>
    have htail := hl.lt hb
    -- a home block is not a log block
    have hdata : ∀ b' ∉ logArea start,
        (Log.writeLog start tail b bio).data b' = bio.data b' := by
      intro b' hb'
      rw [writeLog_data, if_neg]
      rintro rfl
      exact hb' (logBlock_mem_logArea htail)
    refine .writeLog ?_ hl (((hbuf.bread _).bread _).bwrite _ _) (fun b' hb' => ?_)
      fun i hi b' hib => ?_
    · rw [writeLog_disk]
      exact hr.append htail _
    · rw [hdata b' hb']
      exact hview b' hb'
    · have hhome := hl.home b' (List.mem_of_getElem? hib)
      rw [hdata b' hhome, writeLog_disk]
      rcases Nat.lt_succ_iff_lt_or_eq.1 hi with hi | rfl
      · rw [Function.update_of_ne]
        · exact hlog i hi b' hib
        · intro heq
          have := logBlock_injective (hl.lt hib) htail heq
          omega
      · rw [Function.update_self]
        obtain rfl := Option.some_inj.1 (hb.symm.trans hib)
        rfl

/-- The header of a transaction reaches the disk. -/
theorem writeHead (h : CrashOk start T cur ⟨bio, lh, .writeLog lh.length⟩) :
    CrashOk start (applyWrites cur T) [] ⟨Log.writeHead start lh bio, lh, .install false 0⟩ := by
  cases h with
  | writeLog hr hl hbuf hview hlog =>
    have hhome : ∀ b ∉ logArea start, b ∉ lh → bio.disk b = applyWrites cur T b := by
      intro b hb hlh
      rw [← hbuf.coherent b hlh, hview b hb]
    refine .install ?_ ((hbuf.bread _).bwrite _ _) fun b hb hdrop => ?_
    · rw [writeHead_disk]
      refine Redo.writeHead hl _ (fun i b hib => ?_) hhome
      rw [hlog i (List.getElem?_eq_some_iff.1 hib).1 b hib]
      exact hview b (hl.home b (List.mem_of_getElem? hib))
    · rw [writeHead_disk, Function.update_of_ne]
      · exact hhome b hb hdrop
      · rintro rfl
        exact hb start_mem_logArea

theorem install_step {recovering : Bool}
    (h : CrashOk start T cur ⟨bio, lh, .install recovering tail⟩) (hb : lh[tail]? = some b) :
    CrashOk start T cur
      ⟨installTrans start recovering tail b bio, lh, .install recovering (tail + 1)⟩ := by
  cases h with
  | install hr hbuf hdone =>
    have hmem := List.mem_of_getElem? hb
    have hdrop := drop_eq_cons hb
    have hnodup : b ∉ lh.drop (tail + 1) := by
      have := hr.listed.nodup.sublist (List.drop_sublist tail lh)
      rw [hdrop] at this
      exact (List.nodup_cons.1 this).1
    -- the log block has the contents of the disk
    have hlog : bio.data (logBlock start tail) = T b := by
      rw [hbuf.coherent]
      · exact hr.logBlock_eq hb
      · intro hp
        refine hr.listed.home _ ?_ (logBlock_mem_logArea (hr.listed.lt hb))
        unfold pending at hp
        split_ifs at hp
        · cases hp
        · exact List.mem_of_mem_drop hp
    refine .install ?_ ⟨fun b' hb' => ?_, fun b' hb' => ?_⟩ fun b' hb' hnot => ?_
    · rw [installTrans_disk]
      exact hr.install hmem _
    · rw [installTrans_data, installTrans_disk, Function.update_apply]
      split_ifs with hbb
      · rfl
      · refine hbuf.coherent b' fun hp => hb' ?_
        unfold pending at hp ⊢
        split_ifs at hp ⊢
        · cases hp
        · rw [hdrop] at hp
          exact (List.mem_cons.1 hp).resolve_left hbb
    · unfold pending at hb'
      split_ifs at hb' with hrec
      · cases hb'
      · have hne : b' ≠ b := fun heq => hnodup (heq ▸ hb')
        rw [installTrans_refcnt hne]
        refine hbuf.pinned b' ?_
        rw [pending, if_neg hrec, hdrop]
        exact List.mem_cons_of_mem _ hb'
    · rw [installTrans_disk, Function.update_apply]
      split_ifs with hbb
      · rw [hlog, hbb]
      · refine hdone b' hb' ?_
        rw [hdrop, List.mem_cons, not_or]
        exact ⟨hbb, hnot⟩

/-- The header is cleared: the home blocks are up to date. -/
theorem clear {recovering : Bool}
    (h : CrashOk start T cur ⟨bio, lh, .install recovering lh.length⟩) :
    CrashOk start T cur ⟨Log.writeHead start [] bio, [], .idle⟩ := by
  cases h with
  | install hr hbuf hdone =>
    have hclean : Buffers bio [] := by
      have hpend : pending recovering lh lh.length = [] := by
        unfold pending
        split_ifs
        · rfl
        · exact List.drop_length
      rwa [hpend] at hbuf
    have hhome : ∀ b ∉ logArea start, bio.disk b = T b := fun b hb =>
      hdone b hb (by simp)
    refine .idle ?_ Listed.nil ((hclean.bread _).bwrite _ _) fun b hb => ?_
    · rw [writeHead_disk]
      exact Redo.writeHead Listed.nil _ (by simp) fun b hb _ => hhome b hb
    · have hne : b ≠ start := fun heq => hb (heq ▸ start_mem_logArea)
      rw [writeHead_data, if_neg hne,
        hclean.coherent b (by simp)]
      exact hhome b hb

theorem crash {pc : Pc} (h : CrashOk start T cur ⟨bio, lh, pc⟩) :
    CrashOk start T [] ⟨bio.crash, [], .boot⟩ := by
  have hbuf : Buffers bio.crash [] := ⟨fun b _ => Bio.crash_data, fun b hb => by cases hb⟩
  cases h with
  | boot hr | idle hr | writeLog hr | install hr => exact .boot hr hbuf

theorem recover {lh' : List BlockNo} (h : CrashOk start T cur ⟨bio, lh, .boot⟩)
    (hhead : decodeHead (bio.data start) = some lh') :
    CrashOk start T cur ⟨bio.bread start, lh', .install true 0⟩ := by
  cases h with
  | boot hr hbuf =>
    rw [hbuf.coherent start (by simp), hr.head] at hhead
    cases hhead
    exact .install hr (hbuf.bread start) fun b hb hlh => hr.home_of_notMem hb hlh

theorem redo_idle (h : CrashOk start T cur ⟨bio, lh, .idle⟩) : Redo start bio.disk T [] := by
  cases h with
  | idle hr => exact hr

theorem head_boot (h : CrashOk start T cur ⟨bio, lh, .boot⟩) :
    ∃ l, decodeHead (bio.data start) = some l := by
  cases h with
  | @boot _ _ l hr hbuf => exact ⟨l, by rw [hbuf.coherent start (by simp), hr.head]⟩

theorem step {d₀ : BlockNo → Block} {hist : List Event} {s s' : State} {e : Event}
    (h : CrashOk start (target d₀ hist) (current hist) s) (t : Step start s e s') :
    CrashOk start (target d₀ (e :: hist)) (current (e :: hist)) s' := by
  cases t with
  | bread b => exact h.bread b
  | recycle hb => exact h.recycle hb
  | write hb hn => exact h.write hb hn _
  | commit => exact h.commit
  | writeLog hb => exact h.writeLog_step hb
  | writeHead =>
    have htarget : target d₀ (.commit :: hist) = applyWrites (current hist) (target d₀ hist) := by
      rw [target, committed, List.flatten_append, applyWrites_append]
      simp [target]
    rw [htarget]
    exact h.writeHead
  | install hb => exact h.install_step hb
  | @clear _ _ recovering => cases recovering <;> exact h.clear
  | crash => exact h.crash
  | recover hhead => exact h.recover hhead

end CrashOk

/-! ## Every run -/

theorem decodeHead_of_zero {d : Block} (h : d 0 = 0) : decodeHead d = some [] := by
  rw [decodeHead, h]
  rfl

theorem encodeHead_nil (b : Block) : encodeHead [] b 0 = 0 := rfl

theorem crashOk_of_run {d₀ : BlockNo → Block} (hd : d₀ start 0 = 0) {hist : List Event} {s : State}
    (r : (system start d₀).Run hist s) : CrashOk start (target d₀ hist) (current hist) s := by
  refine LTS.Run.invariant (I := fun hist s => CrashOk start (target d₀ hist) (current hist) s)
    (fun s hs => ?_) (fun hist s e s' _ h t => h.step t) r
  obtain ⟨bio, lh, pc⟩ := s
  obtain ⟨rfl, hcache, rfl⟩ := hs
  refine .boot (l := []) ⟨decodeHead_of_zero hd, Listed.nil, fun b _ => rfl⟩ ⟨fun b _ => ?_, nofun⟩
  rw [Bio.data, hcache b, Option.getD_none]

theorem Step.eq_of_recovered {s s' : State} {e : Event} (t : Step start s e s')
    (he : e = .recovered) : ∃ bio, s' = ⟨Log.writeHead start [] bio, [], .idle⟩ := by
  cases t with
  | clear => exact ⟨_, rfl⟩
  | bread | recycle | write | commit | writeLog | writeHead | install | crash | recover => cases he

/-- The rounds of `install_trans` and the clearing of the header, without a crash in between. -/
theorem install_completes (d₀ : BlockNo → Block) {lh : List BlockNo} (n : ℕ) :
    ∀ (bio : Bio) (tail : ℕ), tail + n = lh.length →
      ∃ s', (system start d₀).Within (fun _ => True) ⟨bio, lh, .install true tail⟩
        (.recovered :: List.replicate n .tau) s' := by
  induction n with
  | zero =>
    intro bio tail htail
    obtain rfl : tail = lh.length := htail
    have hclear : Step start ⟨bio, lh, .install true lh.length⟩ .recovered _ := .clear
    exact ⟨_, .step (.refl trivial) hclear trivial⟩
  | succ n ih =>
    intro bio tail htail
    have hlt : tail < lh.length := by omega
    have hround : (system start d₀).Within (fun _ => True) ⟨bio, lh, .install true tail⟩ [.tau]
        ⟨installTrans start true tail lh[tail] bio, lh, .install true (tail + 1)⟩ :=
      .step (.refl trivial) (.install (List.getElem?_eq_getElem hlt)) trivial
    obtain ⟨s', hrest⟩ := ih (installTrans start true tail lh[tail] bio) (tail + 1) (by omega)
    refine ⟨s', ?_⟩
    have hpath := hround.append hrest
    rwa [List.cons_append, ← List.replicate_succ'] at hpath

/-- **Crash atomicity.** When `recover_from_log` is done, every home block is that of the initial
disk after the committed transactions, in order, and the header on the disk is empty; and after
every crash, `recover_from_log` comes to its end unless there is another crash. -/
theorem crash_atomicity {d₀ : BlockNo → Block} (hd : d₀ start 0 = 0) {hist : List Event}
    {s : State} (r : (system start d₀).Run hist s) :
    (∀ s', Step start s .recovered s' →
      (∀ b ∉ logArea start, s'.bio.disk b = target d₀ hist b) ∧ s'.bio.disk start 0 = 0) ∧
    (s.pc = .boot → ∃ n s', (system start d₀).Within (fun _ => True) s
      (.recovered :: List.replicate n .tau) s') := by
  have h := crashOk_of_run hd r
  refine ⟨fun s' t => ?_, fun hpc => ?_⟩
  · obtain ⟨bio, rfl⟩ := t.eq_of_recovered rfl
    have hr : Redo start _ (target d₀ hist) [] := (h.step t).redo_idle
    refine ⟨fun b hb => hr.home_nil hb, ?_⟩
    rw [writeHead_disk, Function.update_self, encodeHead_nil]
  · obtain ⟨bio, lh, pc⟩ := s
    obtain rfl : pc = .boot := hpc
    obtain ⟨l, hhead⟩ := h.head_boot
    obtain ⟨s', hrest⟩ := install_completes d₀ l.length (bio.bread start) 0
      (Nat.zero_add l.length)
    have hread : (system start d₀).Within (fun _ => True) ⟨bio, lh, .boot⟩ [.tau]
        ⟨bio.bread start, l, .install true 0⟩ := .step (.refl trivial) (.recover hhead) trivial
    refine ⟨l.length + 1, s', ?_⟩
    have hpath := hread.append hrest
    rwa [List.cons_append, ← List.replicate_succ'] at hpath

/-- A transaction that writes block 100, a crash right after its commit, and the recovery. -/
theorem crash_atomicity_of_commit :
    ∃ s s', (system 2 fun _ _ => 0).Run
        [.tau, .tau, .crash, .commit, .tau, .tau, .write 100 (fun _ => 7), .recovered, .tau] s ∧
      Step 2 s .recovered s' ∧ s'.bio.disk 100 = fun _ => 7 := by
  let bio : Bio := ⟨fun _ _ => 0, fun _ => none, fun _ => 0⟩
  have hhome : (100 : BlockNo) ∉ logArea 2 := by decide
  have t₁ : Step 2 ⟨bio, [], .boot⟩ .tau ⟨bio.bread 2, [], .install true 0⟩ := .recover rfl
  have r₁ : (system 2 fun _ _ => 0).Run [.recovered, .tau] ⟨writeHead 2 [] (bio.bread 2), [], .idle⟩ :=
    .step (.step (.init ⟨rfl, fun _ => rfl, rfl⟩) t₁) (@Step.clear 2 (bio.bread 2) [] true)
  have r₂ := r₁.step (Step.write (d := fun _ => 7) hhome (by decide))
  have r₃ := (r₂.step (Step.commit (by decide))).step (Step.writeLog rfl)
  have r₄ := (r₃.step Step.writeHead).step Step.crash
  have r₅ := (r₄.step (Step.recover (decodeHead_encodeHead (by decide) _))).step (Step.install rfl)
  refine ⟨_, _, r₅, @Step.clear 2 _ _ true, ?_⟩
  exact ((crash_atomicity rfl r₅).1 _ (@Step.clear 2 _ _ true)).1 100 hhome

end Xv6.Log.Crash
