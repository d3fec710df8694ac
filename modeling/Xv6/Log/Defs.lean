import Xv6.Foundations.Writes
import Mathlib.Data.List.Range
import Mathlib.Data.BitVec
import Mathlib.Data.Set.Basic

/-!
# The redo log

The buffer cache of `bio.c` and the functions of `log.c` on it. A block is its 256 words, so that
the header block can be read and written as the source does, word by word. `Bio.data b` is what
`bread` of the block `b` returns: the contents of its buffer if there is one, and the disk's
otherwise. A buffer can be recycled when its `refcnt` is 0.

The in-memory header `log.lh` is a list of block numbers, `log.lh.block[0..log.lh.n)`. Each of the
loops' rounds ends with the one disk write that it makes.
-/

namespace Xv6.Log

/-- `MAXOPBLOCKS` of param.h. -/
def MAXOPBLOCKS : ℕ := 10

/-- `LOGBLOCKS` of param.h. -/
def LOGBLOCKS : ℕ := MAXOPBLOCKS * 3

/-- A block number, a `uint`. -/
abbrev BlockNo := BitVec 32

instance : LawfulBEq BlockNo := inferInstance

/-- A block: `BSIZE` bytes, as words. -/
abbrev Block := Fin 256 → BitVec 32

/-! ## The buffer cache -/

/-- The disk, and of the buffer cache the valid buffers and the reference counts. -/
structure Bio where
  disk : BlockNo → Block
  cache : BlockNo → Option Block
  refcnt : BlockNo → ℕ

namespace Bio

variable (s : Bio) (b : BlockNo)

/-- What a buffer of `b` contains when `bread` returns it. -/
def data : Block := (s.cache b).getD (s.disk b)

/-- `bread` makes the buffer valid. -/
def bread : Bio := { s with cache := Function.update s.cache b (some (s.data b)) }

/-- The contents of the buffer change. -/
def modify (d : Block) : Bio := { s with cache := Function.update s.cache b (some d) }

/-- The contents of the buffer change, and `bwrite` writes them to the disk. -/
def bwrite (d : Block) : Bio :=
  { s with disk := Function.update s.disk b d, cache := Function.update s.cache b (some d) }

/-- `bpin` -/
def bpin : Bio := { s with refcnt := Function.update s.refcnt b (s.refcnt b + 1) }

/-- `bunpin` -/
def bunpin : Bio := { s with refcnt := Function.update s.refcnt b (s.refcnt b - 1) }

/-- `bget` takes the buffer of `b` for another block. -/
def recycle : Bio := { s with cache := Function.update s.cache b none }

/-- The power fails: only the disk stays. -/
def crash : Bio where
  disk := s.disk
  cache _ := none
  refcnt _ := 0

end Bio

/-! ## The header -/

/-- The on-disk header block with the header `lh`: `hb->n` and `hb->block[0..n)` change, the other
words do not. -/
def encodeHead (lh : List BlockNo) (b : Block) : Block := fun i =>
  if i = 0 then BitVec.ofNat 32 lh.length else (lh[i.val - 1]?).getD (b i)

/-- The header in a block; `none` when its `n` is too large for `log.lh.block`. -/
def decodeHead (b : Block) : Option (List BlockNo) :=
  if (b 0).toInt ≤ LOGBLOCKS then
    some ((List.range (b 0).toInt.toNat).map fun i => b (Fin.ofNat 256 (i + 1)))
  else none

/-! ## The functions of log.c -/

/-- `log.start + tail + 1` -/
def logBlock (start : BlockNo) (tail : ℕ) : BlockNo := start + BitVec.ofNat 32 (tail + 1)

/-- The header and the log blocks. -/
def logArea (start : BlockNo) : Set BlockNo := {b | (b - start).toNat ≤ LOGBLOCKS}

instance (start : BlockNo) : DecidablePred (· ∈ logArea start) := fun b =>
  inferInstanceAs (Decidable ((b - start).toNat ≤ LOGBLOCKS))

/-- A header that can be in memory or on the disk: it lists home blocks, each once. -/
structure Listed (start : BlockNo) (lh : List BlockNo) : Prop where
  nodup : lh.Nodup
  length_le : lh.length ≤ LOGBLOCKS
  home : ∀ b ∈ lh, b ∉ logArea start

/-- `log_write(b)` after the check of `log.lh.n`: a block that is not in the log yet is added and
pinned. -/
def logWrite (b : BlockNo) (lh : List BlockNo) (s : Bio) : List BlockNo × Bio :=
  if b ∈ lh then (lh, s) else (lh ++ [b], s.bpin b)

/-- A round of `write_log`: the block `b` is `log.lh.block[tail]`. -/
def writeLog (start : BlockNo) (tail : ℕ) (b : BlockNo) (s : Bio) : Bio :=
  let dst := logBlock start tail
  ((s.bread dst).bread b).bwrite dst (s.data b)

/-- `write_head` -/
def writeHead (start : BlockNo) (lh : List BlockNo) (s : Bio) : Bio :=
  (s.bread start).bwrite start (encodeHead lh (s.data start))

/-- A round of `install_trans`: the block `b` is `log.lh.block[tail]`. -/
def installTrans (start : BlockNo) (recovering : Bool) (tail : ℕ) (b : BlockNo) (s : Bio) : Bio :=
  let lbuf := logBlock start tail
  let s' := ((s.bread lbuf).bread b).bwrite b (s.data lbuf)
  if recovering then s' else s'.bunpin b

/-! ## What they do to the contents of the blocks -/

variable {s : Bio} {b b' : BlockNo} {d : Block}

namespace Bio

@[simp] theorem bread_disk : (s.bread b).disk = s.disk := rfl

@[simp] theorem bread_data : (s.bread b).data b' = s.data b' := by
  unfold bread data
  by_cases h : b' = b
  · simp [h]
  · simp [Function.update_of_ne h]

theorem modify_data : (s.modify b d).data b' = if b' = b then d else s.data b' := by
  unfold modify data
  by_cases h : b' = b
  · simp [h]
  · simp [h]

theorem bwrite_data : (s.bwrite b d).data b' = if b' = b then d else s.data b' := by
  unfold bwrite data
  by_cases h : b' = b
  · simp [h]
  · simp [h]

theorem bwrite_disk : (s.bwrite b d).disk b' = if b' = b then d else s.disk b' :=
  Function.update_apply ..

@[simp] theorem bpin_data : (s.bpin b).data b' = s.data b' := rfl

@[simp] theorem bunpin_data : (s.bunpin b).data b' = s.data b' := rfl

theorem bpin_refcnt :
    (s.bpin b).refcnt b' = if b' = b then s.refcnt b + 1 else s.refcnt b' :=
  Function.update_apply ..

theorem bunpin_refcnt :
    (s.bunpin b).refcnt b' = if b' = b then s.refcnt b - 1 else s.refcnt b' :=
  Function.update_apply ..

theorem recycle_data (h : b' ≠ b) : (s.recycle b).data b' = s.data b' := by
  unfold recycle data
  simp [h]

theorem recycle_data_self : (s.recycle b).data b = s.disk b := by
  simp [recycle, data]

@[simp] theorem crash_data : s.crash.data b = s.disk b := rfl

end Bio

section Rounds

variable {start : BlockNo} {tail : ℕ} {recovering : Bool} {lh : List BlockNo}

theorem writeLog_disk :
    (writeLog start tail b s).disk = Function.update s.disk (logBlock start tail) (s.data b) := rfl

theorem writeLog_data :
    (writeLog start tail b s).data b' = if b' = logBlock start tail then s.data b else s.data b' := by
  rw [writeLog, Bio.bwrite_data, Bio.bread_data, Bio.bread_data]

theorem writeHead_disk :
    (writeHead start lh s).disk =
      Function.update s.disk start (encodeHead lh (s.data start)) := rfl

theorem writeHead_data :
    (writeHead start lh s).data b =
      if b = start then encodeHead lh (s.data start) else s.data b := by
  rw [writeHead, Bio.bwrite_data, Bio.bread_data]

theorem installTrans_disk :
    (installTrans start recovering tail b s).disk =
      Function.update s.disk b (s.data (logBlock start tail)) := by
  cases recovering <;> rfl

theorem installTrans_data :
    (installTrans start recovering tail b s).data b' =
      if b' = b then s.data (logBlock start tail) else s.data b' := by
  cases recovering
  · rw [installTrans, if_neg Bool.false_ne_true, Bio.bunpin_data, Bio.bwrite_data, Bio.bread_data,
      Bio.bread_data]
  · rw [installTrans, if_pos rfl, Bio.bwrite_data, Bio.bread_data, Bio.bread_data]

theorem installTrans_refcnt (h : b' ≠ b) :
    (installTrans start recovering tail b s).refcnt b' = s.refcnt b' := by
  cases recovering
  · exact Function.update_of_ne h ..
  · rfl

theorem installTrans_refcnt_self :
    (installTrans start false tail b s).refcnt b = s.refcnt b - 1 :=
  Function.update_self ..

end Rounds

/-- The header that was written is the header that is read. -/
theorem decodeHead_encodeHead {lh : List BlockNo} (h : lh.length ≤ LOGBLOCKS) (b : Block) :
    decodeHead (encodeHead lh b) = some lh := by
  have hn : (encodeHead lh b 0).toInt = lh.length := by
    have hlen : lh.length ≤ 30 := h
    rw [encodeHead, if_pos rfl, BitVec.toInt_eq_toNat_of_lt] <;> rw [BitVec.toNat_ofNat] <;> omega
  unfold decodeHead
  rw [hn, if_pos (by exact_mod_cast h), Int.toNat_natCast]
  congr 1
  refine List.ext_getElem (by simp) fun i hi hi' => ?_
  have hi30 : i < 30 := lt_of_lt_of_le hi' h
  have hval : (Fin.ofNat 256 (i + 1)).val = i + 1 := Nat.mod_eq_of_lt (by omega)
  rw [List.getElem_map, List.getElem_range, encodeHead, if_neg, hval, Nat.add_sub_cancel,
    List.getElem?_eq_getElem hi', Option.getD_some]
  intro h0
  rw [Fin.ext_iff, hval] at h0
  exact absurd h0 (by simp)

/-! ## The log area -/

section LogArea

variable {start : BlockNo} {lh : List BlockNo} {i j : ℕ}

theorem start_mem_logArea : start ∈ logArea start := by
  rw [logArea, Set.mem_ofPred_eq, BitVec.sub_self]
  exact Nat.zero_le _

theorem logBlock_sub (h : i < LOGBLOCKS) : (logBlock start i - start).toNat = i + 1 := by
  have h30 : i < 30 := h
  rw [logBlock, BitVec.add_comm, BitVec.add_sub_cancel, BitVec.toNat_ofNat]
  omega

theorem logBlock_mem_logArea (h : i < LOGBLOCKS) : logBlock start i ∈ logArea start := by
  rw [logArea, Set.mem_ofPred_eq, logBlock_sub h]
  exact h

theorem logBlock_ne_start (h : i < LOGBLOCKS) : logBlock start i ≠ start := by
  intro heq
  have hsub : (logBlock start i - start).toNat = i + 1 := logBlock_sub h
  rw [heq, BitVec.sub_self] at hsub
  exact absurd hsub.symm (Nat.succ_ne_zero i)

/-- The log blocks are different ones, also when their numbers wrap. -/
theorem logBlock_injective (hi : i < LOGBLOCKS) (hj : j < LOGBLOCKS)
    (h : logBlock start i = logBlock start j) : i = j := by
  have hsub : (logBlock start i - start).toNat = i + 1 := logBlock_sub hi
  rw [h, logBlock_sub hj] at hsub
  omega

theorem Listed.nil : Listed start [] := ⟨List.nodup_nil, Nat.zero_le _, by simp⟩

theorem Listed.lt (h : Listed start lh) {b : BlockNo} (hb : lh[i]? = some b) : i < LOGBLOCKS :=
  lt_of_lt_of_le (List.getElem?_eq_some_iff.1 hb).1 h.length_le

theorem length_le_logWrite (b : BlockNo) (lh : List BlockNo) (s : Bio) :
    lh.length ≤ (logWrite b lh s).1.length := by
  unfold logWrite
  split_ifs <;> simp

/-- The list from a place on. -/
theorem drop_eq_cons {b : BlockNo} (hb : lh[i]? = some b) : lh.drop i = b :: lh.drop (i + 1) := by
  obtain ⟨hlt, rfl⟩ := List.getElem?_eq_some_iff.1 hb
  exact List.drop_eq_getElem_cons hlt

/-- `log_write` keeps the header well-formed while there is room. -/
theorem Listed.logWrite (h : Listed start lh) {b : BlockNo} (hb : b ∉ logArea start)
    (hn : lh.length < LOGBLOCKS) (s : Bio) : Listed start (Log.logWrite b lh s).1 := by
  unfold Log.logWrite
  split_ifs with hmem
  · exact h
  · refine ⟨?_, ?_, ?_⟩
    · exact h.nodup.append (List.nodup_singleton b) (by simpa using hmem)
    · rw [List.length_append]
      exact hn
    · intro b' hb'
      rcases List.mem_append.1 hb' with hb' | hb'
      · exact h.home b' hb'
      · rwa [List.mem_singleton.1 hb']

end LogArea

end Xv6.Log
