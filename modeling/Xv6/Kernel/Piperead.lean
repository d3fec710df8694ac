import Mathlib.Logic.Relation
import Xv6.Kernel.Ipc

/-!
# The bytes that piperead takes out

`piperead` takes a byte out of the ring before it knows whether it can be copied to user space. One
call is `Piperead`: it waits, while other processes change the pipe, and then copies with `pi->lock`
held (`readCopy`). A byte that cannot be copied is lost, and this is the only way in which bytes are
lost (`piperead_loses_nothing_iff`).
-/

namespace Xv6.Kernel

/-- The bytes in the ring of the pipe, the first one first. -/
abbrev PipeHistory.bytes (d : PipeHistory) : List UInt8 := d.pipe.ring.contents

/-- The loop of `piperead` that copies, from `i` on; `ok i` says whether the `i`-th byte can be
copied out. The result is `i`, and the bytes that have been copied out. -/
def readCopy (ok : ℕ → Bool) (n : ℤ) (i : ℕ) (d : PipeHistory) : ℕ × List UInt8 × PipeHistory :=
  if (i : ℤ) < n ∧ ¬d.pipe.Empty then
    if ok i then
      let c := readCopy ok n (i + 1) d.remove
      (c.1, d.pipe.ring.front :: c.2.1, c.2.2)
    else (i, [], d.remove)
  else (i, [], d)
termination_by (n - i).toNat

/-- A call of `piperead` that is over: the pipe when it has stopped waiting and when it returns,
what it returns, and the bytes that it has copied out. -/
structure ReadCall where
  before : PipeHistory
  result : ℤ
  stored : List UInt8
  after : PipeHistory

/-- `piperead` of `n` bytes, from the loop that waits on; `pi->lock` is held, except in `sleep`. -/
inductive Piperead (ok : ℕ → Bool) (n : ℤ) : PipeHistory → ReadCall → Prop
  | killed {d} (he : d.pipe.Empty) (hopen : d.pipe.writeopen = true) :
      Piperead ok n d ⟨d, -1, [], d⟩
  /-- `d₁` is what the others have left when `sleep` returns. -/
  | sleep {d d₁ c} (he : d.pipe.Empty) (hopen : d.pipe.writeopen = true)
      (h : Piperead ok n d₁ c) : Piperead ok n d c
  | copy {d} (h : ¬(d.pipe.Empty ∧ d.pipe.writeopen = true)) :
      Piperead ok n d
        ⟨d, (readCopy ok n 0 d).1, (readCopy ok n 0 d).2.1, (readCopy ok n 0 d).2.2⟩

/-- The bytes that have left the ring are those that were copied out and counted, and 0 stands for
the end of the file. -/
structure ReadCall.LosesNothing (c : ReadCall) : Prop where
  bytes : c.before.bytes = c.stored ++ c.after.bytes
  counted : c.stored.length = c.result.toNat
  zero : c.result = 0 → c.after.pipe.Empty ∧ c.after.pipe.writeopen = false

variable {N : ℕ} {ok : ℕ → Bool} {n : ℤ} {i : ℕ} {d : PipeHistory} {c : ReadCall}

/-! ## The loop -/

/-- The loop is a run of the program points of `Ipc`. -/
theorem readCopy_ipc (ok : ℕ → Bool) (n : ℤ) (i : ℕ) (d : PipeHistory) :
    Relation.ReflTransGen (fun x y : IpcPoint × PipeHistory =>
        Ipc x.1 x.2 y.2 [(.user y.1 : Instr N IpcPoint)])
      (.readCopy i n, d) (.readEnd (readCopy ok n i d).1, (readCopy ok n i d).2.2) := by
  fun_induction readCopy ok n i d with
  | case1 i d h hok c ih => exact .head (.readByte h.1 h.2) ih
  | case2 i d h hok => exact .single (.readFault h.1 h.2)
  | case3 i d h =>
    refine .single (.readDone ?_)
    by_cases hlt : (i : ℤ) < n
    · exact Or.inr (not_not.1 fun he => h ⟨hlt, he⟩)
    · exact Or.inl hlt

theorem bytes_eq_nil : d.bytes = [] ↔ d.pipe.Empty := by
  rw [← List.length_eq_zero_iff, Ring.length_contents]
  exact Ring.count_eq_zero

theorem bytes_remove (he : ¬d.pipe.Empty) : d.bytes = d.pipe.ring.front :: d.remove.bytes :=
  Ring.contents_pop fun h0 => he (Ring.count_eq_zero.1 h0)

/-- What the loop does, from `i` on: a byte is `lost` if one of those that it tries cannot be
copied. -/
structure Copied (ok : ℕ → Bool) (n : ℤ) (i : ℕ) (d : PipeHistory)
    (c : ℕ × List UInt8 × PipeHistory) (lost : List UInt8) : Prop where
  bytes : d.bytes = c.2.1 ++ (lost ++ c.2.2.bytes)
  counted : c.1 = i + c.2.1.length
  flags : c.2.2.pipe.writeopen = d.pipe.writeopen
  le : c.2.1.length ≤ min (n - i).toNat d.bytes.length
  lost_iff : lost = [] ↔ ∀ j < min (n - i).toNat d.bytes.length, ok (i + j) = true
  all : lost = [] → c.2.1.length = min (n - i).toNat d.bytes.length

theorem copied_readCopy (ok : ℕ → Bool) (n : ℤ) (i : ℕ) (d : PipeHistory) :
    ∃ lost, Copied ok n i d (readCopy ok n i d) lost := by
  fun_induction readCopy ok n i d with
  | case1 i d h hok c ih =>
    obtain ⟨lost, ih⟩ := ih
    have hbytes := bytes_remove h.2
    have hlen : d.bytes.length = d.remove.bytes.length + 1 := congrArg List.length hbytes
    have hi := h.1
    have hmin : min (n - i).toNat d.bytes.length =
        min (n - (i + 1 : ℕ)).toNat d.remove.bytes.length + 1 := by omega
    refine ⟨lost, ⟨?_, ?_, ih.flags, ?_, ?_, fun hl => ?_⟩⟩
    · rw [hbytes, ih.bytes]
      rfl
    · have hcount : c.1 = i + 1 + c.2.1.length := ih.counted
      rw [List.length_cons]
      omega
    · have hle : c.2.1.length ≤ _ := ih.le
      rw [List.length_cons, hmin]
      omega
    · rw [ih.lost_iff, hmin]
      constructor
      · intro hall j hj
        cases j with
        | zero => exact hok
        | succ j =>
          have hj' := hall j (by omega)
          rwa [Nat.add_assoc, Nat.add_comm 1 j] at hj'
      · intro hall j hj
        have hj' := hall (j + 1) (by omega)
        rwa [Nat.add_assoc, Nat.add_comm 1 j]
    · rw [List.length_cons, ih.all hl, hmin]
  | case2 i d h hok =>
    have hbytes := bytes_remove h.2
    have hlen : d.bytes.length = d.remove.bytes.length + 1 := congrArg List.length hbytes
    have hi := h.1
    refine ⟨[d.pipe.ring.front], ⟨hbytes, rfl, rfl, Nat.zero_le _, ⟨nofun, fun hall => ?_⟩, nofun⟩⟩
    exact (hok (hall 0 (by omega))).elim
  | case3 i d h =>
    have hmin : min (n - i).toNat d.bytes.length = 0 := by
      by_cases hlt : (i : ℤ) < n
      · have he : d.pipe.Empty := not_not.1 fun he => h ⟨hlt, he⟩
        rw [bytes_eq_nil.2 he, List.length_nil, Nat.min_zero]
      · omega
    refine ⟨[], ⟨rfl, rfl, rfl, Nat.zero_le _, ⟨fun _ j hj => ?_, fun _ => rfl⟩, fun _ => ?_⟩⟩
    · omega
    · rw [hmin]
      rfl

/-! ## The call -/

/-- A call never copies out more bytes than it was asked for, and it counts those. -/
theorem Piperead.le (h : Piperead ok n d c) :
    c.stored.length ≤ n.toNat ∧ c.stored.length = c.result.toNat := by
  induction h with
  | killed => exact ⟨Nat.zero_le _, rfl⟩
  | sleep _ _ _ ih => exact ih
  | @copy d hne =>
    obtain ⟨lost, hc⟩ := copied_readCopy ok n 0 d
    have hle := hc.le
    have hcount := hc.counted
    dsimp only
    omega

/-- **piperead loses nothing** if and only if none of the bytes that it tries to copy out fails. -/
theorem piperead_loses_nothing_iff (ok : ℕ → Bool) (n : ℤ) (hn : 0 < n) (d : PipeHistory)
    (c : ReadCall) (h : Piperead ok n d c) :
    c.LosesNothing ↔ ∀ j < min n.toNat c.before.bytes.length, ok j = true := by
  induction h with
  | @killed d he hopen =>
    have hnil := bytes_eq_nil.2 he
    refine ⟨fun _ j hj => ?_, fun _ => ⟨rfl, rfl, nofun⟩⟩
    rw [hnil, List.length_nil, Nat.min_zero] at hj
    exact (Nat.not_lt_zero j hj).elim
  | sleep _ _ _ ih => exact ih
  | @copy d hne =>
    obtain ⟨lost, hc⟩ := copied_readCopy ok n 0 d
    have hbytes := hc.bytes
    have hcount := hc.counted
    have hlost := hc.lost_iff
    simp only [Nat.zero_add, Nat.cast_zero, sub_zero] at hlost hcount
    rw [← hlost]
    constructor
    · intro hl
      have hb := hl.bytes
      dsimp only at hb
      rw [hb] at hbytes
      exact List.self_eq_append_left.1 (List.append_cancel_left hbytes)
    · rintro rfl
      refine ⟨hbytes, ?_, fun h0 => ?_⟩
      · dsimp only
        omega
      · dsimp only at h0 ⊢
        have hall := hc.all rfl
        have hd : d.pipe.Empty := by
          refine bytes_eq_nil.1 (List.length_eq_zero_iff.1 ?_)
          omega
        have hstored : (readCopy ok n 0 d).2.1 = [] := List.length_eq_zero_iff.1 (by omega)
        rw [hstored, bytes_eq_nil.2 hd] at hbytes
        refine ⟨bytes_eq_nil.1 hbytes.symm, ?_⟩
        rw [hc.flags]
        exact Bool.eq_false_iff.2 fun hopen => hne ⟨hd, hopen⟩

/-- A pipe with one byte in its ring. -/
def oneByte : PipeHistory where
  pipe := { ring := ⟨fun _ => 65, 0, 1⟩, readopen := true, writeopen := true }
  inserted := [65]
  removed := []

theorem oneByte_read : Piperead (fun _ => true) 1 oneByte ⟨oneByte, 1, [65], oneByte.remove⟩ := by
  have hcopy : Piperead (fun _ => true) 1 oneByte _ := .copy (by decide)
  have hrun : readCopy (fun _ => true) 1 0 oneByte = (1, [65], oneByte.remove) := by
    rw [readCopy, if_pos (by decide), if_pos rfl, readCopy, if_neg (by decide)]
    rfl
  rwa [hrun] at hcopy

theorem oneByte_not_lost :
    (⟨oneByte, 1, [65], oneByte.remove⟩ : ReadCall).LosesNothing :=
  (piperead_loses_nothing_iff (fun _ => true) 1 (by decide) oneByte _ oneByte_read).2
    fun _ _ => rfl

/-- If the only byte in the ring cannot be copied out, it is lost, and `piperead` returns 0 although
the write end is open. -/
theorem oneByte_lost : ∃ c, Piperead (fun _ => false) 1 oneByte c ∧ c.result = 0 ∧
    c.before.bytes = [65] ∧ c.stored = [] ∧ c.after.bytes = [] ∧
    c.after.pipe.writeopen = true ∧ ¬c.LosesNothing := by
  have hcopy : Piperead (fun _ => false) 1 oneByte _ := .copy (by decide)
  have hrun : readCopy (fun _ => false) 1 0 oneByte = (0, [], oneByte.remove) := by
    rw [readCopy, if_pos (by decide), if_neg Bool.false_ne_true]
  rw [hrun] at hcopy
  exact ⟨_, hcopy, rfl, rfl, rfl, rfl, rfl, fun h => nomatch (h.zero rfl).2⟩

end Xv6.Kernel
