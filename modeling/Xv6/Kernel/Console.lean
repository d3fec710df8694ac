import Xv6.Foundations.Ring

/-!
# The console's line discipline

The input buffer of console.c, what `consoleintr` does to it for a character, and what a round of
the loop of `consoleread` takes out of it. `Editor` is a line editor without a buffer, which keeps
all lines that have been committed: `Cons.Shows` says that a buffer stands for what an editor has
committed and nobody has read, followed by the line that is being typed.
-/

namespace Xv6.Kernel

/-- `INPUT_BUF_SIZE` of console.c. -/
def INPUT_BUF_SIZE : ℕ := 128

instance : NeZero INPUT_BUF_SIZE := ⟨by decide⟩

/-- `C(x)`, Control-x. -/
def ctrl (x : Char) : UInt8 := .ofNat (x.toNat - '@'.toNat)

/-- `'\n'` -/
def newline : UInt8 := 10

/-- `'\r'` -/
def carriageReturn : UInt8 := 13

/-- The delete key. -/
def delete : UInt8 := 0x7f

/-- `cons`, without its spinlock: `buf`, `r` and `e` are a ring. -/
structure Cons where
  ring : Ring UInt8 32 INPUT_BUF_SIZE
  w : BitVec 32

namespace Cons

/-- `cons.r` -/
def r (d : Cons) : BitVec 32 := d.ring.nread

/-- `cons.e` -/
def e (d : Cons) : BitVec 32 := d.ring.nwrite

/-- `cons.e--` -/
def erase (d : Cons) : Cons where
  ring := d.ring.retract
  w := d.w

/-- `c = cons.buf[cons.r++ % INPUT_BUF_SIZE]`, without the value -/
def take (d : Cons) : Cons where
  ring := d.ring.pop
  w := d.w

/-- `cons.r--` -/
def untake (d : Cons) : Cons where
  ring := d.ring.unpop
  w := d.w

/-- The loop for `C('U')`. -/
def killLine (d : Cons) : Cons :=
  if _h : d.e ≠ d.w then
    if d.ring.back ≠ newline then d.erase.killLine else d
  else d
termination_by (d.e - d.w).toNat
decreasing_by
  simp only [e, erase, Ring.retract] at _h ⊢
  bv_omega

/-- `consoleintr(c)`; the flag says whether it calls `wakeup(&cons.r)`. -/
def consoleintr (d : Cons) (c : UInt8) : Cons × Bool :=
  if c = ctrl 'P' then (d, false)
  else if c = ctrl 'U' then (d.killLine, false)
  else if c = ctrl 'H' ∨ c = delete then (if d.e ≠ d.w then d.erase else d, false)
  else if c ≠ 0 ∧ (d.e - d.r).toNat < INPUT_BUF_SIZE then
    let c := if c = carriageReturn then newline else c
    let ring := d.ring.push c
    if c = newline ∨ c = ctrl 'D' ∨ (ring.nwrite - ring.nread).toNat = INPUT_BUF_SIZE then
      ({ ring := ring, w := ring.nwrite }, true)
    else ({ ring := ring, w := d.w }, false)
  else (d, false)

end Cons

/-! ## The line editor -/

/-- A line editor: all that has been committed, the line that is being typed, and how many of the
committed characters have been read. -/
structure Editor where
  committed : List UInt8
  line : List UInt8
  consumed : ℕ

namespace Editor

/-- What has been committed and not been read. -/
def queue (ed : Editor) : List UInt8 := ed.committed.drop ed.consumed

/-- The editor has no room for a character. -/
def Full (ed : Editor) : Prop := ed.queue.length + ed.line.length = INPUT_BUF_SIZE

instance (ed : Editor) : Decidable ed.Full := inferInstanceAs (Decidable (_ = _))

/-- The line is committed. -/
def commit (ed : Editor) : Editor where
  committed := ed.committed ++ ed.line
  line := []
  consumed := ed.consumed

/-- A character is added to the line; it is committed at a newline or ^D, or when there is no room
for another. -/
def type (ed : Editor) (c : UInt8) : Editor :=
  let ed := { ed with line := ed.line ++ [c] }
  if c = newline ∨ c = ctrl 'D' ∨ ed.Full then ed.commit else ed

/-- A character is typed. `C('P')` is the key for `procdump`, which prints the process list: it is
never part of a line. -/
def input (ed : Editor) (c : UInt8) : Editor :=
  if c = 0 ∨ c = ctrl 'P' then ed
  else if c = ctrl 'U' then { ed with line := [] }
  else if c = ctrl 'H' ∨ c = delete then { ed with line := ed.line.dropLast }
  else if ed.Full then ed
  else ed.type (if c = carriageReturn then newline else c)

/-- A committed character is read. -/
def read (ed : Editor) : Editor := { ed with consumed := ed.consumed + 1 }

theorem committed_prefix_type (ed : Editor) (c : UInt8) :
    ed.committed <+: (ed.type c).committed := by
  simp only [type]
  split_ifs
  · exact List.prefix_append ..
  · exact List.prefix_refl _

/-- Later input does not change what has been committed. -/
theorem committed_prefix_input (ed : Editor) (c : UInt8) :
    ed.committed <+: (ed.input c).committed := by
  rw [input]
  by_cases hpass : c = 0 ∨ c = ctrl 'P'
  · rw [if_pos hpass]
  by_cases hkill : c = ctrl 'U'
  · rw [if_neg hpass, if_pos hkill]
  by_cases herase : c = ctrl 'H' ∨ c = delete
  · rw [if_neg hpass, if_neg hkill, if_pos herase]
  by_cases hfull : ed.Full
  · rw [if_neg hpass, if_neg hkill, if_neg herase, if_pos hfull]
  · rw [if_neg hpass, if_neg hkill, if_neg herase, if_neg hfull]
    exact ed.committed_prefix_type _

theorem consumed_input (ed : Editor) (c : UInt8) : (ed.input c).consumed = ed.consumed := by
  have htype : ∀ c, (ed.type c).consumed = ed.consumed := fun c => by
    simp only [type]
    split_ifs <;> rfl
  rw [input]
  generalize (if c = carriageReturn then newline else c) = c'
  split_ifs
  exacts [rfl, rfl, rfl, rfl, htype c']

end Editor

/-! ## The buffer stands for an editor -/

namespace Cons

/-- The buffer holds the unread lines of `ed`, and then the line that is being typed. -/
structure Shows (d : Cons) (ed : Editor) : Prop where
  contents : d.ring.contents = ed.queue ++ ed.line
  unread : (d.w - d.r).toNat = ed.queue.length
  room : ed.queue.length + ed.line.length ≤ INPUT_BUF_SIZE
  full : ed.Full → ed.line = []
  newline : newline ∉ ed.line
  consumed : ed.consumed ≤ ed.committed.length

variable {d : Cons} {ed : Editor}

namespace Shows

theorem count (h : d.Shows ed) : d.ring.count = ed.queue.length + ed.line.length := by
  rw [← Ring.length_contents, h.contents, List.length_append]

/-- There is a line to edit. -/
theorem e_ne_w (h : d.Shows ed) : d.e ≠ d.w ↔ ed.line ≠ [] := by
  have hcount := h.count
  have hunread := h.unread
  rw [Ring.count] at hcount
  rw [not_iff_not, ← List.length_eq_zero_iff, e]
  rw [r] at hunread
  constructor
  · intro he
    rw [he] at hcount
    omega
  · intro hl
    have heq : d.ring.nwrite - d.ring.nread = d.w - d.ring.nread :=
      BitVec.eq_of_toNat_eq (by omega)
    rw [← BitVec.sub_add_cancel d.ring.nwrite d.ring.nread, heq, BitVec.sub_add_cancel]

theorem r_ne_w (h : d.Shows ed) : d.r ≠ d.w ↔ ed.queue ≠ [] := by
  have hunread := h.unread
  rw [not_iff_not, ← List.length_eq_zero_iff, ← hunread]
  constructor
  · intro he
    rw [he, BitVec.sub_self]
    rfl
  · intro hl
    have heq : d.w - d.r = 0 := BitVec.eq_of_toNat_eq hl
    rw [← BitVec.sub_add_cancel d.w d.r, heq]
    exact (BitVec.zero_add d.r).symm

/-- `cons.e--` -/
theorem erase (h : d.Shows ed) (hl : ed.line ≠ []) :
    d.erase.Shows { ed with line := ed.line.dropLast } ∧ d.ring.back = ed.line.getLast hl := by
  have hpos := List.length_pos_of_ne_nil hl
  have hcount : d.ring.count ≠ 0 := by
    rw [h.count]
    omega
  have hc := Ring.contents_retract hcount
  rw [h.contents, ← List.dropLast_append_getLast hl, ← List.append_assoc] at hc
  obtain ⟨hinit, hlast⟩ := List.append_inj' hc rfl
  have hlen : ed.line.dropLast.length ≤ ed.line.length := by
    rw [List.length_dropLast]
    omega
  have hroom := h.room
  refine ⟨⟨?_, h.unread, ?_, ?_, ?_, h.consumed⟩, ?_⟩
  · exact hinit.symm
  · exact (Nat.add_le_add_left hlen _).trans h.room
  · intro hfull
    rw [Editor.Full] at hfull
    have hdrop : ed.line.dropLast.length = ed.line.length - 1 := List.length_dropLast
    have hq : ed.queue.length + ed.line.dropLast.length = INPUT_BUF_SIZE := hfull
    omega
  · exact fun hm => h.newline (List.mem_of_mem_dropLast hm)
  · rw [List.singleton_inj] at hlast
    exact hlast.symm

/-- The loop for `C('U')` erases the line. -/
theorem killLine (h : d.Shows ed) : d.killLine.Shows { ed with line := [] } := by
  induction d using Cons.killLine.induct generalizing ed with
  | case1 d he hn ih =>
    have hl := h.e_ne_w.1 he
    rw [Cons.killLine, dif_pos he, if_pos hn]
    have hkill := ih (h.erase hl).1
    exact hkill
  | case2 d he hn =>
    -- the line has no newline
    have hl := h.e_ne_w.1 he
    rw [(h.erase hl).2] at hn
    exact (h.newline (not_not.1 hn ▸ List.getLast_mem hl)).elim
  | case3 d he =>
    have hl : ed.line = [] := not_not.1 (mt h.e_ne_w.2 he)
    rw [Cons.killLine, dif_neg he]
    rw [← hl]
    exact h

theorem full_iff (h : d.Shows ed) : (d.e - d.r).toNat = INPUT_BUF_SIZE ↔ ed.Full := by
  rw [Editor.Full, ← h.count]
  rfl

/-- A character is stored. -/
theorem push (h : d.Shows ed) (hfull : ¬ed.Full) {c : UInt8} (hc : c ≠ Kernel.newline)
    (hroom : ¬Editor.Full { ed with line := ed.line ++ [c] }) :
    Shows { ring := d.ring.push c, w := d.w } { ed with line := ed.line ++ [c] } := by
  have hlt : d.ring.count < INPUT_BUF_SIZE := by
    rw [h.count]
    exact lt_of_le_of_ne h.room hfull
  refine ⟨?_, h.unread, ?_, fun hf => (hroom hf).elim, ?_, h.consumed⟩
  · show (d.ring.push c).contents = ed.queue ++ (ed.line ++ [c])
    rw [Ring.contents_push (by decide) (by decide) hlt, h.contents, List.append_assoc]
  · have hcount := h.count
    show ed.queue.length + (ed.line ++ [c]).length ≤ INPUT_BUF_SIZE
    rw [List.length_append, List.length_singleton]
    omega
  · rw [List.mem_append, List.mem_singleton, not_or]
    exact ⟨h.newline, hc.symm⟩

/-- A character is stored, and the line is committed. -/
theorem push_commit (h : d.Shows ed) (hfull : ¬ed.Full) (c : UInt8) :
    Shows { ring := d.ring.push c, w := (d.ring.push c).nwrite }
      (Editor.commit { ed with line := ed.line ++ [c] }) := by
  have hlt : d.ring.count < INPUT_BUF_SIZE := by
    rw [h.count]
    exact lt_of_le_of_ne h.room hfull
  have hcontents := Ring.contents_push (by decide) (by decide) hlt c
  have hcount := Ring.count_push (by decide) hlt c
  have hqueue : (Editor.commit { ed with line := ed.line ++ [c] }).queue
      = ed.queue ++ (ed.line ++ [c]) := List.drop_append_of_le_length h.consumed
  have hlen : (ed.queue ++ (ed.line ++ [c])).length = (d.ring.push c).count := by
    rw [hcount, h.count, List.length_append, List.length_append, List.length_singleton]
    omega
  refine ⟨?_, ?_, ?_, fun _ => rfl, List.not_mem_nil, ?_⟩
  · rw [hqueue, ← List.append_assoc, ← h.contents]
    exact hcontents.trans (List.append_nil _).symm
  · rw [hqueue, hlen]
    rfl
  · rw [hqueue, hlen, hcount]
    exact hlt
  · exact h.consumed.trans (by
      rw [Editor.commit, List.length_append]
      exact Nat.le_add_right ..)

/-- **`consoleintr` is the editor.** -/
theorem consoleintr (h : d.Shows ed) (c : UInt8) : (d.consoleintr c).1.Shows (ed.input c) := by
  rw [Cons.consoleintr, Editor.input]
  by_cases hp : c = ctrl 'P'
  · rw [if_pos hp, if_pos (Or.inr hp)]
    exact h
  by_cases hzero : c = 0
  · subst hzero
    exact h
  rw [if_neg hp, if_neg (not_or.2 ⟨hzero, hp⟩)]
  by_cases hkill : c = ctrl 'U'
  · rw [if_pos hkill, if_pos hkill]
    exact h.killLine
  rw [if_neg hkill, if_neg hkill]
  by_cases herase : c = ctrl 'H' ∨ c = delete
  · rw [if_pos herase, if_pos herase]
    by_cases hl : ed.line = []
    · rw [if_neg (not_not.2 hl ∘ h.e_ne_w.1), hl, List.dropLast_nil, ← hl]
      exact h
    · rw [if_pos (h.e_ne_w.2 hl)]
      exact (h.erase hl).1
  rw [if_neg herase, if_neg herase]
  by_cases hfull : ed.Full
  · rw [if_pos hfull, if_neg fun hlt => hlt.2.ne (h.full_iff.2 hfull)]
    exact h
  have hlt : (d.e - d.r).toNat < INPUT_BUF_SIZE := by
    have hcount : (d.e - d.r).toNat = ed.queue.length + ed.line.length := h.count
    rw [hcount]
    exact lt_of_le_of_ne h.room hfull
  rw [if_pos ⟨hzero, hlt⟩, if_neg hfull, Editor.type]
  generalize (if c = carriageReturn then Kernel.newline else c) = c'
  have hiff : ((d.ring.push c').nwrite - (d.ring.push c').nread).toNat = INPUT_BUF_SIZE ↔
      Editor.Full { ed with line := ed.line ++ [c'] } := by
    have hcount : (d.ring.push c').count = d.ring.count + 1 :=
      Ring.count_push (by decide) hlt c'
    rw [Editor.Full]
    show (d.ring.push c').count = _ ↔ ed.queue.length + (ed.line ++ [c']).length = _
    rw [hcount, h.count, List.length_append, List.length_singleton, Nat.add_assoc]
  simp only [hiff]
  by_cases hend : c' = Kernel.newline ∨ c' = ctrl 'D' ∨
      Editor.Full { ed with line := ed.line ++ [c'] }
  · rw [if_pos hend, if_pos hend]
    exact h.push_commit hfull c'
  · rw [if_neg hend, if_neg hend]
    rw [not_or, not_or] at hend
    exact h.push hfull hend.1 hend.2.2

/-- `cons.buf[cons.r++ % INPUT_BUF_SIZE]` reads the next committed character. -/
theorem take (h : d.Shows ed) (hne : d.r ≠ d.w) :
    d.take.Shows ed.read ∧ ed.committed.take ed.read.consumed
      = ed.committed.take ed.consumed ++ [d.ring.front] := by
  have hq := h.r_ne_w.1 hne
  have hlt : ed.consumed < ed.committed.length := by
    by_contra hle
    exact hq (List.drop_eq_nil_of_le (not_lt.1 hle))
  have hcount : d.ring.count ≠ 0 := by
    have hpos := List.length_pos_of_ne_nil hq
    rw [h.count]
    omega
  have hqueue : ed.queue = ed.committed[ed.consumed] :: ed.read.queue :=
    List.drop_eq_getElem_cons hlt
  have hc := Ring.contents_pop hcount
  rw [h.contents, hqueue, List.cons_append] at hc
  obtain ⟨hfront, hrest⟩ := List.cons.inj hc
  have hlen : ed.queue.length = ed.read.queue.length + 1 := by
    rw [hqueue, List.length_cons]
  have hroom := h.room
  refine ⟨⟨hrest.symm, ?_, ?_, ?_, h.newline, hlt⟩, ?_⟩
  · have hunread := h.unread
    have hsub : d.w - (d.r + 1) = d.w - d.r - 1 := by bv_omega
    show (d.w - (d.r + 1)).toNat = _
    rw [hsub]
    have hle : (1 : BitVec 32) ≤ d.w - d.r := by
      rw [BitVec.le_def]
      show 1 ≤ _
      omega
    rw [BitVec.toNat_sub_of_le hle]
    show _ - 1 = _
    omega
  · show ed.read.queue.length + ed.line.length ≤ INPUT_BUF_SIZE
    omega
  · intro hfull
    have hf : ed.read.queue.length + ed.line.length = INPUT_BUF_SIZE := hfull
    omega
  · rw [← hfront]
    exact (List.take_concat_get' ed.committed ed.consumed hlt).symm

end Shows

/-! ## When the readers are woken up -/

theorem killLine_r_w (d : Cons) : d.killLine.r = d.r ∧ d.killLine.w = d.w := by
  induction d using Cons.killLine.induct with
  | case1 d he hn ih =>
    rw [killLine, dif_pos he, if_pos hn]
    exact ih
  | case2 d he hn =>
    rw [killLine, dif_pos he, if_neg hn]
    exact ⟨rfl, rfl⟩
  | case3 d he =>
    rw [killLine, dif_neg he]
    exact ⟨rfl, rfl⟩

/-- `consoleintr` does not change `cons.r`, and it changes `cons.w` only when it wakes up the
readers. -/
theorem consoleintr_r_w (d : Cons) (c : UInt8) : (d.consoleintr c).1.r = d.r ∧
    ((d.consoleintr c).2 = false → (d.consoleintr c).1.w = d.w) := by
  rw [consoleintr]
  generalize (if c = carriageReturn then newline else c) = c'
  dsimp only
  split_ifs
  · exact ⟨rfl, fun _ => rfl⟩
  · exact ⟨d.killLine_r_w.1, fun _ => d.killLine_r_w.2⟩
  · exact ⟨rfl, fun _ => rfl⟩
  · exact ⟨rfl, fun _ => rfl⟩
  · exact ⟨rfl, nofun⟩
  · exact ⟨rfl, fun _ => rfl⟩
  · exact ⟨rfl, fun _ => rfl⟩

end Cons

end Xv6.Kernel
