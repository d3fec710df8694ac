import Xv6.Fs.Blocks

/-!
# Rules for the calls

What each call into the buffer cache asks of the state, and what it leaves. `log_write` may find the
log full; all other errors are excluded.
-/

namespace Xv6.Fs

open Inode (Dinode NDIRECT)

/-- The only panic that may come up: the transaction does not fit into the log. -/
def Full (e : Stop) : Prop := e = .panic .tooBig

/-- Nothing stops the program. -/
def NoStop (_ : Stop) : Prop := False

/-- A run of `c` from `s` ends in `Q` or stops in `E`: if nothing else is said, it may fill the
log. -/
abbrev Ends {α : Type} (c : M α) (Q : α → Disk → Prop) (s : Disk) (E : Stop → Prop := Full) :
    Prop := c.Meets disk Q E s

namespace Disk

/-- The state after `log_write`. -/
def log (s : Disk) (b : ℕ) : Disk :=
  { s with logged := if b ∈ s.logged then s.logged else s.logged ++ [b] }

/-- A buffer more is locked. -/
def lock (s : Disk) (b : ℕ) : Disk := { s with held := b :: s.held }

end Disk

variable {α : Type} {s : Disk} {b i : ℕ} {E : Stop → Prop}

theorem mem_logged_log {x : ℕ} : x ∈ (s.log b).logged ↔ x ∈ s.logged ∨ x = b := by
  rw [Disk.log]
  split_ifs with hb
  · exact ⟨Or.inl, fun hx => hx.elim id fun he => he ▸ hb⟩
  · exact List.mem_append.trans (or_congr_right List.mem_singleton)

theorem logged_log_of_mem (hb : b ∈ s.logged) : (s.log b).logged = s.logged := if_pos hb

theorem length_logged_log (hb : b ∉ s.logged) :
    (s.log b).logged.length = s.logged.length + 1 := by
  rw [Disk.log, if_neg hb]
  exact List.length_append

theorem ends_bind {β : Type} {c : M α} {f : α → M β} {Q : β → Disk → Prop} :
    Ends (c >>= f) Q s E ↔ Ends c (fun a s' => Ends (f a) Q s' E) s E :=
  Program.meets_bind

theorem ends_bread {Q : Unit → Disk → Prop} (hb : b ∉ s.held) (hQ : Q () (s.lock b)) :
    Ends (bread b) Q s E :=
  Program.meets_op (if_neg hb) hQ

theorem ends_brelse {Q : Unit → Disk → Prop} {held : List ℕ} (hb : s.held = b :: held)
    (hQ : Q () { s with held := held }) : Ends (brelse b) Q s E := by
  have hm : b ∈ s.held := hb ▸ List.mem_cons_self
  have herase : s.held.erase b = held := by rw [hb, List.erase_cons_head]
  refine Program.meets_op (if_pos hm) ?_
  rw [herase]
  exact hQ

theorem ends_logWrite {Q : Unit → Disk → Prop} (hs : 1 ≤ s.outstanding) (hQ : Q () (s.log b)) :
    Ends (logWrite b) Q s := by
  by_cases hl : LOGBLOCKS ≤ s.logged.length
  · exact Program.meets_op_error (if_pos hl) rfl
  · exact Program.meets_op ((if_neg hl).trans (if_neg (Nat.not_lt.2 hs))) hQ

theorem ends_logWrite_any {Q : Unit → Disk → Prop} (hQ : Q () (s.log b)) :
    Ends (logWrite b) Q s fun _ => True := by
  by_cases hl : LOGBLOCKS ≤ s.logged.length
  · exact Program.meets_op_error (if_pos hl) trivial
  · by_cases hout : s.outstanding < 1
    · exact Program.meets_op_error ((if_neg hl).trans (if_pos hout)) trivial
    · exact Program.meets_op ((if_neg hl).trans (if_neg hout)) hQ

theorem ends_bit {Q : Bool → Disk → Prop} : Ends (bit b) Q s E ↔ Q (s.bitmap b) s := Iff.rfl

theorem ends_setBit {v : Bool} {Q : Unit → Disk → Prop} :
    Ends (setBit b v) Q s E ↔ Q () { s with bitmap := Function.update s.bitmap b v } := Iff.rfl

theorem ends_data {Q : Block → Disk → Prop} : Ends (data b) Q s E ↔ Q (s.data b) s := Iff.rfl

theorem ends_modify {f : Block → Block} {Q : Unit → Disk → Prop} :
    Ends (modify b f) Q s E ↔
      Q () { s with data := Function.update s.data b (f (s.data b)) } := Iff.rfl

theorem ends_dinode {Q : Dinode → Disk → Prop} :
    Ends (dinode i) Q s E ↔ Q (s.dinode i) s := Iff.rfl

theorem ends_setDinode {d : Dinode} {Q : Unit → Disk → Prop} :
    Ends (setDinode i d) Q s E ↔
      Q () { s with dinode := Function.update s.dinode i d } := Iff.rfl

end Xv6.Fs
