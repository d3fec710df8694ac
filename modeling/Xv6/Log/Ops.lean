import Xv6.Foundations.Transition
import Xv6.Log.Defs
import Mathlib.Algebra.BigOperators.Fin
import Mathlib.Algebra.Order.BigOperators.Group.Finset

/-!
# Operations and group commit

The log as `N` processes share it: `begin_op`, `log_write`, `end_op` and the commit that the last
`end_op` makes, over buffers that one process at a time uses. A step is one critical section of
`log.lock` or of `bcache.lock`, or one disk write of the commit; `beginOp` has no step while the
operation is not admitted, and the panics of `log_write` and `end_op` are steps that do not exist.

`Data` is what the processes share. Its last fields are not in the source: where each process is,
and what the properties of the log speak of (`written`, `ended`, `due`, `snapshot`, `installed`).
The two invariants are `OpsOk`, and `Reserved`, which says that the blocks that are logged already
and those that the current operations may still log fit into the log.
-/

namespace Xv6.Log

/-! ## The shared data -/

/-- How far a process is in the operations of the file system. -/
inductive Phase
  /-- outside of them; `get` is the block whose buffer it waits for -/
  | out (get : Option BlockNo)
  /-- between `begin_op` and `end_op` -/
  | op (get : Option BlockNo)
  /-- `end_op` has set `log.committing` -/
  | commit
  /-- `write_log`, before the round `tail` -/
  | writeLog (tail : ℕ)
  /-- `install_trans`, before the round `tail` -/
  | install (tail : ℕ)
  /-- `commit` is done, and `log.committing` is still set -/
  | committed
  deriving DecidableEq

namespace Phase

/-- Inside of an operation. -/
def inOp : Phase → Bool
  | .op _ => true
  | _ => false

/-- Between `log.committing = 1` and `log.committing = 0`. -/
def commits : Phase → Bool
  | .out _ | .op _ => false
  | _ => true

/-- The block whose buffer the process waits for. -/
def get : Phase → Option BlockNo
  | .out g | .op g => g
  | _ => none

/-- The phase with another block to wait for. -/
def withGet (g : Option BlockNo) : Phase → Phase
  | .out _ => .out g
  | .op _ => .op g
  | ph => ph

theorem commits_of_inOp {ph : Phase} (h : ph.inOp = true) : ph.commits = false := by
  cases ph <;> trivial

@[simp] theorem withGet_inOp (g : Option BlockNo) (ph : Phase) : (ph.withGet g).inOp = ph.inOp := by
  cases ph <;> rfl

@[simp] theorem withGet_commits (g : Option BlockNo) (ph : Phase) :
    (ph.withGet g).commits = ph.commits := by
  cases ph <;> rfl

theorem withGet_get {g : Option BlockNo} {ph : Phase} (h : ph.commits = false) :
    (ph.withGet g).get = g := by
  cases ph <;> trivial

end Phase

/-- What the processes share. -/
structure Data (N : ℕ) where
  bio : Bio
  /-- who holds the sleep lock of a buffer -/
  owner : BlockNo → Option (Fin N)
  /-- who has called `bget` of a block, and not `brelse` -/
  refs : BlockNo → Finset (Fin N)
  lh : List BlockNo
  outstanding : ℤ
  committing : Bool
  phase : Fin N → Phase
  /-- the blocks that the current operation of a process has passed to `log_write` -/
  written : Fin N → Finset BlockNo
  /-- those of the operations that have entered `end_op` since the last commit has started -/
  ended : Finset BlockNo
  /-- `ended` when the current commit has started -/
  due : Finset BlockNo
  /-- what the buffers contained when the current commit has started -/
  snapshot : BlockNo → Block
  /-- how many blocks `install_trans` has installed -/
  installed : ℕ

namespace Data

variable {N : ℕ} (d : Data N) (p : Fin N) (b : BlockNo)

/-! ## The functions of log.c -/

/-- The condition on which `begin_op` goes on. -/
def admits : Prop :=
  d.committing = false ∧ d.lh.length + (d.outstanding + 1) * MAXOPBLOCKS ≤ LOGBLOCKS

instance : Decidable d.admits := inferInstanceAs (Decidable (_ ∧ _))

/-- `begin_op` -/
def beginOp : Option (Data N) :=
  if d.phase p = .out none ∧ d.admits then
    some { d with
      outstanding := d.outstanding + 1
      phase := Function.update d.phase p (.op none)
      written := Function.update d.written p ∅ }
  else none

/-- `log_write(b)`; `allow` is what the operation keeps to. -/
def logWrite (allow : Finset BlockNo → Bool) (start : BlockNo) : Option (Data N) :=
  if (d.phase p = .op none ∧ d.owner b = some p ∧ b ∉ logArea start ∧
      allow (insert b (d.written p))) ∧ ¬LOGBLOCKS ≤ d.lh.length ∧ ¬d.outstanding < 1 then
    some { d with
      lh := (Log.logWrite b d.lh d.bio).1
      bio := (Log.logWrite b d.lh d.bio).2
      written := Function.update d.written p (insert b (d.written p)) }
  else none

/-- `end_op`, up to the call of `commit` -/
def endOp : Option (Data N) :=
  if d.phase p = .op none ∧ d.committing = false then
    if d.outstanding - 1 = 0 then
      some { d with
        outstanding := d.outstanding - 1
        committing := true
        phase := Function.update d.phase p .commit
        ended := ∅
        due := d.ended ∪ d.written p
        snapshot := d.bio.data }
    else
      some { d with
        outstanding := d.outstanding - 1
        phase := Function.update d.phase p (.out none)
        ended := d.ended ∪ d.written p }
  else none

/-- `commit`: `if (log.lh.n > 0)` -/
def commit : Option (Data N) :=
  if d.phase p = .commit then
    some { d with
      phase := Function.update d.phase p (if d.lh.length > 0 then .writeLog 0 else .committed) }
  else none

/-- A round of `write_log`. -/
def writeLog (start : BlockNo) (tail : ℕ) : Option (Data N) :=
  if d.phase p = .writeLog tail ∧ d.lh[tail]? = some b ∧ d.owner (logBlock start tail) = none ∧
      d.owner b = none then
    some { d with
      bio := Log.writeLog start tail b d.bio
      phase := Function.update d.phase p (.writeLog (tail + 1)) }
  else none

/-- `write_head` -/
def writeHead (start : BlockNo) : Option (Data N) :=
  if d.phase p = .writeLog d.lh.length ∧ d.owner start = none then
    some { d with
      bio := Log.writeHead start d.lh d.bio
      phase := Function.update d.phase p (.install 0) }
  else none

/-- A round of `install_trans`. -/
def installTrans (start : BlockNo) (tail : ℕ) : Option (Data N) :=
  if d.phase p = .install tail ∧ d.lh[tail]? = some b ∧ d.owner (logBlock start tail) = none ∧
      d.owner b = none then
    some { d with
      bio := Log.installTrans start false tail b d.bio
      phase := Function.update d.phase p (.install (tail + 1))
      installed := tail + 1 }
  else none

/-- `commit`: `log.lh.n = 0; write_head();` -/
def clear (start : BlockNo) : Option (Data N) :=
  if d.phase p = .install d.lh.length ∧ d.owner start = none then
    some { d with
      lh := []
      bio := Log.writeHead start [] d.bio
      phase := Function.update d.phase p .committed
      installed := 0 }
  else none

/-- `end_op`: `log.committing = 0` -/
def finish : Option (Data N) :=
  if d.phase p = .committed then
    some { d with committing := false, phase := Function.update d.phase p (.out none) }
  else none

/-! ## The functions of bio.c -/

/-- `bget` takes a reference. -/
def bget : Option (Data N) :=
  if (d.phase p = .out none ∨ d.phase p = .op none) ∧ p ∉ d.refs b then
    some { d with
      bio := d.bio.bpin b
      refs := Function.update d.refs b (insert p (d.refs b))
      phase := Function.update d.phase p ((d.phase p).withGet (some b)) }
  else none

/-- `bget` has got the buffer's lock, and `bread` makes it valid. -/
def bread : Option (Data N) :=
  if (d.phase p).get = some b ∧ d.owner b = none then
    some { d with
      bio := d.bio.bread b
      owner := Function.update d.owner b (some p)
      phase := Function.update d.phase p ((d.phase p).withGet none) }
  else none

/-- An operation changes a buffer. -/
def modify (start : BlockNo) (x : Block) : Option (Data N) :=
  if d.phase p = .op none ∧ d.owner b = some p ∧ b ∉ logArea start then
    some { d with bio := d.bio.modify b x }
  else none

/-- `brelse` -/
def brelse : Option (Data N) :=
  if (d.phase p = .out none ∨ d.phase p = .op none) ∧ d.owner b = some p then
    some { d with
      bio := d.bio.bunpin b
      owner := Function.update d.owner b none
      refs := Function.update d.refs b ((d.refs b).erase p) }
  else none

/-- `bget` recycles an unused buffer. -/
def recycle : Option (Data N) :=
  if d.bio.refcnt b = 0 then some { d with bio := d.bio.recycle b } else none

end Data

/-! ## The steps -/

/-- What a process can do. -/
inductive Action
  | beginOp | endOp | commit | writeHead | clear | finish
  | logWrite (b : BlockNo) | bget (b : BlockNo) | bread (b : BlockNo) | brelse (b : BlockNo)
  | recycle (b : BlockNo)
  | modify (b : BlockNo) (x : Block)
  | writeLog (tail : ℕ) (b : BlockNo) | installTrans (tail : ℕ) (b : BlockNo)

variable {N : ℕ} (allow : Finset BlockNo → Bool) (start : BlockNo)

/-- The process `p` does something. -/
def Data.act (d : Data N) (p : Fin N) : Action → Option (Data N)
  | .beginOp => d.beginOp p
  | .endOp => d.endOp p
  | .commit => d.commit p
  | .writeHead => d.writeHead p start
  | .clear => d.clear p start
  | .finish => d.finish p
  | .logWrite b => d.logWrite p b allow start
  | .bget b => d.bget p b
  | .bread b => d.bread p b
  | .brelse b => d.brelse p b
  | .recycle b => d.recycle b
  | .modify b x => d.modify p b start x
  | .writeLog tail b => d.writeLog p b start tail
  | .installTrans tail b => d.installTrans p b start tail

/-- No operation, an empty log and no buffers in use. -/
structure Data.Init (d : Data N) : Prop where
  phase : ∀ p, d.phase p = .out none
  lh : d.lh = []
  outstanding : d.outstanding = 0
  committing : d.committing = false
  ended : d.ended = ∅
  installed : d.installed = 0
  owner : ∀ b, d.owner b = none
  refs : ∀ b, d.refs b = ∅
  refcnt : ∀ b, d.bio.refcnt b = 0

/-- The operations of `N` processes, each of which keeps to `allow`. -/
def ops : LTS (Data N) (Fin N × Action) where
  init := Data.Init
  step d e d' := d.act allow start e.1 e.2 = some d'

/-! ## The invariant -/

/-- What the commit has done when the committing process is in this phase. -/
def CommitOk (d : Data N) : Phase → Prop
  | .out _ | .op _ => True
  | .commit => d.installed = 0 ∧ d.due ⊆ d.lh.toFinset ∧ ∀ b ∈ d.lh, d.bio.data b = d.snapshot b
  | .writeLog tail =>
    d.installed = 0 ∧ d.due ⊆ d.lh.toFinset ∧ (∀ b ∈ d.lh, d.bio.data b = d.snapshot b) ∧
      ∀ i < tail, ∀ b, d.lh[i]? = some b → d.bio.disk (logBlock start i) = d.snapshot b
  | .install tail =>
    d.installed = tail ∧ d.due ⊆ d.lh.toFinset ∧ decodeHead (d.bio.disk start) = some d.lh ∧
      ∀ i b, d.lh[i]? = some b → d.bio.disk (logBlock start i) = d.snapshot b
  | .committed => d.installed = 0 ∧ d.lh = []

/-- The invariant of the log. -/
structure OpsOk (d : Data N) : Prop where
  outstanding : d.outstanding = ∑ q, if (d.phase q).inOp then 1 else 0
  /-- Whoever commits is alone. -/
  alone : ∀ p, (d.phase p).commits → d.committing = true ∧
    ∀ q, q ≠ p → (d.phase q).inOp = false ∧ (d.phase q).commits = false
  committing : d.committing = true → ∃ p, (d.phase p).commits
  listed : Listed start d.lh
  /-- A block that is still to be installed has one reference more than the processes have. -/
  refcnt : ∀ b, d.bio.refcnt b = (d.refs b).card + if b ∈ d.lh.drop d.installed then 1 else 0
  owner : ∀ b p, d.owner b = some p → p ∈ d.refs b
  get : ∀ p b, (d.phase p).get = some b → p ∈ d.refs b
  written : ∀ p, (d.phase p).inOp → d.written p ⊆ d.lh.toFinset
  ended : d.ended ⊆ d.lh.toFinset
  /-- No operation ends while there is a commit. -/
  fresh : d.committing = true → d.ended = ∅
  installed : d.committing = false → d.installed = 0
  commit : ∀ p, CommitOk start d (d.phase p)

/-- A sum of which one term changes. -/
theorem sum_of_ne {f f' : Fin N → ℤ} {p : Fin N} (h : ∀ q, q ≠ p → f' q = f q) :
    ∑ q, f' q = ∑ q, f q - f p + f' p := by
  have hrest : ∑ q ∈ Finset.univ.erase p, f' q = ∑ q ∈ Finset.univ.erase p, f q :=
    Finset.sum_congr rfl fun q hq => h q (Finset.ne_of_mem_erase hq)
  have hf := Finset.sum_erase_add Finset.univ f (Finset.mem_univ p)
  have hf' := Finset.sum_erase_add Finset.univ f' (Finset.mem_univ p)
  omega

namespace OpsOk

variable {start} {d d' : Data N} {p : Fin N} {b : BlockNo}

theorem outstanding_update (h : OpsOk start d) (ph : Phase) :
    (∑ q, if (Function.update d.phase p ph q).inOp then (1 : ℤ) else 0) =
      d.outstanding - (if (d.phase p).inOp then 1 else 0) + if ph.inOp then 1 else 0 := by
  have hne : ∀ q, q ≠ p → (if (Function.update d.phase p ph q).inOp then (1 : ℤ) else 0) =
      if (d.phase q).inOp then 1 else 0 := by
    intro q hq
    rw [Function.update_of_ne hq]
  rw [sum_of_ne hne, ← h.outstanding, Function.update_self]

/-- While there is an operation, nobody commits. -/
theorem not_commits (h : OpsOk start d) (hp : (d.phase p).inOp = true) (q : Fin N) :
    (d.phase q).commits = false := by
  by_contra hq
  rw [Bool.not_eq_false] at hq
  by_cases hqp : p = q
  · subst hqp
    rw [Phase.commits_of_inOp hp] at hq
    cases hq
  · rw [((h.alone q hq).2 p hqp).1] at hp
    cases hp

theorem not_committing (h : OpsOk start d) (hp : (d.phase p).inOp = true) :
    d.committing = false := by
  by_contra hc
  rw [Bool.not_eq_false] at hc
  obtain ⟨q, hq⟩ := h.committing hc
  rw [h.not_commits hp q] at hq
  cases hq

theorem commitOk_of_not_commits {ph : Phase} (h : ph.commits = false) : CommitOk start d ph := by
  cases ph <;> trivial

/-- While a process commits, no operation is outstanding. -/
theorem outstanding_eq_zero (h : OpsOk start d) (hp : (d.phase p).commits = true) :
    d.outstanding = 0 := by
  rw [h.outstanding]
  refine Finset.sum_eq_zero fun q _ => ?_
  by_cases hq : q = p
  · subst hq
    have hout : (d.phase q).inOp = false := by
      by_contra hin
      rw [Phase.commits_of_inOp ((Bool.not_eq_false _).mp hin)] at hp
      cases hp
    rw [hout]
    rfl
  · rw [((h.alone p hp).2 q hq).1]
    rfl

/-! ### Buffers -/

theorem commitOk_of_bio {bio : Bio} {owner : BlockNo → Option (Fin N)}
    {refs : BlockNo → Finset (Fin N)} {phase : Fin N → Phase} (hdisk : bio.disk = d.bio.disk)
    (hdata : ∀ b ∈ d.lh.drop d.installed, bio.data b = d.bio.data b) {ph : Phase}
    (h : CommitOk start d ph) :
    CommitOk start { d with bio := bio, owner := owner, refs := refs, phase := phase } ph := by
  cases ph with
  | out | op => trivial
  | commit =>
    obtain ⟨h₀, hdue, hsnap⟩ := h
    rw [h₀, List.drop_zero] at hdata
    exact ⟨h₀, hdue, fun b hb => (hdata b hb).trans (hsnap b hb)⟩
  | writeLog tail =>
    obtain ⟨h₀, hdue, hsnap, hlog⟩ := h
    rw [h₀, List.drop_zero] at hdata
    refine ⟨h₀, hdue, fun b hb => (hdata b hb).trans (hsnap b hb), fun i hi b hb => ?_⟩
    rw [← hlog i hi b hb, hdisk]
  | install tail =>
    obtain ⟨h₀, hdue, hhead, hlog⟩ := h
    refine ⟨h₀, hdue, ?_, fun i b hb => ?_⟩
    · rw [← hhead, hdisk]
    · rw [← hlog i b hb, hdisk]
  | committed => exact h

/-- A change of the buffers, and of the blocks that processes wait for. -/
theorem of_buffers (h : OpsOk start d) {bio : Bio} {owner : BlockNo → Option (Fin N)}
    {refs : BlockNo → Finset (Fin N)} {phase : Fin N → Phase}
    (hphase : ∀ q, (phase q).inOp = (d.phase q).inOp ∧ (phase q).commits = (d.phase q).commits)
    (hrefcnt : ∀ b, bio.refcnt b = (refs b).card + if b ∈ d.lh.drop d.installed then 1 else 0)
    (howner : ∀ b p, owner b = some p → p ∈ refs b)
    (hget : ∀ p b, (phase p).get = some b → p ∈ refs b)
    (hcommit : ∀ q, CommitOk start { d with bio := bio, owner := owner, refs := refs, phase := phase }
      (phase q)) :
    OpsOk start { d with bio := bio, owner := owner, refs := refs, phase := phase } where
  outstanding := by simpa only [(hphase _).1] using h.outstanding
  alone p hp := by simpa only [(hphase _).1, (hphase _).2] using h.alone p ((hphase p).2 ▸ hp)
  committing hc := (h.committing hc).imp fun q hq => (hphase q).2 ▸ hq
  listed := h.listed
  refcnt := hrefcnt
  owner := howner
  get := hget
  written p hp := h.written p ((hphase p).1 ▸ hp)
  ended := h.ended
  fresh := h.fresh
  installed := h.installed
  commit := hcommit

theorem withGet_phase (g : Option BlockNo) (q : Fin N) :
    (Function.update d.phase p ((d.phase p).withGet g) q).inOp = (d.phase q).inOp ∧
      (Function.update d.phase p ((d.phase p).withGet g) q).commits = (d.phase q).commits := by
  by_cases hq : q = p
  · rw [hq, Function.update_self]
    exact ⟨Phase.withGet_inOp .., Phase.withGet_commits ..⟩
  · rw [Function.update_of_ne hq]
    exact ⟨rfl, rfl⟩

/-- The phase of a process that does not commit says nothing about the commit. -/
theorem commitOk_withGet {d' : Data N} (hp : (d.phase p).commits = false) (g : Option BlockNo)
    (h : ∀ q, CommitOk start d' (d.phase q)) (q : Fin N) :
    CommitOk start d' (Function.update d.phase p ((d.phase p).withGet g) q) := by
  by_cases hq : q = p
  · rw [hq, Function.update_self]
    exact commitOk_of_not_commits (by rw [Phase.withGet_commits, hp])
  · rw [Function.update_of_ne hq]
    exact h q

theorem not_commits_of_none (hp : d.phase p = .out none ∨ d.phase p = .op none) :
    (d.phase p).commits = false := by
  rcases hp with hp | hp <;> rw [hp] <;> rfl

theorem bget (h : OpsOk start d) (hd : d.bget p b = some d') : OpsOk start d' := by
  obtain ⟨⟨hp, href⟩, hd⟩ := Option.ite_none_right_eq_some.1 hd
  cases hd
  have hnot := not_commits_of_none hp
  have hmem : ∀ b' q, q ∈ d.refs b' → q ∈ Function.update d.refs b (insert p (d.refs b)) b' := by
    intro b' q hq
    by_cases hb : b' = b
    · subst hb
      rw [Function.update_self]
      exact Finset.mem_insert_of_mem hq
    · rwa [Function.update_of_ne hb]
  refine h.of_buffers (withGet_phase _) (fun b' => ?_) (fun b' q hq => hmem b' q (h.owner b' q hq))
    (fun q b' hq => ?_)
    (commitOk_withGet hnot _ fun q => commitOk_of_bio rfl (fun _ _ => rfl) (h.commit q))
  · by_cases hb : b' = b
    · subst hb
      rw [Bio.bpin_refcnt, if_pos rfl, Function.update_self, Finset.card_insert_of_notMem href,
        h.refcnt]
      omega
    · rw [Bio.bpin_refcnt, if_neg hb, Function.update_of_ne hb]
      exact h.refcnt b'
  · by_cases hqp : q = p
    · subst hqp
      rw [Function.update_self, Phase.withGet_get hnot] at hq
      cases hq
      rw [Function.update_self]
      exact Finset.mem_insert_self ..
    · rw [Function.update_of_ne hqp] at hq
      exact hmem b' q (h.get q b' hq)

theorem bread (h : OpsOk start d) (hd : d.bread p b = some d') : OpsOk start d' := by
  obtain ⟨⟨hp, hfree⟩, hd⟩ := Option.ite_none_right_eq_some.1 hd
  cases hd
  have hnot : (d.phase p).commits = false := by
    cases hph : d.phase p <;> rw [hph] at hp <;> first | rfl | cases hp
  refine h.of_buffers (withGet_phase _) h.refcnt (fun b' q hq => ?_) (fun q b' hq => ?_)
    (commitOk_withGet hnot _ fun q =>
      commitOk_of_bio Bio.bread_disk (fun b' _ => Bio.bread_data) (h.commit q))
  · by_cases hb : b' = b
    · subst hb
      rw [Function.update_self] at hq
      cases hq
      exact h.get p b' hp
    · rw [Function.update_of_ne hb] at hq
      exact h.owner b' q hq
  · by_cases hqp : q = p
    · subst hqp
      rw [Function.update_self, Phase.withGet_get hnot] at hq
      cases hq
    · rw [Function.update_of_ne hqp] at hq
      exact h.get q b' hq

theorem modify {x : Block} (h : OpsOk start d) (hd : d.modify p b start x = some d') :
    OpsOk start d' := by
  obtain ⟨⟨hp, -, -⟩, hd⟩ := Option.ite_none_right_eq_some.1 hd
  cases hd
  have hin : (d.phase p).inOp = true := by rw [hp]; rfl
  exact h.of_buffers (fun _ => ⟨rfl, rfl⟩) h.refcnt h.owner h.get
    fun q => commitOk_of_not_commits (h.not_commits hin q)

theorem brelse (h : OpsOk start d) (hd : d.brelse p b = some d') : OpsOk start d' := by
  obtain ⟨⟨hp, howner⟩, hd⟩ := Option.ite_none_right_eq_some.1 hd
  cases hd
  have href := h.owner b p howner
  refine h.of_buffers (fun _ => ⟨rfl, rfl⟩) (fun b' => ?_) (fun b' q hq => ?_) (fun q b' hq => ?_)
    fun q => commitOk_of_bio rfl (fun _ _ => rfl) (h.commit q)
  · by_cases hb : b' = b
    · subst hb
      have hpos := Finset.card_pos.2 ⟨p, href⟩
      rw [Bio.bunpin_refcnt, if_pos rfl, Function.update_self, Finset.card_erase_of_mem href,
        h.refcnt]
      omega
    · rw [Bio.bunpin_refcnt, if_neg hb, Function.update_of_ne hb]
      exact h.refcnt b'
  · by_cases hb : b' = b
    · subst hb
      rw [Function.update_self] at hq
      cases hq
    · rw [Function.update_of_ne hb] at hq ⊢
      exact h.owner b' q hq
  · have hne : q ≠ p := by
      rintro rfl
      rcases hp with hp | hp <;> rw [hp] at hq <;> cases hq
    by_cases hb : b' = b
    · subst hb
      rw [Function.update_self]
      exact Finset.mem_erase_of_ne_of_mem hne (h.get q b' hq)
    · rw [Function.update_of_ne hb]
      exact h.get q b' hq

/-- **A block that is still to be installed is not recycled.** -/
theorem refcnt_pos (h : OpsOk start d) (hb : b ∈ d.lh.drop d.installed) : d.bio.refcnt b ≠ 0 := by
  rw [h.refcnt, if_pos hb]
  omega

theorem recycle (h : OpsOk start d) (hd : d.recycle b = some d') : OpsOk start d' := by
  obtain ⟨hzero, hd⟩ := Option.ite_none_right_eq_some.1 hd
  cases hd
  refine h.of_buffers (fun _ => ⟨rfl, rfl⟩) h.refcnt h.owner h.get
    fun q => commitOk_of_bio (show (d.bio.recycle b).disk = d.bio.disk from rfl)
      (fun b' hb' => Bio.recycle_data ?_) (h.commit q)
  rintro rfl
  exact h.refcnt_pos hb' hzero

/-! ### Operations -/

/-- A process that does not wait for a buffer any more. -/
theorem get_update (h : OpsOk start d) {ph : Phase} (hph : ph.get = none) {q : Fin N}
    (hq : (Function.update d.phase p ph q).get = some b) : q ∈ d.refs b := by
  by_cases hqp : q = p
  · rw [hqp, Function.update_self, hph] at hq
    cases hq
  · rw [Function.update_of_ne hqp] at hq
    exact h.get q b hq

theorem not_commits_of_committing (h : OpsOk start d) (hc : d.committing = false) (q : Fin N) :
    (d.phase q).commits = false := by
  by_contra hq
  rw [(h.alone q ((Bool.not_eq_false _).mp hq)).1] at hc
  cases hc

theorem commits_update {ph : Phase} (hph : ph.commits = false)
    (h : ∀ q, (d.phase q).commits = false) (q : Fin N) :
    (Function.update d.phase p ph q).commits = false := by
  rw [Function.update_apply]
  split_ifs
  · exact hph
  · exact h q

theorem beginOp (h : OpsOk start d) (hd : d.beginOp p = some d') : OpsOk start d' := by
  obtain ⟨⟨hp, hcom, -⟩, hd⟩ := Option.ite_none_right_eq_some.1 hd
  cases hd
  have hnot : ∀ q, (Function.update d.phase p (.op none) q).commits = false :=
    commits_update rfl (h.not_commits_of_committing hcom)
  refine ⟨?_, fun q hq => ?_, fun hc => ?_, h.listed, h.refcnt, h.owner,
    fun q b hq => h.get_update rfl hq, fun q hq => ?_, h.ended, h.fresh, h.installed,
    fun q => commitOk_of_not_commits (hnot q)⟩
  · rw [h.outstanding_update, hp]
    simp [Phase.inOp]
  · rw [hnot q] at hq
    cases hq
  · rw [hcom] at hc
    cases hc
  · dsimp only at hq ⊢
    by_cases hqp : q = p
    · rw [hqp, Function.update_self]
      exact Finset.empty_subset _
    · rw [Function.update_of_ne hqp] at hq ⊢
      exact h.written q hq

/-- What `log_write` does to the header as a set. -/
theorem mem_logWrite {bio : Bio} {lh : List BlockNo} {b b' : BlockNo} :
    b' ∈ (Log.logWrite b lh bio).1 ↔ b' = b ∨ b' ∈ lh := by
  unfold Log.logWrite
  split_ifs with hb
  · refine ⟨.inr, ?_⟩
    rintro (rfl | hb')
    · exact hb
    · exact hb'
  · rw [List.mem_append, List.mem_singleton, or_comm]

theorem logWrite_refcnt {bio : Bio} {lh : List BlockNo} {b b' : BlockNo} :
    (Log.logWrite b lh bio).2.refcnt b' =
      if b' = b ∧ b ∉ lh then bio.refcnt b' + 1 else bio.refcnt b' := by
  unfold Log.logWrite
  split_ifs with hb hmem hmem
  · exact absurd hb hmem.2
  · rfl
  · rw [Bio.bpin_refcnt, if_pos hmem.1, hmem.1]
  · rw [Bio.bpin_refcnt, if_neg fun heq => hmem ⟨heq, hb⟩]

theorem logWrite {allow : Finset BlockNo → Bool} (h : OpsOk start d)
    (hd : d.logWrite p b allow start = some d') : OpsOk start d' := by
  obtain ⟨⟨⟨hp, howner, hhome, -⟩, hn, -⟩, hd⟩ := Option.ite_none_right_eq_some.1 hd
  cases hd
  have hin : (d.phase p).inOp = true := by rw [hp]; rfl
  have hinst := h.installed (h.not_committing hin)
  have hsub : d.lh.toFinset ⊆ (Log.logWrite b d.lh d.bio).1.toFinset := by
    intro b' hb'
    rw [List.mem_toFinset] at hb' ⊢
    exact mem_logWrite.2 (.inr hb')
  refine ⟨h.outstanding, h.alone, h.committing, ?_, fun b' => ?_, h.owner, h.get, fun q hq => ?_,
    h.ended.trans hsub, h.fresh, h.installed,
    fun q => commitOk_of_not_commits (h.not_commits hin q)⟩
  · exact h.listed.logWrite hhome (not_le.1 hn) d.bio
  · have hrefcnt := h.refcnt b'
    rw [hinst, List.drop_zero] at hrefcnt
    dsimp only
    rw [hinst, List.drop_zero, logWrite_refcnt, hrefcnt]
    by_cases hb : b' = b
    · by_cases hmem : b ∈ d.lh <;> simp [hb, hmem, mem_logWrite]
    · simp [hb, mem_logWrite]
  · dsimp only
    by_cases hqp : q = p
    · rw [hqp, Function.update_self, Finset.insert_subset_iff, List.mem_toFinset]
      exact ⟨mem_logWrite.2 (.inl rfl), (h.written p hin).trans hsub⟩
    · rw [Function.update_of_ne hqp]
      exact (h.written q hq).trans hsub

/-- The last operation to end is alone. -/
theorem not_inOp_of_last (h : OpsOk start d) (hp : (d.phase p).inOp = true)
    (hlast : d.outstanding - 1 = 0) {q : Fin N} (hq : q ≠ p) : (d.phase q).inOp = false := by
  have hsum := h.outstanding_update (p := p) .commit
  rw [if_pos hp, hlast] at hsum
  have hterm := (Finset.sum_eq_zero_iff_of_nonneg fun q _ => by split_ifs <;> omega).1 hsum q
    (Finset.mem_univ q)
  rw [Function.update_of_ne hq] at hterm
  by_contra hin
  rw [if_pos ((Bool.not_eq_false _).mp hin)] at hterm
  cases hterm

theorem endOp (h : OpsOk start d) (hd : d.endOp p = some d') : OpsOk start d' := by
  obtain ⟨⟨hp, hcom⟩, hd⟩ := Option.ite_none_right_eq_some.1 hd
  have hin : (d.phase p).inOp = true := by rw [hp]; rfl
  have hinst := h.installed hcom
  have hended : d.ended ∪ d.written p ⊆ d.lh.toFinset :=
    Finset.union_subset h.ended (h.written p hin)
  have hnot := h.not_commits hin
  split_ifs at hd with hlast <;> cases hd
  · have hnone : ∀ q, (Function.update d.phase p .commit q).inOp = false := by
      intro q
      rw [Function.update_apply]
      split_ifs with hq
      · rfl
      · exact h.not_inOp_of_last hin hlast hq
    refine ⟨?_, fun q hq => ⟨rfl, fun r hr => ⟨hnone r, ?_⟩⟩, fun _ => ⟨p, ?_⟩, h.listed, h.refcnt,
      h.owner, fun q b hq => h.get_update rfl hq, fun q hq => ?_, Finset.empty_subset _,
      fun _ => rfl, nofun, fun q => ?_⟩
    · rw [h.outstanding_update, if_pos hin]
      simp [Phase.inOp]
    · dsimp only at hq ⊢
      by_cases hqp : q = p
      · rw [Function.update_of_ne (hqp ▸ hr)]
        exact hnot r
      · rw [Function.update_of_ne hqp, hnot q] at hq
        cases hq
    · dsimp only
      rw [Function.update_self]
      rfl
    · rw [hnone q] at hq
      cases hq
    · dsimp only
      by_cases hqp : q = p
      · rw [hqp, Function.update_self]
        exact ⟨hinst, hended, fun _ _ => rfl⟩
      · rw [Function.update_of_ne hqp]
        exact commitOk_of_not_commits (hnot q)
  · have hnot' : ∀ q, (Function.update d.phase p (.out none) q).commits = false :=
      commits_update rfl hnot
    refine ⟨?_, fun q hq => ?_, fun hc => ?_, h.listed, h.refcnt, h.owner,
      fun q b hq => h.get_update rfl hq, fun q hq => ?_, hended, fun hc => ?_, h.installed,
      fun q => commitOk_of_not_commits (hnot' q)⟩
    · rw [h.outstanding_update, if_pos hin]
      simp [Phase.inOp]
    · rw [hnot' q] at hq
      cases hq
    · rw [hcom] at hc
      cases hc
    · dsimp only at hq ⊢
      by_cases hqp : q = p
      · rw [hqp, Function.update_self] at hq
        cases hq
      · rw [Function.update_of_ne hqp] at hq
        exact h.written q hq
    · rw [hcom] at hc
      cases hc

/-! ### The commit -/

/-- A step of the committing process from one phase of the commit to the next. -/
theorem of_commit (h : OpsOk start d) (hp : (d.phase p).commits = true) {ph : Phase}
    (hph : ph.commits = true) {bio : Bio} {lh : List BlockNo} {installed : ℕ}
    (hlisted : Listed start lh)
    (hrefcnt : ∀ b, bio.refcnt b = (d.refs b).card + if b ∈ lh.drop installed then 1 else 0)
    (hcommit : CommitOk start
      { d with bio := bio, lh := lh, phase := Function.update d.phase p ph, installed := installed }
      ph) :
    OpsOk start
      { d with
        bio := bio, lh := lh, phase := Function.update d.phase p ph, installed := installed } := by
  obtain ⟨hcom, halone⟩ := h.alone p hp
  have hin : (d.phase p).inOp = false := by
    by_contra hin
    rw [Phase.commits_of_inOp ((Bool.not_eq_false _).mp hin)] at hp
    cases hp
  have hin' : ph.inOp = false := by
    by_contra hin
    rw [Phase.commits_of_inOp ((Bool.not_eq_false _).mp hin)] at hph
    cases hph
  have hget : ph.get = none := by cases ph <;> first | rfl | cases hph
  have hnone : ∀ q, (Function.update d.phase p ph q).inOp = false := by
    intro q
    rw [Function.update_apply]
    split_ifs with hq
    · exact hin'
    · exact (halone q hq).1
  refine ⟨?_, fun q hq => ⟨hcom, fun r hr => ⟨hnone r, ?_⟩⟩, fun _ => ⟨p, ?_⟩, hlisted, hrefcnt,
    h.owner, fun q b hq => h.get_update hget hq, fun q hq => ?_, ?_, h.fresh, fun hc => ?_,
    fun q => ?_⟩
  · rw [h.outstanding_update, hin, hin']
    simp
  · dsimp only at hq ⊢
    by_cases hqp : q = p
    · rw [Function.update_of_ne (hqp ▸ hr)]
      exact (halone r (hqp ▸ hr)).2
    · rw [Function.update_of_ne hqp, (halone q hqp).2] at hq
      cases hq
  · dsimp only
    rw [Function.update_self]
    exact hph
  · rw [hnone q] at hq
    cases hq
  · dsimp only
    rw [h.fresh hcom]
    exact Finset.empty_subset _
  · rw [hcom] at hc
    cases hc
  · dsimp only
    by_cases hqp : q = p
    · rw [hqp, Function.update_self]
      exact hcommit
    · rw [Function.update_of_ne hqp]
      exact commitOk_of_not_commits (halone q hqp).2

theorem commit_step (h : OpsOk start d) (hd : d.commit p = some d') : OpsOk start d' := by
  obtain ⟨hp, hd⟩ := Option.ite_none_right_eq_some.1 hd
  cases hd
  have hcom : (d.phase p).commits = true := by rw [hp]; rfl
  have hok := h.commit p
  rw [hp] at hok
  obtain ⟨hinst, hdue, hsnap⟩ := hok
  split_ifs with hn
  · refine h.of_commit hcom rfl h.listed h.refcnt ⟨hinst, hdue, hsnap, fun i hi => ?_⟩
    exact absurd hi (Nat.not_lt_zero i)
  · refine h.of_commit hcom rfl h.listed h.refcnt ⟨hinst, ?_⟩
    exact List.length_eq_zero_iff.1 (Nat.eq_zero_of_not_pos hn)

theorem writeLog {tail : ℕ} (h : OpsOk start d) (hd : d.writeLog p b start tail = some d') :
    OpsOk start d' := by
  obtain ⟨⟨hp, hb, -, -⟩, hd⟩ := Option.ite_none_right_eq_some.1 hd
  cases hd
  have hcom : (d.phase p).commits = true := by rw [hp]; rfl
  have hok := h.commit p
  rw [hp] at hok
  obtain ⟨hinst, hdue, hsnap, hlog⟩ := hok
  have htail := h.listed.lt hb
  refine h.of_commit hcom rfl h.listed h.refcnt
    ⟨hinst, hdue, fun b' hb' => ?_, fun i hi b' hib => ?_⟩
  · have hne : b' ≠ logBlock start tail := by
      rintro rfl
      exact h.listed.home _ hb' (logBlock_mem_logArea htail)
    dsimp only
    rw [writeLog_data, if_neg hne]
    exact hsnap b' hb'
  · dsimp only
    rw [writeLog_disk]
    rcases Nat.lt_succ_iff_lt_or_eq.1 hi with hi | rfl
    · have hne : logBlock start i ≠ logBlock start tail := by
        intro heq
        have := logBlock_injective (h.listed.lt hib) htail heq
        omega
      rw [Function.update_of_ne hne]
      exact hlog i hi b' hib
    · rw [Function.update_self]
      cases hb.symm.trans hib
      exact hsnap b (List.mem_of_getElem? hb)

theorem writeHead (h : OpsOk start d) (hd : d.writeHead p start = some d') : OpsOk start d' := by
  obtain ⟨⟨hp, -⟩, hd⟩ := Option.ite_none_right_eq_some.1 hd
  cases hd
  have hcom : (d.phase p).commits = true := by rw [hp]; rfl
  have hok := h.commit p
  rw [hp] at hok
  obtain ⟨hinst, hdue, hsnap, hlog⟩ := hok
  refine h.of_commit hcom rfl h.listed h.refcnt ⟨hinst, hdue, ?_, fun i b hib => ?_⟩
  · dsimp only
    rw [writeHead_disk, Function.update_self, decodeHead_encodeHead h.listed.length_le]
  · dsimp only
    rw [writeHead_disk, Function.update_of_ne (logBlock_ne_start (h.listed.lt hib))]
    exact hlog i (List.getElem?_eq_some_iff.1 hib).1 b hib

theorem installTrans {tail : ℕ} (h : OpsOk start d)
    (hd : d.installTrans p b start tail = some d') : OpsOk start d' := by
  obtain ⟨⟨hp, hb, -, -⟩, hd⟩ := Option.ite_none_right_eq_some.1 hd
  cases hd
  have hcom : (d.phase p).commits = true := by rw [hp]; rfl
  have hok := h.commit p
  rw [hp] at hok
  obtain ⟨hinst, hdue, hhead, hlog⟩ := hok
  have hmem := List.mem_of_getElem? hb
  have hdrop := drop_eq_cons hb
  have hnodup := h.listed.nodup.sublist (List.drop_sublist tail d.lh)
  rw [hdrop, List.nodup_cons] at hnodup
  have hhome := h.listed.home b hmem
  refine h.of_commit hcom rfl h.listed (fun b' => ?_) ⟨rfl, hdue, ?_, fun i b' hib => ?_⟩
  · have hrefcnt := h.refcnt b'
    rw [hinst, hdrop] at hrefcnt
    by_cases hbb : b' = b
    · rw [hbb] at hrefcnt ⊢
      rw [installTrans_refcnt_self, hrefcnt, if_neg hnodup.1, if_pos (List.mem_cons_self ..)]
      rfl
    · rw [installTrans_refcnt hbb, hrefcnt]
      simp [hbb]
  · have hne : start ≠ b := by
      rintro rfl
      exact hhome start_mem_logArea
    dsimp only
    rw [installTrans_disk, Function.update_of_ne hne]
    exact hhead
  · have hne : logBlock start i ≠ b := by
      rintro rfl
      exact hhome (logBlock_mem_logArea (h.listed.lt hib))
    dsimp only
    rw [installTrans_disk, Function.update_of_ne hne]
    exact hlog i b' hib

theorem clear (h : OpsOk start d) (hd : d.clear p start = some d') : OpsOk start d' := by
  obtain ⟨⟨hp, -⟩, hd⟩ := Option.ite_none_right_eq_some.1 hd
  cases hd
  have hcom : (d.phase p).commits = true := by rw [hp]; rfl
  have hok := h.commit p
  rw [hp] at hok
  refine h.of_commit hcom rfl Listed.nil (fun b => ?_) ⟨rfl, rfl⟩
  have hrefcnt := h.refcnt b
  rw [hok.1, List.drop_length] at hrefcnt
  exact hrefcnt

theorem finish (h : OpsOk start d) (hd : d.finish p = some d') : OpsOk start d' := by
  obtain ⟨hp, hd⟩ := Option.ite_none_right_eq_some.1 hd
  cases hd
  have hcom : (d.phase p).commits = true := by rw [hp]; rfl
  have hok := h.commit p
  rw [hp] at hok
  have hin : (d.phase p).inOp = false := by rw [hp]; rfl
  have halone := (h.alone p hcom).2
  have hnot : ∀ q, (Function.update d.phase p (.out none) q).commits = false ∧
      (Function.update d.phase p (.out none) q).inOp = false := by
    intro q
    rw [Function.update_apply]
    split_ifs with hq
    · exact ⟨rfl, rfl⟩
    · exact (halone q hq).symm
  refine ⟨?_, fun q hq => ?_, nofun, h.listed, h.refcnt, h.owner,
    fun q b hq => h.get_update rfl hq, fun q hq => ?_, h.ended, nofun, fun _ => hok.1,
    fun q => commitOk_of_not_commits (hnot q).1⟩
  · rw [h.outstanding_update, hin]
    simp [Phase.inOp]
  · rw [(hnot q).1] at hq
    cases hq
  · rw [(hnot q).2] at hq
    cases hq

theorem act {allow : Finset BlockNo → Bool} {a : Action} (h : OpsOk start d)
    (hd : d.act allow start p a = some d') : OpsOk start d' := by
  cases a with
  | beginOp => exact h.beginOp hd
  | endOp => exact h.endOp hd
  | commit => exact h.commit_step hd
  | writeHead => exact h.writeHead hd
  | clear => exact h.clear hd
  | finish => exact h.finish hd
  | logWrite => exact h.logWrite hd
  | bget => exact h.bget hd
  | bread => exact h.bread hd
  | brelse => exact h.brelse hd
  | recycle => exact h.recycle hd
  | modify => exact h.modify hd
  | writeLog => exact h.writeLog hd
  | installTrans => exact h.installTrans hd

end OpsOk

theorem Data.Init.opsOk {start : BlockNo} {d : Data N} (h : d.Init) : OpsOk start d where
  outstanding := by simp [h.outstanding, h.phase, Phase.inOp]
  alone p hp := by
    rw [h.phase p] at hp
    cases hp
  committing hc := by
    rw [h.committing] at hc
    cases hc
  listed := h.lh ▸ Listed.nil
  refcnt b := by simp [h.refcnt, h.refs, h.lh]
  owner b p hp := by
    rw [h.owner b] at hp
    cases hp
  get p b hp := by
    rw [h.phase p] at hp
    cases hp
  written p hp := by
    rw [h.phase p] at hp
    cases hp
  ended := by
    rw [h.ended]
    exact Finset.empty_subset _
  fresh _ := h.ended
  installed _ := h.installed
  commit p := by
    rw [h.phase p]
    trivial

theorem opsOk_of_reachable {start : BlockNo} {allow : Finset BlockNo → Bool} {d : Data N}
    (hd : (ops allow start).Reachable d) : OpsOk start d := by
  refine LTS.Reachable.invariant (fun d h => ?_) (fun d e d' _ h t => ?_) hd
  · exact h.opsOk
  · exact h.act t

/-! ## The reservation -/

/-- An operation passes at most `MAXOPBLOCKS` blocks to `log_write`. -/
def small (w : Finset BlockNo) : Bool := w.card ≤ MAXOPBLOCKS

/-- How many more blocks the operation of `p` may log. -/
def Data.unused (d : Data N) (p : Fin N) : ℤ :=
  if (d.phase p).inOp then MAXOPBLOCKS - (d.written p).card else 0

/-- **The reservation**: the logged blocks, and the blocks that the current operations may still
log, fit into the log. -/
structure Reserved (d : Data N) : Prop where
  card_le : ∀ p, (d.phase p).inOp → (d.written p).card ≤ MAXOPBLOCKS
  space : d.lh.length + ∑ p, d.unused p ≤ LOGBLOCKS

namespace Reserved

variable {start : BlockNo} {d d' : Data N} {p : Fin N} {b : BlockNo}

theorem unused_nonneg (h : Reserved d) (p : Fin N) : 0 ≤ d.unused p := by
  unfold Data.unused
  split_ifs with hp
  · have := h.card_le p hp
    omega
  · exact le_refl 0

/-- The reservation of the operations is at most `MAXOPBLOCKS` for each. -/
theorem sum_unused_le (h : OpsOk start d) : ∑ p, d.unused p ≤ d.outstanding * MAXOPBLOCKS := by
  rw [h.outstanding, Finset.sum_mul]
  refine Finset.sum_le_sum fun p _ => ?_
  unfold Data.unused
  split_ifs <;> omega

/-- A step that logs nothing, and after which no operation may log more. -/
theorem of_le (h : Reserved d) (hlh : d'.lh.length ≤ d.lh.length)
    (hstep : ∀ p, (d'.phase p).inOp → (d.phase p).inOp = true ∧ d'.written p = d.written p) :
    Reserved d' := by
  refine ⟨fun p hp => ?_, ?_⟩
  · rw [(hstep p hp).2]
    exact h.card_le p (hstep p hp).1
  · have hsum : ∑ p, d'.unused p ≤ ∑ p, d.unused p := by
      refine Finset.sum_le_sum fun p _ => ?_
      by_cases hp : (d'.phase p).inOp = true
      · unfold Data.unused
        rw [if_pos hp, if_pos (hstep p hp).1, (hstep p hp).2]
      · have hzero : d'.unused p = 0 := if_neg hp
        rw [hzero]
        exact h.unused_nonneg p
    have := h.space
    omega

/-- A step after which `p` is in a phase outside of operations. -/
theorem of_update (h : Reserved d) {ph : Phase} (hlh : d'.lh.length ≤ d.lh.length)
    (hphase : d'.phase = Function.update d.phase p ph) (hph : ph.inOp → (d.phase p).inOp = true)
    (hwritten : d'.written = d.written) : Reserved d' := by
  refine h.of_le hlh fun q hq => ⟨?_, by rw [hwritten]⟩
  rw [hphase, Function.update_apply] at hq
  split_ifs at hq with hqp
  · exact hqp ▸ hph hq
  · exact hq

theorem beginOp (hok : OpsOk start d) (h : Reserved d) (hd : d.beginOp p = some d') :
    Reserved d' := by
  obtain ⟨⟨hp, -, hadmit⟩, hd⟩ := Option.ite_none_right_eq_some.1 hd
  cases hd
  refine ⟨fun q hq => ?_, ?_⟩
  · dsimp only at hq ⊢
    by_cases hqp : q = p
    · rw [hqp, Function.update_self]
      exact Nat.zero_le _
    · rw [Function.update_of_ne hqp] at hq ⊢
      exact h.card_le q hq
  · have hne : ∀ q, q ≠ p → Data.unused { d with
        outstanding := d.outstanding + 1
        phase := Function.update d.phase p (.op none)
        written := Function.update d.written p ∅ } q = d.unused q := by
      intro q hq
      simp only [Data.unused, Function.update_of_ne hq]
    have hself : Data.unused { d with
        outstanding := d.outstanding + 1
        phase := Function.update d.phase p (.op none)
        written := Function.update d.written p ∅ } p = MAXOPBLOCKS := by
      simp [Data.unused, Phase.inOp]
    have hold : d.unused p = 0 := by
      simp [Data.unused, hp, Phase.inOp]
    have hle := sum_unused_le hok
    rw [sum_of_ne hne, hself, hold]
    have hmax : (d.outstanding + 1) * (MAXOPBLOCKS : ℤ) =
        d.outstanding * MAXOPBLOCKS + MAXOPBLOCKS := by
      rw [add_mul, one_mul]
    dsimp only
    omega

theorem logWrite (hok : OpsOk start d) (h : Reserved d)
    (hd : d.logWrite p b small start = some d') : Reserved d' := by
  obtain ⟨⟨⟨hp, -, -, hallow⟩, -, -⟩, hd⟩ := Option.ite_none_right_eq_some.1 hd
  cases hd
  have hin : (d.phase p).inOp = true := by rw [hp]; rfl
  have hcard : (insert b (d.written p)).card ≤ MAXOPBLOCKS := of_decide_eq_true hallow
  refine ⟨fun q hq => ?_, ?_⟩
  · dsimp only at hq ⊢
    by_cases hqp : q = p
    · rwa [hqp, Function.update_self]
    · rw [Function.update_of_ne hqp]
      exact h.card_le q hq
  · have hne : ∀ q, q ≠ p → Data.unused { d with
        lh := (Log.logWrite b d.lh d.bio).1
        bio := (Log.logWrite b d.lh d.bio).2
        written := Function.update d.written p (insert b (d.written p)) } q = d.unused q := by
      intro q hq
      simp only [Data.unused, Function.update_of_ne hq]
    have hself : Data.unused { d with
        lh := (Log.logWrite b d.lh d.bio).1
        bio := (Log.logWrite b d.lh d.bio).2
        written := Function.update d.written p (insert b (d.written p)) } p =
        MAXOPBLOCKS - (insert b (d.written p)).card := by
      simp only [Data.unused, hin, if_true, Function.update_self]
    have hold : d.unused p = MAXOPBLOCKS - (d.written p).card := if_pos hin
    have hspace := h.space
    rw [sum_of_ne hne, hself, hold]
    -- a block that is not in the log yet is charged to the operation
    by_cases hmem : b ∈ d.lh
    · have hcard' := Finset.card_le_card (Finset.subset_insert b (d.written p))
      simp only [Log.logWrite, if_pos hmem]
      omega
    · have hnew : b ∉ d.written p := fun hb => hmem (List.mem_toFinset.1 (hok.written p hin hb))
      rw [Finset.card_insert_of_notMem hnew]
      simp only [Log.logWrite, if_neg hmem, List.length_append, List.length_singleton]
      omega

theorem act {a : Action} (hok : OpsOk start d) (h : Reserved d)
    (hd : d.act small start p a = some d') : Reserved d' := by
  cases a with
  | beginOp => exact h.beginOp hok hd
  | logWrite => exact h.logWrite hok hd
  | endOp =>
    obtain ⟨-, hd⟩ := Option.ite_none_right_eq_some.1 hd
    split_ifs at hd <;> cases hd <;> exact h.of_update (le_refl _) rfl nofun rfl
  | commit =>
    obtain ⟨-, hd⟩ := Option.ite_none_right_eq_some.1 hd
    cases hd
    exact h.of_update (le_refl _) rfl (by split_ifs <;> nofun) rfl
  | clear =>
    obtain ⟨-, hd⟩ := Option.ite_none_right_eq_some.1 hd
    cases hd
    exact h.of_update (Nat.zero_le _) rfl nofun rfl
  | writeHead | finish | writeLog | installTrans =>
    obtain ⟨-, hd⟩ := Option.ite_none_right_eq_some.1 hd
    cases hd
    exact h.of_update (le_refl _) rfl nofun rfl
  | bget | bread =>
    obtain ⟨-, hd⟩ := Option.ite_none_right_eq_some.1 hd
    cases hd
    exact h.of_update (le_refl _) rfl (by rw [Phase.withGet_inOp]; exact id) rfl
  | brelse | recycle | modify =>
    obtain ⟨-, hd⟩ := Option.ite_none_right_eq_some.1 hd
    cases hd
    exact h.of_le (le_refl _) fun q hq => ⟨hq, rfl⟩

end Reserved

theorem reserved_of_reachable {start : BlockNo} {d : Data N}
    (hd : (ops small start).Reachable d) : Reserved d := by
  refine LTS.Reachable.invariant (fun d h => ?_) (fun d e d' hd h t => ?_) hd
  · refine ⟨fun p hp => ?_, ?_⟩
    · rw [h.phase p] at hp
      cases hp
    · rw [h.lh]
      simp [Data.unused, h.phase, Phase.inOp]
  · exact h.act (opsOk_of_reachable hd) t

/-! ## The panic of `log_write` -/

/-- The operation of `p` calls `log_write(b)`, and keeps to `allow`. -/
structure Data.Calls (d : Data N) (allow : Finset BlockNo → Bool) (start : BlockNo) (p : Fin N)
    (b : BlockNo) : Prop where
  phase : d.phase p = .op none
  owner : d.owner b = some p
  home : b ∉ logArea start
  allow : allow (insert b (d.written p)) = true

/-- `log_write` panics: `too big a transaction`. -/
def Data.TooBig (d : Data N) : Prop := LOGBLOCKS ≤ d.lh.length

/-- `log_write` panics: `log_write outside of trans`. -/
def Data.OutsideOfTrans (d : Data N) : Prop := d.outstanding < 1

/-- **The reservation is sound up to absorption.** When an operation that keeps to its
`MAXOPBLOCKS` blocks calls `log_write(b)`, it panics if and only if the log is exactly full and `b`
is logged already. So a run in which no operation does that has no panic. -/
theorem tooBig_iff {start : BlockNo} {d : Data N} (hd : (ops small start).Reachable d) {p : Fin N}
    {b : BlockNo} (hcall : d.Calls small start p b) :
    (d.TooBig ↔ d.lh.length = LOGBLOCKS ∧ b ∈ d.lh) ∧ ¬d.OutsideOfTrans := by
  have hok := opsOk_of_reachable hd
  have h := reserved_of_reachable hd
  have hin : (d.phase p).inOp = true := by rw [hcall.phase]; rfl
  refine ⟨⟨fun hbig => ?_, fun hfull => hfull.1.ge⟩, fun hout => ?_⟩
  · have hlen : d.lh.length = LOGBLOCKS := le_antisymm hok.listed.length_le hbig
    refine ⟨hlen, ?_⟩
    by_contra hmem
    -- a new block would be within the reservation of `p`
    have hnew : b ∉ d.written p := fun hb => hmem (List.mem_toFinset.1 (hok.written p hin hb))
    have hcard : (insert b (d.written p)).card ≤ MAXOPBLOCKS := of_decide_eq_true hcall.allow
    rw [Finset.card_insert_of_notMem hnew] at hcard
    have hself : d.unused p = MAXOPBLOCKS - (d.written p).card := if_pos hin
    have hle := Finset.single_le_sum (fun q _ => h.unused_nonneg q) (Finset.mem_univ p)
    have hspace := h.space
    omega
  · have hone := Finset.single_le_sum (f := fun q => if (d.phase q).inOp then (1 : ℤ) else 0)
      (fun q _ => by split_ifs <;> omega) (Finset.mem_univ p)
    rw [← hok.outstanding] at hone
    simp only [hin, if_true] at hone
    exact absurd hout (not_lt.2 hone)

/-! ### A run that panics -/

/-- No operation, an empty log, no buffers in use, and a disk of zeros. -/
def Data.empty (N : ℕ) : Data N where
  bio := ⟨fun _ _ => 0, fun _ => none, fun _ => 0⟩
  owner _ := none
  refs _ := ∅
  lh := []
  outstanding := 0
  committing := false
  phase _ := .out none
  written _ := ∅
  ended := ∅
  due := ∅
  snapshot _ _ := 0
  installed := 0

theorem Data.init_empty : (Data.empty N).Init :=
  ⟨fun _ => rfl, rfl, rfl, rfl, rfl, rfl, fun _ => rfl, fun _ => rfl, fun _ => rfl⟩

/-- The processes do one thing after another. -/
def Data.run (allow : Finset BlockNo → Bool) (start : BlockNo) :
    List (Fin N × Action) → Data N → Option (Data N)
  | [], d => some d
  | (p, a) :: as, d => (d.act allow start p a).bind (run allow start as)

theorem reachable_of_run {allow : Finset BlockNo → Bool} {start : BlockNo}
    {as : List (Fin N × Action)} {d d' : Data N} (hd : (ops allow start).Reachable d)
    (hrun : d.run allow start as = some d') : (ops allow start).Reachable d' := by
  induction as generalizing d with
  | nil =>
    cases hrun
    exact hd
  | cons e as ih =>
    obtain ⟨d₁, hact, hrest⟩ := Option.bind_eq_some_iff.1 hrun
    exact ih (hd.step hact) hrest

/-- A run from the empty log whose last state passes a test. -/
theorem exists_of_run {allow : Finset BlockNo → Bool} {start : BlockNo}
    {as : List (Fin N × Action)} {f : Data N → Bool}
    (hrun : ((Data.empty N).run allow start as).any f = true) :
    ∃ d, (ops allow start).Reachable d ∧ f d = true := by
  obtain ⟨d, hd, hf⟩ := (Option.any_eq_true f _).1 hrun
  exact ⟨d, reachable_of_run ⟨[], .init Data.init_empty⟩ hd, hf⟩

/-- An operation may log its first block. -/
theorem tooBig_iff_of_bread : ∃ d : Data 1, (ops small 2).Reachable d ∧ d.Calls small 2 0 100 ∧
    ¬d.TooBig := by
  have hrun : ((Data.empty 1).run small 2 [(0, .beginOp), (0, .bget 100), (0, .bread 100)]).any
      (fun d => decide (d.phase 0 = .op none) && (decide (d.owner 100 = some 0) &&
        (small (insert 100 (d.written 0)) && decide (d.lh = [])))) = true := by decide +kernel
  obtain ⟨d, hd, hall⟩ := exists_of_run hrun
  simp only [Bool.and_eq_true, decide_eq_true_eq] at hall
  obtain ⟨hphase, howner, hallow, hlh⟩ := hall
  have hcall : d.Calls small 2 0 100 := ⟨hphase, howner, by decide, hallow⟩
  refine ⟨d, hd, hcall, fun hbig => ?_⟩
  have hmem := ((tooBig_iff hd hcall).1.1 hbig).2
  rw [hlh] at hmem
  cases hmem

/-- The operation of `p` logs the blocks `bs`. -/
def logAll (p : Fin N) (bs : List BlockNo) : List (Fin N × Action) :=
  bs.flatMap fun b => [(p, .bget b), (p, .bread b), (p, .logWrite b), (p, .brelse b)]

/-- Two operations of process 0 and one of process 1 log ten blocks each before any commit, and
process 1 takes up the first of its blocks again. -/
def fullLog : List (Fin 2 × Action) :=
  [(0, .beginOp), (1, .beginOp)] ++
    logAll 0 [100, 101, 102, 103, 104, 105, 106, 107, 108, 109] ++
    [(0, .endOp), (0, .beginOp)] ++
    logAll 0 [110, 111, 112, 113, 114, 115, 116, 117, 118, 119] ++
    [(0, .endOp)] ++
    logAll 1 [120, 121, 122, 123, 124, 125, 126, 127, 128, 129] ++
    [(1, .bget 120), (1, .bread 120)]

/-- In that run `log_write` panics, although every operation keeps to ten blocks. -/
theorem tooBig_of_fullLog : ∃ d : Data 2, (ops small 2).Reachable d ∧ d.Calls small 2 1 120 ∧
    d.TooBig := by
  have hrun : ((Data.empty 2).run small 2 fullLog).any (fun d => decide (d.phase 1 = .op none) &&
      (decide (d.owner 120 = some 1) && (small (insert 120 (d.written 1)) &&
        decide (LOGBLOCKS ≤ d.lh.length)))) = true := by decide +kernel
  obtain ⟨d, hd, hall⟩ := exists_of_run hrun
  simp only [Bool.and_eq_true, decide_eq_true_eq] at hall
  obtain ⟨hphase, howner, hallow, hbig⟩ := hall
  exact ⟨d, hd, ⟨hphase, howner, by decide, hallow⟩, hbig⟩

end Xv6.Log
