import Xv6.Kernel.Sleeplock
import Xv6.Log.Ops

/-!
# The log on the kernel

The processes of `Xv6.Log.Ops` as a client of the kernel: the critical sections are those of the
spinlock `n`, which is `log.lock`, and `begin_op` sleeps on the channel `a`, which is `&log`.

The program points determine the phases that the shared data record, so the invariant of the log
holds in every reachable state of the kernel, under any interleaving of the CPUs, interrupts and
`kkill`s; and `begin_op` is a monitor, so that no process sleeps in it that it would admit.
`log_isolation` puts these together.
-/

namespace Xv6.Log

open Kernel

variable {κ : Type} {N : ℕ}

/-! ## The processes -/

/-- The program points of a process that uses the log. -/
inductive Point
  /-- in user space -/
  | user
  /-- in the kernel, outside of an operation -/
  | sys
  /-- `begin_op`: the loop, `log.lock` held -/
  | beginOp
  /-- inside of an operation -/
  | op
  /-- `log_write(b)`, `log.lock` held -/
  | logWrite (b : BlockNo)
  /-- `end_op`, `log.lock` held -/
  | endOp
  /-- `end_op`: before `release(&log.lock)` -/
  | release
  /-- `bread(b)`: waiting for the buffer -/
  | bread (inOp : Bool) (b : BlockNo)
  /-- `commit()` -/
  | commit
  /-- `write_log`, before the round `tail` -/
  | writeLog (tail : ℕ)
  /-- `install_trans`, before the round `tail` -/
  | install (tail : ℕ)
  /-- `end_op`: after `commit()` -/
  | committed
  /-- `end_op`: before `log.committing = 0`, `log.lock` held -/
  | finish

/-- Where a process reads blocks. -/
def Point.base : Bool → Point
  | true => .op
  | false => .sys

/-- The phase at a program point. -/
def Point.phase : Point → Phase
  | .user | .sys | .beginOp | .release => .out none
  | .op | .logWrite _ | .endOp => .op none
  | .bread false b => .out (some b)
  | .bread true b => .op (some b)
  | .commit => .commit
  | .writeLog tail => .writeLog tail
  | .install tail => .install tail
  | .committed | .finish => .committed

/-- `log.lock` is held at this program point. -/
def Point.locked : Point → Bool
  | .beginOp | .logWrite _ | .endOp | .release | .finish => true
  | _ => false

variable (n a : ℕ) (allow : Finset BlockNo → Bool) (start : BlockNo)

/-- What the process `p` does. -/
inductive LogUser (p : Fin N) : Point → Data N → Data N → List (Instr N Point) → Prop
  | syscall {d} : LogUser p .user d d [.user .sys]
  | ret {d} : LogUser p .sys d d [.killed .sys .user]
  | unrelated {d k} (h : Unrelated .sys k) : LogUser p .sys d d k
  | exit {d} (status : ℤ) : LogUser p .sys d d [.kexit status]
  -- begin_op
  | beginOp {d} : LogUser p .sys d d [.acquire (.other n), .user .beginOp]
  | wait {d} (h : ¬d.admits) :
      LogUser p .beginOp d d [.sleep (.addr a) (.other n), .user .beginOp]
  | admitted {d d'} (h : d.beginOp p = some d') :
      LogUser p .beginOp d d' [.release (.other n), .user .op]
  -- buffers
  | bget {d d' inOp b} (h : d.bget p b = some d') :
      LogUser p (.base inOp) d d' [.user (.bread inOp b)]
  | bread {d d' inOp b} (h : d.bread p b = some d') :
      LogUser p (.bread inOp b) d d' [.user (.base inOp)]
  | brelse {d d' inOp b} (h : d.brelse p b = some d') :
      LogUser p (.base inOp) d d' [.user (.base inOp)]
  | recycle {u d d' b} (h : d.recycle b = some d') : LogUser p u d d' [.user u]
  | modify {d d' b x} (h : d.modify p b start x = some d') : LogUser p .op d d' [.user .op]
  -- log_write
  | logWrite {d b} : LogUser p .op d d [.acquire (.other n), .user (.logWrite b)]
  | logged {d d' b} (h : d.logWrite p b allow start = some d') :
      LogUser p (.logWrite b) d d' [.release (.other n), .user .op]
  -- end_op
  | endOp {d} : LogUser p .op d d [.acquire (.other n), .user .endOp]
  | ended {d d'} (h : d.endOp p = some d') (hc : d'.committing = false) :
      LogUser p .endOp d d' [.wakeup (.addr a) 0, .user .release]
  | last {d d'} (h : d.endOp p = some d') (hc : d'.committing = true) :
      LogUser p .endOp d d' [.release (.other n), .user .commit]
  | release {d} : LogUser p .release d d [.release (.other n), .user .sys]
  -- commit
  | commit {d d'} (h : d.commit p = some d') (hn : d.lh.length > 0) :
      LogUser p .commit d d' [.user (.writeLog 0)]
  | commitEmpty {d d'} (h : d.commit p = some d') (hn : ¬d.lh.length > 0) :
      LogUser p .commit d d' [.user .committed]
  | writeLog {d d' tail b} (h : d.writeLog p b start tail = some d') :
      LogUser p (.writeLog tail) d d' [.user (.writeLog (tail + 1))]
  | writeHead {d d' tail} (h : d.writeHead p start = some d') :
      LogUser p (.writeLog tail) d d' [.user (.install 0)]
  | install {d d' tail b} (h : d.installTrans p b start tail = some d') :
      LogUser p (.install tail) d d' [.user (.install (tail + 1))]
  | clear {d d' tail} (h : d.clear p start = some d') :
      LogUser p (.install tail) d d' [.user .committed]
  | committed {d} : LogUser p .committed d d [.acquire (.other n), .user .finish]
  | finish {d d'} (h : d.finish p = some d') :
      LogUser p .finish d d' [.wakeup (.addr a) 0, .user .release]

/-- The processes that use the log. -/
def logUsers : Client N Point (Data N) where
  start := .sys
  killed := .sys
  inUser u := match u with
    | .user => true
    | _ => false
  sem := LogUser n a allow start
  locks _ u := if u.locked then {.other n} else ∅

variable {n a allow start} {p : Fin N} {u : Point} {d d' : Data N} {k : List (Instr N Point)}

theorem logUsers_disciplined :
    (logUsers n a allow start : Client N Point (Data N)).Disciplined where
  start _ := rfl
  killed _ := rfl
  calls p u d d' k h := by
    cases h with
    | unrelated h => exact h.isCall
    | _ => simp [Instr.IsCall]
  user p u d d' k h := by
    cases h with
    | unrelated h => exact h.disc rfl
    | @bget _ _ inOp | @bread _ _ inOp | @brelse _ _ inOp =>
      cases inOp <;> simp [Disc, logUsers, Point.base, Point.locked]
    | _ => simp [Disc, logUsers, Point.locked]

/-- A step of a process is one of `ops`, or leaves the shared data alone. -/
theorem LogUser.act (h : LogUser n a allow start p u d d' k) :
    d' = d ∨ ∃ e, d.act allow start p e = some d' := by
  cases h with
  | admitted h => exact .inr ⟨.beginOp, h⟩
  | @bget _ _ _ b h => exact .inr ⟨.bget b, h⟩
  | @bread _ _ _ b h => exact .inr ⟨.bread b, h⟩
  | @brelse _ _ _ b h => exact .inr ⟨.brelse b, h⟩
  | @recycle _ _ _ b h => exact .inr ⟨.recycle b, h⟩
  | @modify _ _ b x h => exact .inr ⟨.modify b x, h⟩
  | @logged _ _ b h => exact .inr ⟨.logWrite b, h⟩
  | ended h | last h => exact .inr ⟨.endOp, h⟩
  | commit h | commitEmpty h => exact .inr ⟨.commit, h⟩
  | @writeLog _ _ tail b h => exact .inr ⟨.writeLog tail b, h⟩
  | writeHead h => exact .inr ⟨.writeHead, h⟩
  | @install _ _ tail b h => exact .inr ⟨.installTrans tail b, h⟩
  | clear h => exact .inr ⟨.clear, h⟩
  | finish h => exact .inr ⟨.finish, h⟩
  | _ => exact .inl rfl

theorem OpsOk.logUser (hd : OpsOk start d) (h : LogUser n a allow start p u d d' k) :
    OpsOk start d' := by
  rcases h.act with rfl | ⟨e, hact⟩
  · exact hd
  · exact hd.act hact

/-! ## The phases -/

/-- The functions of the log move the process that calls them, and no other. -/
theorem phase_of_ite {c : Prop} [Decidable c] {x : Data N} {ph : Phase}
    (h : (if c then some x else none) = some d')
    (hx : x.phase = Function.update d.phase p ph) :
    d'.phase p = ph ∧ ∀ q, q ≠ p → d'.phase q = d.phase q := by
  obtain ⟨-, h⟩ := Option.ite_none_right_eq_some.1 h
  cases h
  rw [hx]
  exact ⟨Function.update_self .., fun q hq => Function.update_of_ne hq ..⟩

/-- Or they move nobody. -/
theorem phase_eq_of_ite {c : Prop} [Decidable c] {x : Data N} {ph : Phase}
    (h : (if c then some x else none) = some d') (hx : x.phase = d.phase) (hd : d.phase p = ph) :
    d'.phase p = ph ∧ ∀ q, q ≠ p → d'.phase q = d.phase q := by
  obtain ⟨-, h⟩ := Option.ite_none_right_eq_some.1 h
  cases h
  rw [hx]
  exact ⟨hd, fun _ _ => rfl⟩

theorem phase_endOp {ph : Phase} (h : d.endOp p = some d')
    (hph : ph = if d'.committing then .commit else .out none) :
    d'.phase p = ph ∧ ∀ q, q ≠ p → d'.phase q = d.phase q := by
  obtain ⟨⟨-, hcom⟩, h⟩ := Option.ite_none_right_eq_some.1 h
  split_ifs at h <;> cases h
  · rw [hph]
    exact ⟨Function.update_self .., fun q hq => Function.update_of_ne hq ..⟩
  · rw [hph, hcom]
    exact ⟨Function.update_self .., fun q hq => Function.update_of_ne hq ..⟩

theorem logUsers_phased :
    (logUsers n a allow start : Client N Point (Data N)).Phased Point.phase (.out none)
      Data.phase where
  start := rfl
  killed := rfl
  inUser u hu := by cases u <;> first | rfl | cases hu
  step p u d d' k h hrec := by
    cases h with
    | admitted h => exact phase_of_ite h rfl
    | @bget _ _ inOp b h => cases inOp <;> exact phase_of_ite h (by rw [hrec]; rfl)
    | @bread _ _ inOp b h => cases inOp <;> exact phase_of_ite h (by rw [hrec]; rfl)
    | @brelse _ _ inOp b h => cases inOp <;> exact phase_eq_of_ite h rfl hrec
    | recycle h | modify h | logged h => exact phase_eq_of_ite h rfl hrec
    | ended h hc | last h hc => exact phase_endOp h (by rw [hc]; rfl)
    | commit h hn | commitEmpty h hn => exact phase_of_ite h (by simp only [hn]; rfl)
    | writeLog h | writeHead h | install h | clear h | finish h => exact phase_of_ite h rfl
    | unrelated h => cases h <;> exact ⟨hrec, fun _ _ => rfl⟩
    | _ => exact ⟨hrec, fun _ _ => rfl⟩
  fair p u d d' k h := by
    cases h with
    | unrelated h => cases h <;> trivial
    | ret => rfl
    | _ => trivial

/-! ## No lost wakeup in `begin_op` -/

/-- What a process can rely on. -/
def Relies (start : BlockNo) (p : Fin N) (u : Point) (d : Data N) : Prop :=
  OpsOk start d ∧ d.phase p = u.phase

/-- Whether `begin_op` goes on depends on three fields. -/
theorem admits_congr (hlh : d'.lh = d.lh) (hout : d'.outstanding = d.outstanding)
    (hcom : d'.committing = d.committing) : d.admits ↔ d'.admits := by
  unfold Data.admits
  rw [hlh, hout, hcom]

theorem not_admits (h : d.committing = true) : ¬d.admits := by
  rintro ⟨hcom, -⟩
  rw [h] at hcom
  cases hcom

/-- A step that takes no lock does not change whether `begin_op` goes on. -/
theorem admits_of_unlocked (hI : Relies start p u d) (h : LogUser n a allow start p u d d' k)
    (hu : u.locked = false) : d.admits ↔ d'.admits := by
  obtain ⟨hok, hphase⟩ := hI
  cases h with
  | bget h | bread h | brelse h | recycle h | modify h | commit h | commitEmpty h | writeLog h
  | writeHead h | install h =>
    obtain ⟨-, h⟩ := Option.ite_none_right_eq_some.1 h
    cases h
    exact admits_congr rfl rfl rfl
  | clear h =>
    -- the log is emptied while the process commits
    obtain ⟨-, h⟩ := Option.ite_none_right_eq_some.1 h
    cases h
    have hcom := (hok.alone p (by rw [hphase]; rfl)).1
    exact iff_of_false (not_admits hcom) (not_admits hcom)
  | admitted | logged | ended | last | finish => cases hu
  | _ => exact Iff.rfl

theorem base_locked (inOp : Bool) : (Point.base inOp).locked = false := by
  cases inOp <;> rfl

/-- Only a step that wakes up the sleepers lets `begin_op` go on. -/
theorem wakeup_of_admits (hI : Relies start p u d) (h : LogUser n a allow start p u d d' k)
    (hd : ¬d.admits) (hd' : d'.admits) : ∃ k', k = .wakeup (.addr a) 0 :: k' := by
  cases id h with
  | ended | finish => exact ⟨_, rfl⟩
  | last _ hc => exact absurd hd' (not_admits hc)
  | admitted hb =>
    obtain ⟨⟨-, hadmits⟩, -⟩ := Option.ite_none_right_eq_some.1 hb
    exact absurd hadmits hd
  | @logged _ _ b hw =>
    obtain ⟨-, hw⟩ := Option.ite_none_right_eq_some.1 hw
    cases hw
    obtain ⟨hcom, hspace⟩ := hd'
    refine absurd ⟨hcom, ?_⟩ hd
    have hlen := length_le_logWrite b d.lh d.bio
    dsimp only at hspace
    omega
  | recycle hr =>
    obtain ⟨-, hr⟩ := Option.ite_none_right_eq_some.1 hr
    cases hr
    exact absurd hd' hd
  | wait | release => exact absurd hd' hd
  | bget | brelse => exact absurd ((admits_of_unlocked hI h (base_locked _)).2 hd') hd
  | _ => exact absurd ((admits_of_unlocked hI h rfl).2 hd') hd

theorem logUsers_monitor :
    (logUsers n a allow start : Client N Point (Data N)).Monitor n a (fun _ => False) Data.admits
      (Relies start) where
  loop p u d d' k h := by
    cases h with
    | wait h => exact .inr (.inl ⟨_, rfl, by simp [Calm, Instr.Marked], h⟩)
    | unrelated h => exact .inl (h.calm id)
    | _ => exact .inl (by simp [Calm, Instr.Marked])
  left _ _ := False.elim
  start := id
  killed := id
  change p u d d' k h hI := by
    cases hu : u.locked with
    | false => exact .inl (admits_of_unlocked hI h hu)
    | true =>
      have hlocks : (logUsers n a allow start : Client N Point (Data N)).locks p u = {.other n} :=
        if_pos hu
      exact .inr (by rw [hlocks]; rfl)
  wake p u d d' k h hI _ hd hd' := wakeup_of_admits hI h hd hd'

/-! ## Isolation -/

section Reachable

variable [DecidableEq κ] [NeZero N] {boot : κ} {s : State κ N Point (Data N)}

theorem logOk_of_reachable
    (hs : (kernel boot (logUsers n a allow start) Data.Init).Reachable s) :
    OpsOk start s.user := by
  refine data_of_reachable logUsers_disciplined logUsers_phased (fun d hd => ?_)
    (fun p u d d' k h _ hd => ?_) hs
  · exact ⟨hd.opsOk, hd.phase⟩
  · exact hd.logUser h

theorem phase_eq {k : List (Instr N Point)}
    (hs : (kernel boot (logUsers n a allow start) Data.Init).Reachable s) (hk : s.Thread p k) :
    phase Point.phase (.out none) k = s.user.phase p :=
  phase_of_thread logUsers_disciplined logUsers_phased (fun _ hd => hd.phase) hs hk

theorem relies_of_reachable
    (hs : (kernel boot (logUsers n a allow start) Data.Init).Reachable s) :
    s.Relies (Relies start) := by
  intro c p u k hwho hctl
  exact ⟨logOk_of_reachable hs, (phase_eq hs (.inl ⟨c, hwho, hctl.symm⟩)).symm⟩

end Reachable

/-- The process `p` is in the phase `ph` of the log. -/
def InPhase (s : State κ N Point (Data N)) (p : Fin N) (ph : Phase) : Prop :=
  ∃ k, s.Thread p k ∧ phase Point.phase (.out none) k = ph

/-- The process `p` is in `commit`: it has set `log.committing`, and has not cleared it. -/
def InCommit (s : State κ N Point (Data N)) (p : Fin N) : Prop :=
  ∃ ph, InPhase s p ph ∧ ph.commits = true

/-- The block `b` is logged, and `install_trans` has not installed it yet. -/
def Uninstalled (s : State κ N Point (Data N)) (b : BlockNo) : Prop :=
  b ∈ s.user.lh ∧ ∀ p tail, InPhase s p (.install tail) → b ∈ s.user.lh.drop tail

/-- The isolation of the operations from the commits. -/
structure Isolation (n a : ℕ) (start : BlockNo) (s : State κ N Point (Data N)) : Prop where
  /-- While `log.committing` is set, no operation is outstanding and one process commits. -/
  committing : s.user.committing = true → s.user.outstanding = 0 ∧ ∃! p, InCommit s p
  /-- `end_op` does not panic with `log.committing`. -/
  endOp : ∀ c k, (s.cpu c).ctl = .user .endOp :: k → s.user.committing = false
  nodup : s.user.lh.Nodup
  /-- A logged block that is not installed has one reference besides those of the processes that
  use it: one log pin. Its buffer cannot be recycled. -/
  pinned : ∀ b, Uninstalled s b → s.user.bio.refcnt b = (s.user.refs b).card + 1 ∧
    s.user.recycle b = none
  /-- When a commit starts, everything that operations which have entered `end_op` since the last
  one have passed to `log_write` is logged. -/
  due : ∀ p, InPhase s p .commit → s.user.due ⊆ s.user.lh.toFinset
  /-- When the header of a commit is on the disk, it lists all that was due, and the log blocks
  have what the buffers contained when the commit started. -/
  committed : ∀ p tail, InPhase s p (.install tail) →
    decodeHead (s.user.bio.disk start) = some s.user.lh ∧
    ∀ b ∈ s.user.due, ∃ i : ℕ, s.user.lh[i]? = some b ∧
      s.user.bio.disk (logBlock start i) = s.user.snapshot b
  /-- No process sleeps in `begin_op` that it would admit. -/
  awake : s.holder (.other n) = none → s.user.admits → ∀ p, ¬(s.mem.proc p).sleepsOn (.addr a)

section Reachable

variable [DecidableEq κ] [NeZero N] {boot : κ} {s : State κ N Point (Data N)}

theorem inPhase_iff (hs : (kernel boot (logUsers n a allow start) Data.Init).Reachable s)
    {ph : Phase} : InPhase s p ph ↔ s.user.phase p = ph := by
  refine ⟨?_, fun hph => ?_⟩
  · rintro ⟨k, hk, hph⟩
    rw [← hph, phase_eq hs hk]
  · obtain ⟨k, hk⟩ := exists_thread s p
    exact ⟨k, hk, (phase_eq hs hk).trans hph⟩

theorem inCommit_iff (hs : (kernel boot (logUsers n a allow start) Data.Init).Reachable s) :
    InCommit s p ↔ (s.user.phase p).commits = true := by
  refine ⟨?_, fun hp => ⟨_, (inPhase_iff hs).2 rfl, hp⟩⟩
  rintro ⟨ph, hph, hcom⟩
  rwa [(inPhase_iff hs).1 hph]

/-- What the record of the installed blocks says of a logged block. -/
theorem mem_drop_installed (hs : (kernel boot (logUsers n a allow start) Data.Init).Reachable s)
    {b : BlockNo} (hb : Uninstalled s b) : b ∈ s.user.lh.drop s.user.installed := by
  have hok := logOk_of_reachable hs
  obtain ⟨hmem, hdrop⟩ := hb
  cases hcom : s.user.committing with
  | false =>
    rw [hok.installed hcom]
    exact hmem
  | true =>
    obtain ⟨p, hp⟩ := hok.committing hcom
    have hcommit := hok.commit p
    cases hph : s.user.phase p with
    | out | op =>
      rw [hph] at hp
      cases hp
    | commit | writeLog =>
      rw [hph] at hcommit
      rw [hcommit.1]
      exact hmem
    | install tail =>
      rw [hph] at hcommit
      rw [hcommit.1]
      exact hdrop p tail ((inPhase_iff hs).2 hph)
    | committed =>
      rw [hph] at hcommit
      rw [hcommit.2] at hmem
      cases hmem

/-- **Isolation**, in every reachable state of the kernel. -/
theorem log_isolation (hs : (kernel boot (logUsers n a allow start) Data.Init).Reachable s) :
    Isolation n a start s := by
  have hok := logOk_of_reachable hs
  refine ⟨fun hcom => ?_, fun c k hctl => ?_, hok.listed.nodup, fun b hb => ?_, fun p hp => ?_,
    fun p tail hp => ?_, ?_⟩
  · obtain ⟨p, hp⟩ := hok.committing hcom
    refine ⟨hok.outstanding_eq_zero hp, p, (inCommit_iff hs).2 hp, fun q hq => ?_⟩
    by_contra hne
    have hq' := (inCommit_iff hs).1 hq
    rw [((hok.alone p hp).2 q hne).2] at hq'
    cases hq'
  · obtain ⟨p, hproc, -⟩ :=
      ((safe_of_reachable logUsers_disciplined hs).cpu c).disc hctl (by simp)
    have hwho := (((safe_of_reachable logUsers_disciplined hs).cpu c).who_eq_proc hctl
      (by simp)).trans hproc
    refine hok.not_committing (p := p) ?_
    rw [(relies_of_reachable hs c p _ k hwho hctl).2]
    rfl
  · have hdrop := mem_drop_installed hs hb
    have hrefcnt := hok.refcnt b
    rw [if_pos hdrop] at hrefcnt
    exact ⟨hrefcnt, if_neg (hok.refcnt_pos hdrop)⟩
  · have hcommit := hok.commit p
    rw [(inPhase_iff hs).1 hp] at hcommit
    exact hcommit.2.1
  · have hcommit := hok.commit p
    rw [(inPhase_iff hs).1 hp] at hcommit
    obtain ⟨-, hdue, hhead, hlog⟩ := hcommit
    refine ⟨hhead, fun b hb => ?_⟩
    obtain ⟨i, hi⟩ := List.mem_iff_getElem?.1 (List.mem_toFinset.1 (hdue hb))
    exact ⟨i, hi, hlog i b hi⟩
  · exact fun hfree hadmits => not_sleeping_of_free logUsers_disciplined logUsers_monitor
      (fun s hs => relies_of_reachable hs) hs hfree hadmits

end Reachable

section Pick

variable (n a : ℕ) (allow : Finset BlockNo → Bool) (start b : BlockNo) (x : Block)

/-- Choices of the processes: their operations read the block `b`, change it to `x` and log it. At
`op` the number is what comes next (0 `bget`, 1 the change, 2 `log_write`, 3 `brelse`, 4 `end_op`),
and at `writeLog` 1 is the end of the loop. -/
def LogUser.pick (p : Fin N) : Point → Data N → ℕ → Option (Data N × List (Instr N Point))
  | .sys, d, _ => some (d, [.acquire (.other n), .user .beginOp])
  | .beginOp, d, _ => (d.beginOp p).map fun d' => (d', [.release (.other n), .user .op])
  | .op, d, 0 => (d.bget p b).map fun d' => (d', [.user (.bread true b)])
  | .op, d, 1 => (d.modify p b start x).map fun d' => (d', [.user .op])
  | .op, d, 2 => some (d, [.acquire (.other n), .user (.logWrite b)])
  | .op, d, 3 => (d.brelse p b).map fun d' => (d', [.user .op])
  | .op, d, _ => some (d, [.acquire (.other n), .user .endOp])
  | .bread true b, d, _ => (d.bread p b).map fun d' => (d', [.user .op])
  | .logWrite b, d, _ =>
    (d.logWrite p b allow start).map fun d' => (d', [.release (.other n), .user .op])
  | .endOp, d, _ => (d.endOp p).map fun d' =>
      (d', if d'.committing = true then [.release (.other n), .user .commit]
        else [.wakeup (.addr a) 0, .user .release])
  | .commit, d, _ => (d.commit p).map fun d' =>
      (d', if d.lh.length > 0 then [.user (.writeLog 0)] else [.user .committed])
  | .writeLog tail, d, 0 =>
    (d.writeLog p b start tail).map fun d' => (d', [.user (.writeLog (tail + 1))])
  | .writeLog _, d, _ => (d.writeHead p start).map fun d' => (d', [.user (.install 0)])
  | _, _, _ => none

variable {n a allow start b x}

theorem LogUser.of_pick {m : ℕ} (h : pick n a allow start b x p u d m = some (d', k)) :
    LogUser n a allow start p u d d' k := by
  unfold pick at h
  split at h
  case h_14 => cases h
  case h_1 => cases h; exact .beginOp
  case h_5 => cases h; exact .logWrite
  case h_7 => cases h; exact .endOp
  all_goals
    obtain ⟨d₁, hd, h⟩ := Option.map_eq_some_iff.1 h
    cases h
  case h_2 => exact .admitted hd
  case h_3 =>
    have hget : LogUser n a allow start p (.base true) d d' [.user (.bread true b)] := .bget hd
    exact hget
  case h_4 => exact .modify hd
  case h_6 =>
    have hrelse : LogUser n a allow start p (.base true) d d' [.user (.base true)] := .brelse hd
    exact hrelse
  case h_8 b =>
    have hread : LogUser n a allow start p (.bread true b) d d' [.user (.base true)] := .bread hd
    exact hread
  case h_9 => exact .logged hd
  case h_10 =>
    split_ifs with hc
    · exact .last hd hc
    · exact .ended hd (eq_false_of_ne_true hc)
  case h_11 =>
    split_ifs with hn
    · exact .commit hd hn
    · exact .commitEmpty hd hn
  case h_12 => exact .writeLog hd
  case h_13 => exact .writeHead hd

def logChoices : (logUsers n a allow start : Client N Point (Data N)).Choices where
  pick := LogUser.pick n a allow start b x
  free u := !u.locked
  sem_of_pick _ _ _ _ _ _ h := LogUser.of_pick h
  locks_of_free _ u h := if_neg (by simpa using h)

end Pick

/-- The first process logs the block 100, and has written the header of its commit. -/
theorem log_isolation_commit :
    ∃ h s, (kernel (0 : Fin 8) (logUsers (N := NPROC) 0 0 small 2) Data.Init).Run h s ∧
      (s.user.phase 0 = .install 0 ∧ s.user.due = {100}) ∧
      decodeHead (s.user.bio.disk 2) = some s.user.lh ∧
        ∃ i : ℕ, s.user.lh[i]? = some 100 ∧
          s.user.bio.disk (logBlock 2 i) = s.user.snapshot 100 := by
  obtain ⟨h, s, r, hphase, hdue⟩ : ∃ h s,
      (kernel (0 : Fin 8) (logUsers (N := NPROC) 0 0 small 2) Data.Init).Run h s ∧
        s.user.phase 0 = .install 0 ∧ s.user.due = {100} := by
    refine exists_run_of_play (X := logChoices (b := 100) (x := fun _ => 7)) (d := .empty NPROC)
      (v := [0, 0, 0, 0, 0, 0, 0, 0, 0, 0, 1, 2, 0, 0, 0, 3, 4, 0, 0, 0, 0, 0, 1].map (.go 0 true))
      logUsers_disciplined Data.init_empty ?_
    rfl
  have hs : (kernel (0 : Fin 8) (logUsers (N := NPROC) 0 0 small 2) Data.Init).Reachable s := ⟨h, r⟩
  obtain ⟨hhead, hlog⟩ := (log_isolation hs).committed 0 0 ((inPhase_iff hs).2 hphase)
  refine ⟨h, s, r, ⟨hphase, hdue⟩, hhead, hlog 100 ?_⟩
  rw [hdue]
  exact Finset.mem_singleton_self _

end Xv6.Log
