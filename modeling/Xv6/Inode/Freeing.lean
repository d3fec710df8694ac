import Xv6.Inode.Coherence

/-!
# Freeing inodes

`Safe h s`: `iput` never waits for a sleeplock with `itable.lock` held, it frees an inode on the
disk that has been allocated and that nobody else has a pointer to, and the copy in an unlocked
entry is the dinode on the disk. This holds in every run.

That an inode without links is freed with its last pointer is another matter. `iput` gives up the
sleeplock and `itable.lock` when the inode is free on the disk, and drops its pointer later; if
`ialloc` takes the inode in between and `iget` finds the old entry, the new owner's `iput` sees a
second pointer and does not free the inode, and the first `iput` does not look at it again.
-/

namespace Xv6.Inode

variable {κ τ : Type}

/-- The last thing that has happened to the dinode is that it was freed. -/
def freed (inum : ℕ) : List Event → Bool
  | [] => false
  | .alloc i :: h => if i = inum then false else freed inum h
  | .free i :: h => if i = inum then true else freed inum h
  | _ :: h => freed inum h

/-- What every run keeps. -/
structure Safe (h : List Event) (s : State κ τ) : Prop where
  /-- The sleeplock that `iput` takes with `itable.lock` held is free. -/
  lock : ∀ p e t, s.pc p = .iputLock e t → s.lock e = none
  /-- The inode that `iput` frees is not free, and nobody else has a pointer to it. -/
  free : ∀ p e t, s.pc p = .iupdate e (.free t) →
    s.refs e = {t} ∧ (s.dinode e).type ≠ 0 ∧ freed (s.entry e).inum h = false
  copy : ∀ e, 0 < (s.entry e).ref → (s.entry e).valid = true → s.lock e = none →
    (s.entry e).d = s.dinode e

/-- `iput` drops the last pointer to an inode only if it has a link. -/
def Last (s : State κ τ) : Prop :=
  ∀ p e t, s.pc p = .iputDrop e t → s.refs e = {t} → (s.entry e).valid = true →
    (s.entry e).d.nlink ≠ 0

/-- If `ialloc` calls `iget` for an inode, no `iput` has its old entry. -/
def Gone (s : State κ τ) (x : Event) : Prop :=
  ∀ inum e, x = .get inum → (s.refs e).Nonempty → (s.entry e).inum ≠ inum

theorem Coherent.of_boot {s : State κ τ} (h : Boot s) : Coherent s where
  table := Table.of_boot h
  nolink := h.disk
  frees p e t hp := by
    rw [h.pc] at hp
    cases hp
  valid e p t hl := by
    rw [h.lock] at hl
    cases hl
  copy e hne := by
    rw [h.refs] at hne
    exact (Finset.not_nonempty_empty hne).elim
  keeps p e stage hp := by
    rw [h.pc] at hp
    cases hp
  ialloc p type inum hp := by
    rw [h.pc] at hp
    cases hp
  alloced p inum hp := by
    rw [h.pc] at hp
    cases hp
  vacant e _ hne := by
    rw [h.refs] at hne
    exact (Finset.not_nonempty_empty hne).elim

variable [DecidableEq κ] [DecidableEq τ] {s s' : State κ τ} {ninodes : ℕ} {x : Event}
  {h : List Event} {p q : κ} {e : Fin NINODE} {t : τ} {inum : ℕ}

theorem Coherent.of_run (r : (itable κ τ ninodes).Run h s) : Coherent s :=
  r.invariant (I := fun _ s => Coherent s) (fun _ => of_boot) fun _ _ _ _ _ h st => h.step st

/-! ## Every run is safe -/

/-- What is freed has no type until it is allocated. -/
theorem type_of_freed (r : (itable κ τ ninodes).Run h s) :
    ∀ inum, freed inum h = true → (s.disk inum).type = 0 := by
  induction r with
  | init _ => exact nofun
  | @step h s x s' r st ih =>
    have hc := Coherent.of_run r
    cases st with
    | @iupdate p e stage hpc =>
      intro inum hf
      obtain ⟨htype, hd⟩ := hc.keeps p e stage hpc
      have hdisk := s.disk_write (s.entry e).inum inum (s.entry e).d
      show ((s.write (s.entry e).inum (s.entry e).d).disk inum).type = 0
      rw [hdisk]
      split_ifs with hi
      · subst hi
        cases stage with
        | free t => exact hd
        | user | trunc t => exact (htype (ih _ hf)).elim
      · cases stage with
        | free t =>
          rw [Stage.event, freed, if_neg (Ne.symm hi)] at hf
          exact ih inum hf
        | user | trunc t => exact ih inum hf
    | @iallocTake p type inum hpc hlt h0 =>
      intro i hf
      rw [freed] at hf
      split_ifs at hf with hi
      have hdisk := s.disk_write inum i (.zero type)
      show ((s.write inum (.zero type)).disk i).type = 0
      rw [hdisk, if_neg (Ne.symm hi)]
      exact ih i hf
    | _ => exact ih

/-- **Every run is safe.** -/
theorem safe_of_run (r : (itable κ τ ninodes).Run h s) : Safe h s where
  lock p e t hpc := by
    have hc := Coherent.of_run r
    have hrefs := (hc.frees p e t (by rw [hpc]; rfl)).1
    exact hc.lock_eq_none (by rw [hpc]; rfl) hrefs (by rw [hpc]; rfl)
  free p e t hpc := by
    have hc := Coherent.of_run r
    have htype := (hc.keeps p e _ hpc).1
    refine ⟨(hc.frees p e t (by rw [hpc]; rfl)).1, htype, ?_⟩
    rw [← Bool.not_eq_true]
    exact fun hf => htype (type_of_freed r _ hf)
  copy e hpos hv hl := by
    have hc := Coherent.of_run r
    refine (hc.copy e (hc.table.ref_pos_iff.1 hpos) hv fun p hp => ?_).1
    rcases Pc.dirties_eq_some hp with ⟨t, hh⟩ | hu
    · have hl' := hc.table.holds p e t hh
      rw [hl] at hl'
      cases hl'
    · obtain ⟨t, hl'⟩ := hc.table.updates p e hu
      rw [hl] at hl'
      cases hl'

/-! ## When the entry is gone before the inode is taken again -/

omit [DecidableEq κ] [DecidableEq τ] in
/-- What a step may do to an entry that has a pointer. -/
theorem entry_setEntry_of {e' : Fin NINODE} {y : Entry}
    (hy : e = e' → y.inum = (s.entry e).inum ∧
      (s.lock e = none → y.valid = (s.entry e).valid ∧ y.d = (s.entry e).d)) :
    ((s.setEntry e' y).entry e).inum = (s.entry e).inum ∧ (s.lock e = none →
      ((s.setEntry e' y).entry e).valid = (s.entry e).valid ∧
        ((s.setEntry e' y).entry e).d = (s.entry e).d) := by
  rw [State.entry_setEntry]
  split_ifs with he
  · exact hy he
  · exact ⟨rfl, fun _ => ⟨rfl, rfl⟩⟩

/-- An entry that has a pointer is changed by who has locked it. -/
theorem Step.entry_eq (hc : Coherent s) (st : Step ninodes s x s') (hne : (s.refs e).Nonempty) :
    (s'.entry e).inum = (s.entry e).inum ∧ (s.lock e = none →
      (s'.entry e).valid = (s.entry e).valid ∧ (s'.entry e).d = (s.entry e).d) := by
  have hpos : (s.entry e).ref ≠ 0 := (hc.table.ref_pos_iff.2 hne).ne'
  have hget : ∀ inum, (s.entry e).get inum = { s.entry e with ref := (s.entry e).ref + 1 } :=
    fun inum => if_neg hpos
  have hlocked : ∀ {p t}, s.lock e = some (p, t) → s.lock e ≠ none :=
    fun hl => hl ▸ Option.some_ne_none _
  cases st with
  | iget hpc _ _ _ _ | iallocGet hpc _ _ _ =>
    refine entry_setEntry_of fun he => ?_
    rw [← he, hget]
    exact ⟨rfl, fun _ => ⟨rfl, rfl⟩⟩
  | idup hpc _ _ _ _ | iputDrop hpc =>
    refine entry_setEntry_of fun he => ?_
    rw [he]
    exact ⟨rfl, fun _ => ⟨rfl, rfl⟩⟩
  | @ilockRead p e' t hpc _ _ =>
    refine entry_setEntry_of fun he => ?_
    subst he
    exact ⟨rfl, fun hl => (hlocked (hc.table.holds p e t (by rw [hpc]; rfl)) hl).elim⟩
  | update _ hl' _ _ =>
    refine entry_setEntry_of fun he => ?_
    subst he
    exact ⟨rfl, fun hl => (hlocked hl' hl).elim⟩
  | @iputTrunc p e' t hpc | @iputType p e' t hpc | @iputValid p e' t hpc =>
    refine entry_setEntry_of fun he => ?_
    subst he
    exact ⟨rfl, fun hl => (hlocked (hc.table.holds p e t (by rw [hpc]; rfl)) hl).elim⟩
  | _ => exact ⟨rfl, fun _ => ⟨rfl, rfl⟩⟩

omit [DecidableEq τ] in
theorem vacant_goto {u : State κ τ} (pc : Pc τ) (hdisk : u.disk = s.disk) (hpcs : u.pc = s.pc)
    (hv : s.Vacant inum) (hp : s.pc p ≠ .ialloced inum) : (u.goto p pc).Vacant inum := by
  refine hv.imp (fun h0 => ?_) fun ⟨q, hq⟩ => ⟨q, ?_⟩
  · rw [← h0, ← hdisk]
    rfl
  · rw [State.pc_goto, if_neg, hpcs, hq]
    rintro rfl
    exact hp hq

/-- A vacant inode stays so until its `ialloc` calls `iget`. -/
theorem Step.vacant (hc : Coherent s) (st : Step ninodes s x s') (hv : s.Vacant inum)
    (hx : x ≠ .get inum) : s'.Vacant inum := by
  have hold : ∀ {p pc}, s.pc p = pc → pc ≠ .ialloced inum → s.pc p ≠ .ialloced inum :=
    fun hpc hne => hpc ▸ hne
  cases st with
  | iget hpc _ _ _ _ | idup hpc _ _ _ _ | ilock hpc _ _ | acquiresleep hpc _ | ilockValid hpc _
  | ilockRead hpc _ _ | iunlock hpc _ | update hpc _ _ _ | iput hpc _ _ | iputLast hpc _
  | iputMore hpc _ | iputTrunc hpc | iputType hpc | iputValid hpc | ialloc hpc _
  | iallocNext hpc _ _ | iallocFail hpc _ => exact vacant_goto _ rfl rfl hv (hold hpc (by simp))
  | @iputAcquire p e t hpc _ =>
    exact vacant_goto (u := s) (.iputTest e t) rfl rfl hv (hold hpc (by simp))
  | @iputLock p e t hpc _ =>
    exact vacant_goto (u := s) (.iputTrunc e t) rfl rfl hv (hold hpc (by simp))
  | @iputAgain p e t hpc _ =>
    exact vacant_goto (u := s) (.iputDrop e t) rfl rfl hv (hold hpc (by simp))
  | @iputDrop p e t hpc =>
    exact vacant_goto (u := s) .idle rfl rfl hv (hold hpc (by simp))
  | @iupdate p e stage hpc =>
    have hi : inum ≠ (s.entry e).inum := by
      rintro rfl
      obtain ⟨t, hl⟩ := hc.lock_of_iupdate hpc
      exact hc.not_vacant hl (fun t' he => by rw [hpc] at he; cases he) hv
    have hv' : (s.write (s.entry e).inum (s.entry e).d).Vacant inum := by
      rw [State.Vacant, State.disk_write, if_neg hi]
      exact hv
    exact vacant_goto _ rfl rfl hv' (hold hpc (by simp))
  | @iallocTake p type inum' hpc _ _ =>
    by_cases hi : inum = inum'
    · subst hi
      exact Or.inr ⟨p, Function.update_self ..⟩
    · have hv' : (s.write inum' (.zero type)).Vacant inum := by
        rw [State.Vacant, State.disk_write, if_neg hi]
        exact hv
      exact vacant_goto _ rfl rfl hv' (hold hpc (by simp))
  | @iallocGet p inum' e t hpc _ _ _ =>
    refine vacant_goto _ rfl rfl hv fun hq => hx ?_
    change s.pc p = _ at hq
    rw [hpc] at hq
    cases hq
    rfl

/-- `iput` gets to `ip->valid = 0` when it has freed the inode. -/
theorem Step.of_iputValid (st : Step ninodes s x s') (hq : s'.pc q = .iputValid e t) :
    s.pc q = .iputValid e t ∨
      s.pc q = .iupdate e (.free t) ∧ s'.entry = s.entry ∧ s'.dinode e = (s.entry e).d := by
  cases st with
  | @iupdate p e' stage hpc =>
    rw [State.pc_goto] at hq
    split_ifs at hq with hqp
    · cases stage with
      | free t' =>
        cases hq
        exact Or.inr ⟨hqp ▸ hpc, rfl, Function.update_self ..⟩
      | user | trunc t' => cases hq
    · exact Or.inl hq
  | _ =>
    rw [State.pc_goto] at hq
    split_ifs at hq
    exact Or.inl hq

/-- `iput` waits for `itable.lock` again when it has made the copy invalid. -/
theorem Step.of_iputAgain (st : Step ninodes s x s') (hq : s'.pc q = .iputAgain e t) :
    s.pc q = .iputAgain e t ∨ s.pc q = .iputValid e t ∧ (s'.entry e).valid = false := by
  cases st with
  | @iupdate p e' stage hpc =>
    rw [State.pc_goto] at hq
    split_ifs at hq
    · cases stage <;> cases hq
    · exact Or.inl hq
  | @iputValid p e' t' hpc =>
    rw [State.pc_goto] at hq
    split_ifs at hq with hqp
    · cases hq
      refine Or.inr ⟨hqp ▸ hpc, ?_⟩
      change ((s.setEntry e { s.entry e with valid := false }).entry e).valid = false
      rw [State.entry_setEntry, if_pos rfl]
    · exact Or.inl hq
  | _ =>
    rw [State.pc_goto] at hq
    split_ifs at hq
    exact Or.inl hq

/-- `iput` drops the pointer after the test, or when it has freed the inode. -/
theorem Step.of_iputDrop (ht : Table s) (st : Step ninodes s x s')
    (hq : s'.pc q = .iputDrop e t) : s'.refs = s.refs ∧ (s.pc q = .iputDrop e t ∨
      s'.entry = s.entry ∧ (s.pc q = .iputAgain e t ∨
        ¬((s.entry e).ref = 1 ∧ (s.entry e).valid = true ∧ (s.entry e).d.nlink = 0))) := by
  have hheld : s.pc q = .iputDrop e t → s.holder = some q := fun hpc =>
    (ht.holder q).1 (by rw [hpc]; rfl)
  cases st with
  | @iupdate p e' stage hpc =>
    rw [State.pc_goto] at hq
    split_ifs at hq
    · cases stage <;> cases hq
    · exact ⟨rfl, Or.inl hq⟩
  | iget hpc free _ _ _ | idup hpc free _ _ _ | iallocGet hpc free _ _ =>
    rw [State.pc_goto] at hq
    split_ifs at hq
    have hf := hheld hq
    rw [free] at hf
    cases hf
  | @iputMore p e' t' hpc h =>
    rw [State.pc_goto] at hq
    split_ifs at hq with hqp
    · cases hq
      exact ⟨rfl, Or.inr ⟨rfl, Or.inr h⟩⟩
    · exact ⟨rfl, Or.inl hq⟩
  | @iputAgain p e' t' hpc _ =>
    rw [State.pc_goto] at hq
    split_ifs at hq with hqp
    · cases hq
      exact ⟨rfl, Or.inr ⟨rfl, Or.inl (hqp ▸ hpc)⟩⟩
    · exact ⟨rfl, Or.inl hq⟩
  | @iputDrop p e' t' hpc =>
    rw [State.pc_goto] at hq
    split_ifs at hq with hqp
    have hf := hheld hq
    rw [(ht.holder p).1 (by rw [hpc]; rfl)] at hf
    exact (hqp (Option.some.inj hf).symm).elim
  | _ =>
    rw [State.pc_goto] at hq
    split_ifs at hq
    exact ⟨rfl, Or.inl hq⟩

/-- Who has freed an inode and still has the pointer to it. -/
structure Retired (s : State κ τ) : Prop where
  vacant : ∀ p e t, s.pc p = .iputValid e t ∨ s.pc p = .iputAgain e t → s.Vacant (s.entry e).inum
  invalid : ∀ p e t, s.pc p = .iputAgain e t → (s.entry e).valid = false
  last : Last s

/-- **A step keeps the retired entries so**, if `ialloc` does not find one of them. -/
theorem Retired.step (hc : Coherent s) (hr : Retired s) (hg : Gone s x)
    (st : Step ninodes s x s') : Retired s' := by
  have hvacant : ∀ p e t, s.pc p = .iputValid e t ∨ s.pc p = .iputAgain e t →
      s'.Vacant (s'.entry e).inum := by
    intro p e t hp
    have ht : t ∈ s.refs e := hc.table.uses p e t (by rcases hp with hp | hp <;> rw [hp] <;> rfl)
    rw [(st.entry_eq hc ⟨t, ht⟩).1]
    exact st.vacant hc (hr.vacant p e t hp) fun hx => hg _ e hx ⟨t, ht⟩ rfl
  refine ⟨fun p e t hp => ?_, fun p e t hp => ?_, fun p e t hp hrefs hv => ?_⟩
  · rcases hp with hp | hp
    · rcases st.of_iputValid hp with hp' | ⟨hp', -, hd⟩
      · exact hvacant p e t (Or.inl hp')
      · refine Or.inl ?_
        have h0 : (s'.dinode e).type = 0 := by
          rw [hd]
          exact (hc.keeps p e _ hp').2
        exact h0
    · rcases st.of_iputAgain hp with hp' | ⟨hp', -⟩
      · exact hvacant p e t (Or.inr hp')
      · exact hvacant p e t (Or.inl hp')
  · rcases st.of_iputAgain hp with hp' | ⟨-, hv⟩
    · have hputs : (s.pc p).puts = some (e, t) := by rw [hp']; rfl
      have ht := hc.table.uses p e t (Pc.uses_of_puts hputs)
      obtain ⟨q, t', hrefs, -⟩ := hc.vacant e (hr.vacant p e t (Or.inr hp')) ⟨t, ht⟩
      rw [hrefs, Finset.mem_singleton] at ht
      subst ht
      have hl := hc.lock_eq_none hputs hrefs (by rw [hp']; rfl)
      have hne : (s.refs e).Nonempty := ⟨t, hc.table.uses p e t (Pc.uses_of_puts hputs)⟩
      rw [((st.entry_eq hc hne).2 hl).1]
      exact hr.invalid p e t hp'
    · exact hv
  · obtain ⟨hrefs', hor⟩ := st.of_iputDrop hc.table hp
    rw [hrefs'] at hrefs
    rcases hor with hp' | ⟨hentry, hp' | hn⟩
    · have hl := hc.lock_eq_none (by rw [hp']; rfl) hrefs (by rw [hp']; rfl)
      have hne : (s.refs e).Nonempty := hrefs ▸ Finset.singleton_nonempty t
      obtain ⟨hvalid, hd⟩ := (st.entry_eq hc hne).2 hl
      rw [hvalid] at hv
      rw [hd]
      exact hr.last p e t hp' hrefs hv
    · rw [hentry, hr.invalid p e t hp'] at hv
      cases hv
    · rw [hentry] at hv ⊢
      have href : (s.entry e).ref = 1 := by
        rw [hc.table.ref, hrefs, Finset.card_singleton]
      exact fun h0 => hn ⟨href, hv, h0⟩

theorem Retired.of_run (r : ((itable κ τ ninodes).restrict Gone).Run h s) : Retired s := by
  induction r with
  | init hb =>
    have hpc : ∀ p, _ = Pc.idle := hb.pc
    refine ⟨fun p e t hp => ?_, fun p e t hp => ?_, fun p e t hp => ?_⟩ <;> rw [hpc] at hp
    · rcases hp with hp | hp <;> cases hp
    · cases hp
    · cases hp
  | step r st ih => exact ih.step (Coherent.of_run r.of_restrict) st.2 st.1

/-- **Freeing an inode.** Every run is safe; and if no `iput` has the old entry of an inode when
`ialloc` takes it, the last pointer to an inode without links goes with the inode. -/
theorem freeing_of_run :
    (∀ (h : List Event) (s : State κ τ), (itable κ τ ninodes).Run h s → Safe h s) ∧
      ∀ (h : List Event) (s : State κ τ), ((itable κ τ ninodes).restrict Gone).Run h s → Last s :=
  ⟨fun _ _ => safe_of_run, fun _ _ r => (Retired.of_run r).last⟩

/-- The inode 1 with a number of links. -/
def inode (nlink : Int16) : Dinode := { Dinode.zero 2 with nlink := nlink }

/-- The process `true` finds an inode by its name, takes its link away and frees it. -/
def freeingRun :
    { x : List Event × State Bool ℕ // ((itable Bool ℕ 2).restrict Gone).Run x.1 x.2 } :=
  let s₀ : State Bool ℕ :=
    { disk := fun _ => inode 1, entry := fun _ => ⟨0, 0, false, inode 1⟩, holder := none,
      lock := fun _ => none, refs := fun _ => ∅, pc := fun _ => .idle }
  have boot : Boot s₀ :=
    { disk := fun _ h0 => absurd h0 (show (2 : Int16) ≠ 0 by decide)
      entry := fun _ => ⟨rfl, rfl⟩
      holder := rfl
      lock := fun _ => rfl
      refs := fun _ => rfl
      pc := fun _ => rfl }
  have r₀ : ((itable Bool ℕ 2).restrict Gone).Run [] s₀ := .init boot
  have r₁ := r₀.step ⟨Step.iget (p := true) (e := 0) (t := 0) rfl rfl (show s₀.Named 1 by decide)
    (by decide) (by decide), nofun⟩
  have r₂ := r₁.step ⟨Step.ilock (p := true) (e := 0) (t := 0) rfl (by decide) (by decide), nofun⟩
  have r₃ := r₂.step ⟨Step.acquiresleep (p := true) rfl rfl, nofun⟩
  have r₄ := r₃.step ⟨Step.ilockRead (p := true) rfl rfl (by decide), nofun⟩
  have r₅ := r₄.step ⟨Step.update (p := true) (e := 0) rfl rfl (inode 0) rfl, nofun⟩
  have r₆ := r₅.step ⟨Step.iupdate (p := true) rfl, nofun⟩
  have r₇ := r₆.step ⟨Step.iunlock (p := true) (e := 0) rfl rfl, nofun⟩
  have r₈ := r₇.step ⟨Step.iput (p := true) (e := 0) (t := 0) rfl (by decide) (by decide), nofun⟩
  have r₉ := r₈.step ⟨Step.iputAcquire (p := true) rfl rfl, nofun⟩
  have r₁₀ := r₉.step ⟨Step.iputLast (p := true) rfl (by decide), nofun⟩
  have r₁₁ := r₁₀.step ⟨Step.iputLock (p := true) rfl rfl, nofun⟩
  have r₁₂ := r₁₁.step ⟨Step.iputTrunc (p := true) rfl, nofun⟩
  have r₁₃ := r₁₂.step ⟨Step.iupdate (p := true) rfl, nofun⟩
  have r₁₄ := r₁₃.step ⟨Step.iputType (p := true) rfl, nofun⟩
  have r₁₅ := r₁₄.step ⟨Step.iupdate (p := true) rfl, nofun⟩
  ⟨(_, _), r₁₅.step ⟨Step.iputValid (p := true) rfl, nofun⟩⟩

/-- The process drops its pointer to the inode that it has freed. -/
theorem freeing_of_iput : ∃ (h : List Event) (s : State Bool ℕ),
    ((itable Bool ℕ 2).restrict Gone).Run h s ∧ (s.pc true = .iputDrop 0 0 ∧ s.refs 0 = {0} ∧
      freed 1 h = true ∧ (s.disk 1).type = 0) ∧ Safe h s ∧ Last s := by
  have r := freeingRun.2.step ⟨Step.iputAgain (p := true) rfl rfl, nofun⟩
  exact ⟨_, _, r, ⟨rfl, by decide, rfl, rfl⟩, freeing_of_run.1 _ _ r.of_restrict,
    freeing_of_run.2 _ _ r⟩

/-- Two processes and one inode. `true` has unlinked and freed the inode and waits for
`itable.lock`; `false` allocates it again, fails to link it, and drops its pointer. Now `true` drops
the last pointer to an inode that has a type and no link. -/
theorem not_last : ∃ (h : List Event) (s : State Bool ℕ), (itable Bool ℕ 2).Run h s ∧ ¬Last s := by
  have r₁₆ := freeingRun.2.of_restrict
  have r₁₇ := r₁₆.step (@Step.ialloc _ _ _ _ _ _ false 2 rfl (by decide))
  have r₁₈ := r₁₇.step (Step.iallocTake (p := false) rfl (by decide) rfl)
  have r₁₉ := r₁₈.step
    (Step.iallocGet (p := false) (e := 0) (t := 1) rfl rfl (by decide) (by decide))
  have r₂₀ := r₁₉.step (Step.ilock (p := false) (e := 0) (t := 1) rfl (by decide) (by decide))
  have r₂₁ := r₂₀.step (Step.acquiresleep (p := false) rfl rfl)
  have r₂₂ := r₂₁.step (Step.ilockRead (p := false) rfl rfl (by decide))
  have r₂₃ := r₂₂.step (Step.update (p := false) (e := 0) rfl rfl (inode 1) rfl)
  have r₂₄ := r₂₃.step (Step.iupdate (p := false) rfl)
  have r₂₅ := r₂₄.step (Step.update (p := false) (e := 0) rfl rfl (inode 0) rfl)
  have r₂₆ := r₂₅.step (Step.iupdate (p := false) rfl)
  have r₂₇ := r₂₆.step (Step.iunlock (p := false) (e := 0) rfl rfl)
  have r₂₈ := r₂₇.step (Step.iput (p := false) (e := 0) (t := 1) rfl (by decide) (by decide))
  have r₂₉ := r₂₈.step (Step.iputAcquire (p := false) rfl rfl)
  have r₃₀ := r₂₉.step (Step.iputMore (p := false) rfl (by decide))
  have r₃₁ := r₃₀.step (Step.iputDrop (p := false) rfl)
  have r₃₂ := r₃₁.step (Step.iputAgain (p := true) rfl rfl)
  refine ⟨_, _, r₃₂, fun hl => hl true 0 0 rfl ?_ rfl rfl⟩
  decide

end Xv6.Inode
