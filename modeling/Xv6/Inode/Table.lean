import Xv6.Inode.Defs

/-!
# References and locks

`Table s`: `ref` counts the pointers to an entry, no inode has two entries, who locks an inode does
it through a pointer, and a pointer that is being dropped is used by nobody else. It does not say
anything about the disk and the copies of dinodes.
-/

namespace Xv6.Inode

variable {κ τ : Type}

namespace Pc

/-- The sleeplock that a process holds because of where it is. -/
def holds : Pc τ → Option (Fin NINODE × τ)
  | ilockTest e t | iputTrunc e t | iupdate e (.trunc t) | iputType e t | iupdate e (.free t)
  | iputValid e t => some (e, t)
  | _ => none

/-- The process is in `iupdate`, called by who has locked the inode. -/
def updates : Pc τ → Option (Fin NINODE)
  | iupdate e .user => some e
  | _ => none

theorem uses_of_puts {pc : Pc τ} {x : Fin NINODE × τ} (h : pc.puts = some x) :
    pc.uses = some x := by
  cases pc with
  | ilock _ _ | ilockTest _ _ => cases h
  | _ => exact h

end Pc

/-- Who has a pointer to an entry, and who holds its sleeplock. -/
structure Table (s : State κ τ) : Prop where
  ref : ∀ e, (s.entry e).ref = (s.refs e).card
  disjoint : ∀ t e e', t ∈ s.refs e → t ∈ s.refs e' → e = e'
  inum : ∀ e e', (s.refs e).Nonempty → (s.refs e').Nonempty →
    (s.entry e).inum = (s.entry e').inum → e = e'
  lock : ∀ e p t, s.lock e = some (p, t) → t ∈ s.refs e
  uses : ∀ p e t, (s.pc p).uses = some (e, t) → t ∈ s.refs e
  puts : ∀ p q e e' t, (s.pc p).puts = some (e, t) → (s.pc q).uses = some (e', t) → q = p
  holds : ∀ p e t, (s.pc p).holds = some (e, t) → s.lock e = some (p, t)
  dropped : ∀ p e t e' q, (s.pc p).puts = some (e, t) → s.lock e' = some (q, t) →
    (s.pc p).holds = some (e, t)
  updates : ∀ p e, (s.pc p).updates = some e → ∃ t, s.lock e = some (p, t)
  holder : ∀ p, (s.pc p).locked = true ↔ s.holder = some p

namespace Table

variable {s s' : State κ τ} {p : κ} {e : Fin NINODE} {t : τ}

theorem ref_pos_iff (h : Table s) : 0 < (s.entry e).ref ↔ (s.refs e).Nonempty := by
  rw [h.ref, Finset.card_pos]

theorem ref_eq_zero_iff (h : Table s) : (s.entry e).ref = 0 ↔ s.refs e = ∅ := by
  rw [h.ref, Finset.card_eq_zero]

/-- The copies of dinodes do not matter. -/
theorem congr (h : Table s) (hentry : ∀ e, (s'.entry e).ref = (s.entry e).ref ∧
    (s'.entry e).inum = (s.entry e).inum) (hrefs : s'.refs = s.refs) (hlock : s'.lock = s.lock)
    (hpc : s'.pc = s.pc) (hholder : s'.holder = s.holder) : Table s' where
  ref e := by
    rw [(hentry e).1, hrefs]
    exact h.ref e
  disjoint := by
    rw [hrefs]
    exact h.disjoint
  inum e e' := by
    rw [hrefs, (hentry e).2, (hentry e').2]
    exact h.inum e e'
  lock := by
    rw [hrefs, hlock]
    exact h.lock
  uses := by
    rw [hrefs, hpc]
    exact h.uses
  puts := by
    rw [hpc]
    exact h.puts
  holds := by
    rw [hlock, hpc]
    exact h.holds
  dropped := by
    rw [hlock, hpc]
    exact h.dropped
  updates := by
    rw [hlock, hpc]
    exact h.updates
  holder := by
    rw [hholder, hpc]
    exact h.holder

/-- A change of the copy in the entry `e`. -/
theorem setEntry (h : Table s) {x : Entry} (href : x.ref = (s.entry e).ref)
    (hinum : x.inum = (s.entry e).inum) : Table (s.setEntry e x) := by
  refine h.congr (fun e' => ?_) rfl rfl rfl rfl
  rw [State.entry_setEntry]
  split_ifs with he
  · rw [he]
    exact ⟨href, hinum⟩
  · exact ⟨rfl, rfl⟩

/-- A write to the disk. -/
theorem write (h : Table s) (inum : ℕ) (d : Dinode) : Table (s.write inum d) :=
  h.congr (fun _ => ⟨rfl, rfl⟩) rfl rfl rfl rfl

variable [DecidableEq κ]

/-- A step of `p` that takes or drops neither a pointer nor a sleeplock. -/
theorem goto (h : Table s) (pc : Pc τ) {o : Option κ} (hlock : pc.locked = true ↔ o = some p)
    (hothers : ∀ q, q ≠ p → (o = some q ↔ s.holder = some q))
    (huses : ∀ e t, pc.uses = some (e, t) →
      t ∈ s.refs e ∧ ∀ q e', q ≠ p → (s.pc q).puts ≠ some (e', t))
    (hputs : ∀ e t, pc.puts = some (e, t) →
      (∀ q e', q ≠ p → (s.pc q).uses ≠ some (e', t)) ∧
        ∀ e' q, s.lock e' = some (q, t) → pc.holds = some (e, t))
    (hholds : ∀ e t, pc.holds = some (e, t) → s.lock e = some (p, t))
    (hupdates : ∀ e, pc.updates = some e → ∃ t, s.lock e = some (p, t)) :
    Table { s.goto p pc with holder := o } := by
  have hself : (s.goto p pc).pc p = pc := Function.update_self ..
  have hne : ∀ {q}, q ≠ p → (s.goto p pc).pc q = s.pc q := fun hq => Function.update_of_ne hq ..
  refine ⟨h.ref, h.disjoint, h.inum, h.lock, fun q e t => ?_, fun q r e e' t => ?_,
    fun q e t => ?_, fun q e t e' r => ?_, fun q e => ?_, fun q => ?_⟩
  · by_cases hq : q = p
    · subst hq
      rw [hself]
      exact fun hu => (huses e t hu).1
    · rw [hne hq]
      exact h.uses q e t
  · by_cases hq : q = p <;> by_cases hr : r = p
    · exact fun _ _ => hr.trans hq.symm
    · subst hq
      rw [hself, hne hr]
      exact fun hp hu => ((hputs e t hp).1 r e' hr hu).elim
    · subst hr
      rw [hself, hne hq]
      exact fun hp hu => ((huses e' t hu).2 q e hq hp).elim
    · rw [hne hq, hne hr]
      exact h.puts q r e e' t
  · by_cases hq : q = p
    · subst hq
      rw [hself]
      exact hholds e t
    · rw [hne hq]
      exact h.holds q e t
  · by_cases hq : q = p
    · subst hq
      rw [hself]
      exact fun hp => (hputs e t hp).2 e' r
    · rw [hne hq]
      exact h.dropped q e t e' r
  · by_cases hq : q = p
    · subst hq
      rw [hself]
      exact hupdates e
    · rw [hne hq]
      exact h.updates q e
  · by_cases hq : q = p
    · subst hq
      rw [hself]
      exact hlock
    · rw [hne hq]
      exact (h.holder q).trans (hothers q hq).symm

/-- A step of `p` that keeps what it uses and holds. -/
theorem move (h : Table s) {pc : Pc τ} {o : Option κ} (hlock : pc.locked = true ↔ o = some p)
    (hothers : ∀ q, q ≠ p → (o = some q ↔ s.holder = some q)) (huses : pc.uses = (s.pc p).uses)
    (hputs : pc.puts = (s.pc p).puts) (hholds : pc.holds = (s.pc p).holds)
    (hupdates : pc.updates = none) : Table { s.goto p pc with holder := o } := by
  refine h.goto pc hlock hothers ?_ ?_ ?_ ?_
  · rw [huses]
    intro e t hu
    exact ⟨h.uses p e t hu, fun q e' hq hp => hq (h.puts q p e' e t hp hu).symm⟩
  · rw [hputs, hholds]
    intro e t hp
    exact ⟨fun q e' hq hu => hq (h.puts p q e e' t hp hu), fun e' q => h.dropped p e t e' q hp⟩
  · rw [hholds]
    exact h.holds p
  · rw [hupdates]
    exact fun e => nofun

/-- `p` gets the sleeplock of `e`. -/
theorem acquire (h : Table s) (pc : Pc τ) {o : Option κ} (hlock : pc.locked = true ↔ o = some p)
    (hothers : ∀ q, q ≠ p → (o = some q ↔ s.holder = some q)) (free : s.lock e = none)
    (hp : (s.pc p).uses = some (e, t)) (huses : pc.uses = some (e, t))
    (hputs : pc.puts = (s.pc p).puts) (hholds : pc.holds = some (e, t))
    (hupdates : pc.updates = none) :
    Table { (s.setLock e (some (p, t))).goto p pc with holder := o } where
  ref := h.ref
  disjoint := h.disjoint
  inum := h.inum
  lock e' q t' hl := by
    have hl' : (s.setLock e (some (p, t))).lock e' = some (q, t') := hl
    rw [State.lock_setLock] at hl'
    split_ifs at hl' with he
    · cases hl'
      rw [he]
      exact h.uses p e t hp
    · exact h.lock e' q t' hl'
  uses q e' t' hu := by
    rw [State.pc_goto] at hu
    split_ifs at hu with hq
    · rw [huses] at hu
      cases hu
      exact h.uses p e t hp
    · exact h.uses q e' t' hu
  puts q r e₁ e₂ t' hq hr := by
    rw [State.pc_goto] at hq hr
    split_ifs at hq hr with h₁ h₂ h₂
    · exact h₂.trans h₁.symm
    · rw [hputs] at hq
      exact (h.puts p r e₁ e₂ t' hq hr).trans h₁.symm
    · rw [huses, ← hp] at hr
      exact h₂.trans (h.puts q p e₁ e₂ t' hq hr)
    · exact h.puts q r e₁ e₂ t' hq hr
  holds q e' t' hh := by
    show (s.setLock e (some (p, t))).lock e' = _
    rw [State.pc_goto] at hh
    rw [State.lock_setLock]
    split_ifs at hh with hq
    · rw [hholds] at hh
      cases hh
      rw [if_pos rfl, hq]
    · have hl := h.holds q e' t' hh
      have he : e' ≠ e := by
        rintro rfl
        rw [free] at hl
        cases hl
      rw [if_neg he, hl]
  dropped q e' t' e₂ r hq hl := by
    have hl' : (s.setLock e (some (p, t))).lock e₂ = some (r, t') := hl
    rw [State.lock_setLock] at hl'
    rw [State.pc_goto] at hq ⊢
    split_ifs at hq hl' ⊢ with h₁ h₂ h₂
    · rw [hputs] at hq
      cases hl'
      have hu := Pc.uses_of_puts hq
      rw [hp] at hu
      cases hu
      exact hholds
    · rw [hputs] at hq
      have hu := Pc.uses_of_puts hq
      rw [hp] at hu
      cases hu
      exact hholds
    · cases hl'
      exact (h₁ (h.puts q p e' e t hq hp).symm).elim
    · exact h.dropped q e' t' e₂ r hq hl'
  updates q e' hu := by
    rw [State.pc_goto] at hu
    split_ifs at hu with hq
    · rw [hupdates] at hu
      cases hu
    · obtain ⟨t', hl⟩ := h.updates q e' hu
      have he : e' ≠ e := by
        rintro rfl
        rw [free] at hl
        cases hl
      refine ⟨t', ?_⟩
      show (s.setLock e (some (p, t))).lock e' = _
      rw [State.lock_setLock, if_neg he, hl]
  holder q := by
    rw [State.pc_goto]
    split_ifs with hq
    · rw [hq]
      exact hlock
    · exact (h.holder q).trans (hothers q hq).symm

/-- `p` gives up the sleeplock of `e`. -/
theorem release (h : Table s) (pc : Pc τ) (hlock : pc.locked = (s.pc p).locked)
    (hl : s.lock e = some (p, t)) (huses : pc.uses = (s.pc p).uses)
    (hputs : pc.puts = (s.pc p).puts) (hholds : pc.holds = none) (hupdates : pc.updates = none)
    (hp : ∀ e' t', (s.pc p).puts = some (e', t') → (e', t') = (e, t)) :
    Table ((s.setLock e none).goto p pc) where
  ref := h.ref
  disjoint := h.disjoint
  inum := h.inum
  lock e' q t' hl' := by
    have hs : (s.setLock e none).lock e' = some (q, t') := hl'
    rw [State.lock_setLock] at hs
    split_ifs at hs
    exact h.lock e' q t' hs
  uses q e' t' hu := by
    rw [State.pc_goto] at hu
    split_ifs at hu with hq
    · rw [huses] at hu
      exact h.uses p e' t' hu
    · exact h.uses q e' t' hu
  puts q r e₁ e₂ t' hq hr := by
    rw [State.pc_goto] at hq hr
    split_ifs at hq hr with h₁ h₂ h₂
    · exact h₂.trans h₁.symm
    · rw [hputs] at hq
      exact (h.puts p r e₁ e₂ t' hq hr).trans h₁.symm
    · rw [huses] at hr
      exact h₂.trans (h.puts q p e₁ e₂ t' hq hr)
    · exact h.puts q r e₁ e₂ t' hq hr
  holds q e' t' hh := by
    show (s.setLock e none).lock e' = _
    rw [State.pc_goto] at hh
    rw [State.lock_setLock]
    split_ifs at hh with hq
    · rw [hholds] at hh
      cases hh
    · have hl' := h.holds q e' t' hh
      have he : e' ≠ e := by
        rintro rfl
        rw [hl] at hl'
        cases hl'
        exact hq rfl
      rw [if_neg he, hl']
  dropped q e' t' e₂ r hq hl' := by
    have hs : (s.setLock e none).lock e₂ = some (r, t') := hl'
    rw [State.lock_setLock] at hs
    rw [State.pc_goto] at hq ⊢
    split_ifs at hq hs ⊢ with h₁ h₂
    · -- the pointer that `p` drops is the one that it has used
      rw [hputs] at hq
      cases hp e' t' hq
      exact (h₂ (h.disjoint t e₂ e (h.lock e₂ r t hs) (h.lock e p t hl))).elim
    · exact h.dropped q e' t' e₂ r hq hs
  updates q e' hu := by
    rw [State.pc_goto] at hu
    split_ifs at hu with hq
    · rw [hupdates] at hu
      cases hu
    · obtain ⟨t', hl'⟩ := h.updates q e' hu
      have he : e' ≠ e := by
        rintro rfl
        rw [hl] at hl'
        cases hl'
        exact hq rfl
      refine ⟨t', ?_⟩
      show (s.setLock e none).lock e' = _
      rw [State.lock_setLock, if_neg he, hl']
  holder q := by
    rw [State.pc_goto]
    split_ifs with hq
    · rw [hq, hlock]
      exact h.holder p
    · exact h.holder q

end Table

variable [DecidableEq κ] [DecidableEq τ] {s : State κ τ} {p : κ} {e : Fin NINODE} {t : τ}

namespace Table

omit [DecidableEq κ] in
/-- `t` becomes a pointer to `e`, which has one reference more. -/
theorem point (h : Table s) {x : Entry} (ht : s.Fresh t) (href : x.ref = (s.entry e).ref + 1)
    (hinum : ((s.refs e).Nonempty → x.inum = (s.entry e).inum) ∧
      ∀ e', e' ≠ e → (s.refs e').Nonempty → (s.entry e').inum ≠ x.inum) :
    Table ((s.setEntry e x).point e t) where
  ref e' := by
    show ((s.setEntry e x).entry e').ref = _
    rw [State.entry_setEntry, State.refs_point]
    split_ifs with he
    · rw [href, h.ref]
      exact (Finset.card_insert_of_notMem (ht e)).symm
    · exact h.ref e'
  disjoint t' e₁ e₂ h₁ h₂ := by
    have hrefs : (s.setEntry e x).refs = s.refs := rfl
    rw [State.refs_point, hrefs] at h₁ h₂
    split_ifs at h₁ h₂ with he₁ he₂ he₂
    · exact he₁.trans he₂.symm
    · rcases Finset.mem_insert.1 h₁ with rfl | h₁
      · exact (ht e₂ h₂).elim
      · exact he₁.trans (h.disjoint t' e e₂ h₁ h₂)
    · rcases Finset.mem_insert.1 h₂ with rfl | h₂
      · exact (ht e₁ h₁).elim
      · exact (h.disjoint t' e₁ e h₁ h₂).trans he₂.symm
    · exact h.disjoint t' e₁ e₂ h₁ h₂
  inum e₁ e₂ h₁ h₂ hi := by
    have hi' : ((s.setEntry e x).entry e₁).inum = ((s.setEntry e x).entry e₂).inum := hi
    rw [State.refs_point] at h₁ h₂
    rw [State.entry_setEntry, State.entry_setEntry] at hi'
    split_ifs at h₁ h₂ hi' with he₁ he₂ he₂
    · exact he₁.trans he₂.symm
    · exact (hinum.2 e₂ he₂ h₂ hi'.symm).elim
    · exact (hinum.2 e₁ he₁ h₁ hi').elim
    · exact h.inum e₁ e₂ h₁ h₂ hi'
  lock e' q t' hl := by
    have hm := h.lock e' q t' hl
    rw [State.refs_point]
    split_ifs with he
    · exact Finset.mem_insert_of_mem (he ▸ hm)
    · exact hm
  uses q e' t' hu := by
    have hm := h.uses q e' t' hu
    rw [State.refs_point]
    split_ifs with he
    · exact Finset.mem_insert_of_mem (he ▸ hm)
    · exact hm
  puts := h.puts
  holds := h.holds
  dropped := h.dropped
  updates := h.updates
  holder := h.holder

omit [DecidableEq κ] in
/-- `t`, which nobody uses, is no pointer any more, and `e` has one reference less. -/
theorem unpoint (h : Table s) (ht : t ∈ s.refs e) (unused : s.Unused t) :
    Table ((s.setEntry e { s.entry e with ref := (s.entry e).ref - 1 }).unpoint e t) := by
  generalize hs : (s.setEntry e { s.entry e with ref := (s.entry e).ref - 1 }).unpoint e t = s'
  have hrefs : ∀ e', s'.refs e' = if e' = e then (s.refs e).erase t else s.refs e' := by
    rw [← hs]
    exact fun e' => State.refs_unpoint ..
  have hentry : ∀ e', s'.entry e' =
      if e' = e then { s.entry e with ref := (s.entry e).ref - 1 } else s.entry e' := by
    rw [← hs]
    exact fun e' => State.entry_setEntry ..
  have hinum : ∀ e', (s'.entry e').inum = (s.entry e').inum := by
    intro e'
    rw [hentry]
    split_ifs with he
    · rw [he]
    · rfl
  have hmem : ∀ e' t', t' ∈ s'.refs e' ↔ t' ∈ s.refs e' ∧ t' ≠ t := by
    intro e' t'
    rw [hrefs]
    split_ifs with he
    · rw [Finset.mem_erase, he, and_comm]
    · refine ⟨fun hm => ⟨hm, ?_⟩, And.left⟩
      rintro rfl
      exact he (h.disjoint t' e' e hm ht)
  have hlock : s'.lock = s.lock := hs ▸ rfl
  have hpc : s'.pc = s.pc := hs ▸ rfl
  have hholder : s'.holder = s.holder := hs ▸ rfl
  refine ⟨fun e' => ?_, fun t' e₁ e₂ h₁ h₂ => ?_, fun e₁ e₂ h₁ h₂ hi => ?_, fun e' q t' hl => ?_,
    fun q e' t' hu => ?_, ?_, ?_, ?_, ?_, ?_⟩
  · rw [hrefs, hentry]
    split_ifs with he
    · rw [Finset.card_erase_of_mem ht]
      exact congrArg (· - 1) (h.ref e)
    · exact h.ref e'
  · exact h.disjoint t' e₁ e₂ ((hmem e₁ t').1 h₁).1 ((hmem e₂ t').1 h₂).1
  · rw [hinum, hinum] at hi
    obtain ⟨t₁, h₁⟩ := h₁
    obtain ⟨t₂, h₂⟩ := h₂
    exact h.inum e₁ e₂ ⟨t₁, ((hmem e₁ t₁).1 h₁).1⟩ ⟨t₂, ((hmem e₂ t₂).1 h₂).1⟩ hi
  · rw [hlock] at hl
    refine (hmem e' t').2 ⟨h.lock e' q t' hl, ?_⟩
    rintro rfl
    exact unused.2 q e' hl
  · rw [hpc] at hu
    refine (hmem e' t').2 ⟨h.uses q e' t' hu, ?_⟩
    rintro rfl
    exact unused.1 q e' hu
  · rw [hpc]
    exact h.puts
  · rw [hlock, hpc]
    exact h.holds
  · rw [hlock, hpc]
    exact h.dropped
  · rw [hlock, hpc]
    exact h.updates
  · rw [hholder, hpc]
    exact h.holder

/-- The second half of `iput`. -/
theorem drop (h : Table s) (hpc : s.pc p = .iputDrop e t) :
    Table { ((s.setEntry e { s.entry e with ref := (s.entry e).ref - 1 }).unpoint e t).goto p
      .idle with holder := none } := by
  have hputs : (s.pc p).puts = some (e, t) := by rw [hpc]; rfl
  have hholder : s.holder = some p := (h.holder p).1 (by rw [hpc]; rfl)
  have h' : Table { s.goto p .idle with holder := none } := by
    refine h.goto .idle (iff_of_false Bool.false_ne_true nofun) (fun q hq => ?_) nofun nofun nofun
      nofun
    rw [hholder]
    exact ⟨nofun, fun he => (hq (Option.some.inj he).symm).elim⟩
  refine h'.unpoint (h.uses p e t (Pc.uses_of_puts hputs)) ⟨fun q e' hu => ?_, fun q e' hl => ?_⟩
  · have hu' : ((s.goto p .idle).pc q).uses = some (e', t) := hu
    rw [State.pc_goto] at hu'
    split_ifs at hu' with hq
    · cases hu'
    · exact hq (h.puts p q e e' t hputs hu')
  · have hh := h.dropped p e t e' q hputs hl
    rw [hpc] at hh
    cases hh

/-! ## iget -/

omit [DecidableEq κ] [DecidableEq τ] in
/-- `iget` finds the entry of the inode, or an empty one when there is none. -/
theorem of_iget (h : Table s) {inum : ℕ} (he : s.iget inum = some e) :
    ((s.refs e).Nonempty ∧ (s.entry e).inum = inum) ∨
      s.refs e = ∅ ∧ ∀ e', (s.refs e').Nonempty → (s.entry e').inum ≠ inum := by
  rw [State.iget, Option.or_eq_some_iff] at he
  rcases he with he | ⟨hnone, he⟩
  · have hp := List.find?_some he
    rw [decide_eq_true_eq] at hp
    exact Or.inl ⟨h.ref_pos_iff.1 hp.1, hp.2⟩
  · have hp := List.find?_some he
    rw [decide_eq_true_eq] at hp
    refine Or.inr ⟨h.ref_eq_zero_iff.1 hp, fun e' hne hi => ?_⟩
    have hf := List.find?_eq_none.1 hnone e' (List.mem_finRange e')
    rw [decide_eq_true_eq] at hf
    exact hf ⟨h.ref_pos_iff.2 hne, hi⟩

omit [DecidableEq κ] in
theorem iget (h : Table s) {inum : ℕ} (he : s.iget inum = some e) (ht : s.Fresh t) :
    Table ((s.setEntry e ((s.entry e).get inum)).point e t) := by
  rcases h.of_iget he with ⟨hne, hi⟩ | ⟨hempty, hne⟩
  · have hpos : (s.entry e).ref ≠ 0 := (h.ref_pos_iff.2 hne).ne'
    rw [Entry.get, if_neg hpos]
    refine h.point ht rfl ⟨fun _ => rfl, fun e' he' hne' hi' => ?_⟩
    exact he' (h.inum e' e hne' hne hi')
  · have hzero : (s.entry e).ref = 0 := h.ref_eq_zero_iff.2 hempty
    rw [Entry.get, if_pos hzero]
    refine h.point ht (by rw [hzero]) ⟨fun hn => ?_, fun e' _ hne' => hne e' hne'⟩
    rw [hempty] at hn
    exact (Finset.not_nonempty_empty hn).elim

/-! ## The steps -/

omit [DecidableEq κ] [DecidableEq τ] in
theorem some_eq_some_iff (free : s.holder = none) (q : κ) (hq : q ≠ p) :
    some p = some q ↔ s.holder = some q := by
  rw [free]
  exact ⟨fun h => (hq (Option.some.inj h).symm).elim, nofun⟩

omit [DecidableEq κ] [DecidableEq τ] in
theorem none_eq_some_iff (h : Table s) (hp : (s.pc p).locked = true) (q : κ) (hq : q ≠ p) :
    none = some q ↔ s.holder = some q := by
  rw [(h.holder p).1 hp]
  exact ⟨nofun, fun he => (hq (Option.some.inj he).symm).elim⟩

omit [DecidableEq τ] in
/-- `p` goes on without a pointer, and `itable.lock` stays as it is. -/
theorem plain (h : Table s) {pc₀ pc : Pc τ} (hpc : s.pc p = pc₀) (hl : pc₀.locked = pc.locked)
    (huses : pc.uses = none) (hupdates : pc.updates = none) : Table (s.goto p pc) := by
  have hp : (s.pc p).locked = pc.locked := hpc ▸ hl
  have hputs : ∀ x, pc.puts ≠ some x := fun x hx => by
    rw [Pc.uses_of_puts hx] at huses
    cases huses
  have hholds : pc.holds = none := by
    cases pc with
    | iupdate e stage => cases stage <;> first | rfl | cases huses
    | _ => first | rfl | cases huses
  refine h.goto pc (hp ▸ h.holder p) (fun _ _ => Iff.rfl) ?_ (fun e t hx => (hputs _ hx).elim) ?_ ?_
  · rw [huses]
    nofun
  · rw [hholds]
    nofun
  · rw [hupdates]
    nofun

omit [DecidableEq τ] in
/-- `p` goes on with the same pointer, and `itable.lock` stays as it is. -/
theorem pass (h : Table s) {pc₀ pc : Pc τ} (hpc : s.pc p = pc₀) (hl : pc₀.locked = pc.locked)
    (huses : pc.uses = pc₀.uses) (hputs : pc.puts = pc₀.puts) (hholds : pc.holds = pc₀.holds)
    (hupdates : pc.updates = none) : Table (s.goto p pc) := by
  subst hpc
  exact h.move (hl ▸ h.holder p) (fun _ _ => Iff.rfl) huses hputs hholds hupdates

/-- **Every step keeps the references and locks in order.** -/
theorem step {ninodes : ℕ} {x : Event} (h : Table s) (st : Step ninodes s x s') : Table s' := by
  cases st with
  | iget hpc free named he ht => exact (h.iget he ht).plain hpc rfl rfl rfl
  | @idup p e t t' hpc free ht kept ht' =>
    have h' : Table ((s.setEntry e { s.entry e with ref := (s.entry e).ref + 1 }).point e t') := by
      refine h.point ht' rfl ⟨fun _ => rfl, fun e' he hne hi => ?_⟩
      exact he (h.inum e' e hne ⟨t, ht⟩ hi)
    exact h'.plain hpc rfl rfl rfl
  | @ilock p e t hpc ht kept =>
    refine h.goto (.ilock e t) ?_ (fun _ _ => Iff.rfl) ?_ nofun nofun nofun
    · exact (congrArg Pc.locked hpc).symm ▸ h.holder p
    · intro e' t' hu
      cases hu
      exact ⟨ht, fun q e' _ => kept q e'⟩
  | @acquiresleep p e t hpc free =>
    refine h.acquire (.ilockTest e t) ?_ (fun _ _ => Iff.rfl) free ?_ rfl ?_ rfl rfl
    · exact (congrArg Pc.locked hpc).symm ▸ h.holder p
    · rw [hpc]; rfl
    · rw [hpc]; rfl
  | ilockValid hpc hv => exact h.plain hpc rfl rfl rfl
  | @ilockRead p e t hpc hv htype =>
    have h' : Table (s.setEntry e { s.entry e with valid := true, d := s.dinode e }) :=
      h.setEntry rfl rfl
    exact h'.plain hpc rfl rfl rfl
  | @iunlock p e t hpc hl =>
    refine h.release .idle ?_ hl ?_ ?_ rfl rfl fun e' t' hputs => ?_
    · rw [hpc]
    · rw [hpc]
    · rw [hpc]
    · rw [hpc] at hputs
      cases hputs
  | @update p e t hpc hl d htype =>
    have h' : Table (s.setEntry e { s.entry e with d := d }) := h.setEntry rfl rfl
    refine h'.goto (.iupdate e .user) ?_ (fun _ _ => Iff.rfl) nofun nofun nofun ?_
    · exact (congrArg Pc.locked hpc).symm ▸ h.holder p
    · intro e' hu
      cases hu
      exact ⟨t, hl⟩
  | @iupdate p e stage hpc =>
    have h' := h.write (s.entry e).inum (s.entry e).d
    cases stage with
    | user => exact h'.plain hpc rfl rfl rfl
    | trunc t | free t => exact h'.pass hpc rfl rfl rfl rfl rfl
  | @iput p e t hpc ht unused =>
    refine h.goto (.iput e t) ?_ (fun _ _ => Iff.rfl) ?_ ?_ nofun nofun
    · exact (congrArg Pc.locked hpc).symm ▸ h.holder p
    · intro e' t' hu
      cases hu
      exact ⟨ht, fun q e' _ hp => unused.1 q e' (Pc.uses_of_puts hp)⟩
    · intro e' t' hp
      cases hp
      exact ⟨fun q e' _ => unused.1 q e', fun e' q hl => (unused.2 q e' hl).elim⟩
  | iputAcquire hpc free | iputAgain hpc free =>
    refine h.move (iff_of_true rfl rfl) (some_eq_some_iff free) ?_ ?_ ?_ rfl <;> rw [hpc] <;> rfl
  | iputLast hpc _ | iputMore hpc _ => exact h.pass hpc rfl rfl rfl rfl rfl
  | @iputLock p e t hpc free =>
    have hl : (s.pc p).locked = true := by rw [hpc]; rfl
    refine h.acquire (.iputTrunc e t) (iff_of_false Bool.false_ne_true nofun)
      (h.none_eq_some_iff hl) free ?_ rfl ?_ rfl rfl
    · rw [hpc]; rfl
    · rw [hpc]; rfl
  | @iputTrunc p e t hpc =>
    have h' : Table (s.setEntry e { s.entry e with d := (s.entry e).d.trunc }) :=
      h.setEntry rfl rfl
    exact h'.pass hpc rfl rfl rfl rfl rfl
  | @iputType p e t hpc =>
    have h' : Table (s.setEntry e { s.entry e with d := (s.entry e).d.untype }) :=
      h.setEntry rfl rfl
    exact h'.pass hpc rfl rfl rfl rfl rfl
  | @iputValid p e t hpc =>
    have h' : Table (s.setEntry e { s.entry e with valid := false }) := h.setEntry rfl rfl
    have hpc' : (s.setEntry e { s.entry e with valid := false }).pc p = .iputValid e t := hpc
    refine h'.release (t := t) (.iputAgain e t) ?_ ?_ ?_ ?_ rfl rfl fun e' t' hputs => ?_
    · rw [hpc']
      rfl
    · exact h'.holds p e t (by rw [hpc']; rfl)
    · rw [hpc']
      rfl
    · rw [hpc']
      rfl
    · rw [hpc'] at hputs
      cases hputs
      rfl
  | iputDrop hpc => exact h.drop hpc
  | ialloc hpc _ | iallocNext hpc _ _ | iallocFail hpc _ => exact h.plain hpc rfl rfl rfl
  | iallocTake hpc _ _ => exact (h.write _ _).plain hpc rfl rfl rfl
  | iallocGet hpc free he ht => exact (h.iget he ht).plain hpc rfl rfl rfl

omit [DecidableEq κ] [DecidableEq τ] in
theorem of_boot (h : Boot s) : Table s where
  ref e := by
    rw [(h.entry e).1, h.refs, Finset.card_empty]
  disjoint t e e' ht := by
    rw [h.refs] at ht
    exact (Finset.notMem_empty t ht).elim
  inum e e' hne := by
    rw [h.refs] at hne
    exact (Finset.not_nonempty_empty hne).elim
  lock e p t hl := by
    rw [h.lock] at hl
    cases hl
  uses p e t hu := by
    rw [h.pc] at hu
    cases hu
  puts p q e e' t hp := by
    rw [h.pc] at hp
    cases hp
  holds p e t hh := by
    rw [h.pc] at hh
    cases hh
  dropped p e t e' q hp := by
    rw [h.pc] at hp
    cases hp
  updates p e hu := by
    rw [h.pc] at hu
    cases hu
  holder p := by
    rw [h.pc, h.holder]
    exact iff_of_false Bool.false_ne_true nofun

end Table

end Xv6.Inode
