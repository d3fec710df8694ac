import Xv6.Inode.Table

/-!
# Copies of dinodes

`Coherent s`: the copy in an entry is the dinode on the disk, unless a process is in the middle of a
change. The branch of `iput` that frees an inode is entered with the only pointer to it, which stays
the only one until the inode is free, since nobody finds its name. After that `ialloc` may take the
inode and find the same entry; its copy is not valid any more when the sleeplock is free.
-/

namespace Xv6.Inode

variable {κ τ : Type}

/-- The type that a copy has when it is written, if `x` is the one on the disk. -/
def Stage.type (x : Int16) : Stage τ → Int16
  | free _ => 0
  | _ => x

namespace Pc

/-- The process is in the branch of `iput` that frees the inode, and has not freed it. -/
def frees : Pc τ → Option (Fin NINODE × τ)
  | iputLock e t | iputTrunc e t | iupdate e (.trunc t) | iputType e t | iupdate e (.free t) =>
    some (e, t)
  | _ => none

/-- The process is going to drop its pointer without a look at the inode. -/
def late : Pc τ → Option (Fin NINODE × τ)
  | iputValid e t | iputAgain e t | iputDrop e t => some (e, t)
  | _ => none

/-- The process has changed the copy, or the inode under it. -/
def dirties : Pc τ → Option (Fin NINODE)
  | iupdate e _ | iputValid e _ => some e
  | _ => none

variable {pc : Pc τ} {e : Fin NINODE} {t : τ}

theorem puts_of_frees (h : pc.frees = some (e, t)) : pc.puts = some (e, t) := by
  cases pc with
  | iupdate _ stage =>
    cases stage with
    | user => cases h
    | trunc t | free t => exact h
  | iputLock _ _ | iputTrunc _ _ | iputType _ _ => exact h
  | _ => cases h

theorem puts_of_late (h : pc.late = some (e, t)) : pc.puts = some (e, t) := by
  cases pc with
  | iputValid _ _ | iputAgain _ _ | iputDrop _ _ => exact h
  | _ => cases h

theorem late_eq_none_of_frees (h : pc.frees = some (e, t)) : pc.late = none := by
  cases pc with
  | iputValid _ _ | iputAgain _ _ | iputDrop _ _ => cases h
  | _ => rfl

theorem dirties_eq_some (h : pc.dirties = some e) :
    (∃ t, pc.holds = some (e, t)) ∨ pc.updates = some e := by
  cases pc with
  | iupdate _ stage =>
    cases h
    cases stage with
    | user => exact Or.inr rfl
    | trunc t | free t => exact Or.inl ⟨t, rfl⟩
  | iputValid _ t =>
    cases h
    exact Or.inl ⟨t, rfl⟩
  | _ => cases h

end Pc

/-- The inode is free, or has just been allocated. -/
def State.Vacant (s : State κ τ) (inum : ℕ) : Prop :=
  (s.disk inum).type = 0 ∨ ∃ p, s.pc p = .ialloced inum

/-- The copies in the table and the dinodes on the disk. -/
structure Coherent (s : State κ τ) : Prop where
  table : Table s
  nolink : ∀ inum, (s.disk inum).type = 0 → (s.disk inum).nlink = 0
  frees : ∀ p e t, (s.pc p).frees = some (e, t) →
    s.refs e = {t} ∧ (s.entry e).valid = true ∧ (s.entry e).d.nlink = 0
  valid : ∀ e p t, s.lock e = some (p, t) → (s.entry e).valid = true ∨ s.pc p = .ilockTest e t
  copy : ∀ e, (s.refs e).Nonempty → (s.entry e).valid = true → (∀ p, (s.pc p).dirties ≠ some e) →
    (s.entry e).d = s.dinode e ∧ (s.dinode e).type ≠ 0
  keeps : ∀ p e stage, s.pc p = .iupdate e stage →
    (s.dinode e).type ≠ 0 ∧ (s.entry e).d.type = stage.type (s.dinode e).type
  ialloc : ∀ p type inum, s.pc p = .ialloc type inum → type ≠ 0
  alloced : ∀ p inum, s.pc p = .ialloced inum → (s.disk inum).type ≠ 0 ∧ (s.disk inum).nlink = 0 ∧
    ∀ q, s.pc q = .ialloced inum → q = p
  vacant : ∀ e, s.Vacant (s.entry e).inum → (s.refs e).Nonempty →
    ∃ p t, s.refs e = {t} ∧ (s.pc p).late = some (e, t)

namespace Coherent

variable {s s' : State κ τ} {p q : κ} {e : Fin NINODE} {t : τ}

/-! ## Who holds the sleeplock -/

theorem refs_nonempty (h : Coherent s) (hl : s.lock e = some (p, t)) : (s.refs e).Nonempty :=
  ⟨t, h.table.lock e p t hl⟩

/-- `iupdate` is called with the sleeplock held. -/
theorem lock_of_iupdate (h : Coherent s) {stage : Stage τ} (hpc : s.pc p = .iupdate e stage) :
    ∃ t, s.lock e = some (p, t) := by
  cases stage with
  | user => exact h.table.updates p e (by rw [hpc]; rfl)
  | trunc t | free t => exact ⟨t, h.table.holds p e t (by rw [hpc]; rfl)⟩

/-- Who drops the only pointer to a locked inode has locked it. -/
theorem eq_of_puts (h : Coherent s) (hl : s.lock e = some (p, t)) {t' : τ}
    (hq : (s.pc q).puts = some (e, t')) (hrefs : s.refs e = {t'}) :
    q = p ∧ (s.pc q).holds = some (e, t') := by
  have ht := h.table.lock e p t hl
  rw [hrefs, Finset.mem_singleton] at ht
  subst ht
  have hh := h.table.dropped q e t e p hq hl
  have hl' := h.table.holds q e t hh
  rw [hl] at hl'
  cases hl'
  exact ⟨rfl, hh⟩

/-- A locked inode is being freed by who has locked it. -/
theorem eq_of_frees (h : Coherent s) (hl : s.lock e = some (p, t)) {t' : τ}
    (hq : (s.pc q).frees = some (e, t')) : q = p :=
  (h.eq_of_puts hl (Pc.puts_of_frees hq) (h.frees q e t' hq).1).1

/-- The copy of a locked inode is changed by who has locked it. -/
theorem eq_of_dirties (h : Coherent s) (hl : s.lock e = some (p, t))
    (hq : (s.pc q).dirties = some e) : q = p := by
  rcases Pc.dirties_eq_some hq with ⟨t', hh⟩ | hu
  · have hl' := h.table.holds q e t' hh
    rw [hl] at hl'
    cases hl'
    rfl
  · obtain ⟨t', hl'⟩ := h.table.updates q e hu
    rw [hl] at hl'
    cases hl'
    rfl

theorem eq_of_iupdate (h : Coherent s) (hl : s.lock e = some (p, t)) {stage : Stage τ}
    (hq : s.pc q = .iupdate e stage) : q = p :=
  h.eq_of_dirties hl (by rw [hq]; rfl)

/-- Nobody has locked an inode if the only pointer to it is dropped by who has not. -/
theorem lock_eq_none (h : Coherent s) (hp : (s.pc p).puts = some (e, t)) (hrefs : s.refs e = {t})
    (hh : (s.pc p).holds = none) : s.lock e = none := by
  rw [Option.eq_none_iff_forall_ne_some]
  rintro ⟨q, t'⟩ hl
  have hh' := (h.eq_of_puts hl hp hrefs).2
  rw [hh] at hh'
  cases hh'

/-- Nobody has changed the copy of an inode that `p` has locked. -/
theorem copy_of_lock (h : Coherent s) (hl : s.lock e = some (p, t))
    (hp : (s.pc p).dirties = none) (hv : (s.entry e).valid = true) :
    (s.entry e).d = s.dinode e ∧ (s.dinode e).type ≠ 0 := by
  refine h.copy e (h.refs_nonempty hl) hv fun q hq => ?_
  rw [h.eq_of_dirties hl hq, hp] at hq
  cases hq

/-- A vacant inode is locked only by who has just freed it. -/
theorem not_vacant (h : Coherent s) (hl : s.lock e = some (p, t))
    (hp : ∀ t', s.pc p ≠ .iputValid e t') : ¬s.Vacant (s.entry e).inum := by
  intro hv
  obtain ⟨q, t', hrefs, hq⟩ := h.vacant e hv (h.refs_nonempty hl)
  obtain ⟨rfl, hh⟩ := h.eq_of_puts hl (Pc.puts_of_late hq) hrefs
  generalize hpc : s.pc q = pc at hq hh
  cases pc with
  | iputValid e' t'' =>
    cases hq
    exact hp _ hpc
  | iputAgain _ _ | iputDrop _ _ => cases hh
  | _ => cases hq

/-- Other entries have other dinodes. -/
theorem inum_ne (h : Coherent s) {e' : Fin NINODE} (he : e' ≠ e) (hne : (s.refs e).Nonempty)
    (hne' : (s.refs e').Nonempty) : (s.entry e').inum ≠ (s.entry e).inum :=
  fun hi => he (h.table.inum e' e hne' hne hi)

/-! ## Steps that keep the disk and the pointers -/

end Coherent

/-- `p` goes on from `pc₀` to `pc`; the disk and the pointers stay. -/
structure Goes (s s' : State κ τ) (p : κ) (pc₀ pc : Pc τ) : Prop where
  start : s.pc p = pc₀
  goes : s'.pc p = pc
  others : ∀ q, q ≠ p → s'.pc q = s.pc q
  disk : s'.disk = s.disk
  refs : s'.refs = s.refs
  ialloc : ∀ type inum, pc = .ialloc type inum → type ≠ 0
  alloced : ∀ inum, pc ≠ .ialloced inum
  late : pc₀.late = none ∨ pc₀.late = pc.late

/-- A step of `p` that changes no copy of an inode. -/
structure Quiet (s s' : State κ τ) (p : κ) (pc₀ pc : Pc τ) : Prop extends Goes s s' p pc₀ pc where
  entry : s'.entry = s.entry
  frees : ∀ e t, pc.frees = some (e, t) →
    s.refs e = {t} ∧ (s.entry e).valid = true ∧ (s.entry e).d.nlink = 0
  valid : ∀ e q t, s'.lock e = some (q, t) → (s.entry e).valid = true ∨ s'.pc q = .ilockTest e t
  clean : pc₀.dirties = none
  clean' : pc.dirties = none

/-- What makes a step from `pc₀` to `pc` a quiet one. Most steps neither free an inode nor allocate
one, and are made by who is not about to drop a pointer. -/
structure Plain (s : State κ τ) (pc₀ pc : Pc τ) : Prop where
  frees : ∀ e t, pc.frees = some (e, t) →
    s.refs e = {t} ∧ (s.entry e).valid = true ∧ (s.entry e).d.nlink = 0 := by nofun
  clean : pc₀.dirties = none := by rfl
  clean' : pc.dirties = none := by rfl
  ialloc : ∀ type inum, pc = .ialloc type inum → type ≠ 0 := by nofun
  alloced : ∀ inum, pc ≠ .ialloced inum := by nofun
  late : pc₀.late = none ∨ pc₀.late = pc.late := by exact Or.inl rfl

theorem Plain.quiet [DecidableEq κ] {s s' : State κ τ} {p : κ} {pc₀ pc : Pc τ}
    (hp : Plain s pc₀ pc) (hpc₀ : s.pc p = pc₀) (hpc : s'.pc = Function.update s.pc p pc)
    (hdisk : s'.disk = s.disk) (hrefs : s'.refs = s.refs) (hentry : s'.entry = s.entry)
    (hvalid : ∀ e q t, s'.lock e = some (q, t) →
      (s.entry e).valid = true ∨ s'.pc q = .ilockTest e t) : Quiet s s' p pc₀ pc where
  start := hpc₀
  goes := hpc ▸ Function.update_self ..
  others _ hq := hpc ▸ Function.update_of_ne hq ..
  disk := hdisk
  refs := hrefs
  ialloc := hp.ialloc
  alloced := hp.alloced
  late := hp.late
  entry := hentry
  frees := hp.frees
  valid := hvalid
  clean := hp.clean
  clean' := hp.clean'

/-- `p`, who has locked `e`, changes the entry to `x`, and may unlock it. -/
structure Changes (s s' : State κ τ) (p : κ) (pc₀ pc : Pc τ) (e : Fin NINODE) (x : Entry) : Prop
    extends Goes s s' p pc₀ pc where
  locked : ∃ t, s.lock e = some (p, t)
  entry : s'.entry = Function.update s.entry e x
  inum : x.inum = (s.entry e).inum
  lock : ∀ e', e' ≠ e → s'.lock e' = s.lock e'
  frees : ∀ e' t', pc.frees = some (e', t') →
    e' = e ∧ s.refs e = {t'} ∧ x.valid = true ∧ x.d.nlink = 0
  valid : s'.lock e ≠ none → x.valid = true
  test : ∀ e' t', pc₀ = .ilockTest e' t' → e' = e
  dirties : ∀ e', pc₀.dirties = some e' → e' = e
  copy : x.valid = true → pc.dirties ≠ some e → x.d = s.dinode e ∧ (s.dinode e).type ≠ 0
  keeps : ∀ e' stage, pc = .iupdate e' stage →
    e' = e ∧ (s.dinode e).type ≠ 0 ∧ x.d.type = stage.type (s.dinode e).type

namespace Coherent

variable {s s' : State κ τ} {p q : κ} {e : Fin NINODE} {t : τ} {pc₀ pc : Pc τ}

/-- `p` goes on at `pc`; it may change an entry whose sleeplock it holds. -/
theorem stay (h : Coherent s) (hg : Goes s s' p pc₀ pc) (ht : Table s')
    (hinum : ∀ e, (s'.entry e).inum = (s.entry e).inum)
    (hentry : ∀ e, s'.entry e = s.entry e ∨ ∃ t, s.lock e = some (p, t))
    (hfrees : ∀ e t, pc.frees = some (e, t) →
      s.refs e = {t} ∧ (s'.entry e).valid = true ∧ (s'.entry e).d.nlink = 0)
    (hvalid : ∀ e q t, s'.lock e = some (q, t) →
      (s'.entry e).valid = true ∨ s'.pc q = .ilockTest e t)
    (hcopy : ∀ e, (s.refs e).Nonempty → (s'.entry e).valid = true →
      (∀ q, (s'.pc q).dirties ≠ some e) →
        (s'.entry e).d = s.dinode e ∧ (s.dinode e).type ≠ 0)
    (hkeeps : ∀ e stage, pc = .iupdate e stage →
      (s.dinode e).type ≠ 0 ∧ (s'.entry e).d.type = stage.type (s.dinode e).type) :
    Coherent s' := by
  obtain ⟨rfl, hpc, hothers, hdisk, hrefs, hialloc, halloced, hlate⟩ := hg
  have hdinode : ∀ e, s'.dinode e = s.dinode e := fun e => by
    rw [State.dinode, State.dinode, hdisk, hinum]
  have hof : ∀ inum r, s'.pc r = .ialloced inum → s.pc r = .ialloced inum := by
    intro inum r hr
    by_cases hrp : r = p
    · subst hrp
      rw [hpc] at hr
      exact (halloced inum hr).elim
    · rwa [hothers r hrp] at hr
  refine ⟨ht, hdisk ▸ h.nolink, fun q e t hq => ?_, hvalid, fun e hne hv hclean => ?_,
    fun q e stage hq => ?_, fun q type inum hq => ?_, fun q inum hq => ?_, fun e hv hne => ?_⟩
  · rw [hrefs]
    by_cases hqp : q = p
    · subst hqp
      rw [hpc] at hq
      exact hfrees e t hq
    · rw [hothers q hqp] at hq
      rcases hentry e with he | ⟨t', hl⟩
      · rw [he]
        exact h.frees q e t hq
      · exact (hqp (h.eq_of_frees hl hq)).elim
  · rw [hrefs] at hne
    rw [hdinode]
    exact hcopy e hne hv hclean
  · rw [hdinode]
    by_cases hqp : q = p
    · subst hqp
      rw [hpc] at hq
      exact hkeeps e stage hq
    · rw [hothers q hqp] at hq
      rcases hentry e with he | ⟨t', hl⟩
      · rw [he]
        exact h.keeps q e stage hq
      · exact (hqp (h.eq_of_iupdate hl hq)).elim
  · by_cases hqp : q = p
    · subst hqp
      rw [hpc] at hq
      exact hialloc type inum hq
    · rw [hothers q hqp] at hq
      exact h.ialloc q type inum hq
  · obtain ⟨htype, hnlink, huniq⟩ := h.alloced q inum (hof inum q hq)
    rw [hdisk]
    exact ⟨htype, hnlink, fun r hr => huniq r (hof inum r hr)⟩
  · rw [hrefs] at hne ⊢
    rw [hinum] at hv
    have hv' : s.Vacant (s.entry e).inum := by
      rcases hv with hv | ⟨r, hr⟩
      · rw [hdisk] at hv
        exact Or.inl hv
      · exact Or.inr ⟨r, hof _ r hr⟩
    obtain ⟨r, t, hrefs', hr⟩ := h.vacant e hv' hne
    refine ⟨r, t, hrefs', ?_⟩
    by_cases hrp : r = p
    · subst hrp
      rw [hpc]
      rcases hlate with hn | hsame
      · rw [hn] at hr
        cases hr
      · rwa [← hsame]
    · rw [hothers r hrp]
      exact hr

/-- A step of `p` that takes or drops a sleeplock or `itable.lock`, or none of them. -/
theorem quiet (h : Coherent s) (hq : Quiet s s' p pc₀ pc) (ht : Table s') : Coherent s' := by
  obtain ⟨hg, hentry, hfrees, hvalid, hclean, hclean'⟩ := hq
  refine h.stay hg ht (fun e => by rw [hentry]) (fun e => Or.inl (by rw [hentry])) ?_ ?_
    (fun e hne hv hnone => ?_) (fun e stage he => ?_)
  · rw [hentry]
    exact hfrees
  · rw [hentry]
    exact hvalid
  · rw [hentry] at hv ⊢
    refine h.copy e hne hv fun q => ?_
    by_cases hqp : q = p
    · rw [hqp, hg.start, hclean]
      exact nofun
    · rw [← hg.others q hqp]
      exact hnone q
  · rw [he] at hclean'
    cases hclean'

theorem change (h : Coherent s) {x : Entry} (hc : Changes s s' p pc₀ pc e x) (ht : Table s') :
    Coherent s' := by
  obtain ⟨hg, ⟨t, hl⟩, hentry, hinum, hlock, hfrees, hvalid, htest, hdirties, hcopy, hkeeps⟩ := hc
  have hx : s'.entry e = x := hentry ▸ Function.update_self ..
  have hne : ∀ e', e' ≠ e → s'.entry e' = s.entry e' := fun e' he =>
    hentry ▸ Function.update_of_ne he ..
  refine h.stay hg ht (fun e' => ?_) (fun e' => ?_) (fun e' t' hf => ?_) (fun e' q t' hl' => ?_)
    (fun e' hrefs hv hclean => ?_) (fun e' stage he => ?_)
  · by_cases he : e' = e
    · rw [he, hx, hinum]
    · rw [hne e' he]
  · by_cases he : e' = e
    · exact Or.inr ⟨t, he ▸ hl⟩
    · exact Or.inl (hne e' he)
  · obtain ⟨rfl, hf'⟩ := hfrees e' t' hf
    rw [hx]
    exact hf'
  · by_cases he : e' = e
    · subst he
      rw [hx]
      exact Or.inl (hvalid fun hn => by rw [hn] at hl'; cases hl')
    · rw [hne e' he]
      rw [hlock e' he] at hl'
      refine (h.valid e' q t' hl').imp_right fun hq => ?_
      rwa [hg.others q fun hqp => he (htest e' t' (by rw [← hg.start, ← hqp, hq]))]
  · by_cases he : e' = e
    · subst he
      rw [hx] at hv ⊢
      exact hcopy hv (hg.goes ▸ hclean p)
    · rw [hne e' he] at hv ⊢
      refine h.copy e' hrefs hv fun q hq => ?_
      by_cases hqp : q = p
      · rw [hqp, hg.start] at hq
        exact he (hdirties e' hq)
      · rw [← hg.others q hqp] at hq
        exact hclean q hq
  · obtain ⟨rfl, hk⟩ := hkeeps e' stage he
    rw [hx]
    exact hk

/-! ## Writes to the disk -/

/-- `p` writes the copy of `e` to the disk. -/
theorem iupdate [DecidableEq κ] (h : Coherent s) {stage : Stage τ}
    (hpc : s.pc p = .iupdate e stage)
    (ht : Table ((s.write (s.entry e).inum (s.entry e).d).goto p (stage.next e))) :
    Coherent ((s.write (s.entry e).inum (s.entry e).d).goto p (stage.next e)) := by
  obtain ⟨htype, hd⟩ := h.keeps p e stage hpc
  obtain ⟨t, hl⟩ := h.lock_of_iupdate hpc
  have hne := h.refs_nonempty hl
  have hnv : ¬s.Vacant (s.entry e).inum := h.not_vacant hl fun t' he => by rw [hpc] at he; cases he
  generalize hs : (s.write (s.entry e).inum (s.entry e).d).goto p (stage.next e) = s' at ht ⊢
  have hentry : s'.entry = s.entry := hs ▸ rfl
  have hrefs : s'.refs = s.refs := hs ▸ rfl
  have hlock : s'.lock = s.lock := hs ▸ rfl
  have hdisk : ∀ inum, s'.disk inum =
      if inum = (s.entry e).inum then (s.entry e).d else s.disk inum :=
    fun inum => hs ▸ State.disk_write ..
  have hpcs : ∀ q, s'.pc q = if q = p then stage.next e else s.pc q :=
    fun q => hs ▸ State.pc_goto ..
  have hfree : (s.entry e).d.type = 0 → ∃ t, stage = .free t := by
    intro h0
    cases stage with
    | free t => exact ⟨t, rfl⟩
    | user | trunc t => exact (htype (hd.symm.trans h0)).elim
  have hother : ∀ e', e' ≠ e → (s.refs e').Nonempty → s'.dinode e' = s.dinode e' := by
    intro e' he hne'
    rw [State.dinode, hentry, hdisk, if_neg (h.inum_ne he hne hne')]
    rfl
  have halloced : ∀ q inum, s'.pc q = .ialloced inum → s.pc q = .ialloced inum := by
    intro q inum hq
    rw [hpcs] at hq
    split_ifs at hq
    · cases stage <;> cases hq
    · exact hq
  refine ⟨ht, fun inum h0 => ?_, fun q e' t' hq => ?_, fun e' q t' hl' => ?_,
    fun e' hne' hv hclean => ?_, fun q e' stage' hq => ?_, fun q type inum hq => ?_,
    fun q inum hq => ?_, fun e' hv hne' => ?_⟩
  · rw [hdisk] at h0 ⊢
    split_ifs at h0 ⊢
    · obtain ⟨t', rfl⟩ := hfree h0
      exact (h.frees p e t' (by rw [hpc]; rfl)).2.2
    · exact h.nolink inum h0
  · rw [hrefs, hentry]
    rw [hpcs] at hq
    split_ifs at hq
    · cases stage with
      | trunc t =>
        cases hq
        exact h.frees p _ _ (by rw [hpc]; rfl)
      | user | free t => cases hq
    · exact h.frees q e' t' hq
  · rw [hentry]
    rw [hlock] at hl'
    refine (h.valid e' q t' hl').imp_right fun hq => ?_
    rw [hpcs, if_neg, hq]
    rintro rfl
    rw [hpc] at hq
    cases hq
  · rw [hrefs] at hne'
    rw [hentry] at hv ⊢
    by_cases he : e' = e
    · subst he
      have hdin : s'.dinode e' = (s.entry e').d := by
        rw [State.dinode, hentry, hdisk, if_pos rfl]
      rw [hdin]
      refine ⟨rfl, fun h0 => ?_⟩
      obtain ⟨t', rfl⟩ := hfree h0
      refine hclean p ?_
      rw [hpcs, if_pos rfl]
      rfl
    · rw [hother e' he hne']
      refine h.copy e' hne' hv fun q hq => ?_
      by_cases hqp : q = p
      · rw [hqp, hpc] at hq
        cases hq
        exact he rfl
      · refine hclean q ?_
        rw [hpcs, if_neg hqp, hq]
  · rw [hpcs] at hq
    split_ifs at hq with hqp
    · cases stage <;> cases hq
    · obtain ⟨t', hl'⟩ := h.lock_of_iupdate hq
      have hne' := h.refs_nonempty hl'
      have he : e' ≠ e := by
        rintro rfl
        exact hqp (h.eq_of_iupdate hl hq)
      rw [hother e' he hne', hentry]
      exact h.keeps q e' stage' hq
  · rw [hpcs] at hq
    split_ifs at hq
    · cases stage <;> cases hq
    · exact h.ialloc q type inum hq
  · obtain ⟨htype', hnlink, huniq⟩ := h.alloced q inum (halloced q inum hq)
    have hi : inum ≠ (s.entry e).inum := by
      rintro rfl
      exact hnv (Or.inr ⟨q, halloced q _ hq⟩)
    rw [hdisk, if_neg hi]
    exact ⟨htype', hnlink, fun r hr => huniq r (halloced r inum hr)⟩
  · rw [hrefs] at hne' ⊢
    rw [hentry] at hv
    by_cases he : e' = e
    · subst he
      rcases hv with hv | ⟨q, hq⟩
      · rw [hdisk, if_pos rfl] at hv
        obtain ⟨t', rfl⟩ := hfree hv
        refine ⟨p, t', (h.frees p e' t' (by rw [hpc]; rfl)).1, ?_⟩
        rw [hpcs, if_pos rfl]
        rfl
      · exact (hnv (Or.inr ⟨q, halloced q _ hq⟩)).elim
    · have hv' : s.Vacant (s.entry e').inum := by
        rcases hv with hv | ⟨q, hq⟩
        · rw [hdisk, if_neg (h.inum_ne he hne hne')] at hv
          exact Or.inl hv
        · exact Or.inr ⟨q, halloced q _ hq⟩
      obtain ⟨q, t', hrefs', hq⟩ := h.vacant e' hv' hne'
      refine ⟨q, t', hrefs', ?_⟩
      rw [hpcs, if_neg, hq]
      rintro rfl
      rw [hpc] at hq
      cases hq

/-- `p`, in the loop of `ialloc`, takes the free inode `inum`. -/
theorem take [DecidableEq κ] (h : Coherent s) {type : Int16} {inum : ℕ}
    (hpc : s.pc p = .ialloc type inum) (h0 : (s.disk inum).type = 0)
    (ht : Table ((s.write inum (.zero type)).goto p (.ialloced inum))) :
    Coherent ((s.write inum (.zero type)).goto p (.ialloced inum)) := by
  have htype := h.ialloc p type inum hpc
  generalize hs : (s.write inum (.zero type)).goto p (.ialloced inum) = s' at ht ⊢
  have hentry : s'.entry = s.entry := hs ▸ rfl
  have hrefs : s'.refs = s.refs := hs ▸ rfl
  have hlock : s'.lock = s.lock := hs ▸ rfl
  have hdisk : ∀ i, s'.disk i = if i = inum then .zero type else s.disk i :=
    fun i => hs ▸ State.disk_write ..
  have hpcs : ∀ q, s'.pc q = if q = p then .ialloced inum else s.pc q :=
    fun q => hs ▸ State.pc_goto ..
  have hother : ∀ e, (s.dinode e).type ≠ 0 → s'.dinode e = s.dinode e := by
    intro e hne
    rw [State.dinode, hentry, hdisk, if_neg]
    · rfl
    · rintro rfl
      exact hne h0
  refine ⟨ht, fun i hi => ?_, fun q e t hq => ?_, fun e q t hl => ?_,
    fun e hne hv hclean => ?_, fun q e stage hq => ?_, fun q type' i hq => ?_,
    fun q i hq => ?_, fun e hv hne => ?_⟩
  · rw [hdisk] at hi ⊢
    split_ifs at hi ⊢
    · rfl
    · exact h.nolink i hi
  · rw [hrefs, hentry]
    rw [hpcs] at hq
    split_ifs at hq
    · cases hq
    · exact h.frees q e t hq
  · rw [hentry]
    rw [hlock] at hl
    refine (h.valid e q t hl).imp_right fun hq => ?_
    rw [hpcs, if_neg, hq]
    rintro rfl
    rw [hpc] at hq
    cases hq
  · rw [hrefs] at hne
    rw [hentry] at hv ⊢
    have hd := h.copy e hne hv fun q hq => by
      refine hclean q ?_
      rw [hpcs, if_neg, hq]
      rintro rfl
      rw [hpc] at hq
      cases hq
    rw [hother e hd.2]
    exact hd
  · rw [hpcs] at hq
    split_ifs at hq
    have hk := h.keeps q e stage hq
    rw [hother e hk.1, hentry]
    exact hk
  · rw [hpcs] at hq
    split_ifs at hq
    exact h.ialloc q type' i hq
  · -- nobody else has just allocated this inode, which was free
    have hfree : ∀ r, s.pc r ≠ .ialloced inum := fun r hr => (h.alloced r inum hr).1 h0
    rw [hpcs] at hq
    split_ifs at hq with hqp
    · cases hq
      rw [hdisk, if_pos rfl]
      refine ⟨htype, rfl, fun r hr => ?_⟩
      rw [hpcs] at hr
      split_ifs at hr with hrp
      · exact hrp.trans hqp.symm
      · exact (hfree r hr).elim
    · have hi : i ≠ inum := by
        rintro rfl
        exact hfree q hq
      obtain ⟨htype', hnlink, huniq⟩ := h.alloced q i hq
      rw [hdisk, if_neg hi]
      refine ⟨htype', hnlink, fun r hr => ?_⟩
      rw [hpcs] at hr
      split_ifs at hr
      · cases hr
        exact (hi rfl).elim
      · exact huniq r hr
  · rw [hrefs] at hne ⊢
    rw [hentry] at hv
    have hv' : s.Vacant (s.entry e).inum := by
      rcases hv with hv | ⟨q, hq⟩
      · rw [hdisk] at hv
        split_ifs at hv with hi
        · exact (htype hv).elim
        · exact Or.inl hv
      · rw [hpcs] at hq
        split_ifs at hq
        · cases hq
          exact Or.inl h0
        · exact Or.inr ⟨q, hq⟩
    obtain ⟨q, t, hrefs', hq⟩ := h.vacant e hv' hne
    refine ⟨q, t, hrefs', ?_⟩
    rw [hpcs, if_neg, hq]
    rintro rfl
    rw [hpc] at hq
    cases hq

/-! ## New pointers, and pointers that go -/

variable [DecidableEq κ] [DecidableEq τ]

/-- `p` gets a pointer to `e`, which nobody frees, and whose inode is in use. -/
theorem point (h : Coherent s) {x : Entry} {pc₀ : Pc τ} (hpc : s.pc p = pc₀)
    (hpc₀ : pc₀ = .idle ∨ ∃ inum, pc₀ = .ialloced inum)
    (hx : (s.refs e).Nonempty → x.inum = (s.entry e).inum ∧ x.valid = (s.entry e).valid ∧
      x.d = (s.entry e).d)
    (hx' : s.refs e = ∅ → x.valid = false)
    (hfrees : ∀ q t', (s.pc q).frees ≠ some (e, t'))
    (hvacant : (s.disk x.inum).type ≠ 0 ∧ ∀ q, q ≠ p → s.pc q ≠ .ialloced x.inum)
    (ht : Table (((s.setEntry e x).point e t).goto p .idle)) :
    Coherent (((s.setEntry e x).point e t).goto p .idle) := by
  have hold : ∀ q pc, s.pc q = pc → pc.late ≠ none ∨ (∃ e, pc.dirties = some e) ∨
      (∃ e t, pc = .ilockTest e t) → q ≠ p := by
    rintro q pc hq hor rfl
    rw [hpc] at hq
    subst hq
    rcases hpc₀ with rfl | ⟨inum, rfl⟩ <;> rcases hor with hn | ⟨e, he⟩ | ⟨e, t, he⟩
    · exact hn rfl
    · cases he
    · cases he
    · exact hn rfl
    · cases he
    · cases he
  generalize hs : ((s.setEntry e x).point e t).goto p .idle = s' at ht ⊢
  have hdisk : s'.disk = s.disk := hs ▸ rfl
  have hlock : s'.lock = s.lock := hs ▸ rfl
  have hentry : ∀ e', s'.entry e' = if e' = e then x else s.entry e' :=
    fun e' => hs ▸ State.entry_setEntry ..
  have hrefs : ∀ e', s'.refs e' = if e' = e then insert t (s.refs e) else s.refs e' :=
    fun e' => hs ▸ State.refs_point ..
  have hpcs : ∀ q, s'.pc q = if q = p then .idle else s.pc q := fun q => hs ▸ State.pc_goto ..
  -- an entry with pointers is the same as before
  have hsame : ∀ e', (s.refs e').Nonempty → (s'.entry e').inum = (s.entry e').inum ∧
      (s'.entry e').valid = (s.entry e').valid ∧ (s'.entry e').d = (s.entry e').d := by
    intro e' hne
    rw [hentry]
    split_ifs with he
    · subst he
      exact hx hne
    · exact ⟨rfl, rfl, rfl⟩
  have hof : ∀ q pc, s'.pc q = pc → pc ≠ .idle → s.pc q = pc := by
    intro q pc hq hne
    rw [hpcs] at hq
    split_ifs at hq
    · exact (hne hq.symm).elim
    · exact hq
  refine ⟨ht, hdisk ▸ h.nolink, fun q e' t' hq => ?_, fun e' q t' hl => ?_,
    fun e' hne hv hclean => ?_, fun q e' stage hq => ?_, fun q type i hq => ?_,
    fun q i hq => ?_, fun e' hv hne => ?_⟩
  · rw [hpcs] at hq
    split_ifs at hq
    · cases hq
    · have he : e' ≠ e := by
        rintro rfl
        exact hfrees q t' hq
      rw [hrefs, hentry, if_neg he, if_neg he]
      exact h.frees q e' t' hq
  · rw [hlock] at hl
    rw [(hsame e' (h.refs_nonempty hl)).2.1]
    refine (h.valid e' q t' hl).imp_right fun hq => ?_
    rw [hpcs, if_neg, hq]
    exact hold q _ hq (Or.inr (Or.inr ⟨e', t', rfl⟩))
  · have hne' : (s.refs e').Nonempty := by
      rw [hrefs] at hne
      split_ifs at hne with he
      · subst he
        rw [Finset.nonempty_iff_ne_empty]
        intro hempty
        rw [hentry, if_pos rfl, hx' hempty] at hv
        cases hv
      · exact hne
    obtain ⟨hi, hval, hd⟩ := hsame e' hne'
    have hdin : s'.dinode e' = s.dinode e' := by
      rw [State.dinode, hdisk, hi]
      rfl
    rw [hval] at hv
    rw [hd, hdin]
    refine h.copy e' hne' hv fun q hq => hclean q ?_
    rw [hpcs, if_neg (hold q _ rfl (Or.inr (Or.inl ⟨e', hq⟩))), hq]
  · have hq' := hof q _ hq nofun
    obtain ⟨t', hl'⟩ := h.lock_of_iupdate hq'
    obtain ⟨hi, -, hd⟩ := hsame e' (h.refs_nonempty hl')
    have hdin : s'.dinode e' = s.dinode e' := by
      rw [State.dinode, hdisk, hi]
      rfl
    rw [hd, hdin]
    exact h.keeps q e' stage hq'
  · exact h.ialloc q type i (hof q _ hq nofun)
  · obtain ⟨htype, hnlink, huniq⟩ := h.alloced q i (hof q _ hq nofun)
    rw [hdisk]
    exact ⟨htype, hnlink, fun r hr => huniq r (hof r _ hr nofun)⟩
  · by_cases he : e' = e
    · subst he
      rw [hentry, if_pos rfl, State.Vacant, hdisk] at hv
      rcases hv with hv | ⟨q, hq⟩
      · exact (hvacant.1 hv).elim
      · rw [hpcs] at hq
        split_ifs at hq with hqp
        exact (hvacant.2 q hqp hq).elim
    · rw [hrefs, if_neg he] at hne ⊢
      rw [hentry, if_neg he, State.Vacant, hdisk] at hv
      have hv' : s.Vacant (s.entry e').inum := hv.imp_right fun ⟨q, hq⟩ => ⟨q, hof q _ hq nofun⟩
      obtain ⟨q, t', hrefs', hq⟩ := h.vacant e' hv' hne
      refine ⟨q, t', hrefs', ?_⟩
      rw [hpcs, if_neg, hq]
      refine hold q _ rfl (Or.inl ?_)
      rw [hq]
      exact nofun

/-- `p` drops its pointer to `e`. -/
theorem drop (h : Coherent s) (hpc : s.pc p = .iputDrop e t)
    (ht : Table { ((s.setEntry e { s.entry e with ref := (s.entry e).ref - 1 }).unpoint e t).goto p
      .idle with holder := none }) :
    Coherent { ((s.setEntry e { s.entry e with ref := (s.entry e).ref - 1 }).unpoint e t).goto p
      .idle with holder := none } := by
  have hputs : (s.pc p).puts = some (e, t) := by rw [hpc]; rfl
  have hmem : t ∈ s.refs e := h.table.uses p e t (Pc.uses_of_puts hputs)
  generalize hs : { ((s.setEntry e { s.entry e with ref := (s.entry e).ref - 1 }).unpoint e t).goto
    p .idle with holder := none } = s' at ht ⊢
  have hdisk : s'.disk = s.disk := hs ▸ rfl
  have hlock : s'.lock = s.lock := hs ▸ rfl
  have hentry : ∀ e', (s'.entry e').inum = (s.entry e').inum ∧
      (s'.entry e').valid = (s.entry e').valid ∧ (s'.entry e').d = (s.entry e').d := by
    intro e'
    have hx : s'.entry e' =
        if e' = e then { s.entry e with ref := (s.entry e).ref - 1 } else s.entry e' :=
      hs ▸ State.entry_setEntry ..
    rw [hx]
    split_ifs with he
    · rw [he]
      exact ⟨rfl, rfl, rfl⟩
    · exact ⟨rfl, rfl, rfl⟩
  have hrefs : ∀ e', s'.refs e' = if e' = e then (s.refs e).erase t else s.refs e' :=
    fun e' => hs ▸ State.refs_unpoint ..
  have hpcs : ∀ q, s'.pc q = if q = p then .idle else s.pc q := fun q => hs ▸ State.pc_goto ..
  have hof : ∀ q pc, s'.pc q = pc → pc ≠ .idle → q ≠ p ∧ s.pc q = pc := by
    intro q pc hq hne
    rw [hpcs] at hq
    split_ifs at hq with hqp
    · exact (hne hq.symm).elim
    · exact ⟨hqp, hq⟩
  have hdin : ∀ e', s'.dinode e' = s.dinode e' := by
    intro e'
    rw [State.dinode, hdisk, (hentry e').1]
    rfl
  have hsub : ∀ e', (s'.refs e').Nonempty → (s.refs e').Nonempty := by
    rintro e' ⟨t', hm⟩
    rw [hrefs] at hm
    split_ifs at hm with he
    · exact ⟨t', he ▸ Finset.mem_of_mem_erase hm⟩
    · exact ⟨t', hm⟩
  -- nobody else drops the only pointer to `e`
  have honly : ∀ q e' t', q ≠ p → (s.pc q).puts = some (e', t') → s.refs e' = {t'} → e' ≠ e := by
    rintro q e' t' hqp hq hr rfl
    rw [hr, Finset.mem_singleton] at hmem
    subst hmem
    exact hqp (h.table.puts p q e' e' t hputs (Pc.uses_of_puts hq))
  refine ⟨ht, hdisk ▸ h.nolink, fun q e' t' hq => ?_, fun e' q t' hl => ?_,
    fun e' hne hv hclean => ?_, fun q e' stage hq => ?_, fun q type i hq => ?_,
    fun q i hq => ?_, fun e' hv hne => ?_⟩
  · rw [hpcs] at hq
    split_ifs at hq with hqp
    · cases hq
    · have hf := h.frees q e' t' hq
      rw [hrefs, if_neg (honly q e' t' hqp (Pc.puts_of_frees hq) hf.1), (hentry e').2.1,
        (hentry e').2.2]
      exact hf
  · rw [hlock] at hl
    rw [(hentry e').2.1]
    refine (h.valid e' q t' hl).imp_right fun hq => ?_
    rw [hpcs, if_neg, hq]
    rintro rfl
    rw [hpc] at hq
    cases hq
  · rw [(hentry e').2.1] at hv
    rw [(hentry e').2.2, hdin]
    refine h.copy e' (hsub e' hne) hv fun q hq => hclean q ?_
    rw [hpcs, if_neg, hq]
    rintro rfl
    rw [hpc] at hq
    cases hq
  · rw [(hentry e').2.2, hdin]
    exact h.keeps q e' stage (hof q _ hq nofun).2
  · exact h.ialloc q type i (hof q _ hq nofun).2
  · obtain ⟨htype, hnlink, huniq⟩ := h.alloced q i (hof q _ hq nofun).2
    rw [hdisk]
    exact ⟨htype, hnlink, fun r hr => huniq r (hof r _ hr nofun).2⟩
  · rw [State.Vacant, (hentry e').1, hdisk] at hv
    have hv' : s.Vacant (s.entry e').inum := hv.imp_right fun ⟨q, hq⟩ => ⟨q, (hof q _ hq nofun).2⟩
    obtain ⟨q, t', hr, hq⟩ := h.vacant e' hv' (hsub e' hne)
    have hqp : q ≠ p := by
      rintro rfl
      rw [hpc] at hq
      cases hq
      rw [hrefs, if_pos rfl, hr, Finset.erase_singleton] at hne
      exact Finset.not_nonempty_empty hne
    have he := honly q e' t' hqp (Pc.puts_of_late hq) hr
    refine ⟨q, t', ?_, ?_⟩
    · rw [hrefs, if_neg he, hr]
    · rw [hpcs, if_neg hqp, hq]

/-! ## The steps -/

omit [DecidableEq τ] in
/-- `p` goes on at `pc`, with or without `itable.lock`. -/
theorem goto (h : Coherent s) {o : Option κ} (hpc₀ : s.pc p = pc₀)
    (ht : Table { s.goto p pc with holder := o })
    (htest : ∀ e t, pc₀ = .ilockTest e t → (s.entry e).valid = true) (hp : Plain s pc₀ pc) :
    Coherent { s.goto p pc with holder := o } := by
  refine h.quiet (hp.quiet hpc₀ rfl rfl rfl rfl fun e q t hl => ?_) ht
  rcases h.valid e q t hl with hv | hq
  · exact Or.inl hv
  · by_cases hqp : q = p
    · rw [hqp, hpc₀] at hq
      exact Or.inl (htest e t hq)
    · exact Or.inr ((Function.update_of_ne hqp ..).trans hq)

omit [DecidableEq τ] in
/-- `p` takes or drops the sleeplock of `e`. -/
theorem relock (h : Coherent s) {l : Option (κ × τ)} {o : Option κ} (hpc₀ : s.pc p = pc₀)
    (ht : Table { (s.setLock e l).goto p pc with holder := o })
    (htest : ∀ e t, pc₀ ≠ .ilockTest e t)
    (hl : ∀ q t, l = some (q, t) → (s.entry e).valid = true ∨ q = p ∧ pc = .ilockTest e t)
    (hp : Plain s pc₀ pc) : Coherent { (s.setLock e l).goto p pc with holder := o } := by
  refine h.quiet (hp.quiet hpc₀ rfl rfl rfl rfl fun e' q t hl' => ?_) ht
  have hlock : (s.setLock e l).lock e' = some (q, t) := hl'
  rw [State.lock_setLock] at hlock
  split_ifs at hlock with he
  · subst he
    refine (hl q t hlock).imp_right fun ⟨hqp, hpc⟩ => ?_
    rw [hqp, ← hpc]
    exact Function.update_self ..
  · refine (h.valid e' q t hlock).imp_right fun hq => ?_
    refine (Function.update_of_ne ?_ ..).trans hq
    rintro rfl
    exact htest e' t (hpc₀.symm.trans hq)

omit [DecidableEq τ] in
/-- `p`, who has locked `e` and whose copy is the one on the disk, changes it to `d`. -/
theorem dirty (h : Coherent s) {stage : Stage τ} {d : Dinode} (hpc₀ : s.pc p = pc₀)
    (hl : s.lock e = some (p, t))
    (ht : Table ((s.setEntry e { s.entry e with d := d }).goto p (.iupdate e stage)))
    (hclean : pc₀.dirties = none) (hlate : pc₀.late = none) (htest : ∀ e t, pc₀ ≠ .ilockTest e t)
    (hfrees : ∀ t', (Pc.iupdate e stage).frees = some (e, t') → s.refs e = {t'} ∧ d.nlink = 0)
    (htype : d.type = stage.type (s.entry e).d.type) :
    Coherent ((s.setEntry e { s.entry e with d := d }).goto p (.iupdate e stage)) := by
  have hv : (s.entry e).valid = true :=
    (h.valid e p t hl).resolve_right fun hq => htest e t (hpc₀.symm.trans hq)
  obtain ⟨hd, hne⟩ := h.copy_of_lock hl (by rw [hpc₀, hclean]) hv
  refine h.change (x := { s.entry e with d := d })
    { start := hpc₀
      goes := Function.update_self ..
      others := fun q hq => Function.update_of_ne hq ..
      disk := rfl
      refs := rfl
      ialloc := nofun
      alloced := nofun
      late := Or.inl hlate
      locked := ⟨t, hl⟩
      entry := rfl
      inum := rfl
      lock := fun _ _ => rfl
      frees := fun e' t' hf => ?_
      valid := fun _ => hv
      test := fun e' t' he => (htest e' t' he).elim
      dirties := fun e' he => by rw [hclean] at he; cases he
      copy := fun _ hn => (hn rfl).elim
      keeps := fun e' stage' he => ?_ } ht
  · have he : e' = e := by
      cases stage <;> cases hf <;> rfl
    subst he
    exact ⟨rfl, (hfrees t' hf).1, hv, (hfrees t' hf).2⟩
  · cases he
    exact ⟨rfl, hne, htype.trans (congrArg (fun d => stage.type d.type) hd)⟩

omit [DecidableEq τ] in
/-- `ilock` reads the dinode. -/
theorem ilockRead (h : Coherent s) (hpc : s.pc p = .ilockTest e t) (htype : (s.dinode e).type ≠ 0)
    (ht : Table ((s.setEntry e { s.entry e with valid := true, d := s.dinode e }).goto p .idle)) :
    Coherent ((s.setEntry e { s.entry e with valid := true, d := s.dinode e }).goto p .idle) :=
  h.change (x := { s.entry e with valid := true, d := s.dinode e })
    { start := hpc
      goes := Function.update_self ..
      others := fun q hq => Function.update_of_ne hq ..
      disk := rfl
      refs := rfl
      ialloc := nofun
      alloced := nofun
      late := Or.inl rfl
      locked := ⟨t, h.table.holds p e t (by rw [hpc]; rfl)⟩
      entry := rfl
      inum := rfl
      lock := fun _ _ => rfl
      frees := nofun
      valid := fun _ => rfl
      test := fun _ _ he => by cases he; rfl
      dirties := nofun
      copy := fun _ _ => ⟨rfl, htype⟩
      keeps := nofun } ht

omit [DecidableEq τ] in
/-- `iput` has freed the inode, and drops the sleeplock. -/
theorem iputValid (h : Coherent s) (hpc : s.pc p = .iputValid e t)
    (ht : Table (((s.setEntry e { s.entry e with valid := false }).setLock e none).goto p
      (.iputAgain e t))) :
    Coherent (((s.setEntry e { s.entry e with valid := false }).setLock e none).goto p
      (.iputAgain e t)) :=
  h.change (x := { s.entry e with valid := false })
    { start := hpc
      goes := Function.update_self ..
      others := fun q hq => Function.update_of_ne hq ..
      disk := rfl
      refs := rfl
      ialloc := nofun
      alloced := nofun
      late := Or.inr rfl
      locked := ⟨t, h.table.holds p e t (by rw [hpc]; rfl)⟩
      entry := rfl
      inum := rfl
      lock := fun e' he => Function.update_of_ne he ..
      frees := nofun
      valid := fun hn => (hn (Function.update_self ..)).elim
      test := nofun
      dirties := fun _ he => by cases he; rfl
      copy := nofun
      keeps := nofun } ht

/-- `iget` finds an entry that nobody frees, if the inode is not vacant or has just been allocated
by `p`. -/
theorem iget (h : Coherent s) {pc₀ : Pc τ} {inum : ℕ} (hpc : s.pc p = pc₀)
    (hpc₀ : pc₀ = .idle ∨ ∃ inum, pc₀ = .ialloced inum) (he : s.iget inum = some e)
    (hfrees : ∀ q t', (s.refs e).Nonempty → (s.entry e).inum = inum →
      (s.pc q).frees ≠ some (e, t'))
    (hvacant : (s.disk inum).type ≠ 0 ∧ ∀ q, q ≠ p → s.pc q ≠ .ialloced inum)
    (ht : Table (((s.setEntry e ((s.entry e).get inum)).point e t).goto p .idle)) :
    Coherent (((s.setEntry e ((s.entry e).get inum)).point e t).goto p .idle) := by
  rcases h.table.of_iget he with ⟨hne, hi⟩ | ⟨hempty, -⟩
  · have hx : (s.entry e).get inum = { s.entry e with ref := (s.entry e).ref + 1 } :=
      if_neg (h.table.ref_pos_iff.2 hne).ne'
    rw [hx] at ht ⊢
    refine h.point hpc hpc₀ (fun _ => ⟨rfl, rfl, rfl⟩) (fun h0 => ?_)
      (fun q t' => hfrees q t' hne hi) (hi ▸ hvacant) ht
    rw [h0] at hne
    exact (Finset.not_nonempty_empty hne).elim
  · have hx : (s.entry e).get inum =
        { inum := inum, ref := 1, valid := false, d := (s.entry e).d } :=
      if_pos (h.table.ref_eq_zero_iff.2 hempty)
    rw [hx] at ht ⊢
    refine h.point hpc hpc₀ (fun hne => ?_) (fun _ => rfl) (fun q t' hq => ?_) hvacant ht
    · rw [hempty] at hne
      exact (Finset.not_nonempty_empty hne).elim
    · have hr := (h.frees q e t' hq).1
      rw [hempty] at hr
      exact (Finset.singleton_ne_empty t' hr.symm).elim

/-- **Every step keeps the copies coherent.** -/
theorem step {ninodes : ℕ} {x : Event} (h : Coherent s) (st : Step ninodes s x s') :
    Coherent s' := by
  have ht := h.table.step st
  cases st with
  | @iget p inum e t hpc free named he htf =>
    refine h.iget hpc (Or.inl rfl) he (fun q t' hne hi hq => ?_) ⟨fun h0 => ?_, fun q _ hq => ?_⟩ ht
    · obtain ⟨-, hv, h0⟩ := h.frees q e t' hq
      exact named.2 e (h.table.ref_pos_iff.2 hne) hi hv h0
    · exact named.1 (h.nolink inum h0)
    · exact named.1 (h.alloced q inum hq).2.1
  | @idup p e t t' hpc free hm kept htf =>
    have hne : (s.refs e).Nonempty := ⟨t, hm⟩
    have honly : ∀ q t'', (s.pc q).puts = some (e, t'') → s.refs e ≠ {t''} := by
      intro q t'' hq hr
      rw [hr, Finset.mem_singleton] at hm
      exact kept q e (hm ▸ hq)
    have hnv : ¬s.Vacant (s.entry e).inum := fun hv => by
      obtain ⟨q, t'', hr, hq⟩ := h.vacant e hv hne
      exact honly q t'' (Pc.puts_of_late hq) hr
    refine h.point hpc (Or.inl rfl) (fun _ => ⟨rfl, rfl, rfl⟩) (fun h0 => ?_) (fun q t'' hq => ?_)
      ⟨fun h0 => hnv (Or.inl h0), fun q _ hq => hnv (Or.inr ⟨q, hq⟩)⟩ ht
    · rw [h0] at hne
      exact (Finset.not_nonempty_empty hne).elim
    · exact honly q t'' (Pc.puts_of_frees hq) (h.frees q e t'' hq).1
  | ilock hpc _ _ | iput hpc _ _ | iputAcquire hpc _ | iputMore hpc _ | iallocFail hpc _ =>
    exact h.goto hpc ht nofun {}
  | acquiresleep hpc free =>
    refine h.relock hpc ht nofun (fun q t' ho => ?_) {}
    cases ho
    exact Or.inr ⟨rfl, rfl⟩
  | ilockValid hpc hv =>
    refine h.goto hpc ht (fun e t he => ?_) {}
    cases he
    exact hv
  | ilockRead hpc hv htype => exact h.ilockRead hpc htype ht
  | iunlock hpc hl => exact h.relock hpc ht nofun nofun {}
  | update hpc hl d htype => exact h.dirty hpc hl ht rfl rfl nofun nofun htype
  | iupdate hpc => exact h.iupdate hpc ht
  | @iputLast p e t hpc hlast =>
    refine h.goto hpc ht nofun { frees := fun e' t' he => ?_ }
    cases he
    refine ⟨?_, hlast.2⟩
    have hm := h.table.uses p e t (by rw [hpc]; rfl)
    rw [h.table.ref, Finset.card_eq_one] at hlast
    obtain ⟨t', hr⟩ := hlast.1
    rw [hr, Finset.mem_singleton] at hm
    rw [hr, hm]
  | @iputLock p e t hpc free =>
    have hf := h.frees p e t (by rw [hpc]; rfl)
    refine h.relock hpc ht nofun (fun _ _ _ => Or.inl hf.2.1) { frees := fun e' t' he => ?_ }
    cases he
    exact hf
  | @iputTrunc p e t hpc | @iputType p e t hpc =>
    have hl := h.table.holds p e t (by rw [hpc]; rfl)
    obtain ⟨hr, -, hn⟩ := h.frees p e t (by rw [hpc]; rfl)
    refine h.dirty hpc hl ht rfl rfl nofun (fun t' hf => ?_) rfl
    cases hf
    exact ⟨hr, hn⟩
  | iputValid hpc => exact h.iputValid hpc ht
  | iputAgain hpc _ => exact h.goto hpc ht nofun { late := Or.inr rfl }
  | iputDrop hpc => exact h.drop hpc ht
  | @ialloc p type hpc htype =>
    refine h.goto hpc ht nofun { ialloc := fun type' inum he => ?_ }
    cases he
    exact htype
  | @iallocNext p type inum hpc hlt hne =>
    refine h.goto hpc ht nofun { ialloc := fun type' inum' he => ?_ }
    cases he
    exact h.ialloc p type inum hpc
  | iallocTake hpc _ h0 => exact h.take hpc h0 ht
  | @iallocGet p inum e t hpc free he htf =>
    obtain ⟨htype, -, huniq⟩ := h.alloced p inum hpc
    refine h.iget hpc (Or.inr ⟨inum, rfl⟩) he (fun q t' hne hi hq => ?_)
      ⟨htype, fun q hqp hq => hqp (huniq q hq)⟩ ht
    obtain ⟨r, t'', hr, hlate⟩ := h.vacant e (Or.inr ⟨p, hi ▸ hpc⟩) hne
    have hr' := (h.frees q e t' hq).1
    rw [hr, Finset.singleton_inj] at hr'
    subst hr'
    have hrq := h.table.puts q r e e t'' (Pc.puts_of_frees hq)
      (Pc.uses_of_puts (Pc.puts_of_late hlate))
    rw [hrq, Pc.late_eq_none_of_frees hq] at hlate
    cases hlate

end Coherent

end Xv6.Inode
