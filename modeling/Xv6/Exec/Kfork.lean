import Xv6.Exec.Fork
import Xv6.Foundations.Transition

/-!
# kfork is all or nothing

`kfork` either makes a child, or leaves everything as it was (`kfork_all_or_nothing`); which of
the two is decided by the allocations (`failsAt`).

That a child starts with no open files of its own rests on what a slot holds when it is not in
use: `freeproc` does not clear `ofile`, so this is an invariant of the life of a slot (`system`).
-/

namespace Xv6.Fork

open Exec (PGSIZE TRAMPOLINE TRAPFRAME NOFILE)

variable {N : ℕ} {τ : Type*}

/-! ## kfork -/

/-- The child that `kfork` makes once the user memory has been copied. -/
theorem startChild_eq {p np : Fin N} (hne : np ≠ p) {s : State N τ}
    (hzero : (s.proc np).ofile = fun _ => 0)
    (hopen : ∀ i, (s.proc p).ofile i ≠ 0 → 1 ≤ s.fileRef ((s.proc p).ofile i)) :
    ∃ fileRef, startChild p np s = some ((s.proc np).pid,
        { proc := Function.update s.proc np { s.proc np with
            sz := (s.proc p).sz
            ofile := (s.proc p).ofile
            cwd := (s.proc p).cwd
            name := safestrcpy (s.proc np).name (s.proc p).name
            parent := some p
            state := .runnable }
          pages := s.pages
          trapframes := Function.update s.trapframes (s.proc np).trapframe
            (Function.update (s.trapframes (s.proc p).trapframe) Exec.Trapframe.a0 0)
          fileRef := fileRef
          inodeRef := Function.update s.inodeRef (s.proc p).cwd (s.inodeRef (s.proc p).cwd + 1)
          nextpid := s.nextpid }) ∧
      ∀ f, fileRef f = s.fileRef f +
        (List.finRange NOFILE).countP fun i => (s.proc p).ofile i = f ∧ f ≠ 0 := by
  unfold startChild
  simp only [State.modify, Function.update_self, Function.update_of_ne hne.symm]
  generalize hs₁ : (⟨Function.update s.proc np _, s.pages, Function.update s.trapframes _ _,
    s.fileRef, s.inodeRef, s.nextpid⟩ : State N τ) = s₁
  have hp : s₁.proc p = s.proc p := hs₁ ▸ Function.update_of_ne hne.symm _ _
  have hnp : s₁.proc np = { s.proc np with sz := (s.proc p).sz } :=
    hs₁ ▸ Function.update_self _ _ _
  obtain ⟨fileRef, ofile, hrun, hcount, hofile⟩ :=
    dupFiles p np hne (List.finRange NOFILE) s₁ (by rw [hp, ← hs₁]; exact hopen)
  have hofile' : ofile = (s.proc p).ofile := by
    funext i
    rw [hofile i, hp, hnp]
    simp only [List.mem_finRange, true_and, hzero]
    grind
  rw [hp] at hcount
  refine ⟨fileRef, ?_, by simpa only [← hs₁] using hcount⟩
  rw [hrun, Option.map_some]
  simp only [idup, State.modify, Function.update_self, Function.update_idem,
    Function.update_of_ne hne.symm, hofile', ← hs₁]

/-- How deep `kfork` gets before an allocation fails. -/
inductive Depth
  | slot
  | trapframe
  | pagetable
  | copy
  deriving DecidableEq

/-- Where an allocation of `kfork` fails, if one does. -/
def failsAt (vm : Vm τ) (trampoline : ℕ) (s : State N τ) (p : Fin N) : Option Depth :=
  if findUnused s = none then some .slot
  else
    match s.pages.free with
    | [] => some .trapframe
    | pa :: free =>
      match procPagetable vm trampoline ⟨s.pages.vm, free⟩ pa with
      | (pagetable, pages) =>
        if pagetable = 0 then some .pagetable
        else if (vm.uvmcopy pages (s.proc p).pagetable pagetable (s.proc p).sz).1 < 0 then
          some .copy
        else none

section

variable (vm : Vm τ)

/-- `p` is running; what its slot refers to exists, and the free pages are free. -/
structure Caller (s : State N τ) (p : Fin N) : Prop where
  running : (s.proc p).state = .running
  ofile : ∀ i, (s.proc p).ofile i ≠ 0 → 1 ≤ s.fileRef ((s.proc p).ofile i)
  pagetable : ∃ sp, vm.space s.pages.vm (s.proc p).pagetable = some sp
  trapframe : (s.proc p).trapframe ∉ s.pages.free
  pages : s.pages.Ok vm

/-- `kfork` has returned `r` and left all as it was; the slot that it has tried is cleared. -/
structure Failed (s s' : State N τ) (r : ℤ) : Prop where
  result : r = -1
  pages : SamePages vm s.pages s'.pages
  fileRef : s'.fileRef = s.fileRef
  inodeRef : s'.inodeRef = s.inodeRef
  trapframes : ∀ pa ∉ s.pages.free, s'.trapframes pa = s.trapframes pa
  others : ∀ q, findUnused s ≠ some q → s'.proc q = s.proc q
  tried : ∀ q, findUnused s = some q → (s'.proc q).Cleared

/-- `kfork` has returned `r` and made the slot `np` a child of `p`. -/
structure Succeeded (s s' : State N τ) (p np : Fin N) (r : ℤ) : Prop where
  tried : findUnused s = some np
  result : r = (s'.proc np).pid
  pid : (s'.proc np).pid = s.nextpid
  state : (s'.proc np).state = .runnable
  parent : (s'.proc np).parent = some p
  ofile : (s'.proc np).ofile = (s.proc p).ofile
  cwd : (s'.proc np).cwd = (s.proc p).cwd
  sz : (s'.proc np).sz = (s.proc p).sz
  registers : s'.trapframes (s'.proc np).trapframe =
    Function.update (s.trapframes (s.proc p).trapframe) Exec.Trapframe.a0 0
  fileRef : ∀ f, s'.fileRef f =
    s.fileRef f + (List.finRange NOFILE).countP fun i => (s'.proc np).ofile i = f ∧ f ≠ 0
  inodeRef : s'.inodeRef =
    Function.update s.inodeRef (s.proc p).cwd (s.inodeRef (s.proc p).cwd + 1)
  memory : ∀ sp, vm.space s.pages.vm (s.proc p).pagetable = some sp →
    ∃ sp', vm.space s'.pages.vm (s'.proc np).pagetable = some sp' ∧
      sp'.user.map Prod.fst = (sp.user.map Prod.fst).filter (· < (s.proc p).sz)
  trapframes : ∀ pa ∉ s.pages.free, s'.trapframes pa = s.trapframes pa
  others : ∀ q ≠ np, s'.proc q = s.proc q

variable {vm} {s s' : State N τ} {p np : Fin N}

theorem GivenUp.failed (h : GivenUp vm s s' np) (hnp : findUnused s = some np) :
    Failed vm s s' (-1) where
  result := rfl
  pages := h.pages
  fileRef := h.fileRef
  inodeRef := h.inodeRef
  trapframes := h.trapframes
  others q hq := h.others q fun heq => hq (heq ▸ hnp)
  tried _ hq := Option.some.inj (hnp.symm.trans hq) ▸ h.cleared

/-- `kfork` is all or nothing in a state whose unused slots are cleared. -/
theorem kfork_spec (hvm : vm.Documented) (trampoline forkret : ℕ) (hp : Caller vm s p)
    (hclean : ∀ p, (s.proc p).state = .unused → (s.proc p).Cleared) :
    ∃ r s', kfork vm trampoline forkret s p = some (r, s') ∧
      if failsAt vm trampoline s p = none then ∃ np, Succeeded vm s s' p np r
      else Failed vm s s' r := by
  obtain ⟨r₁, s₁, hall⟩ : ∃ r s₁, allocproc vm trampoline forkret s = (r, s₁) := ⟨_, _, rfl⟩
  have hspec := allocproc_allocated hvm hp.pages hclean hall
  unfold kfork
  rw [hall]
  cases hspec with
  | slot hnone =>
    have hat : failsAt vm trampoline s p = some .slot := by simp [failsAt, hnone]
    refine ⟨-1, s, rfl, ?_⟩
    rw [hat, if_neg (by simp)]
    exact ⟨rfl, ⟨.rfl, rfl⟩, rfl, rfl, fun _ _ => rfl, fun _ _ => rfl, by simp [hnone]⟩
  | trapframe hnp hfree up =>
    have hat : failsAt vm trampoline s p = some .trapframe := by simp [failsAt, hnp, hfree]
    refine ⟨-1, s₁, rfl, ?_⟩
    rw [hat, if_neg (by simp)]
    exact up.failed hnp
  | pagetable hnp hfree hpagetable up =>
    have hat : failsAt vm trampoline s p = some .pagetable := by
      simp [failsAt, hnp, hfree, hpagetable]
    refine ⟨-1, s₁, rfl, ?_⟩
    rw [hat, if_neg (by simp)]
    exact up.failed hnp
  | @found np _ pa free tables hnp hfree hpagetable ne created hpa hpid built =>
    have hunused : (s.proc np).state = .unused := by simpa using List.find?_some hnp
    have hnep : np ≠ p := by
      rintro rfl
      rw [hp.running] at hunused
      cases hunused
    have hself : s₁.proc p = s.proc p := built.others p hnep.symm
    obtain ⟨spo, hspo⟩ := hp.pagetable
    have hmem : pa ∈ s.pages.free := hfree ▸ List.mem_cons_self
    have hroot : (s₁.proc np).pagetable ∈ s.pages.free :=
      hfree ▸ List.mem_cons_of_mem _ created.mem
    have hold : (s.proc p).pagetable ≠ (s₁.proc np).pagetable := fun heq => by
      rw [heq, hp.pages.space _ hroot] at hspo
      cases hspo
    have hspo₁ : vm.space s₁.pages.vm (s.proc p).pagetable = some spo := by
      rw [created.space, Function.update_of_ne hold]
      exact hspo
    have hcopy := hvm.uvmcopy s₁.pages _ _ (s.proc p).sz _ _ hspo₁ created.space_self hold rfl
    have hat : failsAt vm trampoline s p = if (vm.uvmcopy s₁.pages (s.proc p).pagetable
        (s₁.proc np).pagetable (s.proc p).sz).1 < 0 then some .copy else none := by
      rw [failsAt, if_neg (by simp [hnp]), hfree]
      simp only [hpagetable, if_neg ne]
    rw [hat]
    dsimp only
    rw [hself]
    generalize vm.uvmcopy s₁.pages (s.proc p).pagetable (s₁.proc np).pagetable (s.proc p).sz = c
      at hcopy ⊢
    obtain ⟨l, user, hr, huser, hg⟩ | ⟨l, hr, hg⟩ := hcopy
    · rw [if_neg (by omega), if_neg (by omega)]
      obtain ⟨fileRef, hrun, hcount⟩ := startChild_eq hnep
        (s := { s₁ with pages := c.2 }) built.ofile (by
          dsimp only
          rw [hself, built.fileRef]
          exact hp.ofile)
      dsimp only at hrun hcount
      rw [hself] at hrun hcount
      refine ⟨_, _, hrun, ?_⟩
      rw [if_pos rfl]
      refine ⟨np, ?_⟩
      constructor
      case tried => exact hnp
      case others =>
        intro q hq
        exact (Function.update_of_ne hq _ _).trans (built.others q hq)
      case trapframes =>
        intro pa' hpa'
        have hne : pa' ≠ (s₁.proc np).trapframe := fun heq => hpa' (heq ▸ hpa ▸ hmem)
        exact (Function.update_of_ne hne _ _).trans (built.trapframes pa' hpa')
      case registers =>
        simp only [Function.update_self]
        rw [built.trapframes _ hp.trapframe]
      case inodeRef => simp only [built.inodeRef]
      case fileRef =>
        intro f
        simp only [Function.update_self]
        rw [hcount f, built.fileRef]
      case memory =>
        intro sp hsp
        obtain rfl : spo = sp := Option.some.inj (hspo.symm.trans hsp)
        simp only [Function.update_self, hg.2]
        exact ⟨_, rfl, huser⟩
      all_goals simp only [Function.update_self, hpid]
    · rw [if_pos hr, if_pos hr]
      refine ⟨-1, _, rfl, ?_⟩
      rw [if_neg (by simp)]
      refine GivenUp.failed (HalfBuilt.freeproc ⟨?_, built.ofile, built.sz, ?_⟩ hvm hp.pages) hnp
      · exact ⟨built.others, built.trapframes, built.fileRef, built.inodeRef⟩
      · rw [hpa]
        have hspace : vm.space (⟨s.pages.vm, free⟩ : Pages τ).vm = vm.space s.pages.vm := rfl
        refine .pagetable hmem ?_ hspace ne (created.gives hg (by simp [Space.pages]))
        rw [hfree]

end

/-! ## The life of a slot -/

/-- What the rest of the kernel does to a slot: one that is in use stays in use, and a free one can
only be marked by `kkill(0)`. -/
def Proc.Evolves (q q' : Proc N) : Prop :=
  match q.state with
  | .unused => q' = { q with killed := q'.killed }
  | .zombie => q'.state = .zombie ∧ q'.ofile = q.ofile
  | _ => q'.state ≠ .unused ∧ q'.state ≠ .zombie

/-- `reparent`, for one slot. -/
def Proc.reparent (initproc p : Fin N) (q : Proc N) : Proc N :=
  if q.parent = some p then { q with parent := some initproc } else q

inductive Event (N : ℕ)
  | userinit
  | kfork (p : Fin N) (r : ℤ)
  | kexit (p : Fin N)
  | kwait (q : Fin N)
  | other

section

variable (vm : Vm τ) (trampoline forkret : ℕ)

/-- The steps of the kernel, as far as the process table is concerned. -/
inductive Step : State N τ → Event N → State N τ → Prop
  | userinit {s s' : State N τ} {p : Fin N} (hpages : s.pages.Ok vm) (cwd : ℕ)
      (h : allocproc vm trampoline forkret s = (some p, s')) :
      Step s .userinit (s'.modify p fun q => { q with cwd := cwd, state := .runnable })
  | kfork {s s' : State N τ} {p : Fin N} {r : ℤ} (hp : Caller vm s p)
      (h : kfork vm trampoline forkret s p = some (r, s')) : Step s (.kfork p r) s'
  /-- `kexit` has closed the files and the directory of `p`, which becomes a zombie. -/
  | kexit {s s' : State N τ} {p initproc : Fin N} {status : ℤ} (hp : (s.proc p).state = .running)
      (hself : s'.proc p = { (s.proc p).reparent initproc p with
        ofile := fun _ => 0, cwd := 0, xstate := status, state := .zombie })
      (hothers : ∀ q ≠ p, s'.proc q = (s.proc q).reparent initproc p) : Step s (.kexit p) s'
  | kwait {s : State N τ} {q : Fin N} (hq : (s.proc q).state = .zombie) :
      Step s (.kwait q) (freeproc vm s q)
  | other {s s' : State N τ} (h : ∀ q, (s.proc q).Evolves (s'.proc q)) : Step s .other s'

/-- The kernel from `procinit` on. -/
def system : LTS (State N τ) (Event N) where
  init s := ∀ p, (s.proc p).Cleared
  step := Step vm trampoline forkret

/-- A slot that is not in use is cleared, and a zombie has closed its files. -/
def Proc.Clean (q : Proc N) : Prop :=
  (q.state = .unused → q.Cleared) ∧ (q.state = .zombie → q.ofile = fun _ => 0)

theorem Proc.Clean.reparent {q : Proc N} (h : q.Clean) {initproc p : Fin N} :
    (q.reparent initproc p).Clean := by
  unfold Proc.reparent
  split
  · next hparent =>
    refine ⟨fun hunused => ?_, h.2⟩
    rw [(h.1 hunused).parent] at hparent
    cases hparent
  · exact h

theorem Proc.Clean.evolves {q q' : Proc N} (h : q.Clean) (he : q.Evolves q') : q'.Clean := by
  unfold Proc.Evolves at he
  split at he
  · next hunused =>
    have hc := h.1 hunused
    rw [he]
    exact ⟨fun _ => ⟨hc.state, hc.trapframe, hc.pagetable, hc.sz, hc.pid, hc.parent, hc.ofile⟩,
      fun _ => hc.ofile⟩
  · next hzombie =>
    refine ⟨fun hunused => ?_, fun _ => he.2.trans (h.2 hzombie)⟩
    rw [he.1] at hunused
    cases hunused
  · exact ⟨fun hunused => absurd hunused he.1, fun hzombie => absurd hzombie he.2⟩

/-- All slots are clean. -/
def Clean (s : State N τ) : Prop := ∀ p, (s.proc p).Clean

variable {vm trampoline forkret} {s s' : State N τ}

theorem Clean.of_others (hs : Clean s) (np : Fin N) (hothers : ∀ q ≠ np, s'.proc q = s.proc q)
    (hself : (s'.proc np).Cleared ∨ (s'.proc np).state ≠ .unused ∧ (s'.proc np).state ≠ .zombie) :
    Clean s' := by
  intro q
  by_cases hq : q = np
  · subst hq
    obtain hself | ⟨hunused, hzombie⟩ := hself
    · exact ⟨fun _ => hself, fun _ => hself.ofile⟩
    · exact ⟨fun h => absurd h hunused, fun h => absurd h hzombie⟩
  · rw [hothers q hq]
    exact hs q

theorem Clean.step (hvm : vm.Documented) (hs : Clean s) {e : Event N}
    (h : Step vm trampoline forkret s e s') : Clean s' := by
  have hclean : ∀ p, (s.proc p).state = .unused → (s.proc p).Cleared := fun p => (hs p).1
  cases h with
  | @userinit s₁ p hpages cwd h =>
    cases allocproc_allocated hvm hpages hclean h with
    | found _ _ _ _ _ _ _ built =>
      refine hs.of_others p (fun q hq => ?_) (.inr ?_)
      · exact (State.modify_others _ _ _ _ hq).trans (built.others q hq)
      · simp
  | @kfork _ p r hp h =>
    obtain ⟨r', s'', hrun, hspec⟩ :=
      kfork_spec hvm trampoline forkret hp hclean
    rw [hrun] at h
    cases h
    split at hspec
    · obtain ⟨np, hnp⟩ := hspec
      exact hs.of_others np hnp.others (.inr (by simp [hnp.state]))
    · cases hfind : findUnused s with
      | none =>
        have hproc : ∀ q, s'.proc q = s.proc q := fun q => hspec.others q (by simp [hfind])
        exact fun q => hproc q ▸ hs q
      | some np =>
        refine hs.of_others np (fun q hq => hspec.others q ?_) (.inl (hspec.tried np hfind))
        rw [hfind]
        exact fun heq => hq (Option.some.inj heq).symm
  | @kexit _ p initproc status hp hself hothers =>
    intro q
    by_cases hq : q = p
    · subst hq
      rw [hself]
      exact ⟨fun h => (nomatch h), fun _ => rfl⟩
    · rw [hothers q hq]
      exact (hs q).reparent
  | @kwait q hq =>
    have hproc : (freeproc vm s q).proc = Function.update s.proc q (s.proc q).clear := by
      rw [freeproc_eq]
    refine hs.of_others q (fun q' hq' => ?_) (.inl ?_)
    · rw [hproc, Function.update_of_ne hq']
    · rw [hproc, Function.update_self]
      exact ⟨rfl, rfl, rfl, rfl, rfl, rfl, (hs q).2 hq⟩
  | other h => exact fun q => (hs q).evolves (h q)

theorem clean_of_reachable (hvm : vm.Documented)
    (hs : (system vm trampoline forkret).Reachable s) : Clean s := by
  refine hs.invariant (I := Clean) (fun s hinit => ?_) fun _ _ _ _ hclean h => hclean.step hvm h
  have hcleared : ∀ p, (s.proc p).Cleared := hinit
  exact fun p => ⟨fun _ => hcleared p, fun _ => (hcleared p).ofile⟩

/-- **`kfork` is all or nothing**: if an allocation fails, it returns -1 and leaves everything as
it was, with the slot that it has tried cleared; otherwise it makes a child. -/
theorem kfork_all_or_nothing (hvm : vm.Documented)
    (hs : (system vm trampoline forkret).Reachable s) {p : Fin N} (hp : Caller vm s p) :
    ∃ r s', kfork vm trampoline forkret s p = some (r, s') ∧
      if failsAt vm trampoline s p = none then ∃ np, Succeeded vm s s' p np r
      else Failed vm s s' r :=
  kfork_spec hvm _ _ hp fun p => (clean_of_reachable hvm hs p).1

end

/-! ## A table of page tables -/

/-- A page table, with the pages of levels 1 and 0 that are in it: each by its level and the part
of the virtual address that selects it. -/
structure Table where
  space : Space
  walked : List (ℕ × ℕ)

/-- The pages that `walk` allocates on its way to `va`. -/
def missing (walked : List (ℕ × ℕ)) (va : ℕ) : List (ℕ × ℕ) :=
  [(1, va / 2 ^ 30), (0, va / 2 ^ 21)].filter (· ∉ walked)

/-- The functions of `vm.c` on a table of page tables. -/
def tableVm : Vm (ℕ → Option Table) where
  space vm pagetable := (vm pagetable).map Table.space
  uvmcreate m :=
    match m.free with
    | [] => (0, m)
    | pa :: free =>
      if pa = 0 then (0, m) else (pa, ⟨Function.update m.vm pa (some ⟨⟨[pa], [], ∅⟩, []⟩), free⟩)
  mappages m pagetable va _ _ _ :=
    match m.vm pagetable with
    | none => (-1, m)
    | some t =>
      let pages := missing t.walked va
      let sp := { t.space with tables := m.free.take pages.length ++ t.space.tables }
      let walked := pages.take m.free.length ++ t.walked
      let free := m.free.drop pages.length
      if pages.length ≤ m.free.length then
        let sp := { sp with upper := insert va sp.upper }
        (0, ⟨Function.update m.vm pagetable (some ⟨sp, walked⟩), free⟩)
      else (-1, ⟨Function.update m.vm pagetable (some ⟨sp, walked⟩), free⟩)
  uvmunmap m pagetable va _ _ :=
    match m.vm pagetable with
    | none => m
    | some t =>
      let sp := { t.space with upper := t.space.upper.erase va }
      ⟨Function.update m.vm pagetable (some ⟨sp, t.walked⟩), m.free⟩
  uvmfree m pagetable _ :=
    match m.vm pagetable with
    | none => m
    | some t => ⟨Function.update m.vm pagetable none, t.space.pages ++ m.free⟩
  uvmcopy m old new sz :=
    match m.vm old, m.vm new with
    | some o, some t =>
      let vas := (o.space.user.map Prod.fst).filter (· < sz)
      let walked := vas.foldl (fun walked va => missing walked va ++ walked) t.walked
      let k := walked.length - t.walked.length
      if vas.length + k ≤ m.free.length then
        let tables := (m.free.drop vas.length).take k
        (0, ⟨Function.update m.vm new (some ⟨{ t.space with
          tables := tables ++ t.space.tables
          user := vas.zip (m.free.take vas.length) }, walked⟩), (m.free.drop vas.length).drop k⟩)
      else (-1, m)
    | _, _ => (-1, m)

theorem tableVm_update {vm : ℕ → Option Table} {pagetable : ℕ} {t : Option Table} :
    tableVm.space (Function.update vm pagetable t) =
      Function.update (tableVm.space vm) pagetable (t.map Table.space) := by
  funext pa
  simp only [tableVm, Function.update_apply]
  split <;> rfl

theorem tableVm_documented : tableVm.Documented where
  uvmcreate m := by
    cases hfree : m.free with
    | nil =>
      have hrun : tableVm.uvmcreate m = (0, m) := by simp only [tableVm, hfree]
      rw [hrun]
      exact .inl ⟨rfl, .of_eq hfree.symm, rfl⟩
    | cons pa free =>
      by_cases h0 : pa = 0
      · have hrun : tableVm.uvmcreate m = (0, m) := by simp only [tableVm, hfree, if_pos h0]
        rw [hrun]
        exact .inl ⟨rfl, .of_eq hfree.symm, rfl⟩
      · have hrun : tableVm.uvmcreate m =
            (pa, ⟨Function.update m.vm pa (some ⟨⟨[pa], [], ∅⟩, []⟩), free⟩) := by
          simp only [tableVm, hfree, if_neg h0]
        rw [hrun]
        exact .inr ⟨h0, .of_eq hfree, tableVm_update⟩
  mappages m pagetable va size pa perm sp hsp _ := by
    obtain ⟨t, ht, rfl⟩ := Option.map_eq_some_iff.mp hsp
    refine ⟨m.free.take (missing t.walked va).length, ?_⟩
    have hfree : m.free.Perm (m.free.take (missing t.walked va).length ++
        m.free.drop (missing t.walked va).length) := .of_eq (List.take_append_drop _ _).symm
    by_cases hlen : (missing t.walked va).length ≤ m.free.length
    · left
      simp only [tableVm, ht, if_pos hlen]
      exact ⟨trivial, hfree, tableVm_update⟩
    · right
      simp only [tableVm, ht, if_neg hlen]
      exact ⟨by decide, hfree, tableVm_update⟩
  uvmunmap m pagetable va sp hsp _ := by
    obtain ⟨t, ht, rfl⟩ := Option.map_eq_some_iff.mp hsp
    simp only [tableVm, ht]
    exact ⟨.rfl, tableVm_update⟩
  uvmfree m pagetable sz sp hsp _ _ := by
    obtain ⟨t, ht, rfl⟩ := Option.map_eq_some_iff.mp hsp
    simp only [tableVm, ht]
    exact ⟨.rfl, tableVm_update⟩
  uvmcopy m old new sz spo spn hspo hspn _ _ := by
    obtain ⟨o, ho, rfl⟩ := Option.map_eq_some_iff.mp hspo
    obtain ⟨t, ht, rfl⟩ := Option.map_eq_some_iff.mp hspn
    simp only [tableVm, ho, ht]
    generalize (o.space.user.map Prod.fst).filter (· < sz) = vas
    generalize List.foldl _ _ vas = walked
    generalize walked.length - t.walked.length = k
    split
    · next hlen =>
      have hzip : vas.length = (m.free.take vas.length).length := by
        rw [List.length_take]
        omega
      refine .inl ⟨_, _, rfl, List.map_fst_zip hzip.le, ⟨?_, tableVm_update⟩⟩
      rw [List.map_snd_zip hzip.ge]
      calc
        m.free.Perm (m.free.take vas.length ++ m.free.drop vas.length) :=
          .of_eq (List.take_append_drop _ _).symm
        _ |>.Perm (m.free.take vas.length ++
            ((m.free.drop vas.length).take k ++ (m.free.drop vas.length).drop k)) := by
          rw [List.take_append_drop k]
        _ |>.Perm (((m.free.drop vas.length).take k ++ m.free.take vas.length) ++
            (m.free.drop vas.length).drop k) := by
          rw [← List.append_assoc]
          exact List.perm_append_comm.append_right _
    · refine .inr ⟨[], by simp, .rfl, ?_⟩
      funext pa
      by_cases hpa : pa = new
      · subst hpa
        simp [ht]
      · rw [Function.update_of_ne hpa]

/-! ## A fork -/

/-- A slot after `procinit`. -/
def noProc : Proc 2 where
  state := .unused
  chan := 0
  killed := 0
  xstate := 0
  pid := 0
  parent := none
  queueLevel := 0
  qTicks := 0
  waitTime := 0
  nRun := 0
  totalTicks := 0
  kstack := 0
  sz := 0
  pagetable := 0
  trapframe := 0
  context := ⟨0, 0, fun _ => 0⟩
  ofile := fun _ => 0
  cwd := 0
  name := List.replicate 16 0

/-- Two slots and four free pages. -/
def procinit : State 2 (ℕ → Option Table) where
  proc _ := noProc
  pages := ⟨fun _ => none, [1, 2, 3, 4]⟩
  trapframes _ _ := 0
  fileRef _ := 0
  inodeRef _ := 0
  nextpid := 1

/-- The first process runs, with one page of memory and an open file. -/
def firstFork : State 2 (ℕ → Option Table) where
  proc := Function.update (fun _ => noProc) ⟨0, Nat.zero_lt_two⟩ { noProc with
    state := .running
    pid := 1
    sz := PGSIZE
    pagetable := 2
    trapframe := 1
    ofile := Function.update (fun _ => 0) ⟨0, by decide⟩ 7
    cwd := 8 }
  pages := ⟨Function.update (fun _ => none) 2 (some
    ⟨⟨[5, 6, 4, 3, 2], [(0, 9)], {TRAPFRAME, TRAMPOLINE}⟩,
      [(1, 0), (0, 0), (1, TRAMPOLINE / 2 ^ 30), (0, TRAMPOLINE / 2 ^ 21)]⟩),
    [10, 11, 12, 13, 14, 15, 16, 17]⟩
  trapframes _ _ := 0
  fileRef := Function.update (fun _ => 0) 7 1
  inodeRef := Function.update (fun _ => 0) 8 1
  nextpid := 2

theorem noProc_cleared : noProc.Cleared := ⟨rfl, rfl, rfl, rfl, rfl, rfl, rfl⟩

theorem firstFork_reachable : (system tableVm 0 0).Reachable firstFork := by
  have hinit : (system tableVm 0 0).Reachable procinit := ⟨[], .init fun _ => noProc_cleared⟩
  have hpages : procinit.pages.Ok tableVm := ⟨by decide, fun _ _ => rfl⟩
  obtain ⟨s', hs'⟩ : ∃ s', allocproc tableVm 0 0 procinit = (some 0, s') :=
    ⟨(allocproc tableVm 0 0 procinit).2, Prod.ext (by decide) rfl⟩
  have hothers : ∀ q ≠ 0, s'.proc q = noProc := by
    cases allocproc_allocated tableVm_documented hpages (fun _ _ => noProc_cleared) hs' with
    | found _ _ _ _ _ _ _ built => exact built.others
  refine (hinit.step (.userinit hpages 8 hs')).step (.other fun q => ?_)
  by_cases hq : q = 0
  · subst hq
    rw [State.modify_self]
    exact ⟨by decide, by decide⟩
  · have hne : q ≠ ⟨0, Nat.zero_lt_two⟩ := hq
    have hq' : firstFork.proc q = noProc := by simp only [firstFork, Function.update_of_ne hne]
    rw [State.modify_others _ _ _ _ hq, hothers q hq, hq']
    rfl

theorem firstFork_caller : Caller tableVm firstFork 0 where
  running := rfl
  ofile := by decide
  pagetable := ⟨_, rfl⟩
  trapframe := by decide
  pages := by
    refine ⟨by decide, fun pa hpa => ?_⟩
    have hne : pa ≠ 2 := by
      rintro rfl
      revert hpa
      decide
    simp only [tableVm, firstFork, Function.update_of_ne hne, Option.map_none]

theorem firstFork_child : ∃ r s', kfork tableVm 0 0 firstFork 0 = some (r, s') ∧
    ∃ np, Succeeded tableVm firstFork s' 0 np r := by
  obtain ⟨r, s', hrun, hspec⟩ :=
    kfork_all_or_nothing tableVm_documented firstFork_reachable firstFork_caller
  rw [if_pos (by decide)] at hspec
  exact ⟨r, s', hrun, hspec⟩

end Xv6.Fork
