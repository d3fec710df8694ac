import Xv6.Exec.Cleanup

/-!
# The arguments of sys_exec

`sys_exec` takes a page from `kalloc` for each argument string, calls `kexec`, and frees the pages.
`sysContract` extends the contract of `kexec` with the pages that the process has from `kalloc`:
only these can be freed. Whatever fails, `sys_exec` frees each page that it has taken once, and
`kexec` is called with at most `MAXARG - 1` strings of less than a page (`Argv`).
-/

namespace Xv6.Exec

open Program

/-- What a call of `sys_exec` needs, where the process has the pages `w.2` from `kalloc`. -/
def ExecCall.SysPre : ExecCall → Held × Finset ℕ → Prop
  | .copyin pt _ _, w | .copyinstr pt _ _, w => ∃ sp, w.1.spaces pt = some sp
  | .kalloc, _ => True
  | .kfree pa, w => pa ∈ w.2
  | o, w => o.Pre w.1

/-- What it returns and does. -/
def ExecCall.SysPost : (o : ExecCall) → Held × Finset ℕ → o.Result → Held × Finset ℕ → Prop
  | .copyin .., w, _, w' | .copyinstr .., w, _, w' => w' = w
  | .kalloc, w, (pa : ℕ), w' => (pa = 0 ∧ w' = w) ∨ (pa ≠ 0 ∧ pa ∉ w.2 ∧ w' = (w.1, insert pa w.2))
  | .kfree pa, w, _, w' => w' = (w.1, w.2.erase pa)
  | o, w, r, w' => o.Post w.1 r w'.1 ∧ w'.2 = w.2

def sysContract : Contract execCalls (Held × Finset ℕ) :=
  ⟨ExecCall.SysPre, ExecCall.SysPost, ExecCall.MayStop⟩

/-- `kexec` does not touch the pages of the arguments. -/
theorem sysContract_extends : sysContract.Extends execContract where
  pre {o v} x hpre := by
    cases o with
    | copyin | copyinstr | kalloc | kfree => exact hpre.elim
    | _ => exact hpre
  post {o v x r w} hpre hpost := by
    cases o with
    | copyin | copyinstr | kalloc | kfree => exact hpre.elim
    | _ => exact hpost

section

variable {v : Held} {x : Finset ℕ}

/-- The pages of `argv`, in the order in which they were taken; the process has `x` besides. -/
structure Taken (x : Finset ℕ) (pages : List ℕ) : Prop where
  nodup : pages.Nodup
  fresh : ∀ pa ∈ pages, pa ∉ x

theorem Taken.nil (x : Finset ℕ) : Taken x [] := ⟨.nil, List.forall_mem_nil _⟩

theorem Taken.take {pages : List ℕ} (h : Taken x pages) {pa : ℕ}
    (hpa : pa ∉ x ∪ pages.toFinset) : Taken x (pages ++ [pa]) := by
  rw [Finset.mem_union, List.mem_toFinset, not_or] at hpa
  refine ⟨h.nodup.append (List.nodup_singleton pa) ?_, fun q hq => ?_⟩
  · rw [List.disjoint_singleton]
    exact hpa.2
  · rcases List.mem_append.1 hq with hq | hq
    · exact h.fresh q hq
    · obtain rfl := List.mem_singleton.1 hq
      exact hpa.1

theorem insert_pages (x : Finset ℕ) (pages : List ℕ) (pa : ℕ) :
    insert pa (x ∪ pages.toFinset) = x ∪ (pages ++ [pa]).toFinset := by
  rw [List.toFinset_append, ← Finset.union_assoc, Finset.union_comm _ [pa].toFinset]
  rfl

/-- Each page is freed, and none is freed twice. -/
theorem respects_kfreeAll {pages : List ℕ} (h : Taken x pages) :
    (kfreeAll pages).Respects sysContract (fun _ w => w = (v, x)) (v, x ∪ pages.toFinset) := by
  induction pages with
  | nil => exact congrArg (Prod.mk v) (Finset.union_empty x)
  | cons pa pages ih =>
    have hpages : pa ∉ pages := (List.nodup_cons.1 h.nodup).1
    refine respects_call (Finset.mem_union_right x (List.mem_toFinset.2 (.head _))) ?_
    rintro _ _ rfl
    have herase : (x ∪ (pa :: pages).toFinset).erase pa = x ∪ pages.toFinset := by
      rw [Finset.erase_union_distrib, Finset.erase_eq_of_notMem (h.fresh pa (.head _)),
        List.toFinset_cons, Finset.erase_insert (List.mem_toFinset.not.2 hpages)]
    dsimp only
    rw [herase]
    exact ih ⟨h.nodup.of_cons, fun q hq => h.fresh q (.tail _ hq)⟩

theorem respects_fetchaddr (hready : v.Ready) (addr : ℕ) :
    (fetchaddr addr).Respects sysContract (fun _ w => w = (v, x)) (v, x) := by
  obtain ⟨user, guard, himage, -⟩ := hready.image
  refine respects_call trivial ?_
  rintro p ⟨v', x'⟩ ⟨⟨rfl, rfl⟩, rfl⟩
  split
  · exact respects_pure.2 rfl
  · refine respects_call ⟨_, himage⟩ ?_
    rintro _ _ rfl
    exact respects_pure.2 rfl

theorem respects_fetchstr (hready : v.Ready) (addr max : ℕ) :
    (fetchstr addr max).Respects sysContract (fun _ w => w = (v, x)) (v, x) := by
  obtain ⟨user, guard, himage, -⟩ := hready.image
  refine respects_call trivial ?_
  rintro p ⟨v', x'⟩ ⟨⟨rfl, rfl⟩, rfl⟩
  exact respects_op.2 ⟨⟨_, himage⟩, fun _ _ h => h⟩

theorem respects_argraw (n : Fin 6) :
    (argraw n).Respects sysContract (fun _ w => w = (v, x)) (v, x) := by
  refine respects_call trivial ?_
  rintro p ⟨v', x'⟩ ⟨⟨rfl, rfl⟩, rfl⟩
  exact respects_pure.2 rfl

/-- Wherever the loop ends, the pages are those that the process has besides `x`. -/
theorem respects_fetchArgs (hready : v.Ready) (uargv : ℕ) {k : ℕ} {pages : List ℕ}
    {args : List (CStr PGSIZE)} (hk : args.length + k = MAXARG) (h : Taken x pages) :
    (fetchArgs uargv k pages args hk).Respects sysContract
      (fun r w => w = (v, x ∪ r.1.toFinset) ∧ Taken x r.1) (v, x ∪ pages.toFinset) := by
  induction k generalizing pages args with
  | zero => exact ⟨rfl, h⟩
  | succ k ih =>
    refine (respects_fetchaddr hready _).bind ?_
    rintro (- | uarg) _ rfl
    · exact ⟨rfl, h⟩
    · dsimp only
      split
      · exact ⟨rfl, h⟩
      · refine respects_call trivial fun (page : ℕ) w halloc => ?_
        rcases halloc with ⟨rfl, rfl⟩ | ⟨h0, hfresh, rfl⟩
        · rw [if_pos rfl]
          exact ⟨rfl, h⟩
        · have htaken := h.take hfresh
          rw [if_neg h0, insert_pages]
          refine (respects_fetchstr hready _ _).bind ?_
          rintro (- | s) _ rfl
          · exact ⟨rfl, htaken⟩
          · exact ih _ htaken

/-- `sys_exec` respects the contract, gives back what it has taken from `kalloc`, and otherwise
does what `kexec` does. -/
theorem respects_sysExec (hready : v.Ready) (trampoline : ℕ) :
    (sysExec trampoline).Respects sysContract
      (fun r w => w.2 = x ∧ ((r = -1 ∧ Clean v w.1) ∨
        ∃ argc : ℕ, argc < MAXARG ∧ r = argc ∧ ∃ pt, Committed v pt w.1)) (v, x) := by
  refine (respects_argraw 1).bind ?_
  rintro uargv _ rfl
  refine (respects_argraw 0).bind ?_
  rintro upath _ rfl
  refine (respects_fetchstr hready upath MAXPATH).bind ?_
  rintro (- | path) _ rfl
  · exact ⟨rfl, .inl ⟨rfl, .refl v⟩⟩
  · have hnone : (v, x) = (v, x ∪ ([] : List ℕ).toFinset) :=
      congrArg (Prod.mk v) (Finset.union_empty x).symm
    rw [hnone]
    refine (respects_fetchArgs hready uargv rfl (.nil x)).bind ?_
    rintro ⟨pages, argv⟩ _ ⟨rfl, htaken⟩
    cases argv with
    | none =>
      refine (respects_kfreeAll htaken).bind ?_
      rintro _ _ rfl
      exact ⟨rfl, .inl ⟨rfl, .refl v⟩⟩
    | some argv =>
      have hkexec := respects_kexec hready trampoline path.bytes argv
      refine (hkexec.frame sysContract_extends _).bind ?_
      rintro r ⟨v', x'⟩ ⟨hr, rfl⟩
      refine (respects_kfreeAll htaken).bind ?_
      rintro _ _ rfl
      exact ⟨rfl, hr.imp_right fun ⟨hargc, hdone⟩ => ⟨_, argv.fits, hargc, hdone⟩⟩

end

/-- **`sys_exec` frees each argument page once**: it frees only pages that it has from `kalloc`, has
none of them left when it returns, and otherwise ends as `kexec` does. -/
theorem sysExec_frees {σ ε : Type*} {h : Handler execCalls σ ε} {view : σ → Held × Finset ℕ}
    {E : ε → Prop} (hh : sysContract.FollowedBy h view E) {s : σ} (hready : (view s).1.Ready)
    (trampoline : ℕ) :
    (∀ o ∈ (sysExec trampoline).calls h s, (∀ msg, o ≠ .panic msg) ∧ o ≠ .restart) ∧
    (sysExec trampoline).Meets h (fun r s' => (view s').2 = (view s).2 ∧
      ((r = -1 ∧ Clean (view s).1 (view s').1) ∨
        ∃ argc : ℕ, argc < MAXARG ∧ r = argc ∧ ∃ pt, Committed (view s).1 pt (view s').1)) E s := by
  have hexec := respects_sysExec (x := (view s).2) hready trampoline
  refine ⟨fun o ho => ?_, hexec.meets hh⟩
  obtain ⟨v, hpre⟩ := hexec.pre_of_mem_calls hh ho
  constructor
  · rintro msg rfl
    exact hpre
  · rintro rfl
    exact hpre

/-! ## A machine with argument pages -/

/-- The machine `h` of `kexec`, with `kalloc` of 32 pages. The user memory has the arguments: at 0 a
pointer to the string at 8, whose only letter is `c`, and a null pointer. -/
def withPages (c : UInt8) (h : Handler execCalls Held String) :
    Handler execCalls (Held × Finset ℕ) String
  | .copyin _ va len, w => .ok (some ((bytes64 (if va = 0 then 8 else 0)).take len), w)
  | .copyinstr _ _ max, w =>
    .ok (if hc : 1 < max ∧ c ≠ 0 then
      some ⟨[c], hc.1, fun h0 => hc.2 (List.mem_singleton.1 h0).symm⟩ else none, w)
  | .kalloc, (v, x) =>
    match (List.range' 1 32).find? (· ∉ x) with
    | some pa => .ok (pa, (v, insert pa x))
    | none => .ok ((0 : ℕ), (v, x))
  | .kfree pa, (v, x) => .ok ((), (v, x.erase pa))
  | o, (v, x) =>
    match h o v with
    | .ok (r, v') => .ok (r, (v', x))
    | .error e => .error e

theorem withPages_followedBy {c : UInt8} {h : Handler execCalls Held String}
    {E : String → Prop} (hh : execContract.FollowedBy h id E) :
    sysContract.FollowedBy (withPages c h) id E := by
  rintro o ⟨v, x⟩ (hpre : o.SysPre (v, x))
  have hkexec (hpre : o.Pre v) (hrun : withPages c h o (v, x) = match h o v with
      | .ok (r, v') => .ok (r, (v', x))
      | .error e => .error e) :
      (∃ r w, withPages c h o (v, x) = .ok (r, w) ∧ o.Post v r w.1 ∧ w.2 = x) ∨
        o.MayStop ∧ ∃ e, withPages c h o (v, x) = .error e ∧ E e := by
    rw [hrun]
    rcases hh o v hpre with ⟨r, v', hr, hpost⟩ | ⟨hstop, e, hr, he⟩
    · exact .inl ⟨r, (v', x), by rw [hr], hpost, rfl⟩
    · exact .inr ⟨hstop, e, by rw [hr], he⟩
  cases o with
  | copyin | copyinstr | kfree => exact .inl ⟨_, _, rfl, rfl⟩
  | kalloc =>
    rw [withPages]
    split
    case h_1 pa hfind =>
      have hpos := (List.mem_range'_1.1 (List.mem_of_find?_eq_some hfind)).1
      have hfresh : pa ∉ x := of_decide_eq_true (List.find?_some hfind :)
      exact .inl ⟨_, _, rfl, .inr ⟨Nat.one_le_iff_ne_zero.1 hpos, hfresh, rfl⟩⟩
    case h_2 => exact .inl ⟨_, _, rfl, .inl ⟨rfl, rfl⟩⟩
  | _ => exact hkexec hpre rfl

/-- `sys_exec` on this machine, for any file and any process that can call `kexec`. -/
theorem withPages_frees {file : List UInt8} (hfile : file.length ≤ MAXFILE * BSIZE) {v : Held}
    (hready : v.Ready) (x : Finset ℕ) (c : UInt8) (trampoline : ℕ) :
    (sysExec trampoline).Meets (withPages c (machine file)) (fun r w => w.2 = x ∧
      ((r = -1 ∧ Clean v w.1) ∨
        ∃ argc : ℕ, argc < MAXARG ∧ r = argc ∧ ∃ pt, Committed v pt w.1))
      (fun _ => False) (v, x) :=
  (sysExec_frees (s := (v, x)) (withPages_followedBy (machine_followedBy hfile)) hready
    trampoline).2

-- one argument: `kexec` commits with `argc` 1, and its page is free again
example : ((sysExec 0x80007000).run (withPages 97 (machine executable)) (calling, ∅)).toOption.map
    (fun out => (out.1, out.2.1.proc.sz, out.2.2)) = some (1, 12288, ∅) := by
  decide +kernel

end Xv6.Exec
