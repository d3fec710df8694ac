import Xv6.Foundations.Budget

/-!
# The labels of a run, in order

`c.Marks h label L Q E s`: if the run of `c` from `s` returns, its calls have had the labels `L`, in
this order, and it ends in `Q`. If it stops with an error, this one is in `E`, and the labels up to
there are the beginning of `L`. Sequencing appends the lists (`marks_bind`).

An `Embedding` says which labels the calls of a program have on a part of a larger state; then the
whole program marks there what it did (`Embedding.marks`).
-/

namespace Xv6.Program

variable {S S' : Signature} {α β γ β' : Type} {σ σ' ε ε' : Type*} {h : Handler S σ ε}
  {label : S.Call → Option β} {c : Program S α} {f : α → Program S γ} {s : σ}

/-! ## Runs and labels of a sequence -/

theorem labels_call (o : S.Call) (k : S.Result o → Program S α) :
    (call o k).labels h label s = match h o s with
      | .ok (r, s') => (label o).toList ++ (k r).labels h label s'
      | .error _ => [] := by
  simp only [labels, trace]
  cases h o s with
  | ok p => cases hl : label o <;> simp [hl]
  | error e => rfl

theorem labels_bind : (c >>= f).labels h label s = c.labels h label s ++ match c.run h s with
    | .ok (a, s') => (f a).labels h label s'
    | .error _ => [] := by
  induction c generalizing s with
  | ret a => rfl
  | call o k ih =>
    rw [call_bind, labels_call, labels_call]
    simp only [run]
    cases h o s with
    | ok p =>
      dsimp only
      rw [ih, List.append_assoc]
    | error e => rfl

/-- The labels of other labels. -/
theorem labels_filterMap (g : β → Option β') (c : Program S α) (s : σ) :
    c.labels h (fun o => (label o).bind g) s = (c.labels h label s).filterMap g := by
  rw [labels, labels, List.filterMap_filterMap]

/-! ## Marks -/

/-- The labels of a run of `c` are `L` if it returns, or else the beginning of `L`. -/
def Marks (h : Handler S σ ε) (label : S.Call → Option β) (c : Program S α) (L : List β)
    (Q : α → σ → Prop) (E : ε → Prop) (s : σ) : Prop :=
  c.labels h label s <+: L ∧ c.Meets h (fun a s' => c.labels h label s = L ∧ Q a s') E s

variable {L L' : List β} {Q Q' : α → σ → Prop} {E E' : ε → Prop}

theorem Marks.meets (hc : c.Marks h label L Q E s) : c.Meets h Q E s :=
  hc.2.post fun _ _ => And.right

/-- The labels of a run that returns. -/
theorem Marks.labels_eq {a : α} {s' : σ} (hc : c.Marks h label L Q E s)
    (hr : c.run h s = .ok (a, s')) : c.labels h label s = L :=
  (hc.2.run_ok hr).1

theorem Marks.mono (hc : c.Marks h label L Q E s) (hQ : ∀ a s', Q a s' → Q' a s')
    (hE : ∀ e, E e → E' e) : c.Marks h label L Q' E' s :=
  ⟨hc.1, hc.2.mono (fun a s' hq => ⟨hq.1, hQ a s' hq.2⟩) hE⟩

theorem Marks.post (hc : c.Marks h label L Q E s) (hQ : ∀ a s', Q a s' → Q' a s') :
    c.Marks h label L Q' E s :=
  hc.mono hQ fun _ => id

/-- What else the run meets. -/
theorem Marks.and (hc : c.Marks h label L Q E s) (hm : c.Meets h Q' E' s) :
    c.Marks h label L (fun a s' => Q a s' ∧ Q' a s') (fun e => E e ∧ E' e) s :=
  ⟨hc.1, (hc.2.and hm).post fun _ _ hq => ⟨hq.1.1, hq.1.2, hq.2⟩⟩

theorem marks_pure {a : α} (hQ : Q a s) : (pure a : Program S α).Marks h label [] Q E s :=
  ⟨List.nil_prefix, rfl, hQ⟩

/-- The rule of sequencing. -/
theorem marks_bind {Q : γ → σ → Prop}
    (hc : c.Marks h label L (fun a s' => (f a).Marks h label L' Q E s') E s) :
    (c >>= f).Marks h label (L ++ L') Q E s := by
  obtain ⟨hp, hm⟩ := hc
  rw [Marks, Meets, run_bind, labels_bind]
  rw [Meets] at hm
  cases hr : c.run h s with
  | ok p =>
    simp only [hr] at hm ⊢
    obtain ⟨hl, hp', hm'⟩ := hm
    rw [hl]
    exact ⟨(List.prefix_append_right_inj L).2 hp', hm'.post fun _ _ hq => ⟨by rw [hq.1], hq.2⟩⟩
  | error e =>
    simp only [hr] at hm ⊢
    rw [List.append_nil]
    exact ⟨hp.trans (List.prefix_append L L'), hm⟩

theorem marks_bind_nil {Q : γ → σ → Prop}
    (hc : c.Marks h label [] (fun a s' => (f a).Marks h label L Q E s') E s) :
    (c >>= f).Marks h label L Q E s :=
  marks_bind hc

theorem marks_bind_cons {b : β} {Q : γ → σ → Prop}
    (hc : c.Marks h label [b] (fun a s' => (f a).Marks h label L Q E s') E s) :
    (c >>= f).Marks h label (b :: L) Q E s :=
  marks_bind hc

theorem marks_bind_last {Q : γ → σ → Prop}
    (hc : c.Marks h label L (fun a s' => (f a).Marks h label [] Q E s') E s) :
    (c >>= f).Marks h label L Q E s := by
  have hm := marks_bind hc
  rwa [List.append_nil] at hm

/-- A program that stops before it marks anything. -/
theorem marks_error {o : S.Call} {k : S.Result o → Program S α} {e : ε} (ho : h o s = .error e)
    (he : E e) : (call o k).Marks h label L Q E s := by
  rw [Marks, Program.labels_call, Meets, run, ho]
  exact ⟨List.nil_prefix, he⟩

theorem labels_op (o : S.Call) : (op o).labels h label s = match h o s with
    | .ok _ => (label o).toList
    | .error _ => [] := by
  rw [op, labels_call]
  cases h o s with
  | ok p => exact List.append_nil _
  | error e => rfl

theorem marks_op {o : S.Call} {Q : S.Result o → σ → Prop} (hm : (op o).Meets h Q E s) :
    (op o).Marks h label (label o).toList Q E s := by
  rw [Marks, labels_op]
  unfold Meets at hm ⊢
  simp only [op, run] at hm ⊢
  cases ho : h o s with
  | ok p =>
    simp only [ho, true_and] at hm ⊢
    exact ⟨List.prefix_rfl, hm⟩
  | error e =>
    simp only [ho] at hm ⊢
    exact ⟨List.nil_prefix, hm⟩

/-- A call without a label. -/
theorem marks_op_none {o : S.Call} {Q : S.Result o → σ → Prop} (hl : label o = none)
    (hm : (op o).Meets h Q E s) : (op o).Marks h label [] Q E s := by
  have : (op o).Marks h label (label o).toList Q E s := marks_op hm
  rwa [hl] at this

theorem marks_op_some {o : S.Call} {b : β} {Q : S.Result o → σ → Prop} (hl : label o = some b)
    (hm : (op o).Meets h Q E s) : (op o).Marks h label [b] Q E s := by
  have : (op o).Marks h label (label o).toList Q E s := marks_op hm
  rwa [hl] at this

/-! ## A part of the state -/

/-- A part of the state whose calls have the labels `label`, marked as `label'` in the whole. -/
structure Embedding (h : Handler S σ ε) (h' : Handler S' σ' ε') (label : S.Call → Option β)
    (label' : S'.Call → Option β') (t : (o : S.Call) → Program S' (S.Result o)) extends
    Part h h' t where
  mark : β → β'
  labels_call : ∀ o x, (t o).labels h' label' x = match h o (get x) with
    | .ok _ => ((label o).map mark).toList
    | .error _ => []

namespace Embedding

variable {h' : Handler S' σ' ε'} {label' : S'.Call → Option β'}
  {t : (o : S.Call) → Program S' (S.Result o)}

theorem labels_translate (m : Embedding h h' label label' t) (c : Program S α) (x : σ') :
    (c.translate t).labels h' label' x = (c.labels h label (m.get x)).map m.mark := by
  induction c generalizing x with
  | ret a => rfl
  | call o k ih =>
    rw [translate, labels_bind, m.run_call, m.labels_call, Program.labels_call]
    cases h o (m.get x) with
    | ok p =>
      dsimp only
      rw [ih, m.get_set, List.map_append]
      cases label o <;> rfl
    | error e => rfl

/-- **What a program marks on a part of the state, it marks on the whole.** -/
theorem marks (m : Embedding h h' label label' t) {x : σ'} {E' : ε' → Prop}
    (hc : c.Marks h label L Q E (m.get x)) (hE : ∀ e, E e → E' (m.err e)) :
    (c.translate t).Marks h' label' (L.map m.mark)
      (fun a y => Q a (m.get y) ∧ y = m.set (m.get y) x) E' x := by
  obtain ⟨hp, hm⟩ := hc
  rw [Marks, Meets, m.run_translate, m.labels_translate]
  rw [Meets] at hm
  refine ⟨hp.map m.mark, ?_⟩
  cases hr : c.run h (m.get x) with
  | ok p =>
    simp only [hr] at hm ⊢
    rw [m.get_set]
    exact ⟨by rw [hm.1], hm.2, rfl⟩
  | error e =>
    simp only [hr] at hm ⊢
    exact hE e hm

end Embedding

end Xv6.Program
