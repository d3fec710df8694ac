import Xv6.Simulation.Malloc

/-!
# The heap simulator keeps the heap whole

In every run each address of the heap is in one chunk, free or allocated, whatever the policy and
the order of the list (`Whole`). With sorting by addresses and coalescing the free chunks have gaps
between them, so that a call fails only when no stretch of free addresses is long enough.
-/

namespace Xv6.Simulation.Malloc

/-- The options of a heap: what `__init__` asserts, a heap that is not empty, and addresses and
headers that are not negative. -/
structure Options.Valid (o : Options) : Prop where
  align : o.align = -1 ∨ 0 < o.align
  size : 0 < o.size
  start : 0 ≤ o.start
  headerSize : 0 ≤ o.headerSize

/-- Each address of the heap is in one chunk, and no other address is in any. -/
structure Whole (o : Options) (h : Heap) : Prop where
  chunks : Partitions o.start o.size (h.freelist ++ h.sizemap)
  gapped : o.order = .addrSort → o.coalesce = true → Gapped h.freelist

variable {o : Options} {h : Heap}

theorem Options.Valid.request_pos (hvalid : o.Valid) {size : ℤ} (hsize : 0 < size) :
    0 < o.request size := by
  have hheader := hvalid.headerSize
  have hround : ¬ o.align = -1 → 0 ≤ o.align - size % o.align := fun halign => by
    have := Int.emod_lt_of_pos size (hvalid.align.resolve_left halign)
    omega
  unfold Options.request
  by_cases halign : o.align = -1
  · simp only [halign, ne_eq, not_true_eq_false, if_false]
    omega
  · simp only [halign, ne_eq, not_false_eq_true, if_true]
    have := hround halign
    split_ifs <;> omega

/-! ## The search -/

/-- The chunk `e` at `k` is the one the policy asks for. -/
structure Options.Picks (o : Options) (size : ℤ) (l : List (ℤ × ℤ)) (k : ℕ) (e : ℤ × ℤ) :
    Prop where
  get : l[k]? = some e
  fits : size ≤ e.2
  /-- None that fits is better. -/
  best : o.policy ≠ .first → ∀ f ∈ l, size ≤ f.2 → o.better f.2 e.2 = false
  /-- None before it fits. -/
  first : o.policy = .first → ∀ f ∈ l.take k, f.2 < size

theorem Options.Picks.cons {size : ℤ} {l : List (ℤ × ℤ)} {k : ℕ} {e f : ℤ × ℤ}
    (h : o.Picks size l k e) (hbest : o.policy ≠ .first → size ≤ f.2 → o.better f.2 e.2 = false)
    (hfirst : o.policy = .first → f.2 < size) : o.Picks size (f :: l) (k + 1) e where
  get := h.get
  fits := h.fits
  best hp := List.forall_mem_cons.2 ⟨hbest hp, h.best hp⟩
  first hp := by
    rw [List.take_succ_cons]
    exact List.forall_mem_cons.2 ⟨hfirst hp, h.first hp⟩

variable (o)

theorem Options.better_irrefl (hp : o.policy ≠ .first) (x : ℤ) : o.better x x = false := by
  cases hpol : o.policy <;> simp_all [Options.better]

theorem Options.better_asymm (hp : o.policy ≠ .first) {x y : ℤ} (hxy : o.better x y = true) :
    o.better y x = false := by
  cases hpol : o.policy <;> simp_all [Options.better] <;> omega

theorem Options.better_trans (hp : o.policy ≠ .first) {x y z : ℤ} (hxy : o.better x y = true)
    (hyz : o.better y z = true) : o.better x z = true := by
  cases hpol : o.policy <;> simp_all [Options.better] <;> omega

theorem Options.better_of_not (hp : o.policy ≠ .first) {x y z : ℤ} (hxz : o.better x z = true)
    (hyz : o.better y z = false) : o.better y x = false := by
  cases hpol : o.policy <;> simp_all [Options.better] <;> omega

/-- The search finds the chunk that the policy asks for, or none that fits is better than the one it
had. -/
theorem Options.search_spec (size : ℤ) (i : ℕ) (l : List (ℤ × ℤ)) (s : Search) :
    ((o.search size i l s).best = s.best ∧ (o.search size i l s).bestSize = s.bestSize ∧
      ∀ e ∈ l, size ≤ e.2 → o.better e.2 s.bestSize = false) ∨
    ∃ k e, o.Picks size l k e ∧ o.better e.2 s.bestSize = true ∧
      (o.search size i l s).best = some (i + k, e.1) ∧ (o.search size i l s).bestSize = e.2 := by
  induction l generalizing i s with
  | nil => exact Or.inl ⟨rfl, rfl, by simp⟩
  | cons e l ih =>
    rw [Options.search]
    split_ifs with htake hfirst
    · -- the first chunk that fits ends the search
      exact Or.inr
        ⟨0, e, ⟨rfl, htake.1, fun hp => (hp hfirst).elim, by simp⟩, htake.2, rfl, rfl⟩
    · right
      rcases ih (i + 1) ⟨some (i, e.1), e.2, s.count + 1⟩ with
        ⟨hbest, hsize, hnone⟩ | ⟨k, f, hpick, hbetter, hbest, hsize⟩
      · refine ⟨0, e, ⟨rfl, htake.1, fun hp => ?_, by simp⟩, htake.2, by simpa using hbest, hsize⟩
        simpa [o.better_irrefl hp] using hnone
      · have htrans : o.better f.2 s.bestSize = true := o.better_trans hfirst hbetter htake.2
        exact ⟨k + 1, f, hpick.cons (fun _ _ => o.better_asymm hfirst hbetter)
          (fun hp => (hfirst hp).elim), htrans, by rw [hbest]; congr 2; omega, hsize⟩
    · have hskip : size ≤ e.2 → o.better e.2 s.bestSize = false := by
        simpa using htake
      rcases ih (i + 1) { s with count := s.count + 1 } with
        ⟨hbest, hsize, hnone⟩ | ⟨k, f, hpick, hbetter, hbest, hsize⟩
      · exact Or.inl ⟨hbest, hsize, List.forall_mem_cons.2 ⟨hskip, hnone⟩⟩
      · refine Or.inr ⟨k + 1, f, hpick.cons (fun hp hfit => ?_) (fun hp => ?_), hbetter,
          by rw [hbest]; congr 2; omega, hsize⟩
        · exact o.better_of_not hp hbetter (hskip hfit)
        · by_contra hfit
          simpa [Options.better, hp] using hskip (not_lt.1 hfit)

variable {o}

/-- The search fails only when no chunk fits. -/
theorem Whole.search (hw : Whole o h) (size : ℤ) :
    ((o.search size 0 h.freelist ⟨none, o.bestSize, 0⟩).best = none ∧
      ∀ e ∈ h.freelist, e.2 < size) ∨
    ∃ k e, o.Picks size h.freelist k e ∧
      (o.search size 0 h.freelist ⟨none, o.bestSize, 0⟩).best = some (k, e.1) ∧
      (o.search size 0 h.freelist ⟨none, o.bestSize, 0⟩).bestSize = e.2 := by
  rcases o.search_spec size 0 h.freelist ⟨none, o.bestSize, 0⟩ with
    ⟨hbest, -, hnone⟩ | ⟨k, e, hpick, -, hbest, hsize⟩
  · refine Or.inl ⟨hbest, fun e he => ?_⟩
    by_contra hfit
    have hnot := hnone e he (not_lt.1 hfit)
    -- the value before the loop is worse than the size of any chunk
    have hpos := hw.chunks.pos e (List.mem_append_left _ he)
    have hle := hw.chunks.le_size (List.mem_append_left _ he)
    cases hpol : o.policy <;> simp [Options.better, Options.bestSize, hpol] at hnot <;> omega
  · exact Or.inr ⟨k, e, hpick, by simpa using hbest, hsize⟩

/-! ## A chunk is allocated -/

/-- A dictionary is the entry of a key and the others. -/
theorem lookup_perm {α β : Type*} [BEq α] [LawfulBEq α] {l : List (α × β)} {a : α} {b : β}
    (hl : l.lookup a = some b) : l.Perm ((a, b) :: l.eraseP fun e => e.1 == a) := by
  induction l with
  | nil => simp at hl
  | cons e l ih =>
    rw [List.lookup_cons] at hl
    by_cases heq : e.1 = a
    · obtain rfl : e.2 = b := by simpa [heq] using hl
      simp [← heq]
    · have hne : (a == e.1) = false := beq_false_of_ne fun h => heq h.symm
      rw [hne] at hl
      have hrest := ih hl
      rw [List.eraseP_cons_of_neg (by simpa using heq)]
      exact (hrest.cons e).trans (List.Perm.swap _ _ _)

/-- A free chunk begins at another address than the allocated ones. -/
theorem Whole.lookup_eq_none (hw : Whole o h) {e : ℤ × ℤ} (he : e ∈ h.freelist) :
    h.sizemap.lookup e.1 = none := by
  by_contra hsome
  obtain ⟨n, hn⟩ := Option.ne_none_iff_exists'.1 hsome
  have hmem : (e.1, n) ∈ h.sizemap := (lookup_perm hn).mem_iff.2 (List.mem_cons_self ..)
  have hpos := hw.chunks.pos e (List.mem_append_left _ he)
  have hpos' := hw.chunks.pos _ (List.mem_append_right _ hmem)
  have hfree : 0 < cover e.1 h.freelist := cover_pos.2 ⟨e, he, le_rfl, by omega⟩
  have hused : 0 < cover e.1 h.sizemap := cover_pos.2 ⟨_, hmem, le_rfl, by simpa using hpos'⟩
  have hle := hw.chunks.cover_le e.1
  rw [cover_append] at hle
  omega

/-- A larger chunk is split. -/
theorem Whole.split (hw : Whole o h) {k : ℕ} {e : ℤ × ℤ} (hk : h.freelist[k]? = some e) {n : ℤ}
    (hn : 0 < n) (hlt : n < e.2) :
    Whole o ⟨h.freelist.set k (e.1 + n, e.2 - n), h.sizemap ++ [(e.1, n)]⟩ := by
  obtain ⟨hlen, rfl⟩ := List.getElem?_eq_some_iff.1 hk
  refine ⟨?_, fun ho hc => (hw.gapped ho hc).set hk (by dsimp only; omega) (by dsimp only; omega)⟩
  have hold := (List.getElem_cons_eraseIdx_perm hlen).symm.append_right h.sizemap
  have hnew := List.set_perm_cons_eraseIdx hlen
    (h.freelist[k].1 + n, h.freelist[k].2 - n)
  refine ((hw.chunks.perm hold).split hn hlt).perm ?_
  have happend := (hnew.append_right h.sizemap).symm
  refine (happend.cons _).trans ?_
  rw [← List.append_assoc]
  exact (List.perm_append_singleton _ _).symm

/-- A chunk of the right size leaves the free list. -/
theorem Whole.fit (hw : Whole o h) {k : ℕ} {e : ℤ × ℤ} (hk : h.freelist[k]? = some e) :
    Whole o ⟨h.freelist.eraseIdx k, h.sizemap ++ [e]⟩ := by
  obtain ⟨hlen, rfl⟩ := List.getElem?_eq_some_iff.1 hk
  refine ⟨?_, fun ho hc => (hw.gapped ho hc).sublist (List.eraseIdx_sublist _ _)⟩
  refine hw.chunks.perm ?_
  have hold := (List.getElem_cons_eraseIdx_perm hlen).symm.append_right h.sizemap
  refine hold.trans ?_
  rw [← List.append_assoc]
  exact (List.perm_append_singleton _ _).symm

/-- A call of `malloc` fails when no free chunk fits, and takes the chunk of the policy else. -/
theorem Whole.malloc (hw : Whole o h) (hvalid : o.Valid) {size : ℤ} (hsize : 0 < size) :
    (∃ count, h.malloc o size = .ok (h, -1, count) ∧
      ∀ e ∈ h.freelist, e.2 < o.request size) ∨
    ∃ h' k e count, h.malloc o size = .ok (h', e.1, count) ∧ Whole o h' ∧
      o.Picks (o.request size) h.freelist k e ∧
      h'.sizemap = h.sizemap ++ [(e.1, o.request size)] := by
  have hn := hvalid.request_pos hsize
  obtain ⟨count, hcount⟩ : ∃ count,
      count = (o.search (o.request size) 0 h.freelist ⟨none, o.bestSize, 0⟩).count := ⟨_, rfl⟩
  rcases hw.search (o.request size) with ⟨hbest, hnone⟩ | ⟨k, e, hpick, hbest, he⟩
  · left
    refine ⟨count, ?_, hnone⟩
    rw [Heap.malloc, hbest, hcount]
  · right
    have hlookup := hw.lookup_eq_none (List.mem_of_getElem? hpick.get)
    rcases hpick.fits.lt_or_eq with hlt | heq
    · refine ⟨_, k, e, count, ?_, hw.split hpick.get hn hlt, hpick, rfl⟩
      rw [Heap.malloc, hbest, hcount]
      simp only [he, hlt, if_true, Heap.addToMap, hlookup]
      rfl
    · refine ⟨⟨h.freelist.eraseIdx k, h.sizemap ++ [(e.1, o.request size)]⟩, k, e, count, ?_, ?_,
        hpick, rfl⟩
      · rw [Heap.malloc, hbest, hcount]
        simp only [he, ← heq, lt_irrefl, if_false, if_true, Heap.addToMap, hlookup]
        rfl
      · rw [heq]
        exact hw.fit hpick.get

/-! ## A chunk comes back -/

theorem Options.giveBack_perm (o : Options) (l : List (ℤ × ℤ)) (e : ℤ × ℤ) :
    (o.giveBack l e).Perm (e :: l) := by
  have happend : (l ++ [e]).Perm (e :: l) := List.perm_append_singleton e l
  cases horder : o.order <;> simp only [Options.giveBack, horder]
  case insertFront => exact List.Perm.refl _
  case insertBack => exact happend
  all_goals exact (List.perm_insertionSort _ _).trans happend

theorem Options.giveBack_sorted (ho : o.order = .addrSort) (l : List (ℤ × ℤ)) (e : ℤ × ℤ) :
    (o.giveBack l e).Pairwise fun x y => x.1 ≤ y.1 := by
  have htotal : Std.Total fun x y : ℤ × ℤ => x.1 ≤ y.1 := ⟨fun x y => le_total x.1 y.1⟩
  have htrans : IsTrans (ℤ × ℤ) fun x y => x.1 ≤ y.1 := ⟨fun _ _ _ => le_trans⟩
  simp only [Options.giveBack, ho]
  exact List.pairwise_insertionSort _ _

/-- The coalescing keeps the addresses. -/
theorem partitions_coalesceFrom {start size : ℤ} {curr : ℤ × ℤ} {l rest : List (ℤ × ℤ)}
    (hp : Partitions start size (curr :: l ++ rest)) :
    Partitions start size (coalesceFrom curr l ++ rest) := by
  induction l generalizing curr rest with
  | nil => exact hp
  | cons e l ih =>
    rw [coalesceFrom]
    split_ifs with hmeet
    · exact ih (hp.glue hmeet)
    · -- `curr` is one of the other chunks for the rest of the loop
      have hmove : (curr :: e :: l ++ rest).Perm (e :: l ++ curr :: rest) :=
        List.perm_middle.symm
      exact (ih (hp.perm hmove)).perm List.perm_middle

theorem le_of_mem_coalesceFrom {curr : ℤ × ℤ} {l : List (ℤ × ℤ)}
    (hl : ∀ e ∈ l, curr.1 ≤ e.1) (hup : l.Pairwise fun x y => x.1 ≤ y.1) :
    ∀ e ∈ coalesceFrom curr l, curr.1 ≤ e.1 := by
  induction l generalizing curr with
  | nil => simp [coalesceFrom]
  | cons f l ih =>
    obtain ⟨hf, hup⟩ := List.pairwise_cons.1 hup
    obtain ⟨hcurr, hl⟩ := List.forall_mem_cons.1 hl
    rw [coalesceFrom]
    split_ifs
    · have hglued := @ih (curr.1, curr.2 + f.2) hl hup
      exact hglued
    · refine List.forall_mem_cons.2 ⟨le_rfl, fun e he => ?_⟩
      exact hcurr.trans (ih hf hup e he)

/-- The coalescing of a list that goes up leaves gaps. -/
theorem gapped_coalesceFrom {curr : ℤ × ℤ} {l : List (ℤ × ℤ)} (hup : Ascending (curr :: l))
    (hsorted : l.Pairwise fun x y => x.1 ≤ y.1) : Gapped (coalesceFrom curr l) := by
  induction l generalizing curr with
  | nil => exact List.pairwise_singleton _ _
  | cons e l ih =>
    obtain ⟨hcurr, hup⟩ := List.pairwise_cons.1 hup
    obtain ⟨he, hsorted'⟩ := List.pairwise_cons.1 hsorted
    obtain ⟨hend, hrest⟩ := List.pairwise_cons.1 hup
    rw [coalesceFrom]
    split_ifs with hmeet
    · refine ih (List.pairwise_cons.2 ⟨fun f hf => ?_, hrest⟩) hsorted'
      have := hend f hf
      dsimp only
      omega
    · refine List.pairwise_cons.2 ⟨fun f hf => ?_, ih hup hsorted'⟩
      have hlow := le_of_mem_coalesceFrom he hsorted' f hf
      have hbelow := hcurr e (List.mem_cons_self ..)
      omega

theorem partitions_coalesce {start size : ℤ} {l rest : List (ℤ × ℤ)}
    (hp : Partitions start size (l ++ rest)) : Partitions start size (coalesce l ++ rest) := by
  cases l with
  | nil => exact hp
  | cons curr l => exact partitions_coalesceFrom hp

theorem gapped_coalesce {l : List (ℤ × ℤ)} (hup : Ascending l)
    (hsorted : l.Pairwise fun x y => x.1 ≤ y.1) : Gapped (coalesce l) := by
  cases l with
  | nil => exact List.Pairwise.nil
  | cons curr l => exact gapped_coalesceFrom hup (List.pairwise_cons.1 hsorted).2

/-- A call of `free` keeps the heap whole. -/
theorem Whole.free (hw : Whole o h) (addr : ℤ) : Whole o (h.free o addr).1 := by
  unfold Heap.free
  cases hlookup : h.sizemap.lookup addr with
  | none => exact hw
  | some size =>
    have hback := o.giveBack_perm h.freelist (addr, size)
    have hchunks : Partitions o.start o.size (o.giveBack h.freelist (addr, size) ++
        h.sizemap.eraseP fun e => e.1 == addr) := by
      refine hw.chunks.perm (((lookup_perm hlookup).append_left _).trans ?_)
      exact List.perm_middle.trans (hback.symm.append_right _)
    cases hc : o.coalesce with
    | false => exact ⟨hchunks, fun _ htrue => Bool.noConfusion (hc.symm.trans htrue)⟩
    | true =>
      refine ⟨partitions_coalesce hchunks, fun ho _ => ?_⟩
      have hsorted := Options.giveBack_sorted ho h.freelist (addr, size)
      have hup : Ascending (o.giveBack h.freelist (addr, size)) := by
        refine ascending_of_cover hsorted
          (fun e he => hchunks.pos e (List.mem_append_left _ he)) fun x => ?_
        have hle := hchunks.cover_le x
        rw [cover_append] at hle
        omega
      exact gapped_coalesce hup hsorted

/-! ## Runs -/

theorem Whole.init (hvalid : o.Valid) : Whole o ⟨[(o.start, o.size)], []⟩ where
  chunks := Partitions.singleton hvalid.size
  gapped _ _ := List.pairwise_singleton _ _

/-- A call keeps the heap whole. -/
theorem Whole.step (hw : Whole o h) (hvalid : o.Valid) (c : Call)
    (hc : ∀ size, c = .malloc size → 0 < size) : ∃ h', h.step o c = .ok h' ∧ Whole o h' := by
  cases c with
  | malloc size =>
    rcases hw.malloc hvalid (hc size rfl) with
      ⟨count, hcall, -⟩ | ⟨h', k, e, count, hcall, hw', -, -⟩
    · exact ⟨h, by simp [Heap.step, hcall], hw⟩
    · exact ⟨h', by simp [Heap.step, hcall], hw'⟩
  | free addr => exact ⟨_, rfl, hw.free addr⟩

theorem Whole.steps (hw : Whole o h) (hvalid : o.Valid) {calls : List Call}
    (hcalls : ∀ size, .malloc size ∈ calls → 0 < size) :
    ∃ h', calls.foldlM (Heap.step o) h = .ok h' ∧ Whole o h' := by
  induction calls generalizing h with
  | nil => exact ⟨h, rfl, hw⟩
  | cons c calls ih =>
    obtain ⟨h₁, hstep, hw₁⟩ := hw.step hvalid c fun size hc =>
      hcalls size (hc ▸ List.mem_cons_self ..)
    obtain ⟨h₂, hrest, hw₂⟩ := ih hw₁ fun size hc => hcalls size (List.mem_cons_of_mem _ hc)
    exact ⟨h₂, by rw [List.foldlM_cons, hstep]; exact hrest, hw₂⟩

/-- No assertion fails in a run. -/
theorem whole_of_run (hvalid : o.Valid) {calls : List Call}
    (hcalls : ∀ size, .malloc size ∈ calls → 0 < size) : ∃ h, run o calls = .ok h ∧ Whole o h := by
  obtain ⟨h, hrun, hw⟩ := (Whole.init hvalid).steps hvalid hcalls
  refine ⟨h, ?_, hw⟩
  rw [run, Heap.init, if_pos hvalid.align]
  exact hrun

/-- What a call of `malloc` does: it fails when no free chunk fits, and allocates from the chunk
that the policy asks for else. -/
inductive Answer (o : Options) (h : Heap) (size : ℤ) : Heap × ℤ × ℕ → Prop
  | fail (count : ℕ) (hnone : ∀ e ∈ h.freelist, e.2 < size) : Answer o h size (h, -1, count)
  | give (h' : Heap) (k : ℕ) (e : ℤ × ℤ) (count : ℕ) (hpick : o.Picks size h.freelist k e)
      (hmap : h'.sizemap = h.sizemap ++ [(e.1, size)])
      (hchunks : Partitions o.start o.size (h'.freelist ++ h'.sizemap)) :
      Answer o h size (h', e.1, count)

theorem Whole.answer (hw : Whole o h) (hvalid : o.Valid) {size : ℤ} (hsize : 0 < size) :
    ∃ r, h.malloc o size = .ok r ∧ Answer o h (o.request size) r := by
  rcases hw.malloc hvalid hsize with
    ⟨count, hcall, hnone⟩ | ⟨h', k, e, count, hcall, hw', hpick, hmap⟩
  · exact ⟨_, hcall, .fail count hnone⟩
  · exact ⟨_, hcall, .give h' k e count hpick hmap hw'.chunks⟩

/-- **The heap is whole.** After any calls no assertion has failed, each address of the heap is in
one chunk, and `malloc` fails only when no free chunk fits. -/
theorem heap_whole (hvalid : o.Valid) {calls : List Call}
    (hcalls : ∀ size, .malloc size ∈ calls → 0 < size) :
    ∃ h, run o calls = .ok h ∧ Partitions o.start o.size (h.freelist ++ h.sizemap) ∧
      ∀ size, 0 < size → ∃ r, h.malloc o size = .ok r ∧ Answer o h (o.request size) r := by
  obtain ⟨h, hrun, hw⟩ := whole_of_run hvalid hcalls
  exact ⟨h, hrun, hw.chunks, fun size hsize => hw.answer hvalid hsize⟩

/-- Three calls, with headers and the best fit. -/
theorem heap_whole_three :
    let o : Options := ⟨100, 1000, 4, .best, .sizeSortUp, true, 8⟩
    ∃ h, run o [.malloc 10, .malloc 3, .free 1000] = .ok h ∧
      Partitions o.start o.size (h.freelist ++ h.sizemap) ∧
      ∀ size, 0 < size → ∃ r, h.malloc o size = .ok r ∧ Answer o h (o.request size) r := by
  intro o
  apply heap_whole
  · constructor <;> decide
  · simp

/-! ## Sorting by addresses, and coalescing -/

/-- The address `x` of the heap is in no chunk that is allocated. -/
def Unused (o : Options) (h : Heap) (x : ℤ) : Prop :=
  (o.start ≤ x ∧ x < o.start + o.size) ∧ ∀ e ∈ h.sizemap, ¬ (e.1 ≤ x ∧ x < e.1 + e.2)

theorem Whole.unused_iff (hw : Whole o h) {x : ℤ} : Unused o h x ↔ 0 < cover x h.freelist := by
  have hcover := hw.chunks.cover x
  rw [cover_append] at hcover
  have hused : (∀ e ∈ h.sizemap, ¬ (e.1 ≤ x ∧ x < e.1 + e.2)) ↔ cover x h.sizemap = 0 := by
    rw [← Nat.le_zero, ← not_lt, cover_pos]
    simp
  rw [Unused, hused]
  split_ifs at hcover with hin
  · simp only [hin, true_and]
    omega
  · simp only [hin, false_and, false_iff]
    omega

/-- **The free list is not cut up.** With sorting by addresses and coalescing, after any calls,
`malloc` fails exactly when no stretch of unused addresses is as long as the chunk has to be. -/
theorem malloc_fails_iff (hvalid : o.Valid) (ho : o.order = .addrSort) (hc : o.coalesce = true)
    {calls : List Call} (hcalls : ∀ size, .malloc size ∈ calls → 0 < size) :
    ∃ h, run o calls = .ok h ∧ ∀ size, 0 < size →
      ∃ h' ptr count, h.malloc o size = .ok (h', ptr, count) ∧
        (ptr = -1 ↔ ¬ ∃ a, ∀ x, a ≤ x → x < a + o.request size → Unused o h x) := by
  obtain ⟨h, hrun, hw⟩ := whole_of_run hvalid hcalls
  refine ⟨h, hrun, fun size hsize => ?_⟩
  simp only [hw.unused_iff]
  rcases hw.malloc hvalid hsize with
    ⟨count, hcall, hnone⟩ | ⟨h', k, e, count, hcall, -, hpick, -⟩
  · refine ⟨h, -1, count, hcall, iff_of_true rfl ?_⟩
    rintro ⟨a, hall⟩
    -- a stretch that is free is in one chunk
    obtain ⟨e, he, hlow, hhigh⟩ :=
      (hw.gapped ho hc).exists_stretch (hvalid.request_pos hsize) hall
    have hsmall := hnone e he
    omega
  · refine ⟨h', e.1, count, hcall, iff_of_false ?_ (not_not_intro ?_)⟩
    · have hstart := hw.chunks.start_le
        (List.mem_append_left _ (List.mem_of_getElem? hpick.get))
      have hvalid_start := hvalid.start
      omega
    · refine ⟨e.1, fun x hlow hhigh => ?_⟩
      have hfits := hpick.fits
      exact cover_pos.2 ⟨e, List.mem_of_getElem? hpick.get, hlow, by omega⟩

/-- Two chunks that are free again make one. -/
theorem malloc_fails_iff_two :
    let o : Options := ⟨100, 1000, 0, .first, .addrSort, true, -1⟩
    ∃ h, run o [.malloc 60, .malloc 40, .free 1060, .free 1000] = .ok h ∧ ∀ size, 0 < size →
      ∃ h' ptr count, h.malloc o size = .ok (h', ptr, count) ∧
        (ptr = -1 ↔ ¬ ∃ a, ∀ x, a ≤ x → x < a + o.request size → Unused o h x) := by
  intro o
  apply malloc_fails_iff
  · constructor <;> decide
  · rfl
  · rfl
  · simp

end Xv6.Simulation.Malloc
