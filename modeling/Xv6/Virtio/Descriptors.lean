import Xv6.Virtio.Defs

/-!
# Descriptors

What `alloc3_desc`, `free_desc` and `free_chain` do to the set of free descriptors, and that they
do not panic when they are used on descriptors that are in use. `Disk.Chain d b i j k` says that
the three descriptors are formatted as a chain for a request of the buffer `b`.
-/

namespace Xv6.Virtio

variable {β : Type} [DecidableEq β] {d d' : Disk β} {b : β} {i j k : ℕ} {idx : List ℕ}

namespace Disk

/-- Everything but the descriptors and their flags. -/
structure SameQueues (d d' : Disk β) : Prop where
  avail : d'.avail = d.avail
  used : d'.used = d.used
  taken : d'.taken = d.taken
  busy : d'.busy = d.busy

omit [DecidableEq β] in
theorem SameQueues.refl (d : Disk β) : d.SameQueues d := ⟨rfl, rfl, rfl, rfl⟩

omit [DecidableEq β] in
theorem SameQueues.trans {d'' : Disk β} (h : d.SameQueues d') (h' : d'.SameQueues d'') :
    d.SameQueues d'' :=
  ⟨h'.avail.trans h.avail, h'.used.trans h.used, h'.taken.trans h.taken, h'.busy.trans h.busy⟩

/-- Between `d` and `d'` the descriptors `idx` have become free, and no other field that matters
to the others has changed. -/
structure Frees (idx : List ℕ) (d d' : Disk β) : Prop extends SameQueues d d' where
  free : ∀ x, d'.free x = if x ∈ idx then true else d.free x
  desc : ∀ x ∉ idx, d'.desc x = d.desc x
  info : d'.info = d.info

omit [DecidableEq β] in
/-- `free_desc` of a descriptor in use. -/
theorem exists_freeDesc (hi : i < NUM) (hf : d.free i = false) :
    ∃ d', d.freeDesc i = some d' ∧ d.Frees [i] d' := by
  have hlt : ¬ NUM ≤ i := by omega
  have he : d.freeDesc i = some { d with
      desc := Function.update d.desc i { addr := .null, len := 0, flags := 0, next := 0 }
      free := Function.update d.free i true } := by
    rw [freeDesc, if_neg hlt, hf, if_neg Bool.false_ne_true]
  refine ⟨_, he, ⟨rfl, rfl, rfl, rfl⟩, fun x => ?_, fun x hx => ?_, rfl⟩
  · simp only [List.mem_singleton, Function.update_apply]
  · exact Function.update_of_ne (List.mem_singleton.not.1 hx) ..

omit [DecidableEq β] in
theorem Frees.cons {d'' : Disk β} (h : d.Frees [i] d') (h' : d'.Frees idx d'') :
    d.Frees (i :: idx) d'' where
  toSameQueues := h.toSameQueues.trans h'.toSameQueues
  free x := by
    rw [h'.free, h.free]
    simp only [List.mem_cons, List.not_mem_nil, or_false]
    by_cases hx : x ∈ idx <;> by_cases hxi : x = i <;> simp [hx, hxi]
  desc x hx := by
    rw [List.mem_cons, not_or] at hx
    rw [h'.desc x hx.2, h.desc x (by simpa using hx.1)]
  info := h'.info.trans h.info

omit [DecidableEq β] in
theorem exists_freeDescs (hn : idx.Nodup) (hi : ∀ x ∈ idx, x < NUM ∧ d.free x = false) :
    ∃ d', d.freeDescs idx = some d' ∧ d.Frees idx d' := by
  induction idx generalizing d with
  | nil => exact ⟨d, rfl, SameQueues.refl d, fun x => by simp, fun _ _ => rfl, rfl⟩
  | cons i idx ih =>
    obtain ⟨hni, hn⟩ := List.nodup_cons.1 hn
    obtain ⟨hlt, hf⟩ := hi i List.mem_cons_self
    obtain ⟨d₁, he₁, h₁⟩ := exists_freeDesc hlt hf
    obtain ⟨d₂, he₂, h₂⟩ := ih (d := d₁) hn fun x hx => by
      obtain ⟨hxl, hxf⟩ := hi x (List.mem_cons_of_mem _ hx)
      refine ⟨hxl, ?_⟩
      rw [h₁.free, if_neg (by simpa using ne_of_mem_of_not_mem hx hni), hxf]
    refine ⟨d₂, ?_, h₁.cons h₂⟩
    simp only [freeDescs, bind, Option.bind, he₁, he₂]

omit [DecidableEq β] in
/-- `alloc_desc` finds a free descriptor. -/
theorem of_allocDesc (h : d.allocDesc = some (i, d')) :
    i < NUM ∧ d.free i = true ∧ d' = { d with free := Function.update d.free i false } := by
  simp only [allocDesc, Option.map_eq_some_iff, Prod.mk.injEq] at h
  obtain ⟨x, hx, rfl, rfl⟩ := h
  have hm := List.mem_of_find?_eq_some hx
  exact ⟨List.mem_range.1 hm, by simpa using List.find?_some hx, rfl⟩

omit [DecidableEq β] in
/-- The loop of `alloc3_desc`: it goes on to have `k` more descriptors, or it gives all of them
back. `free` are the free descriptors before the first round. -/
theorem exists_allocDescs {free : ℕ → Bool} (hn : idx.Nodup)
    (hi : ∀ x ∈ idx, x < NUM ∧ free x = true)
    (hd : d.free = fun x => if x ∈ idx then false else free x) (k : ℕ) :
    (∃ new, d.allocDescs idx k
        = some (some new, { d with free := fun x => if x ∈ new then false else free x }) ∧
      new.length = idx.length + k ∧ new.Nodup ∧ ∀ x ∈ new, x < NUM ∧ free x = true) ∨
    ∃ d', d.allocDescs idx k = some (none, d') ∧ d'.free = free ∧
      (∀ x, free x = false → d'.desc x = d.desc x) ∧ d.SameQueues d' ∧ d'.info = d.info := by
  induction k generalizing d idx with
  | zero =>
    refine Or.inl ⟨idx, ?_, rfl, hn, hi⟩
    rw [allocDescs, ← hd]
  | succ k ih =>
    rw [allocDescs]
    cases ha : d.allocDesc with
    | some r =>
      obtain ⟨i, d₁⟩ := r
      obtain ⟨hlt, hf, rfl⟩ := of_allocDesc ha
      rw [hd] at hf
      have hni : i ∉ idx := fun hm => by simp [hm] at hf
      have hfi : free i = true := by simpa [hni] using hf
      have hd₁ : Function.update d.free i false
          = fun x => if x ∈ idx ++ [i] then false else free x := by
        funext x
        rw [hd]
        by_cases hx : x = i
        · subst hx
          simp
        · simp [hx]
      have hlen : (idx ++ [i]).length + k = idx.length + (k + 1) := by
        rw [List.length_append, List.length_singleton]
        omega
      have hnodup : (idx ++ [i]).Nodup := by grind
      rcases ih (d := { d with free := Function.update d.free i false }) hnodup (by grind) hd₁ with
        ⟨new, he, hl, hnew⟩ | ⟨d', he, h'⟩
      · exact Or.inl ⟨new, he, hl.trans hlen, hnew⟩
      · obtain ⟨hfree, hdesc, hq, hinfo⟩ := h'
        exact Or.inr ⟨d', he, hfree, hdesc, ⟨hq.avail, hq.used, hq.taken, hq.busy⟩, hinfo⟩
    | none =>
      obtain ⟨d', he, h'⟩ := exists_freeDescs (d := d) hn fun x hx =>
        ⟨(hi x hx).1, by rw [hd]; simp [hx]⟩
      refine Or.inr ⟨d', ?_, ?_, fun x hx => h'.desc x fun hm => ?_, h'.toSameQueues, h'.info⟩
      · simp only [he, Option.map_some]
      · funext x
        rw [h'.free, hd]
        by_cases hx : x ∈ idx
        · simp [hx, (hi x hx).2]
        · simp [hx]
      · rw [(hi x hm).2] at hx
        cases hx

omit [DecidableEq β] in
/-- `alloc3_desc` finds three free descriptors or leaves the free set as it is. -/
theorem exists_alloc3Desc (d : Disk β) :
    (∃ new, d.alloc3Desc
        = some (some new, { d with free := fun x => if x ∈ new then false else d.free x }) ∧
      new.length = 3 ∧ new.Nodup ∧ ∀ x ∈ new, x < NUM ∧ d.free x = true) ∨
    ∃ d', d.alloc3Desc = some (none, d') ∧ d'.free = d.free ∧
      (∀ x, d.free x = false → d'.desc x = d.desc x) ∧ d.SameQueues d' ∧ d'.info = d.info := by
  have hd : d.free = fun x => if x ∈ ([] : List ℕ) then false else d.free x := by
    funext x
    simp
  exact exists_allocDescs List.nodup_nil (fun x hx => (List.not_mem_nil hx).elim) hd 3

/-! ## Chains -/

/-- The descriptors `i`, `j`, `k` form a chain. -/
structure Linked (d : Disk β) (i j k : ℕ) : Prop where
  first : (d.desc i).flags % 2 = VRING_DESC_F_NEXT
  next : (d.desc i).next = j
  second : (d.desc j).flags % 2 = VRING_DESC_F_NEXT
  next' : (d.desc j).next = k
  third : (d.desc k).flags % 2 ≠ VRING_DESC_F_NEXT

/-- The descriptors `i`, `j`, `k` form a chain for a request of `b`. -/
structure Chain (d : Disk β) (b : β) (i j k : ℕ) : Prop extends d.Linked i j k where
  status : (d.desc k).addr = .status i
  buf : (d.info i).b = some b

omit [DecidableEq β] in
theorem Chain.last (h : d.Chain b i j k) : d.last i = d.desc k := by
  rw [Disk.last, h.next, h.next']

omit [DecidableEq β] in
/-- A chain is not changed by what happens to other descriptors. -/
theorem Chain.congr (h : d.Chain b i j k) (hd : ∀ x ∈ [i, j, k], d'.desc x = d.desc x)
    (hb : (d'.info i).b = (d.info i).b) : d'.Chain b i j k := by
  have hi := hd i (by simp)
  have hj := hd j (by simp)
  have hk := hd k (by simp)
  refine ⟨⟨?_, ?_, ?_, ?_, ?_⟩, ?_, hb.trans h.buf⟩
  · rw [hi, h.first]
  · rw [hi, h.next]
  · rw [hj, h.second]
  · rw [hj, h.next']
  · rw [hk]
    exact h.third
  · rw [hk, h.status]

theorem format_desc {blockno : ℕ} {write : Bool} {x : ℕ} (hx : x ∉ [i, j, k]) :
    (d.format b blockno write i j k).desc x = d.desc x := by
  simp only [List.mem_cons, List.not_mem_nil, or_false, not_or] at hx
  simp only [format, Function.update_of_ne hx.2.2, Function.update_of_ne hx.2.1,
    Function.update_of_ne hx.1]

theorem format_info {blockno : ℕ} {write : Bool} {x : ℕ} (hx : x ≠ i) :
    (d.format b blockno write i j k).info x = d.info x :=
  Function.update_of_ne hx ..

theorem chain_format (hn : [i, j, k].Nodup) (blockno : ℕ) (write : Bool) :
    (d.format b blockno write i j k).Chain b i j k := by
  simp only [List.nodup_cons, List.mem_cons, List.not_mem_nil, or_false, not_or, List.nodup_nil,
    and_true, not_false_iff] at hn
  obtain ⟨⟨hij, hik⟩, hjk⟩ := hn
  have hi : (d.format b blockno write i j k).desc i
      = { addr := .op i, len := 16, flags := VRING_DESC_F_NEXT, next := j } := by
    simp only [format, Function.update_of_ne hik, Function.update_of_ne hij, Function.update_self]
  have hj : (d.format b blockno write i j k).desc j
      = { addr := .data b, len := 1024,
          flags := (if write then 0 else VRING_DESC_F_WRITE) + VRING_DESC_F_NEXT, next := k } := by
    simp only [format, Function.update_of_ne hjk, Function.update_self]
  have hk : (d.format b blockno write i j k).desc k
      = { addr := .status i, len := 1, flags := VRING_DESC_F_WRITE, next := 0 } := by
    simp only [format, Function.update_self]
  refine ⟨⟨?_, ?_, ?_, ?_, ?_⟩, ?_, ?_⟩
  · rw [hi]; rfl
  · rw [hi]
  · rw [hj]
    show ((if write then 0 else VRING_DESC_F_WRITE) + VRING_DESC_F_NEXT) % 2 = VRING_DESC_F_NEXT
    cases write <;> decide
  · rw [hj]
  · rw [hk]
    show VRING_DESC_F_WRITE % 2 ≠ VRING_DESC_F_NEXT
    decide
  · rw [hk]
  · simp only [format, Function.update_self]

omit [DecidableEq β] in
/-- `free_chain` frees the three descriptors of a chain. -/
theorem Linked.exists_freeChain (h : d.Linked i j k) (hn : [i, j, k].Nodup)
    (hi : ∀ x ∈ [i, j, k], x < NUM ∧ d.free x = false) :
    ∃ d', d.freeChain (NUM + 1) i = some d' ∧ d.Frees [i, j, k] d' := by
  simp only [List.nodup_cons, List.mem_cons, List.not_mem_nil, or_false, not_or, List.nodup_nil,
    and_true, not_false_iff] at hn
  obtain ⟨⟨hij, hik⟩, hjk⟩ := hn
  obtain ⟨hil, hif⟩ := hi i (by simp)
  obtain ⟨hjl, hjf⟩ := hi j (by simp)
  obtain ⟨hkl, hkf⟩ := hi k (by simp)
  obtain ⟨d₁, he₁, h₁⟩ := exists_freeDesc hil hif
  obtain ⟨d₂, he₂, h₂⟩ := exists_freeDesc (d := d₁) hjl (by simp [h₁.free, Ne.symm hij, hjf])
  obtain ⟨d₃, he₃, h₃⟩ := exists_freeDesc (d := d₂) hkl
    (by simp [h₂.free, h₁.free, Ne.symm hik, Ne.symm hjk, hkf])
  have hj : d₁.desc j = d.desc j := h₁.desc j (by simpa using Ne.symm hij)
  have hk : d₂.desc k = d.desc k :=
    (h₂.desc k (by simpa using Ne.symm hjk)).trans (h₁.desc k (by simpa using Ne.symm hik))
  refine ⟨d₃, ?_, h₁.cons (h₂.cons h₃)⟩
  simp only [NUM, freeChain, bind, Option.bind, he₁, h.first, if_true, h.next, hj, he₂, h.second,
    h.next', hk, he₃, if_neg h.third]

omit [DecidableEq β] in
/-- The end of `virtio_disk_rw` frees the chain. -/
theorem Chain.exists_finish (h : d.Chain b i j k) (hn : [i, j, k].Nodup)
    (hi : ∀ x ∈ [i, j, k], x < NUM ∧ d.free x = false) :
    ∃ d', d.finish i = some d' ∧ d.SameQueues d' ∧
      (∀ x, d'.free x = if x ∈ [i, j, k] then true else d.free x) ∧
      (∀ x ∉ [i, j, k], d'.desc x = d.desc x) ∧ ∀ x ≠ i, d'.info x = d.info x := by
  have hl : Disk.Linked { d with info := Function.update d.info i { d.info i with b := none } }
      i j k := ⟨h.first, h.next, h.second, h.next', h.third⟩
  obtain ⟨d', he, hf⟩ := hl.exists_freeChain hn hi
  refine ⟨d', he, ⟨hf.avail, hf.used, hf.taken, hf.busy⟩, hf.free, hf.desc, fun x hx => ?_⟩
  rw [hf.info]
  exact Function.update_of_ne hx ..

end Disk

end Xv6.Virtio
