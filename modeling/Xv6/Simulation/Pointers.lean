import Xv6.Simulation.Heap

/-!
# The pointers of the main program

In every run of the loop with random calls the pointers of `p` are the addresses of the allocated
chunks, so that no call of `free` fails and no chunk is lost.
-/

namespace Xv6.Simulation.Malloc

/-- `L` has the keys of `p`, and `p` has the addresses of the chunks. -/
structure Main.Linked (o : Options) (s : Main) : Prop where
  whole : Whole o s.m
  keys : s.p.map Prod.fst = s.L
  nodup : s.L.Nodup
  lt : ∀ i ∈ s.L, i < s.c
  pointers : (s.p.map Prod.snd).Perm (s.m.sizemap.map Prod.fst)
  /-- No call of `free` has failed. -/
  rcs : ∀ rc ∈ s.rcs, rc = 0

theorem exists_lookup {α β : Type*} [BEq α] [LawfulBEq α] {l : List (α × β)} {a : α}
    (ha : a ∈ l.map Prod.fst) : ∃ b, l.lookup a = some b := by
  obtain ⟨e, he, rfl⟩ := List.mem_map.1 ha
  apply Option.isSome_iff_exists.1
  rw [List.lookup_isSome_iff]
  exact ⟨e, he, beq_self_eq_true _⟩

/-- An address that is in the dictionary can be freed. -/
theorem Heap.free_of_lookup (o : Options) {h : Heap} {addr size : ℤ}
    (hl : h.sizemap.lookup addr = some size) :
    (h.free o addr).2 = 0 ∧ (h.free o addr).1.sizemap = h.sizemap.eraseP fun e => e.1 == addr := by
  rw [Heap.free, hl]
  exact ⟨rfl, rfl⟩

namespace Main.Linked

variable {o : Options} {s : Main}

theorem init (hvalid : o.Valid) : (Main.init ⟨[(o.start, o.size)], []⟩).Linked o where
  whole := Whole.init hvalid
  keys := rfl
  nodup := List.nodup_nil
  lt := by simp [Main.init]
  pointers := List.Perm.refl _
  rcs := by simp [Main.init]

/-- A chunk comes, with its pointer. -/
theorem push (hs : s.Linked o) {m : Heap} (hm : Whole o m) {ptr n : ℤ}
    (hmap : m.sizemap = s.m.sizemap ++ [(ptr, n)]) :
    ({ s with m := m, p := s.p ++ [(s.c, ptr)], L := s.L ++ [s.c], c := s.c + 1 } :
      Main).Linked o where
  whole := hm
  keys := by simp [hs.keys]
  nodup := by
    have hfresh : s.c ∉ s.L := fun hmem => lt_irrefl _ (hs.lt _ hmem)
    exact List.nodup_append.2 ⟨hs.nodup, List.nodup_singleton _, by
      rintro i hi j hj rfl
      exact hfresh (List.mem_singleton.1 hj ▸ hi)⟩
  lt := by
    intro i hi
    rcases List.mem_append.1 hi with hi | hi
    · exact (hs.lt i hi).trans (Nat.lt_succ_self _)
    · rw [List.mem_singleton.1 hi]
      exact Nat.lt_succ_self _
  pointers := by
    rw [hmap, List.map_append, List.map_append]
    exact hs.pointers.append_right _
  rcs := hs.rcs

theorem alloc (hs : s.Linked o) (hvalid : o.Valid) {size : ℤ} (hsize : 0 < size) :
    ∃ s', s.round o (.alloc size) = .ok s' ∧ s'.Linked o := by
  rcases hs.whole.malloc hvalid hsize with
    ⟨count, hcall, -⟩ | ⟨m, k, e, count, hcall, hm, hpick, hmap⟩
  · refine ⟨{ s with c := s.c + 1 }, by simp [Main.round, hcall], ?_⟩
    exact ⟨hs.whole, hs.keys, hs.nodup, fun i hi => (hs.lt i hi).trans (Nat.lt_succ_self _),
      hs.pointers, hs.rcs⟩
  · have hstart := hs.whole.chunks.start_le
      (List.mem_append_left _ (List.mem_of_getElem? hpick.get))
    have hne : e.1 ≠ -1 := by
      have hvalid_start := hvalid.start
      omega
    exact ⟨_, by simp [Main.round, hcall, hne], hs.push hm hmap⟩

/-- A chunk goes, with its pointer. -/
theorem pop (hs : s.Linked o) {m : Heap} (hm : Whole o m) {d i : ℕ} {ptr size : ℤ}
    (hd : s.L[d]? = some i) (hptr : s.p.lookup i = some ptr)
    (hsize : s.m.sizemap.lookup ptr = some size)
    (hmap : m.sizemap = s.m.sizemap.eraseP fun e => e.1 == ptr) :
    ({ s with m := m, p := s.p.eraseP fun e => e.1 == i, L := s.L.eraseIdx d, rcs := 0 :: s.rcs } :
      Main).Linked o where
  whole := hm
  keys := by
    -- the key `i` is once in `L`
    obtain ⟨hlen, hget⟩ := List.getElem?_eq_some_iff.1 hd
    rw [← hs.nodup.erase_getElem d hlen, hget, ← hs.keys, List.erase_eq_eraseP', List.eraseP_map]
    rfl
  nodup := hs.nodup.eraseIdx d
  lt j hj := hs.lt j (List.mem_of_mem_eraseIdx hj)
  pointers := by
    rw [hmap]
    have hold := ((lookup_perm hptr).map Prod.snd).symm.trans
      (hs.pointers.trans ((lookup_perm hsize).map Prod.fst))
    exact hold.cons_inv
  rcs := List.forall_mem_cons.2 ⟨rfl, hs.rcs⟩

theorem free (hs : s.Linked o) (r : ℕ) : ∃ s', s.round o (.free r) = .ok s' ∧ s'.Linked o := by
  by_cases hlen : 0 < s.p.length
  · have hd : r % s.L.length < s.L.length := by
      apply Nat.mod_lt
      rwa [← hs.keys, List.length_map]
    obtain ⟨i, hi⟩ : ∃ i, s.L[r % s.L.length]? = some i := ⟨_, List.getElem?_eq_getElem hd⟩
    have hmem : i ∈ s.p.map Prod.fst := hs.keys ▸ List.mem_of_getElem? hi
    obtain ⟨ptr, hptr⟩ := exists_lookup hmem
    have haddr : ptr ∈ s.m.sizemap.map Prod.fst :=
      hs.pointers.mem_iff.1 (((lookup_perm hptr).map Prod.snd).mem_iff.2 (List.mem_cons_self ..))
    obtain ⟨size, hsize⟩ := exists_lookup haddr
    obtain ⟨hrc, hmap⟩ := Heap.free_of_lookup o hsize
    refine ⟨_, ?_, hs.pop (hs.whole.free ptr) hi hptr hsize hmap⟩
    simp only [Main.round, hlen, if_true, hi, hptr, hrc]
  · exact ⟨s, by simp only [Main.round, hlen, if_false], hs⟩

theorem round (hs : s.Linked o) (hvalid : o.Valid) (op : Op)
    (hop : ∀ size, op = .alloc size → 0 < size) : ∃ s', s.round o op = .ok s' ∧ s'.Linked o := by
  cases op with
  | alloc size => exact hs.alloc hvalid (hop size rfl)
  | free r => exact hs.free r

theorem rounds (hs : s.Linked o) (hvalid : o.Valid) {ops : List Op}
    (hops : ∀ size, .alloc size ∈ ops → 0 < size) :
    ∃ s', ops.foldlM (Main.round o) s = .ok s' ∧ s'.Linked o := by
  induction ops generalizing s with
  | nil => exact ⟨s, rfl, hs⟩
  | cons op ops ih =>
    obtain ⟨s₁, hround, hs₁⟩ := hs.round hvalid op fun size hop =>
      hops size (hop ▸ List.mem_cons_self ..)
    obtain ⟨s₂, hrest, hs₂⟩ := ih hs₁ fun size hop => hops size (List.mem_cons_of_mem _ hop)
    exact ⟨s₂, by rw [List.foldlM_cons, hround]; exact hrest, hs₂⟩

end Main.Linked

/-- **No chunk is lost.** In every run of the loop no look-up and no assertion fails, every call of
`free` succeeds, and the pointers of `p` are the addresses of the allocated chunks. -/
theorem main_frees {o : Options} (hvalid : o.Valid) {ops : List Op}
    (hops : ∀ size, .alloc size ∈ ops → 0 < size) :
    ∃ s, main o ops = .ok s ∧ (∀ rc ∈ s.rcs, rc = 0) ∧
      (s.p.map Prod.snd).Perm (s.m.sizemap.map Prod.fst) ∧ s.p.map Prod.fst = s.L ∧
      Partitions o.start o.size (s.m.freelist ++ s.m.sizemap) := by
  obtain ⟨s, hrun, hs⟩ := (Main.Linked.init hvalid).rounds hvalid hops
  refine ⟨s, ?_, hs.rcs, hs.pointers, hs.keys, hs.whole.chunks⟩
  rw [main, Heap.init, if_pos hvalid.align]
  exact hrun

/-- Two chunks, the second of which goes first. -/
theorem main_frees_two :
    let o : Options := ⟨100, 1000, 0, .worst, .insertFront, false, -1⟩
    ∃ s, main o [.alloc 7, .alloc 9, .free 1, .free 5] = .ok s ∧ (∀ rc ∈ s.rcs, rc = 0) ∧
      (s.p.map Prod.snd).Perm (s.m.sizemap.map Prod.fst) ∧ s.p.map Prod.fst = s.L ∧
      Partitions o.start o.size (s.m.freelist ++ s.m.sizemap) := by
  intro o
  apply main_frees
  · constructor <;> decide
  · simp

example : (main ⟨100, 1000, 0, .best, .addrSort, false, -1⟩
    [.alloc 3, .free 0, .alloc 5, .free 0, .alloc 8, .free 0, .alloc 8, .free 0, .alloc 2,
      .alloc 7]).map (fun s => s.m.freelist) =
    .ok [(1002, 1), (1003, 5), (1015, 1), (1016, 84)] := rfl

end Xv6.Simulation.Malloc
