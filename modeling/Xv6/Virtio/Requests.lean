import Xv6.Virtio.Protocol

/-!
# Requests

What a process may rely on. `progress p h` follows the request of `p` through the history `h` of a
run: it is published, completed by the device, and freed, and only then does `virtio_disk_rw`
return. `progress p h` is `none` when the history does not keep to this order, which no run does.
-/

namespace Xv6.Virtio

variable {κ β : Type} [DecidableEq κ] [DecidableEq β] {blockno : β → ℕ} {s s' : State κ β} {p : κ}

/-! ## The order of a request -/

/-- Where a request is. -/
inductive Phase
  | idle
  | published (idx : List ℕ)
  | completed (idx : List ℕ)
  | freed

/-- What an event means for the request of `p`. The device completes the chain that starts at the
first descriptor of the request, once. -/
def Phase.next (p : κ) : Event κ → Phase → Option Phase
  | .publish q idx, g =>
    if q = p then
      match g with
      | .idle => some (.published idx)
      | _ => none
    else some g
  | .complete i, .published (j :: idx) =>
    if i = j then some (.completed (j :: idx)) else some (.published (j :: idx))
  | .complete i, .completed (j :: idx) => if i = j then none else some (.completed (j :: idx))
  | .finish q, g =>
    if q = p then
      match g with
      | .completed _ => some .freed
      | _ => none
    else some g
  | .ret q, g =>
    if q = p then
      match g with
      | .freed => some .idle
      | _ => none
    else some g
  | _, g => some g

/-- Where the request of `p` is after a history. -/
def progress (p : κ) : List (Event κ) → Option Phase
  | [] => some .idle
  | e :: h => (progress p h).bind (Phase.next p e)

/-- The chains that the device has not completed. -/
def Disk.pending (d : Disk β) : List ℕ := d.avail.contents ++ d.taken

/-- Where the request of a process at `pc` is. -/
def Pc.InPhase (d : Disk β) : Pc β → Phase → Prop
  | .wait _ idx, g | .sleepDisk _ idx, g =>
    ∃ i l, idx = i :: l ∧
      (g = .published idx ∧ i ∈ d.pending ∨ g = .completed idx ∧ i ∉ d.pending)
  | .finish _ idx, g => ∃ i l, idx = i :: l ∧ g = .completed idx
  | .leave _, g => g = .freed
  | _, g => g = .idle

/-- The request of each process is where its program counter says. -/
def Tracks (h : List (Event κ)) (s : State κ β) : Prop :=
  ∀ p, ∃ g, progress p h = some g ∧ (s.pc p).InPhase s.disk g

variable {h : List (Event κ)} {pc pc' : Pc β} {d d' : Disk β} {g : Phase}

omit [DecidableEq β] in
theorem Pc.InPhase.congr (hg : pc.InPhase d g)
    (hd : ∀ b i l, pc.request = some (b, i :: l) → (i ∈ d'.pending ↔ i ∈ d.pending)) :
    pc.InPhase d' g := by
  cases pc with
  | wait b idx | sleepDisk b idx =>
    obtain ⟨i, l, rfl, hg⟩ := hg
    refine ⟨i, l, rfl, ?_⟩
    rw [hd b i l rfl]
    exact hg
  | _ => exact hg

omit [DecidableEq β] in
theorem Pc.InPhase.acquire (hg : pc.InPhase d g) (h : pc.acquired = some pc') :
    pc'.InPhase d g := by
  cases pc with
  | start _ _ | sleepAlloc _ _ | sleepDisk _ _ | intr =>
    cases h
    exact hg
  | _ => cases h

namespace Tracks

omit [DecidableEq β] in
/-- A step of `p`. -/
theorem goto (ht : Tracks h s) {e : Event κ} {holder : Option κ}
    (he : ∀ q, q ≠ p → ∀ g, Phase.next q e g = some g)
    (hd : ∀ q, q ≠ p → ∀ b i l, (s.pc q).request = some (b, i :: l) →
      (i ∈ d.pending ↔ i ∈ s.disk.pending))
    (hp : ∀ g, progress p h = some g → (s.pc p).InPhase s.disk g →
      ∃ g', Phase.next p e g = some g' ∧ pc.InPhase d g') :
    Tracks (e :: h) (s.goto p pc d holder) := by
  intro q
  obtain ⟨g, hg, hq⟩ := ht q
  by_cases hqp : q = p
  · subst hqp
    obtain ⟨g', hn, hg'⟩ := hp g hg hq
    refine ⟨g', ?_, ?_⟩
    · rw [progress, hg, Option.bind_some, hn]
    · rw [State.goto_self]
      exact hg'
  · refine ⟨g, ?_, ?_⟩
    · rw [progress, hg, Option.bind_some, he q hqp]
    · rw [State.goto_of_ne s hqp]
      exact hq.congr (hd q hqp)

omit [DecidableEq β] in
/-- A step of `p` that is no event of its request. -/
theorem other (ht : Tracks h s) {holder : Option κ} (hd : d.pending = s.disk.pending)
    (hp : ∀ g, (s.pc p).InPhase s.disk g → pc.InPhase d g) :
    Tracks (.other :: h) (s.goto p pc d holder) := by
  refine ht.goto (fun _ _ _ => rfl) (fun _ _ _ _ _ _ => ?_) fun g _ hg => ⟨g, rfl, hp g hg⟩
  rw [hd]

omit [DecidableEq β] in
theorem pending_eq (hq : d.SameQueues d') : d'.pending = d.pending := by
  rw [Disk.pending, Disk.pending, hq.avail, hq.taken]

theorem publish (ht : Tracks h s) (inv : Inv s) {b : β} {idx : List ℕ}
    (hpc : s.pc p = .publish b idx) :
    Tracks (.publish p idx :: h) (s.goto p (.wait b idx) s.disk.publish s.holder) := by
  have hf : (s.pc p).formatted = some (b, idx) := by rw [hpc]; rfl
  obtain ⟨i, j, k, rfl, -⟩ := (inv.ok p).exists_idx hf
  have hmem : ∀ x, x ∈ s.disk.publish.pending ↔ x ∈ s.disk.pending ∨ x = i := by
    intro x
    rw [Disk.pending, inv.contents_publish hpc, Disk.pending]
    show x ∈ s.disk.avail.contents ++ [i] ++ s.disk.taken ↔ _
    simp only [List.mem_append, List.mem_singleton]
    tauto
  refine ht.goto (fun q hq g => ?_) (fun q hq b' x l hr => ?_) fun g hg hph => ?_
  · cases g <;> exact if_neg (Ne.symm hq)
  · have hne : x ≠ i := by
      rintro rfl
      refine inv.notMem_idx (p := p) (i := x) ?_ q hq ?_
      · rw [hpc]
        exact List.mem_cons_self
      · rw [Pc.idx_of_request hr]
        exact List.mem_cons_self
    rw [hmem, or_iff_left hne]
  · rw [hpc] at hph
    cases hph
    exact ⟨.published [i, j, k], if_pos rfl, i, [j, k], rfl,
      Or.inl ⟨rfl, (hmem i).2 (Or.inr rfl)⟩⟩

/-- When `b->disk` is 0 the device has completed the request. -/
theorem done (ht : Tracks h s) (inv : Inv s) {b : β} {idx : List ℕ} (hpc : s.pc p = .wait b idx)
    (hb : s.disk.busy b = false) :
    Tracks (.other :: h) (s.goto p (.finish b idx) s.disk s.holder) := by
  refine ht.other rfl fun g hg => ?_
  rw [hpc] at hg
  obtain ⟨i, l, rfl, ⟨-, hi⟩ | ⟨rfl, -⟩⟩ := hg
  · obtain ⟨q, b', l', hr, hb'⟩ := inv.owner i (List.mem_append_left _ hi)
    have hmi : i ∈ (s.pc q).idx := by
      rw [Pc.idx_of_request hr]
      exact List.mem_cons_self
    have hmp : i ∈ (s.pc p).idx := by
      rw [hpc]
      exact List.mem_cons_self
    obtain rfl := inv.disjoint q p i hmi hmp
    rw [hpc] at hr
    cases hr
    rw [hb] at hb'
    cases hb'
  · exact ⟨i, l, rfl, rfl⟩

theorem finish (ht : Tracks h s) (inv : Inv s) {b : β} {i : ℕ} {idx : List ℕ}
    (hpc : s.pc p = .finish b (i :: idx)) (hd : s.disk.finish i = some d) :
    Tracks (.finish p :: h) (s.goto p (.leave b) d s.holder) := by
  obtain ⟨i', j, k, d', hl, he, hq, -⟩ := inv.exists_finish hpc
  cases hl
  rw [hd] at he
  cases he
  refine ht.goto (fun q hq g => ?_) (fun q _ b' x l _ => ?_) fun g hg hph => ?_
  · cases g <;> exact if_neg (Ne.symm hq)
  · rw [pending_eq hq]
  · rw [hpc] at hph
    obtain ⟨_, _, -, rfl⟩ := hph
    exact ⟨.freed, if_pos rfl, rfl⟩

omit [DecidableEq β] in
theorem ret (ht : Tracks h s) {b : β} (hpc : s.pc p = .leave b) :
    Tracks (.ret p :: h) (s.goto p .idle s.disk none) := by
  refine ht.goto (fun q hq g => ?_) (fun _ _ _ _ _ _ => Iff.rfl) fun g hg hph => ?_
  · cases g <;> exact if_neg (Ne.symm hq)
  · rw [hpc] at hph
    cases hph
    exact ⟨.idle, if_pos rfl, rfl⟩

omit [DecidableEq β] in
theorem take (ht : Tracks h s) (more : s.disk.avail.nread ≠ s.disk.avail.nwrite) :
    Tracks (.other :: h) { s with disk := s.disk.take } := by
  intro q
  obtain ⟨g, hg, hph⟩ := ht q
  refine ⟨g, ?_, hph.congr fun _ i _ _ => ?_⟩
  · rw [progress, hg]
    rfl
  · have hmem : i ∈ s.disk.avail.contents ↔ i = s.disk.avail.front ∨
        i ∈ s.disk.avail.pop.contents := by
      rw [Ring.contents_pop (mt Ring.count_eq_zero.1 more), List.mem_cons]
    show i ∈ s.disk.avail.pop.contents ++ (s.disk.taken ++ [s.disk.avail.front]) ↔
      i ∈ s.disk.avail.contents ++ s.disk.taken
    simp only [List.mem_append, List.mem_singleton, hmem]
    tauto

theorem complete (ht : Tracks h s) (inv : Inv s) {i : ℕ} (hi : i ∈ s.disk.taken) :
    Tracks (.complete i :: h) { s with disk := s.disk.complete i } := by
  have hnodup : s.disk.pending.Nodup := (List.nodup_append.1 inv.nodup).1
  obtain ⟨-, hnt, hdisj⟩ := List.nodup_append.1 hnodup
  have hflying : i ∈ s.disk.flying := List.mem_append_left _ (List.mem_append_right _ hi)
  have hpending : ∀ x, x ∈ (s.disk.complete i).pending ↔ x ∈ s.disk.pending ∧ x ≠ i := by
    intro x
    show x ∈ s.disk.avail.contents ++ s.disk.taken.erase i ↔
      x ∈ s.disk.avail.contents ++ s.disk.taken ∧ x ≠ i
    rw [List.mem_append, List.mem_append, hnt.mem_erase_iff]
    have hne : x ∈ s.disk.avail.contents → x ≠ i := fun hx => hdisj x hx i hi
    tauto
  intro q
  obtain ⟨g, hg, hph⟩ := ht q
  have hother : (∀ b x l, (s.pc q).request = some (b, x :: l) → x ≠ i) →
      (s.pc q).InPhase (s.disk.complete i) g := fun hne =>
    hph.congr fun b x l hr => by rw [hpending, and_iff_left (hne b x l hr)]
  simp only [progress, hg, Option.bind_some]
  cases hpc : s.pc q with
  | wait b idx | sleepDisk b idx =>
    have hph' := hph
    rw [hpc] at hph'
    obtain ⟨x, l, rfl, hx⟩ := hph'
    by_cases hxi : i = x
    · subst hxi
      rcases hx with ⟨rfl, -⟩ | ⟨-, hx⟩
      · exact ⟨.completed (i :: l), if_pos rfl, i, l, rfl,
          Or.inr ⟨rfl, fun hm => ((hpending i).1 hm).2 rfl⟩⟩
      · exact (hx (List.mem_append_right _ hi)).elim
    · refine ⟨g, ?_, ?_⟩
      · rcases hx with ⟨rfl, -⟩ | ⟨rfl, -⟩ <;> exact if_neg hxi
      · rw [← hpc]
        refine hother fun b' x' l' hr => ?_
        rw [hpc] at hr
        cases hr
        exact Ne.symm hxi
  | finish b idx =>
    have hph' := hph
    rw [hpc] at hph'
    obtain ⟨x, l, rfl, rfl⟩ := hph'
    have hxi : i ≠ x := by
      rintro rfl
      refine inv.notMem_flying (p := q) ?_ ?_ hflying
      · rw [hpc]
        exact List.mem_cons_self
      · rw [hpc]
        rfl
    exact ⟨.completed (x :: l), if_neg hxi, x, l, rfl, rfl⟩
  | leave b =>
    rw [hpc] at hph
    cases hph
    exact ⟨.freed, rfl, rfl⟩
  | _ =>
    rw [hpc] at hph
    cases hph
    exact ⟨.idle, rfl, rfl⟩

/-- **Every step keeps to the order of a request.** -/
theorem step {e : Event κ} (ht : Tracks h s) (inv : Inv s) (t : Step blockno s e s') :
    Tracks (e :: h) s' := by
  cases t with
  | call hpc _ | callIntr hpc | intrRet hpc _ =>
    refine ht.other rfl fun g hg => ?_
    rw [hpc] at hg
    exact hg
  | acquire hpc free => exact ht.other rfl fun g hg => hg.acquire hpc
  | alloc hpc hd =>
    rcases s.disk.exists_alloc3Desc with ⟨new, he, -⟩ | ⟨d', he, -⟩
    · rw [hd] at he
      cases he
      refine ht.other rfl fun g hg => ?_
      rw [hpc] at hg
      exact hg
    · rw [hd] at he
      cases he
  | allocFail hpc hd =>
    rcases s.disk.exists_alloc3Desc with ⟨new, he, -⟩ | ⟨d', he, -, -, hq, -⟩
    · rw [hd] at he
      cases he
    · rw [hd] at he
      cases he
      refine ht.other (pending_eq hq) fun g hg => ?_
      rw [hpc] at hg
      exact hg
  | format hpc =>
    refine ht.other ?_ fun g hg => ?_
    · rw [Disk.pending, inv.contents_format hpc]
      rfl
    · rw [hpc] at hg
      exact hg
  | publish hpc => exact ht.publish inv hpc
  | sleep hpc hb =>
    refine ht.other rfl fun g hg => ?_
    rw [hpc] at hg
    exact hg
  | done hpc hb => exact ht.done inv hpc hb
  | finish hpc hd => exact ht.finish inv hpc hd
  | ret hpc => exact ht.ret hpc
  | intr hpc more hd =>
    obtain ⟨q, b, j, k, -, -, he⟩ := inv.exists_intr more
    rw [hd] at he
    cases he
    refine ht.other rfl fun g hg => ?_
    rw [hpc] at hg
    exact hg
  | take more => exact ht.take more
  | complete hi => exact ht.complete inv hi

theorem of_run (r : (virtio κ blockno).Run h s) : Tracks h s := by
  refine r.invariant (I := Tracks) ?_ fun _ _ _ _ r ht t => ht.step (Inv.of_run r) t
  rintro s rfl p
  exact ⟨.idle, rfl, rfl⟩

end Tracks

/-! ## The result -/

/-- The protocol between the callers of `virtio_disk_rw` and the device, in a state `s` with the
history `h`. -/
structure Protocol (h : List (Event κ)) (s : State κ β) : Prop where
  /-- A request has three distinct descriptors, which are not free and no other request's. -/
  descriptors : ∀ p, (s.pc p).idx ≠ [] → (s.pc p).idx.length = 3 ∧ (s.pc p).idx.Nodup ∧
    ∀ i ∈ (s.pc p).idx, i < NUM ∧ s.disk.free i = false ∧ ∀ q, q ≠ p → i ∉ (s.pc q).idx
  /-- `alloc3_desc` does not panic, and when it fails the same descriptors are free. -/
  alloc : ∃ r d, s.disk.alloc3Desc = some (r, d) ∧ (r = none → d.free = s.disk.free)
  /-- `free_chain` does not panic, and frees the descriptors of the request, all in use. -/
  finish : ∀ p b idx, s.pc p = .finish b idx → ∃ i l d, idx = i :: l ∧
    s.disk.finish i = some d ∧ ∀ x, s.disk.free x = (d.free x && !idx.contains x) ∧
      (x ∈ idx → d.free x = true)
  /-- `virtio_disk_intr` finds a status of 0 and a buffer. -/
  intr : s.disk.used.nread ≠ s.disk.used.nwrite → s.disk.intr ≠ none
  /-- An entry is written to the `avail` ring where there is none that the device has not
  consumed. -/
  slot : ∀ p b write idx, s.pc p = .format b write idx → ∀ i < s.disk.avail.count,
    Ring.place NUM (s.disk.avail.nread + BitVec.ofNat 16 i) ≠ Ring.place NUM s.disk.avail.nwrite
  /-- A request is published, completed, and freed once, in this order, before the return. -/
  order : ∀ p, progress p h ≠ none

/-- **The disk request protocol** holds in every run of any number of processes with the device. -/
theorem protocol_of_run {κ β : Type} [DecidableEq κ] [DecidableEq β] {blockno : β → ℕ}
    {h : List (Event κ)} {s : State κ β} (r : (virtio κ blockno).Run h s) : Protocol h s := by
  have inv := Inv.of_run r
  refine ⟨fun p hp => ?_, ?_, fun p b idx hpc => ?_, fun more => ?_, ?_, fun p => ?_⟩
  · refine ⟨?_, (inv.ok p).nodup, fun i hi => ?_⟩
    · have hs := (inv.ok p).shape
      cases hpc : s.pc p with
      | format _ _ _ | publish _ _ | wait _ _ | sleepDisk _ _ | finish _ _ =>
        rw [hpc] at hs
        exact hs
      | _ =>
        rw [hpc] at hp
        exact (hp rfl).elim
    · obtain ⟨hlt, hf⟩ := (inv.ok p).owns i hi
      exact ⟨hlt, hf, inv.notMem_idx hi⟩
  · rcases s.disk.exists_alloc3Desc with ⟨new, he, -⟩ | ⟨d, he, hf, -⟩
    · exact ⟨some new, _, he, nofun⟩
    · exact ⟨none, d, he, fun _ => hf⟩
  · have hown := (inv.ok p).owns
    obtain ⟨i, j, k, d, rfl, he, -, hf, -⟩ := inv.exists_finish hpc
    rw [hpc] at hown
    refine ⟨i, [j, k], d, rfl, he, fun x => ⟨?_, fun hx => by rw [hf, if_pos hx]⟩⟩
    by_cases hx : x ∈ [i, j, k]
    · rw [(hown x hx).2, List.contains_iff_mem.2 hx, Bool.not_true, Bool.and_false]
    · rw [hf, if_neg hx, Bool.eq_false_iff.2 (mt List.contains_iff_mem.1 hx), Bool.not_false,
        Bool.and_true]
  · obtain ⟨p, b, j, k, -, -, he⟩ := inv.exists_intr more
    rw [he]
    exact Option.some_ne_none _
  · intro p b write idx hpc i hi
    have hs := (inv.ok p).shape
    rw [hpc] at hs
    obtain ⟨x, l, rfl⟩ := List.exists_cons_of_length_pos (by rw [hs]; decide : 0 < idx.length)
    refine Ring.place_ne_nwrite (by decide) ?_ hi
    refine (Inv.count_avail_le s.disk).trans_lt (inv.flying_length_lt (p := p) (i := x) ?_ ?_)
    · rw [hpc]
      exact List.mem_cons_self
    · rw [hpc]
      rfl
  · obtain ⟨g, hg, -⟩ := Tracks.of_run r p
    rw [hg]
    exact Option.some_ne_none g

/-- A request of the process `true`, completed by an interrupt that `false` takes. -/
theorem protocol_of_request : ∃ (h : List (Event Bool)) (s : State Bool Unit),
    Event.ret true ∈ h ∧ Protocol h s := by
  have r₀ : (virtio Bool fun _ : Unit => 0).Run [] _ := .init rfl
  have r₁ := r₀.step (@Step.call _ _ _ _ _ _ true () true rfl nofun)
  have r₂ := r₁.step (Step.acquire (p := true) rfl rfl)
  have r₃ := r₂.step (Step.alloc (p := true) rfl rfl)
  have r₄ := r₃.step (Step.format (p := true) rfl)
  have r₅ := r₄.step (Step.publish (p := true) rfl)
  have r₆ := r₅.step (Step.sleep (p := true) rfl rfl)
  have r₇ := r₆.step (Step.take (by decide))
  have r₈ := r₇.step (Step.complete (i := 0) List.mem_cons_self)
  have r₉ := r₈.step (Step.callIntr (p := false) rfl)
  have r₁₀ := r₉.step (Step.acquire (p := false) rfl rfl)
  have r₁₁ := r₁₀.step (Step.intr (p := false) rfl (by decide) rfl)
  have r₁₂ := r₁₁.step (Step.intrRet (p := false) rfl rfl)
  have r₁₃ := r₁₂.step (Step.acquire (p := true) rfl rfl)
  have r₁₄ := r₁₃.step (Step.done (p := true) rfl rfl)
  have r₁₅ := r₁₄.step (Step.finish (p := true) rfl rfl)
  have r₁₆ := r₁₅.step (Step.ret (p := true) rfl)
  exact ⟨_, _, List.mem_cons_self, protocol_of_run r₁₆⟩

end Xv6.Virtio
