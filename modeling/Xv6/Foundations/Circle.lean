import Mathlib.Algebra.Order.Ring.Int
import Mathlib.Data.List.Nodup
import Mathlib.Logic.Function.Basic

/-!
# Circular doubly linked lists

A circular list is threaded through nodes by two pointers, `next` and `prev`, and starts at a
head node that carries no element. `Links.Circle L h l` says that the elements after the head
`h` are `l`, in this order, and that `prev` runs through the same circle backwards.

* `Links.unlink` and `Links.push` are the two pieces of pointer surgery, assignment by
  assignment; `Circle.unlink` and `Circle.push` say what they do to the list.
* `Links.scan` follows a pointer from the head until a test succeeds or the head comes back;
  `Circle.scan_next` and `Circle.scan_prev` say that it finds what `List.find?` finds.
-/

namespace Xv6

/-- The two pointers of every node. -/
structure Links (ν : Type*) where
  next : ν → ν
  prev : ν → ν

namespace Links

variable {ν : Type*} [DecidableEq ν] (L : Links ν)

/-- `x->next = y`. -/
def setNext (x y : ν) : Links ν := { L with next := Function.update L.next x y }

/-- `x->prev = y`. -/
def setPrev (x y : ν) : Links ν := { L with prev := Function.update L.prev x y }

/-- `b->next->prev = b->prev; b->prev->next = b->next`. -/
def unlink (b : ν) : Links ν :=
  let L := L.setPrev (L.next b) (L.prev b)
  L.setNext (L.prev b) (L.next b)

/-- `b->next = h->next; b->prev = h; h->next->prev = b; h->next = b`. -/
def push (h b : ν) : Links ν :=
  let L := L.setNext b (L.next h)
  let L := L.setPrev b h
  let L := L.setPrev (L.next h) b
  L.setNext h b

/-- From the node `x` on, follow `step` to the first node with `test`, at most to the head `h` and
for at most `fuel` nodes. -/
def scan (step : ν → ν) (test : ν → Bool) (h : ν) : ℕ → ν → Option ν
  | 0, _ => none
  | fuel + 1, x => if x = h then none else if test x then some x else scan step test h fuel (step x)

/-- From the head `h`, the nodes are `l` and then `h` again, and `prev` is the inverse of
`next`. -/
structure Circle (h : ν) (l : List ν) : Prop where
  nodup : (h :: l).Nodup
  next_eq : (h :: l).map L.next = l ++ [h]
  prev_eq : (l ++ [h]).map L.prev = h :: l

variable {L} {h b : ν} {l l₁ l₂ : List ν}

omit [DecidableEq ν] in
/-- A map over a list does not see an update elsewhere. -/
private theorem map_update_of_notMem {β : Type*} [DecidableEq ν] {f : ν → β} {x : ν} {v : β}
    {l : List ν} (hx : x ∉ l) : l.map (Function.update f x v) = l.map f :=
  List.map_congr_left fun _ hy => Function.update_of_ne (ne_of_mem_of_not_mem hy hx) _ _

namespace Circle

omit [DecidableEq ν] in
/-- The empty list: the head points to itself. -/
theorem empty (hn : L.next h = h) (hp : L.prev h = h) : L.Circle h [] where
  nodup := List.nodup_singleton h
  next_eq := by simp [hn]
  prev_eq := by simp [hp]

omit [DecidableEq ν] in
theorem prev_next (c : L.Circle h l) : ∀ x ∈ h :: l, L.prev (L.next x) = x := by
  have hmap : (h :: l).map (fun x => L.prev (L.next x)) = (h :: l).map id := by
    rw [← c.prev_eq.trans (List.map_id _).symm, ← c.next_eq, List.map_map]
    rfl
  exact fun x hx => List.map_inj_left.1 hmap x hx

omit [DecidableEq ν] in
theorem next_prev (c : L.Circle h l) : ∀ x ∈ h :: l, L.next (L.prev x) = x := by
  have hmap : (l ++ [h]).map (fun x => L.next (L.prev x)) = (l ++ [h]).map id := by
    rw [← c.next_eq.trans (List.map_id _).symm, ← c.prev_eq, List.map_map]
    rfl
  intro x hx
  apply List.map_inj_left.1 hmap x
  rw [List.mem_append, List.mem_singleton]
  exact (List.mem_cons.1 hx).symm

omit [DecidableEq ν] in
/-- What the pointers of a circle say about a node `b`, the node `a` before it and the node `c`
after it. -/
private theorem around (c : L.Circle h (l₁ ++ b :: l₂)) : ∃ p a c q, h :: l₁ = p ++ [a] ∧
    l₂ ++ [h] = c :: q ∧ p.map L.next = l₁ ∧ L.next b = c ∧ l₂.map L.next = q ∧
    l₁.map L.prev = p ∧ L.prev b = a ∧ q.map L.prev = l₂ := by
  obtain ⟨-, next_eq, prev_eq⟩ := c
  obtain ⟨p, a, hp⟩ : ∃ p a, h :: l₁ = p ++ [a] :=
    ⟨_, _, (List.dropLast_append_getLast (List.cons_ne_nil h l₁)).symm⟩
  obtain ⟨c, q, hq⟩ : ∃ c q, l₂ ++ [h] = c :: q := by
    cases l₂ with
    | nil => exact ⟨h, [], rfl⟩
    | cons c l₂ => exact ⟨c, l₂ ++ [h], rfl⟩
  have hlen : p.length = l₁.length := by
    have := congrArg List.length hp
    simpa using this.symm
  have hn : p.map L.next ++ L.next a :: L.next b :: l₂.map L.next = l₁ ++ b :: c :: q := by
    have hl : h :: (l₁ ++ b :: l₂) = p ++ a :: b :: l₂ := by
      rw [← List.cons_append, hp, List.append_assoc, List.singleton_append]
    rw [← hq, ← List.cons_append, ← List.append_assoc, ← next_eq, hl, List.map_append]
    rfl
  have hv : l₁.map L.prev ++ L.prev b :: L.prev c :: q.map L.prev = p ++ a :: b :: l₂ := by
    have hl : l₁ ++ b :: l₂ ++ [h] = l₁ ++ b :: c :: q := by
      rw [List.append_assoc, List.cons_append, hq]
    have hr : p ++ a :: b :: l₂ = h :: (l₁ ++ b :: l₂) := by
      rw [← List.cons_append, hp, List.append_assoc, List.singleton_append]
    rw [hr, ← prev_eq, hl, List.map_append]
    rfl
  obtain ⟨hn₁, hn₂⟩ := List.append_inj hn (by rw [List.length_map, hlen])
  obtain ⟨hv₁, hv₂⟩ := List.append_inj hv (by rw [List.length_map, hlen])
  simp only [List.cons.injEq] at hn₂ hv₂
  exact ⟨p, a, c, q, hp, hq, hn₁, hn₂.2.1, hn₂.2.2, hv₁, hv₂.1, hv₂.2.2⟩

/-- Unlinking a node takes it out of the list. -/
theorem unlink (c : L.Circle h (l₁ ++ b :: l₂)) : (L.unlink b).Circle h (l₁ ++ l₂) := by
  have nodup := c.nodup
  obtain ⟨p, a, x, q, hp, hq, hn, hbx, hn₂, hv, hba, hv₂⟩ := c.around
  have hl : h :: (l₁ ++ l₂) = p ++ a :: l₂ := by
    rw [← List.cons_append, hp, List.append_assoc, List.singleton_append]
  have nodup' : (p ++ a :: b :: l₂).Nodup := by
    rwa [← List.cons_append, hp, List.append_assoc, List.singleton_append] at nodup
  -- the two assignments write `prev` of `x` and `next` of `a`
  have hxb : b ≠ x := by
    rintro rfl
    have : b ∈ l₂ ++ [h] := hq ▸ List.mem_cons_self
    simp only [List.nodup_cons, List.mem_append, List.nodup_append, List.mem_cons] at nodup this
    grind
  have hnext : (L.unlink b).next = Function.update L.next a x := by
    simp only [Links.unlink, setNext, setPrev, Function.update_of_ne hxb, hbx, hba]
  have hprev : (L.unlink b).prev = Function.update L.prev x a := by
    simp only [Links.unlink, setNext, setPrev, hbx, hba]
  have hap : a ∉ p := fun hm => (List.nodup_append.1 nodup').2.2 a hm a List.mem_cons_self rfl
  have hal : a ∉ l₂ := fun hm =>
    (List.nodup_cons.1 (List.nodup_append.1 nodup').2.1).1 (List.mem_cons_of_mem _ hm)
  have hxl : x ∉ l₁ := fun hm => by
    obtain ⟨hh, hd⟩ := List.nodup_cons.1 nodup
    have hx : x ∈ l₂ ++ [h] := hq ▸ List.mem_cons_self
    rw [List.mem_append, List.mem_singleton] at hx
    rcases hx with hx | rfl
    · exact (List.nodup_append.1 hd).2.2 x hm x (List.mem_cons_of_mem _ hx) rfl
    · exact hh (List.mem_append_left _ hm)
  have hxq : x ∉ q := by
    have : (l₂ ++ [h]).Nodup := by
      rw [(List.perm_append_singleton h l₂).nodup_iff]
      refine nodup.sublist (List.Sublist.cons_cons h ?_)
      exact (List.sublist_cons_self b l₂).trans (List.sublist_append_right l₁ _)
    rw [hq] at this
    exact (List.nodup_cons.1 this).1
  constructor
  · refine nodup.sublist (List.Sublist.cons_cons h ?_)
    exact (List.sublist_cons_self b l₂).append_left l₁
  · rw [hl, hnext, List.map_append, List.map_cons, map_update_of_notMem hap,
      map_update_of_notMem hal, Function.update_self, hn, hn₂, List.append_assoc, hq]
  · rw [List.append_assoc, hq, hprev, List.map_append, List.map_cons, map_update_of_notMem hxl,
      map_update_of_notMem hxq, Function.update_self, hv, hv₂, hl]

/-- Pushing a new node puts it first. -/
theorem push (c : L.Circle h l) (hb : b ∉ h :: l) : (L.push h b).Circle h (b :: l) := by
  obtain ⟨nodup, next_eq, prev_eq⟩ := c
  have hbh : b ≠ h := fun e => hb (e ▸ List.mem_cons_self)
  obtain ⟨x, q, hq⟩ : ∃ x q, l ++ [h] = x :: q := by
    cases l with
    | nil => exact ⟨h, [], rfl⟩
    | cons x l => exact ⟨x, l ++ [h], rfl⟩
  rw [hq, List.map_cons] at next_eq prev_eq
  obtain ⟨hx, hn⟩ := List.cons.inj next_eq
  obtain ⟨-, hv⟩ := List.cons.inj prev_eq
  have hxb : x ≠ b := by
    rintro rfl
    have : x ∈ l ++ [h] := hq ▸ List.mem_cons_self
    grind
  have hnext : (L.push h b).next = Function.update (Function.update L.next b x) h b := by
    simp only [Links.push, setNext, setPrev, hx]
  have hprev : (L.push h b).prev = Function.update (Function.update L.prev b h) x b := by
    simp only [Links.push, setNext, setPrev, Function.update_of_ne hbh.symm, hx]
  have hbl : b ∉ l := fun hm => hb (List.mem_cons_of_mem _ hm)
  have hhl : h ∉ l := (List.nodup_cons.1 nodup).1
  have hxq : x ∉ q := by
    have : (l ++ [h]).Nodup := (List.perm_append_singleton h l).nodup_iff.2 nodup
    rw [hq] at this
    exact (List.nodup_cons.1 this).1
  have hbq : b ∉ q := fun hm => by
    have : b ∈ l ++ [h] := hq ▸ List.mem_cons_of_mem _ hm
    grind
  constructor
  · rw [(List.Perm.swap b h l).nodup_iff]
    exact List.nodup_cons.2 ⟨hb, nodup⟩
  · rw [hnext, List.map_cons, List.map_cons, map_update_of_notMem hhl, map_update_of_notMem hbl,
      Function.update_self, Function.update_of_ne hbh, Function.update_self, hn, List.cons_append,
      hq]
  · rw [List.cons_append, hq, hprev, List.map_cons, List.map_cons, map_update_of_notMem hxq,
      map_update_of_notMem hbq, Function.update_self, Function.update_of_ne hxb.symm,
      Function.update_self, hv]

/-- Moving a node to the front. -/
theorem unlink_push (c : L.Circle h (l₁ ++ b :: l₂)) :
    ((L.unlink b).push h b).Circle h (b :: (l₁ ++ l₂)) := by
  refine c.unlink.push ?_
  have nodup := c.nodup
  rw [← List.cons_append, List.perm_middle.nodup_iff, List.cons_append] at nodup
  exact (List.nodup_cons.1 nodup).1

/-! ## Following a pointer -/

omit [DecidableEq ν] in
/-- A pointer that runs through `l` and comes to `h`. -/
private theorem scan_map [DecidableEq ν] {step : ν → ν} {test : ν → Bool} {y : ν}
    (hl : (y :: l).map step = l ++ [h]) (hh : h ∉ l) {fuel : ℕ} (hf : l.length < fuel) :
    scan step test h fuel (step y) = l.find? test := by
  induction l generalizing y fuel with
  | nil =>
    obtain ⟨hy, -⟩ := List.cons.inj hl
    obtain ⟨fuel, rfl⟩ := Nat.exists_eq_succ_of_ne_zero (Nat.ne_of_gt hf)
    rw [hy, scan, if_pos rfl]
    rfl
  | cons x l ih =>
    obtain ⟨hy, hl⟩ := List.cons.inj hl
    obtain ⟨fuel, rfl⟩ := Nat.exists_eq_succ_of_ne_zero (Nat.ne_zero_of_lt hf)
    have hxh : x ≠ h := fun e => hh (e ▸ List.mem_cons_self)
    rw [hy, scan, if_neg hxh, List.find?_cons]
    cases test x with
    | true => rfl
    | false =>
      exact ih hl (fun hm => hh (List.mem_cons_of_mem _ hm)) (Nat.lt_of_succ_lt_succ hf)

/-- Following `next` from the head finds the first element with the test. -/
theorem scan_next (c : L.Circle h l) {test : ν → Bool} {fuel : ℕ} (hf : l.length < fuel) :
    scan L.next test h fuel (L.next h) = l.find? test :=
  scan_map c.next_eq (List.nodup_cons.1 c.nodup).1 hf

/-- Following `prev` from the head finds the last element with the test. -/
theorem scan_prev (c : L.Circle h l) {test : ν → Bool} {fuel : ℕ} (hf : l.length < fuel) :
    scan L.prev test h fuel (L.prev h) = l.reverse.find? test := by
  refine scan_map ?_ ?_ (by rwa [List.length_reverse])
  · rw [← List.reverse_cons, ← c.prev_eq, ← List.map_reverse, List.reverse_append]
    rfl
  · rw [List.mem_reverse]
    exact (List.nodup_cons.1 c.nodup).1

end Circle

end Links

end Xv6
