import Mathlib.Algebra.BigOperators.Group.List.Basic
import Mathlib.Algebra.Order.Group.Nat
import Mathlib.Algebra.Order.Ring.Int
import Mathlib.Data.List.Infix
import Mathlib.Data.Nat.Cast.WithTop
import Mathlib.Order.OrderDual
import Mathlib.Order.WithBot

/-!
# Contiguous allocation: first fit, best fit, worst fit

The three functions of the lab serve the processes one after the other from a list of memory
blocks. They differ in the loop that chooses a block only; a chosen block is split by inserting
the rest of it behind it. The sizes are natural numbers. An outcome is what the function prints
about a process.

* `firstIndex_chosen`, `bestIndex_chosen` and `worstIndex_chosen` say which block each loop
  chooses, and when it finds none.
* `Partitioned` is the invariant of the run: the memory is cut into one group of blocks for each
  initial hole, and its allocated blocks are the accepted processes.
* `fit_correct` puts the two together.
-/

namespace Xv6.Labs

/-! ## The program -/

structure MemoryBlock (π : Type*) where
  size : ℕ
  isFree : Bool
  processId : Option π

structure Process (π : Type*) where
  pid : π
  size : ℕ

variable {π : Type*}

/-- `MemoryBlock(size=size)`. -/
def MemoryBlock.fresh (size : ℕ) : MemoryBlock π := ⟨size, true, none⟩

/-- `block.is_free and block.size >= process.size`. -/
def MemoryBlock.Fits (size : ℕ) (block : MemoryBlock π) : Prop :=
  block.isFree = true ∧ size ≤ block.size

instance (size : ℕ) (block : MemoryBlock π) : Decidable (block.Fits size) :=
  inferInstanceAs (Decidable (_ ∧ _))

/-- The search of `first_fit`: the loop ends at the first block that fits. -/
def firstIndex (size : ℕ) : List (MemoryBlock π) → Option ℕ
  | [] => none
  | block :: memory => if block.Fits size then some 0 else (firstIndex size memory).map (· + 1)

/-- One round of the search of `best_fit` and `worst_fit`: `better leftover remainder` is the
test, and `found` what is stored as the new remainder. -/
def searchStep {ρ : Type*} (better : ℕ → ρ → Bool) (found : ℕ → ρ) (size : ℕ)
    (acc : Option ℕ × ρ) (entry : MemoryBlock π × ℕ) : Option ℕ × ρ :=
  if entry.1.Fits size then
    if better (entry.1.size - size) acc.2 then (some entry.2, found (entry.1.size - size)) else acc
  else acc

/-- The search over `enumerate(memory)`. -/
def search {ρ : Type*} (better : ℕ → ρ → Bool) (found : ℕ → ρ) (start : ρ) (size : ℕ)
    (memory : List (MemoryBlock π)) : Option ℕ × ρ :=
  memory.zipIdx.foldl (searchStep better found size) (none, start)

/-- `best_index`: `leftover < best_remainder`, from `float("inf")` on. -/
def bestIndex (size : ℕ) (memory : List (MemoryBlock π)) : Option ℕ :=
  (search (fun leftover (remainder : WithTop ℕ) => (leftover : WithTop ℕ) < remainder)
    (fun leftover => leftover) ⊤ size memory).1

/-- `worst_index`: `leftover > worst_remainder`, from `-1` on. -/
def worstIndex (size : ℕ) (memory : List (MemoryBlock π)) : Option ℕ :=
  (search (fun leftover (remainder : ℤ) => remainder < leftover)
    (fun leftover => leftover) (-1) size memory).1

/-- The chosen block is split if it is larger than the process, and given to the process. -/
def allocate (memory : List (MemoryBlock π)) (i : ℕ) (block : MemoryBlock π)
    (process : Process π) : List (MemoryBlock π) :=
  (if process.size < block.size then
    memory.insertIdx (i + 1) (.fresh (block.size - process.size))
  else memory).set i ⟨process.size, false, some process.pid⟩

/-- What is printed about a process. -/
inductive Outcome (π : Type*)
  /-- `Allocating P{pid} (size {size}K) to hole of size {block.size}K`. -/
  | allocated (process : Process π) (hole : ℕ)
  /-- `Process P{pid} could not be allocated.` -/
  | refused (process : Process π)

/-- The memory and the lines printed so far. -/
structure FitState (π : Type*) where
  memory : List (MemoryBlock π)
  outcomes : List (Outcome π)

/-- One process; `none` is an index out of range. -/
def serve (choose : ℕ → List (MemoryBlock π) → Option ℕ) (st : FitState π)
    (process : Process π) : Option (FitState π) :=
  match choose process.size st.memory with
  | none => some { st with outcomes := st.outcomes ++ [.refused process] }
  | some i =>
    match st.memory[i]? with
    | none => none
    | some block =>
      some ⟨allocate st.memory i block process,
        st.outcomes ++ [.allocated process block.size]⟩

/-- The loop over the processes. -/
def simulate (choose : ℕ → List (MemoryBlock π) → Option ℕ) (initialHoles : List ℕ)
    (processes : List (Process π)) : Option (FitState π) :=
  processes.foldlM (serve choose) ⟨initialHoles.map .fresh, []⟩

def firstFit (initialHoles : List ℕ) (processes : List (Process π)) : Option (FitState π) :=
  simulate firstIndex initialHoles processes

def bestFit (initialHoles : List ℕ) (processes : List (Process π)) : Option (FitState π) :=
  simulate bestIndex initialHoles processes

def worstFit (initialHoles : List ℕ) (processes : List (Process π)) : Option (FitState π) :=
  simulate worstIndex initialHoles processes

/-- The sizes of the free blocks. -/
def freeBlocks (memory : List (MemoryBlock π)) : List ℕ :=
  (memory.filter MemoryBlock.isFree).map MemoryBlock.size

/-- `analyze`: the total free memory and the largest free block. -/
def analyze (memory : List (MemoryBlock π)) : ℕ × ℕ :=
  ((freeBlocks memory).sum, (freeBlocks memory).foldl max 0)

/-! ## The choice of a block -/

/-- `i` is the leftmost of the fitting blocks whose leftover is preferred to that of all others. -/
structure Chosen (prefers : ℕ → ℕ → Prop) (size : ℕ) (memory : List (MemoryBlock π)) (i : ℕ)
    (block : MemoryBlock π) : Prop where
  get : memory[i]? = some block
  fits : block.Fits size
  best : ∀ j block', memory[j]? = some block' → block'.Fits size →
    prefers (block.size - size) (block'.size - size) ∧
    (prefers (block'.size - size) (block.size - size) → i ≤ j)

/-- A search refuses exactly when nothing fits, and finds the chosen block otherwise. -/
def Finds (prefers : ℕ → ℕ → Prop) (choose : ℕ → List (MemoryBlock π) → Option ℕ) : Prop :=
  ∀ size memory, match choose size memory with
    | none => ∀ block ∈ memory, ¬block.Fits size
    | some i => ∃ block, Chosen prefers size memory i block

/-- The first block that fits. -/
theorem firstIndex_chosen : Finds (π := π) (fun _ _ => True) firstIndex := by
  intro size memory
  induction memory with
  | nil => simp [firstIndex]
  | cons block memory ih =>
    rw [firstIndex]
    by_cases hfit : block.Fits size
    · rw [if_pos hfit]
      exact ⟨block, rfl, hfit, fun j _ _ _ => ⟨trivial, fun _ => Nat.zero_le j⟩⟩
    · rw [if_neg hfit]
      cases hrest : firstIndex size memory with
      | none =>
        rw [hrest] at ih
        exact List.forall_mem_cons.mpr ⟨hfit, ih⟩
      | some i =>
        rw [hrest] at ih
        obtain ⟨found, hget, hfits, hbest⟩ := ih
        refine ⟨found, hget, hfits, ?_⟩
        intro j block' hj hfit'
        cases j with
        | zero => exact absurd (Option.some.inj hj ▸ hfit') hfit
        | succ j =>
          exact ⟨trivial, fun _ => Nat.succ_le_succ ((hbest j block' hj hfit').2 trivial)⟩

/-- What the search needs of its test: it compares leftovers by a total preorder, and every
leftover beats the start. -/
structure Ranks {ρ : Type*} (prefers : ℕ → ℕ → Prop) (better : ℕ → ρ → Bool) (found : ℕ → ρ)
    (start : ρ) : Prop where
  total : ∀ l l', prefers l l' ∨ prefers l' l
  trans : ∀ l l' l'', prefers l l' → prefers l' l'' → prefers l l''
  better_found : ∀ l l', better l (found l') = true ↔ ¬prefers l' l
  better_start : ∀ l, better l start = true

section Search

variable {ρ : Type*} {prefers : ℕ → ℕ → Prop} {better : ℕ → ρ → Bool} {found : ℕ → ρ} {start : ρ}
  {size : ℕ} {memory : List (MemoryBlock π)}

/-- What the search knows of the blocks that it has passed. -/
def Passed (prefers : ℕ → ℕ → Prop) (found : ℕ → ρ) (start : ρ) (size : ℕ)
    (memory : List (MemoryBlock π)) : Option ℕ × ρ → Prop
  | (none, remainder) => remainder = start ∧ ∀ block ∈ memory, ¬block.Fits size
  | (some i, remainder) => ∃ block, remainder = found (block.size - size) ∧
      Chosen prefers size memory i block

/-- The entries of a list with one more element. -/
theorem getElem?_concat {α : Type*} {l : List α} {a b : α} {j : ℕ} (h : (l ++ [a])[j]? = some b) :
    l[j]? = some b ∨ j = l.length ∧ b = a := by
  rw [List.getElem?_append] at h
  split at h
  case isTrue => exact Or.inl h
  case isFalse hj =>
    rw [List.getElem?_singleton] at h
    split at h
    case isTrue hzero => exact Or.inr ⟨by omega, (Option.some.inj h).symm⟩
    case isFalse => cases h

/-- A chosen block stays chosen when the next block does not beat it. -/
theorem Chosen.concat {i : ℕ} {block next : MemoryBlock π} (c : Chosen prefers size memory i block)
    (h : next.Fits size → prefers (block.size - size) (next.size - size)) :
    Chosen prefers size (memory ++ [next]) i block := by
  have hi : i < memory.length := (List.getElem?_eq_some_iff.mp c.get).1
  refine ⟨by rw [List.getElem?_append_left hi]; exact c.get, c.fits, ?_⟩
  intro j block' hj hfit
  rcases getElem?_concat hj with hold | ⟨rfl, rfl⟩
  · exact c.best j block' hold hfit
  · exact ⟨h hfit, fun _ => hi.le⟩

/-- The next block is chosen when it beats all others that fit. -/
theorem chosen_last (hrefl : ∀ l, prefers l l) {next : MemoryBlock π} (hfits : next.Fits size)
    (h : ∀ block ∈ memory, block.Fits size →
      prefers (next.size - size) (block.size - size) ∧
      ¬prefers (block.size - size) (next.size - size)) :
    Chosen prefers size (memory ++ [next]) memory.length next := by
  refine ⟨by simp, hfits, ?_⟩
  intro j block' hj hfit
  rcases getElem?_concat hj with hold | ⟨rfl, rfl⟩
  · have hnext := h block' (List.mem_of_getElem? hold) hfit
    exact ⟨hnext.1, fun hle => absurd hle hnext.2⟩
  · exact ⟨hrefl _, fun _ => le_rfl⟩

/-- One round of the search. -/
theorem Passed.step (r : Ranks prefers better found start) {acc : Option ℕ × ρ}
    (p : Passed prefers found start size memory acc) (next : MemoryBlock π) :
    Passed prefers found start size (memory ++ [next])
      (searchStep better found size acc (next, memory.length)) := by
  have hrefl : ∀ l, prefers l l := fun l => (r.total l l).elim id id
  obtain ⟨index, remainder⟩ := acc
  rw [searchStep]
  by_cases hfit : next.Fits size
  · rw [if_pos hfit]
    cases index with
    | none =>
      obtain ⟨rfl, hnone⟩ := p
      rw [if_pos (r.better_start _)]
      exact ⟨next, rfl, chosen_last hrefl hfit fun block hmem hfits =>
        absurd hfits (hnone block hmem)⟩
    | some i =>
      obtain ⟨block, rfl, hchosen⟩ := p
      split
      case isTrue hbetter =>
        have hbeats := (r.better_found _ _).mp hbetter
        have hpref := (r.total _ _).resolve_left hbeats
        refine ⟨next, rfl, chosen_last hrefl hfit fun block' hmem hfits => ?_⟩
        obtain ⟨j, hj⟩ := List.mem_iff_getElem?.mp hmem
        have hbest := (hchosen.best j block' hj hfits).1
        exact ⟨r.trans _ _ _ hpref hbest, fun hle => hbeats (r.trans _ _ _ hbest hle)⟩
      case isFalse hbetter =>
        have hpref := not_not.mp (mt (r.better_found _ _).mpr hbetter)
        exact ⟨block, rfl, hchosen.concat fun _ => hpref⟩
  · rw [if_neg hfit]
    cases index with
    | none =>
      obtain ⟨rfl, hnone⟩ := p
      exact ⟨rfl, List.forall_mem_append.mpr ⟨hnone, by simpa using hfit⟩⟩
    | some i =>
      obtain ⟨block, rfl, hchosen⟩ := p
      exact ⟨block, rfl, hchosen.concat fun h => absurd h hfit⟩

/-- The whole search. -/
theorem search_passed (r : Ranks prefers better found start) (size : ℕ)
    (memory : List (MemoryBlock π)) :
    Passed prefers found start size memory (search better found start size memory) := by
  induction memory using List.reverseRecOn with
  | nil => exact ⟨rfl, by simp⟩
  | append_singleton memory next ih =>
    have hsearch : search better found start size (memory ++ [next]) =
        searchStep better found size (search better found start size memory)
          (next, memory.length) := by
      simp [search, List.zipIdx_append, List.foldl_append]
    rw [hsearch]
    exact ih.step r next

theorem Passed.finds {acc : Option ℕ × ρ} (p : Passed prefers found start size memory acc) :
    match acc.1 with
    | none => ∀ block ∈ memory, ¬block.Fits size
    | some i => ∃ block, Chosen prefers size memory i block := by
  obtain ⟨index, remainder⟩ := acc
  cases index with
  | none => exact p.2
  | some i =>
    obtain ⟨block, -, hchosen⟩ := p
    exact ⟨block, hchosen⟩

theorem finds_search (r : Ranks prefers better found start) :
    Finds (π := π) prefers fun size memory => (search better found start size memory).1 :=
  fun size memory => (search_passed r size memory).finds

end Search

/-- The leftmost block with the smallest leftover. -/
theorem bestIndex_chosen : Finds (π := π) (· ≤ ·) bestIndex :=
  finds_search {
    total := le_total
    trans := fun _ _ _ => le_trans
    better_found := fun l l' => by
      rw [decide_eq_true_iff, not_le]
      exact WithTop.coe_lt_coe
    better_start := fun l => by simp }

/-- The leftmost block with the largest leftover. -/
theorem worstIndex_chosen : Finds (π := π) (· ≥ ·) worstIndex :=
  finds_search {
    total := fun l l' => le_total l' l
    trans := fun _ _ _ h h' => le_trans h' h
    better_found := fun l l' => by simp
    better_start := fun l => by simp; omega }

/-! ## The split of a block -/

/-- What becomes of a block given to a process. -/
def splitBlock (block : MemoryBlock π) (process : Process π) : List (MemoryBlock π) :=
  ⟨process.size, false, some process.pid⟩ ::
    if process.size < block.size then [.fresh (block.size - process.size)] else []

theorem insertIdx_behind {α : Type*} (l l' : List α) (a b : α) :
    (l ++ a :: l').insertIdx (l.length + 1) b = l ++ a :: b :: l' := by
  induction l with
  | nil => simp
  | cons c l ih => simpa using ih

/-- The block is replaced in its place. -/
theorem allocate_append (l l' : List (MemoryBlock π)) (block : MemoryBlock π)
    (process : Process π) :
    allocate (l ++ block :: l') l.length block process = l ++ (splitBlock block process ++ l') := by
  rw [allocate, splitBlock]
  split
  case isTrue => simp [insertIdx_behind]
  case isFalse => simp

/-- A block in its place in the memory. -/
theorem exists_append_of_getElem? {α : Type*} {l : List α} {i : ℕ} {a : α} (h : l[i]? = some a) :
    ∃ l₁ l₂, l = l₁ ++ a :: l₂ ∧ l₁.length = i := by
  obtain ⟨hi, rfl⟩ := List.getElem?_eq_some_iff.mp h
  refine ⟨l.take i, l.drop (i + 1), ?_, List.length_take_of_le hi.le⟩
  rw [← List.drop_eq_getElem_cons hi, List.take_append_drop]

/-- The sizes of a list of blocks together. -/
def total (memory : List (MemoryBlock π)) : ℕ := (memory.map MemoryBlock.size).sum

@[simp] theorem total_append (l l' : List (MemoryBlock π)) :
    total (l ++ l') = total l + total l' := by
  simp [total]

@[simp] theorem total_cons (block : MemoryBlock π) (l : List (MemoryBlock π)) :
    total (block :: l) = block.size + total l := by
  simp [total]

/-- The split keeps the size. -/
theorem total_splitBlock {block : MemoryBlock π} {process : Process π}
    (h : process.size ≤ block.size) : total (splitBlock block process) = block.size := by
  rw [splitBlock]
  split
  case isTrue => simp [total, MemoryBlock.fresh, h]
  case isFalse hle => simp [total, le_antisymm h (not_lt.mp hle)]

/-- The allocated blocks: whom they are given to, and their sizes. -/
def allocatedBlocks (memory : List (MemoryBlock π)) : List (Option π × ℕ) :=
  memory.filterMap fun block => if block.isFree then none else some (block.processId, block.size)

theorem allocatedBlocks_splitBlock (block : MemoryBlock π) (process : Process π) :
    allocatedBlocks (splitBlock block process) = [(some process.pid, process.size)] := by
  rw [splitBlock]
  split
  case isTrue => rfl
  case isFalse => rfl

/-- Free and allocated blocks together are all blocks. -/
theorem total_eq (memory : List (MemoryBlock π)) :
    total memory = (freeBlocks memory).sum + ((allocatedBlocks memory).map Prod.snd).sum := by
  induction memory with
  | nil => rfl
  | cons block memory ih =>
    cases hfree : block.isFree with
    | true =>
      simp only [freeBlocks, allocatedBlocks] at ih
      simp [freeBlocks, allocatedBlocks, hfree, ih, Nat.add_assoc]
    | false =>
      simp only [freeBlocks, allocatedBlocks] at ih
      simp [freeBlocks, allocatedBlocks, hfree, ih, Nat.add_left_comm]

/-! ## The invariant of the run -/

/-- The accepted processes, in the order of their lines. -/
def accepted : List (Outcome π) → List (Process π) :=
  List.filterMap fun
    | .allocated process _ => some process
    | .refused _ => none

/-- The memory is one group of blocks for each hole, and its allocated blocks are the accepted
processes. -/
structure Partitioned (holes : List ℕ) (st : FitState π) : Prop where
  groups : ∃ groups : List (List (MemoryBlock π)), st.memory = groups.flatten ∧
    List.Forall₂ (fun group hole => total group = hole) groups holes
  taken : (allocatedBlocks st.memory).Perm
    ((accepted st.outcomes).map fun process => (some process.pid, process.size))

/-- Replacing a block by blocks of the same size in all keeps the groups. -/
theorem groups_replace {holes : List ℕ} {l l' new : List (MemoryBlock π)} {block : MemoryBlock π}
    (hnew : total new = block.size)
    (h : ∃ groups : List (List (MemoryBlock π)), l ++ block :: l' = groups.flatten ∧
      List.Forall₂ (fun group hole => total group = hole) groups holes) :
    ∃ groups : List (List (MemoryBlock π)), l ++ (new ++ l') = groups.flatten ∧
      List.Forall₂ (fun group hole => total group = hole) groups holes := by
  obtain ⟨groups, hflat, hsizes⟩ := h
  induction hsizes generalizing l with
  | nil => simp at hflat
  | @cons group hole groups holes hsize hrest ih =>
    rw [List.flatten_cons] at hflat
    rcases List.append_eq_append_iff.mp hflat.symm with ⟨m, hl, hgroups⟩ | ⟨m, hgroup, hl'⟩
    · -- the block is in a later group
      obtain ⟨groups', hflat', hsizes'⟩ := ih hgroups.symm
      exact ⟨group :: groups', by rw [hl, List.append_assoc, hflat', List.flatten_cons],
        .cons hsize hsizes'⟩
    · cases m with
      | nil =>
        obtain ⟨groups', hflat', hsizes'⟩ := ih (l := []) hl'
        refine ⟨group :: groups', ?_, .cons hsize hsizes'⟩
        rw [List.flatten_cons, ← hflat', hgroup, List.append_nil, List.nil_append]
      | cons b m =>
        rw [List.cons_append, List.cons.injEq] at hl'
        obtain ⟨rfl, rfl⟩ := hl'
        refine ⟨(l ++ (new ++ m)) :: groups, by simp, .cons ?_ hrest⟩
        rw [← hsize, hgroup]
        simp [hnew]

/-- What one process changes: it is refused when nothing fits, and otherwise gets the chosen
block. -/
inductive Served (prefers : ℕ → ℕ → Prop) (process : Process π) (st : FitState π) :
    FitState π → Prop
  | refused (h : ∀ block ∈ st.memory, ¬block.Fits process.size) :
      Served prefers process st { st with outcomes := st.outcomes ++ [.refused process] }
  | allocated {i : ℕ} {block : MemoryBlock π}
      (h : Chosen prefers process.size st.memory i block) :
      Served prefers process st
        ⟨allocate st.memory i block process, st.outcomes ++ [.allocated process block.size]⟩

variable {prefers : ℕ → ℕ → Prop} {choose : ℕ → List (MemoryBlock π) → Option ℕ}

/-- The index that a search finds is in range. -/
theorem serve_served (hfinds : Finds prefers choose) (st : FitState π) (process : Process π) :
    ∃ st', serve choose st process = some st' ∧ Served prefers process st st' := by
  have hchoice := hfinds process.size st.memory
  rw [serve]
  cases hindex : choose process.size st.memory with
  | none =>
    rw [hindex] at hchoice
    exact ⟨_, rfl, .refused hchoice⟩
  | some i =>
    rw [hindex] at hchoice
    obtain ⟨block, hchosen⟩ := hchoice
    simp only [hchosen.get]
    exact ⟨_, rfl, .allocated hchosen⟩

/-- One process keeps the partition. -/
theorem Partitioned.served {holes : List ℕ} {st st' : FitState π} {process : Process π}
    (p : Partitioned holes st) (h : Served prefers process st st') : Partitioned holes st' := by
  cases h with
  | refused h => exact ⟨p.groups, by simpa [accepted] using p.taken⟩
  | @allocated i block h =>
    obtain ⟨memory, outcomes⟩ := st
    obtain ⟨l, l', rfl, rfl⟩ := exists_append_of_getElem? h.get
    rw [allocate_append]
    refine ⟨groups_replace (total_splitBlock h.fits.2) p.groups, ?_⟩
    have hfree : allocatedBlocks (l ++ block :: l') = allocatedBlocks l ++ allocatedBlocks l' := by
      simp [allocatedBlocks, h.fits.1]
    have hsplit : allocatedBlocks (l ++ (splitBlock block process ++ l')) =
        allocatedBlocks l ++ ((some process.pid, process.size) :: allocatedBlocks l') := by
      have hone := allocatedBlocks_splitBlock block process
      simp only [allocatedBlocks] at hone ⊢
      rw [List.filterMap_append, List.filterMap_append, hone]
      rfl
    have htaken := p.taken
    rw [hfree] at htaken
    rw [hsplit]
    refine List.perm_middle.trans ((htaken.cons _).trans ?_)
    simpa [accepted] using (List.perm_append_singleton _ _).symm

/-- The whole run: it never fails, and it ends with the partition. -/
theorem simulate_partitioned (hfinds : Finds prefers choose) (holes : List ℕ)
    (processes : List (Process π)) :
    ∃ st, simulate choose holes processes = some st ∧ Partitioned holes st := by
  induction processes using List.reverseRecOn with
  | nil =>
    refine ⟨_, rfl, ⟨holes.map fun hole => [.fresh hole], ?_, ?_⟩, ?_⟩
    · exact List.map_eq_flatMap
    · rw [List.forall₂_map_left_iff]
      exact List.forall₂_same.mpr fun hole _ => by simp [total, MemoryBlock.fresh]
    · simp [allocatedBlocks, accepted, MemoryBlock.fresh, List.filterMap_map]
  | append_singleton processes process ih =>
    obtain ⟨st, hrun, hpart⟩ := ih
    obtain ⟨st', hserve, hserved⟩ := serve_served hfinds st process
    refine ⟨st', ?_, hpart.served hserved⟩
    simp only [simulate] at hrun
    simp [simulate, List.foldlM_append, hrun, hserve]

/-- What remains free and what the accepted processes take is all the memory. -/
theorem Partitioned.analyze_add {holes : List ℕ} {st : FitState π} (p : Partitioned holes st) :
    (analyze st.memory).1 + ((accepted st.outcomes).map Process.size).sum = holes.sum := by
  have htaken : ((allocatedBlocks st.memory).map Prod.snd).sum =
      ((accepted st.outcomes).map Process.size).sum := by
    rw [(p.taken.map Prod.snd).sum_eq, List.map_map]
    rfl
  obtain ⟨groups, hflat, hsizes⟩ := p.groups
  have htotal : total st.memory = holes.sum := by
    rw [hflat]
    clear hflat htaken p
    induction hsizes with
    | nil => rfl
    | cons hsize _ ih => rw [List.flatten_cons, total_append, hsize, ih, List.sum_cons]
  rw [← htotal, total_eq, htaken]
  rfl

/-- Every process is refused when no block free at that moment fits it, and gets the chosen block
otherwise; in the end each hole is a group of consecutive blocks, the allocated blocks are the
accepted processes, and the rest is free. -/
def Correct (prefers : ℕ → ℕ → Prop)
    (fit : List ℕ → List (Process π) → Option (FitState π)) : Prop :=
  ∀ holes processes,
    (∀ served process, served ++ [process] <+: processes →
      ∃ st st', fit holes served = some st ∧ fit holes (served ++ [process]) = some st' ∧
        Served prefers process st st') ∧
    ∃ st, fit holes processes = some st ∧ Partitioned holes st ∧
      (analyze st.memory).1 + ((accepted st.outcomes).map Process.size).sum = holes.sum

theorem simulate_correct (hfinds : Finds prefers choose) : Correct prefers (simulate choose) := by
  intro holes processes
  constructor
  · intro served process _
    obtain ⟨st, hrun, -⟩ := simulate_partitioned hfinds holes served
    obtain ⟨st', hserve, hserved⟩ := serve_served hfinds st process
    refine ⟨st, st', hrun, ?_, hserved⟩
    simp only [simulate] at hrun
    simp [simulate, List.foldlM_append, hrun, hserve]
  · obtain ⟨st, hrun, hpart⟩ := simulate_partitioned hfinds holes processes
    exact ⟨st, hrun, hpart, hpart.analyze_add⟩

/-- **The three strategies.** First fit takes the leftmost block that fits, best fit the leftmost
one with the smallest leftover, worst fit the leftmost one with the largest leftover. -/
theorem fit_correct : Correct (π := π) (fun _ _ => True) firstFit ∧
    Correct (π := π) (· ≤ ·) bestFit ∧ Correct (π := π) (· ≥ ·) worstFit :=
  ⟨simulate_correct firstIndex_chosen, simulate_correct bestIndex_chosen,
    simulate_correct worstIndex_chosen⟩

/-- The example of the lab: worst fit refuses the fourth process. -/
example : (worstFit [100, 500, 200, 300, 600]
    [⟨1, 212⟩, ⟨2, 417⟩, ⟨3, 112⟩, ⟨4, 426⟩]).map (fun st => analyze st.memory) =
    some (959, 300) := by decide

end Xv6.Labs
