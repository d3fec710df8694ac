import Mathlib.Data.List.Basic
import Mathlib.Logic.Function.Basic
import Xv6.Foundations.Overwrite

/-!
# Maps in slots

A finite map can be kept in a list of slots, each of them free or with a key and its value. A lookup
searches the slots in order; an insertion writes to a free slot, or to a new one at the end, and a
deletion frees the slot that a lookup has found. As long as no key is in two slots, these are the
operations of the map (`toMap_insert`, `toMap_erase`).
-/

namespace Xv6

namespace SlotMap

variable {κ ν : Type*}

/-- No key is in two slots. -/
def Distinct (l : List (Option (κ × ν))) : Prop :=
  ∀ (m n : ℕ) (key : κ) (v w : ν), l[m]? = some (some (key, v)) → l[n]? = some (some (key, w)) →
    m = n

/-- The first free slot, or the number of slots. -/
def firstFree (l : List (Option (κ × ν))) : ℕ := l.findIdx (·.isNone)

variable [DecidableEq κ]

/-- The first slot with the key, and the value in it. -/
def lookup (key : κ) : List (Option (κ × ν)) → Option (ℕ × ν)
  | [] => none
  | none :: l => (lookup key l).map fun p => (p.1 + 1, p.2)
  | some (k, v) :: l => if k = key then some (0, v) else (lookup key l).map fun p => (p.1 + 1, p.2)

/-- The map that the slots hold. -/
def toMap (l : List (Option (κ × ν))) (key : κ) : Option ν := (lookup key l).map Prod.snd

variable {l l' : List (Option (κ × ν))} {key : κ} {n : ℕ} {v : ν}

omit [DecidableEq κ] in
/-- Slots with different keys. -/
theorem distinct_of_nodup (h : ((l.filterMap id).map Prod.fst).Nodup) : Distinct l := by
  induction l with
  | nil => exact fun m n key v w hm => by simp at hm
  | cons e l ih =>
    -- a key of the first slot is in no other one
    have hfirst : ∀ {k : ℕ} {key : κ} {v w : ν}, e = some (key, v) →
        l[k]? ≠ some (some (key, w)) := by
      rintro k key v w rfl hk
      refine (List.nodup_cons.mp h).1 (List.mem_map.mpr ⟨(key, w), ?_, rfl⟩)
      exact List.mem_filterMap.mpr ⟨_, List.mem_of_getElem? hk, rfl⟩
    have htail : ((l.filterMap id).map Prod.fst).Nodup := by
      cases e with
      | none => exact h
      | some p => exact (List.nodup_cons.mp h).2
    intro m n key v w hm hn
    match m, n with
    | 0, 0 => rfl
    | 0, n + 1 => exact absurd hn (hfirst (by simpa using hm))
    | m + 1, 0 => exact absurd hm (hfirst (by simpa using hn))
    | m + 1, n + 1 => exact congrArg (· + 1) (ih htail m n key v w hm hn)

theorem getElem?_of_lookup (h : lookup key l = some (n, v)) : l[n]? = some (some (key, v)) := by
  induction l generalizing n with
  | nil => cases h
  | cons e l ih =>
    have hmap : (lookup key l).map (fun p => (p.1 + 1, p.2)) = some (n, v) →
        (e :: l)[n]? = some (some (key, v)) := by
      intro hmap
      obtain ⟨⟨m, w⟩, hp, heq⟩ := Option.map_eq_some_iff.mp hmap
      cases heq
      simpa using ih hp
    cases e with
    | none => exact hmap h
    | some e =>
      rw [lookup] at h
      split_ifs at h with hk
      · cases h
        cases hk
        rfl
      · exact hmap h

theorem lookup_eq_none_iff :
    lookup key l = none ↔ ∀ (n : ℕ) (v : ν), l[n]? ≠ some (some (key, v)) := by
  induction l with
  | nil => simp [lookup]
  | cons e l ih =>
    cases e with
    | none =>
      rw [lookup, Option.map_eq_none_iff, ih]
      refine ⟨fun h n v => ?_, fun h n v => by simpa using h (n + 1) v⟩
      cases n with
      | zero => simp
      | succ n => simpa using h n v
    | some e =>
      rw [lookup]
      split_ifs with hk
      · refine iff_of_false (by simp) fun h => h 0 e.2 ?_
        simp [← hk]
      · rw [Option.map_eq_none_iff, ih]
        refine ⟨fun h n v => ?_, fun h n v => by simpa using h (n + 1) v⟩
        cases n with
        | zero =>
          simp only [List.getElem?_cons_zero, ne_eq, Option.some.injEq]
          rintro rfl
          exact hk rfl
        | succ n => simpa using h n v

theorem lookup_eq_some_iff (hl : Distinct l) :
    lookup key l = some (n, v) ↔ l[n]? = some (some (key, v)) := by
  refine ⟨getElem?_of_lookup, fun h => ?_⟩
  cases hlookup : lookup key l with
  | none => exact absurd h (lookup_eq_none_iff.mp hlookup n v)
  | some p =>
    have hp := getElem?_of_lookup hlookup
    obtain rfl : p.1 = n := hl _ _ _ _ _ hp h
    rw [hp] at h
    simp only [Option.some.injEq, Prod.mk.injEq, true_and] at h
    rw [← h]

theorem toMap_eq_some_iff (hl : Distinct l) :
    toMap l key = some v ↔ ∃ n : ℕ, l[n]? = some (some (key, v)) := by
  rw [toMap, Option.map_eq_some_iff]
  constructor
  · rintro ⟨⟨n, w⟩, hp, rfl⟩
    exact ⟨n, getElem?_of_lookup hp⟩
  · rintro ⟨n, hn⟩
    exact ⟨(n, v), (lookup_eq_some_iff hl).mpr hn, rfl⟩

omit [DecidableEq κ] in
theorem firstFree_le (l : List (Option (κ × ν))) : firstFree l ≤ l.length := List.findIdx_le_length

omit [DecidableEq κ] in
theorem firstFree_lt (h : none ∈ l) : firstFree l < l.length :=
  List.findIdx_lt_length_of_exists ⟨none, h, rfl⟩

omit [DecidableEq κ] in
/-- The first free slot is free or past the end. -/
theorem getElem?_firstFree (l : List (Option (κ × ν))) :
    l[firstFree l]? = some none ∨ l[firstFree l]? = none := by
  by_cases h : firstFree l < l.length
  · left
    have hnone := List.findIdx_getElem (w := h)
    rw [List.getElem?_eq_getElem h]
    exact congrArg some (Option.isNone_iff_eq_none.mp hnone)
  · exact .inr (List.getElem?_eq_none (Nat.le_of_not_lt h))

/-- **Insertion.** A new key has been put into the slot `n`, which was free or is new. -/
theorem toMap_insert (hl : Distinct l) (hkey : toMap l key = none)
    (hfree : l[n]? = some none ∨ l[n]? = none) (hn : n ≤ l.length) :
    Distinct (overwrite l n [some (key, v)]) ∧
      toMap (overwrite l n [some (key, v)]) = Function.update (toMap l) key (some v) := by
  have hget : ∀ (m : ℕ) (k : κ) (w : ν), (overwrite l n [some (key, v)])[m]? = some (some (k, w)) ↔
      m = n ∧ k = key ∧ w = v ∨ l[m]? = some (some (k, w)) := by
    intro m k w
    rw [getElem?_overwrite hn]
    by_cases hm : m = n
    · subst hm
      rw [if_neg (by omega), if_pos (by simp)]
      simp only [Nat.sub_self, List.getElem?_cons_zero, Option.some.injEq, Prod.mk.injEq, true_and]
      constructor
      · rintro ⟨rfl, rfl⟩
        exact .inl ⟨rfl, rfl⟩
      · rintro (⟨rfl, rfl⟩ | h)
        · exact ⟨rfl, rfl⟩
        · obtain hfree | hfree := hfree <;> rw [hfree] at h <;> cases h
    · have hsame : (if m < n then l[m]? else if m < n + [some (key, v)].length then
          [some (key, v)][m - n]? else l[m]?) = l[m]? := by
        rw [List.length_singleton]
        split_ifs <;> first | rfl | omega
      rw [hsame]
      simp [hm]
  have hnew : ∀ (m : ℕ) (w : ν), l[m]? ≠ some (some (key, w)) :=
    lookup_eq_none_iff.mp (Option.map_eq_none_iff.mp hkey)
  have hdistinct : Distinct (overwrite l n [some (key, v)]) := by
    intro m m' k w w' hm hm'
    obtain ⟨rfl, rfl, -⟩ | hold := (hget m k w).mp hm
    · obtain ⟨rfl, -, -⟩ | hold' := (hget m' k w').mp hm'
      · rfl
      · exact absurd hold' (hnew m' w')
    · obtain ⟨rfl, rfl, -⟩ | hold' := (hget m' k w').mp hm'
      · exact absurd hold (hnew m w)
      · exact hl m m' k w w' hold hold'
  refine ⟨hdistinct, funext fun k => Option.ext fun w => ?_⟩
  rw [toMap_eq_some_iff hdistinct, Function.update_apply]
  simp only [hget]
  split_ifs with hk
  · subst hk
    constructor
    · rintro ⟨m, ⟨-, -, rfl⟩ | hm⟩
      · rfl
      · exact absurd hm (hnew m w)
    · intro hv
      cases hv
      exact ⟨n, .inl ⟨rfl, rfl, rfl⟩⟩
  · rw [toMap_eq_some_iff hl]
    exact exists_congr fun m => or_iff_right fun h => hk h.2.1

/-- **Deletion.** The slot in which a lookup has found the key has been freed. -/
theorem toMap_erase (hl : Distinct l) (hkey : lookup key l = some (n, v)) :
    Distinct (overwrite l n [none]) ∧
      toMap (overwrite l n [none]) = Function.update (toMap l) key none := by
  have hslot := getElem?_of_lookup hkey
  have hn : n < l.length := (List.getElem?_eq_some_iff.mp hslot).1
  have hget : ∀ (m : ℕ) (k : κ) (w : ν), (overwrite l n [none])[m]? = some (some (k, w)) ↔
      m ≠ n ∧ l[m]? = some (some (k, w)) := by
    intro m k w
    rw [getElem?_overwrite (Nat.le_of_lt hn), List.length_singleton]
    split_ifs with h₁ h₂
    · exact ⟨fun h => ⟨by omega, h⟩, And.right⟩
    · obtain rfl : m = n := by omega
      simp
    · exact ⟨fun h => ⟨by omega, h⟩, And.right⟩
  have hdistinct : Distinct (overwrite l n [none]) := fun m m' k w w' hm hm' =>
    hl m m' k w w' ((hget m k w).mp hm).2 ((hget m' k w').mp hm').2
  refine ⟨hdistinct, funext fun k => Option.ext fun w => ?_⟩
  rw [toMap_eq_some_iff hdistinct, Function.update_apply]
  simp only [hget]
  split_ifs with hk
  · subst hk
    refine iff_of_false ?_ (by simp)
    rintro ⟨m, hm, h⟩
    exact hm (hl m n k w v h hslot)
  · rw [toMap_eq_some_iff hl]
    refine exists_congr fun m => and_iff_right_of_imp fun h => ?_
    rintro rfl
    rw [hslot] at h
    cases h
    exact hk rfl

end SlotMap

end Xv6
