import Xv6.Foundations.SlotMap
import Xv6.Fs.Arrays

/-!
# Directories

`dirlookup` and `dirlink`, and the write of `sys_unlink` that frees an entry. A directory is a file
of entries of 16 bytes; the name of an entry has 14 bytes, and ends there if it has no null byte.

A string is the list of its bytes before the null byte. The reference that `dirlookup` takes to the
inode that it has found is left out, and so is the `iput` of it in `dirlink`.
-/

namespace Xv6.Fs

open Inode (Dinode NDIRECT)

/-! ## Strings -/

/-- `strncmp`. -/
def strncmp : List UInt8 → List UInt8 → ℕ → ℤ
  | _, _, 0 => 0
  | p, q, n + 1 =>
    if p.headD 0 ≠ 0 ∧ p.headD 0 = q.headD 0 then strncmp p.tail q.tail n
    else ((p.headD 0).toNat : ℤ) - (q.headD 0).toNat

/-- The second loop of `strncpy`: `n` null bytes. -/
def zeroFill : List UInt8 → ℕ → List UInt8
  | s, 0 => s
  | s, n + 1 => 0 :: zeroFill s.tail n

/-- `strncpy`: the bytes of `s` after the copy. -/
def strncpy : List UInt8 → List UInt8 → ℕ → List UInt8
  | s, _, 0 => s
  | s, t, n + 1 =>
    t.headD 0 :: if t.headD 0 ≠ 0 then strncpy s.tail t.tail n else zeroFill s.tail n

/-! ## Entries -/

/-- The type of directories. -/
def T_DIR : Int16 := 1

/-- Bytes of a name. -/
def DIRSIZ : ℕ := 14

/-- `struct dirent`. -/
structure Dirent where
  inum : UInt16
  name : List UInt8
  deriving DecidableEq

namespace Dirent

/-- `sizeof(struct dirent)` -/
def size : ℕ := 2 + DIRSIZ

theorem size_eq : size = 16 := rfl

/-- The entry in 16 bytes. -/
def ofBytes (bytes : List UInt8) : Dirent where
  inum := .ofNat ((bytes.getD 0 0).toNat + 2 ^ 8 * (bytes.getD 1 0).toNat)
  name := bytes.drop 2

/-- The bytes of an entry. -/
def bytes (de : Dirent) : List UInt8 :=
  .ofNat de.inum.toNat :: .ofNat (de.inum.toNat / 2 ^ 8) :: de.name

end Dirent

/-- `namecmp`. -/
def namecmp (s t : List UInt8) : ℤ := strncmp s t DIRSIZ

/-! ## dirlookup and dirlink -/

section

variable (sb : Superblock)

/-- The rounds of a loop over the entries of a directory. -/
def direntRounds (d : Dinode) : ℕ := (d.size.toNat + Dirent.size - 1) / Dirent.size

/-- The loop of `dirlookup` from `off` on. -/
def dirlookupLoop (name : List UInt8) : ℕ → ℕ → Dinode → M (Option (Option (ℕ × ℕ)) × Dinode)
  | 0, _, d => return (some none, d)
  | n + 1, off, d => do
    let (r, bytes, d) ← readi sb Dirent.size d (.ofNat off) (.ofNat Dirent.size)
    if r ≠ Dirent.size then return (none, d)
    else
      let de := Dirent.ofBytes bytes
      if de.inum = 0 then dirlookupLoop name n (off + Dirent.size) d
      else if namecmp name de.name = 0 then return (some (some (de.inum.toNat, off)), d)
      else dirlookupLoop name n (off + Dirent.size) d

/-- Look for a directory entry in a directory: its inode number and its offset. The outer `none` is
a panic. -/
def dirlookup (d : Dinode) (name : List UInt8) : M (Option (Option (ℕ × ℕ)) × Dinode) :=
  if d.type ≠ T_DIR then return (none, d) else dirlookupLoop sb name (direntRounds d) 0 d

/-- The loop of `dirlink` that looks for an empty entry: its offset, and `de`. -/
def emptyLoop : ℕ → ℕ → Dirent → Dinode → M (Option (ℕ × Dirent) × Dinode)
  | 0, off, de, d => return (some (off, de), d)
  | n + 1, off, _, d => do
    let (r, bytes, d) ← readi sb Dirent.size d (.ofNat off) (.ofNat Dirent.size)
    if r ≠ Dirent.size then return (none, d)
    else
      let de := Dirent.ofBytes bytes
      if de.inum = 0 then return (some (off, de), d) else emptyLoop n (off + Dirent.size) de d

/-- Write a new directory entry (name, inum) into the directory `dp`; `de` is what is on the stack
before. `none` is a panic. -/
def dirlink (dp : ℕ) (d : Dinode) (name : List UInt8) (inum : ℕ) (de : Dirent) :
    M (Option ℤ × Dinode) := do
  let (found, d) ← dirlookup sb d name
  match found with
  | none => return (none, d)
  | some (some _) => return (some (-1), d)
  | some none =>
    let (empty, d) ← emptyLoop sb (direntRounds d) 0 de d
    match empty with
    | none => return (none, d)
    | some (off, de) =>
      let de : Dirent := ⟨.ofNat inum, strncpy de.name name DIRSIZ⟩
      let (r, d) ← writei sb de.bytes dp d (.ofNat off) (.ofNat Dirent.size)
      return (some (if r ≠ Dirent.size then -1 else 0), d)

/-- The write of `sys_unlink` over the entry at `off`; `none` is the panic. -/
def unlinkDirent (dp : ℕ) (d : Dinode) (off : ℕ) : M (Option Unit × Dinode) := do
  let (r, d) ← writei sb (List.replicate Dirent.size 0) dp d (.ofNat off) (.ofNat Dirent.size)
  return (if r ≠ Dirent.size then none else some (), d)

end

/-! ## Names -/

/-- The name in a field of `DIRSIZ` bytes. -/
def Dirent.key (de : Dirent) : List UInt8 := (de.name.take DIRSIZ).takeWhile (· != 0)

/-- What an entry says: nothing if it is free. -/
def Dirent.slot (de : Dirent) : Option (List UInt8 × ℕ) :=
  if de.inum = 0 then none else some (de.key, de.inum.toNat)

theorem strncmp_eq_zero_iff {p : List UInt8} (hp : 0 ∉ p) (q : List UInt8) (n : ℕ) :
    strncmp p q n = 0 ↔ (q.take n).takeWhile (· != 0) = p.take n := by
  have hsub (a b : UInt8) : (a.toNat : ℤ) - b.toNat = 0 ↔ a = b := by
    rw [← UInt8.toNat_inj]
    omega
  induction n generalizing p q with
  | zero => simp [strncmp]
  | succ n ih =>
    rw [strncmp]
    cases p with
    | nil =>
      rw [if_neg (by simp), hsub]
      cases q with
      | nil => simp
      | cons b q =>
        by_cases hb : b = 0
        · simp [hb]
        · exact iff_of_false (fun h => hb h.symm) (by simp [hb])
    | cons a p =>
      obtain ⟨ha, hp⟩ : 0 ≠ a ∧ 0 ∉ p := by simpa using hp
      cases q with
      | nil =>
        rw [if_neg (by simp [ha.symm]), hsub]
        simp [ha.symm]
      | cons b q =>
        by_cases hab : a = b
        · subst hab
          rw [if_pos ⟨ha.symm, rfl⟩]
          refine (ih hp q).trans ?_
          simp [ha.symm]
        · rw [if_neg (by simp [hab]), hsub]
          by_cases hb : b = 0 <;> simp [hab, hb, Ne.symm hab, ha.symm]

theorem zeroFill_eq (s : List UInt8) {n : ℕ} (hs : s.length = n) :
    zeroFill s n = List.replicate n 0 := by
  induction n generalizing s with
  | zero => exact List.length_eq_zero_iff.mp hs
  | succ n ih => rw [zeroFill, ih s.tail (by simp [hs]), List.replicate_succ]

theorem strncpy_eq {t : List UInt8} (ht : 0 ∉ t) (s : List UInt8) {n : ℕ} (hs : s.length = n) :
    (strncpy s t n).length = n ∧ (strncpy s t n).takeWhile (· != 0) = t.take n := by
  induction n generalizing s t with
  | zero => simp [strncpy, List.length_eq_zero_iff.mp hs]
  | succ n ih =>
    cases t with
    | nil => simp [strncpy, zeroFill_eq s.tail (n := n) (by simp [hs])]
    | cons a t =>
      obtain ⟨ha, ht⟩ : 0 ≠ a ∧ 0 ∉ t := by simpa using ht
      obtain ⟨hlen, hkey⟩ := ih ht s.tail (by simp [hs])
      simp [strncpy, ha.symm, hlen, hkey]

/-! ## The entries of a directory -/

/-- The entries in the bytes of a directory. -/
def dirents (bytes : List UInt8) : List Dirent :=
  (List.range (bytes.length / Dirent.size)).map fun k =>
    .ofBytes ((bytes.drop (k * Dirent.size)).take Dirent.size)

/-- The entries of a directory as slots of a map from names to inode numbers. -/
def slots (s : Disk) (d : Dinode) : List (Option (List UInt8 × ℕ)) :=
  (dirents (contents s d)).map Dirent.slot

/-- The map from names to inode numbers that a directory holds. -/
def dirMap (s : Disk) (d : Dinode) : List UInt8 → Option ℕ := SlotMap.toMap (slots s d)

/-- A directory: a list of entries, no two of which have the same name. -/
structure IsDir (s : Disk) (d : Dinode) : Prop where
  type : d.type = T_DIR
  size : d.size.toNat % Dirent.size = 0
  distinct : SlotMap.Distinct (slots s d)

variable {sb : Superblock} {s s' : Disk} {d d' : Dinode} {i : ℕ} {E : Stop → Prop}

theorem getElem?_dirents {bytes : List UInt8} {k : ℕ} (hk : k < bytes.length / Dirent.size) :
    (dirents bytes)[k]? =
      some (.ofBytes ((bytes.drop (k * Dirent.size)).take Dirent.size)) := by
  rw [dirents, List.getElem?_map, List.getElem?_range hk, Option.map_some]

@[simp] theorem length_dirents (bytes : List UInt8) :
    (dirents bytes).length = bytes.length / Dirent.size := by
  rw [dirents, List.length_map, List.length_range]

@[simp] theorem length_slots (s : Disk) (d : Dinode) :
    (slots s d).length = d.size.toNat / Dirent.size := by
  rw [slots, List.length_map, length_dirents, length_contents]

/-- To overwrite the bytes of an entry is to overwrite the entry. -/
theorem dirents_overwrite {bytes new : List UInt8} {n : ℕ} (hsize : bytes.length % Dirent.size = 0)
    (hn : n ≤ bytes.length / Dirent.size) (hnew : new.length = Dirent.size) :
    dirents (overwrite bytes (n * Dirent.size) new) =
      overwrite (dirents bytes) n [.ofBytes new] := by
  have h16 := Dirent.size_eq
  have hoff : n * Dirent.size ≤ bytes.length := by
    rw [h16] at hn ⊢
    omega
  have hlen : (overwrite bytes (n * Dirent.size) new).length / Dirent.size =
      max (bytes.length / Dirent.size) (n + 1) := by
    rw [length_overwrite hoff, hnew]
    rw [h16] at hsize hn ⊢
    omega
  have hpiece : ∀ k, ((overwrite bytes (n * Dirent.size) new).drop (k * Dirent.size)).take
      Dirent.size = if k = n then new else (bytes.drop (k * Dirent.size)).take Dirent.size := by
    intro k
    refine List.ext_getElem? fun j => ?_
    rw [List.getElem?_take, List.getElem?_drop, getElem?_overwrite hoff, hnew, h16]
    rw [h16] at hnew
    by_cases hk : k = n
    · subst hk
      rw [if_pos rfl, Nat.add_sub_cancel_left]
      split_ifs with hj
      · omega
      · rfl
      · omega
      · exact (List.getElem?_eq_none (by omega)).symm
    · rw [if_neg hk, List.getElem?_take, List.getElem?_drop]
      split_ifs with hj <;> first | rfl | omega
  refine eq_overwrite (by rwa [length_dirents]) ?_ (fun k h₁ h₂ => ?_) fun k hk hlt => ?_
  · rw [length_dirents, length_dirents, hlen, List.length_singleton]
  · rw [List.length_singleton] at h₂
    obtain rfl : k = n := by omega
    rw [getElem?_dirents (by omega), hpiece, if_pos rfl]
    simp
  · rw [length_dirents] at hlt
    rw [List.length_singleton] at hk
    rw [getElem?_dirents (by omega), getElem?_dirents hlt, hpiece, if_neg (by omega)]

/-! ## dirlookup -/

theorem toNat_direntSize : (UInt32.ofNat Dirent.size).toNat = Dirent.size := rfl

theorem direntRounds_eq (h : d.size.toNat % Dirent.size = 0) :
    direntRounds d = (slots s d).length := by
  rw [direntRounds, length_slots]
  simp only [Dirent.size_eq] at h ⊢
  omega

theorem length_direntBytes {k : ℕ} (hk : k < (slots s d).length) :
    (((contents s d).drop (k * Dirent.size)).take Dirent.size).length = Dirent.size := by
  rw [length_slots] at hk
  rw [List.length_take, List.length_drop, length_contents]
  simp only [Dirent.size_eq] at hk ⊢
  omega

theorem length_name_ofBytes {k : ℕ} (hk : k < (slots s d).length) :
    (Dirent.ofBytes (((contents s d).drop (k * Dirent.size)).take Dirent.size)).name.length =
      DIRSIZ := by
  rw [Dirent.ofBytes, List.length_drop, length_direntBytes hk]
  rfl

/-- `readi` of an entry. -/
theorem ends_readDirent (hheld : s.held = []) (h : NoHoles s d) {k : ℕ}
    (hk : k < (slots s d).length) :
    Ends (readi sb Dirent.size d (.ofNat (k * Dirent.size)) (.ofNat Dirent.size)) (fun r s' =>
      s' = s ∧ r = ((Dirent.size : ℤ),
        ((contents s d).drop (k * Dirent.size)).take Dirent.size, d)) s E := by
  have hsize := h.size
  have hlen := length_direntBytes hk
  rw [length_slots] at hk
  have hmax : MAXFILE * BSIZE < 2 ^ 31 := by decide
  have hoff : (UInt32.ofNat (k * Dirent.size)).toNat = k * Dirent.size := by
    rw [UInt32.toNat_ofNat']
    simp only [Dirent.size_eq] at hk ⊢
    omega
  refine (ends_readi_contents hheld h ?_ le_rfl).post ?_
  · rw [hoff, toNat_direntSize]
    simp only [Dirent.size_eq] at hk ⊢
    omega
  · rintro _ _ ⟨rfl, rfl⟩
    rw [hoff, toNat_direntSize, hlen]
    exact ⟨rfl, rfl⟩

theorem slots_drop {k : ℕ} (hk : k < (slots s d).length) : (slots s d).drop k =
    (Dirent.ofBytes (((contents s d).drop (k * Dirent.size)).take Dirent.size)).slot ::
      (slots s d).drop (k + 1) := by
  rw [List.drop_eq_getElem_cons hk]
  congr 1
  rw [length_slots] at hk
  rw [← Option.some_inj, ← List.getElem?_eq_getElem, slots, List.getElem?_map,
    getElem?_dirents (by rwa [length_contents]), Option.map_some]

theorem namecmp_eq_zero_iff {name : List UInt8} (hname : 0 ∉ name) (de : Dirent) :
    namecmp name de.name = 0 ↔ de.key = name.take DIRSIZ :=
  strncmp_eq_zero_iff hname de.name DIRSIZ

/-- The loop of `dirlookup` from the `k`-th entry on. -/
theorem ends_dirlookupLoop (hheld : s.held = []) (h : NoHoles s d) {name : List UInt8}
    (hname : 0 ∉ name) (n k : ℕ) (hk : k + n = (slots s d).length) :
    Ends (dirlookupLoop sb name n (k * Dirent.size) d) (fun r s' => s' = s ∧
      r = (some ((SlotMap.lookup (name.take DIRSIZ) ((slots s d).drop k)).map fun p =>
        (p.2, (k + p.1) * Dirent.size)), d)) s E := by
  induction n generalizing k with
  | zero =>
    rw [List.drop_eq_nil_of_le (by omega)]
    exact ⟨rfl, rfl⟩
  | succ n ih =>
    rw [dirlookupLoop, ends_bind]
    refine (ends_readDirent hheld h (by omega)).post ?_
    rintro r t ⟨ht, hr⟩
    rw [ht, hr, slots_drop (by omega)]
    dsimp only
    rw [if_neg (not_not.mpr rfl)]
    generalize Dirent.ofBytes _ = de
    have hnext : Ends (dirlookupLoop sb name n (k * Dirent.size + Dirent.size) d) (fun r s' =>
        s' = s ∧ r = (some (((SlotMap.lookup (name.take DIRSIZ) ((slots s d).drop (k + 1))).map
          fun p => (p.1 + 1, p.2)).map fun p => (p.2, (k + p.1) * Dirent.size)), d)) s E := by
      rw [← Nat.succ_mul]
      refine (ih (k + 1) (by omega)).post ?_
      rintro _ _ ⟨rfl, rfl⟩
      refine ⟨rfl, ?_⟩
      rw [Option.map_map]
      refine congrArg (fun o => (some o, d)) (congrArg (Option.map · _) (funext fun p => ?_))
      simp only [Function.comp_apply, Nat.add_assoc, Nat.add_comm 1]
    by_cases h0 : de.inum = 0
    · rw [if_pos h0, Dirent.slot, if_pos h0]
      exact hnext
    · rw [if_neg h0, Dirent.slot, if_neg h0, SlotMap.lookup]
      by_cases hkey : de.key = name.take DIRSIZ
      · rw [if_pos ((namecmp_eq_zero_iff hname de).mpr hkey), if_pos hkey]
        exact ⟨rfl, rfl⟩
      · rw [if_neg fun hcmp => hkey ((namecmp_eq_zero_iff hname de).mp hcmp), if_neg hkey]
        exact hnext

/-- **`dirlookup` finds what the map holds.** -/
theorem ends_dirlookup (hheld : s.held = []) (h : NoHoles s d) (hdir : IsDir s d)
    {name : List UInt8} (hname : 0 ∉ name) :
    Ends (dirlookup sb d name) (fun r s' => s' = s ∧
      r = (some ((SlotMap.lookup (name.take DIRSIZ) (slots s d)).map fun p =>
        (p.2, p.1 * Dirent.size)), d)) s E := by
  have hloop : Ends (dirlookupLoop sb name (direntRounds d) (0 * Dirent.size) d) _ s E :=
    ends_dirlookupLoop hheld h hname _ 0 (by rw [Nat.zero_add, direntRounds_eq hdir.size])
  rw [dirlookup, if_neg (not_not.mpr hdir.type)]
  simpa only [Nat.zero_mul, Nat.zero_add, List.drop_zero] using hloop

/-- The loop of `dirlink` from the `k`-th entry on: it ends at the first free entry, or after the
last one. -/
theorem ends_emptyLoop (hheld : s.held = []) (h : NoHoles s d) (n k : ℕ) (de : Dirent)
    (hk : k + n = (slots s d).length) (hde : de.name.length = DIRSIZ) :
    Ends (emptyLoop sb n (k * Dirent.size) de d) (fun r s' => s' = s ∧
      ∃ de' : Dirent, de'.name.length = DIRSIZ ∧
        r = (some ((k + SlotMap.firstFree ((slots s d).drop k)) * Dirent.size, de'), d)) s E := by
  induction n generalizing k de with
  | zero =>
    rw [List.drop_eq_nil_of_le (by omega)]
    exact ⟨rfl, de, hde, rfl⟩
  | succ n ih =>
    rw [emptyLoop, ends_bind]
    refine (ends_readDirent hheld h (by omega)).post ?_
    rintro r t ⟨ht, hr⟩
    rw [ht, hr, slots_drop (by omega)]
    dsimp only
    rw [if_neg (not_not.mpr rfl)]
    have hname := length_name_ofBytes (s := s) (d := d) (k := k) (by omega)
    generalize Dirent.ofBytes _ = de' at hname ⊢
    by_cases h0 : de'.inum = 0
    · rw [if_pos h0, Dirent.slot, if_pos h0]
      exact ⟨rfl, de', hname, rfl⟩
    · rw [if_neg h0, Dirent.slot, if_neg h0, ← Nat.succ_mul]
      refine (ih (k + 1) de' (by omega) hname).post ?_
      rintro _ _ ⟨rfl, de'', hde'', rfl⟩
      refine ⟨rfl, de'', hde'', ?_⟩
      rw [SlotMap.firstFree, SlotMap.firstFree, List.findIdx_cons]
      simp only [Option.isNone_some, cond_false, Nat.add_assoc, Nat.add_comm 1]

end Xv6.Fs
