import Xv6.Foundations.Words
import Xv6.Fs.References

/-!
# Path names

`skipelem`, `namex`, `namei` and `nameiparent`. A walk looks one element of the path after the
other up in the directories on the disk (`walk`), and panics where it locks an inode that is free,
or needs an entry of the inode table and finds none (`path_resolution`).

An entry may name a free inode. `sys_unlink` of a directory that is still in use leaves its `..`,
takes the link of it off the parent, and then the parent may be freed (`removed_directory_panics`).
-/

namespace Xv6.Path

open Fs (DIRSIZ Dirent Slot Superblock T_DIR)
open Inode (Dinode)

/-! ## Path elements -/

/-- `'/'` -/
def slash : UInt8 := 47

/-- Copy the next path element from path into name: the path after the element and the slashes that
follow it, and the bytes of `name`. If there is no name to remove, `none`. -/
def skipelem (path name : List UInt8) : Option (List UInt8 × List UInt8) :=
  let path := path.dropWhile (· == slash)
  if path = [] then none
  else
    let s := path.takeWhile (· != slash)
    let path := path.dropWhile (· != slash)
    let name :=
      if DIRSIZ ≤ s.length then s.take DIRSIZ ++ name.drop DIRSIZ
      else s ++ 0 :: name.drop (s.length + 1)
    some (path.dropWhile (· == slash), name)

/-- The name in a buffer of `DIRSIZ` bytes. -/
def elem (name : List UInt8) : List UInt8 := (name.take DIRSIZ).takeWhile (· != 0)

theorem length_dropWhile_le (p : UInt8 → Bool) (l : List UInt8) :
    (l.dropWhile p).length ≤ l.length :=
  (List.dropWhile_suffix p).length_le

theorem skipelem_lt {path name path' name' : List UInt8}
    (h : skipelem path name = some (path', name')) : path'.length < path.length := by
  rw [skipelem] at h
  split_ifs at h with hnil
  cases h
  obtain ⟨a, l, hl⟩ := List.exists_cons_of_ne_nil hnil
  have ha : a ≠ slash := by
    have := List.head_dropWhile_not (· == slash) hnil
    simpa [hl] using this
  have hle := length_dropWhile_le (· == slash) path
  rw [hl] at hle ⊢
  rw [List.dropWhile_cons_of_pos (by simpa using ha)]
  have h₁ := length_dropWhile_le (· != slash) l
  have h₂ := length_dropWhile_le (· == slash) (l.dropWhile (· != slash))
  rw [List.length_cons] at hle
  omega

/-! ## namex -/

/-- The root inode. -/
def ROOTINO : ℕ := 1

section

variable (sb : Superblock)

/-- The loop of `namex` at the inode `ip`: the inode that is returned, and the bytes of `name`. -/
def namexLoop (nameiparent : Bool) (path name : List UInt8) (ip : ℕ) :
    M (Option ℕ × List UInt8) :=
  match h : skipelem path name with
  | none =>
    if nameiparent then do
      iput sb ip
      return (none, name)
    else return (some ip, name)
  | some (path', name) => do
    ilock sb ip
    if (← copy ip).type ≠ T_DIR then
      iunlockput sb ip
      return (none, name)
    else if nameiparent = true ∧ path' = [] then
      -- Stop one level early.
      iunlock ip
      return (some ip, name)
    else
      match ← dirlookup sb ip (elem name) with
      | none =>
        iunlockput sb ip
        return (none, name)
      | some next =>
        iunlockput sb ip
        have := skipelem_lt h
        namexLoop nameiparent path' name next
termination_by path.length

/-- Look up and return the inode for a path name; `cwd` is the directory of the process. -/
def namex (cwd : ℕ) (path : List UInt8) (nameiparent : Bool) (name : List UInt8) :
    M (Option ℕ × List UInt8) :=
  if path.headD 0 = slash then do
    iget ROOTINO
    namexLoop sb nameiparent path name ROOTINO
  else do
    idup cwd
    namexLoop sb nameiparent path name cwd

/-- `namei`; `name` is what is on the stack before. -/
def namei (cwd : ℕ) (path name : List UInt8) : M (Option ℕ) := do
  let (ip, _) ← namex sb cwd path false name
  return ip

def nameiparent (cwd : ℕ) (path name : List UInt8) : M (Option ℕ × List UInt8) :=
  namex sb cwd path true name

end

/-! ## Elements of a path -/

/-- The elements of a path: its non-empty parts between slashes, each cut to `DIRSIZ` bytes. -/
def elems (path : List UInt8) : List (List UInt8) := (words slash path).map (·.take DIRSIZ)

theorem elems_dropWhile_eq_nil_iff (path : List UInt8) :
    elems (path.dropWhile (· == slash)) = [] ↔ path.dropWhile (· == slash) = [] := by
  constructor
  · intro h
    by_contra hne
    have hidem : (path.dropWhile (· == slash)).dropWhile (· == slash) =
        path.dropWhile (· == slash) := List.dropWhile_eq_self_iff.mpr fun hl => by
      simpa using List.dropWhile_get_zero_not (· == slash) path hl
    rw [elems, words_of_ne_nil (hidem.symm ▸ hne)] at h
    cases h
  · intro h
    rw [h, elems, words_nil, List.map_nil]

/-- `skipelem` takes the first element off a path. -/
theorem skipelem_spec {path name : List UInt8} (hpath : 0 ∉ path) (hname : name.length = DIRSIZ) :
    skipelem path name = none ∧ elems path = [] ∨
      ∃ path' name', skipelem path name = some (path', name') ∧
        elems path = elem name' :: elems path' ∧ (path' = [] ↔ elems path' = []) ∧
        0 ∉ path' ∧ name'.length = DIRSIZ := by
  rw [skipelem]
  have hsub : ∀ y ∈ path.dropWhile (· == slash), y ≠ 0 := fun y hy h0 =>
    hpath (h0 ▸ (List.dropWhile_sublist _).subset hy)
  by_cases hnil : path.dropWhile (· == slash) = []
  · rw [if_pos hnil]
    refine .inl ⟨rfl, ?_⟩
    rw [elems, ← words_dropWhile, hnil, words_nil, List.map_nil]
  · have hwords := words_of_ne_nil hnil
    rw [if_neg hnil]
    generalize path.dropWhile (· == slash) = p at hsub hwords
    have hw : ∀ y ∈ p.takeWhile (· != slash), y ≠ 0 := fun y hy =>
      hsub y ((List.takeWhile_sublist _).subset hy)
    have hrest : ∀ y ∈ (p.dropWhile (· != slash)).dropWhile (· == slash), y ≠ 0 := fun y hy =>
      hsub y ((List.dropWhile_sublist _).subset ((List.dropWhile_sublist _).subset hy))
    generalize p.takeWhile (· != slash) = w at hw hwords
    generalize p.dropWhile (· != slash) = rest at hrest hwords
    refine .inr ⟨_, _, rfl, ?_, ?_, fun h0 => hrest 0 h0 rfl, ?_⟩
    · rw [elems, elems, hwords, List.map_cons, words_dropWhile]
      congr 1
      rw [elem]
      split_ifs with hlen
      · have hcut : (w.take DIRSIZ).length = DIRSIZ := List.length_take_of_le hlen
        rw [List.take_append_of_le_length hcut.ge, List.take_of_length_le hcut.le, eq_comm,
          List.takeWhile_eq_self_iff]
        exact fun y hy => by simpa using hw y ((List.take_sublist _ _).subset hy)
      · have hlt : w.length < DIRSIZ := Nat.lt_of_not_le hlen
        obtain ⟨k, hk⟩ := Nat.exists_eq_add_of_lt hlt
        rw [List.take_of_length_le hlt.le, List.take_append, List.take_of_length_le hlt.le, hk,
          Nat.add_assoc, Nat.add_sub_cancel_left, List.take_succ_cons,
          List.takeWhile_append_of_pos fun y hy => by simpa using hw y hy]
        simp
    · exact (elems_dropWhile_eq_nil_iff rest).symm
    · split_ifs with hlen
      · rw [List.length_append, List.length_take_of_le hlen, List.length_drop, hname, Nat.sub_self,
          Nat.add_zero]
      · rw [List.length_append, List.length_cons, List.length_drop, hname]
        omega

/-- `skipelem("///a//bb", name) = "bb"`, setting `name = "a"`. -/
example : (skipelem [47, 47, 47, 97, 47, 47, 98, 98] (List.replicate 14 0)).map
    (fun p => (p.1, elem p.2)) = some ([98, 98], [97]) := by decide

/-! ## Path resolution -/

/-- The inode that the names lead to from `x`: each of them is looked up in a directory. -/
def walk (s : Inodes) (x : ℕ) : List (List UInt8) → Option ℕ
  | [] => some x
  | name :: names =>
    if s.type x = T_DIR then (s.entries x name).bind fun y => walk s y names else none

/-- The directory that all names but the last lead to. -/
def walkParent (s : Inodes) (x : ℕ) (names : List (List UInt8)) : Option ℕ :=
  if names = [] then none else (walk s x names.dropLast).filter fun y => s.type y = T_DIR

/-- What `namex` returns. -/
def resolve (s : Inodes) (nameiparent : Bool) (x : ℕ) (names : List (List UInt8)) : Option ℕ :=
  if nameiparent then walkParent s x names else walk s x names

/-- Where `namex` starts. -/
def start (cwd : ℕ) (path : List UInt8) : ℕ := if path.headD 0 = slash then ROOTINO else cwd

/-- The loop of `namex` over the names from `x` on locks no free inode, and finds an entry of the
inode table for each inode that it comes to. -/
def Passes (s : Inodes) (nameiparent : Bool) (x : ℕ) : List (List UInt8) → Prop
  | [] => True
  | name :: names => s.type x ≠ 0 ∧ (s.type x = T_DIR → ¬(nameiparent = true ∧ names = []) →
      ∀ y ∈ s.entries x name, HasRoom s [x] y ∧ Passes s nameiparent y names)

instance decidablePasses (s : Inodes) (np : Bool) :
    ∀ (x : ℕ) (names : List (List UInt8)), Decidable (Passes s np x names)
  | _, [] => isTrue trivial
  | x, name :: names =>
    have := fun y => decidablePasses s np y names
    inferInstanceAs (Decidable (s.type x ≠ 0 ∧ (s.type x = T_DIR → ¬(np = true ∧ names = []) →
      ∀ y ∈ s.entries x name, HasRoom s [x] y ∧ Passes s np y names)))

/-- The same for a path. -/
def Passable (s : Inodes) (nameiparent : Bool) (cwd : ℕ) (path : List UInt8) : Prop :=
  (path.headD 0 = slash → HasRoom s [] ROOTINO) ∧
    Passes s nameiparent (start cwd path) (elems path)

instance (s : Inodes) (np : Bool) (cwd : ℕ) (path : List UInt8) :
    Decidable (Passable s np cwd path) := inferInstanceAs (Decidable (_ ∧ _))

/-- The inodes between two system calls: what is on the disk is consistent, directories have each
name once, valid copies are those of inodes that are not free, and these have links or others refer
to them. The process has a reference to its directory `cwd`. An entry may name any inode. -/
structure Graph (sb : Superblock) (s : Inodes) (cwd : ℕ) : Prop where
  disk : Fs.Consistent sb s.disk
  isDir : ∀ x, s.type x = T_DIR → Fs.IsDir s.disk (s.disk.dinode x)
  copy : ∀ x, 1 ≤ s.ref x → s.valid x = true → s.copy x = s.disk.dinode x ∧ s.type x ≠ 0
  linked : Linked s
  cwd : 1 ≤ s.ref cwd
  held : s.held = []

/-- What a run of `namex` leaves: one reference, to the inode that is returned. -/
structure Resolved (s₀ : Inodes) (nameiparent : Bool) (x : ℕ) (names : List (List UInt8))
    (r : Option ℕ × List UInt8) (s : Inodes) : Prop where
  result : r.1 = resolve s₀ nameiparent x names
  name : nameiparent = true → r.1 ≠ none → names.getLast? = some (elem r.2)
  refs : Refs s₀ s r.1.toList []

/-- The panics of a walk. A full inode table is one with at most one free entry. -/
def Panics (s₀ : Inodes) (e : Stop) : Prop := e = .noType ∨ e = .noInodes ∧ s₀.free ≤ 1

variable {sb : Superblock} {s₀ s : Inodes} {x cwd : ℕ}

theorem resolve_cons (s : Inodes) (np : Bool) (x : ℕ) (name : List UInt8)
    {names : List (List UInt8)} (h : ¬(np = true ∧ names = [])) :
    resolve s np x (name :: names) = if s.type x = T_DIR then
      (s.entries x name).bind fun y => resolve s np y names else none := by
  cases np with
  | false => rfl
  | true =>
    have hne : names ≠ [] := fun h0 => h ⟨rfl, h0⟩
    rw [resolve, if_pos rfl, walkParent, if_neg (List.cons_ne_nil _ _),
      List.dropLast_cons_of_ne_nil hne, walk]
    split_ifs with hdir
    · cases s.entries x name with
      | none => rfl
      | some y => simp only [Option.bind_some, resolve, walkParent, if_neg hne, if_true]
    · rfl

theorem resolve_of_not_dir {s : Inodes} {x : ℕ} (h : s.type x ≠ T_DIR) (np : Bool)
    (name : List UInt8) (names : List (List UInt8)) :
    resolve s np x (name :: names) = none := by
  by_cases hlast : np = true ∧ names = []
  · obtain ⟨rfl, rfl⟩ := hlast
    rw [resolve, if_pos rfl, walkParent, if_neg (List.cons_ne_nil _ _), List.dropLast_singleton,
      walk, Option.filter_some, if_neg (by simpa using h)]
  · rw [resolve_cons s np x name hlast, if_neg h]

theorem take_elem (name : List UInt8) : (elem name).take DIRSIZ = elem name := by
  refine List.take_of_length_le ?_
  exact (List.takeWhile_sublist _).length_le.trans (List.length_take_le _ _)

theorem zero_notMem_elem (name : List UInt8) : 0 ∉ elem name := fun h0 => by
  simpa using List.mem_takeWhile_imp h0

/-- `dirlookup` of a name in its buffer. -/
theorem ends_lookup (hg : Graph sb s₀ cwd) (h : Refs s₀ s [x] [x]) (hdir : s₀.type x = T_DIR)
    (name : List UInt8) :
    Ends (dirlookup sb x (elem name)) (fun r s' => r = s₀.entries x (elem name) ∧
      (∀ y, r = some y → HasRoom s₀ [x] y) ∧ Refs s₀ s' (r.toList ++ [x]) [x]) s
      fun e => (∃ y, s₀.entries x (elem name) = some y ∧ ¬HasRoom s₀ [x] y) ∧ Panics s₀ e := by
  have hlook := ends_dirlookup hg.disk h (hg.isDir x hdir) (zero_notMem_elem name)
  rw [take_elem] at hlook
  refine hlook.mono (fun _ _ => id) ?_
  rintro e ⟨⟨y, hy, hroom⟩, he⟩
  refine ⟨⟨y, hy, hroom⟩, .inr ⟨he, ?_⟩⟩
  have hle := taken_singleton_le s₀ x
  have hfull : ¬taken s₀ [x] < s₀.free := fun hlt => hroom (.inr hlt)
  omega

/-- **The loop of `namex`**, with a reference to `x`: the induction is on the elements of the path
that are left. -/
theorem ends_namexLoop (hg : Graph sb s₀ cwd) (np : Bool) {path name : List UInt8}
    (hpath : 0 ∉ path) (hname : name.length = DIRSIZ) (h : Refs s₀ s [x] [])
    {names : List (List UInt8)} (hnames : elems path = names) :
    Ends (namexLoop sb np path name x)
      (fun r s' => Passes s₀ np x names ∧ Resolved s₀ np x names r s') s
      fun e => ¬Passes s₀ np x names ∧ Panics s₀ e := by
  induction names generalizing path name x s with
  | nil =>
    rw [namexLoop]
    split
    · split_ifs with hnp
      · rw [ends_bind]
        refine (ends_iput hg.linked h).post fun _ s' h' => ?_
        refine ⟨trivial, ?_, fun _ hr => absurd rfl hr, h'⟩
        rw [resolve, if_pos hnp]
        rfl
      · refine ⟨trivial, ?_, fun hnp' => absurd hnp' hnp, h⟩
        rw [resolve, if_neg hnp]
        rfl
    · next hskip =>
      obtain ⟨hskip', -⟩ | ⟨_, _, -, helems, -⟩ := skipelem_spec hpath hname
      · rw [hskip'] at hskip
        cases hskip
      · rw [hnames] at helems
        cases helems
  | cons first names ih =>
    rw [namexLoop]
    split
    · next hskip =>
      obtain ⟨-, helems⟩ | ⟨_, _, hskip', -⟩ := skipelem_spec hpath hname
      · rw [hnames] at helems
        cases helems
      · rw [hskip'] at hskip
        cases hskip
    · next path' name' hskip =>
      obtain ⟨hskip', -⟩ | ⟨_, _, hskip', helems, hlast, hpath', hname'⟩ :=
        skipelem_spec hpath hname
      · rw [hskip'] at hskip
        cases hskip
      rw [hskip'] at hskip
      cases hskip
      rw [hnames] at helems
      obtain ⟨hfirst, hnames'⟩ := List.cons.inj helems
      subst hfirst
      rw [ends_bind]
      refine (ends_ilock hg.disk.held h).mono (fun _ s₁ h₁ => ?_) fun e he =>
        ⟨fun hp => hp.1 he.1, .inl he.2⟩
      obtain ⟨htype, h₁⟩ := h₁
      rw [ends_bind]
      refine ends_copy h₁ ?_
      rw [← Inodes.type]
      by_cases hdir : s₀.type x = T_DIR
      · rw [if_neg (not_not.mpr hdir)]
        by_cases hstop : np = true ∧ path' = []
        · -- stop one level early
          obtain rfl : names = [] := hnames'.trans (hlast.mp hstop.2)
          rw [if_pos hstop, ends_bind]
          refine (ends_iunlock h₁).post fun _ s₂ h₂ => ?_
          refine ⟨⟨htype, fun _ hmore => absurd ⟨hstop.1, rfl⟩ hmore⟩, ?_, fun _ _ => rfl, h₂⟩
          rw [resolve, if_pos hstop.1, walkParent, if_neg (List.cons_ne_nil _ _),
            List.dropLast_singleton, walk, Option.filter_some, if_pos (by simpa using hdir)]
        · have hmore : ¬(np = true ∧ names = []) := fun ⟨hnp, h0⟩ =>
            hstop ⟨hnp, hlast.mpr (hnames'.symm.trans h0)⟩
          have hresolve := resolve_cons s₀ np x (elem name') hmore
          rw [if_pos hdir] at hresolve
          rw [if_neg hstop, ends_bind]
          refine (ends_lookup hg h₁ hdir name').mono ?_ fun e he => ⟨fun hp => ?_, he.2⟩
          · rintro r s₂ ⟨hr, hroom, h₂⟩
            cases r with
            | none =>
              dsimp only
              rw [ends_bind]
              refine (ends_iunlockput hg.linked h₂).post fun _ s₃ h₃ => ?_
              refine ⟨⟨htype, fun _ _ y hy => ?_⟩, ?_, fun _ hr => absurd rfl hr, h₃⟩
              · rw [← hr] at hy
                cases hy
              · rw [hresolve, ← hr]
                rfl
            | some next =>
              dsimp only
              rw [ends_bind]
              have h₂' := h₂.perm (List.Perm.swap x next [])
              refine (ends_iunlockput hg.linked h₂').post fun _ s₃ h₃ => ?_
              refine (ih hpath' hname' h₃ hnames'.symm).mono ?_ fun e he => ?_
              · rintro r s' ⟨hpasses, hres⟩
                refine ⟨⟨htype, fun _ _ y hy => ?_⟩, ?_, fun hnp hne => ?_, hres.refs⟩
                · rw [← hr] at hy
                  cases hy
                  exact ⟨hroom next rfl, hpasses⟩
                · rw [hresolve, ← hr, hres.result]
                  rfl
                · have hne' : names ≠ [] := fun h0 => hmore ⟨hnp, h0⟩
                  rw [List.getLast?_cons_of_ne_nil hne', hres.name hnp hne]
              · exact ⟨fun hp => he.1 (hp.2 hdir hmore next hr.symm).2, he.2⟩
          · obtain ⟨y, hy, hroom⟩ := he.1
            exact hroom (hp.2 hdir hmore y hy).1
      · rw [if_pos hdir, ends_bind]
        refine (ends_iunlockput hg.linked h₁).post fun _ s₂ h₂ => ?_
        refine ⟨⟨htype, fun hdir' => absurd hdir' hdir⟩, ?_, fun _ hr => absurd rfl hr, h₂⟩
        exact (resolve_of_not_dir hdir np _ names).symm

theorem ends_namex (hg : Graph sb s cwd) (np : Bool) {path name : List UInt8} (hpath : 0 ∉ path)
    (hname : name.length = DIRSIZ) :
    Ends (namex sb cwd path np name) (fun r s' => Passable s np cwd path ∧
      Resolved s np (start cwd path) (elems path) r s') s
      fun e => ¬Passable s np cwd path ∧ Panics s e := by
  have hrefl := Refs.refl hg.copy hg.held
  rw [namex, Passable, start]
  split_ifs with hslash
  · rw [ends_bind]
    refine (ends_iget hrefl ROOTINO).mono ?_ fun e he => ⟨fun hp => he.1 (hp.1 hslash), ?_⟩
    · rintro _ s' ⟨hroom, h'⟩
      refine (ends_namexLoop hg np hpath hname h' rfl).mono (fun r s' hr => ?_) fun e he => ?_
      · exact ⟨⟨fun _ => hroom, hr.1⟩, hr.2⟩
      · exact ⟨fun hp => he.1 hp.2, he.2⟩
    · have hfull : ¬taken s [] < s.free := fun hlt => he.1 (.inr hlt)
      have h0 : taken s [] = 0 := rfl
      exact .inr ⟨he.2, by omega⟩
  · rw [ends_bind]
    refine (ends_idup hrefl hg.cwd).post fun _ s' h' => ?_
    refine (ends_namexLoop hg np hpath hname h' rfl).mono (fun r s' hr => ?_) fun e he => ?_
    · exact ⟨⟨fun h => absurd h hslash, hr.1⟩, hr.2⟩
    · exact ⟨fun hp => he.1 hp.2, he.2⟩

/-- What `namei` returns and leaves. -/
def Namei (s : Inodes) (x : ℕ) (names : List (List UInt8)) (r : Option ℕ) (s' : Inodes) : Prop :=
  r = walk s x names ∧ Refs s s' r.toList []

/-- What `nameiparent` returns and leaves. -/
def Nameiparent (s : Inodes) (x : ℕ) (names : List (List UInt8)) (r : Option ℕ × List UInt8)
    (s' : Inodes) : Prop :=
  r.1 = walkParent s x names ∧ (r.1 ≠ none → names.getLast? = some (elem r.2)) ∧
    Refs s s' r.1.toList []

theorem ends_namei (hg : Graph sb s cwd) {path name : List UInt8} (hpath : 0 ∉ path)
    (hname : name.length = DIRSIZ) :
    Ends (namei sb cwd path name) (fun r s' => Passable s false cwd path ∧
      Namei s (start cwd path) (elems path) r s') s
      fun e => ¬Passable s false cwd path ∧ Panics s e := by
  rw [namei, ends_bind]
  exact (ends_namex hg false hpath hname).post fun r _ h => ⟨h.1, h.2.result, h.2.refs⟩

theorem ends_nameiparent (hg : Graph sb s cwd) {path name : List UInt8} (hpath : 0 ∉ path)
    (hname : name.length = DIRSIZ) :
    Ends (nameiparent sb cwd path name) (fun r s' => Passable s true cwd path ∧
      Nameiparent s (start cwd path) (elems path) r s') s
      fun e => ¬Passable s true cwd path ∧ Panics s e :=
  (ends_namex hg true hpath hname).post fun _ _ h => ⟨h.1, h.2.result, h.2.name rfl, h.2.refs⟩

/-- **Path resolution.** `namei` looks the elements of the path up, one after the other, and
`nameiparent` all but the last, which it copies; both leave no lock, and one more reference to the
inode that they return. They do so if and only if the walk locks no free inode and finds an entry of
the inode table for each inode that it comes to; otherwise `ilock` or `iget` panics. -/
theorem path_resolution (sb : Superblock) (s : Inodes) (cwd : ℕ) (hg : Graph sb s cwd)
    (path : List UInt8) (hpath : 0 ∉ path) (name : List UInt8) (hname : name.length = DIRSIZ) :
    (Ends (namei sb cwd path name) (Namei s (start cwd path) (elems path)) s NoStop ↔
      Passable s false cwd path) ∧
    (Ends (nameiparent sb cwd path name) (Nameiparent s (start cwd path) (elems path)) s NoStop ↔
      Passable s true cwd path) := by
  refine ⟨Program.Meets.returns_iff ?_, Program.Meets.returns_iff ?_⟩
  · exact (ends_namei hg hpath hname).mono (fun _ _ => id) fun _ he => he.1
  · exact (ends_nameiparent hg hpath hname).mono (fun _ _ => id) fun _ he => he.1

/-! ## A tree on a disk -/

/-- A directory with one block. -/
def dirInode (nlink : Int16) (size addr : UInt32) : Dinode :=
  { Dinode.zero T_DIR with
    nlink := nlink
    size := size
    addrs := fun k => if k.val = 0 then addr else 0 }

/-- An entry with a short name. -/
def dirent (inum : UInt16) (name : List UInt8) : Dirent :=
  ⟨inum, name ++ List.replicate (DIRSIZ - name.length) 0⟩

/-- The directories of `treeDisk`, by their blocks. -/
def treeDirents : ℕ → List Dirent
  | 47 => [dirent 1 [46], dirent 1 [46, 46], dirent 2 [97]]
  | 48 => [dirent 2 [46], dirent 1 [46, 46], dirent 3 [98]]
  | 49 => [dirent 5 [46], dirent 4 [46, 46]]
  | _ => []

/-- `/a` is the directory 2, and `/a/b` is the file 3. The directory 5 has been removed while it was
in use; its `..` is the inode 4, which has been freed since. -/
def treeDisk : Fs.Disk where
  bitmap b := decide (b < 50)
  dinode
    | 1 => dirInode 2 48 47
    | 2 => dirInode 1 48 48
    | 3 => { Dinode.zero 2 with nlink := 1 }
    | 5 => dirInode 0 32 49
    | _ => .zero 0
  data b k := ((treeDirents b).flatMap Dirent.bytes).getD k 0
  held := []
  logged := []
  outstanding := 1

/-- The table holds the root and the directory 5. -/
def treeInodes : Inodes where
  disk := treeDisk
  copy := treeDisk.dinode
  valid x := x = 5
  ref x := if x = 1 ∨ x = 5 then 1 else 0
  free := 48
  held := []

theorem slot_treeDisk {i : ℕ} {k : Slot} (h : treeDisk.slot (treeDisk.dinode i) k ≠ 0) :
    k = .direct ⟨0, by decide⟩ ∧ (i = 1 ∧ treeDisk.slot (treeDisk.dinode i) k = 47 ∨
      i = 2 ∧ treeDisk.slot (treeDisk.dinode i) k = 48 ∨
      i = 5 ∧ treeDisk.slot (treeDisk.dinode i) k = 49) := by
  have hfirst : ∀ {nlink : Int16} {size addr : UInt32},
      treeDisk.slot (dirInode nlink size addr) k ≠ 0 → k = .direct ⟨0, by decide⟩ ∧
        treeDisk.slot (dirInode nlink size addr) k = addr.toNat := fun {nlink size addr} hk => by
    have haddrs : (dirInode nlink size addr).addrs = Function.update (fun _ => 0) 0 addr := by
      funext j
      rw [Function.update_apply]
      exact if_congr Fin.val_eq_zero_iff rfl rfl
    exact Fs.slot_of_first haddrs hk
  have hnone : ∀ d : Dinode, (∀ a, d.addrs a = 0) → treeDisk.slot d k = 0 := fun d h0 =>
    Fs.slot_of_addrs_eq_zero h0 k
  match i with
  | 1 => exact ⟨(hfirst h).1, .inl ⟨rfl, (hfirst h).2⟩⟩
  | 2 => exact ⟨(hfirst h).1, .inr (.inl ⟨rfl, (hfirst h).2⟩)⟩
  | 5 => exact ⟨(hfirst h).1, .inr (.inr ⟨rfl, (hfirst h).2⟩)⟩
  | 0 | 3 | 4 | _ + 6 => exact (h (hnone _ fun _ => rfl)).elim

theorem noHoles_dirInode {nlink : Int16} {size addr : UInt32} (hsize : size.toNat ≤ Fs.BSIZE)
    (haddr : addr.toNat ≠ 0) : Fs.NoHoles treeDisk (dirInode nlink size addr) := by
  refine ⟨hsize.trans (by decide), fun bn hbn => ?_⟩
  obtain rfl : bn = 0 := by
    have hlt : bn * Fs.BSIZE < Fs.BSIZE := lt_of_lt_of_le hbn hsize
    rw [Fs.BSIZE] at hlt
    omega
  exact haddr

theorem noHoles_empty {d : Dinode} (h0 : d.size = 0) : Fs.NoHoles treeDisk d := by
  have h0' : d.size.toNat = 0 := congrArg UInt32.toNat h0
  exact ⟨h0' ▸ Nat.zero_le _, fun bn hbn => by omega⟩

theorem noHoles_treeDisk (i : ℕ) : Fs.NoHoles treeDisk (treeDisk.dinode i) := by
  match i with
  | 1 | 2 | 5 => exact noHoles_dirInode (by decide) (by decide)
  | 0 | 3 | 4 | _ + 6 => exact noHoles_empty rfl

theorem consistent_treeDisk : Fs.Consistent Fs.newSuperblock treeDisk where
  held := rfl
  metadata b hb := decide_eq_true (hb.trans (by decide))
  owned := by
    refine ⟨fun i k h0 => ?_, fun i k i' k' h0 he => ?_⟩
    · obtain ⟨-, ⟨-, hs⟩ | ⟨-, hs⟩ | ⟨-, hs⟩⟩ := slot_treeDisk h0 <;>
      · rw [hs]
        decide
    · obtain ⟨rfl, hi⟩ := slot_treeDisk h0
      obtain ⟨rfl, hi'⟩ := slot_treeDisk (he ▸ h0)
      refine ⟨?_, rfl⟩
      omega
  noHoles := noHoles_treeDisk

theorem isDir_treeDisk {x : ℕ} (h : treeInodes.type x = T_DIR) :
    Fs.IsDir treeDisk (treeDisk.dinode x) := by
  match x with
  | 1 | 2 | 5 => exact ⟨rfl, rfl, SlotMap.distinct_of_nodup (by decide)⟩
  | 3 => exact absurd h (by decide)
  | 0 | 4 | _ + 6 =>
    have h0 : (0 : Int16) = T_DIR := h
    exact absurd h0 (by decide)

theorem graph_treeInodes {cwd : ℕ} (hcwd : cwd = 1 ∨ cwd = 5) :
    Graph Fs.newSuperblock treeInodes cwd where
  disk := consistent_treeDisk
  isDir _ := isDir_treeDisk
  copy x _ hvalid := by
    obtain rfl : x = 5 := of_decide_eq_true hvalid
    exact ⟨rfl, by decide⟩
  linked x hx := by
    match x with
    | 1 | 2 | 3 => exact .inl (by decide)
    | 5 => exact .inr le_rfl
    | 0 | 4 | _ + 6 => exact absurd rfl hx
  cwd := (if_pos hcwd).ge
  held := rfl

/-- The path `/a//b/`. -/
theorem tree_resolution :
    (∃ s, (namei Fs.newSuperblock 1 [47, 97, 47, 47, 98, 47] (List.replicate 14 0)).run inodes
      treeInodes = .ok (some 3, s) ∧ Refs treeInodes s [3] []) ∧
    ∃ name s, (nameiparent Fs.newSuperblock 1 [47, 97, 47, 47, 98, 47]
      (List.replicate 14 0)).run inodes treeInodes = .ok ((some 2, name), s) ∧
        elem name = [98] ∧ Refs treeInodes s [2] [] := by
  obtain ⟨hnamei, hparent⟩ := path_resolution Fs.newSuperblock treeInodes 1
    (graph_treeInodes (.inl rfl)) [47, 97, 47, 47, 98, 47] (by decide) (List.replicate 14 0)
    (by decide)
  have helems : elems [47, 97, 47, 47, 98, 47] = [[97], [98]] := by decide
  constructor
  · obtain ⟨r, s, hrun, hr, hrefs⟩ := (hnamei.mpr (by decide)).returns
    obtain rfl : r = some 3 := hr.trans (by decide)
    exact ⟨s, hrun, hrefs⟩
  · obtain ⟨⟨r, name⟩, s, hrun, hr, hname, hrefs⟩ := (hparent.mpr (by decide)).returns
    obtain rfl : r = some 2 := hr.trans (by decide)
    refine ⟨name, s, hrun, ?_, hrefs⟩
    have hlast := hname (Option.some_ne_none _)
    rw [helems] at hlast
    exact (Option.some.inj hlast).symm

/-- A walk that does not pass stops in `ilock`, if there are free entries. -/
theorem run_eq_noType {α : Type} {c : M α} {P : Prop} {Q : α → Inodes → Prop}
    (hc : Ends c (fun a s' => P ∧ Q a s') s fun e => ¬P ∧ Panics s e) (hP : ¬P)
    (hfree : 1 < s.free) : c.run inodes s = .error .noType := by
  rw [Ends, Program.Meets] at hc
  cases hrun : c.run inodes s with
  | ok p =>
    simp only [hrun] at hc
    exact absurd hc.1 hP
  | error e =>
    simp only [hrun] at hc
    obtain rfl | ⟨-, hle⟩ := hc.2
    · rfl
    · omega

/-- The path `../x`, in the directory that has been removed. -/
theorem removed_directory_panics :
    Graph Fs.newSuperblock treeInodes 5 ∧
    walk treeInodes 5 (elems [46, 46, 47, 120]) = none ∧
    (namei Fs.newSuperblock 5 [46, 46, 47, 120] (List.replicate 14 0)).run inodes treeInodes =
      .error .noType ∧
    walkParent treeInodes 5 (elems [46, 46, 47, 120]) = none ∧
    (nameiparent Fs.newSuperblock 5 [46, 46, 47, 120] (List.replicate 14 0)).run inodes treeInodes =
      .error .noType := by
  have hg := graph_treeInodes (.inr rfl)
  refine ⟨hg, by decide, ?_, by decide, ?_⟩
  · exact run_eq_noType (ends_namei hg (by decide) (by decide)) (by decide) (by decide)
  · exact run_eq_noType (ends_nameiparent hg (by decide) (by decide)) (by decide) (by decide)

end Xv6.Path
