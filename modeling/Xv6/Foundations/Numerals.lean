import Mathlib.Algebra.Order.Ring.Int

/-!
# Numerals

Reading a text as a number in a base of at most 16, with the digits `0` to `9` and `a` to `f`.
The reader is defined on its own and accepts leading zeros; `Canonical` texts have none that is
superfluous. `Nat.toDigits` writes canonical texts that are read as the number written.
-/

namespace Xv6.Numerals

/-- The value of a digit. -/
def digitVal (c : Char) : Option ℕ :=
  if '0' ≤ c ∧ c ≤ '9' then some (c.toNat - '0'.toNat)
  else if 'a' ≤ c ∧ c ≤ 'f' then some (c.toNat - 'a'.toNat + 10)
  else none

/-- Read one more digit in base `b`. -/
def readDigit (b n : ℕ) (c : Char) : Option ℕ := do
  let d ← digitVal c
  if d < b then some (b * n + d) else none

/-- Read a numeral, which has at least one digit. -/
def readNat (b : ℕ) : List Char → Option ℕ
  | [] => none
  | cs => cs.foldlM (readDigit b) 0

/-- Read a numeral with an optional leading `-`. -/
def readInt (b : ℕ) : List Char → Option ℤ
  | '-' :: cs => (readNat b cs).map fun n => -(n : ℤ)
  | cs => (readNat b cs).map fun n => (n : ℤ)

/-- A zero in front stands alone, and not after a `-`. -/
def Canonical : List Char → Prop
  | '-' :: cs => cs.head? ≠ some '0'
  | cs => cs.head? = some '0' → cs = ['0']

/-! ## What is written is read -/

theorem digitVal_digitChar : ∀ d < 16, digitVal d.digitChar = some d := by decide

theorem readDigit_digitChar {b d : ℕ} (n : ℕ) (hb : b ≤ 16) (hd : d < b) :
    readDigit b n d.digitChar = some (b * n + d) := by
  rw [readDigit, digitVal_digitChar d (hd.trans_le hb)]
  exact if_pos hd

theorem foldlM_toDigits {b : ℕ} (hb : 1 < b) (hb' : b ≤ 16) (n : ℕ) :
    (Nat.toDigits b n).foldlM (readDigit b) 0 = some n := by
  induction n using Nat.strongRecOn with
  | ind n ih =>
    rw [Nat.toDigits_eq_if hb]
    split
    case isTrue hn =>
      rw [List.foldlM_cons, readDigit_digitChar 0 hb' hn, Nat.mul_zero, Nat.zero_add]
      rfl
    case isFalse hn =>
      have hdiv : n / b < n := Nat.div_lt_self (by omega) hb
      have hmod : n % b < b := Nat.mod_lt n (by omega)
      rw [List.foldlM_append, ih _ hdiv, Option.bind_eq_bind, Option.bind_some, List.foldlM_cons,
        readDigit_digitChar _ hb' hmod, Nat.div_add_mod]
      rfl

theorem readNat_toDigits {b : ℕ} (hb : 1 < b) (hb' : b ≤ 16) (n : ℕ) :
    readNat b (Nat.toDigits b n) = some n := by
  rw [← foldlM_toDigits hb hb' n]
  cases h : Nat.toDigits b n with
  | nil => exact absurd h Nat.toDigits_ne_nil
  | cons c cs => rfl

/-! ## Leading characters -/

/-- The first digit of a positive number is a digit other than zero. -/
theorem head?_toDigits {b n : ℕ} (hb : 1 < b) (hn : 0 < n) :
    ∃ d, 0 < d ∧ (Nat.toDigits b n).head? = some d.digitChar := by
  induction n using Nat.strongRecOn with
  | ind n ih =>
    rw [Nat.toDigits_eq_if hb]
    split
    case isTrue => exact ⟨n, hn, rfl⟩
    case isFalse hle =>
      have hdiv : n / b < n := Nat.div_lt_self hn hb
      obtain ⟨d, hd, hhead⟩ := ih (n / b) hdiv (Nat.div_pos (not_lt.1 hle) (by omega))
      exact ⟨d, hd, by rw [List.head?_append, hhead]; rfl⟩

theorem head?_toDigits_ne_zero {b n : ℕ} (hb : 1 < b) (hn : 0 < n) :
    (Nat.toDigits b n).head? ≠ some '0' := by
  obtain ⟨d, hd, hhead⟩ := head?_toDigits hb hn
  rw [hhead]
  intro h
  exact hd.ne' (Nat.digitChar_eq_zero.1 (Option.some.inj h))

/-- A numeral does not start with `-`. -/
theorem head?_toDigits_ne_minus {b : ℕ} (hb : 1 < b) (n : ℕ) :
    (Nat.toDigits b n).head? ≠ some '-' := by
  rcases n.eq_zero_or_pos with rfl | hn
  · rw [Nat.toDigits_zero]
    decide
  · obtain ⟨d, -, hhead⟩ := head?_toDigits hb hn
    rw [hhead]
    exact fun h => Nat.digitChar_ne '-' (by decide) (Option.some.inj h)

/-! ## Numerals with a sign -/

theorem readInt_of_head?_ne {b : ℕ} {cs : List Char} (h : cs.head? ≠ some '-') :
    readInt b cs = (readNat b cs).map fun n => (n : ℤ) := by
  rw [readInt.eq_def]
  split
  · exact absurd rfl h
  · rfl

theorem canonical_of_head?_ne {cs : List Char} (h : cs.head? ≠ some '-') :
    Canonical cs ↔ (cs.head? = some '0' → cs = ['0']) := by
  rw [Canonical.eq_def]
  split
  · exact absurd rfl h
  · rfl

/-- The text of a number with its sign. -/
def signed (b : ℕ) (negative : Bool) (n : ℕ) : List Char :=
  if negative then '-' :: Nat.toDigits b n else Nat.toDigits b n

theorem readInt_signed {b : ℕ} (hb : 1 < b) (hb' : b ≤ 16) (negative : Bool) (n : ℕ) :
    readInt b (signed b negative n) = some (if negative then -(n : ℤ) else n) := by
  cases negative with
  | true =>
    rw [signed, if_pos rfl, if_pos rfl, readInt, readNat_toDigits hb hb']
    rfl
  | false =>
    change readInt b (Nat.toDigits b n) = _
    rw [readInt_of_head?_ne (head?_toDigits_ne_minus hb n), readNat_toDigits hb hb']
    rfl

theorem canonical_signed {b : ℕ} (hb : 1 < b) {negative : Bool} {n : ℕ}
    (h : negative → 0 < n) : Canonical (signed b negative n) := by
  cases negative with
  | true => exact head?_toDigits_ne_zero hb (h rfl)
  | false =>
    refine (canonical_of_head?_ne (head?_toDigits_ne_minus hb n)).2 fun hhead => ?_
    rcases n.eq_zero_or_pos with rfl | hn
    · exact Nat.toDigits_zero b
    · exact absurd hhead (head?_toDigits_ne_zero hb hn)

end Xv6.Numerals
