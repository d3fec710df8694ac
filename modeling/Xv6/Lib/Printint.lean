import Xv6.Foundations.Numerals

/-!
# printint

`printint` of printf.c: the digits of a number go into a buffer of 20 characters from the lowest
on, then a minus sign, and the buffer is printed backwards. An access to the buffer at an index
beyond its end is `none`.
-/

namespace Xv6.Lib

/-! ## The code -/

/-- The size of `buf`. -/
def BUFSIZE : ℕ := 20

/-- `digits` -/
def digits : List Char :=
  ['0', '1', '2', '3', '4', '5', '6', '7', '8', '9', 'a', 'b', 'c', 'd', 'e', 'f']

/-- `buf` and `i`. -/
structure Buffer where
  buf : Fin BUFSIZE → Char
  i : ℕ

/-- `buf[i++] = c` -/
def Buffer.put (b : Buffer) (c : Char) : Option Buffer :=
  if h : b.i < BUFSIZE then some ⟨Function.update b.buf ⟨b.i, h⟩ c, b.i + 1⟩ else none

/-- The loop of `printint` over the digits of `x`, with `room` characters of `buf` not written. -/
def putDigits (base : UInt64) : (room : ℕ) → Buffer → (x : UInt64) → Option Buffer
  -- the next write is beyond the end
  | 0, _, _ => none
  | room + 1, b, x => do
    let c ← digits[(x % base).toNat]?
    let b ← b.put c
    if x / base ≠ 0 then putDigits base room b (x / base) else some b

/-- The loop `while(--i >= 0) consputc(buf[i])`: the characters it prints. -/
def putAll (buf : Fin BUFSIZE → Char) : (i : ℕ) → Option (List Char)
  | 0 => some []
  | i + 1 => do
    if h : i < BUFSIZE then
      let cs ← putAll buf i
      some (buf ⟨i, h⟩ :: cs)
    else none

/-- `printint`: the characters it prints. `junk` is what `buf` holds in the beginning. -/
def printint (junk : Fin BUFSIZE → Char) (xx : Int64) (base sign : Int32) :
    Option (List Char) := do
  let negative := sign ≠ 0 ∧ xx < 0
  let x := if negative then (-xx).toUInt64 else xx.toUInt64
  let b ← putDigits base.toInt64.toUInt64 BUFSIZE ⟨junk, 0⟩ x
  let b ← if negative then b.put '-' else some b
  putAll b.buf b.i

/-! ## The buffer -/

/-- The characters written so far are `cs`, the last of them first. -/
def Buffer.Has (b : Buffer) (cs : List Char) : Prop :=
  b.i = cs.length ∧ ∀ i (h : i < BUFSIZE), i < b.i → cs.reverse[i]? = some (b.buf ⟨i, h⟩)

theorem Buffer.Has.put {b : Buffer} {cs : List Char} (hb : b.Has cs) (c : Char)
    (hroom : cs.length < BUFSIZE) : ∃ b', b.put c = some b' ∧ b'.Has (c :: cs) := by
  obtain ⟨hi, hbuf⟩ := hb
  have hlt : b.i < BUFSIZE := hi ▸ hroom
  refine ⟨_, dif_pos hlt, congrArg (· + 1) hi, fun i h hle => ?_⟩
  dsimp only at hle ⊢
  rw [List.reverse_cons]
  rcases Nat.lt_succ_iff_lt_or_eq.1 hle with hold | rfl
  · have hne : (⟨i, h⟩ : Fin BUFSIZE) ≠ ⟨b.i, hlt⟩ := fun heq => hold.ne (Fin.mk.inj heq)
    rw [Function.update_of_ne hne, List.getElem?_append_left (by rw [List.length_reverse]; omega)]
    exact hbuf i h hold
  · rw [Function.update_self, List.getElem?_append_right (by rw [List.length_reverse]; omega)]
    simp [hi]

/-- The characters are printed in this order. -/
theorem putAll_eq {buf : Fin BUFSIZE → Char} {cs : List Char} (hroom : cs.length ≤ BUFSIZE)
    (hbuf : ∀ i (h : i < BUFSIZE), i < cs.length → cs.reverse[i]? = some (buf ⟨i, h⟩)) :
    putAll buf cs.length = some cs := by
  induction cs with
  | nil => rfl
  | cons c cs ih =>
    rw [List.length_cons] at hroom hbuf
    have hlt : cs.length < BUFSIZE := hroom
    have hc : buf ⟨cs.length, hlt⟩ = c := by
      have := hbuf cs.length hlt (Nat.lt_succ_self _)
      simpa using this.symm
    have hcs : putAll buf cs.length = some cs := by
      refine ih hlt.le fun i h hle => ?_
      rw [← hbuf i h (Nat.lt_succ_of_lt hle), List.reverse_cons,
        List.getElem?_append_left (by rwa [List.length_reverse])]
    rw [List.length_cons, putAll, dif_pos hlt, hcs]
    exact congrArg (fun c => some (c :: cs)) hc

/-! ## The digits -/

theorem getElem?_digits : ∀ d < 16, digits[d]? = some d.digitChar := by decide

/-- The loop over the digits writes a numeral in front of what has been written. -/
theorem putDigits_eq {base : UInt64} (hbase : 1 < base.toNat) (hbase' : base.toNat ≤ 16)
    {room : ℕ} {b : Buffer} {cs : List Char} {x : UInt64} (hb : b.Has cs)
    (hroom : cs.length + room = BUFSIZE) (hpos : 0 < room) (hx : x.toNat < base.toNat ^ room) :
    ∃ b', putDigits base room b x = some b' ∧
      b'.Has (Nat.toDigits base.toNat x.toNat ++ cs) := by
  induction room generalizing b cs x with
  | zero => exact absurd hpos (lt_irrefl 0)
  | succ room ih =>
    have hmod : x.toNat % base.toNat < base.toNat := Nat.mod_lt _ (by omega)
    obtain ⟨b₁, hput, hb₁⟩ := hb.put (x.toNat % base.toNat).digitChar (by omega)
    have hdigit : digits[(x % base).toNat]? = some (x.toNat % base.toNat).digitChar := by
      rw [UInt64.toNat_mod]
      exact getElem?_digits _ (hmod.trans_le hbase')
    have hdiv : x / base = 0 ↔ x.toNat < base.toNat := by
      rw [← UInt64.toNat_inj, UInt64.toNat_div, UInt64.toNat_zero, Nat.div_eq_zero_iff]
      omega
    rw [putDigits, hdigit, Option.bind_eq_bind, Option.bind_some, hput, Option.bind_eq_bind,
      Option.bind_some, Nat.toDigits_eq_if hbase]
    by_cases hlast : x.toNat < base.toNat
    · rw [if_neg (not_not.2 (hdiv.2 hlast)), if_pos hlast]
      rw [Nat.mod_eq_of_lt hlast] at hb₁
      exact ⟨b₁, rfl, hb₁⟩
    · have hquot : (x / base).toNat < base.toNat ^ room := by
        rw [UInt64.toNat_div]
        exact Nat.div_lt_of_lt_mul (lt_of_lt_of_eq hx (Nat.pow_succ'))
      have hroom₁ : 0 < room := by
        refine Nat.pos_of_ne_zero ?_
        rintro rfl
        rw [Nat.zero_add, Nat.pow_one] at hx
        exact hlast hx
      rw [if_pos (fun h => hlast (hdiv.1 h)), if_neg hlast]
      obtain ⟨b₂, hrest, hb₂⟩ := ih hb₁ (by rw [List.length_cons]; omega) hroom₁ hquot
      refine ⟨b₂, hrest, ?_⟩
      rw [UInt64.toNat_div] at hb₂
      rwa [List.append_assoc]

/-! ## The number -/

/-- A signed number in two's complement. -/
theorem toInt_eq (xx : Int64) : xx.toInt =
    if 2 * xx.toUInt64.toNat < 2 ^ 64 then (xx.toUInt64.toNat : ℤ)
    else (xx.toUInt64.toNat : ℤ) - (2 ^ 64 : ℕ) :=
  BitVec.toInt_eq_toNat_cond ..

theorem toNat_of_nonneg {xx : Int64} (h : ¬xx < 0) : (xx.toUInt64.toNat : ℤ) = xx.toInt := by
  rw [Int64.lt_iff_toInt_lt, Int64.toInt_zero] at h
  have hxx := toInt_eq xx
  have hlt := xx.toUInt64.toNat_lt
  split at hxx
  case isTrue => exact hxx.symm
  case isFalse => omega

/-- The number after its negation, also if it is the most negative one. -/
theorem toNat_neg {xx : Int64} (h : xx < 0) : ((-xx).toUInt64.toNat : ℤ) = -xx.toInt := by
  rw [Int64.lt_iff_toInt_lt, Int64.toInt_zero] at h
  have hneg : (-xx).toUInt64.toNat = (2 ^ 64 - xx.toUInt64.toNat) % 2 ^ 64 := by
    rw [← Int64.toNat_toBitVec, Int64.toBitVec_neg, BitVec.toNat_neg, Int64.toNat_toBitVec]
  have hxx := toInt_eq xx
  have hlt := xx.toUInt64.toNat_lt
  split at hxx
  case isTrue => omega
  case isFalse => omega

/-! ## The numeral -/

/-- The digits of a number that fits in `k` of them, and `-`. -/
theorem putDigits_signed (base x : UInt64) (hbase : 1 < base.toNat) (hbase' : base.toNat ≤ 16)
    (junk : Fin BUFSIZE → Char) (negative : Prop) [Decidable negative]
    (hx : x.toNat < base.toNat ^ BUFSIZE)
    (hx' : negative → x.toNat < base.toNat ^ (BUFSIZE - 1)) :
    (do
      let b ← putDigits base BUFSIZE ⟨junk, 0⟩ x
      let b ← if negative then b.put '-' else some b
      putAll b.buf b.i) = some (Numerals.signed base.toNat negative x.toNat) := by
  have hempty : (Buffer.mk junk 0).Has [] := ⟨rfl, nofun⟩
  obtain ⟨b, hput, hb⟩ := putDigits_eq hbase hbase' hempty rfl (by decide) hx
  rw [List.append_nil] at hb
  have hlen := (Nat.length_toDigits_le_iff hbase (by decide)).2 hx
  rw [hput, Option.bind_eq_bind, Option.bind_some, Numerals.signed]
  by_cases hneg : negative
  · have hlen' := (Nat.length_toDigits_le_iff hbase (by decide)).2 (hx' hneg)
    obtain ⟨b', hput', hb'⟩ := hb.put '-' (lt_of_le_of_lt hlen' (by decide))
    rw [if_pos hneg, if_pos (decide_eq_true hneg), hput']
    change putAll b'.buf b'.i = _
    rw [hb'.1]
    exact putAll_eq (lt_of_le_of_lt hlen' (by decide)) fun i h hi => hb'.2 i h (hb'.1 ▸ hi)
  · rw [if_neg hneg, if_neg (fun h => hneg (of_decide_eq_true h))]
    change putAll b.buf b.i = _
    rw [hb.1]
    exact putAll_eq hlen fun i h hi => hb.2 i h (hb.1 ▸ hi)

/-- **printint is exact.** In base 10 or 16 it writes inside its buffer, and it prints a numeral
without a superfluous zero that denotes `xx` as a signed or unsigned number. -/
theorem printint_exact (junk : Fin BUFSIZE → Char) (xx : Int64) (base sign : Int32)
    (hbase : base = 10 ∨ base = 16) :
    ∃ cs, printint junk xx base sign = some cs ∧
      Numerals.readInt base.toInt.toNat cs =
        some (if sign ≠ 0 then xx.toInt else xx.toUInt64.toNat) ∧
      Numerals.Canonical cs := by
  have hb : base.toInt64.toUInt64.toNat = base.toInt.toNat ∧
      (base.toInt.toNat = 10 ∨ base.toInt.toNat = 16) := by
    rcases hbase with rfl | rfl <;> decide
  obtain ⟨hnat, hvalue⟩ := hb
  have hone : 1 < base.toInt.toNat := by omega
  have hsixteen : base.toInt.toNat ≤ 16 := by omega
  have hpow : ∀ k, 10 ^ k ≤ base.toInt.toNat ^ k := fun k => Nat.pow_le_pow_left (by omega) k
  let negative := sign ≠ 0 ∧ xx < 0
  let x := if negative then (-xx).toUInt64 else xx.toUInt64
  have hlt := x.toNat_lt
  have hmag : negative → (x.toNat : ℤ) = -xx.toInt := fun h => by
    change ((if negative then _ else _ : UInt64).toNat : ℤ) = _
    rw [if_pos h, toNat_neg h.2]
  have hsmall : negative → x.toNat < 10 ^ 19 := fun h => by
    have := hmag h
    have := Int64.le_toInt xx
    omega
  refine ⟨Numerals.signed base.toInt.toNat negative x.toNat, ?_, ?_, ?_⟩
  · have := putDigits_signed base.toInt64.toUInt64 x (hnat ▸ hone) (hnat ▸ hsixteen) junk negative
      (by rw [hnat]; exact lt_of_lt_of_le (by omega) (hpow 20))
      (fun h => by rw [hnat]; exact lt_of_lt_of_le (hsmall h) (hpow 19))
    rw [hnat] at this
    exact this
  · rw [Numerals.readInt_signed hone hsixteen]
    congr 1
    by_cases hneg : negative
    · rw [if_pos (decide_eq_true hneg), if_pos hneg.1, hmag hneg, neg_neg]
    · rw [if_neg (fun h => hneg (of_decide_eq_true h))]
      change ((if negative then _ else _ : UInt64).toNat : ℤ) = _
      rw [if_neg hneg]
      split
      case isTrue hsign => exact toNat_of_nonneg fun h => hneg ⟨hsign, h⟩
      case isFalse => rfl
  · refine Numerals.canonical_signed hone fun h => ?_
    have hneg : negative := of_decide_eq_true h
    have := hmag hneg
    have h0 := hneg.2
    rw [Int64.lt_iff_toInt_lt, Int64.toInt_zero] at h0
    omega

/-- The most negative number. -/
theorem printint_minValue : ∃ cs, printint (fun _ => ' ') Int64.minValue 10 1 = some cs ∧
    Numerals.readInt 10 cs = some (-2 ^ 63) ∧ Numerals.Canonical cs :=
  printint_exact (fun _ => ' ') Int64.minValue 10 1 (Or.inl rfl)

example : printint (fun _ => ' ') (-255) 16 0 =
    some ['f', 'f', 'f', 'f', 'f', 'f', 'f', 'f', 'f', 'f', 'f', 'f', 'f', 'f', '0', '1'] := by
  decide

end Xv6.Lib
