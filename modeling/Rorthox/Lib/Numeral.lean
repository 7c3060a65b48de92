import Rorthox.Lib.CString

/-!
# Numerals

The text of a number in a base, as the library writes it, and the two loops that produce it: one
that divides and stacks the digits, and one that fills a buffer from its end.
-/

namespace Rorthox.Lib

/-- The digits of `n`, without leading zeros. -/
def numeral (base n : Nat) : List UInt8 := (Nat.toDigits base n).map Char.toUInt8

/-- The numeral of an integer, with its sign. -/
def decimal (v : Int) : List UInt8 :=
  if v < 0 then '-'.toUInt8 :: numeral 10 v.natAbs else numeral 10 v.natAbs

theorem numeral_lt {base n : Nat} (h : n < base) : numeral base n = [n.digitChar.toUInt8] := by
  rw [numeral, Nat.toDigits_of_lt_base h]
  rfl

theorem numeral_ge {base n : Nat} (hb : 1 < base) (h : base ≤ n) :
    numeral base n = numeral base (n / base) ++ [(n % base).digitChar.toUInt8] := by
  rw [numeral, Nat.toDigits_eq_if hb, if_neg (Nat.not_lt.mpr h), List.map_append]
  rfl

theorem numeral_length_pos (base n : Nat) : 0 < (numeral base n).length := by
  rw [numeral, List.length_map]
  exact Nat.length_toDigits_pos

/-- A numeral has one digit exactly below its base. -/
theorem numeral_length_eq_one {base n : Nat} (hb : 1 < base) :
    (numeral base n).length = 1 ↔ n < base := by
  by_cases h : n < base
  · simp [numeral_lt h, h]
  · have hpos := numeral_length_pos base (n / base)
    simp only [numeral_ge hb (Nat.not_lt.mp h), List.length_append, List.length_singleton, h,
      iff_false]
    omega

theorem digitChar_ne_nul (k : Nat) : k.digitChar.toUInt8 ≠ 0 := by
  rcases Nat.lt_or_ge k 16 with h | h
  · interval_cases k <;> decide
  · have hstar : k.digitChar = '*' := by
      unfold Nat.digitChar
      repeat rw [if_neg (by omega)]
    rw [hstar]
    decide

theorem numeral_clean {base : Nat} (hb : 1 < base) (n : Nat) : (0 : UInt8) ∉ numeral base n := by
  induction n using Nat.strong_induction_on with
  | _ n ih =>
    have hdigit : ∀ k : Nat, (0 : UInt8) ∉ [k.digitChar.toUInt8] := fun k h =>
      digitChar_ne_nul k (List.mem_singleton.mp h).symm
    by_cases h : n < base
    · rw [numeral_lt h]
      exact hdigit n
    · have hle := Nat.not_lt.mp h
      rw [numeral_ge hb hle, List.mem_append, not_or]
      exact ⟨ih _ (Nat.div_lt_self (by omega) hb), hdigit _⟩

theorem decimal_clean (v : Int) : (0 : UInt8) ∉ decimal v := by
  have hn := numeral_clean (show 1 < 10 by decide) v.natAbs
  unfold decimal
  split
  · simp only [List.mem_cons, not_or]
    exact ⟨by decide, hn⟩
  · exact hn

/-! ## Dividing -/

/-- Stack the digits of `value`, with room for so many. -/
def divideLoop (base : Nat) (digit : Nat → UInt8) : Nat → Nat → List UInt8 → Option (List UInt8)
  | 0, _, _ => none
  | room + 1, value, number =>
      if value / base = 0 then some (digit (value % base) :: number)
      else divideLoop base digit room (value / base) (digit (value % base) :: number)

/-- With room enough the digits come out in the order they are written. -/
theorem divideLoop_eq {base : Nat} (hb : 1 < base) {digit : Nat → UInt8} {write : Char → UInt8}
    (hd : ∀ d, d < base → digit d = write d.digitChar) (room : Nat) :
    ∀ {value : Nat} (number : List UInt8),
    value < base ^ (room + 1) →
      divideLoop base digit (room + 1) value number = some
        ((Nat.toDigits base value).map write ++ number) := by
  induction room with
  | zero =>
    intro value number h
    rw [Nat.zero_add, Nat.pow_one] at h
    rw [divideLoop, if_pos (Nat.div_eq_of_lt h), Nat.mod_eq_of_lt h, hd value h,
      Nat.toDigits_of_lt_base h]
    rfl
  | succ room ih =>
    intro value number h
    have hlast := hd (value % base) (Nat.mod_lt _ (by omega))
    rw [divideLoop, Nat.toDigits_eq_if hb]
    by_cases hlt : value < base
    · rw [if_pos (Nat.div_eq_of_lt hlt), if_pos hlt, hlast, Nat.mod_eq_of_lt hlt]
      rfl
    · have hne : value / base ≠ 0 := by
        rw [Ne, Nat.div_eq_zero_iff]
        omega
      have hquot : value / base < base ^ (room + 1) := by
        rw [Nat.div_lt_iff_lt_mul (by omega)]
        rwa [Nat.pow_succ] at h
      rw [if_neg hne, if_neg hlt, ih _ hquot, hlast]
      simp

/-! ## Filling from the end -/

theorem splice_snoc (dest : Bytes) (start : Nat) (l : List UInt8) (c : UInt8) :
    splice (Function.update dest (start + l.length) c) start l = splice dest start (l ++ [c]) := by
  induction l generalizing dest start with
  | nil =>
    rw [List.nil_append, ← splice_cons, splice_nil, splice_nil]
    rfl
  | cons a l ih =>
    have hne : start + (l.length + 1) ≠ start := by omega
    rw [List.cons_append, ← splice_cons, ← splice_cons, List.length_cons, Function.update_comm hne,
      ← ih, Nat.add_assoc, Nat.add_comm 1]

theorem splice_front (dest : Bytes) (start : Nat) (l : List UInt8) (c : UInt8) :
    Function.update (splice dest (start + 1) l) start c = splice dest start (c :: l) := by
  rw [← splice_cons]
  funext p
  by_cases hp : p = start
  · rw [hp, Function.update_self, splice_outside (Or.inl (Nat.lt_succ_self start)),
      Function.update_self]
  · rw [Function.update_of_ne hp]
    unfold splice
    rw [Function.update_of_ne hp]

theorem splice_append (dest : Bytes) (start : Nat) (l : List UInt8) (c : UInt8) :
    Function.update (splice dest start l) (start + l.length) c = splice dest start (l ++ [c]) := by
  induction l generalizing dest start with
  | nil =>
    rw [List.nil_append, ← splice_cons, splice_nil, splice_nil]
    rfl
  | cons a l ih =>
    rw [List.cons_append, ← splice_cons, ← splice_cons, List.length_cons, ← ih, Nat.add_assoc,
      Nat.add_comm 1]

end Rorthox.Lib
