import Mathlib

/-!
# Masks of 32-bit words

Words are naturals. A mask with a contiguous block of ones is a remainder or a
quotient, and a union of disjoint parts is a sum.
-/

namespace Rorthox.Lib

theorem land_low (n k : Nat) : n &&& (2 ^ k - 1) = n % 2 ^ k := Nat.and_two_pow_sub_one_eq_mod n k

/-- The upper twenty bits of a word, as a multiple of 4096. -/
theorem land_page (n : Nat) : n &&& 0xFFFFF000 = n / 4096 % 2 ^ 20 * 4096 := by
  have hmask : (0xFFFFF000 : Nat) = (2 ^ 20 - 1) <<< 12 := by decide
  rw [show n / 4096 % 2 ^ 20 * 4096 = (n >>> 12 &&& (2 ^ 20 - 1)) <<< 12 by
    rw [land_low, Nat.shiftLeft_eq, Nat.shiftRight_eq_div_pow]]
  rw [hmask]
  apply Nat.eq_of_testBit_eq
  intro i
  simp only [Nat.testBit_and, Nat.testBit_shiftLeft, Nat.testBit_shiftRight]
  by_cases hi : 12 ≤ i
  · simp [hi]
  · simp [hi]

theorem land_page_mod (n : Nat) : (n &&& 0xFFFFF000) % 4096 = 0 := by
  rw [land_page]
  exact Nat.mul_mod_left _ _

theorem land_page_of_lt {n : Nat} (h : n < 2 ^ 32) : n &&& 0xFFFFF000 = n - n % 4096 := by
  rw [land_page]
  omega

/-- A page address and an offset below the page size never share a bit. -/
theorem lor_offset {p o : Nat} (hp : p % 4096 = 0) (ho : o < 4096) : p ||| o = p + o := by
  obtain ⟨q, rfl⟩ := Nat.dvd_of_mod_eq_zero hp
  have h := Nat.two_pow_add_eq_or_of_lt (i := 12) (b := o) (by simpa using ho) q
  norm_num at h
  rw [h]

/-- A mask of low bits does not see a page address. -/
theorem land_lor_offset {p o m : Nat} (hp : p % 4096 = 0) (hm : m < 4096) :
    (p ||| o) &&& m = o &&& m := by
  obtain ⟨q, rfl⟩ := Nat.dvd_of_mod_eq_zero hp
  apply Nat.eq_of_testBit_eq
  intro i
  simp only [Nat.testBit_and, Nat.testBit_or]
  by_cases hi : i < 12
  · have h : (4096 * q).testBit i = false := by
      rw [show 4096 * q = q <<< 12 by rw [Nat.shiftLeft_eq]; omega, Nat.testBit_shiftLeft]
      simp [hi]
    simp [h]
  · have h : m.testBit i = false :=
      Nat.testBit_lt_two_pow (hm.trans_le (Nat.pow_le_pow_right (by decide : 0 < 2)
        (by omega : 12 ≤ i)))
    simp [h]

end Rorthox.Lib
