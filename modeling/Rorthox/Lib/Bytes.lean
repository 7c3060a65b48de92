import Mathlib

/-!
# Little-endian fields

Byte strings are functions of an offset; a field is read from an offset on and
written back as a list of bytes.
-/

namespace Rorthox.Lib

/-- Bytes of a buffer, a memory or a disk, by offset. -/
abbrev Bytes := Nat → UInt8

def memcpy (dest : Bytes) (d : Nat) (src : Bytes) (s len : Nat) : Bytes :=
  fun p => if d ≤ p ∧ p < d + len then src (s + (p - d)) else dest p

@[simp] theorem memcpy_zero (dest : Bytes) (d : Nat) (src : Bytes) (s : Nat) :
    memcpy dest d src s 0 = dest := by
  funext p
  exact if_neg (by omega)

/-- Two copies in a row are one. -/
theorem memcpy_append (dest : Bytes) (d : Nat) (src : Bytes) (s n m : Nat) :
    memcpy (memcpy dest d src s n) (d + n) src (s + n) m = memcpy dest d src s (n + m) := by
  funext p
  unfold memcpy
  by_cases h1 : d + n ≤ p ∧ p < d + n + m
  · rw [if_pos h1, if_pos (by omega)]
    congr 1
    omega
  · rw [if_neg h1]
    by_cases h2 : d ≤ p ∧ p < d + n
    · rw [if_pos h2, if_pos (by omega)]
    · rw [if_neg h2, if_neg (by omega)]

variable {dest src : Bytes} {d n o p s : Nat}

theorem memcpy_of_lt (h1 : d ≤ p) (h2 : p < d + n) :
    memcpy dest d src s n p = src (s + (p - d)) := if_pos ⟨h1, h2⟩

theorem memcpy_outside (h : p < d ∨ d + n ≤ p) :
    memcpy dest d src s n p = dest p := if_neg (by omega)

def le16 (b : Nat → UInt8) (o : Nat) : Nat := (b o).toNat + 256 * (b (o + 1)).toNat

def le32 (b : Nat → UInt8) (o : Nat) : Nat := le16 b o + 65536 * le16 b (o + 2)

theorem le16_lt (b : Nat → UInt8) (o : Nat) : le16 b o < 2 ^ 16 := by
  have h0 := (b o).toNat_lt
  have h1 := (b (o + 1)).toNat_lt
  unfold le16
  omega

theorem le32_lt (b : Nat → UInt8) (o : Nat) : le32 b o < 2 ^ 32 := by
  have h0 := le16_lt b o
  have h1 := le16_lt b (o + 2)
  unfold le32
  omega

theorem le16_congr {a b : Nat → UInt8} (h0 : a o = b o) (h1 : a (o + 1) = b (o + 1)) :
    le16 a o = le16 b o := by
  unfold le16
  rw [h0, h1]

theorem le16_shift (b : Bytes) (a o : Nat) : le16 (fun i => b (a + i)) o = le16 b (a + o) := rfl

/-- The two bytes of a 16-bit field. -/
def enc16 (n : Nat) : List UInt8 := [UInt8.ofNat n, UInt8.ofNat (n / 256)]

def enc32 (n : Nat) : List UInt8 := enc16 n ++ enc16 (n / 65536)

theorem le16_enc16 {b : Bytes} (h0 : b o = UInt8.ofNat n) (h1 : b (o + 1) = UInt8.ofNat (n / 256))
    (hn : n < 2 ^ 16) : le16 b o = n := by
  unfold le16
  rw [h0, h1, UInt8.toNat_ofNat', UInt8.toNat_ofNat']
  omega

end Rorthox.Lib
