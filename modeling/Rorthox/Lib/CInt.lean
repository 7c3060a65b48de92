import Mathlib

/-!
# C int expressions

An `int` expression is defined when no operation in it leaves the range of `int`. The rules
below compute one operation by operation, for values that are not negative.
-/

namespace Rorthox.Lib

inductive IntExpr where
  | val (x : Int)
  | add (a b : IntExpr)
  | sub (a b : IntExpr)
  | mul (a b : IntExpr)

/-- The value is an `int`. -/
def InInt (x : Int) : Prop := -2 ^ 31 ≤ x ∧ x < 2 ^ 31

namespace IntExpr

def value : IntExpr → Int
  | val x => x
  | add a b => a.value + b.value
  | sub a b => a.value - b.value
  | mul a b => a.value * b.value

/-- No operation overflows. -/
def Defined : IntExpr → Prop
  | val x => InInt x
  | add a b => a.Defined ∧ b.Defined ∧ InInt (a.value + b.value)
  | sub a b => a.Defined ∧ b.Defined ∧ InInt (a.value - b.value)
  | mul a b => a.Defined ∧ b.Defined ∧ InInt (a.value * b.value)

/-- The expression comes out as `n` without an overflow. -/
def Computes (e : IntExpr) (n : Nat) : Prop := e.Defined ∧ e.value = n

variable {a b : IntExpr} {m n : Nat}

theorem computes_val (h : n < 2 ^ 31) : (val n).Computes n := ⟨⟨by omega, by omega⟩, rfl⟩

theorem Computes.add (ha : a.Computes m) (hb : b.Computes n) (h : m + n < 2 ^ 31) :
    (add a b).Computes (m + n) := by
  have hvalue : a.value + b.value = ((m + n : Nat) : Int) := by rw [ha.2, hb.2, Int.natCast_add]
  exact ⟨⟨ha.1, hb.1, by rw [hvalue]; exact ⟨by omega, by omega⟩⟩, hvalue⟩

theorem Computes.sub (ha : a.Computes m) (hb : b.Computes n) (hle : n ≤ m) (h : m < 2 ^ 31) :
    (sub a b).Computes (m - n) := by
  have hvalue : a.value - b.value = ((m - n : Nat) : Int) := by rw [ha.2, hb.2, Int.natCast_sub hle]
  exact ⟨⟨ha.1, hb.1, by rw [hvalue]; exact ⟨by omega, by omega⟩⟩, hvalue⟩

theorem Computes.mul (ha : a.Computes m) (hb : b.Computes n) (h : m * n < 2 ^ 31) :
    (mul a b).Computes (m * n) := by
  have hvalue : a.value * b.value = ((m * n : Nat) : Int) := by rw [ha.2, hb.2, Int.natCast_mul]
  have hint : ((m * n : Nat) : Int) < 2 ^ 31 := by exact_mod_cast h
  exact ⟨⟨ha.1, hb.1, by rw [hvalue]; exact ⟨by omega, hint⟩⟩, hvalue⟩

end IntExpr

end Rorthox.Lib
