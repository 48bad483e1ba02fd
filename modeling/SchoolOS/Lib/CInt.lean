import Mathlib.Algebra.Order.Ring.Int
import Mathlib.Tactic.Common

/-!
# Machine integers

A value of type `int` is an integer in the range `IntRange`. A result outside the range is reduced
modulo `2^32` by `toInt`, as the conversion of a `long` does and as the kernel's build does for
`int` arithmetic.
-/

namespace SchoolOS

/-- The range of `int`. -/
def IntRange (x : ℤ) : Prop := -2 ^ 31 ≤ x ∧ x < 2 ^ 31

/-- The conversion to `int`. -/
def toInt (x : ℤ) : ℤ := x.bmod (2 ^ 32)

theorem toInt_eq_self {x : ℤ} (h : IntRange x) : toInt x = x := by
  obtain ⟨hle, hlt⟩ := h
  exact Int.bmod_eq_of_le (by omega) (by omega)

@[simp] theorem toInt_zero : toInt 0 = 0 := Int.zero_bmod

/-- A sum may be reduced as it grows. -/
theorem toInt_toInt_add (x y : ℤ) : toInt (toInt x + y) = toInt (x + y) := Int.bmod_add_bmod

theorem intRange_toInt (x : ℤ) : IntRange (toInt x) := by
  unfold IntRange toInt
  rw [Int.bmod_def]
  split
  · omega
  · omega

end SchoolOS
