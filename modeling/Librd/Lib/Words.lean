import Mathlib.Algebra.Order.Ring.Nat
import Mathlib.Algebra.Ring.Int.Defs

/-!
# Conversions between C integers

`toInt` and `toSize` convert a number to an `int` of 32 bits and to a `size_t` of 64 bits: both keep it modulo the
number of their values. In terms of `%` (`toInt_eq`) linear arithmetic decides the rest.
-/

namespace Words

/-- A number as an `int`. -/
def toInt (x : Int) : Int := Int.bmod x (2 ^ 32)

/-- A number as a `size_t`. -/
def toSize (x : Int) : Nat := (x % 2 ^ 64).toNat

theorem toInt_eq (x : Int) : toInt x = (x + 2147483648) % 4294967296 - 2147483648 := by
  simp only [toInt, Int.bmod]
  omega

theorem toSize_eq (x : Int) : (toSize x : Int) = x % 18446744073709551616 := by
  simp only [toSize]
  omega

/-- An `int` stays as it is. -/
theorem toInt_of_lt {x : Int} (h : -2147483648 ≤ x) (h' : x < 2147483648) : toInt x = x := by
  rw [toInt_eq]
  omega

theorem toSize_natCast {n : Nat} (h : n < 18446744073709551616) : toSize n = n := by
  have := toSize_eq n
  omega

/-- The steps between the two conversions can be left out. -/
theorem toInt_toSize_sub (x y : Int) : toInt (toSize (toInt x - y)) = toInt (x - y) := by
  rw [toInt_eq, toInt_eq, toSize_eq, toInt_eq]
  omega

end Words
