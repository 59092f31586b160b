/-!
# Decimal numbers

A *decimal* is a number `c · 10^s` with natural `c` and integer `s`.  The same
number has many such forms.  `normalize` picks the one whose coefficient has no
trailing zero.
-/

namespace DataShape

/-- The number `coefficient · 10^scale`. -/
structure Decimal where
  coefficient : Nat
  scale : Int
deriving DecidableEq, Repr

namespace Decimal

/-- The digits of a number, most significant first. -/
def digits (n : Nat) : List Char := Nat.toDigits 10 n

/-- The number of digits of a number, one for zero. -/
def digitCount (n : Nat) : Nat := (digits n).length

/-- Move trailing zeros of the coefficient into the scale, at most `count` of them. -/
def stripZeros : Nat → Decimal → Decimal
  | 0, d => d
  | count + 1, d =>
      if d.coefficient ≠ 0 ∧ d.coefficient % 10 = 0 then
        stripZeros count ⟨d.coefficient / 10, d.scale + 1⟩
      else d

/-- The same number with no trailing zero in its coefficient. -/
def normalize (d : Decimal) : Decimal := stripZeros (digitCount d.coefficient) d

/-- The power of ten of the first digit. -/
def exponent (d : Decimal) : Int := d.scale + digitCount d.coefficient - 1

example : normalize ⟨1200, -3⟩ = ⟨12, -1⟩ := by decide
example : exponent ⟨12, -1⟩ = 0 := by decide

end Decimal

end DataShape
