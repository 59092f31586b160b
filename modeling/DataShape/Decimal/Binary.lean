/-!
# Doubles as exact numbers

A finite double is a number `± m · 2^q` with natural `m` and integer `q`.
`Binary.ofFloat?` reads the three off the bits: one sign bit, eleven bits of
exponent and fifty-two of fraction.  A zero exponent marks the subnormal
numbers, which have no hidden leading bit, and the largest exponent marks the
infinities and NaN, which are no numbers.

`truncate?` drops the fraction of a number, as an exact integer.
-/

namespace DataShape.Decimal

/-- The number `± mantissa · 2^exponent`. -/
structure Binary where
  /-- Whether the sign is minus; zero has both signs. -/
  negative : Bool
  /-- The magnitude in units of `2^exponent`. -/
  mantissa : Nat
  /-- The power of two of the unit. -/
  exponent : Int
deriving DecidableEq, Repr

/-- The exponent of the smallest unit, that of the subnormal numbers. -/
def leastExponent : Int := -1074

/-- The number a finite double stands for. -/
def Binary.ofFloat? (x : Float) : Option Binary :=
  let bits := x.toBits.toNat
  let negative := bits / Nat.pow 2 63 == 1
  let biased : Nat := bits / Nat.pow 2 52 % Nat.pow 2 11
  let fraction : Nat := bits % Nat.pow 2 52
  if biased = 2047 then none
  else if biased = 0 then some ⟨negative, fraction, leastExponent⟩
  else some ⟨negative, fraction + Nat.pow 2 52, (biased : Int) + leastExponent - 1⟩

/-- The magnitude without its fraction. -/
def Binary.whole (b : Binary) : Nat :=
  if 0 ≤ b.exponent then b.mantissa * Nat.pow 2 b.exponent.toNat
  else b.mantissa / Nat.pow 2 (-b.exponent).toNat

/-- The integer next to the number on the side of zero. -/
def Binary.truncate (b : Binary) : Int :=
  if b.negative then -(b.whole : Int) else b.whole

/-- A finite double rounded toward zero. -/
def truncate? (x : Float) : Option Int := (Binary.ofFloat? x).map Binary.truncate

/-- Positive infinity. -/
def infinity : Float := Float.ofBits 0x7ff0000000000000

/-- The double that is no number. -/
def nan : Float := Float.ofBits 0x7ff8000000000000

example : truncate? 2.75 = some 2 := by decide +kernel
example : truncate? (-2.75) = some (-2) := by decide +kernel
example : truncate? infinity = none := by decide +kernel

end DataShape.Decimal
