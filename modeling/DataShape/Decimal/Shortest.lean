import DataShape.Decimal.Basic
import DataShape.Decimal.Binary

/-!
# The shortest decimal of a double

Every real number close enough to a double rounds to it when it is read.  These
numbers form an interval around the double.  It reaches half way to each
neighbour, and its two ends belong to it if the mantissa is even.

The *shortest decimal* is the number `c · 10^s` of the interval with the fewest
digits in `c`.  Of several with that many digits it is the one closest to the
double, and an exact tie is settled by a `Tie`.

The decimals with `n` digits around the double lie on a grid of step `10^s`.
Only the two grid points next to the double need a test, since the interval
holds the double itself.  So `shortest` tries one grid after the other, from one
digit to seventeen, which is enough for every double.  All arithmetic is in
natural numbers and exact.
-/

namespace DataShape.Decimal

/-- What to take when two decimals are equally close. -/
inductive Tie where
  /-- The one whose last digit is even. -/
  | toEven
  /-- The larger one. -/
  | up
deriving DecidableEq, Repr

/-- A positive number and the interval that rounds to it, as fractions over one
denominator. -/
structure Interval where
  /-- The lower end. -/
  low : Nat
  /-- The number itself. -/
  value : Nat
  /-- The upper end. -/
  high : Nat
  /-- The common denominator. -/
  denominator : Nat
  /-- Whether the ends round to the number. -/
  closed : Bool

/-- The interval of the number `m · 2^q`.  The neighbour below a power of two is
only half as far away as the one above. -/
def Interval.ofBinary (m : Nat) (q : Int) : Interval :=
  let below := if m = Nat.pow 2 52 ∧ leastExponent < q then 1 else 2
  let unit := Nat.pow 2 (q - 2).toNat
  { low := (4 * m - below) * unit
    value := 4 * m * unit
    high := (4 * m + 2) * unit
    denominator := Nat.pow 2 (2 - q).toNat
    closed := m % 2 == 0 }

/-- The power of ten of the first digit of `value / denominator`. -/
def Interval.decimalExponent (i : Interval) : Int :=
  if i.denominator ≤ i.value then digitCount (i.value / i.denominator) - 1
  else -(digitCount ((i.denominator - 1) / i.value) : Int)

/-- The interval in units of `10^s`. -/
def Interval.scaled (i : Interval) (s : Int) : Interval :=
  let factor := Nat.pow 10 (-s).toNat
  { low := i.low * factor
    value := i.value * factor
    high := i.high * factor
    denominator := i.denominator * Nat.pow 10 s.toNat
    closed := i.closed }

/-- Whether the whole number `c` lies in the interval. -/
def Interval.holds (i : Interval) (c : Nat) : Bool :=
  if i.closed then i.low ≤ c * i.denominator && c * i.denominator ≤ i.high
  else i.low < c * i.denominator && c * i.denominator < i.high

/-- Of the two whole numbers next to the value, the one to take: one that lies in
the interval, and the closer one if both do. -/
def Interval.nearest? (tie : Tie) (i : Interval) : Option Nat :=
  let below := i.value / i.denominator
  let above := below + 1
  match i.holds below, i.holds above with
  | false, false => none
  | true, false => some below
  | false, true => some above
  | true, true =>
      let down := i.value - below * i.denominator
      let up := above * i.denominator - i.value
      if down < up then some below
      else if up < down then some above
      else match tie with
        | .up => some above
        | .toEven => some (if below % 2 = 0 then below else above)

/-- The first grid with a hit, from the step `10^s` downward through `tries` grids. -/
def Interval.search (tie : Tie) (i : Interval) : Nat → Int → Decimal
  | 0, s => ⟨i.value / i.denominator, s⟩
  | tries + 1, s =>
      match (i.scaled s).nearest? tie with
      | some c => normalize ⟨c, s⟩
      | none => i.search tie tries (s - 1)

/-- The shortest decimal that reads as the number `m · 2^q`. -/
def shortest (tie : Tie) (m : Nat) (q : Int) : Decimal :=
  if m = 0 then ⟨0, 0⟩
  else
    let i := Interval.ofBinary m q
    i.search tie 17 i.decimalExponent

/-- One tenth. -/
example : shortest .toEven 0x1999999999999a (-56) = ⟨1, -1⟩ := by decide +kernel
/-- The smallest double. -/
example : shortest .toEven 1 leastExponent = ⟨5, -324⟩ := by decide +kernel
/-- The largest double. -/
example : shortest .toEven (2 ^ 53 - 1) 971 = ⟨17976931348623157, 292⟩ := by decide +kernel
/-- A tie: `2^-25` lies half way between two decimals of seventeen digits. -/
example : shortest .toEven (2 ^ 52) (-77) = ⟨29802322387695312, -24⟩ := by decide +kernel
example : shortest .up (2 ^ 52) (-77) = ⟨29802322387695313, -24⟩ := by decide +kernel

end DataShape.Decimal
