import DataShape.Decimal.Basic
import DataShape.Decimal.Binary

/-!
# Numbers read from text

`integer?` reads an optional sign and decimal digits.  `float?` reads an optional
sign and either one of the words for infinity and NaN, in any case, or decimal
digits with an optional point and an optional exponent.  There has to be a digit
on at least one side of the point.  Neither accepts anything else, such as
separators, other bases or blanks.

A decimal becomes the double closest to it, ties going to the even mantissa.  A
number above all doubles becomes an infinity and one below all of them a zero.
-/

namespace DataShape.Decimal

/-! ## Doubles -/

/-- The double closest to `± c · 10^s`.  A first digit at `10^400` or beyond is
above all doubles, and one below `10^-400` is closer to zero than to any other
double, so the powers of ten that are ever computed stay small. -/
def nearest (negative : Bool) (d : Decimal) : Float :=
  let magnitude :=
    if d.coefficient = 0 ∨ d.exponent < -400 then 0.0
    else if 400 < d.exponent then infinity
    else Float.ofScientific d.coefficient (d.scale < 0) d.scale.natAbs
  if negative then -magnitude else magnitude

/-- The double closest to an integer. -/
def nearestInt (i : Int) : Float := nearest (i < 0) ⟨i.natAbs, 0⟩

/-! ## Digits and signs -/

/-- The number a list of digits stands for. -/
def value (ds : List Char) : Nat := Nat.ofDigitChars 10 ds 0

/-- The leading digits of a text and what follows them. -/
def splitDigits (cs : List Char) : List Char × List Char :=
  (cs.takeWhile Char.isDigit, cs.dropWhile Char.isDigit)

/-- Whether a text starts with a minus sign, and the text behind its sign. -/
def splitSign : List Char → Bool × List Char
  | '-' :: cs => (true, cs)
  | '+' :: cs => (false, cs)
  | cs => (false, cs)

theorem length_splitSign_le (cs : List Char) : (splitSign cs).2.length ≤ cs.length := by
  unfold splitSign
  split <;> simp

/-! ## Integers -/

/-- The integer a text stands for: an optional sign and one or more digits. -/
def integer? (cs : List Char) : Option Int :=
  let (negative, ds) := splitSign cs
  if ds.isEmpty || !ds.all Char.isDigit then none
  else some (if negative then -(value ds : Int) else value ds)

/-! ## Decimals -/

/-- The exponent a text ends in: nothing, or `e`, an optional sign and digits. -/
def exponent? : List Char → Option Int
  | [] => some 0
  | c :: cs => if c = 'e' ∨ c = 'E' then integer? cs else none

/-- The fraction digits a text starts with if it starts with a point, and the rest. -/
def splitFraction : List Char → List Char × List Char
  | '.' :: cs => splitDigits cs
  | cs => ([], cs)

/-- The number that digits before and behind the point and an exponent stand for. -/
def assemble (whole fraction : List Char) (exponent : Int) : Decimal :=
  ⟨value (whole ++ fraction), exponent - fraction.length⟩

/-- The unsigned decimal a text stands for. -/
def unsigned? (cs : List Char) : Option Decimal :=
  let (whole, rest) := splitDigits cs
  let (fraction, rest) := splitFraction rest
  if whole.isEmpty && fraction.isEmpty then none
  else (exponent? rest).map (assemble whole fraction)

/-- Doubles that have words for a name. -/
def word? (cs : List Char) : Option Float :=
  let word := String.ofList (cs.map Char.toLower)
  if word = "inf" ∨ word = "infinity" then some infinity
  else if word = "nan" then some nan
  else none

/-- The double a text stands for. -/
def float? (cs : List Char) : Option Float :=
  let (negative, rest) := splitSign cs
  match word? rest with
  | some x => some (if negative then -x else x)
  | none => (unsigned? rest).map (nearest negative)

example : integer? "+007".toList = some 7 := by decide +kernel
example : integer? "-".toList = none := by decide +kernel
example : unsigned? "1.".toList = some ⟨1, 0⟩ := by decide +kernel
example : unsigned? ".5e3".toList = some ⟨5, 2⟩ := by decide +kernel
example : unsigned? ".".toList = none := by decide +kernel
example : float? "-Infinity".toList = some (-infinity) := by decide +kernel
example : float? "1e-400".toList = some 0.0 := by decide +kernel

end DataShape.Decimal
