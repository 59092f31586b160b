import DataShape.Decimal.Shortest

/-!
# The text of a double

A `Layout` says how the shortest decimal of a finite double is written: how a
tie is settled, which exponents are written positionally, and how whole numbers
and exponents are marked.  The exponent of a number is the power of ten of its
first digit.

Three layouts are in use.  JSON text and YAML text write a number positionally
from `0.00001` up to sixteen digits before the point, and with an exponent
outside of that.  Plain text never has an exponent.
-/

namespace DataShape.Decimal

/-- How a finite double is written. -/
structure Layout where
  /-- What to take of two equally close decimals. -/
  tie : Tie
  /-- The least and the greatest exponent written positionally, or `none` if all are. -/
  positional : Option (Int × Int)
  /-- A whole number up to this exponent ends in `.0` when written positionally. -/
  markWholeUpTo : Int
  /-- Whether an exponent that is not negative has a plus sign. -/
  plus : Bool

/-- Numbers in JSON text: `0.00001`, `1000000000000000.0`, `1e+16`, `1.5e-7`. -/
def Layout.json : Layout := ⟨.toEven, some (-5, 15), 15, true⟩

/-- Numbers in YAML text: as in JSON text, without the plus sign. -/
def Layout.yaml : Layout := ⟨.toEven, some (-5, 15), 15, false⟩

/-- Numbers in plain text: `0.0000001`, `1.0`, `10000000000000000`. -/
def Layout.plain : Layout := ⟨.up, none, 15, false⟩

/-- A run of zeros. -/
def zeros (n : Nat) : List Char := List.replicate n '0'

/-- A decimal with all its places and no exponent. -/
def positionalText (l : Layout) (d : Decimal) : List Char :=
  let ds := digits d.coefficient
  let places := (-d.scale).toNat
  if 0 ≤ d.scale then
    ds ++ zeros d.scale.toNat ++ (if d.exponent ≤ l.markWholeUpTo then ['.', '0'] else [])
  else if places < ds.length then
    ds.take (ds.length - places) ++ '.' :: ds.drop (ds.length - places)
  else
    '0' :: '.' :: (zeros (places - ds.length) ++ ds)

/-- A decimal with one digit before the point, and an exponent. -/
def scientificText (l : Layout) (d : Decimal) : List Char :=
  let fraction := match digits d.coefficient with
    | [] => []
    | [first] => [first]
    | first :: rest => first :: '.' :: rest
  let sign := if d.exponent < 0 then ['-'] else if l.plus then ['+'] else []
  fraction ++ 'e' :: (sign ++ digits d.exponent.natAbs)

/-- Whether an exponent is written positionally. -/
def Layout.isPositional (l : Layout) (exponent : Int) : Bool :=
  match l.positional with
  | none => true
  | some (least, greatest) => least ≤ exponent && exponent ≤ greatest

/-- The text of a decimal. -/
def Layout.decimalText (l : Layout) (d : Decimal) : List Char :=
  if l.isPositional d.exponent then positionalText l d else scientificText l d

/-- The text of a finite double, or `none` for an infinity or NaN. -/
def Layout.text? (l : Layout) (x : Float) : Option String :=
  (Binary.ofFloat? x).map fun b =>
    let magnitude := l.decimalText (shortest l.tie b.mantissa b.exponent)
    String.ofList (if b.negative then '-' :: magnitude else magnitude)

example : Layout.json.text? 1 = some "1.0" := by decide +kernel
example : Layout.json.text? (-0.0) = some "-0.0" := by decide +kernel
example : Layout.json.text? 0.00001 = some "0.00001" := by decide +kernel
example : Layout.json.text? 1.5e-7 = some "1.5e-7" := by decide +kernel
example : Layout.json.text? 1e16 = some "1e+16" := by decide +kernel
example : Layout.yaml.text? 1e16 = some "1e16" := by decide +kernel
example : Layout.plain.text? 1e16 = some "10000000000000000" := by decide +kernel
example : Layout.plain.text? 1e-7 = some "0.0000001" := by decide +kernel
example : Layout.plain.text? infinity = none := by decide +kernel

end DataShape.Decimal
