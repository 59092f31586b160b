import DataShape.Decimal.Layout
import DataShape.Decimal.Numeral
import DataShape.Schema.Basic
import DataShape.Text.Blank

/-!
# Conversions between scalars

A scalar of one kind can become a scalar of another kind.  A float becomes an
integer without its fraction, if the integer is in range.  A text becomes a
number if it is one between blanks.  A number or text becomes a truth value by
being neither zero nor empty.  Null, lists and dictionaries are never converted,
and neither is a value that already is of the kind.
-/

namespace DataShape

/-- The machine integer with a value, if there is one. -/
def toMachine? (i : Int) : Option Int64 :=
  if -Int.pow 2 63 ≤ i ∧ i < Int.pow 2 63 then some (Int64.ofInt i) else none

/-- The text of a float.  A whole number below `10^16` ends in `.0`. -/
def floatText (x : Float) : String :=
  match Decimal.Layout.plain.text? x with
  | some s => s
  | none => if x.isNaN then "NaN" else if x < 0.0 then "-inf" else "inf"

namespace Kind

/-- The machine integer that a scalar converts to. -/
def toInt? : Value → Option Int64
  | .float x => (Decimal.truncate? x).bind toMachine?
  | .bool b => some (if b then 1 else 0)
  | .str s => (Decimal.integer? (Text.trim s.toList)).bind toMachine?
  | _ => none

/-- The float that a scalar converts to. -/
def toFloat? : Value → Option Float
  | .int i => some (Decimal.nearestInt i.toInt)
  | .bool b => some (if b then 1.0 else 0.0)
  | .str s => Decimal.float? (Text.trim s.toList)
  | _ => none

/-- The text that a scalar converts to. -/
def toText? : Value → Option String
  | .int i => some (toString i.toInt)
  | .float x => some (floatText x)
  | .bool b => some (if b then "true" else "false")
  | _ => none

/-- The truth value that a scalar converts to. -/
def toBool? : Value → Option Bool
  | .int i => some (i != 0)
  | .float x => some (x != 0.0)
  | .str s => some (s != "")
  | _ => none

/-- The value of a kind that another value converts to. -/
def convert? (kind : Kind) (value : Value) : Option Value :=
  if kind.accepts value then none
  else match kind with
    | .int => (toInt? value).map .int
    | .float => (toFloat? value).map .float
    | .str => (toText? value).map .str
    | .bool => (toBool? value).map .bool

end Kind

end DataShape
