import DataShape.Decimal.Layout
import DataShape.Decimal.Numeral
import DataShape.Entries

/-!
# JSON

A JSON tree keeps the order of the members of an object and tells integers from
floats.  A number is an integer between `-2^63` and `2^64 - 1` or a finite
double.  Every other integer is rounded to a double.

That the keys of an object are distinct is not part of the type.  The reader and
every builder in this library produce distinct keys, since they store members
with `Entries.insert`.
-/

namespace DataShape

namespace Json

/-- The integers that a JSON number keeps as they are. -/
def Exact (i : Int) : Prop := -Int.pow 2 63 ≤ i ∧ i < Int.pow 2 64

instance (i : Int) : Decidable (Exact i) := inferInstanceAs (Decidable (_ ∧ _))

/-- A JSON number. -/
inductive Number where
  | int (i : Int) (exact : Exact i)
  | float (x : Float) (finite : x.isFinite = true)
deriving DecidableEq

namespace Number

/-- The number of a finite double. -/
def ofFloat? (x : Float) : Option Number :=
  if h : x.isFinite = true then some (.float x h) else none

/-- The number closest to an integer, or `none` above all doubles. -/
def ofInt? (i : Int) : Option Number :=
  if h : Exact i then some (.int i h) else ofFloat? (Decimal.nearestInt i)

/-- The number of a machine integer. -/
def ofInt64 (i : Int64) : Number :=
  .int i.toInt ⟨i.le_toInt, Int.lt_trans i.toInt_lt (by decide)⟩

/-- The text of a number.  A finite double always has one. -/
def text (layout : Decimal.Layout) : Number → String
  | .int i _ => toString i
  | .float x _ => (layout.text? x).getD "null"

end Number

end Json

/-- A JSON tree. -/
inductive Json where
  | null
  | bool (b : Bool)
  | number (n : Json.Number)
  | string (s : String)
  | array (items : List Json)
  | object (members : List (String × Json))
deriving Inhabited

namespace Json

/-- The text of a tree that is one. -/
def string? : Json → Option String
  | .string s => some s
  | _ => none

end Json

end DataShape
