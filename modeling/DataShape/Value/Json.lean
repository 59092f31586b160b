import DataShape.Json.Writer
import DataShape.Value.Basic

/-!
# Values and JSON

A JSON tree becomes a value, and a value becomes a JSON tree.  The two maps keep
everything but two kinds of numbers.  An integer above the machine integers
becomes a float, and a float that is not finite becomes null.

The text of a value is the text of its JSON tree on one line.
-/

namespace DataShape

namespace Value

/-- The value of a JSON number: a machine integer if it is an integer in range. -/
def ofNumber : Json.Number → Value
  | .int i _ => if -Int.pow 2 63 ≤ i ∧ i < Int.pow 2 63 then .int (Int64.ofInt i)
      else .float (Decimal.nearestInt i)
  | .float x _ => .float x

mutual

/-- The value of a JSON tree. -/
def ofJson : Json → Value
  | .null => .null
  | .bool b => .bool b
  | .number n => ofNumber n
  | .string s => .str s
  | .array items => .list (ofItems items)
  | .object members => .dict (ofMembers members)

/-- The values of the items of an array. -/
def ofItems : List Json → List Value
  | [] => []
  | item :: rest => ofJson item :: ofItems rest

/-- The values of the members of an object. -/
def ofMembers : List (String × Json) → List (String × Value)
  | [] => []
  | (key, item) :: rest => (key, ofJson item) :: ofMembers rest

end

mutual

/-- The JSON tree of a value. -/
def toJson : Value → Json
  | .null => .null
  | .bool b => .bool b
  | .int i => .number (.ofInt64 i)
  | .float x => if h : x.isFinite = true then .number (.float x h) else .null
  | .str s => .string s
  | .list items => .array (toItems items)
  | .dict entries => .object (toMembers entries)

/-- The JSON trees of the items of a list. -/
def toItems : List Value → List Json
  | [] => []
  | item :: rest => toJson item :: toItems rest

/-- The JSON trees of the values of a dictionary. -/
def toMembers : List (String × Value) → List (String × Json)
  | [] => []
  | (key, item) :: rest => (key, toJson item) :: toMembers rest

end

/-- The text of a value: its JSON on one line. -/
def text (v : Value) : String := v.toJson.compact

/-- The text of a value, without quotes if the value is a text. -/
def plain : Value → String
  | .str s => s
  | v => v.text

end Value

end DataShape
