import DataShape.Entries

/-!
# Runtime values

A value is what a program holds after reading JSON-like data: null, booleans,
machine integers, doubles, texts, lists and dictionaries.  Integers and floats
are different kinds, also when they stand for the same number.

`same` is the equality of values.  It compares floats as numbers, so zero equals
minus zero and NaN equals nothing, and it does not look at the order of the keys
of a dictionary.
-/

namespace DataShape

/-- A runtime value. -/
inductive Value where
  | null
  | bool (b : Bool)
  | int (i : Int64)
  | float (x : Float)
  | str (s : String)
  | list (items : List Value)
  /-- Entries in order.  Their keys are meant to be distinct. -/
  | dict (entries : List (String × Value))
deriving Inhabited

namespace Value

/-- What sort of value it is, as diagnostics name it. -/
def kind : Value → String
  | .null => "null"
  | .bool _ => "bool"
  | .int _ => "int"
  | .float _ => "float"
  | .str _ => "str"
  | .list _ => "list"
  | .dict _ => "dict"

/-- Whether a value is null. -/
def isNull : Value → Bool
  | .null => true
  | _ => false

/-- The items of a list. -/
def items? : Value → Option (List Value)
  | .list items => some items
  | _ => none

/-- The entries of a dictionary. -/
def entries? : Value → Option (Entries Value)
  | .dict entries => some entries
  | _ => none

/-! ## Equality -/

mutual

/-- Whether two values are equal. -/
def same : Value → Value → Bool
  | .null, .null => true
  | .bool a, .bool b => a == b
  | .int i, .int j => i == j
  | .float x, .float y => x == y
  | .str s, .str t => s == t
  | .list as, .list bs => sameItems as bs
  | .dict as, .dict bs => as.length == bs.length && sameEntries as bs
  | _, _ => false
termination_by structural a _ => a

/-- Whether two sequences have equal items. -/
def sameItems : List Value → List Value → Bool
  | [], [] => true
  | a :: as, b :: bs => same a b && sameItems as bs
  | _, _ => false
termination_by structural as _ => as

/-- Whether every entry of the first dictionary has an equal one in the second. -/
def sameEntries : List (String × Value) → List (String × Value) → Bool
  | [], _ => true
  | (key, a) :: as, bs =>
      (match Entries.find? key bs with
        | some b => same a b
        | none => false) && sameEntries as bs
termination_by structural as _ => as

end

/-! ## Size -/

mutual

/-- The number of nodes of a value. -/
def size : Value → Nat
  | .list items => sizeItems items + 1
  | .dict entries => sizeEntries entries + 1
  | _ => 1

/-- The number of nodes of the items of a list. -/
def sizeItems : List Value → Nat
  | [] => 0
  | a :: as => size a + sizeItems as

/-- The number of nodes of the values of a dictionary. -/
def sizeEntries : List (String × Value) → Nat
  | [] => 0
  | (_, a) :: as => size a + sizeEntries as

end

/-- The keys of a dictionary come in any order. -/
example : same (.dict [("a", .int 1), ("b", .float 0.0)])
    (.dict [("b", .float (-0.0)), ("a", .int 1)]) = true := by decide
/-- Equal numbers of different kinds are different. -/
example : same (.int 1) (.float 1.0) = false := by decide

end Value

end DataShape
