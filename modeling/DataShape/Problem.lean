import DataShape.Json.Reader
import DataShape.Report
import DataShape.Schema.Parse

/-!
# Problems

A problem is anything that keeps a checked value from being passed on: its
schema cannot be used, it has no form in JSON, or it has failures.  As for
definition errors, `message` is the text for a person, `code` the name of the
cause, and `help` says what to do about it.

`Schema.parseText` reads a definition from JSON text.  A defect of the text comes
before any error of the definition.
-/

namespace DataShape

/-- Why a value is not passed on. -/
inductive Problem where
  /-- The walk has no result. -/
  | fault (fault : Fault)
  /-- The value, or the text, has no form in JSON. -/
  | conversion (defect : Json.Defect)
  /-- The value does not match its schema. -/
  | badReturnValue (failures : List Failure)
deriving DecidableEq, Repr

/-- The text of a fault. -/
def Fault.message : Fault → String
  | .definition e => e.message
  | .limit => "The walk went deeper than its limit"

namespace Problem

/-- The text of a problem.  What exactly is wrong with a JSON text is not part of it. -/
def message : Problem → String
  | .fault f => f.message
  | .conversion _ => "Could not convert the return value into a datatype value: "
  | .badReturnValue failures =>
      "Return value does not match its datatype (" ++ toString failures.length ++ " failure(s))"

/-- The name of the cause. -/
def code : Problem → String
  | .fault (.definition e) => e.code
  | .fault .limit => "walker::limit"
  | .conversion _ => "guard::convert"
  | .badReturnValue _ => "guard::bad_return_value"

/-- What to do about a problem. -/
def help : Problem → String
  | .fault (.definition e) => e.help
  | .fault .limit => "Let no visitor answer with a larger value than it was given."
  | .conversion _ =>
      "The guarded function must return something serde can serialize into JSON-like data."
  | .badReturnValue _ => "Inspect `failures` for the path-qualified mismatches."

end Problem

/-- The schema of a definition written as JSON text. -/
def Schema.parseText (text : String) : Except Problem Schema :=
  match Json.read text with
  | .error defect => .error (.conversion defect)
  | .ok json => (Schema.parse json).mapError fun e => .fault (.definition e)

end DataShape
