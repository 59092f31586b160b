import DataShape.Path
import DataShape.Schema.Definition

/-!
# Failures

A failure says how a value differs from its schema at one place.  Its message
starts with the path of that place, unless the place is the root.
-/

namespace DataShape

/-- How a value differs from a schema. -/
inductive Mismatch where
  | unexpectedNull
  | typeMismatch (expected actual : String)
  | missingIndex (i : Nat)
  | unexpectedIndex (i : Nat)
  | missingProperty (name : String)
  | unexpectedProperty (name : String)
  | noneOfChoices (value choices : String)
  | literalMismatch (expected actual : String)
deriving DecidableEq, Repr

namespace Mismatch

/-- The text of a mismatch. -/
def message : Mismatch → String
  | .unexpectedNull => "unexpected null for non-nullable type"
  | .typeMismatch expected actual => "expected " ++ expected ++ ", got " ++ actual
  | .missingIndex i => "missing required value at index " ++ toString i
  | .unexpectedIndex i => "unexpected value at index " ++ toString i
  | .missingProperty name => "missing required property: \"" ++ name ++ "\""
  | .unexpectedProperty name => "unexpected property \"" ++ name ++ "\""
  | .noneOfChoices value choices => value ++ " is none of expected " ++ choices
  | .literalMismatch expected actual =>
      "expected literal value \"" ++ expected ++ "\", got \"" ++ actual ++ "\""

/-- Whether a mismatch is a key that is not declared. -/
def isUnexpectedProperty : Mismatch → Bool
  | .unexpectedProperty _ => true
  | _ => false

end Mismatch

/-- A mismatch at a place. -/
structure Failure where
  path : Path
  mismatch : Mismatch
deriving DecidableEq, Repr

/-- The text of a failure. -/
def Failure.message (f : Failure) : String :=
  if f.path.text = "" then f.mismatch.message
  else f.path.text ++ ": " ++ f.mismatch.message

/-- Texts joined as alternatives: `a`, `a or b`, or `a, b, or c`. -/
def joinAlternatives : List String → String
  | [] => ""
  | [only] => only
  | [first, second] => first ++ " or " ++ second
  | texts => ", ".intercalate texts.dropLast ++ ", or " ++ texts.getLastD ""

/-- The texts of schemas as alternatives. -/
def renderChoices (alternatives : List Schema) : String :=
  joinAlternatives (alternatives.map Schema.text)

end DataShape
