/-!
# What can be wrong with a schema

A `DefinitionError` says why a definition is no schema, or why the names of a
schema make no sense.  It is about the schema alone and never about a value.
`message` is the text for a person, `code` the name of the cause, and `help`
says what to do about it.
-/

namespace DataShape

/-- A cause why a schema cannot be used. -/
inductive DefinitionError where
  /-- Something else stands where a definition should. -/
  | malformed (found : String)
  /-- A text names no primitive. -/
  | unknownPrimitive (token : String)
  /-- A tagged object has a tag without a meaning. -/
  | unknownSpecialType (tag : String)
  /-- A tagged object lacks an entry, or has a wrong one. -/
  | invalidSpecialField (tag field : String)
  /-- A choice offers nothing. -/
  | emptyChoice
  /-- Two bodies have one name. -/
  | duplicateName (name : String)
  /-- A reference stands for no body. -/
  | unresolvedReference (name : String)
  /-- A name leads back to itself without consuming any part of a value. -/
  | referenceCycle (name : String)
deriving DecidableEq, Repr

namespace DefinitionError

/-- A name between quotation marks. -/
def marked (name : String) : String := "\"" ++ name ++ "\""

/-- The text of an error. -/
def message : DefinitionError → String
  | .malformed found => "Malformed datatype definition: " ++ found
  | .unknownPrimitive token => "Unknown primitive type " ++ marked token
  | .unknownSpecialType tag => "Unknown special type " ++ marked tag
  | .invalidSpecialField tag field =>
      "Special type " ++ marked tag ++ " needs a valid " ++ marked field ++ " entry"
  | .emptyChoice => "Choice has no alternatives"
  | .duplicateName name => "Named type " ++ marked name ++ " is defined more than once"
  | .unresolvedReference name => "Reference to undefined named type " ++ marked name
  | .referenceCycle name =>
      "Named type " ++ marked name ++ " refers back to itself without any nesting"

/-- The name of the cause. -/
def code : DefinitionError → String
  | .malformed _ => "schema::malformed"
  | .unknownPrimitive _ => "schema::unknown_primitive"
  | .unknownSpecialType _ => "schema::unknown_special_type"
  | .invalidSpecialField _ _ => "schema::invalid_special_field"
  | .emptyChoice => "schema::empty_choice"
  | .duplicateName _ => "resolver::duplicate_name"
  | .unresolvedReference _ => "resolver::unresolved_reference"
  | .referenceCycle _ => "resolver::reference_cycle"

/-- What to do about an error. -/
def help : DefinitionError → String
  | .malformed _ =>
      "A datatype is a primitive name, a list, an object, or a tagged special type."
  | .unknownPrimitive _ =>
      "Primitive names are int, float, str and bool, optionally prefixed with `nullable`."
  | .unknownSpecialType _ =>
      "Recognized `_type_` tags are choice, named, reference and literal."
  | .invalidSpecialField _ _ =>
      "Build special types with the helpers in `datatype::language`."
  | .emptyChoice => "A choice must list at least one datatype."
  | .duplicateName _ =>
      "Each named type needs a unique name within one datatype; refer to it elsewhere with " ++
        "a reference."
  | .unresolvedReference name =>
      "Wrap the referenced datatype with `named(" ++ marked name ++ ", ...)` somewhere in " ++
        "the same datatype."
  | .referenceCycle _ =>
      "Put a list, tuple or object between a named type and its own reference, so each step " ++
        "consumes part of the value."

end DefinitionError

end DataShape
