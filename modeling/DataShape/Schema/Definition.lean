import DataShape.Json.Writer
import DataShape.Schema.Token
import DataShape.Value.Json

/-!
# Definitions

A definition is a schema written as JSON.

* A text is a primitive, such as `"int"` or `"nullable str"`.
* An array with one item is a list, and any other array a tuple.
* An object with the key `_type_` is a special type: a choice, a named type, a
  reference or a literal.  The value of that key is its *tag*.
* Any other object is an object schema.  The key `_any_` holds its wildcard, and
  every other key a field.

This module builds definitions.  `special` and its four companions make special
types, `toDefinition` writes any schema, and `text` is what diagnostics show.
-/

namespace DataShape

namespace Definition

/-- The key that marks a special type. -/
def tagKey : String := "_type_"

/-- The key of the wildcard. -/
def wildcardKey : String := "_any_"

/-- The tag of a definition, or `type` if it has none. -/
def typename : Json → String
  | .object members => ((Entries.find? tagKey members).bind Json.string?).getD "type"
  | _ => "type"

/-- The special type with a tag and with other entries.  An entry cannot replace
the tag. -/
def special (tag : String) (fields : List (String × Json)) : Json :=
  .object <| fields.foldl
    (fun members (key, json) => if key = tagKey then members else Entries.insert key json members)
    [(tagKey, .string tag)]

/-- A choice among definitions. -/
def choice (alternatives : List Json) : Json :=
  special "choice" [("choices", .array alternatives)]

/-- A definition with a name. -/
def named (name : String) (body : Json) : Json :=
  special "named" [("name", .string name), ("value", body)]

/-- A reference to a name. -/
def reference (name : String) : Json := special "reference" [("name", .string name)]

/-- A single value. -/
def literal (json : Json) : Json := special "literal" [("value", json)]

end Definition

namespace Schema

mutual

/-- The definition of a schema. -/
def toDefinition : Schema → Json
  | .primitive p => .string (Token.ofPrimitive p)
  | .list element => .array [toDefinition element]
  | .tuple elements => .array (toDefinitions elements)
  | .object fields wildcard => .object (addWildcard wildcard (addFields fields []))
  | .choice alternatives => Definition.choice (toDefinitions alternatives)
  | .named name body => Definition.named name (toDefinition body)
  | .reference name => Definition.reference name
  | .literal value => Definition.literal value.toJson

/-- The definitions of several schemas. -/
def toDefinitions : List Schema → List Json
  | [] => []
  | s :: ss => toDefinition s :: toDefinitions ss

/-- Store the definitions of fields under their keys. -/
def addFields : List (Field Schema) → List (String × Json) → List (String × Json)
  | [], members => members
  | ⟨name, optional, s⟩ :: rest, members =>
      addFields rest (Entries.insert (Token.ofKey optional name) (toDefinition s) members)

/-- Store the definition of a wildcard under its key. -/
def addWildcard : Option Schema → List (String × Json) → List (String × Json)
  | none, members => members
  | some s, members => Entries.insert Definition.wildcardKey (toDefinition s) members

end

/-- The text of a schema: the bare token of a primitive, and else the definition
on one line. -/
def text : Schema → String
  | .primitive p => Token.ofPrimitive p
  | s => s.toDefinition.compact

/-- The definition on many lines. -/
def pretty (s : Schema) : String := s.toDefinition.pretty

end Schema

end DataShape
