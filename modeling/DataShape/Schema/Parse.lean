import DataShape.Schema.Definition

/-!
# From definitions to schemas

`parse` reads a definition from left to right and stops at the first error.  It
reads the value of a member before it looks at the key.

In a special type only the entries that its tag asks for matter.  A named type
asks for its name before its body.  In an object schema the keys are compared
after their modifiers are taken off, and no name may come twice.
-/

namespace DataShape.Schema

/-- The schema of an array: a list if there is one element, and else a tuple. -/
def ofElements : List Schema → Schema
  | [element] => .list element
  | elements => .tuple elements

/-- The text that an entry of a special type has to hold. -/
def textEntry (tag field : String) (members : List (String × Json)) :
    Except DefinitionError String :=
  match Entries.find? field members with
  | some (.string s) => .ok s
  | _ => .error (.invalidSpecialField tag field)

/-- Add a field behind others, unless its name is taken. -/
def addField (fields : List (Field Schema)) (field : Field Schema) :
    Except DefinitionError (List (Field Schema)) :=
  if (Field.find? field.name fields).isSome then
    .error (.malformed ("property " ++ DefinitionError.marked field.name ++ " declared twice"))
  else .ok (fields ++ [field])

mutual

/-- The schema of a definition. -/
def parse : Json → Except DefinitionError Schema
  | .string token => (Token.readPrimitive token).map .primitive
  | .array items => (parseAll items).map ofElements
  | .object members =>
      match Entries.find? Definition.tagKey members with
      | none => parseFields [] none members
      | some (.string "choice") => parseChoices members
      | some (.string "named") => do
          let name ← textEntry "named" "name" members
          (parseBody members).map (.named name)
      | some (.string "reference") => (textEntry "reference" "name" members).map .reference
      | some (.string "literal") =>
          match Entries.find? "value" members with
          | some json => .ok (.literal (Value.ofJson json))
          | none => .error (.invalidSpecialField "literal" "value")
      | some (.string tag) => .error (.unknownSpecialType tag)
      | some _ => .error (.malformed (Json.object members).compact)
  | other => .error (.malformed other.compact)

/-- The schemas of several definitions. -/
def parseAll : List Json → Except DefinitionError (List Schema)
  | [] => .ok []
  | json :: rest => do
      let s ← parse json
      let ss ← parseAll rest
      .ok (s :: ss)

/-- The object schema of members, behind fields and a wildcard already read. -/
def parseFields (fields : List (Field Schema)) (wildcard : Option Schema) :
    List (String × Json) → Except DefinitionError Schema
  | [] => .ok (.object fields wildcard)
  | (key, json) :: rest => do
      let s ← parse json
      if key = Definition.wildcardKey then parseFields fields (some s) rest
      else
        let (optional, name) := Token.readKey key
        let fields ← addField fields ⟨name, optional, s⟩
        parseFields fields wildcard rest

/-- The choice whose alternatives are under the key `choices`. -/
def parseChoices : List (String × Json) → Except DefinitionError Schema
  | [] => .error (.invalidSpecialField "choice" "choices")
  | (key, json) :: rest =>
      if key = "choices" then
        match json with
        | .array [] => .error .emptyChoice
        | .array (first :: more) => do
            let s ← parse first
            let ss ← parseAll more
            .ok (.choice (s :: ss))
        | _ => .error (.invalidSpecialField "choice" "choices")
      else parseChoices rest

/-- The schema whose definition is under the key `value`. -/
def parseBody : List (String × Json) → Except DefinitionError Schema
  | [] => .error (.invalidSpecialField "named" "value")
  | (key, json) :: rest => if key = "value" then parse json else parseBody rest

end

end DataShape.Schema
