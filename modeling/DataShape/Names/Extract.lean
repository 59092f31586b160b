import DataShape.Names.Table

/-!
# Stripping names out of a schema

`extract` replaces every named type by its body and registers the body under its
name.  The parts of a body come before the body itself, and parts come from left
to right with the wildcard last.  A body is registered in its stripped form.

A name that is already in the table ends the extraction.  The names registered
until then stay in the table.
-/

namespace DataShape

/-- A computation that registers names, and that a clash of names may end. -/
abbrev Extraction (α : Type) : Type := ExceptT DefinitionError (StateM Table) α

/-- Give a name its body, unless the name has one. -/
def register (name : String) (body : Schema) : Extraction Unit := fun table =>
  if table.has name then (.error (.duplicateName name), table)
  else (.ok (), table ++ [(name, body)])

namespace Schema

mutual

/-- The schema with every named type replaced by its body. -/
def extract : Schema → Extraction Schema
  | .primitive p => pure (.primitive p)
  | .list element => do
      let element ← extract element
      return .list element
  | .tuple elements => do
      let elements ← extractAll elements
      return .tuple elements
  | .object fields wildcard => do
      let fields ← extractFields fields
      let wildcard ← extractWildcard wildcard
      return .object fields wildcard
  | .choice alternatives => do
      let alternatives ← extractAll alternatives
      return .choice alternatives
  | .named name body => do
      let body ← extract body
      register name body
      return body
  | .reference name => pure (.reference name)
  | .literal value => pure (.literal value)

/-- Extract several schemas from left to right. -/
def extractAll : List Schema → Extraction (List Schema)
  | [] => pure []
  | s :: ss => do
      let s ← extract s
      let ss ← extractAll ss
      return s :: ss

/-- Extract the schemas of fields in order. -/
def extractFields : List (Field Schema) → Extraction (List (Field Schema))
  | [] => pure []
  | ⟨name, optional, s⟩ :: fields => do
      let s ← extract s
      let fields ← extractFields fields
      return ⟨name, optional, s⟩ :: fields

/-- Extract a wildcard. -/
def extractWildcard : Option Schema → Extraction (Option Schema)
  | none => pure none
  | some s => do
      let s ← extract s
      return some s

end

/-- The stripped schema, or the clash that prevents it, and the table after it. -/
def extractInto (table : Table) (s : Schema) : Except DefinitionError Schema × Table :=
  (extract s).run.run table

/-- The stripped schema and the table of all its names. -/
def extractNamed (s : Schema) : Except DefinitionError (Table × Schema) :=
  match s.extractInto [] with
  | (.ok root, table) => .ok (table, root)
  | (.error e, _) => .error e

end Schema

end DataShape
