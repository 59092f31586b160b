import DataShape.Schema.Error
import DataShape.Schema.Basic

/-!
# The table of names

A table gives names their bodies, in the order in which they were registered.
References are looked up here, so a recursive schema never becomes a cyclic
structure.

`resolve` follows references until something else is found.  A chain of
references through a table with `n` names either ends after at most `n` of them
or is endless.  So a chain that is still not at its end after `n + 1` names is a
cycle, and the name it has reached by then lies on it.
-/

namespace DataShape

/-- Names and their bodies, first registered first. -/
abbrev Table : Type := Entries Schema

namespace Table

/-- Follow references through at most `limit` names. -/
def follow (table : Table) : (limit : Nat) → Schema → Except DefinitionError Schema
  | 0, .reference name => .error (.referenceCycle name)
  | limit + 1, .reference name =>
      match Entries.find? name table with
      | none => .error (.unresolvedReference name)
      | some body => follow table limit body
  | _, schema => .ok schema

/-- Follow references until something else is found. -/
def resolve (table : Table) (schema : Schema) : Except DefinitionError Schema :=
  table.follow (table.length + 1) schema

/-- The number of nodes of all bodies. -/
def weight (table : Table) : Nat := (table.map fun (_, body) => body.size).foldr (· + ·) 0

/-- Whether two tables give the same names equal bodies, in any order. -/
def same (table other : Table) : Bool :=
  table.length == other.length &&
    table.all fun (name, body) =>
      match Entries.find? name other with
      | some body' => body.same body'
      | none => false

/-! ## Sorted names -/

/-- Put a name in front of the first one that is not below it. -/
def insertName (name : String) : List String → List String
  | [] => [name]
  | other :: rest => if other < name then other :: insertName name rest else name :: other :: rest

/-- Names in ascending order of their code points, which is also the order of
their UTF-8 bytes. -/
def sortNames : List String → List String
  | [] => []
  | name :: rest => insertName name (sortNames rest)

/-- The names of a table in ascending order. -/
def sortedNames (table : Table) : List String := sortNames table.keys

example : sortNames ["b", "é", "", "a"] = ["", "a", "b", "é"] := by decide +kernel

end Table

end DataShape
