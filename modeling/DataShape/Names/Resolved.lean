import DataShape.Names.Verify

/-!
# Resolved schemas

A resolved schema is a stripped schema with the table of its names, both
checked.  It is made once and can then be used for any number of values.
-/

namespace DataShape

/-- A schema that is ready for use. -/
structure Resolved where
  table : Table
  root : Schema
  /-- Every reference resolves, and no name leads back to itself. -/
  verified : table.verify root = .ok ()

namespace Resolved

/-- Whether two resolved schemas have equal roots and tables. -/
def same (r s : Resolved) : Bool := r.root.same s.root && r.table.same s.table

end Resolved

/-- Strip the names out of a schema and check them.  There is an event for each
name that was registered, and one for a cycle. -/
def Schema.resolve (s : Schema) : Report Resolved :=
  match s.extractInto [] with
  | (extracted, table) =>
      let registered := table.keys.map Event.registered
      match extracted with
      | .error e => ⟨.error (.definition e), registered⟩
      | .ok root =>
          match verified : table.verify root with
          | .ok () => ⟨.ok ⟨table, root, verified⟩, registered⟩
          | .error r => ⟨.error (.definition r.error), registered ++ r.events⟩

end DataShape
