import DataShape.Names.Extract
import DataShape.Report

/-!
# Checking names

A schema and its table are usable if every reference resolves and no name leads
back to itself without a list, a tuple or an object in between.  Walking through
one of these three consumes a part of the value.  A choice does not.

References are checked first, those of the root before those of the bodies, and
from left to right.  Then the names are searched in ascending order, depth
first.  The *trail* holds the names on the way from the start of the search.  A
name is *cleared* once everything that it reaches is known to be free of cycles.
Meeting a name of the trail again is a cycle.
-/

namespace DataShape

/-! ## References -/

namespace Table

mutual

/-- Check that every reference of a schema resolves. -/
def checkReferences (table : Table) : Schema → Except DefinitionError Unit
  | .primitive _ => .ok ()
  | .list element => checkReferences table element
  | .tuple elements => checkAll table elements
  | .object fields wildcard => do
      checkFields table fields
      checkWildcard table wildcard
  | .choice alternatives => checkAll table alternatives
  | .named _ body => checkReferences table body
  | .reference name => (table.resolve (.reference name)).map fun _ => ()
  | .literal _ => .ok ()

/-- Check several schemas from left to right. -/
def checkAll (table : Table) : List Schema → Except DefinitionError Unit
  | [] => .ok ()
  | s :: ss => do
      checkReferences table s
      checkAll table ss

/-- Check the schemas of fields in order. -/
def checkFields (table : Table) : List (Field Schema) → Except DefinitionError Unit
  | [] => .ok ()
  | ⟨_, _, s⟩ :: fields => do
      checkReferences table s
      checkFields table fields

/-- Check a wildcard. -/
def checkWildcard (table : Table) : Option Schema → Except DefinitionError Unit
  | none => .ok ()
  | some s => checkReferences table s

end

/-- Check the bodies of entries in order. -/
def checkBodies (table : Table) : List (String × Schema) → Except DefinitionError Unit
  | [] => .ok ()
  | (_, body) :: rest => do
      checkReferences table body
      checkBodies table rest

end Table

/-! ## Cycles -/

namespace Schema

mutual

/-- The names a schema refers to through choices and named types alone. -/
def unnested : Schema → List String
  | .choice alternatives => unnestedAll alternatives
  | .named _ body => unnested body
  | .reference name => [name]
  | _ => []

/-- The names that several schemas refer to in this way. -/
def unnestedAll : List Schema → List String
  | [] => []
  | s :: ss => unnested s ++ unnestedAll ss

end

end Schema

/-- A trail of names, the last of which leads back to one of them. -/
structure Cycle where
  /-- The names from the start of the search. -/
  trail : List String
  /-- The name of the trail that comes next. -/
  back : String
deriving DecidableEq, Repr

namespace Table

/-- The names that a name reaches without consuming any part of a value. -/
def reached (table : Table) (name : String) : List String :=
  match Entries.find? name table with
  | some body => body.unnested
  | none => []

/-- Search from a name at the end of a trail, and return the cleared names.  A
trail holds distinct names, so `depth` is never used up if it starts as the
number of names. -/
def search (table : Table) : (depth : Nat) → (trail cleared : List String) → (name : String) →
    Except Cycle (List String)
  | 0, _, cleared, _ => .ok cleared
  | depth + 1, trail, cleared, name =>
      if name ∈ cleared then .ok cleared
      else do
        let cleared ← (table.reached name).foldlM (fun cleared next =>
          if next ∈ trail then .error ⟨trail, next⟩
          else table.search depth (trail ++ [next]) cleared next) cleared
        .ok (name :: cleared)

/-- Search from each of several names, and return the cleared names. -/
def searchFrom (table : Table) (cleared : List String) : List String →
    Except Cycle (List String)
  | [] => .ok cleared
  | name :: rest => do
      let cleared ← table.search table.length [name] cleared name
      table.searchFrom cleared rest

/-- Check that no name leads back to itself. -/
def checkCycles (table : Table) : Except Cycle Unit :=
  (table.searchFrom [] table.sortedNames).map fun _ => ()

/-! ## Both checks -/

/-- Why names make no sense. -/
inductive Rejection where
  /-- A reference does not resolve. -/
  | reference (error : DefinitionError)
  /-- A name leads back to itself. -/
  | cycle (cycle : Cycle)
deriving DecidableEq, Repr

/-- The error of a rejection. -/
def Rejection.error : Rejection → DefinitionError
  | .reference e => e
  | .cycle c => .referenceCycle c.back

/-- The events of a rejection. -/
def Rejection.events : Rejection → List Event
  | .reference _ => []
  | .cycle c => [.cycleRejected c.trail c.back]

/-- Check the references of a root and of all bodies, and then the cycles. -/
def verify (table : Table) (root : Schema) : Except Rejection Unit := do
  (table.checkReferences root).mapError .reference
  (table.checkBodies table).mapError .reference
  table.checkCycles.mapError .cycle

end Table

end DataShape
